import Mathlib.Data.List.Induction
import Mayhem.Wire

/-! FLV output: what `flv.c` writes to a file and what `pymayhem.c` pushes to its owner,
and a reader of the format. -/
namespace Mayhem.Flv

structure RtmpPkt where
  ts : UInt32
  type : UInt8
deriving DecidableEq

/-- Packed; all zeros at first. -/
structure FlvTag where
  type : UInt8 := 0
  len : Vector UInt8 3 := #v[0, 0, 0]
  ts : Vector UInt8 3 := #v[0, 0, 0]
  tsHigh : UInt8 := 0
  id : Vector UInt8 3 := #v[0, 0, 0]

namespace FlvTag

def sizeof : ℕ := 11

/-- The structure in memory. -/
def bytes (tag : FlvTag) : List UInt8 :=
  tag.type :: tag.len.toList ++ tag.ts.toList ++ tag.tsHigh :: tag.id.toList

@[simp] theorem bytes_length (tag : FlvTag) : tag.bytes.length = sizeof := by
  simp [bytes, sizeof]

end FlvTag

/-! ### `flv.c` -/

/-- `FLV`, version 1, audio and video, a header of 9 bytes, and no tag before the first one. -/
def hdr : List UInt8 := [0x46, 0x4c, 0x56, 1, 5, 0, 0, 0, 9, 0, 0, 0, 0]

/-- A file is what has been written to it, NULL if it could not be opened. -/
def flvCreat (fopen : Bool) : Option (List UInt8) := if fopen then some hdr else none

def flvRip (f : Option (List UInt8)) (pkt : RtmpPkt) (buf : List UInt8) : Option (List UInt8) :=
  match f with
  | none => none
  | some f =>
    let sz := buf.length
    if sz = 0 then some f
    else if pkt.type = RTMP_MSG_AUDIO ∧ sz ≤ 2 then some f
    else if pkt.type = RTMP_MSG_VIDEO ∧ sz ≤ 6 then some f
    else
      let tag : FlvTag :=
        { type := pkt.type
          len := #v[(sz >>> 16 &&& 0xff).toUInt8, (sz >>> 8 &&& 0xff).toUInt8,
            (sz &&& 0xff).toUInt8]
          ts := #v[(pkt.ts >>> 16 &&& 0xff).toUInt8, (pkt.ts >>> 8 &&& 0xff).toUInt8,
            (pkt.ts &&& 0xff).toUInt8]
          tsHigh := (pkt.ts >>> 24 &&& 0xff).toUInt8 }
      let f := f ++ tag.bytes
      let f := f ++ buf
      let sz := sz + FlvTag.sizeof
      let prevTagSz := [(sz >>> 24 &&& 0xff).toUInt8, (sz >>> 16 &&& 0xff).toUInt8,
        (sz >>> 8 &&& 0xff).toUInt8, (sz &&& 0xff).toUInt8]
      some (f ++ prevTagSz)

/-- The file after each of the packets. -/
def flvFile (pkts : List (RtmpPkt × List UInt8)) : Option (List UInt8) :=
  pkts.foldl (fun f p => flvRip f p.1 p.2) (flvCreat true)

/-! ### `pymayhem.c` -/

/-- The buffers that `push_flv` has been called with. -/
abbrev Pushed := List (List UInt8)

/-- With an array of its own. -/
def play (self : Pushed) : Pushed :=
  let hdr : List UInt8 := [0x46, 0x4c, 0x56, 1, 5, 0, 0, 0, 9, 0, 0, 0, 0]
  self ++ [hdr]

/-- `heap n` is what lies in the memory of the `n`th `malloc`, which succeeds. -/
def rip (heap : ℕ → Memory) (self : Pushed) (pkt : RtmpPkt) (buf : List UInt8) : Pushed :=
  let sz := buf.length
  if sz = 0 then self
  else if pkt.type = RTMP_MSG_AUDIO ∧ sz ≤ 2 then self
  else if pkt.type = RTMP_MSG_VIDEO ∧ sz ≤ 6 then self
  else
    let fsz := FlvTag.sizeof + sz + 4
    let fbuf := heap self.length
    let tag : FlvTag :=
      { type := pkt.type
        len := #v[(sz >>> 16 &&& 0xff).toUInt8, (sz >>> 8 &&& 0xff).toUInt8,
          (sz &&& 0xff).toUInt8]
        ts := #v[(pkt.ts >>> 16 &&& 0xff).toUInt8, (pkt.ts >>> 8 &&& 0xff).toUInt8,
          (pkt.ts &&& 0xff).toUInt8]
        tsHigh := (pkt.ts >>> 24 &&& 0xff).toUInt8 }
    let tsz := sz + FlvTag.sizeof
    let prevTagSz := [(tsz >>> 24 &&& 0xff).toUInt8, (tsz >>> 16 &&& 0xff).toUInt8,
      (tsz >>> 8 &&& 0xff).toUInt8, (tsz &&& 0xff).toUInt8]
    let fbuf := fbuf.write 0 tag.bytes
    let fbuf := fbuf.write FlvTag.sizeof buf
    let fbuf := fbuf.write (FlvTag.sizeof + sz) prevTagSz
    self ++ [fbuf.bytes 0 fsz]

/-- What has been pushed after each of the packets. -/
def pushed (heap : ℕ → Memory) (pkts : List (RtmpPkt × List UInt8)) : Pushed :=
  pkts.foldl (fun self p => rip heap self p.1 p.2) (play [])

/-! ### A reader -/

/-- A big-endian number. -/
def number (bs : List UInt8) : ℕ := bs.foldl (fun n b => 256 * n + b.toNat) 0

/-- A tag: the high byte of the time is behind the others. The size of the tag follows it. -/
def readTag : List UInt8 → Option ((RtmpPkt × List UInt8) × List UInt8)
  | type :: l₀ :: l₁ :: l₂ :: t₀ :: t₁ :: t₂ :: t₃ :: 0 :: 0 :: 0 :: rest =>
    let len := number [l₀, l₁, l₂]
    let data := rest.take len
    let size := (rest.drop len).take 4
    if data.length = len ∧ size.length = 4 ∧ number size = 11 + len then
      some (({ type, ts := .ofNat (number [t₃, t₀, t₁, t₂]) }, data), rest.drop (len + 4))
    else none
  | _ => none

/-- The tags up to the end of the file, of which each takes some of the fuel. -/
def readTags : ℕ → List UInt8 → Option (List (RtmpPkt × List UInt8))
  | _, [] => some []
  | 0, _ => none
  | fuel + 1, bs => do
    let (tag, rest) ← readTag bs
    let tags ← readTags fuel rest
    return tag :: tags

def readFlv : List UInt8 → Option (List (RtmpPkt × List UInt8))
  | 0x46 :: 0x4c :: 0x56 :: 1 :: _ :: 0 :: 0 :: 0 :: 9 :: 0 :: 0 :: 0 :: 0 :: rest =>
    readTags rest.length rest
  | _ => none

/-- The packets that are not left out. -/
def Kept (p : RtmpPkt × List UInt8) : Prop :=
  p.2 ≠ [] ∧ (p.1.type = RTMP_MSG_AUDIO → 2 < p.2.length) ∧
    (p.1.type = RTMP_MSG_VIDEO → 6 < p.2.length)

instance : DecidablePred Kept := fun _ => inferInstanceAs (Decidable (_ ∧ _ ∧ _))

/-! ### The two writers -/

/-- The tag of a packet of `sz` bytes. -/
def header (pkt : RtmpPkt) (sz : ℕ) : List UInt8 :=
  [pkt.type, (sz >>> 16 &&& 0xff).toUInt8, (sz >>> 8 &&& 0xff).toUInt8, (sz &&& 0xff).toUInt8,
    (pkt.ts >>> 16 &&& 0xff).toUInt8, (pkt.ts >>> 8 &&& 0xff).toUInt8, (pkt.ts &&& 0xff).toUInt8,
    (pkt.ts >>> 24 &&& 0xff).toUInt8, 0, 0, 0]

def trailer (sz : ℕ) : List UInt8 :=
  [(sz >>> 24 &&& 0xff).toUInt8, (sz >>> 16 &&& 0xff).toUInt8, (sz >>> 8 &&& 0xff).toUInt8,
    (sz &&& 0xff).toUInt8]

/-- A packet in the file. -/
def record (p : RtmpPkt × List UInt8) : List UInt8 :=
  header p.1 p.2.length ++ (p.2 ++ trailer (p.2.length + FlvTag.sizeof))

variable {p : RtmpPkt × List UInt8} {pkts : List (RtmpPkt × List UInt8)} {heap : ℕ → Memory}

/-- The tests of both writers. -/
theorem ite_kept {α : Type} (a b : α) :
    (if p.2.length = 0 then a
      else if p.1.type = RTMP_MSG_AUDIO ∧ p.2.length ≤ 2 then a
      else if p.1.type = RTMP_MSG_VIDEO ∧ p.2.length ≤ 6 then a else b) =
    if Kept p then b else a := by
  have hne : p.2 ≠ [] ↔ p.2.length ≠ 0 := not_congr List.length_eq_zero_iff.symm
  by_cases hk : Kept p
  · rw [if_pos hk, if_neg (hne.mp hk.1), if_neg fun h => Nat.not_lt.mpr h.2 (hk.2.1 h.1),
      if_neg fun h => Nat.not_lt.mpr h.2 (hk.2.2 h.1)]
  · rw [if_neg hk]
    split_ifs with h₀ h₁ h₂
    · rfl
    · rfl
    · rfl
    · exact absurd ⟨hne.mpr h₀, fun ha => Nat.not_le.mp fun h => h₁ ⟨ha, h⟩,
        fun hv => Nat.not_le.mp fun h => h₂ ⟨hv, h⟩⟩ hk

theorem flvRip_some (f : List UInt8) :
    flvRip (some f) p.1 p.2 = some (if Kept p then f ++ record p else f) := by
  have hrip : flvRip (some f) p.1 p.2 = if Kept p then some (f ++ record p) else some f := by
    rw [← ite_kept]
    simp only [flvRip, record, header, trailer, FlvTag.bytes, List.append_assoc]
    rfl
  rw [hrip]
  split <;> rfl

/-- The three copies fill the buffer, whatever was in it. -/
theorem bytes_three_writes (m : Memory) (a b c : List UInt8) :
    (((m.write 0 a).write a.length b).write (a.length + b.length) c).bytes 0
      (a.length + b.length + c.length) = a ++ b ++ c := by
  have hb := Memory.bytes_write_append (m.write 0 a) 0 a.length b
  have hc := Memory.bytes_write_append ((m.write 0 a).write a.length b) 0 (a.length + b.length) c
  rw [Nat.zero_add] at hb hc
  rw [hc, hb, Memory.bytes_write_self]

theorem rip_eq (self : Pushed) :
    rip heap self p.1 p.2 = if Kept p then self ++ [record p] else self := by
  have hbytes := bytes_three_writes (heap self.length) (header p.1 p.2.length) p.2
    (trailer (p.2.length + FlvTag.sizeof))
  rw [List.append_assoc] at hbytes
  rw [← ite_kept, record, ← hbytes]
  rfl

/-- The file is the header and what is kept, one record behind the other. -/
theorem flvFile_eq (pkts : List (RtmpPkt × List UInt8)) :
    flvFile pkts = some (hdr ++ (pkts.filter Kept).flatMap record) := by
  induction pkts using List.reverseRecOn with
  | nil => rfl
  | append_singleton pkts p ih =>
    rw [flvFile] at ih ⊢
    rw [List.foldl_append, ih, List.foldl_cons, List.foldl_nil, flvRip_some, List.filter_append,
      List.flatMap_append]
    by_cases hk : Kept p
    · simp [hk]
    · simp [hk]

theorem pushed_eq (pkts : List (RtmpPkt × List UInt8)) :
    pushed heap pkts = hdr :: (pkts.filter Kept).map record := by
  induction pkts using List.reverseRecOn with
  | nil => rfl
  | append_singleton pkts p ih =>
    rw [pushed] at ih ⊢
    rw [List.foldl_append, ih, List.foldl_cons, List.foldl_nil, rip_eq, List.filter_append,
      List.map_append]
    by_cases hk : Kept p
    · simp [hk]
    · simp [hk]

/-! ### Reading back -/

private theorem byte_toNat (n k : ℕ) : (n >>> k &&& 0xff).toUInt8.toNat = n / 2 ^ k % 256 := by
  rw [Nat.toUInt8, UInt8.toNat_ofNat', show (0xff : ℕ) = 2 ^ 8 - 1 from rfl,
    Nat.and_two_pow_sub_one_eq_mod, Nat.shiftRight_eq_div_pow, Nat.mod_mod]

theorem number_trailer {n : ℕ} (hn : n < 2 ^ 32) : number (trailer n) = n := by
  have h₀ : (n &&& 0xff).toUInt8.toNat = n % 256 := by simpa using byte_toNat n 0
  simp only [number, trailer, List.foldl_cons, List.foldl_nil, byte_toNat, h₀]
  omega

theorem number_size {n : ℕ} (hn : n < 2 ^ 24) :
    number [(n >>> 16 &&& 0xff).toUInt8, (n >>> 8 &&& 0xff).toUInt8, (n &&& 0xff).toUInt8] = n := by
  have h₀ : (n &&& 0xff).toUInt8.toNat = n % 256 := by simpa using byte_toNat n 0
  simp only [number, List.foldl_cons, List.foldl_nil, byte_toNat, h₀]
  omega

/-- The four bytes of a time, the highest one first. -/
theorem number_time (ts : UInt32) : number (encodeInt32 ts) = ts.toNat := by
  obtain ⟨m, hm⟩ : ∃ m : Memory, m.bytes 0 4 = encodeInt32 ts :=
    ⟨.ofList (encodeInt32 ts) fun _ => 0, Memory.bytes_ofList _ _⟩
  have hts := congrArg UInt32.toNat (decodeInt32_encode hm)
  rw [decodeInt32_toNat] at hts
  rw [← hm]
  simp only [number, Memory.bytes, List.foldl_cons, List.foldl_nil, Nat.zero_add, Nat.reduceAdd]
    at hts ⊢
  omega

/-- The reader takes a record, and is in front of the next one. -/
theorem readTag_record (hlen : p.2.length < 2 ^ 24) (rest : List UInt8) :
    readTag (record p ++ rest) = some (p, rest) := by
  obtain ⟨pkt, buf⟩ := p
  have htrailer : number (trailer (buf.length + FlvTag.sizeof)) = 11 + buf.length := by
    rw [number_trailer (Nat.lt_of_lt_of_le (Nat.add_lt_add_right hlen _) (by decide)), Nat.add_comm]
    rfl
  have htime : UInt32.ofNat (number (encodeInt32 pkt.ts)) = pkt.ts := by
    rw [number_time, UInt32.ofNat_toNat]
  have hdata : (buf ++ (trailer (buf.length + FlvTag.sizeof) ++ rest)).take buf.length = buf :=
    List.take_left' rfl
  have hsize : ((buf ++ (trailer (buf.length + FlvTag.sizeof) ++ rest)).drop buf.length).take 4 =
      trailer (buf.length + FlvTag.sizeof) := by
    rw [List.drop_left' rfl]
    exact List.take_left' rfl
  have hrest : (buf ++ (trailer (buf.length + FlvTag.sizeof) ++ rest)).drop (buf.length + 4) =
      rest := by
    rw [← List.drop_drop, List.drop_left' rfl]
    exact List.drop_left' rfl
  rw [record, List.append_assoc, List.append_assoc, header]
  simp only [List.cons_append, List.nil_append, readTag, number_size hlen, hdata, hsize, htrailer,
    hrest]
  rw [if_pos ⟨trivial, rfl, trivial⟩]
  exact congrArg (fun ts => some ((({ type := pkt.type, ts } : RtmpPkt), buf), rest)) htime

theorem readTags_records (fuel : ℕ) (hfuel : pkts.length ≤ fuel)
    (hlen : ∀ p ∈ pkts, p.2.length < 2 ^ 24) : readTags fuel (pkts.flatMap record) = some pkts := by
  induction pkts generalizing fuel with
  | nil =>
    cases fuel <;> rfl
  | cons p pkts ih =>
    obtain ⟨hp, hpkts⟩ := List.forall_mem_cons.mp hlen
    cases fuel with
    | zero => exact absurd hfuel (Nat.not_succ_le_zero _)
    | succ fuel =>
      obtain ⟨b, bs, hne⟩ : ∃ b bs, record p ++ pkts.flatMap record = b :: bs := ⟨_, _, rfl⟩
      have hrun : readTags (fuel + 1) (b :: bs) = (readTag (b :: bs)).bind fun r =>
          (readTags fuel r.2).bind fun tags => some (r.1 :: tags) := rfl
      rw [List.flatMap_cons, hne, hrun, ← hne, readTag_record hp, Option.bind_some,
        ih fuel (Nat.le_of_succ_le_succ hfuel) hpkts, Option.bind_some]

theorem length_le_records (pkts : List (RtmpPkt × List UInt8)) :
    pkts.length ≤ (pkts.flatMap record).length := by
  induction pkts with
  | nil => exact Nat.le_refl 0
  | cons p pkts ih =>
    have hp : 1 ≤ (record p).length := Nat.le_add_left 1 _
    rw [List.flatMap_cons, List.length_append, List.length_cons]
    omega

/-- Both writers make the same bytes, and a reader finds in them the packets that are kept. -/
theorem flv_faithful (heap : ℕ → Memory) (pkts : List (RtmpPkt × List UInt8))
    (hlen : ∀ p ∈ pkts, p.2.length < 2 ^ 24) :
    ∃ file, flvFile pkts = some file ∧ (pushed heap pkts).flatten = file ∧
      readFlv file = some (pkts.filter Kept) := by
  refine ⟨hdr ++ (pkts.filter Kept).flatMap record, flvFile_eq pkts, ?_, ?_⟩
  · rw [pushed_eq, List.flatten_cons, List.flatMap_def]
  · exact readTags_records _ (length_le_records _) fun p hp => hlen p (List.mem_filter.mp hp).1

/-- Of six packets those without a payload of their own are left out. -/
def broadcast : List (RtmpPkt × List UInt8) :=
  [(⟨0, RTMP_MSG_NOTIFY⟩, [2, 0, 0]), (⟨0, RTMP_MSG_AUDIO⟩, [0xaf, 0]),
    (⟨0, RTMP_MSG_VIDEO⟩, [0x17, 0, 0, 0, 0, 0, 9]), (⟨0xffffff, RTMP_MSG_VIDEO⟩, []),
    (⟨0x1000000, RTMP_MSG_AUDIO⟩, [0xaf, 1, 2]),
    (⟨0x1000017, RTMP_MSG_VIDEO⟩, [0x27, 1, 0, 0, 0, 0])]

theorem flv_faithful_broadcast : ∃ file, flvFile broadcast = some file ∧
    (pushed (fun _ _ => 0xff) broadcast).flatten = file ∧
    readFlv file = some
      [(⟨0, RTMP_MSG_NOTIFY⟩, [2, 0, 0]), (⟨0, RTMP_MSG_VIDEO⟩, [0x17, 0, 0, 0, 0, 0, 9]),
        (⟨0x1000000, RTMP_MSG_AUDIO⟩, [0xaf, 1, 2])] :=
  flv_faithful (fun _ _ => 0xff) broadcast (by decide)

end Mayhem.Flv
