import Mayhem.Rtmp.Chan

/-! RTMP chunks as a sender describes them: a basic header in one of three forms,
a message header of one of four types and a body. `chunkIn_bytes` is what the
decoder does with the bytes of one whole chunk. -/
namespace Mayhem

/-- The three ways to write a channel number. -/
inductive BasicForm
  | one
  | two
  | three
deriving DecidableEq, Repr

namespace BasicForm

/-- The channels each form can carry. -/
def Fits : BasicForm → ℕ → Prop
  | one, chan => 2 ≤ chan ∧ chan < 64
  | two, chan => 64 ≤ chan ∧ chan < 320
  | three, chan => 64 ≤ chan ∧ chan < 65600

instance (f : BasicForm) (chan : ℕ) : Decidable (f.Fits chan) := by
  cases f <;> exact inferInstanceAs (Decidable (_ ∧ _))

def bytes (htype chan : ℕ) : BasicForm → List UInt8
  | one => [UInt8.ofNat (htype * 64 + chan)]
  | two => [UInt8.ofNat (htype * 64), UInt8.ofNat (chan - 64)]
  | three => [UInt8.ofNat (htype * 64 + 1), UInt8.ofNat ((chan - 64) % 256),
      UInt8.ofNat ((chan - 64) / 256)]

def len : BasicForm → ℕ
  | one => 1
  | two => 2
  | three => 3

@[simp] theorem bytes_length (f : BasicForm) (htype chan : ℕ) :
    (f.bytes htype chan).length = f.len := by
  cases f <;> rfl

theorem len_pos (f : BasicForm) : 0 < f.len := by cases f <;> decide

theorem len_le (f : BasicForm) : f.len ≤ 3 := by cases f <;> decide

/-- The first byte alone gives the header type and the form. -/
theorem first_byte {f : BasicForm} {htype chan : ℕ} (hf : f.Fits chan) (ht : htype < 4)
    {b : UInt8} {bs : List UInt8} (h : f.bytes htype chan = b :: bs) :
    b.toNat / 64 = htype ∧ basicLen b = f.len := by
  cases f with
  | one =>
    obtain ⟨h2, h64⟩ := hf
    obtain ⟨rfl, -⟩ := List.cons.inj h
    have hb : (UInt8.ofNat (htype * 64 + chan)).toNat = htype * 64 + chan := by
      rw [UInt8.toNat_ofNat']; omega
    refine ⟨by omega, ?_⟩
    unfold basicLen
    rw [byte_chan, hb]
    split <;> first | rfl | omega
  | two =>
    obtain ⟨rfl, -⟩ := List.cons.inj h
    have hb : (UInt8.ofNat (htype * 64)).toNat = htype * 64 := by
      rw [UInt8.toNat_ofNat']; omega
    refine ⟨by omega, ?_⟩
    unfold basicLen
    rw [byte_chan, hb, show htype * 64 % 64 = 0 by omega]
    rfl
  | three =>
    obtain ⟨rfl, -⟩ := List.cons.inj h
    have hb : (UInt8.ofNat (htype * 64 + 1)).toNat = htype * 64 + 1 := by
      rw [UInt8.toNat_ofNat']; omega
    refine ⟨by omega, ?_⟩
    unfold basicLen
    rw [byte_chan, hb, show (htype * 64 + 1) % 64 = 1 by omega]
    rfl

end BasicForm

/-- The four message headers; a timestamp field is absolute or a delta as the
type says. -/
inductive MsgHdr
  | full (ts len : UInt32) (type : UInt8) (dest : UInt32)
  | medium (ts len : UInt32) (type : UInt8)
  | small (ts : UInt32)
  | none
deriving DecidableEq, Repr

namespace MsgHdr

def htype : MsgHdr → ℕ
  | full .. => 0
  | medium .. => 1
  | small _ => 2
  | none => 3

def bytes : MsgHdr → List UInt8
  | full ts len type dest => encodeInt24 ts ++ encodeInt24 len ++ [type] ++ encodeInt32le dest
  | medium ts len type => encodeInt24 ts ++ encodeInt24 len ++ [type]
  | small ts => encodeInt24 ts
  | none => []

/-- Timestamp fields below the sentinel, lengths of 24 bits. -/
def Ok : MsgHdr → Prop
  | full ts len _ _ => ts.toNat < 0xffffff ∧ len.toNat < 2 ^ 24
  | medium ts len _ => ts.toNat < 0xffffff ∧ len.toNat < 2 ^ 24
  | small ts => ts.toNat < 0xffffff
  | none => True

instance (h : MsgHdr) : Decidable h.Ok := by
  cases h
  · exact inferInstanceAs (Decidable (_ ∧ _))
  · exact inferInstanceAs (Decidable (_ ∧ _))
  · exact inferInstanceAs (Decidable (_ < _))
  · exact inferInstanceAs (Decidable True)

/-- What a header changes in its channel. -/
def apply : MsgHdr → RtmpChan → RtmpChan
  | full ts len type dest, pkt =>
    { pkt with curTs := ts, sz := len, type := type, dest := dest }
  | medium ts len type, pkt => { pkt with curTs := ts, sz := len, type := type }
  | small ts, pkt => { pkt with curTs := ts }
  | none, pkt => pkt

def len : MsgHdr → ℕ
  | full .. => 11
  | medium .. => 7
  | small _ => 3
  | none => 0

@[simp] theorem bytes_length (h : MsgHdr) : h.bytes.length = h.len := by
  cases h <;> simp [bytes, len]

theorem htype_lt (h : MsgHdr) : h.htype < 4 := by cases h <;> simp [htype]

theorem len_le (h : MsgHdr) : h.len ≤ 11 := by cases h <;> simp [len]

@[simp] theorem apply_pBuf (h : MsgHdr) (pkt : RtmpChan) : (h.apply pkt).pBuf = pkt.pBuf := by
  cases h <;> rfl

@[simp] theorem apply_pLeft (h : MsgHdr) (pkt : RtmpChan) : (h.apply pkt).pLeft = pkt.pLeft := by
  cases h <;> rfl

@[simp] theorem apply_ts (h : MsgHdr) (pkt : RtmpChan) : (h.apply pkt).ts = pkt.ts := by
  cases h <;> rfl

end MsgHdr

theorem ne_sentinel {v : UInt32} (h : v.toNat < 0xffffff) : v ≠ 0xffffff := by
  rintro rfl
  exact absurd h (by decide)

/-- No header of a well-formed chunk leaves the sentinel in its channel. -/
theorem MsgHdr.Ok.apply_curTs {h : MsgHdr} (hok : h.Ok) {pkt : RtmpChan}
    (hpkt : pkt.curTs ≠ 0xffffff) : (h.apply pkt).curTs ≠ 0xffffff := by
  cases h with
  | full ts len type dest => exact ne_sentinel hok.1
  | medium ts len type => exact ne_sentinel hok.1
  | small ts => exact ne_sentinel hok
  | none => exact hpkt

/-- The decoder reads a message header back. A type 3 header leaves the decoder to
the channel's last timestamp field, which must not be the sentinel. -/
theorem msgHdr_bytes {h : MsgHdr} (hok : h.Ok) {m : Memory} {ptr : ℕ} {pkt : RtmpChan}
    (hts : h.htype = 3 → pkt.curTs ≠ 0xffffff) (hb : m.bytes ptr h.len = h.bytes) :
    msgHdr m (sizes h.htype) ptr pkt = (h.apply pkt, ptr + h.len) := by
  cases h with
  | full ts len type dest =>
    obtain ⟨hlt, hlen⟩ := hok
    simp only [MsgHdr.len, MsgHdr.bytes] at hb
    have hsplit := (m.bytes_append_iff ptr (encodeInt24 ts ++ encodeInt24 len ++ [type])
      (encodeInt32le dest)).mp hb
    have hsplit' := (m.bytes_append_iff ptr (encodeInt24 ts ++ encodeInt24 len) [type]).mp hsplit.1
    have hsplit'' := (m.bytes_append_iff ptr (encodeInt24 ts) (encodeInt24 len)).mp hsplit'.1
    have h1 : decodeInt24 m ptr = ts := decodeInt24_encode (by omega) hsplit''.1
    have h2 : decodeInt24 m (ptr + 3) = len := decodeInt24_encode hlen hsplit''.2
    have h3 : m (ptr + 6) = type := by simpa [Memory.bytes] using hsplit'.2
    have h4 : decodeInt32le m (ptr + 7) = dest := decodeInt32le_encode hsplit.2
    simp [msgHdr, sizes, MsgHdr.htype, h1, h2, h3, h4, ne_sentinel hlt, MsgHdr.apply, MsgHdr.len]
  | medium ts len type =>
    obtain ⟨hlt, hlen⟩ := hok
    simp only [MsgHdr.len, MsgHdr.bytes] at hb
    have hsplit' := (m.bytes_append_iff ptr (encodeInt24 ts ++ encodeInt24 len) [type]).mp hb
    have hsplit'' := (m.bytes_append_iff ptr (encodeInt24 ts) (encodeInt24 len)).mp hsplit'.1
    have h1 : decodeInt24 m ptr = ts := decodeInt24_encode (by omega) hsplit''.1
    have h2 : decodeInt24 m (ptr + 3) = len := decodeInt24_encode hlen hsplit''.2
    have h3 : m (ptr + 6) = type := by simpa [Memory.bytes] using hsplit'.2
    simp [msgHdr, sizes, MsgHdr.htype, h1, h2, h3, ne_sentinel hlt, MsgHdr.apply, MsgHdr.len]
  | small ts =>
    have hlt : ts.toNat < 0xffffff := hok
    have h1 : decodeInt24 m ptr = ts := decodeInt24_encode (by omega) hb
    simp [msgHdr, sizes, MsgHdr.htype, h1, ne_sentinel hlt, MsgHdr.apply, MsgHdr.len]
  | none =>
    simp [msgHdr, sizes, MsgHdr.htype, hts rfl, MsgHdr.apply, MsgHdr.len]

theorem basicHdr_bytes {f : BasicForm} {htype chan : ℕ} (hf : f.Fits chan) (ht : htype < 4)
    {m : Memory} (hb : m.bytes 0 f.len = f.bytes htype chan) :
    basicHdr m = ⟨htype, chan, f.len⟩ := by
  have htype' : (basicHdr m).type = htype := by
    rw [basicHdr_type]
    cases f <;> exact (BasicForm.first_byte hf ht (hb.symm.trans rfl)).1
  have hptr : (basicHdr m).ptr = f.len := by
    rw [basicHdr_ptr_eq]
    cases f <;> exact (BasicForm.first_byte hf ht (hb.symm.trans rfl)).2
  have hchan : (basicHdr m).chan = chan := by
    cases f with
    | one =>
      obtain ⟨h2, h64⟩ := hf
      have h0 : m 0 = UInt8.ofNat (htype * 64 + chan) := (List.cons.inj hb).1
      have hb : (m 0 &&& 0x3f).toNat = chan := by
        rw [byte_chan, h0, UInt8.toNat_ofNat']; omega
      unfold basicHdr
      rw [hb]
      split <;> first | rfl | omega
    | two =>
      obtain ⟨h64, h320⟩ := hf
      obtain ⟨h0, h1⟩ : m 0 = UInt8.ofNat (htype * 64) ∧ m 1 = UInt8.ofNat (chan - 64) := by
        simpa [Memory.bytes, BasicForm.bytes, BasicForm.len] using hb
      have hb : (m 0 &&& 0x3f).toNat = 0 := by
        rw [byte_chan, h0, UInt8.toNat_ofNat']; omega
      have hc : (m 1).toNat = chan - 64 := by rw [h1, UInt8.toNat_ofNat']; omega
      simp only [basicHdr, hb, hc]
      omega
    | three =>
      obtain ⟨h64, hmax⟩ := hf
      obtain ⟨h0, h1, h2⟩ : m 0 = UInt8.ofNat (htype * 64 + 1) ∧
          m 1 = UInt8.ofNat ((chan - 64) % 256) ∧ m 2 = UInt8.ofNat ((chan - 64) / 256) := by
        simpa [Memory.bytes, BasicForm.bytes, BasicForm.len] using hb
      have hb : (m 0 &&& 0x3f).toNat = 1 := by
        rw [byte_chan, h0, UInt8.toNat_ofNat']; omega
      have hc1 : (m 1).toNat = (chan - 64) % 256 := by rw [h1, UInt8.toNat_ofNat']; omega
      have hc2 : (m 2).toNat = (chan - 64) / 256 := by rw [h2, UInt8.toNat_ofNat']; omega
      simp only [basicHdr, hb, hc1, hc2, Nat.shiftLeft_eq]
      omega
  cases h : basicHdr m
  simp_all

/-! ### Chunks -/

structure Chunk where
  form : BasicForm
  chan : ℕ
  hdr : MsgHdr
  body : List UInt8
deriving DecidableEq, Repr

namespace Chunk

def head (c : Chunk) : List UInt8 := c.form.bytes c.hdr.htype c.chan ++ c.hdr.bytes

def bytes (c : Chunk) : List UInt8 := c.head ++ c.body

def Ok (c : Chunk) : Prop := c.form.Fits c.chan ∧ c.hdr.Ok

instance (c : Chunk) : Decidable c.Ok := inferInstanceAs (Decidable (_ ∧ _))

/-- The channel after the header of `c`, with a buffer to store into. -/
def enter (c : Chunk) (pkt : RtmpChan) : RtmpChan := (c.hdr.apply pkt).begin

/-- The body is as long as the receiver expects: what is left of the message, at
most a chunk. -/
def Fills (c : Chunk) (chunkSz : ℕ) (pkt : RtmpChan) : Prop :=
  c.body.length = (c.enter pkt).bodySz chunkSz

instance (c : Chunk) (chunkSz : ℕ) (pkt : RtmpChan) : Decidable (c.Fills chunkSz pkt) :=
  inferInstanceAs (Decidable (_ = _))

/-- The channel behind a whole chunk: a message that is complete is released. -/
def leave (c : Chunk) (pkt : RtmpChan) : RtmpChan :=
  let pkt := (c.enter pkt).store c.body
  if pkt.pLeft = 0 then { pkt with ts := pkt.ts + pkt.curTs }.release else pkt

/-- The message that a whole chunk completes. -/
def finishes (c : Chunk) (pkt : RtmpChan) : Option Msg :=
  let pkt := (c.enter pkt).store c.body
  if pkt.pLeft = 0 then some ({ pkt with ts := pkt.ts + pkt.curTs }.msg c.chan) else none

/-- What a whole chunk does to the table. -/
def step (c : Chunk) (tbl : ChanTable) : ChunkIn :=
  let pkt := (c.enter (tbl c.chan)).store c.body
  if pkt.pLeft = 0 then
    let pkt := { pkt with ts := pkt.ts + pkt.curTs }
    .full (Function.update tbl c.chan pkt) c.bytes.length (pkt.msg c.chan)
  else .part (Function.update tbl c.chan pkt) c.bytes.length

@[simp] theorem head_length (c : Chunk) : c.head.length = c.form.len + c.hdr.len := by
  simp [head]

@[simp] theorem bytes_length (c : Chunk) :
    c.bytes.length = c.form.len + c.hdr.len + c.body.length := by
  simp [bytes]

theorem bytes_ne_nil (c : Chunk) : c.bytes ≠ [] := by
  intro h
  have hl := congrArg List.length h
  have := c.form.len_pos
  simp only [bytes_length, List.length_nil] at hl
  omega

end Chunk

section InMemory

variable {c : Chunk} {m : Memory} {tbl : ChanTable} {chunkSz sz : ℕ}

theorem basicHdr_of_head (hc : c.Ok) (hb : m.bytes 0 c.form.len = c.form.bytes c.hdr.htype c.chan) :
    basicHdr m = ⟨c.hdr.htype, c.chan, c.form.len⟩ := basicHdr_bytes hc.1 c.hdr.htype_lt hb

/-- With the header in memory, the decoder enters the channel of the chunk. -/
theorem headIn_head (hc : c.Ok) (hts : c.hdr.htype = 3 → (tbl c.chan).curTs ≠ 0xffffff)
    (hb : m.bytes 0 c.head.length = c.head) :
    basicHdr m = ⟨c.hdr.htype, c.chan, c.form.len⟩ ∧
      headIn m tbl = (c.hdr.apply (tbl c.chan), c.head.length) := by
  have hsplit := (m.bytes_append_iff 0 (c.form.bytes c.hdr.htype c.chan) c.hdr.bytes).mp hb
  simp only [BasicForm.bytes_length, MsgHdr.bytes_length, Nat.zero_add] at hsplit
  have hbasic := basicHdr_of_head hc hsplit.1
  refine ⟨hbasic, ?_⟩
  rw [headIn, hbasic, Chunk.head_length]
  exact msgHdr_bytes hc.2 hts hsplit.2

/-- The header of a message of at most one chunk makes the decoder take it in one go. -/
theorem completed_head (chunkSz : ℕ) (tbl : ChanTable) (hc : c.Ok) (hts : c.hdr.htype = 3 → (tbl c.chan).curTs ≠ 0xffffff)
    (hb : m.bytes 0 c.head.length = c.head) (hidle : (tbl c.chan).pBuf = none) {n : ℕ}
    (hn : (c.hdr.apply (tbl c.chan)).sz.toNat = n) (hle : n ≤ chunkSz) :
    completed chunkSz m tbl =
      some ⟨c.chan, (c.hdr.apply (tbl c.chan)).dest,
        (tbl c.chan).ts + (c.hdr.apply (tbl c.chan)).curTs, (c.hdr.apply (tbl c.chan)).type,
        m.bytes c.head.length n⟩ := by
  obtain ⟨hbasic, hhead⟩ := headIn_head hc hts hb
  have hst := (stored_idle m tbl (by rw [hbasic]; exact hidle) chunkSz).2
  rw [hhead, hn, Nat.min_eq_left hle, Nat.sub_self] at hst
  simp only [completed, hst, hbasic, RtmpChan.msg, RtmpChan.data, Option.map_some,
    Option.getD_some, if_true, MsgHdr.apply_ts]

/-- The decoder expects exactly the bytes of a chunk that fills. -/
theorem chunkEnd_head (hc : c.Ok) (hts : c.hdr.htype = 3 → (tbl c.chan).curTs ≠ 0xffffff)
    (hfill : c.Fills chunkSz (tbl c.chan)) (hb : m.bytes 0 c.head.length = c.head) :
    chunkEnd chunkSz m tbl = c.bytes.length := by
  rw [chunkEnd, (headIn_head hc hts hb).2, Chunk.bytes, List.length_append]
  exact congrArg _ hfill.symm

/-- The decoder stores the body of a whole chunk, whatever follows it in memory. -/
theorem stored_bytes (hc : c.Ok) (hts : c.hdr.htype = 3 → (tbl c.chan).curTs ≠ 0xffffff)
    (hfill : c.Fills chunkSz (tbl c.chan)) (hb : m.bytes 0 c.bytes.length = c.bytes) :
    (basicHdr m).chan = c.chan ∧ stored chunkSz m tbl = (c.enter (tbl c.chan)).store c.body := by
  have hsplit := (m.bytes_append_iff 0 c.head c.body).mp hb
  obtain ⟨hbasic, hhead⟩ := headIn_head hc hts hsplit.1
  have hn : (c.hdr.apply (tbl c.chan)).begin.bodySz chunkSz = c.body.length := hfill.symm
  refine ⟨by rw [hbasic], ?_⟩
  rw [stored, hhead, hn, show m.bytes c.head.length c.body.length = c.body by simpa using hsplit.2]
  rfl

/-- The decoder takes a whole chunk, whatever follows it in memory. -/
theorem chunkIn_bytes (hc : c.Ok) (hts : c.hdr.htype = 3 → (tbl c.chan).curTs ≠ 0xffffff)
    (hfill : c.Fills chunkSz (tbl c.chan)) (hsz : c.bytes.length ≤ sz)
    (hb : m.bytes 0 c.bytes.length = c.bytes) :
    chunkIn chunkSz m sz tbl = c.step tbl := by
  have hsplit := (m.bytes_append_iff 0 c.head c.body).mp hb
  have hend := chunkEnd_head hc hts hfill hsplit.1
  obtain ⟨hchan, hstored⟩ := stored_bytes hc hts hfill hb
  have hpos := List.length_pos_iff.mpr c.bytes_ne_nil
  unfold chunkEnd at hend
  unfold stored at hstored
  unfold chunkIn chunkBody Chunk.step
  rw [if_neg (by omega)]
  simp only [hend, hstored, hchan, if_neg (show ¬ sz < c.bytes.length by omega)]

end InMemory

end Mayhem
