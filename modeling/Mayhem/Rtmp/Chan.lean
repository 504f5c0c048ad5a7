import Mathlib.Logic.Function.Basic
import Mayhem.Wire

/-! The channel table and the chunk decoder. `rtmp.c` and `rtmpd.c` hold the same
text of `decode_rtmp` but for the record around the table and the dispatcher it
calls. `chunkIn` is the shared part; each side applies it to its own chunk size
and passes the completed message to its own dispatcher. -/
namespace Mayhem

/-- A message buffer: the size passed to `malloc` and the bytes `[p_buf, p_cur)`
stored so far. -/
structure PBuf where
  size : ℕ
  data : List UInt8
deriving DecidableEq, Repr

/-- `struct rtmp_chan`. `pBuf = none` is the NULL pointer. -/
structure RtmpChan where
  pBuf : Option PBuf := none
  pLeft : ℕ := 0
  curTs : UInt32 := 0
  ts : UInt32 := 0
  sz : UInt32 := 0
  dest : UInt32 := 0
  type : UInt8 := 0
deriving DecidableEq, Repr

abbrev ChanTable := ℕ → RtmpChan

/-- The arguments of `rtmp_dispatch`: a `struct rtmp_pkt` and its payload. -/
structure Msg where
  chan : ℕ
  dest : UInt32
  ts : UInt32
  type : UInt8
  payload : List UInt8
deriving DecidableEq, Repr

def sizes : ℕ → ℕ
  | 0 => 12
  | 1 => 8
  | 2 => 4
  | _ => 1

/-- Header type, channel and length of the basic header. -/
structure BasicHdr where
  type : ℕ
  chan : ℕ
  ptr : ℕ
deriving DecidableEq, Repr

def basicHdr (m : Memory) : BasicHdr :=
  let type := ((m 0 &&& 0xc0) >>> 6).toNat
  match (m 0 &&& 0x3f).toNat with
  | 0 => ⟨type, (m 1).toNat + 64, 2⟩
  | 1 => ⟨type, ((m 2).toNat <<< 8) + (m 1).toNat + 64, 3⟩
  | chan => ⟨type, chan, 1⟩

/-- The message header at `ptr`: the fields it carries overwrite those of the
channel. Returns the channel and the end of the header. -/
def msgHdr (m : Memory) (nsz ptr : ℕ) (pkt : RtmpChan) : RtmpChan × ℕ :=
  let (pkt, ptr) := if 4 ≤ nsz then ({ pkt with curTs := decodeInt24 m ptr }, ptr + 3)
    else (pkt, ptr)
  let (pkt, ptr) := if 8 ≤ nsz then
      ({ pkt with sz := decodeInt24 m ptr, type := m (ptr + 3) }, ptr + 4)
    else (pkt, ptr)
  let (pkt, ptr) := if 12 ≤ nsz then ({ pkt with dest := decodeInt32le m ptr }, ptr + 4)
    else (pkt, ptr)
  if pkt.curTs = 0xffffff then ({ pkt with curTs := decodeInt32 m ptr }, ptr + 4)
  else (pkt, ptr)

/-- `if ( NULL == pkt->p_buf )` allocate a buffer for the whole message. -/
def RtmpChan.begin (pkt : RtmpChan) : RtmpChan :=
  match pkt.pBuf with
  | none => { pkt with pBuf := some ⟨pkt.sz.toNat, []⟩, pLeft := pkt.sz.toNat }
  | some _ => pkt

/-- `if ( pkt->p_cur == pkt->p_buf )` free it again. -/
def RtmpChan.giveBack (pkt : RtmpChan) : RtmpChan :=
  match pkt.pBuf with
  | some ⟨_, []⟩ => { pkt with pBuf := none }
  | _ => pkt

def RtmpChan.store (pkt : RtmpChan) (bs : List UInt8) : RtmpChan :=
  { pkt with
    pBuf := pkt.pBuf.map fun b => { b with data := b.data ++ bs }
    pLeft := pkt.pLeft - bs.length }

def RtmpChan.data (pkt : RtmpChan) : List UInt8 := (pkt.pBuf.map PBuf.data).getD []

/-- `free(pkt->p_buf); pkt->p_buf = NULL;` -/
def RtmpChan.release (pkt : RtmpChan) : RtmpChan := { pkt with pBuf := none }

/-- The body length the decoder expects: what is left of the message, at most a chunk. -/
def RtmpChan.bodySz (pkt : RtmpChan) (chunkSz : ℕ) : ℕ :=
  if pkt.pLeft < chunkSz then pkt.pLeft else chunkSz

inductive ChunkIn
  /-- `return -1`: the chunk is not all there. -/
  | short (tbl : ChanTable)
  /-- The chunk is taken, the message is not complete. -/
  | part (tbl : ChanTable) (taken : ℕ)
  /-- The chunk is taken and completes a message, whose buffer is still allocated. -/
  | full (tbl : ChanTable) (taken : ℕ) (msg : Msg)

def RtmpChan.msg (pkt : RtmpChan) (chan : ℕ) : Msg :=
  ⟨chan, pkt.dest, pkt.ts, pkt.type, pkt.data⟩

/-- `decode_rtmp` behind the header: `pkt` carries the fields of the header and
`ptr` is its end. -/
def chunkBody (chunkSz : ℕ) (m : Memory) (sz : ℕ) (tbl : ChanTable) (chan : ℕ)
    (pkt : RtmpChan) (ptr : ℕ) : ChunkIn :=
  let pkt := pkt.begin
  let n := pkt.bodySz chunkSz
  if sz < ptr + n then .short (Function.update tbl chan pkt.giveBack)
  else
    let pkt := pkt.store (m.bytes ptr n)
    if pkt.pLeft = 0 then
      let pkt := { pkt with ts := pkt.ts + pkt.curTs }
      .full (Function.update tbl chan pkt) (ptr + n) (pkt.msg chan)
    else .part (Function.update tbl chan pkt) (ptr + n)

/-- Both headers of the chunk at `m`: the channel they address with its new fields, and
the end of the message header. -/
def headIn (m : Memory) (tbl : ChanTable) : RtmpChan × ℕ :=
  msgHdr m (sizes (basicHdr m).type) (basicHdr m).ptr (tbl (basicHdr m).chan)

/-- `decode_rtmp` up to the dispatch, on the `sz` bytes received at `m`. -/
def chunkIn (chunkSz : ℕ) (m : Memory) (sz : ℕ) (tbl : ChanTable) : ChunkIn :=
  if sz < 1 then .short tbl
  else
    let (pkt, ptr) := headIn m tbl
    chunkBody chunkSz m sz tbl (basicHdr m).chan pkt ptr

/-- The bytes the chunk at `m` takes: up to the end of the header, and the body. -/
def chunkEnd (chunkSz : ℕ) (m : Memory) (tbl : ChanTable) : ℕ :=
  (headIn m tbl).2 + (headIn m tbl).1.begin.bodySz chunkSz

/-- The channel the chunk at `m` addresses, with its header and its body stored. -/
def stored (chunkSz : ℕ) (m : Memory) (tbl : ChanTable) : RtmpChan :=
  let pkt := (headIn m tbl).1.begin
  pkt.store (m.bytes (headIn m tbl).2 (pkt.bodySz chunkSz))

/-- The message the chunk at `m` completes, if it does. -/
def completed (chunkSz : ℕ) (m : Memory) (tbl : ChanTable) : Option Msg :=
  let pkt := stored chunkSz m tbl
  if pkt.pLeft = 0 then some ({ pkt with ts := pkt.ts + pkt.curTs }.msg (basicHdr m).chan) else none

/-! ### Header bits -/

theorem byte_type (b : UInt8) : ((b &&& 0xc0) >>> 6).toNat = b.toNat / 64 := by
  have h : ∀ n : Fin 256, ((UInt8.ofNat n &&& 0xc0) >>> 6).toNat = n / 64 := by decide +kernel
  simpa using h ⟨b.toNat, b.toNat_lt⟩

theorem byte_chan (b : UInt8) : (b &&& 0x3f).toNat = b.toNat % 64 := by
  rw [UInt8.toNat_and, show (0x3f : UInt8).toNat = 2 ^ 6 - 1 from rfl,
    Nat.and_two_pow_sub_one_eq_mod]

theorem basicHdr_type (m : Memory) : (basicHdr m).type = (m 0).toNat / 64 := by
  rw [← byte_type]
  unfold basicHdr
  split <;> rfl

theorem basicHdr_type_lt (m : Memory) : (basicHdr m).type < 4 := by
  rw [basicHdr_type]
  have := (m 0).toNat_lt
  omega

theorem basicHdr_chan_lt (m : Memory) : (basicHdr m).chan < RTMP_MAX_CHANNELS := by
  have h1 := (m 1).toNat_lt
  have h2 := (m 2).toNat_lt
  have h0 : (m 0 &&& 0x3f).toNat < 64 := by rw [byte_chan]; omega
  unfold basicHdr RTMP_MAX_CHANNELS
  split <;> simp only [Nat.shiftLeft_eq] <;> omega

theorem basicHdr_ptr (m : Memory) : 1 ≤ (basicHdr m).ptr ∧ (basicHdr m).ptr ≤ 3 := by
  unfold basicHdr
  split <;> simp

theorem basicHdr_cases (m : Memory) :
    ((m 0).toNat % 64 = 0 ∧ (basicHdr m).ptr = 2 ∧ 64 ≤ (basicHdr m).chan) ∨
      ((m 0).toNat % 64 = 1 ∧ (basicHdr m).ptr = 3 ∧ 64 ≤ (basicHdr m).chan) ∨
      (2 ≤ (m 0).toNat % 64 ∧ (basicHdr m).ptr = 1 ∧
        (basicHdr m).chan = (m 0).toNat % 64) := by
  rw [← byte_chan]
  unfold basicHdr
  split
  case h_1 h => exact .inl ⟨h, rfl, by simp⟩
  case h_2 h => exact .inr (.inl ⟨h, rfl, by simp⟩)
  case h_3 h0 h1 =>
    have h2 : (m 0 &&& 0x3f).toNat ≠ 0 ∧ (m 0 &&& 0x3f).toNat ≠ 1 := ⟨h0, h1⟩
    exact .inr (.inr ⟨by omega, rfl, rfl⟩)

def basicLen (b : UInt8) : ℕ :=
  match (b &&& 0x3f).toNat with
  | 0 => 2
  | 1 => 3
  | _ => 1

theorem basicHdr_ptr_eq (m : Memory) : (basicHdr m).ptr = basicLen (m 0) := by
  unfold basicHdr basicLen
  split <;> rfl

theorem basicHdr_congr {m m' : Memory} {n : ℕ} (hb : m.bytes 0 n = m'.bytes 0 n)
    (h1 : 1 ≤ n) (hn : basicLen (m 0) ≤ n) : basicHdr m = basicHdr m' := by
  have hbyte : ∀ i < n, m i = m' i := fun i hi =>
    Memory.bytes_inj.mp hb i (Nat.zero_le i) (by omega)
  have h0 := hbyte 0 (by omega)
  unfold basicLen at hn
  unfold basicHdr
  rw [← h0]
  split at hn
  · simp_all [hbyte 1 (by omega)]
  · simp_all [hbyte 1 (by omega), hbyte 2 (by omega)]
  · rfl

/-! ### Header lengths -/

/-- The length of a message header of type `t` without its extended timestamp. -/
def msgLen : ℕ → ℕ
  | 0 => 11
  | 1 => 7
  | 2 => 3
  | _ => 0

/-- The timestamp field in force behind a message header of type `t`, before any
extension. -/
def tsField (m : Memory) (t ptr : ℕ) (pkt : RtmpChan) : UInt32 :=
  if t < 3 then decodeInt24 m ptr else pkt.curTs

theorem msgHdr_eq {t : ℕ} (ht : t < 4) (m : Memory) (ptr : ℕ) (pkt : RtmpChan) :
    msgHdr m (sizes t) ptr pkt =
      ({ pkt with
        curTs := if tsField m t ptr pkt = 0xffffff then decodeInt32 m (ptr + msgLen t)
          else tsField m t ptr pkt
        sz := if t < 2 then decodeInt24 m (ptr + 3) else pkt.sz
        type := if t < 2 then m (ptr + 6) else pkt.type
        dest := if t < 1 then decodeInt32le m (ptr + 7) else pkt.dest },
      ptr + msgLen t + if tsField m t ptr pkt = 0xffffff then 4 else 0) := by
  obtain rfl | rfl | rfl | rfl : t = 0 ∨ t = 1 ∨ t = 2 ∨ t = 3 := by omega
  all_goals
    simp only [msgHdr, sizes, msgLen, tsField]
    by_cases hs : decodeInt24 m ptr = 0xffffff <;> by_cases hc : pkt.curTs = 0xffffff <;>
      simp [hs, hc]

theorem msgHdr_snd {t : ℕ} (ht : t < 4) (m : Memory) (ptr : ℕ) (pkt : RtmpChan) :
    (msgHdr m (sizes t) ptr pkt).2 =
      ptr + msgLen t + if tsField m t ptr pkt = 0xffffff then 4 else 0 := by
  rw [msgHdr_eq ht]

theorem msgHdr_curTs {t : ℕ} (ht : t < 4) (m : Memory) (ptr : ℕ) (pkt : RtmpChan) :
    (msgHdr m (sizes t) ptr pkt).1.curTs =
      if tsField m t ptr pkt = 0xffffff then decodeInt32 m (ptr + msgLen t)
      else tsField m t ptr pkt := by
  rw [msgHdr_eq ht]

theorem msgHdr_sz {t : ℕ} (ht : t < 4) (m : Memory) (ptr : ℕ) (pkt : RtmpChan) :
    (msgHdr m (sizes t) ptr pkt).1.sz = if t < 2 then decodeInt24 m (ptr + 3) else pkt.sz := by
  rw [msgHdr_eq ht]

/-- No header touches the message in progress or the accumulated timestamp. -/
theorem msgHdr_keeps (m : Memory) (nsz ptr : ℕ) (pkt : RtmpChan) :
    (msgHdr m nsz ptr pkt).1.pBuf = pkt.pBuf ∧ (msgHdr m nsz ptr pkt).1.pLeft = pkt.pLeft ∧
      (msgHdr m nsz ptr pkt).1.ts = pkt.ts := by
  simp only [msgHdr]
  split_ifs <;> exact ⟨rfl, rfl, rfl⟩

theorem headIn_snd (m : Memory) (tbl : ChanTable) :
    (headIn m tbl).2 = (basicHdr m).ptr + msgLen (basicHdr m).type +
      if tsField m (basicHdr m).type (basicHdr m).ptr (tbl (basicHdr m).chan) = 0xffffff
      then 4 else 0 := msgHdr_snd (basicHdr_type_lt m) _ _ _

/-- Only a full header with an extended timestamp is longer than `RTMP_HDR_MAX_SZ`. -/
theorem headIn_long (m : Memory) (tbl : ChanTable) (h : RTMP_HDR_MAX_SZ < (headIn m tbl).2) :
    (basicHdr m).type = 0 ∧ decodeInt24 m (basicHdr m).ptr = 0xffffff ∧
      (headIn m tbl).2 = (basicHdr m).ptr + 15 := by
  have hptr := (basicHdr_ptr m).2
  have hlen : (basicHdr m).type = 0 ∧ msgLen (basicHdr m).type = 11 ∨
      msgLen (basicHdr m).type ≤ 7 := by
    unfold msgLen
    split
    case h_1 h0 => exact .inl ⟨h0, rfl⟩
    all_goals exact .inr (by omega)
  rw [headIn_snd, RTMP_HDR_MAX_SZ] at h
  rw [headIn_snd]
  by_cases hs : tsField m (basicHdr m).type (basicHdr m).ptr (tbl (basicHdr m).chan) = 0xffffff
  · rw [if_pos hs] at h ⊢
    obtain ⟨h0, h11⟩ | h7 := hlen
    · exact ⟨h0, by simpa [h0, tsField] using hs, by omega⟩
    · omega
  · rw [if_neg hs] at h
    omega

theorem chunkEnd_pos (chunkSz : ℕ) (m : Memory) (tbl : ChanTable) : 1 ≤ chunkEnd chunkSz m tbl := by
  have := (basicHdr_ptr m).1
  rw [chunkEnd, headIn_snd]
  omega

/-! ### Updates of one channel -/

@[simp] theorem RtmpChan.begin_idle {pkt : RtmpChan} (h : pkt.pBuf = none) :
    pkt.begin = { pkt with pBuf := some ⟨pkt.sz.toNat, []⟩, pLeft := pkt.sz.toNat } := by
  simp [RtmpChan.begin, h]

@[simp] theorem RtmpChan.begin_busy {pkt : RtmpChan} {b : PBuf} (h : pkt.pBuf = some b) :
    pkt.begin = pkt := by
  simp [RtmpChan.begin, h]

theorem RtmpChan.bodySz_eq_min (pkt : RtmpChan) (chunkSz : ℕ) :
    pkt.bodySz chunkSz = min pkt.pLeft chunkSz := by
  unfold RtmpChan.bodySz
  split_ifs <;> omega

theorem stored_pLeft (chunkSz : ℕ) (m : Memory) (tbl : ChanTable) :
    (stored chunkSz m tbl).pLeft =
      (headIn m tbl).1.begin.pLeft - (headIn m tbl).1.begin.bodySz chunkSz := by
  simp [stored, RtmpChan.store]

/-- The body length hangs on the message in progress, or else on the length field. -/
theorem RtmpChan.begin_bodySz {pkt pkt' : RtmpChan} (hb : pkt.pBuf = pkt'.pBuf)
    (hl : pkt.pLeft = pkt'.pLeft) (hs : pkt.sz = pkt'.sz) (chunkSz : ℕ) :
    pkt.begin.bodySz chunkSz = pkt'.begin.bodySz chunkSz := by
  cases h : pkt.pBuf with
  | none => simp [RtmpChan.begin, h, hb ▸ h, RtmpChan.bodySz, hs]
  | some b => simp [RtmpChan.begin, h, hb ▸ h, RtmpChan.bodySz, hl]

/-- A chunk on an idle channel starts a message of the length the channel then has. -/
theorem stored_idle (m : Memory) (tbl : ChanTable) (h : (tbl (basicHdr m).chan).pBuf = none)
    (chunkSz : ℕ) :
    (headIn m tbl).1.begin.bodySz chunkSz = min (headIn m tbl).1.sz.toNat chunkSz ∧
      stored chunkSz m tbl =
        { (headIn m tbl).1 with
          pBuf := some ⟨(headIn m tbl).1.sz.toNat,
            m.bytes (headIn m tbl).2 (min (headIn m tbl).1.sz.toNat chunkSz)⟩
          pLeft := (headIn m tbl).1.sz.toNat - min (headIn m tbl).1.sz.toNat chunkSz } := by
  have hnone : (headIn m tbl).1.pBuf = none := (msgHdr_keeps _ _ _ _).1.trans h
  have hk : (headIn m tbl).1.begin.bodySz chunkSz = min (headIn m tbl).1.sz.toNat chunkSz := by
    rw [RtmpChan.bodySz_eq_min, RtmpChan.begin_idle hnone]
  refine ⟨hk, ?_⟩
  rw [stored, hk, RtmpChan.begin_idle hnone]
  simp [RtmpChan.store]

theorem RtmpChan.bodySz_le (pkt : RtmpChan) (chunkSz : ℕ) : pkt.bodySz chunkSz ≤ chunkSz := by
  rw [RtmpChan.bodySz_eq_min]
  exact Nat.min_le_right _ _

end Mayhem
