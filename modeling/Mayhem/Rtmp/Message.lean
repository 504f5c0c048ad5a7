import Mayhem.Rtmp.Send

/-! Reassembly of one message from its chunks: the state of the channel between two
chunks of the message and what each chunk does to it. -/
namespace Mayhem

/-- A channel that has stored `done` of a message of `n` bytes and expects `rest`. -/
def RtmpChan.midway (base : RtmpChan) (n : ℕ) (done rest : List UInt8) : RtmpChan :=
  { base with pBuf := some ⟨n, done⟩, pLeft := rest.length }

/-- The channel behind a complete message: its timestamp field has been added and
its buffer released. -/
def RtmpChan.settle (base : RtmpChan) : RtmpChan :=
  { base with pBuf := none, pLeft := 0, ts := base.ts + base.curTs }

@[simp] theorem RtmpChan.settle_pBuf (base : RtmpChan) : base.settle.pBuf = none := rfl

theorem RtmpChan.midway_bodySz (base : RtmpChan) (n : ℕ) (done rest : List UInt8) (k : ℕ) :
    (base.midway n done rest).bodySz k = (rest.take k).length := by
  rw [RtmpChan.bodySz_eq_min, List.length_take, Nat.min_comm]
  rfl

theorem RtmpChan.midway_store (base : RtmpChan) (n : ℕ) (done rest : List UInt8) (k : ℕ) :
    (base.midway n done rest).store (rest.take k) =
      base.midway n (done ++ rest.take k) (rest.drop k) := by
  simp only [RtmpChan.midway, RtmpChan.store, Option.map_some, List.length_take,
    List.length_drop, RtmpChan.mk.injEq, true_and, and_true]
  omega

/-- A header on an idle channel starts a message of the length the channel then has. -/
theorem RtmpChan.begin_apply (hdr : MsgHdr) {pkt : RtmpChan} (hidle : pkt.pBuf = none)
    {p : List UInt8} (hsz : (hdr.apply pkt).sz.toNat = p.length) :
    (hdr.apply pkt).begin = (hdr.apply pkt).midway p.length [] p := by
  rw [RtmpChan.begin_idle (by simpa using hidle), hsz]
  rfl

variable {form : BasicForm} {chan chunkSz : ℕ} {tbl : ChanTable} {base : RtmpChan} {n : ℕ}

/-- The result of a chunk that leaves its channel midway. -/
def midwayStep (c : Chunk) (tbl : ChanTable) (base : RtmpChan) (n : ℕ) (done rest : List UInt8) :
    ChunkIn :=
  if rest = [] then
    .full (Function.update tbl c.chan
        { base.midway n done [] with ts := base.ts + base.curTs }) c.bytes.length
      ⟨c.chan, base.dest, base.ts + base.curTs, base.type, done⟩
  else .part (Function.update tbl c.chan (base.midway n done rest)) c.bytes.length

theorem step_of_store {c : Chunk} {done rest : List UInt8}
    (h : (c.enter (tbl c.chan)).store c.body = base.midway n done rest) :
    c.step tbl = midwayStep c tbl base n done rest := by
  unfold Chunk.step midwayStep
  simp only [h]
  cases rest with
  | nil => rfl
  | cons b bs => rfl

variable (form chan chunkSz tbl) in
/-- The first chunk of a message fills and leaves the channel midway. -/
theorem first_chunk (hdr : MsgHdr) {p : List UInt8} (hidle : (tbl chan).pBuf = none)
    (hsz : (hdr.apply (tbl chan)).sz.toNat = p.length) :
    Chunk.Fills ⟨form, chan, hdr, p.take chunkSz⟩ chunkSz (tbl chan) ∧
      Chunk.step ⟨form, chan, hdr, p.take chunkSz⟩ tbl =
        midwayStep ⟨form, chan, hdr, p.take chunkSz⟩ tbl (hdr.apply (tbl chan)) p.length
          (p.take chunkSz) (p.drop chunkSz) := by
  have henter : Chunk.enter ⟨form, chan, hdr, p.take chunkSz⟩ (tbl chan) =
      (hdr.apply (tbl chan)).midway p.length [] p := RtmpChan.begin_apply hdr hidle hsz
  constructor
  · rw [Chunk.Fills, henter, RtmpChan.midway_bodySz]
  · apply step_of_store
    simpa [henter] using
      (hdr.apply (tbl chan)).midway_store p.length [] p chunkSz

variable (form chan chunkSz tbl) in
/-- A continuation chunk takes the channel from one midway state to the next. -/
theorem cont_chunk {done rest : List UInt8} (hmid : tbl chan = base.midway n done rest) :
    Chunk.Fills ⟨form, chan, .none, rest.take chunkSz⟩ chunkSz (tbl chan) ∧
      Chunk.step ⟨form, chan, .none, rest.take chunkSz⟩ tbl =
        midwayStep ⟨form, chan, .none, rest.take chunkSz⟩ tbl base n
          (done ++ rest.take chunkSz) (rest.drop chunkSz) := by
  have henter : Chunk.enter ⟨form, chan, .none, rest.take chunkSz⟩ (tbl chan) =
      base.midway n done rest := by
    rw [hmid]
    rfl
  constructor
  · rw [Chunk.Fills, henter, RtmpChan.midway_bodySz]
  · apply step_of_store
    simpa only [henter] using base.midway_store n done rest chunkSz

end Mayhem
