import Mayhem.Rtmp.Pump

/-! The receive buffer with the allocation behind it. `rtmp.c` and `rtmpd.c` share the text
of `rbuf_update_size` and `rbuf_request_size`, and of what `fill_rcv_buf` and `rtmp_pump` do
with the buffer; each side applies it to its own chunk size. -/
namespace Mayhem

/-- The receive buffer, the size of its allocation, and the bytes that have gone through. -/
structure Intake where
  rbuf : RBuf := {}
  /-- What `realloc` was last asked for. -/
  alloc : ℕ := 0
  received : List UInt8 := []
  consumed : List UInt8 := []

namespace Intake

/-- `rbuf_update_size`: `realloc` keeps what fits of the old allocation. -/
def updateSize (b : Intake) (chunkSz : ℕ) : Intake :=
  let sz := chunkSz + RTMP_HDR_MAX_SZ
  { b with
    rbuf :=
      { mem := fun k => if k < min b.alloc sz then b.rbuf.mem k else b.rbuf.heap.headD (fun _ => 0) k
        cur := b.rbuf.cur
        space := sz - b.rbuf.cur
        heap := b.rbuf.heap.tail }
    alloc := sz }

/-- `rbuf_request_size` for a size other than 0, which becomes the chunk size. -/
def requestSize (b : Intake) (sz : ℕ) : Intake :=
  if sz ≤ b.rbuf.currentBufSz then b else b.updateSize sz

/-- `sock_recv` has stored `bs` at `r_cur`. -/
def fill (b : Intake) (bs : List UInt8) : Intake :=
  { b with rbuf := b.rbuf.received bs, received := b.received ++ bs }

/-- The end of `rtmp_pump`, behind a message of `taken` bytes. -/
def shuffle (b : Intake) (chunkSz taken : ℕ) : Intake :=
  let b := { b with
    rbuf := b.rbuf.memmove taken
    consumed := b.consumed ++ b.rbuf.mem.bytes 0 taken }
  if chunkSz ≠ b.rbuf.currentBufSz - RTMP_HDR_MAX_SZ ∧ b.rbuf.cur ≤ chunkSz then
    b.updateSize chunkSz
  else b

/-- The accounts of the buffer: its size, and where every byte received has gone. -/
structure Sound (b : Intake) : Prop where
  size : b.alloc = b.rbuf.cur + b.rbuf.space
  bytes : b.consumed ++ b.rbuf.contents = b.received

variable {b : Intake} {chunkSz : ℕ}

theorem sound_empty (heap : List Memory) : Sound { rbuf := { heap := heap } } := ⟨rfl, rfl⟩

/-! ### What the operations keep -/

theorem updateSize_rbuf (h : b.Sound) :
    (b.updateSize chunkSz).rbuf = b.rbuf.realloc (chunkSz + RTMP_HDR_MAX_SZ) := by
  simp only [updateSize, RBuf.realloc, h.size, RBuf.currentBufSz]
  rfl

theorem requestSize_rbuf (h : b.Sound) {sz : ℕ} (hsz : sz ≠ 0) :
    (b.requestSize sz).rbuf = b.rbuf.requested sz := by
  unfold requestSize RBuf.requested
  by_cases hle : sz ≤ b.rbuf.currentBufSz
  · rw [if_pos hle, if_neg (by omega)]
  · rw [if_neg hle, if_pos ⟨hsz, by omega⟩, updateSize_rbuf h]

@[simp] theorem requestSize_cur (b : Intake) (sz : ℕ) :
    (b.requestSize sz).rbuf.cur = b.rbuf.cur := by
  unfold requestSize updateSize
  split_ifs <;> rfl

@[simp] theorem requestSize_consumed (b : Intake) (sz : ℕ) :
    (b.requestSize sz).consumed = b.consumed := by
  unfold requestSize updateSize
  split_ifs <;> rfl

@[simp] theorem requestSize_received (b : Intake) (sz : ℕ) :
    (b.requestSize sz).received = b.received := by
  unfold requestSize updateSize
  split_ifs <;> rfl

/-- A reallocation that has room for what is in the buffer loses none of it. -/
theorem Sound.updateSize (h : b.Sound) (hcur : b.rbuf.cur ≤ chunkSz + RTMP_HDR_MAX_SZ) :
    (b.updateSize chunkSz).Sound := by
  constructor
  · simp only [Intake.updateSize]
    omega
  · rw [updateSize_rbuf h, RBuf.realloc_contents hcur]
    exact h.bytes

theorem Sound.requestSize (h : b.Sound) (sz : ℕ) : (b.requestSize sz).Sound := by
  unfold Intake.requestSize
  split_ifs with hle
  · exact h
  · apply h.updateSize
    rw [RBuf.currentBufSz] at hle
    omega

theorem Sound.fill (h : b.Sound) {bs : List UInt8} (hbs : bs.length ≤ b.rbuf.space) :
    (b.fill bs).Sound := by
  constructor
  · have hsz := RBuf.received_currentBufSz hbs
    exact h.size.trans hsz.symm
  · rw [Intake.fill, RBuf.received_contents, ← List.append_assoc, h.bytes]

theorem Sound.memmove (h : b.Sound) {taken : ℕ} (htaken : taken ≤ b.rbuf.cur) : Sound { b with
    rbuf := b.rbuf.memmove taken, consumed := b.consumed ++ b.rbuf.mem.bytes 0 taken } := by
  constructor
  · exact h.size.trans (RBuf.memmove_currentBufSz htaken).symm
  · have htake : b.rbuf.mem.bytes 0 taken = b.rbuf.contents.take taken := by
      rw [RBuf.contents, Memory.bytes_take, Nat.min_eq_left htaken]
    rw [RBuf.memmove_contents, htake, List.append_assoc, List.take_append_drop]
    exact h.bytes

theorem Sound.shuffle (h : b.Sound) {taken : ℕ} (htaken : taken ≤ b.rbuf.cur) :
    (b.shuffle chunkSz taken).Sound := by
  unfold Intake.shuffle
  dsimp only
  split_ifs with hsz
  · exact (h.memmove htaken).updateSize (hsz.2.trans (Nat.le_add_right _ _))
  · exact h.memmove htaken

end Intake
end Mayhem
