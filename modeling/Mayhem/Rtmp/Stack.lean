import Mayhem.Rtmp.Send

/-! The stores that `rtmp_send` makes into its buffer on the stack, round by round of its
loop. `sendChunks_replay` ties them to the chunks that go out. -/
namespace Mayhem

/-- The offset of a store and the bytes that it puts there. -/
abbrev Store := ℕ × List UInt8

/-- The memory after some stores, the first one of the list first. -/
def afterStores (m : Memory) (stores : List Store) : Memory :=
  stores.foldl (fun m s => m.write s.1 s.2) m

def Store.Below (s : Store) (n : ℕ) : Prop := s.1 + s.2.length ≤ n

instance (s : Store) (n : ℕ) : Decidable (s.Below n) := inferInstanceAs (Decidable (_ ≤ _))

/-- The stores of `hdr_full` and the length that it returns. -/
def hdrFullStores (chan : OutChan) (dest ts : UInt32) (type : UInt8) (len : ℕ) :
    List Store × ℕ :=
  let basic := encodeChan 0 chan
  let ptr := basic.length
  let stores := [(0, basic),
    (ptr, encodeInt24 (if (1 : UInt32) <<< 24 ≤ ts then 0xffffff else ts)),
    (ptr + 3, encodeInt24 (UInt32.ofNat len)),
    (ptr + 6, [type]),
    (ptr + 7, encodeInt32le dest)]
  if (1 : UInt32) <<< 24 ≤ ts then (stores ++ [(0, encodeInt32 ts)], ptr + 15)
  else (stores, ptr + 11)

def hdrSmallStores (chan : OutChan) : List Store × ℕ :=
  ([(0, encodeChan 3 chan)], (encodeChan 3 chan).length)

/-- One round of the loop: the stores of the header, its length as returned and what is
copied behind it. -/
structure Round where
  hdr : List Store
  hdrSz : ℕ
  body : List UInt8

namespace Round

def stores (r : Round) : List Store := r.hdr ++ [(r.hdrSz, r.body)]

/-- Everything the round stores is within a buffer of `n` bytes. -/
def Fits (r : Round) (n : ℕ) : Prop := ∀ s ∈ r.stores, s.Below n

end Round

/-- The rounds of the loop of `rtmp_send`, as `sendLoop` counts them. -/
def sendRounds (chunkSz : ℕ) (chan : OutChan) (dest ts : UInt32) (type : UInt8) :
    ℕ → ℕ → List UInt8 → List Round
  | 0, _, _ => []
  | fuel + 1, i, pkt =>
    if pkt = [] then []
    else
      let (hdr, hdrSz) := if i = 0 then hdrFullStores chan dest ts type pkt.length
        else hdrSmallStores chan
      let thisSz := if pkt.length ≤ chunkSz then pkt.length else chunkSz
      ⟨hdr, hdrSz, pkt.take thisSz⟩ ::
        sendRounds chunkSz chan dest ts type fuel (i + 1) (pkt.drop thisSz)

/-- What a list of rounds passes to `rtmp_send_raw`. -/
def replay : Memory → List Round → List (List UInt8)
  | _, [] => []
  | m, r :: rs =>
    let m := afterStores m r.stores
    m.bytes 0 (r.hdrSz + r.body.length) :: replay m rs

theorem hdrFull_stores (m : Memory) (chan : OutChan) (dest ts : UInt32) (type : UInt8) (len : ℕ) :
    hdrFull m chan dest ts type len =
      (afterStores m (hdrFullStores chan dest ts type len).1,
        (hdrFullStores chan dest ts type len).2) := by
  unfold hdrFull hdrFullStores afterStores
  dsimp only
  split_ifs <;> rfl

theorem hdrSmall_stores (m : Memory) (chan : OutChan) :
    hdrSmall m chan = (afterStores m (hdrSmallStores chan).1, (hdrSmallStores chan).2) := rfl

/-- The rounds are those of `sendLoop`. -/
theorem sendLoop_replay (chunkSz : ℕ) (chan : OutChan) (dest ts : UInt32) (type : UInt8)
    (fuel : ℕ) (m : Memory) (i : ℕ) (pkt : List UInt8) :
    sendLoop chunkSz chan dest ts type fuel m i pkt =
      replay m (sendRounds chunkSz chan dest ts type fuel i pkt) := by
  induction fuel generalizing m i pkt with
  | zero => rfl
  | succ fuel ih =>
    by_cases hp : pkt = []
    · simp [sendLoop, sendRounds, hp, replay]
    · have hlen : (pkt.take (if pkt.length ≤ chunkSz then pkt.length else chunkSz)).length =
          if pkt.length ≤ chunkSz then pkt.length else chunkSz := by
        rw [List.length_take]
        split_ifs <;> omega
      have hhdr : (if i = 0 then hdrFull m chan dest ts type pkt.length else hdrSmall m chan) =
          (afterStores m (if i = 0 then hdrFullStores chan dest ts type pkt.length
              else hdrSmallStores chan).1,
            (if i = 0 then hdrFullStores chan dest ts type pkt.length
              else hdrSmallStores chan).2) := by
        split_ifs
        · exact hdrFull_stores m chan dest ts type pkt.length
        · exact hdrSmall_stores m chan
      simp only [sendLoop, sendRounds, if_neg hp, hhdr, replay, Round.stores, hlen, ih]
      simp only [afterStores, List.foldl_append, List.foldl_cons, List.foldl_nil]

theorem sendChunks_replay (stack : Memory) (chunkSz : ℕ) (chan : OutChan) (dest ts : UInt32)
    (type : UInt8) (pkt : List UInt8) :
    sendChunks stack chunkSz chan dest ts type pkt =
      replay stack (sendRounds chunkSz chan dest ts type pkt.length 0 pkt) :=
  sendLoop_replay chunkSz chan dest ts type pkt.length stack 0 pkt

/-! ### The bounds -/

theorem Store.Below.mono {s : Store} {m n : ℕ} (h : s.Below m) (hmn : m ≤ n) : s.Below n :=
  le_trans h hmn

theorem hdrFullStores_snd (chan : OutChan) (dest ts : UInt32) (type : UInt8) (len : ℕ) :
    (hdrFullStores chan dest ts type len).2 =
      (formOf chan).len + 11 + if 2 ^ 24 ≤ ts.toNat then 4 else 0 := by
  rw [← hdrFull_snd (fun _ => 0), hdrFull_stores]

/-- `hdr_full` stores below the end of the eleven bytes of a full header, with or without
an extended timestamp. -/
theorem hdrFullStores_below (chan : OutChan) (dest ts : UInt32) (type : UInt8) (len : ℕ) :
    ∀ s ∈ (hdrFullStores chan dest ts type len).1, s.Below ((formOf chan).len + 11) := by
  have hpos := (formOf chan).len_pos
  intro s hs
  simp only [hdrFullStores, encodeChan_eq, BasicForm.bytes_length] at hs
  split_ifs at hs <;>
    simp only [List.cons_append, List.nil_append, List.mem_cons, List.not_mem_nil, or_false] at hs
  · rcases hs with rfl | rfl | rfl | rfl | rfl | rfl <;>
      simp [Store.Below, BasicForm.bytes_length]
  · rcases hs with rfl | rfl | rfl | rfl | rfl <;>
      simp [Store.Below, BasicForm.bytes_length]

theorem formOf_len_le (chan : ℕ) : (formOf chan).len ≤ 3 := by
  rw [formOf_len]
  split_ifs <;> omega

theorem Round.fits_iff {r : Round} {n : ℕ} (h : ∀ s ∈ r.hdr, s.Below n) :
    r.Fits n ↔ r.hdrSz + r.body.length ≤ n := by
  constructor
  · intro hfits
    exact hfits (r.hdrSz, r.body) (by simp [Round.stores])
  · intro hn s hs
    rcases List.mem_append.mp hs with hs | hs
    · exact h s hs
    · rw [List.mem_singleton.mp hs]
      exact hn

/-- Behind the first round the header is at most three bytes long. -/
theorem sendRounds_cont_fit (chunkSz : ℕ) (chan : OutChan) (dest ts : UInt32) (type : UInt8)
    (fuel i : ℕ) (pkt : List UInt8) (hi : i ≠ 0) :
    ∀ r ∈ sendRounds chunkSz chan dest ts type fuel i pkt, r.Fits (RTMP_HDR_MAX_SZ + chunkSz) := by
  induction fuel generalizing i pkt with
  | zero => simp [sendRounds]
  | succ fuel ih =>
    by_cases hp : pkt = []
    · simp [sendRounds, hp]
    · simp only [sendRounds, if_neg hp, if_neg hi, List.forall_mem_cons]
      refine ⟨?_, ih (i + 1) _ (by omega)⟩
      have hlen := formOf_len_le chan
      have hhdr : ∀ s ∈ (hdrSmallStores chan).1, s.Below (RTMP_HDR_MAX_SZ + chunkSz) := by
        intro s hs
        rw [List.mem_singleton.mp hs]
        simp only [Store.Below, encodeChan_eq, BasicForm.bytes_length, RTMP_HDR_MAX_SZ]
        omega
      rw [Round.fits_iff hhdr]
      simp only [hdrSmallStores, encodeChan_eq, BasicForm.bytes_length, List.length_take,
        RTMP_HDR_MAX_SZ]
      split_ifs <;> omega

/-- Whether the first round fits. -/
theorem firstRound_fits_iff (chunkSz : ℕ) (chan : OutChan) (dest ts : UInt32) (type : UInt8)
    (pkt : List UInt8) :
    (Round.mk (hdrFullStores chan dest ts type pkt.length).1
        (hdrFullStores chan dest ts type pkt.length).2
        (pkt.take (if pkt.length ≤ chunkSz then pkt.length else chunkSz))).Fits
      (RTMP_HDR_MAX_SZ + chunkSz) ↔
      ts.toNat < 2 ^ 24 ∨ pkt.length + (formOf chan).len + 1 ≤ chunkSz := by
  have hform := formOf_len_le chan
  have hpos := (formOf chan).len_pos
  have hhdr : ∀ s ∈ (hdrFullStores chan dest ts type pkt.length).1,
      s.Below (RTMP_HDR_MAX_SZ + chunkSz) := fun s hs =>
    (hdrFullStores_below chan dest ts type pkt.length s hs).mono
      (by simp only [RTMP_HDR_MAX_SZ]; omega)
  rw [Round.fits_iff hhdr]
  simp only [hdrFullStores_snd, List.length_take, RTMP_HDR_MAX_SZ]
  split_ifs <;> omega

theorem sendRounds_fit_iff (chunkSz : ℕ) (chan : OutChan) (dest ts : UInt32) (type : UInt8)
    (pkt : List UInt8) :
    (∀ r ∈ sendRounds chunkSz chan dest ts type pkt.length 0 pkt,
        r.Fits (RTMP_HDR_MAX_SZ + chunkSz)) ↔
      pkt = [] ∨ ts.toNat < 2 ^ 24 ∨ pkt.length + (formOf chan).len + 1 ≤ chunkSz := by
  by_cases hp : pkt = []
  · simp [hp, sendRounds]
  · have hpos : 0 < pkt.length := List.length_pos_iff.mpr hp
    rw [show pkt.length = (pkt.length - 1) + 1 by omega]
    simp only [sendRounds, if_neg hp, if_true, Nat.sub_add_cancel hpos]
    rw [List.forall_mem_cons, firstRound_fits_iff, or_iff_right hp]
    exact and_iff_left
      (sendRounds_cont_fit chunkSz chan dest ts type _ (0 + 1) _ one_ne_zero)

/-- `rtmp_send` stays within its `RTMP_HDR_MAX_SZ + chunk_sz` bytes of stack if and only if
there is nothing to send, the timestamp needs no extension, or the payload leaves room in
its only chunk; `hdr_full` always stores below the length it returns. -/
theorem stack_fits (chunkSz : ℕ) (chan : OutChan) (dest ts : UInt32) (type : UInt8)
    (pkt : List UInt8) :
    ((∀ r ∈ sendRounds chunkSz chan dest ts type pkt.length 0 pkt,
        r.Fits (RTMP_HDR_MAX_SZ + chunkSz)) ∧
      ∀ s ∈ (hdrFullStores chan dest ts type pkt.length).1,
        s.Below (hdrFullStores chan dest ts type pkt.length).2) ↔
      pkt = [] ∨ ts.toNat < 2 ^ 24 ∨ pkt.length + (formOf chan).len + 1 ≤ chunkSz := by
  rw [sendRounds_fit_iff]
  refine and_iff_left fun s hs => (hdrFullStores_below chan dest ts type pkt.length s hs).mono ?_
  rw [hdrFullStores_snd]
  exact Nat.le_add_right _ _

/-- A packet of 128 bytes on channel 3, with the default chunk size and the first timestamp
that needs an extension: the last two bytes of the payload are copied past the buffer. -/
theorem stack_overrun :
    let pkt : List UInt8 := List.replicate 128 0
    ¬ ((∀ r ∈ sendRounds RTMP_DEFAULT_CHUNK_SZ 3 0 0x1000000 RTMP_MSG_VIDEO pkt.length 0 pkt,
          r.Fits (RTMP_HDR_MAX_SZ + RTMP_DEFAULT_CHUNK_SZ)) ∧
      ∀ s ∈ (hdrFullStores 3 0 0x1000000 RTMP_MSG_VIDEO pkt.length).1,
        s.Below (hdrFullStores 3 0 0x1000000 RTMP_MSG_VIDEO pkt.length).2) := by
  rintro pkt ⟨hfits, -⟩
  have hlen : pkt.length = 128 := List.length_replicate
  have hne : pkt ≠ [] := List.ne_nil_of_length_pos (by omega)
  have hpos := (formOf (3 : OutChan)).len_pos
  rw [sendRounds_fit_iff, RTMP_DEFAULT_CHUNK_SZ, hlen] at hfits
  rcases hfits with hnil | hts | hroom
  · exact hne hnil
  · revert hts
    decide
  · omega

end Mayhem
