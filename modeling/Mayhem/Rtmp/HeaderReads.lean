import Mayhem.Rtmp.Client
import Mathlib.Tactic.SplitIfs

/-! The bytes of the receive buffer that `decode_rtmp` looks at. `chunkIn_congr` says that it
looks at no others. -/
namespace Mayhem

/-- The `n` indices from `p` on. -/
abbrev span (p n : ℕ) : List ℕ := List.range' p n

def basicReads (m : Memory) : List ℕ :=
  match (m 0 &&& 0x3f).toNat with
  | 0 => [0, 1]
  | 1 => [0, 2, 1]
  | _ => [0]

/-- The reads of `msgHdr`, field by field. -/
def msgReads (m : Memory) (nsz ptr : ℕ) (pkt : RtmpChan) : List ℕ :=
  let (reads, curTs, ptr) := if 4 ≤ nsz then (span ptr 3, decodeInt24 m ptr, ptr + 3)
    else ([], pkt.curTs, ptr)
  let (reads, ptr) := if 8 ≤ nsz then (reads ++ span ptr 3 ++ [ptr + 3], ptr + 4)
    else (reads, ptr)
  let (reads, ptr) := if 12 ≤ nsz then (reads ++ span ptr 4, ptr + 4) else (reads, ptr)
  if curTs = 0xffffff then reads ++ span ptr 4 else reads

def headReads (m : Memory) (tbl : ChanTable) : List ℕ :=
  basicReads m ++
    msgReads m (sizes (basicHdr m).type) (basicHdr m).ptr (tbl (basicHdr m).chan)

/-- All reads of `decode_rtmp`. The first byte is looked at before anything is checked; the
body is copied once it is known to be there. -/
def decodeReads (chunkSz : ℕ) (m : Memory) (sz : ℕ) (tbl : ChanTable) : List ℕ :=
  if sz < 1 then [0]
  else
    let (pkt, ptr) := headIn m tbl
    let n := pkt.begin.bodySz chunkSz
    headReads m tbl ++ if sz < ptr + n then [] else span ptr n

/-! ### Which bytes these are -/

theorem mem_basicReads {m : Memory} {i : ℕ} : i ∈ basicReads m ↔ i < (basicHdr m).ptr := by
  rw [basicHdr_ptr_eq]
  unfold basicReads basicLen
  generalize (m 0 &&& 0x3f).toNat = c
  match c with
  | 0 | 1 | c + 2 =>
    simp only [List.mem_cons, List.not_mem_nil, or_false]
    omega

theorem mem_msgReads {t : ℕ} (ht : t < 4) {m : Memory} {ptr i : ℕ} {pkt : RtmpChan} :
    i ∈ msgReads m (sizes t) ptr pkt ↔ ptr ≤ i ∧ i < (msgHdr m (sizes t) ptr pkt).2 := by
  rw [msgHdr_snd ht]
  obtain rfl | rfl | rfl | rfl : t = 0 ∨ t = 1 ∨ t = 2 ∨ t = 3 := by omega
  all_goals
    simp only [msgReads, sizes, msgLen, tsField]
    split_ifs <;> simp_all [List.mem_range'_1] <;> omega

/-- The header is read from its first to its last byte. -/
theorem mem_headReads {m : Memory} {tbl : ChanTable} {i : ℕ} :
    i ∈ headReads m tbl ↔ i < (headIn m tbl).2 := by
  have hptr : (basicHdr m).ptr ≤ (headIn m tbl).2 := by
    rw [headIn_snd]
    omega
  have hmsg : i ∈ msgReads m (sizes (basicHdr m).type) (basicHdr m).ptr (tbl (basicHdr m).chan) ↔
      (basicHdr m).ptr ≤ i ∧ i < (headIn m tbl).2 := mem_msgReads (basicHdr_type_lt m)
  rw [headReads, List.mem_append, mem_basicReads, hmsg]
  omega

theorem mem_decodeReads {chunkSz sz : ℕ} (hsz : 1 ≤ sz) {m : Memory} {tbl : ChanTable} {i : ℕ} :
    i ∈ decodeReads chunkSz m sz tbl ↔
      i < (headIn m tbl).2 ∨ chunkEnd chunkSz m tbl ≤ sz ∧ i < chunkEnd chunkSz m tbl := by
  rw [decodeReads, if_neg (by omega)]
  dsimp only
  rw [List.mem_append, mem_headReads, chunkEnd]
  split_ifs with hshort
  · simp only [List.not_mem_nil, or_false]
    omega
  · rw [List.mem_range'_1]
    omega

/-! ### Nothing else is read -/

theorem msgHdr_congr {t : ℕ} (ht : t < 4) {m m' : Memory} {ptr : ℕ} {pkt : RtmpChan}
    (h : ∀ i, ptr ≤ i → i < (msgHdr m (sizes t) ptr pkt).2 → m i = m' i) :
    msgHdr m (sizes t) ptr pkt = msgHdr m' (sizes t) ptr pkt := by
  rw [msgHdr_snd ht] at h
  have hword : ∀ p n, ptr ≤ p → p + n ≤ ptr + msgLen t +
      (if tsField m t ptr pkt = 0xffffff then 4 else 0) → m.bytes p n = m'.bytes p n :=
    fun p n hp hn => Memory.bytes_congr fun i hi hin => h i (by omega) (by omega)
  have hts : tsField m t ptr pkt = tsField m' t ptr pkt := by
    unfold tsField
    split_ifs with h3
    · have hlen : 3 ≤ msgLen t := by
        obtain rfl | rfl | rfl : t = 0 ∨ t = 1 ∨ t = 2 := by omega
        all_goals simp [msgLen]
      exact decodeInt24_congr (hword ptr 3 le_rfl (by omega))
    · rfl
  have hext : (if tsField m t ptr pkt = 0xffffff then decodeInt32 m (ptr + msgLen t)
      else tsField m t ptr pkt) =
      if tsField m t ptr pkt = 0xffffff then decodeInt32 m' (ptr + msgLen t)
      else tsField m t ptr pkt := by
    split_ifs with hs
    · exact decodeInt32_congr (hword _ 4 (by omega) (by rw [if_pos hs]))
    · rfl
  rw [msgHdr_eq ht, msgHdr_eq ht, ← hts, hext]
  obtain rfl | rfl | rfl | rfl : t = 0 ∨ t = 1 ∨ t = 2 ∨ t = 3 := by omega
  · have hsz := decodeInt24_congr (hword (ptr + 3) 3 (by omega) (by simp [msgLen]; omega))
    have htype := h (ptr + 6) (by omega) (by simp [msgLen]; omega)
    have hdest := decodeInt32le_congr (hword (ptr + 7) 4 (by omega) (by simp [msgLen]))
    simp [hsz, htype, hdest]
  · have hsz := decodeInt24_congr (hword (ptr + 3) 3 (by omega) (by simp [msgLen]; omega))
    have htype := h (ptr + 6) (by omega) (by simp [msgLen]; omega)
    simp [hsz, htype]
  · simp
  · simp

/-- The outcome is a function of the bytes that are read. -/
theorem chunkIn_congr {chunkSz sz : ℕ} (hsz : 1 ≤ sz) {m m' : Memory} {tbl : ChanTable}
    (h : ∀ i ∈ decodeReads chunkSz m sz tbl, m i = m' i) :
    chunkIn chunkSz m sz tbl = chunkIn chunkSz m' sz tbl := by
  have hhead : ∀ i < (headIn m tbl).2, m i = m' i := fun i hi =>
    h i ((mem_decodeReads hsz).mpr (Or.inl hi))
  have hptr : (basicHdr m).ptr ≤ (headIn m tbl).2 := by
    rw [headIn_snd]
    omega
  have hbasic : basicHdr m = basicHdr m' :=
    basicHdr_congr (n := (basicHdr m).ptr)
      (Memory.bytes_congr fun i _ hi => hhead i (by omega)) (basicHdr_ptr m).1
      (basicHdr_ptr_eq m).ge
  have hmsg : headIn m tbl = headIn m' tbl := by
    rw [headIn, headIn, ← hbasic]
    exact msgHdr_congr (basicHdr_type_lt m) fun i _ hi => hhead i hi
  rw [chunkIn, chunkIn, if_neg (by omega), if_neg (by omega)]
  dsimp only
  rw [← hmsg, ← hbasic]
  unfold chunkBody
  dsimp only
  by_cases hshort : sz < (headIn m tbl).2 + (headIn m tbl).1.begin.bodySz chunkSz
  · rw [if_pos hshort, if_pos hshort]
  · have hbody : m.bytes (headIn m tbl).2 ((headIn m tbl).1.begin.bodySz chunkSz) =
        m'.bytes (headIn m tbl).2 ((headIn m tbl).1.begin.bodySz chunkSz) :=
      Memory.bytes_congr fun i _ hi =>
        h i ((mem_decodeReads hsz).mpr (Or.inr ⟨by rw [chunkEnd]; omega, hi⟩))
    rw [if_neg hshort, if_neg hshort, hbody]

/-! ### The buffer as received -/

/-- The basic header, the message header and the extended timestamp, if the timestamp in
force asks for one, are all among the `sz` bytes received. -/
def HeaderThere (m : Memory) (sz : ℕ) (tbl : ChanTable) : Prop :=
  (basicHdr m).ptr + msgLen (basicHdr m).type ≤ sz ∧
    (tsField m (basicHdr m).type (basicHdr m).ptr (tbl (basicHdr m).chan) = 0xffffff →
      (basicHdr m).ptr + msgLen (basicHdr m).type + 4 ≤ sz)

instance (m : Memory) (sz : ℕ) (tbl : ChanTable) : Decidable (HeaderThere m sz tbl) :=
  inferInstanceAs (Decidable (_ ∧ _))

theorem headerThere_iff {m : Memory} {sz : ℕ} {tbl : ChanTable} :
    HeaderThere m sz tbl ↔ (headIn m tbl).2 ≤ sz := by
  rw [HeaderThere, headIn_snd]
  split_ifs with hs
  · simp only [hs, true_imp_iff]
    omega
  · simp [hs]

/-- What is asked of a call of `decode_rtmp`. -/
structure ReadsReceived {σ : Type} (E : Endpoint σ) (r : σ) (m : Memory) (sz : ℕ) : Prop where
  within : ∀ i ∈ decodeReads (E.chunkSz r) m sz (E.chan r), i < sz
  cut : ¬ HeaderThere m sz (E.chan r) → (E.decodeRtmp r m sz).2 = none
  chan : (basicHdr m).chan < RTMP_MAX_CHANNELS
  taken : ∀ n, (E.decodeRtmp r m sz).2 = some n → 1 ≤ n ∧ n ≤ sz

/-- `decode_rtmp` keeps to what was received if and only if the header of the chunk is all
there: a header that is cut short is noticed behind it only. -/
theorem reads_received {σ : Type} (E : Endpoint σ) (r : σ) (m : Memory) (sz : ℕ) (hsz : 1 ≤ sz) :
    ReadsReceived E r m sz ↔ HeaderThere m sz (E.chan r) := by
  constructor
  · intro h
    have hpos := (basicHdr_ptr m).1
    have hhead := headIn_snd m (E.chan r)
    have hlast := h.within ((headIn m (E.chan r)).2 - 1)
      ((mem_decodeReads hsz).mpr (Or.inl (by omega)))
    rw [headerThere_iff]
    omega
  · intro h
    have hle := headerThere_iff.mp h
    have hend := chunkEnd_pos (E.chunkSz r) m (E.chan r)
    have hcall := E.decodeRtmp_eq (r := r) m hsz
    constructor
    case within =>
      intro i hi
      rcases (mem_decodeReads hsz).mp hi with hi | ⟨hfit, hi⟩ <;> omega
    case cut => exact fun hcut => absurd h hcut
    case chan => exact basicHdr_chan_lt m
    case taken =>
      intro n hn
      rw [hcall] at hn
      by_cases hshort : sz < chunkEnd (E.chunkSz r) m (E.chan r)
      · simp [hshort] at hn
      · simp only [if_neg hshort, Option.some.injEq] at hn
        omega

/-- The default chunk size and a whole chunk of three bytes on channel 3. -/
theorem reads_received_three :
    ReadsReceived Rtmp.endpoint { chunkSz := RTMP_DEFAULT_CHUNK_SZ }
      (Memory.ofList [0x03, 0, 0, 0, 0, 0, 2, 0x08, 0, 0, 0, 0, 1, 2] fun _ => 0) 14 :=
  (reads_received Rtmp.endpoint _ _ 14 (by decide)).mpr (by decide)

/-- One byte has been received, the first of a full header. -/
theorem reads_stale :
    ¬ ReadsReceived Rtmp.endpoint { chunkSz := RTMP_DEFAULT_CHUNK_SZ }
      (Memory.ofList [0x03] fun _ => 0) 1 := by
  intro h
  have hcut := h.within 1 ((mem_decodeReads le_rfl).mpr (Or.inl (by decide)))
  omega

end Mayhem
