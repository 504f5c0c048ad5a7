import Mayhem.Rtmp.Moves
import Mathlib.Logic.Relation
import Mathlib.Tactic.SplitIfs

/-! The read reports of `rtmp.c` beside the true count of the bytes received. `nbytes` and
`nbytes_update` are 32-bit counters; a `Tally` carries the numbers they stand for. -/
namespace Mayhem

/-- The payload bytes that `r_audio` and `r_video` add up. -/
def mediaLen (msg : Msg) : ℕ :=
  if msg.type = RTMP_MSG_AUDIO ∨ msg.type = RTMP_MSG_VIDEO then msg.payload.length else 0

namespace Owned

variable (o : Owner) (r : Owned)

/-- Both counters. -/
def counts : UInt32 × UInt32 := (r.nbytes, r.nbytesUpdate)

/-- The report that the end of `rtmp_dispatch` sends, if it sends one: the value in it, and
whether `rtmp_send` returned 1. -/
def reportAt : Option (UInt32 × Bool) :=
  if r.nbytesUpdate + UPDATE_FREQUENCY ≤ r.nbytes then
    some (r.nbytes, ({ r with ugh := r.ugh + 100000 }.rtmpSend o
      ⟨ctlChan, 0, r.ugh + 100000, RTMP_MSG_READ_REPORT, encodeInt32 r.nbytes⟩).2)
  else none

/-- The report that `rtmp_dispatch` sends behind a message. -/
def reportOf (msg : Msg) : Option (UInt32 × Bool) :=
  match handler o msg.type with
  | none => none
  | some h => (h { r with trace := r.trace ++ [msg] } msg).reportAt o

/-! ### What leaves the counters alone -/

theorem countsMoves : Moves fun r r' => r'.counts = r.counts where
  refl _ := rfl
  trans h h' := h'.trans h
  pops _ := rfl
  offers _ _ := rfl
  enters _ _ _ _ := rfl
  leaves _ := rfl
  closes _ := rfl

@[simp] theorem rtmpSend_counts (x : OutMsg) : (r.rtmpSend o x).1.counts = r.counts :=
  countsMoves.plans.rtmpSendBy r x

@[simp] theorem perform_counts (plan : Plan) : (r.perform o plan).counts = r.counts :=
  countsMoves.plans.performBy r plan

@[simp] theorem callback_counts (c : Call) : (r.callback o c).counts = r.counts :=
  perform_counts o _ _

theorem rbufRequestSize_counts (sz : ℕ) : (r.rbufRequestSize o sz).1.counts = r.counts := by
  unfold rbufRequestSize
  split_ifs
  · exact countsMoves.reset r .abort
  · rfl

/-! ### One message -/

/-- What a handler leaves of the counters. -/
theorem handler_counts {h : Owned → Msg → Owned} {msg : Msg} (hh : handler o msg.type = some h) :
    (h r msg).counts = (r.nbytes + UInt32.ofNat (mediaLen msg), r.nbytesUpdate) := by
  have hnone : ∀ {t : UInt8}, msg.type = t → t ≠ RTMP_MSG_AUDIO → t ≠ RTMP_MSG_VIDEO →
      r.counts = (r.nbytes + UInt32.ofNat (mediaLen msg), r.nbytesUpdate) := by
    intro t ht ha hv
    simp [mediaLen, ht, ha, hv, counts]
  unfold handler Carrier.handler at hh
  split_ifs at hh with h1 h2 h3 h4 h5 h6 h7 h8
  all_goals obtain rfl := Option.some.inj hh
  · refine Eq.trans ?_ (hnone h1 (by decide) (by decide))
    unfold Carrier.rChunksz
    split_ifs
    · rfl
    · exact r.rbufRequestSize_counts o _
  · refine Eq.trans ?_ (hnone h2 (by decide) (by decide))
    unfold Carrier.rCtl Carrier.sendCtl carrier
    dsimp only
    split_ifs <;> simp
  · refine Eq.trans ?_ (hnone h3 (by decide) (by decide))
    unfold Carrier.rServerBw
    split_ifs
    · rfl
    · exact rtmpSend_counts o _ _
  · refine Eq.trans ?_ (hnone h4 (by decide) (by decide))
    unfold Carrier.rClientBw
    dsimp only
    split_ifs <;> rfl
  · have hlen : mediaLen msg = msg.payload.length := if_pos (Or.inl h5)
    rw [hlen]
    exact callback_counts o _ _
  · have hlen : mediaLen msg = msg.payload.length := if_pos (Or.inr h6)
    rw [hlen]
    exact callback_counts o _ _
  · exact (callback_counts o _ _).trans (hnone h7 (by decide) (by decide))
  · exact (callback_counts o _ _).trans (hnone h8 (by decide) (by decide))

/-- The messages that no handler is there for carry nothing that is counted. -/
theorem mediaLen_of_none {msg : Msg} (hh : handler o msg.type = none) : mediaLen msg = 0 := by
  unfold handler Carrier.handler at hh
  split_ifs at hh with h1 h2 h3 h4 h5 h6
  exact if_neg (by simp [h5, h6])

theorem report_counts : ((carrier o).report r).counts =
    (r.nbytes,
      if (r.rtmpSend o ⟨ctlChan, 0, r.ugh, RTMP_MSG_READ_REPORT, encodeInt32 r.nbytes⟩).2 = true
      then r.nbytes else r.nbytesUpdate) := by
  have hsend := r.rtmpSend_counts o ⟨ctlChan, 0, r.ugh, RTMP_MSG_READ_REPORT, encodeInt32 r.nbytes⟩
  unfold Carrier.report carrier
  dsimp only
  rw [callback_counts]
  generalize r.rtmpSend o ⟨ctlChan, 0, r.ugh, RTMP_MSG_READ_REPORT, encodeInt32 r.nbytes⟩ = res
    at hsend ⊢
  obtain ⟨hn, hu⟩ := Prod.mk.inj hsend
  split_ifs
  · exact Prod.ext hn hn
  · exact hsend

/-- The timestamp is no concern of the counters. -/
theorem report_stamped (ts : UInt32) : ((carrier o).report { r with ugh := ts }).counts =
    (r.nbytes,
      if (({ r with ugh := ts } : Owned).rtmpSend o
        ⟨ctlChan, 0, ts, RTMP_MSG_READ_REPORT, encodeInt32 r.nbytes⟩).2 = true
      then r.nbytes else r.nbytesUpdate) := report_counts o { r with ugh := ts }

theorem any_snd (v : UInt32) (ok : Bool) : (some (v, ok)).any Prod.snd = ok := rfl

variable {o r} {n u : UInt32}

theorem readReport_counts (h : r.counts = (n, u)) :
    ((carrier o).readReport r).counts = (n, if (r.reportAt o).any Prod.snd then n else u) := by
  obtain ⟨rfl, rfl⟩ := Prod.mk.inj h
  unfold Carrier.readReport Carrier.sendReadReport reportAt
  rw [show (carrier o).line r = r.toLine from rfl]
  by_cases hdue : r.nbytesUpdate + UPDATE_FREQUENCY ≤ r.nbytes
  · rw [if_pos hdue, if_pos hdue, any_snd]
    exact report_stamped o r _
  · rw [if_neg hdue, if_neg hdue, Option.any_none, if_neg Bool.false_ne_true, counts]

theorem reportAt_isSome (h : r.counts = (n, u)) :
    (r.reportAt o).isSome ↔ u + UPDATE_FREQUENCY ≤ n := by
  obtain ⟨rfl, rfl⟩ := Prod.mk.inj h
  unfold reportAt
  by_cases hdue : r.nbytesUpdate + UPDATE_FREQUENCY ≤ r.nbytes
  · rw [if_pos hdue]
    simp [hdue]
  · rw [if_neg hdue]
    simp [hdue]

theorem reportAt_value (h : r.counts = (n, u)) {v : UInt32} {ok : Bool}
    (hv : r.reportAt o = some (v, ok)) : v = n := by
  obtain ⟨rfl, rfl⟩ := Prod.mk.inj h
  unfold reportAt at hv
  split_ifs at hv
  exact (Prod.mk.inj (Option.some.inj hv)).1.symm

variable (o r)

/-- What `rtmp_dispatch` does with the counters. -/
theorem rtmpDispatch_counts (msg : Msg) :
    (r.rtmpDispatch o msg).counts =
      (r.nbytes + UInt32.ofNat (mediaLen msg),
        if (r.reportOf o msg).any Prod.snd then r.nbytes + UInt32.ofNat (mediaLen msg)
        else r.nbytesUpdate) := by
  unfold rtmpDispatch Carrier.rtmpDispatch reportOf
  rw [show (carrier o).handler msg.type = handler o msg.type from rfl]
  cases hh : handler o msg.type with
  | none =>
    have hzero : r.nbytes + UInt32.ofNat (mediaLen msg) = r.nbytes := by
      rw [mediaLen_of_none o hh]
      exact UInt32.add_zero r.nbytes
    simp only [hzero, Option.any_none, if_neg Bool.false_ne_true]
    rfl
  | some h => exact readReport_counts (handler_counts o _ hh)

/-- When `rtmp_dispatch` sends a report. -/
theorem reportOf_isSome (msg : Msg) :
    (r.reportOf o msg).isSome ↔ (handler o msg.type).isSome ∧
      r.nbytesUpdate + UPDATE_FREQUENCY ≤ r.nbytes + UInt32.ofNat (mediaLen msg) := by
  unfold reportOf
  cases hh : handler o msg.type with
  | none => simp
  | some h =>
    have hcounts := handler_counts o ({ r with trace := r.trace ++ [msg] } : Owned) hh
    rw [Option.isSome_some, eq_self_iff_true, true_and]
    exact reportAt_isSome hcounts

/-- What is in it. -/
theorem reportOf_value {msg : Msg} {v : UInt32} {ok : Bool}
    (hv : r.reportOf o msg = some (v, ok)) : v = r.nbytes + UInt32.ofNat (mediaLen msg) := by
  unfold reportOf at hv
  cases hh : handler o msg.type with
  | none => simp [hh] at hv
  | some h =>
    have hcounts := handler_counts o ({ r with trace := r.trace ++ [msg] } : Owned) hh
    rw [hh] at hv
    exact reportAt_value hcounts hv

end Owned

/-! ### Runs -/

/-- A connection with the true total of the payload bytes, and what the total was when the
last report was sent. -/
structure Tally where
  conn : Owned
  total : ℕ
  last : ℕ

namespace Tally

variable (o : Owner) (t : Tally) (msg : Msg)

def dispatch : Tally :=
  let total := t.total + mediaLen msg
  { conn := t.conn.rtmpDispatch o msg
    total := total
    last := if (t.conn.reportOf o msg).any Prod.snd then total else t.last }

theorem dispatch_conn : (t.dispatch o msg).conn = t.conn.rtmpDispatch o msg := rfl

theorem dispatch_total : (t.dispatch o msg).total = t.total + mediaLen msg := rfl

theorem dispatch_last {o : Owner} {t : Tally} {msg : Msg}
    (h : (t.conn.reportOf o msg).any Prod.snd) :
    (t.dispatch o msg).last = (t.dispatch o msg).total := if_pos h

/-- A message is dispatched, or something else happens that is no concern of the counters. -/
inductive Step : Tally → Tally → Prop
  | message (t : Tally) (msg : Msg) : Step t (t.dispatch o msg)
  | other (t : Tally) {r : Owned} (h : r.counts = t.conn.counts) : Step t { t with conn := r }

/-- A connection as `calloc` leaves its counters. -/
structure Started : Prop where
  nbytes : t.conn.nbytes = 0
  nbytesUpdate : t.conn.nbytesUpdate = 0
  total : t.total = 0
  last : t.last = 0

/-- Behind the message a report is attempted exactly if 2^20 bytes have come in since the
last one, and it carries the total modulo 2^32. -/
structure KeepsPace : Prop where
  attempted : (t.conn.reportOf o msg).isSome ↔ t.last + 2 ^ 20 ≤ t.total + mediaLen msg
  value : ∀ v ok, t.conn.reportOf o msg = some (v, ok) →
    v.toNat = (t.total + mediaLen msg) % 2 ^ 32

/-- A message that has a handler comes while the total has wrapped around at least as often
as the threshold has, and if more often then past the place of the threshold; one that has
none comes while no report is due. -/
def InPace : Prop :=
  if (Owned.handler o msg.type).isSome then
    (t.last + 2 ^ 20) / 2 ^ 32 ≤ (t.total + mediaLen msg) / 2 ^ 32 ∧
      ((t.last + 2 ^ 20) / 2 ^ 32 < (t.total + mediaLen msg) / 2 ^ 32 →
        (t.last + 2 ^ 20) % 2 ^ 32 ≤ (t.total + mediaLen msg) % 2 ^ 32)
  else t.total < t.last + 2 ^ 20

instance : Decidable (t.InPace o msg) := inferInstanceAs (Decidable (ite _ _ _))

/-- The counters are the numbers modulo 2^32. -/
structure Counted : Prop where
  nbytes : t.conn.nbytes.toNat = t.total % 2 ^ 32
  nbytesUpdate : t.conn.nbytesUpdate.toNat = t.last % 2 ^ 32
  last_le : t.last ≤ t.total

variable {o t msg}

theorem Started.counted (h : t.Started) : t.Counted := by
  refine ⟨?_, ?_, ?_⟩
  · rw [h.nbytes, h.total]
    rfl
  · rw [h.nbytesUpdate, h.last]
    rfl
  · rw [h.last]
    exact Nat.zero_le _

theorem Counted.total (h : t.Counted) (n : ℕ) :
    (t.conn.nbytes + UInt32.ofNat n).toNat = (t.total + n) % 2 ^ 32 := by
  rw [UInt32.toNat_add, UInt32.toNat_ofNat', h.nbytes, ← Nat.add_mod]

theorem Counted.dispatched (h : t.Counted) (msg : Msg) : (t.dispatch o msg).Counted := by
  have hcounts := t.conn.rtmpDispatch_counts o msg
  have hn : (t.dispatch o msg).conn.nbytes = _ := (Prod.mk.inj hcounts).1
  have hu : (t.dispatch o msg).conn.nbytesUpdate = _ := (Prod.mk.inj hcounts).2
  have hle := h.last_le
  constructor
  case nbytes =>
    rw [hn]
    exact h.total _
  case nbytesUpdate =>
    rw [hu]
    unfold Tally.dispatch
    dsimp only
    split_ifs
    · exact h.total _
    · exact h.nbytesUpdate
  case last_le =>
    unfold Tally.dispatch
    dsimp only
    split_ifs <;> omega

theorem Counted.step {t' : Tally} (h : t.Counted) (hs : Step o t t') : t'.Counted := by
  cases hs with
  | message msg => exact h.dispatched msg
  | other hr =>
    obtain ⟨hn, hu⟩ := Prod.mk.inj hr
    constructor
    case nbytes => rw [hn]; exact h.nbytes
    case nbytesUpdate => rw [hu]; exact h.nbytesUpdate
    case last_le => exact h.last_le

theorem Counted.run {t' : Tally} (h : t.Counted) (hrun : Relation.ReflTransGen (Step o) t t') :
    t'.Counted := by
  induction hrun with
  | refl => exact h
  | tail _ hs ih => exact ih.step hs

/-- The comparison that `rtmp_dispatch` makes. -/
theorem Counted.due_iff (h : t.Counted) (n : ℕ) :
    t.conn.nbytesUpdate + UPDATE_FREQUENCY ≤ t.conn.nbytes + UInt32.ofNat n ↔
      (t.last + 2 ^ 20) % 2 ^ 32 ≤ (t.total + n) % 2 ^ 32 := by
  rw [UInt32.le_iff_toNat_le, h.total, UInt32.toNat_add, h.nbytesUpdate,
    show UPDATE_FREQUENCY.toNat = 2 ^ 20 from rfl, Nat.mod_add_mod]

theorem Counted.keepsPace_iff (h : t.Counted) (msg : Msg) :
    t.KeepsPace o msg ↔ t.InPace o msg := by
  have hle := h.last_le
  have hvalue : ∀ v ok, t.conn.reportOf o msg = some (v, ok) →
      v.toNat = (t.total + mediaLen msg) % 2 ^ 32 := by
    intro v ok hv
    rw [Owned.reportOf_value o _ hv]
    exact h.total _
  have hiff : t.KeepsPace o msg ↔
      ((t.conn.reportOf o msg).isSome ↔ t.last + 2 ^ 20 ≤ t.total + mediaLen msg) :=
    ⟨fun hk => hk.attempted, fun ha => ⟨ha, hvalue⟩⟩
  rw [hiff, Owned.reportOf_isSome, h.due_iff, InPace]
  cases hh : Owned.handler o msg.type with
  | none =>
    have hzero := Owned.mediaLen_of_none o hh
    simp only [Option.isSome_none, Bool.false_eq_true, false_and, if_false, hzero, false_iff]
    omega
  | some f =>
    simp only [Option.isSome_some, true_and, if_true]
    generalize mediaLen msg = n
    omega

end Tally

/-- In every run, a message keeps the pace of the read reports if and only if it comes in
pace. -/
theorem read_reports (o : Owner) {t₀ t : Tally} (h₀ : t₀.Started)
    (hrun : Relation.ReflTransGen (Tally.Step o) t₀ t) (msg : Msg) :
    t.KeepsPace o msg ↔ t.InPace o msg := (h₀.counted.run hrun).keepsPace_iff msg

/-! ### The wrap -/

namespace Owned

variable {o : Owner} {r : Owned}

/-- Whatever is sent is taken in full. -/
def Open (r : Owned) : Prop := r.conn.sock.script = []

theorem Open.sendAll (h : r.Open) (bufs : List (List UInt8)) :
    (r.sendAll o bufs).2 = true ∧ (r.sendAll o bufs).1.Open := by
  induction bufs generalizing r with
  | nil => exact ⟨rfl, h⟩
  | cons buf bufs ih =>
    have hraw : r.rtmpSendRaw o buf =
        ({ r with conn := { r.conn with sock := ⟨[], r.conn.sock.sent ++ buf⟩ } }, true) := by
      unfold rtmpSendRaw rtmpSendRawBy
      rw [show r.conn.sock.script = [] from h]
      cases buf <;> rfl
    rw [sendAll_cons, hraw]
    exact ih rfl

theorem Open.rtmpSend (h : r.Open) (x : OutMsg) :
    (r.rtmpSend o x).2 = true ∧ (r.rtmpSend o x).1.Open :=
  Open.sendAll (r := { r with conn := { r.conn with stack := r.conn.stack.tail } }) h _

theorem Open.stamp (h : r.Open) (n : UInt32) : ({ r with ugh := n } : Owned).Open := h

theorem openRule : (carrier .silent).Rule fun r r' => r.Open → r'.Open where
  refl _ h := h
  trans h h' hr := h' (h hr)
  modify hf hr := by
    unfold Open
    rw [show ((carrier .silent).modify _ _).conn = _ from (hf _).conn]
    exact hr
  rtmpSend _ _ _ _ _ _ hr := (Open.rtmpSend hr _).2
  call _ _ hr := hr

/-- The report that is due is sent. -/
theorem Open.reportAt (h : r.Open) (hdue : (r.reportAt .silent).isSome) :
    (r.reportAt .silent).any Prod.snd := by
  unfold Owned.reportAt at hdue ⊢
  split_ifs at hdue ⊢
  case neg => cases hdue
  have hsend := (h.stamp (r.ugh + 100000)).rtmpSend (o := .silent)
    ⟨ctlChan, 0, r.ugh + 100000, RTMP_MSG_READ_REPORT, encodeInt32 r.nbytes⟩
  simp only [Option.any_some, hsend.1]

/-- A video packet on an open connection of a silent owner. -/
theorem Open.video (h : r.Open) {msg : Msg} (hv : msg.type = RTMP_MSG_VIDEO) :
    (r.rtmpDispatch .silent msg).Open ∧
      ((r.reportOf .silent msg).isSome → (r.reportOf .silent msg).any Prod.snd) := by
  have hopen : ((carrier .silent).rVideo { r with trace := r.trace ++ [msg] } msg).Open := h
  unfold rtmpDispatch Carrier.rtmpDispatch reportOf handler
  rw [hv, Carrier.handler_video]
  exact ⟨openRule.readReport _ hopen, hopen.reportAt⟩

end Owned

/-- A video packet of 2^24 - 1 bytes. -/
def wrapMsg : Msg := ⟨4, 1, 0, RTMP_MSG_VIDEO, List.replicate (2 ^ 24 - 1) 0⟩

theorem mediaLen_wrapMsg : mediaLen wrapMsg = 2 ^ 24 - 1 := by
  have htype : wrapMsg.type = RTMP_MSG_AUDIO ∨ wrapMsg.type = RTMP_MSG_VIDEO := Or.inr rfl
  rw [mediaLen, if_pos htype]
  exact List.length_replicate

/-- Behind each of the first 256 such packets a report is sent. -/
theorem wrapRun {k : ℕ} (hk : k ≤ 256) :
    ∃ t, Relation.ReflTransGen (Tally.Step .silent) ⟨{}, 0, 0⟩ t ∧ t.Counted ∧ t.conn.Open ∧
      t.total = k * (2 ^ 24 - 1) ∧ t.last = t.total := by
  induction k with
  | zero =>
    exact ⟨⟨{}, 0, 0⟩, .refl, Tally.Started.counted ⟨rfl, rfl, rfl, rfl⟩, rfl, by simp, rfl⟩
  | succ k ih =>
    obtain ⟨t, hrun, hcounted, hopen, htotal, hlast⟩ := ih (by omega)
    obtain ⟨hopen', hsent⟩ := hopen.video (show wrapMsg.type = RTMP_MSG_VIDEO from rfl)
    have hdue : (t.conn.reportOf .silent wrapMsg).isSome := by
      rw [Owned.reportOf_isSome, hcounted.due_iff, mediaLen_wrapMsg,
        Nat.mod_eq_of_lt (by omega), Nat.mod_eq_of_lt (by omega)]
      refine ⟨rfl, ?_⟩
      omega
    refine ⟨t.dispatch .silent wrapMsg, hrun.tail (.message t wrapMsg), hcounted.dispatched wrapMsg,
      ?_, ?_, Tally.dispatch_last (hsent hdue)⟩
    · rw [Tally.dispatch_conn]
      exact hopen'
    · rw [Tally.dispatch_total, mediaLen_wrapMsg]
      omega

/-- Behind the first such packet a report has been sent, and behind the second one is due again. -/
theorem read_reports_twice : ∃ t, Relation.ReflTransGen (Tally.Step .silent) ⟨{}, 0, 0⟩ t ∧
    t.last = 2 ^ 24 - 1 ∧ (t.conn.reportOf .silent wrapMsg).isSome ∧ t.KeepsPace .silent wrapMsg := by
  obtain ⟨t, hrun, hcounted, -, htotal, hlast⟩ := wrapRun (k := 1) (by decide)
  rw [htotal] at hlast
  have hpace : t.InPace .silent wrapMsg := by
    rw [Tally.InPace, if_pos (by rfl), mediaLen_wrapMsg, hlast, htotal]
    decide
  have hdue : (t.conn.reportOf .silent wrapMsg).isSome := by
    rw [Owned.reportOf_isSome, hcounted.due_iff, mediaLen_wrapMsg, hlast, htotal]
    exact ⟨rfl, by decide⟩
  exact ⟨t, hrun, hlast.trans (by decide), hdue, (read_reports .silent
    (show Tally.Started ⟨{}, 0, 0⟩ from ⟨rfl, rfl, rfl, rfl⟩) hrun wrapMsg).mpr hpace⟩

/-- 256 bytes below 2^32 each packet draws a report, if it is of one byte only. -/
theorem read_reports_wrap :
    ∃ t, Relation.ReflTransGen (Tally.Step .silent) ⟨{}, 0, 0⟩ t ∧
      ¬ t.KeepsPace .silent ⟨4, 1, 0, RTMP_MSG_VIDEO, [0]⟩ := by
  obtain ⟨t, hrun, hcounted, -, htotal, hlast⟩ := wrapRun (k := 256) le_rfl
  refine ⟨t, hrun, ?_⟩
  rw [hcounted.keepsPace_iff, Tally.InPace, if_pos (by rfl)]
  show ¬ ((t.last + 2 ^ 20) / 2 ^ 32 ≤ (t.total + 1) / 2 ^ 32 ∧ _)
  rw [hlast, htotal]
  omega

end Mayhem
