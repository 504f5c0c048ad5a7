import Mayhem.Naiad.Silence

/-! Who gives back the netstatus and the RTMP handle of a session. -/
namespace Mayhem.Naiad
namespace Nested

variable {rest : List Frame} {m m' : Nested} {i : Input}

/-- The connect message is not blocked. -/
def Unblocked (m : Nested) : Input → Prop
  | .answer .blocked => ∀ next rest, m.stack ≠ .code (.send .connect next) :: rest
  | _ => True

/-- Both are given back once, and not used after that. -/
structure SingleOwned (m : Nested) : Prop where
  stale : m.stale = false
  closes : m.closes ≤ 1
  created : m.created ≤ 1
  nsFrees : m.nsFrees ≤ m.created
  ended : m.closed = true → m.closes = 1 ∧ m.nsFrees = m.created

/-- The code frees by itself only what `mayhem_abort` has set to NULL (`gone`). -/
def Kept : Bool → Code → Prop
  | _, .done => True
  | _, .callback _ next => ∀ gone, Kept gone next
  | gone, .send s next => Kept gone (next true) ∧ (s ≠ .connect → Kept gone (next false)) ∧
      Kept true (next false) ∧ (s = .connect → ∃ next', next false = .netstatusFree next')
  | gone, .useNs next => Kept gone next
  | gone, .netstatusFree next => gone = true ∧ Kept true next
  | gone, .rtmpClose next => gone = true ∧ Kept true next
  | _, .mayhemAbort next => Kept true next
  | _, .readReport => True

section Codes

variable {next : Code}

theorem kept_send {s : Sending} {next : Bool → Code} (hs : s ≠ .connect)
    (h : ∀ gone ret, Kept gone (next ret)) (gone : Bool) : Kept gone (.send s next) :=
  ⟨h gone true, fun _ => h gone false, h true false, fun hc => absurd hc hs⟩

theorem kept_checkup (gone : Bool) : Kept gone Code.checkup := by
  unfold Code.checkup
  refine kept_send (by decide) ?_ gone
  exact fun _ _ => trivial

theorem kept_sendReadReport (gone : Bool) : Kept gone Code.sendReadReport := by
  unfold Code.sendReadReport
  exact kept_send (by decide) (fun gone _ => kept_checkup gone) gone

theorem kept_dispatch (premium : Bool) (req : Request) (gone : Bool) :
    Kept gone (Code.rtmpDispatch premium req) := by
  -- what a handler does once it has sent something
  have hsent : ∀ gone ret, Kept gone (if ret = true then .useNs .readReport
      else .mayhemAbort .readReport) := by
    intro gone ret
    cases ret with
    | true => trivial
    | false => trivial
  have hns : ∀ s gone, s ≠ .connect → Kept gone (.send s fun ret =>
      if ret = true then .useNs .readReport else .mayhemAbort .readReport) :=
    fun s gone hs => kept_send hs hsent gone
  cases req with
  | authorized =>
    cases premium with
    | false => exact fun _ => trivial
    | true =>
      intro gone
      refine ⟨trivial, fun _ => trivial, trivial, fun h => Sending.noConfusion h⟩
  | connSuccess =>
    cases premium with
    | false => exact hns _ _ (by decide)
    | true => trivial
  | playStart =>
    exact ⟨fun _ => trivial, fun _ _ => trivial, fun _ => trivial, fun h => Sending.noConfusion h⟩
  | refused => trivial
  | notice n => exact fun _ => trivial
  | set => exact hns _ _ (by decide)
  | result => trivial
  | connErr => exact fun _ => trivial
  | created => exact hns _ _ (by decide)
  | playStop => exact fun _ => trivial
  | playReset => exact fun _ => trivial
  | playError => exact fun _ => trivial
  | own => exact ⟨trivial, fun _ => trivial, trivial, fun h => Sending.noConfusion h⟩

theorem kept_rtmpDied (h : Kept true next) (gone : Bool) : Kept gone (Code.rtmpDied next) :=
  fun _ => h

theorem kept_rtmpConnected (gone : Bool) : Kept gone Code.rtmpConnected :=
  ⟨trivial, fun h => absurd rfl h, ⟨rfl, rfl, trivial⟩, fun _ => ⟨_, rfl⟩⟩

theorem kept_sndChat (gone : Bool) : Kept gone Code.mayhemSndChat := by
  unfold Code.mayhemSndChat
  refine kept_send (by decide) ?_ gone
  exact fun _ _ => trivial

end Codes

/-- What keeps a session singly owned that is in use. -/
structure Held (m : Nested) : Prop where
  stale : m.stale = false
  rtmp : m.rtmp = true → m.closes = 0 ∧ m.returned = true
  noRtmp : m.rtmp = false → m.closes = if m.returned then 1 else 0
  ns : m.ns = true → m.nsFrees = 0 ∧ m.rtmp = true ∧ m.connected = true
  noNs : m.ns = false → m.nsFrees = m.created
  created : m.created = if m.connected then 1 else 0
  alive : m.alive = true → m.returned = true → m.rtmp = true
  order : m.connected = true → m.returned = true
  closed : m.closed = true → m.rtmp = false ∧ m.returned = true
  fits : Fits Kept (!m.rtmp) m.stack

namespace Held

variable {stack : List Frame} {s : Sending} {next : Bool → Code} {o : Outcome}

theorem singleOwned (h : m.Held) : m.SingleOwned := by
  have hcreated : m.created ≤ 1 := by
    rw [h.created]
    split
    · exact Nat.le_refl _
    · exact Nat.zero_le _
  have hnone : m.rtmp = false → m.nsFrees = m.created := by
    intro hr
    cases hn : m.ns with
    | true => exact absurd (h.ns hn).2.1 (Bool.eq_false_iff.mp hr)
    | false => exact h.noNs hn
  refine ⟨h.stale, ?_, hcreated, ?_, fun hc => ?_⟩
  · cases hr : m.rtmp with
    | true =>
      rw [(h.rtmp hr).1]
      exact Nat.zero_le _
    | false =>
      rw [h.noRtmp hr]
      split
      · exact Nat.le_refl _
      · exact Nat.zero_le _
  · cases hn : m.ns with
    | true =>
      rw [(h.ns hn).1]
      exact Nat.zero_le _
    | false => exact Nat.le_of_eq (h.noNs hn)
  · obtain ⟨hr, hret⟩ := h.closed hc
    refine ⟨?_, hnone hr⟩
    rw [h.noRtmp hr, if_pos hret]

theorem onStack (h : m.Held) (hfits : Fits Kept (!m.rtmp) stack) : (m.onStack stack).Held :=
  { h with fits := hfits }

theorem useRtmp (h : m.Held) : ∃ nullUse, m.useRtmp = { m with nullUse := nullUse } := by
  by_cases hr : m.rtmp = true
  · refine ⟨m.nullUse, ?_⟩
    rw [useRtmp_of_rtmp hr, (h.rtmp hr).1, decide_eq_false (Nat.lt_irrefl 0), Bool.or_false]
  · exact ⟨true, if_neg hr⟩

theorem useNs (h : m.Held) : ∃ nullUse, m.useNs = { m with nullUse := nullUse } := by
  by_cases hn : m.ns = true
  · refine ⟨m.nullUse, ?_⟩
    rw [useNs_of_ns hn, (h.ns hn).1, decide_eq_false (Nat.lt_irrefl 0), Bool.or_false]
  · exact ⟨true, if_neg hn⟩

theorem useNsRtmp (h : m.Held) : ∃ nullUse, m.useNsRtmp = { m with nullUse := nullUse } := by
  by_cases hn : m.ns = true
  · obtain ⟨hfrees, hr, -⟩ := h.ns hn
    refine ⟨m.nullUse, ?_⟩
    rw [useNsRtmp_of_ns hn, hfrees, (h.rtmp hr).1, decide_eq_false (Nat.lt_irrefl 0), Bool.or_false,
      Bool.or_false]
  · exact ⟨true, if_neg hn⟩

/-- Nothing that is in use has been given back. -/
theorem use (h : m.Held) (s : Sending) : ∃ nullUse, m.use s = { m with nullUse := nullUse } := by
  cases s with
  | connect => exact h.useNsRtmp
  | createStream => exact h.useNsRtmp
  | play => exact h.useNsRtmp
  | start => exact h.useRtmp
  | auth => exact h.useRtmp
  | chat => exact h.useRtmp
  | checkup => exact h.useRtmp
  | readReport => exact ⟨m.nullUse, rfl⟩
  | own => exact ⟨m.nullUse, rfl⟩

/-- Both are given back and set to NULL. -/
theorem release (h : m.Held) {closes nsFrees : ℕ} {alive : Bool}
    (hcloses : closes = if m.returned then 1 else 0) (hfrees : nsFrees = m.created)
    (halive : alive = true → m.returned = false)
    (hfits : Fits Kept true stack) {closed aborted : Bool}
    (hclosed : closed = true → m.closed = true ∨ m.returned = true) :
    Held { m.onStack stack with
      rtmp := false, ns := false, closes := closes, nsFrees := nsFrees, alive := alive,
      closed := closed, aborted := aborted } where
  stale := h.stale
  rtmp := fun hr => Bool.noConfusion hr
  noRtmp := fun _ => hcloses
  ns := fun hn => Bool.noConfusion hn
  noNs := fun _ => hfrees
  created := h.created
  alive := fun ha hret => absurd hret (Bool.eq_false_iff.mp (halive ha))
  order := h.order
  closed := fun hc => ⟨rfl, (hclosed hc).elim (fun hc => (h.closed hc).2) id⟩
  fits := hfits

theorem rtmpClose (h : m.Held) (nsFrees : ℕ) :
    ({ m with nsFrees := nsFrees } : Nested).rtmpClose =
      { m with nsFrees := nsFrees, closes := if m.returned then 1 else 0,
               alive := m.alive && !m.rtmp } := by
  unfold Nested.rtmpClose
  by_cases hr : m.rtmp = true
  · obtain ⟨hcloses, hret⟩ := h.rtmp hr
    have hdead : (m.alive && !m.rtmp) = false := by rw [hr, Bool.not_true, Bool.and_false]
    rw [if_pos hr, if_pos hret, hdead, hcloses]
  · have hkept : (m.alive && !m.rtmp) = m.alive := by
      rw [Bool.eq_false_iff.mpr hr, Bool.not_false, Bool.and_true]
    rw [if_neg hr, hkept, ← h.noRtmp (Bool.eq_false_iff.mpr hr)]

theorem netstatusFree (h : m.Held) (closes : ℕ) (alive : Bool) :
    ({ m with closes := closes, alive := alive } : Nested).netstatusFree =
      { m with closes := closes, alive := alive, nsFrees := m.created } := by
  unfold Nested.netstatusFree
  by_cases hn : m.ns = true
  · obtain ⟨hfrees, -, hconn⟩ := h.ns hn
    have hcreated : m.created = 1 := by rw [h.created, if_pos hconn]
    rw [if_pos hn, hfrees, hcreated]
  · rw [if_neg hn, ← h.noNs (Bool.eq_false_iff.mpr hn)]

theorem alive_of_release (h : m.Held) (ha : (m.alive && !m.rtmp) = true) :
    m.returned = false := by
  obtain ⟨halive, hr⟩ := Bool.and_eq_true_iff.mp ha
  cases hret : m.returned with
  | false => rfl
  | true =>
    rw [h.alive halive hret] at hr
    exact Bool.noConfusion hr

theorem mayhemAbort (h : m.Held) (hfits : Fits Kept true stack) :
    (m.mayhemAbort.onStack stack).Held := by
  have habort : m.mayhemAbort = { m with
      closes := if m.returned then 1 else 0, alive := m.alive && !m.rtmp, nsFrees := m.created,
      ns := false, rtmp := false, aborted := true } := by
    have hc := h.rtmpClose m.nsFrees
    have hn := h.netstatusFree (if m.returned then 1 else 0) (m.alive && !m.rtmp)
    unfold Nested.mayhemAbort
    rw [hc, hn]
  rw [habort]
  exact h.release rfl rfl h.alive_of_release hfits .inl

theorem mayhemClose (h : m.Held) (hs : m.stack = []) (hret : m.returned = true) :
    m.mayhemClose.Held := by
  have hclose : m.mayhemClose = { m with
      closes := if m.returned then 1 else 0, alive := m.alive && !m.rtmp, nsFrees := m.created,
      ns := false, rtmp := false, closed := true } := by
    have hn := h.netstatusFree m.closes m.alive
    have hc := h.rtmpClose m.created
    unfold Nested.mayhemClose
    rw [hn, hc]
  rw [hclose]
  refine h.release rfl rfl h.alive_of_release ?_ fun _ => .inr hret
  rw [hs]
  trivial

theorem answer (h : m.Held) (hheed : m.Unblocked (.answer o))
    (hs : m.stack = .code (.send s next) :: rest) : (m.answer s next rest o).Held := by
  have hfits := h.fits
  rw [hs] at hfits
  obtain ⟨⟨htrue, hfalse, hdied, -⟩, hwait⟩ := hfits
  obtain ⟨nullUse, huse⟩ := h.use s
  unfold Nested.answer
  rw [huse]
  cases o with
  | sent => exact { h with fits := ⟨htrue, hwait⟩ }
  | blocked =>
    have hconn : s ≠ .connect := by
      rintro rfl
      exact hheed next rest hs
    exact { h with fits := ⟨hfalse hconn, hwait⟩ }
  | died =>
    exact { h with
      alive := fun ha => Bool.noConfusion ha
      fits := ⟨kept_rtmpDied hdied _, hwait⟩ }

theorem step (h : m.Held) (hstep : m.step = some m') : m'.Held := by
  have hfits := h.fits
  obtain ⟨rest, hs, rfl⟩ | ⟨c, next, rest, hs, hop, rfl⟩ | ⟨c, next, rest, hs, hop, rfl⟩ |
    ⟨next, rest, hs, rfl⟩ | ⟨next, rest, hs, rfl⟩ | ⟨next, rest, hs, rfl⟩ |
    ⟨next, rest, hs, rfl⟩ := step_cases hstep <;> rw [hs] at hfits
  · exact h.onStack hfits.2.fits
  · exact { h.onStack (Fits.push hfits.2 hfits.1) with }
  · exact h.onStack ⟨hfits.1 _, hfits.2⟩
  · obtain ⟨nullUse, huse⟩ := h.useNs
    rw [huse]
    exact { h with fits := hfits }
  · obtain ⟨⟨hgone, hnext⟩, hwait⟩ := hfits
    have hr : m.rtmp = false := by simpa using hgone
    have hn : ¬ m.ns = true := fun hn => absurd (h.ns hn).2.1 (Bool.eq_false_iff.mp hr)
    have hfree : m.netstatusFree = m := if_neg hn
    rw [hfree]
    refine h.onStack ⟨?_, hwait⟩
    rw [hgone]
    exact hnext
  · obtain ⟨⟨hgone, hnext⟩, hwait⟩ := hfits
    have hr : m.rtmp = false := by simpa using hgone
    have hclose : m.rtmpClose = m := if_neg (Bool.eq_false_iff.mp hr)
    rw [hclose]
    refine h.onStack ⟨?_, hwait⟩
    rw [hgone]
    exact hnext
  · exact h.mayhemAbort hfits

theorem takes (h : m.Held) (hheed : m.Unblocked i) (htakes : m.Takes i m') : m'.Held := by
  obtain ⟨-, -, hmoves⟩ := htakes
  have hfits := h.fits
  cases hmoves with
  | code hstep => exact h.step hstep
  | answer hs => exact h.answer hheed hs
  | due hs =>
    rw [hs] at hfits
    exact h.onStack ⟨kept_sendReadReport _, hfits.2⟩
  | notDue hs =>
    rw [hs] at hfits
    exact h.onStack hfits.2.fits
  | ret hs =>
    rw [hs] at hfits
    exact h.onStack hfits.fits
  | chat hturn hret => exact h.onStack ⟨kept_sndChat _, hfits.turn hturn⟩
  | abort hturn hret =>
    rw [← m.mayhemAbort_onStack]
    exact h.mayhemAbort (hfits.turn hturn).fits
  | returned hs hret =>
    have hr : m.rtmp = false := by
      cases hr : m.rtmp with
      | false => rfl
      | true => exact absurd (h.rtmp hr).2 (Bool.eq_false_iff.mp hret)
    have hcloses : m.closes = 0 := by
      rw [h.noRtmp hr, if_neg (Bool.eq_false_iff.mp hret)]
    exact { h with
      rtmp := fun _ => ⟨hcloses, rfl⟩
      noRtmp := fun hf => Bool.noConfusion hf
      ns := fun hn => ⟨(h.ns hn).1, rfl, (h.ns hn).2.2⟩
      alive := fun _ _ => rfl
      order := fun _ => rfl
      closed := fun hc => absurd (h.closed hc).2 (Bool.eq_false_iff.mp hret)
      fits := by
        rw [hs]
        trivial }
  | connected hs halive hret hconn =>
    have hcreated : m.created = 0 := by
      rw [h.created, if_neg (Bool.eq_false_iff.mp hconn)]
    have hn : m.ns = false := by
      cases hn : m.ns with
      | false => rfl
      | true => exact absurd (h.ns hn).2.2 (Bool.eq_false_iff.mp hconn)
    have hfrees : m.nsFrees = 0 := (h.noNs hn).trans hcreated
    exact { h with
      ns := fun _ => ⟨hfrees, h.alive halive hret, rfl⟩
      noNs := fun hf => Bool.noConfusion hf
      created := congrArg (· + 1) hcreated
      order := fun _ => hret
      fits := ⟨kept_rtmpConnected _, waits_nil⟩ }
  | message hs halive hconn => exact h.onStack ⟨kept_dispatch _ _ _, waits_nil⟩
  | reset hs halive =>
    exact { h with
      alive := fun ha => Bool.noConfusion ha
      fits := ⟨kept_rtmpDied (show Kept true .done from trivial) _, waits_nil⟩ }
  | close hs hret => exact h.mayhemClose hs hret

end Held

theorem start_held (premium : Bool) (ops : Callback → Bool) : (start premium ops).Held where
  stale := rfl
  rtmp := fun h => Bool.noConfusion h
  noRtmp := fun _ => rfl
  ns := fun h => Bool.noConfusion h
  noNs := fun _ => rfl
  created := rfl
  alive := fun _ h => Bool.noConfusion h
  order := fun h => Bool.noConfusion h
  closed := fun h => Bool.noConfusion h
  fits := trivial

theorem run_held {premium : Bool} {ops : Callback → Bool}
    (hrun : Relation.ReflTransGen (fun m m' => ∃ i, m.Unblocked i ∧ m.Takes i m')
      (start premium ops) m) : m.Held := by
  induction hrun with
  | refl => exact start_held premium ops
  | tail _ hstep ih =>
    obtain ⟨i, hheed, htakes⟩ := hstep
    exact ih.takes hheed htakes

/-- In every run in which the connect message is never blocked, the netstatus and the RTMP handle
are given back once and not used after that. -/
theorem single_ownership {premium : Bool} {ops : Callback → Bool}
    (hrun : Relation.ReflTransGen (fun m m' => ∃ i, m.Unblocked i ∧ m.Takes i m')
      (start premium ops) m) : m.SingleOwned := (run_held hrun).singleOwned

/-- The connection is lost on the connect message, and the session closed after that. -/
theorem single_ownership_died : ∃ m : Nested, m.closed = true ∧ m.SingleOwned := by
  have hreturned := Relation.ReflTransGen.single
    (r := fun m m' => ∃ i, Unblocked m i ∧ Takes m i m') (a := start false fun _ => false)
    ⟨.returned, trivial, rfl, rfl, .returned rfl rfl⟩
  have hconnected := hreturned.tail ⟨.connected, trivial, rfl, rfl, .connected rfl rfl rfl rfl⟩
  have hdied := hconnected.tail ⟨.answer .died, trivial, rfl, rfl, .answer rfl⟩
  have hunset := hdied.tail ⟨.code, trivial, rfl, rfl, .code rfl⟩
  have habort := hunset.tail ⟨.code, trivial, rfl, rfl, .code rfl⟩
  have hfree := habort.tail ⟨.code, trivial, rfl, rfl, .code rfl⟩
  have hclose := hfree.tail ⟨.code, trivial, rfl, rfl, .code rfl⟩
  have hdone := hclose.tail ⟨.code, trivial, rfl, rfl, .code rfl⟩
  have hend := hdone.tail ⟨.close, trivial, rfl, rfl, .close rfl rfl⟩
  exact ⟨_, rfl, single_ownership hend⟩

/-- The connect message is blocked, and the session closed after that. -/
theorem connect_blocked : ¬ ∀ premium ops m,
    Relation.ReflTransGen (fun m m' => ∃ i, Takes m i m') (start premium ops) m →
      m.SingleOwned := by
  intro hall
  have hreturned := Relation.ReflTransGen.single
    (r := fun m m' => ∃ i, Takes m i m') (a := start false fun _ => false)
    ⟨.returned, rfl, rfl, .returned rfl rfl⟩
  have hconnected := hreturned.tail ⟨.connected, rfl, rfl, .connected rfl rfl rfl rfl⟩
  have hblocked := hconnected.tail ⟨.answer .blocked, rfl, rfl, .answer rfl⟩
  have hfree := hblocked.tail ⟨.code, rfl, rfl, .code rfl⟩
  have hclose := hfree.tail ⟨.code, rfl, rfl, .code rfl⟩
  have hdone := hclose.tail ⟨.code, rfl, rfl, .code rfl⟩
  have hend := hdone.tail ⟨.close, rfl, rfl, .close rfl rfl⟩
  have hcloses := (hall _ _ _ hend).closes
  exact absurd hcloses (by decide)

/-! ### What becomes of a connect message that is blocked -/

/-- How often the netstatus is given back if nothing but `mayhem_close` follows. -/
def due (m : Nested) : ℕ := m.nsFrees + m.ns.toNat

theorem due_netstatusFree (m : Nested) : m.due ≤ m.netstatusFree.nsFrees := by
  unfold Nested.netstatusFree due
  cases hn : m.ns with
  | true => exact Nat.le_refl _
  | false => exact Nat.le_refl _

theorem due_rtmpClose (m : Nested) : m.rtmpClose.due = m.due := by
  obtain ⟨closes, hc⟩ := m.rtmpClose_frame
  rw [hc]
  rfl

theorem due_mayhemAbort (m : Nested) : m.due ≤ m.mayhemAbort.due := by
  rw [← due_rtmpClose]
  exact due_netstatusFree _

theorem due_mayhemClose (m : Nested) : m.due ≤ m.mayhemClose.due := by
  obtain ⟨closes, hc⟩ := m.netstatusFree.rtmpClose_frame
  have hfrees : m.mayhemClose.due = m.netstatusFree.nsFrees := by
    unfold mayhemClose due
    rw [hc]
    rfl
  rw [hfrees]
  exact due_netstatusFree m

theorem use_frame (m : Nested) (s : Sending) :
    ∃ nullUse stale, m.use s = { m with nullUse := nullUse, stale := stale } := by
  by_cases hs : m.Handle s
  · obtain ⟨stale, huse⟩ := use_of_handle hs
    exact ⟨_, stale, huse⟩
  · cases s with
    | connect => exact ⟨_, _, if_neg hs⟩
    | createStream => exact ⟨_, _, if_neg hs⟩
    | play => exact ⟨_, _, if_neg hs⟩
    | start => exact ⟨_, _, if_neg hs⟩
    | auth => exact ⟨_, _, if_neg hs⟩
    | chat => exact ⟨_, _, if_neg hs⟩
    | checkup => exact ⟨_, _, if_neg hs⟩
    | readReport => exact absurd trivial hs
    | own => exact absurd trivial hs

/-- It never becomes less. -/
theorem due_step (h : m.step = some m') : m.due ≤ m'.due := by
  obtain ⟨rest, hs, rfl⟩ | ⟨c, next, rest, hs, hop, rfl⟩ | ⟨c, next, rest, hs, hop, rfl⟩ |
    ⟨next, rest, hs, rfl⟩ | ⟨next, rest, hs, rfl⟩ | ⟨next, rest, hs, rfl⟩ |
    ⟨next, rest, hs, rfl⟩ := step_cases h
  · exact Nat.le_refl _
  · exact Nat.le_refl _
  · exact Nat.le_refl _
  · by_cases hn : m.ns = true
    · rw [useNs_of_ns hn]
      exact Nat.le_refl _
    · have huse : m.useNs = { m with nullUse := true } := if_neg hn
      rw [huse]
      exact Nat.le_refl _
  · exact Nat.le_trans (due_netstatusFree m) (Nat.le_add_right _ _)
  · exact Nat.le_of_eq m.due_rtmpClose.symm
  · exact m.due_mayhemAbort

theorem due_moves (h : m.Moves i m') : m.due ≤ m'.due := by
  cases h with
  | code hstep => exact due_step hstep
  | @answer s next rest o hs =>
    obtain ⟨nullUse, stale, huse⟩ := m.use_frame s
    unfold answer
    rw [huse]
    cases o with
    | sent => exact Nat.le_refl _
    | blocked => exact Nat.le_refl _
    | died => exact Nat.le_refl _
  | connected hs halive hret hconn =>
    exact Nat.add_le_add_left (Bool.toNat_le m.ns) _
  | abort hturn hret => exact m.due_mayhemAbort
  | close hs hret => exact m.due_mayhemClose
  | due | notDue | ret | chat | returned | message | reset => exact Nat.le_refl _

theorem due_run (hrun : Relation.ReflTransGen (fun m m' => ∃ i, Takes m i m') m m') :
    m.due ≤ m'.due := by
  induction hrun with
  | refl => exact Nat.le_refl _
  | tail _ hstep ih =>
    obtain ⟨i, -, -, hmoves⟩ := hstep
    exact Nat.le_trans ih (due_moves hmoves)

/-- Whatever follows, `mayhem_close` then gives the netstatus back a second time, unless it has
been given back twice before. -/
theorem blocked_twice {m₁ : Nested} {next : Bool → Code} (h : m.Held)
    (hs : m.stack = .code (.send .connect next) :: rest)
    (htakes : (m.answer .connect next rest .blocked).Takes i m₁)
    (hrun : Relation.ReflTransGen (fun m m' => ∃ i, Takes m i m') m₁ m') :
    2 ≤ m'.mayhemClose.nsFrees := by
  have hfits := h.fits
  rw [hs] at hfits
  obtain ⟨next', hnext⟩ := hfits.1.2.2.2 rfl
  obtain ⟨-, hnull, hmoves⟩ := htakes
  have hn : m.ns = true := by
    by_contra hn
    have huse : m.useNsRtmp = { m with nullUse := true } := if_neg hn
    have hused : (m.useNsRtmp).nullUse = false := hnull
    rw [huse] at hused
    exact Bool.noConfusion hused
  have hfree : m₁.due = 2 := by
    have huse : m.use .connect = _ := useNsRtmp_of_ns hn
    unfold answer at hmoves
    rw [huse, hnext] at hmoves
    rw [moves_of_step rfl hmoves]
    unfold due Nested.netstatusFree onStack
    dsimp only
    rw [if_pos hn, hn, (h.ns hn).1]
    rfl
  exact Nat.le_trans (Nat.le_of_eq hfree.symm) (Nat.le_trans (due_run hrun) (due_mayhemClose m'))

end Nested
end Mayhem.Naiad
