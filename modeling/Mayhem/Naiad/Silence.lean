import Mathlib.Logic.Relation
import Mathlib.Tactic.ByContra
import Mayhem.Naiad.Nested

/-! After `mayhem_abort`: no callback is made and no NULL handle used, provided that the code
that goes on is not in one of the places where it does not look whether the session is gone. -/
namespace Mayhem.Naiad
namespace Nested

variable {P : Bool → Code → Prop} {a : Bool} {rest : List Frame} {m m' : Nested} {i : Input}

/-- Code that waits for the owner is fit to go on, whatever the owner does. -/
def Waits (P : Bool → Code → Prop) (rest : List Frame) : Prop :=
  ∀ c, .code c ∈ rest → ∀ a, P a c

/-- The code on top is fit for what the session is like now. -/
def Fits (P : Bool → Code → Prop) (a : Bool) : List Frame → Prop
  | .code c :: rest => P a c ∧ Waits P rest
  | .owner :: rest => Waits P rest
  | [] => True

theorem Waits.tail {f : Frame} (h : Waits P (f :: rest)) : Waits P rest :=
  fun c hc => h c (List.mem_cons_of_mem _ hc)

theorem Waits.fits (h : Waits P rest) : Fits P a rest := by
  cases rest with
  | nil => trivial
  | cons f rest =>
    cases f with
    | owner => exact h.tail
    | code c => exact ⟨h c List.mem_cons_self a, h.tail⟩

theorem waits_nil : Waits P [] := fun _ hc => absurd hc List.not_mem_nil

theorem Fits.push {c : Code} (h : Waits P rest) (hc : ∀ a, P a c) :
    Fits P a (.owner :: .code c :: rest) := by
  intro c' hc'
  rcases List.mem_cons.mp hc' with he | hc'
  · obtain rfl := Frame.code.inj he
    exact hc
  · exact h c' hc'

/-- What the owner has control over waits. -/
theorem Fits.turn (h : Fits P a m.stack) (ht : m.Turn) : Waits P m.stack := by
  rcases ht with ht | ⟨rest, ht⟩
  · rw [ht]
    exact waits_nil
  · rw [ht] at h ⊢
    intro c hc
    rcases List.mem_cons.mp hc with he | hc
    · cases he
    · exact h c hc

/-- The sends in front of which nobody has looked whether the session is still there. -/
def Unchecked : Sending → Prop
  | .auth => True
  | .readReport => True
  | _ => False

/-- Behind these something is done even if they have lost the connection. -/
def Doomed (ops : Callback → Bool) : Sending → Prop
  | .readReport => True
  | .start => ops .streamPlay = true
  | _ => False

/-- A premium session has not been aborted in the callback for NaiadAuthorized, nor any session in
the handler of a message that a read report follows. The read report does not lose the connection,
nor does NaiadStart if there is a callback behind it, nor anything at all in a session that has
been aborted if there is one for errors. The owner does not chat without a connection. -/
def Heeded (m : Nested) : Input → Prop
  | .answer o => ∀ s next rest, m.stack = .code (.send s next) :: rest →
      (Unchecked s → m.aborted = false) ∧
        (o = .died → ¬ Doomed m.ops s ∧ (m.ops .connectError = true → m.aborted = false))
  | .chat => m.rtmp = true
  | _ => True

structure Silent (m : Nested) : Prop where
  late : m.late = false
  nullUse : m.nullUse = false

/-- The handle for a send of the code is there, unless the session has been aborted. -/
def Reaches (ret conn : Bool) : Sending → Prop
  | .connect => conn = true
  | .createStream => conn = true
  | .play => conn = true
  | .start => ret = true
  | .auth => conn = true
  | .chat => False
  | .checkup => ret = true
  | .readReport => conn = true
  | .own => True

theorem Reaches.unchecked {ret conn : Bool} {s : Sending} (h : Reaches ret conn s)
    (hu : Unchecked s) : conn = true := by
  cases s with
  | auth => exact h
  | readReport => exact h
  | _ => exact hu.elim

/-- What the doomed ones are followed by. -/
def Follows (next : Bool → Code) : Sending → Prop
  | .readReport => ∀ ret, next ret = Code.checkup
  | .start => ∀ ret, ∃ next', next ret = .callback .streamPlay next'
  | _ => True

/-- Code that keeps silent in a session that is aborted (`a`) or not. -/
def Quiet (ops : Callback → Bool) (ret conn : Bool) : Bool → Code → Prop
  | _, .done => True
  | a, .callback c next => (ops c = true → a = false) ∧ ∀ a', Quiet ops ret conn a' next
  | a, .send s next => (a = false ∨ Unchecked s) ∧ Reaches ret conn s ∧
      Quiet ops ret conn false (next true) ∧ Quiet ops ret conn false (next false) ∧
        (¬ Doomed ops s → Quiet ops ret conn true (next false)) ∧ Follows next s
  | a, .useNs next => a = false ∧ conn = true ∧ Quiet ops ret conn false next
  | a, .netstatusFree next => Quiet ops ret conn a next
  | a, .rtmpClose next => Quiet ops ret conn a next
  | _, .mayhemAbort next => Quiet ops ret conn true next
  | _, .readReport => ret = true ∧ conn = true

section Codes

variable {ops : Callback → Bool} {ret conn : Bool} {next : Code}

theorem quiet_sendReadReport (hret : ret = true) (hconn : conn = true) (a : Bool) :
    Quiet ops ret conn a Code.sendReadReport := by
  have hcheckup : Quiet ops ret conn false Code.checkup :=
    ⟨.inl rfl, hret, trivial, trivial, fun _ => trivial, trivial⟩
  exact ⟨.inr trivial, hconn, hcheckup, hcheckup, fun h => absurd trivial h, fun _ => rfl⟩

/-- A handler is called in a session that has not been aborted. -/
theorem quiet_dispatch (premium : Bool) (req : Request) :
    Quiet ops true true false (Code.rtmpDispatch premium req) := by
  have hend : ∀ a, Quiet ops true true a .readReport := fun _ => ⟨rfl, rfl⟩
  -- a send that is made in the code itself, and whose failure ends in `mayhem_abort`
  have hns : ∀ s, Reaches true true s → (∀ next, Follows next s) →
      Quiet ops true true false
        (.send s fun ret => if ret then .useNs .readReport else .mayhemAbort .readReport) :=
    fun s hs hf => ⟨.inl rfl, hs, ⟨rfl, rfl, hend false⟩, hend true, fun _ => hend true, hf _⟩
  cases req with
  | authorized =>
    cases premium with
    | false => exact ⟨fun _ => rfl, hend⟩
    | true =>
      refine ⟨fun _ => rfl, fun _ => ⟨.inr trivial, rfl, hend false, hend true, ?_, trivial⟩⟩
      exact fun _ => hend true
  | connSuccess =>
    cases premium with
    | false => exact ⟨rfl, rfl, rfl, rfl, hns _ rfl fun _ => trivial⟩
    | true => exact ⟨rfl, rfl, rfl, rfl, hend false⟩
  | playStart =>
    refine ⟨rfl, rfl, rfl, rfl, .inl rfl, rfl, ⟨fun _ => rfl, hend⟩, ⟨fun _ => rfl, hend⟩, ?_,
      fun _ => ⟨_, rfl⟩⟩
    exact fun h => ⟨fun hop => absurd hop h, hend⟩
  | refused => exact hend false
  | notice n => exact ⟨fun _ => rfl, hend⟩
  | set => exact hns _ rfl fun _ => trivial
  | result => exact ⟨rfl, rfl, hend false⟩
  | connErr => exact ⟨rfl, rfl, rfl, rfl, fun _ => rfl, fun _ => hend true⟩
  | created => exact ⟨rfl, rfl, rfl, rfl, hns _ rfl fun _ => trivial⟩
  | playStop => exact ⟨rfl, rfl, rfl, rfl, fun _ => rfl, hend⟩
  | playReset => exact ⟨rfl, rfl, rfl, rfl, fun _ => rfl, hend⟩
  | playError => exact ⟨rfl, rfl, rfl, rfl, fun _ => rfl, fun _ => hend true⟩
  | own => exact ⟨.inl rfl, trivial, hend false, hend false, fun _ => hend true, trivial⟩

theorem quiet_rtmpDied {a : Bool} (ha : ops .connectError = true → a = false)
    (h : Quiet ops ret conn true next) : Quiet ops ret conn a (Code.rtmpDied next) :=
  ⟨ha, fun _ => h⟩

theorem quiet_rtmpConnected (ops : Callback → Bool) (ret : Bool) :
    Quiet ops ret true false Code.rtmpConnected :=
  ⟨.inl rfl, rfl, ⟨rfl, rfl, trivial⟩, trivial, fun _ => trivial, trivial⟩

end Codes

/-- The owner chats. There may be a connection in a session that has been aborted, if that was
before `mayhem_connect` had returned. -/
def Chatting (m : Nested) : Prop := m.rtmp = true ∧ ∃ rest,
  m.stack = .code Code.mayhemSndChat :: rest ∧ Waits (Quiet m.ops m.returned m.connected) rest

/-- What keeps a session silent that is in use. -/
structure Quieted (m : Nested) : Prop extends Silent m where
  rtmp : m.closed = false → m.aborted = false → m.returned = true → m.rtmp = true
  ns : m.closed = false → m.aborted = false → m.connected = true → m.ns = true
  alive : m.alive = true → m.aborted = false
  order : m.connected = true → m.returned = true
  gone : m.aborted = true → m.connected = true → m.rtmp = false
  /-- Before `mayhem_connect` has returned the connection can only be reset. -/
  early : m.returned = false → m.stack ≠ [] → m.alive = false
  fits : Fits (Quiet m.ops m.returned m.connected) m.aborted m.stack ∨ m.Chatting

namespace Quieted

variable {stack : List Frame} {next : Code} {s : Sending} {next' : Bool → Code} {o : Outcome}

theorem onStack (h : m.Quieted) (hearly : m.returned = false → stack ≠ [] → m.alive = false)
    (hfits : Fits (Quiet m.ops m.returned m.connected) m.aborted stack) :
    (m.onStack stack).Quieted := { h with early := hearly, fits := .inl hfits }

theorem handle (h : m.Quieted) (hclosed : m.closed = false) (habort : m.aborted = false)
    (hr : Reaches m.returned m.connected s) : m.Handle s := by
  cases s with
  | connect => exact h.ns hclosed habort hr
  | createStream => exact h.ns hclosed habort hr
  | play => exact h.ns hclosed habort hr
  | start => exact h.rtmp hclosed habort hr
  | auth => exact h.rtmp hclosed habort (h.order hr)
  | chat => exact hr.elim
  | checkup => exact h.rtmp hclosed habort hr
  | readReport => trivial
  | own => trivial

theorem useNs (h : m.Quieted) (hclosed : m.closed = false) (habort : m.aborted = false)
    (hconn : m.connected = true)
    (hearly : m.returned = false → stack ≠ [] → m.alive = false)
    (hfits : Fits (Quiet m.ops m.returned m.connected) m.aborted stack) :
    (m.useNs.onStack stack).Quieted := by
  rw [useNs_of_ns (h.ns hclosed habort hconn)]
  exact { h with early := hearly, fits := .inl hfits }

theorem netstatusFree (h : m.Quieted)
    (hearly : m.returned = false → stack ≠ [] → m.alive = false)
    (hfits : Fits (Quiet m.ops m.returned m.connected) m.aborted stack) :
    (m.netstatusFree.onStack stack).Quieted := by
  obtain ⟨nsFrees, hn⟩ := m.netstatusFree_frame
  rw [hn]
  exact { h with early := hearly, fits := .inl hfits }

theorem rtmpClose (h : m.Quieted)
    (hearly : m.returned = false → stack ≠ [] → m.alive = false)
    (hfits : Fits (Quiet m.ops m.returned m.connected) m.aborted stack) :
    (m.rtmpClose.onStack stack).Quieted := by
  obtain ⟨closes, hc⟩ := m.rtmpClose_frame
  have halive : (m.alive && !m.rtmp) = true → m.alive = true := fun ha =>
    (Bool.and_eq_true_iff.mp ha).1
  rw [hc]
  refine { h with alive := fun ha => h.alive (halive ha), early := ?_, fits := .inl hfits }
  intro hret hs
  dsimp only [Nested.onStack]
  rw [hearly hret hs, Bool.false_and]

theorem mayhemAbort (h : m.Quieted) (hclosed : m.closed = false)
    (hearly : m.returned = false → m.alive = false)
    (hfits : Fits (Quiet m.ops m.returned m.connected) true stack) :
    (m.mayhemAbort.onStack stack).Quieted := by
  obtain ⟨closes, nsFrees, ha⟩ := m.mayhemAbort_frame
  -- what is still alive has a handle
  have halive : (m.alive && !m.rtmp) = false := by
    cases hal : m.alive with
    | false => rfl
    | true =>
      have hret : m.returned = true := by
        cases hret : m.returned with
        | true => rfl
        | false => exact absurd hal (Bool.eq_false_iff.mp (hearly hret))
      rw [h.rtmp hclosed (h.alive hal) hret]
      rfl
  rw [ha, halive]
  exact { h with
    rtmp := fun _ hab => Bool.noConfusion hab
    ns := fun _ hab => Bool.noConfusion hab
    alive := fun hal => Bool.noConfusion hal
    gone := fun _ _ => rfl
    early := fun _ _ => rfl
    fits := .inl hfits }

theorem answer (h : m.Quieted) (hearly : m.returned = false → m.alive = false)
    (hhandle : m.Handle s) (hwait : Waits (Quiet m.ops m.returned m.connected) rest)
    (htrue : Quiet m.ops m.returned m.connected m.aborted (next' true))
    (hfalse : Quiet m.ops m.returned m.connected m.aborted (next' false))
    (hdied : o = .died →
      Quiet m.ops m.returned m.connected m.aborted (Code.rtmpDied (next' false))) :
    (m.answer s next' rest o).Quieted := by
  obtain ⟨stale, huse⟩ := use_of_handle hhandle
  unfold Nested.answer
  rw [huse]
  cases o with
  | sent => exact { h with early := fun hret _ => hearly hret, fits := .inl ⟨htrue, hwait⟩ }
  | blocked => exact { h with early := fun hret _ => hearly hret, fits := .inl ⟨hfalse, hwait⟩ }
  | died =>
    exact { h with
      alive := fun hal => Bool.noConfusion hal
      early := fun _ _ => rfl
      fits := .inl ⟨hdied rfl, hwait⟩ }

theorem answer_code (h : m.Quieted) (hclosed : m.closed = false) (hheed : m.Heeded (.answer o))
    (hfits : Fits (Quiet m.ops m.returned m.connected) m.aborted m.stack)
    (hs : m.stack = .code (.send s next') :: rest) : (m.answer s next' rest o).Quieted := by
  rw [hs] at hfits
  obtain ⟨⟨hopen, hreach, htrue, hfalse, hdied, -⟩, hwait⟩ := hfits
  obtain ⟨hunchecked, hdoomed⟩ := hheed s next' rest hs
  have habort : m.aborted = false := hopen.elim id hunchecked
  have hearly : m.returned = false → m.alive = false := fun hret => h.early hret (by
    rw [hs]
    exact List.cons_ne_nil _ _)
  refine h.answer hearly (h.handle hclosed habort hreach) hwait ?_ ?_ fun ho =>
    quiet_rtmpDied (fun _ => habort) (hdied (hdoomed ho).1)
  · rw [habort]
    exact htrue
  · rw [habort]
    exact hfalse

theorem answer_chat (h : m.Quieted) (hheed : m.Heeded (.answer o)) (hrtmp : m.rtmp = true)
    (hs : m.stack = .code Code.mayhemSndChat :: rest)
    (hwait : Waits (Quiet m.ops m.returned m.connected) rest) :
    (m.answer .chat (fun _ => .done) rest o).Quieted := by
  have hearly : m.returned = false → m.alive = false := fun hret => h.early hret (by
    rw [hs]
    exact List.cons_ne_nil _ _)
  refine h.answer hearly hrtmp hwait ?_ ?_ fun ho => quiet_rtmpDied ((hheed _ _ _ hs).2 ho).2 ?_
  · trivial
  · trivial
  · trivial

theorem step (h : m.Quieted) (hclosed : m.closed = false)
    (hfits : Fits (Quiet m.ops m.returned m.connected) m.aborted m.stack)
    (hstep : m.step = some m') : m'.Quieted := by
  have hearly : m.stack ≠ [] → m.returned = false → m.alive = false := fun hs hret =>
    h.early hret hs
  obtain ⟨rest, hs, rfl⟩ | ⟨c, next, rest, hs, hop, rfl⟩ | ⟨c, next, rest, hs, hop, rfl⟩ |
    ⟨next, rest, hs, rfl⟩ | ⟨next, rest, hs, rfl⟩ | ⟨next, rest, hs, rfl⟩ |
    ⟨next, rest, hs, rfl⟩ := step_cases hstep <;> rw [hs] at hfits hearly <;>
    replace hearly := hearly (List.cons_ne_nil _ _)
  · exact h.onStack (fun hret _ => hearly hret) hfits.2.fits
  · obtain ⟨⟨habort, hnext⟩, hwait⟩ := hfits
    have hlate : (m.late || m.aborted) = false := by rw [h.late, habort hop, Bool.or_false]
    exact { h.onStack (fun hret _ => hearly hret) (Fits.push hwait hnext) with late := hlate }
  · exact h.onStack (fun hret _ => hearly hret) ⟨hfits.1.2 _, hfits.2⟩
  · obtain ⟨⟨habort, hconn, hnext⟩, hwait⟩ := hfits
    exact h.useNs hclosed habort hconn (fun hret _ => hearly hret) ⟨habort ▸ hnext, hwait⟩
  · exact h.netstatusFree (fun hret _ => hearly hret) hfits
  · exact h.rtmpClose (fun hret _ => hearly hret) hfits
  · exact h.mayhemAbort hclosed hearly hfits

theorem takes (h : m.Quieted) (hheed : m.Heeded i) (htakes : m.Takes i m') : m'.Quieted := by
  obtain ⟨hclosed, -, hmoves⟩ := htakes
  rcases h.fits with hfits | ⟨hrtmp, rest, hs, hwait⟩
  case inr =>
    obtain ⟨o, rfl, rfl⟩ := moves_of_send hs hmoves
    exact h.answer_chat hheed hrtmp hs hwait
  cases hmoves with
  | code hstep => exact h.step hclosed hfits hstep
  | answer hs => exact h.answer_code hclosed hheed hfits hs
  | due hs =>
    rw [hs] at hfits
    obtain ⟨⟨hret, hconn⟩, hwait⟩ := hfits
    exact h.onStack (fun hf => absurd hret (Bool.eq_false_iff.mp hf))
      ⟨quiet_sendReadReport hret hconn _, hwait⟩
  | notDue hs =>
    rw [hs] at hfits
    obtain ⟨⟨hret, -⟩, hwait⟩ := hfits
    exact h.onStack (fun hf => absurd hret (Bool.eq_false_iff.mp hf)) hwait.fits
  | ret hs =>
    rw [hs] at hfits
    refine h.onStack (fun hret _ => h.early hret ?_) hfits.fits
    rw [hs]
    exact List.cons_ne_nil _ _
  | chat hturn hret =>
    exact { h with
      early := fun hf => absurd hret (Bool.eq_false_iff.mp hf)
      fits := .inr ⟨hheed, _, rfl, hfits.turn hturn⟩ }
  | abort hturn hret =>
    rw [← m.mayhemAbort_onStack]
    exact h.mayhemAbort hclosed (fun hf => absurd hret (Bool.eq_false_iff.mp hf))
      (hfits.turn hturn).fits
  | returned hs hret =>
    exact { h with
      rtmp := fun _ _ _ => rfl
      order := fun _ => rfl
      gone := fun _ hconn => absurd (h.order hconn) (Bool.eq_false_iff.mp hret)
      early := fun hf => Bool.noConfusion hf
      fits := .inl (by
        rw [hs]
        trivial) }
  | connected hs halive hret hconn =>
    have hquiet : Quiet m.ops m.returned true m.aborted Code.rtmpConnected := by
      rw [h.alive halive]
      exact quiet_rtmpConnected _ _
    exact { h with
      ns := fun _ _ _ => rfl
      order := fun _ => hret
      gone := fun hab => absurd hab (Bool.eq_false_iff.mp (h.alive halive))
      early := fun hf => absurd hret (Bool.eq_false_iff.mp hf)
      fits := .inl ⟨hquiet, waits_nil⟩ }
  | message hs halive hconn =>
    have hret := h.order hconn
    refine h.onStack (fun hf => absurd hret (Bool.eq_false_iff.mp hf)) ⟨?_, waits_nil⟩
    rw [hret, hconn, h.alive halive]
    exact quiet_dispatch _ _
  | reset hs halive =>
    have hquiet : Quiet m.ops m.returned m.connected m.aborted (Code.rtmpDied .done) := by
      rw [h.alive halive]
      exact quiet_rtmpDied (fun _ => rfl) trivial
    exact { h with
      alive := fun hal => Bool.noConfusion hal
      early := fun _ _ => rfl
      fits := .inl ⟨hquiet, waits_nil⟩ }
  | close hs hret =>
    obtain ⟨closes, nsFrees, hc⟩ := m.mayhemClose_frame
    rw [hc]
    exact { h with
      rtmp := fun hf => Bool.noConfusion hf
      ns := fun hf => Bool.noConfusion hf
      alive := fun hal => h.alive (Bool.and_eq_true_iff.mp hal).1
      gone := fun _ _ => rfl
      early := fun hf => absurd hret (Bool.eq_false_iff.mp hf)
      fits := .inl hfits }

end Quieted

/-- `mayhem_connect` has been called. -/
def start (premium : Bool) (ops : Callback → Bool) : Nested := { premium := premium, ops := ops }

theorem start_quieted (premium : Bool) (ops : Callback → Bool) : (start premium ops).Quieted where
  late := rfl
  nullUse := rfl
  rtmp := fun _ _ h => Bool.noConfusion h
  ns := fun _ _ h => Bool.noConfusion h
  alive := fun _ => rfl
  order := fun h => Bool.noConfusion h
  gone := fun h => Bool.noConfusion h
  early := fun _ h => absurd rfl h
  fits := .inl trivial

theorem run_quieted {premium : Bool} {ops : Callback → Bool}
    (hrun : Relation.ReflTransGen (fun m m' => ∃ i, m.Heeded i ∧ m.Takes i m')
      (start premium ops) m) : m.Quieted := by
  induction hrun with
  | refl => exact start_quieted premium ops
  | tail _ hstep ih =>
    obtain ⟨i, hheed, htakes⟩ := hstep
    exact ih.takes hheed htakes

/-! ### What the condition leaves out -/

/-- Something comes of it that is not silent. -/
def Spoils (m : Nested) : Prop :=
  ∃ m', Relation.ReflTransGen (fun m m' => ∃ i, Takes m i m') m m' ∧ ¬ m'.Silent

/-- Something comes of it once `mayhem_abort` has returned to the code `next`. -/
def SpoilsBehind (m : Nested) (next : Code) (rest : List Frame) : Prop :=
  ∀ m' : Nested, m'.closed = false → m'.ops = m.ops → m'.aborted = true → m'.rtmp = false →
    m'.stack = .code next :: rest → m'.Spoils

namespace Spoils

variable {next : Code}

theorem of_late (h : m.late = true) : m.Spoils :=
  ⟨m, .refl, fun hs => absurd h (Bool.eq_false_iff.mp hs.late)⟩

theorem of_nullUse (h : m.nullUse = true) : m.Spoils :=
  ⟨m, .refl, fun hs => absurd h (Bool.eq_false_iff.mp hs.nullUse)⟩

theorem step (hclosed : m.closed = false) (hmoves : m.Moves i m') (h : m'.Spoils) : m.Spoils := by
  cases hn : m.nullUse with
  | true => exact of_nullUse hn
  | false =>
    obtain ⟨m'', hrun, hsilent⟩ := h
    exact ⟨m'', .head ⟨i, hclosed, hn, hmoves⟩ hrun, hsilent⟩

theorem of_useRtmp (hrtmp : m.rtmp = false) : m.useRtmp.nullUse = true := by
  unfold useRtmp
  rw [if_neg (Bool.eq_false_iff.mp hrtmp)]

theorem checkup (hclosed : m.closed = false) (hrtmp : m.rtmp = false)
    (hs : m.stack = .code Code.checkup :: rest) : m.Spoils :=
  .step hclosed (.answer (o := .sent) hs) (of_nullUse (of_useRtmp hrtmp))

theorem mayhemAbort (hclosed : m.closed = false)
    (hs : m.stack = .code (.mayhemAbort next) :: rest)
    (hnext : m.SpoilsBehind next rest) : m.Spoils := by
  refine .step hclosed (.code (by unfold Nested.step; rw [hs])) ?_
  obtain ⟨closes, nsFrees, ha⟩ := m.mayhemAbort_frame
  rw [ha]
  exact hnext _ hclosed rfl rfl rfl rfl

/-- `rtmp_died` aborts the session, whether there is a callback for it or not. -/
theorem rtmpDied (hclosed : m.closed = false) (hs : m.stack = .code (Code.rtmpDied next) :: rest)
    (hnext : m.SpoilsBehind next rest) : m.Spoils := by
  by_cases hop : m.ops .connectError = true
  · have hcall : m.step = some { m.onStack (.owner :: .code (.mayhemAbort next) :: rest) with
        late := m.late || m.aborted } := by
      unfold Nested.step Code.rtmpDied at *
      rw [hs]
      exact if_pos hop
    exact .step hclosed (.code hcall) (.step hclosed (.ret rfl) (.mayhemAbort hclosed rfl hnext))
  · have hskip : m.step = some (m.onStack (.code (.mayhemAbort next) :: rest)) := by
      unfold Nested.step Code.rtmpDied at *
      rw [hs]
      exact if_neg hop
    exact .step hclosed (.code hskip) (.mayhemAbort hclosed rfl hnext)

end Spoils

theorem answer_nullUse (s : Sending) (next : Bool → Code) (o : Outcome) :
    (m.answer s next rest o).nullUse = (m.use s).nullUse := by
  cases o with
  | sent => rfl
  | blocked => rfl
  | died => rfl

theorem not_heeded {s : Sending} {next : Bool → Code} {o : Outcome}
    (hs : m.stack = .code (.send s next) :: rest) (hnot : ¬ m.Heeded (.answer o)) :
    Unchecked s ∧ m.aborted = true ∨ o = .died ∧ (Doomed m.ops s ∨
      m.ops .connectError = true ∧ m.aborted = true) := by
  by_contra hgood
  refine hnot fun s' next' rest' hs' => ?_
  rw [hs] at hs'
  cases hs'
  refine ⟨fun hu => Bool.eq_false_iff.mpr fun ha => hgood (.inl ⟨hu, ha⟩), fun ho => ⟨?_, ?_⟩⟩
  · exact fun hd => hgood (.inr ⟨ho, .inl hd⟩)
  · exact fun hc => Bool.eq_false_iff.mpr fun ha => hgood (.inr ⟨ho, .inr ⟨hc, ha⟩⟩)

/-- Behind a read report `checkup` is called whatever has come of it. -/
theorem Spoils.readReport {next : Bool → Code} {o : Outcome} (hclosed : m.closed = false)
    (hnext : ∀ ret, next ret = Code.checkup) (hgone : o = .died ∨ m.rtmp = false) :
    (m.answer .readReport next rest o).Spoils := by
  have hcheckup : ∀ ret, Frame.code (next ret) :: rest = .code Code.checkup :: rest := fun ret => by
    rw [hnext ret]
  cases o with
  | sent =>
    have hrtmp := hgone.resolve_left fun h => Outcome.noConfusion h
    exact .checkup hclosed hrtmp (hcheckup true)
  | blocked =>
    have hrtmp := hgone.resolve_left fun h => Outcome.noConfusion h
    exact .checkup hclosed hrtmp (hcheckup false)
  | died =>
    exact .rtmpDied hclosed rfl fun m' hc _ _ hr hs => .checkup hc hr (hs.trans (hcheckup false))

theorem Spoils.start {next : Bool → Code} (hclosed : m.closed = false)
    (hop : m.ops .streamPlay = true)
    (hnext : ∀ ret, ∃ next', next ret = .callback .streamPlay next') :
    (m.answer .start next rest .died).Spoils := by
  by_cases hr : m.rtmp = true
  · obtain ⟨stale, huse⟩ := use_of_handle (s := .start) hr
    unfold Nested.answer
    rw [huse]
    refine .rtmpDied hclosed rfl fun m' hc hops ha _ hs => ?_
    obtain ⟨next', hn⟩ := hnext false
    rw [hn] at hs
    have hcall : m'.step = some { m'.onStack (.owner :: .code next' :: rest) with
        late := m'.late || m'.aborted } := by
      unfold Nested.step
      rw [hs]
      exact if_pos (by rw [hops]; exact hop)
    exact .step hc (.code hcall) (.of_late (by dsimp only; rw [ha, Bool.or_true]))
  · refine .of_nullUse ?_
    rw [answer_nullUse]
    exact Spoils.of_useRtmp (Bool.eq_false_iff.mpr hr)

theorem Spoils.unchecked {s : Sending} {next : Bool → Code} {o : Outcome}
    (hclosed : m.closed = false) (hrtmp : m.rtmp = false) (hfollows : Follows next s)
    (hu : Unchecked s) : (m.answer s next rest o).Spoils := by
  cases s with
  | auth =>
    refine .of_nullUse ?_
    rw [answer_nullUse]
    exact Spoils.of_useRtmp hrtmp
  | readReport => exact .readReport hclosed hfollows (.inr hrtmp)
  | _ => exact hu.elim

theorem Spoils.doomed {s : Sending} {next : Bool → Code} (hclosed : m.closed = false)
    (hfollows : Follows next s) (hd : Doomed m.ops s) : (m.answer s next rest .died).Spoils := by
  cases s with
  | readReport => exact .readReport hclosed hfollows (.inl rfl)
  | start => exact .start hclosed hd hfollows
  | _ => exact hd.elim

/-- `rtmp_died` in a session that has been aborted. -/
theorem Spoils.died {s : Sending} {next : Bool → Code} (hclosed : m.closed = false)
    (hhandle : m.Handle s) (hop : m.ops .connectError = true) (ha : m.aborted = true) :
    (m.answer s next rest .died).Spoils := by
  obtain ⟨stale, huse⟩ := use_of_handle hhandle
  have hlate : (m.late || m.aborted) = true := by rw [ha, Bool.or_true]
  unfold Nested.answer
  rw [huse]
  exact .step hclosed (.code (if_pos hop)) (.of_late hlate)

/-- A step that does not meet the condition is followed by a defect: from behind it a state is
reached that is not silent. -/
theorem Quieted.unheeded (h : m.Quieted) (htakes : m.Takes i m') (hnot : ¬ m.Heeded i) :
    m'.Spoils := by
  obtain ⟨hclosed, -, hmoves⟩ := htakes
  cases hmoves with
  | answer hs =>
    have hbad := not_heeded hs hnot
    rcases h.fits with hfits | ⟨hrtmp, rest', hs', -⟩
    · rw [hs] at hfits
      obtain ⟨⟨hopen, hreach, -, -, -, hfollows⟩, -⟩ := hfits
      have hunchecked : m.aborted = true → Unchecked _ := fun ha =>
        hopen.resolve_left fun hf => absurd ha (Bool.eq_false_iff.mp hf)
      have hgone : Unchecked _ → m.aborted = true → m.rtmp = false := fun hu ha =>
        h.gone ha (hreach.unchecked hu)
      rcases hbad with ⟨hu, ha⟩ | ⟨rfl, hd | ⟨-, ha⟩⟩
      · exact .unchecked hclosed (hgone hu ha) hfollows hu
      · exact .doomed hclosed hfollows hd
      · exact .unchecked hclosed (hgone (hunchecked ha) ha) hfollows (hunchecked ha)
    · rw [hs] at hs'
      cases hs'
      rcases hbad with ⟨hu, -⟩ | ⟨rfl, hd | ⟨hop, ha⟩⟩
      · exact hu.elim
      · exact hd.elim
      · exact .died hclosed hrtmp hop ha
  | chat hturn hret =>
    refine .step hclosed (.answer (o := .sent) rfl) (.of_nullUse ?_)
    exact Spoils.of_useRtmp (Bool.eq_false_iff.mpr hnot)
  | code | due | notDue | ret | abort | returned | connected | message | reset | close =>
    exact absurd trivial hnot

/-- In every run whose steps meet the condition no callback is made after `mayhem_abort`, and
nothing is done with a handle that is NULL. -/
theorem silence {premium : Bool} {ops : Callback → Bool}
    (hrun : Relation.ReflTransGen (fun m m' => ∃ i, m.Heeded i ∧ m.Takes i m')
      (start premium ops) m) : m.Silent := (run_quieted hrun).toSilent

/-- The condition leaves out no more than it has to. -/
theorem unheeded_spoils {premium : Bool} {ops : Callback → Bool}
    (hrun : Relation.ReflTransGen (fun m m' => ∃ i, m.Heeded i ∧ m.Takes i m')
      (start premium ops) m) (htakes : m.Takes i m') (hnot : ¬ m.Heeded i) : m'.Spoils :=
  (run_quieted hrun).unheeded htakes hnot

/-- A session aborted by its owner in the callback for a chat message. -/
theorem silence_abort : ∃ m : Nested, m.aborted = true ∧ m.stack = [] ∧ m.Silent := by
  have hreturned := Relation.ReflTransGen.single
    (r := fun m m' => ∃ i, Heeded m i ∧ Takes m i m') (a := start true fun _ => true)
    ⟨.returned, trivial, rfl, rfl, .returned rfl rfl⟩
  have hconnected := hreturned.tail ⟨.connected, trivial, rfl, rfl, .connected rfl rfl rfl rfl⟩
  have hsent := hconnected.tail ⟨.answer .sent,
    fun _ _ _ _ => ⟨fun _ => rfl, fun h => Outcome.noConfusion h⟩, rfl, rfl, .answer rfl⟩
  have hused := hsent.tail ⟨.code, trivial, rfl, rfl, .code rfl⟩
  have hdone := hused.tail ⟨.code, trivial, rfl, rfl, .code rfl⟩
  have hmessage := hdone.tail ⟨.message (.notice .addChat), trivial, rfl, rfl, .message rfl rfl rfl⟩
  have hcalled := hmessage.tail ⟨.code, trivial, rfl, rfl, .code rfl⟩
  have habort := hcalled.tail ⟨.abort, trivial, rfl, rfl, .abort (.inr ⟨_, rfl⟩) rfl⟩
  have hret := habort.tail ⟨.ret, trivial, rfl, rfl, .ret rfl⟩
  have hend := hret.tail ⟨.report false, trivial, rfl, rfl, .notDue rfl⟩
  exact ⟨_, rfl, rfl, silence hend⟩

/-- NaiadStart loses the connection. -/
theorem play_late : ¬ ∀ premium ops m,
    Relation.ReflTransGen (fun m m' => ∃ i, Takes m i m') (start premium ops) m → m.Silent := by
  intro hall
  have hreturned := Relation.ReflTransGen.single
    (r := fun m m' => ∃ i, Takes m i m') (a := start false fun c => c = .streamPlay)
    ⟨.returned, rfl, rfl, .returned rfl rfl⟩
  have hconnected := hreturned.tail ⟨.connected, rfl, rfl, .connected rfl rfl rfl rfl⟩
  have hsent := hconnected.tail ⟨.answer .sent, rfl, rfl, .answer rfl⟩
  have hused := hsent.tail ⟨.code, rfl, rfl, .code rfl⟩
  have hdone := hused.tail ⟨.code, rfl, rfl, .code rfl⟩
  have hmessage := hdone.tail ⟨.message .playStart, rfl, rfl, .message rfl rfl rfl⟩
  have hinvoke := hmessage.tail ⟨.code, rfl, rfl, .code rfl⟩
  have hplaying := hinvoke.tail ⟨.code, rfl, rfl, .code rfl⟩
  have hdied := hplaying.tail ⟨.answer .died, rfl, rfl, .answer rfl⟩
  have hunset := hdied.tail ⟨.code, rfl, rfl, .code rfl⟩
  have habort := hunset.tail ⟨.code, rfl, rfl, .code rfl⟩
  have hplay := habort.tail ⟨.code, rfl, rfl, .code rfl⟩
  exact Bool.noConfusion (hall _ _ _ hplay).late

end Nested
end Mayhem.Naiad
