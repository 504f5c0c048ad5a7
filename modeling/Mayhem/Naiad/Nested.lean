import Mathlib.Tactic.SplitIfs
import Mayhem.Naiad.Invoke

/-! A session whose owner acts in its callbacks. What `mayhem.c` and `netstatus.c` do is kept as
code that stops where the owner is called and where something is sent, and a stack of such code
with the owner in between: a send that loses the connection runs `rtmp_died`, whose callback may
abort the session or send in turn, before the code that sent goes on. The data of a message is
left out but for what comes of it. -/
namespace Mayhem.Naiad

/-- The members of `struct mayhem_ops`. -/
inductive Callback
  | naiadAuthorize
  | naiadFreeze
  | naiadPreGoldShow
  | naiadAddChat
  | naiadUserList
  | naiadPledgeGold
  | streamError
  | streamPlay
  | streamReset
  | streamStop
  | streamPacket
  | connectError
deriving DecidableEq, Repr

/-- What is sent: through `m->ns`, through `m->rtmp`, or by `rtmp.c` itself. -/
inductive Sending
  | connect
  | createStream
  | play
  | start
  | auth
  | chat
  | checkup
  | readReport
  | own
deriving DecidableEq, Repr

inductive Outcome
  | sent
  | blocked
  /-- The connection is reset on the way. -/
  | died
deriving DecidableEq, Repr

inductive Code
  | done
  | callback (c : Callback) (next : Code)
  | send (s : Sending) (next : Bool → Code)
  /-- `*m->ns` is read or written. -/
  | useNs (next : Code)
  | netstatusFree (next : Code)
  | rtmpClose (next : Code)
  | mayhemAbort (next : Code)
  /-- The end of `rtmp_dispatch`. -/
  | readReport

/-- The callbacks that are told of a message, and nothing more is done with it. -/
inductive Notice
  | freeze
  | userList
  | addChat
  | pledgeGold
  | preGoldShow
  | packet
deriving DecidableEq, Repr

def Notice.callback : Notice → Callback
  | .freeze => .naiadFreeze
  | .userList => .naiadUserList
  | .addChat => .naiadAddChat
  | .pledgeGold => .naiadPledgeGold
  | .preGoldShow => .naiadPreGoldShow
  | .packet => .streamPacket

/-- What comes of a message. -/
inductive Request
  | refused
  | notice (n : Notice)
  | authorized
  | set
  /-- A result that nothing is done about. -/
  | result
  | connSuccess
  | connErr
  | created
  | playStart
  | playStop
  | playReset
  | playError
  /-- `rtmp.c` answers itself, or resets the connection. -/
  | own
deriving DecidableEq, Repr

namespace Code

def authResult (next : Bool → Code) : Code := .send .auth next

def iAuth (premium : Bool) (next : Code) : Code :=
  .callback .naiadAuthorize <|
    if premium then authResult fun ret => if ret then next else .mayhemAbort next
    else next

def netstatusCreatestream (next : Bool → Code) : Code :=
  .send .createStream fun ret => if ret then .useNs (next true) else next false

def netstatusPlay (next : Bool → Code) : Code :=
  .send .play fun ret => if ret then .useNs (next true) else next false

def iSet (next : Code) : Code :=
  netstatusCreatestream fun ret => if ret then next else .mayhemAbort next

def streamConnected (premium : Bool) (next : Code) : Code :=
  if premium then next
  else netstatusCreatestream fun ret => if ret then next else .mayhemAbort next

def streamCreated (next : Code) : Code :=
  netstatusPlay fun ret => if ret then next else .mayhemAbort next

def connectErrorCb (next : Code) : Code := .callback .connectError (.mayhemAbort next)

def start (next : Code) : Code := .send .start fun _ => .callback .streamPlay next

def stop (next : Code) : Code := .callback .streamStop next

def reset (next : Code) : Code := .callback .streamReset next

def playErrorCb (next : Code) : Code := .callback .streamError (.mayhemAbort next)

def connSuccess (premium : Bool) (next : Code) : Code := .useNs (streamConnected premium next)

def connErr (next : Code) : Code := .useNs (connectErrorCb next)

def playError (next : Code) : Code := .useNs (playErrorCb next)

def playStart (next : Code) : Code := .useNs (start next)

def playStop (next : Code) : Code := .useNs (stop next)

def playReset (next : Code) : Code := .useNs (reset next)

def createResult (next : Code) : Code := .useNs (streamCreated next)

/-- A handler of `rtmp_dispatch`. Those of a result are called by `netstatus_invoke`, which
looks at `m->ns`. -/
def handler (premium : Bool) (next : Code) : Request → Code
  | .refused => next
  | .notice n => .callback n.callback next
  | .authorized => iAuth premium next
  | .set => iSet next
  | .result => .useNs next
  | .connSuccess => .useNs (connSuccess premium next)
  | .connErr => .useNs (connErr next)
  | .created => .useNs (createResult next)
  | .playStart => .useNs (playStart next)
  | .playStop => .useNs (playStop next)
  | .playReset => .useNs (playReset next)
  | .playError => .useNs (playError next)
  | .own => .send .own fun _ => next

def rtmpDispatch (premium : Bool) (req : Request) : Code := handler premium .readReport req

def checkup : Code := .send .checkup fun _ => .done

/-- The callback `read_report_sent` is `checkup`. -/
def sendReadReport : Code := .send .readReport fun _ => checkup

def rtmpDied (next : Code) : Code := .callback .connectError (.mayhemAbort next)

def invokeConnect (next : Bool → Code) : Code :=
  .send .connect fun ret => if ret then .useNs (next true) else next false

/-- `rtmp_connected` behind `netstatus_new`. -/
def rtmpConnected : Code :=
  invokeConnect fun ret => if ret then .done else .netstatusFree (.rtmpClose .done)

def mayhemSndChat : Code := .send .chat fun _ => .done

end Code

inductive Frame
  | owner
  | code (c : Code)

structure Nested where
  premium : Bool
  ops : Callback → Bool
  /-- Whether `m->rtmp` and `m->ns` are other than NULL. -/
  rtmp : Bool := false
  ns : Bool := false
  /-- `mayhem_connect` has returned. -/
  returned : Bool := false
  connected : Bool := false
  /-- The event loop still calls the connection. -/
  alive : Bool := true
  /-- `mayhem_close` has been called. -/
  closed : Bool := false
  aborted : Bool := false
  created : ℕ := 0
  nsFrees : ℕ := 0
  closes : ℕ := 0
  /-- A callback was made after `mayhem_abort` had run. -/
  late : Bool := false
  /-- Something was done with a NULL handle. The program ends there. -/
  nullUse : Bool := false
  /-- Something was done with a handle that had been given back. -/
  stale : Bool := false
  stack : List Frame := []

namespace Nested

def useRtmp (m : Nested) : Nested :=
  if m.rtmp then { m with stale := m.stale || decide (0 < m.closes) }
  else { m with nullUse := true }

def useNs (m : Nested) : Nested :=
  if m.ns then { m with stale := m.stale || decide (0 < m.nsFrees) }
  else { m with nullUse := true }

/-- `ns->rtmp` -/
def useNsRtmp (m : Nested) : Nested :=
  if m.ns then { m with stale := m.stale || decide (0 < m.nsFrees) || decide (0 < m.closes) }
  else { m with nullUse := true }

/-- The handle that something is sent through. -/
def use (m : Nested) : Sending → Nested
  | .connect => m.useNsRtmp
  | .createStream => m.useNsRtmp
  | .play => m.useNsRtmp
  | .start => m.useRtmp
  | .auth => m.useRtmp
  | .chat => m.useRtmp
  | .checkup => m.useRtmp
  | .readReport => m
  | .own => m

def netstatusFree (m : Nested) : Nested :=
  if m.ns then { m with nsFrees := m.nsFrees + 1 } else m

def rtmpClose (m : Nested) : Nested :=
  if m.rtmp then { m with closes := m.closes + 1, alive := false } else m

def mayhemAbort (m : Nested) : Nested :=
  { m.rtmpClose.netstatusFree with ns := false, rtmp := false, aborted := true }

def mayhemClose (m : Nested) : Nested :=
  { m.netstatusFree.rtmpClose with ns := false, rtmp := false, closed := true }

/-- The beginning of `rtmp_connected`. -/
def netstatusNew (m : Nested) : Nested := { m with ns := true, created := m.created + 1 }

def onStack (m : Nested) (stack : List Frame) : Nested := { m with stack := stack }

/-- The next step of the code, unless it waits for the owner, for the outcome of a send, or to
hear whether a read report is due. -/
def step (m : Nested) : Option Nested :=
  match m.stack with
  | .code .done :: rest => some (m.onStack rest)
  | .code (.callback c next) :: rest =>
    if m.ops c then
      some { m.onStack (.owner :: .code next :: rest) with late := m.late || m.aborted }
    else some (m.onStack (.code next :: rest))
  | .code (.useNs next) :: rest => some (m.useNs.onStack (.code next :: rest))
  | .code (.netstatusFree next) :: rest => some (m.netstatusFree.onStack (.code next :: rest))
  | .code (.rtmpClose next) :: rest => some (m.rtmpClose.onStack (.code next :: rest))
  | .code (.mayhemAbort next) :: rest => some (m.mayhemAbort.onStack (.code next :: rest))
  | _ => none

/-- What becomes of the code that sends. -/
def answer (m : Nested) (s : Sending) (next : Bool → Code) (rest : List Frame) (o : Outcome) :
    Nested :=
  let m := m.use s
  match o with
  | .sent => m.onStack (.code (next true) :: rest)
  | .blocked => m.onStack (.code (next false) :: rest)
  | .died => { m.onStack (.code (Code.rtmpDied (next false)) :: rest) with alive := false }

inductive Input
  | code
  | answer (o : Outcome)
  | report (due : Bool)
  /-- A callback returns. -/
  | ret
  | chat
  | abort
  /-- `mayhem_connect` returns. -/
  | returned
  | connected
  | message (req : Request)
  | reset
  | close
deriving DecidableEq, Repr

/-- The owner has control. -/
def Turn (m : Nested) : Prop := m.stack = [] ∨ ∃ rest, m.stack = .owner :: rest

inductive Moves (m : Nested) : Input → Nested → Prop
  | code {m'} : m.step = some m' → Moves m .code m'
  | answer {s next rest o} : m.stack = .code (.send s next) :: rest →
      Moves m (.answer o) (m.answer s next rest o)
  | due {rest} : m.stack = .code .readReport :: rest →
      Moves m (.report true) (m.onStack (.code Code.sendReadReport :: rest))
  | notDue {rest} : m.stack = .code .readReport :: rest → Moves m (.report false) (m.onStack rest)
  | ret {rest} : m.stack = .owner :: rest → Moves m .ret (m.onStack rest)
  | chat : m.Turn → m.returned = true →
      Moves m .chat (m.onStack (.code Code.mayhemSndChat :: m.stack))
  | abort : m.Turn → m.returned = true → Moves m .abort m.mayhemAbort
  | returned : m.stack = [] → m.returned = false →
      Moves m .returned { m with rtmp := true, returned := true }
  | connected : m.stack = [] → m.alive = true → m.returned = true → m.connected = false →
      Moves m .connected
        { m.netstatusNew.onStack [.code Code.rtmpConnected] with connected := true }
  | message {req} : m.stack = [] → m.alive = true → m.connected = true →
      Moves m (.message req) (m.onStack [.code (Code.rtmpDispatch m.premium req)])
  | reset : m.stack = [] → m.alive = true →
      Moves m .reset { m.onStack [.code (Code.rtmpDied .done)] with alive := false }
  | close : m.stack = [] → m.returned = true → Moves m .close m.mayhemClose

/-- Nothing happens to a session after it has been closed or the program has ended. -/
def Takes (m : Nested) (i : Input) (m' : Nested) : Prop :=
  m.closed = false ∧ m.nullUse = false ∧ m.Moves i m'

/-! ### What a step can do -/

variable {m m' : Nested} {s : Sending}

theorem step_cases (h : m.step = some m') :
    (∃ rest, m.stack = .code .done :: rest ∧ m' = m.onStack rest) ∨
    (∃ c next rest, m.stack = .code (.callback c next) :: rest ∧ m.ops c = true ∧
      m' = { m.onStack (.owner :: .code next :: rest) with late := m.late || m.aborted }) ∨
    (∃ c next rest, m.stack = .code (.callback c next) :: rest ∧ ¬ m.ops c = true ∧
      m' = m.onStack (.code next :: rest)) ∨
    (∃ next rest, m.stack = .code (.useNs next) :: rest ∧
      m' = m.useNs.onStack (.code next :: rest)) ∨
    (∃ next rest, m.stack = .code (.netstatusFree next) :: rest ∧
      m' = m.netstatusFree.onStack (.code next :: rest)) ∨
    (∃ next rest, m.stack = .code (.rtmpClose next) :: rest ∧
      m' = m.rtmpClose.onStack (.code next :: rest)) ∨
    ∃ next rest, m.stack = .code (.mayhemAbort next) :: rest ∧
      m' = m.mayhemAbort.onStack (.code next :: rest) := by
  unfold step at h
  split at h
  case h_1 rest hs => exact .inl ⟨rest, hs, (Option.some.inj h).symm⟩
  case h_2 c next rest hs =>
    split_ifs at h with hop
    · exact .inr (.inl ⟨c, next, rest, hs, hop, (Option.some.inj h).symm⟩)
    · exact .inr (.inr (.inl ⟨c, next, rest, hs, hop, (Option.some.inj h).symm⟩))
  case h_3 next rest hs =>
    exact .inr (.inr (.inr (.inl ⟨next, rest, hs, (Option.some.inj h).symm⟩)))
  case h_4 next rest hs =>
    exact .inr (.inr (.inr (.inr (.inl ⟨next, rest, hs, (Option.some.inj h).symm⟩))))
  case h_5 next rest hs =>
    exact .inr (.inr (.inr (.inr (.inr (.inl ⟨next, rest, hs, (Option.some.inj h).symm⟩)))))
  case h_6 next rest hs =>
    exact .inr (.inr (.inr (.inr (.inr (.inr ⟨next, rest, hs, (Option.some.inj h).symm⟩)))))
  case h_7 => cases h

theorem not_turn {c : Code} {rest : List Frame} (hs : m.stack = .code c :: rest) : ¬ m.Turn := by
  rintro (hturn | ⟨rest', hturn⟩)
  · rw [hs] at hturn
    cases hturn
  · rw [hs] at hturn
    cases hturn

/-- Code that can go on does go on. -/
theorem moves_of_step {m₁ : Nested} {i : Input} (hstep : m.step = some m₁) (h : m.Moves i m') :
    m' = m₁ := by
  have hwaits : ∀ f rest, m.stack = f :: rest → f = .owner ∨ (∃ s next, f = .code (.send s next)) ∨
      f = .code .readReport → m.step = none := by
    rintro f rest hs (rfl | ⟨s, next, rfl⟩ | rfl)
    · unfold step
      rw [hs]
    · unfold step
      rw [hs]
    · unfold step
      rw [hs]
  have hnil : m.stack = [] → m.step = none := fun hs => by
    unfold step
    rw [hs]
  have hturn : m.Turn → m.step = none := by
    rintro (hs | ⟨rest, hs⟩)
    · exact hnil hs
    · exact hwaits _ _ hs (.inl rfl)
  have hnone : m.step ≠ none := by
    rw [hstep]
    exact Option.some_ne_none _
  cases h with
  | code hstep' =>
    rw [hstep] at hstep'
    exact (Option.some.inj hstep').symm
  | answer hs => exact absurd (hwaits _ _ hs (.inr (.inl ⟨_, _, rfl⟩))) hnone
  | due hs => exact absurd (hwaits _ _ hs (.inr (.inr rfl))) hnone
  | notDue hs => exact absurd (hwaits _ _ hs (.inr (.inr rfl))) hnone
  | ret hs => exact absurd (hwaits _ _ hs (.inl rfl)) hnone
  | chat ht _ => exact absurd (hturn ht) hnone
  | abort ht _ => exact absurd (hturn ht) hnone
  | returned hs _ => exact absurd (hnil hs) hnone
  | connected hs _ _ _ => exact absurd (hnil hs) hnone
  | message hs _ _ => exact absurd (hnil hs) hnone
  | reset hs _ => exact absurd (hnil hs) hnone
  | close hs _ => exact absurd (hnil hs) hnone

/-- Code that has sent something waits for what comes of it. -/
theorem moves_of_send {next : Bool → Code} {rest : List Frame} {i : Input}
    (hs : m.stack = .code (.send s next) :: rest) (h : m.Moves i m') :
    ∃ o, i = .answer o ∧ m' = m.answer s next rest o := by
  have hnil : m.stack ≠ [] := by
    rw [hs]
    exact List.cons_ne_nil _ _
  cases h with
  | code hstep =>
    unfold step at hstep
    rw [hs] at hstep
    cases hstep
  | answer hs' =>
    rw [hs] at hs'
    cases hs'
    exact ⟨_, rfl, rfl⟩
  | due hs' =>
    rw [hs] at hs'
    cases hs'
  | notDue hs' =>
    rw [hs] at hs'
    cases hs'
  | ret hs' =>
    rw [hs] at hs'
    cases hs'
  | chat hturn _ => exact absurd hturn (not_turn hs)
  | abort hturn _ => exact absurd hturn (not_turn hs)
  | returned hs' _ => exact absurd hs' hnil
  | connected hs' _ _ _ => exact absurd hs' hnil
  | message hs' _ _ => exact absurd hs' hnil
  | reset hs' _ => exact absurd hs' hnil
  | close hs' _ => exact absurd hs' hnil

/-- Where the handle is that something is sent through. -/
def Handle (m : Nested) : Sending → Prop
  | .connect => m.ns = true
  | .createStream => m.ns = true
  | .play => m.ns = true
  | .start => m.rtmp = true
  | .auth => m.rtmp = true
  | .chat => m.rtmp = true
  | .checkup => m.rtmp = true
  | .readReport => True
  | .own => True

theorem useRtmp_of_rtmp (h : m.rtmp = true) :
    m.useRtmp = { m with stale := m.stale || decide (0 < m.closes) } := if_pos h

theorem useNs_of_ns (h : m.ns = true) :
    m.useNs = { m with stale := m.stale || decide (0 < m.nsFrees) } := if_pos h

theorem useNsRtmp_of_ns (h : m.ns = true) :
    m.useNsRtmp = { m with stale := m.stale || decide (0 < m.nsFrees) || decide (0 < m.closes) } :=
  if_pos h

/-- With a handle the program goes on. -/
theorem use_of_handle (h : m.Handle s) : ∃ stale, m.use s = { m with stale := stale } := by
  cases s with
  | connect => exact ⟨_, useNsRtmp_of_ns h⟩
  | createStream => exact ⟨_, useNsRtmp_of_ns h⟩
  | play => exact ⟨_, useNsRtmp_of_ns h⟩
  | start => exact ⟨_, useRtmp_of_rtmp h⟩
  | auth => exact ⟨_, useRtmp_of_rtmp h⟩
  | chat => exact ⟨_, useRtmp_of_rtmp h⟩
  | checkup => exact ⟨_, useRtmp_of_rtmp h⟩
  | readReport => exact ⟨_, rfl⟩
  | own => exact ⟨_, rfl⟩

theorem netstatusFree_frame (m : Nested) :
    ∃ nsFrees, m.netstatusFree = { m with nsFrees := nsFrees } := by
  unfold netstatusFree
  split_ifs
  · exact ⟨_, rfl⟩
  · exact ⟨_, rfl⟩

theorem rtmpClose_frame (m : Nested) : ∃ closes,
    m.rtmpClose = { m with closes := closes, alive := m.alive && !m.rtmp } := by
  by_cases hr : m.rtmp = true
  · have hdead : (m.alive && !m.rtmp) = false := by rw [hr, Bool.not_true, Bool.and_false]
    rw [hdead]
    exact ⟨m.closes + 1, if_pos hr⟩
  · have hkept : (m.alive && !m.rtmp) = m.alive := by
      rw [Bool.eq_false_iff.mpr hr, Bool.not_false, Bool.and_true]
    rw [hkept]
    exact ⟨m.closes, if_neg hr⟩

theorem mayhemAbort_frame (m : Nested) : ∃ closes nsFrees, m.mayhemAbort =
    { m with closes := closes, alive := m.alive && !m.rtmp, nsFrees := nsFrees, ns := false,
             rtmp := false, aborted := true } := by
  obtain ⟨closes, hc⟩ := m.rtmpClose_frame
  obtain ⟨nsFrees, hn⟩ := m.rtmpClose.netstatusFree_frame
  refine ⟨closes, nsFrees, ?_⟩
  unfold mayhemAbort
  rw [hn, hc]

theorem mayhemAbort_onStack (m : Nested) : m.mayhemAbort.onStack m.stack = m.mayhemAbort := by
  obtain ⟨closes, nsFrees, ha⟩ := m.mayhemAbort_frame
  rw [ha]
  rfl

theorem mayhemClose_frame (m : Nested) : ∃ closes nsFrees, m.mayhemClose =
    { m with closes := closes, alive := m.alive && !m.rtmp, nsFrees := nsFrees, ns := false,
             rtmp := false, closed := true } := by
  obtain ⟨nsFrees, hn⟩ := m.netstatusFree_frame
  obtain ⟨closes, hc⟩ := m.netstatusFree.rtmpClose_frame
  refine ⟨closes, nsFrees, ?_⟩
  unfold mayhemClose
  rw [hc, hn]

end Nested
end Mayhem.Naiad
