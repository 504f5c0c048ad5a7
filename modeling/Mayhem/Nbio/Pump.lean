import Mathlib.Logic.Relation
import Mayhem.Nbio.Api

/-! `nbio_pump` and `nbio_fini` as a machine that stops wherever code of an owner runs. -/
namespace Mayhem

/-- Where a thread is. `pos` is the current entry of the loop it is in, `tmp` the saved
successor. -/
inductive Pc
  | idle
  | outer
  | test (pos tmp : Addr)
  | check (n : ℕ) (tmp : Addr)
  | write (n : ℕ) (tmp : Addr)
  | inWrite (n : ℕ) (tmp : Addr)
  | read (n : ℕ) (tmp : Addr)
  | inRead (n : ℕ) (tmp : Addr)
  | error (n : ℕ) (tmp : Addr)
  | reap (pos tmp : Addr)
  | poll
  | finiInactive (pos tmp : Addr)
  | finiDeleted (pos tmp : Addr)
  | finiActive (pos tmp : Addr)
  | done
deriving DecidableEq, Repr

def Pc.User : Pc → Prop
  | .idle => True
  | .inWrite _ _ => True
  | .inRead _ _ => True
  | _ => False

structure Loop (P : Type) where
  t : Iothread P
  pc : Pc := .idle
  /-- Added, and not destroyed since. -/
  registered : ℕ → Bool := fun _ => false

namespace Loop

variable {P A : Type} (e : Eventloop P A)

def goto (s : Loop P) (pc : Pc) : Loop P := { s with pc := pc }

def enter (s : Loop P) (q : Queue) (pc : Addr → Addr → Pc) : Loop P :=
  let pos := s.t.links.next (.head q)
  s.goto (pc pos (s.t.links.next pos))

/-- `list_del` and the destructor of the owner. -/
def destroy (s : Loop P) (n : ℕ) : Loop P :=
  { s with
    t := { s.t with links := s.t.links.del (.nbio n) }
    registered := Function.update s.registered n false }

def fail (t : Iothread P) (n : ℕ) : Iothread P :=
  if (t.nbio n).flags &&& NBIO_ERROR ≠ 0 then
    (t.modify n fun io => { io with mask := NBIO_DELETED, flags := 0 }).moveTail n .deleted
  else t

/-- The next step of the code. There is none where an owner or the kernel is to act, where
the assertion fails, or where a loop takes the head of another list for an entry. -/
def step (s : Loop P) : Option (Loop P) :=
  match s.pc with
  | .outer =>
    if s.t.links.next (.head .active) = .head .active then some (s.enter .deleted .reap)
    else some (s.enter .active .test)
  | .test (.head .active) _ => some (s.goto .outer)
  | .test (.nbio n) tmp =>
    if (s.t.nbio n).mask = NBIO_DELETED then some (s.goto .outer)
    else some (s.goto (.check n tmp))
  | .check n tmp =>
    if (s.t.nbio n).flags &&& (s.t.nbio n).mask = 0 then none
    else some (s.goto (.write n tmp))
  | .write n tmp =>
    if (s.t.nbio n).flags &&& (s.t.nbio n).mask &&& NBIO_WRITE ≠ 0 then
      some (s.goto (.inWrite n tmp))
    else some (s.goto (.read n tmp))
  | .read n tmp =>
    if (s.t.nbio n).flags &&& (s.t.nbio n).mask &&& NBIO_READ ≠ 0 then
      some (s.goto (.inRead n tmp))
    else some (s.goto (.error n tmp))
  | .error n tmp =>
    let t := fail s.t n
    some { s with t := t, pc := .test tmp (t.links.next tmp) }
  | .reap (.head .deleted) _ => some (s.goto .poll)
  | .reap (.nbio n) tmp =>
    let s := s.destroy n
    some (s.goto (.reap tmp (s.t.links.next tmp)))
  | .poll =>
    if s.t.links.next (.head .inactive) = .head .inactive then some (s.goto .idle) else none
  | .finiInactive (.head .inactive) _ => some (s.enter .deleted .finiDeleted)
  | .finiInactive (.nbio n) tmp =>
    let t := e.active (s.t.moveTail n .active) n
    some { s with t := t, pc := .finiInactive tmp (t.links.next tmp) }
  | .finiDeleted (.head .deleted) _ => some (s.enter .active .finiActive)
  | .finiDeleted (.nbio n) tmp =>
    let t := s.t.moveTail n .active
    some { s with t := t, pc := .finiDeleted tmp (t.links.next tmp) }
  | .finiActive (.head .active) _ => some (s.goto .done)
  | .finiActive (.nbio n) tmp =>
    let s := s.destroy n
    some (s.goto (.finiActive tmp (s.t.links.next tmp)))
  | _ => none

inductive Coded (s : Loop P) : Loop P → Prop
  | none : s.pc = .outer → s.t.links.next (.head .active) = .head .active →
      Coded s (s.enter .deleted .reap)
  | first : s.pc = .outer → s.t.links.next (.head .active) ≠ .head .active →
      Coded s (s.enter .active .test)
  | around {tmp} : s.pc = .test (.head .active) tmp → Coded s (s.goto .outer)
  | gone {n tmp} : s.pc = .test (.nbio n) tmp → (s.t.nbio n).mask = NBIO_DELETED →
      Coded s (s.goto .outer)
  | visit {n tmp} : s.pc = .test (.nbio n) tmp → (s.t.nbio n).mask ≠ NBIO_DELETED →
      Coded s (s.goto (.check n tmp))
  | asserted {n tmp} : s.pc = .check n tmp → (s.t.nbio n).flags &&& (s.t.nbio n).mask ≠ 0 →
      Coded s (s.goto (.write n tmp))
  | write {n tmp} : s.pc = .write n tmp →
      (s.t.nbio n).flags &&& (s.t.nbio n).mask &&& NBIO_WRITE ≠ 0 →
        Coded s (s.goto (.inWrite n tmp))
  | noWrite {n tmp} : s.pc = .write n tmp → Coded s (s.goto (.read n tmp))
  | read {n tmp} : s.pc = .read n tmp →
      (s.t.nbio n).flags &&& (s.t.nbio n).mask &&& NBIO_READ ≠ 0 →
        Coded s (s.goto (.inRead n tmp))
  | noRead {n tmp} : s.pc = .read n tmp → Coded s (s.goto (.error n tmp))
  | error {n tmp} : s.pc = .error n tmp →
      Coded s { s with t := fail s.t n, pc := .test tmp ((fail s.t n).links.next tmp) }
  | reaped {tmp} : s.pc = .reap (.head .deleted) tmp → Coded s (s.goto .poll)
  | reap {n tmp} : s.pc = .reap (.nbio n) tmp →
      Coded s ((s.destroy n).goto (.reap tmp ((s.destroy n).t.links.next tmp)))
  | noPoll : s.pc = .poll → Coded s (s.goto .idle)
  | allActive {tmp} : s.pc = .finiInactive (.head .inactive) tmp →
      Coded s (s.enter .deleted .finiDeleted)
  | activate {n tmp} : s.pc = .finiInactive (.nbio n) tmp → Coded s { s with
      t := e.active (s.t.moveTail n .active) n
      pc := .finiInactive tmp ((e.active (s.t.moveTail n .active) n).links.next tmp) }
  | noneDeleted {tmp} : s.pc = .finiDeleted (.head .deleted) tmp →
      Coded s (s.enter .active .finiActive)
  | undelete {n tmp} : s.pc = .finiDeleted (.nbio n) tmp → Coded s { s with
      t := s.t.moveTail n .active
      pc := .finiDeleted tmp ((s.t.moveTail n .active).links.next tmp) }
  | finished {tmp} : s.pc = .finiActive (.head .active) tmp → Coded s (s.goto .done)
  | finish {n tmp} : s.pc = .finiActive (.nbio n) tmp →
      Coded s ((s.destroy n).goto (.finiActive tmp ((s.destroy n).t.links.next tmp)))

theorem step_coded {s s' : Loop P} (hs : s.step e = some s') : s.Coded e s' := by
  unfold step at hs
  split at hs
  case h_1 hp =>
    split_ifs at hs with h
    · exact Option.some.inj hs ▸ .none hp h
    · exact Option.some.inj hs ▸ .first hp h
  case h_2 hp => exact Option.some.inj hs ▸ .around hp
  case h_3 hp =>
    split_ifs at hs with h
    · exact Option.some.inj hs ▸ .gone hp h
    · exact Option.some.inj hs ▸ .visit hp h
  case h_4 hp =>
    split_ifs at hs with h
    exact Option.some.inj hs ▸ .asserted hp h
  case h_5 hp =>
    split_ifs at hs with h
    · exact Option.some.inj hs ▸ .write hp h
    · exact Option.some.inj hs ▸ .noWrite hp
  case h_6 hp =>
    split_ifs at hs with h
    · exact Option.some.inj hs ▸ .read hp h
    · exact Option.some.inj hs ▸ .noRead hp
  case h_7 hp => exact Option.some.inj hs ▸ .error hp
  case h_8 hp => exact Option.some.inj hs ▸ .reaped hp
  case h_9 hp => exact Option.some.inj hs ▸ .reap hp
  case h_10 hp =>
    split_ifs at hs
    exact Option.some.inj hs ▸ .noPoll hp
  case h_11 hp => exact Option.some.inj hs ▸ .allActive hp
  case h_12 hp => exact Option.some.inj hs ▸ .activate hp
  case h_13 hp => exact Option.some.inj hs ▸ .noneDeleted hp
  case h_14 hp => exact Option.some.inj hs ▸ .undelete hp
  case h_15 hp => exact Option.some.inj hs ▸ .finished hp
  case h_16 hp => exact Option.some.inj hs ▸ .finish hp
  case h_17 => cases hs

inductive Event (A : Type)
  | code
  | call (c : Iothread.Call)
  /-- The owner of an `nbio` sets its `fd`. -/
  | assign (n : ℕ) (fd : ℤ)
  | ret
  | pump
  /-- The event loop plugin is called, and the kernel answers. -/
  | poll (a : A)
  | fini

def register (s : Loop P) : Iothread.Call → ℕ → Bool
  | .add n _ => Function.update s.registered n true
  | _ => s.registered

/-- `nbio_add` is for what is not registered, the other calls are for what is. -/
def Callable (s : Loop P) : Iothread.Call → Prop
  | .add _ _ => True
  | c => s.registered c.target = true

inductive Takes (s : Loop P) : Event A → Loop P → Prop
  | code {s'} : s.step e = some s' → Takes s .code s'
  | call {c t'} : s.pc.User → s.Callable c → s.t.call e c = some t' →
      Takes s (.call c) { s with t := t', registered := s.register c }
  | assign {n fd} : s.pc.User → Takes s (.assign n fd) { s with
      t := s.t.modify n fun io => { io with fd := fd } }
  | written {n tmp} : s.pc = .inWrite n tmp → Takes s .ret (s.goto (.read n tmp))
  | read {n tmp} : s.pc = .inRead n tmp → Takes s .ret (s.goto (.error n tmp))
  | pump : s.pc = .idle → Takes s .pump (s.goto .outer)
  | poll {a t'} : s.pc = .poll → s.t.links.next (.head .inactive) ≠ .head .inactive →
      e.pump s.t a t' → Takes s (.poll a) { s with t := t', pc := .idle }
  | fini : s.pc = .idle → Takes s .fini (s.enter .inactive .finiInactive)

end Loop
end Mayhem
