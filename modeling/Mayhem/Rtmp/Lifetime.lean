import Mayhem.Nbio.Plugin
import Mayhem.Rtmp.Send

/-! When `rtmp.c` frees a `struct _rtmp`: the flags `killed` and `conn_reset` together with the
lists of `nbio.c`, for a connection with the `nbio` `r` on a thread that it shares with others.
`transition` to STATE_ABORT or STATE_CONN_RESET falls into what it does in front of the callback
and behind it, so that the owner can act in between. What else the code does is left open but
for its calls on the `nbio`. What is freed stays readable here. -/
namespace Mayhem

def Pc.addrs : Pc → List Addr
  | .test pos tmp => [pos, tmp]
  | .check n tmp => [.nbio n, tmp]
  | .write n tmp => [.nbio n, tmp]
  | .inWrite n tmp => [.nbio n, tmp]
  | .read n tmp => [.nbio n, tmp]
  | .inRead n tmp => [.nbio n, tmp]
  | .error n tmp => [.nbio n, tmp]
  | .reap pos tmp => [pos, tmp]
  | .finiInactive pos tmp => [pos, tmp]
  | .finiDeleted pos tmp => [pos, tmp]
  | .finiActive pos tmp => [pos, tmp]
  | _ => []

def Pc.destroys : Pc → Option ℕ
  | .reap (.nbio n) _ => some n
  | .finiActive (.nbio n) _ => some n
  | _ => none

structure Lifetime (P : Type) where
  loop : Loop P
  state : ConnState := .init
  connReset : Bool := false
  killed : Bool := false
  /-- `conn_cb` has been called, and it has called `nbio_add`. -/
  connected : Bool := false
  added : Bool := false
  /-- The transitions that have yet to return from the owner's `conn_reset`. -/
  pending : ℕ := 0
  frees : ℕ := 0
  touched : Bool := false
  /-- `nbio_del` was called for what had not been added. -/
  strayDel : Bool := false

namespace Lifetime

variable {P A : Type} (b : Plugin P A) (r : ℕ)

def touch (w : Lifetime P) : Lifetime P :=
  { w with touched := w.touched || decide (0 < w.frees) }

def onThread (w : Lifetime P) (t : Iothread P) : Lifetime P :=
  { w with loop := { w.loop with t := t } }

def rtmpDtor (w : Lifetime P) : Lifetime P :=
  let w := w.touch
  let t := { w.loop.t with priv := b.closed w.loop.t.priv r }
  { w.onThread (t.modify r fun io => { io with fd := -1 }) with frees := w.frees + 1 }

def iopDtor (w : Lifetime P) : Lifetime P :=
  let w := { w.touch with connReset := true }
  if w.killed then w.rtmpDtor b r else w

def nbioDel (w : Lifetime P) : Lifetime P :=
  { w.touch.onThread (w.loop.t.nbioDel b.toEventloop r) with strayDel := w.strayDel || !w.added }

/-- There is none if the assertion of `nbio_add` fails. -/
def connCb (w : Lifetime P) (fd : ℤ) : Option (Lifetime P) :=
  let w := { w.touch with connected := true }
  if w.state = .abort then some (w.rtmpDtor b r)
  else do
    let t := w.loop.t.modify r fun io => { io with fd := fd }
    let t ← t.nbioAdd b.toEventloop r NBIO_WRITE
    some { w.onThread t with state := .handshake1, added := true }

def rtmpClose (w : Lifetime P) : Lifetime P :=
  let w := { w.touch with killed := true }
  if w.connReset then w.rtmpDtor b r else w.nbioDel b r

/-- `transition` to STATE_ABORT or STATE_CONN_RESET up to the callback. -/
def resetBegin (w : Lifetime P) (state : ConnState) : Lifetime P :=
  { w.touch with state := state, pending := w.pending + 1 }

def resetEnd (w : Lifetime P) : Lifetime P :=
  ({ w.touch with connReset := true, pending := w.pending - 1 } : Lifetime P).nbioDel b r

/-- A step of `nbio_pump` or `nbio_fini` has led to `s`. -/
def code (w : Lifetime P) (s : Loop P) : Lifetime P :=
  let w' := { if .nbio r ∈ w.loop.pc.addrs then w.touch else w with loop := s }
  if w.loop.pc.destroys = some r then w'.iopDtor b r else w'

def Running (w : Lifetime P) : Prop :=
  w.pending ≠ 0 ∨ ∃ tmp, w.loop.pc = .inWrite r tmp ∨ w.loop.pc = .inRead r tmp

inductive Event (A : Type)
  | loop (ev : Loop.Event A)
  | connCb (fd : ℤ)
  | inactive (mask : UInt8)
  | setWait (wait : UInt8)
  | resetBegin (state : ConnState)
  | resetEnd
  | close

/-- What may happen while a callback of the connection runs, and below what may not. -/
def Inner : Loop.Event A → Prop
  | .call c => c.target ≠ r
  | .assign n _ => n ≠ r
  | _ => False

def Outer : Loop.Event A → Prop
  | .ret => True
  | .pump => True
  | .poll _ => True
  | .fini => True
  | _ => False

/-- The owner closes once, and does not use the connection after that; `conn_cb` is called once
at most, with a descriptor. -/
inductive Takes (w : Lifetime P) : Event A → Lifetime P → Prop
  | code {s} : w.pending = 0 → w.loop.step b.toEventloop = some s →
      Takes w (.loop .code) (w.code b r s)
  | inner {ev s} : Inner r ev → Loop.Takes b.toEventloop w.loop ev s →
      Takes w (.loop ev) { w with loop := s }
  | outer {ev s} : w.pending = 0 → Outer ev → Loop.Takes b.toEventloop w.loop ev s →
      Takes w (.loop ev) { w with loop := s }
  | connCb {fd w'} : w.loop.pc.User → w.connected = false → 0 ≤ fd → w.connCb b r fd = some w' →
      Takes w (.connCb fd) w'
  | inactive {mask} : w.loop.pc.User → w.killed = false ∨ w.Running r →
      Takes w (.inactive mask) (w.touch.onThread (w.loop.t.nbioInactive b.toEventloop r mask))
  | setWait {wait t} : w.loop.pc.User → w.killed = false ∨ w.Running r →
      w.loop.t.nbioSetWait b.toEventloop r wait = some t →
        Takes w (.setWait wait) (w.touch.onThread t)
  | resetBegin {state} : state = .abort ∨ state = .connReset → w.loop.pc.User →
      w.killed = false ∨ w.Running r → Takes w (.resetBegin state) (w.resetBegin state)
  | resetEnd : w.pending ≠ 0 → w.loop.pc.User → Takes w .resetEnd (w.resetEnd b r)
  | close : w.loop.pc.User ∨ w.loop.pc = .done → w.killed = false →
      Takes w .close (w.rtmpClose b r)

/-- The connection is closed, reset or blocked only once it has been added, and not blocked
again once it has been closed; it is closed after a reset only when that has come to its end
and the deleted list has been dealt with. -/
def Proper (w : Lifetime P) : Event A → Prop
  | .loop (.call (.add n _)) => ∀ q, ¬ w.loop.t.On q n
  | .inactive _ => w.added = true ∧ w.killed = false
  | .setWait _ => w.added = true ∧ w.killed = false
  | .resetBegin _ => w.added = true
  | .close => w.added = true ∧
      (w.connReset = true → w.pending = 0 ∧ ∀ q, ¬ w.loop.t.On q r)
  | _ => True

/-- Where what has been closed waits for its destructor. -/
def DueAt : Pc → Queue → Prop
  | .finiDeleted _ _, q => q = .deleted ∨ q = .active
  | .finiActive _ _, q => q = .active
  | .poll, _ => False
  | .done, _ => False
  | _, q => q = .deleted

/-- It is freed once it has been closed, and once only, when no list and no code leads to it,
and not used after that; `nbio_del` is for what was added. Until it is freed it is on the
deleted list, and no pass over that list leaves it. -/
structure Managed (w : Lifetime P) : Prop where
  untouched : w.touched = false
  strayDel : w.strayDel = false
  once : w.frees ≤ 1
  freed : w.frees ≠ 0 → w.killed = true ∧ (∀ q, ¬ w.loop.t.On q r) ∧ w.pending = 0 ∧
    .nbio r ∉ w.loop.pc.addrs
  due : w.killed = true → w.frees = 0 → ∃ q, DueAt w.loop.pc q ∧ w.loop.t.On q r
  reaped : w.killed = true → w.loop.pc = .poll ∨ w.loop.pc = .done → w.frees = 1

end Lifetime
end Mayhem
