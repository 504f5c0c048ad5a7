import Mayhem.Lib.Ring

/-! `nbio.c`: the lists of an I/O thread, and the calls that move an `nbio` from one to
another. What the event loop plugin does is a parameter. -/
namespace Mayhem

def NBIO_READ : UInt8 := 1
def NBIO_WRITE : UInt8 := 2
def NBIO_ERROR : UInt8 := 4
def NBIO_WAIT : UInt8 := NBIO_READ ||| NBIO_WRITE ||| NBIO_ERROR
def NBIO_DELETED : UInt8 := 0x80

/-- The lists of a thread and the wait queues of its owners. -/
inductive Queue
  | active
  | inactive
  | deleted
  | waitq (k : ℕ)
deriving DecidableEq, Repr

/-- Where a `struct list_head` lies: the head of a list, or the member of an `nbio`. -/
inductive Addr
  | head (q : Queue)
  | nbio (n : ℕ)
deriving DecidableEq, Repr

structure Nbio where
  fd : ℤ := 0
  mask : UInt8 := 0
  flags : UInt8 := 0
  /-- `ev_priv.poll` -/
  evPriv : ℤ := 0

structure Iothread (P : Type) where
  links : Links Addr
  nbio : ℕ → Nbio
  priv : P

/-- `struct eventloop`. `pump t a` is what a call may leave behind if the kernel answers `a`. -/
structure Eventloop (P A : Type) where
  inactive : Iothread P → ℕ → Iothread P
  active : Iothread P → ℕ → Iothread P
  pump : Iothread P → A → Iothread P → Prop

namespace Iothread

variable {P A : Type} (e : Eventloop P A)

/-- A thread as `nbio_init` leaves it, with wait queues that are empty as well. -/
def nbioInit (links : Links Addr) (nbio : ℕ → Nbio) (priv : P) : Iothread P where
  links :=
    { next a := match a with
        | .head q => .head q
        | .nbio n => links.next (.nbio n)
      prev a := match a with
        | .head q => .head q
        | .nbio n => links.prev (.nbio n) }
  nbio := nbio
  priv := priv

def modify (t : Iothread P) (n : ℕ) (f : Nbio → Nbio) : Iothread P :=
  { t with nbio := Function.update t.nbio n (f (t.nbio n)) }

def moveTail (t : Iothread P) (n : ℕ) (q : Queue) : Iothread P :=
  { t with links := t.links.moveTail (.nbio n) (.head q) }

def nbioDel (t : Iothread P) (n : ℕ) : Iothread P :=
  let t := e.active t n
  let t := t.modify n fun io => { io with mask := NBIO_DELETED, flags := 0 }
  t.moveTail n .deleted

def nbioInactive (t : Iothread P) (n : ℕ) (mask : UInt8) : Iothread P :=
  let t := t.modify n fun io => { io with flags := io.flags &&& ~~~mask }
  if (t.nbio n).mask &&& (t.nbio n).flags = 0 then
    e.inactive (t.moveTail n .inactive) n
  else t

/-- Nothing, if the assertion fails. -/
def doSetWait (t : Iothread P) (n : ℕ) (wait : UInt8) (q : Option Queue) :
    Option (Iothread P) :=
  if (t.nbio n).mask = NBIO_DELETED then none
  else
    let wait := wait &&& NBIO_WAIT
    let t := t.modify n fun io => { io with mask := wait, flags := wait }
    let t := e.active t n
    if wait = 0 then some (t.moveTail n (q.getD .inactive))
    else some (t.moveTail n .active)

def nbioSetWait (t : Iothread P) (n : ℕ) (wait : UInt8) : Option (Iothread P) :=
  t.doSetWait e n wait none

def nbioToWaitq (t : Iothread P) (n k : ℕ) : Option (Iothread P) :=
  t.doSetWait e n 0 (some (.waitq k))

def nbioWake (t : Iothread P) (n : ℕ) (wait : UInt8) : Option (Iothread P) :=
  t.doSetWait e n wait none

/-- From a wait queue to the inactive list. -/
def nbioWaitOn (t : Iothread P) (n : ℕ) (wait : UInt8) : Option (Iothread P) :=
  if (t.nbio n).mask = NBIO_DELETED then none
  else
    let wait := wait &&& NBIO_WAIT
    let t := t.modify n fun io => { io with mask := wait, flags := wait }
    some (e.inactive (t.moveTail n .inactive) n)

def nbioAdd (t : Iothread P) (n : ℕ) (wait : UInt8) : Option (Iothread P) :=
  let t := { t with links := t.links.init (.nbio n) }
  let t := t.modify n fun io => { io with mask := 0, flags := 0 }
  t.doSetWait e n wait none

/-- The calls of an owner. -/
inductive Call
  | add (n : ℕ) (wait : UInt8)
  | inactive (n : ℕ) (mask : UInt8)
  | setWait (n : ℕ) (wait : UInt8)
  | toWaitq (n k : ℕ)
  | wake (n : ℕ) (wait : UInt8)
  | del (n : ℕ)

def Call.target : Call → ℕ
  | .add n _ => n
  | .inactive n _ => n
  | .setWait n _ => n
  | .toWaitq n _ => n
  | .wake n _ => n
  | .del n => n

def call (t : Iothread P) : Call → Option (Iothread P)
  | .add n wait => t.nbioAdd e n wait
  | .inactive n mask => some (t.nbioInactive e n mask)
  | .setWait n wait => t.nbioSetWait e n wait
  | .toWaitq n k => t.nbioToWaitq e n k
  | .wake n wait => t.nbioWake e n wait
  | .del n => some (t.nbioDel e n)

@[simp] theorem modify_links (t : Iothread P) (n : ℕ) (f : Nbio → Nbio) :
    (t.modify n f).links = t.links := rfl

@[simp] theorem modify_priv (t : Iothread P) (n : ℕ) (f : Nbio → Nbio) :
    (t.modify n f).priv = t.priv := rfl

@[simp] theorem modify_self (t : Iothread P) (n : ℕ) (f : Nbio → Nbio) :
    (t.modify n f).nbio n = f (t.nbio n) := Function.update_self ..

theorem modify_of_ne (t : Iothread P) {n m : ℕ} (f : Nbio → Nbio) (h : m ≠ n) :
    (t.modify n f).nbio m = t.nbio m := Function.update_of_ne h ..

@[simp] theorem moveTail_links (t : Iothread P) (n : ℕ) (q : Queue) :
    (t.moveTail n q).links = t.links.moveTail (.nbio n) (.head q) := rfl

@[simp] theorem moveTail_nbio (t : Iothread P) (n : ℕ) (q : Queue) :
    (t.moveTail n q).nbio = t.nbio := rfl

@[simp] theorem moveTail_priv (t : Iothread P) (n : ℕ) (q : Queue) :
    (t.moveTail n q).priv = t.priv := rfl

end Iothread
end Mayhem
