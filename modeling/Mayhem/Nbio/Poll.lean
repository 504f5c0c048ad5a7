import Mathlib.Data.Finset.Range
import Mayhem.Nbio.Lists

/-! `nbio-poll.c`, the event loop of a thread on `poll`. `poll_pump` compacts the array of
`struct pollfd` while it walks the inactive list, and leaves the slots that the `nbio` remember
as they are. -/
namespace Mayhem

def POLLIN : UInt16 := 0x001
def POLLOUT : UInt16 := 0x004
def POLLERR : UInt16 := 0x008
def POLLHUP : UInt16 := 0x010

structure Pollfd where
  fd : ℤ := 0
  events : UInt16 := 0
  revents : UInt16 := 0

structure PollPriv where
  maxPfd : ℕ := 8
  numPfd : ℕ := 0
  pfd : ℕ → Pollfd := fun _ => {}
  /-- Which calls of `realloc` fail. -/
  fails : ℕ → Bool := fun _ => false
  reallocs : ℕ := 0

namespace PollPriv

/-- Nothing but the call is noted if `realloc` fails. -/
def upsize (p : PollPriv) : PollPriv × Bool :=
  let p' := { p with reallocs := p.reallocs + 1 }
  if p.fails p.reallocs then (p', false) else ({ p' with maxPfd := p.maxPfd + 8 }, true)

/-- Room for one more slot. -/
def room (p : PollPriv) : PollPriv × Bool :=
  if p.maxPfd ≤ p.numPfd then p.upsize else (p, true)

end PollPriv

namespace Poll

/-- What `poll` is asked for. -/
def events (mask : UInt8) : UInt16 :=
  POLLERR ||| POLLHUP ||| (if mask &&& NBIO_READ ≠ 0 then POLLIN else 0) |||
    (if mask &&& NBIO_WRITE ≠ 0 then POLLOUT else 0)

def flags (revents : UInt16) : UInt8 :=
  (if revents &&& (POLLIN ||| POLLHUP) ≠ 0 then NBIO_READ else 0) |||
    (if revents &&& POLLOUT ≠ 0 then NBIO_WRITE else 0) |||
    (if revents &&& POLLERR ≠ 0 then NBIO_ERROR else 0)

def active (t : Iothread PollPriv) (n : ℕ) : Iothread PollPriv :=
  t.modify n fun io => { io with evPriv := -1 }

def inactive (t : Iothread PollPriv) (n : ℕ) : Iothread PollPriv :=
  let (p, ok) := t.priv.room
  let t := { t with priv := p }
  if ok then
    let slot := { p.pfd p.numPfd with fd := (t.nbio n).fd, events := events (t.nbio n).mask }
    let t := { t with priv :=
      { p with pfd := Function.update p.pfd p.numPfd slot, numPfd := p.numPfd + 1 } }
    t.modify n fun io => { io with evPriv := p.numPfd }
  else t

/-- Copy `fd` and `events` of slot `i` to the front of the slots that are left. -/
def keep (p : PollPriv) (i : ℕ) : PollPriv :=
  let slot := { p.pfd p.numPfd with fd := (p.pfd i).fd, events := (p.pfd i).events }
  { p with pfd := Function.update p.pfd p.numPfd slot, numPfd := p.numPfd + 1 }

def deliver (t : Iothread PollPriv) (ev : ℕ × UInt8) : Iothread PollPriv :=
  (t.modify ev.1 fun io => { io with flags := ev.2, evPriv := -1 }).moveTail ev.1 .active

/-- The body of the loop of `poll_pump`. -/
def visit (pos : Addr) (t : Iothread PollPriv) : Iothread PollPriv :=
  match pos with
  | .head _ => t
  | .nbio n =>
    if (t.nbio n).evPriv < 0 then t
    else
      let i := (t.nbio n).evPriv.toNat
      if (t.priv.pfd i).revents = 0 then { t with priv := keep t.priv i }
      else deliver t (n, flags (t.priv.pfd i).revents)

/-- `poll` has answered, and the slots are to be collected anew. -/
def polled (t : Iothread PollPriv) (revents : ℕ → UInt16) : Iothread PollPriv :=
  { t with priv := { t.priv with
    numPfd := 0
    pfd := fun i =>
      if i < t.priv.numPfd then { t.priv.pfd i with revents := revents i } else t.priv.pfd i } }

/-- `poll_pump`; `none` stands for an error of `poll`. -/
def Pump (t : Iothread PollPriv) (a : Option (ℕ → UInt16)) (t' : Iothread PollPriv) : Prop :=
  match a with
  | none => t' = t
  | some revents => ∃ fuel,
    let t := polled t revents
    let pos := t.links.next (.head .inactive)
    Links.forEachSafe (·.links) visit (.head .inactive) fuel pos (t.links.next pos) t = some t'

end Poll
end Mayhem
