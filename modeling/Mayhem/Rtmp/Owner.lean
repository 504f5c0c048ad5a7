import Mayhem.Rtmp.Intake
import Mayhem.Rtmp.Interleave

/-! `rtmp.c` with an owner that acts. A callback may send and close in turn, so that
`transition` is entered again from inside of itself. Kept along with the record: the mask of
its nbio, every value stored into `r->state`, the allocation of the receive buffer, and what a
run shows of the handshake. What `rtmp_close` frees stays readable here. -/
namespace Mayhem

/-- What the owner does when it has control. -/
inductive Plan
  | done
  | send (x : OutMsg) (next : Bool → Plan)
  | close (next : Plan)

/-- The handlers of an owner. They see all calls so far, with their own at the end. -/
structure Owner where
  acts : List Call → Plan

/-- An owner that leaves the connection alone. -/
def Owner.silent : Owner := ⟨fun _ => .done⟩

/-- `io.mask` -/
inductive Mask
  | unset
  | read
  | write
  | deleted
deriving DecidableEq, Repr

/-- `struct _rtmp` but for the channels. -/
structure Owned extends Line where
  intake : Intake := {}
  mask : Mask := .unset
  killed : Bool := false
  /-- The values stored into `r->state`. -/
  stores : List ConnState := []
  /-- C0 and C1 as last generated. -/
  hello : List UInt8 := []
  /-- What had been sent when the owner was told of the connection. -/
  greeted : Option (List UInt8) := none
  /-- The bytes consumed before the first call of `decode_rtmp`, and the one it starts with. -/
  decoded : Option (ℕ × UInt8) := none

namespace Owned

variable (o : Owner)

def call (r : Owned) (c : Call) : Owned := { r with toLine := r.toLine.call c }

def setState (r : Owned) (state : ConnState) : Owned :=
  { r with conn := { r.conn with state := state }, stores := r.stores ++ [state] }

def rtmpClose (r : Owned) : Owned := { r with killed := true, mask := .deleted }

/-- `transition` to STATE_ABORT or STATE_CONN_RESET, up to what the owner does in `conn_reset`. -/
def enter (r : Owned) (state : ConnState) : Owned := (r.setState state).call (.connReset state)

def leave (r : Owned) : Owned :=
  { r with conn := { r.conn with connReset := true }, mask := .deleted }

/-! ### Sends

A send that fails resets the connection, and in `conn_reset` the owner may send again. `reset` is
what a send makes of its own failure. -/

section

variable (reset : Owned → ConnState → Owned)

def rtmpSendRawBy (r : Owned) (buf : List UInt8) : Owned × Bool :=
  let (e, ks, out) := sendRaw r.conn.sock.script buf
  let r := { r with conn := { r.conn with sock := ⟨ks, r.conn.sock.sent ++ out⟩ } }
  match e with
  | .sent => (r, true)
  | .blocked => (r, false)
  | .failed => (reset r .abort, false)
  | .closed => (reset r .connReset, false)

def sendAllBy (r : Owned) : List (List UInt8) → Owned × Bool
  | [] => (r, true)
  | buf :: bufs =>
    match r.rtmpSendRawBy reset buf with
    | (r, true) => sendAllBy r bufs
    | (r, false) => (r, false)

def rtmpSendBy (r : Owned) (x : OutMsg) : Owned × Bool :=
  sendAllBy reset { r with conn := { r.conn with stack := r.conn.stack.tail } }
    (x.sends (r.conn.stack.headD fun _ => 0) r.chunkSz)

def performBy (r : Owned) : Plan → Owned
  | .done => r
  | .send x next =>
    let res := r.rtmpSendBy reset x
    performBy res.1 (next res.2)
  | .close next => performBy r.rtmpClose next

/-- `transition` to STATE_ABORT or STATE_CONN_RESET. -/
def resetBy (r : Owned) (state : ConnState) : Owned :=
  let r := r.enter state
  (r.performBy reset (o.acts r.conn.calls)).leave

end

/-- The owner acts in at most `n` transitions, one inside of the other. -/
def resetIn : ℕ → Owned → ConnState → Owned
  | 0, r, state => (r.enter state).leave
  | n + 1, r, state => r.resetBy o (resetIn n) state

/-- Each transition inside of another takes an answer of the kernel. -/
def reset (r : Owned) (state : ConnState) : Owned :=
  resetIn o (r.conn.sock.script.length + 1) r state

def rtmpSendRaw (r : Owned) (buf : List UInt8) : Owned × Bool := r.rtmpSendRawBy (reset o) buf

def sendAll (r : Owned) (bufs : List (List UInt8)) : Owned × Bool := r.sendAllBy (reset o) bufs

def rtmpSend (r : Owned) (x : OutMsg) : Owned × Bool := r.rtmpSendBy (reset o) x

def perform (r : Owned) (plan : Plan) : Owned := r.performBy (reset o) plan

/-- A call of one of the owner's handlers other than `conn_reset`. -/
def callback (r : Owned) (c : Call) : Owned :=
  let r := r.call c
  r.perform o (o.acts r.conn.calls)

def rbufRequestSize (r : Owned) (sz : ℕ) : Owned × Bool :=
  if sz = 0 then (r.reset o .abort, false)
  else ({ r with chunkSz := sz, intake := r.intake.requestSize sz }, true)

def carrier : Carrier Owned where
  line := toLine
  modify f r := { r with toLine := f r.toLine }
  rtmpSend r chan dest ts type pkt := r.rtmpSend o ⟨chan, dest, ts, type, pkt⟩
  call := callback o
  rbufRequestSize := rbufRequestSize o

def handler (type : UInt8) : Option (Owned → Msg → Owned) := (carrier o).handler type

def rtmpDispatch (r : Owned) (msg : Msg) : Owned := (carrier o).rtmpDispatch r msg

/-! ### The handshake -/

/-- `rand` are the bytes of `buf` but for the constants stored into it. -/
def handshake1 (r : Owned) (rand : List UInt8) : Owned × Bool :=
  match r.rbufRequestSize o (RTMP_HANDSHAKE_LEN * 2 + 1) with
  | (r, false) => (r, false)
  | (r, true) =>
    let buf := ((Memory.ofList (3 :: rand) fun _ => 0).write 5 [0, 0, 7, 2]).bytes 0
      (RTMP_HANDSHAKE_LEN + 1)
    match { r with hello := buf }.rtmpSendRaw o buf with
    | (r, false) => (r, false)
    | (r, true) => ({ r with mask := .read }, true)

def ready (r : Owned) : Owned × Bool :=
  ({ r with greeted := some r.conn.sock.sent }.callback o .connected, true)

/-- The end of `transition`: a handler that succeeds has its state stored. -/
def entered (state : ConnState) (res : Owned × Bool) : Owned × Bool :=
  if res.2 then (res.1.setState state, true) else res

def handshake2 (r : Owned) : Owned × Bool :=
  -- the response to handshake 1 still sits in the buffer
  match r.rtmpSendRaw o (r.intake.rbuf.mem.bytes 1 RTMP_HANDSHAKE_LEN) with
  | (r, false) => (r, false)
  | (r, true) =>
    match r.rbufRequestSize o RTMP_DEFAULT_CHUNK_SZ with
    | (r, false) => (r, false)
    | (r, true) => entered .ready (r.ready o)

/-- `none` is the `abort()` of an unknown state. -/
def transition (rand : List UInt8) (r : Owned) (state : ConnState) : Option (Owned × Bool) :=
  match state with
  | .abort => some (r.reset o .abort, false)
  | .connReset => some (r.reset o .connReset, false)
  | .handshake1 => some (entered .handshake1 (r.handshake1 o rand))
  | .handshake2 => some (entered .handshake2 (r.handshake2 o))
  | .ready => some (entered .ready (r.ready o))
  | .init => none

/-- `none` stands for -1. -/
def handshake1Resp (r : Owned) : Owned × Option ℕ :=
  if r.intake.rbuf.cur < RTMP_HANDSHAKE_LEN * 2 + 1 then (r, none)
  else
    match entered .handshake2 (r.handshake2 o) with
    | (r, false) => (r, some 0)
    | (r, true) => (r, some (RTMP_HANDSHAKE_LEN * 2 + 1))

end Owned

structure Client extends Owned where
  chan : ChanTable := fun _ => {}

namespace Client

variable (o : Owner)

def endpoint : Endpoint Client where
  chunkSz r := r.chunkSz
  chan := chan
  setChan r t := { r with chan := t }
  dispatch r msg := { r with toOwned := r.rtmpDispatch o msg }
  chan_setChan _ _ := rfl
  setChan_setChan _ _ _ := rfl
  chunkSz_setChan _ _ := rfl
  dispatch_setChan _ _ _ := rfl

/-- `decode_rtmp` on the receive buffer. The first call is noted. -/
def decodeRtmp (r : Client) : Client × Option ℕ :=
  let first := (r.intake.consumed.length, r.intake.rbuf.mem 0)
  let r := { r with decoded := some (r.decoded.getD first) }
  (endpoint o).decodeRtmp r r.intake.rbuf.mem r.intake.rbuf.cur

/-- The outer `none` is `abort()`. -/
def rtmpDrainBuf (r : Client) : Option (Client × Option ℕ) :=
  if r.intake.rbuf.cur = 0 then some (r, none)
  else
    match r.conn.state with
    | .abort | .connReset | .init => none
    | .handshake1 =>
      let (l, ret) := r.handshake1Resp o
      some ({ r with toOwned := l }, ret)
    | .handshake2 | .ready => some (r.decodeRtmp o)

/-- `queue` is what has arrived and was not received yet; `none` is a failed assertion. -/
def fillRcvBuf (r : Client) (queue : List UInt8) (ans : Recv) : Option (Client × List UInt8) :=
  if r.intake.rbuf.space = 0 then none
  else
    match ans with
    | .upTo n =>
      if queue = [] then some (r, queue)
      else
        let len := min (n + 1) r.intake.rbuf.space
        some ({ r with intake := r.intake.fill (queue.take len) }, queue.drop len)
    | .again => some (r, queue)
    | .fails => some ({ r with toOwned := r.reset o .abort }, queue)
    | .eof => some ({ r with toOwned := r.reset o .connReset }, queue)

/-- One round of the loop of `rtmp_pump`; `none` is a failed assertion or `abort()`. -/
def pass (s : Client × List UInt8) (ans : Recv) : Option (Client × List UInt8) :=
  match s.1.rtmpDrainBuf o with
  | none => none
  | some (r, some taken) =>
    if taken = 0 then some (r, s.2)
    else if r.intake.rbuf.cur < taken then none
    else some ({ r with intake := r.intake.shuffle r.chunkSz taken }, s.2)
  | some (r, none) => r.fillRcvBuf o s.2 ans

def iopWrite (r : Client) (rand : List UInt8) : Option Client :=
  (r.transition o rand r.conn.state).map fun res => { r with toOwned := res.1 }

/-- `conn_cb`; a connection that was aborted before is freed. -/
def connCb (r : Client) (rand : List UInt8) : Client :=
  if r.conn.state = .abort then { r with mask := .deleted }
  else
    let r := { r with toOwned := { r.setState .handshake1 with mask := .write } }
    { r with toOwned := (Owned.entered .handshake1 (r.handshake1 o rand)).1 }

/-- What can happen to a connection: bytes arrive for it, the event loop calls it, or its
owner acts. -/
inductive Event
  | arrive (bs : List UInt8)
  | connect (rand : List UInt8)
  | write (rand : List UInt8)
  | read (ans : Recv)
  | act (plan : Plan)

/-- The event loop goes by the mask; an owner that has closed the connection is gone. -/
def Enabled (r : Client) : Event → Prop
  | .arrive _ => True
  | .connect _ => r.mask = .unset
  | .write _ => r.mask = .write
  | .read _ => r.mask = .read
  | .act _ => r.mask ≠ .unset ∧ r.killed = false

instance (r : Client) (e : Event) : Decidable (r.Enabled e) :=
  match e with
  | .arrive _ => inferInstanceAs (Decidable True)
  | .connect _ => inferInstanceAs (Decidable (_ = _))
  | .write _ => inferInstanceAs (Decidable (_ = _))
  | .read _ => inferInstanceAs (Decidable (_ = _))
  | .act _ => inferInstanceAs (Decidable (_ ∧ _))

/-- The kernel answers the sends of the coming step with `ks`. -/
def answer (r : Client) (ks : List SendRes) : Client :=
  { r with conn := { r.conn with sock := { r.conn.sock with script := ks } } }

def handle (s : Client × List UInt8) : Event → Option (Client × List UInt8)
  | .arrive bs => some (s.1, s.2 ++ bs)
  | .connect rand => some (s.1.connCb o rand, s.2)
  | .write rand => (s.1.iopWrite o rand).map (·, s.2)
  | .read ans => pass o s ans
  | .act plan => some ({ s.1 with toOwned := s.1.perform o plan }, s.2)

/-- One event, with the answers of the kernel to the sends it brings about. -/
def Step (s s' : Client × List UInt8) : Prop :=
  ∃ (e : Event) (ks : List SendRes), s.1.Enabled e ∧ handle o (s.1.answer ks, s.2) e = some s'

def happen (s : Client × List UInt8) (a : Event × List SendRes) : Option (Client × List UInt8) :=
  handle o (s.1.answer a.2, s.2) a.1

end Client
end Mayhem
