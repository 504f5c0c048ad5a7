import Mayhem.Rtmp.Owner
import Mayhem.Rtmp.Server

/-! `rtmpd.c`: a connection of the server, with its handshake, its receive buffer and an owner
that may send and close in every callback but `conn_reset`. -/
namespace Mayhem

/-- Calls of the handlers in `struct rtmpd_ops`. -/
inductive ServerCall
  | connReset (state : ConnState)
  | connected
  | pkt (msg : Msg)
deriving DecidableEq, Repr

structure ServerOwner where
  acts : List ServerCall → Plan
  closes : List ServerCall → Bool

def ServerOwner.silent : ServerOwner := ⟨fun _ => .done, fun _ => false⟩

/-- `struct _rtmpd` but for the channels. -/
structure Served where
  chunkSz : ℕ := 0
  state : ConnState := .init
  connReset : Bool := false
  killed : Bool := false
  mask : Mask := .unset
  sock : Sock := {}
  stack : List Memory := []
  intake : Intake := {}
  calls : List ServerCall := []
  /-- S0, S1 and the copy of C1 as last generated. -/
  hello : List UInt8 := []
  /-- What had been sent when the owner was told of the connection. -/
  greeted : Option (List UInt8) := none
  /-- The bytes consumed before the first call of `decode_rtmp`, and the one it starts with. -/
  decoded : Option (ℕ × UInt8) := none

namespace Served

variable (o : ServerOwner)

def call (r : Served) (c : ServerCall) : Served := { r with calls := r.calls ++ [c] }

def rtmpdClose (r : Served) : Served := { r with killed := true, mask := .deleted }

/-- `transition` to STATE_ABORT or STATE_CONN_RESET. -/
def reset (r : Served) (state : ConnState) : Served :=
  let r := r.call (.connReset state)
  let r := if o.closes r.calls then r.rtmpdClose else r
  { r with connReset := true, state := state, mask := .deleted }

def rtmpSendRaw (r : Served) (buf : List UInt8) : Served × Bool :=
  let (e, ks, out) := sendRaw r.sock.script buf
  let r := { r with sock := ⟨ks, r.sock.sent ++ out⟩ }
  match e with
  | .sent => (r, true)
  | .blocked => (r, false)
  | .failed => (r.reset o .abort, false)
  | .closed => (r.reset o .connReset, false)

def sendAll (r : Served) : List (List UInt8) → Served × Bool
  | [] => (r, true)
  | buf :: bufs =>
    match r.rtmpSendRaw o buf with
    | (r, true) => sendAll r bufs
    | (r, false) => (r, false)

def rtmpdSend (r : Served) (x : OutMsg) : Served × Bool :=
  sendAll o { r with stack := r.stack.tail }
    (rtmpdSendChunks (r.stack.headD fun _ => 0) r.chunkSz x.chan x.dest x.ts x.type x.payload)

def perform (r : Served) : Plan → Served
  | .done => r
  | .send x next =>
    let res := r.rtmpdSend o x
    perform res.1 (next res.2)
  | .close next => perform r.rtmpdClose next

/-- A call of one of the owner's handlers other than `conn_reset`. -/
def callback (r : Served) (c : ServerCall) : Served :=
  let r := r.call c
  r.perform o (o.acts r.calls)

def rtmpDispatch (r : Served) (msg : Msg) : Served := r.callback o (.pkt msg)

def rbufRequestSize (r : Served) (sz : ℕ) : Served × Bool :=
  if sz = 0 then (r.reset o .abort, false)
  else ({ r with chunkSz := sz, intake := r.intake.requestSize sz }, true)

/-! ### The handshake -/

def init (r : Served) : Served × Bool := r.rbufRequestSize o (RTMP_HANDSHAKE_LEN + 1)

/-- `rand` are the bytes of `buf` but for the version in front and the request behind. -/
def handshake1 (r : Served) (rand : List UInt8) : Served × Bool :=
  let buf := ((Memory.ofList (3 :: rand) fun _ => 0).write (1 + RTMP_HANDSHAKE_LEN)
    (r.intake.rbuf.mem.bytes 1 RTMP_HANDSHAKE_LEN)).bytes 0 (RTMP_HANDSHAKE_LEN * 2 + 1)
  match { r with hello := buf }.rtmpSendRaw o buf with
  | (r, false) => (r, false)
  | (r, true) => ({ r with mask := .read }, true)

/-- The end of `transition`: a handler that succeeds has its state stored. -/
def entered (state : ConnState) (res : Served × Bool) : Served × Bool :=
  if res.2 then ({ res.1 with state := state }, true) else res

/-- `none` is the `abort()` of an unknown state, of which there is none. -/
def transition (rand : List UInt8) (r : Served) : ConnState → Served × Bool
  | .abort => (r.reset o .abort, false)
  | .connReset => (r.reset o .connReset, false)
  | .init => (r.reset o .init, false)
  | .handshake1 => entered .handshake1 (r.init o)
  | .handshake2 => entered .handshake2 (r.handshake1 o rand)
  | .ready => entered .ready (r, true)

/-- `none` stands for -1. -/
def handshake1Req (r : Served) (rand : List UInt8) : Served × Option ℕ :=
  if r.intake.rbuf.cur < RTMP_HANDSHAKE_LEN + 1 then (r, none)
  else
    match r.transition o rand .handshake2 with
    | (r, false) => (r, some 0)
    | (r, true) => (r, some (RTMP_HANDSHAKE_LEN + 1))

def handshake2Req (r : Served) : Served × Option ℕ :=
  if r.intake.rbuf.cur < RTMP_HANDSHAKE_LEN then (r, none)
  else
    match r.rbufRequestSize o RTMP_DEFAULT_CHUNK_SZ with
    | (r, false) => (r, some 0)
    | (r, true) =>
      match r.transition o [] .ready with
      | (r, false) => (r, some 0)
      | (r, true) =>
        ({ r with greeted := some r.sock.sent }.callback o .connected, some RTMP_HANDSHAKE_LEN)

end Served

structure Server extends Served where
  chan : ChanTable := fun _ => {}

namespace Server

variable (o : ServerOwner)

def endpoint : Endpoint Server where
  chunkSz r := r.chunkSz
  chan := chan
  setChan r t := { r with chan := t }
  dispatch r msg := { r with toServed := r.rtmpDispatch o msg }
  chan_setChan _ _ := rfl
  setChan_setChan _ _ _ := rfl
  chunkSz_setChan _ _ := rfl
  dispatch_setChan _ _ _ := rfl

/-- `decode_rtmp` on the receive buffer. The first call is noted. -/
def decodeRtmp (r : Server) : Server × Option ℕ :=
  let first := (r.intake.consumed.length, r.intake.rbuf.mem 0)
  let r := { r with decoded := some (r.decoded.getD first) }
  (endpoint o).decodeRtmp r r.intake.rbuf.mem r.intake.rbuf.cur

/-- The outer `none` is `abort()`. -/
def rtmpDrainBuf (r : Server) (rand : List UInt8) : Option (Server × Option ℕ) :=
  if r.intake.rbuf.cur = 0 then some (r, none)
  else
    match r.state with
    | .abort | .connReset | .init => none
    | .handshake1 =>
      let (l, ret) := r.handshake1Req o rand
      some ({ r with toServed := l }, ret)
    | .handshake2 =>
      let (l, ret) := r.handshake2Req o
      some ({ r with toServed := l }, ret)
    | .ready => some (r.decodeRtmp o)

/-- `queue` is what has arrived and was not received yet; `none` is a failed assertion. -/
def fillRcvBuf (r : Server) (queue : List UInt8) (ans : Recv) : Option (Server × List UInt8) :=
  if r.intake.rbuf.space = 0 then none
  else
    match ans with
    | .upTo n =>
      if queue = [] then some (r, queue)
      else
        let len := min (n + 1) r.intake.rbuf.space
        some ({ r with intake := r.intake.fill (queue.take len) }, queue.drop len)
    | .again => some (r, queue)
    | .fails => some ({ r with toServed := r.reset o .abort }, queue)
    | .eof => some ({ r with toServed := r.reset o .connReset }, queue)

/-- One round of the loop of `rtmp_pump`; `none` is a failed assertion or `abort()`. -/
def pass (s : Server × List UInt8) (rand : List UInt8) (ans : Recv) :
    Option (Server × List UInt8) :=
  match s.1.rtmpDrainBuf o rand with
  | none => none
  | some (r, some taken) =>
    if taken = 0 then some (r, s.2)
    else if r.intake.rbuf.cur < taken then none
    else some ({ r with intake := r.intake.shuffle r.chunkSz taken }, s.2)
  | some (r, none) => r.fillRcvBuf o s.2 ans

def listenCb (r : Server) : Server :=
  { r with toServed := (Served.transition o [] { r.toServed with mask := .read } .handshake1).1 }

/-- The kernel answers the sends of the coming step with `ks`. -/
def answer (r : Server) (ks : List SendRes) : Server :=
  { r with sock := { r.sock with script := ks } }

end Server
end Mayhem
