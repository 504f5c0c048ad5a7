import Mayhem.Rtmp.Handlers

/-! `rtmp.c`: the client. `struct _rtmp` is kept in three layers: the `Line`, which the
messages steer, the `Link`, with the receive buffer, and `Rtmp`, with the channel table.
Allocation succeeds and `size_t` is wide enough for every chunk size plus its slack.
The handlers of the owner are observers: their calls are recorded. -/
namespace Mayhem

namespace Line

/-- `transition` to STATE_ABORT or STATE_CONN_RESET. -/
def reset (r : Line) (state : ConnState) : Line := { r with conn := r.conn.reset state }

def call (r : Line) (c : Call) : Line := { r with conn := { r.conn with calls := r.conn.calls ++ [c] } }

def rtmpSend (r : Line) (chan : OutChan) (dest ts : UInt32) (type : UInt8) (pkt : List UInt8) :
    Line × Bool :=
  let res := r.conn.rtmpSend r.chunkSz chan dest ts type pkt
  ({ r with conn := res.1 }, res.2)

end Line

/-! ### The receive buffer -/

/-- `r_buf`, the length of `[r_buf, r_cur)` and `r_space`. `heap` is what the memory of
the coming reallocations holds. -/
structure RBuf where
  mem : Memory := fun _ => 0
  cur : ℕ := 0
  space : ℕ := 0
  heap : List Memory := []

namespace RBuf

def currentBufSz (b : RBuf) : ℕ := b.cur + b.space

/-- The bytes `[r_buf, r_cur)`. -/
def contents (b : RBuf) : List UInt8 := b.mem.bytes 0 b.cur

/-- `realloc(r_buf, sz)`, the offset of `r_cur` kept. -/
def realloc (b : RBuf) (sz : ℕ) : RBuf :=
  { mem := fun i => if i < min b.currentBufSz sz then b.mem i else b.heap.headD (fun _ => 0) i
    cur := b.cur
    space := sz - b.cur
    heap := b.heap.tail }

/-- `sock_recv` has stored `bs` at `r_cur`. -/
def received (b : RBuf) (bs : List UInt8) : RBuf :=
  { b with mem := b.mem.write b.cur bs, cur := b.cur + bs.length, space := b.space - bs.length }

/-- Move what is behind the `taken` bytes to the front. -/
def memmove (b : RBuf) (taken : ℕ) : RBuf :=
  { b with
    mem := fun i => if i < b.cur - taken then b.mem (taken + i) else b.mem i
    cur := b.cur - taken
    space := b.space + taken }

end RBuf

structure Link extends Line where
  rbuf : RBuf := {}

namespace Link

def rbufUpdateSize (r : Link) : Link :=
  { r with rbuf := r.rbuf.realloc (r.chunkSz + RTMP_HDR_MAX_SZ) }

def rbufRequestSize (r : Link) (sz : ℕ) : Link × Bool :=
  if sz = 0 then ({ r with toLine := r.reset .abort }, false)
  else
    let r := { r with chunkSz := sz }
    if sz ≤ r.rbuf.currentBufSz then (r, true) else (r.rbufUpdateSize, true)

def carrier : Carrier Link where
  line := toLine
  modify f r := { r with toLine := f r.toLine }
  rtmpSend r chan dest ts type pkt :=
    let res := r.toLine.rtmpSend chan dest ts type pkt
    ({ r with toLine := res.1 }, res.2)
  call r c := { r with toLine := r.toLine.call c }
  rbufRequestSize := rbufRequestSize

def rtmpDispatch (r : Link) (msg : Msg) : Link := carrier.rtmpDispatch r msg

/-! ### The handshake -/

/-- `sent` are the bytes of `buf` but for the constants stored into it. -/
def handshake1 (r : Link) (sent : List UInt8) : Link × Bool :=
  match r.rbufRequestSize (RTMP_HANDSHAKE_LEN * 2 + 1) with
  | (r, false) => (r, false)
  | (r, true) =>
    let (conn, ok) := rtmpSendRaw r.conn ((Memory.ofList (3 :: sent) fun _ => 0).write 5 [0, 0, 7, 2]
      |>.bytes 0 (RTMP_HANDSHAKE_LEN + 1))
    ({ r with conn := conn }, ok)

/-- `transition` to STATE_READY, which always succeeds. -/
def ready (r : Link) : Link :=
  let r := { r with toLine := r.call .connected }
  { r with conn := { r.conn with state := .ready } }

def handshake2 (r : Link) : Link × Bool :=
  -- the response to handshake 1 still sits in the buffer
  match rtmpSendRaw r.conn (r.rbuf.mem.bytes 1 RTMP_HANDSHAKE_LEN) with
  | (conn, false) => ({ r with conn := conn }, false)
  | (conn, true) =>
    match { r with conn := conn }.rbufRequestSize RTMP_DEFAULT_CHUNK_SZ with
    | (r, false) => (r, false)
    | (r, true) => (r.ready, true)

/-- `none` stands for -1. The outer `transition` stores STATE_HANDSHAKE_2 over the
STATE_READY of the inner one. -/
def handshake1Resp (r : Link) : Link × Option ℕ :=
  if r.rbuf.cur < RTMP_HANDSHAKE_LEN * 2 + 1 then (r, none)
  else
    match r.handshake2 with
    | (r, false) => (r, some 0)
    | (r, true) =>
      ({ r with conn := { r.conn with state := .handshake2 } }, some (RTMP_HANDSHAKE_LEN * 2 + 1))

end Link

/-! ### The receive loop -/

structure Rtmp extends Link where
  chan : ChanTable := fun _ => {}

/-- What the kernel answers to one `sock_recv`: at most `n + 1` of the bytes that have
arrived, or EAGAIN when there are none; EAGAIN; another error; the end of the stream. -/
inductive Recv
  | upTo (n : ℕ)
  | again
  | fails
  | eof
deriving DecidableEq, Repr

namespace Rtmp

def endpoint : Endpoint Rtmp where
  chunkSz r := r.chunkSz
  chan := chan
  setChan r t := { r with chan := t }
  dispatch r msg := { r with toLink := r.rtmpDispatch msg }
  chan_setChan _ _ := rfl
  setChan_setChan _ _ _ := rfl
  chunkSz_setChan _ _ := rfl
  dispatch_setChan _ _ _ := rfl

def decodeRtmp (r : Rtmp) (m : Memory) (sz : ℕ) : Rtmp × Option ℕ := endpoint.decodeRtmp r m sz

/-- The outer `none` is `abort()`. -/
def rtmpDrainBuf (r : Rtmp) : Option (Rtmp × Option ℕ) :=
  if r.rbuf.cur = 0 then some (r, none)
  else
    match r.conn.state with
    | .abort | .connReset | .init => none
    | .handshake1 =>
      let (l, ret) := r.handshake1Resp
      some ({ r with toLink := l }, ret)
    | .handshake2 | .ready => some (r.decodeRtmp r.rbuf.mem r.rbuf.cur)

/-- `queue` is what has arrived and was not received yet; `none` is a failed assertion. -/
def fillRcvBuf (r : Rtmp) (queue : List UInt8) (ans : Recv) : Option (Rtmp × List UInt8) :=
  if r.rbuf.space = 0 then none
  else
    match ans with
    | .upTo n =>
      if queue = [] then some (r, queue)
      else
        let len := min (n + 1) r.rbuf.space
        some ({ r with rbuf := r.rbuf.received (queue.take len) }, queue.drop len)
    | .again => some (r, queue)
    | .fails => some ({ r with toLine := r.reset .abort }, queue)
    | .eof => some ({ r with toLine := r.reset .connReset }, queue)

/-- The end of `rtmp_pump`: shuffle the buffer along, then match its size to the
requested chunk size. -/
def shuffle (r : Rtmp) (taken : ℕ) : Rtmp :=
  let r := { r with rbuf := r.rbuf.memmove taken }
  if r.chunkSz ≠ r.rbuf.currentBufSz - RTMP_HDR_MAX_SZ ∧ r.rbuf.cur ≤ r.chunkSz then
    { r with toLink := r.rbufUpdateSize }
  else r

/-- One round of the loop of `rtmp_pump`; `none` is a failed assertion or `abort()`. -/
def pass (s : Rtmp × List UInt8) (ans : Recv) : Option (Rtmp × List UInt8) :=
  match s.1.rtmpDrainBuf with
  | none => none
  | some (r, some taken) =>
    if taken = 0 then some (r, s.2)
    else if r.rbuf.cur < taken then none
    else some (r.shuffle taken, s.2)
  | some (r, none) => r.fillRcvBuf s.2 ans

/-- The event loop calls `rtmp_pump` until the connection is reset. -/
def live (r : Rtmp) : Bool := !r.conn.connReset

/-- Rounds of the loop, one for each answer of the kernel. -/
def pump (s : Rtmp × List UInt8) : List Recv → Option (Rtmp × List UInt8)
  | [] => some s
  | ans :: script => if s.1.live then (pass s ans).bind fun s => pump s script else some s

end Rtmp
end Mayhem
