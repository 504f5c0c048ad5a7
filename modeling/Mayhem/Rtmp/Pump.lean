import Mayhem.Lib.Run
import Mayhem.Rtmp.Client

/-! What a message does to the connection and what one round of the receive loop does,
said once: the results about runs of the client use these and unfold nothing else. -/
namespace Mayhem

/-! ### Sends -/

/-- A connection that is still live has kept its state. -/
def Conn.Keeps (c c' : Conn) : Prop :=
  c'.connReset = false → c.connReset = false ∧ c'.state = c.state

theorem Conn.Keeps.refl (c : Conn) : c.Keeps c := fun h => ⟨h, rfl⟩

theorem Conn.Keeps.trans {a b c : Conn} (hab : a.Keeps b) (hbc : b.Keeps c) : a.Keeps c := by
  intro h
  obtain ⟨hb, hs⟩ := hbc h
  exact ⟨(hab hb).1, hs.trans (hab hb).2⟩

theorem Conn.Keeps.of_reset (c : Conn) {c' : Conn} (h : c'.connReset = true) : c.Keeps c' :=
  fun h' => by simp [h] at h'

theorem rtmpSendRaw_keeps (c : Conn) (buf : List UInt8) : c.Keeps (rtmpSendRaw c buf).1 := by
  unfold rtmpSendRaw
  obtain ⟨e, ks, out⟩ := sendRaw c.sock.script buf
  cases e with
  | sent => exact fun h => ⟨h, rfl⟩
  | blocked => exact fun h => ⟨h, rfl⟩
  | failed => exact .of_reset c rfl
  | closed => exact .of_reset c rfl

theorem sendAll_keeps (c : Conn) (bufs : List (List UInt8)) : c.Keeps (sendAll c bufs).1 := by
  induction bufs generalizing c with
  | nil => exact .refl c
  | cons buf bufs ih =>
    have hraw := rtmpSendRaw_keeps c buf
    unfold sendAll
    cases h : rtmpSendRaw c buf with
    | mk c' ok =>
      rw [h] at hraw
      cases ok with
      | true => exact hraw.trans (ih c')
      | false => exact hraw

/-! ### Messages -/

structure Line.Keeps (r r' : Line) : Prop where
  chunkSz : r'.chunkSz = r.chunkSz
  trace : r'.trace = r.trace
  conn : r.conn.Keeps r'.conn

theorem Line.Keeps.refl (r : Line) : r.Keeps r := ⟨rfl, rfl, .refl _⟩

theorem Line.Keeps.trans {a b c : Line} (hab : a.Keeps b) (hbc : b.Keeps c) : a.Keeps c :=
  ⟨hbc.chunkSz.trans hab.chunkSz, hbc.trace.trans hab.trace, hab.conn.trans hbc.conn⟩

theorem Line.Counts.keeps {l l' : Line} (h : l.Counts l') : l.Keeps l' := by
  refine ⟨h.chunkSz, h.trace, ?_⟩
  rw [h.conn]
  exact .refl _

/-- The handlers other than that of the chunk size. -/
structure Link.Keeps (r r' : Link) : Prop where
  line : r.toLine.Keeps r'.toLine
  rbuf : r'.rbuf = r.rbuf

theorem Link.keepsRule : carrier.Rule Link.Keeps where
  refl _ := ⟨.refl _, rfl⟩
  trans h h' := ⟨h.line.trans h'.line, h'.rbuf.trans h.rbuf⟩
  modify hf := ⟨(hf _).keeps, rfl⟩
  rtmpSend r _ _ _ _ _ :=
    ⟨⟨rfl, rfl, sendAll_keeps { r.conn with stack := r.conn.stack.tail } _⟩, rfl⟩
  call _ _ := ⟨⟨rfl, rfl, fun h => ⟨h, rfl⟩⟩, rfl⟩

/-- The chunk size a message announces. -/
def Msg.announces (msg : Msg) : Option ℕ :=
  if msg.type = RTMP_MSG_CHUNK_SZ ∧ 4 ≤ msg.payload.length then
    some (decodeInt32 (Line.payloadMem msg) 0).toNat
  else none

/-- The chunk size in force behind a message: size 0 is refused. -/
def Msg.chunkSzAfter (msg : Msg) (chunkSz : ℕ) : ℕ :=
  match msg.announces with
  | none => chunkSz
  | some v => if v = 0 then chunkSz else v

theorem Msg.chunkSzAfter_pos (msg : Msg) {chunkSz : ℕ} (h : 1 ≤ chunkSz) :
    1 ≤ msg.chunkSzAfter chunkSz := by
  unfold Msg.chunkSzAfter
  split
  · exact h
  · split_ifs <;> omega

/-- `rbuf_request_size` grows the buffer at once and leaves shrinking it for later. -/
def RBuf.requested (b : RBuf) (sz : ℕ) : RBuf :=
  if sz ≠ 0 ∧ b.currentBufSz < sz then b.realloc (sz + RTMP_HDR_MAX_SZ) else b

def RBuf.after (b : RBuf) (msg : Msg) : RBuf :=
  match msg.announces with
  | none => b
  | some v => b.requested v

/-- What a message does to the chunk size, the buffer and the liveness of a connection. -/
structure Dispatched (r r' : Link) (msg : Msg) : Prop where
  chunkSz : r'.chunkSz = msg.chunkSzAfter r.chunkSz
  rbuf : r'.rbuf = r.rbuf.after msg
  trace : r'.trace = r.trace ++ [msg]
  conn : r.conn.Keeps r'.conn

theorem Dispatched.keeps {r r' r'' : Link} {msg : Msg} (h : Dispatched r r' msg)
    (h' : r'.Keeps r'') : Dispatched r r'' msg :=
  ⟨h'.line.chunkSz.trans h.chunkSz, h'.rbuf.trans h.rbuf, h'.line.trace.trans h.trace,
    h.conn.trans h'.line.conn⟩

namespace Link

theorem rbufRequestSize_spec (r : Link) (sz : ℕ) :
    (r.rbufRequestSize sz).1.chunkSz = (if sz = 0 then r.chunkSz else sz) ∧
      (r.rbufRequestSize sz).1.rbuf = r.rbuf.requested sz ∧
      (r.rbufRequestSize sz).1.trace = r.trace ∧
      r.conn.Keeps (r.rbufRequestSize sz).1.conn := by
  unfold rbufRequestSize RBuf.requested
  by_cases h0 : sz = 0
  · simp only [h0, if_true, ne_eq, not_true, false_and, if_false, true_and]
    exact ⟨rfl, rfl, .of_reset _ rfl⟩
  · by_cases hle : sz ≤ r.rbuf.currentBufSz
    · simp [h0, hle, Conn.Keeps.refl]
    · simp [h0, hle, Nat.not_le.mp hle, rbufUpdateSize, Conn.Keeps.refl]

theorem rtmpDispatch_spec (r : Link) (msg : Msg) : Dispatched r (r.rtmpDispatch msg) msg := by
  have hnote : msg.announces = none → Dispatched r (carrier.note r msg) msg := fun hann =>
    ⟨by rw [Msg.chunkSzAfter, hann]; rfl, by rw [RBuf.after, hann]; rfl, rfl, .refl _⟩
  unfold rtmpDispatch Carrier.rtmpDispatch
  dsimp only
  by_cases ht : msg.type = RTMP_MSG_CHUNK_SZ
  · rw [ht, Carrier.handler_chunkSz]
    apply Dispatched.keeps _ (keepsRule.readReport _)
    unfold Carrier.rChunksz
    by_cases hlen : msg.payload.length < 4
    · rw [if_pos hlen]
      exact hnote (if_neg fun h => absurd h.2 (by omega))
    · have hann : msg.announces = some (decodeInt32 (Line.payloadMem msg) 0).toNat :=
        if_pos ⟨ht, by omega⟩
      rw [if_neg hlen]
      obtain ⟨hsz, hbuf, htr, hconn⟩ :=
        (carrier.note r msg).rbufRequestSize_spec (decodeInt32 (Line.payloadMem msg) 0).toNat
      exact ⟨by rw [Msg.chunkSzAfter, hann]; exact hsz, by rw [RBuf.after, hann]; exact hbuf, htr,
        hconn⟩
  · have hann := hnote (if_neg fun h => ht h.1)
    cases hf : carrier.handler msg.type with
    | none => exact hann
    | some f =>
      exact (hann.keeps (keepsRule.handler hf ht _ msg)).keeps (keepsRule.readReport _)

end Link

/-- A connection without its buffer. -/
def Line.carrier : Carrier Line where
  line := id
  modify f r := f r
  rtmpSend := rtmpSend
  call := call
  rbufRequestSize r sz :=
    if sz = 0 then (r.reset .abort, false) else ({ r with chunkSz := sz }, true)

namespace Link

theorem showsLine : carrier.Shows Line.carrier (fun _ => True) toLine where
  line _ := rfl
  modify _ _ _ := ⟨trivial, rfl⟩
  rtmpSend _ _ _ _ _ _ _ := ⟨trivial, rfl⟩
  call _ _ _ := ⟨trivial, rfl⟩
  rbufRequestSize r sz _ := by
    refine ⟨trivial, ?_⟩
    show _ = ite _ _ _
    unfold carrier rbufRequestSize
    dsimp only
    split_ifs <;> rfl

/-- What a message does to the line does not depend on the buffer. -/
theorem rtmpDispatch_toLine {r r' : Link} (h : r.toLine = r'.toLine) (msg : Msg) :
    (r.rtmpDispatch msg).toLine = (r'.rtmpDispatch msg).toLine := by
  have hline : ∀ r : Link, (r.rtmpDispatch msg).toLine = Line.carrier.rtmpDispatch r.toLine msg :=
    fun _ => showsLine.rtmpDispatch trivial msg
  rw [hline, hline, h]

end Link

/-! ### Rounds of the receive loop -/

@[simp] theorem RBuf.realloc_cur (b : RBuf) (sz : ℕ) : (b.realloc sz).cur = b.cur := rfl

theorem RBuf.realloc_currentBufSz {b : RBuf} {sz : ℕ} (h : b.cur ≤ sz) :
    (b.realloc sz).currentBufSz = sz := Nat.add_sub_cancel' h

@[simp] theorem RBuf.after_cur (b : RBuf) (msg : Msg) : (b.after msg).cur = b.cur := by
  unfold RBuf.after RBuf.requested
  split
  · rfl
  · split_ifs <;> rfl

theorem RBuf.memmove_currentBufSz {b : RBuf} {taken : ℕ} (h : taken ≤ b.cur) :
    (b.memmove taken).currentBufSz = b.currentBufSz := by
  simp only [RBuf.memmove, RBuf.currentBufSz]
  omega

theorem RBuf.realloc_contents {b : RBuf} {sz : ℕ} (h : b.cur ≤ sz) :
    (b.realloc sz).contents = b.contents := by
  refine Memory.bytes_congr fun i _ hi => if_pos ?_
  simp only [RBuf.currentBufSz, RBuf.realloc_cur] at hi ⊢
  omega

theorem RBuf.after_contents (b : RBuf) (msg : Msg) : (b.after msg).contents = b.contents := by
  unfold RBuf.after RBuf.requested
  split
  · rfl
  · split_ifs with hgrow
    · have hcur : b.cur ≤ b.currentBufSz := Nat.le_add_right _ _
      exact RBuf.realloc_contents (by omega)
    · rfl

theorem RBuf.memmove_contents (b : RBuf) (taken : ℕ) :
    (b.memmove taken).contents = b.contents.drop taken := by
  have hmove : (b.memmove taken).contents =
      Memory.bytes (fun i => b.mem (taken + i)) 0 (b.cur - taken) :=
    Memory.bytes_congr fun i _ hi => if_pos (by simpa [RBuf.memmove] using hi)
  rw [hmove, Memory.bytes_shift, RBuf.contents, Memory.bytes_drop, Nat.add_zero, Nat.zero_add]

theorem RBuf.received_contents (b : RBuf) (bs : List UInt8) :
    (b.received bs).contents = b.contents ++ bs := by
  simpa [RBuf.contents, RBuf.received] using Memory.bytes_write_append b.mem 0 b.cur bs

theorem RBuf.received_currentBufSz {b : RBuf} {bs : List UInt8} (h : bs.length ≤ b.space) :
    (b.received bs).currentBufSz = b.currentBufSz := by
  simp only [RBuf.received, RBuf.currentBufSz]
  omega

namespace Rtmp

/-- The end of the chunk at the front of the buffer, read with whatever follows `r_cur`. -/
def frontEnd (r : Rtmp) : ℕ := chunkEnd r.chunkSz r.rbuf.mem r.chan

/-- The message that the chunk at the front of the buffer completes. -/
def frontMsg (r : Rtmp) : Option Msg := completed r.chunkSz r.rbuf.mem r.chan

theorem accept_toLink (r : Rtmp) (m : Memory) :
    (endpoint.accept r m).toLink =
      match completed r.chunkSz m r.chan with
      | none => r.toLink
      | some msg => r.toLink.rtmpDispatch msg := by
  unfold Endpoint.accept completed
  dsimp only [endpoint]
  split_ifs <;> rfl

/-- A chunk that is taken completes no message, or one that is dispatched. -/
theorem accept_cases (r : Rtmp) (m : Memory) :
    completed r.chunkSz m r.chan = none ∧ (endpoint.accept r m).toLink = r.toLink ∨
      ∃ msg, completed r.chunkSz m r.chan = some msg ∧
        Dispatched r.toLink (endpoint.accept r m).toLink msg := by
  rw [accept_toLink]
  cases completed r.chunkSz m r.chan with
  | none => exact .inl ⟨rfl, rfl⟩
  | some msg => exact .inr ⟨msg, rfl, r.toLink.rtmpDispatch_spec msg⟩

theorem accept_keeps (r : Rtmp) (m : Memory) : r.conn.Keeps (endpoint.accept r m).conn := by
  obtain ⟨-, h⟩ | ⟨msg, -, h⟩ := accept_cases r m
  · rw [show (endpoint.accept r m).conn = r.conn from congrArg (fun l : Link => l.conn) h]
    exact .refl _
  · exact h.conn

theorem accept_cur (r : Rtmp) (m : Memory) : (endpoint.accept r m).rbuf.cur = r.rbuf.cur := by
  obtain ⟨-, h⟩ | ⟨msg, -, h⟩ := accept_cases r m
  · exact congrArg (fun l : Link => l.rbuf.cur) h
  · rw [h.rbuf, RBuf.after_cur]

theorem accept_contents (r : Rtmp) (m : Memory) :
    (endpoint.accept r m).rbuf.contents = r.rbuf.contents := by
  obtain ⟨-, h⟩ | ⟨msg, -, h⟩ := accept_cases r m
  · exact congrArg (fun l : Link => l.rbuf.contents) h
  · rw [h.rbuf, RBuf.after_contents]

/-- The table behind a call that found the chunk incomplete. -/
def waiting (r : Rtmp) : Rtmp :=
  if r.rbuf.cur = 0 then r
  else
    { r with
      chan := Function.update r.chan (basicHdr r.rbuf.mem).chan
        (headIn r.rbuf.mem r.chan).1.begin.giveBack }

@[simp] theorem waiting_toLink (r : Rtmp) : r.waiting.toLink = r.toLink := by
  unfold waiting
  split_ifs <;> rfl

variable {r : Rtmp} {queue : List UInt8}

theorem drain_wait (hst : r.conn.state = .handshake2) (h : r.rbuf.cur < r.frontEnd) :
    r.rtmpDrainBuf = some (r.waiting, none) := by
  unfold rtmpDrainBuf waiting
  by_cases h0 : r.rbuf.cur = 0
  · rw [if_pos h0, if_pos h0]
  · rw [if_neg h0, if_neg h0, hst]
    simp only [decodeRtmp, Endpoint.decodeRtmp_eq _ (Nat.one_le_iff_ne_zero.mpr h0)]
    rw [if_pos (by exact h)]
    rfl

theorem drain_take (hst : r.conn.state = .handshake2) (h : r.frontEnd ≤ r.rbuf.cur) :
    r.rtmpDrainBuf = some (endpoint.accept r r.rbuf.mem, some r.frontEnd) := by
  have hpos := chunkEnd_pos r.chunkSz r.rbuf.mem r.chan
  have h1 : 1 ≤ r.rbuf.cur := hpos.trans h
  unfold rtmpDrainBuf
  rw [if_neg (by omega), hst]
  simp only [decodeRtmp, Endpoint.decodeRtmp_eq _ h1]
  rw [if_neg (by exact Nat.not_lt.mpr h)]
  rfl

theorem pass_wait (hst : r.conn.state = .handshake2) (h : r.rbuf.cur < r.frontEnd) (ans : Recv) :
    pass (r, queue) ans = r.waiting.fillRcvBuf queue ans := by
  simp only [pass, drain_wait hst h]

theorem pass_take (hst : r.conn.state = .handshake2) (h : r.frontEnd ≤ r.rbuf.cur) (ans : Recv) :
    pass (r, queue) ans =
      some ((endpoint.accept r r.rbuf.mem).shuffle r.frontEnd, queue) := by
  have hpos : 1 ≤ r.frontEnd := chunkEnd_pos r.chunkSz r.rbuf.mem r.chan
  have hcur := accept_cur r r.rbuf.mem
  simp only [pass, drain_take hst h]
  rw [if_neg (by omega), if_neg (by omega)]

theorem fillRcvBuf_ne_none (h : 0 < r.rbuf.space) (ans : Recv) :
    r.fillRcvBuf queue ans ≠ none := by
  unfold fillRcvBuf
  rw [if_neg (by omega)]
  cases ans with
  | upTo n =>
    dsimp only
    split_ifs <;> exact Option.some_ne_none _
  | again => exact Option.some_ne_none _
  | fails => exact Option.some_ne_none _
  | eof => exact Option.some_ne_none _

/-- A receive takes some of the queue into the buffer. -/
theorem fillRcvBuf_upTo {n : ℕ} {s : Rtmp × List UInt8}
    (h : r.fillRcvBuf queue (.upTo n) = some s) :
    ∃ bs, queue = bs ++ s.2 ∧ bs.length ≤ r.rbuf.space ∧
      s.1 = { r with rbuf := r.rbuf.received bs } := by
  by_cases hspace : r.rbuf.space = 0
  · simp [fillRcvBuf, hspace] at h
  simp only [fillRcvBuf, if_neg hspace] at h
  by_cases hq : queue = []
  · obtain rfl := Option.some.inj ((if_pos hq).symm.trans h)
    exact ⟨[], rfl, Nat.zero_le _, by simp [RBuf.received]⟩
  · obtain rfl := Option.some.inj ((if_neg hq).symm.trans h)
    refine ⟨_, (List.take_append_drop _ _).symm, ?_, rfl⟩
    rw [List.length_take]
    omega

/-- Unless the connection is reset, a refill takes some of the queue into the buffer. -/
theorem fillRcvBuf_spec {ans : Recv} {s : Rtmp × List UInt8}
    (h : r.fillRcvBuf queue ans = some s) (hlive : s.1.live) :
    ∃ bs, queue = bs ++ s.2 ∧ bs.length ≤ r.rbuf.space ∧
      s.1 = { r with rbuf := r.rbuf.received bs } := by
  by_cases hspace : r.rbuf.space = 0
  · simp [fillRcvBuf, hspace] at h
  cases ans with
  | upTo n => exact fillRcvBuf_upTo h
  | again =>
    simp only [fillRcvBuf, if_neg hspace] at h
    obtain rfl := Option.some.inj h
    exact ⟨[], rfl, Nat.zero_le _, by simp [RBuf.received]⟩
  | fails =>
    simp only [fillRcvBuf, if_neg hspace] at h
    obtain rfl := Option.some.inj h
    cases hlive
  | eof =>
    simp only [fillRcvBuf, if_neg hspace] at h
    obtain rfl := Option.some.inj h
    cases hlive

/-- The size of the buffer behind a chunk that was taken. -/
theorem shuffle_spec (r : Rtmp) (taken : ℕ) (h : taken ≤ r.rbuf.cur) :
    (r.shuffle taken).toLine = r.toLine ∧ (r.shuffle taken).chan = r.chan ∧
      (r.shuffle taken).rbuf.currentBufSz =
        if r.chunkSz ≠ r.rbuf.currentBufSz - RTMP_HDR_MAX_SZ ∧ r.rbuf.cur - taken ≤ r.chunkSz then
          r.chunkSz + RTMP_HDR_MAX_SZ else r.rbuf.currentBufSz := by
  have hmove := RBuf.memmove_currentBufSz h
  have hcur : (r.rbuf.memmove taken).cur = r.rbuf.cur - taken := rfl
  unfold shuffle
  dsimp only
  rw [hmove, hcur]
  split_ifs with hsz
  · exact ⟨rfl, rfl, RBuf.realloc_currentBufSz (hsz.2.trans (Nat.le_add_right _ _))⟩
  · exact ⟨rfl, rfl, hmove⟩

theorem shuffle_contents (r : Rtmp) (taken : ℕ) :
    (r.shuffle taken).rbuf.contents = r.rbuf.contents.drop taken := by
  unfold shuffle
  dsimp only
  split_ifs with hsz
  · exact (RBuf.realloc_contents (hsz.2.trans (Nat.le_add_right _ _))).trans
      (RBuf.memmove_contents _ _)
  · exact RBuf.memmove_contents _ _

/-- One round on a live connection. -/
def Step (s s' : Rtmp × List UInt8) : Prop := s.1.live ∧ ∃ ans, pass s ans = some s'

/-- A connection as the handshake leaves it: the default chunk size and the buffer for it. -/
structure AfterHandshake (r : Rtmp) : Prop where
  state : r.conn.state = .handshake2
  chunkSz : r.chunkSz = RTMP_DEFAULT_CHUNK_SZ
  bufSz : r.rbuf.currentBufSz = RTMP_DEFAULT_CHUNK_SZ + RTMP_HDR_MAX_SZ
  chan : r.chan = fun _ => {}
  trace : r.trace = []

/-- A connection behind the handshake, over a socket that takes every send. -/
def established : Rtmp where
  chunkSz := RTMP_DEFAULT_CHUNK_SZ
  conn := { state := .handshake2 }
  rbuf := { space := RTMP_DEFAULT_CHUNK_SZ + RTMP_HDR_MAX_SZ }

theorem established_afterHandshake : AfterHandshake established := ⟨rfl, rfl, rfl, rfl, rfl⟩

/-- A connection that waits for the response to handshake 1. -/
structure AwaitsResponse (r : Rtmp) : Prop where
  state : r.conn.state = .handshake1
  bufSz : r.rbuf.currentBufSz = RTMP_HANDSHAKE_LEN * 2 + 1 + RTMP_HDR_MAX_SZ
  chan : r.chan = fun _ => {}
  trace : r.trace = []

/-- With the response in the buffer, the handshake fails, or it goes through and asks for
the default chunk size. -/
theorem handshake1Resp_cases (r : Link) (hlen : RTMP_HANDSHAKE_LEN * 2 + 1 ≤ r.rbuf.cur) :
    (∃ conn, r.conn.Keeps conn ∧ r.handshake1Resp = ({ r with conn := conn }, some 0)) ∨
      ∃ conn : Conn, conn.state = .handshake2 ∧ r.handshake1Resp =
        ({ r with conn := conn, chunkSz := RTMP_DEFAULT_CHUNK_SZ },
          some (RTMP_HANDSHAKE_LEN * 2 + 1)) := by
  have hraw := rtmpSendRaw_keeps r.conn (r.rbuf.mem.bytes 1 RTMP_HANDSHAKE_LEN)
  have hdefer : RTMP_DEFAULT_CHUNK_SZ ≤ r.rbuf.currentBufSz := by
    simp only [RBuf.currentBufSz, RTMP_DEFAULT_CHUNK_SZ, RTMP_HANDSHAKE_LEN] at *
    omega
  unfold Link.handshake1Resp Link.handshake2
  rw [if_neg (Nat.not_lt.mpr hlen)]
  generalize rtmpSendRaw r.conn (r.rbuf.mem.bytes 1 RTMP_HANDSHAKE_LEN) = s at hraw ⊢
  obtain ⟨conn, ok⟩ := s
  cases ok with
  | false => exact .inl ⟨conn, hraw, rfl⟩
  | true =>
    refine .inr ⟨{ conn with state := .handshake2, calls := conn.calls ++ [.connected] }, rfl, ?_⟩
    have h128 : ¬ RTMP_DEFAULT_CHUNK_SZ = 0 := by decide
    simp only [Link.rbufRequestSize, if_neg h128, if_pos hdefer]
    rfl

/-- A connection that waits for the response goes on waiting, or ends up as every
connection does behind the handshake. -/
theorem AwaitsResponse.pass {r : Rtmp} (h : AwaitsResponse r) {ans : Recv}
    {s : Rtmp × List UInt8} (hpass : pass (r, queue) ans = some s) (hlive : s.1.live) :
    AwaitsResponse s.1 ∨ AfterHandshake s.1 := by
  have hfill : r.fillRcvBuf queue ans = some s → AwaitsResponse s.1 := by
    intro hfill
    obtain ⟨bs, -, hbs, hs⟩ := fillRcvBuf_spec hfill hlive
    rw [hs]
    exact ⟨h.state, (RBuf.received_currentBufSz hbs).trans h.bufSz, h.chan, h.trace⟩
  by_cases h0 : r.rbuf.cur = 0
  · exact .inl (hfill (by simpa [Rtmp.pass, rtmpDrainBuf, h0] using hpass))
  by_cases hlen : r.rbuf.cur < RTMP_HANDSHAKE_LEN * 2 + 1
  · exact .inl (hfill (by
      simpa [Rtmp.pass, rtmpDrainBuf, h0, h.state, Link.handshake1Resp, hlen] using hpass))
  obtain ⟨conn, hkeeps, hresp⟩ | ⟨conn, hst, hresp⟩ :=
    handshake1Resp_cases r.toLink (Nat.not_lt.mp hlen)
  · simp only [Rtmp.pass, rtmpDrainBuf, if_neg h0, h.state, hresp, if_true, Option.some.injEq]
      at hpass
    obtain rfl := hpass
    exact .inl ⟨(hkeeps (by simpa [live] using hlive)).2.trans h.state, h.bufSz, h.chan, h.trace⟩
  · simp only [Rtmp.pass, rtmpDrainBuf, if_neg h0, h.state, hresp] at hpass
    rw [if_neg (by decide), if_neg (by exact hlen), Option.some.injEq] at hpass
    set r₁ : Rtmp := { r with conn := conn, chunkSz := RTMP_DEFAULT_CHUNK_SZ } with hr₁
    obtain ⟨hline, hchan, hsz⟩ := shuffle_spec r₁ _ (Nat.not_lt.mp hlen)
    have hb : r₁.rbuf.currentBufSz = RTMP_HANDSHAKE_LEN * 2 + 1 + RTMP_HDR_MAX_SZ := h.bufSz
    have hcur : r₁.rbuf.cur ≤ r₁.rbuf.currentBufSz := Nat.le_add_right _ _
    have h128 : r₁.chunkSz = RTMP_DEFAULT_CHUNK_SZ := rfl
    rw [hb] at hcur
    rw [hb, h128, if_pos ⟨by decide, by
      simp only [RTMP_DEFAULT_CHUNK_SZ, RTMP_HDR_MAX_SZ] at hcur ⊢; omega⟩] at hsz
    generalize r₁.shuffle (RTMP_HANDSHAKE_LEN * 2 + 1) = r₂ at hpass hline hchan hsz
    rw [← hpass]
    exact .inr ⟨by rw [hline]; exact hst, by rw [hline], hsz, hchan.trans h.chan,
      by rw [hline]; exact h.trace⟩

end Rtmp
end Mayhem
