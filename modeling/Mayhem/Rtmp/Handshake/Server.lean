import Mayhem.Rtmp.Handshake.Client
import Mayhem.Rtmp.Served

/-! The handshake of `rtmpd.c` over byte streams that lose nothing: its phases, and what one
round of the receive loop does in each of them. -/
namespace Mayhem

namespace Served

variable {o : ServerOwner} {r : Served} {stream : List UInt8}

/-- What the owner and the messages leave as it is, and which way the rest can go. -/
structure Kept (r r' : Served) : Prop where
  hello : r'.hello = r.hello
  greeted : r'.greeted = r.greeted
  decoded : r'.decoded = r.decoded
  resized : r.intake.Resized r'.intake
  told : r'.calls.count .connected = r.calls.count .connected
  sent : r.sock.sent <+: r'.sock.sent
  mask : r'.mask = r.mask ∨ r'.mask = .deleted
  state : r'.state = r.state ∨ r'.mask = .deleted

theorem Kept.refl (r : Served) : r.Kept r :=
  ⟨rfl, rfl, rfl, .refl _, rfl, List.prefix_refl _, .inl rfl, .inl rfl⟩

theorem Kept.trans {a b c : Served} (hab : a.Kept b) (hbc : b.Kept c) : a.Kept c where
  hello := hbc.hello.trans hab.hello
  greeted := hbc.greeted.trans hab.greeted
  decoded := hbc.decoded.trans hab.decoded
  resized := hab.resized.trans hbc.resized
  told := hbc.told.trans hab.told
  sent := hab.sent.trans hbc.sent
  mask := Mask.kept_trans hab.mask hbc.mask
  state := Mask.state_trans hbc.mask hab.state hbc.state

theorem reset_kept (r : Served) (s : ConnState) : r.Kept (r.reset o s) := by
  unfold reset
  dsimp only
  split_ifs <;>
    exact ⟨rfl, rfl, rfl, .refl _, by simp [call, rtmpdClose], List.prefix_refl _, .inr rfl,
      .inr rfl⟩

theorem rtmpSendRaw_kept (r : Served) (buf : List UInt8) : r.Kept (r.rtmpSendRaw o buf).1 := by
  unfold rtmpSendRaw
  generalize sendRaw r.sock.script buf = res
  obtain ⟨e, ks, out⟩ := res
  dsimp only
  set r₁ : Served := { r with sock := ⟨ks, r.sock.sent ++ out⟩ }
  have h₁ : r.Kept r₁ :=
    ⟨rfl, rfl, rfl, .refl _, rfl, List.prefix_append _ _, .inl rfl, .inl rfl⟩
  cases e with
  | sent => exact h₁
  | blocked => exact h₁
  | failed => exact h₁.trans (r₁.reset_kept _)
  | closed => exact h₁.trans (r₁.reset_kept _)

theorem sendAll_kept (r : Served) (bufs : List (List UInt8)) : r.Kept (r.sendAll o bufs).1 := by
  induction bufs generalizing r with
  | nil => exact .refl r
  | cons buf bufs ih =>
    have hraw := r.rtmpSendRaw_kept (o := o) buf
    unfold sendAll
    cases hres : r.rtmpSendRaw o buf with
    | mk r' ok =>
      rw [hres] at hraw
      cases ok with
      | true => exact hraw.trans (ih r')
      | false => exact hraw

theorem perform_kept (r : Served) (plan : Plan) : r.Kept (r.perform o plan) := by
  induction plan generalizing r with
  | done => exact .refl r
  | send x next ih =>
    have hstack : r.Kept { r with stack := r.stack.tail } :=
      ⟨rfl, rfl, rfl, .refl _, rfl, List.prefix_refl _, .inl rfl, .inl rfl⟩
    exact (hstack.trans (sendAll_kept _ _)).trans (ih _ _)
  | close next ih =>
    have hclose : r.Kept r.rtmpdClose :=
      ⟨rfl, rfl, rfl, .refl _, rfl, List.prefix_refl _, .inr rfl, .inr rfl⟩
    exact hclose.trans (ih _)

theorem rtmpDispatch_kept (r : Served) (msg : Msg) : r.Kept (r.rtmpDispatch o msg) := by
  have hcall : r.Kept (r.call (.pkt msg)) :=
    ⟨rfl, rfl, rfl, .refl _, by simp [call], List.prefix_refl _, .inl rfl, .inl rfl⟩
  exact hcall.trans (perform_kept _ _)

/-- The owner has not been told of the connection. -/
structure Untold (r : Served) : Prop where
  calls : .connected ∉ r.calls
  greeted : r.greeted = none
  decoded : r.decoded = none

/-- The reply to the greeting of the client: S0, S1 and a copy of C1. -/
structure Replied (stream : List UInt8) (r : Served) : Prop where
  hello : r.hello.length = FULL_LEN
  long : GREETING_LEN ≤ stream.length
  copy : r.hello.drop GREETING_LEN = (stream.drop 1).take RTMP_HANDSHAKE_LEN

/-- The owner has been told of the connection, once. -/
structure Told (stream : List UInt8) (r : Served) : Prop extends Replied stream r where
  full : FULL_LEN ≤ stream.length
  greeted : r.greeted = some r.hello
  once : r.calls.count .connected = 1
  sent : r.hello <+: r.sock.sent
  consumed : FULL_LEN ≤ r.intake.consumed.length
  fresh : r.decoded = none → r.intake.consumed.length = FULL_LEN
  first : ∀ n b, r.decoded = some (n, b) → n = FULL_LEN ∧ stream[n]? = some b
  mask : r.mask = .read ∧ r.state = .ready ∨ r.mask = .deleted

/-- The phases of the server. -/
inductive Phase (stream : List UInt8) (r : Served) : Prop
  | listening : r.Untold → r.mask = .unset → r.sock.sent = [] → r.intake.consumed = [] →
      Phase stream r
  | waiting : r.Untold → r.mask = .read → r.state = .handshake1 → r.sock.sent = [] →
      r.intake.consumed = [] → Phase stream r
  | replied : r.Untold → r.mask = .read → r.state = .handshake2 → r.sock.sent = r.hello →
      r.intake.consumed.length = GREETING_LEN → r.Replied stream → Phase stream r
  | told : r.Told stream → Phase stream r

/-- What holds of the server at all times, `stream` being what the client has written. -/
structure Settled (stream : List UInt8) (r : Served) : Prop where
  sound : r.intake.Sound
  received : r.intake.received <+: stream
  phase : r.Phase stream

/-- A step that takes back nothing of what was sent. -/
structure Advances (stream : List UInt8) (r r' : Served) : Prop where
  settled : r'.Settled stream
  sent : r.sock.sent <+: r'.sock.sent

theorem Replied.mono {stream' : List UInt8} (h : r.Replied stream) (hs : stream <+: stream') :
    r.Replied stream' := by
  have hlong := h.long
  refine ⟨h.hello, hlong.trans hs.length_le, ?_⟩
  rw [h.copy, Owned.take_stream hs (by rw [GREETING_LEN] at hlong; omega)]

/-- The client may write on. -/
theorem Settled.mono {stream' : List UInt8} (h : r.Settled stream) (hs : stream <+: stream') :
    r.Settled stream' := by
  refine ⟨h.sound, h.received.trans hs, ?_⟩
  cases h.phase with
  | listening hu hm hsent hc => exact .listening hu hm hsent hc
  | waiting hu hm hst hsent hc => exact .waiting hu hm hst hsent hc
  | replied hu hm hst hsent hc hr => exact .replied hu hm hst hsent hc (hr.mono hs)
  | told ht =>
    refine .told { ht with toReplied := ht.mono hs, full := ht.full.trans hs.length_le, first := ?_ }
    intro n b hd
    obtain ⟨hn, hb⟩ := ht.first n b hd
    obtain ⟨rest, rfl⟩ := hs
    exact ⟨hn, List.getElem?_append_left (List.getElem?_eq_some_iff.mp hb).1 ▸ hb⟩

theorem Told.mask_ne (h : r.Told stream) : r.mask ≠ .unset := by
  rcases h.mask with ⟨hm, -⟩ | hm <;> simp [hm]

theorem Phase.of_unset (h : r.Phase stream) (hm : r.mask = .unset) :
    r.Untold ∧ r.sock.sent = [] ∧ r.intake.consumed = [] := by
  cases h with
  | listening hu _ hsent hc => exact ⟨hu, hsent, hc⟩
  | waiting _ hm' => simp [hm] at hm'
  | replied _ hm' => simp [hm] at hm'
  | told ht => exact absurd hm ht.mask_ne

theorem Phase.of_connected (h : r.Phase stream) (hc : .connected ∈ r.calls) : r.Told stream := by
  cases h with
  | listening hu => exact absurd hc hu.calls
  | waiting hu => exact absurd hc hu.calls
  | replied hu => exact absurd hc hu.calls
  | told ht => exact ht

/-- What has been received since and how the sends to come will end are no part of a phase. -/
theorem Phase.input (h : r.Phase stream) (ks : List SendRes) (rbuf : RBuf) (received : List UInt8) :
    Served.Phase stream { r with
      sock := ⟨ks, r.sock.sent⟩
      intake := { r.intake with rbuf := rbuf, received := received } } := by
  cases h with
  | listening hu hm hsent hc => exact .listening ⟨hu.calls, hu.greeted, hu.decoded⟩ hm hsent hc
  | waiting hu hm hst hsent hc =>
    exact .waiting ⟨hu.calls, hu.greeted, hu.decoded⟩ hm hst hsent hc
  | replied hu hm hst hsent hc hr =>
    exact .replied ⟨hu.calls, hu.greeted, hu.decoded⟩ hm hst hsent hc ⟨hr.hello, hr.long, hr.copy⟩
  | told ht =>
    exact .told ⟨⟨ht.hello, ht.long, ht.copy⟩, ht.full, ht.greeted, ht.once, ht.sent, ht.consumed,
      ht.fresh, ht.first, ht.mask⟩

/-- A move of the owner once it has been told. -/
theorem Told.kept {r' : Served} (h : r.Told stream) (hk : r.Kept r') : r'.Told stream where
  hello := hk.hello ▸ h.hello
  long := h.long
  copy := hk.hello ▸ h.copy
  full := h.full
  greeted := by
    rw [hk.greeted, hk.hello]
    exact h.greeted
  once := hk.told.trans h.once
  sent := by
    rw [hk.hello]
    exact h.sent.trans hk.sent
  consumed := hk.resized.consumed ▸ h.consumed
  fresh hd := by
    rw [hk.resized.consumed]
    exact h.fresh (hk.decoded ▸ hd)
  first n b hd := h.first n b (hk.decoded ▸ hd)
  mask := Mask.phase_kept h.mask hk.mask hk.state

theorem Settled.kept {r' : Served} (h : r.Settled stream) (ht : r.Told stream) (hk : r.Kept r') :
    r.Advances stream r' :=
  ⟨⟨hk.resized.sound h.sound, hk.resized.received ▸ h.received, .told (ht.kept hk)⟩, hk.sent⟩

/-- The decoder, called with something in the buffer, notes where it starts. -/
theorem Told.marked (h : r.Told stream) (hs : r.Settled stream) (h0 : r.intake.rbuf.cur ≠ 0) :
    Served.Told stream { r with
      decoded := some (r.decoded.getD (r.intake.consumed.length, r.intake.rbuf.mem 0)) } :=
  { h with
    fresh := fun hnone => by simp at hnone
    first := fun _ _ hb => hs.sound.first hs.received h0 h.fresh h.first (Option.some.inj hb) }

/-- What the decoder has taken leaves the buffer. -/
theorem Told.shuffle (h : r.Told stream) (hs : r.Settled stream) (hd : r.decoded ≠ none)
    {taken : ℕ} (ht : taken ≤ r.intake.rbuf.cur) (chunkSz : ℕ) :
    Served.Settled stream { r with intake := r.intake.shuffle chunkSz taken } := by
  refine ⟨hs.sound.shuffle ht, ?_, .told ?_⟩
  · rw [Intake.shuffle_received]
    exact hs.received
  · refine { h with consumed := ?_, fresh := fun hnone => absurd hnone hd }
    rw [Intake.shuffle_consumed, List.length_append]
    exact h.consumed.trans (Nat.le_add_right _ _)

/-- With the greeting in the buffer, the reply goes out whole, or the server waits for the
socket with everything as it was but for the reply it has generated. -/
theorem handshake1Req_outcome (hs : r.intake.Sound) (hr : r.intake.received <+: stream)
    (hc : r.intake.consumed = []) (hsent : r.sock.sent = [])
    (hlen : GREETING_LEN ≤ r.intake.rbuf.cur) (hk : FullOrAgain FULL_LEN r.sock.script)
    (rand : List UInt8) :
    ∃ (ks : List SendRes) (buf : List UInt8), buf.length = FULL_LEN ∧
      buf.drop GREETING_LEN = (stream.drop 1).take RTMP_HANDSHAKE_LEN ∧
      (r.handshake1Req o rand = ({ r with sock := ⟨ks, []⟩, hello := buf }, some 0) ∨
        r.handshake1Req o rand = ({ r with
          sock := ⟨ks, buf⟩, hello := buf, mask := .read, state := .handshake2 },
            some GREETING_LEN)) := by
  have hblock := hs.block hr (p := 1) (n := RTMP_HANDSHAKE_LEN) (by
    rw [GREETING_LEN] at hlen
    omega)
  rw [hc, List.length_nil, Nat.zero_add] at hblock
  have hall : ¬ r.intake.rbuf.cur < RTMP_HANDSHAKE_LEN + 1 := Nat.not_lt.mpr hlen
  unfold handshake1Req transition handshake1 rtmpSendRaw
  rw [if_neg hall]
  generalize hbuf : ((Memory.ofList (3 :: rand) fun _ => 0).write (1 + RTMP_HANDSHAKE_LEN)
    (r.intake.rbuf.mem.bytes 1 RTMP_HANDSHAKE_LEN)).bytes 0 (RTMP_HANDSHAKE_LEN * 2 + 1) = buf
  have hl : buf.length = FULL_LEN := by rw [← hbuf, Memory.bytes_length]; rfl
  have hcopy : buf.drop GREETING_LEN = (stream.drop 1).take RTMP_HANDSHAKE_LEN := by
    rw [← hblock, ← hbuf, Memory.bytes_drop]
    have hself := Memory.bytes_write_self (Memory.ofList (3 :: rand) fun _ => 0)
      (1 + RTMP_HANDSHAKE_LEN) (r.intake.rbuf.mem.bytes 1 RTMP_HANDSHAKE_LEN)
    rwa [Memory.bytes_length] at hself
  obtain ⟨ks, hsend, -⟩ | ⟨ks, hsend, -⟩ := sendRaw_fullOrAgain hk hl.le
  · refine ⟨ks, buf, hl, hcopy, .inr ?_⟩
    simp only [hsend, entered, if_true, hsent, List.nil_append]
    rfl
  · refine ⟨ks, buf, hl, hcopy, .inl ?_⟩
    simp [hsend, entered, hsent]

/-- With C2 in the buffer the owner is told. -/
theorem handshake2Req_outcome (hu : r.Untold) (hm : r.mask = .read)
    (hlen : RTMP_HANDSHAKE_LEN ≤ r.intake.rbuf.cur) :
    ∃ r' : Served, r.handshake2Req o = (r', some RTMP_HANDSHAKE_LEN) ∧
      r.intake.Resized r'.intake ∧ r'.hello = r.hello ∧ r'.greeted = some r.sock.sent ∧
      r'.decoded = none ∧ r'.calls.count .connected = 1 ∧ r.sock.sent <+: r'.sock.sent ∧
      (r'.mask = .read ∧ r'.state = .ready ∨ r'.mask = .deleted) := by
  have h128 : ¬ RTMP_DEFAULT_CHUNK_SZ = 0 := by decide
  unfold handshake2Req
  rw [if_neg (Nat.not_lt.mpr hlen)]
  simp only [rbufRequestSize, if_neg h128, transition, entered, if_true]
  set r₁ : Served := { r with
    chunkSz := RTMP_DEFAULT_CHUNK_SZ
    intake := r.intake.requestSize RTMP_DEFAULT_CHUNK_SZ
    state := .ready
    greeted := some r.sock.sent }
  have hacts := (r₁.call .connected).perform_kept (o := o) (o.acts (r₁.call .connected).calls)
  refine ⟨_, rfl, (r.intake.resized_requestSize _).trans hacts.resized, hacts.hello,
    hacts.greeted, hacts.decoded.trans hu.decoded, ?_, hacts.sent, ?_⟩
  · apply hacts.told.trans
    show List.count ServerCall.connected (r.calls ++ [ServerCall.connected]) = 1
    rw [List.count_append, List.count_eq_zero.mpr hu.calls]
    rfl
  · rcases hacts.mask with h | h
    · exact hacts.state.imp (fun h' => ⟨h.trans hm, h'⟩) id
    · exact .inr h

end Served

namespace Server

variable {o : ServerOwner} {r : Server} {stream : List UInt8}

theorem accept_kept (r : Server) (m : Memory) :
    r.toServed.Kept ((endpoint o).accept r m).toServed := by
  unfold Endpoint.accept
  dsimp only [endpoint]
  split_ifs
  · exact r.toServed.rtmpDispatch_kept _
  · exact .refl _

/-- A receive that delivers takes the front of what is still to come of the stream. -/
theorem fillRcvBuf_delivers {queue : List UInt8} {ans : Recv} (hd : ans.Delivers)
    {s : Server × List UInt8} (h : r.fillRcvBuf o queue ans = some s) :
    s.1.toServed = r.toServed ∨ ∃ len, (queue.take len).length ≤ r.intake.rbuf.space ∧
      s.1.toServed = { r.toServed with intake := r.intake.fill (queue.take len) } := by
  by_cases hspace : r.intake.rbuf.space = 0
  · simp [fillRcvBuf, hspace] at h
  cases ans with
  | upTo n =>
    by_cases hq : queue = []
    · simp only [fillRcvBuf, if_neg hspace, if_pos hq] at h
      obtain rfl := Option.some.inj h
      exact .inl rfl
    · simp only [fillRcvBuf, if_neg hspace, if_neg hq] at h
      obtain rfl := Option.some.inj h
      refine .inr ⟨_, ?_, rfl⟩
      rw [List.length_take]
      omega
  | again =>
    simp only [fillRcvBuf, if_neg hspace] at h
    obtain rfl := Option.some.inj h
    exact .inl rfl
  | fails => exact hd.elim
  | eof => exact hd.elim

theorem fillRcvBuf_settled {ans : Recv} (hd : ans.Delivers) (h : r.Settled stream)
    {s : Server × List UInt8}
    (hfill : r.fillRcvBuf o (stream.drop r.intake.received.length) ans = some s) :
    r.Advances stream s.1.toServed := by
  obtain hs | ⟨len, hlen, hs⟩ := fillRcvBuf_delivers hd hfill
  · rw [hs]
    exact ⟨h, List.prefix_refl _⟩
  · rw [hs]
    exact ⟨⟨h.sound.fill hlen, Intake.fill_prefix_of h.received len, h.phase.input _ _ _⟩,
      List.prefix_refl _⟩

/-- `listen_cb` makes room for the greeting. -/
theorem listenCb_settled (h : r.Settled stream) (hm : r.mask = .unset) :
    r.Advances stream (r.listenCb o).toServed := by
  have h1537 : ¬ RTMP_HANDSHAKE_LEN + 1 = 0 := by decide
  obtain ⟨hu, hsent, hc⟩ := h.phase.of_unset hm
  unfold listenCb Served.transition Served.init Served.rbufRequestSize Served.entered
  simp only [if_neg h1537, if_true]
  refine ⟨⟨h.sound.requestSize _, ?_, ?_⟩, List.prefix_refl _⟩
  · rw [Intake.requestSize_received]
    exact h.received
  · refine .waiting ⟨hu.calls, hu.greeted, hu.decoded⟩ rfl rfl hsent ?_
    rw [Intake.requestSize_consumed]
    exact hc

/-- A round in front of the reply. -/
theorem pass_waiting {ans : Recv} (hd : ans.Delivers) (h : r.Settled stream) (hu : r.Untold)
    (hm : r.mask = .read) (hst : r.state = .handshake1) (hsent : r.sock.sent = [])
    (hc : r.intake.consumed = []) (hk : FullOrAgain FULL_LEN r.sock.script) (rand : List UInt8)
    {s : Server × List UInt8}
    (hpass : pass o (r, stream.drop r.intake.received.length) rand ans = some s) :
    r.Advances stream s.1.toServed := by
  by_cases h0 : r.intake.rbuf.cur = 0
  · exact fillRcvBuf_settled hd h (by simpa [pass, rtmpDrainBuf, h0] using hpass)
  by_cases hlen : r.intake.rbuf.cur < RTMP_HANDSHAKE_LEN + 1
  · apply fillRcvBuf_settled (o := o) hd h
    simpa [pass, rtmpDrainBuf, h0, hst, Served.handshake1Req, hlen] using hpass
  have hfull : GREETING_LEN ≤ r.intake.rbuf.cur := Nat.not_lt.mp hlen
  obtain ⟨ks, buf, hl, hcopy, hreq | hreq⟩ := Served.handshake1Req_outcome (o := o) h.sound
    h.received hc hsent hfull hk rand
  · simp only [pass, rtmpDrainBuf, if_neg h0, hst, hreq, if_true] at hpass
    obtain rfl := Option.some.inj hpass
    exact ⟨⟨h.sound, h.received, .waiting ⟨hu.calls, hu.greeted, hu.decoded⟩ hm rfl rfl hc⟩,
      by rw [hsent]⟩
  · simp only [pass, rtmpDrainBuf, if_neg h0, hst, hreq] at hpass
    rw [if_neg (by decide), if_neg (Nat.not_lt.mpr hfull)] at hpass
    obtain rfl := Option.some.inj hpass
    have hlong : GREETING_LEN ≤ stream.length := by
      have hl := h.sound.length
      have hle := h.received.length_le
      rw [hc, List.length_nil] at hl
      omega
    refine ⟨⟨h.sound.shuffle hfull, ?_,
      .replied ⟨hu.calls, hu.greeted, hu.decoded⟩ rfl rfl rfl ?_ ⟨hl, hlong, hcopy⟩⟩, ?_⟩
    · rw [Intake.shuffle_received]
      exact h.received
    · rw [Intake.shuffle_consumed, hc, List.nil_append, Memory.bytes_length]
    · rw [hsent]
      exact List.nil_prefix

/-- A round behind the reply. -/
theorem pass_replied {ans : Recv} (hd : ans.Delivers) (h : r.Settled stream) (hu : r.Untold)
    (hm : r.mask = .read) (hst : r.state = .handshake2) (hsent : r.sock.sent = r.hello)
    (hc : r.intake.consumed.length = GREETING_LEN) (hr : r.Replied stream) (rand : List UInt8)
    {s : Server × List UInt8}
    (hpass : pass o (r, stream.drop r.intake.received.length) rand ans = some s) :
    r.Advances stream s.1.toServed := by
  by_cases h0 : r.intake.rbuf.cur = 0
  · exact fillRcvBuf_settled hd h (by simpa [pass, rtmpDrainBuf, h0] using hpass)
  by_cases hlen : r.intake.rbuf.cur < RTMP_HANDSHAKE_LEN
  · apply fillRcvBuf_settled (o := o) hd h
    simpa [pass, rtmpDrainBuf, h0, hst, Served.handshake2Req, hlen] using hpass
  have hfull : RTMP_HANDSHAKE_LEN ≤ r.intake.rbuf.cur := Nat.not_lt.mp hlen
  obtain ⟨r', hreq, hres, hhello, hgreeted, hdecoded, honce, hsent', hmask⟩ :=
    Served.handshake2Req_outcome (o := o) hu hm hfull
  simp only [pass, rtmpDrainBuf, if_neg h0, hst, hreq] at hpass
  rw [if_neg (by decide), if_neg (by rw [hres.cur]; exact hlen)] at hpass
  obtain rfl := Option.some.inj hpass
  have hlong : FULL_LEN ≤ stream.length := by
    have hl := h.sound.length
    have hle := h.received.length_le
    rw [hc, GREETING_LEN] at hl
    rw [FULL_LEN]
    omega
  have hcons : (r'.intake.shuffle r'.chunkSz RTMP_HANDSHAKE_LEN).consumed.length = FULL_LEN := by
    rw [Intake.shuffle_consumed, List.length_append, hres.consumed, hc, Memory.bytes_length]
    rfl
  refine ⟨⟨(hres.sound h.sound).shuffle (by rw [hres.cur]; exact hfull), ?_, .told ?_⟩, hsent'⟩
  · rw [Intake.shuffle_received, hres.received]
    exact h.received
  · have hrep : r'.Replied stream := ⟨hhello ▸ hr.hello, hr.long, hhello ▸ hr.copy⟩
    have hsaid : r.sock.sent = r'.hello := hsent.trans hhello.symm
    exact ⟨⟨hrep.hello, hrep.long, hrep.copy⟩, hlong, hgreeted.trans (congrArg some hsaid), honce,
      hsaid ▸ hsent', hcons.ge, fun _ => hcons, fun n b hb => by simp [hdecoded] at hb, hmask⟩

/-- A round behind the handshake. -/
theorem pass_told {ans : Recv} (hd : ans.Delivers) (h : r.Settled stream) (ht : r.Told stream)
    (hm : r.mask = .read) (rand : List UInt8) {s : Server × List UInt8}
    (hpass : pass o (r, stream.drop r.intake.received.length) rand ans = some s) :
    r.Advances stream s.1.toServed := by
  have hst : r.state = .ready := by
    rcases ht.mask with ⟨-, hst⟩ | hdel
    · exact hst
    · rw [hm] at hdel
      cases hdel
  by_cases h0 : r.intake.rbuf.cur = 0
  · exact fillRcvBuf_settled hd h (by simpa [pass, rtmpDrainBuf, h0] using hpass)
  -- the first call of the decoder starts with the byte behind the handshake of the client
  obtain ⟨r₁, hr₁, h₁, ht₁⟩ : ∃ r₁ : Server, r₁ = { r with
      decoded := some (r.decoded.getD (r.intake.consumed.length, r.intake.rbuf.mem 0)) } ∧
      r₁.Settled stream ∧ r₁.Told stream := by
    have ht₁ := ht.marked h h0
    exact ⟨_, rfl, ⟨h.sound, h.received, .told ht₁⟩, ht₁⟩
  have hdecode : r.rtmpDrainBuf o rand =
      some ((endpoint o).decodeRtmp r₁ r₁.intake.rbuf.mem r₁.intake.rbuf.cur) := by
    simp only [rtmpDrainBuf, if_neg h0, hst, decodeRtmp, hr₁]
  have hintake : r₁.intake = r.intake := by rw [hr₁]
  rw [Endpoint.decodeRtmp_eq _ (by rw [hintake]; omega)] at hdecode
  split_ifs at hdecode with hshort
  · simp only [pass, hdecode] at hpass
    rw [← hintake] at hpass
    have hwait : ∀ tbl, ((endpoint o).setChan r₁ tbl).fillRcvBuf o
        (stream.drop r₁.intake.received.length) ans = some s → r₁.Advances stream s.1.toServed :=
      fun tbl => fillRcvBuf_settled (r := (endpoint o).setChan r₁ tbl) hd h₁
    obtain ⟨hset, hgrows⟩ := hwait _ hpass
    rw [hr₁] at hgrows
    exact ⟨hset, hgrows⟩
  · have hkept := accept_kept (o := o) r₁ r₁.intake.rbuf.mem
    obtain ⟨hset, hgrows⟩ := h₁.kept ht₁ hkept
    have hpos := chunkEnd_pos r₁.chunkSz r₁.intake.rbuf.mem r₁.chan
    have hcur : chunkEnd r₁.chunkSz r₁.intake.rbuf.mem r₁.chan ≤
        ((endpoint o).accept r₁ r₁.intake.rbuf.mem).intake.rbuf.cur := by
      rw [hkept.resized.cur]
      exact Nat.not_lt.mp hshort
    simp only [pass, hdecode] at hpass
    rw [if_neg (by exact Nat.ne_of_gt hpos), if_neg (by exact Nat.not_lt.mpr hcur)] at hpass
    obtain rfl := Option.some.inj hpass
    have hdecoded : ((endpoint o).accept r₁ r₁.intake.rbuf.mem).decoded ≠ none := by
      rw [hkept.decoded, hr₁]
      simp
    rw [hr₁] at hgrows
    refine ⟨(ht₁.kept hkept).shuffle hset hdecoded hcur _, ?_⟩
    rw [hr₁]
    exact hgrows

end Server
end Mayhem
