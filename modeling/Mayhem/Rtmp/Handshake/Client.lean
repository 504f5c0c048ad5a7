import Mathlib.Data.List.Infix
import Mayhem.Rtmp.Accounting
import Mayhem.Rtmp.Backpressure

/-! The handshake of `rtmp.c` over byte streams that lose nothing. The client goes through a
few phases, in which what it has sent, received and consumed is known to the byte. -/
namespace Mayhem

/-- C0 and C1, or S0 and S1. -/
def GREETING_LEN : ℕ := RTMP_HANDSHAKE_LEN + 1

/-- The bytes of the handshake that either side writes. -/
def FULL_LEN : ℕ := RTMP_HANDSHAKE_LEN * 2 + 1

/-- A receive that delivers bytes or has to wait. -/
def Recv.Delivers : Recv → Prop
  | .upTo _ => True
  | .again => True
  | .fails => False
  | .eof => False

/-- With such answers a buffer goes out whole or not at all. -/
theorem sendRaw_fullOrAgain {bound : ℕ} {ks : List SendRes} (hk : FullOrAgain bound ks)
    {buf : List UInt8} (hbuf : buf.length ≤ bound) :
    (∃ ks', sendRaw ks buf = (.sent, ks', buf) ∧ ks' ⊆ ks) ∨
      ∃ ks', sendRaw ks buf = (.blocked, ks', []) ∧ ks' ⊆ ks := by
  cases buf with
  | nil => exact .inl ⟨ks, by cases ks <;> rfl, List.Subset.refl ks⟩
  | cons b bs =>
    cases ks with
    | nil => exact .inl ⟨[], rfl, List.Subset.refl _⟩
    | cons k ks =>
      rcases hk k List.mem_cons_self with rfl | ⟨n, rfl, hn⟩
      · exact .inr ⟨ks, rfl, List.subset_cons_self _ _⟩
      · obtain ⟨m, rfl⟩ : ∃ m, n = m + 1 := ⟨n - 1, by simp at hbuf; omega⟩
        have htake : (b :: bs).take (m + 1) = b :: bs := List.take_of_length_le (by omega)
        have hdrop : (b :: bs).drop (m + 1) = [] := List.drop_of_length_le (by omega)
        refine .inl ⟨ks, ?_, List.subset_cons_self _ _⟩
        simp only [sendRaw, htake, hdrop, List.drop_nil]
        cases ks <;> simp

namespace Intake

variable {b : Intake} {stream : List UInt8}

/-- What is received is the front of the stream. -/
theorem fill_prefix_of (h : b.received <+: stream) (len : ℕ) :
    (b.fill ((stream.drop b.received.length).take len)).received <+: stream := by
  obtain ⟨rest, rfl⟩ := h
  rw [List.drop_left]
  exact (List.prefix_append_right_inj _).mpr (List.take_prefix _ _)

theorem shuffle_received (b : Intake) (chunkSz taken : ℕ) :
    (b.shuffle chunkSz taken).received = b.received := by
  unfold shuffle updateSize
  dsimp only
  split_ifs <;> rfl

theorem shuffle_consumed (b : Intake) (chunkSz taken : ℕ) :
    (b.shuffle chunkSz taken).consumed = b.consumed ++ b.rbuf.mem.bytes 0 taken := by
  unfold shuffle updateSize
  dsimp only
  split_ifs <;> rfl

theorem Sound.length (h : b.Sound) : b.consumed.length + b.rbuf.cur = b.received.length := by
  rw [← h.bytes, List.length_append, RBuf.contents, Memory.bytes_length]

/-- A block of the buffer is a block of the stream. -/
theorem Sound.block (h : b.Sound) (hs : b.received <+: stream) {p n : ℕ} (hn : p + n ≤ b.rbuf.cur) :
    b.rbuf.mem.bytes p n = (stream.drop (b.consumed.length + p)).take n := by
  obtain ⟨rest, rfl⟩ := hs
  have hcontents : b.rbuf.contents.length = b.rbuf.cur := Memory.bytes_length ..
  rw [← h.bytes, List.append_assoc, ← List.drop_drop, List.drop_left,
    List.drop_append_of_le_length (by omega),
    List.take_append_of_le_length (by rw [List.length_drop]; omega), RBuf.contents,
    Memory.bytes_drop, Memory.bytes_take, Nat.zero_add, Nat.min_eq_left (by omega)]

/-- The byte at the front of the buffer. -/
theorem Sound.front (h : b.Sound) (hs : b.received <+: stream) (hcur : b.rbuf.cur ≠ 0) :
    stream[b.consumed.length]? = some (b.rbuf.mem 0) := by
  have hone := h.block hs (p := 0) (n := 1) (by omega)
  have hget := congrArg (·[0]?) hone
  simpa [Memory.bytes, List.getElem?_take, List.getElem?_drop] using hget.symm

/-- The decoder notes where it is called first. -/
theorem Sound.first (h : b.Sound) (hs : b.received <+: stream) (hcur : b.rbuf.cur ≠ 0)
    {decoded : Option (ℕ × UInt8)} {len : ℕ} (hfresh : decoded = none → b.consumed.length = len)
    (hfirst : ∀ n c, decoded = some (n, c) → n = len ∧ stream[n]? = some c) {n : ℕ} {c : UInt8}
    (hd : decoded.getD (b.consumed.length, b.rbuf.mem 0) = (n, c)) :
    n = len ∧ stream[n]? = some c := by
  cases hdec : decoded with
  | none =>
    rw [hdec, Option.getD_none] at hd
    obtain ⟨rfl, rfl⟩ := Prod.mk.inj hd
    exact ⟨hfresh hdec, h.front hs hcur⟩
  | some p =>
    rw [hdec, Option.getD_some] at hd
    exact hfirst n c (by rw [hdec, hd])

end Intake

theorem Mask.kept_trans {a b c : Mask} (hab : b = a ∨ b = .deleted) (hbc : c = b ∨ c = .deleted) :
    c = a ∨ c = .deleted := by
  rcases hbc with rfl | h
  · exact hab
  · exact .inr h

theorem Mask.state_trans {b c : Mask} {s t u : ConnState} (hbc : c = b ∨ c = .deleted)
    (hst : t = s ∨ b = .deleted) (htu : u = t ∨ c = .deleted) : u = s ∨ c = .deleted := by
  rcases htu with rfl | hc
  · rcases hst with ht | hb
    · exact .inl ht
    · exact .inr (hbc.elim (·.trans hb) id)
  · exact .inr hc

/-- A connection stays in its phase or goes. -/
theorem Mask.phase_kept {a b m : Mask} {s t u : ConnState} (h : a = m ∧ s = u ∨ a = .deleted)
    (hmask : b = a ∨ b = .deleted) (hstate : t = s ∨ b = .deleted) :
    b = m ∧ t = u ∨ b = .deleted := by
  rcases h with ⟨rfl, rfl⟩ | ha
  · rcases hstate with ht | hb
    · exact hmask.imp (fun hb => ⟨hb, ht⟩) id
    · exact .inr hb
  · exact .inr (hmask.elim (·.trans ha) id)

namespace Owned

/-- What the owner and the messages leave as it is, and which way the rest can go. -/
structure Held (r r' : Owned) : Prop where
  hello : r'.hello = r.hello
  greeted : r'.greeted = r.greeted
  decoded : r'.decoded = r.decoded
  resized : r.intake.Resized r'.intake
  told : r'.conn.calls.count .connected = r.conn.calls.count .connected
  sent : r.conn.sock.sent <+: r'.conn.sock.sent
  mask : r'.mask = r.mask ∨ r'.mask = .deleted

/-- Behind the end of `transition`. -/
structure Kept (r r' : Owned) : Prop extends Held r r' where
  state : r'.conn.state = r.conn.state ∨ r'.mask = .deleted

variable {o : Owner} {r : Owned}

theorem Held.refl (r : Owned) : r.Held r :=
  ⟨rfl, rfl, rfl, .refl _, rfl, List.prefix_refl _, .inl rfl⟩

theorem Held.trans {a b c : Owned} (hab : a.Held b) (hbc : b.Held c) : a.Held c where
  hello := hbc.hello.trans hab.hello
  greeted := hbc.greeted.trans hab.greeted
  decoded := hbc.decoded.trans hab.decoded
  resized := hab.resized.trans hbc.resized
  told := hbc.told.trans hab.told
  sent := hab.sent.trans hbc.sent
  mask := Mask.kept_trans hab.mask hbc.mask

theorem Kept.refl (r : Owned) : r.Kept r := ⟨.refl r, .inl rfl⟩

theorem Kept.trans {a b c : Owned} (hab : a.Kept b) (hbc : b.Kept c) : a.Kept c :=
  ⟨hab.toHeld.trans hbc.toHeld, Mask.state_trans hbc.mask hab.state hbc.state⟩

theorem enter_held (r : Owned) (s : ConnState) : r.Held (r.enter s) :=
  ⟨rfl, rfl, rfl, .refl _, by simp [enter, call, setState, Line.call], List.prefix_refl _, .inl rfl⟩

theorem offer_kept (r : Owned) (buf : List UInt8) : r.Kept (r.offer buf) :=
  ⟨⟨rfl, rfl, rfl, .refl _, rfl, List.prefix_append _ _, .inl rfl⟩, .inl rfl⟩

theorem rtmpClose_kept (r : Owned) : r.Kept r.rtmpClose :=
  ⟨⟨rfl, rfl, rfl, .refl _, rfl, List.prefix_refl _, .inr rfl⟩, .inr rfl⟩

theorem heldMoves : Moves Held where
  refl := .refl
  trans := .trans
  pops _ := ⟨rfl, rfl, rfl, .refl _, rfl, List.prefix_refl _, .inl rfl⟩
  offers r buf := (r.offer_kept buf).toHeld
  enters r buf s _ := (r.offer_kept buf).toHeld.trans ((r.offer buf).enter_held s)
  leaves _ := ⟨rfl, rfl, rfl, .refl _, rfl, List.prefix_refl _, .inr rfl⟩
  closes r := r.rtmpClose_kept.toHeld

theorem reset_kept (r : Owned) (s : ConnState) : r.Kept (r.reset o s) :=
  ⟨(r.enter_held s).trans (heldMoves.reset r s), .inr rfl⟩

theorem rtmpSendRaw_kept (r : Owned) (buf : List UInt8) : r.Kept (r.rtmpSendRaw o buf).1 := by
  unfold rtmpSendRaw
  obtain ⟨-, hres⟩ | ⟨-, hres⟩ | ⟨s, -, hres⟩ := r.rtmpSendRawBy_cases (reset o) buf
  · rw [hres]
    exact r.offer_kept buf
  · rw [hres]
    exact r.offer_kept buf
  · rw [hres]
    exact (r.offer_kept buf).trans (reset_kept _ s)

theorem keptRule (o : Owner) : Rule o Kept where
  refl := .refl
  trans := .trans
  notes r l h := by
    obtain ⟨cs, hcalls, hcs, -⟩ := h.calls
    refine ⟨⟨rfl, rfl, rfl, .refl _, ?_, ?_, .inl rfl⟩, .inl h.state⟩
    · show l.conn.calls.count .connected = _
      rw [hcalls, List.count_append, List.count_eq_zero.mpr hcs, Nat.add_zero]
    · show r.conn.sock.sent <+: l.conn.sock.sent
      rw [h.sock]
  sends r buf := r.rtmpSendRaw_kept buf
  closes r := r.rtmpClose_kept

theorem rbufRequestSize_kept (r : Owned) (sz : ℕ) : r.Kept (r.rbufRequestSize o sz).1 := by
  unfold rbufRequestSize
  split_ifs
  · exact r.reset_kept _
  · exact ⟨⟨rfl, rfl, rfl, r.intake.resized_requestSize sz, rfl, List.prefix_refl _, .inl rfl⟩,
      .inl rfl⟩

/-- The owner has not been told of the connection. -/
structure Untold (r : Owned) : Prop where
  calls : .connected ∉ r.conn.calls
  greeted : r.greeted = none
  decoded : r.decoded = none
  consumed : r.intake.consumed = []

/-- The handshake as the client writes it, with S1 taken from what the server writes. -/
def full (r : Owned) (stream : List UInt8) : List UInt8 :=
  r.hello ++ (stream.drop 1).take RTMP_HANDSHAKE_LEN

/-- The owner has been told of the connection, once. -/
structure Told (stream : List UInt8) (r : Owned) : Prop where
  hello : r.hello.length = GREETING_LEN
  long : FULL_LEN ≤ stream.length
  greeted : r.greeted = some (r.full stream)
  once : r.conn.calls.count .connected = 1
  sent : r.full stream <+: r.conn.sock.sent
  consumed : FULL_LEN ≤ r.intake.consumed.length
  fresh : r.decoded = none → r.intake.consumed.length = FULL_LEN
  first : ∀ n b, r.decoded = some (n, b) → n = FULL_LEN ∧ stream[n]? = some b
  mask : r.mask = .read ∧ r.conn.state = .handshake2 ∨ r.mask = .deleted

/-- The phases of the client. -/
inductive Phase (stream : List UInt8) (r : Owned) : Prop
  | dialing : r.Untold → r.mask = .unset → r.conn.state = .init → r.conn.sock.sent = [] →
      Phase stream r
  | greeting : r.Untold → r.mask = .write → r.conn.state = .handshake1 →
      r.conn.sock.sent = [] → Phase stream r
  | waiting : r.Untold → r.mask = .read → r.conn.state = .handshake1 →
      r.conn.sock.sent = r.hello → r.hello.length = GREETING_LEN → Phase stream r
  | told : r.Told stream → Phase stream r

/-- What holds of the client at all times, `stream` being what the server has written. -/
structure Settled (stream : List UInt8) (r : Owned) : Prop where
  sound : r.intake.Sound
  received : r.intake.received <+: stream
  phase : r.Phase stream

/-- A step that takes back nothing of what was sent. -/
structure Advances (stream : List UInt8) (r r' : Owned) : Prop where
  settled : r'.Settled stream
  sent : r.conn.sock.sent <+: r'.conn.sock.sent

variable {stream : List UInt8}

theorem take_stream {stream stream' : List UInt8} (h : stream <+: stream') {i n : ℕ}
    (hlen : i + n ≤ stream.length) : (stream'.drop i).take n = (stream.drop i).take n := by
  obtain ⟨rest, rfl⟩ := h
  rw [List.drop_append_of_le_length (by omega),
    List.take_append_of_le_length (by rw [List.length_drop]; omega)]

/-- The server may write on. -/
theorem Settled.mono {stream' : List UInt8} (h : r.Settled stream) (hs : stream <+: stream') :
    r.Settled stream' := by
  refine ⟨h.sound, h.received.trans hs, ?_⟩
  cases h.phase with
  | dialing hu hm hst hsent => exact .dialing hu hm hst hsent
  | greeting hu hm hst hsent => exact .greeting hu hm hst hsent
  | waiting hu hm hst hsent hlen => exact .waiting hu hm hst hsent hlen
  | told ht =>
    have hlong := ht.long
    have hfull : r.full stream' = r.full stream := by
      rw [full, full, take_stream hs (by rw [FULL_LEN] at hlong; omega)]
    refine .told { ht with long := hlong.trans hs.length_le, greeted := ?_, sent := ?_, first := ?_ }
    · rw [hfull]
      exact ht.greeted
    · rw [hfull]
      exact ht.sent
    · intro n b hd
      obtain ⟨hn, hb⟩ := ht.first n b hd
      obtain ⟨rest, rfl⟩ := hs
      exact ⟨hn, List.getElem?_append_left (List.getElem?_eq_some_iff.mp hb).1 ▸ hb⟩

theorem Told.mask_ne (h : r.Told stream) : r.mask ≠ .unset ∧ r.mask ≠ .write := by
  rcases h.mask with ⟨hm, -⟩ | hm <;> simp [hm]

/-! The mask tells the phase. -/

theorem Phase.of_unset (h : r.Phase stream) (hm : r.mask = .unset) :
    r.Untold ∧ r.conn.state = .init ∧ r.conn.sock.sent = [] := by
  cases h with
  | dialing hu _ hst hsent => exact ⟨hu, hst, hsent⟩
  | greeting _ hm' => simp [hm] at hm'
  | waiting _ hm' => simp [hm] at hm'
  | told ht => exact absurd hm ht.mask_ne.1

theorem Phase.of_write (h : r.Phase stream) (hm : r.mask = .write) :
    r.Untold ∧ r.conn.state = .handshake1 ∧ r.conn.sock.sent = [] := by
  cases h with
  | dialing _ hm' => simp [hm] at hm'
  | greeting hu _ hst hsent => exact ⟨hu, hst, hsent⟩
  | waiting _ hm' => simp [hm] at hm'
  | told ht => exact absurd hm ht.mask_ne.2

theorem Phase.of_read (h : r.Phase stream) (hm : r.mask = .read) :
    r.Told stream ∨ r.Untold ∧ r.conn.state = .handshake1 ∧ r.conn.sock.sent = r.hello ∧
      r.hello.length = GREETING_LEN := by
  cases h with
  | dialing _ hm' => simp [hm] at hm'
  | greeting _ hm' => simp [hm] at hm'
  | waiting hu _ hst hsent hlen => exact .inr ⟨hu, hst, hsent, hlen⟩
  | told ht => exact .inl ht

theorem Phase.of_connected (h : r.Phase stream) (hc : .connected ∈ r.conn.calls) :
    r.Told stream := by
  cases h with
  | dialing hu => exact absurd hc hu.calls
  | greeting hu => exact absurd hc hu.calls
  | waiting hu => exact absurd hc hu.calls
  | told ht => exact ht

/-- What has been received since and how the sends to come will end are no part of a phase. -/
theorem Phase.input (h : r.Phase stream) (ks : List SendRes) (rbuf : RBuf) (received : List UInt8) :
    Owned.Phase stream { r with
      conn := { r.conn with sock := ⟨ks, r.conn.sock.sent⟩ }
      intake := { r.intake with rbuf := rbuf, received := received } } := by
  cases h with
  | dialing hu hm hst hsent =>
    exact .dialing ⟨hu.calls, hu.greeted, hu.decoded, hu.consumed⟩ hm hst hsent
  | greeting hu hm hst hsent =>
    exact .greeting ⟨hu.calls, hu.greeted, hu.decoded, hu.consumed⟩ hm hst hsent
  | waiting hu hm hst hsent hlen =>
    exact .waiting ⟨hu.calls, hu.greeted, hu.decoded, hu.consumed⟩ hm hst hsent hlen
  | told ht =>
    exact .told ⟨ht.hello, ht.long, ht.greeted, ht.once, ht.sent, ht.consumed, ht.fresh, ht.first,
      ht.mask⟩

/-- A move of the owner once it has been told. -/
theorem Told.kept {r' : Owned} (h : r.Told stream) (hk : r.Kept r') : r'.Told stream where
  hello := hk.hello ▸ h.hello
  long := h.long
  greeted := by
    rw [hk.greeted, full, hk.hello]
    exact h.greeted
  once := hk.told.trans h.once
  sent := by
    rw [full, hk.hello]
    exact h.sent.trans hk.sent
  consumed := hk.resized.consumed ▸ h.consumed
  fresh hd := by
    rw [hk.resized.consumed]
    exact h.fresh (hk.decoded ▸ hd)
  first n b hd := h.first n b (hk.decoded ▸ hd)
  mask := Mask.phase_kept h.mask hk.mask hk.state

theorem Settled.kept {r' : Owned} (h : r.Settled stream) (ht : r.Told stream) (hk : r.Kept r') :
    r.Advances stream r' :=
  ⟨⟨hk.resized.sound h.sound, hk.resized.received ▸ h.received, .told (ht.kept hk)⟩, hk.sent⟩

/-- The decoder, called with something in the buffer, notes where it starts. -/
theorem Told.marked (h : r.Told stream) (hs : r.Settled stream) (h0 : r.intake.rbuf.cur ≠ 0) :
    Owned.Told stream { r with
      decoded := some (r.decoded.getD (r.intake.consumed.length, r.intake.rbuf.mem 0)) } :=
  { h with
    fresh := fun hnone => by simp at hnone
    first := fun _ _ hb => hs.sound.first hs.received h0 h.fresh h.first (Option.some.inj hb) }

/-- What the decoder has taken leaves the buffer. -/
theorem Told.shuffle (h : r.Told stream) (hs : r.Settled stream) (hd : r.decoded ≠ none)
    {taken : ℕ} (ht : taken ≤ r.intake.rbuf.cur) (chunkSz : ℕ) :
    Owned.Settled stream { r with intake := r.intake.shuffle chunkSz taken } := by
  refine ⟨hs.sound.shuffle ht, ?_, .told ?_⟩
  · rw [Intake.shuffle_received]
    exact hs.received
  · refine { h with consumed := ?_, fresh := fun hnone => absurd hnone hd }
    rw [Intake.shuffle_consumed, List.length_append]
    exact h.consumed.trans (Nat.le_add_right _ _)

/-- C0 and C1 go out whole, or the client waits for the socket. -/
theorem Settled.greet (hs : r.intake.Sound) (hr : r.intake.received <+: stream) (hu : r.Untold)
    (hm : r.mask = .write) (hst : r.conn.state = .handshake1) (hsent : r.conn.sock.sent = [])
    (hk : FullOrAgain FULL_LEN r.conn.sock.script) (rand : List UInt8) :
    (entered .handshake1 (r.handshake1 o rand)).1.Settled stream := by
  have hres := r.handshake1_resized o rand
  rw [← entered_intake .handshake1] at hres
  refine ⟨hres.sound hs, hres.received ▸ hr, ?_⟩
  unfold handshake1 rbufRequestSize at hres ⊢
  have h3073 : ¬ RTMP_HANDSHAKE_LEN * 2 + 1 = 0 := by decide
  rw [if_neg h3073] at hres ⊢
  dsimp only at hres ⊢
  generalize hbuf : ((Memory.ofList (3 :: rand) fun _ => 0).write 5 [0, 0, 7, 2]).bytes 0
    (RTMP_HANDSHAKE_LEN + 1) = buf at hres ⊢
  have hlen : buf.length = GREETING_LEN := by rw [← hbuf, Memory.bytes_length]; rfl
  unfold rtmpSendRaw rtmpSendRawBy at hres ⊢
  have hle : buf.length ≤ FULL_LEN := by
    rw [hlen]
    decide
  obtain ⟨ks, hsend, -⟩ | ⟨ks, hsend, -⟩ := sendRaw_fullOrAgain hk hle
  · simp only [hsend] at hres ⊢
    refine .waiting ⟨hu.calls, hu.greeted, hu.decoded, hres.consumed.trans hu.consumed⟩ rfl rfl ?_ hlen
    simp [entered, setState, hsent]
  · simp only [hsend] at hres ⊢
    refine .greeting ⟨hu.calls, hu.greeted, hu.decoded, hres.consumed.trans hu.consumed⟩ hm hst ?_
    simp [entered, hsent]

/-- With the response in the buffer, C2 goes out whole and the owner is told, or the client
waits for the socket with everything as it was. -/
theorem handshake1Resp_outcome (hs : r.intake.Sound) (hr : r.intake.received <+: stream)
    (hu : r.Untold) (hm : r.mask = .read) (hsent : r.conn.sock.sent = r.hello)
    (hlen : FULL_LEN ≤ r.intake.rbuf.cur) (hk : FullOrAgain FULL_LEN r.conn.sock.script) :
    (∃ ks, r.handshake1Resp o =
        ({ r with conn := { r.conn with sock := ⟨ks, r.conn.sock.sent⟩ } }, some 0)) ∨
      ∃ r' : Owned, r.handshake1Resp o = (r', some FULL_LEN) ∧ r.intake.Resized r'.intake ∧
        r'.hello = r.hello ∧ r'.greeted = some (r.full stream) ∧ r'.decoded = none ∧
        r'.conn.calls.count .connected = 1 ∧ r.full stream <+: r'.conn.sock.sent ∧
        (r'.mask = .read ∧ r'.conn.state = .handshake2 ∨ r'.mask = .deleted) := by
  have hblock := hs.block hr (p := 1) (n := RTMP_HANDSHAKE_LEN) (by
    rw [FULL_LEN] at hlen
    omega)
  rw [hu.consumed, List.length_nil, Nat.zero_add] at hblock
  have hall : ¬ r.intake.rbuf.cur < RTMP_HANDSHAKE_LEN * 2 + 1 := Nat.not_lt.mpr hlen
  unfold handshake1Resp handshake2 rtmpSendRaw rtmpSendRawBy
  rw [if_neg hall]
  generalize r.intake.rbuf.mem.bytes 1 RTMP_HANDSHAKE_LEN = buf at hblock
  have hbuf : buf.length ≤ FULL_LEN := by
    rw [hblock, List.length_take]
    exact (Nat.min_le_left _ _).trans (by decide)
  obtain ⟨ks, hsend, -⟩ | ⟨ks, hsend, -⟩ := sendRaw_fullOrAgain hk hbuf
  · right
    have h128 : ¬ RTMP_DEFAULT_CHUNK_SZ = 0 := by decide
    simp only [hsend, rbufRequestSize, if_neg h128, ready, entered, if_true]
    set r₁ : Owned := { r with
      chunkSz := RTMP_DEFAULT_CHUNK_SZ
      conn := { r.conn with sock := ⟨ks, r.conn.sock.sent ++ buf⟩ }
      intake := r.intake.requestSize RTMP_DEFAULT_CHUNK_SZ
      greeted := some (r.conn.sock.sent ++ buf) }
    have hacts := (keptRule o).perform (r₁.call .connected)
      (o.acts (r₁.call .connected).conn.calls)
    have hfull : r.conn.sock.sent ++ buf = r.full stream := by rw [hsent, hblock]; rfl
    refine ⟨_, rfl, (r.intake.resized_requestSize _).trans hacts.resized, hacts.hello,
      hacts.greeted.trans (congrArg some hfull), hacts.decoded.trans hu.decoded, ?_,
      hfull ▸ hacts.sent, ?_⟩
    · apply hacts.told.trans
      show List.count Call.connected (r.conn.calls ++ [Call.connected]) = 1
      rw [List.count_append, List.count_eq_zero.mpr hu.calls]
      rfl
    · exact hacts.mask.imp (fun h => ⟨h.trans hm, rfl⟩) id
  · left
    simp only [hsend, List.append_nil]
    exact ⟨ks, rfl⟩

end Owned

namespace Client

variable {o : Owner} {r : Client} {stream : List UInt8}

/-- A receive that delivers takes the front of what is still to come of the stream. -/
theorem fillRcvBuf_delivers {queue : List UInt8} {ans : Recv} (hd : ans.Delivers)
    {s : Client × List UInt8} (h : r.fillRcvBuf o queue ans = some s) :
    s.1.toOwned = r.toOwned ∨ ∃ len, (queue.take len).length ≤ r.intake.rbuf.space ∧
      s.1.toOwned = { r.toOwned with intake := r.intake.fill (queue.take len) } := by
  obtain heq | hfill | ⟨rfl, -⟩ | ⟨rfl, -⟩ := fillRcvBuf_cases h
  · exact .inl heq
  · exact .inr hfill
  · exact hd.elim
  · exact hd.elim

theorem fillRcvBuf_settled {ans : Recv} (hd : ans.Delivers) (h : r.Settled stream)
    {s : Client × List UInt8}
    (hfill : r.fillRcvBuf o (stream.drop r.intake.received.length) ans = some s) :
    r.Advances stream s.1.toOwned := by
  obtain hs | ⟨len, hlen, hs⟩ := fillRcvBuf_delivers hd hfill
  · rw [hs]
    exact ⟨h, List.prefix_refl _⟩
  · rw [hs]
    exact ⟨⟨h.sound.fill hlen, Intake.fill_prefix_of h.received len, h.phase.input _ _ _⟩,
      List.prefix_refl _⟩

/-- A round in front of the end of the handshake. -/
theorem pass_waiting {ans : Recv} (hd : ans.Delivers) (h : r.Settled stream) (hu : r.Untold)
    (hm : r.mask = .read) (hst : r.conn.state = .handshake1) (hsent : r.conn.sock.sent = r.hello)
    (hhello : r.hello.length = GREETING_LEN) (hk : FullOrAgain FULL_LEN r.conn.sock.script)
    {s : Client × List UInt8}
    (hpass : pass o (r, stream.drop r.intake.received.length) ans = some s) :
    r.Advances stream s.1.toOwned := by
  by_cases h0 : r.intake.rbuf.cur = 0
  · exact fillRcvBuf_settled hd h (by simpa [pass, rtmpDrainBuf, h0] using hpass)
  by_cases hlen : r.intake.rbuf.cur < RTMP_HANDSHAKE_LEN * 2 + 1
  · apply fillRcvBuf_settled (o := o) hd h
    simpa [pass, rtmpDrainBuf, h0, hst, Owned.handshake1Resp, hlen] using hpass
  have hfull : FULL_LEN ≤ r.intake.rbuf.cur := Nat.not_lt.mp hlen
  obtain ⟨ks, hresp⟩ | ⟨r', hresp, hres, hhello', hgreeted, hdecoded, honce, hsent', hmask⟩ :=
    Owned.handshake1Resp_outcome (o := o) h.sound h.received hu hm hsent hfull hk
  · simp only [pass, rtmpDrainBuf, if_neg h0, hst, hresp, if_true] at hpass
    obtain rfl := Option.some.inj hpass
    exact ⟨⟨h.sound, h.received, .waiting ⟨hu.calls, hu.greeted, hu.decoded, hu.consumed⟩ hm rfl
      hsent hhello⟩, List.prefix_refl _⟩
  · simp only [pass, rtmpDrainBuf, if_neg h0, hst, hresp] at hpass
    rw [if_neg (by decide), if_neg (by rw [hres.cur]; exact Nat.not_lt.mpr hfull)] at hpass
    obtain rfl := Option.some.inj hpass
    have hs' := hres.sound h.sound
    have hlong : FULL_LEN ≤ stream.length := by
      have hl := h.sound.length
      have hle := h.received.length_le
      rw [hu.consumed, List.length_nil] at hl
      omega
    have hgrows : r.conn.sock.sent <+: r'.conn.sock.sent := by
      rw [hsent]
      exact (List.prefix_append _ _).trans hsent'
    refine ⟨⟨hs'.shuffle (by rw [hres.cur]; exact hfull), ?_, .told ?_⟩, hgrows⟩
    · rw [Intake.shuffle_received, hres.received]
      exact h.received
    · have hcons : (r'.intake.shuffle r'.chunkSz FULL_LEN).consumed.length = FULL_LEN := by
        rw [Intake.shuffle_consumed, hres.consumed, hu.consumed, List.nil_append,
          Memory.bytes_length]
      have hf : r'.full stream = r.full stream := by rw [Owned.full, Owned.full, hhello']
      exact ⟨hhello' ▸ hhello, hlong, hgreeted.trans (congrArg some hf.symm), honce,
        hf ▸ hsent', hcons.ge, fun _ => hcons, fun n b hb => by simp [hdecoded] at hb, hmask⟩

theorem accept_kept (r : Client) (m : Memory) :
    r.toOwned.Kept ((endpoint o).accept r m).toOwned := by
  rw [accept_toOwned]
  cases completed r.chunkSz m r.chan with
  | none => exact .refl _
  | some msg => exact (Owned.keptRule o).rtmpDispatch (fun r sz => r.rbufRequestSize_kept sz) _ msg

/-- A round behind the handshake. -/
theorem pass_told {ans : Recv} (hd : ans.Delivers) (h : r.Settled stream) (ht : r.Told stream)
    (hm : r.mask = .read) {s : Client × List UInt8}
    (hpass : pass o (r, stream.drop r.intake.received.length) ans = some s) :
    r.Advances stream s.1.toOwned := by
  have hst : r.conn.state = .handshake2 := by
    rcases ht.mask with ⟨-, hst⟩ | hdel
    · exact hst
    · rw [hm] at hdel
      cases hdel
  by_cases h0 : r.intake.rbuf.cur = 0
  · exact fillRcvBuf_settled hd h (by simpa [pass, rtmpDrainBuf, h0] using hpass)
  -- the first call of the decoder starts with the byte behind the handshake of the server
  obtain ⟨r₁, hr₁, h₁, ht₁⟩ : ∃ r₁ : Client, r₁ = { r with
      decoded := some (r.decoded.getD (r.intake.consumed.length, r.intake.rbuf.mem 0)) } ∧
      r₁.Settled stream ∧ r₁.Told stream := by
    have ht₁ := ht.marked h h0
    exact ⟨_, rfl, ⟨h.sound, h.received, .told ht₁⟩, ht₁⟩
  have hdecode : r.rtmpDrainBuf o =
      some ((endpoint o).decodeRtmp r₁ r₁.intake.rbuf.mem r₁.intake.rbuf.cur) := by
    simp only [rtmpDrainBuf, if_neg h0, hst, decodeRtmp, hr₁]
  have hintake : r₁.intake = r.intake := by rw [hr₁]
  rw [Endpoint.decodeRtmp_eq _ (by rw [hintake]; omega)] at hdecode
  split_ifs at hdecode with hshort
  · simp only [pass, hdecode] at hpass
    rw [← hintake] at hpass
    have hwait : ∀ tbl, ((endpoint o).setChan r₁ tbl).fillRcvBuf o
        (stream.drop r₁.intake.received.length) ans = some s → r₁.Advances stream s.1.toOwned :=
      fun tbl => fillRcvBuf_settled (r := (endpoint o).setChan r₁ tbl) hd h₁
    obtain ⟨hset, hgrows⟩ := hwait _ hpass
    rw [hr₁] at hgrows
    exact ⟨hset, hgrows⟩
  · have hkept := accept_kept (o := o) r₁ r₁.intake.rbuf.mem
    obtain ⟨hset, hgrows⟩ := h₁.kept ht₁ hkept
    have hpos := chunkEnd_pos r₁.chunkSz r₁.intake.rbuf.mem r₁.chan
    have hcur : chunkEnd r₁.chunkSz r₁.intake.rbuf.mem r₁.chan ≤
        ((endpoint o).accept r₁ r₁.intake.rbuf.mem).intake.rbuf.cur := by
      rw [hkept.resized.cur]
      exact Nat.not_lt.mp hshort
    simp only [pass, hdecode] at hpass
    rw [if_neg (by exact Nat.ne_of_gt hpos), if_neg (by exact Nat.not_lt.mpr hcur)] at hpass
    obtain rfl := Option.some.inj hpass
    have hdecoded : ((endpoint o).accept r₁ r₁.intake.rbuf.mem).decoded ≠ none := by
      rw [hkept.decoded, hr₁]
      simp
    rw [hr₁] at hgrows
    refine ⟨(ht₁.kept hkept).shuffle hset hdecoded hcur _, ?_⟩
    rw [hr₁]
    exact hgrows

end Client
end Mayhem
