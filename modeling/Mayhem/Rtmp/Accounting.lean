import Mayhem.Lib.Run
import Mayhem.Rtmp.Moves

/-! The accounts of the client's receive buffer over whole runs. The owner and the messages
can ask for another size and nothing else; only a receive and the end of `rtmp_pump` move
bytes. -/
namespace Mayhem

/-- The same bytes in a buffer of perhaps another size. -/
structure Intake.Resized (b b' : Intake) : Prop where
  sound : b.Sound → b'.Sound
  cur : b'.rbuf.cur = b.rbuf.cur
  consumed : b'.consumed = b.consumed
  received : b'.received = b.received

theorem Intake.Resized.refl (b : Intake) : b.Resized b := ⟨id, rfl, rfl, rfl⟩

theorem Intake.Resized.of_eq {b b' : Intake} (h : b' = b) : b.Resized b' := h ▸ .refl b

theorem Intake.Resized.trans {a b c : Intake} (hab : a.Resized b) (hbc : b.Resized c) :
    a.Resized c :=
  ⟨hbc.sound ∘ hab.sound, hbc.cur.trans hab.cur, hbc.consumed.trans hab.consumed,
    hbc.received.trans hab.received⟩

theorem Intake.resized_requestSize (b : Intake) (sz : ℕ) : b.Resized (b.requestSize sz) :=
  ⟨fun h => h.requestSize sz, b.requestSize_cur sz, b.requestSize_consumed sz,
    b.requestSize_received sz⟩

theorem Intake.Resized.contents {b b' : Intake} (h : b.Resized b') (hs : b.Sound) :
    b'.rbuf.contents = b.rbuf.contents := by
  have hbytes := (h.sound hs).bytes
  rw [h.consumed, h.received, ← hs.bytes] at hbytes
  exact List.append_cancel_left hbytes

namespace Owned

variable (o : Owner) (r : Owned)

theorem intakeMoves : Moves fun r r' => r'.intake = r.intake where
  refl _ := rfl
  trans h h' := h'.trans h
  pops _ := rfl
  offers _ _ := rfl
  enters _ _ _ _ := rfl
  leaves _ := rfl
  closes _ := rfl

@[simp] theorem reset_intake (state : ConnState) : (r.reset o state).intake = r.intake :=
  intakeMoves.reset r state

@[simp] theorem rtmpSendRaw_intake (buf : List UInt8) :
    (r.rtmpSendRaw o buf).1.intake = r.intake :=
  intakeMoves.plans.sends r buf

theorem resizedRule : Rule o fun r r' => r.intake.Resized r'.intake where
  refl _ := .refl _
  trans := .trans
  notes _ _ _ := .refl _
  sends r buf := .of_eq (r.rtmpSendRaw_intake o buf)
  closes _ := .refl _

theorem rbufRequestSize_resized (sz : ℕ) :
    r.intake.Resized (r.rbufRequestSize o sz).1.intake := by
  unfold rbufRequestSize
  split_ifs
  · exact .of_eq (r.reset_intake o _)
  · exact r.intake.resized_requestSize sz

theorem entered_intake (state : ConnState) (res : Owned × Bool) :
    (entered state res).1.intake = res.1.intake := by
  unfold entered
  split_ifs <;> rfl

theorem ready_resized : r.intake.Resized (r.ready o).1.intake := by
  have hacts := (resizedRule o).perform
    ({ r with greeted := some r.conn.sock.sent }.call .connected)
  exact hacts _

theorem handshake1_resized (rand : List UInt8) :
    r.intake.Resized (r.handshake1 o rand).1.intake := by
  unfold handshake1
  have hreq := r.rbufRequestSize_resized o (RTMP_HANDSHAKE_LEN * 2 + 1)
  cases hres : r.rbufRequestSize o (RTMP_HANDSHAKE_LEN * 2 + 1) with
  | mk r₁ ok =>
    rw [hres] at hreq
    cases ok with
    | false => exact hreq
    | true =>
      dsimp only
      set buf := ((Memory.ofList (3 :: rand) fun _ => 0).write 5 [0, 0, 7, 2]).bytes 0
        (RTMP_HANDSHAKE_LEN + 1)
      have hraw := rtmpSendRaw_intake o { r₁ with hello := buf } buf
      cases hsend : rtmpSendRaw o { r₁ with hello := buf } buf with
      | mk r₂ ok =>
        rw [hsend] at hraw
        cases ok <;> exact hreq.trans (.of_eq hraw)

theorem handshake2_resized : r.intake.Resized (r.handshake2 o).1.intake := by
  unfold handshake2
  have hraw := r.rtmpSendRaw_intake o (r.intake.rbuf.mem.bytes 1 RTMP_HANDSHAKE_LEN)
  cases hsend : r.rtmpSendRaw o (r.intake.rbuf.mem.bytes 1 RTMP_HANDSHAKE_LEN) with
  | mk r₁ ok =>
    rw [hsend] at hraw
    cases ok with
    | false => exact .of_eq hraw
    | true =>
      dsimp only
      have hreq := r₁.rbufRequestSize_resized o RTMP_DEFAULT_CHUNK_SZ
      cases hres : r₁.rbufRequestSize o RTMP_DEFAULT_CHUNK_SZ with
      | mk r₂ ok =>
        rw [hres] at hreq
        have hto := (Intake.Resized.of_eq hraw).trans hreq
        cases ok with
        | false => exact hto
        | true =>
          dsimp only
          rw [entered_intake]
          exact hto.trans (r₂.ready_resized o)

theorem transition_resized {rand : List UInt8} {state : ConnState} {res : Owned × Bool}
    (h : r.transition o rand state = some res) : r.intake.Resized res.1.intake := by
  cases state with
  | init => cases h
  | abort =>
    obtain rfl := Option.some.inj h
    exact .of_eq (r.reset_intake o _)
  | connReset =>
    obtain rfl := Option.some.inj h
    exact .of_eq (r.reset_intake o _)
  | handshake1 =>
    obtain rfl := Option.some.inj h
    rw [entered_intake]
    exact r.handshake1_resized o rand
  | handshake2 =>
    obtain rfl := Option.some.inj h
    rw [entered_intake]
    exact r.handshake2_resized o
  | ready =>
    obtain rfl := Option.some.inj h
    rw [entered_intake]
    exact r.ready_resized o

/-- The response is only taken when it is all there. -/
theorem handshake1Resp_spec : r.intake.Resized (r.handshake1Resp o).1.intake ∧
    ∀ taken ∈ (r.handshake1Resp o).2, taken ≤ r.intake.rbuf.cur := by
  unfold handshake1Resp
  by_cases hlen : r.intake.rbuf.cur < RTMP_HANDSHAKE_LEN * 2 + 1
  · rw [if_pos hlen]
    exact ⟨.refl _, by simp⟩
  · rw [if_neg hlen]
    have hto := r.handshake2_resized o
    rw [← entered_intake .handshake2] at hto
    cases hres : entered .handshake2 (r.handshake2 o) with
    | mk r₁ ok =>
      rw [hres] at hto
      cases ok with
      | false => exact ⟨hto, by simp⟩
      | true => exact ⟨hto, by simpa using hlen⟩

end Owned

namespace Client

open Relation

variable {o : Owner} {r : Client} {queue : List UInt8}

theorem accept_toOwned (r : Client) (m : Memory) :
    ((endpoint o).accept r m).toOwned =
      match completed r.chunkSz m r.chan with
      | none => r.toOwned
      | some msg => r.toOwned.rtmpDispatch o msg := by
  unfold Endpoint.accept completed
  dsimp only [endpoint]
  split_ifs <;> rfl

theorem accept_resized (r : Client) (m : Memory) :
    r.intake.Resized ((endpoint o).accept r m).intake := by
  rw [accept_toOwned]
  cases completed r.chunkSz m r.chan with
  | none => exact .refl _
  | some msg =>
    exact (Owned.resizedRule o).rtmpDispatch (fun r sz => r.rbufRequestSize_resized o sz) _ msg

/-- `decode_rtmp` never takes more than it was given. -/
theorem decodeRtmp_spec (hcur : r.intake.rbuf.cur ≠ 0) :
    r.intake.Resized (r.decodeRtmp o).1.intake ∧
      ∀ taken ∈ (r.decodeRtmp o).2, taken ≤ r.intake.rbuf.cur := by
  unfold decodeRtmp
  set r₁ : Client :=
    { r with decoded := some (r.decoded.getD (r.intake.consumed.length, r.intake.rbuf.mem 0)) }
  have haccept := accept_resized (o := o) r₁ r₁.intake.rbuf.mem
  dsimp only
  rw [Endpoint.decodeRtmp_eq _ (Nat.one_le_iff_ne_zero.mpr hcur)]
  split_ifs with hshort
  · exact ⟨.refl _, by simp⟩
  · exact ⟨haccept, by simpa using hshort⟩

theorem drain_spec {r' : Client} {ret : Option ℕ} (h : r.rtmpDrainBuf o = some (r', ret)) :
    r.intake.Resized r'.intake ∧ ∀ taken ∈ ret, taken ≤ r'.intake.rbuf.cur := by
  suffices hto : r.intake.Resized r'.intake ∧ ∀ taken ∈ ret, taken ≤ r.intake.rbuf.cur by
    rwa [← hto.1.cur] at hto
  unfold rtmpDrainBuf at h
  split_ifs at h with hcur
  · obtain ⟨rfl, rfl⟩ := Prod.mk.inj (Option.some.inj h)
    exact ⟨.refl _, by simp⟩
  cases hst : r.conn.state with
  | init => simp [hst] at h
  | abort => simp [hst] at h
  | connReset => simp [hst] at h
  | handshake1 =>
    simp only [hst] at h
    obtain ⟨rfl, rfl⟩ := Prod.mk.inj (Option.some.inj h)
    exact r.handshake1Resp_spec o
  | handshake2 =>
    simp only [hst] at h
    have hto := decodeRtmp_spec (o := o) hcur
    rwa [Option.some.inj h] at hto
  | ready =>
    simp only [hst] at h
    have hto := decodeRtmp_spec (o := o) hcur
    rwa [Option.some.inj h] at hto

/-- A receive puts the front of the queue into the buffer, or leaves the record alone, or resets
the connection. -/
theorem fillRcvBuf_cases {ans : Recv} {s : Client × List UInt8}
    (h : r.fillRcvBuf o queue ans = some s) :
    s.1.toOwned = r.toOwned ∨
      (∃ len, (queue.take len).length ≤ r.intake.rbuf.space ∧
        s.1.toOwned = { r.toOwned with intake := r.intake.fill (queue.take len) }) ∨
      ans = .fails ∧ s.1.toOwned = r.reset o .abort ∨
      ans = .eof ∧ s.1.toOwned = r.reset o .connReset := by
  by_cases hspace : r.intake.rbuf.space = 0
  · simp [fillRcvBuf, hspace] at h
  cases ans with
  | upTo n =>
    by_cases hq : queue = []
    · simp only [fillRcvBuf, if_neg hspace, if_pos hq] at h
      obtain rfl := Option.some.inj h
      exact .inl rfl
    · simp only [fillRcvBuf, if_neg hspace, if_neg hq] at h
      obtain rfl := Option.some.inj h
      refine .inr (.inl ⟨_, ?_, rfl⟩)
      rw [List.length_take]
      omega
  | again =>
    simp only [fillRcvBuf, if_neg hspace] at h
    obtain rfl := Option.some.inj h
    exact .inl rfl
  | fails =>
    simp only [fillRcvBuf, if_neg hspace] at h
    obtain rfl := Option.some.inj h
    exact .inr (.inr (.inl ⟨rfl, rfl⟩))
  | eof =>
    simp only [fillRcvBuf, if_neg hspace] at h
    obtain rfl := Option.some.inj h
    exact .inr (.inr (.inr ⟨rfl, rfl⟩))

theorem fillRcvBuf_sound {ans : Recv} {s : Client × List UInt8} (hs : r.intake.Sound)
    (h : r.fillRcvBuf o queue ans = some s) : s.1.intake.Sound := by
  obtain heq | ⟨len, hlen, heq⟩ | ⟨-, heq⟩ | ⟨-, heq⟩ := fillRcvBuf_cases h
  · rwa [heq]
  · rw [heq]
    exact hs.fill hlen
  · rwa [heq, Owned.reset_intake]
  · rwa [heq, Owned.reset_intake]

theorem pass_sound {ans : Recv} {s' : Client × List UInt8} (hs : r.intake.Sound)
    (h : pass o (r, queue) ans = some s') : s'.1.intake.Sound := by
  unfold pass at h
  cases hdrain : r.rtmpDrainBuf o with
  | none => simp [hdrain] at h
  | some res =>
    obtain ⟨r', ret⟩ := res
    obtain ⟨hto, htaken⟩ := drain_spec hdrain
    have hs' := hto.sound hs
    cases ret with
    | none =>
      simp only [hdrain] at h
      exact fillRcvBuf_sound hs' h
    | some taken =>
      simp only [hdrain] at h
      split_ifs at h
      · obtain rfl := Option.some.inj h
        exact hs'
      · obtain rfl := Option.some.inj h
        exact hs'.shuffle (htaken taken rfl)

theorem handle_sound {e : Event} {s s' : Client × List UInt8} (hs : s.1.intake.Sound)
    (h : handle o s e = some s') : s'.1.intake.Sound := by
  cases e with
  | arrive bs =>
    obtain rfl := Option.some.inj h
    exact hs
  | connect rand =>
    obtain rfl := Option.some.inj h
    unfold connCb
    split_ifs
    · exact hs
    · have hto := Owned.handshake1_resized o
        { s.1.setState .handshake1 with mask := .write } rand
      rw [← Owned.entered_intake .handshake1] at hto
      exact hto.sound hs
  | write rand =>
    obtain ⟨r', hr', rfl⟩ := Option.map_eq_some_iff.mp h
    obtain ⟨res, hres, rfl⟩ := Option.map_eq_some_iff.mp hr'
    exact (s.1.transition_resized o hres).sound hs
  | read ans => exact pass_sound hs h
  | act plan =>
    obtain rfl := Option.some.inj h
    exact ((Owned.resizedRule o).perform s.1.toOwned plan).sound hs

/-- A connection as `rtmp_connect` leaves it. `heap` and `stack` are what uninitialised
memory will hold. -/
def dialed (heap stack : List Memory) : Client where
  conn := { stack := stack }
  intake := { rbuf := { heap := heap } }

/-- In every run the allocation is as long as what is in the buffer and the space behind it,
no message is longer than what is in the buffer, and what was consumed and what is in the
buffer are together the bytes received. -/
theorem accounting {heap stack : List Memory} {s : Client × List UInt8}
    (hrun : ReflTransGen (Step o) (dialed heap stack, []) s) :
    s.1.intake.alloc = s.1.intake.rbuf.cur + s.1.intake.rbuf.space ∧
      (∀ (ks : List SendRes) (r' : Client) (taken : ℕ),
        (s.1.answer ks).rtmpDrainBuf o = some (r', some taken) → taken ≤ r'.intake.rbuf.cur) ∧
      s.1.intake.consumed ++ s.1.intake.rbuf.contents = s.1.intake.received := by
  have hs : s.1.intake.Sound := by
    induction hrun with
    | refl => exact Intake.sound_empty heap
    | tail _ hstep ih =>
      obtain ⟨e, ks, -, hhandle⟩ := hstep
      exact handle_sound (s := (Client.answer _ ks, _)) ih hhandle
  exact ⟨hs.size, fun ks r' taken hdrain => (drain_spec hdrain).2 taken rfl, hs.bytes⟩

theorem events_run {s s' : Client × List UInt8} {as : List (Event × List SendRes)}
    (h : Run.exec (fun s a => if s.1.Enabled a.1 then happen o s a else none) s as = some s') :
    ReflTransGen (Step o) s s' := by
  have hrun : Run.Along (fun s a => s.1.Enabled a.1) (happen o) s s' := Run.along_of_exec h
  refine ReflTransGen.mono ?_ _ _ hrun
  rintro s _ ⟨a, hen, hs⟩
  exact ⟨a.1, a.2, hen, hs⟩

/-- The handshake, and in one receive a chunk size of 4096, one of 64 and the front of a third
message. -/
def resizing : List (Event × List SendRes) :=
  [(.connect [], []), (.arrive (List.replicate (RTMP_HANDSHAKE_LEN * 2 + 1) 3), []),
    (.read (.upTo 4999), []), (.read .again, []),
    (.arrive ([2, 0, 0, 0, 0, 0, 4, RTMP_MSG_CHUNK_SZ, 0, 0, 0, 0, 0, 0, 16, 0] ++
      [2, 0, 0, 0, 0, 0, 4, RTMP_MSG_CHUNK_SZ, 0, 0, 0, 0, 0, 0, 0, 64] ++ [3, 0, 0, 1, 0]), []),
    (.read (.upTo 4999), []), (.read .again, []), (.read .again, [])]

theorem accounting_resizing : ∃ s : Client × List UInt8,
    ReflTransGen (Step .silent) (dialed [] [], []) s ∧ s.1.intake.received.length = 3110 ∧
      s.1.intake.consumed.length = 3105 ∧ s.1.intake.alloc = 64 + RTMP_HDR_MAX_SZ ∧
      s.1.intake.alloc = s.1.intake.rbuf.cur + s.1.intake.rbuf.space ∧
      (∀ (ks : List SendRes) (r' : Client) (taken : ℕ),
        (s.1.answer ks).rtmpDrainBuf .silent = some (r', some taken) →
          taken ≤ r'.intake.rbuf.cur) ∧
      s.1.intake.consumed ++ s.1.intake.rbuf.contents = s.1.intake.received := by
  have hends : (Run.exec (fun s a => if s.1.Enabled a.1 then happen .silent s a else none)
      (dialed [] [], []) resizing).map
        (fun s => (s.1.intake.received.length, s.1.intake.consumed.length, s.1.intake.alloc)) =
          some (3110, 3105, 64 + RTMP_HDR_MAX_SZ) := by decide +kernel
  obtain ⟨s, hs, hkept⟩ := Option.map_eq_some_iff.mp hends
  obtain ⟨hreceived, hkept⟩ := Prod.mk.inj hkept
  obtain ⟨hconsumed, halloc⟩ := Prod.mk.inj hkept
  have hrun := events_run hs
  exact ⟨s, hrun, hreceived, hconsumed, halloc, accounting hrun⟩

end Client
end Mayhem
