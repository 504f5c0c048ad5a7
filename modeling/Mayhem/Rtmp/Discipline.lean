import Mathlib.Data.List.Chain
import Mayhem.Rtmp.Accounting

/-! The order in which the client goes through its states. `transition` stores its state
behind the nested calls, whatever these have stored: HANDSHAKE_2 over the READY of the call
inside, and either of the two ways to reset over the other. -/
namespace Mayhem

/-- How `transition` resets the connection on a send that is answered like this. -/
def SendRes.fatal : SendRes → Option ConnState
  | .fails => some .abort
  | .accepts 0 => some .connReset
  | _ => none

namespace ConnState

def Dead (s : ConnState) : Prop := s = .abort ∨ s = .connReset

instance (s : ConnState) : Decidable s.Dead := inferInstanceAs (Decidable (_ ∨ _))

def rank : ConnState → ℕ
  | .handshake1 => 1
  | .handshake2 => 2
  | .ready => 3
  | _ => 0

/-- `s'` may be stored over `s`: along the handshake, or into a reset, which is absorbing. -/
def Forward (s s' : ConnState) : Prop := s = s' ∨ ¬ s.Dead ∧ (s'.Dead ∨ s.rank < s'.rank)

instance (s s' : ConnState) : Decidable (s.Forward s') := inferInstanceAs (Decidable (_ ∨ _))

end ConnState

/-- A send resets the connection as one of the answers of the kernel says. -/
theorem sendRaw_answers (ks : List SendRes) (buf : List UInt8) :
    (sendRaw ks buf).2.1 ⊆ ks ∧
      ∀ s, (sendRaw ks buf).1.fatal = some s → ∃ k ∈ ks, k.fatal = some s := by
  fun_induction sendRaw ks buf with
  | case1 ks => simp [SendEnd.fatal]
  | case2 buf _ => simp [SendEnd.fatal]
  | case3 ks buf _ => simp [SendEnd.fatal, SendRes.fatal]
  | case4 n ks buf _ e ks' out hres ih =>
    obtain ⟨hsub, hfatal⟩ := ih
    rw [hres] at hsub hfatal
    refine ⟨List.subset_cons_of_subset _ hsub, fun s hs => ?_⟩
    obtain ⟨k, hk, hks⟩ := hfatal s hs
    exact ⟨k, List.mem_cons_of_mem _ hk, hks⟩
  | case5 ks buf _ => simp [SendEnd.fatal]
  | case6 ks buf _ => simp [SendEnd.fatal, SendRes.fatal]

theorem SendEnd.fatal_dead {e : SendEnd} {s : ConnState} (h : e.fatal = some s) : s.Dead := by
  cases e with
  | sent => cases h
  | blocked => cases h
  | failed => exact .inl (Option.some.inj h).symm
  | closed => exact .inr (Option.some.inj h).symm

namespace Owned

/-- What is asked of the states of a connection. -/
structure Disciplined (r : Owned) : Prop where
  last : (ConnState.init :: r.stores).getLast? = some r.conn.state
  forward : (ConnState.init :: r.stores).IsChain ConnState.Forward
  ready : .connected ∈ r.conn.calls → r.conn.connReset = false → r.conn.state = .ready

/-- The sends to come reset the connection in no other way than `st`, nor has it been. -/
def Agrees (st : ConnState) (r : Owned) : Prop :=
  (∀ k ∈ r.conn.sock.script, ∀ x ∈ k.fatal, x = st) ∧ (r.conn.state.Dead → r.conn.state = st)

/-- The states of a connection that has not been through the handshake. -/
structure Before (r : Owned) : Prop where
  last : (ConnState.init :: r.stores).getLast? = some r.conn.state
  forward : (ConnState.init :: r.stores).IsChain ConnState.Forward
  untold : .connected ∉ r.conn.calls

/-- Outside of `transition` the mask fits the state. -/
structure Early (r : Owned) : Prop extends Before r where
  unset : r.mask = .unset → r.conn.state = .init
  waits : r.mask = .read ∨ r.mask = .write → r.conn.state = .handshake1

theorem Early.disciplined {r : Owned} (h : r.Early) : r.Disciplined :=
  ⟨h.last, h.forward, fun hcon => absurd hcon h.untold⟩

variable {o : Owner} {r : Owned} {st : ConnState}

theorem Before.stored (h : r.Before) {s : ConnState} (hs : r.conn.state.Forward s) :
    (r.setState s).Before := by
  have hcons : ConnState.init :: (r.setState s).stores = (.init :: r.stores) ++ [s] := rfl
  refine ⟨?_, ?_, h.untold⟩
  · rw [hcons]
    exact List.getLast?_concat
  · rw [hcons]
    refine h.forward.append (.singleton s) fun x hx y hy => ?_
    obtain rfl := Option.some.inj (h.last.symm.trans hx)
    obtain rfl := Option.some.inj hy
    exact hs

/-- A transition to the one state that is left. -/
theorem Before.enter (h : r.Before) (ha : r.Agrees st) (hst : st.Dead) :
    (r.enter st).Before ∧ (r.enter st).Agrees st := by
  have hfwd : r.conn.state.Forward st := by
    by_cases hdead : r.conn.state.Dead
    · exact .inl (ha.2 hdead)
    · exact .inr ⟨hdead, .inl hst⟩
  have hstored := h.stored hfwd
  refine ⟨⟨hstored.last, hstored.forward, ?_⟩, ha.1, fun _ => rfl⟩
  have hcalls : (r.enter st).conn.calls = r.conn.calls ++ [.connReset st] := rfl
  simpa [hcalls] using h.untold

theorem Agrees.offer (h : r.Agrees st) (buf : List UInt8) : (r.offer buf).Agrees st :=
  ⟨fun k hk => h.1 k ((sendRaw_answers _ _).1 hk), h.2⟩

theorem Agrees.fatal (h : r.Agrees st) {buf : List UInt8} {s : ConnState}
    (hs : (sendRaw r.conn.sock.script buf).1.fatal = some s) : s = st := by
  obtain ⟨k, hk, hks⟩ := (sendRaw_answers _ _).2 s hs
  exact h.1 k hk s hks

/-- Nothing that happens inside of a transition takes the connection through the handshake. -/
theorem beforeMoves (st : ConnState) :
    Moves fun r r' => r.Before ∧ r.Agrees st → r'.Before ∧ r'.Agrees st where
  refl _ := id
  trans hab hbc := hbc ∘ hab
  pops _ h := ⟨⟨h.1.last, h.1.forward, h.1.untold⟩, h.2⟩
  offers _ buf h := ⟨⟨h.1.last, h.1.forward, h.1.untold⟩, h.2.offer buf⟩
  enters r buf s hs h := by
    obtain rfl := h.2.fatal hs
    have hoffer : (r.offer buf).Before := ⟨h.1.last, h.1.forward, h.1.untold⟩
    exact hoffer.enter (h.2.offer buf) (SendEnd.fatal_dead hs)
  leaves _ h := ⟨⟨h.1.last, h.1.forward, h.1.untold⟩, h.2⟩
  closes _ h := ⟨⟨h.1.last, h.1.forward, h.1.untold⟩, h.2⟩

theorem Early.reset (h : r.Early) (ha : r.Agrees st) (hst : st.Dead) :
    (r.reset o st).Early ∧ (r.reset o st).Agrees st := by
  obtain ⟨hbefore, hagrees⟩ := (beforeMoves st).reset (o := o) r st (h.toBefore.enter ha hst)
  have hmask : (r.reset o st).mask = .deleted := rfl
  exact ⟨⟨hbefore, by simp [hmask], by simp [hmask]⟩, hagrees⟩

theorem Early.rtmpSendRaw (h : r.Early) (ha : r.Agrees st) (buf : List UInt8) :
    (r.rtmpSendRaw o buf).1.Early ∧ (r.rtmpSendRaw o buf).1.Agrees st := by
  have hoffer : (r.offer buf).Early := ⟨⟨h.last, h.forward, h.untold⟩, h.unset, h.waits⟩
  unfold Owned.rtmpSendRaw
  obtain ⟨-, hres⟩ | ⟨-, hres⟩ | ⟨s, hs, hres⟩ := r.rtmpSendRawBy_cases (Owned.reset o) buf
  · rw [hres]
    exact ⟨hoffer, ha.offer buf⟩
  · rw [hres]
    exact ⟨hoffer, ha.offer buf⟩
  · rw [hres]
    obtain rfl := ha.fatal hs
    exact hoffer.reset (ha.offer buf) (SendEnd.fatal_dead hs)

/-- Nothing the owner does takes the connection through the handshake. -/
theorem earlyRule (o : Owner) (st : ConnState) :
    Rule o fun r r' => r.Early ∧ r.Agrees st → r'.Early ∧ r'.Agrees st where
  refl _ := id
  trans hab hbc := hbc ∘ hab
  notes r l hl h := by
    obtain ⟨cs, hcalls, hcs, -⟩ := hl.calls
    have hunt : .connected ∉ l.conn.calls := by
      rw [hcalls, List.mem_append]
      exact fun hmem => hmem.elim h.1.untold hcs
    refine ⟨⟨⟨?_, h.1.forward, hunt⟩, ?_, ?_⟩, ?_⟩
    · exact h.1.last.trans (congrArg some hl.state.symm)
    · exact fun hm => hl.state.trans (h.1.unset hm)
    · exact fun hm => hl.state.trans (h.1.waits hm)
    · unfold Agrees
      rw [hl.sock, hl.state]
      exact h.2
  sends r buf h := h.1.rtmpSendRaw h.2 buf
  closes r h :=
    ⟨⟨⟨h.1.last, h.1.forward, h.1.untold⟩, by simp [rtmpClose], by simp [rtmpClose]⟩, h.2⟩

/-- A send that goes through leaves the state alone. -/
theorem rtmpSendRaw_true {r' : Owned} {buf : List UInt8} (h : r.rtmpSendRaw o buf = (r', true)) :
    (sendRaw r.conn.sock.script buf).1 = .sent ∧ r'.conn.state = r.conn.state ∧
      r'.stores = r.stores := by
  unfold Owned.rtmpSendRaw at h
  obtain ⟨hsent, hres⟩ | ⟨-, hres⟩ | ⟨s, -, hres⟩ := r.rtmpSendRawBy_cases (Owned.reset o) buf
  · rw [hres] at h
    obtain ⟨rfl, -⟩ := Prod.mk.inj h
    exact ⟨hsent, rfl, rfl⟩
  · simp [hres] at h
  · simp [hres] at h

/-- The first part of the handshake, whether or not it goes through. -/
theorem Early.handshake1 (h : r.Early) (ha : r.Agrees st) (hst : r.conn.state = .handshake1)
    (rand : List UInt8) : (entered .handshake1 (r.handshake1 o rand)).1.Early := by
  unfold Owned.handshake1 rbufRequestSize
  have h3073 : ¬ RTMP_HANDSHAKE_LEN * 2 + 1 = 0 := by decide
  rw [if_neg h3073]
  dsimp only
  set buf := ((Memory.ofList (3 :: rand) fun _ => 0).write 5 [0, 0, 7, 2]).bytes 0
    (RTMP_HANDSHAKE_LEN + 1)
  set r₁ : Owned := { r with
    chunkSz := RTMP_HANDSHAKE_LEN * 2 + 1
    intake := r.intake.requestSize (RTMP_HANDSHAKE_LEN * 2 + 1)
    hello := buf }
  have h₁ : r₁.Early := ⟨⟨h.last, h.forward, h.untold⟩, h.unset, h.waits⟩
  have hraw : (r₁.rtmpSendRaw o buf).1.Early ∧ (r₁.rtmpSendRaw o buf).1.Agrees st :=
    h₁.rtmpSendRaw ha buf
  cases hsend : r₁.rtmpSendRaw o buf with
  | mk r₂ ok =>
    rw [hsend] at hraw
    cases ok with
    | false => exact hraw.1
    | true =>
      have hst₂ : r₂.conn.state = .handshake1 := (rtmpSendRaw_true hsend).2.1.trans hst
      have hstored := hraw.1.stored (s := .handshake1) (.inl hst₂)
      exact ⟨⟨hstored.last, hstored.forward, hstored.untold⟩, by simp [entered, setState],
        fun _ => rfl⟩

end Owned

namespace Client

open Relation

/-- The coming round completes the handshake: the response of the server is all there, and
the kernel takes the whole of the answer. -/
def Completes (r : Client) (e : Event) (ks : List SendRes) : Prop :=
  (∃ ans, e = .read ans) ∧ r.conn.state = .handshake1 ∧
    RTMP_HANDSHAKE_LEN * 2 + 1 ≤ r.intake.rbuf.cur ∧
      (sendRaw ks (r.intake.rbuf.mem.bytes 1 RTMP_HANDSHAKE_LEN)).1 = .sent

/-- How `transition` resets the connection on a receive that is answered like this. -/
def Event.fatal : Event → Option ConnState
  | .read .fails => some .abort
  | .read .eof => some .connReset
  | _ => none

/-- A step that does not complete the handshake, and in which the receive and the sends fail in
one way only, in the way that one has failed before. -/
structure Clear (r : Client) (e : Event) (ks : List SendRes) : Prop where
  pending : ¬ r.Completes e ks
  oneWay : ∃ st, (∀ k ∈ ks, ∀ x ∈ k.fatal, x = st) ∧ (∀ x ∈ e.fatal, x = st) ∧
    (r.conn.state.Dead → r.conn.state = st)

/-- One event that meets the condition. -/
def ClearStep (o : Owner) (s s' : Client × List UInt8) : Prop :=
  ∃ (e : Event) (ks : List SendRes), s.1.Enabled e ∧ s.1.Clear e ks ∧
    handle o (s.1.answer ks, s.2) e = some s'

variable {o : Owner} {r : Client} {queue : List UInt8}

theorem fillRcvBuf_early {ans : Recv} {s : Client × List UInt8} {st : ConnState} (h : r.Early)
    (ha : r.Agrees st) (hans : ∀ x ∈ (Event.read ans).fatal, x = st)
    (hfill : r.fillRcvBuf o queue ans = some s) : s.1.Early := by
  have hkeep : ∀ b : Intake, ({ r with intake := b } : Owned).Early :=
    fun _ => ⟨⟨h.last, h.forward, h.untold⟩, h.unset, h.waits⟩
  obtain heq | ⟨len, -, heq⟩ | ⟨rfl, heq⟩ | ⟨rfl, heq⟩ := fillRcvBuf_cases hfill
  · rwa [heq]
  · rw [heq]
    exact hkeep _
  · rw [heq]
    obtain rfl := hans .abort rfl
    exact (h.reset ha (.inl rfl)).1
  · rw [heq]
    obtain rfl := hans .connReset rfl
    exact (h.reset ha (.inr rfl)).1

/-- A round in front of the handshake receives, or is refused the answer. -/
theorem pass_early {ans : Recv} {s : Client × List UInt8} {st : ConnState} (h : r.Early)
    (ha : r.Agrees st) (hans : ∀ x ∈ (Event.read ans).fatal, x = st)
    (hst : r.conn.state = .handshake1)
    (hpending : ¬ r.Completes (.read ans) r.conn.sock.script)
    (hpass : pass o (r, queue) ans = some s) : s.1.Early := by
  by_cases h0 : r.intake.rbuf.cur = 0
  · exact fillRcvBuf_early h ha hans (by simpa [pass, rtmpDrainBuf, h0] using hpass)
  by_cases hlen : r.intake.rbuf.cur < RTMP_HANDSHAKE_LEN * 2 + 1
  · have hfill : r.fillRcvBuf o queue ans = some s := by
      simpa [pass, rtmpDrainBuf, h0, hst, Owned.handshake1Resp, hlen] using hpass
    exact fillRcvBuf_early h ha hans hfill
  have hrefused : (sendRaw r.conn.sock.script
      (r.intake.rbuf.mem.bytes 1 RTMP_HANDSHAKE_LEN)).1 ≠ .sent :=
    fun hsent => hpending ⟨⟨ans, rfl⟩, hst, Nat.not_lt.mp hlen, hsent⟩
  have hraw := h.rtmpSendRaw (o := o) ha (r.intake.rbuf.mem.bytes 1 RTMP_HANDSHAKE_LEN)
  have hresp : r.handshake1Resp o =
      ((r.rtmpSendRaw o (r.intake.rbuf.mem.bytes 1 RTMP_HANDSHAKE_LEN)).1, some 0) := by
    unfold Owned.handshake1Resp Owned.handshake2
    rw [if_neg hlen]
    cases hsend : r.rtmpSendRaw o (r.intake.rbuf.mem.bytes 1 RTMP_HANDSHAKE_LEN) with
    | mk r₁ ok =>
      cases ok with
      | false => rfl
      | true => exact absurd (Owned.rtmpSendRaw_true hsend).1 hrefused
  simp only [pass, rtmpDrainBuf, if_neg h0, hst, hresp, if_true] at hpass
  obtain rfl := Option.some.inj hpass
  exact hraw.1

theorem handle_early {s s' : Client × List UInt8} {e : Event} {ks : List SendRes}
    (h : s.1.Early) (hen : s.1.Enabled e) (hclear : s.1.Clear e ks)
    (hstep : handle o (s.1.answer ks, s.2) e = some s') : s'.1.Early := by
  obtain ⟨st, hks, hans, hdead⟩ := hclear.oneWay
  have h₁ : (s.1.answer ks).Early := ⟨⟨h.last, h.forward, h.untold⟩, h.unset, h.waits⟩
  have ha : (s.1.answer ks).Agrees st := ⟨hks, hdead⟩
  cases e with
  | arrive bs =>
    obtain rfl := Option.some.inj hstep
    exact h₁
  | connect rand =>
    obtain rfl := Option.some.inj hstep
    have hinit : s.1.conn.state = .init := h.unset hen
    unfold connCb
    rw [if_neg (by simp [answer, hinit])]
    have hstored := h₁.stored (s := .handshake1)
      (by rw [show (s.1.answer ks).conn.state = .init from hinit]; decide)
    set r : Owned := { (s.1.answer ks).setState .handshake1 with mask := .write }
    have hr : r.Early := ⟨⟨hstored.last, hstored.forward, hstored.untold⟩,
      fun hm => Mask.noConfusion hm, fun _ => rfl⟩
    have hagrees : r.Agrees st := ⟨hks, fun hd => absurd (show ConnState.handshake1.Dead from hd) (by decide)⟩
    exact hr.handshake1 hagrees rfl rand
  | write rand =>
    have hst : (s.1.answer ks).conn.state = .handshake1 := h.waits (.inr hen)
    simp only [handle, iopWrite, hst, Owned.transition] at hstep
    obtain rfl := Option.some.inj hstep
    exact h₁.handshake1 ha hst rand
  | read ans => exact pass_early h₁ ha hans (h.waits (.inl hen)) hclear.pending hstep
  | act plan =>
    obtain rfl := Option.some.inj hstep
    exact ((Owned.earlyRule o st).perform _ plan ⟨h₁, ha⟩).1

/-- The round that completes the handshake leaves STATE_HANDSHAKE_2 behind. -/
theorem completes_undisciplined {s s' : Client × List UInt8} {e : Event} {ks : List SendRes}
    (hdone : s.1.Completes e ks) (hstep : handle o (s.1.answer ks, s.2) e = some s') :
    ¬ s'.1.Disciplined := by
  obtain ⟨⟨ans, rfl⟩, hst, hlen, hsent⟩ := hdone
  set r := s.1.answer ks with hr
  replace hlen : RTMP_HANDSHAKE_LEN * 2 + 1 ≤ r.intake.rbuf.cur := hlen
  have h0 : ¬ r.intake.rbuf.cur = 0 := fun h0 => by
    rw [h0] at hlen
    exact absurd hlen (by decide)
  obtain ⟨r₁, hsend⟩ : ∃ r₁, r.rtmpSendRaw o (r.intake.rbuf.mem.bytes 1 RTMP_HANDSHAKE_LEN) =
      (r₁, true) := by
    unfold Owned.rtmpSendRaw Owned.rtmpSendRawBy
    rw [show (sendRaw r.conn.sock.script (r.intake.rbuf.mem.bytes 1 RTMP_HANDSHAKE_LEN)) =
      (.sent, _, _) from Prod.ext hsent rfl]
    exact ⟨_, rfl⟩
  have h128 : ¬ RTMP_DEFAULT_CHUNK_SZ = 0 := by decide
  obtain ⟨r₂, hresp⟩ : ∃ r₂ : Owned, r.handshake1Resp o =
      ((r₂.setState .ready).setState .handshake2, some (RTMP_HANDSHAKE_LEN * 2 + 1)) := by
    unfold Owned.handshake1Resp Owned.handshake2
    rw [if_neg (Nat.not_lt.mpr hlen), hsend]
    simp only [Owned.rbufRequestSize, if_neg h128]
    exact ⟨_, rfl⟩
  have hpass : pass o (r, s.2) ans = some s' := hstep
  have hst' : r.conn.state = .handshake1 := hst
  simp only [pass, rtmpDrainBuf, if_neg h0, hst', hresp] at hpass
  rw [if_neg (by decide)] at hpass
  split_ifs at hpass with htaken
  obtain rfl := Option.some.inj hpass
  intro hd
  have hchain : (ConnState.init :: ((r₂.stores ++ [.ready]) ++ [.handshake2])).IsChain
    ConnState.Forward := hd.forward
  rw [List.append_assoc, ← List.cons_append, List.singleton_append,
    List.isChain_append_cons_cons] at hchain
  exact absurd hchain.2.1 (by decide)

/-- In every run that meets the condition the states keep their order, and the first step
that completes the handshake breaks it. -/
theorem discipline {heap stack : List Memory} {s : Client × List UInt8}
    (hrun : ReflTransGen (ClearStep o) (dialed heap stack, []) s) :
    s.1.Disciplined ∧ ∀ (e : Event) (ks : List SendRes) (s' : Client × List UInt8),
      s.1.Completes e ks → handle o (s.1.answer ks, s.2) e = some s' → ¬ s'.1.Disciplined := by
  have hearly : s.1.Early := by
    induction hrun with
    | refl => exact ⟨⟨rfl, .singleton _, by simp [dialed]⟩, fun _ => rfl, by simp [dialed]⟩
    | tail _ hstep ih =>
      obtain ⟨e, ks, hen, hclear, hhandle⟩ := hstep
      exact handle_early ih hen hclear hhandle
  exact ⟨hearly.disciplined, fun _ _ _ hdone hhandle => completes_undisciplined hdone hhandle⟩

/-- An owner that sends when the connection is reset. -/
def insistent : Owner where
  acts calls :=
    if calls.length = 1 then .send ⟨⟨3, three_lt_chans⟩, 0, 1, RTMP_MSG_INVOKE, [5]⟩ fun _ => .done
    else .done

/-- The greeting goes out at the second attempt, the response comes in part, and the next receive
fails like the send that follows it. -/
def dropped : List (Event × List SendRes) :=
  [(.connect [], [.again]), (.write [], []), (.arrive [3, 0, 0], []), (.read (.upTo 1), []),
    (.read .fails, [.fails])]

/-- A step in front of the end of the response, with failures of one kind. -/
def ClearAs (st : ConnState) (s : Client × List UInt8) (a : Event × List SendRes) : Prop :=
  s.1.Enabled a.1 ∧ s.1.intake.rbuf.cur < RTMP_HANDSHAKE_LEN * 2 + 1 ∧
    (∀ k ∈ a.2, ∀ x ∈ k.fatal, x = st) ∧ (∀ x ∈ a.1.fatal, x = st) ∧
      (s.1.conn.state.Dead → s.1.conn.state = st)

instance (st : ConnState) (s : Client × List UInt8) (a : Event × List SendRes) :
    Decidable (ClearAs st s a) := inferInstanceAs (Decidable (_ ∧ _))

theorem clear_run {st : ConnState} {s s' : Client × List UInt8} {as : List (Event × List SendRes)}
    (h : Run.exec (fun s a => if ClearAs st s a then happen o s a else none) s as = some s') :
    ReflTransGen (ClearStep o) s s' := by
  refine ReflTransGen.mono ?_ _ _ (Run.along_of_exec h)
  rintro s _ ⟨a, ⟨hen, hcur, hsends, hans, hdead⟩, hs⟩
  exact ⟨a.1, a.2, hen,
    ⟨fun hdone => absurd hcur (Nat.not_lt.mpr hdone.2.2.1), st, hsends, hans, hdead⟩, hs⟩

theorem discipline_dropped : ∃ s : Client × List UInt8,
    ReflTransGen (ClearStep insistent) (dialed [] [], []) s ∧
      s.1.stores = [.handshake1, .handshake1, .abort, .abort] ∧ s.1.Disciplined ∧
      ∀ (e : Event) (ks : List SendRes) (s' : Client × List UInt8), s.1.Completes e ks →
        handle insistent (s.1.answer ks, s.2) e = some s' → ¬ s'.1.Disciplined := by
  have hends : (Run.exec (fun s a => if ClearAs .abort s a then happen insistent s a else none)
      (dialed [] [], []) dropped).map (fun s => s.1.stores) =
        some [.handshake1, .handshake1, .abort, .abort] := by decide +kernel
  obtain ⟨s, hs, hstores⟩ := Option.map_eq_some_iff.mp hends
  have hrun := clear_run hs
  exact ⟨s, hrun, hstores, discipline hrun⟩

/-- A connection that has sent its C0 and C1. -/
def greeting : Client := (dialed [] []).connCb .silent []

/-- The response of the server, all of it received at once. -/
def answered : Client :=
  { greeting.answer [] with
    intake := greeting.intake.fill (.replicate (RTMP_HANDSHAKE_LEN * 2 + 1) 3) }

theorem undisciplined_answered :
    ∃ s, ReflTransGen (Step .silent) (dialed [] [], []) s ∧ ¬ s.1.Disciplined := by
  have hconnect : Step .silent (dialed [] [], []) (greeting, []) := ⟨.connect [], [], rfl, rfl⟩
  have harrive : Step .silent (greeting, [])
      (greeting, .replicate (RTMP_HANDSHAKE_LEN * 2 + 1) 3) := ⟨.arrive _, [], trivial, rfl⟩
  have hread : Step .silent (greeting, .replicate (RTMP_HANDSHAKE_LEN * 2 + 1) 3) (answered, []) := by
    have hcur : (greeting.answer []).intake.rbuf.cur = 0 := rfl
    have hspace : (greeting.answer []).intake.rbuf.space = 3087 := rfl
    refine ⟨.read (.upTo 3072), [], show greeting.mask = .read from by decide +kernel, ?_⟩
    generalize hbs : List.replicate (RTMP_HANDSHAKE_LEN * 2 + 1) (3 : UInt8) = bs
    have hlen : bs.length = 3073 := by rw [← hbs, List.length_replicate]; rfl
    have hne : bs ≠ [] := List.ne_nil_of_length_pos (by omega)
    have htake : bs.take (min (3072 + 1) 3087) = bs := List.take_of_length_le (by omega)
    have hdrop : bs.drop (min (3072 + 1) 3087) = [] := List.drop_of_length_le (by omega)
    simp only [handle, pass, rtmpDrainBuf, hcur, if_true, fillRcvBuf, hspace, if_neg hne, htake,
      hdrop, answered, hbs]
    rfl
  obtain ⟨s, hs⟩ : ∃ s, handle .silent (answered.answer [], []) (.read .again) = some s :=
    Option.isSome_iff_exists.mp (by decide +kernel)
  have hdone : answered.Completes (.read .again) [] :=
    ⟨⟨_, rfl⟩, by decide +kernel, by decide +kernel, by decide +kernel⟩
  refine ⟨s, ?_, completes_undisciplined (s := (answered, [])) hdone hs⟩
  exact .tail (.tail (.tail (.single hconnect) harrive) hread)
    ⟨.read .again, [], show greeting.mask = .read from by decide +kernel, hs⟩

end Client
end Mayhem
