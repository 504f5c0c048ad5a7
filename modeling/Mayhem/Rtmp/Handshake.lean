import Mathlib.Logic.Relation
import Mayhem.Rtmp.Handshake.Server

/-! The handshake between `rtmp.c` and `rtmpd.c`. What one side has sent and the other has not
received yet is under way between them. The phase of either side bounds the phase of the
other, so that at the end of the handshake both are at the same place in both streams. -/
namespace Mayhem

structure Peers where
  client : Client
  server : Server

namespace Peers

/-- What is under way. -/
def toClient (s : Peers) : List UInt8 :=
  s.server.sock.sent.drop s.client.intake.received.length

def toServer (s : Peers) : List UInt8 :=
  s.client.conn.sock.sent.drop s.server.intake.received.length

/-- One event on either side. The event loop goes by the masks, the kernel takes what it is
offered in full or not at all, and the owners send only once they have been told. -/
inductive Step (o : Owner) (p : ServerOwner) (s : Peers) : Peers → Prop
  | connect (ks : List SendRes) (rand : List UInt8) : FullOrAgain FULL_LEN ks →
      s.client.mask = .unset → Step o p s { s with client := (s.client.answer ks).connCb o rand }
  | write (ks : List SendRes) (rand : List UInt8) (r : Client) : FullOrAgain FULL_LEN ks →
      s.client.mask = .write → (s.client.answer ks).iopWrite o rand = some r →
        Step o p s { s with client := r }
  | read (ks : List SendRes) (ans : Recv) (res : Client × List UInt8) : FullOrAgain FULL_LEN ks →
      ans.Delivers → s.client.mask = .read →
        Client.pass o (s.client.answer ks, s.toClient) ans = some res →
          Step o p s { s with client := res.1 }
  | act (ks : List SendRes) (plan : Plan) : .connected ∈ s.client.conn.calls →
      s.client.killed = false → Step o p s { s with client :=
        { s.client with toOwned := (s.client.answer ks).perform o plan } }
  | listen (ks : List SendRes) : s.server.mask = .unset →
      Step o p s { s with server := (s.server.answer ks).listenCb p }
  | serve (ks : List SendRes) (rand : List UInt8) (ans : Recv) (res : Server × List UInt8) :
      FullOrAgain FULL_LEN ks → ans.Delivers → s.server.mask = .read →
        Server.pass p (s.server.answer ks, s.toServer) rand ans = some res →
          Step o p s { s with server := res.1 }
  | serverAct (ks : List SendRes) (plan : Plan) : .connected ∈ s.server.calls →
      s.server.killed = false → Step o p s { s with server :=
        { s.server with toServed := (s.server.answer ks).perform p plan } }

/-- A client that has called `rtmp_connect` and a server that listens. -/
def start (heap stack heap' stack' : List Memory) : Peers where
  client := .dialed heap stack
  server := { stack := stack', intake := { rbuf := { heap := heap' } } }

/-- The client has written C0, C1 and a copy of S1, the server S0, S1 and a copy of C1. -/
structure Greeted (s : Peers) (s0s1 : List UInt8) : Prop where
  hello : s.client.hello.length = GREETING_LEN
  reply : s0s1.length = GREETING_LEN
  client : s.client.greeted = some (s.client.hello ++ s0s1.drop 1)
  server : s.server.sock.sent = s0s1 ++ s.client.hello.drop 1

/-- Neither side is told twice, and the decoder of either side starts behind the handshake
that the other side had written when it was told. -/
structure Agreed (s : Peers) : Prop where
  clientOnce : s.client.conn.calls.count .connected ≤ 1
  serverOnce : s.server.calls.count .connected ≤ 1
  clientFirst : ∀ n b, s.client.decoded = some (n, b) → ∃ h rest,
    s.server.greeted = some h ∧ h.length = n ∧ s.server.sock.sent = h ++ b :: rest
  serverFirst : ∀ n b, s.server.decoded = some (n, b) → ∃ h rest,
    s.client.greeted = some h ∧ h.length = n ∧ s.client.conn.sock.sent = h ++ b :: rest

/-- Both sides are in a phase that fits what the other has written. -/
structure Settled (s : Peers) : Prop where
  client : s.client.Settled s.server.sock.sent
  server : s.server.Settled s.client.conn.sock.sent

variable {o : Owner} {p : ServerOwner} {s s' : Peers}

theorem Settled.client_step (h : s.Settled) (ks : List SendRes) {r : Client}
    (hr : (s.client.answer ks).Advances s.server.sock.sent r.toOwned) :
    Settled { s with client := r } :=
  ⟨hr.settled, h.server.mono hr.sent⟩

theorem Settled.server_step (h : s.Settled) (ks : List SendRes) {r : Server}
    (hr : (s.server.answer ks).Advances s.client.conn.sock.sent r.toServed) :
    Settled { s with server := r } :=
  ⟨h.client.mono hr.sent, hr.settled⟩

/-- The answers of the kernel to come are no part of a phase. -/
theorem client_answer (ks : List SendRes) (h : s.client.Settled s.server.sock.sent) :
    (s.client.answer ks).Settled s.server.sock.sent :=
  ⟨h.sound, h.received, h.phase.input ks _ _⟩

theorem server_answer (ks : List SendRes) (h : s.server.Settled s.client.conn.sock.sent) :
    (s.server.answer ks).Settled s.client.conn.sock.sent :=
  ⟨h.sound, h.received, h.phase.input ks _ _⟩

theorem Settled.step (h : s.Settled) (hstep : Step o p s s') : s'.Settled := by
  cases hstep with
  | connect ks rand hk hm =>
    obtain ⟨hu, hst, hsent⟩ := h.client.phase.of_unset hm
    refine h.client_step ks ⟨?_, by simp [Client.answer, hsent]⟩
    unfold Client.connCb
    rw [if_neg (by simp [Client.answer, hst])]
    set r : Owned := { (s.client.answer ks).setState .handshake1 with mask := .write }
    have hr : r.Untold := ⟨hu.calls, hu.greeted, hu.decoded, hu.consumed⟩
    exact Owned.Settled.greet (r := r) h.client.sound h.client.received hr rfl rfl hsent hk rand
  | write ks rand r hk hm hr =>
    obtain ⟨hu, hst, hsent⟩ := h.client.phase.of_write hm
    refine h.client_step ks ⟨?_, by simp [Client.answer, hsent]⟩
    have hst' : (s.client.answer ks).conn.state = .handshake1 := hst
    simp only [Client.iopWrite, hst', Owned.transition] at hr
    obtain rfl := Option.some.inj hr
    have hu' : (s.client.answer ks).Untold := ⟨hu.calls, hu.greeted, hu.decoded, hu.consumed⟩
    exact Owned.Settled.greet (r := (s.client.answer ks).toOwned) h.client.sound h.client.received
      hu' hm hst hsent hk rand
  | read ks ans res hk hd hm hres =>
    have hset := client_answer ks h.client
    apply h.client_step ks
    obtain ht | ⟨hu, hst, hsent, hlen⟩ := hset.phase.of_read hm
    · exact Client.pass_told hd hset ht hm hres
    · exact Client.pass_waiting hd hset hu hm hst hsent hlen hk hres
  | act ks plan hc hkilled =>
    have hset := client_answer ks h.client
    exact h.client_step ks (hset.kept (hset.phase.of_connected hc)
      ((Owned.keptRule o).perform _ plan))
  | listen ks hm =>
    exact h.server_step ks (Server.listenCb_settled (server_answer ks h.server) hm)
  | serve ks rand ans res hk hd hm hres =>
    have hset := server_answer ks h.server
    apply h.server_step ks
    cases hset.phase with
    | listening _ hm' => rw [show (s.server.answer ks).mask = .read from hm] at hm'; cases hm'
    | waiting hu _ hst hsent hc =>
      exact Server.pass_waiting hd hset hu hm hst hsent hc hk rand hres
    | replied hu _ hst hsent hc hr =>
      exact Server.pass_replied hd hset hu hm hst hsent hc hr rand hres
    | told ht => exact Server.pass_told hd hset ht hm rand hres
  | serverAct ks plan hc hkilled =>
    have hset := server_answer ks h.server
    exact h.server_step ks (hset.kept (hset.phase.of_connected hc) (Served.perform_kept _ plan))

theorem Settled.run {s₀ : Peers} (h : s₀.Settled)
    (hrun : Relation.ReflTransGen (Step o p) s₀ s) : s.Settled := by
  induction hrun with
  | refl => exact h
  | tail _ hstep ih => exact ih.step hstep

theorem start_settled (heap stack heap' stack' : List Memory) :
    (start heap stack heap' stack').Settled where
  client := ⟨Intake.sound_empty heap, List.prefix_refl _,
    .dialing ⟨List.not_mem_nil, rfl, rfl, rfl⟩ rfl rfl rfl⟩
  server := ⟨Intake.sound_empty heap', List.prefix_refl _,
    .listening ⟨List.not_mem_nil, rfl, rfl⟩ rfl rfl rfl⟩

/-! What the phases say about the two streams. -/

theorem split_at {h sent : List UInt8} {b : UInt8} (hp : h <+: sent)
    (hb : sent[h.length]? = some b) : ∃ rest, sent = h ++ b :: rest := by
  obtain ⟨tail, rfl⟩ := hp
  rw [List.getElem?_append_right (Nat.le_refl _), Nat.sub_self] at hb
  cases tail with
  | nil => simp at hb
  | cons c rest =>
    obtain rfl := Option.some.inj hb
    exact ⟨rest, rfl⟩

theorem full_length {stream : List UInt8} {r : Owned} (h : r.Told stream) :
    (r.full stream).length = FULL_LEN := by
  have hlong := h.long
  rw [FULL_LEN] at hlong
  rw [Owned.full, List.length_append, h.hello, List.length_take, List.length_drop,
    Nat.min_eq_left (by omega)]
  rfl

theorem Settled.clientFirst (h : s.Settled) {n : ℕ} {b : UInt8}
    (hd : s.client.decoded = some (n, b)) : ∃ h rest,
      s.server.greeted = some h ∧ h.length = n ∧ s.server.sock.sent = h ++ b :: rest := by
  cases h.client.phase with
  | dialing hu => simp [hu.decoded] at hd
  | greeting hu => simp [hu.decoded] at hd
  | waiting hu => simp [hu.decoded] at hd
  | told ht =>
    obtain ⟨rfl, hb⟩ := ht.first n b hd
    cases h.server.phase with
    | listening _ _ hsent => simp [hsent] at hb
    | waiting _ _ _ hsent => simp [hsent] at hb
    | replied _ _ _ hsent _ hr =>
      -- the reply ends where the byte would be
      rw [hsent, ← hr.hello, List.getElem?_length] at hb
      cases hb
    | told ht' =>
      rw [← ht'.hello] at hb
      obtain ⟨rest, hrest⟩ := split_at ht'.sent hb
      exact ⟨_, rest, ht'.greeted, ht'.hello, hrest⟩

theorem Settled.serverFirst (h : s.Settled) {n : ℕ} {b : UInt8}
    (hd : s.server.decoded = some (n, b)) : ∃ h rest,
      s.client.greeted = some h ∧ h.length = n ∧ s.client.conn.sock.sent = h ++ b :: rest := by
  cases h.server.phase with
  | listening hu => simp [hu.decoded] at hd
  | waiting hu => simp [hu.decoded] at hd
  | replied hu => simp [hu.decoded] at hd
  | told ht =>
    obtain ⟨rfl, hb⟩ := ht.first n b hd
    cases h.client.phase with
    | dialing _ _ _ hsent => simp [hsent] at hb
    | greeting _ _ _ hsent => simp [hsent] at hb
    | waiting _ _ _ hsent hlen =>
      have hfar := (List.getElem?_eq_some_iff.mp hb).1
      rw [hsent, hlen] at hfar
      exact absurd hfar (by decide)
    | told ht' =>
      rw [← full_length ht'] at hb
      obtain ⟨rest, hrest⟩ := split_at ht'.sent hb
      exact ⟨_, rest, ht'.greeted, full_length ht', hrest⟩

theorem Settled.agreed (h : s.Settled) : s.Agreed where
  clientOnce := by
    by_cases hc : .connected ∈ s.client.conn.calls
    · exact (h.client.phase.of_connected hc).once.le
    · rw [List.count_eq_zero.mpr hc]
      exact Nat.zero_le 1
  serverOnce := by
    by_cases hc : .connected ∈ s.server.calls
    · exact (h.server.phase.of_connected hc).once.le
    · rw [List.count_eq_zero.mpr hc]
      exact Nat.zero_le 1
  clientFirst _ _ := h.clientFirst
  serverFirst _ _ := h.serverFirst

/-- A step is one of the client or one of the server. -/
theorem Step.side (hstep : Step o p s s') : s'.client = s.client ∨ s'.server = s.server := by
  cases hstep with
  | connect => exact .inr rfl
  | write => exact .inr rfl
  | read => exact .inr rfl
  | act => exact .inr rfl
  | listen => exact .inl rfl
  | serve => exact .inl rfl
  | serverAct => exact .inl rfl

/-- Until it is told, the client has written no more than its greeting. -/
theorem untold_short {stream : List UInt8} {r : Owned} (h : r.Phase stream)
    (hno : .connected ∉ r.conn.calls) : r.conn.sock.sent.length ≤ GREETING_LEN := by
  cases h with
  | dialing _ _ _ hsent => simp [hsent]
  | greeting _ _ _ hsent => simp [hsent]
  | waiting _ _ _ hsent hlen => rw [hsent, hlen]
  | told ht =>
    have hcount := ht.once
    rw [List.count_eq_zero.mpr hno] at hcount
    cases hcount

/-- In the step that tells the client, both have written their part of the handshake. -/
theorem Settled.greeted (h : s.Settled) (hstep : Step o p s s')
    (hno : .connected ∉ s.client.conn.calls) (hyes : .connected ∈ s'.client.conn.calls) :
    ∃ s0s1, s'.Greeted s0s1 := by
  have h' := h.step hstep
  have ht := h'.client.phase.of_connected hyes
  have hserver : s'.server = s.server := hstep.side.resolve_left fun hc => hno (hc ▸ hyes)
  have hlong := ht.long
  cases h'.server.phase with
  | listening _ _ hsent => simp [hsent, FULL_LEN] at hlong
  | waiting _ _ _ hsent => simp [hsent, FULL_LEN] at hlong
  | replied _ _ _ hsent _ hr =>
    refine ⟨s'.server.sock.sent.take GREETING_LEN, ht.hello, ?_, ?_, ?_⟩
    · rw [List.length_take]
      exact Nat.min_eq_left (Nat.le_trans (by decide) hlong)
    · rw [ht.greeted, Owned.full, List.drop_take]
      rfl
    · -- the copy is taken from behind the first byte of what the client has written
      have hcopy : (s'.client.conn.sock.sent.drop 1).take RTMP_HANDSHAKE_LEN =
          s'.client.hello.drop 1 := by
        obtain ⟨rest, hrest⟩ := ht.sent
        have hlen := ht.hello
        rw [← hrest, Owned.full, List.append_assoc, List.drop_append_of_le_length
          (by rw [hlen]; decide), List.take_left' (by rw [List.length_drop, hlen]; rfl)]
      rw [← hcopy, ← hr.copy, ← hsent, List.take_append_drop]
  | told ht' =>
    have hfull := ht'.full
    rw [hserver] at ht'
    cases h.server.phase with
    | listening hu => exact absurd (List.count_pos_iff.mp (by rw [ht'.once]; decide)) hu.calls
    | waiting hu => exact absurd (List.count_pos_iff.mp (by rw [ht'.once]; decide)) hu.calls
    | replied hu => exact absurd (List.count_pos_iff.mp (by rw [ht'.once]; decide)) hu.calls
    | told ht₀ =>
      exact absurd (ht₀.full.trans (untold_short h.client.phase hno)) (by decide)

/-- In every run each side is told at most once and decodes from the first byte behind the
handshake, and the client is told once both have written their part of it. -/
theorem agreement {heap stack heap' stack' : List Memory}
    (hrun : Relation.ReflTransGen (Step o p) (start heap stack heap' stack') s) :
    s.Agreed ∧ ∀ s', Step o p s s' → .connected ∉ s.client.conn.calls →
      .connected ∈ s'.client.conn.calls → ∃ s0s1, s'.Greeted s0s1 := by
  have h := (start_settled heap stack heap' stack').run hrun
  exact ⟨h.agreed, fun s' hstep => h.greeted hstep⟩

/-! ### Runs turn by turn -/

/-- What happens next, with kernels that take every send and give what there is to receive. -/
inductive Turn
  | connect
  | listen
  | read
  | serve
  | act (plan : Plan)
  | serverAct (plan : Plan)

/-- The turns that the masks and the owner allow. -/
def turn (o : Owner) (p : ServerOwner) (s : Peers) : Turn → Option Peers
  | .connect =>
    if s.client.mask = .unset then some { s with client := (s.client.answer []).connCb o [] }
    else none
  | .listen =>
    if s.server.mask = .unset then some { s with server := (s.server.answer []).listenCb p }
    else none
  | .read =>
    if s.client.mask = .read then
      (Client.pass o (s.client.answer [], s.toClient) (.upTo 4999)).map fun res =>
        { s with client := res.1 }
    else none
  | .serve =>
    if s.server.mask = .read then
      (Server.pass p (s.server.answer [], s.toServer) [] (.upTo 4999)).map fun res =>
        { s with server := res.1 }
    else none
  | .act plan =>
    if .connected ∈ s.client.conn.calls ∧ s.client.killed = false then
      some { s with client :=
        { s.client with toOwned := (s.client.answer []).perform o plan } }
    else none
  | .serverAct plan =>
    if .connected ∈ s.server.calls ∧ s.server.killed = false then
      some { s with server :=
        { s.server with toServed := (s.server.answer []).perform p plan } }
    else none

theorem turn_step {t : Turn} (h : turn o p s t = some s') : Step o p s s' := by
  have hnone : FullOrAgain FULL_LEN [] := fun _ hk => absurd hk List.not_mem_nil
  cases t with
  | connect =>
    obtain ⟨hm, hs⟩ := Option.ite_none_right_eq_some.mp h
    exact Option.some.inj hs ▸ .connect [] [] hnone hm
  | listen =>
    obtain ⟨hm, hs⟩ := Option.ite_none_right_eq_some.mp h
    exact Option.some.inj hs ▸ .listen [] hm
  | read =>
    obtain ⟨hm, hs⟩ := Option.ite_none_right_eq_some.mp h
    obtain ⟨res, hres, rfl⟩ := Option.map_eq_some_iff.mp hs
    exact .read [] (.upTo 4999) res hnone trivial hm hres
  | serve =>
    obtain ⟨hm, hs⟩ := Option.ite_none_right_eq_some.mp h
    obtain ⟨res, hres, rfl⟩ := Option.map_eq_some_iff.mp hs
    exact .serve [] [] (.upTo 4999) res hnone trivial hm hres
  | act plan =>
    obtain ⟨hm, hs⟩ := Option.ite_none_right_eq_some.mp h
    exact Option.some.inj hs ▸ .act [] plan hm.1 hm.2
  | serverAct plan =>
    obtain ⟨hm, hs⟩ := Option.ite_none_right_eq_some.mp h
    exact Option.some.inj hs ▸ .serverAct [] plan hm.1 hm.2

theorem turns_run {ts : List Turn} (h : ts.foldlM (turn o p) s = some s') :
    Relation.ReflTransGen (Step o p) s s' := by
  induction ts generalizing s with
  | nil => exact Option.some.inj h ▸ .refl
  | cons t ts ih =>
    rw [List.foldlM_cons] at h
    obtain ⟨s₁, hs₁, hrest⟩ := Option.bind_eq_some_iff.mp h
    exact .head (turn_step hs₁) (ih hrest)

/-- The client sends its greeting and has the reply of the server in its buffer. -/
def replied : List Turn := [.connect, .listen, .serve, .serve, .read]

/-- The client is told by its next read, the server by its third. Then each sends a message to the
other. -/
def shaken : List Turn :=
  [.serve, .serve, .act (.send ⟨⟨3, three_lt_chans⟩, 0, 1, RTMP_MSG_INVOKE, [5, 1, 1]⟩ fun _ => .done),
    .serverAct (.send ⟨⟨8, eight_lt_chans⟩, 0, 1, RTMP_MSG_NOTIFY, [5]⟩ fun _ => .done),
    .serve, .serve, .read, .read]

/-- Whether the client is told in between, and both decoders have started behind the handshake. -/
def shakenEnds : Option Bool :=
  (replied.foldlM (turn .silent .silent) (start [] [] [] [])).bind fun s =>
    (turn .silent .silent s .read).bind fun s' =>
      (shaken.foldlM (turn .silent .silent) s').map fun t =>
        decide (.connected ∉ s.client.conn.calls) && decide (.connected ∈ s'.client.conn.calls) &&
          decide (t.client.decoded = some (FULL_LEN, 8)) &&
          decide (t.server.decoded = some (FULL_LEN, 3))

theorem shaken_ends : shakenEnds = some true := by
  decide +kernel

theorem agreement_shaken : ∃ s s' t : Peers,
    Relation.ReflTransGen (Step .silent .silent) (start [] [] [] []) s ∧
      Step .silent .silent s s' ∧ .connected ∉ s.client.conn.calls ∧
      .connected ∈ s'.client.conn.calls ∧ (∃ s0s1, s'.Greeted s0s1) ∧
      Relation.ReflTransGen (Step .silent .silent) s' t ∧
      t.client.decoded = some (FULL_LEN, 8) ∧ t.server.decoded = some (FULL_LEN, 3) ∧
      t.Agreed := by
  obtain ⟨s, hs, h⟩ := Option.bind_eq_some_iff.mp shaken_ends
  obtain ⟨s', hs', h⟩ := Option.bind_eq_some_iff.mp h
  obtain ⟨t, ht, htrue⟩ := Option.map_eq_some_iff.mp h
  simp only [Bool.and_eq_true, decide_eq_true_eq] at htrue
  obtain ⟨⟨⟨hno, hyes⟩, hclient⟩, hserver⟩ := htrue
  have hrun := turns_run hs
  have htell := turn_step hs'
  have hrest := turns_run ht
  refine ⟨s, s', t, hrun, htell, hno, hyes, ?_, hrest, hclient, hserver, ?_⟩
  · exact (agreement hrun).2 s' htell hno hyes
  · exact (agreement ((hrun.tail htell).trans hrest)).1

end Peers
end Mayhem
