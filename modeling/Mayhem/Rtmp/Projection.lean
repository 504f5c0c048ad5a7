import Mayhem.Rtmp.Accounting
import Mayhem.Rtmp.Served

/-! The records with an owner and the plain ones. With an owner that leaves the connection alone
the client of `Owner.lean` is the client of `Client.lean`, round by round; the decoder in
`Served.lean` is the one in `Server.lean` whatever its owner does. -/
namespace Mayhem

open Owner

/-- The same call on a record and on what `f` shows of it. -/
theorem Endpoint.decodeRtmp_map {σ τ : Type} {E : Endpoint σ} {F : Endpoint τ} (f : σ → τ)
    {r : σ} (hsz : F.chunkSz (f r) = E.chunkSz r) (hchan : ∀ r, F.chan (f r) = E.chan r)
    (hset : ∀ r t, f (E.setChan r t) = F.setChan (f r) t)
    (hdispatch : ∀ t msg, f (E.dispatch (E.setChan r t) msg) = F.dispatch (f (E.setChan r t)) msg)
    (m : Memory) (sz : ℕ) :
    F.decodeRtmp (f r) m sz = (f (E.decodeRtmp r m sz).1, (E.decodeRtmp r m sz).2) := by
  unfold Endpoint.decodeRtmp
  rw [hsz, hchan]
  cases chunkIn (E.chunkSz r) m sz (E.chan r) with
  | short tbl => rw [hset]
  | part tbl n => rw [hset]
  | full tbl n msg =>
    dsimp only
    rw [hset, hdispatch, hset, ← hchan, hdispatch, hset]

namespace Owned

/-- The record without what is kept along with it. -/
def seen (r : Owned) : Link := { toLine := r.toLine, rbuf := r.intake.rbuf }

variable (r : Owned)

theorem intakeRule (o : Owner) : Rule o fun r r' => r'.intake = r.intake :=
  intakeMoves.rule fun _ _ _ => rfl

theorem seen_of_line {r r' : Owned} {l : Line} (hline : r'.toLine = l)
    (hintake : r'.intake = r.intake) : r'.seen = { r.seen with toLine := l } := by
  rw [seen, hline, hintake]
  rfl

/-! ### Sends -/

theorem rtmpSendRaw_line (buf : List UInt8) :
    (r.rtmpSendRaw silent buf).1.toLine =
        { r.toLine with conn := (Mayhem.rtmpSendRaw r.conn buf).1 } ∧
      (r.rtmpSendRaw silent buf).2 = (Mayhem.rtmpSendRaw r.conn buf).2 := by
  unfold rtmpSendRaw rtmpSendRawBy Mayhem.rtmpSendRaw
  obtain ⟨e, ks, out⟩ := sendRaw r.conn.sock.script buf
  cases e <;> exact ⟨rfl, rfl⟩

theorem sendAll_line (bufs : List (List UInt8)) :
    (r.sendAll silent bufs).1.toLine = { r.toLine with conn := (Mayhem.sendAll r.conn bufs).1 } ∧
      (r.sendAll silent bufs).2 = (Mayhem.sendAll r.conn bufs).2 := by
  induction bufs generalizing r with
  | nil => exact ⟨rfl, rfl⟩
  | cons buf bufs ih =>
    obtain ⟨hline, hok⟩ := r.rtmpSendRaw_line buf
    rw [sendAll_cons]
    unfold Mayhem.sendAll
    cases hraw : r.rtmpSendRaw silent buf with
    | mk r' ok =>
      cases hraw' : Mayhem.rtmpSendRaw r.conn buf with
      | mk c ok' =>
        rw [hraw, hraw'] at hline hok
        dsimp only at hline hok
        subst hok
        cases ok with
        | false => exact ⟨hline, rfl⟩
        | true =>
          obtain ⟨hline', hok'⟩ := ih r'
          dsimp only
          rw [hline', hok', hline]
          exact ⟨rfl, rfl⟩

theorem rtmpSend_line (x : OutMsg) :
    (r.rtmpSend silent x).1.toLine = (r.toLine.rtmpSend x.chan x.dest x.ts x.type x.payload).1 ∧
      (r.rtmpSend silent x).2 = (r.toLine.rtmpSend x.chan x.dest x.ts x.type x.payload).2 :=
  sendAll_line _ _

/-! ### Messages -/

variable {r}

theorem rbufRequestSize_seen (hs : r.intake.Sound) (sz : ℕ) :
    (r.rbufRequestSize silent sz).1.seen = (r.seen.rbufRequestSize sz).1 ∧
      (r.rbufRequestSize silent sz).2 = (r.seen.rbufRequestSize sz).2 := by
  unfold rbufRequestSize Link.rbufRequestSize
  by_cases h0 : sz = 0
  · rw [if_pos h0, if_pos h0]
    exact ⟨rfl, rfl⟩
  · rw [if_neg h0, if_neg h0]
    dsimp only
    rw [seen, Intake.requestSize_rbuf hs h0, RBuf.requested]
    by_cases hle : sz ≤ r.intake.rbuf.currentBufSz
    · rw [if_neg (fun h => absurd hle (Nat.not_le.mpr h.2)),
        if_pos (show sz ≤ r.seen.rbuf.currentBufSz from hle)]
      exact ⟨rfl, rfl⟩
    · rw [if_pos ⟨h0, Nat.not_le.mp hle⟩,
        if_neg (show ¬ sz ≤ r.seen.rbuf.currentBufSz from hle)]
      exact ⟨rfl, rfl⟩

theorem showsSeen : (carrier silent).Shows Link.carrier (fun r => r.intake.Sound) seen where
  line _ := rfl
  modify _ _ hs := ⟨hs, rfl⟩
  rtmpSend r chan dest ts type pkt hs := by
    obtain ⟨hline, hok⟩ := r.rtmpSend_line ⟨chan, dest, ts, type, pkt⟩
    have hintake := (intakeRule silent).rtmpSend r ⟨chan, dest, ts, type, pkt⟩
    exact ⟨by rwa [← hintake] at hs, Prod.ext (seen_of_line hline hintake) hok⟩
  call _ _ hs := ⟨hs, rfl⟩
  rbufRequestSize r sz hs := by
    obtain ⟨hseen, hok⟩ := rbufRequestSize_seen hs sz
    exact ⟨(r.rbufRequestSize_resized silent sz).sound hs, Prod.ext hseen hok⟩

theorem rtmpDispatch_seen (hs : r.intake.Sound) (msg : Msg) :
    (r.rtmpDispatch silent msg).seen = r.seen.rtmpDispatch msg := showsSeen.rtmpDispatch hs msg

/-! ### The handshake -/

theorem handshake2_seen (hs : r.intake.Sound) :
    (entered .handshake2 (r.handshake2 silent)).1.seen = (match r.seen.handshake2 with
      | (l, false) => l
      | (l, true) => { l with conn := { l.conn with state := .handshake2 } }) ∧
      (entered .handshake2 (r.handshake2 silent)).2 = r.seen.handshake2.2 := by
  unfold handshake2 Link.handshake2
  obtain ⟨hline, hok⟩ := r.rtmpSendRaw_line (r.intake.rbuf.mem.bytes 1 RTMP_HANDSHAKE_LEN)
  have hintake := r.rtmpSendRaw_intake silent (r.intake.rbuf.mem.bytes 1 RTMP_HANDSHAKE_LEN)
  have hseen := seen_of_line hline hintake
  change _ = (Mayhem.rtmpSendRaw r.seen.conn (r.seen.rbuf.mem.bytes 1 RTMP_HANDSHAKE_LEN)).2 at hok
  change _ = { r.seen with conn :=
    (Mayhem.rtmpSendRaw r.seen.conn (r.seen.rbuf.mem.bytes 1 RTMP_HANDSHAKE_LEN)).1 } at hseen
  cases hraw : r.rtmpSendRaw silent (r.intake.rbuf.mem.bytes 1 RTMP_HANDSHAKE_LEN) with
  | mk r' ok =>
    cases hraw' : Mayhem.rtmpSendRaw r.seen.conn (r.seen.rbuf.mem.bytes 1 RTMP_HANDSHAKE_LEN) with
    | mk c ok' =>
      rw [hraw, hraw'] at hseen hok
      rw [hraw] at hintake
      dsimp only at hseen hok hintake ⊢
      subst hok
      cases ok with
      | false => exact ⟨hseen, rfl⟩
      | true =>
        dsimp only
        obtain ⟨hreq, hyes⟩ := rbufRequestSize_seen (show r'.intake.Sound by rwa [hintake])
          RTMP_DEFAULT_CHUNK_SZ
        rw [hseen] at hreq hyes
        generalize r'.rbufRequestSize silent RTMP_DEFAULT_CHUNK_SZ = res at hreq hyes ⊢
        generalize Link.rbufRequestSize _ RTMP_DEFAULT_CHUNK_SZ = res' at hreq hyes ⊢
        obtain ⟨r₁, ok⟩ := res
        obtain ⟨l, ok'⟩ := res'
        dsimp only at hreq hyes
        subst hreq hyes
        cases ok with
        | false => exact ⟨rfl, rfl⟩
        | true => exact ⟨rfl, rfl⟩

theorem handshake1Resp_seen (hs : r.intake.Sound) :
    (r.handshake1Resp silent).1.seen = r.seen.handshake1Resp.1 ∧
      (r.handshake1Resp silent).2 = r.seen.handshake1Resp.2 := by
  unfold handshake1Resp Link.handshake1Resp
  have hcur : r.seen.rbuf.cur = r.intake.rbuf.cur := rfl
  rw [hcur]
  split_ifs
  · exact ⟨rfl, rfl⟩
  · obtain ⟨hseen, hok⟩ := handshake2_seen hs
    cases hres : entered .handshake2 (r.handshake2 silent) with
    | mk r₁ ok =>
      cases hres' : r.seen.handshake2 with
      | mk l ok' =>
        rw [hres, hres'] at hseen hok
        dsimp only at hok
        subst hok
        cases ok with
        | false => exact ⟨hseen, rfl⟩
        | true => exact ⟨hseen, rfl⟩

end Owned

namespace Client

/-- The record without what is kept along with it. -/
def seen (r : Client) : Rtmp := { toLink := r.toOwned.seen, chan := r.chan }

variable {r : Client} {queue : List UInt8}

theorem decodeRtmp_seen (hs : r.intake.Sound) :
    r.seen.decodeRtmp r.intake.rbuf.mem r.intake.rbuf.cur =
      ((r.decodeRtmp silent).1.seen, (r.decodeRtmp silent).2) := by
  unfold decodeRtmp Rtmp.decodeRtmp
  set r₁ : Client :=
    { r with decoded := some (r.decoded.getD (r.intake.consumed.length, r.intake.rbuf.mem 0)) }
  have hdispatch : ∀ t msg,
      seen ((endpoint silent).dispatch ((endpoint silent).setChan r₁ t) msg) =
        Rtmp.endpoint.dispatch (seen ((endpoint silent).setChan r₁ t)) msg := fun t msg =>
    congrArg (fun l : Link => ({ toLink := l, chan := t } : Rtmp))
      (Owned.rtmpDispatch_seen (r := r₁.toOwned) hs msg)
  exact Endpoint.decodeRtmp_map seen rfl (fun _ => rfl) (fun _ _ => rfl) hdispatch _ _

theorem rtmpDrainBuf_seen (hs : r.intake.Sound) :
    (r.rtmpDrainBuf silent).map (fun p => (p.1.seen, p.2)) = r.seen.rtmpDrainBuf := by
  unfold rtmpDrainBuf Rtmp.rtmpDrainBuf
  have hcur : r.seen.rbuf.cur = r.intake.rbuf.cur := rfl
  have hstate : r.seen.conn.state = r.conn.state := rfl
  rw [hcur, hstate]
  split_ifs
  · rfl
  cases r.conn.state with
  | init => rfl
  | abort => rfl
  | connReset => rfl
  | handshake1 =>
    obtain ⟨hseen, hret⟩ := Owned.handshake1Resp_seen hs
    have hlink : r.seen.toLink = r.toOwned.seen := rfl
    dsimp only
    rw [hlink, ← hseen, ← hret]
    rfl
  | handshake2 => exact congrArg some (decodeRtmp_seen hs).symm
  | ready => exact congrArg some (decodeRtmp_seen hs).symm

theorem fillRcvBuf_seen (ans : Recv) :
    (r.fillRcvBuf silent queue ans).map (fun s => (s.1.seen, s.2)) =
      r.seen.fillRcvBuf queue ans := by
  unfold fillRcvBuf Rtmp.fillRcvBuf
  have hspace : r.seen.rbuf.space = r.intake.rbuf.space := rfl
  rw [hspace]
  by_cases hfull : r.intake.rbuf.space = 0
  · rw [if_pos hfull, if_pos hfull]
    rfl
  rw [if_neg hfull, if_neg hfull]
  cases ans with
  | upTo n =>
    dsimp only
    split_ifs
    · rfl
    · rfl
  | again => rfl
  | fails => rfl
  | eof => rfl

theorem shuffle_seen (hs : r.intake.Sound) {taken : ℕ} (htaken : taken ≤ r.intake.rbuf.cur) :
    seen { r with intake := r.intake.shuffle r.chunkSz taken } = r.seen.shuffle taken := by
  have hupdate : (Intake.updateSize _ r.chunkSz).rbuf = _ :=
    Intake.updateSize_rbuf (hs.memmove htaken)
  unfold Intake.shuffle Rtmp.shuffle
  by_cases hsz : r.chunkSz ≠ (r.intake.rbuf.memmove taken).currentBufSz - RTMP_HDR_MAX_SZ ∧
      (r.intake.rbuf.memmove taken).cur ≤ r.chunkSz
  · rw [if_pos hsz]
    refine Eq.trans ?_ (if_pos hsz).symm
    rw [seen, Owned.seen, hupdate]
    rfl
  · rw [if_neg hsz]
    exact (if_neg hsz).symm

/-- One round of the receive loop. -/
theorem pass_seen (hs : r.intake.Sound) (ans : Recv) :
    (pass silent (r, queue) ans).map (fun s => (s.1.seen, s.2)) =
      Rtmp.pass (r.seen, queue) ans := by
  unfold pass Rtmp.pass
  have hdrain := rtmpDrainBuf_seen hs
  dsimp only
  cases hres : r.rtmpDrainBuf silent with
  | none =>
    rw [hres] at hdrain
    rw [← hdrain]
    rfl
  | some res =>
    obtain ⟨r', ret⟩ := res
    obtain ⟨hto, htaken⟩ := drain_spec hres
    rw [hres] at hdrain
    rw [← hdrain]
    cases ret with
    | none => exact r'.fillRcvBuf_seen ans
    | some taken =>
      have hcur : r'.seen.rbuf.cur = r'.intake.rbuf.cur := rfl
      dsimp only [Option.map_some]
      rw [hcur]
      split_ifs
      · rfl
      · rfl
      · rw [← shuffle_seen (hto.sound hs) (htaken taken rfl)]
        rfl

/-- Rounds on a connection whose owner leaves it alone are rounds of the client without one. -/
theorem run_seen {s s' : Client × List UInt8} (hs : s.1.intake.Sound)
    (hrun : Relation.ReflTransGen (fun s s' => s.1.seen.live ∧ ∃ ans, pass silent s ans = some s')
      s s') :
    s'.1.intake.Sound ∧
      Relation.ReflTransGen Rtmp.Step (s.1.seen, s.2) (s'.1.seen, s'.2) := by
  induction hrun with
  | refl => exact ⟨hs, .refl⟩
  | @tail s₁ _ _ hstep ih =>
    obtain ⟨r₁, queue⟩ := s₁
    obtain ⟨hsound, hrest⟩ := ih
    obtain ⟨hlive, ans, hpass⟩ := hstep
    have hround : _ = Rtmp.pass (r₁.seen, queue) ans := pass_seen hsound ans
    rw [hpass] at hround
    exact ⟨pass_sound hsound hpass, hrest.tail ⟨hlive, ans, hround.symm⟩⟩

end Client

/-! ### The server -/

namespace Served

variable {o : ServerOwner} {r : Served}

/-- The packets handed to the owner. -/
def pkts (r : Served) : List Msg := r.calls.filterMap fun
  | .pkt msg => some msg
  | _ => none

/-- What an owner cannot change. -/
structure SamePkts (r r' : Served) : Prop where
  chunkSz : r'.chunkSz = r.chunkSz
  pkts : r'.pkts = r.pkts

theorem SamePkts.trans {a b c : Served} (hab : a.SamePkts b) (hbc : b.SamePkts c) : a.SamePkts c :=
  ⟨hbc.chunkSz.trans hab.chunkSz, hbc.pkts.trans hab.pkts⟩

theorem reset_samePkts (r : Served) (state : ConnState) : r.SamePkts (r.reset o state) := by
  have hpkts : (r.call (.connReset state)).pkts = r.pkts := by
    rw [pkts, call, List.filterMap_append]
    exact List.append_nil _
  unfold reset
  dsimp only
  split_ifs
  · exact ⟨rfl, hpkts⟩
  · exact ⟨rfl, hpkts⟩

theorem rtmpSendRaw_samePkts (r : Served) (buf : List UInt8) :
    r.SamePkts (r.rtmpSendRaw o buf).1 := by
  unfold rtmpSendRaw
  obtain ⟨e, ks, out⟩ := sendRaw r.sock.script buf
  dsimp only
  have hsent : r.SamePkts { r with sock := ⟨ks, r.sock.sent ++ out⟩ } := ⟨rfl, rfl⟩
  cases e with
  | sent => exact hsent
  | blocked => exact hsent
  | failed => exact hsent.trans (reset_samePkts _ _)
  | closed => exact hsent.trans (reset_samePkts _ _)

theorem sendAll_samePkts (r : Served) (bufs : List (List UInt8)) :
    r.SamePkts (r.sendAll o bufs).1 := by
  induction bufs generalizing r with
  | nil => exact ⟨rfl, rfl⟩
  | cons buf bufs ih =>
    have hraw := r.rtmpSendRaw_samePkts (o := o) buf
    unfold sendAll
    cases hres : r.rtmpSendRaw o buf with
    | mk r' ok =>
      rw [hres] at hraw
      cases ok with
      | true => exact hraw.trans (ih r')
      | false => exact hraw

theorem perform_samePkts (r : Served) (plan : Plan) : r.SamePkts (r.perform o plan) := by
  induction plan generalizing r with
  | done => exact ⟨rfl, rfl⟩
  | send x next ih =>
    have hstack : r.SamePkts { r with stack := r.stack.tail } := ⟨rfl, rfl⟩
    exact (hstack.trans (sendAll_samePkts _ _)).trans (ih _ _)
  | close next ih =>
    have hclose : r.SamePkts r.rtmpdClose := ⟨rfl, rfl⟩
    exact hclose.trans (ih _)

theorem rtmpDispatch_pkts (r : Served) (msg : Msg) :
    (r.rtmpDispatch o msg).chunkSz = r.chunkSz ∧ (r.rtmpDispatch o msg).pkts = r.pkts ++ [msg] := by
  have hsame := (r.call (.pkt msg)).perform_samePkts (o := o) (o.acts (r.call (.pkt msg)).calls)
  have hpkts : (r.call (.pkt msg)).pkts = r.pkts ++ [msg] := by
    rw [pkts, call, List.filterMap_append]
    rfl
  exact ⟨hsame.chunkSz, hsame.pkts.trans hpkts⟩

end Served

namespace Server

variable {o : ServerOwner}

/-- What the decoder uses of the record. -/
def seen (r : Server) : Rtmpd := ⟨r.chunkSz, r.chan, r.toServed.pkts⟩

theorem decodeRtmp_seen (r : Server) :
    r.seen.decodeRtmp r.intake.rbuf.mem r.intake.rbuf.cur =
      ((r.decodeRtmp o).1.seen, (r.decodeRtmp o).2) := by
  unfold decodeRtmp Rtmpd.decodeRtmp
  set r₁ : Server :=
    { r with decoded := some (r.decoded.getD (r.intake.consumed.length, r.intake.rbuf.mem 0)) }
  have hdispatch : ∀ t msg, seen ((endpoint o).dispatch ((endpoint o).setChan r₁ t) msg) =
      Rtmpd.endpoint.dispatch (seen ((endpoint o).setChan r₁ t)) msg := by
    intro t msg
    obtain ⟨hsz, hpkts⟩ := r₁.toServed.rtmpDispatch_pkts (o := o) msg
    exact (Rtmpd.mk.injEq ..).mpr ⟨hsz, rfl, hpkts⟩
  exact Endpoint.decodeRtmp_map seen rfl (fun _ => rfl) (fun _ _ => rfl) hdispatch _ _

end Server
end Mayhem
