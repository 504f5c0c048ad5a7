import Mayhem.Rtmp.Owner

/-! What can happen between two steps of the receive loop itself, said once: whatever a
handler or its owner does is made of notes in the record, of single sends and of closing, and
what a send that fails brings about is made of the same and of entering and leaving `transition`.
The transitions inside of one another come to an end with the answers of the kernel. -/
namespace Mayhem

/-- Counters and calls are noted; what the connection hangs on stays. -/
structure Line.Notes (l l' : Line) : Prop where
  chunkSz : l'.chunkSz = l.chunkSz
  state : l'.conn.state = l.conn.state
  connReset : l'.conn.connReset = l.conn.connReset
  sock : l'.conn.sock = l.conn.sock
  calls : ∃ cs, l'.conn.calls = l.conn.calls ++ cs ∧ .connected ∉ cs ∧ ∀ s, .connReset s ∉ cs

theorem Line.Notes.of_conn {l l' : Line} (hsz : l'.chunkSz = l.chunkSz) (h : l'.conn = l.conn) :
    l.Notes l' :=
  ⟨hsz, by rw [h], by rw [h], by rw [h], [], by simp [h], by simp, by simp⟩

/-- The state that a send which ends like this resets the connection to. -/
def SendEnd.fatal : SendEnd → Option ConnState
  | .failed => some .abort
  | .closed => some .connReset
  | _ => none

/-- A send that resets the connection has taken an answer of the kernel. -/
theorem sendRaw_shorter (ks : List SendRes) (buf : List UInt8) :
    (sendRaw ks buf).2.1.length ≤ ks.length ∧
      ((sendRaw ks buf).1.fatal ≠ none → (sendRaw ks buf).2.1.length < ks.length) := by
  fun_induction sendRaw ks buf with
  | case1 ks => simp [SendEnd.fatal]
  | case2 buf _ => simp [SendEnd.fatal]
  | case3 ks buf _ => simp
  | case4 n ks buf _ e ks' out hres ih =>
    rw [hres] at ih
    exact ⟨ih.1.trans (Nat.le_succ _), fun hf => (ih.2 hf).trans (Nat.lt_succ_self _)⟩
  | case5 ks buf _ => simp
  | case6 ks buf _ => simp

namespace Owned

/-- The record once `sock_send` has been called for `buf`. -/
def offer (r : Owned) (buf : List UInt8) : Owned :=
  { r with conn := { r.conn with sock :=
    ⟨(sendRaw r.conn.sock.script buf).2.1,
      r.conn.sock.sent ++ (sendRaw r.conn.sock.script buf).2.2⟩ } }

theorem sendAll_cons (o : Owner) (r : Owned) (buf : List UInt8) (bufs : List (List UInt8)) :
    r.sendAll o (buf :: bufs) =
      match r.rtmpSendRaw o buf with
      | (r, true) => r.sendAll o bufs
      | (r, false) => (r, false) := rfl

/-- `rtmp_send_raw` ends behind its `sock_send` or in the transition that this calls for. -/
theorem rtmpSendRawBy_cases (reset : Owned → ConnState → Owned) (r : Owned) (buf : List UInt8) :
    (sendRaw r.conn.sock.script buf).1 = .sent ∧ r.rtmpSendRawBy reset buf = (r.offer buf, true) ∨
      (sendRaw r.conn.sock.script buf).1 = .blocked ∧
        r.rtmpSendRawBy reset buf = (r.offer buf, false) ∨
      ∃ s, (sendRaw r.conn.sock.script buf).1.fatal = some s ∧
        r.rtmpSendRawBy reset buf = (reset (r.offer buf) s, false) := by
  unfold rtmpSendRawBy offer
  obtain ⟨e, ks, out⟩ := sendRaw r.conn.sock.script buf
  cases e with
  | sent => exact .inl ⟨rfl, rfl⟩
  | blocked => exact .inr (.inl ⟨rfl, rfl⟩)
  | failed => exact .inr (.inr ⟨.abort, rfl, rfl⟩)
  | closed => exact .inr (.inr ⟨.connReset, rfl, rfl⟩)

/-- A relation that every part of a plan keeps, with `reset` as the transition behind a send. -/
structure SendRule (reset : Owned → ConnState → Owned) (R : Owned → Owned → Prop) : Prop where
  refl : ∀ r, R r r
  trans : ∀ {r r' r''}, R r r' → R r' r'' → R r r''
  pops : ∀ r : Owned, R r { r with conn := { r.conn with stack := r.conn.stack.tail } }
  sends : ∀ (r : Owned) (buf : List UInt8), R r (r.rtmpSendRawBy reset buf).1
  closes : ∀ r : Owned, R r r.rtmpClose

namespace SendRule

variable {reset : Owned → ConnState → Owned} {R : Owned → Owned → Prop} (h : SendRule reset R)
include h

theorem sendAllBy (r : Owned) (bufs : List (List UInt8)) : R r (r.sendAllBy reset bufs).1 := by
  induction bufs generalizing r with
  | nil => exact h.refl r
  | cons buf bufs ih =>
    have hraw := h.sends r buf
    unfold Owned.sendAllBy
    cases hres : r.rtmpSendRawBy reset buf with
    | mk r' ok =>
      rw [hres] at hraw
      cases ok with
      | true => exact h.trans hraw (ih r')
      | false => exact hraw

theorem rtmpSendBy (r : Owned) (x : OutMsg) : R r (r.rtmpSendBy reset x).1 :=
  h.trans (h.pops r) (h.sendAllBy _ _)

theorem performBy (r : Owned) (plan : Plan) : R r (r.performBy reset plan) := by
  induction plan generalizing r with
  | done => exact h.refl r
  | send x next ih => exact h.trans (h.rtmpSendBy r x) (ih _ _)
  | close next ih => exact h.trans (h.closes r) (ih _)

end SendRule

/-- A relation that every single move keeps, those inside of a transition included. -/
structure Moves (R : Owned → Owned → Prop) : Prop where
  refl : ∀ r, R r r
  trans : ∀ {r r' r''}, R r r' → R r' r'' → R r r''
  pops : ∀ r : Owned, R r { r with conn := { r.conn with stack := r.conn.stack.tail } }
  offers : ∀ (r : Owned) (buf : List UInt8), R r (r.offer buf)
  enters : ∀ (r : Owned) (buf : List UInt8) (s : ConnState),
    (sendRaw r.conn.sock.script buf).1.fatal = some s → R r ((r.offer buf).enter s)
  leaves : ∀ r : Owned, R r r.leave
  closes : ∀ r : Owned, R r r.rtmpClose

namespace Moves

variable {o : Owner} {R : Owned → Owned → Prop} (h : Moves R)
include h

theorem sendRule {reset : Owned → ConnState → Owned}
    (hreset : ∀ r s, R (r.enter s) (reset r s)) : SendRule reset R where
  refl := h.refl
  trans := h.trans
  pops := h.pops
  sends r buf := by
    obtain ⟨-, hres⟩ | ⟨-, hres⟩ | ⟨s, hs, hres⟩ := r.rtmpSendRawBy_cases reset buf
    · rw [hres]
      exact h.offers r buf
    · rw [hres]
      exact h.offers r buf
    · rw [hres]
      exact h.trans (h.enters r buf s hs) (hreset _ _)
  closes := h.closes

theorem resetIn (n : ℕ) (r : Owned) (s : ConnState) : R (r.enter s) (r.resetIn o n s) := by
  induction n generalizing r s with
  | zero => exact h.leaves _
  | succ n ih => exact h.trans ((h.sendRule ih).performBy _ _) (h.leaves _)

/-- What a transition does behind its entry. -/
theorem reset (r : Owned) (s : ConnState) : R (r.enter s) (r.reset o s) := h.resetIn _ r s

theorem plans : SendRule (Owned.reset o) R := h.sendRule h.reset

end Moves

/-! ### The depth of the transitions -/

/-- The answers of the kernel left. -/
def left (r : Owned) : ℕ := r.conn.sock.script.length

theorem leftMoves : Moves fun r r' => r'.left ≤ r.left where
  refl _ := le_rfl
  trans h h' := h'.trans h
  pops _ := le_rfl
  offers _ _ := (sendRaw_shorter _ _).1
  enters _ _ _ _ := (sendRaw_shorter _ _).1
  leaves _ := le_rfl
  closes _ := le_rfl

section

variable {f g : Owned → ConnState → Owned} {n : ℕ}
  (hfg : ∀ r s, r.left < n → f r s = g r s) (hf : SendRule f fun r r' => r'.left ≤ r.left)
include hfg

theorem rtmpSendRawBy_congr {r : Owned} (hr : r.left ≤ n) (buf : List UInt8) :
    r.rtmpSendRawBy f buf = r.rtmpSendRawBy g buf := by
  have hshort := (sendRaw_shorter r.conn.sock.script buf).2
  unfold rtmpSendRawBy
  generalize sendRaw r.conn.sock.script buf = res at hshort
  obtain ⟨e, ks, out⟩ := res
  cases e with
  | sent => rfl
  | blocked => rfl
  | failed => exact congrArg (·, false) (hfg _ _ ((hshort (by simp [SendEnd.fatal])).trans_le hr))
  | closed => exact congrArg (·, false) (hfg _ _ ((hshort (by simp [SendEnd.fatal])).trans_le hr))

include hf

theorem sendAllBy_congr {r : Owned} (hr : r.left ≤ n) (bufs : List (List UInt8)) :
    r.sendAllBy f bufs = r.sendAllBy g bufs := by
  induction bufs generalizing r with
  | nil => rfl
  | cons buf bufs ih =>
    have hraw := hf.sends r buf
    unfold sendAllBy
    rw [← rtmpSendRawBy_congr hfg hr]
    cases hres : r.rtmpSendRawBy f buf with
    | mk r' ok =>
      rw [hres] at hraw
      cases ok with
      | true => exact ih (hraw.trans hr)
      | false => rfl

theorem performBy_congr {r : Owned} (hr : r.left ≤ n) (plan : Plan) :
    r.performBy f plan = r.performBy g plan := by
  induction plan generalizing r with
  | done => rfl
  | send x next ih =>
    have hsend : r.rtmpSendBy f x = r.rtmpSendBy g x :=
      sendAllBy_congr (r := { r with conn := { r.conn with stack := r.conn.stack.tail } }) hfg hf hr _
    unfold performBy
    rw [← hsend]
    exact ih _ ((hf.rtmpSendBy r x).trans hr)
  | close next ih => exact ih hr

end

theorem resetIn_eq (o : Owner) {n m : ℕ} {r : Owned} (hn : r.left < n) (hm : r.left < m)
    (s : ConnState) : r.resetIn o n s = r.resetIn o m s := by
  induction n generalizing m r s with
  | zero => exact absurd hn (Nat.not_lt_zero _)
  | succ n ih =>
    obtain ⟨m, rfl⟩ := Nat.exists_eq_succ_of_ne_zero (Nat.ne_zero_of_lt hm)
    have hfg : ∀ r' s', r'.left < r.left → resetIn o n r' s' = resetIn o m r' s' :=
      fun _ s' hr' => ih (hr'.trans_le (Nat.lt_succ_iff.mp hn))
        (hr'.trans_le (Nat.lt_succ_iff.mp hm)) s'
    exact congrArg leave
      (performBy_congr hfg (leftMoves.sendRule (leftMoves.resetIn n)) (r := r.enter s) le_rfl _)

/-- The transitions inside of one are all there: their depth is no limit. -/
theorem reset_eq (o : Owner) (r : Owned) (s : ConnState) :
    r.reset o s = r.resetBy o (reset o) s := by
  have hfg : ∀ r' s', r'.left < r.left → resetIn o r.left r' s' = reset o r' s' :=
    fun _ s' hr' => resetIn_eq o hr' (Nat.lt_succ_self _) s'
  exact congrArg leave
    (performBy_congr hfg (leftMoves.sendRule (leftMoves.resetIn _)) (r := r.enter s) le_rfl _)

/-- A relation that every single move of a handler keeps. -/
structure Rule (o : Owner) (R : Owned → Owned → Prop) : Prop where
  refl : ∀ r, R r r
  trans : ∀ {r r' r''}, R r r' → R r' r'' → R r r''
  notes : ∀ (r : Owned) (l : Line), r.toLine.Notes l → R r { r with toLine := l }
  sends : ∀ (r : Owned) (buf : List UInt8), R r (r.rtmpSendRaw o buf).1
  closes : ∀ r : Owned, R r r.rtmpClose

theorem Moves.rule {o : Owner} {R : Owned → Owned → Prop} (h : Moves R)
    (hnotes : ∀ (r : Owned) (l : Line), r.toLine.Notes l → R r { r with toLine := l }) :
    Rule o R where
  refl := h.refl
  trans := h.trans
  notes := hnotes
  sends := h.plans.sends
  closes := h.closes

namespace Rule

variable {o : Owner} {R : Owned → Owned → Prop} (h : Rule o R)
include h

theorem plans : SendRule (Owned.reset o) R where
  refl := h.refl
  trans := h.trans
  pops r := h.notes r { r.toLine with conn := { r.conn with stack := r.conn.stack.tail } }
    ⟨rfl, rfl, rfl, rfl, [], by simp, by simp, by simp⟩
  sends := h.sends
  closes := h.closes

theorem rtmpSend (r : Owned) (x : OutMsg) : R r (r.rtmpSend o x).1 := h.plans.rtmpSendBy r x

theorem perform (r : Owned) (plan : Plan) : R r (r.perform o plan) := h.plans.performBy r plan

theorem callback (r : Owned) {c : Call} (hc : c ≠ .connected) (hr : ∀ s, c ≠ .connReset s) :
    R r (r.callback o c) :=
  h.trans (h.notes r (r.toLine.call c) ⟨rfl, rfl, rfl, rfl, [c], rfl, by simpa using hc.symm,
    fun s => by simpa using (hr s).symm⟩) (h.perform _ _)

theorem handlers : (carrier o).Rule R where
  refl := h.refl
  trans := h.trans
  modify hf := h.notes _ _ (.of_conn (hf _).chunkSz (hf _).conn)
  rtmpSend r chan dest ts type pkt := h.rtmpSend r ⟨chan, dest, ts, type, pkt⟩
  call hc hr := h.callback _ hc hr

/-- A message is a move, too, if asking for a size of the buffer is one. -/
theorem rtmpDispatch (hreq : ∀ (r : Owned) (sz : ℕ), R r (r.rbufRequestSize o sz).1) (r : Owned)
    (msg : Msg) : R r (r.rtmpDispatch o msg) :=
  h.handlers.rtmpDispatch (fun _ _ => h.notes _ _ (.of_conn rfl rfl)) hreq r msg

end Rule
end Owned
end Mayhem
