import Mayhem.Rtmp.Served
import Mathlib.Data.List.Infix
import Mathlib.Tactic.ByContra
import Mathlib.Tactic.SplitIfs

/-! What a call of `rtmp_send_raw` loses. Behind a partial send the loop header steps over
one byte, in `rtmp.c` as in `rtmpd.c`. -/
namespace Mayhem

/-- `after` is `before` with a part of `buf` from its start behind it, all of `buf` if the
call that came between returned 1. -/
def Lossless (before after : List UInt8) (ret : Bool) (buf : List UInt8) : Prop :=
  ∃ out, after = before ++ out ∧ out <+: buf ∧ (ret = true → out = buf)

def Conn.Lossless (c : Conn) (buf : List UInt8) : Prop :=
  Mayhem.Lossless c.sock.sent (rtmpSendRaw c buf).1.sock.sent (rtmpSendRaw c buf).2 buf

def Served.Lossless (o : ServerOwner) (r : Served) (buf : List UInt8) : Prop :=
  Mayhem.Lossless r.sock.sent (r.rtmpSendRaw o buf).1.sock.sent (r.rtmpSendRaw o buf).2 buf

/-- The next `sock_send` takes nothing. -/
def TakesNothing : List SendRes → Prop
  | [] | .accepts (_ + 1) :: _ => False
  | _ => True

/-- The first `sock_send` of a buffer of `n` bytes takes all of it or nothing, or it takes
a part that leaves at least two bytes and the second one takes nothing. -/
def Whole : List SendRes → ℕ → Prop
  | .accepts (k + 1) :: ks, n => n ≤ k + 1 ∨ k + 2 < n ∧ TakesNothing ks
  | _, _ => True

/-- The call is refused in the end, and what it takes of `rest` on the way is what `want`
has at this place: bytes were skipped, but others of the same value came in their place. -/
def Echoes : List SendRes → List UInt8 → List UInt8 → Prop
  | _, _, [] => False
  | [], _, _ => False
  | .accepts (k + 1) :: ks, want, rest =>
    rest.take (k + 1) <+: want ∧
      Echoes ks (want.drop (rest.take (k + 1)).length) ((rest.drop (k + 1)).drop 1)
  | _, _, _ => True

/-- Prefixes are compared piece by piece. -/
theorem append_prefix_iff {α : Type*} (a b l : List α) :
    a ++ b <+: l ↔ a <+: l ∧ b <+: l.drop a.length := by
  constructor
  · rintro ⟨t, rfl⟩
    exact ⟨⟨b ++ t, by simp⟩, ⟨t, by simp⟩⟩
  · rintro ⟨⟨t, rfl⟩, hb⟩
    rw [List.drop_left] at hb
    exact (List.prefix_append_right_inj a).mpr hb

theorem append_eq_iff {α : Type*} {a b l : List α} (h : a <+: l) :
    a ++ b = l ↔ b = l.drop a.length := by
  obtain ⟨t, rfl⟩ := h
  rw [List.drop_left, List.append_cancel_left_eq]

theorem sendRaw_length (ks : List SendRes) (buf : List UInt8) :
    (sendRaw ks buf).2.2.length ≤ buf.length := by
  induction ks generalizing buf with
  | nil => cases buf <;> simp [sendRaw]
  | cons k ks ih =>
    cases buf with
    | nil => simp [sendRaw]
    | cons b buf =>
      match k with
      | .again | .fails | .accepts 0 => simp [sendRaw]
      | .accepts (n + 1) =>
        have hrest := ih (((b :: buf).drop (n + 1)).drop 1)
        simp only [sendRaw]
        generalize sendRaw ks (((b :: buf).drop (n + 1)).drop 1) = res at hrest ⊢
        obtain ⟨e, ks', out⟩ := res
        simp only [List.length_append, List.length_take, List.length_drop] at hrest ⊢
        omega

/-- Once a byte has been skipped the rest of `rtmp_send_raw` may only echo. -/
theorem sendRaw_echoes (ks : List SendRes) {want rest : List UInt8}
    (hlt : rest.length < want.length) :
    ((sendRaw ks rest).2.2 <+: want ∧
      ((sendRaw ks rest).1 = .sent → (sendRaw ks rest).2.2 = want)) ↔ Echoes ks want rest := by
  -- with a byte missing the whole of `want` cannot come out
  have hne : (sendRaw ks rest).2.2 ≠ want := by
    intro h
    have := sendRaw_length ks rest
    rw [h] at this
    omega
  simp only [hne, imp_false]
  clear hne
  induction ks generalizing want rest with
  | nil => cases rest <;> simp [sendRaw, Echoes]
  | cons k ks ih =>
    cases rest with
    | nil => simp [sendRaw, Echoes]
    | cons b rest =>
      cases k with
      | again => simp [sendRaw, Echoes]
      | fails => simp [sendRaw, Echoes]
      | accepts n =>
        cases n with
        | zero => simp [sendRaw, Echoes]
        | succ n =>
          have hlen : (((b :: rest).drop (n + 1)).drop 1).length <
              (want.drop ((b :: rest).take (n + 1)).length).length := by
            simp only [List.length_drop, List.length_take, List.length_cons] at hlt ⊢
            omega
          simp only [sendRaw, Echoes, ← ih hlen, append_prefix_iff, and_assoc]

theorem TakesNothing.echoes {ks : List SendRes} (h : TakesNothing ks) (want : List UInt8)
    {rest : List UInt8} (hpos : 0 < rest.length) : Echoes ks want rest := by
  cases rest with
  | nil => simp at hpos
  | cons b rest =>
    match ks, h with
    | .again :: _, _ | .fails :: _, _ | .accepts 0 :: _, _ => simp [Echoes]

/-- What one call of `rtmp_send_raw` does with a buffer. -/
theorem sendRaw_iff (ks : List SendRes) (buf : List UInt8) :
    ((sendRaw ks buf).2.2 <+: buf ∧ ((sendRaw ks buf).1 = .sent → (sendRaw ks buf).2.2 = buf)) ↔
      Whole ks buf.length ∨ Echoes ks buf buf := by
  cases buf with
  | nil =>
    have hw : Whole ks 0 := by
      unfold Whole
      split <;> simp
    simp [sendRaw, hw]
  | cons b buf =>
    match ks with
    | [] | .again :: _ | .fails :: _ | .accepts 0 :: _ => simp [sendRaw, Whole]
    | .accepts (k + 1) :: ks =>
      rcases Nat.lt_or_ge (k + 1) (b :: buf).length with hlt | hge
      · -- a partial send: the byte behind it is skipped
        have htake : (b :: buf).take (k + 1) <+: b :: buf := List.take_prefix _ _
        have hlen : (((b :: buf).drop (k + 1)).drop 1).length <
            ((b :: buf).drop (k + 1)).length := by
          simp only [List.length_drop, List.length_cons] at hlt ⊢
          omega
        have hk : ((b :: buf).take (k + 1)).length = k + 1 := List.length_take_of_le hlt.le
        have hrest := sendRaw_echoes ks hlen
        have hsame : Echoes (.accepts (k + 1) :: ks) (b :: buf) (b :: buf) ↔
            Echoes ks ((b :: buf).drop (k + 1)) (((b :: buf).drop (k + 1)).drop 1) := by
          simp only [Echoes, hk, htake, true_and]
        have hall : ∀ out, (b :: buf).take (k + 1) ++ out = b :: buf ↔
            out = (b :: buf).drop (k + 1) := fun out => by
          rw [append_eq_iff htake, hk]
        have hwhole : Whole (.accepts (k + 1) :: ks) (b :: buf).length →
            Echoes (.accepts (k + 1) :: ks) (b :: buf) (b :: buf) := by
          rintro (hle | ⟨hlt', href⟩)
          · omega
          · rw [hsame]
            exact href.echoes _ (by simp only [List.length_drop]; omega)
        rw [or_iff_right_of_imp hwhole, hsame, ← hrest]
        simp only [sendRaw, append_prefix_iff, hk, htake, true_and, hall]
      · have htake : (b :: buf).take (k + 1) = b :: buf := List.take_of_length_le hge
        have hdrop : ((b :: buf).drop (k + 1)).drop 1 = [] := by
          rw [List.drop_of_length_le hge, List.drop_nil]
        have hw : Whole (.accepts (k + 1) :: ks) (b :: buf).length := Or.inl hge
        simp only [hw, true_or, iff_true]
        simp only [sendRaw, hdrop, htake]
        simp

/-- `rtmp_send_raw` of `rtmp.c` on the socket. -/
theorem Conn.lossless_iff (c : Conn) (buf : List UInt8) :
    c.Lossless buf ↔ Whole c.sock.script buf.length ∨ Echoes c.sock.script buf buf := by
  rw [← sendRaw_iff]
  unfold Conn.Lossless Mayhem.Lossless rtmpSendRaw
  generalize sendRaw c.sock.script buf = res
  obtain ⟨e, ks, out⟩ := res
  cases e <;> simp [Conn.reset]

theorem Served.reset_sock (o : ServerOwner) (r : Served) (state : ConnState) :
    (r.reset o state).sock = r.sock := by
  unfold Served.reset
  dsimp only
  split_ifs <;> rfl

/-- `rtmp_send_raw` of `rtmpd.c`. -/
theorem Served.lossless_iff (o : ServerOwner) (r : Served) (buf : List UInt8) :
    r.Lossless o buf ↔ Whole r.sock.script buf.length ∨ Echoes r.sock.script buf buf := by
  rw [← sendRaw_iff]
  unfold Served.Lossless Mayhem.Lossless Served.rtmpSendRaw
  generalize sendRaw r.sock.script buf = res
  obtain ⟨e, ks, out⟩ := res
  cases e <;> simp [Served.reset_sock]

/-- A buffer that tells the skipped byte from the one behind it. -/
theorem exists_not_echoes {ks : List SendRes} {n : ℕ} (h : ¬ Whole ks n) :
    ∃ buf, buf.length = n ∧ ¬ Echoes ks buf buf := by
  match ks with
  | [] | .again :: _ | .fails :: _ | .accepts 0 :: _ => exact absurd trivial h
  | .accepts (k + 1) :: ks =>
    simp only [Whole, not_or, not_le, not_and] at h
    obtain ⟨hk, href⟩ := h
    let buf : List UInt8 := List.replicate (k + 2) 0 ++ List.replicate (n - (k + 2)) 1
    have hlen : buf.length = n := by
      simp only [buf, List.length_append, List.length_replicate]
      omega
    have htake : (buf.take (k + 1)).length = k + 1 := List.length_take_of_le (by omega)
    have hwant : buf.drop (k + 1) = 0 :: List.replicate (n - (k + 2)) 1 := by
      simp only [buf, List.replicate_succ', List.append_assoc]
      rw [← List.append_assoc, List.drop_left' (by simp)]
      rfl
    refine ⟨buf, hlen, ?_⟩
    obtain ⟨b, bs, hbuf⟩ : ∃ b bs, buf = b :: bs := List.exists_cons_of_length_pos (by omega)
    rw [hbuf] at htake hwant ⊢
    simp only [Echoes, htake, hwant, List.drop_succ_cons, List.drop_zero, not_and]
    intro _
    rcases Nat.lt_or_ge (k + 2) n with hlt | hge
    · obtain ⟨m, hm⟩ : ∃ m, n - (k + 2) = m + 1 := ⟨n - (k + 2) - 1, by omega⟩
      rw [hm, List.replicate_succ]
      match ks, href hlt with
      | [], _ => exact id
      | .accepts (j + 1) :: _, _ => simp [Echoes]
      | .again :: _, h | .fails :: _, h | .accepts 0 :: _, h => exact absurd trivial h
    · rw [show n - (k + 2) = 0 by omega]
      simp [Echoes]

/-- For any results of `sock_send` and any length: `rtmp_send_raw` loses nothing of a buffer
if and only if the sends are whole or leave an echo, and nothing of any buffer of the length
if and only if they are whole. -/
theorem partial_writes (ks : List SendRes) (n : ℕ) :
    (∀ (c : Conn) (buf : List UInt8), c.sock.script = ks → buf.length = n →
      (c.Lossless buf ↔ Whole ks n ∨ Echoes ks buf buf)) ∧
    (∀ (o : ServerOwner) (r : Served) (buf : List UInt8), r.sock.script = ks → buf.length = n →
      (r.Lossless o buf ↔ Whole ks n ∨ Echoes ks buf buf)) ∧
    ((∀ (c : Conn) (buf : List UInt8), c.sock.script = ks → buf.length = n → c.Lossless buf) ↔
      Whole ks n) := by
  have hclient : ∀ (c : Conn) (buf : List UInt8), c.sock.script = ks → buf.length = n →
      (c.Lossless buf ↔ Whole ks n ∨ Echoes ks buf buf) := by
    rintro c buf rfl rfl
    exact c.lossless_iff buf
  refine ⟨hclient, ?_, ?_⟩
  · rintro o r buf rfl rfl
    exact r.lossless_iff o buf
  · constructor
    · intro h
      by_contra hw
      obtain ⟨buf, hlen, hecho⟩ := exists_not_echoes hw
      have hless := h { sock := { script := ks } } buf rfl hlen
      exact ((hclient _ buf rfl hlen).mp hless).elim hw hecho
    · intro hw c buf hc hlen
      exact (hclient c buf hc hlen).mpr (Or.inl hw)

/-- The kernel takes one byte of three: the second one is never offered, and the call
returns 1. -/
theorem lossy_three : ¬ ({ sock := { script := [.accepts 1] } } : Conn).Lossless [1, 2, 3] := by
  rw [Conn.lossless_iff]
  simp [Whole, TakesNothing, Echoes]

end Mayhem
