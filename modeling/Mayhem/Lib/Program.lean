/-! Programs that work on a state and may fail, with weakest preconditions. -/

abbrev Program (σ ε : Type) := StateT σ (Except ε)

namespace Program

variable {σ ε α β : Type}

/-- From `s` the program does not fail, and what it returns and leaves behind satisfies `P`. -/
def Ends (c : Program σ ε α) (s : σ) (P : α → σ → Prop) : Prop :=
  match c s with
  | .ok r => P r.1 r.2
  | .error _ => False

variable {c : Program σ ε α} {s : σ} {P Q : α → σ → Prop}

theorem ends_iff : Ends c s P ↔ ∃ a s', c s = .ok (a, s') ∧ P a s' := by
  rw [Ends]
  cases c s with
  | ok r => exact ⟨fun h => ⟨r.1, r.2, rfl, h⟩, by rintro ⟨a, s', ⟨⟩, h⟩; exact h⟩
  | error e => exact ⟨False.elim, by rintro ⟨a, s', ⟨⟩, -⟩⟩

theorem Ends.mono (h : Ends c s P) (hPQ : ∀ a s', P a s' → Q a s') : Ends c s Q := by
  obtain ⟨a, s', hc, hP⟩ := ends_iff.mp h
  exact ends_iff.mpr ⟨a, s', hc, hPQ a s' hP⟩

theorem ends_congr (h : ∀ a s', P a s' ↔ Q a s') : Ends c s P ↔ Ends c s Q :=
  ⟨fun hc => hc.mono fun a s' => (h a s').mp, fun hc => hc.mono fun a s' => (h a s').mpr⟩

@[simp] theorem ends_pure {a : α} : Ends (pure a : Program σ ε α) s P ↔ P a s := Iff.rfl

@[simp] theorem ends_bind {f : α → Program σ ε β} {P : β → σ → Prop} :
    Ends (c >>= f) s P ↔ Ends c s fun a s' => Ends (f a) s' P := by
  have hrun : (c >>= f) s = c s >>= fun r => f r.1 r.2 := rfl
  rw [Ends, Ends, hrun]
  cases c s with
  | ok r => exact Iff.rfl
  | error e => exact Iff.rfl

@[simp] theorem ends_ite {p : Prop} [Decidable p] {c' : Program σ ε α} :
    Ends (if p then c else c') s P ↔ if p then Ends c s P else Ends c' s P := by
  split <;> rfl

@[simp] theorem ends_throw {e : ε} : Ends (throw e : Program σ ε α) s P ↔ False := Iff.rfl

@[simp] theorem ends_get {P : σ → σ → Prop} : Ends (get : Program σ ε σ) s P ↔ P s s := Iff.rfl

@[simp] theorem ends_modify {f : σ → σ} {P : Unit → σ → Prop} :
    Ends (modify f : Program σ ε Unit) s P ↔ P () (f s) := Iff.rfl

@[simp] theorem ends_lift {x : Except ε α} :
    Ends (liftM x : Program σ ε α) s P ↔ ∃ a, x = .ok a ∧ P a s := by
  cases x with
  | ok a => exact ⟨fun h => ⟨a, rfl, h⟩, by rintro ⟨_, ⟨⟩, h⟩; exact h⟩
  | error e => exact ⟨False.elim, by rintro ⟨_, ⟨⟩, -⟩⟩

end Program
