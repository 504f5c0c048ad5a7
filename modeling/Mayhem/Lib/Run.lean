import Mathlib.Logic.Relation

/-! Runs of a transition system all of whose steps start in states that meet a guard, or are
actions that may be taken there, and the induction rules for their invariants. -/
namespace Run

open Relation

variable {σ : Type*}

/-- The states reached from `s` by steps that start under `Guard`. -/
abbrev Under (Guard : σ → Prop) (Step : σ → σ → Prop) : σ → σ → Prop :=
  ReflTransGen fun s s' => Guard s ∧ Step s s'

variable {Guard : σ → Prop} {Step : σ → σ → Prop} {s₀ s : σ}

/-- What every guarded step preserves holds along the run. -/
theorem invariant {Inv : σ → Prop} (hstep : ∀ s s', Inv s → Guard s → Step s s' → Inv s')
    (h₀ : Inv s₀) (hrun : Under Guard Step s₀ s) : Inv s := by
  induction hrun with
  | refl => exact h₀
  | tail _ hs ih => exact hstep _ _ ih hs.1 hs.2

/-! ### Actions -/

variable {α : Type*}

/-- The states reached from `s` by actions that are `Ok` where they are taken. -/
abbrev Along (Ok : σ → α → Prop) (step : σ → α → Option σ) : σ → σ → Prop :=
  ReflTransGen fun s s' => ∃ a, Ok s a ∧ step s a = some s'

variable {Ok Ok' : σ → α → Prop} {step : σ → α → Option σ} {s' : σ}

theorem along_invariant {Inv : σ → Prop}
    (hstep : ∀ s a s', Inv s → Ok s a → step s a = some s' → Inv s') (h₀ : Inv s₀)
    (hrun : Along Ok step s₀ s) : Inv s := by
  induction hrun with
  | refl => exact h₀
  | tail _ hs ih =>
    obtain ⟨a, hok, hs⟩ := hs
    exact hstep _ a _ ih hok hs

theorem along_mono (h : ∀ s a, Ok s a → Ok' s a) (hrun : Along Ok step s₀ s) :
    Along Ok' step s₀ s := by
  refine ReflTransGen.mono ?_ _ _ hrun
  rintro s _ ⟨a, hok, hs⟩
  exact ⟨a, h s a hok, hs⟩

/-- Take the actions of a list one after the other. -/
def exec (step : σ → α → Option σ) (s : σ) (acts : List α) : Option σ := acts.foldlM step s

theorem along_of_exec [∀ s a, Decidable (Ok s a)] {acts : List α}
    (h : exec (fun s a => if Ok s a then step s a else none) s acts = some s') :
    Along Ok step s s' := by
  induction acts generalizing s with
  | nil =>
    obtain rfl := Option.some.inj h
    exact .refl
  | cons a acts ih =>
    rw [exec, List.foldlM_cons] at h
    obtain ⟨t, ht, h⟩ := Option.bind_eq_some_iff.mp h
    split at ht
    · exact .head ⟨a, ‹_›, ht⟩ (ih h)
    · cases ht

end Run
