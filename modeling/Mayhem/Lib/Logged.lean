/-! Computations that leave a log of events. -/

structure Logged (ε α : Type) where
  log : List ε := []
  out : α

namespace Logged

variable {ε α β : Type}

def bind (s : Logged ε α) (f : α → Logged ε β) : Logged ε β := ⟨s.log ++ (f s.out).log, (f s.out).out⟩

instance : Monad (Logged ε) where
  pure a := { out := a }
  bind := bind

def tell (e : ε) : Logged ε Unit := { log := [e], out := () }

/-- Every event of the log satisfies `P`. -/
def All (P : ε → Prop) (s : Logged ε α) : Prop := ∀ e ∈ s.log, P e

variable {P : ε → Prop} {s : Logged ε α} {f : α → Logged ε β}

@[simp] theorem pure_out (a : α) : (pure a : Logged ε α).out = a := rfl

@[simp] theorem bind_out : (s >>= f).out = (f s.out).out := rfl

@[simp] theorem tell_out (e : ε) : (tell e).out = () := rfl

@[simp] theorem all_pure (a : α) : (pure a : Logged ε α).All P := nofun

@[simp] theorem all_bind : (s >>= f).All P ↔ s.All P ∧ (f s.out).All P := List.forall_mem_append

@[simp] theorem all_tell {e : ε} : (tell e).All P ↔ P e := by
  simp [All, tell]

@[simp] theorem all_ite {c : Prop} [Decidable c] {t : Logged ε α} :
    (if c then s else t).All P ↔ if c then s.All P else t.All P := by
  split <;> rfl

end Logged
