import Mathlib.Data.List.ReduceOption
import Mathlib.Tactic.SplitIfs
import Mayhem.Amf.Encode

/-! The arguments of a call while they are put together: `amf_invoke_new`, `amf_invoke_set` and
`amf_invoke_append`. -/
namespace Mayhem

/-- `struct _invoke` with the position of the next append. -/
structure InvokeArgs where
  elem : Invoke
  curElem : UInt32 := 0
  size : elem.length < 0x100000000

namespace InvokeArgs

def amfInvokeNew (nmemb : UInt32) : InvokeArgs where
  elem := List.replicate nmemb.toNat none
  size := by
    rw [List.length_replicate]
    exact nmemb.toNat_lt

/-- `amf_invoke_set`: none if the assertion fails. -/
def amfInvokeSet (inv : InvokeArgs) (elem : ℕ) (obj : Option Amf) : Option (Bool × InvokeArgs) :=
  if elem < inv.elem.length then
    match obj with
    | none => some (false, inv)
    | some obj => some (true, { inv with
        elem := inv.elem.set elem (some obj)
        size := by
          rw [List.length_set]
          exact inv.size })
  else none

/-- The `realloc` of `amf_invoke_append`: none if the new number of slots is 0, so that it frees
them. -/
def grow (inv : InvokeArgs) : Option InvokeArgs :=
  if inv.elem.length ≤ inv.curElem.toNat then
    if h : inv.elem.length + 1 < 0x100000000 then
      some { inv with elem := inv.elem ++ [none], size := by rwa [List.length_append] }
    else none
  else some inv

/-- `amf_invoke_append`: the position is moved before `amf_invoke_set` is called. -/
def amfInvokeAppend (inv : InvokeArgs) (obj : Option Amf) : Option (Bool × InvokeArgs) := do
  let inv ← inv.grow
  { inv with curElem := inv.curElem + 1 }.amfInvokeSet inv.curElem.toNat obj

/-- One append after the other. -/
def run (inv : InvokeArgs) : List (Option Amf) → Option InvokeArgs
  | [] => some inv
  | obj :: vals => do
    let (_, inv) ← inv.amfInvokeAppend obj
    inv.run vals

variable {n : UInt32} {inv inv' : InvokeArgs} {obj : Amf} {ret : Bool} {vals : List (Option Amf)}
  {given : List Amf}

/-! ### A value -/

/-- The slots after the values `given`. -/
structure Filled (n : UInt32) (given : List Amf) (inv : InvokeArgs) : Prop where
  elem : inv.elem = given.map some ++ List.replicate (n.toNat - given.length) none
  curElem : inv.curElem.toNat = given.length

theorem filled_new (n : UInt32) : (amfInvokeNew n).Filled n [] := ⟨rfl, rfl⟩

/-- There is a slot at the position of the next append. -/
theorem Filled.grow (h : inv.Filled n given) (hlen : given.length + 1 < 0x100000000) :
    ∃ inv', inv.grow = some inv' ∧ inv'.curElem = inv.curElem ∧
      inv'.elem = given.map some ++ none :: List.replicate (n.toNat - (given.length + 1)) none := by
  rw [InvokeArgs.grow, h.curElem]
  have hlength : inv.elem.length = given.length + (n.toNat - given.length) := by
    rw [h.elem, List.length_append, List.length_map, List.length_replicate]
  by_cases hfull : inv.elem.length ≤ given.length
  · rw [if_pos hfull, dif_pos (by omega)]
    refine ⟨_, rfl, rfl, ?_⟩
    simp only [h.elem, show n.toNat - given.length = 0 by omega,
      show n.toNat - (given.length + 1) = 0 by omega, List.replicate_zero, List.append_nil]
  · rw [if_neg hfull]
    refine ⟨inv, rfl, rfl, ?_⟩
    rw [h.elem, show n.toNat - given.length = n.toNat - (given.length + 1) + 1 by omega,
      List.replicate_succ]

/-- A value goes into that slot. -/
theorem Filled.append (h : inv.Filled n given) (hlen : given.length + 1 < 0x100000000)
    (obj : Amf) : ∃ inv', inv.amfInvokeAppend (some obj) = some (true, inv') ∧
      inv'.Filled n (given ++ [obj]) := by
  obtain ⟨inv₁, hgrow, hcur, helem⟩ := h.grow hlen
  have hpos : inv₁.curElem.toNat = (given.map some).length := by
    rw [hcur, h.curElem, List.length_map]
  have hroom : inv₁.curElem.toNat < inv₁.elem.length := by
    rw [hpos, helem, List.length_append]
    exact Nat.lt_add_of_pos_right (Nat.succ_pos _)
  rw [amfInvokeAppend, hgrow, Option.bind_eq_bind, Option.bind_some, amfInvokeSet, if_pos hroom]
  refine ⟨_, rfl, ?_, ?_⟩
  · simp only [hpos, helem]
    rw [List.set_append_right _ _ (Nat.le_refl _), Nat.sub_self, List.set_cons_zero,
      List.map_append, List.append_assoc, List.length_append]
    rfl
  · simp only [hcur]
    rw [UInt32.toNat_add, h.curElem, List.length_append]
    exact Nat.mod_eq_of_lt hlen

theorem Filled.run (h : inv.Filled n given) (hsome : none ∉ vals)
    (hlen : given.length + vals.length < 0x100000000) :
    ∃ inv', inv.run vals = some inv' ∧ inv'.Filled n (given ++ vals.reduceOption) := by
  induction vals generalizing inv given with
  | nil => exact ⟨inv, rfl, by rwa [List.reduceOption_nil, List.append_nil]⟩
  | cons val vals ih =>
    obtain ⟨hval, hvals⟩ := not_or.mp (mt List.mem_cons.mpr hsome)
    obtain ⟨obj, rfl⟩ := Option.ne_none_iff_exists'.mp (Ne.symm hval)
    rw [List.length_cons] at hlen
    obtain ⟨inv₁, happend, h₁⟩ := h.append (by omega) obj
    obtain ⟨inv', hrun, h'⟩ := ih h₁ hvals (by rw [List.length_append, List.length_singleton]; omega)
    refine ⟨inv', ?_, ?_⟩
    · rw [InvokeArgs.run, happend]
      exact hrun
    · rwa [List.reduceOption_cons_of_some, List.append_cons]

/-! ### NULL -/

/-- The position is moved for a NULL as well. -/
theorem append_null (h : inv.amfInvokeAppend none = some (ret, inv')) :
    inv'.curElem = inv.curElem + 1 := by
  obtain ⟨inv₁, hgrow, h⟩ := Option.bind_eq_some_iff.mp h
  have hcur : inv₁.curElem = inv.curElem := by
    unfold grow at hgrow
    split_ifs at hgrow
    all_goals
      obtain rfl := Option.some.inj hgrow
      rfl
  unfold amfInvokeSet at h
  split_ifs at h
  obtain ⟨-, rfl⟩ := Prod.mk.inj (Option.some.inj h)
  exact congrArg (· + 1) hcur

/-- Appends are atomic and keep the order: a NULL leaves no trace, and the values are in the
slots from 0 on. -/
structure Atomic (n : UInt32) (vals : List (Option Amf)) : Prop where
  null : ∀ before after, vals = before ++ none :: after →
    ∃ inv, (amfInvokeNew n).run before = some inv ∧ inv.amfInvokeAppend none = some (false, inv)
  values : ∃ inv, (amfInvokeNew n).run vals = some inv ∧
    vals.reduceOption.map some <+: inv.elem ∧
      amfInvokeNargs inv.elem = max n.toNat vals.reduceOption.length

theorem Atomic.null_not_mem (h : Atomic n vals) : none ∉ vals := by
  intro hmem
  obtain ⟨before, after, hvals⟩ := List.append_of_mem hmem
  obtain ⟨inv, -, happend⟩ := h.null before after hvals
  have hcur := append_null happend
  exact absurd hcur (by simp)

/-- Appends are atomic exactly if there are only values, fewer than 4294967296. -/
theorem append_atomic_iff (n : UInt32) (vals : List (Option Amf)) :
    Atomic n vals ↔ none ∉ vals ∧ vals.length < 0x100000000 := by
  constructor
  · intro h
    refine ⟨h.null_not_mem, ?_⟩
    obtain ⟨inv, -, -, hnargs⟩ := h.values
    have hlength := mt List.reduceOption_length_lt_iff.mp h.null_not_mem
    have hsize := inv.size
    unfold amfInvokeNargs at hnargs
    omega
  · rintro ⟨hsome, hlen⟩
    refine ⟨fun before after hvals => ?_, ?_⟩
    · exact absurd (by rw [hvals]; simp) hsome
    · obtain ⟨inv, hrun, h⟩ := (filled_new n).run hsome (by rwa [List.length_nil, Nat.zero_add])
      rw [List.nil_append] at h
      refine ⟨inv, hrun, ?_, ?_⟩
      · rw [h.elem]
        exact List.prefix_append _ _
      · rw [amfInvokeNargs, h.elem, List.length_append, List.length_map, List.length_replicate]
        omega

/-- A NULL keeps a slot, and what is appended behind it is an argument too late. -/
theorem append_null_shifts :
    (∃ inv, (amfInvokeNew 0).run [none, some (.bool true)] = some inv ∧
      inv.elem = [none, some (.bool true)] ∧ amfInvokeToBuf inv.elem = some [5, 1, 1]) ∧
      ¬ Atomic 0 [none, some (.bool true)] :=
  ⟨⟨_, rfl, rfl, rfl⟩, fun h => h.null_not_mem List.mem_cons_self⟩

end InvokeArgs
end Mayhem
