import Mathlib.Tactic.SplitIfs
import Mayhem.Amf.Value

/-! The members of an object after `amf_object_set`. -/
namespace Mayhem

theorem mem_amfObjectSet {name : CStr} {a : Amf} {obj : List (CStr × Amf)} {e : CStr × Amf}
    (h : e ∈ amfObjectSet name a obj) : e = (name, a) ∨ e ∈ obj := by
  induction obj with
  | nil => exact .inl (List.mem_singleton.mp h)
  | cons e' obj ih =>
    unfold amfObjectSet at h
    split_ifs at h with hkey
    · rcases List.mem_cons.mp h with h | h
      · exact .inl (h.trans (by rw [hkey]))
      · exact .inr (List.mem_cons_of_mem _ h)
    · rcases List.mem_cons.mp h with h | h
      · exact .inr (h ▸ List.mem_cons_self)
      · exact (ih h).imp_right (List.mem_cons_of_mem _)

theorem amfObjectSet_new {name : CStr} {a : Amf} {obj : List (CStr × Amf)}
    (h : name ∉ obj.map Prod.fst) : amfObjectSet name a obj = obj ++ [(name, a)] := by
  induction obj with
  | nil => rfl
  | cons e obj ih =>
    rw [List.map_cons, List.mem_cons, not_or] at h
    rw [amfObjectSet, if_neg (Ne.symm h.1), ih h.2, List.cons_append]

/-- A new name goes to the end. -/
theorem amfObjectSet_map_fst (name : CStr) (a : Amf) (obj : List (CStr × Amf)) :
    (amfObjectSet name a obj).map Prod.fst =
      if name ∈ obj.map Prod.fst then obj.map Prod.fst else obj.map Prod.fst ++ [name] := by
  induction obj with
  | nil => rfl
  | cons e obj ih =>
    unfold amfObjectSet
    by_cases hkey : e.1 = name
    · rw [if_pos hkey, if_pos (by rw [← hkey]; exact List.mem_cons_self)]
      rfl
    · have hmem : name ∈ (e :: obj).map Prod.fst ↔ name ∈ obj.map Prod.fst := by
        rw [List.map_cons, List.mem_cons]
        exact or_iff_right (Ne.symm hkey)
      rw [if_neg hkey, List.map_cons, ih]
      split_ifs <;> simp_all

theorem amfObjectSet_length (name : CStr) (a : Amf) (obj : List (CStr × Amf)) :
    (amfObjectSet name a obj).length ≤ obj.length + 1 := by
  have hlength := congrArg List.length (amfObjectSet_map_fst name a obj)
  rw [List.length_map] at hlength
  split_ifs at hlength
  · rw [hlength, List.length_map]
    exact Nat.le_succ _
  · rw [hlength, List.length_append, List.length_map]
    exact Nat.le_refl _

theorem amfObjectSet_nodup (name : CStr) (a : Amf) {obj : List (CStr × Amf)}
    (h : (obj.map Prod.fst).Nodup) : ((amfObjectSet name a obj).map Prod.fst).Nodup := by
  rw [amfObjectSet_map_fst]
  split_ifs with hmem
  · exact h
  · apply List.nodup_append.mpr
    refine ⟨h, List.pairwise_singleton _ _, fun key hkey name' hname' => ?_⟩
    obtain rfl := List.mem_singleton.mp hname'
    rintro rfl
    exact hmem hkey

theorem forall_amfObjectSet {P : CStr × Amf → Prop} (name : CStr) (a : Amf)
    {obj : List (CStr × Amf)} (h : (obj.map Prod.fst).Nodup) :
    (∀ e ∈ amfObjectSet name a obj, P e) ↔ P (name, a) ∧ ∀ e ∈ obj, e.1 ≠ name → P e := by
  induction obj with
  | nil => simp [amfObjectSet]
  | cons e obj ih =>
    obtain ⟨hnew, hobj⟩ := List.nodup_cons.mp h
    unfold amfObjectSet
    split_ifs with hkey
    · have hother : ∀ e' ∈ obj, e'.1 ≠ name := by
        rintro e' he' rfl
        exact hnew (hkey ▸ List.mem_map_of_mem he')
      rw [List.forall_mem_cons, List.forall_mem_cons, hkey]
      constructor
      · rintro ⟨ha, hrest⟩
        exact ⟨ha, fun hne => absurd rfl hne, fun e' he' _ => hrest e' he'⟩
      · rintro ⟨ha, -, hrest⟩
        exact ⟨ha, fun e' he' => hrest e' he' (hother e' he')⟩
    · rw [List.forall_mem_cons, List.forall_mem_cons, ih hobj]
      constructor
      · rintro ⟨he, ha, hrest⟩
        exact ⟨ha, fun _ => he, hrest⟩
      · rintro ⟨ha, he, hrest⟩
        exact ⟨he hkey, ha, hrest⟩

theorem lookup_amfObjectSet (name key : CStr) (a : Amf) (obj : List (CStr × Amf)) :
    (amfObjectSet name a obj).lookup key = if key = name then some a else obj.lookup key := by
  induction obj with
  | nil =>
    rw [amfObjectSet, List.lookup_cons]
    by_cases hkey : key = name
    · rw [if_pos hkey, beq_iff_eq.mpr hkey]
    · rw [if_neg hkey, beq_eq_false_iff_ne.mpr hkey]
  | cons e obj ih =>
    unfold amfObjectSet
    by_cases he : e.1 = name
    · rw [if_pos he, List.lookup_cons, List.lookup_cons, he]
      by_cases hkey : key = name
      · rw [if_pos hkey, beq_iff_eq.mpr hkey]
      · rw [if_neg hkey, beq_eq_false_iff_ne.mpr hkey]
    · rw [if_neg he, List.lookup_cons, List.lookup_cons, ih]
      by_cases hkey : key = name
      · have hne : key ≠ e.1 := by rw [hkey]; exact Ne.symm he
        rw [if_pos hkey, if_pos hkey, beq_eq_false_iff_ne.mpr hne]
      · rw [if_neg hkey, if_neg hkey]

end Mayhem
