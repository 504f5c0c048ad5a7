import Mayhem.Amf.Object
import Mayhem.Amf.Owned.Values

/-! Members of objects: `amf_object_set`, which takes a value or leaves it to the caller. -/
namespace Mayhem.Blocks

open BlockHeap
open scoped Pointwise

variable {grants : ℕ → Bool} {E : Fault → Prop} {l l₁ l₂ : List AmfElem}
  {q : Option ℕ} {elem e₁ e₂ : List (CStr × Amf)} {name key : CStr} {val : Amf}

def isMembers (elem : List (CStr × Amf)) (l : List AmfElem) (q : Option ℕ) : Own :=
  isElem l q + each (memberSlots elem) l

theorem slotOf_some (x : AmfElem) : slotOf (some key) val x =
    ⋃ k, ⋃ v, given (x = ⟨some k, some v⟩) (cell k (.str key) + isAmf val v) := by
  obtain ⟨k, v⟩ := x
  ext own
  cases k with
  | none => simp [slotOf, isStr, mem_given]
  | some k =>
    cases v with
    | none => simp [slotOf, isStr, mem_given, Set.add_iUnion, add_given]
    | some v => simp [slotOf, isStr, mem_given, Set.add_iUnion, add_given]

/-- One of the members, and the others. -/
theorem isMembers_split : isMembers (e₁ ++ (key, val) :: e₂) l q =
    ⋃ a, ⋃ k, ⋃ v, ⋃ l₁, ⋃ l₂,
      given (q = some a ∧ l = l₁ ++ ⟨some k, some v⟩ :: l₂ ∧ l₁.length = e₁.length)
        (cell a (.elem l) + (cell k (.str key) + (isAmf val v +
          (each (memberSlots e₁) l₁ + each (memberSlots e₂) l₂)))) := by
  have hslots : memberSlots (e₁ ++ (key, val) :: e₂) =
      memberSlots e₁ ++ slotOf (some key) val :: memberSlots e₂ := by
    simp only [memberSlots_eq, List.map_append, List.map_cons]
  have hlen : (memberSlots e₁).length = e₁.length := by rw [memberSlots_eq, List.length_map]
  rw [isMembers, hslots, each_split]
  ext own
  simp only [slotOf_some, Set.iUnion_add, Set.add_iUnion, given_add, add_given, Set.mem_iUnion,
    mem_given, hlen, add_assoc]
  constructor
  · rintro ⟨l₁, x, l₂, ⟨rfl, h₁⟩, k, v, rfl, hown⟩
    rw [isElem_cons (by simp), Set.iUnion_add, Set.mem_iUnion] at hown
    obtain ⟨a, hown⟩ := hown
    rw [given_add, mem_given] at hown
    exact ⟨a, k, v, l₁, l₂, ⟨hown.1, rfl, h₁⟩, hown.2⟩
  · rintro ⟨a, k, v, l₁, l₂, ⟨rfl, rfl, h₁⟩, hown⟩
    exact ⟨l₁, _, l₂, ⟨rfl, h₁⟩, k, v, rfl, hown⟩

theorem triple_key {i : ℕ} (hi : i = e₁.length) : Triple grants
    (isMembers (e₁ ++ (key, val) :: e₂) l q) (do let x ← slotAt q i; strAt x.key)
    (fun r => given (r = key) (isMembers (e₁ ++ (key, val) :: e₂) l q)) E := by
  rw [isMembers_split]
  simp only [triple_iUnion, triple_given]
  rintro a k v l₁ l₂ ⟨rfl, rfl, hlen⟩
  have hx : (l₁ ++ ⟨some k, some v⟩ :: l₂)[i]? = some ⟨some k, some v⟩ :=
    List.getElem?_behind (hi.trans hlen.symm)
  refine (triple_slotAt hx).knownStep ?_
  rw [add_left_comm]
  refine (triple_strAt.frame _).post fun r => ?_
  rw [given_add]
  refine Set.iUnion_mono fun _ own hown => ?_
  rw [add_left_comm] at hown
  simp only [Set.mem_iUnion, mem_given]
  exact ⟨a, k, v, l₁, l₂, ⟨rfl, rfl, hlen⟩, hown⟩

/-- The search from the `i`-th member on. -/
theorem triple_objectIndex {i : ℕ} (hi : i = e₁.length) :
    Triple grants (isMembers (e₁ ++ e₂) l q) (objectIndex q name i e₂.length)
      (fun r => given (r = (e₂.findIdx? fun e => name = e.1).map (i + ·))
        (isMembers (e₁ ++ e₂) l q)) E := by
  induction e₂ generalizing e₁ i with
  | nil => exact triple_pure (subset_given rfl subset_rfl)
  | cons e e₂ ih =>
    have hone : e₁ ++ e :: e₂ = (e₁ ++ [e]) ++ e₂ := by rw [List.append_assoc, List.singleton_append]
    have hrest := ih (show i + 1 = (e₁ ++ [e]).length by rw [List.length_append, hi]; rfl)
    rw [← hone] at hrest
    rw [List.length_cons, objectIndex, ← bind_assoc]
    refine (triple_key hi).known ?_
    rw [List.findIdx?_cons]
    by_cases hname : name = e.1
    · rw [if_pos hname, if_pos (decide_eq_true hname)]
      exact triple_pure (subset_given rfl subset_rfl)
    · rw [if_neg hname, if_neg (by simpa using hname)]
      refine hrest.post fun r => Set.iUnion_mono' fun hr => ⟨?_, subset_rfl⟩
      rw [hr, Option.map_map]
      congr 1
      funext j
      simp only [Function.comp_apply]
      omega

theorem findIdx_new (h : name ∉ e₁.map Prod.fst) : (e₁.findIdx? fun e => name = e.1) = none := by
  rw [List.findIdx?_eq_none_iff]
  intro e he
  exact decide_eq_false fun hne => h (hne ▸ List.mem_map_of_mem he)

theorem findIdx_first (h : name ∉ e₁.map Prod.fst) :
    ((e₁ ++ (name, val) :: e₂).findIdx? fun e => name = e.1) = some e₁.length := by
  rw [List.findIdx?_append, findIdx_new h, List.findIdx?_cons, if_pos (decide_eq_true rfl)]
  simp

theorem isMembers_append {a k v : ℕ} (hl : l.length = elem.length) :
    cell a (.elem (l ++ [⟨some k, some v⟩])) + (cell k (.str name) + isAmf val v +
      each (memberSlots elem) l) ⊆ isMembers (elem ++ [(name, val)]) (l ++ [⟨some k, some v⟩]) (some a) := by
  have hslots : memberSlots (elem ++ [(name, val)]) = memberSlots elem ++ [slotOf (some name) val] := by
    simp only [memberSlots_eq, List.map_append, List.map_cons, List.map_nil]
  have hlen : l.length = (memberSlots elem).length := by rw [hl, memberSlots_eq, List.length_map]
  rw [isMembers, isElem, hslots, each_append hlen, each, each, add_zero, add_comm (each _ _)]
  refine Set.add_subset_add subset_rfl (Set.add_subset_add ?_ subset_rfl)
  rw [slotOf_some]
  exact fun own hown => Set.mem_iUnion₂.mpr ⟨k, v, mem_given.mpr ⟨rfl, hown⟩⟩

theorem isMembers_length {own : Multiset (ℕ × Block)} (h : own ∈ isMembers elem l q) :
    l.length = elem.length := by
  obtain ⟨own₁, -, own₂, h₂, -⟩ := h
  rw [each_length h₂, memberSlots_eq, List.length_map]

theorem isAmf_object (a : ℕ) : isAmf (.object elem) a =
    ⋃ q, ⋃ l, cell a (.amf (.object l.length q)) + isMembers elem l q := rfl

theorem subset_isAmf_object {a : ℕ} (hl : l.length = elem.length) :
    cell a (.amf (.object elem.length q)) + isMembers elem l q ⊆ isAmf (.object elem) a := by
  rw [← hl]
  exact fun own hown => Set.mem_iUnion₂.mpr ⟨q, l, hown⟩

theorem triple_replaceMember {idx v : ℕ} {old : Amf} (hidx : idx = e₁.length) :
    Triple grants (isMembers (e₁ ++ (key, old) :: e₂) l q + isAmf val v) (replaceMember q idx v)
      (fun r => given (r = true) (⋃ l', given (l'.length = l.length)
        (isMembers (e₁ ++ (key, val) :: e₂) l' q))) E := by
  rw [isMembers_split]
  simp only [Set.iUnion_add, given_add, triple_iUnion, triple_given]
  rintro a k w l₁ l₂ ⟨rfl, rfl, hlen⟩
  have hx : (l₁ ++ ⟨some k, some w⟩ :: l₂)[idx]? = some ⟨some k, some w⟩ :=
    List.getElem?_behind (hidx.trans hlen.symm)
  have hset : (l₁ ++ ⟨some k, some w⟩ :: l₂).set idx ⟨some k, some v⟩ =
      l₁ ++ ⟨some k, some v⟩ :: l₂ := List.set_behind (hidx.trans hlen.symm)
  have hcells : ∀ A B C D F : Own, A + (B + (C + D)) + F = C + (A + (B + (F + D))) := by
    intro A B C D F
    ac_rfl
  rw [add_assoc]
  refine (triple_slotAt hx).knownStep ?_
  rw [← add_assoc, hcells]
  refine (triple_amfFree old w).step fun _ => ?_
  rw [zero_add]
  refine triple_elemAt.knownStep ?_
  refine triple_store.step fun _ => triple_pure (subset_given rfl ?_)
  intro own hown
  rw [hset] at hown
  refine Set.mem_iUnion.mpr ⟨l₁ ++ ⟨some k, some v⟩ :: l₂, mem_given.mpr ⟨by simp, ?_⟩⟩
  rw [isMembers_split]
  simp only [Set.mem_iUnion, mem_given]
  exact ⟨a, k, v, l₁, l₂, ⟨rfl, rfl, hlen⟩, hown⟩

theorem triple_oldElem : Triple grants (isElem l q) (oldElem q)
    (fun r => given (r = l) (isElem l q)) E := by
  cases q with
  | none =>
    rw [isElem, triple_given]
    intro hl
    exact triple_pure (subset_given hl.symm (subset_given hl subset_rfl))
  | some a => exact triple_elemAt

theorem triple_grow (l' : List AmfElem) : Triple grants (isElem l q) (realloc q (.elem l'))
    (fun
      | none => given (¬ Granted grants) (isElem l q)
      | some a => cell a (.elem l')) E := by
  cases q with
  | none =>
    rw [isElem, triple_given]
    intro hl
    refine (triple_realloc_null _).post fun r => ?_
    cases r with
    | none => exact Set.iUnion_mono fun _ => subset_given hl subset_rfl
    | some a => exact subset_rfl
  | some a =>
    refine triple_realloc.post fun r => ?_
    cases r <;> exact subset_rfl

/-- A member is added, and what is taken belongs to the object; or nothing is. -/
theorem triple_addMember {a v : ℕ} (hl : l.length = elem.length) :
    Triple grants (cell a (.amf (.object elem.length q)) + isMembers elem l q + isAmf val v)
      (addMember (some a) elem.length q name v)
      (fun r => if r then isAmf (.object (elem ++ [(name, val)])) a
        else given (¬ Granted grants) (isAmf (.object elem) a + isAmf val v)) E := by
  have hback := Set.add_subset_add (subset_isAmf_object (a := a) (q := q) hl)
    (subset_refl (isAmf val v))
  refine Triple.alloc (fun hfail => ?_) fun k => ?_
  · exact triple_pure (subset_given hfail hback)
  · have hcells : ∀ A B C D F : Own, A + (B + C) + D + F = B + (F + (A + (C + D))) := by
      intro A B C D F
      ac_rfl
    rw [isMembers, hcells]
    refine triple_oldElem.knownStep ?_
    refine (triple_grow _).step fun r' => ?_
    cases r' with
    | none =>
      rw [given_add, triple_given]
      intro hfail
      dsimp only
      rw [add_left_comm]
      refine triple_free.step fun _ => triple_pure (subset_given hfail ?_)
      refine subset_trans (subset_of_eq ?_) hback
      rw [isMembers]
      ac_rfl
    | some new =>
      dsimp only
      have hcells' : ∀ A B C D : Own, A + (B + (C + D)) = C + (A + (B + D)) := by
        intro A B C D
        ac_rfl
      rw [hcells']
      refine triple_store.step fun _ => ?_
      rw [add_left_comm]
      refine triple_store.step fun _ => ?_
      rw [add_left_comm]
      refine triple_store.step fun _ => triple_pure ?_
      have hlen : (l ++ [(⟨some k, some v⟩ : AmfElem)]).length = (elem ++ [(name, val)]).length := by
        rw [List.length_append, List.length_append, hl]
        rfl
      refine subset_trans ?_ (subset_isAmf_object (q := some new) hlen)
      refine subset_trans ?_ (Set.add_subset_add (subset_refl _) (isMembers_append hl))
      apply subset_of_eq
      rw [List.length_append, List.length_singleton]
      ac_rfl

theorem triple_object {α : Type} {a : ℕ} {F : Own} {c : P α} {Q : α → Own}
    (h : ∀ q l, l.length = elem.length → Triple grants
      (cell a (.amf (.object elem.length q)) + (isMembers elem l q + F)) c Q E) :
    Triple grants (isAmf (.object elem) a + F) c Q E := by
  have hparts : isAmf (.object elem) a + F =
      ⋃ q, ⋃ l, cell a (.amf (.object l.length q)) + (isMembers elem l q + F) := by
    rw [isAmf_object]
    simp only [Set.iUnion_add, add_assoc]
  rw [hparts]
  simp only [triple_iUnion]
  intro q l
  refine Triple.of_mem (l.length = elem.length) ?_ fun hl => ?_
  · rintro own ⟨own₁, -, own₂, ⟨own₃, h₃, own₄, -, -⟩, -⟩
    exact isMembers_length h₃
  · rw [hl]
    exact h q l hl

/-- `amf_object_set` with a value: the object takes it, or what the caller owns stays the caller's
because an allocation has failed. -/
theorem triple_amfObjectSet (elem : List (CStr × Amf)) (name : CStr) (val : Amf) (a v : ℕ) :
    Triple grants (isAmf (.object elem) a + isAmf val v) (amfObjectSet (some a) name (some v))
      (fun r => if r then isAmf (.object (Mayhem.amfObjectSet name val elem)) a
        else given (¬ Granted grants) (isAmf (.object elem) a + isAmf val v)) E := by
  refine triple_object fun q l hl => ?_
  refine triple_amfAt.knownStep ?_
  have hsearch : Triple grants (isMembers elem l q) (objectIndex q name 0 elem.length)
      (fun r => given (r = (elem.findIdx? fun e => name = e.1).map (0 + ·)) (isMembers elem l q))
      E := @triple_objectIndex _ _ l q [] elem name 0 rfl
  rw [add_left_comm]
  refine hsearch.knownStep ?_
  by_cases hname : name ∈ elem.map Prod.fst
  · obtain ⟨e₁, old, e₂, rfl, hnew⟩ := AmfObject.exists_split hname
    rw [findIdx_first hnew, AmfObject.set_split hnew, Option.map_some, Nat.zero_add,
      add_left_comm, add_comm]
    refine ((triple_replaceMember rfl).frame _).post fun r => ?_
    rw [given_add]
    refine Set.iUnion_subset fun hr => ?_
    rw [if_pos hr, Set.iUnion_add]
    refine Set.iUnion_subset fun l' => ?_
    rw [given_add]
    refine Set.iUnion_subset fun hl' => ?_
    have hlen : l'.length = (e₁ ++ (name, val) :: e₂).length := by
      rw [hl', hl, List.length_append, List.length_append]
      rfl
    refine subset_trans (subset_of_eq ?_) (subset_isAmf_object (q := q) hlen)
    rw [add_comm, List.length_append, List.length_append]
    rfl
  · rw [findIdx_new hname, amfObjectSet_new hname, add_left_comm,
      ← add_assoc]
    exact triple_addMember hl

theorem triple_amfObjectSet_null (elem : List (CStr × Amf)) (name : CStr) (a : ℕ) :
    Triple grants (isAmf (.object elem) a) (amfObjectSet (some a) name none)
      (fun r => given (r = false) (isAmf (.object elem) a)) E := by
  rw [← add_zero (isAmf _ a)]
  refine triple_object fun q l hl => ?_
  rw [add_zero]
  refine triple_amfAt.knownStep ?_
  exact triple_pure (subset_given rfl ((subset_isAmf_object hl).trans (subset_of_eq (add_zero _).symm)))

end Mayhem.Blocks
