import Mayhem.Amf.Blocks

/-! Who owns the blocks of a value: what the functions of `amf.c` take, what they return, and
what is left when an allocation fails. -/
namespace Mayhem.Blocks

open BlockHeap
open scoped Pointwise

abbrev Own := BlockHeap.Owned Block

/-! ### What belongs to a value -/

def isStr : Option CStr → Option ℕ → Own
  | none, none => 0
  | some s, some q => cell q (.str s)
  | _, _ => ∅

theorem isStr_none_some (q : ℕ) : isStr none (some q) = ∅ := rfl

theorem isStr_some_none (s : CStr) : isStr (some s) none = ∅ := rfl

/-- The array of members, which is NULL as long as there is none. -/
def isElem : List AmfElem → Option ℕ → Own
  | l, none => given (l = []) 0
  | l, some q => cell q (.elem l)

/-- A value with members. -/
def isTree (mk : ℕ → Option ℕ → AmfStruct) (Ws : List (AmfElem → Own)) (a : ℕ) : Own :=
  ⋃ q, ⋃ l, cell a (.amf (mk l.length q)) + (isElem l q + each Ws l)

mutual

def isAmf : Amf → ℕ → Own
  | .number num, a => cell a (.amf (.number num))
  | .bool b, a => cell a (.amf (.bool b))
  | .string str, a => ⋃ q, cell a (.amf (.string q)) + isStr str q
  | .object elem, a => isTree .object (memberSlots elem) a
  | .null, a => cell a (.amf .null)
  | .undefined, a => cell a (.amf .undefined)
  | .strictArray elem, a => isTree .strictArray (arraySlots elem) a

def memberSlots : List (CStr × Amf) → List (AmfElem → Own)
  | [] => []
  | (key, val) :: elem =>
    (fun x => isStr (some key) x.key + ⋃ v, given (x.val = some v) (isAmf val v)) ::
      memberSlots elem

def arraySlots : List Amf → List (AmfElem → Own)
  | [] => []
  | val :: elem =>
    (fun x => isStr none x.key + ⋃ v, given (x.val = some v) (isAmf val v)) :: arraySlots elem

end

/-- A member of an array that has not been set. -/
def unsetSlot (x : AmfElem) : Own := given (x = .unset) 0

/-! ### Levels -/

mutual

def depth : Amf → ℕ
  | .object elem => membersDepth elem + 1
  | .strictArray elem => arrayDepth elem + 1
  | _ => 1

def membersDepth : List (CStr × Amf) → ℕ
  | [] => 0
  | (_, val) :: elem => max (depth val) (membersDepth elem)

def arrayDepth : List Amf → ℕ
  | [] => 0
  | val :: elem => max (depth val) (arrayDepth elem)

end

variable {grants : ℕ → Bool} {E : Fault → Prop}

/-! ### Reading -/

theorem triple_amfAt {a : ℕ} {x : AmfStruct} : Triple grants (cell a (.amf x)) (amfAt (some a))
    (fun r => given (r = x) (cell a (.amf x))) E := by
  refine triple_load.known ?_
  exact triple_pure (subset_given rfl subset_rfl)

theorem triple_strAt {q : ℕ} {s : CStr} : Triple grants (cell q (.str s)) (strAt (some q))
    (fun r => given (r = s) (cell q (.str s))) E := by
  refine triple_load.known ?_
  exact triple_pure (subset_given rfl subset_rfl)

theorem triple_elemAt {q : ℕ} {l : List AmfElem} : Triple grants (cell q (.elem l))
    (elemAt (some q)) (fun r => given (r = l) (cell q (.elem l))) E := by
  refine triple_load.known ?_
  exact triple_pure (subset_given rfl subset_rfl)

theorem triple_slotAt {q : ℕ} {l : List AmfElem} {i : ℕ} {x : AmfElem} (h : l[i]? = some x) :
    Triple grants (cell q (.elem l)) (slotAt (some q) i)
      (fun r => given (r = x) (cell q (.elem l))) E := by
  refine triple_elemAt.known ?_
  simp only [h]
  exact triple_pure (subset_given rfl subset_rfl)

theorem triple_free_str {str : Option CStr} {q : Option ℕ} :
    Triple grants (isStr str q) (free q) (fun _ => 0) E := by
  cases str with
  | none =>
    cases q with
    | none => exact triple_free_null
    | some q => exact triple_empty
  | some s =>
    cases q with
    | none => exact triple_empty
    | some q => exact triple_free

/-! ### Giving back -/

theorem isElem_cons {l : List AmfElem} {q : Option ℕ} (hl : l ≠ []) :
    isElem l q = ⋃ a, given (q = some a) (cell a (.elem l)) := by
  ext own
  cases q with
  | none => simp [isElem, mem_given, hl]
  | some a => simp [isElem, mem_given]

/-- Members that can be given back one by one. -/
theorem triple_freeSlots {free' : Option ℕ → P Unit} {Ws : List (AmfElem → Own)}
    (hfree : ∀ W ∈ Ws, ∀ x, Triple grants (W x) (do free x.key; free' x.val) (fun _ => 0) E)
    {q : Option ℕ} {l : List AmfElem} :
    Triple grants (isElem l q + each Ws l) (freeSlots free' q l.length) (fun _ => isElem l q) E := by
  refine triple_loop (fun W hW i x hx => ?_) (List.drop_zero (l := l))
  rw [isElem_cons (List.ne_nil_of_mem (List.mem_of_getElem? hx))]
  simp only [Set.iUnion_add, given_add, triple_iUnion, triple_given]
  rintro q rfl
  refine (triple_slotAt hx).knownStep ?_
  rw [add_comm]
  refine ((hfree W hW x).frame _).post fun _ => ?_
  rw [zero_add]
  exact fun own hown => Set.mem_iUnion.mpr ⟨q, mem_given.mpr ⟨rfl, hown⟩⟩

/-- What a slot holds. -/
def slotOf (key : Option CStr) (val : Amf) (x : AmfElem) : Own :=
  isStr key x.key + ⋃ v, given (x.val = some v) (isAmf val v)

theorem memberSlots_eq (elem : List (CStr × Amf)) :
    memberSlots elem = elem.map fun e => slotOf (some e.1) e.2 := by
  induction elem with
  | nil => rfl
  | cons e elem ih =>
    rw [memberSlots, ih, List.map_cons]
    rfl

theorem arraySlots_eq (elem : List Amf) : arraySlots elem = elem.map (slotOf none) := by
  induction elem with
  | nil => rfl
  | cons val elem ih =>
    rw [arraySlots, ih, List.map_cons]
    rfl

theorem triple_free_elem {l : List AmfElem} {q : Option ℕ} :
    Triple grants (isElem l q) (free q) (fun _ => 0) E := by
  cases q with
  | none =>
    rw [isElem, triple_given]
    exact fun _ => triple_free_null
  | some q => exact triple_free

/-- A value with members is given back with them. -/
theorem triple_free_tree {mk : ℕ → Option ℕ → AmfStruct} {Ws : List (AmfElem → Own)} {n a : ℕ}
    (hmk : mk = .object ∨ mk = .strictArray) (hfree : ∀ W ∈ Ws, ∀ x,
      Triple grants (W x) (do free x.key; amfFreeIn n x.val) (fun _ => 0) E) :
    Triple grants (isTree mk Ws a) (amfFreeIn (n + 1) (some a)) (fun _ => 0) E := by
  simp only [isTree, triple_iUnion]
  intro q l
  refine triple_amfAt.knownStep ?_
  have hlast : Triple grants (cell a (.amf (mk l.length q)) + (isElem l q + each Ws l))
      (do freeSlots (amfFreeIn n) q l.length; free q; free (some a)) (fun _ => 0) E := by
    rw [add_comm]
    refine (triple_freeSlots hfree).step fun _ => triple_free_elem.step fun _ => ?_
    rw [zero_add]
    exact triple_free
  rcases hmk with rfl | rfl
  · exact hlast
  · exact hlast

/-- What a slot holds is given back if the values can be. -/
theorem triple_free_slot {str : Option CStr} {val : Amf} {n : ℕ}
    (hval : ∀ v, Triple grants (isAmf val v) (amfFreeIn n (some v)) (fun _ => 0) E)
    (x : AmfElem) : Triple grants (slotOf str val x) (do free x.key; amfFreeIn n x.val)
      (fun _ => 0) E := by
  refine triple_free_str.step fun _ => ?_
  rw [zero_add, triple_iUnion]
  intro v
  rw [triple_given]
  intro hv
  rw [hv]
  exact hval v

theorem depth_le_members {elem : List (CStr × Amf)} {e : CStr × Amf} (he : e ∈ elem) :
    depth e.2 ≤ membersDepth elem := by
  induction elem with
  | nil => cases he
  | cons e' elem ih =>
    rw [membersDepth]
    rcases List.mem_cons.mp he with rfl | he
    · exact Nat.le_max_left _ _
    · exact (ih he).trans (Nat.le_max_right _ _)

theorem depth_le_array {elem : List Amf} {val : Amf} (hval : val ∈ elem) :
    depth val ≤ arrayDepth elem := by
  induction elem with
  | nil => cases hval
  | cons val' elem ih =>
    rw [arrayDepth]
    rcases List.mem_cons.mp hval with rfl | hval
    · exact Nat.le_max_left _ _
    · exact (ih hval).trans (Nat.le_max_right _ _)

/-- A value is given back, to the last block. -/
theorem triple_amfFreeIn (val : Amf) : ∀ {n : ℕ} (a : ℕ), depth val ≤ n →
    Triple grants (isAmf val a) (amfFreeIn n (some a)) (fun _ => 0) E := by
  induction val using Amf.induct with
  | object elem ih =>
    intro n a hn
    rw [depth] at hn
    obtain ⟨n, rfl⟩ := Nat.exists_eq_succ_of_ne_zero (Nat.ne_zero_of_lt hn)
    refine triple_free_tree (.inl rfl) fun W hW => ?_
    rw [memberSlots_eq] at hW
    obtain ⟨e, he, rfl⟩ := List.mem_map.mp hW
    exact triple_free_slot fun v => ih e he v ((depth_le_members he).trans (Nat.le_of_succ_le_succ hn))
  | strictArray elem ih =>
    intro n a hn
    rw [depth] at hn
    obtain ⟨n, rfl⟩ := Nat.exists_eq_succ_of_ne_zero (Nat.ne_zero_of_lt hn)
    refine triple_free_tree (.inr rfl) fun W hW => ?_
    rw [arraySlots_eq] at hW
    obtain ⟨val, hval, rfl⟩ := List.mem_map.mp hW
    exact triple_free_slot fun v => ih val hval v ((depth_le_array hval).trans (Nat.le_of_succ_le_succ hn))
  | string str =>
    intro n a hn
    obtain ⟨n, rfl⟩ := Nat.exists_eq_succ_of_ne_zero (Nat.ne_zero_of_lt hn)
    simp only [isAmf, triple_iUnion]
    intro q
    refine triple_amfAt.knownStep ?_
    rw [add_comm]
    refine triple_free_str.step fun _ => ?_
    rw [zero_add]
    exact triple_free
  | number | bool | null | undefined =>
    intro n a hn
    obtain ⟨n, rfl⟩ := Nat.exists_eq_succ_of_ne_zero (Nat.ne_zero_of_lt hn)
    refine triple_amfAt.known ?_
    exact triple_free

/-- What is owned has at least as many blocks as there are levels. -/
theorem card_add_le {P Q : Own} {n m : ℕ} (hP : ∀ own ∈ P, n ≤ own.card)
    (hQ : ∀ own ∈ Q, m ≤ own.card) : ∀ own ∈ P + Q, n + m ≤ own.card := by
  rintro own ⟨own₁, h₁, own₂, h₂, rfl⟩
  rw [Multiset.card_add]
  exact Nat.add_le_add (hP own₁ h₁) (hQ own₂ h₂)

theorem card_cell (a : ℕ) (c : Block) : ∀ own ∈ (cell a c : Own), 1 ≤ own.card := by
  rintro own rfl
  exact le_rfl

theorem card_slot {str : Option CStr} {val : Amf} {n : ℕ}
    (hval : ∀ v, ∀ own ∈ isAmf val v, n ≤ own.card) (x : AmfElem) :
    ∀ own ∈ slotOf str val x, 0 + n ≤ own.card := by
  refine card_add_le (fun _ _ => Nat.zero_le _) fun own hown => ?_
  obtain ⟨v, hv⟩ := Set.mem_iUnion.mp hown
  exact hval v own (mem_given.mp hv).2

theorem card_members {elem : List (CStr × Amf)}
    (h : ∀ e ∈ elem, ∀ v, ∀ own ∈ isAmf e.2 v, depth e.2 ≤ own.card) {l : List AmfElem} :
    ∀ own ∈ each (memberSlots elem) l, membersDepth elem ≤ own.card := by
  induction elem generalizing l with
  | nil => exact fun own _ => Nat.zero_le _
  | cons e elem ih =>
    obtain ⟨he, helem⟩ := List.forall_mem_cons.mp h
    cases l with
    | nil => exact fun own hown => hown.elim
    | cons x l =>
      intro own hown
      have hcard := card_add_le (card_slot he x) (ih helem) own hown
      rw [membersDepth]
      exact max_le (by omega) (by omega)

theorem card_array {elem : List Amf}
    (h : ∀ val ∈ elem, ∀ v, ∀ own ∈ isAmf val v, depth val ≤ own.card) {l : List AmfElem} :
    ∀ own ∈ each (arraySlots elem) l, arrayDepth elem ≤ own.card := by
  induction elem generalizing l with
  | nil => exact fun own _ => Nat.zero_le _
  | cons val elem ih =>
    obtain ⟨hval, helem⟩ := List.forall_mem_cons.mp h
    cases l with
    | nil => exact fun own hown => hown.elim
    | cons x l =>
      intro own hown
      have hcard := card_add_le (card_slot hval x) (ih helem) own hown
      rw [arrayDepth]
      exact max_le (by omega) (by omega)

theorem card_tree {mk : ℕ → Option ℕ → AmfStruct} {Ws : List (AmfElem → Own)} {a n : ℕ}
    (h : ∀ l, ∀ own ∈ each Ws l, n ≤ own.card) : ∀ own ∈ isTree mk Ws a, n + 1 ≤ own.card := by
  intro own hown
  simp only [isTree, Set.mem_iUnion] at hown
  obtain ⟨q, l, hown⟩ := hown
  have hcard := card_add_le (card_cell _ _) (card_add_le (fun _ _ => Nat.zero_le _) (h l)) own hown
  omega

theorem depth_le_card (val : Amf) : ∀ a, ∀ own ∈ isAmf val a, depth val ≤ own.card := by
  induction val using Amf.induct with
  | object elem ih => exact fun a => card_tree fun l => card_members ih
  | strictArray elem ih => exact fun a => card_tree fun l => card_array ih
  | string str =>
    intro a own hown
    obtain ⟨q, hown⟩ := Set.mem_iUnion.mp hown
    have hcard := card_add_le (card_cell _ _) (fun _ _ => Nat.zero_le _) own hown
    exact hcard
  | number | bool | null | undefined => exact fun a => card_cell _ _

/-- `amf_free` gives back all the blocks of a value, and touches no other. -/
theorem triple_amfFree (val : Amf) (a : ℕ) :
    Triple grants (isAmf val a) (amfFree (some a)) (fun _ => 0) E := by
  refine triple_size.bind fun n => ?_
  rintro s own frame ⟨hown, hn⟩ hs
  exact triple_amfFreeIn val a ((depth_le_card val a own hown).trans hn) s own frame hown hs

theorem triple_amfFree_null {Q : Own} : Triple grants Q (amfFree none) (fun _ => Q) E := by
  refine triple_size.bind fun n => ?_
  cases n <;> exact triple_pure fun own hown => hown.1

/-! ### Making values -/

/-- The value that is made, or NULL where an allocation failed, with what is lost then. -/
def made (grants : ℕ → Bool) (lost : Own) (val : Amf) : Option ℕ → Own
  | none => given (¬ Granted grants) lost
  | some a => isAmf val a

/-- A string that nothing points to. -/
def stray : Own := ⋃ q, ⋃ s, cell q (.str s)

theorem subset_stray (q : ℕ) (s : CStr) : cell q (.str s) ⊆ stray :=
  Set.subset_iUnion_of_subset q (Set.subset_iUnion (fun s => cell q (Block.str s)) s)

theorem triple_amfAlloc (zero : AmfStruct) :
    Triple grants 0 (amfAlloc zero) (allocated grants (.amf zero)) E := triple_alloc _

theorem triple_amfScalar {zero a : AmfStruct} {val : Amf}
    (h : ∀ p, cell p (.amf a) ⊆ isAmf val p) :
    Triple grants 0 (amfScalar zero a) (made grants 0 val) E := by
  refine (triple_amfAlloc zero).bind fun r => ?_
  cases r with
  | none => exact triple_pure subset_rfl
  | some p => exact triple_store.bind fun _ => triple_pure (h p)

theorem triple_amfNumber (num : UInt64) :
    Triple grants 0 (amfNumber num) (made grants 0 (.number num)) E :=
  triple_amfScalar fun _ => subset_rfl

theorem triple_amfBool (b : Bool) : Triple grants 0 (amfBool b) (made grants 0 (.bool b)) E :=
  triple_amfScalar fun _ => subset_rfl

theorem triple_amfNull : Triple grants 0 amfNull (made grants 0 .null) E :=
  (triple_amfAlloc .null).post fun r => by cases r <;> exact subset_rfl

theorem triple_amfUndefined : Triple grants 0 amfUndefined (made grants 0 .undefined) E :=
  (triple_amfAlloc .undefined).post fun r => by cases r <;> exact subset_rfl

/-- There is nothing behind the object yet. -/
theorem triple_amfObject : Triple grants 0 amfObject (made grants 0 (.object [])) E := by
  refine (triple_amfAlloc _).post fun r => ?_
  cases r with
  | none => exact subset_rfl
  | some a =>
    refine Set.subset_iUnion₂_of_subset none [] ?_
    rw [isElem, memberSlots, each, given_true rfl, add_zero, add_zero]
    exact subset_rfl

theorem isAmf_string_none (a : ℕ) : cell a (.amf (.string none)) ⊆ isAmf (.string none) a :=
  Set.subset_iUnion_of_subset none (by rw [isStr, add_zero])

theorem isAmf_string_some (a q : ℕ) (s : CStr) :
    cell a (.amf (.string (some q))) + cell q (.str s) ⊆ isAmf (.string (some s)) a :=
  Set.subset_iUnion_of_subset (some q) subset_rfl

/-- A struct of a string gets its text. -/
theorem triple_setString {x : AmfStruct} {a q : ℕ} {s : CStr} :
    Triple grants (cell a (.amf x) + cell q (.str s))
      (do store (some a) (.amf (.string (some q))); return some a)
      (made grants 0 (.string (some s))) E :=
  triple_store.step fun _ => triple_pure (isAmf_string_some a q s)

theorem triple_amfString (str : Option CStr) :
    Triple grants 0 (amfString str) (made grants 0 (.string str)) E := by
  refine (triple_amfAlloc _).bind fun r => ?_
  cases r with
  | none => exact triple_pure subset_rfl
  | some a =>
    cases str with
    | none => exact triple_pure (isAmf_string_none a)
    | some s =>
      refine Triple.alloc (fun hfail => ?_) fun q => ?_
      · refine ((triple_amfFree _ a).pre (isAmf_string_none a)).bind fun _ => ?_
        exact triple_pure (subset_given hfail subset_rfl)
      · exact triple_setString

theorem triple_amfStringf (text : List UInt8) : Triple grants 0 (amfStringf text)
    (made grants (0 ∪ stray) (.string (Mayhem.amfStringf text))) E := by
  have hmono : ∀ val r, made grants 0 val r ⊆ made grants (0 ∪ stray) val r := by
    intro val r
    cases r with
    | none => exact Set.iUnion_mono fun _ => Set.subset_union_left
    | some a => exact subset_rfl
  unfold amfStringf
  cases Mayhem.amfStringf text with
  | none => exact (triple_amfString none).post (hmono _)
  | some s =>
    refine (triple_alloc (Block.str s)).bind fun r => ?_
    cases r with
    | none => exact triple_pure (Set.iUnion_mono fun _ => Set.subset_union_left)
    | some buf =>
      rw [allocated, ← zero_add (cell buf _)]
      refine (triple_amfAlloc _).step fun r => ?_
      cases r with
      | none =>
        rw [allocated, given_add, zero_add, triple_given]
        intro hfail
        refine triple_pure (subset_given hfail ?_)
        exact Set.subset_union_of_subset_right (subset_stray buf s) _
      | some a => exact triple_setString.post (hmono _)

end Mayhem.Blocks
