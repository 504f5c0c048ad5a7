import Mayhem.Amf.Owned.Values

/-! Strict arrays, of which the last members may not be set yet. -/
namespace Mayhem.Blocks

open BlockHeap
open scoped Pointwise

variable {grants : ℕ → Bool} {E : Fault → Prop} {elem : List Amf} {val : Amf} {n a v : ℕ}

/-- An array of `n` members that begins with `elem`. -/
def partSlots (elem : List Amf) (n : ℕ) : List (AmfElem → Own) :=
  arraySlots elem ++ List.replicate (n - elem.length) unsetSlot

def isPart (elem : List Amf) (n a : ℕ) : Own := isTree .strictArray (partSlots elem n) a

theorem isPart_all (a : ℕ) : isPart elem elem.length a = isAmf (.strictArray elem) a := by
  rw [isPart, partSlots, Nat.sub_self, List.replicate_zero, List.append_nil]
  rfl

/-- A value with members is given back, if its members can be. -/
theorem triple_amfFree_tree {mk : ℕ → Option ℕ → AmfStruct} {Ws : List (AmfElem → Own)} {d : ℕ}
    (hmk : mk = .object ∨ mk = .strictArray) (hcard : ∀ l, ∀ own ∈ each Ws l, d ≤ own.card)
    (hfree : ∀ n, d ≤ n → ∀ W ∈ Ws, ∀ x,
      Triple grants (W x) (do free x.key; amfFreeIn n x.val) (fun _ => 0) E) :
    Triple grants (isTree mk Ws a) (amfFree (some a)) (fun _ => 0) E := by
  refine triple_size.bind fun n => ?_
  rintro s own frame ⟨hown, hn⟩ hs
  have hd := (card_tree hcard own hown).trans hn
  obtain ⟨n, rfl⟩ := Nat.exists_eq_succ_of_ne_zero (Nat.ne_zero_of_lt hd)
  exact triple_free_tree hmk (hfree n (Nat.le_of_succ_le_succ hd)) s own frame hown hs

theorem triple_free_unset {free' : Option ℕ → P Unit} (x : AmfElem)
    (hfree : Triple grants 0 (free' none) (fun _ => 0) E) :
    Triple grants (unsetSlot x) (do free x.key; free' x.val) (fun _ => 0) E := by
  rw [unsetSlot, triple_given]
  rintro rfl
  exact triple_free_null.bind fun _ => hfree

theorem card_part {l : List AmfElem} :
    ∀ own ∈ each (partSlots elem n) l, arrayDepth elem ≤ own.card := by
  intro own hown
  have hcard := card_add_le (card_array fun val _ => depth_le_card val) (fun _ _ => Nat.zero_le _) own
    (mem_each_append hown)
  exact hcard

theorem triple_amfFree_part : Triple grants (isPart elem n a) (amfFree (some a)) (fun _ => 0) E := by
  refine triple_amfFree_tree (d := arrayDepth elem) (.inr rfl) (fun l => card_part)
    fun m hm W hW x => ?_
  rcases List.mem_append.mp hW with hW | hW
  · rw [arraySlots_eq] at hW
    obtain ⟨val, hval, rfl⟩ := List.mem_map.mp hW
    exact triple_free_slot (fun v => triple_amfFreeIn val v ((depth_le_array hval).trans hm)) x
  · obtain rfl := List.eq_of_mem_replicate hW
    refine triple_free_unset x ?_
    cases m <;> exact triple_pure subset_rfl

/-! ### Making arrays -/

theorem each_unset (n : ℕ) :
    (0 : Own) ⊆ each (List.replicate n unsetSlot) (List.replicate n AmfElem.unset) := by
  induction n with
  | zero => exact subset_rfl
  | succ n ih =>
    rw [List.replicate_succ, List.replicate_succ, each, unsetSlot, given_true rfl, zero_add]
    exact ih

/-- If there is no memory for the members, `amf_free` looks for them all the same. -/
theorem triple_amfFree_noElem (hE : ¬ Granted grants → E .null) (hfail : ¬ Granted grants) :
    Triple grants (cell a (.amf (.strictArray n none))) (amfFree (some a)) (fun _ => 0) E := by
  refine triple_size.bind fun m => ?_
  refine Triple.of_mem (1 ≤ m) (fun own hown => (card_cell _ _ own hown.1).trans hown.2) fun hm => ?_
  obtain ⟨m, rfl⟩ := Nat.exists_eq_add_of_le' hm
  refine Triple.pre ?_ fun own hown => hown.1
  refine triple_amfAt.known ?_
  cases n with
  | zero => exact triple_free
  | succ n => exact fun s own frame hown hs => hE hfail

theorem triple_amfArray (hE : ¬ Granted grants → E .null) (n : ℕ) :
    Triple grants 0 (amfArray n) (fun
      | none => given (¬ Granted grants) 0
      | some a => isPart [] n a) E := by
  refine (triple_amfAlloc _).bind fun r => ?_
  cases r with
  | none => exact triple_pure subset_rfl
  | some a =>
    refine triple_store.bind fun _ => ?_
    refine Triple.alloc (fun hfail => ?_) fun q => ?_
    · exact (triple_amfFree_noElem hE hfail).bind fun _ => triple_pure (subset_given hfail subset_rfl)
    · refine triple_store.step fun _ => triple_pure ?_
      refine Set.subset_iUnion₂_of_subset (some q) (List.replicate n .unset) ?_
      rw [List.length_replicate]
      refine Set.add_subset_add subset_rfl ?_
      rw [isElem, partSlots, arraySlots, List.nil_append, List.length_nil, Nat.sub_zero]
      have hadd := Set.add_subset_add (subset_refl (cell q (Block.elem (List.replicate n .unset))))
        (each_unset n)
      rwa [add_zero] at hadd

theorem slotOf_none : slotOf none val ⟨none, some v⟩ = isAmf val v := by
  ext own
  simp [slotOf, isStr, mem_given]

/-- The next member is set. -/
theorem triple_amfArraySet (h : elem.length < n) :
    Triple grants (isPart elem n a + isAmf val v) (amfArraySet (some a) elem.length (some v))
      (fun r => given (r = true) (isPart (elem ++ [val]) n a)) E := by
  have hslots : partSlots elem n = arraySlots elem ++ unsetSlot ::
      List.replicate (n - (elem ++ [val]).length) unsetSlot := by
    rw [partSlots, List.length_append, List.length_singleton, ← List.replicate_succ]
    congr 2
    omega
  have hlast : partSlots (elem ++ [val]) n = arraySlots elem ++ slotOf none val ::
      List.replicate (n - (elem ++ [val]).length) unsetSlot := by
    rw [partSlots, arraySlots_eq, arraySlots_eq, List.map_append, List.append_assoc]
    rfl
  have hlen : (arraySlots elem).length = elem.length := by rw [arraySlots_eq, List.length_map]
  rw [isPart, isTree, hslots]
  simp only [each_split, unsetSlot, Set.add_iUnion, Set.iUnion_add, given_add, add_given, triple_iUnion,
    triple_given]
  rintro q l l₁ x l₂ ⟨rfl, hl₁⟩ rfl
  rw [isElem_cons (by simp)]
  simp only [Set.add_iUnion, Set.iUnion_add, given_add, add_given, triple_iUnion, triple_given]
  rintro q rfl
  rw [hlen] at hl₁
  have hx : (l₁ ++ AmfElem.unset :: l₂)[elem.length]? = some .unset :=
    List.getElem?_behind hl₁.symm
  have hset : (l₁ ++ AmfElem.unset :: l₂).set elem.length { AmfElem.unset with val := some v } =
      l₁ ++ ⟨none, some v⟩ :: l₂ := List.set_behind hl₁.symm
  have hin : ¬ (l₁ ++ AmfElem.unset :: l₂).length ≤ elem.length := by
    rw [List.length_append, List.length_cons]
    omega
  rw [add_assoc]
  refine triple_amfAt.knownStep ?_
  dsimp only
  rw [if_neg hin, add_assoc, add_left_comm]
  refine (triple_slotAt hx).knownStep ?_
  refine triple_elemAt.knownStep ?_
  refine triple_store.step fun _ => triple_pure (subset_given rfl ?_)
  have htree : cell a (.amf (.strictArray (l₁ ++ AmfElem.unset :: l₂).length (some q))) +
      (cell q (.elem (l₁ ++ ⟨none, some v⟩ :: l₂)) +
        each (partSlots (elem ++ [val]) n) (l₁ ++ ⟨none, some v⟩ :: l₂)) ⊆
      isPart (elem ++ [val]) n a := by
    refine Set.subset_iUnion₂_of_subset (some q) (l₁ ++ ⟨none, some v⟩ :: l₂) (subset_of_eq ?_)
    rw [List.length_append, List.length_append, List.length_cons, List.length_cons]
    rfl
  refine subset_trans (subset_of_eq ?_) htree
  rw [hset, hlast, each_append (hl₁.trans hlen.symm), each, slotOf_none, zero_add]
  ac_rfl

end Mayhem.Blocks
