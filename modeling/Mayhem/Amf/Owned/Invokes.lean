import Mayhem.Amf.Owned.Values

/-! Invokes: the slots of the arguments, and `amf_invoke_append`, which loses the value it cannot
take. -/
namespace Mayhem.Blocks

open BlockHeap
open scoped Pointwise

/-! ### What belongs to an invoke -/

def isArgs : List (Option ℕ) → Option ℕ → Own
  | l, none => given (l = []) 0
  | l, some q => cell q (.args l)

/-- A slot is NULL, or has a value. -/
def argOf : Option Amf → Option ℕ → Own
  | none, none => 0
  | some val, some v => isAmf val v
  | _, _ => ∅

def isInvoke (inv : Invoke) (curElem a : ℕ) : Own :=
  ⋃ q, ⋃ l, cell a (.invoke l.length curElem q) + (isArgs l q + each (inv.map argOf) l)

variable {grants : ℕ → Bool} {E : Fault → Prop} {l l₁ l₂ : List (Option ℕ)} {q : Option ℕ}
  {inv A B : Invoke} {curElem a v i : ℕ} {val : Amf} {x : Option ℕ}

theorem isArgs_cons (hl : l ≠ []) : isArgs l q = ⋃ a, given (q = some a) (cell a (.args l)) := by
  ext own
  cases q with
  | none => simp [isArgs, mem_given, hl]
  | some a => simp [isArgs, mem_given]

/-- An invoke that is taken apart. -/
theorem triple_invoke {α : Type} {F : Own} {c : P α} {Q : α → Own}
    (h : ∀ q l, l.length = inv.length → Triple grants (cell a (.invoke inv.length curElem q) +
      (isArgs l q + each (inv.map argOf) l + F)) c Q E) :
    Triple grants (isInvoke inv curElem a + F) c Q E := by
  have hparts : isInvoke inv curElem a + F = ⋃ q, ⋃ l,
      cell a (.invoke l.length curElem q) + (isArgs l q + each (inv.map argOf) l + F) := by
    rw [isInvoke]
    simp only [Set.iUnion_add, add_assoc]
  rw [hparts]
  simp only [triple_iUnion]
  intro q l
  refine Triple.of_mem (l.length = inv.length) ?_ fun hl => ?_
  · rintro own ⟨own₁, -, own₂, ⟨own₃, ⟨own₄, -, own₅, h₅, -⟩, own₆, -, -⟩, -⟩
    rw [each_length h₅, List.length_map]
  · rw [hl]
    exact h q l hl

theorem subset_isInvoke (hl : l.length = inv.length) :
    cell a (.invoke inv.length curElem q) + (isArgs l q + each (inv.map argOf) l) ⊆
      isInvoke inv curElem a := by
  rw [← hl]
  exact fun own hown => Set.mem_iUnion₂.mpr ⟨q, l, hown⟩

/-! ### Reading and giving back -/

theorem triple_argsAt {q : ℕ} : Triple grants (cell q (.args l)) (argsAt (some q))
    (fun r => given (r = l) (cell q (.args l))) E := by
  refine triple_load.known ?_
  exact triple_pure (subset_given rfl subset_rfl)

theorem triple_argAt {q : ℕ} (h : l[i]? = some x) : Triple grants (cell q (.args l))
    (argAt (some q) i) (fun r => given (r = x) (cell q (.args l))) E := by
  refine triple_argsAt.known ?_
  simp only [h]
  exact triple_pure (subset_given rfl subset_rfl)

theorem triple_invokeAt {n : ℕ} : Triple grants (cell a (.invoke n curElem q)) (invokeAt (some a))
    (fun r => given (r = (n, curElem, q)) (cell a (.invoke n curElem q))) E := by
  refine triple_load.known ?_
  exact triple_pure (subset_given rfl subset_rfl)

/-- An invoke is read and taken apart. -/
theorem triple_openInvoke {α : Type} {F : Own} {c : ℕ × ℕ × Option ℕ → P α} {Q : α → Own}
    (h : ∀ q l, l.length = inv.length → Triple grants (cell a (.invoke inv.length curElem q) +
      (isArgs l q + each (inv.map argOf) l + F)) (c (inv.length, curElem, q)) Q E) :
    Triple grants (isInvoke inv curElem a + F) (invokeAt (some a) >>= c) Q E :=
  triple_invoke fun q l hl => triple_invokeAt.knownStep (h q l hl)

theorem triple_lookInvoke {α : Type} {c : ℕ × ℕ × Option ℕ → P α} {Q : α → Own}
    (h : ∀ q l, l.length = inv.length → Triple grants (cell a (.invoke inv.length curElem q) +
      (isArgs l q + each (inv.map argOf) l)) (c (inv.length, curElem, q)) Q E) :
    Triple grants (isInvoke inv curElem a) (invokeAt (some a) >>= c) Q E := by
  rw [← add_zero (isInvoke _ _ _)]
  refine triple_openInvoke fun q l hl => ?_
  rw [add_zero]
  exact h q l hl

theorem triple_free_arg (arg : Option Amf) (x : Option ℕ) :
    Triple grants (argOf arg x) (amfFree x) (fun _ => 0) E := by
  cases arg with
  | none =>
    cases x with
    | none => exact triple_amfFree_null
    | some v => exact triple_empty
  | some val =>
    cases x with
    | none => exact triple_empty
    | some v => exact triple_amfFree val v

theorem triple_free_args : Triple grants (isArgs l q) (free q) (fun _ => 0) E := by
  cases q with
  | none =>
    rw [isArgs, triple_given]
    exact fun _ => triple_free_null
  | some q => exact triple_free

/-- `amf_invoke_free` gives back an invoke and all its arguments. -/
theorem triple_amfInvokeFree :
    Triple grants (isInvoke inv curElem a) (amfInvokeFree (some a)) (fun _ => 0) E := by
  refine triple_lookInvoke fun q l hl => ?_
  rw [add_comm, ← hl]
  have hloop : Triple grants (isArgs l q + each (inv.map argOf) l)
      (loop (fun i => do amfFree (← argAt q i)) 0 l.length) (fun _ => isArgs l q) E := by
    refine triple_loop (fun W hW i x hx => ?_) (List.drop_zero (l := l))
    obtain ⟨arg, -, rfl⟩ := List.mem_map.mp hW
    rw [isArgs_cons (List.ne_nil_of_mem (List.mem_of_getElem? hx))]
    simp only [Set.iUnion_add, given_add, triple_iUnion, triple_given]
    rintro q rfl
    refine (triple_argAt hx).knownStep ?_
    rw [add_comm]
    refine ((triple_free_arg arg x).frame _).post fun _ => ?_
    rw [zero_add]
    exact fun own hown => Set.mem_iUnion.mpr ⟨q, mem_given.mpr ⟨rfl, hown⟩⟩
  refine hloop.step fun _ => triple_free_args.step fun _ => ?_
  rw [zero_add]
  exact triple_free

/-! ### Setting arguments -/

theorem each_noArgs (n : ℕ) : (0 : Own) ⊆
    each ((List.replicate n (none : Option Amf)).map argOf) (List.replicate n none) := by
  induction n with
  | zero => exact subset_rfl
  | succ n ih =>
    rw [List.replicate_succ, List.replicate_succ, List.map_cons, each, argOf, zero_add]
    exact ih

/-- An invoke of which no argument is set. -/
theorem isInvoke_new {n : ℕ} (q : Option ℕ) :
    cell a (.invoke n 0 q) + isArgs (List.replicate n none) q ⊆
      isInvoke (List.replicate n none) 0 a := by
  have hparts := @subset_isInvoke (List.replicate n none) q (List.replicate n none) 0 a
    (by rw [List.length_replicate, List.length_replicate])
  refine subset_trans ?_ hparts
  rw [List.length_replicate]
  refine Set.add_subset_add subset_rfl ?_
  have hadd := Set.add_subset_add (subset_refl (isArgs (List.replicate n none) q)) (each_noArgs n)
  rwa [add_zero] at hadd

theorem triple_amfInvokeNew (n : ℕ) : Triple grants 0 (amfInvokeNew n) (fun
    | none => given (¬ Granted grants) 0
    | some a => isInvoke (List.replicate n none) 0 a) E := by
  refine (triple_alloc _).bind fun r => ?_
  cases r with
  | none => exact triple_pure subset_rfl
  | some a =>
    refine triple_store.bind fun _ => ?_
    by_cases hn : n = 0
    · rw [if_pos hn]
      refine triple_pure (subset_trans ?_ (isInvoke_new none))
      rw [isArgs, given_true (by rw [hn, List.replicate_zero]), add_zero]
    · rw [if_neg hn]
      refine Triple.alloc (fun hfail => ?_) fun q => ?_
      · exact triple_free.bind fun _ => triple_pure (subset_given hfail subset_rfl)
      · exact triple_store.step fun _ => triple_pure (isInvoke_new (some q))

/-- `amf_invoke_set`: the slot takes the value, and what it had is given back. -/
theorem triple_amfInvokeSet {old : Option Amf} (hi : i = A.length) :
    Triple grants (isInvoke (A ++ old :: B) curElem a + isAmf val v)
      (amfInvokeSet (some a) i (some v))
      (fun r => given (r = true) (isInvoke (A ++ some val :: B) curElem a)) E := by
  refine triple_invoke fun q l hl => ?_
  have hmap : ∀ arg, (A ++ arg :: B).map argOf = A.map argOf ++ argOf arg :: B.map argOf := by
    intro arg
    rw [List.map_append, List.map_cons]
  have hlen : (A.map argOf).length = A.length := List.length_map _
  rw [hmap, each_split]
  simp only [Set.add_iUnion, Set.iUnion_add, given_add, add_given, triple_iUnion, triple_given, hlen]
  rintro l₁ x l₂ ⟨rfl, hl₁⟩
  rw [isArgs_cons (by simp)]
  simp only [Set.add_iUnion, Set.iUnion_add, given_add, add_given, triple_iUnion, triple_given]
  rintro q rfl
  have hx : (l₁ ++ x :: l₂)[i]? = some x := List.getElem?_behind (hi.trans hl₁.symm)
  have hset : (l₁ ++ x :: l₂).set i (some v) = l₁ ++ some v :: l₂ :=
    List.set_behind (hi.trans hl₁.symm)
  have hin : ¬ (A ++ old :: B).length ≤ i := by
    rw [hi, List.length_append, List.length_cons]
    omega
  refine triple_invokeAt.knownStep ?_
  dsimp only
  rw [if_neg hin]
  have hcells : ∀ A B C D F G : Own, A + (B + (C + (D + F)) + G) = B + (C + (A + (D + F + G))) := by
    intro A B C D F G
    ac_rfl
  rw [hcells]
  refine (triple_argAt hx).knownStep ?_
  rw [add_left_comm]
  refine (triple_free_arg old _).step fun _ => ?_
  rw [zero_add]
  refine triple_argsAt.knownStep ?_
  refine triple_store.step fun _ => triple_pure (subset_given rfl ?_)
  have hlast : (l₁ ++ some v :: l₂).length = (A ++ some val :: B).length := by
    simpa using hl
  refine subset_trans (subset_of_eq ?_) (subset_isInvoke (q := some q) hlast)
  rw [hset, hmap, each_append (hl₁.trans hlen.symm), each, List.length_append, List.length_append]
  dsimp only [List.length_cons, isArgs, argOf]
  ac_rfl

theorem triple_amfInvokeSet_null (hi : i < inv.length) :
    Triple grants (isInvoke inv curElem a) (amfInvokeSet (some a) i none)
      (fun r => given (r = false) (isInvoke inv curElem a)) E := by
  refine triple_lookInvoke fun q l hl => ?_
  dsimp only
  rw [if_neg (Nat.not_le.mpr hi)]
  exact triple_pure (subset_given rfl (subset_isInvoke hl))

/-! ### Appending -/

theorem triple_oldArgs : Triple grants (isArgs l q) (oldArgs q)
    (fun r => given (r = l) (isArgs l q)) E := by
  cases q with
  | none =>
    rw [isArgs, triple_given]
    intro hl
    exact triple_pure (subset_given hl.symm (subset_given hl subset_rfl))
  | some a => exact triple_argsAt

theorem triple_growArgs (l' : List (Option ℕ)) : Triple grants (isArgs l q) (realloc q (.args l'))
    (fun
      | none => given (¬ Granted grants) (isArgs l q)
      | some a => cell a (.args l')) E := by
  cases q with
  | none =>
    rw [isArgs, triple_given]
    intro hl
    refine (triple_realloc_null _).post fun r => ?_
    cases r with
    | none => exact Set.iUnion_mono fun _ => subset_given hl subset_rfl
    | some a => exact subset_rfl
  | some a =>
    refine triple_realloc.post fun r => ?_
    cases r <;> exact subset_rfl

/-- One more slot, in which there is nothing. -/
theorem isInvoke_grow (hl : l.length = inv.length) (q : ℕ) :
    cell a (.invoke (inv.length + 1) curElem (some q)) +
      (cell q (.args (l ++ [none])) + each (inv.map argOf) l) ⊆
      isInvoke (inv ++ [none]) curElem a := by
  have hlen : (l ++ [none]).length = (inv ++ [none]).length := by
    rw [List.length_append, List.length_append, hl]
    rfl
  refine subset_trans (subset_of_eq ?_) (subset_isInvoke (q := some q) hlen)
  have hslots : l.length = (inv.map argOf).length := by rw [hl, List.length_map]
  rw [List.map_append, each_append hslots, List.length_append]
  have hnone : each ([none].map argOf) [none] = 0 := add_zero _
  rw [hnone, add_zero]
  rfl

/-- `amf_invoke_append` past the slots there are: the value is taken, or there was no memory for
the slot and it is the caller's still. -/
theorem triple_amfInvokeAppend_grow (inv : Invoke) (val : Amf) (a v : ℕ) :
    Triple grants (isInvoke inv inv.length a + isAmf val v) (amfInvokeAppend (some a) (some v))
      (fun r => if r then isInvoke (inv ++ [some val]) (inv.length + 1) a
        else given (¬ Granted grants) (isInvoke inv inv.length a + isAmf val v)) E := by
  refine triple_openInvoke fun q l hl => ?_
  dsimp only
  rw [if_pos le_rfl]
  have hcells : ∀ A B C D : Own, A + (B + C + D) = B + (A + (C + D)) := by
    intro A B C D
    ac_rfl
  rw [hcells]
  refine triple_oldArgs.knownStep ?_
  refine (triple_growArgs _).step fun r' => ?_
  cases r' with
  | none =>
    rw [given_add, triple_given]
    intro hfail
    refine triple_pure (subset_given hfail ?_)
    refine subset_trans (subset_of_eq ?_)
      (Set.add_subset_add (subset_isInvoke (q := q) hl) (subset_refl (isAmf val v)))
    ac_rfl
  | some new =>
    dsimp only
    rw [add_left_comm]
    refine triple_store.step fun _ => ?_
    rw [← add_assoc (cell new _), ← add_assoc (cell a _)]
    have hgrow : cell a (.invoke (inv.length + 1) (inv.length + 1) (some new)) +
        (cell new (.args (l ++ [none])) + each (inv.map argOf) l) ⊆
        isInvoke (inv ++ [none]) (inv.length + 1) a := isInvoke_grow hl new
    refine ((triple_amfInvokeSet rfl).pre (Set.add_subset_add hgrow subset_rfl)).post fun r => ?_
    exact Set.iUnion_subset fun hr => by rw [if_pos hr]

/-- `amf_invoke_append` in a slot there is. -/
theorem triple_amfInvokeAppend_slot {old : Option Amf} (hcur : curElem = A.length) :
    Triple grants (isInvoke (A ++ old :: B) curElem a + isAmf val v)
      (amfInvokeAppend (some a) (some v))
      (fun r => given (r = true) (isInvoke (A ++ some val :: B) (curElem + 1) a)) E := by
  refine triple_openInvoke fun q l hl => ?_
  have hin : ¬ (A ++ old :: B).length ≤ curElem := by
    rw [hcur, List.length_append, List.length_cons]
    omega
  dsimp only
  rw [if_neg hin]
  refine triple_store.step fun _ => ?_
  rw [← add_assoc]
  exact (triple_amfInvokeSet hcur).pre (Set.add_subset_add (subset_isInvoke hl) subset_rfl)

/-- A NULL moves the position only. -/
theorem triple_amfInvokeAppend_null (hcur : curElem < inv.length) :
    Triple grants (isInvoke inv curElem a) (amfInvokeAppend (some a) none)
      (fun r => given (r = false) (isInvoke inv (curElem + 1) a)) E := by
  refine triple_lookInvoke fun q l hl => ?_
  dsimp only
  rw [if_neg (Nat.not_le.mpr hcur)]
  refine triple_store.step fun _ => ?_
  exact (triple_amfInvokeSet_null hcur).pre (subset_isInvoke hl)

end Mayhem.Blocks
