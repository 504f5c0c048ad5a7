import Mayhem.Amf.Owned.Arrays
import Mayhem.Amf.Owned.Invokes
import Mayhem.Amf.Owned.Objects
import Mayhem.Amf.Owned.Parser

/-! What `amf_invoke_from_buf` returns belongs to the caller, and the names of the members that it
has parsed to nobody. -/
namespace Mayhem.Blocks

open BlockHeap
open scoped Pointwise

/-! ### Elements -/

section Elements

variable {grants : ℕ → Bool} {E : Fault → Prop} {amf3 : List UInt8 → P (Option ℕ × ℕ)}
  {amf3' : List UInt8 → Option Amf × ℕ} {m : Memory} {fin : ℕ}

/-- The value, and the names that are left of its members. -/
def elementAt (ks : List CStr) : Amf × ℕ → ℕ × ℕ → Own
  | (val, q), (a, q') => given (q' = q) (isAmf val a + strays ks)

theorem refines_ended {value : P (Option ℕ)} {val : Amf} {lost : Own} (hlost : lost ⊆ Litter)
    (hvalue : Triple grants 0 value (made grants lost val) E) (q : ℕ) :
    Refines grants E fin 0 (ended value q) (pure (val, q)) (elementAt []) := by
  intro hE
  refine hvalue.bind fun r => ?_
  cases r with
  | none =>
    exact triple_given.mpr fun hfail => triple_pure (subset_given (.inr hfail) hlost)
  | some a =>
    refine triple_pure fun own hown => Set.mem_iUnion.mpr ⟨(val, q), mem_given.mpr ⟨rfl, ?_⟩⟩
    refine mem_given.mpr ⟨rfl, ?_⟩
    rw [strays, add_zero]
    exact hown

theorem nulls_free {α : Type} {obj : ℕ} {elem : List (CStr × Amf)} {F : Own} (hF : F ⊆ Litter) :
    Nulls grants E (isAmf (.object elem) obj + F)
      (do
        amfFree (some obj)
        return none : P (Option α)) := by
  refine (triple_amfFree _ obj).step fun _ => ?_
  rw [zero_add]
  exact nulls_return hF

/-- The object and the end of its members, with the names that are left. -/
def membersAt (obj : ℕ) (ks : List CStr) : List (CStr × Amf) × ℕ → ℕ → Own
  | (elem, q), q' => given (q' = q) (isAmf (.object elem) obj + strays ks)

section Names

variable (amf3' m fin)

mutual

/-- The names of the members that are read with the element at a place. -/
def elementNames : ℕ → ℕ → List CStr
  | 0, _ => []
  | fuel + 1, buf =>
    match marker (m buf) with
    | .ecmaArray => memberNames fuel (buf + 1 + 4)
    | .object => memberNames fuel (buf + 1)
    | .strictArray =>
      (List.replicate (decodeInt32 m (buf + 1)).toNat (elementNames fuel (buf + 1 + 4))).flatten
    | _ => []

def memberNames : ℕ → ℕ → List CStr
  | 0, _ => []
  | fuel + 1, ptr =>
    if m (nameEnd m ptr) = AMF_OBJECT_END then []
    else nameAt m ptr :: (elementNames fuel (nameEnd m ptr) ++
      match (Mayhem.parseElement amf3' m fin fuel (nameEnd m ptr)).out with
      | .val r => if m r.2 = AMF_OBJECT_END then [] else memberNames fuel r.2
      | _ => [])

end

/-- The names of the members of the arguments from a place on. -/
def argNames : ℕ → ℕ → List CStr
  | 0, _ => []
  | fuel + 1, buf =>
    if fin ≤ buf then []
    else elementNames amf3' m fin fin buf ++
      match (Mayhem.parseElement amf3' m fin fin buf).out with
      | .val r => argNames fuel r.2
      | _ => []

end Names

/-- An element and the members of an object are parsed in the same way from blocks as without. -/
structure Parses (grants : ℕ → Bool) (E : Fault → Prop) (amf3 : List UInt8 → P (Option ℕ × ℕ))
    (amf3' : List UInt8 → Option Amf × ℕ) (m : Memory) (fin fuel : ℕ) : Prop where
  element : ∀ buf, Refines grants E fin 0 (parseElement amf3 m fin fuel buf)
    (Mayhem.parseElement amf3' m fin fuel buf) (elementAt (elementNames amf3' m fin fuel buf))
  members : ∀ elem obj ptr, Refines grants E fin (isAmf (.object elem) obj)
    (parseMembers amf3 m fin fuel obj ptr) (Mayhem.parseMembers amf3' m fin fuel ptr elem)
    (membersAt obj (memberNames amf3' m fin fuel ptr))

theorem refines_member {fuel : ℕ} (ih : Parses grants E amf3 amf3' m fin fuel)
    (elem : List (CStr × Amf)) (obj name ptr : ℕ) :
    Refines grants E fin (cell name (.str (nameAt m ptr)) + isAmf (.object elem) obj)
      (parseMember m fin (parseElement amf3 m fin fuel) (parseMembers amf3 m fin fuel) obj name
        (nameEnd m ptr))
      (Mayhem.parseMember m (Mayhem.parseElement amf3' m fin fuel)
        (Mayhem.parseMembers amf3' m fin fuel) (nameAt m ptr) elem (nameEnd m ptr))
      (membersAt obj (memberNames amf3' m fin (fuel + 1) ptr)) := by
  unfold parseMember Mayhem.parseMember
  refine refines_touch ?_
  rw [memberNames]
  by_cases hend : m (nameEnd m ptr) = AMF_OBJECT_END
  · rw [if_pos hend, if_pos hend, if_pos hend]
    refine refines_step triple_free fun _ => refines_pure ?_
    rw [zero_add]
    refine subset_given rfl ?_
    rw [strays, add_zero]
  · rw [if_neg hend, if_neg hend, if_neg hend, ← zero_add (cell _ _ + _)]
    refine refines_bind (ih.element _) (fun _ _ => ?_) ?_
    · refine triple_free.step fun _ => ?_
      rw [zero_add, ← add_zero (isAmf _ _)]
      exact nulls_free zero_subset_litter
    · rintro ⟨val, q⟩ ⟨a, q'⟩ hval
      rw [elementAt, given_add]
      refine refines_given ?_
      rintro rfl
      have hcells : ∀ A B C D : Own, A + B + (C + D) = C + (D + A + B) := by
        intro A B C D
        ac_rfl
      rw [hcells]
      refine refines_step triple_strAt fun nm => ?_
      rw [given_add]
      refine refines_given ?_
      rintro rfl
      rw [add_comm, add_assoc]
      refine refines_step (triple_amfObjectSet elem _ val obj a) fun r => ?_
      cases r with
      | false =>
        simp only [Bool.false_eq_true, if_false, given_add]
        refine refines_given fun hfail => refines_failed hfail ?_
        have hcells : ∀ A B C D : Own, A + B + (C + D) = B + (D + (A + C)) := by
          intro A B C D
          ac_rfl
        rw [hcells]
        refine (triple_amfFree val a).step fun _ => ?_
        rw [zero_add]
        refine triple_free.step fun _ => ?_
        rw [zero_add]
        exact nulls_free (strays_subset_litter _)
      | true =>
        simp only [if_true, hval]
        refine refines_touch ?_
        have hnames := cell_subset_strays (elementNames amf3' m fin fuel (nameEnd m ptr)) name
          (nameAt m ptr)
        by_cases hlast : m q' = AMF_OBJECT_END
        · rw [if_pos hlast, if_pos hlast, if_pos hlast, List.append_nil]
          exact refines_pure (subset_given rfl (Set.add_subset_add subset_rfl hnames))
        · rw [if_neg hlast, if_neg hlast, if_neg hlast, ← List.cons_append]
          have hF := hnames.trans (strays_subset_litter _)
          refine ((ih.members _ obj q').frame hF).post ?_
          rintro ⟨elem', q⟩ q''
          rw [membersAt, membersAt, given_add, strays_append, add_comm (strays (_ :: _)), add_assoc]
          exact Set.iUnion_mono fun _ =>
            Set.add_subset_add subset_rfl (Set.add_subset_add subset_rfl hnames)

theorem refines_members {fuel : ℕ} (ih : Parses grants E amf3 amf3' m fin fuel)
    (elem : List (CStr × Amf)) (obj ptr : ℕ) : Refines grants E fin (isAmf (.object elem) obj)
      (parseMembers amf3 m fin (fuel + 1) obj ptr) (Mayhem.parseMembers amf3' m fin (fuel + 1) ptr elem)
      (membersAt obj (memberNames amf3' m fin (fuel + 1) ptr)) := by
  rw [parseMembers, Mayhem.parseMembers]
  by_cases hshort : fin ≤ ptr + 2
  · rw [if_pos hshort, if_pos hshort]
    exact refines_null rfl (isAmf_subset_litter _ _)
  rw [if_neg hshort, if_neg hshort]
  refine refines_touch ?_
  dsimp only
  by_cases hlong : fin < ptr + 2 + strLen m ptr
  · rw [if_pos hlong, if_pos hlong, ← add_zero (isAmf _ _)]
    refine refines_step (triple_amfFree _ obj) fun _ => ?_
    rw [zero_add]
    exact refines_null rfl zero_subset_litter
  · rw [if_neg hlong, if_neg hlong]
    refine refines_touch ?_
    rw [← zero_add (isAmf _ _)]
    refine refines_step (triple_alloc _) fun r => ?_
    cases r with
    | none =>
      rw [allocated, given_add, zero_add, ← add_zero (isAmf _ _)]
      exact refines_given fun hfail => refines_failed hfail (nulls_free zero_subset_litter)
    | some name => exact refines_member ih elem obj name ptr

theorem refines_object {fuel : ℕ} (ih : Parses grants E amf3 amf3' m fin fuel) (ptr : ℕ) :
    Refines grants E fin 0 (parseObject (parseMembers amf3 m fin fuel) ptr)
      (do
        let r ← Mayhem.parseMembers amf3' m fin fuel ptr []
        return (.object r.1, r.2))
      (elementAt (memberNames amf3' m fin fuel ptr)) := by
  unfold parseObject
  rw [← zero_add (0 : Own)]
  refine refines_step triple_amfObject fun r => ?_
  rw [add_zero]
  cases r with
  | none => exact refines_given fun hfail => refines_failed hfail (nulls_return zero_subset_litter)
  | some obj =>
    rw [made, ← add_zero (isAmf _ _)]
    refine refines_bind (ih.members [] obj ptr) (fun _ _ => nulls_return zero_subset_litter) ?_
    rintro ⟨elem, q⟩ q' -
    rw [add_zero]
    exact refines_pure subset_rfl

section Array

variable {element : P (Option (ℕ × ℕ))} {value : Parse (Amf × ℕ)} {ks : List CStr}

/-- The elements from the `i`-th on. -/
theorem refines_elements (helement : Refines grants E fin 0 element value (elementAt ks))
    {vals : List Amf} {n i a : ℕ} (hi : vals.length + i = n) :
    Refines grants E fin (isPart vals n a) (parseArray (some a) element vals.length i)
      (Mayhem.parseArray value i)
      fun elem _ => isAmf (.strictArray (vals ++ elem)) a + strays (List.replicate i ks).flatten := by
  induction i generalizing vals with
  | zero =>
    rw [parseArray, Mayhem.parseArray]
    refine refines_pure ?_
    rw [List.append_nil, List.replicate_zero, List.flatten_nil, strays, add_zero, ← isPart_all, ← hi,
      Nat.add_zero]
  | succ i ih =>
    rw [parseArray, Mayhem.parseArray, ← zero_add (isPart _ _ _)]
    refine refines_bind helement (fun _ _ => ?_) ?_
    · rw [← add_zero (isPart _ _ _)]
      refine triple_amfFree_part.step fun _ => ?_
      rw [zero_add]
      exact nulls_return zero_subset_litter
    · rintro ⟨val, q⟩ ⟨v, q'⟩ -
      rw [elementAt, given_add]
      refine refines_given fun _ => ?_
      rw [add_comm, ← add_assoc]
      refine refines_step (triple_amfArraySet (by omega)) fun r => ?_
      rw [given_add]
      refine refines_given ?_
      rintro rfl
      have hlen : (vals ++ [val]).length = vals.length + 1 := List.length_append
      have hrest := (@ih (vals ++ [val]) (by omega)).frame (strays_subset_litter ks)
      rw [hlen] at hrest
      rw [if_pos rfl]
      refine hrest.map fun elem _ => ?_
      rw [List.append_assoc, List.singleton_append, List.replicate_succ, List.flatten_cons,
        strays_append, add_assoc, add_comm (strays ks)]

/-- If there is no array, the first element is put behind NULL. -/
theorem refines_elements_null (hnull : E .null)
    (helement : Refines grants E fin 0 element value (elementAt ks)) (n : ℕ) :
    Refines grants E fin 0 (parseArray none element 0 n) (Mayhem.parseArray value n) fun _ _ => 0 := by
  cases n with
  | zero => exact refines_pure subset_rfl
  | succ n =>
    rw [parseArray, Mayhem.parseArray, ← zero_add (0 : Own)]
    refine refines_bind helement (fun _ _ => ?_) ?_
    · exact triple_amfFree_null.bind fun _ => nulls_return zero_subset_litter
    · rintro ⟨val, q⟩ ⟨v, q'⟩ - _
      have hset : Triple grants (elementAt ks (val, q) (v, q') + 0) (amfArraySet none 0 (some v))
          (fun _ => ∅) E := fun _ _ _ _ _ => hnull
      exact hset.bind fun _ => triple_empty

theorem refines_array (hE : ¬ Granted grants → E .null)
    (helement : Refines grants E fin 0 element value (elementAt ks)) (n q : ℕ) :
    Refines grants E fin 0
      (do
        let ret ← amfArray n
        match ← parseArray ret element 0 n with
        | none => return none
        | some () => ended (pure ret) q)
      (do
        let elem ← Mayhem.parseArray value n
        return (.strictArray elem, q))
      (elementAt (List.replicate n ks).flatten) := by
  rw [← zero_add (0 : Own)]
  refine refines_step (triple_amfArray hE n) fun r => ?_
  cases r with
  | none =>
    dsimp only
    rw [add_zero]
    refine refines_given fun hfail => ?_
    rw [← zero_add (0 : Own)]
    refine refines_bind (refines_elements_null (hE hfail) helement n) (fun _ _ => nulls_return ?_) ?_
    · exact zero_subset_litter
    · rintro elem ⟨⟩ -
      rw [add_zero]
      exact refines_failed hfail (nulls_return zero_subset_litter)
  | some a =>
    dsimp only
    refine refines_bind (refines_elements helement (Nat.zero_add n)) (fun _ _ => nulls_return ?_) ?_
    · exact zero_subset_litter
    · rintro elem ⟨⟩ -
      rw [add_zero]
      exact refines_pure (subset_given rfl subset_rfl)

end Array

/-- What `amf3_parse` returns belongs to the caller, and nothing else is left of it, unless it
returns NULL. -/
def amf3At (grants : ℕ → Bool) (p : Option Amf × ℕ) (r : Option ℕ × ℕ) : Own :=
  match r.1 with
  | some a => ⋃ val, given (p = (some val, r.2)) (isAmf val a)
  | none => given (p.1 = none ∨ ¬ Granted grants) Litter

/-- That is so wherever the message calls `amf3_parse`. -/
def Amf3Owns (grants : ℕ → Bool) (E : Fault → Prop) (amf3 : List UInt8 → P (Option ℕ × ℕ))
    (amf3' : List UInt8 → Option Amf × ℕ) (m : Memory) (fin : ℕ) : Prop :=
  ∀ buf < fin, marker (m buf) = .avmplus → Triple grants 0 (amf3 (m.bytes (buf + 1) (fin - (buf + 1))))
    (amf3At grants (amf3' (m.bytes (buf + 1) (fin - (buf + 1))))) E

theorem refines_avmplus {ptr : ℕ} (h3 : Triple grants 0 (amf3 (m.bytes ptr (fin - ptr)))
    (amf3At grants (amf3' (m.bytes ptr (fin - ptr)))) E) :
    Refines grants E fin 0
      (do
        match ← amf3 (m.bytes ptr (fin - ptr)) with
        | (none, _) => return none
        | (some a, tmp) => return some (a, ptr + tmp))
      (match amf3' (m.bytes ptr (fin - ptr)) with
        | (none, _) => Parse.null
        | (some a, tmp) => pure (a, ptr + tmp))
      (elementAt []) := by
  intro _
  refine h3.bind ?_
  rintro ⟨r, tmp⟩
  cases r with
  | none =>
    refine triple_given.mpr fun hnone => triple_pure (subset_given (hnone.imp_left ?_) subset_rfl)
    intro h
    split <;> simp_all [Parse.null]
  | some a =>
    simp only [amf3At, triple_iUnion, triple_given]
    intro val hval
    rw [hval]
    refine triple_pure fun own hown => Set.mem_iUnion.mpr ⟨(val, ptr + tmp), ?_⟩
    refine mem_given.mpr ⟨rfl, mem_given.mpr ⟨rfl, ?_⟩⟩
    rw [strays, add_zero]
    exact hown

theorem refines_body {fuel : ℕ} (hE : ¬ Granted grants → E .null) (h3 : Amf3Owns grants E amf3 amf3' m fin)
    (ih : Parses grants E amf3 amf3' m fin fuel) {buf : ℕ} (hbuf : buf < fin) :
    Refines grants E fin 0
      (parseBody amf3 m fin (parseElement amf3 m fin fuel) (parseMembers amf3 m fin fuel) (buf + 1)
        (marker (m buf)))
      (Mayhem.parseBody amf3' m fin (Mayhem.parseElement amf3' m fin fuel)
        (Mayhem.parseMembers amf3' m fin fuel) (buf + 1) (marker (m buf)))
      (elementAt (elementNames amf3' m fin (fuel + 1) buf)) := by
  rw [elementNames]
  cases hm : marker (m buf) with
  | number =>
    rw [parseBody, Mayhem.parseBody]
    split_ifs with h
    · exact refines_null rfl zero_subset_litter
    · exact refines_touch (refines_ended zero_subset_litter (triple_amfNumber _) _)
  | boolean =>
    rw [parseBody, Mayhem.parseBody]
    split_ifs with h
    · exact refines_null rfl zero_subset_litter
    · exact refines_touch (refines_ended zero_subset_litter (triple_amfBool _) _)
  | string =>
    rw [parseBody, Mayhem.parseBody]
    split_ifs with hshort
    · exact refines_null rfl zero_subset_litter
    refine refines_touch ?_
    dsimp only
    split_ifs with hlong
    · exact refines_null rfl zero_subset_litter
    · have hstray := Set.union_subset zero_subset_litter stray_subset_litter
      exact refines_touch (refines_ended hstray (triple_amfStringf _) _)
  | avmplus => exact refines_touch (refines_avmplus (h3 buf hbuf hm))
  | ecmaArray =>
    rw [parseBody, Mayhem.parseBody]
    split_ifs with h
    · exact refines_null rfl zero_subset_litter
    · exact refines_object ih _
  | object => exact refines_object ih _
  | strictArray =>
    rw [parseBody, Mayhem.parseBody]
    split_ifs with h
    · exact refines_null rfl zero_subset_litter
    · exact refines_touch (refines_array hE (ih.element _) _ _)
  | null => exact refines_ended zero_subset_litter triple_amfNull _
  | undefined => exact refines_ended zero_subset_litter triple_amfUndefined _
  | unhandled => exact refines_touch (refines_ended zero_subset_litter triple_amfUndefined _)

theorem parses (hE : ¬ Granted grants → E .null) (h3 : Amf3Owns grants E amf3 amf3' m fin)
    (fuel : ℕ) : Parses grants E amf3 amf3' m fin fuel := by
  induction fuel with
  | zero =>
    constructor
    · intro buf hout
      exact triple_fault (hout.abort rfl)
    · intro elem obj ptr
      exact refines_null rfl (isAmf_subset_litter _ _)
  | succ fuel ih =>
    constructor
    · intro buf
      rw [parseElement, Mayhem.parseElement]
      split_ifs with hend
      · exact fun hout => triple_fault (hout.abort rfl)
      · refine refines_touch ?_
        exact (refines_body hE h3 ih (Nat.not_le.mp hend)).taken _
    · exact refines_members ih

/-! ### Invokes -/

/-- An invoke that has all its arguments, and the names that are left. -/
def parsedAt (ks : List CStr) (inv : Invoke) (a : ℕ) : Own := isInvoke inv inv.length a + strays ks

theorem refines_args (hE : ¬ Granted grants → E .null ∧ E .wild) (h3 : Amf3Owns grants E amf3 amf3' m fin)
    (fuel buf : ℕ) (inv : Invoke) (a : ℕ) : Refines grants E fin (isInvoke inv inv.length a)
      (parseArgs amf3 m fin fuel buf a) (Mayhem.parseArgs amf3' m fin fuel buf inv)
      (parsedAt (argNames amf3' m fin fuel buf)) := by
  induction fuel generalizing buf inv with
  | zero =>
    refine refines_pure ?_
    rw [parsedAt, argNames, strays, add_zero]
  | succ fuel ih =>
    rw [parseArgs, Mayhem.parseArgs, argNames]
    split_ifs with hend
    · refine refines_pure ?_
      rw [parsedAt, strays, add_zero]
    · rw [← zero_add (isInvoke _ _ _)]
      refine refines_bind ((parses (fun h => (hE h).1) h3 fin).element buf).onNull ?_ ?_
      · intro hallows hout
        refine (triple_touch fun hlt => ?_).bind fun _ => ?_
        · obtain hnull | hfail := hout
          · rw [Parse.onNull_out] at hnull
            have hdump := Parse.reach_le_onNull_null (q := Parse.touch buf fin) hnull
            exact hallows.wild (hlt.trans_le hdump)
          · exact (hE hfail).2
        rw [← add_zero (isInvoke _ _ _)]
        refine triple_amfInvokeFree.step fun _ => ?_
        rw [zero_add]
        exact nulls_return zero_subset_litter
      · rintro ⟨val, q⟩ ⟨v, q'⟩ hval
        rw [Parse.onNull_out] at hval
        rw [elementAt, given_add]
        refine refines_given ?_
        rintro rfl
        rw [add_comm, ← add_assoc]
        refine refines_step (triple_amfInvokeAppend_grow inv val a v) fun r => ?_
        have hnames := strays_subset_litter (elementNames amf3' m fin fin buf)
        cases r with
        | false =>
          simp only [Bool.false_eq_true, if_false, given_add]
          refine refines_given fun hfail => refines_failed hfail ?_
          rw [add_assoc]
          refine triple_amfInvokeFree.step fun _ => ?_
          rw [zero_add]
          exact nulls_return (add_subset_litter (isAmf_subset_litter _ _) hnames)
        | true =>
          have hlen : (inv ++ [some val]).length = inv.length + 1 := List.length_append
          have hrest := (ih q' (inv ++ [some val])).frame hnames
          rw [hlen] at hrest
          simp only [if_true, hval]
          refine hrest.post fun inv' a' => subset_of_eq ?_
          rw [parsedAt, parsedAt, strays_append, add_comm (strays (elementNames _ _ _ _ _)),
            add_assoc]

theorem refines_fromBuf (hE : ¬ Granted grants → E .null ∧ E .wild) (h3 : Amf3Owns grants E amf3 amf3' m fin) :
    Refines grants E fin 0 (amfInvokeFromBuf amf3 m fin) (Mayhem.amfInvokeFromBuf amf3' m fin)
      (parsedAt (argNames amf3' m fin fin 0)) := by
  unfold amfInvokeFromBuf
  rw [← zero_add (0 : Own)]
  refine refines_step (triple_amfInvokeNew 0) fun r => ?_
  cases r with
  | none =>
    dsimp only
    rw [add_zero]
    exact refines_given fun hfail => refines_failed hfail (nulls_return zero_subset_litter)
  | some inv =>
    dsimp only
    rw [add_zero]
    exact refines_args hE h3 fin 0 [] inv

end Elements

end Mayhem.Blocks
