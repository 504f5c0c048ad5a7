import Mayhem.Amf.Amf3Wire
import Mayhem.Amf.Owned.Parse

/-! `amf3_parse` on blocks. The scanning of `amf3.c` allocates nothing. -/
namespace Mayhem.Blocks

open BlockHeap Amf3
open scoped Pointwise

section Buffer

variable (m : ℤ → UInt8) (fin : ℤ)

/-- The switch of `amf3_prop`. -/
def propValue (buf ptr ret : ℤ) (type : UInt8) : P (ℤ × Option ℕ) := do
  if type = AMF3_UNDEFINED then return (ret, ← amfUndefined)
  else if type = AMF3_NULL then return (ret, ← amfNull)
  else if type = AMF3_FALSE then return (ret, ← amfBool false)
  else if type = AMF3_TRUE then return (ret, ← amfBool true)
  else if type = AMF3_INTEGER then
    let i := (amf3Integer m fin ptr).out
    if i.1 = 0 then return (0, none) else return (i.1, ← amfNumber (doubleOfNat i.2))
  else if type = AMF3_DOUBLE then return (ret, none)
  else if type = AMF3_STRING ∨ type = AMF3_XML_DOC ∨ type = AMF3_XML then
    let v := (amf3String m fin buf).out
    if v.len = 0 then return (0, none)
    else return (v.len, ← amfStringf ((readText m v).out.takeWhile (· ≠ 0) ++ [0x0a]))
  else return (ptr - fin, ← amfUndefined)

/-- `amf3_prop`: what it returns, and the name and the value. If there is no memory for the name,
it is written all the same: the pointer that is tested is another. -/
def amf3Prop (buf : ℤ) : P (ℤ × Option (ℕ × ℕ)) := do
  let n := (amf3String m fin buf).out
  if n.len = 0 then return (0, none)
  else if n.slen = 0 then return (n.len, none)
  else
    let ptr := buf + n.len
    if fin ≤ ptr then return (0, none)
    else
      match ← propValue m fin buf (ptr + 1) n.len (m ptr) with
      | (_, none) => return (0, none)
      | (ret, some a) =>
        match ← alloc (.str ((readText m n).out.takeWhile (· ≠ 0))) with
        | none => fault .null
        | some nstr => return (ptr + 1 + ret - buf, some (nstr, a))

/-- The loop over the properties, or nothing if it goes on for more than `fuel` rounds. -/
def propLoop : ℕ → ℤ → ℕ → P (Option (Option ℕ × ℤ))
  | fuel, ptr, ret =>
    if fin ≤ ptr then return some (some ret, ptr)
    else
      match fuel with
      | 0 => return none
      | fuel + 1 => do
        let r ← amf3Prop m fin ptr
        if r.1 = 0 then
          amfFree (some ret)
          return some (none, ptr)
        else
          match r.2 with
          | none => return some (some ret, ptr + r.1)
          | some (n, elem) =>
            let rc ← amfObjectSet (some ret) (← strAt (some n)) (some elem)
            free (some n)
            if rc then propLoop fuel (ptr + r.1) ret
            else
              amfFree (some ret)
              return some (none, ptr)

/-- `amf3_parse`: the returned value and `*taken`. -/
def amf3Parse (fuel : ℕ) : P (Option (Option ℕ × ℤ)) := do
  if fin ≤ 0 then return some (none, 0)
  else if m 0 ≠ AMF3_OBJECT then return some (← amfNull, fin)
  else
    let i := (amf3Integer m fin 1).out
    if i.1 = 0 then return some (none, 1)
    else
      let ptr := 1 + i.1
      let ref := i.2
      if ref &&& 1 = 0 then return some (← amfUndefined, ptr)
      else
        let ref := ref >>> 1
        if ref &&& 1 = 0 then return some (← amfUndefined, ptr)
        else
          let ref := ref >>> 1
          let externalizable := ref &&& 1
          let ref := ref >>> 1
          let dynamic := ref &&& 1
          let num := ref >>> 1
          let s := (amf3String m fin ptr).out
          if s.len = 0 then return some (none, ptr)
          else
            let ptr := ptr + s.len
            if num ≠ 0 ∨ externalizable ≠ 0 ∨ dynamic = 0 then return some (none, ptr)
            else
              match ← amfObject with
              | none => return some (none, ptr)
              | some ret => propLoop m fin fuel ptr ret

end Buffer

/-! ### Properties -/

section Properties

variable {grants : ℕ → Bool} {E : Fault → Prop} {m : ℤ → UInt8} {fin : ℤ}

/-- A value that is made, or none. -/
def valueAt (grants : ℕ → Bool) (p : ℤ × Option Amf) (r : ℤ × Option ℕ) : Own :=
  match r.2 with
  | none => given (p.2 = none) 0 ∪ given (¬ Granted grants) Litter
  | some a => ⋃ val, given (p = (r.1, some val)) (isAmf val a)

theorem triple_value {value : P (Option ℕ)} {val : Amf} {lost : Own} (hlost : lost ⊆ Litter)
    (hvalue : Triple grants 0 value (made grants lost val) E) (ret : ℤ) :
    Triple grants 0 (do return (ret, ← value)) (valueAt grants (ret, some val)) E := by
  refine hvalue.bind fun r => triple_pure ?_
  cases r with
  | none => exact subset_trans (Set.iUnion_mono fun _ => hlost) Set.subset_union_right
  | some a => exact Set.subset_iUnion_of_subset val (subset_given rfl subset_rfl)

theorem triple_noValue {ret ret' : ℤ} :
    Triple grants 0 (return (ret, none) : P (ℤ × Option ℕ)) (valueAt grants (ret', none)) E :=
  triple_pure (subset_trans (subset_given rfl subset_rfl) Set.subset_union_left)

/-- The line feed is kept. -/
theorem amfStringf_line (text : List UInt8) :
    Mayhem.amfStringf (text.takeWhile (· ≠ 0) ++ [0x0a]) = some (text.takeWhile (· ≠ 0) ++ [0x0a]) := by
  have hall : ∀ c ∈ text.takeWhile (· ≠ 0) ++ [0x0a], decide (c ≠ 0) = true := by
    intro c hc
    rcases List.mem_append.mp hc with hc | hc
    · simpa using List.mem_takeWhile_imp hc
    · rw [List.mem_singleton.mp hc]
      rfl
  rw [Mayhem.amfStringf, List.takeWhile_eq_self_iff.mpr hall]
  cases htext : text.takeWhile (· ≠ 0) <;> rfl

theorem triple_propValue (buf ptr ret : ℤ) (type : UInt8) :
    Triple grants 0 (propValue m fin buf ptr ret type)
      (valueAt grants (Amf3.propValue m fin buf ptr ret (kind type)).out) E := by
  have hnone := zero_subset_litter
  unfold propValue kind
  split_ifs
  · exact triple_value hnone triple_amfUndefined ret
  · exact triple_value hnone triple_amfNull ret
  · exact triple_value hnone (triple_amfBool false) ret
  · exact triple_value hnone (triple_amfBool true) ret
  · -- an integer behind the type
    simp only [Amf3.propValue, Logged.bind_out]
    split_ifs
    · exact triple_noValue
    · exact triple_value hnone (triple_amfNumber _) _
  · exact triple_noValue
  · -- the string at the name
    simp only [Amf3.propValue, Logged.bind_out]
    split_ifs
    · exact triple_noValue
    · have hstray := Set.union_subset zero_subset_litter stray_subset_litter
      have hvalue := triple_value hstray (@triple_amfStringf grants E
        ((readText m (amf3String m fin buf).out).out.takeWhile (· ≠ 0) ++ [0x0a]))
      rw [amfStringf_line] at hvalue
      exact hvalue _
  · exact triple_value hnone triple_amfUndefined _

/-- A property, or the end of the list. -/
def propertyAt (grants : ℕ → Bool) (p : Property) (r : ℤ × Option (ℕ × ℕ)) : Own :=
  match r.2 with
  | none => given (p = ⟨r.1, none⟩) 0 ∪ given (r.1 = 0 ∧ ¬ Granted grants) Litter
  | some (n, a) => ⋃ name, ⋃ val,
      given (p = ⟨r.1, some (name, val)⟩) (cell n (.str name) + isAmf val a)

theorem triple_amf3Prop (hE : ¬ Granted grants → E .null) (buf : ℤ) :
    Triple grants 0 (amf3Prop m fin buf) (propertyAt grants (Amf3.amf3Prop m fin buf).out) E := by
  have hnone : ∀ {len : ℤ}, Triple grants 0 (return (len, none) : P (ℤ × Option (ℕ × ℕ)))
      (propertyAt grants ⟨len, none⟩) E := fun {len} =>
    triple_pure (subset_trans (subset_given rfl subset_rfl) Set.subset_union_left)
  unfold amf3Prop Amf3.amf3Prop
  simp only [Logged.bind_out]
  split_ifs
  · exact hnone
  · exact hnone
  · exact hnone
  · refine (triple_propValue _ _ _ _).bind ?_
    have htype : ∀ p, (readByte m p).out = m p := fun _ => rfl
    rw [Logged.bind_out, htype, Logged.bind_out]
    rintro ⟨ret, r⟩
    cases r with
    | none =>
      refine triple_union.mpr ⟨triple_given.mpr fun hv => ?_, triple_given.mpr fun hfail => ?_⟩
      · rw [hv]
        exact hnone
      · exact triple_pure (subset_trans (subset_given ⟨rfl, hfail⟩ subset_rfl) Set.subset_union_right)
    | some a =>
      simp only [valueAt, triple_iUnion, triple_given]
      intro val hv
      rw [hv]
      refine Triple.alloc (fun hfail => triple_fault (hE hfail)) fun nstr => ?_
      rw [add_comm]
      refine triple_pure ?_
      exact fun own hown => Set.mem_iUnion₂.mpr ⟨_, val, mem_given.mpr ⟨rfl, hown⟩⟩

/-! ### Objects -/

/-- What `amf3_parse` returns, and what of it the caller has to give back. An object that is not
read to its end is still there. -/
def resultAt (grants : ℕ → Bool) (out : Option (Option Amf × ℤ)) : Option (Option ℕ × ℤ) → Own
  | none => given (out = none) (⋃ elem, ⋃ ret, isAmf (.object elem) ret)
  | some (none, taken) => given (out = some (none, taken) ∨ ¬ Granted grants) Litter
  | some (some a, taken) => ⋃ val, given (out = some (some val, taken)) (isAmf val a)

theorem triple_refused {out : Option (Option Amf × ℤ)} {ret : ℕ} {obj : List (CStr × Amf)} {F : Own}
    {ptr : ℤ} (hF : F ⊆ Litter) (hout : out = some (none, ptr) ∨ ¬ Granted grants) :
    Triple grants (isAmf (.object obj) ret + F)
      (do
        amfFree (some ret)
        return some (none, ptr))
      (resultAt grants out) E := by
  refine (triple_amfFree _ ret).step fun _ => ?_
  rw [zero_add]
  exact triple_pure (subset_given hout hF)

theorem triple_propLoop (hE : ¬ Granted grants → E .null) (fuel : ℕ) (ptr : ℤ)
    (obj : List (CStr × Amf)) (ret : ℕ) :
    Triple grants (isAmf (.object obj) ret) (propLoop m fin fuel ptr ret)
      (resultAt grants (Amf3.propLoop m fin fuel ptr obj).out) E := by
  induction fuel generalizing ptr obj with
  | zero =>
    rw [propLoop, Amf3.propLoop]
    split_ifs with hend
    · refine triple_pure ?_
      exact Set.subset_iUnion_of_subset _ (subset_given rfl subset_rfl)
    · refine triple_pure (subset_given rfl ?_)
      exact Set.subset_iUnion₂_of_subset obj ret subset_rfl
  | succ fuel ih =>
    rw [propLoop, Amf3.propLoop]
    split_ifs with hend
    · refine triple_pure ?_
      exact Set.subset_iUnion_of_subset _ (subset_given rfl subset_rfl)
    · simp only [Logged.bind_out]
      rw [← zero_add (isAmf _ ret)]
      refine (triple_amf3Prop hE ptr).step ?_
      rintro ⟨len, r⟩
      cases r with
      | none =>
        rw [propertyAt, Set.union_add, given_add, given_add, zero_add]
        refine triple_union.mpr ⟨triple_given.mpr fun hp => ?_, triple_given.mpr ?_⟩
        · rw [hp]
          dsimp only
          split_ifs with hlen
          · rw [← add_zero (isAmf _ ret)]
            exact triple_refused zero_subset_litter (.inl rfl)
          · exact triple_pure (Set.subset_iUnion_of_subset _ (subset_given rfl subset_rfl))
        · rintro ⟨rfl, hfail⟩
          rw [add_comm]
          exact triple_refused subset_rfl (.inr hfail)
      | some e =>
        obtain ⟨n, elem⟩ := e
        simp only [propertyAt, Set.iUnion_add, given_add, triple_iUnion, triple_given]
        intro name val hp
        rw [hp]
        dsimp only
        have hentry : cell n (.str name) + isAmf val elem ⊆ Litter := add_subset_litter
          ((subset_stray n name).trans stray_subset_litter) (isAmf_subset_litter val elem)
        by_cases hlen : len = 0
        · -- the name and the value are lost
          rw [if_pos hlen, if_pos hlen, add_comm]
          exact triple_refused hentry (.inl rfl)
        · rw [if_neg hlen, if_neg hlen, add_assoc]
          refine triple_strAt.knownStep ?_
          have hcells : ∀ A B C : Own, A + (B + C) = C + B + A := by
            intro A B C
            ac_rfl
          rw [hcells]
          refine (triple_amfObjectSet obj name val ret elem).step fun rc => ?_
          cases rc with
          | false =>
            simp only [Bool.false_eq_true, if_false, given_add, triple_given]
            intro hfail
            rw [add_comm]
            refine triple_free.step fun _ => ?_
            rw [zero_add]
            exact triple_refused (isAmf_subset_litter val elem) (.inr hfail)
          | true =>
            simp only [if_true]
            rw [add_comm]
            refine triple_free.step fun _ => ?_
            rw [zero_add]
            exact ih _ _

theorem triple_result {value : P (Option ℕ)} {val : Amf}
    (hvalue : Triple grants 0 value (made grants 0 val) E) (taken : ℤ) :
    Triple grants 0 (do return some (← value, taken)) (resultAt grants (some (some val, taken))) E := by
  refine hvalue.bind fun r => triple_pure ?_
  cases r with
  | none => exact Set.iUnion_mono' fun hfail => ⟨.inr hfail, zero_subset_litter⟩
  | some a => exact Set.subset_iUnion_of_subset val (subset_given rfl subset_rfl)

theorem triple_noResult (taken : ℤ) :
    Triple grants 0 (return some (none, taken) : P (Option (Option ℕ × ℤ)))
      (resultAt grants (some (none, taken))) E :=
  triple_pure (subset_given (.inl rfl) zero_subset_litter)

theorem triple_amf3Parse (hE : ¬ Granted grants → E .null) (fuel : ℕ) :
    Triple grants 0 (amf3Parse m fin fuel) (resultAt grants (Amf3.amf3Parse m fin fuel).out) E := by
  have htag : ∀ p, (readByte m p).out = m p := fun _ => rfl
  unfold amf3Parse Amf3.amf3Parse
  simp only [apply_ite Logged.out, Logged.bind_out, Logged.pure_out, htag]
  split_ifs
  · exact triple_noResult 0
  · exact triple_result triple_amfNull fin
  · exact triple_noResult 1
  · exact triple_result triple_amfUndefined _
  · exact triple_result triple_amfUndefined _
  · exact triple_noResult _
  · exact triple_noResult _
  · refine triple_amfObject.bind fun r => ?_
    cases r with
    | none =>
      exact triple_given.mpr fun hfail => triple_pure (subset_given (.inr hfail) zero_subset_litter)
    | some ret => exact triple_propLoop hE fuel _ [] ret

/-- `amf3_parse` as `parse_element` calls it, on a buffer on which it comes to an end. -/
def amf3Taken (m : ℤ → UInt8) (fin : ℤ) (fuel : ℕ) : P (Option ℕ × ℕ) := do
  match ← amf3Parse m fin fuel with
  | none => return (none, 0)
  | some (a, taken) => return (a, taken.toNat)

/-- Whichever allocations fail, `amf3_parse` uses no block that is not there and gives none back
twice, and it dereferences NULL only if one has failed; the names are given back, and the value is
the caller's. If it returns NULL, a name and a value may be lost. -/
theorem amf3_footprint (grants : ℕ → Bool) (m : ℤ → UInt8) (fin : ℤ) (fuel : ℕ) :
    Triple grants 0 (amf3Parse m fin fuel) (resultAt grants (Amf3.amf3Parse m fin fuel).out)
      (fun e => e = .null ∧ ¬ Granted grants) ∧
    ∀ (a : Option Amf) (taken : ℕ), (Amf3.amf3Parse m fin fuel).out = some (a, (taken : ℤ)) →
      Triple grants 0 (amf3Taken m fin fuel) (amf3At grants (a, taken))
        (fun e => e = .null ∧ ¬ Granted grants) := by
  have hparse : Triple grants 0 (amf3Parse m fin fuel)
      (resultAt grants (Amf3.amf3Parse m fin fuel).out) (fun e => e = .null ∧ ¬ Granted grants) :=
    triple_amf3Parse (fun hfail => ⟨rfl, hfail⟩) fuel
  refine ⟨hparse, fun a taken hout => ?_⟩
  rw [hout] at hparse
  refine hparse.bind fun r => ?_
  obtain _ | ⟨_ | p, t⟩ := r
  · exact triple_given.mpr fun hnone => absurd hnone (Option.some_ne_none _)
  · refine triple_given.mpr fun hnone => triple_pure (subset_given (hnone.imp_left ?_) subset_rfl)
    intro h
    exact congrArg Prod.fst (Option.some.inj h)
  · simp only [resultAt, triple_iUnion, triple_given]
    intro val hval
    obtain ⟨rfl, rfl⟩ := Prod.mk.inj (Option.some.inj hval)
    exact triple_pure (Set.subset_iUnion_of_subset val (subset_given rfl subset_rfl))

/-- An object with one member. -/
theorem amf3_footprint_object : ∃ (a : Option ℕ) (s' : BlockHeap Block),
    amf3Taken (bytesOf [AMF3_OBJECT, 0x0b, 1, 3, 0x61, AMF3_INTEGER, 5, 1]) 8 8 (fun _ => true) empty =
      .ok ((a, 8), s') := by
  obtain ⟨val, hout⟩ : ∃ val, (Amf3.amf3Parse (bytesOf [AMF3_OBJECT, 0x0b, 1, 3, 0x61, AMF3_INTEGER, 5,
      1]) 8 8).out = some (some val, ((8 : ℕ) : ℤ)) := ⟨_, rfl⟩
  have hrun := (amf3_footprint (fun _ => true) _ _ _).2 _ _ hout empty 0 0 rfl rfl
  revert hrun
  cases hc : amf3Taken (bytesOf [AMF3_OBJECT, 0x0b, 1, 3, 0x61, AMF3_INTEGER, 5, 1]) 8 8 (fun _ => true)
      empty with
  | error e => exact fun h => absurd (fun _ => rfl) h.2
  | ok r =>
    obtain ⟨⟨a, taken⟩, s'⟩ := r
    rintro ⟨own, hown, -⟩
    cases a with
    | none =>
      obtain ⟨hval | hfail, -⟩ := mem_given.mp hown
      · cases hval
      · exact absurd (fun _ => rfl) hfail
    | some a =>
      obtain ⟨val', hown⟩ := Set.mem_iUnion.mp hown
      obtain ⟨-, rfl⟩ := Prod.mk.inj (mem_given.mp hown).1
      exact ⟨some a, s', rfl⟩

end Properties

end Mayhem.Blocks
