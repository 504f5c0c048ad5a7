import Mathlib.Algebra.Group.Submonoid.Basic
import Mayhem.Amf.Owned.Values
import Mayhem.Amf.Resend

/-! `amf_invoke_from_buf` on blocks, and what it means that a program on blocks refines a parser. -/
namespace Mayhem.Blocks

open BlockHeap
open scoped Pointwise

/-! ### The parser -/

/-- Read the `n` bytes at `p` of a message that ends at `fin`. -/
def touch (fin p n : ℕ) : P Unit := if p + n ≤ fin then return () else fault .wild

/-- A value and where it ends. -/
def ended (value : P (Option ℕ)) (q : ℕ) : P (Option (ℕ × ℕ)) := do
  match ← value with
  | none => return none
  | some a => return some (a, q)

/-- The loop over the elements of a strict array, of which the buffer is the same each time. -/
def parseArray (ret : Option ℕ) (element : P (Option (ℕ × ℕ))) : ℕ → ℕ → P (Option Unit)
  | _, 0 => return some ()
  | i, n + 1 => do
    match ← element with
    | none =>
      amfFree ret
      return none
    | some (elem, _) =>
      if ← amfArraySet ret i (some elem) then parseArray ret element (i + 1) n
      else
        amfFree (some elem)
        amfFree ret
        return none

section Buffer

variable (amf3 : List UInt8 → P (Option ℕ × ℕ)) (m : Memory) (fin : ℕ)

def parseObject (members : ℕ → ℕ → P (Option ℕ)) (ptr : ℕ) : P (Option (ℕ × ℕ)) := do
  match ← amfObject with
  | none => return none
  | some ret =>
    match ← members ret ptr with
    | none => return none
    | some q => return some (ret, q)

/-- The switch of `parse_element`. -/
def parseBody (element : ℕ → P (Option (ℕ × ℕ))) (members : ℕ → ℕ → P (Option ℕ)) (ptr : ℕ) :
    Marker → P (Option (ℕ × ℕ))
  | .number =>
    if fin < ptr + 8 then return none
    else do
      touch fin ptr 8
      ended (amfNumber (be64ToDouble m ptr)) (ptr + 8)
  | .boolean =>
    if fin ≤ ptr then return none
    else do
      touch fin ptr 1
      ended (amfBool (m ptr ≠ 0)) (ptr + 1)
  | .string =>
    if fin ≤ ptr + 2 then return none
    else do
      touch fin ptr 2
      let slen := strLen m ptr
      if fin < ptr + 2 + slen then return none
      else
        touch fin (ptr + 2) slen
        ended (amfStringf (m.bytes (ptr + 2) slen)) (ptr + 2 + slen)
  | .avmplus => do
    touch fin ptr (fin - ptr)
    match ← amf3 (m.bytes ptr (fin - ptr)) with
    | (none, _) => return none
    | (some a, tmp) => return some (a, ptr + tmp)
  | .ecmaArray => if fin < ptr + 4 then return none else parseObject members (ptr + 4)
  | .object => parseObject members ptr
  | .strictArray =>
    if fin < ptr + 4 then return none
    else do
      touch fin ptr 4
      let alen := (decodeInt32 m ptr).toNat
      let ret ← amfArray alen
      match ← parseArray ret (element (ptr + 4)) 0 alen with
      | none => return none
      | some () => ended (pure ret) (ptr + 4)
  | .null => ended amfNull ptr
  | .undefined => ended amfUndefined ptr
  | .unhandled => do
    touch fin ptr (fin - ptr)
    ended amfUndefined fin

/-- The loop over the members of an object, behind the name of one: the name is not given back
when the member is set. -/
def parseMember (element : ℕ → P (Option (ℕ × ℕ))) (members : ℕ → ℕ → P (Option ℕ))
    (ret name ptr : ℕ) : P (Option ℕ) := do
  touch fin ptr 1
  if m ptr = AMF_OBJECT_END then
    free (some name)
    return some (ptr + 1)
  else
    match ← element ptr with
    | none =>
      free (some name)
      amfFree (some ret)
      return none
    | some (elem, q) =>
      if ← amfObjectSet (some ret) (← strAt (some name)) (some elem) then
        touch fin q 1
        if m q = AMF_OBJECT_END then return some (q + 1) else members ret q
      else
        amfFree (some elem)
        free (some name)
        amfFree (some ret)
        return none

mutual

def parseElement : ℕ → ℕ → P (Option (ℕ × ℕ))
  | 0, _ => fault .abort
  | fuel + 1, buf =>
    if fin ≤ buf then fault .abort
    else do
      touch fin buf 1
      parseBody amf3 m fin (parseElement fuel) (parseMembers fuel) (buf + 1) (marker (m buf))

/-- The loop over the members of an object, and the step over its end. The object is given back
where the name is too long, and not where the buffer ends before it. -/
def parseMembers : ℕ → ℕ → ℕ → P (Option ℕ)
  | 0, _, _ => return none
  | fuel + 1, ret, ptr =>
    if fin ≤ ptr + 2 then return none
    else do
      touch fin ptr 2
      let slen := strLen m ptr
      if fin < ptr + 2 + slen then
        amfFree (some ret)
        return none
      else
        touch fin (ptr + 2) slen
        match ← alloc (.str (nameAt m ptr)) with
        | none =>
          amfFree (some ret)
          return none
        | some name =>
          parseMember m fin (parseElement fuel) (parseMembers fuel) ret name (ptr + 2 + slen)

end

/-- The loop of `amf_invoke_from_buf`. -/
def parseArgs : ℕ → ℕ → ℕ → P (Option ℕ)
  | 0, _, inv => return some inv
  | fuel + 1, buf, inv =>
    if fin ≤ buf then return some inv
    else do
      match ← parseElement amf3 m fin fin buf with
      | none =>
        -- `hex_dump` is given all of `sz`, not what is left behind `buf`
        touch fin buf fin
        amfInvokeFree (some inv)
        return none
      | some (a, q) =>
        if ← amfInvokeAppend (some inv) (some a) then parseArgs fuel q inv
        else
          amfInvokeFree (some inv)
          return none

def amfInvokeFromBuf : P (Option ℕ) := do
  match ← amfInvokeNew 0 with
  | none => return none
  | some inv => parseArgs amf3 m fin fin 0 inv

end Buffer

/-! ### What is lost -/

/-- Strings that nothing points to. -/
def strays : List CStr → Own
  | [] => 0
  | str :: l => (⋃ q, cell q (.str str)) + strays l

theorem cell_subset_strays (l : List CStr) (q : ℕ) (str : CStr) :
    strays l + cell q (.str str) ⊆ strays (str :: l) := by
  rw [add_comm]
  exact Set.add_subset_add (Set.subset_iUnion (fun q => cell q (Block.str str)) q) subset_rfl

theorem strays_append (l₁ l₂ : List CStr) : strays (l₁ ++ l₂) = strays l₁ + strays l₂ := by
  induction l₁ with
  | nil => exact (zero_add _).symm
  | cons str l₁ ih => rw [List.cons_append, strays, strays, ih, add_assoc]

theorem strays_flatMap {ι : Type} (qs : List ι) (names : ι → List CStr) :
    strays (qs.flatMap names) = (qs.map fun q => strays (names q)).sum := by
  induction qs with
  | nil => rfl
  | cons q qs ih => rw [List.flatMap_cons, strays_append, ih, List.map_cons, List.sum_cons]

/-- Strings and values that nothing points to, any number of them. -/
def Litter : Own := AddSubmonoid.closure (stray ∪ ⋃ val, ⋃ a, isAmf val a)

theorem litter_add : Litter + Litter ⊆ Litter := by
  rintro own ⟨own₁, h₁, own₂, h₂, rfl⟩
  exact AddSubmonoid.add_mem _ h₁ h₂

theorem zero_subset_litter : (0 : Own) ⊆ Litter := by
  rintro own rfl
  exact AddSubmonoid.zero_mem _

theorem stray_subset_litter : stray ⊆ Litter :=
  Set.subset_union_left.trans AddSubmonoid.subset_closure

theorem isAmf_subset_litter (val : Amf) (a : ℕ) : isAmf val a ⊆ Litter := fun _ hown =>
  AddSubmonoid.subset_closure (.inr (Set.mem_iUnion₂.mpr ⟨val, a, hown⟩))

theorem strays_subset_litter (l : List CStr) : strays l ⊆ Litter := by
  induction l with
  | nil => exact zero_subset_litter
  | cons str l ih =>
    refine (Set.add_subset_add ?_ ih).trans litter_add
    exact Set.iUnion_subset fun q => (subset_stray q str).trans stray_subset_litter

theorem add_subset_litter {P Q : Own} (hP : P ⊆ Litter) (hQ : Q ⊆ Litter) : P + Q ⊆ Litter :=
  (Set.add_subset_add hP hQ).trans litter_add

/-! ### Refinement -/

section Refinement

variable {grants : ℕ → Bool} {E : Fault → Prop} {fin : ℕ} {α α' β β' : Type} {P₀ F : Own}
  {c : P (Option α)} {p : Parse β} {Q : β → α → Own} {R : β' → α' → Own}

/-- `E` has what the parser may bring about: a failed assertion, and a read behind the message. -/
structure Allows (E : Fault → Prop) (fin : ℕ) (p : Parse β) : Prop where
  abort : p.out = .abort → E .abort
  wild : fin < p.reach → E .wild

theorem Allows.of_bind {g : β → Parse β'} (h : Allows E fin (p >>= g)) : Allows E fin p :=
  ⟨fun hp => h.abort (by rw [Parse.bind_out, hp]), fun hp => h.wild (hp.trans_le Parse.reach_le_bind)⟩

theorem Allows.behind {g : β → Parse β'} {y : β} (h : Allows E fin (p >>= g)) (hy : p.out = .val y) :
    Allows E fin (g y) :=
  ⟨fun hg => h.abort ((Parse.bind_out_val hy).trans hg),
    fun hg => h.wild (hg.trans_le (Parse.reach_le_bind_val hy))⟩

/-- The program returns what the parser returns, and owns what `Q` says of it; or NULL where the
parser does or an allocation has failed. -/
def Refines (grants : ℕ → Bool) (E : Fault → Prop) (fin : ℕ) (P₀ : Own) (c : P (Option α))
    (p : Parse β) (Q : β → α → Own) : Prop :=
  Allows E fin p → Triple grants P₀ c (fun
    | some x => ⋃ y, given (p.out = .val y) (Q y x)
    | none => given (p.out = .null ∨ ¬ Granted grants) Litter) E

theorem triple_touch {ptr n : ℕ} (h : fin < ptr + n → E .wild) :
    Triple grants P₀ (touch fin ptr n) (fun _ => P₀) E := by
  unfold touch
  split_ifs with hle
  · exact triple_pure subset_rfl
  · exact triple_fault (h (Nat.not_le.mp hle))

/-- Both read the same bytes. -/
theorem refines_touch {ptr n : ℕ} {k : Unit → P (Option α)} {g : Unit → Parse β}
    (h : Refines grants E fin P₀ (k ()) (g ()) Q) :
    Refines grants E fin P₀ (touch fin ptr n >>= k) (Parse.touch ptr n >>= g) Q := by
  intro hE
  refine (triple_touch fun hlt => hE.of_bind.wild hlt).bind fun _ => ?_
  refine (h (hE.behind rfl)).post fun r => ?_
  rw [Parse.touch_bind_out]

theorem refines_null (hp : p.out = .null) (h : P₀ ⊆ Litter) :
    Refines grants E fin P₀ (return none) p Q :=
  fun _ => triple_pure (subset_given (.inl hp) h)

theorem refines_pure {x : α} {y : β} (h : P₀ ⊆ Q y x) :
    Refines grants E fin P₀ (return some x) (pure y) Q :=
  fun _ => triple_pure fun _ hown => Set.mem_iUnion.mpr ⟨y, mem_given.mpr ⟨rfl, h hown⟩⟩

/-- NULL is returned, and what is owned is lost, or given back before. -/
def Nulls (grants : ℕ → Bool) (E : Fault → Prop) (F : Own) (c : P (Option α)) : Prop :=
  Triple grants F c (fun r => given (r = none) Litter) E

theorem nulls_return (h : F ⊆ Litter) : Nulls grants E F (return none : P (Option α)) :=
  triple_pure (subset_given rfl h)

/-- A step of both. -/
theorem refines_bind {k : Option α → P (Option α')} {g : β → Parse β'}
    (h : Refines grants E fin P₀ c p Q)
    (hnone : Allows E fin p → p.out = .null ∨ ¬ Granted grants → Nulls grants E F (k none))
    (hf : ∀ y x, p.out = .val y → Refines grants E fin (Q y x + F) (k (some x)) (g y) R) :
    Refines grants E fin (P₀ + F) (c >>= k) (p >>= g) R := by
  intro hE
  refine (h hE.of_bind).step fun r => ?_
  cases r with
  | none =>
    rw [given_add, triple_given, add_comm]
    intro hout
    refine ((hnone hE.of_bind hout).frame Litter).post fun r => ?_
    rw [given_add]
    refine Set.iUnion_subset fun hr => ?_
    rw [hr]
    exact subset_given (hout.imp Parse.bind_out_null id) litter_add
  | some x =>
    simp only [Set.iUnion_add, given_add, triple_iUnion, triple_given]
    intro y hy
    have hbind := Parse.bind_out_val (f := g) hy
    refine (hf y x hy (hE.behind hy)).post fun r' => ?_
    rw [hbind]

/-- A step of the program only. -/
theorem refines_step {γ : Type} {d : P γ} {S : γ → Own} {f : γ → P (Option α)}
    (h : Triple grants P₀ d S E) (hf : ∀ x, Refines grants E fin (S x + F) (f x) p Q) :
    Refines grants E fin (P₀ + F) (d >>= f) p Q :=
  fun hE => h.step fun x => hf x hE

theorem Refines.post {Q' : β → α → Own} (h : Refines grants E fin P₀ c p Q)
    (hQ : ∀ y x, Q y x ⊆ Q' y x) : Refines grants E fin P₀ c p Q' := fun hE => (h hE).post fun r => by
  cases r with
  | none => exact subset_rfl
  | some x => exact Set.iUnion_mono fun y => Set.iUnion_mono fun _ => hQ y x

/-- What is made of the result of the parser. -/
theorem Refines.map {g : β → β'} {R : β' → α → Own} (h : Refines grants E fin P₀ c p Q)
    (hR : ∀ y x, Q y x ⊆ R (g y) x) : Refines grants E fin P₀ c (p >>= fun y => pure (g y)) R := by
  intro hE
  refine (h hE.of_bind).post fun r => ?_
  cases r with
  | none => exact Set.iUnion_mono' fun hout => ⟨hout.imp Parse.bind_out_null id, subset_rfl⟩
  | some x =>
    refine Set.iUnion_subset fun y => Set.iUnion_subset fun hy => ?_
    exact Set.subset_iUnion_of_subset (g y) (subset_given (Parse.bind_out_val hy) (hR y x))

/-- The parser notes what it has taken, the program does not. -/
theorem Refines.taken (h : Refines grants E fin P₀ c p Q) (calls : β → List (ℕ × ℕ)) :
    Refines grants E fin P₀ c (do
      let r ← p
      { calls := calls r, out := .val r }) Q := by
  intro hE
  refine (h hE.of_bind).post fun r => ?_
  rw [Parse.bind_out]
  cases p.out <;> exact subset_rfl

/-- What the parser does behind NULL is left to the program. -/
theorem Refines.onNull {q : Parse Unit} (h : Refines grants E fin P₀ c p Q) :
    Refines grants E fin P₀ c (p.onNull q) Q := by
  intro hE
  have hp : Allows E fin p := ⟨fun hout => hE.abort ((Parse.onNull_out p q).trans hout),
    fun hlt => hE.wild (hlt.trans_le (Parse.reach_le_onNull p q))⟩
  refine (h hp).post fun r => ?_
  rw [Parse.onNull_out]

/-- What is lost already stays lost. -/
theorem Refines.frame (h : Refines grants E fin P₀ c p Q) (hF : F ⊆ Litter) :
    Refines grants E fin (P₀ + F) c p fun y x => Q y x + F := fun hE => ((h hE).frame F).post fun r => by
  cases r with
  | none =>
    rw [given_add]
    exact Set.iUnion_mono fun _ => add_subset_litter subset_rfl hF
  | some x =>
    simp only [Set.iUnion_add, given_add]
    exact subset_rfl

theorem refines_given {φ : Prop} (h : φ → Refines grants E fin P₀ c p Q) :
    Refines grants E fin (given φ P₀) c p Q :=
  fun hE => triple_given.mpr fun hφ => h hφ hE

/-- What comes after an allocation has failed. -/
theorem refines_failed (hfail : ¬ Granted grants) (h : Nulls grants E P₀ c) :
    Refines grants E fin P₀ c p Q :=
  fun _ => h.post fun r => Set.iUnion_subset fun hr => by
    rw [hr]
    exact subset_given (.inr hfail) subset_rfl

end Refinement

end Mayhem.Blocks
