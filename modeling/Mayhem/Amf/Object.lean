import Mathlib.Data.List.Basic
import Mathlib.Data.Nat.Digits.Lemmas
import Mayhem.Amf.Encode
import Mayhem.Amf.Members
import Mayhem.Lib.Int32

/-! Objects with an `int` for the index of a member: `object_index`, `amf_object_set` and
`amf_object_get`. -/
namespace Mayhem

/-- The members of an object. Their number is an `unsigned int`. -/
structure AmfObject where
  elem : List (CStr × Amf)
  size : elem.length < 0x100000000

namespace AmfObject

/-- `amf_object()`. -/
def empty : AmfObject := ⟨[], by decide⟩

/-- The loop of `object_index`, from `i` on. -/
def indexFrom (name : CStr) : List (CStr × Amf) → ℕ → ℤ
  | [], _ => -1
  | (key, _) :: elem, i => if name = key then toInt32 i else indexFrom name elem (i + 1)

def objectIndex (a : AmfObject) (name : CStr) : ℤ := indexFrom name a.elem 0

/-- `amf_object_set`: none if the members are lost, because their new number is 0 and `realloc`
frees them. -/
def amfObjectSet (a : AmfObject) (name : CStr) (obj : Option Amf) : Option (Bool × AmfObject) :=
  match obj with
  | none => some (false, a)
  | some obj =>
    let idx := a.objectIndex name
    if idx < 0 then
      if h : a.elem.length + 1 < 0x100000000 then
        some (true, ⟨a.elem ++ [(name, obj)], by rwa [List.length_append]⟩)
      else none
    else
      some (true, ⟨a.elem.modify idx.toNat fun e => (e.1, obj), by
        rw [List.length_modify]
        exact a.size⟩)

def amfObjectGet (a : AmfObject) (name : CStr) : Option Amf :=
  let idx := a.objectIndex name
  if idx < 0 then none else a.elem[idx.toNat]?.map Prod.snd

/-- One call after the other. -/
def run (a : AmfObject) : List (CStr × Option Amf) → Option AmfObject
  | [] => some a
  | (name, obj) :: calls => do
    let (_, a) ← a.amfObjectSet name obj
    a.run calls

variable {a : AmfObject} {name : CStr} {obj : Amf} {elem l r : List (CStr × Amf)} {v : Amf}

/-! ### Where a member is -/

theorem indexFrom_new (h : name ∉ elem.map Prod.fst) (i : ℕ) : indexFrom name elem i = -1 := by
  induction elem generalizing i with
  | nil => rfl
  | cons e elem ih =>
    obtain ⟨hne, h⟩ := not_or.mp (mt List.mem_cons.mpr h)
    rw [indexFrom, if_neg hne, ih h]

theorem indexFrom_append (h : name ∉ l.map Prod.fst) (i : ℕ) :
    indexFrom name (l ++ (name, v) :: r) i = toInt32 (i + l.length) := by
  induction l generalizing i with
  | nil => rw [List.nil_append, indexFrom, if_pos rfl, List.length_nil, Nat.add_zero]
  | cons e l ih =>
    obtain ⟨hne, h⟩ := not_or.mp (mt List.mem_cons.mpr h)
    rw [List.cons_append, indexFrom, if_neg hne, ih h, List.length_cons, Nat.add_right_comm,
      Nat.add_assoc]

/-- A name that is set falls first on one member. -/
theorem exists_split (h : name ∈ elem.map Prod.fst) :
    ∃ l v r, elem = l ++ (name, v) :: r ∧ name ∉ l.map Prod.fst := by
  induction elem with
  | nil => cases h
  | cons e elem ih =>
    by_cases he : e.1 = name
    · exact ⟨[], e.2, elem, by rw [← he]; rfl, nofun⟩
    · obtain ⟨l, v, r, rfl, hl⟩ := ih ((List.mem_cons.mp h).resolve_left (Ne.symm he))
      exact ⟨e :: l, v, r, rfl, List.not_mem_cons_of_ne_of_not_mem (Ne.symm he) hl⟩

theorem set_split (h : name ∉ l.map Prod.fst) :
    Mayhem.amfObjectSet name obj (l ++ (name, v) :: r) = l ++ (name, obj) :: r := by
  induction l with
  | nil => exact if_pos rfl
  | cons e l ih =>
    obtain ⟨hne, h⟩ := not_or.mp (mt List.mem_cons.mpr h)
    rw [List.cons_append, Mayhem.amfObjectSet, if_neg (Ne.symm hne), ih h, List.cons_append]

theorem lookup_split (h : name ∉ l.map Prod.fst) : (l ++ (name, v) :: r).lookup name = some v := by
  induction l with
  | nil => exact List.lookup_cons_self
  | cons e l ih =>
    obtain ⟨hne, h⟩ := not_or.mp (mt List.mem_cons.mpr h)
    rw [List.cons_append, List.lookup_cons, beq_eq_false_iff_ne.mpr hne]
    exact ih h

/-! ### Indices that are not negative -/

theorem objectIndex_new (h : name ∉ a.elem.map Prod.fst) : a.objectIndex name < 0 := by
  rw [objectIndex, indexFrom_new h]
  decide

theorem objectIndex_split (helem : a.elem = l ++ (name, v) :: r) (h : name ∉ l.map Prod.fst) :
    a.objectIndex name = toInt32 l.length := by
  rw [objectIndex, helem, indexFrom_append h, Nat.zero_add]

/-- A member is found and has an index that fits. -/
theorem objectIndex_short (hsize : a.elem.length ≤ 0x80000000)
    (helem : a.elem = l ++ (name, v) :: r) (h : name ∉ l.map Prod.fst) :
    a.objectIndex name = l.length := by
  rw [objectIndex_split helem h]
  apply toInt32_of_lt
  rw [helem, List.length_append, List.length_cons] at hsize
  omega

/-- As long as all indices fit, `amf_object_set` replaces a value or adds a member. -/
theorem amfObjectSet_eq (hsize : a.elem.length ≤ 0x80000000) (name : CStr) (obj : Amf) :
    ∃ a', a.amfObjectSet name (some obj) = some (true, a') ∧
      a'.elem = Mayhem.amfObjectSet name obj a.elem := by
  unfold amfObjectSet
  by_cases hmem : name ∈ a.elem.map Prod.fst
  · obtain ⟨l, v, r, helem, hl⟩ := exists_split hmem
    have hidx := objectIndex_short hsize helem hl
    simp only [hidx, if_neg (Int.not_lt.mpr (Int.natCast_nonneg _)), Int.toNat_natCast]
    refine ⟨_, rfl, ?_⟩
    simp only [helem]
    rw [set_split hl]
    exact List.modifyTailIdx_add _ 0 l _
  · simp only [if_pos (objectIndex_new hmem)]
    rw [dif_pos (by omega)]
    exact ⟨_, rfl, (amfObjectSet_new hmem).symm⟩

theorem amfObjectGet_new (h : name ∉ a.elem.map Prod.fst) : a.amfObjectGet name = none := by
  unfold amfObjectGet
  exact if_pos (objectIndex_new h)

theorem amfObjectGet_eq (hsize : a.elem.length ≤ 0x80000000) (name : CStr) :
    a.amfObjectGet name = a.elem.lookup name := by
  by_cases hmem : name ∈ a.elem.map Prod.fst
  · obtain ⟨l, v, r, helem, hl⟩ := exists_split hmem
    rw [amfObjectGet, objectIndex_short hsize helem hl]
    simp only [if_neg (Int.not_lt.mpr (Int.natCast_nonneg _)), Int.toNat_natCast]
    rw [helem, lookup_split hl, List.getElem?_append_right (Nat.le_refl _), Nat.sub_self]
    rfl
  · rw [amfObjectGet_new hmem, eq_comm, List.lookup_eq_none_iff]
    exact fun e he => bne_iff_ne.mpr fun hname => hmem (hname ▸ List.mem_map_of_mem he)

/-- The index of a member behind the first 2147483648 ones is negative, and it is not found. -/
theorem amfObjectGet_behind (helem : a.elem = l ++ (name, v) :: r) (h : name ∉ l.map Prod.fst)
    (hl : 0x80000000 ≤ l.length) : a.amfObjectGet name = none := by
  have hsize := a.size
  rw [helem, List.length_append, List.length_cons] at hsize
  rw [amfObjectGet, objectIndex_split helem h]
  exact if_pos (toInt32_neg hl (by omega))

/-! ### Sequences of calls -/

variable {calls before : List (CStr × Option Amf)} {sets : List (CStr × Amf)}

/-- The calls with a value: these succeed. -/
def setsOf (calls : List (CStr × Option Amf)) : List (CStr × Amf) :=
  calls.filterMap fun c => c.2.map (Prod.mk c.1)

/-- The names in the order in which they were first set. -/
def firstKeys (sets : List (CStr × Amf)) : List CStr := (sets.map Prod.fst).eraseDups

def lastValue (sets : List (CStr × Amf)) (name : CStr) : Option Amf := sets.reverse.lookup name

/-- The members that a list of names and their values make. -/
def members (keys : List CStr) (value : CStr → Option Amf) : List (CStr × Amf) :=
  keys.filterMap fun key => (value key).map (Prod.mk key)

/-- An object is an ordered map: what it should be after the calls `sets`. -/
structure Ordered (sets : List (CStr × Amf)) (a : AmfObject) : Prop where
  keys : a.elem.map Prod.fst = firstKeys sets
  distinct : (a.elem.map Prod.fst).Nodup
  get : ∀ name, a.amfObjectGet name = lastValue sets name
  null : ∀ name, a.amfObjectSet name none = some (false, a)
  set : ∀ name obj, ∃ a', a.amfObjectSet name (some obj) = some (true, a')
  bytes : amfToBuf (.object a.elem) = amfToBuf (.object (members (firstKeys sets) (lastValue sets)))

theorem firstKeys_append : firstKeys (sets ++ [(name, obj)]) =
    if name ∈ firstKeys sets then firstKeys sets else firstKeys sets ++ [name] := by
  rw [firstKeys, firstKeys, List.map_append, List.eraseDups_append]
  split_ifs with hmem
  · have hmem := List.mem_eraseDups.mp hmem
    simp [List.cons_removeAll, hmem]
  · have hmem := mt List.mem_eraseDups.mpr hmem
    simp [List.cons_removeAll, hmem, List.eraseDups_cons]

theorem lastValue_append (key : CStr) : lastValue (sets ++ [(name, obj)]) key =
    if key = name then some obj else lastValue sets key := by
  rw [lastValue, lastValue, List.reverse_append, List.reverse_singleton, List.singleton_append,
    List.lookup_cons]
  split_ifs with hkey
  · rw [beq_iff_eq.mpr hkey]
  · rw [beq_eq_false_iff_ne.mpr hkey]

theorem firstKeys_length_le : (firstKeys sets).length ≤ (firstKeys (sets ++ l)).length := by
  rw [firstKeys, firstKeys, List.map_append, List.eraseDups_append, List.length_append]
  exact Nat.le_add_right _ _

theorem setsOf_append (name : CStr) (obj : Option Amf) :
    setsOf (before ++ [(name, obj)]) = setsOf before ++ (obj.map (Prod.mk name)).toList := by
  cases obj <;> simp [setsOf]

/-- Members with distinct keys are made by these and the values that are found. -/
theorem members_self (h : (elem.map Prod.fst).Nodup) :
    members (elem.map Prod.fst) (fun key => elem.lookup key) = elem := by
  induction elem with
  | nil => rfl
  | cons e elem ih =>
    obtain ⟨hnew, h⟩ := List.nodup_cons.mp h
    rw [List.map_cons, members, List.filterMap_cons, List.lookup_cons_self]
    refine congrArg (e :: ·) (.trans (List.filterMap_congr fun key hkey => ?_) (ih h))
    have hne : key ≠ e.1 := fun he => hnew (he ▸ hkey)
    rw [List.lookup_cons, beq_eq_false_iff_ne.mpr hne]

/-- What the calls up to now have left in the object. -/
structure Holds (sets : List (CStr × Amf)) (a : AmfObject) : Prop where
  keys : a.elem.map Prod.fst = firstKeys sets
  distinct : (a.elem.map Prod.fst).Nodup
  value : ∀ name, a.elem.lookup name = lastValue sets name

theorem Holds.short (h : a.Holds sets) (hlen : (firstKeys sets).length ≤ 0x80000000) :
    a.elem.length ≤ 0x80000000 := by
  rwa [← h.keys, List.length_map] at hlen

theorem holds_empty : empty.Holds [] := ⟨rfl, .nil, fun _ => rfl⟩

/-- A value replaces the one of that name or goes to the end. -/
theorem Holds.set (h : a.Holds sets) (hlen : (firstKeys sets).length ≤ 0x80000000) (name : CStr)
    (obj : Amf) : ∃ a', a.amfObjectSet name (some obj) = some (true, a') ∧
      a'.Holds (sets ++ [(name, obj)]) := by
  obtain ⟨a', hset, helem⟩ := amfObjectSet_eq (h.short hlen) name obj
  refine ⟨a', hset, ?_, ?_, fun key => ?_⟩
  · rw [helem, amfObjectSet_map_fst, firstKeys_append, h.keys]
  · rw [helem]
    exact amfObjectSet_nodup name obj h.distinct
  · rw [helem, lookup_amfObjectSet, lastValue_append, h.value]

theorem Holds.run (h : a.Holds sets)
    (hlen : (firstKeys (sets ++ setsOf calls)).length ≤ 0x80000000) :
    ∃ a', a.run calls = some a' ∧ a'.Holds (sets ++ setsOf calls) := by
  induction calls generalizing a sets with
  | nil => exact ⟨a, rfl, by rwa [setsOf, List.filterMap_nil, List.append_nil]⟩
  | cons call calls ih =>
    obtain ⟨name, _ | obj⟩ := call
    · exact ih h hlen
    · have hsets : sets ++ setsOf ((name, some obj) :: calls) =
          sets ++ [(name, obj)] ++ setsOf calls := by simp [setsOf]
      rw [hsets] at hlen ⊢
      have hshort : (firstKeys sets).length ≤ 0x80000000 :=
        (firstKeys_length_le.trans firstKeys_length_le).trans hlen
      obtain ⟨a₁, hset, h₁⟩ := h.set hshort name obj
      obtain ⟨a', hrun, h'⟩ := ih h₁ hlen
      refine ⟨a', ?_, h'⟩
      rw [AmfObject.run, hset]
      exact hrun

theorem Holds.ordered (h : a.Holds sets) (hlen : (firstKeys sets).length ≤ 0x80000000) :
    a.Ordered sets where
  keys := h.keys
  distinct := h.distinct
  get name := by rw [amfObjectGet_eq (h.short hlen), h.value]
  null _ := rfl
  set name obj := by
    obtain ⟨a', hset, -⟩ := h.set hlen name obj
    exact ⟨a', hset⟩
  bytes := by
    have hself := members_self h.distinct
    rw [h.keys, funext h.value] at hself
    rw [hself]

/-- With one key too many the last of them is not found. -/
theorem Ordered.length_le (h : a.Ordered sets) : (firstKeys sets).length ≤ 0x80000000 := by
  by_contra hlong
  rw [← h.keys, List.length_map, Nat.not_le] at hlong
  generalize hn : 0x80000000 = n at hlong
  obtain ⟨e, r, he⟩ : ∃ e r, a.elem.drop n = e :: r :=
    List.exists_cons_of_ne_nil fun hnil => by
      rw [List.drop_eq_nil_iff] at hnil
      omega
  have helem : a.elem = a.elem.take n ++ (e.1, e.2) :: r := by
    rw [← he, List.take_append_drop]
  have hnew : e.1 ∉ (a.elem.take n).map Prod.fst := by
    have hdistinct := h.distinct
    rw [helem, List.map_append, List.map_cons, List.nodup_middle] at hdistinct
    exact fun hmem => (List.nodup_cons.mp hdistinct).1 (List.mem_append_left _ hmem)
  have hnone := amfObjectGet_behind helem hnew (by rw [List.length_take]; omega)
  have hkey : e.1 ∈ sets.map Prod.fst := by
    rw [← List.mem_eraseDups]
    show e.1 ∈ firstKeys sets
    rw [← h.keys, helem]
    simp
  rw [h.get, lastValue, List.lookup_eq_none_iff] at hnone
  obtain ⟨e', he', hname⟩ := List.mem_map.mp hkey
  exact bne_iff_ne.mp (hnone e' (List.mem_reverse.mpr he')) hname.symm

/-- Objects are ordered maps exactly as long as they have at most 2147483648 members. -/
theorem object_ordered_iff (calls : List (CStr × Option Amf)) :
    (∃ a, empty.run calls = some a ∧ a.Ordered (setsOf calls)) ↔
      (firstKeys (setsOf calls)).length ≤ 0x80000000 := by
  constructor
  · rintro ⟨a, -, h⟩
    exact h.length_le
  · intro hlen
    obtain ⟨a, hrun, h⟩ := holds_empty.run hlen
    exact ⟨a, hrun, h.ordered hlen⟩

/-! ### Too many keys -/

/-- A name for each number. -/
def keyOf (i : ℕ) : CStr := (Nat.digits 10 i).map fun d => (48 + d).toUInt8

theorem keyOf_injective : Function.Injective keyOf := by
  have hdigits (i : ℕ) : (keyOf i).map (fun c => c.toNat - 48) = Nat.digits 10 i := by
    rw [keyOf, List.map_map]
    refine (List.map_congr_left fun d hd => ?_).trans (List.map_id _)
    have hlt := Nat.digits_lt_base (by decide : 1 < 10) hd
    rw [Function.comp_apply, Nat.toUInt8, UInt8.toNat_ofNat', Nat.mod_eq_of_lt (by omega),
      Nat.add_sub_cancel_left, id]
  intro i j hij
  rw [← Nat.ofDigits_digits 10 i, ← Nat.ofDigits_digits 10 j, ← hdigits, ← hdigits, hij]

/-- A NULL object is set under each of `n` names. -/
def manyKeys (n : ℕ) : List (CStr × Option Amf) := (List.range n).map fun i => (keyOf i, some .null)

theorem manyKeys_succ (n : ℕ) : manyKeys (n + 1) = manyKeys n ++ [(keyOf n, some .null)] := by
  rw [manyKeys, List.range_succ, List.map_append]
  rfl

theorem setsOf_manyKeys (n : ℕ) :
    setsOf (manyKeys n) = (List.range n).map fun i => (keyOf i, .null) := by
  rw [setsOf, manyKeys, List.filterMap_map]
  exact congrFun List.filterMap_eq_map _

theorem keyOf_new (n : ℕ) : keyOf n ∉ firstKeys (setsOf (manyKeys n)) := by
  rw [firstKeys, List.mem_eraseDups, setsOf_manyKeys, List.map_map]
  intro hmem
  obtain ⟨i, hi, hkey⟩ := List.mem_map.mp hmem
  obtain rfl := keyOf_injective hkey
  exact Nat.lt_irrefl _ (List.mem_range.mp hi)

theorem firstKeys_manyKeys (n : ℕ) : (firstKeys (setsOf (manyKeys n))).length = n := by
  induction n with
  | zero => rfl
  | succ n ih =>
    rw [manyKeys_succ, setsOf_append, Option.map_some, Option.toList_some, firstKeys_append,
      if_neg (keyOf_new n), List.length_append, ih]
    rfl

theorem run_append (a : AmfObject) (calls calls' : List (CStr × Option Amf)) :
    a.run (calls ++ calls') = (a.run calls).bind fun a => a.run calls' := by
  induction calls generalizing a with
  | nil => rfl
  | cons call calls ih =>
    rw [List.cons_append, run, run]
    cases a.amfObjectSet call.1 call.2 with
    | none => rfl
    | some r => exact ih r.2

/-- The key that is set last is stored, but not found. -/
theorem object_loses_key : ∃ a, empty.run (manyKeys 0x80000001) = some a ∧
    keyOf 0x80000000 ∈ a.elem.map Prod.fst ∧ a.amfObjectGet (keyOf 0x80000000) = none ∧
      ¬ a.Ordered (setsOf (manyKeys 0x80000001)) := by
  suffices h : ∀ n, n = 0x80000000 → ∃ a, empty.run (manyKeys (n + 1)) = some a ∧
      keyOf n ∈ a.elem.map Prod.fst ∧ a.amfObjectGet (keyOf n) = none ∧
        ¬ a.Ordered (setsOf (manyKeys (n + 1))) from h _ rfl
  intro n hn
  have hlen : (firstKeys (setsOf (manyKeys n))).length ≤ 0x80000000 := by
    rw [firstKeys_manyKeys, hn]
  obtain ⟨a₀, hrun, h₀⟩ := holds_empty.run hlen
  have hlength : a₀.elem.length = n := by
    rw [← List.length_map (f := Prod.fst), h₀.keys]
    exact firstKeys_manyKeys n
  have hnew : keyOf n ∉ a₀.elem.map Prod.fst := by
    rw [h₀.keys]
    exact keyOf_new n
  obtain ⟨a, hset, helem⟩ := amfObjectSet_eq (h₀.short hlen) (keyOf n) .null
  rw [amfObjectSet_new hnew] at helem
  refine ⟨a, ?_, ?_, amfObjectGet_behind helem hnew (by omega), fun h => ?_⟩
  · rw [manyKeys_succ, run_append, hrun, Option.bind_some, run, hset]
    rfl
  · rw [helem, List.map_append]
    exact List.mem_append_right _ List.mem_cons_self
  · have hlong := h.length_le
    rw [firstKeys_manyKeys] at hlong
    omega

end AmfObject
end Mayhem
