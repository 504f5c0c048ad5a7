import Mathlib.Data.List.TakeWhile
import Mayhem.Amf.Parse

/-! Values that the wire format can carry, and their encodings in memory. -/
namespace Mayhem

/-! ### What is encoded -/

/-- A string that the wire format can carry. -/
structure CStr.Ok (str : CStr) : Prop where
  noNul : ∀ c ∈ str, c ≠ 0
  short : str.length ≤ 0xffff

namespace Amf

/-- Trees with distinct keys in every object, but no strict arrays, which have no encoding. -/
inductive Ok : Amf → Prop
  | number {num} : Ok (.number num)
  | bool {b} : Ok (.bool b)
  | string {str} : (∀ s ∈ str, CStr.Ok s) → Ok (.string str)
  | object {elem} : (elem.map Prod.fst).Nodup → (∀ e ∈ elem, CStr.Ok e.1) → (∀ e ∈ elem, Ok e.2) →
      Ok (.object elem)
  | null : Ok .null
  | undefined : Ok .undefined

/-- No strict arrays, and strings that a 16-bit length holds. -/
inductive Sendable : Amf → Prop
  | number {num} : Sendable (.number num)
  | bool {b} : Sendable (.bool b)
  | string {str} : amfStrlen str ≤ 0xffff → Sendable (.string str)
  | object {elem} : (∀ e ∈ elem, Sendable e.2) → Sendable (.object elem)
  | null : Sendable .null
  | undefined : Sendable .undefined

/-- An `int` holds the lengths of all keys, and what `ptr` goes forward for them. -/
inductive ShortKeys : Amf → Prop
  | number {num} : ShortKeys (.number num)
  | bool {b} : ShortKeys (.bool b)
  | string {str} : ShortKeys (.string str)
  | object {elem} : (∀ e ∈ elem, e.1.length < 2 ^ 31 - 2) → (∀ e ∈ elem, ShortKeys e.2) →
      ShortKeys (.object elem)
  | null : ShortKeys .null
  | undefined : ShortKeys .undefined

/-- An `int` holds the lengths of all strings and keys, and what `ptr` goes forward for keys. -/
inductive Short : Amf → Prop
  | number {num} : Short (.number num)
  | bool {b} : Short (.bool b)
  | string {str} : amfStrlen str < 2 ^ 31 → Short (.string str)
  | object {elem} : (∀ e ∈ elem, e.1.length < 2 ^ 31 - 2) → (∀ e ∈ elem, Short e.2) →
      Short (.object elem)
  | null : Short .null
  | undefined : Short .undefined
  | strictArray {elem} : Short (.strictArray elem)

/-- The high byte of the length of `key` is that of an object end. -/
def EndLike (key : CStr) : Prop := 0x900 ≤ key.length ∧ key.length < 0xa00

instance (key : CStr) : Decidable (EndLike key) := inferInstanceAs (Decidable (_ ∧ _))

/-- No key but the first one of an object is `EndLike`. -/
inductive Clean : Amf → Prop
  | number {num} : Clean (.number num)
  | bool {b} : Clean (.bool b)
  | string {str} : Clean (.string str)
  | object {elem} : (∀ e ∈ elem.tail, ¬ EndLike e.1) → (∀ e ∈ elem, Clean e.2) → Clean (.object elem)
  | null : Clean .null
  | undefined : Clean .undefined

mutual

/-- A value as it is read back: empty strings are NULL. -/
def readBack : Amf → Amf
  | .string (some []) => .string none
  | .object elem => .object (membersReadBack elem)
  | a => a

def membersReadBack : List (CStr × Amf) → List (CStr × Amf)
  | [] => []
  | (key, val) :: elem => (key, readBack val) :: membersReadBack elem

end

end Amf

/-- An invoke as it is read back: absent slots are null. -/
def Invoke.readBack (inv : Invoke) : Invoke := inv.map fun a => some (a.getD .null).readBack

def Invoke.Short (inv : Invoke) : Prop := ∀ a, some a ∈ inv → a.Short

open Amf

theorem sendable_string {str : Option CStr} : (Amf.string str).Sendable ↔ amfStrlen str ≤ 0xffff :=
  ⟨fun h => by cases h; assumption, .string⟩

theorem sendable_object {elem : List (CStr × Amf)} :
    (Amf.object elem).Sendable ↔ ∀ e ∈ elem, e.2.Sendable :=
  ⟨fun h => by cases h; assumption, .object⟩

theorem not_sendable_array {elem : List Amf} : ¬ (Amf.strictArray elem).Sendable := nofun

theorem Amf.Ok.sendable {a : Amf} (h : a.Ok) : a.Sendable := by
  induction h with
  | number => exact .number
  | bool => exact .bool
  | @string str hstr =>
    apply Sendable.string
    cases str with
    | none => decide
    | some s => exact (hstr s rfl).short
  | object _ _ _ ih => exact .object ih
  | null => exact .null
  | undefined => exact .undefined

theorem Amf.Short.shortKeys {a : Amf} (h : a.Short) (hok : a.Sendable) : a.ShortKeys := by
  induction h with
  | number => exact .number
  | bool => exact .bool
  | string => exact .string
  | object hkeys _ ih => exact .object hkeys fun e he => ih e he (sendable_object.mp hok e he)
  | null => exact .null
  | undefined => exact .undefined
  | strictArray => exact absurd hok not_sendable_array

theorem Amf.Ok.shortKeys {a : Amf} (h : a.Ok) : a.ShortKeys := by
  induction h with
  | number => exact .number
  | bool => exact .bool
  | string => exact .string
  | object _ hkeys _ ih =>
    exact .object (fun e he => (hkeys e he).short.trans_lt (by decide)) ih
  | null => exact .null
  | undefined => exact .undefined

theorem membersReadBack_eq_map (elem : List (CStr × Amf)) :
    membersReadBack elem = elem.map fun e => (e.1, e.2.readBack) := by
  induction elem with
  | nil => rfl
  | cons e elem ih => rw [membersReadBack, ih, List.map_cons]

/-! ### Words and strings -/

theorem be64ToDouble_encode {m : Memory} {p : ℕ} {num : UInt64}
    (h : m.bytes p 8 = doubleToBe64 num) : be64ToDouble m p = num := by
  obtain ⟨hhi, hlo⟩ := (Memory.bytes_append_iff m p (encodeInt32 (num >>> 32).toUInt32)
    (encodeInt32 num.toUInt32)).mp h
  rw [encodeInt32_length] at hhi hlo
  rw [be64ToDouble, decodeInt32_encode hhi, decodeInt32_encode hlo]
  have hnum := num.toNat_lt
  apply UInt64.toNat_inj.mp
  simp only [UInt64.toNat_or, UInt64.toNat_shiftLeft, UInt32.toNat_toUInt64, UInt64.toNat_toUInt32,
    UInt64.toNat_shiftRight, UInt64.reduceToNat, Nat.reduceMod, Nat.shiftRight_eq_div_pow,
    Nat.shiftLeft_eq]
  rw [Nat.mod_eq_of_lt (b := 2 ^ 64) (by omega), ← Nat.shiftLeft_eq,
    ← Nat.shiftLeft_add_eq_or_of_lt (Nat.mod_lt _ (by decide)), Nat.shiftLeft_eq]
  omega

theorem strLen_encode {m : Memory} {p : ℕ} {str : CStr} (hstr : str.length ≤ 0xffff)
    (h : m.bytes p (encodeStr str).length = encodeStr str) :
    strLen m p = str.length ∧ m.bytes (p + 2) str.length = str := by
  obtain ⟨hlen, hstr'⟩ := (Memory.bytes_append_iff m p [_, _] str).mp h
  refine ⟨?_, hstr'⟩
  simp only [List.length_cons, List.length_nil, Memory.bytes, List.cons.injEq, and_true] at hlen
  rw [strLen, hlen.1, hlen.2, ← Nat.shiftLeft_add_eq_or_of_lt (UInt8.toNat_lt _),
    UInt8.toNat_ofNat', UInt8.toNat_ofNat', Nat.shiftLeft_eq, Nat.shiftRight_eq_div_pow,
    Nat.and_two_pow_sub_one_eq_mod _ 8, Nat.and_two_pow_sub_one_eq_mod _ 8]
  omega

theorem takeWhile_noNul {str : CStr} (h : CStr.Ok str) : str.takeWhile (· ≠ 0) = str :=
  List.takeWhile_eq_self_iff.mpr fun c hc => by simpa using h.noNul c hc

/-- What `amf_stringf` makes of a string is what the string is read back as. -/
theorem string_readBack {str : Option CStr} (h : ∀ s ∈ str, CStr.Ok s) :
    (Amf.string (amfStringf (str.getD []))) = (Amf.string str).readBack := by
  match str, h with
  | none, _ => rfl
  | some [], _ => rfl
  | some (c :: s), h =>
    have hstr := takeWhile_noNul (h _ rfl)
    rw [amfStringf, Option.getD_some, hstr]
    rfl

/-! ### Encodings in memory -/

theorem exists_members {elem : List (CStr × Amf)} (hkeys : ∀ e ∈ elem, e.1.length < 2 ^ 31 - 2)
    (h : ∀ e ∈ elem, ∃ bs, amfToBuf e.2 = some bs ∧ amfSize e.2 = some bs.length) :
    ∃ bs, membersToBuf elem = some bs ∧ membersSize elem = some bs.length := by
  induction elem with
  | nil => exact ⟨[], rfl, rfl⟩
  | cons e elem ih =>
    obtain ⟨bs, hbs, hsize⟩ := h e List.mem_cons_self
    obtain ⟨rest, hrest, hrestSize⟩ := ih (fun e he => hkeys e (List.mem_cons_of_mem _ he))
      fun e he => h e (List.mem_cons_of_mem _ he)
    refine ⟨encodeStr e.1 ++ (bs ++ rest), ?_, ?_⟩
    · rw [membersToBuf, strToBuf_short (hkeys e List.mem_cons_self), hbs, hrest]
      rfl
    · rw [membersSize, hsize, hrestSize]
      simp [encodeStr]
      omega

theorem exists_encoding {a : Amf} (h : a.Sendable) (hshort : a.ShortKeys) :
    ∃ bs, amfToBuf a = some bs ∧ amfSize a = some bs.length := by
  induction hshort with
  | @number num => exact ⟨AMF_NUMBER :: doubleToBe64 num, rfl, rfl⟩
  | @bool b => exact ⟨[AMF_BOOLEAN, if b then 1 else 0], rfl, rfl⟩
  | @string str =>
    refine ⟨AMF_STRING :: encodeStr (str.getD []), amfToBuf_string (sendable_string.mp h), ?_⟩
    rw [amfSize, amfStrlen]
    simp [encodeStr]
    omega
  | object hkeys _ ih =>
    obtain ⟨bs, hbs, hsize⟩ := exists_members hkeys fun e he => ih e he (sendable_object.mp h e he)
    refine ⟨AMF_OBJECT :: (bs ++ [0, 0, AMF_OBJECT_END]), by rw [amfToBuf, hbs]; rfl, ?_⟩
    rw [amfSize, hsize]
    simp
    omega
  | null => exact ⟨[AMF_NULL], rfl, rfl⟩
  | undefined => exact ⟨[AMF_UNDEFINED], rfl, rfl⟩

theorem exists_invoke {inv : Invoke} (h : ∀ a, some a ∈ inv → a.Sendable)
    (hshort : ∀ a, some a ∈ inv → a.ShortKeys) :
    ∃ bs, amfInvokeToBuf inv = some bs ∧ amfInvokeBufSize inv = some bs.length := by
  induction inv with
  | nil => exact ⟨[], rfl, rfl⟩
  | cons a inv ih =>
    obtain ⟨rest, hrest, hrestSize⟩ := ih (fun a ha => h a (List.mem_cons_of_mem _ ha))
      fun a ha => hshort a (List.mem_cons_of_mem _ ha)
    cases a with
    | none =>
      refine ⟨AMF_NULL :: rest, by rw [amfInvokeToBuf, hrest]; rfl, ?_⟩
      rw [amfInvokeBufSize, hrestSize]
      simp
      omega
    | some a =>
      obtain ⟨bs, hbs, hsize⟩ := exists_encoding (h a List.mem_cons_self) (hshort a List.mem_cons_self)
      refine ⟨bs ++ rest, by rw [amfInvokeToBuf, hbs, hrest]; rfl, ?_⟩
      rw [amfInvokeBufSize, hsize, hrestSize]
      simp

/-- The encoding `bs` lies in memory from `p` to `q`. -/
def Stored (m : Memory) (p q : ℕ) (bs : Option (List UInt8)) : Prop :=
  ∃ l, bs = some l ∧ m.bytes p l.length = l ∧ q = p + l.length

section Stored

variable {m : Memory} {p q : ℕ}

/-- Every encoding starts with the type. -/
theorem Stored.split {a : Amf} (h : Stored m p q (amfToBuf a)) :
    m p = a.type ∧ ∃ l, amfToBuf a = some (a.type :: l) ∧ Stored m (p + 1) q (some l) := by
  obtain ⟨l, hl, hm, rfl⟩ := h
  have hhead : ∃ rest, l = a.type :: rest := by
    cases a with
    | number num => exact ⟨_, (Option.some.inj hl).symm⟩
    | bool b => exact ⟨_, (Option.some.inj hl).symm⟩
    | string str =>
      rw [amfToBuf] at hl
      split_ifs at hl
      obtain ⟨bs, -, hl⟩ := Option.bind_eq_some_iff.mp hl
      exact ⟨_, (Option.some.inj hl).symm⟩
    | object elem =>
      obtain ⟨bs, -, hl⟩ := Option.bind_eq_some_iff.mp hl
      exact ⟨_, (Option.some.inj hl).symm⟩
    | null => exact ⟨_, (Option.some.inj hl).symm⟩
    | undefined => exact ⟨_, (Option.some.inj hl).symm⟩
    | strictArray elem => cases hl
  obtain ⟨rest, rfl⟩ := hhead
  obtain ⟨htype, hrest⟩ := List.cons.inj hm
  exact ⟨htype, rest, hl, rest, rfl, hrest, by simp; omega⟩

/-- What is behind the type. -/
theorem Stored.payload {a : Amf} {l : List UInt8} (h : Stored m p q (amfToBuf a))
    (ha : amfToBuf a = some (a.type :: l)) :
    m.bytes (p + 1) l.length = l ∧ q = p + 1 + l.length := by
  obtain ⟨-, l', hl', l'', hl'', hm, hq⟩ := h.split
  obtain rfl := Option.some.inj hl''
  obtain rfl : l = l' := (List.cons.inj (Option.some.inj (ha.symm.trans hl'))).2
  exact ⟨hm, hq⟩

theorem Stored.le {bs : Option (List UInt8)} (h : Stored m p q bs) : p ≤ q := by
  obtain ⟨l, -, -, rfl⟩ := h
  omega

theorem Stored.lt {a : Amf} (h : Stored m p q (amfToBuf a)) : p < q := by
  obtain ⟨-, l, -, hrest⟩ := h.split
  exact hrest.le

theorem Stored.object {elem : List (CStr × Amf)} (h : Stored m p q (amfToBuf (.object elem))) :
    ∃ r, Stored m (p + 1) r (membersToBuf elem) ∧ m.bytes r 3 = [0, 0, AMF_OBJECT_END] ∧ q = r + 3 := by
  obtain ⟨l, hl, hm, rfl⟩ := h
  obtain ⟨bs, hbs, hl⟩ := Option.bind_eq_some_iff.mp hl
  obtain rfl := Option.some.inj hl
  obtain ⟨-, hm⟩ := List.cons.inj hm
  obtain ⟨hbytes, hend⟩ := (Memory.bytes_append_iff m (p + 1) bs [0, 0, AMF_OBJECT_END]).mp hm
  exact ⟨_, ⟨bs, hbs, hbytes, rfl⟩, hend, by simp; omega⟩

theorem Stored.member {key : CStr} {val : Amf} {elem : List (CStr × Amf)} (hkey : CStr.Ok key)
    (h : Stored m p q (membersToBuf ((key, val) :: elem))) :
    m.bytes p (encodeStr key).length = encodeStr key ∧
      ∃ r, Stored m (p + 2 + key.length) r (amfToBuf val) ∧ Stored m r q (membersToBuf elem) := by
  obtain ⟨l, hl, hm, rfl⟩ := h
  rw [membersToBuf, strToBuf_short (hkey.short.trans_lt (by decide)), Option.bind_eq_bind,
    Option.bind_some] at hl
  obtain ⟨bs, hbs, hl⟩ := Option.bind_eq_some_iff.mp hl
  obtain ⟨rest, hrest, hl⟩ := Option.bind_eq_some_iff.mp hl
  obtain rfl := Option.some.inj hl
  obtain ⟨hbytes, hm⟩ := (Memory.bytes_append_iff m p (encodeStr key) (bs ++ rest)).mp hm
  obtain ⟨hval, helem⟩ := (Memory.bytes_append_iff m _ bs rest).mp hm
  have hlen : p + (encodeStr key).length = p + 2 + key.length := by simp [encodeStr]; omega
  rw [hlen] at hval helem
  exact ⟨hbytes, _, ⟨bs, hbs, hval, rfl⟩, rest, hrest, helem, by simp [encodeStr]; omega⟩

theorem Stored.absent {inv : Invoke} (h : Stored m p q (amfInvokeToBuf (none :: inv))) :
    m p = AMF_NULL ∧ Stored m (p + 1) q (amfInvokeToBuf inv) := by
  obtain ⟨l, hl, hm, rfl⟩ := h
  obtain ⟨rest, hrest, hl⟩ := Option.bind_eq_some_iff.mp hl
  obtain rfl := Option.some.inj hl
  obtain ⟨hnull, hm⟩ := List.cons.inj hm
  exact ⟨hnull, rest, hrest, hm, by simp; omega⟩

theorem Stored.arg {a : Amf} {inv : Invoke} (h : Stored m p q (amfInvokeToBuf (some a :: inv))) :
    ∃ r, Stored m p r (amfToBuf a) ∧ Stored m r q (amfInvokeToBuf inv) := by
  obtain ⟨l, hl, hm, rfl⟩ := h
  obtain ⟨bs, hbs, hl⟩ := Option.bind_eq_some_iff.mp hl
  obtain ⟨rest, hrest, hl⟩ := Option.bind_eq_some_iff.mp hl
  obtain rfl := Option.some.inj hl
  obtain ⟨ha, hinv⟩ := (Memory.bytes_append_iff m p bs rest).mp hm
  exact ⟨_, ⟨bs, hbs, ha, rfl⟩, rest, hrest, hinv, by simp; omega⟩

/-- The byte in front of a member looks like an object end if the length of its key does. -/
theorem Stored.member_end {key : CStr} {val : Amf} {elem : List (CStr × Amf)} (hkey : CStr.Ok key)
    (h : Stored m p q (membersToBuf ((key, val) :: elem))) : m p = AMF_OBJECT_END ↔ EndLike key := by
  have hhigh : m p = UInt8.ofNat (key.length >>> 8 &&& 0xff) := (List.cons.inj (h.member hkey).1).1
  have hshort := hkey.short
  rw [hhigh, ← UInt8.toNat_inj, UInt8.toNat_ofNat', Nat.shiftRight_eq_div_pow,
    Nat.and_two_pow_sub_one_eq_mod _ 8, EndLike, show AMF_OBJECT_END.toNat = 9 from rfl]
  omega

end Stored

end Mayhem
