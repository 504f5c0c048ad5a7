import Mathlib.Data.Nat.Notation

/-! AMF values, as `struct _amf` holds them, and the accessors of `rtmp/amf.h`. Allocation
succeeds. Numbers are kept as 64-bit patterns. -/
namespace Mayhem

/-- A C string, without its NUL. -/
abbrev CStr := List UInt8

/-- `u.str` of a string is NULL for the empty strings of the parser. The members of a
strict array are all set, as `parse_element` leaves them. -/
inductive Amf
  | number (num : UInt64)
  | bool (b : Bool)
  | string (str : Option CStr)
  | object (elem : List (CStr × Amf))
  | null
  | undefined
  | strictArray (elem : List Amf)
deriving Repr

/-- `struct _invoke`: the slots, of which unset ones are NULL. -/
abbrev Invoke := List (Option Amf)

def AMF_NUMBER : UInt8 := 0
def AMF_BOOLEAN : UInt8 := 1
def AMF_STRING : UInt8 := 2
def AMF_OBJECT : UInt8 := 3
def AMF_NULL : UInt8 := 5
def AMF_UNDEFINED : UInt8 := 6
def AMF_ECMA_ARRAY : UInt8 := 8
def AMF_OBJECT_END : UInt8 := 9
def AMF_STRICT_ARRAY : UInt8 := 10
def AMF_AVMPLUS : UInt8 := 17

/-- Induction over values: the members of an object or an array come first. -/
@[elab_as_elim]
theorem Amf.induct {P : Amf → Prop} (number : ∀ num, P (.number num)) (bool : ∀ b, P (.bool b))
    (string : ∀ str, P (.string str)) (object : ∀ elem, (∀ e ∈ elem, P e.2) → P (.object elem))
    (null : P .null) (undefined : P .undefined)
    (strictArray : ∀ elem, (∀ e ∈ elem, P e) → P (.strictArray elem)) (a : Amf) : P a :=
  @Amf.rec P (fun elem => ∀ e ∈ elem, P e.2) (fun elem => ∀ e ∈ elem, P e) (fun e => P e.2)
    number bool string object null undefined strictArray
    nofun (fun _ _ he helem => List.forall_mem_cons.mpr ⟨he, helem⟩)
    nofun (fun _ _ he helem => List.forall_mem_cons.mpr ⟨he, helem⟩)
    (fun _ _ h => h) a

/-- How a call can crash: NULL is dereferenced, NULL is passed for a string to the C
library, or an assertion fails. -/
inductive Crash
  | nullDeref
  | nullString
  | assertion
deriving DecidableEq, Repr

namespace Amf

/-- `a->type`. -/
def type : Amf → UInt8
  | number _ => AMF_NUMBER
  | bool _ => AMF_BOOLEAN
  | string _ => AMF_STRING
  | object _ => AMF_OBJECT
  | null => AMF_NULL
  | undefined => AMF_UNDEFINED
  | strictArray _ => AMF_STRICT_ARRAY

end Amf

/-! ### Accessors -/

def amfType : Option Amf → Except Crash UInt8
  | none => .error .nullDeref
  | some a => .ok a.type

def amfGetNumber : Option Amf → Except Crash UInt64
  | none => .error .nullDeref
  | some (.number num) => .ok num
  | some _ => .error .assertion

def amfGetString : Option Amf → Except Crash (Option CStr)
  | none => .error .nullDeref
  | some (.string str) => .ok str
  | some _ => .error .assertion

/-- `strdup` of the name, or the value of the member of that name replaced. -/
def amfObjectSet (name : CStr) (obj : Amf) : List (CStr × Amf) → List (CStr × Amf)
  | [] => [(name, obj)]
  | (key, val) :: elem =>
    if key = name then (key, obj) :: elem else (key, val) :: amfObjectSet name obj elem

def amfObjectGet (a : Option Amf) (name : CStr) : Except Crash (Option Amf) :=
  match a with
  | none => .error .nullDeref
  | some (.object elem) => .ok (elem.lookup name)
  | some _ => .error .assertion

def amfObjectGetNumber (a : Option Amf) (name : CStr) (dflt : UInt64) : Except Crash UInt64 := do
  match ← amfObjectGet a name with
  | some (.number num) => return num
  | _ => return dflt

def amfObjectGetString (a : Option Amf) (name : CStr) (dflt : Option CStr) :
    Except Crash (Option CStr) := do
  match ← amfObjectGet a name with
  | some (.string str) => return str
  | _ => return dflt

def amfInvokeNargs (inv : Invoke) : ℕ := inv.length

def amfInvokeGet (inv : Invoke) (i : ℕ) : Option Amf := inv[i]?.join

/-- What `amf_stringf` makes of `"%.*s"`: the text up to a NUL, or NULL if that is empty. -/
def amfStringf (text : List UInt8) : Option CStr :=
  match text.takeWhile (· ≠ 0) with
  | [] => none
  | str => some str

end Mayhem
