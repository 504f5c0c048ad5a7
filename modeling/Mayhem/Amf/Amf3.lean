import Mathlib.Data.Int.Notation
import Mathlib.Data.Nat.Bitwise
import Mayhem.Amf.Value
import Mayhem.Lib.Logged

/-! `amf3.c`. Pointers are distances from the start of the buffer of `amf3_parse`, and may leave
it; `fin` is the end of the buffer. A 29-bit number fits the `int32_t` it is put together in. -/
namespace Mayhem.Amf3

def AMF3_UNDEFINED : UInt8 := 0
def AMF3_NULL : UInt8 := 1
def AMF3_FALSE : UInt8 := 2
def AMF3_TRUE : UInt8 := 3
def AMF3_INTEGER : UInt8 := 4
def AMF3_DOUBLE : UInt8 := 5
def AMF3_STRING : UInt8 := 6
def AMF3_XML_DOC : UInt8 := 7
def AMF3_OBJECT : UInt8 := 10
def AMF3_XML : UInt8 := 11

/-- The cases of the switch in `amf3_prop`. -/
inductive Kind
  /-- A value without any bytes of its own. -/
  | plain (a : Amf)
  | integer
  | double
  | string
  | unhandled
deriving Repr

def kind (type : UInt8) : Kind :=
  if type = AMF3_UNDEFINED then .plain .undefined
  else if type = AMF3_NULL then .plain .null
  else if type = AMF3_FALSE then .plain (.bool false)
  else if type = AMF3_TRUE then .plain (.bool true)
  else if type = AMF3_INTEGER then .integer
  else if type = AMF3_DOUBLE then .double
  else if type = AMF3_STRING ∨ type = AMF3_XML_DOC ∨ type = AMF3_XML then .string
  else .unhandled

/-- The pattern of the double that is `n`, for `n` below 2^53. -/
def doubleOfNat (n : ℕ) : UInt64 :=
  if n = 0 then 0
  else UInt64.ofNat ((1023 + n.log2) * 2 ^ 52 + (n * 2 ^ (52 - n.log2) - 2 ^ 52))

inductive Event
  /-- A byte is read. -/
  | read (p : ℤ)
  /-- `ptr` is moved. -/
  | ptr (p : ℤ)
  /-- `amf3_prop` is given so many bytes and returns a length. -/
  | prop (given len : ℤ)
deriving DecidableEq, Repr

abbrev Scan := Logged Event

/-- What `amf3_string` returns and stores: the bytes taken, and where the text lies, NULL for
a reference. -/
structure Text where
  len : ℤ
  str : Option ℤ
  slen : ℕ
deriving Repr

/-- What `amf3_prop` returns and stores: the name and the value, NULL at the end of the list. -/
structure Property where
  len : ℤ
  entry : Option (CStr × Amf)
deriving Repr

open Logged

section Buffer

variable (m : ℤ → UInt8) (fin : ℤ)

def readByte (p : ℤ) : Scan UInt8 := do
  tell (.read p)
  return m p

def readBytes : ℤ → ℕ → Scan (List UInt8)
  | _, 0 => return []
  | p, n + 1 => do
    let b ← readByte m p
    let bs ← readBytes (p + 1) n
    return b :: bs

/-- The loop of `amf3_integer`, with `i` rounds to go: the shift of the last byte, `ptr` and
`*val`, or nothing if the buffer ends. -/
def integerLoop : ℕ → ℤ → ℕ → Scan (Option (ℕ × ℤ × ℕ))
  | 0, ptr, val => return some (8, ptr, val)
  | i + 1, ptr, val =>
    if fin ≤ ptr then return none
    else do
      let b ← readByte m ptr
      if b &&& 0x80 ≠ 0 then integerLoop i (ptr + 1) (val <<< 7 ||| (b &&& 0x7f).toNat)
      else return some (7, ptr, val)

/-- The bytes taken and `*val`. -/
def amf3Integer (buf : ℤ) : Scan (ℤ × ℕ) := do
  match ← integerLoop m fin 3 buf 0 with
  | none => return (0, 0)
  | some (shift, ptr, val) =>
    if fin ≤ ptr then return (0, val)
    else
      let b ← readByte m ptr
      return (ptr + 1 - buf, val <<< shift ||| b.toNat)

def amf3String (buf : ℤ) : Scan Text := do
  let i ← amf3Integer m fin buf
  if i.1 = 0 then return ⟨0, none, 0⟩
  else
    let ptr := buf + i.1
    if i.2 &&& 1 = 0 then return ⟨i.1, none, 0⟩
    else
      let slen := i.2 >>> 1
      if fin < ptr + slen then return ⟨0, none, 0⟩
      else return ⟨ptr + slen - buf, some ptr, slen⟩

def readText (t : Text) : Scan (List UInt8) :=
  match t.str with
  | none => return []
  | some p => readBytes m p t.slen

/-- The switch of `amf3_prop`: `ret` and `*amf`. The string is read from `buf`, where the name
is. -/
def propValue (buf ptr ret : ℤ) : Kind → Scan (ℤ × Option Amf)
  | .plain a => return (ret, some a)
  | .integer => do
    let i ← amf3Integer m fin ptr
    return (i.1, if i.1 = 0 then none else some (.number (doubleOfNat i.2)))
  | .double => return (ret, none)
  | .string => do
    let v ← amf3String m fin buf
    if v.len = 0 then return (0, none)
    else
      let text ← readText m v
      return (v.len, some (.string (some (text.takeWhile (· ≠ 0) ++ [0x0a]))))
  | .unhandled => do
    -- the property is dumped
    let _ ← readBytes m buf (fin - buf).toNat
    return (ptr - fin, some .undefined)

def amf3Prop (buf : ℤ) : Scan Property := do
  let n ← amf3String m fin buf
  if n.len = 0 then return ⟨0, none⟩
  else if n.slen = 0 then return ⟨n.len, none⟩
  else
    let ptr := buf + n.len
    if fin ≤ ptr then return ⟨0, none⟩
    else
      let type ← readByte m ptr
      let v ← propValue m fin buf (ptr + 1) n.len (kind type)
      match v.2 with
      | none => return ⟨0, none⟩
      | some a =>
        let ptr := ptr + 1 + v.1
        tell (.ptr ptr)
        let name ← readText m n
        return ⟨ptr - buf, some (name.takeWhile (· ≠ 0), a)⟩

/-- The loop over the properties: the value and `ptr` at its end, or nothing if it goes on for more
than `fuel` rounds. -/
def propLoop : ℕ → ℤ → List (CStr × Amf) → Scan (Option (Option Amf × ℤ))
  | fuel, ptr, obj =>
    if fin ≤ ptr then return some (some (.object obj), ptr)
    else
      match fuel with
      | 0 => return none
      | fuel + 1 => do
        let r ← amf3Prop m fin ptr
        tell (.prop (fin - ptr) r.len)
        if r.len = 0 then return some (none, ptr)
        else
          tell (.ptr (ptr + r.len))
          match r.entry with
          | none => return some (some (.object obj), ptr + r.len)
          | some (n, elem) => propLoop fuel (ptr + r.len) (amfObjectSet n elem obj)

/-- The returned value and `*taken`. -/
def amf3Parse (fuel : ℕ) : Scan (Option (Option Amf × ℤ)) :=
  if fin ≤ 0 then return some (none, 0)
  else do
    let tag ← readByte m 0
    if tag ≠ AMF3_OBJECT then return some (some .null, fin)
    else
      let i ← amf3Integer m fin 1
      if i.1 = 0 then return some (none, 1)
      else
        let ptr := 1 + i.1
        tell (.ptr ptr)
        let ref := i.2
        if ref &&& 1 = 0 then return some (some .undefined, ptr)
        else
          let ref := ref >>> 1
          if ref &&& 1 = 0 then return some (some .undefined, ptr)
          else
            let ref := ref >>> 1
            let externalizable := ref &&& 1
            let ref := ref >>> 1
            let dynamic := ref &&& 1
            let num := ref >>> 1
            let s ← amf3String m fin ptr
            if s.len = 0 then return some (none, ptr)
            else
              let ptr := ptr + s.len
              tell (.ptr ptr)
              if num ≠ 0 ∨ externalizable ≠ 0 ∨ dynamic = 0 then
                let _ ← readText m s
                return some (none, ptr)
              else propLoop m fin fuel ptr []

end Buffer

end Mayhem.Amf3
