import Mayhem.Amf.Encode

/-! `amf_invoke_from_buf`. A pointer is an offset into memory and `fin` is the end of the
buffer; `parse_element` returns the end of what it took, of which `taken` is the distance
from its start. `amf3_parse` is a parameter: what it makes of the bytes it is given and how
many of them it takes. -/
namespace Mayhem

inductive Outcome (α : Type)
  | abort
  | null
  | val (a : α)

structure Parse (α : Type) where
  /-- One past the last byte read. -/
  reach : ℕ := 0
  /-- Start and end of each call of `parse_element` that returned a value. -/
  calls : List (ℕ × ℕ) := []
  out : Outcome α

namespace Parse

variable {α β : Type}

def null : Parse α := { out := .null }

def abort : Parse α := { out := .abort }

def bind (p : Parse α) (f : α → Parse β) : Parse β :=
  match p.out with
  | .val a => ⟨max p.reach (f a).reach, p.calls ++ (f a).calls, (f a).out⟩
  | .null => ⟨p.reach, p.calls, .null⟩
  | .abort => ⟨p.reach, p.calls, .abort⟩

instance : Monad Parse where
  pure a := { out := .val a }
  bind := bind

def touch (p n : ℕ) : Parse Unit := { reach := p + n, out := .val () }

/-- What is done behind a run that returns NULL. -/
def onNull (p : Parse α) (q : Parse Unit) : Parse α :=
  match p.out with
  | .null => ⟨max p.reach q.reach, p.calls ++ q.calls, .null⟩
  | .val _ | .abort => p

end Parse

inductive Marker
  | number
  | boolean
  | string
  | avmplus
  | ecmaArray
  | object
  | strictArray
  | null
  | undefined
  | unhandled
deriving DecidableEq, Repr

def marker (type : UInt8) : Marker :=
  if type = AMF_NUMBER then .number
  else if type = AMF_BOOLEAN then .boolean
  else if type = AMF_STRING then .string
  else if type = AMF_AVMPLUS then .avmplus
  else if type = AMF_ECMA_ARRAY then .ecmaArray
  else if type = AMF_OBJECT then .object
  else if type = AMF_STRICT_ARRAY then .strictArray
  else if type = AMF_NULL then .null
  else if type = AMF_UNDEFINED then .undefined
  else .unhandled

def strLen (m : Memory) (p : ℕ) : ℕ := (m p).toNat <<< 8 ||| (m (p + 1)).toNat

open Parse

/-- The loop over the elements of a strict array. `ptr` stays where it is, so every round
parses the same bytes. -/
def parseArray (element : Parse (Amf × ℕ)) : ℕ → Parse (List Amf)
  | 0 => pure []
  | i + 1 => do
    let r ← element
    let elem ← parseArray element i
    return r.1 :: elem

section Buffer

variable (amf3 : List UInt8 → Option Amf × ℕ) (m : Memory) (fin : ℕ)

/-- The switch of `parse_element`, with the calls of `parse_element` and the loop over the
members of an object. -/
def parseBody (element : ℕ → Parse (Amf × ℕ))
    (members : ℕ → List (CStr × Amf) → Parse (List (CStr × Amf) × ℕ)) (ptr : ℕ) :
    Marker → Parse (Amf × ℕ)
  | .number =>
    if fin < ptr + 8 then null
    else do
      touch ptr 8
      return (.number (be64ToDouble m ptr), ptr + 8)
  | .boolean =>
    if fin ≤ ptr then null
    else do
      touch ptr 1
      return (.bool (m ptr ≠ 0), ptr + 1)
  | .string =>
    if fin ≤ ptr + 2 then null
    else do
      touch ptr 2
      let slen := strLen m ptr
      if fin < ptr + 2 + slen then null
      else
        touch (ptr + 2) slen
        return (.string (amfStringf (m.bytes (ptr + 2) slen)), ptr + 2 + slen)
  | .avmplus => do
    touch ptr (fin - ptr)
    match amf3 (m.bytes ptr (fin - ptr)) with
    | (none, _) => null
    | (some a, tmp) => return (a, ptr + tmp)
  | .ecmaArray =>
    if fin < ptr + 4 then null
    else do
      let r ← members (ptr + 4) []
      return (.object r.1, r.2)
  | .object => do
    let r ← members ptr []
    return (.object r.1, r.2)
  | .strictArray =>
    if fin < ptr + 4 then null
    else do
      touch ptr 4
      let elem ← parseArray (element (ptr + 4)) (decodeInt32 m ptr).toNat
      return (.strictArray elem, ptr + 4)
  | .null => return (.null, ptr)
  | .undefined => return (.undefined, ptr)
  | .unhandled => do
    -- the rest of the buffer is dumped and skipped
    touch ptr (fin - ptr)
    return (.undefined, fin)

def parseMember (element : ℕ → Parse (Amf × ℕ))
    (members : ℕ → List (CStr × Amf) → Parse (List (CStr × Amf) × ℕ)) (name : CStr)
    (obj : List (CStr × Amf)) (ptr : ℕ) : Parse (List (CStr × Amf) × ℕ) := do
  touch ptr 1
  if m ptr = AMF_OBJECT_END then return (obj, ptr + 1)
  else
    let r ← element ptr
    let obj := amfObjectSet name r.1 obj
    touch r.2 1
    if m r.2 = AMF_OBJECT_END then return (obj, r.2 + 1) else members r.2 obj

mutual

/-- `fuel` is at least the size of the buffer, which every call shrinks. -/
def parseElement : ℕ → ℕ → Parse (Amf × ℕ)
  | 0, _ => abort
  | fuel + 1, buf =>
    if fin ≤ buf then abort
    else do
      touch buf 1
      let r ← parseBody amf3 m fin (parseElement fuel) (parseMembers fuel) (buf + 1) (marker (m buf))
      { calls := [(buf, r.2)], out := .val r }

def parseMembers : ℕ → ℕ → List (CStr × Amf) → Parse (List (CStr × Amf) × ℕ)
  | 0, _, _ => null
  | fuel + 1, ptr, obj =>
    if fin ≤ ptr + 2 then null
    else do
      touch ptr 2
      let slen := strLen m ptr
      if fin < ptr + 2 + slen then null
      else
        touch (ptr + 2) slen
        parseMember m (parseElement fuel) (parseMembers fuel)
          ((m.bytes (ptr + 2) slen).takeWhile (· ≠ 0)) obj (ptr + 2 + slen)

end

/-- The loop of `amf_invoke_from_buf`, over a buffer that ends at `fin`. -/
def parseArgs : ℕ → ℕ → Invoke → Parse Invoke
  | 0, _, inv => return inv
  | fuel + 1, buf, inv =>
    if fin ≤ buf then return inv
    else do
      -- `hex_dump` is given all of `sz`, not what is left behind `buf`
      let r ← (parseElement amf3 m fin fin buf).onNull (touch buf fin)
      parseArgs fuel r.2 (inv ++ [some r.1])

def amfInvokeFromBuf : Parse Invoke := parseArgs amf3 m fin fin 0 []

end Buffer

end Mayhem
