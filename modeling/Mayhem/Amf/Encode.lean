import Mayhem.Amf.Value
import Mayhem.Lib.Int32
import Mayhem.Wire

/-! `amf_invoke_to_buf` and the size it is called with. An encoder returns the bytes it
stores; `none` is a failed assertion, `abort()`, or a store outside of the buffer. -/
namespace Mayhem

def amfStrlen (str : Option CStr) : ℕ := (str.getD []).length

/-- A big-endian double, by its pattern. -/
def doubleToBe64 (fp : UInt64) : List UInt8 :=
  encodeInt32 (fp >>> 32).toUInt32 ++ encodeInt32 fp.toUInt32

def be64ToDouble (m : Memory) (p : ℕ) : UInt64 :=
  (decodeInt32 m p).toUInt64 <<< 32 ||| (decodeInt32 m (p + 4)).toUInt64

mutual

def amfSize : Amf → Option ℕ
  | .number _ => some 9
  | .bool _ => some 2
  | .string str => some (3 + amfStrlen str)
  | .object elem => do
    let n ← membersSize elem
    return 4 + n
  | .null | .undefined => some 1
  | .strictArray _ => none

def membersSize : List (CStr × Amf) → Option ℕ
  | [] => some 0
  | (key, val) :: elem => do
    let n ← amfSize val
    let rest ← membersSize elem
    return 2 + key.length + n + rest

end

/-- The 16-bit length of a string and the string. -/
def encodeStr (str : CStr) : List UInt8 :=
  [UInt8.ofNat (str.length >>> 8 &&& 0xff), UInt8.ofNat (str.length &&& 0xff)] ++ str

/-- `slen = amf_strlen(str)`, an `int`. -/
def intLen (str : CStr) : ℤ := toInt32 str.length

/-- What is stored of a string. With a negative length the `memcpy` leaves the buffer, and `ptr` with
one that is too large for `2 + slen`. -/
def strToBuf (str : CStr) : Option (List UInt8) :=
  if 0 ≤ intLen str ∧ intLen str < 2 ^ 31 - 2 then
    some (encodeStr (str.take (intLen str).toNat))
  else none

theorem intLen_short {str : CStr} (h : str.length < 2 ^ 31) : intLen str = str.length :=
  toInt32_of_lt h

theorem intLen_bounds (str : CStr) :
    intLen str < 2147483648 ∧ -2147483648 ≤ intLen str ∧ intLen str ≤ str.length :=
  toInt32_bounds str.length

theorem strToBuf_short {str : CStr} (h : str.length < 2 ^ 31 - 2) :
    strToBuf str = some (encodeStr str) := by
  rw [strToBuf, intLen_short (by omega), if_pos (by omega), Int.toNat_natCast, List.take_length]

mutual

def amfToBuf : Amf → Option (List UInt8)
  | .number num => some (AMF_NUMBER :: doubleToBe64 num)
  | .bool b => some [AMF_BOOLEAN, if b then 1 else 0]
  | .string str =>
    if 0xffff < intLen (str.getD []) then none
    else do
      let bs ← strToBuf (str.getD [])
      return AMF_STRING :: bs
  | .object elem => do
    let bs ← membersToBuf elem
    return AMF_OBJECT :: (bs ++ [0, 0, AMF_OBJECT_END])
  | .null => some [AMF_NULL]
  | .undefined => some [AMF_UNDEFINED]
  | .strictArray _ => none

def membersToBuf : List (CStr × Amf) → Option (List UInt8)
  | [] => some []
  | (key, val) :: elem => do
    let k ← strToBuf key
    let bs ← amfToBuf val
    let rest ← membersToBuf elem
    return k ++ (bs ++ rest)

end

theorem amfToBuf_string {str : Option CStr} (h : amfStrlen str ≤ 0xffff) :
    amfToBuf (.string str) = some (AMF_STRING :: encodeStr (str.getD [])) := by
  rw [amfStrlen] at h
  rw [amfToBuf, intLen_short (by omega), if_neg (by omega), strToBuf_short (by omega)]
  rfl

def amfInvokeBufSize : Invoke → Option ℕ
  | [] => some 0
  | none :: inv => do
    let rest ← amfInvokeBufSize inv
    return 1 + rest
  | some a :: inv => do
    let n ← amfSize a
    let rest ← amfInvokeBufSize inv
    return n + rest

def amfInvokeToBuf : Invoke → Option (List UInt8)
  | [] => some []
  | none :: inv => do
    let rest ← amfInvokeToBuf inv
    return AMF_NULL :: rest
  | some a :: inv => do
    let bs ← amfToBuf a
    let rest ← amfInvokeToBuf inv
    return bs ++ rest

end Mayhem
