import Mayhem.Amf.Encode
import Mayhem.Lib.Heap

/-! The values of `amf.c` as blocks of memory: the functions that allocate them, change them and
give them back, with allocations that may fail. -/
namespace Mayhem

/-- `struct amf_elem`. -/
structure AmfElem where
  key : Option ℕ
  val : Option ℕ
deriving DecidableEq, Repr

def AmfElem.unset : AmfElem := ⟨none, none⟩

/-- `struct _amf`, with pointers to the blocks that belong to it. -/
inductive AmfStruct
  | number (num : UInt64)
  | bool (b : Bool)
  | string (str : Option ℕ)
  | object (nmemb : ℕ) (elem : Option ℕ)
  | null
  | undefined
  | strictArray (nmemb : ℕ) (elem : Option ℕ)
deriving DecidableEq, Repr

/-- What a block holds. -/
inductive Block
  | amf (a : AmfStruct)
  | str (s : CStr)
  | elem (l : List AmfElem)
  | invoke (nmemb curElem : ℕ) (elem : Option ℕ)
  | args (l : List (Option ℕ))
deriving DecidableEq, Repr

namespace Blocks

open BlockHeap

abbrev P := BlockHeap.Prog Block

/-! ### Reading -/

def amfAt (a : Option ℕ) : P AmfStruct := do
  match ← load a with
  | .amf a => return a
  | _ => fault .wild

def strAt (str : Option ℕ) : P CStr := do
  match ← load str with
  | .str s => return s
  | _ => fault .wild

def elemAt (elem : Option ℕ) : P (List AmfElem) := do
  match ← load elem with
  | .elem l => return l
  | _ => fault .wild

/-- `elem[i]`. -/
def slotAt (elem : Option ℕ) (i : ℕ) : P AmfElem := do
  match (← elemAt elem)[i]? with
  | some x => return x
  | none => fault .wild

def argsAt (elem : Option ℕ) : P (List (Option ℕ)) := do
  match ← load elem with
  | .args l => return l
  | _ => fault .wild

def argAt (elem : Option ℕ) (i : ℕ) : P (Option ℕ) := do
  match (← argsAt elem)[i]? with
  | some a => return a
  | none => fault .wild

def invokeAt (inv : Option ℕ) : P (ℕ × ℕ × Option ℕ) := do
  match ← load inv with
  | .invoke nmemb curElem elem => return (nmemb, curElem, elem)
  | _ => fault .wild

/-! ### Values -/

/-- The loop of `amf_free` over the members. -/
def freeSlots (amfFree : Option ℕ → P Unit) (elem : Option ℕ) (nmemb : ℕ) : P Unit :=
  loop (fun i => do
    let x ← slotAt elem i
    free x.key
    amfFree x.val) 0 nmemb

/-- `amf_free` on trees of at most `depth` levels. -/
def amfFreeIn : ℕ → Option ℕ → P Unit
  | _, none => return ()
  | 0, some _ => fault .abort
  | depth + 1, some a => do
    match ← amfAt (some a) with
    | .string str => free str
    | .object nmemb elem | .strictArray nmemb elem =>
      freeSlots (amfFreeIn depth) elem nmemb
      free elem
    | _ => pure ()
    free (some a)

/-- `amf_free`. A tree has no more levels than there are blocks. -/
def amfFree (a : Option ℕ) : P Unit := do
  amfFreeIn (← size) a

/-- `amf_alloc`, with the members of the union zero. -/
def amfAlloc (zero : AmfStruct) : P (Option ℕ) := alloc (.amf zero)

/-- `amf_alloc`, and what is put into the union. -/
def amfScalar (zero a : AmfStruct) : P (Option ℕ) := do
  match ← amfAlloc zero with
  | none => return none
  | some p =>
    store (some p) (.amf a)
    return some p

def amfNumber (num : UInt64) : P (Option ℕ) := amfScalar (.number 0) (.number num)

def amfBool (val : Bool) : P (Option ℕ) := amfScalar (.bool false) (.bool val)

def amfNull : P (Option ℕ) := amfAlloc .null

def amfUndefined : P (Option ℕ) := amfAlloc .undefined

def amfObject : P (Option ℕ) := amfAlloc (.object 0 none)

def amfString (str : Option CStr) : P (Option ℕ) := do
  match ← amfAlloc (.string none) with
  | none => return none
  | some a =>
    match str with
    | none => return some a
    | some str =>
      match ← alloc (.str str) with
      | none =>
        amfFree (some a)
        return none
      | some q =>
        store (some a) (.amf (.string (some q)))
        return some a

/-- The buffer is lost if there is no memory for the value. -/
def amfStringf (text : List UInt8) : P (Option ℕ) := do
  match Mayhem.amfStringf text with
  | none => amfString none
  | some str =>
    match ← alloc (.str str) with
    | none => return none
    | some buf =>
      match ← amfAlloc (.string none) with
      | none => return none
      | some a =>
        store (some a) (.amf (.string (some buf)))
        return some a

/-- The count is set before the elements are there. -/
def amfArray (nmemb : ℕ) : P (Option ℕ) := do
  match ← amfAlloc (.strictArray 0 none) with
  | none => return none
  | some a =>
    store (some a) (.amf (.strictArray nmemb none))
    match ← alloc (.elem (List.replicate nmemb .unset)) with
    | none =>
      amfFree (some a)
      return none
    | some elem =>
      store (some a) (.amf (.strictArray nmemb (some elem)))
      return some a

def amfArraySet (a : Option ℕ) (idx : ℕ) (val : Option ℕ) : P Bool := do
  match ← amfAt a with
  | .strictArray nmemb elem =>
    if nmemb ≤ idx then fault .abort
    else
      let x ← slotAt elem idx
      store elem (.elem ((← elemAt elem).set idx { x with val := val }))
      return true
  | _ => fault .abort

/-! ### Members of objects -/

def objectIndex (elem : Option ℕ) (name : CStr) : ℕ → ℕ → P (Option ℕ)
  | _, 0 => return none
  | i, n + 1 => do
    let x ← slotAt elem i
    if name = (← strAt x.key) then return some i else objectIndex elem name (i + 1) n

/-- What `realloc` copies. -/
def oldElem : Option ℕ → P (List AmfElem)
  | none => return []
  | some elem => elemAt (some elem)

/-- The branch for a name that is new. -/
def addMember (a : Option ℕ) (nmemb : ℕ) (elem : Option ℕ) (name : CStr) (obj : ℕ) : P Bool := do
  match ← alloc (.str name) with
  | none => return false
  | some n =>
    let l ← oldElem elem
    match ← realloc elem (.elem (l ++ [.unset])) with
    | none =>
      free (some n)
      return false
    | some new =>
      store a (.amf (.object nmemb (some new)))
      store (some new) (.elem (l ++ [⟨some n, some obj⟩]))
      store a (.amf (.object (nmemb + 1) (some new)))
      return true

/-- The branch for a name that is there. -/
def replaceMember (elem : Option ℕ) (idx obj : ℕ) : P Bool := do
  let x ← slotAt elem idx
  amfFree x.val
  let l ← elemAt elem
  store elem (.elem (l.set idx { x with val := some obj }))
  return true

def amfObjectSet (a : Option ℕ) (name : CStr) (obj : Option ℕ) : P Bool := do
  match ← amfAt a with
  | .object nmemb elem =>
    match obj with
    | none => return false
    | some obj =>
      match ← objectIndex elem name 0 nmemb with
      | none => addMember a nmemb elem name obj
      | some idx => replaceMember elem idx obj
  | _ => fault .abort

/-! ### Invokes -/

def amfInvokeNew (nmemb : ℕ) : P (Option ℕ) := do
  match ← alloc (.invoke 0 0 none) with
  | none => return none
  | some inv =>
    store (some inv) (.invoke nmemb 0 none)
    if nmemb = 0 then return some inv
    else
      match ← alloc (.args (List.replicate nmemb none)) with
      | none =>
        free (some inv)
        return none
      | some elem =>
        store (some inv) (.invoke nmemb 0 (some elem))
        return some inv

def amfInvokeSet (inv : Option ℕ) (i : ℕ) (obj : Option ℕ) : P Bool := do
  let (nmemb, _, elem) ← invokeAt inv
  if nmemb ≤ i then fault .abort
  else
    match obj with
    | none => return false
    | some obj =>
      amfFree (← argAt elem i)
      store elem (.args ((← argsAt elem).set i (some obj)))
      return true

/-- What `realloc` copies. -/
def oldArgs : Option ℕ → P (List (Option ℕ))
  | none => return []
  | some elem => argsAt (some elem)

def amfInvokeAppend (inv obj : Option ℕ) : P Bool := do
  let (nmemb, curElem, elem) ← invokeAt inv
  if nmemb ≤ curElem then
    let l ← oldArgs elem
    match ← realloc elem (.args (l ++ [none])) with
    | none => return false
    | some new =>
      store inv (.invoke (nmemb + 1) (curElem + 1) (some new))
      amfInvokeSet inv curElem obj
  else
    store inv (.invoke nmemb (curElem + 1) elem)
    amfInvokeSet inv curElem obj

def amfInvokeFree : Option ℕ → P Unit
  | none => return ()
  | some inv => do
    let (nmemb, _, elem) ← invokeAt (some inv)
    loop (fun i => do amfFree (← argAt elem i)) 0 nmemb
    free elem
    free (some inv)

/-! ### Encoding -/

/-- A string that may be NULL. -/
def textAt : Option ℕ → P (Option CStr)
  | none => return none
  | some str => do return some (← strAt (some str))

/-- What is read of the members from the `i`-th on. -/
def readSlots {β : Type} (read : AmfElem → P β) (elem : Option ℕ) : ℕ → ℕ → P (List β)
  | _, 0 => return []
  | i, n + 1 => do
    let r ← read (← slotAt elem i)
    let rs ← readSlots read elem (i + 1) n
    return r :: rs

/-- `amf_size` of trees of at most `depth` levels. -/
def amfSizeIn : ℕ → Option ℕ → P ℕ
  | 0, _ => fault .abort
  | depth + 1, a => do
    match ← amfAt a with
    | .number _ => return 9
    | .bool _ => return 2
    | .string str => return 3 + amfStrlen (← textAt str)
    | .object nmemb elem =>
      let ns ← readSlots (fun x => do
        let key ← textAt x.key
        let n ← amfSizeIn depth x.val
        return 2 + amfStrlen key + n) elem 0 nmemb
      return 4 + ns.sum
    | .null | .undefined => return 1
    | .strictArray _ _ => fault .abort

/-- What is stored of a string. -/
def strToBufIn (str : Option CStr) : P (List UInt8) :=
  match strToBuf (str.getD []) with
  | none => fault .wild
  | some bs => return bs

/-- `amf_to_buf` of trees of at most `depth` levels: the bytes it stores. -/
def amfToBufIn : ℕ → Option ℕ → P (List UInt8)
  | 0, _ => fault .abort
  | depth + 1, a => do
    match ← amfAt a with
    | .number num => return AMF_NUMBER :: doubleToBe64 num
    | .bool b => return [AMF_BOOLEAN, if b then 1 else 0]
    | .string str =>
      let str ← textAt str
      if 0xffff < intLen (str.getD []) then fault .abort
      else return AMF_STRING :: (← strToBufIn str)
    | .object nmemb elem =>
      let bs ← readSlots (fun x => do
        let k ← strToBufIn (← textAt x.key)
        let bs ← amfToBufIn depth x.val
        return k ++ bs) elem 0 nmemb
      return AMF_OBJECT :: (bs.flatten ++ [0, 0, AMF_OBJECT_END])
    | .null => return [AMF_NULL]
    | .undefined => return [AMF_UNDEFINED]
    | .strictArray _ _ => fault .abort

/-- What is read of an argument, of which NULL has a value of its own. -/
def readArg {β : Type} (unset : β) (read : Option ℕ → P β) : Option ℕ → P β
  | none => return unset
  | some a => read (some a)

/-- What is read of the arguments from the `i`-th on. -/
def readArgs {β : Type} (unset : β) (read : Option ℕ → P β) (elem : Option ℕ) :
    ℕ → ℕ → P (List β)
  | _, 0 => return []
  | i, n + 1 => do
    let r ← readArg unset read (← argAt elem i)
    let rs ← readArgs unset read elem (i + 1) n
    return r :: rs

def amfInvokeBufSize (inv : Option ℕ) : P ℕ := do
  let (nmemb, _, elem) ← invokeAt inv
  let ns ← readArgs 1 (amfSizeIn (← size)) elem 0 nmemb
  return ns.sum

def amfInvokeToBuf (inv : Option ℕ) : P (List UInt8) := do
  let (nmemb, _, elem) ← invokeAt inv
  let bs ← readArgs [AMF_NULL] (amfToBufIn (← size)) elem 0 nmemb
  return bs.flatten

end Blocks
end Mayhem
