import Mayhem.Amf.Owned.Parse
import Mayhem.Naiad.Safety

/-! The messages of a session that are parsed, one after the other: what the callbacks are given,
and what is left of it in memory. -/
namespace Mayhem

open BlockHeap
open scoped Pointwise

/-- `notify` of `mayhem.c` with what it has parsed: whether that is metadata. -/
def Naiad.notify (inv : Invoke) : Except Crash Bool := do
  if amfInvokeNargs inv < 1 then return false
  else
    let a := amfInvokeGet inv 0
    if a.isNone then return false
    else if (← amfType a) ≠ AMF_STRING then return false
    else streq (cstr "onMetaData") (← amfGetString a)

namespace Blocks

/-! ### Looking at an invoke -/

def amfInvokeNargs (inv : Option ℕ) : P ℕ := do
  let (nmemb, _, _) ← invokeAt inv
  return nmemb

def amfInvokeGet (inv : Option ℕ) (i : ℕ) : P (Option ℕ) := do
  let (nmemb, _, elem) ← invokeAt inv
  if nmemb ≤ i then return none else argAt elem i

/-- `a->type`. -/
def structType : AmfStruct → UInt8
  | .number _ => AMF_NUMBER
  | .bool _ => AMF_BOOLEAN
  | .string _ => AMF_STRING
  | .object _ _ => AMF_OBJECT
  | .null => AMF_NULL
  | .undefined => AMF_UNDEFINED
  | .strictArray _ _ => AMF_STRICT_ARRAY

def amfType (a : Option ℕ) : P UInt8 := do
  return structType (← amfAt a)

def amfGetString (a : Option ℕ) : P (Option ℕ) := do
  match ← amfAt a with
  | .string str => return str
  | _ => fault .abort

/-- `!strcmp(a, b)` of a string that may be NULL. -/
def streq (a : Option ℕ) (b : CStr) : P Bool := do
  return b = (← strAt a)

def notifyParsed (inv : ℕ) : P Bool := do
  if (← amfInvokeNargs (some inv)) < 1 then return false
  else
    match ← amfInvokeGet (some inv) 0 with
    | none => return false
    | some a =>
      if (← amfType (some a)) ≠ AMF_STRING then return false
      else streq (← amfGetString (some a)) (Naiad.cstr "onMetaData")

section Looking

variable {grants : ℕ → Bool} {E : Fault → Prop} {β : Type} {inv : Invoke} {curElem a i : ℕ}

theorem triple_amfInvokeNargs : Triple grants (isInvoke inv curElem a) (amfInvokeNargs (some a))
    (fun r => given (r = Mayhem.amfInvokeNargs inv) (isInvoke inv curElem a)) E := by
  refine triple_lookInvoke fun q l hl => ?_
  exact triple_pure (subset_given rfl (subset_isInvoke hl))

/-- The argument, and what is put back beside it. -/
def lentArg (inv : Invoke) (curElem a i : ℕ) (v : Option ℕ) : Own :=
  ⋃ F, given (argOf (Mayhem.amfInvokeGet inv i) v + F ⊆ isInvoke inv curElem a)
    (argOf (Mayhem.amfInvokeGet inv i) v + F)

theorem subset_lentArg {v : Option ℕ} {F : Own}
    (h : argOf (Mayhem.amfInvokeGet inv i) v + F ⊆ isInvoke inv curElem a) :
    argOf (Mayhem.amfInvokeGet inv i) v + F ⊆ lentArg inv curElem a i v :=
  Set.subset_iUnion_of_subset _ (subset_given h subset_rfl)

theorem amfInvokeGet_of_le (h : inv.length ≤ i) : Mayhem.amfInvokeGet inv i = none := by
  rw [Mayhem.amfInvokeGet, List.getElem?_eq_none h]
  rfl

theorem amfInvokeGet_append {A B : Invoke} {arg : Option Amf} :
    Mayhem.amfInvokeGet (A ++ arg :: B) A.length = arg := by
  rw [Mayhem.amfInvokeGet, List.getElem?_behind rfl]
  rfl

/-- An argument that is there is lent. -/
theorem triple_lend {l : List (Option ℕ)} {q : Option ℕ} (hl : l.length = inv.length)
    (hi : i < inv.length) :
    Triple grants (cell a (.invoke inv.length curElem q) + (isArgs l q + each (inv.map argOf) l))
      (argAt q i) (lentArg inv curElem a i) E := by
  obtain ⟨A, arg, B, rfl, rfl⟩ : ∃ A arg B, inv = A ++ arg :: B ∧ i = A.length := by
    refine ⟨inv.take i, inv[i], inv.drop (i + 1), ?_, by rw [List.length_take_of_le hi.le]⟩
    rw [List.getElem_cons_drop, List.take_append_drop]
  have hlen : (A.map argOf).length = A.length := List.length_map _
  have hmap : (A ++ arg :: B).map argOf = A.map argOf ++ argOf arg :: B.map argOf := by
    rw [List.map_append, List.map_cons]
  rw [hmap, each_split]
  simp only [Set.add_iUnion, add_given, triple_iUnion, triple_given, hlen]
  rintro l₁ v l₂ ⟨rfl, hl₁⟩
  rw [isArgs_cons (by simp)]
  simp only [Set.iUnion_add, Set.add_iUnion, given_add, add_given, triple_iUnion, triple_given]
  rintro q rfl
  have hv : (l₁ ++ v :: l₂)[A.length]? = some v := List.getElem?_behind hl₁.symm
  rw [add_left_comm]
  refine ((triple_argAt hv).frame _).post fun r => ?_
  rw [given_add]
  refine Set.iUnion_subset ?_
  rintro rfl
  -- the argument to the front, the rest behind it
  have hcells : ∀ A B C D : Own, A + (B + (C + D)) = C + (A + (B + D)) := by
    intro A B C D
    ac_rfl
  have hback : cell a (.invoke (A ++ arg :: B).length curElem (some q)) +
      (isArgs (l₁ ++ r :: l₂) (some q) + each ((A ++ arg :: B).map argOf) (l₁ ++ r :: l₂)) ⊆
        isInvoke (A ++ arg :: B) curElem a := subset_isInvoke hl
  rw [hmap, each_append (hl₁.trans hlen.symm), each] at hback
  have hlent : ∀ F : Own, argOf (Mayhem.amfInvokeGet (A ++ arg :: B) A.length) r + F ⊆
      isInvoke (A ++ arg :: B) curElem a →
      argOf (Mayhem.amfInvokeGet (A ++ arg :: B) A.length) r + F ⊆
        lentArg (A ++ arg :: B) curElem a A.length r := fun _ => subset_lentArg
  rw [amfInvokeGet_append] at hlent
  rw [hcells]
  refine hlent _ (subset_trans (subset_of_eq ?_) hback)
  dsimp only [isArgs]
  ac_rfl

theorem triple_amfInvokeGet : Triple grants (isInvoke inv curElem a) (amfInvokeGet (some a) i)
    (lentArg inv curElem a i) E := by
  refine triple_lookInvoke fun q l hl => ?_
  dsimp only
  by_cases hi : inv.length ≤ i
  · rw [if_pos hi]
    have harg : argOf (Mayhem.amfInvokeGet inv i) none = (0 : Own) := by
      rw [amfInvokeGet_of_le hi]
      rfl
    have hlent := subset_lentArg (v := none) (F := isInvoke inv curElem a)
      (by rw [harg, zero_add])
    rw [harg, zero_add] at hlent
    exact triple_pure (subset_trans (subset_isInvoke hl) hlent)
  · rw [if_neg hi]
    exact triple_lend hl (Nat.not_le.mp hi)

/-- A program that looks at one of the arguments. -/
theorem triple_lookAt {c : Option ℕ → P β} {Q : β → Prop}
    (hc : ∀ v, Triple grants (argOf (Mayhem.amfInvokeGet inv i) v) (c v)
      (fun r => given (Q r) (argOf (Mayhem.amfInvokeGet inv i) v)) E) :
    Triple grants (isInvoke inv curElem a) (amfInvokeGet (some a) i >>= c)
      (fun r => given (Q r) (isInvoke inv curElem a)) E := by
  refine triple_amfInvokeGet.bind fun v => ?_
  simp only [lentArg, triple_iUnion, triple_given]
  intro F hback
  refine ((hc v).frame F).post fun r => ?_
  rw [given_add]
  exact Set.iUnion_mono fun _ => hback

theorem triple_structType {x : AmfStruct} {v : ℕ} {F Q : Own} (h : cell v (.amf x) + F ⊆ Q) :
    Triple grants (cell v (.amf x) + F) (amfType (some v))
      (fun r => given (r = structType x) Q) E := by
  refine triple_amfAt.knownStep ?_
  exact triple_pure (subset_given rfl h)

theorem triple_amfType (val : Amf) (v : ℕ) : Triple grants (isAmf val v) (amfType (some v))
    (fun r => given (r = val.type) (isAmf val v)) E := by
  cases val with
  | string str =>
    rw [isAmf]
    simp only [triple_iUnion]
    exact fun q => triple_structType
      (Set.subset_iUnion (fun q => cell v (.amf (.string q)) + isStr str q) q)
  | object elem =>
    rw [isAmf, isTree]
    simp only [triple_iUnion]
    exact fun q l => triple_structType (Set.subset_iUnion₂_of_subset q l subset_rfl)
  | strictArray elem =>
    rw [isAmf, isTree]
    simp only [triple_iUnion]
    exact fun q l => triple_structType (Set.subset_iUnion₂_of_subset q l subset_rfl)
  | number | bool | null | undefined =>
    rw [isAmf, ← add_zero (cell _ _)]
    exact triple_structType subset_rfl

/-- `strcmp` of a string that is NULL is no better than of none. -/
theorem triple_streq {str : Option CStr} {q : Option ℕ} {b : CStr}
    (hE : str = none → E .null) : Triple grants (isStr str q) (streq q b)
      (fun r => given (Naiad.streq b str = .ok r) (isStr str q)) E := by
  cases str with
  | none =>
    cases q with
    | none => exact fun _ _ _ _ _ => hE rfl
    | some q => exact triple_empty
  | some s =>
    cases q with
    | none => exact triple_empty
    | some q =>
      refine triple_strAt.known ?_
      exact triple_pure (subset_given rfl subset_rfl)

theorem triple_streqAt {str : Option CStr} {v : ℕ} {b : CStr} (hE : str = none → E .null) :
    Triple grants (isAmf (.string str) v) (do streq (← amfGetString (some v)) b)
      (fun r => given (Naiad.streq b str = .ok r) (isAmf (.string str) v)) E := by
  rw [isAmf]
  simp only [triple_iUnion]
  intro q
  refine Triple.bind (Q := fun r => given (r = q) (cell v (.amf (.string q)) + isStr str q)) ?_ ?_
  · refine triple_amfAt.knownStep ?_
    exact triple_pure (subset_given rfl subset_rfl)
  · intro r
    rw [triple_given]
    rintro rfl
    rw [add_comm]
    refine ((triple_streq hE).frame _).post fun eq => ?_
    rw [given_add, add_comm]
    exact Set.iUnion_mono fun _ =>
      Set.subset_iUnion (fun q => cell v (.amf (.string q)) + isStr str q) r

/-- `notify` reads the first argument; the empty string is NULL to `strcmp`. -/
theorem triple_notifyParsed (hE : Naiad.notify inv = .error .nullString → E .null) :
    Triple grants (isInvoke inv curElem a) (notifyParsed a)
      (fun r => given (Naiad.notify inv = .ok r) (isInvoke inv curElem a)) E := by
  refine triple_amfInvokeNargs.known ?_
  unfold Naiad.notify at hE ⊢
  by_cases hargs : Mayhem.amfInvokeNargs inv < 1
  · rw [if_pos hargs]
    refine triple_pure (subset_given ?_ subset_rfl)
    rw [if_pos hargs]
    rfl
  rw [if_neg hargs] at hE ⊢
  refine triple_lookAt fun v => ?_
  cases harg : Mayhem.amfInvokeGet inv 0 with
  | none =>
    cases v with
    | none => exact triple_pure (subset_given (by rw [if_neg hargs]; rfl) subset_rfl)
    | some v => exact triple_empty
  | some val =>
    cases v with
    | none => exact triple_empty
    | some v =>
      rw [harg] at hE
      refine (triple_amfType val v).known ?_
      by_cases htype : val.type = AMF_STRING
      · obtain ⟨str, rfl⟩ := Naiad.type_eq_string htype
        rw [if_neg (not_not.mpr htype)]
        refine (triple_streqAt ?_).post fun r => ?_
        · rintro rfl
          exact hE rfl
        · rw [if_neg hargs]
          exact subset_rfl
      · rw [if_pos htype]
        refine triple_pure (subset_given ?_ subset_rfl)
        rw [if_neg hargs]
        dsimp only [Mayhem.amfType]
        exact if_pos htype

end Looking

/-! ### Parsing, looking, giving back -/

section Received

variable (amf3 : List UInt8 → P (Option ℕ × ℕ))

/-- What is made of the invoke in a buffer, if there is one. -/
def received (look : ℕ → P Bool) (m : Memory) (sz : ℕ) : P (Option Bool) := do
  match ← amfInvokeFromBuf amf3 m sz with
  | none => return none
  | some inv =>
    let ret ← look inv
    amfInvokeFree (some inv)
    return some ret

/-- `r_invoke`, with the callback of the owner if there is one. It returns 1 in any case; here is
what the callback has returned. -/
def rInvoke (invoke : Option (ℕ → P Bool)) : Memory → ℕ → P (Option Bool) :=
  received amf3 (invoke.getD fun _ => return true)

/-- `notify` of `mayhem.c`, which returns 0 if there is no invoke. -/
def notify : Memory → ℕ → P (Option Bool) := received amf3 notifyParsed

end Received

theorem triple_received {grants : ℕ → Bool} {E : Fault → Prop} {amf3 : List UInt8 → P (Option ℕ × ℕ)}
    {amf3' : List UInt8 → Option Amf × ℕ} {look : ℕ → P Bool} {Seen : Invoke → Bool → Prop} {m : Memory}
    {sz : ℕ} (hfails : ¬ Granted grants → E .null ∧ E .wild)
    (hallows : Allows E sz (Mayhem.amfInvokeFromBuf amf3' m sz))
    (h3 : Amf3Owns grants E amf3 amf3' m sz)
    (hlook : ∀ inv a, (Mayhem.amfInvokeFromBuf amf3' m sz).out = .val inv →
      Triple grants (isInvoke inv inv.length a) (look a)
        (fun r => given (Seen inv r) (isInvoke inv inv.length a)) E) :
    Triple grants 0 (received amf3 look m sz) (fun
      | none => given ((Mayhem.amfInvokeFromBuf amf3' m sz).out = .null ∨ ¬ Granted grants) Litter
      | some ret => ⋃ inv, given ((Mayhem.amfInvokeFromBuf amf3' m sz).out = .val inv ∧ Seen inv ret)
          (strays (argNames amf3' m sz sz 0))) E := by
  refine (refines_fromBuf hfails h3 hallows).bind fun r => ?_
  cases r with
  | none => exact triple_given.mpr fun hout => triple_pure (subset_given hout subset_rfl)
  | some a =>
    simp only [triple_iUnion, triple_given]
    intro inv hinv
    refine (hlook inv a hinv).step fun ret => ?_
    rw [given_add, triple_given]
    intro hseen
    refine triple_amfInvokeFree.step fun _ => triple_pure ?_
    rw [zero_add]
    exact Set.subset_iUnion_of_subset inv (subset_given ⟨hinv, hseen⟩ subset_rfl)

end Blocks

/-- A message that is parsed, and how many bytes of it there are. -/
inductive Incoming
  | invoke (m : Memory) (sz : ℕ)
  | notify (m : Memory) (sz : ℕ)

/-- The functions that are called with what comes in, and what is known of them: `amf3_parse` on
blocks, and without; the callback for invokes, what it returns and how it may fail. -/
structure Receiver where
  amf3 : List UInt8 → Blocks.P (Option ℕ × ℕ)
  amf3' : List UInt8 → Option Amf × ℕ
  invoke : Option (ℕ → Blocks.P Bool)
  Seen : Invoke → Bool → Prop
  Fails : Invoke → Fault → Prop

open Blocks

namespace Receiver

variable (o : Receiver) (grants : ℕ → Bool)

/-- The owner leaves an invoke as it is. -/
structure Careful : Prop where
  unset : o.invoke = none → ∀ inv, o.Seen inv true
  invoke : ∀ f ∈ o.invoke, ∀ inv a, Triple grants (isInvoke inv inv.length a) (f a)
    (fun r => given (o.Seen inv r) (isInvoke inv inv.length a)) (o.Fails inv)

end Receiver

namespace Incoming

variable (o : Receiver) (grants : ℕ → Bool)

def run : Incoming → P (Option Bool)
  | invoke m sz => rInvoke o.amf3 o.invoke m sz
  | notify m sz => Blocks.notify o.amf3 m sz

def parse : Incoming → Parse Invoke
  | invoke m sz | notify m sz => amfInvokeFromBuf o.amf3' m sz

def size : Incoming → ℕ
  | invoke _ sz | notify _ sz => sz

/-- A value that `amf3_parse` returns of this message belongs to the parser. -/
def Amf3Owns : Incoming → Prop
  | invoke m sz | notify m sz =>
    Blocks.Amf3Owns grants (fun e => e = .null ∧ ¬ Granted grants) o.amf3 o.amf3' m sz

/-- The names of the members of its arguments. -/
def names : Incoming → List CStr
  | invoke m sz | notify m sz => argNames o.amf3' m sz sz 0

/-- What is returned of an invoke. -/
def Seen : Incoming → Invoke → Bool → Prop
  | invoke _ _ => o.Seen
  | notify _ _ => fun inv ret => Naiad.notify inv = .ok ret

/-- How a callback may fail. -/
def Fails : Incoming → Invoke → Fault → Prop
  | invoke _ _ => o.Fails
  | notify _ _ => fun inv e => e = .null ∧ Naiad.notify inv = .error .nullString

/-- What is left of a message. -/
def left (q : Incoming) : Option Bool → Own
  | none => given ((q.parse o).out = .null ∨ ¬ Granted grants) Litter
  | some ret => ⋃ inv, given ((q.parse o).out = .val inv ∧ q.Seen o inv ret) (strays (q.names o))

/-- NULL after an allocation has failed, an assertion of the parser, a read behind the message, or
what the callback does. The dump of a message may read behind it when an allocation has failed. -/
def Faults (q : Incoming) (e : Fault) : Prop :=
  e = .null ∧ ¬ Granted grants ∨ e = .abort ∧ (q.parse o).out = .abort ∨
    e = .wild ∧ (q.size < (q.parse o).reach ∨ ¬ Granted grants) ∨
      ∃ inv, (q.parse o).out = .val inv ∧ q.Fails o inv e

theorem triple_run (h : o.Careful grants) (q : Incoming) (h3 : q.Amf3Owns o grants) :
    Triple grants 0 (q.run o) (q.left o grants) (q.Faults o grants) := by
  have hfails : ¬ Granted grants → q.Faults o grants .null ∧ q.Faults o grants .wild := fun hfail =>
    ⟨.inl ⟨rfl, hfail⟩, .inr (.inr (.inl ⟨rfl, .inr hfail⟩))⟩
  have hallows : Allows (q.Faults o grants) q.size (q.parse o) :=
    ⟨fun hout => .inr (.inl ⟨rfl, hout⟩), fun hout => .inr (.inr (.inl ⟨rfl, .inl hout⟩))⟩
  cases q with
  | invoke m sz =>
    have hlook : ∀ inv a, (amfInvokeFromBuf o.amf3' m sz).out = .val inv →
        Triple grants (isInvoke inv inv.length a) ((o.invoke.getD fun _ => return true) a)
          (fun r => given (o.Seen inv r) (isInvoke inv inv.length a))
          ((Incoming.invoke m sz).Faults o grants) := by
      intro inv a hinv
      cases hf : o.invoke with
      | none => exact triple_pure (subset_given (h.unset hf inv) subset_rfl)
      | some f =>
        exact (h.invoke f hf inv a).faults fun e he => .inr (.inr (.inr ⟨inv, hinv, he⟩))
    have howns : Blocks.Amf3Owns grants ((Incoming.invoke m sz).Faults o grants) o.amf3 o.amf3' m sz :=
      fun buf hbuf hm => (h3 buf hbuf hm).faults fun e he => .inl he
    refine (triple_received hfails hallows howns hlook).post fun r => ?_
    cases r <;> exact subset_rfl
  | notify m sz =>
    have hlook : ∀ inv a, (amfInvokeFromBuf o.amf3' m sz).out = .val inv →
        Triple grants (isInvoke inv inv.length a) (notifyParsed a)
          (fun r => given (Naiad.notify inv = .ok r) (isInvoke inv inv.length a))
          ((Incoming.notify m sz).Faults o grants) := fun inv a hinv =>
      triple_notifyParsed fun hstr => .inr (.inr (.inr ⟨inv, hinv, rfl, hstr⟩))
    have howns : Blocks.Amf3Owns grants ((Incoming.notify m sz).Faults o grants) o.amf3 o.amf3' m sz :=
      fun buf hbuf hm => (h3 buf hbuf hm).faults fun e he => .inl he
    refine (triple_received hfails hallows howns hlook).post fun r => ?_
    cases r <;> exact subset_rfl

/-- Messages one after the other. -/
def runAll : List Incoming → P (List (Option Bool))
  | [] => return []
  | q :: qs => do
    let ret ← q.run o
    let rets ← runAll qs
    return ret :: rets

theorem triple_runAll (h : o.Careful grants) {qs : List Incoming}
    (h3 : ∀ q ∈ qs, q.Amf3Owns o grants) : Triple grants 0 (runAll o qs)
      (each (qs.map fun q => q.left o grants)) (fun e => ∃ q ∈ qs, q.Faults o grants e) := by
  have hnil : runAll o [] = pure [] := rfl
  exact triple_each hnil (fun _ _ => rfl) fun q hq => triple_run o grants h q (h3 q hq)

/-- The message is parsed without a look behind it, and the callback returns. -/
def Good (q : Incoming) : Prop :=
  (q.parse o).reach ≤ q.size ∧ ∃ inv, (q.parse o).out = .val inv ∧ ∀ e, ¬ q.Fails o inv e

/-- The callback has been given what the parser returns. -/
def Answered (q : Incoming) (ret : Option Bool) : Prop :=
  ∃ inv b, (q.parse o).out = .val inv ∧ ret = some b ∧ q.Seen o inv b

theorem strays_card {l : List CStr} {own : Multiset (ℕ × Block)} (h : own ∈ strays l) :
    own.card = l.length := by
  induction l generalizing own with
  | nil => exact congrArg Multiset.card h
  | cons str l ih =>
    obtain ⟨own₁, h₁, own₂, h₂, rfl⟩ := h
    obtain ⟨q, rfl⟩ := Set.mem_iUnion.mp h₁
    rw [Multiset.card_add, ih h₂, List.length_cons, Nat.add_comm]
    rfl

theorem left_granted {q : Incoming} {ret : Option Bool} (hgrants : Granted grants) (hq : q.Good o)
    {own : Multiset (ℕ × Block)} (hown : own ∈ q.left o grants ret) :
    own ∈ strays (q.names o) ∧ q.Answered o ret := by
  obtain ⟨-, inv, hinv, -⟩ := hq
  cases ret with
  | none =>
    obtain ⟨hnull | hfail, -⟩ := mem_given.mp hown
    · rw [hinv] at hnull
      cases hnull
    · exact absurd hgrants hfail
  | some b =>
    obtain ⟨inv', hown⟩ := Set.mem_iUnion.mp hown
    obtain ⟨⟨hinv', hseen⟩, hown⟩ := mem_given.mp hown
    exact ⟨hown, inv', b, hinv', rfl, hseen⟩

theorem all_granted {qs : List Incoming} {rets : List (Option Bool)} (hgrants : Granted grants)
    (hqs : ∀ q ∈ qs, q.Good o) {own : Multiset (ℕ × Block)}
    (hown : own ∈ each (qs.map fun q => q.left o grants) rets) :
    own ∈ strays (qs.flatMap fun q => q.names o) ∧ List.Forall₂ (Answered o) qs rets := by
  rw [strays_flatMap]
  exact each_forall₂ (fun q hq ret _ => left_granted o grants hgrants (hqs q hq)) hown

/-- The message `onMetaData` with an object of one member. -/
def metadata : List UInt8 :=
  [AMF_STRING, 0, 10] ++ Naiad.cstr "onMetaData" ++
    [AMF_OBJECT, 0, 1, 0x61, AMF_NULL, 0, 0, AMF_OBJECT_END]

/-- A callback that looks how many arguments there are. -/
def counting : Receiver where
  amf3 _ := return (none, 0)
  amf3' _ := (none, 0)
  invoke := some fun a => do return (← Blocks.amfInvokeNargs (some a)) = 2
  Seen inv ret := ret = decide (inv.length = 2)
  Fails _ _ := False

end Incoming

end Mayhem
