import Mayhem.Naiad.Builders

/-! What the requests of a session leave behind, whichever allocations fail. -/
namespace Mayhem.Blocks

open BlockHeap Naiad Cvars
open scoped Pointwise

variable {grants : ℕ → Bool} {E : Fault → Prop}

/-! ### Sending -/

theorem invoke_encoding {inv : Invoke} (h : inv.Completes) (hshort : inv.Short) : ∃ bs,
    Mayhem.amfInvokeToBuf inv = some bs ∧ Mayhem.amfInvokeBufSize inv = some bs.length := by
  rw [invoke_completes_iff] at h
  have hok : ∀ a, some a ∈ inv → a.Sendable := fun a ha =>
    (encodes_iff_sendable (hshort a ha)).mp (h a ha)
  exact exists_invoke hok fun a ha => (hshort a ha).shortKeys (hok a ha)

variable {rtmpSend : OutMsg → Bool} {chan : OutChan} {dest : UInt32} {type : UInt8} {inv : Invoke}
  {curElem a v : ℕ} {val : Amf}

/-- What comes of an invoke that is sent. -/
def Answer (grants : ℕ → Bool) (rtmpSend : OutMsg → Bool) (msg : Option OutMsg) (ret : Bool) : Prop :=
  (∃ x, msg = some x ∧ ret = rtmpSend x) ∨ ¬ Granted grants ∧ ret = false

/-- How the encoder can fail. -/
structure MayFail (E : Fault → Prop) (inv : Invoke) : Prop where
  abort : ¬ inv.Completes → E .abort
  wild : ¬ inv.Short → E .wild

theorem triple_doInvoke (hE : MayFail E inv) :
    Triple grants (isInvoke inv curElem a) (doInvoke rtmpSend chan dest (some a) type)
      (fun r => given (Answer grants rtmpSend (Mayhem.doInvoke chan dest inv type) r)
        (isInvoke inv curElem a)) E := by
  refine (triple_amfInvokeBufSize fun h =>
    hE.abort fun hc => Option.not_isSome_iff_eq_none.mpr h hc.1).bind fun sz =>
    triple_given.mpr fun hsz => ?_
  refine Triple.alloc (fun hfail => ?_) fun buf => ?_
  · exact triple_pure (subset_given (.inr ⟨hfail, rfl⟩) subset_rfl)
  · refine (triple_amfInvokeToBuf (fun h => hE.abort fun hc =>
      Option.not_isSome_iff_eq_none.mpr h hc.2) hE.wild).step fun bs => ?_
    rw [given_add, triple_given]
    intro hbs
    by_cases hlen : bs.length = sz
    swap
    · rw [if_pos hlen]
      refine triple_fault (hE.wild fun hshort => hlen ?_)
      obtain ⟨bs', hbs', hsize⟩ := invoke_encoding
        ⟨Option.isSome_of_eq_some hsz, Option.isSome_of_eq_some hbs⟩ hshort
      obtain rfl := Option.some.inj (hbs.symm.trans hbs')
      exact Option.some.inj (hsize.symm.trans hsz)
    rw [if_neg (not_not.mpr hlen), add_comm]
    refine triple_store.step fun _ => triple_strAt.knownStep ?_
    refine triple_free.step fun _ => triple_pure (subset_given (.inl ⟨_, ?_, rfl⟩) ?_)
    · rw [Mayhem.doInvoke, hsz, hbs]
      simp [guard, hlen]
    · rw [zero_add]

/-! ### One step after the other -/

section Steps

variable {σ : Type} {S : ℕ → σ → Own} {fail : Own} {p : Option ℕ}

/-- From one state to another by steps of the relations. -/
def Path : List (σ → σ → Prop) → σ → σ → Prop
  | [], st, st' => st = st'
  | R :: Rs, st, st' => ∃ mid, R st mid ∧ Path Rs mid st'

/-- A step leads from a state to a related one, or fails. -/
def StepAt (grants : ℕ → Bool) (E : Fault → Prop) (S : ℕ → σ → Own) (fail : Own) (p : Option ℕ)
    (i : ℕ) (f : Option ℕ → P Bool) (R : σ → σ → Prop) : Prop :=
  ∀ st, Triple grants (S i st) (f p)
    (fun r => if r then ⋃ st', given (R st st') (S (i + 1) st') else given (¬ Granted grants) fail) E

/-- A step and what it is to do. -/
abbrev Action (σ : Type) := (Option ℕ → P Bool) × (σ → σ → Prop)

/-- So do all steps from the `i`-th on. -/
def StepsFrom (grants : ℕ → Bool) (E : Fault → Prop) (S : ℕ → σ → Own) (fail : Own)
    (p : Option ℕ) : ℕ → List (Action σ) → Prop
  | _, [] => True
  | i, (f, R) :: fs => StepAt grants E S fail p i f R ∧ StepsFrom grants E S fail p (i + 1) fs

theorem triple_allOf {fs : List (Action σ)} {i : ℕ} {st : σ}
    (h : StepsFrom grants E S fail p i fs) :
    Triple grants (S i st) (allOf (fs.map Prod.fst) p)
      (fun r => if r then ⋃ st', given (Path (fs.map Prod.snd) st st') (S (i + fs.length) st')
        else given (¬ Granted grants) fail) E := by
  induction fs generalizing i st with
  | nil => exact triple_pure fun own hown => Set.mem_iUnion.mpr ⟨st, mem_given.mpr ⟨rfl, hown⟩⟩
  | cons s fs ih =>
    obtain ⟨hstep, hrest⟩ := h
    refine (hstep st).bind fun r => ?_
    cases r with
    | false => exact triple_pure subset_rfl
    | true =>
      simp only [if_true, triple_iUnion, triple_given]
      intro mid hmid
      refine (ih hrest).post fun r => ?_
      cases r with
      | false => exact subset_rfl
      | true =>
        simp only [if_true]
        refine Set.iUnion_mono fun st' => Set.iUnion_subset fun hpath => ?_
        rw [List.length_cons, Nat.add_comm fs.length, ← Nat.add_assoc]
        exact subset_given ⟨mid, hmid, hpath⟩ subset_rfl

end Steps

/-! ### Values -/

/-- A string or a value that nothing points to, or nothing. -/
def Lost : Own := 0 ∪ (stray ∪ ⋃ val, ⋃ v, isAmf val v)

theorem zero_subset_lost : (0 : Own) ⊆ Lost := Set.subset_union_left

theorem stray_subset_lost : (0 ∪ stray : Own) ⊆ Lost := by
  unfold Lost
  exact Set.union_subset_union_right _ Set.subset_union_left

theorem isAmf_subset_lost (val : Amf) (v : ℕ) : isAmf val v ⊆ Lost :=
  fun _ hown => .inr (.inr (Set.mem_iUnion₂.mpr ⟨val, v, hown⟩))

/-- The value is made, or NULL because an allocation failed. -/
def Makes (grants : ℕ → Bool) (E : Fault → Prop) (value : P (Option ℕ)) (val : Amf) : Prop :=
  Triple grants 0 value (made grants (0 ∪ stray) val) E

theorem makes_of {value : P (Option ℕ)} (h : Triple grants 0 value (made grants 0 val) E) :
    Makes grants E value val :=
  h.post fun r => by
    cases r with
    | none => exact Set.iUnion_mono fun _ => Set.subset_union_left
    | some a => exact subset_rfl

theorem makes_number (num : UInt64) : Makes grants E (amfNumber num) (.number num) :=
  makes_of (triple_amfNumber num)

theorem makes_bool (b : Bool) : Makes grants E (amfBool b) (.bool b) := makes_of (triple_amfBool b)

theorem makes_null : Makes grants E amfNull .null := makes_of triple_amfNull

theorem makes_string (str : Option CStr) : Makes grants E (amfString str) (.string str) :=
  makes_of (triple_amfString str)

theorem makes_stringf (text : List UInt8) :
    Makes grants E (amfStringf text) (.string (Mayhem.amfStringf text)) := triple_amfStringf text

/-! ### Actions -/

def memberAction (name : CStr) (value : P (Option ℕ)) (val : Amf) : Action (List (CStr × Amf)) :=
  (setMember name value, fun elem elem' => elem' = Mayhem.amfObjectSet name val elem)

def appendAction (value : P (Option ℕ)) (val : Amf) : Action (List Amf) :=
  (appendArg value, fun vals vals' => vals' = vals ++ [val])

def setAction (i : ℕ) (value : P (Option ℕ)) (val : Amf) : Action (List Amf) :=
  (setArg i value, fun vals vals' => vals' = vals ++ [val])

def objectAction (sets : List (Action (List (CStr × Amf)))) : Action (List Amf) :=
  (appendObject (sets.map Prod.fst), fun vals vals' =>
    ∃ elem, Path (sets.map Prod.snd) [] elem ∧ vals' = vals ++ [.object elem])

/-! ### Members -/

/-- The object while its members are set. -/
def objectAt (a : ℕ) (_ : ℕ) (elem : List (CStr × Amf)) : Own := isAmf (.object elem) a

/-- An object, whatever its members. -/
def anyObject (a : ℕ) : Own := ⋃ elem, isAmf (.object elem) a

theorem step_setMember {value : P (Option ℕ)} (hvalue : Makes grants E value val) (name : CStr)
    (a i : ℕ) : StepAt grants E (objectAt a) (anyObject a + Lost) (some a) i (setMember name value)
      fun elem elem' => elem' = Mayhem.amfObjectSet name val elem := by
  intro elem
  rw [objectAt, ← zero_add (isAmf _ a)]
  refine hvalue.step fun r => ?_
  cases r with
  | none =>
    rw [made, given_add, triple_given]
    intro hfail
    rw [add_comm]
    refine ((triple_amfObjectSet_null elem name a).frame _).post fun r => ?_
    rw [given_add]
    refine Set.iUnion_subset fun hr => ?_
    rw [hr]
    refine subset_given hfail (Set.add_subset_add ?_ stray_subset_lost)
    exact Set.subset_iUnion (fun elem => isAmf (.object elem) a) elem
  | some v =>
    rw [made, add_comm]
    refine (triple_amfObjectSet elem name val a v).post fun r => ?_
    cases r with
    | true => exact fun own hown => Set.mem_iUnion.mpr ⟨_, mem_given.mpr ⟨rfl, hown⟩⟩
    | false =>
      refine Set.iUnion_mono fun _ => Set.add_subset_add ?_ (isAmf_subset_lost val v)
      exact Set.subset_iUnion (fun elem => isAmf (.object elem) a) elem

/-- A member of an object that could not be allocated: NULL is dereferenced. -/
theorem triple_setMember_null {value : P (Option ℕ)} (hvalue : Makes grants E value val)
    (hnull : E .null) (name : CStr) {F : Own} {Q : Bool → Own} :
    Triple grants F (setMember name value none) Q E := by
  have hframe := hvalue.frame F
  rw [zero_add] at hframe
  exact hframe.bind fun r s own frame hown hs => hnull

/-- The host and the path, in memory of their own. -/
def isUrl (name path : Option CStr) : Option ℕ × Option ℕ → Own
  | (q, r) => isStr name q + isStr path r

/-- The path of a URL, or none if an allocation failed. -/
def UrlPath (grants : ℕ → Bool) (heap url : CStr) (path : Option CStr) : Prop :=
  (∃ r, Mayhem.rtmpUrlparse heap url none (some none) = .ok r ∧ path = r.2.2.join) ∨
    ¬ Granted grants ∧ path = none

/-- There is no path without a host. -/
theorem urlparse_null {heap url : CStr} {port : Option UInt16} {path : Option (Option CStr)}
    (h : Mayhem.rtmpUrlparse heap url none (some none) = .ok (none, port, path)) :
    path.join = none := by
  choose parts hparts using splitPort_ok
  simp only [Mayhem.rtmpUrlparse, hparts] at h
  split_ifs at h with hscheme hsize
  all_goals cases h
  all_goals rfl

theorem triple_rtmpUrlparse (heap url : CStr) : Triple grants 0 (rtmpUrlparse heap url)
    (fun r => ⋃ name, ⋃ path, given (UrlPath grants heap url path) (isUrl name path r)) E := by
  obtain ⟨⟨buf, port, path⟩, hr, -⟩ := urlparse_path heap url
  have hpart : ∀ {name path' r P}, UrlPath grants heap url path' → P ⊆ isUrl name path' r →
      P ⊆ ⋃ name, ⋃ path, given (UrlPath grants heap url path) (isUrl name path r) :=
    fun {name path' r P} h hP own hown =>
      Set.mem_iUnion₂.mpr ⟨name, path', mem_given.mpr ⟨h, hP hown⟩⟩
  have hnone : (0 : Own) ⊆ isUrl none none (none, none) := subset_of_eq (zero_add _).symm
  have hhost : ∀ q str, cell q (.str str) ⊆ isUrl (some str) none (some q, none) :=
    fun q str => subset_of_eq (add_zero _).symm
  unfold rtmpUrlparse
  rw [hr]
  cases buf with
  | none => exact triple_pure (hpart (.inl ⟨_, hr, (urlparse_null hr).symm⟩) hnone)
  | some buf =>
    refine (triple_alloc _).bind fun r => ?_
    cases r with
    | none =>
      rw [allocated, triple_given]
      exact fun hfail => triple_pure (hpart (.inr ⟨hfail, rfl⟩) hnone)
    | some q =>
      cases hpath : path.join with
      | none => exact triple_pure (hpart (.inl ⟨_, hr, hpath.symm⟩) (hhost q buf))
      | some str =>
        refine Triple.alloc (fun hfail => ?_) fun r => ?_
        · exact triple_pure (hpart (.inr ⟨hfail, rfl⟩) (hhost q buf))
        · have hboth : cell q (.str buf) + cell r (.str str) ⊆
            isUrl (some buf) (some str) (some q, some r) := subset_rfl
          exact triple_pure (hpart (.inl ⟨_, hr, hpath.symm⟩) hboth)

/-- `app`: what it should be, or the default if there was no memory for the path. -/
def App (grants : ℕ → Bool) (heap : CStr) (v : Wmvars) (premium : Bool) (app : Amf) : Prop :=
  appName heap v premium = .ok app ∨
    ¬ Granted grants ∧ premium = true ∧ app = .string (some (cstr "naiad/live"))

theorem app_of_path {heap url : CStr} {v : Wmvars} {path : Option CStr} (hurl : v.tcUrl = some url)
    (h : UrlPath grants heap url path) :
    App grants heap v true (.string (some (path.getD (cstr "naiad/live")))) := by
  rcases h with ⟨r, hr, rfl⟩ | ⟨hfail, rfl⟩
  · left
    rw [appName, if_pos rfl, hurl]
    simp only [hr]
    rfl
  · exact .inr ⟨hfail, rfl, rfl⟩

theorem triple_freeStr {str : Option CStr} {q : Option ℕ} {F : Own} :
    Triple grants (isStr str q + F) (free q) (fun _ => F) E :=
  (triple_free_str.frame F).post fun _ => by rw [zero_add]

/-- The path is given back once it is copied. -/
theorem step_setApp {heap : CStr} {v : Wmvars} {premium : Bool}
    (hurl : premium = true → v.tcUrl = none → E .null) (a i : ℕ) :
    StepAt grants E (objectAt a) (anyObject a + Lost) (some a) i (setApp heap v premium)
      fun elem elem' => ∃ app, App grants heap v premium app ∧
        elem' = Mayhem.amfObjectSet (cstr "app") app elem := by
  have hset : ∀ {value app}, Makes grants E value app → App grants heap v premium app → ∀ elem,
      Triple grants (isAmf (.object elem) a) (setMember (cstr "app") value (some a))
        (fun r => if r then ⋃ elem', given (∃ app, App grants heap v premium app ∧
          elem' = Mayhem.amfObjectSet (cstr "app") app elem) (isAmf (.object elem') a)
          else given (¬ Granted grants) (anyObject a + Lost)) E := by
    intro value app hvalue happ elem
    refine (step_setMember hvalue (cstr "app") a i elem).post fun r => ?_
    cases r with
    | true => exact Set.iUnion_mono fun elem' => Set.iUnion_mono' fun h => ⟨⟨app, happ, h⟩, subset_rfl⟩
    | false => exact subset_rfl
  intro elem
  rw [setApp]
  cases premium with
  | false =>
    rw [if_neg Bool.false_ne_true]
    exact hset (makes_stringf _) (.inl rfl) elem
  | true =>
    rw [if_pos rfl]
    unfold setPath
    cases hv : v.tcUrl with
    | none => exact triple_fault (hurl rfl hv)
    | some url =>
      rw [objectAt, ← zero_add (isAmf _ a)]
      refine (triple_rtmpUrlparse heap url).step fun r => ?_
      obtain ⟨q, r⟩ := r
      simp only [Set.iUnion_add, given_add, triple_iUnion, triple_given]
      intro name path hpath
      have happ := app_of_path hv hpath
      rw [isUrl, add_assoc]
      refine triple_freeStr.bind fun _ => ?_
      cases path with
      | none =>
        cases r with
        | none =>
          rw [isStr, zero_add]
          exact hset (makes_string _) happ elem
        | some r =>
          rw [isStr_none_some, Set.empty_add]
          exact triple_empty
      | some str =>
        cases r with
        | none =>
          rw [isStr_some_none, Set.empty_add]
          exact triple_empty
        | some r =>
          rw [isStr]
          refine triple_strAt.step fun str' => ?_
          rw [given_add, triple_given]
          rintro rfl
          rw [add_comm]
          refine (hset (makes_string _) happ elem).step fun ret => ?_
          rw [add_comm]
          refine triple_free.step fun _ => triple_pure ?_
          rw [zero_add]
          exact subset_rfl

/-- Nor can `app` be set in an object that could not be allocated. -/
theorem triple_setApp_null {heap : CStr} {v : Wmvars} {premium : Bool} (hnull : E .null) {F : Own}
    {Q : Bool → Own} : Triple grants F (setApp heap v premium none) Q E := by
  rw [setApp]
  cases premium with
  | false =>
    rw [if_neg Bool.false_ne_true]
    exact triple_setMember_null (makes_stringf _) hnull _
  | true =>
    rw [if_pos rfl]
    unfold setPath
    cases v.tcUrl with
    | none => exact triple_fault hnull
    | some url =>
      rw [← zero_add F]
      refine (triple_rtmpUrlparse heap url).step fun r => ?_
      obtain ⟨q, r⟩ := r
      simp only [Set.iUnion_add, given_add, triple_iUnion, triple_given]
      intro name path hpath
      rw [isUrl, add_assoc]
      refine triple_freeStr.bind fun _ => ?_
      cases r with
      | none => exact triple_setMember_null (makes_string _) hnull _
      | some r =>
        cases path with
        | none =>
          rw [isStr_none_some, Set.empty_add]
          exact triple_empty
        | some str =>
          refine triple_strAt.step fun str' => ?_
          exact (triple_setMember_null (makes_string _) hnull (Q := fun _ => ∅) _).bind
            fun _ => triple_empty

/-! ### Arguments -/

/-- An invoke, whatever its arguments. -/
def anyInvoke (a : ℕ) : Own := ⋃ inv, ⋃ curElem, isInvoke inv curElem a

theorem subset_anyInvoke : isInvoke inv curElem a ⊆ anyInvoke a :=
  fun _ hown => Set.mem_iUnion₂.mpr ⟨inv, curElem, hown⟩

/-- An invoke of `n` slots while they are filled from the first on. -/
def invokeAfter (n : ℕ) (pos : ℕ → ℕ) (a i : ℕ) (vals : List Amf) : Own :=
  given (vals.length = i)
    (isInvoke (vals.map some ++ List.replicate (n - i) none) (pos i) a)

/-- The next slot. -/
theorem replicate_slots {n i : ℕ} (hi : i < n) :
    List.replicate (n - i) (none : Option Amf) = none :: List.replicate (n - (i + 1)) none := by
  rw [← List.replicate_succ]
  congr 1
  omega

theorem invokeAfter_next {n i : ℕ} {pos : ℕ → ℕ} {vals : List Amf} (hlen : vals.length = i) :
    isInvoke (vals.map some ++ some val :: List.replicate (n - (i + 1)) none) (pos (i + 1)) a ⊆
      ⋃ vals', given (vals' = vals ++ [val]) (invokeAfter n pos a (i + 1) vals') := by
  intro own hown
  refine Set.mem_iUnion.mpr ⟨vals ++ [val], mem_given.mpr ⟨rfl, mem_given.mpr ⟨?_, ?_⟩⟩⟩
  · rw [List.length_append, hlen]
    rfl
  · rw [List.map_append, List.append_assoc]
    exact hown

/-- A value goes into the next slot by `put`. -/
theorem triple_arg {value : P (Option ℕ)} {held lost : Own}
    (hvalue : Triple grants held value (made grants lost val) E) {n i : ℕ} (hi : i < n)
    {pos : ℕ → ℕ} {put : Option ℕ → P Bool}
    (hnull : ∀ inv : Invoke, i < inv.length → Triple grants (isInvoke inv (pos i) a) (put none)
      (fun r => given (r = false) (anyInvoke a)) E)
    (hput : ∀ (A B : Invoke) v, i = A.length →
      Triple grants (isInvoke (A ++ none :: B) (pos i) a + isAmf val v) (put (some v))
        (fun r => given (r = true) (isInvoke (A ++ some val :: B) (pos (i + 1)) a)) E)
    (vals : List Amf) : Triple grants (held + invokeAfter n pos a i vals) (do put (← value))
      (fun r => if r then ⋃ vals', given (vals' = vals ++ [val]) (invokeAfter n pos a (i + 1) vals')
        else given (¬ Granted grants) (anyInvoke a + lost)) E := by
  rw [invokeAfter, add_given, triple_given]
  intro hlen
  rw [replicate_slots hi]
  refine hvalue.step fun r => ?_
  cases r with
  | none =>
    rw [made, given_add, triple_given, add_comm]
    intro hfail
    have hslot : i < (vals.map some ++ none :: List.replicate (n - (i + 1)) none).length := by
      rw [List.length_append, List.length_map, hlen, List.length_cons]
      omega
    refine ((hnull _ hslot).frame _).post fun r => ?_
    rw [given_add]
    refine Set.iUnion_subset fun hr => ?_
    rw [hr]
    exact subset_given hfail subset_rfl
  | some v =>
    rw [made, add_comm]
    have hslot : i = (vals.map some).length := by rw [List.length_map, hlen]
    refine (hput _ _ v hslot).post fun r => Set.iUnion_subset fun hr => ?_
    rw [if_pos hr]
    exact invokeAfter_next hlen

theorem StepAt.weaken {σ : Type} {S : ℕ → σ → Own} {fail fail' : Own} {p : Option ℕ} {i : ℕ}
    {f : Option ℕ → P Bool} {R : σ → σ → Prop} (h : StepAt grants E S fail p i f R)
    (hfail : fail ⊆ fail') : StepAt grants E S fail' p i f R :=
  fun st => (h st).post fun r => by
    cases r with
    | true => exact subset_rfl
    | false => exact Set.iUnion_mono fun _ => hfail

theorem step_appendArg {value : P (Option ℕ)} (hvalue : Makes grants E value val) {n i : ℕ}
    (hi : i < n) : StepAt grants E (invokeAfter n id a) (anyInvoke a + Lost) (some a) i
      (appendArg value) fun vals vals' => vals' = vals ++ [val] :=
  StepAt.weaken (fun vals => by
    rw [← zero_add (invokeAfter n id a i vals)]
    refine @triple_arg grants E a val value 0 (0 ∪ stray) hvalue n i hi id (amfInvokeAppend (some a))
      (fun inv hslot => ?_) (fun A B v hslot => triple_amfInvokeAppend_slot hslot) vals
    exact (triple_amfInvokeAppend_null hslot).post fun _ => Set.iUnion_mono fun _ => subset_anyInvoke)
    (Set.add_subset_add subset_rfl stray_subset_lost)

theorem triple_setArg {value : P (Option ℕ)} {held lost : Own}
    (hvalue : Triple grants held value (made grants lost val) E) {n i : ℕ} (hi : i < n)
    (vals : List Amf) : Triple grants (held + invokeAfter n (fun _ => 0) a i vals)
      (setArg i value (some a)) (fun r => if r then ⋃ vals', given (vals' = vals ++ [val])
          (invokeAfter n (fun _ => 0) a (i + 1) vals')
        else given (¬ Granted grants) (anyInvoke a + lost)) E := by
  refine @triple_arg grants E a val value held lost hvalue n i hi (fun _ => 0)
    (amfInvokeSet (some a) i) (fun inv hslot => ?_) (fun A B v hslot => triple_amfInvokeSet hslot) vals
  exact (triple_amfInvokeSet_null hslot).post fun _ => Set.iUnion_mono fun _ => subset_anyInvoke

theorem step_setArg {value : P (Option ℕ)} (hvalue : Makes grants E value val) {n i : ℕ}
    (hi : i < n) : StepAt grants E (invokeAfter n (fun _ => 0) a) (anyInvoke a + Lost) (some a) i
      (setArg i value) fun vals vals' => vals' = vals ++ [val] :=
  StepAt.weaken (fun vals => by
    rw [← zero_add (invokeAfter n _ a i vals)]
    exact triple_setArg hvalue hi vals)
    (Set.add_subset_add subset_rfl stray_subset_lost)

/-- A step while something else is held, which is lost if the step fails. -/
theorem step_held {value : P (Option ℕ)} {held : Own} (hheld : held ⊆ Lost)
    (hvalue : Triple grants 0 value (made grants 0 val) E) {n i : ℕ} (hi : i < n) :
    StepAt grants E (fun i vals => held + invokeAfter n (fun _ => 0) a i vals) (anyInvoke a + Lost)
      (some a) i (setArg i value) fun vals vals' => vals' = vals ++ [val] := by
  intro vals
  have hset := @triple_setArg grants E a val value 0 0 hvalue n i hi vals
  rw [zero_add] at hset
  refine ((hset.frame held).pre (subset_of_eq (add_comm _ _))).post fun r => ?_
  cases r with
  | true =>
    simp only [if_true, Set.iUnion_add, given_add]
    exact Set.iUnion_mono fun vals' => Set.iUnion_mono fun _ => subset_of_eq (add_comm _ _)
  | false =>
    simp only [Bool.false_eq_true, if_false, given_add, add_zero]
    exact Set.iUnion_mono fun _ => Set.add_subset_add subset_rfl hheld

theorem triple_free_object {obj : ℕ} : Triple grants (anyObject obj) (amfFree (some obj))
    (fun _ => 0) E :=
  triple_iUnion.mpr fun elem => triple_amfFree (.object elem) obj

theorem triple_free_invoke : Triple grants (anyInvoke a) (amfInvokeFree (some a)) (fun _ => 0) E :=
  triple_iUnion.mpr fun _ => triple_iUnion.mpr fun _ => triple_amfInvokeFree

/-- An object that cannot be allocated is not tested for. -/
theorem step_appendObject
    {fs : List (Action (List (CStr × Amf)))}
    (hsets : ∀ obj, StepsFrom grants E (objectAt obj) (anyObject obj + Lost) (some obj) 0 fs)
    (hnull : ¬ Granted grants → ∀ F, Triple grants F (allOf (fs.map Prod.fst) none) (fun _ => ∅) E)
    {n i : ℕ} (hi : i < n) :
    StepAt grants E (invokeAfter n id a) (anyInvoke a + Lost) (some a) i
      (appendObject (fs.map Prod.fst)) fun vals vals' =>
        ∃ elem, Path (fs.map Prod.snd) [] elem ∧ vals' = vals ++ [.object elem] := by
  intro vals
  rw [invokeAfter, triple_given]
  intro hlen
  rw [replicate_slots hi, ← zero_add (isInvoke _ _ _)]
  refine triple_amfObject.step fun obj => ?_
  cases obj with
  | none =>
    rw [made, given_add, triple_given]
    exact fun hfail => (hnull hfail _).bind fun _ => triple_empty
  | some obj =>
    refine (triple_allOf (hsets obj)).step fun r => ?_
    cases r with
    | true =>
      simp only [if_true, Set.iUnion_add, given_add, triple_iUnion, triple_given]
      intro elem hpath
      rw [objectAt, add_comm]
      have hslot : id i = (vals.map some).length := by rw [List.length_map, hlen, id]
      refine (triple_amfInvokeAppend_slot hslot).post fun r => Set.iUnion_subset fun hr => ?_
      rw [if_pos hr]
      refine subset_trans (@invokeAfter_next a (.object elem) n i id vals hlen) ?_
      exact Set.iUnion_mono fun vals' => Set.iUnion_mono' fun h => ⟨⟨elem, hpath, h⟩, subset_rfl⟩
    | false =>
      simp only [Bool.false_eq_true, if_false, given_add, triple_given]
      intro hfail
      rw [add_assoc]
      refine triple_free_object.step fun _ => triple_pure (subset_given hfail ?_)
      rw [zero_add, add_comm]
      exact Set.add_subset_add subset_anyInvoke subset_rfl

/-! ### Whole invokes -/

section Invokes

variable {fs : List (Action (List Amf))} {n : ℕ}

theorem subset_invokeAfter {pos : ℕ → ℕ} (hpos : pos 0 = 0) :
    isInvoke (List.replicate n none) 0 a ⊆ invokeAfter n pos a 0 [] := by
  refine subset_given rfl ?_
  rw [hpos]
  exact subset_rfl

/-- All slots are filled. -/
theorem invokeAfter_all {pos : ℕ → ℕ} {vals : List Amf} :
    invokeAfter n pos a (0 + n) vals ⊆ isInvoke (vals.map some) (pos n) a := by
  rw [Nat.zero_add, invokeAfter, Nat.sub_self, List.replicate_zero, List.append_nil]
  exact Set.iUnion_subset fun _ => subset_rfl

theorem triple_built (h : ∀ a, StepsFrom grants E (invokeAfter n id a) (anyInvoke a + Lost) (some a) 0 fs)
    (hlen : fs.length = n) : Triple grants 0 (built n (fs.map Prod.fst)) (fun
      | none => given (¬ Granted grants) Lost
      | some a => ⋃ vals, given (Path (fs.map Prod.snd) [] vals) (isInvoke (vals.map some) n a)) E := by
  refine (triple_amfInvokeNew n).bind fun r => ?_
  cases r with
  | none => exact triple_pure (Set.iUnion_mono fun _ => zero_subset_lost)
  | some a =>
    refine ((triple_allOf (h a)).pre (subset_invokeAfter rfl)).bind fun r => ?_
    cases r with
    | true =>
      refine triple_pure (Set.iUnion_mono fun vals => Set.iUnion_mono fun _ => ?_)
      rw [hlen]
      exact invokeAfter_all
    | false =>
      simp only [Bool.false_eq_true, if_false, triple_given]
      intro hfail
      refine triple_free_invoke.step fun _ => triple_pure (subset_given hfail ?_)
      rw [zero_add]

/-- What comes of a request: a message is given to `rtmp_send` and nothing is left, or an
allocation has failed. -/
def outcome (grants : ℕ → Bool) (rtmpSend : OutMsg → Bool) (Msg : OutMsg → Prop) (ret : Bool) : Own :=
  given (∃ msg, Msg msg ∧ ret = rtmpSend msg) 0 ∪ given (¬ Granted grants ∧ ret = false) Lost

theorem outcome_of_answer {Msg : OutMsg → Prop} {msg : Option OutMsg} {ret : Bool}
    (hmsg : ∀ x, msg = some x → Msg x) (h : Answer grants rtmpSend msg ret) :
    (0 : Own) ⊆ outcome grants rtmpSend Msg ret := by
  rcases h with ⟨x, hx, hret⟩ | h
  · exact (subset_given ⟨x, hmsg x hx, hret⟩ subset_rfl).trans Set.subset_union_left
  · exact (subset_given h zero_subset_lost).trans Set.subset_union_right

/-- The messages that the invokes at the ends of paths are sent as. -/
def MessageOf (Rs : List (List Amf → List Amf → Prop)) (chan : OutChan) (dest : UInt32)
    (type : UInt8) (msg : OutMsg) : Prop :=
  ∃ vals, Path Rs [] vals ∧ Mayhem.doInvoke chan dest (vals.map some) type = some msg

theorem triple_sendInvoke
    (h : ∀ a, StepsFrom grants E (invokeAfter n id a) (anyInvoke a + Lost) (some a) 0 fs)
    (hlen : fs.length = n)
    (hE : ∀ vals, Path (fs.map Prod.snd) [] vals → MayFail E (vals.map some)) :
    Triple grants 0 (sendInvoke rtmpSend chan dest type (built n (fs.map Prod.fst)))
      (outcome grants rtmpSend (MessageOf (fs.map Prod.snd) chan dest type)) E := by
  refine (triple_built h hlen).bind fun r => ?_
  cases r with
  | none =>
    rw [triple_given]
    intro hfail
    exact triple_pure ((subset_given ⟨hfail, rfl⟩ subset_rfl).trans Set.subset_union_right)
  | some a =>
    simp only [triple_iUnion, triple_given]
    intro vals hpath
    refine (triple_doInvoke (hE vals hpath)).bind fun r => triple_given.mpr fun hr => ?_
    refine triple_amfInvokeFree.bind fun _ => triple_pure ?_
    exact outcome_of_answer (fun x hx => ⟨vals, hpath, hx⟩) hr

theorem triple_sendSet {S : ℕ → List Amf → Own}
    (h : StepsFrom grants E S (anyInvoke a + Lost) (some a) 0 fs)
    (hlast : ∀ vals, S (0 + fs.length) vals ⊆ isInvoke (vals.map some) 0 a)
    (hE : ∀ vals, Path (fs.map Prod.snd) [] vals → MayFail E (vals.map some)) :
    Triple grants (S 0 []) (sendSet rtmpSend chan dest (fs.map Prod.fst) a)
      (outcome grants rtmpSend (MessageOf (fs.map Prod.snd) chan dest RTMP_MSG_FLEX_MESSAGE)) E := by
  unfold sendSet
  refine (triple_allOf h).bind fun r => ?_
  cases r with
  | true =>
    simp only [if_true, triple_iUnion, triple_given]
    intro vals hpath
    refine ((triple_doInvoke (hE vals hpath)).pre (hlast vals)).bind fun r =>
      triple_given.mpr fun hr => ?_
    refine triple_amfInvokeFree.bind fun _ => triple_pure ?_
    exact outcome_of_answer (fun x hx => ⟨vals, hpath, hx⟩) hr
  | false =>
    simp only [Bool.false_eq_true, if_false, triple_given]
    intro hfail
    refine triple_free_invoke.step fun _ => triple_pure ?_
    rw [zero_add]
    exact (subset_given ⟨hfail, rfl⟩ subset_rfl).trans Set.subset_union_right

end Invokes

end Mayhem.Blocks
