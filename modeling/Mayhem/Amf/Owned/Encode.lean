import Mayhem.Amf.Owned.Invokes
import Mayhem.Amf.Owned.Objects
import Mayhem.Amf.Stored

/-! Encoding from the blocks: `amf_size` and `amf_to_buf` read a value and leave it as it is. -/
namespace Mayhem.Blocks

open BlockHeap
open scoped Pointwise

variable {grants : ℕ → Bool} {E : Fault → Prop} {β : Type}

/-! ### Members -/

section Members

variable {elem e₁ e₂ : List (CStr × Amf)} {l : List AmfElem} {q : Option ℕ}
  {read : AmfElem → P β} {f : CStr × Amf → Option β}

/-- A program reads a member, and `f` is what it reads. -/
def ReadsMember (grants : ℕ → Bool) (E : Fault → Prop) (read : AmfElem → P β)
    (f : CStr × Amf → Option β) (e : CStr × Amf) : Prop :=
  ∀ k v, (f e = none → E .abort) → Triple grants (cell k (.str e.1) + isAmf e.2 v)
    (read ⟨some k, some v⟩) (fun r => given (f e = some r) (cell k (.str e.1) + isAmf e.2 v)) E

theorem triple_readSlot {e : CStr × Amf} {i : ℕ} (hread : ReadsMember grants E read f e)
    (hi : i = e₁.length) (hE : f e = none → E .abort) :
    Triple grants (isMembers (e₁ ++ e :: e₂) l q) (do read (← slotAt q i))
      (fun r => given (f e = some r) (isMembers (e₁ ++ e :: e₂) l q)) E := by
  obtain ⟨key, val⟩ := e
  rw [isMembers_split]
  simp only [triple_iUnion, triple_given]
  rintro a k v l₁ l₂ ⟨rfl, rfl, hlen⟩
  have hx : (l₁ ++ ⟨some k, some v⟩ :: l₂)[i]? = some ⟨some k, some v⟩ :=
    List.getElem?_behind (hi.trans hlen.symm)
  refine (triple_slotAt hx).knownStep ?_
  rw [← add_assoc (cell k _), add_left_comm]
  refine ((hread k v hE).frame _).post fun r => ?_
  rw [given_add]
  refine Set.iUnion_mono fun _ own hown => ?_
  rw [add_left_comm, add_assoc (cell k _)] at hown
  simp only [Set.mem_iUnion, mem_given]
  exact ⟨a, k, v, l₁, l₂, ⟨rfl, rfl, hlen⟩, hown⟩

theorem triple_readSlots (hread : ∀ e ∈ e₂, ReadsMember grants E read f e) {i : ℕ}
    (hi : i = e₁.length) (hE : e₂.mapM f = none → E .abort) :
    Triple grants (isMembers (e₁ ++ e₂) l q) (readSlots read q i e₂.length)
      (fun rs => given (e₂.mapM f = some rs) (isMembers (e₁ ++ e₂) l q)) E := by
  induction e₂ generalizing e₁ i with
  | nil => exact triple_pure (subset_given rfl subset_rfl)
  | cons e e₂ ih =>
    obtain ⟨he, hrest⟩ := List.forall_mem_cons.mp hread
    have hone : e₁ ++ e :: e₂ = (e₁ ++ [e]) ++ e₂ := by rw [List.append_assoc, List.singleton_append]
    have hnext : i + 1 = (e₁ ++ [e]).length := by
      rw [List.length_append, hi]
      rfl
    rw [List.length_cons, readSlots, ← bind_assoc]
    refine (triple_readSlot he hi fun h => hE (by simp [h])).bind fun r => triple_given.mpr fun hr => ?_
    have hloop := ih hrest hnext fun h => hE (by simp [h])
    rw [← hone] at hloop
    refine hloop.bind fun rs => triple_given.mpr fun hrs => ?_
    exact triple_pure (subset_given (by simp [hr, hrs]) subset_rfl)

end Members

theorem triple_textAt {str : Option CStr} {q : Option ℕ} : Triple grants (isStr str q) (textAt q)
    (fun r => given (r = str) (isStr str q)) E := by
  cases str with
  | none =>
    cases q with
    | none => exact triple_pure (subset_given rfl subset_rfl)
    | some q => exact triple_empty
  | some s =>
    cases q with
    | none => exact triple_empty
    | some q =>
      refine triple_strAt.known ?_
      exact triple_pure (subset_given rfl subset_rfl)

/-! ### Values -/

/-- What `amf_size` adds for a member. -/
def memberSize (e : CStr × Amf) : Option ℕ := do
  let n ← amfSize e.2
  return 2 + e.1.length + n

/-- What `amf_to_buf` stores for a member. -/
def memberBytes (e : CStr × Amf) : Option (List UInt8) := do
  let k ← strToBuf e.1
  let bs ← amfToBuf e.2
  return k ++ bs

theorem membersSize_eq (elem : List (CStr × Amf)) :
    membersSize elem = (elem.mapM memberSize).map List.sum := by
  induction elem with
  | nil => rfl
  | cons e elem ih =>
    rw [membersSize, ih, List.mapM_cons, memberSize]
    cases amfSize e.2 with
    | none => rfl
    | some n =>
      cases elem.mapM memberSize with
      | none => rfl
      | some ns => simp

theorem membersToBuf_eq (elem : List (CStr × Amf)) :
    membersToBuf elem = (elem.mapM memberBytes).map List.flatten := by
  induction elem with
  | nil => rfl
  | cons e elem ih =>
    rw [membersToBuf, ih, List.mapM_cons, memberBytes]
    cases strToBuf e.1 with
    | none => rfl
    | some k =>
      cases amfToBuf e.2 with
      | none => rfl
      | some bs =>
        cases elem.mapM memberBytes with
        | none => rfl
        | some bss => simp

section Values

variable {a : ℕ} {c : AmfStruct → P β} {res : Option β}

theorem triple_readObject {elem : List (CStr × Amf)} (hc : ∀ q l, Triple grants (isMembers elem l q)
    (c (.object elem.length q)) (fun r => given (res = some r) (isMembers elem l q)) E) :
    Triple grants (isAmf (.object elem) a) (amfAt (some a) >>= c)
      (fun r => given (res = some r) (isAmf (.object elem) a)) E := by
  rw [← add_zero (isAmf _ a)]
  refine triple_object fun q l hl => ?_
  rw [add_zero]
  refine triple_amfAt.knownStep ?_
  rw [add_comm]
  refine ((hc q l).frame _).post fun r => ?_
  rw [given_add, add_comm, add_zero]
  exact Set.iUnion_mono fun _ => subset_isAmf_object hl

theorem triple_readString {str : Option CStr} (hc : ∀ q, Triple grants (isStr str q)
    (c (.string q)) (fun r => given (res = some r) (isStr str q)) E) :
    Triple grants (isAmf (.string str) a) (amfAt (some a) >>= c)
      (fun r => given (res = some r) (isAmf (.string str) a)) E := by
  rw [isAmf]
  simp only [triple_iUnion]
  intro q
  refine triple_amfAt.knownStep ?_
  rw [add_comm]
  refine ((hc q).frame _).post fun r => ?_
  rw [given_add, add_comm]
  exact Set.iUnion_mono fun _ =>
    Set.subset_iUnion (fun q => cell a (.amf (.string q)) + isStr str q) q

theorem triple_readArray {elem : List Amf} {Q : β → Own}
    (hc : ∀ n q, Triple grants 0 (c (.strictArray n q)) (fun _ => ∅) E) :
    Triple grants (isAmf (.strictArray elem) a) (amfAt (some a) >>= c) Q E := by
  simp only [isAmf, isTree, triple_iUnion]
  intro q l
  refine triple_amfAt.knownStep ?_
  have hframe := (hc l.length q).frame (cell a (.amf (.strictArray l.length q)) +
    (isElem l q + each (arraySlots elem) l))
  rw [zero_add] at hframe
  exact hframe.post fun r => by rw [Set.empty_add]; exact Set.empty_subset _

theorem triple_readLeaf {x : AmfStruct} {r : β} (hc : c x = pure r) (hres : res = some r) :
    Triple grants (cell a (.amf x)) (amfAt (some a) >>= c)
      (fun r => given (res = some r) (cell a (.amf x))) E := by
  refine triple_amfAt.bind fun x' => triple_given.mpr ?_
  rintro rfl
  rw [hc]
  exact triple_pure (subset_given hres subset_rfl)

/-- A member is read: its key, and then its value. -/
theorem readsMember {e : CStr × Amf} {κ γ : Type} {p : Option CStr → P κ} {value : Option ℕ → P γ}
    {f : CStr → Option κ} {g : Amf → Option γ} (finish : κ → γ → β)
    (hkey : ∀ P, Triple grants P (p (some e.1)) (fun k => given (f e.1 = some k) P) E)
    (hvalue : ∀ v, (g e.2 = none → E .abort) →
      Triple grants (isAmf e.2 v) (value (some v)) (fun r => given (g e.2 = some r) (isAmf e.2 v)) E) :
    ReadsMember grants E (fun x => do
      let k ← p (← textAt x.key)
      let r ← value x.val
      return finish k r) (fun e => do
      let k ← f e.1
      let r ← g e.2
      return finish k r) e := by
  intro k v hE
  refine (@triple_textAt grants E (some e.1) (some k)).knownStep ?_
  refine (hkey _).bind fun k' => triple_given.mpr fun hk => ?_
  simp only [hk, Option.bind_eq_bind, Option.bind_some] at hE ⊢
  rw [add_comm]
  refine (hvalue v fun h => hE (by rw [h]; rfl)).step fun r => ?_
  rw [given_add, triple_given]
  intro hr
  refine triple_pure (subset_given (by rw [hr]; rfl) ?_)
  rw [add_comm]
  exact subset_rfl

end Values

/-- `amf_size` on the blocks of a value. -/
theorem triple_amfSizeIn (val : Amf) : ∀ {n : ℕ} (a : ℕ), depth val ≤ n →
    (amfSize val = none → E .abort) → Triple grants (isAmf val a) (amfSizeIn n (some a))
      (fun r => given (amfSize val = some r) (isAmf val a)) E := by
  induction val using Amf.induct with
  | object elem ih =>
    intro n a hn hE
    rw [depth] at hn
    obtain ⟨n, rfl⟩ := Nat.exists_eq_succ_of_ne_zero (Nat.ne_zero_of_lt hn)
    have hsize : amfSize (.object elem) = (elem.mapM memberSize).map fun ns => 4 + ns.sum := by
      rw [amfSize, membersSize_eq]
      cases elem.mapM memberSize <;> rfl
    refine triple_readObject fun q l => ?_
    have hread : ∀ e ∈ elem, ReadsMember grants E _ memberSize e := fun e he =>
      readsMember (p := pure) (f := fun key => some (some key)) (fun key n => 2 + amfStrlen key + n)
        (fun P => triple_pure (subset_given rfl subset_rfl)) fun v =>
        ih e he v ((depth_le_members he).trans (Nat.le_of_succ_le_succ hn))
    refine (@triple_readSlots grants E ℕ [] elem l q _ memberSize hread 0 rfl fun h =>
      hE (by rw [hsize, h]; rfl)).bind fun ns => triple_given.mpr fun hns => ?_
    exact triple_pure (subset_given (by rw [hsize, hns]; rfl) subset_rfl)
  | strictArray elem ih =>
    intro n a hn hE
    obtain ⟨n, rfl⟩ := Nat.exists_eq_succ_of_ne_zero (Nat.ne_zero_of_lt hn)
    exact triple_readArray fun _ _ => triple_fault (hE rfl)
  | string str =>
    intro n a hn hE
    obtain ⟨n, rfl⟩ := Nat.exists_eq_succ_of_ne_zero (Nat.ne_zero_of_lt hn)
    refine triple_readString fun q => triple_textAt.known ?_
    exact triple_pure (subset_given rfl subset_rfl)
  | number | bool | null | undefined =>
    intro n a hn hE
    obtain ⟨n, rfl⟩ := Nat.exists_eq_succ_of_ne_zero (Nat.ne_zero_of_lt hn)
    exact triple_readLeaf rfl rfl

theorem triple_strToBufIn {str : Option CStr} {P : Own} (hE : strToBuf (str.getD []) = none → E .wild) :
    Triple grants P (strToBufIn str) (fun bs => given (strToBuf (str.getD []) = some bs) P) E := by
  rw [strToBufIn]
  cases h : strToBuf (str.getD []) with
  | none => exact triple_fault (hE h)
  | some bs => exact triple_pure (subset_given rfl subset_rfl)

/-- `amf_to_buf` on the blocks of a value. -/
theorem triple_amfToBufIn (val : Amf) : ∀ {n : ℕ} (a : ℕ), depth val ≤ n →
    (amfToBuf val = none → E .abort) → (¬ val.Short → E .wild) →
      Triple grants (isAmf val a) (amfToBufIn n (some a))
        (fun r => given (amfToBuf val = some r) (isAmf val a)) E := by
  induction val using Amf.induct with
  | object elem ih =>
    intro n a hn hE hlong
    rw [depth] at hn
    obtain ⟨n, rfl⟩ := Nat.exists_eq_succ_of_ne_zero (Nat.ne_zero_of_lt hn)
    have hbytes : amfToBuf (.object elem) = (elem.mapM memberBytes).map fun bs =>
        AMF_OBJECT :: (bs.flatten ++ [0, 0, AMF_OBJECT_END]) := by
      rw [amfToBuf, membersToBuf_eq]
      cases elem.mapM memberBytes <;> rfl
    refine triple_readObject fun q l => ?_
    have hread : ∀ e ∈ elem, ReadsMember grants E _ memberBytes e := fun e he =>
      readsMember (f := strToBuf) (fun k bs => k ++ bs)
        (fun P => triple_strToBufIn fun hkey => hlong fun hshort => by
          cases hshort with
          | object hkeys _ => simp [strToBuf_short (hkeys e he)] at hkey)
        fun v hval => ih e he v ((depth_le_members he).trans (Nat.le_of_succ_le_succ hn)) hval
          fun h => hlong fun hshort => by
            cases hshort with
            | object _ hvals => exact h (hvals e he)
    refine (@triple_readSlots grants E _ [] elem l q _ memberBytes hread 0 rfl fun h =>
      hE (by rw [hbytes, h]; rfl)).bind fun bs => triple_given.mpr fun hbs => ?_
    exact triple_pure (subset_given (by rw [hbytes, hbs]; rfl) subset_rfl)
  | strictArray elem ih =>
    intro n a hn hE _
    obtain ⟨n, rfl⟩ := Nat.exists_eq_succ_of_ne_zero (Nat.ne_zero_of_lt hn)
    exact triple_readArray fun _ _ => triple_fault (hE rfl)
  | string str =>
    intro n a hn hE hlong
    obtain ⟨n, rfl⟩ := Nat.exists_eq_succ_of_ne_zero (Nat.ne_zero_of_lt hn)
    refine triple_readString fun q => triple_textAt.known ?_
    rw [amfToBuf] at hE ⊢
    by_cases hlen : 0xffff < intLen (str.getD [])
    · rw [if_pos hlen] at hE ⊢
      exact triple_fault (hE rfl)
    · rw [if_neg hlen, if_neg hlen]
      refine (triple_strToBufIn fun htext => hlong fun hshort => ?_).bind fun bs =>
        triple_given.mpr fun hbs => triple_pure (subset_given (by rw [hbs]; rfl) subset_rfl)
      cases hshort with
      | string hshort =>
        rw [amfStrlen] at hshort
        rw [intLen_short hshort] at hlen
        rw [strToBuf_short (by omega)] at htext
        cases htext
  | number | bool | null | undefined =>
    intro n a hn hE _
    obtain ⟨n, rfl⟩ := Nat.exists_eq_succ_of_ne_zero (Nat.ne_zero_of_lt hn)
    exact triple_readLeaf rfl rfl

/-! ### Invokes -/

section Invokes

variable {A B inv : Invoke} {l : List (Option ℕ)} {q : Option ℕ} {curElem a : ℕ}
  {read : Option ℕ → P β} {f : Amf → Option β} {unset : β}

/-- What is read of a slot. -/
def argRead (unset : β) (f : Amf → Option β) : Option Amf → Option β
  | none => some unset
  | some val => f val

theorem triple_readArg {arg : Option Amf} {x : Option ℕ} (hread : ∀ val v, arg = some val →
    Triple grants (isAmf val v) (read (some v)) (fun r => given (f val = some r) (isAmf val v)) E) :
    Triple grants (argOf arg x) (readArg unset read x)
      (fun r => given (argRead unset f arg = some r) (argOf arg x)) E := by
  cases arg with
  | none =>
    cases x with
    | none => exact triple_pure (subset_given rfl subset_rfl)
    | some v => exact triple_empty
  | some val =>
    cases x with
    | none => exact triple_empty
    | some v => exact hread val v rfl

theorem triple_readArgs (hread : ∀ val v, some val ∈ B → (f val = none → E .abort) →
      Triple grants (isAmf val v) (read (some v)) (fun r => given (f val = some r) (isAmf val v)) E)
    {i : ℕ} (hi : i = A.length) (hE : B.mapM (argRead unset f) = none → E .abort) :
    Triple grants (isArgs l q + each ((A ++ B).map argOf) l) (readArgs unset read q i B.length)
      (fun rs => given (B.mapM (argRead unset f) = some rs)
        (isArgs l q + each ((A ++ B).map argOf) l)) E := by
  induction B generalizing A i with
  | nil => exact triple_pure (subset_given rfl subset_rfl)
  | cons arg B ih =>
    have hone : A ++ arg :: B = (A ++ [arg]) ++ B := by rw [List.append_assoc, List.singleton_append]
    have hnext : i + 1 = (A ++ [arg]).length := by
      rw [List.length_append, hi]
      rfl
    have hfirst : Triple grants (isArgs l q + each ((A ++ arg :: B).map argOf) l)
        (do readArg unset read (← argAt q i))
        (fun r => given (argRead unset f arg = some r)
          (isArgs l q + each ((A ++ arg :: B).map argOf) l)) E := by
      have hlen : (A.map argOf).length = A.length := List.length_map _
      rw [List.map_append, List.map_cons, each_split]
      simp only [Set.add_iUnion, add_given, triple_iUnion, triple_given, hlen]
      rintro l₁ x l₂ ⟨rfl, hl₁⟩
      rw [isArgs_cons (by simp)]
      simp only [Set.iUnion_add, given_add, triple_iUnion, triple_given]
      rintro q rfl
      have hx : (l₁ ++ x :: l₂)[i]? = some x := List.getElem?_behind (hi.trans hl₁.symm)
      refine (triple_argAt hx).knownStep ?_
      rw [add_left_comm]
      refine ((triple_readArg fun val v hval => hread val v (hval ▸ List.mem_cons_self) fun h =>
        hE (by simp [hval, argRead, h])).frame _).post fun r' => ?_
      rw [given_add]
      refine Set.iUnion_mono fun _ own hown => ?_
      rw [add_left_comm] at hown
      simp only [Set.mem_iUnion, mem_given]
      exact ⟨l₁, x, l₂, ⟨rfl, hl₁⟩, q, rfl, hown⟩
    rw [List.length_cons, readArgs, ← bind_assoc]
    refine hfirst.bind fun r => triple_given.mpr fun hr => ?_
    have hloop := ih (A := A ++ [arg]) (fun val v hval => hread val v (List.mem_cons_of_mem _ hval))
      hnext fun h => hE (by simp [h])
    rw [← hone] at hloop
    refine hloop.bind fun rs => triple_given.mpr fun hrs => ?_
    exact triple_pure (subset_given (by simp [hr, hrs]) subset_rfl)

theorem depth_le_args {own : Multiset (ℕ × Block)} (hown : own ∈ each (inv.map argOf) l) {val : Amf}
    (hval : some val ∈ inv) : depth val ≤ own.card := by
  induction inv generalizing l own with
  | nil => cases hval
  | cons arg inv ih =>
    cases l with
    | nil => exact hown.elim
    | cons x l =>
      obtain ⟨own₁, h₁, own₂, h₂, rfl⟩ := hown
      rw [Multiset.card_add]
      rcases List.mem_cons.mp hval with rfl | hval
      · cases x with
        | none => exact h₁.elim
        | some v => exact (depth_le_card val v own₁ h₁).trans (Nat.le_add_right _ _)
      · exact (ih h₂ hval).trans (Nat.le_add_left _ _)

/-- What is read of the arguments of an invoke. -/
theorem triple_readInvoke {read : ℕ → Option ℕ → P β} {γ : Type} {finish : List β → γ}
    (hread : ∀ val n v, some val ∈ inv → depth val ≤ n → (f val = none → E .abort) → Triple grants (isAmf val v)
      (read n (some v)) (fun r => given (f val = some r) (isAmf val v)) E)
    (hE : inv.mapM (argRead unset f) = none → E .abort) :
    Triple grants (isInvoke inv curElem a) (do
        let (nmemb, _, elem) ← invokeAt (some a)
        let rs ← readArgs unset (read (← size)) elem 0 nmemb
        return finish rs)
      (fun r => given ((inv.mapM (argRead unset f)).map finish = some r) (isInvoke inv curElem a)) E := by
  refine triple_lookInvoke fun q l hl => ?_
  refine triple_size.bind fun n => ?_
  refine Triple.of_mem (∀ val, some val ∈ inv → depth val ≤ n) ?_ fun hn => ?_
  · rintro own ⟨⟨own₁, -, own₂, ⟨own₃, -, own₄, h₄, rfl⟩, rfl⟩, hcard⟩ val hval
    have hdepth := depth_le_args h₄ hval
    simp only [Multiset.card_add] at hcard
    omega
  · refine Triple.pre ?_ fun own hown => hown.1
    rw [add_comm]
    have hargs := @triple_readArgs grants E β [] inv l q (read n) f unset
      (fun val v hval => hread val n v hval (hn val hval)) 0 rfl hE
    refine hargs.step fun rs => ?_
    rw [given_add, triple_given]
    intro hrs
    refine triple_pure (subset_given (by rw [hrs]; rfl) ?_)
    rw [add_comm]
    exact subset_isInvoke hl

theorem amfInvokeBufSize_eq (inv : Invoke) : Mayhem.amfInvokeBufSize inv =
    (inv.mapM (argRead 1 amfSize)).map List.sum := by
  induction inv with
  | nil => rfl
  | cons arg inv ih =>
    cases arg with
    | none =>
      rw [Mayhem.amfInvokeBufSize, ih, List.mapM_cons]
      cases List.mapM (argRead 1 amfSize) inv <;> rfl
    | some val =>
      rw [Mayhem.amfInvokeBufSize, ih, List.mapM_cons, argRead]
      cases amfSize val <;> cases List.mapM (argRead 1 amfSize) inv <;> rfl

theorem amfInvokeToBuf_eq (inv : Invoke) : Mayhem.amfInvokeToBuf inv =
    (inv.mapM (argRead [AMF_NULL] amfToBuf)).map List.flatten := by
  induction inv with
  | nil => rfl
  | cons arg inv ih =>
    cases arg with
    | none =>
      rw [Mayhem.amfInvokeToBuf, ih, List.mapM_cons]
      cases List.mapM (argRead [AMF_NULL] amfToBuf) inv <;> rfl
    | some val =>
      rw [Mayhem.amfInvokeToBuf, ih, List.mapM_cons, argRead]
      cases amfToBuf val <;> cases List.mapM (argRead [AMF_NULL] amfToBuf) inv <;> rfl

theorem triple_amfInvokeBufSize (hE : Mayhem.amfInvokeBufSize inv = none → E .abort) :
    Triple grants (isInvoke inv curElem a) (amfInvokeBufSize (some a))
      (fun r => given (Mayhem.amfInvokeBufSize inv = some r) (isInvoke inv curElem a)) E := by
  rw [amfInvokeBufSize_eq] at hE ⊢
  exact triple_readInvoke (fun val n v _ hn hfail => triple_amfSizeIn val v hn hfail)
    fun h => hE (Option.map_eq_none_iff.mpr h)

/-- `amf_invoke_to_buf` on the blocks of an invoke. -/
theorem triple_amfInvokeToBuf (hE : Mayhem.amfInvokeToBuf inv = none → E .abort)
    (hlong : ¬ inv.Short → E .wild) :
    Triple grants (isInvoke inv curElem a) (amfInvokeToBuf (some a))
      (fun r => given (Mayhem.amfInvokeToBuf inv = some r) (isInvoke inv curElem a)) E := by
  rw [amfInvokeToBuf_eq] at hE ⊢
  refine triple_readInvoke (fun val n v hval hn hfail => triple_amfToBufIn val v hn hfail ?_)
    fun h => hE (Option.map_eq_none_iff.mpr h)
  exact fun hval' => hlong fun hshort => hval' (hshort val hval)

end Invokes

end Mayhem.Blocks
