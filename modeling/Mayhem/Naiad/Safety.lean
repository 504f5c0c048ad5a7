import Mathlib.Logic.Basic
import Mathlib.Tactic.ByContra
import Mayhem.Naiad.Invoke

/-! Which invokes crash a session. -/
namespace Mayhem.Naiad

open Program

/-- Between `rtmp_connected` and the loss of the connection. -/
structure Session.Live (m : Session) : Prop where
  rtmp : m.rtmp = true
  ns : ∃ ns, m.ns = some ns

/-- No slot is NULL. -/
def Full (inv : Invoke) : Prop := ∀ a ∈ inv, a ≠ none

/-- The results that a callback may have. -/
def Bit (r : ℤ) (_ : Session) : Prop := r = 0 ∨ r = 1

theorem Full.get {inv : Invoke} (h : Full inv) {i : ℕ} (hi : i < amfInvokeNargs inv) :
    ∃ a, amfInvokeGet inv i = some a := by
  have hi : i < inv.length := hi
  have hget : amfInvokeGet inv i = inv[i] := by rw [amfInvokeGet, List.getElem?_eq_getElem hi]; rfl
  rw [hget]
  exact Option.ne_none_iff_exists'.mp (h _ (List.getElem_mem hi))

/-! ### Accessors -/

@[simp] theorem amfType_some (a : Amf) : amfType (some a) = .ok a.type := rfl

theorem typeMismatch_cases (l : List (Amf × UInt8)) :
    typeMismatch (l.map fun e => (some e.1, e.2)) = .ok true ∨
      typeMismatch (l.map fun e => (some e.1, e.2)) = .ok false ∧ ∀ e ∈ l, e.1.type = e.2 := by
  induction l with
  | nil => exact .inr ⟨rfl, nofun⟩
  | cons e l ih =>
    have hrun : typeMismatch ((e :: l).map fun e => (some e.1, e.2)) =
      if e.1.type ≠ e.2 then .ok true else typeMismatch (l.map fun e => (some e.1, e.2)) := rfl
    rw [hrun]
    by_cases htype : e.1.type = e.2
    · rw [if_neg (fun h => h htype)]
      exact ih.imp_right fun h => ⟨h.1, List.forall_mem_cons.mpr ⟨htype, h.2⟩⟩
    · rw [if_pos htype]
      exact .inl rfl

theorem type_eq_number {a : Amf} (h : a.type = AMF_NUMBER) : ∃ num, a = .number num := by
  cases a with
  | number num => exact ⟨num, rfl⟩
  | _ => exact absurd h (by rw [Amf.type]; decide)

theorem type_eq_string {a : Amf} (h : a.type = AMF_STRING) : ∃ str, a = .string str := by
  cases a with
  | string str => exact ⟨str, rfl⟩
  | _ => exact absurd h (by rw [Amf.type]; decide)

theorem type_eq_object {a : Amf} (h : a.type = AMF_OBJECT) : ∃ elem, a = .object elem := by
  cases a with
  | object elem => exact ⟨elem, rfl⟩
  | _ => exact absurd h (by rw [Amf.type]; decide)

theorem objectGetNumber_object (elem : List (CStr × Amf)) (name : CStr) (dflt : UInt64) :
    ∃ num, amfObjectGetNumber (some (.object elem)) name dflt = .ok num := by
  have hget : amfObjectGet (some (.object elem)) name = .ok (elem.lookup name) := rfl
  unfold amfObjectGetNumber
  rw [hget]
  cases hlookup : elem.lookup name with
  | none => exact ⟨dflt, rfl⟩
  | some a => cases a <;> exact ⟨_, rfl⟩

theorem objectGetString_object (elem : List (CStr × Amf)) (name : CStr) :
    amfObjectGetString (some (.object elem)) name none =
      .ok (match elem.lookup name with
        | some (.string str) => str
        | _ => none) := by
  have hrun : amfObjectGetString (some (.object elem)) name none =
      match elem.lookup name with
      | some (.string str) => .ok str
      | _ => .ok none := rfl
  rw [hrun]
  split <;> rfl

/-! ### Effects on a live session -/

section Effects

variable {m : Session} {P : Unit → Session → Prop}

theorem ends_owner {callback : MayhemOps → Bool} {ev : Call Event} :
    Ends (owner callback ev) m P ↔
      if (m.ops.map callback).getD false then
        Ends ev m fun e m' => P () { m' with events := m'.events ++ [e] }
      else P () m := by
  simp only [owner, ends_bind, ends_get, ends_ite, ends_modify, ends_pure]

/-- A callback whose arguments are there. -/
theorem ends_owner_pure {callback : MayhemOps → Bool} {e : Event}
    (hP : ∀ m', m'.rtmp = m.rtmp → m'.ns = m.ns → P () m') :
    Ends (owner callback (pure e)) m P := by
  rw [ends_owner]
  split
  · exact hP _ rfl rfl
  · exact hP m rfl rfl

/-- The types of a handler's arguments are checked first. -/
theorem ends_typed {k : Call ℤ} (l : List (Amf × UInt8))
    (hk : (∀ e ∈ l, e.1.type = e.2) → Ends k m Bit) :
    Ends (do
      let mismatch ← typeMismatch (l.map fun e => (some e.1, e.2))
      if mismatch then return 0 else k : Call ℤ) m Bit := by
  rw [ends_bind, ends_lift]
  obtain hrun | ⟨hrun, htypes⟩ := typeMismatch_cases l
  · exact ⟨true, hrun, .inl rfl⟩
  · refine ⟨false, hrun, ?_⟩
    rw [if_neg Bool.false_ne_true]
    exact hk htypes

theorem ends_mayhemAbort (hP : ∀ m', P () m') : Ends mayhemAbort m P := hP _

theorem ends_flexInvoke {chan : ℕ} {dest : UInt32} {inv : Invoke} {P : Bool → Session → Prop}
    (hm : m.Live) (hsent : ∀ m', m'.Live → P true m') (hfailed : ∀ m', P false m') :
    Ends (rtmpFlexInvoke chan dest inv) m P := by
  rw [rtmpFlexInvoke, ends_bind, ends_get, if_pos hm.rtmp, ends_bind, ends_modify]
  split
  · exact hsent _ ⟨hm.rtmp, hm.ns⟩
  · exact hfailed _
  · rw [rtmpDied, ends_bind, ends_bind]
    exact ends_owner_pure fun m' _ _ => ends_mayhemAbort fun m' => hfailed m'

theorem ends_derefNs {P : Netstatus → Session → Prop} {ns : Netstatus} (h : m.ns = some ns) :
    Ends derefNs m P ↔ P ns m := by
  simp only [derefNs, ends_bind, ends_get, h, ends_pure]

theorem ends_setNsState {state : NetstatusState} (hm : m.Live) (hP : ∀ m', m'.Live → P () m') :
    Ends (setNsState state) m P := by
  obtain ⟨ns, hns⟩ := hm.ns
  rw [setNsState, ends_bind, ends_derefNs hns, ends_modify]
  exact hP _ ⟨hm.rtmp, _, rfl⟩

theorem ends_createstream {num : UInt64} {P : Bool → Session → Prop} (hm : m.Live)
    (hP : ∀ b m', P b m') : Ends (netstatusCreatestream num) m P := by
  obtain ⟨ns, hns⟩ := hm.ns
  rw [netstatusCreatestream, ends_bind, ends_derefNs hns, ends_bind]
  refine ends_flexInvoke hm (fun m' hm' => ?_) fun m' => hP false m'
  rw [if_pos rfl, ends_bind]
  exact ends_setNsState hm' fun m' _ => hP true m'

theorem ends_play {obj : Amf} {streamId : UInt32} {P : Bool → Session → Prop} (hm : m.Live)
    (hP : ∀ b m', P b m') : Ends (netstatusPlay obj streamId) m P := by
  obtain ⟨ns, hns⟩ := hm.ns
  rw [netstatusPlay, ends_bind, ends_derefNs hns, ends_bind]
  refine ends_flexInvoke hm (fun m' hm' => ?_) fun m' => hP false m'
  rw [if_pos rfl, ends_bind]
  exact ends_setNsState hm' fun m' _ => hP true m'

/-- What every caller does with the outcome of a send. -/
theorem ends_abort_unless {ret : Bool} (hP : ∀ m', P () m') :
    Ends (unless ret do mayhemAbort) m P := by
  cases ret <;> exact hP _

end Effects

/-! ### Results -/

section Results

variable {m : Session} {inv : Invoke}

theorem call_ends (hm : m.Live) (n : Notify) : Ends n.call m fun _ _ => True := by
  cases n with
  | connected =>
    rw [Notify.call, streamConnected, ends_bind, ends_modify, ends_bind, ends_get]
    split
    · exact trivial
    · rw [ends_bind]
      exact ends_createstream ⟨hm.rtmp, hm.ns⟩ fun ret m => ends_abort_unless fun _ => trivial
  | connectError code desc =>
    rw [Notify.call, connectError, ends_bind]
    exact ends_owner_pure fun _ _ _ => ends_mayhemAbort fun _ => trivial
  | streamCreated streamId =>
    rw [Notify.call, streamCreated, ends_bind, ends_modify, ends_bind, ends_get, ends_bind]
    exact ends_play ⟨hm.rtmp, hm.ns⟩ fun ret m => ends_abort_unless fun _ => trivial
  | start =>
    rw [Notify.call, start, ends_bind]
    exact ends_flexInvoke hm (fun _ _ => ends_owner_pure fun _ _ _ => trivial)
      fun _ => ends_owner_pure fun _ _ _ => trivial
  | stop => exact ends_owner_pure fun _ _ _ => trivial
  | reset => exact ends_owner_pure fun _ _ _ => trivial
  | playError code desc =>
    rw [Notify.call, playErrorCb, ends_bind]
    exact ends_owner_pure fun _ _ _ => ends_mayhemAbort fun _ => trivial

/-- What every handler does: set the state, and call back. -/
theorem enter_ends (hm : m.Live) (state : NetstatusState) (n : Notify) :
    Ends (do
      sessionOps.setState state
      sessionOps.notify n
      return 1 : Call ℤ) m Bit := by
  rw [ends_bind]
  refine ends_setNsState hm fun m hm => ?_
  rw [ends_bind]
  exact (call_ends hm n).mono fun _ _ _ => .inr rfl

theorem stdResultTable_ends (hm : m.Live) (ev : NetstatusEvent) :
    ∀ e ∈ stdResultTable sessionOps, ∀ fn ∈ e.2, Ends (fn ev) m Bit := by
  have henter := enter_ends hm
  simp only [stdResultTable, List.forall_mem_cons, Option.mem_def, Option.some.injEq, forall_eq',
    reduceCtorEq, false_implies, implies_true, true_and, List.not_mem_nil, and_true]
  exact ⟨henter _ _, henter _ _, henter _ _, henter _ _, henter _ _, henter _ _, henter _ _,
    henter _ _, henter _ _, henter _ _⟩

theorem dispatchCode_ends {st : NetstatusEvent} {code : CStr} (hcode : st.code = some code)
    {disp : List (CStr × Option (NetstatusEvent → Call ℤ))}
    (h : ∀ e ∈ disp, ∀ fn ∈ e.2, Ends (fn st) m Bit) : Ends (dispatchCode st disp) m Bit := by
  induction disp with
  | nil => exact .inl rfl
  | cons e disp ih =>
    obtain ⟨name, fn⟩ := e
    have hrest := ih fun e he => h e (List.mem_cons_of_mem _ he)
    cases fn with
    | none =>
      rw [dispatchCode, hcode, ends_bind, ends_lift]
      refine ⟨_, rfl, ?_⟩
      split
      · exact .inr rfl
      · exact hrest
    | some fn =>
      rw [dispatchCode, hcode, ends_bind, ends_lift]
      refine ⟨_, rfl, ?_⟩
      split
      · exact h _ List.mem_cons_self fn rfl
      · exact hrest

/-- `st.code` for an object. -/
def statusCode (elem : List (CStr × Amf)) : Option CStr :=
  match elem.lookup (cstr "code") with
  | some (.string str) => str
  | _ => none

/-- A result without a code. -/
structure NoCode (inv : Invoke) : Prop where
  nargs : 4 ≤ amfInvokeNargs inv
  rc : ∃ num, amfInvokeGet inv 1 = some (.number num)
  stat : ∃ elem, amfInvokeGet inv 3 = some (.object elem) ∧ statusCode elem = none

theorem ripStatus_object (elem : List (CStr × Amf)) :
    ∃ st, ripStatus (some (.object elem)) = .ok st ∧ st.code = statusCode elem := by
  rw [ripStatus, objectGetString_object, objectGetString_object, objectGetString_object,
    objectGetString_object]
  exact ⟨_, rfl, rfl⟩

theorem stdResult_ends (hm : m.Live) (hinv : Full inv) (h : ¬ NoCode inv) :
    Ends (stdResult sessionOps inv) m Bit := by
  rw [stdResult, ends_ite]
  split
  · exact .inl rfl
  rename_i hnargs
  obtain ⟨rc, hrc⟩ := hinv.get (i := 1) (by omega)
  obtain ⟨stat, hstat⟩ := hinv.get (i := 3) (by omega)
  rw [hrc, hstat]
  apply ends_typed [(rc, AMF_NUMBER), (stat, AMF_OBJECT)]
  intro htypes
  simp only [List.forall_mem_cons] at htypes
  obtain ⟨num, rfl⟩ := type_eq_number htypes.1
  obtain ⟨elem, rfl⟩ := type_eq_object htypes.2.1
  obtain ⟨st, hst, hcode⟩ := ripStatus_object elem
  obtain ⟨code, hcode'⟩ := Option.ne_none_iff_exists'.mp fun hcode =>
    h ⟨Nat.not_lt.mp hnargs, ⟨num, hrc⟩, elem, hstat, hcode⟩
  rw [ends_bind, ends_lift]
  refine ⟨num, rfl, ?_⟩
  rw [ends_bind, ends_lift]
  exact ⟨st, hst, dispatchCode_ends (hcode.trans hcode') (stdResultTable_ends hm st)⟩

theorem stdResult_crashes {P : ℤ → Session → Prop} (h : NoCode inv) :
    ¬ Ends (stdResult sessionOps inv) m P := by
  obtain ⟨hnargs, ⟨num, hrc⟩, elem, hstat, hcode⟩ := h
  obtain ⟨st, hst, hcode'⟩ := ripStatus_object elem
  rw [stdResult, if_neg (Nat.not_lt.mpr hnargs), hrc, hstat, ends_bind, ends_lift]
  rintro ⟨_, ⟨⟩, h⟩
  rw [if_neg Bool.false_ne_true, ends_bind, ends_lift] at h
  obtain ⟨_, ⟨⟩, h⟩ := h
  rw [ends_bind, ends_lift, hst] at h
  obtain ⟨_, ⟨⟩, h⟩ := h
  rw [stdResultTable, dispatchCode, hcode', hcode, ends_bind, ends_lift] at h
  obtain ⟨_, ⟨⟩, -⟩ := h

theorem createResult_ends [Casts] (hm : m.Live) (hinv : Full inv) :
    Ends (createResult sessionOps inv) m Bit := by
  rw [createResult, ends_ite]
  split
  · exact .inl rfl
  rename_i hnargs
  obtain ⟨rc, hrc⟩ := hinv.get (i := 1) (by omega)
  obtain ⟨id, hid⟩ := hinv.get (i := 3) (by omega)
  rw [hrc, hid]
  apply ends_typed [(rc, AMF_NUMBER), (id, AMF_NUMBER)]
  intro htypes
  simp only [List.forall_mem_cons] at htypes
  obtain ⟨num, rfl⟩ := type_eq_number htypes.2.1
  rw [ends_bind, ends_lift]
  refine ⟨num, rfl, ?_⟩
  exact enter_ends hm .created (.streamCreated (toUnsigned num))

end Results

/-! ### Handlers -/

section Handlers

variable {m : Session} {inv : Invoke}

/-- `NaiadAuthorized` with everything it is checked for, and an empty string for a number. -/
structure NoSid (m : Session) (inv : Invoke) : Prop where
  callback : ∃ ops, m.ops = some ops ∧ ops.naiadAuthorize = true
  nargs : 26 ≤ amfInvokeNargs inv
  rc : ∃ num, amfInvokeGet inv 1 = some (.number num)
  nick : ∃ str, amfInvokeGet inv 6 = some (.string str)
  bitch : ∃ str, amfInvokeGet inv 7 = some (.string str)
  sid : amfInvokeGet inv 12 = some (.string none)
  room : ∃ elem, amfInvokeGet inv 25 = some (.object elem)

/-- `NaiadUserList` with another value than an object at its end. -/
structure NoObject (inv : Invoke) : Prop where
  nargs : 5 ≤ amfInvokeNargs inv
  last : ∀ elem, amfInvokeGet inv (amfInvokeNargs inv - 1) ≠ some (.object elem)

/-- `NaiadSet` without a path, or with an empty one. -/
def NoPath (inv : Invoke) : Prop :=
  amfInvokeNargs inv < 4 ∨ amfInvokeGet inv 3 = some (.string none)

theorem atoi_some (s : CStr) : ∃ i, atoi (some s) = .ok i := ⟨_, rfl⟩

theorem iAuth_ends [Casts] (hm : m.Live) (hinv : Full inv) (h : ¬ NoSid m inv) :
    Ends (iAuth inv) m Bit := by
  rw [iAuth, ends_ite]
  split
  · exact .inl rfl
  rename_i hnargs
  obtain ⟨rc, hrc⟩ := hinv.get (i := 1) (by omega)
  obtain ⟨nick, hnick⟩ := hinv.get (i := 6) (by omega)
  obtain ⟨bitch, hbitch⟩ := hinv.get (i := 7) (by omega)
  obtain ⟨sid, hsid⟩ := hinv.get (i := 12) (by omega)
  obtain ⟨room, hroom⟩ := hinv.get (i := 25) (by omega)
  rw [hrc, hnick, hbitch, hsid, hroom]
  apply ends_typed [(rc, AMF_NUMBER), (nick, AMF_STRING), (bitch, AMF_STRING), (sid, AMF_STRING),
    (room, AMF_OBJECT)]
  intro htypes
  simp only [List.forall_mem_cons] at htypes
  obtain ⟨hrcType, hnickType, hbitchType, hsidType, hroomType, -⟩ := htypes
  obtain ⟨num, rfl⟩ := type_eq_number hrcType
  obtain ⟨nick, rfl⟩ := type_eq_string hnickType
  obtain ⟨bitch, rfl⟩ := type_eq_string hbitchType
  obtain ⟨sid, rfl⟩ := type_eq_string hsidType
  obtain ⟨elem, rfl⟩ := type_eq_object hroomType
  rw [ends_bind, ends_lift]
  refine ⟨_, objectGetString_object elem _, ?_⟩
  rw [ends_bind, ends_lift]
  obtain ⟨flags, hflags⟩ := objectGetNumber_object elem (cstr "flags") 0
  refine ⟨flags, hflags, ?_⟩
  rw [ends_bind, ends_modify, ends_bind, ends_owner]
  -- what follows the callback of the owner
  have hrest : ∀ m' : Session, m'.Live → Ends (do
      let m ← get
      if isPremium m then
        let code ← amfGetNumber (some (.number num))
        let ret ← authResult code
        unless ret do mayhemAbort
      return 1 : Call ℤ) m' Bit := fun m' hm' => by
    rw [ends_bind, ends_get]
    split
    · rw [ends_bind, ends_lift]
      refine ⟨num, rfl, ?_⟩
      rw [ends_bind, authResult]
      refine ends_flexInvoke hm' (fun _ _ => .inr rfl) fun m => ?_
      rw [if_neg Bool.false_ne_true, ends_bind]
      exact ends_mayhemAbort fun _ => .inr rfl
    · exact .inr rfl
  split
  · rename_i hcallback
    cases sid with
    | none =>
      refine absurd ⟨?_, Nat.not_lt.mp hnargs, ⟨num, hrc⟩, ⟨nick, hnick⟩, ⟨bitch, hbitch⟩, hsid,
        elem, hroom⟩ h
      cases hops : m.ops with
      | none => simp [hops] at hcallback
      | some ops => exact ⟨ops, rfl, by simpa [hops] using hcallback⟩
    | some s =>
      obtain ⟨i, hi⟩ := atoi_some s
      simp only [ends_bind, ends_lift, ends_pure]
      exact ⟨num, rfl, nick, rfl, bitch, rfl, some s, rfl, i, hi, hrest _ ⟨hm.rtmp, hm.ns⟩⟩
  · exact hrest _ ⟨hm.rtmp, hm.ns⟩

theorem iAuth_crashes [Casts] {P : ℤ → Session → Prop} (h : NoSid m inv) :
    ¬ Ends (iAuth inv) m P := by
  obtain ⟨⟨ops, hops, hcallback⟩, hnargs, ⟨num, hrc⟩, ⟨nick, hnick⟩, ⟨bitch, hbitch⟩, hsid, elem,
    hroom⟩ := h
  rw [iAuth, if_neg (Nat.not_lt.mpr hnargs), hrc, hnick, hbitch, hsid, hroom, ends_bind, ends_lift]
  rintro ⟨_, ⟨⟩, h⟩
  rw [if_neg Bool.false_ne_true, ends_bind, ends_lift] at h
  obtain ⟨topic, -, h⟩ := h
  rw [ends_bind, ends_lift] at h
  obtain ⟨flags, -, h⟩ := h
  rw [ends_bind, ends_modify, ends_bind, ends_owner, if_pos (by simpa [hops] using hcallback)] at h
  simp only [ends_bind, ends_lift] at h
  obtain ⟨_, -, _, -, _, -, _, ⟨⟩, _, ⟨⟩, -⟩ := h

theorem iFreeze_ends [Casts] (hinv : Full inv) : Ends (iFreeze inv) m Bit := by
  rw [iFreeze, ends_ite]
  split
  · exact .inl rfl
  rename_i hnargs
  obtain ⟨rc, hrc⟩ := hinv.get (i := 1) (by omega)
  obtain ⟨desc, hdesc⟩ := hinv.get (i := 4) (by omega)
  rw [hrc, hdesc]
  apply ends_typed [(rc, AMF_NUMBER), (desc, AMF_STRING)]
  intro htypes
  simp only [List.forall_mem_cons] at htypes
  obtain ⟨num, rfl⟩ := type_eq_number htypes.1
  obtain ⟨desc, rfl⟩ := type_eq_string htypes.2.1
  rw [ends_bind, ends_modify, ends_bind, ends_owner]
  split
  · simp only [ends_bind, ends_lift, ends_pure]
    exact ⟨num, rfl, desc, rfl, .inr rfl⟩
  · exact .inr rfl

theorem userParse_ok [Casts] (obj : Option Amf) : ∃ usr, userParse obj = .ok usr := by
  rw [userParse]
  cases obj with
  | none => exact ⟨{}, rfl⟩
  | some a =>
    by_cases htype : a.type = AMF_OBJECT
    · obtain ⟨elem, rfl⟩ := type_eq_object htype
      obtain ⟨flags, hflags⟩ := objectGetNumber_object elem (cstr "flags") 0
      rw [if_neg (by simp), amfType_some, hflags, objectGetString_object, objectGetString_object]
      exact ⟨_, rfl⟩
    · rw [if_neg (by simp), amfType_some]
      refine ⟨{}, ?_⟩
      change (if a.type ≠ AMF_OBJECT then _ else _) = _
      rw [if_pos htype]
      rfl

theorem parseUsers_ok [Casts] (inv : Invoke) (n : ℕ) :
    ∀ i, ∃ usr, parseUsers inv i n = .ok usr := by
  induction n with
  | zero => exact fun i => ⟨[], rfl⟩
  | succ n ih =>
    intro i
    obtain ⟨usr, husr⟩ := userParse_ok (amfInvokeGet inv i)
    obtain ⟨rest, hrest⟩ := ih (i + 1)
    rw [parseUsers, husr, hrest]
    exact ⟨_, rfl⟩

theorem iUserlist_ends [Casts] (h : ¬ NoObject inv) : Ends (iUserlist inv) m Bit := by
  rw [iUserlist, ends_ite]
  split
  · exact .inl rfl
  rename_i hnargs
  obtain ⟨elem, hobj⟩ :
      ∃ elem, amfInvokeGet inv (amfInvokeNargs inv - 1) = some (.object elem) := by
    by_contra hobj
    exact h ⟨Nat.not_lt.mp hnargs, fun elem helem => hobj ⟨elem, helem⟩⟩
  obtain ⟨ac, hac⟩ := objectGetNumber_object elem (cstr "ac") 0
  obtain ⟨usr, husr⟩ := parseUsers_ok inv (amfInvokeNargs inv - 5) 3
  simp only [hobj, ends_bind, ends_lift]
  exact ⟨ac, hac, usr, husr, ends_owner_pure fun _ _ _ => .inr rfl⟩

theorem iUserlist_crashes [Casts] {P : ℤ → Session → Prop} (hinv : Full inv) (h : NoObject inv) :
    ¬ Ends (iUserlist inv) m P := by
  obtain ⟨hnargs, hlast⟩ := h
  obtain ⟨a, ha⟩ := hinv.get (i := amfInvokeNargs inv - 1) (by omega)
  rw [iUserlist, if_neg (Nat.not_lt.mpr hnargs)]
  simp only [ha, ends_bind, ends_lift]
  rintro ⟨ac, hac, -⟩
  cases a with
  | object elem => exact hlast elem ha
  | _ => cases hac

theorem iChat_ends (hinv : Full inv) : Ends (iChat inv) m Bit := by
  rw [iChat, ends_ite]
  split
  · exact .inl rfl
  rename_i hnargs
  obtain ⟨user, huser⟩ := hinv.get (i := 4) (by omega)
  obtain ⟨chat, hchat⟩ := hinv.get (i := 5) (by omega)
  rw [huser, hchat, if_neg (by simp)]
  apply ends_typed [(user, AMF_STRING), (chat, AMF_STRING)]
  intro htypes
  simp only [List.forall_mem_cons] at htypes
  obtain ⟨user, rfl⟩ := type_eq_string htypes.1
  obtain ⟨chat, rfl⟩ := type_eq_string htypes.2.1
  rw [ends_bind, ends_owner]
  split
  · simp only [ends_bind, ends_lift, ends_pure]
    exact ⟨user, rfl, chat, rfl, .inr rfl⟩
  · exact .inr rfl

/-- The checks of a handler whose argument is an object. -/
theorem ends_object (hinv : Full inv) {k : Call ℤ}
    (hk : ∀ elem, amfInvokeGet inv 3 = some (.object elem) → Ends k m Bit) :
    Ends (if amfInvokeNargs inv < 4 then return 0
      else do
        let obj := amfInvokeGet inv 3
        if obj.isNone then return 0
        else
          let type ← amfType obj
          if type ≠ AMF_OBJECT then return 0 else k : Call ℤ) m Bit := by
  rw [ends_ite]
  split
  · exact .inl rfl
  rename_i hnargs
  obtain ⟨obj, hobj⟩ := hinv.get (i := 3) (by omega)
  rw [hobj, if_neg (by simp), ends_bind, ends_lift]
  refine ⟨obj.type, rfl, ?_⟩
  rw [ends_ite]
  split
  · exact .inl rfl
  rename_i htype
  obtain ⟨elem, rfl⟩ := type_eq_object (not_ne_iff.mp htype)
  exact hk elem hobj

theorem iPregold_ends [Casts] (hinv : Full inv) : Ends (iPregold inv) m Bit := by
  apply ends_object hinv
  intro elem hobj
  have hnum := fun name => objectGetNumber_object elem name 0
  simp only [hobj, ends_bind, ends_lift, objectGetString_object]
  obtain ⟨duration, hduration⟩ := hnum (cstr "duration")
  obtain ⟨id, hid⟩ := hnum (cstr "id")
  obtain ⟨maxwait, hmaxwait⟩ := hnum (cstr "maxwait")
  obtain ⟨minbuyin, hminbuyin⟩ := hnum (cstr "minbuyin")
  obtain ⟨pledged, hpledged⟩ := hnum (cstr "pledged")
  obtain ⟨pledgedamt, hpledgedamt⟩ := hnum (cstr "pledgedamt")
  obtain ⟨requestedamt, hrequestedamt⟩ := hnum (cstr "requestedamt")
  obtain ⟨timetostart, htimetostart⟩ := hnum (cstr "timetostart")
  obtain ⟨total, htotal⟩ := hnum (cstr "total")
  refine ⟨duration, hduration, id, hid, maxwait, hmaxwait, minbuyin, hminbuyin, pledged, hpledged,
    pledgedamt, hpledgedamt, requestedamt, hrequestedamt, _, rfl, timetostart, htimetostart, total,
    htotal, ?_⟩
  exact ends_owner_pure fun _ _ _ => .inr rfl

theorem iPledgeGold_ends (hinv : Full inv) : Ends (iPledgeGold inv) m Bit := by
  apply ends_object hinv
  intro elem hobj
  obtain ⟨a, ha⟩ := objectGetNumber_object elem (cstr "amount") 0
  obtain ⟨s, hs⟩ := objectGetNumber_object elem (cstr "status") 0
  simp only [hobj, ends_bind, ends_lift]
  refine ⟨a, ha, s, hs, ?_⟩
  exact ends_owner_pure fun _ _ _ => .inr rfl

theorem iSet_ends (hm : m.Live) (hinv : Full inv) (h : ¬ NoPath inv) : Ends (iSet inv) m Bit := by
  rw [NoPath, not_or, Nat.not_lt] at h
  obtain ⟨hnargs, hpath⟩ := h
  obtain ⟨a, ha⟩ := hinv.get (i := 3) (by omega)
  rw [iSet, ha, ends_bind, ends_lift]
  refine ⟨a.type, rfl, ?_⟩
  have hrest : ∀ m' : Session, m'.Live → Ends (do
      let ret ← netstatusCreatestream CREATE_STREAM_NUM
      unless ret do mayhemAbort
      return 1 : Call ℤ) m' Bit := fun m' hm' => by
    rw [ends_bind]
    exact ends_createstream hm' fun ret m => by cases ret <;> exact .inr rfl
  by_cases htype : a.type = AMF_STRING
  · obtain ⟨str, rfl⟩ := type_eq_string htype
    obtain ⟨path, rfl⟩ := Option.ne_none_iff_exists'.mp fun hstr => hpath (hstr ▸ ha)
    rw [if_pos htype, ends_bind, ends_lift]
    refine ⟨some path, rfl, ?_⟩
    rw [ends_bind, ends_lift]
    refine ⟨path, rfl, ?_⟩
    rw [ends_bind, ends_modify]
    exact hrest _ ⟨hm.rtmp, hm.ns⟩
  · rw [if_neg htype]
    exact hrest m hm

theorem iSet_crashes {P : ℤ → Session → Prop} (h : NoPath inv) : ¬ Ends (iSet inv) m P := by
  rcases h with hnargs | hpath
  · have hnone : amfInvokeGet inv 3 = none := by
      have hlen : inv.length ≤ 3 := by
        rw [amfInvokeNargs] at hnargs
        omega
      rw [amfInvokeGet, List.getElem?_eq_none hlen]
      rfl
    rw [iSet, hnone, ends_bind, ends_lift]
    rintro ⟨_, ⟨⟩, -⟩
  · rw [iSet, hpath, ends_bind, ends_lift]
    rintro ⟨_, ⟨⟩, h⟩
    simp only [Amf.type, if_true, ends_bind, ends_lift] at h
    obtain ⟨_, ⟨⟩, _, ⟨⟩, -⟩ := h

end Handlers

/-! ### Tables of methods -/

section Tables

variable {m : Session} {inv : Invoke} {P : ℤ → Session → Prop} {name : CStr}

theorem dispatchTable_mem {tbl : List (CStr × (Invoke → Call ℤ))}
    (hnodup : (tbl.map Prod.fst).Nodup) {call : Invoke → Call ℤ} (h : (name, call) ∈ tbl) :
    Ends (dispatchTable (some name) inv tbl) m P ↔
      Ends (call inv) m fun r m' => P (if r = 0 then -1 else 1) m' := by
  induction tbl with
  | nil => cases h
  | cons e tbl ih =>
    obtain ⟨key, call'⟩ := e
    rw [List.map_cons, List.nodup_cons] at hnodup
    rw [dispatchTable, ends_bind, ends_lift]
    rcases List.mem_cons.mp h with he | h
    · obtain ⟨rfl, rfl⟩ := Prod.mk.inj he
      have hrun : streq name (some name) = .ok true := congrArg Except.ok (decide_eq_true rfl)
      simp only [hrun, Except.ok.injEq, exists_eq_left', if_true, ends_bind, ends_pure]
    · have hne : key ≠ name := fun hkey =>
        hnodup.1 (List.mem_map.mpr ⟨(name, call), h, hkey.symm⟩)
      have hrun : streq key (some name) = .ok false := congrArg Except.ok (decide_eq_false hne)
      simp only [hrun, Except.ok.injEq, exists_eq_left', Bool.false_eq_true, if_false]
      exact ih hnodup.2 h

theorem dispatchTable_not_mem {tbl : List (CStr × (Invoke → Call ℤ))}
    (h : name ∉ tbl.map Prod.fst) : Ends (dispatchTable (some name) inv tbl) m P ↔ P 0 m := by
  induction tbl with
  | nil => exact Iff.rfl
  | cons e tbl ih =>
    obtain ⟨key, call⟩ := e
    rw [List.map_cons, List.mem_cons, not_or] at h
    have hrun : streq key (some name) = .ok false :=
      congrArg Except.ok (decide_eq_false (Ne.symm h.1))
    rw [dispatchTable, ends_bind, ends_lift]
    simp only [hrun, Except.ok.injEq, exists_eq_left', Bool.false_eq_true, if_false]
    exact ih h.2

theorem naiadTable_keys [Casts] : naiadTable.map Prod.fst =
    [cstr "NaiadFreeze", cstr "NaiadAuthorized", cstr "NaiadUserList", cstr "NaiadAddChat",
      cstr "NaiadPledgeGold", cstr "NaiadPreGoldShow", cstr "NaiadSet"] := rfl

theorem naiadTable_nodup [Casts] : (naiadTable.map Prod.fst).Nodup := by
  rw [naiadTable_keys]
  decide

theorem netstatusTable_keys [Casts] {M : Type → Type} [Monad M] [MonadLiftT (Except Crash) M]
    (ops : Netops M) : (netstatusTable ops).map Prod.fst =
      [cstr "_result", cstr "_error", cstr "onStatus", cstr "close"] := rfl

theorem netstatusTable_nodup [Casts] : ((netstatusTable sessionOps).map Prod.fst).Nodup := by
  rw [netstatusTable_keys]
  decide

/-- No method is in both tables. -/
theorem netstatusTable_apart [Casts] :
    ∀ name ∈ (netstatusTable sessionOps).map Prod.fst, name ∉ naiadTable.map Prod.fst := by
  rw [netstatusTable_keys, naiadTable_keys]
  decide

theorem nargs_pos {a : Amf} (h : amfInvokeGet inv 0 = some a) : ¬ amfInvokeNargs inv < 1 := by
  rintro hnargs
  have hnil : inv = [] := List.eq_nil_of_length_eq_zero (Nat.lt_one_iff.mp hnargs)
  rw [hnil] at h
  cases h

/-- A table and what `invoke` makes of its outcome. -/
theorem invoke_string [Casts] {str : Option CStr} (h : amfInvokeGet inv 0 = some (.string str)) :
    Ends (invoke inv) m P ↔ Ends (naiadDispatch inv str) m fun r m' =>
      if r < 0 then P 0 m' else if r ≠ 0 then P 1 m' else
        Ends (dispatchTable str inv (netstatusTable sessionOps)) m' fun r m' =>
          if r < 0 then P 0 m' else if r = 0 then P 0 m' else P 1 m' := by
  rw [invoke, if_neg (nargs_pos h)]
  simp only [h, Option.isNone_some, Bool.false_eq_true, if_false, ends_bind, ends_lift, ends_ite,
    ends_pure, amfType_some, Amf.type, ne_eq, not_true_eq_false, Except.ok.injEq, exists_eq_left',
    amfGetString, netstatusInvoke, if_neg (nargs_pos h)]

/-- A method of the first table. -/
theorem invoke_naiad [Casts] (h : amfInvokeGet inv 0 = some (.string (some name)))
    (call : Invoke → Call ℤ) (hcall : (name, call) ∈ naiadTable) :
    Ends (invoke inv) m P ↔ Ends (call inv) m fun r m' => P (if r = 0 then 0 else 1) m' := by
  rw [invoke_string h, naiadDispatch, dispatchTable_mem naiadTable_nodup hcall]
  refine ends_congr fun r m' => ?_
  by_cases hr : r = 0 <;> simp [hr]

/-- A method of the second table. -/
theorem invoke_netstatus [Casts] (h : amfInvokeGet inv 0 = some (.string (some name)))
    (call : Invoke → Call ℤ) (hcall : (name, call) ∈ netstatusTable sessionOps) :
    Ends (invoke inv) m P ↔ Ends (call inv) m fun r m' => P (if r = 0 then 0 else 1) m' := by
  have hnaiad := netstatusTable_apart name (List.mem_map_of_mem hcall)
  rw [invoke_string h, naiadDispatch, dispatchTable_not_mem hnaiad, if_neg (Int.lt_irrefl 0),
    if_neg (not_not.mpr rfl), dispatchTable_mem netstatusTable_nodup hcall]
  refine ends_congr fun r m' => ?_
  by_cases hr : r = 0 <;> simp [hr]

theorem invoke_unknown [Casts] (h : amfInvokeGet inv 0 = some (.string (some name)))
    (hnaiad : name ∉ naiadTable.map Prod.fst)
    (hnetstatus : name ∉ (netstatusTable sessionOps).map Prod.fst) :
    Ends (invoke inv) m P ↔ P 0 m := by
  rw [invoke_string h, naiadDispatch, dispatchTable_not_mem hnaiad, if_neg (Int.lt_irrefl 0),
    if_neg (not_not.mpr rfl), dispatchTable_not_mem hnetstatus, if_neg (Int.lt_irrefl 0),
    if_pos rfl]

theorem invoke_null [Casts] (h : amfInvokeGet inv 0 = some (.string none)) :
    ¬ Ends (invoke inv) m P := by
  rw [invoke_string h, naiadDispatch, naiadTable, dispatchTable, ends_bind, ends_lift]
  rintro ⟨_, ⟨⟩, -⟩

theorem invoke_no_string [Casts] (h : ∀ str, amfInvokeGet inv 0 ≠ some (.string str)) :
    Ends (invoke inv) m P ↔ P 0 m := by
  rw [invoke, ends_ite]
  split
  · exact Iff.rfl
  cases hmethod : amfInvokeGet inv 0 with
  | none => exact Iff.rfl
  | some a =>
    have htype : a.type ≠ AMF_STRING := fun htype => by
      obtain ⟨str, rfl⟩ := type_eq_string htype
      exact h str hmethod
    simp only [Option.isNone_some, Bool.false_eq_true, if_false, ends_bind, ends_lift, amfType_some,
      Except.ok.injEq, exists_eq_left', if_pos htype, ends_pure]

end Tables

/-! ### Invokes -/

/-- The invokes that crash a session. -/
inductive Fatal (m : Session) (inv : Invoke) : Prop
  | method : amfInvokeGet inv 0 = some (.string none) → Fatal m inv
  | authorized : amfInvokeGet inv 0 = some (.string (some (cstr "NaiadAuthorized"))) → NoSid m inv →
      Fatal m inv
  | userList : amfInvokeGet inv 0 = some (.string (some (cstr "NaiadUserList"))) → NoObject inv →
      Fatal m inv
  | set : amfInvokeGet inv 0 = some (.string (some (cstr "NaiadSet"))) → NoPath inv → Fatal m inv
  | result : amfInvokeGet inv 0 = some (.string (some (cstr "_result"))) →
      (∀ ns, m.ns = some ns → ns.state ≠ .createSent) → NoCode inv → Fatal m inv
  | error : amfInvokeGet inv 0 = some (.string (some (cstr "_error"))) → NoCode inv → Fatal m inv
  | onStatus : amfInvokeGet inv 0 = some (.string (some (cstr "onStatus"))) → NoCode inv →
      Fatal m inv

section Main

variable {m : Session} {inv : Invoke}

theorem bit_of_ret {c : Call ℤ} (h : Ends c m Bit) :
    Ends c m fun r m' => Bit (if r = 0 then 0 else 1) m' :=
  h.mono fun r _ _ => by
    by_cases hr : r = 0
    · exact .inl (if_pos hr)
    · exact .inr (if_neg hr)

theorem naiadTable_ends [Casts] (hm : m.Live) (hinv : Full inv) (h : ¬ Fatal m inv) {name : CStr}
    (hmethod : amfInvokeGet inv 0 = some (.string (some name))) {call : Invoke → Call ℤ}
    (hcall : (name, call) ∈ naiadTable) : Ends (call inv) m Bit := by
  simp only [naiadTable, List.mem_cons, Prod.mk.injEq, List.not_mem_nil, or_false] at hcall
  obtain ⟨rfl, rfl⟩ | ⟨rfl, rfl⟩ | ⟨rfl, rfl⟩ | ⟨rfl, rfl⟩ | ⟨rfl, rfl⟩ | ⟨rfl, rfl⟩ | ⟨rfl, rfl⟩ :=
    hcall
  · exact iFreeze_ends hinv
  · exact iAuth_ends hm hinv fun hbad => h (.authorized hmethod hbad)
  · exact iUserlist_ends fun hbad => h (.userList hmethod hbad)
  · exact iChat_ends hinv
  · exact iPledgeGold_ends hinv
  · exact iPregold_ends hinv
  · exact iSet_ends hm hinv fun hbad => h (.set hmethod hbad)

theorem netstatusTable_ends [Casts] (hm : m.Live) (hinv : Full inv) (h : ¬ Fatal m inv)
    {name : CStr} (hmethod : amfInvokeGet inv 0 = some (.string (some name)))
    {call : Invoke → Call ℤ} (hcall : (name, call) ∈ netstatusTable sessionOps) : Ends (call inv) m Bit := by
  simp only [netstatusTable, List.mem_cons, Prod.mk.injEq, List.not_mem_nil, or_false] at hcall
  obtain ⟨rfl, rfl⟩ | ⟨rfl, rfl⟩ | ⟨rfl, rfl⟩ | ⟨rfl, rfl⟩ := hcall
  · obtain ⟨ns, hns⟩ := hm.ns
    rw [nResult, ends_bind]
    refine (ends_derefNs hns).mpr ?_
    by_cases hstate : ns.state = .createSent
    · rw [if_pos hstate]
      exact createResult_ends hm hinv
    · rw [if_neg hstate]
      refine stdResult_ends hm hinv fun hbad => h (.result hmethod (fun ns' hns' => ?_) hbad)
      rwa [← Option.some.inj (hns.symm.trans hns')]
  · exact stdResult_ends hm hinv fun hbad => h (.error hmethod hbad)
  · exact stdResult_ends hm hinv fun hbad => h (.onStatus hmethod hbad)
  · exact .inr rfl

theorem invoke_ends [Casts] (hm : m.Live) (hinv : Full inv) (h : ¬ Fatal m inv) :
    Ends (invoke inv) m Bit := by
  by_cases hstring : ∃ str, amfInvokeGet inv 0 = some (.string str)
  · obtain ⟨str, hmethod⟩ := hstring
    obtain ⟨name, rfl⟩ := Option.ne_none_iff_exists'.mp fun hstr => h (.method (hstr ▸ hmethod))
    by_cases hnaiad : name ∈ naiadTable.map Prod.fst
    · obtain ⟨⟨name, call⟩, hcall, rfl⟩ := List.mem_map.mp hnaiad
      exact (invoke_naiad hmethod call hcall).mpr
        (bit_of_ret (naiadTable_ends hm hinv h hmethod hcall))
    by_cases hnetstatus : name ∈ (netstatusTable sessionOps).map Prod.fst
    · obtain ⟨⟨name, call⟩, hcall, rfl⟩ := List.mem_map.mp hnetstatus
      exact (invoke_netstatus hmethod call hcall).mpr
        (bit_of_ret (netstatusTable_ends hm hinv h hmethod hcall))
    · exact (invoke_unknown hmethod hnaiad hnetstatus).mpr (.inl rfl)
  · exact (invoke_no_string fun str hmethod => hstring ⟨str, hmethod⟩).mpr (.inl rfl)

theorem invoke_crashes [Casts] {P : ℤ → Session → Prop} (hm : m.Live) (hinv : Full inv)
    (h : Fatal m inv) : ¬ Ends (invoke inv) m P := by
  cases h with
  | method hmethod => exact invoke_null hmethod
  | authorized hmethod hbad =>
    rw [invoke_naiad hmethod iAuth (by simp [naiadTable])]
    exact iAuth_crashes hbad
  | userList hmethod hbad =>
    rw [invoke_naiad hmethod iUserlist (by simp [naiadTable])]
    exact iUserlist_crashes hinv hbad
  | set hmethod hbad =>
    rw [invoke_naiad hmethod iSet (by simp [naiadTable])]
    exact iSet_crashes hbad
  | result hmethod hstate hbad =>
    obtain ⟨ns, hns⟩ := hm.ns
    rw [invoke_netstatus hmethod (nResult sessionOps) (by simp [netstatusTable]), nResult,
      ends_bind]
    intro hends
    have hresult := (ends_derefNs hns).mp hends
    rw [if_neg (hstate ns hns)] at hresult
    exact stdResult_crashes hbad hresult
  | error hmethod hbad =>
    rw [invoke_netstatus hmethod (stdResult sessionOps) (by simp [netstatusTable])]
    exact stdResult_crashes hbad
  | onStatus hmethod hbad =>
    rw [invoke_netstatus hmethod (stdResult sessionOps) (by simp [netstatusTable])]
    exact stdResult_crashes hbad

end Main

end Mayhem.Naiad
