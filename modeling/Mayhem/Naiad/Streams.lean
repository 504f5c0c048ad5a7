import Mathlib.Data.List.Forall2
import Mathlib.Tactic.SplitIfs
import Mayhem.Naiad.Safety

/-! A netstatus by itself: its sends and the invokes it is handed, and which of them create a
stream. A session does the same, and makes the callbacks. -/
namespace Mayhem.Naiad

def Notify.created : Notify → Bool
  | .streamCreated _ => true
  | _ => false

namespace Netstatus

open Program

/-- What comes of an invoke. A callback is the last thing before the `return`, so that what it
sends is sent after the invoke. -/
structure Reply where
  ns : Netstatus
  notify : Option Notify
  ret : ℤ

/-- A netstatus by itself, with the callback that has been made. -/
abbrev Recording := Program (Netstatus × Option Notify) Crash

def recorder : Netops Recording where
  deref := do return (← get).1
  setState state := modify fun s => ({ s.1 with state := state }, s.2)
  notify n := modify fun s => (s.1, some n)

variable (ns : Netstatus)

def record (c : Recording ℤ) : Except Crash Reply := do
  let (ret, ns, notify) ← c (ns, none)
  return { ns, notify, ret }

/-- `return ret`, with nothing done. -/
def unhandled (ret : ℤ) : Reply := { ns, notify := none, ret }

/-- The state is set, and the callback made. -/
def enter (state : NetstatusState) (notify : Notify) : Reply :=
  { ns := { ns with state := state }, notify := some notify, ret := 1 }

/-- `netstatus_invoke`. -/
def invoke [Casts] (inv : Invoke) : Except Crash Reply := ns.record (netstatusInvoke recorder inv)

/-- What a send leaves, by what `rtmp_invoke` or `rtmp_flex_invoke` has returned. -/
def sent (state : NetstatusState) (ret : Bool) : Netstatus :=
  if ret then { ns with state := state } else ns

/-- A call of the owner, with the result of the send in it, or an invoke. -/
inductive Step
  | connectCustom (inv : Invoke) (ret : Bool)
  | createstream (num : UInt64) (ret : Bool)
  | play (obj : Amf) (streamId : UInt32) (ret : Bool)
  | invoke (inv : Invoke)

def step [Casts] : Step → Except Crash Reply
  | .connectCustom _ ret => return (ns.sent .connectSent ret).unhandled ret.toInt
  | .createstream _ ret => return (ns.sent .createSent ret).unhandled ret.toInt
  | .play _ _ ret => return (ns.sent .playSent ret).unhandled ret.toInt
  | .invoke inv => ns.invoke inv

/-- `netstatus_new`. -/
def new (chan : ℕ) (dest : UInt32) : Netstatus := { chan, dest }

/-- Any sequence of calls, and the callbacks made. -/
def run [Casts] : List Step → Netstatus → Except Crash (Netstatus × List Notify)
  | [], ns => return (ns, [])
  | s :: steps, ns => do
    let r ← ns.step s
    let (ns', log) ← run steps r.ns
    return (ns', r.notify.toList ++ log)

/-! ### What the invokes are -/

/-- The arguments of an answer to `createStream`, with the stream in it. -/
structure CreateArgs (inv : Invoke) (id : UInt64) : Prop where
  nargs : 4 ≤ amfInvokeNargs inv
  rc : ∃ num, amfInvokeGet inv 1 = some (.number num)
  id : amfInvokeGet inv 3 = some (.number id)

/-- The arguments of a status with a code that has a handler. -/
structure StatusArgs (inv : Invoke) : Prop where
  nargs : 4 ≤ amfInvokeNargs inv
  rc : ∃ num, amfInvokeGet inv 1 = some (.number num)
  stat : ∃ elem code fn, amfInvokeGet inv 3 = some (.object elem) ∧
    statusCode elem = some code ∧ (stdResultTable recorder).lookup code = some (some fn)

def IsMethod (inv : Invoke) (name : String) : Prop :=
  amfInvokeGet inv 0 = some (.string (some (cstr name)))

def CreateResult (inv : Invoke) (id : UInt64) : Prop := IsMethod inv "_result" ∧ CreateArgs inv id

def StatusEvent (inv : Invoke) : Prop :=
  (IsMethod inv "_error" ∨ IsMethod inv "onStatus") ∧ StatusArgs inv

/-- What leaves a call of `createStream` unanswered. -/
def Still : Step → Prop
  | .connectCustom _ ret => ret = false
  | .createstream _ ret => ret = false
  | .play _ _ ret => ret = false
  | .invoke inv => (∀ id, ¬ CreateResult inv id) ∧ ¬ StatusEvent inv

/-- `createStream` has gone out, and everything since has left it unanswered. -/
def Awaiting (steps : List Step) : Prop :=
  ∃ pre num mid, steps = pre ++ .createstream num true :: mid ∧ ∀ s ∈ mid, Still s

def Step.creates : Step → Bool
  | .createstream _ ret => ret
  | _ => false

/-! ### Results -/

variable {ns} {inv : Invoke} {r : Reply}

theorem typeMismatch_pair {a b : Option Amf} {t u : UInt8} {mismatch : Bool}
    (h : typeMismatch [(a, t), (b, u)] = .ok mismatch) :
    mismatch = false ↔ a.map Amf.type = some t ∧ b.map Amf.type = some u := by
  cases a with
  | none => cases h
  | some a =>
    have hrun : typeMismatch [(some a, t), (b, u)] =
      if a.type ≠ t then .ok true else typeMismatch [(b, u)] := rfl
    rw [hrun] at h
    by_cases ha : a.type = t
    · rw [if_neg (fun hne => hne ha)] at h
      cases b with
      | none => cases h
      | some b =>
        have hrun : typeMismatch [(some b, u)] = if b.type ≠ u then .ok true else .ok false := rfl
        rw [hrun] at h
        by_cases hb : b.type = u
        · rw [if_neg (fun hne => hne hb)] at h
          cases h
          simp [ha, hb]
        · rw [if_pos hb] at h
          cases h
          simp [hb]
    · rw [if_pos ha] at h
      cases h
      simp [ha]

theorem map_type_number {a : Option Amf} (h : a.map Amf.type = some AMF_NUMBER) :
    ∃ num, a = some (.number num) := by
  obtain ⟨a, rfl, ha⟩ := Option.map_eq_some_iff.mp h
  obtain ⟨num, rfl⟩ := type_eq_number ha
  exact ⟨num, rfl⟩

theorem map_type_object {a : Option Amf} (h : a.map Amf.type = some AMF_OBJECT) :
    ∃ elem, a = some (.object elem) := by
  obtain ⟨a, rfl, ha⟩ := Option.map_eq_some_iff.mp h
  obtain ⟨elem, rfl⟩ := type_eq_object ha
  exact ⟨elem, rfl⟩

theorem record_enter (state : NetstatusState) (n : Notify) :
    ns.record (do
      recorder.setState state
      recorder.notify n
      return 1) = .ok (ns.enter state n) := rfl

theorem record_map (c : Recording ℤ) (f : ℤ → ℤ) :
    ns.record (c >>= fun ret => pure (f ret)) =
      (ns.record c).map fun r => { r with ret := f r.ret } := by
  have hrun : (c >>= fun ret => pure (f ret)) (ns, none) =
      c (ns, none) >>= fun r => .ok (f r.1, r.2) := rfl
  rw [record, record, hrun]
  cases c (ns, none) <;> rfl

theorem record_nResult [Casts] : ns.record (nResult recorder inv) =
    ns.record (if ns.state = .createSent then createResult recorder inv
      else stdResult recorder inv) := rfl

theorem createResult_args [Casts] {id : UInt64} (h : CreateArgs inv id) :
    ns.record (createResult recorder inv) =
      .ok (ns.enter .created (.streamCreated (toUnsigned id))) := by
  obtain ⟨hnargs, ⟨num, hrc⟩, hid⟩ := h
  rw [createResult, if_neg (Nat.not_lt.mpr hnargs), hrc, hid]
  rfl

/-- The types of two arguments are checked first. -/
theorem ok_of_typed {a b : Option Amf} {t u : UInt8} {k : Recording ℤ}
    (h : ns.record (do
      let mismatch ← typeMismatch [(a, t), (b, u)]
      if mismatch then return 0 else k) = .ok r) :
    (a.map Amf.type = some t ∧ b.map Amf.type = some u) ∧ ns.record k = .ok r ∨
      ¬ (a.map Amf.type = some t ∧ b.map Amf.type = some u) ∧ r = ns.unhandled 0 := by
  cases hm : typeMismatch [(a, t), (b, u)] with
  | error e =>
    rw [hm] at h
    cases h
  | ok mismatch =>
    rw [hm] at h
    cases mismatch with
    | true =>
      cases h
      exact .inr ⟨fun hs => Bool.noConfusion ((typeMismatch_pair hm).mpr hs), rfl⟩
    | false => exact .inl ⟨(typeMismatch_pair hm).mp rfl, h⟩

theorem createResult_cases [Casts] (h : ns.record (createResult recorder inv) = .ok r) :
    (∃ id, CreateArgs inv id) ∨ ∃ ret, r = ns.unhandled ret := by
  rw [createResult] at h
  split at h
  · cases h
    exact .inr ⟨0, rfl⟩
  · rename_i hnargs
    obtain ⟨⟨hrc, hid⟩, -⟩ | ⟨-, hr⟩ := ok_of_typed h
    · obtain ⟨id, hid⟩ := map_type_number hid
      exact .inl ⟨id, Nat.not_lt.mp hnargs, map_type_number hrc, hid⟩
    · exact .inr ⟨0, hr⟩

theorem dispatchCode_lookup {st : NetstatusEvent} {code : CStr} (hcode : st.code = some code)
    (disp : List (CStr × Option (NetstatusEvent → Recording ℤ))) :
    ns.record (dispatchCode st disp) = match disp.lookup code with
      | none => .ok (ns.unhandled 0)
      | some none => .ok (ns.unhandled 1)
      | some (some fn) => ns.record (fn st) := by
  induction disp with
  | nil => rfl
  | cons e disp ih =>
    obtain ⟨key, fn⟩ := e
    have hrun : ns.record (dispatchCode st ((key, fn) :: disp)) =
        if key = code then fn.elim (.ok (ns.unhandled 1)) fun fn => ns.record (fn st)
        else ns.record (dispatchCode st disp) := by
      cases fn with
      | none =>
        rw [dispatchCode, hcode]
        by_cases hkey : key = code <;> simp [streq, hkey] <;> rfl
      | some fn =>
        rw [dispatchCode, hcode]
        by_cases hkey : key = code <;> simp [streq, hkey] <;> rfl
    rw [hrun, List.lookup_cons]
    by_cases hkey : key = code
    · rw [if_pos hkey, beq_iff_eq.mpr hkey.symm]
      cases fn <;> rfl
    · rw [if_neg hkey, beq_eq_false_iff_ne.mpr (Ne.symm hkey)]
      exact ih

theorem statusArgs_iff {num : UInt64} {elem : List (CStr × Amf)} {code : CStr}
    (hnargs : 4 ≤ amfInvokeNargs inv) (hrc : amfInvokeGet inv 1 = some (.number num))
    (hstat : amfInvokeGet inv 3 = some (.object elem)) (hcode : statusCode elem = some code) :
    StatusArgs inv ↔ ∃ fn, (stdResultTable recorder).lookup code = some (some fn) := by
  constructor
  · rintro ⟨-, -, elem', code', fn, hstat', hcode', hfn⟩
    cases hstat.symm.trans hstat'
    cases hcode.symm.trans hcode'
    exact ⟨fn, hfn⟩
  · rintro ⟨fn, hfn⟩
    exact ⟨hnargs, ⟨num, hrc⟩, elem, code, fn, hstat, hcode, hfn⟩

theorem stdResult_cases (h : ns.record (stdResult recorder inv) = .ok r) :
    (∃ code fn st, StatusArgs inv ∧ (stdResultTable recorder).lookup code = some (some fn) ∧
      ns.record (fn st) = .ok r) ∨ ¬ StatusArgs inv ∧ ∃ ret, r = ns.unhandled ret := by
  rw [stdResult] at h
  split at h
  · rename_i hnargs
    cases h
    exact .inr ⟨fun hs => absurd hs.nargs (Nat.not_le.mpr hnargs), 0, rfl⟩
  rename_i hnargs
  obtain ⟨⟨hrc, hstat⟩, h⟩ | ⟨hne, hr⟩ := ok_of_typed h
  · obtain ⟨num, hrc⟩ := map_type_number hrc
    obtain ⟨elem, hstat⟩ := map_type_object hstat
    obtain ⟨st, hst, hcode⟩ := ripStatus_object elem
    rw [hrc, hstat, hst] at h
    change ns.record (dispatchCode st (stdResultTable recorder)) = _ at h
    cases hsc : statusCode elem with
    | none =>
      -- `strcmp` is given NULL
      rw [stdResultTable, dispatchCode, hcode, hsc] at h
      cases h
    | some code =>
      rw [dispatchCode_lookup (hcode.trans hsc)] at h
      rw [statusArgs_iff (Nat.not_lt.mp hnargs) hrc hstat hsc]
      cases hl : (stdResultTable recorder).lookup code with
      | none =>
        rw [hl] at h
        exact .inr ⟨by rintro ⟨_, ⟨⟩⟩, 0, (Except.ok.inj h).symm⟩
      | some fn =>
        rw [hl] at h
        cases fn with
        | none => exact .inr ⟨by rintro ⟨_, ⟨⟩⟩, 1, (Except.ok.inj h).symm⟩
        | some fn => exact .inl ⟨code, fn, st, ⟨fn, rfl⟩, hl, h⟩
  · refine .inr ⟨?_, 0, hr⟩
    rintro ⟨-, ⟨num, hrc⟩, elem, -, -, hstat, -⟩
    exact hne ⟨by rw [hrc]; rfl, by rw [hstat]; rfl⟩

/-- The handlers of status events leave other states, and create no stream. -/
theorem stdResultTable_effect {st : NetstatusEvent} {code : CStr}
    {fn : NetstatusEvent → Recording ℤ}
    (h : (stdResultTable recorder).lookup code = some (some fn)) (hr : ns.record (fn st) = .ok r) :
    r.ns.state ≠ .createSent ∧ ∀ n ∈ r.notify, n.created = false := by
  have hall : ∀ e ∈ stdResultTable recorder, ∀ fn ∈ e.2, ∃ state n,
      ns.record (fn st) = .ok (ns.enter state n) ∧ state ≠ .createSent ∧ n.created = false := by
    simp only [stdResultTable, List.forall_mem_cons, Option.mem_def, Option.some.injEq, forall_eq',
      reduceCtorEq, false_implies, implies_true, true_and, List.not_mem_nil, and_true]
    refine ⟨?_, ?_, ?_, ?_, ?_, ?_, ?_, ?_, ?_, ?_⟩ <;>
      exact ⟨_, _, record_enter _ _, by decide, rfl⟩
  have hmem : (code, some fn) ∈ stdResultTable recorder := by
    obtain ⟨pre, post, htbl, -⟩ := List.lookup_eq_some_iff.mp h
    rw [htbl]
    exact List.mem_append_right pre List.mem_cons_self
  obtain ⟨state, n, henter, hstate, hn⟩ := hall _ hmem fn rfl
  obtain rfl := Except.ok.inj (henter.symm.trans hr)
  exact ⟨hstate, fun _ hmem => Option.some.inj hmem ▸ hn⟩

/-- A method that is not in the table does nothing; one that is, what its function does. -/
theorem dispatch_cases {name : CStr} {tbl : List (CStr × (Invoke → Recording ℤ))}
    (h : ns.record (dispatchTable (some name) inv tbl) = .ok r) :
    (name ∉ tbl.map Prod.fst ∧ r = ns.unhandled 0) ∨
      ∃ call r', (name, call) ∈ tbl ∧ ns.record (call inv) = .ok r' ∧ r.ns = r'.ns ∧
        r.notify = r'.notify := by
  induction tbl with
  | nil =>
    cases h
    exact .inl ⟨List.not_mem_nil, rfl⟩
  | cons e tbl ih =>
    obtain ⟨key, call⟩ := e
    rw [dispatchTable] at h
    by_cases hkey : key = name
    · have hrun : streq key (some name) = .ok true := congrArg Except.ok (decide_eq_true hkey)
      rw [hrun] at h
      replace h := (record_map (call inv) fun ret => if ret = 0 then -1 else 1).symm.trans h
      cases hcall : ns.record (call inv) with
      | error e =>
        rw [hcall] at h
        cases h
      | ok r' =>
        rw [hcall] at h
        cases h
        exact .inr ⟨call, r', hkey ▸ List.mem_cons_self, hcall, rfl, rfl⟩
    · have hrun : streq key (some name) = .ok false := congrArg Except.ok (decide_eq_false hkey)
      rw [hrun] at h
      obtain ⟨hname, hr⟩ | ⟨call', r', hmem, hcall'⟩ := ih h
      · refine .inl ⟨?_, hr⟩
        rw [List.map_cons, List.mem_cons, not_or]
        exact ⟨Ne.symm hkey, hname⟩
      · exact .inr ⟨call', r', List.mem_cons_of_mem _ hmem, hcall'⟩

theorem invoke_method [Casts] {name : CStr} (h : amfInvokeGet inv 0 = some (.string (some name))) :
    ns.invoke inv = ns.record (dispatchTable (some name) inv (netstatusTable recorder)) := by
  rw [invoke, netstatusInvoke, if_neg (nargs_pos h), h]
  rfl

/-- An answer to `createStream` that is awaited. -/
theorem invoke_create [Casts] {id : UInt64} (hns : ns.state = .createSent)
    (h : CreateResult inv id) :
    ns.invoke inv = .ok (ns.enter .created (.streamCreated (toUnsigned id))) := by
  have hrun : ns.record (nResult recorder inv) =
      .ok (ns.enter .created (.streamCreated (toUnsigned id))) := by
    rw [record_nResult, if_pos hns, createResult_args h.2]
  rw [invoke_method h.1, netstatusTable, dispatchTable]
  refine (record_map (nResult recorder inv) fun ret => if ret = 0 then -1 else 1).trans ?_
  rw [hrun]
  rfl

/-- What an invoke can do: create a stream, if one is awaited; handle a status; nothing. -/
inductive Effect [Casts] (ns : Netstatus) (inv : Invoke) (r : Reply) : Prop
  | create (id : UInt64) (hns : ns.state = .createSent) (h : CreateResult inv id)
      (hr : r = ns.enter .created (.streamCreated (toUnsigned id)))
  | status (hstill : ¬ (ns.state = .createSent ∧ Still (.invoke inv)))
      (hstate : r.ns.state ≠ .createSent) (hnotify : ∀ n ∈ r.notify, n.created = false)
  | nothing (hstill : ns.state = .createSent → Still (.invoke inv))
      (hr : r.ns = ns) (hnotify : r.notify = none)

theorem Effect.of_stdResult [Casts] {r' : Reply}
    (h : ns.record (stdResult recorder inv) = .ok r') (hns : r.ns = r'.ns)
    (hnotify : r.notify = r'.notify)
    (hevent : ns.state = .createSent → StatusArgs inv → StatusEvent inv)
    (hcreate : ns.state = .createSent → ∀ id, ¬ CreateResult inv id) :
    Effect ns inv r := by
  obtain ⟨code, fn, st, hargs, hfn, hr⟩ | ⟨hargs, ret, rfl⟩ := stdResult_cases h
  · obtain ⟨hstate, hquiet⟩ := stdResultTable_effect hfn hr
    exact .status (fun hs => hs.2.2 (hevent hs.1 hargs)) (hns ▸ hstate) (hnotify ▸ hquiet)
  · exact .nothing (fun hs => ⟨hcreate hs, fun he => hargs he.2⟩) hns hnotify

theorem IsMethod.eq {name : CStr} {m : String} (h : IsMethod inv m)
    (hname : amfInvokeGet inv 0 = some (.string (some name))) : name = cstr m := by
  cases hname.symm.trans h
  rfl

/-- Without a method nothing is done (and with an empty one `strcmp` is given NULL). -/
theorem invoke_noMethod [Casts] (hname : ∀ name, amfInvokeGet inv 0 ≠ some (.string (some name)))
    (h : ns.invoke inv = .ok r) : r = ns.unhandled (-1) := by
  rw [invoke, netstatusInvoke] at h
  split at h
  · cases h
    rfl
  cases hmethod : amfInvokeGet inv 0 with
  | none =>
    simp only [hmethod] at h
    cases h
    rfl
  | some a =>
    simp only [hmethod] at h
    by_cases htype : a.type = AMF_STRING
    · obtain ⟨str, rfl⟩ := type_eq_string htype
      cases str with
      | none => cases h
      | some name => exact absurd hmethod (hname name)
    · change ns.record (if a.type ≠ AMF_STRING then _ else _) = _ at h
      rw [if_pos htype] at h
      cases h
      rfl

theorem invoke_effect [Casts] (h : ns.invoke inv = .ok r) : Effect ns inv r := by
  by_cases hname : ∃ name, amfInvokeGet inv 0 = some (.string (some name))
  · obtain ⟨name, hname⟩ := hname
    rw [invoke_method hname] at h
    obtain ⟨hmem, rfl⟩ | ⟨call, r', hmem, hcall, hns, hnotify⟩ := dispatch_cases h
    · refine .nothing (fun _ => ⟨fun id hc => hmem ?_, fun he => hmem ?_⟩) rfl rfl
      · rw [hc.1.eq hname, netstatusTable_keys]
        decide
      · rcases he.1 with he | he <;> rw [he.eq hname, netstatusTable_keys] <;> decide
    · simp only [netstatusTable, List.mem_cons, Prod.mk.injEq, List.not_mem_nil, or_false] at hmem
      rcases hmem with ⟨rfl, rfl⟩ | ⟨rfl, rfl⟩ | ⟨rfl, rfl⟩ | ⟨rfl, rfl⟩
      · by_cases hsent : ns.state = .createSent
        · have hevent : ¬ StatusEvent inv := fun he => by
            rcases he.1 with he | he <;> exact absurd (he.eq hname) (by decide)
          rw [record_nResult, if_pos hsent] at hcall
          by_cases hargs : ∃ id, CreateArgs inv id
          · obtain ⟨id, hargs⟩ := hargs
            have hrun := invoke_create hsent (⟨hname, hargs⟩ : CreateResult inv id)
            rw [invoke_method hname, h] at hrun
            exact .create id hsent ⟨hname, hargs⟩ (Except.ok.inj hrun)
          · obtain hargs' | ⟨ret, rfl⟩ := createResult_cases hcall
            · exact absurd hargs' hargs
            · exact .nothing (fun _ => ⟨fun id hc => hargs ⟨id, hc.2⟩, hevent⟩) hns hnotify
        · rw [record_nResult, if_neg hsent] at hcall
          exact .of_stdResult hcall hns hnotify (fun hs => absurd hs hsent)
            fun hs => absurd hs hsent
      · exact .of_stdResult hcall hns hnotify (fun _ ha => ⟨.inl hname, ha⟩) fun _ id hc =>
          absurd (hc.1.eq hname) (by decide)
      · exact .of_stdResult hcall hns hnotify (fun _ ha => ⟨.inr hname, ha⟩) fun _ id hc =>
          absurd (hc.1.eq hname) (by decide)
      · cases hcall
        refine .nothing (fun _ => ⟨fun id hc => ?_, fun he => ?_⟩) hns hnotify
        · exact absurd (hc.1.eq hname) (by decide)
        · rcases he.1 with he | he <;> exact absurd (he.eq hname) (by decide)
  · have hstill : Still (.invoke inv) :=
      ⟨fun id h => hname ⟨_, h.1⟩, fun h => h.1.elim (fun h => hname ⟨_, h⟩) fun h => hname ⟨_, h⟩⟩
    rw [invoke_noMethod (fun name h => hname ⟨name, h⟩) h]
    exact .nothing (fun _ => hstill) rfl rfl

/-! ### Runs -/

variable {s : Step}

theorem sent_state {state : NetstatusState} {ret : Bool} (hstate : state ≠ .createSent) :
    (ns.sent state ret).state = .createSent ↔ ns.state = .createSent ∧ ret = false := by
  cases ret with
  | true => exact ⟨fun h => absurd h hstate, fun h => Bool.noConfusion h.2⟩
  | false => exact ⟨fun h => ⟨h, rfl⟩, fun h => h.1⟩

/-- An answer is awaited behind a step that has sent `createStream`, or has left it awaited. -/
theorem step_state [Casts] (h : ns.step s = .ok r) :
    r.ns.state = .createSent ↔ s.creates = true ∨ ns.state = .createSent ∧ Still s := by
  have hno : ∀ {p : Prop}, p ↔ false = true ∨ p := fun {p} => by simp
  cases s with
  | connectCustom inv ret =>
    cases h
    exact (sent_state (by decide)).trans hno
  | play obj streamId ret =>
    cases h
    exact (sent_state (by decide)).trans hno
  | createstream num ret =>
    cases h
    cases ret with
    | true => exact iff_of_true rfl (.inl rfl)
    | false => exact Iff.trans ⟨fun h => ⟨h, rfl⟩, fun h => h.1⟩ hno
  | invoke inv =>
    refine Iff.trans ?_ hno
    cases invoke_effect h with
    | create id hns hc hr => exact iff_of_false (by rw [hr]; exact nofun) fun hs => hs.2.1 id hc
    | status hstill hstate _ => exact iff_of_false hstate hstill
    | nothing hstill hr _ =>
      rw [hr]
      exact ⟨fun hs => ⟨hs, hstill hs⟩, fun hs => hs.1⟩

/-- Answers that are awaited: one or none. -/
def awaited (ns : Netstatus) : ℕ := if ns.state = .createSent then 1 else 0

theorem awaited_of_state {n : ℕ} (h : ns.state = .createSent → 1 ≤ n) : awaited ns ≤ n := by
  unfold awaited
  split
  · exact h ‹_›
  · exact n.zero_le

theorem countP_quiet {notify : Option Notify} (h : ∀ n ∈ notify, n.created = false) :
    notify.toList.countP Notify.created = 0 :=
  List.countP_eq_zero.mpr fun n hn => by
    rw [h n (Option.mem_toList.mp hn)]
    exact Bool.false_ne_true

/-- A stream is created only where an answer was awaited, and none is behind it. -/
theorem step_count [Casts] (h : ns.step s = .ok r) :
    r.notify.toList.countP Notify.created + awaited r.ns ≤ s.creates.toNat + awaited ns := by
  have hawaited : awaited r.ns ≤ s.creates.toNat + awaited ns := awaited_of_state fun hr => by
    rcases (step_state h).mp hr with hs | ⟨hs, -⟩
    · rw [hs]
      exact Nat.le_add_right _ _
    · rw [awaited, if_pos hs]
      exact Nat.le_add_left _ _
  have hquiet : (∀ n ∈ r.notify, n.created = false) →
      r.notify.toList.countP Notify.created + awaited r.ns ≤ s.creates.toNat + awaited ns := by
    intro hn
    rw [countP_quiet hn, Nat.zero_add]
    exact hawaited
  cases s with
  | connectCustom inv ret | play obj streamId ret | createstream num ret =>
    cases h
    exact hquiet nofun
  | invoke inv =>
    cases invoke_effect h with
    | create id hns hc hr =>
      rw [hr, awaited, awaited, if_neg nofun, if_pos hns]
      exact Nat.le_add_left _ _
    | status _ _ hnotify => exact hquiet hnotify
    | nothing _ _ hnotify => exact hquiet (hnotify ▸ nofun)

theorem run_cons [Casts] {steps : List Step} {ns' : Netstatus} {log : List Notify}
    (h : run (s :: steps) ns = .ok (ns', log)) :
    ∃ r log', ns.step s = .ok r ∧ run steps r.ns = .ok (ns', log') ∧
      log = r.notify.toList ++ log' := by
  unfold run at h
  cases hs : ns.step s with
  | error e =>
    rw [hs] at h
    cases h
  | ok r =>
    rw [hs] at h
    change (run steps r.ns >>= fun p => (.ok (p.1, r.notify.toList ++ p.2) :
      Except Crash (Netstatus × List Notify))) = _ at h
    cases hrest : run steps r.ns with
    | error e =>
      rw [hrest] at h
      cases h
    | ok p =>
      rw [hrest] at h
      cases h
      exact ⟨r, p.2, rfl, hrest, rfl⟩

theorem awaiting_cons {steps : List Step} :
    Awaiting (s :: steps) ↔ Awaiting steps ∨ s.creates = true ∧ ∀ t ∈ steps, Still t := by
  constructor
  · rintro ⟨pre, num, mid, heq, hmid⟩
    cases pre with
    | nil =>
      obtain ⟨rfl, rfl⟩ := List.cons.inj heq
      exact .inr ⟨rfl, hmid⟩
    | cons t pre => exact .inl ⟨pre, num, mid, (List.cons.inj heq).2, hmid⟩
  · rintro (⟨pre, num, mid, rfl, hmid⟩ | ⟨hs, hsteps⟩)
    · exact ⟨s :: pre, num, mid, rfl, hmid⟩
    · cases s with
      | createstream num ret =>
        obtain rfl : ret = true := hs
        exact ⟨[], num, steps, rfl, hsteps⟩
      | _ => cases hs

/-- The state tells whether an answer is awaited. -/
theorem run_state [Casts] {steps : List Step} {ns' : Netstatus} {log : List Notify}
    (hrun : run steps ns = .ok (ns', log)) :
    ns'.state = .createSent ↔ Awaiting steps ∨ ns.state = .createSent ∧ ∀ s ∈ steps, Still s := by
  induction steps generalizing ns log with
  | nil =>
    cases hrun
    refine ⟨fun h => .inr ⟨h, nofun⟩, ?_⟩
    rintro (⟨pre, num, mid, heq, -⟩ | ⟨h, -⟩)
    · exact absurd (congrArg List.length heq) (by simp)
    · exact h
  | cons s steps ih =>
    obtain ⟨r, log', hs, hrest, -⟩ := run_cons hrun
    rw [ih hrest, step_state hs, awaiting_cons, List.forall_mem_cons,
      or_and_right, and_assoc, or_assoc]

theorem run_count [Casts] {steps : List Step} {ns' : Netstatus} {log : List Notify}
    (hrun : run steps ns = .ok (ns', log)) :
    log.countP Notify.created + awaited ns' ≤ steps.countP Step.creates + awaited ns := by
  induction steps generalizing ns log with
  | nil =>
    cases hrun
    exact Nat.le_refl _
  | cons s steps ih =>
    obtain ⟨r, log', hs, hrest, rfl⟩ := run_cons hrun
    have hstep := step_count hs
    have hsteps := ih hrest
    rw [List.countP_append, List.countP_cons]
    have hcreates : (if s.creates = true then 1 else 0) = s.creates.toNat := by
      cases s.creates <;> rfl
    rw [hcreates]
    omega

/-- The `stream_created` callback is made for the answer to `createStream`, whatever its
transaction number, if what came in between has left it awaited; and not more often than
`createStream` has been sent. -/
theorem stream_created_iff [Casts] {chan : ℕ} {dest : UInt32} {steps : List Step} {ns : Netstatus}
    {log : List Notify} (hrun : run steps (new chan dest) = .ok (ns, log)) :
    (∀ inv streamId, (∃ r, ns.invoke inv = .ok r ∧ r.notify = some (.streamCreated streamId)) ↔
      Awaiting steps ∧ ∃ id, CreateResult inv id ∧ streamId = toUnsigned id) ∧
    log.countP Notify.created ≤ steps.countP Step.creates := by
  have hstate : ns.state = .createSent ↔ Awaiting steps :=
    (run_state hrun).trans (or_iff_left fun h => NetstatusState.noConfusion h.1)
  refine ⟨fun inv streamId => ?_, Nat.le_of_add_right_le (run_count hrun)⟩
  constructor
  · rintro ⟨r, hr, hnotify⟩
    cases invoke_effect hr with
    | create id hns hc he =>
      rw [he] at hnotify
      cases hnotify
      exact ⟨hstate.mp hns, id, hc, rfl⟩
    | status _ _ hquiet => exact Bool.noConfusion (hquiet _ hnotify)
    | nothing _ _ hnone => exact nomatch hnone.symm.trans hnotify
  · rintro ⟨hawait, id, hc, rfl⟩
    exact ⟨_, invoke_create (hstate.mpr hawait) hc, rfl⟩

/-- `createStream` with the number 2. -/
def createTwo : Step := .createstream 0x4000000000000000 true

/-- The answer to the call with this number: stream 1. -/
def resultOf (num : UInt64) : Invoke :=
  [some (.string (some (cstr "_result"))), some (.number num), some .null,
    some (.number 0x3ff0000000000000)]

def onReset : Invoke :=
  [some (.string (some (cstr "onStatus"))), some (.number 0), some .null,
    some (.object [(cstr "code", .string (some (cstr "NetStream.Play.Reset")))])]

example : Awaiting [createTwo] := ⟨[], _, [], rfl, nofun⟩

theorem stream_created_iff_two :
    (∀ inv streamId, (∃ r, ({ state := .createSent } : Netstatus).invoke inv = .ok r ∧
        r.notify = some (.streamCreated streamId)) ↔
      Awaiting [createTwo] ∧ ∃ id, CreateResult inv id ∧ streamId = toUnsigned id) ∧
    List.countP Notify.created [] ≤ [createTwo].countP Step.creates := by
  have hrun : run [createTwo] (new 3 0) = .ok ({ state := .createSent }, []) := rfl
  exact stream_created_iff hrun

/-- Behind `createStream` with number 2, the answer to a call with number 5 creates the stream;
and after a status event the answer to the call itself does not. -/
theorem stream_created_unmatched :
    (∃ ns r streamId, run [createTwo] (new 3 0) = .ok (ns, []) ∧
      ns.invoke (resultOf 0x4014000000000000) = .ok r ∧
      r.notify = some (.streamCreated streamId)) ∧
    ∃ ns r, run [createTwo, .invoke onReset] (new 3 0) = .ok (ns, [.reset]) ∧
      ns.invoke (resultOf 0x4000000000000000) = .ok r ∧ r.notify = none :=
  ⟨⟨_, _, _, rfl, rfl, rfl⟩, _, _, rfl, rfl, rfl⟩

/-! ### A session -/

def Reply.perform (r : Reply) : Call ℤ := do
  modify fun m => { m with ns := some r.ns }
  match r.notify with
  | none => return r.ret
  | some n =>
    n.call
    return r.ret

/-- What a session does on an outcome of the netstatus. -/
def perform (x : Except Crash Reply) : Call ℤ := do
  let r ← x
  r.perform

/-- A call in a session does what it does under any owner, and then makes the callback. -/
def Performs (m : Session) (ns : Netstatus) (c : Call ℤ) (c' : Recording ℤ) : Prop :=
  c m = perform (ns.record c') m

variable {m : Session}

theorem perform_unhandled (hns : m.ns = some ns) (ret : ℤ) :
    (ns.unhandled ret).perform m = .ok (ret, m) := by
  have hm : { m with ns := some ns } = m := by rw [← hns]
  change Except.ok (ret, { m with ns := some ns }) = _
  rw [hm]

theorem performs_return (hns : m.ns = some ns) (ret : ℤ) :
    Performs m ns (return ret) (return ret) := (perform_unhandled hns ret).symm

theorem derefNs_bind {α : Type} (hns : m.ns = some ns) (k : Netstatus → Call α) :
    (derefNs >>= k) m = k ns m := by
  have hderef : derefNs m = .ok (ns, m) := by
    cases m
    cases hns
    rfl
  change (derefNs m >>= fun p => k p.1 p.2) = _
  rw [hderef]
  rfl

/-- The handlers set the state and call back. -/
theorem performs_enter (hns : m.ns = some ns) (state : NetstatusState) (n : Notify) :
    Performs m ns (do sessionOps.setState state; sessionOps.notify n; return 1)
      (do recorder.setState state; recorder.notify n; return 1) := by
  change (do setNsState state; n.call; return 1 : Call ℤ) m = (ns.enter state n).perform m
  rw [setNsState, bind_assoc, derefNs_bind hns]
  rfl

/-- What is there of errors comes first. -/
theorem performs_lift {α : Type} {x : Except Crash α} {k : α → Call ℤ} {k' : α → Recording ℤ}
    (hk : ∀ a, x = .ok a → Performs m ns (k a) (k' a)) :
    Performs m ns (do let a ← x; k a) (do let a ← x; k' a) := by
  cases x with
  | error e => rfl
  | ok a => exact hk a rfl

theorem performs_ite {p : Prop} [Decidable p] {c d : Call ℤ} {c' d' : Recording ℤ}
    (hc : p → Performs m ns c c') (hd : ¬ p → Performs m ns d d') :
    Performs m ns (if p then c else d) (if p then c' else d') := by
  split
  · exact hc ‹_›
  · exact hd ‹_›

theorem perform_ret (r : Reply) (f : ℤ → ℤ) :
    { r with ret := f r.ret }.perform = r.perform >>= fun ret => pure (f ret) := by
  rw [Reply.perform, Reply.perform]
  cases r.notify with
  | none => simp only [bind_assoc, pure_bind]
  | some n => simp only [bind_assoc, pure_bind]

theorem performs_map {c : Call ℤ} {c' : Recording ℤ} (h : Performs m ns c c') (f : ℤ → ℤ) :
    Performs m ns (do let ret ← c; return f ret) (do let ret ← c'; return f ret) := by
  have hrun : (c >>= fun ret => pure (f ret)) m = c m >>= fun p => pure (f p.1, p.2) := rfl
  rw [Performs, record_map, hrun, h]
  cases ns.record c' with
  | error e => rfl
  | ok r => exact (congrFun (perform_ret r f) m).symm

/-- The handlers of the two tables, one by one. -/
theorem stdResultTable_performs (hns : m.ns = some ns) (st : NetstatusEvent) :
    List.Forall₂ (fun e e' => e.1 = e'.1 ∧
      Option.Rel (fun fn fn' => Performs m ns (fn st) (fn' st)) e.2 e'.2)
      (stdResultTable sessionOps) (stdResultTable recorder) := by
  have henter := performs_enter hns
  simp only [stdResultTable, List.forall₂_cons, Option.rel_some_some, Option.rel_none_none,
    true_and, and_true, List.Forall₂.nil]
  exact ⟨henter _ _, henter _ _, henter _ _, henter _ _, henter _ _, henter _ _, henter _ _,
    henter _ _, henter _ _, henter _ _⟩

theorem dispatchCode_performs (hns : m.ns = some ns) {st : NetstatusEvent}
    {disp : List (CStr × Option (NetstatusEvent → Call ℤ))}
    {disp' : List (CStr × Option (NetstatusEvent → Recording ℤ))}
    (h : List.Forall₂ (fun e e' => e.1 = e'.1 ∧
      Option.Rel (fun fn fn' => Performs m ns (fn st) (fn' st)) e.2 e'.2) disp disp') :
    Performs m ns (dispatchCode st disp) (dispatchCode st disp') := by
  induction h with
  | nil => exact performs_return hns 0
  | @cons e e' _ _ he _ ih =>
    obtain ⟨key, fn⟩ := e
    obtain ⟨_, fn'⟩ := e'
    obtain ⟨rfl, hfn⟩ : key = _ ∧ Option.Rel _ fn fn' := he
    cases hfn with
    | none =>
      exact performs_lift fun eq _ => performs_ite (fun _ => performs_return hns 1) fun _ => ih
    | some hfn =>
      exact performs_lift fun eq _ => performs_ite (fun _ => hfn) fun _ => ih

theorem stdResult_performs (hns : m.ns = some ns) (inv : Invoke) :
    Performs m ns (stdResult sessionOps inv) (stdResult recorder inv) := by
  refine performs_ite (fun _ => performs_return hns 0) fun _ => ?_
  refine performs_lift fun mismatch _ => performs_ite (fun _ => performs_return hns 0) fun _ => ?_
  refine performs_lift fun _ _ => performs_lift fun st _ => ?_
  exact dispatchCode_performs hns (stdResultTable_performs hns st)

theorem createResult_performs [Casts] (hns : m.ns = some ns) (inv : Invoke) :
    Performs m ns (createResult sessionOps inv) (createResult recorder inv) := by
  refine performs_ite (fun _ => performs_return hns 0) fun _ => ?_
  refine performs_lift fun mismatch _ => performs_ite (fun _ => performs_return hns 0) fun _ => ?_
  exact performs_lift fun id _ => performs_enter hns .created (.streamCreated (toUnsigned id))

theorem nResult_performs [Casts] (hns : m.ns = some ns) (inv : Invoke) :
    Performs m ns (nResult sessionOps inv) (nResult recorder inv) := by
  have hrun : Performs m ns (if ns.state = .createSent then createResult sessionOps inv
      else stdResult sessionOps inv) (if ns.state = .createSent then createResult recorder inv
      else stdResult recorder inv) :=
    performs_ite (fun _ => createResult_performs hns inv) fun _ => stdResult_performs hns inv
  exact (derefNs_bind hns _).trans hrun

/-- The functions of the two tables are the same. -/
theorem netstatusTable_performs [Casts] (hns : m.ns = some ns) (inv : Invoke) :
    List.Forall₂ (fun e e' => e.1 = e'.1 ∧ Performs m ns (e.2 inv) (e'.2 inv))
      (netstatusTable sessionOps) (netstatusTable recorder) :=
  .cons ⟨rfl, nResult_performs hns inv⟩ <| .cons ⟨rfl, stdResult_performs hns inv⟩ <|
    .cons ⟨rfl, stdResult_performs hns inv⟩ <| .cons ⟨rfl, performs_return hns 1⟩ .nil

theorem dispatchTable_performs (hns : m.ns = some ns) (name : Option CStr) {inv : Invoke}
    {tbl : List (CStr × (Invoke → Call ℤ))} {tbl' : List (CStr × (Invoke → Recording ℤ))}
    (h : List.Forall₂ (fun e e' => e.1 = e'.1 ∧ Performs m ns (e.2 inv) (e'.2 inv)) tbl tbl') :
    Performs m ns (dispatchTable name inv tbl) (dispatchTable name inv tbl') := by
  induction h with
  | nil => exact performs_return hns 0
  | @cons e e' _ _ he _ ih =>
    obtain ⟨key, call⟩ := e
    obtain ⟨_, call'⟩ := e'
    obtain ⟨rfl, hcall⟩ : key = _ ∧ Performs m ns (call inv) (call' inv) := he
    exact performs_lift fun eq _ => performs_ite
      (fun _ => performs_map hcall fun ret => if ret = 0 then -1 else 1) fun _ => ih

/-- `netstatus_invoke` of a session does what it does under any owner, and then runs the
callback. -/
theorem netstatusInvoke_perform [Casts] (hns : m.ns = some ns) (inv : Invoke) :
    netstatusInvoke sessionOps inv m = perform (ns.invoke inv) m := by
  have hrun : Performs m ns (netstatusInvoke sessionOps inv) (netstatusInvoke recorder inv) := by
    refine performs_ite (fun _ => performs_return hns (-1)) fun _ => ?_
    refine performs_ite (fun _ => performs_return hns (-1)) fun _ => ?_
    refine performs_lift fun type _ => performs_ite (fun _ => performs_return hns (-1)) fun _ => ?_
    exact performs_lift fun name _ =>
      dispatchTable_performs hns name (netstatusTable_performs hns inv)
  exact hrun

/-- A send leaves the netstatus as it is, or the connection is lost on the way. -/
theorem flexInvoke_ns (hm : m.Live) (hns : m.ns = some ns) (chan : ℕ) (dest : UInt32)
    (inv : Invoke) :
    Ends (rtmpFlexInvoke chan dest inv) m fun ret m' =>
      m'.ns = some ns ∨ m'.ns = none ∧ ret = false := by
  rw [rtmpFlexInvoke, ends_bind, ends_get, if_pos hm.rtmp, ends_bind, ends_modify]
  split
  · exact .inl hns
  · exact .inl hns
  · rw [rtmpDied, ends_bind, ends_bind]
    exact ends_owner_pure fun m' _ _ => .inr ⟨rfl, rfl⟩

theorem flexInvoke_sent (hm : m.Live) (hns : m.ns = some ns) (chan : ℕ) (dest : UInt32)
    (inv : Invoke) (state : NetstatusState) :
    Ends (do
      let ret ← rtmpFlexInvoke chan dest inv
      if ret then setNsState state
      return ret) m fun ret m' =>
        m'.ns = some (ns.sent state ret) ∨ m'.ns = none ∧ ret = false := by
  rw [ends_bind]
  refine (flexInvoke_ns hm hns chan dest inv).mono fun ret m' h => ?_
  obtain h | ⟨h, rfl⟩ := h
  · cases ret with
    | true =>
      rw [if_pos rfl, ends_bind, setNsState, ends_bind, ends_derefNs h, ends_modify]
      exact .inl rfl
    | false => exact .inl h
  · exact .inr ⟨h, rfl⟩

theorem netstatusCreatestream_sent (hm : m.Live) (hns : m.ns = some ns) (num : UInt64) :
    Ends (netstatusCreatestream num) m fun ret m' =>
      m'.ns = some (ns.sent .createSent ret) ∨ m'.ns = none ∧ ret = false := by
  rw [netstatusCreatestream, ends_bind, ends_derefNs hns]
  exact flexInvoke_sent hm hns _ _ _ _

theorem netstatusPlay_sent (hm : m.Live) (hns : m.ns = some ns) (obj : Amf) (streamId : UInt32) :
    Ends (netstatusPlay obj streamId) m fun ret m' =>
      m'.ns = some (ns.sent .playSent ret) ∨ m'.ns = none ∧ ret = false := by
  rw [netstatusPlay, ends_bind, ends_derefNs hns]
  exact flexInvoke_sent hm hns _ _ _ _

end Netstatus
end Mayhem.Naiad
