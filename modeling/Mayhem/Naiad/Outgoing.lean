import Mayhem.Naiad.Footprint

/-! The requests of a session one after the other: what is sent, and what is left of it in
memory. -/
namespace Mayhem

open BlockHeap Naiad Cvars Blocks
open scoped Pointwise

/-- A request of a session, with the state that it depends on. -/
inductive Outgoing
  | connect (heap : CStr) (v : Wmvars) (premium : Bool)
  | start
  | createStream (num : UInt64)
  | play (premium : Bool) (vidpath : Option CStr) (sid streamId : UInt32)
  | auth (code : UInt64)
  | chat (msg : CStr)

namespace Outgoing

/-- `invoke_connect`, `invoke_start`, `netstatus_createstream`, `stream_created`, `auth_result` and
`mayhem_snd_chat`. -/
def run (rtmpSend : OutMsg → Bool) : Outgoing → P Bool
  | connect heap v premium =>
    sendInvoke rtmpSend ⟨3, three_lt_chans⟩ 0 RTMP_MSG_INVOKE (Blocks.mayhemAmfConnect heap v premium)
  | start => sendInvoke rtmpSend ⟨3, three_lt_chans⟩ 0 RTMP_MSG_FLEX_MESSAGE Blocks.mayhemAmfStart
  | createStream num =>
    sendInvoke rtmpSend ⟨3, three_lt_chans⟩ 0 RTMP_MSG_FLEX_MESSAGE (createstream num)
  | play premium vidpath sid streamId => streamCreated rtmpSend premium vidpath sid streamId
  | auth code => Blocks.authResult rtmpSend code
  | chat msg => mayhemSndChat rtmpSend msg

/-- The path of the stream. -/
def path (premium : Bool) (vidpath : Option CStr) (sid : UInt32) : Amf :=
  if premium then .string vidpath else Mayhem.stringfInt sid

/-- The invoke that is to be sent. -/
def inv : Outgoing → Except Crash Invoke
  | connect heap v premium => Mayhem.mayhemAmfConnect heap v premium
  | start => .ok Naiad.mayhemAmfStart
  | createStream num =>
    .ok [some (.string (some (cstr "createStream"))), some (.number num), some .null]
  | play premium vidpath sid _ => .ok [some (.string (some (cstr "play"))), some (.number 0),
      some .null, some (path premium vidpath sid)]
  | auth code => .ok [some (.string (some (cstr "_result"))), some (.number (toFloat code)),
      some .null, some .null]
  | chat msg => .ok [some (.string (some (cstr "NaiadSndChat"))), some (.number 0), some .null,
      some (.number 0), some (.string (some [])), some (.string (some msg)), some (.string (some [])),
      some (.bool false), some (.string (some [])),
      some (.string (amfStringf (chatText msg)))]

/-- What is sent in its place if there is no memory for the path of the URL. -/
def atDefault : Outgoing → Option Invoke
  | connect _ v true => some (connectArgs (.string (some (cstr "naiad/live"))) v true)
  | _ => none

def message (q : Outgoing) (inv : Invoke) : Option OutMsg :=
  match q with
  | connect _ _ _ => Mayhem.doInvoke ⟨3, three_lt_chans⟩ 0 inv RTMP_MSG_INVOKE
  | play _ _ _ streamId => Mayhem.doInvoke ⟨8, eight_lt_chans⟩ streamId inv RTMP_MSG_FLEX_MESSAGE
  | _ => Mayhem.doInvoke ⟨3, three_lt_chans⟩ 0 inv RTMP_MSG_FLEX_MESSAGE

/-- The invokes that a request may send. -/
def Sends (q : Outgoing) (grants : ℕ → Bool) (inv : Invoke) : Prop :=
  q.inv = .ok inv ∨ ¬ Granted grants ∧ q.atDefault = some inv

theorem Sends.granted {q : Outgoing} {grants : ℕ → Bool} {inv inv' : Invoke}
    (h : q.Sends grants inv') (hgrants : Granted grants) (hinv : q.inv = .ok inv) : inv = inv' := by
  obtain h | ⟨hfail, -⟩ := h
  · exact Except.ok.inj (hinv.symm.trans h)
  · exact absurd hgrants hfail

/-- The messages. -/
def Msg (q : Outgoing) (grants : ℕ → Bool) (msg : OutMsg) : Prop :=
  ∃ inv, q.Sends grants inv ∧ q.message inv = some msg

/-- How a request can fail: NULL is dereferenced where an allocation failed or the URL is missing,
the encoder gives up, or it leaves its buffer with a string that is too long for an `int`. -/
def Faults (q : Outgoing) (grants : ℕ → Bool) : Fault → Prop
  | .null => ¬ Granted grants ∨ ∃ e, q.inv = .error e
  | .wild => ∃ inv, q.Sends grants inv ∧ ¬ inv.Short
  | .abort => ∃ inv, q.Sends grants inv ∧ ¬ inv.Completes

end Outgoing

namespace Blocks

variable {grants : ℕ → Bool} {rtmpSend : OutMsg → Bool} {q : Outgoing} {ret : Bool}
  {fs : List (Action (List Amf))} {n a : ℕ}

theorem outcome_mono {Msg Msg' : OutMsg → Prop} (h : ∀ msg, Msg msg → Msg' msg) :
    outcome grants rtmpSend Msg ret ⊆ outcome grants rtmpSend Msg' ret := by
  refine Set.union_subset_union_left _ (Set.iUnion_mono' ?_)
  rintro ⟨msg, hmsg, hret⟩
  exact ⟨⟨msg, h msg hmsg, hret⟩, subset_rfl⟩

/-- The paths lead to what the request may send. -/
def Leads (q : Outgoing) (grants : ℕ → Bool) (Rs : List (List Amf → List Amf → Prop)) : Prop :=
  ∀ vals, Path Rs [] vals → q.Sends grants (vals.map some)

theorem Leads.mayFail {Rs : List (List Amf → List Amf → Prop)} (h : Leads q grants Rs) :
    ∀ vals, Path Rs [] vals → MayFail (q.Faults grants) (vals.map some) :=
  fun vals hpath => ⟨fun hc => ⟨_, h vals hpath, hc⟩, fun hshort => ⟨_, h vals hpath, hshort⟩⟩

theorem Leads.messages {Rs : List (List Amf → List Amf → Prop)} (h : Leads q grants Rs)
    {chan : OutChan} {dest : UInt32} {type : UInt8}
    (hmsg : ∀ inv, q.message inv = Mayhem.doInvoke chan dest inv type) :
    outcome grants rtmpSend (MessageOf Rs chan dest type) ret ⊆
      outcome grants rtmpSend (q.Msg grants) ret :=
  outcome_mono fun _ ⟨vals, hpath, hx⟩ => ⟨_, h vals hpath, (hmsg _).trans hx⟩

/-! ### The requests that are appended to -/

theorem triple_createStream (num : UInt64) : Triple grants 0
    ((Outgoing.createStream num).run rtmpSend)
    (outcome grants rtmpSend ((Outgoing.createStream num).Msg grants))
    ((Outgoing.createStream num).Faults grants) := by
  let fs := [appendAction (amfString (some (cstr "createStream"))) (.string (some (cstr "createStream"))),
    appendAction (amfNumber num) (.number num), appendAction amfNull .null]
  have hleads : Leads (.createStream num) grants (fs.map Prod.snd) := by
    rintro vals ⟨_, rfl, _, rfl, _, rfl, rfl⟩
    exact .inl rfl
  refine (@triple_sendInvoke grants _ rtmpSend _ _ _ fs 3 (fun a => ?_) rfl hleads.mayFail).post
    fun ret => hleads.messages fun _ => rfl
  exact ⟨step_appendArg (makes_string _) (by decide), step_appendArg (makes_number num) (by decide),
    step_appendArg makes_null (by decide), trivial⟩

theorem allOf_null {f : Option ℕ → P Bool} {gs : List (Option ℕ → P Bool)} {E : Fault → Prop}
    (h : ∀ F, Triple grants F (f none) (fun _ => ∅) E) (F : Own) :
    Triple grants F (allOf (f :: gs) none) (fun _ => ∅) E :=
  (h F).bind fun _ => triple_empty

theorem triple_start : Triple grants 0 (Outgoing.start.run rtmpSend)
    (outcome grants rtmpSend (Outgoing.start.Msg grants)) (Outgoing.start.Faults grants) := by
  let fs := [appendAction (amfString (some (cstr "NaiadStart"))) (.string (some (cstr "NaiadStart"))),
    appendAction (amfNumber 0) (.number 0), appendAction amfNull .null,
    appendAction (amfNumber 0x4033000000000000) (.number 0x4033000000000000),
    appendAction (amfNumber APP_VERS) (.number APP_VERS),
    objectAction [memberAction (cstr "flags") (amfNumber 0) (.number 0)]]
  have hleads : Leads .start grants (fs.map Prod.snd) := by
    rintro vals ⟨_, rfl, _, rfl, _, rfl, _, rfl, _, rfl, _, ⟨_, ⟨_, rfl, rfl⟩, rfl⟩, rfl⟩
    exact .inl rfl
  refine (@triple_sendInvoke grants _ rtmpSend _ _ _ fs 6 (fun a => ?_) rfl hleads.mayFail).post
    fun ret => hleads.messages fun _ => rfl
  refine ⟨step_appendArg (makes_string _) (by decide), step_appendArg (makes_number _) (by decide),
    step_appendArg makes_null (by decide), step_appendArg (makes_number _) (by decide),
    step_appendArg (makes_number _) (by decide), step_appendObject ?_ ?_ (by decide), trivial⟩
  · exact fun obj => ⟨step_setMember (makes_number 0) _ obj 0, trivial⟩
  · exact fun hfail => allOf_null fun F => triple_setMember_null (makes_number 0) (.inl hfail) _

/-! ### The requests that are set -/

theorem outcome_fail {Msg : OutMsg → Prop} {P : Own} (hP : P ⊆ Lost) (hfail : ¬ Granted grants) :
    P ⊆ outcome grants rtmpSend Msg false :=
  (subset_given ⟨hfail, rfl⟩ hP).trans Set.subset_union_right

/-- A request of which the arguments are set one by one. -/
theorem triple_setRequest (hlen : fs.length = n) (hleads : Leads q grants (fs.map Prod.snd))
    (hsteps : ∀ a, StepsFrom grants (q.Faults grants) (invokeAfter n (fun _ => 0) a)
      (anyInvoke a + Lost) (some a) 0 fs) {chan : OutChan} {dest : UInt32}
    (hmsg : ∀ inv, q.message inv = Mayhem.doInvoke chan dest inv RTMP_MSG_FLEX_MESSAGE) :
    Triple grants 0 (do
        match ← amfInvokeNew n with
        | none => return false
        | some inv => sendSet rtmpSend chan dest (fs.map Prod.fst) inv)
      (outcome grants rtmpSend (q.Msg grants)) (q.Faults grants) := by
  refine (triple_amfInvokeNew n).bind fun r => ?_
  cases r with
  | none => exact triple_given.mpr fun hfail => triple_pure (outcome_fail zero_subset_lost hfail)
  | some a =>
    refine ((triple_sendSet (hsteps a) (fun vals => ?_) hleads.mayFail).pre
      (subset_invokeAfter rfl)).post fun ret => hleads.messages hmsg
    rw [hlen]
    exact invokeAfter_all

theorem triple_auth (code : UInt64) : Triple grants 0 ((Outgoing.auth code).run rtmpSend)
    (outcome grants rtmpSend ((Outgoing.auth code).Msg grants))
    ((Outgoing.auth code).Faults grants) := by
  let fs := [setAction 0 (amfString (some (cstr "_result"))) (.string (some (cstr "_result"))),
    setAction 1 (amfNumber (toFloat code)) (.number (toFloat code)), setAction 2 amfNull .null,
    setAction 3 amfNull .null]
  have hleads : Leads (.auth code) grants (fs.map Prod.snd) := by
    rintro vals ⟨_, rfl, _, rfl, _, rfl, _, rfl, rfl⟩
    exact .inl rfl
  have hlen : fs.length = 4 := rfl
  refine triple_setRequest hlen hleads (fun a => ?_) fun _ => rfl
  exact ⟨step_setArg (makes_string _) (by decide), step_setArg (makes_number _) (by decide),
    step_setArg makes_null (by decide), step_setArg makes_null (by decide), trivial⟩

theorem triple_chat (msg : CStr) : Triple grants 0 ((Outgoing.chat msg).run rtmpSend)
    (outcome grants rtmpSend ((Outgoing.chat msg).Msg grants))
    ((Outgoing.chat msg).Faults grants) := by
  let fs := [setAction 0 (amfString (some (cstr "NaiadSndChat"))) (.string (some (cstr "NaiadSndChat"))),
    setAction 1 (amfNumber 0) (.number 0), setAction 2 amfNull .null,
    setAction 3 (amfNumber 0) (.number 0), setAction 4 (amfString (some [])) (.string (some [])),
    setAction 5 (amfString (some msg)) (.string (some msg)),
    setAction 6 (amfString (some [])) (.string (some [])), setAction 7 (amfBool false) (.bool false),
    setAction 8 (amfString (some [])) (.string (some [])),
    setAction 9 (Blocks.amfStringf (chatText msg)) (.string (Mayhem.amfStringf (chatText msg)))]
  have hleads : Leads (.chat msg) grants (fs.map Prod.snd) := by
    rintro vals ⟨_, rfl, _, rfl, _, rfl, _, rfl, _, rfl, _, rfl, _, rfl, _, rfl, _, rfl, _, rfl, rfl⟩
    exact .inl rfl
  have hlen : fs.length = 10 := rfl
  refine triple_setRequest hlen hleads (fun a => ?_) fun _ => rfl
  exact ⟨step_setArg (makes_string _) (by decide), step_setArg (makes_number _) (by decide),
    step_setArg makes_null (by decide), step_setArg (makes_number _) (by decide),
    step_setArg (makes_string _) (by decide), step_setArg (makes_string _) (by decide),
    step_setArg (makes_string _) (by decide), step_setArg (makes_bool _) (by decide),
    step_setArg (makes_string _) (by decide), step_setArg (makes_stringf _) (by decide), trivial⟩

/-- `netstatus_play` of a value that is there, or could not be made. -/
theorem triple_netstatusPlay {val : Amf} {obj : Option ℕ} {held : Own} {streamId : UInt32}
    (hq : q.inv = .ok [some (.string (some (cstr "play"))), some (.number 0), some .null, some val])
    (hmsg : ∀ inv, q.message inv =
      Mayhem.doInvoke ⟨8, eight_lt_chans⟩ streamId inv RTMP_MSG_FLEX_MESSAGE)
    (hheld : held ⊆ Lost) (hobj : held ⊆ made grants Lost val obj)
    (hfree : Triple grants held (amfFree obj) (fun _ => Lost) (q.Faults grants)) :
    Triple grants held (netstatusPlay rtmpSend obj streamId)
      (outcome grants rtmpSend (q.Msg grants)) (q.Faults grants) := by
  let fs := [setAction 0 (amfString (some (cstr "play"))) (.string (some (cstr "play"))),
    setAction 1 (amfNumber 0) (.number 0), setAction 2 amfNull .null, setAction 3 (pure obj) val]
  have hleads : Leads q grants (fs.map Prod.snd) := by
    rintro vals ⟨_, rfl, _, rfl, _, rfl, _, rfl, rfl⟩
    exact .inl hq
  rw [← zero_add held]
  refine (triple_amfInvokeNew 4).step fun r => ?_
  cases r with
  | none =>
    rw [given_add, triple_given, zero_add]
    exact fun hfail => hfree.bind fun _ => triple_pure (outcome_fail subset_rfl hfail)
  | some a =>
    -- the value is held until it is set
    let S : ℕ → List Amf → Own := fun i vals =>
      (if i < 4 then held else 0) + invokeAfter 4 (fun _ => 0) a i vals
    have hsteps : StepsFrom grants (q.Faults grants) S (anyInvoke a + Lost) (some a) 0 fs := by
      refine ⟨step_held hheld (triple_amfString _) (by decide),
        step_held hheld (triple_amfNumber 0) (by decide), step_held hheld triple_amfNull (by decide),
        fun vals => ?_, trivial⟩
      have hset := @triple_setArg grants (q.Faults grants) a val (pure obj) held Lost
        (triple_pure hobj) 4 3 (by decide) vals
      refine hset.post fun r => ?_
      cases r with
      | true => exact Set.iUnion_mono fun vals' => Set.iUnion_mono fun _ => subset_of_eq (zero_add _).symm
      | false => exact subset_rfl
    have hlast : ∀ vals, S (0 + fs.length) vals ⊆ isInvoke (vals.map some) 0 a := fun vals =>
      (subset_of_eq (zero_add _)).trans invokeAfter_all
    refine ((triple_sendSet hsteps hlast hleads.mayFail).pre ?_).post fun ret => hleads.messages hmsg
    rw [add_comm]
    exact Set.add_subset_add subset_rfl (subset_invokeAfter rfl)

theorem makes_stringfInt {E : Fault → Prop} (n : UInt32) :
    Makes grants E (Blocks.stringfInt n) (Mayhem.stringfInt n) := by
  unfold Blocks.stringfInt
  exact triple_amfStringf _

theorem triple_play (premium : Bool) (vidpath : Option CStr) (sid streamId : UInt32) :
    Triple grants 0 ((Outgoing.play premium vidpath sid streamId).run rtmpSend)
      (outcome grants rtmpSend ((Outgoing.play premium vidpath sid streamId).Msg grants))
      ((Outgoing.play premium vidpath sid streamId).Faults grants) := by
  let q := Outgoing.play premium vidpath sid streamId
  have hsend : ∀ {val : Amf} {v : ℕ}, Outgoing.path premium vidpath sid = val →
      Triple grants (isAmf val v) (netstatusPlay rtmpSend (some v) streamId)
        (outcome grants rtmpSend (q.Msg grants)) (q.Faults grants) := by
    rintro val v rfl
    refine triple_netstatusPlay rfl (fun _ => rfl) (isAmf_subset_lost _ v) subset_rfl ?_
    exact (triple_amfFree _ v).post fun _ => zero_subset_lost
  rw [Outgoing.run, streamCreated]
  cases premium with
  | true =>
    rw [if_pos rfl]
    refine (triple_amfString vidpath).bind fun r => ?_
    cases r with
    | none => exact triple_given.mpr fun hfail s own frame _ _ => .inl hfail
    | some v =>
      refine (?_ : Triple grants (isAmf (.string vidpath) v) _ _ _)
      rw [isAmf]
      simp only [triple_iUnion]
      intro p
      refine triple_amfAt.knownStep ?_
      refine (hsend rfl).pre ?_
      exact Set.subset_iUnion (fun p => cell v (.amf (.string p)) + isStr vidpath p) p
  | false =>
    rw [if_neg Bool.false_ne_true]
    refine (makes_stringfInt sid).bind fun r => ?_
    cases r with
    | none =>
      refine triple_given.mpr fun hfail => ?_
      refine triple_netstatusPlay rfl (fun _ => rfl) stray_subset_lost ?_ ?_
      · exact subset_given hfail stray_subset_lost
      · exact triple_amfFree_null.post fun _ => stray_subset_lost
    | some v =>
      have hpath : Outgoing.path false vidpath sid = Mayhem.stringfInt sid := if_neg Bool.false_ne_true
      exact hsend hpath

/-! ### The connect -/

/-- The third argument. -/
def commandActions (grants : ℕ → Bool) (heap : CStr) (v : Wmvars) (premium : Bool) :
    List (Action (List (CStr × Amf))) :=
  [(setApp heap v premium, fun elem elem' => ∃ app, App grants heap v premium app ∧
      elem' = Mayhem.amfObjectSet (cstr "app") app elem),
    memberAction (cstr "flashVer") (amfString (some (cstr "LNX 11,2,202,236")))
      (.string (some (cstr "LNX 11,2,202,236"))),
    memberAction (cstr "swfUrl") (amfString (some SWF_URL)) (.string (some SWF_URL)),
    memberAction (cstr "tcUrl") (amfString v.tcUrl) (.string v.tcUrl),
    memberAction (cstr "fpad") (amfBool false) (.bool false),
    memberAction (cstr "capabilities") (amfNumber 0x406de00000000000) (.number 0x406de00000000000),
    memberAction (cstr "audioCodecs") (amfNumber 0x40abee0000000000) (.number 0x40abee0000000000),
    memberAction (cstr "videoCodecs") (amfNumber 0x406f800000000000) (.number 0x406f800000000000),
    memberAction (cstr "videoFunction") (amfNumber 0x3ff0000000000000) (.number 0x3ff0000000000000),
    memberAction (cstr "pageUrl") (amfString v.pageurl) (.string v.pageurl),
    memberAction (cstr "objectEncoding") (amfNumber 0x4008000000000000) (.number 0x4008000000000000)]

/-- The last argument. -/
def sessionActions (v : Wmvars) (premium : Bool) : List (Action (List (CStr × Amf))) :=
  [memberAction (cstr "ldmov") (amfString v.ldmov) (.string v.ldmov),
    memberAction (cstr "pid") (Blocks.stringfInt v.pid) (Mayhem.stringfInt v.pid),
    memberAction (cstr "sessionType") (amfString v.sessiontype) (.string v.sessiontype),
    memberAction (cstr "hd") (Blocks.stringfInt v.hd) (Mayhem.stringfInt v.hd),
    memberAction (cstr "sk") (amfString v.sk) (.string v.sk),
    memberAction (cstr "sakey") (amfString v.sakey) (.string v.sakey),
    memberAction (cstr "lang") (amfString v.lang) (.string v.lang),
    memberAction (cstr "version") (amfNumber APP_VERS) (.number APP_VERS)] ++
  if premium then [] else
    [memberAction (cstr "sid") (Blocks.stringfInt v.sid) (Mayhem.stringfInt v.sid),
      memberAction (cstr "signupargs") (amfString v.signupargs) (.string v.signupargs),
      memberAction (cstr "g") (amfString v.g) (.string v.g),
      memberAction (cstr "srv") (Blocks.stringfInt v.srv) (Mayhem.stringfInt v.srv),
      memberAction (cstr "nickname") (amfString v.nickname) (.string v.nickname),
      memberAction (cstr "ft") (Blocks.stringfInt v.ft) (Mayhem.stringfInt v.ft)]

def connectActions (grants : ℕ → Bool) (heap : CStr) (v : Wmvars) (premium : Bool) :
    List (Action (List Amf)) :=
  [appendAction (amfString (some (cstr "connect"))) (.string (some (cstr "connect"))),
    appendAction (amfNumber 0x3ff0000000000000) (.number 0x3ff0000000000000),
    objectAction (commandActions grants heap v premium),
    appendAction (amfString (some (cstr "0"))) (.string (some (cstr "0"))),
    appendAction (Blocks.stringfInt v.pid) (Mayhem.stringfInt v.pid),
    appendAction (amfString (if premium then v.sakey else none))
      (.string (if premium then v.sakey else none)),
    objectAction (sessionActions v premium)]

variable {heap : CStr} {v : Wmvars} {premium : Bool} {E : Fault → Prop}

theorem steps_command (hurl : premium = true → v.tcUrl = none → E .null) (obj : ℕ) :
    StepsFrom grants E (objectAt obj) (anyObject obj + Lost) (some obj) 0
      (commandActions grants heap v premium) :=
  ⟨step_setApp hurl obj 0, step_setMember (makes_string _) _ obj _,
    step_setMember (makes_string _) _ obj _, step_setMember (makes_string _) _ obj _,
    step_setMember (makes_bool _) _ obj _, step_setMember (makes_number _) _ obj _,
    step_setMember (makes_number _) _ obj _, step_setMember (makes_number _) _ obj _,
    step_setMember (makes_number _) _ obj _, step_setMember (makes_string _) _ obj _,
    step_setMember (makes_number _) _ obj _, trivial⟩

theorem steps_session (obj : ℕ) : StepsFrom grants E (objectAt obj) (anyObject obj + Lost) (some obj)
    0 (sessionActions v premium) := by
  cases premium with
  | true =>
    exact ⟨step_setMember (makes_string _) _ obj _, step_setMember (makes_stringfInt v.pid) _ obj _,
      step_setMember (makes_string _) _ obj _, step_setMember (makes_stringfInt v.hd) _ obj _,
      step_setMember (makes_string _) _ obj _, step_setMember (makes_string _) _ obj _,
      step_setMember (makes_string _) _ obj _, step_setMember (makes_number _) _ obj _, trivial⟩
  | false =>
    exact ⟨step_setMember (makes_string _) _ obj _, step_setMember (makes_stringfInt v.pid) _ obj _,
      step_setMember (makes_string _) _ obj _, step_setMember (makes_stringfInt v.hd) _ obj _,
      step_setMember (makes_string _) _ obj _, step_setMember (makes_string _) _ obj _,
      step_setMember (makes_string _) _ obj _, step_setMember (makes_number _) _ obj _,
      step_setMember (makes_stringfInt v.sid) _ obj _, step_setMember (makes_string _) _ obj _,
      step_setMember (makes_string _) _ obj _, step_setMember (makes_stringfInt v.srv) _ obj _,
      step_setMember (makes_string _) _ obj _, step_setMember (makes_stringfInt v.ft) _ obj _, trivial⟩

theorem path_command {elem : List (CStr × Amf)}
    (h : Path ((commandActions grants heap v premium).map Prod.snd) [] elem) :
    ∃ app, App grants heap v premium app ∧ elem = setAll (commandMembers app v) := by
  obtain ⟨_, ⟨app, happ, rfl⟩, _, rfl, _, rfl, _, rfl, _, rfl, _, rfl, _, rfl, _, rfl, _, rfl, _, rfl,
    _, rfl, rfl⟩ := h
  exact ⟨app, happ, rfl⟩

theorem path_session {elem : List (CStr × Amf)}
    (h : Path ((sessionActions v premium).map Prod.snd) [] elem) :
    elem = setAll (sessionMembers v premium) := by
  cases premium with
  | true =>
    obtain ⟨_, rfl, _, rfl, _, rfl, _, rfl, _, rfl, _, rfl, _, rfl, _, rfl, rfl⟩ := h
    rfl
  | false =>
    obtain ⟨_, rfl, _, rfl, _, rfl, _, rfl, _, rfl, _, rfl, _, rfl, _, rfl, _, rfl, _, rfl, _, rfl,
      _, rfl, _, rfl, _, rfl, rfl⟩ := h
    rfl

theorem leads_connect : Leads (.connect heap v premium) grants
    ((connectActions grants heap v premium).map Prod.snd) := by
  rintro vals ⟨_, rfl, _, rfl, _, ⟨elem, hcommand, rfl⟩, _, rfl, _, rfl, _, rfl, _,
    ⟨elem', hsession, rfl⟩, rfl⟩
  obtain ⟨app, happ, rfl⟩ := path_command hcommand
  obtain rfl := path_session hsession
  rcases happ with happ | ⟨hfail, rfl, rfl⟩
  · left
    rw [Outgoing.inv, Mayhem.mayhemAmfConnect, happ]
    rfl
  · right
    rw [setAll_eq (commandMembers_nodup _ v), setAll_eq (sessionMembers_nodup v true)]
    exact ⟨hfail, rfl⟩

theorem triple_connect : Triple grants 0 ((Outgoing.connect heap v premium).run rtmpSend)
    (outcome grants rtmpSend ((Outgoing.connect heap v premium).Msg grants))
    ((Outgoing.connect heap v premium).Faults grants) := by
  have hurl : premium = true → v.tcUrl = none → (Outgoing.connect heap v premium).Faults grants .null := by
    rintro rfl hnone
    refine .inr ⟨.nullString, ?_⟩
    rw [Outgoing.inv, Mayhem.mayhemAmfConnect, appName, if_pos rfl, hnone]
    rfl
  have hrun : (Outgoing.connect heap v premium).run rtmpSend =
      sendInvoke rtmpSend ⟨3, three_lt_chans⟩ 0 RTMP_MSG_INVOKE
        (built 7 ((connectActions grants heap v premium).map Prod.fst)) := by
    cases premium <;> rfl
  have hlen : (connectActions grants heap v premium).length = 7 := rfl
  rw [hrun]
  refine (triple_sendInvoke (fun a => ?_) hlen leads_connect.mayFail).post fun ret =>
    leads_connect.messages fun _ => rfl
  refine ⟨step_appendArg (makes_string _) (by decide), step_appendArg (makes_number _) (by decide),
    step_appendObject (steps_command hurl) ?_ (by decide), step_appendArg (makes_string _) (by decide),
    step_appendArg (makes_stringfInt v.pid) (by decide), step_appendArg (makes_string _) (by decide),
    step_appendObject steps_session ?_ (by decide), trivial⟩
  · exact fun hfail => allOf_null fun F => triple_setApp_null (.inl hfail)
  · intro hfail
    cases premium <;> exact allOf_null fun F => triple_setMember_null (makes_string _) (.inl hfail) _

end Blocks

namespace Outgoing

variable {grants : ℕ → Bool}

theorem triple_run (q : Outgoing) (rtmpSend : OutMsg → Bool) : Triple grants 0 (q.run rtmpSend)
    (outcome grants rtmpSend (q.Msg grants)) (q.Faults grants) := by
  cases q with
  | connect heap v premium => exact triple_connect
  | start => exact triple_start
  | createStream num => exact triple_createStream num
  | play premium vidpath sid streamId => exact triple_play premium vidpath sid streamId
  | auth code => exact triple_auth code
  | chat msg => exact triple_chat msg

/-- Requests one after the other, each with what `rtmp_send` makes of its message. -/
def runAll : List (Outgoing × (OutMsg → Bool)) → P (List Bool)
  | [] => return []
  | q :: qs => do
    let ret ← q.1.run q.2
    let rets ← runAll qs
    return ret :: rets

theorem triple_runAll (qs : List (Outgoing × (OutMsg → Bool))) : Triple grants 0 (runAll qs)
    (each (qs.map fun q => outcome grants q.2 (q.1.Msg grants)))
    (fun e => ∃ q ∈ qs, q.1.Faults grants e) := by
  have hnil : runAll [] = pure [] := rfl
  exact triple_each hnil (fun _ _ => rfl) fun q _ => triple_run q.1 q.2

/-- A request is answered by what `rtmp_send` makes of the message of its invoke. -/
def Answered (q : Outgoing × (OutMsg → Bool)) (ret : Bool) : Prop :=
  ∃ inv msg, q.1.inv = .ok inv ∧ q.1.message inv = some msg ∧ ret = q.2 msg

theorem outcome_granted {q : Outgoing × (OutMsg → Bool)} {ret : Bool} (hgrants : Granted grants)
    {own : Multiset (ℕ × Block)} (hown : own ∈ outcome grants q.2 (q.1.Msg grants) ret) :
    own = 0 ∧ Answered q ret := by
  rcases hown with hown | hown
  · obtain ⟨⟨msg, ⟨inv, hsends, hmsg⟩, hret⟩, hzero⟩ := mem_given.mp hown
    obtain ⟨hfail, -⟩ | hinv := hsends.symm
    · exact absurd hgrants hfail
    · exact ⟨hzero, inv, msg, hinv, hmsg, hret⟩
  · exact absurd hgrants (mem_given.mp hown).1.1

theorem outcomes_granted {qs : List (Outgoing × (OutMsg → Bool))} {rets : List Bool}
    (hgrants : Granted grants) {own : Multiset (ℕ × Block)}
    (hown : own ∈ each (qs.map fun q => outcome grants q.2 (q.1.Msg grants)) rets) :
    own = 0 ∧ List.Forall₂ Answered qs rets := by
  have hall := each_forall₂ (P := fun _ => 0) (fun q _ ret _ => outcome_granted hgrants) hown
  rw [List.map_const', List.sum_replicate, nsmul_zero] at hall
  exact hall

/-- Whatever requests a session makes and whichever allocations fail, no block is used that is not
there or given back twice: a request that fails leaves one string or value at most, and one that is
sent nothing. If no allocation fails, and the invokes can be made and encoded and are not too long
for an `int`, the requests are answered one by one and memory is as before. -/
theorem requests_footprint (grants : ℕ → Bool) (qs : List (Outgoing × (OutMsg → Bool))) :
    Triple grants 0 (runAll qs) (each (qs.map fun q => outcome grants q.2 (q.1.Msg grants)))
      (fun e => ∃ q ∈ qs, q.1.Faults grants e) ∧
    (Granted grants → (∀ q ∈ qs, ∃ inv, q.1.inv = .ok inv ∧ inv.Completes ∧ inv.Short) → ∀ s : BlockHeap Block,
      ∃ rets s', runAll qs grants s = .ok (rets, s') ∧ s'.cells.Perm s.cells ∧
        List.Forall₂ Answered qs rets) := by
  refine ⟨triple_runAll qs, fun hgrants hqs s => ?_⟩
  have hrun := @triple_runAll grants qs s 0 s.cells rfl (zero_add _).symm
  revert hrun
  cases hall : runAll qs grants s with
  | error e =>
    rintro ⟨q, hq, he⟩
    obtain ⟨inv, hinv, hc, hshort⟩ := hqs q hq
    exfalso
    cases e with
    | null =>
      rcases he with hfail | ⟨e, he⟩
      · exact hfail hgrants
      · rw [hinv] at he
        cases he
    | wild =>
      obtain ⟨inv', hsends, hnot⟩ := he
      exact hnot (hsends.granted hgrants hinv ▸ hshort)
    | abort =>
      obtain ⟨inv', hsends, hnot⟩ := he
      exact hnot (hsends.granted hgrants hinv ▸ hc)
  | ok r =>
    rintro ⟨own, hown, hcells⟩
    obtain ⟨rfl, hanswers⟩ := outcomes_granted hgrants hown
    rw [zero_add] at hcells
    exact ⟨r.1, r.2, rfl, Multiset.coe_eq_coe.mp hcells, hanswers⟩

/-- A start that is sent, and a stream that is not created. -/
theorem requests_footprint_start : ∃ s' : BlockHeap Block,
    runAll [(.start, fun _ => true), (.createStream 0, fun _ => false)] (fun _ => true) empty =
      .ok ([true, false], s') ∧ s'.cells = [] := by
  have hstart : Naiad.mayhemAmfStart.Completes ∧ Naiad.mayhemAmfStart.Short := by
    refine ⟨⟨rfl, rfl⟩, ?_⟩
    simp only [Invoke.Short, Naiad.mayhemAmfStart, List.mem_cons, Option.some.injEq,
      List.not_mem_nil, or_false]
    rintro a (rfl | rfl | rfl | rfl | rfl | rfl)
    · exact .string (by decide)
    · exact .number
    · exact .null
    · exact .number
    · exact .number
    · refine .object ?_ ?_
      · decide
      · exact List.forall_mem_singleton.mpr .number
  have hcreate : Invoke.Completes
        [some (.string (some (cstr "createStream"))), some (.number 0), some .null] ∧
      Invoke.Short [some (.string (some (cstr "createStream"))), some (.number 0), some .null] := by
    refine ⟨⟨rfl, rfl⟩, ?_⟩
    simp only [Invoke.Short, List.mem_cons, Option.some.injEq, List.not_mem_nil, or_false]
    rintro a (rfl | rfl | rfl)
    · exact .string (by decide)
    · exact .number
    · exact .null
  obtain ⟨rets, s', hrun, hcells, hanswers⟩ := (requests_footprint (fun _ => true)
    [(.start, fun _ => true), (.createStream 0, fun _ => false)]).2 (fun _ => rfl)
      (by simpa using ⟨⟨_, rfl, hstart⟩, _, rfl, hcreate⟩) empty
  obtain ⟨ret, rets, ⟨_, _, -, -, rfl⟩, hrest, rfl⟩ := List.forall₂_cons_left_iff.mp hanswers
  obtain ⟨ret', rets, ⟨_, _, -, -, rfl⟩, hnil, rfl⟩ := List.forall₂_cons_left_iff.mp hrest
  obtain rfl := List.forall₂_nil_left_iff.mp hnil
  exact ⟨s', hrun, List.Perm.eq_nil hcells⟩

end Outgoing
end Mayhem
