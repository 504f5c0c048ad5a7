import Mayhem.Amf.Owned.Encode
import Mayhem.Naiad.Connect
import Mayhem.Naiad.Invoke

/-! The requests of a session on blocks: `mayhem-amf.c`, and the functions of `netstatus.c` and
`mayhem.c` that put an invoke together, send it and give it back. -/
namespace Mayhem.Blocks

open BlockHeap Naiad Cvars

/-! ### Sending -/

/-- `do_invoke`; `rtmp_send` gets the buffer. -/
def doInvoke (rtmpSend : OutMsg → Bool) (chan : OutChan) (dest : UInt32) (inv : Option ℕ)
    (type : UInt8) : P Bool := do
  let sz ← amfInvokeBufSize inv
  match ← alloc (.str (List.replicate (sz + flexSz type) 0)) with
  | none => return false
  | some buf =>
    let bs ← amfInvokeToBuf inv
    -- past the end of the buffer, or not up to it
    if bs.length ≠ sz then fault .wild
    else
      store (some buf) (.str (List.replicate (flexSz type) 0 ++ bs))
      let ts : UInt32 := if type = RTMP_MSG_FLEX_MESSAGE then 0x1191 else 1
      let ret := rtmpSend ⟨chan, dest, ts, type, ← strAt (some buf)⟩
      free (some buf)
      return ret

/-- An invoke that is made, sent and given back. -/
def sendInvoke (rtmpSend : OutMsg → Bool) (chan : OutChan) (dest : UInt32) (type : UInt8)
    (make : P (Option ℕ)) : P Bool := do
  match ← make with
  | none => return false
  | some inv =>
    let ret ← doInvoke rtmpSend chan dest (some inv) type
    amfInvokeFree (some inv)
    return ret

/-! ### Putting together -/

/-- One step after the other, up to the first that fails. -/
def allOf : List (Option ℕ → P Bool) → Option ℕ → P Bool
  | [], _ => return true
  | f :: fs, p => do
    if ← f p then allOf fs p else return false

def appendArg (value : P (Option ℕ)) (inv : Option ℕ) : P Bool := do
  amfInvokeAppend inv (← value)

def setArg (i : ℕ) (value : P (Option ℕ)) (inv : Option ℕ) : P Bool := do
  amfInvokeSet inv i (← value)

def setMember (name : CStr) (value : P (Option ℕ)) (obj : Option ℕ) : P Bool := do
  amfObjectSet obj name (← value)

/-- `err_obj` gives back the object. -/
def appendObject (sets : List (Option ℕ → P Bool)) (inv : Option ℕ) : P Bool := do
  let obj ← amfObject
  if ← allOf sets obj then amfInvokeAppend inv obj
  else
    amfFree obj
    return false

/-- `err` gives back the invoke. -/
def built (nmemb : ℕ) (args : List (Option ℕ → P Bool)) : P (Option ℕ) := do
  match ← amfInvokeNew nmemb with
  | none => return none
  | some inv =>
    if ← allOf args (some inv) then return some inv
    else
      amfInvokeFree (some inv)
      return none

/-- What is sent once all arguments are set, and given back in any case. -/
def sendSet (rtmpSend : OutMsg → Bool) (chan : OutChan) (dest : UInt32)
    (args : List (Option ℕ → P Bool)) (inv : ℕ) : P Bool := do
  let ret ← if ← allOf args (some inv) then
      doInvoke rtmpSend chan dest (some inv) RTMP_MSG_FLEX_MESSAGE
    else pure false
  amfInvokeFree (some inv)
  return ret

/-! ### The requests -/

def createstream (num : UInt64) : P (Option ℕ) :=
  built 3 [appendArg (amfString (some (cstr "createStream"))), appendArg (amfNumber num),
    appendArg amfNull]

def mayhemAmfStart : P (Option ℕ) :=
  built 6 [appendArg (amfString (some (cstr "NaiadStart"))), appendArg (amfNumber 0),
    appendArg amfNull, appendArg (amfNumber 0x4033000000000000), appendArg (amfNumber APP_VERS),
    appendObject [setMember (cstr "flags") (amfNumber 0)]]

/-- `amf_stringf` of an unsigned variable that is printed as an int. -/
@[irreducible] def stringfInt (n : UInt32) : P (Option ℕ) := amfStringf (formatInt (toInt32 n.toNat))

/-- The host that is returned and the path. -/
def rtmpUrlparse (heap url : CStr) : P (Option ℕ × Option ℕ) := do
  match Mayhem.rtmpUrlparse heap url none (some none) with
  | .error _ => fault .null
  | .ok (none, _) => return (none, none)
  | .ok (some buf, _, path) =>
    match ← alloc (.str buf) with
    | none => return (none, none)
    | some buf =>
      match path.join with
      | none => return (some buf, none)
      | some path => return (some buf, ← alloc (.str path))

/-- `app` for those who pay: the path of the URL. -/
def setPath (heap : CStr) (tcUrl : Option CStr) (obj : Option ℕ) : P Bool := do
  match tcUrl with
  | none => fault .null
  | some url =>
    let (name, path) ← rtmpUrlparse heap url
    free name
    match path with
    | none => setMember (cstr "app") (amfString (some (cstr "naiad/live"))) obj
    | some path =>
      let str ← strAt (some path)
      let ret ← setMember (cstr "app") (amfString (some str)) obj
      free (some path)
      return ret

def setApp (heap : CStr) (v : Wmvars) (premium : Bool) : Option ℕ → P Bool :=
  if premium then setPath heap v.tcUrl
  else setMember (cstr "app") (amfStringf (cstr "reflect/" ++ formatInt (toInt32 v.sid.toNat)))

def mayhemAmfConnect (heap : CStr) (v : Wmvars) (premium : Bool) : P (Option ℕ) :=
  built 7 [appendArg (amfString (some (cstr "connect"))), appendArg (amfNumber 0x3ff0000000000000),
    appendObject [setApp heap v premium,
      setMember (cstr "flashVer") (amfString (some (cstr "LNX 11,2,202,236"))),
      setMember (cstr "swfUrl") (amfString (some SWF_URL)),
      setMember (cstr "tcUrl") (amfString v.tcUrl), setMember (cstr "fpad") (amfBool false),
      setMember (cstr "capabilities") (amfNumber 0x406de00000000000),
      setMember (cstr "audioCodecs") (amfNumber 0x40abee0000000000),
      setMember (cstr "videoCodecs") (amfNumber 0x406f800000000000),
      setMember (cstr "videoFunction") (amfNumber 0x3ff0000000000000),
      setMember (cstr "pageUrl") (amfString v.pageurl),
      setMember (cstr "objectEncoding") (amfNumber 0x4008000000000000)],
    appendArg (amfString (some (cstr "0"))), appendArg (stringfInt v.pid),
    appendArg (amfString (if premium then v.sakey else none)),
    appendObject ([setMember (cstr "ldmov") (amfString v.ldmov),
      setMember (cstr "pid") (stringfInt v.pid),
      setMember (cstr "sessionType") (amfString v.sessiontype),
      setMember (cstr "hd") (stringfInt v.hd), setMember (cstr "sk") (amfString v.sk),
      setMember (cstr "sakey") (amfString v.sakey), setMember (cstr "lang") (amfString v.lang),
      setMember (cstr "version") (amfNumber APP_VERS)] ++
    if premium then [] else [setMember (cstr "sid") (stringfInt v.sid),
      setMember (cstr "signupargs") (amfString v.signupargs),
      setMember (cstr "g") (amfString v.g), setMember (cstr "srv") (stringfInt v.srv),
      setMember (cstr "nickname") (amfString v.nickname),
      setMember (cstr "ft") (stringfInt v.ft)])]

/-- `auth_result`. -/
def authResult (rtmpSend : OutMsg → Bool) (code : UInt64) : P Bool := do
  match ← amfInvokeNew 4 with
  | none => return false
  | some inv => sendSet rtmpSend ⟨3, three_lt_chans⟩ 0 [setArg 0 (amfString (some (cstr "_result"))),
      setArg 1 (amfNumber (toFloat code)), setArg 2 amfNull, setArg 3 amfNull] inv

/-- What the text of a chat is printed into. -/
def chatText (msg : CStr) : CStr :=
  cstr "<P ALIGN=\"LEFT\"><FONT FACE=\"Arial\" SIZE=\"11\" COLOR=\"#000000\" " ++
    cstr "LETTERSPACING=\"0\" KERNING=\"0\">" ++ msg ++ cstr "</FONT></P>"

def mayhemSndChat (rtmpSend : OutMsg → Bool) (msg : CStr) : P Bool := do
  match ← amfInvokeNew 10 with
  | none => return false
  | some inv => sendSet rtmpSend ⟨3, three_lt_chans⟩ 0 [setArg 0 (amfString (some (cstr "NaiadSndChat"))),
      setArg 1 (amfNumber 0), setArg 2 amfNull, setArg 3 (amfNumber 0),
      setArg 4 (amfString (some [])), setArg 5 (amfString (some msg)), setArg 6 (amfString (some [])),
      setArg 7 (amfBool false), setArg 8 (amfString (some [])),
      setArg 9 (amfStringf (chatText msg))] inv

/-- `netstatus_play`. The object is given back by itself only if there is no invoke. -/
def netstatusPlay (rtmpSend : OutMsg → Bool) (obj : Option ℕ) (streamId : UInt32) : P Bool := do
  match ← amfInvokeNew 4 with
  | none =>
    amfFree obj
    return false
  | some inv => sendSet rtmpSend ⟨8, eight_lt_chans⟩ streamId [setArg 0 (amfString (some (cstr "play"))),
      setArg 1 (amfNumber 0), setArg 2 amfNull, setArg 3 (pure obj)] inv

/-- `stream_created`: the path for those who pay is printed. -/
def streamCreated (rtmpSend : OutMsg → Bool) (premium : Bool) (vidpath : Option CStr) (sid : UInt32)
    (streamId : UInt32) : P Bool := do
  if premium then
    let path ← amfString vidpath
    match ← amfAt path with
    | .string _ => netstatusPlay rtmpSend path streamId
    | _ => fault .abort
  else netstatusPlay rtmpSend (← stringfInt sid) streamId

end Mayhem.Blocks
