import Mayhem.Naiad.Session

/-! `netstatus.c` under any owner, and the callbacks of a session that its answers run. -/
namespace Mayhem.Naiad

structure NetstatusEvent where
  level : Option CStr
  code : Option CStr
  desc : Option CStr
  clientid : Option CStr
deriving Repr

def ripStatus (o_stat : Option Amf) : Except Crash NetstatusEvent := do
  let level ← amfObjectGetString o_stat (cstr "level") none
  let code ← amfObjectGetString o_stat (cstr "code") none
  let desc ← amfObjectGetString o_stat (cstr "description") none
  let clientid ← amfObjectGetString o_stat (cstr "clientid") none
  return { level, code, desc, clientid }

/-- A callback of `netconn_ops` or `netstream_ops` that is made. All of them are set. -/
inductive Notify
  | connected
  | connectError (code desc : Option CStr)
  | streamCreated (streamId : UInt32)
  | start
  | stop
  | reset
  | playError (code desc : Option CStr)
deriving DecidableEq

/-- What an owner has of a netstatus: how it is dereferenced, and its callbacks. -/
structure Netops (M : Type → Type) where
  deref : M Netstatus
  setState (state : NetstatusState) : M Unit
  notify (n : Notify) : M Unit

section

variable {M : Type → Type} [Monad M] [MonadLiftT (Except Crash) M] (ops : Netops M)

/-! ### Results -/

def connSuccess (_ : NetstatusEvent) : M ℤ := do
  ops.setState .connected
  ops.notify .connected
  return 1

def connErr (ev : NetstatusEvent) : M ℤ := do
  ops.setState .connected
  ops.notify (.connectError ev.code ev.desc)
  return 1

def playError (ev : NetstatusEvent) : M ℤ := do
  ops.setState .stopped
  ops.notify (.playError ev.code ev.desc)
  return 1

def playStart (_ : NetstatusEvent) : M ℤ := do
  ops.setState .playing
  ops.notify .start
  return 1

def playStop (_ : NetstatusEvent) : M ℤ := do
  ops.setState .stopped
  ops.notify .stop
  return 1

def playReset (_ : NetstatusEvent) : M ℤ := do
  ops.setState .reset
  ops.notify .reset
  return 1

def stdResultTable : List (CStr × Option (NetstatusEvent → M ℤ)) :=
  [(cstr "NetConnection.Connect.Success", some (connSuccess ops)),
   (cstr "NetConnection.Connect.AppShutdown", some (connErr ops)),
   (cstr "NetConnection.Connect.Closed", some (connErr ops)),
   (cstr "NetConnection.Connect.Failed", some (connErr ops)),
   (cstr "NetConnection.Connect.IdleTimeout", none),
   (cstr "NetConnection.Connect.InvalidApp", some (connErr ops)),
   (cstr "NetConnection.Connect.NetworkChange", none),
   (cstr "NetConnection.Connect.Rejected", some (connErr ops)),
   (cstr "NetStream.Play.Start", some (playStart ops)),
   (cstr "NetStream.Play.Reset", some (playReset ops)),
   (cstr "NetStream.Play.Stop", some (playStop ops)),
   (cstr "NetStream.Play.UnpublishNotify", none),
   (cstr "NetStream.Play.PublishNotify", none),
   (cstr "NetStream.Play.StreamNotFound", none),
   (cstr "NetStream.Play.FileStructureInvalid", none),
   (cstr "NetStream.Play.NoSupportedTrackFound", none),
   (cstr "NetStream.Play.Transition", none),
   (cstr "NetStream.Play.InsufficientBW", none),
   (cstr "NetStream.Play.Failed", some (playError ops)),
   (cstr "NetStream.Pause.Notify", none)]

/-- The loop over the table of codes. -/
def dispatchCode (st : NetstatusEvent) : List (CStr × Option (NetstatusEvent → M ℤ)) → M ℤ
  | [] => return 0
  | (code, fn) :: disp => do
    let eq ← streq code st.code
    if eq then
      match fn with
      | some fn => fn st
      | none => return 1
    else dispatchCode st disp

def stdResult (inv : Invoke) : M ℤ :=
  if amfInvokeNargs inv < 4 then return 0
  else do
    let o_rc := amfInvokeGet inv 1
    let o_stat := amfInvokeGet inv 3
    let mismatch ← typeMismatch [(o_rc, AMF_NUMBER), (o_stat, AMF_OBJECT)]
    if mismatch then return 0
    else
      let _ ← amfGetNumber o_rc
      let st ← ripStatus o_stat
      dispatchCode st (stdResultTable ops)

def createResult [Casts] (inv : Invoke) : M ℤ :=
  if amfInvokeNargs inv < 4 then return 0
  else do
    let o_rc := amfInvokeGet inv 1
    let o_id := amfInvokeGet inv 3
    let mismatch ← typeMismatch [(o_rc, AMF_NUMBER), (o_id, AMF_NUMBER)]
    if mismatch then return 0
    else
      let streamId ← amfGetNumber o_id
      ops.setState .created
      ops.notify (.streamCreated (toUnsigned streamId))
      return 1

def nResult [Casts] (inv : Invoke) : M ℤ := do
  let ns ← ops.deref
  if ns.state = .createSent then createResult ops inv else stdResult ops inv

def connClose (_ : Invoke) : M ℤ := return 1

def netstatusTable [Casts] : List (CStr × (Invoke → M ℤ)) :=
  [(cstr "_result", nResult ops), (cstr "_error", stdResult ops), (cstr "onStatus", stdResult ops),
   (cstr "close", connClose)]

def netstatusInvoke [Casts] (inv : Invoke) : M ℤ :=
  if amfInvokeNargs inv < 1 then return -1
  else do
    let method := amfInvokeGet inv 0
    if method.isNone then return -1
    else
      let type ← amfType method
      if type ≠ AMF_STRING then return -1
      else
        let name ← amfGetString method
        dispatchTable name inv (netstatusTable ops)

end

/-! ### Callbacks of a session -/

def streamConnected : Call Unit := do
  modify fun m => { m with state := .connected }
  let m ← get
  unless isPremium m do
    let ret ← netstatusCreatestream CREATE_STREAM_NUM
    unless ret do mayhemAbort

def streamCreated (streamId : UInt32) : Call Unit := do
  modify fun m => { m with state := .gotStream }
  let m ← get
  let path : Amf :=
    .string (if isPremium m then m.vidpath else some (cstr (toString m.sid.toInt32)))
  let ret ← netstatusPlay path streamId
  unless ret do mayhemAbort

def connectError (code desc : Option CStr) : Call Unit := do
  owner (·.connectError) (return .connectError code desc)
  mayhemAbort

/-- The invoke of `mayhem_amf_start`. -/
def mayhemAmfStart : Invoke :=
  [some (.string (some (cstr "NaiadStart"))), some (.number 0), some .null,
    some (.number 0x4033000000000000), some (.number 0x401c000000000000),
    some (.object [(cstr "flags", .number 0)])]

def start : Call Unit := do
  let _ ← rtmpFlexInvoke 3 0 mayhemAmfStart
  owner (·.streamPlay) (return .streamPlay)

def stop : Call Unit := owner (·.streamStop) (return .streamStop)

def reset : Call Unit := owner (·.streamReset) (return .streamReset)

def playErrorCb (code desc : Option CStr) : Call Unit := do
  owner (·.streamError) (return .streamError code desc)
  mayhemAbort

def Notify.call : Notify → Call Unit
  | .connected => Naiad.streamConnected
  | .connectError code desc => Naiad.connectError code desc
  | .streamCreated streamId => Naiad.streamCreated streamId
  | .start => Naiad.start
  | .stop => Naiad.stop
  | .reset => Naiad.reset
  | .playError code desc => playErrorCb code desc

/-- What `rtmp_connected` sets up. -/
def sessionOps : Netops Call where
  deref := derefNs
  setState := setNsState
  notify := Notify.call

end Mayhem.Naiad
