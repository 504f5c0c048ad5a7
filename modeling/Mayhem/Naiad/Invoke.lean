import Mayhem.Naiad.Netstatus

/-! The invoke callback of a session and the handlers of its remote methods. -/
namespace Mayhem.Naiad

def authResult (code : UInt64) : Call Bool :=
  rtmpFlexInvoke 3 0 [some (.string (some (cstr "_result"))), some (.number (toFloat code)),
    some .null, some .null]

def iAuth [Casts] (inv : Invoke) : Call ℤ :=
  if amfInvokeNargs inv < 26 then return 0
  else do
    let o_rc := amfInvokeGet inv 1
    let o_nick := amfInvokeGet inv 6
    let o_bitch := amfInvokeGet inv 7
    let o_sid := amfInvokeGet inv 12
    let o_room := amfInvokeGet inv 25
    let mismatch ← typeMismatch [(o_rc, AMF_NUMBER), (o_nick, AMF_STRING), (o_bitch, AMF_STRING),
      (o_sid, AMF_STRING), (o_room, AMF_OBJECT)]
    if mismatch then return 0
    else
      let topic ← amfObjectGetString o_room (cstr "roomtopic") none
      let flags ← amfObjectGetNumber o_room (cstr "flags") 0
      modify fun m => { m with state := .authorized }
      owner (·.naiadAuthorize) do
        let code ← amfGetNumber o_rc
        let nick ← amfGetString o_nick
        let bitch ← amfGetString o_bitch
        let path ← amfGetString o_sid
        let sid ← atoi path
        return .naiadAuthorize (toInt code) nick bitch (UInt32.ofInt sid)
          { flags := toUnsigned flags, topic }
      let m ← get
      if isPremium m then
        let code ← amfGetNumber o_rc
        let ret ← authResult code
        unless ret do mayhemAbort
      return 1

def iFreeze [Casts] (inv : Invoke) : Call ℤ :=
  if amfInvokeNargs inv < 5 then return 0
  else do
    let o_rc := amfInvokeGet inv 1
    let o_desc := amfInvokeGet inv 4
    let mismatch ← typeMismatch [(o_rc, AMF_NUMBER), (o_desc, AMF_STRING)]
    if mismatch then return 0
    else
      modify fun m => { m with state := .frozen }
      owner (·.naiadFreeze) do
        let code ← amfGetNumber o_rc
        let desc ← amfGetString o_desc
        return .naiadFreeze (toInt code) desc
      return 1

/-- `user_parse`, on an entry that is all zeros. -/
def userParse [Casts] (obj : Option Amf) : Except Crash NaiadUser :=
  if obj.isNone then .ok {}
  else do
    let type ← amfType obj
    if type ≠ AMF_OBJECT then return {}
    else
      let flags ← amfObjectGetNumber obj (cstr "flags") 0
      let id ← amfObjectGetString obj (cstr "id") none
      let name ← amfObjectGetString obj (cstr "userName") none
      return { flags := toUnsigned flags, id, name }

/-- The entries for the arguments from `i` on. -/
def parseUsers [Casts] (inv : Invoke) (i : ℕ) : ℕ → Except Crash (List NaiadUser)
  | 0 => .ok []
  | n + 1 => do
    let usr ← userParse (amfInvokeGet inv i)
    let rest ← parseUsers inv (i + 1) n
    return usr :: rest

def iUserlist [Casts] (inv : Invoke) : Call ℤ := do
  let nargs := amfInvokeNargs inv
  if nargs < 5 then return 0
  else
    let obj := amfInvokeGet inv (nargs - 1)
    let ac ← amfObjectGetNumber obj (cstr "ac") 0
    let usr ← parseUsers inv 3 (nargs - 5)
    owner (·.naiadUserList) (return .naiadUserList (toUnsigned ac) usr)
    return 1

def iChat (inv : Invoke) : Call ℤ :=
  if amfInvokeNargs inv < 6 then return 0
  else do
    let user := amfInvokeGet inv 4
    let chat := amfInvokeGet inv 5
    if user.isNone ∨ chat.isNone then return 0
    else
      let mismatch ← typeMismatch [(user, AMF_STRING), (chat, AMF_STRING)]
      if mismatch then return 0
      else
        owner (·.naiadAddChat) do
          let nick ← amfGetString user
          let chat ← amfGetString chat
          return .naiadAddChat nick chat
        return 1

def iPregold [Casts] (inv : Invoke) : Call ℤ :=
  if amfInvokeNargs inv < 4 then return 0
  else do
    let obj := amfInvokeGet inv 3
    if obj.isNone then return 0
    else
      let type ← amfType obj
      if type ≠ AMF_OBJECT then return 0
      else
        let duration ← amfObjectGetNumber obj (cstr "duration") 0
        let id ← amfObjectGetNumber obj (cstr "id") 0
        let maxwait ← amfObjectGetNumber obj (cstr "maxwait") 0
        let minbuyin ← amfObjectGetNumber obj (cstr "minbuyin") 0
        let pledged ← amfObjectGetNumber obj (cstr "pledged") 0
        let pledgedamt ← amfObjectGetNumber obj (cstr "pledgedamt") 0
        let requestedamt ← amfObjectGetNumber obj (cstr "requestedamt") 0
        let showtopic ← amfObjectGetString obj (cstr "showtopic") none
        let timetostart ← amfObjectGetNumber obj (cstr "timetostart") 0
        let total ← amfObjectGetNumber obj (cstr "total") 0
        let gs : NaiadGoldshow :=
          { duration := toUnsigned duration, id := toUnsigned id, maxwait := toUnsigned maxwait,
            minbuyin := toUnsigned minbuyin, pledged := toUnsigned pledged,
            pledgedamt := toUnsigned pledgedamt, requestedamt := toUnsigned requestedamt,
            showtopic, timetostart, total := toUnsigned total }
        owner (·.naiadPreGoldShow) (return .naiadPreGoldShow gs)
        return 1

def iPledgeGold (inv : Invoke) : Call ℤ :=
  if amfInvokeNargs inv < 4 then return 0
  else do
    let obj := amfInvokeGet inv 3
    if obj.isNone then return 0
    else
      let type ← amfType obj
      if type ≠ AMF_OBJECT then return 0
      else
        let a ← amfObjectGetNumber obj (cstr "amount") 0
        let s ← amfObjectGetNumber obj (cstr "status") 0
        owner (·.naiadPledgeGold) (return .naiadPledgeGold a s)
        return 1

def iSet (inv : Invoke) : Call ℤ := do
  let o_vidpath := amfInvokeGet inv 3
  let type ← amfType o_vidpath
  if type = AMF_STRING then
    let str ← amfGetString o_vidpath
    let path ← strdup str
    modify fun m => { m with vidpath := some path }
  let ret ← netstatusCreatestream CREATE_STREAM_NUM
  unless ret do mayhemAbort
  return 1

def naiadTable [Casts] : List (CStr × (Invoke → Call ℤ)) :=
  [(cstr "NaiadFreeze", iFreeze), (cstr "NaiadAuthorized", iAuth), (cstr "NaiadUserList", iUserlist),
   (cstr "NaiadAddChat", iChat), (cstr "NaiadPledgeGold", iPledgeGold),
   (cstr "NaiadPreGoldShow", iPregold), (cstr "NaiadSet", iSet)]

def naiadDispatch [Casts] (inv : Invoke) (method : Option CStr) : Call ℤ :=
  dispatchTable method inv naiadTable

def invoke [Casts] (inv : Invoke) : Call ℤ :=
  if amfInvokeNargs inv < 1 then return 0
  else do
    let method := amfInvokeGet inv 0
    if method.isNone then return 0
    else
      let type ← amfType method
      if type ≠ AMF_STRING then return 0
      else
        let name ← amfGetString method
        let ret ← naiadDispatch inv name
        if ret < 0 then return 0
        else if ret ≠ 0 then return 1
        else
          let ret ← netstatusInvoke sessionOps inv
          if ret < 0 then return 0
          else if ret = 0 then return 0
          else return 1

end Mayhem.Naiad
