import Mathlib.Data.Int.Notation
import Mayhem.Amf.Value
import Mayhem.Lib.Int32
import Mayhem.Lib.Program

/-! `struct _mayhem` and `struct _netstatus`, and what the handlers of an invoke do with
them. The callbacks of the owner are observers, of which the calls are kept. -/
namespace Mayhem.Naiad

def cstr (s : String) : CStr := s.toList.map fun c => c.toNat.toUInt8

inductive NetstatusState
  | initial
  | connectSent
  | connected
  | createSent
  | created
  | playSent
  | playing
  | stopped
  | reset
deriving DecidableEq, Repr

/-- The callbacks are the ones that `rtmp_connected` installs. -/
structure Netstatus where
  state : NetstatusState := .initial
  chan : ℕ := 3
  dest : UInt32 := 0
deriving Repr

inductive MayhemState
  | abort
  | connecting
  | connected
  | frozen
  | authorized
  | gotStream
  | playing
  | paused
deriving DecidableEq, Repr

structure NaiadRoom where
  flags : UInt32
  topic : Option CStr
deriving Repr

structure NaiadUser where
  flags : UInt32 := 0
  id : Option CStr := none
  name : Option CStr := none
deriving Repr

structure NaiadGoldshow where
  duration : UInt32
  id : UInt32
  maxwait : UInt32
  minbuyin : UInt32
  pledged : UInt32
  pledgedamt : UInt32
  requestedamt : UInt32
  showtopic : Option CStr
  timetostart : UInt64
  total : UInt32
deriving Repr

/-- Which callbacks of `struct mayhem_ops` are set. -/
structure MayhemOps where
  naiadAuthorize : Bool
  naiadFreeze : Bool
  naiadPreGoldShow : Bool
  naiadAddChat : Bool
  naiadUserList : Bool
  naiadPledgeGold : Bool
  streamError : Bool
  streamPlay : Bool
  streamReset : Bool
  streamStop : Bool
  connectError : Bool
deriving Repr

/-- A call of a callback of the owner. -/
inductive Event
  | naiadAuthorize (code : Int32) (nick bitch : Option CStr) (sid : UInt32) (room : NaiadRoom)
  | naiadFreeze (code : Int32) (desc : Option CStr)
  | naiadPreGoldShow (gs : NaiadGoldshow)
  | naiadAddChat (nick chat : Option CStr)
  | naiadUserList (ac : UInt32) (usr : List NaiadUser)
  | naiadPledgeGold (amt status : UInt64)
  | streamError (code desc : Option CStr)
  | streamPlay
  | streamReset
  | streamStop
  | connectError (code desc : Option CStr)

/-- What comes of a message that is sent. -/
inductive SendResult
  | sent
  | blocked
  /-- The connection is lost on the way. -/
  | died (reason : CStr)

structure Session where
  /-- `m->rtmp` is not NULL. -/
  rtmp : Bool
  ns : Option Netstatus
  /-- `vars->sakey`. -/
  sakey : Option CStr
  vidpath : Option CStr
  ops : Option MayhemOps
  state : MayhemState
  sid : UInt32
  /-- What comes of the messages in the order in which they are sent. -/
  sends : ℕ → SendResult
  sent : List (ℕ × UInt32 × Invoke) := []
  events : List Event := []

/-- A call from the RTMP layer. -/
abbrev Call := Program Session Crash

/-! ### The C library -/

/-- `!strcmp(a, b)`. -/
def streq (a : CStr) : Option CStr → Except Crash Bool
  | none => .error .nullString
  | some b => .ok (decide (a = b))

def strdup : Option CStr → Except Crash CStr
  | none => .error .nullString
  | some s => .ok s

def digits (s : CStr) : ℕ :=
  (s.takeWhile fun c => 48 ≤ c ∧ c ≤ 57).foldl (fun n c => 10 * n + (c.toNat - 48)) 0

def signed (s : CStr) : ℤ :=
  match s.dropWhile fun c => c = 32 ∨ (9 ≤ c ∧ c ≤ 13) with
  | 45 :: s => -digits s
  | 43 :: s => digits s
  | s => digits s

/-- `strtol(s, NULL, 10)`, with a `long` of 64 bits: a number that it cannot hold is cut. -/
def strtol (s : CStr) : ℤ :=
  if signed s < -0x8000000000000000 then -0x8000000000000000
  else if signed s < 0x8000000000000000 then signed s
  else 0x7fffffffffffffff

/-- `(int)strtol(s, NULL, 10)`. -/
def atoi : Option CStr → Except Crash ℤ
  | none => .error .nullString
  | some s => .ok (toInt32 (strtol s % 0x100000000).toNat)

/-- The integral part of a double. There is none of an infinity or a NaN. -/
def truncate (num : UInt64) : Option ℤ :=
  let exp := (num >>> 52 &&& 0x7ff).toNat
  let mant := (num &&& 0xfffffffffffff).toNat + if exp = 0 then 0 else 0x10000000000000
  let n : ℤ := if exp < 1075 then ↑(mant >>> (1075 - exp)) else ↑(mant <<< (exp - 1075))
  if exp = 0x7ff then none else some (if num >>> 63 = 0 then n else -n)

/-- What becomes of a double whose integral part does not fit the type that it is converted to.
C leaves that open. -/
class Casts where
  toUnsigned : UInt64 → UInt32
  toInt : UInt64 → Int32

/-- The low half of a conversion to 64 bits, and one to 32 bits, of which the failures are the
least numbers. -/
instance x86_64 : Casts where
  toUnsigned num :=
    match truncate num with
    | some n => if -0x8000000000000000 ≤ n ∧ n < 0x8000000000000000 then .ofInt n else 0
    | none => 0
  toInt _ := .minValue

/-- Numbers where the source converts them to `unsigned int`, to `int` or to `float`. -/
def toUnsigned [Casts] (num : UInt64) : UInt32 :=
  match truncate num with
  | some n => if 0 ≤ n ∧ n < 0x100000000 then .ofInt n else Casts.toUnsigned num
  | none => Casts.toUnsigned num

def toInt [Casts] (num : UInt64) : Int32 :=
  match truncate num with
  | some n => if -0x80000000 ≤ n ∧ n < 0x80000000 then .ofInt n else Casts.toInt num
  | none => Casts.toInt num

def toFloat (num : UInt64) : UInt64 := (Float.ofBits num).toFloat32.toFloat.toBits

/-- 2.0, the number of the call that creates a stream. -/
def CREATE_STREAM_NUM : UInt64 := 0x4000000000000000

/-! ### Sessions -/

def isPremium (m : Session) : Bool := m.sakey.getD [] ≠ []

def mayhemAbort : Call Unit :=
  modify fun m => { m with state := .abort, rtmp := false, ns := none }

/-- Call the owner if the callback is set. The arguments are evaluated only then. -/
def owner (callback : MayhemOps → Bool) (ev : Call Event) : Call Unit := do
  let m ← get
  if (m.ops.map callback).getD false then
    let ev ← ev
    modify fun m => { m with events := m.events ++ [ev] }

def rtmpDied (reason : CStr) : Call Unit := do
  owner (·.connectError) (return .connectError (some (cstr "rtmp")) (some reason))
  mayhemAbort

def rtmpFlexInvoke (chan : ℕ) (dest : UInt32) (inv : Invoke) : Call Bool := do
  let m ← get
  if m.rtmp then
    modify fun m => { m with sent := m.sent ++ [(chan, dest, inv)] }
    match m.sends m.sent.length with
    | .sent => return true
    | .blocked => return false
    | .died reason =>
      rtmpDied reason
      return false
  else throw .nullDeref

/-- `ns`, to be dereferenced. -/
def derefNs : Call Netstatus := do
  match (← get).ns with
  | none => throw .nullDeref
  | some ns => return ns

def setNsState (state : NetstatusState) : Call Unit := do
  let ns ← derefNs
  modify fun m => { m with ns := some { ns with state := state } }

def netstatusCreatestream (num : UInt64) : Call Bool := do
  let ns ← derefNs
  let ret ← rtmpFlexInvoke ns.chan ns.dest
    [some (.string (some (cstr "createStream"))), some (.number num), some .null]
  if ret then setNsState .createSent
  return ret

def netstatusPlay (obj : Amf) (streamId : UInt32) : Call Bool := do
  let _ ← derefNs
  let ret ← rtmpFlexInvoke 8 streamId
    [some (.string (some (cstr "play"))), some (.number 0), some .null, some obj]
  if ret then setNsState .playSent
  return ret

/-- Whether one of the values has another type, from left to right. -/
def typeMismatch : List (Option Amf × UInt8) → Except Crash Bool
  | [] => .ok false
  | (a, type) :: rest => do
    let t ← amfType a
    if t ≠ type then return true else typeMismatch rest

/-- The loop over a table of methods: -1 if the one that is called returns 0. -/
def dispatchTable {M : Type → Type} [Monad M] [MonadLiftT (Except Crash) M] (method : Option CStr)
    (inv : Invoke) : List (CStr × (Invoke → M ℤ)) → M ℤ
  | [] => return 0
  | (name, call) :: tbl => do
    if ← streq name method then
      let ret ← call inv
      return if ret = 0 then -1 else 1
    else dispatchTable method inv tbl

end Mayhem.Naiad
