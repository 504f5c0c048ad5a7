import Mayhem.Amf.Resend
import Mayhem.Cvars
import Mayhem.Lib.Heap
import Mayhem.Rtmp.Requests
import Mayhem.Rtmp.Url

/-! The first request of a session: `mayhem_amf_connect`, from the variables of the page to what
the server is shown of them. -/
namespace Mayhem

open Amf Cvars Naiad

def SWF_URL : CStr :=
  cstr "http://www.naiadsystems.com/flash/generic/20120712-02a02f1/load/avchat.swf"

/-- 7.0. -/
def APP_VERS : UInt64 := 0x401c000000000000

/-! ### Numbers -/

/-- `"%d"`. -/
def formatInt (n : ℤ) : CStr :=
  (if n < 0 then [45] else []) ++ if n = 0 then [48] else decimal n.natAbs

/-- An unsigned variable that is printed as an int. -/
def stringfInt (n : UInt32) : Amf := .string (amfStringf (formatInt (toInt32 n.toNat)))

/-! ### The request -/

/-- `amf_object` and the calls of `amf_object_set`. -/
def setAll (sets : List (CStr × Amf)) : List (CStr × Amf) :=
  sets.foldl (fun elem s => amfObjectSet s.1 s.2 elem) []

/-- The value of `app`. `strncmp` is given the URL first. -/
def appName (heap : CStr) (v : Wmvars) (premium : Bool) : Except Crash Amf :=
  if premium then
    match v.tcUrl with
    | none => .error .nullString
    | some url => do
      let (_, _, path) ← rtmpUrlparse heap url none (some none)
      return .string (some (path.join.getD (cstr "naiad/live")))
  else return .string (amfStringf (cstr "reflect/" ++ formatInt (toInt32 v.sid.toNat)))

/-- What is set in the third argument. -/
def commandMembers (app : Amf) (v : Wmvars) : List (CStr × Amf) :=
  [(cstr "app", app), (cstr "flashVer", .string (some (cstr "LNX 11,2,202,236"))),
    (cstr "swfUrl", .string (some SWF_URL)), (cstr "tcUrl", .string v.tcUrl),
    (cstr "fpad", .bool false), (cstr "capabilities", .number 0x406de00000000000),
    (cstr "audioCodecs", .number 0x40abee0000000000),
    (cstr "videoCodecs", .number 0x406f800000000000),
    (cstr "videoFunction", .number 0x3ff0000000000000), (cstr "pageUrl", .string v.pageurl),
    (cstr "objectEncoding", .number 0x4008000000000000)]

/-- What is set in the last argument, the end of it for guests only. -/
def sessionMembers (v : Wmvars) (premium : Bool) : List (CStr × Amf) :=
  [(cstr "ldmov", .string v.ldmov), (cstr "pid", stringfInt v.pid),
    (cstr "sessionType", .string v.sessiontype), (cstr "hd", stringfInt v.hd),
    (cstr "sk", .string v.sk), (cstr "sakey", .string v.sakey), (cstr "lang", .string v.lang),
    (cstr "version", .number APP_VERS)] ++
  if premium then [] else
    [(cstr "sid", stringfInt v.sid), (cstr "signupargs", .string v.signupargs),
      (cstr "g", .string v.g), (cstr "srv", stringfInt v.srv),
      (cstr "nickname", .string v.nickname), (cstr "ft", stringfInt v.ft)]

/-- The allocations succeed. -/
def mayhemAmfConnect (heap : CStr) (v : Wmvars) (premium : Bool) : Except Crash Invoke := do
  let app ← appName heap v premium
  return [some (.string (some (cstr "connect"))), some (.number 0x3ff0000000000000),
    some (.object (setAll (commandMembers app v))), some (.string (some (cstr "0"))),
    some (stringfInt v.pid), some (.string (if premium then v.sakey else none)),
    some (.object (setAll (sessionMembers v premium)))]

/-- `netstatus_connect_custom` on the netstatus that `mayhem_connect` makes. -/
def connectRequest (inv : Invoke) : Request := ⟨false, ⟨3, three_lt_chans⟩, 0, inv⟩

/-! ### Where the variables go -/

namespace Cvars

/-- The argument and the name of the member that a string is sent as. -/
def Field.member : Field → ℕ × CStr
  | .turbo => (2, cstr "tcUrl")
  | .signupargs => (6, cstr "signupargs")
  | .sessiontype => (6, cstr "sessionType")
  | .nickname => (6, cstr "nickname")
  | .sakey => (6, cstr "sakey")
  | .g => (6, cstr "g")
  | .ldmov => (6, cstr "ldmov")
  | .lang => (6, cstr "lang")
  | .sk => (6, cstr "sk")
  | .pageurl => (2, cstr "pageUrl")

/-- The strings that are sent only for guests. -/
def Field.Guest (f : Field) : Prop := f = .signupargs ∨ f = .g ∨ f = .nickname

instance (f : Field) : Decidable f.Guest := inferInstanceAs (Decidable (_ ∨ _))

/-- The numbers, each with its member of the last argument. -/
def numbers (v : Wmvars) (premium : Bool) : List (CStr × UInt32) :=
  [(cstr "pid", v.pid), (cstr "hd", v.hd)] ++
    if premium then [] else [(cstr "sid", v.sid), (cstr "srv", v.srv), (cstr "ft", v.ft)]

end Cvars

/-- The member of an object that is an argument. -/
def Invoke.member (inv : Invoke) (i : ℕ) (name : CStr) : Option Amf :=
  match inv[i]?.join with
  | some (.object elem) => elem.lookup name
  | _ => none

/-! ### Numbers in the strings -/

theorem decimal_length {n : ℕ} (h : n < 10 ^ 10) : (decimal n).length ≤ 10 := by
  rw [decimal, List.length_map, List.length_reverse]
  exact (Nat.digits_length_le_iff (by decide) n).mpr h

/-- The number is read back. -/
theorem atoi_formatInt {n : ℤ} (hlow : -0x80000000 ≤ n) (hhigh : n < 0x80000000) :
    atoi (some (formatInt n)) = .ok n := by
  refine atoi_of_signed ?_ hlow hhigh
  unfold formatInt
  by_cases hneg : n < 0
  · have hdrop : List.dropWhile (fun c : UInt8 => c = 32 ∨ (9 ≤ c ∧ c ≤ 13))
        ([45] ++ decimal n.natAbs) = 45 :: decimal n.natAbs := rfl
    rw [if_pos hneg, if_neg (Int.ne_of_lt hneg), signed, hdrop]
    simp only [digits_decimal]
    omega
  · rw [if_neg hneg, List.nil_append]
    by_cases hzero : n = 0
    · rw [if_pos hzero, hzero]
      rfl
    · rw [if_neg hzero, signed_decimal (Int.natAbs_ne_zero.mpr hzero)]
      omega

/-- What is written of a 32-bit number is short, and has no NUL. -/
theorem formatInt_ok {n : ℤ} (hlow : -0x80000000 ≤ n) (hhigh : n < 0x80000000) :
    (formatInt n).length ≤ 11 ∧ ∀ c ∈ formatInt n, c ≠ 0 := by
  have hdecimal : (decimal n.natAbs).length ≤ 10 := decimal_length (by omega)
  have hdigit : ∀ c ∈ decimal n.natAbs, c ≠ 0 := by
    rintro c hc rfl
    exact absurd (decimal_digit 0 hc).1 (by decide)
  unfold formatInt
  constructor
  · rw [List.length_append]
    split_ifs <;> simp <;> omega
  · intro c hc
    rcases List.mem_append.mp hc with hc | hc
    · split_ifs at hc
      · obtain rfl := List.mem_singleton.mp hc
        decide
      · cases hc
    · split_ifs at hc
      · obtain rfl := List.mem_singleton.mp hc
        decide
      · exact hdigit c hc

theorem formatInt_ne_nil (n : ℤ) : formatInt n ≠ [] := by
  unfold formatInt
  split_ifs with hneg hzero hzero
  · exact List.cons_ne_nil _ _
  · exact List.cons_ne_nil _ _
  · exact List.cons_ne_nil _ _
  · intro h
    have hnil : (Nat.digits 10 n.natAbs) = [] := by simpa [decimal] using h
    exact hzero (Int.natAbs_eq_zero.mp (Nat.digits_eq_nil_iff_eq_zero.mp hnil))

theorem noNul_of_all {s : CStr} (h : s.all (· ≠ 0) = true) : ∀ c ∈ s, c ≠ 0 := fun c hc =>
  of_decide_eq_true (List.all_eq_true.mp h c hc)

/-- `amf_stringf` of a text that is not empty and has no NUL. -/
theorem amfStringf_text {text : CStr} (hne : text ≠ []) (hnul : ∀ c ∈ text, c ≠ 0) :
    amfStringf text = some text := by
  have hall : text.takeWhile (· ≠ 0) = text :=
    List.takeWhile_eq_self_iff.mpr fun c hc => decide_eq_true (hnul c hc)
  obtain ⟨c, rest, rfl⟩ := List.exists_cons_of_ne_nil hne
  rw [amfStringf, hall]

/-! ### The objects -/

theorem setAll_eq {sets : List (CStr × Amf)} (h : (sets.map Prod.fst).Nodup) :
    setAll sets = sets := by
  induction sets using List.reverseRecOn with
  | nil => rfl
  | append_singleton sets s ih =>
    rw [List.map_append, List.nodup_append] at h
    obtain ⟨hsets, -, hnew⟩ := h
    have hname : s.1 ∉ sets.map Prod.fst := fun hmem =>
      hnew s.1 hmem s.1 (List.mem_singleton_self _) rfl
    have hinit := ih hsets
    unfold setAll at hinit ⊢
    rw [List.foldl_append, hinit, List.foldl_cons, List.foldl_nil, amfObjectSet_new hname]

theorem splitPort_ok (buf : CStr) : ∃ r, splitPort buf = .ok r := by
  unfold splitPort
  cases hport : buf.dropWhile (· ≠ 58) with
  | nil => exact ⟨_, rfl⟩
  | cons c prt =>
    obtain ⟨n, hn⟩ : ∃ n, atoi (some prt) = .ok n := ⟨_, rfl⟩
    simp only [hn]
    exact ⟨_, rfl⟩

/-- The path of a URL is an end of it. -/
theorem urlparse_path (heap url : CStr) : ∃ r, rtmpUrlparse heap url none (some none) = .ok r ∧
    ∀ path, r.2.2.join = some path → path <:+ url := by
  by_cases hscheme : RTMP_SCHEME <+: url
  · choose parts hparts using splitPort_ok
    simp only [rtmpUrlparse, if_neg (not_not.mpr hscheme), hparts]
    have hend : ((url.drop RTMP_SCHEME.length).dropWhile (· ≠ 47)).tail <:+ url :=
      (List.tail_suffix _).trans ((List.dropWhile_suffix _).trans (List.drop_suffix _ _))
    split_ifs with hsize hheap hpath hpath
    · exact ⟨_, rfl, fun path hp => by cases hp⟩
    · exact ⟨_, rfl, fun path hp => Option.some.inj hp ▸ hend⟩
    · exact ⟨_, rfl, fun path hp => by cases hp⟩
    · exact ⟨_, rfl, fun path hp => Option.some.inj hp ▸ hend⟩
    · exact ⟨_, rfl, fun path hp => by cases hp⟩
  · rw [rtmpUrlparse, if_pos hscheme]
    exact ⟨_, rfl, fun path hp => by cases hp⟩

/-- No string of the variables has a NUL in it. -/
def Cvars.Wmvars.NoNul (v : Wmvars) : Prop := ∀ f : Field, ∀ s ∈ f.get v, ∀ c ∈ s, c ≠ 0

theorem toInt32_range (n : ℕ) : -0x80000000 ≤ toInt32 n ∧ toInt32 n < 0x80000000 :=
  ⟨(toInt32_bounds n).2.1, (toInt32_bounds n).1⟩

theorem appName_ok (heap : CStr) (v : Wmvars) {premium : Bool}
    (h : premium = true → v.tcUrl ≠ none) : ∃ str, appName heap v premium = .ok (.string str) ∧
      (amfStrlen v.tcUrl ≤ 0xffff → amfStrlen str ≤ 0xffff) ∧
      (v.NoNul → ∀ s ∈ str, ∀ c ∈ s, c ≠ 0) := by
  unfold appName
  cases premium with
  | true =>
    obtain ⟨url, hurl⟩ := Option.ne_none_iff_exists'.mp (h rfl)
    obtain ⟨r, hr, hpath⟩ := urlparse_path heap url
    rw [if_pos rfl, hurl]
    refine ⟨some (r.2.2.join.getD (cstr "naiad/live")), by simp only [hr]; rfl, ?_, ?_⟩
    · intro hlen
      cases hp : r.2.2.join with
      | none => exact (by decide : (cstr "naiad/live").length ≤ 0xffff)
      | some path => exact (hpath path hp).length_le.trans hlen
    · intro hnul s hs c hc
      obtain rfl := Option.some.inj hs
      cases hp : r.2.2.join with
      | none =>
        rw [hp] at hc
        exact noNul_of_all (by decide) c hc
      | some path =>
        rw [hp] at hc
        exact hnul .turbo url hurl c ((hpath path hp).subset hc)
  | false =>
    obtain ⟨hlow, hhigh⟩ := toInt32_range v.sid.toNat
    obtain ⟨hlen, hdigits⟩ := formatInt_ok hlow hhigh
    have hnul : ∀ c ∈ cstr "reflect/" ++ formatInt (toInt32 v.sid.toNat), c ≠ 0 := by
      intro c hc
      rcases List.mem_append.mp hc with hc | hc
      · exact noNul_of_all (by decide) c hc
      · exact hdigits c hc
    have htext : amfStringf (cstr "reflect/" ++ formatInt (toInt32 v.sid.toNat)) =
        some (cstr "reflect/" ++ formatInt (toInt32 v.sid.toNat)) :=
      amfStringf_text (List.append_ne_nil_of_left_ne_nil (by decide) _) hnul
    rw [if_neg Bool.false_ne_true, htext]
    refine ⟨_, rfl, fun _ => ?_, fun _ s hs => ?_⟩
    · have hprefix : (cstr "reflect/").length = 8 := by decide
      rw [amfStrlen, Option.getD_some, List.length_append]
      omega
    · obtain rfl := Option.some.inj hs
      exact hnul

/-! ### What can be sent -/

theorem Cvars.Field.forall_iff {P : Field → Prop} : (∀ f, P f) ↔ ∀ f ∈ Field.all, P f := by
  constructor
  · exact fun h f _ => h f
  · intro h f
    apply h
    cases f <;> decide

/-- The lengths of the strings that are sent are right as an `int`. -/
def Cvars.Wmvars.Encodes (heap : CStr) (v : Wmvars) (premium : Bool) : Prop :=
  (∀ app, appName heap v premium = .ok app → app.Encodes) ∧
    ∀ f : Field, (premium = true → ¬ f.Guest) → (Amf.string (f.get v)).Encodes

/-- The strings that are sent have lengths of 16 bits. -/
def Cvars.Wmvars.Short (v : Wmvars) (premium : Bool) : Prop :=
  ∀ f : Field, (premium = true → ¬ f.Guest) → amfStrlen (f.get v) ≤ 0xffff

theorem stringfInt_ok (n : UInt32) : (stringfInt n).Ok ∧ ∃ text, text ≠ [] ∧ text.length ≤ 11 ∧
    stringfInt n = .string (some text) ∧ atoi (some text) = .ok (toInt32 n.toNat) := by
  obtain ⟨hlow, hhigh⟩ := toInt32_range n.toNat
  obtain ⟨hlen, hnul⟩ := formatInt_ok hlow hhigh
  have hne := formatInt_ne_nil (toInt32 n.toNat)
  have htext : stringfInt n = .string (some (formatInt (toInt32 n.toNat))) :=
    congrArg Amf.string (amfStringf_text hne hnul)
  refine ⟨?_, _, hne, hlen, htext, atoi_formatInt hlow hhigh⟩
  rw [htext]
  refine .string fun s hs => ?_
  obtain rfl := Option.some.inj hs
  exact ⟨hnul, by omega⟩

theorem commandMembers_nodup (app : Amf) (v : Wmvars) :
    ((commandMembers app v).map Prod.fst).Nodup := by
  have hkeys : (commandMembers app v).map Prod.fst = (commandMembers .null {}).map Prod.fst := rfl
  rw [hkeys]
  decide +kernel

theorem sessionMembers_keys (v : Wmvars) (premium : Bool) :
    (sessionMembers v premium).map Prod.fst = (sessionMembers {} premium).map Prod.fst := by
  cases premium <;> simp [sessionMembers]

theorem sessionMembers_nodup (v : Wmvars) (premium : Bool) :
    ((sessionMembers v premium).map Prod.fst).Nodup := by
  rw [sessionMembers_keys]
  cases premium <;> decide +kernel

/-- What is sent of the variables, once `app` is known. -/
def connectArgs (app : Amf) (v : Wmvars) (premium : Bool) : Invoke :=
  [some (.string (some (cstr "connect"))), some (.number 0x3ff0000000000000),
    some (.object (commandMembers app v)), some (.string (some (cstr "0"))),
    some (stringfInt v.pid), some (.string (if premium then v.sakey else none)),
    some (.object (sessionMembers v premium))]

theorem mayhemAmfConnect_eq (heap : CStr) (v : Wmvars) (premium : Bool) :
    mayhemAmfConnect heap v premium =
      (appName heap v premium).map fun app => connectArgs app v premium := by
  rw [mayhemAmfConnect]
  simp only [setAll_eq (commandMembers_nodup _ v), setAll_eq (sessionMembers_nodup v premium)]
  cases appName heap v premium <;> rfl

/-- The values of the members are constants, numbers, and the strings. -/
theorem forall_members {P : Amf → Prop} (app : Amf) (v : Wmvars) (premium : Bool)
    (hconst : P (.string (some SWF_URL)) ∧ P (.string (some (cstr "LNX 11,2,202,236"))))
    (hnum : ∀ n, P (.number n)) (hbool : ∀ b, P (.bool b)) (hint : ∀ n, P (stringfInt n)) :
    (∀ e ∈ commandMembers app v, P e.2) ∧ (∀ e ∈ sessionMembers v premium, P e.2) ↔
      P app ∧ ∀ f : Field, (premium = true → ¬ f.Guest) → P (.string (f.get v)) := by
  rw [Field.forall_iff]
  cases premium <;>
    simp [commandMembers, sessionMembers, Field.all, Field.Guest, Field.get, hconst, hnum, hbool,
      hint] <;> tauto

theorem keys_short (app : Amf) (v : Wmvars) (premium : Bool) :
    (∀ e ∈ commandMembers app v, e.1.length ≤ 20 ∧ ∀ c ∈ e.1, c ≠ 0) ∧
      ∀ e ∈ sessionMembers v premium, e.1.length ≤ 20 ∧ ∀ c ∈ e.1, c ≠ 0 := by
  have hall : ∀ {elem : List (CStr × Amf)} {keys : List CStr}, elem.map Prod.fst = keys →
      (∀ key ∈ keys, key.length ≤ 20 ∧ ∀ c ∈ key, c ≠ 0) →
        ∀ e ∈ elem, e.1.length ≤ 20 ∧ ∀ c ∈ e.1, c ≠ 0 := by
    rintro elem keys rfl hkeys e he
    exact hkeys e.1 (List.mem_map_of_mem he)
  have hcommand : (commandMembers app v).map Prod.fst = (commandMembers .null {}).map Prod.fst := rfl
  constructor
  · exact hall hcommand (by decide +kernel)
  · exact hall (sessionMembers_keys v premium) (by cases premium <;> decide +kernel)

theorem constants_ok : (Amf.string (some SWF_URL)).Ok ∧
    (Amf.string (some (cstr "LNX 11,2,202,236"))).Ok ∧ (Amf.string (some (cstr "connect"))).Ok ∧
    (Amf.string (some (cstr "0"))).Ok := by
  have hall : ∀ str ∈ [SWF_URL, cstr "LNX 11,2,202,236", cstr "connect", cstr "0"],
      (∀ c ∈ str, c ≠ 0) ∧ str.length ≤ 0xffff := by decide +kernel
  have hok : ∀ str ∈ [SWF_URL, cstr "LNX 11,2,202,236", cstr "connect", cstr "0"],
      (Amf.string (some str)).Ok := by
    intro str hstr
    refine .string fun s hs => ?_
    obtain rfl := Option.some.inj hs
    exact ⟨(hall str hstr).1, (hall str hstr).2⟩
  simpa using hok

variable {v : Wmvars} {premium : Bool} {str : Option CStr}

/-- The encoder gets through the request if the lengths of its strings are right as an `int`. -/
theorem connectArgs_completes :
    (connectArgs (.string str) v premium).Completes ↔ (Amf.string str).Encodes ∧
      ∀ f : Field, (premium = true → ¬ f.Guest) → (Amf.string (f.get v)).Encodes := by
  obtain ⟨hswf, hver, hconnect, hzero⟩ := constants_ok
  obtain ⟨hckeys, hskeys⟩ := keys_short (.string str) v premium
  have hkey : ∀ {e : CStr × Amf}, (e.1.length ≤ 20 ∧ ∀ c ∈ e.1, c ≠ 0) → CStr.Storable e.1 :=
    fun h => storable_short (h.1.trans_lt (by decide))
  have hargs := forall_members (P := Encodes) (.string str) v premium ⟨hswf.encodes, hver.encodes⟩
    (fun _ => .number) (fun _ => .bool) fun n => (stringfInt_ok n).1.encodes
  rw [invoke_completes_iff, ← hargs]
  constructor
  · intro h
    have hcommand := encodes_object.mp (h (.object (commandMembers (.string str) v))
      (by simp [connectArgs]))
    have hsession := encodes_object.mp (h (.object (sessionMembers v premium))
      (by simp [connectArgs]))
    exact ⟨fun e he => (hcommand e he).2, fun e he => (hsession e he).2⟩
  · intro hobjs
    have hlogin : (Amf.string (if premium then v.sakey else none)).Encodes := by
      split
      · exact (hargs.mp hobjs).2 .sakey fun _ => by decide
      · exact (@Amf.Ok.string none nofun).encodes
    have hpid := (stringfInt_ok v.pid).1.encodes
    simp only [connectArgs, List.mem_cons, Option.some.injEq, List.not_mem_nil, or_false]
    rintro a (rfl | rfl | rfl | rfl | rfl | rfl | rfl)
    · exact hconnect.encodes
    · exact .number
    · exact .object (fun e he => hkey (hckeys e he)) hobjs.1
    · exact hzero.encodes
    · exact hpid
    · exact hlogin
    · exact .object (fun e he => hkey (hskeys e he)) hobjs.2

theorem membersSize_le {elem : List (CStr × Amf)} {k : ℕ} (hkeys : ∀ e ∈ elem, e.1.length ≤ 20)
    (hvals : ∀ e ∈ elem, ∃ n, amfSize e.2 = some n ∧ n ≤ k) :
    ∃ n, membersSize elem = some n ∧ n ≤ elem.length * (22 + k) := by
  induction elem with
  | nil => exact ⟨0, rfl, Nat.zero_le _⟩
  | cons e elem ih =>
    obtain ⟨hkey, hkeys⟩ := List.forall_mem_cons.mp hkeys
    obtain ⟨⟨n, hn, hle⟩, hvals⟩ := List.forall_mem_cons.mp hvals
    obtain ⟨m, hm, hrest⟩ := ih hkeys hvals
    refine ⟨2 + e.1.length + n + m, ?_, ?_⟩
    · simp only [membersSize, hn, hm, Option.bind_eq_bind, Option.bind_some]
      rfl
    · rw [List.length_cons, Nat.add_mul, Nat.one_mul]
      omega

theorem amfInvokeBufSize_le {inv : Invoke} {k : ℕ} (hk : 1 ≤ k)
    (h : ∀ a, some a ∈ inv → ∃ n, amfSize a = some n ∧ n ≤ k) :
    ∃ n, amfInvokeBufSize inv = some n ∧ n ≤ inv.length * k := by
  induction inv with
  | nil => exact ⟨0, rfl, Nat.zero_le _⟩
  | cons a inv ih =>
    obtain ⟨m, hm, hrest⟩ := ih fun b hb => h b (List.mem_cons_of_mem _ hb)
    rw [List.length_cons, Nat.add_mul, Nat.one_mul]
    cases a with
    | none =>
      refine ⟨1 + m, ?_, by omega⟩
      rw [amfInvokeBufSize, hm]
      rfl
    | some a =>
      obtain ⟨n, hn, hle⟩ := h a List.mem_cons_self
      refine ⟨n + m, ?_, by omega⟩
      rw [amfInvokeBufSize, hn, hm]
      rfl

/-- A value that is read back as it is sent, and its size. -/
structure Fits (k : ℕ) (a : Amf) : Prop where
  ok : a.Ok
  clean : a.Clean
  size : ∃ n, amfSize a = some n ∧ n ≤ k

theorem Fits.mono {k l : ℕ} {a : Amf} (h : Fits k a) (hle : k ≤ l) : Fits l a := by
  obtain ⟨n, hn, hnk⟩ := h.size
  exact ⟨h.ok, h.clean, n, hn, hnk.trans hle⟩

theorem fits_number (n : UInt64) : Fits 0x10002 (.number n) := ⟨.number, .number, 9, rfl, by decide⟩

theorem fits_bool (b : Bool) : Fits 0x10002 (.bool b) := ⟨.bool, .bool, 2, rfl, by decide⟩

theorem fits_string (h : ∀ s ∈ str, CStr.Ok s) : Fits 0x10002 (.string str) := by
  refine ⟨.string h, .string, 3 + amfStrlen str, rfl, ?_⟩
  cases str with
  | none => decide
  | some s =>
    have hlen := (h s rfl).short
    rw [amfStrlen, Option.getD_some]
    omega

theorem Amf.Ok.fits (h : (Amf.string str).Ok) : Fits 0x10002 (.string str) := by
  cases h with
  | string hstr => exact fits_string hstr

theorem fits_stringfInt (n : UInt32) : Fits 0x10002 (stringfInt n) := (stringfInt_ok n).1.fits

/-- The strings of the variables. -/
theorem fits_field (hnul : v.NoNul) (hshort : v.Short premium) (f : Field)
    (hf : premium = true → ¬ f.Guest) : Fits 0x10002 (.string (f.get v)) := by
  apply fits_string
  intro s hs
  have hlen := hshort f hf
  rw [hs] at hlen
  exact ⟨hnul f s hs, hlen⟩

/-- Objects of a few values under short keys. -/
theorem fits_object {elem : List (CStr × Amf)} (hnodup : (elem.map Prod.fst).Nodup)
    (hkeys : ∀ e ∈ elem, e.1.length ≤ 20 ∧ ∀ c ∈ e.1, c ≠ 0)
    (hvals : ∀ e ∈ elem, Fits 0x10002 e.2) (hlen : elem.length ≤ 14) :
    Fits 1000000 (.object elem) := by
  obtain ⟨n, hn, hle⟩ := membersSize_le (fun e he => (hkeys e he).1) fun e he => (hvals e he).size
  have hbound := Nat.mul_le_mul_right (22 + 0x10002) hlen
  constructor
  · refine .object hnodup (fun e he => ?_) fun e he => (hvals e he).ok
    exact ⟨(hkeys e he).2, (hkeys e he).1.trans (by decide)⟩
  · refine .object (fun e he hend => ?_) fun e he => (hvals e he).clean
    have hkey := (hkeys e (List.mem_of_mem_tail he)).1
    exact absurd hend.1 (by omega)
  · refine ⟨4 + n, ?_, by omega⟩
    rw [amfSize, hn]
    rfl

theorem fits_connectArgs (hnul : v.NoNul) (hshort : v.Short premium)
    (happ : (Amf.string str).Ok) :
    ∀ a, some a ∈ connectArgs (.string str) v premium → Fits 1000000 a := by
  obtain ⟨hswf, hver, hconnect, hzero⟩ := constants_ok
  obtain ⟨hckeys, hskeys⟩ := keys_short (.string str) v premium
  obtain ⟨hcvals, hsvals⟩ := (forall_members (P := Fits 0x10002) (.string str) v premium
    ⟨hswf.fits, hver.fits⟩ fits_number fits_bool fits_stringfInt).mpr
      ⟨happ.fits, fits_field hnul hshort⟩
  have hclen : (commandMembers (.string str) v).length ≤ 14 := (by decide : 11 ≤ 14)
  have hslen : (sessionMembers v premium).length ≤ 14 := by
    cases premium
    · exact (le_rfl : 14 ≤ 14)
    · exact (by decide : 8 ≤ 14)
  have hlogin : Fits 0x10002 (.string (if premium then v.sakey else none)) := by
    split
    · exact fits_field hnul hshort .sakey fun _ => by decide
    · exact fits_string nofun
  simp only [connectArgs, List.mem_cons, Option.some.injEq, List.not_mem_nil, or_false]
  rintro a (rfl | rfl | rfl | rfl | rfl | rfl | rfl)
  · exact hconnect.fits.mono (by decide)
  · exact (fits_number _).mono (by decide)
  · exact fits_object (commandMembers_nodup _ v) hckeys hcvals hclen
  · exact hzero.fits.mono (by decide)
  · exact (fits_stringfInt v.pid).mono (by decide)
  · exact hlogin.mono (by decide)
  · exact fits_object (sessionMembers_nodup v premium) hskeys hsvals hslen

/-- The request is of the wire format, and not too long for a message. -/
theorem connectRequest_ok (hnul : v.NoNul) (hshort : v.Short premium)
    (happ : (Amf.string str).Ok) : (connectRequest (connectArgs (.string str) v premium)).Ok := by
  have hfits := fits_connectArgs hnul hshort happ
  obtain ⟨n, hn, hle⟩ := amfInvokeBufSize_le (by decide) fun a ha => (hfits a ha).size
  have hchan : 2 ≤ (3 : ℕ) ∧ (3 : ℕ) < 64 := by decide
  refine ⟨hchan, List.cons_ne_nil _ _, fun a ha => (hfits a ha).ok,
    ⟨fun a ha => (hfits a ha).clean, fun a ha => ?_⟩, fun sz hsz => ?_⟩
  · rintro ⟨s, rfl, -⟩
    cases ha
  · obtain rfl := Option.some.inj (hn.symm.trans hsz)
    have hseven : (connectArgs (.string str) v premium).length = 7 := rfl
    rw [hseven] at hle
    omega

/-- So is the request that is made of variables that are short enough. -/
theorem mayhemAmfConnect_ok {heap : CStr} {inv : Invoke} (hnul : v.NoNul) (hshort : v.Short premium)
    (hinv : mayhemAmfConnect heap v premium = .ok inv) : (connectRequest inv).Ok := by
  rw [mayhemAmfConnect_eq] at hinv
  have hurl : premium = true → v.tcUrl ≠ none := by
    rintro rfl hnone
    rw [appName, if_pos rfl, hnone] at hinv
    cases hinv
  obtain ⟨str, hok, hlen, hstr⟩ := appName_ok heap v hurl
  rw [hok] at hinv
  obtain rfl := Except.ok.inj hinv
  refine connectRequest_ok hnul hshort (.string fun s hs => ⟨hstr hnul s hs, ?_⟩)
  have hle := hlen (hshort .turbo fun _ => by decide)
  rw [hs] at hle
  exact hle

/-! ### What the server is shown -/

theorem lookup_readBack (elem : List (CStr × Amf)) (name : CStr) :
    (membersReadBack elem).lookup name = (elem.lookup name).map readBack := by
  induction elem with
  | nil => rfl
  | cons e elem ih =>
    rw [membersReadBack, List.lookup_cons, List.lookup_cons, ih]
    cases name == e.1 <;> rfl

theorem member_readBack {inv : Invoke} {i : ℕ} {name : CStr} {elem : List (CStr × Amf)} {a : Amf}
    (hobj : inv[i]? = some (some (.object elem))) (hnodup : (elem.map Prod.fst).Nodup)
    (hmem : (name, a) ∈ elem) : inv.readBack.member i name = some a.readBack := by
  have harg : inv.readBack[i]? = some (some (.object (membersReadBack elem))) := by
    rw [Invoke.readBack, List.getElem?_map, hobj]
    rfl
  rw [Invoke.member, harg]
  exact (lookup_readBack elem name).trans (by rw [List.lookup_of_nodup hnodup hmem]; rfl)

/-- What the variables have become on the other side. -/
structure Sees (heap : CStr) (v : Wmvars) (premium : Bool) (args : Invoke) : Prop where
  command : args[0]? = some (some (.string (some (cstr "connect"))))
  app : ∃ app, appName heap v premium = .ok app ∧ args.member 2 (cstr "app") = some app.readBack
  strings : ∀ f : Field, (premium = true → ¬ f.Guest) →
    args.member f.member.1 f.member.2 = some (Amf.string (f.get v)).readBack
  numbers : ∀ x ∈ numbers v premium, ∃ text, args.member 6 x.1 = some (.string (some text)) ∧
    atoi (some text) = .ok (toInt32 x.2.toNat)
  login : args[5]? = some (some (Amf.string (if premium then v.sakey else none)).readBack)

theorem stringfInt_readBack (n : UInt32) : (stringfInt n).readBack = stringfInt n := by
  obtain ⟨-, text, hne, -, htext, -⟩ := stringfInt_ok n
  obtain ⟨c, rest, rfl⟩ := List.exists_cons_of_ne_nil hne
  rw [htext]
  rfl

/-- A string is a member of one of the two objects. -/
theorem field_mem (app : Amf) (f : Field) (hf : premium = true → ¬ f.Guest) :
    f.member.1 = 2 ∧ (f.member.2, .string (f.get v)) ∈ commandMembers app v ∨
      f.member.1 = 6 ∧ (f.member.2, .string (f.get v)) ∈ sessionMembers v premium := by
  cases f
  case turbo | pageurl => exact .inl ⟨rfl, by simp [commandMembers, Field.member, Field.get]⟩
  case signupargs | g | nickname =>
    have hguest : premium = false := Bool.eq_false_of_not_eq_true fun h => hf h (by decide)
    exact .inr ⟨rfl, by simp [sessionMembers, Field.member, Field.get, hguest]⟩
  all_goals exact .inr ⟨rfl, by cases premium <;> simp [sessionMembers, Field.member, Field.get]⟩

theorem number_mem {x : CStr × UInt32} (hx : x ∈ numbers v premium) :
    (x.1, stringfInt x.2) ∈ sessionMembers v premium := by
  obtain ⟨name, n⟩ := x
  cases premium <;> simp [numbers, sessionMembers] at hx ⊢ <;> grind

theorem sees_connectArgs {heap : CStr} {app : Amf} (happ : appName heap v premium = .ok app) :
    Sees heap v premium (connectArgs app v premium).readBack := by
  have hcommand : (connectArgs app v premium)[2]? = some (some (.object (commandMembers app v))) :=
    rfl
  have hsession : (connectArgs app v premium)[6]? =
      some (some (.object (sessionMembers v premium))) := rfl
  constructor
  · rfl
  · exact ⟨app, happ, member_readBack hcommand (commandMembers_nodup app v) List.mem_cons_self⟩
  · intro f hf
    rcases field_mem app f hf with ⟨harg, hmem⟩ | ⟨harg, hmem⟩
    · rw [harg]
      exact member_readBack hcommand (commandMembers_nodup app v) hmem
    · rw [harg]
      exact member_readBack hsession (sessionMembers_nodup v premium) hmem
  · intro x hx
    obtain ⟨-, text, -, -, htext, hatoi⟩ := stringfInt_ok x.2
    refine ⟨text, ?_, hatoi⟩
    rw [member_readBack hsession (sessionMembers_nodup v premium) (number_mem hx),
      stringfInt_readBack, htext]
  · rfl

/-- The connect of a session is made unless the URL that is to be parsed is missing, and encoded
if and only if the lengths of its strings are right as an `int`; if an `int` holds them, these are
the lengths of 16 bits. Sent behind the handshake it is the first that the proxy shows, with every
variable under its name. -/
theorem Peers.connect_shown (heap : CStr) {v : Wmvars} (hnul : v.NoNul) (premium : Bool) :
    ((∃ inv, mayhemAmfConnect heap v premium = .ok inv) ↔ (premium = true → v.tcUrl ≠ none)) ∧
      ∀ inv, mayhemAmfConnect heap v premium = .ok inv →
        (inv.Completes ↔ v.Encodes heap premium) ∧
        ((∀ f : Field, (premium = true → ¬ f.Guest) → amfStrlen (f.get v) < 2 ^ 31) →
          (inv.Completes ↔ v.Short premium)) ∧
        Sees heap v premium inv.readBack ∧
        ∀ {o : Owner} {p : ServerOwner} {heap₁ stack₁ heap₂ stack₂ : List Memory} {s : Peers}
          {hs : List UInt8} {qs : List Request} {xs : List OutMsg},
          Relation.ReflTransGen (Step o p) (start heap₁ stack₁ heap₂ stack₂) s →
          hs.length = FULL_LEN → v.Short premium → (∀ q ∈ qs, q.Ok) →
          (connectRequest inv :: qs).map Request.message = xs.map some →
          s.client.conn.sock.sent <+: wire hs xs →
          ∀ amf3 after msg, s.server.pkts.head? = some msg →
            Rtmprox.pkt amf3 after msg = some (.invoke inv.readBack) := by
  have hname := @appName_ok heap v premium
  constructor
  · rw [mayhemAmfConnect_eq]
    constructor
    · rintro ⟨inv, hinv⟩ rfl hnone
      rw [appName, if_pos rfl, hnone] at hinv
      cases hinv
    · intro h
      obtain ⟨str, hok, -⟩ := hname h
      rw [hok]
      exact ⟨_, rfl⟩
  · intro inv hinv
    have hrequest := fun hshort => mayhemAmfConnect_ok hnul hshort hinv
    rw [mayhemAmfConnect_eq] at hinv
    have hurl : premium = true → v.tcUrl ≠ none := by
      rintro rfl hnone
      rw [appName, if_pos rfl, hnone] at hinv
      cases hinv
    obtain ⟨str, hok, hlen, -⟩ := hname hurl
    rw [hok] at hinv
    obtain rfl := Except.ok.inj hinv
    have hencodes : v.Encodes heap premium ↔ (Amf.string str).Encodes ∧
        ∀ f : Field, (premium = true → ¬ f.Guest) → (Amf.string (f.get v)).Encodes := by
      simp only [Wmvars.Encodes, hok, Except.ok.injEq, forall_eq']
    refine ⟨connectArgs_completes.trans hencodes.symm, fun hint => ?_, sees_connectArgs hok,
      fun hrun hhs hshort hqs hxs hsent amf3 after msg hmsg => ?_⟩
    · rw [connectArgs_completes]
      constructor
      · exact fun h f hf => (encodes_string_short (hint f hf)).mp (h.2 f hf)
      · intro hshort
        have happ := hlen (hshort .turbo fun _ => by decide)
        exact ⟨(encodes_string_short (happ.trans_lt (by decide))).mpr happ,
          fun f hf => (encodes_string_short (hint f hf)).mpr (hshort f hf)⟩
    have hall := List.forall_mem_cons.mpr ⟨hrequest hshort, hqs⟩
    obtain ⟨hoks, hshown⟩ := shown_of_messages hall hxs amf3 after fun _ => 0
    have hfront := (pkts_front hrun hhs hoks hsent).map (Rtmprox.pkt amf3 after)
    rw [hshown, List.map_cons] at hfront
    obtain ⟨rest, hrest⟩ := List.head?_eq_some_iff.mp hmsg
    rw [hrest, List.map_cons, List.cons_prefix_cons] at hfront
    exact hfront.1

/-- The variables of a guest. -/
def guest : Wmvars := { nickname := some (cstr "n"), sid := 7 }

theorem guest_talk : ((mayhemAmfConnect [] guest false).toOption.bind fun inv =>
    (connectRequest inv).message.bind fun x => Peers.talkBegins (x :: Peers.greetings)) = some true := by
  decide +kernel

/-- The connect of a guest and two more requests, and what the proxy shows first. -/
theorem Peers.connect_shown_guest : ∃ (inv : Invoke) (s : Peers) (msg : Msg),
    mayhemAmfConnect [] guest false = .ok inv ∧ inv.Completes ∧
      inv.readBack.member 6 (cstr "nickname") = some (.string (some (cstr "n"))) ∧
      Relation.ReflTransGen (Step .silent .silent) (start [] [] [] []) s ∧
      s.server.pkts.head? = some msg ∧
      Rtmprox.pkt (fun _ => (none, 0)) (fun _ => 0) msg = some (.invoke inv.readBack) := by
  have hnul : guest.NoNul := by
    intro f s hs
    cases f
    case nickname =>
      obtain rfl := Option.some.inj hs
      exact noNul_of_all (by decide)
    all_goals cases hs
  have hshort : guest.Short false := by
    intro f _
    cases f <;> decide
  obtain ⟨inv, hmade, htalk⟩ := Option.bind_eq_some_iff.mp guest_talk
  obtain ⟨x, hx, hbegins⟩ := Option.bind_eq_some_iff.mp htalk
  have hinv : mayhemAmfConnect [] guest false = .ok inv := by
    cases h : mayhemAmfConnect [] guest false with
    | ok inv' =>
      rw [h] at hmade
      exact congrArg _ (Option.some.inj hmade)
    | error e =>
      rw [h] at hmade
      cases hmade
  have hqs := List.forall_mem_cons.mpr ⟨mayhemAmfConnect_ok hnul hshort hinv, greetingRequests_ok⟩
  have hxs : (connectRequest inv :: greetingRequests).map Request.message =
      (x :: greetings).map some := by
    rw [List.map_cons, hx, greetingRequests_messages]
    rfl
  have hoks := (shown_of_messages hqs hxs (fun _ => (none, 0)) (fun _ => 0) fun _ => 0).1
  obtain ⟨s, hs, hrun, hhs, hsent, hpkts⟩ := Peers.talk_served hoks hbegins
  have hhead : s.server.pkts.head? = some (x.msgAt 0) := by
    rw [hpkts]
    rfl
  obtain ⟨-, hall⟩ := Peers.connect_shown [] hnul false
  obtain ⟨-, hcompletes, hsees, hfirst⟩ := hall inv hinv
  exact ⟨inv, s, _, hinv, (hcompletes fun f hf => (hshort f hf).trans_lt (by decide)).mpr hshort,
    hsees.strings .nickname nofun, hrun, hhead, hfirst hrun hhs hshort greetingRequests_ok hxs
      (hsent ▸ List.prefix_refl _) _ _ _ hhead⟩

end Mayhem
