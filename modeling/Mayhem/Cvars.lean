import Mathlib.Data.List.Induction
import Mathlib.Data.List.TakeWhile
import Mathlib.Tactic.ByContra
import Mathlib.Tactic.SplitIfs
import Mayhem.Naiad.Session

/-! The file of variables: `cvars.c`, on the lines that the scraper prints. -/
namespace Mayhem.Cvars

open Naiad

structure Wmvars where
  pageurl : Option CStr := none
  tcUrl : Option CStr := none
  signupargs : Option CStr := none
  sessiontype : Option CStr := none
  nickname : Option CStr := none
  sakey : Option CStr := none
  g : Option CStr := none
  ldmov : Option CStr := none
  lang : Option CStr := none
  sk : Option CStr := none
  sid : UInt32 := 0
  srv : UInt32 := 0
  pid : UInt32 := 0
  ft : UInt32 := 0
  hd : UInt32 := 0
deriving DecidableEq

/-! ### Handlers -/

/-- The value is NULL if there is none. Allocation succeeds, and so does every handler. -/
abbrev Handler := Wmvars → Option CStr → Except Crash Wmvars

def intHandler (set : Wmvars → UInt32 → Wmvars) : Handler := fun v val => do
  return set v (.ofInt (← atoi val))

def strHandler (set : Wmvars → CStr → Wmvars) : Handler := fun v val => do
  return set v (← strdup val)

/-- A handler that looks whether there is a value. -/
def optHandler (set : Wmvars → CStr → Wmvars) : Handler := fun v val => do
  if val.isSome then return set v (← strdup val) else return v

def pSid : Handler := intHandler fun v n => { v with sid := n }
def pSrv : Handler := intHandler fun v n => { v with srv := n }
def pPid : Handler := intHandler fun v n => { v with pid := n }
def pFt : Handler := intHandler fun v n => { v with ft := n }
def pHd : Handler := intHandler fun v n => { v with hd := n }

/-- A string of which the last `;` has been overwritten. -/
def cutLast (s : CStr) : CStr :=
  match s.reverse.dropWhile (· ≠ 59) with
  | [] => s
  | _ :: blah => blah.reverse

/-- `strrchr` is given the value first. -/
def turbo : Handler := fun v val =>
  match val with
  | none => .error .nullString
  | some val => do return { v with tcUrl := some (← strdup (some (cutLast val))) }

def signupargs : Handler := strHandler fun v s => { v with signupargs := some s }
def sessiontype : Handler := strHandler fun v s => { v with sessiontype := some s }
def pNickname : Handler := optHandler fun v s => { v with nickname := some s }
def pSakey : Handler := optHandler fun v s => { v with sakey := some s }
def pG : Handler := strHandler fun v s => { v with g := some s }
def pLang : Handler := strHandler fun v s => { v with lang := some s }
def pLdmov : Handler := strHandler fun v s => { v with ldmov := some s }
def pSk : Handler := strHandler fun v s => { v with sk := some s }
def pageurl : Handler := strHandler fun v s => { v with pageurl := some s }

def vals : List (CStr × Handler) :=
  [(cstr "p_sid", pSid), (cstr "p_pid", pPid), (cstr "p_hd", pHd), (cstr "p_ft", pFt),
   (cstr "p_srv", pSrv),
   (cstr "turbo", turbo), (cstr "p_signupargs", signupargs), (cstr "sessionType", sessiontype),
   (cstr "p_nickname", pNickname), (cstr "p_sakey", pSakey), (cstr "p_g", pG),
   (cstr "p_ldmov", pLdmov), (cstr "p_lang", pLang), (cstr "p_sk", pSk),
   (cstr "$PageUrl", pageurl)]

/-! ### Lines -/

def isspace (c : UInt8) : Bool := c = 32 ∨ (9 ≤ c ∧ c ≤ 13)

/-- The loop over the characters: the key is what is in front of the NUL put for the first
colon, the value begins where the state becomes 2. -/
def lineLoop (state : ℕ) (key : CStr) (val : Option CStr) : CStr → ℕ × CStr × Option CStr
  | [] => (state, key, val)
  | c :: ptr =>
    if state = 2 then (state, key, val)
    else if state = 0 then
      if c = 58 then lineLoop 1 key val ptr else lineLoop 0 (key ++ [c]) val ptr
    else if ¬ isspace c then lineLoop 2 key (some (c :: ptr)) ptr
    else lineLoop state key val ptr

/-- The loop over the table. -/
def callHandler (v : Wmvars) (key : CStr) (val : Option CStr) :
    List (CStr × Handler) → Except Crash (Option Wmvars)
  | [] => return some v
  | (name, handler) :: vals =>
    if name = key then do return some (← handler v val) else callHandler v key val vals

/-- None if 0 is returned. -/
def doLine (v : Wmvars) (str : CStr) : Except Crash (Option Wmvars) :=
  if str.head? = none ∨ str.head? = some 35 then return some v
  else
    let (state, key, val) := lineLoop 0 [] none str
    if state < 1 then return none
    else callHandler v key val vals

/-- The loop over the buffer, with the bytes of the line so far. A line is a string up to its
first NUL, and so cut where a carriage return was. -/
def parseLoop (v : Wmvars) (line : List UInt8) : List UInt8 → Except Crash (Option Wmvars)
  | [] => return some v
  | c :: ptr =>
    if c = 13 then parseLoop v (line ++ [0]) ptr
    else if c = 10 then do
      match ← doLine v (line.takeWhile (· ≠ 0)) with
      | none => return none
      | some v => parseLoop v [] ptr
    else parseLoop v (line ++ [c]) ptr

def doParse (v : Wmvars) (buf : List UInt8) : Except Crash (Option Wmvars) := parseLoop v [] buf

/-! ### What the scraper prints -/

/-- `print '%s: %s'%(k, v)`. -/
def printed (p : CStr × CStr) : List UInt8 := p.1 ++ [58, 32] ++ p.2 ++ [10]

def file (pairs : List (CStr × CStr)) : List UInt8 := pairs.flatMap printed

/-- The variables that are strings. -/
inductive Field
  | turbo
  | signupargs
  | sessiontype
  | nickname
  | sakey
  | g
  | ldmov
  | lang
  | sk
  | pageurl
deriving DecidableEq

namespace Field

def key : Field → CStr
  | turbo => cstr "turbo"
  | signupargs => cstr "p_signupargs"
  | sessiontype => cstr "sessionType"
  | nickname => cstr "p_nickname"
  | sakey => cstr "p_sakey"
  | g => cstr "p_g"
  | ldmov => cstr "p_ldmov"
  | lang => cstr "p_lang"
  | sk => cstr "p_sk"
  | pageurl => cstr "$PageUrl"

def handler : Field → Handler
  | turbo => Cvars.turbo
  | signupargs => Cvars.signupargs
  | sessiontype => Cvars.sessiontype
  | nickname => pNickname
  | sakey => pSakey
  | g => pG
  | ldmov => pLdmov
  | lang => pLang
  | sk => pSk
  | pageurl => Cvars.pageurl

def get : Field → Wmvars → Option CStr
  | turbo => Wmvars.tcUrl
  | signupargs => Wmvars.signupargs
  | sessiontype => Wmvars.sessiontype
  | nickname => Wmvars.nickname
  | sakey => Wmvars.sakey
  | g => Wmvars.g
  | ldmov => Wmvars.ldmov
  | lang => Wmvars.lang
  | sk => Wmvars.sk
  | pageurl => Wmvars.pageurl

/-- What is kept of a value. -/
def stored (f : Field) (val : CStr) : CStr := if f = turbo then cutLast val else val

/-- The handler does without a value. -/
def Optional (f : Field) : Prop := f = nickname ∨ f = sakey

instance (f : Field) : Decidable f.Optional := inferInstanceAs (Decidable (_ ∨ _))

end Field

def ints (v : Wmvars) : List UInt32 := [v.sid, v.srv, v.pid, v.ft, v.hd]

/-- Keys that are those of strings, or not in the table, on lines of their own; and values. -/
structure Printable (p : CStr × CStr) : Prop where
  known : p.1 ∈ vals.map Prod.fst → ∃ f : Field, p.1 = f.key
  ne : p.1 ≠ []
  hash : p.1.head? ≠ some 35
  colon : 58 ∉ p.1
  line : 10 ∉ p.1
  val : 0 ∉ p.2 ∧ 10 ∉ p.2 ∧ 13 ∉ p.2
  space : ∀ c ∈ p.2.head?, isspace c = false

/-- The value of the last line for a key. -/
def lastValue (pairs : List (CStr × CStr)) (key : CStr) : Option CStr := pairs.reverse.lookup key

/-- What a field is, by the last value for its key. -/
def Field.Holds (f : Field) (v v' : Wmvars) : Option CStr → Prop
  | none => f.get v' = f.get v
  | some [] => (f.get v').getD [] = []
  | some val => f.get v' = some (f.stored val)

/-- The pairs are read back: no handler is given NULL to crash on, and 1 is returned. -/
def ReadBack (v : Wmvars) (pairs : List (CStr × CStr)) : Prop :=
  ∃ v', doParse v (file pairs) = .ok (some v') ∧ ints v' = ints v ∧
    ∀ f : Field, f.Holds v v' (lastValue pairs f.key)

/-! ### One line -/

namespace Field

def set (v : Wmvars) (s : CStr) : Field → Wmvars
  | turbo => { v with tcUrl := some s }
  | signupargs => { v with signupargs := some s }
  | sessiontype => { v with sessiontype := some s }
  | nickname => { v with nickname := some s }
  | sakey => { v with sakey := some s }
  | g => { v with g := some s }
  | ldmov => { v with ldmov := some s }
  | lang => { v with lang := some s }
  | sk => { v with sk := some s }
  | pageurl => { v with pageurl := some s }

variable (f f' : Field) (v v' : Wmvars) (s : CStr)

theorem get_set_self : f.get (f.set v s) = some s := by
  cases f <;> rfl

theorem get_set_ne (h : f' ≠ f) : f'.get (f.set v s) = f'.get v := by
  cases f <;> cases f' <;> first | rfl | exact absurd rfl h

theorem ints_set : ints (f.set v s) = ints v := by
  cases f <;> rfl

theorem handler_some : f.handler v (some s) = .ok (f.set v (f.stored s)) := by
  cases f <;> rfl

theorem handler_none_iff : f.handler v none = .ok v' ↔ f.Optional ∧ v' = v := by
  cases f
  case nickname | sakey => exact ⟨fun h => ⟨by decide, (Except.ok.inj h).symm⟩, fun h => h.2 ▸ rfl⟩
  all_goals exact ⟨nofun, fun h => absurd h.1 (by decide)⟩

theorem callHandler_key (val : Option CStr) :
    callHandler v f.key val vals = (f.handler v val).map some := by
  cases f <;> rfl

/-- The keys do not look like the ends of a line or a comment. -/
theorem key_plain : f.key ≠ [] ∧ f.key.head? ≠ some 35 ∧ 0 ∉ f.key ∧ 13 ∉ f.key := by
  cases f <;> decide

theorem key_injective : Function.Injective key := by
  intro f f'
  cases f <;> cases f' <;> decide

end Field

variable {v v' : Wmvars} {p : CStr × CStr} {pairs : List (CStr × CStr)}

theorem callHandler_unknown {key : CStr} (val : Option CStr) {vals : List (CStr × Handler)}
    (h : key ∉ vals.map Prod.fst) : callHandler v key val vals = .ok (some v) := by
  induction vals with
  | nil => rfl
  | cons e vals ih =>
    rw [List.map_cons, List.mem_cons, not_or] at h
    rw [callHandler, if_neg (Ne.symm h.1)]
    exact ih h.2

theorem lineLoop_key {key : CStr} (hkey : 58 ∉ key) (acc rest : CStr) :
    lineLoop 0 acc none (key ++ 58 :: rest) = lineLoop 1 (acc ++ key) none rest := by
  induction key generalizing acc with
  | nil =>
    rw [List.nil_append, List.append_nil, lineLoop, if_neg nofun, if_pos rfl, if_pos rfl]
  | cons c key ih =>
    rw [List.mem_cons, not_or] at hkey
    rw [List.cons_append, lineLoop, if_neg nofun, if_pos rfl, if_neg (Ne.symm hkey.1), ih hkey.2,
      List.append_assoc, List.singleton_append]

theorem lineLoop_noColon {str : CStr} (h : 58 ∉ str) (acc : CStr) :
    (lineLoop 0 acc none str).1 = 0 := by
  induction str generalizing acc with
  | nil => rfl
  | cons c str ih =>
    rw [List.mem_cons, not_or] at h
    rw [lineLoop, if_neg nofun, if_pos rfl, if_neg (Ne.symm h.1)]
    exact ih h.2 _

theorem lineLoop_done (key : CStr) (val : Option CStr) (str : CStr) :
    lineLoop 2 key val str = (2, key, val) := by
  cases str with
  | nil => rfl
  | cons c str => rw [lineLoop, if_pos rfl]

theorem lineLoop_val (key : CStr) {val : CStr} (hspace : ∀ c ∈ val.head?, isspace c = false) :
    lineLoop 1 key none (32 :: val) =
      if val = [] then (1, key, none) else (2, key, some val) := by
  rw [lineLoop, if_neg nofun, if_neg nofun, if_neg (by decide)]
  cases val with
  | nil => rfl
  | cons c val =>
    rw [lineLoop, if_neg nofun, if_neg nofun, if_pos (by rw [hspace c rfl]; exact nofun),
      lineLoop_done, if_neg nofun]

/-- A line of a key and a value. -/
theorem doLine_pair (hp : Printable p) : doLine v (p.1 ++ [58, 32] ++ p.2) =
    callHandler v p.1 (if p.2 = [] then none else some p.2) vals := by
  obtain ⟨c, key, hkey⟩ := List.exists_cons_of_ne_nil hp.ne
  have hhead : (p.1 ++ [58, 32] ++ p.2).head? = p.1.head? := by rw [hkey]; rfl
  have hloop := lineLoop_key hp.colon [] (32 :: p.2)
  rw [lineLoop_val _ hp.space, List.nil_append] at hloop
  have hsplit : p.1 ++ [58, 32] ++ p.2 = p.1 ++ 58 :: 32 :: p.2 := by simp
  rw [doLine, hhead, if_neg (not_or.mpr ⟨by rw [hkey]; exact nofun, hp.hash⟩), hsplit, hloop]
  by_cases hval : p.2 = []
  · rw [if_pos hval, if_pos hval]
    rfl
  · rw [if_neg hval, if_neg hval]
    rfl

/-- There is no NUL and no carriage return, or it is the first character. -/
def Whole (key : CStr) : Prop :=
  key.head? = some 0 ∨ key.head? = some 13 ∨ 0 ∉ key ∧ 13 ∉ key

/-- What a carriage return is overwritten with. -/
def cut (c : UInt8) : UInt8 := if c = 13 then 0 else c

/-- The line of a pair, as `do_line` sees it. -/
def lineOf (p : CStr × CStr) : CStr := ((p.1 ++ [58, 32] ++ p.2).map cut).takeWhile (· ≠ 0)

theorem parseLoop_line {l : List UInt8} (hl : 10 ∉ l) (acc rest : List UInt8) :
    parseLoop v acc (l ++ 10 :: rest) =
      doLine v ((acc ++ l.map cut).takeWhile (· ≠ 0)) >>= fun r =>
        r.elim (.ok none) fun v => parseLoop v [] rest := by
  induction l generalizing acc with
  | nil =>
    rw [List.nil_append, List.map_nil, List.append_nil, parseLoop, if_neg (by decide), if_pos rfl]
    refine congrArg _ (funext fun r => ?_)
    cases r <;> rfl
  | cons c l ih =>
    rw [List.mem_cons, not_or] at hl
    have hacc : acc ++ (c :: l).map cut = (acc ++ [cut c]) ++ l.map cut := by simp
    rw [List.cons_append, parseLoop, hacc, ← ih hl.2, cut]
    by_cases hc : c = 13
    · rw [if_pos hc, if_pos hc]
    · rw [if_neg hc, if_neg (Ne.symm hl.1), if_neg hc]

theorem parseLoop_pair (hp : Printable p) (rest : List UInt8) :
    parseLoop v [] (printed p ++ rest) = doLine v (lineOf p) >>= fun r =>
      r.elim (.ok none) fun v => parseLoop v [] rest := by
  have hline : 10 ∉ p.1 ++ [58, 32] ++ p.2 := by
    simp only [List.mem_append, not_or]
    exact ⟨⟨hp.line, by decide⟩, hp.val.2.1⟩
  have h := parseLoop_line (v := v) hline [] rest
  rw [printed, List.append_assoc, List.singleton_append]
  exact h

theorem lineOf_plain (hp : Printable p) (h : 0 ∉ p.1 ∧ 13 ∉ p.1) :
    lineOf p = p.1 ++ [58, 32] ++ p.2 := by
  have hplain : ∀ c ∈ p.1 ++ [58, 32] ++ p.2, c ≠ 0 ∧ c ≠ 13 := by
    intro c hc
    rw [List.mem_append, List.mem_append] at hc
    rcases hc with (hc | hc) | hc
    · exact ⟨fun he => h.1 (he ▸ hc), fun he => h.2 (he ▸ hc)⟩
    · simp only [List.mem_cons, List.not_mem_nil, or_false] at hc
      rcases hc with rfl | rfl <;> decide
    · exact ⟨fun he => hp.val.1 (he ▸ hc), fun he => hp.val.2.2 (he ▸ hc)⟩
  have hcut : (p.1 ++ [58, 32] ++ p.2).map cut = p.1 ++ [58, 32] ++ p.2 := by
    have hid : ∀ c ∈ p.1 ++ [58, 32] ++ p.2, cut c = id c := fun c hc => if_neg (hplain c hc).2
    rw [List.map_congr_left hid, List.map_id]
  rw [lineOf, hcut, List.takeWhile_eq_self_iff]
  exact fun c hc => decide_eq_true (hplain c hc).1

/-- The line ends in a key that is cut short. -/
theorem lineOf_cut (h : ∃ c ∈ p.1, c = 0 ∨ c = 13) :
    lineOf p = (p.1.map cut).takeWhile (· ≠ 0) := by
  obtain ⟨c, hc, hend⟩ := h
  have hzero : cut c = 0 := by rcases hend with rfl | rfl <;> rfl
  rw [lineOf, List.append_assoc, List.map_append, List.takeWhile_append, if_neg fun hlen => ?_]
  have hall : (p.1.map cut).takeWhile (· ≠ 0) = p.1.map cut :=
    (List.takeWhile_prefix _).eq_of_length hlen
  have := List.takeWhile_eq_self_iff.mp hall (cut c) (List.mem_map_of_mem hc)
  rw [hzero] at this
  exact absurd this (by decide)

theorem doLine_skipped (h : p.1.head? = some 0 ∨ p.1.head? = some 13) :
    doLine v (lineOf p) = .ok (some v) := by
  obtain ⟨c, key, hkey⟩ : ∃ c key, p.1 = c :: key := by
    cases hkey : p.1 with
    | nil => simp [hkey] at h
    | cons c key => exact ⟨c, key, rfl⟩
  have hc : c = 0 ∨ c = 13 := by simpa [hkey] using h
  have hcut : lineOf p = [] := by
    rw [lineOf_cut ⟨c, by rw [hkey]; exact List.mem_cons_self, hc⟩, hkey]
    rcases hc with rfl | rfl <;> rfl
  rw [hcut]
  rfl

theorem doLine_refused (hp : Printable p) (h : ¬ Whole p.1) : doLine v (lineOf p) = .ok none := by
  rw [Whole, not_or, not_or] at h
  obtain ⟨c, key, hkey⟩ := List.exists_cons_of_ne_nil hp.ne
  have hbad : ∃ c ∈ p.1, c = 0 ∨ c = 13 := by
    by_contra hno
    exact h.2.2 ⟨fun h0 => hno ⟨0, h0, .inl rfl⟩, fun h13 => hno ⟨13, h13, .inr rfl⟩⟩
  have hc : c ≠ 0 ∧ c ≠ 13 := by
    rw [hkey] at h
    exact ⟨fun he => h.1 (by rw [he]; rfl), fun he => h.2.1 (by rw [he]; rfl)⟩
  have hcc : cut c = c := if_neg hc.2
  have hcolon : 58 ∉ lineOf p := by
    rw [lineOf_cut hbad]
    intro hmem
    obtain ⟨d, hd, hcut⟩ := List.mem_map.mp ((List.takeWhile_prefix _).subset hmem)
    unfold cut at hcut
    split_ifs at hcut
    · exact absurd hcut (by decide)
    · exact hp.colon (hcut ▸ hd)
  have hhead : (lineOf p).head? = p.1.head? := by
    rw [lineOf_cut hbad, hkey, List.map_cons, hcc, List.takeWhile_cons, if_pos (decide_eq_true hc.1)]
    rfl
  rw [doLine, hhead, if_neg (not_or.mpr ⟨by rw [hkey]; exact nofun, hp.hash⟩)]
  change (if (lineLoop 0 [] none (lineOf p)).1 < 1 then _ else _) = _
  rw [lineLoop_noColon hcolon, if_pos Nat.zero_lt_one]
  rfl

/-! ### All lines -/

def Field.all : List Field :=
  [.turbo, .signupargs, .sessiontype, .nickname, .sakey, .g, .ldmov, .lang, .sk, .pageurl]

/-- The field of a key. -/
def Field.ofKey (key : CStr) : Option Field := Field.all.find? (·.key = key)

theorem Field.ofKey_key (f : Field) : Field.ofKey f.key = some f := by
  cases f <;> decide

theorem Field.ofKey_eq_some {f : Field} {key : CStr} (h : Field.ofKey key = some f) :
    f.key = key := by
  have hkey := List.find?_some h
  exact of_decide_eq_true hkey

/-- What is left of a pair that is accepted. -/
def step (v : Wmvars) (p : CStr × CStr) : Wmvars :=
  match Field.ofKey p.1 with
  | some f => if p.2 = [] then v else f.set v (f.stored p.2)
  | none => v

/-- Keys that are accepted, with a value or without. -/
structure Accepted (p : CStr × CStr) : Prop where
  key : Whole p.1
  val : ∀ f : Field, p = (f.key, []) → f.Optional

theorem Field.ofKey_eq_none {key : CStr} (h : ∀ f : Field, key ≠ f.key) :
    Field.ofKey key = none := by
  cases hf : Field.ofKey key with
  | none => rfl
  | some f => exact absurd (Field.ofKey_eq_some hf).symm (h f)

theorem step_unknown (h : ∀ f : Field, p.1 ≠ f.key) : step v p = v := by
  rw [step, Field.ofKey_eq_none h]

theorem step_key {f : Field} (h : p.1 = f.key) :
    step v p = if p.2 = [] then v else f.set v (f.stored p.2) := by
  rw [step, h, Field.ofKey_key]

/-- A key that is not that of a string stands on a line that does nothing. -/
theorem accepted_unknown (hw : Whole p.1) (h : ∀ f : Field, p.1 ≠ f.key) :
    (Except.ok (some v) : Except Crash (Option Wmvars)) = .ok (some v') ↔
      Accepted p ∧ v' = step v p := by
  have hacc : Accepted p := ⟨hw, fun f he => absurd (congrArg Prod.fst he) (h f)⟩
  rw [step_unknown h]
  exact ⟨fun he => ⟨hacc, by cases he; rfl⟩, fun he => by rw [he.2]⟩

theorem accepted_key {f : Field} (hkey : p.1 = f.key) :
    callHandler v p.1 (if p.2 = [] then none else some p.2) vals = .ok (some v') ↔
      Accepted p ∧ v' = step v p := by
  have hw : Whole p.1 := .inr (.inr (hkey ▸ f.key_plain.2.2))
  have hmap : ∀ x : Except Crash Wmvars, x.map some = .ok (some v') ↔ x = .ok v' := by
    intro x
    cases x with
    | error e => exact ⟨nofun, nofun⟩
    | ok w => exact ⟨fun h => by cases h; rfl, fun h => by cases h; rfl⟩
  rw [step_key hkey, hkey, Field.callHandler_key, hmap]
  by_cases hval : p.2 = []
  · have hacc : f.Optional ↔ Accepted p := by
      refine ⟨fun ho => ⟨hw, fun f' he => ?_⟩, fun h => h.val f (Prod.ext hkey hval)⟩
      obtain rfl := Field.key_injective (hkey.symm.trans (congrArg Prod.fst he))
      exact ho
    rw [if_pos hval, if_pos hval, Field.handler_none_iff, hacc]
  · have hacc : Accepted p := ⟨hw, fun f he => absurd (congrArg Prod.snd he) hval⟩
    rw [if_neg hval, if_neg hval, Field.handler_some]
    exact ⟨fun he => ⟨hacc, by cases he; rfl⟩, fun he => by rw [he.2]⟩

/-- A line is accepted, or it makes `do_parse` crash or return 0. -/
theorem doLine_iff (hp : Printable p) :
    doLine v (lineOf p) = .ok (some v') ↔ Accepted p ∧ v' = step v p := by
  by_cases hw : Whole p.1
  · by_cases hplain : 0 ∉ p.1 ∧ 13 ∉ p.1
    · rw [lineOf_plain hp hplain, doLine_pair hp]
      by_cases hkey : ∃ f : Field, p.1 = f.key
      · obtain ⟨f, hkey⟩ := hkey
        exact accepted_key hkey
      · rw [callHandler_unknown _ fun hmem => hkey (hp.known hmem)]
        exact accepted_unknown hw fun f he => hkey ⟨f, he⟩
    · have hhead : p.1.head? = some 0 ∨ p.1.head? = some 13 := by
        rw [Whole, ← or_assoc] at hw
        exact hw.resolve_right hplain
      rw [doLine_skipped hhead]
      exact accepted_unknown hw fun f he => hplain (he ▸ f.key_plain.2.2)
  · rw [doLine_refused hp hw]
    exact ⟨nofun, fun h => absurd h.1.key hw⟩

/-- `do_parse` succeeds if every line is accepted, and leaves what they do one by one. -/
theorem parseLoop_iff (hp : ∀ p ∈ pairs, Printable p) :
    parseLoop v [] (file pairs) = .ok (some v') ↔
      (∀ p ∈ pairs, Accepted p) ∧ v' = pairs.foldl step v := by
  induction pairs generalizing v with
  | nil => exact ⟨fun h => ⟨nofun, by cases h; rfl⟩, fun h => by rw [h.2]; rfl⟩
  | cons p pairs ih =>
    obtain ⟨hp, hpairs⟩ := List.forall_mem_cons.mp hp
    have hrun : parseLoop v [] (file (p :: pairs)) = .ok (some v') ↔
        ∃ w, doLine v (lineOf p) = .ok (some w) ∧ parseLoop w [] (file pairs) = .ok (some v') := by
      rw [file, List.flatMap_cons, parseLoop_pair hp]
      cases doLine v (lineOf p) with
      | error e => exact ⟨nofun, by rintro ⟨w, ⟨⟩, -⟩⟩
      | ok r =>
        cases r with
        | none => exact ⟨nofun, by rintro ⟨w, ⟨⟩, -⟩⟩
        | some w => exact ⟨fun h => ⟨w, rfl, h⟩, by rintro ⟨_, ⟨⟩, h⟩; exact h⟩
    rw [hrun, List.forall_mem_cons, List.foldl_cons]
    constructor
    · rintro ⟨w, hline, hrest⟩
      obtain ⟨hacc, rfl⟩ := (doLine_iff hp).mp hline
      obtain ⟨hall, hv⟩ := (ih hpairs).mp hrest
      exact ⟨⟨hacc, hall⟩, hv⟩
    · rintro ⟨⟨hacc, hall⟩, hv⟩
      exact ⟨step v p, (doLine_iff hp).mpr ⟨hacc, rfl⟩, (ih hpairs).mpr ⟨hall, hv⟩⟩

/-! ### Fields -/

theorem ints_step : ints (step v p) = ints v := by
  by_cases hkey : ∃ f : Field, p.1 = f.key
  · obtain ⟨f, hkey⟩ := hkey
    rw [step_key hkey]
    split
    · rfl
    · exact f.ints_set v _
  · rw [step_unknown fun f he => hkey ⟨f, he⟩]

theorem ints_foldl : ints (pairs.foldl step v) = ints v := by
  induction pairs generalizing v with
  | nil => rfl
  | cons p pairs ih => rw [List.foldl_cons, ih, ints_step]

/-- A field is what the last line with a value has stored. -/
theorem get_step (f : Field) :
    f.get (step v p) = if p.1 = f.key ∧ p.2 ≠ [] then some (f.stored p.2) else f.get v := by
  by_cases hkey : ∃ f : Field, p.1 = f.key
  · obtain ⟨f', hkey⟩ := hkey
    rw [step_key hkey]
    by_cases hval : p.2 = []
    · rw [if_pos hval, if_neg fun h => h.2 hval]
    · rw [if_neg hval]
      by_cases hf : f = f'
      · rw [hf, if_pos ⟨hkey, hval⟩, Field.get_set_self]
      · rw [Field.get_set_ne _ _ _ _ hf, if_neg fun h => hf ?_]
        exact Field.key_injective (h.1.symm.trans hkey)
  · rw [step_unknown fun f he => hkey ⟨f, he⟩, if_neg fun h => hkey ⟨f, h.1⟩]

theorem lastValue_append {key : CStr} :
    lastValue (pairs ++ [p]) key = if p.1 = key then some p.2 else lastValue pairs key := by
  rw [lastValue, List.reverse_append, List.reverse_singleton, List.singleton_append]
  obtain ⟨k, val⟩ := p
  rw [List.lookup_cons]
  by_cases hkey : k = key
  · rw [if_pos hkey, beq_iff_eq.mpr hkey.symm]
  · rw [if_neg hkey, beq_eq_false_iff_ne.mpr (Ne.symm hkey)]
    rfl

theorem lastValue_eq_none {key : CStr} (h : lastValue pairs key = none) :
    ∀ p ∈ pairs, p.1 ≠ key := by
  induction pairs using List.reverseRecOn with
  | nil => exact nofun
  | append_singleton pairs p ih =>
    rw [lastValue_append] at h
    split_ifs at h with hkey
    intro q hq
    rcases List.mem_append.mp hq with hq | hq
    · exact ih h q hq
    · rwa [List.mem_singleton.mp hq]

theorem lastValue_mem {key val : CStr} (h : lastValue pairs key = some val) :
    (key, val) ∈ pairs := by
  induction pairs using List.reverseRecOn with
  | nil => cases h
  | append_singleton pairs p ih =>
    rw [lastValue_append] at h
    split_ifs at h with hkey
    · cases h
      exact List.mem_append_right _ (hkey ▸ List.mem_singleton_self _)
    · exact List.mem_append_left _ (ih h)

variable {f : Field}

theorem get_foldl_empty (h : ∀ p ∈ pairs, p.1 = f.key → p.2 = []) :
    f.get (pairs.foldl step v) = f.get v := by
  induction pairs generalizing v with
  | nil => rfl
  | cons p pairs ih =>
    obtain ⟨hp, hpairs⟩ := List.forall_mem_cons.mp h
    rw [List.foldl_cons, ih hpairs, get_step, if_neg fun hne => hne.2 (hp hne.1)]

theorem get_foldl_last {val : CStr} (h : lastValue pairs f.key = some val) (hval : val ≠ []) :
    f.get (pairs.foldl step v) = some (f.stored val) := by
  induction pairs using List.reverseRecOn with
  | nil => cases h
  | append_singleton pairs p ih =>
    rw [lastValue_append] at h
    rw [List.foldl_append, List.foldl_cons, List.foldl_nil, get_step]
    split_ifs at h with hkey
    · cases h
      rw [if_pos ⟨hkey, hval⟩]
    · rw [if_neg fun hne => hkey hne.1, ih h]

/-- A value that is not empty is not taken back by a line without one. -/
theorem get_foldl_stays (hf : f ≠ .turbo) (h : ∃ p ∈ pairs, p.1 = f.key ∧ p.2 ≠ []) :
    ∃ s, s ≠ [] ∧ f.get (pairs.foldl step v) = some s := by
  induction pairs using List.reverseRecOn with
  | nil => exact absurd h (by simp)
  | append_singleton pairs p ih =>
    rw [List.foldl_append, List.foldl_cons, List.foldl_nil, get_step]
    by_cases hp : p.1 = f.key ∧ p.2 ≠ []
    · rw [if_pos hp, Field.stored, if_neg hf]
      exact ⟨p.2, hp.2, rfl⟩
    · rw [if_neg hp]
      obtain ⟨q, hq, hne⟩ := h
      rcases List.mem_append.mp hq with hq | hq
      · exact ih ⟨q, hq, hne⟩
      · exact absurd (List.mem_singleton.mp hq ▸ hne) hp

/-- A field that is to be empty is so if it was, and has never been anything else. -/
def Cleared (v : Wmvars) (pairs : List (CStr × CStr)) (f : Field) : Prop :=
  lastValue pairs f.key = some [] →
    (f.get v).getD [] = [] ∧ ∀ p ∈ pairs, p.1 = f.key → p.2 = []

theorem holds_iff (hacc : ∀ p ∈ pairs, Accepted p) (f : Field) :
    f.Holds v (pairs.foldl step v) (lastValue pairs f.key) ↔ Cleared v pairs f := by
  cases hlast : lastValue pairs f.key with
  | none =>
    refine iff_of_true ?_ fun h => nomatch hlast.symm.trans h
    exact get_foldl_empty fun p hp hkey => absurd hkey (lastValue_eq_none hlast p hp)
  | some val =>
    cases val with
    | cons c val =>
      refine iff_of_true ?_ fun h => nomatch hlast.symm.trans h
      exact get_foldl_last hlast nofun
    | nil =>
      have hoptional := (hacc _ (lastValue_mem hlast)).val f rfl
      have hf : f ≠ .turbo := by rintro rfl; exact absurd hoptional (by decide)
      constructor
      · intro hholds _
        have hempty : ∀ p ∈ pairs, p.1 = f.key → p.2 = [] := by
          by_contra hno
          push Not at hno
          obtain ⟨s, hs, hget⟩ := get_foldl_stays (v := v) hf hno
          exact hs (by simpa [Field.Holds, hget] using hholds)
        refine ⟨?_, hempty⟩
        rw [← get_foldl_empty hempty]
        exact hholds
      · intro hclear
        obtain ⟨hv, hempty⟩ := hclear hlast
        change (f.get (pairs.foldl step v)).getD [] = []
        rw [get_foldl_empty hempty, hv]

/-- The pairs are read back if each has a key that is not cut short behind its first character,
and a value unless its handler does without one, and no field is to be emptied again. -/
theorem read_back_iff (v : Wmvars) (pairs : List (CStr × CStr)) (hp : ∀ p ∈ pairs, Printable p) :
    ReadBack v pairs ↔ (∀ p ∈ pairs, Accepted p) ∧ ∀ f, Cleared v pairs f := by
  constructor
  · rintro ⟨v', hrun, -, hfields⟩
    obtain ⟨hacc, rfl⟩ := (parseLoop_iff hp).mp hrun
    exact ⟨hacc, fun f => (holds_iff hacc f).mp (hfields f)⟩
  · rintro ⟨hacc, hclear⟩
    exact ⟨_, (parseLoop_iff hp).mpr ⟨hacc, rfl⟩, ints_foldl,
      fun f => (holds_iff hacc f).mpr (hclear f)⟩

/-- A nickname, a key that means nothing, and a URL with semicolons. -/
def sample : List (CStr × CStr) :=
  [(cstr "p_nickname", cstr "a:b;c"), (cstr "p_x", []), (cstr "turbo", cstr "rtmp://h;1;2")]

theorem space_of_head {s : CStr} {c : UInt8} (hhead : s.head? = some c) (hc : isspace c = false) :
    ∀ d ∈ s.head?, isspace d = false := by
  rw [hhead]
  rintro d ⟨⟩
  exact hc

theorem read_back_sample :
    ReadBack {} sample ↔ (∀ p ∈ sample, Accepted p) ∧ ∀ f, Cleared {} sample f :=
  read_back_iff {} sample <| List.forall_mem_cons.mpr
    ⟨⟨fun _ => ⟨.nickname, rfl⟩, by decide, by decide, by decide, by decide, by decide,
        space_of_head rfl rfl⟩,
      List.forall_mem_cons.mpr
        ⟨⟨fun h => absurd h (by decide), by decide, by decide, by decide, by decide, by decide,
            nofun⟩,
          List.forall_mem_singleton.mpr ⟨fun _ => ⟨.turbo, rfl⟩, by decide, by decide, by decide,
            by decide, by decide, space_of_head rfl rfl⟩⟩⟩

/-- The line for an empty `turbo` gives NULL to `strrchr`. -/
theorem turbo_empty : Printable (cstr "turbo", []) ∧ ¬ ReadBack {} [(cstr "turbo", [])] := by
  refine ⟨⟨fun _ => ⟨.turbo, rfl⟩, ?_, ?_, ?_, ?_, ?_, ?_⟩, ?_⟩
  iterate 5 decide
  · exact nofun
  have hrun : doParse {} (file [(cstr "turbo", [])]) = .error .nullString := rfl
  rintro ⟨v', h, -⟩
  rw [hrun] at h
  cases h

end Mayhem.Cvars
