import Mathlib.Data.List.TakeWhile
import Mathlib.Data.Nat.Digits.Lemmas
import Mathlib.Tactic.SplitIfs
import Mayhem.Lib.Int32
import Mayhem.Naiad.Session

/-! `rtmp_urlparse`: host, port and path of a URL. -/
namespace Mayhem

open Naiad

def RTMP_SCHEME : CStr := cstr "rtmp://"

def RTMP_DEFAULT_PORT : UInt16 := 1935

/-- The copy of host and port is cut at the colon. -/
def splitPort (buf : CStr) : Except Crash (CStr × UInt16) := do
  let pnum ← match buf.dropWhile (· ≠ 58) with
    | [] => pure RTMP_DEFAULT_PORT
    | _ :: prt => UInt16.ofInt <$> atoi (some prt)
  return (buf.takeWhile (· ≠ 58), if pnum = 0 ∨ pnum = 0xffff then RTMP_DEFAULT_PORT else pnum)

/-- The host that is returned, and what `port` and `path` point to if they are not NULL. An
allocation succeeds unless its size is negative (`hsz + 1` for INT_MAX is INT_MIN); `heap` is the
string that lies in memory of size 0. -/
def rtmpUrlparse (heap url : CStr) (port : Option UInt16) (path : Option (Option CStr)) :
    Except Crash (Option CStr × Option UInt16 × Option (Option CStr)) :=
  if ¬ RTMP_SCHEME <+: url then return (none, port, path)
  else
    let ptr := url.drop RTMP_SCHEME.length
    let tmp := ptr.dropWhile (· ≠ 47)
    let hsz := toInt32 (ptr.length - tmp.length)
    if hsz < -1 ∨ hsz = 0x7fffffff then return (none, port, path)
    else do
      let (buf, pnum) ← splitPort (if hsz = -1 then heap else ptr.take hsz.toNat)
      return (some buf, port.map fun _ => pnum,
        if tmp ≠ [] ∧ tmp.tail ≠ [] then path.map fun _ => some tmp.tail else path)

/-! ### Decimal numbers -/

/-- A number in decimal. -/
def decimal (n : ℕ) : CStr := (Nat.digits 10 n).reverse.map fun d => (48 + d).toUInt8

theorem decimal_digit {n : ℕ} : ∀ c ∈ decimal n, 48 ≤ c ∧ c ≤ 57 := by
  intro c hc
  obtain ⟨d, hd, rfl⟩ := List.mem_map.mp hc
  have hlt := Nat.digits_lt_base (by decide : 1 < 10) (List.mem_reverse.mp hd)
  interval_cases d <;> decide

theorem digits_decimal (n : ℕ) : Naiad.digits (decimal n) = n := by
  have hall : (decimal n).takeWhile (fun c => 48 ≤ c ∧ c ≤ 57) = decimal n :=
    List.takeWhile_eq_self_iff.mpr fun c hc => decide_eq_true (decimal_digit c hc)
  have hfold : ∀ (l : List ℕ) (a : ℕ), (∀ d ∈ l, d < 10) →
      (l.map fun d => (48 + d).toUInt8).foldl (fun n c => 10 * n + (c.toNat - 48)) a =
        l.foldl (fun n d => 10 * n + d) a := by
    intro l
    induction l with
    | nil => exact fun _ _ => rfl
    | cons d l ih =>
      intro a hl
      obtain ⟨hd, hl⟩ := List.forall_mem_cons.mp hl
      have hc : (48 + d).toUInt8.toNat - 48 = d := by
        rw [Nat.toUInt8, UInt8.toNat_ofNat', Nat.mod_eq_of_lt (by omega), Nat.add_sub_cancel_left]
      rw [List.map_cons, List.foldl_cons, List.foldl_cons, hc, ih _ hl]
  rw [Naiad.digits, hall, decimal, hfold _ _ fun d hd =>
    Nat.digits_lt_base (by decide) (List.mem_reverse.mp hd), List.foldl_reverse]
  have hdigits := Nat.ofDigits_digits 10 n
  rw [Nat.ofDigits_eq_foldr] at hdigits
  simpa [Nat.add_comm] using hdigits

theorem signed_decimal {n : ℕ} (hn : n ≠ 0) : signed (decimal n) = n := by
  obtain ⟨c, s, hs⟩ : ∃ c s, decimal n = c :: s :=
    List.exists_cons_of_ne_nil (by simpa [decimal] using Nat.digits_ne_nil_iff_ne_zero.mpr hn)
  have hc : 48 ≤ c ∧ c ≤ 57 := decimal_digit c (by rw [hs]; exact List.mem_cons_self)
  have hspace : ¬ (c = 32 ∨ (9 ≤ c ∧ c ≤ 13)) := by
    simp only [UInt8.le_iff_toNat_le, ← UInt8.toNat_inj] at hc ⊢
    simp only [UInt8.reduceToNat] at hc ⊢
    omega
  have hsign : c ≠ 45 ∧ c ≠ 43 := by
    simp only [UInt8.le_iff_toNat_le, ne_eq, ← UInt8.toNat_inj] at hc ⊢
    simp only [UInt8.reduceToNat] at hc ⊢
    omega
  rw [signed, hs, List.dropWhile_cons_of_neg (by simpa using hspace)]
  split
  · rename_i heq
    exact absurd (List.cons.inj heq).1 hsign.1
  · rename_i heq
    exact absurd (List.cons.inj heq).1 hsign.2
  · rw [← hs, digits_decimal]

/-- Where the number that is written fits an `int`. -/
theorem atoi_of_signed {s : CStr} {n : ℤ} (hs : signed s = n) (hlow : -0x80000000 ≤ n)
    (hhigh : n < 0x80000000) : atoi (some s) = .ok n := by
  have hlong : strtol s = n := by
    rw [strtol, hs, if_neg (by omega), if_pos (by omega)]
  rw [atoi, hlong, toInt32_emod hlow hhigh]

theorem atoi_decimal {n : ℕ} (hn : n ≠ 0) (hmax : n < 2 ^ 31) : atoi (some (decimal n)) = .ok n :=
  atoi_of_signed (signed_decimal hn) (by omega) (by omega)

/-! ### Parts -/

/-- `:` and the port, if there is one. -/
def portPart : Option ℕ → CStr
  | none => []
  | some n => 58 :: decimal n

/-- `/` and the path, if there is one. -/
def pathPart : Option CStr → CStr
  | none => []
  | some path => 47 :: path

def urlOf (host : CStr) (port : Option ℕ) (path : Option CStr) : CStr :=
  RTMP_SCHEME ++ ((host ++ portPart port) ++ pathPart path)

theorem dropWhile_part {c : UInt8} {s tail : CStr} (hs : c ∉ s)
    (htail : tail = [] ∨ tail.head? = some c) : (s ++ tail).dropWhile (· ≠ c) = tail := by
  have hall : ∀ d ∈ s, decide (d ≠ c) = true := fun d hd =>
    decide_eq_true fun he => hs (he ▸ hd)
  rw [List.dropWhile_append_of_pos hall]
  cases tail with
  | nil => rfl
  | cons d tail =>
    have hd : d = c := by simpa using htail
    rw [hd, List.dropWhile_cons_of_neg (by simp)]

theorem takeWhile_part {c : UInt8} {s tail : CStr} (hs : c ∉ s)
    (htail : tail = [] ∨ tail.head? = some c) : (s ++ tail).takeWhile (· ≠ c) = s := by
  have h := List.takeWhile_append_dropWhile (p := (· ≠ c)) (l := s ++ tail)
  rw [dropWhile_part hs htail] at h
  exact List.append_cancel_right h

/-- What is copied of host and port, if its length is one after the conversion to int. -/
theorem urlparse_copy {heap s tail host : CStr} {pnum : UInt16} {port : Option UInt16}
    {path : Option (Option CStr)} (hs : 47 ∉ s) (htail : tail = [] ∨ tail.head? = some 47) {n : ℕ}
    (hn : toInt32 s.length = n) (hmax : n < 2147483647)
    (hsplit : splitPort ((s ++ tail).take n) = .ok (host, pnum)) :
    rtmpUrlparse heap (RTMP_SCHEME ++ (s ++ tail)) port path =
      .ok (some host, port.map fun _ => pnum,
        if tail ≠ [] ∧ tail.tail ≠ [] then path.map fun _ => some tail.tail else path) := by
  have hlen : (s ++ tail).length - tail.length = s.length := by
    rw [List.length_append, Nat.add_sub_cancel]
  have hbad : ¬ ((n : ℤ) < -1 ∨ (n : ℤ) = 0x7fffffff) := by omega
  have hneg : (n : ℤ) ≠ -1 := by omega
  rw [rtmpUrlparse, if_neg (not_not.mpr (List.prefix_append _ _)), List.drop_left' rfl]
  dsimp only
  rw [dropWhile_part hs htail, hlen, hn, if_neg hbad, if_neg hneg, Int.toNat_natCast, hsplit]
  rfl

/-- The port that is used for the number in the URL. -/
def portUsed : Option ℕ → UInt16
  | none => RTMP_DEFAULT_PORT
  | some n => if n = 65535 then RTMP_DEFAULT_PORT else .ofNat n

/-- A path is stored if it is not empty. -/
def pathUsed (path : Option CStr) (old : Option (Option CStr)) : Option (Option CStr) :=
  match path with
  | some (c :: path) => old.map fun _ => some (c :: path)
  | _ => old

theorem splitPort_part {host : CStr} {port : Option ℕ} (hhost : 58 ∉ host)
    (hport : ∀ n ∈ port, 1 ≤ n ∧ n ≤ 65535) :
    splitPort (host ++ portPart port) = .ok (host, portUsed port) := by
  have hpart : portPart port = [] ∨ (portPart port).head? = some 58 := by
    cases port with
    | none => exact .inl rfl
    | some n => exact .inr rfl
  rw [splitPort, dropWhile_part hhost hpart, takeWhile_part hhost hpart]
  cases port with
  | none => rfl
  | some n =>
    obtain ⟨h₁, h₂⟩ := hport n rfl
    have hnum : UInt16.ofInt n = .ofNat n := by
      rw [UInt16.ofInt]
      congr 1
      omega
    have hne : UInt16.ofNat n ≠ 0 := by
      rw [ne_eq, ← UInt16.toNat_inj, UInt16.toNat_ofNat', Nat.mod_eq_of_lt (by omega)]
      exact Nat.one_le_iff_ne_zero.mp h₁
    have hlast : UInt16.ofNat n = 0xffff ↔ n = 65535 := by
      rw [← UInt16.toNat_inj, UInt16.toNat_ofNat', Nat.mod_eq_of_lt (by omega)]
      exact Iff.rfl
    simp only [portPart, atoi_decimal (Nat.one_le_iff_ne_zero.mp h₁) (by omega), portUsed]
    change Except.ok (host, if UInt16.ofInt n = 0 ∨ UInt16.ofInt n = 0xffff then _ else _) = _
    simp only [hnum, hne, hlast, false_or]

/-- Host, port and path are recovered, if host and port take fewer than 2^31 - 1 bytes; but for
the port 65535, which is taken for a failure of `atoi`. -/
theorem urlparse_parts (heap : CStr) (port : Option UInt16) (path : Option (Option CStr)) :
    (∀ (host : CStr) (n : Option ℕ) (p : Option CStr), 58 ∉ host → 47 ∉ host →
      (∀ k ∈ n, 1 ≤ k ∧ k ≤ 65535) → (host ++ portPart n).length < 2147483647 →
      rtmpUrlparse heap (urlOf host n p) port path =
        .ok (some host, port.map fun _ => portUsed n, pathUsed p path)) ∧
    ∀ url, ¬ RTMP_SCHEME <+: url → rtmpUrlparse heap url port path = .ok (none, port, path) := by
  refine ⟨fun host n p hcolon hslash hn hlen => ?_, fun url hurl => ?_⟩
  · have hauthority : 47 ∉ host ++ portPart n := by
      rw [List.mem_append, not_or]
      refine ⟨hslash, ?_⟩
      cases n with
      | none => exact List.not_mem_nil
      | some k =>
        rw [portPart, List.mem_cons, not_or]
        exact ⟨by decide, fun h => absurd (decimal_digit _ h) (by decide)⟩
    have htail : pathPart p = [] ∨ (pathPart p).head? = some 47 := by
      cases p with
      | none => exact .inl rfl
      | some p => exact .inr rfl
    have hcopy : ((host ++ portPart n) ++ pathPart p).take (host ++ portPart n).length =
        host ++ portPart n := List.take_left' rfl
    rw [urlOf, urlparse_copy hauthority htail (toInt32_of_lt (by omega)) hlen
      (hcopy ▸ splitPort_part hcolon hn)]
    cases p with
    | none => rfl
    | some p => cases p <;> rfl
  · rw [rtmpUrlparse, if_pos hurl]
    rfl

theorem urlparse_parts_port :
    rtmpUrlparse [] (urlOf (cstr "h") (some 80) (some (cstr "a:b"))) (some 0) (some none) =
      .ok (some (cstr "h"), some (portUsed (some 80)), some (some (cstr "a:b"))) :=
  (urlparse_parts [] (some 0) (some none)).1 (cstr "h") (some 80) (some (cstr "a:b")) (by decide)
    (by decide) (by simp) (by simp [cstr, portPart, decimal])

/-- A host of 2^32 bytes is lost, for its length is 0 as an int. -/
theorem urlparse_long {host : CStr} (hslash : 47 ∉ host) (hlen : host.length = 4294967296) :
    rtmpUrlparse [] (urlOf host none none) (some 0) none =
      .ok (some [], some RTMP_DEFAULT_PORT, none) := by
  have hhost : host ++ portPart none = host := List.append_nil _
  have hint : toInt32 (host ++ portPart none).length = (0 : ℕ) := by
    rw [hhost, hlen]
    rfl
  exact urlparse_copy (hhost.symm ▸ hslash) (.inl rfl) hint (by decide) rfl

/-- The port 65535 is not used; and there is a host that is not returned. -/
theorem urlparse_last_port :
    rtmpUrlparse [] (urlOf (cstr "h") (some 65535) none) (some 0) none =
        .ok (some (cstr "h"), some RTMP_DEFAULT_PORT, none) ∧
      rtmpUrlparse [] (urlOf (List.replicate 4294967296 97) none none) (some 0) none =
        .ok (some [], some RTMP_DEFAULT_PORT, none) := by
  constructor
  · have hslash : 47 ∉ cstr "h" ++ portPart (some 65535) := by simp [cstr, portPart, decimal]
    have hlen : (cstr "h" ++ portPart (some 65535)).length = 7 := by simp [cstr, portPart, decimal]
    refine urlparse_copy hslash (.inl rfl) (n := 7) (by rw [hlen]; rfl) (by decide) ?_
    rw [pathPart, List.append_nil, List.take_of_length_le (Nat.le_of_eq hlen)]
    exact splitPort_part (by decide) (by simp)
  · exact urlparse_long (fun h => absurd (List.eq_of_mem_replicate h) (by decide))
      List.length_replicate

end Mayhem
