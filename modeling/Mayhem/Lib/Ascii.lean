import Mathlib.Data.List.TakeWhile
import Mathlib.Data.Nat.Digits.Lemmas
import Mathlib.Tactic.IntervalCases

/-! Text as bytes, its lines and words, and numbers to the base 16. -/
namespace Ascii

/-- The lines, each with its line break. -/
def lines : List UInt8 → List (List UInt8)
  | [] => []
  | c :: s =>
    if c = 0x0a then [c] :: lines s
    else
      match lines s with
      | [] => [[c]]
      | l :: ls => (c :: l) :: ls

theorem lines_append {s : List UInt8} (hs : 0x0a ∉ s) (rest : List UInt8) :
    lines (s ++ 0x0a :: rest) = (s ++ [0x0a]) :: lines rest := by
  induction s with
  | nil => rfl
  | cons c s ih =>
    obtain ⟨hc, hs⟩ := List.ne_and_not_mem_of_not_mem_cons hs
    rw [List.cons_append, lines, if_neg hc.symm, ih hs]
    rfl

/-! ### Words -/

def isspace (c : UInt8) : Bool := c = 0x20 ∨ 0x09 ≤ c ∧ c ≤ 0x0d

/-- Up to `n` words and what is left behind them, as `s.split(None, n)` does in Python. -/
def split : ℕ → List UInt8 → List (List UInt8)
  | 0, s => if s.dropWhile isspace = [] then [] else [s.dropWhile isspace]
  | n + 1, s =>
    if s.dropWhile isspace = [] then []
    else (s.dropWhile isspace).takeWhile (!isspace ·) ::
      split n ((s.dropWhile isspace).dropWhile (!isspace ·))

/-- `s.split()`. There are not more words than bytes. -/
def words (s : List UInt8) : List (List UInt8) := split s.length s

structure Word (w : List UInt8) : Prop where
  ne_nil : w ≠ []
  solid : ∀ c ∈ w, isspace c = false

/-- The words, each behind a blank. -/
def column (ws : List (List UInt8)) : List UInt8 := ws.flatMap (0x20 :: ·)

section Words

variable {w s : List UInt8} {ws : List (List UInt8)} {n : ℕ} {c : UInt8}

theorem split_congr {s t : List UInt8} (h : s.dropWhile isspace = t.dropWhile isspace) (n : ℕ) :
    split n s = split n t := by
  cases n <;> rw [split, split, h]

theorem split_space (hc : isspace c) (n : ℕ) (s : List UInt8) : split n (c :: s) = split n s :=
  split_congr (List.dropWhile_cons_of_pos hc) n

theorem word_singleton (hc : isspace c = false) : Word [c] :=
  ⟨List.cons_ne_nil c [], fun d hd => by rwa [List.mem_singleton.mp hd]⟩

theorem Word.dropWhile_append (hw : Word w) (s : List UInt8) :
    (w ++ s).dropWhile isspace = w ++ s := by
  obtain ⟨c, w, rfl⟩ := List.exists_cons_of_ne_nil hw.ne_nil
  exact List.dropWhile_cons_of_neg (by simp [hw.solid c List.mem_cons_self])

theorem split_word (hw : Word w) (hs : ∀ c ∈ s.head?, isspace c) (n : ℕ) :
    split (n + 1) (w ++ s) = w :: split n s := by
  have hsolid : ∀ c ∈ w, (!isspace c) = true := fun c hc => by simp [hw.solid c hc]
  have hstop : s.takeWhile (!isspace ·) = [] ∧ s.dropWhile (!isspace ·) = s := by
    cases s with
    | nil => exact ⟨rfl, rfl⟩
    | cons c s =>
      have hc : ¬ (!isspace c) = true := by simp [hs c rfl]
      exact ⟨List.takeWhile_cons_of_neg hc, List.dropWhile_cons_of_neg hc⟩
  rw [split, hw.dropWhile_append, if_neg (by simp [hw.ne_nil]), List.takeWhile_append_of_pos hsolid,
    List.dropWhile_append_of_pos hsolid, hstop.1, hstop.2, List.append_nil]

theorem column_head (ws : List (List UInt8)) : ∀ c ∈ (column ws).head?, isspace c := by
  intro c hc
  cases ws with
  | nil => cases hc
  | cons w ws =>
    obtain rfl := Option.some.inj hc
    rfl

theorem column_cons (w : List UInt8) (ws : List (List UInt8)) :
    column (w :: ws) = 0x20 :: (w ++ column ws) := by
  rw [column, List.flatMap_cons, List.cons_append, column]

theorem split_column_append (hws : ∀ w ∈ ws, Word w) (hs : ∀ c ∈ s.head?, isspace c) (n : ℕ) :
    split (ws.length + n) (column ws ++ s) = ws ++ split n s := by
  induction ws with
  | nil => rw [List.length_nil, Nat.zero_add, column, List.flatMap_nil, List.nil_append, List.nil_append]
  | cons w ws ih =>
    obtain ⟨hw, hws⟩ := List.forall_mem_cons.mp hws
    have hhead : ∀ c ∈ (column ws ++ s).head?, isspace c := by
      cases ws with
      | nil => exact hs
      | cons w ws => exact column_head (w :: ws)
    rw [column_cons, List.length_cons, Nat.add_right_comm, List.cons_append, split_space rfl,
      List.append_assoc, split_word hw hhead, ih hws, List.cons_append]

theorem split_column (hws : ∀ w ∈ ws, Word w) (hn : ws.length ≤ n) : split n (column ws) = ws := by
  have hsplit := split_column_append hws (s := []) nofun (n - ws.length)
  have hnil : split (n - ws.length) [] = [] := by cases n - ws.length <;> rfl
  rwa [Nat.add_sub_cancel' hn, hnil, List.append_nil, List.append_nil] at hsplit

theorem length_le_column (ws : List (List UInt8)) : ws.length ≤ (column ws).length := by
  induction ws with
  | nil => exact Nat.le_refl 0
  | cons w ws ih =>
    rw [column_cons, List.length_cons, List.length_cons, List.length_append]
    omega

theorem words_column (hws : ∀ w ∈ ws, Word w) : words (column ws) = ws :=
  split_column hws (length_le_column ws)

theorem words_word_column (hw : Word w) (hws : ∀ w ∈ ws, Word w) :
    words (w ++ column ws) = w :: ws := by
  have hpos := List.length_pos_iff.mpr hw.ne_nil
  have hlen := length_le_column ws
  obtain ⟨n, hn⟩ := Nat.exists_eq_add_of_lt (show 0 < (w ++ column ws).length by simp; omega)
  rw [words, hn, Nat.zero_add, split_word hw (column_head ws), split_column hws]
  rw [List.length_append] at hn
  omega

end Words

/-! ### Numbers -/

def hexDigit (d : ℕ) : UInt8 := if d < 10 then UInt8.ofNat (0x30 + d) else UInt8.ofNat (0x57 + d)

def hexValue (c : UInt8) : Option ℕ :=
  if 0x30 ≤ c ∧ c ≤ 0x39 then some (c.toNat - 0x30)
  else if 0x61 ≤ c ∧ c ≤ 0x66 then some (c.toNat - 0x57)
  else if 0x41 ≤ c ∧ c ≤ 0x46 then some (c.toNat - 0x37)
  else none

/-- `%0wx`: in lower case, with zeros in front up to `w` digits. -/
def padHex (w n : ℕ) : List UInt8 :=
  List.replicate (w - (Nat.digits 16 n).length) 0x30 ++ (Nat.digits 16 n).reverse.map hexDigit

/-- The digits after those of `v`. -/
def readHex (v : ℕ) (s : List UInt8) : Option ℕ :=
  s.foldlM (fun v c => (hexValue c).map (16 * v + ·)) v

/-- A number, with or without `0x`. -/
def natural16 (s : List UInt8) : Option ℕ :=
  let s := if s.take 2 = [0x30, 0x78] ∨ s.take 2 = [0x30, 0x58] then s.drop 2 else s
  if s = [] then none else readHex 0 s

/-- A number with or without a sign, as `int(s, 16)` reads a word in Python. -/
def int16 (s : List UInt8) : Option ℤ :=
  if s.head? = some 0x2d then (natural16 s.tail).map fun v => -(v : ℤ)
  else if s.head? = some 0x2b then (natural16 s.tail).map fun v => (v : ℤ)
  else (natural16 s).map fun v => (v : ℤ)

section Numbers

theorem hexValue_hexDigit {d : ℕ} (hd : d < 16) : hexValue (hexDigit d) = some d := by
  interval_cases d <;> rfl

theorem padHex_digit (w n : ℕ) : ∀ c ∈ padHex w n, ∃ d < 16, c = hexDigit d := by
  intro c hc
  rcases List.mem_append.mp hc with hc | hc
  · exact ⟨0, by decide, List.eq_of_mem_replicate hc⟩
  · obtain ⟨d, hd, rfl⟩ := List.mem_map.mp hc
    exact ⟨d, Nat.digits_lt_base (by decide) (List.mem_reverse.mp hd), rfl⟩

theorem padHex_ne_nil {w : ℕ} (hw : 0 < w) (n : ℕ) : padHex w n ≠ [] := by
  apply List.ne_nil_of_length_pos
  rw [padHex, List.length_append, List.length_replicate, List.length_map, List.length_reverse]
  omega

/-- What is written with these digits is a word, and none of them is read as anything else. -/
theorem word_digits {s : List UInt8} (hne : s ≠ []) (hs : ∀ c ∈ s, ∃ d < 16, c = hexDigit d) :
    Word s := by
  refine ⟨hne, fun c hc => ?_⟩
  obtain ⟨d, hd, rfl⟩ := hs c hc
  interval_cases d <;> rfl

theorem int16_digits {s : List UInt8} (hne : s ≠ []) (hs : ∀ c ∈ s, ∃ d < 16, c = hexDigit d) :
    int16 s = (readHex 0 s).map fun v => (v : ℤ) := by
  have hno : ∀ c ∈ s, c ≠ 0x2d ∧ c ≠ 0x2b ∧ c ≠ 0x78 ∧ c ≠ 0x58 := by
    intro c hc
    obtain ⟨d, hd, rfl⟩ := hs c hc
    interval_cases d <;> decide
  have hhead : ∀ c, s.head? = some c → c ∈ s := fun c hc => List.mem_of_mem_head? hc
  have hsecond : ∀ c, s.take 2 = [0x30, c] → c ∈ s := by
    intro c htake
    apply List.mem_of_mem_take (i := 2)
    rw [htake]
    simp
  have hprefix : ¬ (s.take 2 = [0x30, 0x78] ∨ s.take 2 = [0x30, 0x58]) := by
    rintro (htake | htake)
    · exact (hno _ (hsecond _ htake)).2.2.1 rfl
    · exact (hno _ (hsecond _ htake)).2.2.2 rfl
  rw [int16, if_neg fun h => (hno _ (hhead _ h)).1 rfl, if_neg fun h => (hno _ (hhead _ h)).2.1 rfl,
    natural16, if_neg hprefix, if_neg hne]

theorem readHex_digits {ds : List ℕ} (hds : ∀ d ∈ ds, d < 16) (v : ℕ) :
    readHex v (ds.map hexDigit) = some (ds.foldl (fun v d => 16 * v + d) v) := by
  induction ds generalizing v with
  | nil => rfl
  | cons d ds ih =>
    obtain ⟨hd, hds⟩ := List.forall_mem_cons.mp hds
    rw [List.map_cons, List.foldl_cons, ← ih hds, readHex, List.foldlM_cons, hexValue_hexDigit hd]
    rfl

/-- A printed number is read back, whatever zeros it has in front. -/
theorem int16_padHex {w : ℕ} (hw : 0 < w) (n : ℕ) : int16 (padHex w n) = some n := by
  have hzeros : ∀ k, List.replicate k (0x30 : UInt8) = (List.replicate k 0).map hexDigit := by
    intro k
    rw [List.map_replicate]
    rfl
  have hdigits : ∀ d ∈ List.replicate (w - (Nat.digits 16 n).length) 0 ++ (Nat.digits 16 n).reverse,
      d < 16 := by
    intro d hd
    rcases List.mem_append.mp hd with hd | hd
    · exact (List.eq_of_mem_replicate hd).trans_lt (by decide)
    · exact Nat.digits_lt_base (by decide) (List.mem_reverse.mp hd)
  have hskip : ∀ k, (List.replicate k 0).foldl (fun v d => 16 * v + d) 0 = 0 := by
    intro k
    induction k with
    | zero => rfl
    | succ k ih => rw [List.replicate_succ, List.foldl_cons, ih]
  have hvalue := Nat.ofDigits_digits 16 n
  rw [Nat.ofDigits_eq_foldr] at hvalue
  rw [int16_digits (padHex_ne_nil hw n) (padHex_digit w n), padHex, hzeros, ← List.map_append,
    readHex_digits hdigits, List.foldl_append, hskip, List.foldl_reverse]
  simpa [Nat.add_comm] using hvalue

theorem int16_digit {d : ℕ} (hd : d < 16) : int16 [hexDigit d] = some d := by
  interval_cases d <;> rfl

/-- A byte has two digits. -/
theorem padHex_byte (b : UInt8) : padHex 2 b.toNat = [hexDigit (b.toNat / 16), hexDigit (b.toNat % 16)] := by
  have h : ∀ n : Fin 256, padHex 2 n = [hexDigit (n / 16), hexDigit (n % 16)] := by decide +kernel
  exact h ⟨b.toNat, b.toNat_lt⟩

end Numbers

end Ascii
