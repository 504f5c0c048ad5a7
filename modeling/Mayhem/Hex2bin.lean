import Mathlib.Data.List.DropRight
import Mathlib.Data.List.Forall2
import Mayhem.Hexdump

/-! `hex2bin.py`, and what it makes of a dump. -/
namespace Mayhem.Hex2bin

open Ascii

inductive Raised
  | indexError
  | valueError
  /-- Doesn't look like hex dump to me -/
  | notHexDump
deriving DecidableEq, Repr

def item (a : List (List UInt8)) (i : ℕ) : Except Raised (List UInt8) :=
  a[i]?.elim (.error .indexError) .ok

def int (w : List UInt8) : Except Raised ℤ := (int16 w).elim (.error .valueError) .ok

/-- An element of a `bytearray`, 0 to 255. -/
def byte (v : ℤ) : Except Raised UInt8 :=
  if 0 ≤ v ∧ v < 256 then .ok v.toNat.toUInt8 else .error .valueError

/-- All words become numbers before the first one becomes a byte. -/
def bytearray (ws : List (List UInt8)) : Except Raised (List UInt8) := do
  let vs ← ws.mapM int
  vs.mapM byte

/-- `vals` of one line; `a[2]` is looked at only behind a bar. -/
def readLine (width : ℕ) (x : List UInt8) : Except Raised (List UInt8) := do
  let x := x.rdropWhile fun c => c = 0x0d ∨ c = 0x0a
  let a := split 3 x
  if (← item a 0) ≠ [0x7c] then .error .notHexDump
  else if (← item a 2) ≠ [0x3a] then .error .notHexDump
  else
    -- the offset is not used, but it has to be a number
    let _ofs ← int (← item a 1)
    let h := (← item a 3).drop (width + 1)
    bytearray (words h)

/-- One round of the loop in `main`. -/
def addLine (width : ℕ) (b x : List UInt8) : Except Raised (List UInt8) := do
  let vals ← readLine width x
  return b ++ vals

/-- What is written to the output file. -/
def main (inf : List UInt8) : Except Raised (List UInt8) := (lines inf).foldlM (addLine 16) []

/-! ### The columns -/

/-- What is read behind the first `n` bytes of the column with the digits: of a byte that is cut in
two the second digit remains. -/
def shifted : ℕ → List UInt8 → List UInt8
  | _, [] => []
  | 0, l => l
  | 1, l => l
  | 2, b :: l => b % 16 :: l
  | n + 3, _ :: l => shifted n l

theorem shifted_length_le (n : ℕ) (l : List UInt8) : (shifted n l).length ≤ l.length := by
  fun_induction shifted n l with
  | case1 => exact Nat.le_refl _
  | case2 => exact Nat.le_refl _
  | case3 => exact Nat.le_refl _
  | case4 => exact Nat.le_refl _
  | case5 n b l ih => exact Nat.le_succ_of_le ih

theorem mapM_byte (l : List UInt8) : (l.map fun b => (b.toNat : ℤ)).mapM byte = .ok l := by
  induction l with
  | nil => rfl
  | cons b l ih =>
    have hlt := b.toNat_lt
    rw [List.map_cons, List.mapM_cons, ih, byte, if_pos (by omega), Int.toNat_natCast, Nat.toUInt8,
      UInt8.ofNat_toNat]
    rfl

theorem bytearray_ok {ws : List (List UInt8)} {l : List UInt8}
    (h : List.Forall₂ (fun w b => int16 w = some (b.toNat : ℤ)) ws l) : bytearray ws = .ok l := by
  have hint : ws.mapM int = .ok (l.map fun b => (b.toNat : ℤ)) := by
    induction h with
    | nil => rfl
    | cons hw _ ih =>
      rw [List.mapM_cons, int, hw, ih]
      rfl
  rw [bytearray, hint]
  exact mapM_byte l

theorem hexWord (b : UInt8) : Word (padHex 2 b.toNat) :=
  word_digits (padHex_ne_nil (by decide) _) (padHex_digit 2 _)

theorem hexColumn_eq (l : List UInt8) : hexColumn l = column (l.map fun b => padHex 2 b.toNat) :=
  (List.flatMap_map _ _ l).symm

theorem hexColumn_words (l : List UInt8) : ∀ w ∈ l.map (fun b => padHex 2 b.toNat), Word w := by
  intro w hw
  obtain ⟨b, -, rfl⟩ := List.mem_map.mp hw
  exact hexWord b

theorem hexColumn_read (l : List UInt8) : List.Forall₂ (fun w b => int16 w = some (b.toNat : ℤ))
    (l.map fun b => padHex 2 b.toNat) l :=
  List.forall₂_map_left_iff.mpr (List.forall₂_same.mpr fun b _ => int16_padHex (by decide) b.toNat)

theorem bytearray_hexColumn (n : ℕ) (l : List UInt8) :
    bytearray (words ((hexColumn l).drop n)) = .ok (shifted n l) := by
  fun_induction shifted n l with
  | case1 n =>
    rw [hexColumn, List.flatMap_nil, List.drop_nil]
    rfl
  | case2 l =>
    rw [List.drop_zero, hexColumn_eq, words_column (hexColumn_words l)]
    exact bytearray_ok (hexColumn_read l)
  | case3 l =>
    cases l with
    | nil => rfl
    | cons b l =>
      rw [hexColumn_eq, List.map_cons, column_cons, List.drop_one, List.tail_cons,
        words_word_column (hexWord b) (hexColumn_words l)]
      exact bytearray_ok (hexColumn_read (b :: l))
  | case4 b l =>
    have hlow : b.toNat % 16 < 16 := Nat.mod_lt _ (by decide)
    have hword : Word [hexDigit (b.toNat % 16)] := word_digits (by simp) (by simpa using ⟨_, hlow, rfl⟩)
    have hdrop : (hexColumn (b :: l)).drop 2 =
        [hexDigit (b.toNat % 16)] ++ column (l.map fun b => padHex 2 b.toNat) := by
      rw [hexColumn_eq, List.map_cons, column_cons, padHex_byte]
      rfl
    rw [hdrop, words_word_column hword (hexColumn_words l)]
    exact bytearray_ok (.cons (int16_digit hlow) (hexColumn_read l))
  | case5 n b l ih =>
    have hdrop : (hexColumn (b :: l)).drop (n + 3) = (hexColumn l).drop n := by
      rw [hexColumn_eq, hexColumn_eq, List.map_cons, column_cons, padHex_byte]
      rfl
    rw [hdrop, ih]

/-! ### Lines -/

section Lines

variable {w : ℕ} {l : List UInt8}

/-- The blanks that the reader takes off in front of the text. -/
def lead (w : ℕ) (l : List UInt8) : ℕ := ((textColumn w l ++ hexColumn l).takeWhile isspace).length

theorem hexColumn_solid (hne : l ≠ []) (s : List UInt8) :
    (s ++ hexColumn l).dropWhile isspace ≠ [] := by
  rw [Ne, List.dropWhile_eq_nil_iff]
  intro hall
  obtain ⟨b, l, rfl⟩ := List.exists_cons_of_ne_nil hne
  have hmem : hexDigit (b.toNat / 16) ∈ s ++ hexColumn (b :: l) := by
    rw [hexColumn_eq, List.map_cons, column_cons, padHex_byte]
    simp
  have hsolid := (hexWord b).solid (hexDigit (b.toNat / 16)) (by rw [padHex_byte]; simp)
  rw [hall _ hmem] at hsolid
  cases hsolid

theorem split_lineText (hne : l ≠ []) (j : ℕ) : split 3 (lineText w j l) =
    [[0x7c], padHex 5 j, [0x3a], (textColumn w l ++ hexColumn l).dropWhile isspace] := by
  have hcolumn : lineText w j l =
      column [[0x7c], padHex 5 j, [0x3a]] ++ 0x20 :: (textColumn w l ++ hexColumn l) := by
    simp [lineText, column]
  have hwords : ∀ v ∈ [[0x7c], padHex 5 j, [0x3a]], Word v := by
    have hofs : Word (padHex 5 j) := word_digits (padHex_ne_nil (by decide) j) (padHex_digit 5 j)
    simp [hofs, word_singleton (c := 0x7c) rfl, word_singleton (c := 0x3a) rfl]
  have hsplit := split_column_append hwords (s := 0x20 :: (textColumn w l ++ hexColumn l))
    (by simp [isspace]) 0
  rw [← hcolumn, split_space rfl, split, if_neg (hexColumn_solid hne _)] at hsplit
  exact hsplit

/-- The cut behind the text column falls too far right by the blanks that were taken off. -/
theorem drop_text (hlen : l.length ≤ w) :
    ((textColumn w l ++ hexColumn l).dropWhile isspace).drop (w + 1) =
      (hexColumn l).drop (lead w l + 1) := by
  have htake := List.takeWhile_append_dropWhile (p := isspace) (l := textColumn w l ++ hexColumn l)
  have hdrop : (textColumn w l ++ hexColumn l).dropWhile isspace =
      (textColumn w l ++ hexColumn l).drop (lead w l) := by
    conv_rhs => rw [← htake]
    exact (List.drop_left' rfl).symm
  rw [hdrop, List.drop_drop, List.drop_append, textColumn_length hlen,
    List.drop_of_length_le (by rw [textColumn_length hlen]; omega), List.nil_append]
  congr 1
  omega

theorem readLine_lineText (hne : l ≠ []) (hlen : l.length ≤ w) (j : ℕ) :
    readLine w (lineText w j l ++ [0x0a]) = .ok (shifted (lead w l + 1) l) := by
  have hstrip : (lineText w j l ++ [0x0a]).rdropWhile (fun c => c = 0x0d ∨ c = 0x0a) =
      lineText w j l := by
    rw [List.rdropWhile_concat_pos _ _ _ (by decide), List.rdropWhile_eq_self_iff]
    intro hl hbreak
    have hlast := lineText_printed w j l _ (List.getLast_mem hl)
    rcases of_decide_eq_true hbreak with h | h <;> rw [h] at hlast <;> exact absurd hlast (by decide)
  have hofs : int (padHex 5 j) = .ok (j : ℤ) := by
    rw [int, int16_padHex (by decide)]
    rfl
  unfold readLine
  dsimp only
  rw [hstrip, split_lineText hne j]
  change (int (padHex 5 j) >>= fun _ => bytearray (words (((textColumn w l ++ hexColumn l).dropWhile
    isspace).drop (w + 1)))) = _
  rw [hofs, drop_text hlen]
  exact bytearray_hexColumn _ l

theorem lead_eq_zero_iff (hne : l ≠ []) : lead w l = 0 ↔ l.head? ≠ some 0x20 := by
  obtain ⟨b, l, rfl⟩ := List.exists_cons_of_ne_nil hne
  have hblank : isspace (if isprint b then b else 0x2e) = true ↔ b = 0x20 := by
    have h : ∀ n : Fin 256, isspace (if isprint (UInt8.ofNat n) then UInt8.ofNat n else 0x2e) = true ↔
        UInt8.ofNat n = 0x20 := by decide +kernel
    have hb := h ⟨b.toNat, b.toNat_lt⟩
    rwa [UInt8.ofNat_toNat] at hb
  rw [lead, textColumn, List.map_cons, List.cons_append, List.cons_append, List.head?_cons, Ne,
    Option.some_inj, ← hblank]
  by_cases hspace : isspace (if isprint b then b else 0x2e) = true
  · rw [List.takeWhile_cons_of_pos hspace]
    exact iff_of_false (Nat.succ_ne_zero _) (not_not.mpr hspace)
  · rw [List.takeWhile_cons_of_neg hspace]
    exact iff_of_true rfl hspace

/-- A line is read back if the text column does not begin with a blank. -/
theorem shifted_lead_iff (hne : l ≠ []) : shifted (lead w l + 1) l = l ↔ l.head? ≠ some 0x20 := by
  obtain ⟨b, l, rfl⟩ := List.exists_cons_of_ne_nil hne
  rw [← lead_eq_zero_iff (w := w) hne]
  cases hlead : lead w (b :: l) with
  | zero => exact iff_of_true rfl rfl
  | succ k =>
    apply iff_of_false _ (Nat.succ_ne_zero k)
    have hb : b = 0x20 := by
      have hhead := mt (lead_eq_zero_iff (w := w) hne).mpr (by rw [hlead]; exact Nat.succ_ne_zero k)
      exact Option.some_inj.mp (not_not.mp hhead)
    cases k with
    | zero =>
      rw [hb]
      intro h
      exact absurd (List.cons.inj h).1 (by decide)
    | succ k =>
      intro h
      have hlen := congrArg List.length h
      have hle := shifted_length_le k l
      rw [shifted, List.length_cons] at hlen
      omega

end Lines

/-! ### Dumps -/

/-- The bytes that lines of `w` bytes begin with, the first one and the others. -/
theorem heads_iff {w : ℕ} (hw : 0 < w) (tmp : List UInt8) (c : UInt8) :
    (∀ i, tmp[w * i]? ≠ some c) ↔ (tmp.take w).head? ≠ some c ∧ ∀ i, (tmp.drop w)[w * i]? ≠ some c := by
  have hzero : tmp[w * 0]? = (tmp.take w).head? := by
    rw [Nat.mul_zero, List.head?_take, if_neg (Nat.ne_of_gt hw), List.head?_eq_getElem?]
  have hsucc : ∀ i, tmp[w * (i + 1)]? = (tmp.drop w)[w * i]? := by
    intro i
    rw [List.getElem?_drop, Nat.mul_succ, Nat.add_comm]
  rw [← Nat.and_forall_add_one, hzero]
  simp only [hsucc]

/-- Two parts that are not longer than the others make the same list only if they are the same. -/
theorem append_eq_iff {a b a' b' : List UInt8} (ha : a'.length ≤ a.length) (hb : b'.length ≤ b.length) :
    a' ++ b' = a ++ b ↔ a' = a ∧ b' = b := by
  constructor
  · intro h
    have hlen := congrArg List.length h
    rw [List.length_append, List.length_append] at hlen
    exact List.append_inj h (by omega)
  · rintro ⟨rfl, rfl⟩
    rfl

/-- What is read of the lines of a dump, and when it is what was dumped. -/
theorem foldlM_dumpLoop (llen : {n : ℕ // 0 < n}) (j : ℕ) (tmp : List UInt8) :
    ∃ vals : List UInt8, vals.length ≤ tmp.length ∧
      (vals = tmp ↔ ∀ i, tmp[llen.val * i]? ≠ some 0x20) ∧
      ∀ b rest, (lines (dumpLoop llen (j + tmp.length) j tmp ++ rest)).foldlM (addLine llen) b =
        (lines rest).foldlM (addLine llen) (b ++ vals) := by
  induction hn : tmp.length using Nat.strongRecOn generalizing j tmp with
  | ind n ih =>
    subst hn
    by_cases hne : tmp = []
    · subst hne
      refine ⟨[], Nat.le_refl 0, by simp, fun b rest => ?_⟩
      rw [List.length_nil, Nat.add_zero, dumpLoop_nil, List.nil_append, List.append_nil]
    -- the first line, and the lines behind it by induction
    have hpos := List.length_pos_iff.mpr hne
    have hllen := llen.property
    have hsplit := List.take_append_drop llen.val tmp
    have hshort := List.length_take_le llen.val tmp
    have hlen := congrArg List.length hsplit
    rw [List.length_append] at hlen
    have htake : tmp.take llen ≠ [] := by
      rw [← List.length_pos_iff, List.length_take]
      omega
    obtain ⟨vals, hle, hiff, hfold⟩ := ih (tmp.drop llen).length (by rw [List.length_drop]; omega)
      (j + (tmp.take llen).length) (tmp.drop llen) rfl
    have hleLine := shifted_length_le (lead llen (tmp.take llen) + 1) (tmp.take llen)
    refine ⟨shifted (lead llen (tmp.take llen) + 1) (tmp.take llen) ++ vals, ?_, ?_, ?_⟩
    · rw [List.length_append]
      omega
    · rw [heads_iff llen.property, ← hiff, ← shifted_lead_iff (w := llen) htake,
        ← append_eq_iff hleLine hle, hsplit]
    · intro b rest
      have hbreak : 0x0a ∉ lineText llen j (tmp.take llen) := fun h =>
        absurd (lineText_printed _ _ _ _ h) (by decide)
      rw [dumpLoop_line hne, List.append_assoc, List.cons_append, lines_append hbreak, List.foldlM_cons,
        addLine, readLine_lineText htake hshort, ← List.append_assoc, ← hfold]
      rfl

theorem main_lines (b : List UInt8) : main (dumpLoop ⟨16, by decide⟩ b.length 0 b) = .ok b ↔
    ∀ i, b[16 * i]? ≠ some 0x20 := by
  obtain ⟨vals, -, hiff, hfold⟩ := foldlM_dumpLoop ⟨16, by decide⟩ 0 b
  have hmain := hfold [] []
  rw [List.append_nil, Nat.zero_add] at hmain
  rw [main, hmain, ← hiff]
  exact ⟨Except.ok.inj, congrArg Except.ok⟩

theorem main_closed (b : List UInt8) :
    main (dumpLoop ⟨16, by decide⟩ b.length 0 b ++ [0x0a]) = .error .indexError := by
  obtain ⟨vals, -, -, hfold⟩ := foldlM_dumpLoop ⟨16, by decide⟩ 0 b
  have hmain := hfold [] [0x0a]
  rw [Nat.zero_add] at hmain
  rw [main, hmain]
  rfl

/-- The closing line of a dump is empty, and the reader looks for its first word. The lines before
it are read back where none of them begins with a blank. -/
theorem main_hexDumpf {b : List UInt8} (hne : b ≠ []) :
    (hexDumpf (some []) b 16).map main = some (.error .indexError) ∧
    (main (dumpLoop ⟨16, by decide⟩ b.length 0 b) = .ok b ↔ ∀ i, b[16 * i]? ≠ some 0x20) := by
  refine ⟨?_, main_lines b⟩
  have hlen : ¬ b.length = 0 := fun h => hne (List.eq_nil_of_length_eq_zero h)
  unfold hexDumpf
  rw [if_neg (by simp [hlen])]
  exact congrArg some (main_closed b)

theorem main_hexDumpf_letter :
    (hexDumpf (some []) [0x41] 16).map main = some (.error .indexError) ∧
    (main (dumpLoop ⟨16, by decide⟩ 1 0 [0x41]) = .ok [0x41] ↔
      ∀ i, ([0x41] : List UInt8)[16 * i]? ≠ some 0x20) :=
  main_hexDumpf (List.cons_ne_nil 0x41 [])

theorem hexDumpf_lost : ¬ (hexDumpf (some []) [0x41] 16).map main = some (.ok [0x41]) := by
  decide +kernel

end Mayhem.Hex2bin
