import Mathlib.Tactic.SplitIfs
import Mayhem.Lib.Ascii

/-! `hexdump.c`. No buffer takes more than half of the addresses, so `j + llen` does not wrap. -/
namespace Mayhem

open Ascii

/-- `isprint` of the C locale. -/
def isprint (c : UInt8) : Bool := 0x20 ≤ c ∧ c ≤ 0x7e

/-- The bytes of a line as text, and blanks up to `llen`. -/
def textColumn (llen : ℕ) (tmp : List UInt8) : List UInt8 :=
  tmp.map (fun c => if isprint c then c else 0x2e) ++ List.replicate (llen - tmp.length) 0x20

def hexColumn (tmp : List UInt8) : List UInt8 := tmp.flatMap fun c => 0x20 :: padHex 2 c.toNat

/-- `" | %05zx : "` and both columns. -/
def lineText (llen j : ℕ) (tmp : List UInt8) : List UInt8 :=
  [0x20, 0x7c, 0x20] ++ padHex 5 j ++ [0x20, 0x3a, 0x20] ++ textColumn llen tmp ++ hexColumn tmp

/-- The loop over the lines. -/
def dumpLoop (llen : {n : ℕ // 0 < n}) (len j : ℕ) (tmp : List UInt8) : List UInt8 :=
  if j < len then
    let line := if j + llen > len then len - j else llen.val
    lineText llen j (tmp.take line) ++ 0x0a :: dumpLoop llen len (j + line) (tmp.drop line)
  else []
termination_by len - j
decreasing_by
  have := llen.property
  split_ifs <;> omega

/-- What is in the file afterwards, if it is not NULL. -/
def hexDumpf (f : Option (List UInt8)) (tmp : List UInt8) (llen : ℕ) : Option (List UInt8) :=
  let llen : {n : ℕ // 0 < n} := if h : llen = 0 then ⟨16, by decide⟩ else ⟨llen, Nat.pos_of_ne_zero h⟩
  if f = none ∨ tmp.length = 0 then f
  else f.map (· ++ (dumpLoop llen tmp.length 0 tmp ++ [0x0a]))

variable {llen : {n : ℕ // 0 < n}} {j : ℕ} {tmp : List UInt8}

theorem dumpLoop_nil : dumpLoop llen j j [] = [] := by rw [dumpLoop, if_neg (Nat.lt_irrefl j)]

theorem dumpLoop_line (hne : tmp ≠ []) : dumpLoop llen (j + tmp.length) j tmp =
    lineText llen j (tmp.take llen) ++ 0x0a ::
      dumpLoop llen (j + (tmp.take llen).length + (tmp.drop llen).length)
        (j + (tmp.take llen).length) (tmp.drop llen) := by
  have hpos := List.length_pos_iff.mpr hne
  have hline : (if j + llen > j + tmp.length then j + tmp.length - j else llen.val) =
      (tmp.take llen).length := by
    rw [List.length_take]
    split_ifs <;> omega
  have hlen : j + tmp.length = j + (tmp.take llen).length + (tmp.drop llen).length := by
    rw [Nat.add_assoc, ← List.length_append, List.take_append_drop]
  have htake : tmp.take (tmp.take llen).length = tmp.take llen :=
    (List.prefix_iff_eq_take.mp (List.take_prefix _ _)).symm
  have hdrop : tmp.drop (tmp.take llen).length = tmp.drop llen := by
    rw [List.length_take]
    rcases Nat.le_total llen tmp.length with hle | hle
    · rw [Nat.min_eq_left hle]
    · rw [Nat.min_eq_right hle, List.drop_length, List.drop_of_length_le hle]
  rw [dumpLoop, if_pos (by omega)]
  dsimp only
  rw [hline, htake, hdrop, hlen]

theorem textColumn_length {w : ℕ} (h : tmp.length ≤ w) : (textColumn w tmp).length = w := by
  rw [textColumn, List.length_append, List.length_map, List.length_replicate, Nat.add_sub_cancel' h]

theorem isprint_iff (c : UInt8) : isprint c = true ↔ 0x20 ≤ c ∧ c ≤ 0x7e := by simp [isprint]

theorem padHex_printed (w n : ℕ) : ∀ c ∈ padHex w n, 0x20 ≤ c := by
  intro c hc
  obtain ⟨d, hd, rfl⟩ := padHex_digit w n c hc
  interval_cases d <;> decide

/-- There are no line breaks inside a line. -/
theorem lineText_printed (w j : ℕ) (tmp : List UInt8) : ∀ c ∈ lineText w j tmp, 0x20 ≤ c := by
  intro c hc
  simp only [lineText, textColumn, hexColumn, List.mem_append, List.mem_map, List.mem_flatMap,
    List.mem_replicate] at hc
  obtain (((hc | hc) | hc) | (⟨b, -, rfl⟩ | ⟨-, rfl⟩)) | ⟨b, -, hc⟩ := hc
  · simp only [List.mem_cons, List.not_mem_nil, or_false] at hc
    rcases hc with rfl | rfl | rfl <;> decide
  · exact padHex_printed 5 j c hc
  · simp only [List.mem_cons, List.not_mem_nil, or_false] at hc
    rcases hc with rfl | rfl | rfl <;> decide
  · split_ifs with hb
    · exact ((isprint_iff b).mp hb).1
    · decide
  · decide
  · rcases List.mem_cons.mp hc with rfl | hc
    · decide
    · exact padHex_printed 2 _ c hc

end Mayhem
