import Mathlib.Data.Int.Notation
import Mathlib.Data.Nat.Notation

/-! Numbers that are converted to an `int` of 32 bits. -/
namespace Mayhem

/-- `(int)n`. -/
def toInt32 (n : ℕ) : ℤ :=
  if n % 0x100000000 < 0x80000000 then ↑(n % 0x100000000) else ↑(n % 0x100000000) - 0x100000000

theorem toInt32_of_lt {n : ℕ} (h : n < 0x80000000) : toInt32 n = n := by
  unfold toInt32
  split <;> omega

/-- Where the sign bit is set. -/
theorem toInt32_neg {n : ℕ} (hlo : 0x80000000 ≤ n) (hhi : n < 0x100000000) : toInt32 n < 0 := by
  unfold toInt32
  split <;> omega

theorem toInt32_bounds (n : ℕ) :
    toInt32 n < 0x80000000 ∧ -0x80000000 ≤ toInt32 n ∧ toInt32 n ≤ n := by
  unfold toInt32
  split <;> omega

/-- A number that an `int` can hold. -/
theorem toInt32_emod {n : ℤ} (hlow : -0x80000000 ≤ n) (hhigh : n < 0x80000000) :
    toInt32 (n % 0x100000000).toNat = n := by
  unfold toInt32
  split <;> omega

end Mayhem
