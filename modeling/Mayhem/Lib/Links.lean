import Mathlib.Algebra.Order.Ring.Nat
import Mayhem.Lib.Memory

/-! Pointers in memory, and lists each member of which begins with the pointer to the next. -/
namespace Memory

/-- The `k` low bytes of a number, the lowest one first. -/
def leBytes : ℕ → ℕ → List UInt8
  | 0, _ => []
  | k + 1, n => n.toUInt8 :: leBytes k (n / 256)

def leValue : List UInt8 → ℕ
  | [] => 0
  | b :: bs => b.toNat + 256 * leValue bs

@[simp] theorem leBytes_length (k n : ℕ) : (leBytes k n).length = k := by
  induction k generalizing n with
  | zero => rfl
  | succ k ih => rw [leBytes, List.length_cons, ih]

theorem leValue_leBytes {k n : ℕ} (h : n < 256 ^ k) : leValue (leBytes k n) = n := by
  induction k generalizing n with
  | zero => exact (Nat.lt_one_iff.mp h).symm
  | succ k ih =>
    have hdiv : n / 256 < 256 ^ k := Nat.div_lt_of_lt_mul (by rwa [pow_succ, mul_comm] at h)
    rw [leBytes, leValue, ih hdiv, Nat.toUInt8, UInt8.toNat_ofNat']
    omega

/-- `*(void **)a`. -/
def loadPtr (m : Memory) (a : ℕ) : ℕ := leValue (m.bytes a 8)

def storePtr (m : Memory) (a p : ℕ) : Memory := m.write a (leBytes 8 p)

variable {m m' : Memory} {a p : ℕ} {l : List ℕ}

theorem loadPtr_congr (h : ∀ i, a ≤ i → i < a + 8 → m i = m' i) : m.loadPtr a = m'.loadPtr a := by
  rw [loadPtr, loadPtr, bytes_congr h]

theorem loadPtr_storePtr (hp : p < 2 ^ 64) : (m.storePtr a p).loadPtr a = p := by
  have hbytes := bytes_write_self m a (leBytes 8 p)
  rw [leBytes_length] at hbytes
  rw [storePtr, loadPtr, hbytes, leValue_leBytes hp]

theorem storePtr_apart {i : ℕ} (h : i < a ∨ a + 8 ≤ i) : m.storePtr a p i = m i :=
  write_outside (by rwa [leBytes_length])

/-- The list that begins at `p` and ends with NULL. -/
inductive Links (m : Memory) : ℕ → List ℕ → Prop
  | nil : Links m 0 []
  | cons {p : ℕ} {l : List ℕ} (hp : p ≠ 0) (h : Links m (m.loadPtr p) l) : Links m p (p :: l)

theorem links_zero (h : Links m 0 l) : l = [] := by
  cases h with
  | nil => rfl
  | cons hp _ => exact absurd rfl hp

theorem links_pop (h : Links m p l) (hp : p ≠ 0) :
    ∃ l', l = p :: l' ∧ Links m (m.loadPtr p) l' := by
  cases h with
  | nil => exact absurd rfl hp
  | cons _ h => exact ⟨_, rfl, h⟩

/-- The head of the list is a member, or NULL. -/
theorem links_head (h : Links m p l) : p = 0 ∨ p ∈ l := by
  cases h with
  | nil => exact .inl rfl
  | cons => exact .inr List.mem_cons_self

/-- Only the first bytes of the members matter. -/
theorem links_congr (h : Links m p l) (heq : ∀ q ∈ l, ∀ i, q ≤ i → i < q + 8 → m i = m' i) :
    Links m' p l := by
  induction h with
  | nil => exact .nil
  | cons hp _ ih =>
    obtain ⟨hhead, htail⟩ := List.forall_mem_cons.mp heq
    refine .cons hp ?_
    rw [← loadPtr_congr hhead]
    exact ih htail

/-- What lies apart from the members can be put in front of them. -/
theorem links_push (h : Links m p l) (ha : a ≠ 0) (hp : p < 2 ^ 64)
    (hapart : ∀ q ∈ l, q + 8 ≤ a ∨ a + 8 ≤ q) : Links (m.storePtr a p) a (a :: l) := by
  refine .cons ha ?_
  rw [loadPtr_storePtr hp]
  refine links_congr h fun q hq i hi hlt => (storePtr_apart ?_).symm
  exact (hapart q hq).imp (fun h => by omega) fun h => by omega

end Memory
