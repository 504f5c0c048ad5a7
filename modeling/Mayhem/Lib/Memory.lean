import Mathlib.Data.Nat.Bitwise
import Mathlib.Data.Nat.Notation

/-! Byte memory seen from a base address, and big- and little-endian words in it.
A memory is total: the bytes past a block are whatever lies there. -/

abbrev Memory := ℕ → UInt8

namespace Memory

/-- The `n` bytes from offset `p` on. -/
def bytes (m : Memory) (p : ℕ) : ℕ → List UInt8
  | 0 => []
  | n + 1 => m p :: bytes m (p + 1) n

/-- Store the list `bs` at offset `p`. -/
def write (m : Memory) (p : ℕ) (bs : List UInt8) : Memory :=
  fun i => if p ≤ i then (bs[i - p]?).getD (m i) else m i

/-- A block that holds `bs`, followed by the bytes of `after`. -/
def ofList (bs : List UInt8) (after : Memory) : Memory := write after 0 bs

@[simp] theorem bytes_length (m : Memory) (p n : ℕ) : (m.bytes p n).length = n := by
  induction n generalizing p with
  | zero => rfl
  | succ n ih => simp [bytes, ih]

theorem bytes_add (m : Memory) (p a b : ℕ) :
    m.bytes p (a + b) = m.bytes p a ++ m.bytes (p + a) b := by
  induction a generalizing p with
  | zero => simp [bytes]
  | succ a ih =>
    rw [show a + 1 + b = (a + b) + 1 by omega, show p + (a + 1) = p + 1 + a by omega]
    simp only [bytes, ih, List.cons_append]

theorem bytes_congr {m m' : Memory} {p n : ℕ} (h : ∀ i, p ≤ i → i < p + n → m i = m' i) :
    m.bytes p n = m'.bytes p n := by
  induction n generalizing p with
  | zero => rfl
  | succ n ih =>
    simp only [bytes, List.cons.injEq]
    exact ⟨h p le_rfl (by omega), ih fun i hi hn => h i (by omega) (by omega)⟩

theorem getElem?_bytes (m : Memory) (p n i : ℕ) (h : i < n) :
    (m.bytes p n)[i]? = some (m (p + i)) := by
  induction n generalizing p i with
  | zero => omega
  | succ n ih =>
    cases i with
    | zero => simp [bytes]
    | succ i =>
      rw [bytes, List.getElem?_cons_succ, ih (p + 1) i (by omega)]
      congr 2
      omega

/-- Equal blocks are equal byte by byte. -/
theorem bytes_inj {m m' : Memory} {p n : ℕ} :
    m.bytes p n = m'.bytes p n ↔ ∀ i, p ≤ i → i < p + n → m i = m' i := by
  refine ⟨fun h i hi hn => ?_, bytes_congr⟩
  have hget := congrArg (fun l => l[i - p]?) h
  simp only [getElem?_bytes _ _ _ _ (show i - p < n by omega), Option.some.injEq] at hget
  rwa [Nat.add_sub_cancel' hi] at hget

/-- A block whose contents are known determines each of its bytes. -/
theorem eq_of_bytes {m : Memory} {p n : ℕ} {bs : List UInt8} (h : m.bytes p n = bs)
    {i : ℕ} (hi : i < n) : some (m (p + i)) = bs[i]? := by
  rw [← h, getElem?_bytes m p n i hi]

theorem bytes_append_iff (m : Memory) (p : ℕ) (a b : List UInt8) :
    m.bytes p (a ++ b).length = a ++ b ↔
      m.bytes p a.length = a ∧ m.bytes (p + a.length) b.length = b := by
  rw [List.length_append, bytes_add]
  exact ⟨fun h => List.append_inj h (by simp), fun h => by rw [h.1, h.2]⟩

theorem bytes_take (m : Memory) (p n k : ℕ) : (m.bytes p n).take k = m.bytes p (min k n) := by
  rcases le_total k n with h | h
  · obtain ⟨d, rfl⟩ := Nat.exists_eq_add_of_le h
    rw [bytes_add, List.take_left' (by simp), Nat.min_eq_left h]
  · rw [List.take_of_length_le (by simpa using h), Nat.min_eq_right h]

theorem bytes_drop (m : Memory) (p n k : ℕ) : (m.bytes p n).drop k = m.bytes (p + k) (n - k) := by
  rcases le_total k n with h | h
  · obtain ⟨d, rfl⟩ := Nat.exists_eq_add_of_le h
    rw [bytes_add, List.drop_left' (by simp)]
    congr 1
    omega
  · rw [List.drop_of_length_le (by simpa using h), Nat.sub_eq_zero_of_le h]
    rfl

theorem bytes_shift (m : Memory) (k p n : ℕ) :
    bytes (fun i => m (k + i)) p n = m.bytes (k + p) n := by
  induction n generalizing p with
  | zero => rfl
  | succ n ih => simp only [bytes, ih, Nat.add_assoc]

/-! ### Stores -/

theorem write_before (m : Memory) (p : ℕ) (bs : List UInt8) {i : ℕ} (h : i < p) :
    m.write p bs i = m i := by
  simp [write, Nat.not_le.mpr h]

theorem write_after (m : Memory) (p : ℕ) (bs : List UInt8) {i : ℕ} (h : p + bs.length ≤ i) :
    m.write p bs i = m i := by
  have hn : bs.length ≤ i - p := by omega
  simp [write, List.getElem?_eq_none hn]

theorem write_outside {m : Memory} {p i : ℕ} {bs : List UInt8} (h : i < p ∨ p + bs.length ≤ i) :
    m.write p bs i = m i :=
  h.elim (write_before m p bs) (write_after m p bs)

@[simp] theorem write_nil (m : Memory) (p : ℕ) : m.write p [] = m := by
  funext i
  simp [write]

@[simp] theorem bytes_write_self (m : Memory) (p : ℕ) (bs : List UInt8) :
    (m.write p bs).bytes p bs.length = bs := by
  apply List.ext_getElem?
  intro i
  by_cases hi : i < bs.length
  · rw [getElem?_bytes _ _ _ _ hi]
    simp [write, List.getElem?_eq_getElem hi]
  · rw [List.getElem?_eq_none (by simpa using hi), List.getElem?_eq_none (by simpa using hi)]

theorem bytes_write_before (m : Memory) (p : ℕ) (bs : List UInt8) {q n : ℕ} (h : q + n ≤ p) :
    (m.write p bs).bytes q n = m.bytes q n :=
  bytes_congr fun _ _ hi => write_before m p bs (by omega)

theorem bytes_write_after (m : Memory) (p : ℕ) (bs : List UInt8) {q n : ℕ}
    (h : p + bs.length ≤ q) : (m.write p bs).bytes q n = m.bytes q n :=
  bytes_congr fun _ hi _ => write_after m p bs (by omega)

/-- Storing right behind a block extends it. -/
theorem bytes_write_append (m : Memory) (p n : ℕ) (bs : List UInt8) :
    (m.write (p + n) bs).bytes p (n + bs.length) = m.bytes p n ++ bs := by
  rw [bytes_add, bytes_write_before _ _ _ le_rfl, bytes_write_self]

@[simp] theorem bytes_ofList (bs : List UInt8) (after : Memory) :
    (ofList bs after).bytes 0 bs.length = bs := bytes_write_self after 0 bs

/-- The first bytes of a block that holds `a ++ b`. -/
theorem bytes_ofList_append (a b : List UInt8) (after : Memory) :
    (ofList (a ++ b) after).bytes 0 a.length = a :=
  ((bytes_append_iff _ 0 a b).mp (bytes_ofList (a ++ b) after)).1

end Memory
