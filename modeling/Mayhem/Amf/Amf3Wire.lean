import Mathlib.Data.List.TakeWhile
import Mayhem.Amf.Amf3Bounds

/-! Numbers and texts of AMF3 on the wire, and what the parser makes of them. -/
namespace Mayhem.Amf3

open Logged

/-- A byte with seven bits of a number, and more to come. -/
def moreByte (n : ℕ) : UInt8 := UInt8.ofNat (n % 128 + 128)

/-- U29: seven bits a byte, the high ones first, and eight bits in a fourth byte. -/
def encodeU29 (n : ℕ) : List UInt8 :=
  if n < 0x80 then [UInt8.ofNat n]
  else if n < 0x4000 then [moreByte (n / 0x80), UInt8.ofNat (n % 0x80)]
  else if n < 0x200000 then [moreByte (n / 0x4000), moreByte (n / 0x80), UInt8.ofNat (n % 0x80)]
  else [moreByte (n / 0x400000), moreByte (n / 0x8000), moreByte (n / 0x100), UInt8.ofNat (n % 0x100)]

/-- The text itself, no reference. -/
def encodeText (str : CStr) : List UInt8 := encodeU29 (2 * str.length + 1) ++ str

/-- The bytes lie in memory at `p`. -/
def Holds (m : ℤ → UInt8) (p : ℤ) : List UInt8 → Prop
  | [] => True
  | b :: bs => m p = b ∧ Holds m (p + 1) bs

/-- The pattern of a number has its leading bit in the exponent and the others in the mantissa. -/
theorem doubleOfNat_exact {n : ℕ} (hpos : 0 < n) (hn : n < 2 ^ 53) :
    ∃ exp mant, (doubleOfNat n).toNat = (1023 + exp) * 2 ^ 52 + mant ∧ mant < 2 ^ 52 ∧
      exp ≤ 52 ∧ (2 ^ 52 + mant) * 2 ^ exp = n * 2 ^ 52 := by
  have hlow : 2 ^ n.log2 ≤ n := Nat.log2_self_le (Nat.ne_of_gt hpos)
  have hhigh : n < 2 ^ (n.log2 + 1) := Nat.lt_log2_self
  have hexp : n.log2 ≤ 52 := by
    by_contra h
    have hge : 2 ^ 53 ≤ 2 ^ n.log2 := Nat.pow_le_pow_right (by decide) (by omega)
    omega
  have hsplit : 2 ^ n.log2 * 2 ^ (52 - n.log2) = 2 ^ 52 := by
    rw [← Nat.pow_add]
    congr 1
    omega
  have hscaled : 2 ^ 52 ≤ n * 2 ^ (52 - n.log2) := by
    rw [← hsplit]
    exact Nat.mul_le_mul_right _ hlow
  have hbelow : n * 2 ^ (52 - n.log2) < 2 * 2 ^ 52 := by
    rw [← hsplit, ← Nat.mul_assoc, ← Nat.pow_succ']
    exact Nat.mul_lt_mul_of_pos_right hhigh (Nat.two_pow_pos _)
  refine ⟨n.log2, n * 2 ^ (52 - n.log2) - 2 ^ 52, ?_, by omega, hexp, ?_⟩
  · rw [doubleOfNat, if_neg (Nat.ne_of_gt hpos), UInt64.toNat_ofNat']
    apply Nat.mod_eq_of_lt
    omega
  · rw [Nat.add_sub_cancel' hscaled, Nat.mul_assoc, Nat.mul_comm (2 ^ (52 - n.log2)), hsplit]
section Memory

variable {m : ℤ → UInt8} {fin p : ℤ}

theorem holds_append {a b : List UInt8} :
    Holds m p (a ++ b) ↔ Holds m p a ∧ Holds m (p + a.length) b := by
  induction a generalizing p with
  | nil => simp [Holds]
  | cons c a ih =>
    have hp : p + 1 + a.length = p + (c :: a).length := by
      rw [List.length_cons]
      omega
    rw [List.cons_append, Holds, ih, Holds, hp, and_assoc]

theorem readBytes_holds {bs : List UInt8} (h : Holds m p bs) :
    (readBytes m p bs.length).out = bs := by
  induction bs generalizing p with
  | nil => rfl
  | cons b bs ih =>
    rw [List.length_cons, readBytes, bind_out, bind_out, ih h.2, ← h.1]
    rfl

theorem holds_bytesOf (bs : List UInt8) : Holds (bytesOf bs) 0 bs := by
  suffices h : ∀ a b : List UInt8, Holds (bytesOf (a ++ b)) a.length b from h [] bs
  intro a b
  induction b generalizing a with
  | nil => trivial
  | cons c b ih =>
    constructor
    · rw [bytesOf, if_neg (by omega)]
      simp
    · have hrest := ih (a ++ [c])
      rw [List.append_assoc, List.length_append] at hrest
      exact hrest

/-! ### Numbers -/

theorem highBit (b : UInt8) : b &&& 0x80 ≠ 0 ↔ 128 ≤ b.toNat := by
  have h : ∀ n : Fin 256, UInt8.ofNat n &&& 0x80 ≠ 0 ↔ 128 ≤ n.val := by decide +kernel
  have hb := h ⟨b.toNat, b.toNat_lt⟩
  rwa [UInt8.ofNat_toNat] at hb

theorem lowBits (b : UInt8) : (b &&& 0x7f).toNat = b.toNat % 128 := by
  rw [UInt8.toNat_and]
  exact Nat.and_two_pow_sub_one_eq_mod b.toNat 7

theorem moreByte_toNat (n : ℕ) : (moreByte n).toNat = n % 128 + 128 := by
  rw [moreByte, UInt8.toNat_ofNat']
  omega

/-- One round of the loop over the bytes of a number. -/
theorem integerLoop_more (i val : ℕ) {n : ℕ} (hp : p < fin) (hm : m p = moreByte n) :
    (integerLoop m fin (i + 1) p val).out =
      (integerLoop m fin i (p + 1) (val * 128 + n % 128)).out := by
  have hbyte : (readByte m p).out = moreByte n := hm
  have hbit : moreByte n &&& 0x80 ≠ 0 := by
    rw [highBit, moreByte_toNat]
    omega
  have hval : val <<< 7 ||| (moreByte n &&& 0x7f).toNat = val * 128 + n % 128 := by
    rw [lowBits, moreByte_toNat, ← Nat.shiftLeft_add_eq_or_of_lt (by omega), Nat.shiftLeft_eq]
    omega
  rw [integerLoop, if_neg (Int.not_le.mpr hp), bind_out, hbyte, if_pos hbit, hval]

theorem integerLoop_last (i val : ℕ) {n : ℕ} (hp : p < fin) (hm : m p = UInt8.ofNat n) (hn : n < 128) :
    (integerLoop m fin (i + 1) p val).out = some (7, p, val) := by
  have hbyte : (readByte m p).out = UInt8.ofNat n := hm
  have hbit : ¬ UInt8.ofNat n &&& 0x80 ≠ 0 := by
    rw [highBit, UInt8.toNat_ofNat']
    omega
  rw [integerLoop, if_neg (Int.not_le.mpr hp), bind_out, hbyte, if_neg hbit]
  rfl

theorem amf3Integer_of_loop {shift val n : ℕ} {ptr : ℤ}
    (h : (integerLoop m fin 3 p 0).out = some (shift, ptr, val)) (hptr : ptr < fin)
    (hm : m ptr = UInt8.ofNat n) (hn : n < 2 ^ shift) (hn' : n < 256) :
    (amf3Integer m fin p).out = (ptr + 1 - p, val * 2 ^ shift + n) := by
  have hbyte : (readByte m ptr).out = UInt8.ofNat n := hm
  have hval : val <<< shift ||| (UInt8.ofNat n).toNat = val * 2 ^ shift + n := by
    rw [UInt8.toNat_ofNat', Nat.mod_eq_of_lt hn', ← Nat.shiftLeft_add_eq_or_of_lt hn, Nat.shiftLeft_eq]
  rw [amf3Integer, bind_out, h]
  dsimp only
  rw [if_neg (Int.not_le.mpr hptr), bind_out, hbyte, hval]
  rfl

theorem amf3Integer_encode {n : ℕ} (hn : n < 2 ^ 29) (h : Holds m p (encodeU29 n))
    (hfin : p + (encodeU29 n).length ≤ fin) :
    (amf3Integer m fin p).out = (((encodeU29 n).length : ℤ), n) := by
  rw [encodeU29] at h hfin ⊢
  split_ifs at h hfin ⊢ with h1 h2 h3
  · obtain ⟨hm, -⟩ := h
    simp only [List.length_cons, List.length_nil] at hfin ⊢
    have hloop := integerLoop_last 2 0 (show p < fin by omega) hm h1
    rw [amf3Integer_of_loop hloop (by omega) hm h1 (by omega)]
    exact Prod.ext (by dsimp only; omega) (by dsimp only; omega)
  · obtain ⟨hm0, hm1, -⟩ := h
    simp only [List.length_cons, List.length_nil] at hfin ⊢
    have hlast : n % 0x80 < 128 := Nat.mod_lt n (by decide)
    have hloop := integerLoop_more 2 0 (show p < fin by omega) hm0
    rw [integerLoop_last _ _ (by omega) hm1 hlast] at hloop
    rw [amf3Integer_of_loop hloop (by omega) hm1 hlast (by omega)]
    exact Prod.ext (by dsimp only; omega) (by dsimp only; omega)
  · obtain ⟨hm0, hm1, hm2, -⟩ := h
    simp only [List.length_cons, List.length_nil] at hfin ⊢
    have hlast : n % 0x80 < 128 := Nat.mod_lt n (by decide)
    have hloop := integerLoop_more 2 0 (show p < fin by omega) hm0
    rw [integerLoop_more _ _ (by omega) hm1, integerLoop_last _ _ (by omega) hm2 hlast] at hloop
    rw [amf3Integer_of_loop hloop (by omega) hm2 hlast (by omega)]
    exact Prod.ext (by dsimp only; omega) (by dsimp only; omega)
  · obtain ⟨hm0, hm1, hm2, hm3, -⟩ := h
    simp only [List.length_cons, List.length_nil] at hfin ⊢
    have hlast : n % 0x100 < 256 := Nat.mod_lt n (by decide)
    have hloop := integerLoop_more 2 0 (show p < fin by omega) hm0
    rw [integerLoop_more _ _ (by omega) hm1, integerLoop_more _ _ (by omega) hm2,
      integerLoop] at hloop
    rw [amf3Integer_of_loop hloop (by omega) hm3 hlast hlast]
    exact Prod.ext (by dsimp only; omega) (by dsimp only; omega)

theorem encodeU29_length_pos (n : ℕ) : 0 < (encodeU29 n).length := by
  rw [encodeU29]
  split_ifs <;> simp

/-! ### Texts -/

theorem encodeText_length (str : CStr) :
    (encodeText str).length = (encodeU29 (2 * str.length + 1)).length + str.length := by
  rw [encodeText, List.length_append]

theorem encodeText_length_pos (str : CStr) : 0 < (encodeText str).length := by
  rw [encodeText_length]
  exact Nat.add_pos_left (encodeU29_length_pos _) _

theorem amf3String_encode {str : CStr} (hlen : str.length < 2 ^ 28) (h : Holds m p (encodeText str))
    (hfin : p + (encodeText str).length ≤ fin) :
    (amf3String m fin p).out = ⟨(encodeText str).length,
      some (p + (encodeU29 (2 * str.length + 1)).length), str.length⟩ := by
  rw [encodeText_length] at hfin ⊢
  have hpos := encodeU29_length_pos (2 * str.length + 1)
  have hint := amf3Integer_encode (by omega) (holds_append.mp h).1
    (show p + (encodeU29 (2 * str.length + 1)).length ≤ fin by omega)
  have hbit : (2 * str.length + 1) &&& 1 ≠ 0 := by
    rw [Nat.and_one_is_mod]
    omega
  have hhalf : (2 * str.length + 1) >>> 1 = str.length := by
    rw [Nat.shiftRight_eq_div_pow]
    omega
  rw [amf3String, bind_out, hint]
  dsimp only
  rw [if_neg (by omega), if_neg hbit, hhalf, if_neg (by omega)]
  rw [pure_out, Text.mk.injEq]
  exact ⟨by omega, rfl, rfl⟩

theorem readText_encode {str : CStr} (hlen : str.length < 2 ^ 28) (h : Holds m p (encodeText str))
    (hfin : p + (encodeText str).length ≤ fin) :
    (readText m (amf3String m fin p).out).out = str := by
  rw [amf3String_encode hlen h hfin]
  exact readBytes_holds (holds_append.mp h).2

/-- A byte without the high bit is a number, and an even one a reference. -/
theorem amf3String_reference {n : ℕ} (hm : m p = UInt8.ofNat n) (hn : n < 128) (heven : n % 2 = 0)
    (hp : p < fin) : (amf3String m fin p).out = ⟨1, none, 0⟩ := by
  have hint := amf3Integer_of_loop (integerLoop_last 2 0 hp hm hn) hp hm hn (by omega)
  have hlen : p + 1 - p = 1 := by omega
  have hbit : n &&& 1 = 0 := by
    rw [Nat.and_one_is_mod]
    exact heven
  rw [amf3String, bind_out, hint, hlen, Nat.zero_mul, Nat.zero_add]
  dsimp only
  rw [if_neg (show (1 : ℤ) ≠ 0 by decide), if_pos hbit]
  rfl

/-! ### Properties -/

/-- A name that a property can have. -/
structure NameOk (name : CStr) : Prop where
  ne_nil : name ≠ []
  noNul : ∀ c ∈ name, c ≠ 0
  short : name.length < 2 ^ 28

/-- A property with its name in memory, if the switch gives it a value. -/
theorem amf3Prop_named {name : CStr} (hname : NameOk name) (hp : 0 ≤ p)
    (h : Holds m p (encodeText name)) (hin : p + (encodeText name).length < fin) (ret : ℤ) (a : Amf)
    (hv : (propValue m fin p (p + (encodeText name).length + 1) (encodeText name).length
      (kind (m (p + (encodeText name).length)))).out = (ret, some a)) :
    (amf3Prop m fin p).out = ⟨(encodeText name).length + 1 + ret, some (name, a)⟩ := by
  have hstr := amf3String_encode hname.short h (show p + (encodeText name).length ≤ fin by omega)
  have htext := readText_encode hname.short h (show p + (encodeText name).length ≤ fin by omega)
  have hpos := List.length_pos_iff.mpr hname.ne_nil
  have hnamed : Named m fin p := by
    rw [Named, hstr]
    exact ⟨by dsimp only; omega, hin⟩
  have hval : (value m fin p).out = (ret, some a) := by
    rw [value, hstr]
    exact hv
  have hnul : name.takeWhile (· ≠ 0) = name :=
    List.takeWhile_eq_self_iff.mpr fun c hc => by simpa using hname.noNul c hc
  obtain ⟨hout, -⟩ := (amf3Prop_value hp hnamed).2 a _ (by rw [hval]) rfl
  rw [hout, htext, hnul, hstr, hval]
  congr 1
  dsimp only
  omega

theorem amf3Prop_integer {name : CStr} (hname : NameOk name) {n : ℕ} (hn : n < 2 ^ 28) (hp : 0 ≤ p)
    (h : Holds m p (encodeText name ++ AMF3_INTEGER :: encodeU29 n))
    (hfin : p + (encodeText name ++ AMF3_INTEGER :: encodeU29 n).length ≤ fin) :
    (amf3Prop m fin p).out = ⟨(encodeText name ++ AMF3_INTEGER :: encodeU29 n).length,
      some (name, .number (doubleOfNat n))⟩ := by
  obtain ⟨htext, htype, hint⟩ := holds_append.mp h
  simp only [List.length_append, List.length_cons] at hfin ⊢
  have hpos := encodeU29_length_pos n
  have hval := amf3Integer_encode (by omega) hint
    (show p + (encodeText name).length + 1 + (encodeU29 n).length ≤ fin by omega)
  rw [amf3Prop_named hname hp htext (by omega) (encodeU29 n).length (.number (doubleOfNat n))]
  · congr 1
    omega
  · rw [htype, show kind AMF3_INTEGER = .integer from rfl, propValue, bind_out, hval]
    dsimp only
    rw [if_neg (by omega)]
    rfl

/-- The length of the name is added once more. -/
theorem amf3Prop_plain {name : CStr} (hname : NameOk name) (hp : 0 ≤ p) {type : UInt8} {a : Amf}
    (hkind : kind type = .plain a) (h : Holds m p (encodeText name ++ [type]))
    (hfin : p + (encodeText name ++ [type]).length ≤ fin) :
    (amf3Prop m fin p).out = ⟨2 * (encodeText name).length + 1, some (name, a)⟩ := by
  obtain ⟨htext, htype, -⟩ := holds_append.mp h
  simp only [List.length_append, List.length_cons, List.length_nil] at hfin
  rw [amf3Prop_named hname hp htext (by omega) (encodeText name).length a]
  · congr 1
    omega
  · rw [htype, hkind]
    rfl

/-- The name is taken for the string. -/
theorem amf3Prop_text {name : CStr} (hname : NameOk name) (hp : 0 ≤ p) {type : UInt8}
    (hkind : kind type = .string) (h : Holds m p (encodeText name ++ [type]))
    (hfin : p + (encodeText name ++ [type]).length ≤ fin) :
    (amf3Prop m fin p).out =
      ⟨2 * (encodeText name).length + 1, some (name, .string (some (name ++ [0x0a])))⟩ := by
  obtain ⟨htext, htype, -⟩ := holds_append.mp h
  simp only [List.length_append, List.length_cons, List.length_nil] at hfin
  have hstr := amf3String_encode hname.short htext (show p + (encodeText name).length ≤ fin by omega)
  have hread := readText_encode hname.short htext (show p + (encodeText name).length ≤ fin by omega)
  have hpos := encodeText_length_pos name
  have hnul : name.takeWhile (· ≠ 0) = name :=
    List.takeWhile_eq_self_iff.mpr fun c hc => by simpa using hname.noNul c hc
  rw [amf3Prop_named hname hp htext (by omega) (encodeText name).length
    (.string (some (name ++ [0x0a])))]
  · congr 1
    omega
  · rw [htype, hkind, propValue, bind_out, if_neg (by rw [hstr]; dsimp only; omega), bind_out, hread,
      hnul, hstr]
    rfl

theorem amf3Prop_end (hstr : (amf3String m fin p).out.len ≠ 0)
    (hslen : (amf3String m fin p).out.slen = 0) :
    (amf3Prop m fin p).out = ⟨(amf3String m fin p).out.len, none⟩ := by
  rw [amf3Prop, bind_out, if_neg hstr, if_pos hslen]
  rfl

theorem kind_plain {type : UInt8} {s : Option CStr} : kind type ≠ .plain (.string s) := by
  rw [kind]
  split_ifs <;> nofun

/-- Whatever the bytes are, a string is the name with a line break. -/
theorem amf3Prop_string {n : CStr} {s : Option CStr} {l : ℤ}
    (h : (amf3Prop m fin p).out = ⟨l, some (n, .string s)⟩) : s = some (n ++ [0x0a]) := by
  rw [amf3Prop, bind_out] at h
  split_ifs at h
  · cases h
  · cases h
  dsimp only at h
  split_ifs at h
  · cases h
  rw [bind_out, bind_out] at h
  cases hkind : kind (readByte m (p + (amf3String m fin p).out.len)).out with
  | plain a =>
    rw [hkind] at h
    obtain ⟨-, ha⟩ := Prod.mk.inj (Option.some.inj (Property.mk.inj h).2)
    exact absurd (ha ▸ hkind) kind_plain
  | integer =>
    rw [hkind, propValue, bind_out] at h
    by_cases hzero : (amf3Integer m fin (p + (amf3String m fin p).out.len + 1)).out.1 = 0
    · rw [if_pos hzero] at h
      cases h
    · rw [if_neg hzero] at h
      cases h
  | double =>
    rw [hkind] at h
    cases h
  | string =>
    rw [hkind, propValue, bind_out] at h
    rename_i hlen _ _
    rw [if_neg hlen] at h
    obtain ⟨rfl, hs⟩ := Prod.mk.inj (Option.some.inj (Property.mk.inj h).2)
    exact (Amf.string.inj hs).symm
  | unhandled =>
    rw [hkind] at h
    cases h

end Memory

end Mayhem.Amf3
