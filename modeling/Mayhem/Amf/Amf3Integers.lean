import Mayhem.Amf.Amf3Wire

/-! Every number of 29 bits on the wire, whole or cut off. -/
namespace Mayhem.Amf3

/-- The bytes of one number. All but the last have the high bit, and only a fourth one may have it
as the last. -/
structure U29 where
  more : List UInt8
  last : UInt8
  high : ∀ b ∈ more, 0x80 ≤ b
  fits : more.length = 3 ∨ more.length < 3 ∧ last < 0x80

namespace U29

def bytes (w : U29) : List UInt8 := w.more ++ [w.last]

/-- Seven bits of each byte after the bits so far. -/
def groups (val : ℕ) (more : List UInt8) : ℕ := more.foldl (fun v b => v * 128 + b.toNat % 128) val

def lastBits (w : U29) : ℕ := if w.more.length = 3 then 8 else 7

def value (w : U29) : ℕ := groups 0 w.more * 2 ^ w.lastBits + w.last.toNat

end U29

/-- The buffer ends before the number does. -/
def Cut (bs : List UInt8) : Prop := ∃ (w : U29) (rest : List UInt8), rest ≠ [] ∧ w.bytes = bs ++ rest

section Buffers

variable {m : ℤ → UInt8} {fin p : ℤ}

theorem high_iff (b : UInt8) : 0x80 ≤ b ↔ 128 ≤ b.toNat := UInt8.le_iff_toNat_le

theorem low_iff (b : UInt8) : b < 0x80 ↔ b.toNat < 128 := UInt8.lt_iff_toNat_lt

theorem moreByte_of_high {b : UInt8} (hb : 0x80 ≤ b) : b = moreByte b.toNat := by
  have hlow := (high_iff b).mp hb
  have hlt := b.toNat_lt
  apply UInt8.toNat_inj.mp
  rw [moreByte_toNat]
  omega

/-- The loop runs through the bytes that have the high bit. -/
theorem integerLoop_groups {more : List UInt8} (hmem : Holds m p more) (hhigh : ∀ b ∈ more, 0x80 ≤ b)
    (hfin : p + more.length ≤ fin) (i val : ℕ) :
    (integerLoop m fin (more.length + i) p val).out =
      (integerLoop m fin i (p + more.length) (U29.groups val more)).out := by
  induction more generalizing p val with
  | nil => simp [U29.groups]
  | cons b more ih =>
    obtain ⟨hb, hmem⟩ := hmem
    obtain ⟨hbit, hhigh⟩ := List.forall_mem_cons.mp hhigh
    rw [List.length_cons] at hfin ⊢
    have hptr : p + 1 + more.length = p + (more.length + 1 : ℕ) := by omega
    rw [Nat.add_right_comm, integerLoop_more _ _ (by omega) (hb.trans (moreByte_of_high hbit)),
      ih hmem hhigh (by omega), hptr]
    rfl

/-- A whole number is read, whatever follows it. -/
theorem amf3Integer_whole (w : U29) (hmem : Holds m p w.bytes) (hfin : p + w.bytes.length ≤ fin) :
    (amf3Integer m fin p).out = ((w.bytes.length : ℤ), w.value) := by
  obtain ⟨hmore, hlast, -⟩ := holds_append.mp hmem
  have hlen : w.bytes.length = w.more.length + 1 := by simp [U29.bytes]
  rw [hlen] at hfin ⊢
  have hbyte : m (p + w.more.length) = UInt8.ofNat w.last.toNat := by rw [hlast, UInt8.ofNat_toNat]
  have hlt := w.last.toNat_lt
  have hrun := integerLoop_groups hmore w.high (show p + w.more.length ≤ fin by omega)
    (3 - w.more.length) 0
  have hloop : (integerLoop m fin 3 p 0).out =
      some (w.lastBits, p + w.more.length, U29.groups 0 w.more) ∧ w.last.toNat < 2 ^ w.lastBits := by
    unfold U29.lastBits
    rcases w.fits with hthree | ⟨hless, hlow⟩
    · rw [hthree] at hrun ⊢
      exact ⟨hrun, hlt⟩
    · rw [low_iff] at hlow
      obtain ⟨i, hi⟩ : ∃ i, 3 - w.more.length = i + 1 := ⟨2 - w.more.length, by omega⟩
      rw [Nat.add_sub_cancel' (by omega), hi, integerLoop_last _ _ (by omega) hbyte hlow] at hrun
      rw [if_neg (by omega)]
      exact ⟨hrun, hlow⟩
  rw [amf3Integer_of_loop hloop.1 (by omega) hbyte hloop.2 hlt]
  exact Prod.ext (by dsimp only; omega) rfl

/-- Where the buffer ends behind bytes with the high bit only, nothing is read. -/
theorem amf3Integer_high {bs : List UInt8} (hmem : Holds m p bs) (hhigh : ∀ b ∈ bs, 0x80 ≤ b)
    (hlen : bs.length ≤ 3) : (amf3Integer m (p + bs.length) p).out.1 = 0 := by
  have hrun := integerLoop_groups hmem hhigh (Int.le_refl _) (3 - bs.length) 0
  rw [Nat.add_sub_cancel' hlen] at hrun
  rw [amf3Integer, Logged.bind_out, hrun]
  cases 3 - bs.length with
  | zero =>
    rw [integerLoop, Logged.pure_out]
    dsimp only
    rw [if_pos (Int.le_refl _)]
    rfl
  | succ i =>
    rw [integerLoop, if_pos (Int.le_refl _)]
    rfl

/-! ### Buffers that end early -/

/-- A buffer begins with a whole number, or it has up to three bytes and more would follow each. -/
theorem high_or_whole (bs : List UInt8) :
    bs.length ≤ 3 ∧ (∀ b ∈ bs, 0x80 ≤ b) ∨ ∃ (w : U29) (rest : List UInt8), bs = w.bytes ++ rest := by
  suffices h : ∀ k, bs.length ≤ k ∧ (∀ b ∈ bs, 0x80 ≤ b) ∨
      ∃ more last rest, bs = more ++ [last] ++ rest ∧ (∀ b ∈ more, (0x80 : UInt8) ≤ b) ∧
        (more.length = k ∨ more.length < k ∧ last < 0x80) by
    rcases h 3 with hcut | ⟨more, last, rest, hbs, hhigh, hfits⟩
    · exact .inl hcut
    · exact .inr ⟨⟨more, last, hhigh, hfits⟩, rest, hbs⟩
  induction bs with
  | nil => exact fun k => .inl ⟨Nat.zero_le k, nofun⟩
  | cons b bs ih =>
    rintro (_ | k)
    · exact .inr ⟨[], b, bs, rfl, nofun, .inl rfl⟩
    by_cases hb : b < 0x80
    · exact .inr ⟨[], b, bs, rfl, nofun, .inr ⟨Nat.succ_pos k, hb⟩⟩
    have hbit : 0x80 ≤ b := UInt8.not_lt.mp hb
    rcases ih k with ⟨hlen, hhigh⟩ | ⟨more, last, rest, rfl, hhigh, hfits⟩
    · exact .inl ⟨Nat.succ_le_succ hlen, List.forall_mem_cons.mpr ⟨hbit, hhigh⟩⟩
    · refine .inr ⟨b :: more, last, rest, rfl, List.forall_mem_cons.mpr ⟨hbit, hhigh⟩, ?_⟩
      exact hfits.imp (congrArg Nat.succ) fun h => ⟨Nat.succ_lt_succ h.1, h.2⟩

theorem cut_iff (bs : List UInt8) : Cut bs ↔ bs.length ≤ 3 ∧ ∀ b ∈ bs, 0x80 ≤ b := by
  constructor
  · rintro ⟨w, rest, hne, hbytes⟩
    have hmore : w.more = bs ++ rest.dropLast := by
      rw [← List.dropLast_append_of_ne_nil hne, ← hbytes, U29.bytes, List.dropLast_concat]
    have hlen := congrArg List.length hmore
    rw [List.length_append] at hlen
    have hfits := w.fits
    exact ⟨by omega, fun b hb => w.high b (hmore ▸ List.mem_append_left _ hb)⟩
  · rintro ⟨hlen, hhigh⟩
    -- bytes with nothing but the high bit fill the number up
    let fill := List.replicate (3 - bs.length) (0x80 : UInt8)
    have hmore : ∀ b ∈ bs ++ fill, 0x80 ≤ b := by
      intro b hb
      rcases List.mem_append.mp hb with hb | hb
      · exact hhigh b hb
      · exact Nat.le_of_eq (congrArg UInt8.toNat (List.eq_of_mem_replicate hb).symm)
    have hfull : (bs ++ fill).length = 3 := by
      rw [List.length_append, List.length_replicate]
      omega
    exact ⟨⟨bs ++ fill, 0, hmore, .inl hfull⟩, fill ++ [0], by simp, List.append_assoc _ _ _⟩

theorem not_cut_whole (w : U29) (rest : List UInt8) : ¬ Cut (w.bytes ++ rest) := by
  rw [cut_iff]
  rintro ⟨hlen, hhigh⟩
  have hlast : 0x80 ≤ w.last := hhigh w.last (by simp [U29.bytes])
  simp only [U29.bytes, List.length_append, List.length_cons, List.length_nil] at hlen
  rcases w.fits with hthree | ⟨-, hlow⟩
  · omega
  · exact absurd hlow (UInt8.not_lt.mpr hlast)

/-! ### The shortest numbers -/

theorem groups_lt (val : ℕ) (more : List UInt8) :
    U29.groups val more < (val + 1) * 2 ^ (7 * more.length) := by
  induction more generalizing val with
  | nil => simp [U29.groups]
  | cons b more ih =>
    have hpow : 2 ^ (7 * (b :: more).length) = 128 * 2 ^ (7 * more.length) := by
      rw [List.length_cons, Nat.mul_succ, Nat.pow_add, Nat.mul_comm]
    calc U29.groups val (b :: more) = U29.groups (val * 128 + b.toNat % 128) more := rfl
      _ < (val * 128 + b.toNat % 128 + 1) * 2 ^ (7 * more.length) := ih _
      _ ≤ (val + 1) * 128 * 2 ^ (7 * more.length) := Nat.mul_le_mul_right _ (by omega)
      _ = (val + 1) * 2 ^ (7 * (b :: more).length) := by rw [hpow, Nat.mul_assoc]

theorem U29.length_bytes (w : U29) : w.bytes.length = w.more.length + 1 := by simp [U29.bytes]

/-- Up to three bytes have seven bits each. -/
theorem U29.value_lt (w : U29) (h : w.bytes.length ≤ 3) : w.value < 2 ^ (7 * w.bytes.length) := by
  rw [w.length_bytes] at h ⊢
  have hgroups := groups_lt 0 w.more
  have hlow := (low_iff w.last).mp (w.fits.resolve_left (by omega)).2
  rw [U29.value, U29.lastBits, if_neg (by omega), Nat.mul_succ, Nat.pow_add]
  omega

theorem encodeU29_length_le (n k : ℕ) (hn : n < 2 ^ (7 * k)) : (encodeU29 n).length ≤ max 1 k := by
  have hbits : ∀ {j}, 2 ^ (7 * j) ≤ n → j < k := by
    intro j hj
    by_contra hk
    have hpow := Nat.pow_le_pow_right (show 0 < 2 by decide) (show 7 * k ≤ 7 * j by omega)
    omega
  rw [encodeU29]
  split_ifs with h1 h2 h3
  · exact Nat.le_max_left 1 k
  · exact Nat.le_trans (hbits (j := 1) (Nat.not_lt.mp h1)) (Nat.le_max_right 1 k)
  · exact Nat.le_trans (hbits (j := 2) (Nat.not_lt.mp h2)) (Nat.le_max_right 1 k)
  · exact Nat.le_trans (hbits (j := 3) (Nat.not_lt.mp h3)) (Nat.le_max_right 1 k)

/-- The encoding has the value that was encoded, and nothing shorter has it. -/
theorem encodeU29_shortest {n : ℕ} (hn : n < 2 ^ 29) : ∃ w : U29, w.bytes = encodeU29 n ∧
    w.value = n ∧ ∀ w' : U29, w'.value = n → w.bytes.length ≤ w'.bytes.length := by
  have hmem := holds_bytesOf (encodeU29 n)
  have hpos := encodeU29_length_pos n
  have hint := amf3Integer_encode hn hmem (Int.le_refl _)
  rcases high_or_whole (encodeU29 n) with ⟨hlen, hhigh⟩ | ⟨w, rest, hbytes⟩
  · have hzero := amf3Integer_high hmem hhigh hlen
    rw [hint] at hzero
    dsimp only at hzero
    omega
  have hsize := congrArg List.length hbytes
  rw [List.length_append] at hsize
  have hprefix : Holds (bytesOf (encodeU29 n)) 0 (w.bytes ++ rest) := by rwa [← hbytes]
  rw [amf3Integer_whole w (holds_append.mp hprefix).1 (by omega)] at hint
  obtain ⟨hlen, hvalue⟩ := Prod.mk.inj hint
  have hrest : rest = [] := List.eq_nil_of_length_eq_zero (by omega)
  rw [hrest, List.append_nil] at hbytes
  refine ⟨w, hbytes.symm, hvalue, fun w' hw' => ?_⟩
  have hpos' := w'.length_bytes
  rcases Nat.lt_or_ge 3 w'.bytes.length with hlong | hshort
  · have hfits := w.fits
    rw [w.length_bytes]
    omega
  · have hlt := w'.value_lt hshort
    rw [hw'] at hlt
    have hle := encodeU29_length_le n _ hlt
    rw [← hbytes]
    omega

/-! ### Any buffer -/

/-- The shortest encoding is read back in front of anything. Other bytes are refused where they end
too early, and otherwise the bytes that are taken decide alone. -/
theorem amf3Integer_u29 {bs : List UInt8} (hmem : Holds m p bs) :
    (∀ n suffix, n < 2 ^ 29 → bs = encodeU29 n ++ suffix →
      (amf3Integer m (p + bs.length) p).out = (((encodeU29 n).length : ℤ), n)) ∧
    ((amf3Integer m (p + bs.length) p).out.1 = 0 ↔ Cut bs) ∧
    (¬ Cut bs → ∃ len val : ℕ, (amf3Integer m (p + bs.length) p).out = ((len : ℤ), val) ∧
      1 ≤ len ∧ len ≤ 4 ∧ len ≤ bs.length ∧ val < 2 ^ 29 ∧
      ∀ (m' : ℤ → UInt8) (p' : ℤ) (bs' : List UInt8), Holds m' p' bs' → bs.take len <+: bs' →
        (amf3Integer m' (p' + bs'.length) p').out = ((len : ℤ), val)) := by
  have hwhole : ∀ (w : U29) {m' : ℤ → UInt8} {p' : ℤ} {bs' : List UInt8}, Holds m' p' bs' →
      w.bytes <+: bs' → (amf3Integer m' (p' + bs'.length) p').out = ((w.bytes.length : ℤ), w.value) := by
    rintro w m' p' _ hmem' ⟨rest, rfl⟩
    apply amf3Integer_whole w (holds_append.mp hmem').1
    rw [List.length_append]
    omega
  refine ⟨?_, ?_, ?_⟩
  · rintro n suffix hn rfl
    apply amf3Integer_encode hn (holds_append.mp hmem).1
    rw [List.length_append]
    omega
  · rcases high_or_whole bs with ⟨hlen, hhigh⟩ | ⟨w, rest, rfl⟩
    · exact iff_of_true (amf3Integer_high hmem hhigh hlen) ((cut_iff bs).mpr ⟨hlen, hhigh⟩)
    · apply iff_of_false _ (not_cut_whole w rest)
      rw [hwhole w hmem (List.prefix_append _ _), w.length_bytes]
      dsimp only
      omega
  · intro hcut
    obtain ⟨w, rest, rfl⟩ := (high_or_whole bs).resolve_left fun h => hcut ((cut_iff bs).mpr h)
    have hout := hwhole w hmem (List.prefix_append _ _)
    have hval : (amf3Integer m (p + (w.bytes ++ rest).length) p).out.2 < 2 ^ 29 := amf3Integer_lt p
    rw [hout] at hval
    have hlen := w.length_bytes
    have hfits := w.fits
    refine ⟨w.bytes.length, w.value, hout, by omega, by omega, ?_, hval, ?_⟩
    · rw [List.length_append]
      omega
    · intro m' p' bs' hmem' hprefix
      rw [List.take_left] at hprefix
      exact hwhole w hmem' hprefix

theorem amf3Integer_u29_two : (amf3Integer (bytesOf [0x81, 0x00, 0xff]) 3 0).out = (2, 128) :=
  (amf3Integer_u29 (holds_bytesOf [0x81, 0x00, 0xff])).1 128 [0xff] (by decide) rfl

end Buffers

end Mayhem.Amf3
