import Mathlib.Tactic.ByContra
import Mathlib.Tactic.SplitIfs
import Mayhem.Amf.Amf3

/-! When `amf3_parse` ends and stays in its buffer. -/
namespace Mayhem.Amf3

open Logged

/-- No byte outside of the buffer is read, `ptr` stays in it, and `amf3_prop` returns 0 or at
most what it was given. -/
def Event.Within (sz : ℤ) : Event → Prop
  | .read p => 0 ≤ p ∧ p < sz
  | .ptr p => 0 ≤ p ∧ p ≤ sz
  | .prop given len => len = 0 ∨ 1 ≤ len ∧ len ≤ given

/-- The parser ends, within the buffer. -/
def Contained (m : ℤ → UInt8) (sz : ℕ) : Prop :=
  ∃ fuel a taken, (amf3Parse m sz fuel).out = some (a, taken) ∧
    (amf3Parse m sz fuel).All (Event.Within sz) ∧ 0 ≤ taken ∧ taken ≤ sz

section Buffer

variable (m : ℤ → UInt8) (fin : ℤ)

/-- The property at `p` has a name and a type. -/
def Named (p : ℤ) : Prop :=
  (amf3String m fin p).out.slen ≠ 0 ∧ p + (amf3String m fin p).out.len < fin

/-- The value is taken to be as long as the name. -/
inductive Kind.Again : Kind → Prop
  | plain {a} : Again (.plain a)
  | string : Again .string

/-- Where the property at `p` leaves `ptr`, if there is one and it is not refused. -/
def next (p : ℤ) : Option ℤ :=
  let n := (amf3String m fin p).out
  if n.slen = 0 ∨ fin ≤ p + n.len then none
  else
    match kind (m (p + n.len)) with
    | .plain _ | .string => some (p + n.len + 1 + n.len)
    | .integer =>
      let i := (amf3Integer m fin (p + n.len + 1)).out
      if i.1 = 0 then none else some (p + n.len + 1 + i.1)
    | .double => none
    | .unhandled => some (p + n.len + 1 + (p + n.len + 1 - fin))

/-- Behind properties that move `ptr` on inside the buffer, one moves it out or back. -/
inductive Astray : ℤ → Prop
  /-- The length of the name, which is added for the value again, leads behind the end. -/
  | again {p} : Named m fin p → (kind (m (p + (amf3String m fin p).out.len))).Again →
      fin < p + 2 * (amf3String m fin p).out.len + 1 → Astray p
  /-- More than half of what there was is left, and `ptr` moves back by all of it. -/
  | unhandled {p} : Named m fin p → kind (m (p + (amf3String m fin p).out.len)) = .unhandled →
      2 * ((amf3String m fin p).out.len + 1) < fin - p → Astray p
  | later {p q} : next m fin p = some q → p < q → q ≤ fin → Astray q → Astray p

/-- The properties of an object begin at `p`, behind a marker, traits and a class name. -/
structure Opens (p : ℤ) : Prop where
  size : 0 < fin
  tag : m 0 = AMF3_OBJECT
  traits : (amf3Integer m fin 1).out.1 ≠ 0 ∧ (amf3Integer m fin 1).out.2 = 0x0b
  name : (amf3String m fin (1 + (amf3Integer m fin 1).out.1)).out.len ≠ 0
  start : p = 1 + (amf3Integer m fin 1).out.1 +
    (amf3String m fin (1 + (amf3Integer m fin 1).out.1)).out.len

end Buffer

section Scans

variable {m : ℤ → UInt8} {fin : ℤ}

theorem readByte_within {p : ℤ} : (readByte m p).All (Event.Within fin) ↔ 0 ≤ p ∧ p < fin := by
  simp [readByte, Event.Within]

theorem ptr_within {p : ℤ} :
    (tell (.ptr p) : Scan Unit).All (Event.Within fin) ↔ 0 ≤ p ∧ p ≤ fin := all_tell

theorem readBytes_within {p : ℤ} {n : ℕ} (hp : 0 ≤ p) (hfin : p + n ≤ fin) :
    (readBytes m p n).All (Event.Within fin) := by
  induction n generalizing p with
  | zero => exact all_pure _
  | succ n ih =>
    rw [readBytes, all_bind, all_bind, readByte_within]
    exact ⟨by omega, ih (by omega) (by omega), all_pure _⟩

variable (m fin) in
theorem integerLoop_spec (i : ℕ) {ptr : ℤ} (val : ℕ) (hptr : 0 ≤ ptr) :
    (integerLoop m fin i ptr val).All (Event.Within fin) ∧
      ∀ r, (integerLoop m fin i ptr val).out = some r → ptr ≤ r.2.1 := by
  induction i generalizing ptr val with
  | zero =>
    constructor
    · exact all_pure _
    · intro r hr
      obtain rfl := Option.some.inj hr
      exact Int.le_refl _
  | succ i ih =>
    rw [integerLoop]
    split_ifs with hfin
    · exact ⟨all_pure _, nofun⟩
    · rw [all_bind, bind_out, readByte_within]
      split_ifs with hbit
      · obtain ⟨hall, hle⟩ := ih _ (show 0 ≤ ptr + 1 by omega)
        exact ⟨⟨by omega, hall⟩, fun r hr => by have := hle r hr; omega⟩
      · constructor
        · exact ⟨by omega, all_pure _⟩
        · intro r hr
          obtain rfl := Option.some.inj hr
          exact Int.le_refl _

variable (m fin) in
theorem amf3Integer_spec {buf : ℤ} (hbuf : 0 ≤ buf) :
    (amf3Integer m fin buf).All (Event.Within fin) ∧
      ((amf3Integer m fin buf).out.1 = 0 ∨
        1 ≤ (amf3Integer m fin buf).out.1 ∧ buf + (amf3Integer m fin buf).out.1 ≤ fin) := by
  obtain ⟨hall, hle⟩ := integerLoop_spec m fin 3 0 hbuf
  rw [amf3Integer, all_bind, bind_out]
  cases h : (integerLoop m fin 3 buf 0).out with
  | none => exact ⟨⟨hall, all_pure _⟩, .inl rfl⟩
  | some r =>
    obtain ⟨shift, ptr, val⟩ := r
    have hptr : buf ≤ ptr := hle _ h
    dsimp only
    split_ifs with hfin
    · exact ⟨⟨hall, all_pure _⟩, .inl rfl⟩
    · rw [all_bind, bind_out, readByte_within]
      simp only [pure_out, all_pure, and_true]
      exact ⟨⟨hall, by omega⟩, .inr ⟨by omega, by omega⟩⟩

theorem integerLoop_lt {i j : ℕ} {ptr : ℤ} {val : ℕ} (hj : i + j = 3) (hval : val < 2 ^ (7 * j)) :
    ∀ r, (integerLoop m fin i ptr val).out = some r → r.1 ≤ 8 ∧ r.2.2 < 2 ^ 21 := by
  induction i generalizing j ptr val with
  | zero =>
    intro r hr
    obtain rfl := Option.some.inj hr
    obtain rfl : j = 3 := by omega
    exact ⟨Nat.le_refl 8, hval⟩
  | succ i ih =>
    have hle : 2 ^ (7 * j) ≤ 2 ^ 21 := Nat.pow_le_pow_right (by decide) (by omega)
    rw [integerLoop]
    split_ifs with hfin
    · nofun
    · rw [bind_out]
      split_ifs with hbit
      · apply ih (j := j + 1) (by omega)
        have hbyte : ((readByte m ptr).out &&& 0x7f).toNat < 2 ^ 7 := by
          rw [UInt8.toNat_and]
          exact Nat.and_lt_two_pow _ (by decide)
        have hshift : val <<< 7 < 2 ^ (7 * (j + 1)) := by
          rw [Nat.shiftLeft_eq, Nat.mul_add, Nat.pow_add]
          omega
        have hpow : 2 ^ 7 ≤ 2 ^ (7 * (j + 1)) := Nat.pow_le_pow_right (by decide) (by omega)
        exact Nat.or_lt_two_pow hshift (by omega)
      · intro r hr
        obtain rfl := Option.some.inj hr
        exact ⟨by dsimp only; omega, by dsimp only; omega⟩

/-- The numbers have 29 bits. -/
theorem amf3Integer_lt (buf : ℤ) : (amf3Integer m fin buf).out.2 < 2 ^ 29 := by
  have hlt : ∀ r, (integerLoop m fin 3 buf 0).out = some r → r.1 ≤ 8 ∧ r.2.2 < 2 ^ 21 :=
    integerLoop_lt (show 3 + 0 = 3 from rfl) (by decide)
  rw [amf3Integer, bind_out]
  cases h : (integerLoop m fin 3 buf 0).out with
  | none => exact Nat.two_pow_pos 29
  | some r =>
    obtain ⟨shift, ptr, val⟩ := r
    obtain ⟨hshift, hval⟩ := hlt _ h
    dsimp only at hshift hval ⊢
    have hpow : val <<< shift < 2 ^ 29 := by
      rw [Nat.shiftLeft_eq]
      calc val * 2 ^ shift ≤ val * 2 ^ 8 := Nat.mul_le_mul_left _ (Nat.pow_le_pow_right (by decide) hshift)
        _ < 2 ^ 29 := by omega
    split_ifs with hfin
    · exact Nat.lt_trans hval (by decide)
    · have hbyte := UInt8.toNat_lt (readByte m ptr).out
      exact Nat.or_lt_two_pow hpow (by omega)

variable (m fin) in
/-- A text lies behind its length, inside the buffer. -/
theorem amf3String_spec {buf : ℤ} (hbuf : 0 ≤ buf) :
    (amf3String m fin buf).All (Event.Within fin) ∧
      ((amf3String m fin buf).out.len = 0 ∧ (amf3String m fin buf).out.slen = 0 ∨
        1 ≤ (amf3String m fin buf).out.len ∧ buf + (amf3String m fin buf).out.len ≤ fin) ∧
      (readText m (amf3String m fin buf).out).All (Event.Within fin) := by
  obtain ⟨hall, hlen⟩ := amf3Integer_spec m fin hbuf
  rw [amf3String, all_bind, bind_out]
  generalize (amf3Integer m fin buf).out = i at hlen
  dsimp only
  split_ifs with hzero hlow hfin
  · exact ⟨⟨hall, all_pure _⟩, .inl ⟨rfl, rfl⟩, all_pure _⟩
  · exact ⟨⟨hall, all_pure _⟩, .inr (by simpa using hlen.resolve_left hzero), all_pure _⟩
  · exact ⟨⟨hall, all_pure _⟩, .inl ⟨rfl, rfl⟩, all_pure _⟩
  · simp only [pure_out, all_pure, and_true]
    exact ⟨hall, .inr ⟨by omega, by omega⟩,
      readBytes_within (n := i.2 >>> 1) (by omega) (by omega)⟩

/-- What a call of `amf3_prop` at `p` does: it moves `ptr` as `next` says, or refuses the
property or finds the end of the list, within the buffer. -/
inductive Called (m : ℤ → UInt8) (fin p : ℤ) (r : Scan Property) : Prop
  | moved {q e} : next m fin p = some q → r.out = ⟨q - p, some e⟩ →
      (r.All (Event.Within fin) ↔ 0 ≤ q ∧ q ≤ fin) → Called m fin p r
  | refused : next m fin p = none → r.out.len = 0 → r.All (Event.Within fin) → Called m fin p r
  | ended {l} : next m fin p = none → r.out = ⟨l, none⟩ → 1 ≤ l → p + l ≤ fin →
      r.All (Event.Within fin) → Called m fin p r

variable (m fin) in
/-- The switch of `amf3_prop` for the property at `p`. -/
def value (p : ℤ) : Scan (ℤ × Option Amf) :=
  let n := (amf3String m fin p).out
  propValue m fin p (p + n.len + 1) n.len (kind (m (p + n.len)))

theorem Named.len {p : ℤ} (hp : 0 ≤ p) (h : Named m fin p) : 1 ≤ (amf3String m fin p).out.len := by
  obtain ⟨-, hlen, -⟩ := amf3String_spec m fin hp
  exact (hlen.resolve_left fun hzero => h.1 hzero.2).1

theorem value_within {p : ℤ} (hp : 0 ≤ p) (h : Named m fin p) :
    (value m fin p).All (Event.Within fin) := by
  obtain ⟨hname, -, htext⟩ := amf3String_spec m fin hp
  have hlen := h.len hp
  rw [value]
  cases kind (m (p + (amf3String m fin p).out.len)) with
  | plain a => exact all_pure _
  | integer =>
    rw [propValue, all_bind]
    exact ⟨(amf3Integer_spec m fin (by omega)).1, all_pure _⟩
  | double => exact all_pure _
  | string =>
    rw [propValue, all_bind, if_neg (show (amf3String m fin p).out.len ≠ 0 by omega), all_bind]
    exact ⟨hname, htext, all_pure _⟩
  | unhandled =>
    have hin := h.2
    rw [propValue, all_bind]
    exact ⟨readBytes_within hp (by omega), all_pure _⟩

theorem next_value {p : ℤ} (hp : 0 ≤ p) (h : Named m fin p) : next m fin p =
    (value m fin p).out.2.map fun _ =>
      p + (amf3String m fin p).out.len + 1 + (value m fin p).out.1 := by
  have hlen := h.len hp
  rw [next, value]
  dsimp only
  rw [if_neg (not_or.mpr ⟨h.1, Int.not_le.mpr h.2⟩)]
  cases kind (m (p + (amf3String m fin p).out.len)) with
  | plain a => rfl
  | integer =>
    rw [propValue, bind_out]
    dsimp only [pure_out]
    split_ifs <;> rfl
  | double => rfl
  | string =>
    rw [propValue, bind_out, if_neg (show (amf3String m fin p).out.len ≠ 0 by omega)]
    rfl
  | unhandled => rfl

/-- The end of `amf3_prop`, behind the switch. -/
theorem amf3Prop_value {p : ℤ} (hp : 0 ≤ p) (h : Named m fin p) :
    ((value m fin p).out.2 = none →
      (amf3Prop m fin p).out = ⟨0, none⟩ ∧ (amf3Prop m fin p).All (Event.Within fin)) ∧
    ∀ a q, (value m fin p).out.2 = some a →
      q = p + (amf3String m fin p).out.len + 1 + (value m fin p).out.1 →
      (amf3Prop m fin p).out = ⟨q - p, some
        ((readText m (amf3String m fin p).out).out.takeWhile (· ≠ 0), a)⟩ ∧
      ((amf3Prop m fin p).All (Event.Within fin) ↔ 0 ≤ q ∧ q ≤ fin) := by
  obtain ⟨hname, -, htext⟩ := amf3String_spec m fin hp
  have hlen := h.len hp
  have hall := value_within hp h
  obtain ⟨hslen, hin⟩ := h
  rw [value] at hall ⊢
  rw [amf3Prop, all_bind, bind_out]
  generalize (amf3String m fin p).out = n at *
  rw [if_neg (show n.len ≠ 0 by omega), if_neg hslen]
  dsimp only at hall ⊢
  rw [if_neg (Int.not_le.mpr hin), all_bind, bind_out, readByte_within, all_bind, bind_out]
  have htype : (readByte m (p + n.len)).out = m (p + n.len) := rfl
  rw [htype]
  generalize propValue m fin p (p + n.len + 1) n.len (kind (m (p + n.len))) = v at *
  constructor
  · intro hnone
    rw [hnone]
    exact ⟨rfl, hname, by omega, hall, all_pure _⟩
  · rintro a q ha rfl
    rw [ha]
    refine ⟨rfl, ?_⟩
    simp only [all_bind, all_tell, all_pure, and_true, htext, hname, hall, true_and]
    exact and_iff_right (by omega)

theorem amf3Prop_called {p : ℤ} (hp : 0 ≤ p) (hlt : p < fin) :
    Called m fin p (amf3Prop m fin p) := by
  obtain ⟨hname, hlen, htext⟩ := amf3String_spec m fin hp
  by_cases hslen : (amf3String m fin p).out.slen = 0
  · have hnext : next m fin p = none := by
      rw [next, if_pos (.inl hslen)]
    by_cases hzero : (amf3String m fin p).out.len = 0
    · apply Called.refused hnext
      · rw [amf3Prop, bind_out, if_pos hzero]
        rfl
      · rw [amf3Prop, all_bind, if_pos hzero]
        exact ⟨hname, all_pure _⟩
    · apply Called.ended hnext (l := (amf3String m fin p).out.len)
      · rw [amf3Prop, bind_out, if_neg hzero, if_pos hslen]
        rfl
      · omega
      · omega
      · rw [amf3Prop, all_bind, if_neg hzero, if_pos hslen]
        exact ⟨hname, all_pure _⟩
  by_cases hin : fin ≤ p + (amf3String m fin p).out.len
  · have hnext : next m fin p = none := by
      rw [next, if_pos (.inr hin)]
    have hzero : (amf3String m fin p).out.len ≠ 0 := by omega
    apply Called.refused hnext
    · rw [amf3Prop, bind_out, if_neg hzero, if_neg hslen]
      dsimp only
      rw [if_pos hin]
      rfl
    · rw [amf3Prop, all_bind, if_neg hzero, if_neg hslen]
      dsimp only
      rw [if_pos hin]
      exact ⟨hname, all_pure _⟩
  have hnamed : Named m fin p := ⟨hslen, Int.not_le.mp hin⟩
  have hnext := next_value hp hnamed
  obtain ⟨hnone, hsome⟩ := amf3Prop_value hp hnamed
  cases ha : (value m fin p).out.2 with
  | none =>
    obtain ⟨hout, hall⟩ := hnone ha
    rw [ha] at hnext
    exact .refused hnext (by rw [hout]) hall
  | some a =>
    obtain ⟨hout, hall⟩ := hsome a _ ha rfl
    rw [ha] at hnext
    exact .moved hnext hout hall

/-! ### The loop -/

theorem Astray.of_next {p q : ℤ} (hp : 0 ≤ p) (h : next m fin p = some q) (hbad : q < p ∨ fin < q) :
    Astray m fin p := by
  by_cases hname : (amf3String m fin p).out.slen = 0 ∨ fin ≤ p + (amf3String m fin p).out.len
  · rw [next, if_pos hname] at h
    cases h
  rw [next, if_neg hname] at h
  rw [not_or, Int.not_le] at hname
  have hnamed : Named m fin p := hname
  have hlen := hnamed.len hp
  have hin := hnamed.2
  cases hkind : kind (m (p + (amf3String m fin p).out.len)) with
  | plain a =>
    rw [hkind] at h
    obtain rfl := Option.some.inj h
    exact .again hnamed (hkind ▸ .plain) (by omega)
  | string =>
    rw [hkind] at h
    obtain rfl := Option.some.inj h
    exact .again hnamed (hkind ▸ .string) (by omega)
  | integer =>
    rw [hkind] at h
    obtain ⟨-, hint⟩ := amf3Integer_spec m fin
      (show 0 ≤ p + (amf3String m fin p).out.len + 1 by omega)
    dsimp only at h
    split_ifs at h
    obtain rfl := Option.some.inj h
    omega
  | double =>
    rw [hkind] at h
    cases h
  | unhandled =>
    rw [hkind] at h
    obtain rfl := Option.some.inj h
    exact .unhandled hnamed hkind (by omega)

theorem next_again {p : ℤ} (h : Named m fin p)
    (hkind : (kind (m (p + (amf3String m fin p).out.len))).Again) :
    next m fin p = some (p + (amf3String m fin p).out.len + 1 + (amf3String m fin p).out.len) := by
  rw [next, if_neg (not_or.mpr ⟨h.1, Int.not_le.mpr h.2⟩)]
  revert hkind
  cases kind (m (p + (amf3String m fin p).out.len)) <;> rintro ⟨⟩ <;> rfl

theorem next_unhandled {p : ℤ} (h : Named m fin p)
    (hkind : kind (m (p + (amf3String m fin p).out.len)) = .unhandled) :
    next m fin p = some (p + (amf3String m fin p).out.len + 1 +
      (p + (amf3String m fin p).out.len + 1 - fin)) := by
  rw [next, if_neg (not_or.mpr ⟨h.1, Int.not_le.mpr h.2⟩), hkind]

theorem propLoop_refused (fuel : ℕ) {p : ℤ} (hlt : p < fin) (h : (amf3Prop m fin p).out.len = 0)
    (obj : List (CStr × Amf)) : (propLoop m fin (fuel + 1) p obj).out = some (none, p) ∧
      ((amf3Prop m fin p).All (Event.Within fin) →
        (propLoop m fin (fuel + 1) p obj).All (Event.Within fin)) := by
  rw [propLoop, if_neg (Int.not_le.mpr hlt), all_bind, bind_out, all_bind, bind_out, if_pos h]
  constructor
  · rfl
  · exact fun hall => ⟨hall, by simp [Event.Within, h], all_pure _⟩

theorem propLoop_ended (fuel : ℕ) {p l : ℤ} (hp : 0 ≤ p) (hlt : p < fin)
    (h : (amf3Prop m fin p).out = ⟨l, none⟩) (hl : 1 ≤ l) (hle : p + l ≤ fin)
    (obj : List (CStr × Amf)) :
    (propLoop m fin (fuel + 1) p obj).out = some (some (.object obj), p + l) ∧
      ((amf3Prop m fin p).All (Event.Within fin) →
        (propLoop m fin (fuel + 1) p obj).All (Event.Within fin)) := by
  rw [propLoop, if_neg (Int.not_le.mpr hlt), all_bind, bind_out, all_bind, bind_out, h]
  dsimp only
  rw [if_neg (show l ≠ 0 by omega), all_bind, bind_out]
  constructor
  · rfl
  · intro hall
    simp only [all_tell, all_pure, and_true, Event.Within]
    exact ⟨hall, by omega, by omega⟩

theorem propLoop_moved (fuel : ℕ) {p q : ℤ} {n : CStr} {a : Amf} (hlt : p < fin)
    (h : (amf3Prop m fin p).out = ⟨q - p, some (n, a)⟩) (hne : q ≠ p) (obj : List (CStr × Amf)) :
    (propLoop m fin (fuel + 1) p obj).out = (propLoop m fin fuel q (amfObjectSet n a obj)).out ∧
      ((propLoop m fin (fuel + 1) p obj).All (Event.Within fin) ↔
        (amf3Prop m fin p).All (Event.Within fin) ∧ p < q ∧ q ≤ fin ∧ 0 ≤ q ∧
          (propLoop m fin fuel q (amfObjectSet n a obj)).All (Event.Within fin)) := by
  have hq : p + (q - p) = q := by omega
  rw [propLoop, if_neg (Int.not_le.mpr hlt), all_bind, bind_out, all_bind, bind_out, h]
  dsimp only
  rw [if_neg (show q - p ≠ 0 by omega), all_bind, bind_out, hq]
  constructor
  · rfl
  · simp only [all_tell, Event.Within]
    constructor
    · rintro ⟨hall, hprop, hptr, hrest⟩
      exact ⟨hall, by omega, hptr.2, hptr.1, hrest⟩
    · rintro ⟨hall, hpq, hle, hpos, hrest⟩
      exact ⟨hall, by omega, ⟨hpos, hle⟩, hrest⟩

theorem propLoop_contained {p : ℤ} (hp : 0 ≤ p) (hle : p ≤ fin) (h : ¬ Astray m fin p)
    (obj : List (CStr × Amf)) :
    ∃ fuel a taken, (propLoop m fin fuel p obj).out = some (a, taken) ∧
      (propLoop m fin fuel p obj).All (Event.Within fin) ∧ 0 ≤ taken ∧ taken ≤ fin := by
  induction hn : (fin - p).toNat using Nat.strongRecOn generalizing p obj with
  | ind n ih =>
    by_cases hlt : fin ≤ p
    · refine ⟨0, some (.object obj), p, ?_, ?_, hp, hle⟩
      · rw [propLoop, if_pos hlt]
        rfl
      · rw [propLoop, if_pos hlt]
        exact all_pure _
    rw [Int.not_le] at hlt
    cases amf3Prop_called (m := m) hp hlt with
    | refused _ hlen hall =>
      obtain ⟨hout, hwithin⟩ := propLoop_refused 0 hlt hlen obj
      exact ⟨1, none, p, hout, hwithin hall, hp, hle⟩
    | @ended l _ hprop hl hlfin hall =>
      obtain ⟨hout, hwithin⟩ := propLoop_ended 0 hp hlt hprop hl hlfin obj
      exact ⟨1, _, p + l, hout, hwithin hall, by omega, hlfin⟩
    | @moved q e hnext hprop hall =>
      by_cases hq : q = p
      · subst hq
        obtain ⟨hout, hwithin⟩ := propLoop_refused 0 hlt
          (by rw [hprop]; exact Int.sub_self q) obj
        exact ⟨1, none, q, hout, hwithin (hall.mpr ⟨hp, hle⟩), hp, hle⟩
      · have hmove : p < q ∧ q ≤ fin := by
          by_contra hbad
          exact h (.of_next hp hnext (by omega))
        have hrest : ¬ Astray m fin q := fun hq => h (.later hnext hmove.1 hmove.2 hq)
        obtain ⟨fuel, a, taken, hout, hwithin, htaken⟩ := ih _ (by omega) (by omega) hmove.2 hrest
          (amfObjectSet e.1 e.2 obj) rfl
        obtain ⟨hout', hwithin'⟩ := propLoop_moved fuel hlt hprop hq obj
        refine ⟨fuel + 1, a, taken, hout'.trans hout, ?_, htaken⟩
        exact hwithin'.mpr ⟨hall.mpr ⟨by omega, hmove.2⟩, hmove.1, hmove.2, by omega, hwithin⟩

theorem propLoop_out_next {p q : ℤ} {fuel : ℕ} (hp : 0 ≤ p) (hlt : p < fin)
    (hnext : next m fin p = some q) (hq : q ≠ p) {obj : List (CStr × Amf)} {r : Option Amf × ℤ}
    (hout : (propLoop m fin fuel p obj).out = some r)
    (hall : (propLoop m fin fuel p obj).All (Event.Within fin)) :
    p < q ∧ q ≤ fin ∧ ∃ fuel' obj', (propLoop m fin fuel' q obj').out = some r ∧
      (propLoop m fin fuel' q obj').All (Event.Within fin) := by
  cases fuel with
  | zero =>
    rw [propLoop, if_neg (Int.not_le.mpr hlt)] at hout
    cases hout
  | succ fuel =>
    cases amf3Prop_called (m := m) hp hlt with
    | refused hnone => cases hnone.symm.trans hnext
    | ended hnone => cases hnone.symm.trans hnext
    | @moved q' e hnext' hprop =>
      obtain rfl := Option.some.inj (hnext.symm.trans hnext')
      obtain ⟨hout', hmove⟩ := propLoop_moved fuel hlt hprop hq obj
      obtain ⟨-, hpq, hle, -, hrest⟩ := hmove.mp hall
      exact ⟨hpq, hle, fuel, _, hout'.symm.trans hout, hrest⟩

theorem propLoop_strays {p : ℤ} (h : Astray m fin p) : ∀ fuel obj r, 0 ≤ p →
    (propLoop m fin fuel p obj).out = some r →
      ¬ (propLoop m fin fuel p obj).All (Event.Within fin) := by
  induction h with
  | again hnamed hkind hbad =>
    intro fuel obj r hp hout hall
    have hlen := hnamed.len hp
    have hin := hnamed.2
    obtain ⟨-, hle, -⟩ := propLoop_out_next hp (by omega) (next_again hnamed hkind) (by omega)
      hout hall
    omega
  | unhandled hnamed hkind hbad =>
    intro fuel obj r hp hout hall
    have hlen := hnamed.len hp
    have hin := hnamed.2
    obtain ⟨hlt, -⟩ := propLoop_out_next hp (by omega) (next_unhandled hnamed hkind) (by omega)
      hout hall
    omega
  | later hnext hpq hq _ ih =>
    intro fuel obj r hp hout hall
    obtain ⟨-, -, fuel', obj', hout', hall'⟩ := propLoop_out_next hp (by omega) hnext (by omega)
      hout hall
    exact ih fuel' obj' r (by omega) hout' hall'

/-! ### The whole parser -/

private theorem traits_iff (ref : ℕ) : ref = 0x0b ↔ ref &&& 1 ≠ 0 ∧ ref >>> 1 &&& 1 ≠ 0 ∧
    ¬ (ref >>> 1 >>> 1 >>> 1 >>> 1 ≠ 0 ∨ ref >>> 1 >>> 1 &&& 1 ≠ 0 ∨
      ref >>> 1 >>> 1 >>> 1 &&& 1 = 0) := by
  simp only [Nat.and_one_is_mod, Nat.shiftRight_eq_div_pow]
  omega

theorem amf3Parse_opens {p : ℤ} (h : Opens m fin p) (fuel : ℕ) : 0 ≤ p ∧ p ≤ fin ∧
    (amf3Parse m fin fuel).out = (propLoop m fin fuel p []).out ∧
      ((amf3Parse m fin fuel).All (Event.Within fin) ↔
        (propLoop m fin fuel p []).All (Event.Within fin)) := by
  obtain ⟨hsize, htag, htraits, hname, rfl⟩ := h
  obtain ⟨hint, hlen⟩ := amf3Integer_spec m fin (show (0 : ℤ) ≤ 1 by decide)
  obtain ⟨hstr, hstrLen, -⟩ := amf3String_spec m fin
    (show 0 ≤ 1 + (amf3Integer m fin 1).out.1 by omega)
  have htag' : ¬ (readByte m 0).out ≠ AMF3_OBJECT := not_not.mpr htag
  obtain ⟨hobjref, hclassref, hobject⟩ := (traits_iff _).mp htraits.2
  rw [amf3Parse, if_neg (Int.not_le.mpr hsize), bind_out, all_bind, readByte_within, if_neg htag',
    bind_out, all_bind]
  generalize (amf3Integer m fin 1).out = i at *
  rw [if_neg htraits.1]
  dsimp only
  rw [bind_out, all_bind, if_neg hobjref, if_neg hclassref, bind_out, all_bind]
  generalize (amf3String m fin (1 + i.1)).out = s at *
  rw [if_neg hname, bind_out, all_bind, if_neg hobject]
  simp only [all_tell, Event.Within, hint, hstr, true_and]
  refine ⟨by omega, by omega, ?_⟩
  constructor
  · rintro ⟨-, -, -, hall⟩
    exact hall
  · exact fun hall => ⟨by omega, by omega, by omega, hall⟩

/-- A run that ends within the buffer. -/
def Done (fin : ℤ) (s : Scan (Option (Option Amf × ℤ))) : Prop :=
  ∃ a taken, s.out = some (a, taken) ∧ s.All (Event.Within fin) ∧ 0 ≤ taken ∧ taken ≤ fin

theorem done_pure (a : Option Amf) {taken : ℤ} (h : 0 ≤ taken) (hle : taken ≤ fin) :
    Done fin (pure (some (a, taken))) :=
  ⟨a, taken, rfl, all_pure _, h, hle⟩

theorem Done.bind {α : Type} {s : Scan α} {f : α → Scan (Option (Option Amf × ℤ))}
    (hs : s.All (Event.Within fin)) (h : Done fin (f s.out)) : Done fin (s >>= f) := by
  obtain ⟨a, taken, hout, hall, hbounds⟩ := h
  exact ⟨a, taken, hout, all_bind.mpr ⟨hs, hall⟩, hbounds⟩

/-- Without an object that can be read the parser ends in front of the loop. -/
theorem amf3Parse_done (hsz : 0 ≤ fin) (h : ∀ p, ¬ Opens m fin p) (fuel : ℕ) :
    Done fin (amf3Parse m fin fuel) := by
  obtain ⟨hint, hlen⟩ := amf3Integer_spec m fin (show (0 : ℤ) ≤ 1 by decide)
  obtain ⟨hstr, hstrLen, htext⟩ := amf3String_spec m fin
    (show 0 ≤ 1 + (amf3Integer m fin 1).out.1 by omega)
  rw [amf3Parse]
  split_ifs with hsize
  · exact done_pure none (Int.le_refl 0) hsz
  apply Done.bind (readByte_within.mpr (by omega))
  split_ifs with htag
  · exact done_pure (some .null) hsz (Int.le_refl fin)
  apply Done.bind hint
  split_ifs with hzero
  · exact done_pure none (by decide) (by omega)
  have hptr : 0 ≤ 1 + (amf3Integer m fin 1).out.1 ∧ 1 + (amf3Integer m fin 1).out.1 ≤ fin := by omega
  dsimp only
  apply Done.bind (ptr_within.mpr hptr)
  by_cases hobjref : (amf3Integer m fin 1).out.2 &&& 1 = 0
  · rw [if_pos hobjref]
    exact done_pure (some .undefined) hptr.1 hptr.2
  by_cases hclassref : (amf3Integer m fin 1).out.2 >>> 1 &&& 1 = 0
  · rw [if_neg hobjref, if_pos hclassref]
    exact done_pure (some .undefined) hptr.1 hptr.2
  rw [if_neg hobjref, if_neg hclassref]
  apply Done.bind hstr
  by_cases hname : (amf3String m fin (1 + (amf3Integer m fin 1).out.1)).out.len = 0
  · rw [if_pos hname]
    exact done_pure none hptr.1 hptr.2
  rw [if_neg hname]
  apply Done.bind (ptr_within.mpr ⟨by omega, by omega⟩)
  split_ifs with hobject
  · exact (done_pure none (by omega) (by omega)).bind htext
  · exact absurd ⟨Int.not_le.mp hsize, not_not.mp htag,
      ⟨hzero, (traits_iff _).mpr ⟨hobjref, hclassref, hobject⟩⟩, hname, rfl⟩ (h _)

end Scans

theorem not_contained {m : ℤ → UInt8} {sz : ℕ} {p : ℤ} (hopens : Opens m sz p)
    (hastray : Astray m sz p) : ¬ Contained m sz := by
  rintro ⟨fuel, a, taken, hout, hall, -⟩
  obtain ⟨hp, -, hrun, hwithin⟩ := amf3Parse_opens hopens fuel
  exact propLoop_strays hastray fuel [] _ hp (hrun.symm.trans hout) (hwithin.mp hall)

/-- The parser ends within the buffer unless a property behind those of an object that take what
they should moves `ptr` back or behind the end. -/
theorem amf3_contained (m : ℤ → UInt8) (sz : ℕ) :
    Contained m sz ↔ ∀ p, Opens m sz p → ¬ Astray m sz p := by
  constructor
  · exact fun h p hopens hastray => not_contained hopens hastray h
  · intro h
    by_cases hopens : ∃ p, Opens m sz p
    · obtain ⟨p, hopens⟩ := hopens
      obtain ⟨hp, hle, -⟩ := amf3Parse_opens hopens 0
      obtain ⟨fuel, a, taken, hout, hall, hbounds⟩ := propLoop_contained hp hle (h p hopens) []
      obtain ⟨-, -, hrun, hwithin⟩ := amf3Parse_opens hopens fuel
      exact ⟨fuel, a, taken, hrun.trans hout, hwithin.mpr hall, hbounds⟩
    · obtain ⟨a, taken, hout, hall, hbounds⟩ := amf3Parse_done (Int.natCast_nonneg sz)
        (not_exists.mp hopens) 0
      exact ⟨0, a, taken, hout, hall, hbounds⟩

/-- The bytes of a buffer, and zeros around it. -/
def bytesOf (bs : List UInt8) (p : ℤ) : UInt8 := if p < 0 then 0 else bs.getD p.toNat 0

/-- The member a is a null, and b, of an unhandled type, leads back to it. -/
def circle : List UInt8 := [0x0a, 0x0b, 1, 3, 0x61, 1, 0, 0, 3, 0x62, 8, 0, 0, 0, 0, 0, 0, 0, 0]

theorem propLoop_circle (fuel : ℕ) (obj : List (CStr × Amf)) :
    (propLoop (bytesOf circle) 19 fuel 3 obj).out = none ∧
      (propLoop (bytesOf circle) 19 fuel 8 obj).out = none := by
  have ha : (amf3Prop (bytesOf circle) 19 3).out = ⟨8 - 3, some ([0x61], .null)⟩ := rfl
  have hb : (amf3Prop (bytesOf circle) 19 8).out = ⟨3 - 8, some ([0x62], .undefined)⟩ := rfl
  induction fuel generalizing obj with
  | zero => exact ⟨rfl, rfl⟩
  | succ fuel ih =>
    constructor
    · rw [(propLoop_moved fuel (by decide) ha (by decide) obj).1]
      exact (ih _).2
    · rw [(propLoop_moved fuel (by decide) hb (by decide) obj).1]
      exact (ih _).1

/-- A null value in the last byte makes the parser take two bytes more than there are, and an
unhandled one keeps it going for ever. -/
theorem amf3_not_contained :
    (¬ Contained (bytesOf [0x0a, 0x0b, 1, 3, 0x61, 1]) 6 ∧
      (amf3Parse (bytesOf [0x0a, 0x0b, 1, 3, 0x61, 1]) 6 1).out =
        some (some (.object [([0x61], .null)]), 8)) ∧
    ∀ fuel, (amf3Parse (bytesOf circle) 19 fuel).out = none := by
  constructor
  · constructor
    · have hopens : Opens (bytesOf [0x0a, 0x0b, 1, 3, 0x61, 1]) 6 3 :=
        ⟨by decide, rfl, ⟨by decide, rfl⟩, by decide, rfl⟩
      exact not_contained hopens (.again ⟨by decide, by decide⟩ .plain (by decide))
    · rfl
  · intro fuel
    have hopens : Opens (bytesOf circle) 19 3 := ⟨by decide, rfl, ⟨by decide, rfl⟩, by decide, rfl⟩
    rw [(amf3Parse_opens hopens fuel).2.2.1]
    exact (propLoop_circle fuel []).1

end Mayhem.Amf3
