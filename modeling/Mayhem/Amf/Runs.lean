import Mayhem.Amf.Parse

/-! Runs of the AMF parser, with respect to a buffer that ends at `fin`. -/
namespace Mayhem

namespace Parse

variable {α β : Type} {fin : ℕ} {p : Parse α} {f : α → Parse β}

/-- A run that fails no assertion, reads no byte from `fin` on and reports the bytes taken
of every call within the size it was given. -/
structure Within (fin : ℕ) (p : Parse α) : Prop where
  reach : p.reach ≤ fin
  taken : ∀ c ∈ p.calls, c.1 < c.2 ∧ c.2 ≤ fin
  asserts : p.out ≠ .abort

theorem bind_def : (p >>= f) = p.bind f := rfl

theorem bind_out : (p >>= f).out = match p.out with
    | .val a => (f a).out
    | .null => .null
    | .abort => .abort := by
  rw [bind_def, bind]
  cases p.out <;> rfl

theorem bind_out_val {a : α} (h : p.out = .val a) : (p >>= f).out = (f a).out := by
  rw [bind_out, h]

theorem bind_out_null (h : p.out = .null) : (p >>= f).out = .null := by
  rw [bind_out, h]

theorem bind_out_eq_val {b : β} :
    (p >>= f).out = .val b ↔ ∃ a, p.out = .val a ∧ (f a).out = .val b := by
  rw [bind_out]
  cases p.out <;> simp

theorem touch_bind_out {q n : ℕ} {g : Unit → Parse β} : (touch q n >>= g).out = (g ()).out :=
  bind_out_val rfl

theorem reach_le_bind : p.reach ≤ (p >>= f).reach := by
  rw [bind_def, bind]
  cases p.out with
  | val a => exact Nat.le_max_left _ _
  | null => exact le_rfl
  | abort => exact le_rfl

theorem reach_le_bind_val {a : α} (h : p.out = .val a) : (f a).reach ≤ (p >>= f).reach := by
  rw [bind_def, bind, h]
  exact Nat.le_max_right _ _

theorem within_bind : (p >>= f).Within fin ↔ p.Within fin ∧ ∀ a, p.out = .val a → (f a).Within fin := by
  rw [bind_def, bind]
  cases h : p.out with
  | val a =>
    constructor
    · rintro ⟨hreach, htaken, hasserts⟩
      rw [List.forall_mem_append] at htaken
      refine ⟨⟨(Nat.le_max_left _ _).trans hreach, htaken.1, by simp [h]⟩, ?_⟩
      rintro _ ⟨⟩
      exact ⟨(Nat.le_max_right _ _).trans hreach, htaken.2, hasserts⟩
    · rintro ⟨hp, hf⟩
      have hfa := hf a rfl
      exact ⟨Nat.max_le.mpr ⟨hp.reach, hfa.reach⟩,
        List.forall_mem_append.mpr ⟨hp.taken, hfa.taken⟩, hfa.asserts⟩
  | null =>
    constructor
    · rintro ⟨hreach, htaken, -⟩
      exact ⟨⟨hreach, htaken, by simp [h]⟩, nofun⟩
    · rintro ⟨⟨hreach, htaken, -⟩, -⟩
      exact ⟨hreach, htaken, nofun⟩
  | abort =>
    constructor
    · rintro ⟨-, -, hasserts⟩
      exact absurd rfl hasserts
    · rintro ⟨⟨-, -, hasserts⟩, -⟩
      exact absurd h hasserts

@[simp] theorem onNull_out (p : Parse α) (q : Parse Unit) : (p.onNull q).out = p.out := by
  unfold onNull
  cases h : p.out <;> simp [h]

theorem reach_le_onNull (p : Parse α) (q : Parse Unit) : p.reach ≤ (p.onNull q).reach := by
  unfold onNull
  cases p.out with
  | val a => exact le_rfl
  | null => exact Nat.le_max_left _ _
  | abort => exact le_rfl

theorem reach_le_onNull_null {q : Parse Unit} (h : p.out = .null) :
    q.reach ≤ (p.onNull q).reach := by
  unfold onNull
  rw [h]
  exact Nat.le_max_right _ _

theorem within_onNull {q n : ℕ} :
    (p.onNull (touch q n)).Within fin ↔ p.Within fin ∧ (p.out = .null → q + n ≤ fin) := by
  unfold onNull
  cases h : p.out with
  | val a => exact ⟨fun hw => ⟨hw, nofun⟩, And.left⟩
  | abort => exact ⟨fun hw => absurd h hw.asserts, fun hw => absurd h hw.1.asserts⟩
  | null =>
    constructor
    · rintro ⟨hreach, htaken, -⟩
      rw [List.forall_mem_append] at htaken
      exact ⟨⟨(Nat.le_max_left _ _).trans hreach, htaken.1, by simp [h]⟩,
        fun _ => (Nat.le_max_right _ _).trans hreach⟩
    · rintro ⟨hp, hq⟩
      exact ⟨Nat.max_le.mpr ⟨hp.reach, hq rfl⟩,
        List.forall_mem_append.mpr ⟨hp.taken, nofun⟩, nofun⟩

@[simp] theorem within_pure (a : α) : (pure a : Parse α).Within fin := ⟨Nat.zero_le _, nofun, nofun⟩

@[simp] theorem within_null : (null : Parse α).Within fin := ⟨Nat.zero_le _, nofun, nofun⟩

@[simp] theorem not_within_abort : ¬ (abort : Parse α).Within fin := fun h => h.asserts rfl

theorem within_call {a : α} {buf q : ℕ} :
    ({ calls := [(buf, q)], out := .val a } : Parse α).Within fin ↔ buf < q ∧ q ≤ fin :=
  ⟨fun h => h.taken _ List.mem_cons_self, fun h => ⟨Nat.zero_le _, by simpa using h, nofun⟩⟩

theorem within_touch_bind {q n : ℕ} {g : Unit → Parse β} :
    (touch q n >>= g).Within fin ↔ q + n ≤ fin ∧ (g ()).Within fin := by
  rw [within_bind]
  constructor
  · rintro ⟨ht, hg⟩
    exact ⟨ht.reach, hg () rfl⟩
  · rintro ⟨hle, hg⟩
    exact ⟨⟨hle, nofun, nofun⟩, fun _ _ => hg⟩

/-- The same outcome, and both or neither within the buffer. -/
structure Alike (fin : ℕ) (p q : Parse α) : Prop where
  out : p.out = q.out
  within : p.Within fin ↔ q.Within fin

theorem Alike.trans {p q r : Parse α} (h : Alike fin p q) (h' : Alike fin q r) : Alike fin p r :=
  ⟨h.out.trans h'.out, h.within.trans h'.within⟩

theorem touch_alike {q n : ℕ} (h : q + n ≤ fin) (g : Unit → Parse β) :
    Alike fin (touch q n >>= g) (g ()) :=
  ⟨touch_bind_out, within_touch_bind.trans (and_iff_right h)⟩

theorem bind_alike {a : α} (hp : p.Within fin) (h : p.out = .val a) (f : α → Parse β) :
    Alike fin (p >>= f) (f a) := by
  refine ⟨bind_out_val h, within_bind.trans ⟨fun hf => hf.2 a h, fun hf => ⟨hp, ?_⟩⟩⟩
  rintro _ h'
  obtain rfl := Outcome.val.inj (h.symm.trans h')
  exact hf

/-- A run that takes everything up to `q`. -/
structure Yields (fin q : ℕ) (p : Parse (α × ℕ)) : Prop where
  within : p.Within fin
  out : ∃ a, p.out = .val (a, q)

structure Refuses (fin : ℕ) (p : Parse α) : Prop where
  within : p.Within fin
  out : p.out = .null

theorem yields_pure (a : α) (q : ℕ) : (pure (a, q) : Parse (α × ℕ)).Yields fin q :=
  ⟨within_pure _, a, rfl⟩

theorem refuses_null : (null : Parse α).Refuses fin := ⟨within_null, rfl⟩

theorem Refuses.bind (h : p.Refuses fin) (f : α → Parse β) : (p >>= f).Refuses fin :=
  ⟨within_bind.mpr ⟨h.within, fun a ha => by simp [h.out] at ha⟩, bind_out_null h.out⟩

theorem Yields.bind {p : Parse (α × ℕ)} {q : ℕ} (h : p.Yields fin q) :
    ∃ a, ∀ f : α × ℕ → Parse β, Alike fin (p >>= f) (f (a, q)) :=
  h.out.imp fun _ ha => bind_alike h.within ha

theorem Yields.onNull {p : Parse (α × ℕ)} {q : ℕ} (h : p.Yields fin q) (r : Parse Unit) :
    (p.onNull r).Yields fin q := by
  obtain ⟨hw, a, ha⟩ := h
  have hp : p.onNull r = p := by rw [Parse.onNull, ha]
  rw [hp]
  exact ⟨hw, a, ha⟩

theorem Alike.yields {p p' : Parse (α × ℕ)} {q : ℕ} (h : Alike fin p p') (hp : p'.Yields fin q) :
    p.Yields fin q :=
  ⟨h.within.mpr hp.within, hp.out.imp fun _ ha => h.out.trans ha⟩

theorem Alike.refuses {p' : Parse α} (h : Alike fin p p') (hp : p'.Refuses fin) : p.Refuses fin :=
  ⟨h.within.mpr hp.within, h.out.trans hp.out⟩

end Parse

end Mayhem
