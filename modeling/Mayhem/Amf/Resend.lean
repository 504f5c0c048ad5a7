import Mayhem.Amf.Bounds
import Mayhem.Amf.Members
import Mayhem.Amf.Stored

/-! Which of the invokes that the parser returns can be sent again. -/
namespace Mayhem

open Amf Parse

/-! ### Values that can be sent -/

/-- `amf_size` and `amf_to_buf` get through a value. -/
def Amf.Completes (a : Amf) : Prop := (amfSize a).isSome ∧ (amfToBuf a).isSome

/-- `amf_invoke_buf_size` and `amf_invoke_to_buf` get through an invoke. -/
def Invoke.Completes (inv : Invoke) : Prop :=
  (amfInvokeBufSize inv).isSome ∧ (amfInvokeToBuf inv).isSome

/-- `ptr` stays in the buffer where a key is stored. -/
def CStr.Storable (key : CStr) : Prop := 0 ≤ intLen key ∧ intLen key < 2 ^ 31 - 2

/-- No strict arrays, and lengths that are right as an `int`. -/
inductive Amf.Encodes : Amf → Prop
  | number {num} : Encodes (.number num)
  | bool {b} : Encodes (.bool b)
  | string {str} : 0 ≤ intLen (str.getD []) → intLen (str.getD []) ≤ 0xffff → Encodes (.string str)
  | object {elem} : (∀ e ∈ elem, CStr.Storable e.1) → (∀ e ∈ elem, Encodes e.2) →
      Encodes (.object elem)
  | null : Encodes .null
  | undefined : Encodes .undefined

def EncodesMember (e : CStr × Amf) : Prop := CStr.Storable e.1 ∧ e.2.Encodes

theorem encodes_string {str : Option CStr} : (Amf.string str).Encodes ↔
    0 ≤ intLen (str.getD []) ∧ intLen (str.getD []) ≤ 0xffff :=
  ⟨fun h => by cases h with | string hlow hhigh => exact ⟨hlow, hhigh⟩, fun h => .string h.1 h.2⟩

theorem encodes_string_short {str : Option CStr} (h : amfStrlen str < 2 ^ 31) :
    (Amf.string str).Encodes ↔ amfStrlen str ≤ 0xffff := by
  rw [amfStrlen] at h ⊢
  rw [encodes_string, intLen_short h]
  omega

theorem encodes_object {elem : List (CStr × Amf)} : (Amf.object elem).Encodes ↔
    ∀ e ∈ elem, EncodesMember e :=
  ⟨fun h => by cases h with | object hkeys hvals => exact fun e he => ⟨hkeys e he, hvals e he⟩,
    fun h => .object (fun e he => (h e he).1) fun e he => (h e he).2⟩

theorem not_encodes_array {elem : List Amf} : ¬ (Amf.strictArray elem).Encodes := nofun

theorem storable_short {key : CStr} (h : key.length < 2 ^ 31 - 2) : CStr.Storable key := by
  rw [CStr.Storable, intLen_short (by omega)]
  omega

theorem strToBuf_isSome {str : CStr} : (strToBuf str).isSome ↔ CStr.Storable str := by
  rw [strToBuf, CStr.Storable]
  split_ifs with h
  · exact iff_of_true rfl h
  · exact iff_of_false Bool.false_ne_true h

/-- Where no length is too large for an `int`, it is strings that are too long for 16 bits. -/
theorem encodes_iff_sendable {a : Amf} (h : a.Short) : a.Encodes ↔ a.Sendable := by
  induction h with
  | number => exact iff_of_true .number .number
  | bool => exact iff_of_true .bool .bool
  | string hlen => exact (encodes_string_short hlen).trans sendable_string.symm
  | object hkeys _ ih =>
    rw [encodes_object, sendable_object]
    refine forall₂_congr fun e he => ?_
    rw [EncodesMember, ih e he]
    exact and_iff_right (storable_short (hkeys e he))
  | null => exact iff_of_true .null .null
  | undefined => exact iff_of_true .undefined .undefined
  | strictArray => exact iff_of_false not_encodes_array not_sendable_array

theorem Amf.Ok.encodes {a : Amf} (h : a.Ok) : a.Encodes := by
  induction h with
  | number => exact .number
  | bool => exact .bool
  | string hstr =>
    have hlen := sendable_string.mp (Amf.Ok.string hstr).sendable
    exact (encodes_string_short (by omega)).mpr hlen
  | object _ hkeys _ ih => exact .object (fun e he => storable_short (by have := (hkeys e he).short; omega)) ih
  | null => exact .null
  | undefined => exact .undefined

theorem members_complete {elem : List (CStr × Amf)} :
    (membersSize elem).isSome ∧ (membersToBuf elem).isSome ↔
      ∀ e ∈ elem, CStr.Storable e.1 ∧ e.2.Completes := by
  induction elem with
  | nil => exact iff_of_true ⟨rfl, rfl⟩ nofun
  | cons e elem ih =>
    obtain ⟨key, val⟩ := e
    rw [List.forall_mem_cons, ← ih, Completes, membersSize, membersToBuf, ← strToBuf_isSome]
    cases strToBuf key <;> cases amfSize val <;> cases amfToBuf val <;> cases membersSize elem <;>
      cases membersToBuf elem <;> simp

theorem completes_iff (a : Amf) : a.Completes ↔ a.Encodes := by
  induction a using Amf.induct with
  | number num => exact iff_of_true ⟨rfl, rfl⟩ .number
  | bool b => exact iff_of_true ⟨rfl, rfl⟩ .bool
  | string str =>
    have hsome : (amfToBuf (.string str)).isSome ↔
        ¬ 0xffff < intLen (str.getD []) ∧ CStr.Storable (str.getD []) := by
      rw [amfToBuf, ← strToBuf_isSome]
      split_ifs with hlen
      · exact iff_of_false Bool.false_ne_true fun h => h.1 hlen
      · cases strToBuf (str.getD []) <;> simp [hlen]
    rw [Completes, encodes_string, hsome, amfSize, CStr.Storable]
    simp only [Option.isSome_some, true_and]
    omega
  | object elem ih =>
    have hmembers : (Amf.object elem).Completes ↔
        (membersSize elem).isSome ∧ (membersToBuf elem).isSome := by
      rw [Completes, amfSize, amfToBuf]
      cases membersSize elem <;> cases membersToBuf elem <;> simp
    rw [hmembers, members_complete, encodes_object]
    exact forall₂_congr fun e he => and_congr_right fun _ => ih e he
  | null => exact iff_of_true ⟨rfl, rfl⟩ .null
  | undefined => exact iff_of_true ⟨rfl, rfl⟩ .undefined
  | strictArray elem => exact iff_of_false (fun h => by cases h.1) not_encodes_array

theorem invoke_completes_iff (inv : Invoke) :
    inv.Completes ↔ ∀ a, some a ∈ inv → a.Encodes := by
  induction inv with
  | nil => exact iff_of_true ⟨rfl, rfl⟩ nofun
  | cons a inv ih =>
    have hrest : (∀ b, some b ∈ a :: inv → b.Encodes) ↔
        (∀ b ∈ a, b.Encodes) ∧ Invoke.Completes inv := by
      rw [ih]
      cases a <;> simp
    rw [hrest]
    cases a with
    | none =>
      simp only [Invoke.Completes, amfInvokeBufSize, amfInvokeToBuf]
      cases amfInvokeBufSize inv <;> cases amfInvokeToBuf inv <;> simp
    | some a =>
      have ha : (∀ b ∈ some a, b.Encodes) ↔ a.Completes := by
        simp [completes_iff]
      simp only [ha, Invoke.Completes, Amf.Completes, amfInvokeBufSize, amfInvokeToBuf]
      cases amfSize a <;> cases amfToBuf a <;> cases amfInvokeBufSize inv <;>
        cases amfInvokeToBuf inv <;> simp

/-! ### What the parser keeps -/

section Bytes

variable (amf3 : List UInt8 → Option Amf × ℕ) (m : Memory) (fin : ℕ)

/-- Where the name at `p` ends. -/
def nameEnd (p : ℕ) : ℕ := p + 2 + strLen m p

def nameAt (p : ℕ) : CStr := (m.bytes (p + 2) (strLen m p)).takeWhile (· ≠ 0)

/-- Where what is parsed at a place ends, if the buffer is long enough for it. -/
inductive Spans : Phrase → ℕ → ℕ → Prop
  | number {p} : marker (m p) = .number → Spans .element p (p + 9)
  | boolean {p} : marker (m p) = .boolean → Spans .element p (p + 2)
  | string {p} : marker (m p) = .string → Spans .element p (nameEnd m (p + 1))
  | avmplus {p a tmp} : marker (m p) = .avmplus →
      amf3 (m.bytes (p + 1) (fin - (p + 1))) = (some a, tmp) → Spans .element p (p + 1 + tmp)
  | ecmaArray {p q} : marker (m p) = .ecmaArray → Spans .members (p + 5) q → Spans .element p q
  | object {p q} : marker (m p) = .object → Spans .members (p + 1) q → Spans .element p q
  | strictArray {p} : marker (m p) = .strictArray → Spans .element p (p + 5)
  | null {p} : marker (m p) = .null → Spans .element p (p + 1)
  | undefined {p} : marker (m p) = .undefined → Spans .element p (p + 1)
  | unhandled {p} : marker (m p) = .unhandled → Spans .element p fin
  | close {p} : m (nameEnd m p) = AMF_OBJECT_END → Spans .members p (nameEnd m p + 1)
  | last {p q} : m (nameEnd m p) ≠ AMF_OBJECT_END → Spans .element (nameEnd m p) q →
      m q = AMF_OBJECT_END → Spans .members p (q + 1)
  | member {p q r} : m (nameEnd m p) ≠ AMF_OBJECT_END → Spans .element (nameEnd m p) q →
      m q ≠ AMF_OBJECT_END → Spans .members q r → Spans .members p r

/-- One of the members at a place has the name. -/
inductive Names (name : CStr) : ℕ → Prop
  | here {p} : m (nameEnd m p) ≠ AMF_OBJECT_END → nameAt m p = name → Names name p
  | later {p q} : m (nameEnd m p) ≠ AMF_OBJECT_END → Spans amf3 m fin .element (nameEnd m p) q →
      m q ≠ AMF_OBJECT_END → Names name q → Names name p

/-- A strict array, or a value of `amf3_parse` that cannot be sent, is parsed at a place and not
replaced by a later member of the same name. -/
inductive Keeps : Phrase → ℕ → Prop
  | strictArray {p} : marker (m p) = .strictArray → Keeps .element p
  | avmplus {p a tmp} : marker (m p) = .avmplus →
      amf3 (m.bytes (p + 1) (fin - (p + 1))) = (some a, tmp) → ¬ a.Encodes → Keeps .element p
  | ecmaArray {p} : marker (m p) = .ecmaArray → Keeps .members (p + 5) → Keeps .element p
  | object {p} : marker (m p) = .object → Keeps .members (p + 1) → Keeps .element p
  | value {p q} : m (nameEnd m p) ≠ AMF_OBJECT_END → Spans amf3 m fin .element (nameEnd m p) q →
      Keeps .element (nameEnd m p) → (m q ≠ AMF_OBJECT_END → ¬ Names amf3 m fin (nameAt m p) q) →
      Keeps .members p
  | later {p q} : m (nameEnd m p) ≠ AMF_OBJECT_END → Spans amf3 m fin .element (nameEnd m p) q →
      m q ≠ AMF_OBJECT_END → Keeps .members q → Keeps .members p

/-- One of the arguments at a place keeps a value that cannot be sent. -/
inductive ArgsKeep : ℕ → Prop
  | here {p} : p < fin → Keeps amf3 m fin .element p → ArgsKeep p
  | later {p q} : p < fin → Spans amf3 m fin .element p q → ArgsKeep q → ArgsKeep p

end Bytes

/-! ### What is returned -/

theorem strLen_lt (m : Memory) (p : ℕ) : strLen m p < 2 ^ 16 := by
  rw [strLen, ← Nat.shiftLeft_add_eq_or_of_lt (UInt8.toNat_lt _), Nat.shiftLeft_eq]
  have hhi := UInt8.toNat_lt (m p)
  have hlo := UInt8.toNat_lt (m (p + 1))
  omega

theorem storable_nameAt (m : Memory) (p : ℕ) : CStr.Storable (nameAt m p) := by
  have hle := (List.takeWhile_prefix (l := m.bytes (p + 2) (strLen m p)) (· ≠ 0)).length_le
  have hlen := strLen_lt m p
  rw [Memory.bytes_length] at hle
  apply storable_short
  rw [nameAt]
  omega

theorem amfStringf_encodes (m : Memory) (p : ℕ) :
    (Amf.string (amfStringf (m.bytes (p + 2) (strLen m p)))).Encodes := by
  have hlen := strLen_lt m p
  have htext : ((amfStringf (m.bytes (p + 2) (strLen m p))).getD []).length ≤ strLen m p := by
    have hle := (List.takeWhile_prefix (l := m.bytes (p + 2) (strLen m p)) (· ≠ 0)).length_le
    rw [Memory.bytes_length] at hle
    rw [amfStringf]
    split
    · exact Nat.zero_le _
    · exact hle
  rw [encodes_string, intLen_short (by omega)]
  omega

theorem encodes_nameAt {m : Memory} {p : ℕ} {a : Amf} :
    EncodesMember (nameAt m p, a) ↔ a.Encodes :=
  and_iff_right (storable_nameAt m p)

section Runs

variable {amf3 : List UInt8 → Option Amf × ℕ} {m : Memory} {fin fuel p q : ℕ}

theorem element_val {a : Amf} (h : (parseElement amf3 m fin (fuel + 1) p).out = .val (a, q)) :
    p < fin ∧ (parseBody amf3 m fin (parseElement amf3 m fin fuel) (parseMembers amf3 m fin fuel)
      (p + 1) (marker (m p))).out = .val (a, q) := by
  rw [parseElement] at h
  split_ifs at h with hp
  · cases h
  rw [touch_bind_out] at h
  obtain ⟨r, hr, hval⟩ := bind_out_eq_val.mp h
  obtain rfl : r = (a, q) := Outcome.val.inj hval
  exact ⟨Nat.not_le.mp hp, hr⟩

/-- One round of the loop over the members. -/
theorem members_val {obj obj' : List (CStr × Amf)}
    (h : (parseMembers amf3 m fin (fuel + 1) p obj).out = .val (obj', q)) :
    m (nameEnd m p) = AMF_OBJECT_END ∧ obj' = obj ∧ q = nameEnd m p + 1 ∨
      m (nameEnd m p) ≠ AMF_OBJECT_END ∧ ∃ a r,
        (parseElement amf3 m fin fuel (nameEnd m p)).out = .val (a, r) ∧
        (m r = AMF_OBJECT_END ∧ obj' = amfObjectSet (nameAt m p) a obj ∧ q = r + 1 ∨
          m r ≠ AMF_OBJECT_END ∧ (parseMembers amf3 m fin fuel r
            (amfObjectSet (nameAt m p) a obj)).out = .val (obj', q)) := by
  rw [parseMembers] at h
  split_ifs at h
  · cases h
  rw [touch_bind_out] at h
  dsimp only at h
  split_ifs at h
  · cases h
  rw [touch_bind_out, parseMember, touch_bind_out] at h
  split_ifs at h with hend
  · obtain ⟨rfl, rfl⟩ := Prod.mk.inj (Outcome.val.inj h)
    exact .inl ⟨hend, rfl, rfl⟩
  · obtain ⟨⟨a, r⟩, hr, hval⟩ := bind_out_eq_val.mp h
    rw [touch_bind_out] at hval
    dsimp only at hval
    refine .inr ⟨hend, a, r, hr, ?_⟩
    split_ifs at hval with hend'
    · obtain ⟨rfl, rfl⟩ := Prod.mk.inj (Outcome.val.inj hval)
      exact .inl ⟨hend', rfl, rfl⟩
    · exact .inr ⟨hend', hval⟩

theorem spans_element : Spans amf3 m fin .element p q ↔ match marker (m p) with
    | .number => q = p + 9
    | .boolean => q = p + 2
    | .string => q = nameEnd m (p + 1)
    | .avmplus => ∃ a tmp, amf3 (m.bytes (p + 1) (fin - (p + 1))) = (some a, tmp) ∧ q = p + 1 + tmp
    | .ecmaArray => Spans amf3 m fin .members (p + 5) q
    | .object => Spans amf3 m fin .members (p + 1) q
    | .strictArray => q = p + 5
    | .null | .undefined => q = p + 1
    | .unhandled => q = fin := by
  constructor
  · intro h
    cases h <;> simp [*]
  · intro h
    cases hm : marker (m p) <;> simp only [hm] at h
    case number => exact h ▸ .number hm
    case boolean => exact h ▸ .boolean hm
    case string => exact h ▸ .string hm
    case avmplus =>
      obtain ⟨a, tmp, ha, rfl⟩ := h
      exact .avmplus hm ha
    case ecmaArray => exact .ecmaArray hm h
    case object => exact .object hm h
    case strictArray => exact h ▸ .strictArray hm
    case null => exact h ▸ .null hm
    case undefined => exact h ▸ .undefined hm
    case unhandled => exact h ▸ .unhandled hm

theorem keeps_element : Keeps amf3 m fin .element p ↔ match marker (m p) with
    | .avmplus => ∃ a tmp, amf3 (m.bytes (p + 1) (fin - (p + 1))) = (some a, tmp) ∧ ¬ a.Encodes
    | .ecmaArray => Keeps amf3 m fin .members (p + 5)
    | .object => Keeps amf3 m fin .members (p + 1)
    | .strictArray => True
    | _ => False := by
  constructor
  · intro h
    cases h <;> simp [*]
  · intro h
    cases hm : marker (m p) <;> simp only [hm] at h
    case avmplus =>
      obtain ⟨a, tmp, ha, hbad⟩ := h
      exact .avmplus hm ha hbad
    case ecmaArray => exact .ecmaArray hm h
    case object => exact .object hm h
    case strictArray => exact .strictArray hm

theorem spans_members : Spans amf3 m fin .members p q ↔
    m (nameEnd m p) = AMF_OBJECT_END ∧ q = nameEnd m p + 1 ∨
      m (nameEnd m p) ≠ AMF_OBJECT_END ∧ ∃ r, Spans amf3 m fin .element (nameEnd m p) r ∧
        (m r = AMF_OBJECT_END ∧ q = r + 1 ∨ m r ≠ AMF_OBJECT_END ∧ Spans amf3 m fin .members r q) := by
  constructor
  · intro h
    cases h with
    | close hend => exact .inl ⟨hend, rfl⟩
    | last hend hr hend' => exact .inr ⟨hend, _, hr, .inl ⟨hend', rfl⟩⟩
    | member hend hr hend' hrest => exact .inr ⟨hend, _, hr, .inr ⟨hend', hrest⟩⟩
  · rintro (⟨hend, rfl⟩ | ⟨hend, r, hr, ⟨hend', rfl⟩ | ⟨hend', hrest⟩⟩)
    · exact .close hend
    · exact .last hend hr hend'
    · exact .member hend hr hend' hrest

theorem names_iff {name : CStr} : Names amf3 m fin name p ↔ m (nameEnd m p) ≠ AMF_OBJECT_END ∧
    (nameAt m p = name ∨ ∃ r, Spans amf3 m fin .element (nameEnd m p) r ∧
      m r ≠ AMF_OBJECT_END ∧ Names amf3 m fin name r) := by
  constructor
  · intro h
    cases h with
    | here hend hname => exact ⟨hend, .inl hname⟩
    | later hend hr hend' hrest => exact ⟨hend, .inr ⟨_, hr, hend', hrest⟩⟩
  · rintro ⟨hend, hname | ⟨r, hr, hend', hrest⟩⟩
    · exact .here hend hname
    · exact .later hend hr hend' hrest

theorem keeps_members : Keeps amf3 m fin .members p ↔ m (nameEnd m p) ≠ AMF_OBJECT_END ∧
    ∃ r, Spans amf3 m fin .element (nameEnd m p) r ∧
      (Keeps amf3 m fin .element (nameEnd m p) ∧
          (m r ≠ AMF_OBJECT_END → ¬ Names amf3 m fin (nameAt m p) r) ∨
        m r ≠ AMF_OBJECT_END ∧ Keeps amf3 m fin .members r) := by
  constructor
  · intro h
    cases h with
    | value hend hr hval hnew => exact ⟨hend, _, hr, .inl ⟨hval, hnew⟩⟩
    | later hend hr hend' hrest => exact ⟨hend, _, hr, .inr ⟨hend', hrest⟩⟩
  · rintro ⟨hend, r, hr, ⟨hval, hnew⟩ | ⟨hend', hrest⟩⟩
    · exact .value hend hr hval hnew
    · exact .later hend hr hend' hrest

theorem forall_others (obj : List (CStr × Amf)) (name : CStr) (P Q : CStr × Amf → Prop) :
    (∀ e ∈ obj, e.1 ≠ name → P e ∨ Q e) ↔ ∀ e ∈ obj, P e ∨ name = e.1 ∨ Q e := by
  apply forall₂_congr
  intro e _
  rw [eq_comm (a := name)]
  tauto

private theorem survives_iff {rest val named others : Prop} :
    (¬ rest ∧ (¬ val ∨ named) ∧ others) ↔ ¬ (val ∧ ¬ named ∨ rest) ∧ others := by
  tauto

/-- Where a run ended, and when what it returned can be sent. -/
structure Told (amf3 : List UInt8 → Option Amf × ℕ) (m : Memory) (fin : ℕ) (k : Phrase) (p q : ℕ)
    (sendable kept : Prop) : Prop where
  lt : p < q
  spans : ∀ r, Spans amf3 m fin k p r ↔ r = q
  keeps : sendable ↔ ¬ Keeps amf3 m fin k p ∧ kept

theorem element_told {a : Amf}
    (hmembers : ∀ {p obj q}, (parseMembers amf3 m fin fuel p []).out = .val (obj, q) →
      Told amf3 m fin .members p q (∀ e ∈ obj, EncodesMember e) True)
    (h : (parseElement amf3 m fin (fuel + 1) p).out = .val (a, q)) :
    Told amf3 m fin .element p q a.Encodes True := by
  obtain ⟨hp, hbody⟩ := element_val h
  suffices htold : p < q ∧ (∀ r, Spans amf3 m fin .element p r ↔ r = q) ∧
      (a.Encodes ↔ ¬ Keeps amf3 m fin .element p) from
    ⟨htold.1, htold.2.1, htold.2.2.trans (iff_of_eq (and_true _)).symm⟩
  rw [keeps_element]
  simp only [spans_element]
  cases hm : marker (m p) <;> rw [hm, parseBody] at hbody
  case number =>
    split_ifs at hbody
    · cases hbody
    · obtain ⟨rfl, rfl⟩ := Prod.mk.inj (Outcome.val.inj hbody)
      exact ⟨by omega, fun r => Iff.rfl, iff_of_true .number id⟩
  case boolean =>
    split_ifs at hbody
    · cases hbody
    · obtain ⟨rfl, rfl⟩ := Prod.mk.inj (Outcome.val.inj hbody)
      exact ⟨by omega, fun r => Iff.rfl, iff_of_true .bool id⟩
  case string =>
    split_ifs at hbody
    · cases hbody
    rw [touch_bind_out] at hbody
    dsimp only at hbody
    split_ifs at hbody
    · cases hbody
    · obtain ⟨rfl, rfl⟩ := Prod.mk.inj (Outcome.val.inj hbody)
      exact ⟨by omega, fun r => Iff.rfl, iff_of_true (amfStringf_encodes _ _) id⟩
  case avmplus =>
    rw [touch_bind_out] at hbody
    cases ha : amf3 (m.bytes (p + 1) (fin - (p + 1))) with
    | mk b tmp =>
      rw [ha] at hbody
      cases b with
      | none => cases hbody
      | some b =>
        obtain ⟨rfl, rfl⟩ := Prod.mk.inj (Outcome.val.inj hbody)
        exact ⟨by omega, by simp, by simp⟩
  case ecmaArray =>
    split_ifs at hbody
    · cases hbody
    · obtain ⟨⟨obj, r⟩, hr, hval⟩ := bind_out_eq_val.mp hbody
      obtain ⟨rfl, rfl⟩ := Prod.mk.inj (Outcome.val.inj hval)
      obtain ⟨hlt, hspans, hkeeps⟩ := hmembers hr
      exact ⟨by omega, hspans, encodes_object.trans (hkeeps.trans (iff_of_eq (and_true _)))⟩
  case object =>
    obtain ⟨⟨obj, r⟩, hr, hval⟩ := bind_out_eq_val.mp hbody
    obtain ⟨rfl, rfl⟩ := Prod.mk.inj (Outcome.val.inj hval)
    obtain ⟨hlt, hspans, hkeeps⟩ := hmembers hr
    exact ⟨by omega, hspans, encodes_object.trans (hkeeps.trans (iff_of_eq (and_true _)))⟩
  case strictArray =>
    split_ifs at hbody
    · cases hbody
    rw [touch_bind_out] at hbody
    obtain ⟨elem, -, hval⟩ := bind_out_eq_val.mp hbody
    obtain ⟨rfl, rfl⟩ := Prod.mk.inj (Outcome.val.inj hval)
    exact ⟨by omega, fun r => Iff.rfl, iff_of_false not_encodes_array (not_not.mpr trivial)⟩
  case null =>
    obtain ⟨rfl, rfl⟩ := Prod.mk.inj (Outcome.val.inj hbody)
    exact ⟨by omega, fun r => Iff.rfl, iff_of_true .null id⟩
  case undefined =>
    obtain ⟨rfl, rfl⟩ := Prod.mk.inj (Outcome.val.inj hbody)
    exact ⟨by omega, fun r => Iff.rfl, iff_of_true .undefined id⟩
  case unhandled =>
    rw [touch_bind_out] at hbody
    obtain ⟨rfl, rfl⟩ := Prod.mk.inj (Outcome.val.inj hbody)
    exact ⟨hp, fun r => Iff.rfl, iff_of_true .undefined id⟩

/-- A member survives unless a later one has its name. -/
theorem members_told
    (helement : ∀ {p a q}, (parseElement amf3 m fin fuel p).out = .val (a, q) →
      Told amf3 m fin .element p q a.Encodes True)
    (hmembers : ∀ {p obj obj' q}, (obj.map Prod.fst).Nodup →
      (parseMembers amf3 m fin fuel p obj).out = .val (obj', q) →
      Told amf3 m fin .members p q (∀ e ∈ obj', EncodesMember e)
        (∀ e ∈ obj, EncodesMember e ∨ Names amf3 m fin e.1 p))
    {obj obj' : List (CStr × Amf)} (hnodup : (obj.map Prod.fst).Nodup)
    (h : (parseMembers amf3 m fin (fuel + 1) p obj).out = .val (obj', q)) :
    Told amf3 m fin .members p q (∀ e ∈ obj', EncodesMember e)
      (∀ e ∈ obj, EncodesMember e ∨ Names amf3 m fin e.1 p) := by
  have hp : p < nameEnd m p := by
    rw [nameEnd]
    omega
  suffices htold : p < q ∧ (∀ r, Spans amf3 m fin .members p r ↔ r = q) ∧
      ((∀ e ∈ obj', EncodesMember e) ↔ ¬ Keeps amf3 m fin .members p ∧
        ∀ e ∈ obj, EncodesMember e ∨ Names amf3 m fin e.1 p) from ⟨htold.1, htold.2.1, htold.2.2⟩
  simp only [spans_members (p := p), keeps_members (p := p), names_iff (p := p)]
  obtain ⟨hend, rfl, rfl⟩ | ⟨hend, a, s, ha, hrest⟩ := members_val h
  · exact ⟨by omega, by simp [hend], by simp [hend]⟩
  obtain ⟨hs, hspans, hkeeps⟩ := helement ha
  rw [and_true] at hkeeps
  have hset := amfObjectSet_nodup (nameAt m p) a hnodup
  simp only [hend, hspans, exists_eq_left, not_false_eq_true, true_and, false_and, false_or, ne_eq]
  obtain ⟨hend', rfl, rfl⟩ | ⟨hend', hrest⟩ := hrest
  · rw [forall_amfObjectSet (P := EncodesMember) _ _ hnodup, encodes_nameAt, hkeeps]
    simp only [hend', true_and, not_true_eq_false, false_and, or_false, IsEmpty.forall_iff, and_true]
    have hothers := forall_others obj (nameAt m p) (EncodesMember) fun _ => False
    simp only [or_false] at hothers
    exact ⟨by omega, fun _ => trivial, and_congr_right fun _ => hothers⟩
  · obtain ⟨hq, hspans', hkeeps'⟩ := hmembers hset hrest
    rw [hkeeps', forall_amfObjectSet (P := fun e => EncodesMember e ∨ Names amf3 m fin e.1 s) _ _ hnodup,
      encodes_nameAt, hkeeps]
    simp only [hend', hspans', false_and, false_or, not_false_eq_true, true_and, forall_const]
    rw [forall_others obj (nameAt m p) (EncodesMember) fun e => Names amf3 m fin e.1 s]
    exact ⟨by omega, survives_iff⟩

theorem parse_told (fuel : ℕ) :
    (∀ {p a q}, (parseElement amf3 m fin fuel p).out = .val (a, q) →
      Told amf3 m fin .element p q a.Encodes True) ∧
    ∀ {p obj obj' q}, (obj.map Prod.fst).Nodup →
      (parseMembers amf3 m fin fuel p obj).out = .val (obj', q) →
      Told amf3 m fin .members p q (∀ e ∈ obj', EncodesMember e)
        (∀ e ∈ obj, EncodesMember e ∨ Names amf3 m fin e.1 p) := by
  induction fuel with
  | zero =>
    constructor
    · intro p a q h
      cases h
    · intro p obj obj' q _ h
      cases h
  | succ fuel ih =>
    obtain ⟨helement, hmembers⟩ := ih
    constructor
    · intro p a q h
      apply element_told (fun {r obj s} hobj => ?_) h
      obtain ⟨hlt, hspans, hkeeps⟩ := hmembers (show (([] : List (CStr × Amf)).map Prod.fst).Nodup
        from List.nodup_nil) hobj
      exact ⟨hlt, hspans, hkeeps.trans (and_congr_right fun _ => iff_true_intro nofun)⟩
    · intro p obj obj' q hnodup h
      exact members_told helement hmembers hnodup h

theorem argsKeep_iff : ArgsKeep amf3 m fin p ↔ p < fin ∧ (Keeps amf3 m fin .element p ∨
    ∃ q, Spans amf3 m fin .element p q ∧ ArgsKeep amf3 m fin q) := by
  constructor
  · intro h
    cases h with
    | here hp hkeeps => exact ⟨hp, .inl hkeeps⟩
    | later hp hspans hrest => exact ⟨hp, .inr ⟨_, hspans, hrest⟩⟩
  · rintro ⟨hp, hkeeps | ⟨q, hspans, hrest⟩⟩
    · exact .here hp hkeeps
    · exact .later hp hspans hrest

theorem parseArgs_told (fuel : ℕ) {inv inv' : Invoke}
    (h : (parseArgs amf3 m fin fuel p inv).out = .val inv') (hfuel : fin - p ≤ fuel) :
    (∀ a, some a ∈ inv' → a.Encodes) ↔
      ¬ ArgsKeep amf3 m fin p ∧ ∀ a, some a ∈ inv → a.Encodes := by
  induction fuel generalizing p inv with
  | zero =>
    obtain rfl := Outcome.val.inj h
    have hp : ¬ p < fin := by omega
    simp [argsKeep_iff (p := p), hp]
  | succ fuel ih =>
    rw [parseArgs] at h
    split_ifs at h with hp
    · obtain rfl := Outcome.val.inj h
      simp [argsKeep_iff (p := p), Nat.not_lt.mpr hp]
    · obtain ⟨⟨a, q⟩, ha, hrest⟩ := bind_out_eq_val.mp h
      rw [onNull_out] at ha
      obtain ⟨hlt, hspans, hkeeps⟩ := (parse_told fin).1 ha
      have hargs : ArgsKeep amf3 m fin p ↔
          Keeps amf3 m fin .element p ∨ ArgsKeep amf3 m fin q := by
        rw [argsKeep_iff (p := p)]
        simp only [Nat.not_le.mp hp, hspans, exists_eq_left, true_and]
      rw [ih hrest (by dsimp only; omega), hargs]
      simp only [List.mem_append, List.mem_singleton, Option.some.injEq, or_imp, forall_and,
        forall_eq, hkeeps, and_true]
      tauto

end Runs

/-- What has been received can be sent again unless it keeps a strict array, or a value of
`amf3_parse` that `amf_to_buf` does not get through. -/
theorem received_completes (amf3 : List UInt8 → Option Amf × ℕ) (m : Memory) (sz : ℕ) (inv : Invoke)
    (h : (amfInvokeFromBuf amf3 m sz).out = .val inv) :
    (inv.Completes ↔ ∀ a, some a ∈ inv → a.Encodes) ∧ (inv.Completes ↔ ¬ ArgsKeep amf3 m sz 0) := by
  constructor
  · exact invoke_completes_iff inv
  · rw [invoke_completes_iff, parseArgs_told sz h (Nat.sub_le sz 0)]
    exact and_iff_left nofun

/-- The strict array is replaced by a later member of the same name. -/
theorem received_completes_replaced :
    Invoke.Completes [some (.object [([0x61], .null)])] ∧ ¬ ArgsKeep (fun _ => (none, 0))
      (.ofList [3, 0, 1, 0x61, 0x0a, 0, 0, 0, 0, 0, 1, 0x61, 5, 0, 0, 9] fun _ => 0) 16 0 := by
  have hcompletes : Invoke.Completes [some (.object [([0x61], .null)])] := ⟨rfl, rfl⟩
  exact ⟨hcompletes, (received_completes _ _ _ _ rfl).2.mp hcompletes⟩

/-- A strict array is received, and `amf_size` aborts. -/
theorem array_not_sent :
    (amfInvokeFromBuf (fun _ => (none, 0)) (.ofList [0x0a, 0, 0, 0, 0] fun _ => 0) 5).out =
        .val [some (.strictArray [])] ∧
      ¬ Invoke.Completes [some (.strictArray [])] := by
  constructor
  · rfl
  · intro h
    cases h.1

end Mayhem
