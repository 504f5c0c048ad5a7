import Mayhem.Amf.Members
import Mayhem.Amf.Runs
import Mayhem.Amf.Stored

/-! Round trips of `amf_invoke_to_buf` and `amf_invoke_from_buf`. -/
namespace Mayhem

open Amf

/-! ### The parser on an encoding -/

theorem type_ne_end (a : Amf) : a.type ≠ AMF_OBJECT_END := by
  cases a <;> (rw [Amf.type]; decide)

/-- `amf_strlen` of a string is 0. -/
def EmptyString (a : Amf) : Prop := ∃ str, a = .string str ∧ amfStrlen str = 0

/-- The parser reads `a` back from wherever it is stored, unless it is an empty string at the
end of the buffer. -/
def Reads (a : Amf) : Prop :=
  ∀ amf3 m fin fuel p q, Stored m p q (amfToBuf a) → q ≤ fin → (q = fin → ¬ EmptyString a) →
    fin - p ≤ fuel → (parseElement amf3 m fin fuel p).out = .val (a.readBack, q)

section Parser

open Parse

variable {amf3 : List UInt8 → Option Amf × ℕ} {m : Memory} {fin fuel p q : ℕ}

variable (amf3) in
theorem element_out {a : Amf} (h : Stored m p q (amfToBuf a)) (hq : q ≤ fin) (hfuel : fin - p ≤ fuel) :
    ∃ fuel', fin - (p + 1) ≤ fuel' ∧ (parseElement amf3 m fin fuel p).out =
      (parseBody amf3 m fin (parseElement amf3 m fin fuel') (parseMembers amf3 m fin fuel') (p + 1)
        (marker a.type)).out := by
  have hlt := h.lt
  obtain ⟨fuel', rfl⟩ := Nat.exists_eq_succ_of_ne_zero (show fuel ≠ 0 by omega)
  refine ⟨fuel', by omega, ?_⟩
  rw [parseElement, if_neg (by omega), touch_bind_out, h.split.1, bind_out]
  cases (parseBody amf3 m fin _ _ (p + 1) (marker a.type)).out <;> rfl

variable (amf3) in
theorem members_out {key : CStr} (hkey : CStr.Ok key) (obj : List (CStr × Amf))
    (hbytes : m.bytes p (encodeStr key).length = encodeStr key) (hroom : p + 2 < fin)
    (hle : p + 2 + key.length ≤ fin) (hfuel : fin - p ≤ fuel) :
    ∃ fuel', fin - (p + 2) ≤ fuel' ∧ (parseMembers amf3 m fin fuel p obj).out =
      (parseMember m (parseElement amf3 m fin fuel') (parseMembers amf3 m fin fuel') key obj
        (p + 2 + key.length)).out := by
  obtain ⟨fuel', rfl⟩ := Nat.exists_eq_succ_of_ne_zero (show fuel ≠ 0 by omega)
  obtain ⟨hlen, htext⟩ := strLen_encode hkey.short hbytes
  refine ⟨fuel', by omega, ?_⟩
  rw [parseMembers, if_neg (Nat.not_le.mpr hroom), touch_bind_out, hlen]
  dsimp only
  rw [if_neg (Nat.not_lt.mpr hle), touch_bind_out, htext, takeWhile_noNul hkey]

variable (amf3) in
/-- One round of the loop over the members. -/
theorem member_out {key : CStr} {val : Amf} {elem : List (CStr × Amf)} (obj : List (CStr × Amf))
    (hkey : CStr.Ok key) (hval : Reads val) (h : Stored m p q (membersToBuf ((key, val) :: elem))) (hq : q < fin)
    (hfuel : fin - p ≤ fuel) :
    ∃ r fuel', fin - r ≤ fuel' ∧ Stored m r q (membersToBuf elem) ∧
      (parseMembers amf3 m fin fuel p obj).out =
        if m r = AMF_OBJECT_END then .val (amfObjectSet key val.readBack obj, r + 1)
        else (parseMembers amf3 m fin fuel' r (amfObjectSet key val.readBack obj)).out := by
  obtain ⟨hbytes, r, hstored, hrest⟩ := h.member hkey
  have htype := hstored.split.1
  have hlt := hstored.lt
  have hle := hrest.le
  obtain ⟨fuel', hfuel', hout⟩ := members_out amf3 hkey obj hbytes (by omega) (by omega) hfuel
  refine ⟨r, fuel', by omega, hrest, ?_⟩
  have hread := hval amf3 m fin fuel' _ r hstored (by omega) (fun h => by omega) (by omega)
  rw [hout, parseMember, touch_bind_out, htype, if_neg (type_ne_end val), bind_out_val hread]
  dsimp only
  rw [touch_bind_out]
  split_ifs <;> rfl

variable (amf3) in
theorem members_readBack {elem : List (CStr × Amf)} (hkeys : ∀ e ∈ elem, CStr.Ok e.1)
    (hvals : ∀ e ∈ elem, Reads e.2) (htail : ∀ e ∈ elem.tail, ¬ EndLike e.1) :
    ∀ obj {p fuel}, ((obj ++ elem).map Prod.fst).Nodup → Stored m p q (membersToBuf elem) →
      m.bytes q 3 = [0, 0, AMF_OBJECT_END] → q + 3 ≤ fin → fin - p ≤ fuel →
      (parseMembers amf3 m fin fuel p obj).out = .val (obj ++ membersReadBack elem, q + 3) := by
  induction elem with
  | nil =>
    rintro obj p fuel - ⟨l, hl, -, rfl⟩ hend hq hfuel
    obtain rfl := Option.some.inj hl
    obtain ⟨hbytes, hend⟩ := (Memory.bytes_append_iff m p (encodeStr []) [AMF_OBJECT_END]).mp hend
    obtain ⟨fuel', -, hout⟩ := members_out amf3 (show CStr.Ok [] from ⟨nofun, by decide⟩) obj
      hbytes (show p + 2 < fin by simp at hq; omega) (by simp at hq ⊢; omega) hfuel
    have hend : m (p + 2 + ([] : CStr).length) = AMF_OBJECT_END := (List.cons.inj hend).1
    rw [hout, parseMember, touch_bind_out, if_pos hend, membersReadBack, List.append_nil]
    rfl
  | cons e elem ih =>
    obtain ⟨key, val⟩ := e
    intro obj p fuel hnodup h hend hq hfuel
    obtain ⟨r, fuel', hfuel', hrest, hout⟩ := member_out amf3 obj
      (hkeys _ List.mem_cons_self) (hvals _ List.mem_cons_self) h (by omega) hfuel
    have hnew : key ∉ obj.map Prod.fst := by
      rw [List.map_append, List.map_cons] at hnodup
      exact fun hmem => (List.nodup_append.mp hnodup).2.2 key hmem key List.mem_cons_self rfl
    have hnext : m r ≠ AMF_OBJECT_END := by
      cases elem with
      | nil =>
        obtain ⟨l, hl, -, rfl⟩ := hrest
        obtain rfl := Option.some.inj hl
        rw [show m r = 0 from (List.cons.inj hend).1]
        decide
      | cons e elem =>
        rw [Ne, hrest.member_end (hkeys _ (by simp))]
        exact htail e List.mem_cons_self
    rw [hout, if_neg hnext, amfObjectSet_new hnew,
      ih (fun e he => hkeys e (List.mem_cons_of_mem _ he)) (fun e he => hvals e (List.mem_cons_of_mem _ he))
        (fun e he => htail e (List.mem_of_mem_tail he)) _ (by simpa using hnodup) hrest hend hq hfuel']
    rw [membersReadBack, List.append_assoc, List.singleton_append]

theorem string_out {str : Option CStr} (hstr : ∀ s ∈ str, CStr.Ok s)
    (h : Stored m p q (amfToBuf (.string str))) (hq : q ≤ fin)
    (hend : q = fin → ¬ EmptyString (.string str)) (hfuel : fin - p ≤ fuel) :
    (parseElement amf3 m fin fuel p).out = .val ((Amf.string str).readBack, q) := by
  obtain ⟨fuel', -, hout⟩ := element_out amf3 h hq hfuel
  have hlen : amfStrlen str ≤ 0xffff := sendable_string.mp (Amf.Ok.string hstr).sendable
  obtain ⟨hm, rfl⟩ := h.payload (amfToBuf_string hlen)
  have hsize : (encodeStr (str.getD [])).length = 2 + (str.getD []).length := by
    simp [encodeStr]
    omega
  obtain ⟨hslen, htext⟩ := strLen_encode hlen hm
  rw [hsize] at hq hend ⊢
  have hroom : p + 3 < fin := by
    by_contra hroom
    exact hend (by omega) ⟨str, rfl, show (str.getD []).length = 0 by omega⟩
  rw [hout, show marker (Amf.string str).type = .string from rfl, parseBody,
    if_neg (by omega), touch_bind_out, hslen]
  dsimp only
  rw [if_neg (by omega), touch_bind_out, htext, string_readBack hstr, Nat.add_assoc (p + 1)]
  rfl

theorem object_out {elem : List (CStr × Amf)} (hnodup : (elem.map Prod.fst).Nodup)
    (hkeys : ∀ e ∈ elem, CStr.Ok e.1) (hvals : ∀ e ∈ elem, Reads e.2)
    (htail : ∀ e ∈ elem.tail, ¬ EndLike e.1) (h : Stored m p q (amfToBuf (.object elem)))
    (hq : q ≤ fin) (hfuel : fin - p ≤ fuel) :
    (parseElement amf3 m fin fuel p).out = .val ((Amf.object elem).readBack, q) := by
  obtain ⟨fuel', hfuel', hout⟩ := element_out amf3 h hq hfuel
  obtain ⟨r, hstored, hend, rfl⟩ := h.object
  have hmembers := members_readBack amf3 hkeys hvals htail [] hnodup hstored hend
    hq hfuel'
  rw [hout, show marker (Amf.object elem).type = .object from rfl, parseBody, bind_out_val hmembers]
  rfl

/-- Values that the parser cannot mistake are read back from wherever they are stored. -/
theorem reads_of_clean {a : Amf} (hok : a.Ok) (hclean : a.Clean) : Reads a := by
  induction hok with
  | @number num =>
    intro amf3 m fin fuel p q h hq _ hfuel
    obtain ⟨fuel', -, hout⟩ := element_out amf3 h hq hfuel
    obtain ⟨hm, rfl⟩ := h.payload rfl
    have hle : ¬ fin < p + 1 + 8 := Nat.not_lt.mpr hq
    rw [hout, show marker (Amf.number num).type = .number from rfl, parseBody, if_neg hle,
      touch_bind_out, be64ToDouble_encode hm]
    rfl
  | @bool b =>
    intro amf3 m fin fuel p q h hq _ hfuel
    obtain ⟨fuel', -, hout⟩ := element_out amf3 h hq hfuel
    obtain ⟨hm, rfl⟩ := h.payload rfl
    rw [hout, show marker (Amf.bool b).type = .boolean from rfl, parseBody,
      if_neg (Nat.not_le.mpr hq), touch_bind_out, (List.cons.inj hm).1]
    cases b <;> rfl
  | string hstr => exact fun amf3 m fin fuel p q h hq hend hfuel => string_out hstr h hq hend hfuel
  | object hnodup hkeys _ ih =>
    cases hclean with
    | object htail hvals =>
      exact fun amf3 m fin fuel p q h hq _ hfuel =>
        object_out hnodup hkeys (fun e he => ih e he (hvals e he)) htail h hq hfuel
  | null =>
    intro amf3 m fin fuel p q h hq _ hfuel
    obtain ⟨fuel', -, hout⟩ := element_out amf3 h hq hfuel
    obtain ⟨-, rfl⟩ := h.payload rfl
    exact hout
  | undefined =>
    intro amf3 m fin fuel p q h hq _ hfuel
    obtain ⟨fuel', -, hout⟩ := element_out amf3 h hq hfuel
    obtain ⟨-, rfl⟩ := h.payload rfl
    exact hout

/-! ### What does not come back -/

variable (amf3) in
/-- An object ends in front of the first key that looks like an object end. -/
theorem members_truncated {elem : List (CStr × Amf)} (hkeys : ∀ e ∈ elem, CStr.Ok e.1)
    (hvals : ∀ e ∈ elem, Reads e.2) (hbad : ∃ e ∈ elem.tail, EndLike e.1) :
    ∀ obj {p fuel}, Stored m p q (membersToBuf elem) → q < fin → fin - p ≤ fuel →
      ∃ obj' r, (parseMembers amf3 m fin fuel p obj).out = .val (obj', r) ∧
        obj'.length < obj.length + elem.length := by
  induction elem with
  | nil => obtain ⟨e, he, -⟩ := hbad; cases he
  | cons e elem ih =>
    obtain ⟨key, val⟩ := e
    intro obj p fuel h hq hfuel
    obtain ⟨r, fuel', hfuel', hrest, hout⟩ := member_out amf3 obj
      (hkeys _ List.mem_cons_self) (hvals _ List.mem_cons_self) h hq hfuel
    have hlen := amfObjectSet_length key val.readBack obj
    have hkeys' := fun e he => hkeys e (List.mem_cons_of_mem _ he)
    cases elem with
    | nil => obtain ⟨e, he, -⟩ := hbad; cases he
    | cons e elem =>
      by_cases hnext : EndLike e.1
      · rw [if_pos ((hrest.member_end (hkeys' _ List.mem_cons_self)).mpr hnext)] at hout
        exact ⟨_, _, hout, by simp only [List.length_cons]; omega⟩
      · rw [if_neg (mt (hrest.member_end (hkeys' _ List.mem_cons_self)).mp hnext)] at hout
        have hbad' : ∃ e' ∈ (e :: elem).tail, EndLike e'.1 := by
          obtain ⟨e', he', hend⟩ := hbad
          rcases List.mem_cons.mp he' with rfl | he'
          · exact absurd hend hnext
          · exact ⟨e', he', hend⟩
        obtain ⟨obj', r', hout', hlt⟩ := ih hkeys' (fun e he => hvals e (List.mem_cons_of_mem _ he))
          hbad' (amfObjectSet key val.readBack obj) hrest hq hfuel'
        exact ⟨obj', r', hout.trans hout', by simp only [List.length_cons] at hlt ⊢; omega⟩

variable (amf3) in
theorem object_truncated {elem : List (CStr × Amf)} (hkeys : ∀ e ∈ elem, CStr.Ok e.1)
    (hvals : ∀ e ∈ elem, Reads e.2) (hbad : ∃ e ∈ elem.tail, EndLike e.1)
    (h : Stored m p q (amfToBuf (.object elem))) (hq : q ≤ fin) (hfuel : fin - p ≤ fuel) :
    ∃ obj r, (parseElement amf3 m fin fuel p).out = .val (.object obj, r) ∧
      obj.length < elem.length := by
  obtain ⟨fuel', hfuel', hout⟩ := element_out amf3 h hq hfuel
  obtain ⟨r, hstored, -, rfl⟩ := h.object
  obtain ⟨obj, r', hmembers, hlt⟩ := members_truncated amf3 hkeys hvals hbad []
    hstored (show r < fin by omega) hfuel'
  refine ⟨obj, r', ?_, by simpa using hlt⟩
  rw [hout, show marker (Amf.object elem).type = .object from rfl, parseBody, bind_out_val hmembers]
  rfl

variable (amf3) in
/-- `ptr + 2 >= end` refuses an empty string at the end of the buffer. -/
theorem emptyString_out {a : Amf} (ha : EmptyString a) (h : Stored m p fin (amfToBuf a))
    (hfuel : fin - p ≤ fuel) : (parseElement amf3 m fin fuel p).out = .null := by
  obtain ⟨str, rfl, hlen⟩ := ha
  obtain ⟨fuel', -, hout⟩ := element_out amf3 h le_rfl hfuel
  obtain ⟨l, hl, -, hfin⟩ := h
  rw [amfToBuf_string (by omega), List.eq_nil_of_length_eq_zero hlen] at hl
  obtain rfl := Option.some.inj hl
  rw [hout, show marker (Amf.string str).type = .string from rfl, parseBody,
    if_pos (by simpa [encodeStr] using hfin.le)]
  rfl

/-! ### Arguments -/

theorem parseArgs_extends (fuel : ℕ) : ∀ {p : ℕ} {inv inv' : Invoke},
    (parseArgs amf3 m fin fuel p inv).out = .val inv' → inv <+: inv' := by
  induction fuel with
  | zero =>
    intro p inv inv' h
    obtain rfl := Outcome.val.inj h
    exact List.prefix_rfl
  | succ fuel ih =>
    intro p inv inv' h
    rw [parseArgs] at h
    split_ifs at h
    · obtain rfl := Outcome.val.inj h
      exact List.prefix_rfl
    · rw [bind_out] at h
      split at h
      · exact (List.prefix_append _ _).trans (ih h)
      · cases h
      · cases h

theorem parseArgs_null (inv : Invoke) (h : (parseElement amf3 m fin fin p).out = .null)
    (hp : p < fin) (hfuel : fin - p ≤ fuel) : (parseArgs amf3 m fin fuel p inv).out = .null := by
  obtain ⟨fuel', rfl⟩ := Nat.exists_eq_succ_of_ne_zero (show fuel ≠ 0 by omega)
  rw [parseArgs, if_neg (Nat.not_le.mpr hp), bind_out_null ((onNull_out _ _).trans h)]

theorem parseArgs_val (inv : Invoke) {a : Amf} {r : ℕ}
    (h : (parseElement amf3 m fin fin p).out = .val (a, r)) (hp : p < fin) (hfuel : fin - p ≤ fuel) :
    ∃ fuel', fin - (p + 1) ≤ fuel' ∧ (parseArgs amf3 m fin fuel p inv).out =
      (parseArgs amf3 m fin fuel' r (inv ++ [some a])).out := by
  obtain ⟨fuel', rfl⟩ := Nat.exists_eq_succ_of_ne_zero (show fuel ≠ 0 by omega)
  refine ⟨fuel', by omega, ?_⟩
  rw [parseArgs, if_neg (Nat.not_le.mpr hp), bind_out_val ((onNull_out _ _).trans h)]

end Parser

namespace Invoke

def Ok (inv : Invoke) : Prop := ∀ a, some a ∈ inv → a.Ok

/-- No key is taken for an object end and the last argument is no empty string. -/
structure Clean (inv : Invoke) : Prop where
  args : ∀ a, some a ∈ inv → a.Clean
  last : ∀ a, inv.getLast? = some (some a) → ¬ EmptyString a

/-- The values of the members of arguments are clean. -/
def Shallow (inv : Invoke) : Prop :=
  ∀ elem, some (.object elem) ∈ inv → ∀ e ∈ elem, e.2.Clean

theorem Clean.shallow {inv : Invoke} (h : inv.Clean) : inv.Shallow := by
  intro elem helem
  cases h.args _ helem with
  | object _ hvals => exact hvals

theorem clean_cons {a : Option Amf} {inv : Invoke} : Clean (a :: inv) ↔
    (∀ b, a = some b → b.Clean ∧ (inv = [] → ¬ EmptyString b)) ∧ inv.Clean := by
  constructor
  · rintro ⟨hargs, hlast⟩
    refine ⟨?_, fun b hb => hargs b (List.mem_cons_of_mem _ hb), fun b hb => hlast b ?_⟩
    · rintro b rfl
      exact ⟨hargs b List.mem_cons_self, fun hinv => hlast b (by rw [hinv]; rfl)⟩
    · cases inv with
      | nil => cases hb
      | cons c inv => rwa [List.getLast?_cons_cons]
  · rintro ⟨ha, hargs, hlast⟩
    refine ⟨fun b hb => ?_, fun b hb => ?_⟩
    · rcases List.mem_cons.mp hb with hb | hb
      · exact (ha b hb.symm).1
      · exact hargs b hb
    · cases inv with
      | nil => exact (ha b (Option.some.inj hb)).2 rfl
      | cons c inv => exact hlast b (by rwa [List.getLast?_cons_cons] at hb)

end Invoke

theorem clean_or_bad {a : Amf} (hok : a.Ok)
    (hshallow : ∀ elem, a = .object elem → ∀ e ∈ elem, e.2.Clean) :
    a.Clean ∨ ∃ elem, a = .object elem ∧ ∃ e ∈ elem.tail, EndLike e.1 := by
  cases hok with
  | @object elem _ _ =>
    by_cases hbad : ∃ e ∈ elem.tail, EndLike e.1
    · exact .inr ⟨elem, rfl, hbad⟩
    · exact .inl (.object (fun e he hend => hbad ⟨e, he, hend⟩) (hshallow elem rfl))
  | number => exact .inl .number
  | bool => exact .inl .bool
  | string => exact .inl .string
  | null => exact .inl .null
  | undefined => exact .inl .undefined

theorem Stored.invoke_nil {m : Memory} {p : ℕ} {inv : Invoke} (h : Stored m p p (amfInvokeToBuf inv)) :
    inv = [] := by
  match inv, h with
  | [], _ => rfl
  | none :: inv, h => exact absurd h.absent.2.le (by omega)
  | some a :: inv, h =>
    obtain ⟨r, ha, hinv⟩ := h.arg
    have hlt := ha.lt
    exact absurd hinv.le (by omega)

section Args

variable {amf3 : List UInt8 → Option Amf × ℕ} {m : Memory} {fin p : ℕ}

variable (amf3) in
/-- One argument that is read back. -/
theorem parseArgs_readBack {a : Amf} {r fuel : ℕ} (acc : Invoke) (ha : Reads a)
    (h : Stored m p r (amfToBuf a)) (hr : r ≤ fin) (hend : r = fin → ¬ EmptyString a)
    (hfuel : fin - p ≤ fuel) :
    ∃ fuel', fin - r ≤ fuel' ∧ (parseArgs amf3 m fin fuel p acc).out =
      (parseArgs amf3 m fin fuel' r (acc ++ [some a.readBack])).out := by
  have hlt := h.lt
  obtain ⟨fuel', hfuel', hout⟩ := parseArgs_val acc
    (ha amf3 m fin fin p r h hr hend (Nat.sub_le _ _)) (by omega) hfuel
  exact ⟨fuel', by omega, hout⟩

theorem parseArgs_out_iff {inv : Invoke} : ∀ acc {p fuel}, inv.Ok → inv.Shallow →
    Stored m p fin (amfInvokeToBuf inv) → fin - p ≤ fuel →
    ((parseArgs amf3 m fin fuel p acc).out = .val (acc ++ inv.readBack) ↔ inv.Clean) := by
  induction inv with
  | nil =>
    rintro acc p fuel - - ⟨l, hl, -, hfin⟩ hfuel
    obtain rfl := Option.some.inj hl
    obtain rfl : fin = p := hfin
    refine iff_of_true ?_ ⟨nofun, nofun⟩
    rw [Invoke.readBack, List.map_nil, List.append_nil]
    cases fuel with
    | zero => rfl
    | succ fuel =>
      rw [parseArgs, if_pos le_rfl]
      rfl
  | cons a inv ih =>
    intro acc p fuel hok hshallow h hfuel
    have hok' : Invoke.Ok inv := fun a ha => hok a (List.mem_cons_of_mem _ ha)
    have hshallow' : Invoke.Shallow inv := fun elem helem => hshallow elem (List.mem_cons_of_mem _ helem)
    rw [Invoke.clean_cons]
    cases a with
    | none =>
      obtain ⟨hnull, hrest⟩ := h.absent
      have hstored : Stored m p (p + 1) (amfToBuf .null) :=
        ⟨[AMF_NULL], rfl, by rw [← hnull]; rfl, rfl⟩
      obtain ⟨fuel', hfuel', hout⟩ := parseArgs_readBack amf3 acc
        (reads_of_clean .null .null) hstored hrest.le (fun _ ⟨_, hstr, _⟩ => by cases hstr) hfuel
      rw [hout, and_iff_right nofun, ← ih _ hok' hshallow' hrest hfuel', List.append_assoc]
      rfl
    | some a =>
      obtain ⟨r, hstored, hrest⟩ := h.arg
      have hlt := hstored.lt
      have hle := hrest.le
      have hoka := hok a List.mem_cons_self
      rcases clean_or_bad hoka (by rintro elem rfl; exact hshallow elem List.mem_cons_self) with
        hclean | ⟨elem, rfl, hbad⟩
      · by_cases hlast : r = fin ∧ EmptyString a
        · obtain ⟨rfl, hempty⟩ := hlast
          have hnull := parseArgs_null acc (emptyString_out amf3 hempty hstored
            (Nat.sub_le r p)) hlt hfuel
          refine iff_of_false (by rw [hnull]; nofun) fun hclean => ?_
          exact (hclean.1 a rfl).2 hrest.invoke_nil hempty
        obtain ⟨fuel', hfuel', hout⟩ := parseArgs_readBack amf3 acc
          (reads_of_clean hoka hclean) hstored hle (fun hr hempty => hlast ⟨hr, hempty⟩) hfuel
        rw [hout, and_iff_right, ← ih _ hok' hshallow' hrest hfuel', List.append_assoc]
        · rfl
        rintro b ⟨⟩
        refine ⟨hclean, fun hinv hempty => hlast ⟨?_, hempty⟩⟩
        subst hinv
        obtain ⟨l, hl, -, hfin⟩ := hrest
        obtain rfl := Option.some.inj hl
        exact hfin.symm
      · have hvals := hshallow elem List.mem_cons_self
        refine iff_of_false (fun hout => ?_) fun hclean => ?_
        · cases hoka with
          | object _ hkeys hoks =>
            obtain ⟨obj, r', helem, hlt'⟩ := object_truncated amf3 hkeys
              (fun e he => reads_of_clean (hoks e he) (hvals e he)) hbad hstored hle (Nat.sub_le fin p)
            obtain ⟨fuel', -, hrun⟩ := parseArgs_val acc helem (by omega) hfuel
            have hprefix := parseArgs_extends _ (hrun.symm.trans hout)
            rw [List.prefix_append_right_inj] at hprefix
            obtain ⟨hobj, -⟩ := List.cons_prefix_cons.mp hprefix
            have hmembers : obj = membersReadBack elem := by
              simpa [Amf.readBack] using hobj
            rw [hmembers, membersReadBack_eq_map, List.length_map] at hlt'
            exact lt_irrefl _ hlt'
        · obtain ⟨e, he, hend⟩ := hbad
          cases (hclean.1 _ rfl).1 with
          | object htail _ => exact htail e he hend

end Args

/-- `inv` comes back from the bytes it is written as, whatever lies behind them. -/
def Invoke.RoundTrips (inv : Invoke) : Prop :=
  ∃ bs, amfInvokeToBuf inv = some bs ∧ amfInvokeBufSize inv = some bs.length ∧
    ∀ (amf3 : List UInt8 → Option Amf × ℕ) (m : Memory), m.bytes 0 bs.length = bs →
      (amfInvokeFromBuf amf3 m bs.length).out = .val inv.readBack

theorem amf_roundTrips (inv : Invoke) (hok : inv.Ok) :
    (inv.Clean → inv.RoundTrips) ∧ (inv.Shallow → inv.RoundTrips → inv.Clean) := by
  constructor
  · intro hclean
    obtain ⟨bs, hbs, hsize⟩ := exists_invoke (fun a ha => (hok a ha).sendable)
      fun a ha => (hok a ha).shortKeys
    refine ⟨bs, hbs, hsize, fun amf3 m hm => ?_⟩
    have hstored : Stored m 0 bs.length (amfInvokeToBuf inv) := ⟨bs, hbs, hm, (Nat.zero_add _).symm⟩
    exact (parseArgs_out_iff [] hok hclean.shallow hstored (Nat.sub_le _ _)).mpr hclean
  · rintro hshallow ⟨bs, hbs, -, hrun⟩
    let m : Memory := .ofList bs fun _ => 0
    have hm : m.bytes 0 bs.length = bs := Memory.bytes_ofList bs _
    have hstored : Stored m 0 bs.length (amfInvokeToBuf inv) := ⟨bs, hbs, hm, (Nat.zero_add _).symm⟩
    exact (parseArgs_out_iff [] hok hshallow hstored (Nat.sub_le _ _)).mp
      (hrun (fun _ => (none, 0)) m hm)

/-- An empty string, an absent slot and an object that ends in an empty string. -/
theorem amf_roundTrips_object :
    Invoke.RoundTrips [some (.string none), none, some (.object [([0x62], .bool true), ([0x61], .string none)])] := by
  refine (amf_roundTrips _ ?_).1 ⟨?_, ?_⟩
  · simp only [Invoke.Ok, List.mem_cons, Option.some.injEq, List.not_mem_nil]
    rintro a (rfl | ⟨⟨⟩⟩ | rfl | ⟨⟨⟩⟩)
    · exact .string nofun
    · have hkeys : CStr.Ok [0x62] ∧ CStr.Ok [0x61] :=
        ⟨⟨by simp, by decide⟩, ⟨by simp, by decide⟩⟩
      refine .object (by decide) (by simpa using hkeys) ?_
      simp only [List.forall_mem_cons, List.not_mem_nil]
      exact ⟨.bool, .string nofun, nofun⟩
  · simp only [List.mem_cons, Option.some.injEq, List.not_mem_nil]
    rintro a (rfl | ⟨⟨⟩⟩ | rfl | ⟨⟨⟩⟩)
    · exact .string
    · refine .object (by decide) ?_
      simp only [List.forall_mem_cons, List.not_mem_nil]
      exact ⟨.bool, .string, nofun⟩
  · rintro a ha ⟨str, rfl, -⟩
    cases ha

/-- The encoding 02 00 00 of an empty string is refused. -/
theorem not_roundTrips_emptyString :
    Invoke.Ok [some (.string none)] ∧ ¬ Invoke.RoundTrips [some (.string none)] := by
  constructor
  · rintro a ha
    obtain rfl := Option.some.inj (List.mem_singleton.mp ha)
    exact .string nofun
  · rintro ⟨bs, hbs, -, hrun⟩
    obtain rfl := Option.some.inj hbs
    cases hrun (fun _ => (none, 0)) (.ofList [AMF_STRING, 0, 0] fun _ => 0) rfl

end Mayhem
