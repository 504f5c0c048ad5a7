import Mathlib.Data.List.Nodup
import Mathlib.Logic.Equiv.Basic
import Mayhem.Amf.Amf3Wire
import Mayhem.Amf.Members

/-! Dynamic objects that are sent the standard way, and which of them `amf3_parse` reads back. -/
namespace Mayhem.Amf3

open Logged

inductive Value
  | undefined
  | null
  | false
  | true
  | integer (n : ℕ)
  | string (str : CStr)
deriving DecidableEq, Repr

namespace Value

/-- What a value is read back as. -/
def amf : Value → Amf
  | undefined => .undefined
  | null => .null
  | false => .bool .false
  | true => .bool .true
  | integer n => .number (doubleOfNat n)
  | string str => .string (some str)

def encode : Value → List UInt8
  | undefined => [AMF3_UNDEFINED]
  | null => [AMF3_NULL]
  | false => [AMF3_FALSE]
  | true => [AMF3_TRUE]
  | integer n => AMF3_INTEGER :: encodeU29 n
  | string str => AMF3_STRING :: encodeText str

inductive Ok : Value → Prop
  | undefined : Ok undefined
  | null : Ok null
  | false : Ok false
  | true : Ok true
  | integer {n} : n < 2 ^ 28 → Ok (integer n)
  | string {str} : (∀ c ∈ str, c ≠ 0) → str.length < 2 ^ 28 → Ok (string str)

inductive IsInteger : Value → Prop
  | integer {n} : IsInteger (integer n)

end Value

/-- The properties of an anonymous dynamic object. -/
structure Valid (ps : List (CStr × Value)) : Prop where
  nodup : (ps.map Prod.fst).Nodup
  names : ∀ e ∈ ps, NameOk e.1
  values : ∀ e ∈ ps, e.2.Ok

def encodeProps (ps : List (CStr × Value)) : List UInt8 :=
  ps.flatMap fun e => encodeText e.1 ++ e.2.encode

/-- Marker, traits and an empty class name, and an empty name behind the properties. -/
def encodeObject (ps : List (CStr × Value)) : List UInt8 :=
  [AMF3_OBJECT, 0x0b, 1] ++ (encodeProps ps ++ [1])

def members (ps : List (CStr × Value)) : List (CStr × Amf) := ps.map fun e => (e.1, e.2.amf)

/-- From the encoding of an object, with any bytes around it, the object is read, and just the
encoding is taken. -/
def Decodes (ps : List (CStr × Value)) : Prop :=
  ∀ (m : ℤ → UInt8) (sz : ℕ), Holds m 0 (encodeObject ps) → (encodeObject ps).length ≤ sz →
    ∃ fuel, (amf3Parse m sz fuel).out =
      some (some (.object (members ps)), ((encodeObject ps).length : ℤ))

section Parser

variable {m : ℤ → UInt8} {fin p : ℤ}

/-- The loop ends at some time with the result. -/
def Ends (m : ℤ → UInt8) (fin p : ℤ) (obj : List (CStr × Amf)) (r : Option Amf × ℤ) : Prop :=
  ∃ fuel, (propLoop m fin fuel p obj).out = some r

theorem ends_past (hp : fin ≤ p) {obj : List (CStr × Amf)} {r : Option Amf × ℤ} :
    Ends m fin p obj r ↔ r = (some (.object obj), p) := by
  have hout : ∀ fuel, (propLoop m fin fuel p obj).out = some (some (.object obj), p) := by
    intro fuel
    cases fuel <;> (rw [propLoop, if_pos hp]; rfl)
  constructor
  · rintro ⟨fuel, h⟩
    exact (Option.some.inj ((hout fuel).symm.trans h)).symm
  · rintro rfl
    exact ⟨0, hout 0⟩

theorem ends_zero (hp : p < fin) {obj : List (CStr × Amf)} :
    (propLoop m fin 0 p obj).out = none := by
  rw [propLoop, if_neg (Int.not_le.mpr hp)]
  rfl

theorem ends_end (hp : p < fin) {l : ℤ} (hl : l ≠ 0) (h : (amf3Prop m fin p).out = ⟨l, none⟩)
    {obj : List (CStr × Amf)} {r : Option Amf × ℤ} :
    Ends m fin p obj r ↔ r = (some (.object obj), p + l) := by
  have hout : ∀ fuel, (propLoop m fin (fuel + 1) p obj).out = some (some (.object obj), p + l) := by
    intro fuel
    rw [propLoop, if_neg (Int.not_le.mpr hp), bind_out, bind_out, h]
    dsimp only
    rw [if_neg hl]
    rfl
  constructor
  · rintro ⟨fuel, h⟩
    cases fuel with
    | zero => cases (ends_zero hp).symm.trans h
    | succ fuel => exact (Option.some.inj ((hout fuel).symm.trans h)).symm
  · rintro rfl
    exact ⟨1, hout 0⟩

theorem ends_moved (hp : p < fin) {l : ℤ} (hl : l ≠ 0) {n : CStr} {a : Amf}
    (h : (amf3Prop m fin p).out = ⟨l, some (n, a)⟩) {obj : List (CStr × Amf)}
    {r : Option Amf × ℤ} :
    Ends m fin p obj r ↔ Ends m fin (p + l) (amfObjectSet n a obj) r := by
  have hmove : (amf3Prop m fin p).out = ⟨p + l - p, some (n, a)⟩ := by
    rw [h, Int.add_comm p, Int.add_sub_cancel]
  have hout := fun fuel => (propLoop_moved fuel hp hmove (by omega) obj).1
  constructor
  · rintro ⟨fuel, h⟩
    cases fuel with
    | zero => cases (ends_zero hp).symm.trans h
    | succ fuel => exact ⟨fuel, (hout fuel).symm.trans h⟩
  · rintro ⟨fuel, h⟩
    exact ⟨fuel + 1, (hout fuel).trans h⟩

theorem parse_ends (h : Opens m fin p) {r : Option Amf × ℤ} :
    (∃ fuel, (amf3Parse m fin fuel).out = some r) ↔ Ends m fin p [] r :=
  exists_congr fun fuel => by rw [(amf3Parse_opens h fuel).2.2.1]

theorem opens_object {ps : List (CStr × Value)} (h : Holds m 0 (encodeObject ps))
    (hfin : (encodeObject ps).length ≤ fin) : Opens m fin 3 := by
  obtain ⟨⟨htag, htraits, hname, -⟩, -⟩ := holds_append.mp h
  rw [encodeObject, List.length_append, List.length_append] at hfin
  simp only [List.length_cons, List.length_nil] at hfin
  have hint : (amf3Integer m fin 1).out = (1, 0x0b) :=
    amf3Integer_encode (n := 0x0b) (by decide) ⟨htraits, trivial⟩ (by simp [encodeU29]; omega)
  have hstr : (amf3String m fin 2).out = ⟨1, some 3, 0⟩ :=
    amf3String_encode (show ([] : CStr).length < 2 ^ 28 by decide) ⟨hname, trivial⟩
      (by simp [encodeText, encodeU29]; omega)
  constructor
  · omega
  · exact htag
  · rw [hint]
    exact ⟨by decide, rfl⟩
  · rw [hint]
    show (amf3String m fin 2).out.len ≠ 0
    rw [hstr]
    decide
  · rw [hint]
    show (3 : ℤ) = 2 + (amf3String m fin 2).out.len
    rw [hstr]
    rfl

/-! ### Integers -/

theorem encodeProps_cons (e : CStr × Value) (ps : List (CStr × Value)) :
    encodeProps (e :: ps) = encodeText e.1 ++ e.2.encode ++ encodeProps ps := List.flatMap_cons

/-- Behind properties with integer values the loop goes on where the next property is. -/
theorem ends_integers {ps : List (CStr × Value)} (hnames : ∀ e ∈ ps, NameOk e.1)
    (hvalues : ∀ e ∈ ps, e.2.Ok) (hint : ∀ e ∈ ps, e.2.IsInteger) (hp : 0 ≤ p)
    (h : Holds m p (encodeProps ps)) (hfin : p + (encodeProps ps).length ≤ fin)
    {obj : List (CStr × Amf)} (hnodup : ((obj ++ members ps).map Prod.fst).Nodup)
    {r : Option Amf × ℤ} :
    Ends m fin p obj r ↔ Ends m fin (p + (encodeProps ps).length) (obj ++ members ps) r := by
  induction ps generalizing p obj with
  | nil =>
    have hend : p + (encodeProps []).length = p := Int.add_zero p
    rw [hend, members, List.map_nil, List.append_nil]
  | cons e ps ih =>
    obtain ⟨name, v⟩ := e
    obtain ⟨n, rfl⟩ : ∃ n, v = .integer n := by
      cases hint _ List.mem_cons_self
      exact ⟨_, rfl⟩
    have hn : n < 2 ^ 28 := by
      cases hvalues _ List.mem_cons_self
      assumption
    rw [encodeProps_cons] at h hfin ⊢
    obtain ⟨hprop, hrest⟩ := holds_append.mp h
    rw [List.length_append] at hfin ⊢
    have hpos : 0 < (encodeText name ++ (Value.integer n).encode).length := by
      rw [List.length_append]
      exact Nat.add_pos_left (encodeText_length_pos name) _
    dsimp only at hprop hrest hfin ⊢
    generalize hl : (encodeText name ++ (Value.integer n).encode).length = l at *
    have hout := amf3Prop_integer (hnames _ List.mem_cons_self) hn hp hprop
      (show p + (encodeText name ++ (Value.integer n).encode).length ≤ fin by omega)
    have hnew : name ∉ obj.map Prod.fst := by
      rw [List.map_append] at hnodup
      exact fun hmem => (List.nodup_append.mp hnodup).2.2 name hmem name List.mem_cons_self rfl
    have hend : p + l + (encodeProps ps).length = p + (l + (encodeProps ps).length : ℕ) := by omega
    rw [show (encodeText name ++ AMF3_INTEGER :: encodeU29 n).length = l from hl] at hout
    rw [ends_moved (by omega) (by omega) hout, amfObjectSet_new hnew,
      ih (fun e he => hnames e (List.mem_cons_of_mem _ he))
        (fun e he => hvalues e (List.mem_cons_of_mem _ he))
        (fun e he => hint e (List.mem_cons_of_mem _ he)) (by omega) hrest (by omega)
        (by simpa [members, Value.amf] using hnodup), hend]
    rw [members, members, List.map_cons, List.append_assoc]
    rfl

theorem encodeObject_length (ps : List (CStr × Value)) :
    (encodeObject ps).length = 3 + (encodeProps ps).length + 1 := by
  rw [encodeObject, List.length_append, List.length_append]
  simp only [List.length_cons, List.length_nil]
  omega

theorem holds_object {ps : List (CStr × Value)} (h : Holds m 0 (encodeObject ps)) :
    Holds m 3 (encodeProps ps) ∧ m (3 + (encodeProps ps).length) = 1 := by
  obtain ⟨-, h⟩ := holds_append.mp h
  obtain ⟨hprops, hend, -⟩ := holds_append.mp h
  exact ⟨hprops, hend⟩

/-- An empty name ends the list. -/
theorem ends_terminator (hm : m p = 1) (hp : p < fin) {obj : List (CStr × Amf)}
    {r : Option Amf × ℤ} : Ends m fin p obj r ↔ r = (some (.object obj), p + 1) := by
  have hstr : (amf3String m fin p).out = ⟨1, some (p + 1), 0⟩ :=
    amf3String_encode (show ([] : CStr).length < 2 ^ 28 by decide) ⟨hm, trivial⟩
      (by simp [encodeText, encodeU29]; omega)
  have hprop : (amf3Prop m fin p).out = ⟨1, none⟩ := by
    have hout := amf3Prop_end (m := m) (p := p) (by rw [hstr]; exact Int.one_ne_zero) (by rw [hstr])
    rwa [hstr] at hout
  exact ends_end hp Int.one_ne_zero hprop

end Parser

theorem decodes_of_integers {ps : List (CStr × Value)} (h : Valid ps)
    (hint : ∀ e ∈ ps, e.2.IsInteger) : Decodes ps := by
  intro m sz hm hsz
  obtain ⟨hprops, hend⟩ := holds_object hm
  rw [encodeObject_length] at hsz ⊢
  have hnodup : (([] ++ members ps).map Prod.fst).Nodup := by
    simpa [members, Function.comp_def] using h.nodup
  apply (parse_ends (opens_object hm (by rw [encodeObject_length]; omega))).mpr
  rw [ends_integers h.names h.values hint (by decide) hprops (by omega) hnodup,
    ends_terminator hend (by omega)]
  exact Prod.ext rfl (by dsimp only; omega)

/-! ### Other values -/

/-- The strings of an object are its names with a line break. -/
def NamesOnly (obj : List (CStr × Amf)) : Prop :=
  ∀ n s, (n, Amf.string s) ∈ obj → s = some (n ++ [0x0a])

/-- The loop stops with the object as it is. -/
theorem NamesOnly.stop {obj obj' : List (CStr × Amf)} {t t' : ℤ} (hobj : NamesOnly obj)
    (h : some (some (Amf.object obj), t) = some (some (.object obj'), t')) : NamesOnly obj' := by
  obtain ⟨hval, -⟩ := Prod.mk.inj (Option.some.inj h)
  obtain rfl := Amf.object.inj (Option.some.inj hval)
  exact hobj

theorem propLoop_namesOnly {m : ℤ → UInt8} {fin : ℤ} (fuel : ℕ) {p t : ℤ}
    {obj obj' : List (CStr × Amf)} (hobj : NamesOnly obj)
    (h : (propLoop m fin fuel p obj).out = some (some (.object obj'), t)) : NamesOnly obj' := by
  induction fuel generalizing p obj with
  | zero =>
    rw [propLoop] at h
    split_ifs at h
    · exact hobj.stop h
  | succ fuel ih =>
    rw [propLoop] at h
    split_ifs at h
    · exact hobj.stop h
    rw [bind_out, bind_out] at h
    cases hprop : (amf3Prop m fin p).out with
    | mk l e =>
      rw [hprop] at h
      dsimp only at h
      split_ifs at h
      · cases h
      cases e with
      | none => exact hobj.stop h
      | some e =>
        obtain ⟨name, a⟩ := e
        apply ih _ h
        intro n s hmem
        rcases mem_amfObjectSet hmem with heq | hmem
        · obtain ⟨rfl, rfl⟩ := Prod.mk.inj heq
          exact amf3Prop_string hprop
        · exact hobj n s hmem

/-- A string is read back only if it is its name with a line break. -/
theorem string_of_decodes {ps : List (CStr × Value)} (h : Decodes ps) {name str : CStr}
    (hmem : (name, Value.string str) ∈ ps) : str = name ++ [0x0a] := by
  have hm := holds_bytesOf (encodeObject ps)
  obtain ⟨fuel, hout⟩ := (parse_ends (opens_object hm (Int.le_refl _))).mp (h _ _ hm (Nat.le_refl _))
  have hnames := propLoop_namesOnly fuel (show NamesOnly [] from nofun) hout
  exact Option.some.inj (hnames name (some str) (List.mem_map.mpr ⟨_, hmem, rfl⟩))

theorem Value.cases (v : Value) : v.IsInteger ∨ (∃ str, v = .string str) ∨
    ∃ type a, v.encode = [type] ∧ kind type = .plain a := by
  cases v with
  | undefined => exact .inr (.inr ⟨_, _, rfl, rfl⟩)
  | null => exact .inr (.inr ⟨_, _, rfl, rfl⟩)
  | false => exact .inr (.inr ⟨_, _, rfl, rfl⟩)
  | true => exact .inr (.inr ⟨_, _, rfl, rfl⟩)
  | integer n => exact .inl .integer
  | string str => exact .inr (.inl ⟨str, rfl⟩)

theorem Value.encode_length_pos (v : Value) : 0 < v.encode.length := by
  cases v <;> exact Nat.succ_pos _

theorem encodeProps_append (ps qs : List (CStr × Value)) :
    encodeProps (ps ++ qs) = encodeProps ps ++ encodeProps qs := List.flatMap_append

/-- Behind a value without bytes of its own the parser skips two bytes, the length of the name a
once more. These lead behind the end of the object, or into the next name, where an even byte looks
like the end of the list. -/
theorem not_decodes_plain {pre rest : List (CStr × Value)} {v : Value}
    (hvalid : Valid (pre ++ ([0x61], v) :: rest)) (hpre : ∀ e ∈ pre, e.2.IsInteger)
    {type : UInt8} {a : Amf} (hv : v.encode = [type]) (hkind : kind type = .plain a)
    (hrest : rest = [] ∨ ∃ v' rest', rest = ([0x61, 0x62], v') :: rest') :
    ¬ Decodes (pre ++ ([0x61], v) :: rest) := by
  intro h
  obtain ⟨hnodup, hnames, hvalues⟩ := hvalid
  have hm := holds_bytesOf (encodeObject (pre ++ ([0x61], v) :: rest))
  have hends := (parse_ends (opens_object hm (Int.le_refl _))).mp (h _ _ hm (Nat.le_refl _))
  obtain ⟨hprops, -⟩ := holds_object hm
  have hprefix : (([] ++ members pre).map Prod.fst).Nodup := by
    rw [List.map_append] at hnodup
    simpa [members, Function.comp_def] using (List.nodup_append.mp hnodup).1
  generalize bytesOf (encodeObject (pre ++ ([0x61], v) :: rest)) = m at *
  rw [encodeObject_length, encodeProps_append, encodeProps_cons, hv, List.length_append,
    List.length_append] at hends
  rw [encodeProps_append, encodeProps_cons, hv] at hprops
  obtain ⟨hints, hprops⟩ := holds_append.mp hprops
  obtain ⟨hprop, hprops⟩ := holds_append.mp hprops
  have htext : (encodeText [0x61] ++ [type]).length = 3 := rfl
  dsimp only at hends hprop hprops
  rw [htext] at hends hprops
  rw [ends_integers (fun e he => hnames e (List.mem_append_left _ he))
    (fun e he => hvalues e (List.mem_append_left _ he)) hpre (by decide) hints (by omega) hprefix]
    at hends
  generalize (encodeProps pre).length = k at *
  have hname : NameOk [0x61] := hnames ([0x61], v) (List.mem_append_right _ List.mem_cons_self)
  generalize hfin : ((3 + (k + (3 + (encodeProps rest).length)) + 1 : ℕ) : ℤ) = fin at hends
  have hout : (amf3Prop m fin (3 + k)).out = ⟨5, some ([0x61], a)⟩ :=
    amf3Prop_plain hname (by omega) hkind hprop (by omega)
  rw [ends_moved (by omega) (by decide) hout] at hends
  obtain rfl | ⟨v', rest', rfl⟩ := hrest
  · have hlen : (encodeProps []).length = 0 := rfl
    rw [hlen] at hfin
    rw [ends_past (by omega)] at hends
    have htaken := (Prod.mk.inj hends).2
    omega
  · rw [encodeProps_cons] at hprops hfin
    obtain ⟨hprop', -⟩ := holds_append.mp hprops
    obtain ⟨⟨-, -, hb, -⟩, -⟩ := holds_append.mp hprop'
    have hpos := v'.encode_length_pos
    have htext' : (encodeText [0x61, 0x62]).length = 3 := rfl
    have hp : (3 : ℤ) + k + (3 : ℕ) + 1 + 1 = 3 + k + 5 := by omega
    rw [List.length_append, List.length_append, htext'] at hfin
    rw [hp] at hb
    have hstr := amf3String_reference (n := 0x62) hb (by decide) (by decide)
      (show 3 + (k : ℤ) + 5 < fin by omega)
    have hprop : (amf3Prop m fin (3 + k + 5)).out = ⟨1, none⟩ := by
      have hout : (amf3Prop m fin (3 + k + 5)).out = ⟨(amf3String m fin (3 + k + 5)).out.len, none⟩ :=
        amf3Prop_end (by rw [hstr]; exact Int.one_ne_zero) (by rw [hstr])
      rwa [hstr] at hout
    rw [ends_end (by omega) Int.one_ne_zero hprop] at hends
    have htaken := (Prod.mk.inj hends).2
    omega

/-! ### Names of one's choice -/

/-- The properties with two names exchanged. -/
def rename (a b : CStr) (ps : List (CStr × Value)) : List (CStr × Value) :=
  ps.map fun e => (Equiv.swap a b e.1, e.2)

theorem rename_values (a b : CStr) (ps : List (CStr × Value)) :
    (rename a b ps).map Prod.snd = ps.map Prod.snd := by
  rw [rename, List.map_map]
  rfl

theorem rename_valid {a b : CStr} (ha : NameOk a) (hb : NameOk b) {ps : List (CStr × Value)}
    (h : Valid ps) : Valid (rename a b ps) := by
  have hkeys : (rename a b ps).map Prod.fst = (ps.map Prod.fst).map (Equiv.swap a b) := by
    rw [rename, List.map_map, List.map_map]
    rfl
  constructor
  · rw [hkeys]
    exact h.nodup.map (Equiv.swap a b).injective
  · intro e he
    obtain ⟨e, hmem, rfl⟩ := List.mem_map.mp he
    dsimp only
    rw [Equiv.swap_apply_def]
    split_ifs
    · exact hb
    · exact ha
    · exact h.names e hmem
  · intro e he
    obtain ⟨e, hmem, rfl⟩ := List.mem_map.mp he
    exact h.values e hmem

/-- Any property can have any name. -/
theorem exists_named {pre rest : List (CStr × Value)} {name c : CStr} {v : Value}
    (h : Valid (pre ++ (name, v) :: rest)) (hc : NameOk c) :
    ∃ pre' rest', Valid (pre' ++ (c, v) :: rest') ∧ pre'.map Prod.snd = pre.map Prod.snd ∧
      rest'.map Prod.snd = rest.map Prod.snd := by
  have hname := h.names (name, v) (List.mem_append_right _ List.mem_cons_self)
  have hvalid := rename_valid hname hc h
  rw [rename, List.map_append, List.map_cons, Equiv.swap_apply_left] at hvalid
  exact ⟨_, _, hvalid, rename_values name c pre, rename_values name c rest⟩

/-- So can a property and the next one. -/
theorem exists_named_pair {pre rest : List (CStr × Value)} {name name' c c' : CStr} {v v' : Value}
    (h : Valid (pre ++ (name, v) :: (name', v') :: rest)) (hc : NameOk c) (hc' : NameOk c')
    (hne : c ≠ c') :
    ∃ pre' rest', Valid (pre' ++ (c, v) :: (c', v') :: rest') ∧
      pre'.map Prod.snd = pre.map Prod.snd ∧ rest'.map Prod.snd = rest.map Prod.snd := by
  obtain ⟨pre₁, rest₁, hvalid, hpre, hrest⟩ := exists_named h hc
  cases rest₁ with
  | nil => cases hrest
  | cons e rest₁ =>
    obtain ⟨n, w⟩ := e
    obtain ⟨hw, htail⟩ := List.cons.inj hrest
    dsimp only at hw
    subst hw
    have hn : c ≠ n := by
      have hnodup := hvalid.nodup
      rw [List.map_append, List.map_cons, List.map_cons] at hnodup
      have hnot := (List.nodup_cons.mp (List.nodup_append.mp hnodup).2.1).1
      exact fun heq => hnot (heq ▸ List.mem_cons_self)
    have hmem : (n, w) ∈ pre₁ ++ (c, v) :: (n, w) :: rest₁ :=
      List.mem_append_right _ (List.mem_cons_of_mem _ List.mem_cons_self)
    have hvalid' := rename_valid (hvalid.names (n, w) hmem) hc' hvalid
    rw [rename, List.map_append, List.map_cons, List.map_cons, Equiv.swap_apply_left,
      Equiv.swap_apply_of_ne_of_ne hn hne] at hvalid'
    exact ⟨_, _, hvalid', (rename_values n c' pre₁).trans hpre,
      (rename_values n c' rest₁).trans htail⟩

theorem exists_first {P : Value → Prop} {ps : List (CStr × Value)} (h : ¬ ∀ e ∈ ps, P e.2) :
    ∃ pre name v rest, ps = pre ++ (name, v) :: rest ∧ (∀ e ∈ pre, P e.2) ∧ ¬ P v := by
  induction ps with
  | nil => exact absurd nofun h
  | cons e ps ih =>
    obtain ⟨name, v⟩ := e
    by_cases hv : P v
    · obtain ⟨pre, n, v', rest, heq, hpre, hv'⟩ := ih fun hall => h (List.forall_mem_cons.mpr ⟨hv, hall⟩)
      apply Exists.intro ((name, v) :: pre)
      rw [heq]
      exact ⟨n, v', rest, rfl, List.forall_mem_cons.mpr ⟨hv, hpre⟩, hv'⟩
    · exact ⟨[], name, v, ps, rfl, nofun, hv⟩

theorem exists_name_ne (str : CStr) : ∃ c, NameOk c ∧ str ≠ c ++ [0x0a] := by
  by_cases h : str = [0x61, 0x0a]
  · apply Exists.intro [0x63]
    rw [h]
    exact ⟨⟨by simp, by simp, by simp⟩, by decide⟩
  · exact ⟨[0x61], ⟨by simp, by simp, by simp⟩, h⟩

/-- The objects with certain values are read back whatever their names are just if all the values
are integers. -/
theorem amf3_objects {ps : List (CStr × Value)} (h : Valid ps) :
    (∀ ps', Valid ps' → ps'.map Prod.snd = ps.map Prod.snd → Decodes ps') ↔
      ∀ e ∈ ps, e.2.IsInteger := by
  constructor
  · intro hall
    by_contra hno
    obtain ⟨pre, name, v, rest, rfl, hpre, hv⟩ := exists_first hno
    obtain hint | ⟨str, rfl⟩ | ⟨type, a, henc, hkind⟩ := v.cases
    · exact hv hint
    · obtain ⟨c, hc, hne⟩ := exists_name_ne str
      obtain ⟨pre', rest', hvalid, hpre', hrest'⟩ := exists_named h hc
      have hdec := hall _ hvalid (by
        rw [List.map_append, List.map_append, List.map_cons, List.map_cons, hpre', hrest'])
      exact hne (string_of_decodes hdec (List.mem_append_right _ List.mem_cons_self))
    · have hints : ∀ pre' : List (CStr × Value), pre'.map Prod.snd = pre.map Prod.snd →
          ∀ e ∈ pre', e.2.IsInteger := by
        intro pre' heq
        rw [← List.forall_mem_map (f := Prod.snd) (P := Value.IsInteger), heq, List.forall_mem_map]
        exact hpre
      have ha : NameOk [0x61] := ⟨by simp, by simp, by simp⟩
      cases rest with
      | nil =>
        obtain ⟨pre', rest', hvalid, hpre', hrest'⟩ := exists_named h ha
        obtain rfl := List.map_eq_nil_iff.mp hrest'
        apply not_decodes_plain hvalid (hints pre' hpre') henc hkind (.inl rfl)
        apply hall _ hvalid
        rw [List.map_append, List.map_append, hpre']
        rfl
      | cons e rest =>
        have hab : NameOk [0x61, 0x62] := ⟨by simp, by simp, by simp⟩
        obtain ⟨pre', rest', hvalid, hpre', hrest'⟩ := exists_named_pair h ha hab (by decide)
        apply not_decodes_plain hvalid (hints pre' hpre') henc hkind (.inr ⟨_, _, rfl⟩)
        apply hall _ hvalid
        rw [List.map_append, List.map_append, List.map_cons, List.map_cons, List.map_cons,
          List.map_cons, hpre', hrest']
  · intro hint ps' hvalid heq
    apply decodes_of_integers hvalid
    rw [← List.forall_mem_map (f := Prod.snd) (P := Value.IsInteger), heq, List.forall_mem_map]
    exact hint

theorem valid_one {name : CStr} {v : Value} (hname : NameOk name) (hv : v.Ok) :
    Valid [(name, v)] := by
  constructor
  · exact List.nodup_singleton name
  · exact List.forall_mem_singleton.mpr hname
  · exact List.forall_mem_singleton.mpr hv

/-- Four integers of one, two, three and four bytes. -/
def fourIntegers : List (CStr × Value) :=
  [([0x61], .integer 5), ([0x62, 0x62], .integer 300), ([0x63], .integer 70000),
    ([0x64, 0x20, 0x64], .integer 0xfffffff)]

theorem amf3_objects_lengths : (encodeObject fourIntegers).length = 29 ∧ Decodes fourIntegers := by
  constructor
  · decide
  have hvalid : Valid fourIntegers := by
    constructor
    · decide
    · unfold fourIntegers
      simp only [List.forall_mem_cons]
      exact ⟨⟨by simp, by simp, by simp⟩, ⟨by simp, by simp, by simp⟩,
        ⟨by simp, by simp, by simp⟩, ⟨by simp, by simp, by simp⟩, nofun⟩
    · unfold fourIntegers
      simp only [List.forall_mem_cons]
      exact ⟨.integer (by simp), .integer (by simp), .integer (by simp), .integer (by simp), nofun⟩
  have hint : ∀ e ∈ fourIntegers, e.2.IsInteger := by
    unfold fourIntegers
    simp only [List.forall_mem_cons]
    exact ⟨.integer, .integer, .integer, .integer, nofun⟩
  exact (amf3_objects hvalid).mpr hint _ hvalid rfl

/-- Of the 7 bytes 8 are taken. -/
theorem amf3_null_overrun : Valid [([0x61], .null)] ∧
    encodeObject [([0x61], .null)] = [0x0a, 0x0b, 1, 3, 0x61, 1, 1] ∧
    (amf3Parse (bytesOf [0x0a, 0x0b, 1, 3, 0x61, 1, 1]) 7 1).out =
      some (some (.object [([0x61], .null)]), 8) ∧
    ¬ Decodes [([0x61], .null)] := by
  have hvalid : Valid [([0x61], .null)] := valid_one ⟨by simp, by simp, by simp⟩ .null
  constructor
  · exact hvalid
  constructor
  · rfl
  constructor
  · rfl
  · exact not_decodes_plain (show Valid ([] ++ [([0x61], .null)]) from hvalid) nofun rfl rfl (.inl rfl)

/-- The last byte of the first value and the line break behind it are read as the next name, and
the length of that name as its value. So an object may be read back by chance. -/
theorem decodes_by_chance {z : CStr} (hz : z = List.replicate 62 0x61 ++ [3]) :
    Valid [(z, .string (z ++ [0x0a])), ([0x0a], .true)] ∧
      Decodes [(z, .string (z ++ [0x0a])), ([0x0a], .true)] := by
  have hname : NameOk z := by
    rw [hz]
    constructor <;> simp
  have hname' : NameOk [0x0a] := by
    constructor <;> simp
  constructor
  · constructor
    · rw [hz]
      decide
    · exact List.forall_mem_cons.mpr ⟨hname, List.forall_mem_singleton.mpr hname'⟩
    · have hstr : (Value.string (z ++ [0x0a])).Ok := by
        rw [hz]
        exact .string (by simp) (by simp)
      exact List.forall_mem_cons.mpr ⟨hstr, List.forall_mem_singleton.mpr .true⟩
  intro m sz hm hsz
  obtain ⟨hprops, hend⟩ := holds_object hm
  have hsplit : encodeProps [(z, .string (z ++ [0x0a])), ([0x0a], .true)] =
      (encodeText z ++ [AMF3_STRING]) ++ (encodeU29 129 ++ List.replicate 62 0x61) ++
        (encodeText [0x0a] ++ [AMF3_TRUE]) ++ [0x0a, AMF3_TRUE] := by
    rw [hz]
    decide +kernel
  have htext : (encodeText z).length = 64 := by
    rw [hz]
    rfl
  have hfirst : (encodeText z ++ [AMF3_STRING]).length = 65 := by
    rw [List.length_append, htext]
    rfl
  have hgap : (encodeU29 129 ++ List.replicate 62 0x61).length = 64 := rfl
  have hlen : (encodeProps [(z, .string (z ++ [0x0a])), ([0x0a], .true)]).length = 134 := by
    rw [hsplit, List.length_append, List.length_append, List.length_append, hfirst, hgap]
    rfl
  rw [encodeObject_length, hlen] at hsz ⊢
  have hend : m (3 + 129 + 5) = 1 := by
    rwa [hlen] at hend
  rw [hsplit] at hprops
  obtain ⟨hprops, -⟩ := holds_append.mp hprops
  obtain ⟨hprops, hsecond⟩ := holds_append.mp hprops
  rw [List.length_append, hfirst, hgap] at hsecond
  have hout : (amf3Prop m sz 3).out = ⟨129, some (z, .string (some (z ++ [0x0a])))⟩ := by
    rw [amf3Prop_text hname (by decide) rfl (holds_append.mp hprops).1 (by rw [hfirst]; omega), htext]
    rfl
  have hout' : (amf3Prop m sz 132).out = ⟨5, some ([0x0a], .bool true)⟩ := by
    have hin : (132 : ℤ) + (encodeText [0x0a] ++ [AMF3_TRUE]).length ≤ sz := by
      rw [show (encodeText [0x0a] ++ [AMF3_TRUE]).length = 3 from rfl]
      omega
    exact amf3Prop_plain hname' (by decide) rfl hsecond hin
  apply (parse_ends (opens_object hm (by rw [encodeObject_length, hlen]; omega))).mpr
  rw [ends_moved (by omega) (by decide) hout,
    ends_moved (show (3 : ℤ) + 129 < sz by omega) (by decide) hout', ends_terminator hend (by omega)]
  rw [hz]
  rfl

end Mayhem.Amf3
