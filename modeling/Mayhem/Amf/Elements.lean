import Mayhem.Amf.RoundTrip

/-! Single values with something behind them: strict arrays, of which the parser reads the
first element over and over, and objects, which end where a byte looks like their end. -/
namespace Mayhem

open Amf Parse

/-- `parse_element` on the bytes `bs`, with `after` behind them in memory. -/
def parseBytes (amf3 : List UInt8 → Option Amf × ℕ) (bs : List UInt8) (after : ℕ → UInt8) :
    Parse (Amf × ℕ) :=
  parseElement amf3 (.ofList bs after) bs.length bs.length 0

/-- From an encoding with further bytes behind it `a` is read, and just the encoding is
taken. -/
def ReadsBehind (amf3 : List UInt8 → Option Amf × ℕ) (bs : Option (List UInt8)) (a : Amf) : Prop :=
  ∃ l, bs = some l ∧ ∀ suffix after, suffix ≠ [] →
    (parseBytes amf3 (l ++ suffix) after).out = .val (a, l.length)

theorem stored_front (l suffix : List UInt8) (after : ℕ → UInt8) :
    Stored (.ofList (l ++ suffix) after) 0 l.length (some l) :=
  ⟨l, rfl, Memory.bytes_ofList_append l suffix after, (Nat.zero_add _).symm⟩

/-! ### Strict arrays -/

/-- The encoding of a strict array, with the elements as `amf_to_buf` writes them. -/
def arrayToBuf (es : List Amf) : Option (List UInt8) := do
  let bss ← es.mapM amfToBuf
  return AMF_STRICT_ARRAY :: (encodeInt32 (UInt32.ofNat es.length) ++ bss.flatten)

/-- The parser returns the elements of a strict array, and takes all of them. -/
def ReadsArray (amf3 : List UInt8 → Option Amf × ℕ) (es : List Amf) : Prop :=
  ReadsBehind amf3 (arrayToBuf es) (.strictArray (es.map readBack))

theorem arrayToBuf_cons {e : Amf} {es : List Amf} {l : List UInt8}
    (h : arrayToBuf (e :: es) = some l) :
    ∃ bs rest, amfToBuf e = some bs ∧
      l = AMF_STRICT_ARRAY :: (encodeInt32 (UInt32.ofNat (e :: es).length) ++ (bs ++ rest)) := by
  obtain ⟨bss, hbss, hl⟩ := Option.bind_eq_some_iff.mp h
  rw [List.mapM_cons] at hbss
  obtain ⟨bs, hbs, hbss⟩ := Option.bind_eq_some_iff.mp hbss
  obtain ⟨rest, -, hbss⟩ := Option.bind_eq_some_iff.mp hbss
  obtain rfl := Option.some.inj hbss
  obtain rfl := Option.some.inj hl
  exact ⟨bs, rest.flatten, hbs, rfl⟩

theorem amfToBuf_length_pos {a : Amf} {bs : List UInt8} (h : amfToBuf a = some bs) :
    0 < bs.length := by
  have hstored := stored_front bs [] fun _ => 0
  rw [← h] at hstored
  exact hstored.lt

/-- An array that is not empty is longer than its head. -/
theorem arrayToBuf_cons_length {e : Amf} {es : List Amf} {l : List UInt8}
    (h : arrayToBuf (e :: es) = some l) : 5 < l.length := by
  obtain ⟨bs, rest, hbs, rfl⟩ := arrayToBuf_cons h
  have hpos := amfToBuf_length_pos hbs
  simp only [List.length_cons, List.length_append, encodeInt32_length]
  omega

section Parser

variable {amf3 : List UInt8 → Option Amf × ℕ} {m : Memory} {fin fuel p : ℕ}

theorem parseArray_replicate {element : Parse (Amf × ℕ)} {a : Amf} {q : ℕ}
    (h : element.out = .val (a, q)) (n : ℕ) :
    (parseArray element n).out = .val (List.replicate n a) := by
  induction n with
  | zero => rfl
  | succ n ih =>
    rw [parseArray, bind_out_val h, bind_out_val ih]
    rfl

theorem strictArray_out (hmark : m p = AMF_STRICT_ARRAY) (hfin : p + 5 ≤ fin) :
    (parseElement amf3 m fin (fuel + 1) p).out =
      match (parseArray (parseElement amf3 m fin fuel (p + 5)) (decodeInt32 m (p + 1)).toNat).out with
      | .val elem => .val (.strictArray elem, p + 5)
      | .null => .null
      | .abort => .abort := by
  have hp : ¬ fin ≤ p := by omega
  have hhead : ¬ fin < p + 1 + 4 := by omega
  rw [parseElement, if_neg hp, touch_bind_out, hmark,
    show marker AMF_STRICT_ARRAY = .strictArray from rfl, parseBody, if_neg hhead, bind_out,
    touch_bind_out, bind_out]
  cases (parseArray (parseElement amf3 m fin fuel (p + 5)) (decodeInt32 m (p + 1)).toNat).out <;> rfl

end Parser

theorem stored_array {es : List Amf} {l : List UInt8} (h : arrayToBuf es = some l)
    (suffix : List UInt8) (after : ℕ → UInt8) :
    Memory.ofList (l ++ suffix) after 0 = AMF_STRICT_ARRAY ∧
      decodeInt32 (.ofList (l ++ suffix) after) 1 = UInt32.ofNat es.length ∧ 5 ≤ l.length := by
  obtain ⟨bss, -, hl⟩ := Option.bind_eq_some_iff.mp h
  obtain rfl := Option.some.inj hl
  have hm := Memory.bytes_ofList_append (AMF_STRICT_ARRAY ::
    (encodeInt32 (UInt32.ofNat es.length) ++ bss.flatten)) suffix after
  obtain ⟨hmark, hm⟩ := List.cons.inj hm
  obtain ⟨hcount, -⟩ := (Memory.bytes_append_iff _ 1 (encodeInt32 _) _).mp hm
  exact ⟨hmark, decodeInt32_encode hcount, by simp⟩

/-- The elements are all parsed from where the first one lies, and only the head of the array is
taken. -/
theorem array_out (amf3 : List UInt8 → Option Amf × ℕ) {es : List Amf} (hes : es.length < 2 ^ 32)
    {l : List UInt8} (h : arrayToBuf es = some l) (suffix : List UInt8) (after : ℕ → UInt8) :
    ∃ fuel, (l ++ suffix).length - 5 ≤ fuel ∧ (parseBytes amf3 (l ++ suffix) after).out =
      match (parseArray (parseElement amf3 (.ofList (l ++ suffix) after) (l ++ suffix).length fuel 5)
        es.length).out with
      | .val elem => .val (.strictArray elem, 5)
      | .null => .null
      | .abort => .abort := by
  obtain ⟨hmark, hcount, hlen⟩ := stored_array h suffix after
  have hfin : 0 + 5 ≤ (l ++ suffix).length := by
    rw [List.length_append]
    omega
  have hn : (UInt32.ofNat es.length).toNat = es.length := UInt32.toNat_ofNat_of_lt' hes
  rw [parseBytes]
  generalize (l ++ suffix).length = fin at hfin
  obtain ⟨fuel, rfl⟩ := Nat.exists_eq_succ_of_ne_zero (show fin ≠ 0 by omega)
  refine ⟨fuel, by omega, ?_⟩
  rw [strictArray_out hmark hfin, hcount, hn]

theorem readsArray_nil (amf3 : List UInt8 → Option Amf × ℕ) : ReadsArray amf3 [] := by
  refine ⟨[AMF_STRICT_ARRAY, 0, 0, 0, 0], rfl, fun suffix after _ => ?_⟩
  obtain ⟨fuel, -, hout⟩ := array_out amf3 (show ([] : List Amf).length < 2 ^ 32 by decide) rfl
    suffix after
  exact hout

theorem not_readsArray_cons (amf3 : List UInt8 → Option Amf × ℕ) {e : Amf} {es : List Amf}
    (hes : (e :: es).length < 2 ^ 32) : ¬ ReadsArray amf3 (e :: es) := by
  rintro ⟨l, hl, hreads⟩
  have hlen := arrayToBuf_cons_length hl
  obtain ⟨fuel, -, hout⟩ := array_out amf3 hes hl [0] fun _ => 0
  rw [hreads [0] (fun _ => 0) (List.cons_ne_nil _ _)] at hout
  split at hout
  · have htaken := (Prod.mk.inj (Outcome.val.inj hout)).2
    omega
  · cases hout
  · cases hout

/-- Where the first element can be read, the parser returns copies of it. -/
theorem array_copies (amf3 : List UInt8 → Option Amf × ℕ) {e : Amf} {es : List Amf} (he : Reads e)
    (hes : (e :: es).length < 2 ^ 32) {l : List UInt8} (hl : arrayToBuf (e :: es) = some l)
    {suffix : List UInt8} (hsuffix : suffix ≠ []) (after : ℕ → UInt8) :
    (parseBytes amf3 (l ++ suffix) after).out =
      .val (.strictArray (List.replicate (e :: es).length e.readBack), 5) := by
  obtain ⟨fuel, hfuel, hout⟩ := array_out amf3 hes hl suffix after
  obtain ⟨bs, rest, hbs, rfl⟩ := arrayToBuf_cons hl
  have hpos := List.length_pos_iff.mpr hsuffix
  have hm := Memory.bytes_ofList_append
    ((AMF_STRICT_ARRAY :: encodeInt32 (UInt32.ofNat (e :: es).length)) ++ (bs ++ rest)) suffix after
  obtain ⟨-, hm⟩ := (Memory.bytes_append_iff _ 0 _ (bs ++ rest)).mp hm
  obtain ⟨hm, -⟩ := (Memory.bytes_append_iff _ _ bs rest).mp hm
  have hstored : Stored (.ofList (AMF_STRICT_ARRAY :: (encodeInt32 (UInt32.ofNat (e :: es).length) ++
      (bs ++ rest)) ++ suffix) after) 5 (5 + bs.length) (amfToBuf e) := ⟨bs, hbs, hm, rfl⟩
  have hfin : 5 + bs.length < (AMF_STRICT_ARRAY :: (encodeInt32 (UInt32.ofNat (e :: es).length) ++
      (bs ++ rest)) ++ suffix).length := by
    simp only [List.length_append, List.length_cons, encodeInt32_length]
    omega
  have hread := he amf3 _ _ fuel 5 _ hstored hfin.le (fun h => absurd h hfin.ne) hfuel
  rw [parseArray_replicate hread] at hout
  exact hout

/-- An array is read back only if it is empty. -/
theorem array_reads (amf3 : List UInt8 → Option Amf × ℕ) (es : List Amf) (hok : ∀ e ∈ es, e.Ok)
    (hes : es.length < 2 ^ 32) :
    (∃ l, arrayToBuf es = some l) ∧ (ReadsArray amf3 es ↔ es = []) := by
  constructor
  · obtain ⟨bss, hbss⟩ : ∃ bss, es.mapM amfToBuf = some bss := by
      induction es with
      | nil => exact ⟨[], rfl⟩
      | cons e es ih =>
        obtain ⟨bs, hbs, -⟩ := exists_encoding (hok e List.mem_cons_self).sendable
          (hok e List.mem_cons_self).shortKeys
        obtain ⟨bss, hbss⟩ := ih (fun e he => hok e (List.mem_cons_of_mem _ he))
          (Nat.lt_of_succ_lt hes)
        exact ⟨bs :: bss, by rw [List.mapM_cons, hbs, hbss]; rfl⟩
    exact ⟨_, by rw [arrayToBuf, hbss]; rfl⟩
  · cases es with
    | nil => exact iff_of_true (readsArray_nil amf3) rfl
    | cons e es => exact iff_of_false (not_readsArray_cons amf3 hes) (List.cons_ne_nil e es)

theorem array_reads_nil : ReadsArray (fun _ => (none, 0)) [] :=
  (array_reads (fun _ => (none, 0)) [] nofun (by decide)).2.mpr rfl

/-- The array of true and false comes back as that of true and true, with 5 of its 9 bytes
taken. -/
theorem array_unread :
    (∀ e ∈ [Amf.bool true, .bool false], e.Ok) ∧
      arrayToBuf [.bool true, .bool false] = some [0x0a, 0, 0, 0, 2, 1, 1, 1, 0] ∧
      (parseBytes (fun _ => (none, 0)) [0x0a, 0, 0, 0, 2, 1, 1, 1, 0, 5] fun _ => 0).out =
        .val (.strictArray [.bool true, .bool true], 5) ∧
      ¬ ReadsArray (fun _ => (none, 0)) [.bool true, .bool false] := by
  constructor
  · intro e he
    simp only [List.mem_cons, List.not_mem_nil, or_false] at he
    rcases he with rfl | rfl
    · exact .bool
    · exact .bool
  constructor
  · rfl
  constructor
  · rfl
  · exact not_readsArray_cons _ (by decide)

/-! ### Objects -/

/-- `b` is `a` or lies at some depth inside it. -/
inductive Inside (b : Amf) : Amf → Prop
  | refl : Inside b b
  | member {elem e} : e ∈ elem → Inside b e.2 → Inside b (.object elem)

/-- `a` is read back from in front of any further bytes. -/
def ReadsValue (amf3 : List UInt8 → Option Amf × ℕ) (a : Amf) : Prop :=
  ReadsBehind amf3 (amfToBuf a) a.readBack

theorem Inside.ok {a b : Amf} (h : Inside b a) (hok : a.Ok) : b.Ok := by
  induction h with
  | refl => exact hok
  | member he _ ih =>
    cases hok with
    | object _ _ hvals => exact ih (hvals _ he)

theorem Inside.clean {a b : Amf} (h : Inside b a) (hclean : a.Clean) : b.Clean := by
  induction h with
  | refl => exact hclean
  | member he _ ih =>
    cases hclean with
    | object _ hvals => exact ih (hvals _ he)

theorem readsValue_of_clean (amf3 : List UInt8 → Option Amf × ℕ) {a : Amf} (hok : a.Ok)
    (hclean : a.Clean) : ReadsValue amf3 a := by
  obtain ⟨bs, hbs, -⟩ := exists_encoding hok.sendable hok.shortKeys
  refine ⟨bs, hbs, fun suffix after hsuffix => ?_⟩
  have hstored := stored_front bs suffix after
  have hpos := List.length_pos_iff.mpr hsuffix
  have hfin : bs.length < (bs ++ suffix).length := by
    rw [List.length_append]
    omega
  rw [← hbs] at hstored
  exact reads_of_clean hok hclean amf3 _ _ _ 0 _ hstored hfin.le (fun h => absurd h hfin.ne)
    (Nat.sub_le _ _)

/-- An object with clean members that is read back is clean: otherwise the last members are
missing. -/
theorem tail_of_reads (amf3 : List UInt8 → Option Amf × ℕ) {elem : List (CStr × Amf)}
    (hkeys : ∀ e ∈ elem, CStr.Ok e.1) (hvals : ∀ e ∈ elem, Reads e.2)
    (hreads : ReadsValue amf3 (.object elem)) : ∀ e ∈ elem.tail, ¬ EndLike e.1 := by
  by_contra hbad
  push Not at hbad
  obtain ⟨l, hl, hreads⟩ := hreads
  have hstored := stored_front l [0] fun _ => 0
  rw [← hl] at hstored
  have hfin : l.length ≤ (l ++ [0]).length := by simp
  obtain ⟨obj, r, hout, hlt⟩ := object_truncated amf3 hkeys hvals hbad hstored hfin
    (Nat.sub_le _ 0)
  have hval := hout.symm.trans (hreads [0] (fun _ => 0) (List.cons_ne_nil _ _))
  have hobj : obj = membersReadBack elem := by
    simpa [Amf.readBack] using (Prod.mk.inj (Outcome.val.inj hval)).1
  rw [hobj, membersReadBack_eq_map, List.length_map] at hlt
  exact lt_irrefl _ hlt

theorem clean_of_reads (amf3 : List UInt8 → Option Amf × ℕ) {a : Amf} (hok : a.Ok)
    (h : ∀ b, Inside b a → ReadsValue amf3 b) : a.Clean := by
  induction hok with
  | number => exact .number
  | bool => exact .bool
  | string => exact .string
  | @object elem _ hkeys hoks ih =>
    have hvals : ∀ e ∈ elem, e.2.Clean := fun e he => ih e he fun b hb => h b (.member he hb)
    have hreads : ∀ e ∈ elem, Reads e.2 := fun e he => reads_of_clean (hoks e he) (hvals e he)
    exact .object (tail_of_reads amf3 hkeys hreads (h _ .refl)) hvals
  | null => exact .null
  | undefined => exact .undefined

/-- An object is read back if no key in it but the first of an object looks like an object
end, and together with all that is inside it only then. -/
theorem object_reads (amf3 : List UInt8 → Option Amf × ℕ) (elem : List (CStr × Amf))
    (hok : (Amf.object elem).Ok) :
    ((Amf.object elem).Clean → ReadsValue amf3 (.object elem)) ∧
      ((∀ b, Inside b (.object elem) → ReadsValue amf3 b) ↔ (Amf.object elem).Clean) ∧
      ((∀ e ∈ elem, e.2.Clean) → (ReadsValue amf3 (.object elem) ↔ (Amf.object elem).Clean)) := by
  have hreads : (Amf.object elem).Clean → ReadsValue amf3 (.object elem) :=
    readsValue_of_clean amf3 hok
  constructor
  · exact hreads
  constructor
  · constructor
    · exact clean_of_reads amf3 hok
    · exact fun hclean b hb => readsValue_of_clean amf3 (hb.ok hok) (hb.clean hclean)
  · intro hvals
    constructor
    · intro h
      cases hok with
      | object _ hkeys hoks =>
        exact .object (tail_of_reads amf3 hkeys
          (fun e he => reads_of_clean (hoks e he) (hvals e he)) h) hvals
    · exact hreads

theorem object_reads_nested :
    ReadsValue (fun _ => (none, 0)) (.object [([0x61], .object [([], .bool true)]), ([], .null)]) := by
  have hinner : (Amf.object [([], .bool true)]).Ok := by
    apply Ok.object
    · decide
    · simp only [List.forall_mem_cons]
      exact ⟨⟨nofun, by decide⟩, nofun⟩
    · simp only [List.forall_mem_cons]
      exact ⟨.bool, nofun⟩
  have hok : (Amf.object [([0x61], .object [([], .bool true)]), ([], .null)]).Ok := by
    apply Ok.object
    · decide
    · simp only [List.forall_mem_cons]
      exact ⟨⟨by simp, by simp⟩, ⟨nofun, by simp⟩, nofun⟩
    · simp only [List.forall_mem_cons]
      exact ⟨hinner, .null, nofun⟩
  apply (object_reads _ _ hok).1
  apply Clean.object
  · decide
  · simp only [List.forall_mem_cons]
    exact ⟨.object (by decide) (by simp only [List.forall_mem_cons]; exact ⟨.bool, nofun⟩), .null, nofun⟩

/-- The second key is 0x900 bytes long, and the object ends in front of it. -/
theorem object_unread :
    let elem := [([0x61], Amf.null), (List.replicate 0x900 0x62, .null)]
    (Amf.object elem).Ok ∧ ¬ ReadsValue (fun _ => (none, 0)) (.object elem) := by
  intro elem
  have hlong : (List.replicate 0x900 (0x62 : UInt8)).length = 0x900 := List.length_replicate
  have hkeys : ∀ e ∈ elem, CStr.Ok e.1 := by
    simp only [elem, List.forall_mem_cons]
    constructor
    · exact ⟨by simp, by simp⟩
    constructor
    · constructor
      · intro c hc
        rw [List.eq_of_mem_replicate hc]
        decide
      · rw [hlong]
        decide
    · nofun
  constructor
  · apply Ok.object
    · have hne : [0x61] ≠ List.replicate 0x900 (0x62 : UInt8) := by
        intro h
        have hlen := congrArg List.length h
        rw [hlong] at hlen
        cases hlen
      exact List.nodup_cons.mpr ⟨fun h => hne (List.mem_singleton.mp h), List.pairwise_singleton _ _⟩
    · exact hkeys
    · simp only [elem, List.forall_mem_cons]
      exact ⟨.null, .null, nofun⟩
  · intro hreads
    have hvals : ∀ e ∈ elem, Reads e.2 := by
      simp only [elem, List.forall_mem_cons]
      exact ⟨reads_of_clean .null .null, reads_of_clean .null .null, nofun⟩
    apply tail_of_reads _ hkeys hvals hreads _ (List.mem_singleton.mpr rfl)
    rw [EndLike, hlong]
    decide

end Mayhem
