import Mayhem.Amf.Runs

/-! Where the AMF parser leaves its buffer. `Takes` is the language it accepts, by position
in a buffer that ends at `fin`, and `RunsOut` the ways in which a buffer can end that make
it look behind the end: right behind the name or the value of a member, where it looks for
the end of the object, and right behind the count of a strict array. An argument that is refused
behind another is the last way: its dump is as long as the buffer. -/
namespace Mayhem

inductive Phrase
  | element
  /-- Members of an object with the end of the object behind them. -/
  | members
deriving DecidableEq, Repr

section Grammar

variable (amf3 : List UInt8 → Option Amf × ℕ) (m : Memory) (fin : ℕ)

/-- A name from `p` to `q`, with at least one byte behind its length. -/
structure Name (p q : ℕ) : Prop where
  len : q = p + 2 + strLen m p
  room : p + 2 < fin
  le : q ≤ fin

inductive Takes : Phrase → ℕ → ℕ → Prop
  | number {p} : p < fin → marker (m p) = .number → p + 9 ≤ fin → Takes .element p (p + 9)
  | boolean {p} : p < fin → marker (m p) = .boolean → p + 2 ≤ fin → Takes .element p (p + 2)
  | string {p q} : p < fin → marker (m p) = .string → Name m fin (p + 1) q → Takes .element p q
  | avmplus {p a tmp} : p < fin → marker (m p) = .avmplus →
      amf3 (m.bytes (p + 1) (fin - (p + 1))) = (some a, tmp) → Takes .element p (p + 1 + tmp)
  | ecmaArray {p q} : p < fin → marker (m p) = .ecmaArray → p + 5 ≤ fin → Takes .members (p + 5) q →
      Takes .element p q
  | object {p q} : p < fin → marker (m p) = .object → Takes .members (p + 1) q →
      Takes .element p q
  | noElements {p} : p < fin → marker (m p) = .strictArray → p + 5 ≤ fin →
      (decodeInt32 m (p + 1)).toNat = 0 → Takes .element p (p + 5)
  | elements {p q} : p < fin → marker (m p) = .strictArray → p + 5 ≤ fin →
      (decodeInt32 m (p + 1)).toNat ≠ 0 → Takes .element (p + 5) q → Takes .element p (p + 5)
  | null {p} : p < fin → marker (m p) = .null → Takes .element p (p + 1)
  | undefined {p} : p < fin → marker (m p) = .undefined → Takes .element p (p + 1)
  | unhandled {p} : p < fin → marker (m p) = .unhandled → Takes .element p fin
  | close {p q} : Name m fin p q → q < fin → m q = AMF_OBJECT_END → Takes .members p (q + 1)
  | last {p q r} : Name m fin p q → q < fin → m q ≠ AMF_OBJECT_END → Takes .element q r →
      r < fin → m r = AMF_OBJECT_END → Takes .members p (r + 1)
  | member {p q r s} : Name m fin p q → q < fin → m q ≠ AMF_OBJECT_END → Takes .element q r →
      r < fin → m r ≠ AMF_OBJECT_END → Takes .members r s → Takes .members p s

inductive RunsOut : Phrase → ℕ → Prop
  | ecmaArray {p} : p < fin → marker (m p) = .ecmaArray → p + 5 ≤ fin → RunsOut .members (p + 5) →
      RunsOut .element p
  | object {p} : p < fin → marker (m p) = .object → RunsOut .members (p + 1) → RunsOut .element p
  /-- The buffer ends right behind the count of a strict array. -/
  | behindCount {p} : p < fin → marker (m p) = .strictArray → p + 5 = fin →
      (decodeInt32 m (p + 1)).toNat ≠ 0 → RunsOut .element p
  | elements {p} : p < fin → marker (m p) = .strictArray → p + 5 < fin →
      (decodeInt32 m (p + 1)).toNat ≠ 0 → RunsOut .element (p + 5) → RunsOut .element p
  /-- The buffer ends right behind the name of a member. -/
  | behindName {p} : Name m fin p fin → RunsOut .members p
  | value {p q} : Name m fin p q → q < fin → m q ≠ AMF_OBJECT_END → RunsOut .element q →
      RunsOut .members p
  /-- The buffer ends right behind the value of a member. -/
  | behindValue {p q} : Name m fin p q → q < fin → m q ≠ AMF_OBJECT_END →
      Takes amf3 m fin .element q fin → RunsOut .members p
  | member {p q r} : Name m fin p q → q < fin → m q ≠ AMF_OBJECT_END →
      Takes amf3 m fin .element q r → r < fin → m r ≠ AMF_OBJECT_END → RunsOut .members r →
      RunsOut .members p

/-- Behind arguments that the parser takes, the buffer runs out in one, or one is refused: as many
bytes as are in the buffer are dumped from there on. -/
inductive ArgsStray : ℕ → Prop
  | runsOut {p} : RunsOut amf3 m fin .element p → ArgsStray p
  | refused {p} : 0 < p → p < fin → (∀ q, ¬ Takes amf3 m fin .element p q) → ArgsStray p
  | later {p q} : Takes amf3 m fin .element p q → ArgsStray q → ArgsStray p

end Grammar

open Parse

section Runs

variable {amf3 : List UInt8 → Option Amf × ℕ} {m : Memory} {fin fuel p q : ℕ}

/-- Whatever the parser takes lies in the buffer and is not empty. -/
theorem Takes.bounds (h3 : ∀ bs, (amf3 bs).2 ≤ bs.length) {k : Phrase}
    (h : Takes amf3 m fin k p q) : p < q ∧ q ≤ fin := by
  induction h with
  | number hp hm hle => omega
  | boolean hp hm hle => omega
  | string hp hm hn =>
    have := hn.len
    have := hn.le
    omega
  | @avmplus p a tmp hp hm ha =>
    have := h3 (m.bytes (p + 1) (fin - (p + 1)))
    rw [ha, Memory.bytes_length] at this
    dsimp only at this
    omega
  | ecmaArray hp hm hle _ ih => omega
  | object hp hm _ ih => omega
  | noElements hp hm hle hn => omega
  | elements hp hm hle hn _ ih => omega
  | null hp hm => omega
  | undefined hp hm => omega
  | unhandled hp hm => omega
  | close hn hq hm =>
    have := hn.len
    omega
  | last hn hq hm _ hr hend ih =>
    have := hn.len
    omega
  | member hn hq hm _ hr hend _ ih₁ ih₂ =>
    have := hn.len
    omega

/-! ### One step of the parser -/

theorem element_not_within (hp : p < fin)
    (h : ¬ (parseBody amf3 m fin (parseElement amf3 m fin fuel) (parseMembers amf3 m fin fuel) (p + 1)
      (marker (m p))).Within fin) : ¬ (parseElement amf3 m fin (fuel + 1) p).Within fin := by
  rw [parseElement, if_neg (Nat.not_le.mpr hp), within_touch_bind, within_bind]
  exact fun hw => h hw.2.1

theorem element_yields (hp : p < fin) (hpq : p < q) (hq : q ≤ fin)
    (h : (parseBody amf3 m fin (parseElement amf3 m fin fuel) (parseMembers amf3 m fin fuel) (p + 1)
      (marker (m p))).Yields fin q) : (parseElement amf3 m fin (fuel + 1) p).Yields fin q := by
  rw [parseElement, if_neg (Nat.not_le.mpr hp)]
  obtain ⟨a, ha⟩ := h.bind
  refine ((touch_alike hp _).trans (ha _)).yields ?_
  exact ⟨within_call.mpr ⟨hpq, hq⟩, a, rfl⟩

theorem element_refuses (hp : p < fin)
    (h : (parseBody amf3 m fin (parseElement amf3 m fin fuel) (parseMembers amf3 m fin fuel) (p + 1)
      (marker (m p))).Refuses fin) : (parseElement amf3 m fin (fuel + 1) p).Refuses fin := by
  rw [parseElement, if_neg (Nat.not_le.mpr hp)]
  exact (touch_alike hp _).refuses (h.bind _)

theorem members_refuses (h : ¬ ∃ q, Name m fin p q) (obj : List (CStr × Amf)) :
    (parseMembers amf3 m fin fuel p obj).Refuses fin := by
  cases fuel with
  | zero => exact refuses_null
  | succ fuel =>
    rw [parseMembers]
    by_cases hroom : fin ≤ p + 2
    · rw [if_pos hroom]
      exact refuses_null
    have hle : fin < p + 2 + strLen m p := by
      by_contra hle
      exact h ⟨_, rfl, by omega, by omega⟩
    rw [if_neg hroom]
    refine (touch_alike (by omega) _).refuses ?_
    simp only [if_pos hle]
    exact refuses_null

variable (amf3 fuel) in
theorem members_alike (h : Name m fin p q) (obj : List (CStr × Amf)) :
    ∃ name, Alike fin (parseMembers amf3 m fin (fuel + 1) p obj)
      (parseMember m (parseElement amf3 m fin fuel) (parseMembers amf3 m fin fuel) name obj q) := by
  obtain ⟨rfl, hroom, hle⟩ := h
  refine ⟨(m.bytes (p + 2) (strLen m p)).takeWhile (· ≠ 0), ?_⟩
  rw [parseMembers, if_neg (by omega)]
  refine (touch_alike (by omega) _).trans ?_
  simp only [if_neg (Nat.not_lt.mpr hle)]
  exact touch_alike hle _

theorem parseArray_yields {element : Parse (Amf × ℕ)} (h : element.Yields fin q) (n : ℕ) :
    ∃ elem, (parseArray element n).Within fin ∧ (parseArray element n).out = .val elem := by
  obtain ⟨a, ha⟩ := h.bind (β := List Amf)
  induction n with
  | zero => exact ⟨[], within_pure _, rfl⟩
  | succ n ih =>
    obtain ⟨elem, hw, hout⟩ := ih
    rw [parseArray]
    have hrun : Alike fin (element >>= fun r => parseArray element n >>= fun elem =>
        pure (r.1 :: elem)) (pure (a :: elem)) := (ha _).trans (bind_alike hw hout _)
    exact ⟨a :: elem, hrun.within.mpr (within_pure _), hrun.out⟩

/-! ### What a run comes to -/

/-- What a run over a phrase at `p` comes to: it takes the phrase, refuses it, or runs out
of the buffer. -/
inductive Settles {α : Type} (amf3 : List UInt8 → Option Amf × ℕ) (m : Memory) (fin : ℕ)
    (k : Phrase) (p : ℕ) (run : Parse (α × ℕ)) : Prop
  | takes {q : ℕ} : run.Yields fin q → Takes amf3 m fin k p q → Settles amf3 m fin k p run
  | refuses : run.Refuses fin → Settles amf3 m fin k p run
  | runsOut : RunsOut amf3 m fin k p → Settles amf3 m fin k p run

namespace Settles

variable {α : Type}

theorem of_alike {k : Phrase} {run run' : Parse (α × ℕ)} (h : Settles amf3 m fin k p run')
    (halike : Alike fin run run') : Settles amf3 m fin k p run := by
  cases h with
  | takes hy ht => exact .takes (halike.yields hy) ht
  | refuses hr => exact .refuses (halike.refuses hr)
  | runsOut hr => exact .runsOut hr

theorem imp {k k' : Phrase} {run : Parse (α × ℕ)} (h : Settles amf3 m fin k p run)
    (htakes : ∀ r, Takes amf3 m fin k p r → Takes amf3 m fin k' q r)
    (hruns : RunsOut amf3 m fin k p → RunsOut amf3 m fin k' q) : Settles amf3 m fin k' q run := by
  cases h with
  | takes hy ht => exact .takes hy (htakes _ ht)
  | refuses hr => exact .refuses hr
  | runsOut hr => exact .runsOut (hruns hr)

theorem of_body (h3 : ∀ bs, (amf3 bs).2 ≤ bs.length) (hp : p < fin)
    (h : Settles amf3 m fin .element p (parseBody amf3 m fin (parseElement amf3 m fin fuel)
      (parseMembers amf3 m fin fuel) (p + 1) (marker (m p)))) :
    Settles amf3 m fin .element p (parseElement amf3 m fin (fuel + 1) p) := by
  cases h with
  | takes hy ht =>
    obtain ⟨hpq, hq⟩ := ht.bounds h3
    exact .takes (element_yields hp hpq hq hy) ht
  | refuses hr => exact .refuses (element_refuses hp hr)
  | runsOut hr => exact .runsOut hr

/-- An object settles as its members do. -/
theorem object {members : Parse (List (CStr × Amf) × ℕ)}
    (h : Settles amf3 m fin .members p members) :
    Settles amf3 m fin .members p (do
      let r ← members
      return (Amf.object r.1, r.2)) := by
  cases h with
  | takes hy ht =>
    obtain ⟨obj, hobj⟩ := hy.bind
    exact .takes ((hobj _).yields (yields_pure _ _)) ht
  | refuses hr => exact .refuses (hr.bind _)
  | runsOut hr => exact .runsOut hr

theorem array {element : Parse (Amf × ℕ)} (hp : p < fin) (hm : marker (m p) = .strictArray)
    (hle : p + 5 ≤ fin)
    (h : p + 5 < fin → Settles amf3 m fin .element (p + 5) element) :
    Settles amf3 m fin .element p (do
      touch (p + 1) 4
      let elem ← parseArray element (decodeInt32 m (p + 1)).toNat
      return (Amf.strictArray elem, p + 5)) := by
  refine of_alike ?_ (touch_alike hle _)
  by_cases hn : (decodeInt32 m (p + 1)).toNat = 0
  · rw [hn]
    exact .takes ((bind_alike (within_pure _) rfl _).yields (yields_pure _ _))
      (.noElements hp hm hle hn)
  by_cases hend : p + 5 = fin
  · exact .runsOut (.behindCount hp hm hend hn)
  cases h (by omega) with
  | takes hy ht =>
    obtain ⟨elem, hw, hout⟩ := parseArray_yields hy (decodeInt32 m (p + 1)).toNat
    exact .takes ((bind_alike hw hout _).yields (yields_pure _ _)) (.elements hp hm hle hn ht)
  | refuses hr =>
    obtain ⟨n, hn⟩ := Nat.exists_eq_succ_of_ne_zero hn
    rw [hn, parseArray]
    exact .refuses ((hr.bind _).bind _)
  | runsOut hr => exact .runsOut (.elements hp hm (by omega) hn hr)

theorem body (hp : p < fin)
    (helem : ∀ r, p < r → r < fin → Settles amf3 m fin .element r (parseElement amf3 m fin fuel r))
    (hmem : ∀ r obj, p < r → Settles amf3 m fin .members r (parseMembers amf3 m fin fuel r obj)) :
    Settles amf3 m fin .element p (parseBody amf3 m fin (parseElement amf3 m fin fuel)
      (parseMembers amf3 m fin fuel) (p + 1) (marker (m p))) := by
  cases hm : marker (m p) with
  | number =>
    rw [parseBody]
    split_ifs with hle
    · exact .refuses refuses_null
    · exact .takes ((touch_alike (by omega) _).yields (yields_pure _ _)) (.number hp hm (by omega))
  | boolean =>
    rw [parseBody]
    split_ifs with hle
    · exact .refuses refuses_null
    · exact .takes ((touch_alike (by omega) _).yields (yields_pure _ _)) (.boolean hp hm (by omega))
  | string =>
    rw [parseBody]
    split_ifs with hroom
    · exact .refuses refuses_null
    refine of_alike ?_ (touch_alike (by omega) _)
    dsimp only
    split_ifs with hle
    · exact .refuses refuses_null
    · exact .takes ((touch_alike (by omega) _).yields (yields_pure _ _))
        (.string hp hm ⟨rfl, by omega, by omega⟩)
  | avmplus =>
    rw [parseBody]
    refine of_alike ?_ (touch_alike (by omega) _)
    cases h : amf3 (m.bytes (p + 1) (fin - (p + 1))) with
    | mk a tmp =>
      cases a with
      | none => exact .refuses refuses_null
      | some a => exact .takes (yields_pure _ _) (.avmplus hp hm h)
  | ecmaArray =>
    rw [parseBody]
    split_ifs with hle
    · exact .refuses refuses_null
    · exact (hmem _ _ (by omega)).object.imp (fun _ => .ecmaArray hp hm (by omega))
        (.ecmaArray hp hm (by omega))
  | object => exact (hmem _ _ (by omega)).object.imp (fun _ => .object hp hm) (.object hp hm)
  | strictArray =>
    rw [parseBody]
    split_ifs with hle
    · exact .refuses refuses_null
    · exact array hp hm (by omega) fun hlt => helem _ (by omega) hlt
  | null => exact .takes (yields_pure _ _) (.null hp hm)
  | undefined => exact .takes (yields_pure _ _) (.undefined hp hm)
  | unhandled =>
    exact .takes ((touch_alike (by omega) _).yields (yields_pure _ _)) (.unhandled hp hm)

theorem member (h3 : ∀ bs, (amf3 bs).2 ≤ bs.length) {element : ℕ → Parse (Amf × ℕ)}
    {members : ℕ → List (CStr × Amf) → Parse (List (CStr × Amf) × ℕ)} (hn : Name m fin p q)
    (helem : q < fin → Settles amf3 m fin .element q (element q))
    (hmem : ∀ r obj, p < r → Settles amf3 m fin .members r (members r obj)) (name : CStr)
    (obj : List (CStr × Amf)) :
    Settles amf3 m fin .members p (parseMember m element members name obj q) := by
  have hlen := hn.len
  obtain rfl | hq := hn.le.eq_or_lt
  · exact .runsOut (.behindName hn)
  refine of_alike ?_ (touch_alike hq _)
  by_cases hend : m q = AMF_OBJECT_END
  · rw [if_pos hend]
    exact .takes (yields_pure _ _) (.close hn hq hend)
  rw [if_neg hend]
  cases helem hq with
  | refuses hr => exact .refuses (hr.bind _)
  | runsOut hr => exact .runsOut (.value hn hq hend hr)
  | @takes r hy ht =>
    obtain ⟨hqr, hle⟩ := ht.bounds h3
    obtain rfl | hr := hle.eq_or_lt
    · exact .runsOut (.behindValue hn hq hend ht)
    obtain ⟨a, ha⟩ := hy.bind
    refine of_alike ?_ ((ha _).trans (touch_alike hr _))
    by_cases hend' : m r = AMF_OBJECT_END
    · rw [if_pos hend']
      exact .takes (yields_pure _ _) (.last hn hq hend ht hr hend')
    · rw [if_neg hend']
      exact (hmem r _ (by omega)).imp (fun _ => .member hn hq hend ht hr hend')
        (.member hn hq hend ht hr hend')

/-- With fuel for what is left of the buffer every phrase settles. -/
theorem of_parse (h3 : ∀ bs, (amf3 bs).2 ≤ bs.length) (fuel : ℕ) :
    (∀ p, p < fin → fin - p ≤ fuel → Settles amf3 m fin .element p (parseElement amf3 m fin fuel p)) ∧
      ∀ p obj, fin - p ≤ fuel → Settles amf3 m fin .members p (parseMembers amf3 m fin fuel p obj) := by
  induction fuel with
  | zero =>
    refine ⟨fun p hp hf => by omega, fun p obj hf => ?_⟩
    exact .refuses refuses_null
  | succ fuel ih =>
    obtain ⟨helem, hmem⟩ := ih
    refine ⟨fun p hp hf => of_body h3 hp (body hp (fun r hr hlt => helem r hlt (by omega))
      fun r obj hr => hmem r obj (by omega)), fun p obj hf => ?_⟩
    by_cases hname : ∃ q, Name m fin p q
    · obtain ⟨q, hn⟩ := hname
      have hlen := hn.len
      have hroom := hn.room
      obtain ⟨name, halike⟩ := members_alike amf3 fuel hn obj
      exact of_alike (member h3 hn (fun hlt => helem q hlt (by omega))
        (fun r obj hr => hmem r obj (by omega)) name obj) halike
    · exact .refuses (members_refuses hname obj)

end Settles

end Runs

end Mayhem
