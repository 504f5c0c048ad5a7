import Mayhem.Amf.Bounds

/-! The AMF parser stays in its buffer if and only if it does not stray from it in one of the ways
of `ArgsStray`, and then what it returns depends on the buffer alone. -/
namespace Mayhem

open Parse

section Runs

variable {amf3 : List UInt8 → Option Amf × ℕ} {m : Memory} {fin p q : ℕ}

/-- `P` holds of the run over a phrase at `p`, whatever members precede it. -/
def Phrase.Run (amf3 : List UInt8 → Option Amf × ℕ) (m : Memory) (fin fuel p : ℕ)
    (P : ∀ {α : Type}, Parse (α × ℕ) → Prop) : Phrase → Prop
  | .element => P (parseElement amf3 m fin fuel p)
  | .members => ∀ obj, P (parseMembers amf3 m fin fuel p obj)

theorem members_value_alike {fuel r : ℕ} (hn : Name m fin p q) (hq : q < fin)
    (hend : m q ≠ AMF_OBJECT_END) (hy : (parseElement amf3 m fin fuel q).Yields fin r)
    (obj : List (CStr × Amf)) :
    ∃ obj', Alike fin (parseMembers amf3 m fin (fuel + 1) p obj) (do
      touch r 1
      if m r = AMF_OBJECT_END then pure (obj', r + 1) else parseMembers amf3 m fin fuel r obj') := by
  obtain ⟨name, halike⟩ := members_alike amf3 fuel hn obj
  obtain ⟨a, ha⟩ := hy.bind (β := List (CStr × Amf) × ℕ)
  refine ⟨amfObjectSet name a obj, (halike.trans (touch_alike hq _)).trans ?_⟩
  rw [if_neg hend]
  exact ha _

theorem Takes.yields (h3 : ∀ bs, (amf3 bs).2 ≤ bs.length) {k : Phrase}
    (h : Takes amf3 m fin k p q) :
    ∀ fuel, fin - p ≤ fuel → k.Run amf3 m fin fuel p (·.Yields fin q) := by
  induction h with
  | @number p hp hm hle =>
    rintro (_ | fuel) hf
    · omega
    apply element_yields hp (by omega) hle
    rw [hm, parseBody, if_neg (by omega)]
    exact (touch_alike (by omega) _).yields (yields_pure _ _)
  | @boolean p hp hm hle =>
    rintro (_ | fuel) hf
    · omega
    apply element_yields hp (by omega) hle
    rw [hm, parseBody, if_neg (by omega)]
    exact (touch_alike (by omega) _).yields (yields_pure _ _)
  | @string p q hp hm hn =>
    rintro (_ | fuel) hf
    · omega
    obtain ⟨rfl, hroom, hle⟩ := hn
    apply element_yields hp (by omega) hle
    rw [hm, parseBody, if_neg (by omega)]
    refine (touch_alike (by omega) _).yields ?_
    simp only [if_neg (Nat.not_lt.mpr hle)]
    exact (touch_alike hle _).yields (yields_pure _ _)
  | @avmplus p a tmp hp hm ha =>
    rintro (_ | fuel) hf
    · omega
    obtain ⟨hlt, hle⟩ := Takes.bounds h3 (.avmplus hp hm ha)
    apply element_yields hp hlt hle
    rw [hm, parseBody]
    refine (touch_alike (by omega) _).yields ?_
    rw [ha]
    exact yields_pure _ _
  | @ecmaArray p q hp hm hle ht ih =>
    rintro (_ | fuel) hf
    · omega
    obtain ⟨hlt, hq⟩ := ht.bounds h3
    obtain ⟨obj, hobj⟩ := (ih fuel (by omega) []).bind
    apply element_yields hp (by omega) hq
    rw [hm, parseBody, if_neg (by omega)]
    exact (hobj _).yields (yields_pure _ _)
  | @object p q hp hm ht ih =>
    rintro (_ | fuel) hf
    · omega
    obtain ⟨hlt, hq⟩ := ht.bounds h3
    obtain ⟨obj, hobj⟩ := (ih fuel (by omega) []).bind
    apply element_yields hp (by omega) hq
    rw [hm, parseBody]
    exact (hobj _).yields (yields_pure _ _)
  | @noElements p hp hm hle hn =>
    rintro (_ | fuel) hf
    · omega
    apply element_yields hp (by omega) hle
    rw [hm, parseBody, if_neg (by omega)]
    refine (touch_alike (by omega) _).yields ?_
    simp only [hn]
    exact (bind_alike (within_pure _) rfl _).yields (yields_pure _ _)
  | @elements p q hp hm hle hn ht ih =>
    rintro (_ | fuel) hf
    · omega
    obtain ⟨elem, hw, hout⟩ := parseArray_yields (ih fuel (by omega)) (decodeInt32 m (p + 1)).toNat
    apply element_yields hp (by omega) hle
    rw [hm, parseBody, if_neg (by omega)]
    refine (touch_alike (by omega) _).yields ?_
    exact (bind_alike hw hout _).yields (yields_pure _ _)
  | @null p hp hm =>
    rintro (_ | fuel) hf
    · omega
    apply element_yields hp (by omega) (by omega)
    rw [hm]
    exact yields_pure _ _
  | @undefined p hp hm =>
    rintro (_ | fuel) hf
    · omega
    apply element_yields hp (by omega) (by omega)
    rw [hm]
    exact yields_pure _ _
  | @unhandled p hp hm =>
    rintro (_ | fuel) hf
    · omega
    apply element_yields hp hp le_rfl
    rw [hm, parseBody]
    exact (touch_alike (by omega) _).yields (yields_pure _ _)
  | @close p q hn hq hend =>
    have hroom := hn.room
    rintro (_ | fuel) hf obj
    · omega
    obtain ⟨name, halike⟩ := members_alike amf3 fuel hn obj
    refine (halike.trans (touch_alike hq _)).yields ?_
    rw [if_pos hend]
    exact yields_pure _ _
  | @last p q r hn hq hend ht hr hend' ih =>
    have hroom := hn.room
    have hlen := hn.len
    rintro (_ | fuel) hf obj
    · omega
    obtain ⟨obj', halike⟩ := members_value_alike hn hq hend (ih fuel (by omega)) obj
    refine (halike.trans (touch_alike hr _)).yields ?_
    rw [if_pos hend']
    exact yields_pure _ _
  | @member p q r s hn hq hend ht hr hend' ht' ih ih' =>
    have hroom := hn.room
    have hlen := hn.len
    obtain ⟨hqr, -⟩ := ht.bounds h3
    rintro (_ | fuel) hf obj
    · omega
    obtain ⟨obj', halike⟩ := members_value_alike hn hq hend (ih fuel (by omega)) obj
    refine (halike.trans (touch_alike hr _)).yields ?_
    rw [if_neg hend']
    exact ih' fuel (by omega) _

theorem RunsOut.lt {k : Phrase} (h : RunsOut amf3 m fin k p) : p < fin := by
  cases h with
  | ecmaArray hp | object hp | behindCount hp | elements hp => exact hp
  | behindName hn | value hn | behindValue hn | member hn => exact lt_of_le_of_lt (by omega) hn.room

theorem RunsOut.not_within (h3 : ∀ bs, (amf3 bs).2 ≤ bs.length) {k : Phrase}
    (h : RunsOut amf3 m fin k p) :
    ∀ fuel, fin - p ≤ fuel → k.Run amf3 m fin fuel p (¬ ·.Within fin) := by
  induction h with
  | @ecmaArray p hp hm hle _ ih =>
    rintro (_ | fuel) hf
    · omega
    refine element_not_within hp fun hw => ?_
    rw [hm, parseBody, if_neg (by omega), within_bind] at hw
    exact ih fuel (by omega) [] hw.1
  | @object p hp hm _ ih =>
    rintro (_ | fuel) hf
    · omega
    refine element_not_within hp fun hw => ?_
    rw [hm, parseBody, within_bind] at hw
    exact ih fuel (by omega) [] hw.1
  | @behindCount p hp hm hend hn =>
    rintro (_ | fuel) hf
    · omega
    obtain ⟨n, hn⟩ := Nat.exists_eq_succ_of_ne_zero hn
    refine element_not_within hp fun hw => ?_
    rw [hm, parseBody, if_neg (by omega), within_touch_bind, hn, parseArray, within_bind,
      within_bind] at hw
    have habort : parseElement amf3 m fin fuel (p + 5) = abort := by
      cases fuel with
      | zero => rfl
      | succ fuel => rw [parseElement, if_pos (by omega)]
    exact not_within_abort (habort ▸ hw.2.1.1)
  | @elements p hp hm hlt hn _ ih =>
    rintro (_ | fuel) hf
    · omega
    obtain ⟨n, hn⟩ := Nat.exists_eq_succ_of_ne_zero hn
    refine element_not_within hp fun hw => ?_
    rw [hm, parseBody, if_neg (by omega), within_touch_bind, hn, parseArray, within_bind,
      within_bind] at hw
    exact ih fuel (by omega) hw.2.1.1
  | @behindName p hn =>
    have hroom := hn.room
    rintro (_ | fuel) hf obj hw
    · omega
    obtain ⟨name, halike⟩ := members_alike amf3 fuel hn obj
    have htouch := within_touch_bind.mp (halike.within.mp hw)
    omega
  | @value p q hn hq hend _ ih =>
    have hroom := hn.room
    have hlen := hn.len
    rintro (_ | fuel) hf obj hw
    · omega
    obtain ⟨name, halike⟩ := members_alike amf3 fuel hn obj
    have hw := (halike.trans (touch_alike hq _)).within.mp hw
    rw [if_neg hend, within_bind] at hw
    exact ih fuel (by omega) hw.1
  | @behindValue p q hn hq hend ht =>
    have hroom := hn.room
    have hlen := hn.len
    rintro (_ | fuel) hf obj hw
    · omega
    obtain ⟨obj', halike⟩ := members_value_alike hn hq hend (ht.yields h3 fuel (by omega)) obj
    have htouch := within_touch_bind.mp (halike.within.mp hw)
    omega
  | @member p q r hn hq hend ht hr hend' _ ih =>
    have hroom := hn.room
    have hlen := hn.len
    obtain ⟨hqr, -⟩ := ht.bounds h3
    rintro (_ | fuel) hf obj hw
    · omega
    obtain ⟨obj', halike⟩ := members_value_alike hn hq hend (ht.yields h3 fuel (by omega)) obj
    have hrest := (halike.trans (touch_alike hr _)).within.mp hw
    rw [if_neg hend'] at hrest
    exact ih fuel (by omega) _ hrest

theorem ArgsStray.lt (h3 : ∀ bs, (amf3 bs).2 ≤ bs.length) (h : ArgsStray amf3 m fin p) :
    p < fin := by
  cases h with
  | runsOut hr => exact hr.lt
  | refused _ hlt _ => exact hlt
  | later ht _ =>
    obtain ⟨hlt, hle⟩ := ht.bounds h3
    omega

theorem parseArgs_within (h3 : ∀ bs, (amf3 bs).2 ≤ bs.length) (fuel : ℕ) :
    ∀ p inv, fin - p ≤ fuel →
      ((parseArgs amf3 m fin fuel p inv).Within fin ↔ ¬ ArgsStray amf3 m fin p) := by
  induction fuel with
  | zero =>
    intro p inv hf
    exact iff_of_true (within_pure _) fun h => absurd (h.lt h3) (by omega)
  | succ fuel ih =>
    intro p inv hf
    rw [parseArgs]
    by_cases hp : fin ≤ p
    · rw [if_pos hp]
      exact iff_of_true (within_pure _) fun h => absurd (h.lt h3) (by omega)
    rw [if_neg hp]
    have hfuel : fin - p ≤ fin := Nat.sub_le _ _
    cases (Settles.of_parse h3 fin).1 p (by omega) hfuel with
    | @takes q hy ht =>
      obtain ⟨hpq, -⟩ := ht.bounds h3
      obtain ⟨a, ha⟩ := (hy.onNull (touch p fin)).bind (β := Invoke)
      rw [(ha _).within, ih q _ (by omega), not_iff_not]
      refine ⟨.later ht, fun h => ?_⟩
      cases h with
      | runsOut hr => exact absurd hy.within (hr.not_within h3 fin hfuel)
      | refused _ _ hno => exact absurd ht (hno q)
      | later ht' h =>
        obtain ⟨-, hv⟩ := hy
        obtain ⟨-, hv'⟩ := ht'.yields h3 fin hfuel
        obtain ⟨b, hb⟩ := hv
        obtain ⟨b', hb'⟩ := hv'
        obtain ⟨-, rfl⟩ := Prod.mk.inj (Outcome.val.inj (hb.symm.trans hb'))
        exact h
    | refuses hr =>
      have hno : ∀ q, ¬ Takes amf3 m fin .element p q := by
        intro q ht
        obtain ⟨-, a, ha⟩ := ht.yields h3 fin hfuel
        simp [hr.out] at ha
      have hnull : ∀ a, ((parseElement amf3 m fin fin p).onNull (touch p fin)).out ≠ .val a := by
        simp [hr.out]
      rw [within_bind, within_onNull]
      obtain rfl | hpos := Nat.eq_zero_or_pos p
      · -- the dump of the first argument ends with the buffer
        refine iff_of_true ⟨⟨hr.within, fun _ => (Nat.zero_add fin).le⟩, fun a ha => ?_⟩ fun h => ?_
        · exact absurd ha (hnull a)
        · cases h with
          | runsOut hro => exact hro.not_within h3 fin hfuel hr.within
          | refused hpos => exact absurd hpos (Nat.lt_irrefl 0)
          | later ht => exact hno _ ht
      · refine iff_of_false (fun hw => ?_) (not_not.mpr (.refused hpos (by omega) hno))
        have hdump := hw.1.2 hr.out
        omega
    | runsOut hr =>
      refine iff_of_false (fun hw => ?_) (not_not.mpr (.runsOut hr))
      exact hr.not_within h3 fin hfuel ((within_onNull).mp (within_bind.mp hw).1).1

/-! ### What a run depends on -/

section Congr

variable {α β : Type} {m' : Memory}

/-- Runs that stay in the buffer are the same if their parts are. -/
theorem bind_congr {run run' : Parse α} {f f' : α → Parse β} (h : (run >>= f).Within fin)
    (hrun : run.Within fin → run' = run) (hf : ∀ a, (f a).Within fin → f' a = f a) :
    run' >>= f' = run >>= f := by
  obtain ⟨hw, hval⟩ := within_bind.mp h
  obtain rfl := hrun hw
  rw [bind_def, bind_def, Parse.bind, Parse.bind]
  cases hout : run'.out with
  | val a => simp only [hf a (hval a hout)]
  | null => rfl
  | abort => rfl

theorem touch_congr {n : ℕ} {f f' : Unit → Parse β} (h : (touch p n >>= f).Within fin)
    (hf : p + n ≤ fin → (f ()).Within fin → f' () = f ()) : touch p n >>= f' = touch p n >>= f :=
  bind_congr h (fun _ => rfl) fun _ hw => hf (within_touch_bind.mp h).1 hw

theorem parseArray_congr {element element' : Parse (Amf × ℕ)}
    (helem : element.Within fin → element' = element) (n : ℕ) :
    (parseArray element n).Within fin → parseArray element' n = parseArray element n := by
  induction n with
  | zero => exact fun _ => rfl
  | succ n ih => exact fun h => bind_congr h helem fun _ h => bind_congr h ih fun _ _ => rfl

theorem strLen_congr (hm : ∀ i < fin, m' i = m i) (hp : p + 2 ≤ fin) : strLen m' p = strLen m p := by
  rw [strLen, strLen, hm p (by omega), hm (p + 1) (by omega)]

theorem bytes_congr_within (hm : ∀ i < fin, m' i = m i) {n : ℕ} (hp : p + n ≤ fin) :
    m'.bytes p n = m.bytes p n := Memory.bytes_congr fun i _ hi => hm i (by omega)

theorem decodeInt32_within (hm : ∀ i < fin, m' i = m i) (hp : p + 4 ≤ fin) :
    decodeInt32 m' p = decodeInt32 m p :=
  decodeInt32_congr (Memory.bytes_congr fun i _ hi => hm i (by omega))

section Calls

variable {element element' : ℕ → Parse (Amf × ℕ)}
  {members members' : ℕ → List (CStr × Amf) → Parse (List (CStr × Amf) × ℕ)}
  (hm : ∀ i < fin, m' i = m i)
  (helem : ∀ r, (element r).Within fin → element' r = element r)
  (hmem : ∀ r obj, (members r obj).Within fin → members' r obj = members r obj)
include hm helem hmem

theorem parseBody_congr (ptr : ℕ) (k : Marker) :
    (parseBody amf3 m fin element members ptr k).Within fin →
      parseBody amf3 m' fin element' members' ptr k = parseBody amf3 m fin element members ptr k := by
  cases k with
  | number =>
    rw [parseBody, parseBody]
    split_ifs with hle
    · exact fun _ => rfl
    refine fun h => touch_congr h fun hle _ => ?_
    rw [be64ToDouble, be64ToDouble, decodeInt32_within hm (p := ptr) (by omega),
      decodeInt32_within hm (p := ptr + 4) (by omega)]
  | boolean =>
    rw [parseBody, parseBody]
    split_ifs with hle
    · exact fun _ => rfl
    exact fun h => touch_congr h fun hle _ => by rw [hm ptr hle]
  | string =>
    rw [parseBody, parseBody]
    split_ifs with hroom
    · exact fun _ => rfl
    refine fun h => touch_congr h fun hle hrest => ?_
    rw [strLen_congr hm hle]
    dsimp only at hrest ⊢
    split_ifs with hlt
    · rfl
    rw [if_neg hlt] at hrest
    exact touch_congr hrest fun hle _ => by rw [bytes_congr_within hm hle]
  | avmplus =>
    rw [parseBody, parseBody]
    refine fun h => touch_congr h fun hle _ => ?_
    rw [bytes_congr_within hm hle]
  | ecmaArray =>
    rw [parseBody, parseBody]
    split_ifs with hle
    · exact fun _ => rfl
    exact fun h => bind_congr h (hmem _ _) fun _ _ => rfl
  | object => exact fun h => bind_congr h (hmem _ _) fun _ _ => rfl
  | strictArray =>
    rw [parseBody, parseBody]
    split_ifs with hle
    · exact fun _ => rfl
    refine fun h => touch_congr h fun hle hrest => ?_
    rw [decodeInt32_within hm hle]
    exact bind_congr hrest (parseArray_congr (helem _) _) fun _ _ => rfl
  | null | undefined | unhandled => exact fun _ => rfl

theorem parseMember_congr (name : CStr) (obj : List (CStr × Amf)) (ptr : ℕ) :
    (parseMember m element members name obj ptr).Within fin →
      parseMember m' element' members' name obj ptr = parseMember m element members name obj ptr := by
  refine fun h => touch_congr h fun hle hrest => ?_
  rw [hm ptr hle]
  split_ifs with hend
  · rfl
  rw [if_neg hend] at hrest
  refine bind_congr hrest (helem _) fun r hrest => touch_congr hrest fun hle hrest => ?_
  rw [hm r.2 hle]
  split_ifs with hend'
  · rfl
  rw [if_neg hend'] at hrest
  exact hmem _ _ hrest

end Calls

theorem parse_congr (hm : ∀ i < fin, m' i = m i) (fuel : ℕ) :
    (∀ p, (parseElement amf3 m fin fuel p).Within fin →
        parseElement amf3 m' fin fuel p = parseElement amf3 m fin fuel p) ∧
      ∀ p obj, (parseMembers amf3 m fin fuel p obj).Within fin →
        parseMembers amf3 m' fin fuel p obj = parseMembers amf3 m fin fuel p obj := by
  induction fuel with
  | zero => exact ⟨fun _ _ => rfl, fun _ _ _ => rfl⟩
  | succ fuel ih =>
    obtain ⟨helem, hmem⟩ := ih
    refine ⟨fun p => ?_, fun p obj => ?_⟩
    · rw [parseElement, parseElement]
      split_ifs with hp
      · exact fun _ => rfl
      refine fun h => touch_congr h fun hle hrest => ?_
      rw [hm p hle]
      exact bind_congr hrest (parseBody_congr hm helem hmem _ _) fun _ _ => rfl
    · rw [parseMembers, parseMembers]
      split_ifs with hroom
      · exact fun _ => rfl
      refine fun h => touch_congr h fun hle hrest => ?_
      rw [strLen_congr hm hle]
      dsimp only at hrest ⊢
      split_ifs with hlt
      · rfl
      rw [if_neg hlt] at hrest
      refine touch_congr hrest fun hle hrest => ?_
      rw [bytes_congr_within hm hle]
      exact parseMember_congr hm helem hmem _ _ _ hrest

theorem parseArgs_congr (hm : ∀ i < fin, m' i = m i) (fuel : ℕ) :
    ∀ p inv, (parseArgs amf3 m fin fuel p inv).Within fin →
      parseArgs amf3 m' fin fuel p inv = parseArgs amf3 m fin fuel p inv := by
  induction fuel with
  | zero => exact fun _ _ _ => rfl
  | succ fuel ih =>
    intro p inv
    rw [parseArgs, parseArgs]
    split_ifs with hp
    · exact fun _ => rfl
    refine fun h => bind_congr h (fun hw => ?_) fun _ h => ih _ _ h
    rw [(parse_congr hm fin).1 p ((within_onNull).mp hw).1]

end Congr

/-- What `amf_invoke_from_buf` keeps to when it stays in the `sz` bytes it is given. -/
structure Contained (amf3 : List UInt8 → Option Amf × ℕ) (m : Memory) (sz : ℕ) : Prop where
  /-- It reads no byte behind the buffer. -/
  reads : (amfInvokeFromBuf amf3 m sz).reach ≤ sz
  /-- `assert(sz)` holds. -/
  asserts : (amfInvokeFromBuf amf3 m sz).out ≠ .abort
  /-- `parse_element` takes at least a byte and at most those it was given. -/
  taken : ∀ c ∈ (amfInvokeFromBuf amf3 m sz).calls, 1 ≤ c.2 - c.1 ∧ c.2 - c.1 ≤ sz - c.1
  /-- The result is a function of the buffer. -/
  result : ∀ m' : Memory, m'.bytes 0 sz = m.bytes 0 sz →
    (amfInvokeFromBuf amf3 m' sz).out = (amfInvokeFromBuf amf3 m sz).out

theorem contained_iff (amf3 : List UInt8 → Option Amf × ℕ) (h3 : ∀ bs, (amf3 bs).2 ≤ bs.length)
    (m : Memory) (sz : ℕ) : Contained amf3 m sz ↔ ¬ ArgsStray amf3 m sz 0 := by
  rw [← parseArgs_within h3 sz 0 [] (Nat.sub_le _ _)]
  constructor
  · rintro ⟨hreads, hasserts, htaken, -⟩
    exact ⟨hreads, fun c hc => by have := htaken c hc; omega, hasserts⟩
  · intro h
    refine ⟨h.reach, h.asserts, fun c hc => by have := h.taken c hc; omega, fun m' hm' => ?_⟩
    have hm : ∀ i < sz, m' i = m i := fun i hi => Memory.bytes_inj.mp hm' i (Nat.zero_le _) (by omega)
    exact congrArg Parse.out (parseArgs_congr hm sz 0 [] h)

end Runs

/-- An AMF3 parser that refuses everything. -/
def refuseAmf3 (_ : List UInt8) : Option Amf × ℕ := (none, 0)

/-- An object in an object, and a second argument. -/
def nestedBytes : List UInt8 :=
  [AMF_OBJECT, 0, 1, 0x61, AMF_OBJECT, 0, 1, 0x62, AMF_BOOLEAN, 1, 0, 0, AMF_OBJECT_END, 0, 0,
    AMF_OBJECT_END, AMF_NULL]

theorem contained_nested : Contained refuseAmf3 (.ofList nestedBytes fun _ => 9) 17 := by
  have h3 : ∀ bs, (refuseAmf3 bs).2 ≤ bs.length := fun _ => Nat.zero_le _
  obtain ⟨inv, hinv⟩ : ∃ inv, (amfInvokeFromBuf refuseAmf3 (.ofList nestedBytes fun _ => 9) 17).out =
      .val inv := ⟨_, rfl⟩
  have hwithin : (amfInvokeFromBuf refuseAmf3 (.ofList nestedBytes fun _ => 9) 17).Within 17 :=
    ⟨by decide +kernel, by decide +kernel, hinv ▸ nofun⟩
  exact (contained_iff refuseAmf3 h3 _ 17).mpr ((parseArgs_within h3 17 0 [] le_rfl).mp hwithin)

/-- The buffer ends right behind the name of a member. The parser looks at the byte behind it:
if that is an object end it takes a byte more than there is, else `assert(sz)` fails. And where
the second of two bytes is refused, two are dumped from there on. -/
theorem not_contained_name :
    let run (after : Memory) := amfInvokeFromBuf refuseAmf3 (.ofList [AMF_OBJECT, 0, 1, 0x61] after) 4
    (run fun _ => AMF_OBJECT_END).reach = 5 ∧
      (run fun _ => AMF_OBJECT_END).calls = [(0, 5)] ∧
      (run fun _ => AMF_NULL).out = .abort ∧
      ¬ Contained refuseAmf3 (.ofList [AMF_OBJECT, 0, 1, 0x61] fun _ => AMF_NULL) 4 ∧
      (amfInvokeFromBuf refuseAmf3 (.ofList [AMF_NULL, AMF_NUMBER] fun _ => 0) 2).reach = 3 :=
  ⟨rfl, rfl, rfl, fun h => h.asserts rfl, rfl⟩

end Mayhem
