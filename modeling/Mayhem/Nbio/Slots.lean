import Mathlib.Data.Finset.Card
import Mayhem.Nbio.Poll

/-! Which slots are left after a walk of `poll_pump` over the inactive list, and when they are
still those that the `nbio` remember. -/
namespace Mayhem
namespace Poll

open Iothread (Somewhere reported)
open Links (moved)

variable {t t' u : Iothread PollPriv} {lists : Queue → List Addr} {L : List Addr} {n m : ℕ}
  {p : PollPriv} {es : List ℕ} {i j k : ℕ}

/-! The slots by themselves. -/

theorem keep_revents (p : PollPriv) (i j : ℕ) : ((keep p i).pfd j).revents = (p.pfd j).revents := by
  by_cases hj : j = p.numPfd
  · subst hj
    simp [keep]
  · simp [keep, hj]

theorem foldl_keep_revents (p : PollPriv) (es : List ℕ) (j : ℕ) :
    ((es.foldl keep p).pfd j).revents = (p.pfd j).revents := by
  induction es generalizing p with
  | nil => rfl
  | cons e es ih => rw [List.foldl_cons, ih, keep_revents]

theorem foldl_keep_numPfd (p : PollPriv) (es : List ℕ) :
    (es.foldl keep p).numPfd = p.numPfd + es.length := by
  induction es generalizing p with
  | nil => rfl
  | cons e es ih =>
    rw [List.foldl_cons, ih, List.length_cons]
    simp only [keep]
    omega

/-- What is in front of the collected slots stays. -/
theorem foldl_keep_lt (es : List ℕ) (hj : j < p.numPfd) :
    (es.foldl keep p).pfd j = p.pfd j := by
  induction es generalizing p with
  | nil => rfl
  | cons e es ih =>
    rw [List.foldl_cons, ih (by simp only [keep]; omega)]
    simp [keep, Nat.ne_of_lt hj]

theorem keep_self (p : PollPriv) : keep p p.numPfd = { p with numPfd := p.numPfd + 1 } := by
  simp [keep]

/-- Slots that are kept where they are. -/
theorem foldl_keep_range (p : PollPriv) (k : ℕ) :
    (List.range' p.numPfd k).foldl keep p = { p with numPfd := p.numPfd + k } := by
  induction k generalizing p with
  | zero => rfl
  | succ k ih =>
    rw [List.range'_succ, List.foldl_cons, keep_self]
    have := ih { p with numPfd := p.numPfd + 1 }
    rw [this]
    simp only [Nat.add_assoc, Nat.add_comm 1 k]

/-- Distinct numbers below their own number are all the numbers below it. -/
theorem mem_of_lt_length (hnodup : es.Nodup) (hlt : ∀ e ∈ es, e < es.length)
    (hk : k < es.length) : k ∈ es := by
  have hsub : es.toFinset ⊆ Finset.range es.length := fun e he =>
    Finset.mem_range.mpr (hlt e (List.mem_toFinset.mp he))
  have hcard : (Finset.range es.length).card ≤ es.toFinset.card := by
    rw [Finset.card_range, List.toFinset_card_of_nodup hnodup]
  have heq := Finset.eq_of_subset_of_card_le hsub hcard
  exact List.mem_toFinset.mp (heq ▸ Finset.mem_range.mpr hk)

/-- Every slot that is kept is found again under its old index if and only if the indices are
`0`, `1` and so on in the order of the walk. -/
theorem compact_iff (hp : p.numPfd = 0) (hnodup : es.Nodup)
    (hfd : ∀ i ∈ es, ∀ j ∈ es, (p.pfd i).fd = (p.pfd j).fd → i = j) :
    (∀ e ∈ es, e < es.length ∧ ((es.foldl keep p).pfd e).fd = (p.pfd e).fd) ↔
      es = List.range es.length := by
  constructor
  · intro h
    have hfront : ∀ k ≤ es.length, ∃ rest, es = List.range k ++ rest := by
      intro k hk
      induction k with
      | zero => exact ⟨es, rfl⟩
      | succ k ih =>
        obtain ⟨rest, hes⟩ := ih (by omega)
        cases rest with
        | nil =>
          have hlen := congrArg List.length hes
          simp only [List.append_nil, List.length_range] at hlen
          omega
        | cons e rest =>
          -- the next slot goes to index `k`, where nothing overwrites it
          have hk' : ((es.foldl keep p).pfd k).fd = (p.pfd e).fd := by
            have hrange := foldl_keep_range p k
            rw [hp, Nat.zero_add, ← List.range_eq_range'] at hrange
            rw [hes, List.foldl_append, List.foldl_cons, hrange,
              foldl_keep_lt rest (by simp [keep])]
            simp [keep]
          have hmem := mem_of_lt_length hnodup (fun e he => (h e he).1) (k := k) (by omega)
          have he : e ∈ es := by
            rw [hes]
            simp
          obtain rfl := hfd e he k hmem (hk'.symm.trans (h k hmem).2)
          exact ⟨rest, by rw [List.range_succ, List.append_assoc]; exact hes⟩
    obtain ⟨rest, hes⟩ := hfront es.length le_rfl
    have hlen := congrArg List.length hes
    rw [List.length_append, List.length_range] at hlen
    have hnil : rest = [] := List.length_eq_zero_iff.mp (by omega)
    rwa [hnil, List.append_nil] at hes
  · intro h e he
    have hrange : es.foldl keep p = { p with numPfd := es.length } := by
      have := foldl_keep_range p es.length
      rw [hp, Nat.zero_add, ← List.range_eq_range', ← h] at this
      exact this
    rw [h, List.mem_range] at he
    exact ⟨he, by rw [hrange]⟩

/-! The walk over the inactive list. -/

/-- What is found for an entry: the slot it remembers, if it remembers one. -/
def slot (t : Iothread PollPriv) (n : ℕ) : Option ℕ :=
  if (t.nbio n).evPriv < 0 then none else some (t.nbio n).evPriv.toNat

def hit (t : Iothread PollPriv) : Addr → Option (ℕ × UInt8)
  | .head _ => none
  | .nbio n => (slot t n).bind fun i =>
    if (t.priv.pfd i).revents = 0 then none else some (n, flags (t.priv.pfd i).revents)

def stay (t : Iothread PollPriv) : Addr → Option ℕ
  | .head _ => none
  | .nbio n => (slot t n).bind fun i => if (t.priv.pfd i).revents = 0 then some i else none

/-- The events for the entries of `L`, and the slots of those without events. -/
def hits (t : Iothread PollPriv) (L : List Addr) : List (ℕ × UInt8) := L.filterMap (hit t)

def stays (t : Iothread PollPriv) (L : List Addr) : List ℕ := L.filterMap (stay t)

/-- What the walk leaves behind once it has visited `L`. -/
def walked (t : Iothread PollPriv) (L : List Addr) : Iothread PollPriv :=
  { (hits t L).foldl deliver t with priv := (stays t L).foldl keep t.priv }

theorem mem_hits {ev : ℕ × UInt8} : ev ∈ hits t L ↔ .nbio ev.1 ∈ L ∧ ∃ i, slot t ev.1 = some i ∧
    (t.priv.pfd i).revents ≠ 0 ∧ ev.2 = flags (t.priv.pfd i).revents := by
  rw [hits, List.mem_filterMap]
  constructor
  · rintro ⟨a, ha, hhit⟩
    cases a with
    | head q => cases hhit
    | nbio n =>
      obtain ⟨i, hi, hrev⟩ := Option.bind_eq_some_iff.mp hhit
      split_ifs at hrev with h0
      obtain rfl := Option.some.inj hrev
      exact ⟨ha, i, hi, h0, rfl⟩
  · rintro ⟨ha, i, hi, h0, hflags⟩
    refine ⟨_, ha, ?_⟩
    simp only [hit, hi, Option.bind_some, if_neg h0, ← hflags]

theorem mem_stays {e : ℕ} : e ∈ stays t L ↔
    ∃ n, .nbio n ∈ L ∧ slot t n = some e ∧ (t.priv.pfd e).revents = 0 := by
  rw [stays, List.mem_filterMap]
  constructor
  · rintro ⟨a, ha, hstay⟩
    cases a with
    | head q => cases hstay
    | nbio n =>
      obtain ⟨i, hi, hrev⟩ := Option.bind_eq_some_iff.mp hstay
      split_ifs at hrev with h0
      obtain rfl := Option.some.inj hrev
      exact ⟨n, ha, hi, h0⟩
  · rintro ⟨n, ha, hi, h0⟩
    refine ⟨_, ha, ?_⟩
    simp only [stay, hi, Option.bind_some, if_pos h0]

theorem deliver_listed {evs : List (ℕ × UInt8)} (h : t.Listed lists)
    (hevs : ∀ ev ∈ evs, Somewhere lists ev.1) :
    (evs.foldl deliver t).Listed (reported lists evs) := by
  induction evs generalizing t lists with
  | nil => exact h
  | cons ev evs ih =>
    refine ih ((h.modify _).moveTail (.inl (hevs ev List.mem_cons_self)) _) fun ev' hev' => ?_
    exact Iothread.Moved.somewhere (.inr ⟨_, rfl⟩) (hevs ev' (List.mem_cons_of_mem _ hev'))

theorem foldl_deliver_other {evs : List (ℕ × UInt8)} (hn : ∀ ev ∈ evs, ev.1 ≠ n) :
    (evs.foldl deliver t).nbio n = t.nbio n := by
  induction evs generalizing t with
  | nil => rfl
  | cons ev evs ih =>
    rw [List.foldl_cons, ih fun ev' hev' => hn ev' (List.mem_cons_of_mem _ hev')]
    rw [deliver, Iothread.moveTail_nbio,
      Iothread.modify_of_ne _ _ (hn ev List.mem_cons_self).symm]

/-- `rest` is still to be visited, and it is the end of the inactive list. -/
def Walk (t : Iothread PollPriv) (lists : Queue → List Addr) (rest : List Addr)
    (u : Iothread PollPriv) : Prop :=
  ∃ done kept, lists .inactive = done ++ rest ∧
    reported lists (hits t done) .inactive = kept ++ rest ∧ u = walked t done

theorem walk_listed (h : t.Listed lists) {done rest : List Addr}
    (hL : lists .inactive = done ++ rest) : (walked t done).Listed (reported lists (hits t done)) := by
  have hd : ((hits t done).foldl deliver t).Listed (reported lists (hits t done)) :=
    deliver_listed h fun ev hev =>
      ⟨.inactive, by rw [hL]; exact List.mem_append_left _ (mem_hits.mp hev).1⟩
  exact ⟨hd.rings, hd.nbios⟩

theorem visit_walk (h : t.Listed lists) {x : Addr} {rest : List Addr}
    (hw : Walk t lists (x :: rest) u) : Walk t lists rest (visit x u) := by
  obtain ⟨done, kept, hL, hkept, rfl⟩ := hw
  obtain ⟨n, rfl⟩ := h.nbios .inactive x (by simp [hL])
  have hnodup : (done ++ .nbio n :: rest).Nodup :=
    hL ▸ (List.nodup_cons.mp (h.rings.ring .inactive).nodup).2
  have hfresh : .nbio n ∉ done := fun hmem =>
    (List.nodup_append.mp hnodup).2.2 _ hmem _ List.mem_cons_self rfl
  have hsame : (walked t done).nbio n = t.nbio n :=
    foldl_deliver_other fun ev hev he => hfresh (he ▸ (mem_hits.mp hev).1)
  have hL' : lists .inactive = (done ++ [.nbio n]) ++ rest := by simp [hL]
  have hhits : hits t (done ++ [.nbio n]) = hits t done ++ (hit t (.nbio n)).toList := by
    rw [hits, List.filterMap_append, List.filterMap_cons, List.filterMap_nil, hits]
    cases hit t (.nbio n) <;> rfl
  have hstays : stays t (done ++ [.nbio n]) = stays t done ++ (stay t (.nbio n)).toList := by
    rw [stays, List.filterMap_append, List.filterMap_cons, List.filterMap_nil, stays]
    cases stay t (.nbio n) <;> rfl
  by_cases hneg : (t.nbio n).evPriv < 0
  · -- it waits for nothing
    have hslot : slot t n = none := if_pos hneg
    rw [hit, hslot, Option.bind_none, Option.toList_none, List.append_nil] at hhits
    rw [stay, hslot, Option.bind_none, Option.toList_none, List.append_nil] at hstays
    refine ⟨_, kept ++ [.nbio n], hL', by simp [hhits, hkept], ?_⟩
    rw [visit, hsame, if_pos hneg, walked, walked, hhits, hstays]
  · have hslot : slot t n = some (t.nbio n).evPriv.toNat := if_neg hneg
    have hrev : ((walked t done).priv.pfd (t.nbio n).evPriv.toNat).revents =
        (t.priv.pfd (t.nbio n).evPriv.toNat).revents := foldl_keep_revents _ _ _
    rw [hit, hslot, Option.bind_some] at hhits
    rw [stay, hslot, Option.bind_some] at hstays
    by_cases h0 : (t.priv.pfd (t.nbio n).evPriv.toNat).revents = 0
    · rw [if_pos h0, Option.toList_none, List.append_nil] at hhits
      rw [if_pos h0, Option.toList_some] at hstays
      refine ⟨_, kept ++ [.nbio n], hL', by simp [hhits, hkept], ?_⟩
      rw [visit, hsame, if_neg hneg]
      simp only [hrev, h0, if_true]
      simp only [walked, hhits, hstays, List.foldl_append, List.foldl_cons, List.foldl_nil]
    · rw [if_neg h0, Option.toList_some] at hhits
      rw [if_neg h0, Option.toList_none, List.append_nil] at hstays
      refine ⟨_, kept, hL', ?_, ?_⟩
      · have hr := (walk_listed h hL).rings.ring .inactive
        rw [hkept] at hr
        rw [hhits, reported, List.foldl_append, List.foldl_cons, List.foldl_nil, moved,
          Links.added, Function.update_of_ne (by simp)]
        exact Links.removed_of_append (List.nodup_cons.mp hr.nodup).2 hkept
      · rw [visit, hsame, if_neg hneg]
        simp only [hrev, if_neg h0]
        simp only [walked, hhits, hstays, List.foldl_append, List.foldl_cons, List.foldl_nil]
        rfl

/-- A call of `poll_pump` ends, and does to the lists and the slots what the events say. -/
theorem pump_eq {revents : ℕ → UInt16} (h : t.Listed lists) :
    Pump t (some revents) t' ↔ t' = walked (polled t revents) (lists .inactive) := by
  have h₀ : (polled t revents).Listed lists := ⟨h.rings, h.nbios⟩
  have hstart : Walk (polled t revents) lists (lists .inactive) (polled t revents) :=
    ⟨[], [], rfl, rfl, rfl⟩
  have hrun : ∀ fuel, (lists .inactive).length < fuel → Links.forEachSafe (·.links) visit
      (.head .inactive) fuel ((polled t revents).links.next (.head .inactive))
      ((polled t revents).links.next ((polled t revents).links.next (.head .inactive)))
      (polled t revents) = some (walked (polled t revents) (lists .inactive)) := by
    intro fuel hfuel
    have hnext : ∀ (x : Addr) (rest : List Addr) (s : Iothread PollPriv),
        Walk (polled t revents) lists (x :: rest) s →
          x ≠ .head .inactive ∧ s.links.next x = rest.headD (.head .inactive) := by
      rintro x rest s ⟨done, kept, hL, hkept, rfl⟩
      obtain ⟨n, rfl⟩ := h.nbios .inactive x (by simp [hL])
      have hr := (walk_listed h₀ hL).rings.ring .inactive
      rw [hkept] at hr
      exact ⟨by simp, hr.next_of_append⟩
    obtain ⟨u, ⟨done, kept, hL, -, rfl⟩, hloop⟩ := Links.forEachSafe_spec
      (Walk (polled t revents) lists) hnext (fun x rest s => visit_walk h₀) _ _ hstart fuel hfuel
    rw [List.append_nil] at hL
    rw [(h₀.rings.ring .inactive).next_head, hloop, hL]
  constructor
  · rintro ⟨fuel, hloop⟩
    exact Links.forEachSafe_unique hloop (hrun _ (Nat.lt_succ_self _))
  · rintro rfl
    exact ⟨_, hrun _ (Nat.lt_succ_self _)⟩

/-! What a call of `poll_pump` should do. -/

/-- `n` remembers the slot `i`, which is in use and is its own. -/
structure Slot (t : Iothread PollPriv) (n i : ℕ) : Prop where
  index : (t.nbio n).evPriv = i
  used : i < t.priv.numPfd
  fd : (t.priv.pfd i).fd = (t.nbio n).fd
  events : (t.priv.pfd i).events = events (t.nbio n).mask

/-- Those on the inactive list have a slot, unless they wait for nothing. -/
def Slotted (t : Iothread PollPriv) (n : ℕ) : Prop :=
  (t.nbio n).mask = 0 ∧ (t.nbio n).evPriv < 0 ∨ ∃ i, Slot t n i

/-- An `nbio` goes to the active list if and only if events were reported for its own slot,
with the flags of these events, and the others stay and keep a slot of their own. -/
structure Delivered (t : Iothread PollPriv) (revents : ℕ → UInt16) (t' : Iothread PollPriv) :
    Prop where
  moved : ∀ n, t.On .inactive n → (t'.On .active n ↔ ∃ i, Slot t n i ∧ revents i ≠ 0)
  flags : ∀ n i, t.On .inactive n → Slot t n i → revents i ≠ 0 →
    (t'.nbio n).flags = flags (revents i)
  stays : ∀ n, t.On .inactive n → ¬ (∃ i, Slot t n i ∧ revents i ≠ 0) → t'.On .inactive n
  kept : ∀ n, t'.On .inactive n → Slotted t' n

/-- The slots of those that stay, in the order of the inactive list, are `0`, `1` and so on. -/
def InOrder (t : Iothread PollPriv) (revents : ℕ → UInt16) : Prop :=
  ∀ lists, t.Listed lists → stays (polled t revents) (lists .inactive) =
    List.range (stays (polled t revents) (lists .inactive)).length

/-- No two `nbio` on the inactive list have the same descriptor. -/
def Distinct (t : Iothread PollPriv) : Prop :=
  ∀ n m, t.On .inactive n → t.On .inactive m → (t.nbio n).fd = (t.nbio m).fd → n = m

theorem Slot.slot (h : Slot t n i) : slot t n = some i := by
  rw [Poll.slot, h.index, if_neg (by omega), Int.toNat_natCast]

theorem Slot.unique (h : Slot t n i) (h' : Slot t n j) : i = j := by
  have := h.index.symm.trans h'.index
  exact_mod_cast this

theorem slot_of_some (hs : Slotted t n) (h : slot t n = some i) : Slot t n i := by
  rcases hs with ⟨-, hneg⟩ | ⟨j, hj⟩
  · rw [slot, if_pos hneg] at h
    cases h
  · obtain rfl := Option.some.inj (hj.slot.symm.trans h)
    exact hj

theorem polled_revents {revents : ℕ → UInt16} (h : Slot t n i) :
    ((polled t revents).priv.pfd i).revents = revents i := by
  simp [polled, h.used]

/-- The events that are found are those that were reported for own slots. -/
theorem hit_iff {revents : ℕ → UInt16} (hs : Slotted t n) (hn : .nbio n ∈ L) :
    (∃ ev ∈ hits (polled t revents) L, ev.1 = n) ↔ ∃ i, Slot t n i ∧ revents i ≠ 0 := by
  constructor
  · rintro ⟨ev, hev, rfl⟩
    obtain ⟨-, i, hi, h0, -⟩ := mem_hits.mp hev
    have hslot := slot_of_some hs hi
    exact ⟨i, hslot, by rwa [polled_revents hslot] at h0⟩
  · rintro ⟨i, hslot, h0⟩
    exact ⟨(n, Poll.flags (revents i)), mem_hits.mpr ⟨hn, i, hslot.slot,
      by rwa [polled_revents hslot], by rw [polled_revents hslot]⟩, rfl⟩

theorem foldl_deliver_flags {evs : List (ℕ × UInt8)} {f : UInt8} (hn : ∃ ev ∈ evs, ev.1 = n)
    (hall : ∀ ev ∈ evs, ev.1 = n → ev.2 = f) : ((evs.foldl deliver t).nbio n).flags = f := by
  induction evs generalizing t with
  | nil =>
    obtain ⟨ev, hev, -⟩ := hn
    cases hev
  | cons ev evs ih =>
    by_cases hlater : ∃ ev' ∈ evs, ev'.1 = n
    · exact ih hlater fun ev' hev' => hall ev' (List.mem_cons_of_mem _ hev')
    · push Not at hlater
      rw [List.foldl_cons, foldl_deliver_other hlater]
      obtain ⟨ev', hev', rfl⟩ := hn
      rcases List.mem_cons.mp hev' with rfl | htail
      · rw [deliver, Iothread.moveTail_nbio, Iothread.modify_self]
        exact hall _ List.mem_cons_self rfl
      · exact absurd rfl (hlater ev' htail)

theorem walked_on (h : t.Listed lists) (q : Queue) :
    (walked t (lists .inactive)).On q n ↔
      .nbio n ∈ reported lists (hits t (lists .inactive)) q := by
  have hl : (walked t (lists .inactive)).Listed (reported lists (hits t (lists .inactive))) :=
    walk_listed h (List.append_nil _).symm
  exact hl.on_iff

theorem walked_active (h : t.Listed lists) (hn : t.On .inactive n) :
    (walked t (lists .inactive)).On .active n ↔ ∃ ev ∈ hits t (lists .inactive), ev.1 = n := by
  have hnot : .nbio n ∉ lists .active := fun hmem => by
    cases h.rings.unique (h.on_iff.mp hn) hmem
  rw [walked_on h, Iothread.mem_reported]
  simp [hnot]

theorem walked_inactive (h : t.Listed lists) :
    (walked t (lists .inactive)).On .inactive n ↔
      .nbio n ∈ lists .inactive ∧ ¬ ∃ ev ∈ hits t (lists .inactive), ev.1 = n := by
  rw [walked_on h, Iothread.mem_reported]
  constructor
  · rintro (⟨hall, hq⟩ | ⟨-, hq⟩)
    · exact ⟨hq, fun ⟨ev, hev, he⟩ => hall ev hev he⟩
    · cases hq
  · rintro ⟨hq, hnot⟩
    exact .inl ⟨fun ev hev he => hnot ⟨ev, hev, he⟩, hq⟩

/-- What stays on the inactive list is as it was. -/
theorem walked_nbio (h : t.Listed lists) (hn : (walked t (lists .inactive)).On .inactive n) :
    (walked t (lists .inactive)).nbio n = t.nbio n :=
  foldl_deliver_other fun ev hev he => ((walked_inactive h).mp hn).2 ⟨ev, hev, he⟩

/-- The slots of those that stay. -/
theorem mem_stays_iff {revents : ℕ → UInt16} (hs : ∀ n, .nbio n ∈ L → Slotted t n) {e : ℕ} :
    e ∈ stays (polled t revents) L ↔ ∃ n, .nbio n ∈ L ∧ Slot t n e ∧ revents e = 0 := by
  rw [mem_stays]
  constructor
  · rintro ⟨n, hn, hslot, h0⟩
    have hown := slot_of_some (hs n hn) hslot
    exact ⟨n, hn, hown, by rwa [polled_revents hown] at h0⟩
  · rintro ⟨n, hn, hown, h0⟩
    exact ⟨n, hn, hown.slot, by rwa [polled_revents hown]⟩

theorem stays_nodup {revents : ℕ → UInt16} (hs : ∀ n, .nbio n ∈ L → Slotted t n)
    (hfd : ∀ n m, .nbio n ∈ L → .nbio m ∈ L → (t.nbio n).fd = (t.nbio m).fd → n = m)
    (hL : L.Nodup) : (stays (polled t revents) L).Nodup := by
  rw [stays, List.Nodup, List.pairwise_filterMap]
  refine List.Pairwise.imp_of_mem ?_ hL
  rintro a b ha hb hne i hi j hj rfl
  cases a with
  | head q => cases hi
  | nbio n =>
    cases b with
    | head q => cases hj
    | nbio m =>
      obtain ⟨i', hi', hi⟩ := Option.bind_eq_some_iff.mp hi
      obtain ⟨j', hj', hj⟩ := Option.bind_eq_some_iff.mp hj
      split_ifs at hi hj
      obtain rfl := Option.some.inj hi
      obtain rfl := Option.some.inj hj
      have hn := slot_of_some (hs n ha) hi'
      have hm := slot_of_some (hs m hb) hj'
      exact hne (congrArg _ (hfd n m ha hb (hn.fd.symm.trans hm.fd)))

theorem polled_pfd (t : Iothread PollPriv) (revents : ℕ → UInt16) (i : ℕ) :
    ((polled t revents).priv.pfd i).fd = (t.priv.pfd i).fd ∧
      ((polled t revents).priv.pfd i).events = (t.priv.pfd i).events := by
  unfold polled
  dsimp only
  split_ifs <;> exact ⟨rfl, rfl⟩

theorem walked_numPfd (t : Iothread PollPriv) (revents : ℕ → UInt16) (L : List Addr) :
    (walked (polled t revents) L).priv.numPfd = (stays (polled t revents) L).length := by
  show ((stays (polled t revents) L).foldl keep (polled t revents).priv).numPfd = _
  rw [foldl_keep_numPfd]
  exact Nat.zero_add _

/-- With the slots in order everyone who stays keeps its own. -/
theorem kept_of_range {revents : ℕ → UInt16} (h : t.Listed lists)
    (hs : ∀ n, .nbio n ∈ lists .inactive → Slotted t n)
    (hrange : stays (polled t revents) (lists .inactive) =
      List.range (stays (polled t revents) (lists .inactive)).length)
    (hon : (walked (polled t revents) (lists .inactive)).On .inactive n) :
    Slotted (walked (polled t revents) (lists .inactive)) n := by
  have h₀ : (polled t revents).Listed lists := ⟨h.rings, h.nbios⟩
  obtain ⟨hn, hnot⟩ := (walked_inactive h₀).mp hon
  have hsame : (walked (polled t revents) (lists .inactive)).nbio n = t.nbio n :=
    walked_nbio h₀ hon
  have hpriv : (walked (polled t revents) (lists .inactive)).priv =
      { (polled t revents).priv with
        numPfd := (stays (polled t revents) (lists .inactive)).length } := by
    have hkeep := foldl_keep_range (polled t revents).priv
      (stays (polled t revents) (lists .inactive)).length
    rw [show (polled t revents).priv.numPfd = 0 from rfl, Nat.zero_add,
      ← List.range_eq_range', ← hrange] at hkeep
    exact hkeep
  rcases hs n hn with hnone | ⟨i, hi⟩
  · left
    rw [hsame]
    exact hnone
  · right
    have h0 : revents i = 0 := by
      by_contra hne
      exact hnot ((hit_iff (hs n hn) hn).mpr ⟨i, hi, hne⟩)
    have hused := (mem_stays_iff hs).mpr ⟨n, hn, hi, h0⟩
    rw [hrange, List.mem_range] at hused
    refine ⟨i, by rw [hsame]; exact hi.index, by rw [hpriv]; exact hused, ?_, ?_⟩
    · rw [hsame, hpriv]
      exact (polled_pfd t revents i).1.trans hi.fd
    · rw [hsame, hpriv]
      exact (polled_pfd t revents i).2.trans hi.events

/-- And only then. -/
theorem range_of_kept {revents : ℕ → UInt16} (h : t.Listed lists)
    (hs : ∀ n, .nbio n ∈ lists .inactive → Slotted t n) (hfd : Distinct t)
    (hall : ∀ n, (walked (polled t revents) (lists .inactive)).On .inactive n →
      Slotted (walked (polled t revents) (lists .inactive)) n) :
    stays (polled t revents) (lists .inactive) =
      List.range (stays (polled t revents) (lists .inactive)).length := by
  have h₀ : (polled t revents).Listed lists := ⟨h.rings, h.nbios⟩
  have hnodup := (List.nodup_cons.mp (h.rings.ring .inactive).nodup).2
  have hfd' : ∀ n m, .nbio n ∈ lists .inactive → .nbio m ∈ lists .inactive →
      (t.nbio n).fd = (t.nbio m).fd → n = m := fun n m hn hm =>
    hfd n m (h.on_iff.mpr hn) (h.on_iff.mpr hm)
  refine (compact_iff (p := (polled t revents).priv) rfl (stays_nodup hs hfd' hnodup) ?_).mp ?_
  · intro i hi j hj hij
    obtain ⟨n, hn, hni, -⟩ := (mem_stays_iff hs).mp hi
    obtain ⟨m, hm, hmj, -⟩ := (mem_stays_iff hs).mp hj
    rw [(polled_pfd t revents i).1, (polled_pfd t revents j).1, hni.fd, hmj.fd] at hij
    obtain rfl := hfd' n m hn hm hij
    exact hni.unique hmj
  · intro e he
    obtain ⟨n, hn, hslot, h0⟩ := (mem_stays_iff hs).mp he
    have hon : (walked (polled t revents) (lists .inactive)).On .inactive n := by
      refine (walked_inactive h₀).mpr ⟨hn, fun hhit => ?_⟩
      obtain ⟨i, hi, hne⟩ := (hit_iff (hs n hn) hn).mp hhit
      exact hne (hi.unique hslot ▸ h0)
    have hsame : (walked (polled t revents) (lists .inactive)).nbio n = t.nbio n :=
      walked_nbio h₀ hon
    have hidx := hslot.index
    rcases hall n hon with ⟨-, hneg⟩ | ⟨i, hi⟩
    · rw [hsame] at hneg
      omega
    · have hei : e = i := by
        have hidx' := hi.index
        rw [hsame, hidx] at hidx'
        exact_mod_cast hidx'
      subst hei
      refine ⟨walked_numPfd t revents _ ▸ hi.used, hi.fd.trans ?_⟩
      rw [hsame, (polled_pfd t revents e).1]
      exact hslot.fd.symm

/-- A call of `poll_pump` delivers the events it is given in any case, and leaves everyone with
a slot if the slots of those that stay are in the order of the list. -/
theorem delivered {revents : ℕ → UInt16} (h : t.Listed lists)
    (hs : ∀ n, t.On .inactive n → Slotted t n) (hin : InOrder t revents)
    (ht : Pump t (some revents) t') : Delivered t revents t' := by
  obtain rfl := (pump_eq h).mp ht
  have h₀ : (polled t revents).Listed lists := ⟨h.rings, h.nbios⟩
  refine ⟨fun n hn => ?_, fun n i hn hi h0 => ?_, fun n hn hnot => ?_, fun n hn => ?_⟩
  · exact (walked_active h₀ hn).trans (hit_iff (hs n hn) (h.on_iff.mp hn))
  · refine foldl_deliver_flags ((hit_iff (hs n hn) (h.on_iff.mp hn)).mpr ⟨i, hi, h0⟩) ?_
    rintro ev hev rfl
    obtain ⟨-, j, hj, -, hflags⟩ := mem_hits.mp hev
    obtain rfl := (slot_of_some (hs _ hn) hj).unique hi
    rw [hflags, polled_revents hi]
  · refine (walked_inactive h₀).mpr ⟨h.on_iff.mp hn, fun hhit => hnot ?_⟩
    exact (hit_iff (hs n hn) (h.on_iff.mp hn)).mp hhit
  · exact kept_of_range h (fun n hn => hs n (h.on_iff.mpr hn)) (hin lists h) hn

theorem delivered_iff {revents : ℕ → UInt16} (h : t.Listed lists)
    (hs : ∀ n, t.On .inactive n → Slotted t n) (hfd : Distinct t)
    (ht : Pump t (some revents) t') : Delivered t revents t' ↔ InOrder t revents := by
  refine ⟨fun hd lists' h' => ?_, fun hin => delivered h hs hin ht⟩
  obtain rfl := (pump_eq h').mp ht
  exact range_of_kept h' (fun n hn => hs n (h'.on_iff.mpr hn)) hfd hd.kept

theorem deliver_agrees (evs : List (ℕ × UInt8)) (h : t.Agrees u) :
    (evs.foldl Iothread.report t).Agrees (evs.foldl deliver u) := by
  induction evs generalizing t u with
  | nil => exact h
  | cons ev evs ih =>
    refine ih ⟨?_, fun m => ?_, fun m => ?_⟩
    · show u.links.moveTail _ _ = t.links.moveTail _ _
      rw [h.links]
    · by_cases hm : m = ev.1
      · subst hm
        simp [deliver, Iothread.report, h.mask]
      · simp [deliver, Iothread.report, Iothread.modify_of_ne _ _ hm, h.mask]
    · by_cases hm : m = ev.1
      · subst hm
        simp [deliver, Iothread.report]
      · simp [deliver, Iothread.report, Iothread.modify_of_ne _ _ hm, h.flags]

theorem room_agrees (t : Iothread PollPriv) (p : PollPriv) : t.Agrees { t with priv := p } :=
  ⟨rfl, fun _ => rfl, fun _ => rfl⟩

theorem inactive_agrees (t : Iothread PollPriv) (n : ℕ) : t.Agrees (inactive t n) := by
  unfold inactive
  obtain ⟨p, ok⟩ := t.priv.room
  cases ok with
  | false => exact room_agrees t p
  | true =>
    refine Iothread.Agrees.modify (f := fun io => { io with evPriv := p.numPfd }) ?_
      (fun _ => rfl) fun _ => rfl
    exact room_agrees t _

end Poll

/-- What is reported is on the inactive list, whatever is being watched. -/
def poll : Backend PollPriv (Option (ℕ → UInt16)) where
  inactive := Poll.inactive
  active := Poll.active
  pump := Poll.Pump
  watched _ _ := False
  inactive_agrees := Poll.inactive_agrees
  active_agrees t _ := (Iothread.Agrees.refl t).modify (f := fun io => { io with evPriv := -1 })
    (fun _ => rfl) fun _ => rfl
  inactive_watched _ _ _ hm := hm.elim
  active_watched _ _ _ hm := hm
  pump_reports t a t' lists h ht := by
    cases a with
    | none =>
      obtain rfl : t' = t := ht
      exact ⟨[], fun ev hev => absurd hev List.not_mem_nil, .refl t', fun m hm => hm⟩
    | some revents =>
      obtain rfl := (Poll.pump_eq h).mp ht
      refine ⟨Poll.hits (Poll.polled t revents) (lists .inactive), fun ev hev =>
        .inr (Poll.mem_hits.mp hev).1, ?_, fun m hm => hm⟩
      have hag := Poll.deliver_agrees (Poll.hits (Poll.polled t revents) (lists .inactive))
        (Poll.room_agrees t (Poll.polled t revents).priv)
      exact ⟨hag.links, hag.mask, hag.flags⟩

end Mayhem
