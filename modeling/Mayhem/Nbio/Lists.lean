import Mayhem.Nbio.Pump

/-! The lists of a thread under every call and every step of `nbio_pump` and `nbio_fini`: they
stay apart, and an `nbio` leaves them all only when it is destroyed. -/
namespace Mayhem

open Links (Tied Off moved removed)

namespace Iothread

variable {P : Type} {t t' : Iothread P} {lists lists' : Queue → List Addr} {n m : ℕ} {q : Queue}

/-- The same but for what only the event loop plugin reads. -/
structure Agrees (t t' : Iothread P) : Prop where
  links : t'.links = t.links
  mask : ∀ n, (t'.nbio n).mask = (t.nbio n).mask
  flags : ∀ n, (t'.nbio n).flags = (t.nbio n).flags

theorem Agrees.refl (t : Iothread P) : t.Agrees t := ⟨rfl, fun _ => rfl, fun _ => rfl⟩

theorem Agrees.modify (h : t.Agrees t') {f : Nbio → Nbio} (hmask : ∀ io, (f io).mask = io.mask)
    (hflags : ∀ io, (f io).flags = io.flags) : t.Agrees (t'.modify n f) := by
  refine ⟨h.links, fun m => ?_, fun m => ?_⟩
  · by_cases hm : m = n
    · subst hm
      rw [modify_self, hmask, h.mask]
    · rw [modify_of_ne _ _ hm, h.mask]
  · by_cases hm : m = n
    · subst hm
      rw [modify_self, hflags, h.flags]
    · rw [modify_of_ne _ _ hm, h.flags]

/-- What a plugin does with an event. -/
def report (t : Iothread P) (ev : ℕ × UInt8) : Iothread P :=
  (t.modify ev.1 fun io => { io with flags := ev.2 }).moveTail ev.1 .active

structure Listed (t : Iothread P) (lists : Queue → List Addr) : Prop where
  rings : t.links.Rings .head lists
  nbios : ∀ q a, a ∈ lists q → ∃ n, a = .nbio n

/-- `n` is on the list `q`: the links lead to it from the head. -/
def On (t : Iothread P) (q : Queue) (n : ℕ) : Prop :=
  ∃ k, t.links.next^[k] (.head q) = .nbio n

theorem Listed.on_iff (h : t.Listed lists) : t.On q n ↔ .nbio n ∈ lists q :=
  ((h.rings.ring q).mem_iff (by simp)).symm

/-- On some list. -/
def Somewhere (lists : Queue → List Addr) (n : ℕ) : Prop := ∃ q, .nbio n ∈ lists q

/-- A list with what is known of flags and mask of its members: there is something to do for
those on the active list that are not deleted, and nothing for the others. -/
structure Flagged (t : Iothread P) (lists : Queue → List Addr) : Prop where
  idle : ∀ q n, q ≠ .active → .nbio n ∈ lists q → (t.nbio n).flags &&& (t.nbio n).mask = 0
  busy : ∀ n, .nbio n ∈ lists .active →
    (t.nbio n).mask = NBIO_DELETED ∨ (t.nbio n).flags &&& (t.nbio n).mask ≠ 0

/-- What a call on `n` does to the lists. -/
def Moved (n : ℕ) (lists lists' : Queue → List Addr) : Prop :=
  lists' = lists ∨ ∃ q, lists' = moved lists (.nbio n) q

theorem Moved.somewhere (h : Moved n lists lists') (hm : Somewhere lists m) :
    Somewhere lists' m := by
  obtain ⟨q, hq⟩ := hm
  rcases h with rfl | ⟨q', rfl⟩
  · exact ⟨q, hq⟩
  · by_cases hmn : m = n
    · subst hmn
      exact ⟨q', Links.mem_moved.mpr (.inr ⟨rfl, rfl⟩)⟩
    · exact ⟨q, Links.mem_moved.mpr (.inl ⟨hq, by simpa using hmn⟩)⟩

theorem Moved.mem_iff (h : Moved n lists lists') (hmn : m ≠ n) :
    .nbio m ∈ lists' q ↔ .nbio m ∈ lists q := by
  rcases h with rfl | ⟨q', rfl⟩
  · exact Iff.rfl
  · rw [Links.mem_moved]
    simp [hmn]

theorem Listed.agrees (h : t.Listed lists) (ht : t.Agrees t') : t'.Listed lists :=
  ⟨ht.links ▸ h.rings, h.nbios⟩

theorem Listed.modify (h : t.Listed lists) (f : Nbio → Nbio) : (t.modify n f).Listed lists :=
  ⟨h.rings, h.nbios⟩

theorem Listed.moveTail (h : t.Listed lists) (hn : t.links.Tied .head lists (.nbio n))
    (q : Queue) : (t.moveTail n q).Listed (moved lists (.nbio n) q) := by
  refine ⟨h.rings.moveTail hn q, fun q' a ha => ?_⟩
  rcases Links.mem_moved.mp ha with ⟨ha, -⟩ | ⟨rfl, -⟩
  · exact h.nbios q' a ha
  · exact ⟨n, rfl⟩

theorem off_of_nowhere (hn : ¬ Somewhere lists n) : Off Addr.head lists (.nbio n) := by
  intro q hmem
  rcases List.mem_cons.mp hmem with hh | hq
  · cases hh
  · exact hn ⟨q, hq⟩

theorem Flagged.agrees (h : t.Flagged lists) (ht : t.Agrees t') : t'.Flagged lists := by
  refine ⟨fun q n hq hn => ?_, fun n hn => ?_⟩
  · rw [ht.flags, ht.mask]
    exact h.idle q n hq hn
  · rw [ht.flags, ht.mask]
    exact h.busy n hn

/-- A move of `n` to a list that its new flags and mask fit. -/
theorem Flagged.moved (h : t.Flagged lists)
    (hother : ∀ m, m ≠ n → (t'.nbio m).mask = (t.nbio m).mask ∧
      (t'.nbio m).flags = (t.nbio m).flags)
    (hidle : q ≠ .active → (t'.nbio n).flags &&& (t'.nbio n).mask = 0)
    (hbusy : q = .active →
      (t'.nbio n).mask = NBIO_DELETED ∨ (t'.nbio n).flags &&& (t'.nbio n).mask ≠ 0) :
    t'.Flagged (moved lists (.nbio n) q) := by
  refine ⟨fun q' m hq hm => ?_, fun m hm => ?_⟩
  · rcases Links.mem_moved.mp hm with ⟨hm, hne⟩ | ⟨he, rfl⟩
    · obtain ⟨hmask, hflags⟩ := hother m fun he => hne (he ▸ rfl)
      rw [hmask, hflags]
      exact h.idle q' m hq hm
    · obtain rfl := Addr.nbio.inj he
      exact hidle hq
  · rcases Links.mem_moved.mp hm with ⟨hm, hne⟩ | ⟨he, rfl⟩
    · obtain ⟨hmask, hflags⟩ := hother m fun he => hne (he ▸ rfl)
      rw [hmask, hflags]
      exact h.busy m hm
    · obtain rfl := Addr.nbio.inj he
      exact hbusy rfl

end Iothread

/-- An event loop plugin that leaves lists, masks and flags alone but for the events that it
reports: of those it has been asked to watch, or of those on the inactive list. -/
structure Backend (P A : Type) extends Eventloop P A where
  watched : P → ℕ → Prop
  inactive_agrees : ∀ (t : Iothread P) n, t.Agrees (inactive t n)
  inactive_watched : ∀ t n m, watched (inactive t n).priv m → m = n ∨ watched t.priv m
  active_agrees : ∀ (t : Iothread P) n, t.Agrees (active t n)
  active_watched : ∀ t n m, watched (active t n).priv m → watched t.priv m
  pump_reports : ∀ (t : Iothread P) a t' lists, t.Listed lists → pump t a t' →
    ∃ evs : List (ℕ × UInt8),
    (∀ ev ∈ evs, watched t.priv ev.1 ∨ .nbio ev.1 ∈ lists .inactive) ∧
      (evs.foldl Iothread.report t).Agrees t' ∧ ∀ m, watched t'.priv m → watched t.priv m

namespace Iothread

variable {P A : Type} {t t' : Iothread P} {lists lists' : Queue → List Addr} {n m : ℕ} {q : Queue}

/-- The lists are well formed, and what the plugin may report can be moved. -/
structure Wired (b : Backend P A) (t : Iothread P) (lists : Queue → List Addr) : Prop
    extends t.Listed lists where
  tied : ∀ n, b.watched t.priv n → t.links.Tied .head lists (.nbio n)

variable {b : Backend P A}

theorem nbioInit_wired (links : Links Addr) (nbio : ℕ → Nbio) {priv : P}
    (h : ∀ n, ¬ b.watched priv n) : (nbioInit links nbio priv).Wired b fun _ => [] where
  rings := by
    refine ⟨fun q => ⟨by simp, ?_⟩, fun q q' hne a ha ha' => ?_⟩
    · exact List.isChain_pair.mpr ⟨rfl, rfl⟩
    · obtain rfl := List.mem_singleton.mp ha
      exact hne (Addr.head.inj (List.mem_singleton.mp ha'))
  nbios q a ha := absurd ha List.not_mem_nil
  tied n hn := absurd hn (h n)

theorem Wired.modify (h : t.Wired b lists) (f : Nbio → Nbio) : (t.modify n f).Wired b lists :=
  ⟨h.toListed.modify f, h.tied⟩

theorem Wired.moveTail (h : t.Wired b lists) (hn : t.links.Tied .head lists (.nbio n))
    (q : Queue) : (t.moveTail n q).Wired b (Links.moved lists (.nbio n) q) :=
  ⟨h.toListed.moveTail hn q, fun m hm => Tied.moveTail h.rings hn q (h.tied m hm)⟩

theorem Wired.active (h : t.Wired b lists) (n : ℕ) : (b.active t n).Wired b lists := by
  have hag := b.active_agrees t n
  refine ⟨h.toListed.agrees hag, fun m hm => ?_⟩
  rw [hag.links]
  exact h.tied m (b.active_watched t n m hm)

theorem Wired.inactive (h : t.Wired b lists) (hn : t.links.Tied .head lists (.nbio n)) :
    (b.inactive t n).Wired b lists := by
  have hag := b.inactive_agrees t n
  refine ⟨h.toListed.agrees hag, fun m hm => ?_⟩
  rw [hag.links]
  rcases b.inactive_watched t n m hm with rfl | hm
  · exact hn
  · exact h.tied m hm

/-- After a call: where things are, and whether flags and masks still fit. -/
structure Next (b : Backend P A) (n : ℕ) (t : Iothread P) (lists : Queue → List Addr)
    (t' : Iothread P) (lists' : Queue → List Addr) : Prop where
  moved : Moved n lists lists'
  wired : t'.Wired b lists'
  flagged : t.Flagged lists → t'.Flagged lists'

theorem nbioDel_next (h : t.Wired b lists) (hn : t.links.Tied .head lists (.nbio n)) :
    Next b n t lists (t.nbioDel b.toEventloop n) (Links.moved lists (.nbio n) .deleted) := by
  have hag := b.active_agrees t n
  refine ⟨.inr ⟨_, rfl⟩, ?_, fun hf => ?_⟩
  · exact ((h.active n).modify _).moveTail (by rw [modify_links, hag.links]; exact hn) _
  · refine (hf.agrees hag).moved (fun m hm => ?_) (fun _ => ?_) (fun hq => by cases hq)
    · simp [nbioDel, modify_of_ne _ _ hm]
    · simp [nbioDel]

theorem and_not_and (f k m : UInt8) (h : f &&& k = 0) : f &&& ~~~m &&& k = 0 := by
  rw [UInt8.and_assoc, UInt8.and_comm (~~~m) k, ← UInt8.and_assoc, h, UInt8.zero_and]

theorem nbioInactive_next (h : t.Wired b lists) (hn : t.links.Tied .head lists (.nbio n))
    (mask : UInt8) : ∃ lists', Next b n t lists (t.nbioInactive b.toEventloop n mask) lists' := by
  unfold nbioInactive
  dsimp only
  split_ifs with hidle
  · -- nothing is left to do for it
    refine ⟨Links.moved lists (.nbio n) .inactive, .inr ⟨_, rfl⟩, ?_, fun hf => ?_⟩
    · refine ((h.modify _).moveTail hn _).inactive (.inl ⟨.inactive, ?_⟩)
      exact Links.mem_moved.mpr (.inr ⟨rfl, rfl⟩)
    · refine Flagged.agrees ?_ (b.inactive_agrees _ _)
      refine hf.moved (fun m hm => ?_) (fun _ => ?_) (fun hq => by cases hq)
      · rw [moveTail_nbio, modify_of_ne _ _ hm]
        exact ⟨rfl, rfl⟩
      · rw [UInt8.and_comm]
        exact hidle
  · refine ⟨lists, .inl rfl, h.modify _, fun hf => ⟨fun q m hq hm => ?_, fun m hm => ?_⟩⟩
    · by_cases hmn : m = n
      · subst hmn
        rw [modify_self]
        exact and_not_and _ _ _ (hf.idle q m hq hm)
      · rw [modify_of_ne _ _ hmn]
        exact hf.idle q m hq hm
    · by_cases hmn : m = n
      · subst hmn
        right
        rw [UInt8.and_comm]
        exact hidle
      · rw [modify_of_ne _ _ hmn]
        exact hf.busy m hm

/-- With the assertion met, flags and mask are what is waited for, and say which list. -/
theorem doSetWait_eq {e : Eventloop P A} {wait : UInt8} {o : Option Queue}
    (ht : t.doSetWait e n wait o = some t') :
    t' = (e.active (t.modify n fun io =>
      { io with mask := wait &&& NBIO_WAIT, flags := wait &&& NBIO_WAIT }) n).moveTail n
        (if wait &&& NBIO_WAIT = 0 then o.getD .inactive else .active) := by
  unfold doSetWait at ht
  dsimp only at ht
  split_ifs at ht with hdel hw
  · rw [if_pos hw]
    exact (Option.some.inj ht).symm
  · rw [if_neg hw]
    exact (Option.some.inj ht).symm

theorem doSetWait_wired (h : t.Wired b lists) (hn : t.links.Tied .head lists (.nbio n))
    {wait : UInt8} {o : Option Queue} (ht : t.doSetWait b.toEventloop n wait o = some t') :
    t'.Wired b (Links.moved lists (.nbio n)
      (if wait &&& NBIO_WAIT = 0 then o.getD .inactive else .active)) := by
  rw [doSetWait_eq ht]
  have hag := b.active_agrees (t.modify n fun io =>
    { io with mask := wait &&& NBIO_WAIT, flags := wait &&& NBIO_WAIT }) n
  exact ((h.modify _).active n).moveTail (by rw [hag.links]; exact hn) _

theorem doSetWait_next (h : t.Wired b lists) (hn : t.links.Tied .head lists (.nbio n))
    {wait : UInt8} {o : Option Queue} (ho : o ≠ some .active)
    (ht : t.doSetWait b.toEventloop n wait o = some t') :
    ∃ q, Next b n t lists t' (Links.moved lists (.nbio n) q) := by
  have hwired := doSetWait_wired h hn ht
  rw [doSetWait_eq ht] at hwired ⊢
  have hag := b.active_agrees (t.modify n fun io =>
    { io with mask := wait &&& NBIO_WAIT, flags := wait &&& NBIO_WAIT }) n
  refine ⟨_, .inr ⟨_, rfl⟩, hwired, fun hf => hf.moved (fun m hm => ?_) (fun hq => ?_)
    fun hq => ?_⟩
  · rw [moveTail_nbio, hag.mask, hag.flags, modify_of_ne _ _ hm]
    exact ⟨rfl, rfl⟩
  · rw [moveTail_nbio, hag.mask, hag.flags, modify_self]
    by_cases hw : wait &&& NBIO_WAIT = 0
    · simp [hw]
    · simp [hw] at hq
  · rw [moveTail_nbio, hag.mask, hag.flags, modify_self]
    by_cases hw : wait &&& NBIO_WAIT = 0
    · rw [if_pos hw] at hq
      cases o with
      | none => cases hq
      | some q => exact absurd (congrArg some hq) ho
    · simp [hw]

/-- What `nbio_add` is for: what is on no list. -/
def Fit (t : Iothread P) (lists : Queue → List Addr) : Call → Prop
  | .add n _ => ¬ Somewhere lists n
  | c => t.links.Tied .head lists (.nbio c.target)

theorem Wired.init (h : t.Wired b lists) (hn : ¬ Somewhere lists n) :
    ({ t with links := t.links.init (.nbio n) } : Iothread P).Wired b lists :=
  ⟨⟨h.rings.init (off_of_nowhere hn), h.nbios⟩,
    fun m hm => (h.tied m hm).init (off_of_nowhere hn)⟩

theorem nbioAdd_wired {wait : UInt8} (h : t.Wired b lists) (hn : ¬ Somewhere lists n)
    (ht : t.nbioAdd b.toEventloop n wait = some t') : t'.Wired b (Links.moved lists (.nbio n)
      (if wait &&& NBIO_WAIT = 0 then .inactive else .active)) :=
  doSetWait_wired ((h.init hn).modify _) (Links.tied_init (off_of_nowhere hn)) (o := none) ht

theorem nbioAdd_next {wait : UInt8} (h : t.Wired b lists) (hn : ¬ Somewhere lists n)
    (ht : t.nbioAdd b.toEventloop n wait = some t') :
    ∃ q, Next b n t lists t' (Links.moved lists (.nbio n) q) := by
  obtain ⟨q, hq⟩ := doSetWait_next ((h.init hn).modify _) (Links.tied_init (off_of_nowhere hn))
    (o := none) (by simp) ht
  refine ⟨q, hq.moved, hq.wired, fun hf => hq.flagged ?_⟩
  have hne : ∀ {q m}, .nbio m ∈ lists q → m ≠ n := by
    rintro q m hm rfl
    exact hn ⟨q, hm⟩
  refine ⟨fun q m hq hm => ?_, fun m hm => ?_⟩
  · rw [modify_of_ne _ _ (hne hm)]
    exact hf.idle q m hq hm
  · rw [modify_of_ne _ _ (hne hm)]
    exact hf.busy m hm

theorem not_somewhere_nil : ¬ Somewhere (fun _ => []) n := fun ⟨_, hmem⟩ =>
  absurd hmem List.not_mem_nil

/-- A thread that has just been initialised has nothing on its lists. -/
theorem nbioInit_off (links : Links Addr) (nbio : ℕ → Nbio) {priv : P}
    (h : ∀ n, ¬ b.watched priv n) : ¬ (nbioInit links nbio priv).On q n := by
  rw [(nbioInit_wired links nbio h).toListed.on_iff]
  exact List.not_mem_nil

/-- The first that is added is the only one on a list. -/
theorem nbioInit_add_off (links : Links Addr) (nbio : ℕ → Nbio) {priv : P}
    (h : ∀ n, ¬ b.watched priv n) (wait : UInt8)
    (ht : (nbioInit links nbio priv).nbioAdd b.toEventloop n wait = some t') (hmn : m ≠ n) :
    ¬ t'.On q m := by
  obtain ⟨q', hnext⟩ := nbioAdd_next (nbioInit_wired links nbio h) not_somewhere_nil ht
  rw [hnext.wired.toListed.on_iff, hnext.moved.mem_iff hmn]
  exact List.not_mem_nil

theorem call_next {c : Call} (h : t.Wired b lists) (hc : t.Fit lists c)
    (ht : t.call b.toEventloop c = some t') : ∃ lists', Next b c.target t lists t' lists' := by
  cases c with
  | add n wait => exact (nbioAdd_next h hc ht).imp' _ fun _ hq => hq
  | inactive n mask =>
    obtain rfl := Option.some.inj ht
    exact nbioInactive_next h hc mask
  | setWait n wait => exact (doSetWait_next h hc (by simp) ht).imp' _ fun _ hq => hq
  | toWaitq n k => exact (doSetWait_next h hc (by simp) ht).imp' _ fun _ hq => hq
  | wake n wait => exact (doSetWait_next h hc (by simp) ht).imp' _ fun _ hq => hq
  | del n =>
    obtain rfl := Option.some.inj ht
    exact ⟨_, nbioDel_next h hc⟩

theorem Wired.destroy (h : t.Wired b lists) (hn : .nbio n ∈ lists q) :
    ({ t with links := t.links.del (.nbio n) } : Iothread P).Wired b (removed lists (.nbio n)) where
  rings := h.rings.del hn
  nbios q a ha := h.nbios q a (Links.mem_removed.mp ha).1
  tied m hm := (h.tied m hm).del h.rings hn

/-- The lists after a plugin has reported the events `evs`. -/
def reported (lists : Queue → List Addr) (evs : List (ℕ × UInt8)) : Queue → List Addr :=
  evs.foldl (fun l ev => Links.moved l (.nbio ev.1) .active) lists

theorem somewhere_reported (evs : List (ℕ × UInt8)) (hm : Somewhere lists m) :
    Somewhere (reported lists evs) m := by
  induction evs generalizing lists with
  | nil => exact hm
  | cons ev evs ih => exact ih (Moved.somewhere (.inr ⟨_, rfl⟩) hm)

theorem mem_reported (evs : List (ℕ × UInt8)) : .nbio m ∈ reported lists evs q ↔
    (∀ ev ∈ evs, ev.1 ≠ m) ∧ .nbio m ∈ lists q ∨ (∃ ev ∈ evs, ev.1 = m) ∧ q = .active := by
  induction evs generalizing lists with
  | nil => simp [reported]
  | cons ev evs ih =>
    show .nbio m ∈ reported (Links.moved lists (.nbio ev.1) .active) evs q ↔ _
    have hnone : (∀ ev' ∈ evs, ev'.1 ≠ m) ↔ ¬ ∃ ev' ∈ evs, ev'.1 = m := by
      push Not
      rfl
    rw [ih, Links.mem_moved, List.forall_mem_cons, List.exists_mem_cons_iff, hnone, ne_eq,
      Addr.nbio.injEq, eq_comm (a := m)]
    tauto

theorem report_wired {evs : List (ℕ × UInt8)} (h : t.Wired b lists)
    (hevs : ∀ ev ∈ evs, t.links.Tied .head lists (.nbio ev.1)) :
    (evs.foldl report t).Wired b (reported lists evs) := by
  induction evs generalizing t lists with
  | nil => exact h
  | cons ev evs ih =>
    have hev := hevs ev List.mem_cons_self
    refine ih ((h.modify _).moveTail hev _) fun ev' hev' => ?_
    exact Tied.moveTail h.rings hev _ (hevs ev' (List.mem_cons_of_mem _ hev'))

theorem report_priv (t : Iothread P) (evs : List (ℕ × UInt8)) :
    (evs.foldl report t).priv = t.priv := by
  induction evs generalizing t with
  | nil => rfl
  | cons ev evs ih => exact (ih _).trans rfl

/-- What a call of the plugin does to the lists. -/
theorem pump_next {a : A} (h : t.Wired b lists) (ht : b.pump t a t') :
    ∃ evs : List (ℕ × UInt8),
      (∀ ev ∈ evs, b.watched t.priv ev.1 ∨ .nbio ev.1 ∈ lists .inactive) ∧
        (evs.foldl report t).Agrees t' ∧ t'.Wired b (reported lists evs) := by
  obtain ⟨evs, hevs, hag, hwatched⟩ := b.pump_reports t a t' lists h.toListed ht
  have hreport : (evs.foldl report t).Wired b (reported lists evs) :=
    report_wired h fun ev hev => (hevs ev hev).elim (h.tied ev.1) fun hq => .inl ⟨_, hq⟩
  refine ⟨evs, hevs, hag, hreport.toListed.agrees hag, fun m hm => ?_⟩
  rw [hag.links]
  apply hreport.tied m
  rw [report_priv]
  exact hwatched m hm

end Iothread

namespace Loop

open Iothread (Somewhere)

variable {P A : Type} {b : Backend P A} {s s' : Loop P} {lists : Queue → List Addr}

/-- A list head, or an entry of a list. -/
def Known (lists : Queue → List Addr) (a : Addr) : Prop :=
  (∃ q, a = .head q) ∨ ∃ q, a ∈ lists q

/-- A loop that takes its list apart is at the first entry. -/
def Front (t : Iothread P) (lists : Queue → List Addr) (q : Queue) (pos tmp : Addr) : Prop :=
  pos = (lists q).headD (.head q) ∧ tmp = t.links.next pos

def PcFits (t : Iothread P) (lists : Queue → List Addr) : Pc → Prop
  | .test pos tmp => Known lists pos ∧ Known lists tmp
  | .check n tmp => Somewhere lists n ∧ Known lists tmp
  | .write n tmp => Somewhere lists n ∧ Known lists tmp
  | .inWrite n tmp => Somewhere lists n ∧ Known lists tmp
  | .read n tmp => Somewhere lists n ∧ Known lists tmp
  | .inRead n tmp => Somewhere lists n ∧ Known lists tmp
  | .error n tmp => Somewhere lists n ∧ Known lists tmp
  | .reap pos tmp => Front t lists .deleted pos tmp
  | .finiInactive pos tmp => Front t lists .inactive pos tmp
  | .finiDeleted pos tmp => Front t lists .deleted pos tmp
  | .finiActive pos tmp => Front t lists .active pos tmp
  | _ => True

structure Wired (b : Backend P A) (s : Loop P) (lists : Queue → List Addr) : Prop where
  wired : s.t.Wired b lists
  registered : ∀ n, s.registered n = true → Somewhere lists n
  pc : PcFits s.t lists s.pc

/-- The lists after a step of the code. -/
def after (s : Loop P) (lists : Queue → List Addr) : Queue → List Addr :=
  match s.pc with
  | .error n _ =>
    if (s.t.nbio n).flags &&& NBIO_ERROR ≠ 0 then moved lists (.nbio n) .deleted else lists
  | .reap (.nbio n) _ => removed lists (.nbio n)
  | .finiInactive (.nbio n) _ => moved lists (.nbio n) .active
  | .finiDeleted (.nbio n) _ => moved lists (.nbio n) .active
  | .finiActive (.nbio n) _ => removed lists (.nbio n)
  | _ => lists

theorem Known.next {t : Iothread P} (h : t.Listed lists) {a : Addr} (ha : Known lists a) :
    Known lists (t.links.next a) := by
  have hmem : ∀ q, a ∈ .head q :: lists q → Known lists (t.links.next a) := by
    intro q hq
    rcases List.mem_cons.mp ((h.rings.ring q).next_mem hq) with hh | hn
    · exact .inl ⟨q, hh⟩
    · exact .inr ⟨q, hn⟩
  rcases ha with ⟨q, rfl⟩ | ⟨q, hq⟩
  · exact hmem q List.mem_cons_self
  · exact hmem q (List.mem_cons_of_mem _ hq)

theorem Known.moved {a : Addr} (ha : Known lists a) (x : Addr) (q : Queue) :
    Known (Links.moved lists x q) a := by
  rcases ha with hh | ⟨q', hq'⟩
  · exact .inl hh
  · by_cases hax : a = x
    · exact .inr ⟨q, Links.mem_moved.mpr (.inr ⟨hax, rfl⟩)⟩
    · exact .inr ⟨q', Links.mem_moved.mpr (.inl ⟨hq', hax⟩)⟩

theorem Known.somewhere {n : ℕ} (h : Known lists (.nbio n)) : Somewhere lists n :=
  h.resolve_left fun ⟨_, hq⟩ => by cases hq

theorem Front.start {t : Iothread P} (h : t.Listed lists) (q : Queue) :
    Front t lists q (t.links.next (.head q)) (t.links.next (t.links.next (.head q))) :=
  ⟨(h.rings.ring q).next_head, rfl⟩

/-- Behind the first entry is the rest of the list. -/
theorem Front.cons {t : Iothread P} {q : Queue} {n : ℕ} {tmp : Addr} (h : t.Listed lists)
    (hf : Front t lists q (.nbio n) tmp) :
    ∃ rest, lists q = .nbio n :: rest ∧ tmp = rest.headD (.head q) := by
  obtain ⟨hpos, htmp⟩ := hf
  cases hq : lists q with
  | nil =>
    rw [hq] at hpos
    cases hpos
  | cons a rest =>
    rw [hq] at hpos
    obtain rfl : .nbio n = a := hpos
    have hr := h.rings.ring q
    rw [hq] at hr
    have hnext : t.links.next (.nbio n) = rest.headD (.head q) := by
      rw [← List.nil_append (.nbio n :: rest)] at hr
      exact hr.next_of_append
    exact ⟨rest, rfl, htmp.trans hnext⟩

theorem removed_front {q : Queue} {n : ℕ} {rest : List Addr} (hn : (lists q).Nodup)
    (hq : lists q = .nbio n :: rest) : removed lists (.nbio n) q = rest :=
  Links.removed_of_append (by rw [List.nil_append, ← hq]; exact hn)
    (hq.trans (List.nil_append _).symm)

theorem moved_front {q : Queue} {n : ℕ} {rest : List Addr} (hn : (lists q).Nodup)
    (hq : lists q = .nbio n :: rest) (hne : q ≠ .active) :
    moved lists (.nbio n) .active q = rest := by
  rw [moved, Links.added, Function.update_of_ne hne]
  exact removed_front hn hq

theorem Wired.destroy {n : ℕ} {q : Queue} (h : s.Wired b lists) (hn : .nbio n ∈ lists q)
    (pc : Pc) (hpc : PcFits (s.destroy n).t (removed lists (.nbio n)) pc) :
    ((s.destroy n).goto pc).Wired b (removed lists (.nbio n)) := by
  refine ⟨h.wired.destroy hn, fun m hm => ?_, hpc⟩
  by_cases hmn : m = n
  · subst hmn
    simp [goto, Loop.destroy] at hm
  · have hreg : s.registered m = true := by simpa [goto, Loop.destroy, hmn] using hm
    obtain ⟨q', hq'⟩ := h.registered m hreg
    exact ⟨q', Links.mem_removed.mpr ⟨hq', by simpa using hmn⟩⟩

theorem Wired.moved {n : ℕ} {q : Queue} {t' : Iothread P} (h : s.Wired b lists)
    (ht : t'.Wired b (Links.moved lists (.nbio n) q)) (pc : Pc)
    (hpc : PcFits t' (Links.moved lists (.nbio n) q) pc) :
    ({ s with t := t', pc := pc } : Loop P).Wired b (Links.moved lists (.nbio n) q) :=
  ⟨ht, fun m hm => Iothread.Moved.somewhere (.inr ⟨q, rfl⟩) (h.registered m hm), hpc⟩

theorem Wired.goto (h : s.Wired b lists) {pc : Pc} (hpc : PcFits s.t lists pc) :
    (s.goto pc).Wired b lists :=
  ⟨h.wired, h.registered, hpc⟩

theorem step_wired (h : s.Wired b lists) (hs : s.step b.toEventloop = some s') :
    s'.Wired b (s.after lists) := by
  have hl := h.wired.toListed
  have hpc := h.pc
  have hnodup : ∀ q, (lists q).Nodup := fun q => (List.nodup_cons.mp (hl.rings.ring q).nodup).2
  cases step_coded _ hs with
  | none hp =>
    simp only [after, hp]
    exact h.goto (Front.start hl _)
  | first hp =>
    simp only [after, hp]
    have hfirst : Known lists (s.t.links.next (.head .active)) := Known.next hl (.inl ⟨_, rfl⟩)
    exact h.goto ⟨hfirst, hfirst.next hl⟩
  | around hp =>
    simp only [after, hp]
    exact h.goto trivial
  | gone hp =>
    simp only [after, hp]
    exact h.goto trivial
  | visit hp =>
    rw [hp] at hpc
    simp only [after, hp]
    exact h.goto ⟨hpc.1.somewhere, hpc.2⟩
  | asserted hp =>
    rw [hp] at hpc
    simp only [after, hp]
    exact h.goto hpc
  | write hp =>
    rw [hp] at hpc
    simp only [after, hp]
    exact h.goto hpc
  | noWrite hp =>
    rw [hp] at hpc
    simp only [after, hp]
    exact h.goto hpc
  | read hp =>
    rw [hp] at hpc
    simp only [after, hp]
    exact h.goto hpc
  | noRead hp =>
    rw [hp] at hpc
    simp only [after, hp]
    exact h.goto hpc
  | @error n tmp hp =>
    rw [hp] at hpc
    obtain ⟨hn, htmp⟩ := hpc
    simp only [after, hp]
    unfold fail
    split_ifs
    · have hmove := (h.wired.modify (n := n) fun io =>
        { io with mask := NBIO_DELETED, flags := 0 }).moveTail (.inl hn) .deleted
      have htmp' := htmp.moved (.nbio n) .deleted
      exact h.moved hmove _ ⟨htmp', htmp'.next hmove.toListed⟩
    · exact ⟨h.wired, h.registered, htmp, htmp.next hl⟩
  | reaped hp =>
    simp only [after, hp]
    exact h.goto trivial
  | reap hp =>
    rw [hp] at hpc
    obtain ⟨rest, hq, htmp⟩ := hpc.cons hl
    simp only [after, hp]
    refine h.destroy (q := .deleted) (by simp [hq]) _ ⟨?_, rfl⟩
    rw [removed_front (hnodup _) hq, htmp]
  | noPoll hp =>
    simp only [after, hp]
    exact h.goto trivial
  | allActive hp =>
    simp only [after, hp]
    exact h.goto (Front.start hl _)
  | @activate n tmp hp =>
    rw [hp] at hpc
    obtain ⟨rest, hq, htmp⟩ := hpc.cons hl
    simp only [after, hp]
    have hn : .nbio n ∈ lists .inactive := by simp [hq]
    refine h.moved ((h.wired.moveTail (.inl ⟨_, hn⟩) _).active n) _ ⟨?_, rfl⟩
    rw [moved_front (hnodup _) hq (by simp), htmp]
  | noneDeleted hp =>
    simp only [after, hp]
    exact h.goto (Front.start hl _)
  | @undelete n tmp hp =>
    rw [hp] at hpc
    obtain ⟨rest, hq, htmp⟩ := hpc.cons hl
    simp only [after, hp]
    have hn : .nbio n ∈ lists .deleted := by simp [hq]
    refine h.moved (h.wired.moveTail (.inl ⟨_, hn⟩) _) _ ⟨?_, rfl⟩
    rw [moved_front (hnodup _) hq (by simp), htmp]
  | finished hp =>
    simp only [after, hp]
    exact h.goto trivial
  | finish hp =>
    rw [hp] at hpc
    obtain ⟨rest, hq, htmp⟩ := hpc.cons hl
    simp only [after, hp]
    refine h.destroy (q := .active) (by simp [hq]) _ ⟨?_, rfl⟩
    rw [removed_front (hnodup _) hq, htmp]

/-- A call does not take what a callback was made for off all lists. -/
theorem PcFits.call {t t' : Iothread P} {n : ℕ} {lists' : Queue → List Addr} {pc : Pc}
    (hpc : PcFits t lists pc) (huser : pc.User) (hm : Iothread.Moved n lists lists') :
    PcFits t' lists' pc := by
  have hknown : ∀ {a}, Known lists a → Known lists' a := by
    intro a ha
    rcases hm with rfl | ⟨q, rfl⟩
    · exact ha
    · exact ha.moved _ _
  cases pc with
  | idle => trivial
  | inWrite m tmp => exact ⟨hm.somewhere hpc.1, hknown hpc.2⟩
  | inRead m tmp => exact ⟨hm.somewhere hpc.1, hknown hpc.2⟩
  | _ => exact huser.elim

theorem call_wired {c : Iothread.Call} {t' : Iothread P} (h : s.Wired b lists)
    (huser : s.pc.User) (hc : s.t.Fit lists c) (ht : s.t.call b.toEventloop c = some t') :
    ∃ lists', Iothread.Next b c.target s.t lists t' lists' ∧
      ({ s with t := t', registered := s.register c } : Loop P).Wired b lists' := by
  cases c with
  | add n wait =>
    obtain ⟨q, hnext⟩ := Iothread.nbioAdd_next h.wired hc ht
    refine ⟨_, hnext, hnext.wired, fun m hm => ?_, h.pc.call huser hnext.moved⟩
    by_cases hmn : m = n
    · subst hmn
      exact ⟨q, Links.mem_moved.mpr (.inr ⟨rfl, rfl⟩)⟩
    · exact hnext.moved.somewhere (h.registered m (by simpa [register, hmn] using hm))
  | _ =>
    obtain ⟨lists', hnext⟩ := Iothread.call_next h.wired hc ht
    exact ⟨lists', hnext, hnext.wired, fun m hm => hnext.moved.somewhere (h.registered m hm),
      h.pc.call huser hnext.moved⟩

/-- The calls on what is registered fit the lists. -/
theorem Wired.fit {c : Iothread.Call} (h : s.Wired b lists) (hc : s.Callable c)
    (hadd : ∀ n wait, c = .add n wait → ¬ Somewhere lists n) : s.t.Fit lists c := by
  cases c with
  | add n wait => exact hadd n wait rfl
  | _ => exact .inl (h.registered _ hc)

theorem poll_wired {a : A} {t' : Iothread P} (h : s.Wired b lists) (ht : b.pump s.t a t') :
    ∃ evs : List (ℕ × UInt8),
      (∀ ev ∈ evs, b.watched s.t.priv ev.1 ∨ .nbio ev.1 ∈ lists .inactive) ∧
        (evs.foldl Iothread.report s.t).Agrees t' ∧
          ({ s with t := t', pc := .idle } : Loop P).Wired b (Iothread.reported lists evs) := by
  obtain ⟨evs, hevs, hag, hwired⟩ := Iothread.pump_next h.wired ht
  exact ⟨evs, hevs, hag, hwired,
    fun m hm => Iothread.somewhere_reported evs (h.registered m hm), trivial⟩

/-- The lists of a thread stay well formed, provided that what is added is on none of them. -/
theorem takes_wired {ev : Event A} (h : s.Wired b lists)
    (hadd : ∀ n wait, ev = .call (.add n wait) → ¬ Somewhere lists n)
    (ht : Takes b.toEventloop s ev s') : ∃ lists', s'.Wired b lists' := by
  have hpc := h.pc
  cases ht with
  | code hs => exact ⟨_, step_wired h hs⟩
  | call huser hc hcall =>
    obtain ⟨lists', -, hw⟩ := call_wired h huser
      (h.fit hc fun n wait he => hadd n wait (he ▸ rfl)) hcall
    exact ⟨lists', hw⟩
  | @assign n fd huser =>
    have hmod := h.wired.modify (n := n) fun io => { io with fd := fd }
    exact ⟨lists, hmod, h.registered, hpc.call huser (n := 0) (.inl rfl)⟩
  | written hp =>
    rw [hp] at hpc
    exact ⟨lists, h.goto hpc⟩
  | read hp =>
    rw [hp] at hpc
    exact ⟨lists, h.goto hpc⟩
  | pump hp => exact ⟨lists, h.goto trivial⟩
  | poll hp hne hpump =>
    obtain ⟨evs, -, -, hw⟩ := poll_wired h hpump
    exact ⟨_, hw⟩
  | fini hp => exact ⟨lists, h.goto (Front.start h.wired.toListed _)⟩

end Loop
end Mayhem
