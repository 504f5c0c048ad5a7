import Mayhem.Nbio.Slots

/-! The slots of `nbio-poll.c` over whole runs: as long as every call of `poll_pump` has found
the slots of those that stay in the order of the inactive list, the next one delivers what it
is given to the right `nbio`, and leaves everyone with a slot if it finds them so again. -/
namespace Mayhem
namespace Loop

open Poll (Slotted)

variable {s s' : Loop PollPriv} {lists : Queue → List Addr} {t t' : Iothread PollPriv} {n : ℕ}

/-- The slots of those that stay are in order, what is added is on no list, memory for a slot
can be had, and nothing on the inactive list gets another descriptor. -/
def Orderly (s : Loop PollPriv) : Event (Option (ℕ → UInt16)) → Prop
  | .poll (some revents) => Poll.InOrder s.t revents
  | .call (.add n _) => ∀ q, ¬ s.t.On q n
  | .call (.inactive n mask) =>
    (s.t.nbio n).mask &&& ((s.t.nbio n).flags &&& ~~~mask) = 0 →
      s.t.priv.room.2 = true ∨ Slotted s.t n
  | .assign n _ => ¬ s.t.On .inactive n
  | _ => True

/-- Whoever is on the inactive list was there before, and is as it was. -/
structure Unmoved (t t' : Iothread PollPriv) : Prop where
  priv : t'.priv = t.priv
  inactive : ∀ n, t'.On .inactive n → t.On .inactive n ∧ t'.nbio n = t.nbio n

theorem Unmoved.refl (t : Iothread PollPriv) : Unmoved t t := ⟨rfl, fun _ hn => ⟨hn, rfl⟩⟩

theorem Slotted.congr (hs : Slotted t n) (hfd : (t'.nbio n).fd = (t.nbio n).fd)
    (hmask : (t'.nbio n).mask = (t.nbio n).mask) (hev : (t'.nbio n).evPriv = (t.nbio n).evPriv)
    (hpfd : ∀ i < t.priv.numPfd, t'.priv.pfd i = t.priv.pfd i)
    (hnum : t.priv.numPfd ≤ t'.priv.numPfd) : Slotted t' n := by
  rcases hs with hnone | ⟨i, hi⟩
  · left
    rw [hmask, hev]
    exact hnone
  · right
    refine ⟨i, hev.trans hi.index, hi.used.trans_le hnum, ?_, ?_⟩
    · rw [hpfd i hi.used, hfd]
      exact hi.fd
    · rw [hpfd i hi.used, hmask]
      exact hi.events

theorem Slotted.same (hs : Slotted t n) (hn : t'.nbio n = t.nbio n) (hpriv : t'.priv = t.priv) :
    Slotted t' n :=
  Slotted.congr hs (by rw [hn]) (by rw [hn]) (by rw [hn]) (fun i _ => by rw [hpriv]) (by rw [hpriv])

/-- The flags matter for no slot. -/
theorem Slotted.modify {m : ℕ} {f : Nbio → Nbio} (hs : Slotted t m) (hfd : ∀ io, (f io).fd = io.fd)
    (hmask : ∀ io, (f io).mask = io.mask) (hev : ∀ io, (f io).evPriv = io.evPriv) :
    Slotted (t.modify n f) m := by
  by_cases hmn : m = n
  · subst hmn
    refine Slotted.congr hs ?_ ?_ ?_ (fun _ _ => rfl) le_rfl
    · rw [Iothread.modify_self, hfd]
    · rw [Iothread.modify_self, hmask]
    · rw [Iothread.modify_self, hev]
  · exact Slotted.same hs (Iothread.modify_of_ne _ _ hmn) rfl

theorem Unmoved.slotted (h : Unmoved t t') (hs : ∀ n, t.On .inactive n → Slotted t n) (n : ℕ)
    (hn : t'.On .inactive n) : Slotted t' n := by
  obtain ⟨hn, hsame⟩ := h.inactive n hn
  exact Slotted.same (hs n hn) hsame h.priv

/-- A move of one `nbio` to another list. -/
theorem unmoved_of_moved {m : ℕ} {q : Queue} (h : t.Listed lists)
    (h' : t'.Listed (Links.moved lists (.nbio m) q)) (hq : q ≠ .inactive)
    (hpriv : t'.priv = t.priv) (hother : ∀ n, n ≠ m → t'.nbio n = t.nbio n) : Unmoved t t' := by
  refine ⟨hpriv, fun n hn => ?_⟩
  rcases Links.mem_moved.mp (h'.on_iff.mp hn) with ⟨hmem, hne⟩ | ⟨-, hq'⟩
  · exact ⟨h.on_iff.mpr hmem, hother n fun he => hne (he ▸ rfl)⟩
  · exact absurd hq'.symm hq

theorem unmoved_of_removed {m : ℕ} (h : t.Listed lists)
    (h' : t'.Listed (Links.removed lists (.nbio m))) (hpriv : t'.priv = t.priv)
    (hnbio : t'.nbio = t.nbio) : Unmoved t t' :=
  ⟨hpriv, fun n hn => ⟨h.on_iff.mpr (Links.mem_removed.mp (h'.on_iff.mp hn)).1,
    congrFun hnbio n⟩⟩

theorem active_priv (t : Iothread PollPriv) (n : ℕ) : (Poll.active t n).priv = t.priv := rfl

theorem active_of_ne (t : Iothread PollPriv) {n m : ℕ} (hm : m ≠ n) :
    (Poll.active t n).nbio m = t.nbio m := Iothread.modify_of_ne _ _ hm

theorem active_self (t : Iothread PollPriv) (n : ℕ) :
    (Poll.active t n).nbio n = { t.nbio n with evPriv := -1 } := Iothread.modify_self ..

theorem step_unmoved (h : s.Wired poll lists) (hs : s.step poll.toEventloop = some s') :
    Unmoved s.t s'.t := by
  have hl := h.wired.toListed
  have hw := (step_wired h hs).wired.toListed
  cases step_coded _ hs with
  | @error n tmp hp =>
    simp only [after, hp] at hw
    by_cases herr : (s.t.nbio n).flags &&& NBIO_ERROR ≠ 0
    · rw [if_pos herr] at hw
      refine unmoved_of_moved hl hw (by simp) ?_ fun m hm => ?_
      · show (fail s.t n).priv = _
        rw [fail, if_pos herr]
        rfl
      · show (fail s.t n).nbio m = _
        rw [fail, if_pos herr, Iothread.moveTail_nbio, Iothread.modify_of_ne _ _ hm]
    · show Unmoved s.t (fail s.t n)
      rw [fail, if_neg herr]
      exact .refl s.t
  | reap hp =>
    simp only [after, hp] at hw
    exact unmoved_of_removed hl hw rfl rfl
  | @activate n tmp hp =>
    simp only [after, hp] at hw
    refine unmoved_of_moved hl hw (by simp) (active_priv _ n) fun m hm => ?_
    exact active_of_ne _ hm
  | undelete hp =>
    simp only [after, hp] at hw
    exact unmoved_of_moved hl hw (by simp) rfl fun m hm => rfl
  | finish hp =>
    simp only [after, hp] at hw
    exact unmoved_of_removed hl hw rfl rfl
  | _ => exact .refl s.t

theorem room_pfd (p : PollPriv) : p.room.1.numPfd = p.numPfd ∧ p.room.1.pfd = p.pfd := by
  unfold PollPriv.room PollPriv.upsize
  dsimp only
  split_ifs <;> exact ⟨rfl, rfl⟩

/-- `poll_inactive` gives a slot of its own to the `nbio`, and leaves the others theirs. -/
theorem inactive_slotted (hroom : t.priv.room.2 = true ∨ Slotted t n)
    (hs : ∀ m, m ≠ n → t.On .inactive m → Slotted t m) {m : ℕ}
    (hm : m = n ∨ t.On .inactive m) : Slotted (Poll.inactive t n) m := by
  obtain ⟨hnum, hpfd⟩ := room_pfd t.priv
  by_cases hok : t.priv.room.2 = true
  · have hin : Poll.inactive t n = ({ t with priv :=
        { t.priv.room.1 with
          pfd := Function.update t.priv.pfd t.priv.numPfd
            { t.priv.pfd t.priv.numPfd with
              fd := (t.nbio n).fd, events := Poll.events (t.nbio n).mask }
          numPfd := t.priv.numPfd + 1 } } : Iothread PollPriv).modify n
            fun io => { io with evPriv := t.priv.numPfd } := by
      rw [Poll.inactive, ← hnum, ← hpfd]
      simp only [hok, if_true]
    rw [hin]
    by_cases hmn : m = n
    · subst hmn
      right
      exact ⟨t.priv.numPfd, by simp, by simp, by simp, by simp⟩
    · have hsame := Iothread.modify_of_ne t (fun io => { io with evPriv := t.priv.numPfd }) hmn
      refine Slotted.congr (hs m hmn (hm.resolve_left hmn)) (congrArg Nbio.fd hsame)
        (congrArg Nbio.mask hsame) (congrArg Nbio.evPriv hsame) (fun i hi => ?_) (Nat.le_succ _)
      exact Function.update_of_ne (Nat.ne_of_lt hi) _ _
  · have hin : Poll.inactive t n = { t with priv := t.priv.room.1 } := by
      rw [Poll.inactive]
      simp only [hok, Bool.false_eq_true, if_false]
    rw [hin]
    have hslot : Slotted t m := by
      by_cases hmn : m = n
      · exact hmn ▸ hroom.resolve_left hok
      · exact hs m hmn (hm.resolve_left hmn)
    exact Slotted.congr hslot rfl rfl rfl (fun i _ => congrFun hpfd i) hnum.ge

/-- What is on the inactive list after `do_set_wait` was there before, or waits for nothing. -/
theorem doSetWait_slotted {wait : UInt8} {o : Option Queue} (h : t.Listed lists)
    (htied : t.links.Tied .head lists (.nbio n))
    (hs : ∀ m, m ≠ n → t.On .inactive m → Slotted t m)
    (ht : t.doSetWait poll.toEventloop n wait o = some t') (m : ℕ) (hm : t'.On .inactive m) :
    Slotted t' m := by
  obtain rfl := Iothread.doSetWait_eq ht
  have hlisted := ((h.modify (n := n) fun io =>
    { io with mask := wait &&& NBIO_WAIT, flags := wait &&& NBIO_WAIT }).modify (n := n)
      fun io => { io with evPriv := -1 }).moveTail htied
        (if wait &&& NBIO_WAIT = 0 then o.getD .inactive else .active)
  rcases Links.mem_moved.mp (hlisted.on_iff.mp hm) with ⟨hmem, hne⟩ | ⟨he, hq⟩
  · have hmn : m ≠ n := fun he => hne (he ▸ rfl)
    refine Slotted.same (hs m hmn (h.on_iff.mpr hmem)) ?_ rfl
    exact (active_of_ne _ hmn).trans (Iothread.modify_of_ne _ _ hmn)
  · obtain rfl := Addr.nbio.inj he
    have hw : wait &&& NBIO_WAIT = 0 := by
      by_contra hw
      rw [if_neg hw] at hq
      cases hq
    left
    show ((Poll.active _ m).nbio m).mask = 0 ∧ ((Poll.active _ m).nbio m).evPriv < 0
    rw [active_self, Iothread.modify_self]
    exact ⟨hw, show (-1 : ℤ) < 0 by decide⟩

/-- Every call leaves those on the inactive list with a slot. -/
theorem call_slotted {c : Iothread.Call} (h : s.Wired poll lists)
    (hs : ∀ n, s.t.On .inactive n → Slotted s.t n) (hproper : s.Orderly (.call c))
    (hc : s.Callable c) (ht : s.t.call poll.toEventloop c = some t') (m : ℕ)
    (hm : t'.On .inactive m) : Slotted t' m := by
  have hl := h.wired.toListed
  have htied : s.registered c.target = true → s.t.links.Tied .head lists (.nbio c.target) :=
    fun hreg => .inl (h.registered _ hreg)
  have hother : ∀ n m, m ≠ n → s.t.On .inactive m → Slotted s.t m := fun _ m _ => hs m
  cases c with
  | add n wait =>
    have hn : ¬ Iothread.Somewhere lists n := fun ⟨q, hq⟩ => hproper q (hl.on_iff.mpr hq)
    have hoff := Iothread.off_of_nowhere hn
    have hinit : ({ s.t with links := s.t.links.init (.nbio n) } : Iothread PollPriv).Listed lists :=
      ⟨hl.rings.init hoff, hl.nbios⟩
    refine doSetWait_slotted (hinit.modify _) (Links.tied_init hoff) (fun m hmn hm => ?_) ht m hm
    have hm' := hl.on_iff.mpr ((hinit.modify _).on_iff.mp hm)
    exact Slotted.same (hs m hm') (Iothread.modify_of_ne _ _ hmn) rfl
  | setWait n wait => exact doSetWait_slotted hl (htied hc) (hother n) ht m hm
  | toWaitq n k => exact doSetWait_slotted hl (htied hc) (hother n) ht m hm
  | wake n wait => exact doSetWait_slotted hl (htied hc) (hother n) ht m hm
  | del n =>
    obtain rfl := Option.some.inj ht
    refine (unmoved_of_moved hl (Iothread.nbioDel_next h.wired (htied hc)).wired.toListed
      (by simp) rfl fun m hmn => ?_).slotted hs m hm
    rw [Iothread.nbioDel, Iothread.moveTail_nbio, Iothread.modify_of_ne _ _ hmn]
    exact active_of_ne _ hmn
  | inactive n mask =>
    obtain rfl := Option.some.inj ht
    let u := s.t.modify n fun io => { io with flags := io.flags &&& ~~~mask }
    have hu : u.Listed lists := hl.modify _
    have hflags : ∀ k, Slotted s.t k → Slotted u k := fun k hk =>
      Slotted.modify hk (fun _ => rfl) (fun _ => rfl) fun _ => rfl
    have hold : ∀ m, u.On .inactive m → Slotted u m := fun m hm =>
      hflags m (hs m (hl.on_iff.mpr (hu.on_iff.mp hm)))
    unfold Iothread.nbioInactive at hm ⊢
    dsimp only at hm ⊢
    split_ifs at hm ⊢ with hidle
    · have hmove := hu.moveTail (htied hc) .inactive
      have hon := (hmove.agrees (Poll.inactive_agrees _ n)).on_iff.mp hm
      have hroom : u.priv.room.2 = true ∨ Slotted (u.moveTail n .inactive) n := by
        refine (hproper ?_).imp_right fun hn => Slotted.same (hflags n hn) rfl rfl
        rwa [Iothread.modify_self] at hidle
      refine inactive_slotted (t := u.moveTail n .inactive) hroom (fun k hkn hk => ?_)
        (.inr (hmove.on_iff.mpr hon))
      rcases Links.mem_moved.mp (hmove.on_iff.mp hk) with ⟨hmem, -⟩ | ⟨he, -⟩
      · exact Slotted.same (hold k (hu.on_iff.mpr hmem)) rfl rfl
      · exact absurd (Addr.nbio.inj he) hkn
    · exact hold m hm

/-- A step that meets the condition leaves those on the inactive list with a slot. -/
theorem takes_slotted {ev : Event (Option (ℕ → UInt16))} (h : s.Wired poll lists)
    (hs : ∀ n, s.t.On .inactive n → Slotted s.t n) (hproper : s.Orderly ev)
    (ht : Takes poll.toEventloop s ev s') (m : ℕ) (hm : s'.t.On .inactive m) :
    Slotted s'.t m := by
  have hl := h.wired.toListed
  cases ht with
  | code hstep => exact (step_unmoved h hstep).slotted hs m hm
  | call huser hc hcall => exact call_slotted h hs hproper hc hcall m hm
  | @assign n fd huser =>
    have hm' := hl.on_iff.mpr ((hl.modify _).on_iff.mp hm)
    have hmn : m ≠ n := by
      rintro rfl
      exact hproper hm'
    have hsame := Iothread.modify_of_ne s.t (fun io => { io with fd := fd }) hmn
    exact Slotted.same (hs m hm') hsame rfl
  | written hp => exact hs m hm
  | read hp => exact hs m hm
  | pump hp => exact hs m hm
  | @poll a t' hp hne hpump =>
    cases a with
    | none =>
      obtain rfl : t' = s.t := hpump
      exact hs m hm
    | some revents => exact (Poll.delivered hl hs hproper hpump).kept m hm
  | fini hp => exact hs m hm

/-- A thread that has just been initialised. -/
def pollStart (links : Links Addr) (nbio : ℕ → Nbio) (fails : ℕ → Bool) : Loop PollPriv where
  t := .nbioInit links nbio { fails := fails }

/-- A run whose steps meet the condition. -/
abbrev OrderlyRun : Loop PollPriv → Loop PollPriv → Prop :=
  Relation.ReflTransGen fun s s' => ∃ ev, s.Orderly ev ∧ Takes poll.toEventloop s ev s'

theorem run_slotted {links : Links Addr} {nbio : ℕ → Nbio} {fails : ℕ → Bool}
    (hrun : OrderlyRun (pollStart links nbio fails) s) :
    (∃ lists, s.Wired poll lists) ∧ ∀ n, s.t.On .inactive n → Slotted s.t n := by
  induction hrun with
  | refl =>
    have hw : (Iothread.nbioInit links nbio ({ fails := fails } : PollPriv)).Wired poll fun _ => [] :=
      Iothread.nbioInit_wired links nbio fun n hn => hn
    refine ⟨⟨fun _ => [], hw, fun n hn => Bool.noConfusion hn, trivial⟩, fun n hn => ?_⟩
    exact absurd (hw.toListed.on_iff.mp hn) List.not_mem_nil
  | tail _ hstep ih =>
    obtain ⟨ev, hproper, htakes⟩ := hstep
    obtain ⟨⟨lists, h⟩, hs⟩ := ih
    refine ⟨takes_wired h (fun n wait he => ?_) htakes, takes_slotted h hs hproper htakes⟩
    subst he
    exact fun ⟨q, hq⟩ => hproper q (h.wired.toListed.on_iff.mpr hq)

/-- In every run whose steps meet the condition `poll_pump` delivers what it should, and the
first call that does not is the first that finds the slots out of order. -/
theorem delivery {links : Links Addr} {nbio : ℕ → Nbio} {fails : ℕ → Bool}
    (hrun : OrderlyRun (pollStart links nbio fails) s) (hfd : Poll.Distinct s.t)
    (revents : ℕ → UInt16) :
    (∃ t', Poll.Pump s.t (some revents) t') ∧ ∀ t', Poll.Pump s.t (some revents) t' →
      (Poll.Delivered s.t revents t' ↔ Poll.InOrder s.t revents) := by
  obtain ⟨⟨lists, h⟩, hs⟩ := run_slotted hrun
  have hl := h.wired.toListed
  exact ⟨⟨_, (Poll.pump_eq hl).mpr rfl⟩, fun t' ht => Poll.delivered_iff hl hs hfd ht⟩

theorem distinct_of_fd (h : ∀ n : ℕ, (t.nbio n).fd = n) : Poll.Distinct t := by
  intro n m _ _ he
  rw [h, h] at he
  exact_mod_cast he

/-- Only the second slot has something to read. -/
def second (i : ℕ) : UInt16 := if i = 1 then POLLIN else 0

/-- Two sleep, and the first keeps its slot while the second is told. -/
theorem delivery_second : ∃ s t',
    OrderlyRun (pollStart ⟨id, id⟩ (fun n => { fd := n }) fun _ => false) s ∧
    Poll.Pump s.t (some second) t' ∧ Poll.Delivered s.t second t' ∧
    t'.On .inactive 0 ∧ t'.On .active 1 := by
  have hnew : ∀ n, ¬ poll.watched {} n := fun n hn => hn
  have hadd : OrderlyRun (pollStart ⟨id, id⟩ (fun n => { fd := n }) fun _ => false) _ :=
    .single ⟨.call (.add 0 NBIO_READ), fun q => Iothread.nbioInit_off _ _ hnew,
      .call trivial trivial rfl⟩
  have hboth := hadd.tail ⟨.call (.add 1 NBIO_READ),
    fun q => Iothread.nbioInit_add_off _ _ hnew NBIO_READ rfl Nat.one_ne_zero, .call trivial trivial rfl⟩
  have hone := hboth.tail
    ⟨.call (.inactive 0 NBIO_READ), fun _ => .inl rfl, .call trivial rfl rfl⟩
  have htwo := hone.tail
    ⟨.call (.inactive 1 NBIO_READ), fun _ => .inl rfl, .call trivial rfl rfl⟩
  have hpump := delivery htwo (distinct_of_fd fun n => ?_) second
  · refine ⟨_, _, htwo, ⟨3, rfl⟩, (hpump.2 _ ⟨3, rfl⟩).mpr fun lists hl => ?_, ⟨1, rfl⟩, ⟨1, rfl⟩⟩
    have hring : lists .inactive = [.nbio 0, .nbio 1] :=
      (hl.rings.ring .inactive).unique ⟨by decide,
        .cons_cons ⟨rfl, rfl⟩ (.cons_cons ⟨rfl, rfl⟩ (.cons_cons ⟨rfl, rfl⟩ (.singleton _)))⟩
    rw [hring]
    rfl
  · match n with
    | 0 => rfl
    | 1 => rfl
    | n + 2 => rfl

/-- With two of them only the first has something to read, and the second loses its slot. -/
theorem undelivered : ¬ ∀ s : Loop PollPriv,
    Relation.ReflTransGen (fun s s' => ∃ ev, Takes poll.toEventloop s ev s')
      (pollStart ⟨id, id⟩ (fun n => { fd := n }) fun _ => false) s → Poll.Distinct s.t →
      ∀ revents t', Poll.Pump s.t (some revents) t' → Poll.Delivered s.t revents t' := by
  intro hall
  have hadd := Relation.ReflTransGen.single
    (r := fun s s' => ∃ ev, Takes poll.toEventloop s ev s')
    (a := pollStart ⟨id, id⟩ (fun n => { fd := n }) fun _ => false)
    ⟨.call (.add 0 NBIO_READ), .call trivial trivial rfl⟩
  have hboth := hadd.tail ⟨.call (.add 1 NBIO_READ), .call trivial trivial rfl⟩
  have hone := hboth.tail ⟨.call (.inactive 0 NBIO_READ), .call trivial rfl rfl⟩
  have htwo := hone.tail ⟨.call (.inactive 1 NBIO_READ), .call trivial rfl rfl⟩
  have hd := hall _ htwo (distinct_of_fd fun n => ?_) (fun i => if i = 0 then POLLIN else 0) _
    ⟨3, rfl⟩
  · rcases hd.kept 1 ⟨1, rfl⟩ with ⟨hmask, -⟩ | ⟨i, hi⟩
    · exact absurd hmask (by decide)
    · have hidx : (1 : ℤ) = i := hi.index
      have hused : i < 1 := hi.used
      omega
  · match n with
    | 0 => rfl
    | 1 => rfl
    | n + 2 => rfl

end Loop
end Mayhem
