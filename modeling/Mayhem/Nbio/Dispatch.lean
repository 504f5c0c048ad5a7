import Mayhem.Nbio.Epoll

/-! What `nbio_pump` dispatches, with callbacks that make any calls on any `nbio` and a kernel
that reports any events. The loop over the active list goes wrong in two ways: an event that
the mask does not ask for is taken for one, and the saved successor is visited on whatever
list a callback has put it. -/
namespace Mayhem
namespace Loop

open Iothread (Somewhere Flagged)
open Links (moved removed)

variable {s s' : Loop Epoll} {lists lists' : Queue → List Addr} {ev : Event (List (ℕ × UInt32))}

/-- A callback is called for an `nbio` on the active list with its bit in flags and mask, the
assertion holds, and what is registered is on one list. -/
structure Disciplined (s : Loop Epoll) : Prop where
  write : ∀ s' n tmp, s.step epoll.toEventloop = some s' → s'.pc = .inWrite n tmp →
    s.t.On .active n ∧ (s.t.nbio n).flags &&& NBIO_WRITE ≠ 0 ∧
      (s.t.nbio n).mask &&& NBIO_WRITE ≠ 0
  read : ∀ s' n tmp, s.step epoll.toEventloop = some s' → s'.pc = .inRead n tmp →
    s.t.On .active n ∧ (s.t.nbio n).flags &&& NBIO_READ ≠ 0 ∧
      (s.t.nbio n).mask &&& NBIO_READ ≠ 0
  asserted : ∀ n tmp, s.pc = .check n tmp → (s.t.nbio n).flags &&& (s.t.nbio n).mask ≠ 0
  once : ∀ n, s.registered n = true → ∃! q, s.t.On q n

/-- Where the loop may go on. -/
def Goal (s : Loop Epoll) (a : Addr) : Prop :=
  a = .head .active ∨
    ∃ m, a = .nbio m ∧ (s.t.On .active m ∨ (s.t.nbio m).mask = NBIO_DELETED)

/-- When the loop moves on, the saved successor is the head of the active list, on that list
or deleted; events meet the mask unless it is that of a deleted `nbio`; what is added is on no
list. -/
def Proper (s : Loop Epoll) : Event (List (ℕ × UInt32)) → Prop
  | .code => ∀ n tmp, s.pc = .error n tmp → s.Goal tmp
  | .call (.add n _) => ∀ q, ¬ s.t.On q n
  | .poll evs => ∀ ev ∈ evs, (s.t.nbio ev.1).mask = NBIO_DELETED ∨
      Epoll.flags ev.2 &&& (s.t.nbio ev.1).mask ≠ 0
  | _ => True

/-- `nbio_fini` runs or has run. -/
def Closing : Pc → Prop
  | .finiInactive _ _ => True
  | .finiDeleted _ _ => True
  | .finiActive _ _ => True
  | .done => True
  | _ => False

/-- The loop is at an `nbio` that it may be at. -/
def PcReady (t : Iothread Epoll) (lists : Queue → List Addr) : Pc → Prop
  | .test pos _ => pos = .head .active ∨
      ∃ m, pos = .nbio m ∧ (.nbio m ∈ lists .active ∨ (t.nbio m).mask = NBIO_DELETED)
  | .check n _ => .nbio n ∈ lists .active ∧ (t.nbio n).mask ≠ NBIO_DELETED
  | _ => True

structure Ready (s : Loop Epoll) (lists : Queue → List Addr) : Prop where
  wired : s.Wired epoll lists
  flagged : ¬ Closing s.pc → s.t.Flagged lists
  pc : PcReady s.t lists s.pc

theorem Ready.goto (h : s.Ready lists) {pc : Pc} (hclosing : Closing s.pc → Closing pc)
    (hfits : PcFits s.t lists pc) (hpc : PcReady s.t lists pc) : (s.goto pc).Ready lists :=
  ⟨h.wired.goto hfits, fun hc => h.flagged fun hs => hc (hclosing hs), hpc⟩

/-- A list that has lost an entry. -/
theorem Flagged.removed {t t' : Iothread Epoll} (h : t.Flagged lists) (ht : t'.nbio = t.nbio)
    (x : Addr) : t'.Flagged (Links.removed lists x) := by
  refine ⟨fun q n hq hn => ?_, fun n hn => ?_⟩
  · rw [ht]
    exact h.idle q n hq (Links.mem_removed.mp hn).1
  · rw [ht]
    exact h.busy n (Links.mem_removed.mp hn).1

theorem fail_ready {t : Iothread Epoll} {n : ℕ} (h : t.Flagged lists) :
    (fail t n).Flagged (if (t.nbio n).flags &&& NBIO_ERROR ≠ 0 then
      moved lists (.nbio n) .deleted else lists) := by
  unfold fail
  split_ifs
  · refine h.moved (fun m hm => ?_) (fun _ => ?_) (fun hq => by cases hq)
    · rw [Iothread.moveTail_nbio, Iothread.modify_of_ne _ _ hm]
      exact ⟨rfl, rfl⟩
    · simp
  · exact h

/-- The saved successor is fit to be visited once the current `nbio` has been dealt with. -/
theorem fail_goal {n : ℕ} {tmp : Addr} (hw : s.Wired epoll lists) (h : s.Goal tmp) :
    PcReady (fail s.t n) (if (s.t.nbio n).flags &&& NBIO_ERROR ≠ 0 then
      moved lists (.nbio n) .deleted else lists) (.test tmp ((fail s.t n).links.next tmp)) := by
  rcases h with h | ⟨m, rfl, h⟩
  · exact .inl h
  · right
    refine ⟨m, rfl, ?_⟩
    rw [hw.wired.toListed.on_iff] at h
    unfold fail
    split_ifs
    · by_cases hmn : m = n
      · right
        subst hmn
        simp
      · refine h.imp (fun h => Links.mem_moved.mpr (.inl ⟨h, by simpa using hmn⟩)) fun h => ?_
        rwa [Iothread.moveTail_nbio, Iothread.modify_of_ne _ _ hmn]
    · exact h

theorem step_ready (h : s.Ready lists) (hproper : s.Proper .code)
    (hs : s.step epoll.toEventloop = some s') : s'.Ready (s.after lists) := by
  have hw := step_wired h.wired hs
  have hpc := h.pc
  have hflag := h.flagged
  cases step_coded _ hs with
  | none hp =>
    simp only [after, hp] at hw ⊢
    exact h.goto (by simp [hp, Closing]) hw.pc trivial
  | first hp =>
    simp only [after, hp] at hw ⊢
    apply h.goto (by simp [hp, Closing]) hw.pc
    have hnext := (h.wired.wired.rings.ring .active).next_head
    cases hq : lists .active with
    | nil => exact .inl (by rw [hnext, hq]; rfl)
    | cons a rest =>
      obtain ⟨m, rfl⟩ := h.wired.wired.nbios .active a (by simp [hq])
      exact .inr ⟨m, by rw [hnext, hq]; rfl, .inl (by simp [hq])⟩
  | around hp =>
    simp only [after, hp] at hw ⊢
    exact h.goto (by simp [hp, Closing]) hw.pc trivial
  | gone hp =>
    simp only [after, hp] at hw ⊢
    exact h.goto (by simp [hp, Closing]) hw.pc trivial
  | visit hp hmask =>
    rw [hp] at hpc
    simp only [after, hp] at hw ⊢
    obtain hc | ⟨m, hm, hon⟩ := hpc
    · cases hc
    · obtain rfl := Addr.nbio.inj hm
      exact h.goto (by simp [hp, Closing]) hw.pc ⟨hon.resolve_right hmask, hmask⟩
  | asserted hp =>
    simp only [after, hp] at hw ⊢
    exact h.goto (by simp [hp, Closing]) hw.pc trivial
  | write hp =>
    simp only [after, hp] at hw ⊢
    exact h.goto (by simp [hp, Closing]) hw.pc trivial
  | noWrite hp =>
    simp only [after, hp] at hw ⊢
    exact h.goto (by simp [hp, Closing]) hw.pc trivial
  | read hp =>
    simp only [after, hp] at hw ⊢
    exact h.goto (by simp [hp, Closing]) hw.pc trivial
  | noRead hp =>
    simp only [after, hp] at hw ⊢
    exact h.goto (by simp [hp, Closing]) hw.pc trivial
  | error hp =>
    simp only [after, hp] at hw ⊢
    exact ⟨hw, fun _ => fail_ready (hflag (by simp [hp, Closing])),
      fail_goal h.wired (hproper _ _ hp)⟩
  | reaped hp =>
    simp only [after, hp] at hw ⊢
    exact h.goto (by simp [hp, Closing]) hw.pc trivial
  | reap hp =>
    simp only [after, hp] at hw ⊢
    exact ⟨hw, fun _ => Flagged.removed (hflag (by simp [hp, Closing])) (by rfl) _, trivial⟩
  | noPoll hp =>
    simp only [after, hp] at hw ⊢
    exact h.goto (by simp [hp, Closing]) hw.pc trivial
  | allActive hp =>
    simp only [after, hp] at hw ⊢
    exact h.goto (fun _ => trivial) hw.pc trivial
  | activate hp => exact ⟨hw, fun hc => absurd trivial hc, trivial⟩
  | noneDeleted hp =>
    simp only [after, hp] at hw ⊢
    exact h.goto (fun _ => trivial) hw.pc trivial
  | undelete hp => exact ⟨hw, fun hc => absurd trivial hc, trivial⟩
  | finished hp =>
    simp only [after, hp] at hw ⊢
    exact h.goto (fun _ => trivial) hw.pc trivial
  | finish hp => exact ⟨hw, fun hc => absurd trivial hc, trivial⟩

/-- Events that meet the masks leave something to do for whatever they concern. -/
theorem event_flagged {evs : List (ℕ × UInt32)} {t : Iothread Epoll} (h : t.Flagged lists)
    (hevs : ∀ ev ∈ evs, (t.nbio ev.1).mask = NBIO_DELETED ∨
      Epoll.flags ev.2 &&& (t.nbio ev.1).mask ≠ 0) :
    (evs.foldl Epoll.event t).Flagged
      (Iothread.reported lists (evs.map fun ev => (ev.1, Epoll.flags ev.2))) := by
  induction evs generalizing t lists with
  | nil => exact h
  | cons ev evs ih =>
    have hmask : ∀ m, ((Epoll.event t ev).nbio m).mask = (t.nbio m).mask := by
      intro m
      by_cases hm : m = ev.1
      · subst hm
        simp [Epoll.event]
      · simp [Epoll.event, Iothread.modify_of_ne _ _ hm]
    refine ih ?_ fun ev' hev' => ?_
    · refine h.moved (fun m hm => ?_) (fun hq => absurd rfl hq) fun _ => ?_
      · rw [hmask]
        exact ⟨rfl, by simp [Epoll.event, Iothread.modify_of_ne _ _ hm]⟩
      · rw [hmask]
        simpa [Epoll.event] using hevs ev List.mem_cons_self
    · rw [hmask]
      exact hevs ev' (List.mem_cons_of_mem _ hev')

theorem pcReady_of_user {t : Iothread Epoll} {pc : Pc} (h : pc.User) : PcReady t lists pc := by
  cases pc with
  | test pos tmp => exact h.elim
  | check n tmp => exact h.elim
  | _ => trivial

/-- A step that meets the condition. -/
theorem takes_ready (h : s.Ready lists) (hproper : s.Proper ev)
    (ht : Takes epoll.toEventloop s ev s') : ∃ lists', s'.Ready lists' := by
  have hl := h.wired.wired.toListed
  have hpc := h.wired.pc
  cases ht with
  | code hs => exact ⟨_, step_ready h hproper hs⟩
  | @call c t' huser hc hcall =>
    have hfit : s.t.Fit lists c := h.wired.fit hc fun n wait he hn => by
      subst he
      obtain ⟨q, hq⟩ := hn
      exact hproper q (hl.on_iff.mpr hq)
    obtain ⟨lists', hnext, hw⟩ := call_wired h.wired huser hfit hcall
    exact ⟨lists', hw, fun hc => hnext.flagged (h.flagged hc), pcReady_of_user huser⟩
  | @assign n fd huser =>
    have hmod := h.wired.wired.modify (n := n) fun io => { io with fd := fd }
    refine ⟨lists, ⟨hmod, h.wired.registered, hpc.call huser (n := 0) (.inl rfl)⟩,
      fun hc => ?_, pcReady_of_user huser⟩
    exact (h.flagged hc).agrees (Iothread.Agrees.modify (f := fun io => { io with fd := fd })
      (.refl s.t) (fun _ => rfl) fun _ => rfl)
  | written hp =>
    rw [hp] at hpc
    exact ⟨lists, h.goto (by simp [hp, Closing]) hpc trivial⟩
  | read hp =>
    rw [hp] at hpc
    exact ⟨lists, h.goto (by simp [hp, Closing]) hpc trivial⟩
  | pump hp => exact ⟨lists, h.goto (by simp [hp, Closing]) trivial trivial⟩
  | @poll evs t' hp hne hpump =>
    obtain ⟨-, hall, rfl⟩ := hpump
    refine ⟨_, ⟨?_, fun m hm => Iothread.somewhere_reported _ (h.wired.registered m hm), trivial⟩,
      fun _ => event_flagged (h.flagged (by simp [hp, Closing])) hproper, trivial⟩
    show (evs.foldl Epoll.event s.t).Wired epoll _
    rw [Epoll.foldl_event]
    refine Iothread.report_wired h.wired.wired fun ev hev => ?_
    obtain ⟨ev, hev', rfl⟩ := List.mem_map.mp hev
    exact h.wired.wired.tied _ (hall ev hev')
  | fini hp => exact ⟨lists, h.goto (fun _ => trivial) (Front.start hl _) trivial⟩

theorem and_and_ne {f k m : UInt8} (h : f &&& k &&& m ≠ 0) :
    f &&& k ≠ 0 ∧ f &&& m ≠ 0 ∧ k &&& m ≠ 0 := by
  refine ⟨fun he => h ?_, fun he => h ?_, fun he => h ?_⟩
  · rw [he, UInt8.zero_and]
  · rw [UInt8.and_assoc, UInt8.and_comm k m, ← UInt8.and_assoc, he, UInt8.zero_and]
  · rw [UInt8.and_assoc, he, UInt8.and_zero]

/-- Where there is something to do, it is on the active list. -/
theorem Ready.active {n : ℕ} (h : s.Ready lists) (hclosing : ¬ Closing s.pc)
    (hn : Somewhere lists n) (hbits : (s.t.nbio n).flags &&& (s.t.nbio n).mask ≠ 0) :
    s.t.On .active n := by
  obtain ⟨q, hq⟩ := hn
  by_cases hqa : q = .active
  · exact h.wired.wired.toListed.on_iff.mpr (hqa ▸ hq)
  · exact absurd ((h.flagged hclosing).idle q n hqa hq) hbits

theorem Ready.disciplined (h : s.Ready lists) : s.Disciplined where
  write s' n tmp hs hp' := by
    have hpc := h.wired.pc
    cases step_coded _ hs with
    | write hp hbit =>
      obtain ⟨rfl, rfl⟩ := Pc.inWrite.inj hp'
      rw [hp] at hpc
      obtain ⟨hbits, hflag, hmask⟩ := and_and_ne hbit
      exact ⟨h.active (by simp [hp, Closing]) hpc.1 hbits, hflag, hmask⟩
    | _ => cases hp'
  read s' n tmp hs hp' := by
    have hpc := h.wired.pc
    cases step_coded _ hs with
    | read hp hbit =>
      obtain ⟨rfl, rfl⟩ := Pc.inRead.inj hp'
      rw [hp] at hpc
      obtain ⟨hbits, hflag, hmask⟩ := and_and_ne hbit
      exact ⟨h.active (by simp [hp, Closing]) hpc.1 hbits, hflag, hmask⟩
    | _ => cases hp'
  asserted n tmp hp := by
    have hpc := h.pc
    rw [hp] at hpc
    exact ((h.flagged (by simp [hp, Closing])).busy n hpc.1).resolve_left hpc.2
  once n hn := by
    obtain ⟨q, hq⟩ := h.wired.registered n hn
    have hl := h.wired.wired.toListed
    refine ⟨q, hl.on_iff.mpr hq, fun q' hq' => ?_⟩
    exact hl.rings.unique (hl.on_iff.mp hq') hq

/-- A thread that has just been initialised. -/
def start (links : Links Addr) (nbio : ℕ → Nbio) (fails : ℕ → Bool) : Loop Epoll where
  t := .nbioInit links nbio { fails := fails }

/-- In every run whose steps meet the condition `nbio_pump` dispatches as it should. -/
theorem dispatch {links : Links Addr} {nbio : ℕ → Nbio} {fails : ℕ → Bool}
    (hrun : Relation.ReflTransGen (fun s s' => ∃ ev, s.Proper ev ∧ Takes epoll.toEventloop s ev s')
      (start links nbio fails) s) : s.Disciplined := by
  have hready : ∃ lists, s.Ready lists := by
    induction hrun with
    | refl =>
      refine ⟨fun _ => [], ⟨?_, fun n hn => Bool.noConfusion hn, trivial⟩, fun _ => ⟨?_, ?_⟩, trivial⟩
      · exact Iothread.nbioInit_wired links nbio fun n => by simp [epoll]
      · exact fun q n _ hn => absurd hn List.not_mem_nil
      · exact fun n hn => absurd hn List.not_mem_nil
    | tail _ hstep ih =>
      obtain ⟨ev, hproper, htakes⟩ := hstep
      obtain ⟨lists, h⟩ := ih
      exact takes_ready h hproper htakes
  obtain ⟨lists, h⟩ := hready
  exact h.disciplined

/-- Of two that sleep the first has something to read, and its callback has the second wait for
something to write. So the second is next. -/
theorem dispatch_second : ∃ s : Loop Epoll,
    Relation.ReflTransGen (fun s s' => ∃ ev, s.Proper ev ∧ Takes epoll.toEventloop s ev s')
      (start ⟨id, id⟩ (fun _ => {}) fun _ => false) s ∧ s.Disciplined ∧
    ∃ s', s.step epoll.toEventloop = some s' ∧ s'.pc = .inWrite 1 (.head .active) := by
  have hnew : ∀ n, ¬ epoll.watched {} n := fun n => by simp [epoll]
  have hadd := Relation.ReflTransGen.single
    (r := fun s s' => ∃ ev, s.Proper ev ∧ Takes epoll.toEventloop s ev s')
    (a := start ⟨id, id⟩ (fun _ => {}) fun _ => false)
    ⟨.call (.add 0 NBIO_READ), fun q => Iothread.nbioInit_off _ _ hnew, .call trivial trivial rfl⟩
  have hboth := hadd.tail ⟨.call (.add 1 NBIO_READ),
    fun q => Iothread.nbioInit_add_off _ _ hnew NBIO_READ rfl Nat.one_ne_zero, .call trivial trivial rfl⟩
  have hone := hboth.tail ⟨.call (.inactive 0 NBIO_READ), trivial, .call trivial rfl rfl⟩
  have htwo := hone.tail ⟨.call (.inactive 1 NBIO_READ), trivial, .call trivial rfl rfl⟩
  have hpump := htwo.tail ⟨.pump, trivial, .pump rfl⟩
  have hnone := hpump.tail ⟨.code, (fun _ _ hp => by cases hp), .code rfl⟩
  have hreaped := hnone.tail ⟨.code, (fun _ _ hp => by cases hp), .code rfl⟩
  have hpoll := hreaped.tail ⟨.poll [(0, EPOLLIN)],
    List.forall_mem_singleton.mpr (.inr (by decide)),
    .poll rfl (by decide) ⟨by decide, by decide, rfl⟩⟩
  have hagain := hpoll.tail ⟨.pump, trivial, .pump rfl⟩
  have hfirst := hagain.tail ⟨.code, (fun _ _ hp => by cases hp), .code rfl⟩
  have hvisit := hfirst.tail ⟨.code, (fun _ _ hp => by cases hp), .code rfl⟩
  have hchecked := hvisit.tail ⟨.code, (fun _ _ hp => by cases hp), .code rfl⟩
  have hwrite := hchecked.tail ⟨.code, (fun _ _ hp => by cases hp), .code rfl⟩
  have hread := hwrite.tail ⟨.code, (fun _ _ hp => by cases hp), .code rfl⟩
  have hother := hread.tail ⟨.call (.setWait 1 NBIO_WRITE), trivial, .call trivial rfl rfl⟩
  have hsleep := hother.tail ⟨.call (.inactive 0 NBIO_READ), trivial, .call trivial rfl rfl⟩
  have hret := hsleep.tail ⟨.ret, trivial, .read rfl⟩
  -- the saved successor of the first is the head of the list
  have herror := hret.tail ⟨.code, (fun _ _ hp => by cases hp; exact .inl rfl), .code rfl⟩
  have haround := herror.tail ⟨.code, (fun _ _ hp => by cases hp), .code rfl⟩
  have hsecond := haround.tail ⟨.code, (fun _ _ hp => by cases hp), .code rfl⟩
  have hvisit' := hsecond.tail ⟨.code, (fun _ _ hp => by cases hp), .code rfl⟩
  have hchecked' := hvisit'.tail ⟨.code, (fun _ _ hp => by cases hp), .code rfl⟩
  exact ⟨_, hchecked', dispatch hchecked', _, rfl, rfl⟩

/-- Only an error is reported for it, and the assertion fails. -/
theorem undisciplined_error : ¬ ∀ s : Loop Epoll,
    Relation.ReflTransGen (fun s s' => ∃ ev, Takes epoll.toEventloop s ev s')
      (start ⟨id, id⟩ (fun _ => {}) fun _ => false) s → s.Disciplined := by
  intro hall
  have hadd := Relation.ReflTransGen.single
    (r := fun s s' => ∃ ev, Takes epoll.toEventloop s ev s')
    (a := start ⟨id, id⟩ (fun _ => {}) fun _ => false)
    ⟨.call (.add 0 NBIO_READ), .call trivial trivial rfl⟩
  have hsleep := hadd.tail ⟨.call (.inactive 0 NBIO_READ), .call trivial rfl rfl⟩
  have hpump := hsleep.tail ⟨.pump, .pump rfl⟩
  have hnone := hpump.tail ⟨.code, .code rfl⟩
  have hreaped := hnone.tail ⟨.code, .code rfl⟩
  have hpoll := hreaped.tail
    ⟨.poll [(0, EPOLLERR)], .poll rfl (by decide) ⟨by decide, by decide, rfl⟩⟩
  have hagain := hpoll.tail ⟨.pump, .pump rfl⟩
  have hfirst := hagain.tail ⟨.code, .code rfl⟩
  have hvisit := hfirst.tail ⟨.code, .code rfl⟩
  exact (hall _ hvisit).asserted 0 (.head .active) rfl (by decide)

/-- The condition on the saved successor cannot be dropped: one that is on the inactive list
or in a wait queue brings the loop to the assertion with nothing to do. -/
theorem astray {n m : ℕ} (h : s.Ready lists) (hp : s.pc = .error n (.nbio m)) (hmn : m ≠ n)
    (hgoal : ¬ s.Goal (.nbio m)) (hs : s.step epoll.toEventloop = some s') :
    ∃ s₂, s'.step epoll.toEventloop = some s₂ ∧ ¬ s₂.Disciplined := by
  have hpc := h.wired.pc
  rw [hp] at hpc
  obtain ⟨q, hq⟩ := hpc.2.somewhere
  have hnot : ¬ (s.t.On .active m ∨ (s.t.nbio m).mask = NBIO_DELETED) :=
    fun hor => hgoal (.inr ⟨m, rfl, hor⟩)
  obtain ⟨hoff, hmask⟩ := not_or.mp hnot
  have hidle : (s.t.nbio m).flags &&& (s.t.nbio m).mask = 0 := by
    refine (h.flagged (by simp [hp, Closing])).idle q m ?_ hq
    rintro rfl
    exact hoff (h.wired.wired.toListed.on_iff.mpr hq)
  have hsame : (fail s.t n).nbio m = s.t.nbio m := by
    unfold fail
    split_ifs
    · rw [Iothread.moveTail_nbio, Iothread.modify_of_ne _ _ hmn]
    · rfl
  cases step_coded _ hs with
  | error hp' =>
    obtain ⟨rfl, rfl⟩ := Pc.error.inj (hp.symm.trans hp')
    let tmp := (fail s.t n).links.next (.nbio m)
    refine ⟨{ s with t := fail s.t n, pc := .check m tmp }, ?_, fun hd => hd.asserted m tmp rfl ?_⟩
    · exact if_neg (by rw [hsame]; exact hmask)
    · show ((fail s.t n).nbio m).flags &&& ((fail s.t n).nbio m).mask = 0
      rw [hsame]
      exact hidle
  | _ hp' => simp [hp] at hp'

end Loop
end Mayhem
