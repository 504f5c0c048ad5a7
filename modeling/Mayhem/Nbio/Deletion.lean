import Mayhem.Rtmp.Destruction

/-! What becomes of an `nbio` that has been deleted, with owners that may call whatever the
assertions of `nbio.c` permit: where it is, and what is called for it until it is added again. -/
namespace Mayhem

open Iothread (Somewhere)
open Links (moved removed)
open Lifetime (DueAt)

variable {P A : Type}

/-- Whose callback has just been called. -/
def Pc.calls : Pc → Option ℕ
  | .inWrite n _ => some n
  | .inRead n _ => some n
  | _ => none

/-- Who is looked at for an error. -/
def Pc.errs : Pc → Option ℕ
  | .error n _ => some n
  | _ => none

/-- `nbio_pump` deletes `n` next. -/
def Loop.Errs (s : Loop P) (n : ℕ) : Prop :=
  s.pc.errs = some n ∧ (s.t.nbio n).flags &&& NBIO_ERROR ≠ 0

instance (s : Loop P) (n : ℕ) : Decidable (s.Errs n) := inferInstanceAs (Decidable (_ ∧ _))

/-- A thread, and what has happened to one `nbio` on it since it was added. -/
structure Deletion (P : Type) where
  loop : Loop P
  /-- `nbio_del` has been called for it, or `nbio_pump` has deleted it. -/
  deleted : Bool := false
  /-- A callback has been called behind that. -/
  called : Bool := false
  /-- The calls of its destructor. -/
  dtors : ℕ := 0

namespace Deletion

variable (b : Plugin P A) (n : ℕ)

/-- A step of `nbio_pump` or `nbio_fini` has led to `s`. -/
def code (w : Deletion P) (s : Loop P) : Deletion P where
  loop := s
  deleted := w.deleted || decide (w.loop.Errs n)
  called := w.called || w.deleted && decide (s.pc.calls = some n)
  dtors := if w.loop.pc.destroys = some n then w.dtors + 1 else w.dtors

/-- A call of an owner has led to `t`. -/
def call (w : Deletion P) (c : Iothread.Call) (t : Iothread P) : Deletion P :=
  let s := { w.loop with t := t, registered := w.loop.register c }
  match c with
  | .add m _ => if m = n then { loop := s } else { w with loop := s }
  | .del m => { w with loop := s, deleted := w.deleted || decide (m = n) }
  | _ => { w with loop := s }

def onThread (w : Deletion P) (t : Iothread P) : Deletion P :=
  { w with loop := { w.loop with t := t } }

inductive Event (A : Type)
  | loop (ev : Loop.Event A)
  | waitOn (m : ℕ) (wait : UInt8)
  /-- An owner closes its descriptor, perhaps in the destructor. -/
  | close (m : ℕ)

/-- Neither a step of the code nor a call. -/
def Plain : Loop.Event A → Prop
  | .code => False
  | .call _ => False
  | _ => True

inductive Takes (w : Deletion P) : Event A → Deletion P → Prop
  | code {s} : w.loop.step b.toEventloop = some s → Takes w (.loop .code) (w.code n s)
  | call {c t} : w.loop.pc.User → w.loop.Callable c → w.loop.t.call b.toEventloop c = some t →
      Takes w (.loop (.call c)) (w.call n c t)
  | plain {ev s} : Plain ev → Loop.Takes b.toEventloop w.loop ev s →
      Takes w (.loop ev) { w with loop := s }
  | waitOn {m wait t} : w.loop.pc.User → w.loop.registered m = true →
      w.loop.t.nbioWaitOn b.toEventloop m wait = some t → Takes w (.waitOn m wait) (w.onThread t)
  | close {m} : Takes w (.close m) (w.onThread
      { w.loop.t.modify m fun io => { io with fd := -1 } with
        priv := b.closed w.loop.t.priv m })

/-- What is added is on no list; `nbio_inactive` is not called for what has been deleted; the
event loop plugin does not watch what has been destroyed when it is asked for events. -/
def Proper (w : Deletion P) : Event A → Prop
  | .loop (.call (.add m _)) => ∀ q, ¬ w.loop.t.On q m
  | .loop (.call (.inactive m _)) => m = n → w.deleted = false
  | .loop (.poll _) => w.dtors ≠ 0 → ¬ b.watched w.loop.t.priv n
  | _ => True

/-- What has been deleted stays on the deleted list, up to the last loop of `nbio_fini`, until
its destructor is called; this happens once, and no pass over the list leaves it. No other
callback is called. -/
structure Final (w : Deletion P) : Prop where
  listed : w.deleted = true → w.dtors = 0 → ∃ q, DueAt w.loop.pc q ∧ w.loop.t.On q n
  uncalled : w.called = false
  once : w.dtors ≤ 1
  gone : w.dtors ≠ 0 → ∀ q, ¬ w.loop.t.On q n
  reaped : w.deleted = true → w.loop.pc = .poll ∨ w.loop.pc = .done → w.dtors = 1

variable {b : Plugin P A} {n : ℕ} {w w' : Deletion P} {lists : Queue → List Addr}

end Deletion

namespace Iothread

variable {e : Eventloop P A} {t t' : Iothread P} {n m : ℕ}

/-- A call leaves the `nbio` alone that it is not for. -/
theorem call_other {b : Backend P A} {c : Call} (ht : t.call b.toEventloop c = some t')
    (hc : c.target ≠ n) :
    (t'.nbio n).mask = (t.nbio n).mask ∧ (t'.nbio n).flags = (t.nbio n).flags := by
  have hset : ∀ {t : Iothread P} {m wait o}, m ≠ n →
      t.doSetWait b.toEventloop m wait o = some t' →
        (t'.nbio n).mask = (t.nbio n).mask ∧ (t'.nbio n).flags = (t.nbio n).flags := by
    intro t m wait o hm ht
    rw [doSetWait_eq ht, moveTail_nbio, (b.active_agrees _ _).mask, (b.active_agrees _ _).flags,
      modify_of_ne _ _ (Ne.symm hm)]
    exact ⟨rfl, rfl⟩
  cases c with
  | add m wait =>
    have hm : n ≠ m := Ne.symm hc
    obtain ⟨hmask, hflags⟩ := hset hc ht
    rw [hmask, hflags, modify_of_ne _ _ hm]
    exact ⟨rfl, rfl⟩
  | inactive m mask =>
    have hm : n ≠ m := Ne.symm hc
    obtain rfl := Option.some.inj ht
    unfold nbioInactive
    dsimp only
    split_ifs
    · rw [(b.inactive_agrees _ _).mask, (b.inactive_agrees _ _).flags, moveTail_nbio,
        modify_of_ne _ _ hm]
      exact ⟨rfl, rfl⟩
    · rw [modify_of_ne _ _ hm]
      exact ⟨rfl, rfl⟩
  | setWait m wait => exact hset hc ht
  | toWaitq m k => exact hset hc ht
  | wake m wait => exact hset hc ht
  | del m =>
    have hm : n ≠ m := Ne.symm hc
    obtain rfl := Option.some.inj ht
    unfold nbioDel
    rw [moveTail_nbio, modify_of_ne _ _ hm, (b.active_agrees _ _).mask, (b.active_agrees _ _).flags]
    exact ⟨rfl, rfl⟩

theorem modify_fd (t : Iothread P) (n m : ℕ) (fd : ℤ) :
    ((t.modify m fun io => { io with fd := fd }).nbio n).mask = (t.nbio n).mask ∧
      ((t.modify m fun io => { io with fd := fd }).nbio n).flags = (t.nbio n).flags := by
  by_cases hn : n = m
  · subst hn
    rw [modify_self]
    exact ⟨rfl, rfl⟩
  · rw [modify_of_ne _ _ hn]
    exact ⟨rfl, rfl⟩

theorem nbioDel_self (e : Eventloop P A) (t : Iothread P) (n : ℕ) :
    ((t.nbioDel e n).nbio n).mask = NBIO_DELETED ∧ ((t.nbioDel e n).nbio n).flags = 0 := by
  unfold nbioDel
  rw [moveTail_nbio, modify_self]
  exact ⟨rfl, rfl⟩

theorem report_mask (t : Iothread P) (evs : List (ℕ × UInt8)) (n : ℕ) :
    ((evs.foldl report t).nbio n).mask = (t.nbio n).mask := by
  induction evs generalizing t with
  | nil => rfl
  | cons ev evs ih =>
    rw [List.foldl_cons, ih, report, moveTail_nbio]
    by_cases hn : n = ev.1
    · subst hn
      rw [modify_self]
    · rw [modify_of_ne _ _ hn]

theorem nbioWaitOn_eq {wait : UInt8} (ht : t.nbioWaitOn e n wait = some t') :
    (t.nbio n).mask ≠ NBIO_DELETED ∧ t' = e.inactive ((t.modify n fun io =>
      { io with mask := wait &&& NBIO_WAIT, flags := wait &&& NBIO_WAIT }).moveTail n .inactive)
        n := by
  unfold nbioWaitOn at ht
  split_ifs at ht with hdel
  exact ⟨hdel, (Option.some.inj ht).symm⟩

end Iothread

namespace Loop

variable {b : Backend P A} {s s' : Loop P} {lists : Queue → List Addr} {n : ℕ}

theorem step_errs (hs : s.step b.toEventloop = some s') (h : s.Errs n) :
    (s'.t.nbio n).mask = NBIO_DELETED ∧ (s'.t.nbio n).flags = 0 ∧
      ∃ q, DueAt s'.pc q ∧ .nbio n ∈ s.after lists q := by
  obtain ⟨hpc, hflag⟩ := h
  cases step_coded _ hs with
  | @error m tmp hp =>
    rw [hp] at hpc
    obtain rfl := Option.some.inj hpc
    have hfail : fail s.t m = (s.t.modify m fun io =>
        { io with mask := NBIO_DELETED, flags := 0 }).moveTail m .deleted := if_pos hflag
    simp only [hfail, after, hp, if_pos hflag, Iothread.moveTail_nbio, Iothread.modify_self]
    exact ⟨trivial, trivial, .deleted, rfl, moved_self lists _ _⟩
  | _ hp =>
    rw [hp] at hpc
    cases hpc

/-- Elsewhere masks and flags are left alone. -/
theorem step_other (hs : s.step b.toEventloop = some s') (h : ¬ s.Errs n) :
    (s'.t.nbio n).mask = (s.t.nbio n).mask ∧ (s'.t.nbio n).flags = (s.t.nbio n).flags := by
  cases step_coded _ hs with
  | @error m tmp hp =>
    show ((fail s.t m).nbio n).mask = _ ∧ ((fail s.t m).nbio n).flags = _
    unfold fail
    split_ifs with herr
    · have hmn : n ≠ m := by
        rintro rfl
        exact h ⟨by rw [hp]; rfl, herr⟩
      rw [Iothread.moveTail_nbio, Iothread.modify_of_ne _ _ hmn]
      exact ⟨rfl, rfl⟩
    · exact ⟨rfl, rfl⟩
  | activate hp => exact ⟨(b.active_agrees _ _).mask n, (b.active_agrees _ _).flags n⟩
  | _ => exact ⟨rfl, rfl⟩

/-- A callback is called for what the mask lets through. -/
theorem step_calls (hs : s.step b.toEventloop = some s') (hn : s'.pc.calls = some n) :
    (s.t.nbio n).mask ≠ NBIO_DELETED := by
  intro hmask
  cases step_coded _ hs with
  | write hp hbit =>
    obtain rfl := Option.some.inj hn
    have hnone : NBIO_DELETED &&& NBIO_WRITE = 0 := rfl
    rw [hmask, UInt8.and_assoc, hnone, UInt8.and_zero] at hbit
    exact hbit rfl
  | read hp hbit =>
    obtain rfl := Option.some.inj hn
    have hnone : NBIO_DELETED &&& NBIO_READ = 0 := rfl
    rw [hmask, UInt8.and_assoc, hnone, UInt8.and_zero] at hbit
    exact hbit rfl
  | _ hp => cases hn

end Loop

namespace Deletion

variable {b : Plugin P A} {n : ℕ} {w w' : Deletion P} {lists : Queue → List Addr}

structure Kept (b : Plugin P A) (n : ℕ) (w : Deletion P) (lists : Queue → List Addr) : Prop where
  wired : w.loop.Wired b.toBackend lists
  place : w.deleted = true → w.dtors = 0 → ∃ q, DueAt w.loop.pc q ∧ .nbio n ∈ lists q
  marked : w.deleted = true → (w.loop.t.nbio n).mask = NBIO_DELETED
  cleared : w.deleted = true → w.dtors = 0 → (w.loop.t.nbio n).flags = 0
  uncalled : w.called = false
  gone : w.dtors ≠ 0 → w.dtors = 1 ∧ ¬ Somewhere lists n

theorem due_of_user {pc : Pc} {q : Queue} (huser : pc.User) (hq : DueAt pc q) : q = .deleted := by
  cases pc with
  | idle => exact hq
  | inWrite m tmp => exact hq
  | inRead m tmp => exact hq
  | _ => exact huser.elim

theorem Kept.final (h : w.Kept b n lists) : w.Final n := by
  have hl := h.wired.wired.toListed
  refine ⟨fun hdel hd => ?_, h.uncalled, ?_, fun hd q hq => ?_, fun hdel hpc => ?_⟩
  · obtain ⟨q, hq, hmem⟩ := h.place hdel hd
    exact ⟨q, hq, hl.on_iff.mpr hmem⟩
  · by_cases hd : w.dtors = 0
    · omega
    · exact (h.gone hd).1.le
  · exact (h.gone hd).2 ⟨q, hl.on_iff.mp hq⟩
  · by_contra hone
    have hd : w.dtors = 0 := by
      by_contra hd
      exact hone (h.gone hd).1
    obtain ⟨q, hq, -⟩ := h.place hdel hd
    rcases hpc with hpc | hpc
    · rw [hpc] at hq
      exact hq
    · rw [hpc] at hq
      exact hq

theorem Kept.code {s : Loop P} (h : w.Kept b n lists)
    (hs : w.loop.step b.toEventloop = some s) : (w.code n s).Kept b n (w.loop.after lists) := by
  have hdeleted : (w.code n s).deleted = true → w.loop.Errs n ∨ w.deleted = true ∧
      ¬ w.loop.Errs n := by
    intro hdel
    by_cases herr : w.loop.Errs n
    · exact .inl herr
    · refine .inr ⟨?_, herr⟩
      exact (Bool.or_eq_true_iff.mp hdel).resolve_right fun hd => herr (of_decide_eq_true hd)
  have herrs (herr : w.loop.Errs n) : (s.t.nbio n).mask = NBIO_DELETED ∧ (s.t.nbio n).flags = 0 ∧
      ∃ q, DueAt s.pc q ∧ .nbio n ∈ w.loop.after lists q := Loop.step_errs hs herr
  refine ⟨Loop.step_wired h.wired hs, fun hdel hd => ?_, fun hdel => ?_, fun hdel hd => ?_, ?_,
    fun hd => ?_⟩
  · dsimp only [Deletion.code] at hd
    split_ifs at hd with hdes
    rcases hdeleted hdel with herr | ⟨hdel, -⟩
    · exact (herrs herr).2.2
    · obtain ⟨q, hq, hmem⟩ := h.place hdel hd
      exact (Loop.step_place h.wired hs hmem hdes).2 hq
  · rcases hdeleted hdel with herr | ⟨hdel, herr⟩
    · exact (herrs herr).1
    · exact (Loop.step_other hs herr).1.trans (h.marked hdel)
  · dsimp only [Deletion.code] at hd
    split_ifs at hd
    rcases hdeleted hdel with herr | ⟨hdel, herr⟩
    · exact (herrs herr).2.1
    · exact (Loop.step_other hs herr).2.trans (h.cleared hdel hd)
  · show (w.called || _) = false
    rw [h.uncalled, Bool.false_or, Bool.and_eq_false_iff]
    by_cases hdel : w.deleted = true
    · right
      exact decide_eq_false fun hn => Loop.step_calls hs hn (h.marked hdel)
    · left
      simpa using hdel
  · dsimp only [Deletion.code] at hd ⊢
    split_ifs at hd ⊢ with hdes
    · obtain ⟨hsome, hafter⟩ := Loop.step_destroys h.wired hdes
      have hzero : w.dtors = 0 := by
        by_contra hne
        exact (h.gone hne).2 hsome
      refine ⟨by rw [hzero], ?_⟩
      rw [hafter]
      rintro ⟨q, hq⟩
      exact (Links.mem_removed.mp hq).2 rfl
    · obtain ⟨hone, hoff⟩ := h.gone hd
      exact ⟨hone, Loop.step_nowhere h.wired hs hoff⟩

/-- What follows from a step in which nothing happens to `n`. -/
theorem Kept.aside {s : Loop P} {lists' : Queue → List Addr} (h : w.Kept b n lists)
    (hw : s.Wired b.toBackend lists')
    (hplace : ∀ q, DueAt w.loop.pc q → .nbio n ∈ lists q → ∃ q', DueAt s.pc q' ∧
      .nbio n ∈ lists' q')
    (hmask : w.deleted = true → (s.t.nbio n).mask = (w.loop.t.nbio n).mask)
    (hflags : w.deleted = true → w.dtors = 0 → (s.t.nbio n).flags = (w.loop.t.nbio n).flags)
    (hgone : w.dtors ≠ 0 → ¬ Somewhere lists n → ¬ Somewhere lists' n) :
    ({ w with loop := s } : Deletion P).Kept b n lists' where
  wired := hw
  place hdel hd := by
    obtain ⟨q, hq, hmem⟩ := h.place hdel hd
    exact hplace q hq hmem
  marked hdel := (hmask hdel).trans (h.marked hdel)
  cleared hdel hd := (hflags hdel hd).trans (h.cleared hdel hd)
  uncalled := h.uncalled
  gone hd := ⟨(h.gone hd).1, hgone hd (h.gone hd).2⟩

/-- A call or a step of an owner for another `nbio` moves that one only. -/
theorem Kept.moved {m : ℕ} {t : Iothread P} {lists' : Queue → List Addr} {s : Loop P}
    (h : w.Kept b n lists) (hs : s.pc = w.loop.pc) (ht : s.t = t) (hw : s.Wired b.toBackend lists')
    (hm : Iothread.Moved m lists lists') (hmn : n ≠ m)
    (hsame : (t.nbio n).mask = (w.loop.t.nbio n).mask ∧
      (t.nbio n).flags = (w.loop.t.nbio n).flags) :
    ({ w with loop := s } : Deletion P).Kept b n lists' := by
  refine h.aside hw (fun q hq hmem => ⟨q, hs ▸ hq, (hm.mem_iff hmn).mpr hmem⟩)
    (fun _ => ht ▸ hsame.1) (fun _ _ => ht ▸ hsame.2) fun _ hoff => ?_
  rintro ⟨q, hq⟩
  exact hoff ⟨q, (hm.mem_iff hmn).mp hq⟩

theorem call_add (w : Deletion P) (m : ℕ) (wait : UInt8) (t : Iothread P) :
    w.call n (.add m wait) t = if m = n
      then { loop := { w.loop with t := t, registered := w.loop.register (.add m wait) } }
      else { w with loop := { w.loop with t := t, registered := w.loop.register (.add m wait) } } :=
  rfl

theorem call_del (w : Deletion P) (m : ℕ) (t : Iothread P) :
    w.call n (.del m) t =
      { w with loop := { w.loop with t := t }, deleted := w.deleted || decide (m = n) } := rfl

/-- The assertion of `do_set_wait` refuses what has been deleted. -/
theorem Kept.refused {t : Iothread P} {wait : UInt8} {q : Option Queue}
    (h : w.Kept b n lists)
    (hset : w.loop.t.doSetWait b.toEventloop n wait q = some t) : w.deleted = false := by
  by_contra hdel
  have hmask := h.marked (by simpa using hdel)
  unfold Iothread.doSetWait at hset
  rw [if_pos hmask] at hset
  cases hset

/-- Nothing can be called for what has been destroyed, but that it is added again. -/
theorem Kept.undestroyed {c : Iothread.Call} (h : w.Kept b c.target lists)
    (hcall : w.loop.Callable c) (hadd : ∀ m wait, c ≠ .add m wait) : w.dtors = 0 := by
  by_contra hd
  refine (h.gone hd).2 (h.wired.registered _ ?_)
  cases c with
  | add m wait => exact absurd rfl (hadd m wait)
  | _ => exact hcall

/-- A call for `n` itself. -/
theorem Kept.call_self {c : Iothread.Call} {t : Iothread P} {lists' : Queue → List Addr}
    (h : w.Kept b c.target lists) (huser : w.loop.pc.User) (hcall : w.loop.Callable c)
    (hproper : w.Proper b c.target (.loop (.call c))) (hfit : w.loop.t.Fit lists c)
    (ht : w.loop.t.call b.toEventloop c = some t)
    (hw : ({ w.loop with t := t, registered := w.loop.register c } : Loop P).Wired b.toBackend
      lists') (hnext : Iothread.Next b.toBackend c.target w.loop.t lists t lists') :
    (w.call c.target c t).Kept b c.target lists' := by
  have hplain : w.deleted = false → w.dtors = 0 →
      ({ w with loop := { w.loop with t := t, registered := w.loop.register c } } :
        Deletion P).Kept b c.target lists' := fun hdel hd =>
    ⟨hw, fun hdel' => Bool.noConfusion (hdel.symm.trans hdel'),
      fun hdel' => Bool.noConfusion (hdel.symm.trans hdel'),
      fun hdel' => Bool.noConfusion (hdel.symm.trans hdel'), h.uncalled, fun hd' => absurd hd hd'⟩
  cases c with
  | add m wait =>
    rw [call_add, if_pos (show m = Iothread.Call.target (.add m wait) from rfl)]
    exact ⟨hw, nofun, nofun, nofun, rfl, fun hd => absurd rfl hd⟩
  | inactive m mask => exact hplain (hproper rfl) (h.undestroyed hcall nofun)
  | setWait m wait => exact hplain (h.refused ht) (h.undestroyed hcall nofun)
  | toWaitq m k => exact hplain (h.refused ht) (h.undestroyed hcall nofun)
  | wake m wait => exact hplain (h.refused ht) (h.undestroyed hcall nofun)
  | del m =>
    obtain rfl := Option.some.inj ht
    obtain ⟨q, hq⟩ : ∃ q, DueAt w.loop.pc q ∧ .nbio m ∈ lists' q := by
      have hdel := Iothread.nbioDel_next h.wired.wired hfit
      have hmem := hdel.wired.toListed.on_iff.mpr (Loop.moved_self lists m .deleted)
      exact ⟨.deleted, Lifetime.user_due huser, hnext.wired.toListed.on_iff.mp hmem⟩
    obtain ⟨hmask, hflags⟩ := Iothread.nbioDel_self b.toEventloop w.loop.t m
    refine ⟨hw, fun _ _ => ⟨q, hq⟩, fun _ => hmask, fun _ _ => hflags, h.uncalled, fun hd => ?_⟩
    exact absurd (h.undestroyed hcall nofun) hd

theorem Kept.call {c : Iothread.Call} {t : Iothread P} (h : w.Kept b n lists)
    (huser : w.loop.pc.User) (hcall : w.loop.Callable c)
    (hproper : w.Proper b n (.loop (.call c))) (ht : w.loop.t.call b.toEventloop c = some t) :
    ∃ lists', (w.call n c t).Kept b n lists' := by
  have hl := h.wired.wired.toListed
  have hfit : w.loop.t.Fit lists c := h.wired.fit hcall fun m wait hc => by
    subst hc
    rintro ⟨q, hq⟩
    exact hproper q (hl.on_iff.mpr hq)
  obtain ⟨lists', hnext, hw⟩ := Loop.call_wired h.wired huser hfit ht
  refine ⟨lists', ?_⟩
  by_cases hcn : c.target = n
  · subst hcn
    exact h.call_self huser hcall hproper hfit ht hw hnext
  · have hkept := h.moved (s := { w.loop with t := t, registered := w.loop.register c })
      rfl rfl hw hnext.moved (Ne.symm hcn) (Iothread.call_other ht hcn)
    cases c with
    | add m wait =>
      rw [call_add, if_neg (show ¬ m = n from hcn)]
      exact hkept
    | del m =>
      rw [call_del, decide_eq_false (show ¬ m = n from hcn), Bool.or_false]
      exact hkept
    | _ => exact hkept

theorem Kept.plain {ev : Loop.Event A} {s : Loop P} (h : w.Kept b n lists) (hev : Plain ev)
    (hproper : w.Proper b n (.loop ev)) (hs : Loop.Takes b.toEventloop w.loop ev s) :
    ∃ lists', ({ w with loop := s } : Deletion P).Kept b n lists' := by
  have hpc := h.wired.pc
  have hgoto : ∀ {pc}, Loop.PcFits w.loop.t lists pc → (∀ q, DueAt w.loop.pc q → DueAt pc q) →
      ({ w with loop := w.loop.goto pc } : Deletion P).Kept b n lists := fun hfits hdue =>
    h.aside (h.wired.goto hfits) (fun q hq hmem => ⟨q, hdue q hq, hmem⟩) (fun _ => rfl)
      (fun _ _ => rfl) fun _ hoff => hoff
  cases hs with
  | @assign m fd huser =>
    have hmod := h.wired.wired.modify (n := m) fun io => { io with fd := fd }
    have hw : ({ w.loop with t := w.loop.t.modify m fun io => { io with fd := fd } } : Loop P).Wired
        b.toBackend lists := ⟨hmod, h.wired.registered, hpc.call huser (n := 0) (.inl rfl)⟩
    obtain ⟨hmask, hflags⟩ := Iothread.modify_fd w.loop.t n m fd
    exact ⟨lists, h.aside hw (fun q hq hmem => ⟨q, hq, hmem⟩) (fun _ => hmask) (fun _ _ => hflags)
      fun _ hoff => hoff⟩
  | written hp =>
    rw [hp] at hpc
    exact ⟨lists, hgoto hpc (by rw [hp]; exact fun _ => id)⟩
  | read hp =>
    rw [hp] at hpc
    exact ⟨lists, hgoto hpc (by rw [hp]; exact fun _ => id)⟩
  | pump hp => exact ⟨lists, hgoto trivial (by rw [hp]; exact fun _ => id)⟩
  | fini hp =>
    exact ⟨lists, hgoto (Loop.Front.start h.wired.wired.toListed _) (by rw [hp]; exact fun _ => id)⟩
  | @poll a t hp hne hpump =>
    obtain ⟨evs, hevs, hag, hw⟩ := Loop.poll_wired h.wired hpump
    refine ⟨_, h.aside hw (fun q hq => ?_) (fun _ => ?_) (fun hdel hd => ?_) fun hd hoff => ?_⟩
    · rw [hp] at hq
      exact hq.elim
    · rw [hag.mask, Iothread.report_mask]
    · obtain ⟨q, hq, -⟩ := h.place hdel hd
      rw [hp] at hq
      exact hq.elim
    · -- what the plugin reports is watched or on the inactive list
      rintro ⟨q, hq⟩
      rcases (Iothread.mem_reported evs).mp hq with ⟨-, hold⟩ | ⟨⟨ev, hev, rfl⟩, -⟩
      · exact hoff ⟨q, hold⟩
      · exact (hevs ev hev).elim (hproper hd) fun hin => hoff ⟨.inactive, hin⟩
  | _ => exact hev.elim

theorem Kept.waitOn {m : ℕ} {wait : UInt8} {t : Iothread P} (h : w.Kept b n lists)
    (huser : w.loop.pc.User) (hreg : w.loop.registered m = true)
    (ht : w.loop.t.nbioWaitOn b.toEventloop m wait = some t) :
    ∃ lists', (w.onThread t).Kept b n lists' := by
  obtain ⟨hmask, rfl⟩ := Iothread.nbioWaitOn_eq ht
  have hin : .nbio m ∈ Links.moved lists (.nbio m) .inactive .inactive :=
    Loop.moved_self lists m .inactive
  have hmoved := (h.wired.wired.modify (n := m) fun io =>
    { io with mask := wait &&& NBIO_WAIT, flags := wait &&& NBIO_WAIT }).moveTail
      (.inl (h.wired.registered m hreg)) .inactive
  have hwired := hmoved.inactive (n := m) (.inl ⟨.inactive, hin⟩)
  have hm : Iothread.Moved m lists (Links.moved lists (.nbio m) .inactive) := .inr ⟨_, rfl⟩
  have hw := h.wired.moved hwired _ (h.wired.pc.call huser hm)
  by_cases hmn : n = m
  · subst hmn
    have hdel : ¬ w.deleted = true := fun hdel => hmask (h.marked hdel)
    have hd : ¬ w.dtors ≠ 0 := fun hd => (h.gone hd).2 (h.wired.registered _ hreg)
    exact ⟨_, hw, fun hdel' => absurd hdel' hdel, fun hdel' => absurd hdel' hdel,
      fun hdel' => absurd hdel' hdel, h.uncalled, fun hd' => absurd hd' hd⟩
  · refine ⟨_, h.moved rfl rfl hw hm hmn ?_⟩
    rw [(b.inactive_agrees _ _).mask, (b.inactive_agrees _ _).flags, Iothread.moveTail_nbio,
      Iothread.modify_of_ne _ _ hmn]
    exact ⟨rfl, rfl⟩

theorem Kept.close (h : w.Kept b n lists) (m : ℕ) : (w.onThread
    { w.loop.t.modify m fun io => { io with fd := -1 } with
      priv := b.closed w.loop.t.priv m }).Kept b n lists := by
  have hw := h.wired.wired
  obtain ⟨hmask, hflags⟩ := Iothread.modify_fd w.loop.t n m (-1)
  refine h.aside ⟨⟨⟨hw.rings, hw.nbios⟩, fun k hk => ?_⟩, h.wired.registered, h.wired.pc.congr rfl⟩
    (fun q hq hmem => ⟨q, hq, hmem⟩) (fun _ => hmask) (fun _ _ => hflags) fun _ hoff => hoff
  exact hw.tied k (b.closed_watched _ _ _ hk).1

theorem takes_kept {ev : Event A} (h : w.Kept b n lists) (hproper : w.Proper b n ev)
    (hs : w.Takes b n ev w') : ∃ lists', w'.Kept b n lists' := by
  cases hs with
  | code hs => exact ⟨_, h.code hs⟩
  | call huser hcall ht => exact h.call huser hcall hproper ht
  | plain hev hs => exact h.plain hev hproper hs
  | waitOn huser hreg ht => exact h.waitOn huser hreg ht
  | close => exact ⟨lists, h.close _⟩

/-- A step of the code has been taken as often as it takes. -/
abbrev Codes (b : Plugin P A) (n : ℕ) : Deletion P → Deletion P → Prop :=
  Relation.ReflTransGen fun w w' => w.Takes b n (.loop .code) w'

theorem hosts (b : Plugin P A) (n : ℕ) (d : Bool) : Loop.Hosts b.toEventloop Deletion.loop
    (fun w lists => w.Kept b n lists ∧ (d = true → w.deleted = true))
      fun w w' => w.Takes b n (.loop .code) w' where
  listed h := h.1.wired.wired.toListed
  fits h := h.1.wired.pc
  step h _ hs := ⟨_, .code hs, rfl, h.1.code hs, fun hd => Bool.or_eq_true_iff.mpr (.inl (h.2 hd))⟩

/-- A thread that has just been initialised. -/
def start (links : Links Addr) (nbio : ℕ → Nbio) (priv : P) : Deletion P where
  loop := { t := .nbioInit links nbio priv }

/-- In every run whose steps meet the condition deletion is final, and both a pass over the
deleted list and `nbio_fini` come to an end with the destructor called. -/
theorem deletion_final {links : Links Addr} {nbio : ℕ → Nbio} {priv : P}
    (hpriv : ∀ m, ¬ b.watched priv m)
    (hrun : Relation.ReflTransGen (fun w w' => ∃ ev, w.Proper b n ev ∧ w.Takes b n ev w')
      (start links nbio priv) w) :
    w.Final n ∧
    (∀ pos tmp, w.loop.pc = .reap pos tmp → ∃ w', Codes b n w w' ∧ w'.loop.pc = .poll ∧
      (w.deleted = true → w'.dtors = 1)) ∧
    ∀ pos tmp, w.loop.pc = .finiInactive pos tmp → ∃ w', Codes b n w w' ∧ w'.loop.pc = .done ∧
      (w.deleted = true → w'.dtors = 1) := by
  have hkept : ∃ lists, w.Kept b n lists := by
    induction hrun with
    | refl =>
      have hw := Iothread.nbioInit_wired (b := b.toBackend) links nbio hpriv
      exact ⟨fun _ => [], ⟨hw, fun m hm => Bool.noConfusion hm, trivial⟩, nofun, nofun, nofun, rfl,
        fun hd => absurd rfl hd⟩
    | tail _ hstep ih =>
      obtain ⟨ev, hproper, htakes⟩ := hstep
      obtain ⟨lists, h⟩ := ih
      exact takes_kept h hproper htakes
  obtain ⟨lists, h⟩ := hkept
  refine ⟨h.final, fun pos tmp hpc => ?_, fun pos tmp hpc => ?_⟩
  · obtain ⟨w', lists', hcodes, ⟨hkept, hdel⟩, hend⟩ := (hosts b n w.deleted).reaps ⟨h, id⟩ hpc
    exact ⟨w', hcodes, hend, fun hd => hkept.final.reaped (hdel hd) (.inl hend)⟩
  · obtain ⟨w', lists', hcodes, ⟨hkept, hdel⟩, hend⟩ := (hosts b n w.deleted).finishes ⟨h, id⟩ hpc
    exact ⟨w', hcodes, hend, fun hd => hkept.final.reaped (hdel hd) (.inr hend)⟩

/-- A thread with no events yet. -/
def quiet : Deletion PollPriv := start ⟨id, id⟩ (fun _ => {}) {}

/-- It is added and deleted twice, and the pass over the deleted list has begun. -/
theorem deletion_final_twice : ∃ w : Deletion PollPriv, w.deleted = true ∧
    w.loop.pc = .reap (.nbio 0) (.head .deleted) ∧ w.Final 0 ∧
      ∃ w', Codes pollPlugin 0 w w' ∧ w'.loop.pc = .poll ∧ w'.dtors = 1 := by
  have hadd := Relation.ReflTransGen.single
    (r := fun w w' => ∃ ev, w.Proper pollPlugin 0 ev ∧ w.Takes pollPlugin 0 ev w') (a := quiet)
    ⟨.loop (.call (.add 0 NBIO_READ)),
      fun q => Iothread.nbioInit_off (b := pollPlugin.toBackend) _ _ fun n hn => hn,
      .call trivial trivial rfl⟩
  have hdel := hadd.tail ⟨.loop (.call (.del 0)), trivial, .call trivial rfl rfl⟩
  have htwice := hdel.tail ⟨.loop (.call (.del 0)), trivial, .call trivial rfl rfl⟩
  have hpump := htwice.tail ⟨.loop .pump, trivial, .plain trivial (.pump rfl)⟩
  have hreap := hpump.tail ⟨.loop .code, trivial, .code rfl⟩
  obtain ⟨hfinal, hends, -⟩ := deletion_final (fun n hn => hn) hreap
  obtain ⟨w', hcodes, hpoll, hdtors⟩ := hends (.nbio 0) (.head .deleted) rfl
  exact ⟨_, rfl, rfl, hfinal, w', hcodes, hpoll, hdtors rfl⟩

/-- It is deleted, and a send that would block calls `nbio_inactive` then: it is on the inactive
list. -/
theorem deletion_undone : ¬ ∀ w : Deletion PollPriv,
    Relation.ReflTransGen (fun w w' => ∃ ev, w.Takes pollPlugin 0 ev w') quiet w →
      w.Final 0 := by
  intro hall
  have hadd := Relation.ReflTransGen.single
    (r := fun w w' => ∃ ev, w.Takes pollPlugin 0 ev w') (a := quiet)
    ⟨.loop (.call (.add 0 NBIO_WRITE)), .call trivial trivial rfl⟩
  have hdel := hadd.tail ⟨.loop (.call (.del 0)), .call trivial rfl rfl⟩
  have hback := hdel.tail ⟨.loop (.call (.inactive 0 NBIO_WRITE)), .call trivial rfl rfl⟩
  obtain ⟨q, rfl, k, hk⟩ := (hall _ hback).listed rfl rfl
  rw [Function.iterate_fixed rfl] at hk
  cases hk

/-- `nbio_pump` does not tell the plugin of what it deletes: an event for what has been destroyed
brings it back to the active list, and `nbio_fini` destroys it again. -/
theorem destroyed_twice : ∃ w : Deletion Epoll,
    Relation.ReflTransGen (fun w w' => ∃ ev, w.Takes epollPlugin 0 ev w')
      (start ⟨id, id⟩ (fun _ => {}) {}) w ∧ w.dtors = 2 := by
  have hadd := Relation.ReflTransGen.single
    (r := fun w w' => ∃ ev, w.Takes epollPlugin 0 ev w') (a := start ⟨id, id⟩ (fun _ => {}) {})
    ⟨.loop (.call (.add 0 NBIO_READ)), .call trivial trivial rfl⟩
  have hother := hadd.tail ⟨.loop (.call (.add 1 NBIO_READ)), .call trivial trivial rfl⟩
  have hsleep := hother.tail ⟨.loop (.call (.inactive 0 NBIO_READ)), .call trivial rfl rfl⟩
  have hboth := hsleep.tail ⟨.loop (.call (.inactive 1 NBIO_READ)), .call trivial rfl rfl⟩
  have hpump := hboth.tail ⟨.loop .pump, .plain trivial (.pump rfl)⟩
  have hnone := hpump.tail ⟨.loop .code, .code rfl⟩
  have hreaped := hnone.tail ⟨.loop .code, .code rfl⟩
  have hpoll := hreaped.tail ⟨.loop (.poll [(0, EPOLLIN ||| EPOLLERR)]),
    .plain trivial (.poll rfl (by decide) ⟨by decide, by decide, rfl⟩)⟩
  have hagain := hpoll.tail ⟨.loop .pump, .plain trivial (.pump rfl)⟩
  have hfirst := hagain.tail ⟨.loop .code, .code rfl⟩
  have hvisit := hfirst.tail ⟨.loop .code, .code rfl⟩
  have hassert := hvisit.tail ⟨.loop .code, .code rfl⟩
  have hwrite := hassert.tail ⟨.loop .code, .code rfl⟩
  have hread := hwrite.tail ⟨.loop .code, .code rfl⟩
  have hret := hread.tail ⟨.loop .ret, .plain trivial (.read rfl)⟩
  have herror := hret.tail ⟨.loop .code, .code rfl⟩
  have haround := herror.tail ⟨.loop .code, .code rfl⟩
  have houter := haround.tail ⟨.loop .code, .code rfl⟩
  have hreap := houter.tail ⟨.loop .code, .code rfl⟩
  have hend := hreap.tail ⟨.loop .code, .code rfl⟩
  have hback := hend.tail ⟨.loop (.poll [(0, EPOLLIN)]),
    .plain trivial (.poll rfl (by decide) ⟨by decide, by decide, rfl⟩)⟩
  have hfini := hback.tail ⟨.loop .fini, .plain trivial (.fini rfl)⟩
  have hactive := hfini.tail ⟨.loop .code, .code rfl⟩
  have hinactive := hactive.tail ⟨.loop .code, .code rfl⟩
  have hdeleted := hinactive.tail ⟨.loop .code, .code rfl⟩
  have hlast := hdeleted.tail ⟨.loop .code, .code rfl⟩
  exact ⟨_, hlast, rfl⟩

/-- The condition on `nbio_inactive` cannot be dropped: it always takes what has been deleted off
the deleted list. -/
theorem inactive_unfinal {mask : UInt8} (h : w.Kept b n lists) (hdel : w.deleted = true)
    (hd : w.dtors = 0) (huser : w.loop.pc.User) :
    ¬ (w.call n (.inactive n mask) (w.loop.t.nbioInactive b.toEventloop n mask)).Final n := by
  obtain ⟨q, hq, hmem⟩ := h.place hdel hd
  have hidle : (w.loop.t.nbio n).mask &&& ((w.loop.t.nbio n).flags &&& ~~~mask) = 0 := by
    rw [h.cleared hdel hd, UInt8.zero_and, UInt8.and_zero]
  have hmoved := ((h.wired.wired.modify (n := n) fun io =>
    { io with flags := io.flags &&& ~~~mask }).moveTail (.inl ⟨q, hmem⟩) .inactive).inactive (n := n)
      (.inl ⟨.inactive, Loop.moved_self lists n .inactive⟩)
  have heq : w.loop.t.nbioInactive b.toEventloop n mask =
      b.inactive ((w.loop.t.modify n fun io =>
        { io with flags := io.flags &&& ~~~mask }).moveTail n .inactive) n := by
    unfold Iothread.nbioInactive
    dsimp only
    rw [if_pos (by rw [Iothread.modify_self]; exact hidle)]
  intro hfinal
  obtain ⟨q', hq', hon⟩ := hfinal.listed hdel hd
  have hin : q' = .inactive := by
    refine hmoved.rings.unique (hmoved.toListed.on_iff.mp ?_) (Loop.moved_self lists n .inactive)
    rw [← heq]
    exact hon
  subst hin
  cases due_of_user huser hq'

end Deletion
end Mayhem
