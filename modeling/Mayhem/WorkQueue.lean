import Mathlib.Data.List.ReduceOption
import Mathlib.Logic.Function.Basic
import Mayhem.Lib.Run

/-! `WorkQueue` of `webthread.py`: any number of threads that push, and the one that works. -/
namespace Mayhem

/-- Where a thread is in `push`. -/
inductive Push (α : Type)
  | idle
  | acquire (thing : Option α)
  | append (thing : Option α)
  | release
  | set

/-- Where the worker is in `run`; dead after `popleft` on an empty queue. -/
inductive Worker (α : Type)
  | wait
  | acquire
  | popleft
  | test (work : Option α)
  | clear (work : Option α)
  | release (work : Option α)
  | work (work : Option α)
  | dead

/-- The thread is between `acquire` and `release`. -/
def Push.Holds {α : Type} : Push α → Prop
  | .append _ => True
  | .release => True
  | _ => False

/-- The thread has appended, and not set the event. -/
def Push.Appended {α : Type} : Push α → Prop
  | .release => True
  | .set => True
  | _ => False

def Worker.Holds {α : Type} : Worker α → Prop
  | .popleft => True
  | .test _ => True
  | .clear _ => True
  | .release _ => True
  | .dead => True
  | _ => False

def Push.isSet {α : Type} : Push α → Bool
  | .set => true
  | _ => false

/-- The worker has taken something out, and not decided whether to clear the event. -/
def Worker.deciding {α : Type} : Worker α → Bool
  | .test _ => true
  | .clear _ => true
  | _ => false

/-- What the worker has taken out, if there is something to be done. -/
def Worker.inHand {α : Type} : Worker α → Option α
  | .test w => w
  | .clear w => w
  | .release w => w
  | .work w => w
  | _ => none

inductive Thread (ι : Type)
  | producer (p : ι)
  | worker
deriving DecidableEq

/-- Things are None or a request. Of the lock it is known who holds it. -/
structure WorkQueue (ι α : Type) where
  queue : List (Option α) := []
  lock : Option (Thread ι) := none
  /-- The flag of `wait`, which is clear at first: the argument of `Event` is for debugging. -/
  wait : Bool := false
  producer : ι → Push α := fun _ => .idle
  worker : Worker α := .wait
  /-- What has been appended. -/
  pushed : List (Option α) := []
  /-- What `_do_work` has been called with. -/
  handed : List α := []

/-- A thread calls `push`, or a thread takes its next step. -/
inductive Action (ι α : Type)
  | push (p : ι) (thing : Option α)
  | producer (p : ι)
  | worker

namespace WorkQueue

variable {ι α : Type} [DecidableEq ι]

def goto (s : WorkQueue ι α) (p : ι) (pc : Push α) : WorkQueue ι α :=
  { s with producer := Function.update s.producer p pc }

/-- `push`. -/
def stepProducer (s : WorkQueue ι α) (p : ι) : Option (WorkQueue ι α) :=
  match s.producer p with
  | .idle => none
  | .acquire thing =>
    if s.lock = none then some { s.goto p (.append thing) with lock := some (.producer p) } else none
  | .append thing =>
    some { s.goto p .release with
      queue := s.queue ++ [thing], pushed := s.pushed ++ [thing] }
  | .release => some { s.goto p .set with lock := none }
  | .set => some { s.goto p .idle with wait := true }

/-- `run`. -/
def stepWorker (s : WorkQueue ι α) : Option (WorkQueue ι α) :=
  match s.worker with
  | .wait => if s.wait then some { s with worker := .acquire } else none
  | .acquire =>
    if s.lock = none then some { s with worker := .popleft, lock := some .worker } else none
  | .popleft =>
    match s.queue with
    | [] => some { s with worker := .dead }
    | work :: queue => some { s with worker := .test work, queue }
  | .test work => some { s with worker := if s.queue = [] then .clear work else .release work }
  | .clear work => some { s with worker := .release work, wait := false }
  | .release work => some { s with worker := .work work, lock := none }
  | .work (some work) => some { s with worker := .wait, handed := s.handed ++ [work] }
  | .work none => some { s with worker := .wait }
  | .dead => none

def step (s : WorkQueue ι α) : Action ι α → Option (WorkQueue ι α)
  | .push p thing =>
    match s.producer p with
    | .idle => some (s.goto p (.acquire thing))
    | _ => none
  | .producer p => s.stepProducer p
  | .worker => s.stepWorker

/-! ### The steps of the threads -/

/-- What a step of `push` does. -/
inductive Pushes (s : WorkQueue ι α) (p : ι) : WorkQueue ι α → Prop
  | acquire {thing : Option α} (hpc : s.producer p = .acquire thing) (hfree : s.lock = none) :
      Pushes s p { s.goto p (.append thing) with lock := some (.producer p) }
  | append {thing : Option α} (hpc : s.producer p = .append thing) :
      Pushes s p { s.goto p .release with
        queue := s.queue ++ [thing], pushed := s.pushed ++ [thing] }
  | release (hpc : s.producer p = .release) : Pushes s p { s.goto p .set with lock := none }
  | set (hpc : s.producer p = .set) : Pushes s p { s.goto p .idle with wait := true }

/-- What a step of `run` does. -/
inductive Works (s : WorkQueue ι α) : WorkQueue ι α → Prop
  | wait (hpc : s.worker = .wait) (hset : s.wait = true) : Works s { s with worker := .acquire }
  | acquire (hpc : s.worker = .acquire) (hfree : s.lock = none) :
      Works s { s with worker := .popleft, lock := some .worker }
  | empty (hpc : s.worker = .popleft) (hqueue : s.queue = []) : Works s { s with worker := .dead }
  | popleft {work : Option α} {queue : List (Option α)} (hpc : s.worker = .popleft)
      (hqueue : s.queue = work :: queue) : Works s { s with worker := .test work, queue }
  | test {work : Option α} (hpc : s.worker = .test work) :
      Works s { s with worker := if s.queue = [] then .clear work else .release work }
  | clear {work : Option α} (hpc : s.worker = .clear work) :
      Works s { s with worker := .release work, wait := false }
  | release {work : Option α} (hpc : s.worker = .release work) :
      Works s { s with worker := .work work, lock := none }
  | work {work : α} (hpc : s.worker = .work (some work)) :
      Works s { s with worker := .wait, handed := s.handed ++ [work] }
  | skip (hpc : s.worker = .work none) : Works s { s with worker := .wait }

variable {s s' : WorkQueue ι α} {p q : ι} {pc : Push α}

theorem stepProducer_pushes (h : s.stepProducer p = some s') : s.Pushes p s' := by
  unfold stepProducer at h
  cases hpc : s.producer p with
  | idle =>
    simp only [hpc] at h
    cases h
  | acquire thing =>
    simp only [hpc] at h
    split at h
    · cases h
      exact .acquire hpc ‹_›
    · cases h
  | append thing =>
    simp only [hpc] at h
    cases h
    exact .append hpc
  | release =>
    simp only [hpc] at h
    cases h
    exact .release hpc
  | set =>
    simp only [hpc] at h
    cases h
    exact .set hpc

omit [DecidableEq ι] in
theorem stepWorker_works (h : s.stepWorker = some s') : s.Works s' := by
  unfold stepWorker at h
  cases hpc : s.worker with
  | wait =>
    simp only [hpc] at h
    split at h
    · cases h
      exact .wait hpc ‹_›
    · cases h
  | acquire =>
    simp only [hpc] at h
    split at h
    · cases h
      exact .acquire hpc ‹_›
    · cases h
  | popleft =>
    simp only [hpc] at h
    split at h
    · cases h
      exact .empty hpc ‹_›
    · cases h
      exact .popleft hpc ‹_›
  | test work =>
    simp only [hpc] at h
    cases h
    exact .test hpc
  | clear work =>
    simp only [hpc] at h
    cases h
    exact .clear hpc
  | release work =>
    simp only [hpc] at h
    cases h
    exact .release hpc
  | work work =>
    cases work with
    | none =>
      simp only [hpc] at h
      cases h
      exact .skip hpc
    | some work =>
      simp only [hpc] at h
      cases h
      exact .work hpc
  | dead =>
    simp only [hpc] at h
    cases h

/-! ### What holds in every run -/

/-- The calls of `_do_work` that are due, but for those of what is in the queue. -/
def inHand (s : WorkQueue ι α) : List α := s.worker.inHand.toList

/-- Whatever is appended is handed over in order; the flag is not set for a thing that is in the
queue only while the thread that has pushed it is still about to. -/
structure Inv (s : WorkQueue ι α) : Prop where
  producer : ∀ p, (s.producer p).Holds → s.lock = some (.producer p)
  worker : s.worker.Holds → s.lock = some .worker
  order : s.handed ++ s.inHand ++ s.queue.reduceOption = s.pushed.reduceOption
  clear : ∀ work, s.worker = .clear work → s.queue = []
  woken : s.queue ≠ [] → s.wait = true ∨ ∃ p, (s.producer p).Appended

theorem goto_self : (s.goto p pc).producer p = pc := Function.update_self ..

theorem goto_ne (h : q ≠ p) : (s.goto p pc).producer q = s.producer q :=
  Function.update_of_ne h ..

omit [DecidableEq ι] in
theorem inv_new : (({} : WorkQueue ι α)).Inv where
  producer _ h := h.elim
  worker h := h.elim
  order := rfl
  clear _ h := nomatch h
  woken h := absurd rfl h

/-- Who has appended still has, while another thread goes on. -/
theorem appended_goto (hp : ¬ (s.producer p).Appended) (h : ∃ q, (s.producer q).Appended) :
    ∃ q, ((s.goto p pc).producer q).Appended := by
  obtain ⟨q, hq⟩ := h
  have hqp : q ≠ p := fun he => hp (he ▸ hq)
  exact ⟨q, by rwa [goto_ne hqp]⟩

/-- Who holds the lock still does, while another thread goes on without it. -/
theorem holds_goto (hi : s.Inv) (hpc : ¬ pc.Holds) (h : ((s.goto p pc).producer q).Holds) :
    s.lock = some (.producer q) ∧ q ≠ p := by
  by_cases hqp : q = p
  · rw [hqp, goto_self] at h
    exact absurd h hpc
  · rw [goto_ne hqp] at h
    exact ⟨hi.producer q h, hqp⟩

theorem inv_push {thing : Option α} (hi : s.Inv) (h : s.step (.push p thing) = some s') :
    s'.Inv := by
  unfold step at h
  cases hpc : s.producer p with
  | idle =>
    simp only [hpc] at h
    cases h
    have hp : ¬ (s.producer p).Appended := by rw [hpc]; exact id
    exact { hi with
      producer := fun q hq => (holds_goto hi id hq).1
      woken := fun h => (hi.woken h).imp_right (appended_goto hp) }
  | acquire thing' | append thing' | release | set =>
    simp only [hpc] at h
    cases h

theorem inv_producer (hi : s.Inv) (h : s.stepProducer p = some s') : s'.Inv := by
  cases stepProducer_pushes h with
  | acquire hpc hfree =>
    have hother : ∀ {t}, s.lock ≠ some t := fun {t} ht => nomatch hfree.symm.trans ht
    have hp : ¬ (s.producer p).Appended := by rw [hpc]; exact id
    refine { hi with
      producer := fun q hq => ?_
      worker := fun hw => absurd (hi.worker hw) hother
      woken := fun h => (hi.woken h).imp_right (appended_goto hp) }
    by_cases hqp : q = p
    · rw [hqp]
    · rw [goto_ne hqp] at hq
      exact absurd (hi.producer q hq) hother
  | append hpc =>
    have hlock : s.lock = some (.producer p) := hi.producer p (by rw [hpc]; trivial)
    refine { hi with
      producer := fun q hq => ?_
      order := ?_
      clear := fun work hw => ?_
      woken := fun _ => .inr ⟨p, by rw [goto_self]; trivial⟩ }
    · by_cases hqp : q = p
      · rw [hqp]
        exact hlock
      · rw [goto_ne hqp] at hq
        exact hi.producer q hq
    · have horder := hi.order
      rw [List.reduceOption_append, List.reduceOption_append, ← horder, ← List.append_assoc]
      rfl
    · -- the worker would hold the lock
      have hworker : s.lock = some .worker := hi.worker (by rw [show s.worker = _ from hw]; trivial)
      exact nomatch hworker.symm.trans hlock
  | release hpc =>
    have hlock : s.lock = some (.producer p) := hi.producer p (by rw [hpc]; trivial)
    refine { hi with
      producer := fun q hq => ?_
      worker := fun hw => nomatch (hi.worker hw).symm.trans hlock
      woken := fun _ => .inr ⟨p, by rw [goto_self]; trivial⟩ }
    obtain ⟨hq, hqp⟩ := holds_goto hi id hq
    cases hq.symm.trans hlock
    exact absurd rfl hqp
  | set hpc =>
    exact { hi with
      producer := fun q hq => (holds_goto hi id hq).1
      woken := fun _ => .inl rfl }

omit [DecidableEq ι] in
/-- The worker goes on, with the same in its hand. -/
theorem Inv.move {w : Worker α} (hi : s.Inv) (hholds : w.Holds → s.lock = some .worker)
    (hhand : w.inHand = s.worker.inHand) (hclear : ∀ work, w = .clear work → s.queue = []) :
    ({ s with worker := w }).Inv := by
  have horder := hi.order
  rw [inHand, ← hhand] at horder
  exact { hi with worker := hholds, order := horder, clear := hclear }

omit [DecidableEq ι] in
theorem inv_worker (hi : s.Inv) (h : s.stepWorker = some s') : s'.Inv := by
  have hlock := hi.worker
  have horder := hi.order
  cases stepWorker_works h with
  | wait hpc hset => exact hi.move (fun hw => hw.elim) (by rw [hpc]; rfl) nofun
  | acquire hpc hfree =>
    rw [inHand, hpc] at horder
    exact { hi with
      producer := fun q hq => nomatch hfree.symm.trans (hi.producer q hq)
      worker := fun _ => rfl
      order := horder
      clear := nofun }
  | empty hpc hqueue =>
    rw [hpc] at hlock
    exact hi.move (fun _ => hlock trivial) (by rw [hpc]; rfl) nofun
  | @popleft work queue hpc hqueue =>
    rw [hpc] at hlock
    rw [inHand, hpc, hqueue] at horder
    refine { hi with
      worker := fun _ => hlock trivial
      order := ?_
      clear := nofun
      woken := fun _ => hi.woken (by rw [hqueue]; exact nofun) }
    rw [← horder]
    cases work <;> simp [inHand, Worker.inHand]
  | test hpc =>
    rw [hpc] at hlock
    refine hi.move (fun _ => hlock trivial) ?_ fun work' hw => ?_
    · rw [hpc]
      split <;> rfl
    · by_contra hqueue
      rw [if_neg hqueue] at hw
      cases hw
  | @clear work hpc =>
    rw [hpc] at hlock
    have hempty := hi.clear work hpc
    exact { hi.move (w := .release work) (fun _ => hlock trivial) (by rw [hpc]; rfl) nofun with
      woken := fun hqueue => absurd hempty hqueue }
  | @release work hpc =>
    rw [hpc] at hlock
    exact { hi.move (w := .work work) (fun hw => hw.elim) (by rw [hpc]; rfl) nofun with
      producer := fun q hq => nomatch (hi.producer q hq).symm.trans (hlock trivial)
      worker := fun hw => hw.elim }
  | work hpc =>
    rw [inHand, hpc] at horder
    refine { hi with worker := fun hw => hw.elim, order := ?_, clear := nofun }
    rw [← horder]
    simp [inHand, Worker.inHand]
  | skip hpc => exact hi.move (fun hw => hw.elim) (by rw [hpc]; rfl) nofun

theorem inv_step {a : Action ι α} (hi : s.Inv) (h : s.step a = some s') : s'.Inv := by
  cases a with
  | push p thing => exact inv_push hi h
  | producer p => exact inv_producer hi h
  | worker => exact inv_worker hi h

/-! ### Safety -/

/-- `popleft` finds something, things are handed over once each and in the order in which they
were pushed, and the event is set whenever something is left by threads that are done. -/
structure Safe (s : WorkQueue ι α) : Prop where
  popleft : s.worker = .popleft → s.queue ≠ []
  alive : s.worker ≠ .dead
  order : s.handed <+: s.pushed.reduceOption
  woken : s.queue ≠ [] → (∀ p, s.producer p = .idle) → s.wait = true

/-- The event is not set for something that has been taken out already, unless the worker has
not got to clear it. -/
def Proper (s : WorkQueue ι α) : Action ι α → Prop
  | .producer p => (s.producer p).isSet = true → s.queue ≠ [] ∨ s.worker.deciding = true
  | _ => True

instance (s : WorkQueue ι α) : DecidablePred s.Proper
  | .producer _ => inferInstanceAs (Decidable (_ → _))
  | .push _ _ => isTrue trivial
  | .worker => isTrue trivial

/-- What a proper run adds to the invariant: the event is not set for nothing. -/
structure Served (s : WorkQueue ι α) : Prop where
  wait : s.wait = true → s.queue ≠ [] ∨ s.worker.deciding = true
  acquire : s.worker = .acquire → s.queue ≠ []
  popleft : s.worker = .popleft → s.queue ≠ []
  alive : s.worker ≠ .dead

omit [DecidableEq ι] in
theorem served_new : ({} : WorkQueue ι α).Served where
  wait h := nomatch (h : false = true)
  acquire h := nomatch (h : Worker.wait = _)
  popleft h := nomatch (h : Worker.wait = _)
  alive h := nomatch (h : Worker.wait = _)

theorem served_goto (hs : s.Served) : (s.goto p pc).Served := { hs with }

theorem served_producer (hs : s.Served) (hok : s.Proper (.producer p))
    (h : s.stepProducer p = some s') : s'.Served := by
  cases stepProducer_pushes h with
  | acquire => exact { hs with }
  | @append thing =>
    have hne : s.queue ++ [thing] ≠ [] := List.concat_ne_nil thing s.queue
    exact ⟨fun _ => .inl hne, fun _ => hne, fun _ => hne, hs.alive⟩
  | release => exact { hs with }
  | set hpc =>
    rw [Proper, hpc] at hok
    exact { hs with wait := fun _ => hok rfl }

omit [DecidableEq ι] in
theorem served_worker (hs : s.Served) (h : s.stepWorker = some s') : s'.Served := by
  have hwait := hs.wait
  cases stepWorker_works h with
  | wait hpc hset =>
    rw [hpc] at hwait
    have hne : s.queue ≠ [] := (hwait hset).resolve_right nofun
    exact ⟨fun _ => .inl hne, fun _ => hne, nofun, nofun⟩
  | acquire hpc =>
    have hne := hs.acquire hpc
    exact ⟨fun _ => .inl hne, nofun, fun _ => hne, nofun⟩
  | empty hpc hqueue => exact absurd hqueue (hs.popleft hpc)
  | popleft => exact ⟨fun _ => .inr rfl, nofun, nofun, nofun⟩
  | test =>
    by_cases hqueue : s.queue = []
    · simp only [if_pos hqueue]
      exact ⟨fun _ => .inr rfl, nofun, nofun, nofun⟩
    · simp only [if_neg hqueue]
      exact ⟨fun _ => .inl hqueue, nofun, nofun, nofun⟩
  | clear => exact ⟨nofun, nofun, nofun, nofun⟩
  | release hpc =>
    rw [hpc] at hwait
    exact ⟨fun hset => .inl ((hwait hset).resolve_right nofun), nofun, nofun, nofun⟩
  | work hpc =>
    rw [hpc] at hwait
    exact ⟨fun hset => .inl ((hwait hset).resolve_right nofun), nofun, nofun, nofun⟩
  | skip hpc =>
    rw [hpc] at hwait
    exact ⟨fun hset => .inl ((hwait hset).resolve_right nofun), nofun, nofun, nofun⟩

theorem served_step {a : Action ι α} (hs : s.Served) (hok : s.Proper a) (h : s.step a = some s') :
    s'.Served := by
  cases a with
  | push p thing =>
    rw [step] at h
    split at h
    · cases h
      exact served_goto hs
    · cases h
  | producer p => exact served_producer hs hok h
  | worker => exact served_worker hs h

/-- In every run the order is kept, and no wake-up is lost. -/
theorem queue_ordered (hrun : Run.Along (fun _ _ => True) step ({} : WorkQueue ι α) s) :
    s.handed <+: s.pushed.reduceOption ∧
      (s.queue ≠ [] → (∀ p, s.producer p = .idle) → s.wait = true) := by
  have hi : s.Inv := Run.along_invariant (fun s a s' hi _ h => inv_step hi h) inv_new hrun
  refine ⟨?_, fun hqueue hidle => (hi.woken hqueue).resolve_right ?_⟩
  · rw [← hi.order, List.append_assoc]
    exact List.prefix_append _ _
  · rintro ⟨p, hp⟩
    rw [hidle p] at hp
    exact hp

/-- In a run in which no event is set for something that is gone, nothing goes wrong. -/
theorem queue_safe (hrun : Run.Along Proper step ({} : WorkQueue ι α) s) : s.Safe := by
  have hs : s.Served := Run.along_invariant (fun s a s' => served_step) served_new hrun
  obtain ⟨horder, hwoken⟩ := queue_ordered (Run.along_mono (fun _ _ _ => trivial) hrun)
  exact ⟨hs.popleft, hs.alive, horder, hwoken⟩

/-- Two threads push. The event is set for the second request once the worker has taken it out
and not cleared the event yet, and for the third one while the second is worked on. -/
def overlapping : List (Action Bool ℕ) :=
  [.push false (some 1), .producer false, .push true (some 2), .producer false, .producer false,
    .producer true, .producer false, .worker, .producer true, .producer true] ++
    List.replicate 8 .worker ++ [.producer true] ++ List.replicate 3 .worker ++
    [.push false (some 3)] ++ List.replicate 4 (.producer false) ++ [.worker]

theorem queue_safe_overlapping : ∃ s : WorkQueue Bool ℕ,
    s.handed = [1, 2] ∧ s.queue = [some 3] ∧ s.wait = true ∧ s.Safe := by
  have hrun : (Run.exec (fun s a => if Proper s a then step s a else none)
      ({} : WorkQueue Bool ℕ) overlapping).map (fun s => (s.handed, s.queue, s.wait)) =
        some ([1, 2], [some 3], true) := rfl
  obtain ⟨s, hs, hend⟩ := Option.map_eq_some_iff.mp hrun
  obtain ⟨hhanded, hrest⟩ := Prod.mk.inj hend
  obtain ⟨hqueue, hwait⟩ := Prod.mk.inj hrest
  exact ⟨s, hhanded, hqueue, hwait, queue_safe (Run.along_of_exec hs)⟩

/-- One thread pushes two things. Both are taken out before it sets the event for the second
one, and the worker comes back. -/
def staleSet : List (Action Unit ℕ) :=
  [.push () (some 1)] ++ List.replicate 4 (.producer ()) ++
    [.push () (some 2)] ++ List.replicate 3 (.producer ()) ++
    List.replicate 13 .worker ++ [.producer ()] ++ List.replicate 3 .worker

theorem queue_unsafe :
    ¬ ∀ s : WorkQueue Unit ℕ, Run.Along (fun _ _ => True) step {} s → s.Safe := by
  intro hsafe
  have hexec : (Run.exec (fun s a => if True then step s a else none)
      ({} : WorkQueue Unit ℕ) staleSet).map (fun s => s.worker matches .dead) = some true := rfl
  obtain ⟨s, hs, hdead⟩ := Option.map_eq_some_iff.mp hexec
  have hrun : Run.Along (fun _ _ => True) step {} s := Run.along_of_exec hs
  have halive := (hsafe s hrun).alive
  cases hw : s.worker <;> simp [hw] at hdead
  exact halive hw

/-! ### Sets that are not proper -/

/-- Steps of the worker alone. -/
theorem along_worker (h : s.stepWorker = some s') :
    Run.Along (fun _ _ => True) step s s' := .single ⟨.worker, trivial, h⟩

/-- With the event set for nothing the worker runs into the empty queue, holding the lock. -/
theorem dies_of_stale (hqueue : s.queue = []) (hwait : s.wait = true) (hlock : s.lock = none)
    (hworker : ¬ s.worker.Holds) :
    ∃ t, Run.Along (fun _ _ => True) step s t ∧ t.worker = .dead ∧ t.lock = some .worker := by
  have hacquire : ∀ s : WorkQueue ι α, s.queue = [] → s.lock = none → s.worker = .acquire →
      ∃ t, Run.Along (fun _ _ => True) step s t ∧ t.worker = .dead ∧ t.lock = some .worker := by
    intro s hqueue hlock hworker
    refine ⟨{ s with worker := .dead, lock := some .worker }, ?_, rfl, rfl⟩
    have hgot : s.stepWorker = some { s with worker := .popleft, lock := some .worker } := by
      rw [stepWorker, hworker]
      exact if_pos hlock
    refine .trans (along_worker hgot) (along_worker ?_)
    simp [stepWorker, hqueue]
  have hwaiting : ∀ s : WorkQueue ι α, s.queue = [] → s.wait = true → s.lock = none →
      s.worker = .wait →
      ∃ t, Run.Along (fun _ _ => True) step s t ∧ t.worker = .dead ∧ t.lock = some .worker := by
    intro s hqueue hwait hlock hworker
    have hwoken : s.stepWorker = some { s with worker := .acquire } := by
      rw [stepWorker, hworker]
      exact if_pos hwait
    obtain ⟨t, hrun, ht⟩ := hacquire { s with worker := .acquire } hqueue hlock rfl
    exact ⟨t, .trans (along_worker hwoken) hrun, ht⟩
  cases hpc : s.worker with
  | wait => exact hwaiting s hqueue hwait hlock hpc
  | acquire => exact hacquire s hqueue hlock hpc
  | work work =>
    obtain ⟨s', hstep, hs'⟩ : ∃ s', s.stepWorker = some s' ∧ s'.queue = [] ∧ s'.wait = true ∧
        s'.lock = none ∧ s'.worker = .wait := by
      rw [stepWorker, hpc]
      cases work <;> exact ⟨_, rfl, hqueue, hwait, hlock, rfl⟩
    obtain ⟨t, hrun, ht⟩ := hwaiting s' hs'.1 hs'.2.1 hs'.2.2.1 hs'.2.2.2
    exact ⟨t, .trans (along_worker hstep) hrun, ht⟩
  | popleft | test work | clear work | release work | dead =>
    rw [hpc] at hworker
    exact absurd trivial hworker

/-- A set that is not proper, while nobody holds the lock, lets that happen. -/
theorem dies_of_improper {a : Action ι α} (hi : s.Inv) (hbad : ¬ s.Proper a)
    (h : s.step a = some s') (hlock : s.lock = none) :
    ∃ t, Run.Along (fun _ _ => True) step s' t ∧ t.worker = .dead ∧ t.lock = some .worker := by
  cases a with
  | push p thing => exact absurd trivial hbad
  | worker => exact absurd trivial hbad
  | producer p =>
    rw [Proper, Classical.not_imp, not_or, not_not] at hbad
    obtain ⟨hset, hqueue, -⟩ := hbad
    have hpc : s.producer p = .set := by
      cases hpc : s.producer p <;> simp [hpc, Push.isSet] at hset ⊢
    have hs' : s' = { s.goto p .idle with wait := true } := by
      simp only [step, stepProducer, hpc, Option.some.injEq] at h
      exact h.symm
    rw [hs']
    exact dies_of_stale hqueue rfl hlock fun hw => nomatch (hi.worker hw).symm.trans hlock

end WorkQueue
end Mayhem
