import Mayhem.Nbio.Lists

/-! The loops that take a list apart come to an end, whatever the thread is a part of. -/
namespace Mayhem

open Links (moved removed)

namespace Loop

variable {P A : Type} {e : Eventloop P A} {W : Type*} {loop : W → Loop P}
  {Inv : W → (Queue → List Addr) → Prop} {Step : W → W → Prop} {w : W}
  {lists : Queue → List Addr}

/-- A system with a thread in it. It keeps the lists of the thread in order, and goes along with
every step of the code. -/
structure Hosts (e : Eventloop P A) (loop : W → Loop P)
    (Inv : W → (Queue → List Addr) → Prop) (Step : W → W → Prop) : Prop where
  listed : ∀ {w lists}, Inv w lists → (loop w).t.Listed lists
  fits : ∀ {w lists}, Inv w lists → PcFits (loop w).t lists (loop w).pc
  step : ∀ {w lists s'}, Inv w lists → ¬ (loop w).pc.User → (loop w).step e = some s' →
    ∃ w', Step w w' ∧ (loop w').pc = s'.pc ∧ Inv w' ((loop w).after lists)

/-- A loop over the list `q` that takes every entry off it. -/
theorem Hosts.drains (h : Hosts e loop Inv Step) (q : Queue) (pcs : Addr → Addr → Pc)
    (exit : Pc → Prop) (huser : ∀ pos tmp, ¬ (pcs pos tmp).User)
    (hfits : ∀ {t : Iothread P} {lists pos tmp}, PcFits t lists (pcs pos tmp) →
      Front t lists q pos tmp)
    (hentry : ∀ {s : Loop P} {n tmp} lists, s.pc = pcs (.nbio n) tmp →
      ∃ s' tmp', s.step e = some s' ∧ s'.pc = pcs tmp tmp' ∧
        s.after lists q = removed lists (.nbio n) q)
    (hhead : ∀ {s : Loop P} {tmp}, s.pc = pcs (.head q) tmp →
      ∃ s', s.step e = some s' ∧ exit s'.pc)
    (hw : Inv w lists) {pos tmp : Addr} (hpc : (loop w).pc = pcs pos tmp) :
    ∃ w' lists', Relation.ReflTransGen Step w w' ∧ Inv w' lists' ∧ exit (loop w').pc := by
  have hgen : ∀ L, lists q = L →
      ∃ w' lists', Relation.ReflTransGen Step w w' ∧ Inv w' lists' ∧ exit (loop w').pc := by
    intro L hL
    induction L generalizing w lists pos tmp with
    | nil =>
      have hfront := hfits (hpc ▸ h.fits hw)
      obtain rfl : pos = .head q := by rw [hfront.1, hL]; rfl
      obtain ⟨s', hs, hexit⟩ := hhead hpc
      obtain ⟨w', hstep, hpc', hw'⟩ := h.step hw (hpc ▸ huser _ _) hs
      exact ⟨w', _, .single hstep, hw', hpc' ▸ hexit⟩
    | cons a rest ih =>
      have hfront := hfits (hpc ▸ h.fits hw)
      have hl := h.listed hw
      obtain ⟨n, rfl⟩ := hl.nbios q a (by simp [hL])
      obtain rfl : pos = .nbio n := by rw [hfront.1, hL]; rfl
      obtain ⟨s', tmp', hs, hs', hafter⟩ := hentry lists hpc
      obtain ⟨w', hstep, hpc', hw'⟩ := h.step hw (hpc ▸ huser _ _) hs
      have hnodup := (List.nodup_cons.mp (hl.rings.ring q).nodup).2
      have hrest : (loop w).after lists q = rest := by
        rw [hafter]
        exact removed_front hnodup hL
      obtain ⟨w'', lists'', hrun, hw'', hexit⟩ := ih hw' (hpc'.trans hs') hrest
      exact ⟨w'', lists'', .head hstep hrun, hw'', hexit⟩
  exact hgen _ rfl

/-- A pass over the deleted list comes to its end. -/
theorem Hosts.reaps (h : Hosts e loop Inv Step) (hw : Inv w lists) {pos tmp : Addr}
    (hpc : (loop w).pc = .reap pos tmp) :
    ∃ w' lists', Relation.ReflTransGen Step w w' ∧ Inv w' lists' ∧ (loop w').pc = .poll :=
  h.drains .deleted .reap (· = .poll) (fun _ _ hu => hu) id
    (fun lists hp => ⟨_, _, by unfold Loop.step; rw [hp], rfl, by simp only [Loop.after, hp]⟩)
    (fun hp => ⟨_, by unfold Loop.step; rw [hp], rfl⟩) hw hpc

theorem moved_away (lists : Queue → List Addr) (n : ℕ) {q : Queue} (hq : q ≠ .active) :
    moved lists (.nbio n) .active q = removed lists (.nbio n) q := by
  rw [moved, Links.added, Function.update_of_ne hq]

/-- `nbio_fini` comes to its end. -/
theorem Hosts.finishes (h : Hosts e loop Inv Step) (hw : Inv w lists) {pos tmp : Addr}
    (hpc : (loop w).pc = .finiInactive pos tmp) :
    ∃ w' lists', Relation.ReflTransGen Step w w' ∧ Inv w' lists' ∧ (loop w').pc = .done := by
  obtain ⟨w₁, lists₁, hrun₁, hw₁, pos₁, tmp₁, hpc₁⟩ := h.drains
    .inactive .finiInactive (fun pc => ∃ pos tmp, pc = .finiDeleted pos tmp)
    (fun _ _ hu => hu) id
    (fun lists hp => ⟨_, _, by unfold Loop.step; rw [hp], rfl, by
      simp only [Loop.after, hp]
      exact moved_away lists _ (by simp)⟩)
    (fun hp => ⟨_, by unfold Loop.step; rw [hp], _, _, rfl⟩) hw hpc
  obtain ⟨w₂, lists₂, hrun₂, hw₂, pos₂, tmp₂, hpc₂⟩ := h.drains
    .deleted .finiDeleted (fun pc => ∃ pos tmp, pc = .finiActive pos tmp)
    (fun _ _ hu => hu) id
    (fun lists hp => ⟨_, _, by unfold Loop.step; rw [hp], rfl, by
      simp only [Loop.after, hp]
      exact moved_away lists _ (by simp)⟩)
    (fun hp => ⟨_, by unfold Loop.step; rw [hp], _, _, rfl⟩) hw₁ hpc₁
  obtain ⟨w₃, lists₃, hrun₃, hw₃, hdone⟩ := h.drains
    .active .finiActive (· = .done) (fun _ _ hu => hu) id
    (fun lists hp => ⟨_, _, by unfold Loop.step; rw [hp], rfl, by simp only [Loop.after, hp]⟩)
    (fun hp => ⟨_, by unfold Loop.step; rw [hp], rfl⟩) hw₂ hpc₂
  exact ⟨w₃, lists₃, hrun₁.trans (hrun₂.trans hrun₃), hw₃, hdone⟩

end Loop
end Mayhem
