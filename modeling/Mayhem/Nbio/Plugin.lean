import Mayhem.Nbio.Epoll
import Mayhem.Nbio.Slots

/-! What an owner may rely on of an event loop plugin when it takes an `nbio` away: once the
plugin has been told so, or the descriptor has been closed, nothing more is reported for it.
Both plugins keep this as long as the descriptor is a valid one. -/
namespace Mayhem

/-- `closed` is what the closing of a descriptor does to what the kernel watches, `sound` says
that what an `nbio` remembers fits what the kernel was asked for. -/
structure Plugin (P A : Type) extends Backend P A where
  closed : P → ℕ → P
  closed_watched : ∀ p n m, watched (closed p n) m → watched p m ∧ m ≠ n
  sound : Iothread P → ℕ → Prop
  sound_fresh : ∀ t n, 0 ≤ (t.nbio n).fd → ¬ watched t.priv n → sound t n
  sound_congr : ∀ t t' n, (t'.nbio n).fd = (t.nbio n).fd →
    (t'.nbio n).evPriv = (t.nbio n).evPriv → (watched t'.priv n → watched t.priv n) →
      sound t n → sound t' n
  active_sound : ∀ t m n, sound t n → sound (active t m) n
  inactive_sound : ∀ t m n, sound t n → sound (inactive t m) n
  pump_sound : ∀ t a t' n, pump t a t' → sound t n → sound t' n
  active_quiet : ∀ t n, sound t n → ¬ watched (active t n).priv n

namespace Epoll

/-- What is watched has a descriptor and is marked. -/
def Sound (t : Iothread Epoll) (n : ℕ) : Prop :=
  0 ≤ (t.nbio n).fd ∧ ((t.priv.interest n).isSome → (t.nbio n).evPriv ≠ 0)

variable {t t' : Iothread Epoll} {n m : ℕ}

theorem active_sound (h : Sound t n) : Sound (active t m) n := by
  unfold active
  split_ifs
  · exact h
  · exact h
  · by_cases hnm : n = m
    · subst hnm
      refine ⟨?_, fun hsome => ?_⟩
      · simpa using h.1
      · simp at hsome
    · refine ⟨?_, fun hsome => ?_⟩
      · simpa [Iothread.modify_of_ne _ _ hnm] using h.1
      · have hold : (t.priv.interest n).isSome := by simpa [hnm] using hsome
        simpa [Iothread.modify_of_ne _ _ hnm] using h.2 hold

theorem inactive_sound (h : Sound t n) : Sound (inactive t m) n := by
  unfold inactive
  dsimp only
  split_ifs
  · exact h
  · exact h
  · by_cases hnm : n = m
    · subst hnm
      refine ⟨?_, fun _ => ?_⟩
      · rw [Iothread.modify_self]
        exact h.1
      · rw [Iothread.modify_self]
        exact one_ne_zero
    · refine ⟨?_, fun hsome => ?_⟩
      · rw [Iothread.modify_of_ne _ _ hnm]
        exact h.1
      · rw [Iothread.modify_of_ne _ _ hnm]
        exact h.2 (by simpa [hnm] using hsome)

theorem event_sound {ev : ℕ × UInt32} (h : Sound t n) : Sound (event t ev) n := by
  have hsame : ((event t ev).nbio n).fd = (t.nbio n).fd ∧
      ((event t ev).nbio n).evPriv = (t.nbio n).evPriv := by
    unfold event
    rw [Iothread.moveTail_nbio]
    by_cases hn : n = ev.1
    · subst hn
      rw [Iothread.modify_self]
      exact ⟨rfl, rfl⟩
    · rw [Iothread.modify_of_ne _ _ hn]
      exact ⟨rfl, rfl⟩
  refine ⟨?_, fun hsome => ?_⟩
  · rw [hsame.1]
    exact h.1
  · rw [hsame.2]
    exact h.2 hsome

theorem active_quiet (h : Sound t n) : ¬ ((active t n).priv.interest n).isSome := by
  unfold active
  split_ifs with hev hfd
  · exact fun hsome => h.2 hsome hev
  · exact absurd h.1 (not_le.mpr hfd)
  · simp

end Epoll

def epollPlugin : Plugin Epoll (List (ℕ × UInt32)) where
  toBackend := epoll
  closed p n := { p with interest := Function.update p.interest n none }
  closed_watched p n m hm := by
    by_cases hmn : m = n
    · subst hmn
      simp [epoll] at hm
    · exact ⟨by simpa [epoll, hmn] using hm, hmn⟩
  sound := Epoll.Sound
  sound_fresh t n hfd hn := ⟨hfd, fun hsome => absurd hsome hn⟩
  sound_congr t t' n hfd hev hw h := ⟨hfd ▸ h.1, fun hsome => hev ▸ h.2 (hw hsome)⟩
  active_sound t m n := Epoll.active_sound
  inactive_sound t m n := Epoll.inactive_sound
  pump_sound t evs t' n hpump h := by
    obtain ⟨-, -, rfl⟩ := hpump
    induction evs generalizing t with
    | nil => exact h
    | cons ev evs ih => exact ih _ (Epoll.event_sound h)
  active_quiet t n := Epoll.active_quiet

/-- `poll` is asked for those on the inactive list only. -/
def pollPlugin : Plugin PollPriv (Option (ℕ → UInt16)) where
  toBackend := poll
  closed p _ := p
  closed_watched _ _ _ hm := hm.elim
  sound _ _ := True
  sound_fresh _ _ _ _ := trivial
  sound_congr _ _ _ _ _ _ _ := trivial
  active_sound _ _ _ _ := trivial
  inactive_sound _ _ _ _ := trivial
  pump_sound _ _ _ _ _ _ := trivial
  active_quiet _ _ _ hn := hn

namespace Plugin

variable {P A : Type} {b : Plugin P A} {t t' : Iothread P} {s s' : Loop P} {n m : ℕ}

theorem sound_modify {f : Nbio → Nbio} (hfd : ∀ io, (f io).fd = io.fd)
    (hev : ∀ io, (f io).evPriv = io.evPriv) (h : b.sound t n) : b.sound (t.modify m f) n := by
  refine b.sound_congr t _ n ?_ ?_ (fun hw => hw) h
  · by_cases hnm : n = m
    · subst hnm
      rw [Iothread.modify_self, hfd]
    · rw [Iothread.modify_of_ne _ _ hnm]
  · by_cases hnm : n = m
    · subst hnm
      rw [Iothread.modify_self, hev]
    · rw [Iothread.modify_of_ne _ _ hnm]

theorem sound_links {links : Links Addr} (h : b.sound t n) :
    b.sound { t with links := links } n :=
  b.sound_congr t _ n rfl rfl (fun hw => hw) h

theorem doSetWait_sound {wait : UInt8} {o : Option Queue} (h : b.sound t n)
    (ht : t.doSetWait b.toEventloop m wait o = some t') : b.sound t' n := by
  rw [Iothread.doSetWait_eq ht]
  exact sound_links (b.active_sound _ m n (sound_modify (fun _ => rfl) (fun _ => rfl) h))

/-- No call breaks what an `nbio` remembers. -/
theorem call_sound {c : Iothread.Call} (h : b.sound t n)
    (ht : t.call b.toEventloop c = some t') : b.sound t' n := by
  cases c with
  | add m wait =>
    refine doSetWait_sound ?_ ht
    exact sound_modify (fun _ => rfl) (fun _ => rfl) (sound_links h)
  | inactive m mask =>
    obtain rfl := Option.some.inj ht
    have hmod := sound_modify (m := m) (f := fun io => { io with flags := io.flags &&& ~~~mask })
      (fun _ => rfl) (fun _ => rfl) h
    unfold Iothread.nbioInactive
    dsimp only
    split_ifs
    · exact b.inactive_sound _ m n (sound_links hmod)
    · exact hmod
  | setWait m wait => exact doSetWait_sound h ht
  | toWaitq m k => exact doSetWait_sound h ht
  | wake m wait => exact doSetWait_sound h ht
  | del m =>
    obtain rfl := Option.some.inj ht
    exact sound_links (sound_modify (fun _ => rfl) (fun _ => rfl) (b.active_sound t m n h))

/-- A call starts to watch no one else. -/
theorem call_watched {c : Iothread.Call} (ht : t.call b.toEventloop c = some t')
    (hm : b.watched t'.priv m) : m = c.target ∨ b.watched t.priv m := by
  have hset : ∀ {u u' : Iothread P} {k : ℕ} {wait : UInt8} {o : Option Queue},
      u.doSetWait b.toEventloop k wait o = some u' → b.watched u'.priv m → b.watched u.priv m := by
    intro u u' k wait o hu hw
    rw [Iothread.doSetWait_eq hu] at hw
    have hold := b.active_watched _ k m hw
    exact hold
  cases c with
  | add k wait =>
    have hold := hset (show Iothread.doSetWait b.toEventloop _ k wait none = some t' from ht) hm
    exact .inr hold
  | inactive k mask =>
    obtain rfl := Option.some.inj ht
    unfold Iothread.nbioInactive at hm
    dsimp only at hm
    split_ifs at hm
    · have hold := b.inactive_watched _ k m hm
      exact hold
    · exact .inr hm
  | setWait k wait => exact .inr (hset ht hm)
  | toWaitq k q => exact .inr (hset ht hm)
  | wake k wait => exact .inr (hset ht hm)
  | del k =>
    obtain rfl := Option.some.inj ht
    exact .inr (b.active_watched t k m hm)

theorem step_sound (h : b.sound s.t n) (hs : s.step b.toEventloop = some s') :
    b.sound s'.t n := by
  cases Loop.step_coded _ hs with
  | @error m tmp hp =>
    show b.sound (Loop.fail s.t m) n
    unfold Loop.fail
    split_ifs
    · exact sound_links (sound_modify (fun _ => rfl) (fun _ => rfl) h)
    · exact h
  | reap hp => exact sound_links h
  | @activate m tmp hp => exact b.active_sound _ m n (sound_links h)
  | undelete hp => exact sound_links h
  | finish hp => exact sound_links h
  | _ => exact h

theorem step_watched (hs : s.step b.toEventloop = some s') (hm : b.watched s'.t.priv m) :
    b.watched s.t.priv m := by
  cases Loop.step_coded _ hs with
  | @error n tmp hp =>
    have hpriv : (Loop.fail s.t n).priv = s.t.priv := by
      unfold Loop.fail
      split_ifs <;> rfl
    exact hpriv ▸ hm
  | @activate n tmp hp =>
    have hold := b.active_watched _ n m hm
    exact hold
  | _ => exact hm

end Plugin
end Mayhem
