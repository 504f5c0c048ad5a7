import Mayhem.Nbio.Drain
import Mayhem.Rtmp.Lifetime

/-! The order in which a connection is closed, reset and taken off its lists: as long as the
owner keeps to what `rtmp_close` is fit for, the record is freed once, at the right time. -/
namespace Mayhem

open Iothread (Somewhere)
open Links (moved removed)

variable {P A : Type}

/-- The same plugin, with `r` held to be on a list or by itself. -/
def Backend.also (b : Backend P A) (on : Bool) (r : ℕ) : Backend P A :=
  { b with
    watched := fun p n => b.watched p n ∨ on = true ∧ n = r
    inactive_watched := fun t n m hm => by
      rcases hm with hm | hm
      · exact (b.inactive_watched t n m hm).imp_right .inl
      · exact .inr (.inr hm)
    active_watched := fun t n m hm => hm.imp_left (b.active_watched t n m)
    pump_reports := fun t a t' lists hl ht => by
      obtain ⟨evs, hevs, hag, hw⟩ := b.pump_reports t a t' lists hl ht
      exact ⟨evs, fun ev hev => (hevs ev hev).imp_left .inl, hag,
        fun m hm => hm.imp_left (hw m)⟩ }

namespace Loop

variable {b : Backend P A} {s s' : Loop P} {lists : Queue → List Addr} {r : ℕ} {q : Queue}

theorem PcFits.congr {t t' : Iothread P} {pc : Pc} (h : PcFits t lists pc)
    (ht : t'.links = t.links) : PcFits t' lists pc := by
  unfold PcFits Front at *
  rw [ht]
  exact h

/-- What the code goes on with is on some list. -/
theorem Wired.known (h : s.Wired b lists) {a : Addr} (ha : a ∈ s.pc.addrs) : Known lists a := by
  have hl := h.wired.toListed
  have hpc := h.pc
  have hfront : ∀ q pos tmp, Front s.t lists q pos tmp → a = pos ∨ a = tmp → Known lists a := by
    rintro q pos tmp ⟨rfl, rfl⟩ ha
    have hpos : Known lists ((lists q).headD (.head q)) := by
      rcases List.mem_cons.mp (Links.headD_mem (.head q) (lists q)) with hh | hmem
      · exact .inl ⟨q, hh⟩
      · exact .inr ⟨q, hmem⟩
    rcases ha with rfl | rfl
    · exact hpos
    · exact hpos.next hl
  have hboth : ∀ n tmp, Somewhere lists n ∧ Known lists tmp → a = .nbio n ∨ a = tmp →
      Known lists a := by
    rintro n tmp ⟨hn, htmp⟩ (rfl | rfl)
    · exact .inr hn
    · exact htmp
  cases hp : s.pc with
  | idle => simp [hp, Pc.addrs] at ha
  | outer => simp [hp, Pc.addrs] at ha
  | poll => simp [hp, Pc.addrs] at ha
  | done => simp [hp, Pc.addrs] at ha
  | test pos tmp =>
    rw [hp] at ha hpc
    rcases List.mem_pair.mp ha with rfl | rfl
    · exact hpc.1
    · exact hpc.2
  | check n tmp => rw [hp] at ha hpc; exact hboth n tmp hpc (List.mem_pair.mp ha)
  | write n tmp => rw [hp] at ha hpc; exact hboth n tmp hpc (List.mem_pair.mp ha)
  | inWrite n tmp => rw [hp] at ha hpc; exact hboth n tmp hpc (List.mem_pair.mp ha)
  | read n tmp => rw [hp] at ha hpc; exact hboth n tmp hpc (List.mem_pair.mp ha)
  | inRead n tmp => rw [hp] at ha hpc; exact hboth n tmp hpc (List.mem_pair.mp ha)
  | error n tmp => rw [hp] at ha hpc; exact hboth n tmp hpc (List.mem_pair.mp ha)
  | reap pos tmp => rw [hp] at ha hpc; exact hfront _ pos tmp hpc (List.mem_pair.mp ha)
  | finiInactive pos tmp => rw [hp] at ha hpc; exact hfront _ pos tmp hpc (List.mem_pair.mp ha)
  | finiDeleted pos tmp => rw [hp] at ha hpc; exact hfront _ pos tmp hpc (List.mem_pair.mp ha)
  | finiActive pos tmp => rw [hp] at ha hpc; exact hfront _ pos tmp hpc (List.mem_pair.mp ha)

theorem Wired.addrs (h : s.Wired b lists) (hn : ¬ Somewhere lists r) : .nbio r ∉ s.pc.addrs :=
  fun ha => hn (h.known ha).somewhere

/-- Where what has not been reset may be, so that `nbio_fini` finds it. -/
def LiveAt : Pc → Queue → Prop
  | .finiDeleted _ _, q => q = .deleted ∨ q = .active
  | .finiActive _ _, q => q = .active
  | .done, _ => False
  | _, q => ∀ k, q ≠ .waitq k

/-- A loop that is through with a list has emptied it. -/
theorem Front.empty {t : Iothread P} {tmp : Addr} (hl : t.Listed lists)
    (h : Front t lists q (.head q) tmp) : lists q = [] := by
  cases hq : lists q with
  | nil => rfl
  | cons a rest =>
    obtain ⟨n, rfl⟩ := hl.nbios q a (by simp [hq])
    have hpos := h.1
    rw [hq] at hpos
    cases hpos

theorem moved_self (lists : Queue → List Addr) (r : ℕ) (q : Queue) :
    .nbio r ∈ moved lists (.nbio r) q q := Links.mem_moved.mpr (.inr ⟨rfl, rfl⟩)

theorem moved_of_ne {n : ℕ} (hr : .nbio r ∈ lists q) (hrn : r ≠ n) (q' : Queue) :
    .nbio r ∈ moved lists (.nbio n) q' q := Links.mem_moved.mpr (.inl ⟨hr, by simpa using hrn⟩)

theorem moved_place {P : Queue → Prop} {n : ℕ} {q' : Queue} (hr : .nbio r ∈ lists q)
    (hself : r = n → P q') (hother : r ≠ n → P q) :
    ∃ q'', P q'' ∧ .nbio r ∈ moved lists (.nbio n) q' q'' := by
  by_cases hrn : r = n
  · subst hrn
    exact ⟨q', hself rfl, moved_self lists r q'⟩
  · exact ⟨q, hother hrn, moved_of_ne hr hrn q'⟩

theorem removed_place {P : Queue → Prop} {n : ℕ} (hr : .nbio r ∈ lists q) (hrn : r ≠ n)
    (hq : P q) : ∃ q'', P q'' ∧ .nbio r ∈ removed lists (.nbio n) q'' :=
  ⟨q, hq, Links.mem_removed.mpr ⟨hr, by simpa using hrn⟩⟩

/-- A step of the code destroys `r`, or leaves it where it may be. -/
theorem step_place (h : s.Wired b lists) (hs : s.step b.toEventloop = some s')
    (hr : .nbio r ∈ lists q) (hd : s.pc.destroys ≠ some r) :
    (LiveAt s.pc q → ∃ q', LiveAt s'.pc q' ∧ .nbio r ∈ s.after lists q') ∧
      (Lifetime.DueAt s.pc q → ∃ q', Lifetime.DueAt s'.pc q' ∧ .nbio r ∈ s.after lists q') := by
  have hl := h.wired.toListed
  have hpc := h.pc
  -- where the lists do not change, only the places that are allowed may
  have hstay : ∀ {pc : Pc}, s.after lists = lists → (LiveAt s.pc q → LiveAt pc q) →
      (Lifetime.DueAt s.pc q → Lifetime.DueAt pc q) →
      (LiveAt s.pc q → ∃ q', LiveAt pc q' ∧ .nbio r ∈ s.after lists q') ∧
        (Lifetime.DueAt s.pc q → ∃ q', Lifetime.DueAt pc q' ∧ .nbio r ∈ s.after lists q') := by
    intro pc hafter hlive hdue
    rw [hafter]
    exact ⟨fun hq => ⟨q, hlive hq, hr⟩, fun hq => ⟨q, hdue hq, hr⟩⟩
  have hempty : ∀ {q'}, lists q' = [] → q ≠ q' := by
    rintro q' hq' rfl
    rw [hq'] at hr
    cases hr
  cases step_coded _ hs with
  | none hp => exact hstay (by simp [after, hp]) (by rw [hp]; exact id) (by rw [hp]; exact id)
  | first hp => exact hstay (by simp [after, hp]) (by rw [hp]; exact id) (by rw [hp]; exact id)
  | around hp => exact hstay (by simp [after, hp]) (by rw [hp]; exact id) (by rw [hp]; exact id)
  | gone hp => exact hstay (by simp [after, hp]) (by rw [hp]; exact id) (by rw [hp]; exact id)
  | visit hp => exact hstay (by simp [after, hp]) (by rw [hp]; exact id) (by rw [hp]; exact id)
  | asserted hp => exact hstay (by simp [after, hp]) (by rw [hp]; exact id) (by rw [hp]; exact id)
  | write hp => exact hstay (by simp [after, hp]) (by rw [hp]; exact id) (by rw [hp]; exact id)
  | noWrite hp => exact hstay (by simp [after, hp]) (by rw [hp]; exact id) (by rw [hp]; exact id)
  | read hp => exact hstay (by simp [after, hp]) (by rw [hp]; exact id) (by rw [hp]; exact id)
  | noRead hp => exact hstay (by simp [after, hp]) (by rw [hp]; exact id) (by rw [hp]; exact id)
  | @error n tmp hp =>
    simp only [after, hp]
    split_ifs with herr
    · exact ⟨fun hq => moved_place hr (fun _ => by simp [LiveAt]) fun _ => hq,
        fun hq => moved_place hr (fun _ => rfl) fun _ => hq⟩
    · exact ⟨fun hq => ⟨q, hq, hr⟩, fun hq => ⟨q, hq, hr⟩⟩
  | reaped hp =>
    rw [hp] at hpc
    have hq := hempty (hpc.empty hl)
    apply hstay (by simp [after, hp]) (by rw [hp]; exact id)
    rw [hp]
    exact fun hdue => absurd hdue hq
  | @reap n tmp hp =>
    simp only [after, hp]
    have hrn : r ≠ n := by
      rintro rfl
      exact hd (by rw [hp]; rfl)
    exact ⟨removed_place hr hrn, removed_place hr hrn⟩
  | noPoll hp =>
    apply hstay (by simp [after, hp]) (by rw [hp]; exact id)
    rw [hp]
    exact False.elim
  | allActive hp =>
    rw [hp] at hpc
    have hq := hempty (hpc.empty hl)
    refine hstay (by simp [after, hp]) ?_ ?_
    · rw [hp]
      intro hlive
      cases q with
      | active => exact .inr rfl
      | inactive => exact absurd rfl hq
      | deleted => exact .inl rfl
      | waitq k => exact absurd rfl (hlive k)
    · rw [hp]
      exact .inl
  | @activate n tmp hp =>
    rw [hp] at hpc
    obtain ⟨rest, hfront, -⟩ := hpc.cons hl
    simp only [after, hp]
    refine ⟨fun hq => moved_place hr (fun _ => by simp [LiveAt]) fun _ => hq,
      fun hdue => moved_place hr (fun hrn => ?_) fun _ => hdue⟩
    have hin : q = .inactive := hl.rings.unique hr (by simp [hfront, hrn])
    exact absurd (hdue.symm.trans hin) (by simp)
  | noneDeleted hp =>
    rw [hp] at hpc
    have hq := hempty (hpc.empty hl)
    refine hstay (by simp [after, hp]) ?_ ?_
    · rw [hp]
      exact fun hlive => hlive.resolve_left hq
    · rw [hp]
      exact fun hdue => hdue.resolve_left hq
  | @undelete n tmp hp =>
    simp only [after, hp]
    exact ⟨fun hq => moved_place hr (fun _ => .inr rfl) fun _ => hq,
      fun hq => moved_place hr (fun _ => .inr rfl) fun _ => hq⟩
  | finished hp =>
    rw [hp] at hpc
    have hq := hempty (hpc.empty hl)
    refine hstay (by simp [after, hp]) ?_ ?_
    · rw [hp]
      exact hq
    · rw [hp]
      exact hq
  | @finish n tmp hp =>
    simp only [after, hp]
    have hrn : r ≠ n := by
      rintro rfl
      exact hd (by rw [hp]; rfl)
    exact ⟨removed_place hr hrn, removed_place hr hrn⟩

/-- What is on no list stays off them. -/
theorem step_nowhere (h : s.Wired b lists) (hs : s.step b.toEventloop = some s')
    (hr : ¬ Somewhere lists r) : ¬ Somewhere (s.after lists) r := by
  have haddrs := h.addrs hr
  rintro ⟨q, hq⟩
  have hold : ∀ n, r ≠ n → ∀ q', .nbio r ∈ moved lists (.nbio n) q' q → False := by
    intro n hrn q' hmem
    rcases Links.mem_moved.mp hmem with ⟨hmem, -⟩ | ⟨he, -⟩
    · exact hr ⟨q, hmem⟩
    · exact hrn (Addr.nbio.inj he)
  cases step_coded _ hs with
  | @error n tmp hp =>
    rw [hp] at haddrs
    simp only [after, hp] at hq
    split_ifs at hq
    · exact hold n (fun he => haddrs (by simp [Pc.addrs, he])) _ hq
    · exact hr ⟨q, hq⟩
  | reap hp =>
    simp only [after, hp] at hq
    exact hr ⟨q, (Links.mem_removed.mp hq).1⟩
  | @activate n tmp hp =>
    rw [hp] at haddrs
    simp only [after, hp] at hq
    exact hold n (fun he => haddrs (by simp [Pc.addrs, he])) _ hq
  | @undelete n tmp hp =>
    rw [hp] at haddrs
    simp only [after, hp] at hq
    exact hold n (fun he => haddrs (by simp [Pc.addrs, he])) _ hq
  | finish hp =>
    simp only [after, hp] at hq
    exact hr ⟨q, (Links.mem_removed.mp hq).1⟩
  | _ hp =>
    simp only [after, hp] at hq
    exact hr ⟨q, hq⟩

/-- A destructor is called for what has just been taken off all lists. -/
theorem step_destroys (h : s.Wired b lists) (hd : s.pc.destroys = some r) :
    Somewhere lists r ∧ s.after lists = removed lists (.nbio r) := by
  have hl := h.wired.toListed
  have hpc := h.pc
  unfold Pc.destroys at hd
  split at hd
  case h_1 n tmp hp =>
    obtain rfl := Option.some.inj hd
    rw [hp] at hpc
    obtain ⟨rest, hq, -⟩ := hpc.cons hl
    exact ⟨⟨.deleted, by simp [hq]⟩, by simp only [after, hp]⟩
  case h_2 n tmp hp =>
    obtain rfl := Option.some.inj hd
    rw [hp] at hpc
    obtain ⟨rest, hq, -⟩ := hpc.cons hl
    exact ⟨⟨.active, by simp [hq]⟩, by simp only [after, hp]⟩
  case h_3 => cases hd

end Loop

namespace Lifetime

variable {b : Plugin P A} {w w' : Lifetime P} {lists : Queue → List Addr} {r : ℕ}

/-- Before `nbio_add` nothing has happened to the connection. -/
structure Fresh (b : Plugin P A) (r : ℕ) (w : Lifetime P) (lists : Queue → List Addr) : Prop where
  nowhere : ¬ Somewhere lists r
  unwatched : ¬ b.watched w.loop.t.priv r
  state : w.state ≠ .abort
  killed : w.killed = false
  connReset : w.connReset = false
  pending : w.pending = 0
  frees : w.frees = 0

structure Kept (b : Plugin P A) (r : ℕ) (w : Lifetime P) (lists : Queue → List Addr) : Prop where
  wired : w.loop.Wired (b.toBackend.also w.added r) lists
  user : w.pending ≠ 0 → w.loop.pc.User
  connected : w.added = true → w.connected = true
  fresh : w.added = false → w.Fresh b r lists
  sound : w.added = true → w.frees = 0 → b.sound w.loop.t r
  live : w.added = true → w.connReset = false → ∃ q, Loop.LiveAt w.loop.pc q ∧ .nbio r ∈ lists q
  due : w.killed = true → w.frees = 0 →
    (∃ q, DueAt w.loop.pc q ∧ .nbio r ∈ lists q) ∧ ¬ b.watched w.loop.t.priv r
  freed : w.frees ≠ 0 → w.frees = 1 ∧ w.killed = true ∧ w.pending = 0 ∧ ¬ Somewhere lists r ∧
    ¬ b.watched w.loop.t.priv r
  clean : w.touched = false ∧ w.strayDel = false

theorem Kept.managed (h : w.Kept b r lists) : w.Managed r := by
  have hl := h.wired.wired.toListed
  have hreaped : w.killed = true → w.loop.pc = .poll ∨ w.loop.pc = .done → w.frees = 1 := by
    intro hkilled hpc
    by_cases hfrees : w.frees = 0
    · obtain ⟨⟨q, hq, -⟩, -⟩ := h.due hkilled hfrees
      rcases hpc with hpc | hpc
      · rw [hpc] at hq
        exact hq.elim
      · rw [hpc] at hq
        exact hq.elim
    · exact (h.freed hfrees).1
  refine ⟨h.clean.1, h.clean.2, ?_, fun hfrees => ?_, fun hkilled hfrees => ?_, hreaped⟩
  · by_cases hfrees : w.frees = 0
    · omega
    · exact (h.freed hfrees).1.le
  · obtain ⟨-, hkilled, hpending, hoff, -⟩ := h.freed hfrees
    exact ⟨hkilled, fun q hq => hoff ⟨q, hl.on_iff.mp hq⟩, hpending, h.wired.addrs hoff⟩
  · obtain ⟨⟨q, hq, hmem⟩, -⟩ := h.due hkilled hfrees
    exact ⟨q, hq, hl.on_iff.mpr hmem⟩

theorem touch_of_unfreed (hfrees : w.frees = 0) : w.touch = w := by
  have hnot : decide (0 < w.frees) = false := decide_eq_false (by omega)
  rw [touch, hnot, Bool.or_false]

theorem Kept.tied (h : w.Kept b r lists) (hadded : w.added = true) :
    w.loop.t.links.Tied .head lists (.nbio r) := h.wired.wired.tied r (.inr ⟨hadded, rfl⟩)

/-- While code of `rtmp.c` runs on the connection or its owner may still use it, it has not
been freed. -/
theorem Kept.unfreed (h : w.Kept b r lists) (hg : w.killed = false ∨ w.Running r) :
    w.frees = 0 := by
  by_contra hfrees
  obtain ⟨-, hkilled, hpending, hoff, -⟩ := h.freed hfrees
  have haddrs := h.wired.addrs hoff
  rcases hg with hg | hg | ⟨tmp, hg | hg⟩
  · rw [hkilled] at hg
    cases hg
  · exact hg hpending
  · exact haddrs (by simp [hg, Pc.addrs])
  · exact haddrs (by simp [hg, Pc.addrs])

/-- What follows from a step in which nothing happens to the connection itself. -/
theorem Kept.aside {s : Loop P} {lists' : Queue → List Addr} (h : w.Kept b r lists)
    (hw : s.Wired (b.toBackend.also w.added r) lists') (huser : w.pending ≠ 0 → s.pc.User)
    (hwatched : b.watched s.t.priv r → b.watched w.loop.t.priv r)
    (hsound : b.sound w.loop.t r → b.sound s.t r)
    (hnowhere : ¬ Somewhere lists r → ¬ b.watched w.loop.t.priv r → ¬ Somewhere lists' r)
    (hlive : ∀ q, Loop.LiveAt w.loop.pc q → .nbio r ∈ lists q →
      ∃ q', Loop.LiveAt s.pc q' ∧ .nbio r ∈ lists' q')
    (hdue : ∀ q, DueAt w.loop.pc q → .nbio r ∈ lists q →
      ∃ q', DueAt s.pc q' ∧ .nbio r ∈ lists' q') :
    ({ w with loop := s } : Lifetime P).Kept b r lists' where
  wired := hw
  user := huser
  connected := h.connected
  fresh hadded :=
    let hf := h.fresh hadded
    ⟨hnowhere hf.nowhere hf.unwatched, fun hr => hf.unwatched (hwatched hr), hf.state, hf.killed,
      hf.connReset, hf.pending, hf.frees⟩
  sound hadded hfrees := hsound (h.sound hadded hfrees)
  live hadded hreset := by
    obtain ⟨q, hq, hmem⟩ := h.live hadded hreset
    exact hlive q hq hmem
  due hkilled hfrees := by
    obtain ⟨⟨q, hq, hmem⟩, hunwatched⟩ := h.due hkilled hfrees
    exact ⟨hdue q hq hmem, fun hr => hunwatched (hwatched hr)⟩
  freed hfrees := by
    obtain ⟨hone, hkilled, hpending, hoff, hunwatched⟩ := h.freed hfrees
    exact ⟨hone, hkilled, hpending, hnowhere hoff hunwatched, fun hr => hunwatched (hwatched hr)⟩
  clean := h.clean

/-- The descriptor is closed, and the record freed. -/
theorem dtor_kept (hw : w.loop.Wired (b.toBackend.also w.added r) lists)
    (hconnected : w.connected = true) (hclean : w.touched = false ∧ w.strayDel = false)
    (hfrees : w.frees = 0) (hkilled : w.killed = true) (hadded : w.added = true)
    (hreset : w.connReset = true) (hpending : w.pending = 0) (hoff : ¬ Somewhere lists r) :
    (w.rtmpDtor b r).Kept b r lists := by
  have hunwatched : ¬ b.watched (b.closed w.loop.t.priv r) r := fun hr =>
    (b.closed_watched _ _ _ hr).2 rfl
  unfold rtmpDtor
  rw [touch_of_unfreed hfrees]
  dsimp only
  rw [hfrees]
  refine ⟨⟨⟨⟨hw.wired.rings, hw.wired.nbios⟩, fun n hn => ?_⟩, hw.registered, hw.pc.congr rfl⟩,
    fun hp => absurd hpending hp, fun _ => hconnected, ?_, fun _ hf => absurd hf one_ne_zero, ?_,
    fun _ hf => absurd hf one_ne_zero, fun _ => ⟨rfl, hkilled, hpending, hoff, hunwatched⟩, hclean⟩
  · exact hw.wired.tied n (hn.imp_left fun hn => (b.closed_watched _ _ _ hn).1)
  · exact fun hf => absurd hadded (Bool.eq_false_iff.mp hf)
  · exact fun _ hf => absurd hreset (Bool.eq_false_iff.mp hf)

/-- The links and flags of the `nbio` after `nbio_del`. -/
theorem Kept.deleted (h : w.Kept b r lists) (hadded : w.added = true) (hfrees : w.frees = 0)
    (huser : w.loop.pc.User) :
    ({ w.loop with t := w.loop.t.nbioDel b.toEventloop r } : Loop P).Wired
        (b.toBackend.also w.added r) (moved lists (.nbio r) .deleted) ∧
      b.sound (w.loop.t.nbioDel b.toEventloop r) r ∧
        ¬ b.watched (w.loop.t.nbioDel b.toEventloop r).priv r := by
  have hsound := h.sound hadded hfrees
  have hnext := Iothread.nbioDel_next h.wired.wired (h.tied hadded)
  refine ⟨h.wired.moved hnext.wired _ (h.wired.pc.call huser hnext.moved), ?_, ?_⟩
  · exact Plugin.call_sound (c := .del r) hsound rfl
  · exact b.active_quiet w.loop.t r hsound

theorem user_live {pc : Pc} {q : Queue} (huser : pc.User) (hq : ∀ k, q ≠ .waitq k) :
    Loop.LiveAt pc q := by
  cases pc with
  | idle => exact hq
  | inWrite n tmp => exact hq
  | inRead n tmp => exact hq
  | _ => exact huser.elim

theorem user_due {pc : Pc} (huser : pc.User) : DueAt pc .deleted := by
  cases pc with
  | idle => rfl
  | inWrite n tmp => rfl
  | inRead n tmp => rfl
  | _ => exact huser.elim

theorem Kept.resetEnd (h : w.Kept b r lists) (hp : w.pending ≠ 0) (huser : w.loop.pc.User) :
    (w.resetEnd b r).Kept b r (moved lists (.nbio r) .deleted) := by
  have hfrees := h.unfreed (.inr (.inl hp))
  have hadded : w.added = true := by
    by_contra hadded
    exact hp (h.fresh (by simpa using hadded)).pending
  obtain ⟨hwired, hsound, hunwatched⟩ := h.deleted hadded hfrees huser
  unfold Lifetime.resetEnd nbioDel
  rw [touch_of_unfreed hfrees]
  dsimp only
  rw [touch_of_unfreed (by exact hfrees)]
  refine ⟨hwired, fun _ => huser, h.connected, ?_, fun _ _ => hsound, ?_, fun _ _ => ?_,
    fun hf => absurd hfrees hf, ?_⟩
  · exact fun hf => absurd hadded (Bool.eq_false_iff.mp hf)
  · exact fun _ hf => Bool.noConfusion hf
  · exact ⟨⟨.deleted, user_due huser, Loop.moved_self lists r .deleted⟩, hunwatched⟩
  · exact ⟨h.clean.1, by simp [h.clean.2, hadded]⟩

theorem Kept.close (h : w.Kept b r lists) (hkilled : w.killed = false)
    (huser : w.loop.pc.User ∨ w.loop.pc = .done) (hproper : w.Proper (A := A) r .close) :
    ∃ lists', (w.rtmpClose b r).Kept b r lists' := by
  have hfrees := h.unfreed (.inl hkilled)
  obtain ⟨hadded, hclose⟩ := hproper
  unfold rtmpClose
  rw [touch_of_unfreed hfrees]
  dsimp only
  split_ifs with hreset
  · obtain ⟨hpending, hoff⟩ := hclose hreset
    have hnowhere : ¬ Somewhere lists r := fun ⟨q, hq⟩ =>
      hoff q (h.wired.wired.toListed.on_iff.mpr hq)
    exact ⟨lists, dtor_kept h.wired (h.connected hadded) h.clean hfrees rfl hadded hreset hpending
      hnowhere⟩
  · have hlive := h.live hadded (by simpa using hreset)
    -- `nbio_fini` would have called the destructor
    have huser : w.loop.pc.User := by
      rcases huser with huser | hdone
      · exact huser
      · obtain ⟨q, hq, -⟩ := hlive
        rw [hdone] at hq
        exact hq.elim
    obtain ⟨hwired, hsound, hunwatched⟩ := h.deleted hadded hfrees huser
    refine ⟨moved lists (.nbio r) .deleted, ?_⟩
    unfold nbioDel
    rw [touch_of_unfreed (by exact hfrees)]
    refine ⟨hwired, h.user, h.connected, ?_, fun _ _ => hsound, fun _ _ => ?_, fun _ _ => ?_,
      fun hf => absurd hfrees hf, h.clean.1, ?_⟩
    · exact fun hf => absurd hadded (Bool.eq_false_iff.mp hf)
    · exact ⟨.deleted, user_live huser (by simp), Loop.moved_self lists r .deleted⟩
    · exact ⟨⟨.deleted, user_due huser, Loop.moved_self lists r .deleted⟩, hunwatched⟩
    · simp [h.clean.2, hadded]

theorem Kept.resetBegin (h : w.Kept b r lists) (huser : w.loop.pc.User)
    (hg : w.killed = false ∨ w.Running r) (hadded : w.added = true) (state : ConnState) :
    (w.resetBegin state).Kept b r lists := by
  have hfrees := h.unfreed hg
  unfold Lifetime.resetBegin
  rw [touch_of_unfreed hfrees]
  refine ⟨h.wired, fun _ => huser, h.connected, fun hf => ?_, h.sound, h.live, h.due,
    fun hf => absurd hfrees hf, h.clean⟩
  exact absurd hadded (Bool.eq_false_iff.mp hf)

/-- A call that moves the `nbio` of a connection that is open. -/
theorem Kept.moves {t : Iothread P} {q : Queue} (h : w.Kept b r lists)
    (huser : w.loop.pc.User) (hadded : w.added = true) (hkilled : w.killed = false)
    (ht : t.Wired (b.toBackend.also w.added r) (moved lists (.nbio r) q)) (hq : ∀ k, q ≠ .waitq k)
    (hsound : b.sound t r) : (w.touch.onThread t).Kept b r (moved lists (.nbio r) q) := by
  have hfrees := h.unfreed (.inl hkilled)
  rw [touch_of_unfreed hfrees]
  refine ⟨h.wired.moved ht _ (h.wired.pc.call huser (.inr ⟨q, rfl⟩)), h.user, h.connected,
    fun hf => ?_, fun _ _ => hsound, fun _ _ => ⟨q, user_live huser hq, Loop.moved_self lists r q⟩,
    fun hf => ?_, fun hf => absurd hfrees hf, h.clean⟩
  · exact absurd hadded (Bool.eq_false_iff.mp hf)
  · exact absurd hf (Bool.eq_false_iff.mp hkilled)

theorem Kept.inactive (h : w.Kept b r lists) (huser : w.loop.pc.User) (hadded : w.added = true)
    (hkilled : w.killed = false) (mask : UInt8) : ∃ lists',
      (w.touch.onThread (w.loop.t.nbioInactive b.toEventloop r mask)).Kept b r lists' := by
  have hfrees := h.unfreed (.inl hkilled)
  have hsound := Plugin.call_sound (c := .inactive r mask) (h.sound hadded hfrees) rfl
  have htied := h.tied hadded
  have hmod := h.wired.wired.modify (n := r) fun io => { io with flags := io.flags &&& ~~~mask }
  unfold Iothread.nbioInactive at hsound ⊢
  dsimp only at hsound ⊢
  split_ifs at hsound ⊢
  · have hin := (hmod.moveTail htied .inactive).inactive
      (.inl ⟨.inactive, Loop.moved_self lists r .inactive⟩)
    exact ⟨_, h.moves huser hadded hkilled hin (by simp) hsound⟩
  · refine ⟨lists, ?_⟩
    rw [touch_of_unfreed hfrees]
    exact h.aside ⟨hmod, h.wired.registered, h.wired.pc.congr rfl⟩ h.user (fun hr => hr)
      (fun _ => hsound) (fun hr _ => hr) (fun q hq hr => ⟨q, hq, hr⟩) fun q hq hr => ⟨q, hq, hr⟩

theorem Kept.setWait (h : w.Kept b r lists) (huser : w.loop.pc.User) (hadded : w.added = true)
    (hkilled : w.killed = false) {wait : UInt8} {t : Iothread P}
    (ht : w.loop.t.nbioSetWait b.toEventloop r wait = some t) :
    ∃ lists', (w.touch.onThread t).Kept b r lists' := by
  have hfrees := h.unfreed (.inl hkilled)
  have hsound := Plugin.call_sound (c := .setWait r wait) (h.sound hadded hfrees) ht
  have hwired := Iothread.doSetWait_wired h.wired.wired (h.tied hadded) ht
  refine ⟨_, h.moves huser hadded hkilled hwired (fun k => ?_) hsound⟩
  split_ifs <;> simp

theorem Kept.connCb {fd : ℤ} (h : w.Kept b r lists) (huser : w.loop.pc.User)
    (hconnected : w.connected = false) (hfd : 0 ≤ fd) (hw' : w.connCb b r fd = some w') :
    ∃ lists', w'.Kept b r lists' := by
  have hadded : w.added = false := by
    by_contra hadded
    rw [h.connected (by simpa using hadded)] at hconnected
    cases hconnected
  have hf := h.fresh hadded
  unfold Lifetime.connCb at hw'
  rw [touch_of_unfreed hf.frees] at hw'
  dsimp only at hw'
  rw [if_neg hf.state] at hw'
  obtain ⟨t, ht, hw'⟩ := Option.bind_eq_some_iff.mp hw'
  obtain rfl := Option.some.inj hw'
  have hmod := h.wired.wired.modify (n := r) fun io => { io with fd := fd }
  have hwired := Iothread.nbioAdd_wired hmod hf.nowhere ht
  have hfresh := b.sound_fresh (w.loop.t.modify r fun io => { io with fd := fd }) r
    (by simpa using hfd) hf.unwatched
  have hsound := Plugin.call_sound (c := .add r NBIO_WRITE) hfresh ht
  rw [if_neg (by decide)] at hwired
  have hmoved : Iothread.Moved r lists (moved lists (.nbio r) .active) := .inr ⟨_, rfl⟩
  refine ⟨moved lists (.nbio r) .active, ⟨⟨hwired.toListed, fun m hm => ?_⟩,
    fun m hm => hmoved.somewhere (h.wired.registered m hm), h.wired.pc.call huser hmoved⟩,
    fun hp => absurd hf.pending hp, fun _ => rfl, fun hf => Bool.noConfusion hf,
    fun _ _ => hsound, fun _ _ => ?_, fun hk => ?_, fun hfr => absurd hf.frees hfr, h.clean⟩
  · rcases hm with hm | ⟨-, rfl⟩
    · exact hwired.tied m (.inl hm)
    · exact .inl ⟨.active, Loop.moved_self lists m .active⟩
  · exact ⟨.active, user_live huser (by simp), Loop.moved_self lists r .active⟩
  · exact absurd hk (Bool.eq_false_iff.mp hf.killed)

theorem Kept.code {s : Loop P} (h : w.Kept b r lists) (hp : w.pending = 0)
    (hs : w.loop.step b.toEventloop = some s) : (w.code b r s).Kept b r (w.loop.after lists) := by
  have hw := Loop.step_wired (b := b.toBackend.also w.added r) h.wired hs
  have hsome : Somewhere lists r → w.added = true ∧ w.frees = 0 := by
    intro hr
    constructor
    · by_contra hadded
      exact (h.fresh (by simpa using hadded)).nowhere hr
    · by_contra hfrees
      exact (h.freed hfrees).2.2.2.1 hr
  have htouch : (if .nbio r ∈ w.loop.pc.addrs then w.touch else w) = w := by
    split_ifs with ha
    · exact touch_of_unfreed (hsome (h.wired.known ha).somewhere).2
    · rfl
  unfold Lifetime.code
  rw [htouch]
  dsimp only
  split_ifs with hd
  · obtain ⟨hr, hafter⟩ := Loop.step_destroys h.wired hd
    obtain ⟨hadded, hfrees⟩ := hsome hr
    have hoff : ¬ Somewhere (w.loop.after lists) r := by
      rw [hafter]
      rintro ⟨q, hq⟩
      exact (Links.mem_removed.mp hq).2 rfl
    unfold iopDtor
    rw [touch_of_unfreed (by exact hfrees)]
    dsimp only
    split_ifs with hkilled
    · exact dtor_kept hw (h.connected hadded) h.clean hfrees hkilled hadded rfl hp hoff
    · refine ⟨hw, fun hne => absurd hp hne, h.connected,
        fun hf => absurd hadded (Bool.eq_false_iff.mp hf),
        fun _ _ => Plugin.step_sound (h.sound hadded hfrees) hs, fun _ hf => Bool.noConfusion hf,
        fun hf => absurd hf hkilled, fun hf => absurd hfrees hf, h.clean⟩
  · exact h.aside hw (fun hne => absurd hp hne) (Plugin.step_watched hs)
      (fun hsound => Plugin.step_sound hsound hs)
      (fun hr _ => Loop.step_nowhere h.wired hs hr)
      (fun q hq hr => (Loop.step_place h.wired hs hr hd).1 hq)
      fun q hq hr => (Loop.step_place h.wired hs hr hd).2 hq

theorem Kept.inner {ev : Loop.Event A} {s : Loop P} (h : w.Kept b r lists) (hev : Inner r ev)
    (hproper : w.Proper r (.loop ev)) (hs : Loop.Takes b.toEventloop w.loop ev s) :
    ∃ lists', ({ w with loop := s } : Lifetime P).Kept b r lists' := by
  cases hs with
  | @call c t huser hc ht =>
    have hfit := h.wired.fit hc fun n wait he => by
      subst he
      exact fun ⟨q, hq⟩ => hproper q (h.wired.wired.toListed.on_iff.mpr hq)
    obtain ⟨lists', hnext, hw⟩ := Loop.call_wired h.wired huser hfit ht
    have hsame : ∀ q, .nbio r ∈ lists' q ↔ .nbio r ∈ lists q := fun q =>
      hnext.moved.mem_iff (Ne.symm hev)
    refine ⟨lists', h.aside hw h.user (fun hr => ?_) (fun hsound => Plugin.call_sound hsound ht)
      (fun hr _ ⟨q, hq⟩ => hr ⟨q, (hsame q).mp hq⟩) (fun q hq hr => ⟨q, hq, (hsame q).mpr hr⟩)
      fun q hq hr => ⟨q, hq, (hsame q).mpr hr⟩⟩
    exact (Plugin.call_watched ht hr).resolve_left (Ne.symm hev)
  | @assign n fd huser =>
    have hw : ({ w.loop with t := w.loop.t.modify n fun io => { io with fd := fd } } : Loop P).Wired
        (b.toBackend.also w.added r) lists :=
      ⟨h.wired.wired.modify fun io => { io with fd := fd }, h.wired.registered,
        h.wired.pc.congr rfl⟩
    have hsame := Iothread.modify_of_ne w.loop.t (fun io => { io with fd := fd }) (Ne.symm hev)
    exact ⟨lists, h.aside hw h.user (fun hr => hr)
      (b.sound_congr _ _ r (congrArg Nbio.fd hsame) (congrArg Nbio.evPriv hsame) fun hr => hr)
      (fun hr _ => hr) (fun q hq hr => ⟨q, hq, hr⟩) fun q hq hr => ⟨q, hq, hr⟩⟩
  | _ => exact hev.elim

/-- The code goes on elsewhere, and leaves the thread alone. -/
theorem Kept.goto (h : w.Kept b r lists) (hp : w.pending = 0) {pc : Pc}
    (hpc : Loop.PcFits w.loop.t lists pc)
    (hlive : ∀ q, Loop.LiveAt w.loop.pc q → Loop.LiveAt pc q)
    (hdue : ∀ q, DueAt w.loop.pc q → DueAt pc q) :
    ({ w with loop := w.loop.goto pc } : Lifetime P).Kept b r lists :=
  h.aside (h.wired.goto hpc) (fun hne => absurd hp hne) (fun hr => hr) (fun hsound => hsound)
    (fun hr _ => hr) (fun q hq hr => ⟨q, hlive q hq, hr⟩) fun q hq hr => ⟨q, hdue q hq, hr⟩

theorem Kept.outer {ev : Loop.Event A} {s : Loop P} (h : w.Kept b r lists) (hp : w.pending = 0)
    (hev : Outer ev) (hs : Loop.Takes b.toEventloop w.loop ev s) :
    ∃ lists', ({ w with loop := s } : Lifetime P).Kept b r lists' := by
  have hpc := h.wired.pc
  cases hs with
  | written hpc' =>
    rw [hpc'] at hpc
    exact ⟨lists, h.goto hp hpc (by rw [hpc']; exact fun _ => id) (by rw [hpc']; exact fun _ => id)⟩
  | read hpc' =>
    rw [hpc'] at hpc
    exact ⟨lists, h.goto hp hpc (by rw [hpc']; exact fun _ => id) (by rw [hpc']; exact fun _ => id)⟩
  | pump hpc' =>
    exact ⟨lists, h.goto hp trivial (by rw [hpc']; exact fun _ => id)
      (by rw [hpc']; exact fun _ => id)⟩
  | fini hpc' =>
    exact ⟨lists, h.goto hp (Loop.Front.start h.wired.wired.toListed _)
      (by rw [hpc']; exact fun _ => id) (by rw [hpc']; exact fun _ => id)⟩
  | @poll a t hpc' hne hpump =>
    obtain ⟨evs, -, -, hw⟩ := Loop.poll_wired (b := b.toBackend.also w.added r) h.wired hpump
    have hl := h.wired.wired.toListed
    refine ⟨_, h.aside hw (fun hne => absurd hp hne) ?_ (b.pump_sound _ a t r hpump) ?_ ?_ ?_⟩
    · obtain ⟨-, -, -, hwatched⟩ := b.pump_reports _ a t lists hl hpump
      exact hwatched r
    · -- what the plugin reports is watched or on the inactive list
      intro hr hunwatched
      have hplain : w.loop.t.Wired b.toBackend lists :=
        ⟨hl, fun n hn => h.wired.wired.tied n (.inl hn)⟩
      obtain ⟨evs', hevs', -, hw'⟩ := Iothread.pump_next hplain hpump
      rintro ⟨q, hq⟩
      have hq' := hw'.toListed.on_iff.mp (hw.wired.toListed.on_iff.mpr hq)
      rcases (Iothread.mem_reported evs').mp hq' with ⟨-, hold⟩ | ⟨⟨ev, hev, rfl⟩, -⟩
      · exact hr ⟨q, hold⟩
      · exact (hevs' ev hev).elim hunwatched fun hin => hr ⟨.inactive, hin⟩
    · rw [hpc']
      rintro q hq hr
      by_cases hhit : ∃ ev ∈ evs, ev.1 = r
      · exact ⟨.active, by simp [Loop.LiveAt], (Iothread.mem_reported evs).mpr (.inr ⟨hhit, rfl⟩)⟩
      · push Not at hhit
        exact ⟨q, hq, (Iothread.mem_reported evs).mpr (.inl ⟨hhit, hr⟩)⟩
    · rw [hpc']
      exact fun q hq => hq.elim
  | _ => exact hev.elim

theorem takes_kept {ev : Event A} (h : w.Kept b r lists) (hproper : w.Proper r ev)
    (hs : w.Takes b r ev w') : ∃ lists', w'.Kept b r lists' := by
  cases hs with
  | code hp hstep => exact ⟨_, h.code hp hstep⟩
  | inner hev hs => exact h.inner hev hproper hs
  | outer hp hev hs => exact h.outer hp hev hs
  | connCb huser hconnected hfd hw' => exact h.connCb huser hconnected hfd hw'
  | inactive huser hg => exact h.inactive huser hproper.1 hproper.2 _
  | setWait huser hg ht => exact h.setWait huser hproper.1 hproper.2 ht
  | resetBegin _ huser hg => exact ⟨lists, h.resetBegin huser hg hproper _⟩
  | resetEnd hp huser => exact ⟨_, h.resetEnd hp huser⟩
  | close huser hkilled => exact h.close hkilled huser hproper

/-! The loops that take a list apart come to an end. -/

/-- A step of the code has been taken as often as it takes. -/
abbrev Codes (b : Plugin P A) (r : ℕ) : Lifetime P → Lifetime P → Prop :=
  Relation.ReflTransGen fun w w' => w.Takes b r (.loop .code) w'

theorem code_loop (w : Lifetime P) (s : Loop P) : (w.code b r s).loop.pc = s.pc ∧
    (w.code b r s).killed = w.killed := by
  unfold code iopDtor rtmpDtor
  dsimp only
  split_ifs <;> exact ⟨rfl, rfl⟩

theorem hosts (b : Plugin P A) (r : ℕ) (k : Bool) : Loop.Hosts b.toEventloop Lifetime.loop
    (fun w lists => w.Kept b r lists ∧ w.killed = k) fun w w' => w.Takes b r (.loop .code) w' where
  listed h := h.1.wired.wired.toListed
  fits h := h.1.wired.pc
  step := by
    intro w lists s' h huser hs
    have hp : w.pending = 0 := by
      by_contra hne
      exact huser (h.1.user hne)
    obtain ⟨hpc, hkilled⟩ := code_loop (b := b) (r := r) w s'
    exact ⟨_, .code hp hs, hpc, h.1.code hp hs, hkilled.trans h.2⟩

/-- `rtmp_connect` has been called, and the thread has just been initialised. -/
def start (links : Links Addr) (nbio : ℕ → Nbio) (priv : P) : Lifetime P where
  loop := { t := .nbioInit links nbio priv }

/-- In every run whose steps meet the condition a connection is freed once, after `rtmp_close`,
with nothing leading to it, and both a pass over the deleted list and `nbio_fini` end with what
has been closed freed. -/
theorem destruction {links : Links Addr} {nbio : ℕ → Nbio} {priv : P}
    (hpriv : ∀ n, ¬ b.watched priv n)
    (hrun : Relation.ReflTransGen (fun w w' => ∃ ev, w.Proper r ev ∧ w.Takes b r ev w')
      (start links nbio priv) w) :
    w.Managed r ∧
    (∀ pos tmp, w.loop.pc = .reap pos tmp → ∃ w', Codes b r w w' ∧ w'.loop.pc = .poll ∧
      (w.killed = true → w'.frees = 1)) ∧
    ∀ pos tmp, w.loop.pc = .finiInactive pos tmp → ∃ w', Codes b r w w' ∧ w'.loop.pc = .done ∧
      (w.killed = true → w'.frees = 1) := by
  have hkept : ∃ lists, w.Kept b r lists := by
    induction hrun with
    | refl =>
      have hw := Iothread.nbioInit_wired (b := b.toBackend.also false r) links nbio
        fun n hn => hn.elim (hpriv n) fun h => Bool.noConfusion h.1
      refine ⟨fun _ => [], ⟨hw, fun n hn => Bool.noConfusion hn, trivial⟩, fun hp => absurd rfl hp,
        fun h => Bool.noConfusion h, fun _ => ⟨?_, hpriv r, by simp [start], rfl, rfl, rfl, rfl⟩,
        fun h => Bool.noConfusion h, fun h => Bool.noConfusion h, fun h => Bool.noConfusion h,
        fun h => absurd rfl h, rfl, rfl⟩
      exact fun ⟨q, hq⟩ => absurd hq List.not_mem_nil
    | tail _ hstep ih =>
      obtain ⟨ev, hproper, htakes⟩ := hstep
      obtain ⟨lists, h⟩ := ih
      exact takes_kept h hproper htakes
  obtain ⟨lists, h⟩ := hkept
  refine ⟨h.managed, fun pos tmp hpc => ?_, fun pos tmp hpc => ?_⟩
  · obtain ⟨w', lists', hcodes, ⟨hkept, hkilled⟩, hend⟩ := (hosts b r w.killed).reaps ⟨h, rfl⟩ hpc
    exact ⟨w', hcodes, hend, fun hk => hkept.managed.reaped (hkilled.trans hk) (.inl hend)⟩
  · obtain ⟨w', lists', hcodes, ⟨hkept, hkilled⟩, hend⟩ :=
      (hosts b r w.killed).finishes ⟨h, rfl⟩ hpc
    exact ⟨w', hcodes, hend, fun hk => hkept.managed.reaped (hkilled.trans hk) (.inr hend)⟩

/-- What is asked of `rtmp_close` cannot be dropped. -/
theorem close_managed_iff (h : w.Kept b r lists) (hkilled : w.killed = false)
    (huser : w.loop.pc.User ∨ w.loop.pc = .done) :
    (w.rtmpClose b r).Managed r ↔ w.Proper (A := A) r .close := by
  constructor
  · intro hm
    have hfrees := h.unfreed (.inl hkilled)
    unfold rtmpClose at hm
    rw [touch_of_unfreed hfrees] at hm
    dsimp only at hm
    split_ifs at hm with hreset
    · have hadded : w.added = true := by
        by_contra hadded
        have hf := h.fresh (by simpa using hadded)
        rw [hf.connReset] at hreset
        cases hreset
      obtain ⟨-, hoff, hpending, -⟩ := hm.freed (Nat.succ_ne_zero _)
      exact ⟨hadded, fun _ => ⟨hpending, hoff⟩⟩
    · refine ⟨?_, fun hr => absurd hr hreset⟩
      have hstray : (w.strayDel || !w.added) = false := hm.strayDel
      rw [h.clean.2, Bool.false_or] at hstray
      simpa using hstray
  · intro hproper
    obtain ⟨lists', hkept⟩ := h.close hkilled huser hproper
    exact hkept.managed

/-- A connection of its own thread. -/
def alone : Lifetime PollPriv := start ⟨id, id⟩ (fun _ => {}) {}

/-- It is closed once it is there, and the pass over the deleted list has begun. -/
theorem destruction_closed : ∃ w : Lifetime PollPriv, w.killed = true ∧
    w.loop.pc = .reap (.nbio 0) (.head .deleted) ∧ w.Managed 0 ∧
      ∃ w', Codes pollPlugin 0 w w' ∧ w'.loop.pc = .poll ∧ w'.frees = 1 := by
  have hconn := Relation.ReflTransGen.single
    (r := fun w w' => ∃ ev, w.Proper 0 ev ∧ w.Takes pollPlugin 0 ev w') (a := alone)
    ⟨.connCb 3, trivial, .connCb trivial rfl (by decide) rfl⟩
  have hclose := hconn.tail ⟨.close, ⟨rfl, fun h => Bool.noConfusion h⟩, .close (.inl trivial) rfl⟩
  have hpump := hclose.tail ⟨.loop .pump, trivial, .outer rfl trivial (.pump rfl)⟩
  have hreap := hpump.tail ⟨.loop .code, trivial, .code rfl rfl⟩
  obtain ⟨hmanaged, hends, -⟩ := destruction (fun n hn => hn) hreap
  obtain ⟨w', hcodes, hpoll, hfrees⟩ := hends (.nbio 0) (.head .deleted) rfl
  exact ⟨_, rfl, rfl, hmanaged, w', hcodes, hpoll, hfrees rfl⟩

/-- It is closed behind a reset, and freed on the deleted list. -/
theorem unmanaged_late : ¬ ∀ w : Lifetime PollPriv,
    Relation.ReflTransGen (fun w w' => ∃ ev, w.Takes pollPlugin 0 ev w') alone w →
      w.Managed 0 := by
  intro hall
  have hconn := Relation.ReflTransGen.single
    (r := fun w w' => ∃ ev, w.Takes pollPlugin 0 ev w') (a := alone)
    ⟨.connCb 3, .connCb trivial rfl (by decide) rfl⟩
  have hbegin := hconn.tail ⟨.resetBegin .abort, .resetBegin (.inl rfl) trivial (.inl rfl)⟩
  have hend := hbegin.tail ⟨.resetEnd, .resetEnd one_ne_zero trivial⟩
  have hclose := hend.tail ⟨.close, .close (.inl trivial) rfl⟩
  obtain ⟨-, hoff, -⟩ := (hall _ hclose).freed one_ne_zero
  exact hoff .deleted ⟨1, rfl⟩

end Lifetime
end Mayhem
