import Mayhem.Hgang.Alloc

/-! Live objects and the free list of the slab allocator, along all runs. -/
namespace Mayhem.Heap
open Hgang

/-- What the actions do. -/
inductive Moves (w : Heap) : Action → Heap → Prop
  | alloc {malloc r : Option ℕ} {h' : Hgang} (hs : Source w.h w.mem malloc r h') :
      Moves w (.alloc malloc) { w with h := h', live := r.toList ++ w.live }
  | alloc0 {malloc r : Option ℕ} {h' : Hgang} {mem : Memory}
      (hs : Source w.h w.mem malloc r h')
      (hmem : Spares { w with h := h', live := r.toList ++ w.live } mem) :
      Moves w (.alloc0 malloc) { h := h', mem, live := r.toList ++ w.live }
  | null : Moves w (.ret none) w
  | ret (obj : ℕ) : Moves w (.ret (some obj))
      { h := { w.h with free := obj }, mem := w.mem.storePtr obj w.h.free
        live := w.live.erase obj }
  | write (mem : Memory) : Moves w (.write mem) { w with mem }

variable {w w' : Heap} {h' : Hgang} {mem : Memory} {malloc r : Option ℕ} {fl : List ℕ}

/-- `memset` changes the new object only. -/
theorem spares_clear {obj : ℕ} (hs : Source w.h w.mem malloc (some obj) h') :
    Spares { w with h := h', live := obj :: w.live }
      (w.mem.write obj (List.replicate w.h.objSize 0)) := by
  refine fun hdr _ i _ _ hlive => (Memory.write_outside ?_).symm
  have hout : ¬ (obj ≤ i ∧ i < obj + w.h.objSize) := by
    rw [← source_objSize hs]
    exact hlive obj List.mem_cons_self
  rw [List.length_replicate]
  omega

theorem step_moves {a : Action} (hs : w.step a = some w') : Moves w a w' := by
  cases a with
  | alloc malloc =>
    obtain rfl := Option.some.inj hs
    exact .alloc (alloc_source _ _)
  | alloc0 malloc =>
    have hsource := alloc_source (h := w.h) w.mem malloc
    rw [step, hgangAlloc0] at hs
    generalize w.h.hgangAlloc w.mem malloc = r at hsource hs
    obtain ⟨_ | obj, h'⟩ := r
    · obtain rfl := Option.some.inj hs
      exact .alloc0 hsource fun _ _ _ _ _ _ => rfl
    · obtain rfl := Option.some.inj hs
      exact .alloc0 hsource (spares_clear hsource)
  | ret obj =>
    cases obj with
    | none =>
      obtain rfl := Option.some.inj hs
      exact .null
    | some obj =>
      rw [step, hgangReturn, if_pos w.h.size] at hs
      obtain rfl := Option.some.inj hs
      exact .ret obj
  | write mem =>
    obtain rfl := Option.some.inj hs
    exact .write mem

/-- No assertion fails. -/
theorem step_some (w : Heap) (a : Action) : ∃ w', w.step a = some w' := by
  cases a with
  | alloc => exact ⟨_, rfl⟩
  | alloc0 => exact ⟨_, rfl⟩
  | write => exact ⟨_, rfl⟩
  | ret obj =>
    cases obj with
    | none => exact ⟨_, rfl⟩
    | some obj =>
      rw [step, hgangReturn, if_pos w.h.size]
      exact ⟨_, rfl⟩

/-- Every object that was taken out of a slab is either live or on the free list, once. -/
structure Inv (w : Heap) : Prop where
  laid : w.h.Laid
  split : ∃ fl, w.mem.Links w.h.free fl ∧ (w.live ++ fl).Perm w.h.carved

namespace Inv

theorem apart (hi : Inv w) (hfl : (w.live ++ fl).Perm w.h.carved) :
    (w.live ++ fl).Pairwise (Apart w.h.objSize) :=
  (hfl.pairwise_iff Apart.symm).mpr (carved_apart hi.laid)

theorem inSlab {o : ℕ} (hi : Inv w) (hfl : (w.live ++ fl).Perm w.h.carved)
    (ho : o ∈ w.live ++ fl) : ∃ hdr ∈ w.h.slabs, w.h.objInSlab hdr o :=
  carved_mem hi.laid (hfl.subset ho)

/-- Objects are not at NULL and end before the address space does. -/
theorem bounds {o : ℕ} (hi : Inv w) (hfl : (w.live ++ fl).Perm w.h.carved)
    (ho : o ∈ w.live ++ fl) : o ≠ 0 ∧ o < 2 ^ 64 := by
  obtain ⟨hdr, hhdr, hlo, hhi⟩ := hi.inSlab hfl ho
  obtain ⟨-, hend⟩ := hi.laid.slab hdr hhdr
  have hsize := w.h.size
  rw [firstByte, HDR] at hlo
  unfold lastByte at hhi
  omega

/-- The free list lies outside the live objects, so that no write that spares it changes it. -/
theorem links_spared (hi : Inv w) (hlinks : w.mem.Links w.h.free fl)
    (hfl : (w.live ++ fl).Perm w.h.carved) (hmem : w.Spares mem) :
    mem.Links w.h.free fl := by
  refine Memory.links_congr hlinks fun q hq i hlo hhi => ?_
  obtain ⟨hdr, hhdr, hfirst, hlast⟩ := hi.inSlab hfl (List.mem_append_right _ hq)
  have hsize := w.h.size
  unfold firstByte at hfirst
  refine hmem hdr hhdr i (by omega) (by omega) fun o ho hin => ?_
  have hapart := (List.pairwise_append.mp (hi.apart hfl)).2.2 o ho q hq
  unfold Apart at hapart
  omega

/-! ### The actions preserve the invariant -/

theorem write (hi : Inv w) (hmem : w.Spares mem) : Inv { w with mem } := by
  obtain ⟨fl, hlinks, hfl⟩ := hi.split
  exact ⟨hi.laid, fl, hi.links_spared hlinks hfl hmem, hfl⟩

/-- An allocation, without the clearing of `hgang_alloc0`. -/
theorem source (hi : Inv w) (hok : Ok w (.alloc malloc))
    (hs : Source w.h w.mem malloc r h') : Inv { w with h := h', live := r.toList ++ w.live } := by
  obtain ⟨fl, hlinks, hfl⟩ := hi.split
  -- nothing is free when an object comes out of a slab
  have hnone (hfree : w.h.free = 0) : w.live.Perm w.h.carved ∧ w.mem.Links w.h.free [] := by
    rw [hfree] at hlinks
    obtain rfl := Memory.links_zero hlinks
    rw [List.append_nil] at hfl
    rw [hfree]
    exact ⟨hfl, .nil⟩
  cases hs with
  | free hfree =>
    obtain ⟨rest, rfl, hrest⟩ := Memory.links_pop hlinks hfree
    refine ⟨laid_free hi.laid _, rest, hrest, ?_⟩
    rw [carved_free]
    exact List.perm_middle.symm.trans hfl
  | bump hfree hhdr hroom =>
    obtain ⟨hlive, hlinks⟩ := hnone hfree
    obtain ⟨hl, hperm⟩ := laid_bump hi.laid hhdr hroom
    refine ⟨hl, [], hlinks, ?_⟩
    rw [List.append_nil]
    exact (hlive.cons _).trans hperm.symm
  | slow hfree hused =>
    obtain ⟨hlive, hlinks⟩ := hnone hfree
    obtain ⟨hl, hperm⟩ := laid_slow hi.laid hused hok
    refine ⟨hl, [], ?_, ?_⟩
    · cases malloc <;> exact hlinks
    · rw [List.append_nil]
      exact (hlive.append_left _).trans hperm.symm

/-- A live object is apart from all free ones and becomes the first of them. -/
theorem ret {obj : ℕ} (hi : Inv w) (hlive : obj ∈ w.live) :
    Inv { h := { w.h with free := obj }, mem := w.mem.storePtr obj w.h.free
          live := w.live.erase obj } := by
  obtain ⟨fl, hlinks, hfl⟩ := hi.split
  obtain ⟨hobj, -⟩ := hi.bounds hfl (List.mem_append_left _ hlive)
  have hfree : w.h.free < 2 ^ 64 := by
    rcases Memory.links_head hlinks with hfree | hfree
    · rw [hfree]
      decide
    · exact (hi.bounds hfl (List.mem_append_right _ hfree)).2
  have hapart := (List.pairwise_append.mp (hi.apart hfl)).2.2 obj hlive
  have hsize := w.h.size
  refine ⟨laid_free hi.laid _, obj :: fl,
    Memory.links_push hlinks hobj hfree fun q hq => ?_, ?_⟩
  · have := hapart q hq
    unfold Apart at this
    omega
  · rw [carved_free]
    exact (List.perm_middle.trans ((List.perm_cons_erase hlive).symm.append_right _)).trans hfl

theorem step {a : Action} (hi : Inv w) (hok : Ok w a) (hs : w.step a = some w') : Inv w' := by
  cases step_moves hs with
  | alloc hsource => exact hi.source hok hsource
  | alloc0 hsource hmem => exact (hi.source hok hsource).write hmem
  | null => exact hi
  | ret obj => exact hi.ret (hok obj rfl)
  | write => exact hi.write hok

end Inv

/-- A slab has room for an object. -/
theorem slabBytes_room {objSize slabSize : ℕ} (h : 0 < objSize) :
    HDR + objSize ≤ slabBytes objSize slabSize := by
  unfold slabBytes
  split_ifs with hslab hobj
  · exact Nat.add_le_add_left (Nat.le_mul_of_pos_left _ (Nat.pos_of_ne_zero hslab)) _
  · have hdiv := Nat.div_add_mod 8192 objSize
    have hquot : 1 ≤ 8192 / objSize := (Nat.le_div_iff_mul_le h).mpr (by omega)
    have hmul := Nat.mul_le_mul_left objSize hquot
    omega
  · omega

/-- `hgang_new` sets up an empty allocator, if the size of a slab does not overflow. -/
theorem hgangNew_laid {objSize : UInt64} {slabSize : UInt32} {nextObj : ℕ} {h : Hgang}
    (hnew : hgangNew objSize slabSize nextObj = some h)
    (hfit : slabBytes h.objSize slabSize.toNat < 2 ^ 64) : h.Laid ∧ h.free = 0 ∧ h.slabs = [] := by
  unfold hgangNew at hnew
  by_cases hzero : objSize = 0
  · rw [if_pos hzero] at hnew
    cases hnew
  · rw [if_neg hzero] at hnew
    obtain rfl := Option.some.inj hnew
    refine ⟨⟨?_, nofun, .nil, nofun⟩, rfl, rfl⟩
    rw [Nat.mod_eq_of_lt hfit]
    exact slabBytes_room objSize_pos

/-- What the callers rely on: objects are handed out once and come back once. -/
structure Sound (w : Heap) : Prop where
  inSlab : ∀ o ∈ w.live, ∃ hdr ∈ w.h.slabs, w.h.objInSlab hdr o
  apart : w.live.Pairwise (Apart w.h.objSize)
  free : ∃ fl, w.mem.Links w.h.free fl ∧ fl.Nodup ∧ ∀ o ∈ w.live, o ∉ fl

theorem Apart.ne {n p q : ℕ} (hn : 0 < n) (h : Apart n p q) : p ≠ q := by
  rintro rfl
  rcases h with h | h <;> omega

theorem Inv.sound (hi : Inv w) : w.Sound := by
  obtain ⟨fl, hlinks, hfl⟩ := hi.split
  have hapart := hi.apart hfl
  obtain ⟨hlive, hfree, hacross⟩ := List.pairwise_append.mp hapart
  refine ⟨fun o ho => hi.inSlab hfl (List.mem_append_left _ ho), hlive, fl, hlinks, ?_, ?_⟩
  · exact hfree.imp (Apart.ne objSize_pos)
  · exact fun o ho hmem => Apart.ne objSize_pos (hacross o ho o hmem) rfl

/-- A new slab is the last resort. -/
theorem Inv.source_slabs (hi : Inv w) (hs : Source w.h w.mem malloc r h')
    (hne : h'.slabs ≠ w.h.slabs) : w.mem.Links w.h.free [] ∧
      ∀ hdr ∈ w.h.slabs.head?, w.h.lastByte hdr < w.h.nextObj + w.h.objSize := by
  cases hs with
  | free => exact absurd rfl hne
  | bump => exact absurd rfl hne
  | slow hfree hused =>
    refine ⟨by rw [hfree]; exact .nil, fun hdr hhdr => ?_⟩
    obtain ⟨n, -, hnext⟩ := hi.laid.next hdr hhdr
    have hfull := hused hdr hhdr
    unfold objInSlab at hfull
    omega

theorem Inv.step_slabs {a : Action} (hi : Inv w) (hs : w.step a = some w')
    (hne : w'.h.slabs ≠ w.h.slabs) : w.mem.Links w.h.free [] ∧
      ∀ hdr ∈ w.h.slabs.head?, w.h.lastByte hdr < w.h.nextObj + w.h.objSize := by
  cases step_moves hs with
  | alloc hsource => exact hi.source_slabs hsource hne
  | alloc0 hsource => exact hi.source_slabs hsource hne
  | null => exact absurd rfl hne
  | ret => exact absurd rfl hne
  | write => exact absurd rfl hne

/-- Along every run objects lie in slabs and do not overlap, nothing live is free, and a slab is
added only if nothing is free and the newest slab is full. -/
theorem hgang_sound {objSize : UInt64} {slabSize : UInt32} {nextObj : ℕ} {h : Hgang}
    (hnew : hgangNew objSize slabSize nextObj = some h)
    (hfit : slabBytes h.objSize slabSize.toNat < 2 ^ 64)
    (hrun : Run.Along Ok step { h, mem } w) :
    w.Sound ∧ ∀ a, w.Ok a → ∃ w', w.step a = some w' ∧ (w'.h.slabs ≠ w.h.slabs →
      w.mem.Links w.h.free [] ∧
        ∀ hdr ∈ w.h.slabs.head?, w.h.lastByte hdr < w.h.nextObj + w.h.objSize) := by
  obtain ⟨hlaid, hfree, hslabs⟩ := hgangNew_laid hnew hfit
  have hcarved : h.carved = [] := by rw [carved, fills, hslabs]; rfl
  have hempty : Inv { h, mem } := by
    refine ⟨hlaid, [], ?_, ?_⟩
    · rw [hfree]
      exact .nil
    · rw [hcarved]
      exact .refl _
  have hi : w.Inv := Run.along_invariant (fun _ _ _ hi hok hs => hi.step hok hs) hempty hrun
  refine ⟨hi.sound, fun a _ => ?_⟩
  obtain ⟨w', hs⟩ := step_some w a
  exact ⟨w', hs, hi.step_slabs hs⟩

/-- Three objects, of which the second is returned and handed out again. -/
theorem hgang_sound_run : ∃ w, Run.Along Ok step
    { h := ⟨16, 0, 40, [], 0, by decide⟩, mem := fun _ => 0 } w ∧
      w.live = [4120, 8200, 4104] ∧ w.h.slabs = [8192, 4096] ∧ w.Sound := by
  let h : Hgang := ⟨16, 0, 40, [], 0, by decide⟩
  have hrun : Run.Along Ok step { h, mem := fun _ => 0 } _ :=
    .head ⟨.alloc (some 4096), by simp [Ok, h], rfl⟩ <|
    .head ⟨.alloc0 none, nofun, rfl⟩ <|
    .head ⟨.alloc (some 8192), by simp [Ok, h, Apart], rfl⟩ <|
    .head ⟨.ret (some 4120), by simp [Ok, h, HDR], rfl⟩ <|
    .head ⟨.alloc none, nofun, rfl⟩ .refl
  have hnew : hgangNew 16 2 0 = some h := rfl
  exact ⟨_, hrun, rfl, rfl, (hgang_sound hnew (by decide) hrun).1⟩

end Mayhem.Heap
