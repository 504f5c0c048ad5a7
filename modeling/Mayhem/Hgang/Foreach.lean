import Mayhem.Hgang.Sound

/-! `hgang_foreach`, which gives the objects of the newest slab to a callback and then those of
the older ones. -/
namespace Mayhem
namespace Hgang

variable {σ : Type} (h : Hgang) (cb : σ → ℕ → σ × Bool)

/-- The loop over the objects of a slab, from `obj` on while they are `inside`. -/
def walk {last : ℕ} (inside : ℕ → Prop) [DecidablePred inside]
    (hlast : ∀ obj, inside obj → obj + h.objSize ≤ last) (obj : ℕ) (s : σ) : σ × Bool :=
  if _ : inside obj then
    match cb s obj with
    | (s, true) => walk inside hlast (obj + h.objSize) s
    | (s, false) => (s, false)
  else (s, true)
termination_by last - obj
decreasing_by
  have := hlast obj ‹_›
  have := h.size
  omega

/-- The loop over the older slabs. -/
def walkSlabs : List ℕ → σ → σ × Bool
  | [], s => (s, true)
  | hdr :: slabs, s =>
    match h.walk cb (h.objInSlab hdr) (fun _ hobj => hobj.2) (firstByte hdr) s with
    | (s, true) => walkSlabs slabs s
    | (s, false) => (s, false)

/-- `hgang_foreach` behind its assertion. -/
def walkAll (hdr : ℕ) (slabs : List ℕ) (s : σ) : σ × Bool :=
  match h.walk cb (fun obj => obj + h.objSize ≤ h.nextObj) (fun _ hobj => hobj) (firstByte hdr) s with
  | (s, true) => h.walkSlabs cb slabs s
  | (s, false) => (s, false)

/-- `hgang_foreach`: none if the assertion fails. -/
def hgangForeach (s : σ) : Option (σ × Bool) :=
  match h.slabs with
  | [] => some (s, true)
  | hdr :: slabs => if h.free ≠ 0 then some (h.walkAll cb hdr slabs s) else none

/-- Call `cb` for one object after the other, until it returns zero. -/
def callAll : List ℕ → σ → σ × Bool
  | [], s => (s, true)
  | obj :: objs, s =>
    match cb s obj with
    | (s, true) => callAll objs s
    | (s, false) => (s, false)

variable {h cb} {hdr n i : ℕ} {s : σ} {slabs l l' : List ℕ}

theorem callAll_append : callAll cb (l ++ l') s =
    match callAll cb l s with
    | (s, true) => callAll cb l' s
    | (s, false) => (s, false) := by
  induction l generalizing s with
  | nil => rfl
  | cons obj l ih =>
    rw [List.cons_append, callAll, callAll]
    rcases cb s obj with ⟨s, _ | _⟩
    · rfl
    · exact ih

theorem callAll_true (hcb : ∀ s obj, (cb s obj).2 = true) :
    callAll cb l s = (l.foldl (fun s obj => (cb s obj).1) s, true) := by
  induction l generalizing s with
  | nil => rfl
  | cons obj l ih =>
    have htrue : cb s obj = ((cb s obj).1, true) := Prod.ext rfl (hcb s obj)
    rw [callAll, htrue, List.foldl_cons]
    exact ih

/-- A loop that ends behind `n` objects. -/
theorem walk_objs {last : ℕ} {inside : ℕ → Prop} [DecidablePred inside]
    {hlast : ∀ obj, inside obj → obj + h.objSize ≤ last}
    (hinside : ∀ i, inside (firstByte hdr + i * h.objSize) ↔ i + 1 ≤ n) :
    h.walk cb inside hlast (firstByte hdr) s = callAll cb (h.objs hdr n) s := by
  suffices hfrom : ∀ k i s, i + k = n →
      h.walk cb inside hlast (firstByte hdr + i * h.objSize) s =
        callAll cb ((List.range' i k).map fun i => firstByte hdr + i * h.objSize) s by
    have := hfrom n 0 s (Nat.zero_add n)
    rwa [Nat.zero_mul, Nat.add_zero, ← List.range_eq_range'] at this
  intro k
  induction k with
  | zero =>
    intro i s hi
    rw [walk, dif_neg (by rw [hinside]; omega)]
    rfl
  | succ k ih =>
    intro i s hi
    rw [walk, dif_pos (by rw [hinside]; omega), List.range'_succ, List.map_cons, callAll,
      Nat.add_assoc, ← Nat.succ_mul]
    rcases cb s _ with ⟨s, _ | _⟩
    · rfl
    · exact ih (i + 1) s (by omega)

theorem walkSlabs_objs (hl : h.Laid) :
    h.walkSlabs cb slabs s = callAll cb (slabs.flatMap fun hdr => h.objs hdr h.capacity) s := by
  induction slabs generalizing s with
  | nil => rfl
  | cons hdr slabs ih =>
    rw [walkSlabs, List.flatMap_cons, callAll_append,
      walk_objs fun i => objInSlab_iff hl.room]
    simp only [ih]

/-- The callback gets the objects that were ever taken out of slabs, each once. -/
theorem walkAll_carved (hl : h.Laid) (hslabs : h.slabs = hdr :: slabs) :
    h.walkAll cb hdr slabs s = callAll cb h.carved s := by
  obtain ⟨n, -, hnext⟩ := hl.next hdr (by rw [hslabs]; rfl)
  have hinside (i : ℕ) : firstByte hdr + i * h.objSize + h.objSize ≤ h.nextObj ↔ i + 1 ≤ n := by
    rw [hnext, Nat.add_assoc, ← Nat.succ_mul, Nat.add_le_add_iff_left]
    exact Nat.mul_le_mul_right_iff objSize_pos
  rw [walkAll, walk_objs hinside, carved, fills_cons hslabs hnext, List.flatMap_cons,
    callAll_append, List.flatMap_map]
  simp only [walkSlabs_objs hl]

end Hgang

/-! ### The objects of a run -/

namespace Heap
open Hgang

variable {w : Heap} {mem : Memory} {hdr : ℕ} {slabs : List ℕ}

/-- Behind the assertion every live object is visited once, and what else is visited is free. -/
theorem Inv.walkAll (hi : Inv w) (hslabs : w.h.slabs = hdr :: slabs) :
    ∃ objs fl, w.mem.Links w.h.free fl ∧ objs.Perm (w.live ++ fl) ∧
      ∀ (σ : Type) (cb : σ → ℕ → σ × Bool) s, w.h.walkAll cb hdr slabs s = callAll cb objs s := by
  obtain ⟨fl, hlinks, hfl⟩ := hi.split
  exact ⟨w.h.carved, fl, hlinks, hfl.symm, fun _ _ _ => walkAll_carved hi.laid hslabs⟩

/-- Without the assertion every live object would be visited once, and nothing else. -/
theorem Inv.walkAll_live (hi : Inv w) (hfree : w.h.free = 0) (hslabs : w.h.slabs = hdr :: slabs) :
    ∃ objs : List ℕ, objs.Perm w.live ∧
      ∀ (σ : Type) (cb : σ → ℕ → σ × Bool) s, (∀ s obj, (cb s obj).2 = true) →
        w.h.walkAll cb hdr slabs s = (objs.foldl (fun s obj => (cb s obj).1) s, true) := by
  obtain ⟨objs, fl, hlinks, hperm, hwalk⟩ := hi.walkAll hslabs
  rw [hfree] at hlinks
  obtain rfl := Memory.links_zero hlinks
  rw [List.append_nil] at hperm
  refine ⟨objs, hperm, fun σ cb s hcb => ?_⟩
  rw [hwalk, callAll_true hcb]

/-- Nothing is returned. -/
def Allocates (w : Heap) (a : Action) : Prop := w.Ok a ∧ ∀ obj, a ≠ .ret obj

/-- With a callback that never stops, `hgang_foreach` visits every live object once and nothing
else, and returns 1. -/
def Complete (w : Heap) : Prop :=
  ∃ objs : List ℕ, objs.Perm w.live ∧
    ∀ (σ : Type) (cb : σ → ℕ → σ × Bool) s, (∀ s obj, (cb s obj).2 = true) →
      w.h.hgangForeach cb s = some (objs.foldl (fun s obj => (cb s obj).1) s, true)

/-- The assertion fails where nothing is free. -/
theorem slabs_of_complete (hc : w.Complete) (hfree : w.h.free = 0) : w.h.slabs = [] := by
  obtain ⟨objs, -, hc⟩ := hc
  have hret := hc Unit (fun _ _ => ((), true)) () fun _ _ => rfl
  unfold hgangForeach at hret
  split at hret
  · assumption
  · rw [if_neg (not_not.mpr hfree)] at hret
    cases hret

/-- Without returns nothing is free, and there are slabs once there are objects. -/
structure Fresh (w : Heap) : Prop where
  free : w.h.free = 0
  slabs : w.h.slabs = [] ↔ w.live = []

theorem Fresh.source {malloc r : Option ℕ} {h' : Hgang} (hf : w.Fresh)
    (hs : Source w.h w.mem malloc r h') :
    h'.free = 0 ∧ (h'.slabs = [] ↔ r.toList ++ w.live = []) := by
  cases hs with
  | free hfree => exact absurd hf.free hfree
  | bump hfree hhdr =>
    obtain ⟨slabs, hslabs⟩ := List.head?_eq_some_iff.mp hhdr
    exact ⟨hfree, by simp [hslabs]⟩
  | slow hfree =>
    cases malloc with
    | none => exact ⟨hfree, hf.slabs⟩
    | some p => exact ⟨hfree, by simp [hgangAllocSlow]⟩

theorem Fresh.step {w' : Heap} {a : Action} (hf : w.Fresh) (hok : w.Allocates a)
    (hs : w.step a = some w') : w'.Fresh := by
  cases step_moves hs with
  | alloc hsource =>
    obtain ⟨hfree, hslabs⟩ := hf.source hsource
    exact ⟨hfree, hslabs⟩
  | alloc0 hsource =>
    obtain ⟨hfree, hslabs⟩ := hf.source hsource
    exact ⟨hfree, hslabs⟩
  | null => exact absurd rfl (hok.2 none)
  | ret obj => exact absurd rfl (hok.2 (some obj))
  | write => exact ⟨hf.free, hf.slabs⟩

theorem hgangNew_fresh {objSize : UInt64} {slabSize : UInt32} {nextObj : ℕ} {h : Hgang}
    (hnew : hgangNew objSize slabSize nextObj = some h) : Fresh { h, mem } := by
  unfold hgangNew at hnew
  by_cases hzero : objSize = 0
  · rw [if_pos hzero] at hnew
    cases hnew
  · rw [if_neg hzero] at hnew
    obtain rfl := Option.some.inj hnew
    exact ⟨rfl, by simp⟩

/-- After allocations alone the iteration is complete only if none of them gave an object. -/
theorem foreach_complete_iff {objSize : UInt64} {slabSize : UInt32} {nextObj : ℕ} {h : Hgang}
    (hnew : hgangNew objSize slabSize nextObj = some h)
    (hrun : Run.Along Allocates step { h, mem } w) : w.Complete ↔ w.live = [] := by
  have hf : w.Fresh :=
    Run.along_invariant (fun _ _ _ hf hok hs => hf.step hok hs) (hgangNew_fresh hnew) hrun
  constructor
  · exact fun hc => hf.slabs.mp (slabs_of_complete hc hf.free)
  · intro hlive
    refine ⟨[], by rw [hlive], fun σ cb s _ => ?_⟩
    rw [hgangForeach, hf.slabs.mpr hlive]
    rfl

theorem foreach_complete_iff_one : ∃ w, Run.Along Allocates step
    { h := ⟨16, 0, 40, [], 0, by decide⟩, mem := fun _ => 0 } w ∧ w.live = [4104] ∧
      ¬ w.Complete := by
  let h : Hgang := ⟨16, 0, 40, [], 0, by decide⟩
  have hrun : Run.Along Allocates step { h, mem := fun _ => 0 } _ :=
    .head ⟨.alloc (some 4096), ⟨by simp [Ok, h], nofun⟩, rfl⟩ .refl
  have hnew : hgangNew 16 2 0 = some h := rfl
  refine ⟨_, hrun, rfl, fun hc => ?_⟩
  exact absurd ((foreach_complete_iff hnew hrun).mp hc) (by decide)

/-- One allocation is enough. -/
theorem foreach_aborts : ¬ ∀ (objSize : UInt64) (slabSize : UInt32) (nextObj : ℕ) (h : Hgang)
    (mem : Memory) (w : Heap), hgangNew objSize slabSize nextObj = some h →
      Run.Along Allocates step { h, mem } w → w.Complete := by
  intro hall
  let h : Hgang := ⟨16, 0, 40, [], 0, by decide⟩
  have hrun : Run.Along Allocates step { h, mem := fun _ => 0 } _ :=
    .head ⟨.alloc (some 4096), ⟨by simp [Ok, h], nofun⟩, rfl⟩ .refl
  exact absurd (slabs_of_complete (hall 16 2 0 h _ _ rfl hrun) rfl) (by decide)

end Heap
end Mayhem
