import Mathlib.Data.List.Perm.Basic
import Mathlib.Tactic.SplitIfs
import Mayhem.Lib.Links
import Mayhem.Lib.Run

/-! The slab allocator `hgang.c`. Addresses are numbers that do not wrap around. -/
namespace Mayhem

/-- Two blocks of `n` bytes have no byte in common. -/
def Apart (n p q : ℕ) : Prop := p + n ≤ q ∨ q + n ≤ p

theorem Apart.symm {n p q : ℕ} (h : Apart n p q) : Apart n q p := Or.symm h

/-- `struct _hgang`: the headers of the slabs are in a list, the free objects are linked in
memory. Objects have room for a pointer. -/
structure Hgang where
  objSize : ℕ
  nextObj : ℕ
  slabSize : ℕ
  slabs : List ℕ := []
  free : ℕ := 0
  size : 8 ≤ objSize

namespace Hgang

/-- `sizeof(struct _hgang_hdr)`. -/
def HDR : ℕ := 8

variable (h : Hgang)

def firstByte (hdr : ℕ) : ℕ := hdr + HDR

def lastByte (hdr : ℕ) : ℕ := hdr + h.slabSize

def objInSlab (hdr obj : ℕ) : Prop := firstByte hdr ≤ obj ∧ obj + h.objSize ≤ h.lastByte hdr

instance (hdr obj : ℕ) : Decidable (h.objInSlab hdr obj) := inferInstanceAs (Decidable (_ ∧ _))

/-- What `slab_size` is set to, if it does not overflow. -/
def slabBytes (objSize slabSize : ℕ) : ℕ :=
  if slabSize ≠ 0 then HDR + slabSize * objSize
  else if objSize < 8192 then HDR + (8192 - 8192 % objSize)
  else HDR + 4 * objSize

/-- `hgang_new`: `next_obj` is not set. -/
def hgangNew (objSize : UInt64) (slabSize : UInt32) (nextObj : ℕ) : Option Hgang :=
  if objSize = 0 then none
  else
    let objSize := if objSize.toNat < 8 then 8 else objSize.toNat
    some { objSize, nextObj, slabSize := slabBytes objSize slabSize.toNat % 2 ^ 64
           size := by grind }

/-- `hgang_alloc_slow`, with what `malloc` returns. -/
def hgangAllocSlow (malloc : Option ℕ) : Option ℕ × Hgang :=
  match malloc with
  | none => (none, h)
  | some hdr =>
    let ret := hdr + HDR
    (some ret, { h with nextObj := ret + h.objSize, slabs := hdr :: h.slabs })

/-- `hgang_alloc`: the object, or NULL. -/
def hgangAlloc (mem : Memory) (malloc : Option ℕ) : Option ℕ × Hgang :=
  if h.free ≠ 0 then (some h.free, { h with free := mem.loadPtr h.free })
  else
    match h.slabs with
    | [] => h.hgangAllocSlow malloc
    | hdr :: _ =>
      let ret := h.nextObj
      if h.objInSlab hdr ret then (some ret, { h with nextObj := h.nextObj + h.objSize })
      else h.hgangAllocSlow malloc

/-- `hgang_return`: none if the assertion fails. -/
def hgangReturn (mem : Memory) (obj : Option ℕ) : Option (Hgang × Memory) :=
  match obj with
  | none => some (h, mem)
  | some obj =>
    if 8 ≤ h.objSize then some ({ h with free := obj }, mem.storePtr obj h.free) else none

/-- `hgang_alloc0`. -/
def hgangAlloc0 (mem : Memory) (malloc : Option ℕ) : Option ℕ × Hgang × Memory :=
  let (ret, h') := h.hgangAlloc mem malloc
  match ret with
  | none => (ret, h', mem)
  | some obj => (ret, h', mem.write obj (List.replicate h.objSize 0))

end Hgang

/-- An allocator, the memory, and the objects that have been handed out and not returned. -/
structure Heap where
  h : Hgang
  mem : Memory
  live : List ℕ := []

namespace Heap

/-- A call of the allocator, with what `malloc` returns if it is called, or a change of the
memory. -/
inductive Action
  | alloc (malloc : Option ℕ)
  | alloc0 (malloc : Option ℕ)
  | ret (obj : Option ℕ)
  | write (mem : Memory)

def step (w : Heap) : Action → Option Heap
  | .alloc malloc =>
    let (ret, h) := w.h.hgangAlloc w.mem malloc
    some { w with h, live := ret.toList ++ w.live }
  | .alloc0 malloc =>
    let (ret, h, mem) := w.h.hgangAlloc0 w.mem malloc
    some { h, mem, live := ret.toList ++ w.live }
  | .ret obj => do
    let (h, mem) ← w.h.hgangReturn w.mem obj
    return { h, mem, live := obj.elim w.live w.live.erase }
  | .write mem => some { w with mem }

/-- Of the bytes of the slabs only those of live objects differ. -/
def Spares (w : Heap) (mem : Memory) : Prop :=
  ∀ hdr ∈ w.h.slabs, ∀ i, hdr ≤ i → i < w.h.lastByte hdr →
    (∀ o ∈ w.live, ¬ (o ≤ i ∧ i < o + w.h.objSize)) → w.mem i = mem i

/-- `malloc` returns fresh blocks, only live objects are returned, and nobody writes into the
slabs but into live objects. -/
def Ok (w : Heap) : Action → Prop
  | .alloc malloc | .alloc0 malloc => ∀ p ∈ malloc, p ≠ 0 ∧ p + w.h.slabSize ≤ 2 ^ 64 ∧
      ∀ q ∈ w.h.slabs, Apart w.h.slabSize p q
  | .ret obj => ∀ o ∈ obj, o ∈ w.live
  | .write mem => w.Spares mem

end Heap
namespace Hgang

/-! ### The layout of slabs -/

variable (h : Hgang)

/-- How many objects a slab has room for. -/
def capacity : ℕ := (h.slabSize - HDR) / h.objSize

/-- The first `n` objects of a slab. -/
def objs (hdr n : ℕ) : List ℕ := (List.range n).map fun i => firstByte hdr + i * h.objSize

/-- How many objects have been taken out of each slab: of all but the newest all of them. -/
def fills : List (ℕ × ℕ) :=
  match h.slabs with
  | [] => []
  | hdr :: slabs =>
    (hdr, (h.nextObj - firstByte hdr) / h.objSize) :: slabs.map fun hdr => (hdr, h.capacity)

/-- The objects that have been taken out of slabs. -/
def carved : List ℕ := h.fills.flatMap fun f => h.objs f.1 f.2

structure Laid (h : Hgang) : Prop where
  room : HDR + h.objSize ≤ h.slabSize
  next : ∀ hdr ∈ h.slabs.head?, ∃ n ≤ h.capacity, h.nextObj = firstByte hdr + n * h.objSize
  apart : h.slabs.Pairwise (Apart h.slabSize)
  slab : ∀ hdr ∈ h.slabs, hdr ≠ 0 ∧ hdr + h.slabSize ≤ 2 ^ 64

variable {h} {hdr n o : ℕ}

theorem objSize_pos : 0 < h.objSize := Nat.lt_of_lt_of_le (by decide) h.size

theorem objs_mem (hroom : HDR + h.objSize ≤ h.slabSize) (hn : n ≤ h.capacity)
    (ho : o ∈ h.objs hdr n) : h.objInSlab hdr o := by
  obtain ⟨i, hi, rfl⟩ := List.mem_map.mp ho
  have hi : i + 1 ≤ h.capacity := Nat.le_trans (List.mem_range.mp hi) hn
  have hfit := (Nat.le_div_iff_mul_le objSize_pos).mp hi
  rw [Nat.succ_mul] at hfit
  refine ⟨Nat.le_add_right _ _, ?_⟩
  rw [firstByte, lastByte]
  omega

theorem objs_apart (hdr n : ℕ) : (h.objs hdr n).Pairwise (Apart h.objSize) := by
  refine List.pairwise_map.mpr (List.pairwise_lt_range.imp fun {i j} hij => .inl ?_)
  have hmul : (i + 1) * h.objSize ≤ j * h.objSize := Nat.mul_le_mul_right _ hij
  rw [Nat.succ_mul] at hmul
  omega

theorem fills_cons {slabs : List ℕ} (hslabs : h.slabs = hdr :: slabs)
    (hnext : h.nextObj = firstByte hdr + n * h.objSize) :
    h.fills = (hdr, n) :: slabs.map fun hdr => (hdr, h.capacity) := by
  rw [fills, hslabs]
  simp only
  rw [hnext, Nat.add_sub_cancel_left, Nat.mul_div_cancel _ objSize_pos]

theorem fills_map_fst : h.fills.map Prod.fst = h.slabs := by
  unfold fills
  split
  · rename_i hslabs
    rw [hslabs]
    rfl
  · rename_i hslabs
    rw [hslabs, List.map_cons, List.map_map]
    exact congrArg _ (List.map_id'' (fun _ => rfl) _)

theorem fills_le (hl : h.Laid) : ∀ f ∈ h.fills, f.2 ≤ h.capacity := by
  cases hslabs : h.slabs with
  | nil =>
    rw [fills, hslabs]
    exact nofun
  | cons hdr slabs =>
    obtain ⟨n, hn, hnext⟩ := hl.next hdr (by rw [hslabs]; rfl)
    rw [fills_cons hslabs hnext]
    refine List.forall_mem_cons.mpr ⟨hn, fun f hf => ?_⟩
    obtain ⟨_, -, rfl⟩ := List.mem_map.mp hf
    exact Nat.le_refl _

theorem carved_mem (hl : h.Laid) (ho : o ∈ h.carved) : ∃ hdr ∈ h.slabs, h.objInSlab hdr o := by
  obtain ⟨f, hf, ho⟩ := List.mem_flatMap.mp ho
  refine ⟨f.1, ?_, objs_mem hl.room (fills_le hl f hf) ho⟩
  rw [← fills_map_fst]
  exact List.mem_map_of_mem hf

theorem carved_apart (hl : h.Laid) : h.carved.Pairwise (Apart h.objSize) := by
  refine List.pairwise_flatMap.mpr ⟨fun f _ => objs_apart f.1 f.2, ?_⟩
  have hslabs := hl.apart
  rw [← fills_map_fst, List.pairwise_map] at hslabs
  refine hslabs.imp_of_mem fun {f g} hf hg hfg x hx y hy => ?_
  obtain ⟨hx₁, hx₂⟩ := objs_mem hl.room (fills_le hl f hf) hx
  obtain ⟨hy₁, hy₂⟩ := objs_mem hl.room (fills_le hl g hg) hy
  unfold firstByte at hx₁ hy₁
  unfold lastByte at hx₂ hy₂
  exact hfg.imp (fun h => by omega) fun h => by omega

/-- The free list has no part in the layout. -/
theorem laid_free (hl : h.Laid) (p : ℕ) : Laid { h with free := p } :=
  ⟨hl.room, hl.next, hl.apart, hl.slab⟩

theorem carved_free (h : Hgang) (p : ℕ) : carved { h with free := p } = h.carved := rfl

/-! ### What an allocation does -/

/-- The three sources of an object. -/
inductive Source (h : Hgang) (mem : Memory) (malloc : Option ℕ) : Option ℕ → Hgang → Prop
  | free (hfree : h.free ≠ 0) :
      Source h mem malloc (some h.free) { h with free := mem.loadPtr h.free }
  | bump {hdr : ℕ} (hfree : h.free = 0) (hhdr : h.slabs.head? = some hdr)
      (hroom : h.objInSlab hdr h.nextObj) :
      Source h mem malloc (some h.nextObj) { h with nextObj := h.nextObj + h.objSize }
  | slow (hfree : h.free = 0) (hused : ∀ hdr ∈ h.slabs.head?, ¬ h.objInSlab hdr h.nextObj) :
      Source h mem malloc (h.hgangAllocSlow malloc).1 (h.hgangAllocSlow malloc).2

theorem alloc_source (mem : Memory) (malloc : Option ℕ) :
    Source h mem malloc (h.hgangAlloc mem malloc).1 (h.hgangAlloc mem malloc).2 := by
  unfold hgangAlloc
  split_ifs with hfree
  · exact .free hfree
  · have hfree := not_not.mp hfree
    split
    · rename_i hslabs
      exact .slow hfree (by rw [hslabs]; exact nofun)
    · rename_i hdr slabs hslabs
      have hhead : h.slabs.head? = some hdr := by rw [hslabs]; rfl
      by_cases hroom : h.objInSlab hdr h.nextObj
      · simp only [if_pos hroom]
        exact .bump hfree hhead hroom
      · simp only [if_neg hroom]
        refine .slow hfree fun hdr' hhdr' => ?_
        obtain rfl := Option.some.inj (hhead.symm.trans hhdr')
        exact hroom

theorem source_objSize {mem : Memory} {malloc ret : Option ℕ} {h' : Hgang}
    (hs : Source h mem malloc ret h') : h'.objSize = h.objSize := by
  cases hs with
  | free => rfl
  | bump => rfl
  | slow => cases malloc <;> rfl

/-- There is room behind the objects of a slab exactly if there are fewer than it has room for. -/
theorem objInSlab_iff (hroom : HDR + h.objSize ≤ h.slabSize) :
    h.objInSlab hdr (firstByte hdr + n * h.objSize) ↔ n + 1 ≤ h.capacity := by
  have hfit : n + 1 ≤ h.capacity ↔ (n + 1) * h.objSize ≤ h.slabSize - HDR :=
    Nat.le_div_iff_mul_le objSize_pos
  rw [hfit, Nat.succ_mul, objInSlab, firstByte, lastByte]
  omega

theorem objs_succ (hdr n : ℕ) :
    h.objs hdr (n + 1) = h.objs hdr n ++ [firstByte hdr + n * h.objSize] := by
  rw [objs, List.range_succ, List.map_append]
  rfl

variable {mem : Memory} {malloc ret : Option ℕ} {h' : Hgang}

theorem laid_bump (hl : h.Laid) (hhdr : h.slabs.head? = some hdr)
    (hroom : h.objInSlab hdr h.nextObj) :
    Laid { h with nextObj := h.nextObj + h.objSize } ∧
      (carved { h with nextObj := h.nextObj + h.objSize }).Perm (h.nextObj :: h.carved) := by
  obtain ⟨n, hn, hnext⟩ := hl.next hdr hhdr
  obtain ⟨slabs, hslabs⟩ := List.head?_eq_some_iff.mp hhdr
  rw [hnext, objInSlab_iff hl.room] at hroom
  have hnext' : h.nextObj + h.objSize = firstByte hdr + (n + 1) * h.objSize := by
    rw [hnext, Nat.succ_mul, Nat.add_assoc]
  constructor
  · refine { hl with next := fun hdr' hhdr' => ?_ }
    obtain rfl := Option.some.inj (hhdr.symm.trans hhdr')
    exact ⟨n + 1, hroom, hnext'⟩
  · have hfills := fills_cons (h := { h with nextObj := h.nextObj + h.objSize }) hslabs hnext'
    rw [carved, carved, hfills, fills_cons hslabs hnext, List.flatMap_cons, List.flatMap_cons, hnext,
      objs_succ, List.append_assoc]
    exact List.perm_middle

/-- Nothing is left in the newest slab when the next one is needed. -/
theorem fills_full (hl : h.Laid) (hused : ∀ hdr ∈ h.slabs.head?, ¬ h.objInSlab hdr h.nextObj) :
    h.fills = h.slabs.map fun hdr => (hdr, h.capacity) := by
  cases hslabs : h.slabs with
  | nil =>
    rw [fills, hslabs]
    rfl
  | cons hdr slabs =>
    have hhdr : h.slabs.head? = some hdr := by rw [hslabs]; rfl
    obtain ⟨n, hn, hnext⟩ := hl.next hdr hhdr
    have hfull := hused hdr hhdr
    rw [hnext, objInSlab_iff hl.room] at hfull
    rw [fills_cons hslabs hnext, List.map_cons, show n = h.capacity by omega]

theorem laid_slow (hl : h.Laid) (hused : ∀ hdr ∈ h.slabs.head?, ¬ h.objInSlab hdr h.nextObj)
    (hfresh : ∀ p ∈ malloc, p ≠ 0 ∧ p + h.slabSize ≤ 2 ^ 64 ∧
      ∀ q ∈ h.slabs, Apart h.slabSize p q) :
    (h.hgangAllocSlow malloc).2.Laid ∧
      (h.hgangAllocSlow malloc).2.carved.Perm ((h.hgangAllocSlow malloc).1.toList ++ h.carved) := by
  cases malloc with
  | none => exact ⟨hl, .refl _⟩
  | some p =>
    obtain ⟨hp, hend, hapart⟩ := hfresh p rfl
    set h' := (h.hgangAllocSlow (some p)).2
    have hnext : h'.nextObj = firstByte p + 1 * h'.objSize := by
      rw [Nat.one_mul]
      rfl
    have hfills : h'.fills = (p, 1) :: h.slabs.map fun hdr => (hdr, h'.capacity) :=
      fills_cons rfl hnext
    have hcap : 1 ≤ h.capacity :=
      (Nat.le_div_iff_mul_le objSize_pos).mpr (by have := hl.room; omega)
    constructor
    · refine ⟨hl.room, fun hdr hhdr => ?_, List.pairwise_cons.mpr ⟨hapart, hl.apart⟩,
        List.forall_mem_cons.mpr ⟨⟨hp, hend⟩, hl.slab⟩⟩
      obtain rfl := Option.some.inj hhdr
      exact ⟨1, hcap, hnext⟩
    · have hobj : h'.objs p 1 = [p + HDR] := by
        rw [objs, List.range_one, List.map_singleton, Nat.zero_mul]
        rfl
      rw [carved, hfills, List.flatMap_cons, hobj, carved, fills_full hl hused]
      exact .refl _

end Hgang
end Mayhem
