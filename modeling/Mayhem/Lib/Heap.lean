import Mathlib.Algebra.Group.Pointwise.Set.Lattice
import Mathlib.Algebra.Order.Group.Multiset
import Mathlib.Tactic.SplitIfs

/-! Programs that allocate, and who owns what they have allocated. An assertion is a set of
multisets of blocks; the sum of two assertions is their separating conjunction, `0` owns nothing,
and disjunctions and quantifiers are unions. A triple leaves every other block as it is. -/

/-- The element behind a front. -/
theorem List.getElem?_behind {α : Type*} {l₁ l₂ : List α} {x : α} {i : ℕ} (h : i = l₁.length) :
    (l₁ ++ x :: l₂)[i]? = some x := by
  rw [h, List.getElem?_append_right le_rfl, Nat.sub_self]
  rfl

theorem List.set_behind {α : Type*} {l₁ l₂ : List α} {x y : α} {i : ℕ} (h : i = l₁.length) :
    (l₁ ++ x :: l₂).set i y = l₁ ++ y :: l₂ := by
  rw [h, List.set_append_right _ _ le_rfl, Nat.sub_self, List.set_cons_zero]

/-- The value of a key that occurs once. -/
theorem List.lookup_of_nodup {κ ν : Type*} [BEq κ] [LawfulBEq κ] {l : List (κ × ν)} {k : κ} {v : ν}
    (h : (l.map Prod.fst).Nodup) (hmem : (k, v) ∈ l) : l.lookup k = some v := by
  induction l with
  | nil => cases hmem
  | cons e l ih =>
    rw [List.map_cons, List.nodup_cons] at h
    rcases List.mem_cons.mp hmem with he | hmem
    · rw [← he, List.lookup_cons_self]
    · have hkey : k ≠ e.1 := by
        rintro rfl
        exact h.1 (List.mem_map.mpr ⟨_, hmem, rfl⟩)
      rw [List.lookup_cons, beq_eq_false_iff_ne.mpr hkey]
      exact ih h.2 hmem

/-- Blocks and their addresses. No address is used twice, so a block that has been given back is
never found again. -/
structure BlockHeap (C : Type) where
  cells : List (ℕ × C)
  /-- The next address. -/
  next : ℕ
  /-- How often an allocation has been tried. -/
  tries : ℕ
  nodup : (cells.map Prod.fst).Nodup
  fresh : ∀ x ∈ cells, x.1 < next

namespace BlockHeap

open scoped Pointwise

variable {C α β : Type}

/-- NULL is dereferenced; a block is used that is not there, or for what it does not hold; or an
assertion fails. -/
inductive Fault
  | null
  | wild
  | abort
deriving DecidableEq, Repr

/-- A program, given which tries to allocate succeed. -/
abbrev Prog (C α : Type) := ReaderT (ℕ → Bool) (StateT (BlockHeap C) (Except Fault)) α

/-! ### Operations -/

def empty : BlockHeap C := ⟨[], 0, 0, .nil, nofun⟩

def push (s : BlockHeap C) (c : C) : BlockHeap C where
  cells := (s.next, c) :: s.cells
  next := s.next + 1
  tries := s.tries + 1
  nodup := by
    rw [List.map_cons, List.nodup_cons]
    refine ⟨fun hmem => ?_, s.nodup⟩
    obtain ⟨x, hx, hnext⟩ := List.mem_map.mp hmem
    exact Nat.lt_irrefl _ (hnext ▸ s.fresh x hx)
  fresh := by
    intro x hx
    rcases List.mem_cons.mp hx with rfl | hx
    · exact Nat.lt_succ_self _
    · exact Nat.lt_succ_of_lt (s.fresh x hx)

def refuse (s : BlockHeap C) : BlockHeap C := { s with tries := s.tries + 1 }

def erase (s : BlockHeap C) (a : ℕ) : BlockHeap C where
  cells := s.cells.filter (·.1 ≠ a)
  next := s.next
  tries := s.tries
  nodup := s.nodup.sublist (List.filter_sublist.map Prod.fst)
  fresh x hx := s.fresh x (List.mem_of_mem_filter hx)

def put (s : BlockHeap C) (a : ℕ) (c : C) : BlockHeap C where
  cells := s.cells.map fun x => if x.1 = a then (a, c) else x
  next := s.next
  tries := s.tries
  nodup := by
    have hkeys : (s.cells.map fun x => if x.1 = a then (a, c) else x).map Prod.fst =
        s.cells.map Prod.fst := by
      rw [List.map_map]
      refine List.map_congr_left fun x _ => ?_
      rw [Function.comp_apply]
      split_ifs with hx
      · exact hx.symm
      · rfl
    rw [hkeys]
    exact s.nodup
  fresh := by
    intro x hx
    obtain ⟨y, hy, rfl⟩ := List.mem_map.mp hx
    have hlt := s.fresh y hy
    split_ifs with hya
    · exact hya ▸ hlt
    · exact hlt

/-- `malloc` and what is written into the block. -/
def alloc (c : C) : Prog C (Option ℕ) := fun grants s =>
  .ok (if grants s.tries then (some s.next, s.push c) else (none, s.refuse))

def load (p : Option ℕ) : Prog C C := fun _ s =>
  match p with
  | none => .error .null
  | some a =>
    match s.cells.lookup a with
    | none => .error .wild
    | some c => .ok (c, s)

def store (p : Option ℕ) (c : C) : Prog C Unit := do
  let _ ← load p
  fun _ s => .ok ((), p.elim s fun a => s.put a c)

/-- `free`, which does nothing for NULL. -/
def free (p : Option ℕ) : Prog C Unit :=
  match p with
  | none => pure ()
  | some a => do
    let _ ← load (some a)
    fun _ s => .ok ((), s.erase a)

/-- `realloc`: the old block is kept when it fails. -/
def realloc (p : Option ℕ) (c : C) : Prog C (Option ℕ) := do
  match ← alloc c with
  | none => return none
  | some a =>
    free p
    return some a

/-- The number of blocks there are. -/
def size : Prog C ℕ := fun _ s => .ok (s.cells.length, s)

def fault (e : Fault) : Prog C α := fun _ _ => .error e

/-- A loop over `n` indices, from `i` on. -/
def loop (body : ℕ → Prog C Unit) : ℕ → ℕ → Prog C Unit
  | _, 0 => pure ()
  | i, n + 1 => do
    body i
    loop body (i + 1) n

/-! ### Assertions -/

/-- What may be owned. -/
abbrev Owned (C : Type) := Set (Multiset (ℕ × C))

/-- One block. -/
def cell (a : ℕ) (c : C) : Owned C := {{(a, c)}}

/-- A fact and what is owned. -/
def given (φ : Prop) (P : Owned C) : Owned C := ⋃ _ : φ, P

theorem mem_given {φ : Prop} {P : Owned C} {own : Multiset (ℕ × C)} :
    own ∈ given φ P ↔ φ ∧ own ∈ P := by
  rw [given, Set.mem_iUnion, exists_prop]

theorem given_add (φ : Prop) (P F : Owned C) : given φ P + F = given φ (P + F) :=
  Set.iUnion_add _ _

theorem add_given (φ : Prop) (P F : Owned C) : F + given φ P = given φ (F + P) :=
  Set.add_iUnion _ _

theorem given_true {φ : Prop} (h : φ) (P : Owned C) : given φ P = P :=
  Set.ext fun _ => mem_given.trans (and_iff_right h)

theorem subset_given {φ : Prop} {P Q : Owned C} (h : φ) (hPQ : P ⊆ Q) : P ⊆ given φ Q :=
  (given_true h Q).symm ▸ hPQ

/-- Every try succeeds. -/
def Granted (grants : ℕ → Bool) : Prop := ∀ n, grants n = true

/-- From a heap with what `P` owns the program comes to one with what `Q` owns, and the rest of
the heap stays; or it fails in a way that `E` allows. -/
def Triple (grants : ℕ → Bool) (P : Owned C) (c : Prog C α) (Q : α → Owned C)
    (E : Fault → Prop) : Prop :=
  ∀ (s : BlockHeap C) (own frame : Multiset (ℕ × C)), own ∈ P →
    (s.cells : Multiset (ℕ × C)) = own + frame →
      match c grants s with
      | .ok (r, s') => ∃ own' ∈ Q r, (s'.cells : Multiset (ℕ × C)) = own' + frame
      | .error e => E e

section Rules

variable {grants : ℕ → Bool} {P P' F : Owned C} {Q Q' : α → Owned C} {R : β → Owned C}
  {E : Fault → Prop} {c : Prog C α} {f : α → Prog C β}

theorem Triple.conseq (h : Triple grants P c Q E) (hP : P' ⊆ P) (hQ : ∀ r, Q r ⊆ Q' r) :
    Triple grants P' c Q' E := by
  intro s own frame hown hs
  have hrun := h s own frame (hP hown) hs
  revert hrun
  cases c grants s with
  | error e => exact id
  | ok r => exact fun ⟨own', hown', hs'⟩ => ⟨own', hQ r.1 hown', hs'⟩

theorem Triple.pre (h : Triple grants P c Q E) (hP : P' ⊆ P) : Triple grants P' c Q E :=
  h.conseq hP fun _ => subset_rfl

theorem Triple.post (h : Triple grants P c Q E) (hQ : ∀ r, Q r ⊆ Q' r) :
    Triple grants P c Q' E := h.conseq subset_rfl hQ

theorem Triple.faults {E' : Fault → Prop} (h : Triple grants P c Q E) (hE : ∀ e, E e → E' e) :
    Triple grants P c Q E' := by
  intro s own frame hown hs
  have hrun := h s own frame hown hs
  revert hrun
  cases c grants s with
  | error e => exact hE e
  | ok r => exact id

/-- What the program does not own stays as it is. -/
theorem Triple.frame (h : Triple grants P c Q E) (F : Owned C) :
    Triple grants (P + F) c (fun r => Q r + F) E := by
  rintro s own rest ⟨own₁, hown₁, own₂, hown₂, rfl⟩ hs
  have hrun := h s own₁ (own₂ + rest) hown₁ (hs.trans (add_assoc _ _ _))
  revert hrun
  cases c grants s with
  | error e => exact id
  | ok r =>
    rintro ⟨own', hown', hs'⟩
    exact ⟨own' + own₂, Set.add_mem_add hown' hown₂, hs'.trans (add_assoc _ _ _).symm⟩

theorem triple_pure {r : α} (h : P ⊆ Q r) : Triple grants P (pure r) Q E :=
  fun _ own _ hown hs => ⟨own, h hown, hs⟩

theorem triple_fault {e : Fault} (h : E e) : Triple grants P (fault e : Prog C α) Q E :=
  fun _ _ _ _ _ => h

theorem Triple.bind (h : Triple grants P c Q E) (hf : ∀ r, Triple grants (Q r) (f r) R E) :
    Triple grants P (c >>= f) R E := by
  intro s own frame hown hs
  have hrun := h s own frame hown hs
  have hbind : (c >>= f) grants s = c grants s >>= fun x => f x.1 grants x.2 := rfl
  rw [hbind]
  revert hrun
  cases c grants s with
  | error e => exact id
  | ok r =>
    rintro ⟨own', hown', hs'⟩
    exact hf r.1 r.2 own' frame hown' hs'

/-- A step of a program that owns more than the step needs. -/
theorem Triple.step (h : Triple grants P c Q E) (hf : ∀ r, Triple grants (Q r + F) (f r) R E) :
    Triple grants (P + F) (c >>= f) R E :=
  (h.frame F).bind hf

/-- A fact that follows from what is owned. -/
theorem Triple.of_mem (φ : Prop) (hφ : ∀ own ∈ P, φ) (h : φ → Triple grants P c Q E) :
    Triple grants P c Q E :=
  fun s own frame hown hs => h (hφ own hown) s own frame hown hs

theorem triple_iUnion {ι : Sort*} {P : ι → Owned C} :
    Triple grants (⋃ i, P i) c Q E ↔ ∀ i, Triple grants (P i) c Q E := by
  constructor
  · exact fun h i => h.pre (Set.subset_iUnion P i)
  · intro h s own frame hown hs
    obtain ⟨i, hi⟩ := Set.mem_iUnion.mp hown
    exact h i s own frame hi hs

theorem triple_given {φ : Prop} : Triple grants (given φ P) c Q E ↔ (φ → Triple grants P c Q E) :=
  triple_iUnion

/-- A step of which the result is known. -/
theorem Triple.known {x : α} {P' : Owned C} (h : Triple grants P c (fun r => given (r = x) P') E)
    (hf : Triple grants P' (f x) R E) : Triple grants P (c >>= f) R E := by
  refine h.bind fun r => triple_given.mpr ?_
  rintro rfl
  exact hf

/-- The same of a program that owns more. -/
theorem Triple.knownStep {x : α} {P' : Owned C}
    (h : Triple grants P c (fun r => given (r = x) P') E)
    (hf : Triple grants (P' + F) (f x) R E) : Triple grants (P + F) (c >>= f) R E := by
  refine h.step fun r => ?_
  rw [given_add, triple_given]
  rintro rfl
  exact hf

theorem triple_union :
    Triple grants (P ∪ P') c Q E ↔ Triple grants P c Q E ∧ Triple grants P' c Q E := by
  constructor
  · exact fun h => ⟨h.pre Set.subset_union_left, h.pre Set.subset_union_right⟩
  · rintro ⟨h, h'⟩ s own frame (hown | hown) hs
    · exact h s own frame hown hs
    · exact h' s own frame hown hs

theorem triple_empty : Triple grants ∅ c Q E := fun _ _ _ hown => hown.elim

end Rules

/-! ### The rules of the operations -/

section Blocks

variable {s : BlockHeap C} {a : ℕ} {c : C} {rest : Multiset (ℕ × C)}

theorem other_keys (h : (s.cells : Multiset (ℕ × C)) = (a, c) ::ₘ rest) : ∀ x ∈ rest, x.1 ≠ a := by
  have hnodup : ((s.cells : Multiset (ℕ × C)).map Prod.fst).Nodup := s.nodup
  rw [h, Multiset.map_cons, Multiset.nodup_cons] at hnodup
  rintro x hx rfl
  exact hnodup.1 (Multiset.mem_map.mpr ⟨x, hx, rfl⟩)

theorem lookup_cells (h : (s.cells : Multiset (ℕ × C)) = (a, c) ::ₘ rest) :
    s.cells.lookup a = some c := by
  have hmem : (a, c) ∈ (s.cells : Multiset (ℕ × C)) := h ▸ Multiset.mem_cons_self _ _
  exact List.lookup_of_nodup s.nodup (Multiset.mem_coe.mp hmem)

theorem erase_cells (h : (s.cells : Multiset (ℕ × C)) = (a, c) ::ₘ rest) :
    ((s.erase a).cells : Multiset (ℕ × C)) = rest := by
  have hfilter : ((s.erase a).cells : Multiset (ℕ × C)) =
      (s.cells : Multiset (ℕ × C)).filter (·.1 ≠ a) := by
    simp [erase]
  rw [hfilter, h, Multiset.filter_cons_of_neg, Multiset.filter_eq_self]
  · exact other_keys h
  · exact not_not.mpr rfl

theorem put_cells (h : (s.cells : Multiset (ℕ × C)) = (a, c) ::ₘ rest) (c' : C) :
    ((s.put a c').cells : Multiset (ℕ × C)) = (a, c') ::ₘ rest := by
  have hmap : ((s.put a c').cells : Multiset (ℕ × C)) =
      (s.cells : Multiset (ℕ × C)).map fun x => if x.1 = a then (a, c') else x := rfl
  have hrest : rest.map (fun x => if x.1 = a then (a, c') else x) = rest.map id :=
    Multiset.map_congr rfl fun x hx => if_neg (other_keys h x hx)
  rw [hmap, h, Multiset.map_cons, if_pos rfl, hrest, Multiset.map_id]

end Blocks

section Operations

variable {grants : ℕ → Bool} {E : Fault → Prop} {a : ℕ} {c c' : C}

theorem mem_cell {own : Multiset (ℕ × C)} : own ∈ cell a c ↔ own = {(a, c)} := Iff.rfl

/-- What an allocation returns: a block of one's own, or NULL. -/
def allocated (grants : ℕ → Bool) (c : C) : Option ℕ → Owned C
  | none => given (¬ Granted grants) 0
  | some a => cell a c

theorem triple_alloc (c : C) : Triple grants 0 (alloc c) (allocated grants c) E := by
  rintro s own frame rfl hs
  rw [alloc]
  by_cases hgrant : grants s.tries = true
  · rw [if_pos hgrant]
    refine ⟨{(s.next, c)}, rfl, ?_⟩
    rw [Multiset.singleton_add, ← hs.trans (zero_add _)]
    rfl
  · rw [if_neg hgrant]
    exact ⟨0, mem_given.mpr ⟨fun h => hgrant (h _), rfl⟩, hs⟩

/-- An allocation of a program that owns something. -/
theorem Triple.alloc {x : C} {f : Option ℕ → Prog C β}
    (hnone : ¬ Granted grants → Triple grants F (f none) R E)
    (hsome : ∀ a, Triple grants (F + cell a x) (f (some a)) R E) :
    Triple grants F (BlockHeap.alloc x >>= f) R E := by
  rw [← zero_add F]
  refine (triple_alloc x).step fun r => ?_
  cases r with
  | none =>
    rw [allocated, given_add, zero_add, triple_given]
    exact hnone
  | some a =>
    rw [allocated, add_comm]
    exact hsome a

theorem triple_load : Triple grants (cell a c) (load (some a)) (fun r => given (r = c) (cell a c)) E := by
  rintro s own frame rfl hs
  rw [Multiset.singleton_add] at hs
  simp only [load, lookup_cells hs]
  exact ⟨{(a, c)}, mem_given.mpr ⟨trivial, mem_cell.mpr rfl⟩, hs⟩

theorem triple_store : Triple grants (cell a c) (store (some a) c') (fun _ => cell a c') E := by
  refine triple_load.bind fun r => ?_
  rintro s own frame hown hs
  obtain ⟨-, rfl⟩ := mem_given.mp hown
  exact ⟨{(a, c')}, rfl, put_cells hs c'⟩

theorem triple_free : Triple grants (cell a c) (free (some a)) (fun _ => 0) E := by
  refine triple_load.bind fun r => ?_
  rintro s own frame hown hs
  obtain ⟨-, rfl⟩ := mem_given.mp hown
  exact ⟨0, rfl, (erase_cells hs).trans (zero_add _).symm⟩

theorem triple_free_null {P : Owned C} :
    Triple grants P (free none : Prog C Unit) (fun _ => P) E :=
  fun _ own _ hown hs => ⟨own, hown, hs⟩

/-- A block that grows, or is made, where there was none. -/
theorem triple_realloc_null (c : C) : Triple grants 0 (realloc none c) (allocated grants c) E := by
  refine (triple_alloc c).bind fun r => ?_
  cases r with
  | none => exact triple_pure subset_rfl
  | some a => exact triple_free_null.bind fun _ => triple_pure subset_rfl

/-- What is left of a block, and where it has gone. -/
def moved (grants : ℕ → Bool) (a : ℕ) (c c' : C) : Option ℕ → Owned C
  | none => given (¬ Granted grants) (cell a c)
  | some a' => cell a' c'

theorem triple_realloc :
    Triple grants (cell a c) (realloc (some a) c') (moved grants a c c') E := by
  have halloc : Triple grants (0 + cell a c) (alloc c') (fun r => allocated grants c' r + cell a c) E :=
    (triple_alloc c').frame _
  rw [zero_add] at halloc
  refine halloc.bind fun r => ?_
  cases r with
  | none =>
    rw [allocated, given_add, zero_add]
    exact triple_pure subset_rfl
  | some a' =>
    have hfree : Triple grants (cell a c + cell a' c') (free (some a)) (fun _ => 0 + cell a' c') E :=
      triple_free.frame _
    rw [add_comm, zero_add] at hfree
    exact hfree.bind fun _ => triple_pure subset_rfl

/-- The number of blocks is at least that of the blocks that one owns. -/
theorem triple_size {P : Owned C} :
    Triple grants P size (fun n => {own | own ∈ P ∧ own.card ≤ n}) E := by
  intro s own frame hown hs
  refine ⟨own, ⟨hown, ?_⟩, hs⟩
  have hcard := congrArg Multiset.card hs
  rw [Multiset.coe_card, Multiset.card_add] at hcard
  omega

end Operations

/-! ### One after the other -/

/-- What the items of a list own. -/
def each : List (α → Owned C) → List α → Owned C
  | [], [] => 0
  | W :: Ws, x :: l => W x + each Ws l
  | _, _ => ∅

section Each

variable {A B Ws : List (α → Owned C)} {W : α → Owned C} {l l₁ l₂ : List α} {x : α}

/-- There are as many items as owners. -/
theorem each_length {own : Multiset (ℕ × C)} (h : own ∈ each Ws l) : l.length = Ws.length := by
  induction Ws generalizing l own with
  | nil =>
    cases l with
    | nil => rfl
    | cons x l => exact h.elim
  | cons W Ws ih =>
    cases l with
    | nil => exact h.elim
    | cons x l =>
      obtain ⟨own₁, -, own₂, h₂, -⟩ := h
      exact congrArg (· + 1) (ih h₂)

theorem each_append (h : l₁.length = A.length) :
    each (A ++ B) (l₁ ++ l₂) = each A l₁ + each B l₂ := by
  induction A generalizing l₁ with
  | nil =>
    obtain rfl := List.length_eq_zero_iff.mp h
    rw [List.nil_append, List.nil_append, each, zero_add]
  | cons W A ih =>
    obtain ⟨x, l₁, rfl⟩ := List.exists_cons_of_length_eq_add_one h
    rw [List.cons_append, List.cons_append, each, each, ih (Nat.succ.inj h), add_assoc]

theorem mem_each_append {own : Multiset (ℕ × C)} (h : own ∈ each (A ++ B) l) :
    own ∈ each A (l.take A.length) + each B (l.drop A.length) := by
  have hlen := each_length h
  rw [List.length_append] at hlen
  rw [← each_append (List.length_take_of_le (by omega)), List.take_append_drop]
  exact h

/-- One of the items, and the others. -/
theorem each_split : each (A ++ W :: B) l = ⋃ l₁, ⋃ x, ⋃ l₂,
    given (l = l₁ ++ x :: l₂ ∧ l₁.length = A.length) (W x + (each A l₁ + each B l₂)) := by
  have hone : ∀ {l₁ x l₂}, l₁.length = A.length →
      each (A ++ W :: B) (l₁ ++ x :: l₂) = W x + (each A l₁ + each B l₂) := by
    intro l₁ x l₂ h
    rw [each_append h, each, add_left_comm]
  ext own
  simp only [Set.mem_iUnion, mem_given]
  constructor
  · intro hown
    have hlen := each_length hown
    rw [List.length_append, List.length_cons] at hlen
    obtain ⟨x, l₂, hdrop⟩ : ∃ x l₂, l.drop A.length = x :: l₂ := by
      apply List.exists_cons_of_ne_nil
      rw [ne_eq, List.drop_eq_nil_iff]
      omega
    have hl : l.take A.length ++ x :: l₂ = l := by rw [← hdrop, List.take_append_drop]
    have htake : (l.take A.length).length = A.length := List.length_take_of_le (by omega)
    refine ⟨_, x, l₂, ⟨hl.symm, htake⟩, ?_⟩
    rw [← hone htake, hl]
    exact hown
  · rintro ⟨l₁, x, l₂, ⟨rfl, h⟩, hown⟩
    rwa [hone h]

/-- What each item says of what it owns. -/
theorem each_forall₂ {ι : Type} {qs : List ι} {W : ι → α → Owned C} {P : ι → Owned C}
    {R : ι → α → Prop} (h : ∀ q ∈ qs, ∀ r, ∀ own ∈ W q r, own ∈ P q ∧ R q r) {rs : List α}
    {own : Multiset (ℕ × C)} (hown : own ∈ each (qs.map W) rs) :
    own ∈ (qs.map P).sum ∧ List.Forall₂ R qs rs := by
  induction qs generalizing rs own with
  | nil =>
    cases rs with
    | nil => exact ⟨hown, .nil⟩
    | cons r rs => exact hown.elim
  | cons q qs ih =>
    cases rs with
    | nil => exact hown.elim
    | cons r rs =>
      obtain ⟨hq, hqs⟩ := List.forall_mem_cons.mp h
      obtain ⟨own₁, h₁, own₂, h₂, rfl⟩ := hown
      obtain ⟨hfirst, hr⟩ := hq r own₁ h₁
      obtain ⟨hothers, hrs⟩ := ih hqs h₂
      rw [List.map_cons, List.sum_cons]
      exact ⟨Set.add_mem_add hfirst hothers, .cons hr hrs⟩

/-- Programs one after the other. -/
theorem triple_each {ι : Type} {grants : ℕ → Bool} {run : ι → Prog C α}
    {all : List ι → Prog C (List α)} (hnil : all [] = pure [])
    (hcons : ∀ q qs, all (q :: qs) = do
      let r ← run q
      let rs ← all qs
      return r :: rs)
    {W : ι → α → Owned C} {Faults : ι → Fault → Prop}
    {qs : List ι} (h : ∀ q ∈ qs, Triple grants 0 (run q) (W q) (Faults q)) :
    Triple grants 0 (all qs) (each (qs.map W)) (fun e => ∃ q ∈ qs, Faults q e) := by
  induction qs with
  | nil =>
    rw [hnil]
    exact triple_pure subset_rfl
  | cons q qs ih =>
    have hfirst := (h q List.mem_cons_self).faults
      fun e he => (⟨q, List.mem_cons_self, he⟩ : ∃ q' ∈ q :: qs, Faults q' e)
    have hrest := (ih fun q' hq' => h q' (List.mem_cons_of_mem q hq')).faults fun e ⟨q', hq', he⟩ =>
      (⟨q', List.mem_cons_of_mem q hq', he⟩ : ∃ q' ∈ q :: qs, Faults q' e)
    rw [hcons]
    refine hfirst.bind fun r => ?_
    rw [← zero_add (W q r)]
    refine hrest.step fun rs => triple_pure ?_
    rw [add_comm]
    exact subset_rfl

/-- A loop in which every round takes what one of the items owns. -/
theorem triple_loop {grants : ℕ → Bool} {E : Fault → Prop} {body : ℕ → Prog C Unit} {F : Owned C}
    {l₀ : List α} (hbody : ∀ W ∈ Ws, ∀ i x, l₀[i]? = some x →
      Triple grants (F + W x) (body i) (fun _ => F) E) {i : ℕ} (hl : l₀.drop i = l) :
    Triple grants (F + each Ws l) (loop body i l.length) (fun _ => F) E := by
  induction Ws generalizing i l with
  | nil =>
    cases l with
    | nil =>
      rw [each, add_zero]
      exact triple_pure subset_rfl
    | cons x l =>
      rw [each, Set.add_empty]
      · exact triple_empty
      · exact nofun
      · exact nofun
  | cons W Ws ih =>
    cases l with
    | nil =>
      rw [each, Set.add_empty]
      · exact triple_empty
      · exact nofun
      · exact nofun
    | cons x l =>
      have hx : l₀[i]? = some x := by
        rw [← Nat.add_zero i, ← List.getElem?_drop, hl]
        rfl
      have hrest : l₀.drop (i + 1) = l := by
        rw [← List.drop_drop, hl]
        rfl
      rw [each, ← add_assoc]
      refine (hbody W List.mem_cons_self i x hx).step fun _ => ?_
      exact ih (fun W' hW' => hbody W' (List.mem_cons_of_mem W hW')) hrest

end Each

end BlockHeap
