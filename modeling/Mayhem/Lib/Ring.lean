import Mathlib.Data.List.Chain
import Mathlib.Data.List.Nodup
import Mathlib.Logic.Function.Iterate

/-! Circular doubly linked lists whose links are members of their elements: the operations on
the links, and what they do to a family of lists that are apart from each other. -/

structure Links (α : Type*) where
  next : α → α
  prev : α → α

namespace Links

variable {α : Type*} {l : Links α} {a b p q x y h k : α} {xs ys us vs as bs : List α}

/-- `a` and `b` point at each other. -/
def Adj (l : Links α) (a b : α) : Prop := l.next a = b ∧ l.prev b = a

abbrev Path (l : Links α) (xs : List α) : Prop := xs.IsChain l.Adj

/-- The elements behind the head `h` are `xs`, and the links run in a circle. -/
structure Ring (l : Links α) (h : α) (xs : List α) : Prop where
  nodup : (h :: xs).Nodup
  path : l.Path (h :: xs ++ [h])

/-- An element has neighbours, and the circle falls into a path up to it and one behind it. -/
theorem Ring.split (hr : l.Ring h (as ++ x :: bs)) : ∃ us p q vs,
    h :: as = us ++ [p] ∧ bs ++ [h] = q :: vs ∧ l.Adj p x ∧ l.Adj x q ∧
      l.Path (us ++ [p]) ∧ l.Path (q :: vs) := by
  obtain ⟨us, p, hus⟩ : ∃ us p, h :: as = us ++ [p] :=
    (List.eq_nil_or_concat' (h :: as)).resolve_left (List.cons_ne_nil _ _)
  obtain ⟨q, vs, hvs⟩ : ∃ q vs, bs ++ [h] = q :: vs :=
    List.exists_cons_of_ne_nil (by simp)
  have hpath := hr.path
  rw [show h :: (as ++ x :: bs) ++ [h] = us ++ p :: x :: q :: vs by
    rw [← hvs, ← List.cons_append, hus]
    simp] at hpath
  obtain ⟨hup, hpx, hxq⟩ := List.isChain_append_cons_cons.mp hpath
  obtain ⟨hadj, hqv⟩ := List.isChain_cons_cons.mp hxq
  exact ⟨us, p, q, vs, hus, hvs, hpx, hadj, hup, hqv⟩

theorem Ring.next_of_append (hr : l.Ring h (as ++ x :: bs)) : l.next x = bs.headD h := by
  obtain ⟨us, p, q, vs, -, hvs, -, hxq, -⟩ := hr.split
  rw [hxq.1]
  cases bs with
  | nil => exact (List.cons.inj hvs).1.symm
  | cons b bs => exact (List.cons.inj hvs).1.symm

theorem Ring.next_head (hr : l.Ring h xs) : l.next h = xs.headD h := by
  cases xs with
  | nil => exact (List.isChain_cons_cons.mp hr.path).1.1
  | cons b bs => exact (List.isChain_cons_cons.mp hr.path).1.1

theorem Path.unique (hxs : l.Path (a :: xs ++ [h])) (hys : l.Path (a :: ys ++ [h]))
    (hx : h ∉ xs) (hy : h ∉ ys) : xs = ys := by
  induction xs generalizing a ys with
  | nil =>
    have hnext := (List.isChain_cons_cons.mp hxs).1.1
    cases ys with
    | nil => rfl
    | cons y ys =>
      have hnext' := (List.isChain_cons_cons.mp hys).1.1
      exact absurd (hnext ▸ hnext' ▸ List.mem_cons_self) hy
  | cons x xs ih =>
    obtain ⟨⟨hnext, -⟩, hxs⟩ := List.isChain_cons_cons.mp hxs
    cases ys with
    | nil =>
      have hnext' := (List.isChain_cons_cons.mp hys).1.1
      exact absurd (hnext' ▸ hnext ▸ List.mem_cons_self) hx
    | cons y ys =>
      obtain ⟨⟨hnext', -⟩, hys⟩ := List.isChain_cons_cons.mp hys
      obtain rfl : x = y := hnext.symm.trans hnext'
      rw [ih hxs hys (List.not_mem_of_not_mem_cons hx) (List.not_mem_of_not_mem_cons hy)]

/-- The links determine what is on a list. -/
theorem Ring.unique (hxs : l.Ring h xs) (hys : l.Ring h ys) : xs = ys :=
  Path.unique hxs.path hys.path (List.nodup_cons.mp hxs.nodup).1 (List.nodup_cons.mp hys.nodup).1

theorem headD_mem (h : α) (xs : List α) : xs.headD h ∈ h :: xs := by
  cases xs with
  | nil => exact List.mem_cons_self
  | cons b bs => exact List.mem_cons_of_mem _ List.mem_cons_self

theorem Ring.next_mem (hr : l.Ring h xs) (hx : x ∈ h :: xs) : l.next x ∈ h :: xs := by
  rcases List.mem_cons.mp hx with rfl | hx
  · rw [hr.next_head]
    exact headD_mem _ _
  · obtain ⟨as, bs, rfl⟩ := List.append_of_mem hx
    rw [hr.next_of_append]
    rcases List.mem_cons.mp (headD_mem h bs) with hh | hb
    · rw [hh]
      exact List.mem_cons_self
    · exact List.mem_cons_of_mem _ (List.mem_append_right _ (List.mem_cons_of_mem _ hb))

theorem Ring.prev_mem (hr : l.Ring h xs) (hx : x ∈ xs) : l.prev x ∈ h :: xs := by
  obtain ⟨as, bs, rfl⟩ := List.append_of_mem hx
  obtain ⟨us, p, q, vs, hus, -, hpx, -⟩ := hr.split
  have hp : p ∈ h :: as := by simp [hus]
  rw [hpx.2]
  rcases List.mem_cons.mp hp with rfl | hp
  · exact List.mem_cons_self
  · simp [hp]

theorem Ring.prev_head (hr : l.Ring h xs) : l.prev h ∈ h :: xs := by
  obtain ⟨us, p, hus⟩ : ∃ us p, h :: xs = us ++ [p] :=
    (List.eq_nil_or_concat' (h :: xs)).resolve_left (List.cons_ne_nil _ _)
  have hpath := hr.path
  rw [hus, List.append_assoc, List.singleton_append] at hpath
  rw [(List.isChain_append_cons_cons.mp hpath).2.1.2, hus]
  simp

/-- Those on the list are those that its head leads to. -/
theorem Ring.mem_iff (hr : l.Ring h xs) (hx : x ≠ h) : x ∈ xs ↔ ∃ n, l.next^[n] h = x := by
  constructor
  · intro hmem
    obtain ⟨as, bs, rfl⟩ := List.append_of_mem hmem
    clear hmem
    induction as using List.reverseRecOn generalizing x bs with
    | nil => exact ⟨1, by simpa using hr.next_head⟩
    | append_singleton as a ih =>
      rw [List.append_assoc, List.singleton_append] at hr
      have ha : a ≠ h := by
        have hn := (List.nodup_cons.mp hr.nodup).1
        rintro rfl
        exact hn (by simp)
      obtain ⟨n, hn⟩ := ih ha (x :: bs) hr
      exact ⟨n + 1, by rw [Function.iterate_succ_apply', hn, hr.next_of_append]; rfl⟩
  · rintro ⟨n, rfl⟩
    have hall : ∀ n, l.next^[n] h ∈ h :: xs := by
      intro n
      induction n with
      | zero => exact List.mem_cons_self
      | succ n ih =>
        rw [Function.iterate_succ_apply']
        exact hr.next_mem ih
    exact (List.mem_cons.mp (hall n)).resolve_left hx

variable [DecidableEq α]

/-- Make `p` and `q` neighbours. -/
def link (l : Links α) (p q : α) : Links α :=
  ⟨Function.update l.next p q, Function.update l.prev q p⟩

/-- An element that is its own neighbour. -/
def init (l : Links α) (x : α) : Links α := l.link x x

/-- Insert `x` in front of `h`. -/
def addTail (l : Links α) (x h : α) : Links α := (l.link x h).link (l.prev h) x

def unlink (l : Links α) (x : α) : Links α := l.link (l.prev x) (l.next x)

def del (l : Links α) (x : α) : Links α := (l.unlink x).init x

def moveTail (l : Links α) (x h : α) : Links α := (l.unlink x).addTail x h

theorem link_next (l : Links α) (ha : a ≠ p) : (l.link p q).next a = l.next a :=
  Function.update_of_ne ha _ _

theorem link_prev (l : Links α) (hb : b ≠ q) : (l.link p q).prev b = l.prev b :=
  Function.update_of_ne hb _ _

theorem adj_link (l : Links α) (p q : α) : (l.link p q).Adj p q :=
  ⟨Function.update_self .., Function.update_self ..⟩

theorem Adj.link (hab : l.Adj a b) (ha : a ≠ p) (hb : b ≠ q) : (l.link p q).Adj a b :=
  ⟨(l.link_next ha).trans hab.1, (l.link_prev hb).trans hab.2⟩

/-- A path none of whose steps leaves `p` or enters `q` stays. -/
theorem Path.link (hpath : l.Path xs) (hp : p ∉ xs.dropLast) (hq : q ∉ xs.tail) :
    (l.link p q).Path xs := by
  induction xs with
  | nil => exact .nil
  | cons a xs ih =>
    cases xs with
    | nil => exact .singleton a
    | cons b xs =>
      obtain ⟨hab, hrest⟩ := List.isChain_cons_cons.mp hpath
      rw [List.dropLast_cons_cons, List.mem_cons, not_or] at hp
      rw [List.tail_cons, List.mem_cons, not_or] at hq
      refine List.isChain_cons_cons.mpr ⟨hab.link (Ne.symm hp.1) (Ne.symm hq.1), ?_⟩
      exact ih hrest hp.2 hq.2

/-- Links elsewhere leave a ring as it is. -/
theorem Ring.link (hr : l.Ring k ys) (hp : p ∉ k :: ys) (hq : q ∉ k :: ys) :
    (l.link p q).Ring k ys := by
  refine ⟨hr.nodup, hr.path.link ?_ ?_⟩
  · rw [List.dropLast_concat]
    exact hp
  · rw [List.cons_append, List.tail_cons, List.mem_append, List.mem_singleton, not_or]
    exact ⟨fun hy => hq (List.mem_cons_of_mem _ hy), fun hk => hq (hk ▸ List.mem_cons_self)⟩

theorem Ring.unlink (hr : l.Ring h (as ++ x :: bs)) : (l.unlink x).Ring h (as ++ bs) := by
  obtain ⟨us, p, q, vs, hus, hvs, hpx, hxq, hup, hqv⟩ := hr.split
  have hn : (h :: as ++ x :: bs).Nodup := hr.nodup
  have hdisj := List.disjoint_of_nodup_append hn
  have hfront : (us ++ [p]).Nodup := hus ▸ hn.of_append_left
  have hh : h ∉ as ++ bs := fun hmem => (List.nodup_cons.mp hr.nodup).1 (by
    rcases List.mem_append.mp hmem with hm | hm <;> simp [hm])
  have hback : (q :: vs).Nodup := by
    rw [← hvs]
    refine List.nodup_append.mpr ⟨(List.nodup_cons.mp hn.of_append_right).2, by simp, ?_⟩
    rintro y hy z hz rfl
    obtain rfl := List.mem_singleton.mp hz
    exact hh (List.mem_append_right _ hy)
  have hp : p ∈ h :: as := by simp [hus]
  have hq : q ∈ bs ++ [h] := by simp [hvs]
  have hqas : q ∉ as := by
    intro hmem
    rcases List.mem_append.mp hq with hm | hm
    · exact hdisj (List.mem_cons_of_mem _ hmem) (List.mem_cons_of_mem _ hm)
    · exact hh (List.mem_append_left _ (List.mem_singleton.mp hm ▸ hmem))
  unfold Links.unlink
  rw [hpx.2, hxq.1]
  refine ⟨(hn.sublist (by simp)), ?_⟩
  rw [show h :: (as ++ bs) ++ [h] = us ++ p :: q :: vs by
    rw [← hvs, ← List.cons_append, hus]
    simp]
  refine List.isChain_append_cons_cons.mpr ⟨hup.link ?_ ?_, l.adj_link p q, hqv.link ?_ ?_⟩
  · rw [List.dropLast_concat]
    exact fun hmem => (List.nodup_append.mp hfront).2.2 p hmem p (by simp) rfl
  · rw [← hus]
    exact hqas
  · rw [← hvs, List.dropLast_concat]
    exact fun hmem => hdisj hp (List.mem_cons_of_mem _ hmem)
  · exact (List.nodup_cons.mp hback).1

/-- Unlinking an element of another ring. -/
theorem Ring.unlink_away (hr : l.Ring k ys) (hx : l.Ring h xs) (hmem : x ∈ xs)
    (hdisj : (h :: xs).Disjoint (k :: ys)) : (l.unlink x).Ring k ys :=
  hr.link (hdisj (hx.prev_mem hmem)) (hdisj (hx.next_mem (List.mem_cons_of_mem _ hmem)))

theorem Ring.addTail (hr : l.Ring h xs) (hx : x ∉ h :: xs) :
    (l.addTail x h).Ring h (xs ++ [x]) := by
  obtain ⟨us, p, hus⟩ : ∃ us p, h :: xs = us ++ [p] :=
    (List.eq_nil_or_concat' (h :: xs)).resolve_left (List.cons_ne_nil _ _)
  have hpath := hr.path
  have hn := hr.nodup
  rw [hus, List.append_assoc, List.singleton_append] at hpath
  obtain ⟨hup, hph, -⟩ := List.isChain_append_cons_cons.mp hpath
  have hp : p ∈ h :: xs := by simp [hus]
  have hhx : h ∉ xs := (List.nodup_cons.mp hn).1
  have hfront : p ∉ us := by
    rw [hus] at hn
    exact fun hmem => (List.nodup_append.mp hn).2.2 p hmem p (by simp) rfl
  have hxp : x ≠ p := fun he => hx (he ▸ hp)
  unfold Links.addTail
  rw [hph.2]
  constructor
  · rw [← List.cons_append]
    refine List.nodup_append.mpr ⟨hn, by simp, ?_⟩
    rintro y hy z hz rfl
    exact hx (List.mem_singleton.mp hz ▸ hy)
  · rw [show h :: (xs ++ [x]) ++ [h] = us ++ p :: x :: [h] by
      rw [← List.cons_append, hus]
      simp]
    refine List.isChain_append_cons_cons.mpr ⟨Path.link (Path.link hup ?_ ?_) ?_ ?_, adj_link _ p x,
      List.isChain_pair.mpr ((l.adj_link x h).link hxp ?_)⟩
    · rw [List.dropLast_concat]
      exact fun hmem => hx (hus ▸ List.mem_append_left _ hmem)
    · rw [← hus]
      exact hhx
    · rw [List.dropLast_concat]
      exact hfront
    · rw [← hus]
      exact fun hmem => hx (List.mem_cons_of_mem _ hmem)
    · exact fun he => hx (he ▸ List.mem_cons_self)

/-- Adding to another ring an element that is not on this one. -/
theorem Ring.addTail_away (hr : l.Ring k ys) (hh : l.Ring h xs)
    (hdisj : (h :: xs).Disjoint (k :: ys)) (hx : x ∉ k :: ys) : (l.addTail x h).Ring k ys := by
  exact (hr.link hx (hdisj List.mem_cons_self)).link (hdisj hh.prev_head) hx

/-! A family of rings. -/

variable {ι : Type*} {head : ι → α} {lists : ι → List α} {i j : ι}

/-- Each head with its list is a ring, and no two of them share an element. -/
structure Rings (l : Links α) (head : ι → α) (lists : ι → List α) : Prop where
  ring : ∀ i, l.Ring (head i) (lists i)
  apart : ∀ i j, i ≠ j → (head i :: lists i).Disjoint (head j :: lists j)

/-- Neither a head nor on a list. -/
def Off (head : ι → α) (lists : ι → List α) (x : α) : Prop := ∀ i, x ∉ head i :: lists i

/-- On a list, or off them all and its own neighbour. -/
def Tied (l : Links α) (head : ι → α) (lists : ι → List α) (x : α) : Prop :=
  (∃ i, x ∈ lists i) ∨ Off head lists x ∧ l.next x = x ∧ l.prev x = x

def removed (lists : ι → List α) (x : α) (i : ι) : List α := (lists i).filter (· ≠ x)

theorem mem_removed : y ∈ removed lists x i ↔ y ∈ lists i ∧ y ≠ x := by
  simp [removed]

theorem removed_eq_self (hx : x ∉ lists i) : removed lists x i = lists i :=
  List.filter_eq_self.mpr fun y hy => by simpa using fun he : y = x => hx (he ▸ hy)

theorem removed_of_append (hn : (as ++ x :: bs).Nodup) (hi : lists i = as ++ x :: bs) :
    removed lists x i = as ++ bs := by
  have hmid := List.nodup_middle.mp hn
  have hx : x ∉ as ++ bs := (List.nodup_cons.mp hmid).1
  have hrest : (as ++ bs).filter (· ≠ x) = as ++ bs :=
    List.filter_eq_self.mpr fun y hy => by simpa using fun he : y = x => hx (he ▸ hy)
  rw [List.filter_append] at hrest
  rw [removed, hi, List.filter_append, List.filter_cons_of_neg (by simp), hrest]

theorem Off.removed (hy : Off head lists y) : Off head (removed lists x) y := by
  intro i hmem
  rcases List.mem_cons.mp hmem with hh | hl
  · exact hy i (hh ▸ List.mem_cons_self)
  · exact hy i (List.mem_cons_of_mem _ (mem_removed.mp hl).1)

omit [DecidableEq α] in
/-- An element is on one list only. -/
theorem Rings.unique (hl : l.Rings head lists) (hi : x ∈ lists i) (hj : x ∈ lists j) : i = j := by
  by_contra hne
  exact hl.apart i j hne (List.mem_cons_of_mem _ hi) (List.mem_cons_of_mem _ hj)

omit [DecidableEq α] in
theorem Rings.not_head (hl : l.Rings head lists) (hi : x ∈ lists i) (j : ι) : x ≠ head j := by
  rintro rfl
  by_cases hij : i = j
  · subst hij
    exact (List.nodup_cons.mp (hl.ring i).nodup).1 hi
  · exact hl.apart i j hij (List.mem_cons_of_mem _ hi) List.mem_cons_self

theorem Rings.off_removed (hl : l.Rings head lists) (hi : x ∈ lists i) :
    Off head (removed lists x) x := by
  intro j hmem
  rcases List.mem_cons.mp hmem with hh | hj
  · exact hl.not_head hi j hh
  · exact (mem_removed.mp hj).2 rfl

theorem Rings.unlink (hl : l.Rings head lists) (hi : x ∈ lists i) :
    (l.unlink x).Rings head (removed lists x) := by
  refine ⟨fun k => ?_, fun j k hjk y hj hk => ?_⟩
  · by_cases hk : k = i
    · subst hk
      obtain ⟨as, bs, hsplit⟩ := List.append_of_mem hi
      have hr := hl.ring k
      rw [hsplit] at hr
      rw [removed_of_append (List.nodup_cons.mp hr.nodup).2 hsplit]
      exact hr.unlink
    · rw [removed_eq_self fun hmem => hk (hl.unique hmem hi)]
      exact (hl.ring k).unlink_away (hl.ring i) hi (hl.apart i k (Ne.symm hk))
  · have hsub : ∀ {k}, y ∈ head k :: removed lists x k → y ∈ head k :: lists k := fun h =>
      (List.mem_cons.mp h).elim (· ▸ List.mem_cons_self)
        fun h => List.mem_cons_of_mem _ (mem_removed.mp h).1
    exact hl.apart j k hjk (hsub hj) (hsub hk)

theorem Rings.init (hl : l.Rings head lists) (hx : Off head lists x) :
    (l.init x).Rings head lists :=
  ⟨fun i => (hl.ring i).link (hx i) (hx i), hl.apart⟩

theorem Rings.del (hl : l.Rings head lists) (hi : x ∈ lists i) :
    (l.del x).Rings head (removed lists x) :=
  (hl.unlink hi).init (hl.off_removed hi)

theorem Tied.init (hy : l.Tied head lists y) (hx : Off head lists x) :
    (l.init x).Tied head lists y := by
  rcases hy with hon | ⟨hoff, hnext, hprev⟩
  · exact .inl hon
  · refine .inr ⟨hoff, ?_⟩
    by_cases he : y = x
    · subst he
      exact l.adj_link y y
    · exact Adj.link ⟨hnext, hprev⟩ he he

theorem tied_init (hx : Off head lists x) : (l.init x).Tied head lists x :=
  .inr ⟨hx, l.adj_link x x⟩

/-- What is its own neighbour is not touched when an element of a list is unlinked. -/
theorem Tied.unlink (hl : l.Rings head lists) (hi : x ∈ lists i) (hy : l.Tied head lists y)
    (hne : y ≠ x) : (l.unlink x).Tied head (Links.removed lists x) y := by
  rcases hy with ⟨j, hj⟩ | ⟨hoff, hadj⟩
  · exact .inl ⟨j, mem_removed.mpr ⟨hj, hne⟩⟩
  · refine .inr ⟨hoff.removed, Adj.link hadj ?_ ?_⟩
    · rintro rfl
      exact hoff i ((hl.ring i).prev_mem hi)
    · rintro rfl
      exact hoff i ((hl.ring i).next_mem (List.mem_cons_of_mem _ hi))

theorem Tied.del (hl : l.Rings head lists) (hi : x ∈ lists i) (hy : l.Tied head lists y) :
    (l.del x).Tied head (Links.removed lists x) y := by
  by_cases hne : y = x
  · subst hne
    exact tied_init (hl.off_removed hi)
  · exact (hy.unlink hl hi hne).init (hl.off_removed hi)

variable [DecidableEq ι]

def added (lists : ι → List α) (x : α) (j : ι) : ι → List α :=
  Function.update lists j (lists j ++ [x])

omit [DecidableEq α] in
theorem mem_added : y ∈ added lists x j i ↔ y ∈ lists i ∨ y = x ∧ i = j := by
  by_cases hij : i = j
  · subst hij
    simp [added]
  · simp [added, hij]

theorem Rings.addTail (hl : l.Rings head lists) (hx : Off head lists x) (j : ι) :
    (l.addTail x (head j)).Rings head (added lists x j) := by
  have hsub : ∀ {i y}, y ∈ head i :: added lists x j i →
      y ∈ head i :: lists i ∨ y = x ∧ i = j := by
    intro i y hy
    rcases List.mem_cons.mp hy with hh | hy
    · exact .inl (hh ▸ List.mem_cons_self)
    · exact (mem_added.mp hy).imp_left (List.mem_cons_of_mem _)
  refine ⟨fun k => ?_, fun i k hik y hi hk => ?_⟩
  · by_cases hk : k = j
    · subst hk
      rw [added, Function.update_self]
      exact (hl.ring k).addTail (hx k)
    · rw [added, Function.update_of_ne hk]
      exact (hl.ring k).addTail_away (hl.ring j) (hl.apart j k (Ne.symm hk)) (hx k)
  · rcases hsub hi with hi' | ⟨rfl, rfl⟩
    · rcases hsub hk with hk' | ⟨rfl, rfl⟩
      · exact hl.apart i k hik hi' hk'
      · exact hx i hi'
    · rcases hsub hk with hk' | ⟨-, rfl⟩
      · exact hx k hk'
      · exact hik rfl

theorem Tied.addTail (hl : l.Rings head lists) (j : ι)
    (hy : l.Tied head lists y) : (l.addTail x (head j)).Tied head (added lists x j) y := by
  by_cases hne : y = x
  · exact .inl ⟨j, mem_added.mpr (.inr ⟨hne, rfl⟩)⟩
  rcases hy with ⟨i, hi⟩ | ⟨hoff, hadj⟩
  · exact .inl ⟨i, mem_added.mpr (.inl hi)⟩
  · have hprev := (hl.ring j).prev_head
    refine .inr ⟨fun i hmem => ?_, ?_⟩
    · rcases List.mem_cons.mp hmem with hh | hmem
      · exact hoff i (hh ▸ List.mem_cons_self)
      · exact (mem_added.mp hmem).elim (fun h => hoff i (List.mem_cons_of_mem _ h))
          fun h => hne h.1
    · have hhead : y ≠ head j := fun he => hoff j (he ▸ List.mem_cons_self)
      exact (Adj.link hadj hne hhead).link (fun he => hoff j (he ▸ hprev)) hne

/-- The lists after a move. -/
def moved (lists : ι → List α) (x : α) (j : ι) : ι → List α := added (removed lists x) x j

theorem mem_moved : y ∈ moved lists x j i ↔ y ∈ lists i ∧ y ≠ x ∨ y = x ∧ i = j := by
  rw [moved, mem_added, mem_removed]

omit [DecidableEq ι] in
theorem unlink_of_alone (hnext : l.next x = x) (hprev : l.prev x = x) : l.unlink x = l := by
  rw [Links.unlink, Links.link, hnext, hprev]
  congr 1
  · exact Function.update_eq_self_iff.mpr hnext.symm
  · exact Function.update_eq_self_iff.mpr hprev.symm

omit [DecidableEq ι] in
theorem removed_of_off (hx : Off head lists x) : removed lists x = lists :=
  funext fun i => removed_eq_self fun h => hx i (List.mem_cons_of_mem _ h)

theorem Rings.moveTail (hl : l.Rings head lists) (hx : l.Tied head lists x) (j : ι) :
    (l.moveTail x (head j)).Rings head (moved lists x j) := by
  rcases hx with ⟨i, hi⟩ | ⟨hoff, hnext, hprev⟩
  · exact (hl.unlink hi).addTail (hl.off_removed hi) j
  · rw [Links.moveTail, unlink_of_alone hnext hprev, moved, removed_of_off hoff]
    exact hl.addTail hoff j

theorem Tied.moveTail (hl : l.Rings head lists) (hx : l.Tied head lists x) (j : ι)
    (hy : l.Tied head lists y) : (l.moveTail x (head j)).Tied head (moved lists x j) y := by
  by_cases hne : y = x
  · exact .inl ⟨j, mem_moved.mpr (.inr ⟨hne, rfl⟩)⟩
  rcases hx with ⟨i, hi⟩ | ⟨hoff, hnext, hprev⟩
  · exact (hy.unlink hl hi hne).addTail (hl.unlink hi) j
  · rw [Links.moveTail, unlink_of_alone hnext hprev, moved, removed_of_off hoff]
    exact hy.addTail hl j

/-! Iteration that is safe against removal of the current element. -/

variable {σ : Type*}

/-- Visit `pos` with its successor saved in `tmp`, for at most `fuel` tests of the loop. -/
def forEachSafe (links : σ → Links α) (body : α → σ → σ) (h : α) :
    ℕ → α → α → σ → Option σ
  | 0, _, _, _ => none
  | fuel + 1, pos, tmp, s =>
    if pos = h then some s
    else
      let s := body pos s
      forEachSafe links body h fuel tmp ((links s).next tmp) s

omit [DecidableEq ι] in
/-- `I rest s` says that `rest` is still to be visited. It is enough that the body keeps the
links behind the element it is at. -/
theorem forEachSafe_spec {links : σ → Links α} {body : α → σ → σ} (I : List α → σ → Prop)
    (hnext : ∀ x rest s, I (x :: rest) s → x ≠ h ∧ (links s).next x = rest.headD h)
    (hbody : ∀ x rest s, I (x :: rest) s → I rest (body x s)) (rest : List α) (s : σ)
    (hI : I rest s) (fuel : ℕ) (hfuel : rest.length < fuel) : ∃ s', I [] s' ∧
      forEachSafe links body h fuel (rest.headD h) ((links s).next (rest.headD h)) s = some s' := by
  induction rest generalizing s fuel with
  | nil =>
    obtain ⟨fuel, rfl⟩ := Nat.exists_eq_add_of_lt hfuel
    exact ⟨s, hI, by simp [forEachSafe]⟩
  | cons x rest ih =>
    obtain ⟨fuel, rfl⟩ : ∃ m, fuel = m + 1 := ⟨fuel - 1, by omega⟩
    obtain ⟨hx, hsucc⟩ := hnext x rest s hI
    obtain ⟨s', hI', hrun⟩ := ih (body x s) (hbody x rest s hI) fuel (by simpa using hfuel)
    refine ⟨s', hI', ?_⟩
    rw [List.headD_cons, forEachSafe, if_neg hx, hsucc]
    exact hrun

omit [DecidableEq ι] in
/-- What the loop leaves behind does not depend on the number of tests it is allowed. -/
theorem forEachSafe_unique {links : σ → Links α} {body : α → σ → σ} {pos tmp : α} {s s₁ s₂ : σ}
    {m n : ℕ} (h₁ : forEachSafe links body h m pos tmp s = some s₁)
    (h₂ : forEachSafe links body h n pos tmp s = some s₂) : s₁ = s₂ := by
  induction m generalizing n pos tmp s with
  | zero => cases h₁
  | succ m ih =>
    cases n with
    | zero => cases h₂
    | succ n =>
      rw [forEachSafe] at h₁ h₂
      split_ifs at h₁ h₂
      · exact Option.some.inj (h₁.symm.trans h₂)
      · exact ih h₁ h₂

end Links
