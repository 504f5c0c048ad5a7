import Mathlib.Data.List.Dedup
import Mathlib.Logic.Function.Basic

/-! Interleavings of a family of lists. Each entry of the interleaving is tagged with
the member of the family it comes from. -/

variable {ι α : Type*} [DecidableEq ι]

/-- `out` merges the lists of `f`, each kept in its own order. -/
def Interleaves (f : ι → List α) (out : List (ι × α)) : Prop :=
  ∀ i, (out.filter fun x => x.1 = i).map Prod.snd = f i

namespace Interleaves

variable {f : ι → List α} {i : ι} {a : α} {out : List (ι × α)}

theorem nil_iff : Interleaves f [] ↔ ∀ i, f i = [] :=
  ⟨fun h i => (h i).symm, fun h i => (h i).symm⟩

/-- The first entry is the head of its own list. -/
theorem uncons (h : Interleaves f ((i, a) :: out)) :
    ∃ l, f i = a :: l ∧ Interleaves (Function.update f i l) out := by
  refine ⟨(out.filter fun x => x.1 = i).map Prod.snd, ?_, fun j => ?_⟩
  · simpa using (h i).symm
  · by_cases hj : j = i
    · subst hj
      rw [Function.update_self]
    · rw [Function.update_of_ne hj, ← h j]
      simp [Ne.symm hj]

theorem cons {l : List α} (h : Interleaves (Function.update f i l) out) (hi : f i = a :: l) :
    Interleaves f ((i, a) :: out) := by
  intro j
  by_cases hj : j = i
  · subst hj
    simpa [hi] using h j
  · simpa [Ne.symm hj, Function.update_of_ne hj] using h j

/-- Induction along an interleaving: the family shrinks by one head at each entry. -/
@[elab_as_elim]
theorem induction {motive : ∀ f out, Interleaves (ι := ι) (α := α) f out → Prop}
    (nil : ∀ f (hf : ∀ i, f i = []), motive f [] (nil_iff.mpr hf))
    (cons : ∀ f i a l out (hi : f i = a :: l) (hout : Interleaves (Function.update f i l) out),
      motive (Function.update f i l) out hout → motive f ((i, a) :: out) (hout.cons hi))
    (h : Interleaves f out) : motive f out h := by
  induction out generalizing f with
  | nil => exact nil f (nil_iff.mp h)
  | cons x out ih =>
    obtain ⟨l, hi, hout⟩ := uncons (i := x.1) (a := x.2) h
    exact cons f x.1 x.2 l out hi hout (ih hout)

/-- What is merged of mapped lists comes from a merge of the lists. -/
theorem of_map {β : Type*} {g : ι → List β} {φ : β → α} {out : List (ι × α)}
    (h : Interleaves (fun i => (g i).map φ) out) :
    ∃ out', Interleaves g out' ∧ out = out'.map (Prod.map id φ) := by
  induction out generalizing g with
  | nil =>
    refine ⟨[], nil_iff.mpr fun i => ?_, rfl⟩
    simpa using nil_iff.mp h i
  | cons x out ih =>
    obtain ⟨l, hi, hout⟩ := uncons (i := x.1) (a := x.2) h
    obtain ⟨b, bs, hg, hb, rfl⟩ := List.map_eq_cons_iff.mp hi
    have hupdate : Function.update (fun i => (g i).map φ) x.1 (bs.map φ) =
        fun i => (Function.update g x.1 bs i).map φ := by
      funext j
      by_cases hj : j = x.1
      · subst hj
        simp
      · simp [hj]
    rw [hupdate] at hout
    obtain ⟨out', hout', rfl⟩ := ih hout
    exact ⟨(x.1, b) :: out', hout'.cons hg, by simp [hb]⟩

/-- A list still to come shows up in the interleaving. -/
theorem mem_tags (h : Interleaves f out) : i ∈ out.map Prod.fst ↔ f i ≠ [] := by
  rw [← h i, Ne, List.map_eq_nil_iff, List.filter_eq_nil_iff]
  simp

/-- When no list of the family is empty, each has one last entry. -/
theorem count_dedup (h : Interleaves f out) (hf : ∀ i, f i ≠ []) (i : ι) :
    (out.map Prod.fst).dedup.count i = 1 :=
  List.count_eq_one_of_mem (List.nodup_dedup _) (List.mem_dedup.mpr ((mem_tags h).mpr (hf i)))

end Interleaves
