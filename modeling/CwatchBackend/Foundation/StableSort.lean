import Mathlib.Data.List.Sort
import Mathlib.Order.Basic

/-!
# Stable sorting

`sortBy f l` is the list `l` in ascending order of `f`, elements with equal `f` staying in the order
in which they stand in `l` (`filter_sortBy`).  So a relation that holds along the list still holds
among them (`sortBy_pairwise_of_pairwise`): the sorted list is arranged by `f` first and by the
place in `l` second.
-/

namespace Foundation

variable {α β γ : Type*} [LinearOrder β] (f : α → β)

/-- The elements in ascending order of `f`. -/
def sortBy (l : List α) : List α := l.mergeSort fun a b => decide (f a ≤ f b)

/-- Sorting rearranges the elements. -/
theorem sortBy_perm (l : List α) : (sortBy f l).Perm l := List.mergeSort_perm _ _

/-- Comparing the values of `f` is transitive. -/
theorem decide_le_trans (a b c : α) (hab : decide (f a ≤ f b) = true)
    (hbc : decide (f b ≤ f c) = true) : decide (f a ≤ f c) = true :=
  decide_eq_true ((of_decide_eq_true hab).trans (of_decide_eq_true hbc))

/-- Any two values of `f` can be compared. -/
theorem decide_le_total (a b : α) : (decide (f a ≤ f b) || decide (f b ≤ f a)) = true := by
  simpa using le_total (f a) (f b)

/-- The sorted list ascends. -/
theorem sortBy_pairwise (l : List α) : (sortBy f l).Pairwise fun a b => f a ≤ f b :=
  (List.pairwise_mergeSort (decide_le_trans f) (decide_le_total f) l).imp of_decide_eq_true

/-- Elements with equal `f` stay in the order of the list. -/
theorem filter_sortBy (l : List α) (c : β) :
    (sortBy f l).filter (fun a => f a = c) = l.filter fun a => f a = c := by
  have hequal : (l.filter fun a => f a = c).Pairwise fun a b => decide (f a ≤ f b) = true := by
    refine List.Pairwise.imp_of_mem ?_ (List.pairwise_of_forall (R := fun _ _ => True)
      fun _ _ => trivial)
    intro a b ha hb _
    have ha : f a = c := by simpa using (List.mem_filter.mp ha).2
    have hb : f b = c := by simpa using (List.mem_filter.mp hb).2
    exact decide_eq_true (ha.trans hb.symm).le
  have hsublist : (l.filter fun a => f a = c).Sublist (sortBy f l) :=
    List.sublist_mergeSort (decide_le_trans f) (decide_le_total f) hequal List.filter_sublist
  have hfilter := hsublist.filter fun a => decide (f a = c)
  rw [List.filter_filter] at hfilter
  simp only [Bool.and_self] at hfilter
  refine (hfilter.eq_of_length ?_).symm
  exact (((sortBy_perm f l).filter _).length_eq).symm

/-- A relation that holds along the list holds along the sorted list among elements with equal
`f`. -/
theorem sortBy_pairwise_of_pairwise {r : α → α → Prop} {l : List α} (h : l.Pairwise r) :
    (sortBy f l).Pairwise fun a b => f a < f b ∨ f a = f b ∧ r a b := by
  refine List.pairwise_iff_forall_sublist.mpr fun {a b} hab => ?_
  have hle : f a ≤ f b := List.pairwise_iff_forall_sublist.mp (sortBy_pairwise f l) hab
  rcases hle.lt_or_eq with hlt | heq
  · exact Or.inl hlt
  · refine Or.inr ⟨heq, ?_⟩
    have hequal := hab.filter fun x => decide (f x = f b)
    rw [filter_sortBy, List.filter_cons_of_pos (by simp [heq]),
      List.filter_cons_of_pos (by simp), List.filter_nil] at hequal
    exact List.pairwise_iff_forall_sublist.mp h (hequal.trans List.filter_sublist)

/-- Sorting images by `f` sorts what they are images of by the value of their image. -/
theorem sortBy_map (g : γ → α) (l : List γ) :
    sortBy f (l.map g) = (sortBy (fun c => f (g c)) l).map g := by
  rw [sortBy, sortBy]
  exact (List.map_mergeSort (f := g) fun _ _ _ _ => rfl).symm

end Foundation
