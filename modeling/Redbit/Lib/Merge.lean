import Mathlib.Data.List.Sort

/-!
# Stable merges

Facts about `List.merge` and `List.mergeSort` for an arbitrary comparison `le`: how a merge takes whole
blocks, and that it keeps the order of the entries of a class, first those of the left list and then
those of the right one.  A class is a predicate whose entries `le` does not tell apart.
-/

namespace Redbit.Lib

open scoped List

variable {α : Type} {le : α → α → Bool}

/-- A block that is not behind the head of the right list is taken first. -/
lemma merge_append_left {p : List α} {b : α} (h : ∀ x ∈ p, le x b = true) (q ys : List α) :
    List.merge (p ++ q) (b :: ys) le = p ++ List.merge q (b :: ys) le := by
  induction p with
  | nil => rfl
  | cons x p ih =>
    rw [List.cons_append, List.cons_merge_cons, if_pos (h x List.mem_cons_self),
      ih fun y hy => h y (List.mem_cons_of_mem _ hy), List.cons_append]

/-- A block of the right list that is before the head of the left one is taken first. -/
lemma merge_append_right {p : List α} {a : α} (h : ∀ y ∈ p, le a y = false) (xs q : List α) :
    List.merge (a :: xs) (p ++ q) le = p ++ List.merge (a :: xs) q le := by
  induction p with
  | nil => rfl
  | cons y p ih =>
    rw [List.cons_append, List.cons_merge_cons, if_neg (by simp [h y List.mem_cons_self]),
      ih fun z hz => h z (List.mem_cons_of_mem _ hz), List.cons_append]

section Stable

variable {c : α → Bool} (htrans : ∀ x y z, le x y = true → le y z = true → le x z = true)
  (hclass : ∀ x y, c x = true → c y = true → le x y = true)

include htrans hclass in
/-- **A merge is stable.** -/
lemma filter_merge {xs ys : List α} (hxs : xs.Pairwise fun x y => le x y = true) :
    (List.merge xs ys le).filter c = xs.filter c ++ ys.filter c := by
  induction xs generalizing ys with
  | nil => simp
  | cons x xs ihx =>
    obtain ⟨hx, hxs'⟩ := List.pairwise_cons.mp hxs
    induction ys with
    | nil => simp
    | cons y ys ihy =>
      rw [List.cons_merge_cons]
      split
      · rw [List.filter_cons, List.filter_cons, ihx hxs']
        split <;> rfl
      · next hle =>
        rw [List.filter_cons, ihy, List.filter_cons (x := y)]
        split
        · next hy =>
          -- an entry of the class in the left list would be behind `x` and not behind `y`
          have hnone : (x :: xs).filter c = [] := by
            refine List.filter_eq_nil_iff.mpr fun z hz hcz => hle ?_
            rcases List.mem_cons.mp hz with rfl | hz
            · exact hclass _ _ hcz hy
            · exact htrans _ _ _ (hx z hz) (hclass _ _ hcz hy)
          rw [hnone]
          rfl
        · rfl

include hclass in
/-- A merge sort keeps the order within a class, too. -/
lemma filter_mergeSort (htrans : ∀ x y z, le x y = true → le y z = true → le x z = true)
    (htotal : ∀ x y, (le x y || le y x) = true) (l : List α) :
    (l.mergeSort le).filter c = l.filter c := by
  have hsub : (l.filter c).Sublist (l.mergeSort le) := by
    refine List.sublist_mergeSort htrans htotal ?_ List.filter_sublist
    exact List.pairwise_filter.mpr (List.pairwise_of_forall_mem_list fun x _ y _ hx hy =>
      hclass x y hx hy)
  have hsub' := hsub.filter c
  rw [List.filter_filter] at hsub'
  simp only [Bool.and_self] at hsub'
  exact (hsub'.eq_of_length ((List.mergeSort_perm l le).filter c).length_eq.symm).symm

end Stable

end Redbit.Lib
