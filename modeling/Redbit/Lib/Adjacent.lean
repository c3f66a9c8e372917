import Mathlib.Order.Basic
import Mathlib.Data.List.Zip
import Mathlib.Data.List.Pairwise
import Mathlib.Order.Lattice

/-!
# Neighbours in a sorted list

`l.zip l.tail` pairs every entry of a list with the one behind it.  In a list that is strictly
sorted by a key, two entries are neighbours exactly when no entry has a key between theirs
(`mem_zip_tail`), and selecting pairs of neighbours keeps the order of their first entries
(`map_fst_filter_zip_tail_sublist`).
-/

namespace Redbit.Lib

open scoped List

variable {α β : Type*}

lemma mem_zip_tail_cons {x y a b : α} {l : List α} :
    (a, b) ∈ (x :: y :: l).zip (x :: y :: l).tail ↔ a = x ∧ b = y ∨
      (a, b) ∈ (y :: l).zip (y :: l).tail := by
  rw [List.tail_cons, List.zip_cons_cons, List.mem_cons, Prod.mk.injEq, List.tail_cons]

/-- The neighbours of a list that is strictly sorted by `key`. -/
lemma mem_zip_tail [LinearOrder β] (key : α → β) {l : List α}
    (h : l.Pairwise fun a b => key a < key b) {a b : α} :
    (a, b) ∈ l.zip l.tail ↔
      a ∈ l ∧ b ∈ l ∧ key a < key b ∧ ∀ x ∈ l, ¬ (key a < key x ∧ key x < key b) := by
  induction l with
  | nil => simp
  | cons x l ih =>
    cases l with
    | nil =>
      simp only [List.tail_cons, List.zip_nil_right, List.not_mem_nil, List.mem_singleton, false_iff]
      rintro ⟨rfl, rfl, hlt, -⟩
      exact lt_irrefl _ hlt
    | cons y l =>
      obtain ⟨hx, hl⟩ := List.pairwise_cons.mp h
      rw [mem_zip_tail_cons, ih hl]
      constructor
      · rintro (⟨rfl, rfl⟩ | ⟨ha, hb, hlt, hnone⟩)
        · refine ⟨by simp, by simp, hx b (by simp), ?_⟩
          -- everything behind the second entry has a larger key
          intro z hz ⟨haz, hzb⟩
          rcases List.mem_cons.mp hz with rfl | hz
          · exact lt_irrefl _ haz
          · rcases List.mem_cons.mp hz with rfl | hz
            · exact lt_irrefl _ hzb
            · exact lt_asymm hzb ((List.pairwise_cons.mp hl).1 z hz)
        · refine ⟨List.mem_cons_of_mem _ ha, List.mem_cons_of_mem _ hb, hlt, ?_⟩
          intro z hz hbetween
          rcases List.mem_cons.mp hz with rfl | hz
          · exact lt_asymm hbetween.1 (hx a ha)
          · exact hnone z hz hbetween
      · rintro ⟨ha, hb, hlt, hnone⟩
        have hb' : b ∈ y :: l := by
          rcases List.mem_cons.mp hb with rfl | hb
          · rcases List.mem_cons.mp ha with rfl | ha
            · exact absurd hlt (lt_irrefl _)
            · exact absurd hlt (lt_asymm (hx a ha))
          · exact hb
        rcases List.mem_cons.mp ha with rfl | ha
        · left
          rcases List.mem_cons.mp hb' with rfl | hbl
          · exact ⟨rfl, rfl⟩
          · exact absurd ⟨hx y (by simp), (List.pairwise_cons.mp hl).1 b hbl⟩ (hnone y (by simp))
        · right
          exact ⟨ha, hb', hlt, fun z hz => hnone z (List.mem_cons_of_mem _ hz)⟩

lemma map_fst_zip_sublist (l : List α) (m : List β) : (l.zip m).map Prod.fst <+ l := by
  induction l generalizing m with
  | nil => simp
  | cons a l ih =>
    cases m with
    | nil => simp
    | cons b m => simpa using (ih m).cons_cons a

lemma map_fst_filter_zip_tail_sublist (p : α × α → Bool) (l : List α) :
    ((l.zip l.tail).filter p).map Prod.fst <+ l :=
  (List.filter_sublist.map Prod.fst).trans (map_fst_zip_sublist l l.tail)

end Redbit.Lib
