import Mathlib.Data.List.Sort
import Mathlib.Algebra.BigOperators.Group.List.Basic
import Mathlib.Algebra.Order.BigOperators.Group.List
import Mathlib.Algebra.Order.Ring.Nat

/-!
# Apportionment by largest remainder

`total` units are divided over weighted entries.  Each entry gets the whole part of its share; what
is left goes in single units to entries of positive weight with the largest remainders.  `Hamilton`
says what such a division guarantees, `hamilton_of_granted` that it is enough for the granted
entries to be closed upward in the order of the remainders, with ties broken by position.

The second half is the loop that grants: `mapFirst` changes the first `n` entries that qualify.
-/

namespace Redbit.Lib

/-! ### The division -/

/-- What a division of `total` over entries (weight, amount) guarantees. -/
structure Hamilton (total : ℕ) (cols : List (ℕ × ℕ)) : Prop where
  zero : ∀ c ∈ cols, c.1 = 0 → c.2 = 0
  quota : ∀ c ∈ cols, 0 < c.1 →
    c.2 = total * c.1 / (cols.map Prod.fst).sum ∨ c.2 = total * c.1 / (cols.map Prod.fst).sum + 1
  sum_eq : 0 < (cols.map Prod.fst).sum → (cols.map Prod.snd).sum = total
  mono : ∀ c ∈ cols, ∀ d ∈ cols, c.1 < d.1 → c.2 ≤ d.2
  ties : cols.Pairwise fun c d => c.1 = d.1 → d.2 ≤ c.2 ∧ c.2 ≤ d.2 + 1

section Division

variable (total W : ℕ)

/-- Whole parts and remainders make up the total of every entry. -/
lemma parts_add_remainders (ws : List ℕ) :
    (ws.map fun w => total * w / W).sum * W + (ws.map fun w => total * w % W).sum =
      ws.sum * total := by
  induction ws with
  | nil => simp
  | cons w ws ih =>
    have hw : total * w / W * W + total * w % W = w * total := by
      rw [Nat.mul_comm _ W, Nat.div_add_mod, Nat.mul_comm]
    rw [List.map_cons, List.map_cons, List.sum_cons, List.sum_cons, List.sum_cons, Nat.add_mul,
      Nat.add_mul]
    omega

/-- The remainders are below the sum of the weights, and there are none at weight zero. -/
lemma sum_mod_le (hW : 0 < W) (ws : List ℕ) :
    (ws.map fun w => total * w % W).sum ≤ W * ws.countP (0 < ·) := by
  induction ws with
  | nil => simp
  | cons w ws ih =>
    rcases Nat.eq_zero_or_pos w with rfl | hw
    · simpa using ih
    · have hcount : (w :: ws).countP (0 < ·) = ws.countP (0 < ·) + 1 := by simp [hw]
      have hlt := Nat.mod_lt (total * w) hW
      rw [List.map_cons, List.sum_cons, hcount, Nat.mul_add]
      omega

/-- The whole parts do not exceed the total, and what they leave goes round the entries of positive
weight at most once. -/
lemma leftover_le (total : ℕ) {ws : List ℕ} (hW : 0 < ws.sum) :
    (ws.map fun w => total * w / ws.sum).sum ≤ total ∧
      total - (ws.map fun w => total * w / ws.sum).sum ≤ ws.countP (0 < ·) := by
  have hsplit := parts_add_remainders total ws.sum ws
  have hrem := sum_mod_le total ws.sum hW ws
  rw [Nat.mul_comm _ ws.sum] at hsplit
  have hwhole : (ws.map fun w => total * w / ws.sum).sum ≤ total :=
    Nat.le_of_mul_le_mul_left (by omega) hW
  refine ⟨hwhole, Nat.le_of_mul_le_mul_left ?_ hW⟩
  rw [Nat.mul_sub]
  omega

end Division

section Granted

variable {α : Type*} {total : ℕ} {l : List α} {w : α → ℕ} {granted : α → Bool}

lemma sum_add_count (f : α → ℕ) (l : List α) :
    (l.map fun a => f a + if granted a then 1 else 0).sum = (l.map f).sum + l.countP granted := by
  induction l with
  | nil => simp
  | cons a l ih =>
    cases h : granted a with
    | true =>
      simp only [List.map_cons, List.sum_cons, h, if_true, List.countP_cons]
      omega
    | false =>
      simp only [List.map_cons, List.sum_cons, h, Bool.false_eq_true, if_false, List.countP_cons]
      omega

/-- Of two entries with the same whole part the heavier one has the larger remainder. -/
lemma mod_lt_mod_of_div_eq {W v u : ℕ} (htotal : 0 < total) (huv : u < v)
    (hdiv : total * u / W = total * v / W) : total * u % W < total * v % W := by
  have hu := Nat.div_add_mod (total * u) W
  have hv := Nat.div_add_mod (total * v) W
  have hlt : total * u < total * v := Nat.mul_lt_mul_of_pos_left huv htotal
  rw [hdiv] at hu
  omega

/-- **Largest remainder.**  A unit more for as many entries of positive weight as there are units
left, such that an entry with a larger remainder is served before one with a smaller, and an earlier
one of the same weight before a later. -/
theorem hamilton_of_granted (htotal : 0 < total) (hW : 0 < (l.map w).sum)
    (hcount : l.countP granted = total - (l.map fun a => total * w a / (l.map w).sum).sum)
    (hpos : ∀ a ∈ l, granted a = true → 0 < w a)
    (hup : ∀ a ∈ l, ∀ b ∈ l, granted a = true → 0 < w b →
      total * w a % (l.map w).sum < total * w b % (l.map w).sum → granted b = true)
    (hties : l.Pairwise fun a b => w a = w b → granted b = true → granted a = true) :
    Hamilton total (l.map fun a => (w a, total * w a / (l.map w).sum + if granted a then 1
      else 0)) := by
  have hfst : ((l.map fun a => (w a, total * w a / (l.map w).sum + if granted a then 1 else 0)).map
      Prod.fst).sum = (l.map w).sum := by
    rw [List.map_map]
    rfl
  constructor
  case zero =>
    intro c hc h0
    obtain ⟨a, ha, rfl⟩ := List.mem_map.mp hc
    have hw : w a = 0 := h0
    have hnot : granted a = false := by
      by_contra h
      have := hpos a ha (by simpa using h)
      omega
    simp [hw, hnot]
  case quota =>
    intro c hc _
    obtain ⟨a, ha, rfl⟩ := List.mem_map.mp hc
    rw [hfst]
    cases granted a
    · exact Or.inl rfl
    · exact Or.inr rfl
  case sum_eq =>
    intro _
    have hleft : (l.map fun a => total * w a / (l.map w).sum).sum ≤ total := by
      simpa [Function.comp_def] using (leftover_le total hW).1
    rw [List.map_map]
    simp only [Function.comp_def]
    rw [sum_add_count, hcount]
    omega
  case mono =>
    intro c hc d hd hlt
    obtain ⟨a, ha, rfl⟩ := List.mem_map.mp hc
    obtain ⟨b, hb, rfl⟩ := List.mem_map.mp hd
    have hlt' : w a < w b := hlt
    have hdiv : total * w a / (l.map w).sum ≤ total * w b / (l.map w).sum :=
      Nat.div_le_div_right (Nat.mul_le_mul_left _ hlt'.le)
    -- only where the whole parts agree can the extra unit of the lighter entry matter
    rcases Nat.lt_or_eq_of_le hdiv with hdiv | hdiv
    · dsimp only
      split <;> omega
    · have hrem := mod_lt_mod_of_div_eq htotal hlt' hdiv
      cases hga : granted a with
      | false => simp [hdiv]
      | true =>
        have hgb : granted b = true := hup a ha b hb hga (by omega) hrem
        simp [hdiv, hgb]
  case ties =>
    rw [List.pairwise_map]
    refine hties.imp ?_
    intro a b hab heq
    have heq' : w a = w b := heq
    have hab' := hab heq'
    dsimp only
    rw [heq']
    cases hga : granted a with
    | true => cases granted b <;> simp
    | false =>
      have hgb : granted b = false := by
        by_contra h
        rw [hab' (by simpa using h)] at hga
        cases hga
      simp [hgb]

end Granted

/-! ### Granting in order -/

section MapFirst

variable {α : Type*} (p : α → Bool) (f : α → α)

/-- Changes the first `n` entries with `p`. -/
def mapFirst : ℕ → List α → List α
  | 0, l => l
  | _ + 1, [] => []
  | n + 1, a :: l => if p a then f a :: mapFirst n l else a :: mapFirst (n + 1) l

variable {p f}

/-- The entries that `mapFirst` changes. -/
lemma mapFirst_eq_map [DecidableEq α] {l : List α} (hl : l.Nodup) (n : ℕ) :
    mapFirst p f n l = l.map fun a => if a ∈ (l.filter p).take n then f a else a := by
  induction l generalizing n with
  | nil => cases n <;> rfl
  | cons a l ih =>
    obtain ⟨ha, hl⟩ := List.nodup_cons.mp hl
    cases n with
    | zero => simp [mapFirst]
    | succ n =>
      cases hp : p a with
      | false =>
        have hnot : a ∉ (l.filter p).take (n + 1) := fun hm =>
          ha (List.mem_of_mem_filter (List.mem_of_mem_take hm))
        simp only [mapFirst, hp, Bool.false_eq_true, if_false, List.filter_cons, List.map_cons, hnot]
        rw [ih hl]
      | true =>
        simp only [mapFirst, hp, if_true, List.filter_cons, List.map_cons, List.take_succ_cons,
          List.mem_cons, true_or]
        rw [ih hl]
        congr 1
        apply List.map_congr_left
        intro b hb
        have hne : b ≠ a := fun h => ha (h ▸ hb)
        simp [hne]

/-- In a sorted list the beginning has all that stands before one of its entries. -/
lemma mem_take_of_before {r : α → α → Prop} {l : List α} (hl : l.Pairwise r) {n : ℕ} {a b : α}
    (ha : a ∈ l.take n) (hb : b ∈ l) (hnot : ¬ r a b) : b ∈ l.take n := by
  by_contra hb'
  have hdrop : b ∈ l.drop n := by
    have hmem : b ∈ l.take n ++ l.drop n := by rwa [List.take_append_drop]
    exact (List.mem_append.mp hmem).resolve_left hb'
  have hsplit : (l.take n ++ l.drop n).Pairwise r := by rwa [List.take_append_drop]
  exact hnot ((List.pairwise_append.mp hsplit).2.2 a ha b hdrop)

end MapFirst

end Redbit.Lib
