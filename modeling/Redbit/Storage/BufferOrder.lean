import Redbit.Lib.Merge
import Redbit.Storage.SortBuffer
import Mathlib.Data.List.Induction

/-!
# The order of the merge buffer (`sort_buffer.rs`)

Keys are compared by a total preorder.  On sorted runs the galloping merge is the stable merge of
the two (`mergeSortedByKeyGallop_eq_merge`), from which everything else follows:

* `takeSorted_sorts`: whatever was pushed comes back sorted, and every run in between is sorted;
* `takeSorted_stable`: the pairs of a key come back in the order in which they were pushed, as long
as only one of the runs that are left has them; `takeSorted_newest_first` is a buffer where two do.

Pushing keeps an order of age: the higher the level, the older are the pairs of a key (`aged`).  It
is the last step that ignores it.
-/

namespace Redbit.Storage

open Redbit.Lib
open scoped List

/-! ### Galloping search on a sorted slice -/

section Gallop

variable {α : Type} {before : α → Bool} {s : List α} {n : ℕ} {hn : n ≤ s.length}

/-- What is before the pivot is a beginning of the slice. -/
def Downward (before : α → Bool) (s : List α) : Prop := s.Pairwise fun x y => before y = true →
    before x = true

lemma Downward.take (hs : Downward before s) {m : ℕ} (hm : m < s.length)
    (h : before (s.get ⟨m, hm⟩) = true) : ∀ x ∈ s.take (m + 1), before x = true := by
  intro x hx
  obtain ⟨i, hi, rfl⟩ := List.mem_take_iff_getElem.mp hx
  rcases Nat.lt_succ_iff_lt_or_eq.mp (lt_of_lt_of_le hi (min_le_left _ _)) with hlt | rfl
  · exact List.pairwise_iff_getElem.mp hs i m (by omega) hm hlt h
  · exact h

lemma gallopAhead_before {last ofs : ℕ} {hofs : 0 < ofs} (hlast : last < s.length)
    (h : before (s.get ⟨last, hlast⟩) = true) :
    ∃ hlt, before (s.get ⟨(gallopAhead before s n hn last ofs hofs).1, hlt⟩) = true := by
  induction last, ofs, hofs using gallopAhead.induct before s n hn with
  | case1 last ofs hofs hlt hb ih =>
    rw [gallopAhead, dif_pos hlt, if_pos hb]
    exact ih _ hb
  | case2 last ofs hofs hlt hb =>
    rw [gallopAhead, dif_pos hlt, if_neg hb]
    exact ⟨hlast, h⟩
  | case3 last ofs hofs hlt =>
    rw [gallopAhead, dif_neg hlt]
    exact ⟨hlast, h⟩

lemma bisect_before (hs : Downward before s) {lo hi : ℕ} {hhi : hi ≤ n}
    (h : ∀ x ∈ s.take lo, before x = true) :
    ∀ x ∈ s.take (bisect before s n hn lo hi hhi), before x = true := by
  induction lo, hi, hhi using bisect.induct before s n hn with
  | case1 lo hi hhi hlt hb ih =>
    rw [bisect, dif_pos hlt, if_pos hb]
    exact ih (hs.take _ hb)
  | case2 lo hi hhi hlt hb ih =>
    rw [bisect, dif_pos hlt, if_neg hb]
    exact ih h
  | case3 lo hi hhi hlt =>
    rw [bisect, dif_neg hlt]
    exact h

/-- The search goes over nothing but what is before the pivot. -/
lemma gallopSlice_before (hs : Downward before s) :
    ∀ x ∈ s.take (gallopSlice before s n hn), before x = true := by
  unfold gallopSlice
  split
  · simp
  · split
    · simp
    · next hn0 hb =>
      have hfirst : before (s.get ⟨0, by omega⟩) = true := by simpa using hb
      obtain ⟨hlt, hahead⟩ : ∃ hlt, before
          (s.get ⟨(gallopAhead before s n hn 0 1 Nat.one_pos).1, hlt⟩) = true :=
        gallopAhead_before (by omega) hfirst
      exact bisect_before hs (hs.take hlt hahead)

end Gallop

/-! ### Sorted by key -/

variable {K V : Type} [Ord K]

/-- The order of two pairs. -/
def keyLE (a b : K × V) : Bool := (compare a.1 b.1).isLE

/-- The list is sorted by key. -/
def KeySorted (l : List (K × V)) : Prop := l.Pairwise fun a b => keyLE a b = true

instance (l : List (K × V)) : Decidable (KeySorted l) := inferInstanceAs (Decidable (l.Pairwise _))

/-- The pair has the key `k`. -/
def hasKey (k : K) (kv : K × V) : Bool := compare kv.1 k == .eq

variable [Std.TransOrd K]

omit [Std.TransOrd K] in
lemma keyLE_total [Std.OrientedOrd K] (a b : K × V) : (keyLE a b || keyLE b a) = true := by
  unfold keyLE
  cases h : compare a.1 b.1 with
  | lt => rfl
  | eq => rfl
  | gt => simp [Std.OrientedCmp.lt_of_gt h]

lemma keyLE_trans (a b c : K × V) (hab : keyLE a b = true) (hbc : keyLE b c = true) :
    keyLE a c = true :=
  Std.TransCmp.isLE_trans hab hbc

/-- Pairs of one key are a class. -/
lemma keyLE_of_hasKey (k : K) (a b : K × V) (ha : hasKey k a = true) (hb : hasKey k b = true) :
    keyLE a b = true := by
  have hak : compare a.1 k = .eq := by simpa [hasKey] using ha
  have hbk : compare b.1 k = .eq := by simpa [hasKey] using hb
  simp [keyLE, Std.TransCmp.eq_trans hak (Std.OrientedCmp.eq_symm hbk)]

lemma KeySorted.le_getLast {l : List (K × V)} (h : KeySorted l) (hne : l ≠ []) {x : K × V}
    (hx : x ∈ l) : keyLE x (l.getLast hne) = true := by
  obtain ⟨init, hinit⟩ : ∃ init, l = init ++ [l.getLast hne] :=
    ⟨_, (List.dropLast_append_getLast hne).symm⟩
  rw [hinit] at hx h
  rcases List.mem_append.mp hx with hx | hx
  · exact (List.pairwise_append.mp h).2.2 x hx _ List.mem_cons_self
  · rw [List.mem_singleton.mp hx]
    exact Std.ReflCmp.isLE_rfl

lemma KeySorted.head_le {l : List (K × V)} (h : KeySorted l) (hne : l ≠ []) {x : K × V} (hx : x ∈ l) :
    keyLE (l.head hne) x = true := by
  obtain ⟨tail, htail⟩ : ∃ tail, l = l.head hne :: tail := ⟨_, (List.cons_head_tail hne).symm⟩
  rw [htail] at hx h
  rcases List.mem_cons.mp hx with rfl | hx
  · exact Std.ReflCmp.isLE_rfl
  · exact (List.pairwise_cons.mp h).1 x hx

/-- A list behind another one. -/
lemma KeySorted.append {a b : List (K × V)} (ha : KeySorted a) (hb : KeySorted b) (hna : a ≠ [])
    (hnb : b ≠ []) (h : (compare (a.getLast hna).1 (b.head hnb).1).isLE) : KeySorted (a ++ b) := by
  refine List.pairwise_append.mpr ⟨ha, hb, fun x hx y hy => ?_⟩
  exact keyLE_trans _ _ _ (ha.le_getLast hna hx) (keyLE_trans _ _ _ h (hb.head_le hnb hy))

/-- Everything in `b` is before everything in `a`. -/
lemma KeySorted.lt_of_last {a b : List (K × V)} (ha : KeySorted a) (hb : KeySorted b) (hna : a ≠ [])
    (hnb : b ≠ []) (h : compare (b.getLast hnb).1 (a.head hna).1 = .lt) {x y : K × V} (hx : x ∈ a)
    (hy : y ∈ b) : compare y.1 x.1 = .lt :=
  Std.TransCmp.lt_of_isLE_of_lt (hb.le_getLast hnb hy)
    (Std.TransCmp.lt_of_lt_of_isLE h (ha.head_le hna hx))

/-! ### The merge of two sorted runs -/

omit [Std.TransOrd K] in
lemma not_keyLE_of_lt [Std.OrientedOrd K] {a b : K × V} (h : compare b.1 a.1 = .lt) :
    keyLE a b = false := by
  simp [keyLE, Std.OrientedCmp.gt_of_lt h]

lemma downward_le {s : List (K × V)} (hs : KeySorted s) (pivot : K) :
    Downward (fun kv => compare kv.1 pivot != .gt) s := by
  refine hs.imp fun {x y} hxy hy => ?_
  have hy' : (compare y.1 pivot).isLE = true := by simpa [Ordering.isLE_iff_ne_gt] using hy
  have hle : (compare x.1 pivot).isLE = true := Std.TransCmp.isLE_trans hxy hy'
  simpa [Ordering.isLE_iff_ne_gt] using hle

lemma downward_lt {s : List (K × V)} (hs : KeySorted s) (pivot : K) :
    Downward (fun kv => compare kv.1 pivot == .lt) s := by
  refine hs.imp fun {x y} hxy hy => ?_
  rw [beq_iff_eq] at hy ⊢
  exact Std.TransCmp.lt_of_isLE_of_lt hxy hy

lemma take_gallopLeft {s : List (K × V)} (hs : KeySorted s) (b : K × V) :
    ∀ x ∈ s.take (gallopLeftSlice s s.length le_rfl b.1), keyLE x b = true := by
  intro x hx
  have hb := gallopSlice_before (downward_le hs b.1) x hx
  simpa [keyLE, Ordering.isLE_iff_ne_gt] using hb

lemma take_gallopRight {s : List (K × V)} (hs : KeySorted s) (a : K × V) :
    ∀ y ∈ s.take (gallopRightSlice s s.length le_rfl a.1), keyLE a y = false := by
  intro y hy
  exact not_keyLE_of_lt (by simpa using gallopSlice_before (downward_lt hs a.1) y hy)

lemma mergeLoop_eq_merge (out ia ib : List (K × V)) (hia : KeySorted ia) (hib : KeySorted ib) :
    mergeLoop out ia ib = out ++ List.merge ia ib keyLE := by
  induction out, ia, ib using mergeLoop.induct with
  | case1 out ia => rw [mergeLoop, List.merge_right]
  | case2 out b ib => rw [mergeLoop, List.nil_merge]
  | case3 out a ia b ib endA h =>
    have htake : (a :: ia).take endA = a :: ia := by
      conv_rhs => rw [← List.take_append_drop endA (a :: ia), h, List.append_nil]
    rw [mergeLoop]
    split
    · have hblock := merge_append_left (take_gallopLeft hia b) [] ib
      rw [htake, List.append_nil, List.nil_merge] at hblock
      rw [htake, hblock, List.append_assoc]
    · rename_i h'
      rw [h] at h'
      cases h'
  | case4 out a ia b ib endA a' ia' h endB ih =>
    rw [mergeLoop]
    split
    · rename_i h'
      rw [h] at h'
      cases h'
    · rename_i a'' ia'' h'
      obtain ⟨rfl, rfl⟩ := List.cons.inj (h.symm.trans h')
      have hia' : KeySorted (a' :: ia') := by
        rw [← h]
        exact hia.sublist (List.drop_sublist _ _)
      have hib' : KeySorted ((b :: ib).drop endB) := hib.sublist (List.drop_sublist _ _)
      have hA := merge_append_left (take_gallopLeft hia b) (a' :: ia') ib
      have hB := merge_append_right (take_gallopRight hib a') ia' ((b :: ib).drop endB)
      rw [List.take_append_drop] at hB
      rw [← h, List.take_append_drop, h, hB] at hA
      rw [ih hia' hib', hA]
      simp only [List.append_assoc]
      rfl

/-- **On sorted runs the galloping merge is the stable merge.** -/
theorem mergeSortedByKeyGallop_eq_merge {a b : List (K × V)} (ha : KeySorted a) (hb : KeySorted b) :
    mergeSortedByKeyGallop a b = List.merge a b keyLE := by
  unfold mergeSortedByKeyGallop
  split
  · next hna => rw [hna, List.nil_merge]
  · next hna =>
    split
    · next hnb => rw [hnb, List.merge_right]
    · next hnb =>
      obtain ⟨a₀, a', rfl⟩ := List.exists_cons_of_ne_nil hna
      obtain ⟨b₀, b', rfl⟩ := List.exists_cons_of_ne_nil hnb
      split
      · next hle =>
        have hall : ∀ x ∈ a₀ :: a', keyLE x b₀ = true := fun x hx =>
          keyLE_trans _ _ _ (ha.le_getLast hna hx) hle
        have hblock := merge_append_left hall [] b'
        rw [List.append_nil, List.nil_merge] at hblock
        exact hblock.symm
      · split
        · next hlt =>
          have hall : ∀ y ∈ b₀ :: b', keyLE a₀ y = false :=
            fun y hy => not_keyLE_of_lt (ha.lt_of_last hb hna hnb hlt List.mem_cons_self hy)
          have hblock := merge_append_right hall a' []
          rw [List.append_nil, List.merge_right] at hblock
          exact hblock.symm
        · exact (mergeLoop_eq_merge [] _ _ ha hb).trans (List.nil_append _)

namespace Run

lemma merge_pairs {a b : Run K V} (ha : KeySorted a.pairs) (hb : KeySorted b.pairs) :
    (a.merge b).pairs = List.merge a.pairs b.pairs keyLE :=
  mergeSortedByKeyGallop_eq_merge ha hb

lemma keySorted_merge {a b : Run K V} (ha : KeySorted a.pairs) (hb : KeySorted b.pairs) :
    KeySorted (a.merge b).pairs := by
  rw [merge_pairs ha hb]
  exact List.pairwise_merge keyLE_trans keyLE_total _ _ ha hb

lemma filter_merge_pairs {a b : Run K V} (ha : KeySorted a.pairs) (hb : KeySorted b.pairs) (k : K) :
    (a.merge b).pairs.filter (hasKey k) = a.pairs.filter (hasKey k) ++ b.pairs.filter (hasKey k) := by
  rw [merge_pairs ha hb]
  exact filter_merge keyLE_trans (keyLE_of_hasKey k) ha

lemma keySorted_extend {a b : Run K V} (ha : KeySorted a.pairs) (hb : KeySorted b.pairs)
    (h : (compare a.lastKey b.firstKey).isLE) : KeySorted (a.extend b).pairs :=
  ha.append hb a.nonempty b.nonempty h

end Run

/-- **The galloping merge.**  On sorted lists it is the merge that takes the head of `a` unless the
head of `b` has a smaller key: sorted, a rearrangement of both, and for every key the entries of `a`
stand before those of `b`, in the orders they had. -/
theorem gallop_merge_stable {a b : List (K × V)} (ha : KeySorted a) (hb : KeySorted b) :
    mergeSortedByKeyGallop a b = List.merge a b keyLE ∧ KeySorted (mergeSortedByKeyGallop a b) ∧
      (mergeSortedByKeyGallop a b).Perm (a ++ b) ∧
      ∀ k, (mergeSortedByKeyGallop a b).filter (hasKey k) = a.filter (hasKey k) ++
        b.filter (hasKey k) := by
  have heq := mergeSortedByKeyGallop_eq_merge ha hb
  refine ⟨heq, ?_, mergeSortedByKeyGallop_perm a b, ?_⟩
  · rw [heq]
    exact List.pairwise_merge keyLE_trans keyLE_total _ _ ha hb
  · intro k
    rw [heq]
    exact filter_merge keyLE_trans (keyLE_of_hasKey k) ha

/-- Equal keys within and across the lists, neither of which is before the other. -/
theorem gallop_merge_stable_overlap :
    let a : List (ℕ × ℕ) := [(1, 10), (2, 20), (2, 21), (5, 22)]
    let b : List (ℕ × ℕ) := [(2, 30), (3, 31), (5, 32)]
    KeySorted a ∧ KeySorted b ∧
      mergeSortedByKeyGallop a b = [(1, 10), (2, 20), (2, 21), (2, 30), (3, 31), (5, 22), (5, 32)] ∧
      (mergeSortedByKeyGallop a b).filter (hasKey 5) = [(5, 22), (5, 32)] := by
  intro a b
  have ha : KeySorted a := by decide
  have hb : KeySorted b := by decide
  obtain ⟨hmerge, -, -, hstable⟩ := gallop_merge_stable ha hb
  refine ⟨ha, hb, ?_, ?_⟩
  · rw [hmerge]
    simp +decide [a, b]
  · rw [hstable]
    decide

/-- No pair of the second list has the key of a pair of the first. -/
lemma filter_eq_nil_or {a b : List (K × V)} (h : ∀ x ∈ a, ∀ y ∈ b, compare x.1 y.1 ≠ .eq) (k : K) :
    a.filter (hasKey k) = [] ∨ b.filter (hasKey k) = [] := by
  by_contra hno
  obtain ⟨hna, hnb⟩ := not_or.mp hno
  obtain ⟨x, hx⟩ := List.exists_mem_of_ne_nil _ hna
  obtain ⟨y, hy⟩ := List.exists_mem_of_ne_nil _ hnb
  obtain ⟨hxa, hxk⟩ := List.mem_filter.mp hx
  obtain ⟨hyb, hyk⟩ := List.mem_filter.mp hy
  have hxk' : compare x.1 k = .eq := by simpa [hasKey] using hxk
  have hyk' : compare y.1 k = .eq := by simpa [hasKey] using hyk
  exact h x hxa y hyb (Std.TransCmp.eq_trans hxk' (Std.OrientedCmp.eq_symm hyk'))

omit [Std.TransOrd K] in
/-- Where only one of two lists has rows under a key, the two can change places. -/
lemma filter_append_comm {a b : List (K × V)} {k : K}
    (h : a.filter (hasKey k) = [] ∨ b.filter (hasKey k) = []) :
    a.filter (hasKey k) ++ b.filter (hasKey k) = b.filter (hasKey k) ++ a.filter (hasKey k) := by
  rcases h with h | h <;> simp [h]

/-! ### Pushing -/

namespace MergeBuffer

/-- All runs are sorted. -/
def Sorted (buf : MergeBuffer K V) : Prop := ∀ run ∈ buf.runs, KeySorted run.pairs

/-- All pairs of the buffer, the highest level first. -/
def aged (levels : List (Option (Run K V))) : List (K × V) :=
  match levels with
  | [] => []
  | slot :: levels => aged levels ++ (slot.map Run.pairs).getD []

omit [Ord K] [Std.TransOrd K] in
lemma aged_append (below above : List (Option (Run K V))) :
    aged (below ++ above) = aged above ++ aged below := by
  induction below with
  | nil => simp [aged]
  | cons slot below ih => simp [aged, ih]

omit [Std.TransOrd K] in
lemma sorted_cons {slot : Option (Run K V)} {levels : List (Option (Run K V))} :
    Sorted ⟨slot :: levels⟩ ↔ (∀ run, slot = some run → KeySorted run.pairs) ∧ Sorted ⟨levels⟩ := by
  cases slot with
  | none => simp [Sorted, runs]
  | some run => simp [Sorted, runs]

lemma carry_sorted {levels : List (Option (Run K V))} {run : Run K V} (h : Sorted ⟨levels⟩)
    (hrun : KeySorted run.pairs) : Sorted ⟨carry levels run⟩ := by
  induction levels generalizing run with
  | nil => simpa [carry, Sorted, runs] using hrun
  | cons slot levels ih =>
    obtain ⟨hslot, hlevels⟩ := sorted_cons.mp h
    cases slot with
    | none =>
      rw [carry, sorted_cons]
      exact ⟨fun r hr => Option.some.inj hr ▸ hrun, hlevels⟩
    | some existing =>
      have hex := hslot existing rfl
      rw [carry]
      split
      · next hle =>
        rw [sorted_cons]
        exact ⟨fun r hr => Option.some.inj hr ▸ Run.keySorted_extend hex hrun hle, hlevels⟩
      · split
        · next hlt =>
          rw [sorted_cons]
          exact ⟨fun r hr => Option.some.inj hr ▸ Run.keySorted_extend hrun hex (by rw [hlt]; rfl),
            hlevels⟩
        · rw [sorted_cons]
          exact ⟨by simp, ih hlevels (Run.keySorted_merge hex hrun)⟩

/-- A run that is carried upward is behind everything that has its keys. -/
lemma filter_carry {levels : List (Option (Run K V))} {run : Run K V} (h : Sorted ⟨levels⟩)
    (hrun : KeySorted run.pairs) (k : K) :
    (aged (carry levels run)).filter (hasKey k) =
      (aged levels).filter (hasKey k) ++ run.pairs.filter (hasKey k) := by
  induction levels generalizing run with
  | nil => simp [carry, aged]
  | cons slot levels ih =>
    obtain ⟨hslot, hlevels⟩ := sorted_cons.mp h
    cases slot with
    | none => simp [carry, aged]
    | some existing =>
      have hex := hslot existing rfl
      rw [carry]
      split
      · simp [aged, Run.extend]
      · split
        · next hlt =>
          have happart := filter_append_comm (filter_eq_nil_or (k := k) fun x hx y hy heq => by
            have hxy := hex.lt_of_last hrun existing.nonempty run.nonempty hlt hy hx
            rw [heq] at hxy
            cases hxy)
          simp only [aged, Run.extend, Option.map_some, Option.getD_some, List.filter_append,
            List.append_assoc, happart]
        · simp [aged, ih hlevels (Run.keySorted_merge hex hrun), Run.filter_merge_pairs hex hrun]

lemma mergeSorted_sorted {buf : MergeBuffer K V} (h : buf.Sorted) {run : List (K × V)}
    (hrun : KeySorted run) :
    (buf.mergeSorted run).Sorted := by
  unfold mergeSorted Run.ofList
  by_cases hnil : run = []
  · simpa [hnil] using h
  · simp only [hnil, dite_false]
    exact carry_sorted h hrun

lemma filter_mergeSorted {buf : MergeBuffer K V} (h : buf.Sorted) {run : List (K × V)}
    (hrun : KeySorted run) (k : K) :
    (aged (buf.mergeSorted run).levels).filter (hasKey k) =
      (aged buf.levels).filter (hasKey k) ++ run.filter (hasKey k) := by
  unfold mergeSorted Run.ofList
  by_cases hnil : run = []
  · simp [hnil]
  · simp only [hnil, dite_false]
    exact filter_carry h hrun k

lemma keySorted_mergeSort (run : List (K × V)) :
    KeySorted (run.mergeSort fun a b => (compare a.1 b.1).isLE) :=
  show KeySorted (run.mergeSort keyLE) from List.pairwise_mergeSort keyLE_trans keyLE_total run

lemma filter_mergeUnsorted {buf : MergeBuffer K V} (h : buf.Sorted) (run : List (K × V)) (k : K) :
    (aged (buf.mergeUnsorted run).levels).filter (hasKey k) =
      (aged buf.levels).filter (hasKey k) ++ run.filter (hasKey k) := by
  rw [mergeUnsorted, filter_mergeSorted h (keySorted_mergeSort run)]
  have hsort : (run.mergeSort keyLE).filter (hasKey k) = run.filter (hasKey k) :=
    filter_mergeSort (keyLE_of_hasKey k) keyLE_trans keyLE_total run
  exact congrArg _ hsort

/-! ### Appending -/

omit [Ord K] [Std.TransOrd K] in
lemma pairwise_occupied (buf : MergeBuffer K V) : buf.occupied.Pairwise fun e e' => e.1 < e'.1 := by
  have hidx : buf.levels.zipIdx.Pairwise fun e e' => e.2 < e'.2 := by
    rw [← List.pairwise_map (f := Prod.snd) (R := (· < ·)), List.zipIdx_map_snd]
    exact List.pairwise_lt_range'
  refine List.Pairwise.filterMap _ ?_ hidx
  rintro ⟨slot, i⟩ ⟨slot', i'⟩ hlt e he e' he'
  obtain ⟨r, -, rfl⟩ := Option.map_eq_some_iff.mp he
  obtain ⟨r', -, rfl⟩ := Option.map_eq_some_iff.mp he'
  exact hlt

/-- No run reaches further than the greatest one, and those at lower levels not even as far. -/
lemma maxRun_greatest (e : ℕ × Run K V) (es : List (ℕ × Run K V))
    (h : (e :: es).Pairwise fun e e' => e.1 < e'.1) :
    ∀ x ∈ e :: es, (compare x.2.lastKey (maxRun e es).2.lastKey).isLE ∧
      (x.1 < (maxRun e es).1 → compare x.2.lastKey (maxRun e es).2.lastKey = .lt) := by
  induction es using List.reverseRecOn with
  | nil =>
    intro x hx
    rw [List.mem_singleton.mp hx]
    exact ⟨Std.ReflCmp.isLE_rfl, fun hlt => absurd hlt (lt_irrefl _)⟩
  | append_singleton es y ih =>
    rw [← List.cons_append] at h
    obtain ⟨hes, -, hy⟩ := List.pairwise_append.mp h
    have hmem : maxRun e es ∈ e :: es := maxRun_mem e es
    have hstep : maxRun e (es ++ [y]) = if compare y.2.lastKey (maxRun e es).2.lastKey = .gt then y
        else maxRun e es :=
      List.foldl_append
    intro x hx
    rw [← List.cons_append] at hx
    rw [hstep]
    rcases List.mem_append.mp hx with hx | hx
    · obtain ⟨hle, hlt⟩ := ih hes x hx
      split
      · next hgt =>
        have hxy := Std.TransCmp.lt_of_isLE_of_lt hle (Std.OrientedCmp.lt_of_gt hgt)
        exact ⟨by rw [hxy]; rfl, fun _ => hxy⟩
      · exact ⟨hle, hlt⟩
    · rw [List.mem_singleton.mp hx]
      split
      · exact ⟨Std.ReflCmp.isLE_rfl, fun hlt => absurd hlt (lt_irrefl _)⟩
      · next hgt =>
        refine ⟨Ordering.isLE_iff_ne_gt.mpr hgt, fun hlt => ?_⟩
        exact absurd hlt (not_lt.mpr (hy _ hmem y List.mem_cons_self).le)

omit [Ord K] [Std.TransOrd K] in
lemma mem_occupied_below {buf : MergeBuffer K V} {below above : List (Option (Run K V))}
    (hl : buf.levels = below ++ above) {r : Run K V} (hr : some r ∈ below) :
    ∃ i < below.length, (i, r) ∈ buf.occupied := by
  obtain ⟨i, hi, hget⟩ := List.mem_iff_getElem.mp hr
  refine ⟨i, hi, List.mem_filterMap.mpr ⟨(some r, i), ?_, rfl⟩⟩
  rw [List.mem_zipIdx_iff_getElem?, hl, List.getElem?_append_left hi,
    List.getElem?_eq_getElem hi, hget]

omit [Ord K] [Std.TransOrd K] in
lemma mem_aged {levels : List (Option (Run K V))} {kv : K × V} (h : kv ∈ aged levels) :
    ∃ r, some r ∈ levels ∧ kv ∈ r.pairs := by
  induction levels with
  | nil => cases h
  | cons slot levels ih =>
    rcases List.mem_append.mp h with h | h
    · obtain ⟨r, hr, hkv⟩ := ih h
      exact ⟨r, List.mem_cons_of_mem _ hr, hkv⟩
    · cases slot with
      | none => cases h
      | some r => exact ⟨r, List.mem_cons_self, h⟩

/-- The run that is appended to: a level with only smaller keys below it. -/
lemma append_target {buf : MergeBuffer K V} (h : buf.Sorted) {e : ℕ × Run K V}
    {es : List (ℕ × Run K V)} (hocc : buf.occupied = e :: es) {r : Run K V} (hr : KeySorted r.pairs)
    (hle : compare (maxRun e es).2.lastKey r.firstKey ≠ .gt) :
    ∃ below above, buf.levels = below ++ some (maxRun e es).2 :: above ∧
      below.length = (maxRun e es).1 ∧
      ∀ x ∈ aged below, ∀ y ∈ r.pairs, compare x.1 y.1 ≠ .eq := by
  obtain ⟨below, above, hl, hlen⟩ := levels_of_mem_occupied (hocc ▸ maxRun_mem e es)
  refine ⟨below, above, hl, hlen, fun x hx y hy heq => ?_⟩
  obtain ⟨b, hb, hxb⟩ := mem_aged hx
  obtain ⟨i, hi, hmem⟩ := mem_occupied_below hl hb
  have hbsorted : KeySorted b.pairs := by
    refine h b ?_
    rw [← map_occupied]
    exact List.mem_map.mpr ⟨_, hmem, rfl⟩
  have hlt := ((maxRun_greatest e es (hocc ▸ pairwise_occupied buf)) _ (hocc ▸ hmem)).2 (by omega)
  -- `x` is at most the last key of its run, which is less than the greatest one
  have hxlt : compare x.1 (maxRun e es).2.lastKey = .lt :=
    Std.TransCmp.lt_of_isLE_of_lt (hbsorted.le_getLast b.nonempty hxb) hlt
  have hxy : compare x.1 y.1 = .lt :=
    Std.TransCmp.lt_of_lt_of_isLE (Std.TransCmp.lt_of_lt_of_isLE hxlt
      (Ordering.isLE_iff_ne_gt.mpr hle)) (hr.head_le r.nonempty hy)
  rw [heq] at hxy
  cases hxy

omit [Ord K] [Std.TransOrd K] in
lemma runs_append (below above : List (Option (Run K V))) :
    runs ⟨below ++ above⟩ = runs ⟨below⟩ ++ runs ⟨above⟩ :=
  List.filterMap_append

lemma appendSorted_sorted {buf : MergeBuffer K V} (h : buf.Sorted) {run : List (K × V)}
    (hrun : KeySorted run) :
    (buf.appendSorted run).Sorted := by
  unfold appendSorted Run.ofList
  by_cases hnil : run = []
  · simpa [hnil] using h
  · simp only [hnil, dite_false]
    split
    · simpa [Sorted, runs] using hrun
    · next e es hocc =>
      split
      · next hle =>
        obtain ⟨below, above, hl, hlen, -⟩ := append_target h hocc (r := ⟨run, hnil⟩) hrun hle
        have hparts : ∀ r ∈ runs ⟨below⟩ ++ (maxRun e es).2 :: runs ⟨above⟩, KeySorted r.pairs := by
          intro r hr
          refine h r ?_
          rw [runs, hl]
          simpa [runs] using hr
        have hm := hparts (maxRun e es).2 (by simp)
        rw [← hlen, hl, List.set_append_right _ _ le_rfl, Nat.sub_self, List.set_cons_zero]
        intro r hr
        rw [runs_append] at hr
        rcases List.mem_append.mp hr with hr | hr
        · exact hparts r (List.mem_append_left _ hr)
        · rcases List.mem_cons.mp hr with rfl | hr
          · exact Run.keySorted_extend hm hrun (Ordering.isLE_iff_ne_gt.mpr hle)
          · exact hparts r (List.mem_append_right _ (List.mem_cons_of_mem _ hr))
      · exact mergeSorted_sorted h hrun

lemma filter_appendSorted {buf : MergeBuffer K V} (h : buf.Sorted) {run : List (K × V)}
    (hrun : KeySorted run) (k : K) :
    (aged (buf.appendSorted run).levels).filter (hasKey k) =
      (aged buf.levels).filter (hasKey k) ++ run.filter (hasKey k) := by
  unfold appendSorted Run.ofList
  by_cases hnil : run = []
  · simp [hnil]
  · simp only [hnil, dite_false]
    split
    · next hocc =>
      have hnone : ∀ kv, kv ∉ aged buf.levels := by
        intro kv hkv
        obtain ⟨r, hr, -⟩ := mem_aged hkv
        have hl : buf.levels = buf.levels ++ [] := (List.append_nil _).symm
        obtain ⟨i, -, hi⟩ := mem_occupied_below hl hr
        rw [hocc] at hi
        cases hi
      rw [List.eq_nil_iff_forall_not_mem.mpr hnone]
      rfl
    · next e es hocc =>
      split
      · next hle =>
        obtain ⟨below, above, hl, hlen, happart⟩ := append_target h hocc (r := ⟨run, hnil⟩) hrun hle
        rw [← hlen, hl, List.set_append_right _ _ le_rfl, Nat.sub_self, List.set_cons_zero,
          aged_append, aged_append]
        have hcomm := filter_append_comm (filter_eq_nil_or happart k)
        simp only [aged, Run.extend, Option.map_some, Option.getD_some, List.filter_append,
          List.append_assoc, hcomm]
      · exact filter_mergeSorted h hrun k

/-! ### Draining -/

/-- Runs of which none reaches into the next one. -/
lemma keySorted_flatten {rs : List (Run K V)} (hrs : ∀ r ∈ rs, KeySorted r.pairs)
    (h : disjointChain rs = true) : KeySorted (rs.map Run.pairs).flatten := by
  induction rs with
  | nil => exact List.Pairwise.nil
  | cons a rs ih =>
    cases rs with
    | nil => simpa using hrs a List.mem_cons_self
    | cons b rs =>
      rw [disjointChain, Bool.and_eq_true] at h
      have hrest := ih (fun r hr => hrs r (List.mem_cons_of_mem _ hr)) h.2
      rw [List.map_cons, List.flatten_cons]
      have hne : ((b :: rs).map Run.pairs).flatten ≠ [] := by simp [b.nonempty]
      refine (hrs a List.mem_cons_self).append hrest a.nonempty hne ?_
      have hhead : ((b :: rs).map Run.pairs).flatten.head hne = b.pairs.head b.nonempty := by
        simp [b.nonempty]
      rw [hhead]
      exact h.1

omit [Ord K] [Std.TransOrd K] in
/-- One step of the reduction: the two runs that are taken, and the rest. -/
lemma pop_two {heap rest rest' : List (ℕ × Run K V)} {a b : ℕ × Run K V}
    (hpop : popHeap heap = some (a, rest)) (hpop' : popHeap rest = some (b, rest')) :
    heap.Perm (a :: b :: rest') :=
  (popHeap_perm hpop).symm.trans ((popHeap_perm hpop').symm.cons a)

lemma sorted_merge_two {heap rest' : List (ℕ × Run K V)} {a b : ℕ × Run K V} {nextIdx : ℕ}
    (hp : heap.Perm (a :: b :: rest')) (h : ∀ e ∈ heap, KeySorted e.2.pairs) :
    ∀ e ∈ (nextIdx, a.2.merge b.2) :: rest', KeySorted e.2.pairs := by
  intro e he
  rcases List.mem_cons.mp he with rfl | he
  · exact Run.keySorted_merge (h a (hp.mem_iff.mpr (by simp))) (h b (hp.mem_iff.mpr (by simp)))
  · exact h e (hp.mem_iff.mpr (by simp [he]))

lemma keySorted_reduce {heap : List (ℕ × Run K V)} {nextIdx : ℕ}
    (h : ∀ e ∈ heap, KeySorted e.2.pairs) : KeySorted (reduce heap nextIdx) := by
  fun_induction reduce heap nextIdx with
  | case1 heap nextIdx hpop => exact List.Pairwise.nil
  | case2 heap nextIdx a rest hpop hpop' => exact h a ((popHeap_perm hpop).subset List.mem_cons_self)
  | case3 heap nextIdx a rest hpop b rest' hpop' ih =>
    exact ih (sorted_merge_two (pop_two hpop hpop') h)

lemma takeSorted_sorted {buf : MergeBuffer K V} (h : buf.Sorted) : KeySorted buf.takeSorted.1 := by
  have hrs : ∀ r ∈ buf.runs.mergeSort fun a b => (compare a.firstKey b.firstKey).isLE,
      KeySorted r.pairs :=
    fun r hr => h r (List.mem_mergeSort.mp hr)
  unfold takeSorted
  split
  · exact List.Pairwise.nil
  · next run hrun => exact h run (by simp [hrun])
  · dsimp only
    split
    · next hchain => exact keySorted_flatten hrs hchain
    · refine keySorted_reduce fun e he => ?_
      obtain ⟨x, hx, rfl⟩ := List.mem_map.mp he
      exact hrs x.1 (List.fst_mem_of_mem_zipIdx hx)

/-- Lists of which at most one is not empty: their order does not matter. -/
lemma flatten_eq_of_perm {α : Type} {l l' : List (List α)} (hp : l.Perm l')
    (h : l.Pairwise fun a b => a = [] ∨ b = []) : l.flatten = l'.flatten := by
  have hsymm : ∀ {a b : List α}, a = [] ∨ b = [] → b = [] ∨ a = [] := fun h => h.symm
  induction hp with
  | nil => rfl
  | cons x hp ih => rw [List.flatten_cons, List.flatten_cons, ih (List.pairwise_cons.mp h).2]
  | swap x y l =>
    rcases (List.pairwise_cons.mp h).1 x List.mem_cons_self with rfl | rfl <;> simp
  | trans hp₁ hp₂ ih₁ ih₂ => rw [ih₁ h, ih₂ ((hp₁.pairwise_iff hsymm).mp h)]

lemma filter_reduce {heap : List (ℕ × Run K V)} {nextIdx : ℕ}
    (h : ∀ e ∈ heap, KeySorted e.2.pairs) (k : K)
    (happart : (heap.map fun e => e.2.pairs.filter (hasKey k)).Pairwise fun a b => a = [] ∨ b = []) :
    (reduce heap nextIdx).filter (hasKey k) =
      (heap.map fun e => e.2.pairs.filter (hasKey k)).flatten := by
  have hsymm : ∀ {a b : List (K × V)}, a = [] ∨ b = [] → b = [] ∨ a = [] := fun h => h.symm
  fun_induction reduce heap nextIdx with
  | case1 heap nextIdx hpop =>
    rw [popHeap_eq_none hpop]
    rfl
  | case2 heap nextIdx a rest hpop hpop' =>
    have hp := (popHeap_perm hpop).map fun e => e.2.pairs.filter (hasKey k)
    rw [flatten_eq_of_perm hp.symm happart, popHeap_eq_none hpop']
    simp
  | case3 heap nextIdx a rest hpop b rest' hpop' ih =>
    have htwo := pop_two hpop hpop'
    have hp := htwo.map fun e => e.2.pairs.filter (hasKey k)
    have ha := h a (htwo.mem_iff.mpr (by simp))
    have hb := h b (htwo.mem_iff.mpr (by simp))
    obtain ⟨hka, hrest⟩ := List.pairwise_cons.mp ((hp.pairwise_iff hsymm).mp happart)
    obtain ⟨hkb, hfar⟩ := List.pairwise_cons.mp hrest
    rw [ih (sorted_merge_two htwo h) ?_, flatten_eq_of_perm hp happart]
    · simp [Run.filter_merge_pairs ha hb]
    · refine List.pairwise_cons.mpr ⟨fun f hf => ?_, hfar⟩
      dsimp only at hka hkb ⊢
      rw [Run.filter_merge_pairs ha hb]
      rcases hka f (List.mem_cons_of_mem _ hf) with hka | hf'
      · rcases hkb f hf with hkb | hf'
        · exact Or.inl (by rw [hka, hkb]; rfl)
        · exact Or.inr hf'
      · exact Or.inr hf'

/-- At most one of the runs has pairs of the key `k`. -/
def Apart (buf : MergeBuffer K V) (k : K) : Prop :=
  buf.runs.Pairwise fun r r' => r.pairs.filter (hasKey k) = [] ∨ r'.pairs.filter (hasKey k) = []

omit [Ord K] [Std.TransOrd K] in
lemma aged_eq_flatten (levels : List (Option (Run K V))) :
    aged levels = (((runs ⟨levels⟩).map Run.pairs).reverse).flatten := by
  induction levels with
  | nil => rfl
  | cons slot levels ih =>
    rw [aged, ih]
    cases slot <;> simp [runs]

/-- The pairs of a key that only one run has stay in their order. -/
lemma filter_takeSorted {buf : MergeBuffer K V} (h : buf.Sorted) {k : K} (happart : buf.Apart k) :
    buf.takeSorted.1.filter (hasKey k) = (aged buf.levels).filter (hasKey k) := by
  have hclass : (buf.runs.map fun r => r.pairs.filter (hasKey k)).Pairwise fun a b =>
      a = [] ∨ b = [] :=
    List.pairwise_map.mpr happart
  have haged : (aged buf.levels).filter (hasKey k) =
      (buf.runs.map fun r => r.pairs.filter (hasKey k)).flatten := by
    rw [aged_eq_flatten, flatten_eq_of_perm (List.reverse_perm _).symm hclass, List.filter_flatten]
    simp [List.map_reverse, Function.comp_def]
  have hperm := (List.mergeSort_perm buf.runs fun a b => (compare a.firstKey b.firstKey).isLE).map
    fun r => r.pairs.filter (hasKey k)
  have hsorted : ∀ r ∈ buf.runs.mergeSort fun a b => (compare a.firstKey b.firstKey).isLE,
      KeySorted r.pairs :=
    fun r hr => h r (List.mem_mergeSort.mp hr)
  rw [haged, flatten_eq_of_perm hperm.symm hclass]
  unfold takeSorted
  split
  · next hnil => simp [hnil]
  · next run hrun => simp [hrun]
  · dsimp only
    split
    · rw [List.filter_flatten, List.map_map]
      rfl
    · have hzip : (((buf.runs.mergeSort fun a b => (compare a.firstKey b.firstKey).isLE).zipIdx.map
          fun e => (e.2, e.1)).map fun e => e.2.pairs.filter (hasKey k)) =
          (buf.runs.mergeSort fun a b => (compare a.firstKey b.firstKey).isLE).map
            fun r => r.pairs.filter (hasKey k) := by
        rw [List.map_map]
        conv_rhs => rw [← List.zipIdx_map_fst 0 (List.mergeSort _ _), List.map_map]
        rfl
      have hclass' := (hperm.pairwise_iff (R := fun a b => a = [] ∨ b = []) fun h => h.symm).mpr hclass
      rw [filter_reduce (fun e he => ?_) k (by rw [hzip]; exact hclass'), hzip]
      obtain ⟨x, hx, rfl⟩ := List.mem_map.mp he
      exact hsorted x.1 (List.fst_mem_of_mem_zipIdx hx)

/-! ### Whole runs -/

/-- A call of the buffer. -/
inductive Op (K V : Type) where
  | mergeUnsorted (run : List (K × V))
  | appendSorted (run : List (K × V))
  | mergeSorted (run : List (K × V))
  | takeSorted

/-- The runs that are said to be sorted are. -/
def Op.Valid : Op K V → Prop
  | .mergeUnsorted _ => True
  | .appendSorted run => KeySorted run
  | .mergeSorted run => KeySorted run
  | .takeSorted => True

instance : ∀ op : Op K V, Decidable op.Valid
  | .mergeUnsorted _ => inferInstanceAs (Decidable True)
  | .appendSorted run => inferInstanceAs (Decidable (KeySorted run))
  | .mergeSorted run => inferInstanceAs (Decidable (KeySorted run))
  | .takeSorted => inferInstanceAs (Decidable True)

/-- The buffer after a call. -/
def exec (buf : MergeBuffer K V) : Op K V → MergeBuffer K V
  | .mergeUnsorted run => buf.mergeUnsorted run
  | .appendSorted run => buf.appendSorted run
  | .mergeSorted run => buf.mergeSorted run
  | .takeSorted => buf.takeSorted.2

/-- The pairs that have been pushed and not been taken, in the order in which they were pushed. -/
def pending (pushed : List (K × V)) : Op K V → List (K × V)
  | .mergeUnsorted run => pushed ++ run
  | .appendSorted run => pushed ++ run
  | .mergeSorted run => pushed ++ run
  | .takeSorted => []

/-- What holds between two calls. -/
structure Holds (buf : MergeBuffer K V) (pushed : List (K × V)) : Prop where
  sorted : buf.Sorted
  perm : buf.contents.Perm pushed
  stable : ∀ k, (aged buf.levels).filter (hasKey k) = pushed.filter (hasKey k)

lemma Holds.exec {buf : MergeBuffer K V} {pushed : List (K × V)} (h : Holds buf pushed)
    {op : Op K V} (hop : op.Valid) : Holds (exec buf op) (pending pushed op) := by
  cases op with
  | mergeUnsorted run =>
    refine ⟨mergeSorted_sorted h.sorted (keySorted_mergeSort run), ?_, fun k => ?_⟩
    · exact (mergeUnsorted_perm buf run).trans (h.perm.append_right run)
    · rw [pending, List.filter_append, ← h.stable k]
      exact filter_mergeUnsorted h.sorted run k
  | appendSorted run =>
    refine ⟨appendSorted_sorted h.sorted hop, ?_, fun k => ?_⟩
    · exact (appendSorted_perm buf run).trans (h.perm.append_right run)
    · rw [pending, List.filter_append, ← h.stable k]
      exact filter_appendSorted h.sorted hop k
  | mergeSorted run =>
    refine ⟨mergeSorted_sorted h.sorted hop, ?_, fun k => ?_⟩
    · exact (mergeSorted_perm buf run).trans (h.perm.append_right run)
    · rw [pending, List.filter_append, ← h.stable k]
      exact filter_mergeSorted h.sorted hop k
  | takeSorted => exact ⟨by simp [Sorted, MergeBuffer.exec, runs, new], List.Perm.refl _, fun k => rfl⟩

omit [Std.TransOrd K] in
lemma holds_fromSorted {sorted : List (K × V)} (h : KeySorted sorted) :
    Holds (fromSorted sorted) sorted := by
  refine ⟨?_, by rw [contents_fromSorted], fun k => ?_⟩
  · unfold fromSorted Run.ofList
    by_cases hnil : sorted = []
    · simp [hnil, Sorted, runs, new]
    · simpa [hnil, Sorted, runs] using h
  · unfold fromSorted Run.ofList
    by_cases hnil : sorted = []
    · simp [hnil, aged, new]
    · simp [hnil, aged]

lemma holds_run {sorted : List (K × V)} (h : KeySorted sorted) {ops : List (Op K V)}
    (hops : ∀ op ∈ ops, op.Valid) :
    Holds (ops.foldl exec (fromSorted sorted)) (ops.foldl pending sorted) := by
  induction ops using List.reverseRecOn with
  | nil => exact holds_fromSorted h
  | append_singleton ops op ih =>
    rw [List.foldl_append, List.foldl_append]
    exact (ih fun op' hop' => hops op' (List.mem_append_left _ hop')).exec (hops op (by simp))

/-- **The buffer sorts everything it was given.** -/
theorem takeSorted_sorts {sorted : List (K × V)} (h : KeySorted sorted) {ops : List (Op K V)}
    (hops : ∀ op ∈ ops, op.Valid) :
    let buf := ops.foldl exec (fromSorted sorted)
    (∀ slot ∈ buf.levels, ∀ run, slot = some run → run.pairs ≠ [] ∧ KeySorted run.pairs) ∧
      KeySorted buf.takeSorted.1 ∧ buf.takeSorted.1.Perm (ops.foldl pending sorted) ∧
        buf.takeSorted.2.isEmpty = true := by
  intro buf
  have hbuf := holds_run h hops
  refine ⟨?_, takeSorted_sorted hbuf.sorted, (takeSorted_perm buf).trans hbuf.perm, rfl⟩
  rintro slot hslot run rfl
  exact ⟨run.nonempty, hbuf.sorted run (List.mem_filterMap.mpr ⟨_, hslot, rfl⟩)⟩

/-- An overlapping run, merged into the first one and carried upward, and a third one of the first
key. -/
def newestFirst : List (Op ℕ ℕ) := [.mergeSorted [(1, 0), (3, 0)], .mergeSorted [(2, 1)],
    .mergeSorted [(1, 2)]]

lemma newestFirst_valid : ∀ op ∈ newestFirst, op.Valid := by decide

theorem takeSorted_sorts_newestFirst :
    let buf := newestFirst.foldl exec (fromSorted [])
    (∀ slot ∈ buf.levels, ∀ run, slot = some run → run.pairs ≠ [] ∧ KeySorted run.pairs) ∧
      KeySorted buf.takeSorted.1 ∧ buf.takeSorted.1.Perm [(1, 0), (3, 0), (2, 1), (1, 2)] ∧
      buf.takeSorted.2.isEmpty = true :=
  takeSorted_sorts List.Pairwise.nil newestFirst_valid

/-- **Pairs of a key come back in the order in which they were pushed**, if only one of the runs
that are left has pairs of this key. -/
theorem takeSorted_stable {sorted : List (K × V)} (h : KeySorted sorted) {ops : List (Op K V)}
    (hops : ∀ op ∈ ops, op.Valid) {k : K} (happart : (ops.foldl exec (fromSorted sorted)).Apart k) :
    (ops.foldl exec (fromSorted sorted)).takeSorted.1.filter (hasKey k) =
      (ops.foldl pending sorted).filter (hasKey k) := by
  have hbuf := holds_run h hops
  rw [filter_takeSorted hbuf.sorted happart, hbuf.stable]

lemma levels_newestFirst : ∃ hne hne', newestFirst.foldl exec (fromSorted []) =
    ⟨[some ⟨[(1, 2)], hne⟩, some ⟨[(1, 0), (2, 1), (3, 0)], hne'⟩]⟩ := by
  have hmerge : mergeSortedByKeyGallop [(1, 0), (3, 0)] [(2, 1)] =
      [(1, 0), (2, 1), ((3 : ℕ), (0 : ℕ))] := by
    rw [mergeSortedByKeyGallop_eq_merge (by decide) (by decide),
      List.cons_merge_cons_pos _ _ _ (by decide),
      List.cons_merge_cons_neg _ _ _ (by decide), List.merge_right]
  refine ⟨by simp, by simp, ?_⟩
  simp +decide [newestFirst, exec, mergeSorted, Run.ofList, fromSorted, new, carry, Run.merge, hmerge]

/-- **The newest pair comes first**: the run of the third call has the same first key as the merged
one, and is at a lower level. -/
theorem takeSorted_newest_first : (newestFirst.foldl exec (fromSorted [])).takeSorted.1.filter
    (hasKey 1) ≠
    (newestFirst.foldl pending []).filter (hasKey 1) := by
  obtain ⟨hne, hne', hbuf⟩ := levels_newestFirst
  have hsort : List.mergeSort [(⟨[(1, 2)], hne⟩ : Run ℕ ℕ), ⟨[(1, 0), (2, 1), (3, 0)], hne'⟩]
      (fun a b => (compare a.firstKey b.firstKey).isLE) =
        [⟨[(1, 2)], hne⟩, ⟨[(1, 0), (2, 1), (3, 0)], hne'⟩] :=
    List.mergeSort_of_pairwise (by simp [Run.firstKey])
  have hchain : disjointChain [(⟨[(1, 2)], hne⟩ : Run ℕ ℕ), ⟨[(1, 0), (2, 1), (3, 0)], hne'⟩] =
    true := rfl
  rw [hbuf]
  simp only [takeSorted, runs, List.filterMap_cons, id_eq, List.filterMap_nil, hsort]
  rw [if_pos hchain]
  show List.filter (hasKey 1) [(1, 2), (1, 0), (2, 1), (3, 0)] ≠ _
  decide

/-- The key of the second call is in one run only. -/
theorem takeSorted_stable_newestFirst :
    (newestFirst.foldl exec (fromSorted [])).takeSorted.1.filter (hasKey 2) = [(2, 1)] := by
  obtain ⟨hne, hne', hbuf⟩ := levels_newestFirst
  have happart : (newestFirst.foldl exec (fromSorted [])).Apart 2 := by
    rw [hbuf]
    exact List.pairwise_pair.mpr (Or.inl rfl)
  exact takeSorted_stable List.Pairwise.nil newestFirst_valid happart

end MergeBuffer

end Redbit.Storage
