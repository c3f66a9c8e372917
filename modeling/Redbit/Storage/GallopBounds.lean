import Redbit.Storage.BufferOrder

/-!
# The bounds of the galloping search (`sort_buffer.rs`)

On a slice where what is before the pivot is a beginning, the two phases of the search close in on
its end from both sides: everything below `lo` is before the pivot (`gallopSlice_before`), nothing
from `hi` on is (`gallopSlice_after`).  The result is therefore a number of entries,
`gallopSlice_eq_countP`.

The search is run a second time with a read that fails from `n` on; it never comes to such a read
(`gallopReading_eq`), sorted or not.
-/

namespace Redbit.Storage

/-! ### The upper side of the window -/

section Gallop

variable {α : Type} {before : α → Bool} {s : List α} {n : ℕ} {hn : n ≤ s.length}

lemma Downward.not_before (hs : Downward before s) {i j : ℕ} (hij : i ≤ j) (hj : j < s.length)
    (h : before (s.get ⟨i, lt_of_le_of_lt hij hj⟩) = false) : before (s.get ⟨j, hj⟩) = false := by
  by_contra hb
  have hall := hs.take hj (by simpa using hb)
  have hmem : s.get ⟨i, lt_of_le_of_lt hij hj⟩ ∈ s.take (j + 1) :=
    List.mem_take_iff_getElem.mpr ⟨i, by omega, rfl⟩
  rw [hall _ hmem] at h
  cases h

/-- The exponential search stops at the end of the slice or at an entry that is not before the
pivot. -/
lemma gallopAhead_after {last ofs : ℕ} {hofs : 0 < ofs} :
    ∀ hlt : (gallopAhead before s n hn last ofs hofs).1 + (gallopAhead before s n hn last ofs
      hofs).2 < n,
      before (s.get ⟨_, lt_of_lt_of_le hlt hn⟩) = false := by
  induction last, ofs, hofs using gallopAhead.induct before s n hn with
  | case1 last ofs hofs hlt hb ih =>
    rw [gallopAhead, dif_pos hlt, if_pos hb]
    exact ih
  | case2 last ofs hofs hlt hb =>
    rw [gallopAhead, dif_pos hlt, if_neg hb]
    intro _
    simpa using hb
  | case3 last ofs hofs hlt =>
    rw [gallopAhead, dif_neg hlt]
    intro h
    exact absurd h hlt

lemma bisect_after (hs : Downward before s) {lo hi : ℕ} {hhi : hi ≤ n}
    (h : ∀ i, hi ≤ i → ∀ hin : i < n, before (s.get ⟨i, by omega⟩) = false) :
    ∀ i, bisect before s n hn lo hi hhi ≤ i → ∀ hin : i < n, before (s.get ⟨i, by omega⟩) = false := by
  induction lo, hi, hhi using bisect.induct before s n hn with
  | case1 lo hi hhi hlt hb ih =>
    rw [bisect, dif_pos hlt, if_pos hb]
    exact ih h
  | case2 lo hi hhi hlt hb ih =>
    rw [bisect, dif_pos hlt, if_neg hb]
    apply ih
    intro i hmid hin
    exact hs.not_before hmid (by omega) (by simpa using hb)
  | case3 lo hi hhi hlt =>
    rw [bisect, dif_neg hlt]
    intro i hlo hin
    exact h i (by omega) hin

/-- From the result on nothing of the slice is before the pivot. -/
lemma gallopSlice_after (hs : Downward before s) :
    ∀ i, gallopSlice before s n hn ≤ i → ∀ hin : i < n, before (s.get ⟨i, by omega⟩) = false := by
  unfold gallopSlice
  split
  · omega
  · split
    · next hb =>
      intro i hi hin
      exact hs.not_before hi (by omega) (by simpa using hb)
    · apply bisect_after hs
      intro i hi hin
      have hstop : (gallopAhead before s n hn 0 1 Nat.one_pos).1 +
          (gallopAhead before s n hn 0 1 Nat.one_pos).2 < n := by omega
      exact hs.not_before (by omega) (by omega) (gallopAhead_after hstop)

/-- The search counts the entries of `s[0..n)` before the pivot. -/
lemma gallopSlice_eq_countP (hs : Downward before s) :
    gallopSlice before s n hn = (s.take n).countP before := by
  have hle : gallopSlice before s n hn ≤ n := gallopSlice_le
  have hlow : ((s.take n).take (gallopSlice before s n hn)).countP before =
      gallopSlice before s n hn := by
    rw [List.take_take, min_eq_left hle, List.countP_eq_length.mpr (gallopSlice_before hs),
      List.length_take]
    omega
  have hhigh : ((s.take n).drop (gallopSlice before s n hn)).countP before = 0 := by
    rw [List.countP_eq_zero]
    intro x hx
    obtain ⟨j, hj, rfl⟩ := List.mem_iff_getElem.mp hx
    have hlt := hj
    rw [List.length_drop, List.length_take] at hlt
    have hnot : before (s.get ⟨gallopSlice before s n hn + j, by omega⟩) = false :=
      gallopSlice_after hs _ (Nat.le_add_right _ _) (by omega)
    simpa using hnot
  conv_rhs => rw [← List.take_append_drop (gallopSlice before s n hn) (s.take n),
    List.countP_append, hlow, hhigh]
  omega

end Gallop

/-! ### The reads of the search -/

section Reading

variable (read : ℕ → Option Bool) (n : ℕ)

/-- The exponential search over a read that may fail. -/
def gallopAheadReading (last ofs : ℕ) (hofs : 0 < ofs) : Option (ℕ × ℕ) :=
  if _h : last + ofs < n then
    match read (last + ofs) with
    | some true => gallopAheadReading (last + ofs) (2 * ofs) (by omega)
    | some false => some (last, ofs)
    | none => none
  else some (last, ofs)
termination_by n - last

/-- The binary search over a read that may fail. -/
def bisectReading (lo hi : ℕ) : Option ℕ :=
  if _h : lo < hi then
    match read (lo + (hi - lo) / 2) with
    | some true => bisectReading (lo + (hi - lo) / 2 + 1) hi
    | some false => bisectReading lo (lo + (hi - lo) / 2)
    | none => none
  else some lo
termination_by hi - lo

/-- The search over a read that may fail: the answer to "is the entry at this index before the
pivot", or `none` where the index is out of bounds. -/
def gallopReading : Option ℕ :=
  if n = 0 then some 0
  else do
    if !(← read 0) then return 0
    let ahead ← gallopAheadReading read n 0 1 Nat.one_pos
    bisectReading read (ahead.1 + 1) (min (ahead.1 + ahead.2) n)

variable {α : Type} (before : α → Bool) (s : List α)

/-- The read of `s` that fails from `n` on. -/
def readBelow (i : ℕ) : Option Bool := if i < n then s[i]?.map before else none

variable {n before s}

lemma readBelow_of_lt (hn : n ≤ s.length) {i : ℕ} (hi : i < n) :
    readBelow n before s i = some (before (s.get ⟨i, by omega⟩)) := by
  have hlen : i < s.length := by omega
  simp [readBelow, hi, hlen]

lemma gallopAheadReading_eq (hn : n ≤ s.length) {last ofs : ℕ} {hofs : 0 < ofs} :
    gallopAheadReading (readBelow n before s) n last ofs hofs =
      some (gallopAhead before s n hn last ofs hofs) := by
  induction last, ofs, hofs using gallopAhead.induct before s n hn with
  | case1 last ofs hofs hlt hb ih =>
    rw [gallopAheadReading, gallopAhead, dif_pos hlt, dif_pos hlt, if_pos hb,
      readBelow_of_lt hn hlt, hb]
    exact ih
  | case2 last ofs hofs hlt hb =>
    rw [gallopAheadReading, gallopAhead, dif_pos hlt, dif_pos hlt, if_neg hb, readBelow_of_lt hn hlt,
      Bool.eq_false_of_not_eq_true hb]
  | case3 last ofs hofs hlt => rw [gallopAheadReading, gallopAhead, dif_neg hlt, dif_neg hlt]

lemma bisectReading_eq (hn : n ≤ s.length) {lo hi : ℕ} {hhi : hi ≤ n} :
    bisectReading (readBelow n before s) lo hi = some (bisect before s n hn lo hi hhi) := by
  induction lo, hi, hhi using bisect.induct before s n hn with
  | case1 lo hi hhi hlt hb ih =>
    rw [bisectReading, bisect, dif_pos hlt, dif_pos hlt, if_pos hb, readBelow_of_lt hn (by omega), hb]
    exact ih
  | case2 lo hi hhi hlt hb ih =>
    rw [bisectReading, bisect, dif_pos hlt, dif_pos hlt, if_neg hb, readBelow_of_lt hn (by omega),
      Bool.eq_false_of_not_eq_true hb]
    exact ih
  | case3 lo hi hhi hlt => rw [bisectReading, bisect, dif_neg hlt, dif_neg hlt]

/-- No read of the search fails. -/
lemma gallopReading_eq (hn : n ≤ s.length) :
    gallopReading (readBelow n before s) n = some (gallopSlice before s n hn) := by
  unfold gallopReading gallopSlice
  split
  · rfl
  · rw [readBelow_of_lt hn (by omega)]
    cases hb : before (s.get ⟨0, by omega⟩) with
    | false => rfl
    | true =>
      rw [gallopAheadReading_eq hn]
      exact bisectReading_eq hn

end Reading

/-! ### The two searches -/

variable {K V : Type} [Ord K] [Std.TransOrd K]

/-- **The galloping searches.**  On a sorted slice the one counts the keys of `s[0..n)` below the
pivot, the other those not above it; neither reads an entry from `n` on, nor returns more than
`n`. -/
theorem gallop_bounds {s : List (K × V)} (hs : KeySorted s) {n : ℕ} (hn : n ≤ s.length) (pivot : K) :
    gallopRightSlice s n hn pivot = (s.take n).countP (fun kv => compare kv.1 pivot == .lt) ∧
      gallopLeftSlice s n hn pivot = (s.take n).countP (fun kv => (compare kv.1 pivot).isLE) ∧
      gallopReading (readBelow n (fun kv => compare kv.1 pivot == .lt) s) n =
        some (gallopRightSlice s n hn pivot) ∧
      gallopReading (readBelow n (fun kv => compare kv.1 pivot != .gt) s) n =
        some (gallopLeftSlice s n hn pivot) ∧
      gallopRightSlice s n hn pivot ≤ n ∧ gallopLeftSlice s n hn pivot ≤ n := by
  refine ⟨gallopSlice_eq_countP (downward_lt hs pivot), ?_, gallopReading_eq hn, gallopReading_eq hn,
    gallopSlice_le, gallopSlice_le⟩
  rw [gallopLeftSlice, gallopSlice_eq_countP (downward_le hs pivot)]
  congr 1
  funext kv
  cases compare kv.1 pivot <;> rfl

/-- A slice with the pivot three times, one of them beyond `n`. -/
theorem gallop_bounds_repeated :
    let s : List (ℕ × ℕ) := [(1, 0), (3, 0), (5, 0), (5, 1), (5, 2), (8, 0)]
    gallopRightSlice s 4 (by decide) 5 = 2 ∧ gallopLeftSlice s 4 (by decide) 5 = 4 := by
  intro s
  have hs : KeySorted s := by decide
  obtain ⟨hright, hleft, -, -, -, -⟩ := gallop_bounds hs (n := 4) (by decide) 5
  rw [hright, hleft]
  decide

end Redbit.Storage
