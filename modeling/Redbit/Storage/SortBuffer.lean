import Mathlib.Order.Compare
import Mathlib.Data.List.Sort

/-!
# The merge buffer (`sort_buffer.rs`)

A writer collects the rows of a transaction in runs sorted by key, at most one at each level; a new
run is carried upward by merging, and the flush merges all runs into one.  The merge of two runs
skips ahead by a galloping search.  Keys are compared by `compare`, of which the merge needs only
that it is oriented.

Whatever is pushed, nothing is lost and nothing invented: `takeSorted_perm`.
-/

namespace Redbit.Storage

open scoped List

/-! ### Galloping search -/

section Gallop

variable {α : Type} (before : α → Bool) (s : List α) (n : ℕ) (hn : n ≤ s.length)

/-- The exponential search: `last` is an index whose entry is before the pivot, `ofs` the next
stride. -/
def gallopAhead (last ofs : ℕ) (hofs : 0 < ofs) : ℕ × ℕ :=
  if h : last + ofs < n then
    if before (s.get ⟨last + ofs, by omega⟩) then gallopAhead (last + ofs) (2 * ofs) (by omega)
    else (last, ofs)
  else (last, ofs)
termination_by n - last

/-- The binary search in `[lo, hi)`. -/
def bisect (lo hi : ℕ) (hhi : hi ≤ n) : ℕ :=
  if h : lo < hi then
    if before (s.get ⟨lo + (hi - lo) / 2, by omega⟩) then bisect (lo + (hi - lo) / 2 + 1) hi hhi
    else bisect lo (lo + (hi - lo) / 2) (by omega)
  else lo
termination_by hi - lo

/-- The shape of the two searches: the first index of `s[0..n)` whose entry is not before the pivot. -/
def gallopSlice : ℕ :=
  if h : n = 0 then 0
  else if !before (s.get ⟨0, by omega⟩) then 0
  else
    let ahead := gallopAhead before s n hn 0 1 Nat.one_pos
    bisect before s n hn (ahead.1 + 1) (min (ahead.1 + ahead.2) n) (min_le_right _ _)

variable {before s n hn}

lemma gallopAhead_lt {last ofs : ℕ} {hofs : 0 < ofs} (h : last < n) :
    (gallopAhead before s n hn last ofs hofs).1 < n := by
  induction last, ofs, hofs using gallopAhead.induct before s n hn with
  | case1 last ofs hofs hlt hb ih =>
    rw [gallopAhead, dif_pos hlt, if_pos hb]
    exact ih hlt
  | case2 last ofs hofs hlt hb =>
    rw [gallopAhead, dif_pos hlt, if_neg hb]
    exact h
  | case3 last ofs hofs hlt =>
    rw [gallopAhead, dif_neg hlt]
    exact h

lemma le_bisect {lo hi : ℕ} {hhi : hi ≤ n} : lo ≤ bisect before s n hn lo hi hhi := by
  induction lo, hi, hhi using bisect.induct before s n hn with
  | case1 lo hi hhi hlt hb ih =>
    rw [bisect, dif_pos hlt, if_pos hb]
    omega
  | case2 lo hi hhi hlt hb ih =>
    rw [bisect, dif_pos hlt, if_neg hb]
    exact ih
  | case3 lo hi hhi hlt => rw [bisect, dif_neg hlt]

lemma bisect_le {lo hi : ℕ} {hhi : hi ≤ n} (h : lo ≤ n) : bisect before s n hn lo hi hhi ≤ n := by
  induction lo, hi, hhi using bisect.induct before s n hn with
  | case1 lo hi hhi hlt hb ih =>
    rw [bisect, dif_pos hlt, if_pos hb]
    exact ih (by omega)
  | case2 lo hi hhi hlt hb ih =>
    rw [bisect, dif_pos hlt, if_neg hb]
    exact ih h
  | case3 lo hi hhi hlt =>
    rw [bisect, dif_neg hlt]
    exact h

/-- The blocks that the merge moves are there: it does not run out of entries. -/
lemma gallopSlice_le : gallopSlice before s n hn ≤ n := by
  unfold gallopSlice
  split
  · omega
  · split
    · omega
    · have hlt : (gallopAhead before s n hn 0 1 Nat.one_pos).1 < n := gallopAhead_lt (by omega)
      exact bisect_le hlt

/-- The search moves where the first entry is before the pivot. -/
lemma gallopSlice_pos (h : 0 < n) (hb : before (s.get ⟨0, by omega⟩) = true) :
    0 < gallopSlice before s n hn := by
  rw [gallopSlice, dif_neg (by omega), hb]
  exact lt_of_lt_of_le (Nat.succ_pos _) le_bisect

end Gallop

variable {K V : Type} [Ord K]

/-- `gallop_right_slice`: the lower bound of the pivot. -/
def gallopRightSlice (s : List (K × V)) (n : ℕ) (hn : n ≤ s.length) (pivot : K) : ℕ :=
  gallopSlice (fun kv => compare kv.1 pivot == .lt) s n hn

/-- `gallop_left_slice`: the upper bound of the pivot. -/
def gallopLeftSlice (s : List (K × V)) (n : ℕ) (hn : n ≤ s.length) (pivot : K) : ℕ :=
  gallopSlice (fun kv => compare kv.1 pivot != .gt) s n hn

/-! ### The merge of two runs -/

section Merge

/-- Each turn of the loop takes something: where the search in `a` stands still, the search in `b`
moves. -/
lemma gallop_progress [Std.OrientedOrd K] {a b a' : K × V} {ia ib ia' : List (K × V)}
    (h : (a :: ia).drop (gallopLeftSlice (a :: ia) (a :: ia).length le_rfl b.1) = a' :: ia') :
    (a' :: ia').length + ((b :: ib).drop
      (gallopRightSlice (b :: ib) (b :: ib).length le_rfl a'.1)).length <
      (a :: ia).length + (b :: ib).length := by
  have hlen := congrArg List.length h
  rw [List.length_drop] at hlen
  rw [List.length_drop]
  rcases Nat.eq_zero_or_pos (gallopLeftSlice (a :: ia) (a :: ia).length le_rfl b.1) with h0 | hpos
  · rw [h0, List.drop_zero] at h
    obtain ⟨rfl, rfl⟩ := List.cons.inj h
    have hgt : compare a.1 b.1 = .gt := by
      by_contra hne
      have hpos : 0 < gallopLeftSlice (a :: ia) (a :: ia).length le_rfl b.1 :=
        gallopSlice_pos (by simp) (by simpa using hne)
      omega
    have hlt : compare b.1 a.1 = .lt := Std.OrientedCmp.lt_of_gt hgt
    have hpos : 0 < gallopRightSlice (b :: ib) (b :: ib).length le_rfl a.1 :=
      gallopSlice_pos (by simp) (by simpa using hlt)
    have := List.length_pos_of_ne_nil (List.cons_ne_nil b ib)
    omega
  · have := List.length_pos_of_ne_nil (List.cons_ne_nil a' ia')
    have := List.length_pos_of_ne_nil (List.cons_ne_nil b ib)
    omega

/-- The loop of `merge_sorted_by_key_gallop`: of `ia` the entries up to the head of `ib`, then of
`ib` the entries below the head of `ia`, until one of the two is used up. -/
def mergeLoop [Std.OrientedOrd K] (out : List (K × V)) : List (K × V) → List (K × V) → List (K × V)
  | ia, [] => out ++ ia
  | [], b :: ib => out ++ (b :: ib)
  | a :: ia, b :: ib =>
    let endA := gallopLeftSlice (a :: ia) (a :: ia).length le_rfl b.1
    match _h : (a :: ia).drop endA with
    | [] => out ++ (a :: ia).take endA ++ (b :: ib)
    | a' :: ia' =>
      let endB := gallopRightSlice (b :: ib) (b :: ib).length le_rfl a'.1
      mergeLoop (out ++ (a :: ia).take endA ++ (b :: ib).take endB) (a' :: ia') ((b :: ib).drop endB)
termination_by ia ib => ia.length + ib.length
decreasing_by exact gallop_progress ‹_›

variable [Std.OrientedOrd K]

/-- `merge_sorted_by_key_gallop`. -/
def mergeSortedByKeyGallop (a b : List (K × V)) : List (K × V) :=
  if ha : a = [] then b
  else if hb : b = [] then a
  else if (compare (a.getLast ha).1 (b.head hb).1).isLE then a ++ b
  else if compare (b.getLast hb).1 (a.head ha).1 = .lt then b ++ a
  else mergeLoop [] a b

lemma mergeLoop_perm (out ia ib : List (K × V)) : (mergeLoop out ia ib).Perm (out ++ (ia ++ ib)) := by
  induction out, ia, ib using mergeLoop.induct with
  | case1 out ia => rw [mergeLoop, List.append_nil]
  | case2 out b ib => rw [mergeLoop, List.nil_append]
  | case3 out a ia b ib endA h =>
    have htake : (a :: ia).take endA = a :: ia := by
      conv_rhs => rw [← List.take_append_drop endA (a :: ia), h, List.append_nil]
    rw [mergeLoop]
    split
    · rw [htake, List.append_assoc]
    · rename_i h'
      rw [h] at h'
      cases h'
  | case4 out a ia b ib endA a' ia' h endB ih =>
    rw [mergeLoop]
    split
    · rename_i h'
      rw [h] at h'
      cases h'
    · rename_i a'' ia'' h'
      obtain ⟨rfl, rfl⟩ := List.cons.inj (h.symm.trans h')
      refine ih.trans ?_
      -- the four pieces in order of `out`, then those of `ia`, then those of `ib`
      have hia : (a :: ia).take endA ++ a' :: ia' = a :: ia := by rw [← h, List.take_append_drop]
      have hib : (b :: ib).take endB ++ (b :: ib).drop endB = b :: ib := List.take_append_drop _ _
      conv_rhs => rw [← hia, ← hib]
      simp only [List.append_assoc]
      refine List.Perm.append_left _ (List.Perm.append_left _ ?_)
      rw [← List.append_assoc, ← List.append_assoc]
      exact List.perm_append_comm.append_right _

lemma mergeSortedByKeyGallop_perm (a b : List (K × V)) :
    (mergeSortedByKeyGallop a b).Perm (a ++ b) := by
  unfold mergeSortedByKeyGallop
  split
  · next ha => rw [ha, List.nil_append]
  · split
    · next hb => rw [hb, List.append_nil]
    · split
      · exact List.Perm.refl _
      · split
        · exact List.perm_append_comm
        · simpa using mergeLoop_perm [] a b

end Merge

/-! ### Runs -/

/-- A run of the buffer; the code never keeps an empty one. -/
structure Run (K V : Type) where
  pairs : List (K × V)
  nonempty : pairs ≠ []

namespace Run

/-- `first_key`. -/
def firstKey (r : Run K V) : K := (r.pairs.head r.nonempty).1

/-- `last_key`. -/
def lastKey (r : Run K V) : K := (r.pairs.getLast r.nonempty).1

/-- `a.extend(b)`. -/
def extend (a b : Run K V) : Run K V := ⟨a.pairs ++ b.pairs, by simp [a.nonempty]⟩

/-- The galloping merge of two runs. -/
def merge [Std.OrientedOrd K] (a b : Run K V) : Run K V where
  pairs := mergeSortedByKeyGallop a.pairs b.pairs
  nonempty := by
    intro h
    have hp := mergeSortedByKeyGallop_perm a.pairs b.pairs
    rw [h] at hp
    exact a.nonempty (List.append_eq_nil_iff.mp hp.nil_eq.symm).1

/-- The run of a list, if it is not empty. -/
def ofList (l : List (K × V)) : Option (Run K V) := if h : l = [] then none else some ⟨l, h⟩

end Run

/-! ### The buffer -/

/-- `MergeBuffer`: at most one run at each level. -/
structure MergeBuffer (K V : Type) where
  levels : List (Option (Run K V))

namespace MergeBuffer

/-- `MergeBuffer::new`. -/
def new : MergeBuffer K V := ⟨[]⟩

/-- `MergeBuffer::is_empty`. -/
def isEmpty (buf : MergeBuffer K V) : Bool := buf.levels.all Option.isNone

/-- `MergeBuffer::from_sorted`. -/
def fromSorted (sorted : List (K × V)) : MergeBuffer K V :=
  match Run.ofList sorted with
  | none => new
  | some run => ⟨[some run]⟩

/-- The loop of `merge_sorted`: the run is installed at the first free level, or carried upward
merged with the run of a level it overlaps. -/
def carry [Std.OrientedOrd K] : List (Option (Run K V)) → Run K V → List (Option (Run K V))
  | [], run => [some run]
  | none :: levels, run => some run :: levels
  | some existing :: levels, run =>
    if (compare existing.lastKey run.firstKey).isLE then some (existing.extend run) :: levels
    else if compare run.lastKey existing.firstKey = .lt then some (run.extend existing) :: levels
    else none :: carry levels (existing.merge run)

/-- `MergeBuffer::merge_sorted`. -/
def mergeSorted [Std.OrientedOrd K] (buf : MergeBuffer K V) (run : List (K × V)) : MergeBuffer K V :=
  match Run.ofList run with
  | none => buf
  | some run => ⟨carry buf.levels run⟩

/-- `MergeBuffer::merge_unsorted`. -/
def mergeUnsorted [Std.OrientedOrd K] (buf : MergeBuffer K V) (run : List (K × V)) : MergeBuffer K V :=
  buf.mergeSorted (run.mergeSort fun a b => (compare a.1 b.1).isLE)

/-- The runs that are there. -/
def runs (buf : MergeBuffer K V) : List (Run K V) := buf.levels.filterMap id

/-- The runs that are there, with their levels. -/
def occupied (buf : MergeBuffer K V) : List (ℕ × Run K V) :=
  buf.levels.zipIdx.filterMap fun slot => slot.1.map fun run => (slot.2, run)

/-- The run with the greatest last key, the first of several. -/
def maxRun (e : ℕ × Run K V) (es : List (ℕ × Run K V)) : ℕ × Run K V :=
  es.foldl (fun m e => if compare e.2.lastKey m.2.lastKey = .gt then e else m) e

/-- `MergeBuffer::append_sorted`: the run goes behind the one with the greatest last key where that
keeps it sorted, which is the only run there is if there is only one. -/
def appendSorted [Std.OrientedOrd K] (buf : MergeBuffer K V) (run : List (K × V)) : MergeBuffer K V :=
  match Run.ofList run with
  | none => buf
  | some r =>
    match buf.occupied with
    | [] => ⟨[some r]⟩
    | e :: es =>
      let m := maxRun e es
      if compare m.2.lastKey r.firstKey ≠ .gt then ⟨buf.levels.set m.1 (some (m.2.extend r))⟩
      else buf.mergeSorted run

/-- `disjoint_chain`: no run reaches into the next one. -/
def disjointChain : List (Run K V) → Bool
  | a :: b :: runs => (compare a.lastKey b.firstKey).isLE && disjointChain (b :: runs)
  | _ => true

/-- `heap.pop()` of a heap of `(Reverse(len), idx)`, each entry with its run of the pool: the
shortest run, and of several the one with the greatest index. -/
def popHeap : List (ℕ × Run K V) → Option ((ℕ × Run K V) × List (ℕ × Run K V))
  | [] => none
  | e :: heap =>
    match popHeap heap with
    | none => some (e, [])
    | some (m, rest) =>
      if e.2.pairs.length < m.2.pairs.length ∨ (e.2.pairs.length = m.2.pairs.length ∧ m.1 < e.1)
      then some (e, m :: rest) else some (m, e :: rest)

omit [Ord K] in
lemma popHeap_eq_none {heap : List (ℕ × Run K V)} (h : popHeap heap = none) : heap = [] := by
  cases heap with
  | nil => rfl
  | cons e heap =>
    rw [popHeap] at h
    split at h
    · cases h
    · split at h <;> cases h

omit [Ord K] in
lemma popHeap_perm {heap rest : List (ℕ × Run K V)} {e : ℕ × Run K V}
    (h : popHeap heap = some (e, rest)) :
    (e :: rest).Perm heap := by
  induction heap generalizing e rest with
  | nil => cases h
  | cons e' heap ih =>
    rw [popHeap] at h
    split at h
    · next hnone =>
      cases h
      rw [popHeap_eq_none hnone]
    · next m rest' hsome =>
      have hp := ih hsome
      split at h
      · cases h
        exact hp.cons _
      · cases h
        exact (List.Perm.swap _ _ _).trans (hp.cons _)

/-- The balanced reduction of `take_sorted`: the two shortest runs are merged until one is left. -/
def reduce [Std.OrientedOrd K] (heap : List (ℕ × Run K V)) (nextIdx : ℕ) : List (K × V) :=
  match _h : popHeap heap with
  | none => []
  | some (a, rest) =>
    match _h' : popHeap rest with
    | none => a.2.pairs
    | some (b, rest') => reduce ((nextIdx, a.2.merge b.2) :: rest') (nextIdx + 1)
termination_by heap.length
decreasing_by
  have h1 := (popHeap_perm ‹popHeap heap = _›).length_eq
  have h2 := (popHeap_perm ‹popHeap rest = _›).length_eq
  simp only [List.length_cons] at *
  omega

/-- `MergeBuffer::take_sorted`; the buffer is empty afterwards. -/
def takeSorted [Std.OrientedOrd K] (buf : MergeBuffer K V) : List (K × V) × MergeBuffer K V :=
  let out := match buf.runs with
    | [] => []
    | [run] => run.pairs
    | runs =>
      let runs := runs.mergeSort fun a b => (compare a.firstKey b.firstKey).isLE
      if disjointChain runs then (runs.map Run.pairs).flatten
      else reduce (runs.zipIdx.map fun e => (e.2, e.1)) runs.length
  (out, new)

/-! ### Nothing is lost -/

/-- All pairs of the buffer, level by level. -/
def contents (buf : MergeBuffer K V) : List (K × V) := (buf.runs.map Run.pairs).flatten

omit [Ord K] in
@[simp] lemma contents_new : (new : MergeBuffer K V).contents = [] := rfl

omit [Ord K] in
lemma contents_cons (slot : Option (Run K V)) (levels : List (Option (Run K V))) :
    contents ⟨slot :: levels⟩ = (slot.map Run.pairs).getD [] ++ contents ⟨levels⟩ := by
  cases slot <;> simp [contents, runs]

omit [Ord K] in
lemma contents_fromSorted (sorted : List (K × V)) : (fromSorted sorted).contents = sorted := by
  unfold fromSorted Run.ofList
  by_cases h : sorted = []
  · simp [h]
  · simp [h, contents, runs]

omit [Ord K] in
/-- The buffer is empty exactly where it holds no pair. -/
lemma isEmpty_iff (buf : MergeBuffer K V) : buf.isEmpty = true ↔ buf.contents = [] := by
  obtain ⟨levels⟩ := buf
  induction levels with
  | nil => simp [isEmpty, contents, runs]
  | cons slot levels ih =>
    rw [contents_cons, List.append_eq_nil_iff, ← ih]
    cases slot with
    | none => simp [isEmpty]
    | some run => simp [isEmpty, run.nonempty]

variable [Std.OrientedOrd K]

lemma carry_perm (levels : List (Option (Run K V))) (run : Run K V) :
    (contents ⟨carry levels run⟩).Perm (contents ⟨levels⟩ ++ run.pairs) := by
  induction levels generalizing run with
  | nil => simp [carry, contents, runs]
  | cons slot levels ih =>
    cases slot with
    | none =>
      rw [carry, contents_cons, contents_cons]
      simpa using List.perm_append_comm
    | some existing =>
      rw [carry]
      split
      · rw [contents_cons, contents_cons]
        simp only [Option.map_some, Option.getD_some, Run.extend, List.append_assoc]
        exact List.perm_append_comm.append_left _
      · split
        · rw [contents_cons, contents_cons]
          simp only [Option.map_some, Option.getD_some, Run.extend, List.append_assoc]
          exact (List.perm_append_comm).trans (by simp)
        · rw [contents_cons, contents_cons]
          simp only [Option.map_none, Option.getD_none, List.nil_append, Option.map_some,
            Option.getD_some]
          refine (ih _).trans ?_
          have hm := mergeSortedByKeyGallop_perm existing.pairs run.pairs
          refine (hm.append_left _).trans ?_
          rw [← List.append_assoc]
          exact List.perm_append_comm.append_right _

lemma mergeSorted_perm (buf : MergeBuffer K V) (run : List (K × V)) :
    (buf.mergeSorted run).contents.Perm (buf.contents ++ run) := by
  unfold mergeSorted Run.ofList
  by_cases h : run = []
  · simp [h]
  · simpa [h] using carry_perm buf.levels ⟨run, h⟩

lemma mergeUnsorted_perm (buf : MergeBuffer K V) (run : List (K × V)) :
    (buf.mergeUnsorted run).contents.Perm (buf.contents ++ run) :=
  (mergeSorted_perm _ _).trans ((List.mergeSort_perm _ _).append_left _)

omit [Std.OrientedOrd K] in
lemma maxRun_mem (e : ℕ × Run K V) (es : List (ℕ × Run K V)) : maxRun e es ∈ e :: es := by
  unfold maxRun
  induction es generalizing e with
  | nil => simp
  | cons e' es ih =>
    rw [List.foldl_cons]
    split
    · exact List.mem_cons_of_mem _ (ih e')
    · have hm := ih e
      simp only [List.mem_cons] at hm ⊢
      tauto

omit [Ord K] [Std.OrientedOrd K] in
lemma map_occupied (buf : MergeBuffer K V) : buf.occupied.map Prod.snd = buf.runs := by
  unfold occupied runs
  rw [List.map_filterMap]
  conv_rhs => rw [← List.zipIdx_map_fst 0 buf.levels, List.filterMap_map]
  refine List.filterMap_congr fun slot _ => ?_
  obtain ⟨slot, i⟩ := slot
  cases slot <;> rfl

omit [Ord K] [Std.OrientedOrd K] in
lemma levels_of_mem_occupied {buf : MergeBuffer K V} {e : ℕ × Run K V} (h : e ∈ buf.occupied) :
    ∃ below above, buf.levels = below ++ some e.2 :: above ∧ below.length = e.1 := by
  obtain ⟨⟨slot, j⟩, hmem, hslot⟩ := List.mem_filterMap.mp h
  obtain ⟨r, rfl, hr⟩ := Option.map_eq_some_iff.mp hslot
  cases hr
  obtain ⟨hj, hget⟩ := List.mem_zipIdx' hmem
  refine ⟨buf.levels.take j, buf.levels.drop (j + 1), ?_, ?_⟩
  · rw [hget, ← List.drop_eq_getElem_cons hj, List.take_append_drop]
  · rw [List.length_take]
    omega

omit [Ord K] [Std.OrientedOrd K] in
/-- A run that grows in place. -/
lemma contents_set (below above : List (Option (Run K V))) (run r : Run K V) :
    (contents ⟨(below ++ some run :: above).set below.length (some (run.extend r))⟩).Perm
      (contents ⟨below ++ some run :: above⟩ ++ r.pairs) := by
  induction below with
  | nil =>
    simp only [List.nil_append, List.length_nil, List.set_cons_zero, contents_cons, Option.map_some,
      Option.getD_some, Run.extend, List.append_assoc]
    exact List.perm_append_comm.append_left _
  | cons slot below ih =>
    simp only [List.cons_append, List.length_cons, List.set_cons_succ, contents_cons,
      List.append_assoc]
    exact ih.append_left _

lemma appendSorted_perm (buf : MergeBuffer K V) (run : List (K × V)) :
    (buf.appendSorted run).contents.Perm (buf.contents ++ run) := by
  unfold appendSorted Run.ofList
  by_cases h : run = []
  · simp [h]
  · simp only [h, dite_false]
    split
    · next hocc =>
      have hnil : buf.contents = [] := by rw [contents, ← map_occupied, hocc]; rfl
      rw [hnil]
      simp [contents, runs]
    · next e es hocc =>
      split
      · have hmem := maxRun_mem e es
        rw [← hocc] at hmem
        obtain ⟨below, above, hl, hlen⟩ := levels_of_mem_occupied hmem
        have hset := contents_set below above (maxRun e es).2 ⟨run, h⟩
        rw [hlen, ← hl] at hset
        exact hset
      · exact mergeSorted_perm buf run

omit [Ord K] [Std.OrientedOrd K] in
lemma flatten_popHeap {heap rest : List (ℕ × Run K V)} {e : ℕ × Run K V}
    (h : popHeap heap = some (e, rest)) :
    (heap.map fun e => e.2.pairs).flatten.Perm (e.2.pairs ++ (rest.map fun e => e.2.pairs).flatten) :=
  ((popHeap_perm h).symm.map _).flatten

lemma reduce_perm (heap : List (ℕ × Run K V)) (nextIdx : ℕ) :
    (reduce heap nextIdx).Perm (heap.map fun e => e.2.pairs).flatten := by
  fun_induction reduce heap nextIdx with
  | case1 heap nextIdx h =>
    rw [popHeap_eq_none h]
    exact List.Perm.refl _
  | case2 heap nextIdx a rest h h' =>
    have hp := flatten_popHeap h
    rw [popHeap_eq_none h', List.map_nil, List.flatten_nil, List.append_nil] at hp
    exact hp.symm
  | case3 heap nextIdx a rest h b rest' h' ih =>
    have hm : (a.2.merge b.2).pairs.Perm (a.2.pairs ++ b.2.pairs) := mergeSortedByKeyGallop_perm _ _
    calc reduce ((nextIdx, a.2.merge b.2) :: rest') (nextIdx + 1)
      _ ~ (a.2.merge b.2).pairs ++ (rest'.map fun e => e.2.pairs).flatten := ih
      _ ~ (a.2.pairs ++ b.2.pairs) ++ (rest'.map fun e => e.2.pairs).flatten := hm.append_right _
      _ = a.2.pairs ++ (b.2.pairs ++ (rest'.map fun e => e.2.pairs).flatten) := List.append_assoc _ _ _
      _ ~ a.2.pairs ++ (rest.map fun e => e.2.pairs).flatten := (flatten_popHeap h').symm.append_left _
      _ ~ (heap.map fun e => e.2.pairs).flatten := (flatten_popHeap h).symm

/-- **The buffer gives back exactly what was pushed.** -/
theorem takeSorted_perm (buf : MergeBuffer K V) : buf.takeSorted.1.Perm buf.contents := by
  unfold takeSorted contents
  split
  · next h => simp [h]
  · next run h => simp [h]
  · have hsort := ((List.mergeSort_perm buf.runs fun a b => (compare a.firstKey b.firstKey).isLE).map
      Run.pairs).flatten
    refine List.Perm.trans ?_ hsort
    dsimp only
    split
    · exact List.Perm.refl _
    · refine (reduce_perm _ _).trans ?_
      rw [List.map_map]
      conv_rhs => rw [← List.zipIdx_map_fst 0 (List.mergeSort _ _), List.map_map]
      exact List.Perm.refl _

@[simp] lemma takeSorted_snd (buf : MergeBuffer K V) : buf.takeSorted.2 = new := rfl

end MergeBuffer

end Redbit.Storage
