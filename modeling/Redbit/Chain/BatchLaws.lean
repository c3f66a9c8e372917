import Redbit.Chain.Batchers
import Redbit.Lib.Cut
import Mathlib.Algebra.Order.Ring.Nat

/-!
# What the batches of a stream look like (`size_batcher.rs`, `weight_batcher.rs`)

Both batchers cut a stream of items into batches.  The counters of the buffers are the totals of
what the buffers hold, over every run of pushes (`SizeBatcher.Counts`, `WeightBatcher.Counts`); the
laws of the batches are read off the push that gives a batch out.

* `SizeBatcher.batches_spec`: nothing is lost or reordered, no batch is empty, one of several items
is within the limit, and a batch was given out because the next item, or the batch itself, would
have been over it.
* `WeightBatcher.batches_shortest`: a batch is the shortest run of items that is heavy or long enough.

`batches_of_stream` has both.
-/

namespace Redbit.Chain

open Redbit.Lib

namespace SizeBatcher

variable {T : Type} (size : T → ℕ)

/-- The counter is the size of the buffer, what is still to come fits in `usize`, and several items
together are within the limit. -/
structure Counts (s : SizeBatcher T) (items : List T) : Prop where
  bytes_eq : s.bytes = (s.buf.map size).sum
  fits : ((s.buf ++ items).map size).sum < 2 ^ 64
  within : 1 < s.buf.length → (s.buf.map size).sum ≤ s.byteLimit

/-- What holds of a batch and of what follows it in the stream. -/
structure BatchLaw (byteLimit : ℕ) (immediate : Bool) (batch rest : List T) : Prop where
  ne_nil : batch ≠ []
  within : 1 < batch.length → (batch.map size).sum ≤ byteLimit
  full : immediate = false → (∃ item, batch = [item] ∧ byteLimit < size item) ∨
    ∃ item tail, rest = item :: tail ∧ byteLimit < (batch.map size).sum + size item

/-- What a push does: it gives the item out alone, or gives out the buffer and starts anew with the
item, or puts the item into the buffer. -/
lemma push_cases (s : SizeBatcher T) (item : T) :
    ((s.push size item).1 = some [item] ∧ (s.push size item).2 = s ∧ s.buf = [] ∧
        (s.immediate = false → s.byteLimit < saturatingAdd s.bytes (size item))) ∨
      ((s.push size item).1 = some s.buf ∧ (s.push size item).2.buf = [item] ∧
        (s.push size item).2.bytes = size item ∧ s.buf ≠ [] ∧
          s.byteLimit < saturatingAdd s.bytes (size item)) ∨
      ((s.push size item).1 = none ∧ (s.push size item).2.buf = s.buf ++ [item] ∧
        (s.push size item).2.bytes = saturatingAdd s.bytes (size item) ∧
        saturatingAdd s.bytes (size item) ≤ s.byteLimit) := by
  unfold push
  split
  · next hi => exact Or.inl ⟨rfl, rfl, s.immediate_nil hi, fun h => by rw [h] at hi; cases hi⟩
  · dsimp only
    split
    · next hlt =>
      split
      · next hnil => exact Or.inl ⟨rfl, rfl, hnil, fun _ => hlt⟩
      · next hne => exact Or.inr (Or.inl ⟨rfl, rfl, rfl, hne, hlt⟩)
    · next hle => exact Or.inr (Or.inr ⟨rfl, rfl, rfl, not_lt.mp hle⟩)

lemma push_config (s : SizeBatcher T) (item : T) :
    (s.push size item).2.byteLimit = s.byteLimit ∧ (s.push size item).2.immediate = s.immediate := by
  unfold push
  split
  · exact ⟨rfl, rfl⟩
  · dsimp only
    split
    · split <;> exact ⟨rfl, rfl⟩
    · exact ⟨rfl, rfl⟩

variable {size} {s : SizeBatcher T} {item : T} {items batch : List T}

lemma Counts.fits_split (h : Counts size s (item :: items)) :
    (s.buf.map size).sum + (size item + (items.map size).sum) < 2 ^ 64 := by
  have hfits := h.fits
  rwa [List.map_append, List.sum_append, List.map_cons, List.sum_cons] at hfits

/-- Within `usize` the projected size is the size of the buffer with the item. -/
lemma Counts.projected (h : Counts size s (item :: items)) :
    saturatingAdd s.bytes (size item) = (s.buf.map size).sum + size item := by
  have hfits := h.fits_split
  rw [h.bytes_eq]
  unfold saturatingAdd
  omega

/-- **One push** keeps the counter. -/
lemma Counts.push (h : Counts size s (item :: items)) : Counts size (s.push size item).2 items := by
  have hproj := h.projected
  have hfits := h.fits_split
  have hlimit := (push_config size s item).1
  obtain ⟨-, hs, hnil, -⟩ | ⟨-, hbuf, hbytes, -, -⟩ | ⟨-, hbuf, hbytes, hle⟩ := push_cases size s item
  · rw [hs]
    refine ⟨h.bytes_eq, ?_, h.within⟩
    rw [List.map_append, List.sum_append]
    omega
  · refine ⟨by simp [hbuf, hbytes], ?_, by simp [hbuf]⟩
    rw [hbuf, List.singleton_append, List.map_cons, List.sum_cons]
    omega
  · rw [hproj] at hbytes hle
    refine ⟨by simp [hbuf, hbytes], ?_, ?_⟩
    · rw [hbuf, List.append_assoc]
      exact h.fits
    · intro _
      rw [hbuf, hlimit]
      simpa using hle

/-- **One push** gives out lawful batches. -/
lemma Counts.batchLaw (h : Counts size s (item :: items)) (hout : (s.push size item).1 = some batch) :
    BatchLaw size s.byteLimit s.immediate batch ((s.push size item).2.buf ++ items) := by
  have hproj := h.projected
  obtain ⟨hsome, -, hnil, hlt⟩ | ⟨hsome, hbuf, -, hne, hlt⟩ | ⟨hnone, -⟩ := push_cases size s item
  · obtain rfl := Option.some.inj (hsome.symm.trans hout)
    refine ⟨by simp, by simp, ?_⟩
    intro hi
    have hover := hlt hi
    rw [hproj, hnil] at hover
    exact Or.inl ⟨item, rfl, by simpa using hover⟩
  · obtain rfl := Option.some.inj (hsome.symm.trans hout)
    refine ⟨hne, h.within, ?_⟩
    intro _
    rw [hproj] at hlt
    rw [hbuf]
    exact Or.inr ⟨item, items, rfl, hlt⟩
  · rw [hnone] at hout
    cases hout

/-- The last batch is the buffer. -/
lemma takeAll_some (h : batch ∈ s.takeAll.1.toList) : batch = s.buf ∧ s.buf ≠ [] := by
  unfold takeAll at h
  split at h
  · simp at h
  · next hne => exact ⟨by simpa using h, fun hnil => hne (Or.inr hnil)⟩

/-- **Batches by size.**  Of any stream of items whose sizes add up within `usize`: the batches of
the pushes and of `take_all` at the end are the stream; each has an item, and one of several items
is within the limit; and where items are collected at all, a batch of a push is one item over the
limit or would be over it with the item that follows. -/
lemma batches_spec (byteLimit : ℕ) (immediate : Bool) (hfits : (items.map size).sum < 2 ^ 64) :
    let run := cut (push size) (new byteLimit immediate) items
    (run.1 ++ run.2.takeAll.1.toList).flatten = items ∧
      (∀ batch ∈ run.1 ++ run.2.takeAll.1.toList,
        batch ≠ [] ∧ (1 < batch.length → (batch.map size).sum ≤ byteLimit)) ∧
      ∀ pre batch post, immediate = false → run.1 = pre ++ batch :: post →
        ∃ rest, items = pre.flatten ++ batch ++ rest ∧
          ((∃ item, batch = [item] ∧ byteLimit < size item) ∨
            ∃ item tail, rest = item :: tail ∧ byteLimit < (batch.map size).sum + size item) := by
  intro run
  have hkeeps : Keeps (push size) buf := fun s item => push_spec size s item
  have hinit : Counts size (new byteLimit immediate : SizeBatcher T) items :=
    ⟨rfl, by simpa [new] using hfits, by simp [new]⟩
  obtain ⟨⟨hcounts, hlimit, -⟩, hbatches⟩ := cut_law
    (fun s items => Counts size s items ∧ s.byteLimit = byteLimit ∧ s.immediate = immediate)
    (BatchLaw size byteLimit immediate) hkeeps
    (by
      rintro s item items ⟨hc, hb, hi⟩
      obtain ⟨hb', hi'⟩ := push_config size s item
      exact ⟨hc.push, hb'.trans hb, hi'.trans hi⟩)
    (by
      rintro s item items ⟨hc, rfl, rfl⟩ batch hout
      exact hc.batchLaw hout)
    ⟨hinit, rfl, rfl⟩
  refine ⟨?_, ?_, ?_⟩
  · have hflat := cut_flatten hkeeps (new byteLimit immediate) items
    rw [List.flatten_append, (takeAll_spec run.2).1]
    exact hflat
  · intro batch hmem
    rcases List.mem_append.mp hmem with hmem | hmem
    · obtain ⟨pre, post, heq⟩ := List.append_of_mem hmem
      obtain ⟨rest, -, hlaw⟩ := hbatches pre batch post heq
      exact ⟨hlaw.ne_nil, hlaw.within⟩
    · obtain ⟨rfl, hne⟩ := takeAll_some hmem
      refine ⟨hne, ?_⟩
      intro hlen
      rw [← hlimit]
      exact hcounts.within hlen
  · intro pre batch post hi heq
    obtain ⟨rest, hrest, hlaw⟩ := hbatches pre batch post heq
    exact ⟨rest, hrest, hlaw.full hi⟩

end SizeBatcher

namespace WeightBatcher

variable {T : Type} (weightOf : T → ℕ) (minWeight cap : ℕ)

/-- The weight of a run of items, saturating. -/
def weightSum (run : List T) : ℕ :=
  run.foldl (fun weight item => saturatingAdd weight (weightOf item)) 0

/-- The run is heavy or long enough to be given out. -/
def Reaches (run : List T) : Prop := minWeight ≤ weightSum weightOf run ∨ cap ≤ run.length

/-- `batch` is the shortest beginning of `rest` that has an item and is given out. -/
structure Shortest (batch rest : List T) : Prop where
  ne_nil : batch ≠ []
  starts : batch <+: rest
  reaches : Reaches weightOf minWeight cap batch
  least : ∀ run, run ≠ [] → run <+: rest → Reaches weightOf minWeight cap run →
    batch.length ≤ run.length

/-- The counter is the weight of the buffer, and no beginning of the buffer was to be given out. -/
structure Counts (s : WeightBatcher T) : Prop where
  mode_eq : s.mode = .none
  minWeight_eq : s.minWeight = minWeight
  cap_eq : s.cap = cap
  weight_eq : s.weight = weightSum weightOf s.buf
  waits : ∀ run, run ≠ [] → run <+: s.buf → ¬ Reaches weightOf minWeight cap run

variable {weightOf minWeight cap} {s : WeightBatcher T} {item : T} {items batch : List T}

/-- What a push does without durability: it gives out the buffer with the item, or keeps it. -/
lemma Counts.push_cases (h : Counts weightOf minWeight cap s) (item : T) :
    ((s.pushWith weightOf item).1 = some (s.buf ++ [item]) ∧ (s.pushWith weightOf item).2.buf = [] ∧
        Reaches weightOf minWeight cap (s.buf ++ [item]) ∧
          Counts weightOf minWeight cap (s.pushWith weightOf item).2) ∨
      ((s.pushWith weightOf item).1 = none ∧ (s.pushWith weightOf item).2.buf = s.buf ++ [item] ∧
        Counts weightOf minWeight cap (s.pushWith weightOf item).2) := by
  have hweight : saturatingAdd s.weight (weightOf item) = weightSum weightOf (s.buf ++ [item]) := by
    rw [h.weight_eq, weightSum, weightSum, List.foldl_append]
    rfl
  unfold pushWith
  split
  · next hm =>
    rw [h.mode_eq] at hm
    cases hm
  · dsimp only
    rw [hweight, h.minWeight_eq, h.cap_eq]
    split
    · next hreach =>
      refine Or.inl ⟨rfl, rfl, hreach, h.mode_eq, rfl, rfl, rfl, ?_⟩
      intro run hne hrun
      exact absurd (List.prefix_nil.mp hrun) hne
    · next hreach =>
      refine Or.inr ⟨rfl, rfl, h.mode_eq, rfl, rfl, rfl, ?_⟩
      intro run hne hrun
      rcases List.prefix_concat_iff.mp hrun with rfl | hrun
      · exact hreach
      · exact h.waits run hne hrun

/-- A batch is given out as soon as it can be. -/
lemma Counts.shortest (h : Counts weightOf minWeight cap s)
    (hout : (s.pushWith weightOf item).1 = some batch) (items : List T) :
    Shortest weightOf minWeight cap batch (batch ++ items) := by
  obtain ⟨hsome, -, hreach, -⟩ | ⟨hnone, -⟩ := h.push_cases item
  · obtain rfl := Option.some.inj (hsome.symm.trans hout)
    refine ⟨by simp, List.prefix_append _ _, hreach, ?_⟩
    intro run hne hrun hr
    by_contra hlt
    -- a shorter run is a beginning of what was waiting
    have hsub : run <+: s.buf ++ [item] :=
      List.prefix_of_prefix_length_le hrun (List.prefix_append _ _) (not_le.mp hlt).le
    rcases List.prefix_concat_iff.mp hsub with rfl | hsub
    · exact hlt le_rfl
    · exact h.waits run hne hsub hr
  · rw [hnone] at hout
    cases hout

/-- **Batches by weight.**  The batches, and the flush at the end, are the stream, and each batch of
a push is the shortest run of what is not given out yet that is heavy or long enough. -/
lemma batches_shortest (weightOf : T → ℕ) (minWeight cap : ℕ) (items : List T) :
    let run := cut (pushWith weightOf) (new minWeight cap .none) items
    (run.1 ++ run.2.flush.1.toList).flatten = items ∧
      ∀ pre batch post, run.1 = pre ++ batch :: post →
        ∃ rest, items = pre.flatten ++ rest ∧ Shortest weightOf minWeight cap batch rest := by
  intro run
  have hkeeps : Keeps (pushWith weightOf) buf := fun s item => pushWith_spec weightOf s item
  have hinit : Counts weightOf minWeight cap (new minWeight cap .none : WeightBatcher T) := by
    refine ⟨rfl, rfl, rfl, rfl, ?_⟩
    intro run hne hrun
    exact absurd (List.prefix_nil.mp hrun) hne
  obtain ⟨-, hbatches⟩ := cut_law (fun s _ => Counts weightOf minWeight cap s)
    (fun batch rest => Shortest weightOf minWeight cap batch (batch ++ rest)) hkeeps
    (by
      intro s item items h
      obtain ⟨-, -, -, h'⟩ | ⟨-, -, h'⟩ := h.push_cases item
      · exact h'
      · exact h')
    (by
      intro s item items h batch hout
      exact h.shortest hout _)
    hinit
  refine ⟨?_, ?_⟩
  · rw [List.flatten_append, (flush_spec run.2).1]
    exact cut_flatten hkeeps (new minWeight cap .none) items
  · intro pre batch post heq
    obtain ⟨rest, hrest, hlaw⟩ := hbatches pre batch post heq
    exact ⟨batch ++ rest, by rw [← List.append_assoc]; exact hrest, hlaw⟩

end WeightBatcher

/-- **The batches of a stream.**  By size: the batches of the pushes and of `take_all` at the end
are the stream, none is empty, one of several items is within the limit, and where items are
collected a batch of a push is one item over the limit or would be over it with the item that
follows.  By weight: the batches and the flush are the stream, and each batch of a push is the
shortest run of what is not given out yet that is heavy or long enough. -/
theorem batches_of_stream {T : Type} {size : T → ℕ} {items : List T}
    (hfits : (items.map size).sum < 2 ^ 64) (byteLimit : ℕ) (immediate : Bool) (weightOf : T → ℕ)
    (minWeight cap : ℕ) :
    (let run := cut (SizeBatcher.push size) (SizeBatcher.new byteLimit immediate) items
     (run.1 ++ run.2.takeAll.1.toList).flatten = items ∧
       (∀ batch ∈ run.1 ++ run.2.takeAll.1.toList,
         batch ≠ [] ∧ (1 < batch.length → (batch.map size).sum ≤ byteLimit)) ∧
       ∀ pre batch post, immediate = false → run.1 = pre ++ batch :: post →
         ∃ rest, items = pre.flatten ++ batch ++ rest ∧
           ((∃ item, batch = [item] ∧ byteLimit < size item) ∨
             ∃ item tail, rest = item :: tail ∧ byteLimit < (batch.map size).sum + size item)) ∧
    (let run := cut (WeightBatcher.pushWith weightOf) (WeightBatcher.new minWeight cap .none) items
     (run.1 ++ run.2.flush.1.toList).flatten = items ∧
       ∀ pre batch post, run.1 = pre ++ batch :: post →
         ∃ rest, items = pre.flatten ++ rest ∧
           WeightBatcher.Shortest weightOf minWeight cap batch rest) :=
  ⟨SizeBatcher.batches_spec byteLimit immediate hfits,
    WeightBatcher.batches_shortest weightOf minWeight cap items⟩

/-- Items of the sizes 10, 20, 25, 60 and 1 under the limit 50: the fourth one is over the limit
when it comes, and waits for the fifth. -/
theorem batches_of_stream_oversized :
    (([10, 20, 25, 60, 1] : List ℕ).map id).sum < 2 ^ 64 ∧
      (cut (SizeBatcher.push id) (SizeBatcher.new 50 false) [10, 20, 25, 60, 1]).1 =
      [[10, 20], [25], [60]] ∧
      ((cut (SizeBatcher.push id) (SizeBatcher.new 50 false) [10, 20, 25, 60, 1]).1 ++
        (cut (SizeBatcher.push id) (SizeBatcher.new 50 false)
          [10, 20, 25, 60, 1]).2.takeAll.1.toList).flatten =
          [10, 20, 25, 60, 1] := by
  have hfits : (([10, 20, 25, 60, 1] : List ℕ).map id).sum < 2 ^ 64 := by decide
  exact ⟨hfits, by decide, (batches_of_stream hfits 50 false id 3 2).1.1⟩

end Redbit.Chain
