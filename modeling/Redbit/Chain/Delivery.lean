import Redbit.Chain.Pipeline
import Mathlib.Order.Bounds.Basic

/-!
# What the sort task delivers (`reorder_buffer.rs`, `weight_batcher.rs`)

Blocks arrive under their heights, in any order, some of them twice and some below the start.  What the
reorder buffer releases goes through the weight batcher.  `deliver_spec`: the batches hold the
blocks from the start up to the first height that never came, one for each height, the first that
came with it.

Here a block that comes twice is no exception, so the invariant (`Ordered`) is over the list of all
arrivals and not, as in the pipeline, over a set of blocks of distinct heights.
-/

namespace Redbit.Chain

open Redbit.Lib

variable {FB TB T : Type}

namespace ReorderBuffer

/-- `ReorderBuffer::gap_span`. -/
def gapSpan (s : ReorderBuffer T) : Option (ℕ × ℕ) :=
  match s.maxSeen with
  | none => none
  | some ms => if s.nextHeight ≤ ms then some (s.nextHeight, ms) else none

/-- After the arrivals `ins`, of which the blocks `out` have been released. -/
structure Ordered (start : ℕ) (ins : List (ℕ × T)) (out : List T) (s : ReorderBuffer T) : Prop where
  next : s.nextHeight = start + out.length
  ready : ∀ i, i < out.length → out[i]? = ins.lookup (start + i)
  missing : ins.lookup s.nextHeight = none
  pending : ∀ x, s.pending.get x = if s.nextHeight ≤ x then ins.lookup x else none
  unseen : s.maxSeen = none → ∀ x ∈ ins.map Prod.fst, x < start
  seen : ∀ g, s.maxSeen = some g → start ≤ g ∧ IsGreatest {x | x ∈ ins.map Prod.fst} g

lemma lookup_isSome_iff_mem {ins : List (ℕ × T)} {x : ℕ} :
    (ins.lookup x).isSome ↔ x ∈ ins.map Prod.fst := by
  rw [List.lookup_isSome_iff, List.mem_map]
  constructor
  · rintro ⟨hb, hmem, heq⟩
    exact ⟨hb, hmem, (beq_iff_eq.mp heq).symm⟩
  · rintro ⟨hb, hmem, heq⟩
    exact ⟨hb, hmem, beq_iff_eq.mpr heq.symm⟩

/-- A later arrival decides a height only when it is the first one of it. -/
lemma lookup_concat (ins : List (ℕ × T)) (height : ℕ) (block : T) (x : ℕ) :
    (ins ++ [(height, block)]).lookup x = if x = height ∧ ins.lookup x = none then some block
      else ins.lookup x := by
  rw [List.lookup_append]
  cases hx : ins.lookup x with
  | some c => simp
  | none =>
    by_cases heq : x = height
    · subst heq
      simp
    · simp [heq, List.lookup_cons, beq_false_of_ne heq]

section Ordered

variable {start : ℕ} {ins : List (ℕ × T)} {out : List T} {s : ReorderBuffer T}

lemma ordered_new (start maxBufferHint : ℕ) :
    Ordered start ([] : List (ℕ × T)) [] (new start maxBufferHint) where
  next := rfl
  ready i hi := absurd hi (by simp)
  missing := rfl
  pending x := by split <;> simp [new]
  unseen _ := by simp
  seen g hg := by cases hg

lemma Ordered.came (h : Ordered start ins out s) {x : ℕ} (hs : start ≤ x) (hx : x < s.nextHeight) :
    (ins.lookup x).isSome := by
  have hnext := h.next
  have hready := h.ready (x - start) (by omega)
  rw [show start + (x - start) = x by omega, List.getElem?_eq_getElem (by omega)] at hready
  rw [← hready]
  rfl

/-- An arrival below the next height changes nothing. -/
lemma Ordered.late (h : Ordered start ins out s) {height : ℕ} (hlt : height < s.nextHeight)
    (block : T) (dropped : ℕ) :
    Ordered start (ins ++ [(height, block)]) out { s with droppedTooLow := dropped } := by
  have hsame : ∀ x, start ≤ x → (ins ++ [(height, block)]).lookup x = ins.lookup x := by
    intro x hx
    rw [lookup_concat, if_neg]
    rintro ⟨rfl, hnone⟩
    have hcame := h.came hx hlt
    rw [hnone] at hcame
    cases hcame
  have hold : start ≤ height → height ∈ ins.map Prod.fst := fun hs =>
    lookup_isSome_iff_mem.mp (h.came hs hlt)
  have hnext := h.next
  refine ⟨hnext, fun i hi => ?_, ?_, fun x => ?_, fun hnone x hx => ?_, fun g hg => ?_⟩
  · rw [hsame _ (by omega)]
    exact h.ready i hi
  · show (ins ++ [(height, block)]).lookup s.nextHeight = none
    rw [hsame _ (by omega), h.missing]
  · show s.pending.get x = if s.nextHeight ≤ x then _ else none
    rw [h.pending]
    split
    · rw [hsame x (by omega)]
    · rfl
  · rw [List.map_append, List.mem_append, List.map_singleton, List.mem_singleton] at hx
    rcases hx with hx | rfl
    · exact h.unseen hnone x hx
    · by_contra hge
      exact hge (h.unseen hnone x (hold (by omega)))
  · obtain ⟨hsg, hmem, hub⟩ := h.seen g hg
    refine ⟨hsg, List.mem_map.mpr ?_, fun x hx => ?_⟩
    · obtain ⟨hb, hmem, heq⟩ := List.mem_map.mp hmem
      exact ⟨hb, List.mem_append_left _ hmem, heq⟩
    · replace hx : x ∈ (ins ++ [(height, block)]).map Prod.fst := hx
      rw [List.map_append, List.mem_append, List.map_singleton, List.mem_singleton] at hx
      rcases hx with hx | rfl
      · exact hub hx
      · by_cases hs : start ≤ x
        · exact hub (hold hs)
        · omega

/-- The greatest height seen, after one more. -/
lemma Ordered.seen_concat (h : Ordered start ins out s) {height : ℕ} (hs : start ≤ height)
    (block : T) : let maxSeen := match s.maxSeen with
      | none => some height
      | some ms => if ms < height then some height else some ms
    ∃ g, maxSeen = some g ∧ start ≤ g ∧
      IsGreatest {x | x ∈ (ins ++ [(height, block)]).map Prod.fst} g := by
  intro maxSeen
  have hmem : ∀ x, x ∈ (ins ++ [(height, block)]).map Prod.fst ↔ x ∈ ins.map Prod.fst ∨
      x = height := by
    intro x
    rw [List.map_append, List.mem_append, List.map_singleton, List.mem_singleton]
  simp only [maxSeen]
  cases hms : s.maxSeen with
  | none =>
    refine ⟨height, rfl, hs, (hmem height).mpr (Or.inr rfl), fun x hx => ?_⟩
    rcases (hmem x).mp hx with hx | rfl
    · have := h.unseen hms x hx
      omega
    · exact le_rfl
  | some ms =>
    obtain ⟨hsms, hin, hub⟩ := h.seen ms hms
    by_cases hlt : ms < height
    · refine ⟨height, if_pos hlt, hs, (hmem height).mpr (Or.inr rfl), fun x hx => ?_⟩
      rcases (hmem x).mp hx with hx | rfl
      · have := hub hx
        omega
      · exact le_rfl
    · refine ⟨ms, if_neg hlt, hsms, (hmem ms).mpr (Or.inl hin), fun x hx => ?_⟩
      rcases (hmem x).mp hx with hx | rfl
      · exact hub hx
      · omega

/-- Before the loop the pending blocks are those that came first, from the next height on. -/
lemma Ordered.pending_insert (h : Ordered start ins out s) {height : ℕ} (hge : ¬ height < s.nextHeight)
    (block : T) (x : ℕ) :
    (if s.pending.get height = none then s.pending.insert height block else s.pending).get x =
      if s.nextHeight ≤ x then (ins ++ [(height, block)]).lookup x else none := by
  have hvacant : s.pending.get height = ins.lookup height := by
    rw [h.pending, if_pos (by omega)]
  rw [lookup_concat]
  by_cases hx : x = height
  · subst hx
    cases hl : ins.lookup x with
    | none =>
      rw [hl] at hvacant
      simp only [hvacant, if_true, Table.get_insert_self, and_self]
      rw [if_pos (by omega)]
    | some c =>
      rw [hl] at hvacant
      simp only [hvacant, reduceCtorEq, if_false, and_false]
      rw [if_pos (by omega)]
  · simp only [hx, false_and, if_false]
    rw [← h.pending x]
    split
    · exact Table.get_insert_of_ne _ _ hx
    · rfl

/-- **One arrival.** -/
theorem Ordered.insert (h : Ordered start ins out s) (height : ℕ) (block : T) :
    Ordered start (ins ++ [(height, block)]) (out ++ (s.insert height block).1)
      (s.insert height block).2 := by
  unfold ReorderBuffer.insert
  split
  · next hlt =>
    rw [List.append_nil]
    exact h.late hlt block _
  · next hge =>
    have hnext := h.next
    have hpend := h.pending_insert hge block
    simp only
    have hreleased : Released s.nextHeight
        (if s.pending.get height = none then s.pending.insert height block else s.pending) _ :=
      release_spec (le_refl _)
    obtain ⟨hstops, hready, hrest, hstop⟩ := hreleased
    set p := if s.pending.get height = none then s.pending.insert height block else s.pending
    set r := release p.keys.card s.nextHeight p
    obtain ⟨g, hg, hsg, hgreatest⟩ := h.seen_concat (show start ≤ height by omega) block
    refine ⟨?_, fun i hi => ?_, ?_, fun x => ?_, fun hnone => ?_, fun g' hg' => ?_⟩
    · show r.2.1 = _
      rw [List.length_append]
      omega
    · by_cases hio : i < out.length
      · have hcame := h.came (x := start + i) (by omega) (by omega)
        rw [List.getElem?_append_left hio, h.ready i hio, lookup_concat, if_neg]
        rintro ⟨-, hnone⟩
        rw [hnone] at hcame
        cases hcame
      · rw [List.length_append] at hi
        rw [List.getElem?_append_right (by omega), hready _ (by omega), hpend, if_pos (by omega)]
        congr 1
        omega
    · show (ins ++ [(height, block)]).lookup r.2.1 = none
      rw [hrest, if_neg (by omega), hpend, if_pos (by omega)] at hstop
      exact hstop
    · show r.2.2.get x = if r.2.1 ≤ x then _ else none
      rw [hrest, hpend]
      by_cases hx : r.2.1 ≤ x
      · rw [if_neg (by omega), if_pos (by omega), if_pos hx]
      · rw [if_neg hx]
        by_cases hxn : s.nextHeight ≤ x
        · rw [if_pos (by omega)]
        · rw [if_neg (by omega), if_neg hxn]
    · cases hg.symm.trans hnone
    · obtain rfl := Option.some.inj (hg.symm.trans hg')
      exact ⟨hsg, hgreatest⟩

/-- Something is pending exactly when there is a gap. -/
lemma Ordered.gapSpan (h : Ordered start ins out s) :
    (s.pending ≠ Table.empty → ∃ g, IsGreatest {x | x ∈ ins.map Prod.fst} g ∧
      s.gapSpan = some (s.nextHeight, g)) ∧
      (s.pending = Table.empty → s.gapSpan = none) := by
  have hnext := h.next
  unfold ReorderBuffer.gapSpan
  cases hms : s.maxSeen with
  | none =>
    -- nothing has come at all, from the start on
    refine ⟨fun hne => absurd (Table.ext fun x => ?_) hne, fun _ => rfl⟩
    rw [h.pending, Table.get_empty]
    split
    · cases hx : ins.lookup x with
      | none => rfl
      | some c =>
        have hlt := h.unseen hms x (lookup_isSome_iff_mem.mp (by rw [hx]; rfl))
        omega
    · rfl
  | some ms =>
    obtain ⟨hs, hmem, hub⟩ := h.seen ms hms
    by_cases hle : s.nextHeight ≤ ms
    · refine ⟨fun _ => ⟨ms, ⟨hmem, hub⟩, if_pos hle⟩, fun hempty => ?_⟩
      have hsome := lookup_isSome_iff_mem.mpr hmem
      have hnone := h.pending ms
      rw [hempty, Table.get_empty, if_pos hle] at hnone
      rw [← hnone] at hsome
      cases hsome
    · refine ⟨fun hne => absurd (Table.ext fun x => ?_) hne, fun _ => if_neg hle⟩
      rw [h.pending, Table.get_empty]
      split
      · cases hx : ins.lookup x with
        | none => rfl
        | some c =>
          have hxms := hub (lookup_isSome_iff_mem.mp (show (ins.lookup x).isSome by rw [hx]; rfl))
          omega
      · rfl

end Ordered

end ReorderBuffer

/-! ### With the batcher -/

section Deliver

variable (cfg : SyncConfig FB TB)

/-- The blocks arrive one after the other, and what each of them releases goes into the batcher. -/
def deliverAll (reorder : ReorderBuffer TB) (batcher : WeightBatcher TB) :
    List (ℕ × TB) → List (List TB) × ReorderBuffer TB × WeightBatcher TB
  | [] => ([], reorder, batcher)
  | (height, block) :: ins =>
    let r := reorder.insert height block
    let o := pushAll cfg batcher r.1
    let r' := deliverAll r.2 o.2 ins
    (o.1 ++ r'.1, r'.2)

/-- All batches, that of the last flush among them, and the buffer that is left. -/
def deliver (reorder : ReorderBuffer TB) (batcher : WeightBatcher TB) (ins : List (ℕ × TB)) :
    List (List TB) × ReorderBuffer TB :=
  let r := deliverAll cfg reorder batcher ins
  (r.1 ++ r.2.2.flush.1.toList, r.2.1)

/-- The loop of the sort task is such a run, with the heights that the blocks have. -/
lemma sortAll_eq (reorder : ReorderBuffer TB) (batcher : WeightBatcher TB) (blocks : List TB) :
    sortAll cfg reorder batcher blocks = deliverAll cfg reorder batcher
      (blocks.map fun b => (cfg.height b, b)) := by
  induction blocks generalizing reorder batcher with
  | nil => rfl
  | cons b blocks ih => simp only [sortAll, List.map_cons, deliverAll, ih]

/-- **A run.** -/
lemma deliverAll_spec {start : ℕ} {ins : List (ℕ × TB)} {out : List TB} {reorder : ReorderBuffer TB}
    (batcher : WeightBatcher TB) (h : reorder.Ordered start ins out) (more : List (ℕ × TB)) :
    ∃ released, (deliverAll cfg reorder batcher more).2.1.Ordered start (ins ++ more)
      (out ++ released) ∧ (deliverAll cfg reorder batcher more).1.flatten ++
        (deliverAll cfg reorder batcher more).2.2.buf =
        batcher.buf ++ released := by
  induction more generalizing ins out reorder batcher with
  | nil => exact ⟨[], by simpa [deliverAll] using h, by simp [deliverAll]⟩
  | cons hb more ih =>
    obtain ⟨height, block⟩ := hb
    obtain ⟨released, hordered, hout⟩ :=
      ih (pushAll cfg batcher (reorder.insert height block).1).2 (h.insert height block)
    refine ⟨(reorder.insert height block).1 ++ released, ?_, ?_⟩
    · rw [List.append_cons, ← List.append_assoc]
      exact hordered
    · simp only [deliverAll, List.flatten_append, List.append_assoc]
      rw [hout, ← List.append_assoc, pushAll_spec, List.append_assoc]

/-- **Ordered, gap-free and exactly once.**  For all arrivals, in any order, the batches hold the
blocks of the heights from the start up to the first one, `m`, that never came, each height with the
block that came first; the first blocks of the heights above are pending, and `gap_span` tells so.
No height overflows. -/
theorem deliver_spec (start maxBufferHint minWeight cap : ℕ) (mode : Durability) (ins : List (ℕ × TB))
    (hstart : start < 2 ^ 32) (hbelow : ∀ hb ∈ ins, hb.1 < 2 ^ 32 - 1) :
    let d := deliver cfg (ReorderBuffer.new start maxBufferHint)
      (WeightBatcher.new minWeight cap mode) ins
    ∃ m, IsLeast {x | start ≤ x ∧ x ∉ ins.map Prod.fst} m ∧
      d.1.flatten.map some = (List.range' start (m - start)).map (fun x => ins.lookup x) ∧
      (∀ x b, d.2.pending.get x = some b ↔ m < x ∧ ins.lookup x = some b) ∧
      (d.2.pending ≠ Table.empty → ∃ g, IsGreatest {x | x ∈ ins.map Prod.fst} g ∧
        d.2.gapSpan = some (m, g)) ∧
      (d.2.pending = Table.empty → d.2.gapSpan = none) ∧ d.2.nextHeight = m ∧ m < 2 ^ 32 := by
  intro d
  obtain ⟨out, h, hout⟩ := deliverAll_spec cfg (WeightBatcher.new minWeight cap mode)
    (ReorderBuffer.ordered_new start maxBufferHint) ins
  rw [List.nil_append, List.nil_append] at h
  replace h : d.2.Ordered start ins out := h
  have hflat : d.1.flatten = out := by
    show List.flatten (_ ++ _) = out
    rw [List.flatten_append, (WeightBatcher.flush_spec _).1, hout]
    rfl
  have hnext := h.next
  have hcame : ∀ x, start ≤ x → x < d.2.nextHeight → x ∈ ins.map Prod.fst := fun x hs hx =>
    ReorderBuffer.lookup_isSome_iff_mem.mp (h.came hs hx)
  refine ⟨d.2.nextHeight, ⟨⟨by omega, fun hmem => ?_⟩, fun x hx => ?_⟩, ?_, fun x b =>
    ?_, h.gapSpan.1, h.gapSpan.2, rfl, ?_⟩
  · have hsome := ReorderBuffer.lookup_isSome_iff_mem.mpr hmem
    rw [h.missing] at hsome
    cases hsome
  · by_contra hlt
    exact hx.2 (hcame x hx.1 (by omega))
  · rw [hflat]
    refine List.ext_getElem (by simp; omega) fun i hi _ => ?_
    rw [List.length_map] at hi
    rw [List.getElem_map, List.getElem_map, List.getElem_range', one_mul, ← h.ready i hi,
      List.getElem?_eq_getElem hi]
  · rw [h.pending]
    by_cases hx : x = d.2.nextHeight
    · rw [hx, h.missing]
      simp
    · by_cases hle : d.2.nextHeight ≤ x
      · rw [if_pos hle]
        exact ⟨fun hb => ⟨by omega, hb⟩, fun hb => hb.2⟩
      · rw [if_neg hle]
        simp only [reduceCtorEq, false_iff, not_and]
        omega
  · by_cases hout : out.length = 0
    · omega
    · obtain ⟨hb, hmem, heq⟩ := List.mem_map.mp (hcame (d.2.nextHeight - 1) (by omega) (by omega))
      have := hbelow hb hmem
      omega

/-- Out of order, with a duplicate, a height below the start and a gap. -/
theorem deliver_spec_gap :
    let cfg : SyncConfig ℕ ℕ := ⟨id, some, id, id, 0, true, 0, 0⟩
    let d := deliver cfg (ReorderBuffer.new 10 8) (WeightBatcher.new 25 100 .none)
      [(11, 1), (9, 2), (11, 3), (13, 4), (10, 5)]
    ∃ m, IsLeast {x | 10 ≤ x ∧ x ∉ [11, 9, 11, 13, 10]} m ∧ d.2.gapSpan = some (12, 13) ∧
      d.2.nextHeight = m := by
  intro cfg d
  obtain ⟨m, hleast, -, -, -, -, hnext, -⟩ := deliver_spec cfg 10 8 25 100 .none
    [(11, 1), (9, 2), (11, 3), (13, 4), (10, 5)] (by decide) (by decide)
  exact ⟨m, hleast, by decide, hnext⟩

end Deliver

end Redbit.Chain
