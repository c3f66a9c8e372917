import Redbit.Chain.Batchers
import Redbit.Lib.Run
import Mathlib.Algebra.Order.Group.Multiset
import Mathlib.Tactic.Abel

/-!
# The sync pipeline (`syncer.rs`, `block_stream.rs`)

Four tasks are connected by first-in first-out channels: blocks are fetched, processed, put in order
and persisted.  Fetches (when batching) and the processing of fetched batches end in any order, and
the tasks take turns in any order; a schedule is a list of actions.  There is no shutdown, every
send finds its receiver, and the bounds of the channels, which only delay a sender, are left out.

The process task accumulates processed blocks in `proc_buf` and sends them on when their weight
crosses a threshold.  When its stream ends it stops, and what the buffer still holds goes with it.
So the pipeline delivers every block exactly when the weights of the blocks, in the order in which
they were processed, can be cut into groups that each just cross the threshold
(`pipeline_complete_iff`).
-/

namespace Redbit.Chain

open Redbit.Lib

/-- The settings of one sync, and what the block provider knows of blocks. -/
structure SyncConfig (FB TB : Type) where
  size : FB → ℕ
  /-- `block_processor`; a block that cannot be processed is dropped with a warning. -/
  process : FB → Option TB
  height : TB → ℕ
  weight : TB → ℕ
  heightToIndexFrom : ℕ
  batching : Bool
  minBatchKbSize : ℕ
  minEntityBatchSize : ℕ

namespace SyncConfig

variable {FB TB : Type} (cfg : SyncConfig FB TB)

/-- `min_entity_process_batch_size`. -/
def minEntityProcessBatchSize : ℕ := cfg.minEntityBatchSize / 64

/-- `default_durability`. -/
def defaultDurability : Durability := if cfg.batching then .none else .immediate

end SyncConfig

/-! ### The process task -/

/-- The locals of the process task. -/
structure ProcBuf (TB : Type) where
  procBuf : List TB
  procWeight : ℕ

section Process

variable {FB TB : Type} (cfg : SyncConfig FB TB)

/-- One processed block: the batches sent on, at most one, and the locals after it. -/
def accumulate (p : ProcBuf TB) (block : TB) : List (List TB) × ProcBuf TB :=
  let procWeight := saturatingAdd p.procWeight (cfg.weight block)
  let procBuf := p.procBuf ++ [block]
  if cfg.minEntityProcessBatchSize < procWeight then ([procBuf], ⟨[], 0⟩)
    else ([], ⟨procBuf, procWeight⟩)

/-- The loop over the results of one processed batch. -/
def accumulateAll (p : ProcBuf TB) : List TB → List (List TB) × ProcBuf TB
  | [] => ([], p)
  | block :: blocks =>
    let r := accumulate cfg p block
    let r' := accumulateAll r.2 blocks
    (r.1 ++ r'.1, r'.2)

end Process

/-! ### The sort task -/

section Ordering

variable {FB TB : Type} (cfg : SyncConfig FB TB)

/-- The blocks that are ready go into the weight batcher. -/
def pushAll (batcher : WeightBatcher TB) : List TB → List (List TB) × WeightBatcher TB
  | [] => ([], batcher)
  | b :: ready =>
    let r := batcher.pushWith cfg.weight b
    let r' := pushAll r.2 ready
    (r.1.toList ++ r'.1, r'.2)

/-- The loop of the sort task over one received batch. -/
def sortAll (reorder : ReorderBuffer TB) (batcher : WeightBatcher TB) :
    List TB → List (List TB) × ReorderBuffer TB × WeightBatcher TB
  | [] => ([], reorder, batcher)
  | block :: blocks =>
    let r := reorder.insert (cfg.height block) block
    let o := pushAll cfg batcher r.1
    let r' := sortAll r.2 o.2 blocks
    (o.1 ++ r'.1, r'.2)

end Ordering

/-! ### The tasks together -/

/-- The state of the four tasks and of the three channels.  `completed` and `received` are the
histories of the blocks as they were processed and as they reached the sort task; no task reads
them. -/
structure SyncState (FB TB : Type) where
  toFetch : List FB
  sizeBatcher : SizeBatcher FB
  fetchOpen : Bool
  fetchQueue : List (List FB)
  inFlight : List (List FB)
  proc : ProcBuf TB
  procOpen : Bool
  procQueue : List (List TB)
  reorder : ReorderBuffer TB
  batcher : WeightBatcher TB
  sortOpen : Bool
  sortQueue : List (List TB)
  persisted : List (List TB)
  completed : List TB
  received : List TB

/-- The moves of the tasks. -/
inductive SyncAct where
  /-- The `i`-th outstanding fetch ends. -/
  | fetch (i : ℕ)
  /-- The fetch task has seen the end of its stream. -/
  | fetchEnd
  /-- The process task spawns the processing of the next fetched batch. -/
  | spawn
  /-- The `i`-th spawned processing ends. -/
  | complete (i : ℕ)
  /-- The process task has seen the end of its stream. -/
  | procEnd
  /-- The sort task receives a processed batch. -/
  | sort
  /-- The sort task has seen the end of its channel. -/
  | sortEnd
  /-- The persist task receives a batch. -/
  | persist

section Machine

variable {FB TB : Type} (cfg : SyncConfig FB TB)

/-- The start of a sync of the blocks `raws`. -/
def SyncState.init (raws : List FB) : SyncState FB TB where
  toFetch := raws
  sizeBatcher := SizeBatcher.fromKb cfg.minBatchKbSize !cfg.batching
  fetchOpen := true
  fetchQueue := []
  inFlight := []
  proc := ⟨[], 0⟩
  procOpen := true
  procQueue := []
  reorder := ReorderBuffer.new cfg.heightToIndexFrom (1024 * 8)
  batcher := WeightBatcher.new cfg.minEntityBatchSize (1024 * 8) cfg.defaultDurability
  sortOpen := true
  sortQueue := []
  persisted := []
  completed := []
  received := []

/-- A move of one task, if it can be made. -/
def syncStep (s : SyncState FB TB) : SyncAct → Option (SyncState FB TB)
  | .fetch i =>
    -- without batching the fetches are taken in order
    if cfg.batching ∨ i = 0 then
      (s.toFetch[i]?).map fun raw =>
        let r := s.sizeBatcher.push cfg.size raw
        { s with
          toFetch := s.toFetch.eraseIdx i
          sizeBatcher := r.2
          fetchQueue := s.fetchQueue ++ r.1.toList }
    else none
  | .fetchEnd =>
    if s.fetchOpen = true ∧ s.toFetch = [] then
      let r := s.sizeBatcher.takeAll
      some { s with sizeBatcher := r.2, fetchQueue := s.fetchQueue ++ r.1.toList, fetchOpen := false }
    else none
  | .spawn =>
    match s.fetchQueue with
    | batch :: rest => some { s with fetchQueue := rest, inFlight := s.inFlight ++ [batch] }
    | [] => none
  | .complete i =>
    (s.inFlight[i]?).map fun batch =>
      let blocks := batch.filterMap cfg.process
      let r := accumulateAll cfg s.proc blocks
      { s with
        inFlight := s.inFlight.eraseIdx i
        proc := r.2
        procQueue := s.procQueue ++ r.1
        completed := s.completed ++ blocks }
  | .procEnd =>
    if s.procOpen = true ∧ s.fetchOpen = false ∧ s.fetchQueue = [] ∧ s.inFlight = [] then
      -- the locals of the task are dropped
      some { s with procOpen := false, proc := ⟨[], 0⟩ }
    else none
  | .sort =>
    match s.procQueue with
    | blocks :: rest =>
      let r := sortAll cfg s.reorder s.batcher blocks
      some { s with
        procQueue := rest
        reorder := r.2.1
        batcher := r.2.2
        sortQueue := s.sortQueue ++ r.1
        received := s.received ++ blocks }
    | [] => none
  | .sortEnd =>
    if s.sortOpen = true ∧ s.procOpen = false ∧ s.procQueue = [] then
      let r := s.batcher.flush
      some { s with batcher := r.2, sortQueue := s.sortQueue ++ r.1.toList, sortOpen := false }
    else none
  | .persist =>
    match s.sortQueue with
    | batch :: rest => some { s with sortQueue := rest, persisted := s.persisted ++ [batch] }
    | [] => none

/-- Every task has ended, and nothing is left in a channel. -/
def SyncState.Drained (s : SyncState FB TB) : Prop := s.sortOpen = false ∧ s.sortQueue = []

/-- The blocks `g` just cross the threshold of the process task: all of them do, no proper
beginning. -/
def JustCrosses (g : List TB) : Prop :=
  cfg.minEntityProcessBatchSize < (g.map cfg.weight).sum ∧
    ∀ p, p <+: g → p ≠ g → (p.map cfg.weight).sum ≤ cfg.minEntityProcessBatchSize

/-- The blocks can be cut into groups that just cross the threshold. -/
def CutsEven (blocks : List TB) : Prop := ∃ groups : List (List TB), blocks = groups.flatten ∧
  ∀ g ∈ groups, JustCrosses cfg g

end Machine

/-! ### What the process task sends on -/

section Accumulate

variable {FB TB : Type} {cfg : SyncConfig FB TB}

variable (cfg) in
lemma accumulateAll_append (p : ProcBuf TB) (xs ys : List TB) :
    accumulateAll cfg p (xs ++ ys) =
      ((accumulateAll cfg p xs).1 ++ (accumulateAll cfg (accumulateAll cfg p xs).2 ys).1,
        (accumulateAll cfg (accumulateAll cfg p xs).2 ys).2) := by
  induction xs generalizing p with
  | nil => rfl
  | cons x xs ih =>
    simp only [List.cons_append, accumulateAll]
    rw [ih]
    simp

/-- What is sent on, followed by what stays, is what was there, followed by the blocks. -/
lemma accumulateAll_content (p : ProcBuf TB) (xs : List TB) :
    (accumulateAll cfg p xs).1.flatten ++ (accumulateAll cfg p xs).2.procBuf = p.procBuf ++ xs := by
  induction xs generalizing p with
  | nil => simp [accumulateAll]
  | cons x xs ih =>
    simp only [accumulateAll, List.flatten_append, List.append_assoc]
    rw [ih]
    unfold accumulate
    simp only
    split <;> simp

/-- The weight of the buffer is the sum of its weights, and does not cross the threshold. -/
def ProcBuf.Fits (cfg : SyncConfig FB TB) (p : ProcBuf TB) : Prop :=
  p.procWeight = (p.procBuf.map cfg.weight).sum ∧ p.procWeight ≤ cfg.minEntityProcessBatchSize

lemma fits_empty : (⟨[], 0⟩ : ProcBuf TB).Fits cfg := ⟨rfl, Nat.zero_le _⟩

lemma sum_prefix_le {g p : List TB} (h : p <+: g) :
    (p.map cfg.weight).sum ≤ (g.map cfg.weight).sum := by
  obtain ⟨q, rfl⟩ := h
  rw [List.map_append, List.sum_append]
  omega

/-- The sums never come near the bound of the machine integers. -/
lemma accumulate_cases (hsize : cfg.minEntityBatchSize < 2 ^ 64) {p : ProcBuf TB} (hp : p.Fits cfg)
    (b : TB) :
    (cfg.minEntityProcessBatchSize < ((p.procBuf ++ [b]).map cfg.weight).sum ∧
      accumulate cfg p b = ([p.procBuf ++ [b]], ⟨[], 0⟩)) ∨
    (((p.procBuf ++ [b]).map cfg.weight).sum ≤ cfg.minEntityProcessBatchSize ∧
      accumulate cfg p b = ([], ⟨p.procBuf ++ [b], ((p.procBuf ++ [b]).map cfg.weight).sum⟩)) := by
  have hthr : cfg.minEntityProcessBatchSize < 2 ^ 64 - 1 := by
    unfold SyncConfig.minEntityProcessBatchSize
    omega
  have hsum : ((p.procBuf ++ [b]).map cfg.weight).sum = p.procWeight + cfg.weight b := by
    rw [List.map_append, List.sum_append, ← hp.1]
    simp
  rw [hsum]
  unfold accumulate saturatingAdd
  simp only
  by_cases hlt : cfg.minEntityProcessBatchSize < p.procWeight + cfg.weight b
  · left
    refine ⟨hlt, ?_⟩
    rw [if_pos (lt_min hlt hthr)]
  · right
    refine ⟨not_lt.mp hlt, ?_⟩
    rw [if_neg (fun h => hlt (lt_min_iff.mp h).1), min_eq_left (by omega)]

lemma cutsEven_nil : CutsEven cfg ([] : List TB) := ⟨[], rfl, by simp⟩

lemma CutsEven.cons {g blocks : List TB} (hg : JustCrosses cfg g) (h : CutsEven cfg blocks) :
    CutsEven cfg (g ++ blocks) := by
  obtain ⟨groups, rfl, hgroups⟩ := h
  refine ⟨g :: groups, rfl, ?_⟩
  rintro g' hg'
  rcases List.mem_cons.mp hg' with rfl | hg'
  · exact hg
  · exact hgroups g' hg'

/-- Blocks that each cross the threshold of the process task are cut evenly in any order. -/
lemma cutsEven_of_heavy {blocks : List TB}
    (h : ∀ b ∈ blocks, cfg.minEntityProcessBatchSize < cfg.weight b) : CutsEven cfg blocks := by
  induction blocks with
  | nil => exact cutsEven_nil
  | cons b blocks ih =>
    refine CutsEven.cons (g := [b]) ⟨?_, fun p hp hne => ?_⟩
      (ih fun c hc => h c (List.mem_cons_of_mem _ hc))
    · simpa using h b List.mem_cons_self
    · rcases List.prefix_cons_iff.mp hp with rfl | ⟨q, rfl, hq⟩
      · exact Nat.zero_le _
      · rw [List.prefix_nil.mp hq] at hne
        exact absurd rfl hne

lemma cutsEven_of_residue (hsize : cfg.minEntityBatchSize < 2 ^ 64) {p : ProcBuf TB} (hp : p.Fits cfg)
    {xs : List TB} (h : (accumulateAll cfg p xs).2.procBuf = []) : CutsEven cfg (p.procBuf ++ xs) := by
  induction xs generalizing p with
  | nil =>
    rw [show p.procBuf = [] from h]
    exact cutsEven_nil
  | cons x xs ih =>
    simp only [accumulateAll] at h
    rw [show p.procBuf ++ x :: xs = (p.procBuf ++ [x]) ++ xs by simp]
    rcases accumulate_cases hsize hp x with ⟨hlt, he⟩ | ⟨hle, he⟩
    · rw [he] at h
      refine CutsEven.cons ⟨hlt, fun q hq hne => ?_⟩ (ih fits_empty h)
      -- a proper beginning of the group lies in the buffer
      rcases List.prefix_concat_iff.mp hq with rfl | hq
      · exact absurd rfl hne
      · have : (q.map cfg.weight).sum ≤ (p.procBuf.map cfg.weight).sum := sum_prefix_le hq
        have := hp.1
        have := hp.2
        omega
    · rw [he] at h
      exact ih (p := ⟨p.procBuf ++ [x], _⟩) ⟨rfl, hle⟩ h

/-- A group that just crosses the threshold is sent on as it is. -/
lemma accumulateAll_justCrosses (hsize : cfg.minEntityBatchSize < 2 ^ 64) {p : ProcBuf TB}
    (hp : p.Fits cfg) {v : List TB} (hv : v ≠ []) (hg : JustCrosses cfg (p.procBuf ++ v)) :
    accumulateAll cfg p v = ([p.procBuf ++ v], ⟨[], 0⟩) := by
  induction v generalizing p with
  | nil => exact absurd rfl hv
  | cons x v ih =>
    simp only [accumulateAll]
    have hsplit : p.procBuf ++ x :: v = (p.procBuf ++ [x]) ++ v := by simp
    by_cases hvn : v = []
    · subst hvn
      rcases accumulate_cases hsize hp x with ⟨-, he⟩ | ⟨hle, -⟩
      · rw [he]
        rfl
      · exact absurd hg.1 (not_lt.mpr hle)
    · rcases accumulate_cases hsize hp x with ⟨hlt, -⟩ | ⟨hle, he⟩
      · refine absurd hlt (not_lt.mpr (hg.2 _ ⟨v, hsplit.symm⟩ fun heq => ?_))
        rw [hsplit] at heq
        simp [hvn] at heq
      · rw [hsplit] at hg
        have hrest := ih (p := ⟨p.procBuf ++ [x], ((p.procBuf ++ [x]).map cfg.weight).sum⟩)
          ⟨rfl, hle⟩ hvn hg
        rw [he, hsplit]
        simp only
        rw [hrest]
        rfl

/-- **The process task keeps nothing back exactly when the blocks can be cut evenly.** -/
theorem residue_eq_nil_iff (hsize : cfg.minEntityBatchSize < 2 ^ 64) (xs : List TB) :
    (accumulateAll cfg ⟨[], 0⟩ xs).2.procBuf = [] ↔ CutsEven cfg xs := by
  constructor
  · exact fun h => cutsEven_of_residue hsize fits_empty h
  · rintro ⟨groups, rfl, hgroups⟩
    have hall : (accumulateAll cfg ⟨[], 0⟩ groups.flatten).2 = ⟨[], 0⟩ := by
      induction groups with
      | nil => rfl
      | cons g groups ih =>
        have hg := hgroups g List.mem_cons_self
        have hne : g ≠ [] := by
          rintro rfl
          exact absurd hg.1 (by simp)
        rw [List.flatten_cons, accumulateAll_append,
          accumulateAll_justCrosses hsize (p := ⟨[], 0⟩) fits_empty hne hg]
        exact ih fun g' hg' => hgroups g' (List.mem_cons_of_mem _ hg')
    rw [hall]

end Accumulate

/-! ### What the sort task sends on -/

section SortSpec

variable {FB TB : Type} {cfg : SyncConfig FB TB}

lemma pushAll_spec (batcher : WeightBatcher TB) (ready : List TB) :
    (pushAll cfg batcher ready).1.flatten ++ (pushAll cfg batcher ready).2.buf = batcher.buf ++
      ready := by
  induction ready generalizing batcher with
  | nil => simp [pushAll]
  | cons b ready ih =>
    simp only [pushAll, List.flatten_append, List.append_assoc]
    rw [ih, ← List.append_assoc, batcher.pushWith_spec]
    simp

/-- **One received batch.**  The blocks that become ready go through the batcher. -/
lemma sortAll_spec {start : ℕ} {received emitted blocks : List TB} {reorder : ReorderBuffer TB}
    (batcher : WeightBatcher TB) (h : reorder.Holds cfg.height start received emitted)
    (hstart : ∀ b ∈ blocks, start ≤ cfg.height b) (hnd : ((received ++ blocks).map cfg.height).Nodup) :
    ∃ more, (sortAll cfg reorder batcher blocks).2.1.Holds cfg.height start (received ++ blocks)
      (emitted ++ more) ∧
      (sortAll cfg reorder batcher blocks).1.flatten ++ (sortAll cfg reorder batcher blocks).2.2.buf =
        batcher.buf ++ more := by
  induction blocks generalizing received emitted reorder batcher with
  | nil => exact ⟨[], by simpa [sortAll] using h, by simp [sortAll]⟩
  | cons b blocks ih =>
    have hsplit : received ++ b :: blocks = received ++ [b] ++ blocks := by simp
    have hb : cfg.height b ∉ received.map cfg.height := by
      rw [List.map_append, List.nodup_append] at hnd
      exact fun hm => hnd.2.2 _ hm _ (by simp) rfl
    have hins := h.insert (hstart b List.mem_cons_self) hb
    rw [hsplit] at hnd
    obtain ⟨more, hholds, hout⟩ := ih (pushAll cfg batcher (reorder.insert (cfg.height b) b).1).2
      hins (fun c hc => hstart c (List.mem_cons_of_mem _ hc)) hnd
    refine ⟨(reorder.insert (cfg.height b) b).1 ++ more, ?_, ?_⟩
    · rw [hsplit, ← List.append_assoc]
      exact hholds
    · simp only [sortAll, List.flatten_append, List.append_assoc]
      rw [hout, ← List.append_assoc, pushAll_spec]
      simp

end SortSpec

/-! ### The invariant of the tasks -/

section Invariant

variable {FB TB : Type} {cfg : SyncConfig FB TB}

/-- The fetched blocks that are on their way to the end of the process task. -/
def SyncState.upstream (s : SyncState FB TB) : List FB :=
  s.toFetch ++ s.sizeBatcher.buf ++ s.fetchQueue.flatten ++ s.inFlight.flatten

/-- What holds of every state the tasks can reach, for a sync that fetches blocks which are
processed to `blocks`. -/
structure SyncInv (cfg : SyncConfig FB TB) (blocks : List TB) (s : SyncState FB TB) : Prop where
  /-- Every block is still on its way, or was processed. -/
  all : (s.upstream.filterMap cfg.process ++ s.completed).Perm blocks
  fetchClosed : s.fetchOpen = false → s.toFetch = [] ∧ s.sizeBatcher.buf = []
  procClosed : s.procOpen = false →
    s.fetchOpen = false ∧ s.toFetch = [] ∧ s.fetchQueue = [] ∧ s.inFlight = []
  /-- The blocks sent on by the process task have been received, or are in its channel. -/
  sent : s.received ++ s.procQueue.flatten = (accumulateAll cfg ⟨[], 0⟩ s.completed).1.flatten
  kept : s.procOpen = true → s.proc = (accumulateAll cfg ⟨[], 0⟩ s.completed).2
  sortClosed : s.sortOpen = false → s.procOpen = false ∧ s.procQueue = [] ∧ s.batcher.buf = []
  /-- The received blocks that have been put in order are on their way to the persist task, or
  there. -/
  ordered : ∃ emitted, s.reorder.Holds cfg.height cfg.heightToIndexFrom s.received emitted ∧
    s.persisted.flatten ++ s.sortQueue.flatten ++ s.batcher.buf = emitted

variable {raws : List FB} {blocks : List TB} {s s' : SyncState FB TB}

lemma syncInv_init (hblocks : raws.filterMap cfg.process = blocks) :
    SyncInv cfg blocks (SyncState.init cfg raws : SyncState FB TB) where
  all := by
    rw [← hblocks]
    simp [SyncState.upstream, SyncState.init, SizeBatcher.fromKb, SizeBatcher.new]
  fetchClosed h := by cases h
  procClosed h := by cases h
  sent := rfl
  kept _ := rfl
  sortClosed h := by cases h
  ordered := ⟨[], ReorderBuffer.holds_new _, rfl⟩

/-- A step that only moves blocks upstream of the process task. -/
lemma SyncInv.upstream_step (h : SyncInv cfg blocks s) (hopen : s.procOpen = true)
    (hperm : s'.upstream.Perm s.upstream)
    (hfetch : s'.fetchOpen = false → s'.toFetch = [] ∧ s'.sizeBatcher.buf = [])
    (hsame : s'.completed = s.completed ∧ s'.procOpen = s.procOpen ∧ s'.received = s.received ∧
      s'.procQueue = s.procQueue ∧ s'.proc = s.proc ∧ s'.sortOpen = s.sortOpen ∧
        s'.batcher = s.batcher ∧
      s'.reorder = s.reorder ∧ s'.persisted = s.persisted ∧ s'.sortQueue = s.sortQueue) :
    SyncInv cfg blocks s' := by
  obtain ⟨hc, hpo, hr, hpq, hp, hso, hb, hre, hpe, hsq⟩ := hsame
  refine ⟨?_, hfetch, ?_, ?_, ?_, ?_, ?_⟩
  · rw [hc]
    exact ((hperm.filterMap _).append_right _).trans h.all
  · intro hcl
    rw [hpo, hopen] at hcl
    cases hcl
  · rw [hr, hpq, hc]
    exact h.sent
  · rw [hpo, hp, hc]
    exact h.kept
  · rw [hso, hpo, hpq, hb]
    exact h.sortClosed
  · rw [hre, hr, hpe, hsq, hb]
    exact h.ordered

lemma perm_eraseIdx {α : Type} {l : List α} {i : ℕ} {a : α} (h : l[i]? = some a) :
    (a :: l.eraseIdx i).Perm l := by
  obtain ⟨hi, rfl⟩ := List.getElem?_eq_some_iff.mp h
  exact List.getElem_cons_eraseIdx_perm hi

/-- As long as there is something for it to do, the process task has not ended. -/
lemma SyncInv.procOpen (h : SyncInv cfg blocks s)
    (hne : s.fetchOpen = true ∨ s.toFetch ≠ [] ∨ s.fetchQueue ≠ [] ∨ s.inFlight ≠ []) :
    s.procOpen = true := by
  by_contra hcl
  obtain ⟨h₁, h₂, h₃, h₄⟩ := h.procClosed (by simpa using hcl)
  simp [h₁, h₂, h₃, h₄] at hne

lemma SyncInv.fetch (h : SyncInv cfg blocks s) {i : ℕ} (hs : syncStep cfg s (.fetch i) = some s') :
    SyncInv cfg blocks s' := by
  unfold syncStep at hs
  simp only at hs
  split at hs
  · obtain ⟨raw, hraw, rfl⟩ := Option.map_eq_some_iff.mp hs
    have hpush := congrArg (fun l : List FB => (l : Multiset FB))
      (s.sizeBatcher.push_spec cfg.size raw)
    have herase := Multiset.coe_eq_coe.mpr (perm_eraseIdx hraw)
    have hne : s.toFetch ≠ [] := by
      intro hnil
      rw [hnil] at hraw
      cases hraw
    refine h.upstream_step (h.procOpen (by simp [hne])) ?_ (fun hcl => ?_)
      ⟨rfl, rfl, rfl, rfl, rfl, rfl, rfl, rfl, rfl, rfl⟩
    · unfold SyncState.upstream
      rw [← Multiset.coe_eq_coe]
      simp only [List.flatten_append, ← Multiset.coe_add, ← Multiset.cons_coe,
        ← Multiset.singleton_add, Multiset.coe_nil, add_zero] at hpush herase ⊢
      rw [← herase]
      calc _ = (s.toFetch.eraseIdx i : Multiset FB) +
              (((s.sizeBatcher.push cfg.size raw).1.toList.flatten : Multiset FB) +
                ((s.sizeBatcher.push cfg.size raw).2.buf : Multiset FB)) +
              (s.fetchQueue.flatten : Multiset FB) + (s.inFlight.flatten : Multiset FB) := by abel
        _ = _ := by
          rw [hpush]
          abel
    · exact absurd (h.fetchClosed hcl).1 hne
  · cases hs

lemma SyncInv.fetchEnd (h : SyncInv cfg blocks s) (hs : syncStep cfg s .fetchEnd = some s') :
    SyncInv cfg blocks s' := by
  unfold syncStep at hs
  simp only at hs
  split at hs
  · rename_i hc
    cases hs
    obtain ⟨hout, hnil⟩ := s.sizeBatcher.takeAll_spec
    refine h.upstream_step (h.procOpen (by simp [hc])) ?_ (fun _ => ⟨hc.2, hnil⟩)
      ⟨rfl, rfl, rfl, rfl, rfl, rfl, rfl, rfl, rfl, rfl⟩
    unfold SyncState.upstream
    simp only [List.flatten_append, hout, hnil]
    rw [← Multiset.coe_eq_coe]
    simp only [← Multiset.coe_add, Multiset.coe_nil, add_zero]
    abel
  · cases hs

lemma SyncInv.spawn (h : SyncInv cfg blocks s) (hs : syncStep cfg s .spawn = some s') :
    SyncInv cfg blocks s' := by
  unfold syncStep at hs
  simp only at hs
  split at hs
  · rename_i batch rest hq
    cases hs
    refine h.upstream_step (h.procOpen (by simp [hq])) ?_ h.fetchClosed
      ⟨rfl, rfl, rfl, rfl, rfl, rfl, rfl, rfl, rfl, rfl⟩
    unfold SyncState.upstream
    simp only [hq, List.flatten_append, List.flatten_cons]
    rw [← Multiset.coe_eq_coe]
    simp only [← Multiset.coe_add, List.flatten_nil, Multiset.coe_nil, add_zero]
    abel
  · cases hs

lemma SyncInv.complete (h : SyncInv cfg blocks s) {i : ℕ}
    (hs : syncStep cfg s (.complete i) = some s') : SyncInv cfg blocks s' := by
  unfold syncStep at hs
  simp only at hs
  obtain ⟨batch, hbatch, rfl⟩ := Option.map_eq_some_iff.mp hs
  have hopen : s.procOpen = true := by
    refine h.procOpen (Or.inr (Or.inr (Or.inr ?_)))
    rintro hnil
    rw [hnil] at hbatch
    cases hbatch
  have happ := accumulateAll_append cfg ⟨[], 0⟩ s.completed (batch.filterMap cfg.process)
  rw [← h.kept hopen] at happ
  refine ⟨?_, h.fetchClosed, fun hcl => ?_, ?_, fun _ => ?_, fun hcl => ?_, h.ordered⟩
  · -- the blocks of the batch leave the upstream part for the completed one
    refine List.Perm.trans ?_ h.all
    have herase := Multiset.coe_eq_coe.mpr (perm_eraseIdx hbatch)
    have hflat : (batch ++ (s.inFlight.eraseIdx i).flatten).Perm s.inFlight.flatten :=
      (perm_eraseIdx hbatch).flatten
    unfold SyncState.upstream
    simp only [List.filterMap_append, List.append_assoc]
    refine List.Perm.append_left _ (List.Perm.append_left _ (List.Perm.append_left _ ?_))
    have hmap := (hflat.filterMap cfg.process).append_right s.completed
    rw [List.filterMap_append] at hmap
    refine List.Perm.trans ?_ hmap
    rw [← Multiset.coe_eq_coe]
    simp only [← Multiset.coe_add]
    abel
  · rw [show s.procOpen = false from hcl] at hopen
    cases hopen
  · simp only
    rw [happ, List.flatten_append, List.flatten_append, ← List.append_assoc, h.sent]
  · simp only
    rw [happ]
  · have := (h.sortClosed hcl).1
    rw [this] at hopen
    cases hopen

lemma SyncInv.procEnd (h : SyncInv cfg blocks s) (hs : syncStep cfg s .procEnd = some s') :
    SyncInv cfg blocks s' := by
  unfold syncStep at hs
  simp only at hs
  split at hs
  · rename_i hc
    cases hs
    obtain ⟨hopen, hf, hq, hi⟩ := hc
    refine ⟨h.all, h.fetchClosed, fun _ => ⟨hf, (h.fetchClosed hf).1, hq, hi⟩, h.sent, fun ho => ?_,
      fun hcl => ⟨rfl, (h.sortClosed hcl).2⟩, h.ordered⟩
    cases ho
  · cases hs

lemma SyncInv.sort (h : SyncInv cfg blocks s)
    (hstart : ∀ b ∈ blocks, cfg.heightToIndexFrom ≤ cfg.height b)
    (hnd : (blocks.map cfg.height).Nodup) (hs : syncStep cfg s .sort = some s') :
    SyncInv cfg blocks s' := by
  unfold syncStep at hs
  simp only at hs
  split at hs
  · rename_i batch rest hq
    cases hs
    -- what the sort task has received is a part of the blocks
    have hcompleted : (accumulateAll cfg ⟨[], 0⟩ s.completed).1.flatten ++
        (accumulateAll cfg ⟨[], 0⟩ s.completed).2.procBuf = s.completed := by
      rw [accumulateAll_content]
      rfl
    have hsub : (s.received ++ batch).Subperm blocks := by
      refine List.Subperm.trans ?_ h.all.subperm
      refine List.Sublist.subperm (List.Sublist.trans ?_ (List.sublist_append_right _ _))
      rw [← hcompleted, ← h.sent, hq, List.flatten_cons, ← List.append_assoc,
        List.append_assoc (s.received ++ batch)]
      exact List.sublist_append_left _ _
    have hndr : ((s.received ++ batch).map cfg.height).Nodup := by
      obtain ⟨l, hl, hsubl⟩ := hsub
      exact ((hl.map _).nodup_iff).mp (hnd.sublist (hsubl.map _))
    obtain ⟨emitted, hholds, hout⟩ := h.ordered
    obtain ⟨more, hholds', hout'⟩ := sortAll_spec s.batcher hholds
      (fun b hb => hstart b (hsub.subset (List.mem_append_right _ hb))) hndr
    refine ⟨h.all, h.fetchClosed, h.procClosed, ?_, h.kept, fun hcl => ?_, _, hholds', ?_⟩
    · simp only
      rw [← h.sent, hq, List.flatten_cons, List.append_assoc]
    · have := (h.sortClosed hcl).2.1
      rw [hq] at this
      cases this
    · rw [← hout]
      simp only [List.flatten_append, List.append_assoc]
      rw [hout']
  · cases hs

lemma SyncInv.sortEnd (h : SyncInv cfg blocks s) (hs : syncStep cfg s .sortEnd = some s') :
    SyncInv cfg blocks s' := by
  unfold syncStep at hs
  simp only at hs
  split at hs
  · rename_i hc
    cases hs
    obtain ⟨hout, hnil⟩ := s.batcher.flush_spec
    obtain ⟨emitted, hholds, hem⟩ := h.ordered
    refine ⟨h.all, h.fetchClosed, h.procClosed, h.sent, h.kept, fun _ => ⟨hc.2.1, hc.2.2, hnil⟩,
      emitted, hholds, ?_⟩
    rw [← hem]
    simp only [List.flatten_append, hout, hnil, List.append_assoc, List.append_nil]
  · cases hs

lemma SyncInv.persist (h : SyncInv cfg blocks s) (hs : syncStep cfg s .persist = some s') :
    SyncInv cfg blocks s' := by
  unfold syncStep at hs
  simp only at hs
  split at hs
  · rename_i batch rest hq
    cases hs
    obtain ⟨emitted, hholds, hem⟩ := h.ordered
    refine ⟨h.all, h.fetchClosed, h.procClosed, h.sent, h.kept, h.sortClosed, emitted, hholds, ?_⟩
    rw [← hem, hq]
    simp
  · cases hs

/-- Every move of a task keeps the invariant. -/
theorem SyncInv.step (h : SyncInv cfg blocks s)
    (hstart : ∀ b ∈ blocks, cfg.heightToIndexFrom ≤ cfg.height b)
    (hnd : (blocks.map cfg.height).Nodup) {a : SyncAct} (hs : syncStep cfg s a = some s') :
    SyncInv cfg blocks s' := by
  cases a with
  | fetch i => exact h.fetch hs
  | fetchEnd => exact h.fetchEnd hs
  | spawn => exact h.spawn hs
  | complete i => exact h.complete hs
  | procEnd => exact h.procEnd hs
  | sort => exact h.sort hstart hnd hs
  | sortEnd => exact h.sortEnd hs
  | persist => exact h.persist hs

/-- What a drained pipeline has persisted, and what its process task has kept. -/
lemma SyncInv.drained (h : SyncInv cfg blocks s) (hd : s.Drained) :
    s.completed.Perm blocks ∧ s.received = (accumulateAll cfg ⟨[], 0⟩ s.completed).1.flatten ∧
      s.reorder.Holds cfg.height cfg.heightToIndexFrom s.received s.persisted.flatten := by
  obtain ⟨hpo, hpq, hbuf⟩ := h.sortClosed hd.1
  obtain ⟨hfo, htf, hfq, hif⟩ := h.procClosed hpo
  have hup : s.upstream = [] := by
    unfold SyncState.upstream
    rw [htf, (h.fetchClosed hfo).2, hfq, hif]
    rfl
  obtain ⟨emitted, hholds, hem⟩ := h.ordered
  refine ⟨?_, ?_, ?_⟩
  · have := h.all
    rwa [hup] at this
  · rw [← h.sent, hpq]
    simp
  · rw [hd.2, hbuf] at hem
    rw [show s.persisted.flatten = emitted by simpa using hem]
    exact hholds

/-- **The pipeline loses no block exactly when the processed blocks, in the order in which they were
completed, can be cut into groups that just cross the threshold of the process task.** -/
theorem pipeline_complete_iff (cfg : SyncConfig FB TB) (raws : List FB) (blocks : List TB)
    (hprocess : raws.map cfg.process = blocks.map some)
    (hheights : blocks.map cfg.height = List.range' cfg.heightToIndexFrom blocks.length)
    (hsize : cfg.minEntityBatchSize < 2 ^ 64) (acts : List SyncAct) (s : SyncState FB TB)
    (hrun : sched (syncStep cfg) (SyncState.init cfg raws) acts = some s) (hd : s.Drained) :
    s.persisted.flatten = blocks ↔ CutsEven cfg s.completed := by
  have hblocks : raws.filterMap cfg.process = blocks := by
    simpa [List.filterMap_map] using congrArg (List.filterMap id) hprocess
  have hnd : (blocks.map cfg.height).Nodup := by
    rw [hheights]
    exact List.nodup_range'
  have hstart : ∀ b ∈ blocks, cfg.heightToIndexFrom ≤ cfg.height b := by
    intro b hb
    have hm : cfg.height b ∈ blocks.map cfg.height := List.mem_map.mpr ⟨b, hb, rfl⟩
    rw [hheights, List.mem_range'_1] at hm
    exact hm.1
  have hinv : SyncInv cfg blocks s :=
    sched_inv (fun _ _ _ h hs => h.step hstart hnd hs) (syncInv_init hblocks) hrun
  obtain ⟨hperm, hrec, hholds⟩ := hinv.drained hd
  have hcontent : (accumulateAll cfg ⟨[], 0⟩ s.completed).1.flatten ++
      (accumulateAll cfg ⟨[], 0⟩ s.completed).2.procBuf = s.completed := by
    rw [accumulateAll_content]
    rfl
  rw [← residue_eq_nil_iff hsize]
  constructor
  · -- nothing can be persisted that was not received, so nothing was kept
    intro heq
    have hle : blocks.length ≤ s.received.length := by
      have hsub : blocks ⊆ s.received := by
        intro b hb
        rw [← heq] at hb
        exact (hholds.mem b).mpr (Or.inl hb)
      exact ((List.Nodup.of_map _ hnd).subperm hsub).length_le
    have hlen := congrArg List.length hcontent
    rw [List.length_append, ← hrec, hperm.length_eq] at hlen
    exact List.length_eq_zero_iff.mp (by omega)
  · intro hnil
    rw [hnil, List.append_nil, ← hrec] at hcontent
    rw [← hcontent] at hperm
    exact hholds.complete hperm hheights

end Invariant

section Examples

/-- A sync of blocks that are pairs of a height and a weight, with a threshold of `1` in the process
task. -/
def pairConfig : SyncConfig (ℕ × ℕ) (ℕ × ℕ) where
  size _ := 1
  process := some
  height := Prod.fst
  weight := Prod.snd
  heightToIndexFrom := 1
  batching := false
  minBatchKbSize := 4
  minEntityBatchSize := 64

/-- A block of weight `1` does not cross the threshold, and is dropped when the process task ends. -/
theorem pipeline_drops_block :
    ∃ acts s, sched (syncStep pairConfig) (SyncState.init pairConfig [(1, 1)]) acts = some s ∧
      s.Drained ∧ s.persisted.flatten ≠ [(1, 1)] := by
  have hrun : (sched (syncStep pairConfig) (SyncState.init pairConfig [(1, 1)])
      [.fetch 0, .fetchEnd, .spawn, .complete 0, .procEnd, .sortEnd]).map
      (fun s => (s.sortOpen, s.sortQueue, s.persisted)) = some (false, [], []) := by decide
  obtain ⟨s, hs, hfields⟩ := Option.map_eq_some_iff.mp hrun
  simp only [Prod.mk.injEq] at hfields
  obtain ⟨hopen, hqueue, hpersisted⟩ := hfields
  refine ⟨_, s, hs, ⟨hopen, hqueue⟩, ?_⟩
  rw [hpersisted]
  decide

/-- With batches of two blocks, in any order. -/
def batchingConfig : SyncConfig (ℕ × ℕ) (ℕ × ℕ) :=
  { pairConfig with size := fun _ => 2048, batching := true }

/-- Two blocks that cross the threshold by themselves, and two that do so together. -/
def fourBlocks : List (ℕ × ℕ) := [(1, 2), (2, 1), (3, 1), (4, 2)]

/-- The first block is fetched last, and the second batch is processed first. -/
def outOfOrder : List SyncAct :=
  [.fetch 1, .fetch 1, .fetch 1, .fetch 0, .fetchEnd, .spawn, .spawn, .complete 1, .complete 0,
    .procEnd, .sort, .sort, .sort, .sortEnd, .persist]

lemma justCrosses_of_inits {FB TB : Type} [DecidableEq TB] {cfg : SyncConfig FB TB} {g : List TB}
    (h : cfg.minEntityProcessBatchSize < (g.map cfg.weight).sum ∧
      ∀ p ∈ g.inits, p ≠ g → (p.map cfg.weight).sum ≤ cfg.minEntityProcessBatchSize) :
      JustCrosses cfg g :=
  ⟨h.1, fun p hp => h.2 p ((List.mem_inits p g).mpr hp)⟩

/-- All four are persisted, in the order of their heights. -/
theorem pipeline_keeps_block :
    ∃ s, sched (syncStep batchingConfig) (SyncState.init batchingConfig fourBlocks)
      outOfOrder = some s ∧
      s.completed = [(4, 2), (1, 2), (2, 1), (3, 1)] ∧ s.persisted.flatten = fourBlocks := by
  have hrun : (sched (syncStep batchingConfig) (SyncState.init batchingConfig fourBlocks)
    outOfOrder).map
      (fun s => (s.sortOpen, s.sortQueue, s.completed)) =
        some (false, [], [(4, 2), (1, 2), (2, 1), (3, 1)]) := by decide
  obtain ⟨s, hs, hfields⟩ := Option.map_eq_some_iff.mp hrun
  simp only [Prod.mk.injEq] at hfields
  obtain ⟨hopen, hqueue, hcompleted⟩ := hfields
  refine ⟨s, hs, hcompleted, ?_⟩
  refine (pipeline_complete_iff batchingConfig fourBlocks fourBlocks rfl rfl (by decide) _ s hs
    ⟨hopen, hqueue⟩).mpr ?_
  rw [hcompleted]
  refine CutsEven.cons (justCrosses_of_inits (g := [(4, 2)]) (by decide)) ?_
  refine CutsEven.cons (justCrosses_of_inits (g := [(1, 2)]) (by decide)) ?_
  exact CutsEven.cons (justCrosses_of_inits (g := [(2, 1), (3, 1)]) (by decide)) cutsEven_nil

end Examples

end Redbit.Chain
