import Redbit.Chain.Delivery
import Redbit.Chain.ForkLink

/-!
# Planning a sync (`sync` in `syncer.rs`, `block_stream.rs`)

Before a sync starts its tasks it computes, in `u32`, how many heights are to be fetched and the
height above which blocks are linked with their parents.  Both are subtractions from the tip of the
node that nothing guards: the node may be behind the stored chain, and its chain may be shorter than
`fork_detection_heights`. The operations are those of `UInt32`, which wrap; with overflow checks
they panic where they would wrap.  The persist task takes a remainder by `non_durable_batches` from
its second batch on.  As in the pipeline, nothing is shut down while a sync runs.

* `SyncSound` — nothing goes wrong, the right heights are requested, and blocks near the tip are
linked;
* `syncSound_iff` — exactly when that is so.
-/

namespace Redbit.Chain

open Redbit.Lib

variable {H B E FB : Type} [DecidableEq H]

/-- What `IndexerSettings` has for planning and for the persist task. -/
structure IndexerSettings where
  forkDetectionHeights : UInt8
  minEntityBatchSize : ℕ
  nonDurableBatches : ℕ

/-- The locals of `sync` before the tasks start. -/
structure SyncPlan where
  heightToIndexFrom : UInt32
  heightsToFetch : UInt32
  forkDetectionHeight : UInt32
  batching : Bool

/-- The start of `sync`, from the heights of the tip of the node and of the last persisted header,
which is the given one or else the last one stored. -/
def planSync (indexerConf : IndexerSettings) (chainTipHeight : UInt32)
    (lastPersisted : Option UInt32) : SyncPlan :=
  let heightsToFetch := chainTipHeight - lastPersisted.elim 0 id
  { heightToIndexFrom := lastPersisted.elim 1 (· + 1)
    heightsToFetch := heightsToFetch
    forkDetectionHeight := chainTipHeight - indexerConf.forkDetectionHeights.toUInt32
    batching := indexerConf.forkDetectionHeights.toUInt32 < heightsToFetch }

/-- The heights of `RestBlockStream::stream`. -/
def streamHeights (remoteChainTip : UInt32) (lastPersisted : Option UInt32) : List ℕ :=
  let heightToIndexFrom : UInt32 := lastPersisted.elim 1 (· + 1)
  List.range' heightToIndexFrom.toNat (remoteChainTip.toNat + 1 - heightToIndexFrom.toNat)

/-- The heights that a sync asks the node for. -/
def requestedHeights (indexerConf : IndexerSettings) (chainTipHeight : UInt32)
    (lastPersisted : Option UInt32) : List ℕ :=
  if (planSync indexerConf chainTipHeight lastPersisted).heightsToFetch < 1 then []
  else streamHeights chainTipHeight lastPersisted

/-! ### The persist task -/

/-- How the persist task ends. -/
inductive PersistEnd (E : Type) where
  | disconnected
  | failed (f : Failure E)
  | divideByZero
  deriving DecidableEq

/-- The durability of a batch; `none` is the panic of a remainder by zero. -/
def batchDurability (nonDurableBatches batchCounter : ℕ) (defaultDurability : Durability) :
    Option Durability :=
  if 0 < batchCounter then
    if nonDurableBatches = 0 then none
    else if batchCounter % nonDurableBatches = 0 then some .immediate
    else some defaultDurability
  else some defaultDurability

/-- The loop of the persist task over the batches that the sort task sends: the batches persisted,
with their durability, the stored blocks, and how the loop ends. -/
def persistLoop (nonDurableBatches forkDetectionHeight : ℕ) (defaultDurability : Durability)
    (blockProvider : Provider H B E) (batchCounter : ℕ) (db : Db H B) :
    List (List (Block H B)) → List (List (Block H B) × Durability) × Db H B × PersistEnd E
  | [] => ([], db, .disconnected)
  | batch :: batches =>
    match batchDurability nonDurableBatches batchCounter defaultDurability with
    | none => ([], db, .divideByZero)
    | some durability =>
      match persistOrLink db batch forkDetectionHeight blockProvider with
      | .error f => ([], db, .failed f)
      | .ok db =>
        let r := persistLoop nonDurableBatches forkDetectionHeight defaultDurability blockProvider
          (batchCounter + 1) db batches
        ((batch, durability) :: r.1, r.2)

/-- The settings of the tasks of a planned sync; `node` is what the block provider knows of blocks. -/
def SyncPlan.config (plan : SyncPlan) (indexerConf : IndexerSettings)
    (node : SyncConfig FB (Block H B)) : SyncConfig FB (Block H B) :=
  { node with
    height := fun b => b.header.height
    heightToIndexFrom := plan.heightToIndexFrom.toNat
    batching := plan.batching
    minEntityBatchSize := indexerConf.minEntityBatchSize }

/-- The batches that the sort task sends when the blocks `arrivals` reach it. -/
def sentBatches (cfg : SyncConfig FB (Block H B)) (arrivals : List (Block H B)) :
    List (List (Block H B)) :=
  let r := sortAll cfg (ReorderBuffer.new cfg.heightToIndexFrom (1024 * 8))
    (WeightBatcher.new cfg.minEntityBatchSize (1024 * 8) cfg.defaultDurability) arrivals
  r.1 ++ r.2.2.flush.1.toList

/-- `sync`, for the blocks `arrivals` that reach the sort task; `none` when it returns before
starting a task. -/
def sync (indexerConf : IndexerSettings) (chainTipHeight : UInt32) (lastPersisted : Option UInt32)
    (node : SyncConfig FB (Block H B)) (blockProvider : Provider H B E) (db : Db H B)
    (arrivals : List (Block H B)) :
    Option (List (List (Block H B) × Durability) × Db H B × PersistEnd E) :=
  let plan := planSync indexerConf chainTipHeight lastPersisted
  let cfg := plan.config indexerConf node
  if plan.heightsToFetch < 1 then none
  else
    some (persistLoop indexerConf.nonDurableBatches plan.forkDetectionHeight.toNat
      cfg.defaultDurability blockProvider 0 db (sentBatches cfg arrivals))

/-! ### What planning should give -/

section Sound

variable (indexerConf : IndexerSettings) (chainTipHeight : UInt32) (lastPersisted : Option UInt32)
  (node : SyncConfig FB (Block H B)) (blockProvider : Provider H B E) (db : Db H B)
    (arrivals : List (Block H B))

/-- The height of the last persisted header, `0` if there is none. -/
def lastHeight (lastPersisted : Option UInt32) : ℕ := (lastPersisted.elim 0 id).toNat

/-- The batches that the persist task receives. -/
def receivedBatches : List (List (Block H B)) :=
  sentBatches ((planSync indexerConf chainTipHeight lastPersisted).config indexerConf node) arrivals

/-- Nothing goes wrong in a sync: the differences are those of the integers, no remainder is taken
by zero, nothing is fetched when there is nothing new and otherwise the heights behind the last one,
and a batch with a block above the height of fork detection goes through `chain_link`. -/
structure SyncSound : Prop where
  heights_to_fetch : ((planSync indexerConf chainTipHeight lastPersisted).heightsToFetch.toNat : ℤ) =
    chainTipHeight.toNat - lastHeight lastPersisted
  fork_detection : ((planSync indexerConf chainTipHeight
    lastPersisted).forkDetectionHeight.toNat : ℤ) =
    chainTipHeight.toNat - indexerConf.forkDetectionHeights.toNat
  no_divide_by_zero : ∀ r, sync indexerConf chainTipHeight lastPersisted node blockProvider db
    arrivals = some r → r.2.2 ≠ .divideByZero
  up_to_date : chainTipHeight.toNat ≤ lastHeight lastPersisted →
    requestedHeights indexerConf chainTipHeight lastPersisted = []
  requested : lastHeight lastPersisted < chainTipHeight.toNat →
    requestedHeights indexerConf chainTipHeight lastPersisted =
      List.range' (lastHeight lastPersisted + 1) (chainTipHeight.toNat - lastHeight lastPersisted)
  linked : ∀ batch ∈ receivedBatches indexerConf chainTipHeight lastPersisted node arrivals,
    ∀ b ∈ batch,
    (chainTipHeight.toNat : ℤ) - indexerConf.forkDetectionHeights.toNat < b.header.height →
      ∀ db : Db H B,
      persistOrLink db batch (planSync indexerConf chainTipHeight
        lastPersisted).forkDetectionHeight.toNat blockProvider = linkAll blockProvider db batch

/-- A second batch is received after the first one has been persisted without an error. -/
def SecondBatch : Prop :=
  ∃ first second rest db', receivedBatches indexerConf chainTipHeight lastPersisted node arrivals =
      first :: second :: rest ∧
    persistOrLink db first (chainTipHeight.toNat - indexerConf.forkDetectionHeights.toNat)
      blockProvider = .ok db'

end Sound

/-! ### The arithmetic -/

lemma toNat_sub_eq_iff {a b : UInt32} : ((a - b).toNat : ℤ) = a.toNat - b.toNat ↔
    b.toNat ≤ a.toNat := by
  have ha := a.toNat_lt
  have hb := b.toNat_lt
  rw [UInt32.toNat_sub]
  omega

lemma heightsToFetch_lt_one (indexerConf : IndexerSettings) {chainTipHeight : UInt32}
    {lastPersisted : Option UInt32} (h : lastHeight lastPersisted ≤ chainTipHeight.toNat) :
    (planSync indexerConf chainTipHeight lastPersisted).heightsToFetch < 1 ↔
      lastHeight lastPersisted = chainTipHeight.toNat := by
  have hexact := toNat_sub_eq_iff.mpr h
  rw [UInt32.lt_iff_toNat_lt]
  show (chainTipHeight - lastPersisted.elim 0 id).toNat < 1 ↔ _
  unfold lastHeight at h ⊢
  omega

lemma heightToIndexFrom_toNat {chainTipHeight : UInt32} {lastPersisted : Option UInt32}
    (h : lastHeight lastPersisted < chainTipHeight.toNat) :
    (lastPersisted.elim 1 (· + 1) : UInt32).toNat = lastHeight lastPersisted + 1 := by
  have htip := chainTipHeight.toNat_lt
  cases lastPersisted with
  | none => rfl
  | some last =>
    have hlast : last.toNat < chainTipHeight.toNat := h
    show (last + 1).toNat = last.toNat + 1
    rw [UInt32.toNat_add]
    exact Nat.mod_eq_of_lt (by rw [UInt32.toNat_one]; omega)

lemma streamHeights_eq {chainTipHeight : UInt32} {lastPersisted : Option UInt32}
    (h : lastHeight lastPersisted < chainTipHeight.toNat) :
    streamHeights chainTipHeight lastPersisted =
      List.range' (lastHeight lastPersisted + 1)
        (chainTipHeight.toNat - lastHeight lastPersisted) := by
  simp only [streamHeights]
  rw [heightToIndexFrom_toNat h, Nat.add_sub_add_right]

/-! ### The persist task -/

section Persist

variable {nonDurableBatches forkDetectionHeight : ℕ} {defaultDurability : Durability}
  {blockProvider : Provider H B E}

lemma batchDurability_ne_none {batchCounter : ℕ} (h : nonDurableBatches ≠ 0) :
    batchDurability nonDurableBatches batchCounter defaultDurability ≠ none := by
  unfold batchDurability
  rw [if_neg h]
  split <;> (try split) <;> simp

lemma persistLoop_ended (h : nonDurableBatches ≠ 0) (batchCounter : ℕ) (db : Db H B)
    (batches : List (List (Block H B))) :
    (persistLoop nonDurableBatches forkDetectionHeight defaultDurability blockProvider batchCounter
      db batches).2.2 ≠
      .divideByZero := by
  induction batches generalizing batchCounter db with
  | nil => simp [persistLoop]
  | cons batch batches ih =>
    rw [persistLoop]
    split
    · next hnone => exact absurd hnone (batchDurability_ne_none h)
    · split
      · simp
      · exact ih _ _

/-- Without a setting the loop panics on its second batch, if it comes to it. -/
lemma persistLoop_zero (db : Db H B) (batches : List (List (Block H B))) :
    (persistLoop 0 forkDetectionHeight defaultDurability blockProvider 0 db batches).2.2 =
      .divideByZero ↔ ∃ first second rest db', batches = first :: second :: rest ∧
        persistOrLink db first forkDetectionHeight blockProvider = .ok db' := by
  cases batches with
  | nil => simp [persistLoop]
  | cons first batches =>
    rw [persistLoop]
    simp only [batchDurability, lt_irrefl, if_false]
    cases hp : persistOrLink db first forkDetectionHeight blockProvider with
    | error f => simp [hp]
    | ok db' =>
      cases batches with
      | nil => simp [persistLoop]
      | cons second rest => simp [persistLoop, batchDurability, hp]

/-- A batch with a block above the height of fork detection is linked, if its blocks are in order. -/
lemma persistOrLink_eq_linkAll {batch : List (Block H B)} {b : Block H B} (db : Db H B)
    (hasc : batch.Pairwise fun a b => a.header.height < b.header.height) (hb : b ∈ batch)
    (h : forkDetectionHeight < b.header.height) :
    persistOrLink db batch forkDetectionHeight blockProvider = linkAll blockProvider db batch := by
  cases hlast : batch.getLast? with
  | none =>
    rw [List.getLast?_eq_none_iff.mp hlast] at hb
    exact absurd hb List.not_mem_nil
  | some l =>
    obtain ⟨pre, rfl⟩ := List.getLast?_eq_some_iff.mp hlast
    have hle : b.header.height ≤ l.header.height := by
      rcases List.mem_append.mp hb with hb | hb
      · exact ((List.pairwise_append.mp hasc).2.2 b hb l (by simp)).le
      · rw [List.mem_singleton.mp hb]
    rw [persistOrLink, hlast]
    exact if_neg (by omega)

end Persist

omit [DecidableEq H] in
/-- The sort task sends the blocks in the order of their heights. -/
lemma sentBatches_ascending (cfg : SyncConfig FB (Block H B))
    (hheight : cfg.height = fun b => b.header.height) (arrivals : List (Block H B)) :
    (sentBatches cfg arrivals).flatten.Pairwise fun a b => a.header.height < b.header.height := by
  obtain ⟨released, hordered, hout⟩ := deliverAll_spec cfg
    (WeightBatcher.new cfg.minEntityBatchSize (1024 * 8) cfg.defaultDurability)
    (ReorderBuffer.ordered_new cfg.heightToIndexFrom (1024 * 8))
      (arrivals.map fun b => (cfg.height b, b))
  have hflat : (sentBatches cfg arrivals).flatten = released := by
    rw [sentBatches, sortAll_eq, List.flatten_append, (WeightBatcher.flush_spec _).1, hout]
    rfl
  have hheights : ∀ i (hi : i < released.length), released[i].header.height =
      cfg.heightToIndexFrom + i := by
    intro i hi
    have hready := hordered.ready i hi
    rw [List.nil_append, List.getElem?_eq_getElem hi, List.nil_append] at hready
    obtain ⟨l₁, l₂, hl, -⟩ := List.lookup_eq_some_iff.mp hready.symm
    have hmem : (cfg.heightToIndexFrom + i, released[i]) ∈ arrivals.map fun b =>
      (cfg.height b, b) := by simp [hl]
    obtain ⟨b, -, hb⟩ := List.mem_map.mp hmem
    obtain ⟨hbh, hbi⟩ := Prod.mk.inj hb
    rw [← hbi, ← hbh, hheight]
  rw [hflat, List.pairwise_iff_getElem]
  intro i j hi hj hij
  rw [hheights i hi, hheights j hj]
  omega

/-! ### When a sync is sound -/

section Conditions

variable {indexerConf : IndexerSettings} {chainTipHeight : UInt32} {lastPersisted : Option UInt32}
  {node : SyncConfig FB (Block H B)} {blockProvider : Provider H B E} {db : Db H B}
    {arrivals : List (Block H B)}

omit [DecidableEq H] in
/-- The height of fork detection, when it does not wrap. -/
lemma forkDetectionHeight_toNat (lastPersisted : Option UInt32)
    (h : indexerConf.forkDetectionHeights.toNat ≤ chainTipHeight.toNat) :
    (planSync indexerConf chainTipHeight lastPersisted).forkDetectionHeight.toNat =
      chainTipHeight.toNat - indexerConf.forkDetectionHeights.toNat := by
  have hexact : ((chainTipHeight - indexerConf.forkDetectionHeights.toUInt32).toNat : ℤ) = _ :=
    toNat_sub_eq_iff.mpr (by rwa [UInt8.toNat_toUInt32])
  rw [UInt8.toNat_toUInt32] at hexact
  show (chainTipHeight - indexerConf.forkDetectionHeights.toUInt32).toNat = _
  omega

lemma no_divideByZero_iff (hlast : lastHeight lastPersisted ≤ chainTipHeight.toNat)
    (hfork : indexerConf.forkDetectionHeights.toNat ≤ chainTipHeight.toNat) :
    (∀ r, sync indexerConf chainTipHeight lastPersisted node blockProvider db arrivals = some r →
      r.2.2 ≠ .divideByZero) ↔
      (lastHeight lastPersisted = chainTipHeight.toNat ∨ indexerConf.nonDurableBatches ≠ 0 ∨
        ¬ SecondBatch indexerConf chainTipHeight lastPersisted node blockProvider db arrivals) := by
  by_cases htip : lastHeight lastPersisted = chainTipHeight.toNat
  · rw [sync, if_pos ((heightsToFetch_lt_one indexerConf hlast).mpr htip)]
    simp [htip]
  · rw [sync, if_neg (mt (heightsToFetch_lt_one indexerConf hlast).mp htip)]
    by_cases hzero : indexerConf.nonDurableBatches = 0
    · rw [hzero, forkDetectionHeight_toNat lastPersisted hfork]
      constructor
      · intro h
        right
        right
        rintro ⟨first, second, rest, db', hbatches, hfirst⟩
        exact h _ rfl ((persistLoop_zero db _).mpr ⟨first, second, rest, db', hbatches, hfirst⟩)
      · rintro (h | h | h) r hr
        · exact absurd h htip
        · exact absurd rfl h
        · rw [← Option.some.inj hr]
          exact fun hend => h ((persistLoop_zero db _).mp hend)
    · simp only [Option.some.injEq]
      constructor
      · intro _
        exact Or.inr (Or.inl hzero)
      · rintro - r rfl
        exact persistLoop_ended hzero _ _ _

end Conditions

/-- **Exactly when planning is sound.**  The node is not behind the last persisted header, its chain
is not shorter than the heights of fork detection, and, when there is something to fetch, the
persist task does not come to a remainder by a setting that is zero. -/
theorem syncSound_iff (indexerConf : IndexerSettings) (chainTipHeight : UInt32)
    (lastPersisted : Option UInt32) (node : SyncConfig FB (Block H B))
    (blockProvider : Provider H B E) (db : Db H B) (arrivals : List (Block H B)) :
    SyncSound indexerConf chainTipHeight lastPersisted node blockProvider db arrivals ↔
      lastHeight lastPersisted ≤ chainTipHeight.toNat ∧
      indexerConf.forkDetectionHeights.toNat ≤ chainTipHeight.toNat ∧
      (lastHeight lastPersisted = chainTipHeight.toNat ∨ indexerConf.nonDurableBatches ≠ 0 ∨
        ¬ SecondBatch indexerConf chainTipHeight lastPersisted node blockProvider db arrivals) := by
  constructor
  · intro h
    have hlast : lastHeight lastPersisted ≤ chainTipHeight.toNat :=
      toNat_sub_eq_iff.mp h.heights_to_fetch
    have hfork : indexerConf.forkDetectionHeights.toNat ≤ chainTipHeight.toNat := by
      have hexact := h.fork_detection
      rw [← UInt8.toNat_toUInt32] at hexact ⊢
      exact toNat_sub_eq_iff.mp hexact
    exact ⟨hlast, hfork, (no_divideByZero_iff hlast hfork).mp h.no_divide_by_zero⟩
  · rintro ⟨hlast, hfork, hpersist⟩
    have hthreshold := forkDetectionHeight_toNat lastPersisted hfork
    refine ⟨toNat_sub_eq_iff.mpr hlast, by omega, (no_divideByZero_iff hlast hfork).mpr hpersist,
      ?_, ?_, ?_⟩
    · intro hle
      rw [requestedHeights, if_pos ((heightsToFetch_lt_one indexerConf hlast).mpr (by omega))]
    · intro hlt
      have hfetch := mt (heightsToFetch_lt_one indexerConf hlast).mp (by omega)
      rw [requestedHeights, if_neg hfetch, streamHeights_eq hlt]
    · intro batch hbatch b hb habove db
      refine persistOrLink_eq_linkAll db ?_ hb (by omega)
      exact (sentBatches_ascending _ rfl arrivals).sublist (List.sublist_flatten_of_mem hbatch)

/-- A node whose blocks weigh nothing. -/
def weightless : SyncConfig (Block ℕ Unit) (Block ℕ Unit) where
  size _ := 0
  process := some
  height b := b.header.height
  weight _ := 0
  heightToIndexFrom := 1
  batching := true
  minBatchKbSize := 4
  minEntityBatchSize := 0

/-- A node without blocks of other chains. -/
def noForks : Provider ℕ Unit String := fun _ => .ok none

/-- A chain shorter than the heights of fork detection, whose blocks are then stored without their
parents being looked for; a node behind the last persisted header; and a setting of zero with two
batches. -/
theorem sync_not_sound :
    ((planSync ⟨10, 1000, 10⟩ 5 none).forkDetectionHeight = 4294967291 ∧
      ¬ SyncSound ⟨10, 1000, 10⟩ 5 none weightless noForks Table.empty []) ∧
    ((planSync ⟨10, 1000, 10⟩ 20 (some 21)).heightsToFetch = 4294967295 ∧
      ¬ SyncSound ⟨10, 1000, 10⟩ 20 (some 21) weightless noForks Table.empty []) ∧
    ¬ SyncSound ⟨0, 0, 0⟩ 2 none weightless noForks Table.empty [bare 1 1 0, bare 2 2 1] := by
  refine ⟨⟨by decide, ?_⟩, ⟨by decide, ?_⟩, ?_⟩
  · intro h
    exact absurd h.fork_detection (by decide)
  · intro h
    exact absurd h.heights_to_fetch (by decide)
  · intro h
    exact h.no_divide_by_zero _ rfl (by decide)

end Redbit.Chain
