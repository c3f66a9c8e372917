import Redbit.Chain.Plan
import Redbit.Chain.Validate

/-!
# The syncer over any store of blocks (`BlockChainLike` in `api.rs`, `syncer.rs`, `launcher.rs`)

The syncer knows the store by the functions of a trait.  `Lawful` says what a store has to do for
it: it holds a list of blocks with the heights `1`, `2` and so on, which `store_blocks` makes longer
and of which `update_blocks` replaces the end.  The table of the blocks by height is such a store,
and over it the functions here are those that link blocks with a table (`tableChain_persistOrLink`),
and validate it (`tableChain_validateChain`).

Here the store is also known when linking fails in the middle of a batch: the blocks before are stored.
-/

set_option linter.unusedSectionVars false

namespace Redbit.Chain

open Redbit.Lib

/-! ### The trait -/

/-- `BlockChainLike`, with the read of a block. -/
structure BlockChainLike (S H B E : Type) where
  getBlock : S → ℕ → Except E (Option (Block H B))
  getLastHeader : S → Except E (Option (Header H))
  getHeaderByHash : S → H → Except E (List (Header H))
  storeBlocks : S → List (Block H B) → S
  updateBlocks : S → List (Block H B) → S
  validateChain : S → ℕ → Except E (List (Header H))

/-- The headers whose hash is not the `prev_hash` of the next one. -/
def unlinked {H : Type} [DecidableEq H] (headers : List (Header H)) : List (Header H) :=
  ((headers.zip headers.tail).filter fun pc => pc.1.hash ≠ pc.2.prevHash).map Prod.fst

/-- The heights of the blocks are `1`, `2` and so on. -/
def Heights {H B : Type} (blocks : List (Block H B)) : Prop :=
  blocks.map (fun b => b.header.height) = List.range' 1 blocks.length

/-- The block at a height. -/
def blockAt {H B : Type} (blocks : List (Block H B)) (height : ℕ) : Option (Block H B) :=
  if height = 0 then none else blocks[height - 1]?

namespace BlockChainLike

variable {S H B E FB : Type}

/-- A store of a list of blocks. -/
structure Lawful [DecidableEq H] (chain : BlockChainLike S H B E) (Proper : Block H B → Prop)
    (Stores : S → List (Block H B) → Prop) : Prop where
  heights : ∀ {s blocks}, Stores s blocks → Heights blocks
  getBlock : ∀ {s blocks}, Stores s blocks →
    ∀ height, chain.getBlock s height = .ok (blockAt blocks height)
  getLastHeader : ∀ {s blocks}, Stores s blocks →
    chain.getLastHeader s = .ok (blocks.getLast?.map Block.header)
  getHeaderByHash : ∀ {s blocks}, Stores s blocks →
    ∀ hash, ∃ headers, chain.getHeaderByHash s hash = .ok headers ∧
    ∀ header, header ∈ headers ↔ ∃ b ∈ blocks, b.header = header ∧ header.hash = hash
  storeBlocks : ∀ {s blocks new}, Stores s blocks → Heights (blocks ++ new) → (∀ b ∈ new, Proper b) →
    Stores (chain.storeBlocks s new) (blocks ++ new)
  updateBlocks : ∀ {s blocks old new}, Stores s (blocks ++ old) → Heights (blocks ++ new) →
    old.length ≤ new.length →
    (∀ b ∈ new, Proper b) → Stores (chain.updateBlocks s new) (blocks ++ new)
  /-- The last block is not read. -/
  validateChain : ∀ {s blocks}, Stores s blocks →
    ∀ validationFromHeight, chain.validateChain s validationFromHeight =
    .ok (unlinked ((blocks.dropLast.filter fun b => validationFromHeight ≤ b.header.height).map
      Block.header))

/-! ### The syncer -/

section Syncer

variable (chain : BlockChainLike S H B E) (blockProvider : Provider H B E)

/-- `ChainSyncer::chain_link`, at most `fuel` turns of it. -/
def chainLink (s : S) : ℕ → Block H B → Except (Failure E) (List (Block H B))
  | 0, _ => .error .fuel
  | fuel + 1, block =>
    match chain.getHeaderByHash s block.header.prevHash with
    | .error e => .error (.error e)
    | .ok prevHeaders =>
      let height := block.header.height
      if height = 1 then .ok [block]
      else
        match prevHeaders with
        | prevHeader :: _ => if prevHeader.height = height - 1 then .ok [block] else .error .panic
        | [] =>
          match blockProvider block.header.prevHash with
          | .error e => .error (.error e)
          | .ok none => .ok []
          | .ok (some parent) =>
            match chainLink s fuel parent with
            | .error f => .error f
            | .ok fork => .ok (fork ++ [block])

/-- One turn of the loop of `persist_or_link`. -/
def linkOne (s : S) (block : Block H B) : Except (Failure E) S :=
  match chain.chainLink blockProvider s (block.header.height + 1) block with
  | .error f => .error f
  | .ok [] => .ok s
  | .ok [b] => .ok (chain.storeBlocks s [b])
  | .ok blocks => .ok (chain.updateBlocks s blocks)

/-- The loop of `persist_or_link`, with the store as it leaves it. -/
def linkWhile (s : S) : List (Block H B) → S × Option (Failure E)
  | [] => (s, none)
  | block :: blocks =>
    match chain.linkOne blockProvider s block with
    | .error f => (s, some f)
    | .ok s => linkWhile s blocks

/-- `ChainSyncer::persist_or_link`. -/
def persistOrLink (forkDetectionHeight : ℕ) (s : S) (blocks : List (Block H B)) :
    S × Option (Failure E) :=
  match blocks.getLast? with
  | none => (s, none)
  | some b =>
    if b.header.height ≤ forkDetectionHeight then (chain.storeBlocks s blocks, none)
    else chain.linkWhile blockProvider s blocks

/-- The loop of the persist task.  What is read of the store does not depend on the durability of
the batches. -/
def persistTask (nonDurableBatches forkDetectionHeight : ℕ) (defaultDurability : Durability)
    (batchCounter : ℕ) (s : S) : List (List (Block H B)) → S × PersistEnd E
  | [] => (s, .disconnected)
  | batch :: batches =>
    match batchDurability nonDurableBatches batchCounter defaultDurability with
    | none => (s, .divideByZero)
    | some _ =>
      match chain.persistOrLink blockProvider forkDetectionHeight s batch with
      | (s, some f) => (s, .failed f)
      | (s, none) => persistTask nonDurableBatches forkDetectionHeight defaultDurability
          (batchCounter + 1) s batches

end Syncer

/-- What the node and the other tasks do in one sync.  Of the chain of the node the code sees its
tip, the blocks that reach the sort task, and what the block provider returns. -/
structure Round (H B E : Type) where
  nodeChain : List (Block H B)
  chainTip : Except E (Header H)
  blockProvider : Provider H B E
  arrivals : List (Block H B)
  /-- After how many batches the persist task sees a shutdown, if it does. -/
  shutdown : Option ℕ

/-- The batches that the persist task takes. -/
def Round.taken (round : Round H B E) (batches : List (List (Block H B))) : List (List (Block H B)) :=
  match round.shutdown with
  | none => batches
  | some n => batches.take n

/-- How a sync ends: with an error, with nothing to do, or as its persist task does. -/
inductive SyncEnd (E : Type) where
  | failed (e : E)
  | upToDate
  | persisted (e : PersistEnd E)

/-- `ChainSyncer::sync`. -/
def sync (chain : BlockChainLike S H B E) (indexerConf : IndexerSettings)
    (node : SyncConfig FB (Block H B)) (s : S) (lastHeader : Option (Header H))
    (round : Round H B E) : S × SyncEnd E :=
  match round.chainTip with
  | .error e => (s, .failed e)
  | .ok nodeChainTipHeader =>
    match chain.getLastHeader s with
    | .error e => (s, .failed e)
    | .ok lastStoredHeader =>
      let lastPersistedHeader := lastHeader.or lastStoredHeader
      let plan := planSync indexerConf (UInt32.ofNat nodeChainTipHeader.height)
        (lastPersistedHeader.map fun h => UInt32.ofNat h.height)
      let cfg := plan.config indexerConf node
      if plan.heightsToFetch < 1 then (s, .upToDate)
      else
        let r := chain.persistTask round.blockProvider indexerConf.nonDurableBatches
          plan.forkDetectionHeight.toNat
          cfg.defaultDurability 0 s (round.taken (sentBatches cfg round.arrivals))
        (r.1, .persisted r.2)

/-! ### The launcher and the scheduler -/

/-- How the process is started. -/
structure Start where
  /-- The storage was not there before. -/
  created : Bool
  /-- Whether the settings enable the indexer. -/
  enable : Bool
  validationFromHeight : ℕ

/-- How a launch or a tick of the scheduler ends. -/
inductive Outcome (E : Type) where
  | notValidated (e : E)
  | disabled
  | synced (e : SyncEnd E)

/-- `launch_with_provider` up to the end of its first sync. -/
def launch (chain : BlockChainLike S H B E) (indexerConf : IndexerSettings)
    (node : SyncConfig FB (Block H B)) (s : S) (start : Start) (round : Round H B E) : S × Outcome E :=
  match if start.created then .ok [] else chain.validateChain s start.validationFromHeight with
  | .error e => (s, .notValidated e)
  | .ok unlinkedHeaders =>
    if start.enable then
      let r := chain.sync indexerConf node s unlinkedHeaders.head? round
      (r.1, .synced r.2)
    else (s, .disabled)

/-- What the process does with the store: it is launched, and then the scheduler ticks, until the
next launch. -/
inductive Event (H B E : Type) where
  | launch (start : Start) (round : Round H B E)
  | tick (round : Round H B E)

/-- What the node and the other tasks do in the sync. -/
def Event.round : Event H B E → Round H B E
  | .launch _ round => round
  | .tick round => round

/-- There is a sync. -/
def Event.syncs : Event H B E → Bool
  | .launch start _ => start.enable
  | .tick _ => true

/-- One event.  The scheduler calls `sync` without a last header. -/
def act (chain : BlockChainLike S H B E) (indexerConf : IndexerSettings)
    (node : SyncConfig FB (Block H B)) (s : S) : Event H B E → S × Outcome E
  | .launch start round => chain.launch indexerConf node s start round
  | .tick round =>
    let r := chain.sync indexerConf node s none round
    (r.1, .synced r.2)

/-- The store after it. -/
def acted (chain : BlockChainLike S H B E) (indexerConf : IndexerSettings)
    (node : SyncConfig FB (Block H B)) (s : S) (event : Event H B E) : S :=
  (chain.act indexerConf node s event).1

end BlockChainLike

/-! ### The table of blocks -/

section Table

variable {H B E : Type} [DecidableEq H]

/-- `get_last_header`. -/
def getLastHeader (db : Db H B) : Option (Header H) :=
  (db.keys.sort (· ≤ ·)).getLast?.bind fun h => (db.get h).map Block.header

/-- `validate_chain`, for headers that are all read. -/
def validateStored (db : Db H B) (validationFromHeight : ℕ) : List (Header H) :=
  match getLastHeader db with
  | none => []
  | some tipHeader =>
    let heights := (db.keys.sort (· ≤ ·)).filter fun h => validationFromHeight ≤ h ∧
      h < tipHeader.height
    unlinked (heights.filterMap fun h => (db.get h).map Block.header)

/-- The table of the blocks as a store. -/
def tableChain : BlockChainLike (Db H B) H B E where
  getBlock db height := .ok (db.get height)
  getLastHeader db := .ok (getLastHeader db)
  getHeaderByHash db hash := .ok (getHeaderByHash db hash)
  storeBlocks := storeBlocks
  updateBlocks := updateBlocks
  validateChain db validationFromHeight := .ok (validateStored db validationFromHeight)

/-- Over the table `chain_link` is the one of the table. -/
lemma tableChain_chainLink (blockProvider : Provider H B E) (db : Db H B) (fuel : ℕ)
    (block : Block H B) :
    tableChain.chainLink blockProvider db fuel block = chainLink db blockProvider fuel block := by
  induction fuel generalizing block with
  | zero => rfl
  | succ fuel ih =>
    have hwalk : tableChain.chainLink blockProvider db fuel = chainLink db blockProvider fuel :=
      funext ih
    unfold BlockChainLike.chainLink
    rw [hwalk]
    rfl

lemma tableChain_linkOne (blockProvider : Provider H B E) (db : Db H B) (block : Block H B) :
    tableChain.linkOne blockProvider db block = linkOne blockProvider db block := by
  unfold BlockChainLike.linkOne linkOne
  rw [tableChain_chainLink]
  rfl

lemma tableChain_linkWhile (blockProvider : Provider H B E) (db : Db H B) (blocks : List (Block H B)) :
    linkAll blockProvider db blocks = match tableChain.linkWhile blockProvider db blocks with
      | (db, none) => .ok db
      | (_, some f) => .error f := by
  induction blocks generalizing db with
  | nil => rfl
  | cons block blocks ih =>
    unfold BlockChainLike.linkWhile linkAll
    rw [tableChain_linkOne]
    cases linkOne blockProvider db block with
    | error f => rfl
    | ok db => exact ih db

/-- Over the table `persist_or_link` is the one of the table, which forgets the table when it fails. -/
lemma tableChain_persistOrLink (blockProvider : Provider H B E) (forkDetectionHeight : ℕ) (db : Db H B)
    (blocks : List (Block H B)) : persistOrLink db blocks forkDetectionHeight blockProvider =
      match tableChain.persistOrLink blockProvider forkDetectionHeight db blocks with
      | (db, none) => .ok db
      | (_, some f) => .error f := by
  unfold BlockChainLike.persistOrLink persistOrLink
  cases blocks.getLast? with
  | none => rfl
  | some b =>
    simp only
    split
    · rfl
    · exact tableChain_linkWhile blockProvider db blocks

lemma compose_headerStore {db : Db H B} (hk : Keyed db) {h : ℕ} (hh : h ∈ db.keys.sort (· ≤ ·)) :
    ∃ b, db.get h = some b ∧ (headerStore db hk).compose h = .ok b.header := by
  obtain ⟨b, hb⟩ := Table.mem_keys.mp ((Finset.mem_sort _).mp hh)
  refine ⟨b, hb, ?_⟩
  simp only [headerStore]
  rw [hb]

lemma heights_headerStore {db : Db H B} (hk : Keyed db) :
    (headerStore db hk).heights = db.keys.sort (· ≤ ·) := rfl

lemma last_headerStore {db : Db H B} (hk : Keyed db) :
    (headerStore db hk).last = .ok (getLastHeader db) := by
  unfold HeaderStore.last getLastHeader
  rw [heights_headerStore]
  cases hlast : (db.keys.sort (· ≤ ·)).getLast? with
  | none => rfl
  | some k =>
    obtain ⟨tip, htip, hcompose⟩ := compose_headerStore hk (List.mem_of_getLast? hlast)
    simp only [hcompose, Option.bind_some, htip]
    rfl

/-- The headers of stored heights are read. -/
lemma map_compose {db : Db H B} (hk : Keyed db) {heights : List ℕ}
    (hall : ∀ h ∈ heights, h ∈ db.keys.sort (· ≤ ·)) :
    heights.map (headerStore db hk).compose =
      (heights.filterMap fun h => (db.get h).map Block.header).map .ok := by
  induction heights with
  | nil => rfl
  | cons h heights ih =>
    obtain ⟨b, hb, hcompose⟩ := compose_headerStore hk (hall h List.mem_cons_self)
    have hrest := ih fun h' hh' => hall h' (List.mem_cons_of_mem _ hh')
    simp only [List.map_cons, hcompose, hrest, List.filterMap_cons, hb, Option.map_some]

/-- Over the table `validate_chain` is the one that reads the headers by a stream. -/
lemma tableChain_validateChain {db : Db H B} (hk : Keyed db) (validationFromHeight : ℕ) :
    tableChain.validateChain db validationFromHeight =
      validateChain (headerStore db hk) validationFromHeight := by
  show Except.ok (validateStored db validationFromHeight) = _
  unfold validateChain validateStored
  rw [last_headerStore hk]
  cases getLastHeader db with
  | none => rfl
  | some tipHeader =>
    simp only [HeaderStore.streamRange, heights_headerStore]
    rw [map_compose hk fun h hh => List.mem_of_mem_filter hh]
    generalize ((db.keys.sort (· ≤ ·)).filter fun h => validationFromHeight ≤ h ∧
      h < tipHeader.height).filterMap (fun h => (db.get h).map Block.header) = headers
    cases headers with
    | nil => rfl
    | cons prev headers => exact (validateLoop_eq [] prev headers).symm

end Table

/-! ### Lists of blocks by height -/

section Heights

variable {H B : Type} {blocks new : List (Block H B)}

lemma heights_iff : Heights blocks ↔ ∀ i b, blocks[i]? = some b → b.header.height = i + 1 := by
  unfold Heights
  constructor
  · intro h i b hi
    have hget := congrArg (fun l => l[i]?) h
    obtain ⟨hlt, -⟩ := List.getElem?_eq_some_iff.mp hi
    simp only [List.getElem?_map, hi, Option.map_some, List.getElem?_range' hlt] at hget
    have := Option.some.inj hget
    omega
  · intro h
    refine List.ext_getElem? fun i => ?_
    rw [List.getElem?_map]
    cases hi : blocks[i]? with
    | none =>
      rw [Option.map_none, eq_comm, List.getElem?_eq_none_iff, List.length_range']
      exact List.getElem?_eq_none_iff.mp hi
    | some b =>
      obtain ⟨hlt, -⟩ := List.getElem?_eq_some_iff.mp hi
      rw [Option.map_some, List.getElem?_range' hlt, h i b hi]
      congr 1
      omega

lemma Heights.append_left (h : Heights (blocks ++ new)) : Heights blocks := by
  rw [heights_iff] at h ⊢
  refine fun i b hi => h i b ?_
  obtain ⟨hlt, -⟩ := List.getElem?_eq_some_iff.mp hi
  rw [List.getElem?_append_left hlt, hi]

/-- The blocks that follow have the next heights. -/
lemma Heights.right (h : Heights (blocks ++ new)) {b : Block H B} :
    b ∈ new ↔ blocks.length < b.header.height ∧ blockAt (blocks ++ new) b.header.height = some b := by
  have hat := heights_iff.mp h
  unfold blockAt
  constructor
  · intro hb
    obtain ⟨i, hi⟩ := List.mem_iff_getElem?.mp hb
    have hget : (blocks ++ new)[blocks.length + i]? = some b := by
      rw [List.getElem?_append_right (Nat.le_add_right ..), Nat.add_sub_cancel_left, hi]
    rw [hat _ b hget, if_neg (Nat.succ_ne_zero _), Nat.add_sub_cancel]
    exact ⟨by omega, hget⟩
  · rintro ⟨hlt, hget⟩
    rw [if_neg (by omega), List.getElem?_append_right (by omega)] at hget
    exact List.mem_of_getElem? hget

lemma blockAt_append {height : ℕ} (h : height ≤ blocks.length) :
    blockAt (blocks ++ new) height = blockAt blocks height := by
  unfold blockAt
  split
  · rfl
  · rw [List.getElem?_append_left (by omega)]

lemma blockAt_eq_none {height : ℕ} (h : blocks.length < height) : blockAt blocks height = none := by
  unfold blockAt
  rw [if_neg (by omega), List.getElem?_eq_none_iff]
  omega

lemma Heights.mem_iff (h : Heights blocks) {b : Block H B} :
    b ∈ blocks ↔ blockAt blocks b.header.height = some b := by
  have hall : Heights ([] ++ blocks) := h
  rw [hall.right, List.nil_append, List.length_nil]
  refine and_iff_right_of_imp fun hb => ?_
  unfold blockAt at hb
  split at hb
  · cases hb
  · omega

lemma Heights.of_blockAt (h : Heights blocks) {height : ℕ} {b : Block H B}
    (hb : blockAt blocks height = some b) : b.header.height = height ∧ b ∈ blocks := by
  unfold blockAt at hb
  split at hb
  · cases hb
  · have := heights_iff.mp h _ b hb
    exact ⟨by omega, List.mem_of_getElem? hb⟩

lemma blockAt_ne_none {height : ℕ} :
    blockAt blocks height ≠ none ↔ 1 ≤ height ∧ height ≤ blocks.length := by
  unfold blockAt
  split
  · simp_all
  · rw [Ne, List.getElem?_eq_none_iff]
    omega

lemma Heights.sorted (h : Heights blocks) :
    (blocks.map fun b => b.header.height).Pairwise (· < ·) := by
  rw [show blocks.map _ = _ from h]
  exact List.pairwise_lt_range'

lemma Heights.append_right_sorted (h : Heights (blocks ++ new)) :
    (new.map fun b => b.header.height).Pairwise (· < ·) := by
  have hall := h.sorted
  rw [List.map_append] at hall
  exact (List.pairwise_append.mp hall).2.1

/-- The blocks from a height on. -/
lemma Heights.filter_from (h : Heights blocks) (fromHeight : ℕ) :
    (blocks.filter fun b => fromHeight ≤ b.header.height) = blocks.drop (fromHeight - 1) := by
  have hat := heights_iff.mp h
  have hlow : (blocks.take (fromHeight - 1)).filter (fun b => fromHeight ≤ b.header.height) = [] := by
    refine List.filter_eq_nil_iff.mpr fun b hb => ?_
    obtain ⟨i, hi⟩ := List.mem_iff_getElem?.mp hb
    rw [List.getElem?_take] at hi
    split at hi
    · rw [hat i b hi, decide_eq_true_eq]
      omega
    · cases hi
  have hhigh : (blocks.drop (fromHeight - 1)).filter (fun b => fromHeight ≤ b.header.height) =
      blocks.drop (fromHeight - 1) := by
    refine List.filter_eq_self.mpr fun b hb => ?_
    obtain ⟨i, hi⟩ := List.mem_iff_getElem?.mp hb
    rw [List.getElem?_drop] at hi
    rw [hat _ b hi, decide_eq_true_eq]
    omega
  conv_lhs => rw [← List.take_append_drop (fromHeight - 1) blocks]
  rw [List.filter_append, hlow, hhigh, List.nil_append]

/-- A range up to the height of the last block leaves that block out. -/
lemma Heights.filter_range (h : Heights blocks) {tip : Block H B}
    (htip : blocks.getLast? = some tip) (fromHeight : ℕ) :
    (blocks.filter fun b => fromHeight ≤ b.header.height ∧ b.header.height < tip.header.height) =
      blocks.dropLast.filter fun b => fromHeight ≤ b.header.height := by
  obtain ⟨pre, rfl⟩ := List.getLast?_eq_some_iff.mp htip
  have hall := h.sorted
  rw [List.map_append] at hall
  have hlow : ∀ b ∈ pre, b.header.height < tip.header.height := fun b hb =>
    (List.pairwise_append.mp hall).2.2 _ (List.mem_map_of_mem hb) _ (List.mem_singleton_self _)
  rw [List.dropLast_concat, List.filter_append, List.filter_singleton, decide_eq_false fun hlt =>
    lt_irrefl _ hlt.2]
  refine (List.append_nil _).trans (List.filter_congr fun b hb => ?_)
  rw [decide_eq_decide, and_iff_left (hlow b hb)]

lemma Heights.nodup (h : Heights (blocks ++ new)) : (new.map fun b => b.header.height).Nodup :=
  h.append_right_sorted.imp ne_of_lt

end Heights

/-! ### The table is a store -/

section Lawful

variable {H B E : Type} [DecidableEq H]

/-- The table holds the blocks. -/
def TableStores (db : Db H B) (blocks : List (Block H B)) : Prop :=
  Heights blocks ∧ ∀ height, db.get height = blockAt blocks height

lemma tableStores_empty : TableStores (Table.empty : Db H B) [] :=
  ⟨rfl, fun height => by rw [Table.get_empty, blockAt]; split <;> rfl⟩

lemma sort_keys {db : Db H B} {blocks : List (Block H B)} (h : TableStores db blocks) :
    db.keys.sort (· ≤ ·) = List.range' 1 blocks.length := by
  have hkeys : db.keys = (List.range' 1 blocks.length).toFinset := by
    ext height
    rw [Table.mem_keys, h.2, List.mem_toFinset, List.mem_range'_1, ← Option.ne_none_iff_exists',
      blockAt_ne_none]
    omega
  rw [hkeys]
  exact (List.toFinset_sort _ List.nodup_range').mpr
    (List.Pairwise.imp le_of_lt List.pairwise_lt_range')

/-- The rows of the heights of the new blocks are theirs, and the others are those that were there. -/
lemma TableStores.replaces {db db' : Db H B} {blocks old new : List (Block H B)}
    (h : TableStores db (blocks ++ old)) (hnew : Heights (blocks ++ new))
    (hle : old.length ≤ new.length) (hr : Replaces db new db') :
    TableStores db' (blocks ++ new) := by
  refine ⟨hnew, fun height => ?_⟩
  by_cases hin : ∃ b ∈ new, b.header.height = height
  · obtain ⟨b, hb, rfl⟩ := hin
    rw [hr.1 b hb, (hnew.right.mp hb).2]
  · have hout : height ≤ blocks.length ∨ (blocks ++ new).length < height := by
      by_contra hno
      push Not at hno
      obtain ⟨b, hb⟩ := Option.ne_none_iff_exists'.mp (blockAt_ne_none.mpr ⟨by omega, hno.2⟩)
      obtain ⟨rfl, -⟩ := hnew.of_blockAt hb
      exact hin ⟨b, hnew.right.mpr ⟨hno.1, hb⟩, rfl⟩
    rw [hr.2 height fun b hb heq => hin ⟨b, hb, heq⟩, h.2]
    rcases hout with hlow | hhigh
    · rw [blockAt_append hlow, blockAt_append hlow]
    · rw [blockAt_eq_none hhigh, blockAt_eq_none]
      rw [List.length_append] at hhigh ⊢
      omega

lemma TableStores.getLastHeader {db : Db H B} {blocks : List (Block H B)} (h : TableStores db blocks) :
    Redbit.Chain.getLastHeader db = blocks.getLast?.map Block.header := by
  unfold Redbit.Chain.getLastHeader
  rw [sort_keys h, List.getLast?_eq_getElem?, List.getLast?_eq_getElem?, List.length_range']
  by_cases hnil : blocks.length = 0
  · rw [List.length_eq_zero_iff.mp hnil]
    rfl
  · rw [List.getElem?_range' (by omega), Option.bind_some, h.2]
    unfold blockAt
    rw [if_neg (by omega)]
    congr 2
    omega

theorem tableChain_lawful : (tableChain : BlockChainLike (Db H B) H B E).Lawful
    (fun _ => True) TableStores where
  heights h := h.1
  getBlock h height := congrArg Except.ok (h.2 height)
  getLastHeader h := congrArg Except.ok h.getLastHeader
  getHeaderByHash {db blocks} h hash := by
    refine ⟨_, rfl, fun header => ?_⟩
    rw [mem_getHeaderByHash]
    constructor
    · rintro ⟨height, b, hb, rfl, hhash⟩
      rw [h.2] at hb
      exact ⟨b, (h.1.of_blockAt hb).2, rfl, hhash⟩
    · rintro ⟨b, hb, rfl, hhash⟩
      exact ⟨_, b, (h.2 _).trans (h.1.mem_iff.mp hb), rfl, hhash⟩
  storeBlocks {db blocks new} h hnew _ := by
    have hnone : TableStores db (blocks ++ []) := by rwa [List.append_nil]
    refine hnone.replaces hnew (Nat.zero_le _) ?_
    exact replaces_storeBlocks hnew.nodup
  updateBlocks h hnew hle _ := h.replaces hnew hle (replaces_updateBlocks hnew.nodup)
  validateChain {db blocks} h validationFromHeight := by
    refine congrArg Except.ok ?_
    unfold validateStored
    rw [h.getLastHeader]
    cases hlast : blocks.getLast? with
    | none =>
      obtain rfl := List.getLast?_eq_none_iff.mp hlast
      rfl
    | some tip =>
      show unlinked _ = _
      rw [sort_keys h, ← h.1, List.filter_map, List.filterMap_map, ← h.1.filter_range hlast]
      congr 1
      refine List.filterMap_eq_map_iff_forall_eq_some.mpr fun b hb => ?_
      exact congrArg (Option.map Block.header)
        ((h.2 _).trans (h.1.mem_iff.mp (List.mem_of_mem_filter hb)))

end Lawful

end Redbit.Chain
