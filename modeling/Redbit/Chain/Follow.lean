import Redbit.Chain.ChainStore

/-!
# Following a node (`launcher.rs`, `scheduler.rs`, `syncer.rs`)

The process is launched, which validates the stored chain and syncs, and then its scheduler starts
one sync after the other, until it ends and is launched again.  Between the syncs the chain of the
node grows or changes to another branch; in each of them blocks arrive in any order or not at all,
the block provider may fail, and the persist task may be shut down between two batches.  `Fair` is
what is asked of the node in one sync.

After every sync the store holds a chain of linked blocks: the one from before, or, when blocks were
stored, a longer one that is the start of the chain of the node (`follows_run`); so a launch finds
nothing to repair.  A sync that gets all blocks and no error makes it the chain of the node
(`catches_up`).
-/

set_option linter.unusedSectionVars false

namespace Redbit.Chain

open Redbit.Lib

/-- A chain of blocks from the first one on. -/
structure IsBlockChain {H B : Type} (blocks : List (Block H B)) : Prop where
  heights : Heights blocks
  linked : blocks.IsChain Follows

/-- A hash is that of one block. -/
def HashesDiffer {H B : Type} (Known : Block H B → Prop) : Prop :=
  ∀ a b, Known a → Known b → a.header.hash = b.header.hash → a = b

section Chains

variable {H B : Type} {Known : Block H B → Prop} {blocks node : List (Block H B)}

lemma IsBlockChain.take (h : IsBlockChain blocks) (n : ℕ) : IsBlockChain (blocks.take n) where
  heights := by
    have hheights := h.heights
    rw [← List.take_append_drop n blocks] at hheights
    exact hheights.append_left
  linked := h.linked.take n

lemma IsBlockChain.follows (h : IsBlockChain blocks) {i : ℕ} {a b : Block H B}
    (ha : blocks[i]? = some a) (hb : blocks[i + 1]? = some b) : Follows a b := by
  obtain ⟨hi, rfl⟩ := List.getElem?_eq_some_iff.mp ha
  obtain ⟨hi', rfl⟩ := List.getElem?_eq_some_iff.mp hb
  exact List.isChain_iff_getElem.mp h.linked i hi'

/-- Two chains with the same block at a height are the same up to it. -/
lemma take_eq_take (hhash : HashesDiffer Known) (hblocks : IsBlockChain blocks)
    (hnode : IsBlockChain node) (hknown : ∀ b ∈ blocks, Known b) (hknown' : ∀ b ∈ node, Known b)
    {i : ℕ} {b : Block H B} (hb : blocks[i]? = some b) (hb' : node[i]? = some b) :
    blocks.take (i + 1) = node.take (i + 1) := by
  induction i generalizing b with
  | zero =>
    cases blocks with
    | nil => cases hb
    | cons c blocks =>
      cases node with
      | nil => cases hb'
      | cons c' node =>
        rw [Option.some.inj (hb.trans hb'.symm)]
        rfl
  | succ i ih =>
    obtain ⟨hi, -⟩ := List.getElem?_eq_some_iff.mp hb
    obtain ⟨hi', -⟩ := List.getElem?_eq_some_iff.mp hb'
    have ha := List.getElem?_eq_getElem (Nat.lt_of_succ_lt hi)
    have ha' := List.getElem?_eq_getElem (Nat.lt_of_succ_lt hi')
    -- the parents have the hash that the block names
    have hparent : blocks[i] = node[i] := by
      refine hhash _ _ (hknown _ (List.getElem_mem _)) (hknown' _ (List.getElem_mem _)) ?_
      rw [(hblocks.follows ha hb).2, (hnode.follows ha' hb').2]
    rw [List.take_add_one (i := i + 1), List.take_add_one (i := i + 1), hb, hb', ih ha (hparent ▸ ha')]

end Chains

namespace BlockChainLike

variable {S H B E FB : Type} {chain : BlockChainLike S H B E} {Proper Known : Block H B → Prop}
variable {Stores : S → List (Block H B) → Prop} {blockProvider : Provider H B E}

/-- The provider knows the parents of the blocks of the node, or fails. -/
def KnowsParents (blockProvider : Provider H B E) (node : List (Block H B)) : Prop :=
  ∀ a ∈ node, ∀ b ∈ node, Follows a b →
    blockProvider b.header.prevHash = .ok (some a) ∨ ∃ e, blockProvider b.header.prevHash = .error e

/-- The failure is one of the provider. -/
def ProviderFails (blockProvider : Provider H B E) (f : Failure E) : Prop :=
  ∃ hash e, blockProvider hash = .error e ∧ f = .error e

/-- What is known of the chain of a node. -/
structure IsNodeChain (Known Proper : Block H B → Prop) (node : List (Block H B)) : Prop where
  chain : IsBlockChain node
  known : ∀ b ∈ node, Known b
  proper : ∀ b ∈ node, Proper b

/-- What is kept of the stored blocks. -/
structure Holds (Known : Block H B → Prop) (Stores : S → List (Block H B) → Prop) (s : S)
    (blocks : List (Block H B)) : Prop where
  stores : Stores s blocks
  chain : IsBlockChain blocks
  known : ∀ b ∈ blocks, Known b

/-- The stored blocks stay, or become a longer start of the chain of the node. -/
def Advances (node blocks blocks' : List (Block H B)) : Prop :=
  blocks' = blocks ∨ blocks.length < blocks'.length ∧ blocks' <+: node

/-- The blocks are those that are read at their heights, and no others. -/
def Reads (chain : BlockChainLike S H B E) (s : S) (blocks : List (Block H B)) : Prop :=
  ∀ height, chain.getBlock s height = .ok (blockAt blocks height)

/-- What the persist task makes of blocks that come next. -/
structure Persisted (Known : Block H B → Prop) (Stores : S → List (Block H B) → Prop)
    (blockProvider : Provider H B E) (node blocks batch : List (Block H B))
    (r : S × Option (Failure E)) : Prop where
  kept : ∃ blocks', Holds Known Stores r.1 blocks' ∧ Advances node blocks blocks' ∧
    (r.2 = none → blocks'.length = blocks.length + batch.length)
  error : ∀ f, r.2 = some f → ProviderFails blockProvider f

/-- Blocks are linked, unless the store shares all its blocks with the node. -/
def LinksOrShares (node blocks : List (Block H B)) (forkDetectionHeight : ℕ) : Prop :=
  blocks <+: node ∨ forkDetectionHeight ≤ blocks.length

/-- What is asked of one sync.  The node has a chain of linked blocks, whose tip it names; what
arrives is of that chain, and the provider knows its blocks.  The chain is not shorter than the
stored one; and where the two have parted, the stored blocks end within the heights in which forks
are looked for. -/
structure Fair (Known Proper : Block H B → Prop) (indexerConf : IndexerSettings)
    (blocks : List (Block H B)) (round : Round H B E) : Prop where
  node : IsNodeChain Known Proper round.nodeChain
  tip : ∀ header, round.chainTip = .ok header → header.height = round.nodeChain.length
  fits : round.nodeChain.length < 2 ^ 32
  arrivals : ∀ b ∈ round.arrivals, b ∈ round.nodeChain
  parents : KnowsParents round.blockProvider round.nodeChain
  ahead : blocks.length ≤ round.nodeChain.length
  reaches : blocks <+: round.nodeChain ∨
    round.nodeChain.length ≤ blocks.length + indexerConf.forkDetectionHeights.toNat ∧
      indexerConf.forkDetectionHeights.toNat ≤ round.nodeChain.length

/-- Nothing goes wrong in the sync, and there are new blocks. -/
structure Complete (indexerConf : IndexerSettings) (blocks : List (Block H B))
    (round : Round H B E) : Prop where
  tip : ∃ header, round.chainTip = .ok header
  all : ∀ b ∈ round.nodeChain.drop blocks.length, b ∈ round.arrivals
  provider : ∀ hash e, round.blockProvider hash ≠ .error e
  shutdown : round.shutdown = none
  durable : indexerConf.nonDurableBatches ≠ 0
  longer : blocks.length < round.nodeChain.length

/-- Where the event syncs, the sync is fair. -/
def FairStep (chain : BlockChainLike S H B E) (Known Proper : Block H B → Prop)
    (indexerConf : IndexerSettings) (s : S) (event : Event H B E) : Prop :=
  event.syncs = true → ∀ blocks, Reads chain s blocks →
    Fair Known Proper indexerConf blocks event.round

variable [DecidableEq H]

section Link

variable {s : S} {blocks node : List (Block H B)}

/-- **Walking back.**  From a block of the node the walk ends above blocks that the store and the
node share. -/
lemma chainLink_node (hlaw : chain.Lawful Proper Stores) (hhash : HashesDiffer Known)
    (h : Holds Known Stores s blocks) (hnode : IsNodeChain Known Proper node)
    (hparents : KnowsParents blockProvider node) {i fuel : ℕ} {b : Block H B}
    (hb : node[i]? = some b) (hi : i ≤ blocks.length) (hfuel : i < fuel) :
    (∃ f, chain.chainLink blockProvider s fuel b = .error f ∧ ProviderFails blockProvider f) ∨
      ∃ j ≤ i, chain.chainLink blockProvider s fuel b = .ok ((node.take (i + 1)).drop j) ∧
        blocks.take j = node.take j := by
  induction fuel generalizing i b with
  | zero => omega
  | succ fuel ih =>
    obtain ⟨headers, hread, hheaders⟩ := hlaw.getHeaderByHash h.stores b.header.prevHash
    have hheight : b.header.height = i + 1 := heights_iff.mp hnode.chain.heights i b hb
    have hlast : node.take (i + 1) = node.take i ++ [b] := by
      rw [List.take_add_one, hb]
      rfl
    obtain ⟨hlt, -⟩ := List.getElem?_eq_some_iff.mp hb
    have hlen : (node.take i).length = i := List.length_take_of_le hlt.le
    unfold chainLink
    rw [hread]
    cases i with
    | zero =>
      refine Or.inr ⟨0, le_rfl, ?_, rfl⟩
      rw [hlast]
      exact if_pos hheight
    | succ i =>
      have ha := List.getElem?_eq_getElem (Nat.lt_of_succ_lt hlt)
      have hfollows := hnode.chain.follows ha hb
      have hmem : node[i] ∈ node := List.getElem_mem _
      have hne : i + 1 + 1 ≠ 1 := by omega
      simp only [hheight, if_neg hne, Nat.add_sub_cancel]
      cases headers with
      | cons header rest =>
        -- the stored block with the hash is the parent
        obtain ⟨c, hc, rfl, hchash⟩ := (hheaders header).mp List.mem_cons_self
        obtain rfl : c = node[i] := by
          refine hhash _ _ (h.known c hc) (hnode.known _ hmem) ?_
          rw [hchash, hfollows.2]
        have hcheight := heights_iff.mp hnode.chain.heights i _ ha
        have hstored : blocks[i]? = some node[i] := by
          have hat := h.chain.heights.mem_iff.mp hc
          rwa [hcheight, blockAt, if_neg (Nat.succ_ne_zero i), Nat.add_sub_cancel] at hat
        refine Or.inr ⟨i + 1, le_rfl, ?_, take_eq_take hhash h.chain hnode.chain h.known hnode.known
          hstored ha⟩
        simp only [if_pos hcheight]
        rw [hlast, List.drop_left' hlen]
      | nil =>
        rcases hparents _ hmem b (List.mem_of_getElem? hb) hfollows with hok | ⟨e, herr⟩
        · rw [hok]
          rcases ih ha (Nat.le_of_succ_le hi)
            (Nat.lt_of_succ_lt_succ hfuel) with ⟨f, hf, hfails⟩ | ⟨j, hj, hfork, hsame⟩
          · exact Or.inl ⟨f, by simp only [hf], hfails⟩
          · refine Or.inr ⟨j, hj.trans (Nat.le_succ i), ?_, hsame⟩
            simp only [hfork]
            rw [hlast, List.drop_append_of_le_length (by omega)]
        · exact Or.inl ⟨.error e, by simp only [herr], _, e, herr, rfl⟩

/-- **One block.**  After it the stored blocks are those of the node up to it. -/
lemma linkOne_node (hlaw : chain.Lawful Proper Stores) (hhash : HashesDiffer Known)
    (h : Holds Known Stores s blocks) (hnode : IsNodeChain Known Proper node)
    (hparents : KnowsParents blockProvider node) {b : Block H B} (hb : node[blocks.length]? = some b) :
    (∃ f, chain.linkOne blockProvider s b = .error f ∧ ProviderFails blockProvider f) ∨
      ∃ s', chain.linkOne blockProvider s b = .ok s' ∧ Stores s' (node.take (blocks.length + 1)) := by
  obtain ⟨hlt, -⟩ := List.getElem?_eq_some_iff.mp hb
  have hheight : b.header.height = blocks.length + 1 := heights_iff.mp hnode.chain.heights _ b hb
  unfold linkOne
  rw [hheight]
  rcases chainLink_node hlaw hhash h hnode hparents hb le_rfl
      (show blocks.length < blocks.length + 1 + 1 by omega) with
    ⟨f, hf, hfails⟩ | ⟨j, hj, hfork, hsame⟩
  · exact Or.inl ⟨f, by simp only [hf], hfails⟩
  · right
    have hheights := (hnode.chain.take (blocks.length + 1)).heights
    have hsplit : node.take j ++ (node.take (blocks.length + 1)).drop j =
        node.take (blocks.length + 1) := by
      have hmin : (node.take (blocks.length + 1)).take j = node.take j := by
        rw [List.take_take, min_eq_left (by omega)]
      rw [← hmin, List.take_append_drop]
    have hproper : ∀ b ∈ (node.take (blocks.length + 1)).drop j, Proper b := fun b hb =>
      hnode.proper b (List.mem_of_mem_take (List.mem_of_mem_drop hb))
    have hlen : ((node.take (blocks.length + 1)).drop j).length = blocks.length + 1 - j := by
      rw [List.length_drop, List.length_take_of_le (by omega)]
    have hold : Stores s (node.take j ++ blocks.drop j) := by
      rw [← hsame, List.take_append_drop]
      exact h.stores
    rw [hfork]
    generalize (node.take (blocks.length + 1)).drop j = fork at hsplit hproper hlen
    rw [← hsplit] at hheights ⊢
    cases fork with
    | nil =>
      rw [List.length_nil] at hlen
      omega
    | cons c fork =>
      cases fork with
      | nil =>
        -- nothing is behind the shared blocks
        rw [List.length_singleton] at hlen
        rw [List.drop_eq_nil_of_le (by omega), List.append_nil] at hold
        exact ⟨_, rfl, hlaw.storeBlocks hold hheights hproper⟩
      | cons c' fork =>
        refine ⟨_, rfl, hlaw.updateBlocks hold hheights ?_ hproper⟩
        rw [List.length_drop]
        omega

lemma Advances.trans {blocks' blocks'' : List (Block H B)} (h : Advances node blocks blocks')
    (h' : Advances node blocks' blocks'') : Advances node blocks blocks'' := by
  rcases h' with rfl | ⟨hlt', hpre'⟩
  · exact h
  · rcases h with rfl | ⟨hlt, -⟩
    · exact Or.inr ⟨hlt', hpre'⟩
    · exact Or.inr ⟨hlt.trans hlt', hpre'⟩

lemma IsNodeChain.holds (hnode : IsNodeChain Known Proper node) {n : ℕ} (h : Stores s (node.take n)) :
    Holds Known Stores s (node.take n) :=
  ⟨h, hnode.chain.take n, fun b hb => hnode.known b (List.mem_of_mem_take hb)⟩

/-- The next blocks of the node. -/
lemma prefix_cons_drop {n : ℕ} {b : Block H B} {batch : List (Block H B)}
    (h : b :: batch <+: node.drop n) : node[n]? = some b ∧ batch <+: node.drop (n + 1) := by
  obtain ⟨rest, hrest⟩ := h
  have hb : node[n]? = some b := by
    have hget := congrArg (fun l => l[0]?) hrest
    rw [List.cons_append] at hget
    simpa using hget.symm
  refine ⟨hb, rest, ?_⟩
  have hdrop := congrArg List.tail hrest
  rwa [List.cons_append, List.tail_cons, List.tail_drop] at hdrop

lemma linkWhile_node (hlaw : chain.Lawful Proper Stores) (hhash : HashesDiffer Known)
    (h : Holds Known Stores s blocks) (hnode : IsNodeChain Known Proper node)
    (hparents : KnowsParents blockProvider node) {batch : List (Block H B)}
    (hbatch : batch <+: node.drop blocks.length) :
    Persisted Known Stores blockProvider node blocks batch
      (chain.linkWhile blockProvider s batch) := by
  induction batch generalizing s blocks with
  | nil => exact ⟨⟨blocks, h, Or.inl rfl, fun _ => rfl⟩, fun f hf => by cases hf⟩
  | cons b batch ih =>
    obtain ⟨hb, hrest⟩ := prefix_cons_drop hbatch
    obtain ⟨hlt, -⟩ := List.getElem?_eq_some_iff.mp hb
    unfold linkWhile
    rcases linkOne_node hlaw hhash h hnode hparents hb with ⟨f, hf, hfails⟩ | ⟨s', hs', hstores⟩
    · rw [hf]
      exact ⟨⟨blocks, h, Or.inl rfl, fun hnone => by cases hnone⟩, fun f' hf' =>
        Option.some.inj hf' ▸ hfails⟩
    · rw [hs']
      have hlen : (node.take (blocks.length + 1)).length = blocks.length + 1 :=
        List.length_take_of_le hlt
      obtain ⟨⟨blocks', hholds, hadv, hfull⟩, herror⟩ := ih (hnode.holds hstores) (by rwa [hlen])
      refine ⟨⟨blocks', hholds, Advances.trans (Or.inr ⟨?_, List.take_prefix _ _⟩) hadv,
        fun hnone => ?_⟩, herror⟩
      · rw [hlen]
        exact Nat.lt_succ_self _
      · rw [hfull hnone, hlen, List.length_cons]
        omega

/-- **One batch.** -/
lemma persistOrLink_node (hlaw : chain.Lawful Proper Stores) (hhash : HashesDiffer Known)
    (h : Holds Known Stores s blocks) (hnode : IsNodeChain Known Proper node)
    (hparents : KnowsParents blockProvider node) {forkDetectionHeight : ℕ}
    (hmode : LinksOrShares node blocks forkDetectionHeight) {batch : List (Block H B)}
    (hbatch : batch <+: node.drop blocks.length) :
    Persisted Known Stores blockProvider node blocks batch
      (chain.persistOrLink blockProvider forkDetectionHeight s batch) := by
  unfold persistOrLink
  cases hlast : batch.getLast? with
  | none =>
    obtain rfl := List.getLast?_eq_none_iff.mp hlast
    exact ⟨⟨blocks, h, Or.inl rfl, fun _ => rfl⟩, fun f hf => by cases hf⟩
  | some b =>
    simp only
    split
    · rename_i hle
      obtain ⟨pre, rfl⟩ := List.getLast?_eq_some_iff.mp hlast
      -- the last block is above the stored ones
      obtain ⟨rest, hrest⟩ := hbatch
      have hnodeAt : node[blocks.length + pre.length]? = some b := by
        rw [← List.getElem?_drop, ← hrest, List.append_assoc, List.getElem?_append_right le_rfl,
          Nat.sub_self]
        rfl
      have hheight := heights_iff.mp hnode.chain.heights _ b hnodeAt
      have hshares : blocks <+: node := hmode.resolve_right (by omega)
      have hpre : blocks ++ (pre ++ [b]) <+: node := by
        refine ⟨rest, ?_⟩
        rw [List.append_assoc, hrest]
        conv_lhs => rw [List.prefix_iff_eq_take.mp hshares]
        rw [List.length_take, min_eq_left hshares.length_le, List.take_append_drop]
      have hstores : Stores (chain.storeBlocks s (pre ++ [b])) (blocks ++ (pre ++ [b])) := by
        refine hlaw.storeBlocks h.stores ?_ fun c hc => hnode.proper c ?_
        · rw [List.prefix_iff_eq_take.mp hpre]
          exact (hnode.chain.take _).heights
        · exact hpre.subset (List.mem_append_right _ hc)
      refine ⟨⟨blocks ++ (pre ++ [b]), ?_, Or.inr ⟨?_, hpre⟩, fun _ => List.length_append⟩,
        fun f hf => by cases hf⟩
      · rw [List.prefix_iff_eq_take.mp hpre] at hstores ⊢
        exact hnode.holds hstores
      · rw [List.length_append, List.length_append, List.length_singleton]
        omega
    · exact linkWhile_node hlaw hhash h hnode hparents hbatch

lemma Advances.linksOrShares {blocks' : List (Block H B)} {forkDetectionHeight : ℕ}
    (h : Advances node blocks blocks') (hmode : LinksOrShares node blocks forkDetectionHeight) :
    LinksOrShares node blocks' forkDetectionHeight := by
  rcases h with rfl | ⟨-, hpre⟩
  · exact hmode
  · exact Or.inl hpre

/-- With durable batches the persist task does not divide by zero. -/
lemma persistTask_ne_divideByZero {nonDurableBatches : ℕ} (hne : nonDurableBatches ≠ 0)
    (forkDetectionHeight : ℕ) (defaultDurability : Durability) (batchCounter : ℕ) (s : S)
    (batches : List (List (Block H B))) :
    (chain.persistTask blockProvider nonDurableBatches forkDetectionHeight defaultDurability
      batchCounter s batches).2 ≠
      .divideByZero := by
  induction batches generalizing s batchCounter with
  | nil => exact fun hend => by cases hend
  | cons batch batches ih =>
    unfold persistTask
    split
    · rename_i hdurability
      exact absurd hdurability (batchDurability_ne_none hne)
    · split
      · exact fun hend => by cases hend
      · exact ih _ _

/-- **The persist task.** -/
lemma persistTask_node (hlaw : chain.Lawful Proper Stores) (hhash : HashesDiffer Known)
    (h : Holds Known Stores s blocks) (hnode : IsNodeChain Known Proper node)
    (hparents : KnowsParents blockProvider node) {nonDurableBatches forkDetectionHeight : ℕ}
    {defaultDurability : Durability} (batchCounter : ℕ)
    (hmode : LinksOrShares node blocks forkDetectionHeight) {batches : List (List (Block H B))}
    (hbatches : batches.flatten <+: node.drop blocks.length) :
    let r := chain.persistTask blockProvider nonDurableBatches forkDetectionHeight defaultDurability
      batchCounter s batches
    (∃ blocks', Holds Known Stores r.1 blocks' ∧ Advances node blocks blocks' ∧
      (r.2 = .disconnected → blocks'.length = blocks.length + batches.flatten.length)) ∧
      ∀ f, r.2 = .failed f → ProviderFails blockProvider f := by
  induction batches generalizing s blocks batchCounter with
  | nil => exact ⟨⟨blocks, h, Or.inl rfl, fun _ => rfl⟩, fun f hf => by cases hf⟩
  | cons batch batches ih =>
    rw [List.flatten_cons] at hbatches
    intro r
    obtain ⟨⟨blocks', hholds, hadv, hfull⟩, herror⟩ :=
      persistOrLink_node hlaw hhash h hnode hparents hmode ((List.prefix_append _ _).trans hbatches)
    cases hdurability : batchDurability nonDurableBatches batchCounter defaultDurability with
    | none =>
      have hr : r = (s, .divideByZero) := by
        simp only [r, persistTask, hdurability]
      rw [hr]
      exact ⟨⟨blocks, h, Or.inl rfl, fun hend => by cases hend⟩, fun f hf => by cases hf⟩
    | some durability =>
      generalize hp : chain.persistOrLink blockProvider forkDetectionHeight s batch =
        p at hholds hfull herror
      obtain ⟨s', f⟩ := p
      cases f with
      | some f =>
        have hr : r = (s', .failed f) := by
          simp only [r, persistTask, hdurability, hp]
        rw [hr]
        refine ⟨⟨blocks', hholds, hadv, fun hend => by cases hend⟩, fun f' hf' => ?_⟩
        obtain rfl := PersistEnd.failed.inj hf'
        exact herror _ rfl
      | none =>
        have hr : r = chain.persistTask blockProvider nonDurableBatches forkDetectionHeight
          defaultDurability
            (batchCounter + 1) s' batches := by
          simp only [r, persistTask, hdurability, hp]
        have hrest : batches.flatten <+: node.drop blocks'.length := by
          obtain ⟨rest, hrest⟩ := hbatches
          refine ⟨rest, ?_⟩
          rw [hfull rfl, ← List.drop_drop, ← hrest, List.append_assoc, List.drop_left' rfl]
        obtain ⟨⟨blocks'', hholds', hadv', hfull'⟩, herror'⟩ := ih hholds (batchCounter + 1)
          (hadv.linksOrShares hmode) hrest
        rw [hr]
        refine ⟨⟨blocks'', hholds', hadv.trans hadv', fun hend => ?_⟩, herror'⟩
        rw [hfull' hend, hfull rfl, List.flatten_cons, List.length_append, Nat.add_assoc]

end Link

/-! ### The sort task -/

/-- The batches hold what the reorder buffer releases. -/
lemma sentBatches_ordered (cfg : SyncConfig FB (Block H B)) (arrivals : List (Block H B)) :
    ∃ reorder : ReorderBuffer (Block H B), reorder.Ordered cfg.heightToIndexFrom
      (arrivals.map fun b => (cfg.height b, b)) (sentBatches cfg arrivals).flatten := by
  obtain ⟨released, hordered, hout⟩ := deliverAll_spec cfg
    (WeightBatcher.new cfg.minEntityBatchSize (1024 * 8) cfg.defaultDurability)
    (ReorderBuffer.ordered_new cfg.heightToIndexFrom (1024 * 8))
      (arrivals.map fun b => (cfg.height b, b))
  have hflat : (sentBatches cfg arrivals).flatten = released := by
    rw [sentBatches, sortAll_eq, List.flatten_append, (WeightBatcher.flush_spec _).1, hout]
    rfl
  rw [hflat]
  exact ⟨_, hordered⟩

/-- Of blocks of the node in any order the next ones are sent, and all of them if none is missing. -/
lemma sentBatches_node (cfg : SyncConfig FB (Block H B))
    (hheight : cfg.height = fun b => b.header.height) {node arrivals : List (Block H B)}
    (hnode : IsBlockChain node) (harrivals : ∀ b ∈ arrivals, b ∈ node) {n : ℕ}
    (hfrom : cfg.heightToIndexFrom = n + 1) :
    (sentBatches cfg arrivals).flatten <+: node.drop n ∧
      ((∀ b ∈ node.drop n, b ∈ arrivals) → (sentBatches cfg arrivals).flatten = node.drop n) := by
  obtain ⟨reorder, hordered⟩ := sentBatches_ordered cfg arrivals
  rw [hfrom, hheight] at hordered
  have hlookup : ∀ {x b}, (arrivals.map fun b => (b.header.height, b)).lookup x = some b →
      node[x - 1]? = some b ∧ x ≠ 0 := by
    intro x b hx
    obtain ⟨l₁, l₂, hl, -⟩ := List.lookup_eq_some_iff.mp hx
    obtain ⟨c, hc, heq⟩ := List.mem_map.mp (show (x, b) ∈ arrivals.map fun b =>
      (b.header.height, b) by simp [hl])
    obtain ⟨rfl, rfl⟩ := Prod.mk.inj heq
    have hat := hnode.heights.mem_iff.mp (harrivals c hc)
    unfold blockAt at hat
    split at hat
    · cases hat
    · exact ⟨hat, ‹_›⟩
  generalize (sentBatches cfg arrivals).flatten = sent at hordered
  have hsent : ∀ i, i < sent.length → sent[i]? = node[n + i]? := by
    intro i hi
    have hready := hordered.ready i hi
    rw [List.getElem?_eq_getElem hi] at hready ⊢
    rw [← (hlookup hready.symm).1]
    congr 1
    omega
  have hstart : sent <+: node.drop n := by
    rw [List.prefix_iff_getElem?]
    intro i hi
    rw [List.getElem?_drop, ← hsent i hi, List.getElem?_eq_getElem hi]
  refine ⟨hstart, fun hall => hstart.eq_of_length (le_antisymm hstart.length_le ?_)⟩
  by_contra hlt
  push Not at hlt
  -- the next block arrived, so it is not missing
  have hget := List.getElem?_eq_getElem hlt
  have hmem : (node.drop n)[sent.length] ∈ arrivals := hall _ (List.getElem_mem hlt)
  rw [List.getElem?_drop] at hget
  have hheight' := heights_iff.mp hnode.heights _ _ hget
  have hcame : (arrivals.map fun b => (b.header.height, b)).lookup reorder.nextHeight ≠ none := by
    rw [Ne, ← Option.not_isSome_iff_eq_none, not_not, ReorderBuffer.lookup_isSome_iff_mem,
      List.map_map, List.mem_map]
    refine ⟨_, hmem, ?_⟩
    show (node.drop n)[sent.length].header.height = _
    rw [hheight', hordered.next]
    omega
  exact hcame hordered.missing

/-! ### One sync -/

section Sync

variable {indexerConf : IndexerSettings} {s : S} {blocks : List (Block H B)}
  {round : Round H B E}

lemma toNat_ofNat {n : ℕ} (h : n < 2 ^ 32) : (UInt32.ofNat n).toNat = n := UInt32.toNat_ofNat_of_lt' h

/-- The height of the last block is the number of the blocks. -/
lemma lastHeight_eq (h : Heights blocks) (hlt : blocks.length < 2 ^ 32) :
    lastHeight ((blocks.getLast?.map Block.header).map fun h => UInt32.ofNat h.height) =
      blocks.length := by
  unfold lastHeight
  cases hlast : blocks.getLast? with
  | none =>
    rw [List.getLast?_eq_none_iff.mp hlast]
    rfl
  | some b =>
    rw [List.getLast?_eq_getElem?] at hlast
    have hheight := heights_iff.mp h _ b hlast
    obtain ⟨hlen, -⟩ := List.getElem?_eq_some_iff.mp hlast
    show (UInt32.ofNat b.header.height).toNat = _
    rw [hheight, toNat_ofNat (by omega)]
    omega

lemma flatten_taken_isPrefix (batches : List (List (Block H B))) :
    (round.taken batches).flatten <+: batches.flatten := by
  unfold Round.taken
  split
  · exact List.prefix_rfl
  · exact (List.take_prefix _ _).flatten

/-- The persist task of a complete sync gets to the end of the batches. -/
lemma Complete.disconnected (h : Complete indexerConf blocks round) {r : PersistEnd E}
    (herror : ∀ f, r = .failed f → ProviderFails round.blockProvider f) (hzero : r ≠ .divideByZero) :
    r = .disconnected := by
  cases r with
  | disconnected => rfl
  | failed f =>
    obtain ⟨hash, e, he, -⟩ := herror f rfl
    exact absurd he (h.provider hash e)
  | divideByZero => exact absurd rfl hzero

/-- **One sync.** -/
lemma sync_node (node : SyncConfig FB (Block H B)) (hlaw : chain.Lawful Proper Stores)
    (hhash : HashesDiffer Known) (h : Holds Known Stores s blocks)
    (hfair : Fair Known Proper indexerConf blocks round) :
    let r := chain.sync indexerConf node s none round
    ∃ blocks', Holds Known Stores r.1 blocks' ∧ Advances round.nodeChain blocks blocks' ∧
      (∀ f, r.2 = .persisted (.failed f) → ProviderFails round.blockProvider f) ∧
      (Complete indexerConf blocks round → blocks' = round.nodeChain) := by
  intro r
  cases htip : round.chainTip with
  | error e =>
    have hr : r = (s, .failed e) := by simp only [r, sync, htip]
    rw [hr]
    refine ⟨blocks, h, Or.inl rfl, fun f hf => (by cases hf), fun hcomplete => ?_⟩
    obtain ⟨header, hheader⟩ := hcomplete.tip
    rw [htip] at hheader
    cases hheader
  | ok header =>
    have hlen := hfair.ahead
    have hfits := hfair.fits
    have hheader : (UInt32.ofNat header.height).toNat = round.nodeChain.length := by
      rw [hfair.tip header htip, toNat_ofNat hfits]
    have hlast := lastHeight_eq h.chain.heights (by omega)
    have hfetch := heightsToFetch_lt_one indexerConf
      (show lastHeight _ ≤ (UInt32.ofNat header.height).toNat by rw [hlast, hheader]; exact hlen)
    rw [hlast, hheader] at hfetch
    simp only [r, sync, htip, hlaw.getLastHeader h.stores]
    rw [Option.none_or]
    by_cases hlt : blocks.length = round.nodeChain.length
    · rw [if_pos (hfetch.mpr hlt)]
      exact ⟨blocks, h, Or.inl rfl, fun f hf => (by cases hf), fun hcomplete =>
        absurd hlt hcomplete.longer.ne⟩
    · rw [if_neg (mt hfetch.mp hlt)]
      have hmode : LinksOrShares round.nodeChain blocks
        (planSync indexerConf (UInt32.ofNat header.height)
          ((blocks.getLast?.map Block.header).map fun h =>
            UInt32.ofNat h.height)).forkDetectionHeight.toNat := by
        refine hfair.reaches.imp id fun ⟨hreach, hfork⟩ => ?_
        rw [forkDetectionHeight_toNat _ (by rwa [hheader]), hheader]
        omega
      obtain ⟨hstart, hall⟩ := sentBatches_node ((planSync indexerConf (UInt32.ofNat header.height)
        ((blocks.getLast?.map Block.header).map fun h => UInt32.ofNat h.height)).config
          indexerConf node) rfl
        hfair.node.chain hfair.arrivals (n := blocks.length) (by
          have hbelow : lastHeight ((blocks.getLast?.map Block.header).map fun h =>
            UInt32.ofNat h.height) <
              (UInt32.ofNat header.height).toNat := by
            rw [hlast, hheader]
            omega
          exact (heightToIndexFrom_toNat hbelow).trans (congrArg (· + 1) hlast))
      obtain ⟨⟨blocks', hholds, hadv, hfull⟩, herror⟩ :=
        persistTask_node hlaw hhash h hfair.node hfair.parents 0
        hmode ((flatten_taken_isPrefix _).trans hstart)
      refine ⟨blocks', hholds, hadv, fun f hf => herror f (SyncEnd.persisted.inj hf),
        fun hcomplete => ?_⟩
      have hlength := hfull (hcomplete.disconnected herror
        (persistTask_ne_divideByZero hcomplete.durable _ _ _ _ _))
      have htaken : ∀ batches, round.taken batches = batches := fun batches => by
        unfold Round.taken
        rw [hcomplete.shutdown]
      rw [htaken, hall hcomplete.all, List.length_drop] at hlength
      rcases hadv with rfl | ⟨-, hpre⟩
      · omega
      · exact hpre.eq_of_length (by omega)

end Sync

/-! ### Launches and ticks -/

section Act

variable {indexerConf : IndexerSettings} {s : S} {blocks : List (Block H B)}

/-- No header of linked blocks is unlinked. -/
lemma unlinked_of_isChain (h : blocks.IsChain Follows) : unlinked (blocks.map Block.header) = [] := by
  unfold unlinked
  rw [List.map_eq_nil_iff, List.filter_eq_nil_iff]
  rintro ⟨p, c⟩ hpc
  obtain ⟨i, hi⟩ := List.mem_iff_getElem?.mp hpc
  obtain ⟨hp, hc⟩ := List.getElem?_zip_eq_some.mp hi
  rw [List.getElem?_tail, List.getElem?_map, Option.map_eq_some_iff] at hc
  rw [List.getElem?_map, Option.map_eq_some_iff] at hp
  obtain ⟨a, ha, rfl⟩ := hp
  obtain ⟨b, hb, rfl⟩ := hc
  obtain ⟨hlt, rfl⟩ := List.getElem?_eq_some_iff.mp ha
  obtain ⟨hlt', rfl⟩ := List.getElem?_eq_some_iff.mp hb
  have hfollows := List.isChain_iff_getElem.mp h i hlt'
  rw [decide_eq_true_eq, not_not]
  exact hfollows.2

/-- Validation finds nothing. -/
lemma Holds.validateChain (hlaw : chain.Lawful Proper Stores) (h : Holds Known Stores s blocks)
    (validationFromHeight : ℕ) : chain.validateChain s validationFromHeight = .ok [] := by
  have hdrop : IsBlockChain blocks.dropLast := by
    rw [List.dropLast_eq_take]
    exact h.chain.take _
  rw [hlaw.validateChain h.stores, hdrop.heights.filter_from]
  exact congrArg Except.ok (unlinked_of_isChain (hdrop.linked.drop _))

/-- **A launch is a tick**, if the settings enable the indexer: there is no header from which the
chain has to be read again. -/
lemma act_eq (node : SyncConfig FB (Block H B)) (hlaw : chain.Lawful Proper Stores)
    (h : Holds Known Stores s blocks) (event : Event H B E) : chain.act indexerConf node s event =
      if event.syncs then
        ((chain.sync indexerConf node s none event.round).1,
          .synced (chain.sync indexerConf node s none event.round).2)
      else (s, .disabled) := by
  cases event with
  | launch start round =>
    have hnone : (if start.created then .ok []
        else chain.validateChain s start.validationFromHeight) = Except.ok [] := by
      split
      · rfl
      · exact h.validateChain hlaw _
    show chain.launch indexerConf node s start round = _
    unfold launch
    rw [hnone]
    rfl
  | tick round => rfl

/-- **One event.** -/
lemma act_node (node : SyncConfig FB (Block H B)) (hlaw : chain.Lawful Proper Stores)
    (hhash : HashesDiffer Known) (h : Holds Known Stores s blocks) (event : Event H B E)
    (hfair : event.syncs = true → Fair Known Proper indexerConf blocks event.round) :
    let r := chain.act indexerConf node s event
    ∃ blocks', Holds Known Stores r.1 blocks' ∧ Advances event.round.nodeChain blocks blocks' ∧
      (∀ e, r.2 ≠ .notValidated e) ∧
      (∀ f, r.2 = .synced (.persisted (.failed f)) → ProviderFails event.round.blockProvider f) ∧
      (event.syncs = true → Complete indexerConf blocks event.round →
        blocks' = event.round.nodeChain) := by
  intro r
  have hr : r = _ := act_eq node hlaw h event
  rw [hr]
  split
  · rename_i hsyncs
    obtain ⟨blocks', hholds, hadv, herror, hall⟩ := sync_node node hlaw hhash h (hfair hsyncs)
    refine ⟨blocks', hholds, hadv, fun e he => (by cases he), fun f hf =>
      herror f (Outcome.synced.inj hf), fun _ => hall⟩
  · rename_i hsyncs
    exact ⟨blocks, h, Or.inl rfl, fun e he => (by cases he), fun f hf => (by cases hf), fun hyes =>
      absurd hyes hsyncs⟩

end Act

section Run

variable {indexerConf : IndexerSettings} {node : SyncConfig FB (Block H B)} {s₀ : S}
  {blocks₀ : List (Block H B)}

/-- The stored blocks along the run. -/
lemma holds_run (hlaw : chain.Lawful Proper Stores) (hhash : HashesDiffer Known)
    (h₀ : Holds Known Stores s₀ blocks₀) {events : List (Event H B E)}
    (hfair : EachStep (chain.acted indexerConf node) (FairStep chain Known Proper indexerConf)
      s₀ events) :
    ∀ p, p <+: events → ∃ blocks, Holds Known Stores (run (chain.acted indexerConf node) s₀ p)
      blocks := by
  refine @run_inv _ _ _ (fun s => ∃ blocks, Holds Known Stores s blocks) _ _ ⟨blocks₀, h₀⟩ ?_ _ hfair
  rintro s event ⟨blocks, hblocks⟩ hevent
  obtain ⟨blocks', hblocks', -⟩ :=
    act_node node hlaw hhash hblocks event fun hsyncs =>
      hevent hsyncs blocks (hlaw.getBlock hblocks.stores)
  exact ⟨blocks', hblocks'⟩

/-- **The store follows the node.**  Over launches and ticks the store holds a chain of linked
blocks: after each of them the one before it, or a longer start of the chain of the node.
Validation does not stop a launch.  Linking never panics, and it ends: it fails only where the
provider does. -/
theorem follows_run (hlaw : chain.Lawful Proper Stores) (hhash : HashesDiffer Known)
    (h₀ : Holds Known Stores s₀ blocks₀) (events : List (Event H B E))
    (hfair : EachStep (chain.acted indexerConf node) (FairStep chain Known Proper indexerConf)
      s₀ events) : ∀ p event, p ++ [event] <+: events →
      let s := run (chain.acted indexerConf node) s₀ p
      let r := chain.act indexerConf node s event
      ∃ blocks blocks', Reads chain s blocks ∧ IsBlockChain blocks ∧ Reads chain r.1 blocks' ∧
        IsBlockChain blocks' ∧
        Advances event.round.nodeChain blocks blocks' ∧ (∀ e, r.2 ≠ .notValidated e) ∧
        ∀ f, r.2 = .synced (.persisted (.failed f)) → ProviderFails event.round.blockProvider f := by
  intro p event hp s r
  obtain ⟨blocks, hblocks⟩ := holds_run hlaw hhash h₀ hfair p (prefix_of_concat hp)
  have hreads := hlaw.getBlock hblocks.stores
  obtain ⟨blocks', hblocks', hadv, hvalid, herror, -⟩ :=
    act_node node hlaw hhash hblocks event fun hsyncs => hfair p event hp hsyncs blocks hreads
  exact ⟨blocks, blocks', hreads, hblocks.chain, hlaw.getBlock hblocks'.stores, hblocks'.chain,
    hadv, hvalid, herror⟩

/-- **The store catches up.**  Whatever the syncs before have left out, one sync with all new blocks
and without an error, of a launch or of the scheduler, makes the stored chain that of the node, on
whichever branch it is. -/
theorem catches_up (hlaw : chain.Lawful Proper Stores) (hhash : HashesDiffer Known)
    (h₀ : Holds Known Stores s₀ blocks₀) (events : List (Event H B E)) (event : Event H B E)
    (hfair : EachStep (chain.acted indexerConf node) (FairStep chain Known Proper indexerConf) s₀
      (events ++ [event]))
    (hsyncs : event.syncs = true)
    (hcomplete : ∀ blocks, Reads chain (run (chain.acted indexerConf node) s₀ events) blocks →
      Complete indexerConf blocks event.round) :
    Reads chain (run (chain.acted indexerConf node) s₀ (events ++ [event])) event.round.nodeChain := by
  obtain ⟨blocks, hblocks⟩ := holds_run hlaw hhash h₀ hfair events (List.prefix_append _ _)
  have hreads := hlaw.getBlock hblocks.stores
  obtain ⟨blocks', hblocks', -, -, -, hcaught⟩ :=
    act_node node hlaw hhash hblocks event fun hsyncs =>
      hfair events event List.prefix_rfl hsyncs blocks hreads
  obtain rfl := hcaught hsyncs (hcomplete blocks hreads)
  rw [run_concat]
  exact hlaw.getBlock hblocks'.stores

end Run

/-- The blocks that are read are determined. -/
lemma Reads.unique {s : S} {blocks blocks' : List (Block H B)} (h : Reads chain s blocks)
    (h' : Reads chain s blocks') : blocks = blocks' := by
  refine List.ext_getElem? fun i => ?_
  have heq := (h (i + 1)).symm.trans (h' (i + 1))
  exact Except.ok.inj heq

end BlockChainLike

/-! ### A node that changes its branch -/

section Branches

open BlockChainLike

/-- A table of blocks with numbers for hashes. -/
def smallChain : BlockChainLike (Db ℕ Unit) ℕ Unit String := tableChain

lemma smallChain_lawful : smallChain.Lawful (fun _ => True) TableStores := tableChain_lawful

/-- Two branches with the same first block. -/
def branch : List (Block ℕ Unit) := [bare 1 1 0, bare 2 2 1]

/-- The longer one. -/
def longerBranch : List (Block ℕ Unit) := [bare 1 1 0, bare 2 32 1, bare 3 33 32]

/-- A node that knows the blocks of both. -/
def branchesNode : Provider ℕ Unit String := fun hash =>
    .ok ((branch ++ longerBranch).find? fun b => b.header.hash = hash)

/-- The blocks of the first branch arrive, the last one first. -/
def firstRound : Round ℕ Unit String := ⟨branch, .ok ⟨2, 2, 1⟩, branchesNode, branch.reverse, none⟩

/-- Then the node is on the other branch, and its last block arrives. -/
def secondRound : Round ℕ Unit String :=
  ⟨longerBranch, .ok ⟨3, 33, 32⟩, branchesNode, [bare 3 33 32], none⟩

/-- The settings, with two heights of fork detection. -/
def twoHeights : IndexerSettings := ⟨2, 1000, 10⟩

/-- A block of one of the branches. -/
def OnBranch (b : Block ℕ Unit) : Prop := b ∈ branch ++ longerBranch

lemma hashesDiffer_branches : HashesDiffer OnBranch := by
  have hall : ∀ a ∈ branch ++ longerBranch, ∀ b ∈ branch ++ longerBranch, a.header.hash =
      b.header.hash → a = b := by
    decide
  exact fun a b ha hb => hall a ha b hb

lemma isNodeChain_branch : IsNodeChain OnBranch (fun _ => True) branch := by
  refine ⟨⟨rfl, ?_⟩, fun _ hb => List.mem_append_left _ hb, fun _ _ => trivial⟩
  exact List.isChain_pair.mpr ⟨rfl, rfl⟩

lemma isNodeChain_longerBranch : IsNodeChain OnBranch (fun _ => True) longerBranch := by
  refine ⟨⟨rfl, ?_⟩, fun _ hb => List.mem_append_right _ hb, fun _ _ => trivial⟩
  exact List.isChain_cons_cons.mpr ⟨⟨rfl, rfl⟩, List.isChain_pair.mpr ⟨rfl, rfl⟩⟩

/-- The node returns the block with a hash. -/
lemma knowsParents_branches {node : List (Block ℕ Unit)} (h : ∀ b ∈ node, OnBranch b) :
    KnowsParents branchesNode node := by
  rintro a ha b - ⟨-, hhash⟩
  left
  unfold branchesNode
  cases hfind : (branch ++ longerBranch).find? fun c => c.header.hash = b.header.prevHash with
  | none =>
    have hno := List.find?_eq_none.mp hfind a (h a ha)
    rw [decide_eq_true_eq] at hno
    exact absurd hhash hno
  | some c =>
    have hc : c.header.hash = b.header.prevHash := by simpa using List.find?_some hfind
    rw [hashesDiffer_branches c a (List.mem_of_find?_eq_some hfind) (h a ha) (hc.trans hhash.symm)]

lemma holds_empty : Holds OnBranch TableStores (Table.empty : Db ℕ Unit) [] :=
  ⟨tableStores_empty, ⟨rfl, List.isChain_nil⟩, fun _ hb => absurd hb List.not_mem_nil⟩

lemma fair_firstRound : Fair OnBranch (fun _ => True) twoHeights [] firstRound where
  node := isNodeChain_branch
  tip header h := Except.ok.inj h ▸ rfl
  fits := by decide
  arrivals b hb := List.mem_reverse.mp hb
  parents := knowsParents_branches isNodeChain_branch.known
  ahead := Nat.zero_le _
  reaches := Or.inl (List.nil_prefix)

lemma complete_firstRound : Complete twoHeights [] firstRound where
  tip := ⟨_, rfl⟩
  all b hb := List.mem_reverse.mpr hb
  provider hash e h := by cases h
  shutdown := rfl
  durable := by decide
  longer := by decide

/-- The second round starts from the first branch, which is not longer than it looks for forks. -/
lemma fair_secondRound : Fair OnBranch (fun _ => True) twoHeights branch secondRound where
  node := isNodeChain_longerBranch
  tip header h := Except.ok.inj h ▸ rfl
  fits := by decide
  arrivals b hb := by
    rw [List.mem_singleton.mp hb]
    decide
  parents := knowsParents_branches isNodeChain_longerBranch.known
  ahead := by decide
  reaches := Or.inr (by decide)

lemma complete_secondRound : Complete twoHeights branch secondRound where
  tip := ⟨_, rfl⟩
  all b hb := hb
  provider hash e h := by cases h
  shutdown := rfl
  durable := by decide
  longer := by decide

/-- The process is launched on a new storage, ends, and is launched again, where it validates from
the first height. -/
def firstLaunch : Event ℕ Unit String := .launch ⟨true, true, 1⟩ firstRound

/-- The second one. -/
def secondLaunch : Event ℕ Unit String := .launch ⟨false, true, 1⟩ secondRound

/-- After the first launch the branch is read. -/
lemma reads_firstLaunch : Reads smallChain
    (smallChain.acted twoHeights weightless Table.empty firstLaunch) branch := by
  obtain ⟨blocks, hblocks, -, -, -, hcaught⟩ :=
    act_node weightless smallChain_lawful hashesDiffer_branches holds_empty firstLaunch fun _ =>
      fair_firstRound
  obtain rfl := hcaught rfl complete_firstRound
  exact smallChain_lawful.getBlock hblocks.stores

lemma fair_launches : EachStep (smallChain.acted twoHeights weightless)
    (FairStep smallChain OnBranch (fun _ => True) twoHeights)
    Table.empty [firstLaunch, secondLaunch] := by
  refine eachStep_cons.mpr ⟨fun _ blocks hblocks =>
    ?_, eachStep_cons.mpr ⟨fun _ blocks hblocks => ?_, eachStep_nil _ _⟩⟩
  · rw [hblocks.unique (smallChain_lawful.getBlock holds_empty.stores)]
    exact fair_firstRound
  · rw [hblocks.unique reads_firstLaunch]
    exact fair_secondRound

/-- What the second launch starts from and leaves are chains of linked blocks. -/
theorem follows_run_branches :
    let s := run (smallChain.acted twoHeights weightless) Table.empty [firstLaunch]
    let r := smallChain.act twoHeights weightless s secondLaunch
    ∃ blocks blocks', Reads smallChain s blocks ∧ IsBlockChain blocks ∧ Reads smallChain r.1 blocks' ∧
      IsBlockChain blocks' ∧ Advances longerBranch blocks blocks' ∧ (∀ e, r.2 ≠ .notValidated e) ∧
      ∀ f, r.2 = .synced (.persisted (.failed f)) → ProviderFails branchesNode f :=
  follows_run smallChain_lawful hashesDiffer_branches holds_empty [firstLaunch, secondLaunch]
    fair_launches [firstLaunch] secondLaunch List.prefix_rfl

/-- The second launch makes the longer branch the stored one. -/
theorem catches_up_branches :
    Reads smallChain (run (smallChain.acted twoHeights weightless) Table.empty
      [firstLaunch, secondLaunch])
      longerBranch :=
  catches_up smallChain_lawful hashesDiffer_branches holds_empty [firstLaunch] secondLaunch
    fair_launches rfl fun _ hblocks => hblocks.unique reads_firstLaunch ▸ complete_secondRound

end Branches

end Redbit.Chain
