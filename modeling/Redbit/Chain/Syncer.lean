import Redbit.Lib.Table

/-!
# Linking blocks with the stored chain (`syncer.rs`, `chain.rs`)

A block of a batch is stored when its parent is stored at the height below.  Otherwise `chain_link`
walks back through the ancestors, fetching each unknown one from the block provider, until it
reaches a stored parent or the first block; the blocks found this way replace the rows of their
heights.

The database is the table of the blocks by height.  The recursion of `chain_link` is bounded by a
number of turns (`fuel`), since a provider may return ancestors for ever; for a provider that keeps
its contract the height of the block is enough (`chainLink_returns`).
-/

namespace Redbit.Chain

open Redbit.Lib

/-- What `BlockHeaderLike` gives of a header, as far as linking needs it. -/
structure Header (H : Type) where
  height : ℕ
  hash : H
  prevHash : H
  deriving DecidableEq

/-- A block: its header and the rest of it. -/
structure Block (H B : Type) where
  header : Header H
  body : B
  deriving DecidableEq

/-- Why linking does not return blocks: an error of the provider, a panic, or no end of the
recursion. -/
inductive Failure (E : Type) where
  | error (e : E)
  | panic
  | fuel
  deriving DecidableEq

/-- The stored blocks by height. -/
abbrev Db (H B : Type) := Table ℕ (Block H B)

/-- `get_processed_block` of the block provider. -/
abbrev Provider (H B E : Type) := H → Except E (Option (Block H B))

variable {H B E : Type} [DecidableEq H]

/-- `get_header_by_hash`: the headers with the hash, by height. -/
def getHeaderByHash (db : Db H B) (hash : H) : List (Header H) :=
  (db.keys.sort (· ≤ ·)).filterMap fun h =>
    (db.get h).bind fun b => if b.header.hash = hash then some b.header else none

/-- `store_blocks`: the rows of the heights are replaced. -/
def storeBlocks (db : Db H B) (blocks : List (Block H B)) : Db H B :=
  db.insertAll (blocks.map fun b => (b.header.height, b))

/-- `update_blocks`: the rows of the heights are deleted first, in a transaction of their own. -/
def updateBlocks (db : Db H B) (blocks : List (Block H B)) : Db H B :=
  storeBlocks (blocks.foldl (fun db b => db.remove b.header.height) db) blocks

/-- `ChainSyncer::chain_link`, at most `fuel` turns of it. -/
def chainLink (db : Db H B) (blockProvider : Provider H B E) :
    ℕ → Block H B → Except (Failure E) (List (Block H B))
  | 0, _ => .error .fuel
  | fuel + 1, block =>
    let height := block.header.height
    if height = 1 then .ok [block]
    else
      match getHeaderByHash db block.header.prevHash with
      | prevHeader :: _ =>
        -- a parent at another height is a panic
        if prevHeader.height = height - 1 then .ok [block] else .error .panic
      | [] =>
        match blockProvider block.header.prevHash with
        | .error e => .error (.error e)
        | .ok none => .ok []
        | .ok (some parent) =>
          match chainLink db blockProvider fuel parent with
          | .error f => .error f
          | .ok fork => .ok (fork ++ [block])

/-- One turn of the loop of `persist_or_link`. -/
def linkOne (blockProvider : Provider H B E) (db : Db H B) (block : Block H B) :
    Except (Failure E) (Db H B) :=
  match chainLink db blockProvider (block.header.height + 1) block with
  | .error f => .error f
  | .ok [] => .ok db
  | .ok [b] => .ok (storeBlocks db [b])
  | .ok chain => .ok (updateBlocks db chain)

/-- The loop of `persist_or_link`. -/
def linkAll (blockProvider : Provider H B E) (db : Db H B) :
    List (Block H B) → Except (Failure E) (Db H B)
  | [] => .ok db
  | block :: blocks =>
    match linkOne blockProvider db block with
    | .error f => .error f
    | .ok db => linkAll blockProvider db blocks

/-- `ChainSyncer::persist_or_link`. -/
def persistOrLink (db : Db H B) (blocks : List (Block H B)) (forkDetectionHeight : ℕ)
    (blockProvider : Provider H B E) : Except (Failure E) (Db H B) :=
  match blocks.getLast? with
  | none => .ok db
  | some b =>
    if b.header.height ≤ forkDetectionHeight then .ok (storeBlocks db blocks)
    else linkAll blockProvider db blocks

end Redbit.Chain
