import Redbit.Storage.FanOut
import Mathlib.Data.Prod.Lex

/-!
# Storing blocks (`demo/src/model_v1.rs`, `demo/src/hook.rs`, `store_many` of `Block` and
`Transaction`)

The inputs of a transaction come as references to the outputs they spend, each with the hash of the
transaction that made the output.  `Transaction::store_many` writes the hashes of a block at once
into the hash index, and then its hook asks the index for the hashes of all references of the block;
the sink of this query makes of each answer a row of the two columns of the inputs.

Of the entities only what goes to these three columns is modelled: the other columns have writers of
their own, to which neither the hook nor its sinks talk.
-/

namespace Redbit.Demo

open Redbit.Lib Redbit.Lib.Net Redbit.Storage
open scoped List

/-! ### The entities -/

/-- `BlockPointer`: a height and the position of a transaction in its block. -/
structure BlockPointer where
  height : ℕ
  index : ℕ
  deriving Repr

instance : LinearOrder BlockPointer :=
  LinearOrder.lift' (fun p => toLex (p.height, p.index)) fun ⟨_, _⟩ ⟨_, _⟩ h => by simpa using h

/-- `TransactionPointer`: a transaction and the position of an input or output in it. -/
structure TransactionPointer where
  parent : BlockPointer
  index : ℕ
  deriving Repr

instance : LinearOrder TransactionPointer :=
  LinearOrder.lift' (fun p => toLex (p.parent, p.index)) fun ⟨_, _⟩ ⟨_, _⟩ h => by simpa using h

/-- `as u16`. -/
def asU16 (n : ℕ) : ℕ := n % 2 ^ 16

/-- `InputRef`. -/
structure InputRef (H : Type) where
  txHash : H
  index : ℕ
  deriving DecidableEq

/-- `Transaction`. -/
structure Transaction (H : Type) where
  id : BlockPointer
  hash : H
  inputRefs : List (InputRef H)

/-- `Block`. -/
structure Block (H : Type) where
  height : ℕ
  transactions : List (Transaction H)

/-! ### The columns -/

/-- The columns of `Input`: `input_id` and `input_utxo_pointer_by_id`. -/
inductive InputColumn where
  | id
  | utxoPointer
  deriving DecidableEq

/-- The values of a column of `Input`. -/
abbrev InputColumn.Val : InputColumn → Type
  | .id => Unit
  | .utxoPointer => TransactionPointer

/-- The shards of the hash index and of the columns of `Input`, how they are chosen, and the cache
of the index. -/
structure Sharding (H : Type) where
  shards : ℕ
  pos : shards ≠ 0
  factory : IndexFactory
  part : H → Fin shards
  inputShards : InputColumn → ℕ
  inputPart : ∀ c, TransactionPointer → Fin (inputShards c)

/-- The references of a block in the order of its `IndexMap`, each with the input it belongs to. -/
abbrev Entries (H : Type) := List (InputRef H × BlockPointer × ℕ)

/-- Where an input with an unknown output points to. -/
def placeholder : TransactionPointer := ⟨⟨0, 0⟩, 0⟩

/-- Where an input points to, given the answer of the index. -/
def utxoPointer {H : Type} (r : InputRef H) : Option BlockPointer → TransactionPointer
  | some p => ⟨p, r.index⟩
  | none => placeholder

/-- The value of an input in a column. -/
def inputValue {H : Type} (r : InputRef H) (answer : Option BlockPointer) : ∀ c : InputColumn, c.Val
  | .id => ()
  | .utxoPointer => utxoPointer r answer

/-- The loop of the sink of `write_from_input_refs_using_hash`: the rows for both columns. -/
def hookRows {H : Type} (entries : Entries H) :
    List (ℕ × Option BlockPointer) → Except AppError
    (∀ c : InputColumn, List (TransactionPointer × c.Val))
  | [] => .ok fun _ => []
  | (index, answer) :: out =>
    match entries[index]? with
    | none => .error (.custom s!"internal error: no input_ref exists for index {index}")
    | some (r, idPointer, idIndex) =>
      match hookRows entries out with
      | .ok rows => .ok fun c => (⟨idPointer, asU16 idIndex⟩, inputValue r answer c) :: rows c
      | .error e => .error e

variable {H : Type} [LinearOrder H] [CacheKey H]

/-- The hash index, and the columns of `Input`, which its sinks fill. -/
@[reducible]
def columns (sh : Sharding H) : Columns where
  IK := BlockPointer
  IV := H
  shards := sh.shards
  factory := sh.factory
  part := sh.part
  Col := InputColumn
  K _ := TransactionPointer
  V := InputColumn.Val
  D c := Table TransactionPointer c.Val
  T c := Table TransactionPointer c.Val
  table c := plainTable TransactionPointer c.Val
  shardsOf := sh.inputShards
  partOf := sh.inputPart
  Sink := Entries H
  sink := hookRows
  sinks := [.id, .utxoPointer]
  nodup_sinks := by decide

/-! ### Storing -/

/-- The commands for the hash index that a call sends, each with its shard, and what it returns. -/
abbrev Sent (sh : Sharding H) (R : Type) :=
  List (Fin sh.shards × (columns sh).Cmd Unit) × Except AppError R

variable (sh : Sharding H)

/-- The references of one transaction are put into the `IndexMap`.  (The message goes on with the entry
that is there already.) -/
def collect (id : BlockPointer) : Entries H → List (ℕ × InputRef H) → Except AppError (Entries H)
  | entries, [] => .ok entries
  | entries, (idx, r) :: refs =>
    if entries.any fun e => e.1 = r then .error (.custom "Double spend not supported")
    else collect id (entries ++ [(r, id, idx)]) refs

/-- The loop of `Transaction::store_many`. -/
def storeTransactions : Entries H → List (Transaction H) → Sent sh (Entries H)
  | entries, [] => ([], .ok entries)
  | entries, tx :: txs =>
    let now := routeInsertNow sh.part tx.id tx.hash
    match collect tx.id entries (enumerate tx.inputRefs) with
    | .error e => (now, .error e)
    | .ok entries =>
      let rest := storeTransactions entries txs
      (now ++ rest.1, rest.2)

/-- `write_from_input_refs_using_hash`. -/
def writeFromInputRefsUsingHash (entries : Entries H) (isLast : Bool) :
    List (Fin sh.shards × (columns sh).Cmd Unit) :=
  routeQuery sh.part (entries.map fun e => e.1.txHash) isLast entries

/-- `Transaction::store_many`. -/
def Transaction.storeMany (txs : List (Transaction H)) (isLast : Bool) : Sent sh Unit :=
  match storeTransactions sh [] txs with
  | (now, .error e) => (now, .error e)
  | (now, .ok entries) => (now ++ writeFromInputRefsUsingHash sh entries isLast, .ok ())

/-- `Block::store_many`. -/
def Block.storeMany (isLast : Bool) : List (Block H) → Sent sh Unit
  | [] => ([], .ok ())
  | b :: blocks =>
    match Transaction.storeMany sh b.transactions (isLast && blocks.isEmpty) with
    | (cmds, .error e) => (cmds, .error e)
    | (cmds, .ok ()) =>
      let rest := Block.storeMany isLast blocks
      (cmds ++ rest.1, rest.2)

/-! ### What is sent -/

/-- The references of a block. -/
def Block.refs (b : Block H) : List (InputRef H) := b.transactions.flatMap Transaction.inputRefs

/-- The entries of a transaction. -/
def Transaction.entries (tx : Transaction H) : Entries H := (enumerate tx.inputRefs).map fun e =>
    (e.2, tx.id, e.1)

/-- The entries of a block. -/
def Block.entries (b : Block H) : Entries H := b.transactions.flatMap Transaction.entries

lemma map_snd_enumerate {V : Type} (values : List V) : (enumerate values).map Prod.snd = values := by
  simp [enumerate, List.map_map, Function.comp_def]

omit [LinearOrder H] [CacheKey H] in
lemma Transaction.map_fst_entries (tx : Transaction H) : tx.entries.map Prod.fst = tx.inputRefs := by
  rw [Transaction.entries, List.map_map]
  exact map_snd_enumerate tx.inputRefs

omit [CacheKey H] in
/-- The references of a transaction are collected if none of them is there twice. -/
lemma collect_spec (id : BlockPointer) (entries : Entries H) (refs : List (ℕ × InputRef H))
    (h : (entries.map Prod.fst).Nodup) :
    if (entries.map Prod.fst ++ refs.map Prod.snd).Nodup
    then collect id entries refs = .ok (entries ++ refs.map fun e => (e.2, id, e.1))
    else ∃ e, collect id entries refs = .error e := by
  induction refs generalizing entries with
  | nil => simp [h, collect]
  | cons e refs ih =>
    obtain ⟨idx, r⟩ := e
    have hany : (entries.any fun e => e.1 = r) = true ↔ r ∈ entries.map Prod.fst := by simp
    by_cases hmem : r ∈ entries.map Prod.fst
    · have hdup : ¬ (entries.map Prod.fst ++ ((idx, r) :: refs).map Prod.snd).Nodup := by
        intro hnd
        exact List.disjoint_of_nodup_append hnd hmem (by simp)
      rw [if_neg hdup, collect, if_pos (hany.mpr hmem)]
      exact ⟨_, rfl⟩
    · have hsplit : entries.map Prod.fst ++ ((idx, r) :: refs).map Prod.snd =
          (entries ++ [(r, id, idx)]).map Prod.fst ++ refs.map Prod.snd := by simp
      have hnd : ((entries ++ [(r, id, idx)]).map Prod.fst).Nodup := by
        rw [List.map_append]
        exact h.append (List.nodup_singleton _) (List.disjoint_singleton.mpr hmem)
      have key := ih _ hnd
      rw [collect, if_neg (fun hc => hmem (hany.mp hc)), hsplit]
      simpa using key

/-- The hashes of the transactions, each to its shard. -/
def nowAll (txs : List (Transaction H)) : List (Fin sh.shards × (columns sh).Cmd Unit) :=
  txs.flatMap fun tx => routeInsertNow sh.part tx.id tx.hash

lemma storeTransactions_spec (entries : Entries H) (txs : List (Transaction H))
    (h : (entries.map Prod.fst).Nodup) :
    if (entries.map Prod.fst ++ txs.flatMap Transaction.inputRefs).Nodup
    then storeTransactions sh entries txs =
      (nowAll sh txs, .ok (entries ++ txs.flatMap Transaction.entries))
    else ∃ e, (storeTransactions sh entries txs).2 = .error e := by
  induction txs generalizing entries with
  | nil => simp [h, storeTransactions, nowAll]
  | cons tx txs ih =>
    have hone := collect_spec tx.id entries (enumerate tx.inputRefs) h
    rw [map_snd_enumerate] at hone
    rw [List.flatMap_cons, ← List.append_assoc]
    by_cases hnd : (entries.map Prod.fst ++ tx.inputRefs).Nodup
    · rw [if_pos hnd] at hone
      have hkeys : (entries ++ tx.entries).map Prod.fst = entries.map Prod.fst ++ tx.inputRefs := by
        rw [List.map_append, tx.map_fst_entries]
      have hstep : storeTransactions sh entries (tx :: txs) =
          (routeInsertNow sh.part tx.id tx.hash ++
            (storeTransactions sh (entries ++ tx.entries) txs).1,
            (storeTransactions sh (entries ++ tx.entries) txs).2) := by
        rw [storeTransactions, hone]
        rfl
      have hrest := ih (entries ++ tx.entries) (hkeys ▸ hnd)
      rw [hkeys] at hrest
      rw [hstep]
      split at hrest
      · next hall =>
        rw [if_pos hall, hrest]
        simp [nowAll]
      · next hdup => rwa [if_neg hdup]
    · rw [if_neg hnd] at hone
      obtain ⟨e, hone⟩ := hone
      have hdup : ¬ (entries.map Prod.fst ++ tx.inputRefs ++
          txs.flatMap Transaction.inputRefs).Nodup :=
        fun hall => hnd (List.Nodup.of_append_left hall)
      rw [if_neg hdup]
      refine ⟨e, ?_⟩
      rw [storeTransactions, hone]

/-- The commands of one block. -/
def blockCmds (b : Block H) (isLast : Bool) : List (Fin sh.shards × (columns sh).Cmd Unit) :=
  nowAll sh b.transactions ++ routeQuery sh.part (b.entries.map fun e => e.1.txHash) isLast b.entries

lemma Transaction.storeMany_spec (b : Block H) (isLast : Bool) :
    if b.refs.Nodup then Transaction.storeMany sh b.transactions isLast =
      (blockCmds sh b isLast, .ok ())
    else ∃ e, (Transaction.storeMany sh b.transactions isLast).2 = .error e := by
  have hall := storeTransactions_spec sh [] b.transactions List.nodup_nil
  rw [List.map_nil, List.nil_append, List.nil_append, ← Block.refs] at hall
  unfold Transaction.storeMany
  split at hall
  · next hnd =>
    rw [if_pos hnd, hall]
    rfl
  · next hnd =>
    obtain ⟨e, hall⟩ := hall
    rw [if_neg hnd]
    refine ⟨e, ?_⟩
    split
    · next hs =>
      rw [hs] at hall
      cases hall
      rfl
    · next hs =>
      rw [hs] at hall
      cases hall

/-- The commands of a batch, the last of its blocks with `is_last`. -/
def batchCmds : List (Block H) → List (Fin sh.shards × (columns sh).Cmd Unit)
  | [] => []
  | b :: blocks => blockCmds sh b blocks.isEmpty ++ batchCmds blocks

/-- `store_many` succeeds exactly if no block spends an output twice. -/
lemma Block.storeMany_spec (blocks : List (Block H)) :
    ((Block.storeMany sh true blocks).2 = .ok () ↔ ∀ b ∈ blocks, b.refs.Nodup) ∧
      ((Block.storeMany sh true blocks).2 = .ok () →
        (Block.storeMany sh true blocks).1 = batchCmds sh blocks) := by
  induction blocks with
  | nil => exact ⟨by simp [Block.storeMany], fun _ => rfl⟩
  | cons b blocks ih =>
    have hone := Transaction.storeMany_spec sh b blocks.isEmpty
    rw [List.forall_mem_cons]
    by_cases hnd : b.refs.Nodup
    · rw [if_pos hnd] at hone
      have hstep : Block.storeMany sh true (b :: blocks) =
          (blockCmds sh b blocks.isEmpty ++ (Block.storeMany sh true blocks).1,
            (Block.storeMany sh true blocks).2) := by
        rw [Block.storeMany, Bool.true_and, hone]
      rw [hstep]
      refine ⟨by simp [hnd, ih.1], fun hok => ?_⟩
      rw [ih.2 hok, batchCmds]
    · rw [if_neg hnd] at hone
      obtain ⟨e, hone⟩ := hone
      have herr : (Block.storeMany sh true (b :: blocks)).2 = .error e := by
        rw [Block.storeMany, Bool.true_and]
        split
        · next hs =>
          rw [hs] at hone
          exact hone
        · next hs =>
          rw [hs] at hone
          cases hone
      refine ⟨⟨fun hok => ?_, fun hall => absurd hall.1 hnd⟩, fun hok => ?_⟩
      · rw [herr] at hok
        cases hok
      · rw [herr] at hok
        cases hok

end Redbit.Demo
