import Redbit.Storage.FanOut

/-!
# Transactions of a write context (`context.rs`, `table_writer.rs`, `chain.rs`)

A write context is used by one client, for one transaction after the other.  A transaction begins all
writers, waits for their answers, gives them work, and flushes them (`two_phase_commit`); it has
ended when all its answers have come.

A column is flushed by `FlushWhenReady` if its router has been acquired, which a hook does when
blocks are stored.  The flag that says so belongs to the writer of the column: no transaction takes
it back.

Every answer comes on a channel of its own, so each shard has a party that collects what it answers.
The client of the source waits at many places, and here only for the answers to `Begin` and at the
end of the transaction: the messages of a party are sent at any moment, so this allows more
interleavings.
-/

namespace Redbit.Storage

open Redbit.Lib Redbit.Lib.Net

/-- The columns of a write context. -/
structure Context extends Columns where
  /-- All columns but the index. -/
  cols : List Col
  nodup_cols : cols.Nodup
  mem_cols : ∀ c, c ∈ cols
  /-- The columns that are flushed last, after all answers of the others. -/
  rootPk : Col → Bool
  /-- What the sinks fill are no root keys. -/
  rootPk_sinks : ∀ c ∈ sinks, rootPk c = false
  shards_ne : shards ≠ 0

namespace Context

variable (C : Context)

/-- A shard. -/
abbrev Target := Fin C.shards ⊕ Σ c, Fin (C.shardsOf c)

/-- Those who use the writers: the client, and for each shard its channel of answers. -/
abbrev User := Option C.Target

/-- The party of a shard. -/
def party : C.Target → Party C.toColumns C.User
  | .inl i => .index i
  | .inr ⟨c, j⟩ => .shard c j

/-- All shards. -/
def targets : List C.Target :=
  (List.finRange C.shards).map .inl ++
    C.cols.flatMap fun c => (List.finRange (C.shardsOf c)).map fun j => .inr ⟨c, j⟩

/-- The messages on their way, and the network. -/
abbrev Sends := List (Σ p, C.toColumns.Msg C.User p)

abbrev Network := Net (Party C.toColumns C.User) (C.toColumns.State C.User) (C.toColumns.Msg C.User)

/-! ### What a transaction sends -/

/-- `begin_async` of all columns. -/
def begins : C.Sends :=
  C.toIndex (toEach fun i => some (.begin (some (.inl i)))) ++
    C.cols.flatMap fun c => C.toColumn c (toEach fun j => some (.begin (some (.inr ⟨c, j⟩))))

/-- A block as `store_many` sends it to the index: the rows that are inserted at once, and the call of
the hook, whose sink fails for no position of its values. -/
structure StoredBlock where
  now : List (C.IK × C.IV)
  values : List C.IV
  sink : C.Sink
  sink_ok : ∀ out, (∀ e ∈ out, e.1 < values.length) → ∃ rows, C.sink sink out = .ok rows

variable {C} in
/-- The commands of a block. -/
def StoredBlock.cmds (b : C.StoredBlock) (isLast : Bool) : List (Fin C.shards × C.Cmd C.User) :=
  (b.now.flatMap fun kv => routeInsertNow C.part kv.1 kv.2) ++ routeQuery C.part b.values isLast b.sink

/-- What a delete asks of a shard, and waits for: to remove a row, or for the keys of a range, which
only some tables have. -/
inductive Ask where
  | removeIndex (i : Fin C.shards) (k : C.IK)
  | remove (c : C.Col) (j : Fin (C.shardsOf c)) (k : C.K c)
  | range (c : C.Col) (j : Fin (C.shardsOf c)) (lo hi : C.K c) (h : (C.table c).range.isSome)

variable {C} in
/-- The shard that is asked. -/
def Ask.target : C.Ask → C.Target
  | .removeIndex i _ => .inl i
  | .remove c j _ => .inr ⟨c, j⟩
  | .range c j _ _ _ => .inr ⟨c, j⟩

variable {C} in
/-- The command that asks it, with the shard that receives it. -/
def Ask.send : C.Ask → Σ p, C.toColumns.Msg C.User p
  | .removeIndex i k => ⟨.index i, .remove k (some (.inl i))⟩
  | .remove c j k => ⟨.shard c j, .remove k (some (.inr ⟨c, j⟩))⟩
  | .range c j lo hi _ => ⟨.shard c j, .range lo hi (some (.inr ⟨c, j⟩))⟩

/-- A transaction: it stores a batch of blocks, at least one, and further rows that are inserted at the
flush, or it only deletes.  Which shard a delete asks next depends on the answers; here any may be
asked. -/
inductive Tx where
  | store (blocks : List C.StoredBlock) (last : C.StoredBlock)
      (onFlush : ∀ c, Fin (C.shardsOf c) → List (C.K c × C.V c))
  | delete (asks : List C.Ask)

/-- The flush of a shard of the column `c`, given whether routers have been acquired. -/
def flushCmd (acquired : Bool) (c : C.Col) (j : Fin (C.shardsOf c)) : C.CmdOf C.User c :=
  if acquired && decide (c ∈ C.sinks) then .flushWhenReady (some (.inr ⟨c, j⟩))
    else .flush (some (.inr ⟨c, j⟩))

/-- `flush_async` of the column `c`: first what was to be inserted at the flush.  A root key is
flushed by `FlushFuture::wait`. -/
def flushColumn (acquired : Bool) (onFlush : ∀ c, Fin (C.shardsOf c) → List (C.K c × C.V c))
    (c : C.Col) : List (Fin (C.shardsOf c) × C.CmdOf C.User c) :=
  (toEach fun j => if onFlush c j = [] then none else some (.writeSortedInsertsOnFlush
    (onFlush c j))) ++ if C.rootPk c then [] else toEach fun j => some (C.flushCmd acquired c j)

/-- `two_phase_commit`. -/
def commit (acquired : Bool) (onFlush : ∀ c, Fin (C.shardsOf c) → List (C.K c × C.V c)) : C.Sends :=
  C.toIndex (toEach fun i => some (.flush (some (.inl i)))) ++
    (C.cols.flatMap fun c => C.toColumn c (C.flushColumn acquired onFlush c)) ++
    (C.cols.filter fun c => C.rootPk c).flatMap fun c =>
      C.toColumn c (toEach fun j => some (.flush (some (.inr ⟨c, j⟩))))

namespace Tx

variable {C}

/-- The transaction stores. -/
def stores : C.Tx → Bool
  | .store _ _ _ => true
  | .delete _ => false

/-- What the client sends after the writers have begun, given whether routers have been acquired
before. -/
def body (acquired : Bool) : C.Tx → C.Sends
  | .store blocks last onFlush =>
    C.toIndex ((blocks.flatMap fun b => b.cmds false) ++ last.cmds true) ++ C.commit true
      fun c j => if c ∈ C.sinks then [] else onFlush c j
  | .delete asks => asks.map Ask.send ++ C.commit acquired fun _ _ => []

/-- The number of answers the client waits for on the channel of a shard. -/
def replies (tx : C.Tx) (p : C.Target) : ℕ :=
  match tx with
  | .store _ _ _ => 1
  | .delete asks => (asks.countP fun a => a.target = p) + 1

end Tx

/-! ### One transaction after the other -/

/-- A context in use: the transaction whose writers are beginning, and those to come. -/
structure Running where
  net : C.Network
  acquired : Bool
  expects : C.Target → ℕ
  begun : Option C.Tx
  txs : List C.Tx

/-- The client has new channels for the answers and new messages to send.  (What the parties have
taken and shown is recorded from here on.) -/
def restart (net : C.Network) (msgs : C.Sends) : C.Network where
  state
    | .user _ => []
    | .index i => ⟨(net.state (.index i)).writer, []⟩
    | .shard c j => ⟨(net.state (.shard c j)).writer, []⟩
  inbox := net.inbox
  outbox := Function.update net.outbox (.user none) msgs
  log _ := []

/-- A party acts, or the client, which has sent everything and has all answers, goes on. -/
inductive Move where
  | act (a : Act (Party C.toColumns C.User))
  | go

variable {C}

/-- The client has sent everything and has all answers. -/
def Running.ready (s : C.Running) : Bool :=
  (s.net.outbox (.user none)).isEmpty &&
    C.targets.all fun p => (s.net.state (.user (some p))).length == s.expects p

/-- A message is sent or taken, or the client, which has all its answers, goes on to the next
stage. -/
def Running.step (s : C.Running) : C.Move → Option C.Running
  | .act a => (s.net.step C.handle a).map fun net => { s with net := net }
  | .go =>
    if s.ready then
      match s.begun, s.txs with
      | some tx, txs => some
        { net := C.restart s.net (tx.body s.acquired)
          acquired := s.acquired || tx.stores
          expects := tx.replies
          begun := none
          txs := txs }
      | none, tx :: txs => some
        { net := C.restart s.net C.begins
          acquired := s.acquired
          expects := fun _ => 1
          begun := some tx
          txs := txs }
      | none, [] => none
    else none

variable (C) in
/-- The tables of all shards. -/
structure Dbs where
  index : Fin C.shards → IndexTables C.IK C.IV
  shard : ∀ c, Fin (C.shardsOf c) → C.D c

/-- All writers wait for a `Begin`. -/
def Dbs.outside (db : C.Dbs) : ∀ p, C.toColumns.State C.User p
  | .user _ => []
  | .index i => ⟨⟨db.index i, .outside⟩, []⟩
  | .shard c j => ⟨⟨db.shard c j, .outside⟩, []⟩

/-- What only the client has to say. -/
def clientSays (msgs : C.Sends) : C.User → C.Sends
  | none => msgs
  | some _ => []

/-- A new context with the transactions `txs` to come. -/
def Running.start (db : C.Dbs) (txs : List C.Tx) : C.Running :=
  ⟨C.boot db.outside (clientSays []), false, fun _ => 0, none, txs⟩

/-- The writer holds a flush that has not been answered. -/
def Holding {D T K V A : Type} (w : Writer D T K V A) : Prop :=
  ∃ st fs a, w.phase = .inTx st ∧ st.deferred = some fs ∧ fs.sender = some a

/-- All channels of commands are empty and all writers idle, but one of them holds a flush. -/
def Stuck (net : C.Network) : Prop :=
  (∀ p, (∀ e, p ≠ .user e) → net.inbox p = [] ∧ net.outbox p = []) ∧
    ((∃ i, Holding (net.state (.index i)).writer) ∨ ∃ c j, Holding (net.state (.shard c j)).writer)

end Context

end Redbit.Storage
