import Redbit.Demo.Store

/-!
# Spent outputs

`spent_outputs_exact` says that after a batch of blocks every input row points to the output that
was spent, if the transaction that made it is in the database, in an earlier block of the batch, or
in the same block.

What a shard of the hash index answers depends on its cache, but not on more than on the
transactions it knows (`Knows`): each of them has a hash of its own, so neither a hit nor an
eviction changes an answer.
-/

namespace Redbit.Demo

open Redbit.Lib Redbit.Lib.Net Redbit.Storage
open scoped List Columns

variable {H : Type} [LinearOrder H] [CacheKey H] (sh : Sharding H)

/-! ### The sink -/

/-- The row of an answer in a column. -/
def inputRow (c : InputColumn) (entries : Entries H) (e : ℕ × Option BlockPointer) :
    List (TransactionPointer × c.Val) :=
  match entries[e.1]? with
  | some (r, idPointer, idIndex) => [(⟨idPointer, asU16 idIndex⟩, inputValue r e.2 c)]
  | none => []

omit [LinearOrder H] [CacheKey H] in
/-- For positions that exist the sink makes one row of each answer. -/
lemma hookRows_eq {entries : Entries H} {out : List (ℕ × Option BlockPointer)}
    (h : ∀ e ∈ out, e.1 < entries.length) :
    hookRows entries out = .ok fun c => out.flatMap (inputRow c entries) := by
  induction out with
  | nil => rfl
  | cons e out ih =>
    obtain ⟨index, answer⟩ := e
    have hlt : index < entries.length := h _ List.mem_cons_self
    have hget : entries[index]? = some entries[index] := List.getElem?_eq_getElem hlt
    have hrest := ih fun e he => h e (List.mem_cons_of_mem _ he)
    simp only [hookRows, hget, hrest, List.flatMap_cons, inputRow, List.singleton_append]

/-! ### What a shard of the hash index knows -/

/-- The shard `i` knows the transactions `known`, of those whose hashes belong to it. -/
structure Knows (i : Fin sh.shards) (known : H → Option BlockPointer)
    (t : IndexTable BlockPointer H) : Prop where
  rows : ∀ h, sh.part h = i → ∀ p, p ∈ t.pkByIndex.get h ↔ known h = some p
  cached : ∀ h, sh.part h = i → ∀ p, cachePeek t.cache (cacheKey h) = some p → known h = some p

variable {sh} {i : Fin sh.shards} {known : H → Option BlockPointer} {t : IndexTable BlockPointer H}

/-- It answers with what it knows, whether from the cache or from the table. -/
lemma Knows.answer (hk : Knows sh i known t) {h : H} (hi : sh.part h = i) : t.answer h = known h := by
  rw [IndexTable.answer_eq]
  cases hc : cachePeek t.cache (cacheKey h) with
  | some p => rw [hk.cached h hi p hc, Option.some_or]
  | none =>
    rw [Option.none_or]
    cases hp : known h with
    | some p =>
      have hone : t.pkByIndex.get h = {p} := by
        ext q
        rw [hk.rows h hi, hp, Finset.mem_singleton, Option.some.injEq, eq_comm]
      rw [hone, Finset.sort_singleton]
      rfl
    | none =>
      have hempty : t.pkByIndex.get h = ∅ := by
        refine Finset.eq_empty_of_forall_notMem fun q hq => ?_
        rw [hk.rows h hi, hp] at hq
        cases hq
      rw [hempty, Finset.sort_empty]
      rfl

lemma Knows.of_same (hk : Knows sh i known t) {t' : IndexTable BlockPointer H}
    (hs : t'.SameAnswers t) : Knows sh i known t' where
  rows h hi p := by
    rw [← hk.rows h hi p, show t'.pkByIndex = t.pkByIndex from congrArg IndexTables.pkByIndex
      hs.tables]
  cached h hi p hc := hk.cached h hi p (by rwa [← hs.cache])

/-- A hash that is new becomes known. -/
lemma Knows.insertKv (hk : Knows sh i known t) {h' : H} (hnew : known h' = none) (p' : BlockPointer) :
    Knows sh i (putMap known h' p') (t.insertKv p' h') where
  rows h hi p := by
    rw [IndexTable.insertKv, Multimap.mem_get_insert, hk.rows h hi]
    by_cases hh : h = h'
    · subst hh
      rw [putMap_self, hnew]
      simp [eq_comm]
    · rw [putMap_of_ne _ _ hh]
      simp [hh]
  cached h hi p hc := by
    rcases cachePeek_cachePut hc with ⟨hkey, rfl⟩ | ⟨hkey, hold⟩
    · rw [cacheKey_injective hkey, putMap_self]
    · rw [putMap_of_ne _ _ fun hh => hkey (congrArg cacheKey hh)]
      exact hk.cached h hi p hold

/-- A hash of another shard does not matter. -/
lemma Knows.other (hk : Knows sh i known t) {h' : H} (hi : sh.part h' ≠ i) (p' : BlockPointer) :
    Knows sh i (putMap known h' p') t where
  rows h hh p := by
    have hne : h ≠ h' := by
      rintro rfl
      exact hi hh
    rw [putMap_of_ne _ _ hne]
    exact hk.rows h hh p
  cached h hh p hc := by
    have hne : h ≠ h' := by
      rintro rfl
      exact hi hh
    rw [putMap_of_ne _ _ hne]
    exact hk.cached h hh p hc

/-- What is known after the transactions `txs`. -/
def learn (known : H → Option BlockPointer) (txs : List (Transaction H)) : H → Option BlockPointer :=
  txs.foldl (fun known tx => putMap known tx.hash tx.id) known

/-- The hashes of the transactions are new, and no two of them are the same. -/
def New (known : H → Option BlockPointer) (txs : List (Transaction H)) : Prop :=
  (txs.map Transaction.hash).Nodup ∧ ∀ tx ∈ txs, known tx.hash = none

omit [CacheKey H] in
lemma New.tail {tx : Transaction H} {txs : List (Transaction H)} (hn : New known (tx :: txs)) :
    New (putMap known tx.hash tx.id) txs := by
  obtain ⟨hnd, hnone⟩ := hn
  obtain ⟨hnot, hnd⟩ := List.nodup_cons.mp hnd
  refine ⟨hnd, fun tx' htx' => ?_⟩
  have hne : tx'.hash ≠ tx.hash := fun he => hnot (he ▸ List.mem_map_of_mem htx')
  rw [putMap_of_ne _ _ hne]
  exact hnone tx' (List.mem_cons_of_mem _ htx')

omit [LinearOrder H] [CacheKey H] in
lemma New.of_append_left {txs txs' : List (Transaction H)} (hn : New known (txs ++ txs')) :
    New known txs := by
  obtain ⟨hnd, hnone⟩ := hn
  rw [List.map_append] at hnd
  exact ⟨hnd.of_append_left, fun tx htx => hnone tx (List.mem_append_left _ htx)⟩

omit [CacheKey H] in
lemma New.append {txs txs' : List (Transaction H)} (hn : New known (txs ++ txs')) :
    New (learn known txs) txs' := by
  induction txs generalizing known with
  | nil => exact hn
  | cons tx txs ih => exact ih hn.tail

variable (db : IndexTables BlockPointer H)

/-- The hashes of a block. -/
lemma feed_now (st : TxState (IndexTable BlockPointer H) BlockPointer H Unit)
    (hk : Knows sh i known st.table) {txs : List (Transaction H)} (hn : New known txs) :
    ∃ st', feedAll (indexTable sh.factory BlockPointer H) (columns sh).env ⟨db, .inTx st⟩
        (commands (sentBy i (nowAll sh txs))) = (⟨db, .inTx st'⟩, []) ∧
          Knows sh i (learn known txs) st'.table := by
  induction txs generalizing st known with
  | nil => exact ⟨st, rfl, hk⟩
  | cons tx txs ih =>
    have hsplit : sentBy i (nowAll sh (tx :: txs)) =
        sentBy i (routeInsertNow sh.part tx.id tx.hash) ++ sentBy i (nowAll sh txs) := by
      rw [nowAll, List.flatMap_cons, sentBy_append]
      rfl
    by_cases hi : sh.part tx.hash = i
    · obtain ⟨st', hrest, hk'⟩ := ih { st with table := st.table.insertKv tx.id tx.hash }
        (hk.insertKv (hn.2 tx List.mem_cons_self) tx.id) hn.tail
      refine ⟨st', ?_, hk'⟩
      rw [hsplit, routeInsertNow, hi, sentBy_cons_self, sentBy_nil, commands_append, feedAll_append]
      exact congrArg (fun r => (r.1, [] ++ r.2)) hrest
    · obtain ⟨st', hrest, hk'⟩ := ih st (hk.other hi tx.id) hn.tail
      refine ⟨st', ?_, hk'⟩
      rw [hsplit, routeInsertNow, sentBy_cons_of_ne hi, sentBy_nil, List.nil_append]
      exact hrest

/-- The answers of the shard `i` to the query of a block, of which the transactions `known` are
known. -/
def outOf (i : Fin sh.shards) (a : (H → Option BlockPointer) × Entries H) :
    List (ℕ × Option BlockPointer) :=
  Columns.answersOf (X := columns sh) a.1 i (a.2.map fun e => e.1.txHash)

/-- A block: its hashes become known, and then its query is answered. -/
lemma feed_block (st : TxState (IndexTable BlockPointer H) BlockPointer H Unit)
    (hk : Knows sh i known st.table) {b : Block H} (hn : New known b.transactions) (isLast : Bool) :
    ∃ st', feedAll (indexTable sh.factory BlockPointer H) (columns sh).env ⟨db, .inTx st⟩
        (commands (sentBy i (blockCmds sh b isLast))) =
        (⟨db, .inTx st'⟩, if outOf i (learn known b.transactions, b.entries) = [] ∧
          isLast = false then []
          else [.sunk b.entries (if isLast then some sh.shards else none)
            (outOf i (learn known b.transactions, b.entries))]) ∧
      Knows sh i (learn known b.transactions) st'.table := by
  obtain ⟨st₁, hnow, hk₁⟩ := feed_now db st hk hn
  obtain ⟨st₂, hcall, hsame⟩ := Columns.feed_call (X := columns sh) (E := Unit) i db st₁
    (fun h hi => hk₁.answer hi) (b.entries, b.entries.map fun e => e.1.txHash) isLast
  refine ⟨st₂, ?_, hk₁.of_same hsame⟩
  rw [blockCmds, sentBy_append, commands_append, feedAll_append, hnow]
  exact congrArg (fun r => (r.1, [] ++ r.2)) hcall

/-- The queries of a batch, each with what is known when it is answered. -/
def lookups (known : H → Option BlockPointer) :
    List (Block H) → List ((H → Option BlockPointer) × Entries H)
  | [] => []
  | b :: blocks => (learn known b.transactions, b.entries) ::
      lookups (learn known b.transactions) blocks

/-- A shard of the index takes in its part of a batch of blocks and answers the lookups of each. -/
lemma feed_batch (st : TxState (IndexTable BlockPointer H) BlockPointer H Unit)
    (hk : Knows sh i known st.table) {blocks : List (Block H)}
    (hn : New known (blocks.flatMap Block.transactions))
    {calls : List ((H → Option BlockPointer) × Entries H)}
    {last : (H → Option BlockPointer) × Entries H} (hsplit : lookups known blocks = calls ++ [last]) :
    ∃ st', feedAll (indexTable sh.factory BlockPointer H) (columns sh).env ⟨db, .inTx st⟩
        (commands (sentBy i (batchCmds sh blocks))) =
        (⟨db, .inTx st'⟩, (calls.flatMap fun a => if outOf i a = [] then []
          else [.sunk a.2 none (outOf i a)]) ++
          [.sunk last.2 (some sh.shards) (outOf i last)]) := by
  induction blocks generalizing st known calls with
  | nil => simp [lookups] at hsplit
  | cons b blocks ih =>
    rw [List.flatMap_cons] at hn
    obtain ⟨st₁, hblock, hk₁⟩ := feed_block db st hk hn.of_append_left blocks.isEmpty
    rw [batchCmds, sentBy_append, commands_append, feedAll_append, hblock]
    cases blocks with
    | nil =>
      obtain ⟨rfl, rfl⟩ : calls = [] ∧ last = (learn known b.transactions, b.entries) := by
        cases calls with
        | nil => exact ⟨rfl, (List.cons.inj hsplit).1.symm⟩
        | cons a calls => simp [lookups] at hsplit
      exact ⟨st₁, by simp [batchCmds, commands, feedAll]⟩
    | cons b' blocks =>
      obtain ⟨calls', rfl, hsplit'⟩ : ∃ calls',
        calls = (learn known b.transactions, b.entries) :: calls' ∧
          lookups (learn known b.transactions) (b' :: blocks) = calls' ++ [last] := by
        cases calls with
        | nil => simp [lookups] at hsplit
        | cons a calls =>
          obtain ⟨rfl, hrest⟩ := List.cons.inj hsplit
          exact ⟨calls, rfl, hrest⟩
      obtain ⟨st₂, hrest⟩ := ih st₁ hk₁ hn.append hsplit'
      refine ⟨st₂, ?_⟩
      rw [hrest]
      simp

/-! ### Storing and committing -/

variable (sh) in
/-- The tables of the shards. -/
structure Db where
  index : Fin sh.shards → IndexTables BlockPointer H
  inputs : ∀ c, Fin (sh.inputShards c) → Table TransactionPointer c.Val

/-- All shards at the start of a transaction. -/
def Db.opened (db : Db sh) : (columns sh).Opened where
  idb := db.index
  itable i := sh.factory.openForWrite (db.index i)
  db := db.inputs
  table := db.inputs

/-- The transactions in the database are `known`: the hash index has them, each in the shard of its
hash. -/
def Db.Holds (db : Db sh) (known : H → Option BlockPointer) : Prop :=
  ∀ h p, p ∈ (db.index (sh.part h)).pkByIndex.get h ↔ known h = some p

variable (sh) in
/-- `store_many` and then the commands of `commit_ctx_async`.  The columns of the inputs are flushed
when ready if a hook has acquired their routers, now or in an earlier transaction. -/
def storeAndCommit (acquired : Bool) (blocks : List (Block H)) : List (Σ p, (columns sh).Msg Unit p) :=
  (columns sh).toIndex ((Block.storeMany sh true blocks).1 ++ toEach fun _ => some (.flush ())) ++
    (columns sh).sinks.flatMap fun c => (columns sh).toColumn c (toEach fun _ =>
      some (if acquired || !blocks.isEmpty then .flushWhenReady () else .flush ()))

section Run

variable {db : Db sh} {blocks : List (Block H)} {acquired : Bool}

lemma Db.Holds.knows (hdb : db.Holds known) (i : Fin sh.shards) :
    Knows sh i known (db.opened.itable i) where
  rows h hi p := by
    subst hi
    exact hdb h p
  cached h hi p hc := by simp [Db.opened, IndexFactory.openForWrite] at hc

lemma sentTo_index_storeAndCommit (i : Fin sh.shards)
    (hok : (Block.storeMany sh true blocks).2 = .ok ()) :
    sentTo (.index i) (storeAndCommit sh acquired blocks) = sentBy i (batchCmds sh blocks) ++
    [.flush ()] := by
  have hcolumns : sentTo (.index i) ((columns sh).sinks.flatMap fun c =>
      (columns sh).toColumn c (toEach fun _ =>
      some (if acquired || !blocks.isEmpty then .flushWhenReady () else .flush ()))) = [] := by
    rw [sentTo_flatMap]
    exact List.flatMap_eq_nil_iff.mpr fun c _ => Columns.sentTo_toColumn_of_ne (by simp) _
  rw [storeAndCommit, sentTo_append, hcolumns, Columns.sentTo_toIndex,
    (Block.storeMany_spec sh blocks).2 hok, sentBy_append, sentBy_toEach]
  simp

lemma sentTo_shard_storeAndCommit (c : InputColumn) (j : Fin (sh.inputShards c)) :
    sentTo (.shard c j) (storeAndCommit sh acquired blocks) =
      ([if acquired || !blocks.isEmpty then .flushWhenReady () else .flush ()] : List
        ((columns sh).CmdOf Unit c)) := by
  have hmem : c ∈ (columns sh).sinks := by cases c <;> simp
  rw [storeAndCommit, sentTo_append, Columns.sentTo_toIndex_of_ne (by simp),
    Columns.sentTo_columns (columns sh).nodup_sinks, if_pos hmem, sentBy_toEach]
  rfl

/-- The whole run of a shard of the hash index. -/
lemma shows_batch (hdb : db.Holds known) (hn : New known (blocks.flatMap Block.transactions))
    (hok : (Block.storeMany sh true blocks).2 = .ok ())
    {calls : List ((H → Option BlockPointer) × Entries H)}
    {last : (H → Option BlockPointer) × Entries H} (hsplit : lookups known blocks = calls ++ [last])
    (i : Fin sh.shards) : Columns.Shows (X := columns sh) Prod.snd calls last (outOf i)
      (Columns.indexRun db.opened.state (fun _ => storeAndCommit sh acquired blocks) () i).2 := by
  obtain ⟨st, hbatch⟩ := feed_batch (db.index i) (TxState.new (db.opened.itable i))
    (hdb.knows i) hn hsplit
  refine ⟨_, ?_, Columns.quiet_flush ⟨db.index i, .inTx st⟩ ()⟩
  have hstart : (db.opened.state (E := Unit) (.index i)).writer =
    ⟨db.index i, .inTx (TxState.new (db.opened.itable i))⟩ := rfl
  rw [Columns.indexRun, sentTo_index_storeAndCommit i hok, commands_append, feedAll_append,
    hstart, hbatch]
  simp [commands, feedAll]

/-! ### The rows -/

/-- The rows of a query, of which the transactions `a.1` are known. -/
def rowsOf (c : InputColumn) (a : (H → Option BlockPointer) × Entries H) :
    List (TransactionPointer × c.Val) :=
  a.2.map fun e => (⟨e.2.1, asU16 e.2.2⟩, inputValue e.1 (a.1 e.1.txHash) c)

/-- One row for each reference. -/
lemma flatMap_inputRow (c : InputColumn) (a : (H → Option BlockPointer) × Entries H) :
    (Columns.answers (X := columns sh) a.1 (a.2.map fun e => e.1.txHash)).flatMap (inputRow c a.2) =
      rowsOf c a := by
  have hrow : ∀ e ∈ a.2.zipIdx, inputRow c a.2 (e.2, a.1 e.1.1.txHash) =
      [((⟨e.1.2.1, asU16 e.1.2.2⟩, inputValue e.1.1
        (a.1 e.1.1.txHash) c) : TransactionPointer × c.Val)] := by
    rintro ⟨e, n⟩ he
    rw [inputRow, List.mem_zipIdx_iff_getElem?.mp he]
  have hzip : Columns.answers (X := columns sh) a.1 (a.2.map fun e => e.1.txHash) =
      a.2.zipIdx.map fun e => (e.2, a.1 e.1.1.txHash) := by
    simp [Columns.answers, enumerate, List.zipIdx_map, List.map_map, Function.comp_def]
  rw [hzip, List.flatMap_map, List.flatMap_congr hrow, ← List.map_eq_flatMap, rowsOf]
  conv_rhs => rw [← List.zipIdx_map_fst 0 a.2, List.map_map]
  rfl

lemma mem_outOf {i : Fin sh.shards} {a : (H → Option BlockPointer) × Entries H}
    {e : ℕ × Option BlockPointer} (he : e ∈ outOf i a) : e.1 < a.2.length := by
  obtain ⟨x, hx, rfl⟩ := List.mem_map.mp he
  obtain ⟨⟨v, n⟩, hy, rfl⟩ := List.mem_map.mp (List.mem_of_mem_filter hx)
  have hlt := (List.mem_zipIdx_iff_getElem?.mp hy)
  rw [List.getElem?_eq_some_iff] at hlt
  obtain ⟨hlt, -⟩ := hlt
  simpa using hlt

variable (acquired) in
/-- A shard of a column of the inputs is filled. -/
lemma filled_batch (hdb : db.Holds known) (hn : New known (blocks.flatMap Block.transactions))
    (hok : (Block.storeMany sh true blocks).2 = .ok ()) (hne : blocks ≠ [])
    {calls : List ((H → Option BlockPointer) × Entries H)}
    {last : (H → Option BlockPointer) × Entries H} (hsplit : lookups known blocks = calls ++ [last])
    (c : InputColumn) (j : Fin (sh.inputShards c)) :
    Columns.Filled (X := columns sh) db.opened.state (fun _ => storeAndCommit sh acquired blocks)
      () c j () ()
      (db.inputs c j) (db.inputs c j)
      fun i => (calls ++ [last]).flatMap fun a =>
        Columns.bodyOf (X := columns sh) inputRow c j a.2 (outOf i a) where
  start := rfl
  asks := by
    rw [sentTo_shard_storeAndCommit]
    simp [hne]
  silent e he := absurd rfl he
  fills i := by
    refine (shows_batch hdb hn hok hsplit i).fills ?_ fun a _ => hookRows_eq fun e he => mem_outOf he
    cases c <;> simp

variable (known) in
omit [CacheKey H] in
lemma lookups_split (hne : blocks ≠ []) : ∃ calls last, lookups known blocks = calls ++ [last] := by
  have hlookups : lookups known blocks ≠ [] := by
    cases blocks with
    | nil => exact absurd rfl hne
    | cons b blocks => simp [lookups]
  exact ⟨_, _, (List.dropLast_append_getLast hlookups).symm⟩

/-- **One run.** A shard of the inputs that has committed has committed the rows of all queries that
belong to it; and when all channels have drained it has. -/
lemma committed_rows (hdb : db.Holds known) (hn : New known (blocks.flatMap Block.transactions))
    (hok : (Block.storeMany sh true blocks).2 = .ok ()) (hne : blocks ≠ [])
    {net : Net (Party (columns sh) Unit) ((columns sh).State Unit) ((columns sh).Msg Unit)}
    (hnet : (columns sh).Lawful db.opened.state (fun _ => storeAndCommit sh acquired blocks) net)
    (c : InputColumn) (j : Fin (sh.inputShards c)) :
    (Columns.Drained net → Columns.commits (net.state (.shard c j)).events = 1) ∧
      (Columns.commits (net.state (.shard c j)).events = 1 →
        ∃ kvs, kvs ~ bucketPairs (sh.inputPart c) j ((lookups known blocks).flatMap (rowsOf c)) ∧
          (net.state (.shard c j)).writer.db = (db.inputs c j).insertAll kvs) := by
  obtain ⟨calls, last, hsplit⟩ := lookups_split known hne
  have hf := filled_batch acquired hdb hn hok hne hsplit c j
  have hcl : Columns.OnlyClient (fun _ => storeAndCommit sh acquired blocks) () := fun _ e he =>
    absurd rfl he
  rcases hf.run sh.pos hnet hcl with ⟨hfull, kvs, hkvs, hstate⟩ | ⟨hfull, st, hstate, -⟩
  · have hone : Columns.commits (net.state (.shard c j)).events = 1 := by
      rw [hstate]
      rfl
    refine ⟨fun _ => hone, fun _ => ⟨kvs, ?_, by rw [hstate]; rfl⟩⟩
    have hall : ∀ a ∈ calls ++ [last], ((List.finRange sh.shards).flatMap fun i => outOf i a) ~
        Columns.answers (X := columns sh) a.1 (a.2.map fun e => e.1.txHash) :=
      fun a _ => Columns.answers_perm (X := columns sh) a.1 _
    refine (hkvs.trans (Columns.perm_bodies hall)).trans ?_
    rw [hsplit, List.flatMap_congr fun a _ => flatMap_inputRow c a]
  · have hnone : Columns.commits (net.state (.shard c j)).events = 0 := by
      rw [hstate]
      rfl
    refine ⟨fun hd => absurd (hf.full_of_drained hnet hcl hd) hfull, fun hone => ?_⟩
    omega

end Run

/-! ### The inputs of a batch -/

section Batch

variable {blocks : List (Block H)}

omit [CacheKey H] [LinearOrder H]

/-- The ids of the inputs of the transactions. -/
def inputsOf (blocks : List (Block H)) : List TransactionPointer :=
  (blocks.flatMap Block.transactions).flatMap fun tx => (List.range tx.inputRefs.length).map
    fun i => ⟨tx.id, i⟩

/-- A batch that can be stored: blocks of different heights with transactions that point to their
places, at most `2 ^ 16` inputs each, and with new hashes. -/
structure Batch (known : H → Option BlockPointer) (blocks : List (Block H)) : Prop where
  heights : (blocks.map Block.height).Nodup
  parents : ∀ b ∈ blocks, ∀ tx ∈ b.transactions, tx.id.height = b.height
  ids : ∀ b ∈ blocks, (b.transactions.map Transaction.id).Nodup
  positions : ∀ b ∈ blocks, ∀ tx ∈ b.transactions, tx.inputRefs.length ≤ 2 ^ 16
  hashes : New known (blocks.flatMap Block.transactions)

lemma Batch.ids_nodup (hb : Batch known blocks) :
    ((blocks.flatMap Block.transactions).map Transaction.id).Nodup := by
  rw [List.map_flatMap, List.nodup_flatMap]
  refine ⟨hb.ids, ?_⟩
  have hne : blocks.Pairwise fun b b' => b.height ≠ b'.height := List.pairwise_map.mp hb.heights
  refine hne.imp_of_mem fun {b b'} hmem hmem' hne => ?_
  intro p hp hp'
  obtain ⟨tx, htx, rfl⟩ := List.mem_map.mp hp
  obtain ⟨tx', htx', hid⟩ := List.mem_map.mp hp'
  apply hne
  rw [← hb.parents b hmem tx htx, ← hb.parents b' hmem' tx' htx', hid]

/-- Every input has an id of its own. -/
lemma Batch.inputs_nodup (hb : Batch known blocks) : (inputsOf blocks).Nodup := by
  rw [inputsOf, List.nodup_flatMap]
  constructor
  · intro tx _
    exact (List.nodup_range).map fun i j h => by simpa using h
  · have hne : (blocks.flatMap Block.transactions).Pairwise fun tx tx' => tx.id ≠ tx'.id :=
      List.pairwise_map.mp hb.ids_nodup
    refine hne.imp fun {tx tx'} hne => ?_
    intro p hp hp'
    obtain ⟨i, -, rfl⟩ := List.mem_map.mp hp
    obtain ⟨i', -, heq⟩ := List.mem_map.mp hp'
    exact hne (congrArg TransactionPointer.parent heq).symm

lemma map_key_entries (tx : Transaction H) (hlen : tx.inputRefs.length ≤ 2 ^ 16) :
    (tx.entries.map fun e => (⟨e.2.1, asU16 e.2.2⟩ : TransactionPointer)) =
      (List.range tx.inputRefs.length).map fun i => ⟨tx.id, i⟩ := by
  have hidx : (enumerate tx.inputRefs).map Prod.fst = List.range tx.inputRefs.length := by
    simp [enumerate, List.map_map, Function.comp_def, List.zipIdx_map_snd, List.range_eq_range']
  rw [← hidx, Transaction.entries, List.map_map, List.map_map]
  refine List.map_congr_left fun e he => ?_
  have hlt : e.1 < tx.inputRefs.length := by
    rw [← List.mem_range, ← hidx]
    exact List.mem_map_of_mem he
  have hu : asU16 e.1 = e.1 := Nat.mod_eq_of_lt (by omega)
  simp only [Function.comp_apply, hu]

end Batch

section Rows

variable {blocks : List (Block H)}

omit [CacheKey H]

lemma learn_append (known : H → Option BlockPointer) (txs txs' : List (Transaction H)) :
    learn known (txs ++ txs') = learn (learn known txs) txs' :=
  List.foldl_append ..

lemma flatMap_lookups {α : Type} (g : Entries H → List α) (known : H → Option BlockPointer)
    (blocks : List (Block H)) :
    ((lookups known blocks).flatMap fun a => g a.2) = blocks.flatMap fun b => g b.entries := by
  induction blocks generalizing known with
  | nil => rfl
  | cons b blocks ih => rw [lookups, List.flatMap_cons, List.flatMap_cons, ih]

/-- The keys of the rows are the ids of the inputs. -/
lemma Batch.map_fst_rows (hb : Batch known blocks) (c : InputColumn) :
    ((lookups known blocks).flatMap (rowsOf c)).map Prod.fst = inputsOf blocks := by
  have hkeys : ∀ a : (H → Option BlockPointer) × Entries H, (rowsOf c a).map Prod.fst =
      a.2.map fun e => (⟨e.2.1, asU16 e.2.2⟩ : TransactionPointer) := by
    intro a
    rw [rowsOf, List.map_map]
    rfl
  rw [List.map_flatMap, List.flatMap_congr fun a _ => hkeys a,
    flatMap_lookups (fun entries => entries.map fun e =>
      (⟨e.2.1, asU16 e.2.2⟩ : TransactionPointer)), inputsOf,
    List.flatMap_assoc]
  refine List.flatMap_congr fun b hmem => ?_
  rw [Block.entries, List.map_flatMap]
  exact List.flatMap_congr fun tx htx => map_key_entries tx (hb.positions b hmem tx htx)

lemma mem_lookups (known : H → Option BlockPointer) (before : List (Block H)) (b : Block H)
    (after : List (Block H)) :
    (learn known ((before ++ [b]).flatMap Block.transactions), b.entries) ∈ lookups known
      (before ++ b :: after) := by
  induction before generalizing known with
  | nil => simp [lookups]
  | cons b' before ih =>
    rw [List.cons_append, List.cons_append, List.flatMap_cons, learn_append, lookups]
    exact List.mem_cons_of_mem _ (ih _)

/-- The row of an input. -/
lemma Batch.mem_rows {before : List (Block H)} {b : Block H} {after : List (Block H)}
    (hb : Batch known (before ++ b :: after)) (c : InputColumn) {tx : Transaction H}
    (htx : tx ∈ b.transactions) {i : ℕ} {r : InputRef H} (hr : tx.inputRefs[i]? = some r) :
    ((⟨tx.id, i⟩ : TransactionPointer),
      inputValue r (learn known ((before ++ [b]).flatMap Block.transactions) r.txHash) c) ∈
      (lookups known (before ++ b :: after)).flatMap (rowsOf c) := by
  have hlen := hb.positions b (by simp) tx htx
  have hlt : i < tx.inputRefs.length := (List.getElem?_eq_some_iff.mp hr).1
  have hu : asU16 i = i := Nat.mod_eq_of_lt (by omega)
  refine List.mem_flatMap.mpr ⟨_, mem_lookups known before b after,
    List.mem_map.mpr ⟨(r, tx.id, i), ?_, ?_⟩⟩
  · refine List.mem_flatMap.mpr ⟨tx, htx, List.mem_map.mpr ⟨(i, r), ?_, rfl⟩⟩
    exact List.mem_map.mpr ⟨(r, i), List.mem_zipIdx_iff_getElem?.mpr hr, rfl⟩
  · simp only [hu]

/-- The transaction with the hash `h` is the one at `q`: it is in the database, or in one of the
blocks. -/
def Made (known : H → Option BlockPointer) (blocks : List (Block H)) (h : H)
    (q : BlockPointer) : Prop :=
  known h = some q ∨ ∃ b ∈ blocks, ∃ tx ∈ b.transactions, tx.hash = h ∧ tx.id = q

lemma learn_eq_some {txs : List (Transaction H)} (hn : New known txs) {h : H} {q : BlockPointer} :
    learn known txs h = some q ↔ known h = some q ∨ ∃ tx ∈ txs, tx.hash = h ∧ tx.id = q := by
  induction txs generalizing known with
  | nil => simp [learn]
  | cons tx txs ih =>
    rw [show learn known (tx :: txs) = learn (putMap known tx.hash tx.id) txs from rfl, ih hn.tail]
    by_cases hh : h = tx.hash
    · subst hh
      rw [putMap_self, hn.2 tx List.mem_cons_self]
      simp
    · rw [putMap_of_ne _ _ hh]
      simp [Ne.symm hh]

lemma learn_eq_made {before : List (Block H)}
    (hn : New known (before.flatMap Block.transactions)) {h : H} {q : BlockPointer} :
    learn known (before.flatMap Block.transactions) h = some q ↔ Made known before h q := by
  rw [learn_eq_some hn, Made]
  simp only [List.mem_flatMap]
  constructor
  · rintro (hold | ⟨tx, ⟨b, hmem, htx⟩, hh, hq⟩)
    · exact Or.inl hold
    · exact Or.inr ⟨b, hmem, tx, htx, hh, hq⟩
  · rintro (hold | ⟨b, hmem, tx, htx, hh, hq⟩)
    · exact Or.inl hold
    · exact Or.inr ⟨tx, ⟨b, hmem, htx⟩, hh, hq⟩

end Rows

/-! ### Every interleaving -/

section Exact

variable {blocks : List (Block H)}

variable (sh known blocks) in
/-- What a shard of the inputs holds after the batch: each input of the shard points to the output it
spends, if the transaction that made this output is in the database, in an earlier block or in the same
block, and else to the placeholder; and all other rows are as they were. -/
structure Resolved (c : InputColumn) (j : Fin (sh.inputShards c))
    (old new : Table TransactionPointer c.Val) : Prop where
  input : ∀ before b after, blocks = before ++ b :: after → ∀ tx ∈ b.transactions, ∀ i r,
    tx.inputRefs[i]? = some r → sh.inputPart c ⟨tx.id, i⟩ = j →
      (∀ q, Made known (before ++ [b]) r.txHash q →
        new.get ⟨tx.id, i⟩ = some (inputValue r (some q) c)) ∧
      ((∀ q, ¬ Made known (before ++ [b]) r.txHash q) →
        new.get ⟨tx.id, i⟩ = some (inputValue r none c))
  rest : ∀ k, k ∉ inputsOf blocks ∨ sh.inputPart c k ≠ j → new.get k = old.get k

omit [CacheKey H] in
/-- The rows of the queries resolve the inputs. -/
lemma Batch.resolved (hb : Batch known blocks) (c : InputColumn) (j : Fin (sh.inputShards c))
    (old : Table TransactionPointer c.Val) {kvs : List (TransactionPointer × c.Val)}
    (hkvs : kvs ~ bucketPairs (sh.inputPart c) j ((lookups known blocks).flatMap (rowsOf c))) :
    Resolved sh known blocks c j old (old.insertAll kvs) := by
  have hmem : ∀ k v, (k, v) ∈ kvs ↔ (k, v) ∈ (lookups known blocks).flatMap (rowsOf c) ∧
      sh.inputPart c k = j := by
    intro k v
    rw [hkvs.mem_iff, bucketPairs, List.mem_filter, decide_eq_true_iff]
  have hnd : (kvs.map Prod.fst).Nodup := by
    rw [(hkvs.map Prod.fst).nodup_iff]
    refine List.Nodup.sublist (List.filter_sublist.map Prod.fst) ?_
    rw [hb.map_fst_rows c]
    exact hb.inputs_nodup
  constructor
  · rintro before b after rfl tx htx i r hr hj
    have hget := Table.get_insertAll_of_mem hnd ((hmem _ _).mpr ⟨hb.mem_rows c htx hr, hj⟩) old
    have hn : New known ((before ++ [b]).flatMap Block.transactions) := by
      have hall := hb.hashes
      rw [show before ++ b :: after = (before ++ [b]) ++ after by simp, List.flatMap_append] at hall
      exact hall.of_append_left
    rw [hget]
    constructor
    · intro q hq
      rw [(learn_eq_made hn).mpr hq]
    · intro hnone
      have hlearn : learn known ((before ++ [b]).flatMap Block.transactions) r.txHash = none :=
        Option.eq_none_iff_forall_ne_some.mpr fun q hq => hnone q ((learn_eq_made hn).mp hq)
      rw [hlearn]
  · intro k hk
    refine Table.get_insertAll_of_notMem (fun kv hkv heq => ?_) old
    obtain ⟨hrow, hj⟩ := (hmem kv.1 kv.2).mp hkv
    rw [heq] at hj
    rcases hk with hk | hk
    · refine hk ?_
      rw [← hb.map_fst_rows c, ← heq]
      exact List.mem_map_of_mem hrow
    · exact hk hj

/-- Of an empty batch nothing is stored. -/
lemma committed_empty {db : Db sh} {acquired : Bool}
    {net : Net (Party (columns sh) Unit) ((columns sh).State Unit) ((columns sh).Msg Unit)}
    (hnet : (columns sh).Lawful db.opened.state (fun _ => storeAndCommit sh acquired []) net)
    (c : InputColumn) (j : Fin (sh.inputShards c))
    (hone : Columns.commits (net.state (.shard c j)).events = 1) :
    (net.state (.shard c j)).writer.db = db.inputs c j := by
  have hcl : Columns.OnlyClient (fun _ => storeAndCommit sh acquired []) () := fun _ e he =>
    absurd rfl he
  have hsilent : ∀ i, (Columns.shownBy db.opened.state net i).flatMap
      ((columns sh).toShard c j) = [] := by
    intro i
    refine List.flatMap_eq_nil_iff.mpr fun ev hev => Columns.toShard_of_quiet (X := columns sh) ?_ c j
    have hrun := (hnet.shownBy_isPrefix hcl i).subset hev
    rw [Columns.indexRun, sentTo_index_storeAndCommit i rfl] at hrun
    simp only [batchCmds, sentBy_nil, List.nil_append, commands, List.map_cons, List.map_nil, feedAll,
      List.append_nil] at hrun
    exact Columns.quiet_flush _ () ev hrun
  have hlog : (net.log (.shard c j)).map Prod.snd = sentBy (.user ()) (net.log (.shard c j)) := by
    refine hnet.map_snd_log fun p hp => ?_
    cases p with
    | user e => exact absurd rfl hp
    | index i => rw [Columns.sentTo_shard_emitted_index, hsilent]
    | shard c' j' => exact Columns.sentTo_shard_emitted_shard (X := columns sh) c c' j j'
  have hpre := hnet.taken (.user ()) (.shard c j)
  rw [Columns.emitted_user, sentTo_shard_storeAndCommit, ← hlog] at hpre
  have hstate : net.state (.shard c j) = Shard.after (plainTable TransactionPointer c.Val) .fine
      ⟨⟨db.inputs c j, .inTx (TxState.new (db.inputs c j))⟩, []⟩ (net.log (.shard c j)) := by
    rw [hnet.state, Columns.after_shard]
    rfl
  rw [hstate, Shard.after, inputs_eq] at hone ⊢
  generalize (net.log (.shard c j)).map Prod.snd = taken at hpre hone ⊢
  rcases List.prefix_concat_iff.mp (show taken <+: [] ++ [_] from hpre) with rfl | hnil
  · cases acquired with
    | true =>
      simp [commands, feedAll, feed, TxState.step, TxState.new, TxState.flushIfReady, settle,
        Columns.commits] at hone
    | false =>
      have hempty : (MergeBuffer.new : MergeBuffer TransactionPointer c.Val).takeSorted.1 = [] :=
        List.perm_nil.mp ((MergeBuffer.takeSorted_perm _).trans (by simp))
      simp [commands, feedAll, feed, TxState.step, TxState.new, TxState.flush, hempty, settle,
        Env.fine, plainTable]
  · rw [List.prefix_nil.mp hnil]
    rfl

/-- **Spent outputs.** `store_many` fails exactly if a block of the batch spends an output twice.
Else, in every interleaving of the writers, a shard of the inputs that has committed has resolved
them, and there is one row for each reference of the batch; and when all channels have drained, all
have committed. -/
theorem spent_outputs_exact (db : Db sh) (hdb : db.Holds known) (hb : Batch known blocks) :
    ((Block.storeMany sh true blocks).2 = .ok () ↔ ∀ b ∈ blocks, b.refs.Nodup) ∧
      (inputsOf blocks).Nodup ∧
    ((Block.storeMany sh true blocks).2 = .ok () → ∀ acquired acts net,
      sched (Net.step (columns sh).handle) ((columns sh).boot db.opened.state fun _ =>
        storeAndCommit sh acquired blocks)
        acts = some net →
      ∀ c j, (blocks ≠ [] → Columns.Drained net →
        Columns.commits (net.state (.shard c j)).events = 1) ∧
        (Columns.commits (net.state (.shard c j)).events = 1 →
          Resolved sh known blocks c j (db.inputs c j) (net.state (.shard c j)).writer.db)) := by
  refine ⟨(Block.storeMany_spec sh blocks).1, hb.inputs_nodup,
    fun hok acquired acts net hrun c j => ?_⟩
  have hnet : (columns sh).Lawful db.opened.state (fun _ => storeAndCommit sh acquired blocks)
    net := inv_sched hrun
  refine ⟨fun hne hd => (committed_rows hdb hb.hashes hok hne hnet c j).1 hd, fun hone => ?_⟩
  by_cases hne : blocks = []
  · subst hne
    rw [committed_empty hnet c j hone]
    exact ⟨fun before b after h => by simp at h, fun k _ => rfl⟩
  · obtain ⟨kvs, hkvs, hdb'⟩ := (committed_rows hdb hb.hashes hok hne hnet c j).2 hone
    rw [hdb']
    exact hb.resolved c j (db.inputs c j) hkvs

/-! ### A block that spends its own output -/

/-- Two shards of the hash index, and one of each column of the inputs. -/
@[reducible]
def twoShards : Sharding ℕ where
  shards := 2
  pos := by decide
  factory := IndexFactory.new 1
  part h := Fin.ofNat 2 h
  inputShards _ := 1
  inputPart _ _ := 0

/-- An empty database. -/
def emptyDb : Db twoShards where
  index _ := IndexTables.empty
  inputs _ _ := Table.empty

lemma emptyDb_holds : emptyDb.Holds fun _ => none := by
  intro h p
  simp [emptyDb, IndexTables.empty]

/-- The first transaction spends an output of the second one. -/
def ownOutput : List (Block ℕ) := [⟨1, [⟨⟨1, 0⟩, 10, [⟨21, 3⟩]⟩, ⟨⟨1, 1⟩, 21, []⟩]⟩]

lemma ownOutput_batch : Batch (fun _ => none) ownOutput where
  heights := by decide
  parents := by decide
  ids := by decide
  positions := by decide
  hashes := ⟨by decide, by decide⟩

/-- The moves of a whole run: the client, the two shards of the index, and the shards of the two
columns that it fills. -/
def ownOutputActs : List (Act (Party (columns twoShards) Unit)) :=
  List.replicate 8 (.send (.user ())) ++
    [.take (.index 0), .take (.index 0), .send (.index 0), .send (.index 0), .take (.index 0),
      .send (.index 0)] ++
    [.take (.index 1), .take (.index 1), .send (.index 1), .send (.index 1), .send (.index 1),
      .send (.index 1), .take (.index 1), .send (.index 1)] ++
    [InputColumn.id, .utxoPointer].flatMap fun c =>
      [.take (.shard c 0), .take (.shard c 0), .take (.shard c 0), .take (.shard c 0),
        .send (.shard c 0)]

theorem spent_own_output : ∃ net, sched (Net.step (columns twoShards).handle)
      ((columns twoShards).boot emptyDb.opened.state fun _ => storeAndCommit twoShards false ownOutput)
      ownOutputActs = some net ∧
    Table.get (net.state (.shard .utxoPointer 0)).writer.db ⟨⟨1, 0⟩, 0⟩ = some ⟨⟨1, 1⟩, 3⟩ := by
  have hrun : (sched (Net.step (columns twoShards).handle)
      ((columns twoShards).boot emptyDb.opened.state fun _ => storeAndCommit twoShards false ownOutput)
      ownOutputActs).map (fun net => Columns.commits (net.state (.shard .utxoPointer 0)).events) =
        some 1 := by
    decide +kernel
  obtain ⟨net, hnet, hone⟩ := Option.map_eq_some_iff.mp hrun
  have hres := ((spent_outputs_exact emptyDb emptyDb_holds ownOutput_batch).2.2
    (by decide) false _ net hnet .utxoPointer 0).2 hone
  refine ⟨net, hnet, ?_⟩
  refine (hres.input [] _ [] rfl ⟨⟨1, 0⟩, 10, [⟨21, 3⟩]⟩ (by simp) 0 ⟨21, 3⟩ rfl rfl).1 ⟨1, 1⟩
    (Or.inr ?_)
  exact ⟨_, List.mem_singleton_self _, ⟨⟨1, 1⟩, 21, []⟩, by simp, rfl, rfl⟩

end Exact

end Redbit.Demo
