import Redbit.Storage.WriterNet
import Redbit.Storage.IndexCache

/-!
# Sharding is transparent (`partitioning.rs`, `router.rs`, `table_plain_read.rs`,
`table_index_read.rs`)

A plain column is partitioned by key, an index column by value.  The three kinds of inserts go to
the shards of their pairs, a delete to the shard of its key or, in an index column, to one shard
after the other; the readers have rules of their own.  `sharding_transparent`: nobody can tell a
column of `n` shards from one of a single shard.

Both are compared with a plain map.  Every shard holds the part of the map that the partitioning
gives to it (`Holds`); what a shard does with the commands of one transaction is computed from its
thread.
-/

set_option linter.unusedSectionVars false

namespace Redbit.Storage

open Redbit.Lib Redbit.Lib.Net

/-! ### Partitioning -/

/-- `le_mod_fold_chunk`: the power of 256 and the sum so far, both modulo `m`.  Below `m` both are
less than 2⁶⁴, so nothing overflows. -/
def leModFoldChunk (m : ℕ) (powAcc : ℕ × ℕ) (chunk : List UInt8) : ℕ × ℕ :=
  chunk.foldl (fun pa b => (pa.1 * 256 % m, (pa.2 + b.toNat * pa.1) % m)) powAcc

/-- `partition_bytes_le`. -/
def partitionBytesLe (n : ℕ) [NeZero n] (bytes : List UInt8) : Fin n :=
  if n = 1 then 0 else Fin.ofNat n (leModFoldChunk n (1, 0) bytes).2

/-- `Partitioning`, over `n` shards. -/
inductive Partitioning (K V : Type) (n : ℕ) where
  | byKey (kp : K → Fin n)
  | byValue (vp : V → Fin n)

/-- `Partitioning::by_key`, for keys with the bytes `asBytes`. -/
def Partitioning.ofKeyBytes {K V : Type} (n : ℕ) [NeZero n] (asBytes : K → List UInt8) :
    Partitioning K V n :=
  .byKey fun k => partitionBytesLe n (asBytes k)

/-- `Partitioning::by_value`, for values with the hash `xxh3`. -/
def Partitioning.ofValueHash {K V : Type} (n : ℕ) [NeZero n] (xxh3 : V → ℕ) : Partitioning K V n :=
  .byValue fun v => Fin.ofNat n (xxh3 v)

section Router

variable {D T K V : Type} [LinearOrder K] {n : ℕ}

/-- `ShardedRouter::bucket_one`: the shard of a pair. -/
def Partitioning.bucketOne : Partitioning K V n → K → V → Fin n
  | .byKey kp, k, _ => kp k
  | .byValue vp, _, v => vp v

/-- `ShardedRouter::bucket`: the pairs of the shard `i`, in their order. -/
def Partitioning.bucket (part : Partitioning K V n) (i : Fin n) (pairs : List (K × V)) :
    List (K × V) :=
  pairs.filter fun kv => part.bucketOne kv.1 kv.2 = i

/-! ### The column and its router -/

/-- The calls of the router. -/
inductive RouterCall (K V : Type) where
  | writeInsertNow (k : K) (v : V)
  | writeSortedInsertsOnFlush (pairs : List (K × V))
  | mergeUnsortedInserts (pairs : List (K × V)) (lastShards : Option ℕ)
  | deleteKv (k : K)

/-- A command; its sender waits for the answer on a channel that nobody else has. -/
abbrev Command (K V : Type) := WriterCommand K V Unit Unit

/-- `write_sorted_inserts_on_flush` and the first half of `merge_unsorted_inserts`: each shard gets
its pairs in the command `cmd`. -/
def Partitioning.routePairs (part : Partitioning K V n) (cmd : List (K × V) → Command K V)
    (pairs : List (K × V)) : List (Fin n × Command K V) :=
  if pairs = [] then []
  else if n = 1 then toEach fun _ => some (cmd pairs)
  else toEach fun i => if part.bucket i pairs = [] then none else some (cmd (part.bucket i pairs))

/-- The commands of the inserts. -/
def Partitioning.routeInsert (part : Partitioning K V n) : RouterCall K V → List (Fin n × Command K V)
  | .writeInsertNow k v =>
    if n = 1 then toEach fun _ => some (.writeInsertNow k v)
      else [(part.bucketOne k v, .writeInsertNow k v)]
  | .writeSortedInsertsOnFlush pairs => part.routePairs .writeSortedInsertsOnFlush pairs
  | .mergeUnsortedInserts pairs lastShards =>
    part.routePairs .mergeUnsortedInserts pairs ++
      match lastShards with
      | some fromShards => routeReady fromShards
      | none => []
  | .deleteKv _ => []

/-- The shards that `delete_kv` may ask, in its order. -/
def Partitioning.candidates (part : Partitioning K V n) (k : K) : List (Fin n) :=
  if n = 1 then List.finRange n
  else match part with
    | .byKey kp => [kp k]
    | .byValue _ => List.finRange n

/-- The writers of the shards. -/
abbrev Shards (n : ℕ) (D T K V : Type) := Fin n → Writer D T K V Unit

namespace Shards

variable (W : WriteTable D T K V) (c : Shards n D T K V)

/-- The commands `msgs` reach their shards, and all goes well there. -/
def send (msgs : List (Fin n × Command K V)) : Shards n D T K V := fun i =>
  (feedAll W Env.fine (c i) (commands (sentBy i msgs))).1

/-- The answer to a `Remove`. -/
def answered (events : List (Event K V Unit Unit)) : Bool :=
  events.any fun
    | .removed _ removed => removed
    | _ => false

/-- The loop of `delete_kv`: the shards `is` are asked until one had the key. -/
def deleteFrom (c : Shards n D T K V) (k : K) : List (Fin n) → Bool × Shards n D T K V
  | [] => (false, c)
  | i :: is =>
    let r := feed W Env.fine (c i) (.remove k (), none)
    let c : Shards n D T K V := Function.update c i r.1
    if answered r.2 then (true, c) else deleteFrom c k is

/-- A call, with what it returns. -/
def call (part : Partitioning K V n) : RouterCall K V → Option Bool × Shards n D T K V
  | .deleteKv k => ((deleteFrom W c k (part.candidates k)).1, (deleteFrom W c k (part.candidates k)).2)
  | insert => (none, c.send W (part.routeInsert insert))

/-- A transaction with one call. -/
def transact (part : Partitioning K V n) (op : RouterCall K V) : Option Bool × Shards n D T K V :=
  let r := (c.send W (toEach fun _ => some (.begin ()))).call W part op
  (r.1, r.2.send W (toEach fun _ => some (.flush ())))

/-- One transaction after the other, with the answers of all deletes. -/
def runStep (part : Partitioning K V n) (s : List Bool × Shards n D T K V) (op : RouterCall K V) :
    List Bool × Shards n D T K V :=
  (s.1 ++ (s.2.transact W part op).1.toList, (s.2.transact W part op).2)

/-- A column with the tables `d` in every shard, and no transaction. -/
def resting (n : ℕ) (d : D) : Shards n D T K V := fun _ => ⟨d, .outside⟩

end Shards

end Router

/-! ### The same on a plain map -/

section Map

variable {K V : Type} [LinearOrder K]

/-- A call on a plain map. -/
def mapCall (m : K → Option V) : RouterCall K V → Option Bool × (K → Option V)
  | .writeInsertNow k v => (none, putAll m [(k, v)])
  | .writeSortedInsertsOnFlush pairs => (none, putAll m pairs)
  | .mergeUnsortedInserts pairs _ => (none, putAll m pairs)
  | .deleteKv k => (some (m k).isSome, eraseMap m k)

/-- One call after the other, with the answers of all deletes. -/
def mapStep (s : List Bool × (K → Option V)) (op : RouterCall K V) : List Bool × (K → Option V) :=
  (s.1 ++ (mapCall s.2 op).1.toList, (mapCall s.2 op).2)

/-- The pairs a call inserts. -/
def RouterCall.pairs : RouterCall K V → List (K × V)
  | .writeInsertNow k v => [(k, v)]
  | .writeSortedInsertsOnFlush pairs => pairs
  | .mergeUnsortedInserts pairs _ => pairs
  | .deleteKv _ => []

/-- The keys that are inserted are not present. -/
def RouterCall.Fresh (m : K → Option V) (op : RouterCall K V) : Prop :=
  (op.pairs.map Prod.fst).Nodup ∧ ∀ kv ∈ op.pairs, m kv.1 = none

/-- Every insert of the run is one of keys that are not present at that time. -/
def FreshRun (ops : List (RouterCall K V)) : Prop :=
  EachStep mapStep (fun s op => op.Fresh s.2) ([], fun _ => none) ops

lemma putAll_perm {m : K → Option V} {pairs pairs' : List (K × V)} (hp : pairs.Perm pairs')
    (hnd : (pairs'.map Prod.fst).Nodup) : putAll m pairs = putAll m pairs' := by
  funext k
  by_cases hk : k ∈ pairs'.map Prod.fst
  · obtain ⟨⟨k, v⟩, hkv, rfl⟩ := List.mem_map.mp hk
    rw [putAll_of_mem hnd hkv, putAll_of_mem ((hp.map Prod.fst).nodup_iff.mpr hnd)
      (hp.mem_iff.mpr hkv)]
  · rw [putAll_of_notMem hk, putAll_of_notMem fun hk' => hk ((hp.map Prod.fst).mem_iff.mp hk')]

end Map

/-! ### The part of a shard -/

namespace Partitioning

variable {K V : Type} [LinearOrder K] {n : ℕ} (part : Partitioning K V n)

/-- The part of the map `m` that belongs to the shard `i`. -/
def restrict (i : Fin n) (m : K → Option V) : K → Option V := fun k => (m k).filter fun v =>
    part.bucketOne k v = i

variable {part} {i : Fin n} {m : K → Option V} {k : K}

lemma restrict_eq_some {v : V} : part.restrict i m k = some v ↔ m k = some v ∧
    part.bucketOne k v = i :=
  filterMap_eq_some (p := fun k v => part.bucketOne k v = i)

lemma restrict_eq_none (h : m k = none) : part.restrict i m k = none := by
  unfold restrict
  rw [h]
  rfl

lemma restrict_eraseMap : part.restrict i (eraseMap m k) = eraseMap (part.restrict i m) k :=
  filterMap_eraseMap (p := fun k v => part.bucketOne k v = i)

lemma restrict_eraseMap_of_none (h : part.restrict i m k = none) :
    part.restrict i (eraseMap m k) = part.restrict i m :=
  filterMap_eraseMap_of_none (p := fun k v => part.bucketOne k v = i) h

lemma mem_bucket {pairs : List (K × V)} {kv : K × V} :
    kv ∈ part.bucket i pairs ↔ kv ∈ pairs ∧ part.bucketOne kv.1 kv.2 = i := by
  rw [bucket, List.mem_filter, decide_eq_true_iff]

lemma nodup_bucket {pairs : List (K × V)} (h : (pairs.map Prod.fst).Nodup) :
    ((part.bucket i pairs).map Prod.fst).Nodup :=
  h.sublist (List.filter_sublist.map _)

/-- With one shard, the bucket is everything. -/
lemma bucket_one_shard (hn : n = 1) (pairs : List (K × V)) : part.bucket i pairs = pairs := by
  refine List.filter_eq_self.mpr fun kv _ => ?_
  rw [decide_eq_true_iff]
  exact eq_of_one hn _ _

lemma restrict_putAll {pairs : List (K × V)} (hnd : (pairs.map Prod.fst).Nodup)
    (habs : ∀ kv ∈ pairs, m kv.1 = none) :
    part.restrict i (putAll m pairs) = putAll (part.restrict i m) (part.bucket i pairs) :=
  filterMap_putAll (p := fun k v => part.bucketOne k v = i) hnd fun kv hkv => Or.inl (habs kv hkv)

/-! ### What a shard is sent -/

lemma sentBy_routePairs (cmd : List (K × V) → Command K V) (pairs : List (K × V)) (i : Fin n) :
    sentBy i (part.routePairs cmd pairs) = if part.bucket i pairs = [] then []
      else [cmd (part.bucket i pairs)] := by
  unfold routePairs
  by_cases hempty : pairs = []
  · rw [if_pos hempty, if_pos (by rw [hempty]; rfl)]
    rfl
  · rw [if_neg hempty]
    by_cases hn : n = 1
    · rw [if_pos hn, bucket_one_shard hn, if_neg hempty, sentBy_toEach]
      rfl
    · rw [if_neg hn, sentBy_toEach]
      split <;> rfl

lemma sentBy_insertNow (k : K) (v : V) (i : Fin n) :
    sentBy i (part.routeInsert (.writeInsertNow k v)) =
      if part.bucketOne k v = i then [.writeInsertNow k v] else [] := by
  rw [routeInsert]
  by_cases hn : n = 1
  · rw [if_pos hn, sentBy_toEach, if_pos (eq_of_one hn _ _)]
    rfl
  · rw [if_neg hn]
    by_cases hi : part.bucketOne k v = i
    · rw [if_pos hi, hi, sentBy_cons_self]
      rfl
    · rw [if_neg hi, sentBy_cons_of_ne hi]
      rfl

end Partitioning

/-! ### One transaction of a shard -/

section Shard

variable {D T K V : Type} [LinearOrder K] (W : WriteTable D T K V)

/-- The tables of `W`, committed and opened again, hold a map. -/
structure WriteTable.Represents (Rep : D → (K → Option V) → Prop) : Prop where
  opened : ∀ {d m}, Rep d m → Rep (W.tables (W.openForWrite d)) m
  insertKv : ∀ {d m k v}, Rep d m → m k = none →
    Rep (W.tables (W.insertKv (W.openForWrite d) k v)) (putAll m [(k, v)])
  insertMany : ∀ {d m pairs}, Rep d m → (pairs.map Prod.fst).Nodup → (∀ kv ∈ pairs, m kv.1 = none) →
    Rep (W.tables (W.insertManySortedByKey (W.openForWrite d) pairs)) (putAll m pairs)
  deleteKv : ∀ {d m} k, Rep d m → (W.deleteKv (W.openForWrite d) k).1 = (m k).isSome ∧
    Rep (W.tables (W.deleteKv (W.openForWrite d) k).2) (eraseMap m k)

/-- The writer is in a transaction that will commit the tables `d`. -/
def Commits (w : Writer D T K V Unit) (d : D) : Prop :=
  ∃ db st, w = ⟨db, .inTx st⟩ ∧ st.writeError = none ∧
    W.tables (W.insertManySortedByKey st.table st.asyncMergeBuf.takeSorted.1) = d

variable {W}

lemma takeSorted_new : (MergeBuffer.new : MergeBuffer K V).takeSorted.1 = [] := by
  have hperm := MergeBuffer.takeSorted_perm (MergeBuffer.new : MergeBuffer K V)
  exact List.Perm.eq_nil (by simpa using hperm)

lemma commits_new (db : D) (t : T) : Commits W ⟨db, .inTx (TxState.new t)⟩ (W.tables t) := by
  refine ⟨db, TxState.new t, rfl, rfl, ?_⟩
  rw [show (TxState.new t : TxState T K V Unit).asyncMergeBuf = MergeBuffer.new from rfl,
    takeSorted_new, W.insertMany_nil]
  rfl

lemma Commits.flush {w : Writer D T K V Unit} {d : D} (h : Commits W w d) :
    (feedAll W Env.fine w (commands [(.flush () : Command K V)])).1 = ⟨d, .outside⟩ := by
  obtain ⟨db, st, rfl, herr, rfl⟩ := h
  obtain ⟨-, hout, htable⟩ := flush_fine (W := W) (S := Unit) herr ()
  show (settle W Env.fine db (st.flush W none ())).1 = _
  simp only [settle, hout, htable]
  rfl

variable {Rep : D → (K → Option V) → Prop} (hW : W.Represents Rep) {db : D} {m : K → Option V}
include hW

/-- Pairs that wait for the flush. -/
lemma Commits.buffered (hd : Rep db m) (buf : MergeBuffer K V) {pairs : List (K × V)}
    (hbuf : buf.contents.Perm pairs) (hnd : (pairs.map Prod.fst).Nodup)
    (habs : ∀ kv ∈ pairs, m kv.1 = none) (deferred : Option (FlushState Unit)) :
    ∃ d, Commits W ⟨db, .inTx ⟨W.openForWrite db, buf, deferred, none⟩⟩ d ∧
      Rep d (putAll m pairs) := by
  have hperm : buf.takeSorted.1.Perm pairs := (MergeBuffer.takeSorted_perm buf).trans hbuf
  refine ⟨_, ⟨db, _, rfl, rfl, rfl⟩, ?_⟩
  rw [← putAll_perm hperm hnd]
  refine hW.insertMany hd ((hperm.map Prod.fst).nodup_iff.mpr hnd) fun kv hkv => ?_
  exact habs kv (hperm.mem_iff.mp hkv)

/-- What a shard is sent for an insert makes it commit its part of the pairs. -/
lemma commits_insert {n : ℕ} {part : Partitioning K V n} {i : Fin n} {m : K → Option V}
    (hd : Rep db (part.restrict i m)) {op : RouterCall K V} (hfresh : op.Fresh m)
    (hins : ∀ k, op ≠ .deleteKv k) :
    ∃ d, Commits W (feedAll W Env.fine ⟨db, .inTx (TxState.new (W.openForWrite db))⟩
      (commands (sentBy i (part.routeInsert op)))).1 d ∧ Rep d (part.restrict i (mapCall m op).2) := by
  obtain ⟨hnd, habs⟩ := hfresh
  have hnd' : ((part.bucket i op.pairs).map Prod.fst).Nodup := Partitioning.nodup_bucket hnd
  have habs' : ∀ kv ∈ part.bucket i op.pairs, part.restrict i m kv.1 = none := fun kv hkv =>
    Partitioning.restrict_eq_none (habs kv (Partitioning.mem_bucket.mp hkv).1)
  have hmap : part.restrict i (putAll m op.pairs) = putAll (part.restrict i m)
      (part.bucket i op.pairs) :=
    Partitioning.restrict_putAll hnd habs
  have hnone : part.bucket i op.pairs = [] →
      ∃ d, Commits W ⟨db, .inTx (TxState.new (W.openForWrite db))⟩ d ∧
        Rep d (part.restrict i (putAll m op.pairs)) := by
    intro hempty
    refine ⟨_, commits_new db _, ?_⟩
    rw [hmap, hempty, putAll_nil]
    exact hW.opened hd
  cases op with
  | deleteKv k => exact absurd rfl (hins k)
  | writeInsertNow k v =>
    rw [Partitioning.sentBy_insertNow]
    by_cases hi : part.bucketOne k v = i
    · rw [if_pos hi]
      have hbucket : part.bucket i [(k, v)] = [(k, v)] := by simp [Partitioning.bucket, hi]
      refine ⟨_, commits_new db (W.insertKv (W.openForWrite db) k v), ?_⟩
      show Rep _ (part.restrict i (putAll m [(k, v)]))
      rw [show putAll m [(k, v)] = putAll m (RouterCall.writeInsertNow k v).pairs from rfl, hmap,
        show (RouterCall.writeInsertNow k v).pairs = [(k, v)] from rfl, hbucket]
      exact hW.insertKv hd (Partitioning.restrict_eq_none (habs (k, v) List.mem_cons_self))
    · rw [if_neg hi]
      exact hnone (by simp [Partitioning.bucket, RouterCall.pairs, hi])
  | writeSortedInsertsOnFlush pairs =>
    rw [Partitioning.routeInsert, Partitioning.sentBy_routePairs]
    by_cases hempty : part.bucket i pairs = []
    · rw [if_pos hempty]
      exact hnone hempty
    · rw [if_neg hempty]
      have hbuf : (MergeBuffer.fromSorted (part.bucket i pairs)).contents.Perm (part.bucket i pairs) :=
        .of_eq (MergeBuffer.contents_fromSorted _)
      obtain ⟨d, hcommits, hrep⟩ := Commits.buffered hW hd (.fromSorted (part.bucket i pairs)) hbuf
        hnd' habs' none
      exact ⟨d, hcommits, hmap ▸ hrep⟩
  | mergeUnsortedInserts pairs lastShards =>
    obtain ⟨buf, hbuf, hfeed⟩ : ∃ buf : MergeBuffer K V, buf.contents.Perm (part.bucket i pairs) ∧
        feedAll W Env.fine ⟨db, .inTx (TxState.new (W.openForWrite db))⟩
          (commands (sentBy i (part.routePairs .mergeUnsortedInserts pairs))) =
        (⟨db, .inTx ⟨W.openForWrite db, buf, none, none⟩⟩, []) := by
      rw [Partitioning.sentBy_routePairs]
      by_cases hempty : part.bucket i pairs = []
      · rw [if_pos hempty, hempty]
        exact ⟨.new, List.Perm.refl _, rfl⟩
      · rw [if_neg hempty]
        exact ⟨MergeBuffer.new.mergeUnsorted (part.bucket i pairs),
          MergeBuffer.mergeUnsorted_perm _ _, rfl⟩
    obtain ⟨d, hcommits, hrep⟩ := Commits.buffered hW hd buf hbuf hnd' habs'
      (lastShards.map fun s => ⟨none, 1, some s⟩)
    refine ⟨d, ?_, hmap ▸ hrep⟩
    cases lastShards with
    | none =>
      rw [Partitioning.routeInsert, List.append_nil, hfeed]
      exact hcommits
    | some shards =>
      rw [Partitioning.routeInsert, sentBy_append, commands_append, feedAll_append, hfeed,
        routeReady, sentBy_toEach]
      exact hcommits

end Shard

/-! ### The whole column -/

section Column

variable {D T K V : Type} [LinearOrder K] {W : WriteTable D T K V}
  {Rep : D → (K → Option V) → Prop} {n : ℕ}
  {part : Partitioning K V n} {c : Shards n D T K V} {m : K → Option V}

variable (Rep part) in
/-- The shards rest, and each of them holds its part of the map. -/
def Holds (c : Shards n D T K V) (m : K → Option V) : Prop :=
  ∀ i, ∃ d, c i = ⟨d, .outside⟩ ∧ Rep d (part.restrict i m)

lemma Partitioning.bucketOne_mem_candidates (k : K) (v : V) :
    part.bucketOne k v ∈ part.candidates k := by
  unfold candidates
  split
  · exact List.mem_finRange _
  · cases part with
    | byKey kp => exact List.mem_singleton_self _
    | byValue vp => exact List.mem_finRange _

lemma Partitioning.nodup_candidates (k : K) : (part.candidates k).Nodup := by
  unfold candidates
  split
  · exact List.nodup_finRange n
  · cases part with
    | byKey kp => exact List.nodup_singleton _
    | byValue vp => exact List.nodup_finRange n

lemma Holds.begin (h : Holds Rep part c m) (i : Fin n) :
    ∃ d, c.send W (toEach fun _ => some (.begin ())) i = ⟨d, .inTx (TxState.new (W.openForWrite d))⟩ ∧
      Rep d (part.restrict i m) := by
  obtain ⟨d, hd, hrep⟩ := h i
  refine ⟨d, ?_, hrep⟩
  unfold Shards.send
  rw [sentBy_toEach, hd]
  rfl

lemma holds_flush {c : Shards n D T K V}
    (h : ∀ i, ∃ d, Commits W (c i) d ∧ Rep d (part.restrict i m)) :
    Holds Rep part (c.send W (toEach fun _ => some (.flush ()))) m := by
  intro i
  obtain ⟨d, hd, hrep⟩ := h i
  refine ⟨d, ?_, hrep⟩
  unfold Shards.send
  rw [sentBy_toEach]
  exact hd.flush

variable (hW : W.Represents Rep)
include hW

/-- The loop of a delete.  The shards `is` are still to be asked, the others have nothing to lose
any more. -/
lemma deleteFrom_spec {k : K} {is : List (Fin n)} (hnd : is.Nodup) {c : Shards n D T K V}
    (hask : ∀ i ∈ is, ∃ d, c i = ⟨d, .inTx (TxState.new (W.openForWrite d))⟩ ∧
      Rep d (part.restrict i m))
    (hdone : ∀ i ∉ is, ∃ d, Commits W (c i) d ∧ Rep d (part.restrict i (eraseMap m k))) :
    ((Shards.deleteFrom W c k is).1 = true ↔ ∃ i ∈ is, (part.restrict i m k).isSome) ∧
      ∀ i, ∃ d, Commits W ((Shards.deleteFrom W c k is).2 i) d ∧
        Rep d (part.restrict i (eraseMap m k)) := by
  induction is generalizing c with
  | nil => exact ⟨by simp [Shards.deleteFrom], fun i => hdone i (by simp)⟩
  | cons i is ih =>
    obtain ⟨hi, hnd⟩ := List.nodup_cons.mp hnd
    obtain ⟨d, hd, hrep⟩ := hask i List.mem_cons_self
    obtain ⟨hfound, hrep'⟩ := hW.deleteKv k hrep
    unfold Shards.deleteFrom
    simp only
    set r := feed W Env.fine (c i) ((.remove k () : Command K V), none)
    have hfeed : r = (⟨d, .inTx (TxState.new (W.deleteKv (W.openForWrite d) k).2)⟩,
        [.removed () (W.deleteKv (W.openForWrite d) k).1]) := by
      simp only [r, hd]
      rfl
    have hanswered : Shards.answered r.2 = (part.restrict i m k).isSome := by
      rw [hfeed, ← hfound]
      simp [Shards.answered]
    have hthis : ∃ d', Commits W r.1 d' ∧
        Rep d' (part.restrict i (eraseMap m k)) := by
      rw [hfeed, Partitioning.restrict_eraseMap]
      exact ⟨_, commits_new d _, hrep'⟩
    rw [hanswered]
    by_cases hsome : (part.restrict i m k).isSome = true
    · rw [if_pos hsome]
      refine ⟨⟨fun _ => ⟨i, List.mem_cons_self, hsome⟩, fun _ => rfl⟩, fun j => ?_⟩
      show ∃ d', Commits W (Function.update c i _ j) d' ∧ _
      by_cases hji : j = i
      · rw [hji, Function.update_self]
        exact hthis
      · rw [Function.update_of_ne hji]
        by_cases hj : j ∈ is
        · -- the shard `i` had the key, so this one has not
          obtain ⟨d', hd', hrepj⟩ := hask j (List.mem_cons_of_mem _ hj)
          have hnone : part.restrict j m k = none := by
            refine Option.eq_none_iff_forall_ne_some.mpr fun v hv => hji ?_
            obtain ⟨w, hw⟩ := Option.isSome_iff_exists.mp hsome
            obtain ⟨hmv, hbv⟩ := Partitioning.restrict_eq_some.mp hv
            obtain ⟨hmw, hbw⟩ := Partitioning.restrict_eq_some.mp hw
            rw [← hbv, ← hbw, Option.some.inj (hmv.symm.trans hmw)]
          rw [hd', Partitioning.restrict_eraseMap_of_none hnone]
          exact ⟨_, commits_new d' _, hW.opened hrepj⟩
        · exact hdone j (by simp [hji, hj])
    · rw [if_neg hsome]
      have hask' : ∀ j ∈ is, ∃ d, Function.update c i r.1 j =
          ⟨d, .inTx (TxState.new (W.openForWrite d))⟩ ∧ Rep d (part.restrict j m) := by
        intro j hj
        have hji : j ≠ i := fun hji => hi (hji ▸ hj)
        rw [Function.update_of_ne hji]
        exact hask j (List.mem_cons_of_mem _ hj)
      have hdone' : ∀ j ∉ is, ∃ d, Commits W (Function.update c i r.1 j) d ∧
          Rep d (part.restrict j (eraseMap m k)) := by
        intro j hj
        by_cases hji : j = i
        · rw [hji, Function.update_self]
          exact hthis
        · rw [Function.update_of_ne hji]
          exact hdone j (by simp [hji, hj])
      obtain ⟨hiff, hall⟩ := ih hnd hask' hdone'
      refine ⟨hiff.trans ?_, hall⟩
      rw [List.exists_mem_cons_iff, or_iff_right hsome]

/-- **One transaction.** -/
theorem Holds.transact (h : Holds Rep part c m) {op : RouterCall K V} (hfresh : op.Fresh m) :
    (c.transact W part op).1 = (mapCall m op).1 ∧
      Holds Rep part (c.transact W part op).2 (mapCall m op).2 := by
  have hinsert : (∀ k, op ≠ .deleteKv k) →
      Holds Rep part (((c.send W (toEach fun _ => some (.begin ()))).send W
        (part.routeInsert op)).send W (toEach fun _ => some (.flush ()))) (mapCall m op).2 := by
    intro hins
    refine holds_flush fun i => ?_
    obtain ⟨d, hd, hrep⟩ := h.begin (W := W) i
    obtain ⟨d', hcommits, hrep'⟩ := commits_insert hW hrep hfresh hins
    refine ⟨d', ?_, hrep'⟩
    show Commits W (feedAll W Env.fine (c.send W _ i) _).1 d'
    rw [hd]
    exact hcommits
  cases op with
  | writeInsertNow k v => exact ⟨rfl, hinsert (by simp)⟩
  | writeSortedInsertsOnFlush pairs => exact ⟨rfl, hinsert (by simp)⟩
  | mergeUnsortedInserts pairs lastShards => exact ⟨rfl, hinsert (by simp)⟩
  | deleteKv k =>
    have hdone : ∀ i ∉ part.candidates k, ∃ d,
      Commits W (c.send W (toEach fun _ => some (.begin ())) i) d ∧
        Rep d (part.restrict i (eraseMap m k)) := by
      intro i hi
      obtain ⟨d, hd, hrep⟩ := h.begin (W := W) i
      have hnone : part.restrict i m k = none := by
        refine Option.eq_none_iff_forall_ne_some.mpr fun v hv => hi ?_
        rw [← (Partitioning.restrict_eq_some.mp hv).2]
        exact Partitioning.bucketOne_mem_candidates k v
      rw [hd, Partitioning.restrict_eraseMap_of_none hnone]
      exact ⟨_, commits_new d _, hW.opened hrep⟩
    obtain ⟨hiff, hall⟩ := deleteFrom_spec hW (Partitioning.nodup_candidates k)
      (fun i _ => h.begin i) hdone
    refine ⟨?_, holds_flush hall⟩
    show some _ = some _
    congr 1
    rw [Bool.eq_iff_iff, hiff]
    constructor
    · rintro ⟨i, -, hsome⟩
      obtain ⟨v, hv⟩ := Option.isSome_iff_exists.mp hsome
      rw [(Partitioning.restrict_eq_some.mp hv).1]
      rfl
    · intro hsome
      obtain ⟨v, hv⟩ := Option.isSome_iff_exists.mp hsome
      refine ⟨part.bucketOne k v, Partitioning.bucketOne_mem_candidates k v, ?_⟩
      rw [Partitioning.restrict_eq_some.mpr ⟨hv, rfl⟩]
      rfl

variable (part) in
/-- **A run.**  The answers are those of the map, and the shards hold the map. -/
theorem holds_run {d₀ : D} (h₀ : Rep d₀ fun _ => none) {ops : List (RouterCall K V)}
    (hfresh : FreshRun ops) :
    (run (Shards.runStep W part) ([], Shards.resting n d₀) ops).1 =
      (run mapStep ([], fun _ => none) ops).1 ∧
      Holds Rep part (run (Shards.runStep W part) ([], Shards.resting n d₀) ops).2
        (run mapStep ([], fun _ => none) ops).2 := by
  have key : ∀ (ops : List (RouterCall K V)) (s : List Bool × Shards n D T K V)
      (s' : List Bool × (K → Option V)),
      s.1 = s'.1 → Holds Rep part s.2 s'.2 → EachStep mapStep (fun s op => op.Fresh s.2) s' ops →
      (run (Shards.runStep W part) s ops).1 = (run mapStep s' ops).1 ∧
        Holds Rep part (run (Shards.runStep W part) s ops).2 (run mapStep s' ops).2 := by
    intro ops
    induction ops with
    | nil => exact fun s s' hs hc _ => ⟨hs, hc⟩
    | cons op ops ih =>
      intro s s' hs hc hfresh
      obtain ⟨hop, hfresh⟩ := eachStep_cons.mp hfresh
      obtain ⟨hanswer, hholds⟩ := hc.transact hW hop
      refine ih _ _ ?_ hholds hfresh
      show s.1 ++ _ = s'.1 ++ _
      rw [hs, hanswer]
  refine key ops _ _ rfl (fun i => ⟨d₀, rfl, ?_⟩) hfresh
  have hempty : part.restrict i (fun _ => (none : Option V)) = fun _ => none := by
    funext k
    exact Partitioning.restrict_eq_none rfl
  rw [hempty]
  exact h₀

end Column

/-! ### Plain and index columns -/

section Kinds

variable {K V : Type} [LinearOrder K]

/-- The rows are the map. -/
def PlainHolds (d : Table K V) (m : K → Option V) : Prop := d.get = m

lemma plain_represents : (plainTable K V).Represents PlainHolds where
  opened h := h
  insertKv {d m k v} h _ := by
    show ((d.insert k v : Table K V)).get = putAll m [(k, v)]
    rw [← h]
    exact Table.get_insertAll d [(k, v)]
  insertMany {d m pairs} h _ _ := by
    show (d.insertAll pairs).get = putAll m pairs
    rw [← h]
    exact Table.get_insertAll d pairs
  deleteKv {d m} k h := by
    have hget : d.get = m := h
    refine ⟨congrArg (fun m => (m k).isSome) hget, ?_⟩
    show (d.remove k).get = eraseMap m k
    rw [← hget]
    funext k'
    exact Table.get_remove d k k'

/-- `ShardedReadOnlyPlainTable::get_value`. -/
def plainGetValue {n : ℕ} [NeZero n] (kp : K → Fin n) (c : Shards n (Table K V) (Table K V) K V)
    (k : K) : Option V :=
  if n = 1 then (c 0).db.get k else (c (kp k)).db.get k

variable [LinearOrder V] [CacheKey V]

/-- The forward rows are the map, the reverse rows its inverse. -/
def IndexHolds (d : IndexTables K V) (m : K → Option V) : Prop := d.Inverse ∧ d.indexByPk.get = m

lemma index_represents (f : IndexFactory) : (indexTable f K V).Represents IndexHolds := by
  have hmany : ∀ {d : IndexTables K V} {m : K → Option V} {pairs : List (K × V)}, IndexHolds d m →
      (pairs.map Prod.fst).Nodup → (∀ kv ∈ pairs, m kv.1 = none) →
      IndexHolds ((f.openForWrite d).insertManySortedByKey pairs).toIndexTables (putAll m pairs) := by
    intro d m pairs h hnd habs
    obtain ⟨hinv, hget⟩ := h
    refine ⟨IndexTable.inverse_insertMany hinv hnd fun kv hkv => ?_, ?_⟩
    · show d.indexByPk.get kv.1 = none
      rw [hget]
      exact habs kv hkv
    · rw [← hget]
      exact Table.get_insertAll d.indexByPk pairs
  refine ⟨fun h => h, fun {d m k v} h hk => ?_, hmany, fun {d m} k h => ?_⟩
  · show IndexHolds ((f.openForWrite d).insertKv k v).toIndexTables _
    rw [IndexTable.insertKv_eq_insertMany]
    exact hmany h (by simp) (by simpa using hk)
  · obtain ⟨hinv, hget⟩ := h
    have hinv' : (f.openForWrite d).Inverse := hinv
    show ((f.openForWrite d).deleteKv k).1 = _ ∧
      IndexHolds ((f.openForWrite d).deleteKv k).2.toIndexTables _
    refine (and_congr_right fun _ => and_iff_right (IndexTable.inverse_deleteKv hinv' k)).mpr ?_
    rw [← hget]
    rcases IndexTable.deleteKv_cases hinv' k with ⟨hnone, hdel⟩ | ⟨v, hsome, hdel⟩
    · replace hnone : d.indexByPk.get k = none := hnone
      rw [hdel, hnone]
      refine ⟨rfl, ?_⟩
      funext k'
      unfold eraseMap
      split
      · next heq => exact heq ▸ hnone
      · rfl
    · replace hsome : d.indexByPk.get k = some v := hsome
      rw [hdel, hsome]
      refine ⟨rfl, ?_⟩
      funext k'
      exact Table.get_remove d.indexByPk k k'

/-- `ShardedReadOnlyIndexTable::get_value`: the first shard that has the key decides. -/
def indexGetValue {n : ℕ} (c : Shards n (IndexTables K V) (IndexTable K V) K V) (k : K) : Option V :=
  (List.finRange n).findSome? fun i => (c i).db.getValue k

/-- `ShardedReadOnlyIndexTable::index_keys`. -/
def indexKeysOf {n : ℕ} [NeZero n] (vp : V → Fin n)
    (c : Shards n (IndexTables K V) (IndexTable K V) K V) (v : V) : Finset K :=
  if n = 1 then (c 0).db.indexKeys v else (c (vp v)).db.indexKeys v

/-! ### Reads -/

section Reads

variable {n : ℕ} [NeZero n] {m : K → Option V}

omit [LinearOrder V] [CacheKey V] in
lemma plainGetValue_eq {kp : K → Fin n} {c : Shards n (Table K V) (Table K V) K V}
    (h : Holds PlainHolds (.byKey kp) c m) (k : K) : plainGetValue kp c k = m k := by
  have hshard : (c (kp k)).db.get k = m k := by
    obtain ⟨d, hd, hrep⟩ := h (kp k)
    rw [hd, show d.get = _ from hrep]
    cases hm : m k with
    | none => exact Partitioning.restrict_eq_none hm
    | some v => exact Partitioning.restrict_eq_some.mpr ⟨hm, rfl⟩
  unfold plainGetValue
  split
  · next hn => rw [eq_of_one hn 0 (kp k), hshard]
  · exact hshard

omit [NeZero n] in
lemma indexGetValue_eq {vp : V → Fin n} {c : Shards n (IndexTables K V) (IndexTable K V) K V}
    (h : Holds IndexHolds (.byValue vp) c m) (k : K) : indexGetValue c k = m k := by
  have hread : ∀ i, (c i).db.getValue k = Partitioning.restrict (.byValue vp) i m k := by
    intro i
    obtain ⟨d, hd, -, hrep⟩ := h i
    rw [hd]
    exact congrFun hrep k
  unfold indexGetValue
  simp only [hread]
  cases hfind : (List.finRange n).findSome? fun i => Partitioning.restrict (.byValue vp) i m k with
  | some v =>
    obtain ⟨i, -, hv⟩ := List.exists_of_findSome?_eq_some hfind
    exact (Partitioning.restrict_eq_some.mp hv).1.symm
  | none =>
    rw [List.findSome?_eq_none_iff] at hfind
    cases hm : m k with
    | none => rfl
    | some v =>
      have hsome : Partitioning.restrict (.byValue vp) (vp v) m k = some v :=
        Partitioning.restrict_eq_some.mpr ⟨hm, rfl⟩
      rw [hfind (vp v) (List.mem_finRange _)] at hsome
      cases hsome

lemma mem_indexKeysOf {vp : V → Fin n} {c : Shards n (IndexTables K V) (IndexTable K V) K V}
    (h : Holds IndexHolds (.byValue vp) c m) (v : V) (k : K) :
    k ∈ indexKeysOf vp c v ↔ m k = some v := by
  have hshard : k ∈ (c (vp v)).db.indexKeys v ↔ m k = some v := by
    obtain ⟨d, hd, hinv, hrep⟩ := h (vp v)
    rw [hd]
    show k ∈ d.pkByIndex.get v ↔ _
    rw [hinv k v, hrep, Partitioning.restrict_eq_some]
    exact and_iff_left rfl
  unfold indexKeysOf
  split
  · next hn => rw [eq_of_one hn 0 (vp v), hshard]
  · exact hshard

/-- The key is in one of the two tables. -/
def IndexTables.Stores (d : IndexTables K V) (k : K) : Prop := (d.indexByPk.get k).isSome ∨
    ∃ v, k ∈ d.pkByIndex.get v

omit [LinearOrder V] [CacheKey V] [NeZero n] in
lemma shard_of_plain {kp : K → Fin n} {c : Shards n (Table K V) (Table K V) K V}
    (h : Holds PlainHolds (.byKey kp) c m) {k : K} {i : Fin n} (hi : ((c i).db.get k).isSome) :
    i = kp k := by
  obtain ⟨d, hd, hrep⟩ := h i
  rw [hd, show d.get = _ from hrep] at hi
  obtain ⟨v, hv⟩ := Option.isSome_iff_exists.mp hi
  exact (Partitioning.restrict_eq_some.mp hv).2.symm

omit [NeZero n] in
lemma shard_of_index {vp : V → Fin n} {c : Shards n (IndexTables K V) (IndexTable K V) K V}
    (h : Holds IndexHolds (.byValue vp) c m) {k : K} {i : Fin n} (hi : (c i).db.Stores k) :
    (m k).map vp = some i := by
  obtain ⟨d, hd, hinv, hrep⟩ := h i
  have hstored : (d.indexByPk.get k).isSome := by
    rw [hd] at hi
    rcases hi with hi | ⟨v, hv⟩
    · exact hi
    · rw [(hinv k v).mp hv]
      rfl
  rw [hrep] at hstored
  obtain ⟨v, hv⟩ := Option.isSome_iff_exists.mp hstored
  obtain ⟨hm, hvp⟩ := Partitioning.restrict_eq_some.mp hv
  rw [hm, Option.map_some]
  exact congrArg some hvp

end Reads

/-- **Sharding is transparent.**  A column of `n` shards answers all deletes and reads as the column
of a single shard, after any run of inserts of absent keys and of deletes; and no key is ever in two
shards.  Both answer as a map from keys to values. -/
theorem sharding_transparent (n : ℕ) [NeZero n] (ops : List (RouterCall K V)) (hfresh : FreshRun ops) :
    let m := run mapStep ([], fun _ => none) ops
    (∀ (kp : K → Fin n) (kp₁ : K → Fin 1),
      let s := run (Shards.runStep (plainTable K V) (.byKey kp)) ([], Shards.resting n Table.empty) ops
      let s₁ := run (Shards.runStep (plainTable K V) (.byKey kp₁))
        ([], Shards.resting 1 Table.empty) ops
      s.1 = s₁.1 ∧ (∀ k, plainGetValue kp s.2 k = plainGetValue kp₁ s₁.2 k) ∧
        (∀ k i j, ((s.2 i).db.get k).isSome → ((s.2 j).db.get k).isSome → i = j) ∧
        s.1 = m.1 ∧ ∀ k, plainGetValue kp s.2 k = m.2 k) ∧
    ∀ (f : IndexFactory) (vp : V → Fin n) (vp₁ : V → Fin 1),
      let s := run (Shards.runStep (indexTable f K V) (.byValue vp))
        ([], Shards.resting n IndexTables.empty) ops
      let s₁ := run (Shards.runStep (indexTable f K V) (.byValue vp₁))
        ([], Shards.resting 1 IndexTables.empty) ops
      s.1 = s₁.1 ∧ (∀ k, indexGetValue s.2 k = indexGetValue s₁.2 k) ∧
        (∀ v, indexKeysOf vp s.2 v = indexKeysOf vp₁ s₁.2 v) ∧
        (∀ k i j, (s.2 i).db.Stores k → (s.2 j).db.Stores k → i = j) ∧
        s.1 = m.1 ∧ (∀ k, indexGetValue s.2 k = m.2 k) ∧ ∀ v k, k ∈ indexKeysOf vp s.2 v ↔
          m.2 k = some v := by
  intro m
  constructor
  · intro kp kp₁ s s₁
    have hempty : PlainHolds (Table.empty : Table K V) fun _ => none := by
      funext k
      exact Table.get_empty k
    obtain ⟨hanswers, hholds⟩ := holds_run (.byKey kp) plain_represents hempty hfresh
    obtain ⟨hanswers₁, hholds₁⟩ := holds_run (.byKey kp₁) plain_represents hempty hfresh
    refine ⟨hanswers.trans hanswers₁.symm, fun k => ?_, fun k i j hi hj =>
      ?_, hanswers, plainGetValue_eq hholds⟩
    · rw [plainGetValue_eq hholds, plainGetValue_eq hholds₁]
    · rw [shard_of_plain hholds hi, shard_of_plain hholds hj]
  · intro f vp vp₁ s s₁
    have hempty : IndexHolds (IndexTables.empty : IndexTables K V) fun _ => none := by
      refine ⟨IndexTable.inverse_empty, ?_⟩
      funext k
      exact Table.get_empty k
    obtain ⟨hanswers, hholds⟩ := holds_run (.byValue vp) (index_represents f) hempty hfresh
    obtain ⟨hanswers₁, hholds₁⟩ := holds_run (.byValue vp₁) (index_represents f) hempty hfresh
    refine ⟨hanswers.trans hanswers₁.symm, fun k => ?_, fun v => ?_, fun k i j hi hj => ?_, hanswers,
      indexGetValue_eq hholds, mem_indexKeysOf hholds⟩
    · rw [indexGetValue_eq hholds, indexGetValue_eq hholds₁]
    · ext k
      rw [mem_indexKeysOf hholds, mem_indexKeysOf hholds₁]
    · exact Option.some.inj ((shard_of_index hholds hi).symm.trans (shard_of_index hholds hj))

end Kinds

/-- Three shards, keys of one byte and values that are their own hash. -/
theorem sharding_transparent_three :
    let ops : List (RouterCall ℕ ℕ) := [.mergeUnsortedInserts [(5, 70), (2, 71)] none,
      .writeInsertNow 3 70, .deleteKv 5,
      .writeSortedInsertsOnFlush [(5, 80)], .deleteKv 9]
    let byKey := Partitioning.ofKeyBytes 3 fun k => [UInt8.ofNat k]
    let s := run (Shards.runStep (plainTable ℕ ℕ) byKey) ([], Shards.resting 3 Table.empty) ops
    let s₁ := run (Shards.runStep (plainTable ℕ ℕ) (.byKey fun _ => 0))
      ([], Shards.resting 1 Table.empty) ops
    let byValue := Partitioning.ofValueHash 3 id
    let t := run (Shards.runStep (indexTable (IndexFactory.new 2) ℕ ℕ) byValue)
      ([], Shards.resting 3 IndexTables.empty) ops
    let t₁ := run (Shards.runStep (indexTable (IndexFactory.new 2) ℕ ℕ) (.byValue fun _ => 0))
      ([], Shards.resting 1 IndexTables.empty) ops
    s.1 = s₁.1 ∧ t.1 = t₁.1 := by
  intro ops byKey s s₁ byValue t t₁
  have hfresh : FreshRun ops := by
    simp only [FreshRun, ops, eachStep_cons, eachStep_nil, and_true, RouterCall.Fresh,
      RouterCall.pairs]
    decide
  obtain ⟨hplain, hindex⟩ := sharding_transparent 3 ops hfresh
  exact ⟨(hplain _ fun _ => 0).1, (hindex (IndexFactory.new 2) _ fun _ => 0).1⟩

end Redbit.Storage
