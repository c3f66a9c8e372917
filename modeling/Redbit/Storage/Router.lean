import Redbit.Storage.TxFsm
import Redbit.Lib.Net

/-!
# The router of a column (`router.rs`)

The router of a column splits a call over the shards: it returns the commands it sends, each with
its shard, in the order in which it sends them.  How values and keys are partitioned is a parameter;
with one shard the partitioner is not asked, and there is nothing to ask.
-/

namespace Redbit.Storage

open Redbit.Lib Redbit.Lib.Net

variable {K V A S : Type} {n : ℕ}

/-- `values.into_iter().enumerate()`. -/
def enumerate (values : List V) : List (ℕ × V) := values.zipIdx.map fun e => (e.2, e.1)

/-- The positions of the shard `i`. -/
def bucketValues (part : V → Fin n) (i : Fin n) (values : List V) : List (ℕ × V) :=
  (enumerate values).filter fun e => part e.2 = i

/-- The pairs of the shard `i` of a column partitioned by key. -/
def bucketPairs (part : K → Fin n) (i : Fin n) (pairs : List (K × V)) : List (K × V) :=
  pairs.filter fun kv => part kv.1 = i

/-- The loop over the senders: what each shard is sent, if anything. -/
def toEach {M : Type} (f : Fin n → Option M) : List (Fin n × M) :=
  (List.finRange n).filterMap fun i => (f i).map fun m => (i, m)

/-- `ShardedRouter::query_and_write`, for a column partitioned by value. -/
def routeQuery (part : V → Fin n) (values : List V) (isLast : Bool) (sink : S) :
    List (Fin n × WriterCommand K V A S) :=
  let lastShards := if isLast then some n else none
  if n = 1 then toEach fun _ => some (.queryAndWrite lastShards (enumerate values) sink)
  else if values = [] ∧ isLast = false then []
  else toEach fun i =>
    if bucketValues part i values = [] ∧ isLast = false then none
    else some (.queryAndWrite lastShards (bucketValues part i values) sink)

/-- `ShardedRouter::ready_for_flush`. -/
def routeReady (shards : ℕ) : List (Fin n × WriterCommand K V A S) := toEach fun _ =>
    some (.readyForFlush shards)

/-- `ShardedRouter::merge_unsorted_inserts`, for a column partitioned by key. -/
def routeMerge (part : K → Fin n) (pairs : List (K × V)) (lastShards : Option ℕ) :
    List (Fin n × WriterCommand K V A S) :=
  (if pairs = [] then []
    else if n = 1 then toEach fun _ => some (.mergeUnsortedInserts pairs)
    else toEach fun i =>
      if bucketPairs part i pairs = [] then none else some (.mergeUnsortedInserts
        (bucketPairs part i pairs)))
  ++ match lastShards with
    | some fromShards => routeReady fromShards
    | none => []

/-- `ShardedRouter::write_insert_now`, for a column partitioned by value. -/
def routeInsertNow (part : V → Fin n) (k : K) (v : V) : List (Fin n × WriterCommand K V A S) :=
  [(part v, .writeInsertNow k v)]

/-! ### What reaches a shard -/

@[simp] lemma sentBy_toEach {M : Type} (f : Fin n → Option M) (i : Fin n) :
    sentBy i (toEach f) = (f i).toList := by
  have key : ∀ ks : List (Fin n), ks.Nodup →
      sentBy i (ks.filterMap fun k => (f k).map fun m => (k, m)) =
        if i ∈ ks then (f i).toList else [] := by
    intro ks hks
    induction ks with
    | nil => rfl
    | cons k ks ih =>
      obtain ⟨hk, hks⟩ := List.nodup_cons.mp hks
      rw [List.filterMap_cons]
      by_cases hki : k = i
      · subst hki
        have hnil := ih hks
        rw [if_neg hk] at hnil
        cases f k <;> simp [hnil]
      · have hmem : i ∈ k :: ks ↔ i ∈ ks := by simp [Ne.symm hki]
        rw [if_congr hmem rfl rfl, ← ih hks]
        cases f k with
        | none => rfl
        | some m => exact sentBy_cons_of_ne hki m _
  rw [toEach, key _ (List.nodup_finRange n), if_pos (List.mem_finRange i)]

lemma eq_of_one (h : n = 1) (i j : Fin n) : i = j := by
  subst h
  exact Subsingleton.elim i j

/-- A shard gets its positions in one command; nothing is sent for no positions unless the call is
the last one (or there is only one shard). -/
lemma sentBy_routeQuery (part : V → Fin n) (values : List V) (isLast : Bool) (sink : S) (i : Fin n) :
    sentBy i (routeQuery part values isLast sink : List (Fin n × WriterCommand K V A S)) =
      if bucketValues part i values = [] ∧ isLast = false ∧ n ≠ 1 then []
      else [.queryAndWrite (if isLast then some n else none) (bucketValues part i values) sink] := by
  unfold routeQuery
  by_cases hn : n = 1
  · have hall : bucketValues part i values = enumerate values := by
      unfold bucketValues
      rw [List.filter_eq_self]
      intro e _
      simp [eq_of_one hn (part e.2) i]
    have hsent : ¬ (bucketValues part i values = [] ∧ isLast = false ∧ n ≠ 1) := fun h => h.2.2 hn
    rw [if_pos hn, if_neg hsent, hall, sentBy_toEach]
    rfl
  · rw [if_neg hn]
    by_cases hempty : values = [] ∧ isLast = false
    · rw [if_pos hempty, if_pos ⟨by simp [bucketValues, enumerate, hempty.1], hempty.2, hn⟩]
      rfl
    · rw [if_neg hempty, sentBy_toEach]
      by_cases hb : bucketValues part i values = [] ∧ isLast = false
      · rw [if_pos hb, if_pos ⟨hb.1, hb.2, hn⟩]
        rfl
      · have hsent : ¬ (bucketValues part i values = [] ∧ isLast = false ∧ n ≠ 1) :=
          fun h => hb ⟨h.1, h.2.1⟩
        rw [if_neg hb, if_neg hsent]
        rfl

/-- A shard gets its pairs, if there are any, and then the signal if there is one. -/
lemma sentBy_routeMerge (part : K → Fin n) (pairs : List (K × V)) (lastShards : Option ℕ) (i : Fin n) :
    sentBy i (routeMerge part pairs lastShards : List (Fin n × WriterCommand K V A S)) =
      (if bucketPairs part i pairs = [] then []
        else [.mergeUnsortedInserts (bucketPairs part i pairs)]) ++
        (lastShards.map .readyForFlush).toList := by
  unfold routeMerge
  rw [sentBy_append]
  congr 1
  · by_cases hempty : pairs = []
    · rw [if_pos hempty, if_pos (by simp [bucketPairs, hempty])]
      rfl
    · rw [if_neg hempty]
      by_cases hn : n = 1
      · have hall : bucketPairs part i pairs = pairs := by
          unfold bucketPairs
          rw [List.filter_eq_self]
          intro e _
          simp [eq_of_one hn (part e.1) i]
        rw [if_pos hn, hall, if_neg hempty]
        simp
      · rw [if_neg hn, sentBy_toEach]
        split <;> rfl
  · cases lastShards with
    | none => rfl
    | some shards => simp [routeReady]

end Redbit.Storage
