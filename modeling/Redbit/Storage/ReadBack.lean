import Redbit.Storage.Overwrite

/-!
# What a column reads back (`column/store.rs`, `router.rs`, `table_index_read.rs`,
`table_dict_read.rs`)

A store statement gives a column the rows of a transaction, each at once (`insert_now`) or all of
them at the flush (`insert_on_flush`), over whatever the column holds.  The rows are read back
exactly when

* no shard before the one of the value still has the key, with another value;
* in a dictionary, a value that is known has its row under its birth id, and no value born in the same
  transaction takes this birth id over.

`Column.readsBack_iff` is this statement for the shards of any kind of table, `indexShard_readsBack`
and `dictShard_readsBack` are its instances.
-/

set_option linter.unusedSectionVars false

namespace Redbit.Storage

open Redbit.Lib

variable {T K V : Type} [LinearOrder K] [DecidableEq V]

/-! ### The rows of a transaction -/

/-- The writes of the store statements for the rows of a column: `insert_now` writes each row by
itself, `insert_on_flush` keeps them for one write at the flush. -/
def writesOf (now : Bool) (rows : List (K × V)) : List (Write K V) :=
  if now then rows.map fun kv => .insertKv kv.1 kv.2 else [.insertManySortedByKey rows]

/-- A transaction that writes the rows. -/
def Column.insertRows (S : ShardTable T K V) {n : ℕ} [NeZero n] (hash : V → ℕ) (now : Bool)
    (c : Column n T) (rows : List (K × V)) : Column n T :=
  (writesOf now rows).foldl (fun c w => c.write S hash w) fun i => S.reopen (c i)

/-- What such a transaction does in one shard, which gets the rows of its bucket. -/
def ShardTable.insertRows (S : ShardTable T K V) (now : Bool) (t : T) (rows : List (K × V)) : T :=
  if now then rows.foldl (fun t kv => S.insertKv t kv.1 kv.2) (S.reopen t)
  else if rows = [] then S.reopen t else S.insertManySortedByKey (S.reopen t) rows

section Split

variable (S : ShardTable T K V) {n : ℕ} [NeZero n] (hash : V → ℕ)

lemma foldl_insertKv_apply (rows : List (K × V)) (c : Column n T) (i : Fin n) :
    (rows.foldl (fun c kv => c.write S hash (.insertKv kv.1 kv.2)) c) i =
      (bucket hash i rows).foldl (fun t kv => S.insertKv t kv.1 kv.2) (c i) := by
  induction rows generalizing c with
  | nil => rfl
  | cons kv rows ih =>
    rw [List.foldl_cons, ih]
    unfold bucket Column.write route
    by_cases hi : shardOf hash n kv.2 = i
    · rw [List.filter_cons_of_pos (by simpa using hi)]
      simp only [hi, if_true]
      rfl
    · rw [List.filter_cons_of_neg (by simpa using hi)]
      simp only [hi, if_false]

/-- The shards split the rows of a transaction. -/
lemma Column.insertRows_apply (now : Bool) (c : Column n T) (rows : List (K × V)) (i : Fin n) :
    c.insertRows S hash now rows i = S.insertRows now (c i) (bucket hash i rows) := by
  unfold Column.insertRows writesOf ShardTable.insertRows
  cases now with
  | true =>
    rw [if_pos rfl, if_pos rfl, List.foldl_map]
    exact foldl_insertKv_apply S hash rows _ i
  | false =>
    rw [if_neg (by simp), if_neg (by simp), List.foldl_cons, List.foldl_nil]
    unfold Column.write route
    by_cases hb : bucket hash i rows = []
    · simp [hb]
    · simp [hb, ShardTable.write]

end Split

/-! ### Reading back from the shards -/

/-- What is proved of the tables of one shard, for the reads of a column: `Holds t v` says that `v`
is one of the values in `t`, and `Fine t rows` is the exact condition under which the shard reads
the rows back. -/
structure ShardTable.ReadsBack (S : ShardTable T K V) (now : Bool) (Holds : T → V → Prop)
    (Fine : T → List (K × V) → Prop) : Prop where
  find_holds : ∀ {t k v}, S.find t k = some (some v) → Holds t v
  holds_insertRows : ∀ {t rows v}, Holds (S.insertRows now t rows) v → Holds t v ∨
    v ∈ rows.map Prod.snd
  find_of_notMem : ∀ {t rows k}, k ∉ rows.map Prod.fst →
    (S.find (S.insertRows now t rows) k = none ↔ S.find t k = none)
  reads_iff : ∀ {t rows}, (rows.map Prod.fst).Nodup →
    ((∀ kv ∈ rows, S.find (S.insertRows now t rows) kv.1 = some (some kv.2)) ↔ Fine t rows)

section Column

variable {S : ShardTable T K V} {now : Bool} {Holds : T → V → Prop} {Fine : T → List (K × V) → Prop}
variable {n : ℕ} [NeZero n] {hash : V → ℕ} {c : Column n T} {rows : List (K × V)}

/-- Every value is in the shard it hashes to. -/
def Column.Placed (Holds : T → V → Prop) (hash : V → ℕ) (c : Column n T) : Prop :=
  ∀ i v, Holds (c i) v → shardOf hash n v = i

/-- The rows are not hidden by a shard before their own, and each shard reads its rows back. -/
def Column.KeepsRows (S : ShardTable T K V) (Fine : T → List (K × V) → Prop) (hash : V → ℕ)
    (c : Column n T) (rows : List (K × V)) : Prop :=
  (∀ kv ∈ rows, ∀ j < shardOf hash n kv.2, S.find (c j) kv.1 = none) ∧
    ∀ i, Fine (c i) (bucket hash i rows)

lemma findSome?_finRange {α : Type} {f : Fin n → Option α} {a : α} :
    (List.finRange n).findSome? f = some a ↔ ∃ i, f i = some a ∧ ∀ j < i, f j = none := by
  rw [List.findSome?_eq_some_iff]
  constructor
  · rintro ⟨l₁, i, l₂, hl, hi, hnone⟩
    refine ⟨i, hi, fun j hj => hnone j ?_⟩
    have hsorted := List.pairwise_lt_finRange n
    have hmem := List.mem_finRange j
    rw [hl] at hsorted hmem
    rcases List.mem_append.mp hmem with hm | hm
    · exact hm
    · obtain ⟨-, hp, -⟩ := List.pairwise_append.mp hsorted
      rcases List.mem_cons.mp hm with rfl | hm
      · exact absurd hj (lt_irrefl _)
      · exact absurd hj (lt_asymm ((List.pairwise_cons.mp hp).1 j hm))
  · rintro ⟨i, hi, hnone⟩
    obtain ⟨l₁, l₂, hl⟩ := List.append_of_mem (List.mem_finRange i)
    refine ⟨l₁, i, l₂, hl, hi, fun j hj => hnone j ?_⟩
    have hsorted := List.pairwise_lt_finRange n
    rw [hl] at hsorted
    exact (List.pairwise_append.mp hsorted).2.2 j hj i List.mem_cons_self

lemma Column.getValue_eq_some {k : K} {v : V} :
    c.getValue S k = some v ↔ ∃ i, S.find (c i) k = some (some v) ∧
      ∀ j < i, S.find (c j) k = none := by
  unfold Column.getValue
  rw [Option.join_eq_some_iff, findSome?_finRange]

/-- The key of a row is in no bucket but its own. -/
lemma notMem_bucket (hnd : (rows.map Prod.fst).Nodup) {kv : K × V} (hkv : kv ∈ rows) {j : Fin n}
    (hj : j ≠ shardOf hash n kv.2) : kv.1 ∉ (bucket hash j rows).map Prod.fst := by
  intro hm
  obtain ⟨kv', hkv', heq⟩ := List.mem_map.mp hm
  rw [mem_bucket] at hkv'
  have := List.inj_on_of_nodup_map hnd hkv hkv'.1 heq.symm
  subst this
  exact hj hkv'.2.symm

lemma nodup_bucket (hnd : (rows.map Prod.fst).Nodup) (i : Fin n) :
    ((bucket hash i rows).map Prod.fst).Nodup := hnd.sublist ((List.filter_sublist).map _)

lemma Column.Placed.insertRows (hS : S.ReadsBack now Holds Fine) (hc : c.Placed Holds hash)
    (rows : List (K × V)) : (c.insertRows S hash now rows).Placed Holds hash := by
  intro i v hv
  rw [Column.insertRows_apply] at hv
  rcases hS.holds_insertRows hv with hv | hv
  · exact hc i v hv
  · obtain ⟨kv, hkv, rfl⟩ := List.mem_map.mp hv
    exact ((mem_bucket hash).mp hkv).2

/-- A row that is read back is read from the shard of its value. -/
lemma Column.Placed.find_of_getValue (hS : S.ReadsBack now Holds Fine) (hc : c.Placed Holds hash)
    {k : K} {v : V} (hv : c.getValue S k = some v) :
    S.find (c (shardOf hash n v)) k = some (some v) ∧ ∀ j < shardOf hash n v, S.find (c j) k =
      none := by
  obtain ⟨i, hi, hnone⟩ := Column.getValue_eq_some.mp hv
  obtain rfl := hc i v (hS.find_holds hi)
  exact ⟨hi, hnone⟩

/-- **The rows of a transaction are read back** exactly when no shard before theirs hides them and
every shard reads its own rows back. -/
theorem Column.readsBack_iff (hS : S.ReadsBack now Holds Fine) (hc : c.Placed Holds hash)
    (hnd : (rows.map Prod.fst).Nodup) :
    (∀ kv ∈ rows, (c.insertRows S hash now rows).getValue S kv.1 = some kv.2) ↔
      c.KeepsRows S Fine hash rows := by
  have hhidden : ∀ kv ∈ rows, ∀ j < shardOf hash n kv.2,
      (S.find (c.insertRows S hash now rows j) kv.1 = none ↔ S.find (c j) kv.1 = none) := by
    intro kv hkv j hj
    rw [Column.insertRows_apply]
    exact hS.find_of_notMem (notMem_bucket hnd hkv hj.ne)
  constructor
  · intro h
    have hfind := fun kv hkv => (hc.insertRows hS rows).find_of_getValue hS (h kv hkv)
    refine ⟨fun kv hkv j hj => (hhidden kv hkv j hj).mp ((hfind kv hkv).2 j hj), fun i => ?_⟩
    refine (hS.reads_iff (nodup_bucket hnd i)).mp fun kv hkv => ?_
    obtain ⟨hmem, rfl⟩ := (mem_bucket hash).mp hkv
    rw [← Column.insertRows_apply]
    exact (hfind kv hmem).1
  · rintro ⟨hfirst, hfine⟩ kv hkv
    refine Column.getValue_eq_some.mpr ⟨shardOf hash n kv.2, ?_, fun j hj => ?_⟩
    · rw [Column.insertRows_apply]
      exact (hS.reads_iff (nodup_bucket hnd _)).mpr (hfine _) kv ((mem_bucket hash).mpr ⟨hkv, rfl⟩)
    · exact (hhidden kv hkv j hj).mpr (hfirst kv hkv j hj)

end Column

/-! ### Plain columns -/

section Plain

variable {K V : Type} [LinearOrder K] {n : ℕ}

/-- A transaction that writes the rows to a plain column, which is partitioned by key; a bulk insert
of its tables inserts row after row. -/
def plainInsertRows (part : K → Fin n) (c : Column n (Table K V)) (rows : List (K × V)) :
    Column n (Table K V) :=
  fun i => (c i).insertAll (rows.filter fun kv => part kv.1 = i)

/-- The sharded `get_value`: the shard of the key is asked. -/
def plainRead (part : K → Fin n) (c : Column n (Table K V)) (k : K) : Option V := (c (part k)).get k

/-- A plain column reads every row back. -/
theorem plainRead_insertRows {part : K → Fin n} {c : Column n (Table K V)} {rows : List (K × V)}
    (hnd : (rows.map Prod.fst).Nodup) :
    ∀ kv ∈ rows, plainRead part (plainInsertRows part c rows) kv.1 = some kv.2 := by
  intro kv hkv
  refine Table.get_insertAll_of_mem (hnd.sublist ((List.filter_sublist).map _)) ?_ _
  exact List.mem_filter.mpr ⟨hkv, by simp⟩

end Plain

/-! ### Index shards -/

section Index

variable {K V : Type} [LinearOrder K] [LinearOrder V] [CacheKey V]

/-- The value is in the forward table. -/
def IndexHasValue (t : IndexTable K V) (v : V) : Prop := ∃ k, t.indexByPk.get k = some v

lemma indexByPk_insertRows (f : IndexFactory) (now : Bool) (t : IndexTable K V) (rows : List (K × V)) :
    ((indexShard f).insertRows now t rows).indexByPk = t.indexByPk.insertAll rows := by
  unfold ShardTable.insertRows
  cases now with
  | true =>
    rw [if_pos rfl]
    have hfold : ∀ t : IndexTable K V,
        (rows.foldl (fun t kv => t.insertKv kv.1 kv.2) t).indexByPk = t.indexByPk.insertAll rows := by
      induction rows with
      | nil => intro t; rfl
      | cons kv rows ih =>
        intro t
        exact ih _
    exact hfold _
  | false =>
    rw [if_neg (by simp)]
    split
    · rename_i hnil
      rw [hnil]
      rfl
    · rfl

/-- An index shard reads every row back. -/
theorem indexShard_readsBack (f : IndexFactory) (now : Bool) :
    (indexShard f : ShardTable (IndexTable K V) K V).ReadsBack now IndexHasValue fun _ _ => True where
  find_holds {t k v} h := by
    obtain ⟨v', hv', heq⟩ := Option.map_eq_some_iff.mp h
    obtain rfl := Option.some.inj heq
    exact ⟨k, hv'⟩
  holds_insertRows {t rows v} := by
    rintro ⟨k, hk⟩
    rw [indexByPk_insertRows] at hk
    rcases Table.get_insertAll_eq_some _ hk with hm | hk
    · exact Or.inr (List.mem_map.mpr ⟨_, hm, rfl⟩)
    · exact Or.inl ⟨k, hk⟩
  find_of_notMem {t rows k} hk := by
    show (((indexShard f).insertRows now t rows).indexByPk.get k).map some = none ↔
      (t.indexByPk.get k).map some = none
    rw [indexByPk_insertRows, Table.get_insertAll, putAll_of_notMem hk]
  reads_iff {t rows} hnd := by
    refine iff_of_true (fun kv hkv => ?_) trivial
    show (((indexShard f).insertRows now t rows).indexByPk.get kv.1).map some = _
    rw [indexByPk_insertRows, Table.get_insertAll_of_mem hnd hkv]
    rfl

end Index

/-! ### Dictionary shards -/

namespace DictTable

variable {K V : Type} [LinearOrder K] [LinearOrder V] [CacheKey V]

/-- What the insert of one row does to the table, by itself or as a turn of a bulk insert, whose
writes of `value_to_dict_pk` and `dict_pk_to_keys` come later. -/
def turn (now : Bool) (t : DictTable K V) (kv : K × V) : DictTable K V :=
  if now then t.insertKv kv.1 kv.2 else (batchStep ⟨t, [], []⟩ kv).table

/-- The table after the turns of the rows `rows`. -/
def turns (now : Bool) (d : DictTable K V) (rows : List (K × V)) :
    DictTable K V := rows.foldl (turn now) d

/-- Neither the cache nor the table has a birth id for the value. -/
def Fresh (t : DictTable K V) (v : V) : Prop :=
  cachePeek t.cache (cacheKey v) = none ∧ t.valueToDictPk.get v = none

section Turns

variable {now : Bool} {d t : DictTable K V} {rows : List (K × V)}

lemma turns_concat (rows : List (K × V)) (kv : K × V) :
    turns now d (rows ++ [kv]) = turn now (turns now d rows) kv := by
  unfold turns
  rw [List.foldl_append]
  rfl

lemma table_batchStep (s : Batch K V) (kv : K × V) :
    (batchStep s kv).table = turn false s.table kv := by
  unfold turn batchStep
  rw [if_neg (by simp)]
  cases cacheGet s.table.cache (cacheKey kv.2) with
  | mk hit cache =>
    cases hit with
    | some b => rfl
    | none => cases s.table.valueToDictPk.get kv.2 <;> rfl

lemma table_foldl_batchStep (rows : List (K × V)) (s : Batch K V) :
    (rows.foldl batchStep s).table = turns false s.table rows := by
  induction rows generalizing s with
  | nil => rfl
  | cons kv rows ih =>
    rw [List.foldl_cons, ih, table_batchStep]
    rfl

/-- The two things a turn can do: link the key to a birth id that the cache or the table has for the
value, or make the key the birth id of a fresh value. -/
lemma turn_cases (now : Bool) (t : DictTable K V) (k : K) (v : V) :
    (∃ b, (cachePeek t.cache (cacheKey v) = some b ∨ t.valueToDictPk.get v = some b) ∧
      (turn now t (k, v)).dictPkByKey = t.dictPkByKey.insert k b ∧
      (turn now t (k, v)).valueByDictPk = t.valueByDictPk ∧
        (turn now t (k, v)).valueToDictPk = t.valueToDictPk ∧
      ∀ v' b', cachePeek (turn now t (k, v)).cache (cacheKey v') = some b' →
        (v' = v ∧ b' = b) ∨ cachePeek t.cache (cacheKey v') = some b') ∨
    (t.Fresh v ∧ (turn now t (k, v)).dictPkByKey = t.dictPkByKey.insert k k ∧
      (turn now t (k, v)).valueByDictPk = t.valueByDictPk.insert k v ∧
      (turn now t (k, v)).valueToDictPk =
        (if now then t.valueToDictPk.insert v k else t.valueToDictPk) ∧
      ∀ v' b', cachePeek (turn now t (k, v)).cache (cacheKey v') = some b' →
        (v' = v ∧ b' = k) ∨ cachePeek t.cache (cacheKey v') = some b') := by
  have hput : ∀ (b : K) v' b', cachePeek (cachePut t.cache (cacheKey v) b) (cacheKey v') = some b' →
      (v' = v ∧ b' = b) ∨ cachePeek t.cache (cacheKey v') = some b' := by
    intro b v' b' hp
    rcases cachePeek_cachePut hp with ⟨hv', rfl⟩ | ⟨-, hp⟩
    · exact Or.inl ⟨cacheKey_injective hv', rfl⟩
    · exact Or.inr hp
  unfold turn
  cases hc : cachePeek t.cache (cacheKey v) with
  | some b =>
    refine Or.inl ⟨b, Or.inl rfl, ?_⟩
    rw [insertKv_of_hit hc, batchStep_of_hit hc]
    cases now <;> exact ⟨rfl, rfl, rfl, fun v' b' hp => Or.inr (by simpa using hp)⟩
  | none =>
    cases hv : t.valueToDictPk.get v with
    | some b =>
      refine Or.inl ⟨b, Or.inr rfl, ?_⟩
      rw [insertKv_of_known hc hv, batchStep_of_known hc hv]
      cases now <;> exact ⟨rfl, rfl, rfl, hput b⟩
    | none =>
      refine Or.inr ⟨⟨hc, hv⟩, ?_⟩
      rw [insertKv_of_new hc hv, batchStep_of_new hc hv]
      cases now <;> exact ⟨rfl, rfl, rfl, hput k⟩

/-- `b` is what the rows of `v` are linked to after `rows`: the birth id the column `d` had for it,
or else the key of one of the rows, which holds `v` now. -/
def IdOf (d : DictTable K V) (rows : List (K × V)) (t : DictTable K V) (v : V) (b : K) : Prop :=
  d.valueToDictPk.get v = some b ∨
    d.valueToDictPk.get v = none ∧ b ∈ rows.map Prod.fst ∧ t.valueByDictPk.get b = some v

/-- The state `t` after the turns of `rows` on the column `d`. -/
structure Outcome (now : Bool) (d : DictTable K V) (rows : List (K × V))
    (t : DictTable K V) : Prop where
  ids : ∀ v b, cachePeek t.cache (cacheKey v) = some b ∨ t.valueToDictPk.get v = some b →
    IdOf d rows t v b
  known : ∀ v, t.valueToDictPk.get v = none → d.valueToDictPk.get v = none
  linked : ∀ kv ∈ rows, ∃ b, t.dictPkByKey.get kv.1 = some b ∧ IdOf d rows t kv.2 b
  born : ∀ p b v, p ++ [(b, v)] <+: rows → (turns now d p).Fresh v → t.valueByDictPk.get b = some v
  kept : ∀ b, (∀ p v, p ++ [(b, v)] <+: rows → ¬ (turns now d p).Fresh v) →
    t.valueByDictPk.get b = d.valueByDictPk.get b

lemma outcome_nil (hd : d.CacheAgrees) : Outcome now d [] d where
  ids v b h := by
    rcases h with h | h
    · exact Or.inl (hd v b h)
    · exact Or.inl h
  known _ h := h
  linked _ h := absurd h List.not_mem_nil
  born p b v hp := by simp at hp
  kept _ _ := rfl

lemma IdOf.concat {t' : DictTable K V} {v v' : V} {b k : K} (h : IdOf d rows t v b)
    (hval : ∀ b ∈ rows.map Prod.fst, t'.valueByDictPk.get b = t.valueByDictPk.get b) :
    IdOf d (rows ++ [(k, v')]) t' v b := by
  rcases h with h | ⟨hv, hb, hget⟩
  · exact Or.inl h
  · refine Or.inr ⟨hv, ?_, (hval b hb).trans hget⟩
    rw [List.map_append]
    exact List.mem_append_left _ hb

/-- The values of the birth ids of the rows before do not change in a turn. -/
lemma valueByDictPk_turn (now : Bool) (t : DictTable K V) {k : K}
    (hk : k ∉ rows.map Prod.fst) (v : V) :
    ∀ b ∈ rows.map Prod.fst, (turn now t (k, v)).valueByDictPk.get b = t.valueByDictPk.get b := by
  intro b hb
  rcases turn_cases now t k v with ⟨-, -, -, hval, -⟩ | ⟨-, -, hval, -⟩
  · rw [hval]
  · rw [hval, Table.get_insert_of_ne]
    rintro rfl
    exact hk hb

/-- The key of a turn gets a birth id that stands for its value, and so do the cache and the table. -/
lemma Outcome.ids_turn (h : Outcome now d rows t) {k : K} (hk : k ∉ rows.map Prod.fst) (v : V) :
    (∃ b, (turn now t (k, v)).dictPkByKey = t.dictPkByKey.insert k b ∧
      IdOf d (rows ++ [(k, v)]) (turn now t (k, v)) v b) ∧
    ∀ v' b', cachePeek (turn now t (k, v)).cache (cacheKey v') = some b' ∨
        (turn now t (k, v)).valueToDictPk.get v' = some b' →
      IdOf d (rows ++ [(k, v)]) (turn now t (k, v)) v' b' := by
  have hval := valueByDictPk_turn now t hk v
  have hold : ∀ v' b', cachePeek t.cache (cacheKey v') = some b' ∨ t.valueToDictPk.get v' = some b' →
      IdOf d (rows ++ [(k, v)]) (turn now t (k, v)) v' b' := fun v' b' h' =>
        (h.ids v' b' h').concat hval
  rcases turn_cases now t k v with ⟨b, hb, hby, -, hto, hc⟩ | ⟨hfresh, hby, hnew, hto, hc⟩
  · refine ⟨⟨b, hby, hold v b hb⟩, fun v' b' h' => ?_⟩
    rcases h' with h' | h'
    · rcases hc v' b' h' with ⟨rfl, rfl⟩ | h'
      · exact hold v' b' hb
      · exact hold v' b' (Or.inl h')
    · rw [hto] at h'
      exact hold v' b' (Or.inr h')
  · have hself : IdOf d (rows ++ [(k, v)]) (turn now t (k, v)) v k := by
      refine Or.inr ⟨h.known v hfresh.2, by simp, ?_⟩
      rw [hnew, Table.get_insert_self]
    refine ⟨⟨k, hby, hself⟩, fun v' b' h' => ?_⟩
    rcases h' with h' | h'
    · rcases hc v' b' h' with ⟨rfl, rfl⟩ | h'
      · exact hself
      · exact hold v' b' (Or.inl h')
    · rw [hto] at h'
      cases now with
      | false => exact hold v' b' (Or.inr h')
      | true =>
        rw [if_pos rfl, Table.get_insert] at h'
        split at h'
        · next heq =>
          obtain rfl := Option.some.inj h'
          rw [heq]
          exact hself
        · exact hold v' b' (Or.inr h')

/-- **One turn.** -/
lemma Outcome.turn (h : Outcome now d rows (turns now d rows)) {k : K}
    (hk : k ∉ rows.map Prod.fst) (v : V) :
    Outcome now d (rows ++ [(k, v)]) (turns now d (rows ++ [(k, v)])) := by
  rw [turns_concat]
  obtain ⟨⟨b, hby, hb⟩, hids⟩ := h.ids_turn hk v
  have hval := valueByDictPk_turn now (turns now d rows) hk v
  have hmem : ∀ p b v', p ++ [(b, v')] <+: rows → b ∈ rows.map Prod.fst := by
    rintro p b v' ⟨q, rfl⟩
    simp
  refine ⟨hids, fun v' hv' => h.known v' ?_, fun kv hkv => ?_, fun p b' v' hp hfresh =>
    ?_, fun b' hb' => ?_⟩
  · rcases turn_cases now (turns now d rows) k v with ⟨-, -, -, -, hto, -⟩ | ⟨hfresh, -, -, hto, -⟩
    · rwa [hto] at hv'
    · by_cases hvv : v' = v
      · rw [hvv]
        exact hfresh.2
      · rw [hto] at hv'
        cases now with
        | false => exact hv'
        | true => rwa [if_pos rfl, Table.get_insert_of_ne _ _ hvv] at hv'
  · rw [hby]
    rcases List.mem_append.mp hkv with hold | hlast
    · obtain ⟨b', hb', hid⟩ := h.linked kv hold
      refine ⟨b', ?_, hid.concat hval⟩
      rw [Table.get_insert_of_ne, hb']
      rintro rfl
      exact hk (List.mem_map.mpr ⟨_, hold, rfl⟩)
    · obtain rfl := List.mem_singleton.mp hlast
      exact ⟨b, Table.get_insert_self .., hb⟩
  · rcases List.prefix_concat_iff.mp hp with heq | hp
    · obtain ⟨rfl, hlast⟩ := List.append_inj' heq rfl
      obtain ⟨rfl, rfl⟩ := Prod.mk.inj (List.singleton_inj.mp hlast)
      rcases turn_cases now (turns now d p) b' v' with ⟨b, hb, -⟩ | ⟨-, -, hnew, -⟩
      · rw [hfresh.1, hfresh.2] at hb
        rcases hb with hb | hb <;> cases hb
      · rw [hnew, Table.get_insert_self]
    · rw [hval b' (hmem p b' v' hp)]
      exact h.born p b' v' hp hfresh
  · have hold := h.kept b' fun p v' hp => hb' p v' (hp.trans (List.prefix_append _ _))
    rcases turn_cases now (turns now d rows) k v with ⟨-, -, -, hsame, -⟩ | ⟨hfresh, -, hnew, -⟩
    · rw [hsame, hold]
    · rw [hnew, Table.get_insert_of_ne, hold]
      rintro rfl
      exact hb' rows v List.prefix_rfl hfresh

/-- **All turns.** -/
theorem outcome_turns (now : Bool) (hd : d.CacheAgrees) (hnd : (rows.map Prod.fst).Nodup) :
    Outcome now d rows (turns now d rows) := by
  induction rows using List.reverseRecOn with
  | nil => exact outcome_nil hd
  | append_singleton rows kv ih =>
    rw [List.map_append, List.nodup_append] at hnd
    exact (ih hnd.1).turn (fun hm => hnd.2.2 kv.1 hm kv.1 (by simp) rfl) kv.2

/-- After the rows `p`, a row of the value `v` is its birth: the column did not know it, and it did
not come before, unless a bulk insert has lost it from the cache since. -/
def Born (now : Bool) (d : DictTable K V) (p : List (K × V)) (v : V) : Prop :=
  d.valueToDictPk.get v = none ∧ (v ∈ p.map Prod.snd → now = false ∧ Lost d p v)

lemma cache_turn (now : Bool) (t : DictTable K V) (k : K) (v : V) :
    (turn now t (k, v)).cache = (t.insertKv k v).cache := by
  unfold turn
  cases now with
  | true => rfl
  | false =>
    cases hc : cachePeek t.cache (cacheKey v) with
    | some b =>
      rw [insertKv_of_hit hc, batchStep_of_hit hc]
      rfl
    | none =>
      cases hv : t.valueToDictPk.get v with
      | some b =>
        rw [insertKv_of_known hc hv, batchStep_of_known hc hv]
        rfl
      | none =>
        rw [insertKv_of_new hc hv, batchStep_of_new hc hv]
        rfl

/-- Every row is a use of its value in the cache. -/
lemma cache_turns (now : Bool) (d : DictTable K V) (p : List (K × V)) :
    cacheCap (turns now d p).cache = cacheCap d.cache ∧
      cacheKeys (turns now d p).cache = touchAll (cacheCap d.cache) (cacheKeys d.cache) (uses p) := by
  induction p using List.reverseRecOn with
  | nil => exact ⟨rfl, rfl⟩
  | append_singleton p kv ih =>
    obtain ⟨hcap, hkeys⟩ := cache_insertKv (turns now d p) kv.1 kv.2
    rw [turns_concat, cache_turn, hcap, hkeys, ih.1, ih.2, uses, uses, List.map_append,
      touchAll_append]
    exact ⟨rfl, rfl⟩

lemma valueToDictPk_turns_false (d : DictTable K V) (p : List (K × V)) :
    (turns false d p).valueToDictPk = d.valueToDictPk := by
  induction p using List.reverseRecOn with
  | nil => rfl
  | append_singleton p kv ih =>
    rw [turns_concat]
    rcases turn_cases false (turns false d p) kv.1 kv.2 with ⟨-, -, -, -, hto, -⟩ | ⟨-, -, -, hto, -⟩
    · rw [hto, ih]
    · rw [hto, if_neg (by simp), ih]

lemma cacheAgrees_turns_true (hd : d.CacheAgrees) (p : List (K × V)) :
    (turns true d p).CacheAgrees := by
  induction p using List.reverseRecOn with
  | nil => exact hd
  | append_singleton p kv ih =>
    rw [turns_concat]
    exact insertKv_cacheAgrees ih kv.1 kv.2

/-- Single inserts know the values of all rows before. -/
lemma valueToDictPk_turns_true (hd : d.CacheAgrees) (p : List (K × V)) (v : V) :
    (turns true d p).valueToDictPk.get v = none ↔ d.valueToDictPk.get v = none ∧
      v ∉ p.map Prod.snd := by
  induction p using List.reverseRecOn with
  | nil => simp [turns]
  | append_singleton p kv ih =>
    have hagrees := cacheAgrees_turns_true hd p
    rw [turns_concat, List.map_append, List.mem_append, not_or, ← and_assoc, ← ih]
    rcases turn_cases true (turns true d p) kv.1 kv.2 with ⟨b, hb, -, -, hto, -⟩ | ⟨hfresh, -,
      -, hto, -⟩
    · have hknown : (turns true d p).valueToDictPk.get kv.2 = some b := hb.elim (hagrees kv.2 b) id
      rw [hto]
      refine ⟨fun hv => ⟨hv, ?_⟩, And.left⟩
      rintro hm
      obtain rfl : v = kv.2 := by simpa using hm
      rw [hknown] at hv
      cases hv
    · rw [hto, if_pos rfl, Table.get_insert]
      by_cases hv : v = kv.2 <;> simp [hv]

/-- A value without a birth id is one to be born. -/
lemma fresh_turns_iff (hd : d.CacheAgrees) (p : List (K × V)) (v : V) :
    (turns now d p).Fresh v ↔ Born now d p v := by
  unfold Fresh Born
  cases now with
  | true =>
    have hpeek : (turns true d p).valueToDictPk.get v = none →
        cachePeek (turns true d p).cache (cacheKey v) = none := by
      intro hv
      by_contra hc
      obtain ⟨b, hb⟩ := Option.ne_none_iff_exists'.mp hc
      rw [cacheAgrees_turns_true hd p v b hb] at hv
      cases hv
    rw [and_iff_right_of_imp hpeek, valueToDictPk_turns_true hd]
    simp
  | false =>
    rw [valueToDictPk_turns_false, cachePeek_eq_none, (cache_turns false d p).2, and_comm]
    refine and_congr_right fun hv => ⟨fun hc hm => ⟨rfl, hv, hm, hc⟩, fun h hc => ?_⟩
    by_cases hm : v ∈ p.map Prod.snd
    · exact (h hm).2.2.2 hc
    · -- the cache holds what it held at first, which the column knows
      have huses : cacheKey v ∉ uses p := by
        intro hu
        obtain ⟨kv, hkv, heq⟩ := List.mem_map.mp hu
        exact hm (List.mem_map.mpr ⟨kv, hkv, cacheKey_injective heq⟩)
      have hfirst := mem_touchAll_of_notMem huses hc
      have hsome : cachePeek d.cache (cacheKey v) ≠ none := fun hn => cachePeek_eq_none.mp hn hfirst
      obtain ⟨b, hb⟩ := Option.ne_none_iff_exists'.mp hsome
      rw [hd v b hb] at hv
      cases hv

end Turns

/-! ### Reading the rows back -/

lemma valueByDictPk_turns {now : Bool} {d : DictTable K V} {rows : List (K × V)} {b : K} {v : V}
    (h : (turns now d rows).valueByDictPk.get b = some v) :
    d.valueByDictPk.get b = some v ∨ v ∈ rows.map Prod.snd := by
  induction rows using List.reverseRecOn with
  | nil => exact Or.inl h
  | append_singleton rows kv ih =>
    rw [turns_concat] at h
    rw [List.map_append, List.mem_append, ← or_assoc]
    rcases turn_cases now (turns now d rows) kv.1 kv.2 with ⟨-, -, -, hval, -⟩ | ⟨-, -, hval, -⟩
    · rw [hval] at h
      exact Or.inl (ih h)
    · rw [hval, Table.get_insert] at h
      split at h
      · obtain rfl := Option.some.inj h
        exact Or.inr (by simp)
      · exact Or.inl (ih h)

lemma byKey_turns_of_notMem {now : Bool} {d : DictTable K V} {rows : List (K × V)} {k : K}
    (hk : k ∉ rows.map Prod.fst) : (turns now d rows).dictPkByKey.get k = d.dictPkByKey.get k := by
  induction rows using List.reverseRecOn with
  | nil => rfl
  | append_singleton rows kv ih =>
    rw [List.map_append, List.mem_append, not_or] at hk
    have hne : k ≠ kv.1 := by simpa using hk.2
    rw [turns_concat]
    rcases turn_cases now (turns now d rows) kv.1 kv.2 with ⟨b, -, hby, -⟩ | ⟨-, hby, -⟩
    · rw [hby, Table.get_insert_of_ne _ _ hne, ih hk.1]
    · rw [hby, Table.get_insert_of_ne _ _ hne, ih hk.1]

/-- A known value of the rows has its row under its birth id, and no row is the birth of another
value there. -/
def Fine (now : Bool) (d : DictTable K V) (rows : List (K × V)) : Prop :=
  ∀ kv ∈ rows, ∀ b, d.valueToDictPk.get kv.2 = some b →
    d.valueByDictPk.get b = some kv.2 ∧ ∀ p v, p ++ [(b, v)] <+: rows → ¬ Born now d p v

/-- The turns of a transaction are read back exactly when they are fine. -/
theorem turns_reads_iff {now : Bool} {d : DictTable K V} {rows : List (K × V)} (hd : d.CacheAgrees)
    (hnd : (rows.map Prod.fst).Nodup) :
    (∀ kv ∈ rows, (turns now d rows).getValue kv.1 = some kv.2) ↔ Fine now d rows := by
  have hout := outcome_turns now hd hnd
  constructor
  · intro hread kv hkv b hb
    obtain ⟨b', hrow, hval⟩ := DictTables.getValue_eq_some.mp (hread kv hkv)
    obtain ⟨b'', hrow', hid⟩ := hout.linked kv hkv
    obtain rfl : b' = b'' := Option.some.inj (hrow.symm.trans hrow')
    obtain rfl : b = b' := by
      rcases hid with hid | ⟨hid, -⟩
      · exact Option.some.inj (hb.symm.trans hid)
      · rw [hb] at hid
        cases hid
    have hnone : ∀ p v, p ++ [(b, v)] <+: rows → ¬ (turns now d p).Fresh v := by
      intro p v hp hfresh
      have hborn := hout.born p b v hp hfresh
      rw [hval] at hborn
      rw [Option.some.inj hborn, ((fresh_turns_iff hd p v).mp hfresh).1] at hb
      cases hb
    refine ⟨(hout.kept b hnone).symm.trans hval, fun p v hp hborn => ?_⟩
    exact hnone p v hp ((fresh_turns_iff hd p v).mpr hborn)
  · intro hfine kv hkv
    obtain ⟨b, hrow, hid⟩ := hout.linked kv hkv
    refine DictTables.getValue_eq_some.mpr ⟨b, hrow, ?_⟩
    rcases hid with hb | ⟨-, -, hval⟩
    · obtain ⟨hval, hnone⟩ := hfine kv hkv b hb
      rw [hout.kept b fun p v hp hfresh => hnone p v hp ((fresh_turns_iff hd p v).mp hfresh), hval]
    · exact hval

end DictTable

section Dict

variable {K V : Type} [LinearOrder K] [LinearOrder V] [CacheKey V]

/-- The value is in the table of the values. -/
def DictHasValue (t : DictTable K V) (v : V) : Prop := ∃ b, t.valueByDictPk.get b = some v

/-- A transaction on a dictionary shard makes the turns of its rows; what a bulk insert defers is
not read. -/
lemma dictShard_insertRows (f : DictFactory) (now : Bool) (t : DictTable K V) (rows : List (K × V)) :
    ((dictShard f).insertRows now t rows).dictPkByKey =
      (DictTable.turns now (f.openForWrite t.toDictTables) rows).dictPkByKey ∧
    ((dictShard f).insertRows now t rows).valueByDictPk =
      (DictTable.turns now (f.openForWrite t.toDictTables) rows).valueByDictPk := by
  unfold ShardTable.insertRows
  cases now with
  | true =>
    rw [if_pos rfl]
    exact ⟨rfl, rfl⟩
  | false =>
    rw [if_neg (by simp)]
    split
    · rename_i hnil
      rw [hnil]
      exact ⟨rfl, rfl⟩
    · rw [← DictTable.table_foldl_batchStep rows ⟨f.openForWrite t.toDictTables, [], []⟩]
      exact ⟨rfl, rfl⟩

/-- A dictionary shard reads the rows back exactly when they are fine. -/
theorem dictShard_readsBack (f : DictFactory) (now : Bool) :
    (dictShard f : ShardTable (DictTable K V) K V).ReadsBack now DictHasValue
      fun t rows => DictTable.Fine now (f.openForWrite t.toDictTables) rows where
  find_holds {t k v} h := by
    obtain ⟨b, -, hb⟩ := Option.map_eq_some_iff.mp h
    exact ⟨b, hb⟩
  holds_insertRows {t rows v} := by
    rintro ⟨b, hb⟩
    rw [(dictShard_insertRows f now t rows).2] at hb
    exact (DictTable.valueByDictPk_turns hb).imp_left fun hb => ⟨b, hb⟩
  find_of_notMem {t rows k} hk := by
    show (_ : Option K).map _ = none ↔ (_ : Option K).map _ = none
    rw [Option.map_eq_none_iff, Option.map_eq_none_iff, (dictShard_insertRows f now t rows).1,
      DictTable.byKey_turns_of_notMem hk]
    rfl
  reads_iff {t rows} hnd := by
    rw [← DictTable.turns_reads_iff (DictTable.cacheAgrees_openForWrite f t.toDictTables) hnd]
    refine forall₂_congr fun kv hkv => ?_
    show (_ : Option K).map _ = some (some kv.2) ↔ _
    rw [Option.map_eq_some_iff, DictTables.getValue_eq_some, (dictShard_insertRows f now t rows).1,
      (dictShard_insertRows f now t rows).2]

end Dict

end Redbit.Storage
