import Redbit.Storage.Tidy
import Mathlib.Data.Prod.Lex

/-!
# The key lists of a column (`table_index_read.rs`, `table_dict_read.rs`)

`index_keys` and `dict_keys` list the keys of a value, `index_range` those of a range of values.  A
column that is given rows under new keys lists each key under the value that is read for it, and
nowhere else (`ColumnRep`).  For a dictionary that writes in bulk this asks that its cache holds the
values that come again (`DictCaches`).
-/

set_option linter.unusedSectionVars false

namespace Redbit.Storage

open Redbit.Lib

variable {T K V : Type} [LinearOrder K] [DecidableEq V]

/-! ### Shards -/

/-- What is proved of the tables of one shard that is given rows under new keys in ascending order,
none of them in use as a birth id; `Caches t rows` says that nothing is lost on the way. -/
structure ShardTable.Lists (S : ShardTable T K V) (now : Bool) (Rep : T → (K → Option V) → Prop)
    (born : T → Finset K) (Caches : T → List (K × V) → Prop) : Prop where
  insertRows : ∀ {t m} {rows : List (K × V)}, Rep t m → (rows.map Prod.fst).Pairwise (· < ·) →
    (∀ kv ∈ rows, m kv.1 = none ∧ kv.1 ∉ born t) → Caches t rows →
      Rep (S.insertRows now t rows) (putAll m rows)

/-- A write of one shard for each row, or one write for all of them. -/
lemma ShardTable.Lawful.insertRows {S : ShardTable T K V} {Rep : T → (K → Option V) → Prop}
    {Good : T → Write K V → Prop} (hS : S.Lawful Rep Good) {now : Bool} {t : T} {m : K → Option V}
    {rows : List (K × V)} (h : Rep t m) (hsorted : (rows.map Prod.fst).Pairwise (· < ·))
    (hnew : ∀ kv ∈ rows, m kv.1 = none)
    (hgood : if now then ∀ p kv, p ++ [kv] <+: rows →
        Good (p.foldl (fun t kv => S.insertKv t kv.1 kv.2) (S.reopen t)) (.insertKv kv.1 kv.2)
      else Good (S.reopen t) (.insertManySortedByKey rows)) :
      Rep (S.insertRows now t rows) (putAll m rows) := by
  unfold ShardTable.insertRows
  cases now with
  | false =>
    rw [if_neg (by simp)] at hgood ⊢
    by_cases hnil : rows = []
    · rw [if_pos hnil, hnil]
      exact hS.reopen h
    · rw [if_neg hnil]
      exact hS.write (w := .insertManySortedByKey rows) (hS.reopen h) hsorted
        (fun kv hkv => Or.inl (hnew kv hkv)) hgood
  | true =>
    rw [if_pos rfl] at hgood ⊢
    induction rows using List.reverseRecOn with
    | nil => exact hS.reopen h
    | append_singleton rows kv ih =>
      rw [List.map_append, List.pairwise_append] at hsorted
      have hrows := ih hsorted.1 (fun kv hkv => hnew kv (List.mem_append_left _ hkv)) fun p kv hp =>
        hgood p kv (hp.trans (List.prefix_append _ _))
      have hput : putAll m (rows ++ [kv]) = putAll (putAll m rows) [kv] := List.foldl_append ..
      have hnone : putAll m rows kv.1 = none := by
        rw [putAll_of_notMem fun hm => lt_irrefl _ (hsorted.2.2 kv.1 hm kv.1 (by simp))]
        exact hnew kv (by simp)
      rw [List.foldl_append, hput]
      refine hS.write (w := .insertKv kv.1 kv.2) hrows (List.pairwise_singleton _ _)
        (fun kv' hkv' => ?_) (hgood rows kv List.prefix_rfl)
      rw [List.mem_singleton.mp hkv']
      exact Or.inl hnone

section Column

variable {S : ShardTable T K V} {now : Bool} {Rep : T → (K → Option V) → Prop}
  {Good : T → Write K V → Prop}
variable {born : T → Finset K} {Caches : T → List (K × V) → Prop}
variable {n : ℕ} [NeZero n] {hash : V → ℕ} {c : Column n T} {m : K → Option V} {rows : List (K × V)}

/-- Each shard gets its part of the rows. -/
lemma ColumnRep.insertRows (hS : S.Lists now Rep born Caches) (hc : ColumnRep Rep hash c m)
    (hsorted : (rows.map Prod.fst).Pairwise (· < ·))
    (hnew : ∀ kv ∈ rows, m kv.1 = none ∧ kv.1 ∉ c.births born)
    (hcaches : ∀ i, Caches (c i) (bucket hash i rows)) :
    ColumnRep Rep hash (c.insertRows S hash now rows) (putAll m rows) := by
  intro i
  have hput : restrict hash i (putAll m rows) = putAll (restrict hash i m) (bucket hash i rows) :=
    restrict_putAll hash i (w := .insertManySortedByKey rows) hsorted fun kv hkv =>
      Or.inl (hnew kv hkv).1
  rw [hput, Column.insertRows_apply]
  have hsub : (bucket hash i rows).Sublist rows := List.filter_sublist
  refine hS.insertRows (hc i) (hsorted.sublist (hsub.map _)) (fun kv hkv => ?_) (hcaches i)
  obtain ⟨hnone, hborn⟩ := hnew kv (hsub.subset hkv)
  refine ⟨?_, fun hb => hborn (Finset.mem_biUnion.mpr ⟨i, Finset.mem_univ i, hb⟩)⟩
  unfold restrict
  rw [hnone]
  rfl

lemma ColumnRep.deleteRows (hS : S.Lawful Rep Good) (hc : ColumnRep Rep hash c m) (ks : List K) :
    ColumnRep Rep hash (c.deleteRows S ks).2 (ks.foldl eraseMap m) := by
  induction ks using List.reverseRecOn with
  | nil => exact fun i => hS.reopen (hc i)
  | append_singleton ks k ih =>
    rw [Column.deleteRows_concat, List.foldl_append]
    exact ih.deleteKv hS k

end Column

/-! ### Index shards -/

section Index

variable {K V : Type} [LinearOrder K] [LinearOrder V] [CacheKey V]

lemma indexShard_lists (f : IndexFactory) (now : Bool) :
    (indexShard f : ShardTable (IndexTable K V) K V).Lists now IndexRep (fun _ => ∅) fun _ _ =>
      True where
  insertRows h hsorted hnew _ := by
    refine (indexShard_lawful f).insertRows h hsorted (fun kv hkv => (hnew kv hkv).1) ?_
    cases now with
    | true => exact fun _ _ _ => trivial
    | false => trivial

/-- The rows of a multimap with keys from `from` up to `until`, in the order of the keys and of the
values of each. -/
def rangeRows (m : Multimap V K) (range : V × V) : List (V ×ₗ K) :=
  ((m.rows.filter fun r => range.1 ≤ r.1 ∧ r.1 < range.2).image toLex).sort (· ≤ ·)

/-- The sharded `index_range`, which panics if there are several shards. -/
def Column.indexRange {n : ℕ} [NeZero n] (c : Column n (IndexTable K V)) (range : V × V) :
    Option (List (V ×ₗ K)) :=
  if n = 1 then some (rangeRows (c 0).pkByIndex range) else none

end Index

/-! ### Dictionary shards -/

section Dict

variable {K V : Type} [LinearOrder K] [LinearOrder V] [CacheKey V]

/-- A bulk insert finds each value that comes again in the cache, if the dictionary did not know it
before. -/
def DictCaches (f : DictFactory) (now : Bool) (t : DictTable K V) (rows : List (K × V)) : Prop :=
  now = false → RepeatsCached (cacheCap (f.openForWrite t.toDictTables).cache)
    (fun v => t.valueToDictPk.get v ≠ none) (rows.map Prod.snd)

/-- A key that is no birth id clashes with none. -/
lemma not_birthClash {t : DictTable K V} {k : K} (h : k ∉ dictBirths t) (v : V) : ¬ t.BirthClash k v :=
  fun hclash => h (mem_dictBirths.mpr hclash.2)

lemma dictShard_lists (f : DictFactory) (now : Bool) :
    (dictShard f : ShardTable (DictTable K V) K V).Lists now DictRep dictBirths
      (DictCaches f now) where
  insertRows {t m rows} h hsorted hnew hcaches := by
    refine (dictShard_lawful f).insertRows h hsorted (fun kv hkv => (hnew kv hkv).1) ?_
    cases now with
    | false =>
      refine ⟨fun xs k v ys hrows _ => ?_, hcaches rfl⟩
      exact not_birthClash (hnew (k, v) (by rw [hrows]; simp)).2 v
    | true =>
      intro p kv hp
      -- the births since are those of the rows before
      have hnd : ((p ++ [kv]).map Prod.fst).Nodup := (hsorted.imp ne_of_lt).sublist (hp.sublist.map _)
      rw [List.map_append, List.nodup_append] at hnd
      have hout := DictTable.outcome_turns true
        (DictTable.cacheAgrees_openForWrite f t.toDictTables) hnd.1
      have hkept := hout.kept_of_notMem fun hm => hnd.2.2 kv.1 hm kv.1 (by simp) rfl
      refine not_birthClash (t := DictTable.turns true (f.openForWrite t.toDictTables) p) ?_ kv.2
      rw [mem_dictBirths, hkept, ← mem_dictBirths]
      exact (hnew kv (hp.subset (by simp))).2

end Dict

end Redbit.Storage
