import Redbit.Storage.KeyLists
import Redbit.Storage.Reinsert

/-!
# Databases at different transactions (`table_writer.rs`, `context.rs`)

Every shard of a column is a database of its own and commits by itself.  A crash in the middle of a
commit leaves each of them as it was before or after, and a read context that is opened during
commits finds each of them as one of the transactions has left it (`Column.Skewed`).

Rows under keys that were there before are the same in all of them.  And the rows of a torn
transaction, inserted again, make all of them what they would have been without the crash.
-/

set_option linter.unusedSectionVars false

namespace Redbit.Storage

open Redbit.Lib

variable {T K V : Type} [LinearOrder K] [DecidableEq V]

/-! ### Shards -/

/-- The same tables, whatever the caches hold. -/
def ShardTable.Same (S : ShardTable T K V) (t t' : T) : Prop := S.reopen t = S.reopen t'

/-- What is proved of the tables of one shard that is given rows it has already. -/
structure ShardTable.Restores (S : ShardTable T K V) (now : Bool)
    (Rep : T → (K → Option V) → Prop) : Prop where
  find_reopen : ∀ t k, S.find (S.reopen t) k = S.find t k
  present : ∀ {t m} {rows : List (K × V)}, Rep t m → (∀ kv ∈ rows, m kv.1 = some kv.2) →
    S.Same (S.insertRows now t rows) t

section Column

variable {S : ShardTable T K V} {now : Bool} {Rep : T → (K → Option V) → Prop}
variable {n : ℕ} [NeZero n] {hash : V → ℕ} {c : Column n T} {m : K → Option V} {rows : List (K × V)}

/-- A transaction does not look at the caches that were there before it. -/
lemma ShardTable.Same.insertRows {t t' : T} (h : S.Same t t') (rows : List (K × V)) :
    S.insertRows now t rows = S.insertRows now t' rows := by
  unfold ShardTable.insertRows
  rw [show S.reopen t = S.reopen t' from h]

lemma ShardTable.Restores.find_eq (hS : S.Restores now Rep) {t t' : T} (h : S.Same t t') (k : K) :
    S.find t k = S.find t' k := by
  rw [← hS.find_reopen t, ← hS.find_reopen t', show S.reopen t = S.reopen t' from h]

/-- Every shard has the tables that one of the states has. -/
def Column.Skewed (S : ShardTable T K V) (states : Column n T → Prop) (c : Column n T) : Prop :=
  ∀ i, ∃ s, states s ∧ S.Same (c i) (s i)

/-- All shards have the same tables. -/
def Column.Same (S : ShardTable T K V) (c c' : Column n T) : Prop := ∀ i, S.Same (c i) (c' i)

/-- All shards have the same row under each of the keys. -/
def Column.Agrees (S : ShardTable T K V) (keys : Finset K) (c c' : Column n T) : Prop :=
  ∀ k ∈ keys, ∀ i, S.find (c' i) k = S.find (c i) k

lemma Column.Agrees.getValue {c' : Column n T} {keys : Finset K} (h : Column.Agrees S keys c c')
    {k : K} (hk : k ∈ keys) : c'.getValue S k = c.getValue S k := by
  unfold Column.getValue
  congr 2
  funext i
  exact h k hk i

lemma Column.Agrees.skewed (hS : S.Restores now Rep) {keys : Finset K} {states : Column n T → Prop}
    {v : Column n T} (h : ∀ s, states s → Column.Agrees S keys c s) (hv : v.Skewed S states) :
    Column.Agrees S keys c v := by
  intro k hk i
  obtain ⟨s, hs, hsame⟩ := hv i
  rw [hS.find_eq hsame]
  exact h s hs k hk i

lemma Column.Same.getValue (hS : S.Restores now Rep) {c' : Column n T}
    (h : Column.Same S c c') (k : K) : c.getValue S k = c'.getValue S k := by
  unfold Column.getValue
  congr 2
  funext i
  exact hS.find_eq (h i) k

/-- New rows leave those of the other keys alone, in every shard. -/
lemma Column.AllSound.agrees {Fine : T → List (K × V) → Prop} {Sound : T → Finset K → Prop}
    {seen : Finset K} (hS : S.Grows now Fine Sound) (hc : c.AllSound Sound seen)
    (h : FreshRows seen rows) {keys : Finset K} (hkeys : keys ⊆ seen) :
    Column.Agrees S keys c (c.insertRows S hash now rows) := by
  intro k hk i
  rw [Column.insertRows_apply]
  exact hS.frame (hc i) (h.bucket i) (hkeys hk)

/-- **The rows of a torn transaction, inserted again.** -/
theorem Column.Skewed.insertRows {born : T → Finset K} {Caches : T → List (K × V) → Prop}
    (hS : S.Restores now Rep) (hL : S.Lists now Rep born Caches) (hc : ColumnRep Rep hash c m)
    (hsorted : (rows.map Prod.fst).Pairwise (· < ·))
    (hnew : ∀ kv ∈ rows, m kv.1 = none ∧ kv.1 ∉ c.births born)
    (hcaches : ∀ i, Caches (c i) (bucket hash i rows)) {v : Column n T}
    (hv : v.Skewed S fun s => s = c ∨ s = c.insertRows S hash now rows) :
    Column.Same S (v.insertRows S hash now rows) (c.insertRows S hash now rows) := by
  intro i
  obtain ⟨s, rfl | rfl, hsame⟩ := hv i
  · -- the shard had not committed
    rw [Column.insertRows_apply, Column.insertRows_apply, hsame.insertRows]
    exact rfl
  · -- the shard has the rows already
    rw [Column.insertRows_apply, hsame.insertRows]
    refine hS.present (ColumnRep.insertRows hL hc hsorted hnew hcaches i) fun kv hkv => ?_
    obtain ⟨hmem, hshard⟩ := (mem_bucket hash).mp hkv
    rw [restrict_eq_some]
    exact ⟨putAll_of_mem (hsorted.imp ne_of_lt) hmem m, hshard⟩

/-- A column whose shards are skewed again is skewed. -/
lemma Column.Skewed.trans {states states' : Column n T → Prop} {v : Column n T}
    (hv : v.Skewed S states') (h : ∀ s, states' s → s.Skewed S states) : v.Skewed S states := by
  intro i
  obtain ⟨s, hs, hsame⟩ := hv i
  obtain ⟨s', hs', hsame'⟩ := h s hs i
  exact ⟨s', hs', hsame.trans hsame'⟩

end Column

/-! ### Plain columns -/

section Plain

variable {K V : Type} [LinearOrder K] {n : ℕ} {part : K → Fin n} {c : Column n (Table K V)}
  {rows : List (K × V)}

/-- Every shard is as one of the states has it. -/
def PlainSkewed (states : Column n (Table K V) → Prop) (c : Column n (Table K V)) : Prop :=
  ∀ i, ∃ s, states s ∧ c i = s i

/-- All shards have the same row under each of the keys. -/
def PlainAgrees (keys : Finset K) (c c' : Column n (Table K V)) : Prop :=
  ∀ k ∈ keys, ∀ i, (c' i).get k = (c i).get k

/-- New rows leave those of the other keys alone, in every shard. -/
lemma plainAgrees_insertRows {keys : Finset K} (h : ∀ kv ∈ rows, kv.1 ∉ keys) :
    PlainAgrees keys c (plainInsertRows part c rows) := by
  intro k hk i
  show ((c i).insertAll _).get k = _
  rw [Table.get_insertAll, putAll_of_notMem fun hm => ?_]
  obtain ⟨kv, hkv, rfl⟩ := List.mem_map.mp hm
  exact h kv (List.mem_filter.mp hkv).1 hk

lemma PlainSkewed.insertRows (hnd : (rows.map Prod.fst).Nodup) {v : Column n (Table K V)}
    (hv : PlainSkewed (fun s => s = c ∨ s = plainInsertRows part c rows) v) :
    plainInsertRows part v rows = plainInsertRows part c rows := by
  funext i
  obtain ⟨s, rfl | rfl, hi⟩ := hv i
  · unfold plainInsertRows
    rw [hi]
  · show (v i).insertAll _ = _
    rw [hi]
    refine Table.insertAll_of_get fun kv hkv => ?_
    show ((c i).insertAll _).get kv.1 = some kv.2
    have hsub : (rows.filter fun kv => part kv.1 = i).Sublist rows := List.filter_sublist
    rw [Table.get_insertAll]
    exact putAll_of_mem (hnd.sublist (hsub.map _)) hkv _

end Plain

/-! ### Index shards -/

section Index

variable {K V : Type} [LinearOrder K] [LinearOrder V] [CacheKey V]

lemma indexShard_restores (f : IndexFactory) (now : Bool) :
    (indexShard f : ShardTable (IndexTable K V) K V).Restores now IndexRep where
  find_reopen _ _ := rfl
  present {t m rows} h hrows := by
    have hinverse : (f.openForWrite t.toIndexTables).Inverse := fun k v =>
      (h.2 v k).trans (Eq.congr_left (h.1 k)).symm
    have hpresent : ∀ kv ∈ rows, (f.openForWrite t.toIndexTables).indexByPk.get kv.1 = some kv.2 :=
      fun kv hkv => (h.1 kv.1).trans (hrows kv hkv)
    refine congrArg f.openForWrite ?_
    unfold ShardTable.insertRows
    cases now with
    | true => exact IndexTable.insertEach_of_present hinverse hpresent
    | false =>
      rw [if_neg (by simp)]
      split
      · rfl
      · exact IndexTable.insertManySortedByKey_of_present hinverse hpresent

end Index

/-! ### Dictionary shards -/

section Dict

variable {K V : Type} [LinearOrder K] [LinearOrder V] [CacheKey V]

lemma dictShard_restores (f : DictFactory) (now : Bool) :
    (dictShard f : ShardTable (DictTable K V) K V).Restores now DictRep where
  find_reopen _ _ := rfl
  present {t m rows} h hrows := by
    have hinv : (f.openForWrite t.toDictTables).Inv := h.2.1
    have hagrees := DictTable.cacheAgrees_openForWrite f t.toDictTables
    have hpresent : ∀ kv ∈ rows, (f.openForWrite t.toDictTables).getValue kv.1 = some kv.2 :=
      fun kv hkv => (h.2.2 kv.1).trans (hrows kv hkv)
    refine congrArg f.openForWrite ?_
    unfold ShardTable.insertRows
    cases now with
    | true => exact (DictTable.insertEach_of_present hinv hagrees hpresent).1
    | false =>
      rw [if_neg (by simp)]
      split
      · rfl
      · exact DictTable.insertManySortedByKey_of_present hinv hagrees hpresent

end Dict

end Redbit.Storage
