import Redbit.Storage.DictBatch
import Redbit.Storage.IndexCache
import Redbit.Storage.WriteTable

/-!
# Inserting rows that are there

A sync that is started again stores blocks it has stored before.  Rows that a column already has,
under the same keys and with the same values, change none of its tables, be they inserted one by one
or in bulk.  For a dictionary the value of such a row has a birth id, which the cache or
`value_to_dict_pk` finds whatever the cache has lost in the meantime, and it is the birth id the key
has already.
-/

namespace Redbit.Storage

open Redbit.Lib

/-- The pairs are inserted, one by one or in bulk, and the tables are those from before. -/
def WriteTable.Unchanged {D T K V : Type} (W : WriteTable D T K V) (t : T)
    (pairs : List (K × V)) : Prop :=
  W.tables (pairs.foldl (fun t kv => W.insertKv t kv.1 kv.2) t) = W.tables t ∧
    W.tables (W.insertManySortedByKey t pairs) = W.tables t

variable {K V : Type} [LinearOrder K]

lemma plainTable_unchanged {t : Table K V} {pairs : List (K × V)}
    (h : ∀ kv ∈ pairs, t.get kv.1 = some kv.2) :
    (plainTable K V).Unchanged t pairs :=
  ⟨Table.insertAll_of_get h, Table.insertAll_of_get h⟩

variable [LinearOrder V] [CacheKey V]

/-! ### Index columns -/

namespace IndexTable

variable {t : IndexTable K V}

lemma insertManySortedByKey_of_present {pairs : List (K × V)} (ht : t.Inverse)
    (h : ∀ kv ∈ pairs, t.indexByPk.get kv.1 = some kv.2) :
    (t.insertManySortedByKey pairs).toIndexTables = t.toIndexTables := by
  have hforward : t.indexByPk.insertAll pairs = t.indexByPk := Table.insertAll_of_get h
  have hreverse : t.pkByIndex.insertAll
      ((pairs.mergeSort fun a b => decide (a.2 ≤ b.2)).map fun kv => (kv.2, kv.1)) = t.pkByIndex := by
    refine Multimap.insertAll_of_mem fun r hr => ?_
    obtain ⟨kv, hkv, rfl⟩ := List.mem_map.mp hr
    exact (ht kv.1 kv.2).mpr (h kv (List.mem_mergeSort.mp hkv))
  unfold insertManySortedByKey
  rw [hforward, hreverse]

lemma insertEach_of_present {pairs : List (K × V)} (ht : t.Inverse)
    (h : ∀ kv ∈ pairs, t.indexByPk.get kv.1 = some kv.2) :
    (pairs.foldl (fun t kv => t.insertKv kv.1 kv.2) t).toIndexTables = t.toIndexTables := by
  induction pairs using List.reverseRecOn with
  | nil => rfl
  | append_singleton pairs kv ih =>
    have hbefore := ih fun x hx => h x (List.mem_append_left _ hx)
    rw [List.foldl_append, List.foldl_cons, List.foldl_nil, insertKv_eq_insertMany]
    generalize pairs.foldl (fun t kv => t.insertKv kv.1 kv.2) t = s at hbefore ⊢
    have hs : s.Inverse ∧ s.indexByPk.get kv.1 = some kv.2 := by
      show s.toIndexTables.Inverse ∧ s.toIndexTables.indexByPk.get kv.1 = some kv.2
      rw [hbefore]
      exact ⟨ht, h kv (List.mem_append_right _ (List.mem_singleton_self _))⟩
    rw [insertManySortedByKey_of_present hs.1 (List.forall_mem_singleton.mpr hs.2), hbefore]

end IndexTable

/-! ### Dictionary columns -/

omit [CacheKey V] in
/-- The row of a key under its birth id changes nothing. -/
lemma DictTables.link_of_present {t : DictTables K V} (ht : t.Inv) {k b : K}
    (h : t.dictPkByKey.get k = some b) : t.link k b = t := by
  have hkeys : t.dictPkToKeys.insertAll [(b, k)] = t.dictPkToKeys :=
    Multimap.insertAll_of_mem (List.forall_mem_singleton.mpr ((ht.users b k).mpr h))
  unfold DictTables.link
  rw [Table.insert_of_get h, show t.dictPkToKeys.insert b k = t.dictPkToKeys from hkeys]

omit [CacheKey V] in
/-- The value of a key is known under the birth id of the key. -/
lemma DictTables.Inv.birthId_of_getValue {t : DictTables K V} (ht : t.Inv) {k : K} {v : V}
    (h : t.getValue k = some v) : ∃ b, t.valueToDictPk.get v = some b ∧
      t.dictPkByKey.get k = some b := by
  obtain ⟨b, hk, hb⟩ := DictTables.getValue_eq_some.mp h
  exact ⟨b, (ht.values v b).mpr hb, hk⟩

namespace DictTable

variable {d : DictTable K V}

lemma insertKv_of_present (ht : d.Inv) (hd : d.CacheAgrees) {k : K} {v : V}
    (h : d.getValue k = some v) :
    (d.insertKv k v).toDictTables = d.toDictTables := by
  obtain ⟨b, hv, hk⟩ := ht.birthId_of_getValue h
  rw [insertKv_tables hd, DictTables.put_of_some hv, DictTables.link_of_present ht hk]

lemma insertEach_of_present {pairs : List (K × V)} (ht : d.Inv) (hd : d.CacheAgrees)
    (h : ∀ kv ∈ pairs, d.getValue kv.1 = some kv.2) :
    (d.insertEach pairs).toDictTables = d.toDictTables ∧ (d.insertEach pairs).CacheAgrees := by
  unfold insertEach
  induction pairs using List.reverseRecOn with
  | nil => exact ⟨rfl, hd⟩
  | append_singleton pairs kv ih =>
    obtain ⟨hbefore, hagrees⟩ := ih fun x hx => h x (List.mem_append_left _ hx)
    rw [List.foldl_append, List.foldl_cons, List.foldl_nil]
    generalize pairs.foldl (fun d kv => d.insertKv kv.1 kv.2) d = s at hbefore hagrees ⊢
    refine ⟨?_, insertKv_cacheAgrees hagrees kv.1 kv.2⟩
    rw [insertKv_of_present (hbefore ▸ ht) hagrees, hbefore]
    rw [hbefore]
    exact h kv (List.mem_append_right _ (List.mem_singleton_self _))

/-- No value of the batch is new to the column, so the batch does what the single inserts do. -/
lemma insertManySortedByKey_of_present {pairs : List (K × V)} (ht : d.Inv) (hd : d.CacheAgrees)
    (h : ∀ kv ∈ pairs, d.getValue kv.1 = some kv.2) :
    (d.insertManySortedByKey pairs).toDictTables = d.toDictTables := by
  have hlock : Lock d ([] ++ pairs) (pairs.foldl batchStep ⟨d, [], []⟩) (d.insertEach pairs) := by
    refine (lock_init hd).foldl fun p k v hp hl => ?_
    obtain ⟨b, hv, -⟩ := ht.birthId_of_getValue (h (k, v) (hp.subset (by simp)))
    rw [hl.1] at hv
    cases hv
  unfold insertManySortedByKey
  rw [hlock.flush]
  exact (insertEach_of_present ht hd h).1

end DictTable

/-- **Rows that are there.**  Inserting rows into a plain, an index or a dictionary column that has
them already leaves all its tables as they are.  The cache of the column may be off, and may have
lost anything. -/
theorem insert_present_unchanged (pairs : List (K × V)) :
    (∀ t : Table K V, (∀ kv ∈ pairs, t.get kv.1 = some kv.2) → (plainTable K V).Unchanged t pairs) ∧
    (∀ (f : IndexFactory) (t : IndexTable K V), t.Inverse →
      (∀ kv ∈ pairs, t.getValue kv.1 = some kv.2) →
      (indexTable f K V).Unchanged t pairs) ∧
    ∀ (f : DictFactory) (d : DictTable K V), d.Inv → d.CacheAgrees →
      (∀ kv ∈ pairs, d.getValue kv.1 = some kv.2) →
      (dictTable f K V).Unchanged d pairs := by
  refine ⟨fun t h => plainTable_unchanged h, fun f t ht h => ?_, fun f d ht hd h => ?_⟩
  · exact ⟨t.insertEach_of_present ht h, t.insertManySortedByKey_of_present ht h⟩
  · exact ⟨(d.insertEach_of_present ht hd h).1, d.insertManySortedByKey_of_present ht hd h⟩

/-- The birth key `1` of the value `10` is deleted, `2` still uses it, and the cache holds one entry
only. -/
theorem insert_present_unchanged_birth_deleted :
    let pairs := [(2, 10), (3, 20)]
    let f := DictFactory.new 1
    let d : DictTable ℕ ℕ := f.openForWrite ((((DictTables.empty.put 1 10).put 2 10).put 3 20).del 1)
    d.dictPkByKey.get 2 = some 1 ∧ d.getValue 1 = none ∧ (dictTable f ℕ ℕ).Unchanged d pairs := by
  intro pairs f d
  have hinv : d.Inv := by
    have h₁ := DictTables.inv_empty.put (k := 1) (v := 10) (by decide) (by decide)
    have h₂ := h₁.1.put (k := 2) (v := 10) (by decide) (by decide)
    have h₃ := h₂.1.put (k := 3) (v := 20) (by decide) (by decide)
    exact (h₃.1.del 1).1
  refine ⟨by decide, by decide, (insert_present_unchanged pairs).2.2 f d hinv ?_ (by decide)⟩
  exact DictTable.cacheAgrees_openForWrite f _

end Redbit.Storage
