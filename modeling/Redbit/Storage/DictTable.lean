import Redbit.Lib.Table
import Redbit.Lib.Lru

/-!
# The dictionary column (`table_dict.rs`, `table_dict_write.rs`, `table_dict_read.rs`)

A dictionary column stores each distinct value once, under the *birth id* of the key that used it
first. Four tables hold it:

* `dictPkByKey`   : key → birth id of its value;
* `dictPkToKeys`  : birth id → the keys that use it;
* `valueByDictPk` : birth id → value;
* `valueToDictPk` : value → birth id;

and an LRU cache `value → birth id` in front of `valueToDictPk`, which may be switched off.  The redb
tables are the tables of `Redbit.Lib`, so the writes below return the new tables and cannot fail; a
key's `Unit` is the key itself.
-/

namespace Redbit.Storage

open Redbit.Lib

/-- `CacheKey`: the key under which a cache holds a column value.  The generated instances copy the
bytes of the value, so distinct values have distinct cache keys. -/
class CacheKey (V : Type) where
  CK : Type
  decEq : DecidableEq CK
  cacheKey : V → CK
  cacheKey_injective : Function.Injective cacheKey

export CacheKey (CK cacheKey cacheKey_injective)

instance (V : Type) [CacheKey V] : DecidableEq (CK V) := CacheKey.decEq

instance : CacheKey ℕ := ⟨ℕ, inferInstance, id, Function.injective_id⟩

/-! ### The tables -/

/-- The four tables of a dictionary column. -/
structure DictTables (K V : Type) where
  dictPkToKeys : Multimap K K
  valueByDictPk : Table K V
  valueToDictPk : Table V K
  dictPkByKey : Table K K

/-- The tables of an empty column. -/
def DictTables.empty {K V : Type} : DictTables K V :=
  ⟨Multimap.empty, Table.empty, Table.empty, Table.empty⟩

instance {K V : Type} [DecidableEq K] [DecidableEq V] : DecidableEq (DictTables K V) := fun s t =>
  decidable_of_iff (s.dictPkToKeys = t.dictPkToKeys ∧ s.valueByDictPk = t.valueByDictPk ∧
      s.valueToDictPk = t.valueToDictPk ∧ s.dictPkByKey = t.dictPkByKey)
    (by cases s; cases t; simp)

/-- `DictTable`: the tables of an open write transaction and the cache of this transaction. -/
structure DictTable (K V : Type) [CacheKey V] extends DictTables K V where
  cache : Option (LruCache (CK V) K)

/-- `DictFactory`: the setting of the cache. -/
structure DictFactory extends LruSetting

namespace DictFactory

/-- `DictFactory::new`. -/
def new (lruCapacity : ℕ) : DictFactory := ⟨LruSetting.new lruCapacity⟩

/-- `DictFactory::open_for_write`: the committed tables with the cache of `new_cache`. -/
def openForWrite (f : DictFactory) {K V : Type} [CacheKey V] (t : DictTables K V) : DictTable K V :=
  { t with cache := f.newCache }

end DictFactory

namespace DictTable

variable {K V : Type} [LinearOrder K] [LinearOrder V] [CacheKey V]

/-! ### Writes -/

/-- `DictTable::insert_kv`. -/
def insertKv (d : DictTable K V) (k : K) (v : V) : DictTable K V :=
  match cacheGet d.cache (cacheKey v) with
  | (some birthId, cache) =>
    { d with
      cache := cache
      dictPkByKey := d.dictPkByKey.insert k birthId
      dictPkToKeys := d.dictPkToKeys.insert birthId k }
  | (none, cache) =>
    match d.valueToDictPk.get v with
    | some birthId =>
      { d with
        cache := cachePut cache (cacheKey v) birthId
        dictPkByKey := d.dictPkByKey.insert k birthId
        dictPkToKeys := d.dictPkToKeys.insert birthId k }
    | none =>
      { valueToDictPk := d.valueToDictPk.insert v k
        valueByDictPk := d.valueByDictPk.insert k v
        dictPkByKey := d.dictPkByKey.insert k k
        dictPkToKeys := d.dictPkToKeys.insert k k
        cache := cachePut cache (cacheKey v) k }

/-- The local state of `insert_many_sorted_by_key`: the table, and the two lists of deferred writes. -/
structure Batch (K V : Type) [CacheKey V] where
  table : DictTable K V
  pkToKeysBatch : List (K × K)
  valueToPkBatch : List (V × K)

/-- One turn of the first loop of `insert_many_sorted_by_key`: the writes keyed by the input key are
made, those of `dict_pk_to_keys` and `value_to_dict_pk` are deferred. -/
def batchStep (s : Batch K V) (kv : K × V) : Batch K V :=
  match cacheGet s.table.cache (cacheKey kv.2) with
  | (some birthId, cache) =>
    { s with
      table := { s.table with cache := cache, dictPkByKey := s.table.dictPkByKey.insert kv.1 birthId }
      pkToKeysBatch := s.pkToKeysBatch ++ [(birthId, kv.1)] }
  | (none, cache) =>
    match s.table.valueToDictPk.get kv.2 with
    | some birthId =>
      { s with
        table := { s.table with
          cache := cachePut cache (cacheKey kv.2) birthId
          dictPkByKey := s.table.dictPkByKey.insert kv.1 birthId }
        pkToKeysBatch := s.pkToKeysBatch ++ [(birthId, kv.1)] }
    | none =>
      { table := { s.table with
          dictPkByKey := s.table.dictPkByKey.insert kv.1 kv.1
          valueByDictPk := s.table.valueByDictPk.insert kv.1 kv.2
          cache := cachePut cache (cacheKey kv.2) kv.1 }
        pkToKeysBatch := s.pkToKeysBatch ++ [(kv.1, kv.1)]
        valueToPkBatch := s.valueToPkBatch ++ [(kv.2, kv.1)] }

/-- The two flushes at the end of `insert_many_sorted_by_key`, each after a stable sort by its key. -/
def flushBatch (s : Batch K V) : DictTable K V :=
  { s.table with
    dictPkToKeys := s.table.dictPkToKeys.insertAll
      (s.pkToKeysBatch.mergeSort fun a b => decide (a.1 ≤ b.1))
    valueToDictPk := s.table.valueToDictPk.insertAll
      (s.valueToPkBatch.mergeSort fun a b => decide (a.1 ≤ b.1)) }

/-- `DictTable::insert_many_sorted_by_key`.  That the pairs are strictly sorted is asserted in the test
build only. -/
def insertManySortedByKey (d : DictTable K V) (pairs : List (K × V)) : DictTable K V :=
  flushBatch (pairs.foldl batchStep ⟨d, [], []⟩)

/-- `DictTable::delete_kv`, with the Boolean it returns. -/
def deleteKv (d : DictTable K V) (k : K) : Bool × DictTable K V :=
  match d.dictPkByKey.get k with
  | some birthId =>
    let wasRemoved := decide (k ∈ d.dictPkToKeys.get birthId)
    let d := { d with
      dictPkByKey := d.dictPkByKey.remove k
      dictPkToKeys := d.dictPkToKeys.remove birthId k }
    if d.dictPkToKeys.get birthId = ∅ then
      match d.valueByDictPk.get birthId with
      | some value =>
        (wasRemoved, { d with
          valueByDictPk := d.valueByDictPk.remove birthId
          valueToDictPk := d.valueToDictPk.remove value
          cache := cachePop d.cache (cacheKey value) })
      | none => (wasRemoved, d)
    else (wasRemoved, d)
  | none => (false, d)

end DictTable

/-! ### Reads -/

namespace DictTables

variable {K V : Type} [DecidableEq K] [DecidableEq V]

/-- `get_value` of one shard: the value of the key's birth id. -/
def getValue (t : DictTables K V) (k : K) : Option V :=
  (t.dictPkByKey.get k).bind t.valueByDictPk.get

/-- `dict_keys` of one shard: the keys that use the birth id of `v`. -/
def dictKeys (t : DictTables K V) (v : V) : Option (Finset K) :=
  (t.valueToDictPk.get v).map t.dictPkToKeys.get

/-- The keys `dict_keys` lists: none at all where the value is unknown. -/
def listedKeys (t : DictTables K V) (v : V) : Finset K := (t.dictKeys v).getD ∅

end DictTables

end Redbit.Storage
