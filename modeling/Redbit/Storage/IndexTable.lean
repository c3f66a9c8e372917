import Redbit.Storage.DictTable

/-!
# The index column (`table_index.rs`, `table_index_write.rs`, `table_index_read.rs`)

An index column keeps the forward table `indexByPk` : key → value and the reverse multimap
`pkByIndex` : value → keys, with an LRU cache `value → key` in front of the reverse one, which may
be switched off.
-/

namespace Redbit.Storage

open Redbit.Lib

/-- The two tables of an index column. -/
structure IndexTables (K V : Type) where
  pkByIndex : Multimap V K
  indexByPk : Table K V

/-- The tables of an empty column. -/
def IndexTables.empty {K V : Type} : IndexTables K V := ⟨Multimap.empty, Table.empty⟩

/-- `IndexTable`: the tables of an open write transaction and the cache of this transaction. -/
structure IndexTable (K V : Type) [CacheKey V] extends IndexTables K V where
  cache : Option (LruCache (CK V) K)

/-- `IndexFactory`: the setting of the cache. -/
structure IndexFactory extends LruSetting

namespace IndexFactory

/-- `IndexFactory::new`. -/
def new (lruCapacity : ℕ) : IndexFactory := ⟨LruSetting.new lruCapacity⟩

/-- `IndexFactory::open_for_write`: the committed tables with the cache of `new_cache`. -/
def openForWrite (f : IndexFactory) {K V : Type} [CacheKey V] (t : IndexTables K V) : IndexTable K V :=
  { t with cache := f.newCache }

end IndexFactory

namespace IndexTable

variable {K V : Type} [LinearOrder K] [LinearOrder V] [CacheKey V]

/-! ### Writes -/

/-- `IndexTable::insert_kv`. -/
def insertKv (t : IndexTable K V) (k : K) (v : V) : IndexTable K V where
  indexByPk := t.indexByPk.insert k v
  pkByIndex := t.pkByIndex.insert v k
  cache := cachePut t.cache (cacheKey v) k

/-- `IndexTable::insert_many_sorted_by_key`: the forward rows in the order of the keys, then the
reverse rows in the order of the values.  That the pairs are strictly sorted is asserted in the test
build only. -/
def insertManySortedByKey (t : IndexTable K V) (pairs : List (K × V)) : IndexTable K V where
  indexByPk := t.indexByPk.insertAll pairs
  pkByIndex := t.pkByIndex.insertAll
    ((pairs.mergeSort fun a b => decide (a.2 ≤ b.2)).map fun kv => (kv.2, kv.1))
  cache := pairs.foldl (fun cache kv => cachePut cache (cacheKey kv.2) kv.1) t.cache

/-- `IndexTable::delete_kv`, with the Boolean it returns. -/
def deleteKv (t : IndexTable K V) (k : K) : Bool × IndexTable K V :=
  match t.indexByPk.get k with
  | some value =>
    let removed := decide (k ∈ t.pkByIndex.get value)
    (removed,
      { indexByPk := t.indexByPk.remove k
        pkByIndex := t.pkByIndex.remove value k
        cache := if removed then cachePop t.cache (cacheKey value) else t.cache })
  | none => (false, t)

/-- `IndexTable::get_any_for_index`: a key with the value, from the cache or else the smallest one
in the reverse table.  A hit in the cache is a use of it. -/
def getAnyForIndex (t : IndexTable K V) (v : V) : Option K × IndexTable K V :=
  match cacheGet t.cache (cacheKey v) with
  | (some k, cache) => (some k, { t with cache := cache })
  | (none, cache) => (((t.pkByIndex.get v).sort (· ≤ ·)).head?, { t with cache := cache })

end IndexTable

/-! ### Reads -/

namespace IndexTables

variable {K V : Type} [DecidableEq K] [DecidableEq V]

/-- `get_value` of one shard. -/
def getValue (t : IndexTables K V) (k : K) : Option V := t.indexByPk.get k

/-- `index_keys` of one shard. -/
def indexKeys (t : IndexTables K V) (v : V) : Finset K := t.pkByIndex.get v

end IndexTables

end Redbit.Storage
