import Redbit.Storage.IndexTable

/-!
# The tables of a writer (`table_writer_api.rs`, `table_plain.rs`, `table_plain_write.rs`)

`WriteTable` is what a writer thread uses of the table it owns: the trait `WriteTableLike` together
with the opening of the tables at `Begin` and what a commit makes of them.  A method that the source
leaves `unimplemented!()` is `none`.  The three kinds of tables are instances of it.
-/

namespace Redbit.Storage

open Redbit.Lib

/-- The table of a writer of rows `K → V`: `D` are the committed tables, `T` the tables of an open
write transaction with the cache of this transaction. -/
structure WriteTable (D T K V : Type) where
  openForWrite : D → T
  /-- What a commit makes durable. -/
  tables : T → D
  insertKv : T → K → V → T
  insertManySortedByKey : T → List (K × V) → T
  deleteKv : T → K → Bool × T
  getAnyForIndex : Option (T → V → Option K × T)
  range : Option (T → K → K → List (K × V))
  /-- The same rows, now and after any further writes. -/
  SameRows : T → T → Prop
  sameRows_refl : ∀ t, SameRows t t
  tables_eq : ∀ {s t}, SameRows s t → tables s = tables t
  sameRows_insertKv : ∀ {s t}, SameRows s t → ∀ k v, SameRows (insertKv s k v) (insertKv t k v)
  sameRows_insertMany : ∀ {s t}, SameRows s t → ∀ kvs,
    SameRows (insertManySortedByKey s kvs) (insertManySortedByKey t kvs)
  sameRows_deleteKv : ∀ {s t}, SameRows s t → ∀ k, SameRows (deleteKv s k).2 (deleteKv t k).2
  /-- A lookup changes nothing but the cache, and the cache of a table that has lookups decides no
  row. -/
  sameRows_getAny : ∀ {f}, getAnyForIndex = some f → ∀ {s t}, SameRows s t → ∀ v, SameRows (f s v).2 t
  insertMany_nil : ∀ t, insertManySortedByKey t [] = t

/-! ### Plain tables -/

namespace PlainTable

variable {K V : Type} [LinearOrder K]

/-- `PlainTable::range`: the rows with `lo ≤ key < hi` in the order of the keys. -/
def range (t : Table K V) (lo hi : K) : List (K × V) :=
  ((t.keys.filter fun k => lo ≤ k ∧ k < hi).sort (· ≤ ·)).filterMap fun k =>
    (t.get k).map fun v => (k, v)

/-- `PlainTable::delete_kv`. -/
def deleteKv (t : Table K V) (k : K) : Bool × Table K V := ((t.get k).isSome, t.remove k)

end PlainTable

section Kinds

variable {K V : Type} [LinearOrder K]

/-- The table of a plain column. -/
def plainTable (K V : Type) [LinearOrder K] : WriteTable (Table K V) (Table K V) K V where
  openForWrite t := t
  tables t := t
  insertKv := Table.insert
  insertManySortedByKey := Table.insertAll
  deleteKv := PlainTable.deleteKv
  getAnyForIndex := none
  range := some PlainTable.range
  SameRows := Eq
  sameRows_refl _ := rfl
  tables_eq h := h
  sameRows_insertKv h k v := by rw [h]
  sameRows_insertMany h kvs := by rw [h]
  sameRows_deleteKv h k := by rw [h]
  sameRows_getAny h := by cases h
  insertMany_nil _ := rfl

variable [LinearOrder V] [CacheKey V]

lemma IndexTable.toIndexTables_getAny (t : IndexTable K V) (v : V) :
    (t.getAnyForIndex v).2.toIndexTables = t.toIndexTables := by
  unfold IndexTable.getAnyForIndex
  split <;> rfl

lemma IndexTable.toIndexTables_deleteKv {s t : IndexTable K V}
    (h : s.toIndexTables = t.toIndexTables) (k : K) :
    (s.deleteKv k).2.toIndexTables = (t.deleteKv k).2.toIndexTables := by
  have hfwd : s.indexByPk = t.indexByPk := congrArg IndexTables.indexByPk h
  have hrev : s.pkByIndex = t.pkByIndex := congrArg IndexTables.pkByIndex h
  unfold IndexTable.deleteKv
  rw [hfwd, hrev]
  cases t.indexByPk.get k with
  | none => exact h
  | some v => rfl

/-- The table of an index column. -/
def indexTable (f : IndexFactory) (K V : Type) [LinearOrder K] [LinearOrder V] [CacheKey V] :
    WriteTable (IndexTables K V) (IndexTable K V) K V where
  openForWrite := f.openForWrite
  tables := IndexTable.toIndexTables
  insertKv := IndexTable.insertKv
  insertManySortedByKey := IndexTable.insertManySortedByKey
  deleteKv := IndexTable.deleteKv
  getAnyForIndex := some IndexTable.getAnyForIndex
  range := none
  SameRows s t := s.toIndexTables = t.toIndexTables
  sameRows_refl _ := rfl
  tables_eq h := h
  sameRows_insertKv {s t} h k v := by
    have hfwd : s.indexByPk = t.indexByPk := congrArg IndexTables.indexByPk h
    have hrev : s.pkByIndex = t.pkByIndex := congrArg IndexTables.pkByIndex h
    simp only [IndexTable.insertKv, hfwd, hrev]
  sameRows_insertMany {s t} h kvs := by
    have hfwd : s.indexByPk = t.indexByPk := congrArg IndexTables.indexByPk h
    have hrev : s.pkByIndex = t.pkByIndex := congrArg IndexTables.pkByIndex h
    simp only [IndexTable.insertManySortedByKey, hfwd, hrev]
  sameRows_deleteKv h k := IndexTable.toIndexTables_deleteKv h k
  sameRows_getAny := by
    rintro f ⟨⟩ s t h v
    exact (IndexTable.toIndexTables_getAny s v).trans h
  insertMany_nil t := by simp [IndexTable.insertManySortedByKey]

/-- The table of a dictionary column. -/
def dictTable (f : DictFactory) (K V : Type) [LinearOrder K] [LinearOrder V] [CacheKey V] :
    WriteTable (DictTables K V) (DictTable K V) K V where
  openForWrite := f.openForWrite
  tables := DictTable.toDictTables
  insertKv := DictTable.insertKv
  insertManySortedByKey := DictTable.insertManySortedByKey
  deleteKv := DictTable.deleteKv
  getAnyForIndex := none
  range := none
  SameRows := Eq
  sameRows_refl _ := rfl
  tables_eq h := by rw [h]
  sameRows_insertKv h k v := by rw [h]
  sameRows_insertMany h kvs := by rw [h]
  sameRows_deleteKv h k := by rw [h]
  sameRows_getAny h := by cases h
  insertMany_nil t := by simp [DictTable.insertManySortedByKey, DictTable.flushBatch]

end Kinds

end Redbit.Storage
