import Redbit.Storage.KeyLists
import Redbit.Entity.KeyReads

/-!
# Reading by a column (`column/get_by.rs`, `column/stream_by.rs`, `column/stream_parents_by.rs`,
`column/range_by.rs`)

An index, range or dictionary column has functions that read the entities with a value: `get_by` and
`stream_by` compose the listed keys, `get_keys_by` returns them, `stream_parents_by` composes their
parents, each once, and `range_by` takes a range of values.  In a database that stores and deletes
have made they find just the instances with the value, at every level of the entity tree
(`EntityDef.readsBy_run`), as long as the caches of the dictionaries that are written in bulk hold
the values that come again (`EntityDef.Caches`).
-/

set_option linter.unusedSectionVars false

namespace Redbit.Entity

open Redbit.Lib Redbit.Storage

/-! ### Columns -/

/-- What is proved of the key lists of a column that is given rows under new keys in ascending
order: `Exact s` says that the lists are those of the values that are read. -/
structure ColumnDeletes.Indexes {K V : Type} [LinearOrder K] {C : ColumnTables K V}
    (D : ColumnDeletes C) (births : C.State → Finset K) (Tidy : C.State → Finset K → Prop)
    (keysOf : C.State → V → Finset K) (Caches : C.State → List (K × V) → Prop)
    (Exact : C.State → Prop) (indexed : Prop) : Prop where
  empty : Exact C.empty
  insertRows : ∀ {s keys} {rows : List (K × V)}, Tidy s keys → Exact s →
    (rows.map Prod.fst).Pairwise (· < ·) →
    (∀ kv ∈ rows, kv.1 ∉ keys ∧ kv.1 ∉ births s) → Caches s rows → Exact (C.insertRows s rows)
  deleteRows : ∀ {s}, Exact s → ∀ ks : List K, Exact (D.deleteRows s ks).2
  mem_keysOf : indexed → ∀ {s}, Exact s → ∀ v k, k ∈ keysOf s v ↔ C.getValue s k = some v

section Columns

variable {K V : Type} [LinearOrder K] [LinearOrder V] [CacheKey V] (n : ℕ) [NeZero n] (hash : V → ℕ)
  (now : Bool)

lemma plainDeletes_indexes (V : Type) (part : K → Fin n) :
    (plainDeletes n V part).Indexes (fun _ => ∅) (PlainTidy part) (fun _ _ => ∅) (fun _ _ => True)
      (fun _ => True)
      False where
  empty := trivial
  insertRows _ _ _ _ _ := trivial
  deleteRows _ _ := trivial
  mem_keysOf h := h.elim

/-- The shards hold what is read. -/
def ReadRep {T : Type} (S : ShardTable T K V) (Rep : T → (K → Option V) → Prop)
    (c : Column n T) : Prop :=
  ColumnRep Rep hash c (c.getValue S)

lemma readRep_of_columnRep {T : Type} {S : ShardTable T K V} {Rep : T → (K → Option V) → Prop}
    {Good : T → Write K V → Prop} (hS : S.Lawful Rep Good) {c : Column n T} {m : K → Option V}
    (h : ColumnRep Rep hash c m) : ReadRep n hash S Rep c := by
  unfold ReadRep
  rwa [show c.getValue S = m from funext (h.getValue hS)]

/-- The rows of a transaction with new keys keep the key lists exact. -/
lemma ReadRep.insertRows {T : Type} {S : ShardTable T K V} {Rep : T → (K → Option V) → Prop}
    {Good : T → Write K V → Prop} {Sane : T → Prop} {born : T → Finset K}
    {Caches : T → List (K × V) → Prop} (hS : S.Lawful Rep Good) (hL : S.Lists now Rep born Caches)
    {c : Column n T} {keys : Finset K} {rows : List (K × V)} (htidy : c.Tidy S Sane keys)
    (h : ReadRep n hash S Rep c) (hsorted : (rows.map Prod.fst).Pairwise (· < ·))
    (hnew : ∀ kv ∈ rows, kv.1 ∉ keys ∧ kv.1 ∉ c.births born)
    (hcaches : ∀ i, Caches (c i) (bucket hash i rows)) :
    ReadRep n hash S Rep (c.insertRows S hash now rows) := by
  refine readRep_of_columnRep n hash hS
    (ColumnRep.insertRows hL h hsorted (fun kv hkv => ⟨?_, (hnew kv hkv).2⟩) hcaches)
  by_contra hne
  exact (hnew kv hkv).1 (htidy.mem_of_held (held_of_getValue n hne))

/-- `index_keys`. -/
def indexTablesKeys (f : IndexFactory) (c : (indexTables n hash now f : ColumnTables K V).State)
    (v : V) : Finset K :=
  c.1.keysOf (indexShard f) hash v

/-- The listed keys of an index column are those of the values that are read. -/
def IndexTablesExact (f : IndexFactory)
    (c : (indexTables n hash now f : ColumnTables K V).State) : Prop :=
  ReadRep n hash (indexShard f) IndexRep c.1

lemma indexDeletes_indexes (f : IndexFactory) :
    (indexDeletes n hash now f : ColumnDeletes (indexTables n hash now f : ColumnTables K V)).Indexes
      (fun _ => ∅) (IndexTablesTidy n hash now f) (indexTablesKeys n hash now f) (fun _ _ => True)
      (IndexTablesExact n hash now f) True where
  empty := readRep_of_columnRep n hash (indexShard_lawful f) (columnRep_emptyIndex n hash f)
  insertRows {s keys rows} htidy h hsorted hnew _ := by
    rw [← births_of_empty n s.1] at hnew
    exact h.insertRows n hash now (indexShard_lawful f) (indexShard_lists f now) htidy hsorted hnew
      fun _ => trivial
  deleteRows h ks := readRep_of_columnRep n hash (indexShard_lawful f)
    (ColumnRep.deleteRows (indexShard_lawful f) h ks)
  mem_keysOf _ _ h := ColumnRep.mem_keysOf (indexShard_lawful f) h

/-- `dict_keys`, where an unknown value has no keys. -/
def dictTablesKeys (f : DictFactory) (c : (dictTables n hash now f : ColumnTables K V).State)
    (v : V) : Finset K :=
  c.1.keysOf (dictShard f) hash v

/-- The caches of the shards hold the values of the rows that come again. -/
def DictTablesCaches (f : DictFactory) (c : (dictTables n hash now f : ColumnTables K V).State)
    (rows : List (K × V)) : Prop :=
  ∀ i, DictCaches f now (c.1 i) (bucket hash i rows)

/-- The listed keys of a dictionary column are those of the values that are read. -/
def DictTablesExact (f : DictFactory)
    (c : (dictTables n hash now f : ColumnTables K V).State) : Prop :=
  ReadRep n hash (dictShard f) DictRep c.1

lemma dictDeletes_indexes (f : DictFactory) :
    (dictDeletes n hash now f : ColumnDeletes (dictTables n hash now f : ColumnTables K V)).Indexes
      (dictTablesBirths n hash now f) (DictTablesTidy n hash now f) (dictTablesKeys n hash now f)
      (DictTablesCaches n hash now f) (DictTablesExact n hash now f) True where
  empty := readRep_of_columnRep n hash (dictShard_lawful f) (columnRep_emptyDict n hash f)
  insertRows htidy h hsorted hnew hcaches :=
    h.insertRows n hash now (dictShard_lawful f) (dictShard_lists f now) htidy hsorted hnew hcaches
  deleteRows h ks := readRep_of_columnRep n hash (dictShard_lawful f)
    (ColumnRep.deleteRows (dictShard_lawful f) h ks)
  mem_keysOf _ _ h := ColumnRep.mem_keysOf (dictShard_lawful f) h

lemma mem_rangeRows {m : Multimap V K} {range : V × V} {v : V} {k : K} :
    toLex (v, k) ∈ rangeRows m range ↔ k ∈ m.get v ∧ range.1 ≤ v ∧ v < range.2 := by
  unfold rangeRows
  rw [Finset.mem_sort, Finset.mem_image, Multimap.mem_get]
  constructor
  · rintro ⟨r, hr, heq⟩
    obtain rfl := toLex.injective heq
    exact Finset.mem_filter.mp hr
  · exact fun h => ⟨(v, k), Finset.mem_filter.mpr h, rfl⟩

/-- `index_range`: the values and the keys under each, or a panic if there are several shards. -/
def indexTablesRange (f : IndexFactory) (c : (indexTables n hash now f : ColumnTables K V).State)
    (range : V × V) : Option (List (V ×ₗ K)) :=
  c.1.indexRange range

/-- A single shard has the rows of all values. -/
lemma mem_indexRange {f : IndexFactory} {c : (indexTables n hash now f : ColumnTables K V).State}
    (h : IndexTablesExact n hash now f c) (hn : n = 1) (range : V × V) :
    ∃ rows, indexTablesRange n hash now f c range = some rows ∧ rows.Pairwise (· < ·) ∧
      ∀ v k, toLex (v, k) ∈ rows ↔ (indexTables n hash now f).getValue c k = some v ∧ range.1 ≤ v ∧
        v < range.2 := by
  refine ⟨rangeRows (c.1 0).pkByIndex range, if_pos hn, Finset.sortedLT_sort _ |>.pairwise,
    fun v k => ?_⟩
  have hshard : shardOf hash n v = 0 := if_pos hn
  rw [mem_rangeRows, (h 0).2 v k, restrict_eq_some, and_iff_left hshard]
  exact Iff.rfl

end Columns

namespace PlainDef

variable {d : ℕ}

/-- The column has functions that read by its values. -/
def Indexed (c : PlainDef d) : Prop :=
  match c.indexing with
  | .off _ => False
  | .index _ => True
  | .range _ => True
  | .dict _ => True

/-- `index_keys` and `dict_keys`; a plain column lists none. -/
def keysOf : (c : PlainDef d) → c.tables.State → c.V → Finset (Key d)
  | ⟨_, _, _, _, _, _, .off _, _, _, _⟩, _, _ => ∅
  | ⟨_, _, order, cacheKey, xxh3, _, .index n, h, lru, used⟩, c, v =>
    @indexTablesKeys _ _ _ order cacheKey n (neZero_shards h) xxh3 used (IndexFactory.new lru) c v
  | ⟨_, _, order, cacheKey, xxh3, _, .range n, h, lru, used⟩, c, v =>
    @indexTablesKeys _ _ _ order cacheKey n (neZero_shards h) xxh3 used (IndexFactory.new lru) c v
  | ⟨_, _, order, cacheKey, xxh3, _, .dict n, h, lru, used⟩, c, v =>
    @dictTablesKeys _ _ _ order cacheKey n (neZero_shards h) xxh3 used (DictFactory.new lru) c v

/-- `index_range` of a range column. -/
def rangeOf : (c : PlainDef d) → c.tables.State → c.V × c.V → Option (List (c.V × Key d))
  | ⟨_, _, order, cacheKey, xxh3, _, .range n, h, lru, used⟩, c, range =>
    (@indexTablesRange _ _ _ order cacheKey n (neZero_shards h) xxh3 used (IndexFactory.new lru) c
      range).map (List.map ofLex)
  | _, _, _ => none

/-- The cache of the column holds the values of the rows that come again. -/
def Caches : (c : PlainDef d) → c.tables.State → List (Key d × c.V) → Prop
  | ⟨_, _, _, _, _, _, .off _, _, _, _⟩, _, _ => True
  | ⟨_, _, _, _, _, _, .index _, _, _, _⟩, _, _ => True
  | ⟨_, _, _, _, _, _, .range _, _, _, _⟩, _, _ => True
  | ⟨_, _, order, cacheKey, xxh3, _, .dict n, h, lru, used⟩, c, rows =>
    @DictTablesCaches _ _ _ order cacheKey n (neZero_shards h) xxh3 used (DictFactory.new lru) c rows

/-- The key lists of the column are those of the values that are read. -/
def Exact : (c : PlainDef d) → c.tables.State → Prop
  | ⟨_, _, _, _, _, _, .off _, _, _, _⟩, _ => True
  | ⟨_, _, order, cacheKey, xxh3, _, .index n, h, lru, used⟩, c =>
    @IndexTablesExact _ _ _ order cacheKey n (neZero_shards h) xxh3 used (IndexFactory.new lru) c
  | ⟨_, _, order, cacheKey, xxh3, _, .range n, h, lru, used⟩, c =>
    @IndexTablesExact _ _ _ order cacheKey n (neZero_shards h) xxh3 used (IndexFactory.new lru) c
  | ⟨_, _, order, cacheKey, xxh3, _, .dict n, h, lru, used⟩, c =>
    @DictTablesExact _ _ _ order cacheKey n (neZero_shards h) xxh3 used (DictFactory.new lru) c

lemma indexes : (c : PlainDef d) → c.deletes.Indexes c.births c.Tidy c.keysOf c.Caches
    c.Exact c.Indexed
  | ⟨_, V, _, _, _, _, .off n, h, _, _⟩ =>
    haveI : NeZero n := neZero_shards h
    plainDeletes_indexes n V _
  | ⟨_, _, order, cacheKey, xxh3, _, .index n, h, lru, used⟩ =>
    haveI : NeZero n := neZero_shards h
    @indexDeletes_indexes _ _ _ order cacheKey n _ xxh3 used (IndexFactory.new lru)
  | ⟨_, _, order, cacheKey, xxh3, _, .range n, h, lru, used⟩ =>
    haveI : NeZero n := neZero_shards h
    @indexDeletes_indexes _ _ _ order cacheKey n _ xxh3 used (IndexFactory.new lru)
  | ⟨_, _, order, cacheKey, xxh3, _, .dict n, h, lru, used⟩ =>
    haveI : NeZero n := neZero_shards h
    @dictDeletes_indexes _ _ _ order cacheKey n _ xxh3 used (DictFactory.new lru)

/-- The rows of a range of values are in the order of the values, and of the keys under each. -/
def RangeSorted {A : Type} (order : LinearOrder A) (rows : List (A × Key d)) : Prop :=
  rows.Pairwise fun r r' => r.1 < r'.1 ∨ r.1 = r'.1 ∧ r.2 < r'.2

/-- A range column on one shard finds the rows of a range of values, on several it panics. -/
lemma rangeOf_spec {c : PlainDef d} {s : c.tables.State} (hexact : c.Exact s) {n : ℕ}
    (hn : c.indexing = .range n) (range : c.V × c.V) : (n ≠ 1 → c.rangeOf s range = none) ∧
      (n = 1 → ∃ rows, c.rangeOf s range = some rows ∧ RangeSorted c.order rows ∧
        ∀ v k, (v, k) ∈ rows ↔ c.tables.getValue s k = some v ∧ c.order.le range.1 v ∧
          c.order.lt v range.2) := by
  obtain ⟨table, V, order, cacheKey, xxh3, asLeBytes, indexing, h, lru, used⟩ := c
  obtain rfl : indexing = .range n := hn
  have : NeZero n := neZero_shards h
  refine ⟨fun hne => ?_, fun hone => ?_⟩
  · exact congrArg (Option.map (List.map ofLex)) (if_neg hne)
  · obtain ⟨rows, hrows, hsorted, hmem⟩ := mem_indexRange n xxh3 used hexact hone range
    refine ⟨rows.map ofLex, congrArg (Option.map (List.map ofLex)) hrows, ?_, fun v k => ?_⟩
    · refine List.pairwise_map.mpr (hsorted.imp fun {r r'} hlt => ?_)
      exact Prod.Lex.lt_iff.mp hlt
    · exact (List.mem_map_of_injective ofLex.injective (a := toLex (v, k))).trans (hmem v k)

end PlainDef

/-! ### Keys that come again -/

section Unique

variable {A : Type} [LinearOrder A]

/-- The scan with a `HashSet` of what it has seen. -/
def scanUnique : Finset A → List A → List A
  | _, [] => []
  | seen, a :: as => if a ∈ seen then scanUnique seen as else a :: scanUnique (insert a seen) as

lemma mem_scanUnique {as : List A} {seen : Finset A} {a : A} :
    a ∈ scanUnique seen as ↔ a ∈ as ∧ a ∉ seen := by
  induction as generalizing seen with
  | nil => simp [scanUnique]
  | cons b as ih =>
    unfold scanUnique
    by_cases hb : b ∈ seen
    · rw [if_pos hb, ih, List.mem_cons]
      constructor
      · exact fun h => ⟨Or.inr h.1, h.2⟩
      · rintro ⟨rfl | hmem, hnot⟩
        · exact absurd hb hnot
        · exact ⟨hmem, hnot⟩
    · rw [if_neg hb, List.mem_cons, ih, List.mem_cons, Finset.mem_insert]
      by_cases hab : a = b
      · simp [hab, hb]
      · simp [hab]

/-- In ascending keys the ones that are kept ascend strictly. -/
lemma pairwise_scanUnique {as : List A} {seen : Finset A} (h : as.Pairwise (· ≤ ·)) :
    (scanUnique seen as).Pairwise (· < ·) := by
  induction as generalizing seen with
  | nil => exact List.Pairwise.nil
  | cons b as ih =>
    obtain ⟨hle, has⟩ := List.pairwise_cons.mp h
    unfold scanUnique
    split
    · exact ih has
    · refine List.pairwise_cons.mpr ⟨fun a ha => ?_, ih has⟩
      obtain ⟨hmem, hnot⟩ := mem_scanUnique.mp ha
      exact lt_of_le_of_ne (hle a hmem) fun heq => hnot (heq ▸ Finset.mem_insert_self b seen)

end Unique

/-! ### Entities -/

namespace EntityDef

section Columns

variable {d : ℕ}

/-- The number of the columns. -/
def columns : {d : ℕ} → EntityDef d → ℕ
  | _, mk _ n _ _ _ _ _ => n

/-- The definition of a column. -/
def columnDef : {d : ℕ} → (E : EntityDef d) → Fin E.columns → PlainDef d
  | _, mk _ _ _ _ column _ _, i => column i

/-- The tables of a column. -/
def columnTables : {d : ℕ} → (E : EntityDef d) → E.Tables → (i : Fin E.columns) →
    (E.columnDef i).tables.State
  | _, mk .., t, i => t.column i

/-- The value of a column in an instance. -/
def columnValue : {d : ℕ} → (E : EntityDef d) → E.Instance → (i : Fin E.columns) → (E.columnDef i).V
  | _, mk .., e, i => e.column i

/-- `get_<pk>s_by_<column>` and `stream_<pk>s_by_<column>`. -/
def getKeysBy (E : EntityDef d) (t : E.Tables) (i : Fin E.columns) (val : (E.columnDef i).V) :
    List (Key d) :=
  ((E.columnDef i).keysOf (E.columnTables t i) val).sort (· ≤ ·)

/-- `get_by_<column>`. -/
def getBy (E : EntityDef d) (t : E.Tables) (i : Fin E.columns) (val : (E.columnDef i).V) :
    Except NotFound (List E.Instance) :=
  composeManyQuery (E.compose t) (E.composeWithFilter t) ((E.getKeysBy t i val).map .ok) none

/-- `stream_by_<column>`. -/
def streamBy (E : EntityDef d) (t : E.Tables) (internal : NotFound → NotFound) (i : Fin E.columns)
    (val : (E.columnDef i).V) (query : Option E.Query) : List (Except NotFound E.Instance) :=
  composeManyStream (E.compose t) (E.composeWithFilter t) internal
    ((E.getKeysBy t i val).map .ok) query

/-- `range_by_<column>`, or a panic. -/
def rangeBy (E : EntityDef d) (t : E.Tables) (i : Fin E.columns)
    (range : (E.columnDef i).V × (E.columnDef i).V) : Option (Except NotFound (List E.Instance)) :=
  ((E.columnDef i).rangeOf (E.columnTables t i) range).map fun rows =>
    composeManyQuery (E.compose t) (E.composeWithFilter t) (rows.map fun r => .ok r.2) none

/-- `stream_range_by_<column>`, or a panic. -/
def streamRangeBy (E : EntityDef d) (t : E.Tables) (internal : NotFound → NotFound) (i : Fin E.columns)
    (range : (E.columnDef i).V × (E.columnDef i).V) (query : Option E.Query) :
    Option (List (Except NotFound E.Instance)) :=
  ((E.columnDef i).rangeOf (E.columnTables t i) range).map fun rows =>
    composeManyStream (E.compose t) (E.composeWithFilter t) internal (rows.map fun r => .ok r.2) query

/-- The number of the relationships. -/
def relationships : {d : ℕ} → EntityDef d → ℕ
  | _, mk _ _ m _ _ _ _ => m

/-- The kind of a relationship. -/
def multiplicityOf : {d : ℕ} → (E : EntityDef d) → Fin E.relationships → Multiplicity
  | _, mk _ _ _ _ _ multiplicity _, j => multiplicity j

/-- The entity of the children. -/
def childDef : {d : ℕ} → (E : EntityDef d) → (j : Fin E.relationships) →
    EntityDef ((E.multiplicityOf j).depth d)
  | _, mk _ _ _ _ _ _ child, j => child j

/-- The tables of the children. -/
def childTables : {d : ℕ} → (E : EntityDef d) → E.Tables → (j : Fin E.relationships) →
    (E.childDef j).Tables
  | _, mk .., t, j => t.relationship j

/-- The children of an instance. -/
def childrenOf : {d : ℕ} → (E : EntityDef d) → E.Instance → (j : Fin E.relationships) →
    List (E.childDef j).Instance
  | _, mk _ _ _ _ _ multiplicity _, e, j => (multiplicity j).children (e.relationship j)

/-- The keys of the parents.  Only children of one2many have the functions that need them. -/
def parentsOf : (m : Multiplicity) → List (Key (m.depth d)) → List (Key d)
  | .oneToMany, ks => ks.map Key.parent
  | .oneToOne, _ => []
  | .oneToOption, _ => []

/-- `stream_<parent>s_by_<column>` of the children `j`: their parents, each once. -/
def streamParentsBy (E : EntityDef d) (t : E.Tables) (internal : NotFound → NotFound)
    (j : Fin E.relationships) (i : Fin (E.childDef j).columns)
    (val : ((E.childDef j).columnDef i).V) (query : Option E.Query) :
    List (Except NotFound E.Instance) :=
  let pks := (E.childDef j).getKeysBy (E.childTables t j) i val
  composeManyStream (E.compose t) (E.composeWithFilter t) internal
    ((scanUnique ∅ (parentsOf (E.multiplicityOf j) pks)).map .ok) query

/-- `P` holds of the tables of the entity and, down the tree, of those of its children. -/
def AllLevels (P : ∀ d (E : EntityDef d), E.Tables → Prop) :
    {d : ℕ} → (E : EntityDef d) → E.Tables → Prop
  | _, mk bits n m order column multiplicity child, t =>
    P _ (mk bits n m order column multiplicity child) t ∧ ∀ j, (child j).AllLevels P (t.relationship j)

/-- The caches hold the values that come again, in the dictionaries of the entity and of its
children. -/
def Caches : {d : ℕ} → (E : EntityDef d) → E.Tables → List E.Instance → Prop
  | _, mk _ _ _ _ column multiplicity child, t, es =>
    (∀ i, (column i).Caches (t.column i) (es.map fun e => (e.pk, e.column i))) ∧
    ∀ j, (child j).Caches (t.relationship j)
      (es.flatMap fun e => (multiplicity j).children (e.relationship j))

/-- The key lists of the columns of the entity and of its children are those of the values that are
read. -/
def Exact : {d : ℕ} → (E : EntityDef d) → E.Tables → Prop
  | _, mk _ _ _ _ column _ child, t =>
    (∀ i, (column i).Exact (t.column i)) ∧ ∀ j, (child j).Exact (t.relationship j)

end Columns

lemma exact_empty {d : ℕ} (E : EntityDef d) : E.Exact E.empty := by
  induction E with
  | mk bits n m order column multiplicity child ih => exact ⟨fun i => (column i).indexes.empty, ih⟩

lemma Exact.deleteMany {d : ℕ} {E : EntityDef d} {t : E.Tables} (h : E.Exact t) (pks : List (Key d)) :
    E.Exact (E.deleteMany t pks).2 := by
  induction E with
  | mk bits n m order column multiplicity child ih =>
    exact ⟨fun i => (column i).indexes.deleteRows (h.1 i) pks, fun j => ih j (h.2 j) _⟩

/-- **One transaction of stores** keeps the key lists exact. -/
theorem Exact.storeMany {d : ℕ} {E : EntityDef d} {t : E.Tables} {es : List E.Instance} (h : E.Exact t)
    (htidy : E.Tidy t) (hfits : E.Fits t (.storeMany es)) (hsorted : (es.map E.pk).Pairwise (· < ·))
    (hcaches : E.Caches t es) : E.Exact (E.storeMany t es) := by
  induction E with
  | @mk d bits n m order column multiplicity child ih =>
    obtain ⟨⟨hnd, hnew⟩, hkeyed, hunborn⟩ := hfits
    refine ⟨fun i => ?_, fun j => ?_⟩
    · refine (column i).indexes.insertRows (htidy.1 i) (h.1 i) ?_ ?_ (hcaches.1 i)
      · rw [List.map_map]
        exact hsorted
      · exact List.forall_mem_map.mpr fun e he => ⟨hnew e he, hunborn.1 i e he⟩
    · have hkeyedj := fun e he => hkeyed e he j
      refine ih j (h.2 j) (htidy.2 j).2 ⟨freshKeys_children hnd hnew (htidy.2 j).1 hkeyedj,
        fun c hc => ?_, hunborn.2 j⟩ (sorted_children hsorted hkeyedj) (hcaches.2 j)
      obtain ⟨e, he, hc⟩ := List.mem_flatMap.mp hc
      exact ((hkeyedj e he).2 c hc).2

/-- What the callers of `store_many` take care of so that the key lists stay exact: the keys ascend
as well, and the caches are large enough. -/
def FitsIndexes {d : ℕ} (E : EntityDef d) (t : E.Tables) : E.Op → Prop
  | .storeMany es => E.Fits t (.storeMany es) ∧ (es.map E.pk).Pairwise (· < ·) ∧ E.Caches t es
  | .deleteMany _ => True

section Run

variable {d : ℕ} {E : EntityDef d} {t : E.Tables} {ops : List E.Op}

lemma FitsIndexes.fits {op : E.Op} (h : E.FitsIndexes t op) : E.Fits t op := by
  cases op with
  | storeMany es => exact h.1
  | deleteMany pks => trivial

lemma eachStep_fits (h : EachStep E.apply E.FitsIndexes E.empty ops) :
    EachStep E.apply E.Fits E.empty ops := fun p a hp => (h p a hp).fits

/-- **The run.** -/
lemma exact_run (E : EntityDef d) {ops : List E.Op}
    (hfits : EachStep E.apply E.FitsIndexes E.empty ops) : E.Exact (run E.apply E.empty ops) := by
  induction ops using List.reverseRecOn with
  | nil => exact E.exact_empty
  | append_singleton ops op ih =>
    have hops : EachStep E.apply E.FitsIndexes E.empty ops := fun p a hp =>
      hfits p a (hp.trans (List.prefix_append ops [op]))
    have htidy := (E.mapped_run (eachStep_fits hops)).tidy
    have hop := hfits ops op List.prefix_rfl
    rw [run_concat]
    cases op with
    | storeMany es => exact (ih hops).storeMany htidy hop.1 hop.2.1 hop.2.2
    | deleteMany pks => exact (ih hops).deleteMany pks

/-- Stores on top need only look after the caches. -/
lemma fitsIndexes_of_tops (htops : EachStep E.apply E.Tops E.empty ops)
    (hcaches : EachStep E.apply (fun t op => ∀ es, op = .storeMany es → E.Caches t es) E.empty ops) :
    EachStep E.apply E.FitsIndexes E.empty ops := by
  intro p op hp
  have hfits := eachStep_fits_of_tops htops p op hp
  have htop := htops p op hp
  cases op with
  | storeMany es => exact ⟨hfits, htop.1.1, hcaches p _ hp es rfl⟩
  | deleteMany pks => trivial

/-! ### What the reads find -/

/-- Tables whose keys are all composed. -/
structure Readable {d : ℕ} (E : EntityDef d) (t : E.Tables) : Prop where
  tidy : E.Tidy t
  read : ∀ k ∈ E.keys t, ∃ e, E.compose t k = .ok e

/-- Tables whose keys are all composed, and whose columns have exact key lists. -/
structure Queryable {d : ℕ} (E : EntityDef d) (t : E.Tables) : Prop extends E.Readable t where
  exact : E.Exact t

/-- The stored instances with `p`, in the order of their keys. -/
structure Finds {d : ℕ} (E : EntityDef d) (t : E.Tables) (p : E.Instance → Prop)
    (es : List E.Instance) : Prop where
  sorted : (es.map E.pk).Pairwise (· < ·)
  mem : ∀ e, e ∈ es ↔ E.get t (E.pk e) = .ok (some e) ∧ p e

lemma Mapped.readable {m : Key d → Option E.Instance} (h : E.Mapped t m) :
    E.Readable t := ⟨h.tidy, h.read⟩

lemma queryable_run (hfits : EachStep E.apply E.FitsIndexes E.empty ops) :
    E.Queryable (run E.apply E.empty ops) :=
  ⟨(E.mapped_run (eachStep_fits hfits)).readable, E.exact_run hfits⟩

lemma Readable.child (h : E.Readable t) (j : Fin E.relationships) :
    (E.childDef j).Readable (E.childTables t j) := by
  cases E with
  | mk bits n m order column multiplicity child =>
    refine ⟨(h.tidy.2 j).2, fun k hk => ?_⟩
    -- a child is read with its parent
    obtain ⟨p, hp, hkp⟩ := (h.tidy.2 j).1 k hk
    obtain ⟨e, he⟩ := h.read p hp
    obtain ⟨hlists, hall⟩ := (compose_eq_ok.mp he).2.2 j
    obtain ⟨c, hc, rfl⟩ := List.mem_map.mp ((hlists.2 k).mpr ⟨hk, hkp⟩)
    exact ⟨c, hall c hc⟩

lemma Queryable.child (h : E.Queryable t) (j : Fin E.relationships) :
    (E.childDef j).Queryable (E.childTables t j) := by
  refine ⟨h.toReadable.child j, ?_⟩
  cases E with
  | mk bits n m order column multiplicity child => exact h.exact.2 j

/-- What holds of all such tables holds at every level. -/
lemma Queryable.allLevels {P : ∀ d (E : EntityDef d), E.Tables → Prop}
    (hP : ∀ {d} {E : EntityDef d} {t}, E.Queryable t → P d E t) (h : E.Queryable t) :
    E.AllLevels P t := by
  induction E with
  | mk bits n m order column multiplicity child ih => exact ⟨hP h, fun j => ih j (h.child j)⟩

lemma columnValue_of_compose {k : Key d} {e : E.Instance} (h : E.compose t k = .ok e)
    (i : Fin E.columns) :
    (E.columnDef i).tables.getValue (E.columnTables t i) k = some (E.columnValue e i) := by
  cases E with
  | mk bits n m order column multiplicity child => exact (compose_eq_ok.mp h).2.1 i

lemma Tidy.column (h : E.Tidy t) (i : Fin E.columns) :
    (E.columnDef i).Tidy (E.columnTables t i) (E.keys t) := by
  cases E with
  | mk bits n m order column multiplicity child => exact h.1 i

lemma Exact.column (h : E.Exact t) (i : Fin E.columns) :
    (E.columnDef i).Exact (E.columnTables t i) := by
  cases E with
  | mk bits n m order column multiplicity child => exact h.1 i

/-- The value under a key is the one of the stored instance. -/
lemma Readable.getValue_iff (h : E.Readable t) {i : Fin E.columns} {k : Key d}
    {val : (E.columnDef i).V} : (E.columnDef i).tables.getValue (E.columnTables t i) k = some val ↔
      ∃ e, E.pk e = k ∧ E.get t k = .ok (some e) ∧ E.columnValue e i = val := by
  constructor
  · intro hval
    have hk : k ∈ E.keys t := by
      have htidy := h.tidy.column i
      refine (E.columnDef i).maps.mem_of_held htidy ((E.columnDef i).maps.held_of_read htidy ?_)
      rw [hval]
      simp
    obtain ⟨e, he⟩ := h.read k hk
    refine ⟨e, pk_compose he, get_eq_some.mpr ⟨hk, he⟩, ?_⟩
    rw [columnValue_of_compose he i] at hval
    exact Option.some.inj hval
  · rintro ⟨e, -, hget, rfl⟩
    exact columnValue_of_compose (get_eq_some.mp hget).2 i

/-- The instances of some stored keys. -/
lemma Readable.composed (h : E.Readable t) (ks : List (Key d)) (hks : ∀ k ∈ ks, k ∈ E.keys t) :
    ∃ es, E.Composed t ks es ∧ ∀ e, e ∈ es ↔ E.pk e ∈ ks ∧ E.get t (E.pk e) = .ok (some e) := by
  obtain ⟨es, hes⟩ := composed_of_read ks fun k hk => h.read k (hks k hk)
  refine ⟨es, hes, fun e => ⟨fun he => ?_, fun ⟨hk, hget⟩ => ?_⟩⟩
  · have hk : E.pk e ∈ ks := hes.pks ▸ List.mem_map_of_mem he
    exact ⟨hk, get_eq_some.mpr ⟨hks _ hk, hes.composed e he⟩⟩
  · rw [← hes.pks] at hk
    obtain ⟨e', he', hpk⟩ := List.mem_map.mp hk
    have hcompose := hes.composed e' he'
    rw [hpk, (get_eq_some.mp hget).2] at hcompose
    rwa [Except.ok.inj hcompose]

/-- The keys with a value, the instances, and what a query selects from them where they are `Kept`. -/
structure ReadsBy {d : ℕ} (E : EntityDef d) (t : E.Tables) (i : Fin E.columns)
    (val : (E.columnDef i).V) (es : List E.Instance) : Prop where
  finds : E.Finds t (fun e => E.columnValue e i = val) es
  getKeysBy : E.getKeysBy t i val = es.map E.pk
  getBy : E.getBy t i val = .ok es
  streamBy : ∀ internal, tryCollect (E.streamBy t internal i val none) = .ok es
  streamByQuery : ∀ internal q, (∀ e ∈ es, E.Kept q e) →
    tryCollect (E.streamBy t internal i val (some q)) = .ok (es.filterMap (E.select q))

lemma Readable.mem_getKeysBy (h : E.Readable t) {i : Fin E.columns} (hi : (E.columnDef i).Indexed)
    (hexact : (E.columnDef i).Exact (E.columnTables t i)) {val : (E.columnDef i).V} {k : Key d} :
    k ∈ E.getKeysBy t i val ↔
      ∃ e, E.pk e = k ∧ E.get t k = .ok (some e) ∧ E.columnValue e i = val := by
  unfold EntityDef.getKeysBy
  rw [Finset.mem_sort, (E.columnDef i).indexes.mem_keysOf hi hexact, h.getValue_iff]

/-- The reads by a column with exact key lists. -/
lemma Readable.readsBy (h : E.Readable t) {i : Fin E.columns} (hi : (E.columnDef i).Indexed)
    (hexact : (E.columnDef i).Exact (E.columnTables t i)) (val : (E.columnDef i).V) :
    ∃ es, E.ReadsBy t i val es := by
  obtain ⟨es, hes, hmem⟩ := h.composed (E.getKeysBy t i val) fun k hk => by
    obtain ⟨e, -, hget, -⟩ := (h.mem_getKeysBy hi hexact).mp hk
    exact (get_eq_some.mp hget).1
  refine ⟨es, ⟨?_, fun e => ?_⟩, hes.pks.symm, hes.list, hes.stream, fun internal q =>
    hes.stream_query internal⟩
  · rw [hes.pks]
    exact Finset.sortedLT_sort _ |>.pairwise
  · rw [hmem, h.mem_getKeysBy hi hexact]
    constructor
    · rintro ⟨⟨e', -, hget', hval⟩, hget⟩
      rw [hget'] at hget
      obtain rfl := Option.some.inj (Except.ok.inj hget)
      exact ⟨hget', hval⟩
    · exact fun ⟨hget, hval⟩ => ⟨⟨e, rfl, hget, hval⟩, hget⟩

/-- **Reading by a column.**  After any stores and deletes, at every level of the entity tree and
for every value of an index, range or dictionary column: `get_<pk>s_by`, `get_by` and `stream_by`
find just the stored instances with the value, in the order of their keys. -/
theorem readsBy_run (E : EntityDef d) (ops : List E.Op)
    (hfits : EachStep E.apply E.FitsIndexes E.empty ops) :
    E.AllLevels (fun _ E t => ∀ i, (E.columnDef i).Indexed → ∀ val, ∃ es, E.ReadsBy t i val es)
      (run E.apply E.empty ops) :=
  (queryable_run hfits).allLevels fun h i hi val => h.readsBy hi (h.exact.column i) val

/-! ### Parents -/

lemma childrenOf_compose {k : Key d} {e : E.Instance} (h : E.compose t k = .ok e)
    {j : Fin E.relationships} {c : (E.childDef j).Instance} (hc : c ∈ E.childrenOf e j) :
    (E.childDef j).get (E.childTables t j) ((E.childDef j).pk c) = .ok (some c) ∧
      IsChildKey E.bits k (E.multiplicityOf j) ((E.childDef j).pk c) := by
  cases E with
  | mk bits n m order column multiplicity child =>
    obtain ⟨hlists, hall⟩ := (compose_eq_ok.mp h).2.2 j
    obtain ⟨hk, hchild⟩ := (hlists.2 _).mp (List.mem_map_of_mem hc)
    exact ⟨get_eq_some.mpr ⟨hk, hall c hc⟩, hchild⟩

/-- Every stored child is under a stored parent. -/
lemma Readable.parent (h : E.Readable t) {j : Fin E.relationships} {c : (E.childDef j).Instance}
    (hc : (E.childDef j).get (E.childTables t j) ((E.childDef j).pk c) = .ok (some c)) :
    ∃ e, E.get t (E.pk e) = .ok (some e) ∧ c ∈ E.childrenOf e j ∧
      IsChildKey E.bits (E.pk e) (E.multiplicityOf j) ((E.childDef j).pk c) := by
  cases E with
  | mk bits n m order column multiplicity child =>
    obtain ⟨hk, hcompose⟩ := get_eq_some.mp hc
    obtain ⟨p, hp, hkp⟩ := (h.tidy.2 j).1 _ hk
    obtain ⟨e, he⟩ := h.read p hp
    obtain rfl := pk_compose he
    obtain ⟨hlists, hall⟩ := (compose_eq_ok.mp he).2.2 j
    obtain ⟨c', hc', hpk⟩ := List.mem_map.mp ((hlists.2 _).mpr ⟨hk, hkp⟩)
    refine ⟨e, get_eq_some.mpr ⟨hp, he⟩, ?_, hkp⟩
    have hcompose' := hall c' hc'
    rw [hpk, show (child j).compose (t.relationship j) _ = _ from hcompose] at hcompose'
    rwa [Except.ok.inj hcompose']

lemma parentsOf_sorted : ∀ {m : Multiplicity} {ks : List (Key (m.depth d))}, ks.Pairwise (· < ·) →
    (parentsOf m ks).Pairwise (· ≤ ·)
  | .oneToOption, _, _ => List.Pairwise.nil
  | .oneToOne, _, _ => List.Pairwise.nil
  | .oneToMany, ks, h => by
    refine List.pairwise_map.mpr (h.imp fun {k k'} hlt => ?_)
    rw [← Key.fromParent_parent k, ← Key.fromParent_parent k'] at hlt
    exact Key.parent_le_of_fromParent_le hlt.le

lemma mem_parentsOf (bits : ℕ) {p : Key d} :
    ∀ {m : Multiplicity} {ks : List (Key (m.depth d))}, m = .oneToMany →
    (∀ k ∈ ks, ∃ q, IsChildKey bits q m k) → (p ∈ parentsOf m ks ↔ ∃ k ∈ ks, IsChildKey bits p m k)
  | .oneToMany, ks, _, h => by
    refine List.mem_map.trans (exists_congr fun k => and_congr_right fun hk => ?_)
    obtain ⟨q, hq⟩ := h k hk
    constructor
    · rintro rfl
      rw [hq.1]
      exact ⟨hq.1, hq.2⟩
    · exact fun hp => hp.1

/-- **Reading the parents by a column of the children.**  After any stores and deletes, at every
level and for every value of an index, range or dictionary column of one2many children:
`stream_parents_by` finds just the stored instances that have a child with the value, each once, in
the order of their keys. -/
theorem streamParentsBy_run (E : EntityDef d) (ops : List E.Op)
    (hfits : EachStep E.apply E.FitsIndexes E.empty ops) :
    E.AllLevels (fun _ E t => ∀ j, E.multiplicityOf j = .oneToMany →
      ∀ i, ((E.childDef j).columnDef i).Indexed → ∀ val,
      ∃ es, E.Finds t (fun e => ∃ c ∈ E.childrenOf e j, (E.childDef j).columnValue c i = val) es ∧
        ∀ internal, tryCollect (E.streamParentsBy t internal j i val none) = .ok es ∧
          ∀ q, (∀ e ∈ es, E.Kept q e) →
            tryCollect (E.streamParentsBy t internal j i val (some q)) =
              .ok (es.filterMap (E.select q)))
      (run E.apply E.empty ops) := by
  refine (queryable_run hfits).allLevels fun {d E t} h j hmany i hi val => ?_
  have hchild : (E.childDef j).Queryable (E.childTables t j) := h.child j
  have hkeys : ∀ k, k ∈ (E.childDef j).getKeysBy (E.childTables t j) i val ↔ _ := fun k =>
    hchild.mem_getKeysBy hi (hchild.exact.column i)
  have hsorted : ((E.childDef j).getKeysBy (E.childTables t j) i val).Pairwise (· < ·) :=
    Finset.sortedLT_sort _ |>.pairwise
  have hparents : ∀ p, p ∈ scanUnique ∅ (parentsOf (E.multiplicityOf j)
      ((E.childDef j).getKeysBy (E.childTables t j) i val)) ↔
        ∃ e, E.pk e = p ∧ E.get t p = .ok (some e) ∧
          ∃ c ∈ E.childrenOf e j, (E.childDef j).columnValue c i = val := by
    intro p
    rw [mem_scanUnique, and_iff_left (Finset.notMem_empty p), mem_parentsOf E.bits hmany]
    · constructor
      · rintro ⟨k, hk, hkp⟩
        obtain ⟨c, rfl, hc, hval⟩ := (hkeys k).mp hk
        obtain ⟨e, he, hmem, hke⟩ := h.parent hc
        obtain rfl := hke.unique hkp
        exact ⟨e, rfl, he, c, hmem, hval⟩
      · rintro ⟨e, rfl, he, c, hc, hval⟩
        obtain ⟨hget, hkp⟩ := childrenOf_compose (get_eq_some.mp he).2 hc
        exact ⟨_, (hkeys _).mpr ⟨c, rfl, hget, hval⟩, hkp⟩
    · intro k hk
      obtain ⟨c, rfl, hc, -⟩ := (hkeys k).mp hk
      obtain ⟨e, -, -, hke⟩ := h.parent hc
      exact ⟨E.pk e, hke⟩
  obtain ⟨es, hes, hmem⟩ := h.composed (scanUnique ∅ _) fun p hp => by
    obtain ⟨e, -, he, -⟩ := (hparents p).mp hp
    exact (get_eq_some.mp he).1
  refine ⟨es, ⟨?_, fun e => ?_⟩, fun internal =>
    ⟨hes.stream internal, fun q => hes.stream_query internal⟩⟩
  · rw [hes.pks]
    exact pairwise_scanUnique (parentsOf_sorted hsorted)
  · rw [hmem, hparents]
    constructor
    · rintro ⟨⟨e', -, hget', hval⟩, hget⟩
      rw [hget'] at hget
      obtain rfl := Option.some.inj (Except.ok.inj hget)
      exact ⟨hget', hval⟩
    · exact fun ⟨hget, hval⟩ => ⟨⟨e, rfl, hget, hval⟩, hget⟩

/-! ### Ranges of values -/

/-- Rows whose values are those of the instances. -/
lemma rows_eq_map {A V : Type} {value : A → V} {key : A → Key d} :
    ∀ {rows : List (V × Key d)} {es : List A},
    es.map key = rows.map Prod.snd → (∀ e ∈ es, ∀ v, (v, key e) ∈ rows → v = value e) →
      rows = es.map fun e => (value e, key e)
  | [], [], _, _ => rfl
  | (v, k) :: rows, e :: es, h, hvalue => by
    rw [List.map_cons, List.map_cons, List.cons.injEq] at h
    obtain ⟨hk, hrest⟩ := h
    obtain rfl : k = key e := hk.symm
    rw [List.map_cons, ← hvalue e List.mem_cons_self v List.mem_cons_self]
    exact congrArg _ (rows_eq_map hrest fun e' he' v' hv' =>
      hvalue e' (List.mem_cons_of_mem e he') v' (List.mem_cons_of_mem _ hv'))

/-- **Reading a range of values.**  After any stores and deletes, at every level: `range_by` and
`stream_range_by` of a range column on one shard find just the stored instances with a value from
`from` up to `until`, in the order of the values and, under each, of the keys.  On several shards
they panic. -/
theorem rangeBy_run (E : EntityDef d) (ops : List E.Op)
    (hfits : EachStep E.apply E.FitsIndexes E.empty ops) :
    E.AllLevels (fun _ E t => ∀ i n, (E.columnDef i).indexing = .range n → ∀ range,
      (n ≠ 1 → E.rangeBy t i range = none ∧
        ∀ internal query, E.streamRangeBy t internal i range query = none) ∧
      (n = 1 → ∃ es, (∀ e, e ∈ es ↔ E.get t (E.pk e) = .ok (some e) ∧
          (E.columnDef i).order.le range.1 (E.columnValue e i) ∧
            (E.columnDef i).order.lt (E.columnValue e i) range.2) ∧
        PlainDef.RangeSorted (E.columnDef i).order (es.map fun e => (E.columnValue e i, E.pk e)) ∧
        E.rangeBy t i range = some (.ok es) ∧
        ∀ internal, (E.streamRangeBy t internal i range none).map tryCollect = some (.ok es) ∧
          ∀ q, (∀ e ∈ es, E.Kept q e) → (E.streamRangeBy t internal i range (some q)).map tryCollect =
            some (.ok (es.filterMap (E.select q)))))
      (run E.apply E.empty ops) := by
  refine (queryable_run hfits).allLevels fun {d E t} h i n hn range => ?_
  obtain ⟨hpanic, hrows⟩ := PlainDef.rangeOf_spec (h.exact.column i) hn range
  refine ⟨fun hne => ?_, fun hone => ?_⟩
  · unfold EntityDef.rangeBy EntityDef.streamRangeBy
    rw [hpanic hne]
    exact ⟨rfl, fun _ _ => rfl⟩
  · obtain ⟨rows, hrange, hsorted, hmem⟩ := hrows hone
    have hvalue := fun v k => (hmem v k).trans (and_congr_left fun _ => h.getValue_iff)
    obtain ⟨es, hes, hstored⟩ := h.composed (rows.map Prod.snd) fun k hk => by
      obtain ⟨⟨v, k⟩, hr, rfl⟩ := List.mem_map.mp hk
      obtain ⟨⟨e, -, hget, -⟩, -⟩ := (hvalue v k).mp hr
      exact (get_eq_some.mp hget).1
    have hrow : ∀ e, E.get t (E.pk e) = .ok (some e) → ∀ v, (v, E.pk e) ∈ rows →
        v = E.columnValue e i := by
      intro e hget v hv
      obtain ⟨⟨e', -, hget', hval⟩, -⟩ := (hvalue v (E.pk e)).mp hv
      rw [hget'] at hget
      rw [← Option.some.inj (Except.ok.inj hget), hval]
    have heq : rows = es.map fun e => (E.columnValue e i, E.pk e) :=
      rows_eq_map hes.pks fun e he => hrow e ((hstored e).mp he).2
    have hkeys : rows.map (fun r => (Except.ok r.2 : Except NotFound (Key d))) =
        (rows.map Prod.snd).map Except.ok := by
      rw [List.map_map]
      rfl
    refine ⟨es, fun e => ?_, heq ▸ hsorted, ?_, fun internal => ⟨?_, fun q hkept => ?_⟩⟩
    · rw [hstored]
      constructor
      · rintro ⟨hk, hget⟩
        obtain ⟨⟨v, k⟩, hr, hrk⟩ := List.mem_map.mp hk
        obtain rfl : k = E.pk e := hrk
        rw [← hrow e hget v hr]
        exact ⟨hget, ((hvalue v _).mp hr).2⟩
      · rintro ⟨hget, hbounds⟩
        exact ⟨List.mem_map.mpr ⟨_, (hvalue _ _).mpr ⟨⟨e, rfl, hget, rfl⟩, hbounds⟩, rfl⟩, hget⟩
    · unfold EntityDef.rangeBy
      rw [hrange, Option.map_some, hkeys]
      exact congrArg some hes.list
    · unfold EntityDef.streamRangeBy
      rw [hrange, Option.map_some, Option.map_some, hkeys]
      exact congrArg some (hes.stream internal)
    · unfold EntityDef.streamRangeBy
      rw [hrange, Option.map_some, Option.map_some, hkeys]
      exact congrArg some (hes.stream_query internal hkept)

end Run

end EntityDef

/-! ### Who was paid -/

/-- Two values are at most one apart from each other. -/
lemma repeatsCached_of_length {V : Type} [LinearOrder V] {cap : ℕ} {known : V → Prop} {vs : List V}
    (h : vs.length < cap + 2) : RepeatsCached cap known vs := by
  rintro xs v mid ys rfl - -
  have hcard := mid.toFinset_card_le
  simp only [List.length_append, List.length_cons] at h
  omega

/-- The relationship of the blocks. -/
def outputs : Fin ledgerDef.relationships := (0 : Fin 1)

/-- The column of the outputs. -/
def address : Fin (ledgerDef.childDef outputs).columns := (0 : Fin 1)

/-- The outputs of payments. -/
def outputsOf (ps : List (ℕ × ℕ)) : List outputDef.Instance :=
  ps.map fun p => ⟨(Key.root p.1).fromParent 0, fun _ => p.2, fun j => j.elim0⟩

lemma flatMap_payment (ps : List (ℕ × ℕ)) :
    (ps.map fun p => payment p.1 p.2).flatMap (fun e => ledgerDef.childrenOf e outputs) =
      outputsOf ps := by
  induction ps with
  | nil => rfl
  | cons p ps ih => exact congrArg (List.cons _) ih

lemma caches_payments (t : ledgerDef.Tables) (ps : List (ℕ × ℕ)) (h : ps.length < 3) :
    ledgerDef.Caches t (ps.map fun p => payment p.1 p.2) := by
  have houtputs : ∀ t : outputDef.Tables, outputDef.Caches t (outputsOf ps) := by
    refine fun t => ⟨fun _ i _ => repeatsCached_of_length (lt_of_le_of_lt ?_ h), fun j => j.elim0⟩
    refine le_of_eq_of_le (List.length_map _) ((List.length_filter_le _ _).trans (le_of_eq ?_))
    exact (List.length_map _).trans (List.length_map _)
  refine ⟨fun i => i.elim0, Fin.forall_fin_one.mpr ?_⟩
  exact (congrArg (outputDef.Caches _) (flatMap_payment ps)).mpr (houtputs _)

lemma fitsIndexes_paymentOps : EachStep ledgerDef.apply ledgerDef.FitsIndexes ledgerDef.empty
    paymentOps := by
  refine EntityDef.fitsIndexes_of_tops tops_paymentOps (eachStep_cons.mpr ⟨?_, eachStep_cons.mpr ⟨?_,
    eachStep_cons.mpr ⟨?_, eachStep_nil _ _⟩⟩⟩)
  · rintro es heq
    obtain rfl := EntityDef.Op.storeMany.inj heq
    exact caches_payments _ [(1, 10), (2, 10)] (by decide)
  · rintro es heq
    cases heq
  · rintro es heq
    obtain rfl := EntityDef.Op.storeMany.inj heq
    exact caches_payments _ [(3, 12)] (by decide)

/-- The outputs with the address 10 are read by it. -/
theorem readsBy_run_payments :
    let t := ledgerDef.childTables (run ledgerDef.apply ledgerDef.empty paymentOps) outputs
    ∃ es, (ledgerDef.childDef outputs).ReadsBy t address (10 : ℕ) es :=
  ((ledgerDef.readsBy_run paymentOps fitsIndexes_paymentOps).2 outputs).1 address trivial (10 : ℕ)

/-- The blocks that are left. -/
lemma paymentOps_map {k : Key 0} {e : ledgerDef.Instance}
    (h : run ledgerDef.mapOp (fun _ => none) paymentOps k = some e) :
    e = payment 2 10 ∨ e = payment 3 12 := by
  replace h : putMap (fun k => if k ∈ [Key.root 1] then none else
    putMap (putMap (fun _ => none) (Key.root 1) _) (Key.root 2) _ k) (Key.root 3) _ k = some e := h
  by_cases h3 : k = Key.root 3
  · rw [h3, putMap_self] at h
    exact Or.inr (Option.some.inj h).symm
  rw [putMap_of_ne _ _ h3] at h
  split at h
  · cases h
  rename_i h1
  by_cases h2 : k = Key.root 2
  · rw [h2, putMap_self] at h
    exact Or.inl (Option.some.inj h).symm
  · rw [putMap_of_ne _ _ h2, putMap_of_ne _ _ (by simpa using h1)] at h
    cases h

/-- The block 2 is the only one that pays the address 10. -/
theorem streamParentsBy_run_payments :
    let t := run ledgerDef.apply ledgerDef.empty paymentOps
    tryCollect (ledgerDef.streamParentsBy t id outputs address (10 : ℕ) none) =
      .ok [payment 2 10] := by
  intro t
  obtain ⟨es, hfinds, hstream⟩ :=
    (ledgerDef.streamParentsBy_run paymentOps fitsIndexes_paymentOps).1 outputs rfl address
      trivial (10 : ℕ)
  refine (hstream id).1.trans (congrArg Except.ok ?_)
  have hmap := (ledgerDef.mapped_run (EntityDef.eachStep_fits fitsIndexes_paymentOps)).get
  have hpays : payment 2 10 ∈ es := (hfinds.mem _).mpr
    ⟨hmap (Key.root 2), _, List.mem_singleton_self _, rfl⟩
  have honly : ∀ e ∈ es, e = payment 2 10 := by
    intro e he
    obtain ⟨hget, c, hc, hval⟩ := (hfinds.mem e).mp he
    rcases paymentOps_map (Except.ok.inj ((hmap _).symm.trans hget)) with rfl | rfl
    · rfl
    · -- the block 3 pays another address
      obtain rfl := List.mem_singleton.mp hc
      cases hval
  have hnd : es.Nodup := List.Nodup.of_map _ (hfinds.sorted.imp ne_of_lt)
  have hes : es = List.replicate es.length (payment 2 10) := List.eq_replicate_of_mem honly
  rw [hes] at hnd ⊢
  have hle : es.length ≤ 1 := List.nodup_replicate.mp hnd
  have hpos : 0 < es.length := List.length_pos_of_mem hpays
  have hone : es.length = 1 := le_antisymm hle hpos
  rw [hone]
  rfl

/-! ### When it was -/

lemma one_shard : (IndexingType.range 1).shards ≠ 0 := one_ne_zero

/-- A range column on one shard. -/
def timestampColumn : PlainDef 0 where
  table := "header_timestamp_by_height"
  V := ℕ
  order := inferInstance
  cacheKey := inferInstance
  xxh3 := id
  asLeBytes _ := []
  indexing := .range 1
  shards_ne_zero := one_shard
  lruCapacity := 1
  used := false

/-- Headers, with a timestamp. -/
def headerDef : EntityDef 0 := .mk 32 1 0 (.columnsFirst 1 0) (fun _ => timestampColumn) Fin.elim0
    fun j => j.elim0

/-- A header of a time. -/
def headerAt (height timestamp : ℕ) :
    headerDef.Instance := ⟨Key.root height, fun _ => timestamp, fun j => j.elim0⟩

/-- The column of the headers. -/
def timestamp : Fin headerDef.columns := (0 : Fin 1)

/-- The second header is older than the first. -/
def headerOps : List headerDef.Op := [.storeMany [headerAt 1 30, headerAt 2 10]]

lemma fitsIndexes_headerOps : EachStep headerDef.apply headerDef.FitsIndexes headerDef.empty
    headerOps := by
  have hsorted : [Key.root 1, Key.root 2].Pairwise (· < ·) := by decide
  refine EntityDef.fitsIndexes_of_tops
    (eachStep_cons.mpr ⟨⟨⟨hsorted, fun e _ k hk => ?_⟩, fun e _ j => j.elim0⟩,
    eachStep_nil _ _⟩) (eachStep_cons.mpr ⟨fun es _ => ⟨fun _ => trivial, fun j => j.elim0⟩,
      eachStep_nil _ _⟩)
  rw [headerDef.sound_empty.2] at hk
  exact absurd hk (Finset.notMem_empty k)

/-- The header of the time 10 is in the range from 5 up to 20, and that of the time 30 is not. -/
theorem rangeBy_run_headers :
    let t := run headerDef.apply headerDef.empty headerOps
    ∃ es, headerDef.rangeBy t timestamp ((5 : ℕ), (20 : ℕ)) = some (.ok es) ∧ headerAt 2 10 ∈ es ∧
      headerAt 1 30 ∉ es := by
  intro t
  obtain ⟨es, hmem, -, hrange, -⟩ :=
    ((headerDef.rangeBy_run headerOps fitsIndexes_headerOps).1 timestamp 1 rfl
      ((5 : ℕ), (20 : ℕ))).2 rfl
  have hmap := (headerDef.mapped_run (EntityDef.eachStep_fits fitsIndexes_headerOps)).get
  refine ⟨es, hrange, (hmem _).mpr ⟨hmap (Key.root 2), ?_⟩, fun h => ?_⟩
  · exact show (5 : ℕ) ≤ 10 ∧ (10 : ℕ) < 20 by decide
  · exact absurd ((hmem _).mp h).2.2 (show ¬ (30 : ℕ) < 20 by decide)

end Redbit.Entity
