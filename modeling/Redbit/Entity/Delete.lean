import Redbit.Entity.Replace
import Redbit.Storage.Erase

/-!
# Deleting an entity tree (`entity/delete.rs`, `relationship/delete.rs`, `pk/pk_range.rs`)

`delete` and `delete_many` delete the keys, the rows of the columns and, relationship by
relationship, the children: one2one and one2opt children by the key of their parent, one2many
children by the range of the keys under it.  The range is empty for a parent with the last index of
its type, whose children are then left behind; a key with rows in several shards of a column loses
one of them only; and a reverse row that an overwrite has left is not found.  `EntityDef.Reached` is
the exact condition under which whole subtrees go and nothing else.
-/

set_option linter.unusedSectionVars false

namespace Redbit.Entity

open Redbit.Lib Redbit.Storage

/-! ### Columns -/

/-- The deletes of a column: `deleteRows` deletes keys one after the other and says whether all were
found.  `rows` are all rows of a key, in every table of every shard, and `noRows` is that there is
none; `held` is the number of shards that find the key, and `Stray` says that a reverse table has it
under a row that is not its own. -/
structure ColumnDeletes {K V : Type} (C : ColumnTables K V) where
  deleteRows : C.State → List K → Bool × C.State
  Rows : Type
  rows : C.State → K → Rows
  noRows : Rows
  held : C.State → K → ℕ
  Stray : C.State → K → Prop

/-- What is proved of the deletes of a column; `Listed` holds of all columns that inserts and
deletes make. -/
structure ColumnDeletes.Lawful {K V : Type} [LinearOrder K] {C : ColumnTables K V}
    (D : ColumnDeletes C) (Listed : C.State → Prop) : Prop where
  empty : Listed C.empty
  insertRows : ∀ {s}, Listed s → ∀ rows, Listed (C.insertRows s rows)
  deleteRows : ∀ {s}, Listed s → ∀ ks, Listed (D.deleteRows s ks).2
  held : ∀ {s}, Listed s → ∀ ks k, D.held (D.deleteRows s ks).2 k = D.held s k - ks.count k
  frame : ∀ {s}, Listed s → ∀ ks k, k ∉ ks → C.getValue (D.deleteRows s ks).2 k = C.getValue s k
  rows_frame : ∀ {s}, Listed s → ∀ ks k, k ∉ ks → D.rows (D.deleteRows s ks).2 k = D.rows s k
  rows_eq : ∀ {s k}, D.rows s k = D.noRows ↔ D.held s k = 0 ∧ ¬ D.Stray s k
  stray : ∀ {s}, Listed s → ∀ ks k, D.Stray (D.deleteRows s ks).2 k ↔ D.Stray s k

section Columns

variable {K V : Type} [LinearOrder K] [LinearOrder V] [CacheKey V] (n : ℕ) [NeZero n] (hash : V → ℕ)
  (now : Bool)

/-- A plain column. -/
def plainDeletes (V : Type) (part : K → Fin n) : ColumnDeletes (plainTables n V part) where
  deleteRows := plainDeleteRows part
  Rows := Fin n → Option V
  rows c k i := (c i).get k
  noRows _ := none
  held := plainHeld
  Stray _ _ := False

/-- An index column. -/
def indexDeletes (f : IndexFactory) : ColumnDeletes (indexTables n hash now f : ColumnTables K V) where
  deleteRows c ks :=
    ((c.1.deleteRows (indexShard f) ks).1, ⟨_, c.2.deleteRows (indexShard_erases f now) ks⟩)
  Rows := Fin n → Option V × Set V
  rows c k := Column.rows indexLinks c.1 k
  noRows _ := (none, ∅)
  held c k := Column.held (indexShard f) c.1 k
  Stray c k := Column.Stray indexLinks c.1 k

/-- A dictionary column. -/
def dictDeletes (f : DictFactory) : ColumnDeletes (dictTables n hash now f : ColumnTables K V) where
  deleteRows c ks :=
    ((c.1.deleteRows (dictShard f) ks).1, ⟨_, c.2.deleteRows (dictShard_erases f now) ks⟩)
  Rows := Fin n → Option K × Set K
  rows c k := Column.rows dictLinks c.1 k
  noRows _ := (none, ∅)
  held c k := Column.held (dictShard f) c.1 k
  Stray c k := Column.Stray dictLinks c.1 k

lemma plainDeletes_lawful (V : Type) (part : K → Fin n) :
    (plainDeletes n V part).Lawful (PlainPlaced part) where
  empty _ k hk := absurd (Table.get_empty k) hk
  insertRows h rows := h.insertRows rows
  deleteRows h ks := h.deleteRows ks
  held h ks k := plainHeld_deleteRows h ks k
  frame h ks k hk := (get_plainDeleteRows h ks (part k) k).trans (if_neg hk)
  rows_frame h ks k hk := funext fun i => (get_plainDeleteRows h ks i k).trans (if_neg hk)
  rows_eq {s k} := by
    refine Iff.trans ?_ (and_iff_left not_false).symm
    show (fun i => (s i).get k) = (fun _ => none) ↔ plainHeld s k = 0
    unfold plainHeld
    rw [Finset.card_eq_zero, Finset.filter_eq_empty_iff, funext_iff]
    simp
  stray _ _ _ := Iff.rfl

/-- A column whose rows of a key are the same in all shards reads the key the same. -/
lemma getValue_congr {T : Type} {S : ShardTable T K V} {c c' : Column n T} {k : K}
    (h : ∀ i, S.find (c' i) k = S.find (c i) k) : c'.getValue S k = c.getValue S k := by
  unfold Column.getValue
  simp only [h]

lemma indexDeletes_lawful (f : IndexFactory) :
    (indexDeletes n hash now f : ColumnDeletes (indexTables n hash now f : ColumnTables K V)).Lawful
      fun c => ∀ i, IndexListed (c.1 i) where
  empty _ k v hk := absurd hk (Table.get_empty_ne_some k v)
  insertRows h rows i := Column.listed_insertRows (indexShard_erases f now) h rows i
  deleteRows h ks := (Column.deleteRows_spec (indexShard_erases f now) h ks).1
  held h ks := (Column.deleteRows_spec (indexShard_erases f now) h ks).2.1
  frame h ks k hk := getValue_congr n
    ((Column.deleteRows_spec (indexShard_erases f now) h ks).2.2 k hk)
  rows_frame _ _ _ hk := Column.rows_deleteRows (indexShard_unlinks f) hk
  rows_eq := Column.rows_eq_none (indexShard_unlinks f)
  stray _ ks k := Column.stray_deleteRows (indexShard_unlinks f) ks k

lemma dictDeletes_lawful (f : DictFactory) :
    (dictDeletes n hash now f : ColumnDeletes (dictTables n hash now f : ColumnTables K V)).Lawful
      fun c => ∀ i, DictListed (c.1 i) where
  empty _ k b hk := absurd hk (Table.get_empty_ne_some k b)
  insertRows h rows i := Column.listed_insertRows (dictShard_erases f now) h rows i
  deleteRows h ks := (Column.deleteRows_spec (dictShard_erases f now) h ks).1
  held h ks := (Column.deleteRows_spec (dictShard_erases f now) h ks).2.1
  frame h ks k hk := getValue_congr n ((Column.deleteRows_spec (dictShard_erases f now) h ks).2.2 k hk)
  rows_frame _ _ _ hk := Column.rows_deleteRows (dictShard_unlinks f) hk
  rows_eq := Column.rows_eq_none (dictShard_unlinks f)
  stray _ ks k := Column.stray_deleteRows (dictShard_unlinks f) ks k

end Columns

/-- The deletes of a column. -/
def PlainDef.deletes {d : ℕ} : (c : PlainDef d) → ColumnDeletes c.tables
  | ⟨_, V, _, _, _, asLeBytes, .off n, h, _, _⟩ =>
    haveI : NeZero n := neZero_shards h
    plainDeletes n V fun k => partitionBytesLe n (asLeBytes k)
  | ⟨_, _, order, cacheKey, xxh3, _, .index n, h, lru, used⟩ =>
    haveI : NeZero n := neZero_shards h
    @indexDeletes _ _ _ order cacheKey n _ xxh3 used (IndexFactory.new lru)
  | ⟨_, _, order, cacheKey, xxh3, _, .range n, h, lru, used⟩ =>
    haveI : NeZero n := neZero_shards h
    @indexDeletes _ _ _ order cacheKey n _ xxh3 used (IndexFactory.new lru)
  | ⟨_, _, order, cacheKey, xxh3, _, .dict n, h, lru, used⟩ =>
    haveI : NeZero n := neZero_shards h
    @dictDeletes _ _ _ order cacheKey n _ xxh3 used (DictFactory.new lru)

/-- The rows are where the deletes of the column look for them. -/
def PlainDef.Listed {d : ℕ} : (c : PlainDef d) → c.tables.State → Prop
  | ⟨_, _, _, _, _, asLeBytes, .off n, h, _, _⟩, c =>
    haveI : NeZero n := neZero_shards h
    PlainPlaced (fun k => partitionBytesLe n (asLeBytes k)) c
  | ⟨_, _, _, _, _, _, .index _, _, _, _⟩, c => ∀ i, IndexListed (c.1 i)
  | ⟨_, _, _, _, _, _, .range _, _, _, _⟩, c => ∀ i, IndexListed (c.1 i)
  | ⟨_, _, _, _, _, _, .dict _, _, _, _⟩, c => ∀ i, DictListed (c.1 i)

lemma PlainDef.deletes_lawful {d : ℕ} : (c : PlainDef d) → c.deletes.Lawful c.Listed
  | ⟨_, V, _, _, _, _, .off n, h, _, _⟩ =>
    haveI : NeZero n := neZero_shards h
    plainDeletes_lawful n V _
  | ⟨_, _, order, cacheKey, xxh3, _, .index n, h, lru, used⟩ =>
    haveI : NeZero n := neZero_shards h
    @indexDeletes_lawful _ _ _ order cacheKey n _ xxh3 used (IndexFactory.new lru)
  | ⟨_, _, order, cacheKey, xxh3, _, .range n, h, lru, used⟩ =>
    haveI : NeZero n := neZero_shards h
    @indexDeletes_lawful _ _ _ order cacheKey n _ xxh3 used (IndexFactory.new lru)
  | ⟨_, _, order, cacheKey, xxh3, _, .dict n, h, lru, used⟩ =>
    haveI : NeZero n := neZero_shards h
    @dictDeletes_lawful _ _ _ order cacheKey n _ xxh3 used (DictFactory.new lru)

/-! ### Deletes -/

section Keys

variable {d : ℕ}

/-- `delete_kv` on the table of the keys, one key after the other. -/
def deleteKeys (keys : Finset (Key d)) (pks : List (Key d)) : Bool × Finset (Key d) :=
  pks.foldl (fun r pk => (r.1 && decide (pk ∈ r.2), r.2.erase pk)) (true, keys)

/-- `pk_range` of an entity with the rows `keys`. -/
def pkRange (keys : Finset (Key d)) (range : Key d × Key d) : List (Key d) :=
  (keys.filter fun k => range.1 ≤ k ∧ k < range.2).sort (· ≤ ·)

/-- `one2one_delete_def`, `one2opt_delete_def` and `one2many_delete_def`, with the `delete` and
`delete_many` of the child. -/
def deleteChildren {R : Type} (bits : ℕ) (pk : Key d) : (m : Multiplicity) → Finset (Key (m.depth d)) →
    (Key (m.depth d) → R) → (List (Key (m.depth d)) → R) → R
  | .oneToOption, _, delete, _ => delete pk
  | .oneToOne, _, delete, _ => delete pk
  | .oneToMany, keys, _, deleteMany => deleteMany (pkRange keys (pk.fkRange bits))

/-- The keys that `one2one_delete_many_def`, `one2opt_delete_many_def` and
`one2many_delete_many_def` give to the `delete_many` of the child. -/
def childPks (bits : ℕ) : (m : Multiplicity) → Finset (Key (m.depth d)) → List (Key d) →
    List (Key (m.depth d))
  | .oneToOption, _, pks => pks
  | .oneToOne, _, pks => pks
  | .oneToMany, keys, pks => pks.flatMap fun pk => pkRange keys (pk.fkRange bits)

/-- The end of the delete statements: whether everything was found, where an optional child need not
be, and the tables. -/
def deleted {n m : ℕ} {C : Fin n → Type} {R : Fin m → Type} (keys : Bool × Finset (Key d))
    (columns : ∀ i, Bool × C i) (multiplicity : Fin m → Multiplicity) (children : ∀ j, Bool × R j) :
    Bool × EntityTables d C R :=
  (keys.1 && decide (∀ i, (columns i).1 = true) &&
      decide (∀ j, multiplicity j = .oneToOption ∨ (children j).1 = true),
    ⟨keys.2, fun i => (columns i).2, fun j => (children j).2⟩)

end Keys

namespace EntityDef

/-- `delete_many`. -/
def deleteMany : {d : ℕ} → (E : EntityDef d) → E.Tables → List (Key d) → Bool × E.Tables
  | _, mk bits _ _ _ column multiplicity child, t, pks =>
    deleted (deleteKeys t.keys pks) (fun i => (column i).deletes.deleteRows (t.column i) pks)
      multiplicity fun j => (child j).deleteMany (t.relationship j)
        (childPks bits (multiplicity j) ((child j).keys (t.relationship j)) pks)

/-- `delete`. -/
def delete : {d : ℕ} → (E : EntityDef d) → E.Tables → Key d → Bool × E.Tables
  | _, mk bits _ _ _ column multiplicity child, t, pk =>
    deleted (deleteKeys t.keys [pk]) (fun i => (column i).deletes.deleteRows (t.column i) [pk])
      multiplicity
      fun j => deleteChildren bits pk (multiplicity j) ((child j).keys (t.relationship j))
        ((child j).delete (t.relationship j)) ((child j).deleteMany (t.relationship j))

/-- The transactions that make a database. -/
inductive Op {d : ℕ} (E : EntityDef d) where
  | storeMany (instances : List E.Instance)
  | deleteMany (pks : List (Key d))

/-- A transaction. -/
def apply {d : ℕ} (E : EntityDef d) (t : E.Tables) : E.Op → E.Tables
  | .storeMany instances => E.storeMany t instances
  | .deleteMany pks => (E.deleteMany t pks).2

end EntityDef

/-! ### What a delete is for -/

/-- The keys under one of the parents. -/
def keysUnder {d : ℕ} (keys : Finset (Key (d + 1))) (parents : Finset (Key d)) :
    Finset (Key (d + 1)) :=
  keys.filter fun k => k.parent ∈ parents

/-- The stored children of the keys. -/
def childrenOf {d : ℕ} : (m : Multiplicity) → Finset (Key (m.depth d)) → Finset (Key d) →
    Finset (Key (m.depth d))
  | .oneToOption, _, removed => removed
  | .oneToOne, _, removed => removed
  | .oneToMany, keys, removed => keysUnder keys removed

/-- No key with the last index of its type has stored one2many children. -/
def ChildrenReached {d : ℕ} (bits : ℕ) (pks : List (Key d)) :
    (m : Multiplicity) → Finset (Key (m.depth d)) → Prop
  | .oneToOption, _ => True
  | .oneToOne, _ => True
  | .oneToMany, keys => ∀ k ∈ keys, k.parent ∈ pks → k.parent.index + 1 < 2 ^ bits

namespace EntityDef

/-- From `t` to `t'` the keys `removed` and their descendants go from all tables, and every other
key keeps all its rows and is read as before. -/
def Removes : {d : ℕ} → (E : EntityDef d) → E.Tables → E.Tables → Finset (Key d) → Prop
  | _, mk _ _ _ _ column multiplicity child, t, t', removed =>
    t'.keys = t.keys \ removed ∧
    (∀ i, (∀ k ∈ removed, (column i).deletes.rows (t'.column i) k = (column i).deletes.noRows) ∧
      ∀ k, k ∉ removed →
        (column i).deletes.rows (t'.column i) k = (column i).deletes.rows (t.column i) k ∧
        (column i).tables.getValue (t'.column i) k = (column i).tables.getValue (t.column i) k) ∧
    ∀ j, (child j).Removes (t.relationship j) (t'.relationship j)
      (childrenOf (multiplicity j) ((child j).keys (t.relationship j)) removed)

/-- From `t` to `t'` the keys `removed` go with their subtrees, and nothing else changes, neither in
a table nor for `get`. -/
def Cascades {d : ℕ} (E : EntityDef d) (t t' : E.Tables) (removed : Finset (Key d)) : Prop :=
  E.Removes t t' removed ∧ ∀ k, k ∉ removed → E.get t' k = E.get t k

/-- The deletes reach all of the subtrees: each key is found in at most as many shards of a column
as there are deletes of it, and has no stray rows there, and no key with the last index of its type
has stored one2many children; and so on for the children. -/
def Reached : {d : ℕ} → (E : EntityDef d) → E.Tables → List (Key d) → Prop
  | _, mk bits _ _ _ column multiplicity child, t, pks =>
    (∀ i, ∀ k ∈ pks, (column i).deletes.held (t.column i) k ≤ pks.count k ∧
      ¬ (column i).deletes.Stray (t.column i) k) ∧
    ∀ j, ChildrenReached bits pks (multiplicity j) ((child j).keys (t.relationship j)) ∧
      (child j).Reached (t.relationship j)
        (childPks bits (multiplicity j) ((child j).keys (t.relationship j)) pks)

/-- The rows of every column are where its deletes look for them. -/
def Listed : {d : ℕ} → (E : EntityDef d) → E.Tables → Prop
  | _, mk _ _ _ _ column _ child, t =>
    (∀ i, (column i).Listed (t.column i)) ∧ ∀ j, (child j).Listed (t.relationship j)

end EntityDef

/-! ### The keys a delete finds -/

section Keys

variable {d bits : ℕ}

lemma deleteKeys_snd (keys : Finset (Key d)) (pks : List (Key d)) :
    (deleteKeys keys pks).2 = keys \ pks.toFinset := by
  unfold deleteKeys
  induction pks using List.reverseRecOn with
  | nil => simp
  | append_singleton pks pk ih =>
    rw [List.foldl_append, List.foldl_cons, List.foldl_nil]
    show Finset.erase _ pk = _
    rw [ih]
    ext k
    simp only [Finset.mem_erase, Finset.mem_sdiff, List.mem_toFinset, List.mem_append,
      List.mem_singleton, not_or]
    tauto

lemma mem_pkRange_fkRange {keys : Finset (Key (d + 1))} {pk : Key d} {k : Key (d + 1)} :
    k ∈ pkRange keys (pk.fkRange bits) ↔ k ∈ keys ∧ k.parent = pk ∧ pk.index + 1 < 2 ^ bits := by
  unfold pkRange
  rw [Finset.mem_sort, Finset.mem_filter, Key.mem_fkRange]

/-- One2many children are found under the keys that have not the last index of their type. -/
lemma mem_flatMap_pkRange {keys : Finset (Key (d + 1))} {pks : List (Key d)} {k : Key (d + 1)} :
    k ∈ pks.flatMap (fun pk => pkRange keys (pk.fkRange bits)) ↔
      k ∈ keys ∧ k.parent ∈ pks ∧ k.parent.index + 1 < 2 ^ bits := by
  rw [List.mem_flatMap]
  constructor
  · rintro ⟨pk, hpk, hk⟩
    obtain ⟨hmem, rfl, hindex⟩ := mem_pkRange_fkRange.mp hk
    exact ⟨hmem, hpk, hindex⟩
  · rintro ⟨hk, hpk, hindex⟩
    exact ⟨k.parent, hpk, mem_pkRange_fkRange.mpr ⟨hk, rfl, hindex⟩⟩

/-- A child that is not reached is left. -/
lemma reached_of_sdiff {keys : Finset (Key (d + 1))} {pks : List (Key d)}
    (heq : keys \ (pks.flatMap fun pk => pkRange keys (pk.fkRange bits)).toFinset =
      keys \ keysUnder keys pks.toFinset) :
      ∀ k ∈ keys, k.parent ∈ pks → k.parent.index + 1 < 2 ^ bits := by
  intro k hk hparent
  by_contra hindex
  have hleft : k ∈ keys \ (pks.flatMap fun pk => pkRange keys (pk.fkRange bits)).toFinset := by
    rw [Finset.mem_sdiff, List.mem_toFinset, mem_flatMap_pkRange]
    exact ⟨hk, fun h => hindex h.2.2⟩
  rw [heq, Finset.mem_sdiff] at hleft
  exact hleft.2 (Finset.mem_filter.mpr ⟨hk, List.mem_toFinset.mpr hparent⟩)

lemma flatMap_pkRange_toFinset {keys : Finset (Key (d + 1))} {pks : List (Key d)}
    (hreached : ∀ k ∈ keys, k.parent ∈ pks → k.parent.index + 1 < 2 ^ bits) :
    (pks.flatMap fun pk => pkRange keys (pk.fkRange bits)).toFinset = keysUnder keys pks.toFinset := by
  ext k
  unfold keysUnder
  rw [List.mem_toFinset, mem_flatMap_pkRange, Finset.mem_filter, List.mem_toFinset]
  exact ⟨fun h => ⟨h.1, h.2.1⟩, fun h => ⟨h.1, h.2, hreached k h.1 h.2⟩⟩

/-- The keys that are found are those of all children where the children are reached. -/
lemma childPks_toFinset {pks : List (Key d)} : ∀ {m : Multiplicity} {keys : Finset (Key (m.depth d))},
    ChildrenReached bits pks m keys → (childPks bits m keys pks).toFinset =
      childrenOf m keys pks.toFinset
  | .oneToOption, _, _ => rfl
  | .oneToOne, _, _ => rfl
  | .oneToMany, _, h => flatMap_pkRange_toFinset h

/-- Where the children are not reached, one of them is left. -/
lemma childrenReached_of_sdiff {pks : List (Key d)} :
    ∀ {m : Multiplicity} {keys : Finset (Key (m.depth d))},
    keys \ (childPks bits m keys pks).toFinset = keys \ childrenOf m keys pks.toFinset →
    ChildrenReached bits pks m keys
  | .oneToOption, _, _ => trivial
  | .oneToOne, _, _ => trivial
  | .oneToMany, _, h => reached_of_sdiff h

end Keys

/-! ### What is read for other keys -/

section Frame

variable {d bits : ℕ} {C : Type}

lemma composeMany_congr {K ε : Type} {compose compose' : K → Except ε C} {ks : List K}
    (h : ∀ k ∈ ks, compose' k = compose k) : composeMany compose' ks = composeMany compose ks := by
  induction ks with
  | nil => rfl
  | cons k ks ih =>
    rw [composeMany, composeMany, h k List.mem_cons_self, ih fun x hx =>
      h x (List.mem_cons_of_mem _ hx)]

lemma getWith_congr {keys keys' : Finset (Key d)} {compose compose' : Key d → Except NotFound C}
    {pk : Key d} (h : (pk ∈ keys' ↔ pk ∈ keys) ∧ compose' pk = compose pk) :
    getWith keys' compose' pk = getWith keys compose pk := by
  unfold getWith
  rw [h.2]
  simp only [h.1]

lemma rangeWith_congr {keys keys' : Finset (Key (d + 1))}
    {compose compose' : Key (d + 1) → Except NotFound C} {pk : Key d}
    (h : ∀ c, c.parent = pk ∧ pk.index + 1 < 2 ^ bits → (c ∈ keys' ↔ c ∈ keys) ∧
      compose' c = compose c) :
    rangeWith keys' compose' (pk.fkRange bits) = rangeWith keys compose (pk.fkRange bits) := by
  have hfilter : (keys'.filter fun k => (pk.fkRange bits).1 ≤ k ∧ k < (pk.fkRange bits).2) =
      keys.filter fun k => (pk.fkRange bits).1 ≤ k ∧ k < (pk.fkRange bits).2 := by
    ext c
    rw [Finset.mem_filter, Finset.mem_filter, Key.mem_fkRange]
    exact and_congr_left fun hc => (h c hc).1
  unfold rangeWith
  rw [hfilter]
  refine composeMany_congr fun c hc => (h c ?_).2
  rw [Finset.mem_sort, Finset.mem_filter, Key.mem_fkRange] at hc
  exact hc.2

/-- A relationship reads the keys of children only. -/
lemma relationInit_congr {pk : Key d} {m : Multiplicity} {keys keys' : Finset (Key (m.depth d))}
    {compose compose' : Key (m.depth d) → Except NotFound C}
    (h : ∀ c, IsChildKey bits pk m c → (c ∈ keys' ↔ c ∈ keys) ∧ compose' c = compose c) :
    relationInit bits pk m keys' compose' = relationInit bits pk m keys compose := by
  cases m with
  | oneToOption => exact getWith_congr (h pk rfl)
  | oneToOne =>
    have hget : @getWith d C keys' compose' pk = @getWith d C keys compose pk :=
      getWith_congr (h pk rfl)
    dsimp only [relationInit, Multiplicity.depth]
    rw [hget]
  | oneToMany => exact rangeWith_congr h

/-- The children of a key that is not deleted are not deleted. -/
lemma notMem_childPks {pk : Key d} {pks : List (Key d)} (hpk : pk ∉ pks) : ∀ {m : Multiplicity}
    {keys : Finset (Key (m.depth d))} {c : Key (m.depth d)}, IsChildKey bits pk m c →
      c ∉ childPks bits m keys pks
  | .oneToOption, _, _, hc => fun hm => hpk (hc ▸ hm)
  | .oneToOne, _, _, hc => fun hm => hpk (hc ▸ hm)
  | .oneToMany, _, _, hc => fun hm => hpk (hc.1 ▸ (mem_flatMap_pkRange.mp hm).2.1)

end Frame

/-! ### Cascades -/

namespace EntityDef

section Delete

variable {d : ℕ}

lemma keys_deleteMany (E : EntityDef d) (t : E.Tables) (pks : List (Key d)) :
    E.keys (E.deleteMany t pks).2 = E.keys t \ pks.toFinset := by
  cases E
  exact deleteKeys_snd _ pks

lemma Removes.keys {E : EntityDef d} {t t' : E.Tables} {removed : Finset (Key d)}
    (h : E.Removes t t' removed) : E.keys t' = E.keys t \ removed := by
  cases E
  exact h.1

/-- The relationship of one delete. -/
lemma relationship_removes_iff {bits : ℕ} {r : Multiplicity} {E : EntityDef (r.depth d)} {t : E.Tables}
    {pks : List (Key d)}
    (ih : ∀ pks, E.Removes t (E.deleteMany t pks).2 pks.toFinset ↔ E.Reached t pks) :
    E.Removes t (E.deleteMany t (childPks bits r (E.keys t) pks)).2
      (childrenOf r (E.keys t) pks.toFinset) ↔
      ChildrenReached bits pks r (E.keys t) ∧ E.Reached t (childPks bits r (E.keys t) pks) := by
  constructor
  · intro h
    have hreached : ChildrenReached bits pks r (E.keys t) :=
      childrenReached_of_sdiff ((E.keys_deleteMany t _).symm.trans h.keys)
    rw [← childPks_toFinset hreached, ih] at h
    exact ⟨hreached, h⟩
  · rintro ⟨hreached, h⟩
    rw [← childPks_toFinset hreached, ih]
    exact h

/-- The column of one delete. -/
lemma column_removes_iff {K V : Type} [LinearOrder K] {C : ColumnTables K V} {D : ColumnDeletes C}
    {Listed : C.State → Prop} (hD : D.Lawful Listed) {s : C.State} (hs : Listed s) (pks : List K) :
    ((∀ k ∈ pks.toFinset, D.rows (D.deleteRows s pks).2 k = D.noRows) ∧
      ∀ k, k ∉ pks.toFinset → D.rows (D.deleteRows s pks).2 k = D.rows s k ∧
        C.getValue (D.deleteRows s pks).2 k = C.getValue s k) ↔
      ∀ k ∈ pks, D.held s k ≤ pks.count k ∧ ¬ D.Stray s k := by
  simp only [List.mem_toFinset, hD.rows_eq, hD.held hs, hD.stray hs, Nat.sub_eq_zero_iff_le]
  exact and_iff_left fun k hk => ⟨hD.rows_frame hs pks k hk, hD.frame hs pks k hk⟩

/-- The tables after a delete. -/
theorem deleteMany_removes_iff {d : ℕ} (E : EntityDef d) {t : E.Tables} (ht : E.Listed t)
    (pks : List (Key d)) : E.Removes t (E.deleteMany t pks).2 pks.toFinset ↔ E.Reached t pks := by
  induction E with
  | @mk d bits n m order column multiplicity child ih =>
    have hcolumns : ∀ i, _ ↔ ∀ k ∈ pks, (column i).deletes.held (t.column i) k ≤ pks.count k ∧
        ¬ (column i).deletes.Stray (t.column i) k := fun i =>
      column_removes_iff (column i).deletes_lawful (ht.1 i) pks
    have hchildren : ∀ j, _ ↔ ChildrenReached bits pks (multiplicity j)
      ((child j).keys (t.relationship j)) ∧
        (child j).Reached (t.relationship j) _ := fun j => relationship_removes_iff fun pks =>
          ih j (ht.2 j) pks
    constructor
    · rintro ⟨-, hc, hr⟩
      exact ⟨fun i => (hcolumns i).mp (hc i), fun j => (hchildren j).mp (hr j)⟩
    · rintro ⟨hc, hr⟩
      exact ⟨deleteKeys_snd _ pks, fun i => (hcolumns i).mpr (hc i), fun j => (hchildren j).mpr (hr j)⟩

lemma compose_congr {bits n m : ℕ} {order : FieldOrder n m} {column : Fin n → PlainDef d}
    {multiplicity : Fin m → Multiplicity} {child : ∀ j, EntityDef ((multiplicity j).depth d)}
    {t t' : (mk bits n m order column multiplicity child).Tables} {k : Key d}
    (hc : ∀ i, (column i).tables.getValue (t'.column i) k = (column i).tables.getValue (t.column i) k)
    (hr : ∀ j c, IsChildKey bits k (multiplicity j) c →
      (c ∈ (child j).keys (t'.relationship j) ↔ c ∈ (child j).keys (t.relationship j)) ∧
        (child j).compose (t'.relationship j) c = (child j).compose (t.relationship j) c) :
    (mk bits n m order column multiplicity child).compose t' k =
      (mk bits n m order column multiplicity child).compose t k := by
  have hcolumns := funext fun i => congrArg (columnInit (column i).table k.indices) (hc i)
  have hchildren := funext fun j => relationInit_congr (hr j)
  unfold compose
  rw [hcolumns, hchildren]

/-- A child that is not deleted is stored as before. -/
lemma mem_keys_deleteMany (E : EntityDef d) (t : E.Tables) {pks : List (Key d)} {k : Key d}
    (hk : k ∉ pks) : k ∈ E.keys (E.deleteMany t pks).2 ↔ k ∈ E.keys t := by
  rw [keys_deleteMany, Finset.mem_sdiff, List.mem_toFinset]
  exact and_iff_left hk

/-- **A delete leaves all other keys alone**, whether it reaches all of the subtrees or not. -/
theorem compose_deleteMany {d : ℕ} (E : EntityDef d) {t : E.Tables} (ht : E.Listed t)
    {pks : List (Key d)} {k : Key d} (hk : k ∉ pks) :
    E.compose (E.deleteMany t pks).2 k = E.compose t k := by
  induction E with
  | @mk d bits n m order column multiplicity child ih =>
    refine compose_congr (fun i => (column i).deletes_lawful.frame (ht.1 i) pks k hk) fun j c hc => ?_
    have hc' : c ∉ childPks bits (multiplicity j) ((child j).keys (t.relationship j)) pks :=
      notMem_childPks hk hc
    exact ⟨(child j).mem_keys_deleteMany (t.relationship j) hc', ih j (ht.2 j) hc'⟩

lemma get_deleteMany (E : EntityDef d) {t : E.Tables} (ht : E.Listed t) {pks : List (Key d)}
    {k : Key d} (hk : k ∉ pks) : E.get (E.deleteMany t pks).2 k = E.get t k :=
  getWith_congr ⟨E.mem_keys_deleteMany t hk, E.compose_deleteMany ht hk⟩

/-- **A delete removes whole subtrees and nothing else** exactly when it reaches them. -/
theorem deleteMany_cascades_iff (E : EntityDef d) {t : E.Tables} (ht : E.Listed t)
    (pks : List (Key d)) : E.Cascades t (E.deleteMany t pks).2 pks.toFinset ↔ E.Reached t pks := by
  rw [← E.deleteMany_removes_iff ht]
  exact and_iff_left fun k hk => E.get_deleteMany ht fun hm => hk (List.mem_toFinset.mpr hm)

lemma deleteChildren_eq {R : Type} {bits : ℕ} {pk : Key d} :
    ∀ {m : Multiplicity} {keys : Finset (Key (m.depth d))}
    {delete : Key (m.depth d) → R} {deleteMany : List (Key (m.depth d)) → R},
      (∀ k, delete k = deleteMany [k]) →
    deleteChildren bits pk m keys delete deleteMany = deleteMany (childPks bits m keys [pk])
  | .oneToOption, _, _, _, h => h pk
  | .oneToOne, _, _, _, h => h pk
  | .oneToMany, _, _, deleteMany, _ => congrArg deleteMany (List.flatMap_singleton _ _).symm

/-- `delete` is `delete_many` of one key. -/
theorem delete_eq_deleteMany {d : ℕ} (E : EntityDef d) (t : E.Tables) (pk : Key d) :
    E.delete t pk = E.deleteMany t [pk] := by
  induction E with
  | @mk d bits n m order column multiplicity child ih =>
    exact congrArg (deleted _ _ multiplicity) (funext fun j => deleteChildren_eq fun k =>
      ih j (t.relationship j) k)

end Delete

/-! ### Databases -/

lemma listed_empty {d : ℕ} (E : EntityDef d) : E.Listed E.empty := by
  induction E with
  | mk bits n m order column multiplicity child ih =>
    exact ⟨fun i => (column i).deletes_lawful.empty, ih⟩

lemma Listed.storeMany {d : ℕ} {E : EntityDef d} {t : E.Tables} (h : E.Listed t)
    (es : List E.Instance) : E.Listed (E.storeMany t es) := by
  induction E with
  | mk bits n m order column multiplicity child ih =>
    exact ⟨fun i => (column i).deletes_lawful.insertRows (h.1 i) _, fun j => ih j (h.2 j) _⟩

lemma Listed.deleteMany {d : ℕ} {E : EntityDef d} {t : E.Tables} (h : E.Listed t)
    (pks : List (Key d)) : E.Listed (E.deleteMany t pks).2 := by
  induction E with
  | mk bits n m order column multiplicity child ih =>
    exact ⟨fun i => (column i).deletes_lawful.deleteRows (h.1 i) _, fun j => ih j (h.2 j) _⟩

end EntityDef

end Redbit.Entity
