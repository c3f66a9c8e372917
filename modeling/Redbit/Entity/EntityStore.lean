import Redbit.Storage.ReadBack
import Redbit.Storage.Sharding
import Redbit.Entity.FieldParser
import Mathlib.Data.Prod.Lex

/-!
# Storing and reading an entity tree (`entity/store.rs`, `entity/compose.rs`, `pk/get.rs`,
`relationship/*.rs`)

An entity has a key, columns and relationships to child entities, nested to any depth.  `store` and
`store_many` insert the key, the columns and the children of every instance into their tables and
remove nothing; `get` looks the key up and composes the instance from the columns and the children,
a one2one or one2opt child by the key of its parent, one2many children by the range of the keys
under it.

Every relationship has tables of its own.  A relationship that a hook of the application fills
(`write_from`) is stored with the children that the hook writes.  Transient fields, which no table
holds, are left out.
-/

set_option linter.unusedSectionVars false

namespace Redbit.Entity

open Redbit.Lib Redbit.Storage

/-! ### Keys -/

/-- A key at depth `d`: a root pointer is an index, a child pointer is the pointer of its parent
with an index. Keys are ordered by the parent first. -/
def Key : ℕ → Type
  | 0 => ℕ
  | d + 1 => Key d ×ₗ ℕ

namespace Key

instance linearOrder : ∀ d, LinearOrder (Key d)
  | 0 => inferInstanceAs (LinearOrder ℕ)
  | d + 1 => @Prod.Lex.instLinearOrder (Key d) ℕ (linearOrder d) _

-- The shortcuts for sorting, at keys.

instance isTrans_le (d : ℕ) : IsTrans (Key d) (· ≤ ·) := inferInstance

instance antisymm_le (d : ℕ) : @Std.Antisymm (Key d) (· ≤ ·) := inferInstance

instance total_le (d : ℕ) : @Std.Total (Key d) (· ≤ ·) := inferInstance

/-- A root pointer. -/
def root (index : ℕ) : Key 0 := index

/-- `from_parent`. -/
def fromParent {d : ℕ} (parent : Key d) (index : ℕ) : Key (d + 1) := toLex (parent, index)

/-- `parent`. -/
def parent {d : ℕ} (k : Key (d + 1)) : Key d := (ofLex k).1

/-- `index`. -/
def index : {d : ℕ} → Key d → ℕ
  | 0, n => n
  | _ + 1, k => (ofLex k).2

/-- `next_index`, for an index of `bits` bits; a release build does not check for overflow. -/
def nextIndex (bits : ℕ) : {d : ℕ} → Key d → Key d
  | 0, k => root ((index k + 1) % 2 ^ bits)
  | _ + 1, k => fromParent (parent k) ((index k + 1) % 2 ^ bits)

/-- `fk_range`. -/
def fkRange {d : ℕ} (bits : ℕ) (pk : Key d) : Key (d + 1) × Key (d + 1) :=
  (fromParent pk 0, fromParent (pk.nextIndex bits) 0)

/-- The indices from the root down. -/
def indices : {d : ℕ} → Key d → List ℕ
  | 0, n => [n]
  | _ + 1, k => indices (parent k) ++ [index k]

lemma fromParent_le {d : ℕ} {p q : Key d} {i j : ℕ} :
    fromParent p i ≤ fromParent q j ↔ p < q ∨ p = q ∧ i ≤ j :=
  Prod.Lex.toLex_le_toLex

lemma parent_le_of_fromParent_le {d : ℕ} {p q : Key d} {i j : ℕ}
    (h : fromParent p i ≤ fromParent q j) : p ≤ q := by
  rcases fromParent_le.mp h with hlt | ⟨heq, -⟩
  · exact hlt.le
  · exact heq.le

lemma fromParent_lt {d : ℕ} {p q : Key d} {i j : ℕ} :
    fromParent p i < fromParent q j ↔ p < q ∨ p = q ∧ i < j :=
  Prod.Lex.toLex_lt_toLex

lemma fromParent_inj {d : ℕ} {p q : Key d} {i j : ℕ} :
    fromParent p i = fromParent q j ↔ p = q ∧ i = j := by
  constructor
  · intro h
    exact Prod.mk.inj h
  · rintro ⟨rfl, rfl⟩
    rfl

lemma fromParent_parent {d : ℕ} (k : Key (d + 1)) : fromParent k.parent k.index = k := rfl

/-- Between an index and the next one there is no other, and nothing at all if the next one
overflows. -/
lemma le_and_lt_succ_mod {bits i j : ℕ} :
    i ≤ j ∧ j < (i + 1) % 2 ^ bits ↔ j = i ∧ i + 1 < 2 ^ bits := by
  by_cases h : i + 1 < 2 ^ bits
  · rw [Nat.mod_eq_of_lt h]
    omega
  · have := Nat.mod_lt (i + 1) (Nat.two_pow_pos bits)
    omega

/-- The same for keys. -/
lemma le_and_lt_nextIndex {bits : ℕ} : ∀ {d : ℕ} {p q : Key d},
    p ≤ q ∧ q < p.nextIndex bits ↔ q = p ∧ p.index + 1 < 2 ^ bits
  | 0, p, q => le_and_lt_succ_mod (i := p.index) (j := q.index)
  | d + 1, p, q => by
    rw [← fromParent_parent p, ← fromParent_parent q]
    generalize hp : p.parent = pp
    generalize hq : q.parent = qp
    show fromParent pp p.index ≤ fromParent qp q.index ∧
      fromParent qp q.index < fromParent pp ((p.index + 1) % 2 ^ bits) ↔ _ ∧ p.index + 1 < 2 ^ bits
    rw [fromParent_le, fromParent_lt, fromParent_inj, and_assoc, ← le_and_lt_succ_mod]
    constructor
    · rintro ⟨h₁ | ⟨h₁, h₂⟩, h₃ | ⟨h₃, h₄⟩⟩
      · exact absurd h₁ (lt_asymm h₃)
      · exact absurd h₃ h₁.ne'
      · exact absurd h₁ h₃.ne'
      · exact ⟨h₃, h₂, h₄⟩
    · rintro ⟨h₁, h₂, h₃⟩
      exact ⟨Or.inr ⟨h₁.symm, h₂⟩, Or.inr ⟨h₁, h₃⟩⟩

/-- The range of the foreign keys holds the keys under the parent, unless the index of the parent is
the last one of its type. -/
lemma mem_fkRange {d bits : ℕ} {p : Key d} {k : Key (d + 1)} :
    (p.fkRange bits).1 ≤ k ∧ k < (p.fkRange bits).2 ↔ k.parent = p ∧ p.index + 1 < 2 ^ bits := by
  show fromParent p 0 ≤ fromParent k.parent k.index ∧
    fromParent k.parent k.index < fromParent (p.nextIndex bits) 0 ↔ _
  rw [fromParent_le, fromParent_lt, ← le_and_lt_nextIndex, le_iff_lt_or_eq (b := k.parent)]
  simp only [Nat.zero_le, and_true, Nat.not_lt_zero, and_false, or_false]

end Key

/-! ### Columns -/

/-- The tables of a column, as the store statements and the reads use them: a transaction inserts
rows, and `Keeps` is the exact condition under which it is able to read them all afterwards. -/
structure ColumnTables (K V : Type) where
  State : Type
  empty : State
  insertRows : State → List (K × V) → State
  getValue : State → K → Option V
  Keeps : State → List (K × V) → Prop
  reads_iff : ∀ s rows, (rows.map Prod.fst).Nodup →
    ((∀ kv ∈ rows, getValue (insertRows s rows) kv.1 = some kv.2) ↔ Keeps s rows)

section ColumnTables

variable {K V : Type} [LinearOrder K] [LinearOrder V] [CacheKey V] (n : ℕ) [NeZero n] (hash : V → ℕ)
  (now : Bool)

/-- A plain column, whose shards are chosen by key. -/
def plainTables (V : Type) (part : K → Fin n) : ColumnTables K V where
  State := Column n (Table K V)
  empty := fun _ => Table.empty
  insertRows := plainInsertRows part
  getValue := plainRead part
  Keeps _ _ := True
  reads_iff _ _ hnd := iff_of_true (plainRead_insertRows hnd) trivial

/-- An index or range column, whose shards are chosen by value: every value is in the shard it
hashes to. -/
def indexTables (f : IndexFactory) : ColumnTables K V where
  State := { c : Column n (IndexTable K V) // c.Placed IndexHasValue hash }
  empty := ⟨fun _ => f.openForWrite IndexTables.empty, by
    rintro i v ⟨k, hk⟩
    exact absurd ((Table.get_empty k).symm.trans hk) (by simp)⟩
  insertRows c rows := ⟨c.1.insertRows (indexShard f) hash now rows,
    c.2.insertRows (indexShard_readsBack f now) rows⟩
  getValue c k := c.1.getValue (indexShard f) k
  Keeps c rows := c.1.KeepsRows (indexShard f) (fun _ _ => True) hash rows
  reads_iff c _ hnd := Column.readsBack_iff (indexShard_readsBack f now) c.2 hnd

/-- A dictionary column, whose shards are chosen by value: every value is in the shard it hashes to. -/
def dictTables (f : DictFactory) : ColumnTables K V where
  State := { c : Column n (DictTable K V) // c.Placed DictHasValue hash }
  empty := ⟨fun _ => f.openForWrite DictTables.empty, by
    rintro i v ⟨b, hb⟩
    exact absurd ((Table.get_empty b).symm.trans hb) (by simp)⟩
  insertRows c rows := ⟨c.1.insertRows (dictShard f) hash now rows,
    c.2.insertRows (dictShard_readsBack f now) rows⟩
  getValue c k := c.1.getValue (dictShard f) k
  Keeps c rows := c.1.KeepsRows (dictShard f)
    (fun t rows => DictTable.Fine now (f.openForWrite t.toDictTables) rows) hash rows
  reads_iff c _ hnd := Column.readsBack_iff (dictShard_readsBack f now) c.2 hnd

end ColumnTables

/-- `ColumnDef::Plain` of an entity with keys at depth `d`: the name of its table, its type, and how
it is indexed, sharded and cached.  A column that a `write_from` uses is written at once. -/
structure PlainDef (d : ℕ) where
  table : String
  V : Type
  order : LinearOrder V
  cacheKey : CacheKey V
  /-- `xxh3_64` of the bytes of a value. -/
  xxh3 : V → ℕ
  /-- The bytes of a key. -/
  asLeBytes : Key d → List UInt8
  indexing : IndexingType
  shards_ne_zero : indexing.shards ≠ 0
  lruCapacity : ℕ
  used : Bool

/-- A column has a shard: the instance that all definitions by the kind of a column share. -/
lemma neZero_shards {n : ℕ} (h : n ≠ 0) : NeZero n := ⟨h⟩

/-- The tables of a column. -/
def PlainDef.tables {d : ℕ} (c : PlainDef d) : ColumnTables (Key d) c.V :=
  letI := c.order
  letI := c.cacheKey
  match c.indexing, c.shards_ne_zero with
  | .off n, h =>
    haveI : NeZero n := neZero_shards h
    plainTables n c.V fun k => partitionBytesLe n (c.asLeBytes k)
  | .index n, h =>
    haveI : NeZero n := neZero_shards h
    indexTables n c.xxh3 c.used (IndexFactory.new c.lruCapacity)
  | .range n, h =>
    haveI : NeZero n := neZero_shards h
    indexTables n c.xxh3 c.used (IndexFactory.new c.lruCapacity)
  | .dict n, h =>
    haveI : NeZero n := neZero_shards h
    dictTables n c.xxh3 c.used (DictFactory.new c.lruCapacity)

/-! ### Entities -/

namespace Multiplicity

/-- The depth of the keys of the child: those of one2many children are pointers under the key of the
parent. -/
def depth (d : ℕ) : Multiplicity → ℕ
  | .oneToOption => d
  | .oneToOne => d
  | .oneToMany => d + 1

/-- The type of the field of a relationship to children of type `C`. -/
def Field (C : Type) : Multiplicity → Type
  | .oneToOption => Option C
  | .oneToOne => C
  | .oneToMany => List C

/-- The children in a field, as the store statement stores them. -/
def children {C : Type} : (m : Multiplicity) → m.Field C → List C
  | .oneToOption, none => []
  | .oneToOption, some c => [c]
  | .oneToOne, c => [c]
  | .oneToMany, cs => cs

end Multiplicity

/-- The order in which `get_field_macros` puts `n` columns and `m` relationships: every one of them
once. -/
structure FieldOrder (n m : ℕ) where
  fields : List (Fin n ⊕ Fin m)
  complete : ∀ f, f ∈ fields
  nodup : fields.Nodup

/-- The order of a struct with its columns before its relationships. -/
def FieldOrder.columnsFirst (n m : ℕ) : FieldOrder n m where
  fields := (List.finRange n).map Sum.inl ++ (List.finRange m).map Sum.inr
  complete f := by cases f <;> simp
  nodup := by
    refine List.nodup_append.mpr ⟨(List.nodup_finRange n).map Sum.inl_injective,
      (List.nodup_finRange m).map Sum.inr_injective, fun a ha b hb => ?_⟩
    obtain ⟨i, -, rfl⟩ := List.mem_map.mp ha
    obtain ⟨j, -, rfl⟩ := List.mem_map.mp hb
    exact Sum.inl_ne_inr

/-- `EntityDef`: a struct under `#[entity]` with keys at depth `d`, its columns and its
relationships; `bits` is the width of the index of its key. -/
inductive EntityDef : ℕ → Type 1 where
  | mk {d : ℕ} (bits columns relationships : ℕ) (order : FieldOrder columns relationships)
      (column : Fin columns → PlainDef d) (multiplicity : Fin relationships → Multiplicity)
      (child : ∀ j, EntityDef ((multiplicity j).depth d)) : EntityDef d

/-- The fields of an instance. -/
structure InstanceFields (d : ℕ) {n m : ℕ} (V : Fin n → Type) (R : Fin m → Type) where
  pk : Key d
  column : ∀ i, V i
  relationship : ∀ j, R j

/-- The tables of an entity: its keys, its columns, and the tables of the children. -/
structure EntityTables (d : ℕ) {n m : ℕ} (C : Fin n → Type) (R : Fin m → Type) where
  keys : Finset (Key d)
  column : ∀ i, C i
  relationship : ∀ j, R j

namespace EntityDef

/-- An instance of the struct, without its transient fields. -/
def Instance : {d : ℕ} → EntityDef d → Type
  | d, mk _ _ _ _ column multiplicity child =>
    InstanceFields d (fun i => (column i).V) fun j => (multiplicity j).Field (child j).Instance

/-- The committed tables. -/
def Tables : {d : ℕ} → EntityDef d → Type
  | d, mk _ _ _ _ column _ child => EntityTables d (fun i => (column i).tables.State) fun j =>
    (child j).Tables

/-- The key of an instance. -/
def pk : {d : ℕ} → (E : EntityDef d) → E.Instance → Key d
  | _, mk .., e => e.pk

/-- The rows of the table of the keys. -/
def keys : {d : ℕ} → (E : EntityDef d) → E.Tables → Finset (Key d)
  | _, mk .., t => t.keys

/-- The tables of a new storage. -/
def empty : {d : ℕ} → (E : EntityDef d) → E.Tables
  | _, mk _ _ _ _ column _ child => ⟨∅, fun i => (column i).tables.empty, fun j => (child j).empty⟩

/-! ### Storing -/

/-- A transaction of `store_many`: every table gets the rows of the instances and of their children
in the order of the store statements.  `store` and `persist` are the case of one instance. -/
def storeMany : {d : ℕ} → (E : EntityDef d) → E.Tables → List E.Instance → E.Tables
  | _, mk _ _ _ _ column multiplicity child, t, instances =>
    { keys := t.keys ∪ (instances.map InstanceFields.pk).toFinset
      column := fun i => (column i).tables.insertRows (t.column i)
        (instances.map fun e => (e.pk, e.column i))
      relationship := fun j => (child j).storeMany (t.relationship j)
        (instances.flatMap fun e => (multiplicity j).children (e.relationship j)) }

/-- `persist`, and `store_blocks` with one block. -/
def persist {d : ℕ} (E : EntityDef d) (t : E.Tables) (e : E.Instance) : E.Tables := E.storeMany t [e]

end EntityDef

/-! ### Reading -/

/-- `AppError::NotFound`, with the table of the column or for a missing one2one child. -/
inductive NotFound where
  | missingPk (table : String) (pk : List ℕ)
  | missingOneToOneChild (pk : List ℕ)

/-- What has been read of the fields, with one more. -/
def consField {ι : Type} [DecidableEq ι] {F : ι → Type} {i : ι} {is : List ι} (field : F i)
    (fields : ∀ k ∈ is, F k) : ∀ k ∈ i :: is, F k := fun k hk =>
  if h : k = i then cast (congrArg F h.symm) field else fields k ((List.mem_cons.mp hk).resolve_left h)

/-- The struct inits of the fields one after the other: the first one that fails ends them. -/
def initAll {ι ε : Type} [DecidableEq ι] {F : ι → Type} (init : ∀ i, Except ε (F i)) :
    (is : List ι) → Except ε (∀ i ∈ is, F i)
  | [] => .ok fun _ h => absurd h List.not_mem_nil
  | i :: is =>
    match init i with
    | .error e => .error e
    | .ok field =>
      match initAll init is with
      | .error e => .error e
      | .ok fields => .ok (consField field fields)

/-- What belongs to a field: to a column or to a relationship. -/
def onField {n m : ℕ} {I : Type → Type} {C : Fin n → Type} {R : Fin m → Type} (column : ∀ i, I (C i))
    (relationship : ∀ j, I (R j)) : ∀ f, I (Sum.elim C R f)
  | .inl i => column i
  | .inr j => relationship j

/-- The struct of the fields that have been read: its columns and its relationships. -/
def FieldOrder.toStruct {n m : ℕ} {C : Fin n → Type} {R : Fin m → Type} (order : FieldOrder n m)
    (fields : ∀ f ∈ order.fields, Sum.elim C R f) : (∀ i, C i) × ∀ j, R j :=
  (fun i => fields (.inl i) (order.complete _), fun j => fields (.inr j) (order.complete _))

/-- The struct inits of an entity, in the order of its fields. -/
def initFields {n m : ℕ} {ε : Type} {C : Fin n → Type} {R : Fin m → Type} (order : FieldOrder n m)
    (column : ∀ i, Except ε (C i)) (relationship : ∀ j, Except ε (R j)) :
    Except ε ((∀ i, C i) × ∀ j, R j) :=
  match initAll (onField column relationship) order.fields with
  | .error e => .error e
  | .ok fields => .ok (order.toStruct fields)

/-- `plain_init_expr`, `index_init_expr` and `dict_init_expr`, after `get_value` of the column. -/
def columnInit {V : Type} (table : String) (pk : List ℕ) : Option V → Except NotFound V
  | some v => .ok v
  | none => .error (.missingPk table pk)

/-- `compose_many` without a query. -/
def composeMany {K C ε : Type} (compose : K → Except ε C) : List K → Except ε (List C)
  | [] => .ok []
  | k :: ks =>
    match compose k with
    | .error e => .error e
    | .ok c =>
      match composeMany compose ks with
      | .error e => .error e
      | .ok cs => .ok (c :: cs)

/-- `get` of an entity with the rows `keys`. -/
def getWith {d : ℕ} {C : Type} (keys : Finset (Key d)) (compose : Key d → Except NotFound C)
    (pk : Key d) : Except NotFound (Option C) :=
  if pk ∈ keys then (compose pk).map some else .ok none

/-- `range` of an entity with the rows `keys`, without a query. -/
def rangeWith {d : ℕ} {C : Type} (keys : Finset (Key d)) (compose : Key d → Except NotFound C)
    (range : Key d × Key d) : Except NotFound (List C) :=
  composeMany compose ((keys.filter fun k => range.1 ≤ k ∧ k < range.2).sort (· ≤ ·))

/-- `one2one_relation_init`, `one2opt_relation_init` and `one2many_relation_init`. -/
def relationInit {d : ℕ} {C : Type} (bits : ℕ) (pk : Key d) :
    (m : Multiplicity) → Finset (Key (m.depth d)) →
    (Key (m.depth d) → Except NotFound C) → Except NotFound (m.Field C)
  | .oneToOne, keys, compose =>
    match getWith keys compose pk with
    | .error e => .error e
    | .ok none => .error (.missingOneToOneChild pk.indices)
    | .ok (some c) => .ok c
  | .oneToOption, keys, compose => getWith keys compose pk
  | .oneToMany, keys, compose => rangeWith keys compose (pk.fkRange bits)

namespace EntityDef

/-- `compose`. -/
def compose : {d : ℕ} → (E : EntityDef d) → E.Tables → Key d → Except NotFound E.Instance
  | _, mk bits _ _ order column multiplicity child, t, pk =>
    match initFields order
      (fun i => columnInit (column i).table pk.indices ((column i).tables.getValue (t.column i) pk))
      (fun j => relationInit bits pk (multiplicity j) ((child j).keys (t.relationship j))
        ((child j).compose (t.relationship j))) with
    | .error e => .error e
    | .ok (columns, relationships) => .ok ⟨pk, columns, relationships⟩

/-- `get`. -/
def get {d : ℕ} (E : EntityDef d) (t : E.Tables) (pk : Key d) : Except NotFound (Option E.Instance) :=
  getWith (E.keys t) (E.compose t) pk

end EntityDef

end Redbit.Entity
