import Redbit.Entity.EntityStore

/-!
# Reading with a filter query (`rest.rs`, `entity/query.rs`, `entity/compose.rs`, `pk/filter.rs`,
`relationship/init.rs`)

A query has an optional filter for every column and an optional query for every relationship.
`compose_with_filter` reads the fields of an instance one after the other and gives up with `None`
at the first one that does not match.  `compose_many` is the reader of lists and
`compose_many_stream` the one of streams, each with an optional query.
-/

namespace Redbit.Entity

open Redbit.Lib Redbit.Storage

/-! ### Queries -/

/-- `FilterOp`. -/
inductive FilterOp (T : Type) where
  | eq (expected : T)
  | ne (expected : T)
  | lt (expected : T)
  | le (expected : T)
  | gt (expected : T)
  | ge (expected : T)
  | isIn (options : List T)

/-- `FilterOp::matches`. -/
def FilterOp.matchesValue {T : Type} [LinearOrder T] : FilterOp T → T → Bool
  | .eq expected, value => decide (value = expected)
  | .ne expected, value => decide (value ≠ expected)
  | .lt expected, value => decide (value < expected)
  | .le expected, value => decide (value ≤ expected)
  | .gt expected, value => decide (expected < value)
  | .ge expected, value => decide (expected ≤ value)
  | .isIn options, value => decide (value ∈ options)

/-- The fields of a filter query. -/
structure QueryFields {n m : ℕ} (V : Fin n → Type) (Q : Fin m → Type) where
  column : ∀ i, Option (FilterOp (V i))
  relationship : ∀ j, Option (Q j)

/-- The filter query type of an entity. -/
def EntityDef.Query : {d : ℕ} → EntityDef d → Type
  | _, mk _ _ _ _ column _ child => QueryFields (fun i => (column i).V) fun j => (child j).Query

/-- Does a column pass the filter for it, if there is one? -/
def passes {V : Type} [LinearOrder V] (filterOp : Option (FilterOp V)) (v : V) : Bool :=
  filterOp.all fun op => op.matchesValue v

/-! ### Lists and streams -/

section Many

variable {ε K Q C : Type} (compose : K → Except ε C) (composeWithFilter : K → Q → Except ε (Option C))

/-- The loop of `compose_many` with a query: only the result of a key that is itself an error ends
it. -/
def composeManyFiltered (q : Q) : List (Except ε K) → Except ε (List C)
  | [] => .ok []
  | .error e :: _ => .error e
  | .ok pk :: pks =>
    match composeManyFiltered q pks with
    | .error e => .error e
    | .ok results =>
      match composeWithFilter pk q with
      | .ok (some item) => .ok (item :: results)
      | _ => .ok results

/-- The loop of `compose_many` without a query. -/
def composeManyPlain : List (Except ε K) → Except ε (List C)
  | [] => .ok []
  | .error e :: _ => .error e
  | .ok pk :: pks =>
    match compose pk with
    | .error e => .error e
    | .ok item =>
      match composeManyPlain pks with
      | .error e => .error e
      | .ok results => .ok (item :: results)

/-- `compose_many`.  A failed key is given with the error that `?` makes of it. -/
def composeManyQuery (pks : List (Except ε K)) : Option Q → Except ε (List C)
  | some q => composeManyFiltered composeWithFilter q pks
  | none => composeManyPlain compose pks

/-- The item of `compose_many_stream` for one key, where the filter lets it through; `internal` is
`AppError::Internal`. -/
def streamItem (internal : ε → ε) (query : Option Q) : Except ε K → Option (Except ε C)
  | .error e => some (.error e)
  | .ok pk =>
    match query with
    | some q =>
      match composeWithFilter pk q with
      | .ok (some item) => some (.ok item)
      | .ok none => none
      | .error e => some (.error (internal e))
    | none =>
      match compose pk with
      | .ok item => some (.ok item)
      | .error e => some (.error (internal e))

/-- `compose_many_stream`. -/
def composeManyStream (internal : ε → ε) (pks : List (Except ε K)) (query : Option Q) :
    List (Except ε C) :=
  pks.filterMap (streamItem compose composeWithFilter internal query)

/-- `try_collect`: the items, or the first error. -/
def tryCollect : List (Except ε C) → Except ε (List C)
  | [] => .ok []
  | .error e :: _ => .error e
  | .ok item :: items =>
    match tryCollect items with
    | .error e => .error e
    | .ok results => .ok (item :: results)

end Many

/-! ### One instance -/

/-- The struct inits with a query one after the other: the first one that fails, or that returns
`Ok(None)`, ends them. -/
def initAllWithQuery {ι ε : Type} [DecidableEq ι] {F : ι → Type}
    (init : ∀ i, Except ε (Option (F i))) :
    (is : List ι) → Except ε (Option (∀ i ∈ is, F i))
  | [] => .ok (some fun _ h => absurd h List.not_mem_nil)
  | i :: is =>
    match init i with
    | .error e => .error e
    | .ok none => .ok none
    | .ok (some field) =>
      match initAllWithQuery init is with
      | .error e => .error e
      | .ok none => .ok none
      | .ok (some fields) => .ok (some (consField field fields))

/-- The struct inits of an entity with a query, in the order of its fields. -/
def initFieldsWithQuery {n m : ℕ} {ε : Type} {C : Fin n → Type} {R : Fin m → Type}
    (order : FieldOrder n m) (column : ∀ i, Except ε (Option (C i)))
    (relationship : ∀ j, Except ε (Option (R j))) : Except ε (Option ((∀ i, C i) × ∀ j, R j)) :=
  match initAllWithQuery (onField (I := fun F => Except ε (Option F)) column relationship)
    order.fields with
  | .error e => .error e
  | .ok none => .ok none
  | .ok (some fields) => .ok (some (order.toStruct fields))

/-- `plain_init_with_query`, `index_init_with_query` and `dict_init_with_query`. -/
def columnInitWithQuery {V : Type} [LinearOrder V] (table : String) (pk : List ℕ)
    (filterOp : Option (FilterOp V)) (value : Option V) : Except NotFound (Option V) :=
  match columnInit table pk value with
  | .error e => .error e
  | .ok v => .ok (if passes filterOp v then some v else none)

/-- `filter` of an entity with the rows `keys`. -/
def filterWith {d : ℕ} {C : Type} (keys : Finset (Key d))
    (composeWithFilter : Key d → Except NotFound (Option C)) (pk : Key d) :
    Except NotFound (Option C) :=
  if pk ∈ keys then composeWithFilter pk else .ok none

/-- `range` of an entity with the rows `keys`. -/
def rangeQueryWith {d : ℕ} {Q C : Type} (keys : Finset (Key d)) (compose : Key d → Except NotFound C)
    (composeWithFilter : Key d → Q → Except NotFound (Option C)) (range : Key d × Key d)
    (query : Option Q) : Except NotFound (List C) :=
  composeManyQuery compose composeWithFilter
    (((keys.filter fun k => range.1 ≤ k ∧ k < range.2).sort (· ≤ ·)).map .ok) query

/-- `one2one_relation_init_with_query`, `one2opt_relation_init_with_query` and
`one2many_relation_init_with_query`. -/
def relationInitWithQuery {d : ℕ} {Q C : Type} (bits : ℕ) (pk : Key d) : (m : Multiplicity) →
    Finset (Key (m.depth d)) → (Key (m.depth d) → Except NotFound C) →
    (Key (m.depth d) → Q → Except NotFound (Option C)) → Option Q →
      Except NotFound (Option (m.Field C))
  | .oneToOne, keys, _, composeWithFilter, some q =>
    filterWith keys (fun k => composeWithFilter k q) pk
  | .oneToOne, keys, compose, _, none => (relationInit bits pk .oneToOne keys compose).map some
  | .oneToOption, keys, _, composeWithFilter, some q =>
    match filterWith keys (fun k => composeWithFilter k q) pk with
    | .error e => .error e
    | .ok none => .ok none
    | .ok (some c) => .ok (some (some c))
  | .oneToOption, keys, compose, _, none => (relationInit bits pk .oneToOption keys compose).map some
  | .oneToMany, keys, compose, composeWithFilter, query =>
    match rangeQueryWith keys compose composeWithFilter (pk.fkRange bits) query with
    | .error e => .error e
    | .ok [] => .ok none
    | .ok (c :: cs) => .ok (some (c :: cs))

/-- `compose_with_filter`. -/
def EntityDef.composeWithFilter : {d : ℕ} → (E : EntityDef d) → E.Tables → Key d → E.Query →
    Except NotFound (Option E.Instance)
  | _, mk bits _ _ order column multiplicity child, t, pk, q =>
    letI := fun i => (column i).order
    match initFieldsWithQuery order
      (fun i => columnInitWithQuery (column i).table pk.indices (q.column i)
        ((column i).tables.getValue (t.column i) pk))
      (fun j => relationInitWithQuery bits pk (multiplicity j) ((child j).keys (t.relationship j))
        ((child j).compose (t.relationship j)) ((child j).composeWithFilter (t.relationship j))
        (q.relationship j)) with
    | .error e => .error e
    | .ok none => .ok none
    | .ok (some (columns, relationships)) => .ok (some ⟨pk, columns, relationships⟩)

end Redbit.Entity
