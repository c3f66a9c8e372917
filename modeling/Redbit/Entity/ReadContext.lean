import Redbit.Entity.Select

/-!
# Reading from a context that can fail (`entity/context.rs`, `relationship/init.rs`, `column/init.rs`)

`compose` and `compose_with_filter` read through a context, and every access of it can fail: a
value, a key, a range of keys, and each item of the range.  `EntityDef.ReadContext` is any such
context.  That of the tables never fails by itself (`EntityDef.context`), and reading from it is
reading from the tables.
-/

namespace Redbit.Entity

open Redbit.Lib Redbit.Storage

/-! ### Contexts -/

/-- The accesses of an entity: `get_value` of its columns and of the table of its keys, and the
`range` of its keys. -/
structure ContextFields (ε : Type) (d : ℕ) {n m : ℕ} (V : Fin n → Type) (R : Fin m → Type) where
  value : ∀ i, Key d → Except ε (Option (V i))
  exist : Key d → Except ε Bool
  range : Key d × Key d → Except ε (List (Except ε (Key d)))
  relationship : ∀ j, R j

namespace EntityDef

/-- A read context, with the contexts of the children. -/
def ReadContext (ε : Type) : {d : ℕ} → EntityDef d → Type
  | d, mk _ _ _ _ column _ child => ContextFields ε d (fun i => (column i).V) fun j =>
    (child j).ReadContext ε

/-- Is the key stored? -/
def existIn {ε : Type} : {d : ℕ} → (E : EntityDef d) → E.ReadContext ε → Key d → Except ε Bool
  | _, mk .., ctx => ctx.exist

/-- The stored keys of a range. -/
def rangeIn {ε : Type} : {d : ℕ} → (E : EntityDef d) → E.ReadContext ε → Key d × Key d →
    Except ε (List (Except ε (Key d)))
  | _, mk .., ctx => ctx.range

/-- The context of the tables. -/
def context : {d : ℕ} → (E : EntityDef d) → E.Tables → E.ReadContext NotFound
  | _, mk _ _ _ _ column _ child, t =>
    { value := fun i pk => .ok ((column i).tables.getValue (t.column i) pk)
      exist := fun pk => .ok (decide (pk ∈ t.keys))
      range := fun bounds => .ok (((t.keys.filter fun k => bounds.1 ≤ k ∧ k < bounds.2).sort
        (· ≤ ·)).map .ok)
      relationship := fun j => (child j).context (t.relationship j) }

end EntityDef

/-! ### Fields -/

section Fields

variable {ε : Type} (app : NotFound → ε)

/-- The struct init of a column; `app` is `AppError::NotFound`. -/
def columnInitIn {V : Type} (table : String) (pk : List ℕ) : Except ε (Option V) → Except ε V
  | .error e => .error e
  | .ok value => (columnInit table pk value).mapError app

/-- The struct init of a column with a query. -/
def columnInitWithQueryIn {V : Type} [LinearOrder V] (table : String) (pk : List ℕ)
    (filterOp : Option (FilterOp V)) (value : Except ε (Option V)) : Except ε (Option V) :=
  match columnInitIn app table pk value with
  | .error e => .error e
  | .ok v => .ok (if passes filterOp v then some v else none)

/-- `get`. -/
def getIn {K C : Type} (exist : Except ε Bool) (compose : K → Except ε C) (pk : K) :
    Except ε (Option C) :=
  match exist with
  | .error e => .error e
  | .ok false => .ok none
  | .ok true => (compose pk).map some

/-- `filter`. -/
def filterIn {K C : Type} (exist : Except ε Bool) (composeWithFilter : K → Except ε (Option C))
    (pk : K) : Except ε (Option C) :=
  match exist with
  | .error e => .error e
  | .ok false => .ok none
  | .ok true => composeWithFilter pk

/-- `range`. -/
def rangeQueryIn {K Q C : Type} (keys : Except ε (List (Except ε K))) (compose : K → Except ε C)
    (composeWithFilter : K → Q → Except ε (Option C)) (query : Option Q) : Except ε (List C) :=
  match keys with
  | .error e => .error e
  | .ok pks => composeManyQuery compose composeWithFilter pks query

/-- The struct init of a relationship. -/
def relationInitIn {d : ℕ} {C : Type} (bits : ℕ) (pk : Key d) : (m : Multiplicity) →
    (Key (m.depth d) → Except ε Bool) →
      (Key (m.depth d) × Key (m.depth d) → Except ε (List (Except ε (Key (m.depth d))))) →
    (Key (m.depth d) → Except ε C) → Except ε (m.Field C)
  | .oneToOne, exist, _, compose =>
    match getIn (exist pk) compose pk with
    | .error e => .error e
    | .ok none => .error (app (.missingOneToOneChild pk.indices))
    | .ok (some c) => .ok c
  | .oneToOption, exist, _, compose => getIn (exist pk) compose pk
  | .oneToMany, _, range, compose =>
    rangeQueryIn (range (pk.fkRange bits)) compose (fun _ (q : Empty) => q.elim) none

/-- The struct init of a relationship with a query. -/
def relationInitWithQueryIn {d : ℕ} {Q C : Type} (bits : ℕ) (pk : Key d) : (m : Multiplicity) →
    (Key (m.depth d) → Except ε Bool) →
      (Key (m.depth d) × Key (m.depth d) → Except ε (List (Except ε (Key (m.depth d))))) →
    (Key (m.depth d) → Except ε C) → (Key (m.depth d) → Q → Except ε (Option C)) → Option Q →
    Except ε (Option (m.Field C))
  | .oneToOne, exist, _, _, composeWithFilter, some q =>
    filterIn (exist pk) (fun k => composeWithFilter k q) pk
  | .oneToOne, exist, range, compose, _, none =>
    (relationInitIn app bits pk .oneToOne exist range compose).map some
  | .oneToOption, exist, _, _, composeWithFilter, some q =>
    match filterIn (exist pk) (fun k => composeWithFilter k q) pk with
    | .error e => .error e
    | .ok none => .ok none
    | .ok (some c) => .ok (some (some c))
  | .oneToOption, exist, range, compose, _, none =>
    (relationInitIn app bits pk .oneToOption exist range compose).map some
  | .oneToMany, _, range, compose, composeWithFilter, query =>
    match rangeQueryIn (range (pk.fkRange bits)) compose composeWithFilter query with
    | .error e => .error e
    | .ok [] => .ok none
    | .ok (c :: cs) => .ok (some (c :: cs))

end Fields

/-! ### Instances -/

namespace EntityDef

variable {ε : Type} (app : NotFound → ε)

/-- `compose`. -/
def composeIn : {d : ℕ} → (E : EntityDef d) → E.ReadContext ε → Key d → Except ε E.Instance
  | _, mk bits _ _ order column multiplicity child, ctx, pk =>
    match initFields order (fun i => columnInitIn app (column i).table pk.indices (ctx.value i pk))
      (fun j => relationInitIn app bits pk (multiplicity j) ((child j).existIn (ctx.relationship j))
        ((child j).rangeIn (ctx.relationship j)) ((child j).composeIn (ctx.relationship j))) with
    | .error e => .error e
    | .ok (columns, relationships) => .ok ⟨pk, columns, relationships⟩

/-- `compose_with_filter`. -/
def composeWithFilterIn : {d : ℕ} → (E : EntityDef d) → E.ReadContext ε → Key d → E.Query →
    Except ε (Option E.Instance)
  | _, mk bits _ _ order column multiplicity child, ctx, pk, q =>
    letI := fun i => (column i).order
    match initFieldsWithQuery order
      (fun i => columnInitWithQueryIn app (column i).table pk.indices (q.column i) (ctx.value i pk))
      (fun j => relationInitWithQueryIn app bits pk (multiplicity j)
        ((child j).existIn (ctx.relationship j))
        ((child j).rangeIn (ctx.relationship j)) ((child j).composeIn app (ctx.relationship j))
        ((child j).composeWithFilterIn (ctx.relationship j)) (q.relationship j)) with
    | .error e => .error e
    | .ok none => .ok none
    | .ok (some (columns, relationships)) => .ok (some ⟨pk, columns, relationships⟩)

end EntityDef

/-! ### The context of the tables -/

section Tables

variable {d bits : ℕ} {Q C : Type} {pk : Key d}

lemma columnInitIn_ok {V : Type} (table : String) (pk : List ℕ) (value : Option V) :
    columnInitIn id table pk (.ok value) = columnInit table pk value := by
  cases value <;> rfl

lemma columnInitWithQueryIn_ok {V : Type} [LinearOrder V] (table : String) (pk : List ℕ)
    (filterOp : Option (FilterOp V)) (value : Option V) :
    columnInitWithQueryIn id table pk filterOp (.ok value) =
      columnInitWithQuery table pk filterOp value := by
  cases value <;> rfl

lemma getIn_ok {keys : Finset (Key d)} {compose : Key d → Except NotFound C} :
    getIn (.ok (decide (pk ∈ keys))) compose pk = getWith keys compose pk := by
  unfold getWith
  by_cases h : pk ∈ keys
  · rw [if_pos h, decide_eq_true h]
    rfl
  · rw [if_neg h, decide_eq_false h]
    rfl

lemma filterIn_ok {keys : Finset (Key d)} {composeWithFilter : Key d → Except NotFound (Option C)} :
    filterIn (.ok (decide (pk ∈ keys))) composeWithFilter pk =
      filterWith keys composeWithFilter pk := by
  unfold filterWith
  by_cases h : pk ∈ keys
  · rw [if_pos h, decide_eq_true h]
    rfl
  · rw [if_neg h, decide_eq_false h]
    rfl

/-- The accesses that the table of the keys answers. -/
structure Answers {d : ℕ} (keys : Finset (Key d)) (exist : Key d → Except NotFound Bool)
    (range : Key d × Key d → Except NotFound (List (Except NotFound (Key d)))) : Prop where
  exist : ∀ pk, exist pk = .ok (decide (pk ∈ keys))
  range : ∀ bounds, range bounds =
    .ok (((keys.filter fun k => bounds.1 ≤ k ∧ k < bounds.2).sort (· ≤ ·)).map .ok)

variable {m : Multiplicity} {keys : Finset (Key (m.depth d))}
  {exist : Key (m.depth d) → Except NotFound Bool}
variable {range : Key (m.depth d) × Key (m.depth d) →
  Except NotFound (List (Except NotFound (Key (m.depth d))))}
variable {compose : Key (m.depth d) → Except NotFound C}
  {cwf : Key (m.depth d) → Q → Except NotFound (Option C)}

lemma relationInitIn_tables (h : Answers keys exist range) :
    relationInitIn id bits pk m exist range compose = relationInit bits pk m keys compose := by
  cases m with
  | oneToOne =>
    have hget : @getIn NotFound (Key d) C (exist pk) compose pk = @getWith d C keys compose pk :=
      (congrArg (fun r => @getIn NotFound (Key d) C r compose pk) (h.exist pk)).trans getIn_ok
    dsimp only [relationInitIn, relationInit, Multiplicity.depth]
    rw [hget]
    cases @getWith d C keys compose pk with
    | error e => rfl
    | ok c => cases c <;> rfl
  | oneToOption =>
    exact (congrArg (fun r => @getIn NotFound (Key d) C r compose pk) (h.exist pk)).trans getIn_ok
  | oneToMany =>
    exact (congrArg (fun r => rangeQueryIn r compose _ none) (h.range (pk.fkRange bits))).trans
      (composeManyPlain_map_ok _)

lemma relationInitWithQueryIn_tables (h : Answers keys exist range) (query : Option Q) :
    relationInitWithQueryIn id bits pk m exist range compose cwf query =
      relationInitWithQuery bits pk m keys compose cwf query := by
  have hfilter : ∀ {keys : Finset (Key d)} {exist : Key d → Except NotFound Bool}
      (cwf : Key d → Q → Except NotFound (Option C)) (q : Q), exist pk = .ok (decide (pk ∈ keys)) →
      filterIn (exist pk) (fun k => cwf k q) pk = filterWith keys (fun k => cwf k q) pk := by
    intro keys exist cwf q hexist
    rw [hexist]
    exact filterIn_ok
  cases m with
  | oneToOne =>
    cases query with
    | none => exact congrArg (Except.map some) (relationInitIn_tables h)
    | some q => exact hfilter cwf q (h.exist pk)
  | oneToOption =>
    cases query with
    | none => exact congrArg (Except.map some) (relationInitIn_tables h)
    | some q =>
      have hread := hfilter cwf q (h.exist pk)
      dsimp only [relationInitWithQueryIn, relationInitWithQuery, Multiplicity.depth]
      rw [hread]
      cases @filterWith d C keys (fun k => cwf k q) pk with
      | error e => rfl
      | ok c => cases c <;> rfl
  | oneToMany =>
    have hread : rangeQueryIn (range (pk.fkRange bits)) compose cwf query =
        rangeQueryWith keys compose cwf (pk.fkRange bits) query :=
      congrArg (fun r => rangeQueryIn r compose cwf query) (h.range (pk.fkRange bits))
    dsimp only [relationInitWithQueryIn, relationInitWithQuery]
    rw [hread]
    cases rangeQueryWith keys compose cwf (pk.fkRange bits) query with
    | error e => rfl
    | ok cs => cases cs <;> rfl

end Tables

namespace EntityDef

lemma answers_context {d : ℕ} (E : EntityDef d) (t : E.Tables) :
    Answers (E.keys t) (E.existIn (E.context t)) (E.rangeIn (E.context t)) := by
  cases E
  exact ⟨fun _ => rfl, fun _ => rfl⟩

/-- **Reading from the context of the tables** is reading from the tables. -/
theorem composeIn_context {d : ℕ} (E : EntityDef d) (t : E.Tables) :
    E.composeIn id (E.context t) = E.compose t := by
  induction E with
  | mk bits n m order column multiplicity child ih =>
    funext pk
    have hcolumns := funext fun i =>
      columnInitIn_ok (column i).table pk.indices ((column i).tables.getValue (t.column i) pk)
    have hrelationships : ∀ j, relationInitIn id bits pk (multiplicity j)
        ((child j).existIn ((child j).context (t.relationship j)))
        ((child j).rangeIn ((child j).context (t.relationship j)))
        ((child j).composeIn id ((child j).context (t.relationship j))) =
          relationInit bits pk (multiplicity j) ((child j).keys (t.relationship j))
            ((child j).compose (t.relationship j)) := by
      intro j
      rw [ih j]
      exact relationInitIn_tables ((child j).answers_context _)
    unfold composeIn compose context
    simp only
    rw [hcolumns, funext hrelationships]
    cases initFields order _ _ <;> rfl

theorem composeWithFilterIn_context {d : ℕ} (E : EntityDef d) (t : E.Tables) :
    E.composeWithFilterIn id (E.context t) = E.composeWithFilter t := by
  induction E with
  | mk bits n m order column multiplicity child ih =>
    funext pk q
    have hcolumns := funext fun i => @columnInitWithQueryIn_ok (column i).V (column i).order
      (column i).table pk.indices (q.column i) ((column i).tables.getValue (t.column i) pk)
    have hrelationships : ∀ j, relationInitWithQueryIn id bits pk (multiplicity j)
        ((child j).existIn ((child j).context (t.relationship j)))
        ((child j).rangeIn ((child j).context (t.relationship j)))
        ((child j).composeIn id ((child j).context (t.relationship j)))
        ((child j).composeWithFilterIn id ((child j).context (t.relationship j))) (q.relationship j) =
          relationInitWithQuery bits pk (multiplicity j) ((child j).keys (t.relationship j))
            ((child j).compose (t.relationship j)) ((child j).composeWithFilter (t.relationship j))
            (q.relationship j) := by
      intro j
      rw [composeIn_context, ih j]
      exact relationInitWithQueryIn_tables ((child j).answers_context _) _
    unfold composeWithFilterIn composeWithFilter context
    simp only
    rw [hcolumns, funext hrelationships]
    cases initFieldsWithQuery order _ _ with
    | error e => rfl
    | ok fields => cases fields <;> rfl

end EntityDef

end Redbit.Entity
