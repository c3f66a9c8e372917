import Mathlib.Data.List.Basic
import Mathlib.Data.Nat.Notation

/-!
# The columns of an entity (`field_parser.rs`)

The macro reads the fields of a struct into columns and puts them into the order in which the
writers of the context, the store statements and the commits follow each other.  A key under a
parent comes first and a root key last; a relationship that is written from another column follows
that column, both behind all others.

The columns are those `parse_entity_field` has read; of a relationship the child is a parameter,
since the order does not look at it.
-/

namespace Redbit.Entity

/-- `Multiplicity`. -/
inductive Multiplicity where
  | oneToOption
  | oneToOne
  | oneToMany
  deriving DecidableEq, Repr

/-- `KeyDef`. -/
inductive KeyDef where
  | pk (name : String)
  | fk (name : String) (multiplicity : Multiplicity)
  deriving DecidableEq, Repr

/-- `KeyDef::is_root`. -/
def KeyDef.isRoot : KeyDef → Bool
  | .pk _ => true
  | .fk _ _ => false

/-- `IndexingType`, with the number of shards of the column. -/
inductive IndexingType where
  | off (shards : ℕ)
  | index (shards : ℕ)
  | range (shards : ℕ)
  | dict (shards : ℕ)
  deriving DecidableEq, Repr

/-- The number of shards. -/
def IndexingType.shards : IndexingType → ℕ
  | .off n => n
  | .index n => n
  | .range n => n
  | .dict n => n

/-- `ColumnDef`, with children of type `C`.  Of `WriteFrom` only the column that is used matters. -/
inductive ColumnDef (C : Type) where
  | key (key : KeyDef)
  | plain (name : String) (indexing : IndexingType) (used : Bool)
  | relationship (name : String) (writeFrom : Option String) (used : Bool)
      (multiplicity : Multiplicity) (child : C)
  | transient (name : String)
  | transientRel (name : String)

variable {C : Type}

/-! ### `take_and_chain_relation_with_plain` -/

/-- `extract_dependency`: the column that this one is written from. -/
def ColumnDef.extractDependency : ColumnDef C → Option String
  | .relationship _ (some uses) _ _ _ => some uses
  | _ => none

/-- `find_dependency_by_idx`. -/
def findDependencyByIdx (columns : List (ColumnDef C)) : Option (ℕ × String) :=
  columns.zipIdx.findSome? fun c => c.1.extractDependency.map fun uses => (c.2, uses)

/-- A column or a relationship of this name. -/
def ColumnDef.isNamed (uses : String) : ColumnDef C → Bool
  | .plain name _ _ => name = uses
  | .relationship name _ _ _ _ => name = uses
  | _ => false

/-- `find_used_idx_for_dependency`. -/
def findUsedIdxForDependency (columns : List (ColumnDef C)) (uses : String) (skipIdx : ℕ) : Option ℕ :=
  columns.zipIdx.findIdx? fun c => c.2 != skipIdx && c.1.isNamed uses

/-- The mark on the column that is used. -/
def ColumnDef.markUsed : ColumnDef C → Except String (ColumnDef C)
  | .plain name indexing _ => .ok (.plain name indexing true)
  | .relationship name writeFrom _ multiplicity child =>
    .ok (.relationship name writeFrom true multiplicity child)
  | _ => .error "internal invariant: expected Plain or Relationship"

/-- `take_and_chain_relation_with_plain`: the column that is used and then the relationship that
uses it go to the end.  The larger index is removed first. -/
def takeAndChainRelationWithPlain (columns : List (ColumnDef C)) :
    Except String (List (ColumnDef C)) :=
  match findDependencyByIdx columns with
  | none => .ok columns
  | some (depIdx, uses) =>
    match findUsedIdxForDependency columns uses depIdx with
    | none => .error s!"dependency not satisfied: expected field `{uses}` (Plain or Relationship)"
    | some usedIdx =>
      let rest := if usedIdx > depIdx then (columns.eraseIdx usedIdx).eraseIdx depIdx
        else (columns.eraseIdx depIdx).eraseIdx usedIdx
      match columns[usedIdx]?, columns[depIdx]? with
      | some usedCol, some usingCol =>
        match usedCol.markUsed with
        | .error e => .error e
        | .ok usedCol => .ok (rest ++ [usedCol, usingCol])
      | _, _ => .error "internal invariant: expected Plain or Relationship"

/-! ### `get_field_macros` -/

/-- What the loop over the fields has collected. -/
structure Fields (C : Type) where
  key : Option KeyDef
  columns : List (ColumnDef C)
  transients : List (ColumnDef C)

/-- The loop over the fields. -/
def Fields.collect (acc : Fields C) : List (ColumnDef C) → Except String (Fields C)
  | [] => .ok acc
  | .key key :: fields =>
    if acc.key.isSome then .error "Multiple `#[pk]` columns found; only one is allowed"
    else collect { acc with key := some key } fields
  | .transient name :: fields => collect
      { acc with transients := acc.transients ++ [.transient name] } fields
  | .transientRel name :: fields => collect
      { acc with transients := acc.transients ++ [.transientRel name] } fields
  | column :: fields => collect { acc with columns := acc.columns ++ [column] } fields

/-- `get_field_macros`. -/
def getFieldMacros (fields : List (ColumnDef C)) : Except String (KeyDef × List (ColumnDef C)) :=
  match Fields.collect ⟨none, [], []⟩ fields with
  | .error e => .error e
  | .ok acc =>
    match acc.key with
    | none => .error "`#[pk]` or `#[fk] attribute not found on any column."
    | some key =>
      match takeAndChainRelationWithPlain (if key.isRoot then acc.columns
        else .key key :: acc.columns) with
      | .error e => .error e
      | .ok columns =>
        let columns := columns ++ acc.transients
        .ok (key, if key.isRoot then columns ++ [.key key] else columns)

/-- **A root key is the last column.** -/
lemma getFieldMacros_root {fields columns : List (ColumnDef C)} {key : KeyDef}
    (h : getFieldMacros fields = .ok (key, columns)) (hroot : key.isRoot = true) :
    ∃ others, columns = others ++ [.key key] := by
  unfold getFieldMacros at h
  split at h
  · cases h
  · split at h
    · cases h
    · split at h
      · cases h
      · obtain ⟨rfl, rfl⟩ := Prod.mk.inj (Except.ok.inj h)
        exact ⟨_, if_pos hroot⟩

end Redbit.Entity
