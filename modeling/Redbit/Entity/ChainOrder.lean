import Redbit.Entity.FieldParser
import Mathlib.Data.List.Perm.Basic
import Mathlib.Data.List.Nodup
import Mathlib.Logic.Relation

/-!
# The order in which columns are written (`field_parser.rs`)

A relationship that is written from another column must come behind it, and the column it uses must
be written at once and not on the flush.  `take_and_chain_relation_with_plain` brings the first such
relationship, and the column it uses, to the end of the list; the others stay as they are.

`Satisfied` is what the order of all columns needs.  `satisfied_iff` says for which lists it is
reached: the relationships after the first one must have been in order, with their columns marked,
before.
-/

namespace Redbit.Entity

open scoped List

variable {C : Type}

/-! ### In place -/

/-- `take_and_chain_relation_with_plain` on the list it changes: the result, and the list
afterwards. -/
def takeAndChainInPlace (columns : List (ColumnDef C)) :
    Except String (Option (ColumnDef C × String)) × List (ColumnDef C) :=
  match findDependencyByIdx columns with
  | none => (.ok none, columns)
  | some (depIdx, uses) =>
    match findUsedIdxForDependency columns uses depIdx with
    | none => (.error s!"dependency not satisfied: expected field `{uses}` (Plain or Relationship)",
        columns)
    | some usedIdx =>
      let rest := if usedIdx > depIdx then (columns.eraseIdx usedIdx).eraseIdx depIdx
        else (columns.eraseIdx depIdx).eraseIdx usedIdx
      match columns[usedIdx]?, columns[depIdx]? with
      | some usedCol, some usingCol =>
        match usedCol.markUsed with
        | .error e => (.error e, rest)
        | .ok usedCol => (.ok (some (usingCol, uses)), rest ++ [usedCol, usingCol])
      | _, _ => (.error "internal invariant: expected Plain or Relationship", rest)

/-- The list that `get_field_macros` goes on with. -/
lemma takeAndChainRelationWithPlain_eq (columns : List (ColumnDef C)) :
    takeAndChainRelationWithPlain columns = (takeAndChainInPlace columns).1.map fun _ =>
      (takeAndChainInPlace columns).2 := by
  unfold takeAndChainRelationWithPlain takeAndChainInPlace
  cases hdep : findDependencyByIdx columns with
  | none => rfl
  | some dep =>
    obtain ⟨depIdx, uses⟩ := dep
    dsimp only
    cases hused : findUsedIdxForDependency columns uses depIdx with
    | none => rfl
    | some usedIdx =>
      dsimp only
      cases columns[usedIdx]? with
      | none => rfl
      | some usedCol =>
        cases columns[depIdx]? with
        | none => rfl
        | some usingCol =>
          dsimp only
          cases usedCol.markUsed <;> rfl

/-! ### What the order needs -/

namespace ColumnDef

/-- The name of a column. -/
def name : ColumnDef C → String
  | .key (.pk name) => name
  | .key (.fk name _) => name
  | .plain name _ _ => name
  | .relationship name _ _ _ _ => name
  | .transient name => name
  | .transientRel name => name

/-- The column `d` is a relationship that is written from `c`. -/
def uses (d c : ColumnDef C) : Bool :=
  match d.extractDependency with
  | some n => c.isNamed n
  | none => false

/-- Whether the column is marked as used. -/
def isUsed : ColumnDef C → Bool
  | .plain _ _ used => used
  | .relationship _ _ used _ _ => used
  | _ => false

/-- The column with the mark. -/
def marked (c : ColumnDef C) : ColumnDef C :=
  match c.markUsed with
  | .ok c => c
  | .error _ => c

end ColumnDef

/-- The statement that writes a row. -/
inductive InsertMethod where
  | insertNow
  | insertOnFlush
  deriving DecidableEq, Repr

/-- `insert_method_ident`. -/
def insertMethodIdent (used : Bool) : InsertMethod := if used then .insertNow else .insertOnFlush

/-- The column with the mark, where a relationship is written from it. -/
def markIfUsed (columns : List (ColumnDef C)) (c : ColumnDef C) : ColumnDef C :=
  if columns.any (·.uses c) then c.marked else c

/-- The column is not written from another one and no other one is written from it. -/
def uninvolved (columns : List (ColumnDef C)) (c : ColumnDef C) : Bool :=
  c.extractDependency.isNone && !columns.any (·.uses c)

/-- The columns in an order that writes every column before what is written from it. -/
structure Chained (columns result : List (ColumnDef C)) : Prop where
  perm : result ~ columns.map (markIfUsed columns)
  order : result.filter (uninvolved columns) = columns.filter (uninvolved columns)
  after : result.Pairwise fun c d => c.uses d = false
  now : ∀ c ∈ result, columns.any (·.uses c) → insertMethodIdent c.isUsed = .insertNow

/-- The relationship `d` is written from a column that is not there. -/
def Unmet (columns : List (ColumnDef C)) (d : ColumnDef C) : Prop :=
  ∃ n, d.extractDependency = some n ∧ ∀ c ∈ columns, c.name ≠ d.name → c.isNamed n = false

/-- What the reordering has to reach: an error exactly where a column is missing, with the list as
it was, and else the columns chained. -/
structure Satisfied (columns : List (ColumnDef C)) : Prop where
  error_iff : (∃ e, (takeAndChainInPlace columns).1 = .error e) ↔ ∃ d ∈ columns, Unmet columns d
  unchanged : ∀ e, (takeAndChainInPlace columns).1 = .error e →
    (takeAndChainInPlace columns).2 = columns
  chained : ∀ r, (takeAndChainInPlace columns).1 = .ok r →
    Chained columns (takeAndChainInPlace columns).2

/-- The column named `a` is written from the one named `b`. -/
def DependsOn (columns : List (ColumnDef C)) (a b : String) : Prop :=
  ∃ d ∈ columns, d.name = a ∧ d.extractDependency = some b

/-- No column is written from itself, over whatever others. -/
def Acyclic (columns : List (ColumnDef C)) : Prop := ∀ a, ¬ Relation.TransGen (DependsOn columns) a a

/-- The relationships behind the first one `d`, which is written from `u`, are in order as they
stand: the column that each uses is there and marked, is neither `u` nor `d`, and is in front of it,
unless the relationship is `u`.
-/
def RestInOrder (columns : List (ColumnDef C)) : Prop :=
  ∀ pre d post, columns = pre ++ d :: post → (∀ c ∈ pre, c.extractDependency = none) →
    ∀ u ∈ columns, d.uses u → ∀ d' ∈ post, d'.extractDependency.isSome →
      ∃ u' ∈ columns, d'.uses u' ∧ u'.isUsed ∧ u'.name ≠ u.name ∧ u'.name ≠ d.name ∧
        (d'.name = u.name ∨ [u', d'] <+ columns)

/-! ### The two removals -/

lemma findDependencyByIdx_none {columns : List (ColumnDef C)}
    (h : findDependencyByIdx columns = none) : ∀ c ∈ columns, c.extractDependency = none := by
  intro c hc
  obtain ⟨i, hi, rfl⟩ := List.mem_iff_getElem.mp hc
  have hnone := List.findSome?_eq_none_iff.mp h (columns[i], i)
    (List.mem_zipIdx_iff_getElem?.mpr (by simp [hi]))
  simpa using hnone

/-- The first relationship that is written from another column. -/
lemma findDependencyByIdx_some {columns : List (ColumnDef C)} {depIdx : ℕ} {n : String}
    (h : findDependencyByIdx columns = some (depIdx, n)) :
    ∃ pre d post, columns = pre ++ d :: post ∧ depIdx = pre.length ∧
      (∀ c ∈ pre, c.extractDependency = none) ∧
      d.extractDependency = some n := by
  have hfrom : ∀ (columns : List (ColumnDef C)) (k : ℕ),
      (columns.zipIdx k).findSome? (fun c => c.1.extractDependency.map fun uses => (c.2, uses)) =
        some (depIdx, n) →
      ∃ pre d post, columns = pre ++ d :: post ∧ depIdx = k + pre.length ∧
        (∀ c ∈ pre, c.extractDependency = none) ∧
        d.extractDependency = some n := by
    intro columns
    induction columns with
    | nil =>
      intro k h
      cases h
    | cons c columns ih =>
      intro k h
      rw [List.zipIdx_cons, List.findSome?_cons] at h
      cases hc : c.extractDependency with
      | none =>
        rw [hc] at h
        obtain ⟨pre, d, post, rfl, rfl, hpre, hd⟩ := ih (k + 1) h
        refine ⟨c :: pre, d, post, rfl, ?_, ?_, hd⟩
        · rw [List.length_cons]
          omega
        · intro x hx
          rcases List.mem_cons.mp hx with rfl | hx
          · exact hc
          · exact hpre x hx
      | some m =>
        rw [hc] at h
        obtain ⟨rfl, rfl⟩ := Prod.mk.inj (Option.some.inj h)
        exact ⟨[], c, columns, rfl, rfl, by simp, hc⟩
  obtain ⟨pre, d, post, hcols, hidx, hpre, hd⟩ := hfrom columns 0 h
  exact ⟨pre, d, post, hcols, by omega, hpre, hd⟩

lemma findUsedIdxForDependency_none {columns : List (ColumnDef C)} {n : String} {skipIdx : ℕ}
    (h : findUsedIdxForDependency columns n skipIdx = none) {i : ℕ} (hi : i < columns.length)
    (hne : i ≠ skipIdx) : columns[i].isNamed n = false := by
  have hnone := List.findIdx?_eq_none_iff.mp h (columns[i], i)
    (List.mem_zipIdx_iff_getElem?.mpr (by simp [hi]))
  simpa [hne] using hnone

lemma findUsedIdxForDependency_some {columns : List (ColumnDef C)} {n : String} {skipIdx usedIdx : ℕ}
    (h : findUsedIdxForDependency columns n skipIdx = some usedIdx) :
    ∃ hi : usedIdx < columns.length, usedIdx ≠ skipIdx ∧ columns[usedIdx].isNamed n = true := by
  obtain ⟨hi, hp, -⟩ := List.findIdx?_eq_some_iff_getElem.mp h
  rw [List.length_zipIdx] at hi
  rw [List.getElem_zipIdx] at hp
  simpa [hi] using hp

/-- Among columns of different names the removal at an index is the removal of a name. -/
lemma eraseIdx_eq_filter {columns : List (ColumnDef C)} (hnames : (columns.map (·.name)).Nodup) {i : ℕ}
    {c : ColumnDef C} (h : columns[i]? = some c) :
    columns.eraseIdx i = columns.filter (·.name ≠ c.name) := by
  induction columns generalizing i with
  | nil => cases h
  | cons d columns ih =>
    obtain ⟨hd, htail⟩ := List.nodup_cons.mp hnames
    have hother : ∀ x ∈ columns, x.name ≠ d.name := fun x hx heq => hd (List.mem_map.mpr ⟨x, hx, heq⟩)
    cases i with
    | zero =>
      obtain rfl := Option.some.inj h
      rw [List.eraseIdx_cons_zero, List.filter_cons_of_neg (by simp)]
      exact (List.filter_eq_self.mpr fun x hx => by simpa using hother x hx).symm
    | succ i =>
      rw [List.getElem?_cons_succ] at h
      have hne : d.name ≠ c.name := (hother c (List.mem_of_getElem? h)).symm
      rw [List.eraseIdx_cons_succ, List.filter_cons_of_pos (by simpa using hne), ih htail h]

/-- The columns but two. -/
def others (columns : List (ColumnDef C)) (u d : ColumnDef C) : List (ColumnDef C) :=
  columns.filter fun c => c.name ≠ u.name ∧ c.name ≠ d.name

/-- Both orders of removal take out the two columns. -/
lemma removals_eq {columns : List (ColumnDef C)} (hnames : (columns.map (·.name)).Nodup) {i j : ℕ}
    {u d : ColumnDef C} (hu : columns[i]? = some u) (hd : columns[j]? = some d) (hne : i ≠ j) :
    (if i > j then (columns.eraseIdx i).eraseIdx j else (columns.eraseIdx j).eraseIdx i) =
      others columns u d := by
  have hnames' : ∀ k, ((columns.eraseIdx k).map (·.name)).Nodup := fun k => by
    rw [← List.eraseIdx_map]
    exact hnames.eraseIdx k
  split
  · next hlt =>
    have hd' : (columns.eraseIdx i)[j]? = some d := by rw [List.getElem?_eraseIdx_of_lt hlt, hd]
    rw [eraseIdx_eq_filter (hnames' i) hd', eraseIdx_eq_filter hnames hu, List.filter_filter]
    simp [others, Bool.and_comm]
  · next hle =>
    have hu' : (columns.eraseIdx j)[i]? = some u := by rw [List.getElem?_eraseIdx_of_lt (by omega), hu]
    rw [eraseIdx_eq_filter (hnames' j) hu', eraseIdx_eq_filter hnames hd, List.filter_filter]
    simp [others]

/-! ### The marks -/

namespace ColumnDef

@[simp] lemma name_marked (c : ColumnDef C) : c.marked.name = c.name := by
  cases c <;> rfl

@[simp] lemma extractDependency_marked (c : ColumnDef C) :
    c.marked.extractDependency = c.extractDependency := by
  cases c with
  | relationship name writeFrom used multiplicity child => cases writeFrom <;> rfl
  | _ => rfl

@[simp] lemma isNamed_marked (c : ColumnDef C) (n : String) : c.marked.isNamed n = c.isNamed n := by
  cases c <;> rfl

@[simp] lemma uses_marked_right (d c : ColumnDef C) : d.uses c.marked = d.uses c := by
  simp [uses]

@[simp] lemma uses_marked_left (d c : ColumnDef C) : d.marked.uses c = d.uses c := by
  simp [uses]

lemma name_of_isNamed {c : ColumnDef C} {n : String} (h : c.isNamed n = true) : c.name = n := by
  cases c <;> simp_all [isNamed, name]

lemma markUsed_of_isNamed {c : ColumnDef C} {n : String} (h : c.isNamed n = true) :
    c.markUsed = .ok c.marked ∧ c.marked.isUsed = true := by
  cases c <;> simp_all [isNamed, markUsed, marked, isUsed]

/-- A marked column is as it is with the mark. -/
lemma marked_of_isUsed {c : ColumnDef C} (h : c.isUsed = true) : c.marked = c := by
  cases c <;> simp_all [isUsed, marked, markUsed]

lemma uses_iff {d c : ColumnDef C} : d.uses c = true ↔ ∃ n, d.extractDependency = some n ∧
    c.isNamed n = true := by
  unfold uses
  cases d.extractDependency <;> simp

/-- A relationship that is written from a column names one. -/
lemma extractDependency_ne_none {d c : ColumnDef C} (h : d.uses c = true) :
    d.extractDependency ≠ none := by
  obtain ⟨n, hn, -⟩ := uses_iff.mp h
  rw [hn]
  exact Option.some_ne_none n

end ColumnDef

section Cases

variable {columns : List (ColumnDef C)}

lemma eq_of_name (hnames : (columns.map (·.name)).Nodup) {a b : ColumnDef C} (ha : a ∈ columns)
    (hb : b ∈ columns) (h : a.name = b.name) : a = b := List.inj_on_of_nodup_map hnames ha hb h

/-- A relationship is written from one column at most. -/
lemma eq_of_uses (hnames : (columns.map (·.name)).Nodup) {d a b : ColumnDef C} (ha : a ∈ columns)
    (hb : b ∈ columns) (hda : d.uses a = true) (hdb : d.uses b = true) : a = b := by
  obtain ⟨n, hn, hna⟩ := ColumnDef.uses_iff.mp hda
  obtain ⟨m, hm, hmb⟩ := ColumnDef.uses_iff.mp hdb
  rw [hn] at hm
  obtain rfl := Option.some.inj hm
  exact eq_of_name hnames ha hb ((ColumnDef.name_of_isNamed hna).trans
    (ColumnDef.name_of_isNamed hmb).symm)

/-- **What the function does.**  Nothing is written from another column; or the column that the
first relationship uses is missing; or the two are at the end, the used one marked. -/
lemma takeAndChainInPlace_cases (hnames : (columns.map (·.name)).Nodup) :
    ((∀ c ∈ columns, c.extractDependency = none) ∧ takeAndChainInPlace columns = (.ok none, columns)) ∨
      ∃ pre d post, columns = pre ++ d :: post ∧ (∀ c ∈ pre, c.extractDependency = none) ∧
        ((Unmet columns d ∧ ∃ e, takeAndChainInPlace columns = (.error e, columns)) ∨
          ∃ n u, u ∈ columns ∧ d.uses u = true ∧ u.name ≠ d.name ∧
            takeAndChainInPlace columns = (.ok (some (d, n)),
              others columns u d ++ [u.marked, d])) := by
  unfold takeAndChainInPlace
  cases hdep : findDependencyByIdx columns with
  | none => exact Or.inl ⟨findDependencyByIdx_none hdep, rfl⟩
  | some dep =>
    obtain ⟨depIdx, n⟩ := dep
    obtain ⟨pre, d, post, hcols, rfl, hpre, hd⟩ := findDependencyByIdx_some hdep
    have hget : columns[pre.length]? = some d := by simp [hcols]
    refine Or.inr ⟨pre, d, post, hcols, hpre, ?_⟩
    dsimp only
    cases hused : findUsedIdxForDependency columns n pre.length with
    | none =>
      refine Or.inl ⟨⟨n, hd, ?_⟩, _, rfl⟩
      intro c hc hne
      obtain ⟨i, hi, rfl⟩ := List.mem_iff_getElem.mp hc
      apply findUsedIdxForDependency_none hused hi
      rintro rfl
      rw [List.getElem?_eq_getElem hi] at hget
      exact hne (congrArg ColumnDef.name (Option.some.inj hget))
    | some usedIdx =>
      obtain ⟨hi, hne, hnamed⟩ := findUsedIdxForDependency_some hused
      have hu : columns[usedIdx]? = some columns[usedIdx] := List.getElem?_eq_getElem hi
      right
      refine ⟨n, columns[usedIdx], List.getElem_mem hi, ColumnDef.uses_iff.mpr ⟨n, hd, hnamed⟩, ?_, ?_⟩
      · intro heq
        have hidx : (columns.map (·.name))[usedIdx]? = (columns.map (·.name))[pre.length]? := by
          rw [List.getElem?_map, List.getElem?_map, hu, hget, Option.map_some, Option.map_some, heq]
        exact hne ((List.getElem?_inj (by simpa using hi) hnames).mp hidx)
      · simp only [hu, hget, (ColumnDef.markUsed_of_isNamed hnamed).1]
        rw [removals_eq hnames hu hget hne]

/-- The first relationship is one. -/
lemma first_unique {pre pre' post post' : List (ColumnDef C)} {d d' : ColumnDef C}
    (h : pre ++ d :: post = pre' ++ d' :: post') (hpre : ∀ c ∈ pre, c.extractDependency = none)
    (hpre' : ∀ c ∈ pre', c.extractDependency = none) (hd : d.extractDependency ≠ none)
    (hd' : d'.extractDependency ≠ none) : d = d' ∧ post = post' := by
  rcases List.append_eq_append_iff.mp h with ⟨mid, hmid, htail⟩ | ⟨mid, hmid, htail⟩
  · cases mid with
    | nil => exact List.cons.inj htail
    | cons c mid =>
      obtain ⟨rfl, -⟩ := List.cons.inj htail
      exact absurd (hpre' d (by simp [hmid])) hd
  · cases mid with
    | nil =>
      obtain ⟨rfl, rfl⟩ := List.cons.inj htail
      exact ⟨rfl, rfl⟩
    | cons c mid =>
      obtain ⟨rfl, -⟩ := List.cons.inj htail
      exact absurd (hpre d' (by simp [hmid])) hd'

lemma mem_others {u d c : ColumnDef C} : c ∈ others columns u d ↔ c ∈ columns ∧ c.name ≠ u.name ∧
    c.name ≠ d.name := by
  simp [others]

lemma uninvolved_iff {c : ColumnDef C} :
    uninvolved columns c = true ↔ c.extractDependency = none ∧ ∀ d ∈ columns, d.uses c = false := by
  simp [uninvolved]

lemma others_sublist (u d : ColumnDef C) : others columns u d <+ columns := List.filter_sublist

lemma others_perm (hnames : (columns.map (·.name)).Nodup) {u d : ColumnDef C} (hu : u ∈ columns)
    (hd : d ∈ columns) (hne : u.name ≠ d.name) : columns ~ others columns u d ++ [u, d] := by
  have hnodup : columns.Nodup := List.Nodup.of_map _ hnames
  have hpair : columns.filter (fun c => !decide (c.name ≠ u.name ∧ c.name ≠ d.name)) ~ [u, d] := by
    refine (List.perm_ext_iff_of_nodup (hnodup.filter _) ?_).mpr ?_
    · simpa using fun heq => hne (congrArg ColumnDef.name heq)
    · intro c
      rw [List.mem_filter, List.mem_cons, List.mem_singleton]
      constructor
      · rintro ⟨hc, hname⟩
        have hor : c.name = u.name ∨ c.name = d.name := by
          by_contra hnot
          rw [not_or] at hnot
          simp [hnot] at hname
        exact hor.imp (eq_of_name hnames hc hu) (eq_of_name hnames hc hd)
      · rintro (rfl | rfl)
        · exact ⟨hu, by simp⟩
        · exact ⟨hd, by simp⟩
  exact (List.filter_append_perm _ columns).symm.trans (hpair.append_left _)

/-! ### No cycles -/

lemma dependsOn_of_uses {d c : ColumnDef C} (hd : d ∈ columns) (h : d.uses c = true) :
    DependsOn columns d.name c.name := by
  obtain ⟨n, hn, hnamed⟩ := ColumnDef.uses_iff.mp h
  rw [ColumnDef.name_of_isNamed hnamed]
  exact ⟨d, hd, rfl, hn⟩

lemma Acyclic.irrefl (h : Acyclic columns) {d : ColumnDef C} (hd : d ∈ columns) :
    d.uses d = false := by
  by_contra huses
  exact h _ (.single (dependsOn_of_uses hd (by simpa using huses)))

lemma Acyclic.asymm (h : Acyclic columns) {d c : ColumnDef C} (hd : d ∈ columns) (hc : c ∈ columns)
    (huses : d.uses c = true) : c.uses d = false := by
  by_contra hback
  exact h _ (.tail (.single (dependsOn_of_uses hd huses))
    (dependsOn_of_uses hc (by simpa using hback)))

/-- Names whose rank goes down along every dependency have no cycle. -/
lemma acyclic_of_rank (rank : String → ℕ)
    (h : ∀ d ∈ columns, ∀ n, d.extractDependency = some n → rank n < rank d.name) :
    Acyclic columns := by
  have hdown : ∀ a b, Relation.TransGen (DependsOn columns) a b → rank b < rank a := by
    intro a b hab
    induction hab with
    | single hstep =>
      obtain ⟨d, hd, rfl, hn⟩ := hstep
      exact h d hd _ hn
    | tail _ hstep ih =>
      obtain ⟨d, hd, rfl, hn⟩ := hstep
      exact Nat.lt_trans (h d hd _ hn) ih
  intro a hcycle
  exact Nat.lt_irrefl _ (hdown a a hcycle)

/-! ### The rest of the relationships -/

/-- Of two columns one is in front of the other. -/
lemma sublist_or_sublist {α : Type} {l : List α} {a b : α} (ha : a ∈ l) (hb : b ∈ l) (hne : a ≠ b) :
    [a, b] <+ l ∨ [b, a] <+ l := by
  induction l with
  | nil => cases ha
  | cons c l ih =>
    rcases List.mem_cons.mp ha with rfl | hal
    · have hbl : b ∈ l := (List.mem_cons.mp hb).resolve_left hne.symm
      exact Or.inl ((List.singleton_sublist.mpr hbl).cons_cons a)
    · rcases List.mem_cons.mp hb with rfl | hbl
      · exact Or.inr ((List.singleton_sublist.mpr hal).cons_cons b)
      · rcases ih hal hbl with h | h
        · exact Or.inl (h.cons c)
        · exact Or.inr (h.cons c)

/-- Two columns are not in front of each other. -/
lemma not_sublist_swap {α : Type} {l : List α} (hl : l.Nodup) {a b : α} (hab : [a, b] <+ l) :
    ¬ [b, a] <+ l := by
  induction l with
  | nil => cases hab
  | cons c l ih =>
    obtain ⟨hc, hl⟩ := List.nodup_cons.mp hl
    intro hba
    cases hab with
    | cons _ hab =>
      cases hba with
      | cons _ hba => exact ih hl hab hba
      | cons_cons _ hba => exact hc (hab.subset (by simp))
    | cons_cons _ hab =>
      cases hba with
      | cons _ hba => exact hc (hba.subset (by simp))
      | cons_cons _ hba => exact hc (hba.subset (by simp))

section First

variable {pre post : List (ColumnDef C)} {d u : ColumnDef C} (hnames : (columns.map (·.name)).Nodup)
  (hacyclic : Acyclic columns) (hcols : columns = pre ++ d :: post)
    (hpre : ∀ c ∈ pre, c.extractDependency = none)
  (hu : u ∈ columns) (hdu : d.uses u = true)

include hcols in
lemma first_mem : d ∈ columns := by simp [hcols]

include hnames hcols in
lemma name_ne_first {d' : ColumnDef C} (hd' : d' ∈ post) : d'.name ≠ d.name := by
  rw [hcols, List.map_append, List.map_cons] at hnames
  intro heq
  exact (List.nodup_cons.mp (List.nodup_append.mp hnames).2.1).1 (heq ▸ List.mem_map_of_mem hd')

include hcols hpre in
/-- A relationship that is written from another column is the first one or behind it. -/
lemma mem_post_of_uses {d' c : ColumnDef C} (hd' : d' ∈ columns) (h : d'.uses c = true) :
    d' = d ∨ d' ∈ post := by
  rw [hcols, List.mem_append, List.mem_cons] at hd'
  rcases hd' with hmem | hmem
  · exact absurd (hpre d' hmem) (ColumnDef.extractDependency_ne_none h)
  · exact hmem

include hacyclic in
lemma name_ne_of_uses (hnames : (columns.map (·.name)).Nodup) {a b : ColumnDef C} (ha : a ∈ columns)
    (hb : b ∈ columns) (h : a.uses b = true) : b.name ≠ a.name := by
  intro heq
  rw [eq_of_name hnames hb ha heq, hacyclic.irrefl ha] at h
  cases h

include hnames hacyclic hcols hpre hu hdu

lemma takeAndChainInPlace_ok :
    ∃ n, takeAndChainInPlace columns = (.ok (some (d, n)), others columns u d ++ [u.marked, d]) := by
  have hd := first_mem hcols
  have hdep := ColumnDef.extractDependency_ne_none hdu
  obtain ⟨hnone, -⟩ | ⟨pre', d', post', hcols', hpre',
      ⟨⟨n, hn, hunmet⟩, -⟩ | ⟨n, u', hu', hdu', -, heq⟩⟩ :=
    takeAndChainInPlace_cases hnames
  · exact absurd (hnone d hd) hdep
  · obtain ⟨rfl, -⟩ := first_unique (hcols.symm.trans hcols') hpre hpre' hdep (by simp [hn])
    obtain ⟨m, hm, hnamed⟩ := ColumnDef.uses_iff.mp hdu
    rw [hn] at hm
    obtain rfl := Option.some.inj hm
    rw [hunmet u hu (name_ne_of_uses hacyclic hnames hd hu hdu)] at hnamed
    cases hnamed
  · have hdep' := ColumnDef.extractDependency_ne_none hdu'
    obtain ⟨rfl, -⟩ := first_unique (hcols.symm.trans hcols') hpre hpre' hdep hdep'
    obtain rfl := eq_of_uses hnames hu hu' hdu hdu'
    exact ⟨n, heq⟩

omit hpre in
/-- The chained order of the two is an order of all only if the rest was in order. -/
lemma rest_of_chained (hchained : Chained columns (others columns u d ++ [u.marked, d]))
    {d' u' : ColumnDef C} (hd' : d' ∈ post) (hu' : u' ∈ columns) (huses : d'.uses u' = true) :
    u'.isUsed ∧ u'.name ≠ u.name ∧ u'.name ≠ d.name ∧ (d'.name = u.name ∨ [u', d'] <+ columns) := by
  have hd := first_mem hcols
  have hmem : d' ∈ columns := by simp [hcols, hd']
  have hdd' := name_ne_first hnames hcols hd'
  have hself := name_ne_of_uses hacyclic hnames hmem hu' huses
  obtain ⟨hrest, -, hlast⟩ := List.pairwise_append.mp hchained.after
  -- what is behind the rest is used by nothing in it
  have hneu : u'.name ≠ u.name := by
    intro heq
    obtain rfl := eq_of_name hnames hu' hu heq
    have hnot := hlast d' (mem_others.mpr ⟨hmem, hself.symm, hdd'⟩) u'.marked (by simp)
    rw [ColumnDef.uses_marked_right, huses] at hnot
    cases hnot
  have hned : u'.name ≠ d.name := by
    intro heq
    obtain rfl := eq_of_name hnames hu' hd heq
    by_cases hd'u : d'.name = u.name
    · rw [eq_of_name hnames hmem hu hd'u, hacyclic.asymm hd hu hdu] at huses
      cases huses
    · have hnot := hlast d' (mem_others.mpr ⟨hmem, hd'u, hdd'⟩) u' (by simp)
      rw [huses] at hnot
      cases hnot
  have hin' : u' ∈ others columns u d := mem_others.mpr ⟨hu', hneu, hned⟩
  have hused : u'.isUsed = true := by
    have hnow := hchained.now u' (List.mem_append_left _ hin') (List.any_eq_true.mpr ⟨d', hmem, huses⟩)
    cases hflag : u'.isUsed with
    | true => rfl
    | false =>
      rw [hflag] at hnow
      cases hnow
  refine ⟨hused, hneu, hned, ?_⟩
  by_cases hd'u : d'.name = u.name
  · exact Or.inl hd'u
  · right
    rcases sublist_or_sublist hu' hmem (fun heq =>
      hself (congrArg ColumnDef.name heq)) with hsub | hsub
    · exact hsub
    · have hsub' := hsub.filter fun c => c.name ≠ u.name ∧ c.name ≠ d.name
      rw [List.filter_eq_self.mpr (by simp [hd'u, hdd', hneu, hned])] at hsub'
      have hnot := hrest.forall_sublist hsub'
      rw [huses] at hnot
      cases hnot

omit hacyclic in
/-- What the condition says of a relationship that is not the first. -/
lemma rest_uses (hrest : RestInOrder columns) {d' c : ColumnDef C} (hd' : d' ∈ columns)
    (hc : c ∈ columns) (huses : d'.uses c = true) (hne : d' ≠ d) :
    c.isUsed ∧ c.name ≠ u.name ∧ c.name ≠ d.name ∧ (d'.name = u.name ∨ [c, d'] <+ columns) := by
  have hpost := (mem_post_of_uses hcols hpre hd' huses).resolve_left hne
  have hsome := Option.isSome_iff_ne_none.mpr (ColumnDef.extractDependency_ne_none huses)
  obtain ⟨u', hu', huses', hfacts⟩ := hrest pre d post hcols hpre u hu hdu d' hpost hsome
  rwa [eq_of_uses hnames hc hu' huses huses']

omit hacyclic in
/-- A column other than `u` that something uses is marked, and it is not `d`. -/
lemma isUsed_of_rest (hrest : RestInOrder columns) {c : ColumnDef C} (hc : c ∈ columns)
    (hne : c.name ≠ u.name) (hany : columns.any (·.uses c) = true) :
    c.isUsed = true ∧ c.name ≠ d.name := by
  obtain ⟨d', hd', hd'c⟩ := List.any_eq_true.mp hany
  by_cases heq : d' = d
  · subst heq
    exact absurd (congrArg ColumnDef.name (eq_of_uses hnames hc hu hd'c hdu)) hne
  · obtain ⟨hused, -, hned, -⟩ := rest_uses hnames hcols hpre hu hdu hrest hd' hc hd'c heq
    exact ⟨hused, hned⟩

/-- Nothing uses `d`. -/
lemma not_any_uses_first (hrest : RestInOrder columns) : ¬ columns.any (·.uses d) = true := by
  have hd := first_mem hcols
  have hne := (name_ne_of_uses hacyclic hnames hd hu hdu).symm
  exact fun hany => (isUsed_of_rest hnames hcols hpre hu hdu hrest hd hne hany).2 rfl

/-- Of all the columns only `u` has to get its mark. -/
lemma map_markIfUsed_of_rest (hrest : RestInOrder columns) :
    (others columns u d ++ [u, d]).map (markIfUsed columns) = others columns u d ++ [u.marked, d] := by
  have hu' : markIfUsed columns u = u.marked := if_pos (List.any_eq_true.mpr ⟨d, first_mem hcols, hdu⟩)
  have hd' : markIfUsed columns d = d :=
    if_neg (not_any_uses_first hnames hacyclic hcols hpre hu hdu hrest)
  have hother : ∀ c ∈ others columns u d, markIfUsed columns c = c := by
    intro c hc
    obtain ⟨hmem, hne, -⟩ := mem_others.mp hc
    unfold markIfUsed
    split
    · next hany =>
      exact ColumnDef.marked_of_isUsed (isUsed_of_rest hnames hcols hpre hu hdu hrest hmem hne hany).1
    · rfl
  rw [List.map_append, List.map_congr_left hother, List.map_id', List.map_cons, List.map_cons,
    List.map_nil, hu', hd']

omit hacyclic hpre in
/-- A column that takes no part is neither of the two. -/
lemma name_ne_of_uninvolved {c : ColumnDef C} (hc : c ∈ columns) (hun : uninvolved columns c = true) :
    c.name ≠ u.name ∧ c.name ≠ d.name := by
  obtain ⟨hnone, hnot⟩ := uninvolved_iff.mp hun
  constructor
  · intro heq
    have huse := hnot d (first_mem hcols)
    rw [eq_of_name hnames hc hu heq, hdu] at huse
    cases huse
  · intro heq
    rw [eq_of_name hnames hc (first_mem hcols) heq] at hnone
    exact ColumnDef.extractDependency_ne_none hdu hnone

omit hacyclic hpre in
/-- The columns that take no part stay as they are. -/
lemma filter_uninvolved_others :
    (others columns u d ++ [u.marked, d]).filter (uninvolved columns) =
      columns.filter (uninvolved columns) := by
  have hpair : [u.marked, d].filter (uninvolved columns) = [] := by
    rw [List.filter_eq_nil_iff]
    intro c hc hun
    obtain ⟨hnone, hnot⟩ := uninvolved_iff.mp hun
    rcases List.mem_cons.mp hc with rfl | hc
    · have huse := hnot d (first_mem hcols)
      rw [ColumnDef.uses_marked_right, hdu] at huse
      cases huse
    · rw [List.mem_singleton.mp hc] at hnone
      exact ColumnDef.extractDependency_ne_none hdu hnone
  rw [List.filter_append, hpair, List.append_nil, others, List.filter_filter]
  apply List.filter_congr
  intro c hc
  cases hun : uninvolved columns c with
  | false => rfl
  | true => simp [name_ne_of_uninvolved hnames hcols hu hdu hc hun]

omit hacyclic in
/-- None of the others is written from one behind it. -/
lemma pairwise_others_of_rest (hrest : RestInOrder columns) :
    (others columns u d).Pairwise fun c d => c.uses d = false := by
  rw [List.pairwise_iff_forall_sublist]
  intro a b hab
  by_contra hne
  have huse : a.uses b = true := by simpa using hne
  obtain ⟨ha, hau, had⟩ := mem_others.mp (hab.subset (by simp : a ∈ [a, b]))
  obtain ⟨hb, -, -⟩ := mem_others.mp (hab.subset (by simp : b ∈ [a, b]))
  obtain ⟨-, -, -, hfront⟩ := rest_uses hnames hcols hpre hu hdu hrest ha hb huse fun heq =>
    had (congrArg ColumnDef.name heq)
  have hnodup : columns.Nodup := List.Nodup.of_map _ hnames
  exact not_sublist_swap hnodup (hab.trans (others_sublist u d)) (hfront.resolve_left hau)

omit hacyclic in
/-- None of the others is written from `u` or `d`. -/
lemma not_uses_last_of_rest (hrest : RestInOrder columns) {a b : ColumnDef C}
    (ha : a ∈ others columns u d) (hb : b ∈ [u.marked, d]) : a.uses b = false := by
  obtain ⟨hmem, -, had⟩ := mem_others.mp ha
  have hne : a ≠ d := fun heq => had (congrArg ColumnDef.name heq)
  by_contra hnot
  have huse : a.uses b = true := by simpa using hnot
  rcases List.mem_cons.mp hb with rfl | hb
  · rw [ColumnDef.uses_marked_right] at huse
    exact (rest_uses hnames hcols hpre hu hdu hrest hmem hu huse hne).2.1 rfl
  · rw [List.mem_singleton.mp hb] at huse
    exact (rest_uses hnames hcols hpre hu hdu hrest hmem (first_mem hcols) huse hne).2.2.1 rfl

/-- Where the rest is in order the two complete it. -/
lemma chained_of_rest (hrest : RestInOrder columns) :
    Chained columns (others columns u d ++ [u.marked, d]) := by
  have hd := first_mem hcols
  constructor
  case perm =>
    rw [← map_markIfUsed_of_rest hnames hacyclic hcols hpre hu hdu hrest]
    exact (others_perm hnames hu hd (name_ne_of_uses hacyclic hnames hd hu hdu)).symm.map _
  case order => exact filter_uninvolved_others hnames hcols hu hdu
  case after =>
    refine List.pairwise_append.mpr ⟨pairwise_others_of_rest hnames hcols hpre hu hdu hrest, ?_,
      fun a ha b hb => not_uses_last_of_rest hnames hcols hpre hu hdu hrest ha hb⟩
    simpa using hacyclic.asymm hd hu hdu
  case now =>
    intro c hc hany
    have hused : c.isUsed = true := by
      rcases List.mem_append.mp hc with hc | hc
      · obtain ⟨hmem, hne, -⟩ := mem_others.mp hc
        exact (isUsed_of_rest hnames hcols hpre hu hdu hrest hmem hne hany).1
      · rcases List.mem_cons.mp hc with rfl | hc
        · obtain ⟨n, -, hnamed⟩ := ColumnDef.uses_iff.mp hdu
          exact (ColumnDef.markUsed_of_isNamed hnamed).2
        · rw [List.mem_singleton.mp hc] at hany
          exact absurd hany (not_any_uses_first hnames hacyclic hcols hpre hu hdu hrest)
    rw [hused]
    rfl

end First

/-- Columns that are not written from each other are in order. -/
lemma chained_self (hnone : ∀ c ∈ columns, c.extractDependency = none) : Chained columns columns := by
  have huses : ∀ d ∈ columns, ∀ c : ColumnDef C, d.uses c = false := by
    intro d hd c
    rw [ColumnDef.uses, hnone d hd]
  have hany : ∀ c : ColumnDef C, columns.any (·.uses c) = false := fun c => List.any_eq_false.mpr
      fun d hd => by
    rw [huses d hd c]
    exact Bool.false_ne_true
  constructor
  case perm =>
    have hmark : ∀ c ∈ columns, markIfUsed columns c = c := fun c _ => if_neg (by simp [hany c])
    rw [List.map_congr_left hmark, List.map_id']
  case order => rfl
  case after =>
    apply List.pairwise_of_forall_mem_list
    exact fun c hc d _ => huses c hc d
  case now =>
    intro c _ hc
    rw [hany c] at hc
    cases hc

/-- Where the rest is in order no column is missing but that of the first relationship. -/
lemma not_unmet_of_rest (hnames : (columns.map (·.name)).Nodup) (hacyclic : Acyclic columns)
    {pre post : List (ColumnDef C)} {d u : ColumnDef C} (hcols : columns = pre ++ d :: post)
    (hpre : ∀ c ∈ pre, c.extractDependency = none) (hu : u ∈ columns) (hdu : d.uses u = true)
    (hrest : RestInOrder columns) {d' : ColumnDef C} (hd' : d' ∈ columns) : ¬ Unmet columns d' := by
  rintro ⟨n, hn, hmissing⟩
  -- the column that is used, by the first relationship or a later one
  obtain ⟨u', hu', huses⟩ : ∃ u' ∈ columns, d'.uses u' = true := by
    have hmem := hd'
    rw [hcols, List.mem_append, List.mem_cons] at hmem
    rcases hmem with hmem | rfl | hmem
    · rw [hpre d' hmem] at hn
      cases hn
    · exact ⟨u, hu, hdu⟩
    · obtain ⟨u', hu', huses, -⟩ := hrest pre d post hcols hpre u hu hdu d' hmem (by simp [hn])
      exact ⟨u', hu', huses⟩
  obtain ⟨m, hm, hnamed⟩ := ColumnDef.uses_iff.mp huses
  rw [hn] at hm
  obtain rfl := Option.some.inj hm
  rw [hmissing u' hu' (name_ne_of_uses hacyclic hnames hd' hu' huses)] at hnamed
  cases hnamed

/-- Where the columns are reordered, the aim is that no column is missing and that they are chained. -/
lemma satisfied_of_ok {r : Option (ColumnDef C × String)} {columns' : List (ColumnDef C)}
    (heq : takeAndChainInPlace columns = (.ok r, columns')) (hmet : ∀ d ∈ columns, ¬ Unmet columns d)
    (hchained : Chained columns columns') : Satisfied columns := by
  refine ⟨?_, ?_, ?_⟩
  · rw [heq]
    constructor
    · rintro ⟨e, he⟩
      cases he
    · rintro ⟨d, hd, hunmet⟩
      exact absurd hunmet (hmet d hd)
  · intro e he
    rw [heq] at he
    cases he
  · intro r' _
    rw [heq]
    exact hchained

/-- Where they are not, it is that a column is missing. -/
lemma satisfied_of_error {e : String} (heq : takeAndChainInPlace columns = (.error e, columns))
    {d : ColumnDef C} (hd : d ∈ columns) (hunmet : Unmet columns d) : Satisfied columns := by
  refine ⟨?_, ?_, ?_⟩
  · rw [heq]
    exact ⟨fun _ => ⟨d, hd, hunmet⟩, fun _ => ⟨e, rfl⟩⟩
  · intro _ _
    rw [heq]
  · intro r hr
    rw [heq] at hr
    cases hr

lemma rest_of_satisfied (hnames : (columns.map (·.name)).Nodup) (hacyclic : Acyclic columns)
    (h : Satisfied columns) : RestInOrder columns := by
  intro pre d post hcols hpre u hu hdu d' hd' hsome
  obtain ⟨n, heq⟩ := takeAndChainInPlace_ok hnames hacyclic hcols hpre hu hdu
  have hmem : d' ∈ columns := by simp [hcols, hd']
  have hmet : ¬ Unmet columns d' := by
    intro hunmet
    obtain ⟨e, he⟩ := h.error_iff.mpr ⟨d', hmem, hunmet⟩
    rw [heq] at he
    cases he
  obtain ⟨m, hm⟩ := Option.isSome_iff_exists.mp hsome
  obtain ⟨u', hu', huses⟩ : ∃ u' ∈ columns, d'.uses u' = true := by
    by_contra hnone
    refine hmet ⟨m, hm, ?_⟩
    intro c hc _
    by_contra hnamed
    exact hnone ⟨c, hc, ColumnDef.uses_iff.mpr ⟨m, hm, by simpa using hnamed⟩⟩
  have hchained : Chained columns (others columns u d ++ [u.marked, d]) := by
    have := h.chained _ (congrArg Prod.fst heq)
    rwa [heq] at this
  exact ⟨u', hu', huses, rest_of_chained hnames hacyclic hcols hu hdu hchained hd' hu' huses⟩

lemma satisfied_of_rest (hnames : (columns.map (·.name)).Nodup) (hacyclic : Acyclic columns)
    (hrest : RestInOrder columns) : Satisfied columns := by
  obtain ⟨hnone, heq⟩ | ⟨pre, d, post, hcols, hpre, ⟨hunmet, e, heq⟩ | ⟨n, u, hu, hdu, -, heq⟩⟩ :=
    takeAndChainInPlace_cases hnames
  · refine satisfied_of_ok heq ?_ (chained_self hnone)
    rintro d hd ⟨n, hn, -⟩
    rw [hnone d hd] at hn
    cases hn
  · exact satisfied_of_error heq (first_mem hcols) hunmet
  · exact satisfied_of_ok heq (fun d' hd' =>
      not_unmet_of_rest hnames hacyclic hcols hpre hu hdu hrest hd')
      (chained_of_rest hnames hacyclic hcols hpre hu hdu hrest)

/-- **The order of the columns.**  For columns of different names that are not written from each
other in a circle, the reordering reaches its aim exactly where the relationships behind the first
one, whose column is there, were in order before. -/
theorem satisfied_iff (hnames : (columns.map (·.name)).Nodup) (hacyclic : Acyclic columns) :
    Satisfied columns ↔ RestInOrder columns :=
  ⟨rest_of_satisfied hnames hacyclic, satisfied_of_rest hnames hacyclic⟩

end Cases

/-! ### A column that two relationships use -/

/-- Two relationships are written from the same column. -/
def sharedColumns : List (ColumnDef Unit) :=
  [.plain "hash" (.index 1) false, .relationship "inputs" (some "hash") false .oneToMany (),
    .relationship "refs" (some "hash") false .oneToMany ()]

lemma sharedColumns_acyclic : Acyclic sharedColumns := by
  apply acyclic_of_rank fun n => if n = "hash" then 0 else 1
  intro d hd n hn
  simp only [sharedColumns, List.mem_cons, List.not_mem_nil, or_false] at hd
  rcases hd with rfl | rfl | rfl
  · cases hn
  · obtain rfl := Option.some.inj hn
    decide
  · obtain rfl := Option.some.inj hn
    decide

/-- The column goes behind the second relationship, which is then written before it. -/
theorem sharedColumns_not_satisfied :
    (sharedColumns.map (·.name)).Nodup ∧ Acyclic sharedColumns ∧ ¬ Satisfied sharedColumns := by
  refine ⟨by decide, sharedColumns_acyclic, ?_⟩
  intro h
  have hrun : takeAndChainInPlace sharedColumns =
      (.ok (some (.relationship "inputs" (some "hash") false .oneToMany (), "hash")),
        [.relationship "refs" (some "hash") false .oneToMany (), .plain "hash" (.index 1) true,
          .relationship "inputs" (some "hash") false .oneToMany ()]) := rfl
  have hafter := (h.chained _ (congrArg Prod.fst hrun)).after
  rw [hrun] at hafter
  have hfirst := (List.pairwise_cons.mp hafter).1 _ List.mem_cons_self
  exact absurd hfirst (by decide)

/-- One relationship is always put in order. -/
theorem satisfied_iff_single :
    let columns : List (ColumnDef Unit) :=
      [.relationship "inputs" (some "hash") false .oneToMany (), .plain "height" (.range 1) false,
        .plain "hash" (.index 1) false]
    (columns.map (·.name)).Nodup ∧ Acyclic columns ∧ Satisfied columns := by
  intro columns
  have hnames : (columns.map (·.name)).Nodup := by decide
  have hacyclic : Acyclic columns := by
    apply acyclic_of_rank fun n => if n = "inputs" then 1 else 0
    intro d hd n hn
    simp only [columns, List.mem_cons, List.not_mem_nil, or_false] at hd
    rcases hd with rfl | rfl | rfl
    · obtain rfl := Option.some.inj hn
      decide
    · cases hn
    · cases hn
  refine ⟨hnames, hacyclic, (satisfied_iff hnames hacyclic).mpr ?_⟩
  intro pre d post hcols hpre u hu hdu d' hd' hsome
  have honly : ∀ c ∈ columns, c.extractDependency.isSome = true → c.name = "inputs" := by decide
  have hd := honly d (first_mem hcols)
    (Option.isSome_iff_ne_none.mpr (ColumnDef.extractDependency_ne_none hdu))
  have hmem : d' ∈ columns := by
    rw [hcols]
    simp [hd']
  exact absurd ((honly d' hmem hsome).trans hd.symm) (name_ne_first hnames hcols hd')

end Redbit.Entity
