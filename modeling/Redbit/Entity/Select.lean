import Redbit.Entity.Filter
import Redbit.Entity.Replace

/-!
# What a filter query selects

`EntityDef.isMatch` says which instances a query is meant to select, and `EntityDef.reduce` what is
meant to be left of them: of every one2many relationship with a query of its own, the children that
match it. `compose_with_filter` does this except for one case: an instance is dropped when a
one2many relationship of it is empty, also when the query does not ask about that relationship.
`EntityDef.Kept` is the exact condition.
-/

namespace Redbit.Entity

open Redbit.Lib Redbit.Storage

/-! ### The meaning of a query -/

section Field

variable {Q C : Type} (isMatch : Q → C → Bool) (reduce : Q → C → C) (kept : Q → C → Prop)

/-- A relationship with a query has a child that matches it. -/
def fieldMatches {m : Multiplicity} (query : Option Q) (f : m.Field C) : Bool :=
  query.all fun q => (m.children f).any (isMatch q)

/-- The children that match, reduced in turn. -/
def reduceField : (m : Multiplicity) → Option Q → m.Field C → m.Field C
  | _, none, f => f
  | .oneToOption, some q, f => Option.map (reduce q) f
  | .oneToOne, some q, c => reduce q c
  | .oneToMany, some q, cs => (List.filter (isMatch q) cs).map (reduce q)

/-- A one2many relationship without a query is not empty, and the children of one with a query are
kept. -/
def FieldKept : (m : Multiplicity) → Option Q → m.Field C → Prop
  | .oneToOption, none, _ => True
  | .oneToOne, none, _ => True
  | .oneToMany, none, cs => cs ≠ ([] : List C)
  | m, some q, f => ∀ c ∈ m.children f, kept q c

end Field

namespace EntityDef

/-- The columns pass their filters, and every relationship with a query has a child that matches it. -/
def isMatch : {d : ℕ} → (E : EntityDef d) → E.Query → E.Instance → Bool
  | _, mk _ _ _ _ column _ child, q, e =>
    letI := fun i => (column i).order
    decide (∀ i, passes (q.column i) (e.column i) = true) &&
      decide (∀ j, fieldMatches (child j).isMatch (q.relationship j) (e.relationship j) = true)

/-- The instance with the children that match. -/
def reduce : {d : ℕ} → (E : EntityDef d) → E.Query → E.Instance → E.Instance
  | _, mk _ _ _ _ _ multiplicity child, q, e =>
    ⟨e.pk, e.column, fun j => reduceField (child j).isMatch (child j).reduce (multiplicity j)
      (q.relationship j) (e.relationship j)⟩

/-- What the query is meant to return for an instance. -/
def select {d : ℕ} (E : EntityDef d) (q : E.Query) (e : E.Instance) : Option E.Instance :=
  if E.isMatch q e then some (E.reduce q e) else none

/-- The instance does not match, or no one2many relationship without a query is empty, in the
instance and in the children under relationships with a query. -/
def Kept : {d : ℕ} → (E : EntityDef d) → E.Query → E.Instance → Prop
  | _, mk bits n m order column multiplicity child, q, e =>
    (mk bits n m order column multiplicity child).isMatch q e = false ∨
      ∀ j, FieldKept (child j).Kept (multiplicity j) (q.relationship j) (e.relationship j)

end EntityDef

/-! ### The fields one after the other -/

section Fields

variable {ι ε : Type} [DecidableEq ι] {F : ι → Type} {init : ∀ i, Except ε (Option (F i))}
  {is : List ι}

lemma initAllWithQuery_eq_some {fields : ∀ i ∈ is, F i}
    (h : ∀ i hi, init i = .ok (some (fields i hi))) :
    initAllWithQuery init is = .ok (some fields) := by
  induction is with
  | nil => exact congrArg (Except.ok ∘ some) (funext₂ fun i hi => absurd hi List.not_mem_nil)
  | cons i is ih =>
    rw [initAllWithQuery, h i List.mem_cons_self, ih fun k hk => h k (List.mem_cons_of_mem _ hk)]
    exact congrArg (Except.ok ∘ some) (consField_eta fields)

lemma initAllWithQuery_eq_none {r : ∀ i, Option (F i)} (h : ∀ i, init i = .ok (r i))
    (hnone : ∃ i ∈ is, r i = none) : initAllWithQuery init is = .ok none := by
  induction is with
  | nil =>
    obtain ⟨i, hi, -⟩ := hnone
    exact absurd hi List.not_mem_nil
  | cons i is ih =>
    rw [initAllWithQuery, h i]
    cases hr : r i with
    | none => rfl
    | some field =>
      obtain ⟨k, hk, hnone⟩ := hnone
      rcases List.mem_cons.mp hk with rfl | hk
      · rw [hr] at hnone
        cases hnone
      · simp only
        rw [ih ⟨k, hk, hnone⟩]

variable {n m : ℕ} {C : Fin n → Type} {R : Fin m → Type} {order : FieldOrder n m}
variable {column : ∀ i, Except ε (Option (C i))} {relationship : ∀ j, Except ε (Option (R j))}

/-- All fields are let through. -/
lemma initFieldsWithQuery_eq_some {c : ∀ i, C i} {r : ∀ j, R j} (hc : ∀ i, column i = .ok (some (c i)))
    (hr : ∀ j, relationship j = .ok (some (r j))) :
    initFieldsWithQuery order column relationship = .ok (some (c, r)) := by
  unfold initFieldsWithQuery
  have hall : ∀ f (_ : f ∈ order.fields),
      onField (I := fun F => Except ε (Option F)) column relationship f =
        .ok (some (onField (I := id) c r f)) := by
    intro f _
    cases f with
    | inl i => exact hc i
    | inr j => exact hr j
  rw [initAllWithQuery_eq_some hall]
  rfl

/-- All fields are read, and one of them is not let through. -/
lemma initFieldsWithQuery_eq_none {c : ∀ i, Option (C i)} {r : ∀ j, Option (R j)}
    (hc : ∀ i, column i = .ok (c i)) (hr : ∀ j, relationship j = .ok (r j))
    (hnone : (∃ i, c i = none) ∨ ∃ j, r j = none) :
    initFieldsWithQuery order column relationship = .ok none := by
  unfold initFieldsWithQuery
  have hall : ∀ f, onField (I := fun F => Except ε (Option F)) column relationship f =
      .ok (onField (I := Option) c r f) := by
    intro f
    cases f with
    | inl i => exact hc i
    | inr j => exact hr j
  rw [initAllWithQuery_eq_none hall]
  rcases hnone with ⟨i, hi⟩ | ⟨j, hj⟩
  · exact ⟨.inl i, order.complete _, hi⟩
  · exact ⟨.inr j, order.complete _, hj⟩

end Fields

/-- A read with a query succeeds; it returns nothing where the instance does not match, and what is
left of the instance, where it does, exactly under `kept`. -/
def Outcome {C : Type} (read : Except NotFound (Option C)) (matched : Bool) (reduced : C)
    (kept : Prop) : Prop :=
  ∃ r, read = .ok r ∧ (matched = false → r = none) ∧
    (r = (if matched then some reduced else none) ↔ kept)

lemma columnInitWithQuery_of_some {V : Type} [LinearOrder V] {table : String} {pk : List ℕ}
    {value : Option V} {v : V} (h : value = some v) (filterOp : Option (FilterOp V)) :
    columnInitWithQuery table pk filterOp value =
      .ok (if passes filterOp v then some v else none) := by
  rw [h]
  rfl

/-! ### Lists of children -/

/-- Where one selection is within the other, they select the same from a list only if they do so for
each element. -/
lemma filterMap_eq_filterMap_iff {A B : Type} {f g : A → Option B} {l : List A}
    (h : ∀ a ∈ l, g a = none → f a = none) : l.filterMap f = l.filterMap g ↔ ∀ a ∈ l, f a = g a := by
  have hlength : ∀ {l : List A}, (∀ a ∈ l, g a = none → f a = none) →
      (l.filterMap f).length ≤ (l.filterMap g).length := by
    intro l hl
    induction l with
    | nil => exact le_rfl
    | cons a l ih =>
      have hrest := ih fun x hx => hl x (List.mem_cons_of_mem _ hx)
      cases hg : g a with
      | none =>
        rw [List.filterMap_cons_none hg, List.filterMap_cons_none (hl a List.mem_cons_self hg)]
        exact hrest
      | some b =>
        rw [List.filterMap_cons_some hg, List.length_cons]
        cases hf : f a with
        | none =>
          rw [List.filterMap_cons_none hf]
          omega
        | some b' =>
          rw [List.filterMap_cons_some hf, List.length_cons]
          omega
  refine ⟨fun heq => ?_, fun hall => List.filterMap_congr hall⟩
  induction l with
  | nil => simp
  | cons a l ih =>
    have hl : ∀ x ∈ l, g x = none → f x = none := fun x hx => h x (List.mem_cons_of_mem _ hx)
    refine List.forall_mem_cons.mpr ?_
    cases hg : g a with
    | none =>
      have hf := h a List.mem_cons_self hg
      rw [List.filterMap_cons_none hg, List.filterMap_cons_none hf] at heq
      exact ⟨hf, ih hl heq⟩
    | some b =>
      rw [List.filterMap_cons_some hg] at heq
      cases hf : f a with
      | none =>
        have hle := hlength hl
        rw [List.filterMap_cons_none hf] at heq
        rw [heq, List.length_cons] at hle
        omega
      | some b' =>
        rw [List.filterMap_cons_some hf] at heq
        obtain ⟨rfl, hrest⟩ := List.cons.inj heq
        exact ⟨rfl, ih hl hrest⟩

section Relationship

variable {d bits : ℕ} {Q C : Type} {isMatch : Q → C → Bool} {reduce : Q → C → C} {kept : Q → C → Prop}

/-- The list without a query is the one of `compose_many` without errors. -/
lemma composeManyPlain_map_ok {K : Type} {compose : K → Except NotFound C} (ks : List K) :
    composeManyPlain compose (ks.map .ok) = composeMany compose ks := by
  induction ks with
  | nil => rfl
  | cons k ks ih =>
    rw [List.map_cons, composeManyPlain, composeMany, ih]
    cases compose k with
    | error e => rfl
    | ok c => cases composeMany compose ks <;> rfl

/-- The list with a query, where every instance is read: what the reads return. -/
lemma composeManyFiltered_map_ok {K : Type} {cwf : K → Q → Except NotFound (Option C)} {q : Q}
    {ks : List K} {r : K → Option C} (h : ∀ k ∈ ks, cwf k q = .ok (r k)) :
    composeManyFiltered cwf q (ks.map .ok) = .ok (ks.filterMap r) := by
  induction ks with
  | nil => rfl
  | cons k ks ih =>
    rw [List.map_cons, composeManyFiltered, ih fun x hx => h x (List.mem_cons_of_mem _ hx),
      List.filterMap_cons, h k List.mem_cons_self]
    cases r k <;> rfl

variable {compose : Key d → Except NotFound C} {cwf : Key d → Q → Except NotFound (Option C)}
  {pkOf : C → Key d}

/-- The selected children of a list. -/
lemma filter_map_eq_filterMap (q : Q) (cs : List C) :
    (cs.filter (isMatch q)).map (reduce q) = cs.filterMap fun c =>
      if isMatch q c then some (reduce q c) else none := by
  induction cs with
  | nil => rfl
  | cons c cs ih =>
    rw [List.filter_cons, List.filterMap_cons]
    cases isMatch q c with
    | false => exact ih
    | true => exact congrArg (reduce q c :: ·) ih

/-- The children of a list, read with a query of their own. -/
lemma composeManyFiltered_outcome {q : Q} {cs : List C}
    (ih : ∀ c ∈ cs, Outcome (cwf (pkOf c) q) (isMatch q c) (reduce q c) (kept q c)) :
    ∃ rs, composeManyFiltered cwf q ((cs.map pkOf).map .ok) = .ok rs ∧
      (cs.any (isMatch q) = false → rs = []) ∧
      (rs = (cs.filter (isMatch q)).map (reduce q) ↔ ∀ c ∈ cs, kept q c) := by
  -- what the read of one child returns
  let r := fun k => match cwf k q with
    | .ok r => r
    | .error _ => none
  have hr : ∀ c ∈ cs, cwf (pkOf c) q = .ok (r (pkOf c)) := by
    intro c hc
    obtain ⟨o, ho, -⟩ := ih c hc
    simp only [r, ho]
  have hout : ∀ c ∈ cs, (isMatch q c = false → r (pkOf c) = none) ∧
      (r (pkOf c) = (if isMatch q c then some (reduce q c) else none) ↔ kept q c) := by
    intro c hc
    obtain ⟨o, ho, hnone, hkept⟩ := ih c hc
    rw [hr c hc] at ho
    obtain rfl := Except.ok.inj ho
    exact ⟨hnone, hkept⟩
  refine ⟨cs.filterMap fun c => r (pkOf c), ?_, fun hany => ?_, ?_⟩
  · rw [composeManyFiltered_map_ok (List.forall_mem_map.mpr hr), List.filterMap_map]
    rfl
  · rw [List.filterMap_eq_nil_iff]
    intro c hc
    exact (hout c hc).1 (Bool.eq_false_iff.mpr (List.any_eq_false.mp hany c hc))
  · rw [filter_map_eq_filterMap, filterMap_eq_filterMap_iff]
    · exact forall₂_congr fun c hc => (hout c hc).2
    · intro c hc hg
      refine (hout c hc).1 ?_
      by_contra hm
      rw [Bool.not_eq_false] at hm
      rw [if_pos hm] at hg
      cases hg

/-- A single child, read by the key of its parent with a query of its own. -/
lemma filterWith_outcome {keys : Finset (Key d)} {pk : Key d} {q : Q} {c : C} (hpk : pkOf c = pk)
    (hmem : pk ∈ keys) (ih : Outcome (cwf (pkOf c) q) (isMatch q c) (reduce q c) (kept q c)) :
    ∃ r, filterWith keys (fun k => cwf k q) pk = .ok r ∧ ([c].any (isMatch q) = false → r = none) ∧
      (r = (if [c].any (isMatch q) then some (reduce q c) else none) ↔ ∀ c' ∈ [c], kept q c') := by
  obtain rfl := hpk
  unfold filterWith
  rw [if_pos hmem, List.forall_mem_singleton, List.any_cons, List.any_nil, Bool.or_false]
  exact ih

/-- The same where the child is optional. -/
lemma one2opt_outcome {read : Except NotFound (Option C)} {matched : Bool} {reduced : C} {kept : Prop}
    (h : Outcome read matched reduced kept) :
    Outcome (match read with
      | .error e => .error e
      | .ok none => .ok none
      | .ok (some c) => .ok (some (some c))) matched (some reduced) kept := by
  obtain ⟨r, rfl, hnone, hkept⟩ := h
  refine ⟨r.map some, ?_, fun hm => ?_, Iff.trans ?_ hkept⟩
  · cases r <;> rfl
  · rw [hnone hm]
    rfl
  · cases matched <;> cases r <;> simp

lemma filterWith_of_notMem {keys : Finset (Key d)} {pk : Key d}
    {read : Key d → Except NotFound (Option C)} (h : pk ∉ keys) :
    filterWith keys read pk = .ok none := if_neg h

/-- An optional child that is not there. -/
lemma one2opt_absent {read : Except NotFound (Option C)} {kept : Prop} (h : read = .ok none)
    (hk : kept) : Outcome (match read with
      | .error e => .error e
      | .ok none => .ok none
      | .ok (some c) => .ok (some (some c))) false none kept :=
  ⟨none, by rw [h], fun _ => rfl, iff_of_true rfl hk⟩

/-- A field that is read without a query. -/
lemma unasked_outcome {F : Type} {read : Except NotFound F} {f : F} (h : read = .ok f) :
    Outcome (read.map some) true f True :=
  ⟨some f, by rw [h]; rfl, fun hm => absurd hm.symm Bool.false_ne_true, iff_of_true rfl trivial⟩

/-- A list of children is dropped when it is empty. -/
lemma one2many_outcome {read : Except NotFound (List C)} {rs reduced : List C} {matched : Bool}
    {kept : Prop} (hread : read = .ok rs) (hnone : matched = false → rs = [])
    (hkept : kept ↔ (matched = true → rs = reduced ∧ rs ≠ [])) :
    Outcome (match read with
      | .error e => .error e
      | .ok [] => .ok none
      | .ok (c :: cs) => .ok (some (c :: cs))) matched reduced kept := by
  subst hread
  rw [hkept]
  cases rs with
  | nil => exact ⟨none, rfl, fun _ => rfl, by cases matched <;> simp⟩
  | cons c cs =>
    cases matched with
    | false => exact absurd (hnone rfl) (List.cons_ne_nil c cs)
    | true => exact ⟨some (c :: cs), rfl, fun hm => absurd hm.symm Bool.false_ne_true, by simp⟩

/-- The children under a range of keys, without a query. -/
lemma rangeQueryWith_none {keys : Finset (Key d)} {range : Key d × Key d} {cs : List C}
    (h : rangeWith keys compose range = .ok cs) :
    rangeQueryWith keys compose cwf range none = .ok cs := by
  unfold rangeQueryWith composeManyQuery
  rw [composeManyPlain_map_ok]
  exact h

/-- The children under a range of keys, with a query of their own. -/
lemma rangeQueryWith_some {keys : Finset (Key d)} {range : Key d × Key d} {q : Q} {cs : List C}
    (hpk : ∀ k c, compose k = .ok c → pkOf c = k) (h : rangeWith keys compose range = .ok cs)
    (ih : ∀ c ∈ cs, Outcome (cwf (pkOf c) q) (isMatch q c) (reduce q c) (kept q c)) :
    ∃ rs, rangeQueryWith keys compose cwf range (some q) = .ok rs ∧
      (cs.any (isMatch q) = false → rs = []) ∧
      ((∀ c ∈ cs, kept q c) ↔ (cs.any (isMatch q) = true →
        rs = (cs.filter (isMatch q)).map (reduce q) ∧ rs ≠ [])) := by
  obtain ⟨rs, hrs, hnone, hkept⟩ := composeManyFiltered_outcome ih
  obtain ⟨hkeys, -⟩ := (forall₂_compose_iff hpk).mp (composeMany_eq_ok.mp h)
  refine ⟨rs, ?_, hnone, ?_⟩
  · unfold rangeQueryWith composeManyQuery
    rw [hkeys]
    exact hrs
  · rw [← hkept]
    constructor
    · rintro rfl hany
      obtain ⟨c, hc, hm⟩ := List.any_eq_true.mp hany
      exact ⟨rfl, List.ne_nil_of_mem (List.mem_map_of_mem (List.mem_filter.mpr ⟨hc, hm⟩))⟩
    · intro h
      cases hany : cs.any (isMatch q) with
      | true => exact (h hany).1
      | false =>
        have hfilter : cs.filter (isMatch q) = [] :=
          List.filter_eq_nil_iff.mpr fun c hc => List.any_eq_false.mp hany c hc
        rw [hnone hany, hfilter]
        rfl

end Relationship

/-- **One relationship** of an instance that is read without a query. -/
lemma relationInitWithQuery_outcome {d bits : ℕ} {Q C : Type} {pk : Key d} {isMatch : Q → C → Bool}
    {reduce : Q → C → C} {kept : Q → C → Prop} :
    ∀ {m : Multiplicity} {keys : Finset (Key (m.depth d))} {compose : Key (m.depth d) →
      Except NotFound C}
      {cwf : Key (m.depth d) → Q → Except NotFound (Option C)} {pkOf : C → Key (m.depth d)},
    (∀ k c, compose k = .ok c → pkOf c = k) → ∀ (query : Option Q) {f : m.Field C},
    relationInit bits pk m keys compose = .ok f →
    (∀ q, ∀ c ∈ m.children f, Outcome (cwf (pkOf c) q) (isMatch q c) (reduce q c) (kept q c)) →
    Outcome (relationInitWithQuery bits pk m keys compose cwf query) (fieldMatches isMatch query f)
      (reduceField isMatch reduce m query f) (FieldKept kept m query f)
  | .oneToOption, _, _, _, _, _, none, _, h, _ => unasked_outcome h
  | .oneToOne, _, _, _, _, _, none, _, h, _ => unasked_outcome h
  | .oneToMany, _, _, _, _, _, none, _, h, _ =>
    one2many_outcome (rangeQueryWith_none h) (fun hm => by cases hm)
      ⟨fun hne _ => ⟨rfl, hne⟩, fun h => (h rfl).2⟩
  | .oneToOne, _, _, _, _, hpk, some q, c, h, ih =>
    have hget := getWith_eq_some.mp (one2one_eq_ok.mp h)
    filterWith_outcome (hpk _ _ hget.2) hget.1 (ih q c (List.mem_singleton_self c))
  | .oneToOption, _, _, _, _, _, some _, none, h, _ =>
    one2opt_absent (filterWith_of_notMem (getWith_eq_none.mp h)) fun _ hc => absurd hc List.not_mem_nil
  | .oneToOption, _, _, _, _, hpk, some q, some c, h, ih =>
    have hget := getWith_eq_some.mp h
    one2opt_outcome (filterWith_outcome (hpk _ _ hget.2) hget.1 (ih q c (List.mem_singleton_self c)))
  | .oneToMany, _, _, _, _, hpk, some q, _, h, ih =>
    have ⟨_, hread, hnone, hkept⟩ := rangeQueryWith_some hpk h (ih q)
    one2many_outcome hread hnone hkept

/-- All fields are there, or one of them is not. -/
lemma forall_some_or_exists_none {n : ℕ} {F : Fin n → Type} (r : ∀ i, Option (F i)) :
    (∃ fields : ∀ i, F i, ∀ i, r i = some (fields i)) ∨ ∃ i, r i = none := by
  by_cases h : ∃ i, r i = none
  · exact Or.inr h
  · have hsome : ∀ i, ∃ f, r i = some f := fun i => Option.ne_none_iff_exists'.mp fun hi => h ⟨i, hi⟩
    choose fields hfields using hsome
    exact Or.inl ⟨fields, hfields⟩

namespace EntityDef

section Outcome

variable {d bits n m : ℕ} {order : FieldOrder n m} {column : Fin n → PlainDef d}
  {multiplicity : Fin m → Multiplicity}
variable {child : ∀ j, EntityDef ((multiplicity j).depth d)}
  {t : (mk bits n m order column multiplicity child).Tables}
variable {pk : Key d} {q : (mk bits n m order column multiplicity child).Query}
variable {e : (mk bits n m order column multiplicity child).Instance}

lemma relationInit_of_compose (h : (mk bits n m order column multiplicity child).compose t pk =
    .ok e) (j : Fin m) :
    relationInit bits pk (multiplicity j) ((child j).keys (t.relationship j))
      ((child j).compose (t.relationship j)) =
      .ok (e.relationship j) :=
  (relationInit_eq_ok fun _ _ h => pk_compose h).mpr ((compose_eq_ok.mp h).2.2 j)

/-- The instance is dropped where a column does not pass or a relationship is dropped. -/
lemma composeWithFilter_of_read {r : ∀ j, Option ((multiplicity j).Field (child j).Instance)}
    (hcolumns : ∀ i, (column i).tables.getValue (t.column i) pk = some (e.column i))
    (hr : ∀ j, relationInitWithQuery bits pk (multiplicity j) ((child j).keys (t.relationship j))
      ((child j).compose (t.relationship j)) ((child j).composeWithFilter (t.relationship j))
      (q.relationship j) = .ok (r j)) :
    letI := fun i => (column i).order
    (¬ (∀ i, passes (q.column i) (e.column i) = true) ∧
      (mk bits n m order column multiplicity child).composeWithFilter t pk q = .ok none) ∨
    (∀ i, passes (q.column i) (e.column i) = true) ∧
      (((∃ j, r j = none) ∧ (mk bits n m order column multiplicity child).composeWithFilter t pk q =
        .ok none) ∨
      ∃ fields, (∀ j, r j = some (fields j)) ∧
        (mk bits n m order column multiplicity child).composeWithFilter t pk q =
          .ok (some ⟨pk, e.column, fields⟩)) := by
  let order := fun i => (column i).order
  have hcolumn : ∀ i, columnInitWithQuery (column i).table pk.indices (q.column i)
      ((column i).tables.getValue (t.column i) pk) =
        .ok (if passes (q.column i) (e.column i) then some (e.column i)
        else none) := fun i => columnInitWithQuery_of_some (hcolumns i) (q.column i)
  unfold composeWithFilter
  by_cases hpass : ∀ i, passes (q.column i) (e.column i) = true
  · refine Or.inr ⟨hpass, ?_⟩
    rcases forall_some_or_exists_none r with ⟨fields, hfields⟩ | hnone
    · refine Or.inr ⟨fields, hfields, ?_⟩
      rw [initFieldsWithQuery_eq_some (fun i => (hcolumn i).trans (by rw [if_pos (hpass i)])) fun j =>
        (hr j).trans (by rw [hfields j])]
    · refine Or.inl ⟨hnone, ?_⟩
      rw [initFieldsWithQuery_eq_none hcolumn hr (.inr hnone)]
  · refine Or.inl ⟨hpass, ?_⟩
    obtain ⟨i, hi⟩ := not_forall.mp hpass
    rw [initFieldsWithQuery_eq_none hcolumn hr (.inl ⟨i, if_neg hi⟩)]

lemma isMatch_eq_true : (mk bits n m order column multiplicity child).isMatch q e = true ↔
    letI := fun i => (column i).order
    (∀ i, passes (q.column i) (e.column i) = true) ∧
      ∀ j, fieldMatches (child j).isMatch (q.relationship j) (e.relationship j) = true := by
  unfold isMatch
  rw [Bool.and_eq_true, decide_eq_true_eq, decide_eq_true_eq]

end Outcome

/-- **A filter query**, on an instance that is read without one. -/
theorem composeWithFilter_outcome {d : ℕ} (E : EntityDef d) (t : E.Tables) (pk : Key d)
    (q : E.Query) {e : E.Instance} (h : E.compose t pk = .ok e) :
    Outcome (E.composeWithFilter t pk q) (E.isMatch q e) (E.reduce q e) (E.Kept q e) := by
  induction E with
  | @mk d bits n m order column multiplicity child ih =>
    obtain ⟨hpk, hcolumns, hrelationships⟩ := compose_eq_ok.mp h
    have hrel := fun j => relationInitWithQuery_outcome (fun _ _ h => pk_compose h) (q.relationship j)
      (relationInit_of_compose h j) fun q' c hc =>
        ih j (t.relationship j) ((child j).pk c) q' ((hrelationships j).2 c hc)
    choose r hr hnone hkept using hrel
    have hread := composeWithFilter_of_read hcolumns hr
    cases hmatch : (mk bits n m order column multiplicity child).isMatch q e with
    | false =>
      refine ⟨none, ?_, fun _ => rfl, iff_of_true rfl (Or.inl hmatch)⟩
      rcases hread with ⟨-, hread⟩ | ⟨hpass, ⟨-, hread⟩ | ⟨fields, hfields, -⟩⟩
      · exact hread
      · exact hread
      · -- all fields are there, so the instance matches after all
        refine absurd (isMatch_eq_true.mpr ⟨hpass, fun j => ?_⟩)
          (by rw [hmatch]; exact Bool.false_ne_true)
        by_contra hj
        have hsome := hfields j
        rw [hnone j (Bool.eq_false_iff.mpr hj)] at hsome
        cases hsome
    | true =>
      obtain ⟨hpass, hfield⟩ := isMatch_eq_true.mp hmatch
      have hwhole : (mk bits n m order column multiplicity child).Kept q e ↔
          ∀ j, r j = some (((mk bits n m order column multiplicity child).reduce q e).relationship
            j) := by
        refine (or_iff_right (by rw [hmatch]; exact Bool.noConfusion)).trans
          (forall_congr' fun j => ?_)
        rw [← hkept j, if_pos (hfield j)]
        exact Iff.rfl
      rcases hread with ⟨hnot, -⟩ | ⟨-, ⟨⟨j, hj⟩, hread⟩ | ⟨fields, hfields, hread⟩⟩
      · exact absurd hpass hnot
      · refine ⟨none, hread, fun hm => absurd hm.symm Bool.false_ne_true, iff_of_false (by simp)
          fun hK => ?_⟩
        have hsome := hwhole.mp hK j
        rw [hj] at hsome
        cases hsome
      · refine ⟨_, hread, fun hm => absurd hm.symm Bool.false_ne_true, ?_⟩
        rw [hwhole, if_pos rfl]
        obtain rfl := hpk
        constructor
        · intro heq j
          rw [hfields j]
          exact congrArg some (congrFun (InstanceFields.mk.inj (Option.some.inj heq)).2.2 j)
        · intro hall
          have heq : fields = ((mk bits n m order column multiplicity child).reduce q
              e).relationship :=
            funext fun j => Option.some.inj ((hfields j).symm.trans (hall j))
          rw [heq]
          rfl

end EntityDef

/-! ### Blocks with and without transactions -/

end Redbit.Entity
