import Redbit.Entity.EntityStore

/-!
# Storing over a stored entity

`persist` inserts the rows of an instance over whatever is stored under its key, and `get` reads all
child rows it finds there.  So the instance is read back exactly when nothing of the old one shows
through (`Replaces`): at every level, each child row from before belongs to one of the new children,
and each column reads the new row.
-/

namespace Redbit.Entity

open Redbit.Lib Redbit.Storage

/-! ### What the reads return -/

section Fields

variable {ι ε : Type} [DecidableEq ι] {F : ι → Type}

lemma consField_self {i : ι} {is : List ι} (field : F i) (fields : ∀ k ∈ is, F k) (h : i ∈ i :: is) :
    consField field fields i h = field := dif_pos rfl

lemma consField_of_ne {i k : ι} {is : List ι} (field : F i) (fields : ∀ k ∈ is, F k) (hne : k ≠ i)
    (h : k ∈ i :: is) (hk : k ∈ is) : consField field fields k h = fields k hk := dif_neg hne

/-- The fields of a list are those of its first entry and of the others. -/
lemma consField_eta {i : ι} {is : List ι} (fields : ∀ k ∈ i :: is, F k) :
    consField (fields i List.mem_cons_self) (fun k hk => fields k (List.mem_cons_of_mem _ hk)) =
      fields := by
  funext k hk
  by_cases hne : k = i
  · subst hne
    exact consField_self _ _ _
  · exact consField_of_ne _ _ hne _ ((List.mem_cons.mp hk).resolve_left hne)

lemma initAll_eq_ok {init : ∀ i, Except ε (F i)} {is : List ι} {fields : ∀ i ∈ is, F i} :
    initAll init is = .ok fields ↔ ∀ i h, init i = .ok (fields i h) := by
  induction is with
  | nil =>
    exact iff_of_true (congrArg Except.ok (funext₂ fun i h => absurd h List.not_mem_nil))
      fun i h => absurd h List.not_mem_nil
  | cons i is ih =>
    rw [initAll]
    constructor
    · intro h
      cases hi : init i with
      | error e => simp [hi] at h
      | ok field =>
        cases his : initAll init is with
        | error e => simp [hi, his] at h
        | ok rest =>
          rw [hi, his] at h
          obtain rfl := Except.ok.inj h
          intro k hk
          by_cases hne : k = i
          · subst hne
            rw [consField_self, hi]
          · have hk' := (List.mem_cons.mp hk).resolve_left hne
            rw [consField_of_ne _ _ hne _ hk']
            exact ih.mp his k hk'
    · intro h
      rw [h i List.mem_cons_self, ih.mpr fun k hk => h k (List.mem_cons_of_mem _ hk)]
      exact congrArg Except.ok (consField_eta fields)

/-- The fields are read where all of them are, whatever their order. -/
lemma initFields_eq_ok {n m : ℕ} {C : Fin n → Type} {R : Fin m → Type} {order : FieldOrder n m}
    {column : ∀ i, Except ε (C i)} {relationship : ∀ j, Except ε (R j)} {c : ∀ i, C i} {r : ∀ j, R j} :
    initFields order column relationship = .ok (c, r) ↔ (∀ i, column i = .ok (c i)) ∧
      ∀ j, relationship j = .ok (r j) := by
  unfold initFields
  constructor
  · intro h
    split at h
    · cases h
    · next fields hfields =>
      obtain ⟨rfl, rfl⟩ := Prod.mk.inj (Except.ok.inj h)
      have hall := initAll_eq_ok.mp hfields
      exact ⟨fun i => hall (.inl i) (order.complete _), fun j => hall (.inr j) (order.complete _)⟩
  · rintro ⟨hc, hr⟩
    have hall : initAll (onField column relationship) order.fields = .ok fun f _ =>
        onField (I := id) c r f := by
      refine initAll_eq_ok.mpr fun f _ => ?_
      cases f with
      | inl i => exact hc i
      | inr j => exact hr j
    rw [hall]
    rfl

end Fields

lemma columnInit_eq_ok {V : Type} {table : String} {pk : List ℕ} {o : Option V} {v : V} :
    columnInit table pk o = .ok v ↔ o = some v := by
  unfold columnInit
  cases o <;> simp

section Compose

variable {K C ε : Type} {compose : K → Except ε C}

lemma composeMany_eq_ok {ks : List K} {cs : List C} :
    composeMany compose ks = .ok cs ↔ List.Forall₂ (fun k c => compose k = .ok c) ks cs := by
  induction ks generalizing cs with
  | nil =>
    rw [List.forall₂_nil_left_iff]
    exact ⟨fun h => (Except.ok.inj h).symm, fun h => congrArg Except.ok h.symm⟩
  | cons k ks ih =>
    unfold composeMany
    rw [List.forall₂_cons_left_iff]
    cases hk : compose k with
    | error e => simp
    | ok c =>
      cases hks : composeMany compose ks with
      | error e =>
        refine iff_of_false (by simp) ?_
        rintro ⟨c', cs', -, hcs', -⟩
        rw [← ih, hks] at hcs'
        cases hcs'
      | ok cs' =>
        constructor
        · intro h
          obtain rfl := Except.ok.inj h
          exact ⟨c, cs', rfl, ih.mp hks, rfl⟩
        · rintro ⟨c', cs'', hc', hcs'', rfl⟩
          rw [← ih, hks] at hcs''
          rw [Except.ok.inj hc', Except.ok.inj hcs'']

/-- Where the composed instance has the key it was composed for, the keys are those of the
instances. -/
lemma forall₂_compose_iff {pkOf : C → K} (hpk : ∀ k c, compose k = .ok c → pkOf c = k) {ks : List K}
    {cs : List C} : List.Forall₂ (fun k c => compose k = .ok c) ks cs ↔
      ks = cs.map pkOf ∧ ∀ c ∈ cs, compose (pkOf c) = .ok c := by
  induction cs generalizing ks with
  | nil => simp
  | cons c cs ih =>
    rw [List.forall₂_cons_right_iff]
    constructor
    · rintro ⟨k, ks', hk, hks, rfl⟩
      obtain ⟨rfl, hcs⟩ := ih.mp hks
      obtain rfl := hpk k c hk
      exact ⟨rfl, List.forall_mem_cons.mpr ⟨hk, hcs⟩⟩
    · rintro ⟨rfl, hall⟩
      obtain ⟨hc, hcs⟩ := List.forall_mem_cons.mp hall
      exact ⟨pkOf c, cs.map pkOf, hc, ih.mpr ⟨rfl, hcs⟩, rfl⟩

lemma sort_eq_iff [LinearOrder K] {s : Finset K} {ks : List K} :
    s.sort (· ≤ ·) = ks ↔ ks.Pairwise (· < ·) ∧ ∀ k, k ∈ ks ↔ k ∈ s := by
  constructor
  · rintro rfl
    exact ⟨s.sortedLT_sort.pairwise, fun k => Finset.mem_sort _⟩
  · rintro ⟨hsorted, hmem⟩
    have hs : s = ks.toFinset := by
      ext k
      rw [List.mem_toFinset, hmem]
    rw [hs]
    exact (List.toFinset_sort (· ≤ ·) (hsorted.imp ne_of_lt)).mpr (hsorted.imp le_of_lt)

end Compose

/-! ### The children of a key -/

section Relationship

variable {d bits : ℕ} {m : Multiplicity} {C : Type}

/-- `k` is a key under which the relationship looks for children of `pk`.  There is none for a one2many
relationship if the index of `pk` is the last one of its type. -/
def IsChildKey (bits : ℕ) (pk : Key d) : (m : Multiplicity) → Key (m.depth d) → Prop
  | .oneToOption, k => k = pk
  | .oneToOne, k => k = pk
  | .oneToMany, k => k.parent = pk ∧ pk.index + 1 < 2 ^ bits

lemma IsChildKey.unique {pk pk' : Key d} : ∀ {m : Multiplicity} {k : Key (m.depth d)},
    IsChildKey bits pk m k → IsChildKey bits pk' m k → pk = pk'
  | .oneToOption, _, h, h' => h.symm.trans h'
  | .oneToOne, _, h, h' => h.symm.trans h'
  | .oneToMany, _, h, h' => h.1.symm.trans h'.1

/-- `ks` are the keys among `keys` under which the relationship finds the children of `pk`, in
order. -/
def Lists (bits : ℕ) (pk : Key d) (m : Multiplicity) (keys : Finset (Key (m.depth d)))
    (ks : List (Key (m.depth d))) : Prop :=
  ks.Pairwise (· < ·) ∧ ∀ k, k ∈ ks ↔ k ∈ keys ∧ IsChildKey bits pk m k

lemma getWith_eq_some {keys : Finset (Key d)} {compose : Key d → Except NotFound C}
    {pk : Key d} {c : C} :
    getWith keys compose pk = .ok (some c) ↔ pk ∈ keys ∧ compose pk = .ok c := by
  unfold getWith
  by_cases h : pk ∈ keys
  · rw [if_pos h]
    cases compose pk <;> simp [h, Except.map]
  · rw [if_neg h]
    simp [h]

lemma getWith_eq_none {keys : Finset (Key d)} {compose : Key d → Except NotFound C} {pk : Key d} :
    getWith keys compose pk = .ok none ↔ pk ∉ keys := by
  unfold getWith
  by_cases h : pk ∈ keys
  · rw [if_pos h]
    cases compose pk <;> simp [h, Except.map]
  · rw [if_neg h]
    simp [h]

/-- A child that is read by the key of its parent. -/
lemma getWith_eq_ok {keys : Finset (Key d)} {compose : Key d → Except NotFound C} {pk : Key d}
    {pkOf : C → Key d} (hpk : ∀ k c, compose k = .ok c → pkOf c = k) {f : Option C} :
    getWith keys compose pk = .ok f ↔
      ((f.toList.map pkOf).Pairwise (· < ·) ∧ ∀ k, k ∈ f.toList.map pkOf ↔ k ∈ keys ∧ k = pk) ∧
        ∀ c ∈ f.toList, compose (pkOf c) = .ok c := by
  cases f with
  | none =>
    rw [getWith_eq_none]
    simp
  | some c =>
    rw [getWith_eq_some]
    simp only [Option.toList_some, List.map_singleton, List.pairwise_singleton, true_and,
      List.mem_singleton, forall_eq]
    constructor
    · rintro ⟨hk, hc⟩
      obtain rfl := hpk pk c hc
      exact ⟨fun k => ⟨fun h => ⟨h ▸ hk, h⟩, And.right⟩, hc⟩
    · rintro ⟨h, hc⟩
      obtain ⟨hk, rfl⟩ := (h (pkOf c)).mp rfl
      exact ⟨hk, hc⟩

/-- Children that are read by the range of their keys. -/
lemma rangeWith_eq_ok {keys : Finset (Key (d + 1))} {compose : Key (d + 1) → Except NotFound C}
    {pk : Key d} {pkOf : C → Key (d + 1)} (hpk : ∀ k c, compose k = .ok c → pkOf c = k) {f : List C} :
    rangeWith keys compose (pk.fkRange bits) = .ok f ↔
      ((f.map pkOf).Pairwise (· < ·) ∧
        ∀ k, k ∈ f.map pkOf ↔ k ∈ keys ∧ k.parent = pk ∧ pk.index + 1 < 2 ^ bits) ∧
        ∀ c ∈ f, compose (pkOf c) = .ok c := by
  unfold rangeWith
  rw [composeMany_eq_ok, forall₂_compose_iff hpk, sort_eq_iff]
  refine and_congr_left fun _ => and_congr_right fun _ => forall_congr' fun k => ?_
  rw [Finset.mem_filter, Key.mem_fkRange]

lemma one2one_eq_ok {r : Except NotFound (Option C)} {e : NotFound} {f : C} :
    (match r with
      | .error e => .error e
      | .ok none => .error e
      | .ok (some c) => .ok c : Except NotFound C) = .ok f ↔ r = .ok (some f) := by
  cases r with
  | error e => simp
  | ok o => cases o <;> simp

/-- A relationship is read as `f` exactly when the keys it finds are those of the children in `f`,
and each of them is composed. -/
lemma relationInit_eq_ok {pk : Key d} : ∀ {m : Multiplicity} {keys : Finset (Key (m.depth d))}
    {compose : Key (m.depth d) → Except NotFound C} {pkOf : C → Key (m.depth d)},
    (∀ k c, compose k = .ok c → pkOf c = k) → ∀ {f : m.Field C},
    (relationInit bits pk m keys compose = .ok f ↔
      Lists bits pk m keys ((m.children f).map pkOf) ∧ ∀ c ∈ m.children f, compose (pkOf c) = .ok c)
  | .oneToOption, _, _, _, hpk, none => getWith_eq_ok (f := none) hpk
  | .oneToOption, _, _, _, hpk, some c => getWith_eq_ok (f := some c) hpk
  | .oneToOne, _, _, _, hpk, c => one2one_eq_ok.trans (getWith_eq_ok (f := some c) hpk)
  | .oneToMany, _, _, _, hpk, _ => rangeWith_eq_ok hpk

/-- The children with the keys `ks` take the place of the children of `pk` that are stored under
`keys`: they have keys of children of `pk`, in order, and no other child of `pk` is stored. -/
def Renews (bits : ℕ) (pk : Key d) (m : Multiplicity) (keys : Finset (Key (m.depth d)))
    (ks : List (Key (m.depth d))) : Prop :=
  ks.Pairwise (· < ·) ∧ (∀ k ∈ ks, IsChildKey bits pk m k) ∧
    ∀ k ∈ keys, IsChildKey bits pk m k → k ∈ ks

section Batch

variable {E : Type} {pk : E → Key d} {es : List E} {keys : Finset (Key (m.depth d))}
variable {ks : E → List (Key (m.depth d))}

/-- Different parents have different children. -/
lemma nodup_flatMap_children (hnd : (es.map pk).Nodup)
    (h : ∀ e ∈ es, Renews bits (pk e) m keys (ks e)) :
    (es.flatMap ks).Nodup := by
  rw [List.nodup_flatMap]
  refine ⟨fun e he => (h e he).1.imp ne_of_lt, ?_⟩
  have hne : es.Pairwise fun e e' => pk e ≠ pk e' := List.pairwise_map.mp hnd
  refine hne.imp_of_mem fun {e e'} he he' hee k hk hk' => hee ?_
  exact ((h e he).2.1 k hk).unique ((h e' he').2.1 k hk')

/-- After the children of all parents are inserted, each parent finds just its own exactly when they
take the place of those from before. -/
lemma lists_iff_renews (hnd : (es.map pk).Nodup) :
    (∀ e ∈ es, Lists bits (pk e) m (keys ∪ (es.flatMap ks).toFinset) (ks e)) ↔
      ∀ e ∈ es, Renews bits (pk e) m keys (ks e) := by
  constructor
  · intro h e he
    obtain ⟨hsorted, hmem⟩ := h e he
    refine ⟨hsorted, fun k hk => ((hmem k).mp hk).2, fun k hk hchild => (hmem k).mpr ⟨?_, hchild⟩⟩
    exact Finset.mem_union_left _ hk
  · intro h e he
    obtain ⟨hsorted, hchild, hold⟩ := h e he
    refine ⟨hsorted, fun k => ⟨fun hk => ⟨?_, hchild k hk⟩, ?_⟩⟩
    · rw [Finset.mem_union, List.mem_toFinset]
      exact Or.inr (List.mem_flatMap.mpr ⟨e, he, hk⟩)
    · rintro ⟨hk, hk'⟩
      rw [Finset.mem_union, List.mem_toFinset, List.mem_flatMap] at hk
      rcases hk with hk | ⟨e', he', hk⟩
      · exact hold k hk hk'
      · -- a new child of another parent is not a child of this one
        have heq := ((h e' he').2.1 k hk).unique hk'
        rwa [List.inj_on_of_nodup_map hnd he' he heq] at hk

end Batch

end Relationship

/-! ### The tables after a store -/

namespace EntityDef

/-- Nothing of what the tables hold shows through the instances when they are stored. -/
def Replaces : {d : ℕ} → (E : EntityDef d) → E.Tables → List E.Instance → Prop
  | _, mk bits _ _ _ column multiplicity child, t, instances =>
    (∀ i, (column i).tables.Keeps (t.column i) (instances.map fun e => (e.pk, e.column i))) ∧
    ∀ j, (∀ e ∈ instances, Renews bits e.pk (multiplicity j) ((child j).keys (t.relationship j))
        (((multiplicity j).children (e.relationship j)).map (child j).pk)) ∧
      (child j).Replaces (t.relationship j)
        (instances.flatMap fun e => (multiplicity j).children (e.relationship j))

section Store

variable {d : ℕ}

lemma keys_storeMany (E : EntityDef d) (t : E.Tables) (es : List E.Instance) :
    E.keys (E.storeMany t es) = E.keys t ∪ (es.map E.pk).toFinset := by
  cases E
  rfl

lemma pk_compose {E : EntityDef d} {t : E.Tables} {k : Key d} {e : E.Instance}
    (h : E.compose t k = .ok e) : E.pk e = k := by
  cases E
  unfold compose at h
  split at h
  · cases h
  · cases h
    rfl

variable {bits n m : ℕ} {order : FieldOrder n m} {column : Fin n → PlainDef d}
  {multiplicity : Fin m → Multiplicity}
variable {child : ∀ j, EntityDef ((multiplicity j).depth d)}

/-- An instance is composed from its columns and from its children. -/
lemma compose_eq_ok {t : (mk bits n m order column multiplicity child).Tables} {k : Key d}
    {e : (mk bits n m order column multiplicity child).Instance} :
    (mk bits n m order column multiplicity child).compose t k = .ok e ↔
      e.pk = k ∧ (∀ i, (column i).tables.getValue (t.column i) k = some (e.column i)) ∧
      ∀ j, Lists bits k (multiplicity j) ((child j).keys (t.relationship j))
          (((multiplicity j).children (e.relationship j)).map (child j).pk) ∧
        ∀ c ∈ (multiplicity j).children (e.relationship j),
          (child j).compose (t.relationship j) ((child j).pk c) = .ok c := by
  have hcolumns : ∀ i, columnInit (column i).table k.indices
    ((column i).tables.getValue (t.column i) k) =
      .ok (e.column i) ↔ _ := fun i => columnInit_eq_ok
  have hrelationships : ∀ j, relationInit bits k (multiplicity j) ((child j).keys (t.relationship j))
      ((child j).compose (t.relationship j)) = .ok (e.relationship j) ↔ _ := fun j =>
    relationInit_eq_ok fun k c h => pk_compose h
  have hfields : initFields order _ _ = .ok (e.column, e.relationship) ↔ _ :=
    initFields_eq_ok.trans (and_congr (forall_congr' hcolumns) (forall_congr' hrelationships))
  rw [← hfields]
  unfold compose
  obtain ⟨pk, columns, relationships⟩ := e
  split
  · next h => simp [h]
  · next columns' relationships' h =>
    rw [h]
    constructor
    · intro heq
      cases heq
      exact ⟨rfl, rfl⟩
    · rintro ⟨rfl, heq⟩
      obtain ⟨rfl, rfl⟩ := Prod.mk.inj (Except.ok.inj heq)
      rfl

/-- The relationship of one store: the children are read back exactly when they take the place of
those from before and nothing from before shows through them in turn. -/
lemma relationship_storeMany_iff {A : Type} (bits : ℕ) (pk : A → Key d) {es : List A}
    (hnd : (es.map pk).Nodup) {r : Multiplicity} {E : EntityDef (r.depth d)}
    (field : A → r.Field E.Instance) (t : E.Tables)
    (ih : ∀ cs : List E.Instance, (cs.map E.pk).Nodup →
      ((∀ c ∈ cs, E.compose (E.storeMany t cs) (E.pk c) = .ok c) ↔ E.Replaces t cs)) :
    (∀ e ∈ es, Lists bits (pk e) r (E.keys (E.storeMany t (es.flatMap fun e => r.children (field e))))
          ((r.children (field e)).map E.pk) ∧
        ∀ c ∈ r.children (field e),
          E.compose (E.storeMany t (es.flatMap fun e => r.children (field e))) (E.pk c) = .ok c) ↔
      (∀ e ∈ es, Renews bits (pk e) r (E.keys t) ((r.children (field e)).map E.pk)) ∧
        E.Replaces t (es.flatMap fun e => r.children (field e)) := by
  rw [forall₂_and, keys_storeMany, List.map_flatMap, lists_iff_renews hnd]
  refine and_congr_right fun hrenews => ?_
  have hflat := nodup_flatMap_children hnd hrenews
  rw [← List.map_flatMap] at hflat
  rw [← ih _ hflat]
  simp only [List.mem_flatMap, forall_exists_index, and_imp]
  exact ⟨fun h c e he hc => h e he c hc, fun h e he c hc => h c e he hc⟩

/-- The column of one store. -/
lemma column_storeMany_iff {A V : Type} (pk : A → Key d) {es : List A} (hnd : (es.map pk).Nodup)
    (C : ColumnTables (Key d) V) (field : A → V) (s : C.State) :
    (∀ e ∈ es, C.getValue (C.insertRows s (es.map fun e => (pk e, field e))) (pk e) = some (field e)) ↔
      C.Keeps s (es.map fun e => (pk e, field e)) := by
  rw [← C.reads_iff, List.forall_mem_map]
  rwa [List.map_map]

/-- **Storing and reading.**  Instances with different keys that are stored in one transaction are
all composed again exactly when nothing from before shows through. -/
theorem compose_storeMany_iff {d : ℕ} (E : EntityDef d) (t : E.Tables) (es : List E.Instance)
    (hnd : (es.map E.pk).Nodup) :
    (∀ e ∈ es, E.compose (E.storeMany t es) (E.pk e) = .ok e) ↔ E.Replaces t es := by
  induction E with
  | @mk d bits n m order column multiplicity child ih =>
    have hcolumns : ∀ i, _ ↔ (column i).tables.Keeps (t.column i)
        (es.map fun e => (e.pk, e.column i)) := fun i =>
      column_storeMany_iff InstanceFields.pk hnd (column i).tables (fun e => e.column i) (t.column i)
    have hchildren := fun j => relationship_storeMany_iff bits InstanceFields.pk hnd
      (fun e => e.relationship j) (t.relationship j) (ih j (t.relationship j))
    constructor
    · intro h
      have hparts := fun e he => compose_eq_ok.mp (h e he)
      exact ⟨fun i => (hcolumns i).mp fun e he => (hparts e he).2.1 i,
        fun j => (hchildren j).mp fun e he => (hparts e he).2.2 j⟩
    · rintro ⟨hc, hr⟩ e he
      exact compose_eq_ok.mpr ⟨rfl, fun i => (hcolumns i).mpr (hc i) e he, fun j =>
        (hchildren j).mpr (hr j) e he⟩

end Store

end EntityDef

/-! ### A block with fewer transactions -/

/-- A plain column of numbers. -/
def hashColumn : PlainDef 1 where
  table := "transaction_hash_by_id"
  V := ℕ
  order := inferInstance
  cacheKey := inferInstance
  xxh3 := id
  asLeBytes _ := []
  indexing := .off 1
  shards_ne_zero := one_ne_zero
  lruCapacity := 0
  used := false

/-- Transactions, with a hash. -/
def transactionDef : EntityDef 1 := .mk 16 1 0 (.columnsFirst 1 0) (fun _ => hashColumn) Fin.elim0
    fun j => j.elim0

/-- Blocks, with their transactions. -/
def blockDef : EntityDef 0 := .mk 32 0 1 (.columnsFirst 0 1) Fin.elim0 (fun _ => .oneToMany)
    fun _ => transactionDef

/-- A transaction of the block 1. -/
def transactionAt (index hash : ℕ) : transactionDef.Instance :=
  ⟨(Key.root 1).fromParent index, fun _ => hash, fun j => j.elim0⟩

/-- The block 1. -/
def blockOf (transactions : List transactionDef.Instance) : blockDef.Instance :=
  ⟨Key.root 1, fun i => i.elim0, fun _ => transactions⟩

end Redbit.Entity
