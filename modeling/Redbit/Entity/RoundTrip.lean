import Redbit.Entity.Replace
import Redbit.Storage.FreshRows

/-!
# What is stored is what is read

Starting from an empty storage, transactions of `store_many` with root keys that are new each time
keep every table sound (`EntityDef.Sound`): the columns hold rows of stored keys only, and every
child row is under a stored parent.  So an instance is read back after its own transaction, and
later ones change nothing of it.

A relationship that a `write_from` hook fills takes part with the children its hook writes.
-/

set_option linter.unusedSectionVars false

namespace Redbit.Entity

open Redbit.Lib Redbit.Storage

/-! ### Columns -/

/-- What is proved of the tables of a column that is given rows under new keys. -/
structure ColumnTables.Grows {K V : Type} [LinearOrder K] (C : ColumnTables K V)
    (Sound : C.State → Finset K → Prop) : Prop where
  empty : Sound C.empty ∅
  keeps : ∀ {s seen rows}, Sound s seen → FreshRows seen rows → C.Keeps s rows
  grows : ∀ {s seen rows}, Sound s seen → FreshRows seen rows →
    Sound (C.insertRows s rows) (seen ∪ keysOfRows rows)
  frame : ∀ {s seen rows k}, Sound s seen → FreshRows seen rows → k ∈ seen →
    C.getValue (C.insertRows s rows) k = C.getValue s k

section Columns

variable {K V : Type} [LinearOrder K] [LinearOrder V] [CacheKey V] (n : ℕ) [NeZero n] (hash : V → ℕ)
  (now : Bool)

lemma plainTables_grows (V : Type) (part : K → Fin n) : (plainTables n V part).Grows fun _ _ =>
    True where
  empty := trivial
  keeps _ _ := trivial
  grows _ _ := trivial
  frame {s seen rows k} _ hrows hk := by
    refine Table.get_insertAll_of_notMem (fun kv hkv heq => ?_) _
    exact hrows.2 kv (List.mem_filter.mp hkv).1 (heq ▸ hk)

/-- The shards of an index column hold rows of the keys `seen` only. -/
def IndexTablesSound (f : IndexFactory) (c : (indexTables n hash now f : ColumnTables K V).State)
    (seen : Finset K) : Prop :=
  c.1.AllSound IndexSound seen

/-- The shards of a dictionary column hold rows of the keys `seen` only. -/
def DictTablesSound (f : DictFactory) (c : (dictTables n hash now f : ColumnTables K V).State)
    (seen : Finset K) : Prop :=
  c.1.AllSound DictSound seen

lemma indexTables_grows (f : IndexFactory) :
    (indexTables n hash now f : ColumnTables K V).Grows (IndexTablesSound n hash now f) where
  empty _ k hk := absurd (Table.get_empty k) hk
  keeps h hrows := h.keepsRows (indexShard_grows f now) hrows
  grows h hrows := h.insertRows (indexShard_grows f now) hrows
  frame h hrows hk := h.getValue_insertRows (indexShard_grows f now) hrows hk

lemma dictTables_grows (f : DictFactory) :
    (dictTables n hash now f : ColumnTables K V).Grows (DictTablesSound n hash now f) where
  empty _ := ⟨fun k b h => absurd h (Table.get_empty_ne_some k b), fun b v h =>
    absurd h (Table.get_empty_ne_some b v), fun v b h => absurd h (Table.get_empty_ne_some v b)⟩
  keeps h hrows := h.keepsRows (dictShard_grows f now) hrows
  grows h hrows := h.insertRows (dictShard_grows f now) hrows
  frame h hrows hk := h.getValue_insertRows (dictShard_grows f now) hrows hk

end Columns

/-- The column holds rows of the keys `seen` only. -/
def PlainDef.Sound {d : ℕ} : (c : PlainDef d) → c.tables.State → Finset (Key d) → Prop
  | ⟨_, _, _, _, _, _, .off _, _, _, _⟩, _, _ => True
  | ⟨_, _, order, cacheKey, xxh3, _, .index n, h, lru, used⟩, c, seen =>
    @IndexTablesSound _ _ _ order cacheKey n (neZero_shards h) xxh3 used (IndexFactory.new lru) c seen
  | ⟨_, _, order, cacheKey, xxh3, _, .range n, h, lru, used⟩, c, seen =>
    @IndexTablesSound _ _ _ order cacheKey n (neZero_shards h) xxh3 used (IndexFactory.new lru) c seen
  | ⟨_, _, order, cacheKey, xxh3, _, .dict n, h, lru, used⟩, c, seen =>
    @DictTablesSound _ _ _ order cacheKey n (neZero_shards h) xxh3 used (DictFactory.new lru) c seen

lemma PlainDef.grows {d : ℕ} : (c : PlainDef d) → c.tables.Grows c.Sound
  | ⟨_, V, _, _, _, _, .off n, h, _, _⟩ =>
    haveI : NeZero n := neZero_shards h
    plainTables_grows n V _
  | ⟨_, _, order, cacheKey, xxh3, _, .index n, h, lru, used⟩ =>
    haveI : NeZero n := neZero_shards h
    @indexTables_grows _ _ _ order cacheKey n _ xxh3 used (IndexFactory.new lru)
  | ⟨_, _, order, cacheKey, xxh3, _, .range n, h, lru, used⟩ =>
    haveI : NeZero n := neZero_shards h
    @indexTables_grows _ _ _ order cacheKey n _ xxh3 used (IndexFactory.new lru)
  | ⟨_, _, order, cacheKey, xxh3, _, .dict n, h, lru, used⟩ =>
    haveI : NeZero n := neZero_shards h
    @dictTables_grows _ _ _ order cacheKey n _ xxh3 used (DictFactory.new lru)

/-! ### One transaction -/

/-- The children of a field determine it. -/
lemma Multiplicity.children_injective {C : Type} : ∀ {m : Multiplicity} {f f' : m.Field C},
    m.children f = m.children f' → f = f'
  | .oneToOption, none, none, _ => rfl
  | .oneToOption, some _, some _, h => congrArg some (List.singleton_injective h)
  | .oneToOne, _, _, h => List.singleton_injective h
  | .oneToMany, _, _, h => h

namespace EntityDef

/-- The columns hold rows of stored keys only, and the children are under stored parents. -/
def Sound : {d : ℕ} → (E : EntityDef d) → E.Tables → Prop
  | _, mk bits _ _ _ column multiplicity child, t =>
    (∀ i, (column i).Sound (t.column i) t.keys) ∧
    ∀ j, (∀ k ∈ (child j).keys (t.relationship j), ∃ p ∈ t.keys,
      IsChildKey bits p (multiplicity j) k) ∧
      (child j).Sound (t.relationship j)

/-- The children have keys under the key of their parent, in order, at every level.  For one2many
children this asks that the index of the parent is not the last one of its type. -/
def WellKeyed : {d : ℕ} → (E : EntityDef d) → E.Instance → Prop
  | _, mk bits _ _ _ _ multiplicity child, e =>
    ∀ j, (((multiplicity j).children (e.relationship j)).map (child j).pk).Pairwise (· < ·) ∧
      ∀ c ∈ (multiplicity j).children (e.relationship j),
        IsChildKey bits e.pk (multiplicity j) ((child j).pk c) ∧ (child j).WellKeyed c

/-- Instances with different keys, none of which is stored. -/
def FreshKeys {d : ℕ} (E : EntityDef d) (t : E.Tables) (es : List E.Instance) : Prop :=
  (es.map E.pk).Nodup ∧ ∀ e ∈ es, E.pk e ∉ E.keys t

/-- What a transaction with the instances `es` does to the tables. -/
structure Stored {d : ℕ} (E : EntityDef d) (t : E.Tables) (es : List E.Instance) : Prop where
  replaces : E.Replaces t es
  sound : E.Sound (E.storeMany t es)
  frame : ∀ k ∈ E.keys t, ∀ e, E.compose t k = .ok e → E.compose (E.storeMany t es) k = .ok e

lemma sound_empty {d : ℕ} (E : EntityDef d) : E.Sound E.empty ∧ E.keys E.empty = ∅ := by
  induction E with
  | mk bits n m order column multiplicity child ih =>
    refine ⟨⟨fun i => (column i).grows.empty, fun j => ⟨fun k hk => ?_, (ih j).1⟩⟩, rfl⟩
    have hk' : k ∈ (child j).keys (child j).empty := hk
    rw [(ih j).2] at hk'
    exact absurd hk' (Finset.notMem_empty k)

section Children

variable {d bits : ℕ} {A : Type} {pk : A → Key d} {es : List A} {stored : Finset (Key d)}
variable {r : Multiplicity} {E : EntityDef (r.depth d)} {field : A → r.Field E.Instance} {t : E.Tables}

/-- A key of a child of a new parent is not stored. -/
lemma notMem_of_new_parent (hparent : ∀ k ∈ E.keys t, ∃ p ∈ stored, IsChildKey bits p r k)
    {p : Key d} (hp : p ∉ stored) {k : Key (r.depth d)} (hk : IsChildKey bits p r k) :
    k ∉ E.keys t := by
  intro hm
  obtain ⟨q, hq, hkq⟩ := hparent k hm
  exact hp (hk.unique hkq ▸ hq)

lemma renews_of_new_parent (hparent : ∀ k ∈ E.keys t, ∃ p ∈ stored, IsChildKey bits p r k)
    (hnew : ∀ e ∈ es, pk e ∉ stored)
    (hkeyed : ∀ e ∈ es, ((r.children (field e)).map E.pk).Pairwise (· < ·) ∧
      ∀ c ∈ r.children (field e), IsChildKey bits (pk e) r (E.pk c) ∧ E.WellKeyed c) :
    ∀ e ∈ es, Renews bits (pk e) r (E.keys t) ((r.children (field e)).map E.pk) := by
  intro e he
  refine ⟨(hkeyed e he).1, fun k hk => ?_, fun k hk hchild => ?_⟩
  · obtain ⟨c, hc, rfl⟩ := List.mem_map.mp hk
    exact ((hkeyed e he).2 c hc).1
  · exact absurd hk (notMem_of_new_parent hparent (hnew e he) hchild)

/-- The children of new parents are new. -/
lemma freshKeys_children (hnd : (es.map pk).Nodup) (hnew : ∀ e ∈ es, pk e ∉ stored)
    (hparent : ∀ k ∈ E.keys t, ∃ p ∈ stored, IsChildKey bits p r k)
    (hkeyed : ∀ e ∈ es, ((r.children (field e)).map E.pk).Pairwise (· < ·) ∧
      ∀ c ∈ r.children (field e), IsChildKey bits (pk e) r (E.pk c) ∧ E.WellKeyed c) :
    E.FreshKeys t (es.flatMap fun e => r.children (field e)) := by
  have hrenews := renews_of_new_parent hparent hnew hkeyed
  refine ⟨?_, fun c hc => ?_⟩
  · rw [List.map_flatMap]
    exact nodup_flatMap_children hnd hrenews
  · obtain ⟨e, he, hc⟩ := List.mem_flatMap.mp hc
    exact notMem_of_new_parent hparent (hnew e he) ((hkeyed e he).2 c hc).1

/-- A stored parent finds the same children as before. -/
lemma lists_storeMany (hnew : ∀ e ∈ es, pk e ∉ stored)
    (hkeyed : ∀ e ∈ es, ∀ c ∈ r.children (field e), IsChildKey bits (pk e) r (E.pk c))
    {p : Key d} (hp : p ∈ stored) {ks : List (Key (r.depth d))} (h : Lists bits p r (E.keys t) ks) :
    Lists bits p r (E.keys (E.storeMany t (es.flatMap fun e => r.children (field e)))) ks := by
  refine ⟨h.1, fun k => ?_⟩
  rw [h.2, keys_storeMany, Finset.mem_union]
  refine ⟨fun hk => ⟨Or.inl hk.1, hk.2⟩, fun hk => ⟨hk.1.resolve_right fun hm => ?_, hk.2⟩⟩
  obtain ⟨c, hc, rfl⟩ := List.mem_map.mp (List.mem_toFinset.mp hm)
  obtain ⟨e, he, hc⟩ := List.mem_flatMap.mp hc
  exact hnew e he ((hkeyed e he c hc).unique hk.2 ▸ hp)

/-- After a transaction every child row is from before or that of a new child, and so under a stored
parent. -/
lemma parent_of_mem_storeMany (hparent : ∀ k ∈ E.keys t, ∃ p ∈ stored, IsChildKey bits p r k)
    (hkeyed : ∀ e ∈ es, ∀ c ∈ r.children (field e), IsChildKey bits (pk e) r (E.pk c))
    {k : Key (r.depth d)} (hk : k ∈ E.keys
      (E.storeMany t (es.flatMap fun e => r.children (field e)))) :
    ∃ p ∈ stored ∪ (es.map pk).toFinset, IsChildKey bits p r k := by
  rw [keys_storeMany, Finset.mem_union] at hk
  rcases hk with hk | hk
  · obtain ⟨p, hp, hkp⟩ := hparent k hk
    exact ⟨p, Finset.mem_union_left _ hp, hkp⟩
  · obtain ⟨c, hc, rfl⟩ := List.mem_map.mp (List.mem_toFinset.mp hk)
    obtain ⟨e, he, hc⟩ := List.mem_flatMap.mp hc
    refine ⟨pk e, Finset.mem_union_right _ ?_, hkeyed e he c hc⟩
    exact List.mem_toFinset.mpr (List.mem_map_of_mem he)

end Children

/-- The rows of a column are under the keys of the instances. -/
lemma freshRows_column {d : ℕ} {A V : Type} {pk : A → Key d} {es : List A} {stored : Finset (Key d)}
    (hnd : (es.map pk).Nodup) (hnew : ∀ e ∈ es, pk e ∉ stored) (field : A → V) :
    FreshRows stored (es.map fun e => (pk e, field e)) ∧
      keysOfRows (es.map fun e => (pk e, field e)) = (es.map pk).toFinset := by
  have hkeys : (es.map fun e => (pk e, field e)).map Prod.fst = es.map pk := by
    rw [List.map_map]
    rfl
  refine ⟨⟨hkeys ▸ hnd, List.forall_mem_map.mpr hnew⟩, ?_⟩
  unfold keysOfRows
  rw [hkeys]

/-- **One transaction.**  New instances that are keyed as they should be all show in full, the
tables stay sound, and nothing that is stored changes. -/
theorem stored {d : ℕ} (E : EntityDef d) {t : E.Tables} {es : List E.Instance} (hsound : E.Sound t)
    (hfresh : E.FreshKeys t es) (hkeyed : ∀ e ∈ es, E.WellKeyed e) : E.Stored t es := by
  induction E with
  | @mk d bits n m order column multiplicity child ih =>
    obtain ⟨hcolumns, hrelationships⟩ := hsound
    obtain ⟨hnd, hnew⟩ := hfresh
    have hrows := fun i => freshRows_column hnd hnew fun e => e.column i
    have hrenews := fun j => renews_of_new_parent (hrelationships j).1 hnew fun e he => hkeyed e he j
    have hchildren : ∀ j, (child j).Stored (t.relationship j)
        (es.flatMap fun e => (multiplicity j).children (e.relationship j)) := by
      intro j
      refine ih j (hrelationships j).2
        (freshKeys_children hnd hnew (hrelationships j).1 fun e he => hkeyed e he j) fun c hc => ?_
      obtain ⟨e, he, hc⟩ := List.mem_flatMap.mp hc
      exact ((hkeyed e he j).2 c hc).2
    refine ⟨⟨fun i => (column i).grows.keeps (hcolumns i) (hrows i).1, fun j =>
      ⟨hrenews j, (hchildren j).replaces⟩⟩,
      ⟨fun i => ?_, fun j => ⟨fun k hk => ?_, (hchildren j).sound⟩⟩, fun k hk e he => ?_⟩
    · have hgrows := (column i).grows.grows (hcolumns i) (hrows i).1
      rw [(hrows i).2] at hgrows
      exact hgrows
    · exact parent_of_mem_storeMany (hrelationships j).1
        (fun e he c hc => ((hkeyed e he j).2 c hc).1) hk
    · obtain ⟨hpk, hc, hr⟩ := compose_eq_ok.mp he
      refine compose_eq_ok.mpr ⟨hpk, fun i => ?_, fun j => ⟨?_, fun c hc => ?_⟩⟩
      · exact ((column i).grows.frame (hcolumns i) (hrows i).1 hk).trans (hc i)
      · exact lists_storeMany hnew (fun e he c hc => ((hkeyed e he j).2 c hc).1) hk (hr j).1
      · refine (hchildren j).frame _ ?_ c ((hr j).2 c hc)
        exact (((hr j).1.2 _).mp (List.mem_map_of_mem hc)).1

/-! ### Any number of transactions -/

section Run

variable {d : ℕ} {E : EntityDef d} {t : E.Tables} {es new : List E.Instance}

/-- The tables hold the instances `es` and no others. -/
structure Holds (E : EntityDef d) (t : E.Tables) (es : List E.Instance) : Prop where
  sound : E.Sound t
  keys : E.keys t = (es.map E.pk).toFinset
  compose : ∀ e ∈ es, E.compose t (E.pk e) = .ok e

/-- A transaction adds its instances to those that are held. -/
lemma Holds.storeMany (h : E.Holds t es) (hnd : ((es ++ new).map E.pk).Nodup)
    (hkeyed : ∀ e ∈ new, E.WellKeyed e) : E.Holds (E.storeMany t new) (es ++ new) := by
  rw [List.map_append] at hnd
  obtain ⟨-, hnew, hdisj⟩ := List.nodup_append.mp hnd
  have hstored : E.Stored t new := by
    refine E.stored h.sound ⟨hnew, fun e he hm => ?_⟩ hkeyed
    rw [h.keys, List.mem_toFinset] at hm
    exact hdisj _ hm _ (List.mem_map_of_mem he) rfl
  refine ⟨hstored.sound, ?_, fun e he => ?_⟩
  · rw [keys_storeMany, h.keys, List.map_append, List.toFinset_append]
  · rcases List.mem_append.mp he with he | he
    · refine hstored.frame _ ?_ e (h.compose e he)
      rw [h.keys]
      exact List.mem_toFinset.mpr (List.mem_map_of_mem he)
    · exact (E.compose_storeMany_iff t new hnew).mpr hstored.replaces e he

/-- After any number of transactions the tables hold what they stored. -/
lemma holds_run (E : EntityDef d) (batches : List (List E.Instance))
    (hnd : (batches.flatten.map E.pk).Nodup) (hkeyed : ∀ e ∈ batches.flatten, E.WellKeyed e) :
    E.Holds (batches.foldl E.storeMany E.empty) batches.flatten := by
  induction batches using List.reverseRecOn with
  | nil =>
    refine ⟨E.sound_empty.1, E.sound_empty.2, fun e he => ?_⟩
    exact absurd he List.not_mem_nil
  | append_singleton batches new ih =>
    have hflat : (batches ++ [new]).flatten = batches.flatten ++ new := by simp
    rw [hflat] at hnd hkeyed ⊢
    rw [List.foldl_append, List.foldl_cons, List.foldl_nil]
    have hbefore := hnd
    rw [List.map_append] at hbefore
    refine (ih hbefore.of_append_left fun e he => ?_).storeMany hnd fun e he => ?_
    · exact hkeyed e (List.mem_append_left _ he)
    · exact hkeyed e (List.mem_append_right _ he)

lemma Holds.get_of_mem (h : E.Holds t es) {e : E.Instance} (he : e ∈ es) :
    E.get t (E.pk e) = .ok (some e) := by
  refine getWith_eq_some.mpr ⟨?_, h.compose e he⟩
  rw [h.keys]
  exact List.mem_toFinset.mpr (List.mem_map_of_mem he)

lemma Holds.get_of_notMem (h : E.Holds t es) {k : Key d} (hk : k ∉ es.map E.pk) :
    E.get t k = .ok none := by
  refine getWith_eq_none.mpr ?_
  rw [h.keys]
  exact fun hm => hk (List.mem_toFinset.mp hm)

end Run

/-- Which of the relationships a `write_from` hook fills, at every level. -/
def WriteFrom : {d : ℕ} → EntityDef d → Type
  | _, mk _ _ m _ _ _ child => ∀ j : Fin m, Bool × (child j).WriteFrom

/-- The fields are equal, those that a hook fills left aside. -/
def SameFields : {d : ℕ} → (E : EntityDef d) → E.WriteFrom → E.Instance → E.Instance → Prop
  | _, mk _ _ _ _ _ multiplicity child, hooked, e, e' =>
    e.pk = e'.pk ∧ (∀ i, e.column i = e'.column i) ∧
    ∀ j, (hooked j).1 = true ∨ List.Forall₂ ((child j).SameFields (hooked j).2)
      ((multiplicity j).children (e.relationship j)) ((multiplicity j).children (e'.relationship j))

/-- No relationship is filled by a hook. -/
def noHook : {d : ℕ} → (E : EntityDef d) → E.WriteFrom
  | _, mk _ _ _ _ _ _ child => fun j => (false, (child j).noHook)

lemma pk_of_sameFields {d : ℕ} {E : EntityDef d} {hooked : E.WriteFrom} {e e' : E.Instance}
    (h : E.SameFields hooked e e') : E.pk e = E.pk e' := by
  cases E
  exact h.1

/-- Without hooks all fields are equal. -/
lemma eq_of_sameFields {d : ℕ} (E : EntityDef d) : ∀ e e' : E.Instance, E.SameFields E.noHook e e' →
    e = e' := by
  induction E with
  | @mk d bits n m order column multiplicity child ih =>
    rintro ⟨pk, columns, relationships⟩ ⟨pk', columns', relationships'⟩ ⟨hpk, hcolumns, hrelationships⟩
    obtain rfl : pk = pk' := hpk
    obtain rfl : columns = columns' := funext hcolumns
    have heq : relationships = relationships' := by
      funext j
      have hforall := (hrelationships j).resolve_left Bool.false_ne_true
      exact Multiplicity.children_injective (List.forall₂_eq_eq_eq ▸ hforall.imp (ih j))
    rw [heq]

/-- **What is stored is what is read.**  Any number of transactions on a new storage store instances
with different keys, all children under the keys of their parents and in order; `written` puts the
children that the hooks write into their fields.  Then every instance is read back by its key, and
no other key is found. -/
theorem get_after_storeMany_run {d : ℕ} (E : EntityDef d) (hooked : E.WriteFrom)
    (written : E.Instance → E.Instance) (batches : List (List E.Instance))
    (hwritten : ∀ e ∈ batches.flatten, E.SameFields hooked e (written e))
    (hkeyed : ∀ e ∈ batches.flatten, E.WellKeyed (written e))
    (hnd : (batches.flatten.map E.pk).Nodup) :
    let t := batches.foldl (fun t es => E.storeMany t (es.map written)) E.empty
    (∀ e ∈ batches.flatten, ∃ e', E.get t (E.pk e) = .ok (some e') ∧ E.SameFields hooked e e') ∧
      ∀ k, k ∉ batches.flatten.map E.pk → E.get t k = .ok none := by
  intro t
  have hkeys : (batches.flatten.map written).map E.pk = batches.flatten.map E.pk := by
    rw [List.map_map]
    exact List.map_congr_left fun e he => (pk_of_sameFields (hwritten e he)).symm
  have hholds : E.Holds t (batches.flatten.map written) := by
    have hrun := E.holds_run (batches.map (List.map written))
    rw [← List.map_flatten, List.foldl_map] at hrun
    refine hrun ?_ (List.forall_mem_map.mpr hkeyed)
    rw [hkeys]
    exact hnd
  refine ⟨fun e he => ⟨written e, ?_, hwritten e he⟩, fun k hk => hholds.get_of_notMem ?_⟩
  · rw [pk_of_sameFields (hwritten e he)]
    exact hholds.get_of_mem (List.mem_map_of_mem he)
  · rw [hkeys]
    exact hk

end EntityDef

/-- Two transactions, of a block with two transactions and of an empty one. -/
theorem get_blockOf_of_two_batches :
    let block := blockOf [transactionAt 0 10, transactionAt 1 11]
    let next : blockDef.Instance := ⟨Key.root 2, fun i => i.elim0, fun _ => []⟩
    let t := blockDef.storeMany (blockDef.storeMany blockDef.empty [block]) [next]
    blockDef.get t (Key.root 1) = .ok (some block) ∧ blockDef.get t (Key.root 2) = .ok (some next) ∧
      blockDef.get t (Key.root 3) = .ok none := by
  intro block next t
  have hkeyed : ∀ e ∈ [[block], [next]].flatten, blockDef.WellKeyed e := by
    intro e he j
    rcases List.mem_pair.mp he with rfl | rfl
    · refine ⟨show [(Key.root 1).fromParent 0, (Key.root 1).fromParent 1].Pairwise
        (· < ·) by decide, fun c hc => ?_⟩
      rcases List.mem_pair.mp hc with rfl | rfl
      · exact ⟨⟨rfl, by decide⟩, fun j => j.elim0⟩
      · exact ⟨⟨rfl, by decide⟩, fun j => j.elim0⟩
    · exact ⟨List.Pairwise.nil, fun c hc => absurd hc List.not_mem_nil⟩
  have hsame : ∀ e : blockDef.Instance, blockDef.SameFields blockDef.noHook e e := by
    refine fun e => ⟨rfl, fun i => rfl, fun j => Or.inr (List.forall₂_same.mpr fun c _ => ?_)⟩
    exact ⟨rfl, fun i => rfl, fun j => j.elim0⟩
  obtain ⟨hread, hnone⟩ := blockDef.get_after_storeMany_run blockDef.noHook id [[block], [next]]
    (fun e _ => hsame e) hkeyed (show [Key.root 1, Key.root 2].Nodup by decide)
  obtain ⟨block', hget, hblock⟩ := hread block (List.mem_cons_self ..)
  obtain ⟨next', hget', hnext⟩ := hread next (List.mem_cons_of_mem _ (List.mem_singleton_self _))
  rw [← blockDef.eq_of_sameFields _ _ hblock] at hget
  rw [← blockDef.eq_of_sameFields _ _ hnext] at hget'
  exact ⟨hget, hget', hnone (Key.root 3) (show Key.root 3 ∉ [Key.root 1, Key.root 2] by decide)⟩

end Redbit.Entity
