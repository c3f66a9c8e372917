import Redbit.Storage.Tidy
import Redbit.Entity.RoundTrip
import Redbit.Entity.Delete

/-!
# A database is a map from keys to instances

Transactions of `store_many` with keys that are not stored, and of `delete_many` with any keys, in
any order: at every moment `get` reads what the same operations make of a map from keys to instances
(`EntityDef.get_run`), every delete takes whole subtrees, and what it returns says whether the keys
were all there.

Deleted keys may be stored again.  There is one condition on them (`EntityDef.Unborn`): no
dictionary column has a value left that was born with one of the keys, for its row would be written
over.
-/

set_option linter.unusedSectionVars false

namespace Redbit.Entity

open Redbit.Lib Redbit.Storage

/-! ### Columns -/

/-- What is proved of a column that is given rows under new keys and loses rows again: `births s`
are the keys that a dictionary uses for values, and `Tidy s keys` says that the rows are those of
`keys`, one of each at most. -/
structure ColumnDeletes.Maps {K V : Type} [LinearOrder K] {C : ColumnTables K V} (D : ColumnDeletes C)
    (births : C.State → Finset K) (Sound Tidy : C.State → Finset K → Prop) : Prop where
  empty : Tidy C.empty ∅
  sound : ∀ {s keys}, Tidy s keys → Sound s (keys ∪ births s)
  insertRows : ∀ {s keys rows}, Tidy s keys → FreshRows (keys ∪ births s) rows →
    Tidy (C.insertRows s rows) (keys ∪ keysOfRows rows)
  deleteRows : ∀ {s keys}, Tidy s keys → ∀ ks : List K, Tidy (D.deleteRows s ks).2 (keys \ ks.toFinset)
  held_le_one : ∀ {s keys}, Tidy s keys → ∀ k, D.held s k ≤ 1
  not_stray : ∀ {s keys}, Tidy s keys → ∀ k, ¬ D.Stray s k
  deleteRows_fst : ∀ {s keys}, Tidy s keys → ∀ ks : List K,
    ((D.deleteRows s ks).1 = true ↔ ks.Nodup ∧ ∀ k ∈ ks, D.held s k ≠ 0)
  held_of_read : ∀ {s keys k}, Tidy s keys → C.getValue s k ≠ none → D.held s k ≠ 0
  mem_of_held : ∀ {s keys k}, Tidy s keys → D.held s k ≠ 0 → k ∈ keys

section Columns

variable {K V : Type} [LinearOrder K] [LinearOrder V] [CacheKey V] (n : ℕ) [NeZero n] (hash : V → ℕ)
  (now : Bool)

/-- A key that a shard reads is held. -/
lemma held_of_getValue {T : Type} {S : ShardTable T K V} {c : Column n T} {k : K}
    (h : c.getValue S k ≠ none) : Column.held S c k ≠ 0 := by
  intro hzero
  have hnone := Column.held_eq_zero.mp hzero
  refine h ?_
  unfold Column.getValue
  rw [List.findSome?_eq_none_iff.mpr fun i _ => hnone i]
  rfl

lemma plainDeletes_maps (V : Type) (part : K → Fin n) :
    (plainDeletes n V part).Maps (fun _ => ∅) (fun _ _ => True) (PlainTidy part) where
  empty := ⟨fun _ k hk => absurd (Table.get_empty k) hk, fun _ k hk => absurd (Table.get_empty k) hk⟩
  sound _ := trivial
  insertRows h _ := h.insertRows _
  deleteRows h ks := h.deleteRows ks
  held_le_one h k := h.held_le_one k
  not_stray _ _ := not_false
  deleteRows_fst h ks := h.deleteRows_fst ks
  held_of_read h hk := mt (plainHeld_eq_zero h.placed).mp hk
  mem_of_held h hk := h.mem_of_held hk

/-- The rows of an index column are those of the keys, one of each at most. -/
def IndexTablesTidy (f : IndexFactory) (c : (indexTables n hash now f : ColumnTables K V).State)
    (keys : Finset K) : Prop :=
  c.1.Tidy (indexShard f) IndexSane keys

/-- The rows of a dictionary column are those of the keys, one of each at most. -/
def DictTablesTidy (f : DictFactory) (c : (dictTables n hash now f : ColumnTables K V).State)
    (keys : Finset K) : Prop :=
  c.1.Tidy (dictShard f) DictSane keys

/-- The tables of all shards of an index column are empty. -/
def IndexTablesBlank (f : IndexFactory)
    (c : (indexTables n hash now f : ColumnTables K V).State) : Prop :=
  ∀ i, (c.1 i).toIndexTables = IndexTables.empty

/-- The tables of all shards of a dictionary column are empty. -/
def DictTablesBlank (f : DictFactory)
    (c : (dictTables n hash now f : ColumnTables K V).State) : Prop :=
  ∀ i, (c.1 i).toDictTables = DictTables.empty

/-- The keys that a dictionary column uses for its values. -/
def dictTablesBirths (f : DictFactory)
    (c : (dictTables n hash now f : ColumnTables K V).State) : Finset K :=
  c.1.births dictBirths

lemma births_of_empty {T : Type} (c : Column n T) : c.births (fun _ => (∅ : Finset K)) = ∅ := by
  unfold Column.births
  exact Finset.eq_empty_of_forall_notMem fun k hk => by simp at hk

lemma indexDeletes_maps (f : IndexFactory) :
    (indexDeletes n hash now f : ColumnDeletes (indexTables n hash now f : ColumnTables K V)).Maps
      (fun _ => ∅) (IndexTablesSound n hash now f) (IndexTablesTidy n hash now f) where
  empty := ⟨fun _ => indexSane_empty f, fun _ _ hk => absurd rfl hk, fun _ _ _ hk => absurd rfl hk⟩
  sound {s keys} h := by
    rw [← births_of_empty n s.1]
    exact h.allSound (indexShard_reuses f now)
  insertRows {s keys rows} h hrows := by
    rw [← births_of_empty n s.1] at hrows
    exact h.insertRows (indexShard_reuses f now) (indexShard_readsBack f now) hrows
  deleteRows h ks := h.deleteRows (indexShard_reuses f now) (indexShard_erases f now) ks
  held_le_one h k := h.held_le_one k
  not_stray h _ := fun ⟨i, hi⟩ => (h.sane i).not_stray hi
  deleteRows_fst h ks := h.deleteRows_fst (indexShard_reuses f now) (indexShard_erases f now) ks
  held_of_read _ hk := held_of_getValue n hk
  mem_of_held h hk := h.mem_of_held hk

lemma dictDeletes_maps (f : DictFactory) :
    (dictDeletes n hash now f : ColumnDeletes (dictTables n hash now f : ColumnTables K V)).Maps
      (dictTablesBirths n hash now f) (DictTablesSound n hash now f)
        (DictTablesTidy n hash now f) where
  empty := ⟨fun _ => dictSane_empty f,
    fun _ _ hk => absurd rfl hk, fun _ _ _ hk => absurd rfl hk⟩
  sound h := h.allSound (dictShard_reuses f now)
  insertRows h hrows := h.insertRows (dictShard_reuses f now) (dictShard_readsBack f now) hrows
  deleteRows h ks := h.deleteRows (dictShard_reuses f now) (dictShard_erases f now) ks
  held_le_one h k := h.held_le_one k
  not_stray h _ := fun ⟨i, hi⟩ => (h.sane i).inverse.not_stray hi
  deleteRows_fst h ks := h.deleteRows_fst (dictShard_reuses f now) (dictShard_erases f now) ks
  held_of_read _ hk := held_of_getValue n hk
  mem_of_held h hk := h.mem_of_held hk

end Columns

/-- The keys that a dictionary column uses for its values; other columns use none. -/
def PlainDef.births {d : ℕ} : (c : PlainDef d) → c.tables.State → Finset (Key d)
  | ⟨_, _, _, _, _, _, .off _, _, _, _⟩, _ => ∅
  | ⟨_, _, _, _, _, _, .index _, _, _, _⟩, _ => ∅
  | ⟨_, _, _, _, _, _, .range _, _, _, _⟩, _ => ∅
  | ⟨_, _, order, cacheKey, xxh3, _, .dict n, h, lru, used⟩, c =>
    @dictTablesBirths _ _ _ order cacheKey n (neZero_shards h) xxh3 used (DictFactory.new lru) c

/-- The rows of the column are those of the keys, one of each at most. -/
def PlainDef.Tidy {d : ℕ} : (c : PlainDef d) → c.tables.State → Finset (Key d) → Prop
  | ⟨_, _, _, _, _, asLeBytes, .off n, h, _, _⟩, c, keys =>
    haveI : NeZero n := neZero_shards h
    PlainTidy (fun k => partitionBytesLe n (asLeBytes k)) c keys
  | ⟨_, _, order, cacheKey, xxh3, _, .index n, h, lru, used⟩, c, keys =>
    @IndexTablesTidy _ _ _ order cacheKey n (neZero_shards h) xxh3 used (IndexFactory.new lru) c keys
  | ⟨_, _, order, cacheKey, xxh3, _, .range n, h, lru, used⟩, c, keys =>
    @IndexTablesTidy _ _ _ order cacheKey n (neZero_shards h) xxh3 used (IndexFactory.new lru) c keys
  | ⟨_, _, order, cacheKey, xxh3, _, .dict n, h, lru, used⟩, c, keys =>
    @DictTablesTidy _ _ _ order cacheKey n (neZero_shards h) xxh3 used (DictFactory.new lru) c keys

lemma PlainDef.maps {d : ℕ} : (c : PlainDef d) → c.deletes.Maps c.births c.Sound c.Tidy
  | ⟨_, V, _, _, _, _, .off n, h, _, _⟩ =>
    haveI : NeZero n := neZero_shards h
    plainDeletes_maps n V _
  | ⟨_, _, order, cacheKey, xxh3, _, .index n, h, lru, used⟩ =>
    haveI : NeZero n := neZero_shards h
    @indexDeletes_maps _ _ _ order cacheKey n _ xxh3 used (IndexFactory.new lru)
  | ⟨_, _, order, cacheKey, xxh3, _, .range n, h, lru, used⟩ =>
    haveI : NeZero n := neZero_shards h
    @indexDeletes_maps _ _ _ order cacheKey n _ xxh3 used (IndexFactory.new lru)
  | ⟨_, _, order, cacheKey, xxh3, _, .dict n, h, lru, used⟩ =>
    haveI : NeZero n := neZero_shards h
    @dictDeletes_maps _ _ _ order cacheKey n _ xxh3 used (DictFactory.new lru)

/-- The tables of all shards are empty. -/
def PlainDef.Blank {d : ℕ} : (c : PlainDef d) → c.tables.State → Prop
  | ⟨_, _, _, _, _, _, .off _, _, _, _⟩, c => ∀ i, c i = Table.empty
  | ⟨_, _, order, cacheKey, xxh3, _, .index n, h, lru, used⟩, c =>
    @IndexTablesBlank _ _ _ order cacheKey n (neZero_shards h) xxh3 used (IndexFactory.new lru) c
  | ⟨_, _, order, cacheKey, xxh3, _, .range n, h, lru, used⟩, c =>
    @IndexTablesBlank _ _ _ order cacheKey n (neZero_shards h) xxh3 used (IndexFactory.new lru) c
  | ⟨_, _, order, cacheKey, xxh3, _, .dict n, h, lru, used⟩, c =>
    @DictTablesBlank _ _ _ order cacheKey n (neZero_shards h) xxh3 used (DictFactory.new lru) c

/-- A column with rows of no keys is empty. -/
lemma PlainDef.blank_of_tidy {d : ℕ} : ∀ {c : PlainDef d} {s : c.tables.State}, c.Tidy s ∅ → c.Blank s
  | ⟨_, V, _, _, _, _, .off _, _, _, _⟩, s, h => fun i => by
    refine Table.ext fun k => ?_
    rw [Table.get_empty]
    by_contra hk
    exact absurd (h.rows i k hk) (Finset.notMem_empty k)
  | ⟨_, _, order, cacheKey, _, _, .index n, hn, _, _⟩, _, h =>
    haveI : NeZero n := neZero_shards hn
    fun i => (h.sane i).eq_empty fun k => Option.map_eq_none_iff.mp (h.find_of_empty i k)
  | ⟨_, _, order, cacheKey, _, _, .range n, hn, _, _⟩, _, h =>
    haveI : NeZero n := neZero_shards hn
    fun i => (h.sane i).eq_empty fun k => Option.map_eq_none_iff.mp (h.find_of_empty i k)
  | ⟨_, _, order, cacheKey, _, _, .dict n, hn, _, _⟩, _, h =>
    haveI : NeZero n := neZero_shards hn
    fun i => (h.sane i).eq_empty fun k => Option.map_eq_none_iff.mp (h.find_of_empty i k)

/-! ### One transaction -/

namespace EntityDef

/-- The columns have rows of the stored keys, one of each at most, and the children are under stored
parents. -/
def Tidy : {d : ℕ} → (E : EntityDef d) → E.Tables → Prop
  | _, mk bits _ _ _ column multiplicity child, t =>
    (∀ i, (column i).Tidy (t.column i) t.keys) ∧
    ∀ j, (∀ k ∈ (child j).keys (t.relationship j), ∃ p ∈ t.keys,
      IsChildKey bits p (multiplicity j) k) ∧
      (child j).Tidy (t.relationship j)

/-- No dictionary column has a value left that was born with the key of one of the instances or of
their children. -/
def Unborn : {d : ℕ} → (E : EntityDef d) → E.Tables → List E.Instance → Prop
  | _, mk _ _ _ _ column multiplicity child, t, es =>
    (∀ i, ∀ e ∈ es, e.pk ∉ (column i).births (t.column i)) ∧
    ∀ j, (child j).Unborn (t.relationship j)
      (es.flatMap fun e => (multiplicity j).children (e.relationship j))

/-- What a transaction with new instances does to the tables. -/
structure Adds {d : ℕ} (E : EntityDef d) (t : E.Tables) (es : List E.Instance) : Prop where
  replaces : E.Replaces t es
  tidy : E.Tidy (E.storeMany t es)
  frame : ∀ k ∈ E.keys t, ∀ e, E.compose t k = .ok e → E.compose (E.storeMany t es) k = .ok e

lemma tidy_empty {d : ℕ} (E : EntityDef d) : E.Tidy E.empty := by
  induction E with
  | mk bits n m order column multiplicity child ih =>
    refine ⟨fun i => (column i).maps.empty, fun j => ⟨fun k hk => ?_, ih j⟩⟩
    replace hk : k ∈ (child j).keys (child j).empty := hk
    rw [(child j).sound_empty.2] at hk
    exact absurd hk (Finset.notMem_empty k)

/-- **One transaction of stores.** -/
theorem adds {d : ℕ} (E : EntityDef d) {t : E.Tables} {es : List E.Instance} (htidy : E.Tidy t)
    (hfresh : E.FreshKeys t es) (hkeyed : ∀ e ∈ es, E.WellKeyed e) (hunborn : E.Unborn t es) :
    E.Adds t es := by
  induction E with
  | @mk d bits n m order column multiplicity child ih =>
    obtain ⟨hcolumns, hrelationships⟩ := htidy
    obtain ⟨hnd, hnew⟩ := hfresh
    have hrows : ∀ i, FreshRows (t.keys ∪ (column i).births (t.column i))
      (es.map fun e => (e.pk, e.column i)) ∧
        keysOfRows (es.map fun e => (e.pk, e.column i)) = (es.map InstanceFields.pk).toFinset := by
      intro i
      refine freshRows_column hnd (fun e he hm => ?_) fun e => e.column i
      exact (Finset.mem_union.mp hm).elim (hnew e he) (hunborn.1 i e he)
    have hrenews := fun j => renews_of_new_parent (hrelationships j).1 hnew fun e he => hkeyed e he j
    have hchildren : ∀ j, (child j).Adds (t.relationship j)
        (es.flatMap fun e => (multiplicity j).children (e.relationship j)) := by
      intro j
      refine ih j (hrelationships j).2
        (freshKeys_children hnd hnew (hrelationships j).1 fun e he => hkeyed e he j)
          (fun c hc => ?_) (hunborn.2 j)
      obtain ⟨e, he, hc⟩ := List.mem_flatMap.mp hc
      exact ((hkeyed e he j).2 c hc).2
    have hsound := fun i => (column i).maps.sound (hcolumns i)
    refine ⟨⟨fun i => (column i).grows.keeps (hsound i) (hrows i).1, fun j =>
      ⟨hrenews j, (hchildren j).replaces⟩⟩,
      ⟨fun i => ?_, fun j => ⟨fun k hk => ?_, (hchildren j).tidy⟩⟩, fun k hk e he => ?_⟩
    · have hinsert := (column i).maps.insertRows (hcolumns i) (hrows i).1
      rw [(hrows i).2] at hinsert
      exact hinsert
    · exact parent_of_mem_storeMany (hrelationships j).1
        (fun e he c hc => ((hkeyed e he j).2 c hc).1) hk
    · obtain ⟨hpk, hc, hr⟩ := compose_eq_ok.mp he
      refine compose_eq_ok.mpr ⟨hpk, fun i => ?_, fun j => ⟨?_, fun c hc => ?_⟩⟩
      · have hseen := Finset.mem_union_left ((column i).births (t.column i)) hk
        exact ((column i).grows.frame (hsound i) (hrows i).1 hseen).trans (hc i)
      · exact lists_storeMany hnew (fun e he c hc => ((hkeyed e he j).2 c hc).1) hk (hr j).1
      · refine (hchildren j).frame _ ?_ c ((hr j).2 c hc)
        exact (((hr j).1.2 _).mp (List.mem_map_of_mem hc)).1

/-- The children of a deleted key are deleted. -/
lemma mem_childPks {d bits : ℕ} {pks : List (Key d)} {p : Key d} (hp : p ∈ pks) : ∀ {m : Multiplicity}
    {keys : Finset (Key (m.depth d))} {k : Key (m.depth d)}, k ∈ keys → IsChildKey bits p m k →
    k ∈ childPks bits m keys pks
  | .oneToOption, _, _, _, hk => hk ▸ hp
  | .oneToOne, _, _, _, hk => hk ▸ hp
  | .oneToMany, _, _, hm, hk => mem_flatMap_pkRange.mpr ⟨hm, hk.1 ▸ hp, hk.1 ▸ hk.2⟩

/-- A delete leaves the tables tidy. -/
theorem Tidy.deleteMany {d : ℕ} {E : EntityDef d} {t : E.Tables} (h : E.Tidy t) (pks : List (Key d)) :
    E.Tidy (E.deleteMany t pks).2 := by
  induction E with
  | mk bits n m order column multiplicity child ih =>
    have hkeys : (deleteKeys t.keys pks).2 = t.keys \ pks.toFinset := deleteKeys_snd t.keys pks
    refine ⟨fun i => ?_, fun j => ⟨fun k hk => ?_, ih j (h.2 j).2 _⟩⟩
    · show (column i).Tidy _ (deleteKeys t.keys pks).2
      rw [hkeys]
      exact (column i).maps.deleteRows (h.1 i) pks
    · show ∃ p ∈ (deleteKeys t.keys pks).2, _
      rw [hkeys]
      replace hk : k ∈ (child j).keys ((child j).deleteMany (t.relationship j)
        (childPks bits (multiplicity j) ((child j).keys (t.relationship j)) pks)).2 := hk
      rw [keys_deleteMany, Finset.mem_sdiff, List.mem_toFinset] at hk
      obtain ⟨p, hp, hkp⟩ := (h.2 j).1 k hk.1
      refine ⟨p, Finset.mem_sdiff.mpr ⟨hp, fun hm => hk.2 ?_⟩, hkp⟩
      exact mem_childPks (List.mem_toFinset.mp hm) hk.1 hkp

lemma childrenReached_of_parents {d bits : ℕ} {stored : Finset (Key d)} (pks : List (Key d)) :
    ∀ {m : Multiplicity}
    {keys : Finset (Key (m.depth d))}, (∀ k ∈ keys, ∃ p ∈ stored, IsChildKey bits p m k) →
    ChildrenReached bits pks m keys
  | .oneToOption, _, _ => trivial
  | .oneToOne, _, _ => trivial
  | .oneToMany, _, h => fun k hk _ => by
    obtain ⟨p, -, hkp⟩ := h k hk
    rw [hkp.1]
    exact hkp.2

/-- A delete reaches whole subtrees of tidy tables. -/
theorem Tidy.reached {d : ℕ} {E : EntityDef d} {t : E.Tables} (h : E.Tidy t) (pks : List (Key d)) :
    E.Reached t pks := by
  induction E with
  | mk bits n m order column multiplicity child ih =>
    refine ⟨fun i k hk => ?_, fun j => ⟨childrenReached_of_parents pks (h.2 j).1, ih j (h.2 j).2 _⟩⟩
    have hone := (column i).maps.held_le_one (h.1 i) k
    have hcount := List.count_pos_iff.mpr hk
    exact ⟨hone.trans hcount, (column i).maps.not_stray (h.1 i) k⟩

/-! ### What a delete returns -/

lemma deleteKeys_fst {d : ℕ} (keys : Finset (Key d)) (pks : List (Key d)) :
    (deleteKeys keys pks).1 = true ↔ pks.Nodup ∧ ∀ k ∈ pks, k ∈ keys := by
  induction pks using List.reverseRecOn with
  | nil => exact iff_of_true rfl ⟨List.nodup_nil, fun k hk => absurd hk List.not_mem_nil⟩
  | append_singleton pks pk ih =>
    have hstep : (deleteKeys keys (pks ++ [pk])).1 =
        ((deleteKeys keys pks).1 && decide (pk ∈ (deleteKeys keys pks).2)) := by
      unfold deleteKeys
      rw [List.foldl_append]
      rfl
    rw [hstep, Bool.and_eq_true, ih, decide_eq_true_iff, deleteKeys_snd, Finset.mem_sdiff,
      List.mem_toFinset, and_comm (a := pk ∈ keys)]
    exact nodup_and_forall_concat.symm

/-- Children that are not optional are found, each once, where those of every parent are. -/
lemma nodup_childPks {d bits : ℕ} {pks : List (Key d)} (hnd : pks.Nodup) : ∀ {m : Multiplicity}
    {keys : Finset (Key (m.depth d))}, m ≠ .oneToOption →
      (m = .oneToOne → ∀ p ∈ pks, ∃ k ∈ keys, IsChildKey bits p m k) →
    (childPks bits m keys pks).Nodup ∧ ∀ k ∈ childPks bits m keys pks, k ∈ keys
  | .oneToOption, _, hm, _ => absurd rfl hm
  | .oneToOne, _, _, h => ⟨hnd, fun k hk => by
    obtain ⟨k', hk', heq⟩ := h rfl k hk
    exact heq ▸ hk'⟩
  | .oneToMany, _, _, _ => by
    refine ⟨List.nodup_flatMap.mpr ⟨fun pk _ => ?_, ?_⟩, fun k hk => (mem_flatMap_pkRange.mp hk).1⟩
    · exact Finset.sort_nodup _ _
    · refine List.Pairwise.imp ?_ hnd
      intro p p' hne k hk hk'
      exact hne ((mem_pkRange_fkRange.mp hk).2.1.symm.trans (mem_pkRange_fkRange.mp hk').2.1)

/-- The children in a field that is not optional. -/
lemma children_oneToOne {C : Type} :
    ∀ {m : Multiplicity}, m = .oneToOne → ∀ f : m.Field C, ∃ c, c ∈ m.children f
  | .oneToOne, _, f => ⟨f, List.mem_singleton_self f⟩

/-- **What a delete returns**, where every stored key is composed: whether the keys are different
and all stored. -/
theorem deleteMany_fst_iff {d : ℕ} (E : EntityDef d) {t : E.Tables} (htidy : E.Tidy t)
    (hread : ∀ k ∈ E.keys t, ∃ e, E.compose t k = .ok e) (pks : List (Key d)) :
    (E.deleteMany t pks).1 = true ↔ pks.Nodup ∧ ∀ k ∈ pks, k ∈ E.keys t := by
  induction E with
  | @mk d bits n m order column multiplicity child ih =>
    have hread' : ∀ k ∈ t.keys, ∃ e, (mk bits n m order column multiplicity child).compose t k =
      .ok e := hread
    show ((deleteKeys t.keys pks).1 && decide _ && decide _) = true ↔ pks.Nodup ∧ ∀ k ∈ pks, k ∈ t.keys
    rw [← deleteKeys_fst]
    rw [Bool.and_eq_true, Bool.and_eq_true, and_assoc]
    refine and_iff_left_of_imp fun hkeys => ?_
    obtain ⟨hnd, hmem⟩ := (deleteKeys_fst t.keys pks).mp hkeys
    refine ⟨decide_eq_true fun i => ?_, decide_eq_true fun j => ?_⟩
    · refine ((column i).maps.deleteRows_fst (htidy.1 i) pks).mpr ⟨hnd, fun k hk => ?_⟩
      obtain ⟨e, he⟩ := hread' k (hmem k hk)
      refine (column i).maps.held_of_read (htidy.1 i) ?_
      rw [(compose_eq_ok.mp he).2.1 i]
      simp
    · by_cases hoption : multiplicity j = .oneToOption
      · exact Or.inl hoption
      refine Or.inr ((ih j (htidy.2 j).2 (fun k hk => ?_) _).mpr
        (nodup_childPks hnd hoption fun hone p hp => ?_))
      · -- a child is read with its parent
        obtain ⟨p, hp, hkp⟩ := (htidy.2 j).1 k hk
        obtain ⟨e, he⟩ := hread' p hp
        obtain ⟨hlists, hall⟩ := (compose_eq_ok.mp he).2.2 j
        obtain ⟨c, hc, rfl⟩ := List.mem_map.mp ((hlists.2 k).mpr ⟨hk, hkp⟩)
        exact ⟨c, hall c hc⟩
      · obtain ⟨e, he⟩ := hread' p (hmem p hp)
        obtain ⟨hlists, -⟩ := (compose_eq_ok.mp he).2.2 j
        obtain ⟨c, hc⟩ := children_oneToOne hone (e.relationship j)
        exact ⟨(child j).pk c, (hlists.2 _).mp (List.mem_map_of_mem hc)⟩

/-! ### Runs -/

/-- The operations on a map from keys to instances. -/
def mapOp {d : ℕ} (E : EntityDef d) (m : Key d → Option E.Instance) : E.Op → Key d → Option E.Instance
  | .storeMany es => putAll m (es.map fun e => (E.pk e, e))
  | .deleteMany pks => fun k => if k ∈ pks then none else m k

/-- What the callers of `store_many` take care of: new keys, children under the keys of their
parents, and no key that a dictionary still uses.  Of a delete nothing is asked. -/
def Fits {d : ℕ} (E : EntityDef d) (t : E.Tables) : E.Op → Prop
  | .storeMany es => E.FreshKeys t es ∧ (∀ e ∈ es, E.WellKeyed e) ∧ E.Unborn t es
  | .deleteMany _ => True

/-- The tables are those of the map `m`. -/
structure Mapped {d : ℕ} (E : EntityDef d) (t : E.Tables) (m : Key d → Option E.Instance) : Prop where
  tidy : E.Tidy t
  listed : E.Listed t
  get : ∀ k, E.get t k = .ok (m k)

section Run

variable {d : ℕ} {E : EntityDef d} {t : E.Tables} {m : Key d → Option E.Instance}

lemma get_eq_some {k : Key d} {e : E.Instance} :
    E.get t k = .ok (some e) ↔ k ∈ E.keys t ∧ E.compose t k = .ok e :=
  getWith_eq_some

lemma get_eq_none {k : Key d} : E.get t k = .ok none ↔ k ∉ E.keys t := getWith_eq_none

lemma mapped_empty (E : EntityDef d) : E.Mapped E.empty fun _ => none := by
  refine ⟨E.tidy_empty, E.listed_empty, fun k => get_eq_none.mpr ?_⟩
  rw [E.sound_empty.2]
  exact Finset.notMem_empty k

lemma Mapped.mem_keys (h : E.Mapped t m) {k : Key d} : k ∈ E.keys t ↔ m k ≠ none := by
  rw [← not_iff_not, not_not, ← get_eq_none, h.get k, Except.ok.injEq]

lemma Mapped.compose (h : E.Mapped t m) {k : Key d} {e : E.Instance} (he : m k = some e) :
    E.compose t k = .ok e := by
  refine (get_eq_some.mp ?_).2
  rw [h.get k, he]

lemma Mapped.read (h : E.Mapped t m) : ∀ k ∈ E.keys t, ∃ e, E.compose t k = .ok e := by
  intro k hk
  obtain ⟨e, he⟩ := Option.ne_none_iff_exists'.mp (h.mem_keys.mp hk)
  exact ⟨e, h.compose he⟩

lemma Mapped.storeMany (h : E.Mapped t m) {es : List E.Instance} (hfits : E.Fits t (.storeMany es)) :
    E.Mapped (E.storeMany t es) (E.mapOp m (.storeMany es)) := by
  obtain ⟨hfresh, hkeyed, hunborn⟩ := hfits
  have hadds := E.adds h.tidy hfresh hkeyed hunborn
  have hrows : (es.map fun e => (E.pk e, e)).map Prod.fst = es.map E.pk := by
    rw [List.map_map]
    rfl
  refine ⟨hadds.tidy, h.listed.storeMany es, fun k => ?_⟩
  by_cases hk : k ∈ es.map E.pk
  · -- a new instance
    obtain ⟨e, he, rfl⟩ := List.mem_map.mp hk
    have hput : putAll m (es.map fun e => (E.pk e, e)) (E.pk e) = some e := by
      have hrow : (E.pk e, e) ∈ es.map fun e => (E.pk e, e) := List.mem_map.mpr ⟨e, he, rfl⟩
      refine putAll_of_mem ?_ hrow m
      rw [hrows]
      exact hfresh.1
    show _ = Except.ok (putAll m _ _)
    rw [hput]
    refine get_eq_some.mpr ⟨?_, (E.compose_storeMany_iff t es hfresh.1).mpr hadds.replaces e he⟩
    rw [keys_storeMany]
    exact Finset.mem_union_right _ (List.mem_toFinset.mpr hk)
  · have hput : putAll m (es.map fun e => (E.pk e, e)) k = m k := putAll_of_notMem (hrows ▸ hk) m
    show _ = Except.ok (putAll m _ _)
    rw [hput]
    have hkeys : k ∈ E.keys (E.storeMany t es) ↔ k ∈ E.keys t := by
      rw [keys_storeMany, Finset.mem_union, List.mem_toFinset]
      exact or_iff_left hk
    cases hm : m k with
    | none =>
      refine get_eq_none.mpr ?_
      rw [hkeys, h.mem_keys, not_not]
      exact hm
    | some e =>
      have hmem : k ∈ E.keys t := by
        rw [h.mem_keys, hm]
        simp
      exact get_eq_some.mpr ⟨hkeys.mpr hmem, hadds.frame k hmem e (h.compose hm)⟩

lemma Mapped.deleteMany (h : E.Mapped t m) (pks : List (Key d)) :
    E.Mapped (E.deleteMany t pks).2 (E.mapOp m (.deleteMany pks)) := by
  refine ⟨h.tidy.deleteMany pks, h.listed.deleteMany pks, fun k => ?_⟩
  show _ = Except.ok (if k ∈ pks then none else m k)
  by_cases hk : k ∈ pks
  · rw [if_pos hk]
    refine get_eq_none.mpr ?_
    rw [keys_deleteMany, Finset.mem_sdiff, List.mem_toFinset]
    exact fun hm => hm.2 hk
  · rw [if_neg hk, E.get_deleteMany h.listed hk]
    exact h.get k

/-- **The step.** -/
lemma Mapped.apply (h : E.Mapped t m) {op : E.Op} (hfits : E.Fits t op) :
    E.Mapped (E.apply t op) (E.mapOp m op) := by
  cases op with
  | storeMany es => exact h.storeMany hfits
  | deleteMany pks => exact h.deleteMany pks

/-- **The run.** -/
lemma mapped_run (E : EntityDef d) {ops : List E.Op} (hfits : EachStep E.apply E.Fits E.empty ops) :
    E.Mapped (run E.apply E.empty ops) (run E.mapOp (fun _ => none) ops) := by
  induction ops using List.reverseRecOn with
  | nil => exact E.mapped_empty
  | append_singleton ops op ih =>
    rw [run_concat, run_concat]
    refine (ih fun p a hp => hfits p a (hp.trans (List.prefix_append ops [op]))).apply ?_
    exact hfits ops op List.prefix_rfl

/-- **A database is a map.**  After any sequence of stores and deletes `get` reads, for every key,
what the same operations make of a map from keys to instances. -/
theorem get_run (E : EntityDef d) (ops : List E.Op) (hfits : EachStep E.apply E.Fits E.empty ops)
    (k : Key d) : E.get (run E.apply E.empty ops) k = .ok (run E.mapOp (fun _ => none) ops k) :=
  (E.mapped_run hfits).get k

/-- **Every delete of such a database** takes the subtrees of its keys and nothing else, at every
level, and returns whether the keys are different and all stored. -/
theorem delete_run (E : EntityDef d) (ops : List E.Op) (hfits : EachStep E.apply E.Fits E.empty ops)
    (pks : List (Key d)) :
    let t := run E.apply E.empty ops
    let m := run E.mapOp (fun _ => none) ops
    E.Cascades t (E.deleteMany t pks).2 pks.toFinset ∧
      ((E.deleteMany t pks).1 = true ↔ pks.Nodup ∧ ∀ k ∈ pks, m k ≠ none) ∧
      ∀ pk, (E.delete t pk).1 = true ↔ m pk ≠ none := by
  intro t m
  have hmapped : E.Mapped t m := E.mapped_run hfits
  have hfst : ∀ pks, (E.deleteMany t pks).1 = true ↔ pks.Nodup ∧ ∀ k ∈ pks, m k ≠ none := by
    intro pks
    rw [E.deleteMany_fst_iff hmapped.tidy hmapped.read]
    exact and_congr_right fun _ => forall₂_congr fun k _ => hmapped.mem_keys
  refine ⟨(E.deleteMany_cascades_iff hmapped.listed pks).mpr (hmapped.tidy.reached pks), hfst pks,
    fun pk => ?_⟩
  rw [delete_eq_deleteMany, hfst [pk]]
  simp

end Run

end EntityDef

/-! ### A block that is stored again -/

/-- A block of two transactions is stored and deleted, and stored again with one of them. -/
def restoredOps : List blockDef.Op :=
  [.storeMany [blockOf [transactionAt 0 10, transactionAt 1 11]], .deleteMany [Key.root 1],
    .storeMany [blockOf [transactionAt 0 20]]]

lemma unborn_blockDef (t : blockDef.Tables) (es : List blockDef.Instance) : blockDef.Unborn t es :=
  ⟨fun i => i.elim0, fun _ => ⟨fun _ _ _ => Finset.notMem_empty _, fun j => j.elim0⟩⟩

lemma fits_restoredOps : EachStep blockDef.apply blockDef.Fits blockDef.empty restoredOps := by
  have hkeyed : ∀ txs : List transactionDef.Instance, (txs.map transactionDef.pk).Pairwise (· < ·) →
      (∀ c ∈ txs, (transactionDef.pk c).parent = Key.root 1) →
        ∀ e ∈ [blockOf txs], blockDef.WellKeyed e := by
    intro txs hsorted hparent e he j
    obtain rfl := List.mem_singleton.mp he
    have hindex : (Key.root 1).index + 1 < 2 ^ 32 := by decide
    exact ⟨hsorted, fun c hc => ⟨⟨hparent c hc, hindex⟩, fun j => j.elim0⟩⟩
  refine eachStep_cons.mpr ⟨⟨⟨List.nodup_singleton _, fun e _ => ?_⟩, hkeyed _ ?_ ?_,
    unborn_blockDef _ _⟩,
    eachStep_cons.mpr ⟨trivial, eachStep_cons.mpr
      ⟨⟨⟨List.nodup_singleton _, fun e he => ?_⟩, hkeyed _ ?_ ?_,
      unborn_blockDef _ _⟩, eachStep_nil _ _⟩⟩⟩
  · rw [blockDef.sound_empty.2]
    exact Finset.notMem_empty _
  · exact show [(Key.root 1).fromParent 0, (Key.root 1).fromParent 1].Pairwise (· < ·) by decide
  · intro c hc
    rcases List.mem_pair.mp hc with rfl | rfl <;> rfl
  · obtain rfl := List.mem_singleton.mp he
    show Key.root 1 ∉ blockDef.keys (blockDef.deleteMany _ [Key.root 1]).2
    rw [EntityDef.keys_deleteMany]
    simp
  · exact List.pairwise_singleton _ _
  · intro c hc
    obtain rfl := List.mem_singleton.mp hc
    rfl

/-- The block is read with the one transaction. -/
theorem get_run_restored :
    blockDef.get (run blockDef.apply blockDef.empty restoredOps) (Key.root 1) =
      .ok (some (blockOf [transactionAt 0 20])) :=
  blockDef.get_run restoredOps fits_restoredOps (Key.root 1)

/-- A delete of it is found, and a delete of the block 2 is not. -/
theorem delete_run_restored :
    let t := run blockDef.apply blockDef.empty restoredOps
    blockDef.Cascades t (blockDef.deleteMany t [Key.root 1]).2 {Key.root 1} ∧
      (blockDef.deleteMany t [Key.root 1]).1 = true ∧ (blockDef.delete t (Key.root 2)).1 = false := by
  intro t
  obtain ⟨hcascades, hmany, hone⟩ := blockDef.delete_run restoredOps fits_restoredOps [Key.root 1]
  refine ⟨hcascades, hmany.mpr ⟨List.nodup_singleton _, fun k hk => ?_⟩, ?_⟩
  · obtain rfl := List.mem_singleton.mp hk
    exact Option.some_ne_none (blockOf [transactionAt 0 20])
  · refine Bool.eq_false_iff.mpr fun h => ?_
    exact (hone (Key.root 2)).mp h rfl

end Redbit.Entity
