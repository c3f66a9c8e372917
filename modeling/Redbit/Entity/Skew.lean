import Redbit.Storage.Skew
import Redbit.Entity.IndexQuery

/-!
# Reading and storing while the databases are at different transactions (`context.rs`, `chain.rs`)

The tables of an entity and of its children are databases that commit one after the other.  What a
crash leaves of a transaction, and what a read context sees that was opened while transactions were
being committed, is each database as one of the transactions left it (`EntityDef.Skewed`).

* `EntityDef.get_skewed` — what was stored before the first of these transactions is read as it was
stored;
* `EntityDef.store_again` — a transaction that was torn by a crash, and torn again any number of
times, leaves the tables of an untorn one when it is stored again.
-/

set_option linter.unusedSectionVars false

namespace Redbit.Entity

open Redbit.Lib Redbit.Storage

/-! ### Columns -/

/-- What is proved of a column whose shards are at different transactions: `Same` compares the
tables, `Agrees` the rows of some keys. -/
structure Skews {K V State : Type} [LinearOrder K] (insertRows : State → List (K × V) → State)
    (getValue : State → K → Option V) (births : State → Finset K) (Tidy : State → Finset K → Prop)
    (Caches : State → List (K × V) → Prop) (Exact : State → Prop)
    (Skewed : (State → Prop) → State → Prop) (Same : State → State → Prop)
    (Agrees : Finset K → State → State → Prop) : Prop where
  same_refl : ∀ s, Same s s
  getValue_same : ∀ {s s'}, Same s s' → ∀ k, getValue s k = getValue s' k
  of_same : ∀ {states : State → Prop} {s s'}, states s → Same s' s → Skewed states s'
  trans : ∀ {states states' v}, Skewed states' v → (∀ s, states' s → Skewed states s) → Skewed states v
  agrees_refl : ∀ keys s, Agrees keys s s
  agrees_trans : ∀ {keys keys' s s' s''}, keys ⊆ keys' → Agrees keys s s' → Agrees keys' s' s'' →
    Agrees keys s s''
  agrees_insertRows : ∀ {s keys rows}, Tidy s keys → FreshRows (keys ∪ births s) rows →
    Agrees keys s (insertRows s rows)
  agrees_skewed : ∀ {keys s v} {states : State → Prop}, (∀ s', states s' → Agrees keys s s') →
    Skewed states v → Agrees keys s v
  getValue_agrees : ∀ {keys s v k}, Agrees keys s v → k ∈ keys → getValue v k = getValue s k
  insertRows_skewed : ∀ {s keys v} {rows : List (K × V)}, Tidy s keys → Exact s →
    (rows.map Prod.fst).Pairwise (· < ·) → (∀ kv ∈ rows, kv.1 ∉ keys ∧ kv.1 ∉ births s) →
    Caches s rows →
    Skewed (fun s' => s' = s ∨ s' = insertRows s rows) v → Same (insertRows v rows) (insertRows s rows)

section Columns

variable {K V : Type} [LinearOrder K] [LinearOrder V] [CacheKey V] (n : ℕ) [NeZero n] (hash : V → ℕ)
  (now : Bool)

lemma plainTables_skews (V : Type) (part : K → Fin n) :
    Skews (plainTables n V part).insertRows (plainTables n V part).getValue (fun _ => ∅)
      (PlainTidy part)
      (fun _ _ => True) (fun _ => True) PlainSkewed (· = ·) PlainAgrees where
  same_refl _ := rfl
  getValue_same h k := congrArg (fun s => plainRead part s k) h
  trans hv h i := by
    obtain ⟨s, hs, hi⟩ := hv i
    obtain ⟨s', hs', hi'⟩ := h s hs i
    exact ⟨s', hs', hi.trans hi'⟩
  of_same {states s s'} hs h i := ⟨s, hs, congrFun h i⟩
  agrees_trans hkeys h h' k hk i := (h' k (hkeys hk) i).trans (h k hk i)
  agrees_refl _ _ _ _ _ := rfl
  agrees_insertRows _ hrows := plainAgrees_insertRows fun kv hkv hk =>
    hrows.2 kv hkv (Finset.mem_union_left _ hk)
  agrees_skewed h hv k hk i := by
    obtain ⟨s, hs, hi⟩ := hv i
    rw [hi]
    exact h s hs k hk i
  getValue_agrees h hk := h _ hk _
  insertRows_skewed _ _ hsorted _ _ hv := hv.insertRows (hsorted.imp ne_of_lt)

section Shards

variable {T : Type} {S : ShardTable T K V} {Rep : T → (K → Option V) → Prop}
variable {born : T → Finset K} {Fine Caches : T → List (K × V) → Prop} {Sound : T → Finset K → Prop}
variable {Listed Sane : T → Prop} {P : Column n T → Prop}

/-- Every shard is as one of the states has it. -/
def ShardsSkewed (S : ShardTable T K V) (states : { c : Column n T // P c } → Prop)
    (c : { c : Column n T // P c }) : Prop :=
  ∀ i, ∃ s, states s ∧ S.Same (c.1 i) (s.1 i)

lemma shardsSkewed_iff {states : { c : Column n T // P c } → Prop} {c : { c : Column n T // P c }} :
    ShardsSkewed n S states c ↔ c.1.Skewed S fun s => ∃ c', states c' ∧ c'.1 = s := by
  refine forall_congr' fun i => ⟨?_, ?_⟩
  · rintro ⟨s, hs, hsame⟩
    exact ⟨s.1, ⟨s, hs, rfl⟩, hsame⟩
  · rintro ⟨_, ⟨s, hs, rfl⟩, hsame⟩
    exact ⟨s, hs, hsame⟩

/-- A column that is sharded by value. -/
lemma shards_skews (hR : S.Restores now Rep) (hG : S.Grows now Fine Sound)
    (hU : S.Reuses now born Sound Listed Sane) (hL : S.Lists now Rep born Caches)
    {insertRows : { c : Column n T // P c } → List (K × V) → { c : Column n T // P c }}
    (hinsert : ∀ c rows, (insertRows c rows).1 = c.1.insertRows S hash now rows)
    {births : { c : Column n T // P c } → Finset K} (hbirths : ∀ c, births c = c.1.births born)
    {Enough : { c : Column n T // P c } → List (K × V) → Prop}
    (henough : ∀ c rows, Enough c rows → ∀ i, Caches (c.1 i) (bucket hash i rows)) :
    Skews insertRows (fun c k => c.1.getValue S k) births (fun c keys => c.1.Tidy S Sane keys) Enough
      (fun c => ReadRep n hash S Rep c.1)
      (ShardsSkewed n S) (fun c c' => Column.Same S c.1 c'.1)
        (fun keys c c' => Column.Agrees S keys c.1 c'.1) where
  same_refl _ _ := rfl
  getValue_same h k := Column.Same.getValue hR h k
  of_same {states s s'} hs h i := ⟨s, hs, h i⟩
  trans hv h := by
    refine (shardsSkewed_iff n).mpr (((shardsSkewed_iff n).mp hv).trans ?_)
    rintro _ ⟨s, hs, rfl⟩
    exact (shardsSkewed_iff n).mp (h s hs)
  agrees_refl _ _ _ _ _ := rfl
  agrees_trans hkeys h h' k hk i := (h' k (hkeys hk) i).trans (h k hk i)
  agrees_insertRows {s keys rows} h hrows := by
    rw [hbirths] at hrows
    rw [hinsert]
    exact (h.allSound hU).agrees hG hrows Finset.subset_union_left
  agrees_skewed h hv := by
    refine Column.Agrees.skewed hR ?_ ((shardsSkewed_iff n).mp hv)
    rintro _ ⟨s, hs, rfl⟩
    exact h s hs
  getValue_agrees h hk := h.getValue hk
  insertRows_skewed {s keys v rows} htidy hexact hsorted hnew hcaches hv := by
    rw [hinsert, hinsert]
    refine Column.Skewed.insertRows hR hL hexact hsorted (fun kv hkv => ⟨?_, ?_⟩)
      (henough s rows hcaches) fun i => ?_
    · by_contra hne
      exact (hnew kv hkv).1 (htidy.mem_of_held (held_of_getValue n hne))
    · rw [← hbirths]
      exact (hnew kv hkv).2
    · obtain ⟨s', hs', hsame⟩ := hv i
      refine ⟨s'.1, hs'.imp (congrArg Subtype.val) fun h => ?_, hsame⟩
      rw [h, hinsert]

end Shards

/-- Every shard of an index column is as one of the states has it. -/
def IndexTablesSkewed (f : IndexFactory)
    (states : (indexTables n hash now f : ColumnTables K V).State → Prop)
    (c : (indexTables n hash now f : ColumnTables K V).State) : Prop :=
  ShardsSkewed n (indexShard f) states c

/-- All shards of an index column have the same tables. -/
def IndexTablesSame (f : IndexFactory)
    (c c' : (indexTables n hash now f : ColumnTables K V).State) : Prop :=
  Column.Same (indexShard f) c.1 c'.1

/-- All shards of an index column have the same row under each of the keys. -/
def IndexTablesAgree (f : IndexFactory) (keys : Finset K)
    (c c' : (indexTables n hash now f : ColumnTables K V).State) : Prop :=
  Column.Agrees (indexShard f) keys c.1 c'.1

lemma indexTables_skews (f : IndexFactory) :
    Skews (indexTables n hash now f : ColumnTables K V).insertRows
      (indexTables n hash now f).getValue (fun _ => ∅)
      (IndexTablesTidy n hash now f) (fun _ _ => True) (IndexTablesExact n hash now f)
        (IndexTablesSkewed n hash now f)
      (IndexTablesSame n hash now f) (IndexTablesAgree n hash now f) :=
  shards_skews n hash now (indexShard_restores f now) (indexShard_grows f now)
    (indexShard_reuses f now)
    (indexShard_lists f now) (fun _ _ => rfl) (fun c => (births_of_empty n c.1).symm)
      fun _ _ _ _ => trivial

/-- Every shard of a dictionary column is as one of the states has it. -/
def DictTablesSkewed (f : DictFactory)
    (states : (dictTables n hash now f : ColumnTables K V).State → Prop)
    (c : (dictTables n hash now f : ColumnTables K V).State) : Prop :=
  ShardsSkewed n (dictShard f) states c

/-- All shards of a dictionary column have the same tables. -/
def DictTablesSame (f : DictFactory)
    (c c' : (dictTables n hash now f : ColumnTables K V).State) : Prop :=
  Column.Same (dictShard f) c.1 c'.1

/-- All shards of a dictionary column have the same row under each of the keys. -/
def DictTablesAgree (f : DictFactory) (keys : Finset K)
    (c c' : (dictTables n hash now f : ColumnTables K V).State) : Prop :=
  Column.Agrees (dictShard f) keys c.1 c'.1

lemma dictTables_skews (f : DictFactory) :
    Skews (dictTables n hash now f : ColumnTables K V).insertRows (dictTables n hash now f).getValue
      (dictTablesBirths n hash now f) (DictTablesTidy n hash now f) (DictTablesCaches n hash now f)
      (DictTablesExact n hash now f) (DictTablesSkewed n hash now f) (DictTablesSame n hash now f)
      (DictTablesAgree n hash now f) :=
  shards_skews n hash now (dictShard_restores f now) (dictShard_grows f now) (dictShard_reuses f now)
    (dictShard_lists f now) (fun _ _ => rfl) (fun _ => rfl) fun _ _ h => h

end Columns

namespace PlainDef

variable {d : ℕ}

/-- Every shard of the column is as one of the states has it. -/
def Skewed : (c : PlainDef d) → (c.tables.State → Prop) → c.tables.State → Prop
  | ⟨_, _, _, _, _, _, .off _, _, _, _⟩, states, c => PlainSkewed states c
  | ⟨_, _, order, cacheKey, xxh3, _, .index n, h, lru, used⟩, states, c =>
    @IndexTablesSkewed _ _ _ order cacheKey n (neZero_shards h) xxh3 used
      (IndexFactory.new lru) states c
  | ⟨_, _, order, cacheKey, xxh3, _, .range n, h, lru, used⟩, states, c =>
    @IndexTablesSkewed _ _ _ order cacheKey n (neZero_shards h) xxh3 used
      (IndexFactory.new lru) states c
  | ⟨_, _, order, cacheKey, xxh3, _, .dict n, h, lru, used⟩, states, c =>
    @DictTablesSkewed _ _ _ order cacheKey n (neZero_shards h) xxh3 used (DictFactory.new lru) states c

/-- All shards of the column have the same tables, whatever the caches hold. -/
def Same : (c : PlainDef d) → c.tables.State → c.tables.State → Prop
  | ⟨_, _, _, _, _, _, .off _, _, _, _⟩, c, c' => c = c'
  | ⟨_, _, order, cacheKey, xxh3, _, .index n, h, lru, used⟩, c, c' =>
    @IndexTablesSame _ _ _ order cacheKey n (neZero_shards h) xxh3 used (IndexFactory.new lru) c c'
  | ⟨_, _, order, cacheKey, xxh3, _, .range n, h, lru, used⟩, c, c' =>
    @IndexTablesSame _ _ _ order cacheKey n (neZero_shards h) xxh3 used (IndexFactory.new lru) c c'
  | ⟨_, _, order, cacheKey, xxh3, _, .dict n, h, lru, used⟩, c, c' =>
    @DictTablesSame _ _ _ order cacheKey n (neZero_shards h) xxh3 used (DictFactory.new lru) c c'

/-- All shards of the column have the same row under each of the keys. -/
def Agrees : (c : PlainDef d) → Finset (Key d) → c.tables.State → c.tables.State → Prop
  | ⟨_, _, _, _, _, _, .off _, _, _, _⟩, keys, c, c' => PlainAgrees keys c c'
  | ⟨_, _, order, cacheKey, xxh3, _, .index n, h, lru, used⟩, keys, c, c' =>
    @IndexTablesAgree _ _ _ order cacheKey n (neZero_shards h) xxh3 used
      (IndexFactory.new lru) keys c c'
  | ⟨_, _, order, cacheKey, xxh3, _, .range n, h, lru, used⟩, keys, c, c' =>
    @IndexTablesAgree _ _ _ order cacheKey n (neZero_shards h) xxh3 used
      (IndexFactory.new lru) keys c c'
  | ⟨_, _, order, cacheKey, xxh3, _, .dict n, h, lru, used⟩, keys, c, c' =>
    @DictTablesAgree _ _ _ order cacheKey n (neZero_shards h) xxh3 used (DictFactory.new lru) keys c c'

lemma skews : (c : PlainDef d) →
    Skews c.tables.insertRows c.tables.getValue c.births c.Tidy c.Caches c.Exact c.Skewed
      c.Same c.Agrees
  | ⟨_, V, _, _, _, _, .off n, h, _, _⟩ =>
    haveI : NeZero n := neZero_shards h
    plainTables_skews n V _
  | ⟨_, _, order, cacheKey, xxh3, _, .index n, h, lru, used⟩ =>
    haveI : NeZero n := neZero_shards h
    @indexTables_skews _ _ _ order cacheKey n _ xxh3 used (IndexFactory.new lru)
  | ⟨_, _, order, cacheKey, xxh3, _, .range n, h, lru, used⟩ =>
    haveI : NeZero n := neZero_shards h
    @indexTables_skews _ _ _ order cacheKey n _ xxh3 used (IndexFactory.new lru)
  | ⟨_, _, order, cacheKey, xxh3, _, .dict n, h, lru, used⟩ =>
    haveI : NeZero n := neZero_shards h
    @dictTables_skews _ _ _ order cacheKey n _ xxh3 used (DictFactory.new lru)

end PlainDef

/-! ### Entities -/

namespace EntityDef

/-- Every database of the entity and of its children is as one of the states has it. -/
def Skewed : {d : ℕ} → (E : EntityDef d) → (E.Tables → Prop) → E.Tables → Prop
  | _, mk _ _ _ _ column _ child, states, t =>
    (∃ s, states s ∧ t.keys = s.keys) ∧
    (∀ i, (column i).Skewed (fun c => ∃ s, states s ∧ s.column i = c) (t.column i)) ∧
    ∀ j, (child j).Skewed (fun c => ∃ s, states s ∧ s.relationship j = c) (t.relationship j)

/-- All databases have the same tables, whatever the caches hold. -/
def Same : {d : ℕ} → (E : EntityDef d) → E.Tables → E.Tables → Prop
  | _, mk _ _ _ _ column _ child, t, t' =>
    t.keys = t'.keys ∧ (∀ i, (column i).Same (t.column i) (t'.column i)) ∧
    ∀ j, (child j).Same (t.relationship j) (t'.relationship j)

/-- All keys of `t` are in `t'`, with the same rows and the same children. -/
def Agrees : {d : ℕ} → (E : EntityDef d) → E.Tables → E.Tables → Prop
  | _, mk bits _ _ _ column multiplicity child, t, t' =>
    t.keys ⊆ t'.keys ∧ (∀ i, (column i).Agrees t.keys (t.column i) (t'.column i)) ∧
    ∀ j, (∀ p ∈ t.keys, ∀ k, IsChildKey bits p (multiplicity j) k →
      (k ∈ (child j).keys (t'.relationship j) ↔ k ∈ (child j).keys (t.relationship j))) ∧
      (child j).Agrees (t.relationship j) (t'.relationship j)

section Skew

variable {d : ℕ} {E : EntityDef d} {t t' t'' v : E.Tables} {states states' : E.Tables → Prop}

lemma same_refl (E : EntityDef d) (t : E.Tables) : E.Same t t := by
  induction E with
  | mk bits n m order column multiplicity child ih =>
    exact ⟨rfl, fun i => (column i).skews.same_refl _, fun j => ih j _⟩

lemma Same.keys_eq (h : E.Same t t') : E.keys t = E.keys t' := by
  cases E
  exact h.1

lemma Skewed.exists_keys_eq (hv : E.Skewed states v) : ∃ s, states s ∧ E.keys v = E.keys s := by
  cases E
  exact hv.1

/-- Reads do not look at the caches. -/
lemma Same.compose (h : E.Same t t') (k : Key d) : E.compose t k = E.compose t' k := by
  induction E with
  | mk bits n m order column multiplicity child ih =>
    refine compose_congr (fun i => (column i).skews.getValue_same (h.2.1 i) k) fun j c _ =>
      ⟨?_, ih j (h.2.2 j) c⟩
    rw [(h.2.2 j).keys_eq]

lemma Same.get (h : E.Same t t') (k : Key d) : E.get t k = E.get t' k := by
  unfold EntityDef.get getWith
  rw [h.keys_eq, h.compose]

lemma Skewed.of_same (hs : states t) (h : E.Same t' t) : E.Skewed states t' := by
  induction E with
  | mk bits n m order column multiplicity child ih =>
    exact ⟨⟨t, hs, h.1⟩, fun i => (column i).skews.of_same ⟨t, hs, rfl⟩ (h.2.1 i), fun j =>
      ih j ⟨t, hs, rfl⟩ (h.2.2 j)⟩

lemma Skewed.trans (hv : E.Skewed states' v) (h : ∀ s, states' s → E.Skewed states s) :
    E.Skewed states v := by
  induction E with
  | mk bits n m order column multiplicity child ih =>
    obtain ⟨⟨s, hs, hkeys⟩, hcolumns, hchildren⟩ := hv
    refine ⟨?_, fun i => ?_, fun j => ?_⟩
    · obtain ⟨s', hs', hkeys'⟩ := (h s hs).1
      exact ⟨s', hs', hkeys.trans hkeys'⟩
    · refine (column i).skews.trans (hcolumns i) ?_
      rintro _ ⟨s, hs, rfl⟩
      exact (h s hs).2.1 i
    · refine ih j (hchildren j) ?_
      rintro _ ⟨s, hs, rfl⟩
      exact (h s hs).2.2 j

lemma Skewed.mono (hv : E.Skewed states' v) (h : ∀ s, states' s → states s) : E.Skewed states v :=
  hv.trans fun s hs => Skewed.of_same (h s hs) (E.same_refl s)

lemma agrees_refl (E : EntityDef d) (t : E.Tables) : E.Agrees t t := by
  induction E with
  | mk bits n m order column multiplicity child ih =>
    exact ⟨subset_rfl, fun i => (column i).skews.agrees_refl _ _, fun j =>
      ⟨fun _ _ _ _ => Iff.rfl, ih j _⟩⟩

lemma Agrees.trans (h : E.Agrees t t') (h' : E.Agrees t' t'') : E.Agrees t t'' := by
  induction E with
  | mk bits n m order column multiplicity child ih =>
    refine ⟨h.1.trans h'.1, fun i => (column i).skews.agrees_trans h.1 (h.2.1 i) (h'.2.1 i),
      fun j => ⟨?_, ?_⟩⟩
    · exact fun p hp k hk => ((h'.2.2 j).1 p (h.1 hp) k hk).trans ((h.2.2 j).1 p hp k hk)
    · exact ih j (h.2.2 j).2 (h'.2.2 j).2

/-- What agrees with all states agrees with what is skewed between them. -/
lemma Agrees.skewed (h : ∀ s, states s → E.Agrees t s) (hv : E.Skewed states v) : E.Agrees t v := by
  induction E with
  | mk bits n m order column multiplicity child ih =>
    obtain ⟨⟨s, hs, hkeys⟩, hcolumns, hchildren⟩ := hv
    refine ⟨?_, fun i => ?_, fun j => ⟨fun p hp k hk => ?_, ?_⟩⟩
    · rw [hkeys]
      exact (h s hs).1
    · refine (column i).skews.agrees_skewed ?_ (hcolumns i)
      rintro _ ⟨s, hs, rfl⟩
      exact (h s hs).2.1 i
    · obtain ⟨_, ⟨s, hs, rfl⟩, hkeys⟩ := (hchildren j).exists_keys_eq
      rw [hkeys]
      exact ((h s hs).2.2 j).1 p hp k hk
    · refine ih j ?_ (hchildren j)
      rintro _ ⟨s, hs, rfl⟩
      exact ((h s hs).2.2 j).2

lemma Agrees.keys_subset (h : E.Agrees t v) : E.keys t ⊆ E.keys v := by
  cases E
  exact h.1

/-- What is composed of the tables is composed of those that agree with them. -/
lemma Agrees.compose (h : E.Agrees t v) {k : Key d} (hk : k ∈ E.keys t) {e : E.Instance}
    (he : E.compose t k = .ok e) : E.compose v k = .ok e := by
  induction E with
  | mk bits n m order column multiplicity child ih =>
    obtain ⟨hpk, hc, hr⟩ := compose_eq_ok.mp he
    refine compose_eq_ok.mpr ⟨hpk, fun i => ?_, fun j => ?_⟩
    · exact ((column i).skews.getValue_agrees (h.2.1 i) hk).trans (hc i)
    · obtain ⟨hlists, hall⟩ := hr j
      refine ⟨⟨hlists.1, fun c => (hlists.2 c).trans (and_congr_left fun hchild => ?_)⟩,
        fun c hc => ?_⟩
      · exact ((h.2.2 j).1 k hk c hchild).symm
      · exact ih j (h.2.2 j).2 ((hlists.2 _).mp (List.mem_map_of_mem hc)).1 (hall c hc)

/-- New instances leave what is stored alone. -/
lemma Tidy.agrees_storeMany (htidy : E.Tidy t) {es : List E.Instance}
    (hfits : E.Fits t (.storeMany es)) : E.Agrees t (E.storeMany t es) := by
  induction E with
  | @mk d bits n m order column multiplicity child ih =>
    obtain ⟨⟨hnd, hnew⟩, hkeyed, hunborn⟩ := hfits
    refine ⟨Finset.subset_union_left, fun i => ?_, fun j => ⟨fun p hp k hk => ?_, ?_⟩⟩
    · refine (column i).skews.agrees_insertRows (htidy.1 i)
        (freshRows_column hnd (fun e he hm => ?_) _).1
      exact (Finset.mem_union.mp hm).elim (hnew e he) (hunborn.1 i e he)
    · show k ∈ (child j).keys ((child j).storeMany _ _) ↔ _
      rw [keys_storeMany, Finset.mem_union, List.mem_toFinset]
      -- a new child is under a new parent
      refine or_iff_left fun hm => ?_
      obtain ⟨c, hc, rfl⟩ := List.mem_map.mp hm
      obtain ⟨e, he, hc⟩ := List.mem_flatMap.mp hc
      refine hnew e he ?_
      show e.pk ∈ t.keys
      rw [((hkeyed e he j).2 c hc).1.unique hk]
      exact hp
    · refine ih j (htidy.2 j).2 ⟨freshKeys_children hnd hnew (htidy.2 j).1 fun e he =>
        hkeyed e he j, fun c hc => ?_, hunborn.2 j⟩
      obtain ⟨e, he, hc⟩ := List.mem_flatMap.mp hc
      exact ((hkeyed e he j).2 c hc).2

end Skew

/-! ### Reading during commits -/

section Reading

variable {d : ℕ} {E : EntityDef d}

/-- What is stored stays as it is while more is stored. -/
lemma agrees_run {ops : List E.Op} {batches : List (List E.Instance)}
    (hfits : EachStep E.apply E.Fits E.empty (ops ++ batches.map .storeMany)) :
    E.Agrees (run E.apply E.empty ops) (run E.apply E.empty (ops ++ batches.map .storeMany)) := by
  induction batches using List.reverseRecOn with
  | nil =>
    rw [List.map_nil, List.append_nil]
    exact E.agrees_refl _
  | append_singleton batches es ih =>
    rw [List.map_append, ← List.append_assoc] at hfits ⊢
    have hbefore : EachStep E.apply E.Fits E.empty (ops ++ batches.map .storeMany) := fun p a hp =>
      hfits p a (hp.trans (List.prefix_append _ _))
    rw [List.map_singleton, run_concat]
    exact (ih hbefore).trans ((E.mapped_run hbefore).tidy.agrees_storeMany (hfits _ _ List.prefix_rfl))

/-- **Reading during commits.**  Each database is as it was after some number of the batches,
another number for each: what was stored before the batches is read as if nothing had happened
since. -/
theorem get_skewed (E : EntityDef d) (ops : List E.Op) (batches : List (List E.Instance))
    (hfits : EachStep E.apply E.Fits E.empty (ops ++ batches.map .storeMany)) (v : E.Tables)
    (hv : E.Skewed (fun s => ∃ p, p <+: batches ∧ s = run E.apply E.empty (ops ++ p.map .storeMany))
      v) (k : Key d)
    (hk : run E.mapOp (fun _ => none) ops k ≠ none) :
    E.get v k = .ok (run E.mapOp (fun _ => none) ops k) := by
  have hmapped : E.Mapped (run E.apply E.empty ops) _ := E.mapped_run fun p a hp =>
    hfits p a (hp.trans (List.prefix_append _ _))
  have hagrees : E.Agrees (run E.apply E.empty ops) v := by
    refine Agrees.skewed ?_ hv
    rintro _ ⟨p, ⟨rest, rfl⟩, rfl⟩
    rw [List.map_append, ← List.append_assoc] at hfits
    exact agrees_run fun q a hq => hfits q a (hq.trans (List.prefix_append _ _))
  obtain ⟨e, he⟩ := Option.ne_none_iff_exists'.mp hk
  have hmem := hmapped.mem_keys.mpr hk
  rw [he]
  exact get_eq_some.mpr ⟨hagrees.keys_subset hmem, hagrees.compose hmem (hmapped.compose he)⟩

end Reading

/-! ### Storing again -/

section Again

variable {d : ℕ} {E : EntityDef d}

/-- What crashes leave of a transaction that is stored again after each of them. -/
inductive Torn {d : ℕ} (E : EntityDef d) (t : E.Tables) (es : List E.Instance) : E.Tables → Prop where
  | before : E.Torn t es t
  | crash {v v' : E.Tables} : E.Torn t es v → E.Skewed (fun s => s = v ∨ s = E.storeMany v es) v' →
      E.Torn t es v'

/-- **One torn transaction**, stored again. -/
lemma Skewed.storeMany {t v : E.Tables} {es : List E.Instance}
    (hv : E.Skewed (fun s => s = t ∨ s = E.storeMany t es) v) (htidy : E.Tidy t)
    (hexact : E.Exact t) (hfits : E.FitsIndexes t (.storeMany es)) :
    E.Same (E.storeMany v es) (E.storeMany t es) := by
  induction E with
  | @mk d bits n m order column multiplicity child ih =>
    obtain ⟨⟨⟨hnd, hnew⟩, hkeyed, hunborn⟩, hsorted, hcaches⟩ := hfits
    obtain ⟨⟨s, hs, hkeys⟩, hcolumns, hchildren⟩ := hv
    refine ⟨?_, fun i => ?_, fun j => ?_⟩
    · show v.keys ∪ _ = t.keys ∪ _
      rw [hkeys]
      rcases hs with rfl | rfl
      · rfl
      · show (t.keys ∪ _) ∪ _ = _
        rw [Finset.union_assoc, Finset.union_self]
    · refine (column i).skews.insertRows_skewed (htidy.1 i) (hexact.1 i) ?_ ?_ (hcaches.1 i)
        ((column i).skews.trans (hcolumns i) ?_)
      · rw [List.map_map]
        exact hsorted
      · exact List.forall_mem_map.mpr fun e he => ⟨hnew e he, hunborn.1 i e he⟩
      · rintro _ ⟨s, hs, rfl⟩
        refine (column i).skews.of_same (hs.imp ?_ ?_) ((column i).skews.same_refl _)
        · exact fun h => by rw [h]
        · exact fun h => by rw [h]; rfl
    · have hkeyedj := fun e he => hkeyed e he j
      refine ih j (Skewed.mono (hchildren j) ?_) (htidy.2 j).2 (hexact.2 j)
        ⟨⟨freshKeys_children hnd hnew (htidy.2 j).1 hkeyedj, fun c hc => ?_, hunborn.2 j⟩,
          sorted_children hsorted hkeyedj, hcaches.2 j⟩
      · rintro _ ⟨s, hs, rfl⟩
        refine hs.imp ?_ ?_
        · exact fun h => by rw [h]
        · exact fun h => by rw [h]; rfl
      · obtain ⟨e, he, hc⟩ := List.mem_flatMap.mp hc
        exact ((hkeyedj e he).2 c hc).2

/-- However often it was torn, every database is as it was before the transaction or as it is after
it. -/
lemma Torn.skewed {t v : E.Tables} {es : List E.Instance} (hv : E.Torn t es v) (htidy : E.Tidy t)
    (hexact : E.Exact t) (hfits : E.FitsIndexes t (.storeMany es)) :
    E.Skewed (fun s => s = t ∨ s = E.storeMany t es) v := by
  induction hv with
  | before => exact Skewed.of_same (Or.inl rfl) (E.same_refl t)
  | crash _ hcrash ih =>
    refine hcrash.trans ?_
    rintro s (rfl | rfl)
    · exact ih
    · exact Skewed.of_same (Or.inr rfl) (ih.storeMany htidy hexact hfits)

/-- **Storing again what a crash has torn.**  The instances whose transaction a crash has torn, once
or again and again, are stored again: the tables are those that the transaction would have left, and
the reads those of the map. -/
theorem store_again (E : EntityDef d) (ops : List E.Op) (es : List E.Instance)
    (hfits : EachStep E.apply E.FitsIndexes E.empty (ops ++ [.storeMany es])) (v : E.Tables)
    (hv : E.Torn (run E.apply E.empty ops) es v) :
    E.Same (E.storeMany v es) (run E.apply E.empty (ops ++ [.storeMany es])) ∧
      ∀ k, E.get (E.storeMany v es) k = .ok
        (run E.mapOp (fun _ => none) (ops ++ [.storeMany es]) k) := by
  have hops : EachStep E.apply E.FitsIndexes E.empty ops := fun p a hp =>
    hfits p a (hp.trans (List.prefix_append _ _))
  have htidy := (E.mapped_run (eachStep_fits hops)).tidy
  have hexact := E.exact_run hops
  have hes := hfits ops _ List.prefix_rfl
  have hsame : E.Same (E.storeMany v es) (run E.apply E.empty (ops ++ [.storeMany es])) := by
    rw [run_concat]
    exact (hv.skewed htidy hexact hes).storeMany htidy hexact hes
  refine ⟨hsame, fun k => ?_⟩
  rw [hsame.get]
  exact (E.mapped_run (eachStep_fits hfits)).get k

end Again

end EntityDef

/-! ### A block that is being stored -/

/-- The blocks before the last one. -/
def earlierOps : List ledgerDef.Op :=
  [.storeMany [payment 1 10, payment 2 10], .deleteMany [Key.root 1]]

/-- The tables of the blocks 1 and 2, of which the first is deleted again: the block 3 is not stored
yet. -/
def beforeThird : ledgerDef.Tables := run ledgerDef.apply ledgerDef.empty earlierOps

/-- The same tables after the transaction that stores the block 3. -/
def afterThird : ledgerDef.Tables := run ledgerDef.apply ledgerDef.empty paymentOps

/-- The outputs have committed the block 3, its key has not. -/
def tornTables : ledgerDef.Tables :=
  (⟨ledgerDef.keys beforeThird, fun i => i.elim0, fun _ => ledgerDef.childTables afterThird outputs⟩ :
    EntityTables 0 (fun i : Fin 0 => (Fin.elim0 i : PlainDef 0).tables.State) fun _ : Fin 1 =>
      outputDef.Tables)

/-- A read context that has opened the outputs before the block 3 was stored, and the keys after. -/
def readTables : ledgerDef.Tables :=
  (⟨ledgerDef.keys afterThird, fun i => i.elim0, fun _ => ledgerDef.childTables beforeThird outputs⟩ :
    EntityTables 0 (fun i : Fin 0 => (Fin.elim0 i : PlainDef 0).tables.State) fun _ : Fin 1 =>
      outputDef.Tables)

/-- Keys of one state and outputs of another are skewed. -/
lemma skewed_ledger {states : ledgerDef.Tables → Prop} {s s' v : ledgerDef.Tables} (hs : states s)
    (hs' : states s') (hkeys : ledgerDef.keys v = ledgerDef.keys s)
    (houtputs : ledgerDef.childTables v outputs = ledgerDef.childTables s' outputs) :
    ledgerDef.Skewed states v := by
  refine ⟨⟨s, hs, hkeys⟩, fun i => i.elim0, Fin.forall_fin_one.mpr ?_⟩
  have hchild : (ledgerDef.childDef outputs).Skewed
    (fun c => ∃ s, states s ∧ ledgerDef.childTables s outputs = c)
      (ledgerDef.childTables v outputs) := by
    rw [houtputs]
    exact EntityDef.Skewed.of_same ⟨s', hs', rfl⟩ (EntityDef.same_refl _ _)
  exact hchild

/-- The block 3 is stored again. -/
theorem store_again_payments :
    ledgerDef.get (ledgerDef.storeMany tornTables [payment 3 12]) (Key.root 3) =
      .ok (some (payment 3 12)) := by
  have htorn : ledgerDef.Torn beforeThird [payment 3 12] tornTables :=
    .crash .before (skewed_ledger (Or.inl rfl) (Or.inr rfl) rfl rfl)
  exact (ledgerDef.store_again earlierOps [payment 3 12] fitsIndexes_paymentOps tornTables htorn).2
    (Key.root 3)

/-- The states between the opening of the first and of the last database. -/
lemma skewed_readTables : ledgerDef.Skewed (fun s => ∃ p, p <+: [[payment 3 12]] ∧
    s = run ledgerDef.apply ledgerDef.empty (earlierOps ++ p.map .storeMany)) readTables :=
  skewed_ledger ⟨[[payment 3 12]], List.prefix_rfl, rfl⟩ ⟨[], List.nil_prefix, rfl⟩ rfl rfl

/-- The block 2 is read whole. -/
theorem get_skewed_payments : ledgerDef.get readTables (Key.root 2) = .ok (some (payment 2 10)) :=
  ledgerDef.get_skewed earlierOps [[payment 3 12]] (EntityDef.eachStep_fits fitsIndexes_paymentOps)
    readTables skewed_readTables (Key.root 2) (Option.some_ne_none (payment 2 10))

end Redbit.Entity
