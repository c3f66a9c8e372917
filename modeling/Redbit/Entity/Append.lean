import Redbit.Entity.StoreMap

/-!
# Storing on top

A chain is stored from the lowest key up, and what is taken off again is put back on top of what is
left.  Then no dictionary is in the way: a birth id is never above the keys that use it
(`DictBelow`), so a key above all stored keys is no birth id.  This holds whatever is deleted in
between, and whatever the caches of the dictionaries lose.
-/

set_option linter.unusedSectionVars false

namespace Redbit.Storage

open Redbit.Lib

variable {K V : Type} [LinearOrder K] [LinearOrder V] [CacheKey V]

/-- No key is below its birth id. -/
def DictBelow (t : DictTable K V) : Prop := ∀ k b, t.dictPkByKey.get k = some b → b ≤ k

/-- A turn of a key links it to a birth id that is known or to the key of an earlier row. -/
lemma dictBelow_turns {now : Bool} {rows : List (K × V)} {t : DictTable K V} (ht : t.CacheAgrees)
    (h : DictBelow t) (hsorted : (rows.map Prod.fst).Pairwise (· < ·))
    (habove : ∀ v b, t.valueToDictPk.get v = some b → ∀ kv ∈ rows, b < kv.1) :
    DictBelow (DictTable.turns now t rows) := by
  induction rows using List.reverseRecOn with
  | nil => exact h
  | append_singleton rows kv ih =>
    obtain ⟨k₀, v⟩ := kv
    rw [List.map_append, List.pairwise_append] at hsorted
    have hlt : ∀ b ∈ rows.map Prod.fst, b < k₀ := fun b hb => hsorted.2.2 b hb k₀ (by simp)
    have hold := ih hsorted.1 fun v b hb kv hkv => habove v b hb kv (List.mem_append_left _ hkv)
    have hout := DictTable.outcome_turns now ht (hsorted.1.imp ne_of_lt)
    have hlink : ∀ b, b ≤ k₀ → ∀ k b',
        ((DictTable.turns now t rows).dictPkByKey.insert k₀ b).get k = some b' → b' ≤ k := by
      intro b hb k b' hk
      rw [Table.get_insert] at hk
      split at hk
      · rename_i hkk
        rw [hkk, ← Option.some.inj hk]
        exact hb
      · exact hold k b' hk
    unfold DictBelow
    rw [DictTable.turns_concat]
    rcases DictTable.turn_cases now (DictTable.turns now t rows) k₀
      v with ⟨b, hb, hby, -⟩ | ⟨-, hby, -⟩
    · rw [hby]
      refine hlink b ?_
      rcases hout.ids v b hb with hknown | ⟨-, hrow, -⟩
      · exact (habove v b hknown (k₀, v) (by simp)).le
      · exact (hlt b hrow).le
    · rw [hby]
      exact hlink k₀ le_rfl

lemma DictBelow.deleteKv {t : DictTable K V} (h : DictBelow t) (k : K) :
    DictBelow (t.deleteKv k).2 := by
  cases hk : t.dictPkByKey.get k with
  | none =>
    rw [DictTable.deleteKv_of_absent hk]
    exact h
  | some b =>
    intro k' b' hk'
    replace hk' : (t.deleteKv k).2.toDictTables.dictPkByKey.get k' = some b' := hk'
    rw [DictTable.deleteKv_tables, (DictTables.del_of_linked hk).1, Table.get_remove] at hk'
    split at hk'
    · cases hk'
    · exact h k' b' hk'

/-- A birth id is not above all keys. -/
lemma DictSane.birth_le {t : DictTable K V} (h : DictSane t) (hbelow : DictBelow t) {b : K}
    (hb : b ∈ dictBirths t) : ∃ k, t.dictPkByKey.get k ≠ none ∧ b ≤ k := by
  obtain ⟨k, hk⟩ := h.used b (mem_dictBirths.mp hb)
  refine ⟨k, ?_, hbelow k b hk⟩
  rw [hk]
  simp

end Redbit.Storage

namespace Redbit.Entity

open Redbit.Lib Redbit.Storage

/-! ### Columns -/

/-- What is proved of a column that is given rows above all others. -/
structure ColumnDeletes.Appends {K V : Type} [LinearOrder K] {C : ColumnTables K V}
    (D : ColumnDeletes C) (births : C.State → Finset K) (Tidy : C.State → Finset K → Prop)
    (Below : C.State → Prop) : Prop where
  empty : Below C.empty
  birth_le : ∀ {s keys}, Tidy s keys → Below s → ∀ b ∈ births s, ∃ k ∈ keys, b ≤ k
  insertRows : ∀ {s keys} {rows : List (K × V)}, Tidy s keys → Below s →
    (rows.map Prod.fst).Pairwise (· < ·) →
    (∀ k ∈ keys, ∀ kv ∈ rows, k < kv.1) → Below (C.insertRows s rows)
  deleteRows : ∀ {s}, Below s → ∀ ks : List K, Below (D.deleteRows s ks).2

section Columns

variable {K V : Type} [LinearOrder K] [LinearOrder V] [CacheKey V] (n : ℕ) [NeZero n] (hash : V → ℕ)
  (now : Bool)

lemma plainDeletes_appends (V : Type) (part : K → Fin n) :
    (plainDeletes n V part).Appends (fun _ => ∅) (PlainTidy part) fun _ => True where
  empty := trivial
  birth_le _ _ b hb := absurd hb (Finset.notMem_empty b)
  insertRows _ _ _ _ := trivial
  deleteRows _ _ := trivial

/-- No key of a dictionary column is below its birth id. -/
def DictTablesBelow (f : DictFactory)
    (c : (dictTables n hash now f : ColumnTables K V).State) : Prop :=
  ∀ i, DictBelow (c.1 i)

lemma indexDeletes_appends (f : IndexFactory) :
    (indexDeletes n hash now f : ColumnDeletes (indexTables n hash now f : ColumnTables K V)).Appends
      (fun _ => ∅) (IndexTablesTidy n hash now f) fun _ => True where
  empty := trivial
  birth_le _ _ b hb := absurd hb (Finset.notMem_empty b)
  insertRows _ _ _ _ := trivial
  deleteRows _ _ := trivial

/-- A birth id of a dictionary column is not above the keys of its rows. -/
lemma birth_le_of_tidy {f : DictFactory} {c : Column n (DictTable K V)} {keys : Finset K}
    (h : c.Tidy (dictShard f) DictSane keys) (hbelow : ∀ i, DictBelow (c i)) {i : Fin n} {b : K}
    (hb : b ∈ dictBirths (c i)) : ∃ k ∈ keys, b ≤ k := by
  obtain ⟨k, hk, hle⟩ := (h.sane i).birth_le (hbelow i) hb
  exact ⟨k, h.rows i k (mt Option.map_eq_none_iff.mp hk), hle⟩

lemma dictDeletes_appends (f : DictFactory) :
    (dictDeletes n hash now f : ColumnDeletes (dictTables n hash now f : ColumnTables K V)).Appends
      (dictTablesBirths n hash now f) (DictTablesTidy n hash now f)
        (DictTablesBelow n hash now f) where
  empty _ k b hk := absurd hk (Table.get_empty_ne_some k b)
  birth_le h hbelow b hb := by
    obtain ⟨i, -, hb⟩ := Finset.mem_biUnion.mp hb
    exact birth_le_of_tidy n h hbelow hb
  insertRows {s keys rows} h hbelow hsorted habove i := by
    show DictBelow (s.1.insertRows (dictShard f) hash now rows i)
    have hsub : (bucket hash i rows).Sublist rows := List.filter_sublist
    rw [Column.insertRows_apply]
    unfold DictBelow
    rw [(dictShard_insertRows f now (s.1 i) (bucket hash i rows)).1]
    refine dictBelow_turns (DictTable.cacheAgrees_openForWrite f _) (hbelow i)
      (hsorted.sublist (hsub.map _)) ?_
    intro v b hb kv hkv
    have hborn : b ∈ dictBirths (s.1 i) := by
      rw [mem_dictBirths, (h.sane i).known v b hb]
      simp
    obtain ⟨k, hk, hle⟩ := birth_le_of_tidy n h hbelow hborn
    exact lt_of_le_of_lt hle (habove k hk kv (hsub.subset hkv))
  deleteRows h ks := Column.forall_deleteRows (P := fun _ => DictBelow) h fun h k _ => h.deleteKv k

end Columns

/-- No key of a dictionary column is below its birth id. -/
def PlainDef.Below {d : ℕ} : (c : PlainDef d) → c.tables.State → Prop
  | ⟨_, _, _, _, _, _, .off _, _, _, _⟩, _ => True
  | ⟨_, _, _, _, _, _, .index _, _, _, _⟩, _ => True
  | ⟨_, _, _, _, _, _, .range _, _, _, _⟩, _ => True
  | ⟨_, _, order, cacheKey, xxh3, _, .dict n, h, lru, used⟩, c =>
    @DictTablesBelow _ _ _ order cacheKey n (neZero_shards h) xxh3 used (DictFactory.new lru) c

lemma PlainDef.appends {d : ℕ} : (c : PlainDef d) → c.deletes.Appends c.births c.Tidy c.Below
  | ⟨_, V, _, _, _, _, .off n, h, _, _⟩ =>
    haveI : NeZero n := neZero_shards h
    plainDeletes_appends n V _
  | ⟨_, _, order, cacheKey, xxh3, _, .index n, h, lru, used⟩ =>
    haveI : NeZero n := neZero_shards h
    @indexDeletes_appends _ _ _ order cacheKey n _ xxh3 used (IndexFactory.new lru)
  | ⟨_, _, order, cacheKey, xxh3, _, .range n, h, lru, used⟩ =>
    haveI : NeZero n := neZero_shards h
    @indexDeletes_appends _ _ _ order cacheKey n _ xxh3 used (IndexFactory.new lru)
  | ⟨_, _, order, cacheKey, xxh3, _, .dict n, h, lru, used⟩ =>
    haveI : NeZero n := neZero_shards h
    @dictDeletes_appends _ _ _ order cacheKey n _ xxh3 used (DictFactory.new lru)

/-! ### Entities -/

/-- The children of a lower parent have lower keys. -/
lemma IsChildKey.lt {d bits : ℕ} {p q : Key d} (hpq : p < q) :
    ∀ {m : Multiplicity} {k k' : Key (m.depth d)},
    IsChildKey bits p m k → IsChildKey bits q m k' → k < k'
  | .oneToOption, _, _, h, h' => h ▸ h' ▸ hpq
  | .oneToOne, _, _, h, h' => h ▸ h' ▸ hpq
  | .oneToMany, k, k', h, h' => by
    rw [← Key.fromParent_parent k, ← Key.fromParent_parent k', h.1, h'.1]
    exact Key.fromParent_lt.mpr (Or.inl hpq)

namespace EntityDef

/-- No dictionary has a key below its birth id. -/
def Below : {d : ℕ} → (E : EntityDef d) → E.Tables → Prop
  | _, mk _ _ _ _ column _ child, t =>
    (∀ i, (column i).Below (t.column i)) ∧ ∀ j, (child j).Below (t.relationship j)

/-- The keys of the instances ascend, and are above all stored keys. -/
def OnTop {d : ℕ} (E : EntityDef d) (t : E.Tables) (es : List E.Instance) : Prop :=
  (es.map E.pk).Pairwise (· < ·) ∧ ∀ e ∈ es, ∀ k ∈ E.keys t, k < E.pk e

lemma below_empty {d : ℕ} (E : EntityDef d) : E.Below E.empty := by
  induction E with
  | mk bits n m order column multiplicity child ih => exact ⟨fun i => (column i).appends.empty, ih⟩

lemma Below.deleteMany {d : ℕ} {E : EntityDef d} {t : E.Tables} (h : E.Below t) (pks : List (Key d)) :
    E.Below (E.deleteMany t pks).2 := by
  induction E with
  | mk bits n m order column multiplicity child ih =>
    exact ⟨fun i => (column i).appends.deleteRows (h.1 i) pks, fun j => ih j (h.2 j) _⟩

section Children

variable {d bits : ℕ} {A : Type} {pk : A → Key d} {es : List A} {stored : Finset (Key d)}
variable {r : Multiplicity} {E : EntityDef (r.depth d)} {field : A → r.Field E.Instance} {t : E.Tables}

/-- The keys of the children of ascending instances ascend. -/
lemma sorted_children (hsorted : (es.map pk).Pairwise (· < ·))
    (hkeyed : ∀ e ∈ es, ((r.children (field e)).map E.pk).Pairwise (· < ·) ∧
      ∀ c ∈ r.children (field e), IsChildKey bits (pk e) r (E.pk c) ∧ E.WellKeyed c) :
    ((es.flatMap fun e => r.children (field e)).map E.pk).Pairwise (· < ·) := by
  rw [List.map_flatMap, List.pairwise_flatMap]
  refine ⟨fun e he => (hkeyed e he).1, ?_⟩
  have hlt : es.Pairwise fun e e' => pk e < pk e' := List.pairwise_map.mp hsorted
  refine hlt.imp_of_mem fun {e e'} he he' hlt k hk k' hk' => ?_
  obtain ⟨c, hc, rfl⟩ := List.mem_map.mp hk
  obtain ⟨c', hc', rfl⟩ := List.mem_map.mp hk'
  exact ((hkeyed e he).2 c hc).1.lt hlt ((hkeyed e' he').2 c' hc').1

/-- The children of instances on top are on top. -/
lemma onTop_children (hsorted : (es.map pk).Pairwise (· < ·))
    (habove : ∀ e ∈ es, ∀ k ∈ stored, k < pk e)
    (hparent : ∀ k ∈ E.keys t, ∃ p ∈ stored, IsChildKey bits p r k)
    (hkeyed : ∀ e ∈ es, ((r.children (field e)).map E.pk).Pairwise (· < ·) ∧
      ∀ c ∈ r.children (field e), IsChildKey bits (pk e) r (E.pk c) ∧ E.WellKeyed c) :
    E.OnTop t (es.flatMap fun e => r.children (field e)) := by
  refine ⟨sorted_children hsorted hkeyed, fun c hc k hk => ?_⟩
  obtain ⟨e, he, hc⟩ := List.mem_flatMap.mp hc
  obtain ⟨p, hp, hkp⟩ := hparent k hk
  exact hkp.lt (habove e he p hp) ((hkeyed e he).2 c hc).1

end Children

/-- **One store on top** finds no dictionary that uses its keys, and leaves the birth ids below the
keys. -/
theorem onTop_step {d : ℕ} (E : EntityDef d) {t : E.Tables} {es : List E.Instance}
    (htidy : E.Tidy t) (hbelow : E.Below t) (htop : E.OnTop t es)
    (hkeyed : ∀ e ∈ es, E.WellKeyed e) : E.Unborn t es ∧ E.Below (E.storeMany t es) := by
  induction E with
  | @mk d bits n m order column multiplicity child ih =>
    obtain ⟨hsorted, habove⟩ := htop
    have hchildren := fun j => ih j (htidy.2 j).2 (hbelow.2 j)
      (onTop_children hsorted habove (htidy.2 j).1 fun e he => hkeyed e he j) fun c hc => by
        obtain ⟨e, he, hc⟩ := List.mem_flatMap.mp hc
        exact ((hkeyed e he j).2 c hc).2
    have hrows : ∀ i, (es.map fun e => (e.pk, e.column i)).map Prod.fst =
        es.map InstanceFields.pk := by
      intro i
      rw [List.map_map]
      rfl
    refine ⟨⟨fun i e he hborn => ?_, fun j => (hchildren j).1⟩, fun i => ?_, fun j => (hchildren j).2⟩
    · obtain ⟨k, hk, hle⟩ := (column i).appends.birth_le (htidy.1 i) (hbelow.1 i) e.pk hborn
      exact absurd (habove e he k hk) (not_lt.mpr hle)
    · refine (column i).appends.insertRows (htidy.1 i) (hbelow.1 i) ?_ fun k hk => ?_
      · rw [hrows i]
        exact hsorted
      · exact List.forall_mem_map.mpr fun e he => habove e he k hk

/-- A store puts its instances on top.  Of a delete nothing is asked. -/
def Tops {d : ℕ} (E : EntityDef d) (t : E.Tables) : E.Op → Prop
  | .storeMany es => E.OnTop t es ∧ ∀ e ∈ es, E.WellKeyed e
  | .deleteMany _ => True

section Run

variable {d : ℕ} {E : EntityDef d} {t : E.Tables} {m : Key d → Option E.Instance}

lemma fits_of_tops (htidy : E.Tidy t) (hbelow : E.Below t) {op : E.Op} (h : E.Tops t op) :
    E.Fits t op ∧ E.Below (E.apply t op) := by
  cases op with
  | deleteMany pks => exact ⟨trivial, hbelow.deleteMany pks⟩
  | storeMany es =>
    obtain ⟨htop, hkeyed⟩ := h
    obtain ⟨hunborn, hbelow'⟩ := E.onTop_step htidy hbelow htop hkeyed
    refine ⟨⟨⟨htop.1.imp ne_of_lt, fun e he hm => ?_⟩, hkeyed, hunborn⟩, hbelow'⟩
    exact lt_irrefl _ (htop.2 e he _ hm)

/-- The run of stores on top. -/
lemma mapped_run_of_tops (E : EntityDef d) {ops : List E.Op}
    (htops : EachStep E.apply E.Tops E.empty ops) :
    E.Mapped (run E.apply E.empty ops) (run E.mapOp (fun _ => none) ops) ∧
      E.Below (run E.apply E.empty ops) := by
  induction ops using List.reverseRecOn with
  | nil => exact ⟨E.mapped_empty, E.below_empty⟩
  | append_singleton ops op ih =>
    obtain ⟨hmapped, hbelow⟩ := ih fun p a hp => htops p a (hp.trans (List.prefix_append ops [op]))
    obtain ⟨hfits, hbelow'⟩ := fits_of_tops hmapped.tidy hbelow (htops ops op List.prefix_rfl)
    rw [run_concat, run_concat]
    exact ⟨hmapped.apply hfits, hbelow'⟩

lemma eachStep_fits_of_tops {ops : List E.Op} (htops : EachStep E.apply E.Tops E.empty ops) :
    EachStep E.apply E.Fits E.empty ops := by
  intro p op hp
  have hprefix : EachStep E.apply E.Tops E.empty p := fun q a hq =>
    htops q a (hq.trans (prefix_of_concat hp))
  obtain ⟨hmapped, hbelow⟩ := E.mapped_run_of_tops hprefix
  exact (fits_of_tops hmapped.tidy hbelow (htops p op hp)).1

/-- **Storing on top needs no care.**  If every store puts its instances above all keys that are
stored at the time, and anything is deleted in between, then no store meets a birth id of a
dictionary, and `get` reads what the same operations make of a map. -/
theorem get_run_of_tops (E : EntityDef d) (ops : List E.Op)
    (htops : EachStep E.apply E.Tops E.empty ops) : EachStep E.apply E.Fits E.empty ops ∧
      ∀ k, E.get (run E.apply E.empty ops) k = .ok (run E.mapOp (fun _ => none) ops k) :=
  ⟨eachStep_fits_of_tops htops, (E.mapped_run_of_tops htops).1.get⟩

end Run

end EntityDef

/-! ### A chain with a dictionary of addresses -/

/-- A dictionary column on two shards, with a cache of one value. -/
def addressColumn : PlainDef 1 where
  table := "output_address_by_id"
  V := ℕ
  order := inferInstance
  cacheKey := inferInstance
  xxh3 := id
  asLeBytes _ := []
  indexing := .dict 2
  shards_ne_zero := two_ne_zero
  lruCapacity := 1
  used := false

/-- Outputs, with an address. -/
def outputDef : EntityDef 1 := .mk 16 1 0 (.columnsFirst 1 0) (fun _ => addressColumn) Fin.elim0
    fun j => j.elim0

/-- Blocks, with their outputs. -/
def ledgerDef : EntityDef 0 := .mk 32 0 1 (.columnsFirst 0 1) Fin.elim0 (fun _ => .oneToMany)
    fun _ => outputDef

/-- A block that pays one address. -/
def payment (height address : ℕ) : ledgerDef.Instance :=
  ⟨Key.root height, fun i => i.elim0,
    fun _ => [(⟨(Key.root height).fromParent 0, fun _ => address, fun j =>
      j.elim0⟩ : outputDef.Instance)]⟩

lemma wellKeyed_payment {height address : ℕ} (h : height + 1 < 2 ^ 32) :
    ledgerDef.WellKeyed (payment height address) := by
  intro j
  refine ⟨List.pairwise_singleton _ _, fun c hc => ?_⟩
  obtain rfl := List.mem_singleton.mp hc
  exact ⟨⟨rfl, h⟩, fun j => j.elim0⟩

/-- Two blocks pay the address 10; the one it was born with goes, and a block that pays another one
comes. -/
def paymentOps : List ledgerDef.Op :=
  [.storeMany [payment 1 10, payment 2 10], .deleteMany [Key.root 1], .storeMany [payment 3 12]]

lemma tops_paymentOps : EachStep ledgerDef.apply ledgerDef.Tops ledgerDef.empty paymentOps := by
  have hkeyed : ∀ height ∈ [1, 2, 3], ∀ address, ledgerDef.WellKeyed (payment height address) := by
    intro height h address
    exact wellKeyed_payment ((show ∀ height ∈ [1, 2, 3], height + 1 < 2 ^ 32 by decide) height h)
  refine eachStep_cons.mpr ⟨⟨⟨?_, fun e _ k hk => ?_⟩, fun e he => ?_⟩, eachStep_cons.mpr ⟨trivial,
    eachStep_cons.mpr ⟨⟨⟨List.pairwise_singleton _ _, fun e he k hk => ?_⟩, fun e he => ?_⟩,
      eachStep_nil _ _⟩⟩⟩
  · exact show [Key.root 1, Key.root 2].Pairwise (· < ·) by decide
  · rw [ledgerDef.sound_empty.2] at hk
    exact absurd hk (Finset.notMem_empty k)
  · rcases List.mem_pair.mp he with rfl | rfl
    · exact hkeyed 1 (by decide) 10
    · exact hkeyed 2 (by decide) 10
  · obtain rfl := List.mem_singleton.mp he
    replace hk : k ∈ ledgerDef.keys (ledgerDef.deleteMany _ [Key.root 1]).2 := hk
    rw [EntityDef.keys_deleteMany, Finset.mem_sdiff] at hk
    replace hk : k ∈ ledgerDef.keys (ledgerDef.storeMany ledgerDef.empty
      [payment 1 10, payment 2 10]) := hk.1
    rw [EntityDef.keys_storeMany, ledgerDef.sound_empty.2, Finset.empty_union, List.mem_toFinset] at hk
    exact (show ∀ k ∈ [Key.root 1, Key.root 2], k < Key.root 3 by decide) k hk
  · obtain rfl := List.mem_singleton.mp he
    exact hkeyed 3 (by decide) 12

/-- The second block still pays the address 10. -/
theorem get_run_of_tops_payments :
    ledgerDef.get (run ledgerDef.apply ledgerDef.empty paymentOps) (Key.root 2) =
      .ok (some (payment 2 10)) :=
  (ledgerDef.get_run_of_tops paymentOps tops_paymentOps).2 (Key.root 2)

end Redbit.Entity
