import Redbit.Storage.Erase
import Redbit.Storage.FreshRows
import Redbit.Storage.IndexCache

/-!
# Columns under inserts and deletes

A column that is given rows under keys it does not hold, and from which rows are deleted again, has
one row of each of its keys at most (`Column.Tidy`).  So a delete finds all there is of a key, and
says so.

A key that was deleted may be stored again, with one exception: a dictionary goes on using the key
as a birth id while other keys have the value that was born with it (`births`).
-/

set_option linter.unusedSectionVars false

namespace Redbit.Storage

open Redbit.Lib

variable {T K V : Type} [LinearOrder K] [DecidableEq V]

/-- A list of different entries with `p`, with one more of them. -/
lemma nodup_and_forall_concat {p : K → Prop} {ks : List K} {k : K} :
    ((ks ++ [k]).Nodup ∧ ∀ a ∈ ks ++ [k], p a) ↔ (ks.Nodup ∧ ∀ a ∈ ks, p a) ∧ k ∉ ks ∧ p k := by
  rw [List.nodup_append, List.forall_mem_append]
  simp only [List.nodup_singleton, List.mem_singleton, forall_eq, true_and]
  constructor
  · rintro ⟨⟨hnd, hne⟩, hall, hp⟩
    exact ⟨⟨hnd, hall⟩, fun hk => hne k hk rfl, hp⟩
  · rintro ⟨⟨hnd, hall⟩, hk, hp⟩
    refine ⟨⟨hnd, fun a ha => ?_⟩, hall, hp⟩
    rintro rfl
    exact hk ha

/-! ### Shards -/

/-- What is proved of the tables of one shard over inserts under new keys and deletes: `born t` are
the keys that `t` uses as birth ids, and `Sane` holds of all tables that such writes make. -/
structure ShardTable.Reuses (S : ShardTable T K V) (now : Bool) (born : T → Finset K)
    (Sound : T → Finset K → Prop) (Listed Sane : T → Prop) : Prop where
  listed : ∀ {t}, Sane t → Listed t
  sound : ∀ {t seen}, Sane t → (∀ k, S.find t k ≠ none → k ∈ seen) → born t ⊆ seen → Sound t seen
  reopen : ∀ {t}, Sane t → Sane (S.reopen t)
  insertRows : ∀ {t seen rows}, Sane t → Sound t seen → FreshRows seen rows →
    Sane (S.insertRows now t rows)
  deleteKv : ∀ {t}, Sane t → ∀ k, Sane (S.deleteKv t k).2

section Column

variable {S : ShardTable T K V} {now : Bool} {born : T → Finset K} {Sound : T → Finset K → Prop}
variable {Listed Sane : T → Prop} {Holds : T → V → Prop} {Fine : T → List (K × V) → Prop}
variable {n : ℕ} [NeZero n] {hash : V → ℕ} {c : Column n T} {keys : Finset K} {rows : List (K × V)}

/-- The birth ids in use. -/
def Column.births (born : T → Finset K) (c : Column n T) : Finset K := Finset.univ.biUnion fun i =>
    born (c i)

/-- The column has rows of the keys only, and those of a key in one shard. -/
structure Column.Tidy (S : ShardTable T K V) (Sane : T → Prop) (c : Column n T)
    (keys : Finset K) : Prop where
  sane : ∀ i, Sane (c i)
  rows : ∀ i k, S.find (c i) k ≠ none → k ∈ keys
  single : ∀ k i j, S.find (c i) k ≠ none → S.find (c j) k ≠ none → i = j

lemma Column.Tidy.mem_of_held (h : c.Tidy S Sane keys) {k : K} (hk : Column.held S c k ≠ 0) :
    k ∈ keys := by
  obtain ⟨i, hi⟩ := Finset.card_ne_zero.mp hk
  exact h.rows i k (Option.isSome_iff_ne_none.mp (Finset.mem_filter.mp hi).2)

lemma Column.Tidy.allSound (hR : S.Reuses now born Sound Listed Sane) (h : c.Tidy S Sane keys) :
    c.AllSound Sound (keys ∪ c.births born) := by
  intro i
  refine hR.sound (h.sane i) (fun k hk => Finset.mem_union_left _ (h.rows i k hk)) fun b hb => ?_
  exact Finset.mem_union_right _ (Finset.mem_biUnion.mpr ⟨i, Finset.mem_univ i, hb⟩)

lemma Column.Tidy.held_le_one (h : c.Tidy S Sane keys) (k : K) : Column.held S c k ≤ 1 := by
  refine Finset.card_le_one.mpr fun i hi j hj => h.single k i j ?_ ?_
  · exact Option.isSome_iff_ne_none.mp (Finset.mem_filter.mp hi).2
  · exact Option.isSome_iff_ne_none.mp (Finset.mem_filter.mp hj).2

lemma Column.held_eq_zero {k : K} : Column.held S c k = 0 ↔ ∀ i, S.find (c i) k = none := by
  unfold Column.held
  rw [Finset.card_eq_zero, Finset.filter_eq_empty_iff]
  simp

/-- A column that has rows of no keys. -/
lemma Column.Tidy.find_of_empty (h : c.Tidy S Sane ∅) (i : Fin n) (k : K) : S.find (c i) k = none := by
  by_contra hfind
  exact absurd (h.rows i k hfind) (Finset.notMem_empty k)

/-- Rows under new keys. -/
lemma Column.Tidy.insertRows (hR : S.Reuses now born Sound Listed Sane)
    (hB : S.ReadsBack now Holds Fine) (h : c.Tidy S Sane keys)
    (hrows : FreshRows (keys ∪ c.births born) rows) :
    (c.insertRows S hash now rows).Tidy S Sane (keys ∪ keysOfRows rows) := by
  have hold : ∀ i k, k ∉ (bucket hash i rows).map Prod.fst →
    S.find (c.insertRows S hash now rows i) k ≠ none →
      S.find (c i) k ≠ none := by
    intro i k hk hfind
    rw [Column.insertRows_apply] at hfind
    exact mt (hB.find_of_notMem hk).mpr hfind
  refine ⟨fun i => ?_, fun i k hfind => ?_, fun k i j hi hj => ?_⟩
  · rw [Column.insertRows_apply]
    exact hR.insertRows (h.sane i) (h.allSound hR i) (hrows.bucket i)
  · by_cases hk : k ∈ (bucket hash i rows).map Prod.fst
    · exact Finset.mem_union_right _ (keysOfRows_bucket_subset i (List.mem_toFinset.mpr hk))
    · exact Finset.mem_union_left _ (h.rows i k (hold i k hk hfind))
  · by_cases hk : k ∈ rows.map Prod.fst
    · -- a new key is in the shard of its value
      obtain ⟨kv, hkv, rfl⟩ := List.mem_map.mp hk
      have hshard : ∀ i, S.find (c.insertRows S hash now rows i) kv.1 ≠ none →
          i = shardOf hash n kv.2 := by
        intro i hi
        by_contra hne
        refine hrows.2 kv hkv (Finset.mem_union_left _ (h.rows i kv.1 (hold i kv.1 ?_ hi)))
        exact notMem_bucket hrows.1 hkv hne
      rw [hshard i hi, hshard j hj]
    · have hnot : ∀ i : Fin n, k ∉ (bucket hash i rows).map Prod.fst := fun i hm =>
        hk (List.mem_toFinset.mp (keysOfRows_bucket_subset i (List.mem_toFinset.mpr hm)))
      exact h.single k i j (hold i k (hnot i) hi) (hold j k (hnot j) hj)

/-! ### Deletes -/

/-- A key is gone after its delete, and any other key is found as before. -/
lemma Column.Tidy.find_deleteRows (hR : S.Reuses now born Sound Listed Sane)
    (hE : S.Erases now Holds Listed) (h : c.Tidy S Sane keys) (ks : List K) (i : Fin n) (k : K) :
    S.find ((c.deleteRows S ks).2 i) k = if k ∈ ks then none else S.find (c i) k := by
  obtain ⟨-, hheld, hframe⟩ := Column.deleteRows_spec hE (fun i => hR.listed (h.sane i)) ks
  split
  · rename_i hk
    have hcount := List.count_pos_iff.mpr hk
    have hle := h.held_le_one k
    have hzero : Column.held S (c.deleteRows S ks).2 k = 0 := by
      rw [hheld]
      omega
    exact Column.held_eq_zero.mp hzero i
  · rename_i hk
    exact hframe k hk i

lemma Column.Tidy.deleteRows (hR : S.Reuses now born Sound Listed Sane)
    (hE : S.Erases now Holds Listed) (h : c.Tidy S Sane keys) (ks : List K) :
    (c.deleteRows S ks).2.Tidy S Sane (keys \ ks.toFinset) := by
  have hfind := h.find_deleteRows hR hE ks
  have hold : ∀ i k, S.find ((c.deleteRows S ks).2 i) k ≠ none → k ∉ ks ∧ S.find (c i) k ≠ none := by
    intro i k hk
    rw [hfind] at hk
    split at hk
    · exact absurd rfl hk
    · rename_i hks
      exact ⟨hks, hk⟩
  refine ⟨Column.forall_deleteRows (P := fun _ => Sane) (fun i => hR.reopen (h.sane i)) fun h k _ =>
    hR.deleteKv h k, fun i k hk => ?_, fun k i j hi hj => ?_⟩
  · rw [Finset.mem_sdiff, List.mem_toFinset]
    exact ⟨h.rows i k (hold i k hk).2, (hold i k hk).1⟩
  · exact h.single k i j (hold i k hi).2 (hold j k hj).2

lemma Column.deleteRows_fst_concat (c : Column n T) (ks : List K) (k : K) :
    (c.deleteRows S (ks ++ [k])).1 = ((c.deleteRows S ks).1 &&
      ((c.deleteRows S ks).2.deleteKv S k).1) := by
  unfold Column.deleteRows
  rw [List.foldl_append]
  rfl

/-- **What a delete says**: that there was a row of each of the keys, and no key came twice. -/
lemma Column.Tidy.deleteRows_fst (hR : S.Reuses now born Sound Listed Sane)
    (hE : S.Erases now Holds Listed) (h : c.Tidy S Sane keys) (ks : List K) :
    (c.deleteRows S ks).1 = true ↔ ks.Nodup ∧ ∀ k ∈ ks, Column.held S c k ≠ 0 := by
  induction ks using List.reverseRecOn with
  | nil => exact iff_of_true rfl ⟨List.nodup_nil, fun k hk => absurd hk List.not_mem_nil⟩
  | append_singleton ks k ih =>
    have htidy := h.deleteRows hR hE ks
    have hone : ((c.deleteRows S ks).2.deleteKv S k).1 = true ↔ k ∉ ks ∧ Column.held S c k ≠ 0 := by
      have hfound : k ∉ ks ∧ Column.held S c k ≠ 0 ↔
          ∃ i, S.find ((c.deleteRows S ks).2 i) k ≠ none := by
        rw [ne_eq, Column.held_eq_zero, not_forall]
        simp only [h.find_deleteRows hR hE ks]
        by_cases hk : k ∈ ks <;> simp [hk]
      rw [hfound]
      rcases Column.deleteKv_cases hE (fun i => hR.listed (htidy.sane i)) k with ⟨hnone, hdel⟩ | ⟨i,
        hfind, hdel⟩
      · rw [hdel]
        exact iff_of_false (by simp) fun ⟨i, hi⟩ => hi (hnone i)
      · rw [hdel]
        exact iff_of_true rfl ⟨i, hfind⟩
    rw [Column.deleteRows_fst_concat, Bool.and_eq_true, ih, hone]
    exact nodup_and_forall_concat.symm

end Column

/-! ### Plain columns -/

section Plain

variable {K V : Type} [LinearOrder K] {n : ℕ} {part : K → Fin n} {c : Column n (Table K V)}
  {keys : Finset K} {rows : List (K × V)}

/-- The column has rows of the keys only, each in the shard of its key. -/
structure PlainTidy (part : K → Fin n) (c : Column n (Table K V)) (keys : Finset K) : Prop where
  placed : PlainPlaced part c
  rows : ∀ i k, (c i).get k ≠ none → k ∈ keys

lemma PlainTidy.mem_of_held (h : PlainTidy part c keys) {k : K} (hk : plainHeld c k ≠ 0) :
    k ∈ keys := by
  obtain ⟨i, hi⟩ := Finset.card_ne_zero.mp hk
  exact h.rows i k (Option.isSome_iff_ne_none.mp (Finset.mem_filter.mp hi).2)

lemma PlainTidy.held_le_one (h : PlainTidy part c keys) (k : K) : plainHeld c k ≤ 1 := by
  refine Finset.card_le_one.mpr fun i hi j hj => ?_
  have hrow : ∀ {i}, i ∈ Finset.univ.filter (fun i => ((c i).get k).isSome) → part k = i := fun hi =>
    h.placed _ k (Option.isSome_iff_ne_none.mp (Finset.mem_filter.mp hi).2)
  rw [← hrow hi, hrow hj]

/-- A key has a row where its shard has one. -/
lemma plainHeld_eq_zero (h : PlainPlaced part c) {k : K} :
    plainHeld c k = 0 ↔ (c (part k)).get k = none := by
  unfold plainHeld
  rw [Finset.card_eq_zero, Finset.filter_eq_empty_iff]
  constructor
  · intro hnone
    have hshard := hnone (Finset.mem_univ (part k))
    simpa using hshard
  · intro hnone i _ hi
    have hne := Option.isSome_iff_ne_none.mp hi
    obtain rfl := h i k hne
    exact hne hnone

lemma PlainTidy.insertRows (h : PlainTidy part c keys) (rows : List (K × V)) :
    PlainTidy part (plainInsertRows part c rows) (keys ∪ keysOfRows rows) := by
  refine ⟨h.placed.insertRows rows, fun i k hk => ?_⟩
  obtain ⟨v, hv⟩ := Option.ne_none_iff_exists'.mp hk
  rcases Table.get_insertAll_eq_some _ hv with hm | hold
  · refine Finset.mem_union_right _ (List.mem_toFinset.mpr ?_)
    exact List.mem_map.mpr ⟨(k, v), (List.mem_filter.mp hm).1, rfl⟩
  · refine Finset.mem_union_left _ (h.rows i k ?_)
    rw [hold]
    simp

lemma PlainTidy.deleteRows (h : PlainTidy part c keys) (ks : List K) :
    PlainTidy part (plainDeleteRows part c ks).2 (keys \ ks.toFinset) := by
  refine ⟨h.placed.deleteRows ks, fun i k hk => ?_⟩
  rw [get_plainDeleteRows h.placed] at hk
  split at hk
  · exact absurd rfl hk
  · rename_i hks
    rw [Finset.mem_sdiff, List.mem_toFinset]
    exact ⟨h.rows i k hk, hks⟩

/-- What a delete of a plain column says. -/
lemma PlainTidy.deleteRows_fst (h : PlainTidy part c keys) (ks : List K) :
    (plainDeleteRows part c ks).1 = true ↔ ks.Nodup ∧ ∀ k ∈ ks, plainHeld c k ≠ 0 := by
  induction ks using List.reverseRecOn with
  | nil => exact iff_of_true rfl ⟨List.nodup_nil, fun k hk => absurd hk List.not_mem_nil⟩
  | append_singleton ks k ih =>
    have hstep : (plainDeleteRows part c (ks ++ [k])).1 =
        ((plainDeleteRows part c ks).1 && (((plainDeleteRows part c ks).2 (part k)).get
          k).isSome) := by
      unfold plainDeleteRows
      rw [List.foldl_append]
      rfl
    have hone : (((plainDeleteRows part c ks).2 (part k)).get k).isSome = true ↔
        k ∉ ks ∧ plainHeld c k ≠ 0 := by
      rw [Option.isSome_iff_ne_none, get_plainDeleteRows h.placed, ne_eq (plainHeld c k),
        plainHeld_eq_zero h.placed]
      by_cases hk : k ∈ ks <;> simp [hk]
    rw [hstep, Bool.and_eq_true, ih, hone]
    exact nodup_and_forall_concat.symm

end Plain

/-! ### Index shards -/

section Index

variable {K V : Type} [LinearOrder K] [LinearOrder V] [CacheKey V]

/-- The forward and the reverse rows are the same. -/
def IndexSane (t : IndexTable K V) : Prop := indexLinks.Inverse t

lemma indexSane_empty (f : IndexFactory) :
    IndexSane (K := K) (V := V) (f.openForWrite IndexTables.empty) := fun v k =>
  iff_of_false (by simp [indexLinks, IndexFactory.openForWrite, IndexTables.empty])
    (Table.get_empty_ne_some k v)

lemma IndexSane.listed {t : IndexTable K V} (h : IndexSane t) : IndexListed t := fun k v => (h v k).mpr

/-- Without forward rows the tables are empty. -/
lemma IndexSane.eq_empty {t : IndexTable K V} (h : IndexSane t)
    (hrows : ∀ k, t.indexByPk.get k = none) : t.toIndexTables = IndexTables.empty := by
  have hreverse : t.pkByIndex = Multimap.empty := by
    refine Multimap.ext fun v k => iff_of_false (fun hk => ?_) (by simp)
    exact absurd ((hrows k).symm.trans ((h v k).mp hk)) (by simp)
  have hforward : t.indexByPk = Table.empty := Table.ext fun k =>
    (hrows k).trans (Table.get_empty k).symm
  show (⟨t.pkByIndex, t.indexByPk⟩ : IndexTables K V) = _
  rw [hreverse, hforward]
  rfl

lemma mem_pkByIndex_insertRows (f : IndexFactory) (now : Bool) (t : IndexTable K V)
    (rows : List (K × V)) (k : K) (v : V) :
    k ∈ ((indexShard f).insertRows now t rows).pkByIndex.get v ↔ (k, v) ∈ rows ∨
      k ∈ t.pkByIndex.get v := by
  unfold ShardTable.insertRows
  cases now with
  | true =>
    rw [if_pos rfl]
    have hfold : ∀ t : IndexTable K V,
        k ∈ (rows.foldl (fun t kv => (indexShard f).insertKv t kv.1 kv.2) t).pkByIndex.get v ↔
          (k, v) ∈ rows ∨ k ∈ t.pkByIndex.get v := by
      induction rows with
      | nil => exact fun t => (or_iff_right List.not_mem_nil).symm
      | cons kv rows ih =>
        intro t
        have hwrite : k ∈ ((indexShard f).insertKv t kv.1 kv.2).pkByIndex.get v ↔
            (k, v) ∈ [kv] ∨ k ∈ t.pkByIndex.get v := mem_pkByIndex_write f t (.insertKv kv.1 kv.2) v k
        rw [List.foldl_cons, ih, hwrite, List.mem_singleton, List.mem_cons, or_left_comm, or_assoc]
    exact hfold _
  | false =>
    rw [if_neg (by simp)]
    split
    · rename_i hnil
      rw [hnil]
      exact (or_iff_right List.not_mem_nil).symm
    · exact mem_pkByIndex_write f _ (.insertManySortedByKey rows) v k

/-- New rows are the same in both tables. -/
lemma IndexSane.insertRows {t : IndexTable K V} {seen : Finset K} {rows : List (K × V)}
    (h : IndexSane t) (f : IndexFactory) (now : Bool) (hsound : IndexSound t seen)
    (hrows : FreshRows seen rows) : IndexSane ((indexShard f).insertRows now t rows) := by
  intro v k
  show k ∈ ((indexShard f).insertRows now t rows).pkByIndex.get v ↔
    ((indexShard f).insertRows now t rows).indexByPk.get k = some v
  have hold : k ∈ t.pkByIndex.get v ↔ t.indexByPk.get k = some v := h v k
  rw [mem_pkByIndex_insertRows, indexByPk_insertRows, hold]
  have hnew : ∀ kv ∈ rows, t.indexByPk.get kv.1 = none := by
    intro kv hkv
    by_contra hne
    exact hrows.2 kv hkv (hsound kv.1 hne)
  exact (IndexTable.get_insertMany hrows.1 hnew k v).symm

/-- An index keeps nothing of the keys it had. -/
lemma indexShard_reuses (f : IndexFactory) (now : Bool) :
    (indexShard f : ShardTable (IndexTable K V) K V).Reuses now (fun _ => ∅) IndexSound IndexListed
      IndexSane where
  listed h := h.listed
  sound _ hrows _ k hk := hrows k fun hnone => hk (Option.map_eq_none_iff.mp hnone)
  reopen h := h
  insertRows h hsound hrows := h.insertRows f now hsound hrows
  deleteKv h k := (indexShard_unlinks f).inverse_deleteKv h k

end Index

/-! ### Dictionary shards -/

section Dict

variable {K V : Type} [LinearOrder K] [LinearOrder V] [CacheKey V]

/-- The keys that stand for a value. -/
def dictBirths (t : DictTable K V) : Finset K := t.valueByDictPk.keys

lemma mem_dictBirths {t : DictTable K V} {b : K} :
    b ∈ dictBirths t ↔ t.valueByDictPk.get b ≠ none := by
  unfold dictBirths
  rw [Table.mem_keys, Option.ne_none_iff_exists']

/-- A key is listed under its birth id and under no other. -/
def DictUsers (t : DictTable K V) : Prop := ∀ b k, k ∈ t.dictPkToKeys.get b ↔
    t.dictPkByKey.get k = some b

/-- What inserts of new keys and deletes keep: a birth id has a value exactly while a key uses it,
and a known value is under its birth id. -/
structure DictSane (t : DictTable K V) : Prop where
  users : DictUsers t
  linked : ∀ k b, t.dictPkByKey.get k = some b → t.valueByDictPk.get b ≠ none
  used : ∀ b, t.valueByDictPk.get b ≠ none → ∃ k, t.dictPkByKey.get k = some b
  known : ∀ v b, t.valueToDictPk.get v = some b → t.valueByDictPk.get b = some v

lemma dictSane_empty (f : DictFactory) : DictSane (K := K) (V := V)
    (f.openForWrite DictTables.empty) where
  users b k := iff_of_false (by simp [DictFactory.openForWrite, DictTables.empty])
    (Table.get_empty_ne_some k b)
  linked k b hk := absurd hk (Table.get_empty_ne_some k b)
  used b hb := absurd (Table.get_empty b) hb
  known v b hv := absurd hv (Table.get_empty_ne_some v b)

lemma DictSane.inverse {t : DictTable K V} (h : DictSane t) : dictLinks.Inverse t := h.users

lemma DictSane.listed {t : DictTable K V} (h : DictSane t) :
    DictListed t := fun k b => (h.users b k).mpr

/-- Without keys the tables are empty: no birth id is left, and so no value. -/
lemma DictSane.eq_empty {t : DictTable K V} (h : DictSane t)
    (hrows : ∀ k, t.dictPkByKey.get k = none) : t.toDictTables = DictTables.empty := by
  have hunlinked : ∀ k b, t.dictPkByKey.get k ≠ some b := fun k b hk =>
    absurd ((hrows k).symm.trans hk) (by simp)
  have hvalues : ∀ b, t.valueByDictPk.get b = none := by
    intro b
    by_contra hb
    obtain ⟨k, hk⟩ := h.used b hb
    exact hunlinked k b hk
  have hids : ∀ v, t.valueToDictPk.get v = none := by
    intro v
    by_contra hv
    obtain ⟨b, hb⟩ := Option.ne_none_iff_exists'.mp hv
    exact absurd ((hvalues b).symm.trans (h.known v b hb)) (by simp)
  have husers : t.dictPkToKeys = Multimap.empty :=
    Multimap.ext fun b k => iff_of_false (fun hk => hunlinked k b ((h.users b k).mp hk)) (by simp)
  have hby : t.dictPkByKey = Table.empty := Table.ext fun k => (hrows k).trans (Table.get_empty k).symm
  have hval : t.valueByDictPk = Table.empty := Table.ext fun b =>
    (hvalues b).trans (Table.get_empty b).symm
  have hto : t.valueToDictPk = Table.empty := Table.ext fun v =>
    (hids v).trans (Table.get_empty v).symm
  show (⟨t.dictPkToKeys, t.valueByDictPk, t.valueToDictPk, t.dictPkByKey⟩ : DictTables K V) = _
  rw [husers, hval, hto, hby]
  rfl

lemma DictSane.sound {t : DictTable K V} {seen : Finset K} (h : DictSane t)
    (hrows : ∀ k, t.dictPkByKey.get k ≠ none → k ∈ seen) (hborn : dictBirths t ⊆ seen) :
    DictSound t seen := by
  have hval : ∀ b, t.valueByDictPk.get b ≠ none → b ∈ seen := fun b hb => hborn (mem_dictBirths.mpr hb)
  refine ⟨fun k b hk => ⟨hrows k ?_, hval b (h.linked k b hk)⟩, fun b v hb => hval b ?_, h.known⟩
  · rw [hk]
    simp
  · rw [hb]
    simp

/-! #### Inserts -/

/-- An insert links its key to a birth id. -/
lemma insertKv_links (t : DictTable K V) (k : K) (v : V) :
    ∃ b, (t.insertKv k v).dictPkByKey = t.dictPkByKey.insert k b ∧
    (t.insertKv k v).dictPkToKeys = t.dictPkToKeys.insert b k := by
  cases hc : cachePeek t.cache (cacheKey v) with
  | some b =>
    rw [DictTable.insertKv_of_hit hc]
    exact ⟨b, rfl, rfl⟩
  | none =>
    cases hv : t.valueToDictPk.get v with
    | some b =>
      rw [DictTable.insertKv_of_known hc hv]
      exact ⟨b, rfl, rfl⟩
    | none =>
      rw [DictTable.insertKv_of_new hc hv]
      exact ⟨k, rfl, rfl⟩

lemma DictUsers.insertKv {t : DictTable K V} (h : DictUsers t) {k : K}
    (hk : t.dictPkByKey.get k = none) (v : V) : DictUsers (t.insertKv k v) := by
  obtain ⟨b, hby, husers⟩ := insertKv_links t k v
  intro b' k'
  rw [hby, husers, Multimap.mem_get_insert, Table.get_insert, h b' k']
  by_cases hkk : k' = k
  · rw [hkk, hk, if_pos rfl]
    simp [eq_comm]
  · rw [if_neg hkk]
    simp [hkk]

lemma DictUsers.insertEach {rows : List (K × V)} {t : DictTable K V} (h : DictUsers t)
    (hnd : (rows.map Prod.fst).Nodup) (hnew : ∀ kv ∈ rows, t.dictPkByKey.get kv.1 = none) :
    DictUsers (rows.foldl (fun t kv => t.insertKv kv.1 kv.2) t) := by
  induction rows generalizing t with
  | nil => exact h
  | cons kv rows ih =>
    obtain ⟨hkv, hnd⟩ := List.nodup_cons.mp hnd
    refine ih (h.insertKv (hnew kv List.mem_cons_self) kv.2) hnd fun kv' hkv' => ?_
    obtain ⟨b, hby, -⟩ := insertKv_links t kv.1 kv.2
    rw [hby, Table.get_insert_of_ne]
    · exact hnew kv' (List.mem_cons_of_mem _ hkv')
    · exact fun heq => hkv (List.mem_map.mpr ⟨kv', hkv', heq⟩)

/-- The keys of a bulk insert are listed where they are linked. -/
lemma DictUsers.batchRun {rows : List (K × V)} {t : DictTable K V} (h : DictUsers t)
    (ht : t.CacheAgrees) (hnd : (rows.map Prod.fst).Nodup)
    (hnew : ∀ kv ∈ rows, t.dictPkByKey.get kv.1 = none) (b k : K) :
    (b, k) ∈ (DictTable.batchRun t rows).pkToKeysBatch ∨ k ∈ t.dictPkToKeys.get b ↔
      (DictTable.batchRun t rows).table.dictPkByKey.get k = some b := by
  induction rows using List.reverseRecOn generalizing b k with
  | nil => exact (or_iff_right List.not_mem_nil).trans (h b k)
  | append_singleton rows kv ih =>
    obtain ⟨k₀, v⟩ := kv
    rw [List.map_append, List.nodup_append] at hnd
    have hk₀ : k₀ ∉ rows.map Prod.fst := fun hm => hnd.2.2 k₀ hm k₀ (by simp) rfl
    have hold := ih hnd.1 fun kv hkv => hnew kv (List.mem_append_left _ hkv)
    have hnone : (DictTable.batchRun t rows).table.dictPkByKey.get k₀ = none := by
      rw [(DictTable.trace_batchRun ht rows).frame k₀ hk₀]
      exact hnew (k₀, v) (by simp)
    rw [DictTable.batchRun_concat]
    obtain ⟨b₀, hby, hbatch⟩ := batchStep_links (DictTable.batchRun t rows) k₀ v
    rw [hby, hbatch, List.mem_append, List.mem_singleton, Prod.mk.injEq, or_right_comm, hold,
      Table.get_insert]
    by_cases hkk : k = k₀
    · rw [hkk, hnone, if_pos rfl]
      simp [eq_comm]
    · rw [if_neg hkk]
      simp [hkk]

lemma DictUsers.insertRows {rows : List (K × V)} {t : DictTable K V} (h : DictUsers t)
    (f : DictFactory) (now : Bool) (hnd : (rows.map Prod.fst).Nodup)
    (hnew : ∀ kv ∈ rows, t.dictPkByKey.get kv.1 = none) :
    DictUsers ((dictShard f).insertRows now t rows) := by
  unfold ShardTable.insertRows
  cases now with
  | true =>
    rw [if_pos rfl]
    exact DictUsers.insertEach (t := f.openForWrite t.toDictTables) h hnd hnew
  | false =>
    rw [if_neg (by simp)]
    split
    · exact h
    · have hagrees := DictTable.cacheAgrees_openForWrite f t.toDictTables
      intro b k
      refine Iff.trans (DictTable.mem_users_insertMany hagrees rows b k) ?_
      exact DictUsers.batchRun (t := f.openForWrite t.toDictTables) h hagrees hnd hnew b k

/-- Every birth id stays in use: a key that is born is linked to itself. -/
lemma used_turns {now : Bool} {rows : List (K × V)} {t : DictTable K V}
    (h : ∀ b, t.valueByDictPk.get b ≠ none → ∃ k, t.dictPkByKey.get k = some b)
    (hnd : (rows.map Prod.fst).Nodup) (hnew : ∀ kv ∈ rows, t.dictPkByKey.get kv.1 = none) :
    ∀ b, (DictTable.turns now t rows).valueByDictPk.get b ≠ none →
      ∃ k, (DictTable.turns now t rows).dictPkByKey.get k = some b := by
  induction rows using List.reverseRecOn with
  | nil => exact h
  | append_singleton rows kv ih =>
    obtain ⟨k₀, v⟩ := kv
    rw [List.map_append, List.nodup_append] at hnd
    have hk₀ : k₀ ∉ rows.map Prod.fst := fun hm => hnd.2.2 k₀ hm k₀ (by simp) rfl
    have hold := ih hnd.1 fun kv hkv => hnew kv (List.mem_append_left _ hkv)
    have hnone : (DictTable.turns now t rows).dictPkByKey.get k₀ = none := by
      rw [DictTable.byKey_turns_of_notMem hk₀]
      exact hnew (k₀, v) (by simp)
    have hkept : ∀ b b' k, (DictTable.turns now t rows).dictPkByKey.get k = some b →
        ((DictTable.turns now t rows).dictPkByKey.insert k₀ b').get k = some b := by
      intro b b' k hk
      rw [Table.get_insert_of_ne, hk]
      rintro rfl
      rw [hnone] at hk
      cases hk
    intro b hb
    rw [DictTable.turns_concat] at hb ⊢
    rcases DictTable.turn_cases now (DictTable.turns now t rows) k₀ v with ⟨b', -, hby, hval,
      -⟩ | ⟨-, hby, hval, -⟩
    · rw [hval] at hb
      obtain ⟨k, hk⟩ := hold b hb
      rw [hby]
      exact ⟨k, hkept b b' k hk⟩
    · rw [hby]
      rw [hval, Table.get_insert] at hb
      split at hb
      · rename_i hbk
        exact ⟨k₀, hbk ▸ Table.get_insert_self _ _ _⟩
      · obtain ⟨k, hk⟩ := hold b hb
        exact ⟨k, hkept b k₀ k hk⟩

/-- The birth ids of new rows have values. -/
lemma DictSane.insertRows {t : DictTable K V} {seen : Finset K} {rows : List (K × V)} (h : DictSane t)
    (f : DictFactory) (now : Bool) (hsound : DictSound t seen) (hrows : FreshRows seen rows) :
    DictSane ((dictShard f).insertRows now t rows) := by
  have hnew : ∀ kv ∈ rows, t.dictPkByKey.get kv.1 = none := by
    intro kv hkv
    by_contra hne
    obtain ⟨b, hb⟩ := Option.ne_none_iff_exists'.mp hne
    exact hrows.2 kv hkv (hsound.linked kv.1 b hb).1
  have hout := DictTable.outcome_turns now
    (DictTable.cacheAgrees_openForWrite f t.toDictTables) hrows.1
  obtain ⟨hby, hvals⟩ := dictShard_insertRows f now t rows
  refine ⟨h.users.insertRows f now hrows.1 hnew, fun k b hk => ?_, fun b hb => ?_,
    ((dictShard_grows f now).grows hsound hrows).known⟩
  · have hold : ∀ b, t.valueByDictPk.get b ≠ none →
        ((dictShard f).insertRows now t rows).valueByDictPk.get b = t.valueByDictPk.get b := by
      intro b hb
      obtain ⟨v, hv⟩ := Option.ne_none_iff_exists'.mp hb
      rw [hvals]
      exact hout.kept_of_notMem (notMem_of_fresh hrows (hsound.valued b v hv))
    rw [hby] at hk
    by_cases hm : k ∈ rows.map Prod.fst
    · obtain ⟨kv, hkv, rfl⟩ := List.mem_map.mp hm
      obtain ⟨b', hb', hid⟩ := hout.linked kv hkv
      obtain rfl : b = b' := Option.some.inj (hk.symm.trans hb')
      rcases hid with hknown | ⟨-, -, hval⟩
      · have hval := h.known kv.2 b hknown
        rw [hold b (by simp [hval]), hval]
        simp
      · rw [hvals, hval]
        simp
    · rw [DictTable.byKey_turns_of_notMem hm] at hk
      have hval := h.linked k b hk
      rwa [hold b hval]
  · rw [hvals] at hb
    rw [hby]
    exact used_turns (t := f.openForWrite t.toDictTables) h.used hrows.1 hnew b hb

/-! #### Deletes -/

/-- The three things a delete can do to a linked key: unlink it, forget its value with it, or find
no value. -/
lemma DictTables.del_of_linked_cases {t : DictTables K V} {k b : K}
    (hk : t.dictPkByKey.get k = some b) :
    t.del k = t.unlink k b ∧ ((t.dictPkToKeys.remove b k).get b = ∅ → t.valueByDictPk.get b = none) ∨
      ∃ v, (t.dictPkToKeys.remove b k).get b = ∅ ∧ t.valueByDictPk.get b = some v ∧
        t.del k = t.forget k b v := by
  unfold DictTables.del
  simp only [hk]
  by_cases hlast : (t.dictPkToKeys.remove b k).get b = ∅
  · rw [if_pos hlast]
    cases hv : t.valueByDictPk.get b with
    | none => exact Or.inl ⟨rfl, fun _ => rfl⟩
    | some v => exact Or.inr ⟨v, hlast, rfl, rfl⟩
  · rw [if_neg hlast]
    exact Or.inl ⟨rfl, fun h => absurd h hlast⟩

/-- The other keys of a birth id are listed until the last one goes. -/
lemma DictUsers.remove_eq_empty {t : DictTable K V} (h : DictUsers t) {b k : K} :
    (t.dictPkToKeys.remove b k).get b = ∅ ↔ ∀ k', t.dictPkByKey.get k' = some b → k' = k := by
  rw [Finset.eq_empty_iff_forall_notMem]
  refine forall_congr' fun k' => ?_
  rw [Multimap.mem_get_remove, h b k']
  tauto

/-- Another birth id is used without the key as well. -/
lemma DictSane.used_ne {t : DictTable K V} (h : DictSane t) {k b b' : K}
    (hk : t.dictPkByKey.get k = some b) (hne : b' ≠ b) (hb' : t.valueByDictPk.get b' ≠ none) :
    ∃ k', k' ≠ k ∧ t.dictPkByKey.get k' = some b' := by
  obtain ⟨k', hk'⟩ := h.used b' hb'
  refine ⟨k', ?_, hk'⟩
  rintro rfl
  exact hne (Option.some.inj (hk'.symm.trans hk))

section Unlinked

variable {t t' : DictTable K V} {k b : K} (h : DictSane t) (hk : t.dictPkByKey.get k = some b)
  (husers : DictUsers t')
  (hlink : ∀ k' b', t'.dictPkByKey.get k' = some b' ↔ k' ≠ k ∧ t.dictPkByKey.get k' = some b')

include h hk husers hlink

/-- A key is unlinked, and another one keeps its birth id. -/
lemma DictSane.of_unlink (hleft : t.valueByDictPk.get b ≠ none →
      ∃ k', k' ≠ k ∧ t.dictPkByKey.get k' = some b)
    (hval : t'.valueByDictPk = t.valueByDictPk) (hids : t'.valueToDictPk = t.valueToDictPk) :
    DictSane t' := by
  refine ⟨husers, fun k' b' hk' => ?_, fun b' hb' => ?_, fun v b' hb' => ?_⟩
  · rw [hval]
    exact h.linked k' b' ((hlink k' b').mp hk').2
  · rw [hval] at hb'
    have hused : ∃ k', k' ≠ k ∧ t.dictPkByKey.get k' = some b' := by
      by_cases hbb : b' = b
      · subst hbb
        exact hleft hb'
      · exact h.used_ne hk hbb hb'
    exact hused.imp fun k' => (hlink k' b').mpr
  · rw [hids] at hb'
    rw [hval]
    exact h.known v b' hb'

/-- The last key of a birth id is unlinked, and the value goes with it. -/
lemma DictSane.of_forget {v : V} (hnone : ∀ k', t.dictPkByKey.get k' = some b → k' = k)
    (hv : t.valueByDictPk.get b = some v) (hval : t'.valueByDictPk = t.valueByDictPk.remove b)
    (hids : t'.valueToDictPk = t.valueToDictPk.remove v) : DictSane t' := by
  refine ⟨husers, fun k' b' hk' => ?_, fun b' hb' => ?_, fun v' b' hb' => ?_⟩
  · obtain ⟨hkk, hk'⟩ := (hlink k' b').mp hk'
    rw [hval, Table.get_remove, if_neg fun hbb : b' = b => hkk (hnone k' (hbb ▸ hk'))]
    exact h.linked k' b' hk'
  · rw [hval, Table.get_remove] at hb'
    split at hb'
    · exact absurd rfl hb'
    · next hbb => exact (h.used_ne hk hbb hb').imp fun k' => (hlink k' b').mpr
  · rw [hids, Table.get_remove] at hb'
    split at hb'
    · cases hb'
    · next hvv =>
      have hold := h.known v' b' hb'
      rw [hval, Table.get_remove, if_neg, hold]
      rintro rfl
      exact hvv (Option.some.inj (hold.symm.trans hv))

end Unlinked

lemma DictSane.deleteKv {t : DictTable K V} (h : DictSane t) (f : DictFactory) (k : K) :
    DictSane (t.deleteKv k).2 := by
  cases hk : t.dictPkByKey.get k with
  | none =>
    rw [DictTable.deleteKv_of_absent hk]
    exact h
  | some b =>
    have htables := DictTable.deleteKv_tables t k
    have husers : DictUsers (t.deleteKv k).2 := (dictShard_unlinks f).inverse_deleteKv h.inverse k
    generalize (t.deleteKv k).2 = t' at htables husers ⊢
    obtain ⟨hby, -, -⟩ := DictTables.del_of_linked hk
    rw [← htables] at hby
    have hlink : ∀ k' b', t'.dictPkByKey.get k' = some b' ↔
        k' ≠ k ∧ t.dictPkByKey.get k' = some b' := by
      intro k' b'
      rw [hby, Table.get_remove]
      by_cases hkk : k' = k <;> simp [hkk]
    rcases DictTables.del_of_linked_cases hk with ⟨hdel, hlast⟩ | ⟨v, hlast, hv, hdel⟩
    · rw [hdel] at htables
      have hval : t'.valueByDictPk = t.valueByDictPk := by
        rw [htables]
        rfl
      have hids : t'.valueToDictPk = t.valueToDictPk := by
        rw [htables]
        rfl
      refine h.of_unlink hk husers hlink (fun hb => ?_) hval hids
      have hleft := mt hlast hb
      rw [h.users.remove_eq_empty, not_forall] at hleft
      obtain ⟨k', hk'⟩ := hleft
      exact ⟨k', (Classical.not_imp.mp hk').symm⟩
    · rw [hdel] at htables
      exact h.of_forget hk husers hlink (h.users.remove_eq_empty.mp hlast) hv
        (congrArg DictTables.valueByDictPk htables) (congrArg DictTables.valueToDictPk htables)

/-- A dictionary goes on using the birth ids of its values. -/
lemma dictShard_reuses (f : DictFactory) (now : Bool) :
    (dictShard f : ShardTable (DictTable K V) K V).Reuses now dictBirths DictSound DictListed
      DictSane where
  listed h := h.listed
  sound h hrows hborn := h.sound (fun k hk => hrows k fun hnone =>
    hk (Option.map_eq_none_iff.mp hnone)) hborn
  reopen h := ⟨h.users, h.linked, h.used, h.known⟩
  insertRows h hsound hrows := h.insertRows f now hsound hrows
  deleteKv h k := h.deleteKv f k

end Dict

end Redbit.Storage
