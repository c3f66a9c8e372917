import Redbit.Storage.ReadBack

/-!
# Rows under new keys

A column that is only ever given rows under keys it has not seen reads all of them back, and what it
read before does not change.  For a dictionary this rests on the birth ids: each is one of the keys
seen so far, so no new row takes it over, whether the cache has lost a value or not.

`ShardTable.Grows` collects what is needed of one shard, with `Sound t seen` for a table all of
whose keys and birth ids are in `seen`; `Column.AllSound` carries it over to the shards of a column.
-/

set_option linter.unusedSectionVars false

namespace Redbit.Storage

open Redbit.Lib

variable {T K V : Type} [LinearOrder K] [DecidableEq V]

/-- The keys of rows. -/
def keysOfRows (rows : List (K × V)) : Finset K := (rows.map Prod.fst).toFinset

/-- The rows have different keys, and none that was seen. -/
def FreshRows (seen : Finset K) (rows : List (K × V)) : Prop :=
  (rows.map Prod.fst).Nodup ∧ ∀ kv ∈ rows, kv.1 ∉ seen

/-- What is proved of the tables of one shard that is given rows under new keys. -/
structure ShardTable.Grows (S : ShardTable T K V) (now : Bool) (Fine : T → List (K × V) → Prop)
    (Sound : T → Finset K → Prop) : Prop where
  mono : ∀ {t seen seen'}, Sound t seen → seen ⊆ seen' → Sound t seen'
  absent : ∀ {t seen k}, Sound t seen → k ∉ seen → S.find t k = none
  fine : ∀ {t seen rows}, Sound t seen → FreshRows seen rows → Fine t rows
  grows : ∀ {t seen rows}, Sound t seen → FreshRows seen rows →
    Sound (S.insertRows now t rows) (seen ∪ keysOfRows rows)
  frame : ∀ {t seen rows k}, Sound t seen → FreshRows seen rows → k ∈ seen →
    S.find (S.insertRows now t rows) k = S.find t k

section Column

variable {S : ShardTable T K V} {now : Bool} {Fine : T → List (K × V) → Prop}
  {Sound : T → Finset K → Prop}
variable {n : ℕ} [NeZero n] {hash : V → ℕ} {c : Column n T} {seen : Finset K} {rows : List (K × V)}

/-- Every shard is sound. -/
def Column.AllSound (Sound : T → Finset K → Prop) (c : Column n T) (seen : Finset K) : Prop :=
  ∀ i, Sound (c i) seen

lemma FreshRows.bucket (h : FreshRows seen rows) (i : Fin n) : FreshRows seen (bucket hash i rows) :=
  ⟨nodup_bucket h.1 i, fun kv hkv => h.2 kv ((mem_bucket hash).mp hkv).1⟩

lemma keysOfRows_bucket_subset (i : Fin n) : keysOfRows (bucket hash i rows) ⊆ keysOfRows rows := by
  intro k hk
  obtain ⟨kv, hkv, rfl⟩ := List.mem_map.mp (List.mem_toFinset.mp hk)
  exact List.mem_toFinset.mpr (List.mem_map.mpr ⟨kv, ((mem_bucket hash).mp hkv).1, rfl⟩)

lemma Column.AllSound.keepsRows (hS : S.Grows now Fine Sound) (hc : c.AllSound Sound seen)
    (h : FreshRows seen rows) : c.KeepsRows S Fine hash rows :=
  ⟨fun kv hkv j _ => hS.absent (hc j) (h.2 kv hkv), fun i => hS.fine (hc i) (h.bucket i)⟩

lemma Column.AllSound.insertRows (hS : S.Grows now Fine Sound) (hc : c.AllSound Sound seen)
    (h : FreshRows seen rows) :
    (c.insertRows S hash now rows).AllSound Sound (seen ∪ keysOfRows rows) := by
  intro i
  rw [Column.insertRows_apply]
  refine hS.mono (hS.grows (hc i) (h.bucket i)) ?_
  exact Finset.union_subset_union_right (keysOfRows_bucket_subset i)

lemma Column.AllSound.getValue_insertRows (hS : S.Grows now Fine Sound) (hc : c.AllSound Sound seen)
    (h : FreshRows seen rows) {k : K} (hk : k ∈ seen) :
    (c.insertRows S hash now rows).getValue S k = c.getValue S k := by
  unfold Column.getValue
  congr 2
  funext i
  rw [Column.insertRows_apply]
  exact hS.frame (hc i) (h.bucket i) hk

end Column

/-! ### Index shards -/

section Index

variable {K V : Type} [LinearOrder K] [LinearOrder V] [CacheKey V]

/-- The keys of the forward table have been seen. -/
def IndexSound (t : IndexTable K V) (seen : Finset K) : Prop :=
  ∀ k, t.indexByPk.get k ≠ none → k ∈ seen

lemma notMem_of_fresh {seen : Finset K} {rows : List (K × V)} (h : FreshRows seen rows) {k : K}
    (hk : k ∈ seen) : k ∉ rows.map Prod.fst := by
  intro hm
  obtain ⟨kv, hkv, rfl⟩ := List.mem_map.mp hm
  exact h.2 kv hkv hk

theorem indexShard_grows (f : IndexFactory) (now : Bool) :
    (indexShard f : ShardTable (IndexTable K V) K V).Grows now (fun _ _ => True) IndexSound where
  mono h hsub k hk := hsub (h k hk)
  absent {t seen k} h hk := by
    have hnone : t.indexByPk.get k = none := by
      by_contra hne
      exact hk (h k hne)
    show (t.indexByPk.get k).map some = none
    rw [hnone]
    rfl
  fine _ _ := trivial
  grows {t seen rows} h _ k hk := by
    rw [indexByPk_insertRows] at hk
    obtain ⟨v, hv⟩ := Option.ne_none_iff_exists'.mp hk
    rcases Table.get_insertAll_eq_some _ hv with hm | hold
    · exact Finset.mem_union_right _ (List.mem_toFinset.mpr (List.mem_map.mpr ⟨_, hm, rfl⟩))
    · refine Finset.mem_union_left _ (h k ?_)
      rw [hold]
      simp
  frame {t seen rows k} _ hrows hk := by
    show (((indexShard f).insertRows now t rows).indexByPk.get k).map some =
      (t.indexByPk.get k).map some
    rw [indexByPk_insertRows, Table.get_insertAll, putAll_of_notMem (notMem_of_fresh hrows hk)]

end Index

/-! ### Dictionary shards -/

section Dict

variable {K V : Type} [LinearOrder K] [LinearOrder V] [CacheKey V]

/-- The keys and the birth ids have been seen, and a known value is under its birth id. -/
structure DictSound (t : DictTable K V) (seen : Finset K) : Prop where
  linked : ∀ k b, t.dictPkByKey.get k = some b → k ∈ seen ∧ b ∈ seen
  valued : ∀ b v, t.valueByDictPk.get b = some v → b ∈ seen
  known : ∀ v b, t.valueToDictPk.get v = some b → t.valueByDictPk.get b = some v

namespace DictTable

/-- Only the key of a row can be the birth id of a birth. -/
lemma Outcome.kept_of_notMem {now : Bool} {d t : DictTable K V} {rows : List (K × V)}
    (h : Outcome now d rows t) {b : K} (hb : b ∉ rows.map Prod.fst) :
    t.valueByDictPk.get b = d.valueByDictPk.get b := by
  refine h.kept b fun p v hp => absurd ?_ hb
  exact List.mem_map.mpr ⟨(b, v), hp.subset (by simp), rfl⟩

/-- What a bulk insert defers for `value_to_dict_pk` are the births of its rows. -/
lemma born_of_mem_batch {d : DictTable K V} {rows : List (K × V)} {v : V} {b : K}
    (h : (v, b) ∈ (rows.foldl batchStep ⟨d, [], []⟩).valueToPkBatch) :
    ∃ p, p ++ [(b, v)] <+: rows ∧ (turns false d p).Fresh v := by
  induction rows using List.reverseRecOn with
  | nil => exact absurd h List.not_mem_nil
  | append_singleton rows kv ih =>
    obtain ⟨k, v'⟩ := kv
    have htable := table_foldl_batchStep rows ⟨d, [], []⟩
    have hold : (v, b) ∈ (rows.foldl batchStep ⟨d, [], []⟩).valueToPkBatch →
        ∃ p, p ++ [(b, v)] <+: rows ++ [(k, v')] ∧ (turns false d p).Fresh v := by
      intro hm
      obtain ⟨p, hp, hfresh⟩ := ih hm
      exact ⟨p, hp.trans (List.prefix_append _ _), hfresh⟩
    rw [List.foldl_append, List.foldl_cons, List.foldl_nil] at h
    cases hc : cachePeek (rows.foldl batchStep ⟨d, [], []⟩).table.cache (cacheKey v') with
    | some b' =>
      rw [batchStep_of_hit hc] at h
      exact hold h
    | none =>
      cases hv : (rows.foldl batchStep ⟨d, [], []⟩).table.valueToDictPk.get v' with
      | some b' =>
        rw [batchStep_of_known hc hv] at h
        exact hold h
      | none =>
        rw [batchStep_of_new hc hv] at h
        rcases List.mem_append.mp h with h | h
        · exact hold h
        · obtain ⟨rfl, rfl⟩ := Prod.mk.inj (List.mem_singleton.mp h)
          rw [htable] at hc hv
          exact ⟨rows, List.prefix_rfl, hc, hv⟩

end DictTable

/-- A birth id that a transaction leaves for a value was there before, or is the one of a birth. -/
lemma valueToDictPk_insertRows {f : DictFactory} {now : Bool} {t : DictTable K V} {rows : List (K × V)}
    (hnd : (rows.map Prod.fst).Nodup) {v : V} {b : K}
    (h : ((dictShard f).insertRows now t rows).valueToDictPk.get v = some b) :
    t.valueToDictPk.get v = some b ∨
      (DictTable.turns now (f.openForWrite t.toDictTables) rows).valueByDictPk.get b = some v := by
  have hout := DictTable.outcome_turns now (DictTable.cacheAgrees_openForWrite f t.toDictTables) hnd
  unfold ShardTable.insertRows at h
  cases now with
  | true =>
    rw [if_pos rfl] at h
    rcases hout.ids v b (Or.inr h) with hold | ⟨-, -, hval⟩
    · exact Or.inl hold
    · exact Or.inr hval
  | false =>
    rw [if_neg (by simp)] at h
    split at h
    · exact Or.inl h
    · rcases Table.get_insertAll_eq_some _ h with hm | hold
      · rw [List.mem_mergeSort] at hm
        obtain ⟨p, hp, hfresh⟩ := DictTable.born_of_mem_batch hm
        exact Or.inr (hout.born p b v hp hfresh)
      · rw [DictTable.table_foldl_batchStep, DictTable.valueToDictPk_turns_false] at hold
        exact Or.inl hold

theorem dictShard_grows (f : DictFactory) (now : Bool) :
    (dictShard f : ShardTable (DictTable K V) K V).Grows now
      (fun t rows => DictTable.Fine now (f.openForWrite t.toDictTables) rows) DictSound where
  mono h hsub := ⟨fun k b hk => ⟨hsub (h.linked k b hk).1, hsub (h.linked k b hk).2⟩,
    fun b v hb => hsub (h.valued b v hb), h.known⟩
  absent {t seen k} h hk := by
    have hnone : t.dictPkByKey.get k = none := by
      by_contra hne
      obtain ⟨b, hb⟩ := Option.ne_none_iff_exists'.mp hne
      exact hk (h.linked k b hb).1
    show (t.dictPkByKey.get k).map t.valueByDictPk.get = none
    rw [hnone]
    rfl
  fine {t seen rows} h hrows kv _ b hb := by
    have hval := h.known kv.2 b hb
    refine ⟨hval, fun p v hp => ?_⟩
    have hmem : (b, v) ∈ rows := hp.subset (by simp)
    exact absurd (h.valued b kv.2 hval) (hrows.2 _ hmem)
  grows {t seen rows} h hrows := by
    have hout := DictTable.outcome_turns now
      (DictTable.cacheAgrees_openForWrite f t.toDictTables) hrows.1
    obtain ⟨hby, hvals⟩ := dictShard_insertRows f now t rows
    have hrow : ∀ k, k ∈ rows.map Prod.fst → k ∈ seen ∪ keysOfRows rows := fun k hk =>
      Finset.mem_union_right _ (List.mem_toFinset.mpr hk)
    refine ⟨fun k b hk => ?_, fun b v hb => ?_, fun v b hb => ?_⟩
    · rw [hby] at hk
      by_cases hm : k ∈ rows.map Prod.fst
      · refine ⟨hrow k hm, ?_⟩
        obtain ⟨kv, hkv, rfl⟩ := List.mem_map.mp hm
        obtain ⟨b', hb', hid⟩ := hout.linked kv hkv
        obtain rfl : b = b' := Option.some.inj (hk.symm.trans hb')
        rcases hid with hold | ⟨-, hb, -⟩
        · exact Finset.mem_union_left _ (h.valued b kv.2 (h.known kv.2 b hold))
        · exact hrow b hb
      · rw [DictTable.byKey_turns_of_notMem hm] at hk
        exact ⟨Finset.mem_union_left _ (h.linked k b hk).1,
          Finset.mem_union_left _ (h.linked k b hk).2⟩
    · rw [hvals] at hb
      by_cases hm : b ∈ rows.map Prod.fst
      · exact hrow b hm
      · rw [hout.kept_of_notMem hm] at hb
        exact Finset.mem_union_left _ (h.valued b v hb)
    · rw [hvals]
      rcases valueToDictPk_insertRows hrows.1 hb with hold | hval
      · have hval := h.known v b hold
        have hm := notMem_of_fresh hrows (h.valued b v hval)
        rw [hout.kept_of_notMem hm]
        exact hval
      · exact hval
  frame {t seen rows k} h hrows hk := by
    have hout := DictTable.outcome_turns now
      (DictTable.cacheAgrees_openForWrite f t.toDictTables) hrows.1
    obtain ⟨hby, hvals⟩ := dictShard_insertRows f now t rows
    show (_ : Option K).map _ = (t.dictPkByKey.get k).map t.valueByDictPk.get
    rw [hby, hvals, DictTable.byKey_turns_of_notMem (notMem_of_fresh hrows hk)]
    show (t.dictPkByKey.get k).map _ = _
    cases hb : t.dictPkByKey.get k with
    | none => rfl
    | some b =>
      have hm := notMem_of_fresh hrows (h.linked k b hb).2
      rw [Option.map_some, Option.map_some, hout.kept_of_notMem hm]
      rfl

end Dict

end Redbit.Storage
