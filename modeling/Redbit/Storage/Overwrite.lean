import Redbit.Storage.Column
import Redbit.Storage.IndexTable
import Redbit.Storage.DictBatch

/-!
# Overwriting rows of index and dictionary columns

The tables of an index shard and of a dictionary shard are lawful (`indexShard_lawful`,
`dictShard_lawful`), so a run on a sharded column of either kind reads as the plain map it describes
exactly as long as

* no write gives a key that is present another value: the reverse table keeps the row of the old value;
* in a dictionary, no new value takes over a birth id that is still in use, and no bulk insert
repeats a new value that the cache has lost meanwhile.
-/

set_option linter.unusedSectionVars false

namespace Redbit.Storage

open Redbit.Lib

variable {K V : Type} [LinearOrder K] [LinearOrder V] [CacheKey V]

/-! ### Index shards -/

/-- The tables of an index column as a shard. -/
def indexShard (f : IndexFactory) : ShardTable (IndexTable K V) K V where
  insertKv := IndexTable.insertKv
  insertManySortedByKey := IndexTable.insertManySortedByKey
  deleteKv := IndexTable.deleteKv
  reopen t := f.openForWrite t.toIndexTables
  find t k := (t.getValue k).map some
  keysOf t v := t.indexKeys v

/-- The forward table holds `m`, the reverse one its inverse. -/
def IndexRep (t : IndexTable K V) (m : K → Option V) : Prop :=
  (∀ k, t.indexByPk.get k = m k) ∧ ∀ v k, k ∈ t.pkByIndex.get v ↔ m k = some v

lemma indexRep_empty (f : IndexFactory) : IndexRep (K := K) (V := V)
    (f.openForWrite IndexTables.empty) fun _ => none :=
  ⟨fun k => Table.get_empty k, fun v k => by simp [IndexFactory.openForWrite, IndexTables.empty]⟩

section Index

variable (f : IndexFactory) (t : IndexTable K V) (w : Write K V)

lemma indexByPk_write : ((indexShard f).write t w).indexByPk.get = putAll t.indexByPk.get w.pairs := by
  cases w with
  | insertKv k v => exact Table.get_insertAll t.indexByPk [(k, v)]
  | insertManySortedByKey pairs => exact Table.get_insertAll t.indexByPk pairs

lemma mem_pkByIndex_write (v : V) (k : K) :
    k ∈ ((indexShard f).write t w).pkByIndex.get v ↔ (k, v) ∈ w.pairs ∨ k ∈ t.pkByIndex.get v := by
  cases w with
  | insertKv k' v' =>
    show k ∈ (t.pkByIndex.insert v' k').get v ↔ (k, v) ∈ [(k', v')] ∨ _
    rw [Multimap.mem_get_insert, List.mem_singleton, Prod.mk.injEq, and_comm]
  | insertManySortedByKey pairs =>
    have hperm := (List.mergeSort_perm pairs fun a b => decide (a.2 ≤ b.2)).map fun kv => (kv.2, kv.1)
    have htable := Multimap.insertAll_perm hperm t.pkByIndex
    show k ∈ (t.insertManySortedByKey pairs).pkByIndex.get v ↔ _
    unfold IndexTable.insertManySortedByKey
    rw [htable, Multimap.mem_get_insertAll]
    simp [Write.pairs]

end Index

theorem indexShard_lawful (f : IndexFactory) :
    (indexShard f : ShardTable (IndexTable K V) K V).Lawful IndexRep fun _ _ => True where
  find ht k := congrArg (Option.map some) (ht.1 k)
  keysOf ht v k := ht.2 v k
  write {t m w} ht hs hk _ := by
    refine ⟨fun k => ?_, fun v k => ?_⟩
    · rw [indexByPk_write, funext ht.1]
    · rw [mem_pkByIndex_write, hk.putAll_eq_some hs, ht.2]
  write_bad _ _ _ hg := absurd trivial hg
  listed {t m k v} ht hv w := (mem_pkByIndex_write f t w v k).mpr (Or.inr ((ht.2 v k).mpr hv))
  deleteKv {t m} ht k := by
    show (t.deleteKv k).1 = _ ∧ IndexRep (t.deleteKv k).2 _
    unfold IndexTable.deleteKv
    rw [ht.1]
    cases hm : m k with
    | none =>
      refine ⟨rfl, fun k' => ?_, fun v k' => ?_⟩
      · rw [ht.1]
        unfold eraseMap
        split <;> simp_all
      · rw [ht.2]
        unfold eraseMap
        split <;> simp_all
    | some v =>
      refine ⟨by simpa [ht.2] using hm, fun k' => ?_, fun v' k' => ?_⟩
      · show (t.indexByPk.remove k).get k' = _
        rw [Table.get_remove, ht.1]
        rfl
      · show k' ∈ (t.pkByIndex.remove v k).get v' ↔ _
        rw [Multimap.mem_get_remove, ht.2]
        unfold eraseMap
        by_cases hk' : k' = k
        · subst hk'
          simp [hm, eq_comm]
        · simp [hk']
  reopen ht := ht

/-! ### Dictionary shards -/

/-- The tables of a dictionary column as a shard. -/
def dictShard (f : DictFactory) : ShardTable (DictTable K V) K V where
  insertKv := DictTable.insertKv
  insertManySortedByKey := DictTable.insertManySortedByKey
  deleteKv := DictTable.deleteKv
  reopen t := f.openForWrite t.toDictTables
  find t k := (t.dictPkByKey.get k).map t.valueByDictPk.get
  keysOf t v := t.listedKeys v

/-- The first pair of each new value does not take over a birth id that is in use. -/
def NoBatchClash (t : DictTables K V) (pairs : List (K × V)) : Prop :=
  ∀ xs k v ys, pairs = xs ++ (k, v) :: ys → v ∉ xs.map Prod.snd → ¬ t.BirthClash k v

/-- The condition on a write of a dictionary shard. -/
def DictGood (t : DictTable K V) : Write K V → Prop
  | .insertKv k v => ¬ t.BirthClash k v
  | .insertManySortedByKey pairs => NoBatchClash t.toDictTables pairs ∧
      RepeatsCached (cacheCap t.cache) (fun v => t.valueToDictPk.get v ≠ none) (pairs.map Prod.snd)

/-! ### What a bulk insert does in any case -/

namespace DictTable

/-- After the pairs `hist` of a bulk insert on the column `d`, whether its cache was large enough or
not: known values keep their birth ids. -/
structure Trace (d : DictTable K V) (hist : List (K × V)) (s : Batch K V) : Prop where
  base : s.table.valueToDictPk = d.valueToDictPk
  usersBase : s.table.dictPkToKeys = d.dictPkToKeys
  new : ∀ vb ∈ s.valueToPkBatch, d.valueToDictPk.get vb.1 = none
  cached : ∀ v b, cachePeek s.table.cache (cacheKey v) = some b →
    d.valueToDictPk.get v = some b ∨ d.valueToDictPk.get v = none ∧ v ∈ hist.map Prod.snd
  frame : ∀ k, k ∉ hist.map Prod.fst → s.table.dictPkByKey.get k = d.dictPkByKey.get k

section Trace

variable {d : DictTable K V} {hist : List (K × V)} {s : Batch K V}

/-- The two things a turn can do: link the key to a birth id, which is the known one if the value is
known, or make the key the birth id of a value that is not known. -/
lemma Trace.step_cases (h : Trace d hist s) (k : K) (v : V) :
    (∃ b cache, (d.valueToDictPk.get v = some b ∨ d.valueToDictPk.get v = none ∧
      v ∈ hist.map Prod.snd) ∧
      batchStep s (k, v) = { s with
        table := { s.table with cache := cache, dictPkByKey := s.table.dictPkByKey.insert k b }
        pkToKeysBatch := s.pkToKeysBatch ++ [(b, k)] } ∧
      ∀ v' b', cachePeek cache (cacheKey v') = some b' →
        (v' = v ∧ b' = b) ∨ cachePeek s.table.cache (cacheKey v') = some b') ∨
    (d.valueToDictPk.get v = none ∧ batchStep s (k, v) =
      { table := { s.table with
          dictPkByKey := s.table.dictPkByKey.insert k k
          valueByDictPk := s.table.valueByDictPk.insert k v
          cache := cachePut s.table.cache (cacheKey v) k }
        pkToKeysBatch := s.pkToKeysBatch ++ [(k, k)]
        valueToPkBatch := s.valueToPkBatch ++ [(v, k)] }) := by
  cases hc : cachePeek s.table.cache (cacheKey v) with
  | some b =>
    refine Or.inl ⟨b, _, h.cached v b hc, batchStep_of_hit hc, fun v' b' hp => Or.inr ?_⟩
    rwa [cachePeek_cacheGet] at hp
  | none =>
    cases hv : s.table.valueToDictPk.get v with
    | some b =>
      refine Or.inl ⟨b, _, Or.inl (by rw [← h.base, hv]), batchStep_of_known hc hv, fun v' b' hp => ?_⟩
      rcases cachePeek_cachePut hp with ⟨hv', rfl⟩ | ⟨-, hp⟩
      · exact Or.inl ⟨cacheKey_injective hv', rfl⟩
      · exact Or.inr hp
    | none => exact Or.inr ⟨by rw [← h.base, hv], batchStep_of_new hc hv⟩

lemma Trace.step (h : Trace d hist s) (k : K) (v : V) :
    Trace d (hist ++ [(k, v)]) (batchStep s (k, v)) := by
  have hsub : ∀ v', v' ∈ hist.map Prod.snd → v' ∈ (hist ++ [(k, v)]).map Prod.snd := by
    intro v' hv'
    rw [List.map_append]
    exact List.mem_append_left _ hv'
  have hself : v ∈ (hist ++ [(k, v)]).map Prod.snd := by simp
  have hframe : ∀ k', k' ∉ (hist ++ [(k, v)]).map Prod.fst →
      (batchStep s (k, v)).table.dictPkByKey.get k' = d.dictPkByKey.get k' := by
    intro k' hk'
    rw [List.map_append, List.mem_append, not_or] at hk'
    rw [byKey_batchStep_of_ne s v (by simpa using hk'.2), h.frame k' hk'.1]
  rcases h.step_cases k v with ⟨b, cache, hb, he, hc⟩ | ⟨hv, he⟩
  · rw [he] at hframe ⊢
    refine ⟨h.base, h.usersBase, h.new, fun v' b' hp => ?_, hframe⟩
    rcases hc v' b' hp with ⟨rfl, rfl⟩ | hp
    · exact hb.imp_right fun hn => ⟨hn.1, hself⟩
    · exact (h.cached v' b' hp).imp_right fun hn => ⟨hn.1, hsub v' hn.2⟩
  · rw [he] at hframe ⊢
    refine ⟨h.base, h.usersBase, fun vb hvb => ?_, fun v' b' hp => ?_, hframe⟩
    · rcases List.mem_append.mp hvb with hvb | hvb
      · exact h.new vb hvb
      · rw [List.mem_singleton.mp hvb]
        exact hv
    · rcases cachePeek_cachePut hp with ⟨hv', rfl⟩ | ⟨-, hp⟩
      · obtain rfl := cacheKey_injective hv'
        exact Or.inr ⟨hv, hself⟩
      · exact (h.cached v' b' hp).imp_right fun hn => ⟨hn.1, hsub v' hn.2⟩

/-- The state of a bulk insert after the pairs `pairs`. -/
def batchRun (d : DictTable K V) (pairs : List (K × V)) :
    Batch K V := pairs.foldl batchStep ⟨d, [], []⟩

lemma batchRun_concat (pairs : List (K × V)) (kv : K × V) :
    batchRun d (pairs ++ [kv]) = batchStep (batchRun d pairs) kv := by
  unfold batchRun
  rw [List.foldl_append]
  rfl

lemma trace_batchRun (hd : d.CacheAgrees) (pairs : List (K × V)) :
    Trace d pairs (batchRun d pairs) := by
  induction pairs using List.reverseRecOn with
  | nil => exact ⟨rfl, rfl, by simp [batchRun], fun v b hp => Or.inl (hd v b hp), fun _ _ => rfl⟩
  | append_singleton pairs kv ih =>
    rw [batchRun_concat]
    exact ih.step kv.1 kv.2

lemma pkToKeysBatch_mono (pairs pairs' : List (K × V)) :
    (batchRun d pairs).pkToKeysBatch ⊆ (batchRun d (pairs ++ pairs')).pkToKeysBatch := by
  induction pairs' using List.reverseRecOn with
  | nil =>
    rw [List.append_nil]
    exact List.Subset.refl _
  | append_singleton pairs' kv ih =>
    refine List.Subset.trans ih ?_
    rw [← List.append_assoc, batchRun_concat]
    unfold batchStep
    split
    · exact List.subset_append_left _ _
    · split <;> exact List.subset_append_left _ _

/-- The first pair of a new value makes its key a user of itself. -/
lemma mem_pkToKeysBatch_of_new (hd : d.CacheAgrees) {xs ys : List (K × V)} {k : K} {v : V}
    (hv : d.valueToDictPk.get v = none) (hxs : v ∉ xs.map Prod.snd) :
    (k, k) ∈ (batchRun d (xs ++ (k, v) :: ys)).pkToKeysBatch := by
  have hsplit : xs ++ (k, v) :: ys = xs ++ [(k, v)] ++ ys := by simp
  rw [hsplit]
  refine pkToKeysBatch_mono _ _ ?_
  rw [batchRun_concat]
  rcases (trace_batchRun hd xs).step_cases k v with ⟨b, cache, hb, -, -⟩ | ⟨-, he⟩
  · rcases hb with hb | hb
    · rw [hv] at hb
      cases hb
    · exact absurd hb.2 hxs
  · rw [he]
    simp

lemma mem_users_insertMany (hd : d.CacheAgrees) (pairs : List (K × V)) (b k : K) :
    k ∈ (d.insertManySortedByKey pairs).dictPkToKeys.get b ↔
      (b, k) ∈ (batchRun d pairs).pkToKeysBatch ∨ k ∈ d.dictPkToKeys.get b := by
  have hperm := List.mergeSort_perm (batchRun d pairs).pkToKeysBatch fun a b => decide (a.1 ≤ b.1)
  have htable := Multimap.insertAll_perm hperm (batchRun d pairs).table.dictPkToKeys
  show k ∈ (flushBatch (batchRun d pairs)).dictPkToKeys.get b ↔ _
  unfold flushBatch
  rw [htable, Multimap.mem_get_insertAll, (trace_batchRun hd pairs).usersBase]

/-- A known value keeps its birth id. -/
lemma valueToDictPk_insertMany (hd : d.CacheAgrees) (pairs : List (K × V)) {v : V} {b : K}
    (hv : d.valueToDictPk.get v = some b) :
    (d.insertManySortedByKey pairs).valueToDictPk.get v = some b := by
  have htrace := trace_batchRun hd pairs
  show (flushBatch (batchRun d pairs)).valueToDictPk.get v = some b
  unfold flushBatch
  rw [Table.get_insertAll_of_notMem, htrace.base, hv]
  intro vb hvb heq
  rw [List.mem_mergeSort] at hvb
  rw [← heq, htrace.new vb hvb] at hv
  cases hv

lemma mem_listedKeys_insertMany (hd : d.CacheAgrees) (pairs : List (K × V)) {v : V} {b : K}
    (hv : d.valueToDictPk.get v = some b) (k : K) :
    k ∈ (d.insertManySortedByKey pairs).listedKeys v ↔
      (b, k) ∈ (batchRun d pairs).pkToKeysBatch ∨ k ∈ d.dictPkToKeys.get b := by
  unfold DictTables.listedKeys DictTables.dictKeys
  rw [valueToDictPk_insertMany hd pairs hv]
  exact mem_users_insertMany hd pairs b k

/-- The two key tables stay inverse to each other when no row is overwritten with another value. -/
lemma users_batchRun {m : K → Option V} (h : DictRep d m) {pairs : List (K × V)}
    (hnd : (pairs.map Prod.fst).Nodup) (hk : ∀ kv ∈ pairs, m kv.1 = none ∨ m kv.1 = some kv.2)
    (b k : K) :
    ((b, k) ∈ (batchRun d pairs).pkToKeysBatch ∨ k ∈ d.dictPkToKeys.get b) ↔
      (batchRun d pairs).table.dictPkByKey.get k = some b := by
  obtain ⟨hd, hinv, hval⟩ := h
  induction pairs using List.reverseRecOn generalizing b k with
  | nil =>
    show (_ ∈ [] ∨ _) ↔ d.dictPkByKey.get k = some b
    rw [← hinv.users]
    simp
  | append_singleton pairs kv ih =>
    obtain ⟨k₀, v⟩ := kv
    rw [List.map_append, List.nodup_append] at hnd
    have hk₀ : k₀ ∉ pairs.map Prod.fst := fun hm => hnd.2.2 k₀ hm k₀ (by simp) rfl
    have hold := ih hnd.1 fun kv hkv => hk kv (List.mem_append_left _ hkv)
    have htrace := trace_batchRun hd pairs
    have hrow := htrace.frame k₀ hk₀
    -- the row of the key, if there is one already, is the one that is written again
    have hsame : ∀ b₀, d.dictPkByKey.get k₀ = some b₀ → d.valueToDictPk.get v = some b₀ := by
      intro b₀ hb₀
      obtain ⟨v', hv'⟩ := hinv.valued k₀ b₀ hb₀
      have hread : m k₀ = some v' := by
        rw [← hval]
        exact DictTables.getValue_eq_some.mpr ⟨b₀, hb₀, hv'⟩
      rcases hk (k₀, v) (by simp) with hm | hm
      · rw [hread] at hm
        cases hm
      · rw [hread] at hm
        obtain rfl := Option.some.inj hm
        exact (hinv.values v' b₀).mpr hv'
    have hwrite : ∀ x, (∀ b₀, d.dictPkByKey.get k₀ = some b₀ → b₀ = x) →
        (((b, k) ∈ (batchRun d pairs).pkToKeysBatch ++ [(x, k₀)] ∨ k ∈ d.dictPkToKeys.get b) ↔
          ((batchRun d pairs).table.dictPkByKey.insert k₀ x).get k = some b) := by
      intro x hx
      rw [List.mem_append, List.mem_singleton, Prod.mk.injEq, or_right_comm, hold, Table.get_insert]
      by_cases hkk : k = k₀
      · subst hkk
        rw [if_pos rfl, hrow]
        constructor
        · rintro (hb | ⟨rfl, -⟩)
          · rw [hx b hb]
          · rfl
        · intro hb
          exact Or.inr ⟨(Option.some.inj hb).symm, rfl⟩
      · rw [if_neg hkk]
        simp [hkk]
    rw [batchRun_concat]
    rcases htrace.step_cases k₀ v with ⟨x, cache, hx, he, -⟩ | ⟨hv, he⟩
    · rw [he]
      refine hwrite x fun b₀ hb₀ => ?_
      rcases hx with hx | ⟨hx, -⟩
      · rw [hsame b₀ hb₀] at hx
        exact Option.some.inj hx
      · rw [hsame b₀ hb₀] at hx
        cases hx
    · rw [he]
      refine hwrite k₀ fun b₀ hb₀ => ?_
      rw [hsame b₀ hb₀] at hv
      cases hv

end Trace

end DictTable

/-! ### Good and bad writes of a dictionary shard -/

section DictWrites

variable {d : DictTable K V} {m : K → Option V}

/-- The pairs inserted one by one keep the map. -/
lemma DictRep.insertEach {pairs : List (K × V)} (h : DictRep d m) (hnd : (pairs.map Prod.fst).Nodup)
    (hk : ∀ kv ∈ pairs, m kv.1 = none ∨ m kv.1 = some kv.2) (hc : NoBatchClash d.toDictTables pairs) :
    DictRep (d.insertEach pairs) (putAll m pairs) := by
  induction pairs generalizing d m with
  | nil => exact h
  | cons kv pairs ih =>
    obtain ⟨k, v⟩ := kv
    obtain ⟨hkp, hnd⟩ := List.nodup_cons.mp hnd
    refine ih (h.insertKv (hk _ List.mem_cons_self) (hc [] k v pairs rfl (by simp))) hnd ?_ ?_
    · intro kv hkv
      show putMap m k v kv.1 = none ∨ putMap m k v kv.1 = some kv.2
      rw [putMap_of_ne]
      · exact hk kv (List.mem_cons_of_mem _ hkv)
      · rintro heq
        exact hkp (List.mem_map.mpr ⟨kv, hkv, heq⟩)
    · -- a value that is new after the first pair was new before, and its key is another one
      rintro xs k' v' ys rfl hv' ⟨hnew, hbirth⟩
      have hkk : k' ≠ k := by
        rintro rfl
        exact hkp (by simp)
      rw [DictTable.insertKv_tables h.1] at hnew hbirth
      have hclash : v' ≠ v ∧ d.BirthClash k' v' := by
        cases hv : d.valueToDictPk.get v with
        | some b =>
          rw [DictTables.put_of_some hv] at hnew hbirth
          refine ⟨?_, hnew, hbirth⟩
          rintro rfl
          rw [show (d.toDictTables.link k b).valueToDictPk = d.valueToDictPk from rfl, hv] at hnew
          cases hnew
        | none =>
          rw [DictTables.put_of_none hv] at hnew hbirth
          replace hnew : (d.valueToDictPk.insert v k).get v' = none := hnew
          replace hbirth : (d.valueByDictPk.insert k v).get k' ≠ none := hbirth
          rw [Table.get_insert_of_ne _ _ hkk] at hbirth
          rw [Table.get_insert] at hnew
          split at hnew
          · cases hnew
          · rename_i hne
            exact ⟨hne, hnew, hbirth⟩
      refine hc ((k, v) :: xs) k' v' ys rfl ?_ hclash.2
      rw [List.map_cons, List.mem_cons, not_or]
      exact ⟨hclash.1, hv'⟩

lemma DictRep.insertMany {pairs : List (K × V)} (h : DictRep d m) (hnd : (pairs.map Prod.fst).Nodup)
    (hk : ∀ kv ∈ pairs, m kv.1 = none ∨ m kv.1 = some kv.2)
    (hg : DictGood d (.insertManySortedByKey pairs)) :
    DictRep (d.insertManySortedByKey pairs) (putAll m pairs) := by
  have hlost := DictTable.never_lost_iff.mpr hg.2
  have hlock := (DictTable.lock_init h.1).foldl hlost
  have heq : d.insertManySortedByKey pairs = d.insertEach pairs := hlock.flush
  rw [heq]
  exact h.insertEach hnd hk hg.1

/-- The value whose birth id a clash takes over. -/
lemma DictRep.of_clash (h : DictRep d m) {k : K} {v : V} (hc : d.BirthClash k v) :
    ∃ w, d.valueToDictPk.get w = some k ∧ v ≠ w ∧ ∃ k', m k' = some w := by
  obtain ⟨w, hw⟩ := Option.ne_none_iff_exists'.mp hc.2
  have hkw := (h.2.1.values w k).mpr hw
  obtain ⟨k', hk'⟩ := h.2.1.used k w hw
  refine ⟨w, hkw, ?_, k', ?_⟩
  · rintro rfl
    rw [hc.1] at hkw
    cases hkw
  · rw [← h.2.2]
    exact DictTables.getValue_eq_some.mpr ⟨k, hk', hw⟩

/-- After a clash the key stands on the list of the value whose birth id it took. -/
lemma DictRep.insertKv_bad (h : DictRep d m) {k : K} {v : V} (hc : d.BirthClash k v) :
    ∃ w, (∃ k', m k' = some w) ∧ v ≠ w ∧ k ∈ (d.insertKv k v).listedKeys w := by
  obtain ⟨w, hkw, hvw, hw⟩ := h.of_clash hc
  refine ⟨w, hw, hvw, ?_⟩
  rw [DictTable.insertKv_tables h.1, DictTables.put_of_none hc.1]
  unfold DictTables.listedKeys DictTables.dictKeys
  rw [show (d.toDictTables.birth k v).valueToDictPk = d.valueToDictPk.insert v k from rfl,
    Table.get_insert_of_ne _ _ hvw.symm, hkw]
  show k ∈ (d.dictPkToKeys.insert k k).get k
  rw [Multimap.mem_get_insert]
  exact Or.inl ⟨rfl, rfl⟩

lemma DictRep.insertMany_clash (h : DictRep d m) {pairs : List (K × V)}
    (hc : ¬ NoBatchClash d.toDictTables pairs) :
    ∃ w k v, (k, v) ∈ pairs ∧ (∃ k', m k' = some w) ∧ v ≠ w ∧
      k ∈ (d.insertManySortedByKey pairs).listedKeys w := by
  unfold NoBatchClash at hc
  push Not at hc
  obtain ⟨xs, k, v, ys, rfl, hxs, hclash⟩ := hc
  obtain ⟨w, hkw, hvw, hw⟩ := h.of_clash hclash
  refine ⟨w, k, v, by simp, hw, hvw, ?_⟩
  rw [DictTable.mem_listedKeys_insertMany h.1 _ hkw]
  exact Or.inl (DictTable.mem_pkToKeysBatch_of_new h.1 hclash.1 hxs)

/-- The first lost value of a bulk insert. -/
lemma exists_first_lost {pairs : List (K × V)}
    (h : ¬ ∀ p k v, p ++ [(k, v)] <+: pairs → ¬ DictTable.Lost d p v) :
    ∃ p k v, p ++ [(k, v)] <+: pairs ∧ DictTable.Lost d p v ∧
      ∀ q k' v', q ++ [(k', v')] <+: p → ¬ DictTable.Lost d q v' := by
  by_contra hnone
  push Not at hnone
  refine h fun p => ?_
  induction hn : p.length using Nat.strong_induction_on generalizing p with
  | _ n ih =>
    subst hn
    intro k v hp hl
    obtain ⟨q, k', v', hq, hlq⟩ := hnone p k v hp hl
    have hlen : q.length < p.length := by
      have := hq.length_le
      rw [List.length_append, List.length_singleton] at this
      omega
    exact ih q.length hlen q rfl k' v' (hq.trans (prefix_of_concat hp)) hlq

/-- After a loss two keys with the same value are users of two birth ids, and cannot both be listed. -/
lemma DictRep.insertMany_lost (h : DictRep d m) {pairs : List (K × V)}
    (hnd : (pairs.map Prod.fst).Nodup) (hk : ∀ kv ∈ pairs, m kv.1 = none ∨ m kv.1 = some kv.2)
    (hc : NoBatchClash d.toDictTables pairs)
    (hl : ¬ ∀ p k v, p ++ [(k, v)] <+: pairs → ¬ DictTable.Lost d p v) :
    ∃ v k, (k, v) ∈ pairs ∧ k ∉ (d.insertManySortedByKey pairs).listedKeys v := by
  obtain ⟨p, k, v, hp, hlost, hfirst⟩ := exists_first_lost hl
  obtain ⟨q, rfl⟩ := hp
  -- up to the loss the two runs agree, so an earlier key `k₁` of `v` has the first birth id `b` of `v`
  have hlock := (DictTable.lock_init h.1).foldl hfirst
  rw [List.nil_append] at hlock
  have hnd' : (p.map Prod.fst ++ k :: q.map Prod.fst).Nodup := by simpa using hnd
  obtain ⟨hndp, hndq, hdisj⟩ := List.nodup_append.mp hnd'
  have hkp : k ∉ p.map Prod.fst := fun hm => hdisj k hm k List.mem_cons_self rfl
  have hrep : DictRep (d.insertEach p) (putAll m p) := by
    refine h.insertEach hndp (fun kv hkv => hk kv (by simp [hkv])) fun xs k' v' ys heq => ?_
    exact hc xs k' v' (ys ++ (k, v) :: q) (by rw [heq]; simp)
  obtain ⟨⟨k₁, v₁⟩, hkv₁, rfl⟩ := List.mem_map.mp hlost.2.1
  obtain ⟨b, hb, hbv⟩ := hlock.get_of_pending hlost.1 hlost.2.1
  have hk₁ : (d.insertEach p).dictPkByKey.get k₁ = some b := by
    obtain ⟨b', hb', hv'⟩ :=
      DictTables.getValue_eq_some.mp ((hrep.2.2 k₁).trans (putAll_of_mem hndp hkv₁ m))
    rw [← hrep.2.1.values, hbv] at hv'
    rw [hb', Option.some.inj hv']
  have hkq : k ∉ q.map Prod.fst := (List.nodup_cons.mp hndq).1
  have hk₁q : k₁ ∉ ((k, v₁) :: q).map Prod.fst := by
    intro hm
    exact hdisj k₁ (List.mem_map.mpr ⟨_, hkv₁, rfl⟩) k₁ hm rfl
  have hrun : DictTable.batchRun d (p ++ [(k, v₁)] ++ q) =
      ((k, v₁) :: q).foldl DictTable.batchStep (DictTable.batchRun d p) := by
    unfold DictTable.batchRun
    simp [List.foldl_append]
  -- after the loss `k` is the user of itself, while `k₁` keeps `b`
  have hrow₁ : (DictTable.batchRun d (p ++ [(k, v₁)] ++ q)).table.dictPkByKey.get k₁ = some b := by
    rw [hrun, DictTable.byKey_foldl_batchStep_of_notMem hk₁q, ← hk₁, ← hlock.byKey]
    rfl
  have hrow : (DictTable.batchRun d (p ++ [(k, v₁)] ++ q)).table.dictPkByKey.get k = some k := by
    obtain ⟨hv, -, hmiss⟩ := hlock.lost_iff.mp hlost
    rw [hrun, List.foldl_cons, DictTable.byKey_foldl_batchStep_of_notMem hkq]
    rw [DictTable.batchStep_of_new]
    · exact Table.get_insert_self ..
    · rw [show (DictTable.batchRun d p).table.cache = _ from hlock.cache, hmiss]
    · rw [show (DictTable.batchRun d p).table.valueToDictPk = _ from hlock.base, hv]
  have husers := DictTable.users_batchRun h hnd hk
  by_contra hall
  push Not at hall
  have h₁ := hall v₁ k₁ (by simp [hkv₁])
  have h₂ := hall v₁ k (by simp)
  unfold DictTables.listedKeys DictTables.dictKeys at h₁ h₂
  cases hx : (d.insertManySortedByKey (p ++ [(k, v₁)] ++ q)).valueToDictPk.get v₁ with
  | none =>
    rw [hx] at h₁
    simp at h₁
  | some x =>
    rw [hx, Option.map_some, Option.getD_some, DictTable.mem_users_insertMany h.1, husers] at h₁ h₂
    rw [hrow₁] at h₁
    rw [hrow] at h₂
    have hbk : b = k := Option.some.inj (h₁.trans h₂.symm)
    exact hkp (hbk ▸ hb)

/-- A single insert takes no key off a list. -/
lemma DictRep.listed_insertKv (h : DictRep d m) {k : K} {v : V} {b : K}
    (hv : d.valueToDictPk.get v = some b) (hk : k ∈ d.dictPkToKeys.get b) (k' : K) (v' : V) :
    k ∈ (d.insertKv k' v').listedKeys v := by
  rw [DictTable.insertKv_tables h.1]
  unfold DictTables.listedKeys DictTables.dictKeys
  cases hv' : d.valueToDictPk.get v' with
  | some b' =>
    rw [DictTables.put_of_some hv',
      show (d.toDictTables.link k' b').valueToDictPk = d.valueToDictPk from rfl, hv]
    show k ∈ (d.dictPkToKeys.insert b' k').get b
    exact Multimap.mem_get_insert.mpr (Or.inr hk)
  | none =>
    have hne : v ≠ v' := by
      rintro rfl
      rw [hv] at hv'
      cases hv'
    rw [DictTables.put_of_none hv',
      show (d.toDictTables.birth k' v').valueToDictPk = d.valueToDictPk.insert v' k' from rfl,
      Table.get_insert_of_ne _ _ hne, hv]
    show k ∈ (d.dictPkToKeys.insert k' k').get b
    exact Multimap.mem_get_insert.mpr (Or.inr hk)

/-- A delete reports whether the key was there. -/
lemma DictRep.deleteKv_fst (h : DictRep d m) (k : K) : (d.deleteKv k).1 = (m k).isSome := by
  obtain ⟨-, hinv, hval⟩ := h
  rw [← hval]
  unfold DictTable.deleteKv
  cases hk : d.dictPkByKey.get k with
  | none =>
    rw [DictTables.getValue_of_absent hk]
    rfl
  | some b =>
    obtain ⟨v, hv⟩ := hinv.valued k b hk
    rw [DictTables.getValue_eq_some.mpr ⟨b, hk, hv⟩]
    have hmem : k ∈ d.dictPkToKeys.get b := (hinv.users b k).mpr hk
    simp only [hmem, decide_true]
    split
    · split <;> rfl
    · rfl

end DictWrites

theorem dictShard_lawful (f : DictFactory) :
    (dictShard f : ShardTable (DictTable K V) K V).Lawful DictRep DictGood where
  find {t m} ht k := by
    show (t.dictPkByKey.get k).map t.valueByDictPk.get = _
    have hval := ht.2.2 k
    cases hk : t.dictPkByKey.get k with
    | none =>
      rw [DictTables.getValue_of_absent hk] at hval
      rw [← hval]
      rfl
    | some b =>
      obtain ⟨v, hv⟩ := ht.2.1.valued k b hk
      rw [DictTables.getValue_eq_some.mpr ⟨b, hk, hv⟩] at hval
      rw [← hval]
      exact congrArg some hv
  keysOf ht v k := ht.mem_listedKeys v k
  write {t m w} ht hs hk hg := by
    cases w with
    | insertKv k v => exact ht.insertKv (hk (k, v) (by simp [Write.pairs])) hg
    | insertManySortedByKey pairs => exact ht.insertMany hs.nodup hk hg
  write_bad {t m w} ht hs hk hg := by
    cases w with
    | insertKv k v =>
      obtain ⟨v₀, hv₀, hne, hlisted⟩ := ht.insertKv_bad (not_not.mp hg)
      refine ⟨v₀, k, Or.inr hv₀, fun hiff => hne ?_⟩
      have := (hiff.mp hlisted).symm.trans (putMap_self m k v)
      exact (Option.some.inj this).symm
    | insertManySortedByKey pairs =>
      by_cases hc : NoBatchClash t.toDictTables pairs
      · have hl : ¬ ∀ p k v, p ++ [(k, v)] <+: pairs → ¬ DictTable.Lost t p v := by
          rw [DictTable.never_lost_iff]
          exact fun hr => hg ⟨hc, hr⟩
        obtain ⟨v, k, hkv, hnot⟩ := ht.insertMany_lost hs.nodup hk hc hl
        refine ⟨v, k, Or.inl (List.mem_map.mpr ⟨_, hkv, rfl⟩), fun hiff => hnot (hiff.mpr ?_)⟩
        exact putAll_of_mem hs.nodup hkv m
      · obtain ⟨v₀, k, v, hkv, hv₀, hne, hlisted⟩ := ht.insertMany_clash hc
        refine ⟨v₀, k, Or.inr hv₀, fun hiff => hne ?_⟩
        have := (hiff.mp hlisted).symm.trans (putAll_of_mem hs.nodup hkv m)
        exact (Option.some.inj this).symm
  listed {t m k v} ht hv w := by
    obtain ⟨b, hb, hbv⟩ := DictTables.getValue_eq_some.mp ((ht.2.2 k).trans hv)
    have hvb := (ht.2.1.values v b).mpr hbv
    have hkb := (ht.2.1.users b k).mpr hb
    cases w with
    | insertKv k' v' => exact ht.listed_insertKv hvb hkb k' v'
    | insertManySortedByKey pairs =>
      exact (DictTable.mem_listedKeys_insertMany ht.1 pairs hvb k).mpr (Or.inr hkb)
  deleteKv {t m} ht k := ⟨ht.deleteKv_fst k, ht.deleteKv k⟩
  reopen {t m} ht := ⟨DictTable.cacheAgrees_openForWrite f _, ht.2.1, ht.2.2⟩

/-! ### Runs on sharded columns -/

section Runs

variable (n : ℕ) [NeZero n] (hash : V → ℕ)

/-- An empty index column of `n` shards. -/
def emptyIndex (f : IndexFactory) : Column n (IndexTable K V) := fun _ =>
    f.openForWrite IndexTables.empty

/-- An empty dictionary column of `n` shards. -/
def emptyDict (f : DictFactory) : Column n (DictTable K V) := fun _ => f.openForWrite DictTables.empty

lemma columnRep_emptyIndex (f : IndexFactory) :
    ColumnRep IndexRep hash (emptyIndex n f : Column n (IndexTable K V)) fun _ => none :=
  fun _ => indexRep_empty f

lemma columnRep_emptyDict (f : DictFactory) :
    ColumnRep DictRep hash (emptyDict n f : Column n (DictTable K V)) fun _ => none :=
  fun _ => dictRep_empty f

/-- **Runs on index and dictionary columns read as the plain map they describe, at every moment,
exactly when no write overwrites a row with another value and, in a dictionary, every shard gets
good writes.** -/
theorem overwrite_refines_iff (fi : IndexFactory) (fd : DictFactory) (ops : List (ColumnOp K V))
    (hsorted : ∀ op ∈ ops, op.Sorted) :
    ((∀ p, p <+: ops → (run (Column.apply (indexShard fi) hash) (emptyIndex n fi) p).Refines
      (indexShard fi) hash
        (run mapApply (fun _ => none) p)) ↔
      EachStep (Column.apply (indexShard fi) hash)
        (fun c op => op.Good (indexShard fi) hash (fun _ _ => True) c) (emptyIndex n fi) ops) ∧
    ((∀ p, p <+: ops → (run (Column.apply (dictShard fd) hash) (emptyDict n fd) p).Refines
      (dictShard fd) hash
        (run mapApply (fun _ => none) p)) ↔
      EachStep (Column.apply (dictShard fd) hash)
        (fun c op => op.Good (dictShard fd) hash DictGood c) (emptyDict n fd) ops) :=
  ⟨column_refines_iff (indexShard_lawful fi) (columnRep_emptyIndex n hash fi) ops hsorted,
    column_refines_iff (dictShard_lawful fd) (columnRep_emptyDict n hash fd) ops hsorted⟩

/-- The value of key `1` is overwritten: in both kinds of column the old value still lists the key, and
with two shards the old value is still the one that is read. -/
theorem overwrite_keeps_old_row :
    let ops : List (ColumnOp ℕ ℕ) := [.write (.insertKv 1 10), .write (.insertKv 1 21)]
    let index := run (Column.apply (indexShard (.new 0)) id) (emptyIndex 2 (.new 0)) ops
    let dict := run (Column.apply (dictShard (.new 0)) id) (emptyDict 2 (.new 0)) ops
    (∀ op ∈ ops, op.Sorted) ∧ run mapApply (fun _ => none) ops 1 = some 21 ∧
      (index.getValue (indexShard (.new 0)) 1 = some 10 ∧
        1 ∈ index.keysOf (indexShard (.new 0)) id 10) ∧
      dict.getValue (dictShard (.new 0)) 1 = some 10 ∧ 1 ∈ dict.keysOf (dictShard (.new 0)) id 10 := by
  refine ⟨?_, by decide, by decide, by decide⟩
  simp [ColumnOp.Sorted, Write.Sorted, Write.pairs]

/-- A run on three shards that writes a row twice with the same value, and deletes one. -/
theorem overwrite_same_value :
    let ops : List (ColumnOp ℕ ℕ) := [.write (.insertKv 1 10), .write (.insertKv 1 10), .deleteKv 1]
    (run (Column.apply (indexShard (.new 4)) id) (emptyIndex 3 (.new 4)) ops).Refines
      (indexShard (.new 4)) id
        (run mapApply (fun _ => none) ops) ∧
      (run (Column.apply (dictShard (.new 4)) id) (emptyDict 3 (.new 4)) ops).Refines
        (dictShard (.new 4)) id (run mapApply (fun _ => none) ops) := by
  intro ops
  have hsorted : ∀ op ∈ ops, op.Sorted := by simp [ops, ColumnOp.Sorted, Write.Sorted, Write.pairs]
  have key := overwrite_refines_iff 3 id (.new 4) (.new 4) ops hsorted
  refine ⟨key.1.mpr ?_ ops List.prefix_rfl, key.2.mpr ?_ ops List.prefix_rfl⟩
  · simp only [ops, eachStep_cons, eachStep_nil, ColumnOp.Good, Write.Keeps, Write.pairs,
      List.mem_singleton, forall_eq]
    exact ⟨⟨by decide, fun _ _ _ => trivial⟩, ⟨by decide, fun _ _ _ => trivial⟩, trivial, trivial⟩
  · simp only [ops, eachStep_cons, eachStep_nil, ColumnOp.Good, Write.Keeps, Write.pairs,
      List.mem_singleton,
      forall_eq, route, Option.ite_none_right_eq_some, Option.some.injEq, and_imp]
    refine ⟨⟨by decide, ?_⟩, ⟨by decide, ?_⟩, trivial, trivial⟩
    · rintro _ _ rfl rfl
      show ¬ DictTables.BirthClash _ 1 10
      decide
    · rintro _ _ rfl rfl
      show ¬ DictTables.BirthClash _ 1 10
      decide

end Runs

end Redbit.Storage
