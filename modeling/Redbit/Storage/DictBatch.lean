import Redbit.Storage.DictRefine

/-!
# The batched insert of a dictionary column against single inserts

`insert_many_sorted_by_key` defers the writes of `dict_pk_to_keys` and `value_to_dict_pk` to its
end, and relies on the cache to know the values that the batch itself has brought in.  The two runs,
batched and one by one, stay in lockstep (`Lock`) as long as every such value is still cached when
it comes again (`Lock.step`); the first time it is not, the batch gives it a second birth id, and
the row of that key differs for good (`Lock.diverge`).

By the eviction law of the cache this is a condition on the batch alone: between two uses of a new
value there are fewer distinct other values than the cache holds (`RepeatsCached`).
-/

set_option linter.unusedSectionVars false

namespace Redbit.Storage

open Redbit.Lib

variable {K V : Type} [LinearOrder K] [LinearOrder V] [CacheKey V]

/-- The pairs inserted one by one. -/
def DictTable.insertEach (d : DictTable K V) (pairs : List (K × V)) : DictTable K V :=
  pairs.foldl (fun d kv => d.insertKv kv.1 kv.2) d

/-- A value that is not `known` and comes twice in `vs` comes again before `cap` distinct other values
have come. -/
def RepeatsCached (cap : ℕ) (known : V → Prop) (vs : List V) : Prop :=
  ∀ xs v mid ys, vs = xs ++ v :: (mid ++ v :: ys) → v ∉ mid → ¬ known v → mid.toFinset.card < cap

namespace DictTable

/-! ### One insert, branch by branch -/

section Branches

variable {d : DictTable K V} {s : Batch K V} {k b : K} {v : V}

lemma cacheGet_of_peek {c : Option (LruCache (CK V) K)} {x : CK V} {r : Option K}
    (h : cachePeek c x = r) : cacheGet c x = (r, (cacheGet c x).2) := by
  rw [← h, ← cacheGet_fst]

lemma insertKv_of_hit (hc : cachePeek d.cache (cacheKey v) = some b) :
    d.insertKv k v = { d.toDictTables.link k b with cache := (cacheGet d.cache (cacheKey v)).2 } := by
  unfold insertKv
  rw [cacheGet_of_peek hc]
  rfl

lemma insertKv_of_known (hc : cachePeek d.cache (cacheKey v) = none)
    (hv : d.valueToDictPk.get v = some b) :
    d.insertKv k v = { d.toDictTables.link k b with cache := cachePut d.cache (cacheKey v) b } := by
  unfold insertKv
  rw [cacheGet_of_peek hc, cacheGet_snd_of_none hc]
  simp only [hv]
  rfl

lemma insertKv_of_new (hc : cachePeek d.cache (cacheKey v) = none)
    (hv : d.valueToDictPk.get v = none) :
    d.insertKv k v = { d.toDictTables.birth k v with cache := cachePut d.cache (cacheKey v) k } := by
  unfold insertKv
  rw [cacheGet_of_peek hc, cacheGet_snd_of_none hc]
  simp only [hv]
  rfl

lemma batchStep_of_hit (hc : cachePeek s.table.cache (cacheKey v) = some b) :
    batchStep s (k, v) = { s with
      table := { s.table with
        cache := (cacheGet s.table.cache (cacheKey v)).2
        dictPkByKey := s.table.dictPkByKey.insert k b }
      pkToKeysBatch := s.pkToKeysBatch ++ [(b, k)] } := by
  unfold batchStep
  rw [cacheGet_of_peek hc]

lemma batchStep_of_known (hc : cachePeek s.table.cache (cacheKey v) = none)
    (hv : s.table.valueToDictPk.get v = some b) :
    batchStep s (k, v) = { s with
      table := { s.table with
        cache := cachePut s.table.cache (cacheKey v) b
        dictPkByKey := s.table.dictPkByKey.insert k b }
      pkToKeysBatch := s.pkToKeysBatch ++ [(b, k)] } := by
  unfold batchStep
  rw [cacheGet_of_peek hc, cacheGet_snd_of_none hc]
  simp only [hv]

lemma batchStep_of_new (hc : cachePeek s.table.cache (cacheKey v) = none)
    (hv : s.table.valueToDictPk.get v = none) :
    batchStep s (k, v) =
      { table := { s.table with
          dictPkByKey := s.table.dictPkByKey.insert k k
          valueByDictPk := s.table.valueByDictPk.insert k v
          cache := cachePut s.table.cache (cacheKey v) k }
        pkToKeysBatch := s.pkToKeysBatch ++ [(k, k)]
        valueToPkBatch := s.valueToPkBatch ++ [(v, k)] } := by
  unfold batchStep
  rw [cacheGet_of_peek hc, cacheGet_snd_of_none hc]
  simp only [hv]

/-- Whatever branch it takes, an insert is a use of its value in the cache. -/
lemma cache_insertKv (d : DictTable K V) (k : K) (v : V) :
    cacheCap (d.insertKv k v).cache = cacheCap d.cache ∧
      cacheKeys (d.insertKv k v).cache = touch (cacheCap d.cache) (cacheKeys d.cache)
        (cacheKey v) := by
  cases hc : cachePeek d.cache (cacheKey v) with
  | some b =>
    rw [insertKv_of_hit hc]
    exact ⟨cacheCap_cacheGet .., cacheKeys_cacheGet hc⟩
  | none =>
    cases hv : d.valueToDictPk.get v with
    | some b =>
      rw [insertKv_of_known hc hv]
      exact ⟨cacheCap_cachePut .., cacheKeys_cachePut ..⟩
    | none =>
      rw [insertKv_of_new hc hv]
      exact ⟨cacheCap_cachePut .., cacheKeys_cachePut ..⟩

/-- An insert writes the row of its own key only. -/
lemma byKey_insertKv_of_ne (d : DictTable K V) (v : V) {k k' : K} (hne : k' ≠ k) :
    (d.insertKv k v).dictPkByKey.get k' = d.dictPkByKey.get k' := by
  unfold insertKv
  split
  · exact Table.get_insert_of_ne _ _ hne
  · split <;> exact Table.get_insert_of_ne _ _ hne

lemma byKey_batchStep_of_ne (s : Batch K V) (v : V) {k k' : K} (hne : k' ≠ k) :
    (batchStep s (k, v)).table.dictPkByKey.get k' = s.table.dictPkByKey.get k' := by
  unfold batchStep
  split
  · exact Table.get_insert_of_ne _ _ hne
  · split <;> exact Table.get_insert_of_ne _ _ hne

lemma byKey_insertEach_of_notMem {pairs : List (K × V)} {k : K} (hk : k ∉ pairs.map Prod.fst)
    (d : DictTable K V) : (d.insertEach pairs).dictPkByKey.get k = d.dictPkByKey.get k := by
  induction pairs generalizing d with
  | nil => rfl
  | cons kv pairs ih =>
    rw [List.map_cons, List.mem_cons, not_or] at hk
    exact (ih hk.2 _).trans (byKey_insertKv_of_ne _ _ hk.1)

lemma byKey_foldl_batchStep_of_notMem {pairs : List (K × V)} {k : K} (hk : k ∉ pairs.map Prod.fst)
    (s : Batch K V) : (pairs.foldl batchStep s).table.dictPkByKey.get k =
      s.table.dictPkByKey.get k := by
  induction pairs generalizing s with
  | nil => rfl
  | cons kv pairs ih =>
    rw [List.map_cons, List.mem_cons, not_or] at hk
    exact (ih hk.2 _).trans (byKey_batchStep_of_ne _ _ hk.1)

end Branches

/-! ### Lockstep -/

/-- The uses of the cache by the inserts `hist`. -/
def uses (hist : List (K × V)) : List (CK V) := hist.map fun kv => cacheKey kv.2

/-- After the pairs `hist` on the column `d`, the batch `s` and the table `t` written one by one
agree up to the deferred writes. -/
structure Lock (d : DictTable K V) (hist : List (K × V)) (s : Batch K V)
    (t : DictTable K V) : Prop where
  cache : s.table.cache = t.cache
  byKey : s.table.dictPkByKey = t.dictPkByKey
  values : s.table.valueByDictPk = t.valueByDictPk
  base : s.table.valueToDictPk = d.valueToDictPk
  users : t.dictPkToKeys = s.table.dictPkToKeys.insertAll s.pkToKeysBatch
  births : t.valueToDictPk = d.valueToDictPk.insertAll s.valueToPkBatch
  nodup : (s.valueToPkBatch.map Prod.fst).Nodup
  pending : ∀ v, v ∈ s.valueToPkBatch.map Prod.fst ↔
    d.valueToDictPk.get v = none ∧ v ∈ hist.map Prod.snd
  keys : ∀ b ∈ s.valueToPkBatch.map Prod.snd, b ∈ hist.map Prod.fst
  agrees : t.CacheAgrees
  cap : cacheCap t.cache = cacheCap d.cache
  used : cacheKeys t.cache = touchAll (cacheCap d.cache) (cacheKeys d.cache) (uses hist)

lemma lock_init {d : DictTable K V} (hd : d.CacheAgrees) : Lock d [] ⟨d, [], []⟩ d where
  cache := rfl
  byKey := rfl
  values := rfl
  base := rfl
  users := rfl
  births := rfl
  nodup := List.nodup_nil
  pending := by simp
  keys := by simp
  agrees := hd
  cap := rfl
  used := rfl

section Lock

variable {d : DictTable K V} {hist : List (K × V)} {s : Batch K V} {t : DictTable K V}

/-- The deferred writes make up for the difference. -/
lemma Lock.flush (h : Lock d hist s t) : flushBatch s = t := by
  have hu := Multimap.insertAll_perm (List.mergeSort_perm s.pkToKeysBatch fun a b =>
    decide (a.1 ≤ b.1)) s.table.dictPkToKeys
  have hperm := List.mergeSort_perm s.valueToPkBatch fun a b => decide (a.1 ≤ b.1)
  have hb := Table.insertAll_perm hperm.symm h.nodup s.table.valueToDictPk
  obtain ⟨⟨tk, tv, tp, tb⟩, tc⟩ := t
  have e₁ := h.users
  have e₂ := h.values
  have e₃ := h.births
  have e₄ := h.byKey
  have e₅ := h.cache
  simp only at e₁ e₂ e₃ e₄ e₅
  subst e₁ e₂ e₃ e₄ e₅
  unfold flushBatch
  simp only [DictTable.mk.injEq, DictTables.mk.injEq]
  exact ⟨⟨hu, trivial, by rw [← hb, h.base], trivial⟩, trivial⟩

/-- A value outside the batch reads the same in both runs. -/
lemma Lock.get_of_not_pending (h : Lock d hist s t) {v : V}
    (hv : ¬ (d.valueToDictPk.get v = none ∧ v ∈ hist.map Prod.snd)) :
    t.valueToDictPk.get v = d.valueToDictPk.get v := by
  rw [h.births]
  refine Table.get_insertAll_of_notMem (fun kv hkv e => hv ?_) _
  rw [← h.pending]
  exact List.mem_map.mpr ⟨kv, hkv, e⟩

/-- A value the batch has brought in has the key of an earlier pair for its birth id. -/
lemma Lock.get_of_pending (h : Lock d hist s t) {v : V} (hv : d.valueToDictPk.get v = none)
    (hm : v ∈ hist.map Prod.snd) : ∃ b ∈ hist.map Prod.fst, t.valueToDictPk.get v = some b := by
  obtain ⟨⟨v', b⟩, hvb, rfl⟩ := List.mem_map.mp ((h.pending v).mpr ⟨hv, hm⟩)
  refine ⟨b, h.keys b (List.mem_map.mpr ⟨_, hvb, rfl⟩), ?_⟩
  rw [h.births]
  exact Table.get_insertAll_of_mem h.nodup hvb _

/-- The value `v` came before, as a value new to the column, and the cache has lost it since. -/
def Lost (d : DictTable K V) (hist : List (K × V)) (v : V) : Prop :=
  d.valueToDictPk.get v = none ∧ v ∈ hist.map Prod.snd ∧
    cacheKey v ∉ touchAll (cacheCap d.cache) (cacheKeys d.cache) (uses hist)

lemma Lock.lost_iff (h : Lock d hist s t) {v : V} :
    Lost d hist v ↔ d.valueToDictPk.get v = none ∧ v ∈ hist.map Prod.snd ∧
      cachePeek t.cache (cacheKey v) = none := by
  unfold Lost
  rw [cachePeek_eq_none, h.used]

lemma Lock.used_insertKv (h : Lock d hist s t) (k : K) (v : V) :
    cacheCap (t.insertKv k v).cache = cacheCap d.cache ∧
      cacheKeys (t.insertKv k v).cache =
        touchAll (cacheCap d.cache) (cacheKeys d.cache) (uses (hist ++ [(k, v)])) := by
  obtain ⟨hcap, hkeys⟩ := cache_insertKv t k v
  refine ⟨hcap.trans h.cap, ?_⟩
  rw [hkeys, h.cap, h.used, uses, uses, List.map_append, touchAll_append]
  rfl

/-- A link to a birth id that both runs know keeps the lockstep. -/
lemma Lock.link (h : Lock d hist s t) {k b : K} {v : V} {cache : Option (LruCache (CK V) K)}
    (hb : t.valueToDictPk.get v = some b)
    (ht : t.insertKv k v = { t.toDictTables.link k b with cache := cache }) :
    Lock d (hist ++ [(k, v)])
      { s with
        table := { s.table with cache := cache, dictPkByKey := s.table.dictPkByKey.insert k b }
        pkToKeysBatch := s.pkToKeysBatch ++ [(b, k)] }
      (t.insertKv k v) where
  cache := by rw [ht]
  byKey := by
    rw [ht, h.byKey]
    rfl
  values := by
    rw [ht]
    exact h.values
  base := h.base
  users := by
    rw [ht, Multimap.insertAll_append, ← h.users]
    rfl
  births := by
    rw [ht]
    exact h.births
  nodup := h.nodup
  pending v' := by
    rw [h.pending, List.map_append, List.mem_append]
    refine and_congr_right fun hv' => ⟨Or.inl, ?_⟩
    rintro (hm | hm)
    · exact hm
    · obtain rfl : v' = v := by simpa using hm
      by_contra hm'
      have := h.get_of_not_pending (v := v') (fun hp => hm' hp.2)
      rw [hb, hv'] at this
      cases this
  keys b' hb' := by
    rw [List.map_append, List.mem_append]
    exact Or.inl (h.keys b' hb')
  agrees := insertKv_cacheAgrees h.agrees k v
  cap := (h.used_insertKv k v).1
  used := (h.used_insertKv k v).2

/-- The birth of a value that neither run knows keeps the lockstep. -/
lemma Lock.birth (h : Lock d hist s t) {k : K} {v : V} (hc : cachePeek t.cache (cacheKey v) = none)
    (hb : t.valueToDictPk.get v = none) :
    Lock d (hist ++ [(k, v)]) (batchStep s (k, v)) (t.insertKv k v) := by
  have hnp : ¬ (d.valueToDictPk.get v = none ∧ v ∈ hist.map Prod.snd) := by
    rintro ⟨hv, hm⟩
    obtain ⟨b, -, hb'⟩ := h.get_of_pending hv hm
    rw [hb] at hb'
    cases hb'
  have hd : d.valueToDictPk.get v = none := (h.get_of_not_pending hnp).symm.trans hb
  have hs : s.table.valueToDictPk.get v = none := by rw [h.base, hd]
  have ht := insertKv_of_new (k := k) hc hb
  rw [batchStep_of_new (by rw [h.cache, hc]) hs]
  refine ⟨?_, ?_, ?_, h.base, ?_, ?_, ?_, fun v' => ?_, fun b' hb' =>
    ?_, insertKv_cacheAgrees h.agrees k v, (h.used_insertKv k v).1, (h.used_insertKv k v).2⟩
  · rw [ht, h.cache]
  · rw [ht, h.byKey]
    rfl
  · rw [ht, h.values]
    rfl
  · rw [ht, Multimap.insertAll_append, ← h.users]
    rfl
  · rw [ht, Table.insertAll_append, ← h.births]
    rfl
  · rw [List.map_append, List.nodup_append]
    refine ⟨h.nodup, List.nodup_singleton _, fun x hx y hy => ?_⟩
    obtain rfl : y = v := by simpa using hy
    rintro rfl
    exact hnp ((h.pending x).mp hx)
  · rw [List.map_append, List.mem_append, h.pending, List.map_append, List.mem_append]
    by_cases hvv : v' = v
    · subst hvv
      simp [hd]
    · simp [hvv]
  · rw [List.map_append, List.mem_append] at hb' ⊢
    rcases hb' with hb' | hb'
    · exact Or.inl (h.keys b' hb')
    · exact Or.inr hb'

/-- **One pair.**  The two runs stay in lockstep unless the cache has lost the value. -/
theorem Lock.step (h : Lock d hist s t) {k : K} {v : V} (hl : ¬ Lost d hist v) :
    Lock d (hist ++ [(k, v)]) (batchStep s (k, v)) (t.insertKv k v) := by
  rw [h.lost_iff] at hl
  cases hc : cachePeek t.cache (cacheKey v) with
  | some b =>
    rw [batchStep_of_hit (by rw [h.cache, hc]), h.cache]
    exact h.link (h.agrees v b hc) (insertKv_of_hit hc)
  | none =>
    cases hb : t.valueToDictPk.get v with
    | none => exact h.birth hc hb
    | some b =>
      have hbase := h.get_of_not_pending (v := v) fun hp => hl ⟨hp.1, hp.2, hc⟩
      rw [batchStep_of_known (by rw [h.cache, hc]) (by rw [h.base, ← hbase, hb]), h.cache]
      exact h.link hb (insertKv_of_known hc hb)

/-- As long as no value is lost, the two runs stay in lockstep. -/
theorem Lock.foldl {pairs : List (K × V)} (h : Lock d hist s t)
    (hl : ∀ p k v, p ++ [(k, v)] <+: pairs → ¬ Lost d (hist ++ p) v) :
    Lock d (hist ++ pairs) (pairs.foldl batchStep s) (t.insertEach pairs) := by
  induction pairs using List.reverseRecOn with
  | nil => rwa [List.append_nil]
  | append_singleton pairs kv ih =>
    have hlock := ih fun p k v hp => hl p k v (hp.trans (List.prefix_append _ _))
    unfold insertEach at hlock ⊢
    rw [List.foldl_append, List.foldl_append, ← List.append_assoc]
    exact hlock.step (hl pairs kv.1 kv.2 List.prefix_rfl)

/-- A lost value gets the key for its birth id in the batch, and an earlier one in the other run. -/
lemma Lock.diverge (h : Lock d hist s t) {k : K} {v : V} (hl : Lost d hist v)
    (hk : k ∉ hist.map Prod.fst) :
    (batchStep s (k, v)).table.dictPkByKey.get k ≠ (t.insertKv k v).dictPkByKey.get k := by
  obtain ⟨hv, hm, hc⟩ := h.lost_iff.mp hl
  obtain ⟨b, hb, hget⟩ := h.get_of_pending hv hm
  rw [batchStep_of_new (by rw [h.cache, hc]) (by rw [h.base, hv]), insertKv_of_known hc hget]
  show (s.table.dictPkByKey.insert k k).get k ≠ (t.dictPkByKey.insert k b).get k
  rw [Table.get_insert_self, Table.get_insert_self]
  rintro heq
  exact hk (Option.some.inj heq ▸ hb)

/-- **The rest of the batch.**  The two runs end with the same tables exactly when no value of it is
lost at its turn. -/
theorem Lock.flush_eq_iff {pairs : List (K × V)} (h : Lock d hist s t)
    (hnd : ((hist ++ pairs).map Prod.fst).Nodup) :
    (flushBatch (pairs.foldl batchStep s)).toDictTables = (t.insertEach pairs).toDictTables ↔
      ∀ p k v, p ++ [(k, v)] <+: pairs → ¬ Lost d (hist ++ p) v := by
  induction pairs generalizing hist s t with
  | nil =>
    refine iff_of_true (congrArg DictTable.toDictTables h.flush) fun p k v hp => ?_
    simp at hp
  | cons kv pairs ih =>
    obtain ⟨k, v⟩ := kv
    have hsplit : hist ++ (k, v) :: pairs = hist ++ [(k, v)] ++ pairs := by simp
    by_cases hl : Lost d hist v
    · refine iff_of_false (fun heq => ?_) fun hall => hall [] k v (by simp) (by simpa using hl)
      have hnd' : (hist.map Prod.fst ++ k :: pairs.map Prod.fst).Nodup := by simpa using hnd
      obtain ⟨-, hkp, hdisj⟩ := List.nodup_append.mp hnd'
      have hk : k ∉ hist.map Prod.fst := fun hm => hdisj k hm k List.mem_cons_self rfl
      have hk' : k ∉ pairs.map Prod.fst := (List.nodup_cons.mp hkp).1
      refine h.diverge hl hk ?_
      have hbk := congrArg (fun t => t.dictPkByKey.get k) heq
      exact (byKey_foldl_batchStep_of_notMem hk' _).symm.trans
        (hbk.trans (byKey_insertEach_of_notMem hk' _))
    · rw [hsplit] at hnd
      refine (ih (h.step hl) hnd).trans ⟨fun hall p k' v' hp => ?_, fun hall p k' v' hp => ?_⟩
      · cases p with
        | nil =>
          obtain ⟨rfl, rfl⟩ : k' = k ∧ v' = v := by simpa using hp
          simpa using hl
        | cons kv p =>
          rw [List.cons_append, List.cons_prefix_cons] at hp
          obtain ⟨rfl, hp⟩ := hp
          have := hall p k' v' hp
          rwa [List.append_assoc] at this
      · have := hall ((k, v) :: p) k' v' (by simpa using hp)
        rwa [List.append_assoc]

/-! ### Which values are lost -/

omit [LinearOrder K] in
lemma card_uses (mid : List V) :
    (mid.map (cacheKey : V → CK V)).toFinset.card = mid.toFinset.card := by
  have himage : (mid.map (cacheKey : V → CK V)).toFinset = mid.toFinset.image cacheKey := by
    ext x
    simp
  rw [himage, Finset.card_image_of_injective _ cacheKey_injective]

/-- The eviction law for a value whose last use is followed by the values `mid`. -/
lemma lost_iff_of_split {v : V} {xs mid : List V} (hv : d.valueToDictPk.get v = none)
    (hsplit : hist.map Prod.snd = xs ++ v :: mid) (hmid : v ∉ mid) :
    Lost d hist v ↔ cacheCap d.cache ≤ mid.toFinset.card := by
  have huses : uses hist = xs.map cacheKey ++ cacheKey v :: mid.map cacheKey := by
    have := congrArg (List.map (cacheKey : V → CK V)) hsplit
    rwa [List.map_map, List.map_append, List.map_cons] at this
  have hmid' : cacheKey v ∉ mid.map cacheKey := by
    rw [List.mem_map_of_injective cacheKey_injective]
    exact hmid
  have hcached := mem_touchAll_iff (cacheCap d.cache)
    (touchAll (cacheCap d.cache) (cacheKeys d.cache) (xs.map cacheKey)) _ _ hmid'
  unfold Lost
  rw [huses, touchAll_append, hcached, card_uses, not_lt, hsplit]
  simp [hv]

lemma exists_last_split {v : V} {vs : List V} (h : v ∈ vs) :
    ∃ xs mid, vs = xs ++ v :: mid ∧ v ∉ mid := by
  induction vs with
  | nil => simp at h
  | cons x vs ih =>
    by_cases hm : v ∈ vs
    · obtain ⟨xs, mid, rfl, hmid⟩ := ih hm
      exact ⟨x :: xs, mid, rfl, hmid⟩
    · obtain rfl : v = x := (List.mem_cons.mp h).resolve_right hm
      exact ⟨[], vs, rfl, hm⟩

lemma never_lost_iff {pairs : List (K × V)} :
    (∀ p k v, p ++ [(k, v)] <+: pairs → ¬ Lost d p v) ↔
      RepeatsCached (cacheCap d.cache) (fun v => d.valueToDictPk.get v ≠ none)
        (pairs.map Prod.snd) := by
  constructor
  · intro hall xs v mid ys hvs hmid hv
    obtain ⟨p, q, rfl, hp, hq⟩ := List.map_eq_append_iff.mp
      (show pairs.map Prod.snd = (xs ++ v :: mid) ++ v :: ys by simpa using hvs)
    obtain ⟨⟨k, v'⟩, q, rfl, rfl, rfl⟩ := List.map_eq_cons_iff.mp hq
    have hnl := hall p k v' ⟨q, by simp⟩
    rw [lost_iff_of_split (not_not.mp hv) hp hmid] at hnl
    exact not_le.mp hnl
  · rintro hall p k v ⟨q, rfl⟩ hl
    have hv := hl.1
    obtain ⟨xs, mid, hsplit, hmid⟩ := exists_last_split hl.2.1
    rw [lost_iff_of_split hv hsplit hmid] at hl
    refine absurd (hall xs v mid (q.map Prod.snd) ?_ hmid (not_not.mpr hv)) (not_lt.mpr hl)
    simp [hsplit]

end Lock

/-- **The batched insert equals the single inserts exactly when every value that is new to the
column and comes again is still in the cache by then.** -/
theorem insertManySortedByKey_eq_insertEach_iff (d : DictTable K V) (hd : d.CacheAgrees)
    (pairs : List (K × V)) (hsorted : (pairs.map Prod.fst).Pairwise (· < ·)) :
    (d.insertManySortedByKey pairs).toDictTables = (d.insertEach pairs).toDictTables ↔
      RepeatsCached (cacheCap d.cache) (fun v => d.valueToDictPk.get v ≠ none)
        (pairs.map Prod.snd) := by
  have hnd : (pairs.map Prod.fst).Nodup := hsorted.imp ne_of_lt
  rw [← never_lost_iff]
  exact (lock_init hd).flush_eq_iff hnd

/-- Without a cache, the second pair of a new value does not see the first. -/
theorem insertMany_repeats_uncached :
    let d : DictTable ℕ ℕ := (DictFactory.new 0).openForWrite DictTables.empty
    let pairs := [(1, 7), (2, 7)]
    d.toDictTables.Inv ∧ d.CacheAgrees ∧ (pairs.map Prod.fst).Pairwise (· < ·) ∧
      (∀ k ∈ pairs.map Prod.fst, d.dictPkByKey.get k = none) ∧
      (d.insertManySortedByKey pairs).toDictTables ≠ (d.insertEach pairs).toDictTables := by
  refine ⟨DictTables.inv_empty, cacheAgrees_openForWrite _ _, by decide, by decide, fun h => ?_⟩
  have hkey := congrArg (fun t => t.dictPkByKey.get 2) h
  revert hkey
  decide

/-- A cache of one entry is enough for the same batch. -/
theorem insertMany_repeats_cached :
    let d : DictTable ℕ ℕ := (DictFactory.new 1).openForWrite DictTables.empty
    let pairs := [(1, 7), (2, 7)]
    (d.insertManySortedByKey pairs).toDictTables = (d.insertEach pairs).toDictTables := by
  intro d pairs
  refine (insertManySortedByKey_eq_insertEach_iff d (cacheAgrees_openForWrite _ _) pairs
    (by decide)).mpr ?_
  intro xs v mid ys hvs _ _
  have hlen := congrArg List.length hvs
  have hmid : mid = [] := by
    rw [← List.length_eq_zero_iff]
    simp only [pairs, List.length_map, List.length_append, List.length_cons, List.length_nil] at hlen
    omega
  rw [hmid]
  decide

end DictTable

end Redbit.Storage
