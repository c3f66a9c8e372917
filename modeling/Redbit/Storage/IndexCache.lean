import Redbit.Lib.Run
import Redbit.Storage.WriteTable

/-!
# The cache of an index column (`table_index_write.rs`)

A lookup by value asks the cache first, which holds for a value the key that was put last, and then the
reverse table, which gives the smallest key.

* `index_run_sound`: along every run the two tables are inverse to each other, and a lookup gives a
key that has the value, if there is one.
* `cache_transparent_iff`: it gives the smallest one, and so the same as without a cache, exactly as
long as every key that stays in the cache was, when it was inserted, smaller than all keys with its
value.
-/

namespace Redbit.Storage

open Redbit.Lib

namespace IndexTables

variable {K V : Type} [LinearOrder K] [LinearOrder V]

/-- The two tables are inverse to each other. -/
def Inverse (t : IndexTables K V) : Prop := ∀ k v, k ∈ t.pkByIndex.get v ↔ t.indexByPk.get k = some v

/-- A key that has the value, if there is one. -/
def Holder (t : IndexTables K V) (v : V) : Option K → Prop
  | some k => t.indexByPk.get k = some v
  | none => ∀ k, t.indexByPk.get k ≠ some v

/-- The smallest key that has the value, if there is one. -/
def Smallest (t : IndexTables K V) (v : V) (r : Option K) : Prop :=
  t.Holder v r ∧ ∀ k ∈ r, ∀ k', t.indexByPk.get k' = some v → k ≤ k'

omit [LinearOrder V] in
lemma Smallest.eq {t : IndexTables K V} {v : V} {r r' : Option K} (h : t.Smallest v r)
    (h' : t.Smallest v r') : r = r' := by
  cases r with
  | none =>
    cases r' with
    | none => rfl
    | some k' => exact absurd h'.1 (h.1 k')
  | some k =>
    cases r' with
    | none => exact absurd h.1 (h'.1 k)
    | some k' => rw [le_antisymm (h.2 k rfl k' h'.1) (h'.2 k' rfl k h.1)]

/-- The reverse table gives the smallest key. -/
lemma Inverse.smallest {t : IndexTables K V} (h : t.Inverse) (v : V) :
    t.Smallest v (((t.pkByIndex.get v).sort (· ≤ ·)).head?) := by
  cases hs : (t.pkByIndex.get v).sort (· ≤ ·) with
  | nil =>
    refine ⟨fun k hk => ?_, fun k hk => nomatch hk⟩
    have hmem := (Finset.mem_sort (· ≤ ·)).mpr ((h k v).mpr hk)
    rw [hs] at hmem
    cases hmem
  | cons k ks =>
    have hk : k ∈ t.pkByIndex.get v := (Finset.mem_sort (· ≤ ·)).mp (hs ▸ List.mem_cons_self)
    refine ⟨(h k v).mp hk, fun k₀ hk₀ k' hk' => ?_⟩
    obtain rfl : k = k₀ := Option.some.inj hk₀
    have hmem := (Finset.mem_sort (· ≤ ·)).mpr ((h k' v).mpr hk')
    have hsorted := (t.pkByIndex.get v).pairwise_sort (· ≤ ·)
    rw [hs] at hmem hsorted
    rcases List.mem_cons.mp hmem with rfl | hmem
    · exact le_rfl
    · exact (List.pairwise_cons.mp hsorted).1 k' hmem

end IndexTables

namespace IndexTable

variable {K V : Type} [LinearOrder K] [LinearOrder V] [CacheKey V]

/-- The answer to a query for `v`. -/
def answer (t : IndexTable K V) (v : V) : Option K := (t.getAnyForIndex v).1

lemma answer_eq (t : IndexTable K V) (v : V) : t.answer v =
    (cachePeek t.cache (cacheKey v)).or (((t.pkByIndex.get v).sort (· ≤ ·)).head?) := by
  rw [← cacheGet_fst, answer, getAnyForIndex]
  rcases cacheGet t.cache (cacheKey v) with ⟨k | k, cache⟩ <;> rfl

/-! ### Runs -/

/-- An operation on the table. -/
inductive Op (K V : Type) where
  | insertKv (k : K) (v : V)
  | insertManySortedByKey (pairs : List (K × V))
  | deleteKv (k : K)
  | getAnyForIndex (v : V)

/-- The table after an operation. -/
def exec (t : IndexTable K V) : Op K V → IndexTable K V
  | .insertKv k v => t.insertKv k v
  | .insertManySortedByKey pairs => t.insertManySortedByKey pairs
  | .deleteKv k => (t.deleteKv k).2
  | .getAnyForIndex v => (t.getAnyForIndex v).2

/-- The pairs an operation inserts. -/
def Op.inserted : Op K V → List (K × V)
  | .insertKv k v => [(k, v)]
  | .insertManySortedByKey pairs => pairs
  | _ => []

/-- Only keys that are absent are inserted, and each once. -/
def Legal (t : IndexTable K V) (op : Op K V) : Prop :=
  (op.inserted.map Prod.fst).Nodup ∧ ∀ kv ∈ op.inserted, t.indexByPk.get kv.1 = none

/-! ### What an operation does to the tables -/

lemma insertKv_eq_insertMany (t : IndexTable K V) (k : K) (v : V) :
    t.insertKv k v = t.insertManySortedByKey [(k, v)] := by
  simp [insertKv, insertManySortedByKey, Table.insertAll, Multimap.insertAll]

section Insert

variable {t : IndexTable K V} {pairs : List (K × V)}

/-- The rows after an insertion of absent keys. -/
lemma get_insertMany (hnd : (pairs.map Prod.fst).Nodup)
    (habs : ∀ kv ∈ pairs, t.indexByPk.get kv.1 = none) (k : K) (v : V) :
    (t.insertManySortedByKey pairs).indexByPk.get k = some v ↔ (k, v) ∈ pairs ∨
      t.indexByPk.get k = some v := by
  show (t.indexByPk.insertAll pairs).get k = some v ↔ _
  by_cases hk : ∃ v', (k, v') ∈ pairs
  · obtain ⟨v', hv'⟩ := hk
    rw [Table.get_insertAll_of_mem hnd hv', habs _ hv']
    simp only [Option.some.injEq, reduceCtorEq, or_false]
    constructor
    · rintro rfl
      exact hv'
    · intro hv
      exact congrArg Prod.snd (List.inj_on_of_nodup_map hnd hv' hv rfl)
  · rw [Table.get_insertAll_of_notMem fun kv hkv hkv' => hk ⟨kv.2, hkv' ▸ hkv⟩]
    exact ⟨Or.inr, fun h => h.resolve_left fun hkv => hk ⟨v, hkv⟩⟩

lemma inverse_insertMany (h : t.Inverse) (hnd : (pairs.map Prod.fst).Nodup)
    (habs : ∀ kv ∈ pairs, t.indexByPk.get kv.1 = none) : (t.insertManySortedByKey pairs).Inverse := by
  intro k v
  rw [get_insertMany hnd habs]
  show k ∈ (t.pkByIndex.insertAll _).get v ↔ _
  rw [Multimap.mem_get_insertAll, h k v]
  have hrows : (v, k) ∈ (pairs.mergeSort fun a b => decide (a.2 ≤ b.2)).map
      (fun kv => (kv.2, kv.1)) ↔ (k, v) ∈ pairs := by
    constructor
    · intro hmem
      obtain ⟨kv, hkv, heq⟩ := List.mem_map.mp hmem
      obtain ⟨rfl, rfl⟩ := Prod.mk.inj heq
      exact List.mem_mergeSort.mp hkv
    · intro hmem
      exact List.mem_map.mpr ⟨(k, v), List.mem_mergeSort.mpr hmem, rfl⟩
  rw [hrows]

end Insert

/-- A delete takes one row away, in both tables, and forgets its value. -/
lemma deleteKv_cases {t : IndexTable K V} (h : t.Inverse) (k : K) :
    (t.indexByPk.get k = none ∧ t.deleteKv k = (false, t)) ∨
      ∃ v, t.indexByPk.get k = some v ∧ t.deleteKv k = (true,
        { indexByPk := t.indexByPk.remove k
          pkByIndex := t.pkByIndex.remove v k
          cache := cachePop t.cache (cacheKey v) }) := by
  unfold deleteKv
  cases hk : t.indexByPk.get k with
  | none => exact Or.inl ⟨rfl, rfl⟩
  | some v =>
    have hmem : k ∈ t.pkByIndex.get v := (h k v).mpr hk
    exact Or.inr ⟨v, rfl, by simp [hmem]⟩

lemma inverse_deleteKv {t : IndexTable K V} (h : t.Inverse) (k : K) : (t.deleteKv k).2.Inverse := by
  rcases deleteKv_cases h k with ⟨-, hdel⟩ | ⟨v, hk, hdel⟩
  · rw [hdel]
    exact h
  · rw [hdel]
    intro k' v'
    show k' ∈ (t.pkByIndex.remove v k).get v' ↔ (t.indexByPk.remove k).get k' = some v'
    rw [Multimap.mem_get_remove, h k' v', Table.get_remove]
    by_cases hkk : k' = k
    · subst hkk
      rw [hk, if_pos rfl]
      constructor
      · rintro ⟨hne, hv⟩
        exact absurd ⟨(Option.some.inj hv).symm, rfl⟩ hne
      · intro hv
        cases hv
    · simp [hkk]

/-! ### The cache -/

omit [LinearOrder K] [LinearOrder V] in
/-- What a batch leaves in the cache for a value: the key of its last pair with the value, or what
was there. -/
lemma cachePeek_putAll {c : Option (LruCache (CK V) K)} {pairs : List (K × V)} {v : V} {k : K}
    (h : cachePeek (pairs.foldl (fun cache kv => cachePut cache (cacheKey kv.2) kv.1) c)
      (cacheKey v) = some k) :
    (v ∉ pairs.map Prod.snd ∧ cachePeek c (cacheKey v) = some k) ∨
      ∃ before after, pairs = before ++ (k, v) :: after ∧ v ∉ after.map Prod.snd := by
  induction pairs using List.reverseRecOn with
  | nil => exact Or.inl ⟨by simp, h⟩
  | append_singleton pairs kv ih =>
    rw [List.foldl_append] at h
    rcases cachePeek_cachePut h with ⟨hv, rfl⟩ | ⟨hv, hold⟩
    · rw [cacheKey_injective hv]
      exact Or.inr ⟨pairs, [], rfl, by simp⟩
    · have hne : v ≠ kv.2 := fun heq => hv (congrArg _ heq)
      rcases ih hold with ⟨hnone, hc⟩ | ⟨before, after, rfl, hafter⟩
      · exact Or.inl ⟨by simpa [hne] using hnone, hc⟩
      · exact Or.inr ⟨before, after ++ [kv], by simp, by simpa [hne] using hafter⟩

omit [LinearOrder K] [LinearOrder V] in
lemma cacheKeys_putAll (c : Option (LruCache (CK V) K)) (pairs : List (K × V)) :
    cacheKeys (pairs.foldl (fun cache kv => cachePut cache (cacheKey kv.2) kv.1) c) =
        touchAll (cacheCap c) (cacheKeys c) (pairs.map fun kv => cacheKey kv.2) ∧
      cacheCap (pairs.foldl (fun cache kv => cachePut cache (cacheKey kv.2) kv.1) c) = cacheCap c := by
  induction pairs generalizing c with
  | nil => exact ⟨rfl, rfl⟩
  | cons kv pairs ih =>
    obtain ⟨hkeys, hcap⟩ := ih (cachePut c (cacheKey kv.2) kv.1)
    rw [cacheCap_cachePut, cacheKeys_cachePut] at hkeys
    rw [cacheCap_cachePut] at hcap
    exact ⟨hkeys, hcap⟩

omit [LinearOrder K] in
/-- A pair of a batch whose value does not come again stays in the cache exactly if fewer values
than its capacity come after it. -/
lemma cachePeek_putAll_last (c : Option (LruCache (CK V) K)) (before : List (K × V)) (k : K) (v : V)
    {after : List (K × V)} (hafter : v ∉ after.map Prod.snd) :
    cachePeek ((before ++ (k, v) :: after).foldl
      (fun cache kv => cachePut cache (cacheKey kv.2) kv.1) c) (cacheKey v) =
      if (after.map Prod.snd).toFinset.card < cacheCap c then some k else none := by
  set c' := (before ++ (k, v) :: after).foldl (fun cache kv => cachePut cache (cacheKey kv.2) kv.1)
    c with hc'
  have hcard : ((after.map fun kv => cacheKey kv.2).toFinset).card =
      (after.map Prod.snd).toFinset.card := by
    have himage : (after.map fun kv => cacheKey kv.2).toFinset =
        (after.map Prod.snd).toFinset.image cacheKey := by
      ext x
      simp only [List.mem_toFinset, List.mem_map, Finset.mem_image]
      constructor
      · rintro ⟨kv, hkv, rfl⟩
        exact ⟨kv.2, ⟨kv, hkv, rfl⟩, rfl⟩
      · rintro ⟨v, ⟨kv, hkv, rfl⟩, rfl⟩
        exact ⟨kv, hkv, rfl⟩
    rw [himage, Finset.card_image_of_injective _ cacheKey_injective]
  have hnot : cacheKey v ∉ after.map fun kv => cacheKey kv.2 := by
    intro hmem
    obtain ⟨kv, hkv, heq⟩ := List.mem_map.mp hmem
    exact hafter (List.mem_map.mpr ⟨kv, hkv, cacheKey_injective heq⟩)
  have hmem : cacheKey v ∈ cacheKeys c' ↔ (after.map Prod.snd).toFinset.card < cacheCap c := by
    rw [hc', (cacheKeys_putAll c _).1, List.map_append, touchAll_append, List.map_cons,
      mem_touchAll_iff _ _ _ _ hnot, hcard]
  split
  · next hlt =>
    obtain ⟨k', hk'⟩ := Option.ne_none_iff_exists'.mp fun hnone =>
      cachePeek_eq_none.mp hnone (hmem.mpr hlt)
    rw [hk']
    -- the pairs behind leave alone what this one has put
    rw [hc', List.foldl_append, List.foldl_cons] at hk'
    rcases cachePeek_putAll hk' with ⟨-, hput⟩ | ⟨before', after', hsplit, -⟩
    · rcases cachePeek_cachePut hput with ⟨-, rfl⟩ | ⟨hne, -⟩
      · rfl
      · exact absurd rfl hne
    · exact absurd (by simp [hsplit]) hafter
  · next hlt => exact cachePeek_eq_none.mpr fun h => hlt (hmem.mp h)

/-! ### A lookup gives a key that has the value -/

/-- What holds along every run. -/
structure Sound (t : IndexTable K V) : Prop where
  inverse : t.Inverse
  cached : ∀ v k, cachePeek t.cache (cacheKey v) = some k → t.indexByPk.get k = some v

lemma sound_openForWrite (f : IndexFactory) {t : IndexTables K V} (h : t.Inverse) :
    (f.openForWrite t).Sound where
  inverse := h
  cached v k hk := by
    rw [IndexFactory.openForWrite, cachePeek_newCache] at hk
    cases hk

lemma Sound.insertMany {t : IndexTable K V} (h : t.Sound) {pairs : List (K × V)}
    (hnd : (pairs.map Prod.fst).Nodup) (habs : ∀ kv ∈ pairs, t.indexByPk.get kv.1 = none) :
    (t.insertManySortedByKey pairs).Sound where
  inverse := inverse_insertMany h.inverse hnd habs
  cached v k hk := by
    rw [get_insertMany hnd habs]
    rcases cachePeek_putAll hk with ⟨-, hold⟩ | ⟨before, after, rfl, -⟩
    · exact Or.inr (h.cached v k hold)
    · exact Or.inl (by simp)

lemma Sound.deleteKv {t : IndexTable K V} (h : t.Sound) (k : K) : (t.deleteKv k).2.Sound where
  inverse := inverse_deleteKv h.inverse k
  cached v' k' hk' := by
    rcases deleteKv_cases h.inverse k with ⟨-, hdel⟩ | ⟨v, hk, hdel⟩
    · rw [hdel] at hk' ⊢
      exact h.cached v' k' hk'
    · rw [hdel] at hk' ⊢
      rw [cachePeek_cachePop] at hk'
      split at hk'
      · cases hk'
      · next hv =>
        have hget := h.cached v' k' hk'
        have hne : k' ≠ k := by
          rintro rfl
          exact hv (congrArg _ (Option.some.inj (hget.symm.trans hk)))
        rw [Table.get_remove, if_neg hne]
        exact hget

lemma getAny_tables (t : IndexTable K V) (v : V) :
    (t.getAnyForIndex v).2 = { t with cache := (cacheGet t.cache (cacheKey v)).2 } := by
  unfold getAnyForIndex
  rcases cacheGet t.cache (cacheKey v) with ⟨k | k, cache⟩ <;> rfl

lemma Sound.getAny {t : IndexTable K V} (h : t.Sound) (v : V) : (t.getAnyForIndex v).2.Sound where
  inverse := by
    rw [getAny_tables]
    exact h.inverse
  cached v' k' hk' := by
    rw [getAny_tables] at hk' ⊢
    rw [cachePeek_cacheGet] at hk'
    exact h.cached v' k' hk'

lemma Sound.exec {t : IndexTable K V} (h : t.Sound) {op : Op K V} (hop : Legal t op) :
    (t.exec op).Sound := by
  cases op with
  | insertKv k v =>
    rw [IndexTable.exec, insertKv_eq_insertMany]
    exact h.insertMany hop.1 hop.2
  | insertManySortedByKey pairs => exact h.insertMany hop.1 hop.2
  | deleteKv k => exact h.deleteKv k
  | getAnyForIndex v => exact h.getAny v

lemma Sound.holder {t : IndexTable K V} (h : t.Sound) (v : V) : t.Holder v (t.answer v) := by
  rw [answer_eq]
  cases hc : cachePeek t.cache (cacheKey v) with
  | some k => exact h.cached v k hc
  | none => exact (h.inverse.smallest v).1

/-- **The tables stay inverse to each other, and a lookup gives a key that has the value.** -/
theorem index_run_sound (f : IndexFactory) {t : IndexTables K V} (ht : t.Inverse) {ops : List (Op K V)}
    (hlegal : EachStep exec Legal (f.openForWrite t) ops) :
    (run exec (f.openForWrite t) ops).Inverse ∧
      ∀ v, (run exec (f.openForWrite t) ops).Holder v
        ((run exec (f.openForWrite t) ops).getAnyForIndex v).1 := by
  have hsound : (run exec (f.openForWrite t) ops).Sound :=
    run_inv (sound_openForWrite f ht) (fun t op h hop => h.exec hop) hlegal ops (List.prefix_refl _)
  exact ⟨hsound.inverse, hsound.holder⟩

/-! ### A lookup gives the smallest key -/

/-- Every key that the operation leaves in the cache is smaller than all others with its value. -/
def Descending (t : IndexTable K V) (op : Op K V) : Prop :=
  ∀ before k v after, op.inserted = before ++ (k, v) :: after → v ∉ after.map Prod.snd →
    (after.map Prod.snd).toFinset.card < cacheCap t.cache →
      ∀ k', (t.indexByPk.get k' = some v ∨ (k', v) ∈ before) → k < k'

/-- The keys in the cache are the smallest ones. -/
structure Least (t : IndexTable K V) : Prop extends t.Sound where
  least : ∀ v k, cachePeek t.cache (cacheKey v) = some k → ∀ k', t.indexByPk.get k' = some v → k ≤ k'

lemma Least.smallest {t : IndexTable K V} (h : t.Least) (v : V) : t.Smallest v (t.answer v) := by
  rw [answer_eq]
  cases hc : cachePeek t.cache (cacheKey v) with
  | some k => exact ⟨h.cached v k hc, fun k₀ hk₀ => Option.some.inj hk₀ ▸ h.least v k hc⟩
  | none => exact h.inverse.smallest v

lemma least_openForWrite (f : IndexFactory) {t : IndexTables K V} (h : t.Inverse) :
    (f.openForWrite t).Least where
  toSound := sound_openForWrite f h
  least v k hk := by
    rw [IndexFactory.openForWrite, cachePeek_newCache] at hk
    cases hk

lemma Least.insertMany {t : IndexTable K V} (h : t.Least) {pairs : List (K × V)}
    (hop : Legal t (.insertManySortedByKey pairs))
    (hdesc : Descending t (.insertManySortedByKey pairs)) :
    (t.insertManySortedByKey pairs).Least where
  toSound := h.toSound.insertMany hop.1 hop.2
  least v k hk k' hk' := by
    replace hk' := (get_insertMany hop.1 hop.2 k' v).mp hk'
    rcases cachePeek_putAll hk with ⟨hv, hold⟩ | ⟨before, after, rfl, hafter⟩
    · refine h.least v k hold k' (hk'.resolve_left fun hmem => hv ?_)
      exact List.mem_map.mpr ⟨_, hmem, rfl⟩
    · have hcard : (after.map Prod.snd).toFinset.card < cacheCap t.cache := by
        by_contra hno
        have hgone := cachePeek_putAll_last t.cache before k v hafter
        rw [if_neg hno] at hgone
        exact absurd (hgone.symm.trans hk) (by simp)
      have hlt := hdesc before k v after rfl hafter hcard k'
      rcases hk' with hmem | hold
      · rcases List.mem_append.mp hmem with hmem | hmem
        · exact (hlt (Or.inr hmem)).le
        · rcases List.mem_cons.mp hmem with heq | hmem
          · exact (congrArg Prod.fst heq).ge
          · exact absurd (List.mem_map.mpr ⟨_, hmem, rfl⟩) hafter
      · exact (hlt (Or.inl hold)).le

/-- A key that stays in the cache although a smaller one has its value. -/
lemma not_smallest_insertMany {t : IndexTable K V} {pairs : List (K × V)}
    (hop : Legal t (.insertManySortedByKey pairs))
    (hdesc : ¬ Descending t (.insertManySortedByKey pairs)) :
    ¬ ∀ v, (t.insertManySortedByKey pairs).Smallest v ((t.insertManySortedByKey pairs).answer v) := by
  intro hall
  refine hdesc fun before k v after hsplit hafter hcard k' hk' => ?_
  obtain rfl : pairs = before ++ (k, v) :: after := hsplit
  have hpeek := cachePeek_putAll_last t.cache before k v hafter
  rw [if_pos hcard] at hpeek
  have hanswer : (t.insertManySortedByKey (before ++ (k, v) :: after)).answer v = some k := by
    rw [answer_eq, show cachePeek (t.insertManySortedByKey (before ++ (k, v) :: after)).cache
      (cacheKey v) = some k from hpeek]
    rfl
  have hget : (t.insertManySortedByKey (before ++ (k, v) :: after)).indexByPk.get k' = some v := by
    refine (get_insertMany hop.1 hop.2 k' v).mpr ?_
    exact hk'.symm.imp (List.mem_append_left _) id
  have hle : k ≤ k' := (hall v).2 k hanswer k' hget
  refine lt_of_le_of_ne hle ?_
  rintro rfl
  -- the keys of the batch are distinct and were absent
  rcases hk' with hold | hmem
  · have habs := hop.2 (k, v) (by simp [Op.inserted])
    rw [hold] at habs
    cases habs
  · have hnd := hop.1
    simp only [Op.inserted, List.map_append, List.map_cons] at hnd
    exact (List.nodup_cons.mp (List.nodup_middle.mp hnd)).1
      (List.mem_append_left _ (List.mem_map.mpr ⟨_, hmem, rfl⟩))

lemma Least.deleteKv {t : IndexTable K V} (h : t.Least) (k : K) : (t.deleteKv k).2.Least where
  toSound := h.toSound.deleteKv k
  least v' k' hk' k'' hk'' := by
    rcases deleteKv_cases h.inverse k with ⟨-, hdel⟩ | ⟨v, hk, hdel⟩
    · rw [hdel] at hk' hk''
      exact h.least v' k' hk' k'' hk''
    · rw [hdel] at hk' hk''
      rw [cachePeek_cachePop] at hk'
      rw [Table.get_remove] at hk''
      split at hk'
      · cases hk'
      · split at hk''
        · cases hk''
        · exact h.least v' k' hk' k'' hk''

lemma Least.getAny {t : IndexTable K V} (h : t.Least) (v : V) : (t.getAnyForIndex v).2.Least where
  toSound := h.toSound.getAny v
  least v' k' hk' k'' hk'' := by
    rw [getAny_tables] at hk' hk''
    rw [cachePeek_cacheGet] at hk'
    exact h.least v' k' hk' k'' hk''

lemma Least.exec {t : IndexTable K V} (h : t.Least) {op : Op K V} (hop : Legal t op)
    (hdesc : Descending t op) :
    (t.exec op).Least := by
  cases op with
  | insertKv k v =>
    rw [IndexTable.exec, insertKv_eq_insertMany]
    exact h.insertMany hop hdesc
  | insertManySortedByKey pairs => exact h.insertMany hop hdesc
  | deleteKv k => exact h.deleteKv k
  | getAnyForIndex v => exact h.getAny v

lemma not_smallest_exec {t : IndexTable K V} {op : Op K V} (hop : Legal t op)
    (hdesc : ¬ Descending t op) : ¬ ∀ v, (t.exec op).Smallest v ((t.exec op).answer v) := by
  have hnone : op.inserted ≠ [] := by
    intro hnil
    refine hdesc fun before k v after hsplit => ?_
    rw [hnil] at hsplit
    simp at hsplit
  cases op with
  | insertKv k v =>
    rw [exec, insertKv_eq_insertMany]
    exact not_smallest_insertMany hop hdesc
  | insertManySortedByKey pairs => exact not_smallest_insertMany hop hdesc
  | deleteKv k => exact absurd rfl hnone
  | getAnyForIndex v => exact absurd rfl hnone

/-! ### With and without a cache -/

lemma toIndexTables_exec {s t : IndexTable K V} (h : s.toIndexTables = t.toIndexTables) (op : Op K V) :
    (s.exec op).toIndexTables = (t.exec op).toIndexTables := by
  cases op with
  | insertKv k v => exact (indexTable (IndexFactory.new 0) K V).sameRows_insertKv h k v
  | insertManySortedByKey pairs =>
    exact (indexTable (IndexFactory.new 0) K V).sameRows_insertMany h pairs
  | deleteKv k => exact toIndexTables_deleteKv h k
  | getAnyForIndex v =>
    exact (toIndexTables_getAny s v).trans (h.trans (toIndexTables_getAny t v).symm)

lemma toIndexTables_run {s t : IndexTable K V} (h : s.toIndexTables = t.toIndexTables)
    (ops : List (Op K V)) :
    (run exec s ops).toIndexTables = (run exec t ops).toIndexTables := by
  induction ops generalizing s t with
  | nil => exact h
  | cons op ops ih => exact ih (toIndexTables_exec h op)

lemma cache_run_none {t : IndexTable K V} (h : t.cache = none) (ops : List (Op K V)) :
    (run exec t ops).cache = none := by
  induction ops generalizing t with
  | nil => exact h
  | cons op ops ih =>
    refine ih ?_
    cases op with
    | insertKv k v =>
      rw [exec, insertKv, h]
      rfl
    | insertManySortedByKey pairs =>
      have hput : ∀ pairs : List (K × V),
        pairs.foldl (fun cache kv => cachePut cache (cacheKey kv.2) kv.1) none =
          (none : Option (LruCache (CK V) K)) := by
        intro pairs
        induction pairs with
        | nil => rfl
        | cons kv pairs ih => exact ih
      rw [exec, insertManySortedByKey, h]
      exact hput pairs
    | deleteKv k =>
      rw [exec, deleteKv]
      split
      · rw [h]
        exact ite_self none
      · exact h
    | getAnyForIndex v =>
      rw [exec, getAny_tables, h]
      rfl

/-- Without a cache a lookup reads the reverse table, which is the same as with one. -/
lemma answer_plain (f : IndexFactory) (t : IndexTables K V) {ops : List (Op K V)}
    (hinv : (run exec (f.openForWrite t) ops).Inverse) (v : V) :
    (run exec (f.openForWrite t) ops).Smallest v
      ((run exec ((IndexFactory.new 0).openForWrite t) ops).answer v) := by
  have hrev := congrArg IndexTables.pkByIndex
    (toIndexTables_run (s := f.openForWrite t) (t := (IndexFactory.new 0).openForWrite t) rfl ops)
  have hnone : ((IndexFactory.new 0).openForWrite t).cache = none := rfl
  rw [answer_eq, cache_run_none hnone ops, ← hrev]
  exact hinv.smallest v

/-- **The cache is transparent exactly as long as every key it keeps is the smallest one of its
value.** -/
theorem cache_transparent_iff (f : IndexFactory) {t : IndexTables K V} (ht : t.Inverse)
    {ops : List (Op K V)} (hlegal : EachStep exec Legal (f.openForWrite t) ops) :
    (∀ p, p <+: ops → ∀ v,
      ((run exec (f.openForWrite t) p).getAnyForIndex v).1 =
          ((run exec ((IndexFactory.new 0).openForWrite t) p).getAnyForIndex v).1 ∧
        (run exec (f.openForWrite t) p).Smallest v
          ((run exec (f.openForWrite t) p).getAnyForIndex v).1) ↔
      EachStep exec Descending (f.openForWrite t) ops := by
  have hiff := run_safe_iff exec Least (fun s => ∀ v, s.Smallest v (s.answer v)) Legal Descending
    (least_openForWrite f ht) (fun s h => h.smallest) (fun s op h => h.exec)
      (fun s op _ => not_smallest_exec) hlegal
  rw [← hiff]
  refine forall_congr' fun p => imp_congr_right fun hp => forall_congr' fun v => ?_
  have hsound : (run exec (f.openForWrite t) p).Sound :=
    run_inv (sound_openForWrite f ht) (fun t op h hop => h.exec hop) hlegal p hp
  have hplain : (run exec (f.openForWrite t) p).Smallest v
      (answer (run exec ((IndexFactory.new 0).openForWrite t) p) v) :=
    answer_plain f t hsound.inverse v
  exact ⟨fun h => h.2, fun h => ⟨h.eq hplain, h⟩⟩

/-! ### Two keys of one value -/

omit [CacheKey V] in
lemma inverse_empty : (IndexTables.empty : IndexTables K V).Inverse := by
  intro k v
  simp [IndexTables.empty]

/-- Two keys get the value `7`, one after the other. -/
def twoKeys (k k' : ℕ) : List (Op ℕ ℕ) := [.insertKv k 7, .insertKv k' 7]

lemma legal_twoKeys {k k' : ℕ} (h : k ≠ k') (f : IndexFactory) :
    EachStep exec Legal (f.openForWrite IndexTables.empty) (twoKeys k k') := by
  simp only [twoKeys, eachStep_cons]
  refine ⟨?_, ?_, eachStep_nil _ _⟩
  · simp [Legal, Op.inserted, IndexFactory.openForWrite, IndexTables.empty]
  · simp [Legal, Op.inserted, IndexFactory.openForWrite, IndexTables.empty, exec, insertKv,
      Table.get_insert, h.symm]

lemma descending_twoKeys {k k' : ℕ} (h : k' < k) (f : IndexFactory) :
    EachStep exec Descending (f.openForWrite IndexTables.empty) (twoKeys k k') := by
  -- a single pair is the last one of its batch
  have hone : ∀ (t : IndexTable ℕ ℕ) k v, (∀ k', t.indexByPk.get k' = some v → k < k') →
      Descending t (.insertKv k v) := by
    intro t k v hlt before k₀ v₀ after hsplit _ _ k' hk'
    obtain ⟨rfl, hcons⟩ := List.append_eq_singleton_iff.mp hsplit.symm |>.resolve_right (by simp)
    cases hcons
    exact hlt k' (hk'.resolve_right (by simp))
  simp only [twoKeys, eachStep_cons]
  refine ⟨hone _ _ _ ?_, hone _ _ _ ?_, eachStep_nil _ _⟩
  · simp [IndexFactory.openForWrite, IndexTables.empty]
  · intro k₀ hk₀
    simp only [IndexFactory.openForWrite, IndexTables.empty, exec, insertKv, Table.get_insert] at hk₀
    split at hk₀
    · next heq => exact heq ▸ h
    · simp at hk₀

theorem index_run_sound_twoKeys :
    (run exec ((IndexFactory.new 1).openForWrite IndexTables.empty) (twoKeys 1 2)).Holder 7 (some 2) :=
  (index_run_sound (IndexFactory.new 1) inverse_empty (legal_twoKeys (show 1 ≠ 2 by decide) _)).2 7

theorem cache_transparent_twoKeys :
    ((run exec ((IndexFactory.new 1).openForWrite IndexTables.empty) (twoKeys 2 1)).getAnyForIndex
      7).1 =
      ((run exec ((IndexFactory.new 0).openForWrite IndexTables.empty) (twoKeys 2 1)).getAnyForIndex
        7).1 :=
  ((cache_transparent_iff (IndexFactory.new 1) inverse_empty
    (legal_twoKeys (show 2 ≠ 1 by decide) _)).mpr
    (descending_twoKeys (by decide) _) _ (List.prefix_refl _) 7).1

/-- **The key that was inserted last is not the smallest.** -/
theorem cache_gives_last :
    ((run exec ((IndexFactory.new 1).openForWrite IndexTables.empty) (twoKeys 1 2)).getAnyForIndex
      7).1 ≠
      ((run exec ((IndexFactory.new 0).openForWrite IndexTables.empty) (twoKeys 1 2)).getAnyForIndex
        7).1 := by
  have hcached : ((run exec ((IndexFactory.new 1).openForWrite IndexTables.empty)
    (twoKeys 1 2)).getAnyForIndex 7).1 =
    some 2 := rfl
  have hsound : (run exec ((IndexFactory.new 1).openForWrite IndexTables.empty) (twoKeys 1 2)).Sound :=
    run_inv (sound_openForWrite _ inverse_empty) (fun t op h hop => h.exec hop)
      (legal_twoKeys (show 1 ≠ 2 by decide) _) _ (List.prefix_refl _)
  have hplain := answer_plain (IndexFactory.new 1) IndexTables.empty hsound.inverse 7
  intro heq
  rw [answer, ← heq, hcached] at hplain
  exact absurd (hplain.2 2 rfl 1 rfl) (by decide)

end IndexTable

end Redbit.Storage
