import Redbit.Storage.DictTable
import Redbit.Lib.Run

/-!
# The dictionary column against a plain map

The cache never changes what a single write does (`insertKv_tables`), so the runs are studied on the
four tables alone, with the cacheless writes `DictTables.put` and `DictTables.del`.  A dictionary
that satisfies `DictTables.Inv` is a plain map together with its inverse image
(`Inv.mem_listedKeys`).

Deletes keep the invariant.  An insert of an absent key keeps it unless the key is the birth id of a
value that other keys still use and the insert brings a new value (`BirthClash`): then the row of
the birth id is overwritten, and those other keys change their value (`put_clash`).
-/

set_option linter.unusedSectionVars false

namespace Redbit.Storage

open Redbit.Lib

variable {K V : Type} [LinearOrder K] [LinearOrder V]

/-! ### Writes without a cache -/

namespace DictTables

/-- The key `k` becomes a user of the birth id `b`. -/
def link (t : DictTables K V) (k b : K) : DictTables K V :=
  { t with dictPkByKey := t.dictPkByKey.insert k b, dictPkToKeys := t.dictPkToKeys.insert b k }

/-- The key `k` becomes the birth id of the new value `v`, and its first user. -/
def birth (t : DictTables K V) (k : K) (v : V) : DictTables K V :=
  { t.link k k with
    valueToDictPk := t.valueToDictPk.insert v k
    valueByDictPk := t.valueByDictPk.insert k v }

/-- `insert_kv` without a cache. -/
def put (t : DictTables K V) (k : K) (v : V) : DictTables K V :=
  match t.valueToDictPk.get v with
  | some b => t.link k b
  | none => t.birth k v

/-- The key `k` stops being a user of the birth id `b`. -/
def unlink (t : DictTables K V) (k b : K) : DictTables K V :=
  { t with dictPkByKey := t.dictPkByKey.remove k, dictPkToKeys := t.dictPkToKeys.remove b k }

/-- The key `k`, the last user of the birth id `b`, goes together with the value of `b`. -/
def forget (t : DictTables K V) (k b : K) (v : V) : DictTables K V :=
  { t.unlink k b with
    valueByDictPk := t.valueByDictPk.remove b
    valueToDictPk := t.valueToDictPk.remove v }

/-- `delete_kv` without a cache. -/
def del (t : DictTables K V) (k : K) : DictTables K V :=
  match t.dictPkByKey.get k with
  | some b =>
    if (t.dictPkToKeys.remove b k).get b = ∅ then
      match t.valueByDictPk.get b with
      | some v => t.forget k b v
      | none => t.unlink k b
    else t.unlink k b
  | none => t

lemma put_of_some {t : DictTables K V} {v : V} {b : K} (h : t.valueToDictPk.get v = some b) (k : K) :
    t.put k v = t.link k b := by
  unfold put
  rw [h]

lemma put_of_none {t : DictTables K V} {v : V} (h : t.valueToDictPk.get v = none) (k : K) :
    t.put k v = t.birth k v := by
  unfold put
  rw [h]

end DictTables

/-! ### The cache changes nothing -/

namespace DictTable

variable [CacheKey V]

/-- Every cached birth id is the one in `value_to_dict_pk`. -/
def CacheAgrees (d : DictTable K V) : Prop :=
  ∀ v b, cachePeek d.cache (cacheKey v) = some b → d.valueToDictPk.get v = some b

theorem cacheAgrees_openForWrite (f : DictFactory) (t : DictTables K V) :
    (f.openForWrite t : DictTable K V).CacheAgrees := by
  intro v b h
  rw [show (f.openForWrite t : DictTable K V).cache = f.newCache from rfl, cachePeek_newCache] at h
  cases h

/-- The result of `insert_kv`, read off the tables: the cache is right where it answers. -/
theorem insertKv_cases {d : DictTable K V} (hd : d.CacheAgrees) (k : K) (v : V) :
    (∃ b cache, d.valueToDictPk.get v = some b ∧
      d.insertKv k v = { d.toDictTables.link k b with cache := cache } ∧
      ∀ v' b', cachePeek cache (cacheKey v') = some b' → d.valueToDictPk.get v' = some b') ∨
    (∃ cache, d.valueToDictPk.get v = none ∧
      d.insertKv k v = { d.toDictTables.birth k v with cache := cache } ∧
      ∀ v' b', cachePeek cache (cacheKey v') = some b' →
        (v' = v ∧ b' = k) ∨ d.valueToDictPk.get v' = some b') := by
  have hget := cacheGet_fst d.cache (cacheKey v)
  have hsnd := fun k' => cachePeek_cacheGet d.cache (cacheKey v) k'
  unfold insertKv
  split
  · rename_i b cache hc
    rw [hc] at hget hsnd
    refine Or.inl ⟨b, cache, hd v b hget.symm, rfl, fun v' b' h => hd v' b' ?_⟩
    rw [← hsnd]
    exact h
  · rename_i cache hc
    rw [hc] at hsnd
    split
    · rename_i b hb
      refine Or.inl ⟨b, _, hb, rfl, fun v' b' h => ?_⟩
      rcases cachePeek_cachePut h with ⟨hv, rfl⟩ | ⟨-, h⟩
      · rw [cacheKey_injective hv, hb]
      · exact hd v' b' ((hsnd _).symm.trans h)
    · rename_i hb
      refine Or.inr ⟨_, hb, rfl, fun v' b' h => ?_⟩
      rcases cachePeek_cachePut h with ⟨hv, rfl⟩ | ⟨-, h⟩
      · exact Or.inl ⟨cacheKey_injective hv, rfl⟩
      · exact Or.inr (hd v' b' ((hsnd _).symm.trans h))

theorem insertKv_tables {d : DictTable K V} (hd : d.CacheAgrees) (k : K) (v : V) :
    (d.insertKv k v).toDictTables = d.toDictTables.put k v := by
  rcases insertKv_cases hd k v with ⟨b, cache, hb, he, -⟩ | ⟨cache, hb, he, -⟩
  · rw [he, DictTables.put_of_some hb]
  · rw [he, DictTables.put_of_none hb]

theorem insertKv_cacheAgrees {d : DictTable K V} (hd : d.CacheAgrees) (k : K) (v : V) :
    (d.insertKv k v).CacheAgrees := by
  rcases insertKv_cases hd k v with ⟨b, cache, hb, he, hc⟩ | ⟨cache, hb, he, hc⟩
  · rw [he]
    exact hc
  · rw [he]
    intro v' b' h
    show (d.valueToDictPk.insert v k).get v' = some b'
    rw [Table.get_insert]
    rcases hc v' b' h with ⟨rfl, rfl⟩ | hold
    · rw [if_pos rfl]
    · rw [if_neg (fun hv => by rw [hv, hb] at hold; cases hold), hold]

theorem deleteKv_tables (d : DictTable K V) (k : K) :
    (d.deleteKv k).2.toDictTables = d.toDictTables.del k := by
  unfold deleteKv DictTables.del
  cases d.dictPkByKey.get k with
  | none => rfl
  | some b =>
    simp only
    by_cases h : (d.dictPkToKeys.remove b k).get b = ∅
    · rw [if_pos h, if_pos h]
      cases d.valueByDictPk.get b <;> rfl
    · rw [if_neg h, if_neg h]
      rfl

theorem deleteKv_cacheAgrees {d : DictTable K V} (hd : d.CacheAgrees) (k : K) :
    (d.deleteKv k).2.CacheAgrees := by
  unfold deleteKv
  cases d.dictPkByKey.get k with
  | none => exact hd
  | some b =>
    simp only
    split
    · cases d.valueByDictPk.get b with
      | none => exact hd
      | some v =>
        -- the row of `v` goes, and so does its cache entry
        intro v' b' h
        rw [cachePeek_cachePop] at h
        split at h
        · cases h
        · rename_i hne
          show (d.valueToDictPk.remove v).get v' = some b'
          rw [Table.get_remove, if_neg (fun hv => hne (by rw [hv])), hd v' b' h]
    · exact hd

end DictTable

/-! ### The invariant of the four tables -/

namespace DictTables

/-- The invariant of the four tables: the two value tables are inverse to each other, the two key
tables are inverse to each other, every birth id in use has a value, and every stored value is in
use. -/
structure Inv (t : DictTables K V) : Prop where
  values : ∀ v b, t.valueToDictPk.get v = some b ↔ t.valueByDictPk.get b = some v
  users : ∀ b k, k ∈ t.dictPkToKeys.get b ↔ t.dictPkByKey.get k = some b
  valued : ∀ k b, t.dictPkByKey.get k = some b → ∃ v, t.valueByDictPk.get b = some v
  used : ∀ b v, t.valueByDictPk.get b = some v → ∃ k, t.dictPkByKey.get k = some b

theorem inv_empty : (empty : DictTables K V).Inv :=
  ⟨by simp [empty], by simp [empty], by simp [empty], by simp [empty]⟩

lemma getValue_eq_some {t : DictTables K V} {k : K} {v : V} :
    t.getValue k = some v ↔ ∃ b, t.dictPkByKey.get k = some b ∧ t.valueByDictPk.get b = some v :=
  Option.bind_eq_some_iff

lemma getValue_of_absent {t : DictTables K V} {k : K} (h : t.dictPkByKey.get k = none) :
    t.getValue k = none := by
  unfold getValue
  rw [h]
  rfl

variable {t : DictTables K V}

lemma Inv.absent_iff (ht : t.Inv) {k : K} : t.dictPkByKey.get k = none ↔ t.getValue k = none := by
  refine ⟨getValue_of_absent, fun h => ?_⟩
  cases hk : t.dictPkByKey.get k with
  | none => rfl
  | some b =>
    obtain ⟨v, hv⟩ := ht.valued k b hk
    rw [getValue_eq_some.mpr ⟨b, hk, hv⟩] at h
    cases h

/-- `dict_keys` lists the keys of a value. -/
theorem Inv.mem_listedKeys (ht : t.Inv) {k : K} {v : V} :
    k ∈ t.listedKeys v ↔ t.getValue k = some v := by
  unfold listedKeys dictKeys
  rw [getValue_eq_some]
  cases hv : t.valueToDictPk.get v with
  | none =>
    simp only [Option.map_none, Option.getD_none, Finset.notMem_empty, false_iff, not_exists, not_and]
    intro b _ hb
    rw [← ht.values, hv] at hb
    cases hb
  | some b =>
    simp only [Option.map_some, Option.getD_some]
    rw [ht.users]
    constructor
    · exact fun hk => ⟨b, hk, (ht.values v b).mp hv⟩
    · rintro ⟨b', hk, hb'⟩
      rw [← ht.values, hv] at hb'
      rw [hk, Option.some.inj hb']

/-! ### Inserts -/

/-- `k` is the birth id of a value that is still stored, and the insert of `v` under `k` would make
it the birth id of a second one. -/
def BirthClash (t : DictTables K V) (k : K) (v : V) : Prop :=
  t.valueToDictPk.get v = none ∧ t.valueByDictPk.get k ≠ none

instance (t : DictTables K V) (k : K) (v : V) : Decidable (t.BirthClash k v) := by
  unfold BirthClash
  infer_instance

section Link

variable {k b : K} {v : V}

lemma Inv.link (ht : t.Inv) (hk : t.dictPkByKey.get k = none ∨ t.dictPkByKey.get k = some b)
    (hb : t.valueByDictPk.get b = some v) : (t.link k b).Inv where
  values := ht.values
  users b' k' := by
    show k' ∈ (t.dictPkToKeys.insert b k).get b' ↔ (t.dictPkByKey.insert k b).get k' = some b'
    rw [Multimap.mem_get_insert, Table.get_insert, ht.users]
    by_cases hkk : k' = k
    · subst hkk
      rcases hk with hk | hk <;> simp [hk, eq_comm]
    · simp [hkk]
  valued k' b' h := by
    replace h : (t.dictPkByKey.insert k b).get k' = some b' := h
    rw [Table.get_insert] at h
    split at h
    · obtain rfl := Option.some.inj h
      exact ⟨v, hb⟩
    · exact ht.valued k' b' h
  used b' v' h := by
    obtain ⟨k', hk'⟩ := ht.used b' v' h
    by_cases hkk : k' = k
    · subst hkk
      refine ⟨k', ?_⟩
      rcases hk with hk | hk
      · rw [hk] at hk'
        cases hk'
      · rw [hk] at hk'
        show (t.dictPkByKey.insert k' b).get k' = some b'
        rw [Table.get_insert_self, hk']
    · exact ⟨k', (Table.get_insert_of_ne _ _ hkk).trans hk'⟩

lemma getValue_link (hb : t.valueByDictPk.get b = some v) (k' : K) :
    (t.link k b).getValue k' = if k' = k then some v else t.getValue k' := by
  show ((t.dictPkByKey.insert k b).get k').bind t.valueByDictPk.get = _
  rw [Table.get_insert]
  split
  · exact hb
  · rfl

end Link

section Birth

variable {k : K} {v : V}

lemma Inv.notUsed (ht : t.Inv) (hk : t.valueByDictPk.get k = none) (k' : K) :
    t.dictPkByKey.get k' ≠ some k := by
  intro h
  obtain ⟨v', hv'⟩ := ht.valued k' k h
  rw [hk] at hv'
  cases hv'

lemma Inv.birth (ht : t.Inv) (hv : t.valueToDictPk.get v = none) (hk : t.valueByDictPk.get k = none)
    (habs : t.dictPkByKey.get k = none) : (t.birth k v).Inv where
  values v' b' := by
    show (t.valueToDictPk.insert v k).get v' = some b' ↔ (t.valueByDictPk.insert k v).get b' = some v'
    rw [Table.get_insert, Table.get_insert]
    by_cases hv' : v' = v
    · subst hv'
      by_cases hb' : b' = k
      · simp [hb']
      · have : t.valueByDictPk.get b' ≠ some v' := by
          rw [Ne, ← ht.values, hv]
          simp
        simp [hb', this, Ne.symm hb']
    · by_cases hb' : b' = k
      · subst hb'
        have : t.valueToDictPk.get v' ≠ some b' := by
          rw [Ne, ht.values, hk]
          simp
        simp [hv', this, Ne.symm hv']
      · simp [hv', hb', ht.values]
  users b' k' := by
    show k' ∈ (t.dictPkToKeys.insert k k).get b' ↔ (t.dictPkByKey.insert k k).get k' = some b'
    rw [Multimap.mem_get_insert, Table.get_insert, ht.users]
    by_cases hkk : k' = k
    · subst hkk
      simp [habs, eq_comm]
    · simp [hkk]
  valued k' b' h := by
    replace h : (t.dictPkByKey.insert k k).get k' = some b' := h
    show ∃ w, (t.valueByDictPk.insert k v).get b' = some w
    rw [Table.get_insert] at h
    split at h
    · obtain rfl := Option.some.inj h
      exact ⟨v, Table.get_insert_self ..⟩
    · obtain ⟨w, hw⟩ := ht.valued k' b' h
      refine ⟨w, (Table.get_insert_of_ne _ _ ?_).trans hw⟩
      rintro rfl
      exact ht.notUsed hk k' h
  used b' v' h := by
    replace h : (t.valueByDictPk.insert k v).get b' = some v' := h
    show ∃ k', (t.dictPkByKey.insert k k).get k' = some b'
    rw [Table.get_insert] at h
    split at h
    · rename_i hb'
      exact ⟨k, by rw [hb', Table.get_insert_self]⟩
    · obtain ⟨k', hk'⟩ := ht.used b' v' h
      refine ⟨k', (Table.get_insert_of_ne _ _ ?_).trans hk'⟩
      rintro rfl
      rw [habs] at hk'
      cases hk'

lemma Inv.getValue_birth (ht : t.Inv) (hk : t.valueByDictPk.get k = none) (k' : K) :
    (t.birth k v).getValue k' = if k' = k then some v else t.getValue k' := by
  show ((t.dictPkByKey.insert k k).get k').bind (t.valueByDictPk.insert k v).get = _
  rw [Table.get_insert]
  split
  · exact Table.get_insert_self ..
  · unfold getValue
    cases hb : t.dictPkByKey.get k' with
    | none => rfl
    | some b =>
      refine Table.get_insert_of_ne _ _ ?_
      rintro rfl
      exact ht.notUsed hk k' hb

end Birth

/-- An insert of an absent key, or of the value the key has already, keeps the invariant unless
there is a clash. -/
theorem Inv.put (ht : t.Inv) {k : K} {v : V} (hk : t.getValue k = none ∨ t.getValue k = some v)
    (hc : ¬ t.BirthClash k v) :
    (t.put k v).Inv ∧ ∀ k', (t.put k v).getValue k' = if k' = k then some v else t.getValue k' := by
  cases hv : t.valueToDictPk.get v with
  | some b =>
    have hb := (ht.values v b).mp hv
    have hkb : t.dictPkByKey.get k = none ∨ t.dictPkByKey.get k = some b := by
      rcases hk with hk | hk
      · exact Or.inl (ht.absent_iff.mpr hk)
      · obtain ⟨b', hb', hv'⟩ := getValue_eq_some.mp hk
        rw [← ht.values, hv] at hv'
        exact Or.inr (Option.some.inj hv' ▸ hb')
    rw [put_of_some hv]
    exact ⟨ht.link hkb hb, getValue_link hb⟩
  | none =>
    have hkn : t.valueByDictPk.get k = none := by
      by_contra h
      exact hc ⟨hv, h⟩
    have habs : t.dictPkByKey.get k = none := by
      rcases hk with hk | hk
      · exact ht.absent_iff.mpr hk
      · obtain ⟨b, -, hb⟩ := getValue_eq_some.mp hk
        rw [← ht.values, hv] at hb
        cases hb
    rw [put_of_none hv]
    exact ⟨ht.birth hv hkn habs, ht.getValue_birth hkn⟩

/-- A clash changes the value of another key: the value stored under the birth id is overwritten. -/
theorem Inv.put_clash (ht : t.Inv) {k : K} {v : V} (hk : t.getValue k = none) (hc : t.BirthClash k v) :
    ∃ k' w, k' ≠ k ∧ t.getValue k' = some w ∧ (t.put k v).getValue k' = some v ∧ v ≠ w := by
  obtain ⟨hv, hkv⟩ := hc
  obtain ⟨w, hw⟩ := Option.ne_none_iff_exists'.mp hkv
  obtain ⟨k', hk'⟩ := ht.used k w hw
  have hne : k' ≠ k := by
    rintro rfl
    rw [ht.absent_iff.mpr hk] at hk'
    cases hk'
  refine ⟨k', w, hne, getValue_eq_some.mpr ⟨k, hk', hw⟩, ?_, ?_⟩
  · rw [put_of_none hv, getValue_eq_some]
    exact ⟨k, (Table.get_insert_of_ne _ _ hne).trans hk', Table.get_insert_self ..⟩
  · rintro rfl
    rw [← ht.values, hv] at hw
    cases hw

/-! ### Deletes -/

section Unlink

variable {k b : K} {v : V}

lemma users_unlink (hu : ∀ b k, k ∈ t.dictPkToKeys.get b ↔ t.dictPkByKey.get k = some b)
    (hk : t.dictPkByKey.get k = some b) (b' k' : K) :
    k' ∈ (t.unlink k b).dictPkToKeys.get b' ↔ (t.unlink k b).dictPkByKey.get k' = some b' := by
  show k' ∈ (t.dictPkToKeys.remove b k).get b' ↔ (t.dictPkByKey.remove k).get k' = some b'
  rw [Multimap.mem_get_remove, Table.get_remove, hu]
  by_cases hkk : k' = k
  · subst hkk
    simp [hk, eq_comm]
  · simp [hkk]

lemma unlink_eq_some {k' b' : K} :
    (t.unlink k b).dictPkByKey.get k' = some b' ↔ k' ≠ k ∧ t.dictPkByKey.get k' = some b' := by
  show (t.dictPkByKey.remove k).get k' = some b' ↔ _
  rw [Table.get_remove]
  split <;> simp_all

lemma Inv.unlink (ht : t.Inv) (hk : t.dictPkByKey.get k = some b)
    (hother : ∃ k', k' ≠ k ∧ t.dictPkByKey.get k' = some b) : (t.unlink k b).Inv where
  values := ht.values
  users := users_unlink ht.users hk
  valued k' b' h := ht.valued k' b' (unlink_eq_some.mp h).2
  used b' v' h := by
    by_cases hb' : b' = b
    · subst hb'
      obtain ⟨k', hk'⟩ := hother
      exact ⟨k', unlink_eq_some.mpr hk'⟩
    · obtain ⟨k', hk'⟩ := ht.used b' v' h
      refine ⟨k', unlink_eq_some.mpr ⟨?_, hk'⟩⟩
      rintro rfl
      rw [hk] at hk'
      exact hb' (Option.some.inj hk').symm

lemma getValue_unlink (k' : K) :
    (t.unlink k b).getValue k' = if k' = k then none else t.getValue k' := by
  show ((t.dictPkByKey.remove k).get k').bind t.valueByDictPk.get = _
  rw [Table.get_remove]
  split <;> rfl

lemma Inv.forget (ht : t.Inv) (hk : t.dictPkByKey.get k = some b) (hv : t.valueByDictPk.get b = some v)
    (hlast : ∀ k', t.dictPkByKey.get k' = some b → k' = k) : (t.forget k b v).Inv where
  values v' b' := by
    show (t.valueToDictPk.remove v).get v' = some b' ↔ (t.valueByDictPk.remove b).get b' = some v'
    rw [Table.get_remove, Table.get_remove]
    by_cases hv' : v' = v
    · subst hv'
      by_cases hb' : b' = b
      · simp [hb']
      · have : t.valueByDictPk.get b' ≠ some v' := by
          rw [Ne, ← ht.values, (ht.values v' b).mpr hv]
          simpa using Ne.symm hb'
        simp [hb', this]
    · by_cases hb' : b' = b
      · subst hb'
        have : t.valueToDictPk.get v' ≠ some b' := by
          rw [Ne, ht.values, hv]
          simpa using Ne.symm hv'
        simp [hv', this]
      · simp [hv', hb', ht.values]
  users := users_unlink ht.users hk
  valued k' b' h := by
    obtain ⟨hne, hkb⟩ := (unlink_eq_some (b := b)).mp h
    obtain ⟨w, hw⟩ := ht.valued k' b' hkb
    refine ⟨w, ?_⟩
    show (t.valueByDictPk.remove b).get b' = some w
    rw [Table.get_remove, if_neg, hw]
    rintro rfl
    exact hne (hlast k' hkb)
  used b' v' h := by
    replace h : (t.valueByDictPk.remove b).get b' = some v' := h
    rw [Table.get_remove] at h
    split at h
    · cases h
    · rename_i hb'
      obtain ⟨k', hk'⟩ := ht.used b' v' h
      refine ⟨k', (unlink_eq_some (b := b)).mpr ⟨?_, hk'⟩⟩
      rintro rfl
      rw [hk] at hk'
      exact hb' (Option.some.inj hk').symm

lemma getValue_forget (hlast : ∀ k', t.dictPkByKey.get k' = some b → k' = k) (k' : K) :
    (t.forget k b v).getValue k' = if k' = k then none else t.getValue k' := by
  show ((t.dictPkByKey.remove k).get k').bind (t.valueByDictPk.remove b).get = _
  rw [Table.get_remove]
  split
  · rfl
  · rename_i hne
    unfold getValue
    cases hb' : t.dictPkByKey.get k' with
    | none => rfl
    | some b' =>
      show (t.valueByDictPk.remove b).get b' = t.valueByDictPk.get b'
      rw [Table.get_remove, if_neg]
      rintro rfl
      exact hne (hlast k' hb')

/-- What a delete does: nothing, or the key leaves its birth id, which goes with its last user. -/
lemma del_cases (hu : ∀ b k, k ∈ t.dictPkToKeys.get b ↔ t.dictPkByKey.get k = some b)
    (hvalued : ∀ k b, t.dictPkByKey.get k = some b → ∃ v, t.valueByDictPk.get b = some v) (k : K) :
    (t.dictPkByKey.get k = none ∧ t.del k = t) ∨
    ∃ b v, t.dictPkByKey.get k = some b ∧ t.valueByDictPk.get b = some v ∧
      ((∃ k', k' ≠ k ∧ t.dictPkByKey.get k' = some b) ∧ t.del k = t.unlink k b ∨
        (∀ k', t.dictPkByKey.get k' = some b → k' = k) ∧ t.del k = t.forget k b v) := by
  unfold DictTables.del
  cases hk : t.dictPkByKey.get k with
  | none => exact Or.inl ⟨rfl, rfl⟩
  | some b =>
    obtain ⟨v, hv⟩ := hvalued k b hk
    refine Or.inr ⟨b, v, rfl, hv, ?_⟩
    simp only [hv]
    split
    · rename_i hempty
      refine Or.inr ⟨fun k' hk' => ?_, rfl⟩
      by_contra hne
      have : k' ∈ (t.dictPkToKeys.remove b k).get b :=
        (users_unlink hu hk b k').mpr (unlink_eq_some.mpr ⟨hne, hk'⟩)
      rw [hempty] at this
      simp at this
    · rename_i hne
      obtain ⟨k', hk'⟩ := Finset.nonempty_of_ne_empty hne
      exact Or.inl ⟨⟨k', unlink_eq_some.mp ((users_unlink hu hk b k').mp hk')⟩, rfl⟩

end Unlink

/-- A delete keeps the invariant, and removes its key from the map. -/
theorem Inv.del (ht : t.Inv) (k : K) :
    (t.del k).Inv ∧ ∀ k', (t.del k).getValue k' = if k' = k then none else t.getValue k' := by
  rcases del_cases ht.users ht.valued k with ⟨hk, he⟩ | ⟨b, v, hk, hv, ⟨hother, he⟩ | ⟨hlast, he⟩⟩
  · rw [he]
    refine ⟨ht, fun k' => ?_⟩
    by_cases hkk : k' = k
    · rw [if_pos hkk, hkk, getValue_of_absent hk]
    · rw [if_neg hkk]
  · rw [he]
    exact ⟨ht.unlink hk hother, getValue_unlink⟩
  · rw [he]
    exact ⟨ht.forget hk hv hlast, getValue_forget hlast⟩

end DictTables

/-! ### Runs -/

/-- The single-row writes of a dictionary column. -/
inductive DictOp (K V : Type) where
  | insertKv (k : K) (v : V)
  | deleteKv (k : K)

/-- The write `op` on an open table. -/
def DictTable.apply [CacheKey V] (d : DictTable K V) : DictOp K V → DictTable K V
  | .insertKv k v => d.insertKv k v
  | .deleteKv k => (d.deleteKv k).2

/-- The table after the writes `ops` on an empty column, the cache as the factory makes it. -/
def dictRun [CacheKey V] (f : DictFactory) (ops : List (DictOp K V)) : DictTable K V :=
  run DictTable.apply (f.openForWrite DictTables.empty) ops

/-- The write `op` on a plain map. -/
def plainApply (m : K → Option V) : DictOp K V → K → Option V
  | .insertKv k v => putMap m k v
  | .deleteKv k => eraseMap m k

/-- The value of the last insert of each key that was not deleted since. -/
def lastInsert (ops : List (DictOp K V)) : K → Option V := run plainApply (fun _ => none) ops

/-- The tables read as the plain map `m` and as its inverse. -/
def DictTables.Refines (t : DictTables K V) (m : K → Option V) : Prop :=
  (∀ k, t.getValue k = m k) ∧ ∀ v k, k ∈ t.listedKeys v ↔ m k = some v

/-- Inserts are issued for keys that are not in the map at that moment. -/
def DictOp.Fresh (m : K → Option V) : DictOp K V → Prop
  | .insertKv k _ => m k = none
  | .deleteKv _ => True

/-- The write does not make a birth id that is in use the birth id of a second value. -/
def DictOp.NoClash (t : DictTables K V) : DictOp K V → Prop
  | .insertKv k v => ¬ t.BirthClash k v
  | .deleteKv _ => True

section Runs

variable [CacheKey V]

/-- What holds along a run without a clash: the cache agrees with the tables, and these hold the map
`m`. -/
def DictRep (d : DictTable K V) (m : K → Option V) : Prop :=
  d.CacheAgrees ∧ d.toDictTables.Inv ∧ ∀ k, d.getValue k = m k

section Rep

variable {d : DictTable K V} {m : K → Option V}

lemma DictRep.mem_listedKeys (h : DictRep d m) (v : V) (k : K) :
    k ∈ d.listedKeys v ↔ m k = some v := by
  rw [h.2.1.mem_listedKeys, h.2.2]

lemma DictRep.refines (h : DictRep d m) : d.Refines m := ⟨h.2.2, h.mem_listedKeys⟩

lemma dictRep_empty (f : DictFactory) :
    DictRep (f.openForWrite DictTables.empty : DictTable K V) fun _ => none :=
  ⟨DictTable.cacheAgrees_openForWrite f _, DictTables.inv_empty,
    fun _ => DictTables.getValue_of_absent (Table.get_empty _)⟩

lemma DictRep.insertKv (h : DictRep d m) {k : K} {v : V} (hk : m k = none ∨ m k = some v)
    (hc : ¬ d.BirthClash k v) : DictRep (d.insertKv k v) (putMap m k v) := by
  obtain ⟨hcache, hinv, hval⟩ := h
  rw [← hval k] at hk
  have hput := hinv.put hk hc
  rw [← DictTable.insertKv_tables hcache] at hput
  refine ⟨DictTable.insertKv_cacheAgrees hcache k v, hput.1, fun k' => ?_⟩
  rw [hput.2, hval]
  rfl

lemma DictRep.deleteKv (h : DictRep d m) (k : K) : DictRep (d.deleteKv k).2 (eraseMap m k) := by
  obtain ⟨hcache, hinv, hval⟩ := h
  have hdel := hinv.del k
  rw [← DictTable.deleteKv_tables] at hdel
  refine ⟨DictTable.deleteKv_cacheAgrees hcache k, hdel.1, fun k' => ?_⟩
  rw [hdel.2, hval]
  rfl

lemma DictRep.step (h : DictRep d m) {op : DictOp K V} (hf : op.Fresh m)
    (hc : op.NoClash d.toDictTables) : DictRep (d.apply op) (plainApply m op) := by
  cases op with
  | insertKv k v => exact h.insertKv (Or.inl hf) hc
  | deleteKv k => exact h.deleteKv k

lemma DictRep.clash (h : DictRep d m) {op : DictOp K V} (hf : op.Fresh m)
    (hc : ¬ op.NoClash d.toDictTables) : ¬ (d.apply op).Refines (plainApply m op) := by
  obtain ⟨hcache, hinv, hval⟩ := h
  cases op with
  | deleteKv k => exact absurd trivial hc
  | insertKv k v =>
    rintro ⟨href, -⟩
    obtain ⟨k', w, hne, hold, hnew, hvw⟩ := hinv.put_clash ((hval k).trans hf) (not_not.mp hc)
    have hread := href k'
    rw [show (d.apply (.insertKv k v)).toDictTables = _ from DictTable.insertKv_tables hcache k v,
      hnew] at hread
    rw [show plainApply m (.insertKv k v) k' = m k' from if_neg hne, ← hval, hold] at hread
    exact hvw (Option.some.inj hread)

end Rep

/-- **A run of inserts of absent keys and of deletes reads as the plain map it describes, at every
moment, exactly when no insert of a new value reuses a birth id that other keys still need.** -/
theorem dictRun_refines_iff (f : DictFactory) (ops : List (DictOp K V))
    (hfresh : EachStep plainApply (fun m op => op.Fresh m) (fun _ => none) ops) :
    (∀ p, p <+: ops → (dictRun f p).Refines (lastInsert p)) ↔
      EachStep DictTable.apply (fun d op => op.NoClash d.toDictTables)
        (f.openForWrite DictTables.empty) ops := by
  set s₀ : DictTable K V × (K → Option V) := (f.openForWrite DictTables.empty, fun _ => none) with hs₀
  have hrun : ∀ p, run (fun s (op : DictOp K V) => (s.1.apply op, plainApply s.2 op)) s₀ p =
      (dictRun f p, lastInsert p) := fun p => run_prod ..
  have hlegal : EachStep (fun s (op : DictOp K V) => (s.1.apply op, plainApply s.2 op))
      (fun s op => op.Fresh s.2) s₀ ops := by
    intro p a hp
    rw [hrun]
    exact hfresh p a hp
  have key := run_safe_iff (fun s (op : DictOp K V) => (s.1.apply op, plainApply s.2 op))
    (fun s => DictRep s.1 s.2) (fun s => s.1.Refines s.2) (fun s op => op.Fresh s.2)
    (fun s op => op.NoClash s.1.toDictTables) (dictRep_empty f) (fun s hs => hs.refines)
    (fun s op hs hf hc => hs.step hf hc) (fun s op hs hf hc => hs.clash hf hc) hlegal
  simp only [EachStep, hrun] at key
  exact key

/-- The birth id `1` of the value `10` is reused for `20` while `2` still needs it. -/
theorem dictRun_birth_reused :
    let ops : List (DictOp ℕ ℕ) := [.insertKv 1 10, .insertKv 2 10, .deleteKv 1, .insertKv 1 20]
    EachStep plainApply (fun m op => op.Fresh m) (fun _ => none) ops ∧
      lastInsert ops 2 = some 10 ∧ (dictRun (DictFactory.new 0) ops).getValue 2 = some 20 := by
  refine ⟨?_, by decide, by decide⟩
  simp [eachStep_cons, eachStep_nil, DictOp.Fresh, plainApply, putMap, eraseMap]

/-- A run with shared and reused keys and a cache of one entry that meets the condition. -/
theorem dictRun_refines_shared :
    let ops : List (DictOp ℕ ℕ) := [.insertKv 1 10, .insertKv 2 10, .insertKv 3 20, .deleteKv 1,
      .insertKv 1 20]
    (dictRun (DictFactory.new 1) ops).Refines (lastInsert ops) := by
  intro ops
  have hfresh : EachStep plainApply (fun m op => op.Fresh m) (fun _ => none) ops := by
    simp [ops, eachStep_cons, eachStep_nil, DictOp.Fresh, plainApply, putMap, eraseMap]
  refine (dictRun_refines_iff (DictFactory.new 1) ops hfresh).mpr ?_ ops List.prefix_rfl
  simp only [ops, eachStep_cons, eachStep_nil, DictOp.NoClash]
  decide

end Runs

end Redbit.Storage
