import Mathlib.Data.Finmap
import Mathlib.Data.Finset.Max
import Mathlib.Data.Finset.Sort

/-!
# Tables and multimap tables

A table of an embedded key-value store is a finite map; a multimap table is a finite relation whose
rows under one key are read in the order of the values.  `Table` is Mathlib's `Finmap` with a constant
family, `Multimap` is a `Finset` of pairs.  Both are extensional: two tables with the same reads are
equal.

* `Table.ext`, `Multimap.ext` — equality from reads;
* `Table.get_insert`, `Table.get_remove`, `Multimap.mem_get_insert`, … — what a write does to the
reads;
* `Table.insertAll`, `Multimap.insertAll` — a list of writes, one after the other;
* `putAll`, `eraseMap`, `filterMap` — the same on plain maps, and the rows that satisfy a predicate.
-/

namespace Redbit.Lib

open scoped List

/-! ### Sorting -/

section Sorting

variable {K : Type*} [LinearOrder K]

-- Shortcuts for `Finset.sort`: every definition that sorts keys refers to the same proofs.

instance isTrans_le : IsTrans K (· ≤ ·) := inferInstance

instance antisymm_le : @Std.Antisymm K (· ≤ ·) := inferInstance

instance total_le : @Std.Total K (· ≤ ·) := inferInstance

end Sorting

/-! ### Tables -/

/-- A table: at most one value for each key, finitely many keys. -/
def Table (K V : Type*) := Finmap fun _ : K => V

namespace Table

variable {K V : Type*}

/-- The table without rows. -/
def empty : Table K V := (∅ : Finmap fun _ : K => V)

instance : Inhabited (Table K V) := ⟨empty⟩

variable [DecidableEq K]

instance [DecidableEq V] : DecidableEq (Table K V) :=
  inferInstanceAs (DecidableEq (Finmap fun _ : K => V))

/-- The value stored under `k`. -/
def get (t : Table K V) (k : K) : Option V := Finmap.lookup (β := fun _ : K => V) k t

/-- Writes `v` under `k`, over what was there. -/
def insert (t : Table K V) (k : K) (v : V) : Table K V :=
  Finmap.insert (β := fun _ : K => V) k v t

/-- Removes the row of `k`, if there is one. -/
def remove (t : Table K V) (k : K) : Table K V := Finmap.erase (β := fun _ : K => V) k t

@[ext] theorem ext {s t : Table K V} (h : ∀ k, s.get k = t.get k) : s = t :=
  Finmap.ext_lookup (β := fun _ : K => V) h

@[simp] lemma get_empty (k : K) : (empty : Table K V).get k = none :=
  Finmap.lookup_empty (β := fun _ : K => V) k

lemma get_empty_ne_some (k : K) (v : V) : (empty : Table K V).get k ≠ some v := by
  rw [get_empty]
  simp

lemma get_insert (t : Table K V) (k k' : K) (v : V) :
    (t.insert k v).get k' = if k' = k then some v else t.get k' := by
  by_cases h : k' = k
  · subst h
    rw [if_pos rfl]
    exact Finmap.lookup_insert (β := fun _ : K => V) t
  · rw [if_neg h]
    exact Finmap.lookup_insert_of_ne (β := fun _ : K => V) t h

@[simp] lemma get_insert_self (t : Table K V) (k : K) (v : V) : (t.insert k v).get k = some v := by
  rw [get_insert, if_pos rfl]

lemma get_insert_of_ne (t : Table K V) {k k' : K} (v : V) (h : k' ≠ k) :
    (t.insert k v).get k' = t.get k' := by
  rw [get_insert, if_neg h]

lemma get_remove (t : Table K V) (k k' : K) :
    (t.remove k).get k' = if k' = k then none else t.get k' := by
  by_cases h : k' = k
  · subst h
    rw [if_pos rfl]
    exact Finmap.lookup_erase (β := fun _ : K => V) k' t
  · rw [if_neg h]
    exact Finmap.lookup_erase_ne (β := fun _ : K => V) h

/-- The keys of the rows. -/
def keys (t : Table K V) : Finset K := Finmap.keys (β := fun _ : K => V) t

lemma mem_keys {t : Table K V} {k : K} : k ∈ t.keys ↔ ∃ v, t.get k = some v :=
  Finmap.mem_keys.trans (Finmap.mem_iff (β := fun _ : K => V))

lemma keys_remove (t : Table K V) (k : K) : (t.remove k).keys = t.keys.erase k := by
  ext k'
  rw [Finset.mem_erase, mem_keys, mem_keys]
  by_cases h : k' = k <;> simp [get_remove, h]

/-- The list of writes `kvs`, in order. -/
def insertAll (t : Table K V) (kvs : List (K × V)) : Table K V :=
  kvs.foldl (fun t kv => t.insert kv.1 kv.2) t

@[simp] lemma insertAll_nil (t : Table K V) : t.insertAll [] = t := rfl

@[simp] lemma insertAll_cons (t : Table K V) (kv : K × V) (kvs : List (K × V)) :
    t.insertAll (kv :: kvs) = (t.insert kv.1 kv.2).insertAll kvs := rfl

lemma insertAll_append (t : Table K V) (kvs kvs' : List (K × V)) :
    t.insertAll (kvs ++ kvs') = (t.insertAll kvs).insertAll kvs' :=
  List.foldl_append ..

/-- Writing a row that is there changes nothing. -/
lemma insert_of_get {t : Table K V} {k : K} {v : V} (h : t.get k = some v) : t.insert k v = t := by
  ext1 k'
  rw [get_insert]
  split
  · rename_i hk
    rw [hk, h]
  · rfl

lemma insertAll_of_get {t : Table K V} {kvs : List (K × V)} (h : ∀ kv ∈ kvs, t.get kv.1 = some kv.2) :
    t.insertAll kvs = t := by
  induction kvs with
  | nil => rfl
  | cons kv kvs ih =>
    rw [insertAll_cons, insert_of_get (h kv List.mem_cons_self)]
    exact ih fun x hx => h x (List.mem_cons_of_mem _ hx)

lemma get_insertAll_of_notMem {kvs : List (K × V)} {k : K} (h : ∀ kv ∈ kvs, kv.1 ≠ k) :
    ∀ t : Table K V, (t.insertAll kvs).get k = t.get k := by
  induction kvs with
  | nil => intro t; rfl
  | cons kv kvs ih =>
    intro t
    rw [insertAll_cons, ih (fun x hx => h x (List.mem_cons_of_mem _ hx)),
      get_insert_of_ne _ _ (h kv List.mem_cons_self).symm]

/-- A read after a list of writes is the last write of the key, or the old row. -/
lemma get_insertAll_eq_some {kvs : List (K × V)} {k : K} {v : V} (t : Table K V)
    (h : (t.insertAll kvs).get k = some v) : (k, v) ∈ kvs ∨ t.get k = some v := by
  induction kvs generalizing t with
  | nil => exact Or.inr h
  | cons kv kvs ih =>
    rcases ih _ h with hm | hg
    · exact Or.inl (List.mem_cons_of_mem _ hm)
    · rw [get_insert] at hg
      split at hg
      · rename_i hk
        obtain ⟨k', v'⟩ := kv
        obtain rfl : v' = v := Option.some.inj hg
        exact Or.inl (hk ▸ List.mem_cons_self)
      · exact Or.inr hg

/-- Writes to pairwise distinct keys are all read back. -/
lemma get_insertAll_of_mem {kvs : List (K × V)} (hnd : (kvs.map Prod.fst).Nodup) {k : K} {v : V}
    (h : (k, v) ∈ kvs) (t : Table K V) : (t.insertAll kvs).get k = some v := by
  induction kvs generalizing t with
  | nil => simp at h
  | cons kv kvs ih =>
    obtain ⟨hkv, hnd⟩ := List.nodup_cons.mp hnd
    rcases List.mem_cons.mp h with rfl | h
    · have hne : ∀ x ∈ kvs, x.1 ≠ k := fun x hx e => hkv (List.mem_map.mpr ⟨x, hx, e⟩)
      rw [insertAll_cons, get_insertAll_of_notMem hne, get_insert_self]
    · exact ih hnd h _

/-- The order of a list of writes to pairwise distinct keys does not matter. -/
lemma insertAll_perm {kvs kvs' : List (K × V)} (h : kvs.Perm kvs') (hnd : (kvs.map Prod.fst).Nodup)
    (t : Table K V) : t.insertAll kvs = t.insertAll kvs' := by
  ext1 k
  have hnd' : (kvs'.map Prod.fst).Nodup := (h.map _).nodup_iff.mp hnd
  by_cases hk : ∃ v, (k, v) ∈ kvs
  · obtain ⟨v, hv⟩ := hk
    rw [get_insertAll_of_mem hnd hv, get_insertAll_of_mem hnd' (h.mem_iff.mp hv)]
  · have hne : ∀ kv ∈ kvs, kv.1 ≠ k := by
      rintro ⟨k', v⟩ hkv rfl
      exact hk ⟨v, hkv⟩
    rw [get_insertAll_of_notMem hne, get_insertAll_of_notMem fun kv hkv => hne kv (h.mem_iff.mpr hkv)]

end Table

/-! ### Plain maps -/

section PlainMap

variable {K V : Type*} [DecidableEq K]

/-- The map `m` with `v` under `k`. -/
def putMap (m : K → Option V) (k : K) (v : V) :
    K → Option V := fun k' => if k' = k then some v else m k'

/-- The map `m` without `k`. -/
def eraseMap (m : K → Option V) (k : K) : K → Option V := fun k' => if k' = k then none else m k'

/-- The map `m` after the list of writes `kvs`. -/
def putAll (m : K → Option V) (kvs : List (K × V)) : K → Option V :=
  kvs.foldl (fun m kv => putMap m kv.1 kv.2) m

@[simp] lemma putAll_nil (m : K → Option V) : putAll m [] = m := rfl

@[simp] lemma putAll_cons (m : K → Option V) (kv : K × V) (kvs : List (K × V)) :
    putAll m (kv :: kvs) = putAll (putMap m kv.1 kv.2) kvs := rfl

lemma putMap_self (m : K → Option V) (k : K) (v : V) : putMap m k v k = some v := if_pos rfl

lemma putMap_of_ne (m : K → Option V) {k k' : K} (v : V) (h : k' ≠ k) :
    putMap m k v k' = m k' := if_neg h

lemma putAll_of_notMem {kvs : List (K × V)} {k : K} (h : k ∉ kvs.map Prod.fst) (m : K → Option V) :
    putAll m kvs k = m k := by
  induction kvs generalizing m with
  | nil => rfl
  | cons kv kvs ih =>
    rw [List.map_cons, List.mem_cons, not_or] at h
    rw [putAll_cons, ih h.2, putMap_of_ne _ _ h.1]

lemma putAll_of_mem {kvs : List (K × V)} (hnd : (kvs.map Prod.fst).Nodup) {k : K} {v : V}
    (h : (k, v) ∈ kvs) (m : K → Option V) : putAll m kvs k = some v := by
  induction kvs generalizing m with
  | nil => simp at h
  | cons kv kvs ih =>
    obtain ⟨hkv, hnd⟩ := List.nodup_cons.mp hnd
    rw [putAll_cons]
    rcases List.mem_cons.mp h with rfl | h
    · rw [putAll_of_notMem hkv, putMap_self]
    · exact ih hnd h _

lemma Table.get_insertAll (t : Table K V) (kvs : List (K × V)) :
    (t.insertAll kvs).get = putAll t.get kvs := by
  induction kvs generalizing t with
  | nil => rfl
  | cons kv kvs ih =>
    rw [insertAll_cons, ih, putAll_cons]
    congr 1
    funext k
    exact Table.get_insert ..

/-- The rows of `m` with `p`. -/
def filterMap (p : K → V → Prop) [∀ k v, Decidable (p k v)] (m : K → Option V) : K → Option V :=
  fun k => (m k).filter fun v => p k v

section FilterMap

variable {p : K → V → Prop} [∀ k v, Decidable (p k v)] {m : K → Option V} {k : K} {v : V}

omit [DecidableEq K] in
lemma filterMap_eq_some : filterMap p m k = some v ↔ m k = some v ∧ p k v := by
  unfold filterMap
  rw [Option.filter_eq_some_iff, decide_eq_true_iff]

lemma filterMap_eraseMap : filterMap p (eraseMap m k) = eraseMap (filterMap p m) k := by
  funext k'
  unfold filterMap eraseMap
  split <;> rfl

/-- Erasing a key that is filtered out changes nothing. -/
lemma filterMap_eraseMap_of_none (h : filterMap p m k = none) :
    filterMap p (eraseMap m k) = filterMap p m := by
  rw [filterMap_eraseMap]
  funext k'
  unfold eraseMap
  split
  · next heq => rw [heq, h]
  · rfl

/-- Writes that replace no value by another one are filtered one by one. -/
lemma filterMap_putAll {kvs : List (K × V)} (hnd : (kvs.map Prod.fst).Nodup)
    (hkeep : ∀ kv ∈ kvs, m kv.1 = none ∨ m kv.1 = some kv.2) :
    filterMap p (putAll m kvs) = putAll (filterMap p m) (kvs.filter fun kv => p kv.1 kv.2) := by
  have hsub : (kvs.filter fun kv => p kv.1 kv.2).map Prod.fst <+ kvs.map Prod.fst :=
    List.filter_sublist.map _
  funext k
  by_cases hk : k ∈ kvs.map Prod.fst
  · obtain ⟨⟨k, v⟩, hkv, rfl⟩ := List.mem_map.mp hk
    by_cases hp : p k v
    · have hmem : (k, v) ∈ kvs.filter fun kv => p kv.1 kv.2 :=
        List.mem_filter.mpr ⟨hkv, decide_eq_true hp⟩
      rw [putAll_of_mem (hnd.sublist hsub) hmem, filterMap_eq_some]
      exact ⟨putAll_of_mem hnd hkv m, hp⟩
    · -- the only pair of this key is filtered out, and so was what it replaces
      have hnot : k ∉ (kvs.filter fun kv => p kv.1 kv.2).map Prod.fst := by
        intro hmem
        obtain ⟨kv', hkv', heq⟩ := List.mem_map.mp hmem
        obtain ⟨hkv', hp'⟩ := List.mem_filter.mp hkv'
        obtain rfl := List.inj_on_of_nodup_map hnd hkv' hkv heq
        exact hp (of_decide_eq_true hp')
      rw [putAll_of_notMem hnot]
      unfold filterMap
      rw [putAll_of_mem hnd hkv]
      rcases hkeep _ hkv with hm | hm <;> simp [hm, hp]
  · rw [putAll_of_notMem fun hmem => hk (hsub.subset hmem)]
    unfold filterMap
    rw [putAll_of_notMem hk]

end FilterMap

end PlainMap

/-! ### Multimap tables -/

/-- A multimap table: a finite set of rows, several values for a key. -/
structure Multimap (K V : Type*) where
  rows : Finset (K × V)
  deriving DecidableEq

namespace Multimap

variable {K V : Type*}

/-- The multimap without rows. -/
def empty : Multimap K V := ⟨∅⟩

instance : Inhabited (Multimap K V) := ⟨empty⟩

variable [DecidableEq K] [DecidableEq V]

/-- The values stored under `k`. -/
def get (m : Multimap K V) (k : K) : Finset V := (m.rows.filter fun r => r.1 = k).image Prod.snd

/-- Adds the row `(k, v)`. -/
def insert (m : Multimap K V) (k : K) (v : V) : Multimap K V := ⟨Insert.insert (k, v) m.rows⟩

/-- Removes the row `(k, v)`. -/
def remove (m : Multimap K V) (k : K) (v : V) : Multimap K V := ⟨m.rows.erase (k, v)⟩

lemma mem_get {m : Multimap K V} {k : K} {v : V} : v ∈ m.get k ↔ (k, v) ∈ m.rows := by
  unfold get
  simp

@[ext] theorem ext {m m' : Multimap K V} (h : ∀ k v, v ∈ m.get k ↔ v ∈ m'.get k) : m = m' := by
  obtain ⟨s⟩ := m
  obtain ⟨s'⟩ := m'
  congr 1
  refine Finset.ext fun r => ?_
  have := h r.1 r.2
  rwa [mem_get, mem_get] at this

@[simp] lemma get_empty (k : K) : (empty : Multimap K V).get k = ∅ := by
  unfold get empty
  simp

lemma mem_get_insert {m : Multimap K V} {k k' : K} {v v' : V} :
    v' ∈ (m.insert k v).get k' ↔ (k' = k ∧ v' = v) ∨ v' ∈ m.get k' := by
  rw [mem_get, mem_get]
  unfold insert
  rw [Finset.mem_insert, Prod.mk.injEq]

lemma mem_get_remove {m : Multimap K V} {k k' : K} {v v' : V} :
    v' ∈ (m.remove k v).get k' ↔ ¬ (k' = k ∧ v' = v) ∧ v' ∈ m.get k' := by
  rw [mem_get, mem_get]
  unfold remove
  rw [Finset.mem_erase, Ne, Prod.mk.injEq]

/-- The list of writes `rows`, in order. -/
def insertAll (m : Multimap K V) (rows : List (K × V)) : Multimap K V :=
  rows.foldl (fun m r => m.insert r.1 r.2) m

@[simp] lemma insertAll_nil (m : Multimap K V) : m.insertAll [] = m := rfl

@[simp] lemma insertAll_cons (m : Multimap K V) (r : K × V) (rows : List (K × V)) :
    m.insertAll (r :: rows) = (m.insert r.1 r.2).insertAll rows := rfl

lemma insertAll_append (m : Multimap K V) (rows rows' : List (K × V)) :
    m.insertAll (rows ++ rows') = (m.insertAll rows).insertAll rows' :=
  List.foldl_append ..

lemma mem_get_insertAll {rows : List (K × V)} {k : K} {v : V} (m : Multimap K V) :
    v ∈ (m.insertAll rows).get k ↔ (k, v) ∈ rows ∨ v ∈ m.get k := by
  induction rows generalizing m with
  | nil => simp
  | cons r rows ih =>
    rw [insertAll_cons, ih, mem_get_insert, List.mem_cons]
    obtain ⟨k', v'⟩ := r
    rw [Prod.mk.injEq]
    tauto

/-- Writing rows that are there changes nothing. -/
lemma insertAll_of_mem {m : Multimap K V} {rows : List (K × V)} (h : ∀ r ∈ rows, r.2 ∈ m.get r.1) :
    m.insertAll rows = m := by
  ext k v
  rw [mem_get_insertAll]
  exact ⟨fun hv => hv.elim (h (k, v)) id, Or.inr⟩

/-- The order of a list of multimap writes does not matter. -/
lemma insertAll_perm {rows rows' : List (K × V)} (h : rows.Perm rows') (m : Multimap K V) :
    m.insertAll rows = m.insertAll rows' := by
  ext k v
  rw [mem_get_insertAll, mem_get_insertAll, h.mem_iff]

end Multimap

end Redbit.Lib
