import Redbit.Storage.DictBatch
import Redbit.Storage.IndexCache

/-!
# Rolling back the newest rows

A reorganisation deletes the rows of the newest blocks, in any order.  `rollback_restores`: for all
three kinds of columns this brings back the tables from before these rows were inserted, whatever
the caches.

For a dictionary column the insertion is not always the one that is meant: a batch may give a new value
several birth ids.  What is left in place all the time (`Grown`) is that such ids belong to the new
keys.
-/

set_option linter.unusedSectionVars false

namespace Redbit.Storage

open Redbit.Lib

/-! ### Inserting and deleting -/

/-- An insertion. -/
inductive Insert (K V : Type) where
  | kv (k : K) (v : V)
  | many (pairs : List (K × V))

/-- The pairs it inserts. -/
def Insert.pairs {K V : Type} : Insert K V → List (K × V)
  | .kv k v => [(k, v)]
  | .many pairs => pairs

/-- The keys of several insertions. -/
def keysOf {K V : Type} (ins : List (Insert K V)) : List K := ins.flatMap fun i => i.pairs.map Prod.fst

namespace WriteTable

variable {D T K V : Type} (W : WriteTable D T K V)

/-- The table after an insertion. -/
def insert (t : T) : Insert K V → T
  | .kv k v => W.insertKv t k v
  | .many pairs => W.insertManySortedByKey t pairs

/-- The table after several insertions. -/
def insertEach (t : T) (ins : List (Insert K V)) : T := ins.foldl W.insert t

/-- The keys `ks` are deleted, one after the other. -/
def deleteEach (t : T) : List K → List Bool × T
  | [] => ([], t)
  | k :: ks =>
    let rest := deleteEach (W.deleteKv t k).2 ks
    ((W.deleteKv t k).1 :: rest.1, rest.2)

/-- **Deleting the keys that were inserted, in any order, restores the tables.**  `Above t k` says
that the key is greater than all in the tables; the deletes may have another cache. -/
def RollsBack (Consistent : T → Prop) (Above : T → K → Prop) : Prop :=
  ∀ t, Consistent t → ∀ ins : List (Insert K V), (keysOf ins).Nodup → (∀ k ∈ keysOf ins, Above t k) →
    ∀ t', W.tables t' = W.tables (W.insertEach t ins) → ∀ order, order.Perm (keysOf ins) →
      (∀ b ∈ (W.deleteEach t' order).1, b = true) ∧ W.tables (W.deleteEach t' order).2 = W.tables t

variable {W}

/-- How to prove it: `Ins t ks t'` holds while the keys `ks` are inserted, `Del d ks t'` while they are
deleted. -/
theorem rollsBack_of {Consistent : T → Prop} {Above : T → K → Prop} (Ins : T → List K → T → Prop)
    (Del : D → List K → T → Prop) (hstart : ∀ t, Consistent t → Ins t [] t)
    (hinsert : ∀ t ks t' i, Ins t ks t' → (∀ kv ∈ Insert.pairs i, Above t kv.1) →
      (ks ++ (Insert.pairs i).map Prod.fst).Nodup →
        Ins t (ks ++ (Insert.pairs i).map Prod.fst) (W.insert t' i))
    (hturn : ∀ t ks t' t'', Ins t ks t' → W.tables t'' = W.tables t' → Del (W.tables t) ks t'')
    (hdelete : ∀ d k ks t, Del d (k :: ks) t → (k :: ks).Nodup →
      (W.deleteKv t k).1 = true ∧ Del d ks (W.deleteKv t k).2)
    (hperm : ∀ d ks ks' t, ks.Perm ks' → Del d ks t → Del d ks' t)
    (hdone : ∀ d t, Del d [] t → W.tables t = d) : W.RollsBack Consistent Above := by
  intro t ht ins hnd habove t' ht' order horder
  have hins : ∀ (ins : List (Insert K V)) ks t', Ins t ks t' → (ks ++ keysOf ins).Nodup →
    (∀ k ∈ keysOf ins, Above t k) →
      Ins t (ks ++ keysOf ins) (W.insertEach t' ins) := by
    intro ins
    induction ins with
    | nil =>
      intro ks t' h _ _
      rw [keysOf, List.flatMap_nil, List.append_nil]
      exact h
    | cons i ins ih =>
      intro ks t' h hnd habove
      rw [keysOf, List.flatMap_cons, ← List.append_assoc] at hnd ⊢
      rw [keysOf, List.flatMap_cons, List.forall_mem_append] at habove
      refine ih _ _ (hinsert t ks t' i h (fun kv hkv => ?_) (List.nodup_append.mp hnd).1) hnd habove.2
      exact habove.1 kv.1 (List.mem_map_of_mem hkv)
  have hdel : ∀ ks t', Del (W.tables t) ks t' → ks.Nodup →
      (∀ b ∈ (W.deleteEach t' ks).1, b = true) ∧ W.tables (W.deleteEach t' ks).2 = W.tables t := by
    intro ks
    induction ks with
    | nil =>
      intro t' h _
      exact ⟨by simp [deleteEach], hdone _ _ h⟩
    | cons k ks ih =>
      intro t' h hnd
      obtain ⟨htrue, hrest⟩ := hdelete _ k ks t' h hnd
      obtain ⟨hall, htables⟩ := ih _ hrest (List.nodup_cons.mp hnd).2
      exact ⟨List.forall_mem_cons.mpr ⟨htrue, hall⟩, htables⟩
  have hall := hins ins [] t (hstart t ht) (by simpa using hnd) habove
  exact hdel order t' (hperm _ _ _ _ horder.symm (hturn _ _ _ _ hall ht')) (horder.nodup_iff.mpr hnd)

end WriteTable

/-! ### Plain columns -/

section Plain

variable {K V : Type} [LinearOrder K]

/-- The table `t'` is `t` with further rows, of the keys `ks`. -/
structure MoreRows (t : Table K V) (ks : List K) (t' : Table K V) : Prop where
  same : ∀ k ∉ ks, t'.get k = t.get k
  present : ∀ k ∈ ks, (t'.get k).isSome
  absent : ∀ k ∈ ks, t.get k = none

lemma get_insertAll_of_key {t : Table K V} {pairs : List (K × V)} {k : K}
    (hk : k ∉ pairs.map Prod.fst) :
    (t.insertAll pairs).get k = t.get k := by
  refine Table.get_insertAll_of_notMem (fun kv hkv hkv' => hk ?_) t
  rw [← hkv']
  exact List.mem_map_of_mem hkv

lemma MoreRows.insertAll {t t' : Table K V} {ks : List K} {pairs : List (K × V)} (h : MoreRows t ks t')
    (habs : ∀ kv ∈ pairs, t.get kv.1 = none) (hnd : (pairs.map Prod.fst).Nodup)
    (hnew : ∀ kv ∈ pairs, kv.1 ∉ ks) :
    MoreRows t (ks ++ pairs.map Prod.fst) (t'.insertAll pairs) where
  same k hk := by
    obtain ⟨hk, hkp⟩ := not_or.mp (fun h => hk (List.mem_append.mpr h))
    rw [get_insertAll_of_key hkp]
    exact h.same k hk
  present k hk := by
    rcases List.mem_append.mp hk with hk | hk
    · have hkp : k ∉ pairs.map Prod.fst := by
        intro hkp
        obtain ⟨kv, hkv, rfl⟩ := List.mem_map.mp hkp
        exact hnew kv hkv hk
      rw [get_insertAll_of_key hkp]
      exact h.present k hk
    · obtain ⟨kv, hkv, rfl⟩ := List.mem_map.mp hk
      rw [Table.get_insertAll_of_mem hnd (v := kv.2) hkv]
      rfl
  absent k hk := by
    rcases List.mem_append.mp hk with hk | hk
    · exact h.absent k hk
    · obtain ⟨kv, hkv, rfl⟩ := List.mem_map.mp hk
      exact habs kv hkv

lemma MoreRows.insert {t t' : Table K V} {ks : List K} (h : MoreRows t ks t') {k : K}
    (hk : t.get k = none) (hnot : k ∉ ks) (v : V) : MoreRows t (ks ++ [k]) (t'.insert k v) :=
  show MoreRows t (ks ++ [(k, v)].map Prod.fst) (t'.insertAll [(k, v)]) from
    h.insertAll (by simpa using hk) (by simp) (by simpa using hnot)

lemma MoreRows.remove {t t' : Table K V} {k : K} {ks : List K} (h : MoreRows t (k :: ks) t')
    (hnd : (k :: ks).Nodup) : MoreRows t ks (t'.remove k) where
  same k' hk' := by
    rw [Table.get_remove]
    split
    · next heq => rw [heq, h.absent k List.mem_cons_self]
    · next hne => exact h.same k' (by simp [hne, hk'])
  present k' hk' := by
    have hne : k' ≠ k := fun heq => (List.nodup_cons.mp hnd).1 (heq ▸ hk')
    rw [Table.get_remove, if_neg hne]
    exact h.present k' (List.mem_cons_of_mem _ hk')
  absent k' hk' := h.absent k' (List.mem_cons_of_mem _ hk')

lemma MoreRows.perm {t t' : Table K V} {ks ks' : List K} (h : MoreRows t ks t') (hp : ks.Perm ks') :
    MoreRows t ks' t' where
  same k hk := h.same k fun hk' => hk (hp.mem_iff.mp hk')
  present k hk := h.present k (hp.mem_iff.mpr hk)
  absent k hk := h.absent k (hp.mem_iff.mpr hk)

lemma MoreRows.nil (t : Table K V) : MoreRows t [] t := ⟨fun _ _ => rfl, by simp, by simp⟩

lemma MoreRows.eq {t t' : Table K V} (h : MoreRows t [] t') : t' = t := by
  ext k v
  rw [h.same k (by simp)]

lemma nodup_parts {ks : List K} {pairs : List (K × V)} (h : (ks ++ pairs.map Prod.fst).Nodup) :
    (pairs.map Prod.fst).Nodup ∧ ∀ kv ∈ pairs, kv.1 ∉ ks :=
  ⟨(List.nodup_append.mp h).2.1, fun _ hkv hk =>
    (List.nodup_append.mp h).2.2 _ hk _ (List.mem_map_of_mem hkv) rfl⟩

/-- The key is greater than all in the table. -/
def plainAbove (t : Table K V) (k : K) : Prop := ∀ k' v, t.get k' = some v → k' < k

lemma absent_of_above {t : Table K V} {k : K} (h : plainAbove t k) : t.get k = none := by
  cases hk : t.get k with
  | none => rfl
  | some v => exact absurd (h k v hk) (lt_irrefl k)

theorem plain_rollsBack : (plainTable K V).RollsBack (fun _ => True) plainAbove := by
  refine WriteTable.rollsBack_of MoreRows MoreRows (fun t _ => .nil t)
    (fun t ks t' i h habove hnd => ?_)
    (fun t ks t' t'' h (heq : t'' = t') => heq ▸ h)
      (fun d k ks t h hnd => ⟨h.present k List.mem_cons_self, h.remove hnd⟩)
    (fun d ks ks' t hp h => h.perm hp) (fun d t h => h.eq)
  have habs : ∀ kv ∈ i.pairs, t.get kv.1 = none := fun kv hkv => absent_of_above (habove kv hkv)
  obtain ⟨hnd, hnew⟩ := nodup_parts hnd
  cases i with
  | kv k v => exact h.insertAll habs hnd hnew
  | many pairs => exact h.insertAll habs hnd hnew

end Plain

/-! ### Index columns -/

section Index

variable {K V : Type} [LinearOrder K] [LinearOrder V] [CacheKey V]

/-- The key is greater than all in the two tables. -/
def indexAbove (t : IndexTable K V) (k : K) : Prop :=
  (∀ k' v, t.indexByPk.get k' = some v → k' < k) ∧ ∀ v, ∀ k' ∈ t.pkByIndex.get v, k' < k

/-- The tables with further rows. -/
structure MoreIndexRows (t : IndexTables K V) (ks : List K) (t' : IndexTable K V) : Prop where
  before : t.Inverse
  inverse : t'.Inverse
  rows : MoreRows t.indexByPk ks t'.indexByPk

lemma IndexTables.Inverse.eq {t t' : IndexTables K V} (h : t.Inverse) (h' : t'.Inverse)
    (heq : t'.indexByPk = t.indexByPk) : t' = t := by
  have hrev : t'.pkByIndex = t.pkByIndex := by
    ext v k
    rw [h k v, h' k v, heq]
  cases t
  cases t'
  cases heq
  cases hrev
  rfl

lemma MoreIndexRows.insertMany {t : IndexTables K V} {t' : IndexTable K V} {ks : List K}
    {pairs : List (K × V)} (h : MoreIndexRows t ks t')
    (habs : ∀ kv ∈ pairs, t.indexByPk.get kv.1 = none) (hnd : (pairs.map Prod.fst).Nodup)
    (hnew : ∀ kv ∈ pairs, kv.1 ∉ ks) :
    MoreIndexRows t (ks ++ pairs.map Prod.fst) (t'.insertManySortedByKey pairs) where
  before := h.before
  inverse := by
    refine IndexTable.inverse_insertMany h.inverse hnd fun kv hkv => ?_
    rw [h.rows.same kv.1 (hnew kv hkv)]
    exact habs kv hkv
  rows := h.rows.insertAll habs hnd hnew

theorem index_rollsBack (f : IndexFactory) :
    (indexTable f K V).RollsBack (fun t => t.Inverse) indexAbove := by
  refine WriteTable.rollsBack_of (fun t => MoreIndexRows t.toIndexTables) MoreIndexRows
    (fun t ht => ⟨ht, ht, .nil _⟩) (fun t ks t' i h habove hnd => ?_) (fun t ks t' t'' h heq => ?_)
    (fun d k ks t h hnd => ?_) (fun d ks ks' t hp h => ⟨h.before, h.inverse, h.rows.perm hp⟩)
    (fun d t h => h.before.eq h.inverse h.rows.eq)
  · have habs : ∀ kv ∈ i.pairs, t.indexByPk.get kv.1 = none := fun kv hkv =>
      absent_of_above (habove kv hkv).1
    obtain ⟨hnd, hnew⟩ := nodup_parts hnd
    cases i with
    | kv k v =>
      rw [WriteTable.insert, show (indexTable f K V).insertKv t' k v = t'.insertKv k v from rfl,
        IndexTable.insertKv_eq_insertMany]
      exact h.insertMany habs hnd hnew
    | many pairs => exact h.insertMany habs hnd hnew
  · have hfwd : t''.indexByPk = t'.indexByPk := congrArg IndexTables.indexByPk heq
    refine ⟨h.before, ?_, hfwd ▸ h.rows⟩
    rw [show t''.toIndexTables = t'.toIndexTables from heq]
    exact h.inverse
  · obtain ⟨v, hv⟩ := Option.isSome_iff_exists.mp (h.rows.present k List.mem_cons_self)
    rcases IndexTable.deleteKv_cases h.inverse k with ⟨hnone, -⟩ | ⟨v', -, hdel⟩
    · rw [hv] at hnone
      cases hnone
    · have hinv := IndexTable.inverse_deleteKv h.inverse k
      show (t.deleteKv k).1 = true ∧ MoreIndexRows d ks (t.deleteKv k).2
      rw [hdel] at hinv ⊢
      exact ⟨rfl, h.before, hinv, h.rows.remove hnd⟩

end Index

/-! ### Dictionary columns -/

section Dict

variable {K V : Type} [LinearOrder K] [LinearOrder V]

/-- The tables `t` are `s` with the rows of the keys `ks`; of these rows `links` and `births` are
still to be written.  A value that `s` does not have may have several birth ids. -/
structure Grown (s : DictTables K V) (ks : List K) (t : DictTables K V) (links : List (K × K))
    (births : List (V × K)) : Prop where
  before : s.Inv
  rows : MoreRows s.dictPkByKey ks t.dictPkByKey
  users : ∀ b k, (k ∈ t.dictPkToKeys.get b ∨ (b, k) ∈ links) ↔ t.dictPkByKey.get k = some b
  kept : ∀ b v, s.valueByDictPk.get b = some v → t.valueByDictPk.get b = some v
  keptId : ∀ v b, s.valueToDictPk.get v = some b → t.valueToDictPk.get v = some b
  fresh : ∀ b v, t.valueByDictPk.get b = some v → s.valueByDictPk.get b = none →
    s.valueToDictPk.get v = none
  used : ∀ b v, t.valueByDictPk.get b = some v → ∃ k, t.dictPkByKey.get k = some b
  valued : ∀ k b, t.dictPkByKey.get k = some b → ∃ v, t.valueByDictPk.get b = some v
  known : ∀ v b, (t.valueToDictPk.get v = some b ∨ (v, b) ∈ births) → t.valueByDictPk.get b = some v
  unknown : ∀ v b, (v, b) ∈ births → s.valueToDictPk.get v = none

namespace Grown

variable {s t : DictTables K V} {ks : List K} {links : List (K × K)} {births : List (V × K)}

lemma nil (h : s.Inv) : Grown s [] s [] [] where
  before := h
  rows := .nil _
  users b k := by simpa using h.users b k
  kept _ _ hb := hb
  keptId _ _ hv := hv
  fresh b v hb hnone := by
    rw [hb] at hnone
    cases hnone
  used := h.used
  valued := h.valued
  known v b hv := (h.values v b).mp (by simpa using hv)
  unknown _ _ hmem := nomatch hmem

/-- Without further rows the tables are the same. -/
lemma eq (h : Grown s [] t [] []) : t = s := by
  have hrows : t.dictPkByKey = s.dictPkByKey := h.rows.eq
  have hkeys : t.dictPkToKeys = s.dictPkToKeys := by
    ext b k
    have hb := h.users b k
    rw [or_iff_left (by simp)] at hb
    rw [hb, h.before.users, hrows]
  have hvalues : t.valueByDictPk = s.valueByDictPk := by
    ext b v
    refine ⟨fun hb => ?_, h.kept b v⟩
    obtain ⟨k, hk⟩ := h.used b v hb
    rw [hrows] at hk
    obtain ⟨v', hv'⟩ := h.before.valued k b hk
    rw [hv', ← h.kept b v' hv', hb]
  have hids : t.valueToDictPk = s.valueToDictPk := by
    ext v b
    refine ⟨fun hv => ?_, h.keptId v b⟩
    have hb := h.known v b (Or.inl hv)
    rw [hvalues] at hb
    exact (h.before.values v b).mpr hb
  cases s
  cases t
  cases hrows
  cases hkeys
  cases hvalues
  cases hids
  rfl

lemma perm {ks' : List K} (h : Grown s ks t links births) (hp : ks.Perm ks') :
    Grown s ks' t links births :=
  { h with rows := h.rows.perm hp }

/-- The deferred writes are made. -/
lemma settle (h : Grown s ks t links births) {links' : List (K × K)} {births' : List (V × K)}
    (hl : links'.Perm links) (hb : births'.Perm births) :
    Grown s ks { t with
      dictPkToKeys := t.dictPkToKeys.insertAll links'
      valueToDictPk := t.valueToDictPk.insertAll births' } [] [] where
  before := h.before
  rows := h.rows
  users b k := by
    rw [Multimap.mem_get_insertAll, hl.mem_iff, or_iff_left (by simp), or_comm]
    exact h.users b k
  kept := h.kept
  keptId v b hv := by
    show (t.valueToDictPk.insertAll births').get v = some b
    rw [Table.get_insertAll_of_notMem fun e he heq => ?_]
    · exact h.keptId v b hv
    · have hnone := h.unknown e.1 e.2 (hb.mem_iff.mp he)
      rw [heq, hv] at hnone
      cases hnone
  fresh := h.fresh
  used := h.used
  valued := h.valued
  known v b hv := by
    have hv : (t.valueToDictPk.insertAll births').get v = some b := by simpa using hv
    refine h.known v b ?_
    rcases Table.get_insertAll_eq_some t.valueToDictPk hv with hmem | hold
    · exact Or.inr (hb.mem_iff.mp hmem)
    · exact Or.inl hold
  unknown _ _ hmem := nomatch hmem

/-- A further key that uses the birth id `b`. -/
lemma link (h : Grown s ks t links births) {k b : K} {v : V} (hk : s.dictPkByKey.get k = none)
    (hnot : k ∉ ks) (hb : t.valueByDictPk.get b = some v) :
    Grown s (ks ++ [k]) { t with dictPkByKey := t.dictPkByKey.insert k b }
      (links ++ [(b, k)]) births where
  before := h.before
  rows := h.rows.insert hk hnot b
  users b' k' := by
    show _ ↔ (t.dictPkByKey.insert k b).get k' = some b'
    have habs : t.dictPkByKey.get k = none := (h.rows.same k hnot).trans hk
    rw [Table.get_insert, List.mem_append, List.mem_singleton, Prod.mk.injEq, ← or_assoc,
      h.users b' k']
    split
    · next heq =>
      subst heq
      rw [habs]
      simp [eq_comm]
    · next hne => simp [hne]
  kept := h.kept
  keptId := h.keptId
  fresh := h.fresh
  used b' v' hb' := by
    obtain ⟨k', hk'⟩ := h.used b' v' hb'
    refine ⟨k', ?_⟩
    show (t.dictPkByKey.insert k b).get k' = some b'
    rw [Table.get_insert, if_neg, hk']
    rintro rfl
    rw [h.rows.same k' hnot, hk] at hk'
    cases hk'
  valued k' b' hk' := by
    have hk' : (t.dictPkByKey.insert k b).get k' = some b' := hk'
    rw [Table.get_insert] at hk'
    split at hk'
    · obtain rfl := Option.some.inj hk'
      exact ⟨v, hb⟩
    · exact h.valued k' b' hk'
  known := h.known
  unknown := h.unknown

/-- A further key that becomes the birth id of its value. -/
lemma birth (h : Grown s ks t links births) {k : K} {v : V} (hk : s.dictPkByKey.get k = none)
    (hnot : k ∉ ks) (hid : t.valueByDictPk.get k = none) (hv : t.valueToDictPk.get v = none) :
    Grown s (ks ++ [k]) { t with
      dictPkByKey := t.dictPkByKey.insert k k
      valueByDictPk := t.valueByDictPk.insert k v } (links ++ [(k, k)]) (births ++ [(v, k)]) := by
  have hsv : s.valueToDictPk.get v = none := by
    cases hsv : s.valueToDictPk.get v with
    | none => rfl
    | some b =>
      rw [h.keptId v b hsv] at hv
      cases hv
  have hother : ∀ b v', t.valueByDictPk.get b = some v' →
      (t.valueByDictPk.insert k v).get b = some v' := by
    intro b v' hb
    rw [Table.get_insert, if_neg, hb]
    rintro rfl
    rw [hid] at hb
    cases hb
  have habs : t.dictPkByKey.get k = none := (h.rows.same k hnot).trans hk
  constructor
  · exact h.before
  · exact h.rows.insert hk hnot k
  · intro b' k'
    show _ ↔ (t.dictPkByKey.insert k k).get k' = some b'
    rw [Table.get_insert, List.mem_append, List.mem_singleton, Prod.mk.injEq, ← or_assoc,
      h.users b' k']
    split
    · next heq =>
      subst heq
      rw [habs]
      simp [eq_comm]
    · next hne => simp [hne]
  · intro b v' hb
    exact hother b v' (h.kept b v' hb)
  · exact h.keptId
  · intro b v' hb hnone
    have hb : (t.valueByDictPk.insert k v).get b = some v' := hb
    rw [Table.get_insert] at hb
    split at hb
    · obtain rfl := Option.some.inj hb
      exact hsv
    · exact h.fresh b v' hb hnone
  · intro b v' hb
    have hb : (t.valueByDictPk.insert k v).get b = some v' := hb
    rw [Table.get_insert] at hb
    split at hb
    · next heq => exact ⟨k, heq ▸ Table.get_insert_self ..⟩
    · obtain ⟨k', hk'⟩ := h.used b v' hb
      refine ⟨k', ?_⟩
      show (t.dictPkByKey.insert k k).get k' = some b
      rw [Table.get_insert, if_neg, hk']
      rintro rfl
      rw [habs] at hk'
      cases hk'
  · intro k' b' hk'
    have hk' : (t.dictPkByKey.insert k k).get k' = some b' := hk'
    rw [Table.get_insert] at hk'
    split at hk'
    · obtain rfl := Option.some.inj hk'
      exact ⟨v, Table.get_insert_self ..⟩
    · obtain ⟨v', hv'⟩ := h.valued k' b' hk'
      exact ⟨v', hother b' v' hv'⟩
  · intro v' b hb
    rw [List.mem_append, List.mem_singleton, ← or_assoc] at hb
    rcases hb with hb | hb
    · exact hother b v' (h.known v' b hb)
    · obtain ⟨rfl, rfl⟩ := Prod.mk.inj hb
      exact Table.get_insert_self ..
  · intro v' b hb
    rcases List.mem_append.mp hb with hb | hb
    · exact h.unknown v' b hb
    · obtain ⟨rfl, -⟩ := Prod.mk.inj (List.mem_singleton.mp hb)
      exact hsv

section Delete

variable {k b : K} {v : V} (h : Grown s (k :: ks) t [] []) (hnd : (k :: ks).Nodup)
include h

lemma usersOnly (b' k' : K) : k' ∈ t.dictPkToKeys.get b' ↔ t.dictPkByKey.get k' = some b' := by
  simpa using h.users b' k'

include hnd

lemma unlink (hk : t.dictPkByKey.get k = some b)
    (hother : ∃ k', k' ≠ k ∧ t.dictPkByKey.get k' = some b) : Grown s ks (t.unlink k b) [] [] where
  before := h.before
  rows := h.rows.remove hnd
  users b' k' := by simpa using DictTables.users_unlink h.usersOnly hk b' k'
  kept := h.kept
  keptId := h.keptId
  fresh := h.fresh
  used b' v' hb' := by
    by_cases heq : b' = b
    · subst heq
      obtain ⟨k', hk'⟩ := hother
      exact ⟨k', DictTables.unlink_eq_some.mpr hk'⟩
    · obtain ⟨k', hk'⟩ := h.used b' v' hb'
      refine ⟨k', DictTables.unlink_eq_some.mpr ⟨?_, hk'⟩⟩
      rintro rfl
      rw [hk] at hk'
      exact heq (Option.some.inj hk').symm
  valued k' b' hk' := h.valued k' b' (DictTables.unlink_eq_some.mp hk').2
  known := h.known
  unknown := h.unknown

omit hnd in
/-- A birth id that loses its last user is not one of `s`: there it has a user, which is not
deleted. -/
lemma not_before (hlast : ∀ k', t.dictPkByKey.get k' = some b → k' = k) :
    s.valueByDictPk.get b = none := by
  cases hb : s.valueByDictPk.get b with
  | none => rfl
  | some v =>
    obtain ⟨k', hk'⟩ := h.before.used b v hb
    have hnot : k' ∉ k :: ks := by
      intro hmem
      rw [h.rows.absent k' hmem] at hk'
      cases hk'
    have heq := hlast k' ((h.rows.same k' hnot).trans hk')
    exact absurd (heq ▸ List.mem_cons_self) hnot

lemma forget (hk : t.dictPkByKey.get k = some b) (hv : t.valueByDictPk.get b = some v)
    (hlast : ∀ k', t.dictPkByKey.get k' = some b → k' = k) : Grown s ks (t.forget k b v) [] [] := by
  have hb : s.valueByDictPk.get b = none := h.not_before hlast
  have hsv : s.valueToDictPk.get v = none := h.fresh b v hv hb
  have hvalue : ∀ b' v', (t.valueByDictPk.remove b).get b' = some v' ↔
      b' ≠ b ∧ t.valueByDictPk.get b' = some v' := by
    intro b' v'
    rw [Table.get_remove]
    split <;> simp_all
  have hid : ∀ v' b', (t.valueToDictPk.remove v).get v' = some b' ↔
      v' ≠ v ∧ t.valueToDictPk.get v' = some b' := by
    intro v' b'
    rw [Table.get_remove]
    split <;> simp_all
  constructor
  · exact h.before
  · exact h.rows.remove hnd
  · intro b' k'
    rw [or_iff_left (by simp)]
    exact DictTables.users_unlink h.usersOnly hk b' k'
  · intro b' v' hb'
    refine (hvalue b' v').mpr ⟨?_, h.kept b' v' hb'⟩
    rintro rfl
    rw [hb] at hb'
    cases hb'
  · intro v' b' hv'
    refine (hid v' b').mpr ⟨?_, h.keptId v' b' hv'⟩
    rintro rfl
    rw [hsv] at hv'
    cases hv'
  · intro b' v' hb'
    exact h.fresh b' v' ((hvalue b' v').mp hb').2
  · intro b' v' hb'
    obtain ⟨hne, hb'⟩ := (hvalue b' v').mp hb'
    obtain ⟨k', hk'⟩ := h.used b' v' hb'
    refine ⟨k', (DictTables.unlink_eq_some (b := b)).mpr ⟨?_, hk'⟩⟩
    rintro rfl
    rw [hk] at hk'
    exact hne (Option.some.inj hk').symm
  · intro k' b' hk'
    obtain ⟨hne, hkb⟩ := (DictTables.unlink_eq_some (b := b)).mp hk'
    obtain ⟨v', hv'⟩ := h.valued k' b' hkb
    refine ⟨v', (hvalue b' v').mpr ⟨?_, hv'⟩⟩
    rintro rfl
    exact hne (hlast k' hkb)
  · intro v' b' hv'
    obtain ⟨hne, hv'⟩ := (hid v' b').mp (hv'.resolve_right (by simp))
    have hb' := h.known v' b' (Or.inl hv')
    refine (hvalue b' v').mpr ⟨?_, hb'⟩
    rintro rfl
    rw [hv] at hb'
    exact hne (Option.some.inj hb').symm
  · exact h.unknown

/-- A key is deleted; the birth id of a value goes with its last user, and is then none of `s`. -/
lemma del : Grown s ks (t.del k) [] [] := by
  rcases DictTables.del_cases h.usersOnly h.valued k with ⟨hnone, -⟩ | ⟨b, v, hk, hv,
    ⟨hother, he⟩ | ⟨hlast, he⟩⟩
  · have hpresent := h.rows.present k List.mem_cons_self
    rw [hnone] at hpresent
    cases hpresent
  · rw [he]
    exact h.unlink hnd hk hother
  · rw [he]
    exact h.forget hnd hk hv hlast

end Delete

end Grown

variable [CacheKey V]

/-- A batch in the middle of its loop, after the keys `ks`. -/
structure Growing (s : DictTables K V) (ks : List K) (st : DictTable.Batch K V) : Prop where
  grown : Grown s ks st.table.toDictTables st.pkToKeysBatch st.valueToPkBatch
  cached : ∀ v b, cachePeek st.table.cache (cacheKey v) = some b →
    st.table.valueByDictPk.get b = some v
  born : ∀ b v, st.table.valueByDictPk.get b = some v → s.valueByDictPk.get b = some v ∨ b ∈ ks

/-- The key is greater than all in the four tables, the birth ids among them. -/
def dictAbove (t : DictTable K V) (k : K) : Prop :=
  (∀ k' b, t.dictPkByKey.get k' = some b → k' < k ∧ b < k) ∧
    (∀ b, ∀ k' ∈ t.dictPkToKeys.get b, b < k ∧ k' < k) ∧
    (∀ b v, t.valueByDictPk.get b = some v → b < k) ∧ ∀ v b, t.valueToDictPk.get v = some b → b < k

lemma dictAbove.absent {t : DictTable K V} {k : K} (h : dictAbove t k) :
    t.dictPkByKey.get k = none ∧ t.valueByDictPk.get k = none :=
  ⟨absent_of_above fun k' b hk' => (h.1 k' b hk').1, absent_of_above h.2.2.1⟩

namespace Growing

variable {s : DictTables K V} {ks : List K} {st : DictTable.Batch K V}

/-- A value that is cached or known: its key becomes a user. -/
lemma link (h : Growing s ks st) {k b : K} {v : V} {cache : Option (LruCache (CK V) K)}
    (hk : s.dictPkByKey.get k = none) (hnot : k ∉ ks) (hb : st.table.valueByDictPk.get b = some v)
    (hcache : ∀ v' b', cachePeek cache (cacheKey v') = some b' →
      st.table.valueByDictPk.get b' = some v') : Growing s (ks ++ [k]) { st with
      table := { st.table with cache := cache, dictPkByKey := st.table.dictPkByKey.insert k b }
      pkToKeysBatch := st.pkToKeysBatch ++ [(b, k)] } where
  grown := h.grown.link hk hnot hb
  cached := hcache
  born b' v' hb' := (h.born b' v' hb').imp_right (List.mem_append_left _)

lemma step (h : Growing s ks st) {k : K} (v : V) (hk : s.dictPkByKey.get k = none)
    (hid : s.valueByDictPk.get k = none) (hnot : k ∉ ks) :
    Growing s (ks ++ [k]) (DictTable.batchStep st (k, v)) := by
  cases hc : cachePeek st.table.cache (cacheKey v) with
  | some b =>
    rw [DictTable.batchStep_of_hit hc]
    refine h.link hk hnot (h.cached v b hc) fun v' b' hb' => h.cached v' b' ?_
    rwa [cachePeek_cacheGet] at hb'
  | none =>
    cases hv : st.table.valueToDictPk.get v with
    | some b =>
      have hb := h.grown.known v b (Or.inl hv)
      rw [DictTable.batchStep_of_known hc hv]
      refine h.link hk hnot hb fun v' b' hb' => ?_
      rcases cachePeek_cachePut hb' with ⟨heq, rfl⟩ | ⟨-, hold⟩
      · rw [cacheKey_injective heq]
        exact hb
      · exact h.cached v' b' hold
    | none =>
      have hfree : st.table.valueByDictPk.get k = none := by
        cases hfree : st.table.valueByDictPk.get k with
        | none => rfl
        | some w =>
          rcases h.born k w hfree with hs | hmem
          · rw [hid] at hs
            cases hs
          · exact absurd hmem hnot
      rw [DictTable.batchStep_of_new hc hv]
      refine ⟨h.grown.birth hk hnot hfree hv, fun v' b' hb' => ?_, fun b' v' hb' => ?_⟩
      · show (st.table.valueByDictPk.insert k v).get b' = some v'
        rcases cachePeek_cachePut hb' with ⟨heq, rfl⟩ | ⟨-, hold⟩
        · rw [cacheKey_injective heq, Table.get_insert_self]
        · have hold := h.cached v' b' hold
          rw [Table.get_insert_of_ne _ _, hold]
          rintro rfl
          rw [hfree] at hold
          cases hold
      · replace hb' : (st.table.valueByDictPk.insert k v).get b' = some v' := hb'
        rw [Table.get_insert] at hb'
        split at hb'
        · next heq => exact Or.inr (by simp [heq])
        · exact (h.born b' v' hb').imp_right (List.mem_append_left _)

lemma foldl {pairs : List (K × V)} (h : Growing s ks st)
    (habs : ∀ kv ∈ pairs, s.dictPkByKey.get kv.1 = none ∧ s.valueByDictPk.get kv.1 = none)
    (hnd : (ks ++ pairs.map Prod.fst).Nodup) :
    Growing s (ks ++ pairs.map Prod.fst) (pairs.foldl DictTable.batchStep st) := by
  induction pairs generalizing ks st with
  | nil => simpa using h
  | cons kv pairs ih =>
    have hnot : kv.1 ∉ ks := (nodup_parts hnd).2 kv List.mem_cons_self
    obtain ⟨hk, hid⟩ := habs kv List.mem_cons_self
    rw [List.map_cons, List.append_cons] at hnd ⊢
    exact ih (h.step kv.2 hk hid hnot) (fun kv' hkv' => habs kv' (List.mem_cons_of_mem _ hkv')) hnd

end Growing

/-- The column between two insertions. -/
def DictGrown (s : DictTables K V) (ks : List K) (d : DictTable K V) : Prop := Growing s ks ⟨d, [], []⟩

lemma DictGrown.insertMany {s : DictTables K V} {ks : List K} {d : DictTable K V}
    (h : DictGrown s ks d) {pairs : List (K × V)}
    (habs : ∀ kv ∈ pairs, s.dictPkByKey.get kv.1 = none ∧ s.valueByDictPk.get kv.1 = none)
    (hnd : (ks ++ pairs.map Prod.fst).Nodup) :
    DictGrown s (ks ++ pairs.map Prod.fst) (d.insertManySortedByKey pairs) := by
  have hall := Growing.foldl h habs hnd
  exact ⟨hall.grown.settle (List.mergeSort_perm ..) (List.mergeSort_perm ..), hall.cached, hall.born⟩

lemma DictTable.insertKv_eq_insertMany (d : DictTable K V) (k : K) (v : V) :
    d.insertKv k v = d.insertManySortedByKey [(k, v)] := by
  unfold insertManySortedByKey
  rw [List.foldl_cons, List.foldl_nil]
  cases hc : cachePeek d.cache (cacheKey v) with
  | some b =>
    rw [insertKv_of_hit hc, batchStep_of_hit hc]
    simp [flushBatch, DictTables.link]
  | none =>
    cases hv : d.valueToDictPk.get v with
    | some b =>
      rw [insertKv_of_known hc hv, batchStep_of_known hc hv]
      simp [flushBatch, DictTables.link]
    | none =>
      rw [insertKv_of_new hc hv, batchStep_of_new hc hv]
      simp [flushBatch, DictTables.birth, DictTables.link]

lemma DictTable.deleteKv_fst {d : DictTable K V} {k b : K} (hk : d.dictPkByKey.get k = some b)
    (hb : k ∈ d.dictPkToKeys.get b) :
    (d.deleteKv k).1 = true := by
  unfold deleteKv
  rw [hk]
  simp only [hb, decide_true]
  split
  · split <;> rfl
  · rfl

theorem dict_rollsBack (f : DictFactory) :
    (dictTable f K V).RollsBack (fun d => d.Inv ∧ d.CacheAgrees) dictAbove := by
  refine WriteTable.rollsBack_of (fun t => DictGrown t.toDictTables)
    (fun s ks t => Grown s ks t.toDictTables [] [])
    (fun t ht => ?_) (fun t ks t' i h habove hnd => ?_) (fun t ks t' t'' h heq => ?_)
      (fun s k ks t h hnd => ?_)
    (fun s ks ks' t hp h => h.perm hp) (fun s t h => h.eq)
  · obtain ⟨hinv, hcache⟩ := ht
    exact ⟨.nil hinv, fun v b hb => (hinv.values v b).mp (hcache v b hb), fun b v hb => Or.inl hb⟩
  · have habs : ∀ kv ∈ i.pairs, t.dictPkByKey.get kv.1 = none ∧ t.valueByDictPk.get kv.1 = none :=
      fun kv hkv => (habove kv hkv).absent
    cases i with
    | kv k v =>
      rw [WriteTable.insert, show (dictTable f K V).insertKv t' k v = t'.insertKv k v from rfl,
        DictTable.insertKv_eq_insertMany]
      exact h.insertMany habs hnd
    | many pairs => exact h.insertMany habs hnd
  · show Grown t.toDictTables ks t''.toDictTables [] []
    rw [show t''.toDictTables = t'.toDictTables from heq]
    exact h.grown
  · obtain ⟨b, hb⟩ := Option.isSome_iff_exists.mp (h.rows.present k List.mem_cons_self)
    refine ⟨DictTable.deleteKv_fst hb ((h.usersOnly b k).mpr hb), ?_⟩
    show Grown s ks (t.deleteKv k).2.toDictTables [] []
    rw [DictTable.deleteKv_tables]
    exact h.del hnd

end Dict

/-! ### All three -/

section

variable {K V : Type} [LinearOrder K] [LinearOrder V] [CacheKey V]

/-- **Rolling back the newest rows restores the tables**, of every kind of column. -/
theorem rollback_restores (fi : IndexFactory) (fd : DictFactory) :
    (plainTable K V).RollsBack (fun _ => True) plainAbove ∧
      (indexTable fi K V).RollsBack (fun t => t.Inverse) indexAbove ∧
      (dictTable fd K V).RollsBack (fun d => d.Inv ∧ d.CacheAgrees) dictAbove :=
  ⟨plain_rollsBack, index_rollsBack fi, dict_rollsBack fd⟩

/-- Without a cache the value `7` gets two birth ids, and `8` was there before. -/
theorem rollback_restores_twoBirths :
    let s : DictTable ℕ ℕ := ((DictFactory.new 0).openForWrite DictTables.empty).insertKv 1 8
    let W := dictTable (DictFactory.new 0) ℕ ℕ
    let deleted := W.deleteEach (W.insertEach s [.many [(2, 7), (3, 7), (4, 8)], .kv 5 7]) [3, 5, 4, 2]
    (∀ b ∈ deleted.1, b = true) ∧ deleted.2.toDictTables = s.toDictTables := by
  intro s W deleted
  have hinv : s.Inv ∧ s.CacheAgrees := by
    have hrep := (dictRep_empty (DictFactory.new 0)).insertKv (k := 1) (v := 8) (Or.inl rfl)
      (by decide)
    exact ⟨hrep.2.1, hrep.1⟩
  have habove : ∀ k ∈ keysOf [Insert.many [(2, 7), (3, 7), (4, 8)], Insert.kv 5 7], dictAbove s k := by
    intro k hk
    have hk : 1 < k := (show ∀ k ∈ [2, 3, 4, 5], 1 < k by decide) k hk
    have hone : ∀ k' v w, (Table.empty.insert 1 v : Table ℕ ℕ).get k' = some w → k' = 1 ∧ w = v := by
      intro k' v w h
      rw [Table.get_insert] at h
      split at h
      · next heq => exact ⟨heq, (Option.some.inj h).symm⟩
      · cases h
    refine ⟨fun k' b h => ?_, fun b k' h => ?_, fun b v h => ?_, fun v b h => ?_⟩
    · obtain ⟨rfl, rfl⟩ := hone k' 1 b h
      exact ⟨hk, hk⟩
    · rw [show s.dictPkToKeys = Multimap.empty.insert 1 1 from rfl, Multimap.mem_get_insert] at h
      obtain ⟨rfl, rfl⟩ : b = 1 ∧ k' = 1 := by simpa using h
      exact ⟨hk, hk⟩
    · obtain ⟨rfl, -⟩ := hone b 8 v h
      exact hk
    · rw [show s.valueToDictPk = Table.empty.insert 8 1 from rfl, Table.get_insert] at h
      split at h
      · obtain rfl := Option.some.inj h
        exact hk
      · cases h
  exact (rollback_restores (IndexFactory.new 0) (DictFactory.new 0)).2.2 s hinv
    [.many [(2, 7), (3, 7), (4, 8)], .kv 5 7] (by decide) habove _ rfl [3, 5, 4, 2] (by decide)

end

end Redbit.Storage
