import Redbit.Storage.ReadBack
import Redbit.Storage.WriteTable

/-!
# Deleting rows of a column (`router.rs`, `table_index_write.rs`, `table_dict_write.rs`)

A column partitioned by value does not know the shard of a key, so a delete asks one shard after the
other and stops at the first one that had the key.  A key may be in several shards: a row that was
written over with a value of another shard is still there.  So a delete takes one of the rows of the
key (`Column.held` counts them) and changes nothing else.  This holds of every column that inserts
and deletes have made, since each of its shards has the forward row of a key only together with the
reverse one (`ShardTable.Erases`).

With its forward row a key loses the reverse row that this one names.  A row that was written over
in its own shard leaves a second reverse row, which no delete finds again (`Links.Stray`).
-/

set_option linter.unusedSectionVars false

namespace Redbit.Storage

open Redbit.Lib

variable {T K V : Type} [LinearOrder K] [DecidableEq V]

/-- A transaction that deletes the keys, with whether all of them were found. -/
def Column.deleteRows (S : ShardTable T K V) {n : ℕ} [NeZero n] (c : Column n T) (ks : List K) :
    Bool × Column n T :=
  ks.foldl (fun r k =>
    let r' := r.2.deleteKv S k
    (r.1 && r'.1, r'.2)) (true, fun i => S.reopen (c i))

/-- The number of shards that have a row of the key. -/
def Column.held (S : ShardTable T K V) {n : ℕ} (c : Column n T) (k : K) : ℕ :=
  (Finset.univ.filter fun i => (S.find (c i) k).isSome).card

/-! ### The rows of a key -/

/-- The two tables of a shard with rows of its keys: `forward` has the row of a key, `reverse` the
keys of a row. -/
structure Links (T K R : Type) where
  forward : T → K → Option R
  reverse : T → R → Finset K

namespace Links

variable {R : Type} (L : Links T K R)

/-- All rows of a key, in both tables. -/
def rows (t : T) (k : K) : Option R × Set R := (L.forward t k, {r | k ∈ L.reverse t r})

/-- The reverse table has the key under a row that is not the key's own. -/
def Stray (t : T) (k : K) : Prop := ∃ r, k ∈ L.reverse t r ∧ L.forward t k ≠ some r

/-- The two tables are inverse to each other. -/
def Inverse (t : T) : Prop := ∀ r k, k ∈ L.reverse t r ↔ L.forward t k = some r

variable {L} {t t' : T} {k : K}

lemma Inverse.not_stray (h : L.Inverse t) : ¬ L.Stray t k := by
  rintro ⟨r, hr, hne⟩
  exact hne ((h r k).mp hr)

/-- A key has no row in either table. -/
lemma rows_eq_none : L.rows t k = (none, ∅) ↔ L.forward t k = none ∧ ¬ L.Stray t k := by
  unfold rows Stray
  rw [Prod.mk.injEq, Set.eq_empty_iff_forall_notMem, not_exists]
  refine and_congr_right fun hnone => forall_congr' fun r => ?_
  rw [hnone]
  simp

lemma stray_of_rows (h : L.rows t' k = L.rows t k) : L.Stray t' k ↔ L.Stray t k := by
  have hstray : ∀ t, L.Stray t k ↔ ∃ r ∈ (L.rows t k).2, (L.rows t k).1 ≠ some r := fun t => Iff.rfl
  rw [hstray, hstray, h]

end Links

/-- All rows of a key in the shards of a column. -/
def Column.rows {R : Type} (L : Links T K R) {n : ℕ} (c : Column n T) (k : K) :
    Fin n → Option R × Set R := fun i =>
  L.rows (c i) k

/-- A shard has a stray row of the key. -/
def Column.Stray {R : Type} (L : Links T K R) {n : ℕ} (c : Column n T) (k : K) : Prop :=
  ∃ i, L.Stray (c i) k

/-- What is proved of the tables of one shard: a delete takes the row of a key and the reverse row
that it names. -/
structure ShardTable.Unlinks {R : Type} (S : ShardTable T K V) (L : Links T K R) : Prop where
  find : ∀ t k, S.find t k = none ↔ L.forward t k = none
  reopen : ∀ t k, L.rows (S.reopen t) k = L.rows t k
  forward_deleteKv : ∀ t k, L.forward (S.deleteKv t k).2 k = none
  reverse_deleteKv : ∀ t k r, k ∈ L.reverse (S.deleteKv t k).2 r ↔ k ∈ L.reverse t r ∧
    L.forward t k ≠ some r
  rows_deleteKv : ∀ {t k k'}, k' ≠ k → L.rows (S.deleteKv t k).2 k' = L.rows t k'

section Stray

variable {R : Type} {S : ShardTable T K V} {L : Links T K R} {n : ℕ} [NeZero n] {c : Column n T}

/-- A delete neither leaves a stray row nor takes one. -/
lemma ShardTable.Unlinks.stray_deleteKv (hL : S.Unlinks L) (t : T) (k k' : K) :
    L.Stray (S.deleteKv t k).2 k' ↔ L.Stray t k' := by
  by_cases hk : k' = k
  · subst hk
    refine exists_congr fun r => ?_
    rw [hL.reverse_deleteKv, hL.forward_deleteKv]
    simp
  · exact Links.stray_of_rows (hL.rows_deleteKv hk)

lemma ShardTable.Unlinks.inverse_deleteKv (hL : S.Unlinks L) {t : T} (h : L.Inverse t) (k : K) :
    L.Inverse (S.deleteKv t k).2 := by
  intro r k'
  by_cases hk : k' = k
  · rw [hk, hL.reverse_deleteKv, hL.forward_deleteKv, h r k]
    simp
  · have hrows := hL.rows_deleteKv (t := t) hk
    have hreverse : k' ∈ L.reverse (S.deleteKv t k).2 r ↔ k' ∈ L.reverse t r :=
      Set.ext_iff.mp (congrArg Prod.snd hrows) r
    have hforward : L.forward (S.deleteKv t k).2 k' = L.forward t k' := congrArg Prod.fst hrows
    rw [hreverse, hforward]
    exact h r k'

/-- What the deletes of the keys keep in a shard, the deletes of a column keep in all shards. -/
lemma Column.forall_deleteRows {P : Fin n → T → Prop} {ks : List K}
    (hreopen : ∀ i, P i (S.reopen (c i)))
    (hdelete : ∀ {i t}, P i t → ∀ k ∈ ks, P i (S.deleteKv t k).2) :
    ∀ i, P i ((c.deleteRows S ks).2 i) := by
  have hfrom : ∀ k ∈ ks, ∀ (is : List (Fin n)) (c : Column n T), (∀ i, P i (c i)) →
      ∀ i, P i ((c.deleteFrom S k is).2 i) := by
    intro k hk is
    induction is with
    | nil => exact fun c hc => hc
    | cons j is ih =>
      intro c hc
      have hupdate : ∀ i, P i (Function.update c j (S.deleteKv (c j) k).2 i) := by
        intro i
        by_cases hi : i = j
        · rw [hi, Function.update_self]
          exact hdelete (hc j) k hk
        · rw [Function.update_of_ne hi]
          exact hc i
      unfold Column.deleteFrom
      simp only
      split
      · exact hupdate
      · exact ih _ hupdate
  have hfold : ∀ (ks' : List K), ks' ⊆ ks → ∀ r : Bool × Column n T, (∀ i, P i (r.2 i)) →
      ∀ i, P i ((ks'.foldl (fun r k =>
        let r' := r.2.deleteKv S k
        (r.1 && r'.1, r'.2)) r).2 i) := by
    intro ks'
    induction ks' with
    | nil => exact fun _ r hr => hr
    | cons k ks' ih =>
      intro hsub r hr
      exact ih (List.subset_of_cons_subset hsub) _ (hfrom k (hsub List.mem_cons_self) _ _ hr)
  exact hfold ks (List.Subset.refl ks) _ hreopen

lemma Column.stray_deleteRows (hL : S.Unlinks L) (ks : List K) (k : K) :
    Column.Stray L (c.deleteRows S ks).2 k ↔ Column.Stray L c k := by
  refine exists_congr fun i => ?_
  refine Column.forall_deleteRows (P := fun i t => L.Stray t k ↔ L.Stray (c i) k) (fun i => ?_)
    (fun h k' _ => ?_) i
  · exact Links.stray_of_rows (hL.reopen _ k)
  · exact (hL.stray_deleteKv _ k' k).trans h

/-- The rows of the other keys stay. -/
lemma Column.rows_deleteRows (hL : S.Unlinks L) {ks : List K} {k : K} (hk : k ∉ ks) :
    Column.rows L (c.deleteRows S ks).2 k = Column.rows L c k := by
  funext i
  refine Column.forall_deleteRows (P := fun i t => L.rows t k = L.rows (c i) k)
    (fun i => hL.reopen _ k) (fun h k' hk' => ?_) i
  exact (hL.rows_deleteKv fun heq : k = k' => hk (heq ▸ hk')).trans h

/-- A key has no row at all exactly when no shard has a forward row or a stray one. -/
lemma Column.rows_eq_none (hL : S.Unlinks L) {k : K} :
    Column.rows L c k = (fun _ => (none, ∅)) ↔ Column.held S c k = 0 ∧ ¬ Column.Stray L c k := by
  have hheld : Column.held S c k = 0 ↔ ∀ i, L.forward (c i) k = none := by
    unfold Column.held
    rw [Finset.card_eq_zero, Finset.filter_eq_empty_iff]
    simp only [Finset.mem_univ, Option.not_isSome_iff_eq_none, hL.find, true_implies]
  unfold Column.Stray
  rw [hheld, not_exists, funext_iff, ← forall_and]
  exact forall_congr' fun i => Links.rows_eq_none

end Stray

/-! ### Deletes -/

/-- What is proved of the tables of one shard, for the deletes of a column: `Listed t` says that a
key is deleted where it is found. -/
structure ShardTable.Erases (S : ShardTable T K V) (now : Bool) (Holds : T → V → Prop)
    (Listed : T → Prop) : Prop where
  reopen : ∀ {t}, Listed t → Listed (S.reopen t)
  insertRows : ∀ {t}, Listed t → ∀ rows, Listed (S.insertRows now t rows)
  find_reopen : ∀ t k, S.find (S.reopen t) k = S.find t k
  holds_reopen : ∀ {t v}, Holds (S.reopen t) v → Holds t v
  holds_deleteKv : ∀ {t k v}, Holds (S.deleteKv t k).2 v → Holds t v
  absent : ∀ {t k}, S.find t k = none → S.deleteKv t k = (false, t)
  present : ∀ {t k}, Listed t → S.find t k ≠ none → (S.deleteKv t k).1 = true ∧
    Listed (S.deleteKv t k).2 ∧
    ∀ k', S.find (S.deleteKv t k).2 k' = if k' = k then none else S.find t k'

section Column

variable {S : ShardTable T K V} {now : Bool} {Holds : T → V → Prop} {Listed : T → Prop}
variable {n : ℕ} [NeZero n] {hash : V → ℕ} {c : Column n T}

/-- A transaction that writes leaves the rows where deletes look for them. -/
lemma Column.listed_insertRows (hS : S.Erases now Holds Listed) (hc : ∀ i, Listed (c i))
    (rows : List (K × V)) (i : Fin n) : Listed (c.insertRows S hash now rows i) := by
  rw [Column.insertRows_apply]
  exact hS.insertRows (hc i) _

/-- The two things the loop of `delete_kv` can do: find the key nowhere, or delete it in one shard
that has it. -/
lemma Column.deleteFrom_cases (hS : S.Erases now Holds Listed) (hc : ∀ i, Listed (c i)) (k : K)
    (is : List (Fin n)) :
    (∀ i ∈ is, S.find (c i) k = none) ∧ c.deleteFrom S k is = (false, c) ∨
      ∃ i, S.find (c i) k ≠ none ∧ c.deleteFrom S k is =
        (true, Function.update c i (S.deleteKv (c i) k).2) := by
  induction is with
  | nil => exact Or.inl ⟨fun i hi => absurd hi List.not_mem_nil, rfl⟩
  | cons i is ih =>
    unfold Column.deleteFrom
    simp only
    by_cases hfind : S.find (c i) k = none
    · rw [hS.absent hfind, Function.update_eq_self, if_neg (by simp)]
      rcases ih with ⟨hnone, hdel⟩ | hdel
      · exact Or.inl ⟨List.forall_mem_cons.mpr ⟨hfind, hnone⟩, hdel⟩
      · exact Or.inr hdel
    · refine Or.inr ⟨i, hfind, ?_⟩
      rw [if_pos (hS.present (hc i) hfind).1]

lemma Column.deleteKv_cases (hS : S.Erases now Holds Listed) (hc : ∀ i, Listed (c i)) (k : K) :
    (∀ i, S.find (c i) k = none) ∧ c.deleteKv S k = (false, c) ∨
      ∃ i, S.find (c i) k ≠ none ∧ c.deleteKv S k =
        (true, Function.update c i (S.deleteKv (c i) k).2) := by
  rcases Column.deleteFrom_cases hS hc k (List.finRange n) with ⟨hnone, hdel⟩ | hdel
  · exact Or.inl ⟨fun i => hnone i (List.mem_finRange i), hdel⟩
  · exact Or.inr hdel

/-- **One delete** takes one of the rows of the key, if there is one, and leaves all other rows. -/
lemma Column.deleteKv_spec (hS : S.Erases now Holds Listed) (hc : ∀ i, Listed (c i)) (k : K) :
    (∀ i, Listed ((c.deleteKv S k).2 i)) ∧ Column.held S (c.deleteKv S k).2 k = Column.held S c k - 1 ∧
      ∀ k' ≠ k, ∀ i, S.find ((c.deleteKv S k).2 i) k' = S.find (c i) k' := by
  rcases Column.deleteKv_cases hS hc k with ⟨hnone, hdel⟩ | ⟨i, hfind, hdel⟩
  · rw [hdel]
    refine ⟨hc, ?_, fun _ _ _ => rfl⟩
    have hheld : Column.held S c k = 0 := by
      unfold Column.held
      rw [Finset.card_eq_zero, Finset.filter_eq_empty_iff]
      intro i _
      rw [hnone i]
      simp
    rw [hheld]
  · obtain ⟨-, hlisted, hrows⟩ := hS.present (hc i) hfind
    have htables : (c.deleteKv S k).2 = Function.update c i (S.deleteKv (c i) k).2 :=
      congrArg Prod.snd hdel
    rw [htables]
    refine ⟨fun j => ?_, ?_, fun k' hk' j => ?_⟩
    · by_cases hj : j = i
      · rw [hj, Function.update_self]
        exact hlisted
      · rw [Function.update_of_ne hj]
        exact hc j
    · unfold Column.held
      rw [← Finset.card_erase_of_mem (Finset.mem_filter.mpr
        ⟨Finset.mem_univ i, Option.isSome_iff_ne_none.mpr hfind⟩)]
      congr 1
      ext j
      rw [Finset.mem_erase, Finset.mem_filter, Finset.mem_filter]
      by_cases hj : j = i
      · rw [hj, Function.update_self, hrows, if_pos rfl]
        simp
      · rw [Function.update_of_ne hj]
        simp [hj]
    · by_cases hj : j = i
      · rw [hj, Function.update_self, hrows, if_neg hk']
      · rw [Function.update_of_ne hj]

lemma Column.deleteRows_concat (c : Column n T) (ks : List K) (k : K) :
    (c.deleteRows S (ks ++ [k])).2 = ((c.deleteRows S ks).2.deleteKv S k).2 := by
  unfold Column.deleteRows
  rw [List.foldl_append]
  rfl

lemma Column.held_congr {c' : Column n T} {k : K} (h : ∀ i, S.find (c' i) k = S.find (c i) k) :
    Column.held S c' k = Column.held S c k :=
  congrArg Finset.card (Finset.filter_congr fun i _ => by rw [h i])

/-- **Any number of deletes.** -/
lemma Column.deleteRows_spec (hS : S.Erases now Holds Listed) (hc : ∀ i, Listed (c i)) (ks : List K) :
    (∀ i, Listed ((c.deleteRows S ks).2 i)) ∧
      (∀ k, Column.held S (c.deleteRows S ks).2 k = Column.held S c k - ks.count k) ∧
      ∀ k, k ∉ ks → ∀ i, S.find ((c.deleteRows S ks).2 i) k = S.find (c i) k := by
  induction ks using List.reverseRecOn with
  | nil =>
    have hfind : ∀ k i, S.find ((c.deleteRows S []).2 i) k = S.find (c i) k := fun k i =>
      hS.find_reopen (c i) k
    exact ⟨fun i => hS.reopen (hc i), fun k => Column.held_congr (hfind k), fun k _ => hfind k⟩
  | append_singleton ks k ih =>
    obtain ⟨hlisted, hheld, hframe⟩ := ih
    obtain ⟨hlisted', hheld', hframe'⟩ := Column.deleteKv_spec hS hlisted k
    rw [Column.deleteRows_concat]
    refine ⟨hlisted', fun k' => ?_, fun k' hk' i => ?_⟩
    · rw [List.count_append]
      by_cases hk' : k' = k
      · rw [hk', hheld', hheld, List.count_singleton_self]
        omega
      · rw [Column.held_congr (hframe' k' hk'), hheld, List.count_singleton,
          if_neg (by simpa using Ne.symm hk')]
        rfl
    · rw [List.mem_append, not_or, List.mem_singleton] at hk'
      exact (hframe' k' hk'.2 i).trans (hframe k' hk'.1 i)

/-- A delete does not move values. -/
lemma Column.Placed.deleteRows (hS : S.Erases now Holds Listed) (hc : c.Placed Holds hash)
    (ks : List K) :
    (c.deleteRows S ks).2.Placed Holds hash :=
  Column.forall_deleteRows (P := fun i t => ∀ v, Holds t v → shardOf hash n v = i)
    (fun i v hv => hc i v (hS.holds_reopen hv)) fun h _ _ v hv => h v (hS.holds_deleteKv hv)

end Column

/-! ### Plain columns -/

section Plain

variable {K V : Type} [LinearOrder K] {n : ℕ} {part : K → Fin n} {c : Column n (Table K V)}

/-- A transaction that deletes the keys from a plain column, each from its own shard. -/
def plainDeleteRows (part : K → Fin n) (c : Column n (Table K V)) (ks : List K) :
    Bool × Column n (Table K V) :=
  ks.foldl (fun r k =>
    let r' := PlainTable.deleteKv (r.2 (part k)) k
    (r.1 && r'.1, Function.update r.2 (part k) r'.2)) (true, c)

/-- The number of shards that have a row of the key. -/
def plainHeld (c : Column n (Table K V)) (k : K) : ℕ :=
  (Finset.univ.filter fun i => ((c i).get k).isSome).card

/-- Every row is in the shard of its key. -/
def PlainPlaced (part : K → Fin n) (c : Column n (Table K V)) : Prop := ∀ i k, (c i).get k ≠ none →
    part k = i

lemma PlainPlaced.insertRows (h : PlainPlaced part c) (rows : List (K × V)) :
    PlainPlaced part (plainInsertRows part c rows) := by
  intro i k hk
  obtain ⟨v, hv⟩ := Option.ne_none_iff_exists'.mp hk
  rcases Table.get_insertAll_eq_some _ hv with hm | hold
  · simpa using (List.mem_filter.mp hm).2
  · refine h i k ?_
    rw [hold]
    simp

lemma plainDeleteRows_concat (c : Column n (Table K V)) (ks : List K) (k : K) :
    (plainDeleteRows part c (ks ++ [k])).2 = Function.update (plainDeleteRows part c ks).2 (part k)
      (((plainDeleteRows part c ks).2 (part k)).remove k) := by
  unfold plainDeleteRows
  rw [List.foldl_append]
  rfl

/-- The rows after deletes: none of the keys, and all other rows. -/
lemma get_plainDeleteRows (h : PlainPlaced part c) (ks : List K) (i : Fin n) (k : K) :
    ((plainDeleteRows part c ks).2 i).get k = if k ∈ ks then none else (c i).get k := by
  induction ks using List.reverseRecOn with
  | nil =>
    rw [if_neg List.not_mem_nil]
    rfl
  | append_singleton ks k' ih =>
    rw [plainDeleteRows_concat]
    simp only [List.mem_append, List.mem_singleton]
    by_cases hi : i = part k'
    · rw [hi, Function.update_self, Table.get_remove, ← hi, ih]
      by_cases hk : k = k' <;> simp [hk]
    · rw [Function.update_of_ne hi, ih]
      by_cases hk : k = k'
      · -- the key is in no other shard
        have hnone : (c i).get k = none := by
          by_contra hne
          exact hi (hk ▸ (h i k hne).symm)
        simp [hnone]
      · simp [hk]

lemma PlainPlaced.deleteRows (h : PlainPlaced part c) (ks : List K) :
    PlainPlaced part (plainDeleteRows part c ks).2 := by
  intro i k hk
  rw [get_plainDeleteRows h] at hk
  split at hk
  · exact absurd rfl hk
  · exact h i k hk

lemma plainHeld_deleteRows (h : PlainPlaced part c) (ks : List K) (k : K) :
    plainHeld (plainDeleteRows part c ks).2 k = plainHeld c k - ks.count k := by
  have hle : plainHeld c k ≤ 1 := by
    refine Finset.card_le_one.mpr fun i hi j hj => ?_
    have hrow : ∀ {i}, i ∈ Finset.univ.filter (fun i => ((c i).get k).isSome) → part k = i := fun hi =>
      h _ k (Option.isSome_iff_ne_none.mp (Finset.mem_filter.mp hi).2)
    rw [← hrow hi, hrow hj]
  have hget := fun i => get_plainDeleteRows h ks i k
  by_cases hk : k ∈ ks
  · have hzero : plainHeld (plainDeleteRows part c ks).2 k = 0 := by
      unfold plainHeld
      simp [hget, hk]
    have hcount := List.count_pos_iff.mpr hk
    omega
  · unfold plainHeld
    simp [hget, hk, List.count_eq_zero.mpr hk]

end Plain

/-! ### Index shards -/

section Index

variable {K V : Type} [LinearOrder K] [LinearOrder V] [CacheKey V]

/-- Every forward row has its reverse row. -/
def IndexListed (t : IndexTable K V) : Prop := ∀ k v, t.indexByPk.get k = some v →
    k ∈ t.pkByIndex.get v

lemma IndexListed.write {t : IndexTable K V} (h : IndexListed t) (f : IndexFactory) (w : Write K V) :
    IndexListed ((indexShard f).write t w) := by
  intro k v hk
  rw [mem_pkByIndex_write]
  rw [indexByPk_write, ← Table.get_insertAll] at hk
  exact (Table.get_insertAll_eq_some _ hk).imp_right (h k v)

lemma IndexListed.insertRows {t : IndexTable K V} (h : IndexListed t) (f : IndexFactory) (now : Bool)
    (rows : List (K × V)) : IndexListed ((indexShard f).insertRows now t rows) := by
  unfold ShardTable.insertRows
  cases now with
  | true =>
    rw [if_pos rfl]
    have hfold : ∀ t : IndexTable K V, IndexListed t →
        IndexListed (rows.foldl (fun t kv => t.insertKv kv.1 kv.2) t) := by
      induction rows with
      | nil => exact fun t ht => ht
      | cons kv rows ih => exact fun t ht => ih _ (ht.write f (.insertKv kv.1 kv.2))
    exact hfold _ h
  | false =>
    rw [if_neg (by simp)]
    split
    · exact h
    · exact IndexListed.write (t := f.openForWrite t.toIndexTables) h f (.insertManySortedByKey rows)

theorem indexShard_erases (f : IndexFactory) (now : Bool) :
    (indexShard f : ShardTable (IndexTable K V) K V).Erases now IndexHasValue IndexListed where
  reopen h := h
  insertRows h rows := h.insertRows f now rows
  find_reopen _ _ := rfl
  holds_reopen h := h
  holds_deleteKv {t k v} := by
    rintro ⟨k', hk'⟩
    replace hk' : (t.deleteKv k).2.indexByPk.get k' = some v := hk'
    unfold IndexTable.deleteKv at hk'
    cases hv : t.indexByPk.get k with
    | none =>
      rw [hv] at hk'
      exact ⟨k', hk'⟩
    | some v' =>
      rw [hv] at hk'
      replace hk' : (t.indexByPk.remove k).get k' = some v := hk'
      rw [Table.get_remove] at hk'
      split at hk'
      · cases hk'
      · exact ⟨k', hk'⟩
  absent {t k} h := by
    have hv : t.indexByPk.get k = none := Option.map_eq_none_iff.mp h
    show t.deleteKv k = (false, t)
    unfold IndexTable.deleteKv
    rw [hv]
  present {t k} h hfind := by
    have hne : t.indexByPk.get k ≠ none := fun hv => hfind (Option.map_eq_none_iff.mpr hv)
    obtain ⟨v, hv⟩ := Option.ne_none_iff_exists'.mp hne
    have hreverse := h k v hv
    show (t.deleteKv k).1 = true ∧ IndexListed (t.deleteKv k).2 ∧
      ∀ k', ((t.deleteKv k).2.indexByPk.get k').map some =
        if k' = k then none else (t.indexByPk.get k').map some
    unfold IndexTable.deleteKv
    rw [hv]
    refine ⟨decide_eq_true hreverse, fun k' v' hk' => ?_, fun k' => ?_⟩
    · replace hk' : (t.indexByPk.remove k).get k' = some v' := hk'
      show k' ∈ (t.pkByIndex.remove v k).get v'
      rw [Table.get_remove] at hk'
      rw [Multimap.mem_get_remove]
      split at hk'
      · cases hk'
      · rename_i hne
        exact ⟨fun heq => hne heq.2, h k' v' hk'⟩
    · show ((t.indexByPk.remove k).get k').map some = _
      rw [Table.get_remove]
      split <;> rfl

/-- The forward and the reverse rows of an index. -/
def indexLinks : Links (IndexTable K V) K V where
  forward t k := t.indexByPk.get k
  reverse t v := t.pkByIndex.get v

lemma indexShard_unlinks (f : IndexFactory) :
    (indexShard f : ShardTable (IndexTable K V) K V).Unlinks indexLinks where
  find _ _ := Option.map_eq_none_iff
  reopen _ _ := rfl
  forward_deleteKv t k := by
    show (t.deleteKv k).2.indexByPk.get k = none
    unfold IndexTable.deleteKv
    cases hv : t.indexByPk.get k with
    | none => exact hv
    | some v => exact (Table.get_remove _ _ _).trans (if_pos rfl)
  reverse_deleteKv t k v := by
    show k ∈ (t.deleteKv k).2.pkByIndex.get v ↔ k ∈ t.pkByIndex.get v ∧ t.indexByPk.get k ≠ some v
    unfold IndexTable.deleteKv
    cases hv : t.indexByPk.get k with
    | none => simp
    | some v' =>
      show k ∈ (t.pkByIndex.remove v' k).get v ↔ _
      rw [Multimap.mem_get_remove, ne_eq, Option.some.injEq]
      tauto
  rows_deleteKv {t k k'} hk := by
    show ((t.deleteKv k).2.indexByPk.get k', {v | k' ∈ (t.deleteKv k).2.pkByIndex.get v}) = _
    unfold IndexTable.deleteKv
    cases hv : t.indexByPk.get k with
    | none => rfl
    | some v' =>
      refine Prod.ext ((Table.get_remove _ _ _).trans (if_neg hk)) (Set.ext fun v => ?_)
      show k' ∈ (t.pkByIndex.remove v' k).get v ↔ k' ∈ t.pkByIndex.get v
      rw [Multimap.mem_get_remove]
      exact and_iff_right fun h => hk h.2

end Index

/-! ### Dictionary shards -/

section Dict

variable {K V : Type} [LinearOrder K] [LinearOrder V] [CacheKey V]

/-- Every key is listed under its birth id. -/
def DictListed (t : DictTable K V) : Prop := ∀ k b, t.dictPkByKey.get k = some b →
    k ∈ t.dictPkToKeys.get b

lemma DictListed.link {t : DictTables K V}
    (h : ∀ k b, t.dictPkByKey.get k = some b → k ∈ t.dictPkToKeys.get b) (k b : K) :
    ∀ k' b', (t.link k b).dictPkByKey.get k' = some b' → k' ∈ (t.link k b).dictPkToKeys.get b' := by
  intro k' b' hk'
  show k' ∈ (t.dictPkToKeys.insert b k).get b'
  replace hk' : (t.dictPkByKey.insert k b).get k' = some b' := hk'
  rw [Table.get_insert] at hk'
  rw [Multimap.mem_get_insert]
  split at hk'
  · rename_i hkk
    exact Or.inl ⟨(Option.some.inj hk').symm, hkk⟩
  · exact Or.inr (h k' b' hk')

lemma DictListed.insertKv {t : DictTable K V} (h : DictListed t) (k : K) (v : V) :
    DictListed (t.insertKv k v) := by
  cases hc : cachePeek t.cache (cacheKey v) with
  | some b =>
    rw [DictTable.insertKv_of_hit hc]
    exact DictListed.link h k b
  | none =>
    cases hv : t.valueToDictPk.get v with
    | some b =>
      rw [DictTable.insertKv_of_known hc hv]
      exact DictListed.link h k b
    | none =>
      rw [DictTable.insertKv_of_new hc hv]
      exact DictListed.link h k k

/-- A turn of a bulk insert links its key to a birth id and keeps the reverse row for later. -/
lemma batchStep_links (s : DictTable.Batch K V) (k : K) (v : V) :
    ∃ b, (DictTable.batchStep s (k, v)).table.dictPkByKey = s.table.dictPkByKey.insert k b ∧
      (DictTable.batchStep s (k, v)).pkToKeysBatch = s.pkToKeysBatch ++ [(b, k)] := by
  cases hc : cachePeek s.table.cache (cacheKey v) with
  | some b =>
    rw [DictTable.batchStep_of_hit hc]
    exact ⟨b, rfl, rfl⟩
  | none =>
    cases hv : s.table.valueToDictPk.get v with
    | some b =>
      rw [DictTable.batchStep_of_known hc hv]
      exact ⟨b, rfl, rfl⟩
    | none =>
      rw [DictTable.batchStep_of_new hc hv]
      exact ⟨k, rfl, rfl⟩

/-- The keys of a bulk insert are listed, now or among the writes that come later. -/
lemma DictListed.batchRun {t : DictTable K V} (h : DictListed t) (pairs : List (K × V)) {k b : K}
    (hk : (DictTable.batchRun t pairs).table.dictPkByKey.get k = some b) :
    (b, k) ∈ (DictTable.batchRun t pairs).pkToKeysBatch ∨ k ∈ t.dictPkToKeys.get b := by
  induction pairs using List.reverseRecOn with
  | nil => exact Or.inr (h k b hk)
  | append_singleton pairs kv ih =>
    obtain ⟨k', v⟩ := kv
    rw [DictTable.batchRun_concat] at hk ⊢
    obtain ⟨b', hby, hbatch⟩ := batchStep_links (DictTable.batchRun t pairs) k' v
    rw [hby, Table.get_insert] at hk
    rw [hbatch]
    split at hk
    · rename_i hkk
      rw [hkk, Option.some.inj hk]
      exact Or.inl (List.mem_append_right _ (List.mem_singleton_self _))
    · exact (ih hk).imp_left (List.mem_append_left _)

lemma DictListed.insertMany {t : DictTable K V} (h : DictListed t) (ht : t.CacheAgrees)
    (pairs : List (K × V)) : DictListed (t.insertManySortedByKey pairs) := by
  intro k b hk
  rw [DictTable.mem_users_insertMany ht]
  exact h.batchRun pairs hk

lemma DictListed.insertRows {t : DictTable K V} (h : DictListed t) (f : DictFactory) (now : Bool)
    (rows : List (K × V)) : DictListed ((dictShard f).insertRows now t rows) := by
  unfold ShardTable.insertRows
  cases now with
  | true =>
    rw [if_pos rfl]
    have hfold : ∀ t : DictTable K V, DictListed t →
        DictListed (rows.foldl (fun t kv => t.insertKv kv.1 kv.2) t) := by
      induction rows with
      | nil => exact fun t ht => ht
      | cons kv rows ih => exact fun t ht => ih _ (ht.insertKv kv.1 kv.2)
    exact hfold _ h
  | false =>
    rw [if_neg (by simp)]
    split
    · exact h
    · exact DictListed.insertMany (t := f.openForWrite t.toDictTables) h
        (DictTable.cacheAgrees_openForWrite f _) rows

/-- A delete unlinks the key, and takes the value of the birth id only where no other key is listed
under it. -/
lemma DictTables.del_of_linked {t : DictTables K V} {k b : K} (hk : t.dictPkByKey.get k = some b) :
    (t.del k).dictPkByKey = t.dictPkByKey.remove k ∧
      (t.del k).dictPkToKeys = t.dictPkToKeys.remove b k ∧
      ((t.del k).valueByDictPk = t.valueByDictPk ∨
        (t.dictPkToKeys.remove b k).get b = ∅ ∧
          (t.del k).valueByDictPk = t.valueByDictPk.remove b) := by
  unfold DictTables.del
  simp only [hk]
  by_cases hlast : (t.dictPkToKeys.remove b k).get b = ∅
  · rw [if_pos hlast]
    cases t.valueByDictPk.get b with
    | none => exact ⟨rfl, rfl, Or.inl rfl⟩
    | some v => exact ⟨rfl, rfl, Or.inr ⟨hlast, rfl⟩⟩
  · rw [if_neg hlast]
    exact ⟨rfl, rfl, Or.inl rfl⟩

lemma DictTable.deleteKv_of_absent {t : DictTable K V} {k : K} (hk : t.dictPkByKey.get k = none) :
    t.deleteKv k = (false, t) := by
  unfold DictTable.deleteKv
  rw [hk]

lemma DictTable.deleteKv_fst_of_linked {t : DictTable K V} {k b : K}
    (hk : t.dictPkByKey.get k = some b) :
    (t.deleteKv k).1 = decide (k ∈ t.dictPkToKeys.get b) := by
  unfold DictTable.deleteKv
  simp only [hk]
  split
  · cases t.valueByDictPk.get b <;> rfl
  · rfl

theorem dictShard_erases (f : DictFactory) (now : Bool) :
    (dictShard f : ShardTable (DictTable K V) K V).Erases now DictHasValue DictListed where
  reopen h := h
  insertRows h rows := h.insertRows f now rows
  find_reopen _ _ := rfl
  holds_reopen h := h
  holds_deleteKv {t k v} := by
    rintro ⟨b', hb'⟩
    replace hb' : (t.deleteKv k).2.toDictTables.valueByDictPk.get b' = some v := hb'
    rw [DictTable.deleteKv_tables] at hb'
    cases hk : t.dictPkByKey.get k with
    | none =>
      unfold DictTables.del at hb'
      simp only [hk] at hb'
      exact ⟨b', hb'⟩
    | some b =>
      obtain ⟨-, -, hval | ⟨-, hval⟩⟩ := DictTables.del_of_linked hk
      · rw [hval] at hb'
        exact ⟨b', hb'⟩
      · rw [hval, Table.get_remove] at hb'
        split at hb'
        · cases hb'
        · exact ⟨b', hb'⟩
  absent {t k} h := DictTable.deleteKv_of_absent (Option.map_eq_none_iff.mp h)
  present {t k} h hfind := by
    have hne : t.dictPkByKey.get k ≠ none := fun hk => hfind (Option.map_eq_none_iff.mpr hk)
    obtain ⟨b, hk⟩ := Option.ne_none_iff_exists'.mp hne
    obtain ⟨hby, husers, hval⟩ := DictTables.del_of_linked hk
    rw [← DictTable.deleteKv_tables] at hby husers hval
    refine ⟨(DictTable.deleteKv_fst_of_linked hk).trans (decide_eq_true (h k b hk)),
      fun k' b' hk' => ?_, fun k' => ?_⟩
    · show k' ∈ (t.deleteKv k).2.toDictTables.dictPkToKeys.get b'
      replace hk' : (t.deleteKv k).2.toDictTables.dictPkByKey.get k' = some b' := hk'
      rw [hby, Table.get_remove] at hk'
      rw [husers, Multimap.mem_get_remove]
      split at hk'
      · cases hk'
      · rename_i hkk
        exact ⟨fun heq => hkk heq.2, h k' b' hk'⟩
    · show ((t.deleteKv k).2.toDictTables.dictPkByKey.get k').map
        (t.deleteKv k).2.toDictTables.valueByDictPk.get = _
      rw [hby, Table.get_remove]
      split
      · rfl
      · rename_i hkk
        show _ = (t.dictPkByKey.get k').map t.valueByDictPk.get
        cases hk' : t.dictPkByKey.get k' with
        | none => rfl
        | some b' =>
          rw [Option.map_some, Option.map_some]
          rcases hval with hval | ⟨hlast, hval⟩
          · rw [hval]
          · -- the other key is not listed under the birth id that goes
            have hbb : b' ≠ b := by
              rintro rfl
              have hmem : k' ∈ (t.dictPkToKeys.remove b' k).get b' :=
                Multimap.mem_get_remove.mpr ⟨fun heq => hkk heq.2, h k' b' hk'⟩
              rw [hlast] at hmem
              exact absurd hmem (Finset.notMem_empty k')
            rw [hval, Table.get_remove, if_neg hbb]

/-- The birth id of a key, and the keys that are listed under a birth id. -/
def dictLinks : Links (DictTable K V) K K where
  forward t k := t.dictPkByKey.get k
  reverse t b := t.dictPkToKeys.get b

lemma dictShard_unlinks (f : DictFactory) :
    (dictShard f : ShardTable (DictTable K V) K V).Unlinks dictLinks := by
  have hdelete : ∀ (t : DictTable K V) (k : K), t.dictPkByKey.get k = none ∧ (t.deleteKv k).2 = t ∨
      ∃ b, t.dictPkByKey.get k = some b ∧ (t.deleteKv k).2.dictPkByKey = t.dictPkByKey.remove k ∧
        (t.deleteKv k).2.dictPkToKeys = t.dictPkToKeys.remove b k := by
    intro t k
    cases hk : t.dictPkByKey.get k with
    | none => exact Or.inl ⟨rfl, congrArg Prod.snd (DictTable.deleteKv_of_absent hk)⟩
    | some b =>
      obtain ⟨hby, husers, -⟩ := DictTables.del_of_linked hk
      rw [← DictTable.deleteKv_tables] at hby husers
      exact Or.inr ⟨b, rfl, hby, husers⟩
  refine ⟨fun _ _ => Option.map_eq_none_iff, fun _ _ => rfl, fun t k => ?_, fun t k b =>
    ?_, fun {t k k'} hk => ?_⟩
  · show (t.deleteKv k).2.dictPkByKey.get k = none
    rcases hdelete t k with ⟨hnone, htable⟩ | ⟨b, -, hby, -⟩
    · rw [htable, hnone]
    · rw [hby, Table.get_remove, if_pos rfl]
  · show k ∈ (t.deleteKv k).2.dictPkToKeys.get b ↔ k ∈ t.dictPkToKeys.get b ∧
      t.dictPkByKey.get k ≠ some b
    rcases hdelete t k with ⟨hnone, htable⟩ | ⟨b', hb', -, husers⟩
    · rw [htable, hnone]
      simp
    · rw [husers, hb', Multimap.mem_get_remove, ne_eq, Option.some.injEq]
      tauto
  · show ((t.deleteKv k).2.dictPkByKey.get k', {b | k' ∈ (t.deleteKv k).2.dictPkToKeys.get b}) = _
    rcases hdelete t k with ⟨-, htable⟩ | ⟨b', -, hby, husers⟩
    · rw [htable]
      rfl
    · rw [hby, husers]
      refine Prod.ext ((Table.get_remove _ _ _).trans (if_neg hk)) (Set.ext fun b => ?_)
      show k' ∈ (t.dictPkToKeys.remove b' k).get b ↔ k' ∈ t.dictPkToKeys.get b
      rw [Multimap.mem_get_remove]
      exact and_iff_right fun h => hk h.2

end Dict

end Redbit.Storage
