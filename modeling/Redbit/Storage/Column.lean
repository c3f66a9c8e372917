import Redbit.Lib.Table
import Redbit.Lib.Run
import Mathlib.Data.List.FinRange
import Mathlib.Algebra.Order.Ring.Nat

/-!
# Sharded columns (`router.rs`, `table_index_read.rs`, `table_dict_read.rs`)

A column partitioned by value spreads its rows over `n` shards, each with tables of its own: a row
goes to the shard its value hashes to.  The router splits the writes, a delete asks one shard after
the other, and the readers look for a key in every shard but for a value in its own shard only.

What the column needs of the table of one shard is collected in `ShardTable`, and what is proved
about it in `ShardTable.Lawful`: `Rep t m` says that `t` is a well-formed table with the contents
`m`, and `Good t w` is the exact condition under which a write that overwrites nothing keeps it so.
`column_refines_iff` lifts this to runs of the whole column.
-/

set_option linter.unusedSectionVars false

namespace Redbit.Storage

open Redbit.Lib

variable {T K V : Type} [LinearOrder K] [DecidableEq V]

/-! ### Writes -/

/-- The two ways rows are inserted. -/
inductive Write (K V : Type) where
  | insertKv (k : K) (v : V)
  | insertManySortedByKey (pairs : List (K × V))

namespace Write

/-- The rows a write inserts. -/
def pairs : Write K V → List (K × V)
  | insertKv k v => [(k, v)]
  | insertManySortedByKey pairs => pairs

/-- The rows come strictly sorted by key. -/
def Sorted (w : Write K V) : Prop := (w.pairs.map Prod.fst).Pairwise (· < ·)

/-- The write overwrites no row with another value. -/
def Keeps (m : K → Option V) (w : Write K V) : Prop := ∀ kv ∈ w.pairs, m kv.1 = none ∨
    m kv.1 = some kv.2

lemma Sorted.nodup {w : Write K V} (h : w.Sorted) : (w.pairs.map Prod.fst).Nodup := h.imp ne_of_lt

lemma Keeps.putAll_eq_some {w : Write K V} {m : K → Option V} (hk : w.Keeps m) (hs : w.Sorted)
    {k : K} {v : V} : putAll m w.pairs k = some v ↔ (k, v) ∈ w.pairs ∨ m k = some v := by
  by_cases hkm : k ∈ w.pairs.map Prod.fst
  · obtain ⟨⟨k, v'⟩, hkv, rfl⟩ := List.mem_map.mp hkm
    rw [putAll_of_mem hs.nodup hkv]
    constructor
    · rintro h
      obtain rfl := Option.some.inj h
      exact Or.inl hkv
    · rintro (hkv' | hm)
      · have := List.inj_on_of_nodup_map hs.nodup hkv hkv' rfl
        rw [(Prod.mk.inj this).2]
      · rcases hk _ hkv with h | h
        · rw [h] at hm
          cases hm
        · rw [← h, hm]
  · rw [putAll_of_notMem hkm]
    refine ⟨Or.inr, fun h => h.resolve_left fun hkv => hkm (List.mem_map.mpr ⟨_, hkv, rfl⟩)⟩

end Write

/-! ### One shard -/

/-- What the router and the sharded readers use of the table of one shard. -/
structure ShardTable (T K V : Type) where
  insertKv : T → K → V → T
  insertManySortedByKey : T → List (K × V) → T
  deleteKv : T → K → Bool × T
  /-- The same tables in the next transaction, which starts with a new cache. -/
  reopen : T → T
  /-- Whether `get_value` stops at this shard, and what it returns then. -/
  find : T → K → Option (Option V)
  /-- The keys `index_keys` and `dict_keys` list. -/
  keysOf : T → V → Finset K

/-- A write on one shard. -/
def ShardTable.write (S : ShardTable T K V) (t : T) : Write K V → T
  | .insertKv k v => S.insertKv t k v
  | .insertManySortedByKey pairs => S.insertManySortedByKey t pairs

/-- What is proved of the tables of one shard, for the column's proof. -/
structure ShardTable.Lawful (S : ShardTable T K V) (Rep : T → (K → Option V) → Prop)
    (Good : T → Write K V → Prop) : Prop where
  find : ∀ {t m}, Rep t m → ∀ k, S.find t k = (m k).map some
  keysOf : ∀ {t m}, Rep t m → ∀ v k, k ∈ S.keysOf t v ↔ m k = some v
  write : ∀ {t m w}, Rep t m → w.Sorted → w.Keeps m → Good t w → Rep (S.write t w) (putAll m w.pairs)
  /-- A write that is not good breaks a list of keys. -/
  write_bad : ∀ {t m w}, Rep t m → w.Sorted → w.Keeps m → ¬ Good t w →
    ∃ v k, (v ∈ w.pairs.map Prod.snd ∨ ∃ k', m k' = some v) ∧
      ¬ (k ∈ S.keysOf (S.write t w) v ↔ putAll m w.pairs k = some v)
  /-- No write takes a key off a list. -/
  listed : ∀ {t m k v}, Rep t m → m k = some v → ∀ w, k ∈ S.keysOf (S.write t w) v
  deleteKv : ∀ {t m}, Rep t m → ∀ k, (S.deleteKv t k).1 = (m k).isSome ∧
    Rep (S.deleteKv t k).2 (eraseMap m k)
  reopen : ∀ {t m}, Rep t m → Rep (S.reopen t) m

/-! ### The column -/

/-- The tables of the shards. -/
abbrev Column (n : ℕ) (T : Type) := Fin n → T

section Router

variable (S : ShardTable T K V) {n : ℕ} [NeZero n] (hash : V → ℕ)

/-- `Xxh3Partitioner::partition_value`, for the hash of the bytes of a value. -/
def partitionValue (n : ℕ) [NeZero n] (v : V) : Fin n := Fin.ofNat n (hash v)

/-- The shard the router and the readers take for a value. -/
def shardOf (n : ℕ) [NeZero n] (v : V) : Fin n := if n = 1 then 0 else partitionValue hash n v

/-- `ShardedRouter::bucket`: the pairs of the shard `i`, in their order. -/
def bucket (i : Fin n) (pairs : List (K × V)) : List (K × V) :=
  pairs.filter fun kv => shardOf hash n kv.2 = i

/-- What of a write reaches the shard `i`: an empty bucket is not sent. -/
def route (i : Fin n) : Write K V → Option (Write K V)
  | .insertKv k v => if shardOf hash n v = i then some (.insertKv k v) else none
  | .insertManySortedByKey pairs =>
    if bucket hash i pairs = [] then none else some (.insertManySortedByKey (bucket hash i pairs))

/-- A write on the column. -/
def Column.write (c : Column n T) (w : Write K V) : Column n T := fun i =>
  match route hash i w with
  | some w => S.write (c i) w
  | none => c i

/-- The loop of `delete_kv`: the shards `is` are asked until one had the key. -/
def Column.deleteFrom (c : Column n T) (k : K) : List (Fin n) → Bool × Column n T
  | [] => (false, c)
  | i :: is =>
    let r := S.deleteKv (c i) k
    let c : Column n T := Function.update c i r.2
    if r.1 then (true, c) else Column.deleteFrom c k is

/-- `ShardedRouter::delete_kv`. -/
def Column.deleteKv (c : Column n T) (k : K) : Bool × Column n T :=
  Column.deleteFrom S c k (List.finRange n)

/-- The sharded `get_value`: the first shard that has the key decides. -/
def Column.getValue (c : Column n T) (k : K) : Option V :=
  ((List.finRange n).findSome? fun i => S.find (c i) k).join

/-- The sharded `index_keys` and `dict_keys`: the shard of the value is asked. -/
def Column.keysOf (c : Column n T) (v : V) : Finset K := S.keysOf (c (shardOf hash n v)) v

/-- The operations of a column; `reopen` is the start of the next transaction. -/
inductive ColumnOp (K V : Type) where
  | write (w : Write K V)
  | deleteKv (k : K)
  | reopen

/-- An operation on the column. -/
def Column.apply (c : Column n T) : ColumnOp K V → Column n T
  | .write w => c.write S hash w
  | .deleteKv k => (c.deleteKv S k).2
  | .reopen => fun i => S.reopen (c i)

/-- The same operation on a plain map. -/
def mapApply (m : K → Option V) : ColumnOp K V → K → Option V
  | .write w => putAll m w.pairs
  | .deleteKv k => eraseMap m k
  | .reopen => m

/-- The column reads as the plain map `m` and as its inverse. -/
def Column.Refines (c : Column n T) (m : K → Option V) : Prop :=
  (∀ k, c.getValue S k = m k) ∧ ∀ v k, k ∈ c.keysOf S hash v ↔ m k = some v

/-- Inserts in bulk come strictly sorted by key. -/
def ColumnOp.Sorted : ColumnOp K V → Prop
  | .write w => w.Sorted
  | _ => True

/-- The write overwrites nothing, and what reaches each shard is good there. -/
def ColumnOp.Good (Good : T → Write K V → Prop) (c : Column n T) : ColumnOp K V → Prop
  | .write w => w.Keeps (c.getValue S) ∧ ∀ i w', route hash i w = some w' → Good (c i) w'
  | _ => True

end Router

/-! ### The contents of a shard -/

section Restrict

variable {n : ℕ} [NeZero n] (hash : V → ℕ)

/-- The part of the map `m` that belongs to the shard `i`. -/
def restrict (i : Fin n) (m : K → Option V) : K → Option V := fun k => (m k).filter fun v =>
    shardOf hash n v = i

lemma restrict_eq_some {i : Fin n} {m : K → Option V} {k : K} {v : V} :
    restrict hash i m k = some v ↔ m k = some v ∧ shardOf hash n v = i :=
  filterMap_eq_some (p := fun _ v => shardOf hash n v = i)

/-- The rows of the write that belong to the shard `i`. -/
lemma pairs_route (i : Fin n) (w : Write K V) :
    (match route hash i w with
      | some w' => w'.pairs
      | none => []) = bucket hash i w.pairs := by
  cases w with
  | insertKv k v =>
    unfold route bucket Write.pairs
    by_cases h : shardOf hash n v = i <;> simp [h]
  | insertManySortedByKey pairs =>
    unfold route Write.pairs
    by_cases h : bucket hash i pairs = [] <;> simp [h]

lemma pairs_of_route {i : Fin n} {w w' : Write K V} (h : route hash i w = some w') :
    w'.pairs = bucket hash i w.pairs := by
  have := pairs_route hash i w
  rwa [h] at this

lemma bucket_of_route_none {i : Fin n} {w : Write K V} (h : route hash i w = none) :
    bucket hash i w.pairs = [] := by
  have := pairs_route hash i w
  rw [h] at this
  exact this.symm

lemma mem_bucket {i : Fin n} {pairs : List (K × V)} {kv : K × V} :
    kv ∈ bucket hash i pairs ↔ kv ∈ pairs ∧ shardOf hash n kv.2 = i := by
  unfold bucket
  simp

lemma sorted_of_route {i : Fin n} {w w' : Write K V} (hw : w.Sorted) (h : route hash i w = some w') :
    w'.Sorted := by
  unfold Write.Sorted
  rw [pairs_of_route hash h]
  exact hw.sublist ((List.filter_sublist).map _)

lemma keeps_of_route {i : Fin n} {w w' : Write K V} {m : K → Option V} (hw : w.Keeps m)
    (h : route hash i w = some w') : w'.Keeps (restrict hash i m) := by
  intro kv hkv
  rw [pairs_of_route hash h, mem_bucket] at hkv
  rw [restrict_eq_some]
  rcases hw kv hkv.1 with hm | hm
  · left
    unfold restrict
    rw [hm]
    rfl
  · exact Or.inr ⟨hm, hkv.2⟩

/-- **The shards split a write.**  A write that overwrites nothing changes in each shard just the
rows of its bucket. -/
lemma restrict_putAll (i : Fin n) {m : K → Option V} {w : Write K V} (hs : w.Sorted) (hk : w.Keeps m) :
    restrict hash i (putAll m w.pairs) = putAll (restrict hash i m) (bucket hash i w.pairs) :=
  filterMap_putAll (p := fun _ v => shardOf hash n v = i) hs.nodup hk

lemma restrict_eraseMap (i : Fin n) (m : K → Option V) (k : K) :
    restrict hash i (eraseMap m k) = eraseMap (restrict hash i m) k :=
  filterMap_eraseMap (p := fun _ v => shardOf hash n v = i)

/-- A shard that does not have the key does not change when the key goes. -/
lemma restrict_eraseMap_of_none {i : Fin n} {m : K → Option V} {k : K}
    (h : restrict hash i m k = none) : restrict hash i (eraseMap m k) = restrict hash i m :=
  filterMap_eraseMap_of_none (p := fun _ v => shardOf hash n v = i) h

end Restrict

/-! ### The steps of a column -/

section Steps

variable {S : ShardTable T K V} {Rep : T → (K → Option V) → Prop} {Good : T → Write K V → Prop}
variable {n : ℕ} [NeZero n] {hash : V → ℕ} {c : Column n T} {m : K → Option V}

/-- Every shard holds its part of the map. -/
def ColumnRep (Rep : T → (K → Option V) → Prop) (hash : V → ℕ) (c : Column n T)
    (m : K → Option V) : Prop :=
  ∀ i, Rep (c i) (restrict hash i m)

lemma ColumnRep.getValue (hS : S.Lawful Rep Good) (hc : ColumnRep Rep hash c m) (k : K) :
    c.getValue S k = m k := by
  have hfind : ∀ i, S.find (c i) k = (restrict hash i m k).map some := fun i => hS.find (hc i) k
  unfold Column.getValue
  cases hm : m k with
  | none =>
    have hnone : (List.finRange n).findSome? (fun i => S.find (c i) k) = none := by
      rw [List.findSome?_eq_none_iff]
      intro i _
      rw [hfind]
      unfold restrict
      rw [hm]
      rfl
    rw [hnone]
    rfl
  | some v =>
    cases hf : (List.finRange n).findSome? fun i => S.find (c i) k with
    | none =>
      rw [List.findSome?_eq_none_iff] at hf
      have := hf (shardOf hash n v) (List.mem_finRange _)
      rw [hfind, (restrict_eq_some hash).mpr ⟨hm, rfl⟩] at this
      cases this
    | some r =>
      obtain ⟨i, -, hi⟩ := List.exists_of_findSome?_eq_some hf
      rw [hfind, Option.map_eq_some_iff] at hi
      obtain ⟨v', hv', rfl⟩ := hi
      rw [restrict_eq_some, hm] at hv'
      exact hv'.1.symm

lemma ColumnRep.mem_keysOf (hS : S.Lawful Rep Good) (hc : ColumnRep Rep hash c m) (v : V) (k : K) :
    k ∈ c.keysOf S hash v ↔ m k = some v := by
  unfold Column.keysOf
  rw [hS.keysOf (hc _), restrict_eq_some]
  simp

lemma ColumnRep.refines (hS : S.Lawful Rep Good) (hc : ColumnRep Rep hash c m) : c.Refines S hash m :=
  ⟨hc.getValue hS, hc.mem_keysOf hS⟩

lemma ColumnRep.write (hS : S.Lawful Rep Good) (hc : ColumnRep Rep hash c m) {w : Write K V}
    (hs : w.Sorted) (hk : w.Keeps m) (hg : ∀ i w', route hash i w = some w' → Good (c i) w') :
    ColumnRep Rep hash (c.write S hash w) (putAll m w.pairs) := by
  intro i
  rw [restrict_putAll hash i hs hk]
  unfold Column.write
  cases hr : route hash i w with
  | none =>
    rw [bucket_of_route_none hash hr]
    exact hc i
  | some w' =>
    rw [← pairs_of_route hash hr]
    exact hS.write (hc i) (sorted_of_route hash hs hr) (keeps_of_route hash hk hr) (hg i w' hr)

/-- An overwrite leaves the key on the list of its old value. -/
lemma ColumnRep.write_overwrites (hS : S.Lawful Rep Good) (hc : ColumnRep Rep hash c m) {w : Write K V}
    (hs : w.Sorted) (hk : ¬ w.Keeps m) : ¬ (c.write S hash w).Refines S hash (putAll m w.pairs) := by
  rintro ⟨-, hkeys⟩
  unfold Write.Keeps at hk
  push Not at hk
  obtain ⟨⟨k, v⟩, hkv, hne, hnv⟩ := hk
  obtain ⟨v₀, hv₀⟩ := Option.ne_none_iff_exists'.mp hne
  have hrow : restrict hash (shardOf hash n v₀) m k = some v₀ := (restrict_eq_some hash).mpr ⟨hv₀, rfl⟩
  have hlisted : k ∈ (c.write S hash w).keysOf S hash v₀ := by
    unfold Column.keysOf Column.write
    cases hr : route hash (shardOf hash n v₀) w with
    | none => exact (hS.keysOf (hc _) v₀ k).mpr hrow
    | some w' => exact hS.listed (hc _) hrow w'
  rw [hkeys, putAll_of_mem hs.nodup hkv] at hlisted
  exact hnv (hv₀.trans hlisted.symm)

/-- A write that is not good in one shard breaks a list of keys of the column. -/
lemma ColumnRep.write_bad (hS : S.Lawful Rep Good) (hc : ColumnRep Rep hash c m) {w : Write K V}
    (hs : w.Sorted) (hk : w.Keeps m) {i : Fin n} {w' : Write K V} (hr : route hash i w = some w')
    (hg : ¬ Good (c i) w') : ¬ (c.write S hash w).Refines S hash (putAll m w.pairs) := by
  rintro ⟨-, hkeys⟩
  obtain ⟨v, k, hv, hbad⟩ :=
    hS.write_bad (hc i) (sorted_of_route hash hs hr) (keeps_of_route hash hk hr) hg
  have hi : shardOf hash n v = i := by
    rcases hv with hv | ⟨k', hk'⟩
    · obtain ⟨kv, hkv, rfl⟩ := List.mem_map.mp hv
      rw [pairs_of_route hash hr, mem_bucket] at hkv
      exact hkv.2
    · exact ((restrict_eq_some hash).mp hk').2
  refine hbad ?_
  have hshard : (c.write S hash w).keysOf S hash v = S.keysOf (S.write (c i) w') v := by
    unfold Column.keysOf Column.write
    rw [hi, hr]
  rw [← hshard, hkeys, pairs_of_route hash hr, ← restrict_putAll hash i hs hk, restrict_eq_some]
  simp [hi]

/-- The loop of a delete: every shard that is not to be asked any more is without the key. -/
lemma ColumnRep.deleteFrom (hS : S.Lawful Rep Good) {k : K} (is : List (Fin n)) (c : Column n T)
    (hc : ∀ i, Rep (c i) (restrict hash i (eraseMap m k)) ∨ i ∈ is ∧ Rep (c i) (restrict hash i m)) :
    ColumnRep Rep hash (c.deleteFrom S k is).2 (eraseMap m k) := by
  induction is generalizing c with
  | nil =>
    intro i
    rcases hc i with hi | ⟨hi, -⟩
    · exact hi
    · simp at hi
  | cons j is ih =>
    unfold Column.deleteFrom
    simp only
    have hdel : Rep (S.deleteKv (c j) k).2 (restrict hash j (eraseMap m k)) := by
      rcases hc j with hj | ⟨-, hj⟩
      · have := (hS.deleteKv hj k).2
        rw [restrict_eraseMap] at this ⊢
        convert this using 1
        funext k'
        unfold eraseMap
        split <;> rfl
      · rw [restrict_eraseMap]
        exact (hS.deleteKv hj k).2
    split
    · rename_i hr
      intro i
      show Rep (Function.update c j (S.deleteKv (c j) k).2 i) _
      by_cases hij : i = j
      · subst hij
        rw [Function.update_self]
        exact hdel
      · rw [Function.update_of_ne hij]
        rcases hc i with hi | ⟨-, hi⟩
        · exact hi
        · -- the shard `j` had the key, so this one has not
          rw [restrict_eraseMap_of_none hash ?_]
          · exact hi
          refine Option.eq_none_iff_forall_ne_some.mpr fun v hv => hij ?_
          rcases hc j with hj | ⟨-, hj⟩
          · rw [(hS.deleteKv hj k).1, restrict_eraseMap] at hr
            simp [eraseMap] at hr
          · rw [(hS.deleteKv hj k).1] at hr
            obtain ⟨v', hv'⟩ := Option.isSome_iff_exists.mp hr
            rw [restrict_eq_some] at hv hv'
            rw [← hv.2, ← hv'.2, Option.some.inj (hv.1.symm.trans hv'.1)]
    · refine ih _ fun i => ?_
      by_cases hij : i = j
      · subst hij
        rw [Function.update_self]
        exact Or.inl hdel
      · rw [Function.update_of_ne hij]
        refine (hc i).imp_right fun hi => ⟨?_, hi.2⟩
        exact (List.mem_cons.mp hi.1).resolve_left hij

lemma ColumnRep.deleteKv (hS : S.Lawful Rep Good) (hc : ColumnRep Rep hash c m) (k : K) :
    ColumnRep Rep hash (c.deleteKv S k).2 (eraseMap m k) :=
  ColumnRep.deleteFrom hS _ c fun i => Or.inr ⟨List.mem_finRange i, hc i⟩

/-- One operation that meets the condition. -/
lemma ColumnRep.step (hS : S.Lawful Rep Good) (hc : ColumnRep Rep hash c m) {op : ColumnOp K V}
    (hs : op.Sorted) (hg : op.Good S hash Good c) :
    ColumnRep Rep hash (c.apply S hash op) (mapApply m op) := by
  cases op with
  | write w =>
    have hk : w.Keeps m := fun kv hkv => by
      have := hg.1 kv hkv
      rwa [hc.getValue hS] at this
    exact hc.write hS hs hk hg.2
  | deleteKv k => exact hc.deleteKv hS k
  | reopen => exact fun i => hS.reopen (hc i)

/-- An operation that does not meet its condition does not do what it does to the map. -/
lemma ColumnRep.step_bad (hS : S.Lawful Rep Good) (hc : ColumnRep Rep hash c m) {op : ColumnOp K V}
    (hs : op.Sorted) (hg : ¬ op.Good S hash Good c) :
    ¬ (c.apply S hash op).Refines S hash (mapApply m op) := by
  cases op with
  | write w =>
    have hread : c.getValue S = m := funext fun k => hc.getValue hS k
    unfold ColumnOp.Good at hg
    rw [hread] at hg
    by_cases hk : w.Keeps m
    · push Not at hg
      obtain ⟨i, w', hr, hbad⟩ := hg hk
      exact hc.write_bad hS hs hk hr hbad
    · exact hc.write_overwrites hS hs hk
  | deleteKv k => exact absurd trivial hg
  | reopen => exact absurd trivial hg

/-- **A column reads as the plain map of its operations, at every moment, exactly when no write
overwrites a row with another value and every shard gets good writes only.** -/
theorem column_refines_iff (hS : S.Lawful Rep Good) (hc : ColumnRep Rep hash c m)
    (ops : List (ColumnOp K V)) (hsorted : ∀ op ∈ ops, op.Sorted) :
    (∀ p, p <+: ops → (run (Column.apply S hash) c p).Refines S hash (run mapApply m p)) ↔
      EachStep (Column.apply S hash) (fun c op => op.Good S hash Good c) c ops := by
  let step (s : Column n T × (K → Option V)) (op : ColumnOp K V) :=
    (s.1.apply S hash op, mapApply s.2 op)
  have hrun : ∀ p, run step (c, m) p = (run (Column.apply S hash) c p, run mapApply m p) :=
    fun p => run_prod ..
  have hlegal : EachStep step (fun _ op => op.Sorted) (c, m) ops :=
    fun p op hp => hsorted op (hp.subset (by simp))
  have key := run_safe_iff step (fun s => ColumnRep Rep hash s.1 s.2) (fun s => s.1.Refines S hash s.2)
    (fun _ op => op.Sorted) (fun s op => op.Good S hash Good s.1) hc
    (fun s hs => hs.refines hS) (fun s op hs => hs.step hS) (fun s op hs => hs.step_bad hS) hlegal
  simp only [EachStep, hrun] at key
  exact key

end Steps

end Redbit.Storage
