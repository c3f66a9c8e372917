import Redbit.Lib.Apportion
import Mathlib.Algebra.Order.Ring.Nat

/-!
# The cache of the columns (`cache.rs`)

The configured cache, in MB, is divided over the columns by weight and largest remainder; the amount
of a column is then divided over its shards.  Amounts are `u64`: products and sums saturate or wrap
as in the source.

`allocateCacheMb_hamilton` is the whole function: what a column gets before it is divided over the
shards, and what the shards of all columns get together.
-/

namespace Redbit.Storage

open Redbit.Lib
open scoped List

/-! ### The allocation -/

/-- A column as it is configured. -/
structure DbDef where
  name : String
  shards : ℕ
  dbCacheWeightOrZero : ℕ
  lruCacheSizeOrZero : ℕ
  deriving DecidableEq, Repr

/-- A column with the cache of each of its shards. -/
structure DbDefWithCache where
  name : String
  shards : ℕ
  dbCacheWeight : ℕ
  dbCacheInMb : ℕ
  lruCache : ℕ
  deriving DecidableEq, Repr

def DbDefWithCache.new (dnDef : DbDef) (dbCacheInMb : ℕ) : DbDefWithCache :=
  { name := dnDef.name, shards := dnDef.shards, dbCacheWeight := dnDef.dbCacheWeightOrZero,
    dbCacheInMb := dbCacheInMb, lruCache := dnDef.lruCacheSizeOrZero }

/-- `u64::saturating_mul`. -/
def saturatingMul (a b : ℕ) : ℕ := min (a * b) (2 ^ 64 - 1)

/-- `u64::saturating_add`. -/
def saturatingAddU64 (a b : ℕ) : ℕ := min (a + b) (2 ^ 64 - 1)

def sumPositiveWeights (dbDefs : List DbDef) : ℕ :=
  ((dbDefs.map (·.dbCacheWeightOrZero)).filter (0 < ·)).sum % 2 ^ 64

/-- The share of a column: its position, the whole part and the remainder. -/
structure Share where
  idx : ℕ
  baseMb : ℕ
  remNum : ℕ
  deriving DecidableEq, Repr

def computeSharesMb (dbDefs : List DbDef) (totalMb sumW : ℕ) : List Share :=
  dbDefs.zipIdx.map fun (d, idx) =>
    if d.dbCacheWeightOrZero = 0 then { idx, baseMb := 0, remNum := 0 }
    else
      let prod := saturatingMul totalMb d.dbCacheWeightOrZero
      { idx, baseMb := prod / sumW, remNum := prod % sumW }

/-- Larger remainders first, then earlier columns. -/
def byRemainder (a b : Share) : Ordering := (compare b.remNum a.remNum).then (compare a.idx b.idx)

/-- The weight of the column of a share; `db_defs[s.idx]` is in range, since the shares are those of
`db_defs`. -/
def weightOf (dbDefs : List DbDef) (s : Share) : ℕ :=
  (dbDefs[s.idx]?.map (·.dbCacheWeightOrZero)).getD 0

def distributeRemainderMb (shares : List Share) (remainder : ℕ) (dbDefs : List DbDef) : List Share :=
  let byRem := shares.mergeSort fun a b => (byRemainder a b).isLE
  let granted := mapFirst (fun s => 0 < weightOf dbDefs s)
    (fun s => { s with baseMb := saturatingAddU64 s.baseMb 1 }) remainder byRem
  granted.mergeSort fun a b => a.idx ≤ b.idx

/-- The shares that `allocate_cache_mb` hands to the collection. -/
def allocateShares (dbDefs : List DbDef) (totalMb sumW : ℕ) : List Share :=
  let shares := computeSharesMb dbDefs totalMb sumW
  let baseSumMb := (shares.map (·.baseMb)).sum % 2 ^ 64
  let remainder := totalMb - baseSumMb
  if 0 < remainder then distributeRemainderMb shares remainder dbDefs else shares

def castU64ToUsize (x : ℕ) : ℕ := min x (2 ^ 64 - 1)

/-- `none` is the failed assertion that a column has a shard, or an index out of range. -/
def collectAllocationsMb (shares : List Share) (dbDefs : List DbDef) : Option (List DbDefWithCache) :=
  shares.mapM fun s => do
    let d ← dbDefs[s.idx]?
    if 1 ≤ d.shards then
      let perShardMb := if d.shards = 1 then s.baseMb else s.baseMb / d.shards
      some { name := d.name, dbCacheWeight := d.dbCacheWeightOrZero,
             dbCacheInMb := castU64ToUsize perShardMb, lruCache := d.lruCacheSizeOrZero, shards := d.shards }
    else none

def allocateCacheMb (dbDefs : List DbDef) (totalMb : ℕ) : Option (List DbDefWithCache) :=
  if dbDefs = [] ∨ totalMb = 0 then some (dbDefs.map (DbDefWithCache.new · 0))
  else
    let sumW := sumPositiveWeights dbDefs
    if sumW = 0 then some (dbDefs.map (DbDefWithCache.new · 0))
    else collectAllocationsMb (allocateShares dbDefs totalMb sumW) dbDefs

/-- What each column gets before it is divided over the shards. -/
def columnMb (dbDefs : List DbDef) (totalMb : ℕ) : List ℕ :=
  if dbDefs = [] ∨ totalMb = 0 ∨ sumPositiveWeights dbDefs = 0 then dbDefs.map fun _ => 0
  else (allocateShares dbDefs totalMb (sumPositiveWeights dbDefs)).map (·.baseMb)

/-! ### The shares -/

/-- The weight of all columns. -/
def totalWeight (dbDefs : List DbDef) : ℕ := (dbDefs.map (·.dbCacheWeightOrZero)).sum

variable {dbDefs : List DbDef} {totalMb : ℕ}

lemma sumPositiveWeights_eq (h : totalWeight dbDefs < 2 ^ 64) :
    sumPositiveWeights dbDefs = totalWeight dbDefs := by
  have hfilter : ∀ ws : List ℕ, (ws.filter (0 < ·)).sum = ws.sum := by
    intro ws
    induction ws with
    | nil => rfl
    | cons w ws ih => rcases Nat.eq_zero_or_pos w with rfl | hw <;> simp_all
  rw [sumPositiveWeights, hfilter]
  exact Nat.mod_eq_of_lt h

/-- The share of a column, exactly. -/
def shareOf (totalMb sumW : ℕ) (col : DbDef × ℕ) : Share :=
  ⟨col.2, totalMb * col.1.dbCacheWeightOrZero / sumW, totalMb * col.1.dbCacheWeightOrZero % sumW⟩

/-- Within `u64` the shares are the whole parts and the remainders. -/
lemma computeSharesMb_eq (hfit : totalMb * totalWeight dbDefs < 2 ^ 64) (sumW : ℕ) :
    computeSharesMb dbDefs totalMb sumW = dbDefs.zipIdx.map (shareOf totalMb sumW) := by
  apply List.map_congr_left
  rintro ⟨d, idx⟩ hd
  dsimp only [shareOf]
  split
  · next hw => simp [hw]
  · have hle : d.dbCacheWeightOrZero ≤ totalWeight dbDefs :=
      List.le_sum_of_mem (List.mem_map_of_mem (List.fst_mem_of_mem_zipIdx hd))
    have hprod := Nat.mul_le_mul_left totalMb hle
    have hsat : saturatingMul totalMb d.dbCacheWeightOrZero = totalMb * d.dbCacheWeightOrZero := by
      unfold saturatingMul
      omega
    rw [hsat]

lemma weightOf_shareOf {sumW : ℕ} {col : DbDef × ℕ} (h : col ∈ dbDefs.zipIdx) :
    weightOf dbDefs (shareOf totalMb sumW col) = col.1.dbCacheWeightOrZero := by
  have hget : dbDefs[col.2]? = some col.1 := List.mem_zipIdx_iff_getElem?.mp h
  simp [weightOf, shareOf, hget]

/-- The columns are numbered in order. -/
lemma pairwise_zipIdx (l : List DbDef) : l.zipIdx.Pairwise fun c d => c.2 < d.2 := by
  have hmap : (l.zipIdx.map Prod.snd).Pairwise (· < ·) := by
    rw [List.zipIdx_map_snd]
    exact List.pairwise_lt_range'
  exact List.pairwise_map.mp hmap

/-! ### The remainder -/

lemma byRemainder_isLE {a b : Share} :
    (byRemainder a b).isLE = true ↔ b.remNum < a.remNum ∨ b.remNum = a.remNum ∧ a.idx ≤ b.idx := by
  rw [byRemainder, Ordering.isLE_then_iff_or]
  simp [Nat.compare_eq_lt, Nat.isLE_compare]

lemma byRemainder_sorted (shares : List Share) :
    (shares.mergeSort fun a b => (byRemainder a b).isLE).Pairwise fun a b =>
      (byRemainder a b).isLE = true := by
  apply List.pairwise_mergeSort
  · intro a b c hab hbc
    rw [byRemainder_isLE] at *
    omega
  · intro a b
    rw [Bool.or_eq_true, byRemainder_isLE, byRemainder_isLE]
    omega

/-- The shares that get a unit more. -/
def grantedShares (shares : List Share) (remainder : ℕ) (dbDefs : List DbDef) : List Share :=
  ((shares.mergeSort fun a b => (byRemainder a b).isLE).filter fun s =>
    0 < weightOf dbDefs s).take remainder

/-- The share with its unit. -/
def grant (granted : List Share) (s : Share) : Share :=
  if s ∈ granted then { s with baseMb := saturatingAddU64 s.baseMb 1 } else s

@[simp] lemma grant_idx (granted : List Share) (s : Share) : (grant granted s).idx = s.idx := by
  unfold grant
  split <;> rfl

lemma nodup_of_idx {shares : List Share} (hidx : shares.Pairwise fun a b => a.idx < b.idx) :
    shares.Nodup :=
  hidx.imp fun {a b} hlt heq => by
    rw [heq] at hlt
    exact lt_irrefl _ hlt

/-- No two shares have the same position. -/
lemma eq_of_idx {shares : List Share} (hidx : shares.Pairwise fun a b => a.idx < b.idx)
    {a b : Share} (ha : a ∈ shares) (hb : b ∈ shares) (h : a.idx = b.idx) : a = b := by
  have hnodup : (shares.map (·.idx)).Nodup := List.pairwise_map.mpr (hidx.imp fun hlt => ne_of_lt hlt)
  exact List.inj_on_of_nodup_map hnodup ha hb h

lemma sorted_by_idx (shares : List Share) :
    (shares.mergeSort fun a b => a.idx ≤ b.idx).Pairwise fun a b => a.idx ≤ b.idx := by
  have hsorted : (shares.mergeSort fun a b => a.idx ≤ b.idx).Pairwise fun a b =>
      decide (a.idx ≤ b.idx) = true := by
    apply List.pairwise_mergeSort
    · intro a b c
      simp only [decide_eq_true_eq]
      omega
    · intro a b
      simp only [Bool.or_eq_true, decide_eq_true_eq]
      omega
  simpa using hsorted

/-- The two sorts cancel: every share stays at its place. -/
lemma distributeRemainderMb_eq {shares : List Share}
    (hidx : shares.Pairwise fun a b => a.idx < b.idx) (remainder : ℕ) (dbDefs : List DbDef) :
    distributeRemainderMb shares remainder dbDefs =
      shares.map (grant (grantedShares shares remainder dbDefs)) := by
  have hperm := List.mergeSort_perm shares fun a b => (byRemainder a b).isLE
  have hnodup := (hperm.nodup_iff).mpr (nodup_of_idx hidx)
  have hidx' : (shares.map (grant (grantedShares shares remainder dbDefs))).Pairwise fun a b =>
      a.idx < b.idx := by
    rw [List.pairwise_map]
    simpa using hidx
  dsimp only [distributeRemainderMb]
  rw [mapFirst_eq_map hnodup]
  refine List.Perm.eq_of_pairwise ?_ (sorted_by_idx _) (hidx'.imp fun h => h.le)
    ((List.mergeSort_perm _ _).trans (hperm.map _))
  intro a b ha hb hab hba
  rw [List.mem_mergeSort, (hperm.map _).mem_iff] at ha
  exact eq_of_idx hidx' ha hb (le_antisymm hab hba)

lemma grantedShares_pos {shares : List Share} {remainder : ℕ} {s : Share}
    (h : s ∈ grantedShares shares remainder dbDefs) : 0 < weightOf dbDefs s := by
  simpa using List.of_mem_filter (List.mem_of_mem_take h)

/-- A column of positive weight that comes before a granted one is granted. -/
lemma grantedShares_before {shares : List Share} {remainder : ℕ} {a b : Share}
    (ha : a ∈ grantedShares shares remainder dbDefs) (hb : b ∈ shares) (hpos : 0 < weightOf dbDefs b)
    (h : a.remNum < b.remNum ∨ a.remNum = b.remNum ∧ b.idx < a.idx) :
    b ∈ grantedShares shares remainder dbDefs := by
  apply mem_take_of_before ((byRemainder_sorted shares).filter _) ha
  · exact List.mem_filter.mpr ⟨List.mem_mergeSort.mpr hb, by simpa using hpos⟩
  · rw [byRemainder_isLE]
    omega

/-- Every unit is granted, as long as there are columns of positive weight. -/
lemma countP_granted {shares : List Share} (hnodup : shares.Nodup) {remainder : ℕ}
    (h : remainder ≤ shares.countP fun s => 0 < weightOf dbDefs s) :
    shares.countP (fun s => s ∈ grantedShares shares remainder dbDefs) = remainder := by
  have hperm := List.mergeSort_perm shares fun a b => (byRemainder a b).isLE
  have hnodup' : (grantedShares shares remainder dbDefs).Nodup :=
    (((hperm.nodup_iff).mpr hnodup).filter _).take
  have hmem : ∀ s, s ∈ shares.filter (fun s => s ∈ grantedShares shares remainder dbDefs) ↔
      s ∈ grantedShares shares remainder dbDefs := by
    intro s
    rw [List.mem_filter, decide_eq_true_eq, and_iff_right_iff_imp]
    intro hs
    exact hperm.mem_iff.mp (List.mem_of_mem_filter (List.mem_of_mem_take hs))
  rw [List.countP_eq_length_filter, ((List.perm_ext_iff_of_nodup (hnodup.filter _) hnodup').mpr
    hmem).length_eq,
    grantedShares, List.length_take, ← List.countP_eq_length_filter, hperm.countP_eq]
  exact min_eq_left h

/-! ### The amounts of the columns -/

lemma map_zipIdx {β : Type} (f : DbDef → β) (l : List DbDef) :
    (l.zipIdx.map fun c => f c.1) = l.map f := by
  conv_rhs => rw [← List.zipIdx_map_fst 0 l, List.map_map]
  rfl

lemma zipWith_zipIdx {β γ : Type} (f : DbDef → β → γ) (g : DbDef × ℕ → β) (l : List DbDef) :
    List.zipWith f l (l.zipIdx.map g) = l.zipIdx.map fun c => f c.1 (g c) := by
  conv_lhs => rw [← List.zipIdx_map_fst 0 l]
  rw [List.zipWith_map, List.zipIdx_map_fst, List.zipWith_self]

/-- The units that the whole parts leave. -/
def leftover (dbDefs : List DbDef) (totalMb : ℕ) : ℕ :=
  totalMb - (dbDefs.map fun d => totalMb * d.dbCacheWeightOrZero / totalWeight dbDefs).sum

/-- Whether the column gets one of them. -/
def served (dbDefs : List DbDef) (totalMb : ℕ) (col : DbDef × ℕ) : Bool :=
  shareOf totalMb (totalWeight dbDefs) col ∈
    grantedShares (dbDefs.zipIdx.map (shareOf totalMb (totalWeight dbDefs)))
      (leftover dbDefs totalMb) dbDefs

section Divided

variable (htotal : 0 < totalMb) (hW : 0 < totalWeight dbDefs)
  (hfit : totalMb * totalWeight dbDefs < 2 ^ 64)

include hW

lemma whole_sum_le (totalMb : ℕ) :
    (dbDefs.map fun d => totalMb * d.dbCacheWeightOrZero / totalWeight dbDefs).sum ≤ totalMb ∧
      leftover dbDefs totalMb ≤ dbDefs.countP (0 < ·.dbCacheWeightOrZero) := by
  have hleft := leftover_le totalMb (show 0 < (dbDefs.map (·.dbCacheWeightOrZero)).sum from hW)
  rw [List.map_map, List.countP_map] at hleft
  exact hleft

include hfit

/-- There is room for the unit of a served column. -/
lemma grant_shareOf {col : DbDef × ℕ} (hcol : col ∈ dbDefs.zipIdx) :
    grant (grantedShares (dbDefs.zipIdx.map (shareOf totalMb (totalWeight dbDefs)))
      (leftover dbDefs totalMb) dbDefs)
      (shareOf totalMb (totalWeight dbDefs) col) =
      { shareOf totalMb (totalWeight dbDefs) col with
        baseMb := totalMb * col.1.dbCacheWeightOrZero / totalWeight dbDefs +
          if served dbDefs totalMb col then 1 else 0 } := by
  unfold grant
  split
  · next hm =>
    have hserved : served dbDefs totalMb col = true := decide_eq_true hm
    have hpos : 0 < leftover dbDefs totalMb := by
      by_contra h0
      rw [Nat.eq_zero_of_not_pos h0] at hm
      simp [grantedShares] at hm
    have hle : totalMb * col.1.dbCacheWeightOrZero / totalWeight dbDefs ≤
        (dbDefs.map fun d => totalMb * d.dbCacheWeightOrZero / totalWeight dbDefs).sum :=
      List.le_sum_of_mem (List.mem_map.mpr ⟨col.1, List.fst_mem_of_mem_zipIdx hcol, rfl⟩)
    have hmb : totalMb ≤ totalMb * totalWeight dbDefs := Nat.le_mul_of_pos_right _ hW
    have hsat : saturatingAddU64 (totalMb * col.1.dbCacheWeightOrZero / totalWeight dbDefs) 1 =
        totalMb * col.1.dbCacheWeightOrZero / totalWeight dbDefs + 1 := by
      unfold leftover at hpos
      unfold saturatingAddU64
      omega
    rw [hserved, if_pos rfl, ← hsat]
    rfl
  · next hm =>
    have hserved : served dbDefs totalMb col = false := decide_eq_false hm
    rw [hserved]
    rfl

/-- The shares that are collected. -/
lemma allocateShares_eq :
    allocateShares dbDefs totalMb (totalWeight dbDefs) = dbDefs.zipIdx.map fun c =>
      { shareOf totalMb (totalWeight dbDefs) c with
        baseMb := totalMb * c.1.dbCacheWeightOrZero / totalWeight dbDefs +
          if served dbDefs totalMb c then 1 else 0 } := by
  have hmb : totalMb ≤ totalMb * totalWeight dbDefs := Nat.le_mul_of_pos_right _ hW
  have hwhole := (whole_sum_le hW totalMb).1
  have hbase : ((dbDefs.zipIdx.map (shareOf totalMb (totalWeight dbDefs))).map (·.baseMb)).sum =
      (dbDefs.map fun d => totalMb * d.dbCacheWeightOrZero / totalWeight dbDefs).sum := by
    rw [List.map_map, ← map_zipIdx]
    rfl
  have hidx : (dbDefs.zipIdx.map (shareOf totalMb (totalWeight dbDefs))).Pairwise fun a b =>
      a.idx < b.idx :=
    List.pairwise_map.mpr (pairwise_zipIdx dbDefs)
  have hgranted : ∀ c ∈ dbDefs.zipIdx, _ := fun c hc => grant_shareOf hW hfit hc
  dsimp only [allocateShares]
  rw [computeSharesMb_eq hfit, hbase, Nat.mod_eq_of_lt (by omega), ← List.map_congr_left hgranted]
  change (if 0 < leftover dbDefs totalMb then _ else _) = _
  split
  · rw [distributeRemainderMb_eq hidx, List.map_map]
    rfl
  · next hzero =>
    rw [Nat.eq_zero_of_not_pos hzero]
    simp [grantedShares, grant]

omit hfit in
lemma ne_nil_of_weight : dbDefs ≠ [] := by
  rintro rfl
  exact absurd hW (by decide)

include htotal

omit hW in
lemma sumPositiveWeights_of_fit : sumPositiveWeights dbDefs = totalWeight dbDefs :=
  sumPositiveWeights_eq (lt_of_le_of_lt (Nat.le_mul_of_pos_left _ htotal) hfit)

lemma columnMb_eq :
    columnMb dbDefs totalMb = dbDefs.zipIdx.map fun c =>
      totalMb * c.1.dbCacheWeightOrZero / totalWeight dbDefs + if served dbDefs totalMb c then 1
        else 0 := by
  have hsum := sumPositiveWeights_of_fit htotal hfit
  have hne := ne_nil_of_weight hW
  rw [columnMb, if_neg (by rw [hsum]; simp only [hne, false_or]; omega), hsum,
    allocateShares_eq hW hfit, List.map_map]
  rfl

lemma hamilton_columnMb :
    Hamilton totalMb ((dbDefs.map (·.dbCacheWeightOrZero)).zip (columnMb dbDefs totalMb)) := by
  have hsum : (dbDefs.zipIdx.map fun c => c.1.dbCacheWeightOrZero).sum = totalWeight dbDefs := by
    rw [map_zipIdx]
    rfl
  have hidx : (dbDefs.zipIdx.map (shareOf totalMb (totalWeight dbDefs))).Pairwise fun a b =>
      a.idx < b.idx :=
    List.pairwise_map.mpr (pairwise_zipIdx dbDefs)
  have hpositive : (dbDefs.zipIdx.map (shareOf totalMb (totalWeight dbDefs))).countP
    (fun s => 0 < weightOf dbDefs s) =
      dbDefs.countP (0 < ·.dbCacheWeightOrZero) := by
    conv_rhs => rw [← List.zipIdx_map_fst 0 dbDefs, List.countP_map]
    rw [List.countP_map]
    apply List.countP_congr
    intro c hc
    simp [weightOf_shareOf hc]
  have hcount : dbDefs.zipIdx.countP (served dbDefs totalMb) = leftover dbDefs totalMb := by
    have hgranted := countP_granted (nodup_of_idx hidx) (hpositive ▸ (whole_sum_le hW totalMb).2)
    rwa [List.countP_map] at hgranted
  have hcols : (dbDefs.map (·.dbCacheWeightOrZero)).zip (columnMb dbDefs totalMb) =
      dbDefs.zipIdx.map fun c =>
      (c.1.dbCacheWeightOrZero,
        totalMb * c.1.dbCacheWeightOrZero / totalWeight dbDefs + if served dbDefs totalMb c then 1
          else 0) := by
    rw [columnMb_eq htotal hW hfit, List.zip, List.zipWith_map_left, zipWith_zipIdx]
  rw [hcols, ← hsum]
  apply hamilton_of_granted htotal
  · rwa [hsum]
  · rw [hsum, hcount, leftover, ← map_zipIdx]
  · intro c hc hs
    have hpos := grantedShares_pos (of_decide_eq_true hs)
    rwa [weightOf_shareOf hc] at hpos
  · intro c hc d hd hs hpos hrem
    rw [hsum] at hrem
    refine decide_eq_true (grantedShares_before (of_decide_eq_true hs) (List.mem_map_of_mem hd) ?_
      (Or.inl hrem))
    rwa [weightOf_shareOf hd]
  · refine (pairwise_zipIdx dbDefs).imp_of_mem ?_
    intro c d hc hd hlt heq hs
    have hpos := grantedShares_pos (of_decide_eq_true hs)
    rw [weightOf_shareOf hd, ← heq] at hpos
    refine decide_eq_true (grantedShares_before (of_decide_eq_true hs) (List.mem_map_of_mem hc) ?_
      (Or.inr ⟨?_, hlt⟩))
    · rwa [weightOf_shareOf hc]
    · simp only [shareOf, heq]

end Divided

/-- Where nothing is divided every column gets nothing. -/
lemma hamilton_zero (h : totalMb = 0 ∨ totalWeight dbDefs = 0) :
    Hamilton totalMb ((dbDefs.map (·.dbCacheWeightOrZero)).zip (dbDefs.map fun _ => 0)) := by
  have hsum : (((dbDefs.map (·.dbCacheWeightOrZero)).zip (dbDefs.map fun _ => 0)).map Prod.fst).sum =
      totalWeight dbDefs := by
    rw [List.zip_map', List.map_map]
    rfl
  have hzero : ∀ c ∈ (dbDefs.map (·.dbCacheWeightOrZero)).zip (dbDefs.map fun _ => 0), c.2 = 0 := by
    rw [List.zip_map']
    simp
  constructor
  case zero => exact fun c hc _ => hzero c hc
  case quota =>
    intro c hc hpos
    left
    rw [hzero c hc, hsum]
    rcases h with rfl | h
    · simp
    · rw [h, Nat.div_zero]
  case sum_eq =>
    intro hpos
    rw [hsum] at hpos
    rw [List.zip_map', List.map_map]
    simp [Function.comp_def, h.resolve_right (by omega)]
  case mono =>
    intro c hc d hd _
    rw [hzero c hc, hzero d hd]
  case ties =>
    apply List.pairwise_of_forall_mem_list
    intro c hc d hd _
    rw [hzero c hc, hzero d hd]
    omega

/-! ### The shards -/

lemma mapM_map_eq_some {α β γ : Type} {f : β → Option γ} {share : α → β} {g : α → γ} {l : List α}
    (h : ∀ a ∈ l, f (share a) = some (g a)) : (l.map share).mapM f = some (l.map g) := by
  induction l with
  | nil => rfl
  | cons a l ih =>
    rw [List.map_cons, List.mapM_cons, h a List.mem_cons_self, ih fun b hb =>
      h b (List.mem_cons_of_mem a hb)]
    rfl

/-- The collection divides each share by the shards of its column. -/
lemma collectAllocationsMb_eq (hshards : ∀ d ∈ dbDefs, 1 ≤ d.shards) {share : DbDef × ℕ → Share}
    (hidx : ∀ c, (share c).idx = c.2) (hfit : ∀ c ∈ dbDefs.zipIdx, (share c).baseMb < 2 ^ 64) :
    collectAllocationsMb (dbDefs.zipIdx.map share) dbDefs =
      some (dbDefs.zipIdx.map fun c => DbDefWithCache.new c.1 ((share c).baseMb / c.1.shards)) := by
  apply mapM_map_eq_some
  intro c hc
  have hget : dbDefs[(share c).idx]? = some c.1 := by
    rw [hidx]
    exact List.mem_zipIdx_iff_getElem?.mp hc
  have hpos := hshards c.1 (List.fst_mem_of_mem_zipIdx hc)
  have hper : (if c.1.shards = 1 then (share c).baseMb else (share c).baseMb / c.1.shards) =
      (share c).baseMb / c.1.shards := by
    split
    · next h1 => rw [h1, Nat.div_one]
    · rfl
  have hcast : castU64ToUsize ((share c).baseMb / c.1.shards) = (share c).baseMb / c.1.shards := by
    have := Nat.div_le_self (share c).baseMb c.1.shards
    have := hfit c hc
    unfold castU64ToUsize
    omega
  simp only [hget, Option.bind_eq_bind, Option.bind_some, if_pos hpos, hper, hcast, DbDefWithCache.new]

/-- What the shards lose is less than one MB each. -/
lemma shards_sum (cols : List (DbDef × ℕ)) (hshards : ∀ c ∈ cols, 1 ≤ c.1.shards) :
    (cols.map fun c => c.1.shards * (c.2 / c.1.shards)).sum ≤ (cols.map Prod.snd).sum ∧
      (cols.map Prod.snd).sum + cols.length ≤
        (cols.map fun c => c.1.shards * (c.2 / c.1.shards)).sum + (cols.map (·.1.shards)).sum := by
  induction cols with
  | nil => simp
  | cons c cols ih =>
    obtain ⟨hle, hlt⟩ := ih fun d hd => hshards d (List.mem_cons_of_mem c hd)
    have hdiv := Nat.div_add_mod c.2 c.1.shards
    have hmod := Nat.mod_lt c.2 (hshards c List.mem_cons_self)
    simp only [List.map_cons, List.sum_cons, List.length_cons]
    omega

lemma sum_columnMb (hham : Hamilton totalMb
    ((dbDefs.map (·.dbCacheWeightOrZero)).zip (columnMb dbDefs totalMb)))
    (hlen : (columnMb dbDefs totalMb).length = dbDefs.length) (hW : 0 < totalWeight dbDefs) :
    (columnMb dbDefs totalMb).sum = totalMb := by
  have hsum := hham.sum_eq (by rwa [List.map_fst_zip (by simp [hlen])])
  rwa [List.map_snd_zip (by simp [hlen])] at hsum

lemma allocateCacheMb_eq (hshards : ∀ d ∈ dbDefs, 1 ≤ d.shards)
    (hfit : totalMb * totalWeight dbDefs < 2 ^ 64) :
    Hamilton totalMb ((dbDefs.map (·.dbCacheWeightOrZero)).zip (columnMb dbDefs totalMb)) ∧
      (columnMb dbDefs totalMb).length = dbDefs.length ∧ (columnMb dbDefs totalMb).sum ≤ totalMb ∧
      allocateCacheMb dbDefs totalMb =
        some (List.zipWith (fun d mb => DbDefWithCache.new d (mb / d.shards)) dbDefs
          (columnMb dbDefs totalMb)) := by
  by_cases hzero : totalMb = 0 ∨ totalWeight dbDefs = 0
  · have hcond : dbDefs = [] ∨ totalMb = 0 ∨ sumPositiveWeights dbDefs = 0 := by
      rcases hzero with h | h
      · exact Or.inr (Or.inl h)
      · exact Or.inr (Or.inr (by rw [sumPositiveWeights_eq (by omega), h]))
    have hcols : columnMb dbDefs totalMb = dbDefs.map fun _ => 0 := if_pos hcond
    rw [hcols]
    refine ⟨hamilton_zero hzero, List.length_map _, by simp, ?_⟩
    rw [allocateCacheMb, List.zipWith_map_right, List.zipWith_self]
    simp only [Nat.zero_div]
    split
    · rfl
    · rw [if_pos (by tauto)]
  · rw [not_or] at hzero
    have htotal : 0 < totalMb := by omega
    have hW : 0 < totalWeight dbDefs := by omega
    have hsum := sumPositiveWeights_of_fit htotal hfit
    have hne := ne_nil_of_weight hW
    have hham := hamilton_columnMb htotal hW hfit
    have hlen : (columnMb dbDefs totalMb).length = dbDefs.length := by
      rw [columnMb_eq htotal hW hfit, List.length_map, List.length_zipIdx]
    have htotalMb := sum_columnMb hham hlen hW
    refine ⟨hham, hlen, htotalMb.le, ?_⟩
    rw [allocateCacheMb, if_neg (by simp [hne]; omega)]
    dsimp only
    rw [if_neg (by omega), hsum, allocateShares_eq hW hfit, collectAllocationsMb_eq hshards,
      columnMb_eq htotal hW hfit, zipWith_zipIdx]
    · exact fun c => rfl
    · intro c hc
      have hmem : totalMb * c.1.dbCacheWeightOrZero / totalWeight dbDefs +
          (if served dbDefs totalMb c then 1 else 0) ∈ columnMb dbDefs totalMb := by
        rw [columnMb_eq htotal hW hfit]
        exact List.mem_map_of_mem hc
      have hle := List.le_sum_of_mem hmem
      have hmb : totalMb ≤ totalMb * totalWeight dbDefs := Nat.le_mul_of_pos_right _ hW
      dsimp only
      omega

/-- **The cache of a store.**  Before it is divided over the shards the cache is apportioned by
largest remainder; the columns keep their order, each shard gets the whole part of what the column
got, and together the shards get at most the total and lose less than one MB each. -/
theorem allocateCacheMb_hamilton (hshards : ∀ d ∈ dbDefs, 1 ≤ d.shards)
    (hfit : totalMb * totalWeight dbDefs < 2 ^ 64) :
    (columnMb dbDefs totalMb).length = dbDefs.length ∧
      Hamilton totalMb ((dbDefs.map (·.dbCacheWeightOrZero)).zip (columnMb dbDefs totalMb)) ∧
      ∃ out, allocateCacheMb dbDefs totalMb = some out ∧
        out = List.zipWith (fun d mb => DbDefWithCache.new d (mb / d.shards)) dbDefs
          (columnMb dbDefs totalMb) ∧
        (out.map fun c => c.shards * c.dbCacheInMb).sum ≤ totalMb ∧
        (0 < totalWeight dbDefs →
          totalMb < (out.map fun c => c.shards * c.dbCacheInMb).sum +
            (dbDefs.map (·.shards)).sum) := by
  obtain ⟨hham, hlen, hle, heq⟩ := allocateCacheMb_eq hshards hfit
  refine ⟨hlen, hham, _, heq, rfl, ?_⟩
  have hsum : ((List.zipWith (fun d mb => DbDefWithCache.new d (mb / d.shards)) dbDefs
    (columnMb dbDefs totalMb)).map
      fun c => c.shards * c.dbCacheInMb) =
      (dbDefs.zip (columnMb dbDefs totalMb)).map fun c => c.1.shards * (c.2 / c.1.shards) := by
    rw [List.map_zipWith, List.map_zip_eq_zipWith]
    rfl
  obtain ⟨hfew, hmany⟩ := shards_sum (dbDefs.zip (columnMb dbDefs totalMb))
    fun c hc => hshards c.1 (List.of_mem_zip hc).1
  have hshardSum : ((dbDefs.zip (columnMb dbDefs totalMb)).map (·.1.shards)) =
      dbDefs.map (·.shards) := by
    conv_rhs => rw [← List.map_fst_zip (le_of_eq hlen.symm), List.map_map]
    rfl
  rw [List.map_snd_zip (le_of_eq hlen)] at hfew hmany
  rw [hsum]
  refine ⟨hfew.trans hle, ?_⟩
  intro hW
  have htotal := sum_columnMb hham hlen hW
  have hpos : 0 < (dbDefs.zip (columnMb dbDefs totalMb)).length := by
    rw [List.length_zip, hlen, min_self]
    by_contra h0
    rw [List.length_eq_zero_iff.mp (Nat.eq_zero_of_not_pos h0)] at hW
    exact absurd hW (by decide)
  rw [hshardSum] at hmany
  omega

/-- Three columns of one weight and one of none share five MB; on the shards one MB is lost. -/
theorem allocateCacheMb_hamilton_five :
    let dbDefs : List DbDef := [⟨"a", 2, 1, 0⟩, ⟨"b", 1, 0, 0⟩, ⟨"c", 2, 1, 0⟩, ⟨"d", 2, 1, 0⟩]
    ∃ out, allocateCacheMb dbDefs 5 = some out ∧ (columnMb dbDefs 5).length = 4 ∧
      (out.map fun c => c.shards * c.dbCacheInMb).sum ≤ 5 ∧
      5 < (out.map fun c => c.shards * c.dbCacheInMb).sum + 7 := by
  intro dbDefs
  obtain ⟨hlen, -, out, hout, -, hle, hlt⟩ :=
    allocateCacheMb_hamilton (show ∀ d ∈ dbDefs, 1 ≤ d.shards by decide)
      (show 5 * totalWeight dbDefs < 2 ^ 64 by decide)
  exact ⟨out, hout, hlen, hle, hlt (by decide)⟩

end Redbit.Storage
