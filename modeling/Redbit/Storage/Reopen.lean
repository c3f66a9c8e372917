import Redbit.Lib.Codec
import Redbit.Storage.CacheAlloc

/-!
# Creating and reopening a store (`init.rs`)

Every shard of a column is a file of its own.  A new store is created column by column; an existing
one is opened with one task for each shard, and the databases that come back are grouped by the name
of the column and sorted by shard.

The file system and the database crate are a parameter, `Disk`: a call fails or gives a database on
the file, with the cache that was asked for or with the one that the crate has by default.

`reopened_iff` compares the two ways: what is at a position of a column, and the cache that it is
configured with.
-/

namespace Redbit.Storage

/-! ### The source -/

/-- A file in the directory of the store. -/
structure DbPath where
  dir : String
  file : String
  deriving DecidableEq

/-- A database on a file, with the size of its cache in bytes. -/
structure Database where
  path : DbPath
  cacheBytes : ℕ
  deriving DecidableEq

/-- What the calls of the file system and of the database crate give. -/
structure Disk where
  createDirAll : String → Except String Unit
  createFile : DbPath → Except String Unit
  openFile : DbPath → Except String Unit
  /-- The cache of `Database::open`. -/
  defaultCacheBytes : ℕ

/-- `Database::builder().set_cache_size(..).create(..)`. -/
def Disk.createDb (disk : Disk) (cacheSize : ℕ) (path : DbPath) : Except String Database :=
  (disk.createFile path).map fun _ => ⟨path, cacheSize⟩

/-- `Database::open`. -/
def Disk.openDb (disk : Disk) (path : DbPath) : Except String Database :=
  (disk.openFile path).map fun _ => ⟨path, disk.defaultCacheBytes⟩

/-- `db_file_path`. -/
def dbFilePath (dir name : String) (shardIdx : Option ℕ) : DbPath :=
  match shardIdx with
  | some i => ⟨dir, name ++ "-" ++ Nat.repr i ++ ".db"⟩
  | none => ⟨dir, name ++ ".db"⟩

def DbDefWithCache.validate (dbc : DbDefWithCache) : Except String Unit :=
  if dbc.shards = 0 then
    .error s!"column `{dbc.name}`: shards == 0 is not supported; use 1 (single) or >= 2 (sharded)"
  else .ok ()

/-- The number in the name of a shard's file: none if there is one shard. -/
def suffix (shards shardIdx : ℕ) : Option ℕ := if shards = 1 then none else some shardIdx

/-- The columns and their databases, by shard. -/
abbrev DbSets := Std.HashMap String (List Database)

/-- The file of a shard. -/
def shardPath (dir : String) (dbc : DbDefWithCache) (shardIdx : ℕ) : DbPath :=
  dbFilePath dir dbc.name (suffix dbc.shards shardIdx)

/-- The turn of a column in `build_owned_map_create`. -/
def createColumn (disk : Disk) (dbDir : String) (out : DbSets) (dbc : DbDefWithCache) :
    Except String DbSets := do
  dbc.validate
  let v ← (List.range dbc.shards).mapM fun shardIdx =>
    disk.createDb dbc.dbCacheInMb (shardPath dbDir dbc shardIdx)
  return out.insert dbc.name v

/-- `build_owned_map_create`. -/
def buildOwnedMapCreate (disk : Disk) (dbDir : String) (defs : List DbDefWithCache) :
    Except String DbSets :=
  defs.foldlM (createColumn disk dbDir) ∅

/-- One database more under a name. -/
def pushShard (shards : Std.HashMap String (List (ℕ × Database))) (x : String × ℕ × Database) :
    Std.HashMap String (List (ℕ × Database)) :=
  shards.insert x.1 (shards.getD x.1 [] ++ [x.2])

/-- `DbSetOwned::new`. -/
def dbSetOwnedNew (nameIndexDbs : List (String × ℕ × Database)) : DbSets :=
  (nameIndexDbs.foldl pushShard ∅).map fun _ v => (v.mergeSort fun a b => a.1 ≤ b.1).map (·.2)

/-- A task of `build_owned_map_open`. -/
def openTask (disk : Disk) (dbDir : String) (task : DbDefWithCache × ℕ) :
    Except String (String × ℕ × Database) :=
  (disk.openDb (shardPath dbDir task.1 task.2)).map fun db => (task.1.name, task.2, db)

/-- `build_owned_map_open`; the results come back in the order of the tasks. -/
def buildOwnedMapOpen (disk : Disk) (dbDir : String) (defs : List DbDefWithCache) :
    Except String DbSets := do
  forM defs DbDefWithCache.validate
  let tasks := defs.flatMap fun dbc => (List.range dbc.shards).map fun idx => (dbc, idx)
  let opened ← tasks.mapM (openTask disk dbDir)
  return dbSetOwnedNew opened

/-- `StorageOwner::init` in a directory that is there or not: whether the store is new, and its
databases. -/
def init (disk : Disk) (dirExists : Bool) (dbDir : String) (dbDefs : List DbDef)
    (totalCacheSizeGb : UInt8) : Except String (Bool × DbSets) :=
  match allocateCacheMb dbDefs (totalCacheSizeGb.toNat * 1024) with
  | none => .error "column must have at least 1 shard"
  | some defsWithCache =>
    if dirExists then do
      let indexDbs ← buildOwnedMapOpen disk dbDir defsWithCache
      return (false, indexDbs)
    else do
      disk.createDirAll dbDir
      let indexDbs ← buildOwnedMapCreate disk dbDir defsWithCache
      return (true, indexDbs)

/-- The database at a position of a column. -/
def dbAt (dbs : DbSets) (name : String) (i : ℕ) : Option Database := dbs[name]?.bind (·[i]?)

/-! ### What is at a position -/

/-- The databases are the shards of the columns in their order, each on its file and with the cache
of its column.
-/
def LaidOut (dbDir : String) (defs : List DbDefWithCache) (cache : DbDefWithCache → ℕ)
    (dbs : DbSets) : Prop :=
  ∀ name, (∀ d ∈ defs, d.name = name →
    dbs[name]? = some ((List.range d.shards).map fun i => ⟨shardPath dbDir d i, cache d⟩)) ∧
    ((∀ d ∈ defs, d.name ≠ name) → dbs[name]? = none)

variable {disk : Disk} {dbDir : String} {defs : List DbDefWithCache}

lemma bind_eq_ok {α β : Type} {x : Except String α} {f : α → Except String β} {b : β} :
    x >>= f = .ok b ↔ ∃ a, x = .ok a ∧ f a = .ok b := by
  cases x <;> simp [bind, Except.bind]

lemma map_eq_ok {α β : Type} {x : Except String α} {f : α → β} {b : β} :
    x.map f = .ok b ↔ ∃ a, x = .ok a ∧ f a = b := by
  cases x <;> simp [Except.map]

/-- A list of calls that all succeed gives what they give. -/
lemma mapM_eq_ok {α β : Type} {f : α → Except String β} {g : α → β}
    (hf : ∀ a b, f a = .ok b → b = g a) {l : List α} {bs : List β} (h : l.mapM f = .ok bs) :
    bs = l.map g := by
  induction l generalizing bs with
  | nil =>
    cases h
    rfl
  | cons a l ih =>
    rw [List.mapM_cons] at h
    obtain ⟨b, hb, hrest⟩ := bind_eq_ok.mp h
    obtain ⟨cs, hcs, heq⟩ := bind_eq_ok.mp hrest
    cases heq
    rw [hf a b hb, ih hcs, List.map_cons]

/-! ### Creating -/

lemma createColumn_ok {out out' : DbSets} {d : DbDefWithCache}
    (h : createColumn disk dbDir out d = .ok out') :
    out' = out.insert d.name ((List.range d.shards).map fun i =>
      ⟨shardPath dbDir d i, d.dbCacheInMb⟩) := by
  obtain ⟨-, -, hrest⟩ := bind_eq_ok.mp h
  obtain ⟨v, hv, heq⟩ := bind_eq_ok.mp hrest
  cases heq
  rw [mapM_eq_ok _ hv]
  intro i db hdb
  obtain ⟨-, -, rfl⟩ := map_eq_ok.mp hdb
  rfl

/-- The columns that are still to come do not touch the others. -/
lemma foldlM_createColumn {out out' : DbSets} (hnames : (defs.map (·.name)).Nodup)
    (h : defs.foldlM (createColumn disk dbDir) out = .ok out') (name : String) :
    (∀ d ∈ defs, d.name = name →
      out'[name]? = some ((List.range d.shards).map fun i => ⟨shardPath dbDir d i, d.dbCacheInMb⟩)) ∧
    ((∀ d ∈ defs, d.name ≠ name) → out'[name]? = out[name]?) := by
  induction defs generalizing out with
  | nil =>
    cases h
    exact ⟨fun d hd => absurd hd List.not_mem_nil, fun _ => rfl⟩
  | cons d defs ih =>
    rw [List.foldlM_cons] at h
    obtain ⟨mid, hmid, hrest⟩ := bind_eq_ok.mp h
    rw [List.map_cons, List.nodup_cons] at hnames
    obtain ⟨hfound, hkept⟩ := ih hnames.2 hrest
    rw [createColumn_ok hmid] at hkept
    constructor
    · intro c hc hname
      rcases List.mem_cons.mp hc with rfl | hc
      · -- the later columns have other names
        have hlater : ∀ e ∈ defs, e.name ≠ name := by
          intro e he heq
          exact hnames.1 (List.mem_map.mpr ⟨e, he, heq.trans hname.symm⟩)
        rw [hkept hlater, ← hname, Std.HashMap.getElem?_insert_self]
      · exact hfound c hc hname
    · intro hnone
      rw [hkept fun e he => hnone e (List.mem_cons_of_mem d he), Std.HashMap.getElem?_insert,
        if_neg (by simpa using hnone d List.mem_cons_self)]

lemma laidOut_create {dbs : DbSets} (hnames : (defs.map (·.name)).Nodup)
    (h : buildOwnedMapCreate disk dbDir defs = .ok dbs) : LaidOut dbDir defs (·.dbCacheInMb) dbs := by
  intro name
  obtain ⟨hfound, hkept⟩ := foldlM_createColumn hnames h name
  exact ⟨hfound, fun hnone => (hkept hnone).trans Std.HashMap.getElem?_empty⟩

/-! ### Opening -/

/-- The databases under a name are kept in the order in which they come. -/
lemma getElem?_foldl_pushShard (l : List (String × ℕ × Database))
    (m : Std.HashMap String (List (ℕ × Database))) (name : String) :
    (l.foldl pushShard m)[name]? =
      if l.filter (·.1 = name) = [] then m[name]?
        else some (m.getD name [] ++ (l.filter (·.1 = name)).map (·.2)) := by
  induction l generalizing m with
  | nil => rfl
  | cons x l ih =>
    rw [List.foldl_cons, ih]
    by_cases hx : x.1 = name
    · have hself : (pushShard m x)[name]? = some (m.getD name [] ++ [x.2]) := by
        rw [pushShard, hx, Std.HashMap.getElem?_insert_self]
      have hgetD : (pushShard m x).getD name [] = m.getD name [] ++ [x.2] := by
        rw [Std.HashMap.getD_eq_getD_getElem?, hself, Option.getD_some]
      rw [List.filter_cons_of_pos (by simpa using hx), if_neg (List.cons_ne_nil _ _), hself, hgetD]
      split
      · next hnil => rw [hnil, List.map_cons, List.map_nil]
      · rw [List.map_cons, List.append_assoc, List.singleton_append]
    · have hother : (pushShard m x)[name]? = m[name]? := by
        rw [pushShard, Std.HashMap.getElem?_insert, if_neg (by simpa using hx)]
      rw [List.filter_cons_of_neg (by simpa using hx), hother,
        Std.HashMap.getD_eq_getD_getElem?, hother, ← Std.HashMap.getD_eq_getD_getElem?]

lemma shards_ne_zero_of_validate (h : forM defs DbDefWithCache.validate = .ok ()) :
    ∀ d ∈ defs, d.shards ≠ 0 := by
  induction defs with
  | nil => exact fun d hd => absurd hd List.not_mem_nil
  | cons d defs ih =>
    rw [List.forM_cons] at h
    obtain ⟨u, hvalid, hrest⟩ := bind_eq_ok.mp h
    intro c hc
    rcases List.mem_cons.mp hc with rfl | hc
    · intro hzero
      rw [DbDefWithCache.validate, if_pos hzero] at hvalid
      cases hvalid
    · exact ih hrest c hc

/-- What a task gives. -/
def openedShard (disk : Disk) (dbDir : String) (task : DbDefWithCache × ℕ) : String × ℕ × Database :=
  (task.1.name, task.2, ⟨shardPath dbDir task.1 task.2, disk.defaultCacheBytes⟩)

/-- What all tasks give. -/
def openedShards (disk : Disk) (dbDir : String) (defs : List DbDefWithCache) :
    List (String × ℕ × Database) :=
  (defs.flatMap fun d => (List.range d.shards).map fun i => (d, i)).map (openedShard disk dbDir)

lemma openedShards_cons (d : DbDefWithCache) : openedShards disk dbDir (d :: defs) =
    ((List.range d.shards).map fun i => openedShard disk dbDir (d, i)) ++
      openedShards disk dbDir defs := by
  rw [openedShards, List.flatMap_cons, List.map_append, List.map_map]
  rfl

lemma filter_openedShards_ne {name : String} (h : ∀ d ∈ defs, d.name ≠ name) :
    (openedShards disk dbDir defs).filter (·.1 = name) = [] := by
  rw [List.filter_eq_nil_iff]
  intro x hx
  obtain ⟨⟨d, i⟩, htask, rfl⟩ := List.mem_map.mp hx
  obtain ⟨c, hc, hmem⟩ := List.mem_flatMap.mp htask
  obtain ⟨j, -, heq⟩ := List.mem_map.mp hmem
  cases heq
  exact fun hname => h d hc (of_decide_eq_true hname)

/-- The tasks of a column are those of its shards. -/
lemma filter_openedShards (hnames : (defs.map (·.name)).Nodup) {d : DbDefWithCache} (hd : d ∈ defs) :
    (openedShards disk dbDir defs).filter (·.1 = d.name) =
      (List.range d.shards).map fun i => openedShard disk dbDir (d, i) := by
  induction defs with
  | nil => exact absurd hd List.not_mem_nil
  | cons c defs ih =>
    rw [List.map_cons, List.nodup_cons] at hnames
    rw [openedShards_cons, List.filter_append]
    rcases List.mem_cons.mp hd with rfl | hd
    · have hlater : ∀ e ∈ defs, e.name ≠ d.name := fun e he heq =>
        hnames.1 (List.mem_map.mpr ⟨e, he, heq⟩)
      rw [filter_openedShards_ne hlater, List.append_nil, List.filter_eq_self]
      intro x hx
      obtain ⟨i, -, rfl⟩ := List.mem_map.mp hx
      simp [openedShard]
    · have hne : c.name ≠ d.name := fun heq => hnames.1 (List.mem_map.mpr ⟨d, hd, heq.symm⟩)
      rw [ih hnames.2 hd, List.filter_eq_nil_iff.mpr, List.nil_append]
      intro x hx
      obtain ⟨i, -, rfl⟩ := List.mem_map.mp hx
      exact fun hname => hne (of_decide_eq_true hname)

/-- The shards of a column come in their order, so that the sort keeps them. -/
lemma sort_shards (shards : ℕ) (f : ℕ → Database) :
    ((List.range shards).map fun i => (i, f i)).mergeSort (fun a b => a.1 ≤ b.1) =
      (List.range shards).map fun i => (i, f i) := by
  apply List.mergeSort_of_pairwise
  rw [List.pairwise_map]
  refine List.pairwise_lt_range.imp ?_
  intro i j hij
  exact decide_eq_true hij.le

lemma laidOut_open {dbs : DbSets} (hnames : (defs.map (·.name)).Nodup)
    (h : buildOwnedMapOpen disk dbDir defs = .ok dbs) :
    LaidOut dbDir defs (fun _ => disk.defaultCacheBytes) dbs := by
  obtain ⟨u, hvalid, hrest⟩ := bind_eq_ok.mp h
  obtain ⟨opened, hopened, heq⟩ := bind_eq_ok.mp hrest
  cases heq
  have htasks : opened = openedShards disk dbDir defs := by
    apply mapM_eq_ok _ hopened
    intro task x hx
    obtain ⟨db, hdb, rfl⟩ := map_eq_ok.mp hx
    obtain ⟨-, -, rfl⟩ := map_eq_ok.mp hdb
    rfl
  rw [htasks]
  intro name
  constructor
  · rintro d hd rfl
    have hne : ((List.range d.shards).map fun i => openedShard disk dbDir (d, i)) ≠ [] := by
      simpa using shards_ne_zero_of_validate hvalid d hd
    rw [dbSetOwnedNew, Std.HashMap.getElem?_map, getElem?_foldl_pushShard,
      filter_openedShards hnames hd, if_neg hne,
      Std.HashMap.getD_empty, List.nil_append, List.map_map, Option.map_some]
    have hsort := sort_shards d.shards fun i => ⟨shardPath dbDir d i, disk.defaultCacheBytes⟩
    exact congrArg some ((congrArg (List.map Prod.snd) hsort).trans (List.map_map ..))
  · intro hnone
    rw [dbSetOwnedNew, Std.HashMap.getElem?_map, getElem?_foldl_pushShard,
      filter_openedShards_ne hnone, if_pos rfl, Std.HashMap.getElem?_empty, Option.map_none]

/-! ### The files -/

lemma repr_inj {i j : ℕ} (h : Nat.toDigits 10 i = Nat.toDigits 10 j) : i = j := by
  rw [← Nat.ofDigitChars_ten_toDigits (n := i), h, Nat.ofDigitChars_ten_toDigits]

/-- Without a `-` in the names of the columns, a file tells its column and its shard. -/
lemma dbFilePath_inj {name name' : String} {i j : Option ℕ} (hname : '-' ∉ name.toList)
    (hname' : '-' ∉ name'.toList) (h : dbFilePath dbDir name i = dbFilePath dbDir name' j) :
    name = name' ∧ i = j := by
  have hdb : '-' ∉ ".db".toList := by decide
  cases i with
  | none =>
    cases j with
    | none =>
      have hfile := congrArg String.toList (DbPath.mk.inj h).2
      rw [String.toList_append, String.toList_append] at hfile
      exact ⟨String.toList_inj.mp (List.append_cancel_right hfile), rfl⟩
    | some j =>
      have hfile := congrArg String.toList (DbPath.mk.inj h).2
      have hmem : '-' ∈ (name' ++ "-" ++ Nat.repr j ++ ".db").toList := by simp
      rw [← hfile, String.toList_append, List.mem_append] at hmem
      exact absurd hmem (not_or.mpr ⟨hname, hdb⟩)
  | some i =>
    cases j with
    | none =>
      have hfile := congrArg String.toList (DbPath.mk.inj h).2
      have hmem : '-' ∈ (name ++ "-" ++ Nat.repr i ++ ".db").toList := by simp
      rw [hfile, String.toList_append, List.mem_append] at hmem
      exact absurd hmem (not_or.mpr ⟨hname', hdb⟩)
    | some j =>
      have hfile := congrArg String.toList (DbPath.mk.inj h).2
      simp only [String.toList_append, List.append_assoc, Nat.toList_repr] at hfile
      have hdigits : '-' ∉ Nat.toDigits 10 i ++ ".db".toList := by
        rw [List.mem_append]
        exact not_or.mpr ⟨Lib.dash_notMem_of_isDigit Lib.isDigit_of_mem_toDigits, hdb⟩
      obtain ⟨heq, -, hrest⟩ := (List.append_cons_inj_of_notMem hname hdigits).mp hfile
      exact ⟨String.toList_inj.mp heq, congrArg some (repr_inj (List.append_cancel_right hrest))⟩

/-! ### The columns with their caches -/

section Assigned

variable {dbDefs : List DbDef} {totalMb : ℕ}

lemma map_idx_computeSharesMb (dbDefs : List DbDef) (totalMb sumW : ℕ) :
    (computeSharesMb dbDefs totalMb sumW).map (·.idx) = List.range dbDefs.length := by
  rw [computeSharesMb, List.map_map, List.range_eq_range', ← List.zipIdx_map_snd]
  apply List.map_congr_left
  rintro ⟨d, idx⟩ -
  dsimp only [Function.comp_apply]
  split <;> rfl

/-- The shares are collected in the order of the columns. -/
lemma map_idx_allocateShares (dbDefs : List DbDef) (totalMb sumW : ℕ) :
    (allocateShares dbDefs totalMb sumW).map (·.idx) = List.range dbDefs.length := by
  have hidx := map_idx_computeSharesMb dbDefs totalMb sumW
  have hlt : (computeSharesMb dbDefs totalMb sumW).Pairwise fun a b => a.idx < b.idx := by
    rw [← List.pairwise_map (f := fun s : Share => s.idx) (R := (· < ·)), hidx]
    exact List.pairwise_lt_range
  dsimp only [allocateShares]
  split
  · rw [distributeRemainderMb_eq hlt, List.map_map, ← hidx]
    exact List.map_congr_left fun s _ => grant_idx _ s
  · exact hidx

/-- Collecting succeeds, and keeps the name and the shards of every share's column. -/
lemma collectAllocationsMb_ok (hshards : ∀ d ∈ dbDefs, 1 ≤ d.shards) {shares : List Share}
    (hidx : ∀ s ∈ shares, s.idx < dbDefs.length) :
    ∃ assigned, collectAllocationsMb shares dbDefs = some assigned ∧
      assigned.map (fun d => some (d.name, d.shards)) =
        shares.map fun s => dbDefs[s.idx]?.map fun d => (d.name, d.shards) := by
  induction shares with
  | nil => exact ⟨[], rfl, rfl⟩
  | cons s shares ih =>
    obtain ⟨assigned, hassigned, hmap⟩ := ih fun t ht => hidx t (List.mem_cons_of_mem s ht)
    have hget := List.getElem?_eq_getElem (hidx s List.mem_cons_self)
    have hpos := hshards _ (List.getElem_mem (hidx s List.mem_cons_self))
    rw [collectAllocationsMb] at hassigned
    rw [collectAllocationsMb, List.mapM_cons, hassigned]
    simp only [hget, Option.bind_eq_bind, Option.bind_some, if_pos hpos]
    exact ⟨_, rfl, by rw [List.map_cons, List.map_cons, hmap, hget, Option.map_some]⟩

/-- Every column is given a cache, and keeps its name and its shards. -/
lemma allocateCacheMb_ok (hshards : ∀ d ∈ dbDefs, 1 ≤ d.shards) (totalMb : ℕ) :
    ∃ assigned, allocateCacheMb dbDefs totalMb = some assigned ∧
      assigned.map (fun d => (d.name, d.shards)) = dbDefs.map fun d => (d.name, d.shards) := by
  have hnone : ∃ assigned, some (dbDefs.map (DbDefWithCache.new · 0)) = some assigned ∧
      assigned.map (fun d => (d.name, d.shards)) = dbDefs.map fun d => (d.name, d.shards) := by
    refine ⟨_, rfl, ?_⟩
    rw [List.map_map]
    rfl
  unfold allocateCacheMb
  split
  · exact hnone
  · dsimp only
    split
    · exact hnone
    · have hidx := map_idx_allocateShares dbDefs totalMb (sumPositiveWeights dbDefs)
      have hlt : ∀ s ∈ allocateShares dbDefs totalMb (sumPositiveWeights dbDefs),
          s.idx < dbDefs.length := by
        intro s hs
        rw [← List.mem_range, ← hidx]
        exact List.mem_map_of_mem hs
      obtain ⟨assigned, hassigned, hmap⟩ := collectAllocationsMb_ok hshards hlt
      refine ⟨assigned, hassigned, List.map_injective_iff.mpr (Option.some_injective _) ?_⟩
      have hget :
          (List.range dbDefs.length).map (fun i => dbDefs[i]?.map fun d => (d.name, d.shards)) =
            dbDefs.map fun d => some (d.name, d.shards) := by
        apply List.ext_getElem
        · simp
        · intro i hi hi'
          rw [List.length_map] at hi'
          simp [List.getElem?_eq_getElem hi']
      rw [List.map_map, List.map_map]
      refine hmap.trans (Eq.trans ?_ hget)
      rw [← hidx, List.map_map]
      rfl

/-- What holds of the name and the shards of every configured column holds of the assigned ones. -/
lemma forall_assigned {assigned : List DbDefWithCache}
    (h : assigned.map (fun d => (d.name, d.shards)) = dbDefs.map fun d => (d.name, d.shards))
    (p : String → ℕ → Prop) :
    (∀ d ∈ assigned, p d.name d.shards) ↔ ∀ d ∈ dbDefs, p d.name d.shards := by
  calc (∀ d ∈ assigned, p d.name d.shards)
    _ ↔ ∀ x ∈ assigned.map fun d => (d.name, d.shards), p x.1 x.2 := by rw [List.forall_mem_map]
    _ ↔ ∀ x ∈ dbDefs.map fun d => (d.name, d.shards), p x.1 x.2 := by rw [h]
    _ ↔ ∀ d ∈ dbDefs, p d.name d.shards := by rw [List.forall_mem_map]

end Assigned

/-! ### Reopening -/

/-- Every position of a column has the same file. -/
def SameFiles (created opened : DbSets) : Prop :=
  ∀ name i, (dbAt opened name i).map (·.path) = (dbAt created name i).map (·.path)

/-- No two positions have the same file. -/
def DistinctFiles (dbs : DbSets) : Prop :=
  ∀ name i db name' i' db', dbAt dbs name i = some db → dbAt dbs name' i' = some db' →
    db.path = db'.path → name = name' ∧ i = i'

/-- Every database has the cache that was assigned to its column. -/
def CachesAssigned (assigned : List DbDefWithCache) (dbs : DbSets) : Prop :=
  ∀ d ∈ assigned, ∀ i db, dbAt dbs d.name i = some db → db.cacheBytes = d.dbCacheInMb * 2 ^ 20

section LaidOut

variable {cache cache' : DbDefWithCache → ℕ} {dbs dbs' : DbSets}

lemma LaidOut.dbAt_of_mem (h : LaidOut dbDir defs cache dbs) {d : DbDefWithCache}
    (hd : d ∈ defs) {i : ℕ} (hi : i < d.shards) :
    dbAt dbs d.name i = some ⟨shardPath dbDir d i, cache d⟩ := by
  rw [dbAt, (h d.name).1 d hd rfl, Option.bind_some, List.getElem?_map, List.getElem?_range hi,
    Option.map_some]

lemma LaidOut.dbAt_cases (h : LaidOut dbDir defs cache dbs) {name : String} {i : ℕ} {db : Database}
    (hdb : dbAt dbs name i = some db) :
    ∃ d ∈ defs, d.name = name ∧ i < d.shards ∧ db = ⟨shardPath dbDir d i, cache d⟩ := by
  by_cases hname : ∃ d ∈ defs, d.name = name
  · obtain ⟨d, hd, rfl⟩ := hname
    by_cases hi : i < d.shards
    · rw [h.dbAt_of_mem hd hi] at hdb
      exact ⟨d, hd, rfl, hi, (Option.some.inj hdb).symm⟩
    · rw [dbAt, (h d.name).1 d hd rfl, Option.bind_some, List.getElem?_map,
        List.getElem?_eq_none (by simpa using Nat.not_lt.mp hi)] at hdb
      cases hdb
  · have hnone : ∀ d ∈ defs, d.name ≠ name := fun d hd heq => hname ⟨d, hd, heq⟩
    rw [dbAt, (h name).2 hnone] at hdb
    cases hdb

/-- The caches have no part in what is at a position. -/
lemma LaidOut.sameFiles (h : LaidOut dbDir defs cache dbs) (h' : LaidOut dbDir defs cache' dbs') :
    SameFiles dbs dbs' := by
  intro name i
  cases hdb : dbAt dbs name i with
  | some db =>
    obtain ⟨d, hd, rfl, hi, rfl⟩ := h.dbAt_cases hdb
    rw [h'.dbAt_of_mem hd hi]
    rfl
  | none =>
    cases hdb' : dbAt dbs' name i with
    | none => rfl
    | some db' =>
      obtain ⟨d, hd, rfl, hi, -⟩ := h'.dbAt_cases hdb'
      rw [h.dbAt_of_mem hd hi] at hdb
      cases hdb

lemma suffix_inj {shards i j : ℕ} (hi : i < shards) (hj : j < shards)
    (h : suffix shards i = suffix shards j) : i = j := by
  unfold suffix at h
  split at h
  · omega
  · exact Option.some.inj h

lemma LaidOut.distinctFiles (h : LaidOut dbDir defs cache dbs) (hnames : (defs.map (·.name)).Nodup)
    (hdash : ∀ d ∈ defs, '-' ∉ d.name.toList) : DistinctFiles dbs := by
  intro name i db name' i' db' hdb hdb' hpath
  obtain ⟨d, hd, rfl, hi, rfl⟩ := h.dbAt_cases hdb
  obtain ⟨d', hd', rfl, hi', rfl⟩ := h.dbAt_cases hdb'
  obtain ⟨hname, hsuffix⟩ := dbFilePath_inj (hdash d hd) (hdash d' hd') hpath
  obtain rfl := List.inj_on_of_nodup_map hnames hd hd' hname
  exact ⟨rfl, suffix_inj hi hi' hsuffix⟩

lemma LaidOut.cachesAssigned_iff (h : LaidOut dbDir defs cache dbs)
    (hnames : (defs.map (·.name)).Nodup) (hshards : ∀ d ∈ defs, 1 ≤ d.shards) :
    CachesAssigned defs dbs ↔ ∀ d ∈ defs, cache d = d.dbCacheInMb * 2 ^ 20 := by
  constructor
  · intro hcaches d hd
    exact hcaches d hd 0 _ (h.dbAt_of_mem hd (hshards d hd))
  · intro hcache d hd i db hdb
    obtain ⟨d', hd', hname, -, rfl⟩ := h.dbAt_cases hdb
    obtain rfl := List.inj_on_of_nodup_map hnames hd' hd hname
    exact hcache d' hd

end LaidOut

section Reopen

variable {disk disk' : Disk} {dbDefs : List DbDef} {totalCacheSizeGb : UInt8}

/-- `init` builds what the columns with their caches say. -/
lemma init_created {assigned : List DbDefWithCache} {created : DbSets}
    (hassigned : allocateCacheMb dbDefs (totalCacheSizeGb.toNat * 1024) = some assigned)
    (h : init disk false dbDir dbDefs totalCacheSizeGb = .ok (true, created)) :
    buildOwnedMapCreate disk dbDir assigned = .ok created := by
  simp only [init, hassigned, Bool.false_eq_true, if_false] at h
  obtain ⟨u, -, hrest⟩ := bind_eq_ok.mp h
  obtain ⟨dbs, hdbs, heq⟩ := bind_eq_ok.mp hrest
  cases heq
  exact hdbs

lemma init_opened {assigned : List DbDefWithCache} {opened : DbSets}
    (hassigned : allocateCacheMb dbDefs (totalCacheSizeGb.toNat * 1024) = some assigned)
    (h : init disk true dbDir dbDefs totalCacheSizeGb = .ok (false, opened)) :
    buildOwnedMapOpen disk dbDir assigned = .ok opened := by
  simp only [init, hassigned, if_true] at h
  obtain ⟨dbs, hdbs, heq⟩ := bind_eq_ok.mp h
  cases heq
  exact hdbs

/-- No call fails. -/
structure Disk.Works (disk : Disk) : Prop where
  createDirAll : ∀ dir, disk.createDirAll dir = .ok ()
  createFile : ∀ path, disk.createFile path = .ok ()
  openFile : ∀ path, disk.openFile path = .ok ()

lemma mapM_ok {α β : Type} {f : α → Except String β} (hf : ∀ a, ∃ b, f a = .ok b) (l : List α) :
    ∃ bs, l.mapM f = .ok bs := by
  induction l with
  | nil => exact ⟨[], rfl⟩
  | cons a l ih =>
    obtain ⟨b, hb⟩ := hf a
    obtain ⟨bs, hbs⟩ := ih
    rw [List.mapM_cons, hb, hbs]
    exact ⟨b :: bs, rfl⟩

lemma validate_ok {d : DbDefWithCache} (h : 1 ≤ d.shards) : d.validate = .ok () := if_neg (by omega)

variable (dbDir) in
lemma buildOwnedMapCreate_ok (hdisk : disk.Works) (hshards : ∀ d ∈ defs, 1 ≤ d.shards) (out : DbSets) :
    ∃ dbs, defs.foldlM (createColumn disk dbDir) out = .ok dbs := by
  induction defs generalizing out with
  | nil => exact ⟨out, rfl⟩
  | cons d defs ih =>
    have hcreate : ∀ i, ∃ db, disk.createDb d.dbCacheInMb (shardPath dbDir d i) = .ok db := by
      intro i
      rw [Disk.createDb, hdisk.createFile]
      exact ⟨_, rfl⟩
    obtain ⟨v, hv⟩ := mapM_ok hcreate (List.range d.shards)
    have hcolumn : createColumn disk dbDir out d = .ok (out.insert d.name v) := by
      rw [createColumn, validate_ok (hshards d List.mem_cons_self), hv]
      rfl
    rw [List.foldlM_cons, hcolumn]
    exact ih (fun c hc => hshards c (List.mem_cons_of_mem d hc)) _

variable (dbDir) in
lemma buildOwnedMapOpen_ok (hdisk : disk.Works) (hshards : ∀ d ∈ defs, 1 ≤ d.shards) :
    ∃ dbs, buildOwnedMapOpen disk dbDir defs = .ok dbs := by
  have hvalid : forM defs DbDefWithCache.validate = .ok () := by
    induction defs with
    | nil => rfl
    | cons d defs ih =>
      rw [List.forM_cons, validate_ok (hshards d List.mem_cons_self)]
      exact ih fun c hc => hshards c (List.mem_cons_of_mem d hc)
  have hopen : ∀ task, ∃ x, openTask disk dbDir task = .ok x := by
    intro task
    rw [openTask, Disk.openDb, hdisk.openFile]
    exact ⟨_, rfl⟩
  obtain ⟨opened, hopened⟩ := mapM_ok hopen
    (defs.flatMap fun d => (List.range d.shards).map fun i => (d, i))
  rw [buildOwnedMapOpen, hvalid]
  dsimp only [bind, Except.bind]
  rw [hopened]
  exact ⟨_, rfl⟩

variable (dbDir totalCacheSizeGb) in
/-- On a disk that works both ways succeed. -/
lemma init_ok (hdisk : disk.Works) (hshards : ∀ d ∈ dbDefs, 1 ≤ d.shards) :
    (∃ created, init disk false dbDir dbDefs totalCacheSizeGb = .ok (true, created)) ∧
      ∃ opened, init disk true dbDir dbDefs totalCacheSizeGb = .ok (false, opened) := by
  obtain ⟨assigned, hassigned, hshape⟩ := allocateCacheMb_ok hshards (totalCacheSizeGb.toNat * 1024)
  have hshards' := (forall_assigned hshape fun _ n => 1 ≤ n).mpr hshards
  obtain ⟨created, hcreated⟩ := buildOwnedMapCreate_ok dbDir hdisk hshards' ∅
  obtain ⟨opened, hopened⟩ := buildOwnedMapOpen_ok dbDir hdisk hshards'
  constructor
  · refine ⟨created, ?_⟩
    simp only [init, hassigned, Bool.false_eq_true, if_false, hdisk.createDirAll]
    exact (congrArg (fun x => x >>= fun dbs => pure (true, dbs)) hcreated :)
  · refine ⟨opened, ?_⟩
    simp only [init, hassigned, if_true, hopened]
    rfl

end Reopen

/-- **Reopening a store.**  A store that is reopened has at every position of a column the file that
was created there, and no two positions share a file.  The caches are those that were assigned,
after the creation, exactly if every column was assigned nothing, and after the reopening, exactly
if every column was assigned the default of the crate; so for both there is no column at all. -/
theorem reopened_iff {disk disk' : Disk} {dbDir : String} {dbDefs : List DbDef}
    {totalCacheSizeGb : UInt8} (hdefault : 0 < disk'.defaultCacheBytes)
    (hnames : (dbDefs.map (·.name)).Nodup) (hdash : ∀ d ∈ dbDefs, '-' ∉ d.name.toList)
    (hshards : ∀ d ∈ dbDefs, 1 ≤ d.shards) {created opened : DbSets}
    (hcreated : init disk false dbDir dbDefs totalCacheSizeGb = .ok (true, created))
    (hopened : init disk' true dbDir dbDefs totalCacheSizeGb = .ok (false, opened)) :
    SameFiles created opened ∧ DistinctFiles created ∧ DistinctFiles opened ∧
      ∃ assigned, allocateCacheMb dbDefs (totalCacheSizeGb.toNat * 1024) = some assigned ∧
        (CachesAssigned assigned created ↔ ∀ d ∈ assigned, d.dbCacheInMb = 0) ∧
        (CachesAssigned assigned opened ↔ ∀ d ∈ assigned, d.dbCacheInMb * 2 ^ 20 =
          disk'.defaultCacheBytes) ∧
        (CachesAssigned assigned created ∧ CachesAssigned assigned opened ↔ dbDefs = []) := by
  obtain ⟨assigned, hassigned, hshape⟩ := allocateCacheMb_ok hshards (totalCacheSizeGb.toNat * 1024)
  have hnames' : (assigned.map (·.name)).Nodup := by
    have hmap := congrArg (List.map Prod.fst) hshape
    simp only [List.map_map] at hmap
    exact (congrArg List.Nodup hmap).mpr hnames
  have hdash' := (forall_assigned hshape fun name _ => '-' ∉ name.toList).mpr hdash
  have hshards' := (forall_assigned hshape fun _ n => 1 ≤ n).mpr hshards
  have hc := laidOut_create hnames' (init_created hassigned hcreated)
  have ho := laidOut_open hnames' (init_opened hassigned hopened)
  have hzero : CachesAssigned assigned created ↔ ∀ d ∈ assigned, d.dbCacheInMb = 0 := by
    rw [hc.cachesAssigned_iff hnames' hshards']
    refine forall₂_congr fun d _ => ?_
    omega
  have hdef : CachesAssigned assigned opened ↔
      ∀ d ∈ assigned, d.dbCacheInMb * 2 ^ 20 = disk'.defaultCacheBytes := by
    rw [ho.cachesAssigned_iff hnames' hshards']
    exact forall₂_congr fun d _ => eq_comm
  refine ⟨hc.sameFiles ho, hc.distinctFiles hnames' hdash', ho.distinctFiles hnames' hdash',
    assigned, hassigned, hzero, hdef, ?_⟩
  rw [hzero, hdef]
  constructor
  · rintro ⟨h0, h1⟩
    cases assigned with
    | nil => exact List.map_eq_nil_iff.mp hshape.symm
    | cons d assigned =>
      have hd0 := h0 d List.mem_cons_self
      have hd1 := h1 d List.mem_cons_self
      omega
  · rintro rfl
    obtain rfl := List.map_eq_nil_iff.mp hshape
    exact ⟨fun d hd => absurd hd List.not_mem_nil, fun d hd => absurd hd List.not_mem_nil⟩

/-- A disk that works, with the default cache of the crate: 1 GiB. -/
def sampleDisk : Disk := ⟨fun _ => .ok (), fun _ => .ok (), fun _ => .ok (), 2 ^ 30⟩

lemma sampleDisk_works : sampleDisk.Works := ⟨fun _ => rfl, fun _ => rfl, fun _ => rfl⟩

/-- A column of one shard and a column of two. -/
def sampleDefs : List DbDef := [⟨"BLOCK_BY_ID", 1, 1, 0⟩, ⟨"TX_BY_ID", 2, 1, 0⟩]

theorem reopened_iff_two_columns :
    ∃ created opened, init sampleDisk false "db" sampleDefs 1 = .ok (true, created) ∧
      init sampleDisk true "db" sampleDefs 1 = .ok (false, opened) ∧ SameFiles created opened ∧
      DistinctFiles created := by
  obtain ⟨⟨created, hcreated⟩, opened, hopened⟩ :=
    init_ok "db" 1 sampleDisk_works (show ∀ d ∈ sampleDefs, 1 ≤ d.shards by decide)
  obtain ⟨hsame, hdistinct, -⟩ :=
    reopened_iff (by decide) (by decide) (by decide) (by decide) hcreated hopened
  exact ⟨created, opened, hcreated, hopened, hsame, hdistinct⟩

/-- One GB for one column: the new database gets 1024 bytes. -/
theorem created_cache_not_assigned :
    let dbDefs : List DbDef := [⟨"BLOCK_BY_ID", 1, 1, 0⟩]
    ∃ created assigned, init sampleDisk false "db" dbDefs 1 = .ok (true, created) ∧
      allocateCacheMb dbDefs 1024 = some assigned ∧
      dbAt created "BLOCK_BY_ID" 0 = some ⟨⟨"db", "BLOCK_BY_ID.db"⟩, 1024⟩ ∧
      ¬ CachesAssigned assigned created := by
  intro dbDefs
  have hassigned : allocateCacheMb dbDefs 1024 = some [⟨"BLOCK_BY_ID", 1, 1, 1024, 0⟩] := by decide
  obtain ⟨⟨created, hcreated⟩, -⟩ :=
    init_ok "db" 1 sampleDisk_works (show ∀ d ∈ dbDefs, 1 ≤ d.shards by decide)
  have hlaid := laidOut_create (by decide) (init_created hassigned hcreated)
  have hdb := hlaid.dbAt_of_mem List.mem_cons_self (show 0 < 1 by decide)
  refine ⟨created, _, hcreated, hassigned, hdb, ?_⟩
  intro hcaches
  exact absurd (hcaches _ List.mem_cons_self 0 _ hdb) (by decide)

end Redbit.Storage
