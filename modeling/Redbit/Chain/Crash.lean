import Redbit.Lib.Run
import Redbit.Storage.TwoPhase
import Mathlib.Data.Finset.Lattice.Fold
import Mathlib.Data.Finset.Union
import Mathlib.Data.Fintype.Basic
import Mathlib.Order.Lattice.Nat

/-!
# Crashes between the commits of a call (`chain.rs`, `syncer.rs`)

Every table of a block, and every shard of it, is a database of its own that commits by itself; only
the table of the block's key commits after all others.  A crash leaves each database with what it
has committed.  The sync that starts then goes on behind the last header, which it takes from the
table of the header's key: one of the databases that commit in any order.

`crash_consistent_iff` says when this is harmless: for every history of calls, every call and every
set of databases that had committed when the crash came, nothing is missing below the height the
sync resumes at and below the block's keys, exactly if no block was torn, or the torn blocks lie
above the last header and the table of the header's key had not committed.
-/

set_option linter.unusedSectionVars false

namespace Redbit.Chain

open Redbit.Lib

/-- The databases `Db` of a block, that of its key apart, with keys of type `Key`.  A key has the
height of its block as its first component; the header has the key of its block. -/
structure Layout (Db Key : Type) where
  height : Key → ℕ
  ofHeight : ℕ → Key
  height_ofHeight : ∀ h, height (ofHeight h) = h
  /-- The table of the header's key. -/
  headerKey : Db
  /-- The other columns of the header, each with the databases of its shards. -/
  headerCols : List (List Db)

variable {Db Key : Type} [Fintype Db] [DecidableEq Db] [DecidableEq Key] {L : Layout Db Key}

/-- A block, by the keys of the rows it has in each database.  It has one header. -/
structure BlockRows (L : Layout Db Key) where
  height : ℕ
  rows : Db → Finset Key
  height_rows : ∀ d, ∀ k ∈ rows d, L.height k = height
  rows_headerKey : rows L.headerKey = {L.ofHeight height}
  header_mem : ∀ col ∈ L.headerCols, ∃ d ∈ col, L.ofHeight height ∈ rows d

/-- What the databases have committed: the heights in the table of the block's key, and the keys of
the rows in the others.  `stored` is the block that is stored at a height, or stored in part. -/
structure Dbs (L : Layout Db Key) where
  root : Finset ℕ
  rows : Db → Finset Key
  stored : ℕ → Option (BlockRows L)

/-- Nothing stored. -/
def Dbs.empty : Dbs L := ⟨∅, fun _ => ∅, fun _ => none⟩

/-! ### The calls -/

/-- A transaction over all databases. -/
inductive Phase (L : Layout Db Key) where
  | delete (heights : List ℕ)
  | store (blocks : List (BlockRows L))

/-- The calls of `BlockChainLike` that write. -/
inductive Call (L : Layout Db Key) where
  | storeBlocks (blocks : List (BlockRows L))
  | updateBlocks (blocks : List (BlockRows L))

/-- The transactions of a call. -/
def Call.phases : Call L → List (Phase L)
  | .storeBlocks blocks => [.store blocks]
  | .updateBlocks blocks => [.delete (blocks.map BlockRows.height), .store blocks]

/-- The databases that have committed in a transaction.  The block's key is the last. -/
structure Cut (Db : Type) where
  committed : Finset Db
  root : Bool
  root_last : root = true → ∀ d, d ∈ committed

/-- All have committed. -/
def Cut.full : Cut Db := ⟨Finset.univ, true, fun _ d => Finset.mem_univ d⟩

open Redbit.Storage Redbit.Storage.ShardTables in
/-- What has been committed at some moment of a run of `two_phase_commit`, where `place` says which
shard of the write context a database is. -/
def Cut.ofRun {X : ShardTables} {others : List Component} {db : ∀ i, X.D i} {acts : List X.Act}
    {s : X.Sys} (h : X.Reaches (twoPhaseCommit (others ++ [rootWriter])) db acts s)
    (place : Db → ShardId) (hplace : ∀ d, place d ∈ otherShards others) : Cut Db where
  committed := Finset.univ.filter fun d => s.log.any (isCommit (place d)) = true
  root := s.log.any (isCommit (rootShard others))
  root_last hroot d := by
    refine Finset.mem_filter.mpr ⟨Finset.mem_univ d, any_isCommit.mpr ?_⟩
    exact h.committed_before_root (any_isCommit.mp hroot) (hplace d)

/-- The block of this height that is stored last. -/
def latest (blocks : List (BlockRows L)) (h : ℕ) :
    Option (BlockRows L) := blocks.reverse.find? fun b => b.height = h

/-- The rows that the blocks have in a database. -/
def rowsOf (blocks : List (BlockRows L)) (d : Db) : Finset Key :=
  blocks.foldr (fun b keys => b.rows d ∪ keys) ∅

/-- A row of the block has been committed. -/
def BlockRows.Touched (b : BlockRows L) (cut : Cut Db) : Prop := ∃ d ∈ cut.committed, b.rows d ≠ ∅

instance (b : BlockRows L) (cut : Cut Db) : Decidable (b.Touched cut) := by
  unfold BlockRows.Touched
  infer_instance

/-- The databases after a transaction of which only `cut` has committed.  A delete finds the rows of
a block by its key; a block is stored in part as soon as one of its rows is, and deleted when its
key is. -/
def Phase.commit (cut : Cut Db) (s : Dbs L) : Phase L → Dbs L
  | .delete heights => {
      root := if cut.root then s.root.filter (· ∉ heights) else s.root
      rows := fun d => if d ∈ cut.committed then (s.rows d).filter fun k => L.height k ∉ heights
        else s.rows d
      stored := fun h => if cut.root ∧ h ∈ heights then none else s.stored h }
  | .store blocks => {
      root := if cut.root then s.root ∪ (blocks.map BlockRows.height).toFinset else s.root
      rows := fun d => if d ∈ cut.committed then s.rows d ∪ rowsOf blocks d else s.rows d
      stored := fun h =>
        match latest blocks h with
        | some b => if b.Touched cut then some b else s.stored h
        | none => s.stored h }

/-- Transactions that go through, one after the other. -/
def commitAll (s : Dbs L) (phases : List (Phase L)) : Dbs L :=
  phases.foldl (fun s p => p.commit .full s) s

/-- The databases after a history of calls. -/
def after (history : List (Call L)) : Dbs L := commitAll .empty (history.flatMap Call.phases)

/-! ### The sync after the crash -/

namespace Dbs

/-- `compose` of the header finds a row in every column. -/
def composes (s : Dbs L) (h : ℕ) : Bool := L.headerCols.all fun col => col.any fun d =>
    L.ofHeight h ∈ s.rows d

/-- `get_last_header`: the last key of the header, which is that of the greatest height, and the
header with it. -/
def getLastHeader (s : Dbs L) : Except String (Option ℕ) :=
  if s.rows L.headerKey = ∅ then .ok none
  else
    let h := (s.rows L.headerKey).sup L.height
    if s.composes h then .ok (some h) else .error "NotFound"

/-- `height_to_index_from`. -/
def resume (s : Dbs L) : Except String ℕ :=
  match s.getLastHeader with
  | .error e => .error e
  | .ok header => .ok (header.elim 1 (· + 1))

/-- The block that is stored at this height lacks a row. -/
def MissingAt (s : Dbs L) (h : ℕ) : Prop := ∃ b, s.stored h = some b ∧ ∃ d, ¬ b.rows d ⊆ s.rows d

/-- **Crash consistency**: the sync resumes, at no height above one where a row is missing, and
below the keys of the blocks nothing is missing. -/
structure Consistent (s : Dbs L) : Prop where
  resumes : ∃ r, s.resume = .ok r ∧ ∀ h, s.MissingAt h → r ≤ h
  rooted : ∀ h ∈ s.root, ¬ s.MissingAt h

/-- The height behind the greatest key of a header. -/
def next (s : Dbs L) : ℕ := if s.rows L.headerKey = ∅ then 1 else (s.rows L.headerKey).sup L.height + 1

end Dbs

/-- Some rows of the block have been committed, and others that are new have not. -/
def BlockRows.Torn (b : BlockRows L) (cut : Cut Db) (s : Dbs L) : Prop :=
  b.Touched cut ∧ ∃ d, d ∉ cut.committed ∧ ¬ b.rows d ⊆ s.rows d

/-- When a crash is harmless.  In a store: every torn block lies behind the last header, and the
table of the header's key has not committed.  In a delete: the transaction has gone through, or no
row of a stored block has been deleted. -/
def Phase.Safe (cut : Cut Db) (s : Dbs L) : Phase L → Prop
  | .delete heights => cut.root = true ∨ ∀ h ∈ heights, ∀ b, s.stored h = some b → ¬ b.Touched cut
  | .store blocks => ∀ h b, latest blocks h = some b → b.Torn cut s → L.headerKey ∉ cut.committed ∧
      s.next ≤ h

/-! ### Blocks of a batch -/

lemma latest_some {blocks : List (BlockRows L)} {h : ℕ} {b : BlockRows L}
    (hb : latest blocks h = some b) : b ∈ blocks ∧ b.height = h := by
  refine ⟨List.mem_reverse.mp (List.mem_of_find?_eq_some hb), ?_⟩
  simpa using List.find?_some hb

lemma exists_latest {blocks : List (BlockRows L)} {b : BlockRows L} (hb : b ∈ blocks) :
    ∃ b', latest blocks b.height = some b' := by
  refine Option.isSome_iff_exists.mp (List.find?_isSome.mpr ⟨b, List.mem_reverse.mpr hb, ?_⟩)
  simp

lemma mem_rowsOf {blocks : List (BlockRows L)} {d : Db} {k : Key} :
    k ∈ rowsOf blocks d ↔ ∃ b ∈ blocks, k ∈ b.rows d := by
  induction blocks with
  | nil => simp [rowsOf]
  | cons b blocks ih =>
    have hcons : rowsOf (b :: blocks) d = b.rows d ∪ rowsOf blocks d := rfl
    rw [hcons, Finset.mem_union, ih]
    simp

/-- Every block has the key of its header. -/
lemma BlockRows.ofHeight_mem (b : BlockRows L) : L.ofHeight b.height ∈ b.rows L.headerKey := by
  rw [b.rows_headerKey]
  exact Finset.mem_singleton_self _

lemma BlockRows.touched_of_headerKey (b : BlockRows L) {cut : Cut Db}
    (h : L.headerKey ∈ cut.committed) :
    b.Touched cut := ⟨_, h, Finset.ne_empty_of_mem b.ofHeight_mem⟩

/-! ### What the databases hold between the transactions -/

/-- The block is there with all its rows. -/
def Dbs.Whole (s : Dbs L) (b : BlockRows L) : Prop := ∀ d, b.rows d ⊆ s.rows d

/-- Every stored block is whole, and the heights of the blocks' keys and of the headers' keys are
those of the stored blocks. -/
structure Dbs.Inv (s : Dbs L) : Prop where
  height_eq : ∀ h b, s.stored h = some b → b.height = h
  whole : ∀ h b, s.stored h = some b → s.Whole b
  root_iff : ∀ h, h ∈ s.root ↔ ∃ b, s.stored h = some b
  header : ∀ k ∈ s.rows L.headerKey, ∃ b, s.stored (L.height k) = some b

lemma inv_empty : (Dbs.empty : Dbs L).Inv where
  height_eq h b hb := by cases hb
  whole h b hb := by cases hb
  root_iff h := by simp [Dbs.empty]
  header k hk := by simp [Dbs.empty] at hk

/-- Every header that is listed belongs to a whole block. -/
def Dbs.Readable (s : Dbs L) : Prop :=
  ∀ k ∈ s.rows L.headerKey, ∃ b, b.height = L.height k ∧ s.Whole b

section Read

variable {s : Dbs L}

lemma Dbs.Whole.not_missing (h : ∀ h b, s.stored h = some b → s.Whole b) (x : ℕ) :
    ¬ s.MissingAt x := by
  rintro ⟨b, hb, d, hd⟩
  exact hd (h x b hb d)

lemma Dbs.Inv.readable (h : s.Inv) : s.Readable := by
  intro k hk
  obtain ⟨b, hb⟩ := h.header k hk
  exact ⟨b, h.height_eq _ b hb, h.whole _ b hb⟩

lemma Dbs.lt_next {k : Key} (hk : k ∈ s.rows L.headerKey) : L.height k < s.next := by
  unfold Dbs.next
  rw [if_neg (Finset.ne_empty_of_mem hk)]
  exact Nat.lt_succ_of_le (Finset.le_sup (f := L.height) hk)

/-- **A readable database resumes behind its last header.** -/
lemma Dbs.Readable.resume_eq (h : s.Readable) : s.resume = .ok s.next := by
  unfold Dbs.resume Dbs.getLastHeader Dbs.next
  by_cases hempty : s.rows L.headerKey = ∅
  · rw [if_pos hempty, if_pos hempty]
    rfl
  · obtain ⟨k, hk, hsup⟩ := Finset.exists_mem_eq_sup _
      (Finset.nonempty_iff_ne_empty.mpr hempty) L.height
    obtain ⟨b, hheight, hwhole⟩ := h k hk
    have hcomposes : s.composes ((s.rows L.headerKey).sup L.height) = true := by
      rw [hsup, ← hheight]
      refine List.all_eq_true.mpr fun col hcol => List.any_eq_true.mpr ?_
      obtain ⟨d, hd, hmem⟩ := b.header_mem col hcol
      exact ⟨d, hd, decide_eq_true (hwhole d hmem)⟩
    rw [if_neg hempty, if_neg hempty]
    simp only [hcomposes, if_true]
    rfl

/-- In any case the sync resumes behind every header that is listed. -/
lemma Dbs.lt_of_resume {r : ℕ} (h : s.resume = .ok r) {k : Key} (hk : k ∈ s.rows L.headerKey) :
    L.height k < r := by
  have hne := Finset.ne_empty_of_mem hk
  have hle := Finset.le_sup (f := L.height) hk
  unfold Dbs.resume Dbs.getLastHeader at h
  rw [if_neg hne] at h
  by_cases hcomposes : s.composes ((s.rows L.headerKey).sup L.height) = true
  · simp only [hcomposes, if_true] at h
    cases h
    exact Nat.lt_succ_of_le hle
  · simp only [hcomposes] at h
    cases h

lemma Dbs.Inv.lt_next_of_root (h : s.Inv) {x : ℕ} (hx : x ∈ s.root) : x < s.next := by
  obtain ⟨b, hb⟩ := (h.root_iff x).mp hx
  have hmem := h.whole x b hb L.headerKey b.ofHeight_mem
  have hlt := Dbs.lt_next hmem
  rwa [L.height_ofHeight, h.height_eq x b hb] at hlt

/-- Between the transactions the databases are consistent. -/
lemma Dbs.Inv.consistent (h : s.Inv) : s.Consistent where
  resumes := ⟨s.next, h.readable.resume_eq, fun x hx => absurd hx (Dbs.Whole.not_missing h.whole x)⟩
  rooted x _ := Dbs.Whole.not_missing h.whole x

end Read

/-! ### A store -/

section Store

variable {s : Dbs L} {blocks : List (BlockRows L)} {cut : Cut Db}

lemma rows_store (d : Db) : ((Phase.store blocks).commit cut s).rows d =
    if d ∈ cut.committed then s.rows d ∪ rowsOf blocks d else s.rows d := rfl

lemma rows_subset_store (d : Db) : s.rows d ⊆ ((Phase.store blocks).commit cut s).rows d := by
  rw [rows_store]
  split
  · exact Finset.subset_union_left
  · exact Finset.Subset.refl _

lemma whole_store {b : BlockRows L} (h : s.Whole b) : ((Phase.store blocks).commit cut s).Whole b :=
  fun d => (h d).trans (rows_subset_store d)

/-- What is stored at a height after a store: a block of the batch that is touched, or what was
stored before. -/
lemma stored_store {h : ℕ} {b : BlockRows L}
    (hb : ((Phase.store blocks).commit cut s).stored h = some b) :
    latest blocks h = some b ∧ b.Touched cut ∨ s.stored h = some b := by
  simp only [Phase.commit] at hb
  split at hb
  · split at hb
    · next hl ht =>
      cases hb
      exact Or.inl ⟨hl, ht⟩
    · exact Or.inr hb
  · exact Or.inr hb

lemma stored_store_of_touched {h : ℕ} {b : BlockRows L} (hl : latest blocks h = some b)
    (ht : b.Touched cut) :
    ((Phase.store blocks).commit cut s).stored h = some b := by
  simp only [Phase.commit, hl, if_pos ht]

/-- What was stored at a height is replaced or kept. -/
lemma exists_stored_store {h : ℕ} (hs : ∃ b, s.stored h = some b) :
    ∃ b, ((Phase.store blocks).commit cut s).stored h = some b := by
  simp only [Phase.commit]
  split
  · split
    · exact ⟨_, rfl⟩
    · exact hs
  · exact hs

/-- A touched block of the batch that is not torn is whole. -/
lemma whole_of_not_torn {b : BlockRows L} (hb : b ∈ blocks) (ht : b.Touched cut)
    (htorn : ¬ b.Torn cut s) :
    ((Phase.store blocks).commit cut s).Whole b := by
  intro d k hk
  rw [rows_store]
  by_cases hd : d ∈ cut.committed
  · rw [if_pos hd]
    exact Finset.mem_union_right _ (mem_rowsOf.mpr ⟨b, hb, hk⟩)
  · rw [if_neg hd]
    by_contra hnot
    exact htorn ⟨ht, d, hd, fun hsub => hnot (hsub hk)⟩

/-- A torn block of the batch is missing a row. -/
lemma missing_of_torn {h : ℕ} {b : BlockRows L} (hl : latest blocks h = some b)
    (htorn : b.Torn cut s) :
    ((Phase.store blocks).commit cut s).MissingAt h := by
  obtain ⟨ht, d, hd, hsub⟩ := htorn
  refine ⟨b, stored_store_of_touched hl ht, d, ?_⟩
  rwa [rows_store, if_neg hd]

/-- Only torn blocks miss rows. -/
lemma torn_of_missing (hs : s.Inv) {h : ℕ} (hm : ((Phase.store blocks).commit cut s).MissingAt h) :
    ∃ b, latest blocks h = some b ∧ b.Torn cut s := by
  obtain ⟨b, hb, d, hd⟩ := hm
  rcases stored_store hb with ⟨hl, ht⟩ | hold
  · refine ⟨b, hl, ?_⟩
    by_contra htorn
    exact hd (whole_of_not_torn (latest_some hl).1 ht htorn d)
  · exact absurd (whole_store (hs.whole h b hold) d) hd

/-- After a harmless crash the headers can be read. -/
lemma readable_store (hs : s.Inv) (hsafe : (Phase.store blocks).Safe cut s) :
    ((Phase.store blocks).commit cut s).Readable := by
  intro k hk
  rw [rows_store] at hk
  by_cases hkey : L.headerKey ∈ cut.committed
  · -- no block is torn
    rw [if_pos hkey, Finset.mem_union] at hk
    rcases hk with hk | hk
    · obtain ⟨b, hheight, hwhole⟩ := hs.readable k hk
      exact ⟨b, hheight, whole_store hwhole⟩
    · obtain ⟨b, hb, hkb⟩ := mem_rowsOf.mp hk
      obtain ⟨b', hb'⟩ := exists_latest hb
      refine ⟨b', ?_, whole_of_not_torn (latest_some hb').1 (b'.touched_of_headerKey hkey)
        fun htorn => ?_⟩
      · rw [(latest_some hb').2, b.height_rows _ k hkb]
      · exact (hsafe _ b' hb' htorn).1 hkey
  · rw [if_neg hkey] at hk
    obtain ⟨b, hheight, hwhole⟩ := hs.readable k hk
    exact ⟨b, hheight, whole_store hwhole⟩

lemma next_store_of_notMem (hkey : L.headerKey ∉ cut.committed) :
    ((Phase.store blocks).commit cut s).next = s.next := by
  unfold Dbs.next
  rw [rows_store, if_neg hkey]

/-- **A crash in a store.** -/
lemma store_consistent_iff (hs : s.Inv) :
    ((Phase.store blocks).commit cut s).Consistent ↔ (Phase.store blocks).Safe cut s := by
  constructor
  · rintro ⟨⟨r, hr, hle⟩, -⟩ h b hl htorn
    have hrh := hle h (missing_of_torn hl htorn)
    have hkey : L.headerKey ∉ cut.committed := by
      intro hkey
      -- the header of the torn block is listed, so the sync resumes behind it
      have hmem : L.ofHeight h ∈ ((Phase.store blocks).commit cut s).rows L.headerKey := by
        rw [rows_store, if_pos hkey]
        refine Finset.mem_union_right _ (mem_rowsOf.mpr ⟨b, (latest_some hl).1, ?_⟩)
        rw [← (latest_some hl).2]
        exact b.ofHeight_mem
      have hlt := Dbs.lt_of_resume hr hmem
      rw [L.height_ofHeight] at hlt
      omega
    refine ⟨hkey, ?_⟩
    have hread : ((Phase.store blocks).commit cut s).Readable := by
      intro k hk
      rw [rows_store, if_neg hkey] at hk
      obtain ⟨b', hheight, hwhole⟩ := hs.readable k hk
      exact ⟨b', hheight, whole_store hwhole⟩
    rw [hread.resume_eq, next_store_of_notMem hkey] at hr
    cases hr
    exact hrh
  · intro hsafe
    refine ⟨⟨_, (readable_store hs hsafe).resume_eq, fun h hm => ?_⟩, fun h hroot hm => ?_⟩
    · obtain ⟨b, hl, htorn⟩ := torn_of_missing hs hm
      obtain ⟨hkey, hle⟩ := hsafe h b hl htorn
      rwa [next_store_of_notMem hkey]
    · obtain ⟨b, hl, htorn⟩ := torn_of_missing hs hm
      obtain ⟨hkey, hle⟩ := hsafe h b hl htorn
      have hnotroot : ¬ cut.root = true := fun hr => hkey (cut.root_last hr _)
      simp only [Phase.commit, if_neg hnotroot] at hroot
      have := hs.lt_next_of_root hroot
      omega

/-- A store that goes through. -/
lemma inv_store (hs : s.Inv) : ((Phase.store blocks).commit .full s).Inv := by
  have hall : ∀ d, d ∈ (Cut.full : Cut Db).committed := fun d => Finset.mem_univ d
  have htouched : ∀ b : BlockRows L, b.Touched .full := fun b => b.touched_of_headerKey (hall _)
  have htorn : ∀ b : BlockRows L, ¬ b.Torn .full s := fun b h => by
    obtain ⟨-, d, hd, -⟩ := h
    exact hd (hall d)
  refine ⟨fun h b hb => ?_, fun h b hb => ?_, fun h => ?_, fun k hk => ?_⟩
  · rcases stored_store hb with ⟨hl, -⟩ | hold
    · exact (latest_some hl).2
    · exact hs.height_eq h b hold
  · rcases stored_store hb with ⟨hl, ht⟩ | hold
    · exact whole_of_not_torn (latest_some hl).1 ht (htorn b)
    · exact whole_store (hs.whole h b hold)
  · have hroot : h ∈ ((Phase.store blocks).commit .full s).root ↔ h ∈ s.root ∨
        ∃ b ∈ blocks, b.height = h := by
      simp [Phase.commit, Cut.full]
    rw [hroot]
    constructor
    · rintro (hold | ⟨b, hb, rfl⟩)
      · exact exists_stored_store ((hs.root_iff h).mp hold)
      · obtain ⟨b', hb'⟩ := exists_latest hb
        exact ⟨b', stored_store_of_touched hb' (htouched b')⟩
    · rintro ⟨b, hb⟩
      rcases stored_store hb with ⟨hl, -⟩ | hold
      · exact Or.inr ⟨b, latest_some hl⟩
      · exact Or.inl ((hs.root_iff h).mpr ⟨b, hold⟩)
  · rw [rows_store, if_pos (hall _), Finset.mem_union] at hk
    rcases hk with hk | hk
    · exact exists_stored_store (hs.header k hk)
    · obtain ⟨b, hb, hkb⟩ := mem_rowsOf.mp hk
      obtain ⟨b', hb'⟩ := exists_latest hb
      refine ⟨b', stored_store_of_touched ?_ (htouched b')⟩
      rwa [b.height_rows _ k hkb]

end Store

/-! ### A delete -/

section Delete

variable {s : Dbs L} {heights : List ℕ} {cut : Cut Db}

lemma rows_delete (d : Db) : ((Phase.delete heights).commit cut s).rows d =
    if d ∈ cut.committed then (s.rows d).filter fun k => L.height k ∉ heights else s.rows d := rfl

/-- Blocks of other heights stay as they are. -/
lemma whole_delete {b : BlockRows L} (hb : s.Whole b) (hd : b.Touched cut → b.height ∉ heights) :
    ((Phase.delete heights).commit cut s).Whole b := by
  intro d k hk
  rw [rows_delete]
  by_cases hc : d ∈ cut.committed
  · rw [if_pos hc, Finset.mem_filter]
    refine ⟨hb d hk, ?_⟩
    rw [b.height_rows d k hk]
    exact hd ⟨d, hc, Finset.ne_empty_of_mem hk⟩
  · rw [if_neg hc]
    exact hb d hk

/-- A delete that goes through. -/
lemma inv_delete (hs : s.Inv) (hroot : cut.root = true) :
    ((Phase.delete heights).commit cut s).Inv := by
  have hstored : ∀ h, ((Phase.delete heights).commit cut s).stored h =
      if h ∈ heights then none else s.stored h := by
    intro h
    simp [Phase.commit, hroot]
  refine ⟨fun h b hb => ?_, fun h b hb => ?_, fun h => ?_, fun k hk => ?_⟩
  · rw [hstored] at hb
    split at hb
    · cases hb
    · exact hs.height_eq h b hb
  · rw [hstored] at hb
    split at hb
    · cases hb
    · next hh =>
      refine whole_delete (hs.whole h b hb) fun _ => ?_
      rwa [hs.height_eq h b hb]
  · have hmem : h ∈ ((Phase.delete heights).commit cut s).root ↔ h ∈ s.root ∧ h ∉ heights := by
      simp [Phase.commit, hroot]
    rw [hmem, hstored, hs.root_iff]
    by_cases hh : h ∈ heights <;> simp [hh]
  · rw [rows_delete, if_pos (cut.root_last hroot _), Finset.mem_filter] at hk
    rw [hstored, if_neg hk.2]
    exact hs.header k hk.1

/-- **A crash in a delete.** -/
lemma delete_consistent_iff (hs : s.Inv) :
    ((Phase.delete heights).commit cut s).Consistent ↔ (Phase.delete heights).Safe cut s := by
  by_cases hroot : cut.root = true
  · exact ⟨fun _ => Or.inl hroot, fun _ => (inv_delete hs hroot).consistent⟩
  have hstored : ((Phase.delete heights).commit cut s).stored = s.stored := by
    funext h
    simp [Phase.commit, hroot]
  have hkeys : ((Phase.delete heights).commit cut s).root = s.root := by simp [Phase.commit, hroot]
  constructor
  · intro hcons
    refine Or.inr fun h hh b hb htouched => ?_
    obtain ⟨d, hd, hne⟩ := htouched
    obtain ⟨k, hk⟩ := Finset.nonempty_iff_ne_empty.mpr hne
    refine hcons.rooted h (hkeys ▸ (hs.root_iff h).mpr ⟨b, hb⟩) ⟨b, hstored ▸ hb, d, fun hsub => ?_⟩
    -- the row is deleted and the key of its block is not
    have hmem := hsub hk
    rw [rows_delete, if_pos hd, Finset.mem_filter, b.height_rows d k hk, hs.height_eq h b hb] at hmem
    exact hmem.2 hh
  · intro hsafe
    have hun := hsafe.resolve_left hroot
    have hwhole : ∀ h b, s.stored h = some b → ((Phase.delete heights).commit cut s).Whole b := by
      intro h b hb
      refine whole_delete (hs.whole h b hb) fun ht hh => ?_
      exact hun b.height hh b (by rwa [hs.height_eq h b hb]) ht
    refine Dbs.Inv.consistent ⟨fun h b hb => ?_, fun h b hb => ?_, fun h => ?_, fun k hk => ?_⟩
    · exact hs.height_eq h b (hstored ▸ hb)
    · exact hwhole h b (hstored ▸ hb)
    · rw [hkeys, hstored]
      exact hs.root_iff h
    · rw [hstored]
      refine hs.header k ?_
      rw [rows_delete] at hk
      split at hk
      · exact Finset.filter_subset _ _ hk
      · exact hk

end Delete

/-! ### Every history -/

lemma inv_commit {s : Dbs L} (hs : s.Inv) (p : Phase L) : (p.commit .full s).Inv := by
  cases p with
  | delete heights => exact inv_delete hs rfl
  | store blocks => exact inv_store hs

lemma inv_commitAll {s : Dbs L} (hs : s.Inv) (phases : List (Phase L)) : (commitAll s phases).Inv := by
  induction phases generalizing s with
  | nil => exact hs
  | cons p phases ih => exact ih (inv_commit hs p)

/-- **When a crash is harmless.**  For every history of calls, every transaction of the call in
which the crash comes, and every set of databases that had committed in it. -/
theorem crash_consistent_iff (history : List (Call L)) (call : Call L) {done rest : List (Phase L)}
    {p : Phase L} (h : call.phases = done ++ p :: rest) (cut : Cut Db) :
    (p.commit cut (commitAll (after history) done)).Consistent ↔
      p.Safe cut (commitAll (after history) done) := by
  have hs : (commitAll (after history) done).Inv := inv_commitAll (inv_commitAll inv_empty _) done
  cases p with
  | delete heights => exact delete_consistent_iff hs
  | store blocks => exact store_consistent_iff hs

/-- Blocks with a header of one column, and one table for the rest. -/
def threeTables : Layout (Fin 3) ℕ where
  height := id
  ofHeight := id
  height_ofHeight _ := rfl
  headerKey := 0
  headerCols := [[1]]

/-- A block with a row in each of the tables. -/
def oneRowEach (h : ℕ) : BlockRows threeTables where
  height := h
  rows _ := {h}
  height_rows _ _ hk := Finset.mem_singleton.mp hk
  rows_headerKey := rfl
  header_mem col hcol := by
    rw [threeTables, List.mem_singleton] at hcol
    exact ⟨1, by simp [hcol], Finset.mem_singleton_self h⟩

/-- The tables of the header have committed. -/
def headerCommitted : Cut (Fin 3) := ⟨{0, 1}, false, fun h => Bool.noConfusion h⟩

/-- The sync resumes behind the block whose third row is missing. -/
theorem crash_skips_block :
    ¬ ((Phase.store [oneRowEach 2]).commit headerCommitted
      (after [.storeBlocks [oneRowEach 1]])).Consistent := by
  rintro ⟨⟨r, hr, hle⟩, -⟩
  have hresume : ((Phase.store [oneRowEach 2]).commit headerCommitted
      (after [.storeBlocks [oneRowEach 1]])).resume = .ok 3 := by decide
  rw [hresume] at hr
  cases hr
  have hstored : ((Phase.store [oneRowEach 2]).commit headerCommitted
      (after [.storeBlocks [oneRowEach 1]])).stored 2 = some (oneRowEach 2) := rfl
  exact absurd (hle 2 ⟨_, hstored, 2, by decide⟩) (by decide)

/-- The table of the header's key has not committed, and the sync resumes at the torn block. -/
theorem crash_consistent_headerLast :
    ((Phase.store [oneRowEach 2]).commit ⟨{1, 2}, false, fun h => Bool.noConfusion h⟩
      (commitAll (after [.storeBlocks [oneRowEach 1]]) [])).Consistent := by
  refine (crash_consistent_iff [.storeBlocks [oneRowEach 1]] (.storeBlocks [oneRowEach 2])
    rfl _).mpr ?_
  intro h b hl htorn
  refine ⟨by decide, ?_⟩
  have hb := (latest_some hl).2
  have hmem := (latest_some hl).1
  rw [List.mem_singleton] at hmem
  rw [← hb, hmem]
  decide

end Redbit.Chain
