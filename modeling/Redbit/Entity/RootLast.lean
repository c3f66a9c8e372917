import Redbit.Entity.FieldParser
import Redbit.Storage.TwoPhase

/-!
# The write context of an entity (`entity/context.rs`, `pk/mod.rs`, `column/mod.rs`,
`relationship/context.rs`)

Every column of an entity adds its table writer to the write context, in the order of
`get_field_macros`, and every relationship the write context of its child.  Since a root key is the
last column, its writer comes behind all others, those of the nested contexts included:
`root_commits_last`.
-/

namespace Redbit.Entity

open Redbit.Storage Redbit.Storage.ShardTables

/-- `ItemStruct`: a struct under `#[entity]`, with the structs of its relationships. -/
inductive ItemStruct where
  | mk (fields : List (ColumnDef ItemStruct))

/-- `tx_context_items`: what a column adds to the write context.  Keys have one shard
(`ColumnProps::for_key`), and only a root key has its writer told so. -/
def txContextItems : ColumnDef (List Component) → List Component
  | .key key => [.writer ⟨key.isRoot, 1⟩]
  | .plain _ indexing _ => [.writer ⟨false, indexing.shards⟩]
  | .relationship _ _ _ _ child => [.ctx child]
  | .transient _ => []
  | .transientRel _ => []

mutual

/-- The key of an entity, and the `writer_refs` of its write context. -/
def ItemStruct.writeCtx : ItemStruct → Except String (KeyDef × List Component)
  | .mk fields =>
    match childContexts fields with
    | .error e => .error e
    | .ok fields =>
      match getFieldMacros fields with
      | .error e => .error e
      | .ok (key, columns) => .ok (key, columns.flatMap txContextItems)

/-- The contexts of the children. -/
def childContexts : List (ColumnDef ItemStruct) → Except String (List (ColumnDef (List Component)))
  | [] => .ok []
  | c :: cs =>
    match childContext c, childContexts cs with
    | .ok c, .ok cs => .ok (c :: cs)
    | .error e, _ => .error e
    | _, .error e => .error e

def childContext : ColumnDef ItemStruct → Except String (ColumnDef (List Component))
  | .relationship name writeFrom used multiplicity child =>
    match child.writeCtx with
    | .error e => .error e
    | .ok (_, refs) => .ok (.relationship name writeFrom used multiplicity refs)
  | .key key => .ok (.key key)
  | .plain name indexing used => .ok (.plain name indexing used)
  | .transient name => .ok (.transient name)
  | .transientRel name => .ok (.transientRel name)

end

/-- The writer of a root key is the last one. -/
lemma writeCtx_root {e : ItemStruct} {key : KeyDef} {refs : List Component}
    (h : e.writeCtx = .ok (key, refs)) (hroot : key.isRoot = true) :
    ∃ others, refs = others ++ [rootWriter] := by
  obtain ⟨fields⟩ := e
  unfold ItemStruct.writeCtx at h
  split at h
  · cases h
  · split at h
    · cases h
    · next hmacros =>
      cases h
      obtain ⟨others, rfl⟩ := getFieldMacros_root hmacros hroot
      refine ⟨others.flatMap txContextItems, ?_⟩
      rw [List.flatMap_append, List.flatMap_singleton, txContextItems, hroot]
      rfl

/-- **The root key commits last.**  In every run of a commit of an entity with a root key, the root
key is sent its flush only after the closure and the flushes of all other writers, at any depth,
have succeeded.  When one of them fails, the root key is neither flushed nor committed, and the
call, which waits for nothing but answers to flushes and ends after as many moves as it has
instructions, returns an error. -/
theorem root_commits_last {e : ItemStruct} {key : KeyDef} {refs : List Component}
    (hctx : e.writeCtx = .ok (key, refs)) (hroot : key.isRoot = true) (X : ShardTables)
    (db : ∀ i, X.D i) {acts : List X.Act} {s : X.Sys} (h : X.Reaches (twoPhaseCommit refs) db acts s) :
    ∃ others, refs = others ++ [rootWriter] ∧
      (∀ pre post, s.log = pre ++ .flushSent (rootShard others) :: post →
        .ran (.ok ()) ∈ pre ∧ ∀ j ∈ otherShards others, .answered j (.ok ()) ∈ pre) ∧
      (FailedBefore others s.log →
        .flushSent (rootShard others) ∉ s.log ∧ .committed (rootShard others) ∉ s.log ∧
        (s.writer (rootShard others)).db = db (rootShard others) ∧ s.main ≠ .returned (.ok ()) ∧
        (s.Settled (twoPhaseCommit refs) → ∃ e, s.main = .returned (.error e))) ∧
      acts.countP Act.isMain ≤ (twoPhaseCommit refs).length + 1 := by
  obtain ⟨others, rfl⟩ := writeCtx_root hctx hroot
  refine ⟨others, rfl, fun pre post hlog => h.root_last hlog, fun hfail => ?_, h.moves_le⟩
  obtain ⟨hcommitted, hdb, hnotok, hnotclosure⟩ := h.root_kept hfail
  refine ⟨h.root_unsent hfail, hcommitted, hdb, hnotok, fun hset => ?_⟩
  obtain ⟨r, hr⟩ := hset.returned h hnotclosure
  cases r with
  | ok u => exact absurd hr hnotok
  | error e => exact ⟨e, hr⟩

/-- A block with a header. -/
def headedBlock : ItemStruct := .mk [.key (.pk "height"),
  .relationship "header" none false .oneToOne
    (.mk [.plain "hash" (.index 1) false, .key (.fk "height" .oneToOne)])]

/-- The write context of the header: its key, and the hash. -/
def headerCtx : Component := .ctx [.writer ⟨false, 1⟩, .writer ⟨false, 1⟩]

/-- Plain tables, with one row to be inserted. -/
def plainShards : ShardTables where
  D _ := Redbit.Lib.Table ℕ ℕ
  T _ := Redbit.Lib.Table ℕ ℕ
  K _ := ℕ
  V _ := ℕ
  S _ := Empty
  order _ := inferInstance
  table _ := plainTable ℕ ℕ
  syncBuf _ := [(1, 10)]

/-- The commit of the hash fails. -/
def hashFails : List plainShards.Act :=
  [.closure (.ok ()), .main false none, .main false none, .main false none, .main true none,
    .main false none,
    .thread ([0, 0], 0) Env.fine none, .thread ([0, 0], 0) Env.fine none, .main false none,
    .thread ([0, 1], 0) Env.fine none, .put ([0, 1], 0) (.readyForFlush 1),
    .thread ([0, 1], 0) { Env.fine with commit := fun _ => .error (.storage 5) } none,
    .thread ([0, 1], 0) { Env.fine with commit := fun _ => .error (.storage 5) } none,
      .main false none]

theorem root_commits_last_hashFails :
    headedBlock.writeCtx = .ok (.pk "height", [headerCtx, rootWriter]) ∧
    ∃ s, plainShards.Reaches (twoPhaseCommit [headerCtx, rootWriter])
      (fun _ => Redbit.Lib.Table.empty) hashFails s ∧
      .committed ([0, 0], 0) ∈ s.log ∧ .answered ([0, 1], 0) (.error (.storage 5)) ∈ s.log ∧
      .flushSent ([1], 0) ∉ s.log ∧ .committed ([1], 0) ∉ s.log ∧ s.main ≠ .returned (.ok ()) := by
  have hctx : headedBlock.writeCtx = .ok (.pk "height", [headerCtx, rootWriter]) := rfl
  have hrun : (Redbit.Lib.sched (Sys.step (twoPhaseCommit [headerCtx, rootWriter]))
      (plainShards.start fun _ => Redbit.Lib.Table.empty) hashFails).map Sys.log =
      some [.ran (.ok ()), .flushSent ([0, 0], 0), .flushSent ([0, 1], 0), .committed ([0, 0], 0),
        .answered ([0, 0], 0) (.ok ()), .answered ([0, 1], 0) (.error (.storage 5))] := rfl
  obtain ⟨s, hs, hlog⟩ := Option.map_eq_some_iff.mp hrun
  obtain ⟨others, hrefs, -, hfailed, -⟩ := root_commits_last hctx rfl plainShards _ hs
  obtain rfl : others = [headerCtx] := (List.append_inj_left' hrefs rfl).symm
  have hanswered : .answered ([0, 1], 0) (.error (.storage 5)) ∈ s.log := by simp [hlog]
  have hother : ([0, 1], 0) ∈ otherShards [headerCtx] := by decide
  obtain ⟨hunsent, huncommitted, -, hnotok, -⟩ := hfailed (Or.inr ⟨_, hother, _, Or.inl hanswered⟩)
  exact ⟨hctx, s, hs, by simp [hlog], hanswered, hunsent, huncommitted, hnotok⟩

end Redbit.Entity
