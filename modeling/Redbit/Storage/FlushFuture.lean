import Mathlib.Data.List.Basic
import Mathlib.Data.List.Nodup
import Mathlib.Data.Nat.Notation

/-!
# The flush futures of a write context (`context.rs`, `table_writer.rs`, `table_writer_api.rs`)

A write context is a list of components, each of them a table writer or the context of a child.  To
commit it, `commit_ctx_async` asks each component for its futures: the shards of an ordinary writer
are sent their flush at once, and the future waits for the answer; the shards of a root key get
their flush only when the future is waited for.  The futures are concatenated and waited for in that
order.

What the call does is here a list of instructions (`twoPhaseCommit`).
-/

namespace Redbit.Storage

/-- What the commit needs to know of a `ShardedTableWriter`. -/
structure TableWriter where
  rootPk : Bool
  shards : ℕ

/-- `WriteComponentRef`: a table writer, or the write context of a child with its `writer_refs`. -/
inductive Component where
  | writer (w : TableWriter)
  | ctx (refs : List Component)

/-- A shard: where its writer is in the tree of contexts, and its number. -/
abbrev ShardId := List ℕ × ℕ

/-- `FlushFuture`. -/
inductive FlushFuture where
  | eager (i : ShardId)
  | lazy (i : ShardId)
  deriving DecidableEq

/-- What the thread that commits does, one after the other: to send what is inserted on flush, to
send a flush (`flush_async`), to send the flush of a lazy future, and to wait for an answer. -/
inductive Instr where
  | write (i : ShardId)
  | flush (i : ShardId)
  | fire (i : ShardId)
  | recv (i : ShardId)
  deriving DecidableEq

/-- The shard of an instruction. -/
def Instr.shard : Instr → ShardId
  | .write i => i
  | .flush i => i
  | .fire i => i
  | .recv i => i

/-- `ShardedTableWriter::flush_async`: what it sends, and its futures. -/
def TableWriter.flushAsync (path : List ℕ) (w : TableWriter) : List Instr × List FlushFuture :=
  let shards := (List.range w.shards).map fun j => (path, j)
  if w.rootPk then (shards.map .write, shards.map .lazy)
  else (shards.map .write ++ shards.map .flush, shards.map .eager)

mutual

/-- `commit_with_ref`. -/
def Component.commitWithRef (path : List ℕ) : Component → List Instr × List FlushFuture
  | .writer w => w.flushAsync path
  | .ctx refs => commitCtxAsync path 0 refs

/-- `commit_ctx_async`, from the component number `n` on. -/
def commitCtxAsync (path : List ℕ) (n : ℕ) : List Component → List Instr × List FlushFuture
  | [] => ([], [])
  | c :: refs =>
    let r := c.commitWithRef (path ++ [n])
    let rest := commitCtxAsync path (n + 1) refs
    (r.1 ++ rest.1, r.2 ++ rest.2)

end

/-- `FlushFuture::wait`. -/
def FlushFuture.wait : FlushFuture → List Instr
  | .eager i => [.recv i]
  | .lazy i => [.fire i, .recv i]

/-- `two_phase_commit`: `commit_ctx_async`, and then the futures in their order. -/
def twoPhaseCommit (refs : List Component) : List Instr :=
  (commitCtxAsync [] 0 refs).1 ++ (commitCtxAsync [] 0 refs).2.flatMap FlushFuture.wait

/-! ### The writers of a context -/

mutual

/-- The writers below a component, with their places. -/
def Component.writers (path : List ℕ) : Component → List (List ℕ × TableWriter)
  | .writer w => [(path, w)]
  | .ctx refs => writersFrom path 0 refs

/-- The writers below the components of a context, from the component number `n` on. -/
def writersFrom (path : List ℕ) (n : ℕ) : List Component → List (List ℕ × TableWriter)
  | [] => []
  | c :: refs => c.writers (path ++ [n]) ++ writersFrom path (n + 1) refs

end

/-- The shards of the writers of a context. -/
def shardsOf (ws : List (List ℕ × TableWriter)) : List ShardId :=
  ws.flatMap fun pw => (List.range pw.2.shards).map fun j => (pw.1, j)

mutual

lemma commitWithRef_eq (path : List ℕ) (c : Component) :
    c.commitWithRef path = ((c.writers path).flatMap fun pw => (pw.2.flushAsync pw.1).1,
      (c.writers path).flatMap fun pw => (pw.2.flushAsync pw.1).2) := by
  cases c with
  | writer w => simp [Component.commitWithRef, Component.writers]
  | ctx refs =>
    simp only [Component.commitWithRef, Component.writers]
    exact commitCtxAsync_eq path 0 refs

/-- The contexts of the children are committed as if their writers were writers of the context
itself. -/
lemma commitCtxAsync_eq (path : List ℕ) (n : ℕ) (refs : List Component) :
    commitCtxAsync path n refs = ((writersFrom path n refs).flatMap fun pw => (pw.2.flushAsync pw.1).1,
      (writersFrom path n refs).flatMap fun pw => (pw.2.flushAsync pw.1).2) := by
  cases refs with
  | nil => rfl
  | cons c refs =>
    simp only [commitCtxAsync, writersFrom, List.flatMap_append]
    rw [commitWithRef_eq (path ++ [n]) c, commitCtxAsync_eq path (n + 1) refs]

end

/-- What comes behind the components of a context has later places. -/
lemma writersFrom_append (path : List ℕ) (n : ℕ) (refs refs' : List Component) :
    writersFrom path n (refs ++ refs') = writersFrom path n refs ++
      writersFrom path (n + refs.length) refs' := by
  induction refs generalizing n with
  | nil => rfl
  | cons c refs ih =>
    simp only [List.cons_append, writersFrom, ih, List.append_assoc, List.length_cons]
    rw [Nat.add_assoc, Nat.add_comm 1]

mutual

lemma writers_isPrefix (path : List ℕ) (c : Component) : ∀ pw ∈ c.writers path, path <+: pw.1 := by
  cases c with
  | writer w => simp [Component.writers]
  | ctx refs =>
    intro pw hpw
    simp only [Component.writers] at hpw
    obtain ⟨m, -, hm⟩ := writersFrom_isPrefix path 0 refs pw hpw
    exact (List.prefix_append path [m]).trans hm

lemma writersFrom_isPrefix (path : List ℕ) (n : ℕ) (refs : List Component) :
    ∀ pw ∈ writersFrom path n refs, ∃ m, n ≤ m ∧ path ++ [m] <+: pw.1 := by
  cases refs with
  | nil => simp [writersFrom]
  | cons c refs =>
    intro pw hpw
    simp only [writersFrom, List.mem_append] at hpw
    rcases hpw with hpw | hpw
    · exact ⟨n, Nat.le_refl n, writers_isPrefix (path ++ [n]) c pw hpw⟩
    · obtain ⟨m, hm, hpre⟩ := writersFrom_isPrefix path (n + 1) refs pw hpw
      exact ⟨m, by omega, hpre⟩

end

/-- Places below different components are different. -/
lemma eq_of_prefix_concat {path p : List ℕ} {m n : ℕ} (hm : path ++ [m] <+: p)
    (hn : path ++ [n] <+: p) : m = n := by
  have hpre := List.prefix_of_prefix_length_le hm hn (by simp)
  have heq := hpre.eq_of_length (by simp)
  simpa using heq

mutual

lemma nodup_writers (path : List ℕ) (c : Component) : ((c.writers path).map Prod.fst).Nodup := by
  cases c with
  | writer w => simp [Component.writers]
  | ctx refs =>
    simp only [Component.writers]
    exact nodup_writersFrom path 0 refs

/-- Every writer has a place of its own. -/
lemma nodup_writersFrom (path : List ℕ) (n : ℕ) (refs : List Component) :
    ((writersFrom path n refs).map Prod.fst).Nodup := by
  cases refs with
  | nil => simp [writersFrom]
  | cons c refs =>
    simp only [writersFrom, List.map_append]
    refine List.Nodup.append (nodup_writers (path ++ [n]) c) (nodup_writersFrom path (n + 1) refs) ?_
    intro p hp hp'
    obtain ⟨pw, hpw, rfl⟩ := List.mem_map.mp hp
    obtain ⟨pw', hpw', heq⟩ := List.mem_map.mp hp'
    obtain ⟨m, hm, hpre⟩ := writersFrom_isPrefix path (n + 1) refs pw' hpw'
    rw [heq] at hpre
    have := eq_of_prefix_concat hpre (writers_isPrefix (path ++ [n]) c pw hpw)
    omega

end

lemma nodup_shardsOf {ws : List (List ℕ × TableWriter)} (h : (ws.map Prod.fst).Nodup) :
    (shardsOf ws).Nodup := by
  induction ws with
  | nil => simp [shardsOf]
  | cons pw ws ih =>
    rw [List.map_cons, List.nodup_cons] at h
    simp only [shardsOf, List.flatMap_cons]
    refine List.Nodup.append ?_ (ih h.2) ?_
    · exact List.nodup_range.map fun a b hab => (Prod.mk.inj hab).2
    · intro i hi hi'
      obtain ⟨j, -, rfl⟩ := List.mem_map.mp hi
      obtain ⟨pw', hpw', hj'⟩ := List.mem_flatMap.mp hi'
      obtain ⟨j', -, heq⟩ := List.mem_map.mp hj'
      refine h.1 (List.mem_map.mpr ⟨pw', hpw', ?_⟩)
      exact (Prod.mk.inj heq).1

/-! ### The instructions of a commit -/

section Order

variable (ws : List (List ℕ × TableWriter))

/-- What is sent before the futures are waited for. -/
def sends : List Instr := ws.flatMap fun pw => (pw.2.flushAsync pw.1).1

/-- All futures. -/
def futures : List FlushFuture := ws.flatMap fun pw => (pw.2.flushAsync pw.1).2

/-- The shards that these instructions send a flush to. -/
def flushes (is : List Instr) : List ShardId := is.filterMap fun
  | .flush i => some i
  | .fire i => some i
  | _ => none

lemma twoPhaseCommit_eq (refs : List Component) :
    twoPhaseCommit refs = sends (writersFrom [] 0 refs) ++
      (futures (writersFrom [] 0 refs)).flatMap FlushFuture.wait := by
  rw [twoPhaseCommit, commitCtxAsync_eq]
  rfl

@[simp] lemma flushes_append (is js : List Instr) : flushes (is ++ js) = flushes is ++ flushes js :=
  List.filterMap_append

/-- The flushes of one writer, whether they are sent at once or later, are those of its shards. -/
lemma flushes_flushAsync (path : List ℕ) (w : TableWriter) :
    flushes (w.flushAsync path).1 ++ flushes ((w.flushAsync path).2.flatMap FlushFuture.wait) =
      (List.range w.shards).map fun j => (path, j) := by
  unfold TableWriter.flushAsync
  by_cases hroot : w.rootPk
  · simp only [hroot, if_true, flushes, FlushFuture.wait, List.filterMap_map, List.flatMap_map,
      Function.comp_def,
      List.filterMap_flatMap, List.filterMap_none, List.nil_append, List.filterMap_cons,
        List.filterMap_nil]
    exact List.map_eq_flatMap.symm
  · simp [hroot, flushes, FlushFuture.wait, List.filterMap_map, List.flatMap_map, Function.comp_def,
      List.filterMap_flatMap]

/-- Every shard is sent one flush. -/
lemma flushes_perm : (flushes (sends ws ++ (futures ws).flatMap FlushFuture.wait)).Perm
    (shardsOf ws) := by
  induction ws with
  | nil => exact List.Perm.refl _
  | cons pw ws ih =>
    simp only [sends, futures, shardsOf, List.flatMap_cons, List.flatMap_append,
      flushes_append] at ih ⊢
    rw [← flushes_flushAsync pw.1 pw.2]
    simp only [List.append_assoc]
    refine List.Perm.append_left _ ?_
    refine List.perm_append_comm_assoc _ _ _ |>.trans (List.Perm.append_left _ ?_)
    exact ih

lemma nodup_flushes (refs : List Component) : (flushes (twoPhaseCommit refs)).Nodup := by
  rw [twoPhaseCommit_eq]
  exact (flushes_perm _).nodup_iff.mpr (nodup_shardsOf (nodup_writersFrom [] 0 refs))

/-- Nothing is waited for before all is sent. -/
lemma recv_notMem_sends (i : ShardId) : .recv i ∉ sends ws := by
  intro h
  obtain ⟨pw, -, hpw⟩ := List.mem_flatMap.mp h
  unfold TableWriter.flushAsync at hpw
  by_cases hroot : pw.2.rootPk
  · simp [hroot] at hpw
  · simp [hroot] at hpw

lemma flush_mem_sends {i : ShardId} (h : .eager i ∈ futures ws) : .flush i ∈ sends ws := by
  obtain ⟨pw, hpw, hi⟩ := List.mem_flatMap.mp h
  refine List.mem_flatMap.mpr ⟨pw, hpw, ?_⟩
  unfold TableWriter.flushAsync at hi ⊢
  by_cases hroot : pw.2.rootPk
  · simp [hroot] at hi
  · simpa [hroot] using hi

/-- A wait is a wait of a future, and a lazy future has been fired before it. -/
lemma wait_cases {futs : List FlushFuture} {done todo : List Instr} {i : ShardId}
    (h : futs.flatMap FlushFuture.wait = done ++ .recv i :: todo) :
    .eager i ∈ futs ∨ .fire i ∈ done := by
  induction futs generalizing done with
  | nil => simp at h
  | cons f futs ih =>
    rw [List.flatMap_cons] at h
    cases f with
    | eager j =>
      rcases List.cons_eq_append_iff.mp h with ⟨rfl, heq⟩ | ⟨done', rfl, heq⟩
      · obtain ⟨hj, -⟩ := List.cons.inj heq
        cases hj
        exact Or.inl (List.mem_cons_self)
      · rcases ih heq with hi | hi
        · exact Or.inl (List.mem_cons_of_mem _ hi)
        · exact Or.inr (List.mem_cons_of_mem _ hi)
    | lazy j =>
      rcases List.cons_eq_append_iff.mp h with ⟨rfl, heq⟩ | ⟨done', rfl, heq⟩
      · cases (List.cons.inj heq).1
      · rcases List.cons_eq_append_iff.mp heq with ⟨rfl, heq⟩ | ⟨done'', rfl, heq⟩
        · obtain ⟨hj, -⟩ := List.cons.inj heq
          cases hj
          exact Or.inr (List.mem_cons_self)
        · rcases ih (List.cons.inj heq).2 with hi | hi
          · exact Or.inl (List.mem_cons_of_mem _ hi)
          · exact Or.inr (List.mem_cons_of_mem _ (List.mem_cons_of_mem _ hi))

/-- **Nothing is waited for that has not been flushed.** -/
lemma flushed_before_recv {refs : List Component} {done todo : List Instr} {i : ShardId}
    (h : twoPhaseCommit refs = done ++ .recv i :: todo) : i ∈ flushes done := by
  rw [twoPhaseCommit_eq] at h
  rcases List.append_eq_append_iff.mp h with ⟨done', rfl, heq⟩ | ⟨rest, hsends, heq⟩
  · rw [flushes_append, List.mem_append]
    rcases wait_cases heq with hi | hi
    · exact Or.inl (List.mem_filterMap.mpr ⟨_, flush_mem_sends _ hi, rfl⟩)
    · exact Or.inr (List.mem_filterMap.mpr ⟨_, hi, rfl⟩)
  · cases rest with
    | nil =>
      rw [List.append_nil] at hsends
      have hwait : (futures (writersFrom [] 0 refs)).flatMap FlushFuture.wait = [] ++
        .recv i :: todo := heq.symm
      rcases wait_cases hwait with hi | hi
      · exact List.mem_filterMap.mpr ⟨_, hsends ▸ flush_mem_sends _ hi, rfl⟩
      · cases hi
    | cons a rest =>
      obtain ⟨rfl, -⟩ := List.cons.inj heq
      exact absurd (hsends ▸ List.mem_append_right done List.mem_cons_self) (recv_notMem_sends _ i)

end Order

/-! ### A root key behind all others -/

section Root

variable (others : List Component)

/-- The place of the root key. -/
def rootShard : ShardId := ([others.length], 0)

/-- The shards of all other writers. -/
def otherShards : List ShardId := shardsOf (writersFrom [] 0 others)

/-- The shards of the root key. -/
def rootWriter : Component := .writer ⟨true, 1⟩

lemma writersFrom_root : writersFrom [] 0 (others ++ [rootWriter]) =
    writersFrom [] 0 others ++ [([others.length], ⟨true, 1⟩)] := by
  rw [writersFrom_append]
  simp [writersFrom, rootWriter, Component.writers]

/-- What comes before the flush of the root key. -/
def beforeRoot : List Instr :=
  sends (writersFrom [] 0 others) ++ [.write (rootShard others)] ++
    (futures (writersFrom [] 0 others)).flatMap FlushFuture.wait

lemma twoPhaseCommit_root : twoPhaseCommit (others ++ [rootWriter]) =
    beforeRoot others ++ [.fire (rootShard others), .recv (rootShard others)] := by
  rw [twoPhaseCommit_eq, writersFrom_root]
  simp [sends, futures, TableWriter.flushAsync, FlushFuture.wait, beforeRoot, rootShard]

lemma rootShard_notMem : rootShard others ∉ otherShards others := by
  have h := nodup_shardsOf (nodup_writersFrom [] 0 (others ++ [rootWriter]))
  rw [writersFrom_root, shardsOf, List.flatMap_append] at h
  intro hmem
  exact (List.disjoint_of_nodup_append h) hmem (by simp [rootShard])

/-- Every other shard is waited for before. -/
lemma recv_mem_beforeRoot {j : ShardId} (h : j ∈ otherShards others) :
    .recv j ∈ beforeRoot others := by
  obtain ⟨pw, hpw, hj⟩ := List.mem_flatMap.mp h
  refine List.mem_append_right _ (List.mem_flatMap.mpr ?_)
  by_cases hroot : pw.2.rootPk
  · refine ⟨.lazy j, List.mem_flatMap.mpr ⟨pw, hpw, ?_⟩, by simp [FlushFuture.wait]⟩
    simpa [TableWriter.flushAsync, hroot] using hj
  · refine ⟨.eager j, List.mem_flatMap.mpr ⟨pw, hpw, ?_⟩, by simp [FlushFuture.wait]⟩
    simpa [TableWriter.flushAsync, hroot] using hj

/-- The root key has been sent its flush only if all that comes before has been done. -/
lemma beforeRoot_isPrefix {done todo : List Instr}
    (h : twoPhaseCommit (others ++ [rootWriter]) = done ++ todo)
    (hroot : rootShard others ∈ flushes done) :
    beforeRoot others ++ [.fire (rootShard others)] <+: done := by
  have hnodup := nodup_flushes (others ++ [rootWriter])
  rw [twoPhaseCommit_root, flushes_append] at hnodup
  have hnot : rootShard others ∉ flushes (beforeRoot others) := by
    intro hmem
    exact (List.disjoint_of_nodup_append hnodup) hmem (by simp [flushes])
  have hdone : done <+: beforeRoot others ++ [.fire (rootShard others), .recv (rootShard others)] := by
    rw [← twoPhaseCommit_root, h]
    exact List.prefix_append _ _
  have hpre : beforeRoot others ++ [.fire (rootShard others)] <+:
      beforeRoot others ++ [.fire (rootShard others), .recv (rootShard others)] :=
    (List.prefix_append_right_inj _).mpr ⟨[.recv (rootShard others)], rfl⟩
  rcases List.prefix_or_prefix_of_prefix hpre hdone with hp | hp
  · exact hp
  · -- a shorter list does not hold the flush of the root
    rcases List.prefix_concat_iff.mp hp with heq | hp
    · exact heq ▸ List.prefix_refl _
    · obtain ⟨rest, hrest⟩ := hp
      refine absurd ?_ hnot
      rw [← hrest, flushes_append]
      exact List.mem_append_left _ hroot

end Root

end Redbit.Storage
