import Redbit.Chain.TasksEnd

/-!
# The tasks of a sync lose no block (`syncer.rs`, `block_stream.rs`)

A sync is calm when its tasks move by themselves: nothing panics, and no shutdown comes.  As long as
the persist task gets no error either, every raw block is on its way to the process task or has been
processed, and every batch that the process task has sent is on its way or has been persisted.  A
task ends only when there is nothing left to receive.  So in the end the store is the one that
`sync` leaves for all blocks that the process task has sent on (`tasks_complete`), and what is
missing is what it still held, below its threshold, when the stream ended.
-/

set_option linter.unusedSectionVars false

namespace Redbit.Chain

open Redbit.Lib

section Complete

variable {S FB H B E : Type} {C : Setup S FB H B E} {raws : List FB} {s₀ : S} {s s' : Tasks S FB H B E}

/-- What the fetch task has not handed on. -/
def FetchTask.left (t : FetchTask FB) : Multiset FB :=
  (t.toFetch : Multiset FB) + t.sizeBatcher.buf + t.outlet.content.flatten

/-- What has not been processed. -/
def Tasks.upstream (s : Tasks S FB H B E) : Multiset FB := s.fetch.left + s.proc.inFlight.flatten

/-- A task that has left its loop has received all that there was. -/
structure Tasks.Calm (C : Setup S FB H B E) (s : Tasks S FB H B E) : Prop where
  shutdown : s.shutdown = false
  fetchLeft : s.fetch.outlet.state ≠ .running → s.fetch.toFetch = [] ∧ s.fetch.sizeBatcher.buf = []
  fetchEnded : s.fetch.outlet.state = .ended → s.fetch.outlet.out = []
  procLeft : s.proc.outlet.state ≠ .running →
    s.fetch.outlet.state = .ended ∧ s.fetch.outlet.queue = [] ∧ s.proc.inFlight = [] ∧
      s.proc.outlet.out = []
  sortLeft : s.sort.outlet.state ≠ .running → s.proc.outlet.state = .ended ∧ s.proc.outlet.queue = [] ∧
    s.persist.taken ++ s.sort.outlet.content = sentBatches C.cfg s.sort.received
  sortEnded : s.sort.outlet.state = .ended → s.sort.outlet.out = []
  persistLeft : s.persist.state.isRunning = false → s.sort.outlet.state = .ended ∧
    s.sort.outlet.queue = []

/-- Of the raw blocks `done` have been processed, in this order. -/
structure Tasks.Processed (C : Setup S FB H B E) (raws done : List FB)
    (s : Tasks S FB H B E) : Prop where
  all : s.upstream + done = raws
  sent : (accumulateAll C.cfg ⟨[], 0⟩ (done.filterMap C.cfg.process)).1.flatten =
    s.sort.received ++ s.proc.outlet.content.flatten
  kept : s.proc.outlet.state = .running →
    (accumulateAll C.cfg ⟨[], 0⟩ (done.filterMap C.cfg.process)).2 = s.proc.buf

/-! ### The moves of the fetch task -/

lemma FetchTask.Moves.left_eq {t t' : FetchTask FB} {rc : Bool} {a : FetchAct}
    (hrc : rc = false → t.outlet.state = .ended) (hown : (TaskAct.fetch a).own = true)
    (hs : t.Moves C false rc a t') : t'.left = t.left := by
  unfold left
  cases hs with
  | @next i raw _ _ _ hraw =>
    have herase := Multiset.coe_eq_coe.mpr (perm_eraseIdx hraw)
    have hpush := congrArg (fun l : List FB => (l : Multiset FB))
      (t.sizeBatcher.push_spec C.cfg.size raw)
    simp only [← Multiset.coe_add, ← Multiset.cons_coe, Multiset.coe_nil] at herase hpush
    rw [Outlet.content_put, List.flatten_append, ← Multiset.coe_add, ← herase]
    calc _ = ((t.toFetch.eraseIdx i : List FB) : Multiset FB) + t.outlet.content.flatten +
          ((t.sizeBatcher.push C.cfg.size raw).1.toList.flatten +
            (t.sizeBatcher.push C.cfg.size raw).2.buf) := by abel
      _ = _ := by
        rw [hpush, ← Multiset.singleton_add, ← Multiset.singleton_add]
        abel
  | streamEnd =>
    obtain ⟨hout, hnil⟩ := t.sizeBatcher.takeAll_spec
    unfold leave
    simp only
    rw [Outlet.content_leave, List.flatten_append, ← Multiset.coe_add, hout, hnil, Multiset.coe_nil]
    abel
  | shutdown _ hsd => cases hsd
  | panic => cases hown
  | send _ ho => rw [(Outlet.content_send ho).1]
  | sendError hstate _ hno => exact absurd (hrc hno) hstate
  | finish _ hout => rw [Outlet.content_close, Outlet.content, hout, List.append_nil]

lemma Tasks.Calm.fetch (h : s.Calm C) {a : FetchAct} {t : FetchTask FB}
    (hown : (TaskAct.fetch a).own = true)
    (hs : s.fetch.Moves C s.shutdown (s.proc.outlet.state ≠ .ended) a t) :
    { s with fetch := t }.Calm C := by
  -- as long as the fetch task can move, no task after it has left its loop
  have hmoves : s.fetch.outlet.state ≠ .ended := by
    cases hs with
    | next hidle | streamEnd hidle | shutdown hidle | panic hidle => exact hidle.ne_ended
    | send _ ho => exact fun hended => Outlet.ne_nil_of_send ho (h.fetchEnded hended)
    | sendError hstate => exact hstate
    | finish hending => exact Outlet.ne_ended_of_ending hending
  have hproc : ¬ s.proc.outlet.state ≠ .running := fun hp => hmoves (h.procLeft hp).1
  suffices hleft : (t.outlet.state ≠ .running → t.toFetch = [] ∧ t.sizeBatcher.buf = []) ∧
      (t.outlet.state = .ended → t.outlet.out = []) from
    ⟨h.shutdown, hleft.1, hleft.2, fun hp => absurd hp hproc, h.sortLeft, h.sortEnded, h.persistLeft⟩
  cases hs with
  | next hidle => exact ⟨fun hr => absurd hidle.1 hr, fun he => (hidle.ne_ended he).elim⟩
  | streamEnd _ _ hnil =>
    exact ⟨fun _ => ⟨hnil, s.fetch.sizeBatcher.takeAll_spec.2⟩, fun he => (by cases he)⟩
  | shutdown _ hsd => exact absurd (h.shutdown.symm.trans hsd) Bool.false_ne_true
  | panic => cases hown
  | send _ ho =>
    have hstate := (Outlet.content_send ho).2
    exact ⟨fun hr => h.fetchLeft (hstate ▸ hr), fun he => absurd (hstate ▸ he) hmoves⟩
  | sendError _ _ hno =>
    refine absurd (fun hp => ?_) hproc
    rw [not_not.mp (of_decide_eq_false hno)] at hp
    cases hp
  | finish hending =>
    exact ⟨fun _ => h.fetchLeft fun hr => (by rw [hending] at hr; cases hr), fun _ => rfl⟩

lemma Tasks.Processed.fetch {done : List FB} (hcalm : s.Calm C) (h : s.Processed C raws done)
    {a : FetchAct} {t : FetchTask FB} (hown : (TaskAct.fetch a).own = true)
    (hs : s.fetch.Moves C s.shutdown (s.proc.outlet.state ≠ .ended) a t) :
    { s with fetch := t }.Processed C raws done := by
  rw [hcalm.shutdown] at hs
  have hleft := hs.left_eq (fun hrc => (hcalm.procLeft fun hp => ?_).1) hown
  · refine ⟨?_, h.sent, h.kept⟩
    unfold Tasks.upstream
    rw [hleft]
    exact h.all
  · rw [hp] at hrc
    cases hrc

/-! ### The moves of the process task -/

lemma Tasks.Calm.proc (h : s.Calm C) {a : ProcAct} {o : Outlet FB} {t : ProcTask FB (Block H B)}
    (hown : (TaskAct.proc a).own = true)
    (hs : s.proc.Moves C s.shutdown (s.sort.outlet.state ≠ .ended) s.fetch.outlet a o t) :
    { s with fetch := { s.fetch with outlet := o }, proc := t }.Calm C := by
  -- the process task moves only in its loop
  have hmoves : s.proc.outlet.state = .running := by
    by_contra hleft
    have hout := (h.procLeft hleft).2.2.2
    cases hs with
    | spawn hidle | next hidle | joinError hidle | streamEnd hidle | shutdown hidle =>
      exact hleft hidle.1
    | send _ ho => exact Outlet.ne_nil_of_send ho hout
    | sendError hsome => exact hsome hout
  have hsort : ¬ s.sort.outlet.state ≠ .running := fun hr => by
    have hended := (h.sortLeft hr).1
    rw [hmoves] at hended
    cases hended
  suffices hleft : (o.state = s.fetch.outlet.state ∧ o.out = s.fetch.outlet.out) ∧
    (t.outlet.state ≠ .running →
      o.state = .ended ∧ o.queue = [] ∧ t.inFlight = [] ∧ t.outlet.out = []) from
    ⟨h.shutdown, fun hr => h.fetchLeft (hleft.1.1 ▸ hr), fun he =>
      hleft.1.2.trans (h.fetchEnded (hleft.1.1 ▸ he)), hleft.2,
      fun hr => absurd hr hsort, h.sortEnded, h.persistLeft⟩
  cases hs with
  | spawn _ _ _ htake => exact ⟨(Outlet.content_take htake).2, fun hr => absurd hmoves hr⟩
  | next => exact ⟨⟨rfl, rfl⟩, fun hr => absurd hmoves hr⟩
  | joinError => cases hown
  | streamEnd _ _ hended hqueue => exact ⟨⟨rfl, rfl⟩, fun _ => ⟨hended, hqueue, rfl, rfl⟩⟩
  | shutdown _ hsd => exact absurd (h.shutdown.symm.trans hsd) Bool.false_ne_true
  | send _ ho => exact ⟨⟨rfl, rfl⟩, fun hr => absurd ((Outlet.content_send ho).2.trans hmoves) hr⟩
  | sendError => exact ⟨⟨rfl, rfl⟩, fun hr => absurd hmoves hr⟩

lemma Tasks.Processed.proc {done : List FB} (hcalm : s.Calm C) (h : s.Processed C raws done)
    {a : ProcAct} {o : Outlet FB} {t : ProcTask FB (Block H B)} (hown : (TaskAct.proc a).own = true)
    (hs : s.proc.Moves C s.shutdown (s.sort.outlet.state ≠ .ended) s.fetch.outlet a o t) :
    ∃ done', { s with fetch := { s.fetch with outlet := o }, proc := t }.Processed C raws done' := by
  have hall := h.all
  unfold Tasks.upstream FetchTask.left at hall
  cases hs with
  | spawn _ _ _ htake =>
    refine ⟨done, ?_, h.sent, h.kept⟩
    -- the batch leaves the channel for the jobs
    rw [(Outlet.content_take htake).1, List.flatten_cons, ← Multiset.coe_add] at hall
    rw [← hall]
    unfold Tasks.upstream FetchTask.left
    simp only [List.flatten_append, List.flatten_cons, List.flatten_nil, List.append_nil,
      ← Multiset.coe_add]
    abel
  | @next i batch hidle _ hbatch =>
    have happ := accumulateAll_append C.cfg ⟨[], 0⟩ (done.filterMap C.cfg.process)
      (batch.filterMap C.cfg.process)
    rw [h.kept hidle.1, ← List.filterMap_append] at happ
    refine ⟨done ++ batch, ?_, ?_, fun _ => ?_⟩
    · -- and then the jobs for what has been processed
      have hflat := Multiset.coe_eq_coe.mpr (perm_eraseIdx hbatch).flatten
      rw [List.flatten_cons, ← Multiset.coe_add] at hflat
      rw [← hflat] at hall
      rw [← hall]
      unfold Tasks.upstream FetchTask.left
      simp only [← Multiset.coe_add]
      abel
    · rw [happ, Outlet.content_put, List.flatten_append, List.flatten_append, h.sent,
        List.append_assoc]
    · rw [happ]
  | joinError => cases hown
  | streamEnd hidle _ _ _ hjobs =>
    refine ⟨done, ?_, ?_, fun hr => (by cases hr)⟩
    · rw [← h.all]
      unfold Tasks.upstream ProcTask.stop
      rw [hjobs]
    · rw [h.sent]
      unfold ProcTask.stop
      rw [Outlet.content_close, Outlet.content, hidle.2, List.append_nil]
  | shutdown _ hsd => exact absurd (hcalm.shutdown.symm.trans hsd) Bool.false_ne_true
  | send _ ho =>
    obtain ⟨hcontent, hstate⟩ := Outlet.content_send ho
    refine ⟨done, h.all, ?_, fun hr => h.kept (hstate ▸ hr)⟩
    rw [hcontent]
    exact h.sent
  | sendError hout hno =>
    -- the sort task ends after the process task
    have hended := not_not.mp (of_decide_eq_false hno)
    have hproc := (hcalm.sortLeft fun hr => by rw [hended] at hr; cases hr).1
    exact absurd (hcalm.procLeft fun hr => by rw [hproc] at hr; cases hr).2.2.2 hout

/-! ### The moves of the sort task -/

lemma Tasks.Calm.sort (h : s.Calm C) (hsends : s.sort.Sends C s.persist.taken) {a : SortAct}
    {o : Outlet (Block H B)} {t : SortTask (Block H B)}
    (hs : s.sort.Moves C s.shutdown s.persist.state.isRunning s.proc.outlet a o t) :
    { s with proc := { s.proc with outlet := o }, sort := t }.Calm C := by
  -- as long as the sort task can move, the persist task is in its loop
  have hmoves : s.sort.outlet.state ≠ .ended := by
    cases hs with
    | recv hidle | recvEnd hidle | shutdown hidle => exact hidle.ne_ended
    | send _ ho => exact fun hended => Outlet.ne_nil_of_send ho (h.sortEnded hended)
    | sendError hstate => exact hstate
    | finish hending => exact Outlet.ne_ended_of_ending hending
  have hpersist : s.persist.state.isRunning ≠ false := fun hno => hmoves (h.persistLeft hno).1
  cases hs with
  | recv hidle htake =>
    obtain ⟨-, hstate, hout⟩ := Outlet.content_take htake
    refine ⟨h.shutdown, h.fetchLeft, h.fetchEnded, fun hr => ?_, fun hr => absurd hidle.1 hr,
      fun he => absurd he hmoves, fun hno => absurd hno hpersist⟩
    obtain ⟨hfetch, hqueue, hjobs, hnil⟩ := h.procLeft (hstate ▸ hr)
    exact ⟨hfetch, hqueue, hjobs, hout.trans hnil⟩
  | recvEnd hidle hproc hqueue =>
    refine ⟨h.shutdown, h.fetchLeft, h.fetchEnded, h.procLeft, fun _ => ⟨hproc, hqueue, ?_⟩,
      fun he => (by cases he), fun hno => absurd hno hpersist⟩
    show s.persist.taken ++ (s.sort.outlet.leave s.sort.batcher.flush.1.toList).content =
      sentBatches C.cfg s.sort.received
    rw [Outlet.content_leave, sentBatches_eq, hsends.running hidle.1, List.append_assoc]
  | shutdown _ hsd => exact absurd (h.shutdown.symm.trans hsd) Bool.false_ne_true
  | send _ ho =>
    obtain ⟨hcontent, hstate⟩ := Outlet.content_send ho
    refine ⟨h.shutdown, h.fetchLeft, h.fetchEnded, h.procLeft, fun hr => ?_, fun he =>
      absurd (hstate ▸ he) hmoves, fun hno => absurd hno hpersist⟩
    obtain ⟨hproc, hqueue, hall⟩ := h.sortLeft (hstate ▸ hr)
    exact ⟨hproc, hqueue, by rw [hcontent]; exact hall⟩
  | sendError _ _ hno => exact absurd hno hpersist
  | finish hending hout =>
    refine ⟨h.shutdown, h.fetchLeft, h.fetchEnded, h.procLeft, fun _ => ?_, fun _ => rfl, fun hno =>
      absurd hno hpersist⟩
    obtain ⟨hproc, hqueue, hall⟩ := h.sortLeft fun hr => by rw [hending] at hr; cases hr
    refine ⟨hproc, hqueue, ?_⟩
    rw [Outlet.content_close, ← hall, Outlet.content, hout, List.append_nil]

lemma Tasks.Processed.sort {done : List FB} (h : s.Processed C raws done) {a : SortAct}
    {o : Outlet (Block H B)} {t : SortTask (Block H B)}
    (hs : s.sort.Moves C s.shutdown s.persist.state.isRunning s.proc.outlet a o t) :
    { s with proc := { s.proc with outlet := o }, sort := t }.Processed C raws done := by
  have hstate := hs.state_eq
  suffices hsent : t.received ++ o.content.flatten = s.sort.received ++
    s.proc.outlet.content.flatten from
    ⟨h.all, h.sent.trans hsent.symm, fun hr => h.kept (hstate ▸ hr)⟩
  cases hs with
  | recv _ htake => rw [(Outlet.content_take htake).1, List.flatten_cons, ← List.append_assoc]
  | recvEnd | shutdown | send | sendError | finish => rfl

/-! ### The moves of the persist task -/

/-- A turn that gets no error leaves the task in its loop. -/
lemma PersistTask.turn_isRunning {t : PersistTask S H B E} (hr : t.state.isRunning = true)
    (batch : List (Block H B)) (hend : (t.turn C batch).state.toEnd = .disconnected) :
    (t.turn C batch).state.isRunning = true := by
  unfold PersistTask.turn at hend ⊢
  split at hend
  · cases hend
  · split at hend
    · cases hend
    · exact hr

/-- The persist task has got no error before its last turn. -/
lemma PersistTask.Moves.toEnd_eq {sd : Bool} {q q' : Outlet (Block H B)}
    {t t' : PersistTask S H B E} {a : PersistAct} (hs : t.Moves C sd q a q' t') :
    t.state.toEnd = .disconnected := by
  cases hs with
  | recv hr | recvEnd hr | shutdown hr =>
    rw [PersistState.eq_running hr]
    rfl

lemma Tasks.Calm.persist (h : s.Calm C) (hruns : s.persist.Runs C s₀) {a : PersistAct}
    {o : Outlet (Block H B)} {t : PersistTask S H B E}
    (hs : s.persist.Moves C s.shutdown s.sort.outlet a o t) (hend : t.state.toEnd = .disconnected) :
    { s with sort := { s.sort with outlet := o }, persist := t }.Calm C := by
  cases hs with
  | @recv batch _ hr _ htake =>
    obtain ⟨hcontent, hstate, hout⟩ := Outlet.content_take htake
    refine ⟨h.shutdown, h.fetchLeft, h.fetchEnded, h.procLeft, fun hleft => ?_, fun he =>
      ?_, fun hno => ?_⟩
    · obtain ⟨hproc, hqueue, hall⟩ := h.sortLeft (hstate ▸ hleft)
      refine ⟨hproc, hqueue, ?_⟩
      rw [← hall, (hruns.turn hr batch).2, hcontent, List.append_assoc, List.singleton_append]
    · exact hout.trans (h.sortEnded (hstate ▸ he))
    · rw [PersistTask.turn_isRunning hr batch hend] at hno
      cases hno
  | recvEnd _ _ hended hqueue =>
    exact ⟨h.shutdown, h.fetchLeft, h.fetchEnded, h.procLeft, h.sortLeft, h.sortEnded, fun _ =>
      ⟨hended, hqueue⟩⟩
  | shutdown _ hsd => exact absurd (h.shutdown.symm.trans hsd) Bool.false_ne_true

lemma Tasks.Processed.persist {done : List FB} (h : s.Processed C raws done) (o : Outlet (Block H B))
    (t : PersistTask S H B E) :
    { s with sort := { s.sort with outlet := o }, persist := t }.Processed C raws done :=
  ⟨h.all, h.sent, h.kept⟩

/-! ### Every calm schedule -/

/-- What holds of the tasks in every state that they reach by themselves. -/
structure Tasks.Whole (C : Setup S FB H B E) (raws : List FB) (s₀ : S)
    (s : Tasks S FB H B E) : Prop where
  inv : s.Inv C (· ∈ raws) s₀
  calm : s.persist.state.toEnd = .disconnected → s.Calm C ∧ ∃ done, s.Processed C raws done

lemma whole_start (raws : List FB) (s₀ : S) : (Tasks.start C raws s₀).Whole C raws s₀ where
  inv := inv_start raws
  calm _ := by
    refine ⟨⟨rfl, fun hr => absurd rfl hr, fun he => (by cases he), fun hr =>
      absurd rfl hr, fun hr => absurd rfl hr,
      fun he => (by cases he), fun hno => (by cases hno)⟩, [], ?_, rfl, fun _ => rfl⟩
    simp [Tasks.upstream, FetchTask.left, Tasks.start, SizeBatcher.fromKb, SizeBatcher.new,
      Outlet.content_start]

/-- Every move of a task by itself keeps it. -/
lemma Tasks.Whole.step {a : TaskAct} (hown : a.own = true) (h : s.Whole C raws s₀)
    (hs : taskStep C s a = some s') : s'.Whole C raws s₀ := by
  refine ⟨h.inv.step hs, fun hend => ?_⟩
  cases taskStep_eq_some.mp hs with
  | fetch ht =>
    obtain ⟨hcalm, done, hdone⟩ := h.calm hend
    exact ⟨hcalm.fetch hown ht, done, hdone.fetch hcalm hown ht⟩
  | proc ht =>
    obtain ⟨hcalm, done, hdone⟩ := h.calm hend
    exact ⟨hcalm.proc hown ht, hdone.proc hcalm hown ht⟩
  | sort ht =>
    obtain ⟨hcalm, done, hdone⟩ := h.calm hend
    exact ⟨hcalm.sort h.inv.sends ht, done, hdone.sort ht⟩
  | @persist _ o t ht =>
    obtain ⟨hcalm, done, hdone⟩ := h.calm ht.toEnd_eq
    exact ⟨hcalm.persist h.inv.runs ht hend, done, hdone.persist o t⟩
  | signal | abortFetch | abortProc | abortSort => cases hown

/-- In the end everything has been handed on. -/
lemma Tasks.Whole.done (h : s.Whole C raws s₀) (hd : s.Done)
    (hend : s.persist.state.toEnd = .disconnected) : ∃ done : List FB, done.Perm raws ∧
      s.sort.received = (accumulateAll C.cfg ⟨[], 0⟩ (done.filterMap C.cfg.process)).1.flatten ∧
      s.persist.taken = sentBatches C.cfg s.sort.received := by
  obtain ⟨hcalm, done, hall, hsent, -⟩ := h.calm hend
  obtain ⟨hto, hbuf⟩ := hcalm.fetchLeft fun hr => by rw [hd.fetch] at hr; cases hr
  obtain ⟨-, hqueue, hjobs, hout⟩ := hcalm.procLeft fun hr => by rw [hd.proc] at hr; cases hr
  obtain ⟨-, hpqueue, htaken⟩ := hcalm.sortLeft fun hr => by rw [hd.sort] at hr; cases hr
  obtain ⟨-, hsqueue⟩ := hcalm.persistLeft hd.persist
  refine ⟨done, ?_, ?_, ?_⟩
  · rw [← Multiset.coe_eq_coe, ← hall]
    unfold Tasks.upstream FetchTask.left Outlet.content
    rw [hto, hbuf, hqueue, hcalm.fetchEnded hd.fetch, hjobs]
    simp
  · rw [hsent, Outlet.content, hpqueue, hout]
    simp
  · rw [← htaken, Outlet.content, hsqueue, hcalm.sortEnded hd.sort]
    simp

end Complete

namespace BlockChainLike

variable {S FB H B E : Type} {chain : BlockChainLike S H B E} {indexerConf : IndexerSettings}
  {node : SyncConfig FB (Block H B)} {s : S} {lastHeader : Option (Header H)} {round : Round H B E}
    {plan : SyncPlan}
  {fetchingPar indexingPar : Parallelism} {raws : List FB} {acts : List TaskAct} {σ : Tasks S FB H B E}

/-- What the persist task has persisted of all that it gets. -/
lemma sync_of_whole (hplan : chain.plannedSync indexerConf s lastHeader round = some plan)
    (hwhole : σ.Whole (chain.setup indexerConf node fetchingPar indexingPar round.blockProvider
      plan) raws s)
    (hdone : σ.Done) (hend : σ.persist.state.toEnd = .disconnected) :
    ∃ done : List FB, done.Perm raws ∧
      chain.sync indexerConf node s lastHeader { round with
        arrivals := (accumulateAll (plan.config indexerConf node) ⟨[], 0⟩
          (done.filterMap node.process)).1.flatten,
        shutdown := none } = (σ.persist.store, .persisted .disconnected) := by
  obtain ⟨done, hperm, hreceived, htaken⟩ := hwhole.done hdone hend
  have hstore := hwhole.inv.runs.store
  rw [htaken, hreceived, hend] at hstore
  refine ⟨done, hperm, ?_⟩
  rw [sync_of_planned fetchingPar indexingPar hplan]
  simp only [Round.taken]
  exact congrArg (fun r : S × PersistEnd E => (r.1, SyncEnd.persisted r.2)) hstore

/-- **The tasks lose no block.**  When the tasks have ended by themselves, and the persist task has
got no error, the store is the one that `sync` leaves for all blocks, in the order in which they
were processed, but for those that the process task kept back at the end. -/
theorem tasks_complete (hplan : chain.plannedSync indexerConf s lastHeader round = some plan)
    (hrun : sched (taskStep (chain.setup indexerConf node fetchingPar indexingPar
      round.blockProvider plan))
      (Tasks.start (chain.setup indexerConf node fetchingPar indexingPar round.blockProvider plan)
        raws s) acts = some σ)
    (hown : ∀ a ∈ acts, a.own = true) (hdone : σ.Done) (hend : σ.persist.state.toEnd = .disconnected) :
    ∃ done : List FB, done.Perm raws ∧
      chain.sync indexerConf node s lastHeader { round with
        arrivals := (accumulateAll (plan.config indexerConf node) ⟨[], 0⟩
          (done.filterMap node.process)).1.flatten,
        shutdown := none } = (σ.persist.store, .persisted .disconnected) :=
  sync_of_whole hplan (sched_inv_of (fun _ _ _ hown h hs => Tasks.Whole.step hown h hs) hown
    (whole_start raws s) hrun) hdone hend

/-- **The tasks catch up.**  In a complete sync, where the process task keeps nothing back, the
tasks have stored the chain of the node when they have ended by themselves. -/
theorem tasks_catch_up [DecidableEq H] {Known Proper : Block H B → Prop}
    {Stores : S → List (Block H B) → Prop} {blocks : List (Block H B)}
    (hlaw : chain.Lawful Proper Stores) (hhash : HashesDiffer Known)
    (h : Holds Known Stores s blocks) (hplan : chain.plannedSync indexerConf s none round =
      some plan) (hfair : Fair Known Proper indexerConf blocks
      { round with arrivals := raws.filterMap node.process })
    (hcomplete : Complete indexerConf blocks
      { round with arrivals := raws.filterMap node.process, shutdown := none })
    (hsize : indexerConf.minEntityBatchSize < 2 ^ 64)
    (hcuts : ∀ done : List FB, done.Perm raws →
      CutsEven (plan.config indexerConf node) (done.filterMap node.process))
    (hrun : sched (taskStep (chain.setup indexerConf node fetchingPar indexingPar
      round.blockProvider plan))
      (Tasks.start (chain.setup indexerConf node fetchingPar indexingPar round.blockProvider plan)
        raws s) acts = some σ)
    (hown : ∀ a ∈ acts, a.own = true) (hdone : σ.Done) :
    Reads chain σ.persist.store round.nodeChain := by
  have hwhole := sched_inv_of (fun _ _ _ hown h hs => Tasks.Whole.step hown h hs) hown
    (whole_start raws s) hrun
  obtain ⟨-, -, -, herror⟩ := follows_of_inv hlaw hhash h hplan hfair hwhole.inv
  -- the persist task gets no error
  have hzero : σ.persist.state.toEnd ≠ .divideByZero := fun hz =>
    persistTask_ne_divideByZero hcomplete.durable _ _ _ _ _
      ((congrArg Prod.snd hwhole.inv.runs.store).trans hz)
  obtain ⟨done, hperm, hsync⟩ := sync_of_whole hplan hwhole hdone (hcomplete.disconnected herror hzero)
  -- and all blocks reach it
  have hsent : (accumulateAll (plan.config indexerConf node) ⟨[], 0⟩
    (done.filterMap node.process)).1.flatten =
      done.filterMap node.process := by
    have hcontent := @accumulateAll_content _ _ (plan.config indexerConf node) ⟨[], 0⟩
      (done.filterMap node.process)
    rw [(residue_eq_nil_iff hsize _).mpr (hcuts done hperm), List.append_nil] at hcontent
    exact hcontent
  have hmem : ∀ b, b ∈ done.filterMap node.process ↔ b ∈ raws.filterMap node.process :=
    fun b => (hperm.filterMap node.process).mem_iff
  rw [hsent] at hsync
  obtain ⟨blocks', hblocks', -, -, hcaught⟩ :=
    sync_node node hlaw hhash h (hfair.subset (fun b hb => (hmem b).mp hb) none)
  rw [hsync] at hblocks'
  obtain rfl := hcaught ⟨hcomplete.tip, fun b hb => (hmem b).mpr (hcomplete.all b hb),
    hcomplete.provider, rfl, hcomplete.durable, hcomplete.longer⟩
  exact hlaw.getBlock hblocks'.stores

end BlockChainLike

/-! ### Two blocks, the second one processed first -/

section Examples

open BlockChainLike

/-- The tasks move by themselves. -/
def calmSchedule : List TaskAct :=
  [.fetch (.next 0), .fetch .send, .proc .spawn, .fetch (.next 0), .fetch .send, .proc .spawn,
    .proc (.next 1), .proc .send,
    .sort .recv, .proc (.next 0), .proc .send, .sort .recv, .sort .send, .persist .recv,
      .sort .send, .persist .recv,
    .fetch .streamEnd, .fetch .finish, .proc .streamEnd, .sort .recvEnd, .sort .finish,
      .persist .recvEnd]

lemma calmSchedule_runs : ∃ σ, sched (taskStep firstSetup)
    (Tasks.start firstSetup branch Table.empty) calmSchedule = some σ ∧
    σ.Done ∧ σ.persist.state.toEnd = .disconnected := by
  have hmap : (sched (taskStep firstSetup) (Tasks.start firstSetup branch Table.empty)
      calmSchedule).map (fun σ =>
      (σ.fetch.outlet.state, σ.proc.outlet.state, σ.sort.outlet.state, σ.persist.state.isRunning,
        σ.persist.state.toEnd)) =
        some (.ended, .ended, .ended, false, .disconnected) := by
    decide +kernel
  obtain ⟨σ, hσ, hends⟩ := Option.map_eq_some_iff.mp hmap
  simp only [Prod.mk.injEq] at hends
  obtain ⟨hfetch, hproc, hsort, hpersist, hend⟩ := hends
  exact ⟨σ, hσ, ⟨hfetch, hproc, hsort, hpersist⟩, hend⟩

theorem tasks_complete_branch : ∃ σ,
    sched (taskStep firstSetup) (Tasks.start firstSetup branch Table.empty) calmSchedule = some σ ∧
    ∃ done : List (Block ℕ Unit), done.Perm branch ∧
      smallChain.sync twoHeights heavyNode Table.empty none { firstRound with
        arrivals := (accumulateAll (firstPlan.config twoHeights heavyNode) ⟨[], 0⟩
          (done.filterMap heavyNode.process)).1.flatten,
        shutdown := none } = (σ.persist.store, .persisted .disconnected) := by
  obtain ⟨σ, hσ, hdone, hend⟩ := calmSchedule_runs
  exact ⟨σ, hσ, tasks_complete planned_firstRound hσ (by decide) hdone hend⟩

lemma complete_firstRaws : Complete twoHeights []
    { firstRound with arrivals := branch.filterMap heavyNode.process, shutdown := none } where
  tip := complete_firstRound.tip
  all b hb := List.mem_filterMap.mpr ⟨b, hb, rfl⟩
  provider := complete_firstRound.provider
  shutdown := rfl
  durable := complete_firstRound.durable
  longer := complete_firstRound.longer

theorem tasks_catch_up_branch :
    ∃ σ, sched (taskStep firstSetup) (Tasks.start firstSetup branch Table.empty)
      calmSchedule = some σ ∧
      Reads smallChain σ.persist.store branch := by
  obtain ⟨σ, hσ, hdone, -⟩ := calmSchedule_runs
  have hheavy : (firstPlan.config twoHeights heavyNode).minEntityProcessBatchSize < 1000 := by decide
  exact ⟨σ, hσ, tasks_catch_up smallChain_lawful hashesDiffer_branches holds_empty
    planned_firstRound fair_firstRaws
    complete_firstRaws (by decide) (fun done _ => cutsEven_of_heavy fun b _ => hheavy) hσ
      (by decide) hdone⟩

end Examples

end Redbit.Chain
