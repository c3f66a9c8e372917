import Redbit.Chain.Follow
import Redbit.Lib.Outlet

/-!
# The tasks of a sync (`syncer.rs`, `block_stream.rs`)

Four tasks fetch, process, order and persist the blocks.  They send to each other over bounded
channels and take turns in any order; a schedule is a list of their moves.  At any time a shutdown
may be signalled: each task sees it at the head of its loop, and `sync` aborts the first three of
them wherever they wait.  A fetch or the processing of a batch may panic, and the persist task ends
when a batch fails, so a receiver may be gone before its sender.

Whatever the schedule, the store is one that `sync` leaves for some arrivals and some end
(`tasks_refine`): no schedule persists a block twice, or above one that is missing.  So it follows
the node (`tasks_follow`).
-/

set_option linter.unusedSectionVars false

namespace Redbit.Chain

open Redbit.Lib

/-- `Parallelism`: `with_ratio` makes it `1` at least. -/
structure Parallelism where
  n : ℕ
  pos : 0 < n

/-- What the tasks of one sync know. -/
structure Setup (S FB H B E : Type) where
  chain : BlockChainLike S H B E
  blockProvider : Provider H B E
  nonDurableBatches : ℕ
  forkDetectionHeight : ℕ
  cfg : SyncConfig FB (Block H B)
  fetchingPar : Parallelism
  indexingPar : Parallelism

/-! ### The fetch task -/

/-- The fetch task. -/
structure FetchTask (FB : Type) where
  /-- The blocks whose fetch has not ended. -/
  toFetch : List FB
  sizeBatcher : SizeBatcher FB
  outlet : Outlet FB

/-- The moves of the fetch task. -/
inductive FetchAct where
  /-- The `i`-th outstanding fetch ends. -/
  | next (i : ℕ)
  | streamEnd
  | shutdown
  /-- A fetch fails. -/
  | panic
  | send
  | sendError
  | finish

section Fetch

variable {S FB H B E : Type} (C : Setup S FB H B E)

/-- The rest of the batcher is sent behind the loop. -/
def FetchTask.leave (t : FetchTask FB) : FetchTask FB :=
  let r := t.sizeBatcher.takeAll
  { t with sizeBatcher := r.2, outlet := t.outlet.leave r.1.toList }

/-- A move of the fetch task, if it can be made; `received` is whether its receiver is there. -/
def fetchStep (shutdown received : Bool) (t : FetchTask FB) : FetchAct → Option (FetchTask FB)
  | .next i =>
    -- without batching the fetches are taken in order
    if t.outlet.Idle ∧ shutdown = false ∧ i < C.fetchingPar.n ∧ (C.cfg.batching ∨ i = 0) then
      (t.toFetch[i]?).map fun raw =>
        let r := t.sizeBatcher.push C.cfg.size raw
        { toFetch := t.toFetch.eraseIdx i, sizeBatcher := r.2, outlet := t.outlet.put r.1.toList }
    else none
  | .streamEnd => if t.outlet.Idle ∧ shutdown = false ∧ t.toFetch = [] then some t.leave else none
  | .shutdown => if t.outlet.Idle ∧ shutdown = true then some t.leave else none
  | .panic =>
    if t.outlet.Idle ∧ shutdown = false ∧
      t.toFetch ≠ [] then some { t with outlet := t.outlet.close } else none
  | .send => if received then (t.outlet.send 64).map fun o => { t with outlet := o } else none
  | .sendError =>
    if t.outlet.state ≠ .ended ∧ t.outlet.out ≠ [] ∧
      received = false then some { t with outlet := t.outlet.close }
    else none
  | .finish =>
    if t.outlet.state = .ending ∧ t.outlet.out = [] then some { t with outlet := t.outlet.close }
      else none

end Fetch

/-! ### The process task -/

/-- The process task. -/
structure ProcTask (FB TB : Type) where
  /-- The batches whose processing has been spawned. -/
  inFlight : List (List FB)
  buf : ProcBuf TB
  outlet : Outlet TB

/-- The moves of the process task. -/
inductive ProcAct where
  | spawn
  /-- The `i`-th spawned processing ends. -/
  | next (i : ℕ)
  /-- The `i`-th spawned processing panics. -/
  | joinError (i : ℕ)
  | streamEnd
  | shutdown
  | send
  | sendError

section Process

variable {S FB H B E : Type} (C : Setup S FB H B E)

/-- The task ends, with its locals. -/
def ProcTask.stop (t : ProcTask FB (Block H B)) : ProcTask FB (Block H B) :=
  ⟨[], ⟨[], 0⟩, t.outlet.close⟩

/-- A move of the process task, with what the fetch task sends. -/
def procStep (shutdown received : Bool) (fetch : Outlet FB) (t : ProcTask FB (Block H B)) :
    ProcAct → Option (Outlet FB × ProcTask FB (Block H B))
  | .spawn =>
    if t.outlet.Idle ∧ shutdown = false ∧ t.inFlight.length < C.indexingPar.n then
      fetch.take.map fun r => (r.2, { t with inFlight := t.inFlight ++ [r.1] })
    else none
  | .next i =>
    if t.outlet.Idle ∧ shutdown = false then
      (t.inFlight[i]?).map fun batch =>
        let r := accumulateAll C.cfg t.buf (batch.filterMap C.cfg.process)
        (fetch, { inFlight := t.inFlight.eraseIdx i, buf := r.2, outlet := t.outlet.put r.1 })
    else none
  | .joinError i =>
    if t.outlet.Idle ∧ shutdown = false ∧ i < t.inFlight.length then
      some (fetch, { t with inFlight := t.inFlight.eraseIdx i })
    else none
  | .streamEnd =>
    if t.outlet.Idle ∧ shutdown = false ∧ fetch.state = .ended ∧ fetch.queue = [] ∧
        t.inFlight = [] then
      some (fetch, t.stop)
    else none
  | .shutdown => if t.outlet.Idle ∧ shutdown = true then some (fetch, t.stop) else none
  | .send => if received then (t.outlet.send (4 * 64)).map fun o =>
    (fetch, { t with outlet := o }) else none
  | .sendError =>
    -- the error is ignored
    if t.outlet.out ≠ [] ∧ received = false then some (fetch, { t with outlet := t.outlet.skip })
      else none

end Process

/-! ### The sort task -/

/-- The sort task.  `received` is the history of the blocks that reached it. -/
structure SortTask (TB : Type) where
  reorder : ReorderBuffer TB
  batcher : WeightBatcher TB
  outlet : Outlet TB
  received : List TB

/-- The moves of the sort task. -/
inductive SortAct where
  | recv
  | recvEnd
  | shutdown
  | send
  | sendError
  | finish

section Order

variable {S FB H B E : Type} (C : Setup S FB H B E)

/-- The rest of the batcher is sent behind the loop. -/
def SortTask.leave (t : SortTask (Block H B)) : SortTask (Block H B) :=
  let r := t.batcher.flush
  { t with batcher := r.2, outlet := t.outlet.leave r.1.toList }

/-- A move of the sort task, with what the process task sends. -/
def sortStep (shutdown received : Bool) (proc : Outlet (Block H B)) (t : SortTask (Block H B)) :
    SortAct → Option (Outlet (Block H B) × SortTask (Block H B))
  | .recv =>
    if t.outlet.Idle then
      proc.take.map fun r =>
        let o := sortAll C.cfg t.reorder t.batcher r.1
        (r.2,
          { reorder := o.2.1, batcher := o.2.2, outlet := t.outlet.put o.1,
            received := t.received ++ r.1 })
    else none
  | .recvEnd =>
    if t.outlet.Idle ∧ proc.state = .ended ∧ proc.queue = [] then some (proc, t.leave) else none
  | .shutdown => if t.outlet.Idle ∧ shutdown = true then some (proc, t.leave) else none
  | .send => if received then (t.outlet.send 4).map fun o => (proc, { t with outlet := o }) else none
  | .sendError =>
    if t.outlet.state ≠ .ended ∧ t.outlet.out ≠ [] ∧ received = false then
      some (proc, { t with outlet := t.outlet.close })
    else none
  | .finish =>
    if t.outlet.state = .ending ∧ t.outlet.out = [] then some (proc,
      { t with outlet := t.outlet.close }) else none

end Order

/-! ### The persist task -/

/-- The persist task is in its loop, or has seen the shutdown, or has ended otherwise. -/
inductive PersistState (E : Type) where
  | running
  | shutdown
  | ended (e : PersistEnd E)

/-- How the loop over the batches taken ends. -/
def PersistState.toEnd {E : Type} : PersistState E → PersistEnd E
  | .running => .disconnected
  | .shutdown => .disconnected
  | .ended e => e

/-- The task is in its loop. -/
def PersistState.isRunning {E : Type} : PersistState E → Bool
  | .running => true
  | _ => false

/-- The persist task and the store.  `taken` is the history of the batches that it received. -/
structure PersistTask (S H B E : Type) where
  store : S
  batchCounter : ℕ
  state : PersistState E
  taken : List (List (Block H B))

/-- The moves of the persist task. -/
inductive PersistAct where
  | recv
  | recvEnd
  | shutdown

section Persist

variable {S FB H B E : Type} (C : Setup S FB H B E)

/-- A turn of the loop with a batch. -/
def PersistTask.turn (t : PersistTask S H B E) (batch : List (Block H B)) : PersistTask S H B E :=
  match batchDurability C.nonDurableBatches t.batchCounter C.cfg.defaultDurability with
  | none => { t with state := .ended .divideByZero, taken := t.taken ++ [batch] }
  | some _ =>
    match C.chain.persistOrLink C.blockProvider C.forkDetectionHeight t.store batch with
    | (s, some f) => { t with store := s, state := .ended (.failed f), taken := t.taken ++ [batch] }
    | (s, none) =>
      { t with store := s, batchCounter := t.batchCounter + 1, taken := t.taken ++ [batch] }

/-- A move of the persist task, with what the sort task sends. -/
def persistStep (shutdown : Bool) (sort : Outlet (Block H B)) (t : PersistTask S H B E) :
    PersistAct → Option (Outlet (Block H B) × PersistTask S H B E)
  | .recv =>
    if t.state.isRunning = true ∧ shutdown = false then sort.take.map fun r =>
      (r.2, t.turn C r.1) else none
  | .recvEnd =>
    if t.state.isRunning = true ∧ shutdown = false ∧ sort.state = .ended ∧ sort.queue = [] then
      some (sort, { t with state := .ended .disconnected })
    else none
  | .shutdown =>
    if t.state.isRunning = true ∧ shutdown = true then some (sort, { t with state := .shutdown })
      else none

end Persist

/-! ### The tasks together -/

/-- The four tasks, and whether a shutdown has been signalled. -/
structure Tasks (S FB H B E : Type) where
  fetch : FetchTask FB
  proc : ProcTask FB (Block H B)
  sort : SortTask (Block H B)
  persist : PersistTask S H B E
  shutdown : Bool

/-- A move of a task, the signal, or that `sync` aborts a task. -/
inductive TaskAct where
  | fetch (a : FetchAct)
  | proc (a : ProcAct)
  | sort (a : SortAct)
  | persist (a : PersistAct)
  | signal
  | abortFetch
  | abortProc
  | abortSort

section Machine

variable {S FB H B E : Type} (C : Setup S FB H B E)

/-- The start of a sync of the blocks `raws`. -/
def Tasks.start (raws : List FB) (store : S) : Tasks S FB H B E where
  fetch := ⟨raws, SizeBatcher.fromKb C.cfg.minBatchKbSize !C.cfg.batching, Outlet.start⟩
  proc := ⟨[], ⟨[], 0⟩, Outlet.start⟩
  sort := ⟨ReorderBuffer.new C.cfg.heightToIndexFrom (1024 * 8),
    WeightBatcher.new C.cfg.minEntityBatchSize (1024 * 8) C.cfg.defaultDurability, Outlet.start, []⟩
  persist := ⟨store, 0, .running, []⟩
  shutdown := false

/-- A move, if it can be made. -/
def taskStep (s : Tasks S FB H B E) : TaskAct → Option (Tasks S FB H B E)
  | .fetch a =>
    (fetchStep C s.shutdown (s.proc.outlet.state ≠ .ended) s.fetch a).map fun t =>
      { s with fetch := t }
  | .proc a =>
    (procStep C s.shutdown (s.sort.outlet.state ≠ .ended) s.fetch.outlet s.proc a).map fun r =>
      { s with fetch := { s.fetch with outlet := r.1 }, proc := r.2 }
  | .sort a =>
    (sortStep C s.shutdown s.persist.state.isRunning s.proc.outlet s.sort a).map fun r =>
      { s with proc := { s.proc with outlet := r.1 }, sort := r.2 }
  | .persist a =>
    (persistStep C s.shutdown s.sort.outlet s.persist a).map fun r =>
      { s with sort := { s.sort with outlet := r.1 }, persist := r.2 }
  | .signal => if s.shutdown = false then some { s with shutdown := true } else none
  | .abortFetch =>
    if s.shutdown = true ∧ s.fetch.outlet.state ≠ .ended then
      some { s with fetch := { s.fetch with outlet := s.fetch.outlet.close } }
    else none
  | .abortProc =>
    if s.shutdown = true ∧ s.proc.outlet.state ≠ .ended then some { s with proc := s.proc.stop }
      else none
  | .abortSort =>
    if s.shutdown = true ∧ s.sort.outlet.state ≠ .ended then
      some { s with sort := { s.sort with outlet := s.sort.outlet.close } }
    else none

/-- The move of a task by itself: no signal or abort, and nothing panics. -/
def TaskAct.own : TaskAct → Bool
  | .fetch .panic => false
  | .proc (.joinError _) => false
  | .signal => false
  | .abortFetch => false
  | .abortProc => false
  | .abortSort => false
  | _ => true

end Machine

/-! ### What each move takes and what it does -/

section Moves

variable {S FB H B E : Type} (C : Setup S FB H B E) (sd rc : Bool)

/-- The moves of the fetch task. -/
inductive FetchTask.Moves (t : FetchTask FB) : FetchAct → FetchTask FB → Prop
  | next {i : ℕ} {raw : FB} (hidle : t.outlet.Idle) (hsd : sd = false)
      (hpar : i < C.fetchingPar.n ∧ (C.cfg.batching = true ∨ i = 0))
        (hraw : t.toFetch[i]? = some raw) :
      t.Moves (.next i) ⟨t.toFetch.eraseIdx i, (t.sizeBatcher.push C.cfg.size raw).2,
        t.outlet.put (t.sizeBatcher.push C.cfg.size raw).1.toList⟩
  | streamEnd (hidle : t.outlet.Idle) (hsd : sd = false) (hnil : t.toFetch = []) :
      t.Moves .streamEnd t.leave
  | shutdown (hidle : t.outlet.Idle) (hsd : sd = true) : t.Moves .shutdown t.leave
  | panic (hidle : t.outlet.Idle) (hsd : sd = false) (hraws : t.toFetch ≠ []) :
      t.Moves .panic { t with outlet := t.outlet.close }
  | send {o : Outlet FB} (hrc : rc = true) (ho : t.outlet.send 64 = some o) :
      t.Moves .send { t with outlet := o }
  | sendError (hstate : t.outlet.state ≠ .ended) (hout : t.outlet.out ≠ []) (hrc : rc = false) :
      t.Moves .sendError { t with outlet := t.outlet.close }
  | finish (hstate : t.outlet.state = .ending) (hout : t.outlet.out = []) :
      t.Moves .finish { t with outlet := t.outlet.close }

/-- The moves of the process task. -/
inductive ProcTask.Moves (f : Outlet FB) (t : ProcTask FB (Block H B)) :
    ProcAct → Outlet FB → ProcTask FB (Block H B) → Prop
  | spawn {batch : List FB} {o : Outlet FB} (hidle : t.outlet.Idle) (hsd : sd = false)
      (hpar : t.inFlight.length < C.indexingPar.n) (htake : f.take = some (batch, o)) :
      t.Moves f .spawn o { t with inFlight := t.inFlight ++ [batch] }
  | next {i : ℕ} {batch : List FB} (hidle : t.outlet.Idle) (hsd : sd = false)
      (hbatch : t.inFlight[i]? = some batch) :
      t.Moves f (.next i) f ⟨t.inFlight.eraseIdx i,
        (accumulateAll C.cfg t.buf (batch.filterMap C.cfg.process)).2,
        t.outlet.put (accumulateAll C.cfg t.buf (batch.filterMap C.cfg.process)).1⟩
  | joinError {i : ℕ} (hidle : t.outlet.Idle) (hsd : sd = false) (hi : i < t.inFlight.length) :
      t.Moves f (.joinError i) f { t with inFlight := t.inFlight.eraseIdx i }
  | streamEnd (hidle : t.outlet.Idle) (hsd : sd = false) (hended : f.state = .ended)
      (hqueue : f.queue = []) (hjobs : t.inFlight = []) : t.Moves f .streamEnd f t.stop
  | shutdown (hidle : t.outlet.Idle) (hsd : sd = true) : t.Moves f .shutdown f t.stop
  | send {o : Outlet (Block H B)} (hrc : rc = true) (ho : t.outlet.send (4 * 64) = some o) :
      t.Moves f .send f { t with outlet := o }
  | sendError (hout : t.outlet.out ≠ []) (hrc : rc = false) :
      t.Moves f .sendError f { t with outlet := t.outlet.skip }

/-- The moves of the sort task. -/
inductive SortTask.Moves (p : Outlet (Block H B)) (t : SortTask (Block H B)) :
    SortAct → Outlet (Block H B) → SortTask (Block H B) → Prop
  | recv {batch : List (Block H B)} {o : Outlet (Block H B)} (hidle : t.outlet.Idle)
      (htake : p.take = some (batch, o)) :
      t.Moves p .recv o ⟨(sortAll C.cfg t.reorder t.batcher batch).2.1,
        (sortAll C.cfg t.reorder t.batcher batch).2.2,
        t.outlet.put (sortAll C.cfg t.reorder t.batcher batch).1, t.received ++ batch⟩
  | recvEnd (hidle : t.outlet.Idle) (hended : p.state = .ended) (hqueue : p.queue = []) :
      t.Moves p .recvEnd p t.leave
  | shutdown (hidle : t.outlet.Idle) (hsd : sd = true) : t.Moves p .shutdown p t.leave
  | send {o : Outlet (Block H B)} (hrc : rc = true) (ho : t.outlet.send 4 = some o) :
      t.Moves p .send p { t with outlet := o }
  | sendError (hstate : t.outlet.state ≠ .ended) (hout : t.outlet.out ≠ []) (hrc : rc = false) :
      t.Moves p .sendError p { t with outlet := t.outlet.close }
  | finish (hstate : t.outlet.state = .ending) (hout : t.outlet.out = []) :
      t.Moves p .finish p { t with outlet := t.outlet.close }

/-- The moves of the persist task. -/
inductive PersistTask.Moves (q : Outlet (Block H B)) (t : PersistTask S H B E) :
    PersistAct → Outlet (Block H B) → PersistTask S H B E → Prop
  | recv {batch : List (Block H B)} {o : Outlet (Block H B)} (hr : t.state.isRunning = true)
      (hsd : sd = false) (htake : q.take = some (batch, o)) : t.Moves q .recv o (t.turn C batch)
  | recvEnd (hr : t.state.isRunning = true) (hsd : sd = false) (hended : q.state = .ended)
      (hqueue : q.queue = []) : t.Moves q .recvEnd q { t with state := .ended .disconnected }
  | shutdown (hr : t.state.isRunning = true) (hsd : sd = true) :
      t.Moves q .shutdown q { t with state := .shutdown }

/-- The moves of the tasks. -/
inductive Tasks.Moves (s : Tasks S FB H B E) : TaskAct → Tasks S FB H B E → Prop
  | fetch {a : FetchAct} {t : FetchTask FB}
      (ht : s.fetch.Moves C s.shutdown (s.proc.outlet.state ≠ .ended) a t) :
        s.Moves (.fetch a) { s with fetch := t }
  | proc {a : ProcAct} {o : Outlet FB} {t : ProcTask FB (Block H B)}
      (ht : s.proc.Moves C s.shutdown (s.sort.outlet.state ≠ .ended) s.fetch.outlet a o t) :
      s.Moves (.proc a) { s with fetch := { s.fetch with outlet := o }, proc := t }
  | sort {a : SortAct} {o : Outlet (Block H B)} {t : SortTask (Block H B)}
      (ht : s.sort.Moves C s.shutdown s.persist.state.isRunning s.proc.outlet a o t) :
      s.Moves (.sort a) { s with proc := { s.proc with outlet := o }, sort := t }
  | persist {a : PersistAct} {o : Outlet (Block H B)} {t : PersistTask S H B E}
      (ht : s.persist.Moves C s.shutdown s.sort.outlet a o t) :
      s.Moves (.persist a) { s with sort := { s.sort with outlet := o }, persist := t }
  | signal (hsd : s.shutdown = false) : s.Moves .signal { s with shutdown := true }
  | abortFetch (hsd : s.shutdown = true) (hstate : s.fetch.outlet.state ≠ .ended) :
      s.Moves .abortFetch { s with fetch := { s.fetch with outlet := s.fetch.outlet.close } }
  | abortProc (hsd : s.shutdown = true) (hstate : s.proc.outlet.state ≠ .ended) :
      s.Moves .abortProc { s with proc := s.proc.stop }
  | abortSort (hsd : s.shutdown = true) (hstate : s.sort.outlet.state ≠ .ended) :
      s.Moves .abortSort { s with sort := { s.sort with outlet := s.sort.outlet.close } }

variable {C sd rc}

lemma fetchStep_eq_some {t t' : FetchTask FB} {a : FetchAct} :
    fetchStep C sd rc t a = some t' ↔ t.Moves C sd rc a t' := by
  constructor
  · intro hs
    cases a with
    | next i =>
      simp only [fetchStep, Option.ite_none_right_eq_some, Option.map_eq_some_iff] at hs
      obtain ⟨⟨hidle, hsd, hpar⟩, raw, hraw, rfl⟩ := hs
      exact .next hidle hsd hpar hraw
    | send =>
      simp only [fetchStep, Option.ite_none_right_eq_some, Option.map_eq_some_iff] at hs
      obtain ⟨hrc, o, ho, rfl⟩ := hs
      exact .send hrc ho
    | streamEnd | shutdown | panic | sendError | finish =>
      simp only [fetchStep, Option.ite_none_right_eq_some, Option.some.injEq] at hs
      obtain ⟨hcond, rfl⟩ := hs
      constructor <;> tauto
  · intro h
    cases h with
    | next hidle hsd hpar hraw =>
      exact (if_pos ⟨hidle, hsd, hpar⟩).trans (Option.map_eq_some_iff.mpr ⟨_, hraw, rfl⟩)
    | streamEnd hidle hsd hnil => exact if_pos ⟨hidle, hsd, hnil⟩
    | shutdown hidle hsd => exact if_pos ⟨hidle, hsd⟩
    | panic hidle hsd hraws => exact if_pos ⟨hidle, hsd, hraws⟩
    | send hrc ho => exact (if_pos hrc).trans (Option.map_eq_some_iff.mpr ⟨_, ho, rfl⟩)
    | sendError hstate hout hrc => exact if_pos ⟨hstate, hout, hrc⟩
    | finish hstate hout => exact if_pos ⟨hstate, hout⟩

lemma procStep_eq_some {f f' : Outlet FB} {t t' : ProcTask FB (Block H B)} {a : ProcAct} :
    procStep C sd rc f t a = some (f', t') ↔ t.Moves C sd rc f a f' t' := by
  constructor
  · intro hs
    cases a with
    | spawn =>
      simp only [procStep, Option.ite_none_right_eq_some, Option.map_eq_some_iff, Prod.mk.injEq] at hs
      obtain ⟨⟨hidle, hsd, hpar⟩, ⟨batch, o⟩, htake, rfl, rfl⟩ := hs
      exact .spawn hidle hsd hpar htake
    | next i =>
      simp only [procStep, Option.ite_none_right_eq_some, Option.map_eq_some_iff, Prod.mk.injEq] at hs
      obtain ⟨⟨hidle, hsd⟩, batch, hbatch, rfl, rfl⟩ := hs
      exact .next hidle hsd hbatch
    | send =>
      simp only [procStep, Option.ite_none_right_eq_some, Option.map_eq_some_iff, Prod.mk.injEq] at hs
      obtain ⟨hrc, o, ho, rfl, rfl⟩ := hs
      exact .send hrc ho
    | joinError i | streamEnd | shutdown | sendError =>
      simp only [procStep, Option.ite_none_right_eq_some, Option.some.injEq, Prod.mk.injEq] at hs
      obtain ⟨hcond, rfl, rfl⟩ := hs
      constructor <;> tauto
  · intro h
    cases h with
    | spawn hidle hsd hpar htake =>
      exact (if_pos ⟨hidle, hsd, hpar⟩).trans (Option.map_eq_some_iff.mpr ⟨_, htake, rfl⟩)
    | next hidle hsd hbatch =>
      exact (if_pos ⟨hidle, hsd⟩).trans (Option.map_eq_some_iff.mpr ⟨_, hbatch, rfl⟩)
    | joinError hidle hsd hi => exact if_pos ⟨hidle, hsd, hi⟩
    | streamEnd hidle hsd hended hqueue hjobs => exact if_pos ⟨hidle, hsd, hended, hqueue, hjobs⟩
    | shutdown hidle hsd => exact if_pos ⟨hidle, hsd⟩
    | send hrc ho => exact (if_pos hrc).trans (Option.map_eq_some_iff.mpr ⟨_, ho, rfl⟩)
    | sendError hout hrc => exact if_pos ⟨hout, hrc⟩

lemma sortStep_eq_some {p p' : Outlet (Block H B)} {t t' : SortTask (Block H B)} {a : SortAct} :
    sortStep C sd rc p t a = some (p', t') ↔ t.Moves C sd rc p a p' t' := by
  constructor
  · intro hs
    cases a with
    | recv =>
      simp only [sortStep, Option.ite_none_right_eq_some, Option.map_eq_some_iff, Prod.mk.injEq] at hs
      obtain ⟨hidle, ⟨batch, o⟩, htake, rfl, rfl⟩ := hs
      exact .recv hidle htake
    | send =>
      simp only [sortStep, Option.ite_none_right_eq_some, Option.map_eq_some_iff, Prod.mk.injEq] at hs
      obtain ⟨hrc, o, ho, rfl, rfl⟩ := hs
      exact .send hrc ho
    | recvEnd | shutdown | sendError | finish =>
      simp only [sortStep, Option.ite_none_right_eq_some, Option.some.injEq, Prod.mk.injEq] at hs
      obtain ⟨hcond, rfl, rfl⟩ := hs
      constructor <;> tauto
  · intro h
    cases h with
    | recv hidle htake => exact (if_pos hidle).trans (Option.map_eq_some_iff.mpr ⟨_, htake, rfl⟩)
    | recvEnd hidle hended hqueue => exact if_pos ⟨hidle, hended, hqueue⟩
    | shutdown hidle hsd => exact if_pos ⟨hidle, hsd⟩
    | send hrc ho => exact (if_pos hrc).trans (Option.map_eq_some_iff.mpr ⟨_, ho, rfl⟩)
    | sendError hstate hout hrc => exact if_pos ⟨hstate, hout, hrc⟩
    | finish hstate hout => exact if_pos ⟨hstate, hout⟩

lemma persistStep_eq_some {q q' : Outlet (Block H B)} {t t' : PersistTask S H B E} {a : PersistAct} :
    persistStep C sd q t a = some (q', t') ↔ t.Moves C sd q a q' t' := by
  constructor
  · intro hs
    cases a with
    | recv =>
      simp only [persistStep, Option.ite_none_right_eq_some, Option.map_eq_some_iff,
        Prod.mk.injEq] at hs
      obtain ⟨⟨hr, hsd⟩, ⟨batch, o⟩, htake, rfl, rfl⟩ := hs
      exact .recv hr hsd htake
    | recvEnd | shutdown =>
      simp only [persistStep, Option.ite_none_right_eq_some, Option.some.injEq, Prod.mk.injEq] at hs
      obtain ⟨hcond, rfl, rfl⟩ := hs
      constructor <;> tauto
  · intro h
    cases h with
    | recv hr hsd htake => exact (if_pos ⟨hr, hsd⟩).trans (Option.map_eq_some_iff.mpr ⟨_, htake, rfl⟩)
    | recvEnd hr hsd hended hqueue => exact if_pos ⟨hr, hsd, hended, hqueue⟩
    | shutdown hr hsd => exact if_pos ⟨hr, hsd⟩

/-- **A move of the tasks**, from one of them. -/
lemma taskStep_eq_some {s s' : Tasks S FB H B E} {a : TaskAct} :
    taskStep C s a = some s' ↔ s.Moves C a s' := by
  constructor
  · intro hs
    cases a with
    | fetch a =>
      obtain ⟨t, ht, rfl⟩ := Option.map_eq_some_iff.mp hs
      exact .fetch (fetchStep_eq_some.mp ht)
    | proc a =>
      obtain ⟨⟨o, t⟩, ht, rfl⟩ := Option.map_eq_some_iff.mp hs
      exact .proc (procStep_eq_some.mp ht)
    | sort a =>
      obtain ⟨⟨o, t⟩, ht, rfl⟩ := Option.map_eq_some_iff.mp hs
      exact .sort (sortStep_eq_some.mp ht)
    | persist a =>
      obtain ⟨⟨o, t⟩, ht, rfl⟩ := Option.map_eq_some_iff.mp hs
      exact .persist (persistStep_eq_some.mp ht)
    | signal | abortFetch | abortProc | abortSort =>
      simp only [taskStep, Option.ite_none_right_eq_some, Option.some.injEq] at hs
      obtain ⟨hcond, rfl⟩ := hs
      constructor <;> tauto
  · intro h
    cases h with
    | fetch ht => exact Option.map_eq_some_iff.mpr ⟨_, fetchStep_eq_some.mpr ht, rfl⟩
    | proc ht => exact Option.map_eq_some_iff.mpr ⟨_, procStep_eq_some.mpr ht, rfl⟩
    | sort ht => exact Option.map_eq_some_iff.mpr ⟨_, sortStep_eq_some.mpr ht, rfl⟩
    | persist ht => exact Option.map_eq_some_iff.mpr ⟨_, persistStep_eq_some.mpr ht, rfl⟩
    | signal hsd => exact if_pos hsd
    | abortFetch hsd hstate => exact if_pos ⟨hsd, hstate⟩
    | abortProc hsd hstate => exact if_pos ⟨hsd, hstate⟩
    | abortSort hsd hstate => exact if_pos ⟨hsd, hstate⟩

end Moves

/-! ### Where the blocks come from -/

section Comes

variable {S FB H B E : Type} {C : Setup S FB H B E} {P : FB → Prop} {sd rc : Bool}

/-- The block is processed from a raw one in `P`. -/
def Setup.Processed (C : Setup S FB H B E) (P : FB → Prop) (b : Block H B) : Prop :=
  ∃ raw, P raw ∧ C.cfg.process raw = some b

/-- What the fetch task has is in `P`. -/
structure FetchTask.Comes (P : FB → Prop) (t : FetchTask FB) : Prop where
  toFetch : ∀ raw ∈ t.toFetch, P raw
  buf : ∀ raw ∈ t.sizeBatcher.buf, P raw
  outlet : t.outlet.All P

/-- What the process task has is in `P`, or processed from it. -/
structure ProcTask.Comes (C : Setup S FB H B E) (P : FB → Prop)
    (t : ProcTask FB (Block H B)) : Prop where
  inFlight : ∀ batch ∈ t.inFlight, ∀ raw ∈ batch, P raw
  buf : ∀ b ∈ t.buf.procBuf, C.Processed P b
  outlet : t.outlet.All (C.Processed P)

lemma FetchTask.Comes.leave {t : FetchTask FB} (h : t.Comes P) : t.leave.Comes P where
  toFetch := h.toFetch
  buf raw hraw := by
    rw [FetchTask.leave, t.sizeBatcher.takeAll_spec.2] at hraw
    exact absurd hraw List.not_mem_nil
  outlet := by
    refine h.outlet.append (fun raw hraw => h.buf raw ?_) (Outlet.content_leave _)
    rwa [t.sizeBatcher.takeAll_spec.1] at hraw

lemma FetchTask.Comes.close {t : FetchTask FB} (h : t.Comes P) :
    ({ t with outlet := t.outlet.close } : FetchTask FB).Comes P :=
  ⟨h.toFetch, h.buf, h.outlet.close⟩

lemma FetchTask.Comes.step {t t' : FetchTask FB} (h : t.Comes P) {a : FetchAct}
    (hs : t.Moves C sd rc a t') : t'.Comes P := by
  cases hs with
  | @next i raw _ _ _ hraw =>
    have hmem : ∀ x ∈ (t.sizeBatcher.push C.cfg.size raw).1.toList.flatten ++ (t.sizeBatcher.push
      C.cfg.size raw).2.buf,
        P x := by
      rw [t.sizeBatcher.push_spec]
      intro x hx
      rcases List.mem_append.mp hx with hx | hx
      · exact h.buf x hx
      · obtain rfl := List.mem_singleton.mp hx
        exact h.toFetch _ (List.mem_of_getElem? hraw)
    exact ⟨fun x hx => h.toFetch x (List.mem_of_mem_eraseIdx hx), fun x hx =>
      hmem x (List.mem_append_right _ hx),
      h.outlet.append (fun x hx => hmem x (List.mem_append_left _ hx)) (Outlet.content_put _)⟩
  | streamEnd => exact h.leave
  | shutdown => exact h.leave
  | panic => exact h.close
  | send _ ho => exact ⟨h.toFetch, h.buf, h.outlet.send ho⟩
  | sendError => exact h.close
  | finish => exact h.close

lemma ProcTask.Comes.stop {t : ProcTask FB (Block H B)} (h : t.Comes C P) : t.stop.Comes C P :=
  ⟨fun _ hb => absurd hb List.not_mem_nil, fun _ hb => absurd hb List.not_mem_nil, h.outlet.close⟩

lemma ProcTask.Comes.step {f f' : Outlet FB} {t t' : ProcTask FB (Block H B)} (hf : f.All P)
    (h : t.Comes C P) {a : ProcAct} (hs : t.Moves C sd rc f a f' t') : f'.All P ∧ t'.Comes C P := by
  cases hs with
  | spawn _ _ _ htake =>
    obtain ⟨hbatch, ho⟩ := hf.take htake
    refine ⟨ho, ⟨fun b hb => ?_, h.buf, h.outlet⟩⟩
    rcases List.mem_append.mp hb with hb | hb
    · exact h.inFlight b hb
    · rw [List.mem_singleton.mp hb]
      exact hbatch
  | @next i batch _ _ hbatch =>
    have hmem : ∀ b ∈ (accumulateAll C.cfg t.buf (batch.filterMap C.cfg.process)).1.flatten ++
        (accumulateAll C.cfg t.buf (batch.filterMap C.cfg.process)).2.procBuf, C.Processed P b := by
      rw [accumulateAll_content]
      intro b hb
      rcases List.mem_append.mp hb with hb | hb
      · exact h.buf b hb
      · obtain ⟨raw, hraw, hproc⟩ := List.mem_filterMap.mp hb
        exact ⟨raw, h.inFlight batch (List.mem_of_getElem? hbatch) raw hraw, hproc⟩
    exact ⟨hf, ⟨fun b hb => h.inFlight b (List.mem_of_mem_eraseIdx hb), fun b hb =>
      hmem b (List.mem_append_right _ hb),
      h.outlet.append (fun b hb => hmem b (List.mem_append_left _ hb)) (Outlet.content_put _)⟩⟩
  | joinError => exact ⟨hf, ⟨fun b hb => h.inFlight b (List.mem_of_mem_eraseIdx hb), h.buf, h.outlet⟩⟩
  | streamEnd => exact ⟨hf, h.stop⟩
  | shutdown => exact ⟨hf, h.stop⟩
  | send _ ho => exact ⟨hf, ⟨h.inFlight, h.buf, h.outlet.send ho⟩⟩
  | sendError => exact ⟨hf, ⟨h.inFlight, h.buf, h.outlet.skip⟩⟩

end Comes

/-! ### What the sort task sends -/

section Order

variable {S FB H B E : Type} {C : Setup S FB H B E} {sd rc : Bool}

/-- What the loop of the sort task makes of the blocks that reach it. -/
def Setup.sorted (C : Setup S FB H B E) (received : List (Block H B)) :
    List (List (Block H B)) × ReorderBuffer (Block H B) × WeightBatcher (Block H B) :=
  sortAll C.cfg (ReorderBuffer.new C.cfg.heightToIndexFrom (1024 * 8))
    (WeightBatcher.new C.cfg.minEntityBatchSize (1024 * 8) C.cfg.defaultDurability) received

lemma sentBatches_eq (received : List (Block H B)) :
    sentBatches C.cfg received = (C.sorted received).1 ++ (C.sorted received).2.2.flush.1.toList := rfl

/-- The batches `taken` and those on their way are what the sort task sends of the blocks that
reached it: all of it so far as long as it is in its loop. -/
structure SortTask.Sends (C : Setup S FB H B E) (taken : List (List (Block H B)))
    (t : SortTask (Block H B)) : Prop where
  running : t.outlet.state = .running →
    C.sorted t.received = (taken ++ t.outlet.content, t.reorder, t.batcher)
  sent : taken ++ t.outlet.content <+: sentBatches C.cfg t.received

variable {taken : List (List (Block H B))} {t t' : SortTask (Block H B)}

lemma sortAll_append (cfg : SyncConfig FB (Block H B)) (reorder : ReorderBuffer (Block H B))
    (batcher : WeightBatcher (Block H B)) (xs ys : List (Block H B)) :
    sortAll cfg reorder batcher (xs ++ ys) =
      ((sortAll cfg reorder batcher xs).1 ++
        (sortAll cfg (sortAll cfg reorder batcher xs).2.1 (sortAll cfg reorder batcher xs).2.2 ys).1,
        (sortAll cfg (sortAll cfg reorder batcher xs).2.1 (sortAll cfg reorder batcher xs).2.2
          ys).2) := by
  induction xs generalizing reorder batcher with
  | nil => rfl
  | cons x xs ih =>
    simp only [List.cons_append, sortAll, ih, List.append_assoc]

lemma SortTask.Sends.leave (h : t.Sends C taken) (hr : t.outlet.state = .running) :
    t.leave.Sends C taken where
  running hs := by cases hs
  sent := by
    show taken ++ (t.outlet.leave t.batcher.flush.1.toList).content <+: _
    rw [Outlet.content_leave, sentBatches_eq, ← List.append_assoc]
    show _ <+: (C.sorted t.received).1 ++ (C.sorted t.received).2.2.flush.1.toList
    rw [h.running hr]

lemma SortTask.Sends.close (h : t.Sends C taken) :
    ({ t with outlet := t.outlet.close } : SortTask (Block H B)).Sends C taken where
  running hs := by cases hs
  sent := (List.prefix_append_right_inj _).mpr Outlet.content_close_isPrefix |>.trans h.sent

lemma SortTask.Sends.step {p p' : Outlet (Block H B)} (h : t.Sends C taken) {a : SortAct}
    (hs : t.Moves C sd rc p a p' t') : t'.Sends C taken := by
  cases hs with
  | @recv batch _ hidle _ =>
    have hsorted : C.sorted (t.received ++ batch) =
      (taken ++ (t.outlet.content ++ (sortAll C.cfg t.reorder t.batcher batch).1),
        (sortAll C.cfg t.reorder t.batcher batch).2) := by
      have hall := h.running hidle.1
      unfold Setup.sorted at hall ⊢
      rw [sortAll_append, hall, List.append_assoc]
    have hcontent := Outlet.content_put (o := t.outlet) (sortAll C.cfg t.reorder t.batcher batch).1
    refine ⟨fun _ => ?_, ?_⟩
    · rw [hcontent]
      exact hsorted
    · rw [hcontent, sentBatches_eq, hsorted]
      exact List.prefix_append _ _
  | recvEnd hidle => exact h.leave hidle.1
  | shutdown hidle => exact h.leave hidle.1
  | send _ ho =>
    obtain ⟨hcontent, hstate⟩ := Outlet.content_send ho
    refine ⟨fun hr => ?_, ?_⟩
    · rw [hcontent]
      exact h.running (hstate ▸ hr)
    · rw [hcontent]
      exact h.sent
  | sendError => exact h.close
  | finish => exact h.close

/-- What reaches the sort task was on its way to it. -/
lemma SortTask.Moves.received {Q : Block H B → Prop} {p p' : Outlet (Block H B)} (hp : p.All Q)
    (h : ∀ b ∈ t.received, Q b) {a : SortAct} (hs : t.Moves C sd rc p a p' t') :
    p'.All Q ∧ ∀ b ∈ t'.received, Q b := by
  cases hs with
  | recv _ htake =>
    obtain ⟨hbatch, ho⟩ := hp.take htake
    exact ⟨ho, fun b hb => (List.mem_append.mp hb).elim (h b) (hbatch b)⟩
  | recvEnd | shutdown | send | sendError | finish => exact ⟨hp, h⟩

end Order

/-! ### What the persist task does with it -/

section Persisted

variable {S FB H B E : Type} {C : Setup S FB H B E} {sd : Bool} {s₀ : S}

/-- The loop of the persist task over the batches, as `sync` has it. -/
def Setup.persisted (C : Setup S FB H B E) (s₀ : S) (batches : List (List (Block H B))) :
    S × PersistEnd E :=
  C.chain.persistTask C.blockProvider C.nonDurableBatches C.forkDetectionHeight
    C.cfg.defaultDurability 0 s₀ batches

/-- The store and the end of the task are those of the loop over the batches taken. -/
structure PersistTask.Runs (C : Setup S FB H B E) (s₀ : S) (t : PersistTask S H B E) : Prop where
  counter : t.state.isRunning = true → t.batchCounter = t.taken.length
  store : C.persisted s₀ t.taken = (t.store, t.state.toEnd)

/-- One more batch. -/
lemma persistTask_concat (chain : BlockChainLike S H B E) (blockProvider : Provider H B E)
    {nonDurableBatches forkDetectionHeight n : ℕ} {defaultDurability : Durability} {s s' : S}
    {batches : List (List (Block H B))} (batch : List (Block H B))
    (h : chain.persistTask blockProvider nonDurableBatches forkDetectionHeight defaultDurability n
      s batches = (s', .disconnected)) :
    chain.persistTask blockProvider nonDurableBatches forkDetectionHeight defaultDurability n s
      (batches ++ [batch]) =
      match batchDurability nonDurableBatches (n + batches.length) defaultDurability with
      | none => (s', .divideByZero)
      | some _ =>
        match chain.persistOrLink blockProvider forkDetectionHeight s' batch with
        | (s'', some f) => (s'', .failed f)
        | (s'', none) => (s'', .disconnected) := by
  induction batches generalizing n s with
  | nil =>
    obtain ⟨rfl, -⟩ := Prod.mk.inj h
    rfl
  | cons b batches ih =>
    rw [List.cons_append]
    unfold BlockChainLike.persistTask at h ⊢
    cases hd : batchDurability nonDurableBatches n defaultDurability with
    | none =>
      rw [hd] at h
      cases (Prod.mk.inj h).2
    | some d =>
      rw [hd] at h
      simp only at h ⊢
      generalize chain.persistOrLink blockProvider forkDetectionHeight s b = r at h ⊢
      obtain ⟨s₁, f⟩ := r
      cases f with
      | some f => cases (Prod.mk.inj h).2
      | none =>
        simp only at h ⊢
        rw [ih h, List.length_cons, Nat.add_right_comm, Nat.add_assoc]

lemma PersistState.eq_running {st : PersistState E} (h : st.isRunning = true) : st = .running := by
  cases st with
  | running => rfl
  | shutdown => cases h
  | ended e => cases h

lemma PersistTask.Runs.turn {t : PersistTask S H B E} (h : t.Runs C s₀) (hr : t.state.isRunning = true)
    (batch : List (Block H B)) : (t.turn C batch).Runs C s₀ ∧ (t.turn C batch).taken = t.taken ++
    [batch] := by
  have hcounter := h.counter hr
  have hstate := PersistState.eq_running hr
  have hstore : C.persisted s₀ t.taken = (t.store, .disconnected) := by
    rw [h.store, hstate]
    rfl
  have hconcat := persistTask_concat C.chain C.blockProvider batch hstore
  rw [Nat.zero_add, ← hcounter] at hconcat
  unfold PersistTask.turn
  cases hd : batchDurability C.nonDurableBatches t.batchCounter C.cfg.defaultDurability with
  | none =>
    rw [hd] at hconcat
    exact ⟨⟨fun hr => (by cases hr), hconcat⟩, rfl⟩
  | some d =>
    rw [hd] at hconcat
    simp only at hconcat ⊢
    generalize C.chain.persistOrLink C.blockProvider C.forkDetectionHeight t.store batch =
      r at hconcat ⊢
    obtain ⟨s₁, f⟩ := r
    cases f with
    | some f => exact ⟨⟨fun hr => (by cases hr), hconcat⟩, rfl⟩
    | none =>
      refine ⟨⟨fun _ => ?_, ?_⟩, rfl⟩
      · simp only [List.length_append, List.length_singleton, hcounter]
      · rw [show C.persisted s₀ (t.taken ++ [batch]) = _ from hconcat, hstate]
        rfl

lemma PersistTask.Runs.step {sort : SortTask (Block H B)} {o : Outlet (Block H B)}
    {t t' : PersistTask S H B E} (hsends : sort.Sends C t.taken) (h : t.Runs C s₀) {a : PersistAct}
    (hs : t.Moves C sd sort.outlet a o t') :
    ({ sort with outlet := o } : SortTask (Block H B)).Sends C t'.taken ∧ t'.Runs C s₀ := by
  cases hs with
  | @recv batch _ hr _ htake =>
    obtain ⟨hruns, htaken⟩ := h.turn hr batch
    obtain ⟨hcontent, hstate, -⟩ := Outlet.content_take htake
    have hall : t.taken ++ [batch] ++ o.content = t.taken ++ sort.outlet.content := by
      rw [hcontent, List.append_assoc, List.singleton_append]
    refine ⟨⟨fun hrun => ?_, ?_⟩, hruns⟩
    · rw [htaken, hall]
      exact hsends.running (hstate ▸ hrun)
    · rw [htaken, hall]
      exact hsends.sent
  | recvEnd hr | shutdown hr =>
    refine ⟨hsends, ⟨fun hrun => (by cases hrun), ?_⟩⟩
    rw [show C.persisted s₀ t.taken = _ from h.store, PersistState.eq_running hr]
    rfl

end Persisted

/-! ### Every schedule -/

section Run

variable {S FB H B E : Type} {C : Setup S FB H B E} {P : FB → Prop} {s₀ : S}

/-- What holds of the tasks in every state they reach. -/
structure Tasks.Inv (C : Setup S FB H B E) (P : FB → Prop) (s₀ : S) (s : Tasks S FB H B E) : Prop where
  fetch : s.fetch.Comes P
  proc : s.proc.Comes C P
  received : ∀ b ∈ s.sort.received, C.Processed P b
  sends : s.sort.Sends C s.persist.taken
  runs : s.persist.Runs C s₀

lemma inv_start (raws : List FB) : (Tasks.start C raws s₀).Inv C (· ∈ raws) s₀ where
  fetch := ⟨fun _ h => h, fun _ h => absurd h List.not_mem_nil, Outlet.all_start⟩
  proc := ⟨fun _ h => absurd h List.not_mem_nil, fun _ h => absurd h List.not_mem_nil,
    Outlet.all_start⟩
  received _ h := absurd h List.not_mem_nil
  sends := ⟨fun _ => rfl, List.nil_prefix⟩
  runs := ⟨fun _ => rfl, rfl⟩

/-- Every move keeps it. -/
lemma Tasks.Inv.step {s s' : Tasks S FB H B E} (h : s.Inv C P s₀) {a : TaskAct}
    (hs : taskStep C s a = some s') : s'.Inv C P s₀ := by
  obtain ⟨hfetch, hproc, hreceived, hsends, hruns⟩ := h
  cases taskStep_eq_some.mp hs with
  | fetch ht => exact ⟨hfetch.step ht, hproc, hreceived, hsends, hruns⟩
  | proc ht =>
    obtain ⟨ho, hproc'⟩ := ProcTask.Comes.step hfetch.outlet hproc ht
    exact ⟨⟨hfetch.toFetch, hfetch.buf, ho⟩, hproc', hreceived, hsends, hruns⟩
  | sort ht =>
    obtain ⟨ho, hreceived'⟩ := SortTask.Moves.received hproc.outlet hreceived ht
    exact ⟨hfetch, ⟨hproc.inFlight, hproc.buf, ho⟩, hreceived', hsends.step ht, hruns⟩
  | persist ht =>
    obtain ⟨hsends', hruns'⟩ := PersistTask.Runs.step hsends hruns ht
    exact ⟨hfetch, hproc, hreceived, hsends', hruns'⟩
  | signal => exact ⟨hfetch, hproc, hreceived, hsends, hruns⟩
  | abortFetch => exact ⟨hfetch.close, hproc, hreceived, hsends, hruns⟩
  | abortProc => exact ⟨hfetch, hproc.stop, hreceived, hsends, hruns⟩
  | abortSort => exact ⟨hfetch, hproc, hreceived, hsends.close, hruns⟩

/-- The store is that of the loop over the first batches that are sent of some blocks. -/
lemma Tasks.Inv.persisted {s : Tasks S FB H B E} (h : s.Inv C P s₀) :
    C.persisted s₀ ((sentBatches C.cfg s.sort.received).take s.persist.taken.length) =
      (s.persist.store, s.persist.state.toEnd) := by
  obtain ⟨rest, hrest⟩ := h.sends.sent
  rw [← hrest, List.append_assoc, List.take_left]
  exact h.runs.store

end Run

namespace BlockChainLike

variable {S FB H B E : Type} (chain : BlockChainLike S H B E) (indexerConf : IndexerSettings)
  (node : SyncConfig FB (Block H B))

/-- What `sync` plans, where it starts its tasks. -/
def plannedSync (s : S) (lastHeader : Option (Header H)) (round : Round H B E) : Option SyncPlan :=
  match round.chainTip, chain.getLastHeader s with
  | .ok nodeChainTipHeader, .ok lastStoredHeader =>
    let plan := planSync indexerConf (UInt32.ofNat nodeChainTipHeader.height)
      ((lastHeader.or lastStoredHeader).map fun h => UInt32.ofNat h.height)
    if plan.heightsToFetch < 1 then none else some plan
  | _, _ => none

/-- What its tasks know. -/
def setup (fetchingPar indexingPar : Parallelism) (blockProvider : Provider H B E) (plan : SyncPlan) :
    Setup S FB H B E where
  chain := chain
  blockProvider := blockProvider
  nonDurableBatches := indexerConf.nonDurableBatches
  forkDetectionHeight := plan.forkDetectionHeight.toNat
  cfg := plan.config indexerConf node
  fetchingPar := fetchingPar
  indexingPar := indexingPar

variable {chain indexerConf node} {s : S} {lastHeader : Option (Header H)} {round : Round H B E}
  {plan : SyncPlan}

/-- The sync of a plan. -/
lemma sync_of_planned (fetchingPar indexingPar : Parallelism)
    (h : chain.plannedSync indexerConf s lastHeader round = some plan) (arrivals : List (Block H B))
    (n : Option ℕ) :
    chain.sync indexerConf node s lastHeader { round with arrivals := arrivals, shutdown := n } =
      let C := chain.setup indexerConf node fetchingPar indexingPar round.blockProvider plan
      let r := C.persisted s (({ round with arrivals := arrivals, shutdown := n } : Round H B E).taken
        (sentBatches C.cfg arrivals))
      (r.1, .persisted r.2) := by
  unfold plannedSync at h
  cases htip : round.chainTip with
  | error e =>
    rw [htip] at h
    cases h
  | ok tip =>
    cases hlast : chain.getLastHeader s with
    | error e =>
      rw [htip, hlast] at h
      cases h
    | ok last =>
      rw [htip, hlast] at h
      simp only at h
      split at h
      · cases h
      · rename_i hfetch
        obtain rfl := Option.some.inj h
        simp only [sync, hlast]
        rw [if_neg hfetch]
        rfl

variable {fetchingPar indexingPar : Parallelism} {raws : List FB} {acts : List TaskAct}
  {σ : Tasks S FB H B E}

/-- **The tasks are a sync.**  In every state that the tasks reach, by any schedule with any panics,
with a shutdown at any time or without one, the store and the end of the persist task are those of
`sync` for some of the fetched blocks as the arrivals. -/
theorem tasks_refine (hplan : chain.plannedSync indexerConf s lastHeader round = some plan)
    (hrun : sched (taskStep (chain.setup indexerConf node fetchingPar indexingPar
      round.blockProvider plan))
      (Tasks.start (chain.setup indexerConf node fetchingPar indexingPar round.blockProvider plan)
        raws s) acts = some σ) :
    ∃ arrivals n, (∀ b ∈ arrivals, ∃ raw ∈ raws, node.process raw = some b) ∧
      chain.sync indexerConf node s lastHeader
        { round with arrivals := arrivals, shutdown := some n } =
        (σ.persist.store, .persisted σ.persist.state.toEnd) := by
  have hinv := sched_inv (fun _ _ _ h hs => Tasks.Inv.step h hs) (inv_start raws) hrun
  refine ⟨σ.sort.received, σ.persist.taken.length, fun b hb => ?_, ?_⟩
  · obtain ⟨raw, hraw, hproc⟩ := hinv.received b hb
    exact ⟨raw, hraw, hproc⟩
  · rw [sync_of_planned fetchingPar indexingPar hplan]
    simp only [Round.taken]
    rw [hinv.persisted]

/-- The round of a sync with some of its arrivals, until some batch. -/
lemma Fair.subset {Known Proper : Block H B → Prop} {blocks all arrivals : List (Block H B)}
    (h : Fair Known Proper indexerConf blocks { round with arrivals := all })
    (ha : ∀ b ∈ arrivals, b ∈ all) (n : Option ℕ) :
    Fair Known Proper indexerConf blocks { round with arrivals := arrivals, shutdown := n } where
  node := h.node
  tip := h.tip
  fits := h.fits
  arrivals b hb := h.arrivals b (ha b hb)
  parents := h.parents
  ahead := h.ahead
  reaches := h.reaches

/-- The store of tasks with the invariant is one that a sync of some of their blocks leaves. -/
lemma follows_of_inv [DecidableEq H] {Known Proper : Block H B → Prop}
    {Stores : S → List (Block H B) → Prop} {blocks : List (Block H B)}
    (hlaw : chain.Lawful Proper Stores) (hhash : HashesDiffer Known)
    (h : Holds Known Stores s blocks) (hplan : chain.plannedSync indexerConf s none round =
      some plan) (hfair : Fair Known Proper indexerConf blocks
      { round with arrivals := raws.filterMap node.process })
    (hinv : σ.Inv (chain.setup indexerConf node fetchingPar indexingPar round.blockProvider plan)
      (· ∈ raws) s) :
    ∃ blocks', Holds Known Stores σ.persist.store blocks' ∧ Advances round.nodeChain blocks blocks' ∧
      ∀ f, σ.persist.state.toEnd = .failed f → ProviderFails round.blockProvider f := by
  have harrivals : ∀ b ∈ σ.sort.received, b ∈ raws.filterMap node.process := fun b hb => by
    obtain ⟨raw, hraw, hproc⟩ := hinv.received b hb
    exact List.mem_filterMap.mpr ⟨raw, hraw, hproc⟩
  obtain ⟨blocks', hblocks', hadv, herror, -⟩ :=
    sync_node node hlaw hhash h (hfair.subset harrivals (some σ.persist.taken.length))
  rw [sync_of_planned fetchingPar indexingPar hplan] at hblocks' herror
  simp only [Round.taken] at hblocks' herror
  rw [hinv.persisted] at hblocks' herror
  exact ⟨blocks', hblocks', hadv, fun f hf => herror f (congrArg SyncEnd.persisted hf)⟩

/-- **The tasks follow the node.**  In every state that they reach, the store holds a chain of
linked blocks: the one that the sync started from, or a longer start of the chain of the node. -/
theorem tasks_follow [DecidableEq H] {Known Proper : Block H B → Prop}
    {Stores : S → List (Block H B) → Prop} {blocks : List (Block H B)}
    (hlaw : chain.Lawful Proper Stores) (hhash : HashesDiffer Known)
    (h : Holds Known Stores s blocks) (hplan : chain.plannedSync indexerConf s none round =
      some plan) (hfair : Fair Known Proper indexerConf blocks
      { round with arrivals := raws.filterMap node.process })
    (hrun : sched (taskStep (chain.setup indexerConf node fetchingPar indexingPar
      round.blockProvider plan))
      (Tasks.start (chain.setup indexerConf node fetchingPar indexingPar round.blockProvider plan)
        raws s) acts = some σ) :
    ∃ blocks', Reads chain σ.persist.store blocks' ∧ IsBlockChain blocks' ∧
      Advances round.nodeChain blocks blocks' ∧
      ∀ f, σ.persist.state.toEnd = .failed f → ProviderFails round.blockProvider f := by
  have hinv := sched_inv (fun _ _ _ h hs => Tasks.Inv.step h hs) (inv_start raws) hrun
  obtain ⟨blocks', hblocks', hadv, herror⟩ := follows_of_inv hlaw hhash h hplan hfair hinv
  exact ⟨blocks', hlaw.getBlock hblocks'.stores, hblocks'.chain, hadv, herror⟩

end BlockChainLike

/-! ### One block, and then a shutdown -/

section Examples

open BlockChainLike

/-- A node whose blocks are heavy. -/
def heavyNode : SyncConfig (Block ℕ Unit) (Block ℕ Unit) := { weightless with weight := fun _ => 1000 }

/-- Two at once. -/
def twoPar : Parallelism := ⟨2, two_pos⟩

/-- The plan of the first sync. -/
def firstPlan : SyncPlan := planSync twoHeights 2 none

lemma planned_firstRound : smallChain.plannedSync twoHeights Table.empty none firstRound =
    some firstPlan := by
  unfold plannedSync
  rw [smallChain_lawful.getLastHeader tableStores_empty]
  rfl

/-- What the tasks know. -/
def firstSetup : Setup (Db ℕ Unit) (Block ℕ Unit) ℕ Unit String :=
  smallChain.setup twoHeights heavyNode twoPar twoPar branchesNode firstPlan

/-- The first block is persisted, and the second one is being processed when the shutdown comes. -/
def firstSchedule : List TaskAct :=
  [.fetch (.next 0), .fetch .send, .proc .spawn, .proc (.next 0), .proc .send, .sort .recv,
    .sort .send, .fetch (.next 0), .fetch .send, .proc .spawn, .persist .recv, .signal, .abortProc]

lemma firstSchedule_runs : ∃ σ, sched (taskStep firstSetup)
    (Tasks.start firstSetup branch Table.empty) firstSchedule = some σ :=
  Option.isSome_iff_exists.mp rfl

lemma fair_firstRaws :
    Fair OnBranch (fun _ => True) twoHeights
    [] { firstRound with arrivals := branch.filterMap heavyNode.process } where
  node := isNodeChain_branch
  tip := fair_firstRound.tip
  fits := fair_firstRound.fits
  arrivals b hb := by
    obtain ⟨raw, hraw, hproc⟩ := List.mem_filterMap.mp hb
    exact Option.some.inj hproc ▸ hraw
  parents := fair_firstRound.parents
  ahead := fair_firstRound.ahead
  reaches := fair_firstRound.reaches

theorem tasks_refine_branch : ∃ σ arrivals n,
    sched (taskStep firstSetup) (Tasks.start firstSetup branch Table.empty) firstSchedule = some σ ∧
      (∀ b ∈ arrivals, ∃ raw ∈ branch, heavyNode.process raw = some b) ∧
      smallChain.sync twoHeights heavyNode Table.empty
        none { firstRound with arrivals := arrivals, shutdown := some n } =
        (σ.persist.store, .persisted σ.persist.state.toEnd) := by
  obtain ⟨σ, hσ⟩ := firstSchedule_runs
  obtain ⟨arrivals, n, harrivals, hsync⟩ := tasks_refine planned_firstRound hσ
  exact ⟨σ, arrivals, n, hσ, harrivals, hsync⟩

theorem tasks_follow_branch : ∃ σ blocks',
    sched (taskStep firstSetup) (Tasks.start firstSetup branch Table.empty) firstSchedule = some σ ∧
      Reads smallChain σ.persist.store blocks' ∧ IsBlockChain blocks' ∧ Advances branch [] blocks' ∧
      ∀ f, σ.persist.state.toEnd = .failed f → ProviderFails branchesNode f := by
  obtain ⟨σ, hσ⟩ := firstSchedule_runs
  obtain ⟨blocks', hblocks'⟩ := tasks_follow smallChain_lawful hashesDiffer_branches holds_empty
    planned_firstRound fair_firstRaws hσ
  exact ⟨σ, blocks', hσ, hblocks'⟩

end Examples

end Redbit.Chain
