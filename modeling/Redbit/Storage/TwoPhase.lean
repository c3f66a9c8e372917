import Redbit.Lib.Run
import Redbit.Storage.FlushFuture
import Redbit.Storage.TxAtomic
import Redbit.Storage.TxStop

/-!
# The two phases of a commit (`context.rs`)

The thread that commits runs the closure and then its instructions, and each shard of a writer has a
thread that takes its commands.  They run in any order: an action is one move of one of them
(`Act`), and what else the closure and the hooks send to the shards, at any time, is an action too.
Every send may fail, every answer may be lost, every table access and every commit of a shard may
fail.

What has happened is in the log (`Moment`).  `Inv` says how far the instructions have come, that an
answer is never given twice, and that nothing is committed that has not been flushed.
-/

namespace Redbit.Storage

open Redbit.Lib

/-! ### What one command can answer -/

section Answers

variable {D T K V A S : Type} [LinearOrder K] {W : WriteTable D T K V} {env : Env K A S}

/-- A command that asks for an answer to a flush. -/
def WriterCommand.isFlush : WriterCommand K V A S → Bool
  | .flush _ => true
  | .flushWhenReady _ => true
  | _ => false

/-- The answer to a flush. -/
def Event.isFlushed : Event K V A S → Bool
  | .flushed _ _ => true
  | _ => false

/-- The number of flushes that wait in a thread. -/
def Scope.holding : Scope A → ℕ
  | .inTx (some ⟨some _, _, _⟩) => 1
  | _ => 0

/-- The number of answers to flushes. -/
def countFlushed (ev : List (Event K V A S)) : ℕ := ev.countP Event.isFlushed

omit [LinearOrder K] in
@[simp] lemma countFlushed_append (ev ev' : List (Event K V A S)) :
    countFlushed (ev ++ ev') = countFlushed ev + countFlushed ev' := List.countP_append

omit [LinearOrder K] in
@[simp] lemma countFlushed_flushed (a : A) (r : Except AppError Unit) :
    countFlushed ([.flushed a r] : List (Event K V A S)) = 1 := rfl

/-- The answers that the loop gives to flushes, by the outcome of the step. -/
def Stepped.answers (r : Stepped T K V A S) : ℕ :=
  match r.outcome with
  | .ok (.error _ _) => 1
  | .ok (.commit _ _) => 1
  | .ok (.shutdown _) => (Scope.inTx r.state.deferred).holding
  | _ => 0

lemma countFlushed_step (st : TxState T K V A) (i : Input T K V A S) :
    countFlushed (st.step W env i.2 i.1).events = 0 := by
  refine List.countP_eq_zero.mpr fun ev hev hflushed => ?_
  have hcloses := closes_step st i ev hev
  cases ev with
  | flushed a r => cases hcloses
  | _ => cases hflushed

omit [LinearOrder K] in
lemma countFlushed_settle (db : D) (r : Stepped T K V A S) :
    countFlushed (settle W env db r).2 = countFlushed r.events + r.answers := by
  obtain ⟨st, ev, outcome⟩ := r
  cases outcome with
  | err e => rfl
  | panic => rfl
  | ok ctrl =>
    cases ctrl with
    | «continue» => rfl
    | error sender e => simp [settle, Stepped.answers]
    | commit sender r =>
      cases r with
      | error e => simp [settle, Stepped.answers]
      | ok u =>
        simp only [settle, Stepped.answers]
        split
        · rw [countFlushed_append]
          rfl
        · rw [countFlushed_append]
          rfl
    | shutdown ack =>
      simp only [settle, Stepped.answers, countFlushed_append, Nat.add_assoc]
      rcases st.deferred with _ | ⟨_ | a, sum, shards⟩ <;> rfl

lemma answers_flush (st : TxState T K V A) (fault : Fault T) (sender : A) :
    (st.flush W fault sender : Stepped T K V A S).answers = 1 := by
  obtain ⟨-, ⟨e, h⟩ | ⟨e, h⟩ | ⟨-, h, -⟩⟩ := flush_cases (W := W) (S := S) st fault sender
  · simp only [Stepped.answers, h]
  · simp only [Stepped.answers, h]
  · simp only [Stepped.answers, h]

omit [LinearOrder K] in
lemma answers_sink (st : TxState T K V A) (s : S) (lastShards : Option ℕ) (out : List (ℕ × Option K)) :
    (st.sink env s lastShards out).answers = 0 := by
  unfold TxState.sink
  split <;> rfl

omit [LinearOrder K] in
lemma answers_answer (st : TxState T K V A) (ack : A) (event : Event K V A S) :
    (st.answer env ack event).answers = 0 := by
  unfold TxState.answer
  split <;> rfl

omit [LinearOrder K] in
lemma answers_queryAndWrite (st : TxState T K V A) (fault : Fault T) (lastShards : Option ℕ)
    (values : List (ℕ × V)) (s : S) : (st.queryAndWrite W env fault lastShards values s).answers =
      0 := by
  unfold TxState.queryAndWrite
  split
  · split
    · exact answers_sink _ _ _ _
    · rfl
  · split
    · rfl
    · cases fault with
      | some f => rfl
      | none => exact answers_sink _ _ _ _

/-- A waiting flush waits on or is answered. -/
lemma answers_flushIfReady (st : TxState T K V A) (fault : Fault T) (d : FlushState A) :
    ({ st with deferred := some d }.flushIfReady W fault : Stepped T K V A S).answers +
      (Scope.waits d).holding =
      (Scope.inTx (some d)).holding := by
  obtain ⟨sender, sum, shards⟩ := d
  unfold TxState.flushIfReady Scope.waits
  cases sender with
  | none => simp [Stepped.answers, Scope.holding]
  | some ack =>
    cases shards with
    | none => simp [Stepped.answers]
    | some total =>
      by_cases hsum : sum = total
      · simp only [if_pos hsum, answers_flush]
        rw [if_pos ⟨rfl, by rw [hsum]⟩]
        rfl
      · simp only [if_neg hsum]
        rw [if_neg (by simpa using Ne.symm hsum)]
        simp [Stepped.answers]

/-- **One answer for each flush**: a thread answers no more flushes than it was sent and held. -/
lemma countFlushed_feed (w : Writer D T K V A) (i : Input T K V A S) :
    countFlushed (feed W env w i).2 + (feed W env w i).1.scope.holding ≤
      w.scope.holding + if i.1.isFlush then 1 else 0 := by
  rw [scope_feed]
  obtain ⟨db, phase⟩ := w
  obtain ⟨cmd, fault⟩ := i
  cases phase with
  | ended => simp [feed, countFlushed, Scope.step, Writer.scope]
  | outside =>
    cases cmd with
    | begin ack =>
      simp only [feed, beginOrEnd, Scope.step, Writer.scope]
      cases env.begin ack <;> simp [countFlushed, Event.isFlushed, Scope.holding]
    | _ =>
      simp [feed, beginOrEnd, countFlushed, Event.isFlushed, Scope.step, Writer.scope, Scope.holding]
  | inTx st =>
    simp only [feed, countFlushed_settle, countFlushed_step st (cmd, fault), Nat.zero_add]
    cases cmd with
    | begin ack => simp [TxState.step, Stepped.answers, Scope.step, Writer.scope, Scope.holding]
    | writeSortedInsertsOnFlush kvs =>
      simp only [TxState.step]
      split <;> simp [Stepped.answers, Scope.step, Writer.scope]
    | writeInsertNow k v =>
      cases fault <;> simp [TxState.step, Stepped.answers, Scope.step, Writer.scope]
    | appendSortedInserts kvs => simp [TxState.step, Stepped.answers, Scope.step, Writer.scope]
    | mergeUnsortedInserts kvs => simp [TxState.step, Stepped.answers, Scope.step, Writer.scope]
    | remove k ack =>
      cases fault with
      | some f => simp [TxState.step, Stepped.answers, Scope.step, Writer.scope]
      | none => simp [TxState.step, answers_answer, Scope.step, Writer.scope]
    | queryAndWrite lastShards values s =>
      simp only [TxState.step, answers_queryAndWrite, Scope.step, Writer.scope]
      split <;> simp [Scope.holding]
    | range lo hi ack =>
      simp only [TxState.step, Scope.step, Writer.scope]
      cases hf : W.range with
      | none => simp [Stepped.answers, Scope.holding]
      | some f =>
        cases fault with
        | some e => simp [Stepped.answers]
        | none => simp [answers_answer]
    | flush sender =>
      simp [TxState.step, answers_flush, Scope.step, Writer.scope, Scope.holding,
        WriterCommand.isFlush]
    | flushWhenReady ack =>
      obtain ⟨table, buf, deferred, err⟩ := st
      rcases deferred with _ | ⟨_ | sender, sum, shards⟩
      · have := answers_flushIfReady (W := W) (A := A) (S := S) ⟨table, buf, none, err⟩ fault
          ⟨some ack, 0, none⟩
        simp only [TxState.step, Scope.step, Writer.scope]
        rw [this]
        simp [Scope.holding, WriterCommand.isFlush]
      · have := answers_flushIfReady (W := W) (A := A) (S := S) ⟨table, buf, none, err⟩ fault
          ⟨some ack, sum, shards⟩
        simp only [TxState.step, Scope.step, Writer.scope]
        rw [this]
        simp [Scope.holding, WriterCommand.isFlush]
      · simp [TxState.step, Stepped.answers, Scope.step, Writer.scope, Scope.holding,
          WriterCommand.isFlush]
    | readyForFlush total =>
      obtain ⟨table, buf, deferred, err⟩ := st
      rcases deferred with _ | ⟨_ | sender, sum, shards⟩
      · have := answers_flushIfReady (W := W) (A := A) (S := S) ⟨table, buf, none, err⟩ fault
          ⟨none, 1, some total⟩
        simp only [TxState.step, Scope.step, Writer.scope]
        rw [this]
        simp [Scope.holding]
      · have := answers_flushIfReady (W := W) (A := A) (S := S) ⟨table, buf, none, err⟩ fault
          ⟨none, sum + 1, some total⟩
        simp only [TxState.step, Scope.step, Writer.scope]
        rw [this]
        simp [Scope.holding]
      · have := answers_flushIfReady (W := W) (A := A) (S := S) ⟨table, buf, none, err⟩ fault
          ⟨some sender, sum + 1, some total⟩
        simp only [TxState.step, Scope.step, Writer.scope]
        rw [this]
        simp [Scope.holding]
    | shutdown ack => simp [TxState.step, Stepped.answers, Scope.step, Writer.scope, Scope.holding]

/-- What is committed is answered, what is answered `Ok` is committed, and without a commit the
database stays as it is. -/
lemma feed_committed (w : Writer D T K V A) (i : Input T K V A S) :
    (.committed ∈ (feed W env w i).2 → 0 < countFlushed (feed W env w i).2) ∧
      (∀ a, .flushed a (.ok ()) ∈ (feed W env w i).2 → .committed ∈ (feed W env w i).2) ∧
      (.committed ∉ (feed W env w i).2 → (feed W env w i).1.db = w.db) := by
  obtain ⟨db, phase⟩ := w
  cases phase with
  | ended => simp [feed]
  | outside =>
    simp only [feed]
    unfold beginOrEnd
    split
    · split <;> simp
    · simp
    · simp
  | inTx st =>
    have hnot : .committed ∉ (st.step W env i.2 i.1).events := by
      intro h
      cases closes_step st i _ h
    have hnotok : ∀ a, .flushed a (.ok ()) ∉ (st.step W env i.2 i.1).events :=
      fun a => flushed_notMem_step st i a _
    simp only [feed]
    generalize st.step W env i.2 i.1 = r at hnot hnotok
    obtain ⟨st', ev, outcome⟩ := r
    cases outcome with
    | err e => simp [settle, hnot, hnotok]
    | panic => simp [settle, hnot, hnotok]
    | ok ctrl =>
      cases ctrl with
      | «continue» => simp [settle, hnot, hnotok]
      | error sender e => simp [settle, hnotok]
      | commit sender r =>
        cases r with
        | error e => simp [settle, hnotok]
        | ok u =>
          simp only [settle]
          split
          · refine ⟨fun _ => ?_, fun _ _ => by simp, fun h => absurd ?_ h⟩
            · rw [countFlushed_append]
              exact Nat.lt_add_left _ Nat.one_pos
            · simp
          · simp [hnotok]
      | shutdown ack =>
        simp only [settle]
        split <;> simp [hnot, hnotok]

end Answers

/-! ### The threads -/

/-- What the log records: the end of the closure, the flushes that are sent, their answers, the
sends and waits that fail, and the commits. -/
inductive Moment where
  | ran (r : Except AppError Unit)
  | flushSent (i : ShardId)
  | answered (i : ShardId) (r : Except AppError Unit)
  | failed (i : ShardId) (e : AppError)
  | committed (i : ShardId)

/-- Where the thread that commits is: in the closure, before these instructions, or at the end of
the call. -/
inductive MainState where
  | closure
  | committing (todo : List Instr)
  | returned (r : Except AppError Unit)

/-- The call has come to where these instructions are left. -/
def MainState.Left (todo : List Instr) : MainState → Prop
  | .closure => True
  | .committing is => is = todo
  | .returned (.ok ()) => todo = []
  | .returned (.error _) => True

/-- The number of moves that the thread that commits can still make. -/
def MainState.moves (prog : List Instr) : MainState → ℕ
  | .closure => prog.length + 1
  | .committing todo => todo.length + 1
  | .returned _ => 0

/-- The tables of the shards of a context, and the pairs that are waiting in `sync_buf` for the
flush, as the router distributes them. -/
structure ShardTables where
  D : ShardId → Type
  T : ShardId → Type
  K : ShardId → Type
  V : ShardId → Type
  S : ShardId → Type
  order : ∀ i, LinearOrder (K i)
  table : ∀ i, WriteTable (D i) (T i) (K i) (V i)
  syncBuf : ∀ i, List (K i × V i)

namespace ShardTables

variable (X : ShardTables)

instance (i : ShardId) : LinearOrder (X.K i) := X.order i

/-- The commands of a shard.  The channel of an answer is used once, so it need not be named. -/
abbrev Cmd (i : ShardId) := WriterCommand (X.K i) (X.V i) Unit (X.S i)

/-- The threads, the channels of the shards, and what has happened. -/
structure Sys where
  main : MainState
  chan : ∀ i, List (X.Cmd i)
  writer : ∀ i, Writer (X.D i) (X.T i) (X.K i) (X.V i) Unit
  log : List Moment

/-- A move of one party: the closure or a hook sends a command that is no flush, the closure
returns, the thread that commits goes on, or the thread of a shard takes a command. -/
inductive Act where
  | put (i : ShardId) (cmd : X.Cmd i)
  | closure (r : Except AppError Unit)
  | main (deferred : Bool) (fault : Option AppError)
  | thread (i : ShardId) (env : Env (X.K i) Unit (X.S i)) (fault : Fault (X.T i))

/-- The writers after `begin_writing`. -/
def start (db : ∀ i, X.D i) : X.Sys where
  main := .closure
  chan _ := []
  writer i := ⟨db i, .inTx (TxState.new ((X.table i).openForWrite (db i)))⟩
  log := []

variable {X}

/-- The answer that has come on the channel of a flush. -/
def answer (i : ShardId) (log : List Moment) : Option (Except AppError Unit) :=
  log.findSome? fun
    | .answered j r => if j = i then some r else none
    | _ => none

/-- What the log records of the events of a thread. -/
def moments {K V A S : Type} (i : ShardId) (ev : List (Event K V A S)) :
    List Moment := ev.filterMap fun
  | .flushed _ r => some (.answered i r)
  | .committed => some (.committed i)
  | _ => none

namespace Sys

/-- Commands go into the channel of a shard. -/
def push (s : X.Sys) (i : ShardId) (cmds : List (X.Cmd i)) : X.Sys :=
  { s with chan := Function.update s.chan i (s.chan i ++ cmds) }

/-- A send or a wait that fails ends the call. -/
def fail (s : X.Sys) (i : ShardId) (e : AppError) : X.Sys :=
  { s with main := .returned (.error e), log := s.log ++ [.failed i e] }

/-- A flush is sent. -/
def sendFlush (s : X.Sys) (todo : List Instr) (i : ShardId) (cmd : X.Cmd i) : X.Sys :=
  push { s with main := .committing todo, log := s.log ++ [.flushSent i] } i [cmd]

/-- The command of a flush in `flush_async`. -/
def flushCmd (i : ShardId) (deferred : Bool) : X.Cmd i :=
  if deferred then .flushWhenReady () else .flush ()

/-- What is inserted on flush, if there is something. -/
def writeCmds (i : ShardId) : List (X.Cmd i) :=
  if X.syncBuf i = [] then [] else [.writeSortedInsertsOnFlush (X.syncBuf i)]

/-- One instruction.  A send that fails ends the call, and so does an answer that is an error or
does not come any more; a wait for an answer that may still come is no move. -/
def exec (s : X.Sys) (deferred : Bool) (fault : Option AppError) (todo : List Instr) :
    Instr → Option X.Sys
  | .recv i =>
    match answer i s.log, fault with
    | some (.ok ()), _ => some { s with main := .committing todo }
    | some (.error e), _ => some { s with main := .returned (.error e) }
    | none, some e => some (s.fail i e)
    | none, none => none
  | .write i =>
    match fault with
    | some e => some (s.fail i e)
    | none => some (push { s with main := .committing todo } i (writeCmds i))
  | .flush i =>
    match fault with
    | some e => some (s.fail i e)
    | none => some (s.sendFlush todo i (flushCmd i deferred))
  | .fire i =>
    match fault with
    | some e => some (s.fail i e)
    | none => some (s.sendFlush todo i (.flush ()))

/-- A move.  `two_phase_commit_with` returns the error of the closure, and commits (`prog`) when
there is none. -/
def step (prog : List Instr) (s : X.Sys) : X.Act → Option X.Sys
  | .put i cmd => if cmd.isFlush then none else some (s.push i [cmd])
  | .closure r =>
    match s.main, r with
    | .closure, .ok () => some { s with main := .committing prog, log := s.log ++ [.ran r] }
    | .closure, .error e => some { s with main := .returned (.error e), log := s.log ++ [.ran r] }
    | _, _ => none
  | .main deferred fault =>
    match s.main with
    | .committing [] => some { s with main := .returned (.ok ()) }
    | .committing (instr :: todo) => s.exec deferred fault todo instr
    | _ => none
  | .thread i env fault =>
    match s.chan i with
    | [] => none
    | cmd :: chan =>
      let r := feed (X.table i) env (s.writer i) (cmd, fault)
      some { s with
        chan := Function.update s.chan i chan
        writer := Function.update s.writer i r.1
        log := s.log ++ moments i r.2 }

end Sys

/-! ### What a move can be -/

/-- The moves, by what they do. -/
inductive Sys.Moves (prog : List Instr) (s : X.Sys) : X.Sys → Prop where
  | put (i : ShardId) (cmds : List (X.Cmd i)) (h : ∀ cmd ∈ cmds, cmd.isFlush = false) :
      Moves prog s (s.push i cmds)
  | ranOk (h : s.main = .closure) :
      Moves prog s { s with main := .committing prog, log := s.log ++ [.ran (.ok ())] }
  | ranErr (h : s.main = .closure) (e : AppError) :
      Moves prog s { s with main := .returned (.error e), log := s.log ++ [.ran (.error e)] }
  | ends (h : s.main = .committing []) : Moves prog s { s with main := .returned (.ok ()) }
  | gotOk (i : ShardId) (todo : List Instr) (h : s.main = .committing (.recv i :: todo))
      (ha : .answered i (.ok ()) ∈ s.log) : Moves prog s { s with main := .committing todo }
  | gotErr (i : ShardId) (todo : List Instr) (h : s.main = .committing (.recv i :: todo))
      (e : AppError)
      (ha : .answered i (.error e) ∈ s.log) : Moves prog s { s with main := .returned (.error e) }
  | fails (instr : Instr) (todo : List Instr) (h : s.main = .committing (instr :: todo))
      (e : AppError) : Moves prog s (s.fail instr.shard e)
  | writes (i : ShardId) (todo : List Instr) (h : s.main = .committing (.write i :: todo)) :
      Moves prog s (push { s with main := .committing todo } i (writeCmds i))
  | flushes (instr : Instr) (i : ShardId) (todo : List Instr)
      (h : s.main = .committing (instr :: todo))
      (hi : Storage.flushes [instr] = [i]) (cmd : X.Cmd i) : Moves prog s (s.sendFlush todo i cmd)
  | serves (i : ShardId) (env : Env (X.K i) Unit (X.S i)) (cmd : X.Cmd i) (chan : List (X.Cmd i))
      (h : s.chan i = cmd :: chan) (fault : Fault (X.T i)) : Moves prog s { s with
        chan := Function.update s.chan i chan
        writer := Function.update s.writer i (feed (X.table i) env (s.writer i) (cmd, fault)).1
        log := s.log ++ moments i (feed (X.table i) env (s.writer i) (cmd, fault)).2 }


lemma answer_some {i : ShardId} {log : List Moment} {r : Except AppError Unit}
    (h : answer i log = some r) : .answered i r ∈ log := by
  obtain ⟨m, hm, heq⟩ := List.exists_of_findSome?_eq_some h
  cases m with
  | answered j r' =>
    obtain ⟨rfl, hr⟩ : j = i ∧ r' = r := by simpa using heq
    exact hr ▸ hm
  | _ => cases heq

lemma answer_none {i : ShardId} {log : List Moment} (h : answer i log = none)
    (r : Except AppError Unit) : .answered i r ∉ log := by
  intro hm
  have := List.findSome?_eq_none_iff.mp h _ hm
  simp at this

lemma Sys.moves_exec {prog todo : List Instr} {s s' : X.Sys} {deferred : Bool}
    {fault : Option AppError} {instr : Instr} (hmain : s.main = .committing (instr :: todo))
    (h : s.exec deferred fault todo instr = some s') : s.Moves prog s' := by
  cases instr with
  | recv i =>
    cases hans : answer i s.log with
    | some r =>
      cases r with
      | ok u =>
        simp only [exec, hans, Option.some.injEq] at h
        exact h ▸ .gotOk i todo hmain (answer_some hans)
      | error e =>
        simp only [exec, hans, Option.some.injEq] at h
        exact h ▸ .gotErr i todo hmain e (answer_some hans)
    | none =>
      cases fault with
      | some e =>
        simp only [exec, hans, Option.some.injEq] at h
        exact h ▸ .fails _ todo hmain e
      | none => simp [exec, hans] at h
  | write i =>
    cases fault with
    | some e => exact Option.some.inj h ▸ .fails _ todo hmain e
    | none => exact Option.some.inj h ▸ .writes i todo hmain
  | flush i =>
    cases fault with
    | some e => exact Option.some.inj h ▸ .fails _ todo hmain e
    | none => exact Option.some.inj h ▸ .flushes _ i todo hmain rfl _
  | fire i =>
    cases fault with
    | some e => exact Option.some.inj h ▸ .fails _ todo hmain e
    | none => exact Option.some.inj h ▸ .flushes _ i todo hmain rfl _

/-- Every move is one of these. -/
lemma Sys.moves_of_step {prog : List Instr} {s s' : X.Sys} {a : X.Act} (h : s.step prog a = some s') :
    s.Moves prog s' := by
  cases a with
  | put i cmd =>
    simp only [step] at h
    split at h
    · cases h
    · next hcmd => exact Option.some.inj h ▸ .put i [cmd] (by simpa using hcmd)
  | closure r =>
    simp only [step] at h
    split at h
    · next hmain => exact Option.some.inj h ▸ .ranOk hmain
    · next hmain => exact Option.some.inj h ▸ .ranErr hmain _
    · cases h
  | main deferred fault =>
    simp only [step] at h
    split at h
    · next hmain => exact Option.some.inj h ▸ .ends hmain
    · next hmain => exact moves_exec hmain h
    · cases h
  | thread i env fault =>
    simp only [step] at h
    split at h
    · cases h
    · next hchan => exact Option.some.inj h ▸ .serves i env _ _ hchan fault

/-! ### The invariant -/

/-- The flushes that have been sent. -/
def sent (log : List Moment) : List ShardId := log.filterMap fun
  | .flushSent i => some i
  | _ => none

/-- An answer of the shard `i`. -/
def isAnswer (i : ShardId) : Moment → Bool
  | .answered j _ => j = i
  | _ => false

section Log

variable {log : List Moment}

@[simp] lemma sent_append (log log' : List Moment) : sent (log ++ log') = sent log ++ sent log' :=
  List.filterMap_append

/-- A thread records its answers and its commits. -/
lemma mem_moments {K V A S : Type} {i : ShardId} {ev : List (Event K V A S)} {m : Moment}
    (h : m ∈ moments i ev) :
    (∃ r, m = .answered i r) ∨ m = .committed i ∧ .committed ∈ ev := by
  obtain ⟨e, he, heq⟩ := List.mem_filterMap.mp h
  cases e with
  | flushed a r => exact Or.inl ⟨r, (Option.some.inj heq).symm⟩
  | committed => exact Or.inr ⟨(Option.some.inj heq).symm, he⟩
  | _ => cases heq

lemma sent_moments {K V A S : Type} (i : ShardId) (ev : List (Event K V A S)) :
    sent (moments i ev) = [] := by
  refine List.filterMap_eq_nil_iff.mpr fun m hm => ?_
  rcases mem_moments hm with ⟨r, rfl⟩ | ⟨rfl, -⟩ <;> rfl

lemma countP_moments {K V A S : Type} (i : ShardId) (ev : List (Event K V A S)) :
    (moments i ev).countP (isAnswer i) = countFlushed ev := by
  induction ev with
  | nil => rfl
  | cons e ev ih =>
    have hcons : moments i (e :: ev) = moments i [e] ++ moments i ev := by
      rw [moments, moments, moments, ← List.filterMap_append]
      rfl
    have hcount : countFlushed (e :: ev) = countFlushed [e] + countFlushed ev :=
      countFlushed_append [e] ev
    rw [hcons, List.countP_append, ih, hcount]
    congr 1
    cases e with
    | flushed a r => simp [moments, isAnswer, countFlushed, Event.isFlushed]
    | _ => rfl

lemma countP_moments_of_ne {K V A S : Type} {i j : ShardId} (hij : i ≠ j) (ev : List (Event K V A S)) :
    (moments i ev).countP (isAnswer j) = 0 := by
  refine List.countP_eq_zero.mpr fun m hm => ?_
  rcases mem_moments hm with ⟨r, rfl⟩ | ⟨rfl, -⟩
  · simpa [isAnswer] using hij
  · simp [isAnswer]

lemma answered_mem_moments {K V A S : Type} {i j : ShardId} {ev : List (Event K V A S)}
    {r : Except AppError Unit} (h : .answered j r ∈ moments i ev) :
    j = i ∧ ∃ a, .flushed a r ∈ ev := by
  obtain ⟨e, he, heq⟩ := List.mem_filterMap.mp h
  cases e with
  | flushed a r' =>
    cases heq
    exact ⟨rfl, a, he⟩
  | committed => cases heq
  | _ => cases heq

lemma committed_mem_moments {K V A S : Type} {i j : ShardId} {ev : List (Event K V A S)} :
    .committed j ∈ moments i ev ↔ j = i ∧ .committed ∈ ev := by
  constructor
  · intro h
    rcases mem_moments h with ⟨r, heq⟩ | ⟨heq, hev⟩
    · cases heq
    · exact ⟨Moment.committed.inj heq, hev⟩
  · rintro ⟨rfl, he⟩
    exact List.mem_filterMap.mpr ⟨_, he, rfl⟩

/-- A shard with one answer at most has given one answer. -/
lemma eq_of_answered {i : ShardId} {r r' : Except AppError Unit} (h : log.countP (isAnswer i) ≤ 1)
    (hr : .answered i r ∈ log) (hr' : .answered i r' ∈ log) : r = r' := by
  rw [List.countP_eq_length_filter] at h
  have hmem := List.mem_filter.mpr ⟨hr, (by simp [isAnswer] : isAnswer i (.answered i r) = true)⟩
  have hmem' := List.mem_filter.mpr ⟨hr', (by simp [isAnswer] : isAnswer i (.answered i r') = true)⟩
  match hl : log.filter (isAnswer i), h with
  | [], _ =>
    rw [hl] at hmem
    cases hmem
  | [m], _ =>
    rw [hl, List.mem_singleton] at hmem hmem'
    cases hmem.trans hmem'.symm
    rfl

end Log

/-- The answers, the commits and the databases of the shards. -/
structure Books (db : ∀ i, X.D i) (s : X.Sys) : Prop where
  count : ∀ i, s.log.countP (isAnswer i) + (s.writer i).scope.holding +
    (s.chan i).countP WriterCommand.isFlush ≤ (sent s.log).count i
  committed : ∀ i, .committed i ∈ s.log → 0 < s.log.countP (isAnswer i)
  answered : ∀ i, .answered i (.ok ()) ∈ s.log → .committed i ∈ s.log
  db_eq : ∀ i, .committed i ∉ s.log → (s.writer i).db = db i

/-- Moments that concern neither answers nor commits. -/
def Silent (ms : List Moment) : Prop := ∀ i, ms.countP (isAnswer i) = 0 ∧ .committed i ∉ ms

section Books

variable {db : ∀ i, X.D i} {s : X.Sys}

lemma books_start (db : ∀ i, X.D i) : Books db (X.start db) where
  count i := by simp [start, Writer.scope, TxState.new, Scope.holding]
  committed i h := by simp [start] at h
  answered i h := by simp [start] at h
  db_eq _ _ := rfl

/-- What the thread that commits does: it sends to one shard and records it. -/
lemma Books.main (h : Books db s) (main : MainState) (i : ShardId) (cmds : List (X.Cmd i))
    {ms : List Moment} (hms : Silent ms)
    (hcmds : cmds.countP WriterCommand.isFlush ≤ (sent ms).count i) :
    Books db (Sys.push ⟨main, s.chan, s.writer, s.log ++ ms⟩ i cmds) where
  count j := by
    have hj := h.count j
    have hnil := (hms j).1
    by_cases hij : j = i
    · subst hij
      simp only [Sys.push, Function.update_self, List.countP_append, sent_append, List.count_append]
      omega
    · simp only [Sys.push, Function.update_of_ne hij, List.countP_append, sent_append,
        List.count_append]
      omega
  committed j hj := by
    have hmem : .committed j ∈ s.log := (List.mem_append.mp hj).resolve_right (hms j).2
    have := h.committed j hmem
    simp only [Sys.push, List.countP_append]
    omega
  answered j hj := by
    refine List.mem_append_left _ (h.answered j ((List.mem_append.mp hj).resolve_right fun hmem => ?_))
    have := List.countP_pos_iff.mpr ⟨_, hmem,
      (by simp [isAnswer] : isAnswer j (.answered j (.ok ())) = true)⟩
    rw [(hms j).1] at this
    omega
  db_eq j hj := h.db_eq j fun hmem => hj (List.mem_append_left _ hmem)

/-- The books also stay right when the main thread moves on without a send. -/
lemma Books.quiet (h : Books db s) (main : MainState) {ms : List Moment} (hms : Silent ms) :
    Books db ⟨main, s.chan, s.writer, s.log ++ ms⟩ := by
  have hquiet := h.main main ([], 0) [] hms (Nat.zero_le _)
  simpa only [Sys.push, List.append_nil, Function.update_eq_self] using hquiet

/-- A thread answers what it was sent. -/
lemma Books.serve (h : Books db s) {i : ShardId} (env : Env (X.K i) Unit (X.S i)) {cmd : X.Cmd i}
    {chan : List (X.Cmd i)} (hchan : s.chan i = cmd :: chan) (fault : Fault (X.T i)) : Books db
      ⟨s.main, Function.update s.chan i chan,
        Function.update s.writer i (feed (X.table i) env (s.writer i) (cmd, fault)).1,
        s.log ++ moments i (feed (X.table i) env (s.writer i) (cmd, fault)).2⟩ where
  count j := by
    have hj := h.count j
    simp only [List.countP_append, sent_append, sent_moments, List.append_nil]
    by_cases hij : j = i
    · subst hij
      rw [hchan, List.countP_cons] at hj
      simp only [Function.update_self, countP_moments]
      have hfeed : countFlushed (feed (X.table j) env (s.writer j) (cmd, fault)).2 +
          (feed (X.table j) env (s.writer j) (cmd, fault)).1.scope.holding ≤
          (s.writer j).scope.holding + if cmd.isFlush then 1 else 0 := countFlushed_feed _ _
      omega
    · rw [Function.update_of_ne hij, Function.update_of_ne hij, countP_moments_of_ne (Ne.symm hij)]
      omega
  committed j hj := by
    rw [List.countP_append]
    rcases List.mem_append.mp hj with hj | hj
    · exact Nat.lt_of_lt_of_le (h.committed j hj) (Nat.le_add_right _ _)
    · obtain ⟨rfl, hev⟩ := committed_mem_moments.mp hj
      rw [countP_moments]
      exact Nat.lt_of_lt_of_le ((feed_committed _ _).1 hev) (Nat.le_add_left _ _)
  answered j hj := by
    rcases List.mem_append.mp hj with hj | hj
    · exact List.mem_append_left _ (h.answered j hj)
    · obtain ⟨rfl, a, hev⟩ := answered_mem_moments hj
      exact List.mem_append_right _ (committed_mem_moments.mpr ⟨rfl, (feed_committed _ _).2.1 a hev⟩)
  db_eq j hj := by
    rw [List.mem_append, not_or, committed_mem_moments] at hj
    dsimp only
    by_cases hij : j = i
    · subst hij
      rw [Function.update_self, (feed_committed _ _).2.2 fun hev => hj.2 ⟨rfl, hev⟩]
      exact h.db_eq j hj.1
    · rw [Function.update_of_ne hij]
      exact h.db_eq j hj.1

lemma Books.moves {prog : List Instr} {s' : X.Sys} (h : Books db s) (hm : s.Moves prog s') :
    Books db s' := by
  have hsame : s.log ++ [] = s.log := List.append_nil _
  have hnil : Silent [] := fun i => ⟨rfl, by simp⟩
  cases hm with
  | put i cmds hcmds =>
    have := h.main s.main i cmds hnil (by simpa [sent] using hcmds)
    rwa [hsame] at this
  | ranOk hmain => exact h.quiet _ fun i => ⟨rfl, by simp⟩
  | ranErr hmain e => exact h.quiet _ fun i => ⟨rfl, by simp⟩
  | ends hmain => exact hsame ▸ h.quiet (.returned (.ok ())) hnil
  | gotOk i todo hmain ha => exact hsame ▸ h.quiet (.committing todo) hnil
  | gotErr i todo hmain e ha => exact hsame ▸ h.quiet (.returned (.error e)) hnil
  | fails instr todo hmain e => exact h.quiet _ fun i => ⟨rfl, by simp⟩
  | writes i todo hmain =>
    have := h.main (.committing todo) i (Sys.writeCmds i) hnil
      (by unfold Sys.writeCmds; split <;> simp [WriterCommand.isFlush])
    rwa [hsame] at this
  | flushes instr i todo hmain hi cmd =>
    refine h.main (.committing todo) i [cmd] (fun j => ⟨rfl, by simp⟩) ?_
    simp only [sent, List.filterMap_cons, List.filterMap_nil, List.count_singleton_self]
    exact List.countP_le_length
  | serves i env cmd chan hchan fault => exact h.serve env hchan fault

end Books

/-- How far the call has come: `done` is done and `todo` is left. -/
structure Done (prog done todo : List Instr) (s : X.Sys) : Prop where
  prog_eq : prog = done ++ todo
  left : s.main.Left todo
  sent_eq : sent s.log = flushes done
  got : ∀ i, .recv i ∈ done → .answered i (.ok ()) ∈ s.log
  failed : ∀ i e, .failed i e ∈ s.log → s.main = .returned (.error e) ∧
    ∃ instr rest, todo = instr :: rest ∧ instr.shard = i
  ranErr : ∀ e, .ran (.error e) ∈ s.log → s.main = .returned (.error e) ∧ done = []
  ranOk : done ≠ [] ∨ (∃ is, s.main = .committing is) ∨ s.main = .returned (.ok ()) →
    .ran (.ok ()) ∈ s.log
  closure : s.main = .closure → done = [] ∧ ∀ r, .ran r ∉ s.log
  /-- A flush is sent after what comes before it in `prog`. -/
  order : ∀ pre i post, s.log = pre ++ .flushSent i :: post → .ran (.ok ()) ∈ pre ∧
    ∃ before instr after, prog = before ++ instr :: after ∧ flushes [instr] = [i] ∧
      ∀ j, .recv j ∈ before → .answered j (.ok ()) ∈ pre

section Done

variable {prog done todo : List Instr} {s : X.Sys}

lemma done_start (prog : List Instr) (db : ∀ i, X.D i) : Done prog [] prog (X.start db) where
  prog_eq := rfl
  left := trivial
  sent_eq := rfl
  got i h := by simp at h
  failed i e h := by simp [start] at h
  ranErr e h := by simp [start] at h
  ranOk h := by simp [start] at h
  closure _ := ⟨rfl, fun r h => by simp [start] at h⟩
  order pre i post h := by simp [start] at h

/-- Among other moments, a flush that was sent was sent before. -/
lemma flushSent_before {log ms pre post : List Moment} {i : ShardId} (hms : sent ms = [])
    (h : log ++ ms = pre ++ .flushSent i :: post) : ∃ post', log = pre ++ .flushSent i :: post' := by
  rcases List.append_eq_append_iff.mp h with ⟨a, -, heq⟩ | ⟨c, hlog, heq⟩
  · rw [heq, sent_append] at hms
    simp [sent] at hms
  · cases c with
    | nil =>
      rw [← List.nil_append ms, ← heq] at hms
      simp [sent] at hms
    | cons m c =>
      obtain ⟨rfl, -⟩ := List.cons.inj heq
      exact ⟨c, hlog⟩

/-- The moments that the shards record. -/
lemma Done.record (h : Done prog done todo s) (chan : ∀ i, List (X.Cmd i))
    (writer : ∀ i, Writer (X.D i) (X.T i) (X.K i) (X.V i) Unit) {ms : List Moment}
    (hsent : sent ms = []) (hfailed : ∀ i e, .failed i e ∉ ms) (hran : ∀ r, .ran r ∉ ms) :
    Done prog done todo (⟨s.main, chan, writer, s.log ++ ms⟩ : X.Sys) where
  prog_eq := h.prog_eq
  left := h.left
  sent_eq := by rw [sent_append, hsent, List.append_nil, h.sent_eq]
  got i hi := List.mem_append_left _ (h.got i hi)
  failed i e hi := h.failed i e ((List.mem_append.mp hi).resolve_right (hfailed i e))
  ranErr e he := h.ranErr e ((List.mem_append.mp he).resolve_right (hran _))
  ranOk hmain := List.mem_append_left _ (h.ranOk hmain)
  closure hmain := ⟨(h.closure hmain).1, fun r hr =>
    (h.closure hmain).2 r ((List.mem_append.mp hr).resolve_right (hran r))⟩
  order pre i post hlog := by
    obtain ⟨post', hlog'⟩ := flushSent_before hsent hlog
    exact h.order pre i post' hlog'

/-- While the call goes on, nothing has failed. -/
lemma Done.unfailed (h : Done prog done todo s) {is : List Instr} (hmain : s.main = .committing is) :
    (∀ i e, .failed i e ∉ s.log) ∧ (∀ e, .ran (.error e) ∉ s.log) ∧ .ran (.ok ()) ∈ s.log := by
  refine ⟨fun i e hi => ?_, fun e he => ?_, h.ranOk (Or.inr (Or.inl ⟨is, hmain⟩))⟩
  · rw [(h.failed i e hi).1] at hmain
    cases hmain
  · rw [(h.ranErr e he).1] at hmain
    cases hmain

/-- One instruction more is done. -/
lemma Done.advance {instr : Instr} (h : Done prog done (instr :: todo) s)
    (hmain : s.main = .committing (instr :: todo))
    (hrecv : ∀ i, instr = .recv i → .answered i (.ok ()) ∈ s.log) (chan : ∀ i, List (X.Cmd i))
    {ms : List Moment} (hms : ms = (flushes [instr]).map .flushSent) :
    Done prog (done ++ [instr]) todo (⟨.committing todo, chan, s.writer, s.log ++ ms⟩ : X.Sys) where
  prog_eq := by rw [h.prog_eq, List.append_assoc, List.singleton_append]
  left := rfl
  sent_eq := by
    rw [sent_append, h.sent_eq, flushes_append, hms]
    congr 1
    cases instr <;> rfl
  got i hi := by
    refine List.mem_append_left _ ?_
    rcases List.mem_append.mp hi with hi | hi
    · exact h.got i hi
    · exact hrecv i (List.mem_singleton.mp hi).symm
  failed i e hi := by
    refine absurd ((List.mem_append.mp hi).resolve_right ?_) ((h.unfailed hmain).1 i e)
    simp [hms]
  ranErr e he := by
    refine absurd ((List.mem_append.mp he).resolve_right ?_) ((h.unfailed hmain).2.1 e)
    simp [hms]
  ranOk _ := List.mem_append_left _ (h.unfailed hmain).2.2
  closure hclosure := by cases hclosure
  order pre i post hlog := by
    cases hf : flushes [instr] with
    | nil =>
      obtain ⟨post', hlog'⟩ := flushSent_before (by rw [hms, hf]; rfl) hlog
      exact h.order pre i post' hlog'
    | cons j js =>
      obtain rfl : js = [] := by
        have hlen : (flushes [instr]).length ≤ 1 := List.length_filterMap_le _ _
        rw [hf] at hlen
        exact List.length_eq_zero_iff.mp (by simpa using hlen)
      rw [hms, hf] at hlog
      rcases List.append_eq_append_iff.mp hlog with ⟨a, hpre, heq⟩ | ⟨c, hlog', heq⟩
      · -- the flush that is sent now
        cases a with
        | nil =>
          cases heq
          rw [List.append_nil] at hpre
          rw [hpre]
          exact ⟨(h.unfailed hmain).2.2, done, instr, todo, h.prog_eq, hf, h.got⟩
        | cons m a => simp at heq
      · cases c with
        | nil =>
          cases heq
          rw [List.append_nil] at hlog'
          rw [← hlog']
          exact ⟨(h.unfailed hmain).2.2, done, instr, todo, h.prog_eq, hf, h.got⟩
        | cons m c =>
          obtain ⟨rfl, -⟩ := List.cons.inj heq
          exact h.order pre i c hlog'

/-- The call ends with an error. -/
lemma Done.stop {instr : Instr} (h : Done prog done (instr :: todo) s)
    (hmain : s.main = .committing (instr :: todo)) (e : AppError) {ms : List Moment}
    (hms : ms = [] ∨ ms = [.failed instr.shard e]) :
    Done prog done (instr :: todo) (⟨.returned (.error e), s.chan, s.writer,
      s.log ++ ms⟩ : X.Sys) where
  prog_eq := h.prog_eq
  left := trivial
  sent_eq := by
    rw [sent_append, h.sent_eq]
    rcases hms with rfl | rfl <;> exact List.append_nil _
  got i hi := List.mem_append_left _ (h.got i hi)
  failed i e' hi := by
    have hmem := (List.mem_append.mp hi).resolve_left ((h.unfailed hmain).1 i e')
    rcases hms with rfl | rfl
    · cases hmem
    · cases List.mem_singleton.mp hmem
      exact ⟨rfl, instr, todo, rfl, rfl⟩
  ranErr e' he := by
    refine absurd ((List.mem_append.mp he).resolve_right ?_) ((h.unfailed hmain).2.1 e')
    rcases hms with rfl | rfl <;> simp
  ranOk _ := List.mem_append_left _ (h.unfailed hmain).2.2
  closure hclosure := by cases hclosure
  order pre i post hlog := by
    obtain ⟨post', hlog'⟩ := flushSent_before (by rcases hms with rfl | rfl <;> rfl) hlog
    exact h.order pre i post' hlog'

/-- The end of the closure. -/
lemma Done.ran (h : Done prog done todo s) (hmain : s.main = .closure) {main : MainState}
    {r : Except AppError Unit} (hr : r = .ok () ∧ main = .committing todo ∨ ∃ e, r = .error e ∧
      main = .returned (.error e)) :
    Done prog done todo (⟨main, s.chan, s.writer, s.log ++ [.ran r]⟩ : X.Sys) where
  prog_eq := h.prog_eq
  left := by rcases hr with ⟨-, rfl⟩ | ⟨e, -, rfl⟩ <;> trivial
  sent_eq := by
    rw [sent_append, h.sent_eq]
    exact List.append_nil _
  got i hi := List.mem_append_left _ (h.got i hi)
  failed i e hi := by
    have hmem := (List.mem_append.mp hi).resolve_right (by simp)
    rw [(h.failed i e hmem).1] at hmain
    cases hmain
  ranErr e he := by
    have hmem := (List.mem_append.mp he).resolve_left ((h.closure hmain).2 _)
    rcases hr with ⟨rfl, -⟩ | ⟨e', rfl, rfl⟩
    · simp at hmem
    · obtain rfl : e = e' := by simpa using hmem
      exact ⟨rfl, (h.closure hmain).1⟩
  ranOk hne := by
    rcases hr with ⟨rfl, -⟩ | ⟨e, rfl, rfl⟩
    · simp
    · simp [(h.closure hmain).1] at hne
  closure hclosure := by rcases hr with ⟨-, rfl⟩ | ⟨e, -, rfl⟩ <;> cases hclosure
  order pre i post hlog := by
    obtain ⟨post', hlog'⟩ := flushSent_before rfl hlog
    exact h.order pre i post' hlog'

lemma Done.todo_eq (h : Done prog done todo s) {is : List Instr} (hmain : s.main = .committing is) :
    todo = is := by
  have hleft := h.left
  rw [hmain] at hleft
  exact hleft.symm

/-- **Every move** keeps the account of the instructions. -/
lemma Done.moves {s' : X.Sys} (h : Done prog done todo s) (hm : s.Moves prog s') :
    ∃ done' todo', Done prog done' todo' s' := by
  have hsame : s.log ++ [] = s.log := List.append_nil _
  cases hm with
  | put i cmds hcmds =>
    have hnil : sent [] = [] := rfl
    have := h.record (Function.update s.chan i (s.chan i ++ cmds)) s.writer hnil (by simp) (by simp)
    rw [hsame] at this
    exact ⟨done, todo, this⟩
  | ranOk hmain =>
    obtain rfl : done = [] := (h.closure hmain).1
    obtain rfl : prog = todo := h.prog_eq
    exact ⟨[], prog, h.ran hmain (Or.inl ⟨rfl, rfl⟩)⟩
  | ranErr hmain e => exact ⟨done, todo, h.ran hmain (Or.inr ⟨e, rfl, rfl⟩)⟩
  | ends hmain =>
    obtain rfl := h.todo_eq hmain
    have hun := h.unfailed hmain
    refine ⟨done, [], ⟨h.prog_eq, rfl, h.sent_eq, h.got, fun i e hi => ?_, fun e he =>
      ?_, fun _ => hun.2.2, fun hclosure => ?_, h.order⟩⟩
    · exact absurd hi (hun.1 i e)
    · exact absurd he (hun.2.1 e)
    · cases hclosure
  | gotOk i rest hmain ha =>
    obtain rfl := h.todo_eq hmain
    have := h.advance hmain (fun j hj => by cases hj; exact ha) s.chan rfl
    rw [show (flushes [Instr.recv i]).map Moment.flushSent = [] from rfl, hsame] at this
    exact ⟨_, _, this⟩
  | gotErr i rest hmain e ha =>
    obtain rfl := h.todo_eq hmain
    have := h.stop hmain e (Or.inl rfl)
    rw [hsame] at this
    exact ⟨_, _, this⟩
  | fails instr rest hmain e =>
    obtain rfl := h.todo_eq hmain
    exact ⟨_, _, h.stop hmain e (Or.inr rfl)⟩
  | writes i rest hmain =>
    obtain rfl := h.todo_eq hmain
    have := h.advance hmain (fun j hj => by cases hj)
      (Function.update s.chan i (s.chan i ++ Sys.writeCmds i)) rfl
    rw [show (flushes [Instr.write i]).map Moment.flushSent = [] from rfl, hsame] at this
    exact ⟨_, _, this⟩
  | flushes instr i rest hmain hi cmd =>
    obtain rfl := h.todo_eq hmain
    refine ⟨_, _, h.advance hmain (fun j hj => ?_) (Function.update s.chan i (s.chan i ++ [cmd]))
      (by rw [hi]; rfl)⟩
    subst hj
    cases hi
  | serves i env cmd chan hchan fault =>
    refine ⟨done, todo, h.record _ _ (sent_moments i _) (fun j e hj => ?_) (fun r hr => ?_)⟩
    · rcases mem_moments hj with ⟨r, heq⟩ | ⟨heq, -⟩ <;> cases heq
    · rcases mem_moments hr with ⟨r, heq⟩ | ⟨heq, -⟩ <;> cases heq

end Done

/-! ### Every run -/

/-- The state after the moves `acts`. -/
def Reaches (X : ShardTables) (prog : List Instr) (db : ∀ i, X.D i) (acts : List X.Act)
    (s : X.Sys) : Prop :=
  sched (Sys.step prog) (X.start db) acts = some s

section Reaches

variable {prog : List Instr} {db : ∀ i, X.D i} {acts : List X.Act} {s : X.Sys}

/-- The invariant of a run: the books are right, and the program is split into what is done and what
is left. -/
def Inv (prog : List Instr) (db : ∀ i, X.D i) (s : X.Sys) : Prop :=
  Books db s ∧ ∃ done todo, Done prog done todo s

lemma Inv.step {s' : X.Sys} {a : X.Act} (h : Inv prog db s) (hstep : s.step prog a = some s') :
    Inv prog db s' := by
  obtain ⟨hbooks, done, todo, hdone⟩ := h
  have hm := Sys.moves_of_step hstep
  exact ⟨hbooks.moves hm, hdone.moves hm⟩

lemma Reaches.inv (h : X.Reaches prog db acts s) : Inv prog db s :=
  sched_inv (fun _ _ _ hinv hstep => hinv.step hstep) ⟨books_start db, [], prog, done_start prog db⟩ h

lemma mem_sent {log : List Moment} {i : ShardId} : i ∈ sent log ↔ .flushSent i ∈ log := by
  constructor
  · intro h
    obtain ⟨m, hm, heq⟩ := List.mem_filterMap.mp h
    cases m with
    | flushSent j =>
      cases heq
      exact hm
    | _ => cases heq
  · exact fun h => List.mem_filterMap.mpr ⟨_, h, rfl⟩

/-- An answer has a flush before it. -/
lemma Books.sent_of_answered (h : Books db s) {i : ShardId} (hpos : 0 < s.log.countP (isAnswer i)) :
    .flushSent i ∈ s.log := by
  refine mem_sent.mp (List.count_pos_iff.mp ?_)
  have := h.count i
  omega

lemma countP_pos_of_answered {log : List Moment} {i : ShardId} {r : Except AppError Unit}
    (h : .answered i r ∈ log) :
    0 < log.countP (isAnswer i) := List.countP_pos_iff.mpr ⟨_, h, by simp [isAnswer]⟩

/-- All flushes that have been sent have their answers, and the thread that commits has no move. -/
def Sys.Settled (prog : List Instr) (s : X.Sys) : Prop :=
  (∀ i, .flushSent i ∈ s.log → ∃ r, .answered i r ∈ s.log) ∧
    ∀ deferred, s.step prog (.main deferred none) = none

/-- **The call waits for nothing but the answer to a flush.** -/
lemma Sys.Settled.returned {refs : List Component} (hset : s.Settled (twoPhaseCommit refs))
    (h : X.Reaches (twoPhaseCommit refs) db acts s) (hmain : s.main ≠ .closure) :
    ∃ r, s.main = .returned r := by
  obtain ⟨-, done, todo, hdone⟩ := h.inv
  have hno := hset.2 false
  cases hs : s.main with
  | closure => exact absurd hs hmain
  | returned r => exact ⟨r, rfl⟩
  | committing is =>
    obtain rfl := hdone.todo_eq hs
    simp only [step, hs] at hno
    cases todo with
    | nil => cases hno
    | cons instr todo =>
      cases instr with
      | recv i =>
        have hsent : i ∈ flushes done := flushed_before_recv hdone.prog_eq
        rw [← hdone.sent_eq, mem_sent] at hsent
        obtain ⟨r, hr⟩ := hset.1 i hsent
        cases hans : answer i s.log with
        | none => exact absurd hr (answer_none hans r)
        | some r' => cases r' <;> simp [exec, hans] at hno
      | _ => cases hno

/-- The moves of the thread that commits. -/
def Act.isMain : X.Act → Bool
  | .main _ _ => true
  | _ => false

lemma moves_step {s' : X.Sys} {a : X.Act} (h : s.step prog a = some s') :
    s'.main.moves prog + (if a.isMain then 1 else 0) ≤ s.main.moves prog := by
  cases a with
  | put i cmd =>
    simp only [Sys.step] at h
    split at h
    · cases h
    · cases h
      exact Nat.le_refl _
  | closure r =>
    simp only [Sys.step] at h
    split at h
    · next hmain =>
      cases h
      rw [hmain]
      exact Nat.le_refl _
    · cases h
      exact Nat.zero_le _
    · cases h
  | main deferred fault =>
    simp only [Sys.step] at h
    split at h
    · next hmain =>
      cases h
      rw [hmain]
      exact Nat.le_refl _
    · next instr todo hmain =>
      rw [hmain]
      have hlen : (MainState.committing (instr :: todo)).moves prog = todo.length + 1 + 1 := rfl
      have hnext : s'.main = .committing todo ∨ ∃ r, s'.main = .returned r := by
        unfold Sys.exec at h
        split at h
        · split at h <;> cases h <;> simp [Sys.fail]
        all_goals split at h <;> cases h <;> simp [Sys.fail, Sys.sendFlush, Sys.push]
      rcases hnext with hs' | ⟨r, hs'⟩
      · rw [hs', hlen]
        exact Nat.le_refl _
      · rw [hs', hlen]
        simp [MainState.moves, Act.isMain]
    · cases h
  | thread i env fault =>
    simp only [Sys.step] at h
    split at h
    · cases h
    · cases h
      exact Nat.le_refl _

/-- The call makes no more moves than it has instructions, and two. -/
lemma Reaches.moves_le (h : X.Reaches prog db acts s) : acts.countP Act.isMain ≤ prog.length + 1 := by
  have hall : ∀ (acts : List X.Act) (s s' : X.Sys), sched (Sys.step prog) s acts = some s' →
      acts.countP Act.isMain + s'.main.moves prog ≤ s.main.moves prog := by
    intro acts
    induction acts with
    | nil =>
      intro s s' hs
      cases hs
      simp
    | cons a acts ih =>
      intro s s' hs
      obtain ⟨t, ht, hrest⟩ := sched_cons_eq_some.mp hs
      have hstep := moves_step ht
      have := ih t s' hrest
      rw [List.countP_cons]
      omega
  have := hall acts _ s h
  simp only [start, MainState.moves] at this
  omega

end Reaches

/-! ### The root key -/

section Root

variable {others : List Component} {db : ∀ i, X.D i} {acts : List X.Act} {s : X.Sys}

/-- **The root key is flushed last**, after the answers of all others. -/
lemma Reaches.root_last (h : X.Reaches (twoPhaseCommit (others ++ [rootWriter])) db acts s)
    {pre post : List Moment} (hlog : s.log = pre ++ .flushSent (rootShard others) :: post) :
    .ran (.ok ()) ∈ pre ∧ ∀ j ∈ otherShards others, .answered j (.ok ()) ∈ pre := by
  obtain ⟨-, done, todo, hdone⟩ := h.inv
  obtain ⟨hran, before, instr, after, hprog, hinstr, hgot⟩ := hdone.order pre _ post hlog
  refine ⟨hran, fun j hj => hgot j ?_⟩
  have hmem : rootShard others ∈ flushes (before ++ [instr]) := by
    rw [flushes_append, hinstr]
    exact List.mem_append_right _ (List.mem_singleton_self _)
  have hprog' : twoPhaseCommit (others ++ [rootWriter]) = (before ++ [instr]) ++ after := by
    rw [hprog]; simp
  have hpre := beforeRoot_isPrefix others hprog' hmem
  have hrecv : .recv j ∈ before ++ [instr] :=
    hpre.subset (List.mem_append_left _ (recv_mem_beforeRoot others hj))
  refine (List.mem_append.mp hrecv).resolve_right fun heq => ?_
  rw [← List.mem_singleton.mp heq] at hinstr
  cases hinstr

/-- The root key is committed after all others. -/
lemma Reaches.committed_before_root (h : X.Reaches (twoPhaseCommit (others ++ [rootWriter])) db acts s)
    (hroot : .committed (rootShard others) ∈ s.log) {j : ShardId} (hj : j ∈ otherShards others) :
    .committed j ∈ s.log := by
  obtain ⟨hbooks, -⟩ := h.inv
  obtain ⟨pre, post, hlog⟩ := List.append_of_mem (hbooks.sent_of_answered (hbooks.committed _ hroot))
  refine hbooks.answered j ?_
  rw [hlog]
  exact List.mem_append_left _ ((h.root_last hlog).2 j hj)

/-- The commit of the shard `i`. -/
def isCommit (i : ShardId) : Moment → Bool
  | .committed j => j = i
  | _ => false

lemma any_isCommit {log : List Moment} {i : ShardId} :
    log.any (isCommit i) = true ↔ .committed i ∈ log := by
  rw [List.any_eq_true]
  constructor
  · rintro ⟨m, hm, heq⟩
    cases m with
    | committed j =>
      obtain rfl : j = i := by simpa [isCommit] using heq
      exact hm
    | _ => cases heq
  · exact fun h => ⟨_, h, by simp [isCommit]⟩

/-- A failure before the flush of the root key: of the closure, or of another shard, which answers
with an error, or which a command does not reach, or whose answer does not come. -/
def FailedBefore (others : List Component) (log : List Moment) : Prop :=
  (∃ e, .ran (.error e) ∈ log) ∨
    ∃ j ∈ otherShards others, ∃ e, .answered j (.error e) ∈ log ∨ .failed j e ∈ log

lemma Reaches.answers_le (h : X.Reaches (twoPhaseCommit (others ++ [rootWriter])) db acts s)
    (i : ShardId) : s.log.countP (isAnswer i) ≤ 1 := by
  obtain ⟨hbooks, done, todo, hdone⟩ := h.inv
  have hnodup := nodup_flushes (others ++ [rootWriter])
  rw [hdone.prog_eq, flushes_append] at hnodup
  have hone : (sent s.log).count i ≤ 1 := by
    rw [hdone.sent_eq]
    exact List.nodup_iff_count_le_one.mp hnodup.of_append_left i
  have := hbooks.count i
  omega

/-- After such a failure the root key is not flushed. -/
lemma Reaches.root_unsent (h : X.Reaches (twoPhaseCommit (others ++ [rootWriter])) db acts s)
    (hfail : FailedBefore others s.log) : .flushSent (rootShard others) ∉ s.log := by
  obtain ⟨-, done, todo, hdone⟩ := h.inv
  intro hsent
  obtain ⟨pre, post, hlog⟩ := List.append_of_mem hsent
  obtain ⟨hran, hans⟩ := h.root_last hlog
  have hmem : rootShard others ∈ flushes done := by rwa [← hdone.sent_eq, mem_sent]
  have hprefix := beforeRoot_isPrefix others hdone.prog_eq hmem
  rcases hfail with ⟨e, he⟩ | ⟨j, hj, e, he | he⟩
  · -- the closure has failed, so nothing was done
    have hnil := (hdone.ranErr e he).2
    rw [hnil] at hmem
    cases hmem
  · have hok : .answered j (.ok ()) ∈ s.log := hlog ▸ List.mem_append_left _ (hans j hj)
    cases eq_of_answered (h.answers_le j) he hok
  · -- what is left after the flush of the root is to wait for it
    obtain ⟨-, instr, rest, htodo, hshard⟩ := hdone.failed j e he
    obtain ⟨more, hmore⟩ := hprefix
    have hprog := hdone.prog_eq
    rw [twoPhaseCommit_root, ← hmore, htodo] at hprog
    have hrecv : [Instr.recv (rootShard others)] = more ++ instr :: rest := by simpa using hprog
    have hinstr : instr ∈ [Instr.recv (rootShard others)] :=
      hrecv ▸ List.mem_append_right _ List.mem_cons_self
    rw [List.mem_singleton.mp hinstr] at hshard
    have hroot : rootShard others = j := hshard
    exact rootShard_notMem others (hroot ▸ hj)

/-- **Nothing of the root key is committed after a failure**, and the call does not return `Ok`. -/
lemma Reaches.root_kept (h : X.Reaches (twoPhaseCommit (others ++ [rootWriter])) db acts s)
    (hfail : FailedBefore others s.log) :
    .committed (rootShard others) ∉ s.log ∧ (s.writer (rootShard others)).db = db (rootShard others) ∧
      s.main ≠ .returned (.ok ()) ∧ s.main ≠ .closure := by
  obtain ⟨hbooks, done, todo, hdone⟩ := h.inv
  have hunsent := h.root_unsent hfail
  have hcommitted : .committed (rootShard others) ∉ s.log := fun hmem =>
    hunsent (hbooks.sent_of_answered (hbooks.committed _ hmem))
  refine ⟨hcommitted, hbooks.db_eq _ hcommitted, fun hmain => ?_, fun hmain => ?_⟩
  · -- a call that returns `Ok` has sent all flushes
    have hleft := hdone.left
    rw [hmain] at hleft
    have hprog := hdone.prog_eq
    rw [show todo = [] from hleft, List.append_nil] at hprog
    refine hunsent (mem_sent.mp ?_)
    rw [hdone.sent_eq, ← hprog, twoPhaseCommit_root, flushes_append]
    exact List.mem_append_right _ (by simp [flushes])
  · obtain ⟨hnil, hran⟩ := hdone.closure hmain
    rcases hfail with ⟨e, he⟩ | ⟨j, hj, e, he | he⟩
    · exact hran _ he
    · have hsent := hbooks.sent_of_answered (countP_pos_of_answered he)
      rw [← mem_sent, hdone.sent_eq, hnil] at hsent
      cases hsent
    · rw [(hdone.failed j e he).1] at hmain
      cases hmain

end Root

end ShardTables

end Redbit.Storage
