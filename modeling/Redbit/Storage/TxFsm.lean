import Redbit.Storage.WriteTable
import Redbit.Storage.SortBuffer

/-!
# The writer thread (`tx_fsm.rs`, `table_writer_api.rs`)

Each shard of a column has a thread of its own, which owns the tables of the shard and takes its
commands from one channel.  `Begin` opens a write transaction; inside it an inner loop drains the
channel in batches until a flush, a shutdown or an error that has somebody to tell ends the
transaction.

What the code outside the thread decides is given by `Env`, and whether the table access of a
command fails comes with the command (`Fault`).  Times and the statistics built from them are left
out, and so is the durability of `Begin`, which is only handed on to redb.
-/

namespace Redbit.Storage

open Redbit.Lib

/-! ### Messages -/

/-- `AppError`. -/
inductive AppError where
  | custom (msg : String)
  | recv
  | send
  | storage (code : ℕ)
  deriving DecidableEq, Repr

/-- `WriterCommand`, with channels of type `A` for the acknowledgements and sinks of type `S`. -/
inductive WriterCommand (K V A S : Type) where
  | begin (ack : A)
  | writeSortedInsertsOnFlush (kvs : List (K × V))
  | writeInsertNow (k : K) (v : V)
  | appendSortedInserts (kvs : List (K × V))
  | mergeUnsortedInserts (kvs : List (K × V))
  | remove (k : K) (ack : A)
  | queryAndWrite (lastShards : Option ℕ) (values : List (ℕ × V)) (sink : S)
  | range (lo hi : K) (ack : A)
  | flush (sender : A)
  | flushWhenReady (ack : A)
  | readyForFlush (total : ℕ)
  | shutdown (ack : A)

/-- What a thread lets others see: the answers it sends, the calls of a sink, and its commits. -/
inductive Event (K V A S : Type) where
  | started (ack : A) (r : Except AppError Unit)
  | flushed (ack : A) (r : Except AppError Unit)
  | removed (ack : A) (r : Bool)
  | ranged (ack : A) (rows : List (K × V))
  | stopped (ack : A)
  | sunk (sink : S) (lastShards : Option ℕ) (out : List (ℕ × Option K))
  | committed

/-- `FlushState`. -/
structure FlushState (A : Type) where
  sender : Option A
  sum : ℕ
  shards : Option ℕ

/-- `Control`; its variants that no function of the thread returns are left out. -/
inductive Control (A : Type) where
  | continue
  | commit (sender : A) (r : Except AppError Unit)
  | error (sender : A) (err : AppError)
  | shutdown (ack : A)

/-- What `step` returns, or that it panics. -/
inductive Outcome (A : Type) where
  | ok (ctrl : Control A)
  | err (e : AppError)
  | panic

/-- The outcome of `begin_write`, `set_durability` and `open_for_write`. -/
inductive Begun where
  | closed
  | refused (e : AppError)
  | opened

/-- What is decided outside the thread: how a `Begin` and a commit end, whether the other end of a
channel is still there, and what a sink returns. -/
structure Env (K A S : Type) where
  begin : A → Begun
  commit : A → Except AppError Unit
  connected : A → Bool
  runSink : S → Option ℕ → List (ℕ × Option K) → Except AppError Unit

/-- Everything outside the thread works. -/
def Env.fine {K A S : Type} : Env K A S where
  begin _ := .opened
  commit _ := .ok ()
  connected _ := true
  runSink _ _ _ := .ok ()

/-- The fate of the table access of a command: it goes through, or it fails and leaves some table
behind. -/
abbrev Fault (T : Type) := Option (AppError × T)

/-! ### `TxState` -/

/-- `TxState`. -/
structure TxState (T K V A : Type) where
  table : T
  asyncMergeBuf : MergeBuffer K V
  deferred : Option (FlushState A)
  writeError : Option AppError

/-- The state at the start of a transaction. -/
def TxState.new {T K V A : Type} (table : T) : TxState T K V A := ⟨table, MergeBuffer.new, none, none⟩

/-- The state after a step, what the step showed, and what it returned. -/
structure Stepped (T K V A S : Type) where
  state : TxState T K V A
  events : List (Event K V A S)
  outcome : Outcome A

/-- The buffer compares keys by their order. -/
instance orientedOrd {K : Type} [LinearOrder K] : Std.OrientedOrd K := inferInstance

section Machine

variable {D T K V A S : Type} [LinearOrder K] (W : WriteTable D T K V) (env : Env K A S)

namespace TxState

/-- `TxState::flush`. -/
def flush (st : TxState T K V A) (fault : Fault T) (sender : A) : Stepped T K V A S :=
  match st.writeError with
  | some e => ⟨{ st with writeError := none }, [], .ok (.error sender e)⟩
  | none =>
    let kvs := st.asyncMergeBuf.takeSorted.1
    let st := { st with asyncMergeBuf := MergeBuffer.new }
    if kvs = [] then ⟨st, [], .ok (.commit sender (.ok ()))⟩
    else match fault with
      | some (e, table) => ⟨{ st with table := table }, [], .ok (.commit sender (.error e))⟩
      | none =>
        ⟨{ st with table := W.insertManySortedByKey st.table kvs }, [], .ok (.commit sender (.ok ()))⟩

/-- The end of `FlushWhenReady` and of `ReadyForFlush`: a flush that waits is made once all shards are
ready. -/
def flushIfReady (st : TxState T K V A) (fault : Fault T) : Stepped T K V A S :=
  match st.deferred with
  | some ⟨some ack, sum, some total⟩ =>
    if sum = total then st.flush W fault ack else ⟨st, [], .ok .continue⟩
  | _ => ⟨st, [], .ok .continue⟩

/-- The lookups of `QueryAndWrite`. -/
def lookupAll (f : T → V → Option K × T) (t : T) : List (ℕ × V) → List (ℕ × Option K) × T
  | [] => ([], t)
  | (idx, v) :: values =>
    let r := f t v
    let rest := lookupAll f r.2 values
    ((idx, r.1) :: rest.1, rest.2)

/-- The call of the sink, whose error is the error of the command. -/
def sink (st : TxState T K V A) (s : S) (lastShards : Option ℕ) (out : List (ℕ × Option K)) :
    Stepped T K V A S :=
  match env.runSink s lastShards out with
  | .ok () => ⟨st, [.sunk s lastShards out], .ok .continue⟩
  | .error e => ⟨st, [.sunk s lastShards out], .err e⟩

/-- The `QueryAndWrite` branch of `step`. -/
def queryAndWrite (st : TxState T K V A) (fault : Fault T) (lastShards : Option ℕ)
    (values : List (ℕ × V)) (s : S) : Stepped T K V A S :=
  if values = [] then
    if lastShards.isSome then st.sink env s lastShards [] else ⟨st, [], .ok .continue⟩
  else match W.getAnyForIndex with
    | none => ⟨st, [], .panic⟩
    | some f =>
      match fault with
      | some (e, table) => ⟨{ st with table := table }, [], .err e⟩
      | none =>
        let r := lookupAll f st.table values
        { st with table := r.2 }.sink env s lastShards r.1

/-- An answer that must reach its receiver: `ack.send(..)?`. -/
def answer (st : TxState T K V A) (ack : A) (event : Event K V A S) : Stepped T K V A S :=
  if env.connected ack then ⟨st, [event], .ok .continue⟩ else ⟨st, [], .err .send⟩

/-- `TxState::step`. -/
def step (st : TxState T K V A) (fault : Fault T) : WriterCommand K V A S → Stepped T K V A S
  | .writeInsertNow k v =>
    match fault with
    | some (e, table) => ⟨{ st with table := table }, [], .err e⟩
    | none => ⟨{ st with table := W.insertKv st.table k v }, [], .ok .continue⟩
  | .mergeUnsortedInserts kvs =>
    ⟨{ st with asyncMergeBuf := st.asyncMergeBuf.mergeUnsorted kvs }, [], .ok .continue⟩
  | .appendSortedInserts kvs =>
    ⟨{ st with asyncMergeBuf := st.asyncMergeBuf.appendSorted kvs }, [], .ok .continue⟩
  | .writeSortedInsertsOnFlush kvs =>
    if st.asyncMergeBuf.isEmpty then
      ⟨{ st with asyncMergeBuf := MergeBuffer.fromSorted kvs }, [], .ok .continue⟩
    else ⟨st, [], .err (.custom "WriteSortedInserts cannot be mixed with SortInserts now")⟩
  | .remove k ack =>
    match fault with
    | some (e, table) => ⟨{ st with table := table }, [], .err e⟩
    | none =>
      let r := W.deleteKv st.table k
      { st with table := r.2 }.answer env ack (.removed ack r.1)
  | .queryAndWrite lastShards values s => st.queryAndWrite W env fault lastShards values s
  | .range lo hi ack =>
    match W.range with
    | none => ⟨st, [], .panic⟩
    | some f =>
      match fault with
      | some (e, table) => ⟨{ st with table := table }, [], .err e⟩
      | none => st.answer env ack (.ranged ack (f st.table lo hi))
  | .flushWhenReady ack =>
    match st.deferred with
    | some ⟨some _, _, _⟩ => ⟨st, [], .ok (.error ack (.custom "flush already pending"))⟩
    | some ⟨none, sum, shards⟩ =>
      { st with deferred := some ⟨some ack, sum, shards⟩ }.flushIfReady W fault
    | none => { st with deferred := some ⟨some ack, 0, none⟩ }.flushIfReady W fault
  | .readyForFlush total =>
    match st.deferred with
    | some ⟨sender, sum, _⟩ =>
      { st with deferred := some ⟨sender, sum + 1, some total⟩ }.flushIfReady W fault
    | none => { st with deferred := some ⟨none, 1, some total⟩ }.flushIfReady W fault
  | .flush sender => st.flush W fault sender
  | .shutdown ack => ⟨st, [], .ok (.shutdown ack)⟩
  | .begin _ => ⟨st, [], .panic⟩

end TxState

/-! ### The thread -/

/-- Where the thread is: at the outer `recv`, in the inner loop, or at its end. -/
inductive Phase (T K V A : Type) where
  | outside
  | inTx (st : TxState T K V A)
  | ended

/-- A writer: the committed tables and where its thread is. -/
structure Writer (D T K V A : Type) where
  db : D
  phase : Phase T K V A

/-- A command on the channel, with the fate of its table access. -/
abbrev Input (T K V A S : Type) := WriterCommand K V A S × Fault T

/-- What the inner loop does with the result of a step.  Leaving the loop without a commit drops the
transaction, and so does a panic. -/
def settle (db : D) (r : Stepped T K V A S) : Writer D T K V A × List (Event K V A S) :=
  match r.outcome with
  | .ok .continue => (⟨db, .inTx r.state⟩, r.events)
  | .ok (.error sender e) => (⟨db, .outside⟩, r.events ++ [.flushed sender (.error e)])
  | .ok (.commit sender (.error e)) => (⟨db, .outside⟩, r.events ++ [.flushed sender (.error e)])
  | .ok (.commit sender (.ok ())) =>
    match env.commit sender with
    | .ok () => (⟨W.tables r.state.table, .outside⟩,
        r.events ++ [.committed, .flushed sender (.ok ())])
    | .error e => (⟨db, .outside⟩, r.events ++ [.flushed sender (.error e)])
  | .ok (.shutdown ack) =>
    let pending := match r.state.deferred with
      | some ⟨some sender, _, _⟩ => [.flushed sender (.error (.custom "aborted"))]
      | _ => []
    (⟨db, .ended⟩, r.events ++ pending ++ [.stopped ack])
  | .err e => (⟨db, .inTx { r.state with writeError := some e }⟩, r.events)
  | .panic => (⟨db, .ended⟩, r.events)

/-- The outer loop: only `Begin` goes on from here. -/
def beginOrEnd (db : D) : WriterCommand K V A S → Writer D T K V A × List (Event K V A S)
  | .begin ack =>
    match env.begin ack with
    | .closed => (⟨db, .ended⟩, [.started ack (.error (.custom "database closed"))])
    | .refused e => (⟨db, .outside⟩, [.started ack (.error e)])
    | .opened => (⟨db, .inTx (TxState.new (W.openForWrite db))⟩, [.started ack (.ok ())])
  | .shutdown ack => (⟨db, .ended⟩, [.stopped ack])
  | _ => (⟨db, .ended⟩, [])

/-- One command taken from the channel.  A thread that has ended takes none. -/
def feed (w : Writer D T K V A) (i : Input T K V A S) : Writer D T K V A × List (Event K V A S) :=
  match w.phase with
  | .ended => (w, [])
  | .outside => beginOrEnd W env w.db i.1
  | .inTx st => settle W env w.db (st.step W env i.2 i.1)

/-- One command after the other. -/
def feedAll (w : Writer D T K V A) : List (Input T K V A S) → Writer D T K V A × List (Event K V A S)
  | [] => (w, [])
  | i :: is => ((feedAll (feed W env w i).1 is).1,
      (feed W env w i).2 ++ (feedAll (feed W env w i).1 is).2)

/-- `TxState::drain_batch`: one command and then those `try_iter` finds, up to the first that does not
return `Continue`; with the commands it leaves on the channel. -/
def drainBatch (st : TxState T K V A) (i : Input T K V A S) :
    List (Input T K V A S) → Stepped T K V A S × List (Input T K V A S)
  | [] => (st.step W env i.2 i.1, [])
  | j :: more =>
    let r := st.step W env i.2 i.1
    match r.outcome with
    | .ok .continue =>
      let rest := drainBatch r.state j more
      ({ rest.1 with events := r.events ++ rest.1.events }, rest.2)
    | _ => (r, j :: more)

/-- A thread whose channel holds the commands `chan` and has no senders any more, with all it
showed. -/
structure Thread (D T K V A S : Type) where
  writer : Writer D T K V A
  chan : List (Input T K V A S)
  events : List (Event K V A S)

/-- One turn of the loop the thread is in.  In the inner loop `try_iter` finds `more` further
commands; a `recv` on the empty channel is an error, which ends the outer loop, and in the inner
loop is recorded like every other error. -/
def turn (th : Thread D T K V A S) (more : ℕ) : Thread D T K V A S :=
  match th.writer.phase, th.chan with
  | .ended, _ => th
  | .outside, [] => { th with writer := ⟨th.writer.db, .ended⟩ }
  | .outside, i :: chan =>
    let r := beginOrEnd W env th.writer.db i.1
    ⟨r.1, chan, th.events ++ r.2⟩
  | .inTx st, [] => { th with writer := ⟨th.writer.db, .inTx { st with writeError := some .recv }⟩ }
  | .inTx st, i :: chan =>
    let r := drainBatch W env st i (chan.take more)
    let w := settle W env th.writer.db r.1
    ⟨w.1, r.2 ++ chan.drop more, th.events ++ w.2⟩

/-! ### One command -/

variable {W env}

/-- How a flush ends: with the recorded error, with an error of the insert, or with all pairs
inserted. -/
lemma flush_cases (st : TxState T K V A) (fault : Fault T) (sender : A) :
    (st.flush W fault sender : Stepped T K V A S).events = [] ∧
    ((∃ e, (st.flush W fault sender : Stepped T K V A S).outcome = .ok (.error sender e)) ∨
      (∃ e, (st.flush W fault sender : Stepped T K V A S).outcome = .ok (.commit sender (.error e))) ∨
      st.writeError = none ∧
        (st.flush W fault sender : Stepped T K V A S).outcome = .ok (.commit sender (.ok ())) ∧
        (st.flush W fault sender : Stepped T K V A S).state.table =
          W.insertManySortedByKey st.table st.asyncMergeBuf.takeSorted.1) := by
  unfold TxState.flush
  cases herr : st.writeError with
  | some e => exact ⟨rfl, Or.inl ⟨e, rfl⟩⟩
  | none =>
    dsimp only
    split
    · next hnil =>
      refine ⟨rfl, Or.inr (Or.inr ⟨rfl, rfl, ?_⟩)⟩
      rw [hnil, W.insertMany_nil]
    · cases fault with
      | some f => exact ⟨rfl, Or.inr (Or.inl ⟨f.1, rfl⟩)⟩
      | none => exact ⟨rfl, Or.inr (Or.inr ⟨rfl, rfl, rfl⟩)⟩

/-- A flush that waits either goes on waiting or is made. -/
lemma flushIfReady_cases (st : TxState T K V A) (fault : Fault T) :
    (st.flushIfReady W fault : Stepped T K V A S) = ⟨st, [], .ok .continue⟩ ∨
      ∃ ack, (st.flushIfReady W fault : Stepped T K V A S) = st.flush W fault ack := by
  unfold TxState.flushIfReady
  split
  · split
    · exact Or.inr ⟨_, rfl⟩
    · exact Or.inl rfl
  · exact Or.inl rfl

omit [LinearOrder K] in
lemma state_sink (st : TxState T K V A) (s : S) (lastShards : Option ℕ) (out : List (ℕ × Option K)) :
    (st.sink env s lastShards out).state = st := by
  unfold TxState.sink
  split <;> rfl

omit [LinearOrder K] in
lemma state_answer (st : TxState T K V A) (ack : A) (event : Event K V A S) :
    (st.answer env ack event).state = st := by
  unfold TxState.answer
  split <;> rfl

/-! ### Batches do not matter -/

lemma feedAll_append (w : Writer D T K V A) (is js : List (Input T K V A S)) :
    feedAll W env w (is ++ js) = ((feedAll W env (feedAll W env w is).1 js).1,
      (feedAll W env w is).2 ++ (feedAll W env (feedAll W env w is).1 js).2) := by
  induction is generalizing w with
  | nil => rfl
  | cons i is ih => simp only [List.cons_append, feedAll, ih, List.append_assoc]

lemma feedAll_ended (db : D) (is : List (Input T K V A S)) :
    feedAll W env ⟨db, .ended⟩ is = (⟨db, .ended⟩, []) := by
  induction is with
  | nil => rfl
  | cons i is ih => simp [feedAll, feed, ih]

omit [LinearOrder K] in
lemma settle_events (db : D) (r : Stepped T K V A S) (ev : List (Event K V A S)) :
    settle W env db { r with events := ev ++ r.events } =
      ((settle W env db r).1, ev ++ (settle W env db r).2) := by
  obtain ⟨st, events, outcome⟩ := r
  unfold settle
  dsimp only
  split
  case h_4 sender => cases env.commit sender <;> simp only [List.append_assoc]
  all_goals first | rfl | simp only [List.append_assoc]

variable (W env) in
/-- A batch takes some commands off the channel, at least one, and does with them what taking them
one by one does. -/
lemma drainBatch_spec (db : D) (st : TxState T K V A) (i : Input T K V A S)
    (more : List (Input T K V A S)) :
    ∃ used, i :: more = i :: used ++ (drainBatch W env st i more).2 ∧
      settle W env db (drainBatch W env st i more).1 = feedAll W env ⟨db, .inTx st⟩ (i :: used) := by
  induction more generalizing st i with
  | nil => exact ⟨[], rfl, by simp [drainBatch, feedAll, feed]⟩
  | cons j more ih =>
    unfold drainBatch
    dsimp only
    split
    · next hout =>
      obtain ⟨used, hused, hset⟩ := ih (st.step W env i.2 i.1).state j
      have hfeed : feed W env ⟨db, .inTx st⟩ i =
          (⟨db, .inTx (st.step W env i.2 i.1).state⟩, (st.step W env i.2 i.1).events) := by
        simp only [feed, settle, hout]
      refine ⟨j :: used, by rw [hused]; rfl, ?_⟩
      rw [settle_events, hset]
      conv_rhs => rw [feedAll, hfeed]
    · exact ⟨[], rfl, by simp [feedAll, feed]⟩

/-- What the failing `recv` on the empty channel makes of the writer `w`. -/
def Cut (w w' : Writer D T K V A) : Prop :=
  w.phase = .outside ∧ w' = ⟨w.db, .ended⟩ ∨
    ∃ st, w.phase = .inTx st ∧ w' = ⟨w.db, .inTx { st with writeError := some .recv }⟩

variable (W env) in
/-- The thread `th` has taken the first commands of `cmds` one by one, and possibly run into the end
of the channel. -/
def Thread.Took (w : Writer D T K V A) (cmds : List (Input T K V A S))
    (th : Thread D T K V A S) : Prop :=
  ∃ used, cmds = used ++ th.chan ∧ th.events = (feedAll W env w used).2 ∧
    (th.writer = (feedAll W env w used).1 ∨ th.chan = [] ∧ Cut (feedAll W env w used).1 th.writer)

lemma Thread.took_start (w : Writer D T K V A) (cmds : List (Input T K V A S)) :
    Thread.Took W env w cmds ⟨w, cmds, []⟩ := ⟨[], rfl, rfl, Or.inl rfl⟩

/-- Taking the commands `js` next. -/
lemma Thread.Took.more {w w' : Writer D T K V A} {cmds used chan : List (Input T K V A S)}
    {events : List (Event K V A S)} (js : List (Input T K V A S)) (hcmds : cmds = used ++ (js ++ chan))
    (hev : events = (feedAll W env w used).2) (hw : w' = (feedAll W env w used).1) :
    Thread.Took W env w cmds ⟨(feedAll W env w' js).1, chan, events ++ (feedAll W env w' js).2⟩ := by
  subst hw hev
  refine ⟨used ++ js, by rw [hcmds, List.append_assoc], ?_, Or.inl ?_⟩
  · rw [feedAll_append]
  · rw [feedAll_append]

/-- **However the commands are batched**, the thread takes them one by one. -/
lemma Thread.Took.turn {w : Writer D T K V A} {cmds : List (Input T K V A S)} {th : Thread D T K V A S}
    (h : Thread.Took W env w cmds th) (more : ℕ) : Thread.Took W env w cmds (turn W env th more) := by
  obtain ⟨used, hcmds, hev, hw⟩ := h
  obtain ⟨⟨db, phase⟩, chan, events⟩ := th
  dsimp only at hcmds hev hw
  cases phase with
  | ended => exact ⟨used, hcmds, hev, hw⟩
  | outside =>
    have hthis : ⟨db, .outside⟩ = (feedAll W env w used).1 := by
      rcases hw with hw | ⟨-, ⟨-, hw⟩ | ⟨st, -, hw⟩⟩
      · exact hw
      · cases hw
      · cases hw
    cases chan with
    | nil => exact ⟨used, hcmds, hev, Or.inr ⟨rfl, Or.inl (by rw [← hthis]; exact ⟨rfl, rfl⟩)⟩⟩
    | cons i chan =>
      have htook := Thread.Took.more [i] hcmds hev hthis
      simp only [feedAll, feed, List.append_nil] at htook
      exact htook
  | inTx st =>
    cases chan with
    | nil =>
      refine ⟨used, hcmds, hev, Or.inr ⟨rfl, Or.inr ?_⟩⟩
      rcases hw with hw | ⟨-, ⟨-, hw⟩ | ⟨st', hphase, hw⟩⟩
      · exact ⟨st, by rw [← hw], by rw [← hw]; rfl⟩
      · cases hw
      · obtain ⟨rfl, hst⟩ := Writer.mk.inj hw
        cases hst
        exact ⟨st', hphase, rfl⟩
    | cons i chan =>
      have hthis : ⟨db, .inTx st⟩ = (feedAll W env w used).1 := by
        rcases hw with hw | ⟨hnil, -⟩
        · exact hw
        · cases hnil
      obtain ⟨js, hjs, hset⟩ := drainBatch_spec W env db st i (chan.take more)
      have hcmds' : cmds = used ++ ((i :: js) ++
          ((drainBatch W env st i (chan.take more)).2 ++ chan.drop more)) := by
        rw [hcmds, ← List.append_assoc (i :: js), ← hjs, List.cons_append, List.take_append_drop]
      have htook := Thread.Took.more (i :: js) hcmds' hev hthis
      rw [← hset] at htook
      exact htook

end Machine

end Redbit.Storage
