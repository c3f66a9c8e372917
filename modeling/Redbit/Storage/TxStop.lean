import Redbit.Storage.TxFsm

/-!
# When a writer thread stops

Once all senders of its channel are gone, a thread that has taken its last command runs into the
error of `recv`.  The outer loop ends on it.  The inner loop records it as the error of the
transaction and goes on, to the same error again: a thread left inside a transaction spins for ever.
So the thread stops exactly if its commands do not leave a transaction open, which `Scope` reads off
the commands alone.
-/

namespace Redbit.Storage

open Redbit.Lib

variable {D T K V A S : Type} [LinearOrder K]

/-! ### What the commands leave open -/

/-- Where a thread is, as far as the commands decide it: inside a transaction only the flush that waits
counts. -/
inductive Scope (A : Type) where
  | outside
  | inTx (deferred : Option (FlushState A))
  | ended

section Machine

variable (W : WriteTable D T K V) (env : Env K A S)

/-- A waiting flush is made when all shards are ready, and this ends the transaction. -/
def Scope.waits (d : FlushState A) : Scope A :=
  if d.sender.isSome ∧ d.shards = some d.sum then .outside else .inTx (some d)

/-- The scope after a command.  Inside a transaction a flush, a second waiting flush and a shutdown
end it, and so does a panic: a `Begin`, or a method the table does not have. -/
def Scope.step : Scope A → WriterCommand K V A S → Scope A
  | .ended, _ => .ended
  | .outside, .begin ack =>
    match env.begin ack with
    | .closed => .ended
    | .refused _ => .outside
    | .opened => .inTx none
  | .outside, _ => .ended
  | .inTx _, .flush _ => .outside
  | .inTx _, .shutdown _ => .ended
  | .inTx _, .begin _ => .ended
  | .inTx d, .queryAndWrite _ values _ =>
    if values ≠ [] ∧ W.getAnyForIndex.isNone then .ended else .inTx d
  | .inTx d, .range _ _ _ => if W.range.isNone then .ended else .inTx d
  | .inTx (some ⟨some _, _, _⟩), .flushWhenReady _ => .outside
  | .inTx (some ⟨none, sum, shards⟩), .flushWhenReady ack => waits ⟨some ack, sum, shards⟩
  | .inTx none, .flushWhenReady ack => waits ⟨some ack, 0, none⟩
  | .inTx (some ⟨sender, sum, _⟩), .readyForFlush total => waits ⟨sender, sum + 1, some total⟩
  | .inTx none, .readyForFlush total => waits ⟨none, 1, some total⟩
  | .inTx d, _ => .inTx d

/-- The commands leave a transaction open. -/
def LeavesOpen (cmds : List (WriterCommand K V A S)) : Prop :=
  ∃ d, cmds.foldl (Scope.step W env) .outside = .inTx d

/-- The scope of a writer. -/
def Writer.scope (w : Writer D T K V A) : Scope A :=
  match w.phase with
  | .outside => .outside
  | .inTx st => .inTx st.deferred
  | .ended => .ended

variable {W env}

lemma scope_settle_flush (db : D) (st : TxState T K V A) (fault : Fault T) (sender : A) :
    (settle W env db (st.flush W fault sender : Stepped T K V A S)).1.scope = .outside := by
  obtain ⟨-, ⟨e, h⟩ | ⟨e, h⟩ | ⟨-, h, -⟩⟩ := flush_cases (W := W) (S := S) st fault sender
  · simp only [settle, h]
    rfl
  · simp only [settle, h]
    rfl
  · simp only [settle, h]
    cases env.commit sender <;> rfl

variable (W env) in
lemma scope_settle_flushIfReady (db : D) (st : TxState T K V A) (fault : Fault T) (d : FlushState A) :
    (settle W env db
      ({ st with deferred := some d }.flushIfReady W fault : Stepped T K V A S)).1.scope =
        Scope.waits d := by
  obtain ⟨sender, sum, shards⟩ := d
  unfold TxState.flushIfReady Scope.waits
  cases sender with
  | none => simp [settle, Writer.scope]
  | some ack =>
    cases shards with
    | none => simp [settle, Writer.scope]
    | some total =>
      by_cases hsum : sum = total
      · simp only [if_pos hsum]
        rw [scope_settle_flush, if_pos ⟨rfl, by rw [hsum]⟩]
      · simp only [if_neg hsum]
        rw [if_neg (by simpa using Ne.symm hsum)]
        rfl

omit [LinearOrder K] in
lemma scope_settle_sink (db : D) (st : TxState T K V A) (s : S) (lastShards : Option ℕ)
    (out : List (ℕ × Option K)) :
    (settle W env db (st.sink env s lastShards out)).1.scope = .inTx st.deferred := by
  unfold TxState.sink
  split <;> rfl

omit [LinearOrder K] in
lemma scope_settle_answer (db : D) (st : TxState T K V A) (ack : A) (event : Event K V A S) :
    (settle W env db (st.answer env ack event)).1.scope = .inTx st.deferred := by
  unfold TxState.answer
  split <;> rfl

omit [LinearOrder K] in
lemma scope_settle_queryAndWrite (db : D) (st : TxState T K V A) (fault : Fault T)
    (lastShards : Option ℕ) (values : List (ℕ × V)) (s : S) :
    (settle W env db (st.queryAndWrite W env fault lastShards values s)).1.scope =
      if values ≠ [] ∧ W.getAnyForIndex.isNone then .ended else .inTx st.deferred := by
  unfold TxState.queryAndWrite
  by_cases hv : values = []
  · subst hv
    rw [if_pos rfl]
    by_cases hlast : lastShards.isSome
    · rw [if_pos hlast, scope_settle_sink]
      rfl
    · rw [if_neg hlast]
      rfl
  · rw [if_neg hv]
    cases hf : W.getAnyForIndex with
    | none =>
      rw [if_pos ⟨hv, rfl⟩]
      rfl
    | some f =>
      rw [if_neg (by simp)]
      cases fault with
      | some e => rfl
      | none => exact scope_settle_sink db _ s lastShards _

/-- **The commands alone decide where the thread is**: neither the tables nor the failures matter. -/
lemma scope_feed (w : Writer D T K V A) (i : Input T K V A S) :
    (feed W env w i).1.scope = Scope.step W env w.scope i.1 := by
  obtain ⟨db, phase⟩ := w
  obtain ⟨cmd, fault⟩ := i
  cases phase with
  | ended => rfl
  | outside =>
    cases cmd with
    | begin ack =>
      simp only [feed, beginOrEnd, Scope.step, Writer.scope]
      cases env.begin ack <;> rfl
    | _ => rfl
  | inTx st =>
    cases cmd with
    | begin ack => rfl
    | writeSortedInsertsOnFlush kvs =>
      simp only [feed, TxState.step]
      split <;> rfl
    | writeInsertNow k v => cases fault <;> rfl
    | appendSortedInserts kvs => rfl
    | mergeUnsortedInserts kvs => rfl
    | remove k ack =>
      cases fault with
      | some f => rfl
      | none => exact scope_settle_answer db _ ack _
    | queryAndWrite lastShards values s =>
      exact scope_settle_queryAndWrite db st fault lastShards values s
    | range lo hi ack =>
      simp only [feed, TxState.step]
      change _ = if W.range.isNone then Scope.ended else .inTx st.deferred
      cases hf : W.range with
      | none => rfl
      | some f =>
        cases fault with
        | some e => rfl
        | none => exact scope_settle_answer db st ack _
    | flush sender => exact scope_settle_flush db st fault sender
    | flushWhenReady ack =>
      obtain ⟨table, buf, deferred, err⟩ := st
      rcases deferred with _ | ⟨_ | sender, sum, shards⟩
      · exact scope_settle_flushIfReady W env db ⟨table, buf, none, err⟩ fault ⟨some ack, 0, none⟩
      · exact scope_settle_flushIfReady W env db ⟨table, buf, none, err⟩ fault ⟨some ack, sum, shards⟩
      · rfl
    | readyForFlush total =>
      obtain ⟨table, buf, deferred, err⟩ := st
      rcases deferred with _ | ⟨sender, sum, shards⟩
      · exact scope_settle_flushIfReady W env db ⟨table, buf, none, err⟩ fault ⟨none, 1, some total⟩
      · exact scope_settle_flushIfReady W env db ⟨table, buf, none, err⟩ fault
          ⟨sender, sum + 1, some total⟩
    | shutdown ack => rfl

lemma scope_feedAll (w : Writer D T K V A) (is : List (Input T K V A S)) :
    (feedAll W env w is).1.scope = (is.map Prod.fst).foldl (Scope.step W env) w.scope := by
  induction is generalizing w with
  | nil => rfl
  | cons i is ih =>
    rw [feedAll, ih, scope_feed]
    rfl

/-! ### Turns -/

variable (W env) in
/-- The thread after `n` turns, where in its `k`-th turn `try_iter` finds `more k` further commands. -/
def turns (th : Thread D T K V A S) (more : ℕ → ℕ) : ℕ → Thread D T K V A S
  | 0 => th
  | n + 1 => turn W env (turns th more n) (more n)

lemma turns_succ (th : Thread D T K V A S) (more : ℕ → ℕ) (n : ℕ) :
    turns W env th more (n + 1) = turns W env (turn W env th (more 0)) (fun k => more (k + 1)) n := by
  induction n with
  | zero => rfl
  | succ n ih => rw [turns, ih, turns]

variable (W env) in
lemma took_turns (w : Writer D T K V A) (cmds : List (Input T K V A S)) (more : ℕ → ℕ) (n : ℕ) :
    Thread.Took W env w cmds (turns W env ⟨w, cmds, []⟩ more n) := by
  induction n with
  | zero => exact Thread.took_start w cmds
  | succ n ih => exact ih.turn (more n)

variable (W env) in
/-- A turn takes a command off the channel as long as there is one. -/
lemma chan_turn_lt {th : Thread D T K V A S} (hend : th.writer.phase ≠ .ended) (hchan : th.chan ≠ [])
    (more : ℕ) : (turn W env th more).chan.length < th.chan.length := by
  obtain ⟨⟨db, phase⟩, chan, events⟩ := th
  cases chan with
  | nil => exact absurd rfl hchan
  | cons i chan =>
    cases phase with
    | ended => exact absurd rfl hend
    | outside => simp [turn]
    | inTx st =>
      obtain ⟨used, hused, -⟩ := drainBatch_spec W env db st i (chan.take more)
      have hlen := congrArg List.length hused
      simp only [turn, List.length_append, List.length_drop, List.length_cons,
        List.length_take] at hlen ⊢
      omega

variable (W env) in
/-- After enough turns the channel is empty, or the thread has ended before that. -/
lemma exists_turns_drained (th : Thread D T K V A S) (more : ℕ → ℕ) :
    ∃ n, (turns W env th more n).chan = [] ∨ (turns W env th more n).writer.phase = .ended := by
  induction hlen : th.chan.length using Nat.strong_induction_on generalizing th more with
  | _ len ih =>
    by_cases hchan : th.chan = []
    · exact ⟨0, Or.inl hchan⟩
    by_cases hend : th.writer.phase = .ended
    · exact ⟨0, Or.inr hend⟩
    have hlt := chan_turn_lt W env hend hchan (more 0)
    obtain ⟨n, hn⟩ := ih _ (hlen ▸ hlt) (turn W env th (more 0)) (fun k => more (k + 1)) rfl
    exact ⟨n + 1, by rw [turns_succ]; exact hn⟩

variable (W env) in
/-- On the empty channel a turn commits nothing and shows nothing. -/
lemma turn_drained {th : Thread D T K V A S} (h : th.chan = []) (more : ℕ) :
    (turn W env th more).chan = [] ∧ (turn W env th more).writer.db = th.writer.db ∧
      (turn W env th more).events = th.events := by
  obtain ⟨⟨db, phase⟩, chan, events⟩ := th
  dsimp only at h
  subst h
  cases phase <;> exact ⟨rfl, rfl, rfl⟩

lemma turns_drained (th : Thread D T K V A S) (more : ℕ → ℕ) {n m : ℕ} (hnm : n ≤ m)
    (h : (turns W env th more n).chan = []) :
    (turns W env th more m).chan = [] ∧
      (turns W env th more m).writer.db = (turns W env th more n).writer.db ∧
      (turns W env th more m).events = (turns W env th more n).events := by
  induction m, hnm using Nat.le_induction with
  | base => exact ⟨h, rfl, rfl⟩
  | succ m hnm ih =>
    obtain ⟨hchan, hdb, hev⟩ := turn_drained W env ih.1 (more m)
    exact ⟨hchan, hdb.trans ih.2.1, hev.trans ih.2.2⟩

lemma leavesOpen_iff (db : D) (cmds : List (Input T K V A S)) :
    LeavesOpen W env (cmds.map Prod.fst) ↔ ∃ st, (feedAll W env ⟨db, .outside⟩ cmds).1.phase =
      .inTx st := by
  have hscope : _ = (cmds.map Prod.fst).foldl (Scope.step W env) .outside :=
    scope_feedAll (⟨db, .outside⟩ : Writer D T K V A) cmds
  unfold LeavesOpen
  rw [← hscope]
  unfold Writer.scope
  cases (feedAll W env ⟨db, .outside⟩ cmds).1.phase <;> simp

/-- A thread left inside a transaction never ends. -/
lemma not_ended_of_leavesOpen {db : D} {cmds : List (Input T K V A S)} {th : Thread D T K V A S}
    (h : LeavesOpen W env (cmds.map Prod.fst)) (htook : Thread.Took W env ⟨db, .outside⟩ cmds th) :
    th.writer.phase ≠ .ended := by
  intro hend
  obtain ⟨st, hst⟩ := (leavesOpen_iff db cmds).mp h
  obtain ⟨used, hcmds, -, hw | ⟨hnil, ⟨hout, -⟩ | ⟨st', -, hw⟩⟩⟩ := htook
  · have hused : (feedAll W env ⟨db, .outside⟩ used).1 = ⟨th.writer.db, .ended⟩ := by rw [← hw, ← hend]
    rw [hcmds, feedAll_append, hused, feedAll_ended] at hst
    cases hst
  · rw [hnil, List.append_nil] at hcmds
    rw [hcmds, hout] at hst
    cases hst
  · rw [hw] at hend
    cases hend

variable (W env) in
/-- **When a thread stops.**  The thread takes the commands `cmds` in batches of any sizes, and then
all its senders are gone.  It ends, and after its last command it commits nothing and answers no
flush, exactly if the commands leave no transaction open. -/
theorem thread_stops_iff (db : D) (cmds : List (Input T K V A S)) (more : ℕ → ℕ) :
    ((∃ n, (turns W env ⟨⟨db, .outside⟩, cmds, []⟩ more n).writer.phase = .ended) ∧
      ∀ n m, (turns W env ⟨⟨db, .outside⟩, cmds, []⟩ more n).chan = [] → n ≤ m →
        (turns W env ⟨⟨db, .outside⟩, cmds, []⟩ more m).writer.db =
            (turns W env ⟨⟨db, .outside⟩, cmds, []⟩ more n).writer.db ∧
          (turns W env ⟨⟨db, .outside⟩, cmds, []⟩ more m).events =
            (turns W env ⟨⟨db, .outside⟩, cmds, []⟩ more n).events) ↔
      ¬ LeavesOpen W env (cmds.map Prod.fst) := by
  constructor
  · rintro ⟨⟨n, hn⟩, -⟩ hopen
    exact not_ended_of_leavesOpen hopen (took_turns W env ⟨db, .outside⟩ cmds more n) hn
  · intro hopen
    refine ⟨?_, fun n m hchan hnm => (turns_drained _ more hnm hchan).2⟩
    obtain ⟨n, hchan | hend⟩ := exists_turns_drained W env ⟨⟨db, .outside⟩, cmds, []⟩ more
    · obtain ⟨used, hcmds, -, hw⟩ := took_turns W env ⟨db, .outside⟩ cmds more n
      rw [hchan, List.append_nil] at hcmds
      subst hcmds
      cases hphase : (turns W env ⟨⟨db, .outside⟩, cmds, []⟩ more n).writer.phase with
      | ended => exact ⟨n, hphase⟩
      | outside =>
        refine ⟨n + 1, ?_⟩
        simp only [turns, turn, hphase, hchan]
      | inTx st =>
        -- then the commands have left the transaction open
        refine absurd ((leavesOpen_iff db cmds).mpr ?_) hopen
        rcases hw with hw | ⟨-, ⟨-, hw⟩ | ⟨st', hst', -⟩⟩
        · exact ⟨st, by rw [← hw, hphase]⟩
        · rw [hw] at hphase
          cases hphase
        · exact ⟨st', hst'⟩
    · exact ⟨n, hend⟩

end Machine

/-- The writer has begun a transaction and written a row when its context is dropped: it never
stops. -/
theorem thread_spins :
    ¬ ∃ n, (turns (plainTable ℕ ℕ) (Env.fine : Env ℕ ℕ Unit)
      ⟨⟨Table.empty, .outside⟩, [(.begin 0, none), (.writeInsertNow 1 10, none)], []⟩
        (fun _ => 0) n).writer.phase =
        .ended := by
  rintro ⟨n, hn⟩
  have hopen : LeavesOpen (plainTable ℕ ℕ) (Env.fine : Env ℕ ℕ Unit)
      [.begin 0, .writeInsertNow 1 10] :=
    ⟨none, rfl⟩
  exact not_ended_of_leavesOpen hopen (took_turns _ _ _ _ _ n) hn

end Redbit.Storage
