import Redbit.Storage.TxFsm
import Redbit.Lib.Run

/-!
# A writer transaction is all or nothing

Inside a transaction every error is only recorded, and later commands still run; what ends the
transaction is a flush, a shutdown or a second waiting flush.  The tables are committed exactly by a
flush that finds no recorded error, and then they hold what the commands of the transaction say:
`txRun_all_or_nothing`.
-/

namespace Redbit.Storage

open Redbit.Lib
open scoped List

variable {D T K V A S : Type} [LinearOrder K]

/-! ### What the commands say -/

/-- The inserts and removes of the commands made at once, in their order. -/
def replay (W : WriteTable D T K V) (t : T) : List (Input T K V A S) → T
  | [] => t
  | (.writeInsertNow k v, _) :: is => replay W (W.insertKv t k v) is
  | (.remove k _, _) :: is => replay W (W.deleteKv t k).2 is
  | _ :: is => replay W t is

/-- The buffer the other inserts of the commands go to. -/
def buffered (buf : MergeBuffer K V) : List (Input T K V A S) → MergeBuffer K V
  | [] => buf
  | (.mergeUnsortedInserts kvs, _) :: is => buffered (buf.mergeUnsorted kvs) is
  | (.appendSortedInserts kvs, _) :: is => buffered (buf.appendSorted kvs) is
  | (.writeSortedInsertsOnFlush kvs, _) :: is => buffered (MergeBuffer.fromSorted kvs) is
  | _ :: is => buffered buf is

/-- The pairs of these inserts. -/
def pushed : List (Input T K V A S) → List (K × V)
  | [] => []
  | (.mergeUnsortedInserts kvs, _) :: is => kvs ++ pushed is
  | (.appendSortedInserts kvs, _) :: is => kvs ++ pushed is
  | (.writeSortedInsertsOnFlush kvs, _) :: is => kvs ++ pushed is
  | _ :: is => pushed is

section Machine

variable (W : WriteTable D T K V) (env : Env K A S)

/-- The state the next command of the transaction finds. -/
def Stepped.next (r : Stepped T K V A S) : TxState T K V A :=
  match r.outcome with
  | .err e => { r.state with writeError := some e }
  | _ => r.state

/-- The state after some commands of the transaction. -/
def txAfter (st : TxState T K V A) : List (Input T K V A S) → TxState T K V A
  | [] => st
  | i :: is => txAfter (st.step W env i.2 i.1).next is

/-- What `step` returns for the command `i` after the commands `pre` of the transaction. -/
def outcomeAt (st : TxState T K V A) (pre : List (Input T K V A S))
    (i : Input T K V A S) : Outcome A :=
  ((txAfter W env st pre).step W env i.2 i.1).outcome

/-- The command succeeds and the transaction goes on. -/
def Outcome.Continues (o : Outcome A) : Prop := o = .ok .continue

/-- The transaction goes on: the command succeeds, or its error is recorded. -/
def Outcome.KeepsOpen (o : Outcome A) : Prop := o = .ok .continue ∨ ∃ e, o = .err e

/-- The command fails, is a shutdown, or is a flush whose insert fails. -/
def Outcome.Spoils (o : Outcome A) : Prop :=
  (∃ e, o = .err e) ∨ (∃ ack, o = .ok (.shutdown ack)) ∨
    ∃ sender e, o = .ok (.commit sender (.error e))

/-- Every command of `is` has an outcome with `P`. -/
def EachOutcome (P : Outcome A → Prop) (st : TxState T K V A) (is : List (Input T K V A S)) : Prop :=
  ∀ pre i post, is = pre ++ i :: post → P (outcomeAt W env st pre i)

variable {W env}

lemma eachOutcome_cons {P : Outcome A → Prop} {st : TxState T K V A} {i : Input T K V A S}
    {is : List (Input T K V A S)} :
    EachOutcome W env P st (i :: is) ↔
      P (st.step W env i.2 i.1).outcome ∧ EachOutcome W env P (st.step W env i.2 i.1).next is := by
  constructor
  · intro h
    exact ⟨h [] i is rfl, fun pre j post hj => h (i :: pre) j post (by rw [hj]; rfl)⟩
  · rintro ⟨h0, h⟩ pre j post hj
    cases pre with
    | nil =>
      obtain ⟨rfl, rfl⟩ := List.cons.inj hj
      exact h0
    | cons i' pre =>
      obtain ⟨rfl, htail⟩ := List.cons.inj hj
      exact h pre j post htail

/-! ### One command -/

lemma flush_not_continue (st : TxState T K V A) (fault : Fault T) (sender : A) :
    (st.flush W fault sender : Stepped T K V A S).outcome ≠ .ok .continue := by
  obtain ⟨-, ⟨e, h⟩ | ⟨e, h⟩ | ⟨-, h, -⟩⟩ := flush_cases (S := S) st fault sender <;> rw [h] <;> nofun

/-- A flush that goes on waiting changes nothing. -/
lemma flushIfReady_continues {st : TxState T K V A} {fault : Fault T}
    (h : (st.flushIfReady W fault : Stepped T K V A S).outcome = .ok .continue) :
    (st.flushIfReady W fault : Stepped T K V A S).state = st := by
  rcases flushIfReady_cases (W := W) (S := S) st fault with he | ⟨ack, he⟩
  · rw [he]
  · rw [he] at h
    exact absurd h (flush_not_continue st fault ack)

omit [LinearOrder K] in
lemma sameRows_lookupAll {f : T → V → Option K × T} (hf : W.getAnyForIndex = some f) {s t : T}
    (h : W.SameRows s t) (values : List (ℕ × V)) : W.SameRows (TxState.lookupAll f s values).2 t := by
  induction values generalizing s with
  | nil => exact h
  | cons iv values ih => exact ih (W.sameRows_getAny hf h iv.2)

omit [LinearOrder K] in
/-- A query that succeeds leaves everything but the cache as it is. -/
lemma queryAndWrite_continues {st : TxState T K V A} {fault : Fault T} {lastShards : Option ℕ}
    {values : List (ℕ × V)} {s : S} (h : (st.queryAndWrite W env fault lastShards values
      s).outcome = .ok .continue) :
    ∃ table, (st.queryAndWrite W env fault lastShards values s).state = { st with table := table } ∧
      ∀ t, W.SameRows st.table t → W.SameRows table t := by
  unfold TxState.queryAndWrite at h ⊢
  split at h
  · split at h
    · exact ⟨st.table, by simp_all [state_sink], fun t ht => ht⟩
    · exact ⟨st.table, by simp_all, fun t ht => ht⟩
  · next hne =>
    rw [if_neg hne]
    cases hf : W.getAnyForIndex with
    | none =>
      rw [hf] at h
      cases h
    | some f =>
      cases fault with
      | some e =>
        rw [hf] at h
        cases h
      | none => exact ⟨_, state_sink _ _ _ _, fun t ht => sameRows_lookupAll hf ht values⟩

/-- What a step that lets the transaction go on has done to the rows, the buffer and the recorded
error. -/
lemma step_continues {st : TxState T K V A} {i : Input T K V A S} {t : T} (ht : W.SameRows st.table t)
    (h : (st.step W env i.2 i.1).outcome = .ok .continue) :
    W.SameRows (st.step W env i.2 i.1).state.table (replay W t [i]) ∧
      (st.step W env i.2 i.1).state.asyncMergeBuf = buffered st.asyncMergeBuf [i] ∧
      (st.step W env i.2 i.1).state.asyncMergeBuf.contents ~ st.asyncMergeBuf.contents ++ pushed [i] ∧
      (st.step W env i.2 i.1).state.writeError = st.writeError := by
  obtain ⟨cmd, fault⟩ := i
  cases cmd with
  | begin ack => cases h
  | writeSortedInsertsOnFlush kvs =>
    simp only [TxState.step] at h ⊢
    split at h
    · next hempty =>
      rw [if_pos hempty]
      rw [MergeBuffer.isEmpty_iff] at hempty
      refine ⟨ht, rfl, ?_, rfl⟩
      rw [MergeBuffer.contents_fromSorted, hempty]
      simp [pushed]
    · cases h
  | writeInsertNow k v =>
    cases fault with
    | some f => cases h
    | none => exact ⟨W.sameRows_insertKv ht k v, rfl, by simp [TxState.step, pushed], rfl⟩
  | appendSortedInserts kvs =>
    refine ⟨ht, rfl, ?_, rfl⟩
    simpa [TxState.step, pushed] using MergeBuffer.appendSorted_perm st.asyncMergeBuf kvs
  | mergeUnsortedInserts kvs =>
    refine ⟨ht, rfl, ?_, rfl⟩
    simpa [TxState.step, pushed] using MergeBuffer.mergeUnsorted_perm st.asyncMergeBuf kvs
  | remove k ack =>
    cases fault with
    | some f => cases h
    | none =>
      simp only [TxState.step, TxState.answer] at h ⊢
      split at h
      · next hc =>
        rw [if_pos hc]
        exact ⟨W.sameRows_deleteKv ht k, rfl, by simp [pushed], rfl⟩
      · cases h
  | queryAndWrite lastShards values s =>
    obtain ⟨table, hst, hrows⟩ := queryAndWrite_continues h
    simp only [TxState.step, hst]
    exact ⟨hrows t ht, by simp [buffered], by simp [pushed]⟩
  | range lo hi ack =>
    simp only [TxState.step] at h ⊢
    cases hf : W.range with
    | none =>
      rw [hf] at h
      cases h
    | some f =>
      cases fault with
      | some e =>
        rw [hf] at h
        cases h
      | none =>
        simp only [state_answer]
        exact ⟨ht, by simp [buffered], by simp [pushed]⟩
  | flush sender => exact absurd h (flush_not_continue st fault sender)
  | flushWhenReady ack =>
    simp only [TxState.step] at h ⊢
    split at h
    · cases h
    · simp only [flushIfReady_continues h]
      exact ⟨ht, by simp [buffered], by simp [pushed]⟩
    · simp only [flushIfReady_continues h]
      exact ⟨ht, by simp [buffered], by simp [pushed]⟩
  | readyForFlush total =>
    simp only [TxState.step] at h ⊢
    split at h
    · simp only [flushIfReady_continues h]
      exact ⟨ht, by simp [buffered], by simp [pushed]⟩
    · simp only [flushIfReady_continues h]
      exact ⟨ht, by simp [buffered], by simp [pushed]⟩
  | shutdown ack => cases h

omit [LinearOrder K] in
lemma sink_not_commit (st : TxState T K V A) (s : S) (lastShards : Option ℕ)
    (out : List (ℕ × Option K)) (sender : A) (r : Except AppError Unit) :
    (st.sink env s lastShards out).outcome ≠ .ok (.commit sender r) := by
  unfold TxState.sink
  split <;> nofun

omit [LinearOrder K] in
lemma answer_not_commit (st : TxState T K V A) (ack : A) (event : Event K V A S) (sender : A)
    (r : Except AppError Unit) : (st.answer env ack event).outcome ≠ .ok (.commit sender r) := by
  unfold TxState.answer
  split <;> nofun

lemma flush_commits {st : TxState T K V A} {fault : Fault T} {sender sender' : A}
    (h : (st.flush W fault sender' : Stepped T K V A S).outcome = .ok (.commit sender (.ok ()))) :
    st.writeError = none ∧ (st.flush W fault sender' : Stepped T K V A S).state.table =
      W.insertManySortedByKey st.table st.asyncMergeBuf.takeSorted.1 := by
  obtain ⟨-, ⟨e, he⟩ | ⟨e, he⟩ | ⟨herr, -, htable⟩⟩ := flush_cases (W := W) (S := S) st fault sender'
  · rw [he] at h
    cases h
  · rw [he] at h
    cases h
  · exact ⟨herr, htable⟩

lemma flushIfReady_commits {st : TxState T K V A} {fault : Fault T} {sender : A}
    (h : (st.flushIfReady W fault : Stepped T K V A S).outcome = .ok (.commit sender (.ok ()))) :
    st.writeError = none ∧ (st.flushIfReady W fault : Stepped T K V A S).state.table =
      W.insertManySortedByKey st.table st.asyncMergeBuf.takeSorted.1 := by
  rcases flushIfReady_cases (W := W) (S := S) st fault with he | ⟨ack, he⟩
  · rw [he] at h
    cases h
  · rw [he] at h ⊢
    exact flush_commits h

/-- A step that returns a commit is a flush that found no recorded error. -/
lemma step_commits {st : TxState T K V A} {i : Input T K V A S} {sender : A}
    (h : (st.step W env i.2 i.1).outcome = .ok (.commit sender (.ok ()))) :
    st.writeError = none ∧ (st.step W env i.2 i.1).state.table =
      W.insertManySortedByKey st.table st.asyncMergeBuf.takeSorted.1 := by
  obtain ⟨cmd, fault⟩ := i
  cases cmd with
  | begin ack => cases h
  | writeSortedInsertsOnFlush kvs =>
    simp only [TxState.step] at h
    split at h <;> cases h
  | writeInsertNow k v => cases fault <;> cases h
  | appendSortedInserts kvs => cases h
  | mergeUnsortedInserts kvs => cases h
  | remove k ack =>
    cases fault with
    | some f => cases h
    | none => exact absurd h (answer_not_commit _ _ _ _ _)
  | queryAndWrite lastShards values s =>
    simp only [TxState.step, TxState.queryAndWrite] at h
    split at h
    · split at h
      · exact absurd h (sink_not_commit _ _ _ _ _ _)
      · cases h
    · split at h
      · cases h
      · cases fault with
        | some f => cases h
        | none => exact absurd h (sink_not_commit _ _ _ _ _ _)
  | range lo hi ack =>
    simp only [TxState.step] at h
    split at h
    · cases h
    · cases fault with
      | some f => cases h
      | none => exact absurd h (answer_not_commit _ _ _ _ _)
  | flush sender' => exact flush_commits h
  | flushWhenReady ack =>
    simp only [TxState.step] at h ⊢
    split at h
    · cases h
    · exact flushIfReady_commits h
    · exact flushIfReady_commits h
  | readyForFlush total =>
    simp only [TxState.step] at h ⊢
    split at h
    · exact flushIfReady_commits h
    · exact flushIfReady_commits h
  | shutdown ack => cases h

lemma events_flushIfReady (st : TxState T K V A) (fault : Fault T) :
    (st.flushIfReady W fault : Stepped T K V A S).events = [] := by
  rcases flushIfReady_cases (W := W) (S := S) st fault with he | ⟨ack, he⟩
  · rw [he]
  · rw [he]
    exact (flush_cases st fault ack).1

/-- The end of a flush: its answer, or the commit. -/
def Event.closes : Event K V A S → Bool
  | .flushed _ _ => true
  | .committed => true
  | _ => false

omit [LinearOrder K] in
lemma closes_sink (st : TxState T K V A) (s : S) (lastShards : Option ℕ) (out : List (ℕ × Option K)) :
    ∀ ev ∈ (st.sink env s lastShards out).events, ev.closes = false := by
  unfold TxState.sink
  split <;> simp [Event.closes]

/-- No step ends a flush: that is left to the loop. -/
lemma closes_step (st : TxState T K V A) (i : Input T K V A S) :
    ∀ ev ∈ (st.step W env i.2 i.1).events, ev.closes = false := by
  obtain ⟨cmd, fault⟩ := i
  cases cmd with
  | begin ack => simp [TxState.step]
  | writeSortedInsertsOnFlush kvs =>
    simp only [TxState.step]
    split <;> simp
  | writeInsertNow k v => cases fault <;> simp [TxState.step]
  | appendSortedInserts kvs => simp [TxState.step]
  | mergeUnsortedInserts kvs => simp [TxState.step]
  | remove k ack =>
    cases fault with
    | some f => simp [TxState.step]
    | none =>
      simp only [TxState.step, TxState.answer]
      split <;> simp [Event.closes]
  | queryAndWrite lastShards values s =>
    simp only [TxState.step, TxState.queryAndWrite]
    split
    · split
      · exact closes_sink _ _ _ _
      · simp
    · split
      · simp
      · cases fault with
        | some f => simp
        | none => exact closes_sink _ _ _ _
  | range lo hi ack =>
    simp only [TxState.step]
    split
    · simp
    · cases fault with
      | some f => simp
      | none =>
        simp only [TxState.answer]
        split <;> simp [Event.closes]
  | flush sender' =>
    have hnil : (st.step W env fault (.flush sender')).events = [] := (flush_cases st fault sender').1
    simp [hnil]
  | flushWhenReady ack =>
    simp only [TxState.step]
    split <;> simp [events_flushIfReady]
  | readyForFlush total =>
    simp only [TxState.step]
    split <;> simp [events_flushIfReady]
  | shutdown ack => simp [TxState.step]

lemma flushed_notMem_step (st : TxState T K V A) (i : Input T K V A S) (sender : A)
    (r : Except AppError Unit) : .flushed sender r ∉ (st.step W env i.2 i.1).events := by
  intro h
  exact Bool.noConfusion (closes_step st i _ h)

/-! ### Runs of commands -/

omit [LinearOrder K] in
lemma replay_cons (t : T) (i : Input T K V A S) (is : List (Input T K V A S)) :
    replay W t (i :: is) = replay W (replay W t [i]) is := by
  obtain ⟨cmd, fault⟩ := i
  cases cmd <;> rfl

lemma buffered_cons (buf : MergeBuffer K V) (i : Input T K V A S) (is : List (Input T K V A S)) :
    buffered buf (i :: is) = buffered (buffered buf [i]) is := by
  obtain ⟨cmd, fault⟩ := i
  cases cmd <;> simp [buffered]

omit [LinearOrder K] in
lemma pushed_cons (i : Input T K V A S) (is : List (Input T K V A S)) :
    pushed (i :: is) = pushed [i] ++ pushed is := by
  obtain ⟨cmd, fault⟩ := i
  cases cmd <;> simp [pushed]

/-- **A run of commands that all succeed** leaves the rows and the buffer the commands say. -/
lemma txAfter_continues {st : TxState T K V A} {is : List (Input T K V A S)} {t : T}
    (ht : W.SameRows st.table t) (h : EachOutcome W env Outcome.Continues st is) :
    W.SameRows (txAfter W env st is).table (replay W t is) ∧
      (txAfter W env st is).asyncMergeBuf = buffered st.asyncMergeBuf is ∧
      (txAfter W env st is).asyncMergeBuf.contents ~ st.asyncMergeBuf.contents ++ pushed is ∧
      (txAfter W env st is).writeError = st.writeError := by
  induction is generalizing st t with
  | nil => exact ⟨ht, rfl, by simp [txAfter, pushed], rfl⟩
  | cons i is ih =>
    obtain ⟨hi, his⟩ := eachOutcome_cons.mp h
    obtain ⟨hrows, hbuf, hperm, herr⟩ := step_continues ht hi
    have hnext : (st.step W env i.2 i.1).next = (st.step W env i.2 i.1).state := by
      simp only [Stepped.next, show (st.step W env i.2 i.1).outcome = _ from hi]
    rw [hnext] at his
    obtain ⟨hrows', hbuf', hperm', herr'⟩ := ih hrows his
    rw [txAfter, hnext, replay_cons, buffered_cons, pushed_cons]
    refine ⟨hrows', hbuf'.trans (by rw [hbuf]), hperm'.trans ?_, herr'.trans herr⟩
    rw [← List.append_assoc]
    exact hperm.append_right _

/-- An error stays recorded as long as the transaction goes on. -/
lemma txAfter_spoilt {st : TxState T K V A} {is : List (Input T K V A S)}
    (h : EachOutcome W env Outcome.KeepsOpen st is)
    (hs : st.writeError ≠ none ∨ ¬ EachOutcome W env Outcome.Continues st is) :
    (txAfter W env st is).writeError ≠ none := by
  induction is generalizing st with
  | nil =>
    rcases hs with hs | hs
    · exact hs
    · exact absurd (fun pre i post hi => by simp at hi) hs
  | cons i is ih =>
    obtain ⟨hi, his⟩ := eachOutcome_cons.mp h
    refine ih his ?_
    rcases hi with hi | ⟨e, hi⟩
    · have hnext : (st.step W env i.2 i.1).next = (st.step W env i.2 i.1).state := by
        simp only [Stepped.next, hi]
      rw [hnext, (step_continues (W.sameRows_refl st.table) hi).2.2.2]
      rw [eachOutcome_cons, hnext] at hs
      exact hs.imp id fun hn his' => hn ⟨hi, his'⟩
    · left
      simp [Stepped.next, hi]

/-- The transaction goes on to the end of the commands, or one of them ends it. -/
lemma eachOutcome_or_ends (P : Outcome A → Prop) (st : TxState T K V A) (is : List (Input T K V A S)) :
    EachOutcome W env P st is ∨ ∃ pre i post, is = pre ++ i :: post ∧ EachOutcome W env P st pre ∧
      ¬ P (outcomeAt W env st pre i) := by
  induction is generalizing st with
  | nil => exact Or.inl fun pre i post hi => by simp at hi
  | cons i is ih =>
    by_cases hi : P (st.step W env i.2 i.1).outcome
    · rcases ih (st.step W env i.2 i.1).next with h | ⟨pre, j, post, rfl, hpre, hj⟩
      · exact Or.inl (eachOutcome_cons.mpr ⟨hi, h⟩)
      · exact Or.inr ⟨i :: pre, j, post, rfl, eachOutcome_cons.mpr ⟨hi, hpre⟩, hj⟩
    · exact Or.inr ⟨[], i, is, rfl, fun pre i post hi => by simp at hi, hi⟩

/-! ### The loop around the steps -/

/-- While the transaction goes on, nothing is committed and no flush is answered. -/
lemma feedAll_keepsOpen (db : D) {st : TxState T K V A} {is : List (Input T K V A S)}
    (h : EachOutcome W env Outcome.KeepsOpen st is) :
    (feedAll W env ⟨db, .inTx st⟩ is).1 = ⟨db, .inTx (txAfter W env st is)⟩ ∧
      ∀ sender r, .flushed sender r ∉ (feedAll W env ⟨db, .inTx st⟩ is).2 := by
  induction is generalizing st with
  | nil => exact ⟨rfl, by simp [feedAll]⟩
  | cons i is ih =>
    obtain ⟨hi, his⟩ := eachOutcome_cons.mp h
    have hfeed : feed W env ⟨db, .inTx st⟩ i =
        (⟨db, .inTx (st.step W env i.2 i.1).next⟩, (st.step W env i.2 i.1).events) := by
      rcases hi with hi | ⟨e, hi⟩ <;> simp only [feed, settle, Stepped.next, hi]
    obtain ⟨hw, hev⟩ := ih his
    simp only [feedAll, hfeed]
    refine ⟨hw, fun sender r hmem => ?_⟩
    rcases List.mem_append.mp hmem with hmem | hmem
    · exact flushed_notMem_step st i sender r hmem
    · exact hev sender r hmem

variable (W env) in
/-- Outside a transaction nothing is committed and no flush is answered. -/
lemma feedAll_noBegin {w : Writer D T K V A} (hw : w.phase = .outside ∨ w.phase = .ended)
    {is : List (Input T K V A S)} (hbegin : ∀ ack fault, (.begin ack, fault) ∉ is) :
    (feedAll W env w is).1.db = w.db ∧ ∀ sender r, .flushed sender r ∉ (feedAll W env w is).2 := by
  obtain ⟨db, phase⟩ := w
  cases is with
  | nil => exact ⟨rfl, by simp [feedAll]⟩
  | cons i is =>
    rcases hw with rfl | rfl
    · obtain ⟨cmd, fault⟩ := i
      cases cmd with
      | begin ack => exact absurd List.mem_cons_self (hbegin ack fault)
      | _ => simp [feedAll, feed, beginOrEnd, feedAll_ended]
    · simp [feedAll_ended]

/-- The command that ends the transaction: either it commits and answers its flush `Ok`, or it does
neither. -/
lemma feed_ends (db : D) {st : TxState T K V A} {i : Input T K V A S}
    (h : ¬ (st.step W env i.2 i.1).outcome.KeepsOpen) :
    ((feed W env ⟨db, .inTx st⟩ i).1.phase = .outside ∨
      (feed W env ⟨db, .inTx st⟩ i).1.phase = .ended) ∧
    ((∀ sender, .flushed sender (.ok ()) ∉ (feed W env ⟨db, .inTx st⟩ i).2) ∧
        (feed W env ⟨db, .inTx st⟩ i).1.db = db ∨
      ∃ sender, (st.step W env i.2 i.1).outcome = .ok (.commit sender (.ok ())) ∧
        (∀ sender', .flushed sender' (.ok ()) ∈ (feed W env ⟨db, .inTx st⟩ i).2 ↔ sender' = sender) ∧
        (feed W env ⟨db, .inTx st⟩ i).1.db = W.tables (st.step W env i.2 i.1).state.table) := by
  have hev : ∀ sender, .flushed sender (.ok ()) ∉ (st.step W env i.2 i.1).events :=
    fun sender => flushed_notMem_step st i sender (.ok ())
  simp only [feed]
  cases hout : (st.step W env i.2 i.1).outcome with
  | err e => exact absurd (Or.inr ⟨e, hout⟩) h
  | panic =>
    simp only [settle, hout]
    exact ⟨Or.inr trivial, Or.inl ⟨hev, trivial⟩⟩
  | ok ctrl =>
    cases ctrl with
    | «continue» => exact absurd (Or.inl hout) h
    | error sender e =>
      simp only [settle, hout]
      exact ⟨Or.inl trivial, Or.inl ⟨fun s => by simp [hev s], trivial⟩⟩
    | shutdown ack =>
      simp only [settle, hout]
      refine ⟨Or.inr trivial, Or.inl ⟨fun s => ?_, trivial⟩⟩
      split <;> simp [hev s]
    | commit sender r =>
      cases r with
      | error e =>
        simp only [settle, hout]
        exact ⟨Or.inl trivial, Or.inl ⟨fun s => by simp [hev s], trivial⟩⟩
      | ok u =>
        simp only [settle, hout]
        cases env.commit sender with
        | error e => exact ⟨Or.inl rfl, Or.inl ⟨fun s => by simp [hev s], rfl⟩⟩
        | ok u =>
          exact ⟨Or.inl rfl, Or.inr ⟨sender, rfl, fun s => by simp [hev s], rfl⟩⟩

variable (W env) in
/-- The commands of one transaction, one by one: all or nothing. -/
lemma feedAll_all_or_nothing (db : D) (st : TxState T K V A) {is : List (Input T K V A S)}
    (hbegin : ∀ ack fault, (.begin ack, fault) ∉ is) :
    (∀ sender, .flushed sender (.ok ()) ∉ (feedAll W env ⟨db, .inTx st⟩ is).2) ∧
        (feedAll W env ⟨db, .inTx st⟩ is).1.db = db ∨
      ∃ pre i post sender, is = pre ++ i :: post ∧ EachOutcome W env Outcome.Continues st pre ∧
        outcomeAt W env st pre i = .ok (.commit sender (.ok ())) ∧
        (∀ sender', .flushed sender' (.ok ()) ∈ (feedAll W env ⟨db, .inTx st⟩ is).2 ↔
          sender' = sender) ∧
        (feedAll W env ⟨db, .inTx st⟩ is).1.db =
          W.tables (W.insertManySortedByKey (txAfter W env st pre).table
          (txAfter W env st pre).asyncMergeBuf.takeSorted.1) := by
  rcases eachOutcome_or_ends (W := W) Outcome.KeepsOpen st is with hopen | ⟨pre, i, post, rfl,
    hopen, hend⟩
  · obtain ⟨hw, hev⟩ := feedAll_keepsOpen db hopen
    exact Or.inl ⟨fun sender => hev sender _, by rw [hw]⟩
  · obtain ⟨hw, hev⟩ := feedAll_keepsOpen db hopen
    obtain ⟨hphase, hcase⟩ := feed_ends db hend
    obtain ⟨hdb, hpost⟩ := feedAll_noBegin W env hphase
      (fun ack fault hm => hbegin ack fault (List.mem_append_right _ (List.mem_cons_of_mem _ hm)))
    -- what is shown: nothing before the command, and nothing after it
    have hshown : ∀ sender, .flushed sender
      (.ok ()) ∈ (feedAll W env ⟨db, .inTx st⟩ (pre ++ i :: post)).2 ↔
        .flushed sender (.ok ()) ∈ (feed W env ⟨db, .inTx (txAfter W env st pre)⟩ i).2 := by
      intro sender
      rw [feedAll_append, hw, feedAll]
      simp only [List.mem_append, hev sender, hpost sender, false_or, or_false]
    have hdb' : (feedAll W env ⟨db, .inTx st⟩ (pre ++ i :: post)).1.db =
        (feed W env ⟨db, .inTx (txAfter W env st pre)⟩ i).1.db := by
      rw [feedAll_append, hw, feedAll]
      exact hdb
    rcases hcase with ⟨hnone, hsame⟩ | ⟨sender, hout, hone, htables⟩
    · exact Or.inl ⟨fun sender hm => hnone sender ((hshown sender).mp hm), hdb'.trans hsame⟩
    · obtain ⟨herr, htable⟩ := step_commits hout
      have hcont : EachOutcome W env Outcome.Continues st pre := by
        by_contra hn
        exact txAfter_spoilt hopen (Or.inr hn) herr
      refine Or.inr ⟨pre, i, post, sender, rfl, hcont, hout, fun s => (hshown s).trans (hone s), ?_⟩
      rw [hdb', htables, htable]

lemma Thread.Took.db_eq {w : Writer D T K V A} {cmds : List (Input T K V A S)}
    {th : Thread D T K V A S} (h : Thread.Took W env w cmds th) :
    ∃ used post, cmds = used ++ post ∧ th.events = (feedAll W env w used).2 ∧
      th.writer.db = (feedAll W env w used).1.db := by
  obtain ⟨used, hcmds, hev, hw | ⟨-, ⟨-, hw⟩ | ⟨st, -, hw⟩⟩⟩ := h <;>
    exact ⟨used, th.chan, hcmds, hev, by rw [hw]⟩

omit [LinearOrder K] in
lemma commit_not_spoils {sender : A} : ¬ (Outcome.ok (.commit sender (.ok ()))).Spoils := by
  rintro (⟨e, h⟩ | ⟨ack, h⟩ | ⟨s, e, h⟩) <;> cases h

omit [LinearOrder K] in
lemma commit_not_keepsOpen {sender : A} : ¬ (Outcome.ok (.commit sender (.ok ()))).KeepsOpen := by
  rintro (h | ⟨e, h⟩) <;> cases h

omit [LinearOrder K] in
lemma continue_not_spoils : ¬ (Outcome.ok .continue : Outcome A).Spoils := by
  rintro (⟨e, h⟩ | ⟨ack, h⟩ | ⟨s, e, h⟩) <;> cases h

variable (W env) in
/-- **All or nothing.**  The commands `cmds` come after `Begin`, the thread drains them in batches
of any sizes `batches`, and any table access and any sink may fail.  A flush that is answered `Ok`
comes after commands that all succeeded, and the committed tables are then the old ones with the
inserts and removes made at once, in their order, followed by the insert of all buffered pairs.  If
no flush is answered `Ok` the tables are unchanged, and so it is where a command fails, the insert
of the flush fails or a shutdown comes first. -/
theorem txRun_all_or_nothing (db : D) (cmds : List (Input T K V A S))
    (hbegin : ∀ ack fault, (.begin ack, fault) ∉ cmds) (batches : List ℕ) :
    let st : TxState T K V A := TxState.new (W.openForWrite db)
    let th := run (turn W env) ⟨⟨db, .inTx st⟩, cmds, []⟩ batches
    (∀ sender, .flushed sender (.ok ()) ∈ th.events → ∃ pre i post, cmds = pre ++ i :: post ∧
        EachOutcome W env Outcome.Continues st pre ∧
        outcomeAt W env st pre i = .ok (.commit sender (.ok ())) ∧
        (buffered MergeBuffer.new pre).takeSorted.1 ~ pushed pre ∧
        th.writer.db = W.tables (W.insertManySortedByKey (replay W (W.openForWrite db) pre)
          (buffered MergeBuffer.new pre).takeSorted.1)) ∧
      ((∀ sender, .flushed sender (.ok ()) ∉ th.events) → th.writer.db = db) ∧
      ((∃ pre i post, cmds = pre ++ i :: post ∧ EachOutcome W env Outcome.KeepsOpen st pre ∧
          (outcomeAt W env st pre i).Spoils) →
        (∀ sender, .flushed sender (.ok ()) ∉ th.events) ∧ th.writer.db = db) := by
  intro st th
  have htook : Thread.Took W env ⟨db, .inTx st⟩ cmds th :=
    run_inv (C := fun _ _ => True) (Thread.took_start _ cmds) (fun s more hs _ => hs.turn more)
      (fun _ _ _ => trivial) batches (List.prefix_refl _)
  obtain ⟨used, rest, hused, hev, hdb⟩ := htook.db_eq
  have hno : ∀ ack fault, (.begin ack, fault) ∉ used := by
    intro ack fault hm
    exact hbegin ack fault (hused ▸ List.mem_append_left _ hm)
  rw [hev, hdb]
  rcases feedAll_all_or_nothing W env db st hno with
    ⟨hnone, hsame⟩ | ⟨pre, i, post, sender, hsplit, hcont, hout, hone, htables⟩
  · exact ⟨fun sender hm => absurd hm (hnone sender), fun _ => hsame, fun _ => ⟨hnone, hsame⟩⟩
  · obtain ⟨hrows, hbuf, hperm, -⟩ := txAfter_continues (W.sameRows_refl st.table) hcont
    replace hbuf : (txAfter W env st pre).asyncMergeBuf = buffered MergeBuffer.new pre := hbuf
    have hcmds : cmds = pre ++ i :: (post ++ rest) := by rw [hused, hsplit, List.append_assoc]; rfl
    refine ⟨fun s hs => ⟨pre, i, post ++ rest, hcmds, hcont, ?_, ?_, ?_⟩, fun hn => ?_, ?_⟩
    · rw [(hone s).mp hs]
      exact hout
    · rw [← hbuf]
      exact (MergeBuffer.takeSorted_perm _).trans hperm
    · rw [htables, hbuf]
      exact W.tables_eq (W.sameRows_insertMany hrows _)
    · exact absurd ((hone sender).mpr rfl) (hn sender)
    · -- a command that spoils the transaction cannot stand before, at or behind the one that commits
      rintro ⟨pre', i', post', hcmds', hopen, hspoil⟩
      exfalso
      rw [hcmds] at hcmds'
      rcases List.append_eq_append_iff.mp hcmds' with ⟨as, hpre', hi⟩ | ⟨bs, hpre, hi⟩
      · cases as with
        | nil =>
          rw [List.append_nil] at hpre'
          subst hpre'
          obtain ⟨rfl, -⟩ := List.cons.inj hi
          rw [hout] at hspoil
          exact absurd hspoil commit_not_spoils
        | cons a as =>
          obtain ⟨rfl, -⟩ := List.cons.inj hi
          have hkeep := hopen pre i as hpre'
          rw [hout] at hkeep
          exact absurd hkeep commit_not_keepsOpen
      · cases bs with
        | nil =>
          rw [List.append_nil] at hpre
          subst hpre
          obtain ⟨rfl, -⟩ := List.cons.inj hi
          rw [hout] at hspoil
          exact absurd hspoil commit_not_spoils
        | cons b bs =>
          obtain ⟨rfl, -⟩ := List.cons.inj hi
          have hgo := hcont pre' i' bs hpre
          rw [hgo] at hspoil
          exact absurd hspoil continue_not_spoils

end Machine

/-- A row written at once, a row for the flush, and the flush. -/
def twoRows : List (Input (Table ℕ ℕ) ℕ ℕ ℕ Unit) :=
  [(.writeInsertNow 1 10, none), (.appendSortedInserts [(2, 20)], none), (.flush 0, none)]

theorem txRun_commits_two_rows :
    (∀ ack fault, (.begin ack, fault) ∉ twoRows) ∧
    .flushed 0 (.ok ()) ∈ (run (turn (plainTable ℕ ℕ) Env.fine)
      ⟨⟨Table.empty, .inTx (TxState.new Table.empty)⟩, twoRows, []⟩ [0, 5]).events ∧
    ∃ pre i post, twoRows = pre ++ i :: post ∧
      EachOutcome (plainTable ℕ ℕ) Env.fine Outcome.Continues (TxState.new Table.empty) pre ∧
      (run (turn (plainTable ℕ ℕ) Env.fine)
        ⟨⟨Table.empty, .inTx (TxState.new Table.empty)⟩, twoRows, []⟩ [0, 5]).writer.db =
        (replay (plainTable ℕ ℕ) Table.empty pre).insertAll
          (buffered MergeBuffer.new pre).takeSorted.1 := by
  have hbegin : ∀ ack fault, (.begin ack, fault) ∉ twoRows := by simp [twoRows]
  have hok : .flushed 0 (.ok ()) ∈ (run (turn (plainTable ℕ ℕ) Env.fine)
      ⟨⟨Table.empty, .inTx (TxState.new Table.empty)⟩, twoRows, []⟩ [0, 5]).events :=
    List.mem_cons_of_mem _ List.mem_cons_self
  obtain ⟨pre, i, post, hcmds, hcont, -, -, hdb⟩ :=
    (txRun_all_or_nothing (plainTable ℕ ℕ) Env.fine Table.empty twoRows hbegin [0, 5]).1 0 hok
  exact ⟨hbegin, hok, pre, i, post, hcmds, hcont, hdb⟩

end Redbit.Storage
