import Redbit.Storage.WriterNet
import Redbit.Storage.IndexCache
import Mathlib.Data.Multiset.Bind

/-!
# Queries that fill a column

The client makes a series of calls of `query_and_write` on the index, only the last of them with
`is_last`, and then flushes the index.  The sinks send the rows they make of the answers to other
columns, each shard of which is asked once, at any moment, to flush when it is ready.

`fan_out_exact` says what comes out of this in every interleaving of all these threads.
-/

namespace Redbit.Storage

open Redbit.Lib Redbit.Lib.Net
open scoped List

/-! ### Lookups -/

namespace IndexTable

variable {K V : Type} [LinearOrder K] [LinearOrder V] [CacheKey V]

/-- The tables differ at most in how recently the entries of the cache were used. -/
structure SameAnswers (s t : IndexTable K V) : Prop where
  tables : s.toIndexTables = t.toIndexTables
  cache : ∀ k, cachePeek s.cache k = cachePeek t.cache k

omit [LinearOrder K] [LinearOrder V] in
lemma SameAnswers.trans {r s t : IndexTable K V} (h : SameAnswers r s) (h' : SameAnswers s t) :
    SameAnswers r t :=
  ⟨h.tables.trans h'.tables, fun k => (h.cache k).trans (h'.cache k)⟩

lemma SameAnswers.answer_eq {s t : IndexTable K V} (h : SameAnswers s t) (v : V) :
    s.answer v = t.answer v := by
  have hrev : s.pkByIndex = t.pkByIndex := congrArg IndexTables.pkByIndex h.tables
  rw [IndexTable.answer_eq, IndexTable.answer_eq, h.cache, hrev]

/-- A lookup changes no later answer. -/
lemma sameAnswers_getAny (t : IndexTable K V) (v : V) : SameAnswers (t.getAnyForIndex v).2 t where
  tables := toIndexTables_getAny t v
  cache k := by
    rw [← cachePeek_cacheGet t.cache (cacheKey v) k, getAnyForIndex]
    rcases cacheGet t.cache (cacheKey v) with ⟨k | k, cache⟩ <;> rfl

lemma lookupAll_eq (t : IndexTable K V) (values : List (ℕ × V)) :
    (TxState.lookupAll getAnyForIndex t values).1 = values.map (fun e => (e.1, t.answer e.2)) ∧
      SameAnswers (TxState.lookupAll getAnyForIndex t values).2 t := by
  induction values generalizing t with
  | nil => exact ⟨rfl, rfl, fun _ => rfl⟩
  | cons e values ih =>
    have hone := sameAnswers_getAny t e.2
    obtain ⟨hout, hsame⟩ := ih (t.getAnyForIndex e.2).2
    refine ⟨?_, hsame.trans hone⟩
    simp only [TxState.lookupAll, hout, hone.answer_eq, List.map_cons]
    rfl

end IndexTable

namespace Columns

variable {X : Columns} {E : Type}

/-! ### Calls -/

/-- A call of `query_and_write`: its sink and its values. -/
abbrev Call (X : Columns) := X.Sink × List X.IV

variable (X) in
/-- The commands for the index: all calls, the last of them with `is_last`, and then the flush. -/
def callAll (calls : List X.Call) (last : X.Call) (cl : E) : List (Fin X.shards × X.Cmd E) :=
  (calls.flatMap fun call => routeQuery X.part call.2 false call.1) ++
    routeQuery X.part last.2 true last.1 ++ toEach fun _ => some (.flush cl)

/-- What the shard `i` of the index answers to a call, if `ans` are the answers for the values. -/
def answersOf (ans : X.IV → Option X.IK) (i : Fin X.shards) (values : List X.IV) :
    List (ℕ × Option X.IK) :=
  (bucketValues X.part i values).map fun e => (e.1, ans e.2)

/-- The answers to a call: each position with the answer for its value. -/
def answers (ans : X.IV → Option X.IK) (values : List X.IV) : List (ℕ × Option X.IK) :=
  (enumerate values).map fun e => (e.1, ans e.2)

/-- Together the shards answer every position of a call once. -/
lemma answers_perm (ans : X.IV → Option X.IK) (values : List X.IV) :
    ((List.finRange X.shards).flatMap fun i => answersOf ans i values) ~ answers ans values := by
  unfold answersOf
  rw [← List.map_flatMap]
  exact (perm_filter_part (fun e : ℕ × X.IV => X.part e.2) (enumerate values)).map _

/-! ### One shard of the index -/

section OneShard

variable {K V A S : Type} [LinearOrder K] [LinearOrder V] [CacheKey V] {f : IndexFactory}
  (env : Env K A S)
  (db : IndexTables K V)

/-- A query shows the answers, and changes none. -/
lemma feed_query (st : TxState (IndexTable K V) K V A) (lastShards : Option ℕ)
    (values : List (ℕ × V)) (s : S) :
    ∃ st', feed (indexTable f K V) env ⟨db, .inTx st⟩ (.queryAndWrite lastShards values s, none) =
        (⟨db, .inTx st'⟩, if values = [] ∧ lastShards = none then []
          else [.sunk s lastShards (values.map fun e => (e.1, st.table.answer e.2))]) ∧
      st'.table.SameAnswers st.table := by
  have hsink : ∀ (st' : TxState (IndexTable K V) K V A) (out : List (ℕ × Option K)),
      ∃ st'', settle (indexTable f K V) env db (st'.sink env s lastShards out) =
        (⟨db, .inTx st''⟩, [.sunk s lastShards out]) ∧ st''.table = st'.table := by
    intro st' out
    unfold TxState.sink
    cases env.runSink s lastShards out with
    | ok u => exact ⟨st', rfl, rfl⟩
    | error e => exact ⟨{ st' with writeError := some e }, rfl, rfl⟩
  by_cases hvalues : values = []
  · cases lastShards with
    | none =>
      refine ⟨st, ?_, rfl, fun _ => rfl⟩
      simp [feed, TxState.step, TxState.queryAndWrite, settle, hvalues]
    | some n =>
      obtain ⟨st'', hset, htable⟩ := hsink st []
      refine ⟨st'', ?_, by rw [htable]; exact ⟨rfl, fun _ => rfl⟩⟩
      simpa [feed, TxState.step, TxState.queryAndWrite, hvalues] using hset
  · obtain ⟨hout, hsame⟩ := st.table.lookupAll_eq values
    obtain ⟨st'', hset, htable⟩ := hsink
      { st with table := (TxState.lookupAll IndexTable.getAnyForIndex st.table values).2 }
      (TxState.lookupAll IndexTable.getAnyForIndex st.table values).1
    refine ⟨st'', ?_, by rw [htable]; exact hsame⟩
    rw [if_neg (fun h => hvalues h.1), ← hout, ← hset]
    simp [feed, TxState.step, TxState.queryAndWrite, hvalues, indexTable]

end OneShard

/-! ### From the answers to the rows -/

section Rows

variable {α : Type} (sinkOf : α → X.Sink) (out : Fin X.shards → α → List (ℕ × Option X.IK))
  (calls : List α) (last : α)

/-- An event that is no call of a sink. -/
def Quiet (ev : Event X.IK X.IV E X.Sink) : Prop :=
  ∀ s lastShards answers, ev ≠ .sunk s lastShards answers

lemma toShard_of_quiet {ev : Event X.IK X.IV E X.Sink} (h : Quiet ev) (c : X.Col)
    (j : Fin (X.shardsOf c)) : X.toShard c j ev = [] := by
  cases ev with
  | sunk s lastShards answers => exact absurd rfl (h s lastShards answers)
  | _ => rfl

/-- What a shard of the index shows if it gives the answers `out` to the calls: the sink of each
call is called for its answers if there are any, and the last one in any case. -/
def Shows (out : α → List (ℕ × Option X.IK)) (ev : List (Event X.IK X.IV E X.Sink)) : Prop :=
  ∃ tail, ev = (calls.flatMap fun a => if out a = [] then [] else [.sunk (sinkOf a) none (out a)]) ++
    .sunk (sinkOf last) (some X.shards) (out last) :: tail ∧ ∀ e ∈ tail, Quiet e

variable (row : ∀ c, X.Sink → ℕ × Option X.IK → List (X.K c × X.V c)) (c : X.Col)
  (j : Fin (X.shardsOf c))

/-- The data for the shard `j` among the rows of one call. -/
def bodyOf (s : X.Sink) (answers : List (ℕ × Option X.IK)) : List (List (X.K c × X.V c)) :=
  let bucket := bucketPairs (X.partOf c) j (answers.flatMap (row c s))
  if bucket = [] then [] else [bucket]

lemma flatten_bodyOf (s : X.Sink) (answers : List (ℕ × Option X.IK)) :
    (bodyOf row c j s answers).flatten = bucketPairs (X.partOf c) j (answers.flatMap (row c s)) := by
  unfold bodyOf
  dsimp only
  split
  · next h => rw [h, List.flatten_nil]
  · exact List.append_nil _

variable {row c j}

lemma toShard_sunk (hc : c ∈ X.sinks) {s : X.Sink} {answers : List (ℕ × Option X.IK)}
    (hsink : X.sink s answers = .ok fun c => answers.flatMap (row c s)) (lastShards : Option ℕ) :
    (X.toShard c j (.sunk s lastShards answers) : List (X.CmdOf E c)) =
      (bodyOf row c j s answers).map .mergeUnsortedInserts ++
        (lastShards.map .readyForFlush).toList := by
  simp only [toShard, hsink, if_pos hc, sentBy_routeMerge, bodyOf]
  split <;> rfl

variable {sinkOf out calls last}

/-- A shard of the index that shows its answers fills the shard `j`. -/
lemma Shows.fills (hc : c ∈ X.sinks) {out : α → List (ℕ × Option X.IK)}
    {ev : List (Event X.IK X.IV E X.Sink)} (h : Shows sinkOf calls last out ev)
    (hsink : ∀ a ∈ calls ++ [last], X.sink (sinkOf a) (out a) = .ok fun c =>
      (out a).flatMap (row c (sinkOf a))) : ev.flatMap (X.toShard c j) =
      upstream X.shards ((calls ++ [last]).flatMap fun a => bodyOf row c j (sinkOf a) (out a)) := by
  obtain ⟨tail, rfl, htail⟩ := h
  have hquiet : tail.flatMap (X.toShard c j) = [] :=
    List.flatMap_eq_nil_iff.mpr fun e he => toShard_of_quiet (htail e he) c j
  have hone : ∀ a ∈ calls, ((if out a = [] then [] else [.sunk (sinkOf a) none (out a)] :
      List (Event X.IK X.IV E X.Sink)).flatMap (X.toShard c j)) =
      (bodyOf row c j (sinkOf a) (out a)).map .mergeUnsortedInserts := by
    intro a ha
    split
    · next hnil => simp [bodyOf, bucketPairs, hnil]
    · rw [List.flatMap_singleton, toShard_sunk hc (hsink a (List.mem_append_left _ ha))]
      simp
  have hlast := toShard_sunk (E := E) (j := j) hc (hsink last (by simp)) (some X.shards)
  rw [List.flatMap_append, List.flatMap_cons, hquiet, hlast, List.flatMap_assoc,
    List.flatMap_congr hone, upstream]
  simp [List.map_flatMap]

lemma bucketPairs_flatMap {α K V : Type} {n : ℕ} (part : K → Fin n) (j : Fin n) (l : List α)
    (f : α → List (K × V)) :
    bucketPairs part j (l.flatMap f) = l.flatMap fun a => bucketPairs part j (f a) :=
  List.filter_flatMap

lemma perm_flatMap_swap {α β γ : Type} (l : List α) (l' : List β) (f : α → β → List γ) :
    (l.flatMap fun a => l'.flatMap (f a)) ~ l'.flatMap fun b => l.flatMap fun a => f a b := by
  rw [← Multiset.coe_eq_coe, ← Multiset.coe_bind, ← Multiset.coe_bind]
  simp only [← Multiset.coe_bind]
  exact Multiset.bind_bind _ _

/-- Together they send it the rows of all answers that belong to it. -/
lemma perm_bodies {all : α → List (ℕ × Option X.IK)}
    (hall : ∀ a ∈ calls, ((List.finRange X.shards).flatMap fun i => out i a) ~ all a) :
    ((List.finRange X.shards).flatMap fun i =>
      (calls.flatMap fun a => bodyOf row c j (sinkOf a) (out i a)).flatten) ~
      bucketPairs (X.partOf c) j (calls.flatMap fun a => (all a).flatMap (row c (sinkOf a))) := by
  have hflat : ∀ i, (calls.flatMap fun a => bodyOf row c j (sinkOf a) (out i a)).flatten =
      calls.flatMap fun a => bucketPairs (X.partOf c) j ((out i a).flatMap (row c (sinkOf a))) := by
    intro i
    rw [← List.flatMap_id, List.flatMap_assoc]
    refine List.flatMap_congr fun a _ => ?_
    rw [List.flatMap_id, flatten_bodyOf]
  simp only [hflat]
  refine (perm_flatMap_swap _ _ _).trans ?_
  rw [bucketPairs_flatMap]
  refine List.Perm.flatMap_left _ fun a ha => ?_
  rw [← bucketPairs_flatMap, ← List.flatMap_assoc]
  exact ((hall a ha).flatMap_right _).filter _

end Rows

/-! ### The calls of the client -/

section Calls

variable (X)

/-- Those who use the columns: the client, and for each shard somebody who asks it to flush. -/
abbrev Asker := Option (Σ c, Fin (X.shardsOf c))

/-- The tables of all shards, each at the start of a transaction. -/
structure Opened where
  idb : Fin X.shards → IndexTables X.IK X.IV
  itable : Fin X.shards → IndexTable X.IK X.IV
  db : ∀ c, Fin (X.shardsOf c) → X.D c
  table : ∀ c, Fin (X.shardsOf c) → X.T c

variable {X}

/-- The states of the parties at the start of a transaction. -/
def Opened.state (o : X.Opened) : ∀ p : Party X E, X.State E p
  | .user _ => []
  | .index i => ⟨⟨o.idb i, .inTx (TxState.new (o.itable i))⟩, []⟩
  | .shard c j => ⟨⟨o.db c j, .inTx (TxState.new (o.table c j))⟩, []⟩

/-- What the users have to say. -/
def fanOut (calls : List X.Call) (last : X.Call) : X.Asker → List (Σ p, X.Msg X.Asker p)
  | none => X.toIndex (X.callAll calls last none)
  | some a => [⟨.shard a.1 a.2, .flushWhenReady (some a)⟩]

lemma sentBy_flatMap {ι M β : Type} [DecidableEq ι] (k : ι) (l : List β) (g : β → List (ι × M)) :
    sentBy k (l.flatMap g) = l.flatMap fun b => sentBy k (g b) := by
  induction l with
  | nil => rfl
  | cons b l ih => simp [ih]

variable {ans : X.IV → Option X.IK} (i : Fin X.shards) (db : IndexTables X.IK X.IV)
  (st : TxState (IndexTable X.IK X.IV) X.IK X.IV E)

/-- One call: the shard shows its answers, if there are any or if it is the last call. -/
lemma feed_call (h : ∀ v, X.part v = i → st.table.answer v = ans v) (call : X.Call) (isLast : Bool) :
    ∃ st', feedAll (indexTable X.factory X.IK X.IV) X.env ⟨db, .inTx st⟩
        (commands (sentBy i (routeQuery X.part call.2 isLast call.1))) =
        (⟨db, .inTx st'⟩, if answersOf ans i call.2 = [] ∧ isLast = false then []
          else [.sunk call.1 (if isLast then some X.shards else none) (answersOf ans i call.2)]) ∧
      st'.table.SameAnswers st.table := by
  have hnil : answersOf ans i call.2 = [] ↔ bucketValues X.part i call.2 = [] := List.map_eq_nil_iff
  rw [sentBy_routeQuery]
  simp only [hnil]
  by_cases hnone : bucketValues X.part i call.2 = [] ∧ isLast = false ∧ X.shards ≠ 1
  · rw [if_pos hnone, if_pos ⟨hnone.1, hnone.2.1⟩]
    exact ⟨st, rfl, rfl, fun _ => rfl⟩
  · rw [if_neg hnone]
    obtain ⟨st', hfeed, hsame⟩ := feed_query (f := X.factory) X.env db st
      (if isLast then some X.shards else none) (bucketValues X.part i call.2) call.1
    refine ⟨st', ?_, hsame⟩
    have hans : (bucketValues X.part i call.2).map (fun e => (e.1, st.table.answer e.2)) =
        answersOf ans i call.2 := by
      refine List.map_congr_left fun e he => ?_
      rw [h e.2 (by simpa using (List.mem_filter.mp he).2)]
    rw [hans] at hfeed
    simp only [commands, List.map_cons, List.map_nil, feedAll, hfeed, List.append_nil]
    cases isLast <;> simp

lemma feed_calls (h : ∀ v, X.part v = i → st.table.answer v = ans v) (calls : List X.Call) :
    ∃ st', feedAll (indexTable X.factory X.IK X.IV) X.env ⟨db, .inTx st⟩
        (commands (calls.flatMap fun call => sentBy i (routeQuery X.part call.2 false call.1))) =
        (⟨db, .inTx st'⟩, calls.flatMap fun call =>
          if answersOf ans i call.2 = [] then [] else [.sunk call.1 none (answersOf ans i call.2)]) ∧
      st'.table.SameAnswers st.table := by
  induction calls generalizing st with
  | nil => exact ⟨st, rfl, rfl, fun _ => rfl⟩
  | cons call calls ih =>
    obtain ⟨st₁, hfeed, h₁⟩ := feed_call i db st h call false
    obtain ⟨st₂, hrest, h₂⟩ := ih st₁ fun v hv => (h₁.answer_eq v).trans (h v hv)
    refine ⟨st₂, ?_, h₂.trans h₁⟩
    rw [List.flatMap_cons, commands_append, feedAll_append, hfeed, hrest]
    simp

/-- A flush calls no sink. -/
lemma quiet_flush (w : Writer (IndexTables X.IK X.IV) (IndexTable X.IK X.IV) X.IK X.IV E) (cl : E) :
    ∀ ev ∈ (feed (indexTable X.factory X.IK X.IV) X.env w (.flush cl, none)).2, Quiet ev := by
  obtain ⟨db, phase⟩ := w
  intro ev hev
  cases phase with
  | outside => cases hev
  | ended => cases hev
  | inTx st =>
    obtain ⟨hnone, hout⟩ := flush_cases (W := indexTable X.factory X.IK X.IV) (S := X.Sink) st none cl
    have hanswer : ev = .committed ∨ ∃ r, ev = .flushed cl r := by
      rcases hout with ⟨e, hout⟩ | ⟨e, hout⟩ | ⟨-, hout, -⟩ <;>
        simp [feed, TxState.step, settle, hnone, hout, env] at hev <;> tauto
    rcases hanswer with rfl | ⟨r, rfl⟩
    · intro _ _ _ h
      cases h
    · intro _ _ _ h
      cases h

/-- The answer for a value at the start. -/
def Opened.answer (o : X.Opened) (v : X.IV) : Option X.IK := (o.itable (X.part v)).answer v

/-- The whole run of a shard of the index. -/
lemma shows_run (o : X.Opened) (calls : List X.Call) (last : X.Call) :
    Shows Prod.fst calls last (fun call => answersOf o.answer i call.2)
      (indexRun o.state (fanOut calls last) none i).2 := by
  have hstream : sentTo (.index i) (fanOut calls last none) =
      (calls.flatMap fun call => sentBy i (routeQuery X.part call.2 false call.1)) ++
        (sentBy i (routeQuery X.part last.2 true last.1) ++ [.flush none]) := by
    rw [fanOut, sentTo_toIndex, callAll, sentBy_append, sentBy_append, sentBy_flatMap, sentBy_toEach]
    simp
  have hans : ∀ v, X.part v = i → (o.itable i).answer v = o.answer v := by
    rintro v rfl
    rfl
  obtain ⟨st₁, hcalls, h₁⟩ := feed_calls (E := X.Asker) i (o.idb i) (TxState.new (o.itable i))
    hans calls
  obtain ⟨st₂, hlast, h₂⟩ := feed_call i (o.idb i) st₁
    (fun v hv => (h₁.answer_eq v).trans (hans v hv)) last true
  refine ⟨_, ?_, quiet_flush ⟨o.idb i, .inTx st₂⟩ none⟩
  rw [indexRun, hstream, commands_append, commands_append, feedAll_append, feedAll_append,
    show (o.state (.index i)).writer = ⟨o.idb i, .inTx (TxState.new (o.itable i))⟩ from rfl,
      hcalls, hlast]
  simp [commands, feedAll]

end Calls

/-! ### Every interleaving -/

section Exact

/-- The answers an event passes to the sink `s`. -/
def passed [DecidableEq X.Sink] (s : X.Sink) : Event X.IK X.IV E X.Sink → List (ℕ × Option X.IK)
  | .sunk s' _ out => if s' = s then out else []
  | _ => []

/-- All answers that have been passed to the sink `s`. -/
def passedTo [DecidableEq X.Sink] (s : X.Sink) (net : Net (Party X E) (X.State E) (X.Msg E)) :
    List (ℕ × Option X.IK) :=
  (List.finRange X.shards).flatMap fun i => (net.state (.index i)).events.flatMap (passed s)

/-- The number of commits among the events. -/
def commits {K V A S : Type} (events : List (Event K V A S)) : ℕ :=
  events.countP fun
    | .committed => true
    | _ => false

lemma Shows.passed [DecidableEq X.Sink] {α : Type} {sinkOf : α → X.Sink} {calls : List α} {last : α}
    {out : α → List (ℕ × Option X.IK)} {ev : List (Event X.IK X.IV E X.Sink)}
    (h : Shows sinkOf calls last out ev) (s : X.Sink) :
    ev.flatMap (passed s) = ((calls ++ [last]).filter fun a => sinkOf a = s).flatMap out := by
  obtain ⟨tail, rfl, htail⟩ := h
  have hquiet : tail.flatMap (Columns.passed s) = [] := by
    refine List.flatMap_eq_nil_iff.mpr fun e he => ?_
    have hq := htail e he
    cases e with
    | sunk s' lastShards out => exact absurd rfl (hq s' lastShards out)
    | _ => rfl
  have hone : ∀ a, ((if out a = [] then [] else [.sunk (sinkOf a) none (out a)] :
      List (Event X.IK X.IV E X.Sink)).flatMap (Columns.passed s)) = if sinkOf a = s then out a
        else [] := by
    intro a
    by_cases hnil : out a = []
    · simp [hnil]
    · simp [hnil, Columns.passed]
  have hfilter : ∀ l : List α, (l.filter fun a => sinkOf a = s).flatMap out =
      l.flatMap fun a => if sinkOf a = s then out a else [] := by
    intro l
    induction l with
    | nil => rfl
    | cons a l ih => by_cases ha : sinkOf a = s <;> simp [ha, ih]
  rw [hfilter, List.flatMap_append, List.flatMap_cons, hquiet, List.flatMap_assoc,
    List.flatMap_congr fun a _ => hone a]
  simp [Columns.passed]

variable (o : X.Opened) (calls : List X.Call) (last : X.Call)

/-- Everything the shard `i` of the index ever sends to the shard `j` of the column `c`. -/
def addressed (i : Fin X.shards) (c : X.Col) (j : Fin (X.shardsOf c)) : List (X.CmdOf X.Asker c) :=
  (indexRun o.state (fanOut calls last) none i).2.flatMap (X.toShard c j)

/-- The rows of all answers to all calls. -/
def allRows (row : ∀ c, X.Sink → ℕ × Option X.IK → List (X.K c × X.V c)) (c : X.Col) :
    List (X.K c × X.V c) :=
  (calls ++ [last]).flatMap fun call => (answers o.answer call.2).flatMap (row c call.1)

lemma onlyClient : OnlyClient (fanOut calls last) none := by
  intro i e he
  cases e with
  | none => exact absurd rfl he
  | some a => exact sentTo_eq_nil (by simp [fanOut])

variable {row : ∀ c, X.Sink → ℕ × Option X.IK → List (X.K c × X.V c)}
  (hsink : ∀ s out, X.sink s out = .ok fun c => out.flatMap (row c s))

include hsink in
/-- Every shard of a column the sinks fill is filled. -/
lemma filled {c : X.Col} (hc : c ∈ X.sinks) (j : Fin (X.shardsOf c)) :
    Filled o.state (fanOut calls last) none c j (some ⟨c, j⟩) (some ⟨c, j⟩) (o.db c j) (o.table c j)
      fun i => (calls ++ [last]).flatMap fun call =>
        bodyOf row c j call.1 (answersOf o.answer i call.2) where
  start := rfl
  asks := by simp [fanOut]
  silent e he := by
    cases e with
    | none => exact sentTo_toIndex_of_ne (by simp) _
    | some a =>
      refine sentTo_eq_nil fun m hm => ?_
      rw [List.mem_singleton.mp hm]
      rintro ⟨⟩
      exact he rfl
  fills i := (shows_run i o calls last).fills hc fun call _ => hsink call.1 _

/-- The answers to the calls with the sink `s`. -/
def expected [DecidableEq X.Sink] (s : X.Sink) : List (ℕ × Option X.IK) :=
  ((calls ++ [last]).filter fun call => call.1 = s).flatMap fun call => answers o.answer call.2

lemma perm_expected [DecidableEq X.Sink] (s : X.Sink) :
    ((List.finRange X.shards).flatMap fun i =>
      (indexRun o.state (fanOut calls last) none i).2.flatMap (passed s)) ~
      expected o calls last s := by
  rw [List.flatMap_congr fun i _ => (shows_run i o calls last).passed s]
  refine (perm_flatMap_swap _ _ _).trans ?_
  exact List.Perm.flatMap_left _ fun call _ => answers_perm o.answer call.2

variable {o calls last} {net : Net (Party X X.Asker) (X.State X.Asker) (X.Msg X.Asker)}

lemma events_index (h : X.Lawful o.state (fanOut calls last) net) (i : Fin X.shards) :
    (net.state (.index i)).events = shownBy o.state net i := h.state_index i

/-- Nothing is passed to a sink that is not expected, and nothing twice. -/
lemma passedTo_subperm [DecidableEq X.Sink] (h : X.Lawful o.state (fanOut calls last) net)
    (s : X.Sink) : passedTo s net <+~ expected o calls last s := by
  have hsub : passedTo s net <+
      (List.finRange X.shards).flatMap fun i =>
        (indexRun o.state (fanOut calls last) none i).2.flatMap (passed s) := by
    have key : ∀ is : List (Fin X.shards),
      (is.flatMap fun i => (net.state (.index i)).events.flatMap (passed s)) <+
        is.flatMap fun i => (indexRun o.state (fanOut calls last) none i).2.flatMap (passed s) := by
      intro is
      induction is with
      | nil => exact List.Sublist.refl _
      | cons i is ih =>
        have hpre := h.shownBy_isPrefix (onlyClient calls last) i
        rw [List.flatMap_cons, List.flatMap_cons, events_index h]
        exact (hpre.flatMap _).sublist.append ih
    exact key _
  exact hsub.subperm.trans (perm_expected o calls last s).subperm

/-- Where all channels have drained, everything expected has been passed. -/
lemma passedTo_drained [DecidableEq X.Sink] (h : X.Lawful o.state (fanOut calls last) net)
    (hd : Drained net) (s : X.Sink) : passedTo s net ~ expected o calls last s := by
  have hall : ∀ i, (net.state (.index i)).events = (indexRun o.state (fanOut calls last) none i).2 :=
    fun i => (events_index h i).trans (h.shownBy_drained (onlyClient calls last) hd i)
  rw [passedTo, List.flatMap_congr fun i _ => by rw [hall i]]
  exact perm_expected o calls last s

/-- **Queries that fill a column.**  In every state of every interleaving: every answer that was
passed to a sink was expected, and when all channels have drained all expected answers have been
passed.  No shard of a column the sinks fill has committed twice, and when all channels have drained
each has committed.  Whoever has committed has taken everything the index sends to it, and has
committed exactly the rows of all answers whose keys belong to it. -/
theorem fan_out_exact {X : Columns} [DecidableEq X.Sink] (hN : X.shards ≠ 0)
    (row : ∀ c, X.Sink → ℕ × Option X.IK → List (X.K c × X.V c))
    (hsink : ∀ s out, X.sink s out = .ok fun c => out.flatMap (row c s))
    (o : X.Opened) (calls : List X.Call) (last : X.Call) {acts : List (Act (Party X X.Asker))}
    {net : Net (Party X X.Asker) (X.State X.Asker) (X.Msg X.Asker)}
    (hrun : sched (Net.step X.handle) (X.boot o.state (fanOut calls last)) acts = some net) :
    (∀ s, passedTo s net <+~ expected o calls last s) ∧
    (Drained net → ∀ s, passedTo s net ~ expected o calls last s) ∧
    ∀ c ∈ X.sinks, ∀ j,
      commits (net.state (.shard c j)).events ≤ 1 ∧
      (Drained net → commits (net.state (.shard c j)).events = 1) ∧
      (commits (net.state (.shard c j)).events = 1 →
        (∀ i, sentBy (.index i) (net.log (.shard c j)) = addressed o calls last i c j) ∧
        ∃ kvs, kvs ~ bucketPairs (X.partOf c) j (allRows o calls last row c) ∧
          (net.state (.shard c j)).writer.db =
            (X.table c).tables ((X.table c).insertManySortedByKey (o.table c j) kvs)) := by
  have h : X.Lawful o.state (fanOut calls last) net := inv_sched hrun
  refine ⟨passedTo_subperm h, fun hd => passedTo_drained h hd, fun c hc j => ?_⟩
  have hf := filled o calls last hsink hc j
  have hcl := onlyClient calls last
  rcases hf.run hN h hcl with ⟨hfull, kvs, hkvs, hstate⟩ | ⟨hfull, st, hstate, -⟩
  · have hone : commits (net.state (.shard c j)).events = 1 := by
      rw [hstate]
      rfl
    refine ⟨hone.le, fun _ => hone, fun _ => ⟨fun i => ?_, kvs, ?_, by rw [hstate]⟩⟩
    · rw [hfull.1 i, addressed, hf.fills i]
    · exact hkvs.trans (perm_bodies fun call _ => answers_perm o.answer call.2)
  · have hnone : commits (net.state (.shard c j)).events = 0 := by
      rw [hstate]
      rfl
    refine ⟨by omega, fun hd => absurd (hf.full_of_drained h hcl hd) hfull, fun hone => ?_⟩
    omega

/-! ### Two shards that fill two shards -/

-- The literals of the examples.

scoped instance neZero_one : NeZero 1 := ⟨Nat.one_ne_zero⟩

scoped instance neZero_two : NeZero 2 := ⟨Nat.succ_ne_zero 1⟩

/-- An index of two shards, and a plain column of two shards that gets one row for each answer. -/
@[reducible]
def twoByTwo : Columns where
  IK := ℕ
  IV := ℕ
  shards := 2
  factory := IndexFactory.new 1
  part v := Fin.ofNat 2 v
  Col := Unit
  K _ := ℕ
  V _ := ℕ
  D _ := Table ℕ ℕ
  T _ := Table ℕ ℕ
  table _ := plainTable ℕ ℕ
  shardsOf _ := 2
  partOf _ k := Fin.ofNat 2 k
  Sink := ℕ
  sink s out := .ok fun _ => out.flatMap fun e => [(s + e.1, e.2.getD 0)]
  sinks := [()]
  nodup_sinks := List.nodup_singleton _

/-- The four shards, opened on empty tables. -/
def twoByTwoOpened : twoByTwo.Opened where
  idb _ := IndexTables.empty
  itable _ := (IndexFactory.new 1).openForWrite IndexTables.empty
  db _ _ := (Table.empty : Table ℕ ℕ)
  table _ _ := (Table.empty : Table ℕ ℕ)

/-- A whole run: the client, one shard of the index after the other, and then the shards that are
filled. -/
def twoByTwoActs : List (Act (Party twoByTwo twoByTwo.Asker)) :=
  List.replicate 6 (.send (.user none)) ++
    ([0, 1].flatMap fun i => [.take (.index i), .send (.index i), .take (.index i),
      .send (.index i), .send (.index i), .take (.index i), .send (.index i)]) ++
    ([0, 1].flatMap fun j => [.send (.user (some ⟨(), j⟩)), .take (.shard () j), .take (.shard () j),
      .take (.shard () j), .take (.shard () j), .send (.shard () j)])

/-- All parties. -/
def twoByTwoParties : List (Party twoByTwo twoByTwo.Asker) :=
  [.user none, .user (some ⟨(), 0⟩), .user (some ⟨(), 1⟩), .index 0, .index 1, .shard () 0,
    .shard () 1]

lemma mem_twoByTwoParties (p : Party twoByTwo twoByTwo.Asker) : p ∈ twoByTwoParties := by
  match p with
  | .user none => decide
  | .user (some ⟨(), 0⟩) => decide
  | .user (some ⟨(), 1⟩) => decide
  | .index 0 => decide
  | .index 1 => decide
  | .shard () 0 => decide
  | .shard () 1 => decide

/-- Nothing is left in the outbox of a party, and nothing in its inbox unless it is a user. -/
def emptyAt (net : Net (Party X X.Asker) (X.State X.Asker) (X.Msg X.Asker))
    (p : Party X X.Asker) : Bool :=
  (net.outbox p).isEmpty && match p with
    | .user _ => true
    | p => (net.inbox p).isEmpty

theorem fan_out_two_by_two : ∃ net, sched (Net.step twoByTwo.handle)
      (twoByTwo.boot twoByTwoOpened.state (fanOut [((0 : ℕ), [(5 : ℕ), 4])] ((10 : ℕ), [])))
        twoByTwoActs = some net ∧
    Drained net ∧ ∀ j, commits (net.state (.shard () j)).events = 1 := by
  have hall : (sched (Net.step twoByTwo.handle) (twoByTwo.boot twoByTwoOpened.state
      (fanOut [((0 : ℕ), [(5 : ℕ), 4])] ((10 : ℕ), []))) twoByTwoActs).map
      (fun net => twoByTwoParties.all fun p => emptyAt net p) = some true := by decide +kernel
  obtain ⟨net, hnet, hempty⟩ := Option.map_eq_some_iff.mp hall
  have hat : ∀ p, emptyAt net p = true := fun p => List.all_eq_true.mp hempty p (mem_twoByTwoParties p)
  have hd : Drained net := by
    refine ⟨fun p => ?_, fun p hp => ?_⟩
    · simpa using (Bool.and_eq_true_iff.mp (hat p)).1
    · have hin := (Bool.and_eq_true_iff.mp (hat p)).2
      cases p with
      | user e => exact absurd rfl (hp e)
      | index i => simpa using hin
      | shard c j => simpa using hin
  refine ⟨net, hnet, hd, fun j => ?_⟩
  exact ((fan_out_exact (X := twoByTwo) (by decide) (fun _ s e => [(s + e.1, e.2.getD 0)])
    (fun _ _ => rfl) _ _ _ hnet).2.2 () (by decide) j).2.1 hd

end Exact

end Columns

end Redbit.Storage
