import Redbit.Storage.WriteCtx

/-!
# The answers of a transaction

The client of a write context sends its messages and waits for their answers, twice in a
transaction.  In such a stage each shard answers a number of times that is known beforehand, the
last time when it has taken everything that is meant for it (`Does`).  So when the client has all
answers, nothing is on its way (`Net.Inv.clear`), and the next stage starts from a network at rest.

* `Serves`: one shard that gets its commands from the client alone.
* `index_does`, `shard_does`, `sink_does`: the shards of a network.
* `Stage.not_stuck`, `Stage.clear`, `Stage.rests`: what follows for a stage.
-/

namespace Redbit.Storage

open Redbit.Lib Redbit.Lib.Net

/-! ### One shard -/

section OneShard

variable {D T K V A S : Type} [LinearOrder K] (W : WriteTable D T K V) (env : Env K A S)

/-- Those who are answered. -/
def repliesOf (ev : List (Event K V A S)) : List A := ev.filterMap Event.receiver

omit [LinearOrder K] in
lemma repliesOf_append (ev ev' : List (Event K V A S)) :
    repliesOf (ev ++ ev') = repliesOf ev ++ repliesOf ev' :=
  List.filterMap_append

/-- The command is answered. -/
def WriterCommand.asks : WriterCommand K V A S → Bool
  | .remove _ _ => true
  | .range _ _ _ => true
  | _ => false

/-- The commands of a transaction before its flush, answered to `p`. -/
inductive Calm (p : A) : WriterCommand K V A S → Prop
  | writeInsertNow (k : K) (v : V) : Calm p (.writeInsertNow k v)
  | writeSortedInsertsOnFlush (kvs : List (K × V)) : Calm p (.writeSortedInsertsOnFlush kvs)
  | remove (k : K) : Calm p (.remove k p)
  | range (lo hi : K) (h : W.range.isSome) : Calm p (.range lo hi p)
  | queryAndWrite (lastShards : Option ℕ) (values : List (ℕ × V)) (s : S)
      (h : W.getAnyForIndex.isSome) :
    Calm p (.queryAndWrite lastShards values s)

variable {W env} {p : A}

/-- Such a command leaves the transaction open and no flush pending, and is answered at once. -/
lemma feed_calm (hconn : env.connected p = true) (db : D) {st : TxState T K V A}
    (hst : st.deferred = none) {cmd : WriterCommand K V A S} (h : Calm W p cmd) :
    ∃ st', (feed W env ⟨db, .inTx st⟩ (cmd, none)).1 = ⟨db, .inTx st'⟩ ∧ st'.deferred = none ∧
      repliesOf (feed W env ⟨db, .inTx st⟩ (cmd, none)).2 =
        List.replicate (if cmd.asks then 1 else 0) p := by
  cases h with
  | writeInsertNow k v => exact ⟨_, rfl, hst, rfl⟩
  | writeSortedInsertsOnFlush kvs =>
    simp only [feed, TxState.step]
    split
    · exact ⟨_, rfl, hst, rfl⟩
    · exact ⟨_, rfl, hst, rfl⟩
  | remove k =>
    simp only [feed, TxState.step, TxState.answer, hconn]
    exact ⟨_, rfl, hst, rfl⟩
  | range lo hi h =>
    obtain ⟨f, hf⟩ := Option.isSome_iff_exists.mp h
    simp only [feed, TxState.step, TxState.answer, hconn, hf]
    exact ⟨_, rfl, hst, rfl⟩
  | queryAndWrite lastShards values s h =>
    obtain ⟨f, hf⟩ := Option.isSome_iff_exists.mp h
    have hsink : ∀ (st' : TxState T K V A) (out : List (ℕ × Option K)), st'.deferred = none →
        ∃ st'', (settle W env db (st'.sink env s lastShards out)).1 = ⟨db, .inTx st''⟩ ∧
          st''.deferred = none ∧
          repliesOf (settle W env db (st'.sink env s lastShards out)).2 = [] := by
      intro st' out hst'
      unfold TxState.sink
      cases env.runSink s lastShards out with
      | ok u => exact ⟨_, rfl, hst', rfl⟩
      | error e => exact ⟨_, rfl, hst', rfl⟩
    simp only [feed, TxState.step, TxState.queryAndWrite, hf]
    split
    · split
      · exact hsink st [] hst
      · exact ⟨_, rfl, hst, rfl⟩
    · exact hsink _ _ hst

lemma feed_calms (hconn : env.connected p = true) (db : D) (st : TxState T K V A)
    (hst : st.deferred = none) {cmds : List (WriterCommand K V A S)} (h : ∀ cmd ∈ cmds, Calm W p cmd) :
    ∃ st', (feedAll W env ⟨db, .inTx st⟩ (commands cmds)).1 = ⟨db, .inTx st'⟩ ∧ st'.deferred = none ∧
      repliesOf (feedAll W env ⟨db, .inTx st⟩ (commands cmds)).2 =
        List.replicate (cmds.countP WriterCommand.asks) p := by
  induction cmds generalizing st with
  | nil => exact ⟨st, rfl, hst, rfl⟩
  | cons cmd cmds ih =>
    obtain ⟨st₁, hw₁, hst₁, hr₁⟩ := feed_calm hconn db hst (h cmd List.mem_cons_self)
    obtain ⟨st₂, hw₂, hst₂, hr₂⟩ := ih st₁ hst₁ fun c hc => h c (List.mem_cons_of_mem _ hc)
    refine ⟨st₂, ?_, hst₂, ?_⟩
    · simp only [commands, List.map_cons, feedAll, hw₁]
      exact hw₂
    · simp only [commands, List.map_cons, feedAll, hw₁, repliesOf_append, hr₁]
      rw [show (cmds.map fun cmd => (cmd, none)) = (commands cmds : List (Input T K V A S))
        from rfl, hr₂, ← List.replicate_add, List.countP_cons, Nat.add_comm]

variable (W env p) in
/-- A flush ends the transaction and is answered. -/
lemma feed_flush (db : D) (st : TxState T K V A) :
    ∃ db', (feed W env ⟨db, .inTx st⟩ (.flush p, none)).1 = ⟨db', .outside⟩ ∧
      repliesOf (feed W env ⟨db, .inTx st⟩ (.flush p, none)).2 = [p] := by
  obtain ⟨hnone, hout⟩ := flush_cases (W := W) (S := S) st none p
  rcases hout with ⟨e, hout⟩ | ⟨e, hout⟩ | ⟨-, hout, -⟩
  · simp only [feed, TxState.step, settle, hout, hnone]
    exact ⟨_, rfl, rfl⟩
  · simp only [feed, TxState.step, settle, hout, hnone]
    exact ⟨_, rfl, rfl⟩
  · simp only [feed, TxState.step, settle, hout, hnone]
    cases env.commit p with
    | ok u => exact ⟨_, rfl, rfl⟩
    | error e => exact ⟨_, rfl, rfl⟩

/-- The writer is at the start of a transaction, or waits for one to begin. -/
def AtRest {D T K V A : Type} (begun : Bool) (w : Writer D T K V A) : Prop :=
  match begun with
  | true => ∃ db t, w = ⟨db, .inTx (TxState.new t)⟩
  | false => ∃ db, w = ⟨db, .outside⟩

variable (W env p) in
/-- A shard that gets the commands `cmds`: it answers `r` times, and has done so only when it has
taken all of them; then its writer is at rest, and at no time it holds a flush. -/
structure Serves (w : Writer D T K V A) (cmds : List (WriterCommand K V A S)) (r : ℕ)
    (begun : Bool) : Prop where
  replies : ∀ taken, taken <+: cmds → ∃ m, repliesOf (feedAll W env w (commands taken)).2 =
    List.replicate m p ∧ m ≤ r ∧ (m = r → taken = cmds)
  final : AtRest begun (feedAll W env w (commands cmds)).1
  free : ∀ taken, taken <+: cmds → ¬ Context.Holding (feedAll W env w (commands taken)).1

omit [LinearOrder K] in
lemma not_holding_outside (db : D) : ¬ Context.Holding (⟨db, .outside⟩ : Writer D T K V A) := by
  rintro ⟨st, fs, a, hphase, -⟩
  cases hphase

omit [LinearOrder K] in
lemma not_holding_inTx (db : D) {st : TxState T K V A} (h : st.deferred = none) :
    ¬ Context.Holding (⟨db, .inTx st⟩ : Writer D T K V A) := by
  rintro ⟨st', fs, a, hphase, hst', -⟩
  cases hphase
  rw [h] at hst'
  cases hst'

/-- A transaction that is flushed directly. -/
lemma serves_flush (hconn : env.connected p = true) (db : D) (t : T)
    (cmds : List (WriterCommand K V A S)) (h : ∀ cmd ∈ cmds, Calm W p cmd) :
    Serves W env p ⟨db, .inTx (TxState.new t)⟩ (cmds ++ [.flush p])
      (cmds.countP WriterCommand.asks + 1)
      false := by
  have hwhole : ∃ db', (feedAll W env ⟨db, .inTx (TxState.new t)⟩
    (commands (cmds ++ [.flush p]))).1 = ⟨db', .outside⟩ ∧
      repliesOf (feedAll W env ⟨db, .inTx (TxState.new t)⟩ (commands (cmds ++ [.flush p]))).2 =
        List.replicate (cmds.countP WriterCommand.asks + 1) p := by
    obtain ⟨st, hw, -, hr⟩ := feed_calms hconn db (TxState.new t) rfl h
    obtain ⟨db', hw', hr'⟩ := feed_flush W env p db st
    refine ⟨db', ?_, ?_⟩
    · rw [commands_append, feedAll_append, hw]
      exact hw'
    · rw [commands_append, feedAll_append, hw, repliesOf_append, hr, List.replicate_succ']
      simp only [commands, List.map_cons, List.map_nil, feedAll, List.append_nil, hr']
  -- a beginning of the commands is all of them, or has no flush
  have hcases : ∀ taken, taken <+: cmds ++ [.flush p] →
      taken = cmds ++ [.flush p] ∨ ∃ st, (feedAll W env ⟨db, .inTx (TxState.new t)⟩
        (commands taken)).1 = ⟨db, .inTx st⟩ ∧
        st.deferred = none ∧ ∃ m, repliesOf
          (feedAll W env ⟨db, .inTx (TxState.new t)⟩ (commands taken)).2 =
          List.replicate m p ∧ m ≤ cmds.countP WriterCommand.asks := by
    intro taken htaken
    rcases List.prefix_concat_iff.mp htaken with rfl | hpre
    · exact Or.inl rfl
    · obtain ⟨st, hw, hst, hr⟩ := feed_calms hconn db (TxState.new t) rfl fun cmd hcmd =>
        h cmd (hpre.subset hcmd)
      exact Or.inr ⟨st, hw, hst, _, hr, hpre.sublist.countP_le⟩
  constructor
  · intro taken htaken
    rcases hcases taken htaken with rfl | ⟨st, -, -, m, hr, hm⟩
    · obtain ⟨-, -, hr⟩ := hwhole
      exact ⟨_, hr, le_rfl, fun _ => rfl⟩
    · exact ⟨m, hr, by omega, fun he => by omega⟩
  · obtain ⟨db', hw, -⟩ := hwhole
    exact ⟨db', hw⟩
  · intro taken htaken
    rcases hcases taken htaken with rfl | ⟨st, hw, hst, -⟩
    · obtain ⟨db', hw, -⟩ := hwhole
      rw [hw]
      exact not_holding_outside db'
    · rw [hw]
      exact not_holding_inTx db hst

/-- The beginning of a transaction. -/
lemma serves_begin (hb : env.begin p = .opened) (db : D) :
    Serves W env p ⟨db, .outside⟩ [.begin p] 1 true := by
  have hfeed : feedAll W env ⟨db, .outside⟩ (commands [.begin p]) =
      (⟨db, .inTx (TxState.new (W.openForWrite db))⟩, [.started p (.ok ())]) := by
    simp [commands, feedAll, feed, beginOrEnd, hb]
  have hcases : ∀ taken : List (WriterCommand K V A S), taken <+: [.begin p] → taken = [.begin p] ∨
      taken = [] := by
    intro taken htaken
    rcases List.prefix_concat_iff.mp (show taken <+: [] ++ [.begin p] from htaken) with rfl | hpre
    · exact Or.inl rfl
    · exact Or.inr (List.prefix_nil.mp hpre)
  constructor
  · intro taken htaken
    rcases hcases taken htaken with rfl | rfl
    · exact ⟨1, by rw [hfeed]; rfl, le_rfl, fun _ => rfl⟩
    · exact ⟨0, rfl, by omega, fun he => by omega⟩
  · exact ⟨_, _, by rw [hfeed]⟩
  · intro taken htaken
    rcases hcases taken htaken with rfl | rfl
    · rw [hfeed]
      exact not_holding_inTx db rfl
    · exact not_holding_outside db

/-- A shard with nothing to do. -/
lemma serves_nil (db : D) : Serves W env p ⟨db, .outside⟩ [] 0 false := by
  constructor
  · intro taken htaken
    rw [List.prefix_nil.mp htaken]
    exact ⟨0, rfl, le_rfl, fun _ => rfl⟩
  · exact ⟨db, rfl⟩
  · intro taken htaken
    rw [List.prefix_nil.mp htaken]
    exact not_holding_outside db

end OneShard

/-! ### Answers in the network -/

namespace Columns

section Answers

variable {X : Columns} {E : Type} [DecidableEq E] {s₀ : ∀ p, X.State E p}
  {prog : E → List (Σ p, X.Msg E p)}
  {net : Net (Party X E) (X.State E) (X.Msg E)}

/-- What the shard `j` of the column `c` has shown since the start. -/
def shownByShard (s₀ : ∀ p, X.State E p) (net : Net (Party X E) (X.State E) (X.Msg E)) (c : X.Col)
    (j : Fin (X.shardsOf c)) : List (Event (X.K c) (X.V c) E Empty) :=
  (feedAll (X.table c) .fine (s₀ (.shard c j)).writer (inputs (net.log (.shard c j)))).2

omit [DecidableEq E] in
lemma after_user (e : E) (s : X.State E (.user e)) (l : List (Party X E × X.Reply E)) :
    Net.after X.handle (.user e) s l = s ++ l.map Prod.snd := by
  induction l generalizing s with
  | nil => simp [Net.after]
  | cons r l ih =>
    rw [show Net.after X.handle (.user e) s (r :: l) = Net.after X.handle (.user e)
      (s ++ [r.2]) l from rfl, ih]
    simp

/-- The messages to a user among those of several events, if each event answers only its receiver. -/
lemma length_sentTo_user {K V S : Type} (e : E) (g : Event K V E S → List (Σ p, X.Msg E p))
    (hg : ∀ ev, (sentTo (.user e) (g ev)).length = if ev.receiver = some e then 1 else 0)
    (ev : List (Event K V E S)) :
    (sentTo (.user e) (ev.flatMap g)).length = (repliesOf ev).countP (fun a => a = e) := by
  induction ev with
  | nil => rfl
  | cons x ev ih =>
    rw [List.flatMap_cons, sentTo_append, List.length_append, hg, ih]
    cases hx : x.receiver with
    | none => simp [repliesOf, hx]
    | some a =>
      simp only [repliesOf, List.filterMap_cons, hx, List.countP_cons, Option.some.injEq,
        decide_eq_true_eq]
      omega

lemma length_sentTo_user_reply (e : E) (receiver : Option E) (reply : X.Reply E) :
    (sentTo (.user e) (receiver.toList.map fun e => (⟨.user e, reply⟩ : Σ p, X.Msg E p))).length =
      if receiver = some e then 1 else 0 := by
  cases receiver with
  | none => rfl
  | some a =>
    by_cases ha : a = e
    · subst ha
      simp
    · have hne : (Party.user a : Party X E) ≠ .user e := by simpa using ha
      simp [sentTo_cons_of_ne hne, ha]

lemma length_sentTo_user_indexSends (e : E) (ev : Event X.IK X.IV E X.Sink) :
    (sentTo (.user e) (X.indexSends ev)).length = if ev.receiver = some e then 1 else 0 := by
  cases ev with
  | sunk s lastShards out =>
    have hnone : sentTo (.user e) (X.indexSends (.sunk s lastShards out)) = [] := by
      simp only [indexSends, sinkSends]
      cases X.sink s out with
      | error e => rfl
      | ok rows =>
        rw [sentTo_flatMap]
        exact List.flatMap_eq_nil_iff.mpr fun c _ => sentTo_toColumn_of_ne (by simp) _
    rw [hnone]
    rfl
  | _ => exact length_sentTo_user_reply e _ _

lemma length_sentTo_user_index (e : E) (i : Fin X.shards) :
    (sentTo (.user e) (net.emitted X.handle s₀ (X.initially prog) (.index i))).length =
      (repliesOf (shownBy s₀ net i)).countP (fun a => a = e) := by
  rw [← length_sentTo_user e X.indexSends (length_sentTo_user_indexSends e)]
  simp [emitted, initially, outs_index, shownBy]

lemma length_sentTo_user_shard (e : E) (c : X.Col) (j : Fin (X.shardsOf c)) :
    (sentTo (.user e) (net.emitted X.handle s₀ (X.initially prog) (.shard c j))).length =
      (repliesOf (shownByShard s₀ net c j)).countP (fun a => a = e) := by
  rw [← length_sentTo_user e (X.shardSends c) fun ev => length_sentTo_user_reply e _ _]
  simp [emitted, initially, outs_shard, shownByShard]

end Answers

end Columns

namespace Context

section OneStage

variable {C : Context} {s₀ : ∀ p, C.toColumns.State C.User p} {msgs : C.Sends} {net : C.Network}
  {expects : C.Target → ℕ}
  {begun : Bool}

variable (s₀ msgs net) in
/-- What a party has put out. -/
abbrev out (p : Party C.toColumns C.User) : C.Sends :=
  net.emitted C.handle s₀ (C.initially (clientSays msgs)) p

variable (s₀ msgs net) in
/-- The shard `p` answers at most `r` times, and on its own channel; if it has, it has taken
everything. -/
structure Behaves (p : C.Target) (r : ℕ) : Prop where
  few : (sentTo (.user (some p)) (out s₀ msgs net (C.party p))).length ≤ r
  own : ∀ e ≠ some p, sentTo (.user e) (out s₀ msgs net (C.party p)) = []
  complete : (sentTo (.user (some p)) (out s₀ msgs net (C.party p))).length = r →
    ∀ k, (sentTo (C.party p) (out s₀ msgs net k)).length ≤ (sentBy k (net.log (C.party p))).length

/-- The writer of the shard `p` holds a flush. -/
def HoldingAt (net : C.Network) : C.Target → Prop
  | .inl i => Holding (net.state (.index i)).writer
  | .inr ⟨c, j⟩ => Holding (net.state (.shard c j)).writer

/-- The writer of the shard `p` is at rest. -/
def RestsAt (begun : Bool) (s : ∀ p, C.toColumns.State C.User p) : C.Target → Prop
  | .inl i => AtRest begun (s (.index i)).writer
  | .inr ⟨c, j⟩ => AtRest begun (s (.shard c j)).writer

/-- All channels of commands are empty and all writers idle. -/
def Idle (net : C.Network) : Prop := ∀ p, (∀ e, p ≠ .user e) → net.inbox p = [] ∧ net.outbox p = []

variable (s₀ msgs net) in
/-- What the shard `p` does in a stage in which it answers `r` times. -/
structure Does (p : C.Target) (r : ℕ) (begun : Bool) : Prop extends Behaves s₀ msgs net p r where
  free : Idle net → ¬ HoldingAt net p
  ends : (sentTo (.user (some p)) (out s₀ msgs net (C.party p))).length = r → RestsAt begun net.state p

lemma mem_targets (p : C.Target) : p ∈ C.targets := by
  rcases p with i | ⟨c, j⟩
  · exact List.mem_append_left _ (List.mem_map_of_mem (List.mem_finRange i))
  · exact List.mem_append_right _ (List.mem_flatMap.mpr
      ⟨c, C.mem_cols c, List.mem_map_of_mem (List.mem_finRange j)⟩)

lemma party_cases (p : Party C.toColumns C.User) : (∃ e, p = .user e) ∨ ∃ q, p = C.party q := by
  cases p with
  | user e => exact Or.inl ⟨e, rfl⟩
  | index i => exact Or.inr ⟨.inl i, rfl⟩
  | shard c j => exact Or.inr ⟨.inr ⟨c, j⟩, rfl⟩

lemma party_injective : Function.Injective C.party := by
  rintro (i | ⟨c, j⟩) (i' | ⟨c', j'⟩) h
  · exact congrArg _ (Party.index.inj h)
  · cases h
  · cases h
  · cases h
    rfl

lemma out_user (e : C.User) : out s₀ msgs net (.user e) = clientSays msgs e := Columns.emitted_user e

lemma onlyClient_clientSays : Columns.OnlyClient (clientSays msgs) none := by
  intro i e he
  cases e with
  | none => exact absurd rfl he
  | some p => rfl

/-- A shard that has answered `m` times. -/
lemma Behaves.of_count {p : C.Target} {m r : ℕ}
    (hcount : ∀ e, (sentTo (.user e) (out s₀ msgs net (C.party p))).length = if some p = e then m
      else 0) (hm : m ≤ r)
    (hall : m = r → ∀ k, (sentTo (C.party p) (out s₀ msgs net k)).length ≤
      (sentBy k (net.log (C.party p))).length) : Behaves s₀ msgs net p r where
  few := (hcount _).trans_le (by simpa using hm)
  own e he := List.length_eq_zero_iff.mp ((hcount e).trans (if_neg (Ne.symm he)))
  complete hr := hall (by simpa using (hcount (some p)).symm.trans hr)

/-- A shard of the index does its part of the stage when it serves its part of the messages. -/
lemma index_does (h : C.Lawful s₀ (clientSays msgs) net) (i : Fin C.shards) {r : ℕ}
    (hserve : Serves (indexTable C.factory C.IK C.IV) C.env (some (.inl i)) (s₀ (.index i)).writer
      (sentTo (.index i) msgs) r begun) : Does s₀ msgs net (.inl i) r begun := by
  have hlog := h.index_log onlyClient_clientSays i
  have hpre := h.taken (.user none) (.index i)
  rw [Columns.emitted_user] at hpre
  obtain ⟨m, hreplies, hm, hall⟩ := hserve.replies _ hpre
  have hcount : ∀ e, (sentTo (.user e) (out s₀ msgs net (.index i))).length =
      if some (.inl i) = e then m else 0 := by
    intro e
    rw [Columns.length_sentTo_user_index, Columns.shownBy, inputs_eq, hlog, hreplies,
      List.countP_replicate]
    simp
  have hwriter : (net.state (.index i)).writer = (feedAll (indexTable C.factory C.IK C.IV) C.env
      (s₀ (.index i)).writer (commands (sentBy (.user none) (net.log (.index i))))).1 := by
    rw [h.state, Columns.after_index, ← hlog, ← inputs_eq]
    rfl
  refine ⟨.of_count hcount hm fun hmr k => ?_, fun _ => ?_, fun hr => ?_⟩
  · rcases party_cases k with ⟨e, rfl⟩ | ⟨q, rfl⟩
    · rw [out_user]
      cases e with
      | none => exact (congrArg List.length (hall hmr)).ge
      | some q => exact Nat.zero_le _
    · have hnone : sentTo (.index i) (out s₀ msgs net (C.party q)) = [] :=
        Columns.sentTo_index_emitted i (by rcases q with i' | ⟨c, j⟩ <;> simp [party])
      exact (congrArg List.length hnone).le.trans (Nat.zero_le _)
  · rw [HoldingAt, hwriter]
    exact hserve.free _ hpre
  · have hmr : m = r := by simpa using (hcount (some (.inl i))).symm.trans hr
    rw [RestsAt, hwriter, hall hmr]
    exact hserve.final

/-- A shard to which only the client talks. -/
lemma shard_does (h : C.Lawful s₀ (clientSays msgs) net) (c : C.Col) (j : Fin (C.shardsOf c)) {r : ℕ}
    (hsilent : ∀ i, (Columns.shownBy s₀ net i).flatMap (C.toShard c j) = [])
    (hserve : Serves (C.table c) .fine (some (.inr ⟨c, j⟩)) (s₀ (.shard c j)).writer
      (sentTo (.shard c j) msgs) r begun) : Does s₀ msgs net (.inr ⟨c, j⟩) r begun := by
  have hother : ∀ k ≠ .user none, sentTo (.shard c j) (out s₀ msgs net k) = [] := by
    intro k hk
    cases k with
    | user e =>
      rw [out_user]
      cases e with
      | none => exact absurd rfl hk
      | some q => rfl
    | index i =>
      rw [Columns.sentTo_shard_emitted_index]
      exact hsilent i
    | shard c' j' => exact Columns.sentTo_shard_emitted_shard c c' j j'
  have hlog := h.map_snd_log hother
  have hpre := h.taken (.user none) (.shard c j)
  rw [Columns.emitted_user] at hpre
  obtain ⟨m, hreplies, hm, hall⟩ := hserve.replies _ hpre
  have hcount : ∀ e, (sentTo (.user e) (out s₀ msgs net (.shard c j))).length =
      if some (.inr ⟨c, j⟩) = e then m else 0 := by
    intro e
    rw [Columns.length_sentTo_user_shard, Columns.shownByShard, inputs_eq, hlog, hreplies,
      List.countP_replicate]
    simp
  have hwriter : (net.state (.shard c j)).writer = (feedAll (C.table c) .fine
      (s₀ (.shard c j)).writer (commands (sentBy (.user none) (net.log (.shard c j))))).1 := by
    rw [h.state, Columns.after_shard, ← hlog, ← inputs_eq]
    rfl
  refine ⟨.of_count hcount hm fun hmr k => ?_, fun _ => ?_, fun hr => ?_⟩
  · by_cases hk : k = .user none
    · subst hk
      rw [out_user]
      exact (congrArg List.length (hall hmr)).ge
    · exact (congrArg List.length (hother k hk)).le.trans (Nat.zero_le _)
  · rw [HoldingAt, hwriter]
    exact hserve.free _ hpre
  · have hmr : m = r := by simpa using (hcount (some (.inr ⟨c, j⟩))).symm.trans hr
    rw [RestsAt, hwriter, hall hmr]
    exact hserve.final

/-- Once a shard of the index has taken all commands but its flush, it has sent everything. -/
lemma shown_of_queries (h : C.Lawful s₀ (clientSays msgs) net) (i : Fin C.shards)
    {cmds : List (C.Cmd C.User)} {cl : C.User} (hmsgs : sentTo (.index i) msgs = cmds ++ [.flush cl])
    (hpre : cmds <+: sentBy (.user none) (net.log (.index i))) (c : C.Col) (j : Fin (C.shardsOf c)) :
    (Columns.shownBy s₀ net i).flatMap (C.toShard c j) =
      (Columns.indexRun s₀ (clientSays msgs) none i).2.flatMap (C.toShard c j) := by
  have hrun : ∀ tail, tail <+: [.flush cl] →
      (feedAll (indexTable C.factory C.IK C.IV) C.env (s₀ (.index i)).writer
        (commands (cmds ++ tail))).2.flatMap (C.toShard c j) =
      (feedAll (indexTable C.factory C.IK C.IV) C.env (s₀ (.index i)).writer (commands cmds)).2.flatMap
        (C.toShard c j) := by
    intro tail htail
    rcases List.prefix_concat_iff.mp (show tail <+: [] ++ [.flush cl] from htail) with rfl | hnil
    · have hquiet := Columns.quiet_flush (X := C.toColumns)
        (feedAll (indexTable C.factory C.IK C.IV) C.env (s₀ (.index i)).writer (commands cmds)).1 cl
      rw [commands_append, feedAll_append, List.flatMap_append]
      refine List.append_right_eq_self.mpr (List.flatMap_eq_nil_iff.mpr fun ev hev => ?_)
      refine Columns.toShard_of_quiet (hquiet ev ?_) c j
      simpa [commands, feedAll] using hev
    · rw [List.prefix_nil.mp hnil, List.append_nil]
  obtain ⟨tail, htail⟩ := hpre
  have htail' : tail <+: [.flush cl] := by
    have hall := h.taken (.user none) (.index i)
    rw [Columns.emitted_user, ← htail] at hall
    exact (List.prefix_append_right_inj cmds).mp (hmsgs ▸ hall)
  rw [Columns.shownBy, inputs_eq, h.index_log onlyClient_clientSays i, ← htail, hrun tail htail',
    Columns.indexRun,
    show sentTo (.index i) (clientSays msgs none) = cmds ++ [.flush cl] from hmsgs,
      hrun _ (List.prefix_refl _)]

/-- A shard that waits holds a flush only if it has been asked for one. -/
lemma asked_of_holding {D T K V A S : Type} {ι : Type} [DecidableEq ι] {φ : ι} {N : ℕ} {ack : A}
    {db : D} {t : T} {l : List (ι × WriterCommand K V A S)} {st : TxState T K V A}
    (hw : Waits φ N ack t l st) (hhold : Holding (⟨db, .inTx st⟩ : Writer D T K V A)) :
    asked φ l = true := by
  obtain ⟨st', fs, a, hphase, hst', ha⟩ := hhold
  obtain rfl : st = st' := Phase.inTx.inj hphase
  rw [hw.deferred, waitingFor] at hst'
  split at hst'
  · cases hst'
  · obtain rfl := Option.some.inj hst'
    by_contra hno
    rw [Bool.not_eq_true] at hno
    simp [hno] at ha

/-- When a shard has been asked to flush, all that the client says before is sent. -/
lemma sent_of_asked (h : C.Lawful s₀ (clientSays msgs) net) {c : C.Col} {j : Fin (C.shardsOf c)}
    {before behind : C.Sends} (hmsgs : msgs = before ++ behind)
    (hbefore : sentTo (.shard c j) before = []) {m : C.CmdOf C.User c}
    (hm : m ∈ sentBy (.user none) (net.log (.shard c j))) {i : Fin C.shards}
    (hin : net.inbox (.index i) = []) :
    sentTo (.index i) before <+: sentBy (.user none) (net.log (.index i)) := by
  obtain ⟨sent, hsent, hqueue⟩ := h.queue (.user none)
  rw [Columns.emitted_user, show clientSays msgs none = msgs from rfl, hmsgs] at hsent
  have hmem : m ∈ sentTo (.shard c j) sent := by
    rw [← hqueue, sentBy_append]
    exact List.mem_append_left _ hm
  have hpre : before <+: sent := by
    rcases List.prefix_or_prefix_of_prefix (List.prefix_append before behind)
      (hsent ▸ List.prefix_append sent _) with hp | hp
    · exact hp
    · -- the request to flush is none of the messages before
      obtain ⟨rest, rfl⟩ := hp
      rw [sentTo_append, List.append_eq_nil_iff] at hbefore
      rw [hbefore.1] at hmem
      cases hmem
  have hlog := hqueue (.index i)
  rw [hin, List.append_nil] at hlog
  obtain ⟨rest, rfl⟩ := hpre
  rw [hlog, sentTo_append]
  exact List.prefix_append _ _

/-- A shard that the sinks fill.  If it holds a flush although nothing is in the channels of the
shards, the client has sent all queries before, so all shards of the index have signalled. -/
lemma sink_does (h : C.Lawful s₀ (clientSays msgs) net) {c : C.Col} {j : Fin (C.shardsOf c)}
    {db : C.D c} {t : C.T c} {bodies : Fin C.shards → List (List (C.K c × C.V c))}
    (hf : Columns.Filled s₀ (clientSays msgs) none c j none (some (.inr ⟨c, j⟩)) db t bodies)
    {before behind : C.Sends} (hmsgs : msgs = before ++ behind)
    (hbefore : sentTo (.shard c j) before = [])
    (hbehind : ∀ i, sentTo (.index i) behind = [.flush (some (.inl i))]) :
    Does s₀ msgs net (.inr ⟨c, j⟩) 1 false := by
  have hevents : (net.state (.shard c j)).events = Columns.shownByShard s₀ net c j := by
    rw [h.state, Columns.after_shard, hf.start]
    simp [Shard.after, Columns.shownByShard, hf.start]
  rcases hf.run C.shards_ne h onlyClient_clientSays with ⟨hfull, kvs, -, hstate⟩ | ⟨hfull, st,
    hstate, hwaits⟩
  · have hcount : ∀ e, (sentTo (.user e) (out s₀ msgs net (.shard c j))).length =
        if some (.inr ⟨c, j⟩) = e then 1 else 0 := by
      intro e
      have hreplies : repliesOf (Columns.shownByShard s₀ net c j) = [some (.inr ⟨c, j⟩)] := by
        rw [← hevents, hstate]
        rfl
      rw [Columns.length_sentTo_user_shard, hreplies, List.countP_singleton]
      simp
    refine ⟨.of_count hcount le_rfl fun _ k => ?_, fun _ => ?_, fun _ =>
      ⟨_, congrArg Shard.writer hstate⟩⟩
    · show (sentTo (.shard c j) (out s₀ msgs net k)).length ≤ (sentBy k (net.log (.shard c j))).length
      cases k with
      | user e =>
        rw [out_user]
        cases e with
        | none => exact (congrArg List.length (hf.asks.trans hfull.2.symm)).le
        | some q => exact Nat.zero_le _
      | index i =>
        rw [hfull.1 i, ← hf.fills i, Columns.sentTo_shard_emitted_index]
        exact ((h.shownBy_isPrefix onlyClient_clientSays i).flatMap _).length_le
      | shard c' j' =>
        rw [Columns.sentTo_shard_emitted_shard]
        exact Nat.zero_le _
    · rw [HoldingAt, hstate]
      exact not_holding_outside _
  · have hcount : ∀ e, (sentTo (.user e) (out s₀ msgs net (.shard c j))).length =
        if some (.inr ⟨c, j⟩) = e then 0 else 0 := by
      intro e
      rw [Columns.length_sentTo_user_shard, ← hevents, hstate]
      simp [repliesOf]
    refine ⟨.of_count hcount zero_le_one fun hno => absurd hno (by decide), fun hidle hhold =>
      hfull ?_, fun hone => ?_⟩
    · have hfed := hf.fed h onlyClient_clientSays
      have hask : sentBy (.user none) (net.log (.shard c j)) =
          [.flushWhenReady (some (.inr ⟨c, j⟩))] :=
        hfed.flush_of_asked (asked_of_holding hwaits (by rwa [HoldingAt, hstate] at hhold))
      refine ⟨fun i => ?_, hask⟩
      have hin : ∀ p, (∀ e, p ≠ .user e) → net.inbox p = [] := fun p hp => (hidle p hp).1
      have hqueries := sent_of_asked h hmsgs hbefore (hask ▸ List.mem_singleton_self _)
        (hin (.index i) (by simp))
      rw [h.taken_of_empty (hidle (.index i) (by simp)).2 (hin (.shard c j) (by simp)),
        Columns.sentTo_shard_emitted_index,
        shown_of_queries h i (by rw [hmsgs, sentTo_append, hbehind]) hqueries, hf.fills i]
    · rw [show C.party (.inr ⟨c, j⟩) = .shard c j from rfl, hcount] at hone
      simp at hone

/-! ### A stage -/

variable (s₀ msgs expects begun) in
/-- The client, whose channels are new, sends `msgs`; each shard `p` answers `expects p` times. -/
structure Stage : Prop where
  users : ∀ e, s₀ (.user e) = []
  silent : ∀ e, sentTo (.user e) msgs = []
  does : ∀ {net}, C.Lawful s₀ (clientSays msgs) net → ∀ p, Does s₀ msgs net p (expects p) begun

namespace Stage

/-- **In no state of a stage a flush waits for ever.** -/
lemma not_stuck (hst : Stage s₀ msgs expects begun) (h : C.Lawful s₀ (clientSays msgs) net) :
    ¬ Stuck net := by
  rintro ⟨hidle, ⟨i, hhold⟩ | ⟨c, j, hhold⟩⟩
  · exact (hst.does h (.inl i)).free hidle hhold
  · exact (hst.does h (.inr ⟨c, j⟩)).free hidle hhold

lemma sentTo_user_user (hst : Stage s₀ msgs expects begun) (e e' : C.User) :
    sentTo (.user e) (out s₀ msgs net (.user e')) = [] := by
  rw [out_user]
  cases e' with
  | none => exact hst.silent e
  | some p => rfl

/-- All answers on the channel of a shard are from this shard. -/
lemma length_answers (hst : Stage s₀ msgs expects begun) (h : C.Lawful s₀ (clientSays msgs) net)
    (hready : ∀ p, (net.state (.user (some p))).length = expects p) (p : C.Target) :
    (sentBy (C.party p) (net.log (.user (some p)))).length = expects p := by
  have hfrom : ∀ k ≠ C.party p, sentTo (.user (some p)) (out s₀ msgs net k) = [] := by
    intro k hk
    rcases party_cases k with ⟨e, rfl⟩ | ⟨q, rfl⟩
    · exact hst.sentTo_user_user _ e
    · exact (hst.does h q).own _ fun he => hk (by rw [Option.some.inj he])
  rw [← h.map_snd_log hfrom, ← hready p, h.state, Columns.after_user, hst.users]
  rfl

/-- Then the shard has answered as often as it ever does. -/
lemma answered (hst : Stage s₀ msgs expects begun) (h : C.Lawful s₀ (clientSays msgs) net)
    (hready : ∀ p, (net.state (.user (some p))).length = expects p) (p : C.Target) :
    (sentTo (.user (some p)) (out s₀ msgs net (C.party p))).length = expects p := by
  refine le_antisymm (hst.does h p).few ?_
  rw [← hst.length_answers h hready p]
  exact (h.taken _ _).length_le

/-- **When all answers have come, nothing is on its way.** -/
lemma clear (hst : Stage s₀ msgs expects begun) (h : C.Lawful s₀ (clientSays msgs) net)
    (hready : ∀ p, (net.state (.user (some p))).length = expects p) :
    (∀ p, net.inbox p = []) ∧ ∀ p, net.outbox p = [] := by
  refine Net.Inv.clear h fun k p => ?_
  rcases party_cases p with ⟨e, rfl⟩ | ⟨p, rfl⟩
  · rcases party_cases k with ⟨e', rfl⟩ | ⟨q, rfl⟩
    · rw [hst.sentTo_user_user]
      exact Nat.zero_le _
    · by_cases he : e = some q
      · subst he
        rw [hst.length_answers h hready q]
        exact (hst.does h q).few
      · rw [(hst.does h q).own e he]
        exact Nat.zero_le _
  · exact (hst.does h p).complete (hst.answered h hready p) k

/-- When the client has all its answers, all writers are at rest. -/
lemma rests (hst : Stage s₀ msgs expects begun) (h : C.Lawful s₀ (clientSays msgs) net)
    (hready : ∀ p, (net.state (.user (some p))).length = expects p) (p : C.Target) :
    RestsAt begun net.state p :=
  (hst.does h p).ends (hst.answered h hready p)

end Stage

end OneStage

end Context

end Redbit.Storage
