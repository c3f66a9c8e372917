import Redbit.Storage.Stage

/-!
# No flush waits for ever

`no_flush_waits`: in every run of a context in which no column is filled, or no transaction only
deletes after one has stored, no state is stuck.  `stored_then_deleted` is a run that does get
stuck, where one does.

Each transaction is two stages: all writers begin, and then they get their work and are flushed.  A
column that the sinks fill is released by the signals of the index, which only a transaction that
stores makes it send (`fills`).
-/

namespace Redbit.Storage

open Redbit.Lib Redbit.Lib.Net
open scoped Columns

namespace Context

variable {C : Context}

/-! ### What a transaction sends to each shard -/

section Streams

variable (acquired : Bool) (onFlush : ∀ c, Fin (C.shardsOf c) → List (C.K c × C.V c))

lemma sentTo_columns_of_ne {p : Party C.toColumns C.User} (hp : ∀ c j, p ≠ .shard c j)
    (cs : List C.Col) (g : ∀ c, List (Fin (C.shardsOf c) × C.CmdOf C.User c)) :
    sentTo p (cs.flatMap fun c => C.toColumn c (g c)) = [] := by
  rw [sentTo_flatMap]
  exact List.flatMap_eq_nil_iff.mpr fun c _ => Columns.sentTo_toColumn_of_ne (hp c) _

lemma sentTo_index_begins (i : Fin C.shards) :
    sentTo (.index i) C.begins = [.begin (some (.inl i))] := by
  rw [begins, sentTo_append, Columns.sentTo_toIndex, sentTo_columns_of_ne (by simp)]
  simp

lemma sentTo_shard_begins (c : C.Col) (j : Fin (C.shardsOf c)) :
    sentTo (.shard c j) C.begins = [.begin (some (.inr ⟨c, j⟩))] := by
  rw [begins, sentTo_append, Columns.sentTo_toIndex_of_ne (by simp),
    Columns.sentTo_columns C.nodup_cols, if_pos (C.mem_cols c)]
  simp

lemma sentTo_user_begins (e : C.User) : sentTo (.user e) C.begins = [] := by
  rw [begins, sentTo_append, Columns.sentTo_toIndex_of_ne (by simp), sentTo_columns_of_ne (by simp)]
  rfl

lemma sentTo_index_commit (i : Fin C.shards) :
    sentTo (.index i) (C.commit acquired onFlush) = [.flush (some (.inl i))] := by
  rw [commit, sentTo_append, sentTo_append, Columns.sentTo_toIndex, sentTo_columns_of_ne (by simp),
    sentTo_columns_of_ne (by simp)]
  simp

lemma sentTo_user_commit (e : C.User) : sentTo (.user e) (C.commit acquired onFlush) = [] := by
  rw [commit, sentTo_append, sentTo_append, Columns.sentTo_toIndex_of_ne (by simp),
    sentTo_columns_of_ne (by simp), sentTo_columns_of_ne (by simp)]
  rfl

/-- A shard gets what is to be inserted, and then its flush; a root key gets the flush last. -/
lemma sentTo_shard_commit (c : C.Col) (j : Fin (C.shardsOf c)) :
    sentTo (.shard c j) (C.commit acquired onFlush) =
      (if onFlush c j = [] then [] else [.writeSortedInsertsOnFlush (onFlush c j)]) ++
      [C.flushCmd acquired c j] := by
  have hsorted : sentBy j (toEach fun j => if onFlush c j = [] then none
      else some (.writeSortedInsertsOnFlush (onFlush c j)) : List (_ × C.CmdOf C.User c)) =
      if onFlush c j = [] then [] else [.writeSortedInsertsOnFlush (onFlush c j)] := by
    rw [sentBy_toEach]
    split <;> rfl
  rw [commit, sentTo_append, sentTo_append, Columns.sentTo_toIndex_of_ne (by simp),
    Columns.sentTo_columns C.nodup_cols, Columns.sentTo_columns (C.nodup_cols.filter _),
      if_pos (C.mem_cols c),
    flushColumn, sentBy_append, hsorted]
  cases hroot : C.rootPk c with
  | true =>
    have hsink : c ∉ C.sinks := fun hc => by simp [C.rootPk_sinks c hc] at hroot
    simp [C.mem_cols c, hroot, flushCmd, hsink]
  | false => simp [hroot]

lemma Ask.exists_send (a : C.Ask) : ∃ m, a.send = ⟨C.party a.target, m⟩ := by
  cases a with
  | removeIndex i k => exact ⟨_, rfl⟩
  | remove c j k => exact ⟨_, rfl⟩
  | range c j lo hi h => exact ⟨_, rfl⟩

/-- What a delete asks of a shard. -/
lemma sentTo_asks (p : C.Target) {good : C.toColumns.Msg C.User (C.party p) → Prop}
    {isAsk : C.toColumns.Msg C.User (C.party p) → Bool}
    (hone : ∀ a : C.Ask, ∀ m, a.send = ⟨C.party p, m⟩ → good m ∧ isAsk m = true) (asks : List C.Ask) :
    (∀ m ∈ sentTo (C.party p) (asks.map Ask.send), good m) ∧
      (sentTo (C.party p) (asks.map Ask.send)).countP isAsk = asks.countP fun a => a.target = p := by
  induction asks with
  | nil => simp
  | cons a asks ih =>
    obtain ⟨hgood, hcount⟩ := ih
    obtain ⟨m, hm⟩ := a.exists_send
    rw [List.map_cons, List.countP_cons, ← hcount]
    by_cases ha : a.target = p
    · subst ha
      obtain ⟨hm', hask⟩ := hone a m hm
      rw [hm, sentTo_cons_self]
      exact ⟨List.forall_mem_cons.mpr ⟨hm', hgood⟩, by simp [hask]⟩
    · rw [hm, sentTo_cons_of_ne (party_injective.ne ha)]
      exact ⟨hgood, by simp [ha]⟩

lemma asks_index (i : Fin C.shards) (asks : List C.Ask) :
    (∀ cmd ∈ sentTo (.index i) (asks.map Ask.send), Calm (indexTable C.factory C.IK C.IV)
      (some (.inl i)) cmd ∧ ∃ k, cmd = .remove k (some (.inl i))) ∧
      (sentTo (.index i) (asks.map Ask.send)).countP WriterCommand.asks = asks.countP fun a =>
        a.target = .inl i := by
  refine sentTo_asks (.inl i) (fun a m hm => ?_) asks
  cases a with
  | removeIndex i' k =>
    cases hm
    exact ⟨⟨.remove k, k, rfl⟩, rfl⟩
  | remove c j k => cases hm
  | range c j lo hi h => cases hm

lemma asks_shard (c : C.Col) (j : Fin (C.shardsOf c)) (asks : List C.Ask) :
    (∀ cmd ∈ sentTo (.shard c j) (asks.map Ask.send), Calm (C.table c) (some (.inr ⟨c, j⟩)) cmd) ∧
      (sentTo (.shard c j) (asks.map Ask.send)).countP WriterCommand.asks =
        asks.countP fun a => a.target = .inr ⟨c, j⟩ := by
  refine sentTo_asks (.inr ⟨c, j⟩) (fun a m hm => ?_) asks
  cases a with
  | removeIndex i k => cases hm
  | remove c' j' k =>
    cases hm
    exact ⟨.remove k, rfl⟩
  | range c' j' lo hi h =>
    cases hm
    exact ⟨.range lo hi h, rfl⟩

lemma sentTo_user_asks (e : C.User) (asks : List C.Ask) :
    sentTo (.user e) (asks.map Ask.send) = [] := by
  refine sentTo_eq_nil fun x hx => ?_
  obtain ⟨a, -, rfl⟩ := List.mem_map.mp hx
  cases a with
  | removeIndex i k => simp [Ask.send]
  | remove c j k => simp [Ask.send]
  | range c j lo hi h => simp [Ask.send]

end Streams

/-! ### The index without queries -/

section Silent

variable {s₀ : ∀ p, C.toColumns.State C.User p} {msgs : C.Sends} {net : C.Network}

/-- The command makes no shard of the index call a sink. -/
def Unheard (cmd : C.Cmd C.User) : Prop :=
  ∀ w, ∀ ev ∈ (feed (indexTable C.factory C.IK C.IV) C.env w (cmd, none)).2, Columns.Quiet ev

lemma unheard_begin (a : C.User) : Unheard (C := C) (.begin a) := by
  intro w ev hev
  obtain ⟨db, phase⟩ := w
  cases phase with
  | outside =>
    obtain rfl : ev = .started a (.ok ()) := by simpa [feed, beginOrEnd, Columns.env] using hev
    intro _ _ _ h
    cases h
  | inTx st => cases hev
  | ended => cases hev

lemma unheard_remove (k : C.IK) (a : C.User) : Unheard (C := C) (.remove k a) := by
  intro w ev hev
  obtain ⟨db, phase⟩ := w
  cases phase with
  | outside => cases hev
  | inTx st =>
    obtain ⟨b, rfl⟩ : ∃ b, ev = .removed a b := ⟨_, List.mem_singleton.mp hev⟩
    intro _ _ _ h
    cases h
  | ended => cases hev

/-- Then nothing comes from the index. -/
lemma silent_of_unheard (h : C.Lawful s₀ (clientSays msgs) net)
    (hmsgs : ∀ i, ∀ cmd ∈ sentTo (.index i) msgs, Unheard cmd) (c : C.Col) (j : Fin (C.shardsOf c))
    (i : Fin C.shards) :
    (Columns.shownBy s₀ net i).flatMap (C.toShard c j) = [] := by
  have hfeed : ∀ (cmds : List (C.Cmd C.User)) (w), (∀ cmd ∈ cmds, Unheard cmd) →
      ∀ ev ∈ (feedAll (indexTable C.factory C.IK C.IV) C.env w (commands cmds)).2,
        Columns.Quiet ev := by
    intro cmds
    induction cmds with
    | nil =>
      intro w _ ev hev
      cases hev
    | cons cmd cmds ih =>
      intro w hcmds ev hev
      rcases List.mem_append.mp hev with hev | hev
      · exact hcmds cmd List.mem_cons_self w ev hev
      · exact ih _ (fun cmd' hcmd' => hcmds cmd' (List.mem_cons_of_mem _ hcmd')) ev hev
  refine List.flatMap_eq_nil_iff.mpr fun ev hev => Columns.toShard_of_quiet ?_ c j
  exact hfeed _ _ (hmsgs i) ev ((h.shownBy_isPrefix onlyClient_clientSays i).subset hev)

end Silent

/-! ### The index when blocks are stored -/

section Fills

/-- The commands of a block before the last query. -/
inductive Early : C.Cmd C.User → Prop
  | now (k : C.IK) (v : C.IV) : Early (.writeInsertNow k v)
  | query (values : List (ℕ × C.IV)) (s : C.Sink) : Early (.queryAndWrite none values s)

lemma Early.calm {cmd : C.Cmd C.User} (h : Early cmd) (p : C.User) :
    Calm (indexTable C.factory C.IK C.IV) p cmd := by
  cases h with
  | now k v => exact .writeInsertNow k v
  | query values s => exact .queryAndWrite none values s rfl

lemma Early.asks {cmd : C.Cmd C.User} (h : Early cmd) : cmd.asks = false := by
  cases h <;> rfl

lemma early_now (b : C.StoredBlock) (i : Fin C.shards) :
    ∀ cmd ∈ sentBy i (b.now.flatMap fun kv => routeInsertNow C.part kv.1 kv.2), Early cmd := by
  intro cmd hcmd
  obtain ⟨kv, -, hkv⟩ := List.mem_flatMap.mp (mem_sentBy.mp hcmd)
  obtain ⟨-, rfl⟩ := Prod.ext_iff.mp (List.mem_singleton.mp hkv)
  exact .now kv.1 kv.2

lemma early_block (b : C.StoredBlock) (i : Fin C.shards) :
    ∀ cmd ∈ sentBy i (b.cmds false), Early cmd := by
  intro cmd hcmd
  rw [StoredBlock.cmds, sentBy_append, List.mem_append, sentBy_routeQuery] at hcmd
  rcases hcmd with hcmd | hcmd
  · exact early_now b i cmd hcmd
  · split at hcmd
    · cases hcmd
    · rw [List.mem_singleton.mp hcmd]
      exact .query _ _

/-- A shard of the index gets queries, the last of them with the number of shards. -/
lemma sentBy_blocks (blocks : List C.StoredBlock) (last : C.StoredBlock) (i : Fin C.shards) :
    ∃ early, sentBy i ((blocks.flatMap fun b => b.cmds false) ++ last.cmds true) =
        early ++ [.queryAndWrite (some C.shards) (bucketValues C.part i last.values) last.sink] ∧
      ∀ cmd ∈ early, Early cmd := by
  refine ⟨(blocks.flatMap fun b => sentBy i (b.cmds false)) ++
    sentBy i (last.now.flatMap fun kv => routeInsertNow C.part kv.1 kv.2), ?_, ?_⟩
  · rw [sentBy_append, Columns.sentBy_flatMap, StoredBlock.cmds, sentBy_append, sentBy_routeQuery,
      if_neg (by simp), List.append_assoc]
    rfl
  · intro cmd hcmd
    rcases List.mem_append.mp hcmd with hcmd | hcmd
    · obtain ⟨b, -, hb⟩ := List.mem_flatMap.mp hcmd
      exact early_block b i cmd hb
    · exact early_now last i cmd hcmd

variable (c : C.Col) (j : Fin (C.shardsOf c))

/-- What a sink sends to a shard: data, and a signal if the query is the last one. -/
lemma toShard_none (s : C.Sink) (out : List (ℕ × Option C.IK)) :
    ∃ body : List (List (C.K c × C.V c)),
    (C.toShard c j (.sunk s none out) : List (C.CmdOf C.User c)) = body.map .mergeUnsortedInserts := by
  simp only [Columns.toShard]
  cases C.sink s out with
  | error e => exact ⟨[], rfl⟩
  | ok rows =>
    dsimp only
    split
    · rw [sentBy_routeMerge]
      split
      · exact ⟨[], rfl⟩
      · exact ⟨[_], rfl⟩
    · exact ⟨[], rfl⟩

variable {c} in
lemma toShard_last (hc : c ∈ C.sinks) {s : C.Sink} {out : List (ℕ × Option C.IK)}
    (hok : ∃ rows, C.sink s out = .ok rows) :
    ∃ body, (C.toShard c j (.sunk s (some C.shards) out) : List (C.CmdOf C.User c)) =
      upstream C.shards body := by
  obtain ⟨rows, hrows⟩ := hok
  simp only [Columns.toShard, hrows, if_pos hc, sentBy_routeMerge]
  split
  · exact ⟨[], rfl⟩
  · exact ⟨[_], rfl⟩

lemma feed_early (db : IndexTables C.IK C.IV) (st : TxState (IndexTable C.IK C.IV) C.IK C.IV C.User)
    {cmd : C.Cmd C.User} (h : Early cmd) :
    ∃ st', ∃ body : List (List (C.K c × C.V c)),
      (feed (indexTable C.factory C.IK C.IV) C.env ⟨db, .inTx st⟩ (cmd, none)).1 =
        ⟨db, .inTx st'⟩ ∧
      (feed (indexTable C.factory C.IK C.IV) C.env ⟨db, .inTx st⟩ (cmd, none)).2.flatMap
        (C.toShard c j) = (body.map .mergeUnsortedInserts : List (C.CmdOf C.User c)) := by
  cases h with
  | now k v => exact ⟨_, [], rfl, rfl⟩
  | query values s =>
    obtain ⟨st', hfeed, -⟩ := Columns.feed_query (f := C.factory) C.env db st none values s
    rw [hfeed]
    split
    · exact ⟨st', [], rfl, rfl⟩
    · obtain ⟨body, hbody⟩ := toShard_none c j s (values.map fun e => (e.1, st.table.answer e.2))
      exact ⟨st', body, rfl, by rw [List.flatMap_singleton, hbody]⟩

lemma feed_earlies (db : IndexTables C.IK C.IV) (st : TxState (IndexTable C.IK C.IV) C.IK C.IV C.User)
    {cmds : List (C.Cmd C.User)} (h : ∀ cmd ∈ cmds, Early cmd) :
    ∃ st', ∃ body : List (List (C.K c × C.V c)),
      (feedAll (indexTable C.factory C.IK C.IV) C.env ⟨db, .inTx st⟩ (commands cmds)).1 =
        ⟨db, .inTx st'⟩ ∧
      (feedAll (indexTable C.factory C.IK C.IV) C.env ⟨db, .inTx st⟩ (commands cmds)).2.flatMap
        (C.toShard c j) = (body.map .mergeUnsortedInserts : List (C.CmdOf C.User c)) := by
  induction cmds generalizing st with
  | nil => exact ⟨st, [], rfl, rfl⟩
  | cons cmd cmds ih =>
    obtain ⟨st₁, body, hw, hbody⟩ := feed_early c j db st (h cmd List.mem_cons_self)
    obtain ⟨st₂, rest, hw', hrest⟩ := ih st₁ fun cmd' hcmd' => h cmd' (List.mem_cons_of_mem _ hcmd')
    refine ⟨st₂, body ++ rest, ?_, ?_⟩
    · simp only [commands, List.map_cons, feedAll, hw]
      exact hw'
    · simp only [commands, List.map_cons, feedAll, hw, List.flatMap_append, hbody, List.map_append]
      exact congrArg _ hrest

lemma fst_lt_of_mem_bucketValues {V : Type} {n : ℕ} {part : V → Fin n} {i : Fin n} {values : List V}
    {e : ℕ × V} (h : e ∈ bucketValues part i values) : e.1 < values.length := by
  obtain ⟨x, hx, rfl⟩ := List.mem_map.mp (List.mem_filter.mp h).1
  simpa using (List.mem_zipIdx hx).2.1

variable {c} in
/-- **A shard of the index that stores blocks sends its data, and then its signal.** -/
lemma fills (hc : c ∈ C.sinks) (blocks : List C.StoredBlock) (last : C.StoredBlock) (i : Fin C.shards)
    (db : IndexTables C.IK C.IV) (st : TxState (IndexTable C.IK C.IV) C.IK C.IV C.User) (cl : C.User) :
    ∃ body, (feedAll (indexTable C.factory C.IK C.IV) C.env ⟨db, .inTx st⟩ (commands
      (sentBy i ((blocks.flatMap fun b => b.cmds false) ++ last.cmds true) ++
        [.flush cl]))).2.flatMap (C.toShard c j) =
        (upstream C.shards body : List (C.CmdOf C.User c)) := by
  obtain ⟨early, hcmds, hearly⟩ := sentBy_blocks blocks last i
  obtain ⟨st₁, body, hw, hbody⟩ := feed_earlies c j db st hearly
  obtain ⟨st₂, hquery, -⟩ := Columns.feed_query (f := C.factory) C.env db st₁ (some C.shards)
    (bucketValues C.part i last.values) last.sink
  obtain ⟨body', hlast⟩ := toShard_last j hc (last.sink_ok
    ((bucketValues C.part i last.values).map fun e => (e.1, st₁.table.answer e.2)) fun e he => by
      obtain ⟨x, hx, rfl⟩ := List.mem_map.mp he
      exact fst_lt_of_mem_bucketValues hx)
  have hquiet : (feed (indexTable C.factory C.IK C.IV) C.env ⟨db, .inTx st₂⟩
    (.flush cl, none)).2.flatMap
      (C.toShard c j) = [] :=
    List.flatMap_eq_nil_iff.mpr fun ev hev =>
      Columns.toShard_of_quiet (Columns.quiet_flush _ cl ev hev) c j
  rw [if_neg (by simp)] at hquery
  refine ⟨body ++ body', ?_⟩
  rw [hcmds, List.append_assoc, commands_append, feedAll_append, hw, List.flatMap_append, hbody]
  simp only [List.singleton_append, commands, List.map_cons, List.map_nil, feedAll, hquery,
    List.append_nil, List.flatMap_cons, hquiet, hlast]
  simp [upstream]

end Fills

/-! ### The stages of a transaction -/

section Stages

variable {s₀ : ∀ p, C.toColumns.State C.User p} {net : C.Network} {msgs : C.Sends} {begun : Bool}

variable (s₀ begun) in
/-- New channels, and all writers at rest. -/
structure Fresh : Prop where
  users : ∀ e, s₀ (.user e) = []
  events : ∀ c j, (s₀ (.shard c j)).events = []
  rests : ∀ p, RestsAt begun s₀ p

/-- The stage before the first transaction, without any messages. -/
lemma stage_nil (hs : Fresh s₀ false) : Stage s₀ [] (fun _ => 0) false where
  users := hs.users
  silent _ := rfl
  does {net} h p := by
    rcases p with i | ⟨c, j⟩
    · obtain ⟨db, hw⟩ := hs.rests (.inl i)
      refine index_does h i ?_
      rw [hw]
      exact serves_nil db
    · obtain ⟨db, hw⟩ := hs.rests (.inr ⟨c, j⟩)
      refine shard_does h c j (silent_of_unheard h (fun i cmd hcmd => nomatch hcmd) c j) ?_
      rw [hw]
      exact serves_nil db

/-- All writers begin. -/
lemma stage_begins (hs : Fresh s₀ false) : Stage s₀ C.begins (fun _ => 1) true where
  users := hs.users
  silent := sentTo_user_begins
  does {net} h p := by
    rcases p with i | ⟨c, j⟩
    · obtain ⟨db, hw⟩ := hs.rests (.inl i)
      refine index_does h i ?_
      rw [hw, sentTo_index_begins]
      exact serves_begin rfl db
    · obtain ⟨db, hw⟩ := hs.rests (.inr ⟨c, j⟩)
      refine shard_does h c j (silent_of_unheard h (fun i cmd hcmd => ?_) c j) ?_
      · rw [sentTo_index_begins] at hcmd
        rw [List.mem_singleton.mp hcmd]
        exact unheard_begin _
      · rw [hw, sentTo_shard_begins]
        exact serves_begin rfl db

/-- A transaction that deletes, before one has stored: all flushes are direct. -/
lemma stage_delete (hs : Fresh s₀ true) (asks : List C.Ask) :
    Stage s₀ ((Tx.delete asks).body false) (Tx.delete asks).replies false where
  users := hs.users
  silent e := by rw [Tx.body, sentTo_append, sentTo_user_asks, sentTo_user_commit]; rfl
  does {net} h p := by
    rcases p with i | ⟨c, j⟩
    · obtain ⟨db, t, hw⟩ := hs.rests (.inl i)
      obtain ⟨hcalm, hcount⟩ := asks_index i asks
      refine index_does h i ?_
      rw [hw, Tx.body, sentTo_append, sentTo_index_commit, Tx.replies, ← hcount]
      exact serves_flush rfl db t _ fun cmd hcmd => (hcalm cmd hcmd).1
    · obtain ⟨db, t, hw⟩ := hs.rests (.inr ⟨c, j⟩)
      obtain ⟨hcalm, hcount⟩ := asks_shard c j asks
      refine shard_does h c j (silent_of_unheard h (fun i cmd hcmd => ?_) c j) ?_
      · rw [Tx.body, sentTo_append, sentTo_index_commit] at hcmd
        rcases List.mem_append.mp hcmd with hcmd | hcmd
        · obtain ⟨k, rfl⟩ := ((asks_index i asks).1 cmd hcmd).2
          exact unheard_remove k _
        · rw [List.mem_singleton.mp hcmd]
          exact fun w ev hev => Columns.quiet_flush w _ ev hev
      · rw [hw, Tx.body, sentTo_append, sentTo_shard_commit, Tx.replies, ← hcount]
        exact serves_flush rfl db t _ hcalm

section Store

variable (hs : Fresh s₀ true) (acquired : Bool) (blocks : List C.StoredBlock) (last : C.StoredBlock)
  (onFlush : ∀ c, Fin (C.shardsOf c) → List (C.K c × C.V c))
  (h : C.Lawful s₀ (clientSays ((Tx.store blocks last onFlush).body acquired)) net)

include hs h

lemma store_index (i : Fin C.shards) :
    Does s₀ ((Tx.store blocks last onFlush).body acquired) net (.inl i) 1 false := by
  obtain ⟨db, t, hw⟩ := hs.rests (.inl i)
  obtain ⟨early, hcmds, hearly⟩ := sentBy_blocks blocks last i
  have hcalm : ∀ cmd ∈ early ++ [.queryAndWrite (some C.shards) (bucketValues C.part i last.values)
    last.sink],
      Calm (indexTable C.factory C.IK C.IV) (some (.inl i)) cmd ∧ cmd.asks = false := by
    intro cmd hcmd
    rcases List.mem_append.mp hcmd with hcmd | hcmd
    · exact ⟨(hearly cmd hcmd).calm _, (hearly cmd hcmd).asks⟩
    · rw [List.mem_singleton.mp hcmd]
      exact ⟨.queryAndWrite _ _ _ rfl, rfl⟩
  have hserve : Serves (indexTable C.factory C.IK C.IV) C.env (some (Sum.inl i))
    ⟨db, .inTx (TxState.new t)⟩ (_ ++ [_])
      (_ + 1) false := serves_flush rfl db t _ fun cmd hcmd => (hcalm cmd hcmd).1
  rw [List.countP_eq_zero.mpr fun cmd hcmd => by simp [(hcalm cmd hcmd).2]] at hserve
  refine index_does h i ?_
  rw [hw, Tx.body, sentTo_append, Columns.sentTo_toIndex, hcmds, sentTo_index_commit]
  exact hserve

lemma store_plain {c : C.Col} (hc : c ∉ C.sinks) (j : Fin (C.shardsOf c)) :
    Does s₀ ((Tx.store blocks last onFlush).body acquired) net (.inr ⟨c, j⟩) 1 false := by
  obtain ⟨db, t, hw⟩ := hs.rests (.inr ⟨c, j⟩)
  have hnone : ∀ ev : Event C.IK C.IV C.User C.Sink, C.toShard c j ev = [] := by
    intro ev
    cases ev with
    | sunk s lastShards out =>
      simp only [Columns.toShard, if_neg hc]
      cases C.sink s out <;> rfl
    | _ => rfl
  refine shard_does h c j (fun i => List.flatMap_eq_nil_iff.mpr fun ev _ => hnone ev) ?_
  rw [hw, Tx.body, sentTo_append, Columns.sentTo_toIndex_of_ne (by simp),
    sentTo_shard_commit, flushCmd]
  simp only [hc, decide_false, Bool.and_false, if_false]
  split
  · exact serves_flush rfl db t [] (by simp)
  · exact serves_flush rfl db t [_] fun cmd hcmd => by
      rw [List.mem_singleton.mp hcmd]
      exact .writeSortedInsertsOnFlush _

lemma store_sink {c : C.Col} (hc : c ∈ C.sinks) (j : Fin (C.shardsOf c)) :
    Does s₀ ((Tx.store blocks last onFlush).body acquired) net (.inr ⟨c, j⟩) 1 false := by
  obtain ⟨db, t, hw⟩ := hs.rests (.inr ⟨c, j⟩)
  have hbodies : ∀ i, ∃ body, (Columns.indexRun s₀
    (clientSays ((Tx.store blocks last onFlush).body acquired)) none i).2.flatMap
      (C.toShard c j) = upstream C.shards body := by
    intro i
    obtain ⟨db', t', hw'⟩ := hs.rests (.inl i)
    rw [Columns.indexRun, clientSays, Tx.body, sentTo_append, Columns.sentTo_toIndex,
      sentTo_index_commit, hw']
    exact fills j hc blocks last i db' _ _
  choose bodies hfills using hbodies
  have hfilled : Columns.Filled s₀ (clientSays ((Tx.store blocks last onFlush).body acquired))
    none c j none
      (some (.inr ⟨c, j⟩)) db t bodies := by
    refine ⟨?_, ?_, fun e he => ?_, hfills⟩
    · rw [← hw, ← hs.events c j]
    · rw [clientSays, Tx.body, sentTo_append, Columns.sentTo_toIndex_of_ne (by simp),
        sentTo_shard_commit, flushCmd]
      simp [hc]
    · cases e with
      | none => exact absurd rfl he
      | some p => rfl
  exact sink_does h hfilled rfl (Columns.sentTo_toIndex_of_ne (by simp) _) fun i =>
    sentTo_index_commit _ _ i

end Store

/-- A transaction that stores: the shards that the sinks fill are released by the index. -/
lemma stage_store (hs : Fresh s₀ true) (acquired : Bool) (blocks : List C.StoredBlock)
    (last : C.StoredBlock) (onFlush : ∀ c, Fin (C.shardsOf c) → List (C.K c × C.V c)) :
    Stage s₀ ((Tx.store blocks last onFlush).body acquired) (Tx.store blocks last onFlush).replies
      false where
  users := hs.users
  silent e := by rw [Tx.body, sentTo_append, Columns.sentTo_toIndex_of_ne (by simp),
    sentTo_user_commit]; rfl
  does {net} h p := by
    rcases p with i | ⟨c, j⟩
    · exact store_index hs acquired blocks last onFlush h i
    · by_cases hc : c ∈ C.sinks
      · exact store_sink hs acquired blocks last onFlush h hc j
      · exact store_plain hs acquired blocks last onFlush h hc j

/-- Where no column is filled, it does not matter whether routers have been acquired. -/
lemma body_of_no_sinks (hsinks : C.sinks = []) (acquired : Bool) (tx : C.Tx) :
    tx.body acquired = tx.body false := by
  have hflush : C.flushCmd acquired = C.flushCmd false := by
    funext c j
    simp [flushCmd, hsinks]
  cases tx <;> simp only [Tx.body, commit, flushColumn, hflush]

lemma stage_body (hs : Fresh s₀ true) {acquired : Bool} {tx : C.Tx}
    (htx : acquired = true → C.sinks = [] ∨ tx.stores = true) :
    Stage s₀ (tx.body acquired) tx.replies false := by
  cases tx with
  | store blocks last onFlush => exact stage_store hs acquired blocks last onFlush
  | delete asks =>
    cases acquired with
    | true =>
      rcases htx rfl with hsinks | hstores
      · rw [body_of_no_sinks hsinks]
        exact stage_delete hs asks
      · exact absurd hstores (by simp [Tx.stores])
    | false => exact stage_delete hs asks

end Stages

/-! ### One transaction after the other -/

section Runs

variable {net : C.Network} {msgs : C.Sends} {begun : Bool}

/-- A network in which nothing is on its way starts anew. -/
lemma restart_eq_boot (hin : ∀ p, net.inbox p = []) (hout : ∀ p, net.outbox p = []) :
    C.restart net msgs = C.boot (C.restart net msgs).state (clientSays msgs) := by
  have houtbox : Function.update net.outbox (.user none) msgs = C.initially (clientSays msgs) := by
    funext p
    by_cases hp : p = .user none
    · subst hp
      simp [Columns.initially, clientSays]
    · rw [Function.update_of_ne hp, hout p]
      cases p with
      | user e =>
        cases e with
        | none => exact absurd rfl hp
        | some q => rfl
      | index i => rfl
      | shard c j => rfl
  have hinbox : net.inbox = fun _ => [] := funext hin
  simp only [restart, Columns.boot, Net.start, houtbox, hinbox]

lemma fresh_restart (h : ∀ p, RestsAt begun net.state p) : Fresh (C.restart net msgs).state begun where
  users _ := rfl
  events _ _ := rfl
  rests p := by
    rcases p with i | ⟨c, j⟩
    · exact h (.inl i)
    · exact h (.inr ⟨c, j⟩)

lemma fresh_outside (db : C.Dbs) : Fresh db.outside false where
  users _ := rfl
  events _ _ := rfl
  rests p := by
    rcases p with i | ⟨c, j⟩
    · exact ⟨_, rfl⟩
    · exact ⟨_, rfl⟩

/-- What holds between two moves: the context is in a stage, and what is left to do stores if
something has been stored before, where columns are filled. -/
structure Running.Good (s : C.Running) : Prop where
  stage : ∃ s₀ msgs, Stage s₀ msgs s.expects s.begun.isSome ∧ C.Lawful s₀ (clientSays msgs) s.net
  order : (s.begun.toList ++ s.txs).Pairwise fun t t' => t.stores → C.sinks = [] ∨ t'.stores
  later : s.acquired = true → ∀ t ∈ s.begun.toList ++ s.txs, C.sinks = [] ∨ t.stores

lemma good_start (db : C.Dbs) {txs : List C.Tx}
    (htxs : txs.Pairwise fun t t' => t.stores → C.sinks = [] ∨ t'.stores) :
    (Running.start db txs).Good where
  stage := ⟨db.outside, [], stage_nil (fresh_outside db), inv_start⟩
  order := htxs
  later h := nomatch h

lemma Running.Good.rests {s : C.Running} (h : s.Good) (hready : s.ready = true) :
    (∀ p, s.net.inbox p = []) ∧ (∀ p, s.net.outbox p = []) ∧
      ∀ p, RestsAt s.begun.isSome s.net.state p := by
  obtain ⟨s₀, msgs, hstage, hnet⟩ := h.stage
  have hanswers : ∀ p, (s.net.state (.user (some p))).length = s.expects p := by
    intro p
    rw [Running.ready, Bool.and_eq_true, List.all_eq_true] at hready
    exact beq_iff_eq.mp (hready.2 p (mem_targets p))
  obtain ⟨hin, hout⟩ := hstage.clear hnet hanswers
  exact ⟨hin, hout, hstage.rests hnet hanswers⟩

/-- Every move keeps a run good. -/
lemma Running.Good.step {s s' : C.Running} {m : C.Move} (h : s.Good)
    (hstep : s.step m = some s') : s'.Good := by
  cases m with
  | act a =>
    obtain ⟨net, hnet, rfl⟩ := Option.map_eq_some_iff.mp hstep
    obtain ⟨s₀, msgs, hstage, hlaw⟩ := h.stage
    exact ⟨⟨s₀, msgs, hstage, hlaw.step hnet⟩, h.order, h.later⟩
  | go =>
    obtain ⟨net, acquired, expects, begun, txs⟩ := s
    simp only [Running.step] at hstep
    split at hstep
    · next hready =>
      obtain ⟨hin, hout, hrests⟩ := h.rests hready
      have hlaw : ∀ msgs, C.Lawful (C.restart net msgs).state (clientSays msgs)
          (C.restart net msgs) := by
        intro msgs
        rw [restart_eq_boot hin hout]
        exact inv_start
      cases begun with
      | some tx =>
        obtain rfl := Option.some.inj hstep
        obtain ⟨hfirst, hrest⟩ := List.pairwise_cons.mp h.order
        refine ⟨⟨_, _, stage_body (fresh_restart hrests) fun ha => ?_, hlaw _⟩, hrest,
          fun ha t ht => ?_⟩
        · exact h.later ha tx List.mem_cons_self
        · rcases Bool.or_eq_true_iff.mp ha with ha | ha
          · exact h.later ha t (List.mem_cons_of_mem _ ht)
          · exact hfirst t ht ha
      | none =>
        cases txs with
        | nil => cases hstep
        | cons tx txs =>
          obtain rfl := Option.some.inj hstep
          exact ⟨⟨_, _, stage_begins (fresh_restart hrests), hlaw _⟩, h.order, h.later⟩
    · cases hstep

/-- **No flush waits for ever.** -/
theorem no_flush_waits (db : C.Dbs) {txs : List C.Tx}
    (htxs : C.sinks = [] ∨ txs.Pairwise fun t t' => t.stores → t'.stores) {moves : List C.Move}
    {s : C.Running} (hrun : sched Running.step (Running.start db txs) moves = some s) :
    ¬ Stuck s.net := by
  have horder : txs.Pairwise fun t t' => t.stores → C.sinks = [] ∨ t'.stores := by
    rcases htxs with hsinks | htxs
    · exact List.pairwise_of_forall fun _ _ _ => Or.inl hsinks
    · exact htxs.imp fun h hstores => Or.inr (h hstores)
  have hgood : s.Good := sched_inv (fun _ _ _ h hstep => h.step hstep) (good_start db horder) hrun
  obtain ⟨s₀, msgs, hstage, hnet⟩ := hgood.stage
  exact hstage.not_stuck hnet

end Runs

/-! ### A column that is filled, and a root key -/

/-- An index of one shard, a column that gets one row for each answer, and a root key. -/
@[reducible]
def filledAndRoot : Context where
  IK := ℕ
  IV := ℕ
  shards := 1
  factory := IndexFactory.new 1
  part _ := 0
  Col := Bool
  K _ := ℕ
  V _ := ℕ
  D _ := Table ℕ ℕ
  T _ := Table ℕ ℕ
  table _ := plainTable ℕ ℕ
  shardsOf _ := 1
  partOf _ _ := 0
  Sink := ℕ
  sink s out := .ok fun _ => out.map fun e => (s + e.1, e.2.getD 0)
  sinks := [false]
  nodup_sinks := List.nodup_singleton _
  cols := [false, true]
  nodup_cols := by decide
  mem_cols := by decide
  rootPk c := c
  rootPk_sinks := by decide
  shards_ne := by decide

/-- The databases of the three shards, all empty. -/
def emptyDbs : filledAndRoot.Dbs where
  index _ := IndexTables.empty
  shard _ _ := (Table.empty : Table ℕ ℕ)

/-- One block: its row of the index, for whose value the index is queried, and its row of the root
key. -/
def storeOne : filledAndRoot.Tx :=
  .store [] ⟨[(1, 10)], [10], 7, fun _ _ => ⟨_, rfl⟩⟩ fun c _ => if c then [(1, 1)] else []

/-- The rows of `storeOne` are deleted. -/
def deleteOne : filledAndRoot.Tx := .delete [.removeIndex 0 1, .remove false 0 7, .remove true 0 1]

/-- The client sends `n` messages, and each shard takes and sends as many as it can. -/
def serveAll (n : ℕ) (index filled root : List Bool) : List filledAndRoot.Move :=
  List.replicate n (.act (.send (.user none))) ++
    (index.map fun take => .act (if take then .take (.index 0) else .send (.index 0))) ++
    (filled.map fun take => .act (if take then .take (.shard false 0) else .send (.shard false 0))) ++
    root.map fun take => .act (if take then .take (.shard true 0) else .send (.shard true 0))

/-- The client takes `n` answers of each shard, and goes on. -/
def goOn (index filled root : ℕ) : List filledAndRoot.Move :=
  List.replicate index (.act (.take (.user (some (.inl 0))))) ++
    List.replicate filled (.act (.take (.user (some (.inr ⟨false, 0⟩))))) ++
    List.replicate root (.act (.take (.user (some (.inr ⟨true, 0⟩))))) ++ [.go]

/-- The writers begin; a block is stored. -/
def beginMoves : List filledAndRoot.Move :=
  serveAll 3 [true, false] [true, false] [true, false] ++ goOn 1 1 1

def storeMoves : List filledAndRoot.Move :=
  serveAll 6 [true, true, false, false, true, false] [true, true, true, false] [true, true, false]

/-- Nothing is in the channels of the shards. -/
def isIdle (net : filledAndRoot.Network) : Bool :=
  [.index 0, .shard false 0, .shard true 0].all fun p =>
    (net.inbox p).isEmpty && (net.outbox p).isEmpty

/-- The filled column holds a flush. -/
def isHolding (net : filledAndRoot.Network) : Bool :=
  match (net.state (.shard false 0)).writer.phase with
  | .inTx st => (st.deferred.bind FlushState.sender).isSome
  | _ => false

lemma stuck_of_isHolding {net : filledAndRoot.Network} (hidle : isIdle net = true)
    (hhold : isHolding net = true) : Stuck net := by
  constructor
  · have hall : ∀ p ∈ ([.index 0, .shard false 0, .shard true 0] : List
      (Party filledAndRoot.toColumns filledAndRoot.User)),
        net.inbox p = [] ∧ net.outbox p = [] := by
      intro p hp
      simpa using List.all_eq_true.mp hidle p hp
    intro p hp
    match p with
    | .user e => exact absurd rfl (hp e)
    | .index 0 => exact hall _ (by decide)
    | .shard false 0 => exact hall _ (by decide)
    | .shard true 0 => exact hall _ (by decide)
  · refine Or.inr ⟨false, 0, ?_⟩
    unfold isHolding at hhold
    split at hhold
    · next st hphase =>
      obtain ⟨a, ha⟩ := Option.isSome_iff_exists.mp hhold
      obtain ⟨fs, hfs, hsender⟩ := Option.bind_eq_some_iff.mp ha
      exact ⟨st, fs, a, hphase, hfs, hsender⟩
    · cases hhold

/-- **After a block has been stored, a transaction that only deletes gets stuck.** -/
theorem stored_then_deleted : ∃ moves s,
    sched Running.step (Running.start emptyDbs [storeOne, deleteOne]) moves = some s ∧
    Stuck s.net := by
  have hrun : ((sched Running.step (Running.start emptyDbs [storeOne, deleteOne])
      (.go :: beginMoves ++ storeMoves ++ goOn 1 1 1 ++ beginMoves ++
        serveAll 6 [true, false, true, false]
        [true, false, true] [true, false, true, false])).map fun s =>
          (isIdle s.net, isHolding s.net)) =
      some (true, true) := by decide +kernel
  obtain ⟨s, hs, hstuck⟩ := Option.map_eq_some_iff.mp hrun
  obtain ⟨hidle, hhold⟩ := Prod.ext_iff.mp hstuck
  exact ⟨_, s, hs, stuck_of_isHolding hidle hhold⟩

/-- The other way round, after the filled column has been asked to flush. -/
theorem deleted_then_stored : ∃ moves s,
    sched Running.step (Running.start emptyDbs [deleteOne, storeOne]) moves = some s ∧
    isHolding s.net = true ∧ ¬ Stuck s.net := by
  have hrun : ((sched Running.step (Running.start emptyDbs [deleteOne, storeOne])
      (.go :: beginMoves ++ serveAll 6 [true, false, true, false] [true, false, true, false]
        [true, false, true, false] ++
        goOn 2 2 2 ++ beginMoves ++ serveAll 6 [] [true] [])).map fun s => isHolding s.net) =
          some true := by
    decide +kernel
  obtain ⟨s, hs, hhold⟩ := Option.map_eq_some_iff.mp hrun
  exact ⟨_, s, hs, hhold, no_flush_waits emptyDbs
    (Or.inr (by simp [storeOne, deleteOne, Tx.stores])) hs⟩

end Context

end Redbit.Storage
