import Redbit.Storage.Barrier

/-!
# The writers of a write context

A write context owns the writers of all its columns.  One of the columns is an index that is
queried: the sinks of its queries fill other columns.  This module puts the writer threads and those
who use them into one network (`Redbit.Lib.Net`), in which every interleaving is a schedule.

* `Columns`: the columns of a context, and what the sinks make of an answer.
* `Columns.handle`: what each party does with a message.
* `index_run`, `shard_run`: the state of a shard follows from the messages it has taken.

The accesses to the tables do not fail here, and neither do commits; a sink may.
-/

namespace Redbit.Storage

open Redbit.Lib Redbit.Lib.Net

/-- The columns of a write context: the index that is queried, with keys `IK`, values `IV` and `shards`
shards, and the others. -/
structure Columns where
  IK : Type
  IV : Type
  [ordIK : LinearOrder IK]
  [ordIV : LinearOrder IV]
  [cacheIV : CacheKey IV]
  shards : ℕ
  factory : IndexFactory
  part : IV → Fin shards
  Col : Type
  [decCol : DecidableEq Col]
  K : Col → Type
  V : Col → Type
  [ordK : ∀ c, LinearOrder (K c)]
  D : Col → Type
  T : Col → Type
  table : ∀ c, WriteTable (D c) (T c) (K c) (V c)
  shardsOf : Col → ℕ
  partOf : ∀ c, K c → Fin (shardsOf c)
  Sink : Type
  /-- The rows a sink makes of its answers. -/
  sink : Sink → List (ℕ × Option IK) → Except AppError (∀ c, List (K c × V c))
  /-- The columns the sinks fill, in the order in which they do. -/
  sinks : List Col
  nodup_sinks : sinks.Nodup

attribute [instance] Columns.ordIK Columns.ordIV Columns.cacheIV Columns.decCol Columns.ordK

/-- A shard: its writer, and what it has shown so far. -/
structure Shard (D T K V A S : Type) where
  writer : Writer D T K V A
  events : List (Event K V A S)

/-- One command. -/
def Shard.serve {D T K V A S : Type} [LinearOrder K] (W : WriteTable D T K V) (env : Env K A S)
    (s : Shard D T K V A S) (cmd : WriterCommand K V A S) : Shard D T K V A S × List (Event K V A S) :=
  let r := feed W env s.writer (cmd, none)
  (⟨r.1, s.events ++ r.2⟩, r.2)

/-- Who gets an answer. -/
def Event.receiver {K V A S : Type} : Event K V A S → Option A
  | .started ack _ => some ack
  | .flushed ack _ => some ack
  | .removed ack _ => some ack
  | .ranged ack _ => some ack
  | .stopped ack => some ack
  | .sunk _ _ _ => none
  | .committed => none

/-- The parties: those who use the columns, the shards of the index, and the shards of the others. -/
inductive Party (X : Columns) (E : Type) where
  | user (e : E)
  | index (i : Fin X.shards)
  | shard (c : X.Col) (j : Fin (X.shardsOf c))
  deriving DecidableEq

namespace Columns

variable (X : Columns) (E : Type)

/-- The commands of the index, and those of the other columns. -/
abbrev Cmd := WriterCommand X.IK X.IV E X.Sink

abbrev CmdOf (c : X.Col) := WriterCommand (X.K c) (X.V c) E Empty

/-- An answer of a shard. -/
abbrev Reply := Event X.IK X.IV E X.Sink ⊕ Σ c, Event (X.K c) (X.V c) E Empty

/-- The messages a party takes. -/
abbrev Msg : Party X E → Type
  | .user _ => X.Reply E
  | .index _ => X.Cmd E
  | .shard c _ => X.CmdOf E c

/-- The states of a party; a user keeps the answers. -/
abbrev State : Party X E → Type
  | .user _ => List (X.Reply E)
  | .index _ => Shard (IndexTables X.IK X.IV) (IndexTable X.IK X.IV) X.IK X.IV E X.Sink
  | .shard c _ => Shard (X.D c) (X.T c) (X.K c) (X.V c) E Empty

variable {E}

/-- Commands for the index, and for another column, on their way to the shards. -/
def toIndex (cmds : List (Fin X.shards × X.Cmd E)) : List (Σ p, X.Msg E p) := cmds.map fun e =>
    ⟨.index e.1, e.2⟩

def toColumn (c : X.Col) (cmds : List (Fin (X.shardsOf c) × X.CmdOf E c)) : List (Σ p, X.Msg E p) :=
  cmds.map fun e => ⟨.shard c e.1, e.2⟩

/-- What the shards of the index find outside: everything works, but a sink may fail. -/
def env : Env X.IK E X.Sink where
  begin _ := .opened
  commit _ := .ok ()
  connected _ := true
  runSink s _ out := (X.sink s out).map fun _ => ()

/-- The sink hands its rows to the routers of the columns it fills; it fails before it has sent
anything. -/
def sinkSends (s : X.Sink) (lastShards : Option ℕ) (out : List (ℕ × Option X.IK)) :
    List (Σ p, X.Msg E p) :=
  match X.sink s out with
  | .ok rows => X.sinks.flatMap fun c => X.toColumn c (routeMerge (X.partOf c) (rows c) lastShards)
  | .error _ => []

/-- What an event of the index sends. -/
def indexSends (ev : Event X.IK X.IV E X.Sink) : List (Σ p, X.Msg E p) :=
  match ev with
  | .sunk s lastShards out => X.sinkSends s lastShards out
  | ev => ev.receiver.toList.map fun e => ⟨.user e, .inl ev⟩

/-- What an event of another column sends. -/
def shardSends (c : X.Col) (ev : Event (X.K c) (X.V c) E Empty) : List (Σ p, X.Msg E p) :=
  ev.receiver.toList.map fun e => ⟨.user e, .inr ⟨c, ev⟩⟩

/-- What a party does with a message. -/
def handle : ∀ p : Party X E, X.State E p → X.Msg E p → X.State E p × List (Σ p, X.Msg E p)
  | .user _, got, reply => (got ++ [reply], [])
  | .index _, s, cmd =>
    let r := s.serve (indexTable X.factory X.IK X.IV) X.env cmd
    (r.1, r.2.flatMap X.indexSends)
  | .shard c _, s, cmd =>
    let r := s.serve (X.table c) .fine cmd
    (r.1, r.2.flatMap (X.shardSends c))

/-- In the beginning only the users have something to say. -/
def initially (prog : E → List (Σ p, X.Msg E p)) : Party X E → List (Σ p, X.Msg E p)
  | .user e => prog e
  | _ => []

/-- The network in which the parties are in the states `s₀`, and the users have `prog` to say. -/
def boot (s₀ : ∀ p, X.State E p) (prog : E → List (Σ p, X.Msg E p)) :
    Net (Party X E) (X.State E) (X.Msg E) :=
  Net.start s₀ (X.initially prog)

end Columns

/-! ### One shard -/

section OneShard

variable {ι D T K V A S : Type} [LinearOrder K] (W : WriteTable D T K V) (env : Env K A S)

/-- The shard after the messages `l`. -/
def Shard.after (s : Shard D T K V A S) (l : List (ι × WriterCommand K V A S)) : Shard D T K V A S :=
  ⟨(feedAll W env s.writer (inputs l)).1, s.events ++ (feedAll W env s.writer (inputs l)).2⟩

lemma foldl_serve (s : Shard D T K V A S) (l : List (ι × WriterCommand K V A S)) :
    l.foldl (fun s e => (s.serve W env e.2).1) s = s.after W env l := by
  induction l generalizing s with
  | nil => simp [Shard.after, inputs, feedAll]
  | cons e l ih =>
    rw [List.foldl_cons, ih]
    simp [Shard.after, Shard.serve, inputs, feedAll]

/-- The commands, none of whose table accesses fails. -/
def commands (cmds : List (WriterCommand K V A S)) : List (Input T K V A S) := cmds.map fun cmd =>
    (cmd, none)

omit [LinearOrder K] in
lemma commands_append (cmds cmds' : List (WriterCommand K V A S)) :
    (commands (cmds ++ cmds') : List (Input T K V A S)) = commands cmds ++ commands cmds' :=
  List.map_append

omit [LinearOrder K] in
lemma inputs_eq (l : List (ι × WriterCommand K V A S)) :
    (inputs l : List (Input T K V A S)) = commands (l.map Prod.snd) := by
  simp [inputs, commands]

/-- More commands show more. -/
lemma feedAll_isPrefix (w : Writer D T K V A) {p cmds : List (WriterCommand K V A S)}
    (h : p <+: cmds) :
    (feedAll W env w (commands p)).2 <+: (feedAll W env w (commands cmds)).2 := by
  obtain ⟨rest, rfl⟩ := h
  rw [commands_append, feedAll_append]
  exact List.prefix_append _ _

end OneShard

namespace Columns

variable {X : Columns} {E : Type}

/-- The shard `i` of the index after the messages `l`, and what it sends. -/
lemma after_index (i : Fin X.shards) (s : X.State E (.index i)) (l : List (Party X E × X.Cmd E)) :
    Net.after X.handle (.index i) s l = Shard.after (indexTable X.factory X.IK X.IV) X.env s l :=
  foldl_serve _ _ s l

lemma after_shard (c : X.Col) (j : Fin (X.shardsOf c)) (s : X.State E (.shard c j))
    (l : List (Party X E × X.CmdOf E c)) :
    Net.after X.handle (.shard c j) s l = Shard.after (X.table c) .fine s l :=
  foldl_serve _ _ s l

lemma outs_user (e : E) (s : X.State E (.user e)) (l : List (Party X E × X.Reply E)) :
    outs X.handle (.user e) s l = [] := by
  induction l generalizing s with
  | nil => rfl
  | cons r l ih => exact ih _

lemma outs_index (i : Fin X.shards) (s : X.State E (.index i)) (l : List (Party X E × X.Cmd E)) :
    outs X.handle (.index i) s l =
      (feedAll (indexTable X.factory X.IK X.IV) X.env s.writer (inputs l)).2.flatMap X.indexSends := by
  induction l generalizing s with
  | nil => rfl
  | cons e l ih =>
    rw [outs, ih]
    simp [handle, Shard.serve, inputs, feedAll]

lemma outs_shard (c : X.Col) (j : Fin (X.shardsOf c)) (s : X.State E (.shard c j))
    (l : List (Party X E × X.CmdOf E c)) :
    outs X.handle (.shard c j) s l =
      (feedAll (X.table c) .fine s.writer (inputs l)).2.flatMap (X.shardSends c) := by
  induction l generalizing s with
  | nil => rfl
  | cons e l ih =>
    rw [outs, ih]
    simp [handle, Shard.serve, inputs, feedAll]

/-! ### What reaches a shard -/

section Sends

variable (X) in
/-- What an event of the index sends to the shard `j` of the column `c`. -/
def toShard (c : X.Col) (j : Fin (X.shardsOf c)) : Event X.IK X.IV E X.Sink → List (X.CmdOf E c)
  | .sunk s lastShards out =>
    match X.sink s out with
    | .ok rows => if c ∈ X.sinks then sentBy j (routeMerge (X.partOf c) (rows c) lastShards) else []
    | .error _ => []
  | _ => []

variable [DecidableEq E]

/-- A list of messages to the parties `f k`. -/
lemma sentTo_map {κ : Type} [DecidableEq κ] {M : Type} {f : κ → Party X E} (hf : Function.Injective f)
    (g : κ × M → Σ p, X.Msg E p) (hg : ∀ e, (g e).1 = f e.1) (k : κ) (cast : M → X.Msg E (f k))
    (hcast : ∀ m, g (k, m) = ⟨f k, cast m⟩) (l : List (κ × M)) :
    sentTo (f k) (l.map g) = (sentBy k l).map cast := by
  induction l with
  | nil => rfl
  | cons e l ih =>
    obtain ⟨k', m⟩ := e
    by_cases hk : k' = k
    · subst hk
      rw [List.map_cons, hcast, sentTo_cons_self, sentBy_cons_self, List.map_cons, ih]
    · have hne : (g (k', m)).1 ≠ f k := by
        rw [hg]
        exact fun h => hk (hf h)
      rw [List.map_cons, sentTo_cons_of_ne hne, sentBy_cons_of_ne hk, ih]

lemma sentTo_toIndex (i : Fin X.shards) (cmds : List (Fin X.shards × X.Cmd E)) :
    sentTo (.index i) (X.toIndex cmds) = sentBy i cmds := by
  have h := sentTo_map (f := (Party.index : Fin X.shards → Party X E)) (fun _ _ h => Party.index.inj h)
    (fun e => ⟨.index e.1, e.2⟩) (fun _ => rfl) i id (fun _ => rfl) cmds
  rwa [List.map_id] at h

lemma sentTo_toColumn (c : X.Col) (j : Fin (X.shardsOf c))
    (cmds : List (Fin (X.shardsOf c) × X.CmdOf E c)) :
    sentTo (.shard c j) (X.toColumn c cmds) = sentBy j cmds := by
  have h := sentTo_map (f := (Party.shard c : _ → Party X E)) (fun _ _ h => by simpa using h)
    (fun e => ⟨.shard c e.1, e.2⟩) (fun _ => rfl) j id (fun _ => rfl) cmds
  rwa [List.map_id] at h

lemma sentTo_toIndex_of_ne {p : Party X E} (hp : ∀ i, p ≠ .index i)
    (cmds : List (Fin X.shards × X.Cmd E)) : sentTo p (X.toIndex cmds) = [] := by
  refine sentTo_eq_nil fun e he => ?_
  obtain ⟨x, -, rfl⟩ := List.mem_map.mp he
  exact (hp x.1).symm

lemma sentTo_toColumn_of_ne {p : Party X E} {c : X.Col} (hp : ∀ j, p ≠ .shard c j)
    (cmds : List (Fin (X.shardsOf c) × X.CmdOf E c)) : sentTo p (X.toColumn c cmds) = [] := by
  refine sentTo_eq_nil fun e he => ?_
  obtain ⟨x, -, rfl⟩ := List.mem_map.mp he
  exact (hp x.1).symm

/-- Commands for several columns. -/
lemma sentTo_columns {cs : List X.Col} (hcs : cs.Nodup) (c : X.Col) (j : Fin (X.shardsOf c))
    (g : ∀ c, List (Fin (X.shardsOf c) × X.CmdOf E c)) :
    sentTo (.shard c j) (cs.flatMap fun c => X.toColumn c (g c)) = if c ∈ cs then sentBy j (g c)
      else [] := by
  rw [sentTo_flatMap]
  induction cs with
  | nil => rfl
  | cons c' cs ih =>
    obtain ⟨hc', hcs⟩ := List.nodup_cons.mp hcs
    rw [List.flatMap_cons, ih hcs]
    by_cases h : c' = c
    · subst h
      rw [sentTo_toColumn, if_neg hc', if_pos List.mem_cons_self, List.append_nil]
    · rw [sentTo_toColumn_of_ne (by simp [Ne.symm h]), List.nil_append]
      simp [Ne.symm h]

lemma sentTo_indexSends (c : X.Col) (j : Fin (X.shardsOf c)) (ev : Event X.IK X.IV E X.Sink) :
    sentTo (.shard c j) (X.indexSends ev) = X.toShard c j ev := by
  have hreply : ∀ ev : Event X.IK X.IV E X.Sink,
      sentTo (.shard c j) (ev.receiver.toList.map fun e => (⟨.user e, .inl ev⟩ : Σ p, X.Msg E p)) =
        [] := by
    intro ev
    refine sentTo_eq_nil fun e he => ?_
    obtain ⟨x, -, rfl⟩ := List.mem_map.mp he
    simp
  cases ev with
  | sunk s lastShards out =>
    simp only [indexSends, sinkSends, toShard]
    cases X.sink s out with
    | error e => rfl
    | ok rows =>
      exact sentTo_columns X.nodup_sinks c j fun c => routeMerge (X.partOf c) (rows c) lastShards
  | _ => exact hreply _

/-- Nobody but the users talks to the index. -/
lemma sentTo_index_indexSends (i : Fin X.shards) (ev : Event X.IK X.IV E X.Sink) :
    sentTo (.index i) (X.indexSends ev) = [] := by
  refine sentTo_eq_nil fun e he => ?_
  cases ev with
  | sunk s lastShards out =>
    simp only [indexSends, sinkSends] at he
    cases hs : X.sink s out with
    | error e => simp [hs] at he
    | ok rows =>
      simp only [hs, List.mem_flatMap, toColumn, List.mem_map] at he
      obtain ⟨c, -, x, -, rfl⟩ := he
      simp
  | _ =>
    simp only [indexSends, List.mem_map] at he
    obtain ⟨x, -, rfl⟩ := he
    simp

lemma sentTo_shardSends {p : Party X E} (hp : ∀ e, p ≠ .user e) (c : X.Col)
    (ev : Event (X.K c) (X.V c) E Empty) : sentTo p (X.shardSends c ev) = [] := by
  refine sentTo_eq_nil fun e he => ?_
  obtain ⟨x, -, rfl⟩ := List.mem_map.mp he
  exact (hp x).symm

end Sends

/-! ### What is put out in a run -/

section Emitted

variable {s₀ : ∀ p, X.State E p} {prog : E → List (Σ p, X.Msg E p)}
  {net : Net (Party X E) (X.State E) (X.Msg E)}

lemma emitted_user (e : E) : net.emitted X.handle s₀ (X.initially prog) (.user e) = prog e := by
  simp [emitted, initially, outs_user]

variable [DecidableEq E]

variable (X s₀ prog) in
/-- The law of the network for a run from `boot`. -/
abbrev Lawful (net : Net (Party X E) (X.State E) (X.Msg E)) : Prop :=
  Net.Inv X.handle s₀ (X.initially prog) net

/-- What the shard `i` of the index has shown since the start. -/
def shownBy (s₀ : ∀ p, X.State E p) (net : Net (Party X E) (X.State E) (X.Msg E)) (i : Fin X.shards) :
    List (Event X.IK X.IV E X.Sink) :=
  (feedAll (indexTable X.factory X.IK X.IV) X.env (s₀ (.index i)).writer
    (inputs (net.log (.index i)))).2

lemma sentTo_shard_emitted_index (c : X.Col) (j : Fin (X.shardsOf c)) (i : Fin X.shards) :
    sentTo (.shard c j) (net.emitted X.handle s₀ (X.initially prog) (.index i)) =
      (shownBy s₀ net i).flatMap (X.toShard c j) := by
  simp [emitted, initially, outs_index, sentTo_flatMap, sentTo_indexSends, shownBy]

lemma sentTo_shard_emitted_shard (c c' : X.Col) (j : Fin (X.shardsOf c)) (j' : Fin (X.shardsOf c')) :
    sentTo (.shard c j) (net.emitted X.handle s₀ (X.initially prog) (.shard c' j')) = [] := by
  have hnone : ∀ ev : Event (X.K c') (X.V c') E Empty, sentTo (.shard c j) (X.shardSends c' ev) = [] :=
    fun ev => sentTo_shardSends (by simp) c' ev
  simp [emitted, initially, outs_shard, sentTo_flatMap, hnone]

/-- To the shards of the index only users talk. -/
lemma sentTo_index_emitted (i : Fin X.shards) {p : Party X E} (hp : ∀ e, p ≠ .user e) :
    sentTo (.index i) (net.emitted X.handle s₀ (X.initially prog) p) = [] := by
  cases p with
  | user e => exact absurd rfl (hp e)
  | index i' => simp [emitted, initially, outs_index, sentTo_flatMap, sentTo_index_indexSends]
  | shard c j =>
    have hnone : ∀ ev : Event (X.K c) (X.V c) E Empty, sentTo (.index i) (X.shardSends c ev) = [] :=
      fun ev => sentTo_shardSends (by simp) c ev
    simp [emitted, initially, outs_shard, sentTo_flatMap, hnone]

end Emitted

/-! ### Runs in which the sinks fill a column -/

section Runs

variable [DecidableEq E] {s₀ : ∀ p, X.State E p} {prog : E → List (Σ p, X.Msg E p)}
  {net : Net (Party X E) (X.State E) (X.Msg E)} {cl : E}

/-- All commands have been sent, and all channels of commands have been drained. -/
def Drained (net : Net (Party X E) (X.State E) (X.Msg E)) : Prop :=
  (∀ p, net.outbox p = []) ∧ ∀ p, (∀ e, p ≠ .user e) → net.inbox p = []

variable (prog) in
/-- Of the users only `cl` talks to the index. -/
def OnlyClient (cl : E) : Prop := ∀ i, ∀ e ≠ cl, sentTo (.index i) (prog e) = ([] : List (X.Cmd E))

variable (s₀ prog) in
/-- The whole run of the shard `i` of the index. -/
def indexRun (cl : E) (i : Fin X.shards) :=
  feedAll (indexTable X.factory X.IK X.IV) X.env (s₀ (.index i)).writer
    (commands (sentTo (.index i) (prog cl)))

lemma Lawful.index_log (h : X.Lawful s₀ prog net) (hcl : OnlyClient prog cl) (i : Fin X.shards) :
    (net.log (.index i)).map Prod.snd = sentBy (.user cl) (net.log (.index i)) := by
  refine h.map_snd_log fun p hp => ?_
  cases p with
  | user e =>
    rw [emitted_user]
    exact hcl i e fun he => hp (congrArg _ he)
  | index i' => exact sentTo_index_emitted i (by simp)
  | shard c j => exact sentTo_index_emitted i (by simp)

/-- A shard of the index has shown a beginning of what it shows in its whole run. -/
lemma Lawful.shownBy_isPrefix (h : X.Lawful s₀ prog net) (hcl : OnlyClient prog cl)
    (i : Fin X.shards) : shownBy s₀ net i <+: (indexRun s₀ prog cl i).2 := by
  have hpre := h.taken (.user cl) (.index i)
  rw [emitted_user] at hpre
  rw [shownBy, inputs_eq, h.index_log hcl i]
  exact feedAll_isPrefix _ _ _ hpre

lemma Lawful.shownBy_drained (h : X.Lawful s₀ prog net) (hcl : OnlyClient prog cl) (hd : Drained net)
    (i : Fin X.shards) : shownBy s₀ net i = (indexRun s₀ prog cl i).2 := by
  have hall := h.taken_of_empty (hd.1 (.user cl)) (hd.2 (.index i) (by simp))
  rw [emitted_user] at hall
  rw [shownBy, inputs_eq, h.index_log hcl i, hall, indexRun]

lemma Lawful.state_index (h : X.Lawful s₀ prog net) (i : Fin X.shards) :
    (net.state (.index i)).events = (s₀ (.index i)).events ++ shownBy s₀ net i := by
  rw [h.state, after_index]
  rfl

variable (s₀ prog) in
/-- The shard `j` of the column `c` is at the start of a transaction, the user `φ` asks it to flush
when ready, and the shard `i` of the index sends it `bodies i`. -/
structure Filled (cl : E) (c : X.Col) (j : Fin (X.shardsOf c)) (φ ack : E) (db : X.D c) (t : X.T c)
    (bodies : Fin X.shards → List (List (X.K c × X.V c))) : Prop where
  start : s₀ (.shard c j) = ⟨⟨db, .inTx (TxState.new t)⟩, []⟩
  asks : sentTo (.shard c j) (prog φ) = ([.flushWhenReady ack] : List (X.CmdOf E c))
  silent : ∀ e ≠ φ, sentTo (.shard c j) (prog e) = ([] : List (X.CmdOf E c))
  fills : ∀ i, (indexRun s₀ prog cl i).2.flatMap (X.toShard c j) = upstream X.shards (bodies i)

variable {c : X.Col} {j : Fin (X.shardsOf c)} {φ ack : E} {db : X.D c} {t : X.T c}
  {bodies : Fin X.shards → List (List (X.K c × X.V c))}

lemma Filled.fed (hf : Filled s₀ prog cl c j φ ack db t bodies) (h : X.Lawful s₀ prog net)
    (hcl : OnlyClient prog cl) : Fed Party.index (.user φ) ack bodies (net.log (.shard c j)) where
  data i := by
    have hpre := h.taken (.index i) (.shard c j)
    rw [sentTo_shard_emitted_index] at hpre
    rw [← hf.fills i]
    exact hpre.trans (h.shownBy_isPrefix hcl i |>.flatMap _)
  flush := by
    have hpre := h.taken (.user φ) (.shard c j)
    rwa [emitted_user, hf.asks] at hpre
  senders e he := by
    obtain ⟨p, m⟩ := e
    have hmem : m ∈ sentTo (.shard c j) (net.emitted X.handle s₀ (X.initially prog) p) :=
      (h.taken p _).subset (mem_sentBy.mpr he)
    cases p with
    | user e =>
      by_cases heq : e = φ
      · exact Or.inl (congrArg _ heq)
      · rw [emitted_user, hf.silent e heq] at hmem
        cases hmem
    | index i => exact Or.inr ⟨i, rfl⟩
    | shard c' j' =>
      rw [sentTo_shard_emitted_shard] at hmem
      cases hmem

lemma Filled.full_of_drained (hf : Filled s₀ prog cl c j φ ack db t bodies) (h : X.Lawful s₀ prog net)
    (hcl : OnlyClient prog cl) (hd : Drained net) :
    Full Party.index (.user φ) ack bodies (net.log (.shard c j)) := by
  have hin : net.inbox (.shard c j) = [] := hd.2 _ (by simp)
  constructor
  · intro i
    rw [h.taken_of_empty (hd.1 _) hin, sentTo_shard_emitted_index, h.shownBy_drained hcl hd,
      hf.fills i]
  · rw [h.taken_of_empty (hd.1 _) hin, emitted_user, hf.asks]

/-- **A column filled by sinks.** In every state that is reached, the shard has either committed,
and then everything meant for it has come and is in what it has committed, or it has shown nothing
and waits. -/
theorem Filled.run (hN : X.shards ≠ 0) (hf : Filled s₀ prog cl c j φ ack db t bodies)
    (h : X.Lawful s₀ prog net) (hcl : OnlyClient prog cl) :
    (Full Party.index (.user φ) ack bodies (net.log (.shard c j)) ∧
      ∃ kvs, kvs.Perm ((List.finRange X.shards).flatMap fun i => (bodies i).flatten) ∧
        net.state (.shard c j) = ⟨⟨(X.table c).tables ((X.table c).insertManySortedByKey t kvs),
          .outside⟩,
          [.committed, .flushed ack (.ok ())]⟩) ∨
    (¬ Full Party.index (.user φ) ack bodies (net.log (.shard c j)) ∧
      ∃ st, net.state (.shard c j) = ⟨⟨db, .inTx st⟩, []⟩ ∧
        Waits (.user φ) X.shards ack t (net.log (.shard c j)) st) := by
  have hup : Function.Injective (Party.index : Fin X.shards → Party X E) := fun _ _ h =>
    Party.index.inj h
  have hφ : ∀ i : Fin X.shards, (Party.index i : Party X E) ≠ .user φ := by simp
  have hfed := hf.fed h hcl
  have hstate : net.state (.shard c j) =
      ⟨(feedAll (X.table c) .fine ⟨db, .inTx (TxState.new t)⟩ (inputs (net.log (.shard c j)))).1,
        (feedAll (X.table c) .fine ⟨db, .inTx (TxState.new t)⟩
          (inputs (net.log (.shard c j)))).2⟩ := by
    rw [h.state, after_shard, hf.start]
    rfl
  rcases barrier_feed (X.table c) .fine hup hφ hN rfl db t hfed with
    ⟨hfull, kvs, hkvs, hrun⟩ | ⟨hfull, st, hrun, hwaits⟩
  · refine Or.inl ⟨hfull, kvs, hkvs.trans (hfull.mergedAll_perm hup hφ hfed), ?_⟩
    rw [hstate, hrun]
  · refine Or.inr ⟨hfull, st, ?_, hwaits⟩
    rw [hstate, hrun]

end Runs

end Columns

end Redbit.Storage
