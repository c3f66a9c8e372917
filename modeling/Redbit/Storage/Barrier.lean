import Redbit.Storage.Router
import Mathlib.Algebra.Order.BigOperators.Group.Finset
import Mathlib.Algebra.BigOperators.Fin

/-!
# The deferred flush

A column that is filled by the sinks of another one is flushed by `FlushWhenReady`: each of its
shards waits until every one of the `N` upstream shards has said that it is ready.  Each upstream
shard sends its data first and its signal last, but the `N` streams and the request to flush arrive
in any order.

`barrier_feed` says what the shard does with any such shuffle: it commits exactly when the last of
all these messages has come, so once, and with all the data in it.
-/

namespace Redbit.Storage

open Redbit.Lib Redbit.Lib.Net
open scoped List

variable {ι : Type} [DecidableEq ι] {N : ℕ} {D T K V A S : Type}

/-- What an upstream shard sends: data, and then its signal. -/
def upstream (N : ℕ) (body : List (List (K × V))) : List (WriterCommand K V A S) :=
  body.map .mergeUnsortedInserts ++ [.readyForFlush N]

/-- The messages `l`, each with its sender, are the beginning of a shuffle of what the upstream shards
`up i` send and of one request to flush by `φ`. -/
structure Fed (up : Fin N → ι) (φ : ι) (ack : A) (bodies : Fin N → List (List (K × V)))
    (l : List (ι × WriterCommand K V A S)) : Prop where
  data : ∀ i, sentBy (up i) l <+: upstream N (bodies i)
  flush : sentBy φ l <+: [.flushWhenReady ack]
  senders : ∀ e ∈ l, e.1 = φ ∨ ∃ i, e.1 = up i

/-- A signal. -/
def WriterCommand.isReady : WriterCommand K V A S → Bool
  | .readyForFlush _ => true
  | _ => false

/-- The data of a command. -/
def WriterCommand.merged : WriterCommand K V A S → List (K × V)
  | .mergeUnsortedInserts kvs => kvs
  | _ => []

/-- The number of signals among the messages. -/
def readies (l : List (ι × WriterCommand K V A S)) : ℕ := l.countP fun e => e.2.isReady

/-- All data among the messages. -/
def mergedAll (l : List (ι × WriterCommand K V A S)) : List (K × V) := l.flatMap fun e => e.2.merged

section Counting

variable {up : Fin N → ι} {φ : ι} {ack : A} {bodies : Fin N → List (List (K × V))}
  {l : List (ι × WriterCommand K V A S)} {e : ι × WriterCommand K V A S}

lemma Fed.of_concat (h : Fed up φ ack bodies (l ++ [e])) : Fed up φ ack bodies l where
  data i := ((sentBy_append l [e]).symm ▸ List.prefix_append _ _ : sentBy (up i) l <+: _).trans
    (h.data i)
  flush := ((sentBy_append l [e]).symm ▸ List.prefix_append _ _ : sentBy φ l <+: _).trans h.flush
  senders e' he' := h.senders e' (List.mem_append_left _ he')

lemma countP_upstream (body : List (List (K × V))) :
    (upstream N body : List (WriterCommand K V A S)).countP WriterCommand.isReady = 1 := by
  rw [upstream, List.countP_append, List.countP_map]
  simp [WriterCommand.isReady, Function.comp_def]

/-- An upstream shard has signalled exactly if everything it sends has come. -/
lemma countP_of_isPrefix {body : List (List (K × V))} {p : List (WriterCommand K V A S)}
    (h : p <+: upstream N body) :
    p.countP WriterCommand.isReady ≤ 1 ∧
      (p.countP WriterCommand.isReady = 1 → p = upstream N body) := by
  refine ⟨(h.sublist.countP_le).trans (countP_upstream body).le, fun hone => ?_⟩
  rcases List.prefix_concat_iff.mp h with h | h
  · exact h
  · -- without the last message there is no signal
    have hnone : (body.map .mergeUnsortedInserts : List (WriterCommand K V A S)).countP
        WriterCommand.isReady = 0 := by
      rw [List.countP_map, List.countP_eq_zero]
      simp [WriterCommand.isReady]
    have hle : p.countP WriterCommand.isReady ≤ _ := h.sublist.countP_le
    omega

/-- Signals come from upstream only. -/
lemma Fed.readies_eq_sum (hup : Function.Injective up) (h : Fed up φ ack bodies l) :
    readies l = ∑ i, (sentBy (up i) l).countP WriterCommand.isReady := by
  induction l using List.reverseRecOn with
  | nil => simp [readies]
  | append_singleton l e ih =>
    obtain ⟨k, m⟩ := e
    have hl := ih h.of_concat
    have hcount : ∀ i, (sentBy (up i) (l ++ [(k, m)])).countP WriterCommand.isReady =
        (sentBy (up i) l).countP WriterCommand.isReady + if k = up i ∧ m.isReady then 1 else 0 := by
      intro i
      rw [sentBy_append, List.countP_append]
      congr 1
      by_cases hk : k = up i
      · subst hk
        simp [List.countP_cons]
      · rw [sentBy_cons_of_ne hk, if_neg (fun h => hk h.1)]
        rfl
    have hsum : (∑ i, if k = up i ∧ m.isReady then 1 else 0) = if m.isReady then 1 else 0 := by
      rcases h.senders (k, m) (List.mem_append_right _ List.mem_cons_self) with hk | ⟨j, hk⟩
      · -- the request to flush is not a signal
        have hm : m = .flushWhenReady ack := by
          have hmem : m ∈ sentBy φ (l ++ [(k, m)]) := mem_sentBy.mpr (by simp [show k = φ from hk])
          simpa using h.flush.subset hmem
        simp [hm, WriterCommand.isReady]
      · have hiff : ∀ i, (k = up i ∧ m.isReady = true) ↔ (i = j ∧ m.isReady = true) := by
          intro i
          rw [show k = up j from hk, hup.eq_iff]
          exact and_congr_left fun _ => eq_comm
        simp only [hiff]
        by_cases hm : m.isReady = true <;> simp [hm]
    rw [readies, List.countP_append, ← readies, hl, Finset.sum_congr rfl fun i _ => hcount i,
      Finset.sum_add_distrib, hsum]
    simp [List.countP_cons]

/-- All have signalled exactly if everything has come from all of them. -/
lemma Fed.complete_of_readies (hup : Function.Injective up) (h : Fed up φ ack bodies l)
    (hN : readies l = N) (i : Fin N) : sentBy (up i) l = upstream N (bodies i) := by
  have hle : ∀ i ∈ Finset.univ, (sentBy (up i) l).countP WriterCommand.isReady ≤ 1 :=
    fun i _ => (countP_of_isPrefix (h.data i)).1
  have hsum : ∑ i, (sentBy (up i) l).countP WriterCommand.isReady = ∑ _i : Fin N, 1 := by
    rw [← h.readies_eq_sum hup, hN]
    simp
  exact (countP_of_isPrefix (h.data i)).2
    ((Finset.sum_eq_sum_iff_of_le hle).mp hsum i (Finset.mem_univ i))

omit [DecidableEq ι] in
lemma readies_concat : readies (l ++ [e]) = readies l + if e.2.isReady then 1 else 0 := by
  simp [readies, List.countP_append, List.countP_cons]

omit [DecidableEq ι] in
lemma mergedAll_concat : mergedAll (l ++ [e]) = mergedAll l ++ e.2.merged := by
  simp [mergedAll]

/-- All senders have sent all their rows and their signal, and the flush is asked for. -/
def Full (up : Fin N → ι) (φ : ι) (ack : A) (bodies : Fin N → List (List (K × V)))
    (l : List (ι × WriterCommand K V A S)) : Prop :=
  (∀ i, sentBy (up i) l = upstream N (bodies i)) ∧ sentBy φ l = [.flushWhenReady ack]

/-- The request to flush has come. -/
def asked (φ : ι) (l : List (ι × WriterCommand K V A S)) : Bool := !(sentBy φ l).isEmpty

lemma asked_concat_of_ne {k : ι} (hk : k ≠ φ) (m : WriterCommand K V A S) :
    asked φ (l ++ [(k, m)]) = asked φ l := by
  simp [asked, sentBy_cons_of_ne hk]

lemma Fed.flush_of_asked (h : Fed up φ ack bodies l) (ha : asked φ l = true) :
    sentBy φ l = [.flushWhenReady ack] := by
  rcases List.prefix_concat_iff.mp (show sentBy φ l <+: [] ++
    [.flushWhenReady ack] from h.flush) with hl | hl
  · exact hl
  · rw [List.prefix_nil] at hl
    simp [asked, hl] at ha

lemma Fed.full_iff (hup : Function.Injective up) (h : Fed up φ ack bodies l) :
    Full up φ ack bodies l ↔ readies l = N ∧ asked φ l = true := by
  constructor
  · rintro ⟨hdata, hflush⟩
    refine ⟨?_, by simp [asked, hflush]⟩
    rw [h.readies_eq_sum hup, Finset.sum_congr rfl fun i _ => by rw [hdata i, countP_upstream]]
    simp
  · rintro ⟨hN, ha⟩
    exact ⟨h.complete_of_readies hup hN, h.flush_of_asked ha⟩

/-- After everything has come, nothing comes. -/
lemma Fed.not_full (h : Fed up φ ack bodies (l ++ [e])) :
    ¬ Full up φ ack bodies l := by
  rintro ⟨hdata, hflush⟩
  obtain ⟨k, m⟩ := e
  rcases h.senders (k, m) (List.mem_append_right _ List.mem_cons_self) with hk | ⟨i, hk⟩
  · have hlen := h.flush.length_le
    rw [show k = φ from hk, sentBy_append, hflush, sentBy_cons_self] at hlen
    simp at hlen
  · have hlen := (h.data i).length_le
    rw [show k = up i from hk, sentBy_append, hdata i, sentBy_cons_self] at hlen
    simp at hlen

/-- The three kinds of messages: data, a signal, and the request to flush. -/
lemma Fed.last_cases (h : Fed up φ ack bodies (l ++ [e])) :
    (∃ i kvs, e = (up i, .mergeUnsortedInserts kvs)) ∨ (∃ i, e = (up i, .readyForFlush N)) ∨
      e = (φ, .flushWhenReady ack) ∧ asked φ l = false := by
  obtain ⟨k, m⟩ := e
  have hmem : ∀ j, k = j → m ∈ sentBy j (l ++ [(k, m)]) := fun j hj => mem_sentBy.mpr (by simp [hj])
  rcases h.senders (k, m) (List.mem_append_right _ List.mem_cons_self) with hk | ⟨i, hk⟩
  · obtain rfl : k = φ := hk
    have hm : m = .flushWhenReady ack := by simpa using h.flush.subset (hmem k rfl)
    refine Or.inr (Or.inr ⟨by rw [hm], ?_⟩)
    have hlen := h.flush.length_le
    rw [sentBy_append, sentBy_cons_self] at hlen
    simp only [List.length_append, List.length_cons, List.length_nil] at hlen
    rw [asked, List.length_eq_zero_iff.mp (by omega : (sentBy k l).length = 0)]
    rfl
  · obtain rfl : k = up i := hk
    have hm := (h.data i).subset (hmem _ rfl)
    rcases List.mem_append.mp hm with hm | hm
    · obtain ⟨kvs, -, rfl⟩ := List.mem_map.mp hm
      exact Or.inl ⟨i, kvs, rfl⟩
    · rw [List.mem_singleton.mp hm]
      exact Or.inr (Or.inl ⟨i, rfl⟩)

end Counting

/-! ### The shard -/

section Machine

variable [LinearOrder K] {W : WriteTable D T K V} {env : Env K A S} {up : Fin N → ι} {φ : ι} {ack : A}
  {bodies : Fin N → List (List (K × V))} {l : List (ι × WriterCommand K V A S)}
  {e : ι × WriterCommand K V A S}

/-- The commands of the messages, none of whose table accesses fails. -/
def inputs (l : List (ι × WriterCommand K V A S)) : List (Input T K V A S) := l.map fun e =>
    (e.2, none)

/-- What the shard keeps of `r` signals and the request to flush. -/
def waitingFor (N : ℕ) (ack : A) (r : ℕ) (asked : Bool) : Option (FlushState A) :=
  if r = 0 ∧ asked = false then none
  else some ⟨if asked then some ack else none, r, if r = 0 then none else some N⟩

/-- The shard waits: it has kept the data, and counts the signals. -/
structure Waits (φ : ι) (N : ℕ) (ack : A) (t : T) (l : List (ι × WriterCommand K V A S))
    (st : TxState T K V A) : Prop where
  table : st.table = t
  fine : st.writeError = none
  buffer : st.asyncMergeBuf.contents ~ mergedAll l
  deferred : st.deferred = waitingFor N ack (readies l) (asked φ l)

/-- A flush with nothing wrong. -/
lemma flush_fine {st : TxState T K V A} (h : st.writeError = none) (sender : A) :
    (st.flush W none sender : Stepped T K V A S).events = [] ∧
      (st.flush W none sender : Stepped T K V A S).outcome = .ok (.commit sender (.ok ())) ∧
      (st.flush W none sender : Stepped T K V A S).state.table =
        W.insertManySortedByKey st.table st.asyncMergeBuf.takeSorted.1 := by
  unfold TxState.flush
  rw [h]
  dsimp only
  split
  · next hnil => exact ⟨rfl, rfl, by rw [hnil, W.insertMany_nil]⟩
  · exact ⟨rfl, rfl, rfl⟩

lemma step_readyForFlush {st : TxState T K V A} {r : ℕ} {isAsked : Bool}
    (h : st.deferred = waitingFor N ack r isAsked) :
    st.step W env none (.readyForFlush N) =
      { st with deferred := waitingFor N ack (r + 1) isAsked }.flushIfReady W none := by
  simp only [TxState.step, h, waitingFor]
  by_cases h0 : r = 0 ∧ isAsked = false
  · simp [h0]
  · simp [h0]

lemma step_flushWhenReady {st : TxState T K V A} {r : ℕ} (h : st.deferred = waitingFor N ack r false) :
    st.step W env none (.flushWhenReady ack) =
      { st with deferred := waitingFor N ack r true }.flushIfReady W none := by
  simp only [TxState.step, h, waitingFor]
  by_cases h0 : r = 0
  · simp [h0]
  · simp [h0]

variable (W env) in
/-- The waiting flush, made or not. -/
lemma settle_flushIfReady (hc : env.commit ack = .ok ()) (hN : N ≠ 0) (db : D)
    (st : TxState T K V A) (r : ℕ) (isAsked : Bool) (h : st.writeError = none)
    (hd : st.deferred = waitingFor N ack r isAsked) :
    (r = N ∧ isAsked = true) ∧ settle W env db (st.flushIfReady W none : Stepped T K V A S) =
        (⟨W.tables (W.insertManySortedByKey st.table st.asyncMergeBuf.takeSorted.1), .outside⟩,
          [.committed, .flushed ack (.ok ())]) ∨
      ¬ (r = N ∧ isAsked = true) ∧
        settle W env db (st.flushIfReady W none : Stepped T K V A S) = (⟨db, .inTx st⟩, []) := by
  by_cases hfull : r = N ∧ isAsked = true
  · refine Or.inl ⟨hfull, ?_⟩
    obtain ⟨rfl, rfl⟩ := hfull
    have hready : (st.flushIfReady W none : Stepped T K V A S) = st.flush W none ack := by
      simp [TxState.flushIfReady, hd, waitingFor, hN]
    obtain ⟨hev, hout, htable⟩ := flush_fine (W := W) (S := S) h ack
    rw [hready]
    simp only [settle, hout, hc, hev, htable, List.nil_append]
  · refine Or.inr ⟨hfull, ?_⟩
    have hwait : (st.flushIfReady W none : Stepped T K V A S) = ⟨st, [], .ok .continue⟩ := by
      unfold TxState.flushIfReady
      rw [hd, waitingFor]
      cases isAsked with
      | false => split <;> simp_all
      | true =>
        by_cases h0 : r = 0
        · simp [h0]
        · have hne : r ≠ N := fun he => hfull ⟨he, rfl⟩
          simp [h0, hne]
    rw [hwait]
    rfl

variable (W env up bodies) in
/-- What one more message does to a waiting shard: it goes on waiting, or commits because everything
has come. -/
def CommitsOrWaits (φ : ι) (ack : A) (db : D) (t : T) (l : List (ι × WriterCommand K V A S))
    (r : Writer D T K V A × List (Event K V A S)) : Prop :=
  (Full up φ ack bodies l ∧ ∃ kvs, kvs ~ mergedAll l ∧
      r = (⟨W.tables (W.insertManySortedByKey t kvs), .outside⟩,
        [.committed, .flushed ack (.ok ())])) ∨
    ¬ Full up φ ack bodies l ∧ ∃ st, r = (⟨db, .inTx st⟩, []) ∧ Waits φ N ack t l st

/-- A message that brings no data but is counted. -/
lemma Waits.count (hup : Function.Injective up) (hN : N ≠ 0) (hc : env.commit ack = .ok ())
    (db : D) {t : T} {st : TxState T K V A} (h : Waits φ N ack t l st)
    (hl : Fed up φ ack bodies (l ++ [e])) (hm : e.2.merged = []) {r : ℕ} {isAsked : Bool}
    (hr : readies (l ++ [e]) = r) (ha : asked φ (l ++ [e]) = isAsked)
    (hstep : st.step W env none e.2 =
      { st with deferred := waitingFor N ack r isAsked }.flushIfReady W none) :
    CommitsOrWaits W up bodies φ ack db t (l ++ [e]) (feed W env ⟨db, .inTx st⟩ (e.2, none)) := by
  have hfeed : feed W env ⟨db, .inTx st⟩ (e.2, none) = settle W env db _ :=
    congrArg (settle W env db) hstep
  have hbuf : st.asyncMergeBuf.contents ~ mergedAll (l ++ [e]) := by
    rw [mergedAll_concat, hm, List.append_nil]
    exact h.buffer
  rw [CommitsOrWaits, hl.full_iff hup, hr, ha, hfeed]
  rcases settle_flushIfReady W env hc hN db { st with deferred := waitingFor N ack r isAsked } r
      isAsked h.fine rfl with
    ⟨hfull, hset⟩ | ⟨hfull, hset⟩
  · refine Or.inl ⟨hfull, st.asyncMergeBuf.takeSorted.1, ?_, ?_⟩
    · exact (MergeBuffer.takeSorted_perm st.asyncMergeBuf).trans hbuf
    · rw [hset, h.table]
  · exact Or.inr ⟨hfull, _, hset, h.table, h.fine, hbuf, by rw [hr, ha]⟩

/-- One message more: the writer still waits, or it commits all rows that it was sent. -/
lemma Waits.feed (hup : Function.Injective up) (hφ : ∀ i, up i ≠ φ) (hN : N ≠ 0)
    (hc : env.commit ack = .ok ()) (db : D) {t : T} {st : TxState T K V A}
    (h : Waits φ N ack t l st) (hl : Fed up φ ack bodies (l ++ [e])) :
    CommitsOrWaits W up bodies φ ack db t (l ++ [e]) (feed W env ⟨db, .inTx st⟩ (e.2, none)) := by
  rcases hl.last_cases with ⟨i, kvs, rfl⟩ | ⟨i, rfl⟩ | ⟨rfl, hasked⟩
  · -- data is kept
    have hnot : ¬ Full up φ ack bodies (l ++ [(up i, .mergeUnsortedInserts kvs)]) := by
      have hnot := hl.not_full
      rw [hl.of_concat.full_iff hup] at hnot
      rw [hl.full_iff hup, readies_concat, asked_concat_of_ne (hφ i)]
      exact hnot
    refine Or.inr ⟨hnot, { st with asyncMergeBuf := st.asyncMergeBuf.mergeUnsorted kvs }, rfl,
      h.table, h.fine, ?_, ?_⟩
    · rw [mergedAll_concat]
      exact (MergeBuffer.mergeUnsorted_perm _ _).trans (h.buffer.append_right _)
    · rw [readies_concat, asked_concat_of_ne (hφ i)]
      exact h.deferred
  · -- a signal is counted
    exact h.count hup hN hc db hl rfl readies_concat (asked_concat_of_ne (hφ i) _)
      (step_readyForFlush h.deferred)
  · -- the request to flush is kept
    have hkeep : st.deferred = waitingFor N ack (readies l) false := by rw [h.deferred, hasked]
    exact h.count hup hN hc db hl rfl readies_concat (by simp [asked]) (step_flushWhenReady hkeep)

variable (W env) in
/-- **The barrier.** A shard at the start of its transaction commits with the last of all the
messages it waits for and no sooner, and then exactly once and with all their data. -/
theorem barrier_feed (hup : Function.Injective up) (hφ : ∀ i, up i ≠ φ) (hN : N ≠ 0)
    (hc : env.commit ack = .ok ()) (db : D) (t : T) (hl : Fed up φ ack bodies l) :
    CommitsOrWaits W up bodies φ ack db t l
      (feedAll W env ⟨db, .inTx (TxState.new t)⟩ (inputs l)) := by
  induction l using List.reverseRecOn with
  | nil =>
    refine Or.inr ⟨fun hfull => ?_, TxState.new t, rfl, rfl, rfl, ?_, rfl⟩
    · cases hfull.2
    · simp [TxState.new, mergedAll]
  | append_singleton l e ih =>
    have hsplit : inputs (l ++ [e]) = (inputs l ++ [(e.2, none)] : List (Input T K V A S)) := by
      simp [inputs]
    rcases ih hl.of_concat with ⟨hfull, -⟩ | ⟨-, st, hst, hwaits⟩
    · exact absurd hfull hl.not_full
    · rw [hsplit, feedAll_append, hst]
      simpa [feedAll] using hwaits.feed hup hφ hN hc db hl

end Machine

/-- All data that has come when everything has come. -/
lemma Full.mergedAll_perm {up : Fin N → ι} {φ : ι} {ack : A} {bodies : Fin N → List (List (K × V))}
    {l : List (ι × WriterCommand K V A S)} (hup : Function.Injective up) (hφ : ∀ i, up i ≠ φ)
    (hl : Fed up φ ack bodies l) (h : Full up φ ack bodies l) :
    mergedAll l ~ (List.finRange N).flatMap fun i => (bodies i).flatten := by
  have hks : (φ :: (List.finRange N).map up).Nodup := by
    refine List.nodup_cons.mpr ⟨?_, (List.nodup_finRange N).map hup⟩
    simpa using hφ
  have hmem : ∀ e ∈ l, e.1 ∈ φ :: (List.finRange N).map up := by
    intro e he
    rcases hl.senders e he with he | ⟨i, he⟩
    · exact he ▸ List.mem_cons_self
    · exact List.mem_cons_of_mem _ (List.mem_map.mpr ⟨i, List.mem_finRange i, he.symm⟩)
  have hbody : ∀ i, (sentBy (up i) l).flatMap WriterCommand.merged = (bodies i).flatten := by
    intro i
    rw [h.1 i, upstream, List.flatMap_append, List.flatMap_map]
    simp [WriterCommand.merged, List.flatMap_id']
  refine (perm_flatMap_sentBy WriterCommand.merged hks hmem).trans ?_
  rw [List.flatMap_cons, h.2, List.flatMap_map]
  simp only [hbody]
  exact List.Perm.refl _

end Redbit.Storage
