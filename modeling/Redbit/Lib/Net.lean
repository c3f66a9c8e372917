import Redbit.Lib.Run
import Mathlib.Data.List.Nodup
import Mathlib.Data.List.FinRange

/-!
# Networks of message-passing parties

A party is a state machine that takes one message at a time from its inbox and answers with messages to
other parties.  The answers wait in its outbox and are sent one by one, each to the end of the inbox
of its receiver, before the party takes its next message.  Which party moves next is decided from
outside, so a schedule is a list of actions and every interleaving is one (`Redbit.Lib.sched`).

The states keep a history variable, the messages each party has taken so far.  The one law of the
network is that channels are queues (`Net.Inv`): what a party has taken or could take from another
one is what that party has sent to it, in the order in which it was sent.
-/

namespace Redbit.Lib

variable {ι : Type} [DecidableEq ι] {σ μ : ι → Type}

/-- The state of a network of parties `ι`, where the party `i` has states `σ i` and takes messages
`μ i`. A message in an inbox comes with its sender. -/
structure Net (ι : Type) (σ μ : ι → Type) where
  state : ∀ i, σ i
  inbox : ∀ i, List (ι × μ i)
  outbox : ι → List (Σ j, μ j)
  /-- The messages the party has taken. -/
  log : ∀ i, List (ι × μ i)

namespace Net

/-- The network in which nobody has moved yet. -/
def start (s₀ : ∀ i, σ i) (o₀ : ι → List (Σ j, μ j)) : Net ι σ μ := ⟨s₀, fun _ => [], o₀, fun _ => []⟩

/-- A party takes a message, or sends one. -/
inductive Act (ι : Type) where
  | take (i : ι)
  | send (i : ι)

section Step

variable (handle : ∀ i, σ i → μ i → σ i × List (Σ j, μ j))

/-- One action, if its party can take it. -/
def step (net : Net ι σ μ) : Act ι → Option (Net ι σ μ)
  | .take i =>
    match net.outbox i, net.inbox i with
    | [], e :: rest =>
      some
        { state := Function.update net.state i (handle i (net.state i) e.2).1
          inbox := Function.update net.inbox i rest
          outbox := Function.update net.outbox i (handle i (net.state i) e.2).2
          log := Function.update net.log i (net.log i ++ [e]) }
    | _, _ => none
  | .send i =>
    match net.outbox i with
    | ⟨j, m⟩ :: rest =>
      some
        { net with
          inbox := Function.update net.inbox j (net.inbox j ++ [(i, m)])
          outbox := Function.update net.outbox i rest }
    | [] => none

/-- The state of the party `i` after the messages `l`. -/
def after (i : ι) (s : σ i) (l : List (ι × μ i)) : σ i := l.foldl (fun s e => (handle i s e.2).1) s

/-- What the party `i` answers to the messages `l`. -/
def outs (i : ι) (s : σ i) : List (ι × μ i) → List (Σ j, μ j)
  | [] => []
  | e :: l => (handle i s e.2).2 ++ outs i (handle i s e.2).1 l

variable {handle}

omit [DecidableEq ι] in
lemma after_concat (i : ι) (s : σ i) (l : List (ι × μ i)) (e : ι × μ i) :
    after handle i s (l ++ [e]) = (handle i (after handle i s l) e.2).1 := by
  simp [after]

omit [DecidableEq ι] in
lemma outs_append (i : ι) (s : σ i) (l l' : List (ι × μ i)) :
    outs handle i s (l ++ l') = outs handle i s l ++ outs handle i (after handle i s l) l' := by
  induction l generalizing s with
  | nil => rfl
  | cons e l ih => simp only [List.cons_append, outs, ih, List.append_assoc, after, List.foldl_cons]

omit [DecidableEq ι] in
lemma outs_concat (i : ι) (s : σ i) (l : List (ι × μ i)) (e : ι × μ i) :
    outs handle i s (l ++ [e]) = outs handle i s l ++ (handle i (after handle i s l) e.2).2 := by
  rw [outs_append]
  simp [outs]

end Step

/-! ### What goes from one party to another -/

/-- The messages of `l` that come from `k`. -/
def sentBy {M : Type} (k : ι) (l : List (ι × M)) : List M :=
  l.filterMap fun e => if e.1 = k then some e.2 else none

/-- The messages of `l` that go to `j`. -/
def sentTo (j : ι) (l : List (Σ j, μ j)) : List (μ j) :=
  l.filterMap fun e => if h : e.1 = j then some (h ▸ e.2) else none

section Channels

variable {M : Type} {i j k : ι}

@[simp] lemma sentBy_nil : sentBy k ([] : List (ι × M)) = [] := rfl

@[simp] lemma sentTo_nil : sentTo j ([] : List (Σ j, μ j)) = [] := rfl

@[simp] lemma sentBy_append (l l' : List (ι × M)) : sentBy k (l ++ l') = sentBy k l ++ sentBy k l' :=
  List.filterMap_append

@[simp] lemma sentTo_append (l l' : List (Σ j, μ j)) :
    sentTo j (l ++ l') = sentTo j l ++ sentTo j l' :=
  List.filterMap_append

@[simp] lemma sentBy_cons_self (m : M) (l : List (ι × M)) :
    sentBy k ((k, m) :: l) = m :: sentBy k l := by
  simp [sentBy]

lemma sentBy_cons_of_ne (h : i ≠ k) (m : M) (l : List (ι × M)) :
    sentBy k ((i, m) :: l) = sentBy k l := by
  simp [sentBy, h]

@[simp] lemma sentTo_cons_self (m : μ j) (l : List (Σ j, μ j)) :
    sentTo j (⟨j, m⟩ :: l) = m :: sentTo j l := by
  simp [sentTo]

lemma sentTo_cons_of_ne (h : i ≠ j) (m : μ i) (l : List (Σ j, μ j)) :
    sentTo j (⟨i, m⟩ :: l) = sentTo j l := by
  simp [sentTo, h]

lemma sentTo_flatMap {α : Type} (l : List α) (g : α → List (Σ j, μ j)) :
    sentTo j (l.flatMap g) = l.flatMap fun a => sentTo j (g a) := by
  induction l with
  | nil => rfl
  | cons a l ih => simp [ih]

lemma sentTo_eq_nil {l : List (Σ j, μ j)} (h : ∀ e ∈ l, e.1 ≠ j) : sentTo j l = [] := by
  rw [sentTo, List.filterMap_eq_nil_iff]
  intro e he
  rw [dif_neg (h e he)]

lemma mem_sentBy {m : M} {l : List (ι × M)} : m ∈ sentBy k l ↔ (k, m) ∈ l := by
  simp only [sentBy, List.mem_filterMap]
  constructor
  · rintro ⟨⟨i, m'⟩, hmem, h⟩
    split at h
    · next hik =>
      cases h
      exact hik ▸ hmem
    · cases h
  · intro h
    exact ⟨(k, m), h, by simp⟩

/-- The messages of a list that has only one sender. -/
lemma map_snd_eq_sentBy {l : List (ι × M)} (h : ∀ i ≠ k, sentBy i l = []) :
    l.map Prod.snd = sentBy k l := by
  induction l with
  | nil => rfl
  | cons e l ih =>
    obtain ⟨i, m⟩ := e
    have hi : i = k := by
      by_contra hne
      have := h i hne
      rw [sentBy_cons_self] at this
      cases this
    subst hi
    rw [List.map_cons, sentBy_cons_self, ih]
    intro i' hne
    rw [← sentBy_cons_of_ne hne.symm m l]
    exact h i' hne

/-- A list is a shuffle of what its senders have sent. -/
lemma perm_flatMap_sentBy {β : Type} (f : M → List β) {ks : List ι} (hks : ks.Nodup) {l : List (ι × M)}
    (h : ∀ e ∈ l, e.1 ∈ ks) :
    (l.flatMap fun e => f e.2).Perm (ks.flatMap fun k => (sentBy k l).flatMap f) := by
  induction l with
  | nil => simp
  | cons e l ih =>
    obtain ⟨k, m⟩ := e
    have hk : k ∈ ks := h _ List.mem_cons_self
    have hl := ih fun e he => h e (List.mem_cons_of_mem _ he)
    obtain ⟨before, behind, rfl⟩ := List.append_of_mem hk
    have hne : ∀ k' ∈ before ++ behind, k ≠ k' := by
      rintro k' hk' rfl
      exact (List.nodup_cons.mp (List.nodup_middle.mp hks)).1 hk'
    have hbefore : (before.flatMap fun k' => (sentBy k' ((k, m) :: l)).flatMap f) =
        before.flatMap fun k' => (sentBy k' l).flatMap f :=
      List.flatMap_congr fun k' hk' => by
        rw [sentBy_cons_of_ne (hne k' (List.mem_append_left _ hk'))]
    have hbehind : (behind.flatMap fun k' => (sentBy k' ((k, m) :: l)).flatMap f) =
        behind.flatMap fun k' => (sentBy k' l).flatMap f :=
      List.flatMap_congr fun k' hk' => by
        rw [sentBy_cons_of_ne (hne k' (List.mem_append_right _ hk'))]
    rw [List.flatMap_append, List.flatMap_cons] at hl
    rw [List.flatMap_append, List.flatMap_cons, List.flatMap_cons, hbefore, hbehind, sentBy_cons_self,
      List.flatMap_cons, List.append_assoc]
    refine (hl.append_left _).trans ?_
    simp only [← List.append_assoc]
    exact (List.perm_append_comm.append_right _).append_right _

/-- A list is a shuffle of its parts. -/
lemma perm_filter_part {α : Type} {n : ℕ} (part : α → Fin n) (l : List α) :
    ((List.finRange n).flatMap fun i => l.filter fun a => part a = i).Perm l := by
  have hsent : ∀ i, sentBy i (l.map fun a => (part a, a)) = l.filter fun a => part a = i := by
    intro i
    induction l with
    | nil => rfl
    | cons a l ih =>
      by_cases h : part a = i
      · subst h
        simp [ih]
      · rw [List.map_cons, sentBy_cons_of_ne h, ih, List.filter_cons_of_neg (by simpa using h)]
  have hperm := perm_flatMap_sentBy (fun a => [a]) (List.nodup_finRange n)
    (l := l.map fun a => (part a, a)) fun e _ => List.mem_finRange e.1
  simp only [hsent, List.flatMap_map, List.flatMap_singleton'] at hperm
  exact hperm.symm

end Channels

/-! ### Channels are queues -/

variable {handle : ∀ i, σ i → μ i → σ i × List (Σ j, μ j)} {s₀ : ∀ i, σ i} {o₀ : ι → List (Σ j, μ j)}
  {net net' : Net ι σ μ}

variable (handle s₀ o₀) in
/-- Everything the party `i` has put out so far. -/
def emitted (net : Net ι σ μ) (i : ι) : List (Σ j, μ j) := o₀ i ++ outs handle i (s₀ i) (net.log i)

variable (handle s₀ o₀) in
/-- **The law of the network**: the states follow from the messages taken, and of the messages put
out by a party some have been sent, which their receivers have taken or can take in their order, and
the rest waits in the outbox. -/
structure Inv (net : Net ι σ μ) : Prop where
  state : ∀ i, net.state i = after handle i (s₀ i) (net.log i)
  queue : ∀ i, ∃ sent, net.emitted handle s₀ o₀ i = sent ++ net.outbox i ∧
    ∀ j, sentBy i (net.log j ++ net.inbox j) = sentTo j sent

lemma inv_start : Inv handle s₀ o₀ (start s₀ o₀) where
  state _ := rfl
  queue i := ⟨[], by simp [emitted, start, outs], fun j => by simp [start]⟩

lemma Inv.take {i : ι} (h : Inv handle s₀ o₀ net) (hs : net.step handle (.take i) = some net') :
    Inv handle s₀ o₀ net' := by
  unfold step at hs
  cases hout : net.outbox i with
  | cons o rest => simp [hout] at hs
  | nil =>
    cases hin : net.inbox i with
    | nil => simp [hout, hin] at hs
    | cons e rest =>
      simp only [hout, hin, Option.some.injEq] at hs
      subst hs
      constructor
      · intro i'
        by_cases hi : i' = i
        · subst hi
          simp [after_concat, h.state i']
        · simp [hi, h.state i']
      · -- nobody's messages get lost: the message moves from the inbox to the log
        have hsame : ∀ j, Function.update net.log i (net.log i ++ [e]) j ++
          Function.update net.inbox i rest j =
            net.log j ++ net.inbox j := by
          intro j
          by_cases hj : j = i
          · subst hj
            simp [hin]
          · simp [hj]
        intro i'
        obtain ⟨sent, hsent, hqueue⟩ := h.queue i'
        by_cases hi : i' = i
        · subst hi
          refine ⟨sent, ?_, fun j => by rw [hsame, hqueue]⟩
          simp only [emitted, Function.update_self, outs_concat, ← h.state i']
          rw [← List.append_assoc, show o₀ i' ++ outs handle i' (s₀ i') (net.log i') =
            sent by simpa [emitted, hout] using hsent]
        · refine ⟨sent, ?_, fun j => by rw [hsame, hqueue]⟩
          simpa [emitted, hi] using hsent

lemma Inv.send {i : ι} (h : Inv handle s₀ o₀ net) (hs : net.step handle (.send i) = some net') :
    Inv handle s₀ o₀ net' := by
  unfold step at hs
  cases hout : net.outbox i with
  | nil => simp [hout] at hs
  | cons o rest =>
    obtain ⟨j, m⟩ := o
    simp only [hout, Option.some.injEq] at hs
    subst hs
    refine ⟨h.state, fun i' => ?_⟩
    obtain ⟨sent, hsent, hqueue⟩ := h.queue i'
    by_cases hi : i' = i
    · subst hi
      refine ⟨sent ++ [⟨j, m⟩], ?_, fun j' => ?_⟩
      · simpa [emitted, hout] using hsent
      · by_cases hj : j' = j
        · subst hj
          simp [← hqueue]
        · simp [hj, sentTo_cons_of_ne (Ne.symm hj), ← hqueue]
    · refine ⟨sent, by simpa [emitted, hi] using hsent, fun j' => ?_⟩
      by_cases hj : j' = j
      · subst hj
        simp [← hqueue, sentBy_cons_of_ne (Ne.symm hi)]
      · simp [hj, ← hqueue]

lemma Inv.step {a : Act ι} (h : Inv handle s₀ o₀ net) (hs : net.step handle a = some net') :
    Inv handle s₀ o₀ net' := by
  cases a with
  | take i => exact h.take hs
  | send i => exact h.send hs

/-- The law holds in every state that is reached. -/
theorem inv_sched {acts : List (Act ι)} (hs : sched (Net.step handle) (start s₀ o₀) acts = some net) :
    Inv handle s₀ o₀ net :=
  sched_inv (fun _ _ _ hinv hstep => hinv.step hstep) inv_start hs

/-- What has been taken is a beginning of what was put out. -/
lemma Inv.taken (h : Inv handle s₀ o₀ net) (i j : ι) :
    sentBy i (net.log j) <+: sentTo j (net.emitted handle s₀ o₀ i) := by
  obtain ⟨sent, hsent, hqueue⟩ := h.queue i
  refine ⟨sentBy i (net.inbox j) ++ sentTo j (net.outbox i), ?_⟩
  rw [hsent, sentTo_append, ← hqueue, sentBy_append, List.append_assoc]

/-- Where nothing is on its way from one party to another, everything that was put out has been
taken. -/
lemma Inv.taken_of_empty (h : Inv handle s₀ o₀ net) {i j : ι} (hout : net.outbox i = [])
    (hin : net.inbox j = []) : sentBy i (net.log j) = sentTo j (net.emitted handle s₀ o₀ i) := by
  obtain ⟨sent, hsent, hqueue⟩ := h.queue i
  rw [hsent, hout, List.append_nil, ← hqueue, hin, List.append_nil]

/-- A party to which only one other has something to say. -/
lemma Inv.map_snd_log (h : Inv handle s₀ o₀ net) {i j : ι}
    (honly : ∀ k ≠ i, sentTo j (net.emitted handle s₀ o₀ k) = []) :
    (net.log j).map Prod.snd = sentBy i (net.log j) := by
  refine map_snd_eq_sentBy fun k hk => ?_
  have hpre := h.taken k j
  rw [honly k hk] at hpre
  exact List.prefix_nil.mp hpre

/-- If everything that was put out has been taken, nothing is on its way. -/
lemma Inv.clear (h : Inv handle s₀ o₀ net)
    (hall : ∀ i j, (sentTo j (net.emitted handle s₀ o₀ i)).length ≤ (sentBy i (net.log j)).length) :
    (∀ j, net.inbox j = []) ∧ ∀ i, net.outbox i = [] := by
  have hboth : ∀ i j, sentBy i (net.inbox j) = [] ∧ sentTo j (net.outbox i) = [] := by
    intro i j
    obtain ⟨sent, hsent, hqueue⟩ := h.queue i
    have hlen := hall i j
    rw [hsent, sentTo_append, ← hqueue, sentBy_append, List.length_append, List.length_append] at hlen
    exact ⟨List.length_eq_zero_iff.mp (by omega), List.length_eq_zero_iff.mp (by omega)⟩
  refine ⟨fun j => ?_, fun i => ?_⟩
  · refine List.eq_nil_iff_forall_not_mem.mpr fun e he => ?_
    have hmem : e.2 ∈ sentBy e.1 (net.inbox j) := mem_sentBy.mpr he
    rw [(hboth e.1 j).1] at hmem
    cases hmem
  · cases hout : net.outbox i with
    | nil => rfl
    | cons e rest =>
      obtain ⟨j, m⟩ := e
      have hnone := (hboth i j).2
      rw [hout, sentTo_cons_self] at hnone
      cases hnone

end Net

end Redbit.Lib
