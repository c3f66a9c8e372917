import Mathlib.Algebra.Order.Ring.Nat
import Mathlib.Data.List.Basic
import Mathlib.Tactic.Ring

/-!
# Tasks that send over bounded channels

A task runs a loop.  What a turn of the loop puts out it sends message by message, each as soon as
the channel has room, before it takes its next turn; behind the loop it may send what it has left,
and then it ends.  The receiver takes the messages in their order.

`Outlet.weigh` is the measure of such a task: a message weighs more before it is in the channel,
what it carries weighs as long as it is on its way, and the task itself weighs until it has ended.
-/

namespace Redbit.Lib

variable {α : Type}

/-- A task is in its loop, or behind it, or has ended. -/
inductive TaskState where
  | running
  | ending
  | ended
  deriving DecidableEq

/-- What a task sends: the messages that it has not sent yet, and those in its channel. -/
structure Outlet (α : Type) where
  state : TaskState
  out : List (List α)
  queue : List (List α)

namespace Outlet

/-- The task starts with an empty channel. -/
def start : Outlet α := ⟨.running, [], []⟩

/-- The task can take a turn of its loop. -/
def Idle (o : Outlet α) : Prop := o.state = .running ∧ o.out = []

instance (o : Outlet α) : Decidable o.Idle := inferInstanceAs (Decidable (_ ∧ _))

lemma Idle.ne_ended {o : Outlet α} (h : o.Idle) : o.state ≠ .ended := by
  rw [h.1]
  exact TaskState.noConfusion

lemma ne_ended_of_ending {o : Outlet α} (h : o.state = .ending) : o.state ≠ .ended := by
  rw [h]
  exact TaskState.noConfusion

/-- A turn of the loop puts messages out. -/
def put (o : Outlet α) (messages : List (List α)) : Outlet α := { o with out := o.out ++ messages }

/-- The first message goes into the channel, if it has room. -/
def send (o : Outlet α) (bound : ℕ) : Option (Outlet α) :=
  match o.out with
  | [] => none
  | m :: rest => if o.queue.length < bound then some { o with out := rest, queue := o.queue ++ [m] }
      else none

/-- The receiver takes a message. -/
def take (o : Outlet α) : Option (List α × Outlet α) :=
  match o.queue with
  | [] => none
  | m :: rest => some (m, { o with queue := rest })

/-- The first message cannot be sent, and is dropped. -/
def skip (o : Outlet α) : Outlet α := { o with out := o.out.tail }

/-- The loop is left, with messages to send. -/
def leave (o : Outlet α) (messages : List (List α)) : Outlet α :=
  { o with state := .ending, out := o.out ++ messages }

/-- The task ends, and what it has not sent goes with it. -/
def close (o : Outlet α) : Outlet α := { o with state := .ended, out := [] }

/-- The messages that are on their way. -/
def content (o : Outlet α) : List (List α) := o.queue ++ o.out

/-! ### What is on its way -/

section Content

variable {o o' : Outlet α} {bound : ℕ} {m : List α}

lemma content_start : (start : Outlet α).content = [] := rfl

lemma content_put (messages : List (List α)) : (o.put messages).content = o.content ++ messages :=
  (List.append_assoc ..).symm

lemma content_leave (messages : List (List α)) : (o.leave messages).content = o.content ++ messages :=
  (List.append_assoc ..).symm

lemma content_close : o.close.content = o.queue := List.append_nil _

lemma content_close_isPrefix : o.close.content <+: o.content := by
  rw [content_close]
  exact List.prefix_append _ _

lemma send_eq_some : o.send bound = some o' ↔ ∃ m rest, o.out = m :: rest ∧ o.queue.length < bound ∧
    o' = { o with out := rest, queue := o.queue ++ [m] } := by
  unfold send
  cases hout : o.out with
  | nil => simp
  | cons m rest =>
    simp only [Option.ite_none_right_eq_some, Option.some.injEq]
    constructor
    · rintro ⟨hlt, rfl⟩
      exact ⟨m, rest, rfl, hlt, rfl⟩
    · rintro ⟨m', rest', heq, hlt, rfl⟩
      obtain ⟨rfl, rfl⟩ := List.cons.inj heq
      exact ⟨hlt, rfl⟩

lemma take_eq_some : o.take = some (m, o') ↔ ∃ rest, o.queue = m :: rest ∧
    o' = { o with queue := rest } := by
  unfold take
  cases o.queue with
  | nil => simp
  | cons m' rest =>
    simp only [Option.some.injEq, Prod.mk.injEq, List.cons.injEq]
    constructor
    · rintro ⟨rfl, rfl⟩
      exact ⟨rest, ⟨rfl, rfl⟩, rfl⟩
    · rintro ⟨rest', ⟨rfl, rfl⟩, rfl⟩
      exact ⟨rfl, rfl⟩

/-- There is room for a message. -/
lemma exists_send (h : o.out ≠ []) (hroom : o.queue.length < bound) :
    ∃ o', o.send bound = some o' := by
  obtain ⟨m, rest, hout⟩ := List.exists_cons_of_ne_nil h
  exact ⟨_, send_eq_some.mpr ⟨m, rest, hout, hroom, rfl⟩⟩

lemma ne_nil_of_send (h : o.send bound = some o') : o.out ≠ [] := by
  obtain ⟨m, rest, hout, -⟩ := send_eq_some.mp h
  rw [hout]
  exact List.cons_ne_nil _ _

lemma content_send (h : o.send bound = some o') : o'.content = o.content ∧ o'.state = o.state := by
  obtain ⟨m, rest, hout, -, rfl⟩ := send_eq_some.mp h
  refine ⟨?_, rfl⟩
  unfold content
  rw [hout, List.append_assoc]
  rfl

lemma content_take (h : o.take = some (m, o')) :
    o.content = m :: o'.content ∧ o'.state = o.state ∧ o'.out = o.out := by
  obtain ⟨rest, hqueue, rfl⟩ := take_eq_some.mp h
  refine ⟨?_, rfl, rfl⟩
  unfold content
  rw [hqueue]
  rfl

/-- All that is on its way is in `P`. -/
def All (P : α → Prop) (o : Outlet α) : Prop := ∀ m ∈ o.content, ∀ x ∈ m, P x

variable {P : α → Prop}

lemma all_start : (start : Outlet α).All P := fun _ hm => absurd hm List.not_mem_nil

lemma All.send (h : o.All P) (hs : o.send bound = some o') : o'.All P := by
  unfold All
  rw [(content_send hs).1]
  exact h

lemma All.take (h : o.All P) (ht : o.take = some (m, o')) : (∀ x ∈ m, P x) ∧ o'.All P := by
  unfold All at h
  rw [(content_take ht).1] at h
  exact ⟨h m List.mem_cons_self, fun m' hm' => h m' (List.mem_cons_of_mem _ hm')⟩

lemma All.append {l : List (List α)} (h : o.All P) (hl : ∀ x ∈ l.flatten, P x)
    (hc : o'.content = o.content ++ l) : o'.All P := by
  intro m hm x hx
  rw [hc] at hm
  rcases List.mem_append.mp hm with hm | hm
  · exact h m hm x hx
  · exact hl x (List.mem_flatten.mpr ⟨m, hm, hx⟩)

lemma All.skip (h : o.All P) : o.skip.All P := by
  refine fun m hm => h m ?_
  rcases List.mem_append.mp hm with hm | hm
  · exact List.mem_append_left _ hm
  · exact List.mem_append_right _ (List.mem_of_mem_tail hm)

lemma All.close (h : o.All P) : o.close.All P := fun m hm => h m (content_close_isPrefix.subset hm)

end Content

/-! ### The measure -/

/-- What is on its way weighs `c` for everything in a message, a message `w` in the channel and one
more before, and the task itself more in its loop than behind it with a last message. -/
def weigh (c w : ℕ) (o : Outlet α) : ℕ :=
  c * o.content.flatten.length + w * o.queue.length + (w + 1) * o.out.length +
  match o.state with
  | .running => w + 3
  | .ending => 1
  | .ended => 0

section Measure

variable {o o' : Outlet α} {bound c w : ℕ} {m : List α}

lemma weigh_leave {messages : List (List α)} (h : o.state = .running) (hm : messages.length ≤ 1) :
    (o.leave messages).weigh c w + 1 ≤ o.weigh c w + c * messages.flatten.length := by
  unfold weigh
  rw [content_leave, h]
  simp only [leave, List.flatten_append, List.length_append, Nat.mul_add]
  have hle : (w + 1) * messages.length ≤ w + 1 := by
    calc (w + 1) * messages.length ≤ (w + 1) * 1 := Nat.mul_le_mul_left _ hm
      _ = w + 1 := Nat.mul_one _
  omega

lemma weigh_close (h : o.state ≠ .ended) : o.close.weigh c w + 1 ≤ o.weigh c w := by
  unfold weigh
  have hlen : c * o.close.content.flatten.length ≤ c * o.content.flatten.length := by
    refine Nat.mul_le_mul_left _ ?_
    obtain ⟨rest, hrest⟩ := content_close_isPrefix (o := o)
    rw [← hrest, List.flatten_append, List.length_append]
    exact Nat.le_add_right _ _
  simp only [close, List.length_nil, Nat.mul_zero] at hlen ⊢
  cases hs : o.state with
  | running => simp only; omega
  | ending => simp only; omega
  | ended => exact absurd hs h

end Measure

end Outlet

end Redbit.Lib
