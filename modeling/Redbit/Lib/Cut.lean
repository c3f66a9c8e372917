import Mathlib.Data.List.Basic

/-!
# Cutting a stream

A buffer takes a stream item by item and now and then gives a batch out.  What it gives out and what
it keeps is the stream (`cut_flatten`).  `cut_law` says what holds of every batch and of what
follows it in the stream, from what holds of the one push that gave it out.
-/

namespace Redbit.Lib

variable {σ T : Type*} (push : σ → T → Option (List T) × σ)

/-- The batches that come out while the items go in, and the buffer afterwards. -/
def cut : σ → List T → List (List T) × σ
  | s, [] => ([], s)
  | s, x :: xs =>
    let r := cut (push s x).2 xs
    ((push s x).1.toList ++ r.1, r.2)

variable {push} {buf : σ → List T}

/-- One push keeps what is there: the batch, followed by the buffer. -/
def Keeps (push : σ → T → Option (List T) × σ) (buf : σ → List T) : Prop :=
  ∀ s x, (push s x).1.toList.flatten ++ buf (push s x).2 = buf s ++ [x]

/-- The batches and the rest are the stream, in its order. -/
lemma cut_flatten (hkeeps : Keeps push buf) (s : σ) (items : List T) :
    (cut push s items).1.flatten ++ buf (cut push s items).2 = buf s ++ items := by
  induction items generalizing s with
  | nil => simp [cut]
  | cons x xs ih =>
    rw [cut, List.flatten_append, List.append_assoc, ih, ← List.append_assoc, hkeeps,
      List.append_assoc]
    rfl

/-- **Batches of a cut stream.**  `Inv` is about the buffer and the items to come, `Law` about a
batch and what follows it in the stream. -/
theorem cut_law (Inv : σ → List T → Prop) (Law : List T → List T → Prop) (hkeeps : Keeps push buf)
    (hstep : ∀ s x xs, Inv s (x :: xs) → Inv (push s x).2 xs)
    (hlaw : ∀ s x xs, Inv s (x :: xs) → ∀ b, (push s x).1 = some b → Law b (buf (push s x).2 ++ xs))
    {s : σ} {items : List T} (h : Inv s items) :
    Inv (cut push s items).2 [] ∧
      ∀ pre b post, (cut push s items).1 = pre ++ b :: post →
        ∃ rest, buf s ++ items = pre.flatten ++ b ++ rest ∧ Law b rest := by
  induction items generalizing s with
  | nil =>
    refine ⟨h, ?_⟩
    intro pre b post heq
    simp [cut] at heq
  | cons x xs ih =>
    obtain ⟨hinv, hbatches⟩ := ih (hstep s x xs h)
    refine ⟨hinv, ?_⟩
    intro pre b post heq
    have hstream : buf s ++ x :: xs = (push s x).1.toList.flatten ++ (buf (push s x).2 ++ xs) := by
      rw [← List.append_assoc, hkeeps, List.append_assoc]
      rfl
    rw [hstream]
    dsimp only [cut] at heq
    cases hout : (push s x).1 with
    | none =>
      rw [hout] at heq
      obtain ⟨rest, hrest, hl⟩ := hbatches pre b post heq
      exact ⟨rest, hrest, hl⟩
    | some c =>
      rw [hout] at heq
      cases pre with
      | nil =>
        -- the batch of this push
        obtain ⟨rfl, -⟩ := List.cons.inj heq
        exact ⟨_, by simp, hlaw s x xs h c hout⟩
      | cons d pre =>
        obtain ⟨rfl, htail⟩ := List.cons.inj heq
        obtain ⟨rest, hrest, hl⟩ := hbatches pre b post htail
        refine ⟨rest, ?_, hl⟩
        rw [hrest]
        simp

end Redbit.Lib
