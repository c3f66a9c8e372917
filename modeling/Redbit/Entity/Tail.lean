import Redbit.Entity.Replace
import Mathlib.Data.List.DropRight

/-!
# The last entities (`pk/tail.rs`)

`tail` does not scan the table from its end.  It takes the last key, goes `n` roots back from it and
reads the last `n` keys of that range, so it finds the last entities only if they lie within these
roots (`tail_iff`). Roots that are not stored count, and so do parents without children. -/

namespace Redbit.Entity

open Redbit.Lib Redbit.Storage

namespace Key

/-- `rollback_or_init`. -/
def rollbackOrInit (n : ℕ) : {d : ℕ} → Key d → Key d
  | 0, k => root (index k - n)
  | _ + 1, k => fromParent (rollbackOrInit n (parent k)) 0

/-- The index at the root. -/
def rootIndex : {d : ℕ} → Key d → ℕ
  | 0, k => index k
  | _ + 1, k => rootIndex (parent k)

/-- What is not in front of the key that lies `n` roots back. -/
lemma rollbackOrInit_le {n : ℕ} : ∀ {d : ℕ} {p q : Key d}, p.rollbackOrInit n ≤ q ↔
    p.rootIndex ≤ q.rootIndex + n
  | 0, p, q => by
    show p.index - n ≤ q.index ↔ p.index ≤ q.index + n
    omega
  | d + 1, p, q => by
    rw [← fromParent_parent q]
    show fromParent (p.parent.rollbackOrInit n) 0 ≤ fromParent q.parent q.index ↔
      p.parent.rootIndex ≤ q.parent.rootIndex + n
    rw [fromParent_le, ← rollbackOrInit_le]
    constructor
    · rintro (hlt | ⟨heq, -⟩)
      · exact hlt.le
      · exact heq.le
    · intro hle
      exact hle.lt_or_eq.imp_right fun heq => ⟨heq, Nat.zero_le _⟩

/-- How far the next index is from the root of a key: a root has moved on by one, a parent has not. -/
def rootStep : ℕ → ℕ
  | 0 => 1
  | _ + 1 => 0

lemma rootIndex_nextIndex {bits : ℕ} : ∀ {d : ℕ} {k : Key d}, k.index + 1 < 2 ^ bits →
    (k.nextIndex bits).rootIndex = k.rootIndex + rootStep d
  | 0, _, h => Nat.mod_eq_of_lt h
  | _ + 1, _, _ => rfl

end Key

/-- `AppError`, as far as `tail` fails with it. -/
inductive TailError where
  | internal (message : String)
  | notFound (error : NotFound)

/-- The keys that `tail` composes, without the checks of `n`. -/
def tailPks {d : ℕ} (bits n : ℕ) (keys : Finset (Key d)) : List (Key d) :=
  match (keys.sort (· ≤ ·)).getLast? with
  | none => []
  | some last =>
    let upper := last.nextIndex bits
    let lower := upper.rollbackOrInit n
    let range := (keys.sort (· ≤ ·)).filter fun k => lower ≤ k ∧ k < upper
    (range.reverse.take n).reverse

namespace EntityDef

/-- The width of the index of the key. -/
def bits : {d : ℕ} → EntityDef d → ℕ
  | _, mk bits .. => bits

/-- `tail`. -/
def tail {d : ℕ} (E : EntityDef d) (t : E.Tables) (n : ℕ) : Except TailError (List E.Instance) :=
  if n = 0 then .ok []
  else if 100 < n then .error (.internal "Cannot take more than 100 entities at once")
  else (composeMany (E.compose t) (tailPks E.bits n (E.keys t))).mapError .notFound

end EntityDef

/-- The greatest `n` keys, or all if there are fewer, in ascending order. -/
def lastKeys {d : ℕ} (n : ℕ) (keys : Finset (Key d)) : List (Key d) := (keys.sort (· ≤ ·)).rtake n

/-- The last index is not the largest of its type, and the last `n` keys are within `n` roots of the
last one; of root keys the next one counts among the `n`. -/
def TailReaches {d : ℕ} (bits n : ℕ) (keys : Finset (Key d)) : Prop :=
  ∀ last ∈ (keys.sort (· ≤ ·)).getLast?, last.index + 1 < 2 ^ bits ∧
    ∀ k ∈ lastKeys n keys, last.rootIndex + Key.rootStep d ≤ k.rootIndex + n

section Tail

variable {d bits n : ℕ} {keys : Finset (Key d)}

/-- The last entries of a selection are the last entries of all exactly if these are selected. -/
lemma rtake_filter_iff {α : Type} {p : α → Bool} {l : List α} :
    (l.filter p).rtake n = l.rtake n ↔ ∀ x ∈ l.rtake n, p x = true := by
  constructor
  · intro h x hx
    rw [← h] at hx
    exact List.of_mem_filter (List.mem_of_mem_drop hx)
  · intro h
    have hsplit : l.filter p = (l.take (l.length - n)).filter p ++ l.rtake n := by
      conv_lhs => rw [← List.take_append_drop (l.length - n) l, List.filter_append]
      exact congrArg _ (List.filter_eq_self.mpr h)
    rw [hsplit]
    by_cases hlen : l.length ≤ n
    · -- everything is among the last entries
      have h0 : l.length - n = 0 := by omega
      have hall : l.rtake n = l := by rw [List.rtake, h0, List.drop_zero]
      rw [hall, h0, List.take_zero, List.filter_nil, List.nil_append, hall]
    · have hlast : (l.rtake n).length = n := by
        rw [List.rtake, List.length_drop]
        omega
      rw [List.rtake, List.length_append, hlast, Nat.add_sub_cancel, List.drop_left]

lemma le_getLast {last : Key d} (hlast : last ∈ (keys.sort (· ≤ ·)).getLast?) {k : Key d}
    (hk : k ∈ keys.sort (· ≤ ·)) : k ≤ last := by
  obtain ⟨init, hinit⟩ := List.getLast?_eq_some_iff.mp hlast
  have hsorted : (keys.sort (· ≤ ·)).Pairwise (· ≤ ·) := Finset.pairwise_sort keys (· ≤ ·)
  rw [hinit] at hk hsorted
  rcases List.mem_append.mp hk with hk | hk
  · exact (List.pairwise_append.mp hsorted).2.2 k hk last (by simp)
  · exact (List.mem_singleton.mp hk).le

/-- The keys that are composed are the last ones. -/
lemma tailPks_eq_iff (hn : 1 ≤ n) :
    tailPks bits n keys = lastKeys n keys ↔ TailReaches bits n keys := by
  unfold tailPks TailReaches
  cases hlast : (keys.sort (· ≤ ·)).getLast? with
  | none =>
    have hnil := List.getLast?_eq_none_iff.mp hlast
    simp [lastKeys, hnil]
  | some last =>
    dsimp only
    rw [← List.rtake_eq_reverse_take_reverse, lastKeys, rtake_filter_iff]
    have hmem : last ∈ (keys.sort (· ≤ ·)).rtake n := by
      obtain ⟨init, hinit⟩ := List.getLast?_eq_some_iff.mp hlast
      obtain ⟨m, rfl⟩ := Nat.exists_eq_add_of_le' hn
      rw [hinit, List.rtake_concat_succ]
      simp
    have hupper : last < last.nextIndex bits ↔ last.index + 1 < 2 ^ bits := by
      have hnext : last ≤ last ∧ last < last.nextIndex bits ↔ last = last ∧
          last.index + 1 < 2 ^ bits :=
        Key.le_and_lt_nextIndex
      simpa using hnext
    constructor
    · intro hall
      obtain ⟨-, hlt⟩ := of_decide_eq_true (hall last hmem)
      have hfits := hupper.mp hlt
      rintro _ ⟨⟩
      refine ⟨hfits, ?_⟩
      intro k hk
      obtain ⟨hle, -⟩ := of_decide_eq_true (hall k hk)
      rwa [Key.rollbackOrInit_le, Key.rootIndex_nextIndex hfits] at hle
    · intro hreach k hk
      obtain ⟨hfits, hall⟩ := hreach last rfl
      refine decide_eq_true ⟨?_, ?_⟩
      · rw [Key.rollbackOrInit_le, Key.rootIndex_nextIndex hfits]
        exact hall k hk
      · exact lt_of_le_of_lt (le_getLast hlast (List.mem_of_mem_drop hk)) (hupper.mpr hfits)

end Tail

/-! ### The entities -/

namespace EntityDef

lemma composeMany_pks {d : ℕ} (E : EntityDef d) {t : E.Tables} {ks : List (Key d)}
    {es : List E.Instance} (h : composeMany (E.compose t) ks = .ok es) : es.map E.pk = ks := by
  have hall := composeMany_eq_ok.mp h
  clear h
  induction hall with
  | nil => rfl
  | cons hk _ ih => rw [List.map_cons, pk_compose hk, ih]

lemma composeMany_ok {d : ℕ} (E : EntityDef d) {t : E.Tables} {ks : List (Key d)}
    (h : ∀ k ∈ ks, ∃ e, E.compose t k = .ok e) : ∃ es, composeMany (E.compose t) ks = .ok es := by
  induction ks with
  | nil => exact ⟨[], rfl⟩
  | cons k ks ih =>
    obtain ⟨e, he⟩ := h k List.mem_cons_self
    obtain ⟨es, hes⟩ := ih fun k' hk' => h k' (List.mem_cons_of_mem k hk')
    exact ⟨e :: es, by rw [composeMany, he, hes]⟩

/-- `tail` returns the entities of the last `n` keys. -/
def TailReturns {d : ℕ} (E : EntityDef d) (t : E.Tables) (n : ℕ) : Prop :=
  E.tail t n = (composeMany (E.compose t) (lastKeys n (E.keys t))).mapError .notFound

section Returns

variable {d n : ℕ} (E : EntityDef d) (t : E.Tables) (hn : 1 ≤ n) (hmax : n ≤ 100)

include hn hmax

lemma tail_eq : E.tail t n = (composeMany (E.compose t) (tailPks E.bits n (E.keys t))).mapError
    .notFound := by
  rw [tail, if_neg (by omega), if_neg (by omega)]

lemma tailReturns_of_reaches (h : TailReaches E.bits n (E.keys t)) : E.TailReturns t n := by
  rw [TailReturns, E.tail_eq t hn hmax, (tailPks_eq_iff hn).mpr h]

/-- The keys of what was read tell which keys were read. -/
lemma reaches_of_tailReturns (hread : ∀ k ∈ E.keys t, ∃ e, E.compose t k = .ok e)
    (h : E.TailReturns t n) : TailReaches E.bits n (E.keys t) := by
  have hlast : ∀ k ∈ lastKeys n (E.keys t), ∃ e, E.compose t k = .ok e := by
    intro k hk
    have hmem : k ∈ (E.keys t).sort (· ≤ ·) := List.mem_of_mem_drop hk
    exact hread k ((Finset.mem_sort _).mp hmem)
  obtain ⟨es, hes⟩ := E.composeMany_ok hlast
  rw [TailReturns, E.tail_eq t hn hmax, hes] at h
  rw [← tailPks_eq_iff hn]
  cases hpks : composeMany (E.compose t) (tailPks E.bits n (E.keys t)) with
  | error e =>
    rw [hpks] at h
    cases h
  | ok es' =>
    rw [hpks] at h
    obtain rfl := Except.ok.inj h
    rw [← E.composeMany_pks hpks, ← E.composeMany_pks hes]

/-- **The last entities.**  `tail` returns them if they lie within the roots that it goes back, and
in a table that has the entity of every key only if they do. -/
theorem tail_iff :
    (TailReaches E.bits n (E.keys t) → E.TailReturns t n) ∧
      ((∀ k ∈ E.keys t, ∃ e, E.compose t k = .ok e) →
        (E.TailReturns t n ↔ TailReaches E.bits n (E.keys t))) := by
  refine ⟨E.tailReturns_of_reaches t hn hmax, ?_⟩
  intro hread
  exact ⟨E.reaches_of_tailReturns t hn hmax hread, E.tailReturns_of_reaches t hn hmax⟩

end Returns

end EntityDef

/-! ### Roots with a gap -/

/-- An entity with nothing but its key. -/
def bareDef : EntityDef 0 := .mk 32 0 0 (.columnsFirst 0 0) Fin.elim0 Fin.elim0 fun j => j.elim0

/-- The instance of a key. -/
def bareInstance (k : Key 0) : bareDef.Instance := ⟨k, fun j => j.elim0, fun j => j.elim0⟩

/-- The table of the keys. -/
def bareTable (ks : List (Key 0)) :
    bareDef.Tables := bareDef.storeMany bareDef.empty (ks.map bareInstance)

lemma bareDef_compose (t : bareDef.Tables) (k : Key 0) : ∃ e, bareDef.compose t k = .ok e := ⟨_, rfl⟩

lemma sort_bareTable {ks : List (Key 0)} (h : ks.Pairwise (· < ·)) :
    (bareDef.keys (bareTable ks)).sort (· ≤ ·) = ks := by
  have hkeys : bareDef.keys (bareTable ks) = ks.toFinset := by
    have hpks : (ks.map bareInstance).map bareDef.pk = ks := by
      rw [List.map_map]
      exact List.map_id ks
    show ∅ ∪ ((ks.map bareInstance).map bareDef.pk).toFinset = _
    rw [hpks, Finset.empty_union]
  rw [hkeys]
  exact (List.toFinset_sort _ (h.imp fun hlt => ne_of_lt hlt)).mpr (h.imp fun hlt => le_of_lt hlt)

/-- Of the roots 0 and 5 the last two are not found. -/
theorem tail_misses_gap : ¬ bareDef.TailReturns (bareTable [Key.root 0, Key.root 5]) 2 := by
  intro h
  have hreach := bareDef.reaches_of_tailReturns _ (by decide) (by decide)
    (fun k _ => bareDef_compose _ k) h
  have hsort : (bareDef.keys (bareTable [Key.root 0, Key.root 5])).sort (· ≤ ·) =
      [Key.root 0, Key.root 5] :=
    sort_bareTable (by decide)
  have hlast := (hreach (Key.root 5) (by rw [hsort]; rfl)).2 (Key.root 0)
    (by rw [lastKeys, hsort]; exact List.mem_cons_self)
  exact absurd hlast (by decide)

/-- Of the roots 4 and 5 they are. -/
theorem tail_iff_dense : bareDef.TailReturns (bareTable [Key.root 4, Key.root 5]) 2 := by
  have hsort : (bareDef.keys (bareTable [Key.root 4, Key.root 5])).sort (· ≤ ·) =
      [Key.root 4, Key.root 5] :=
    sort_bareTable (by decide)
  refine (EntityDef.tail_iff bareDef (bareTable [Key.root 4, Key.root 5]) (n := 2) (by decide)
    (by decide)).1 ?_
  intro last hlast
  rw [hsort] at hlast
  obtain rfl := Option.some.inj hlast
  refine ⟨by decide, ?_⟩
  rw [lastKeys, hsort]
  decide

end Redbit.Entity
