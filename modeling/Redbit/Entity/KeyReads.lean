import Redbit.Entity.Append
import Redbit.Entity.Readers
import Redbit.Entity.Select
import Redbit.Entity.Tail

/-!
# Reading by the key (`pk/first.rs`, `pk/last.rs`, `pk/take.rs`, `pk/exists.rs`, `pk/range.rs`,
`pk/stream_range.rs`, `pk/filter.rs`)

The reads of a table of keys take its keys in ascending order and compose an instance for each.
Where all stored keys are composed, they are reads of one list, that of the stored instances in the
order of their keys (`EntityDef.Composed`).
-/

set_option linter.unusedSectionVars false

namespace Redbit.Entity

open Redbit.Lib Redbit.Storage

namespace EntityDef

/-! ### The functions -/

section Functions

variable {d : ℕ} (E : EntityDef d) (t : E.Tables)

/-- `exists`. -/
def exist (pk : Key d) : Bool := decide (pk ∈ E.keys t)

/-- `first`. -/
def first : Except NotFound (Option E.Instance) :=
  match ((E.keys t).sort (· ≤ ·)).head? with
  | some k => (E.compose t k).map some
  | none => .ok none

/-- `last`. -/
def last : Except NotFound (Option E.Instance) :=
  match ((E.keys t).sort (· ≤ ·)).getLast? with
  | some k => (E.compose t k).map some
  | none => .ok none

/-- `take`. -/
def take (n : ℕ) : Except TailError (List E.Instance) :=
  if 100 < n then .error (.internal "Cannot take more than 100 entities at once")
  else (composeManyQuery (E.compose t) (E.composeWithFilter t)
    ((((E.keys t).sort (· ≤ ·)).take n).map .ok) none).mapError .notFound

/-- `range`. -/
def range (bounds : Key d × Key d) (query : Option E.Query) : Except NotFound (List E.Instance) :=
  rangeQueryWith (E.keys t) (E.compose t) (E.composeWithFilter t) bounds query

/-- `stream_range`. -/
def streamRange (internal : NotFound → NotFound) (bounds : Key d × Key d) (query : Option E.Query) :
    List (Except NotFound E.Instance) :=
  composeManyStream (E.compose t) (E.composeWithFilter t) internal
    (((E.keys t).filter fun k => bounds.1 ≤ k ∧ k < bounds.2).sort (· ≤ ·) |>.map .ok) query

/-- `filter`. -/
def filter (pk : Key d) (query : E.Query) : Except NotFound (Option E.Instance) :=
  filterWith (E.keys t) (fun k => E.composeWithFilter t k query) pk

end Functions

/-! ### Lists of keys that are composed -/

/-- The instances `es` are those of the keys `ks`, one by one. -/
structure Composed {d : ℕ} (E : EntityDef d) (t : E.Tables) (ks : List (Key d))
    (es : List E.Instance) : Prop where
  pks : es.map E.pk = ks
  composed : ∀ e ∈ es, E.compose t (E.pk e) = .ok e

section Composed

variable {d : ℕ} {E : EntityDef d} {t : E.Tables} {ks : List (Key d)} {es : List E.Instance}

lemma composed_of_read (ks : List (Key d)) (h : ∀ k ∈ ks, ∃ e, E.compose t k = .ok e) :
    ∃ es, E.Composed t ks es := by
  obtain ⟨es, hes⟩ := E.composeMany_ok h
  obtain ⟨hpks, hall⟩ := (forall₂_compose_iff fun _ _ h => pk_compose h).mp (composeMany_eq_ok.mp hes)
  exact ⟨es, hpks.symm, hall⟩

lemma Composed.composeMany (h : E.Composed t ks es) : composeMany (E.compose t) ks = .ok es :=
  composeMany_eq_ok.mpr ((forall₂_compose_iff fun _ _ h => pk_compose h).mpr ⟨h.pks.symm, h.composed⟩)

/-- The list reader without a query. -/
lemma Composed.list (h : E.Composed t ks es) :
    composeManyQuery (E.compose t) (E.composeWithFilter t) (ks.map .ok) none = .ok es := by
  unfold composeManyQuery
  rw [composeManyPlain_map_ok]
  exact h.composeMany

/-- The stream reader without a query. -/
lemma Composed.stream (h : E.Composed t ks es) (internal : NotFound → NotFound) :
    tryCollect (composeManyStream (E.compose t) (E.composeWithFilter t) internal
      (ks.map .ok) none) = .ok es :=
  tryCollect_stream_none.mpr h.list

/-- Its items, none of them an error. -/
lemma Composed.stream_items (h : E.Composed t ks es) (internal : NotFound → NotFound) :
    composeManyStream (E.compose t) (E.composeWithFilter t) internal (ks.map .ok) none =
      es.map .ok := by
  unfold composeManyStream
  rw [← h.pks, List.map_map, List.filterMap_map]
  refine List.filterMap_eq_map_iff_forall_eq_some.mpr fun e he => ?_
  show streamItem (E.compose t) (E.composeWithFilter t) internal none (.ok (E.pk e)) = some (.ok e)
  unfold streamItem
  simp only [h.composed e he]

lemma select_of_compose {e : E.Instance} (h : E.compose t (E.pk e) = .ok e) {q : E.Query}
    (hkept : E.Kept q e) : E.composeWithFilter t (E.pk e) q = .ok (E.select q e) := by
  obtain ⟨r, hr, -, hr'⟩ := E.composeWithFilter_outcome t (E.pk e) q h
  rw [hr, hr'.mpr hkept]
  rfl

lemma not_keyFails_map_ok {ks : List (Key d)} : ¬ KeyFails (ks.map (Except.ok (ε := NotFound))) := by
  rintro ⟨e, he⟩
  obtain ⟨k, -, hk⟩ := List.mem_map.mp he
  cases hk

lemma Composed.found (h : E.Composed t ks es) {q : E.Query} (hkept : ∀ e ∈ es, E.Kept q e) :
    (ks.map .ok).filterMap (found (E.composeWithFilter t) q) = es.filterMap (E.select q) := by
  rw [← h.pks, List.map_map, List.filterMap_map]
  exact List.filterMap_congr fun e he => found_of_ok (select_of_compose (h.composed e he) (hkept e he))

/-- The list reader with a query: what the query selects from the instances. -/
lemma Composed.list_query (h : E.Composed t ks es) {q : E.Query} (hkept : ∀ e ∈ es, E.Kept q e) :
    composeManyQuery (E.compose t) (E.composeWithFilter t) (ks.map .ok) (some q) =
      .ok (es.filterMap (E.select q)) :=
  composeManyFiltered_eq_ok.mpr ⟨not_keyFails_map_ok, h.found hkept⟩

/-- The stream reader with a query. -/
lemma Composed.stream_query (h : E.Composed t ks es) (internal : NotFound → NotFound) {q : E.Query}
    (hkept : ∀ e ∈ es, E.Kept q e) :
    tryCollect (composeManyStream (E.compose t) (E.composeWithFilter t) internal (ks.map .ok)
      (some q)) = .ok (es.filterMap (E.select q)) := by
  refine tryCollect_stream_some.mpr ⟨not_keyFails_map_ok, ?_, h.found hkept⟩
  rintro ⟨pk, e, hpk, he⟩
  obtain ⟨k, hk, heq⟩ := List.mem_map.mp hpk
  obtain rfl := Except.ok.inj heq
  rw [← h.pks] at hk
  obtain ⟨e', he', rfl⟩ := List.mem_map.mp hk
  replace he : E.composeWithFilter t (E.pk e') q = .error e := he
  rw [select_of_compose (h.composed e' he') (hkept e' he')] at he
  cases he

lemma Composed.take (h : E.Composed t ks es) (n : ℕ) : E.Composed t (ks.take n) (es.take n) :=
  ⟨by rw [← h.pks, List.map_take], fun e he => h.composed e (List.mem_of_mem_take he)⟩

lemma Composed.filter (h : E.Composed t ks es) (p : Key d → Bool) :
    E.Composed t (ks.filter p) (es.filter fun e => p (E.pk e)) := by
  refine ⟨?_, fun e he => h.composed e (List.mem_of_mem_filter he)⟩
  rw [← h.pks, List.filter_map]
  rfl

/-- The instance of the key that `p` picks, if it picks one. -/
lemma Composed.head (h : E.Composed t ks es) :
    (match ks.head? with
      | some k => (E.compose t k).map some
      | none => .ok none) = .ok es.head? := by
  rw [← h.pks]
  cases es with
  | nil => rfl
  | cons e es => exact congrArg (Except.map some) (h.composed e List.mem_cons_self)

lemma Composed.getLast (h : E.Composed t ks es) :
    (match ks.getLast? with
      | some k => (E.compose t k).map some
      | none => .ok none) = .ok es.getLast? := by
  rw [← h.pks, List.getLast?_map]
  cases hlast : es.getLast? with
  | none => rfl
  | some e => exact congrArg (Except.map some) (h.composed e (List.mem_of_getLast? hlast))

end Composed

/-! ### The stored instances -/

/-- The reads by the key are reads of the list `es`.  With a query they give what the query selects,
where the instances are `Kept`. -/
structure ReadsList {d : ℕ} (E : EntityDef d) (t : E.Tables) (es : List E.Instance) : Prop where
  sorted : (es.map E.pk).Pairwise (· < ·)
  exist : ∀ k, E.exist t k = true ↔ k ∈ es.map E.pk
  first : E.first t = .ok es.head?
  last : E.last t = .ok es.getLast?
  take : ∀ n, E.take t n =
    if 100 < n then .error (.internal "Cannot take more than 100 entities at once")
      else .ok (es.take n)
  range : ∀ from_ until_, E.range t (from_, until_) none =
    .ok (es.filter fun e => decide (from_ ≤ E.pk e ∧ E.pk e < until_))
  rangeQuery : ∀ from_ until_ q, (∀ e ∈ es, from_ ≤ E.pk e ∧ E.pk e < until_ → E.Kept q e) →
    E.range t (from_, until_) (some q) =
      .ok ((es.filter fun e => decide (from_ ≤ E.pk e ∧ E.pk e < until_)).filterMap (E.select q))
  streamRange : ∀ internal from_ until_, tryCollect (E.streamRange t internal (from_, until_) none) =
    .ok (es.filter fun e => decide (from_ ≤ E.pk e ∧ E.pk e < until_))
  streamRangeQuery : ∀ internal from_ until_ q,
    (∀ e ∈ es, from_ ≤ E.pk e ∧ E.pk e < until_ → E.Kept q e) →
    tryCollect (E.streamRange t internal (from_, until_) (some q)) =
      .ok ((es.filter fun e => decide (from_ ≤ E.pk e ∧ E.pk e < until_)).filterMap (E.select q))
  filter : ∀ e ∈ es, ∀ q, E.Kept q e → E.filter t (E.pk e) q = .ok (E.select q e)

section Stored

variable {d : ℕ} {E : EntityDef d} {t : E.Tables} {es : List E.Instance}

lemma sort_filter {s : Finset (Key d)} {p : Key d → Prop} [DecidablePred p] :
    (s.filter p).sort (· ≤ ·) = (s.sort (· ≤ ·)).filter fun k => decide (p k) := by
  refine sort_eq_iff.mpr ⟨?_, fun k => ?_⟩
  · exact s.sortedLT_sort.pairwise.sublist List.filter_sublist
  · rw [List.mem_filter, Finset.mem_sort, Finset.mem_filter, decide_eq_true_iff]

/-- All stored keys are composed, so the reads are those of the list of the stored instances. -/
lemma readsList_of_composed (h : E.Composed t ((E.keys t).sort (· ≤ ·)) es) : E.ReadsList t es where
  sorted := by
    rw [h.pks]
    exact (E.keys t).sortedLT_sort.pairwise
  exist k := by
    rw [h.pks, Finset.mem_sort]
    exact decide_eq_true_iff
  first := h.head
  last := h.getLast
  take n := by
    unfold EntityDef.take
    split
    · rfl
    · rw [(h.take n).list]
      rfl
  range from_ until_ := by
    unfold EntityDef.range rangeQueryWith
    rw [sort_filter]
    exact (h.filter fun k => decide (from_ ≤ k ∧ k < until_)).list
  rangeQuery from_ until_ q hkept := by
    unfold EntityDef.range rangeQueryWith
    rw [sort_filter]
    refine (h.filter fun k => decide (from_ ≤ k ∧ k < until_)).list_query fun e he => ?_
    obtain ⟨hmem, hin⟩ := List.mem_filter.mp he
    exact hkept e hmem (of_decide_eq_true hin)
  streamRange internal from_ until_ := by
    unfold EntityDef.streamRange
    rw [sort_filter]
    exact (h.filter fun k => decide (from_ ≤ k ∧ k < until_)).stream internal
  streamRangeQuery internal from_ until_ q hkept := by
    unfold EntityDef.streamRange
    rw [sort_filter]
    refine (h.filter fun k => decide (from_ ≤ k ∧ k < until_)).stream_query internal fun e he => ?_
    obtain ⟨hmem, hin⟩ := List.mem_filter.mp he
    exact hkept e hmem (of_decide_eq_true hin)
  filter e he q hkept := by
    have hmem : E.pk e ∈ E.keys t := by
      rw [← Finset.mem_sort (· ≤ ·), ← h.pks]
      exact List.mem_map_of_mem he
    unfold EntityDef.filter filterWith
    rw [if_pos hmem]
    exact select_of_compose (h.composed e he) hkept

/-- **Reading by the key.**  After any stores and deletes there is one list of instances, those of
the map in the order of their keys, of which `first` is the first, `last` the last, `take` the first
`n`, and `range` and `stream_range` the part between two keys. -/
theorem readsList_run (E : EntityDef d) (ops : List E.Op)
    (hfits : EachStep E.apply E.Fits E.empty ops) : let t := run E.apply E.empty ops
    let m := run E.mapOp (fun _ => none) ops
    ∃ es, (∀ e, e ∈ es ↔ m (E.pk e) = some e) ∧ E.ReadsList t es := by
  intro t m
  have hmapped : E.Mapped t m := E.mapped_run hfits
  obtain ⟨es, hes⟩ := composed_of_read ((E.keys t).sort (· ≤ ·)) fun k hk =>
    hmapped.read k ((Finset.mem_sort _).mp hk)
  refine ⟨es, fun e => ⟨fun he => ?_, fun he => ?_⟩, readsList_of_composed hes⟩
  · have hget : E.get t (E.pk e) = .ok (some e) := by
      refine get_eq_some.mpr ⟨?_, hes.composed e he⟩
      rw [← Finset.mem_sort (· ≤ ·), ← hes.pks]
      exact List.mem_map_of_mem he
    rw [hmapped.get] at hget
    exact Except.ok.inj hget
  · have hmem : E.pk e ∈ es.map E.pk := by
      rw [hes.pks, Finset.mem_sort, hmapped.mem_keys, he]
      simp
    obtain ⟨e', he', hpk⟩ := List.mem_map.mp hmem
    have hcompose := hes.composed e' he'
    rw [hpk, hmapped.compose he] at hcompose
    rwa [Except.ok.inj hcompose]

end Stored

end EntityDef

/-- The block that was stored again is there, and is the last one. -/
theorem readsList_run_restored :
    let t := run blockDef.apply blockDef.empty restoredOps
    blockDef.exist t (Key.root 1) = true ∧ blockDef.exist t (Key.root 2) = false ∧
      blockDef.last t = .ok (some (blockOf [transactionAt 0 20])) := by
  intro t
  obtain ⟨es, hes, hreads⟩ := blockDef.readsList_run restoredOps fits_restoredOps
  have hmem : blockOf [transactionAt 0 20] ∈ es := (hes _).mpr rfl
  have hone : ∀ e ∈ es, e = blockOf [transactionAt 0 20] := by
    intro e he
    have hm := (hes e).mp he
    by_cases hk : blockDef.pk e = Key.root 1
    · rw [hk] at hm
      exact (Option.some.inj hm).symm
    · have hnone : run blockDef.mapOp (fun _ => none) restoredOps (blockDef.pk e) = none := by
        show putMap (fun k => if k ∈ [Key.root 1] then none else _) (Key.root 1) _
          (blockDef.pk e) = none
        rw [putMap_of_ne _ _ hk, if_neg (by simpa using hk)]
        show putMap (fun _ => none) (Key.root 1) _ (blockDef.pk e) = none
        rw [putMap_of_ne _ _ hk]
      rw [hnone] at hm
      cases hm
  refine ⟨(hreads.exist _).mpr (List.mem_map_of_mem hmem), ?_, ?_⟩
  · refine Bool.eq_false_iff.mpr fun h => ?_
    obtain ⟨e, he, hk⟩ := List.mem_map.mp ((hreads.exist _).mp h)
    rw [hone e he] at hk
    cases hk
  · rw [hreads.last]
    cases hlast : es.getLast? with
    | none => exact absurd (List.getLast?_eq_none_iff.mp hlast ▸ hmem) List.not_mem_nil
    | some e => rw [hone e (List.mem_of_getLast? hlast)]

end Redbit.Entity
