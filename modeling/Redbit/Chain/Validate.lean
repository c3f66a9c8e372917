import Redbit.Chain.ForkLink
import Redbit.Lib.Adjacent
import Mathlib.Data.Finset.Sort

/-!
# Validating the stored chain (`validate_chain` in `chain.rs`, `stream_range.rs`)

On a restart the stored headers are read in the order of their heights and every header whose hash
is not the `prev_hash` of the header behind it is collected; the indexer is then restarted from the
first of them.  The headers are read by `stream_range`, which leaves out its upper bound, and the
upper bound is the height of the tip: the tip itself is never read, so the link to the tip is not
looked at.

* `mem_validateChain` — which headers are returned;
* `validateChain_finds_iff` — every broken link is found exactly when the link to the tip is not
broken, or starts below the height to validate from;
* `validateChain_of_linked` — nothing is found in a chain that `persist_or_link` has kept linked.
-/

namespace Redbit.Chain

open Redbit.Lib

variable {H : Type}

/-- The stored headers: the heights in the key table, and `compose`, which reads the columns of a
header. Every key has its columns. -/
structure HeaderStore (H : Type) where
  keys : Finset ℕ
  compose : ℕ → Except String (Header H)
  whole : ∀ h ∈ keys, ∃ header, compose h = .ok header ∧ header.height = h

/-- `ChainError`, as far as validation returns it. -/
inductive ChainError where
  | app (e : String)
  | custom (msg : String)
  deriving DecidableEq, Repr

namespace HeaderStore

/-- The heights in the order of the key table. -/
def heights (s : HeaderStore H) : List ℕ := s.keys.sort (· ≤ ·)

/-- `Header::last`. -/
def last (s : HeaderStore H) : Except String (Option (Header H)) :=
  match s.heights.getLast? with
  | some k => (s.compose k).map some
  | none => .ok none

/-- `Header::stream_range` over `from..until`, without a query. -/
def streamRange (s : HeaderStore H) (fromHeight untilHeight : ℕ) : List (Except String (Header H)) :=
  (s.heights.filter fun h => fromHeight ≤ h ∧ h < untilHeight).map s.compose

end HeaderStore

/-- The loop of `validate_chain`. -/
def validateLoop [DecidableEq H] (affectedHeaders : List (Header H)) (prev : Header H) :
    List (Except String (Header H)) → Except ChainError (List (Header H))
  | [] => .ok affectedHeaders
  | .error e :: _ => .error (.custom ("Stream error: " ++ e))
  | .ok curr :: stream =>
    if prev.hash ≠ curr.prevHash then validateLoop (affectedHeaders ++ [prev]) curr stream
    else validateLoop affectedHeaders curr stream

/-- `validate_chain`. -/
def validateChain [DecidableEq H] (s : HeaderStore H) (validationFromHeight : ℕ) :
    Except ChainError (List (Header H)) :=
  match s.last with
  | .error e => .error (.app e)
  | .ok none => .ok []
  | .ok (some tipHeader) =>
    match s.streamRange validationFromHeight tipHeader.height with
    | [] => .ok []
    | .error e :: _ => .error (.custom ("Stream error: " ++ e))
    | .ok prev :: stream => validateLoop [] prev stream

/-! ### Neighbours in the stored chain -/

namespace HeaderStore

/-- `p` is a stored header. -/
def Stored (s : HeaderStore H) (p : Header H) : Prop := p.height ∈ s.keys ∧ s.compose p.height = .ok p

/-- `c` is the next stored header behind `p`. -/
structure Next (s : HeaderStore H) (p c : Header H) : Prop where
  stored : s.Stored p
  next_stored : s.Stored c
  lt : p.height < c.height
  none_between : ∀ x, s.Stored x → ¬ (p.height < x.height ∧ x.height < c.height)

/-- `result` is what validation should return: the headers from `fromHeight` on whose link to the
next stored header is broken, by height; none of them exactly when the chain is linked from there to
the tip. -/
structure Finds (s : HeaderStore H) (fromHeight : ℕ) (result : List (Header H)) : Prop where
  by_height : result.Pairwise fun p q => p.height < q.height
  mem_iff : ∀ p, p ∈ result ↔ fromHeight ≤ p.height ∧ ∃ c, s.Next p c ∧ c.prevHash ≠ p.hash
  nil_iff : result = [] ↔ ∀ p c, fromHeight ≤ p.height → s.Next p c → c.prevHash = p.hash

/-- The link from the header before the tip to the tip is not broken, or the header before the tip
is below `fromHeight`, or there is no such header. -/
def TipLinked (s : HeaderStore H) (fromHeight : ℕ) : Prop :=
  ∀ p tip, s.last = .ok (some tip) → s.Next p tip → fromHeight ≤ p.height → tip.prevHash = p.hash

variable {s : HeaderStore H} {fromHeight : ℕ} {p q : Header H}

lemma Stored.eq (hp : s.Stored p) (hq : s.Stored q) (h : p.height = q.height) : p = q := by
  have hc := hp.2
  rw [h, hq.2] at hc
  exact (Except.ok.inj hc).symm

lemma exists_stored {h : ℕ} (hk : h ∈ s.keys) : ∃ p, s.Stored p ∧ p.height = h := by
  obtain ⟨p, hp, rfl⟩ := s.whole h hk
  exact ⟨p, ⟨hk, hp⟩, rfl⟩

lemma mem_heights {h : ℕ} : h ∈ s.heights ↔ h ∈ s.keys := by
  rw [heights, Finset.mem_sort]

/-- A list of stored heights is read as the headers of these heights. -/
lemma exists_map_compose {hs : List ℕ} (hk : ∀ h ∈ hs, h ∈ s.keys) :
    ∃ ps : List (Header H), hs.map s.compose = ps.map .ok ∧ ps.map Header.height = hs ∧
      ∀ p ∈ ps, s.Stored p := by
  induction hs with
  | nil => exact ⟨[], rfl, rfl, by simp⟩
  | cons h hs ih =>
    obtain ⟨ps, hps, hheights, hstored⟩ := ih fun h' hh' => hk h' (List.mem_cons_of_mem _ hh')
    obtain ⟨p, hp, rfl⟩ := exists_stored (hk h List.mem_cons_self)
    refine ⟨p :: ps, ?_, ?_, ?_⟩
    · rw [List.map_cons, List.map_cons, hps, hp.2]
    · rw [List.map_cons, hheights]
    · intro q hq
      rcases List.mem_cons.mp hq with rfl | hq
      · exact hp
      · exact hstored q hq

/-- The stream of a range gives the stored headers of the range by height. -/
lemma streamRange_eq (s : HeaderStore H) (fromHeight untilHeight : ℕ) :
    ∃ ps : List (Header H), s.streamRange fromHeight untilHeight = ps.map .ok ∧
      ps.Pairwise (fun p q => p.height < q.height) ∧
      ∀ p, p ∈ ps ↔ s.Stored p ∧ fromHeight ≤ p.height ∧ p.height < untilHeight := by
  have hk : ∀ h ∈ s.heights.filter (fun h => fromHeight ≤ h ∧ h < untilHeight), h ∈ s.keys :=
    fun h hh => mem_heights.mp (List.mem_filter.mp hh).1
  obtain ⟨ps, hps, hheights, hstored⟩ := exists_map_compose hk
  refine ⟨ps, hps, ?_, ?_⟩
  · apply List.pairwise_map.mp
    rw [hheights]
    exact (Finset.sortedLT_sort s.keys).pairwise.filter _
  · intro p
    have hmem : p.height ∈ ps.map Header.height ↔ p.height ∈ s.keys ∧ fromHeight ≤ p.height ∧
        p.height < untilHeight := by
      rw [hheights, List.mem_filter, mem_heights, decide_eq_true_iff]
    constructor
    · intro hp
      exact ⟨hstored p hp, (hmem.mp (List.mem_map_of_mem hp)).2⟩
    · rintro ⟨hp, hrange⟩
      obtain ⟨q, hq, hheight⟩ := List.mem_map.mp (hmem.mpr ⟨hp.1, hrange⟩)
      rwa [(hstored q hq).eq hp hheight] at hq

/-- Neighbours in a range of the stored headers are neighbours in the store. -/
lemma mem_zip_tail_range {ps : List (Header H)} {untilHeight : ℕ} {p c : Header H}
    (hsorted : ps.Pairwise fun p q => p.height < q.height)
    (hmem : ∀ p, p ∈ ps ↔ s.Stored p ∧ fromHeight ≤ p.height ∧ p.height < untilHeight) :
    (p, c) ∈ ps.zip ps.tail ↔ fromHeight ≤ p.height ∧ s.Next p c ∧ c.height < untilHeight := by
  rw [mem_zip_tail Header.height hsorted, hmem, hmem]
  constructor
  · rintro ⟨⟨hp, hfrom, -⟩, ⟨hc, -, huntil⟩, hlt, hnone⟩
    refine ⟨hfrom, ⟨hp, hc, hlt, ?_⟩, huntil⟩
    rintro x hx ⟨hpx, hxc⟩
    exact hnone x ((hmem x).mpr ⟨hx, by omega, by omega⟩) ⟨hpx, hxc⟩
  · rintro ⟨hfrom, hnext, huntil⟩
    have hlt := hnext.lt
    refine ⟨⟨hnext.stored, hfrom, by omega⟩, ⟨hnext.next_stored, by omega, huntil⟩, hlt, ?_⟩
    intro x hx
    exact hnext.none_between x ((hmem x).mp hx).1

/-- The last header is the stored header with the largest height. -/
lemma last_cases (s : HeaderStore H) :
    s.last = .ok none ∧ s.keys = ∅ ∨
      ∃ tip, s.last = .ok (some tip) ∧ s.Stored tip ∧ ∀ x, s.Stored x → x.height ≤ tip.height := by
  cases hl : s.heights.getLast? with
  | none =>
    left
    refine ⟨by rw [last, hl], ?_⟩
    rw [List.getLast?_eq_none_iff] at hl
    apply Finset.eq_empty_of_forall_notMem
    intro h hh
    rw [← mem_heights, hl] at hh
    exact List.not_mem_nil hh
  | some k =>
    right
    obtain ⟨tip, htip, hheight⟩ := exists_stored (mem_heights.mp (List.mem_of_getLast? hl))
    subst hheight
    refine ⟨tip, ?_, htip, ?_⟩
    · rw [last, hl]
      simp only [htip.2]
      rfl
    · intro x hx
      obtain ⟨pre, hpre⟩ := List.getLast?_eq_some_iff.mp hl
      have hsorted : (pre ++ [tip.height]).Pairwise (· < ·) :=
        hpre ▸ (Finset.sortedLT_sort s.keys).pairwise
      have hx' : x.height ∈ pre ++ [tip.height] := hpre ▸ mem_heights.mpr hx.1
      rcases List.mem_append.mp hx' with hx' | hx'
      · exact ((List.pairwise_append.mp hsorted).2.2 x.height hx' tip.height (by simp)).le
      · exact (List.mem_singleton.mp hx').le

lemma last_unique {tip tip' : Header H} (h : s.last = .ok (some tip))
    (h' : s.last = .ok (some tip')) : tip = tip' := by
  rw [h] at h'
  exact Option.some.inj (Except.ok.inj h')

lemma stored_of_last {tip : Header H} (h : s.last = .ok (some tip)) : s.Stored tip := by
  rcases s.last_cases with ⟨hnone, -⟩ | ⟨tip', hlast, htip', -⟩
  · rw [hnone] at h
    cases h
  · rw [last_unique h hlast]
    exact htip'

end HeaderStore

/-! ### What validation returns -/

section Validate

variable [DecidableEq H] {s : HeaderStore H} {fromHeight : ℕ}

lemma validateLoop_eq (affectedHeaders : List (Header H)) (prev : Header H) (ps : List (Header H)) :
    validateLoop affectedHeaders prev (ps.map .ok) =
      .ok (affectedHeaders ++ (((prev :: ps).zip ps).filter fun pc => pc.1.hash ≠ pc.2.prevHash).map
        Prod.fst) := by
  induction ps generalizing affectedHeaders prev with
  | nil => simp [validateLoop]
  | cons curr ps ih =>
    rw [List.map_cons, validateLoop, List.zip_cons_cons, List.filter_cons]
    by_cases h : prev.hash ≠ curr.prevHash
    · rw [if_pos h, ih, if_pos (by simpa using h), List.map_cons, List.append_assoc,
        List.singleton_append]
    · rw [if_neg h, ih, if_neg (by simpa using h)]

/-- The headers are returned whose next stored header is below the tip and not linked to them. -/
lemma mem_validateChain (s : HeaderStore H) (fromHeight : ℕ) :
    ∃ result, validateChain s fromHeight = .ok result ∧
      result.Pairwise (fun p q => p.height < q.height) ∧
      ∀ p, p ∈ result ↔ fromHeight ≤ p.height ∧ ∃ c tip, s.last = .ok (some tip) ∧ s.Next p c ∧
        c.height < tip.height ∧ c.prevHash ≠ p.hash := by
  rcases s.last_cases with ⟨hlast, -⟩ | ⟨tip, hlast, htip, hmax⟩
  · refine ⟨[], by rw [validateChain, hlast], List.Pairwise.nil, ?_⟩
    simp [hlast]
  · obtain ⟨ps, hstream, hsorted, hmem⟩ := s.streamRange_eq fromHeight tip.height
    refine ⟨((ps.zip ps.tail).filter fun pc => pc.1.hash ≠ pc.2.prevHash).map Prod.fst, ?_,
      hsorted.sublist (map_fst_filter_zip_tail_sublist _ ps), ?_⟩
    · rw [validateChain, hlast]
      simp only [hstream]
      cases ps with
      | nil => rfl
      | cons prev ps => exact validateLoop_eq [] prev ps
    · intro p
      rw [List.mem_map]
      constructor
      · rintro ⟨⟨p', c⟩, hpc, rfl⟩
        obtain ⟨hzip, hbroken⟩ := List.mem_filter.mp hpc
        obtain ⟨hfrom, hnext, huntil⟩ := (HeaderStore.mem_zip_tail_range hsorted hmem).mp hzip
        exact ⟨hfrom, c, tip, hlast, hnext, huntil, Ne.symm (of_decide_eq_true hbroken)⟩
      · rintro ⟨hfrom, c, tip', hlast', hnext, huntil, hbroken⟩
        obtain rfl := HeaderStore.last_unique hlast hlast'
        refine ⟨(p, c), List.mem_filter.mpr ⟨?_, decide_eq_true (Ne.symm hbroken)⟩, rfl⟩
        exact (HeaderStore.mem_zip_tail_range hsorted hmem).mpr ⟨hfrom, hnext, huntil⟩

/-- The tip apart, all broken links are found. -/
lemma finds_of_tipLinked {result : List (Header H)}
    (hsorted : result.Pairwise fun p q => p.height < q.height)
    (hmem : ∀ p, p ∈ result ↔ fromHeight ≤ p.height ∧ ∃ c tip, s.last = .ok (some tip) ∧ s.Next p c ∧
      c.height < tip.height ∧ c.prevHash ≠ p.hash)
    (hlinked : s.TipLinked fromHeight) : s.Finds fromHeight result := by
  have hiff : ∀ p, p ∈ result ↔ fromHeight ≤ p.height ∧ ∃ c, s.Next p c ∧ c.prevHash ≠ p.hash := by
    intro p
    rw [hmem]
    constructor
    · rintro ⟨hfrom, c, -, -, hnext, -, hbroken⟩
      exact ⟨hfrom, c, hnext, hbroken⟩
    · rintro ⟨hfrom, c, hnext, hbroken⟩
      rcases s.last_cases with ⟨-, hempty⟩ | ⟨tip, hlast, htip, hmax⟩
      · have hc := hnext.next_stored.1
        simp [hempty] at hc
      · refine ⟨hfrom, c, tip, hlast, hnext, ?_, hbroken⟩
        apply lt_of_le_of_ne (hmax c hnext.next_stored)
        intro heq
        obtain rfl := hnext.next_stored.eq htip heq
        exact hbroken (hlinked p c hlast hnext hfrom)
  refine ⟨hsorted, hiff, ?_⟩
  constructor
  · rintro rfl p c hfrom hnext
    by_contra hbroken
    exact List.not_mem_nil ((hiff p).mpr ⟨hfrom, c, hnext, hbroken⟩)
  · intro hall
    apply List.eq_nil_iff_forall_not_mem.mpr
    intro p hp
    obtain ⟨hfrom, c, hnext, hbroken⟩ := (hiff p).mp hp
    exact hbroken (hall p c hfrom hnext)

/-- **Validation finds every broken link exactly when the link to the tip is not broken.**  The tip
is the upper bound of the range that is read and is left out of it. -/
theorem validateChain_finds_iff (s : HeaderStore H) (validationFromHeight : ℕ) :
    ∃ result, validateChain s validationFromHeight = .ok result ∧
      (s.Finds validationFromHeight result ↔ s.TipLinked validationFromHeight) := by
  obtain ⟨result, hresult, hsorted, hmem⟩ := mem_validateChain s validationFromHeight
  refine ⟨result, hresult, ?_, ?_⟩
  · intro hfinds p tip hlast hnext hfrom
    by_contra hbroken
    -- the header before the tip would have to be found by another neighbour
    have hp := (hfinds.mem_iff p).mpr ⟨hfrom, tip, hnext, hbroken⟩
    obtain ⟨-, c, tip', hlast', hc, hlt, -⟩ := (hmem p).mp hp
    obtain rfl := HeaderStore.last_unique hlast hlast'
    exact hnext.none_between c hc.next_stored ⟨hc.lt, hlt⟩
  · intro hlinked
    exact finds_of_tipLinked hsorted hmem hlinked

end Validate

/-! ### The headers of the stored blocks -/

section Blocks

variable {B : Type} {db : Db H B}

/-- The header table of the stored blocks. -/
def headerStore (db : Db H B) (hk : Keyed db) : HeaderStore H where
  keys := db.keys
  compose h :=
    match db.get h with
    | some b => .ok b.header
    | none => .error "not found"
  whole h hh := by
    obtain ⟨b, hb⟩ := Table.mem_keys.mp hh
    exact ⟨b.header, by rw [hb], hk h b hb⟩

lemma stored_headerStore {hk : Keyed db} {p : Header H} (h : (headerStore db hk).Stored p) :
    ∃ b, db.get p.height = some b ∧ b.header = p := by
  obtain ⟨b, hb⟩ := Table.mem_keys.mp h.1
  have hc : (headerStore db hk).compose p.height = .ok b.header := by
    simp only [headerStore]
    rw [hb]
  rw [h.2] at hc
  exact ⟨b, hb, (Except.ok.inj hc).symm⟩

/-- Neighbours in a linked chain are linked. -/
lemma linked_next {hk : Keyed db} (hl : Linked db) {p c : Header H} (hp : 1 ≤ p.height)
    (h : (headerStore db hk).Next p c) : c.prevHash = p.hash := by
  have hlt := h.lt
  obtain ⟨b, hb, rfl⟩ := stored_headerStore h.next_stored
  obtain ⟨q, hq, rfl⟩ := stored_headerStore h.stored
  obtain ⟨a, ha, hhash⟩ := hl b.header.height b hb (by omega)
  have haheight := hk _ a ha
  -- the parent stands between the neighbours unless it is the first of them
  have hstored : (headerStore db hk).Stored a.header := by
    rw [HeaderStore.Stored, haheight]
    refine ⟨Table.mem_keys.mpr ⟨a, ha⟩, ?_⟩
    simp only [headerStore]
    rw [ha]
  have hnone := h.none_between a.header hstored
  have heq : q.header.height = a.header.height := by omega
  rw [← hhash, h.stored.eq hstored heq]

theorem validateChain_of_linked [DecidableEq H] (hk : Keyed db) (hl : Linked db)
    {validationFromHeight : ℕ} (hfrom : 1 ≤ validationFromHeight) :
    validateChain (headerStore db hk) validationFromHeight = .ok [] := by
  obtain ⟨result, hresult, -, hmem⟩ := mem_validateChain (headerStore db hk) validationFromHeight
  suffices result = [] by rw [hresult, this]
  apply List.eq_nil_iff_forall_not_mem.mpr
  intro p hp
  obtain ⟨hle, c, -, -, hnext, -, hbroken⟩ := (hmem p).mp hp
  exact hbroken (linked_next hl (by omega) hnext)

end Blocks

/-- Two stored headers; the second one, the tip, belongs to another chain. -/
def forkedTip : HeaderStore ℕ where
  keys := {1, 2}
  compose h := .ok ⟨h, h, if h = 2 then 9 else h - 1⟩
  whole _ _ := ⟨_, rfl, rfl⟩

lemma forkedTip_next : forkedTip.Next ⟨1, 1, 0⟩ ⟨2, 2, 9⟩ := by
  refine ⟨⟨by decide, rfl⟩, ⟨by decide, rfl⟩, by decide, ?_⟩
  intro x _ hbetween
  have h1 : 1 < x.height := hbetween.1
  have h2 : x.height < 2 := hbetween.2
  omega

/-- The broken link to the tip is not found. -/
theorem validateChain_misses_tip : validateChain forkedTip 0 = .ok [] ∧ ¬ forkedTip.Finds 0 [] := by
  constructor
  · obtain ⟨result, hresult, -, hmem⟩ := mem_validateChain forkedTip 0
    suffices result = [] by rw [hresult, this]
    apply List.eq_nil_iff_forall_not_mem.mpr
    intro p hp
    obtain ⟨-, c, tip, hlast, hnext, hlt, -⟩ := (hmem p).mp hp
    -- three stored heights, one above the other
    have hheights : ∀ x, forkedTip.Stored x → x.height = 1 ∨ x.height = 2 := by
      intro x hx
      simpa [forkedTip] using hx.1
    have hp' := hheights p hnext.stored
    have hc' := hheights c hnext.next_stored
    have ht' := hheights tip (HeaderStore.stored_of_last hlast)
    have hpc := hnext.lt
    omega
  · intro hfinds
    have hp : (⟨1, 1, 0⟩ : Header ℕ) ∈ ([] : List (Header ℕ)) :=
      (hfinds.mem_iff _).mpr ⟨Nat.zero_le _, ⟨2, 2, 9⟩, forkedTip_next, by decide⟩
    exact List.not_mem_nil hp

end Redbit.Chain
