import Redbit.Entity.Pointer

/-!
# Pointers as text (`UrlEncoded`, `impl_tryfrom_pointer!`)

A pointer is written as its indices from the root down, with dashes between them.  The parser of a
child pointer splits at the last dash and leaves what is before it to the parser of the parent; the
parser of a root pointer refuses dashes.

* `Pointer.tryFrom_eq_ok` — what is accepted, by the parts between the dashes;
* `Pointer.tryFrom_urlEncode` — a printed pointer is read back;
* `text_codec` — the two together, with the number of dashes.
-/

namespace Redbit.Entity

open Redbit.Lib

/-- `ParsePointerError`. -/
inductive ParsePointerError
  | format
  | parseInt (kind : IntErrorKind)
  deriving DecidableEq, Repr

/-- `s.parse::<Index>()`. -/
def IndexType.fromStr (t : IndexType) (s : String) : Except IntErrorKind t.Value :=
  parseUnsigned (256 ^ t.sizeOf) s.toList

namespace IndexType

variable {t : IndexType}

lemma dash_notMem_of_fromStr {s : String} {v : t.Value} (h : t.fromStr s = .ok v) : '-' ∉ s.toList :=
  dash_notMem_of_parseUnsigned h

lemma fromStr_toString (v : t.Value) : t.fromStr (toString v.val) = .ok v := by
  rw [fromStr, Nat.toString_eq_repr, Nat.toList_repr]
  exact parseUnsigned_toDigits v

end IndexType

/-- The types of the indices from the root down. -/
def PointerType.levels : PointerType → List IndexType
  | root t => [t]
  | child P t => P.levels ++ [t]

lemma PointerType.length_levels (T : PointerType) : T.levels.length = T.depth + 1 := by
  induction T with
  | root t => rfl
  | child P t ih => rw [levels, List.length_append, ih, depth, List.length_singleton]

namespace Pointer

variable {T : PointerType}

/-- `url_encode`. -/
def urlEncode : {T : PointerType} → Pointer T → String
  | _, root index => toString index.val
  | _, child parent index => parent.urlEncode ++ "-" ++ toString index.val

/-- `TryFrom<String>::try_from`, which `FromStr::from_str` calls. -/
def tryFrom : (T : PointerType) → String → Except ParsePointerError (Pointer T)
  | .root t, s =>
    if '-' ∈ s.toList then .error .format
    else do
      let idx ← (t.fromStr s).mapError .parseInt
      .ok (root idx)
  | .child P t, s =>
    -- `rsplitn(2, '-')` gives the part after the last dash first and the rest second, if there is a
    -- dash
    match rsplitOnce '-' s.toList with
    | none => .error .format
    | some (parentStr, idxStr) => do
      let parent ← tryFrom P (String.ofList parentStr)
      let idx ← (t.fromStr (String.ofList idxStr)).mapError .parseInt
      .ok (child parent idx)

/-- The indices from the root down, each with its type. -/
def indices : {T : PointerType} → Pointer T → List (Σ t : IndexType, t.Value)
  | _, root index => [⟨_, index⟩]
  | _, child parent index => parent.indices ++ [⟨_, index⟩]

/-! ### What is accepted -/

lemma tryFrom_root {t : IndexType} {s : String} {p : Pointer (.root t)} :
    tryFrom (.root t) s = .ok p ↔ ∃ v, t.fromStr s = .ok v ∧ p = root v := by
  rw [tryFrom]
  constructor
  · intro h
    split at h
    · cases h
    · cases hv : t.fromStr s with
      | error e =>
        rw [hv] at h
        cases h
      | ok v =>
        rw [hv] at h
        exact ⟨v, rfl, (Except.ok.inj h).symm⟩
  · rintro ⟨v, hv, rfl⟩
    rw [if_neg (IndexType.dash_notMem_of_fromStr hv), hv]
    rfl

lemma tryFrom_child {t : IndexType} {s : String} {p : Pointer (.child T t)} :
    tryFrom (.child T t) s = .ok p ↔
      ∃ before after q v, s.toList = before ++ '-' :: after ∧
        tryFrom T (String.ofList before) = .ok q ∧
        t.fromStr (String.ofList after) = .ok v ∧ p = child q v := by
  rw [tryFrom]
  constructor
  · intro h
    split at h
    · cases h
    next before after hsplit =>
      cases hq : tryFrom T (String.ofList before) with
      | error e =>
        rw [hq] at h
        cases h
      | ok q =>
        cases hv : t.fromStr (String.ofList after) with
        | error e =>
          rw [hq, hv] at h
          cases h
        | ok v =>
          rw [hq, hv] at h
          exact ⟨before, after, q, v, (rsplitOnce_eq_some.mp hsplit).1, hq, hv, (Except.ok.inj h).symm⟩
  · rintro ⟨before, after, q, v, hs, hq, hv, rfl⟩
    have hafter : '-' ∉ after := by simpa using IndexType.dash_notMem_of_fromStr hv
    rw [hs, rsplitOnce_append_cons hafter]
    simp only [hq, hv]
    rfl

/-- A printed pointer is read back. -/
lemma tryFrom_urlEncode (p : Pointer T) : tryFrom T p.urlEncode = .ok p := by
  induction p with
  | root index => exact tryFrom_root.mpr ⟨index, IndexType.fromStr_toString index, rfl⟩
  | child parent index ih =>
    refine tryFrom_child.mpr ⟨parent.urlEncode.toList, (toString index.val).toList, parent, index,
      ?_, ?_, ?_, rfl⟩
    · simp [urlEncode]
    · rw [String.ofList_toList]
      exact ih
    · rw [String.ofList_toList]
      exact IndexType.fromStr_toString index

/-- An accepted text has as many dashes as the pointer has parents. -/
lemma count_dash_of_tryFrom : ∀ {T : PointerType} {s : String} {p : Pointer T}, tryFrom T s = .ok p →
    s.toList.count '-' = T.depth
  | .root t, s, p, h => by
    obtain ⟨v, hv, -⟩ := tryFrom_root.mp h
    exact List.count_eq_zero.mpr (IndexType.dash_notMem_of_fromStr hv)
  | .child P t, s, p, h => by
    obtain ⟨before, after, q, v, hs, hq, hv, -⟩ := tryFrom_child.mp h
    have hbefore := count_dash_of_tryFrom hq
    have hafter := List.count_eq_zero.mpr (IndexType.dash_notMem_of_fromStr hv)
    rw [String.toList_ofList] at hbefore hafter
    rw [hs, List.count_append, List.count_cons_self, hbefore, hafter]
    rfl

lemma levels_ne_nil (T : PointerType) : T.levels ≠ [] := by
  cases T <;> simp [PointerType.levels]

lemma indices_ne_nil (p : Pointer T) : p.indices ≠ [] := by
  cases p <;> simp [indices]

lemma map_fst_indices (p : Pointer T) : p.indices.map Sigma.fst = T.levels := by
  induction p with
  | root index => rfl
  | child parent index ih =>
    rw [indices, List.map_append, ih]
    rfl

/-- The parts between the dashes decide which pointer is read. -/
lemma tryFrom_eq_ok : ∀ {T : PointerType} {s : String} {p : Pointer T}, tryFrom T s = .ok p ↔
    List.Forall₂ (fun part i => i.1.fromStr (String.ofList part) = .ok i.2)
      (s.toList.splitOn '-') p.indices
  | _, s, .root v => by
    rw [tryFrom_root, indices, forall₂_splitOn_singleton, String.ofList_toList]
    constructor
    · rintro ⟨w, hw, h⟩
      cases h
      exact ⟨IndexType.dash_notMem_of_fromStr hw, hw⟩
    · rintro ⟨-, hv⟩
      exact ⟨v, hv, rfl⟩
  | _, s, .child q v => by
    rw [tryFrom_child, indices, forall₂_splitOn_concat q.indices_ne_nil]
    constructor
    · rintro ⟨before, after, q', v', hs, hq, hv, h⟩
      cases h
      refine ⟨before, after, hs, by simpa using IndexType.dash_notMem_of_fromStr hv, ?_, hv⟩
      simpa using tryFrom_eq_ok.mp hq
    · rintro ⟨before, after, hs, -, hq, hv⟩
      exact ⟨before, after, q, v, hs, tryFrom_eq_ok.mpr (by simpa using hq), hv, rfl⟩

/-- The parts between the dashes decide whether a text is accepted. -/
lemma exists_tryFrom_eq_ok : ∀ {T : PointerType} {s : String}, (∃ p, tryFrom T s = .ok p) ↔
    List.Forall₂ (fun part t => ∃ v, t.fromStr (String.ofList part) = .ok v)
      (s.toList.splitOn '-') T.levels
  | .root t, s => by
    rw [PointerType.levels, forall₂_splitOn_singleton, String.ofList_toList]
    constructor
    · rintro ⟨p, hp⟩
      obtain ⟨v, hv, -⟩ := tryFrom_root.mp hp
      exact ⟨IndexType.dash_notMem_of_fromStr hv, v, hv⟩
    · rintro ⟨-, v, hv⟩
      exact ⟨root v, tryFrom_root.mpr ⟨v, hv, rfl⟩⟩
  | .child P t, s => by
    rw [PointerType.levels, forall₂_splitOn_concat (levels_ne_nil P)]
    constructor
    · rintro ⟨p, hp⟩
      obtain ⟨before, after, q, v, hs, hq, hv, -⟩ := tryFrom_child.mp hp
      refine ⟨before, after, hs, by simpa using IndexType.dash_notMem_of_fromStr hv, ?_, v, hv⟩
      simpa using exists_tryFrom_eq_ok.mp ⟨q, hq⟩
    · rintro ⟨before, after, hs, -, hq, v, hv⟩
      rw [← String.toList_ofList (l := before)] at hq
      obtain ⟨q, hq⟩ := exists_tryFrom_eq_ok.mpr hq
      exact ⟨child q v, tryFrom_child.mpr ⟨before, after, q, v, hs, hq, hv, rfl⟩⟩

end Pointer

/-- The text codec of pointers of any type: a printed pointer is read back, an accepted text has as
many dashes as the type is deep, so that types of different depth accept no common text, and a text
is accepted exactly when its parts between the dashes are indices of the types of their levels,
which are then the indices of the pointer. -/
theorem text_codec (T : PointerType) :
    (∀ p : Pointer T, Pointer.tryFrom T p.urlEncode = .ok p) ∧
    (∀ (s : String) (p : Pointer T), Pointer.tryFrom T s = .ok p → s.toList.count '-' = T.depth) ∧
    (∀ (U : PointerType) (s : String) (p : Pointer T) (q : Pointer U),
      Pointer.tryFrom T s = .ok p → Pointer.tryFrom U s = .ok q → T.depth = U.depth) ∧
    T.levels.length = T.depth + 1 ∧ (∀ p : Pointer T, p.indices.map Sigma.fst = T.levels) ∧
    (∀ s : String, (∃ p, Pointer.tryFrom T s = .ok p) ↔
      List.Forall₂ (fun part t => ∃ v, t.fromStr (String.ofList part) = .ok v)
        (s.toList.splitOn '-') T.levels) ∧
    (∀ (s : String) (p : Pointer T), Pointer.tryFrom T s = .ok p ↔
      List.Forall₂ (fun part i => i.1.fromStr (String.ofList part) = .ok i.2)
        (s.toList.splitOn '-') p.indices) := by
  refine ⟨Pointer.tryFrom_urlEncode, ?_, ?_, T.length_levels, Pointer.map_fst_indices, ?_, ?_⟩
  · intro s p h
    exact Pointer.count_dash_of_tryFrom h
  · intro U s p q hp hq
    rw [← Pointer.count_dash_of_tryFrom hp, Pointer.count_dash_of_tryFrom hq]
  · intro s
    exact Pointer.exists_tryFrom_eq_ok
  · intro s p
    exact Pointer.tryFrom_eq_ok

end Redbit.Entity
