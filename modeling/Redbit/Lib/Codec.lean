import Mathlib.Data.Nat.Digits.Defs
import Mathlib.Data.List.Forall2

/-!
# Bytes and text of numbers

Number formats of fixed-width unsigned integers: `leBytes n v` is the number `v` in `n` bytes, the
least significant first, and `parseUnsigned bound` reads decimal text, an optional plus sign and at
least one digit, with every prefix checked against `bound`.  `rsplitOnce` splits a text at its last
separator.

* `ofLeBytes_leBytes`, `leBytes_ofLeBytes` — the byte format is a bijection between the numbers
below `256 ^ n` and the byte strings of length `n`;
* `parseUnsigned_toDigits` — printed numbers are read back;
* `dash_notMem_of_parseUnsigned` — no accepted text holds a dash;
* `rsplitOnce_eq_some` — what the split at the last separator returns;
* `forall₂_splitOn_concat` — the parts between all separators, by the last one.
-/

namespace Redbit.Lib

/-! ### Little-endian bytes -/

/-- The `n` low bytes of `v`, the least significant first. -/
def leBytes : ℕ → ℕ → List UInt8
  | 0, _ => []
  | n + 1, v => UInt8.ofNat v :: leBytes n (v / 256)

/-- The number that `bytes` spell, the least significant first. -/
def ofLeBytes (bytes : List UInt8) : ℕ := Nat.ofDigits 256 (bytes.map UInt8.toNat)

@[simp] lemma ofLeBytes_nil : ofLeBytes [] = 0 := rfl

lemma ofLeBytes_cons (b : UInt8) (bytes : List UInt8) :
    ofLeBytes (b :: bytes) = b.toNat + 256 * ofLeBytes bytes := by
  simp [ofLeBytes, Nat.ofDigits_cons]

@[simp] lemma length_leBytes (n v : ℕ) : (leBytes n v).length = n := by
  induction n generalizing v with
  | zero => rfl
  | succ n ih => simp [leBytes, ih]

lemma toNat_digits_lt (bytes : List UInt8) : ∀ d ∈ bytes.map UInt8.toNat, d < 256 := by
  intro d hd
  obtain ⟨b, -, rfl⟩ := List.mem_map.mp hd
  exact b.toNat_lt

lemma ofLeBytes_lt (bytes : List UInt8) : ofLeBytes bytes < 256 ^ bytes.length := by
  have hlt := Nat.ofDigits_lt_base_pow_length (b := 256) (by omega) (toNat_digits_lt bytes)
  rwa [List.length_map] at hlt

lemma ofLeBytes_leBytes {n v : ℕ} (h : v < 256 ^ n) : ofLeBytes (leBytes n v) = v := by
  induction n generalizing v with
  | zero =>
    rw [leBytes, ofLeBytes_nil]
    omega
  | succ n ih =>
    have hdiv : v / 256 < 256 ^ n := Nat.div_lt_of_lt_mul (by rwa [pow_succ'] at h)
    rw [leBytes, ofLeBytes_cons, ih hdiv, UInt8.toNat_ofNat']
    omega

lemma leBytes_ofLeBytes (bytes : List UInt8) : leBytes bytes.length (ofLeBytes bytes) = bytes := by
  induction bytes with
  | nil => rfl
  | cons b bytes ih =>
    have hb := b.toNat_lt
    have hdiv : (b.toNat + 256 * ofLeBytes bytes) / 256 = ofLeBytes bytes := by omega
    have hbyte : UInt8.ofNat (b.toNat + 256 * ofLeBytes bytes) = b := by
      apply UInt8.toNat_inj.mp
      rw [UInt8.toNat_ofNat']
      omega
    rw [List.length_cons, leBytes, ofLeBytes_cons, hdiv, hbyte, ih]

/-! ### Decimal text -/

/-- Why a text is not an unsigned integer. -/
inductive IntErrorKind
  | empty
  | invalidDigit
  | posOverflow
  deriving DecidableEq, Repr

section Decimal

variable {bound : ℕ}

/-- Reads digits behind the digits that gave `acc`. -/
def parseDigits : Fin bound → List Char → Except IntErrorKind (Fin bound)
  | acc, [] => .ok acc
  | acc, c :: cs =>
    if c.isDigit then
      if h : 10 * acc.val + (c.toNat - '0'.toNat) < bound then parseDigits ⟨_, h⟩ cs
        else .error .posOverflow
    else .error .invalidDigit

/-- Reads an unsigned integer below `bound`. -/
def parseUnsigned (bound : ℕ) [NeZero bound] : List Char → Except IntErrorKind (Fin bound)
  | [] => .error .empty
  | ['+'] => .error .invalidDigit
  | '+' :: cs => parseDigits 0 cs
  | cs => parseDigits 0 cs

lemma le_ofDigitChars (cs : List Char) (acc : ℕ) : acc ≤ Nat.ofDigitChars 10 cs acc := by
  induction cs generalizing acc with
  | nil => simp
  | cons c cs ih =>
    rw [Nat.ofDigitChars_cons]
    have := ih (10 * acc + (c.toNat - '0'.toNat))
    omega

lemma parseDigits_eq_ok (cs : List Char) (acc n : Fin bound) :
    parseDigits acc cs = .ok n ↔ (∀ c ∈ cs, c.isDigit) ∧ Nat.ofDigitChars 10 cs acc = n := by
  induction cs generalizing acc with
  | nil => simp [parseDigits, Fin.ext_iff]
  | cons c cs ih =>
    rw [parseDigits, Nat.ofDigitChars_cons]
    by_cases hc : c.isDigit
    · rw [if_pos hc]
      by_cases hlt : 10 * acc.val + (c.toNat - '0'.toNat) < bound
      · rw [dif_pos hlt, ih]
        simp [hc]
      · -- the value only grows with further digits
        have hle := le_ofDigitChars cs (10 * acc.val + (c.toNat - '0'.toNat))
        have hn := n.isLt
        rw [dif_neg hlt]
        simp only [reduceCtorEq, false_iff]
        rintro ⟨-, h⟩
        omega
    · rw [if_neg hc]
      simp [hc]

lemma dash_notMem_of_isDigit {cs : List Char} (h : ∀ c ∈ cs, c.isDigit) : '-' ∉ cs := by
  intro hmem
  exact absurd (h '-' hmem) (by decide)

/-- A text that is read has no dash. -/
lemma dash_notMem_of_parseUnsigned [NeZero bound] {cs : List Char} {n : Fin bound}
    (h : parseUnsigned bound cs = .ok n) : '-' ∉ cs := by
  unfold parseUnsigned at h
  split at h
  · cases h
  · cases h
  · have hdigits := ((parseDigits_eq_ok _ _ _).mp h).1
    simpa using dash_notMem_of_isDigit hdigits
  · exact dash_notMem_of_isDigit ((parseDigits_eq_ok _ _ _).mp h).1

lemma isDigit_of_mem_toDigits {n : ℕ} : ∀ c ∈ Nat.toDigits 10 n, c.isDigit := by
  intro c hc
  exact Nat.isDigit_of_mem_toDigits (by omega) (by omega) hc

/-- Printed numbers are read back. -/
lemma parseUnsigned_toDigits [NeZero bound] (n : Fin bound) :
    parseUnsigned bound (Nat.toDigits 10 n) = .ok n := by
  have hdigits := isDigit_of_mem_toDigits (n := n.val)
  have hparse : parseDigits 0 (Nat.toDigits 10 n) = .ok n := by
    rw [parseDigits_eq_ok]
    exact ⟨hdigits, Nat.ofDigitChars_ten_toDigits⟩
  cases hcs : Nat.toDigits 10 n with
  | nil => exact absurd hcs Nat.toDigits_ne_nil
  | cons c cs =>
    rw [hcs] at hdigits hparse
    have hplus : c ≠ '+' := by
      rintro rfl
      exact absurd (hdigits '+' (List.mem_cons_self ..)) (by decide)
    unfold parseUnsigned
    split
    · contradiction
    · simp_all
    · simp_all
    · exact hparse

end Decimal

/-! ### The last separator -/

lemma forall₂_concat {α β : Type*} {R : α → β → Prop} {l : List α} {m : List β} {a : α} {b : β} :
    List.Forall₂ R (l ++ [a]) (m ++ [b]) ↔ List.Forall₂ R l m ∧ R a b := by
  rw [← List.forall₂_reverse_iff, List.reverse_concat, List.reverse_concat, List.forall₂_cons,
    List.forall₂_reverse_iff, and_comm]

section LastSeparator

variable {α : Type*} [DecidableEq α] {sep : α}

/-- What stands before and after the last `sep`; `none` if there is none. -/
def rsplitOnce (sep : α) : List α → Option (List α × List α)
  | [] => none
  | c :: cs =>
    match rsplitOnce sep cs with
    | some (before, after) => some (c :: before, after)
    | none => if c = sep then some ([], cs) else none

lemma rsplitOnce_eq_none {s : List α} : rsplitOnce sep s = none ↔ sep ∉ s := by
  induction s with
  | nil => simp [rsplitOnce]
  | cons c cs ih =>
    rw [rsplitOnce, List.mem_cons, not_or, ← ih]
    cases h : rsplitOnce sep cs with
    | some p => simp
    | none => simp [eq_comm]

lemma rsplitOnce_append_cons {before after : List α} (h : sep ∉ after) :
    rsplitOnce sep (before ++ sep :: after) = some (before, after) := by
  induction before with
  | nil => simp [rsplitOnce, rsplitOnce_eq_none.mpr h]
  | cons c cs ih => simp [rsplitOnce, ih]

lemma rsplitOnce_eq_some {s before after : List α} :
    rsplitOnce sep s = some (before, after) ↔ s = before ++ sep :: after ∧ sep ∉ after := by
  constructor
  · intro h
    induction s generalizing before with
    | nil => simp [rsplitOnce] at h
    | cons c cs ih =>
      rw [rsplitOnce] at h
      cases hcs : rsplitOnce sep cs with
      | some p =>
        obtain ⟨before', after'⟩ := p
        rw [hcs] at h
        obtain ⟨rfl, rfl⟩ := Prod.mk.inj (Option.some.inj h)
        obtain ⟨rfl, hafter⟩ := ih hcs
        exact ⟨rfl, hafter⟩
      | none =>
        rw [hcs] at h
        by_cases hc : c = sep
        · simp only [hc, if_true, Option.some.injEq, Prod.mk.injEq] at h
          obtain ⟨rfl, rfl⟩ := h
          exact ⟨by rw [hc]; rfl, rsplitOnce_eq_none.mp hcs⟩
        · simp [hc] at h
  · rintro ⟨rfl, h⟩
    exact rsplitOnce_append_cons h

lemma splitOn_append_sep {before after : List α} (h : sep ∉ after) :
    (before ++ sep :: after).splitOn sep = before.splitOn sep ++ [after] := by
  rw [List.splitOn_append_cons_self, List.splitOn_eq_singleton h]

variable {β : Type*} {R : List α → β → Prop}

/-- One part: there is no separator. -/
lemma forall₂_splitOn_singleton {s : List α} {b : β} :
    List.Forall₂ R (s.splitOn sep) [b] ↔ sep ∉ s ∧ R s b := by
  cases h : rsplitOnce sep s with
  | none =>
    have hs := rsplitOnce_eq_none.mp h
    rw [List.splitOn_eq_singleton hs, List.forall₂_cons]
    simp [hs]
  | some p =>
    obtain ⟨rfl, hafter⟩ := rsplitOnce_eq_some.mp h
    have hne := List.splitOn_ne_nil sep p.1
    rw [splitOn_append_sep hafter, ← List.nil_append [b], forall₂_concat, List.forall₂_nil_right_iff]
    simp [hne]

/-- More than one part: the last part stands behind the last separator. -/
lemma forall₂_splitOn_concat {s : List α} {m : List β} {b : β} (hm : m ≠ []) :
    List.Forall₂ R (s.splitOn sep) (m ++ [b]) ↔
      ∃ before after, s = before ++ sep :: after ∧ sep ∉ after ∧
        List.Forall₂ R (before.splitOn sep) m ∧ R after b := by
  constructor
  · intro h
    cases hsplit : rsplitOnce sep s with
    | none =>
      -- a single part against at least two
      rw [List.splitOn_eq_singleton (rsplitOnce_eq_none.mp hsplit), ← List.nil_append [s],
        forall₂_concat, List.forall₂_nil_left_iff] at h
      exact absurd h.1 hm
    | some p =>
      obtain ⟨rfl, hafter⟩ := rsplitOnce_eq_some.mp hsplit
      rw [splitOn_append_sep hafter, forall₂_concat] at h
      exact ⟨p.1, p.2, rfl, hafter, h.1, h.2⟩
  · rintro ⟨before, after, rfl, hafter, hm, hb⟩
    rw [splitOn_append_sep hafter, forall₂_concat]
    exact ⟨hm, hb⟩

end LastSeparator

end Redbit.Lib
