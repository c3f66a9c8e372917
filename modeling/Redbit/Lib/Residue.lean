import Mathlib.Data.Nat.Digits.Defs
import Mathlib.Data.Nat.ModEq
import Mathlib.Tactic.Ring

/-!
# Residues of numbers that are read digit by digit

The residue modulo `m` of a number in base `base`, from its digits, the least significant first: a
fold that keeps the power of the base and the sum so far, both reduced at every digit.  A machine
does so in words of a fixed width and stops where a sum or a product does not fit.

* `foldlM_eq_ok` — a fold that may fail is the total one, from an invariant under which no step fails;
* `foldlM_flatten` — a fold over chunks is the fold over their concatenation;
* `foldl_residueStep_modEq` — the closed form of the sum;
* `ofDigits_mod_take` — modulo a divisor of a power of the base only the low digits count.
-/

namespace Redbit.Lib

/-! ### Words -/

/-- Why a computation stops. -/
inductive Panic where
  | addOverflow
  | mulOverflow
  | remByZero
  | assertFailed (msg : String)
  deriving DecidableEq, Repr

/-- The sum in words of `w` bits. -/
def addWord (w a b : ℕ) : Except Panic ℕ := if a + b < 2 ^ w then .ok (a + b) else .error .addOverflow

/-- The product in words of `w` bits. -/
def mulWord (w a b : ℕ) : Except Panic ℕ := if a * b < 2 ^ w then .ok (a * b) else .error .mulOverflow

/-- The remainder, of words of any width. -/
def remWord (a b : ℕ) : Except Panic ℕ := if b = 0 then .error .remByZero else .ok (a % b)

lemma addWord_eq_ok {w a b : ℕ} (h : a + b < 2 ^ w) : addWord w a b = .ok (a + b) := if_pos h

lemma mulWord_eq_ok {w a b : ℕ} (h : a * b < 2 ^ w) : mulWord w a b = .ok (a * b) := if_pos h

lemma remWord_eq_ok {a b : ℕ} (h : b ≠ 0) : remWord a b = .ok (a % b) := if_neg h

/-! ### Folds that may fail -/

section Folds

variable {σ α ε : Type*}

/-- **A fold that does not fail.**  Under the invariant every step returns what `next` says, and
keeps it. -/
theorem foldlM_eq_ok {step : σ → α → Except ε σ} (next : σ → α → σ) (Inv : σ → Prop)
    (hstep : ∀ s x, Inv s → step s x = .ok (next s x)) (hinv : ∀ s x, Inv s → Inv (next s x))
    {s : σ} (hs : Inv s) (xs : List α) : xs.foldlM step s = .ok (xs.foldl next s) := by
  induction xs generalizing s with
  | nil => rfl
  | cons x xs ih =>
    rw [List.foldlM_cons, hstep s x hs, List.foldl_cons]
    exact ih (hinv s x hs)

/-- Chunk by chunk is the same as all at once, failures included. -/
theorem foldlM_flatten (step : σ → α → Except ε σ) (s : σ) (chunks : List (List α)) :
    chunks.foldlM (fun s chunk => chunk.foldlM step s) s = chunks.flatten.foldlM step s := by
  induction chunks generalizing s with
  | nil => rfl
  | cons chunk chunks ih =>
    rw [List.foldlM_cons, List.flatten_cons, List.foldlM_append]
    apply bind_congr
    intro s'
    exact ih s'

end Folds

/-! ### Residues -/

/-- The power of the base and the sum after one more digit. -/
def residueStep (base m : ℕ) (powAcc : ℕ × ℕ) (d : ℕ) : ℕ × ℕ :=
  (powAcc.1 * base % m, (powAcc.2 + d * powAcc.1) % m)

/-- **The closed form.**  From the power `pow` and the sum `acc` on, the digits add `pow` times
their number. -/
theorem foldl_residueStep_modEq (base m : ℕ) (powAcc : ℕ × ℕ) (digits : List ℕ) :
    (digits.foldl (residueStep base m) powAcc).2 ≡ powAcc.2 + powAcc.1 * Nat.ofDigits base digits
    [MOD m] := by
  induction digits generalizing powAcc with
  | nil =>
    simp only [List.foldl_nil, Nat.ofDigits_nil, Nat.mul_zero, Nat.add_zero]
    exact Nat.ModEq.refl _
  | cons d digits ih =>
    obtain ⟨pow, acc⟩ := powAcc
    have hacc : (acc + d * pow) % m ≡ acc + d * pow [MOD m] := Nat.mod_modEq _ _
    have hpow : pow * base % m ≡ pow * base [MOD m] := Nat.mod_modEq _ _
    calc ((d :: digits).foldl (residueStep base m) (pow, acc)).2
        ≡ (acc + d * pow) % m + pow * base % m * Nat.ofDigits base digits [MOD m] := ih _
      _ ≡ acc + d * pow + pow * base * Nat.ofDigits base digits [MOD m] := hacc.add (hpow.mul_right _)
      _ = acc + pow * Nat.ofDigits base (d :: digits) := by
        rw [Nat.ofDigits_cons]
        ring

/-- Reduced numbers stay reduced. -/
lemma residueStep_lt {m : ℕ} (hm : 0 < m) (base : ℕ) (powAcc : ℕ × ℕ) (d : ℕ) :
    (residueStep base m powAcc d).1 < m ∧ (residueStep base m powAcc d).2 < m :=
  ⟨Nat.mod_lt _ hm, Nat.mod_lt _ hm⟩

/-- Below `m`, one step of the fold needs numbers below `base * m` only. -/
lemma residueStep_fits {base m pow acc d : ℕ} (hpow : pow < m) (hacc : acc < m) (hd : d < base) :
    d * pow < base * m ∧ acc + d * pow < base * m ∧ pow * base < base * m := by
  have hdigit : d * pow ≤ d * m := Nat.mul_le_mul_left d (le_of_lt hpow)
  have hrow : d * m + m ≤ base * m := by
    have hsucc := Nat.mul_le_mul_right m hd
    rwa [Nat.succ_mul] at hsucc
  have hshift : pow * base < base * m := by
    rw [Nat.mul_comm base m]
    exact Nat.mul_lt_mul_of_pos_right hpow (by omega)
  exact ⟨by omega, by omega, hshift⟩

/-- **Low digits.**  Modulo a divisor of `base ^ j` only the `j` low digits count. -/
theorem ofDigits_mod_take {base m j : ℕ} (hm : m ∣ base ^ j) (hbase : 0 < base) {digits : List ℕ}
    (hd : ∀ d ∈ digits, d < base) : Nat.ofDigits base digits % m =
      Nat.ofDigits base (digits.take j) % m := by
  rw [← Nat.ofDigits_mod_pow_eq_ofDigits_take j hbase digits hd, Nat.mod_mod_of_dvd _ hm]

end Redbit.Lib
