import Mathlib.Data.Rat.Floor
import Mathlib.Tactic.Ring
import Mathlib.Tactic.FieldSimp
import Mathlib.Tactic.Positivity

/-! # Decimal arithmetic

An operation of a decimal type fits the exact result into what the type can hold. It
panics when the result is too large, and a division panics on a zero divisor.
-/
namespace ArbCore
namespace DecimalArithmetic

inductive Panic where
  | overflow
  | divisionByZero
deriving DecidableEq

/-- `fit` is what the type holds of an exact result, or `none` if that is too large. -/
class DecimalOps where
  fit : ℚ → Option ℚ

abbrev exact : DecimalOps := ⟨some⟩

section Operations
variable [DecimalOps] {a b c : ℚ}

def fitted (x : ℚ) : Except Panic ℚ :=
  match DecimalOps.fit x with
  | some y => .ok y
  | none => .error .overflow

def sub (a b : ℚ) : Except Panic ℚ := fitted (a - b)
def mul (a b : ℚ) : Except Panic ℚ := fitted (a * b)
def div (a b : ℚ) : Except Panic ℚ := if b = 0 then .error .divisionByZero else fitted (a / b)

theorem fitted_ne_divisionByZero (x : ℚ) : fitted x ≠ .error .divisionByZero := by
  intro h
  unfold fitted at h
  split at h <;> cases h

theorem div_eq_divisionByZero_iff : div a b = .error .divisionByZero ↔ b = 0 := by
  unfold div
  split_ifs with hb
  · exact ⟨fun _ => hb,fun _ => rfl⟩
  · exact ⟨fun h => absurd h (fitted_ne_divisionByZero _),fun h => absurd h hb⟩

theorem div_of_ne (hb : b ≠ 0) : div a b = fitted (a / b) := if_neg hb

end Operations

section Sequencing
variable {ε α β : Type} {x : Except ε α} {f : α → Except ε β}

theorem bind_eq_ok_iff {y : β} : x >>= f = .ok y ↔ ∃ a, x = .ok a ∧ f a = .ok y := by
  cases x with
  | error e => simp [bind, Except.bind]
  | ok a => simp [bind, Except.bind]

theorem bind_eq_error_iff {e : ε} :
    x >>= f = .error e ↔ x = .error e ∨ ∃ a, x = .ok a ∧ f a = .error e := by
  cases x with
  | error e' => simp [bind, Except.bind]
  | ok a => simp [bind, Except.bind]

theorem pure_ne_error {a : α} {e : ε} : (pure a : Except ε α) ≠ .error e := fun h => by cases h

theorem bind_ne_error {e : ε} (hx : x ≠ .error e) (hf : ∀ a, x = .ok a → f a ≠ .error e) :
    x >>= f ≠ .error e := by
  intro h
  rcases bind_eq_error_iff.mp h with h | ⟨a,ha,h⟩
  · exact hx h
  · exact hf a ha h

theorem bind_congr_ok {g : α → Except ε β} (h : ∀ a, x = .ok a → f a = g a) : x >>= f = x >>= g := by
  cases x with
  | error e => rfl
  | ok a => exact h a rfl

theorem toOption_eq_some_iff {a : α} : x.toOption = some a ↔ x = .ok a := by
  cases x <;> simp [Except.toOption]

theorem toOption_eq_none_iff : x.toOption = none ↔ ∃ e, x = .error e := by
  cases x <;> simp [Except.toOption]

end Sequencing

section Rounding

/-- The nearest integer, of two the even one. -/
def roundHalfEven (x : ℚ) : ℤ :=
  if 2 * Int.fract x < 1 ∨ (2 * Int.fract x = 1 ∧ ⌊x⌋ % 2 = 0) then ⌊x⌋ else ⌊x⌋ + 1

/-- With at most `scale` decimal places, as many of them as the coefficient has room for. -/
def fitDecimal (bound : ℕ) (x : ℚ) : ℕ → Option ℚ
  | 0 => if (roundHalfEven x).natAbs ≤ bound then some (roundHalfEven x : ℚ) else none
  | scale + 1 =>
    let coefficient := roundHalfEven (x * 10 ^ (scale + 1))
    if coefficient.natAbs ≤ bound then some ((coefficient : ℚ) / 10 ^ (scale + 1)) else fitDecimal bound x scale

theorem roundHalfEven_intCast (n : ℤ) : roundHalfEven n = n := by
  rw [roundHalfEven, Int.fract_intCast, if_pos (.inl (by norm_num)), Int.floor_intCast]

theorem fitDecimal_eq_self {bound scale k : ℕ} {n : ℤ} (hk : k ≤ scale) (hn : n.natAbs ≤ bound) :
    fitDecimal bound ((n : ℚ) / 10 ^ k) scale = some ((n : ℚ) / 10 ^ k) := by
  induction scale with
  | zero =>
    cases Nat.le_zero.mp hk
    simp [fitDecimal, roundHalfEven_intCast, hn]
  | succ scale ih =>
    have hcoefficient : (n / 10 ^ k : ℚ) * 10 ^ (scale + 1) = ((n * 10 ^ (scale + 1 - k) : ℤ) : ℚ) := by
      obtain ⟨j,hj⟩ := Nat.exists_eq_add_of_le hk
      rw [hj, Nat.add_sub_cancel_left, pow_add]
      push_cast
      field_simp
    simp only [fitDecimal, hcoefficient, roundHalfEven_intCast]
    split_ifs with hbound
    · rw [← hcoefficient, mul_div_cancel_right₀ _ (by positivity)]
    · refine ih (Nat.le_of_lt_succ (lt_of_le_of_ne hk fun heq => hbound ?_))
      simpa [heq] using hn

end Rounding

end DecimalArithmetic
end ArbCore
