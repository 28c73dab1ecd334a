import ExecutionEngine.ShortestDecimal

/-!
# Comparison and multiplication of binary64 numbers

Finite numbers are compared by their units, so that the two zeros are equal, and an
integer is compared with a float without rounding. No comparison with NaN holds. A
product of two multiples of the unit is a multiple of its square, and is rounded
after a division by `2 ^ 1074`.
-/
namespace ExecutionEngine.Binary64

theorem Finite.natAbs_units (x : Finite) : x.units.natAbs = x.mantissa * 2 ^ x.shift := by
  have hcast : ((x.mantissa : ℤ) * 2 ^ x.shift).natAbs = x.mantissa * 2 ^ x.shift := by
    rw [Int.natAbs_mul, Int.natAbs_pow]
    rfl
  unfold Finite.units
  dsimp only
  split_ifs
  · rw [Int.natAbs_neg, hcast]
  · exact hcast

namespace Float64

/-- `abs(x)` -/
def abs : Float64 → Float64
  | .nan => .nan
  | .infinity _ => .infinity false
  | .finite x => .finite { x with negative := false }

/-- `x * y` -/
def mul : Float64 → Float64 → Float64
  | .nan, _ => .nan
  | _, .nan => .nan
  | .infinity s, .infinity t => .infinity (s != t)
  | .infinity s, .finite y => if y.mantissa = 0 then .nan else .infinity (s != y.negative)
  | .finite x, .infinity t => if x.mantissa = 0 then .nan else .infinity (x.negative != t)
  | .finite x, .finite y => round (x.negative != y.negative) (x.magnitude * y.magnitude) one

/-- `x == y` -/
def eq : Float64 → Float64 → Bool
  | .infinity s, .infinity t => s == t
  | .finite x, .finite y => decide (x.units = y.units)
  | _, _ => false

/-- `x < y` -/
def lt : Float64 → Float64 → Bool
  | .nan, _ => false
  | _, .nan => false
  | .infinity s, .infinity t => s && !t
  | .infinity s, .finite _ => s
  | .finite _, .infinity t => !t
  | .finite x, .finite y => decide (x.units < y.units)

/-- `x <= y` -/
def le (x y : Float64) : Bool := x.lt y || x.eq y

/-- `x == n` for an integer `n`, without rounding. -/
def eqInt (x : Float64) (n : ℤ) : Bool :=
  match x with
  | .finite x => decide (x.units = n * one)
  | _ => false

/-- `max(x, y)`: the second argument only when it is greater. -/
def max (x y : Float64) : Float64 := if x.lt y then y else x

theorem round_ne_nan (negative : Bool) (num den : ℕ) : round negative num den ≠ .nan := by
  have hparts : ∀ m s, ofParts negative m s ≠ .nan := by
    intro m s
    unfold ofParts
    split_ifs <;> simp
  unfold round
  dsimp only
  split_ifs
  · exact hparts _ _
  · exact hparts _ _

theorem ofDecimal_ne_nan (negative : Bool) (mantissa : ℕ) (exponent : ℤ) :
    ofDecimal negative mantissa exponent ≠ .nan := by
  unfold ofDecimal
  split_ifs
  · exact round_ne_nan _ _ _
  · exact round_ne_nan _ _ _

/-- `float(n)` is finite where it is defined. -/
theorem ofInt_finite {n : ℤ} (h : ofInt n ≠ none) : ∃ x, ofInt n = some (.finite x) := by
  unfold ofInt at h ⊢
  cases hn : ofUnits (n * one) with
  | nan => exact absurd hn (round_ne_nan _ _ _)
  | infinity s =>
    rw [hn] at h
    exact absurd rfl h
  | finite x => exact ⟨x, rfl⟩

theorem eq_comm (x y : Float64) : x.eq y = y.eq x := by
  cases x with
  | nan => cases y <;> rfl
  | infinity s =>
    cases y with
    | infinity t => exact Bool.beq_comm
    | _ => rfl
  | finite x =>
    cases y with
    | finite y => exact decide_eq_decide.mpr Eq.comm
    | _ => rfl

theorem eq_self {x : Float64} : x.eq x = true ↔ x ≠ .nan := by
  cases x <;> simp [eq]

end Float64

end ExecutionEngine.Binary64
