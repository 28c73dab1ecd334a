import Mathlib.Tactic

/-!
# IEEE 754 binary64

Every finite number is an integer multiple of the smallest positive one, which is
`2 ^ (-1074)`. Sums and differences are therefore exact in integers before they
are rounded, and so are comparisons with integers of any size. Rounding is to
nearest, ties to even, with overflow to infinity.
-/
namespace ExecutionEngine.Binary64

/-- One, as a multiple of the smallest positive number. -/
def one : ℕ := 2 ^ 1074

/-- A finite number `± mantissa * 2 ^ shift`, in units of the smallest positive one. -/
structure Finite where
  negative : Bool
  mantissa : ℕ
  shift : ℕ
  valid : mantissa < 2 ^ 53 ∧ shift ≤ 2045 ∧ (2 ^ 52 ≤ mantissa ∨ shift = 0)
  deriving DecidableEq, Repr

inductive Float64
  | nan
  | infinity (negative : Bool)
  | finite (x : Finite)
  deriving DecidableEq, Repr

namespace Finite

/-- The signed value in units. -/
def units (x : Finite) : ℤ :=
  let m : ℤ := x.mantissa * 2 ^ x.shift
  if x.negative then -m else m

end Finite

/-- The integer nearest to `a / b`, ties to even. -/
def halfEven (a b : ℕ) : ℕ :=
  let q := a / b
  let r := a % b
  if 2 * r < b then q else if b < 2 * r then q + 1 else q + q % 2

/-- The number with the given parts; parts beyond the largest finite number give
an infinity. -/
def ofParts (negative : Bool) (mantissa shift : ℕ) : Float64 :=
  if h : mantissa < 2 ^ 53 ∧ shift ≤ 2045 ∧ (2 ^ 52 ≤ mantissa ∨ shift = 0) then
    .finite ⟨negative, mantissa, shift, h⟩
  else .infinity negative

/-- The number nearest to `± num / den` units. -/
def round (negative : Bool) (num den : ℕ) : Float64 :=
  let shift := Nat.log2 (num / den) + 1 - 53
  let mantissa := halfEven num (den * 2 ^ shift)
  if mantissa = 2 ^ 53 then ofParts negative (2 ^ 52) (shift + 1)
  else ofParts negative mantissa shift

/-- The number nearest to an integer number of units. -/
def ofUnits (n : ℤ) : Float64 := round (decide (n < 0)) n.natAbs 1

/-- The number nearest to `± mantissa * 10 ^ exponent`. -/
def ofDecimal (negative : Bool) (mantissa : ℕ) (exponent : ℤ) : Float64 :=
  if 0 ≤ exponent then round negative (mantissa * 10 ^ exponent.toNat * one) 1
  else round negative (mantissa * one) (10 ^ (-exponent).toNat)

namespace Float64

def zero : Float64 := ofParts false 0 0

/-- `float(b)` for a Boolean. -/
def ofBool (b : Bool) : Float64 := ofUnits (if b then one else 0)

/-- `float(n)` for an integer; `none` where Python raises `OverflowError`. -/
def ofInt (n : ℤ) : Option Float64 :=
  match ofUnits (n * one) with
  | .infinity _ => none
  | x => some x

def isZero : Float64 → Bool
  | .finite x => x.mantissa == 0
  | _ => false

def negative : Float64 → Bool
  | .nan => false
  | .infinity s => s
  | .finite x => x.negative

def neg : Float64 → Float64
  | .nan => .nan
  | .infinity s => .infinity !s
  | .finite x => .finite { x with negative := !x.negative }

/-- Addition. A sum that is exactly zero is negative only when both terms are. -/
def add : Float64 → Float64 → Float64
  | .nan, _ => .nan
  | _, .nan => .nan
  | .infinity s, .infinity t => if s = t then .infinity s else .nan
  | .infinity s, .finite _ => .infinity s
  | .finite _, .infinity t => .infinity t
  | .finite x, .finite y =>
    if x.units + y.units = 0 then ofParts (x.negative && y.negative) 0 0
    else ofUnits (x.units + y.units)

def sub (x y : Float64) : Float64 := x.add y.neg

/-- `x > n` for an integer `n`, without rounding. -/
def gtInt (x : Float64) (n : ℤ) : Bool :=
  match x with
  | .nan => false
  | .infinity s => !s
  | .finite x => decide (n * one < x.units)

/-- `format(x, ".0f")` -/
def fixed (x : Float64) : String :=
  match x with
  | .nan => "nan"
  | .infinity s => (if s then "-" else "") ++ "inf"
  | .finite x => (if x.negative then "-" else "") ++ toString (halfEven x.units.natAbs one)

end Float64

theorem log2_mul_pow {n : ℕ} (hn : n ≠ 0) (t : ℕ) : (n * 2 ^ t).log2 = n.log2 + t := by
  induction t with
  | zero => simp
  | succ t ih =>
    have hne : n * 2 ^ t ≠ 0 := Nat.mul_ne_zero hn (by positivity)
    rw [show n * 2 ^ (t + 1) = 2 * (n * 2 ^ t) by ring, Nat.log2_two_mul hne, ih]
    omega

theorem halfEven_exact (m : ℕ) {b : ℕ} (hb : 0 < b) : halfEven (m * b) b = m := by
  simp [halfEven, Nat.mul_div_cancel _ hb, hb]

/-- A finite number is the number nearest to its own value. -/
theorem round_exact (x : Finite) :
    round x.negative (x.mantissa * 2 ^ x.shift) 1 = .finite x := by
  obtain ⟨negative, m, s, hm, hs, hnormal⟩ := x
  have hshift : Nat.log2 (m * 2 ^ s / 1) + 1 - 53 = s := by
    rw [Nat.div_one]
    by_cases h0 : m = 0
    · obtain rfl : s = 0 := by
        rcases hnormal with h | h
        · omega
        · exact h
      simp [h0]
    · rw [log2_mul_pow h0]
      have hlt : m.log2 < 53 := (Nat.log2_lt h0).mpr hm
      rcases hnormal with h | rfl
      · have hle : 52 ≤ m.log2 := (Nat.le_log2 h0).mpr h
        omega
      · omega
  have hpow : 0 < 2 ^ s := by positivity
  have hne : m ≠ 2 ^ 53 := by omega
  simp only [round, hshift, one_mul, halfEven_exact m hpow, if_neg hne, ofParts]
  rw [dif_pos ⟨hm, hs, hnormal⟩]

/-- An integer of 53 bits, times a power of two, is a finite number. -/
theorem exists_finite (negative : Bool) {n t : ℕ} (hn : n < 2 ^ 53) (ht : t ≤ 2045) :
    ∃ x : Finite, x.negative = negative ∧ x.mantissa * 2 ^ x.shift = n * 2 ^ t := by
  by_cases h0 : n = 0
  · exact ⟨⟨negative, 0, 0, by norm_num⟩, rfl, by simp [h0]⟩
  · have hlog : n.log2 < 53 := (Nat.log2_lt h0).mpr hn
    let k := min t (52 - n.log2)
    have hk : k ≤ t := min_le_left _ _
    have hupper : n * 2 ^ k < 2 ^ 53 := by
      calc n * 2 ^ k < 2 ^ (n.log2 + 1) * 2 ^ k :=
            Nat.mul_lt_mul_of_pos_right Nat.lt_log2_self (by positivity)
        _ = 2 ^ (n.log2 + 1 + k) := (pow_add 2 _ _).symm
        _ ≤ 2 ^ 53 := Nat.pow_le_pow_right (by norm_num) (by omega)
    have hnormal : 2 ^ 52 ≤ n * 2 ^ k ∨ t - k = 0 := by
      by_cases hle : t ≤ 52 - n.log2
      · exact .inr (by omega)
      · left
        have hk' : k = 52 - n.log2 := by omega
        calc 2 ^ 52 = 2 ^ n.log2 * 2 ^ k := by rw [← pow_add, hk']; congr 1; omega
          _ ≤ n * 2 ^ k := Nat.mul_le_mul_right _ (Nat.log2_self_le h0)
    refine ⟨⟨negative, n * 2 ^ k, t - k, hupper, by omega, hnormal⟩, rfl, ?_⟩
    change n * 2 ^ k * 2 ^ (t - k) = n * 2 ^ t
    rw [mul_assoc, ← pow_add, Nat.add_sub_cancel' hk]

theorem ofUnits_exact {z : ℤ} {n t : ℕ} (hz : z.natAbs = n * 2 ^ t) (hn : n < 2 ^ 53)
    (ht : t ≤ 2045) : ∃ x : Finite, ofUnits z = .finite x ∧ x.units = z := by
  obtain ⟨x, hneg, hx⟩ := exists_finite (decide (z < 0)) hn ht
  refine ⟨x, by rw [ofUnits, hz, ← hx, ← hneg, round_exact], ?_⟩
  have hval : (x.mantissa : ℤ) * 2 ^ x.shift = z.natAbs := by
    rw [hz]
    exact_mod_cast hx
  simp only [Finite.units, hneg, hval, decide_eq_true_eq]
  split_ifs with h <;> omega

theorem ofInt_of_ofUnits {n : ℤ} {x : Finite} (h : ofUnits (n * one) = .finite x) :
    Float64.ofInt n = some (.finite x) := by
  unfold Float64.ofInt
  rw [h]

/-- An integer of 53 bits is converted without loss. -/
theorem ofInt_exact {n : ℤ} (hn : n.natAbs < 2 ^ 53) :
    ∃ x : Finite, Float64.ofInt n = some (.finite x) ∧ x.units = n * one := by
  have hexact : ∃ x : Finite, ofUnits (n * one) = .finite x ∧ x.units = n * one := by
    have hone : ∃ t, one = 2 ^ t ∧ t ≤ 2045 := ⟨1074, rfl, by norm_num⟩
    -- the number itself is never evaluated
    generalize one = o at *
    obtain ⟨t, ht, hle⟩ := hone
    have habs : (n * (o : ℤ)).natAbs = n.natAbs * 2 ^ t := by
      rw [Int.natAbs_mul, Int.natAbs_natCast, ht]
    exact ofUnits_exact habs hn hle
  obtain ⟨x, hx, hunits⟩ := hexact
  exact ⟨x, ofInt_of_ofUnits hx, hunits⟩

end ExecutionEngine.Binary64
