import ExecutionEngine.Binary64

/-!
# The shortest decimal of a float

A decimal `c * 10 ^ k` stands for a float when it is rounded to it. Among the
decimals that stand for a float, the one with the greatest `k` has the fewest
digits; if there are two with that `k`, the nearer one is taken. With `k = -1074`
every float is a decimal itself, so that the search ends.
-/
namespace ExecutionEngine.Binary64

theorem halfEven_scale (a b : ℕ) {c : ℕ} (hc : 0 < c) :
    halfEven (a * c) (b * c) = halfEven a b := by
  have hdiv : a * c / (b * c) = a / b := Nat.mul_div_mul_right a b hc
  have hmod : a * c % (b * c) = a % b * c := Nat.mul_mod_mul_right c a b
  have hlow : 2 * (a % b * c) < b * c ↔ 2 * (a % b) < b := by
    rw [← mul_assoc]
    exact Nat.mul_lt_mul_right hc
  have hhigh : b * c < 2 * (a % b * c) ↔ b < 2 * (a % b) := by
    rw [← mul_assoc]
    exact Nat.mul_lt_mul_right hc
  simp only [halfEven, hdiv, hmod, hlow, hhigh]

theorem round_scale (negative : Bool) (num den : ℕ) {c : ℕ} (hc : 0 < c) :
    round negative (num * c) (den * c) = round negative num den := by
  have hdiv : num * c / (den * c) = num / den := Nat.mul_div_mul_right num den hc
  have hmantissa : ∀ t, halfEven (num * c) (den * c * t) = halfEven num (den * t) := by
    intro t
    rw [show den * c * t = den * t * c by ring]
    exact halfEven_scale _ _ hc
  simp only [round, hdiv, hmantissa]

/-- A decimal may be written with a further zero. -/
theorem ofDecimal_mul_ten (negative : Bool) (c k : ℕ) :
    ofDecimal negative (c * 10 ^ (k + 1)) (-1) = ofDecimal negative c k := by
  have hscale := fun o => round_scale negative (c * 10 ^ k * o) 1 (show 0 < 10 by norm_num)
  have hzero : c * 10 ^ (k + 1) * one = c * 10 ^ k * one * 10 := by
    generalize one = o
    ring
  rw [ofDecimal, ofDecimal, if_neg (by norm_num), if_pos (Int.natCast_nonneg k)]
  rw [show (-(-1 : ℤ)).toNat = 1 from rfl, Int.toNat_natCast, pow_one, ← hscale, one_mul, hzero]

theorem ofDecimal_zero (negative : Bool) (k : ℤ) :
    ofDecimal negative 0 k = ofParts negative 0 0 := by
  have hround : ∀ den, round negative 0 den = ofParts negative 0 0 := by
    intro den
    simp [round, halfEven]
  rw [ofDecimal]
  split_ifs <;> simp [hround]

namespace Finite

/-- The absolute value in units. -/
def magnitude (x : Finite) : ℕ := x.mantissa * 2 ^ x.shift

/-- The absolute value, divided by `10 ^ k`, as a numerator and a denominator. -/
def scaled (x : Finite) (k : ℤ) : ℕ × ℕ :=
  if 0 ≤ k then (x.magnitude, one * 10 ^ k.toNat) else (x.magnitude * 10 ^ (-k).toNat, one)

/-- The decimal `c * 10 ^ k` is rounded to the number. -/
def stands (x : Finite) (c : ℕ) (k : ℤ) : Bool := decide (ofDecimal x.negative c k = .finite x)

/-- A multiple of `10 ^ k` that stands for the number. There are two that enclose it, and
the nearer one comes first. -/
def atScale (x : Finite) (k : ℤ) : Option ℕ :=
  let (num, den) := x.scaled k
  let near := halfEven num den
  let far := 2 * (num / den) + 1 - near
  if x.stands near k then some near else if x.stands far k then some far else none

/-- The search from `k = n - 1074` downwards. -/
def shortestFrom (x : Finite) : ℕ → ℕ × ℤ
  | 0 => (x.magnitude * 5 ^ 1074, -1074)
  | n + 1 =>
    match x.atScale (n + 1 - 1074) with
    | some c => (c, n + 1 - 1074)
    | none => x.shortestFrom n

/-- The digits of the shortest decimal as a number, and its power of ten. No finite number
reaches `10 ^ 309`. -/
def shortest (x : Finite) : ℕ × ℤ := if x.mantissa = 0 then (0, 0) else x.shortestFrom 1382

theorem stands_of_atScale {x : Finite} {k : ℤ} {c : ℕ} (h : x.atScale k = some c) :
    x.stands c k = true := by
  unfold atScale at h
  dsimp only at h
  split_ifs at h with hnear hfar
  · rwa [← Option.some.inj h]
  · rwa [← Option.some.inj h]

/-- Every number is a multiple of `10 ^ (-1074)`. -/
theorem ofDecimal_exact (x : Finite) :
    ofDecimal x.negative (x.magnitude * 5 ^ 1074) (-1074) = .finite x := by
  have hone : ∀ t : ℕ, (5 : ℕ) ^ t * 2 ^ t = 10 ^ t := fun t => (mul_pow 5 2 t).symm
  have hunits : one = 2 ^ 1074 := rfl
  have hpos : 0 < 10 ^ 1074 := by positivity
  -- the powers are never evaluated
  rw [ofDecimal, if_neg (by norm_num), show (-(-1074 : ℤ)).toNat = 1074 from rfl]
  generalize (1074 : ℕ) = t at *
  have hscale := round_scale x.negative x.magnitude 1 hpos
  rw [one_mul] at hscale
  rw [hunits, mul_assoc, hone, hscale]
  exact round_exact x

theorem ofDecimal_shortestFrom (x : Finite) (n : ℕ) :
    ofDecimal x.negative (x.shortestFrom n).1 (x.shortestFrom n).2 = .finite x := by
  induction n with
  | zero => exact ofDecimal_exact x
  | succ n ih =>
    rw [shortestFrom]
    cases h : x.atScale (n + 1 - 1074) with
    | none => exact ih
    | some c => exact of_decide_eq_true (stands_of_atScale h)

/-- The shortest decimal is rounded to the number. -/
theorem ofDecimal_shortest (x : Finite) :
    ofDecimal x.negative x.shortest.1 x.shortest.2 = .finite x := by
  rw [shortest]
  split_ifs with h
  · obtain ⟨negative, m, s, hm, hs, hnormal⟩ := x
    obtain rfl : m = 0 := h
    obtain rfl : s = 0 := by
      rcases hnormal with h | h
      · omega
      · exact h
    rw [ofDecimal_zero, ofParts, dif_pos (by norm_num)]
  · exact ofDecimal_shortestFrom x 1382

/-- Only zero is written without a digit other than zero. -/
theorem shortest_zero {x : Finite} (h : x.shortest.1 = 0) : x.shortest = (0, 0) := by
  rw [shortest] at h ⊢
  split_ifs at h ⊢ with hm
  · rfl
  · have hx := ofDecimal_shortestFrom x 1382
    rw [h, ofDecimal_zero, ofParts, dif_pos (by norm_num)] at hx
    have hmantissa := congrArg Finite.mantissa (Float64.finite.inj hx)
    exact absurd hmantissa.symm hm

end Finite

end ExecutionEngine.Binary64
