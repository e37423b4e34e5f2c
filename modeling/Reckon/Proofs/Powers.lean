import Mathlib.Algebra.Order.Archimedean.Real.Basic
import Reckon.Proofs.Exact

set_option autoImplicit false

namespace Reckon

noncomputable def towardZero (x : ℝ) : Int := if 0 ≤ x then ⌊x⌋ else ⌈x⌉

theorem towardZero_ratCast (q : ℚ) : towardZero (q : ℝ) = truncate q := by
  simp only [towardZero, truncate, Rat.cast_nonneg, Rat.floor_cast, Rat.ceil_cast]

theorem towardZero_zpow (b e : Int) : towardZero ((b : ℝ) ^ e) = truncate ((b : ℚ) ^ e) := by
  rw [← towardZero_ratCast, Rat.cast_zpow, Rat.cast_intCast]

theorem signPower_eq (e : Int) : Arithmetic.signPower e = if Even e then 1 else -1 := by
  simp only [Arithmetic.signPower, Int.even_iff]

theorem truncate_zpow_of_neg {b e : Int} (hb : b ≠ 0) (he : e < 0) :
    truncate ((b : ℚ) ^ e) =
      if b = 1 then 1 else if b = -1 then if Even e then 1 else -1 else 0 := by
  by_cases h₁ : b = 1
  · subst b
    simpa using truncate_intCast 1
  by_cases h₂ : b = -1
  · subst b
    rw [neg_one_zpow, truncate_intCast, signPower_eq]
    rfl
  · have hsmall := abs_zpow_lt_one (b := b) (by omega) he
    rw [truncate_eq_zero hsmall, if_neg h₁, if_neg h₂]

namespace Arithmetic

variable {b e : Int}

theorem inRange_iff {n : Int} : InRange n ↔ -2 ^ 63 ≤ n ∧ n ≤ 2 ^ 63 - 1 := Iff.rfl

theorem power_of_nonneg (he : 0 ≤ e) :
    power b e = if InRange (b ^ e.toNat) then .ok (b ^ e.toNat) else .error .overflow := by
  have hexact : Operator.power.exact b e = some (b ^ e.toNat) := by
    rw [Operator.exact, if_neg (by omega), zpow_of_nonneg he, truncate_intCast]
  rw [power_eq_exact, hexact]
  rfl

/-- It does not matter from which exponent on powers are given up, as long as it is 64 or more. -/
theorem power_of_limit (hb : 2 ≤ b.natAbs) (he : 0 ≤ e) {limit : Int} (hl : 64 ≤ limit) :
    power b e = if e < limit then checked (b ^ e.toNat) else .error .overflow := by
  rw [power_of_nonneg he]
  split_ifs with hr hlt hlt
  · rw [checked, if_pos hr]
  · exact absurd hr (not_inRange_pow hb (by omega))
  · rw [checked, if_neg hr]
  · rfl

theorem power_of_neg (hb : b ≠ 0) (he : e < 0) : power b e = .ok (truncate ((b : ℚ) ^ e)) := by
  have hsmall : (truncate ((b : ℚ) ^ e)).natAbs ≤ 1 := by
    rw [truncate_zpow_of_neg hb he]
    split_ifs <;> decide
  rw [power_eq_exact, Operator.exact, if_neg (fun h => hb h.1), bounded_of_natAbs_le_one hsmall]

/-- Powers are exact: an integer power is given when it is in range, and is an overflow when it is
not; the real power for a negative exponent is cut off toward zero. -/
theorem power_exact (b e : Int) :
    (0 ≤ e → -2 ^ 63 ≤ b ^ e.toNat ∧ b ^ e.toNat ≤ 2 ^ 63 - 1 → power b e = .ok (b ^ e.toNat)) ∧
    (0 ≤ e → ¬ (-2 ^ 63 ≤ b ^ e.toNat ∧ b ^ e.toNat ≤ 2 ^ 63 - 1) → power b e = .error .overflow) ∧
    (2 ^ 32 ≤ e → 2 ≤ b.natAbs → power b e = .error .overflow) ∧
    (e < 0 → b = 0 → power b e = .error .divisionByZero) ∧
    (e < 0 → b ≠ 0 → power b e = .ok (towardZero ((b : ℝ) ^ e)) ∧
      towardZero ((b : ℝ) ^ e) =
        if b = 1 then 1 else if b = -1 then if Even e then 1 else -1 else 0) := by
  simp only [← inRange_iff, towardZero_zpow]
  refine ⟨?_, ?_, ?_, ?_, ?_⟩
  · intro he hr
    rw [power_of_nonneg he, if_pos hr]
  · intro he hr
    rw [power_of_nonneg he, if_neg hr]
  · intro he hb
    rw [power_of_limit hb (by omega) (by decide : (64 : Int) ≤ 2 ^ 32), if_neg (by omega)]
  · rintro he rfl
    rw [power, if_pos rfl, if_pos he]
  · intro he hb
    exact ⟨power_of_neg hb he, truncate_zpow_of_neg hb he⟩

/-- The least value is a power and its negation is not; an exponent of more than 32 bits; and
real powers. -/
theorem power_exact_ends :
    power (-2) 63 = .ok (-2 ^ 63) ∧ power 2 63 = .error .overflow ∧ power 0 0 = .ok 1 ∧
    power 3 (2 ^ 40) = .error .overflow ∧ power 0 (-1) = .error .divisionByZero ∧
    power (-1) (-3) = .ok (-1) ∧ power (-5) (-2) = .ok 0 := by
  obtain ⟨hleast, -⟩ := power_exact (-2) 63
  obtain ⟨-, hover, -⟩ := power_exact 2 63
  obtain ⟨hone, -⟩ := power_exact 0 0
  obtain ⟨-, -, hlong, -⟩ := power_exact 3 (2 ^ 40)
  obtain ⟨-, -, -, hzero, -⟩ := power_exact 0 (-1)
  obtain ⟨-, -, -, -, hsign⟩ := power_exact (-1) (-3)
  obtain ⟨-, -, -, -, hsmall⟩ := power_exact (-5) (-2)
  refine ⟨hleast (by decide) (by decide), hover (by decide) (by decide),
    hone (by decide) (by decide), hlong (by decide) (by decide), hzero (by decide) rfl, ?_, ?_⟩
  · obtain ⟨hpower, hvalue⟩ := hsign (by decide) (by decide)
    rw [hpower, hvalue]
    decide
  · obtain ⟨hpower, hvalue⟩ := hsmall (by decide) (by decide)
    rw [hpower, hvalue]
    decide

end Arithmetic

end Reckon
