import Mathlib.Data.Rat.Floor
import Reckon.Operator

/-!
Exact arithmetic. The operators are read over the unbounded integers, quotients and powers being
rational numbers cut off toward zero. Main statement: a checked operator gives the exact result
when that is in range, and otherwise the fault of leaving the range or of dividing by zero.
-/

set_option autoImplicit false

namespace Reckon

def truncate (q : ℚ) : Int := if 0 ≤ q then ⌊q⌋ else ⌈q⌉

theorem truncate_intCast (n : Int) : truncate (n : ℚ) = n := by
  unfold truncate
  split
  · exact Int.floor_intCast n
  · exact Int.ceil_intCast n

theorem truncate_eq_zero {q : ℚ} (h : |q| < 1) : truncate q = 0 := by
  obtain ⟨hl, hu⟩ := abs_lt.mp h
  unfold truncate
  split
  · next hq => exact Int.floor_eq_zero_iff.mpr ⟨hq, hu⟩
  · next hq => exact Int.ceil_eq_zero_iff.mpr ⟨hl, by linarith⟩

theorem truncate_neg (q : ℚ) : truncate (-q) = -truncate q := by
  rcases lt_trichotomy q 0 with hq | hq | hq
  · have h₁ : 0 ≤ -q := by linarith
    have h₂ : ¬ 0 ≤ q := by linarith
    simp [truncate, h₁, h₂, Int.floor_neg]
  · simp [truncate, hq]
  · have h₁ : ¬ 0 ≤ -q := by linarith
    have h₂ : 0 ≤ q := by linarith
    simp [truncate, h₁, h₂, Int.ceil_neg]

theorem truncate_div_natCast (a : Int) (d : Nat) : truncate ((a : ℚ) / d) = a.tdiv d := by
  have hnonneg : ∀ n : Int, 0 ≤ n → truncate ((n : ℚ) / d) = n.tdiv d := by
    intro n hn
    have hq : (0 : ℚ) ≤ (n : ℚ) / d := div_nonneg (by exact_mod_cast hn) (Nat.cast_nonneg d)
    rw [truncate, if_pos hq, Rat.floor_intCast_div_natCast, Int.tdiv_eq_ediv_of_nonneg hn]
  rcases Int.le_total 0 a with ha | ha
  · exact hnonneg a ha
  · have h := hnonneg (-a) (by omega)
    rw [Int.neg_tdiv, Int.cast_neg, neg_div, truncate_neg] at h
    omega

theorem truncate_div (a b : Int) : truncate ((a : ℚ) / b) = a.tdiv b := by
  rcases Int.eq_nat_or_neg b with ⟨d, hd | hd⟩
  · rw [hd]
    exact truncate_div_natCast a d
  · have h := truncate_div_natCast (-a) d
    rw [hd, ← Int.neg_tdiv_neg, neg_neg, ← h]
    congr 1
    push_cast
    rw [div_neg, neg_div]

/-- What an operator gives over the unbounded integers; nothing when it would divide by zero. -/
def Operator.exact : Operator → Int → Int → Option Int
  | add, a, b => some (a + b)
  | subtract, a, b => some (a - b)
  | multiply, a, b => some (a * b)
  | divide, a, b => if b = 0 then none else some (truncate ((a : ℚ) / b))
  | power, a, b => if a = 0 ∧ b < 0 then none else some (truncate ((a : ℚ) ^ b))
  | compare .less, a, b => some (if a < b then 1 else 0)
  | compare .greater, a, b => some (if b < a then 1 else 0)
  | compare .lessEqual, a, b => some (if a ≤ b then 1 else 0)
  | compare .greaterEqual, a, b => some (if b ≤ a then 1 else 0)
  | compare .equal, a, b => some (if a = b then 1 else 0)
  | compare .notEqual, a, b => some (if a = b then 0 else 1)

/-- An exact result as a value: it has to be there and in range. -/
def bounded : Option Int → Except Fault Int
  | none => .error .divisionByZero
  | some n => if Arithmetic.InRange n then .ok n else .error .overflow

theorem checked_eq_bounded (n : Int) : Arithmetic.checked n = bounded (some n) := rfl

theorem inRange_of_natAbs_le_one {n : Int} (h : n.natAbs ≤ 1) : Arithmetic.InRange n := by
  simp only [Arithmetic.InRange, Arithmetic.least, Arithmetic.greatest]
  omega

theorem bounded_of_natAbs_le_one {n : Int} (h : n.natAbs ≤ 1) : bounded (some n) = .ok n :=
  if_pos (inRange_of_natAbs_le_one h)

theorem not_inRange_pow {b : Int} {n : Nat} (hb : 2 ≤ b.natAbs) (hn : 64 ≤ n) :
    ¬ Arithmetic.InRange (b ^ n) := by
  have hp : 2 ^ 64 ≤ (b ^ n).natAbs := by
    calc 2 ^ 64 ≤ 2 ^ n := Nat.pow_le_pow_right (by decide) hn
      _ ≤ b.natAbs ^ n := Nat.pow_le_pow_left hb n
      _ = (b ^ n).natAbs := (Int.natAbs_pow b n).symm
  simp only [Arithmetic.InRange, Arithmetic.least, Arithmetic.greatest]
  omega

theorem zpow_of_nonneg {b e : Int} (he : 0 ≤ e) : (b : ℚ) ^ e = ((b ^ e.toNat : Int) : ℚ) := by
  obtain ⟨n, rfl⟩ := Int.eq_ofNat_of_zero_le he
  simp

theorem neg_one_zpow (e : Int) : (((-1 : Int) : ℚ)) ^ e = (Arithmetic.signPower e : ℚ) := by
  unfold Arithmetic.signPower
  split
  · next h =>
    have he : Even e := Int.even_iff.mpr h
    simp [he.neg_one_zpow]
  · next h =>
    have ho : Odd e := Int.odd_iff.mpr (by omega)
    simp [ho.neg_one_zpow]

theorem abs_zpow_lt_one {b e : Int} (hb : 2 ≤ b.natAbs) (he : e < 0) : |(b : ℚ) ^ e| < 1 := by
  have hb' : (1 : ℚ) < |(b : ℚ)| := by
    have h : (1 : Int) < |b| := by rw [Int.abs_eq_natAbs]; omega
    exact_mod_cast h
  have ha : |(b : ℚ) ^ e| = |(b : ℚ)| ^ e := map_zpow₀ absHom (b : ℚ) e
  rw [ha]
  exact zpow_lt_one_of_neg₀ hb' he

theorem power_eq_exact (b e : Int) : Arithmetic.power b e = bounded (Operator.power.exact b e) := by
  have hx : Operator.power.exact b e =
      if b = 0 ∧ e < 0 then none else some (truncate ((b : ℚ) ^ e)) := rfl
  rw [hx, Arithmetic.power]
  by_cases h₀ : b = 0
  · subst b
    rcases lt_trichotomy e 0 with he | he | he
    · simp [he, bounded]
    · subst e
      have h := bounded_of_natAbs_le_one (n := 1) (by decide)
      simpa [truncate] using h.symm
    · have h := bounded_of_natAbs_le_one (n := 0) (by decide)
      have hn : ¬ e < 0 := by omega
      have hz : e ≠ 0 := by omega
      simpa [truncate, zero_zpow, hn, hz] using h.symm
  by_cases h₁ : b = 1
  · subst b
    have h := bounded_of_natAbs_le_one (n := 1) (by decide)
    simpa [truncate] using h.symm
  by_cases h₂ : b = -1
  · subst b
    have hs : (Arithmetic.signPower e).natAbs ≤ 1 := by
      unfold Arithmetic.signPower; split <;> decide
    rw [neg_one_zpow, truncate_intCast]
    simpa using (bounded_of_natAbs_le_one hs).symm
  have hb : 2 ≤ b.natAbs := by omega
  by_cases he : e < 0
  · rw [truncate_eq_zero (abs_zpow_lt_one hb he)]
    simpa [h₀, h₁, h₂, he] using (bounded_of_natAbs_le_one (n := 0) (by decide)).symm
  · rw [zpow_of_nonneg (by omega), truncate_intCast]
    by_cases hl : e < 64
    · simp [h₀, h₁, h₂, he, hl, checked_eq_bounded]
    · have hr := not_inRange_pow hb (n := e.toNat) (by omega)
      simp [h₀, h₁, h₂, he, hl, bounded, hr]

theorem Operator.exact_compare (c : Comparison) (a b : Int) :
    (compare c).exact a b = some (if c.holds a b then 1 else 0) := by
  cases c with
  | less | greater | lessEqual | greaterEqual | equal => simp [exact, Comparison.holds]
  | notEqual =>
    by_cases h : a = b
    · simp [exact, Comparison.holds, h]
    · simp [exact, Comparison.holds, h]

/-- Checked arithmetic is exact arithmetic with its result required to be a value. -/
theorem Operator.apply_eq_exact (op : Operator) (a b : Int) :
    op.apply a b = bounded (op.exact a b) := by
  cases op with
  | add | subtract | multiply => rfl
  | divide =>
    simp only [apply, Arithmetic.divide, exact]
    by_cases hb : b = 0
    · simp [hb, bounded]
    · simp [hb, truncate_div, checked_eq_bounded]
  | power => exact power_eq_exact a b
  | compare c =>
    have h : (if c.holds a b then (1 : Int) else 0).natAbs ≤ 1 := by split <;> decide
    rw [exact_compare, bounded_of_natAbs_le_one h]
    rfl

end Reckon
