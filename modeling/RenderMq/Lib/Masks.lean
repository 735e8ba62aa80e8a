import Mathlib.Data.Int.Bitwise
import Mathlib.Tactic.Positivity
import Mathlib.Tactic.Ring

/-!
# Masks of integers

The bits of an integer of any width, negative or not. The mask `2 ^ n - 1` keeps a remainder
(`land_low`), its complement what the remainder is taken off (`land_high`), and two fields that do not
overlap are joined by adding them (`lor_fields`).
-/

namespace Masks

theorem bit_false (v : Int) : Int.bit false v = 2 * v := rfl

theorem bit_true (v : Int) : Int.bit true v = 2 * v + 1 := rfl

theorem land_zero (v : Int) : Int.land v 0 = 0 := by
  cases v with
  | ofNat m => exact congrArg Int.ofNat (Nat.and_zero m)
  | negSucc m => exact congrArg Int.ofNat (Nat.bitwise_zero_left m)

theorem ldiff_zero (m : Nat) : Nat.ldiff m 0 = m := by
  rw [Nat.ldiff, Nat.bitwise_zero_right]
  rfl

theorem land_all (v : Int) : Int.land v (Int.lnot 0) = v := by
  cases v with
  | ofNat m => exact congrArg Int.ofNat (ldiff_zero m)
  | negSucc m => exact congrArg Int.negSucc (Nat.or_zero m)

theorem lor_zero (v : Int) : Int.lor v 0 = v := by
  cases v with
  | ofNat m => exact congrArg Int.ofNat (Nat.or_zero m)
  | negSucc m => exact congrArg Int.negSucc (ldiff_zero m)

theorem low_succ (n : Nat) : (2 : Int) ^ (n + 1) - 1 = Int.bit true (2 ^ n - 1) := by
  rw [bit_true, pow_succ]
  ring

theorem bit_emod (b : Bool) (v : Int) (n : Nat) :
    Int.bit b v % 2 ^ (n + 1) = Int.bit b (v % 2 ^ n) := by
  have hpos : (0 : Int) < 2 ^ n := by positivity
  have hbit : (0 : Int) ≤ cond b 1 0 ∧ cond b (1 : Int) 0 < 2 := by cases b <;> decide
  have hlow := Int.emod_nonneg v hpos.ne'
  have hhigh := Int.emod_lt_of_pos v hpos
  have hwhole : Int.bit b v = Int.bit b (v % 2 ^ n) + 2 * 2 ^ n * (v / 2 ^ n) := by
    rw [Int.bit_val, Int.bit_val]
    calc 2 * v + cond b 1 0
        = 2 * (2 ^ n * (v / 2 ^ n) + v % 2 ^ n) + cond b 1 0 := by rw [Int.mul_ediv_add_emod]
      _ = 2 * (v % 2 ^ n) + cond b 1 0 + 2 * 2 ^ n * (v / 2 ^ n) := by ring
  rw [hwhole, pow_succ', Int.add_mul_emod_self_left, Int.bit_val]
  exact Int.emod_eq_of_lt (by omega) (by omega)

/-- **The low mask keeps the remainder.** -/
theorem land_low (n : Nat) (v : Int) : Int.land v (2 ^ n - 1) = v % 2 ^ n := by
  induction n generalizing v with
  | zero => rw [pow_zero, Int.sub_self, land_zero, Int.emod_one]
  | succ n ih => rw [← Int.bit_decomp v, low_succ, Int.land_bit, ih, Bool.and_true, bit_emod]

/-- **Its complement keeps the rest.** -/
theorem land_high (n : Nat) (v : Int) :
    Int.land v (Int.lnot (2 ^ n - 1)) = v - v % 2 ^ n := by
  induction n generalizing v with
  | zero => rw [pow_zero, Int.sub_self, land_all, Int.emod_one, Int.sub_zero]
  | succ n ih =>
    rw [← Int.bit_decomp v, low_succ, Int.lnot_bit, Int.land_bit, ih, bit_emod, Bool.not_true,
      Bool.and_false, bit_false, Int.bit_val, Int.bit_val]
    ring

/-- **Fields that do not overlap are added.** -/
theorem lor_fields {n : Nat} {low : Int} (high : Int) (h0 : 0 ≤ low) (hlow : low < 2 ^ n) :
    Int.lor (high * 2 ^ n) low = high * 2 ^ n + low := by
  induction n generalizing low with
  | zero =>
    obtain rfl : low = 0 := by omega
    rw [lor_zero, Int.add_zero]
  | succ n ih =>
    have hshift : high * 2 ^ (n + 1) = Int.bit false (high * 2 ^ n) := by
      rw [bit_false, pow_succ]
      ring
    have hbit := Int.bit_decomp low
    rw [Int.bit_val] at hbit
    have hone : (0 : Int) ≤ cond low.bodd 1 0 ∧ cond low.bodd (1 : Int) 0 < 2 := by
      cases low.bodd <;> decide
    rw [pow_succ'] at hlow
    have hrest : Int.lor (high * 2 ^ n) low.div2 = high * 2 ^ n + low.div2 :=
      ih (by omega) (by omega)
    rw [← Int.bit_decomp low, hshift, Int.lor_bit, hrest, Bool.false_or, bit_false, Int.bit_val,
      Int.bit_val]
    ring

end Masks
