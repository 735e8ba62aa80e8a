import Mathlib.Data.Int.Order.Basic
import Mathlib.Tactic.Ring

/-!
# Integers as doubles

An integer becomes the nearest double, and of two that are as near, the one whose significand is even.
One that is too large becomes none.

Up to `2 ^ 53` nothing changes, and what is larger does not get smaller than that. So the order with a
number in `0 … 2 ^ 53 - 1` is kept (`ofInt_le_iff`, `le_ofInt_iff`).
-/

namespace Double

/-- The unit in the last place. -/
def ulp (n : Nat) : Nat := 2 ^ (n.log2 - 52)

/-- The nearest multiple of the unit in the last place. -/
def roundNat (n : Nat) : Nat :=
  let q := n / ulp n
  let rest := 2 * (n % ulp n)
  if rest < ulp n ∨ rest = ulp n ∧ q % 2 = 0 then q * ulp n else (q + 1) * ulp n

/-- What is past the largest double by half a unit or more is rounded to this. -/
def overflow : Nat := 2 ^ 1024

def ofInt (n : Int) : Option Int :=
  if overflow ≤ roundNat n.natAbs then none else some (n.sign * roundNat n.natAbs)

theorem roundNat_of_lt {n : Nat} (h : n < 2 ^ 53) : roundNat n = n := by
  have hulp : ulp n = 1 := by
    unfold ulp
    by_cases hzero : n = 0
    · rw [hzero]
      rfl
    · have hlog : n.log2 < 53 := (Nat.log2_lt hzero).mpr h
      rw [Nat.sub_eq_zero_of_le (Nat.le_of_lt_succ hlog), Nat.pow_zero]
  unfold roundNat
  dsimp only
  rw [hulp, Nat.mod_one, if_pos (.inl Nat.one_pos), Nat.div_one, Nat.mul_one]

theorem le_roundNat {n : Nat} (h : 2 ^ 53 ≤ n) : 2 ^ 53 ≤ roundNat n := by
  have hzero : n ≠ 0 := by omega
  have hlog : 53 ≤ n.log2 := (Nat.le_log2 hzero).mpr h
  have hpow : 2 ^ 52 * ulp n = 2 ^ n.log2 := by
    unfold ulp
    rw [← Nat.pow_add, Nat.add_sub_cancel' (Nat.le_of_succ_le hlog)]
  have hulp : 2 ≤ ulp n := Nat.le_self_pow (by omega) 2
  have hq : 2 ^ 52 ≤ n / ulp n := by
    refine (Nat.le_div_iff_mul_le (by omega)).mpr ?_
    rw [hpow]
    exact Nat.log2_self_le hzero
  have hdown : 2 ^ 53 ≤ n / ulp n * ulp n := Nat.mul_le_mul hq hulp
  have hup : 2 ^ 53 ≤ (n / ulp n + 1) * ulp n := Nat.mul_le_mul (Nat.le_succ_of_le hq) hulp
  unfold roundNat
  dsimp only
  split
  · exact hdown
  · exact hup

variable {n v r : Int}

theorem ofInt_eq (h : ofInt n = some v) : v = n.sign * roundNat n.natAbs := by
  unfold ofInt at h
  split at h
  · cases h
  · exact (Option.some.inj h).symm

/-- An integer is kept, or stays large on its side of zero. -/
theorem ofInt_cases (hv : ofInt n = some v) : v = n ∨ 2 ^ 53 ≤ n ∧ 2 ^ 53 ≤ v ∨ n ≤ -2 ^ 53 ∧ v ≤ -2 ^ 53 := by
  rw [ofInt_eq hv]
  by_cases h : n.natAbs < 2 ^ 53
  · left
    rw [roundNat_of_lt h, Int.sign_mul_natAbs]
  · right
    have hround := le_roundNat (Nat.le_of_not_lt h)
    rcases Int.lt_trichotomy n 0 with hneg | hzero | hpos
    · rw [Int.sign_eq_neg_one_of_neg hneg]
      omega
    · omega
    · rw [Int.sign_eq_one_of_pos hpos]
      omega

theorem ofInt_le_iff (hv : ofInt n = some v) (hr : 0 ≤ r) (hlt : r < 2 ^ 53) : v ≤ r ↔ n ≤ r := by
  rcases ofInt_cases hv with hkept | hlarge | hlarge
  · rw [hkept]
  · omega
  · omega

theorem le_ofInt_iff (hv : ofInt n = some v) (hr : 0 ≤ r) (hlt : r < 2 ^ 53) : r ≤ v ↔ r ≤ n := by
  rcases ofInt_cases hv with hkept | hlarge | hlarge
  · rw [hkept]
  · omega
  · omega

end Double
