import Mathlib.Data.Nat.Bitwise

/-!
# Morton codes by masks and shifts

To put the bits of a number two apart, its lower and upper half are moved apart, then the halves of
each half, and so on. `Spread w k a n` says how far this has come: within `w` bits, `n` has the bits of
`a` in blocks of `2 ^ k`, with as many zeros above each block.

One step takes `Spread w (k + 1)` to `Spread w k` (`Spread.halve`), and a step of the inverse takes it
back (`Spread.join`). Each needs a mask for the blocks (`IsMask`).
-/

namespace Morton

/-- The bit that comes to stand at `p`, where blocks have `2 ^ k` bits. -/
def source (k p : Nat) : Nat := p / 2 ^ (k + 1) * 2 ^ k + p % 2 ^ k

/-- The bits of `a` stand in `n` in blocks of `2 ^ k`. -/
def Spread (w k a n : Nat) : Prop :=
  ∀ p, n.testBit p = (decide (p < w) && !p.testBit k && a.testBit (source k p))

/-- The mask with ones in the blocks. -/
def IsMask (w k m : Nat) : Prop := ∀ p, m.testBit p = (decide (p < w) && !p.testBit k)

/-- A mask is known by its bits within the width. -/
theorem isMask_of_forall_lt {w k m : Nat} (hm : m < 2 ^ w)
    (h : ∀ p < w, m.testBit p = !p.testBit k) : IsMask w k m := by
  intro p
  by_cases hp : p < w
  · rw [h p hp, decide_eq_true hp, Bool.true_and]
  · rw [decide_eq_false hp, Bool.false_and]
    exact Nat.testBit_lt_two_pow (hm.trans_le (Nat.pow_le_pow_right (by decide) (Nat.not_lt.mp hp)))

/-! ## Positions by block and place in the block -/

section Positions

variable {k l : Nat} (q : Nat)

theorem exists_position (k p : Nat) : ∃ q l, l < 2 ^ k ∧ p = q * 2 ^ k + l :=
  ⟨p / 2 ^ k, p % 2 ^ k, Nat.mod_lt _ (Nat.two_pow_pos k), (Nat.div_add_mod' ..).symm⟩

theorem position_div (hl : l < 2 ^ k) : (q * 2 ^ k + l) / 2 ^ k = q := by
  rw [Nat.add_comm, Nat.add_mul_div_right _ _ (Nat.two_pow_pos k), Nat.div_eq_of_lt hl, Nat.zero_add]

theorem position_div_succ (hl : l < 2 ^ k) : (q * 2 ^ k + l) / 2 ^ (k + 1) = q / 2 := by
  rw [Nat.pow_succ, ← Nat.div_div_eq_div_mul, position_div q hl]

theorem testBit_position (hl : l < 2 ^ k) : (!(q * 2 ^ k + l).testBit k) = decide (q % 2 = 0) := by
  rw [Nat.testBit_eq_decide_div_mod_eq, position_div q hl]
  rcases Nat.mod_two_eq_zero_or_one q with h | h <;> simp [h]

theorem testBit_position_succ (hl : l < 2 ^ k) :
    (!(q * 2 ^ k + l).testBit (k + 1)) = decide (q / 2 % 2 = 0) := by
  rw [Nat.testBit_eq_decide_div_mod_eq, position_div_succ q hl]
  rcases Nat.mod_two_eq_zero_or_one (q / 2) with h | h <;> simp [h]

theorem source_position (hl : l < 2 ^ k) : source k (q * 2 ^ k + l) = q / 2 * 2 ^ k + l := by
  rw [source, position_div_succ q hl, Nat.mul_add_mod', Nat.mod_eq_of_lt hl]

theorem source_position_succ (hl : l < 2 ^ k) :
    source (k + 1) (q * 2 ^ k + l) = (q / 4 * 2 + q % 2) * 2 ^ k + l := by
  have hdiv : (q * 2 ^ k + l) / 2 ^ (k + 1 + 1) = q / 4 := by
    rw [Nat.pow_succ, ← Nat.div_div_eq_div_mul, position_div_succ q hl, Nat.div_div_eq_div_mul]
  have hmod : (q * 2 ^ k + l) % 2 ^ (k + 1) = l + 2 ^ k * (q % 2) := by
    rw [Nat.mod_pow_succ, position_div q hl, Nat.mul_add_mod', Nat.mod_eq_of_lt hl]
  rw [source, hdiv, hmod, Nat.pow_succ, Nat.add_mul, Nat.mul_assoc, Nat.mul_comm (2 ^ k) 2,
    Nat.mul_comm (2 ^ k) (q % 2)]
  omega

end Positions

/-! ## The steps -/

namespace Spread

variable {w k a n m : Nat}

theorem unique {n' : Nat} (h : Spread w k a n) (h' : Spread w k a n') : n = n' :=
  Nat.eq_of_testBit_eq fun p => (h p).trans (h' p).symm

theorem at_position (h : Spread w k a n) (q : Nat) {l : Nat} (hl : l < 2 ^ k) :
    n.testBit (q * 2 ^ k + l) =
      (decide (q * 2 ^ k + l < w) && decide (q % 2 = 0) && a.testBit (q / 2 * 2 ^ k + l)) := by
  rw [h, testBit_position q hl, source_position q hl]

theorem at_position_succ (h : Spread w (k + 1) a n) (q : Nat) {l : Nat} (hl : l < 2 ^ k) :
    n.testBit (q * 2 ^ k + l) =
      (decide (q * 2 ^ k + l < w) && decide (q / 2 % 2 = 0) &&
        a.testBit ((q / 4 * 2 + q % 2) * 2 ^ k + l)) := by
  rw [h, testBit_position_succ q hl, source_position_succ q hl]

/-- The upper half of each block moves up. -/
theorem halve (h : Spread w (k + 1) a n) (hmask : IsMask w k m) :
    Spread w k a ((n ||| n <<< 2 ^ k) &&& m) := by
  intro p
  obtain ⟨q, l, hl, rfl⟩ := exists_position k p
  rw [Nat.testBit_and, Nat.testBit_or, Nat.testBit_shiftLeft, hmask, testBit_position q hl,
    source_position q hl, h.at_position_succ q hl]
  by_cases hp : q * 2 ^ k + l < w ∧ q % 2 = 0
  · obtain ⟨hp, hq⟩ := hp
    simp only [hp, hq, decide_true, Bool.true_and, Bool.and_true]
    cases q with
    | zero => simp [Nat.not_le.mpr hl]
    | succ q =>
      -- the bit comes from here or from the block below, whichever is in use
      have hge : 2 ^ k ≤ (q + 1) * 2 ^ k + l := by
        rw [Nat.add_one_mul]
        omega
      have hback : (q + 1) * 2 ^ k + l - 2 ^ k = q * 2 ^ k + l := by
        rw [Nat.add_one_mul]
        omega
      have hlt : q * 2 ^ k + l < w := by omega
      rw [hback, h.at_position_succ q hl]
      by_cases hhalf : q / 2 % 2 = 0
      · have hup : ¬ (q + 1) / 2 % 2 = 0 := by omega
        have hsame : q / 4 * 2 + q % 2 = (q + 1) / 2 := by omega
        simp [hhalf, hup, hge, hlt, hsame]
      · have hup : (q + 1) / 2 % 2 = 0 := by omega
        have hsame : (q + 1) / 4 * 2 = (q + 1) / 2 := by omega
        simp [hhalf, hup, hsame]
  · rcases Decidable.not_and_iff_not_or_not.mp hp with hp | hq
    · simp [hp]
    · simp [hq]

/-- The upper half of each block moves back. -/
theorem join (h : Spread w k a n) (hmask : IsMask w (k + 1) m) (hw : 2 ^ (k + 2) ∣ w) :
    Spread w (k + 1) a ((n ^^^ n >>> 2 ^ k) &&& m) := by
  intro p
  obtain ⟨q, l, hl, rfl⟩ := exists_position k p
  have hnext : 2 ^ k + (q * 2 ^ k + l) = (q + 1) * 2 ^ k + l := by
    rw [Nat.add_one_mul]
    omega
  rw [Nat.testBit_and, Nat.testBit_xor, Nat.testBit_shiftRight, hmask, testBit_position_succ q hl,
    source_position_succ q hl, h.at_position q hl, hnext, h.at_position (q + 1) hl]
  by_cases hp : q * 2 ^ k + l < w ∧ q / 2 % 2 = 0
  · obtain ⟨hp, hhalf⟩ := hp
    simp only [hp, hhalf, decide_true, Bool.true_and, Bool.and_true]
    rcases Nat.mod_two_eq_zero_or_one q with hq | hq
    · have hnot : ¬ (q + 1) % 2 = 0 := by omega
      have hsame : q / 4 * 2 = q / 2 := by omega
      simp [hq, hnot, hsame]
    · have heven : (q + 1) % 2 = 0 := by omega
      have hsame : q / 4 * 2 + 1 = (q + 1) / 2 := by omega
      -- the width ends with a whole block, so the next block is within it
      have hlt : (q + 1) * 2 ^ k + l < w := by
        obtain ⟨c, rfl⟩ := hw
        have hwidth : 2 ^ (k + 2) * c = 4 * c * 2 ^ k := by
          rw [Nat.pow_add]
          simp [Nat.mul_comm, Nat.mul_left_comm]
        rw [hwidth] at hp ⊢
        have hq4 : q < 4 * c := by
          by_contra hge
          have := Nat.mul_le_mul_right (2 ^ k) (Nat.not_lt.mp hge)
          omega
        have := Nat.mul_le_mul_right (2 ^ k) (show q + 2 ≤ 4 * c by omega)
        rw [Nat.add_mul] at this
        rw [Nat.add_one_mul]
        omega
      simp [hq, heven, hlt, hsame]
  · rcases Decidable.not_and_iff_not_or_not.mp hp with hp | hhalf
    · simp [hp]
    · simp [hhalf]

/-- The mask takes nothing away. -/
theorem mask (h : Spread w k a n) (hmask : IsMask w k m) : Spread w k a (n &&& m) := by
  intro p
  rw [Nat.testBit_and, h, hmask, Bool.and_right_comm, Bool.and_self]

/-- One block of half the width is the number itself. -/
theorem block (k a : Nat) : Spread (2 ^ (k + 1)) k a (a % 2 ^ 2 ^ k) := by
  intro p
  obtain ⟨q, l, hl, rfl⟩ := exists_position k p
  rw [Nat.testBit_mod_two_pow, testBit_position q hl, source_position q hl, Nat.pow_succ]
  match q with
  | 0 =>
    have hlt : l < 2 ^ k * 2 := by omega
    simp [hl, hlt]
  | 1 => simp
  | q + 2 =>
    have hge : 2 ^ k * 2 ≤ (q + 2) * 2 ^ k := by
      rw [Nat.mul_comm]
      exact Nat.mul_le_mul_right _ (by omega)
    have hout : ¬ (q + 2) * 2 ^ k + l < 2 ^ k := by omega
    have hout' : ¬ (q + 2) * 2 ^ k + l < 2 ^ k * 2 := by omega
    simp [hout, hout']

/-- Apart by two, the bits stand at the even positions. -/
theorem testBit (h : Spread w 0 a n) (p : Nat) :
    n.testBit p = (decide (p < w) && decide (p % 2 = 0) && a.testBit (p / 2)) := by
  have := h.at_position p (show 0 < 2 ^ 0 by decide)
  simpa using this

end Spread

/-! ## Codes -/

section Code

variable {w x y a b : Nat}

theorem testBit_above {v n i : Nat} (hn : n < 2 ^ v) (hi : v ≤ i) : n.testBit i = false :=
  Nat.testBit_lt_two_pow (hn.trans_le (Nat.pow_le_pow_right (by decide) hi))

/-- The code of two numbers has the bits of the one at the odd positions, and of the other at the even
ones. -/
theorem testBit_code (hx : Spread w 0 x a) (hy : Spread w 0 y b) {p : Nat} (hp : p + 1 < w) :
    (a <<< 1 ||| b).testBit p = if p % 2 = 0 then y.testBit (p / 2) else x.testBit (p / 2) := by
  rw [Nat.testBit_or, Nat.testBit_shiftLeft, hx.testBit, hy.testBit]
  have hlt : p < w := by omega
  have hlt' : p - 1 < w := by omega
  split
  · next heven =>
    have hodd : p ≥ 1 → ¬ (p - 1) % 2 = 0 := by omega
    by_cases hone : p ≥ 1
    · simp [hlt, heven, hodd hone]
    · simp [hlt, heven, hone]
  · next hodd =>
    have hone : p ≥ 1 := by omega
    have heven : (p - 1) % 2 = 0 := by omega
    have hhalf : (p - 1) / 2 = p / 2 := by omega
    simp [hlt', hodd, hone, heven, hhalf]

/-- The code tells both numbers. -/
theorem code_injective {x' y' a' b' v : Nat} (hx : Spread w 0 x a) (hy : Spread w 0 y b)
    (hx' : Spread w 0 x' a') (hy' : Spread w 0 y' b') (hv : 2 * v < w)
    (hlt : x < 2 ^ v ∧ y < 2 ^ v) (hlt' : x' < 2 ^ v ∧ y' < 2 ^ v)
    (h : a <<< 1 ||| b = a' <<< 1 ||| b') : x = x' ∧ y = y' := by
  have hbits : ∀ p, p + 1 < w → (if p % 2 = 0 then y.testBit (p / 2) else x.testBit (p / 2)) =
      if p % 2 = 0 then y'.testBit (p / 2) else x'.testBit (p / 2) := by
    intro p hp
    rw [← testBit_code hx hy hp, ← testBit_code hx' hy' hp, h]
  constructor
  · refine Nat.eq_of_testBit_eq fun i => ?_
    by_cases hi : i < v
    · have := hbits (2 * i + 1) (by omega)
      rwa [if_neg (by omega), if_neg (by omega), show (2 * i + 1) / 2 = i by omega] at this
    · rw [testBit_above hlt.1 (by omega), testBit_above hlt'.1 (by omega)]
  · refine Nat.eq_of_testBit_eq fun i => ?_
    by_cases hi : i < v
    · have := hbits (2 * i) (by omega)
      rwa [if_pos (by omega), if_pos (by omega), show 2 * i / 2 = i by omega] at this
    · rw [testBit_above hlt.2 (by omega), testBit_above hlt'.2 (by omega)]

/-- The code of numbers of `v` bits has `2 * v` bits. -/
theorem code_lt {v : Nat} (hx : Spread w 0 x a) (hy : Spread w 0 y b) (hlt : x < 2 ^ v)
    (hlt' : y < 2 ^ v) : a <<< 1 ||| b < 2 ^ (2 * v) := by
  refine Nat.lt_pow_two_of_testBit _ fun p hp => ?_
  rw [Nat.testBit_or, Nat.testBit_shiftLeft, hx.testBit, hy.testBit, testBit_above hlt' (by omega)]
  by_cases hodd : (p - 1) % 2 = 0
  · by_cases hone : p ≥ 1
    · rw [testBit_above hlt (by omega)]
      simp
    · simp [hone]
  · simp [hodd]

end Code

end Morton
