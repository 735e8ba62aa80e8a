import Mathlib.Data.BitVec
import Mathlib.Tactic.Ring

/-!
# Stirring the bits of a word

A word of `n` bits is stirred by two shifts of itself, one to the right and one to the left
(`stir a b`). What a word loses in this is said bit by bit (`stir_eq_stir_iff`): two words become one
when they differ in just the bits in which their shifts taken together differ.

Of two words with one stir, a bit on which they agree tells of the bits that are shifted to it, and
the other way round. So where enough of the low bits are known, nothing is lost: of ones by
`eq_of_low_true`, of zeros by `eq_of_low_false` and `eq_of_low_false_far`. A product loses nothing
by a factor that has an inverse (`mul_injective`), and keeps the low bits that are zeros (`Low.mul`).
-/

namespace Stir

variable {n : Nat}

/-- The word with two shifts of it added bit by bit. -/
def stir (a b : Nat) (x : BitVec n) : BitVec n := x ^^^ (x >>> a ||| x <<< b)

/-- The bit of the two shifts taken together. -/
def shifted (a b : Nat) (x : BitVec n) (i : Nat) : Bool :=
  x.getLsbD (i + a) || (decide (b ≤ i) && x.getLsbD (i - b))

theorem getLsbD_stir (a b : Nat) (x : BitVec n) {i : Nat} (hi : i < n) :
    (stir a b x).getLsbD i = (x.getLsbD i ^^ shifted a b x i) := by
  rw [stir, shifted, BitVec.getLsbD_xor, BitVec.getLsbD_or, BitVec.getLsbD_ushiftRight,
    BitVec.getLsbD_shiftLeft, decide_eq_true hi, Bool.true_and, Nat.add_comm a i]
  by_cases hb : b ≤ i
  · rw [decide_eq_true hb, decide_eq_false (Nat.not_lt.mpr hb), Bool.not_false]
  · rw [decide_eq_false hb, decide_eq_true (Nat.not_le.mp hb), Bool.not_true]

/-- Four bits, of which two and two are compared. -/
theorem xor_eq_xor_iff (p q r s : Bool) : (p ^^ q) = (r ^^ s) ↔ (p ^^ r) = (q ^^ s) := by
  cases p <;> cases q <;> cases r <;> cases s <;> decide

/-- **What is lost.** -/
theorem stir_eq_stir_iff (a b : Nat) (x y : BitVec n) :
    stir a b x = stir a b y ↔ ∀ i < n,
      (x.getLsbD i ^^ y.getLsbD i) = (shifted a b x i ^^ shifted a b y i) := by
  constructor
  · intro h i hi
    rw [← xor_eq_xor_iff, ← getLsbD_stir a b x hi, ← getLsbD_stir a b y hi, h]
  · intro h
    apply BitVec.eq_of_getLsbD_eq
    intro i hi
    rw [getLsbD_stir a b x hi, getLsbD_stir a b y hi, xor_eq_xor_iff]
    exact h i hi

/-! ## Words of which the low bits are known -/

/-- The low bits of a word are all alike. -/
def Low (m : Nat) (v : Bool) (x : BitVec n) : Prop := ∀ i < m, x.getLsbD i = v

theorem Low.mono {m k : Nat} {v : Bool} {x : BitVec n} (h : Low m v x) (hk : k ≤ m) : Low k v x :=
  fun i hi => h i (by omega)

theorem low_false_iff {m : Nat} {x : BitVec n} : Low m false x ↔ x.setWidth m = 0#m := by
  constructor
  · intro h
    apply BitVec.eq_of_getLsbD_eq
    intro i hi
    rw [BitVec.getLsbD_setWidth, h i hi, Bool.and_false, BitVec.getLsbD_zero]
  · intro h i hi
    have hbit := congrArg (fun w => w.getLsbD i) h
    simpa [hi] using hbit

theorem low_true_of_setWidth {m : Nat} {x : BitVec n} (h : x.setWidth m = BitVec.allOnes m) :
    Low m true x := by
  intro i hi
  have hbit := congrArg (fun w => w.getLsbD i) h
  simpa [hi] using hbit

/-- A multiple keeps the zeros. -/
theorem Low.mul {m : Nat} {x : BitVec n} (h : Low m false x) (hm : m ≤ n) (c : BitVec n) :
    Low m false (x * c) := by
  rw [low_false_iff] at h ⊢
  rw [BitVec.setWidth_mul x c hm, h, BitVec.zero_mul]

section OneStir

variable {a b m : Nat} {x y : BitVec n}

/-- Where the shifts agree, the words do. -/
theorem bit_of_shifted (h : stir a b x = stir a b y) {i : Nat} (hi : i < n)
    (hshifted : shifted a b x i = shifted a b y i) : x.getLsbD i = y.getLsbD i := by
  have hbit := (stir_eq_stir_iff a b x y).mp h i hi
  rw [hshifted, Bool.xor_self] at hbit
  exact bne_eq_false_iff_eq.mp hbit

/-- Where the words agree, the shifts do. -/
theorem shifted_of_bit (h : stir a b x = stir a b y) {i : Nat} (hi : i < n)
    (hbit : x.getLsbD i = y.getLsbD i) : shifted a b x i = shifted a b y i := by
  have hshifted := (stir_eq_stir_iff a b x y).mp h i hi
  rw [hbit, Bool.xor_self] at hshifted
  exact bne_eq_false_iff_eq.mp hshifted.symm

/-- A bit that is shifted to the right, to where the words agree and no other bit is shifted. -/
theorem bit_of_right (h : stir a b x = stir a b y) {i : Nat} (hi : i < n)
    (hbit : x.getLsbD i = y.getLsbD i) (hx : b ≤ i → x.getLsbD (i - b) = false)
    (hy : b ≤ i → y.getLsbD (i - b) = false) : x.getLsbD (i + a) = y.getLsbD (i + a) := by
  have hshifted := shifted_of_bit h hi hbit
  unfold shifted at hshifted
  by_cases hb : b ≤ i
  · simpa [hb, hx hb, hy hb] using hshifted
  · simpa [hb] using hshifted

/-- A bit to which only one is shifted, from the right. -/
theorem bit_of_left (h : stir a b x = stir a b y) {i : Nat} (hi : i < n) (ha : n ≤ i + a)
    (hleft : x.getLsbD (i - b) = y.getLsbD (i - b)) : x.getLsbD i = y.getLsbD i := by
  refine bit_of_shifted h hi ?_
  rw [shifted, shifted, BitVec.getLsbD_of_ge x _ ha, BitVec.getLsbD_of_ge y _ ha, hleft]

/-- Words with the same low bits are the same, if each bit above them is by those below it. -/
theorem eq_of_low {v : Bool} (hx : Low m v x) (hy : Low m v y)
    (above : ∀ i < n, m ≤ i → (∀ j < i, x.getLsbD j = y.getLsbD j) → x.getLsbD i = y.getLsbD i) :
    x = y := by
  have hbits : ∀ i, i < n → x.getLsbD i = y.getLsbD i := by
    intro i
    induction i using Nat.strong_induction_on with
    | _ i ih =>
      intro hi
      by_cases hlow : i < m
      · rw [hx i hlow, hy i hlow]
      · exact above i hi (Nat.not_lt.mp hlow) fun j hj => ih j hj (hj.trans hi)
  exact BitVec.eq_of_getLsbD_eq fun i hi => hbits i hi

/-- **Low ones.** They hide what is shifted to the bits above them, and further up only the shift to
the left is left. -/
theorem eq_of_low_true (hx : Low m true x) (hy : Low m true y) (hb : 0 < b) (hbm : b ≤ m)
    (hn : n ≤ m + a + b) (h : stir a b x = stir a b y) : x = y := by
  refine eq_of_low hx hy fun i hi hlow ih => ?_
  by_cases hnear : i < m + b
  · refine bit_of_shifted h hi ?_
    rw [shifted, shifted, hx (i - b) (by omega), hy (i - b) (by omega),
      decide_eq_true (by omega : b ≤ i), Bool.true_and, Bool.or_true, Bool.or_true]
  · exact bit_of_left h hi (by omega) (ih (i - b) (by omega))

/-- Low ones become zeros, where each has a one shifted to it. -/
theorem low_stir_of_true (hx : Low m true x) (hab : a + b ≤ m) (hm : m ≤ n) :
    Low m false (stir a b x) := by
  intro i hi
  have hshifted : shifted a b x i = true := by
    by_cases hb : b ≤ i
    · rw [shifted, hx (i - b) (by omega), decide_eq_true hb, Bool.true_and, Bool.or_true]
    · rw [shifted, hx (i + a) (by omega), Bool.true_or]
  rw [getLsbD_stir a b x (by omega), hx i hi, hshifted, Bool.xor_self]

/-- **Low zeros.** They leave it to be seen what is shifted to the right, from the bottom to the top. -/
theorem eq_of_low_false (hx : Low m false x) (hy : Low m false y) (ha : 0 < a) (ham : a ≤ m)
    (hn : n ≤ m + a + b) (h : stir a b x = stir a b y) : x = y := by
  refine eq_of_low hx hy fun i hi hlow ih => ?_
  have hright := bit_of_right h (i := i - a) (by omega) (ih (i - a) (by omega))
    (fun _ => hx _ (by omega)) (fun _ => hy _ (by omega))
  rwa [Nat.sub_add_cancel (by omega)] at hright

/-- Low zeros that have only zeros shifted to them stay. -/
theorem low_stir_of_false (hx : Low m false x) {k : Nat} (hka : k + a ≤ m) (hkb : k ≤ b) (hkn : k ≤ n) :
    Low k false (stir a b x) := by
  intro i hi
  have hb : ¬ b ≤ i := by omega
  rw [getLsbD_stir a b x (by omega), shifted, hx i (by omega), hx (i + a) (by omega),
    decide_eq_false hb]
  rfl

/-- **Low zeros and a long shift to the right.** The bits that it brings to the zeros are seen there,
then those above them by the shift to the left, and last those between. -/
theorem eq_of_low_false_far (hx : Low m false x) (hy : Low m false y) (ha : 0 < a) (hb : 0 < b)
    (hbm : b ≤ m) (hn : n ≤ m + a + a) (h : stir a b x = stir a b y) : x = y := by
  have hhigh : ∀ i, a ≤ i → i < n → x.getLsbD i = y.getLsbD i := by
    intro i
    induction i using Nat.strong_induction_on with
    | _ i ih =>
      intro hai hi
      by_cases hseen : i < a + m
      · have hright := bit_of_right h (i := i - a) (by omega)
          (by rw [hx _ (by omega), hy _ (by omega)]) (fun _ => hx _ (by omega))
          (fun _ => hy _ (by omega))
        rwa [Nat.sub_add_cancel hai] at hright
      · exact bit_of_left h hi (by omega) (ih (i - b) (by omega) (by omega) (by omega))
  refine eq_of_low hx hy fun i hi hlow ih => ?_
  refine bit_of_shifted h hi ?_
  have hright : x.getLsbD (i + a) = y.getLsbD (i + a) := by
    by_cases htop : i + a < n
    · exact hhigh _ (by omega) htop
    · rw [BitVec.getLsbD_of_ge x _ (by omega), BitVec.getLsbD_of_ge y _ (by omega)]
  rw [shifted, shifted, hright, ih (i - b) (by omega)]

end OneStir

/-- **A factor with an inverse loses nothing.** -/
theorem mul_injective {c d : BitVec n} (h : c * d = 1) :
    Function.Injective fun x : BitVec n => x * c := by
  intro x y hxy
  calc x = x * c * d := by rw [mul_assoc, h, mul_one]
    _ = y * c * d := congrArg (· * d) hxy
    _ = y := by rw [mul_assoc, h, mul_one]

/-- A word with shifts of it added is a multiple of it. -/
theorem add_shiftLeft (x : BitVec n) (k : Nat) : x + x <<< k = x * (1 + BitVec.twoPow n k) := by
  rw [BitVec.shiftLeft_eq_mul_twoPow]
  ring

end Stir
