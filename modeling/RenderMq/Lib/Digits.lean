import Mathlib

/-!
# Numbers by their digits

A number is told by its digits: by as many as it has (`eq_of_digits`), or by its text (`toString_inj`).
The text of a number has no separators in it, so that numbers can be the pieces of a path.
-/

namespace Digits

/-- Numbers with the same last digits are the same up to the next one. -/
theorem emod_pow_eq_of_digits {b x y : Int} (hb : 0 < b) :
    ∀ n : Nat, (∀ i < n, x / b ^ i % b = y / b ^ i % b) → x % b ^ n = y % b ^ n := by
  intro n
  induction n with
  | zero => simp
  | succ n ih =>
    intro digits
    have hlow : x % b ^ n = y % b ^ n := ih fun i hi => digits i (Nat.lt_succ_of_lt hi)
    have hsplit (v : Int) : v % b ^ (n + 1) = v % b ^ n + b ^ n * (v / b ^ n % b) := by
      rw [Int.emod_def, Int.emod_def v, Int.emod_def (v / b ^ n), pow_succ,
        ← Int.ediv_ediv_of_nonneg (by positivity)]
      ring
    rw [hsplit x, hsplit y, hlow, digits n (Nat.lt_succ_self n)]

/-- Numbers of at most `n` digits are told by these. -/
theorem eq_of_digits {b x y : Int} (hb : 0 < b) {n : Nat} (hx : 0 ≤ x ∧ x < b ^ n)
    (hy : 0 ≤ y ∧ y < b ^ n) (digits : ∀ i < n, x / b ^ i % b = y / b ^ i % b) : x = y := by
  have hmod := emod_pow_eq_of_digits hb n digits
  rwa [Int.emod_eq_of_lt hx.1 hx.2, Int.emod_eq_of_lt hy.1 hy.2] at hmod

theorem isDigit_of_mem_repr {n : Nat} {c : Char} (h : c ∈ n.repr.toList) : c.isDigit = true := by
  rw [Nat.toList_repr] at h
  exact Nat.isDigit_of_mem_toDigits (by decide) (by decide) h

theorem repr_ne_nil (n : Nat) : n.repr.toList ≠ [] := by
  rw [Nat.toList_repr]
  exact Nat.toDigits_ne_nil

/-- The characters of a number are no separators. -/
theorem separator_not_mem_toString (n : Int) {c : Char} (hdigit : c.isDigit = false)
    (hminus : c ≠ '-') : c ∉ (toString n).toList := by
  have hnat : ∀ m : Nat, c ∉ (Nat.repr m).toList := by
    intro m hmem
    rw [isDigit_of_mem_repr hmem] at hdigit
    cases hdigit
  rw [Int.toString_eq_repr, Int.repr_eq_if]
  split
  · exact hnat _
  · rw [String.toList_append, List.mem_append, not_or]
    exact ⟨by simpa using hminus, hnat _⟩

theorem toString_inj {m n : Int} (h : (toString m).toList = (toString n).toList) : m = n := by
  refine Int.repr_injective (String.toList_injective ?_)
  rwa [Int.toString_eq_repr, Int.toString_eq_repr] at h

/-! ## Digits of a fixed number -/

/-- The last digits of a number, so many of them. -/
def padded : Nat → Nat → List Char
  | 0, _ => []
  | w + 1, n => padded w (n / 10) ++ [Nat.digitChar (n % 10)]

theorem length_padded (w n : Nat) : (padded w n).length = w := by
  induction w generalizing n with
  | zero => rfl
  | succ w ih => rw [padded, List.length_append, ih, List.length_singleton]

theorem isDigit_of_mem_padded {w n : Nat} {c : Char} (h : c ∈ padded w n) : c.isDigit = true := by
  induction w generalizing n with
  | zero => cases h
  | succ w ih =>
    rcases List.mem_append.mp h with h | h
    · exact ih h
    · obtain rfl := List.mem_singleton.mp h
      rw [Nat.isDigit_digitChar, decide_eq_true_eq]
      exact Nat.mod_lt n (by decide)

theorem ofDigitChars_padded {w n : Nat} (h : n < 10 ^ w) : Nat.ofDigitChars 10 (padded w n) 0 = n := by
  induction w generalizing n with
  | zero => exact (Nat.lt_one_iff.mp h).symm
  | succ w ih =>
    have hlow : n / 10 < 10 ^ w := Nat.div_lt_of_lt_mul (by rwa [pow_succ'] at h)
    rw [padded, Nat.ofDigitChars_append, ih hlow,
      Nat.ofDigitChars_cons_digitChar_of_lt_ten (Nat.mod_lt n (by decide)), Nat.ofDigitChars_nil]
    exact Nat.div_add_mod n 10

/-! ## At least so many digits -/

/-- The digits of a number, with zeros before them where they are fewer than so many. -/
def zeroFilled (w n : Nat) : List Char :=
  List.replicate (w - n.repr.toList.length) '0' ++ n.repr.toList

theorem isDigit_of_mem_zeroFilled {w n : Nat} {c : Char} (h : c ∈ zeroFilled w n) :
    c.isDigit = true := by
  rcases List.mem_append.mp h with h | h
  · rw [List.eq_of_mem_replicate h]
    rfl
  · exact isDigit_of_mem_repr h

theorem zeroFilled_ne_nil (w n : Nat) : zeroFilled w n ≠ [] :=
  List.append_ne_nil_of_right_ne_nil _ (repr_ne_nil n)

theorem ofDigitChars_zeroFilled (w n : Nat) : Nat.ofDigitChars 10 (zeroFilled w n) 0 = n := by
  rw [zeroFilled, Nat.ofDigitChars_append, Nat.ofDigitChars_replicate_zero, Nat.mul_zero,
    Nat.toList_repr, Nat.ofDigitChars_ten_toDigits]

theorem zeroFilled_inj {w m n : Nat} (h : zeroFilled w m = zeroFilled w n) : m = n := by
  rw [← ofDigitChars_zeroFilled w m, h, ofDigitChars_zeroFilled]

end Digits
