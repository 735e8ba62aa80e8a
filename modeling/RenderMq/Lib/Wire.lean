import Mathlib.Algebra.Ring.Nat
import Mathlib.Data.List.Basic

/-!
# Numbers and strings in a packet

A number takes a fixed number of bytes, the most significant first. A Pascal string takes a fixed
number of bytes too: its length in the first, then the string, cut to what is left, then zeros.

Both are read back as they were written, the number up to its width and the string up to its cut
(`ofBigEndian_bigEndian`, `ofPascal_pascal`).
-/

namespace Wire

/-- A number in `width` bytes. -/
def bigEndian : Nat → Nat → List UInt8
  | 0, _ => []
  | width + 1, n => bigEndian width (n / 2 ^ 8) ++ [UInt8.ofNat n]

def ofBigEndian (b : List UInt8) : Nat := b.foldl (fun n byte => 2 ^ 8 * n + byte.toNat) 0

/-- A string in `width` bytes. -/
def pascal (width : Nat) (s : List UInt8) : List UInt8 :=
  UInt8.ofNat (s.take (width - 1)).length ::
    (s.take (width - 1) ++ List.replicate (width - 1 - (s.take (width - 1)).length) 0)

/-- A length past the end reads as the length of what is there. -/
def ofPascal (b : List UInt8) : List UInt8 := b.tail.take (b.headD 0).toNat

@[simp] theorem length_bigEndian (width n : Nat) : (bigEndian width n).length = width := by
  induction width generalizing n with
  | zero => rfl
  | succ width ih => rw [bigEndian, List.length_append, ih, List.length_singleton]

@[simp] theorem length_pascal {width : Nat} (hwidth : 0 < width) (s : List UInt8) :
    (pascal width s).length = width := by
  have hcut : (s.take (width - 1)).length ≤ width - 1 := List.length_take_le ..
  rw [pascal, List.length_cons, List.length_append, List.length_replicate]
  omega

theorem ofBigEndian_bigEndian (width n : Nat) :
    ofBigEndian (bigEndian width n) = n % 2 ^ (8 * width) := by
  induction width generalizing n with
  | zero => exact (Nat.mod_one n).symm
  | succ width ih =>
    have hlast : (UInt8.ofNat n).toNat = n % 2 ^ 8 := UInt8.toNat_ofNat'
    calc ofBigEndian (bigEndian (width + 1) n)
        = 2 ^ 8 * ofBigEndian (bigEndian width (n / 2 ^ 8)) + (UInt8.ofNat n).toNat := by
          rw [bigEndian, ofBigEndian, List.foldl_append]
          rfl
      _ = n % 2 ^ 8 + 2 ^ 8 * (n / 2 ^ 8 % 2 ^ (8 * width)) := by rw [ih, hlast, Nat.add_comm]
      _ = n % 2 ^ (8 * (width + 1)) := by
          rw [Nat.mul_succ, Nat.add_comm (8 * width), Nat.pow_add, Nat.mod_mul]

theorem ofPascal_pascal {width : Nat} (hwidth : width ≤ 2 ^ 8) (s : List UInt8) :
    ofPascal (pascal width s) = s.take (width - 1) := by
  have hlen : (UInt8.ofNat (s.take (width - 1)).length).toNat = (s.take (width - 1)).length := by
    rw [UInt8.toNat_ofNat']
    apply Nat.mod_eq_of_lt
    have hcut : (s.take (width - 1)).length ≤ width - 1 := List.length_take_le ..
    omega
  rw [ofPascal, pascal, List.headD_cons, List.tail_cons, hlen, List.take_left]

end Wire
