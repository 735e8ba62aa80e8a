import Mathlib.Data.Nat.Bitwise
import Mathlib.Data.List.GetD

/-!
# Bits packed in bytes

A list of bytes as an array of bits, eight to a byte, the lowest bit of a byte first. Past its end a
list reads as zeros, so zeros at the end change no bit (`bitAt_append_zeros`).

`putBit` writes one bit by writing its byte. `bitAt_putBit` is the law of an array.
-/

namespace PackedBits

/-- The byte that a bit is in. -/
def byteOf (b : List UInt8) (i : Nat) : UInt8 := b.getD (i / 8) 0

/-- The bit at an index. -/
def bitAt (b : List UInt8) (i : Nat) : Bool := (byteOf b i).toBitVec.getLsbD (i % 8)

/-- The place of a bit in its byte. -/
def place (i : Nat) : UInt8 := UInt8.ofNat (1 <<< (i % 8))

/-- A bit is written with its byte. -/
def putBit (b : List UInt8) (i : Nat) (v : Bool) : List UInt8 :=
  b.set (i / 8) (if v then byteOf b i ||| place i else byteOf b i &&& ~~~place i)

@[simp] theorem length_putBit (b : List UInt8) (i : Nat) (v : Bool) :
    (putBit b i v).length = b.length :=
  List.length_set

theorem place_getLsbD {i j : Nat} (hj : j < 8) :
    (place i).toBitVec.getLsbD j = decide (i % 8 = j) := by
  have hplace : (place i).toBitVec = BitVec.ofNat 8 (1 <<< (i % 8)) := rfl
  rw [hplace, BitVec.getLsbD_ofNat, decide_eq_true hj, Bool.true_and, Nat.one_shiftLeft,
    Nat.testBit_two_pow]

/-- In a byte, the bit in its place is written and the others stay. -/
theorem written_getLsbD (byte : UInt8) (i : Nat) (v : Bool) {j : Nat} (hj : j < 8) :
    (if v then byte ||| place i else byte &&& ~~~place i).toBitVec.getLsbD j =
      if i % 8 = j then v else byte.toBitVec.getLsbD j := by
  cases v with
  | true =>
    rw [if_pos rfl, UInt8.toBitVec_or, BitVec.getLsbD_or, place_getLsbD hj]
    by_cases hij : i % 8 = j <;> simp [hij]
  | false =>
    rw [if_neg Bool.false_ne_true, UInt8.toBitVec_and, UInt8.toBitVec_not, BitVec.getLsbD_and,
      BitVec.getLsbD_not, place_getLsbD hj, decide_eq_true hj]
    by_cases hij : i % 8 = j <;> simp [hij]

theorem byteOf_putBit {b : List UInt8} {i : Nat} (hi : i < 8 * b.length) (v : Bool) (j : Nat) :
    byteOf (putBit b i v) j =
      if i / 8 = j / 8 then (if v then byteOf b i ||| place i else byteOf b i &&& ~~~place i)
      else byteOf b j := by
  have hlt : i / 8 < b.length := Nat.div_lt_of_lt_mul hi
  rw [byteOf, putBit, List.getD_eq_getElem?_getD, List.getElem?_set]
  by_cases hbyte : i / 8 = j / 8
  · rw [if_pos hbyte, if_pos hbyte, if_pos hlt, Option.getD_some]
  · rw [if_neg hbyte, if_neg hbyte, byteOf, List.getD_eq_getElem?_getD]

/-- **An array of bits.** -/
theorem bitAt_putBit {b : List UInt8} {i : Nat} (hi : i < 8 * b.length) (v : Bool) (j : Nat) :
    bitAt (putBit b i v) j = if j = i then v else bitAt b j := by
  rw [bitAt, byteOf_putBit hi]
  by_cases hbyte : i / 8 = j / 8
  · rw [if_pos hbyte, written_getLsbD _ _ _ (Nat.mod_lt j (by decide)), bitAt]
    by_cases hji : j = i
    · rw [if_pos hji, if_pos (by rw [hji])]
    · have hplace : i % 8 ≠ j % 8 := by omega
      rw [if_neg hji, if_neg hplace, byteOf, hbyte, byteOf]
  · have hji : j ≠ i := fun h => hbyte (by rw [h])
    rw [if_neg hbyte, if_neg hji, bitAt]

theorem bitAt_append_zeros (b : List UInt8) (n i : Nat) :
    bitAt (b ++ List.replicate n 0) i = bitAt b i := by
  have hbyte : byteOf (b ++ List.replicate n 0) i = byteOf b i := by
    unfold byteOf
    rcases Nat.lt_or_ge (i / 8) b.length with hlt | hge
    · rw [List.getD_append _ _ _ _ hlt]
    · rw [List.getD_append_right _ _ _ _ hge, List.getD_eq_default _ _ hge,
        List.getD_eq_getElem?_getD, List.getElem?_getD_replicate_default_eq]
  rw [bitAt, hbyte, bitAt]

theorem bitAt_of_length_le {b : List UInt8} {i : Nat} (h : 8 * b.length ≤ i) :
    bitAt b i = false := by
  have hle : b.length ≤ i / 8 := by omega
  rw [bitAt, byteOf, List.getD_eq_default _ _ hle]
  exact BitVec.getLsbD_zero

theorem bitAt_nil (i : Nat) : bitAt [] i = false := bitAt_of_length_le (Nat.zero_le i)

end PackedBits
