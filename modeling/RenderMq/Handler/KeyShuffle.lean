import RenderMq.Lib.Stir
import RenderMq.Handler.ConsistentHash

/-!
# The shuffle of the keys

`shuffle` multiplies the hash of a key four times and stirs its bits three times. The products lose
nothing (`firstProduct_injective` and the others). Wang's algorithm stirs by a shift to the right,
which loses nothing either; `shuffle` adds a shift to the left each time, and the two together have
the bits of different words come out alike.

**What is proved.** Where the low half of the hashes is zero, each stir has enough known bits to tell
all words apart; with a known bit less it does not (`shuffle_injective_iff`). The hash that becomes all
ones at the first stir gets the position of the one that becomes zero (`shuffle_not_injective`).
-/

namespace RenderMq

namespace HashConfig

open Stir

/-! ## Products and stirs -/

/-- The word at the first stir. -/
def firstProduct (key : BitVec 64) : BitVec 64 := ~~~key + key <<< 21

def secondProduct (key : BitVec 64) : BitVec 64 := (key + key <<< 3) + key <<< 8

def thirdProduct (key : BitVec 64) : BitVec 64 := (key + key <<< 2) + key <<< 4

def lastProduct (key : BitVec 64) : BitVec 64 := key + key <<< 31

theorem firstProduct_injective : Function.Injective firstProduct := by
  intro x y h
  have hmul : ∀ z : BitVec 64, firstProduct z = z * (BitVec.twoPow 64 21 - 1) - 1 := by
    intro z
    have hone : (1#64 : BitVec 64) = 1 := rfl
    rw [firstProduct, BitVec.shiftLeft_eq_mul_twoPow, BitVec.not_eq_neg_add, hone]
    ring
  rw [hmul, hmul] at h
  exact @mul_injective 64 _ 0x7ffffbffffdfffff#64 (by decide) _ _ (sub_left_injective h)

theorem secondProduct_eq (w : BitVec 64) : secondProduct w = w * 265#64 := by
  rw [secondProduct, add_shiftLeft, BitVec.shiftLeft_eq_mul_twoPow, ← mul_add]
  rfl

theorem secondProduct_injective : Function.Injective secondProduct := by
  intro x y h
  rw [secondProduct_eq, secondProduct_eq] at h
  exact @mul_injective 64 _ 0xd38ff08b1c03dd39#64 (by decide) _ _ h

theorem thirdProduct_eq (w : BitVec 64) : thirdProduct w = w * 21#64 := by
  rw [thirdProduct, add_shiftLeft, BitVec.shiftLeft_eq_mul_twoPow, ← mul_add]
  rfl

theorem thirdProduct_injective : Function.Injective thirdProduct := by
  intro x y h
  rw [thirdProduct_eq, thirdProduct_eq] at h
  exact @mul_injective 64 _ 0xcf3cf3cf3cf3cf3d#64 (by decide) _ _ h

theorem lastProduct_injective : Function.Injective lastProduct := by
  intro x y h
  rw [lastProduct, lastProduct, add_shiftLeft, add_shiftLeft] at h
  exact @mul_injective 64 _ 0x3fffffff80000001#64 (by decide) _ _ h

/-- The word at the second stir. -/
def secondWord (key : BitVec 64) : BitVec 64 := secondProduct (stir 24 8 (firstProduct key))

/-- The word at the third stir. -/
def thirdWord (key : BitVec 64) : BitVec 64 := thirdProduct (stir 14 18 (secondWord key))

theorem shuffle_eq (key : BitVec 64) : shuffle key = lastProduct (stir 28 4 (thirdWord key)) := rfl

/-! ## Keys of which the low bits are zero -/

theorem low_firstProduct {key : BitVec 64} (hkey : Low 32 false key) :
    Low 32 true (firstProduct key) := by
  have hshift : (key <<< 21).setWidth 32 = 0#32 := by
    rw [BitVec.shiftLeft_eq_mul_twoPow]
    exact low_false_iff.mp (hkey.mul (by decide) _)
  refine low_true_of_setWidth ?_
  rw [firstProduct, BitVec.setWidth_add _ _ (by decide), BitVec.setWidth_not (by decide), hshift,
    low_false_iff.mp hkey, BitVec.not_zero, BitVec.add_zero]

theorem low_secondWord {key : BitVec 64} (hkey : Low 32 false key) : Low 32 false (secondWord key) := by
  rw [secondWord, secondProduct_eq]
  exact (low_stir_of_true (low_firstProduct hkey) (by decide) (by decide)).mul (by decide) _

theorem low_thirdWord {key : BitVec 64} (hkey : Low 32 false key) : Low 18 false (thirdWord key) := by
  rw [thirdWord, thirdProduct_eq]
  exact (low_stir_of_false (low_secondWord hkey) (by decide) (by decide) (by decide)).mul (by decide) _

/-- **Half of the bits are enough.** With the low half known, each stir tells all words apart. -/
theorem eq_of_shuffle_eq {key key' : BitVec 64} (hkey : Low 32 false key) (hkey' : Low 32 false key')
    (h : shuffle key = shuffle key') : key = key' := by
  rw [shuffle_eq, shuffle_eq] at h
  have hthird : thirdWord key = thirdWord key' :=
    eq_of_low_false_far (low_thirdWord hkey) (low_thirdWord hkey') (by decide) (by decide) (by decide)
      (by decide) (lastProduct_injective h)
  have hsecond : secondWord key = secondWord key' :=
    eq_of_low_false (low_secondWord hkey) (low_secondWord hkey') (by decide) (by decide) (by decide)
      (thirdProduct_injective hthird)
  have hfirst : firstProduct key = firstProduct key' :=
    eq_of_low_true (low_firstProduct hkey) (low_firstProduct hkey') (by decide) (by decide)
      (by decide) (secondProduct_injective hsecond)
  exact firstProduct_injective hfirst

/-- Two hashes with 31 low zeros and one position: at the first stir they differ in the bits 39, 47,
55 and 63, and the bit 31, which would hide the first of these, is zero. -/
theorem one_bit_less_is_lost :
    Low 31 false 0xffefffff80000000#64 ∧ Low 31 false 0x6f6f7f7f80000000#64 ∧
      shuffle 0xffefffff80000000#64 = shuffle 0x6f6f7f7f80000000#64 :=
  ⟨low_false_iff.mpr (by decide), low_false_iff.mpr (by decide), by decide⟩

/-- **When positions differ.** Keys whose hashes have zeros in their low `m` bits, and differ, get
different positions for all such hashes exactly when `m` is at least 32.

For two given hashes with other low bits nothing is established: whether a stir makes their words alike
depends on what the stirs before it have made of them. Nothing is said of how often hashes meet, nor of
what hashes the keys have. -/
theorem shuffle_injective_iff (m : Nat) :
    (∀ key key' : BitVec 64, Low m false key → Low m false key' →
      shuffle key = shuffle key' → key = key') ↔ 32 ≤ m := by
  refine ⟨fun hinj => ?_, fun hm key key' hkey hkey' => ?_⟩
  · by_contra hm
    obtain ⟨hlow, hlow', hsame⟩ := one_bit_less_is_lost
    have heq := hinj _ _ (hlow.mono (by omega)) (hlow'.mono (by omega)) hsame
    exact absurd heq (by decide)
  · exact eq_of_shuffle_eq (hkey.mono hm) (hkey'.mono hm)

/-- The hashes that become all ones and zero. -/
theorem shuffle_not_injective :
    (0x7ffffbffffdfffff#64 : BitVec 64) ≠ 0#64 ∧
      shuffle 0x7ffffbffffdfffff#64 = shuffle 0#64 ∧ ¬ Function.Injective shuffle := by
  have hsame : shuffle 0x7ffffbffffdfffff#64 = shuffle 0#64 := by decide
  have hne : (0x7ffffbffffdfffff#64 : BitVec 64) ≠ 0#64 := by decide
  exact ⟨hne, hsame, fun hinj => hne (hinj hsame)⟩

end HashConfig

end RenderMq
