import RenderMq.Lib.Morton
import Mathlib.Algebra.BigOperators.Group.List.Basic
import Mathlib.Data.List.Induction

/-!
# Where a metatile's expiry bit is

Expiry is kept as one bit for each metatile, those of all zoom levels in one file. `offsets` is where
the bits of each level start, and within its level a metatile stands at the Morton code of its
coordinates.

The node (`mqExpiry`) computes the index, and the expiry server sizes the file. Each has its own
`ZLevels` and its own `MAX_Z`.

`tileToMetaIdx_eq_some` says where an index is: past the offset of its level by a code of the level.
Two levels do not overlap (`offsets_le`), and two codes of one level are of one metatile
(`morton_injective`). `expiry_index_exact` puts these together.
-/

namespace RenderMq

namespace ZLevels

/-- `z_sizes`: the metatiles of each level. Below zoom 3 it is one. -/
def zSizes (maxZ : Nat) : List Nat :=
  (List.range maxZ).map fun (z : Nat) => 4 ^ (max 0 ((z : Int) - 3)).toNat

/-- `reduce(lambda s,i: s + [s[-1] + i], z_sizes, [0])`. -/
def sums (sizes : List Nat) : List Nat := sizes.foldl (fun s i => s ++ [s.getLastD 0 + i]) [0]

/-- A list at an index of the source: a negative one counts from the end, and outside it raises. -/
def pyIndex {α : Type*} (s : List α) (i : Int) : Option α :=
  if 0 ≤ i then s[i.toNat]?
  else if -(s.length : Int) ≤ i then s[((s.length : Int) + i).toNat]?
  else none

/-- The bytes for so many bits. -/
def bytesFor (bitSize : Nat) : Nat := bitSize / 8 + if bitSize % 8 > 0 then 1 else 0

theorem le_bytesFor (n : Nat) : n ≤ 8 * bytesFor n := by
  unfold bytesFor
  split <;> omega

theorem zSizes_getElem? {maxZ z : Nat} (hz : z < maxZ) : (zSizes maxZ)[z]? = some (4 ^ (z - 3)) := by
  have hexp : (max 0 ((z : Int) - 3)).toNat = z - 3 := by omega
  rw [zSizes, List.getElem?_map, List.getElem?_range hz, Option.map_some, hexp]

@[simp] theorem length_zSizes (maxZ : Nat) : (zSizes maxZ).length = maxZ := by
  rw [zSizes, List.length_map, List.length_range]

/-- Each entry is the sum of the sizes before it. -/
theorem sums_eq (sizes : List Nat) :
    sums sizes = (List.range (sizes.length + 1)).map fun z => (sizes.take z).sum := by
  induction sizes using List.reverseRecOn with
  | nil => rfl
  | append_singleton sizes i ih =>
    have hlast : (sums sizes).getLastD 0 = sizes.sum := by
      rw [ih, List.range_succ, List.map_append]
      simp
    have hfront : ∀ z ∈ List.range (sizes.length + 1),
        (sizes.take z).sum = ((sizes ++ [i]).take z).sum := by
      intro z hz
      rw [List.take_append_of_le_length (Nat.le_of_lt_succ (List.mem_range.mp hz))]
    calc sums (sizes ++ [i]) = sums sizes ++ [(sums sizes).getLastD 0 + i] := by
          rw [sums, List.foldl_append]
          rfl
      _ = _ := by
          rw [hlast, ih, List.map_congr_left hfront, List.length_append, List.length_singleton,
            List.range_succ (n := sizes.length + 1), List.map_append]
          simp

theorem sums_getElem? {sizes : List Nat} {z : Nat} (hz : z ≤ sizes.length) :
    (sums sizes)[z]? = some (sizes.take z).sum := by
  rw [sums_eq, List.getElem?_map, List.getElem?_range (Nat.lt_succ_of_le hz), Option.map_some]

/-- What follows an entry is that entry and its size. -/
theorem sums_succ {sizes : List Nat} {z n o : Nat} (hn : sizes[z]? = some n)
    (ho : (sums sizes)[z]? = some o) : (sums sizes)[z + 1]? = some (o + n) := by
  have hlt : z < sizes.length := (List.getElem?_eq_some_iff.mp hn).1
  rw [sums_getElem? hlt.le] at ho
  rw [sums_getElem? hlt, List.take_add_one, hn, Option.toList_some, List.sum_append,
    List.sum_singleton, Option.some.inj ho]

theorem sums_le {sizes : List Nat} {z z' o o' : Nat} (hle : z ≤ z') (hlen : z' ≤ sizes.length)
    (ho : (sums sizes)[z]? = some o) (ho' : (sums sizes)[z']? = some o') : o ≤ o' := by
  rw [sums_getElem? (hle.trans hlen)] at ho
  rw [sums_getElem? hlen] at ho'
  have hsplit := List.sum_take_add_sum_drop (sizes.take z') z
  rw [List.take_take, Nat.min_eq_left hle, Option.some.inj ho, Option.some.inj ho'] at hsplit
  omega

end ZLevels

open ZLevels Morton

/-! ## The two tables -/

namespace ExpiryInfo

def MAX_Z : Nat := 35

def offsets : List Nat := sums (zSizes MAX_Z)

/-- `size_of`: the bytes for all levels up to `max_z`, which the configuration gives. -/
def sizeOf (maxZ : Int) : Option Nat := (pyIndex offsets (maxZ + 1)).map bytesFor

end ExpiryInfo

namespace MqExpiry

def MAX_Z : Nat := 35

/-- `METATILE`: the tiles along a metatile's side. -/
def METATILE : Nat := 8

def offsets : List Nat := sums (zSizes MAX_Z)

/-- `_interleave`. -/
def interleave (n : Nat) : Nat :=
  let n := n &&& 0xffffffff
  let n := (n ||| n <<< 16) &&& 0x0000FFFF0000FFFF
  let n := (n ||| n <<< 8) &&& 0x00FF00FF00FF00FF
  let n := (n ||| n <<< 4) &&& 0x0F0F0F0F0F0F0F0F
  let n := (n ||| n <<< 2) &&& 0x3333333333333333
  (n ||| n <<< 1) &&& 0x5555555555555555

/-- `_uninterleave`. -/
def uninterleave (n : Nat) : Nat :=
  let n := n &&& 0x5555555555555555
  let n := (n ^^^ n >>> 1) &&& 0x3333333333333333
  let n := (n ^^^ n >>> 2) &&& 0x0f0f0f0f0f0f0f0f
  let n := (n ^^^ n >>> 4) &&& 0x00ff00ff00ff00ff
  let n := (n ^^^ n >>> 8) &&& 0x0000ffff0000ffff
  (n ^^^ n >>> 16) &&& 0xffffffff

/-- `tile_to_meta_idx`. It raises for a zoom the table does not have. -/
def tileToMetaIdx (x y z : Nat) : Option Nat :=
  let mortonCode := interleave x <<< 1 ||| interleave y
  offsets[z]?.map fun o => o + mortonCode

/-- The coordinates of a metatile that a tile of the level is in. -/
def ValidAt (z mx my : Nat) : Prop :=
  ∃ x y, x < 2 ^ z ∧ y < 2 ^ z ∧ mx = x / METATILE ∧ my = y / METATILE

/-! ## Masks and codes -/

-- blocks of 32, 16, 8, 4 and 2 bits and of one bit
theorem isMask_five : IsMask 64 5 0xffffffff := isMask_of_forall_lt (by decide) (by decide)
theorem isMask_four : IsMask 64 4 0x0000FFFF0000FFFF := isMask_of_forall_lt (by decide) (by decide)
theorem isMask_three : IsMask 64 3 0x00FF00FF00FF00FF := isMask_of_forall_lt (by decide) (by decide)
theorem isMask_two : IsMask 64 2 0x0F0F0F0F0F0F0F0F := isMask_of_forall_lt (by decide) (by decide)
theorem isMask_one : IsMask 64 1 0x3333333333333333 := isMask_of_forall_lt (by decide) (by decide)
theorem isMask_zero : IsMask 64 0 0x5555555555555555 := isMask_of_forall_lt (by decide) (by decide)

theorem spread_low (n : Nat) : Spread 64 5 n (n &&& 0xffffffff) := by
  have hmod : n &&& 0xffffffff = n % 2 ^ 2 ^ 5 := Nat.and_two_pow_sub_one_eq_mod n 32
  rw [hmod]
  exact Spread.block 5 n

theorem interleave_spread (n : Nat) : Spread 64 0 n (interleave n) :=
  ((((spread_low n).halve isMask_four).halve isMask_three).halve isMask_two).halve isMask_one
    |>.halve isMask_zero

/-- **Nothing of 32 bits is lost.** -/
theorem uninterleave_interleave {n : Nat} (hn : n < 2 ^ 32) : uninterleave (interleave n) = n := by
  have hspread := (interleave_spread n).mask isMask_zero
  have hblock : Spread 64 5 n (uninterleave (interleave n)) :=
    ((((hspread.join isMask_one (by decide)).join isMask_two (by decide)).join isMask_three
      (by decide)).join isMask_four (by decide)).join isMask_five (by decide)
  rw [hblock.unique (Spread.block 5 n)]
  exact Nat.mod_eq_of_lt hn

theorem ValidAt.lt {z mx my : Nat} (h : ValidAt z mx my) :
    mx < 2 ^ (z - 3) ∧ my < 2 ^ (z - 3) := by
  obtain ⟨x, y, hx, hy, rfl, rfl⟩ := h
  have hside : 2 ^ z ≤ METATILE * 2 ^ (z - 3) := by
    rw [show METATILE = 2 ^ 3 from rfl, ← Nat.pow_add]
    exact Nat.pow_le_pow_right (by decide) (by omega)
  exact ⟨Nat.div_lt_of_lt_mul (hx.trans_le hside), Nat.div_lt_of_lt_mul (hy.trans_le hside)⟩

/-! ## Indices -/

/-- A level's bits are as many as it has metatiles. -/
theorem offsets_succ {z : Nat} (hz : z ≤ 34) :
    ∃ o, offsets[z]? = some o ∧ offsets[z + 1]? = some (o + 4 ^ (z - 3)) := by
  have hlen : z ≤ (zSizes MAX_Z).length := by
    rw [length_zSizes]
    exact hz.step
  have ho : offsets[z]? = some _ := sums_getElem? hlen
  exact ⟨_, ho, sums_succ (zSizes_getElem? (Nat.lt_succ_of_le hz)) ho⟩

/-- The levels follow one another. -/
theorem offsets_le {z z' o o' : Nat} (hle : z ≤ z') (hz' : z' ≤ 35) (ho : offsets[z]? = some o)
    (ho' : offsets[z']? = some o') : o ≤ o' :=
  sums_le hle (by rwa [length_zSizes]) ho ho'

/-- The server's table is the same. -/
theorem sizeOf_eq {maxZ o : Nat} (ho : offsets[maxZ + 1]? = some o) :
    ExpiryInfo.sizeOf maxZ = some (bytesFor o) := by
  have hnonneg : 0 ≤ (maxZ : Int) + 1 := by omega
  have hindex : ((maxZ : Int) + 1).toNat = maxZ + 1 := by omega
  have htable : ExpiryInfo.offsets = offsets := rfl
  rw [ExpiryInfo.sizeOf, pyIndex, if_pos hnonneg, hindex, htable, ho, Option.map_some]

theorem tileToMetaIdx_eq_some {mx my z i : Nat} :
    tileToMetaIdx mx my z = some i ↔
      ∃ o, offsets[z]? = some o ∧ o + (interleave mx <<< 1 ||| interleave my) = i :=
  Option.map_eq_some_iff

/-- A code of a level is below the level's size. -/
theorem morton_lt {z mx my : Nat} (h : ValidAt z mx my) :
    interleave mx <<< 1 ||| interleave my < 4 ^ (z - 3) := by
  rw [show 4 = 2 ^ 2 from rfl, ← Nat.pow_mul]
  exact code_lt (interleave_spread mx) (interleave_spread my) h.lt.1 h.lt.2

theorem morton_injective {z mx my mx' my' : Nat} (hz : z ≤ 34) (h : ValidAt z mx my)
    (h' : ValidAt z mx' my')
    (heq : interleave mx <<< 1 ||| interleave my = interleave mx' <<< 1 ||| interleave my') :
    mx = mx' ∧ my = my' :=
  code_injective (interleave_spread mx) (interleave_spread my) (interleave_spread mx')
    (interleave_spread my') (v := z - 3) (by omega) h.lt h'.lt heq

/-- The index of a metatile lies in its level. -/
theorem tileToMetaIdx_mem {z mx my : Nat} (hz : z ≤ 34) (h : ValidAt z mx my) :
    ∃ i lo hi, tileToMetaIdx mx my z = some i ∧ offsets[z]? = some lo ∧
      offsets[z + 1]? = some hi ∧ lo ≤ i ∧ i < hi := by
  obtain ⟨o, ho, ho'⟩ := offsets_succ hz
  refine ⟨_, o, _, tileToMetaIdx_eq_some.mpr ⟨o, ho, rfl⟩, ho, ho', Nat.le_add_right _ _, ?_⟩
  exact Nat.add_lt_add_left (morton_lt h) o

/-- A file for the levels up to `maxZ` has the bits of each of them. -/
theorem lt_sizeOf {z maxZ i hi : Nat} (hle : z ≤ maxZ) (hmax : maxZ ≤ 34)
    (hhi : offsets[z + 1]? = some hi) (hi' : i < hi) :
    ∃ n, ExpiryInfo.sizeOf maxZ = some n ∧ i < 8 * n := by
  obtain ⟨_, _, ho⟩ := offsets_succ hmax
  refine ⟨_, sizeOf_eq ho, ?_⟩
  calc i < hi := hi'
    _ ≤ _ := offsets_le (by omega) (by omega) hhi ho
    _ ≤ _ := le_bytesFor _

/-- No level's bits reach into those of a later level. -/
theorem level_unique {z z' mx my mx' my' i : Nat} (hz : z ≤ 34) (hz' : z' ≤ 34)
    (h : ValidAt z mx my) (h' : ValidAt z' mx' my') (hi : tileToMetaIdx mx my z = some i)
    (hi' : tileToMetaIdx mx' my' z' = some i) : z ≤ z' := by
  obtain ⟨j, lo, _, hj, hlo, _, hle, _⟩ := tileToMetaIdx_mem hz h
  obtain ⟨j', _, hi₂, hj', _, hhi, _, hlt⟩ := tileToMetaIdx_mem hz' h'
  rw [hi, Option.some_inj] at hj
  rw [hi', Option.some_inj] at hj'
  by_contra hgt
  have := offsets_le (Nat.lt_of_not_le hgt) (by omega) hhi hlo
  omega

theorem tileToMetaIdx_injective {z z' mx my mx' my' i : Nat} (hz : z ≤ 34) (hz' : z' ≤ 34)
    (h : ValidAt z mx my) (h' : ValidAt z' mx' my') (hi : tileToMetaIdx mx my z = some i)
    (hi' : tileToMetaIdx mx' my' z' = some i) : z = z' ∧ mx = mx' ∧ my = my' := by
  obtain rfl : z = z' :=
    (level_unique hz hz' h h' hi hi').antisymm (level_unique hz' hz h' h hi' hi)
  obtain ⟨o, ho, hcode⟩ := tileToMetaIdx_eq_some.mp hi
  obtain ⟨o', ho', hcode'⟩ := tileToMetaIdx_eq_some.mp hi'
  obtain rfl : o = o' := Option.some.inj (ho.symm.trans ho')
  exact ⟨rfl, morton_injective hz h h' (Nat.add_left_cancel (hcode.trans hcode'.symm))⟩

/-- **Each metatile has a bit of its own, in every file that has its level.** The index is within the
level and within the file the server makes, no two metatiles have one index, and interleaving loses
nothing.

The zooms are those to 34, which the tables of levels have. Whether a file that was made with a smaller
limit has the level is not part of this, nor what is done with the bit. -/
theorem expiry_index_exact :
    (∀ z ≤ 34, ∀ mx my, ValidAt z mx my →
      ∃ i lo hi, tileToMetaIdx mx my z = some i ∧ offsets[z]? = some lo ∧
        offsets[z + 1]? = some hi ∧ lo ≤ i ∧ i < hi ∧
        ∀ maxZ : Nat, z ≤ maxZ → maxZ ≤ 34 →
          ∃ n, ExpiryInfo.sizeOf maxZ = some n ∧ i < 8 * n) ∧
    (∀ z ≤ 34, ∀ z' ≤ 34, ∀ mx my mx' my', ValidAt z mx my → ValidAt z' mx' my' →
      tileToMetaIdx mx my z = tileToMetaIdx mx' my' z' → z = z' ∧ mx = mx' ∧ my = my') ∧
    ∀ n < 2 ^ 32, uninterleave (interleave n) = n := by
  refine ⟨?_, ?_, fun n hn => uninterleave_interleave hn⟩
  · intro z hz mx my h
    obtain ⟨i, lo, hi, hidx, hlo, hhi, hle, hlt⟩ := tileToMetaIdx_mem hz h
    exact ⟨i, lo, hi, hidx, hlo, hhi, hle, hlt, fun maxZ hmax hmax' => lt_sizeOf hmax hmax' hhi hlt⟩
  · intro z hz z' hz' mx my mx' my' h h' heq
    obtain ⟨i, _, _, hidx, _⟩ := tileToMetaIdx_mem hz h
    exact tileToMetaIdx_injective hz hz' h h' hidx (heq.symm.trans hidx)

end MqExpiry

end RenderMq
