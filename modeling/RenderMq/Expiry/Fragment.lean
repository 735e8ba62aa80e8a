import RenderMq.Tile.Protocol
import Mathlib.Tactic.Ring
import Mathlib.Data.Nat.Bitwise

/-!
# Metatiles in 32 bits

`tile_to_frag` packs the zoom and the metatile of a tile into the key that the expiry server keeps. A
prefix code tells the zooms apart: zoom 18 has the first quarter of the keys, zooms 14 to 17 have a
sixteenth each of the second quarter, and the zooms below that have a sixty-fourth each.

Each zoom has its own interval of keys (`toNat_tileToFrag`), so the key determines zoom and metatile
(`tileToFrag_inj`), and the last key of all is never used (`tileToFrag_ne_deletedKey`).
-/

namespace RenderMq

/-- `<<` on a `uint32_t`. A count outside 0 to 31 is undefined in the source; it is taken modulo 32
here, which only matters where the value is not zero. -/
def shl32 (v : BitVec 32) (count : Int) : BitVec 32 := v <<< (count % 32).toNat

/-- `tile_to_frag`. -/
def tileToFrag (tile : TileProtocol) : BitVec 32 :=
  let xyFrag := shl32 (BitVec.ofInt 32 (tile.x / METATILE)) (tile.z - 3) |||
    BitVec.ofInt 32 (tile.y / METATILE)
  if tile.z = 18 then xyFrag
  else if tile.z > 13 then shl32 (4#32 ||| BitVec.ofInt 32 (17 - tile.z)) 28 ||| xyFrag
  else shl32 (32#32 ||| BitVec.ofInt 32 (13 - tile.z)) 26 ||| xyFrag

/-- The key that the hash sets reserve. -/
def deletedKey : BitVec 32 := 0xffffffff#32

/-- A tile that the packing is made for. -/
structure InRange (tile : TileProtocol) : Prop where
  zoom : 0 ≤ tile.z ∧ tile.z ≤ 18
  x : 0 ≤ tile.x ∧ tile.x < 2 ^ tile.z.toNat
  y : 0 ≤ tile.y ∧ tile.y < 2 ^ tile.z.toNat

instance (tile : TileProtocol) : Decidable (InRange tile) :=
  decidable_of_iff ((0 ≤ tile.z ∧ tile.z ≤ 18) ∧ (0 ≤ tile.x ∧ tile.x < 2 ^ tile.z.toNat) ∧
      (0 ≤ tile.y ∧ tile.y < 2 ^ tile.z.toNat))
    ⟨fun h => ⟨h.1, h.2.1, h.2.2⟩, fun h => ⟨h.zoom, h.x, h.y⟩⟩

/-! ## The packing in numbers -/

/-- Above the bits of the one number stands the other. -/
theorem toNat_shiftLeft_or {p q : BitVec 32} {i : Nat} (hq : q.toNat < 2 ^ i)
    (hp : p.toNat * 2 ^ i < 2 ^ 32) : (p <<< i ||| q).toNat = p.toNat * 2 ^ i + q.toNat := by
  rw [BitVec.toNat_or, BitVec.toNat_shiftLeft, Nat.shiftLeft_eq, Nat.mod_eq_of_lt hp,
    ← Nat.shiftLeft_eq, ← Nat.shiftLeft_add_eq_or_of_lt hq, Nat.shiftLeft_eq]

/-- The metatiles of a zoom stand in a grid, this many bits wide and high. -/
def gridBits (zoom : Int) : Nat := (zoom - 3).toNat

/-- The first key of a zoom. -/
def fragBase (zoom : Int) : Nat :=
  if zoom = 18 then 0
  else if zoom > 13 then (21 - zoom).toNat * 2 ^ 28
  else (45 - zoom).toNat * 2 ^ 26

/-- How many keys a zoom has. -/
def fragRoom (zoom : Int) : Nat :=
  if zoom = 18 then 2 ^ 30 else if zoom > 13 then 2 ^ 28 else 2 ^ 26

/-- The three kinds of zoom, with their first key and room. -/
theorem zoom_kinds {zoom : Int} (h : 0 ≤ zoom ∧ zoom ≤ 18) :
    (zoom = 18 ∧ fragBase zoom = 0 ∧ fragRoom zoom = 2 ^ 30) ∨
    (13 < zoom ∧ zoom < 18 ∧ fragBase zoom = (21 - zoom).toNat * 2 ^ 28 ∧ fragRoom zoom = 2 ^ 28) ∨
    (zoom ≤ 13 ∧ fragBase zoom = (45 - zoom).toNat * 2 ^ 26 ∧ fragRoom zoom = 2 ^ 26) := by
  unfold fragBase fragRoom
  by_cases h18 : zoom = 18
  · exact .inl ⟨h18, if_pos h18, if_pos h18⟩
  · rw [if_neg h18, if_neg h18]
    by_cases h13 : zoom > 13
    · exact .inr (.inl ⟨h13, by omega, if_pos h13, if_pos h13⟩)
    · exact .inr (.inr ⟨by omega, if_neg h13, if_neg h13⟩)

/-- The place of a tile's metatile in its zoom. -/
def fragPlace (tile : TileProtocol) : Nat :=
  (tile.x / METATILE).toNat * 2 ^ gridBits tile.z + (tile.y / METATILE).toNat

/-- A tile coordinate gives a coordinate in the grid of metatiles. -/
theorem grid_lt {v zoom : Int} (h0 : 0 ≤ v) (hlt : v < 2 ^ zoom.toNat) :
    (v / METATILE).toNat < 2 ^ gridBits zoom := by
  obtain ⟨m, rfl⟩ := Int.eq_ofNat_of_zero_le h0
  have hm : m < 2 ^ zoom.toNat := by exact_mod_cast hlt
  unfold gridBits METATILE
  by_cases hz : 3 ≤ zoom
  · have hsplit : zoom.toNat = (zoom - 3).toNat + 3 := by omega
    rw [hsplit, Nat.pow_succ, Nat.pow_succ, Nat.pow_succ] at hm
    omega
  · have hzero : (zoom - 3).toNat = 0 := by omega
    have hsmall : 2 ^ zoom.toNat ≤ 2 ^ 2 := Nat.pow_le_pow_right (by decide) (by omega)
    rw [hzero]
    omega

variable {tile : TileProtocol}

theorem InRange.place_lt (h : InRange tile) : fragPlace tile < 2 ^ (2 * gridBits tile.z) := by
  have hx := grid_lt h.x.1 h.x.2
  have hy := grid_lt h.y.1 h.y.2
  have hrow := Nat.mul_le_mul_right (2 ^ gridBits tile.z) (Nat.succ_le_of_lt hx)
  rw [Nat.succ_mul] at hrow
  rw [fragPlace, two_mul, pow_add]
  omega

/-- The metatiles of a zoom fit in its keys. -/
theorem InRange.place_lt_room (h : InRange tile) : fragPlace tile < fragRoom tile.z := by
  have hz := h.zoom
  refine lt_of_lt_of_le h.place_lt ?_
  unfold gridBits
  rcases zoom_kinds hz with ⟨_, _, hroom⟩ | ⟨_, _, _, hroom⟩ | ⟨_, _, hroom⟩ <;> rw [hroom] <;>
    exact Nat.pow_le_pow_right (by decide) (by omega)

theorem toNat_ofInt32 {v : Int} (h0 : 0 ≤ v) (hlt : v < 2 ^ 32) :
    (BitVec.ofInt 32 v).toNat = v.toNat := by
  rw [BitVec.toNat_ofInt]
  exact congrArg Int.toNat (Int.emod_eq_of_lt h0 hlt)

/-- The low bits of the key are the place in the zoom. -/
theorem InRange.toNat_xyFrag (h : InRange tile) :
    (shl32 (BitVec.ofInt 32 (tile.x / METATILE)) (tile.z - 3) |||
      BitVec.ofInt 32 (tile.y / METATILE)).toNat = fragPlace tile := by
  have hz := h.zoom
  have hx := grid_lt h.x.1 h.x.2
  have hy := grid_lt h.y.1 h.y.2
  have hbits : (2 : Nat) ^ gridBits tile.z ≤ 2 ^ 15 :=
    Nat.pow_le_pow_right (by decide) (by unfold gridBits; omega)
  have hx0 : 0 ≤ tile.x / METATILE := Int.ediv_nonneg h.x.1 (by decide)
  have hy0 : 0 ≤ tile.y / METATILE := Int.ediv_nonneg h.y.1 (by decide)
  have hxNat := toNat_ofInt32 hx0 (by omega)
  have hyNat := toNat_ofInt32 hy0 (by omega)
  have hshift : shl32 (BitVec.ofInt 32 (tile.x / METATILE)) (tile.z - 3) =
      BitVec.ofInt 32 (tile.x / METATILE) <<< gridBits tile.z := by
    unfold shl32
    by_cases hlow : 3 ≤ tile.z
    · have hcount : ((tile.z - 3) % 32).toNat = gridBits tile.z := by
        unfold gridBits
        omega
      rw [hcount]
    · -- below zoom 3 there is one metatile, with coordinate zero
      have hgrid : gridBits tile.z = 0 := by
        unfold gridBits
        omega
      have hzero : tile.x / METATILE = 0 := by
        rw [hgrid] at hx
        omega
      rw [hzero]
      simp
  rw [hshift, toNat_shiftLeft_or, hxNat, hyNat, fragPlace]
  · rwa [hyNat]
  · rw [hxNat]
    calc (tile.x / METATILE).toNat * 2 ^ gridBits tile.z
        ≤ 2 ^ 15 * 2 ^ 15 := Nat.mul_le_mul (by omega) hbits
      _ < 2 ^ 32 := by decide

theorem prefix_of_low_zoom : ∀ k : Fin 14,
    (32#32 ||| BitVec.ofInt 32 (13 - (k : Nat))).toNat = 45 - k := by
  decide

theorem prefix_of_middle_zoom : ∀ k : Fin 4,
    (4#32 ||| BitVec.ofInt 32 (17 - (14 + (k : Nat)))).toNat = 7 - k := by
  decide

/-- **The key in numbers.** Each zoom has its interval of keys, and in it the metatiles in order. -/
theorem InRange.toNat_tileToFrag (h : InRange tile) :
    (tileToFrag tile).toNat = fragBase tile.z + fragPlace tile := by
  have hz := h.zoom
  have hplace := h.toNat_xyFrag
  have hroom := h.place_lt_room
  have hshift28 : ∀ v, shl32 v 28 = v <<< 28 := fun _ => rfl
  have hshift26 : ∀ v, shl32 v 26 = v <<< 26 := fun _ => rfl
  unfold tileToFrag
  dsimp only
  rcases zoom_kinds hz with ⟨h18, hbase, _⟩ | ⟨h13, h18, hbase, hsize⟩ | ⟨h13, hbase, hsize⟩
  · rw [if_pos h18, hplace, hbase, Nat.zero_add]
  · have hk := prefix_of_middle_zoom ⟨(tile.z - 14).toNat, by omega⟩
    have hzoom : 17 - (14 + ((tile.z - 14).toNat : Int)) = 17 - tile.z := by omega
    have hprefix : 7 - (tile.z - 14).toNat = (21 - tile.z).toNat := by omega
    simp only [hzoom, hprefix] at hk
    rw [hsize, ← hplace] at hroom
    rw [if_neg (by omega), if_pos (by omega), hshift28, toNat_shiftLeft_or hroom, hplace, hk, hbase]
    rw [hk]
    omega
  · have hk := prefix_of_low_zoom ⟨tile.z.toNat, by omega⟩
    have hzoom : 13 - (tile.z.toNat : Int) = 13 - tile.z := by omega
    have hprefix : 45 - tile.z.toNat = (45 - tile.z).toNat := by omega
    simp only [hzoom, hprefix] at hk
    rw [hsize, ← hplace] at hroom
    rw [if_neg (by omega), if_neg (by omega), hshift26, toNat_shiftLeft_or hroom, hplace, hk, hbase]
    rw [hk]
    omega

/-- The key that is reserved is the key of no tile. -/
theorem InRange.tileToFrag_ne_deletedKey (h : InRange tile) : tileToFrag tile ≠ deletedKey := by
  have hz := h.zoom
  have hroom := h.place_lt_room
  intro heq
  have hlast : fragBase tile.z + fragPlace tile = 2 ^ 32 - 1 := by
    rw [← h.toNat_tileToFrag, heq]
    rfl
  rcases zoom_kinds hz with ⟨_, hbase, hsize⟩ | ⟨_, _, hbase, hsize⟩ | ⟨_, hbase, hsize⟩ <;> omega

/-! ## Keys and metatiles -/

/-- Two tiles have one zoom and metatile. -/
structure SameFragment (t u : TileProtocol) : Prop where
  z : t.z = u.z
  x : t.x / METATILE = u.x / METATILE
  y : t.y / METATILE = u.y / METATILE

instance (t u : TileProtocol) : Decidable (SameFragment t u) :=
  decidable_of_iff (t.z = u.z ∧ t.x / METATILE = u.x / METATILE ∧ t.y / METATILE = u.y / METATILE)
    ⟨fun h => ⟨h.1, h.2.1, h.2.2⟩, fun h => ⟨h.z, h.x, h.y⟩⟩

/-- The intervals of two zooms have no key in common. -/
theorem zoom_of_key {z z' : Int} {p p' : Nat} (hz : 0 ≤ z ∧ z ≤ 18) (hz' : 0 ≤ z' ∧ z' ≤ 18)
    (hp : p < fragRoom z) (hp' : p' < fragRoom z') (heq : fragBase z + p = fragBase z' + p') :
    z = z' := by
  rcases zoom_kinds hz with ⟨_, hbase, hsize⟩ | ⟨_, _, hbase, hsize⟩ | ⟨_, hbase, hsize⟩ <;>
    rcases zoom_kinds hz' with ⟨_, hbase', hsize'⟩ | ⟨_, _, hbase', hsize'⟩ | ⟨_, hbase', hsize'⟩ <;>
      omega

/-- A number has one quotient and remainder. -/
theorem quotient_unique {w a b c d : Nat} (hb : b < w) (hd : d < w) (heq : a * w + b = c * w + d) :
    a = c ∧ b = d := by
  have hquotient : (a * w + b) / w = (c * w + d) / w := congrArg (· / w) heq
  have hremainder : (a * w + b) % w = (c * w + d) % w := congrArg (· % w) heq
  rw [Nat.mul_comm a, Nat.mul_comm c, Nat.mul_add_mod, Nat.mul_add_mod, Nat.mod_eq_of_lt hb,
    Nat.mod_eq_of_lt hd] at hremainder
  have hpos : 0 < w := by omega
  rw [Nat.mul_comm a, Nat.mul_comm c, Nat.mul_add_div hpos, Nat.mul_add_div hpos,
    Nat.div_eq_of_lt hb, Nat.div_eq_of_lt hd] at hquotient
  exact ⟨hquotient, hremainder⟩

/-- **The key of a metatile.** Two tiles have one key when they have one zoom and metatile. -/
theorem tileToFrag_eq_iff {t u : TileProtocol} (ht : InRange t) (hu : InRange u) :
    tileToFrag t = tileToFrag u ↔ SameFragment t u := by
  constructor
  · intro heq
    have hkeys : fragBase t.z + fragPlace t = fragBase u.z + fragPlace u := by
      rw [← ht.toNat_tileToFrag, ← hu.toNat_tileToFrag, heq]
    have hzoom := zoom_of_key ht.zoom hu.zoom ht.place_lt_room hu.place_lt_room hkeys
    have hplaces : fragPlace t = fragPlace u := by
      rw [hzoom] at hkeys
      omega
    have hty := grid_lt ht.y.1 ht.y.2
    have huy := grid_lt hu.y.1 hu.y.2
    rw [fragPlace, fragPlace, hzoom] at hplaces
    rw [hzoom] at hty
    obtain ⟨hx, hy⟩ := quotient_unique hty huy hplaces
    have htx0 : 0 ≤ t.x / METATILE := Int.ediv_nonneg ht.x.1 (by decide)
    have hux0 : 0 ≤ u.x / METATILE := Int.ediv_nonneg hu.x.1 (by decide)
    have hty0 : 0 ≤ t.y / METATILE := Int.ediv_nonneg ht.y.1 (by decide)
    have huy0 : 0 ≤ u.y / METATILE := Int.ediv_nonneg hu.y.1 (by decide)
    exact ⟨hzoom, by omega, by omega⟩
  · intro same
    unfold tileToFrag
    rw [same.x, same.y, same.z]

end RenderMq
