import RenderMq.Expiry.Fragment

/-!
# Keys taken apart

`frag_to_tile` is meant to undo `tile_to_frag`. It takes the zoom of the lower levels from the middle of
the key, and the numbers of the metatile as if they were of tiles: as many bits of each as the zoom has.

`fragToTile_iff` says of which tiles it finds the zoom and the metatile: of those in the first metatile
of three zooms.
-/

namespace RenderMq

/-- `>>` on a `uint32_t`, with the count taken as by `shl32`. -/
def shr32 (v : BitVec 32) (count : Int) : BitVec 32 := v >>> (count % 32).toNat

/-- The zoom that `frag_to_tile` finds. -/
def fragZoom (frag : BitVec 32) : Int :=
  let highBits := shr32 frag 30
  if highBits = 0#32 then 18
  else if highBits = 1#32 then (17#32 - (shr32 frag 28 &&& 3#32)).toInt
  else (13#32 - (shr32 frag 16 &&& 15#32)).toInt

/-- `frag_to_tile`. -/
def fragToTile (frag : BitVec 32) (tile : TileProtocol) : TileProtocol :=
  let z := fragZoom frag
  let mask := shl32 1#32 z - 1#32
  { tile with z, x := (shr32 frag z &&& mask).toInt, y := (frag &&& mask).toInt }

/-! ## The fields in numbers -/

theorem toNat_shr32 (v : BitVec 32) {count : Int} (h0 : 0 ≤ count) (h32 : count < 32) :
    (shr32 v count).toNat = v.toNat / 2 ^ count.toNat := by
  have hcount : count % 32 = count := Int.emod_eq_of_lt h0 h32
  rw [shr32, hcount, BitVec.toNat_ushiftRight, Nat.shiftRight_eq_div_pow]

/-- The low bits of a word. -/
theorem toNat_and_mask (v : BitVec 32) {z : Int} (h0 : 0 ≤ z) (h31 : z ≤ 30) :
    (v &&& (shl32 1#32 z - 1#32)).toInt = ((v.toNat % 2 ^ z.toNat : Nat) : Int) := by
  obtain ⟨n, rfl⟩ := Int.eq_ofNat_of_zero_le h0
  have hn : n < 31 := by omega
  have hpow : (2 : Nat) ^ n < 2 ^ 31 := Nat.pow_lt_pow_right (by decide) hn
  have hpos : 0 < (2 : Nat) ^ n := Nat.two_pow_pos n
  have hcount : ((n : Int) % 32).toNat = n := by omega
  have hmask : (shl32 1#32 n - 1#32).toNat = 2 ^ n - 1 := by
    have hbit : (1#32 <<< n).toNat = 2 ^ n := by
      rw [BitVec.toNat_shiftLeft, Nat.shiftLeft_eq, BitVec.toNat_ofNat, Nat.one_mod, Nat.one_mul,
        Nat.mod_eq_of_lt (by omega)]
    have hone : (1#32).toNat = 1 := rfl
    rw [shl32, hcount, BitVec.toNat_sub, hbit, hone]
    omega
  have hand : (v &&& (shl32 1#32 n - 1#32)).toNat = v.toNat % 2 ^ n := by
    rw [BitVec.toNat_and, hmask, Nat.and_two_pow_sub_one_eq_mod]
  have hlt := Nat.mod_lt v.toNat hpos
  rw [BitVec.toInt_eq_toNat_of_lt (by rw [hand]; omega), hand]
  rfl

/-- A small word taken off a small number. -/
theorem toInt_sub_small {c w : BitVec 32} (hc : c.toNat < 2 ^ 16) (hw : w.toNat < 2 ^ 16) :
    (c - w).toInt = (c.toNat : Int) - w.toNat := by
  have hcInt : c.toInt = c.toNat := BitVec.toInt_eq_toNat_of_lt (by omega)
  have hwInt : w.toInt = w.toNat := BitVec.toInt_eq_toNat_of_lt (by omega)
  rw [BitVec.toInt_sub, hcInt, hwInt]
  exact Int.bmod_eq_of_le (by omega) (by omega)

/-- The zoom that is found in the number of a key. -/
def numberZoom (n : Nat) : Int :=
  if n / 2 ^ 30 = 0 then 18
  else if n / 2 ^ 30 = 1 then 17 - ((n / 2 ^ 28 % 4 : Nat) : Int)
  else 13 - ((n / 2 ^ 16 % 16 : Nat) : Int)

theorem fragZoom_eq (frag : BitVec 32) : fragZoom frag = numberZoom frag.toNat := by
  have htop : (shr32 frag 30).toNat = frag.toNat / 2 ^ 30 := toNat_shr32 frag (by decide) (by decide)
  have hmiddle : (shr32 frag 28 &&& 3#32).toNat = frag.toNat / 2 ^ 28 % 4 := by
    have hmod := Nat.and_two_pow_sub_one_eq_mod (frag.toNat / 2 ^ 28) 2
    rw [BitVec.toNat_and, toNat_shr32 frag (by decide) (by decide)]
    exact hmod
  have hlow : (shr32 frag 16 &&& 15#32).toNat = frag.toNat / 2 ^ 16 % 16 := by
    have hmod := Nat.and_two_pow_sub_one_eq_mod (frag.toNat / 2 ^ 16) 4
    rw [BitVec.toNat_and, toNat_shr32 frag (by decide) (by decide)]
    exact hmod
  have h17 : (17#32 - (shr32 frag 28 &&& 3#32)).toInt =
      17 - ((frag.toNat / 2 ^ 28 % 4 : Nat) : Int) := by
    rw [toInt_sub_small (by decide) (by rw [hmiddle]; omega), hmiddle]
    rfl
  have h13 : (13#32 - (shr32 frag 16 &&& 15#32)).toInt =
      13 - ((frag.toNat / 2 ^ 16 % 16 : Nat) : Int) := by
    rw [toInt_sub_small (by decide) (by rw [hlow]; omega), hlow]
    rfl
  have hzero : shr32 frag 30 = 0#32 ↔ frag.toNat / 2 ^ 30 = 0 := by
    rw [← BitVec.toNat_inj, htop]
    rfl
  have hone : shr32 frag 30 = 1#32 ↔ frag.toNat / 2 ^ 30 = 1 := by
    rw [← BitVec.toNat_inj, htop]
    rfl
  simp only [fragZoom, numberZoom, hzero, hone, h17, h13]

/-- The numbers of the metatile, at a zoom that a shift makes sense for. -/
theorem fragToTile_eq {frag : BitVec 32} {z : Int} (hz : fragZoom frag = z) (h0 : 0 ≤ z)
    (h30 : z ≤ 30) (tile : TileProtocol) :
    (fragToTile frag tile).z = z ∧
      (fragToTile frag tile).x = ((frag.toNat / 2 ^ z.toNat % 2 ^ z.toNat : Nat) : Int) ∧
      (fragToTile frag tile).y = ((frag.toNat % 2 ^ z.toNat : Nat) : Int) := by
  refine ⟨hz, ?_, ?_⟩
  · show (shr32 frag (fragZoom frag) &&& (shl32 1#32 (fragZoom frag) - 1#32)).toInt = _
    rw [hz, toNat_and_mask _ h0 h30, toNat_shr32 frag h0 (by omega)]
  · show (frag &&& (shl32 1#32 (fragZoom frag) - 1#32)).toInt = _
    rw [hz, toNat_and_mask _ h0 h30]

/-! ## What is found at each zoom -/

/-- Column `X` and row `Y` of the metatiles are found in the number of a key. -/
def FoundIn (n z X Y : Nat) : Prop :=
  numberZoom n = z ∧ n / 2 ^ z % 2 ^ z = 8 * X ∧ n % 2 ^ z = 8 * Y

section Zooms

variable {X Y : Nat}

/-- Below zoom 12, the middle of the key has none of the zoom's bits. -/
theorem not_foundIn_of_low {z p : Nat} (hz : z ≤ 11) (hp : p < 2 ^ 16) :
    ¬ FoundIn ((45 - z) * 2 ^ 26 + p) z X Y := by
  have hzoom : numberZoom ((45 - z) * 2 ^ 26 + p) = 13 := by
    unfold numberZoom
    rw [if_neg (by omega), if_neg (by omega)]
    omega
  intro h
  have := hzoom.symm.trans h.1
  omega

/-- At zoom 12 it has the high bits of the column, which are found to be zero. -/
theorem not_foundIn_12 (hX : X < 2 ^ 9) (hY : Y < 2 ^ 9) :
    ¬ FoundIn (33 * 2 ^ 26 + (X * 2 ^ 9 + Y)) 12 X Y := by
  have hcolumn : (33 * 2 ^ 26 + (X * 2 ^ 9 + Y)) / 2 ^ 12 % 2 ^ 12 = X / 8 := by omega
  have hmiddle : (33 * 2 ^ 26 + (X * 2 ^ 9 + Y)) / 2 ^ 16 % 16 = X / 128 := by omega
  intro h
  have hzoom := h.1
  have hx := h.2.1
  unfold numberZoom at hzoom
  rw [if_neg (by omega), if_neg (by omega), hmiddle] at hzoom
  omega

/-- Where the low bits of the column are not found, only the first metatile is. -/
theorem origin_of_foundIn {n z : Nat} (hcolumn : n / 2 ^ z % 2 ^ z = X / 8)
    (hrow : X = 0 → n % 2 ^ z = Y) (h : FoundIn n z X Y) : X = 0 ∧ Y = 0 := by
  obtain ⟨-, hx, hy⟩ := h
  have hX : X = 0 := by omega
  have hY := (hrow hX).symm.trans hy
  exact ⟨hX, by omega⟩

theorem foundIn_13 (hX : X < 2 ^ 10) (hY : Y < 2 ^ 10) :
    FoundIn (32 * 2 ^ 26 + (X * 2 ^ 10 + Y)) 13 X Y ↔ X = 0 ∧ Y = 0 := by
  refine ⟨origin_of_foundIn (by omega) (fun h => by omega), fun h => ?_⟩
  rw [h.1, h.2]
  exact ⟨by decide, by decide, by decide⟩

theorem foundIn_14 (hX : X < 2 ^ 11) (hY : Y < 2 ^ 11) :
    FoundIn (7 * 2 ^ 28 + (X * 2 ^ 11 + Y)) 14 X Y ↔ X = 0 ∧ Y = 0 := by
  refine ⟨origin_of_foundIn (by omega) (fun h => by omega), fun h => ?_⟩
  rw [h.1, h.2]
  exact ⟨by decide, by decide, by decide⟩

/-- From zoom 15 to 17, bits of the prefix are taken for bits of the column. -/
theorem not_foundIn_15 (hX : X < 2 ^ 12) (hY : Y < 2 ^ 12) :
    ¬ FoundIn (6 * 2 ^ 28 + (X * 2 ^ 12 + Y)) 15 X Y := by
  have hcolumn : (6 * 2 ^ 28 + (X * 2 ^ 12 + Y)) / 2 ^ 15 % 2 ^ 15 = 2 ^ 14 + X / 8 := by omega
  intro h
  have hx := h.2.1
  omega

theorem not_foundIn_16 (hX : X < 2 ^ 13) (hY : Y < 2 ^ 13) :
    ¬ FoundIn (5 * 2 ^ 28 + (X * 2 ^ 13 + Y)) 16 X Y := by
  have hcolumn : (5 * 2 ^ 28 + (X * 2 ^ 13 + Y)) / 2 ^ 16 % 2 ^ 16 = 2 ^ 14 + 2 ^ 12 + X / 8 := by
    omega
  intro h
  have hx := h.2.1
  omega

theorem not_foundIn_17 (hX : X < 2 ^ 14) (hY : Y < 2 ^ 14) :
    ¬ FoundIn (4 * 2 ^ 28 + (X * 2 ^ 14 + Y)) 17 X Y := by
  have hcolumn : (4 * 2 ^ 28 + (X * 2 ^ 14 + Y)) / 2 ^ 17 % 2 ^ 17 = 2 ^ 13 + X / 8 := by omega
  intro h
  have hx := h.2.1
  omega

theorem foundIn_18 (hX : X < 2 ^ 15) (hY : Y < 2 ^ 15) :
    FoundIn (X * 2 ^ 15 + Y) 18 X Y ↔ X = 0 ∧ Y = 0 := by
  refine ⟨origin_of_foundIn (by omega) (fun h => by omega), fun h => ?_⟩
  rw [h.1, h.2]
  exact ⟨by decide, by decide, by decide⟩

/-- **What is found**, zoom by zoom. -/
theorem foundIn_iff {z : Nat} (hz : z ≤ 18) (hX : X < 2 ^ gridBits z) (hY : Y < 2 ^ gridBits z) :
    FoundIn (fragBase z + (X * 2 ^ gridBits z + Y)) z X Y ↔
      (z = 13 ∨ z = 14 ∨ z = 18) ∧ X = 0 ∧ Y = 0 := by
  by_cases hlow : z ≤ 11
  · refine iff_of_false ?_ (by omega)
    have hbase : fragBase z = (45 - z) * 2 ^ 26 := by
      rw [fragBase, if_neg (by omega), if_neg (by omega)]
      omega
    have hbits : (2 : Nat) ^ gridBits z ≤ 2 ^ 8 :=
      Nat.pow_le_pow_right (by decide) (by unfold gridBits; omega)
    have hplace : X * 2 ^ gridBits z + Y < 2 ^ 16 := by
      calc X * 2 ^ gridBits z + Y
          < X * 2 ^ gridBits z + 2 ^ gridBits z := Nat.add_lt_add_left hY _
        _ = (X + 1) * 2 ^ gridBits z := (Nat.succ_mul ..).symm
        _ ≤ 2 ^ 8 * 2 ^ 8 := Nat.mul_le_mul (by omega) hbits
    rw [hbase]
    exact not_foundIn_of_low hlow hplace
  · obtain rfl | rfl | rfl | rfl | rfl | rfl | rfl : z = 12 ∨ z = 13 ∨ z = 14 ∨ z = 15 ∨ z = 16 ∨
        z = 17 ∨ z = 18 := by omega
    · exact iff_of_false (not_foundIn_12 hX hY) (by omega)
    · exact (foundIn_13 hX hY).trans (by omega)
    · exact (foundIn_14 hX hY).trans (by omega)
    · exact iff_of_false (not_foundIn_15 hX hY) (by omega)
    · exact iff_of_false (not_foundIn_16 hX hY) (by omega)
    · exact iff_of_false (not_foundIn_17 hX hY) (by omega)
    · have hbase : fragBase (18 : Nat) = 0 := rfl
      rw [hbase, Nat.zero_add]
      exact (foundIn_18 hX hY).trans (by omega)

end Zooms

/-! ## Which tiles are found again -/

/-- What is asked of a tile: its zoom and metatile are found. -/
structure FoundAgain (tile into : TileProtocol) : Prop where
  z : (fragToTile (tileToFrag tile) into).z = tile.z
  x : (fragToTile (tileToFrag tile) into).x = metaFloor tile.x
  y : (fragToTile (tileToFrag tile) into).y = metaFloor tile.y

/-- **Keys taken apart.** The zoom and the metatile of a tile are found exactly at zooms 13, 14 and 18
in the first metatile.

The tile is in the range of the keys, and the tile that is written into is any. That no two metatiles
share a key is a fact of its own, and is not in question here: only the way back goes wrong. -/
theorem fragToTile_iff {tile : TileProtocol} (h : InRange tile) (into : TileProtocol) :
    FoundAgain tile into ↔ (tile.z = 13 ∨ tile.z = 14 ∨ tile.z = 18) ∧ tile.x < 8 ∧ tile.y < 8 := by
  have hx0 := h.x.1
  have hy0 := h.y.1
  have hgx := grid_lt h.x.1 h.x.2
  have hgy := grid_lt h.y.1 h.y.2
  have hn := h.toNat_tileToFrag
  have hzoom := fragZoom_eq (tileToFrag tile)
  obtain ⟨z, hz⟩ := Int.eq_ofNat_of_zero_le h.zoom.1
  have hz18 : z ≤ 18 := by
    have := h.zoom.2
    omega
  have hfloorX : metaFloor tile.x = ((8 * (tile.x / METATILE).toNat : Nat) : Int) := by
    unfold metaFloor METATILE
    omega
  have hfloorY : metaFloor tile.y = ((8 * (tile.y / METATILE).toNat : Nat) : Int) := by
    unfold metaFloor METATILE
    omega
  have hfound : FoundAgain tile into ↔
      FoundIn (tileToFrag tile).toNat z (tile.x / METATILE).toNat (tile.y / METATILE).toNat := by
    constructor
    · intro found
      have hzoom' : fragZoom (tileToFrag tile) = z := found.z.trans hz
      obtain ⟨_, hx, hy⟩ := fragToTile_eq hzoom' (by omega) (by omega) into
      refine ⟨hzoom.symm.trans hzoom', ?_, ?_⟩
      · have := hx.symm.trans (found.x.trans hfloorX)
        exact_mod_cast this
      · have := hy.symm.trans (found.y.trans hfloorY)
        exact_mod_cast this
    · intro found
      have hzoom' : fragZoom (tileToFrag tile) = z := hzoom.trans found.1
      obtain ⟨hz', hx, hy⟩ := fragToTile_eq hzoom' (by omega) (by omega) into
      refine ⟨hz'.trans hz.symm, ?_, ?_⟩
      · rw [hx, hfloorX]
        exact_mod_cast found.2.1
      · rw [hy, hfloorY]
        exact_mod_cast found.2.2
  rw [hfound, hn, fragPlace, hz, foundIn_iff hz18 (hz ▸ hgx) (hz ▸ hgy)]
  unfold METATILE
  omega

/-- The first tile of zoom 13. -/
theorem found_at_zoom_13 : FoundAgain { z := 13 } {} :=
  (fragToTile_iff (by decide) {}).mpr ⟨.inl rfl, by decide, by decide⟩

/-- The one tile of zoom 0 is taken for one of zoom 13. -/
theorem zoom_0_is_not_found :
    ¬ ∀ tile into : TileProtocol, InRange tile → FoundAgain tile into := by
  intro hall
  exact absurd (hall {} {} (by decide)).z (by decide)

end RenderMq
