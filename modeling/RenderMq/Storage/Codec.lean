import RenderMq.Storage.Requests

/-!
# The metatile codec

`make_metatile` puts responses together in the order of the requests for them: format by format, and
in each the rows and columns of the grid, which has less than 8×8 tiles below zoom 3.
`metatile_reader` looks in the index of a header, where a row is always 8 entries long.

`make_metatile_round_trip` says that the two agree, whatever the responses are. The order of the
requests is that of `metaSlots`; `metaSlots_getElem?` is where a tile stands in it.
-/

namespace RenderMq

/-- The width of a metatile's grid. -/
def gridWidth (z : Int) : Nat := (getMetaDimensions z).toNat

theorem gridWidth_eq {z : Int} (hz : 0 ≤ z ∧ z ≤ 30) : gridWidth z = min (2 ^ z.toNat) 8 := by
  rw [gridWidth, getMetaDimensions_eq hz.1 hz.2]
  have hcast : min ((2 : Int) ^ z.toNat) METATILE = ((min (2 ^ z.toNat) 8 : Nat) : Int) := by
    push_cast
    rfl
  rw [hcast, Int.toNat_natCast]

theorem gridWidth_le (z : Int) : gridWidth z ≤ 8 := by
  have : getMetaDimensions z ≤ 8 := min_le_right ..
  unfold gridWidth
  omega

/-! ## Where a tile stands -/

theorem tileIndex_add {x y : Int} {dx dy : Nat} (hx : dx < 8) (hy : dy < 8) :
    ((tileIndex (metaFloor x + dx) (metaFloor y + dy) : Fin 64) : Nat) % 8 = dx ∧
      ((tileIndex (metaFloor x + dx) (metaFloor y + dy) : Fin 64) : Nat) / 8 = dy := by
  have hcol := tileIndex_col (metaFloor x + dx) (metaFloor y + dy)
  have hrow := tileIndex_row (metaFloor x + dx) (metaFloor y + dy)
  rw [(metaFloor_add (Int.natCast_nonneg dx) (Int.ofNat_lt.mpr hx)).2] at hcol
  rw [(metaFloor_add (Int.natCast_nonneg dy) (Int.ofNat_lt.mpr hy)).2] at hrow
  exact ⟨by exact_mod_cast hcol, by exact_mod_cast hrow⟩

theorem inGrid_tileIndex_add {x y z : Int} {dx dy : Nat} (hx : dx < 8) (hy : dy < 8) :
    inGrid z (tileIndex (metaFloor x + dx) (metaFloor y + dy)) = true ↔
      dx < gridWidth z ∧ dy < gridWidth z := by
  obtain ⟨hcol, hrow⟩ := tileIndex_add (x := x) (y := y) hx hy
  rw [LtsStorage.inGrid_eq, Bool.and_eq_true, decide_eq_true_eq, decide_eq_true_eq, hcol, hrow,
    gridWidth]

/-- The positions of the grid, row by row. -/
theorem grid_pairs (z : Int) :
    ((List.range (gridWidth z)).flatMap fun dy => (List.range (gridWidth z)).map fun dx =>
      (dx, dy)) =
      ((List.finRange 64).filter (inGrid z)).map fun i : Fin 64 => ((i % 8 : Nat), (i / 8 : Nat)) := by
  have hle := gridWidth_le z
  have hinside : inGrid z = fun i : Fin 64 =>
      decide ((i % 8 : Nat) < gridWidth z) && decide ((i / 8 : Nat) < gridWidth z) :=
    funext (LtsStorage.inGrid_eq z)
  rw [hinside]
  exact LtsStorage.grid_eq ⟨gridWidth z, by omega⟩

theorem grid_getElem? {x y z : Int} {dx dy : Nat} (hx : dx < gridWidth z) (hy : dy < gridWidth z) :
    ((List.finRange 64).filter (inGrid z))[gridWidth z * dy + dx]? =
      some (tileIndex (metaFloor x + dx) (metaFloor y + dy)) := by
  have hle := gridWidth_le z
  have hat : ((List.range (gridWidth z)).flatMap fun dy =>
      (List.range (gridWidth z)).map fun dx => (dx, dy))[gridWidth z * dy + dx]? = some (dx, dy) := by
    have hblock (dy : Nat) :
        ((List.range (gridWidth z)).map fun dx => (dx, dy)).length = gridWidth z := by simp
    rw [Pieces.getElem?_flatMap_block hblock _ _ hx, List.getElem?_range hy, Option.bind_some,
      List.getElem?_map, List.getElem?_range hx, Option.map_some]
  rw [grid_pairs, List.getElem?_map] at hat
  obtain ⟨i, hi, hpair⟩ := Option.map_eq_some_iff.mp hat
  obtain ⟨hcol, hrow⟩ := tileIndex_add (x := x) (y := y) (hx.trans_le hle) (hy.trans_le hle)
  refine hi.trans (congrArg some (Fin.ext ?_))
  have hcol' : (i : Nat) % 8 = dx := congrArg Prod.fst hpair
  have hrow' : (i : Nat) / 8 = dy := congrArg Prod.snd hpair
  omega

theorem metaSlots_nodup (tile : TileProtocol) : (metaSlots tile).Nodup :=
  ((getFormatsVec_nodup tile.format).product (List.nodup_finRange 64)).filter _

theorem metaSlots_eq (tile : TileProtocol) :
    metaSlots tile = (getFormatsVec tile.format).flatMap fun fmt =>
      ((List.finRange 64).filter (inGrid tile.z)).map fun i => (fmt, i) := by
  rw [metaSlots, gridSlots, allSlots, List.filter_flatMap]
  refine List.flatMap_congr fun fmt _ => ?_
  rw [List.filter_map]
  rfl

theorem length_grid (z : Int) :
    ((List.finRange 64).filter (inGrid z)).length = gridWidth z * gridWidth z := by
  have hlength := congrArg List.length (grid_pairs z)
  rw [List.length_map] at hlength
  rw [← hlength, List.length_flatMap]
  simp

/-- The order of the requests: where the tile of a format stands that is `dx` columns and `dy` rows
into the metatile. -/
theorem metaSlots_getElem? (tile : TileProtocol) {fmt : ProtoFmt} {k dx dy : Nat}
    (hk : (getFormatsVec tile.format)[k]? = some fmt) (hx : dx < gridWidth tile.z)
    (hy : dy < gridWidth tile.z) :
    (metaSlots tile)[gridWidth tile.z * gridWidth tile.z * k + (gridWidth tile.z * dy + dx)]? =
      some (fmt, tileIndex (metaFloor tile.x + dx) (metaFloor tile.y + dy)) := by
  have hblock : ∀ f : ProtoFmt, (((List.finRange 64).filter (inGrid tile.z)).map
      fun i => (f, i)).length = gridWidth tile.z * gridWidth tile.z :=
    fun f => by rw [List.length_map, length_grid]
  have hlt : gridWidth tile.z * dy + dx < gridWidth tile.z * gridWidth tile.z := by
    have := Nat.mul_le_mul_left (gridWidth tile.z) (Nat.succ_le_of_lt hy)
    rw [Nat.mul_succ] at this
    omega
  rw [metaSlots_eq, Pieces.getElem?_flatMap_block hblock _ _ hlt, hk, Option.bind_some,
    List.getElem?_map, grid_getElem? hx hy, Option.map_some]

theorem length_metaSlots (tile : TileProtocol) :
    (metaSlots tile).length =
      (getFormatsVec tile.format).length * (gridWidth tile.z * gridWidth tile.z) := by
  rw [metaSlots_eq, List.length_flatMap]
  simp [length_grid]

/-! ## The round trip -/

/-- Outside the grid there is nothing to read. -/
theorem get_metatileOf_outside {tile : TileProtocol} {body : Slot → Bytes} {fmt : ProtoFmt}
    (hfmt : fmt ∈ getFormatsVec tile.format) (small : (metatileOf tile body).length < 2 ^ 31)
    {x y : Int} (hgrid : inGrid tile.z (tileIndex x y) = false) :
    (metatileReader (metatileOf tile body) fmt).get x y = some [] := by
  have hread := get_written (getFormatsVec_nodup tile.format) hfmt small x y
  simp only [hgrid, Bool.false_eq_true, if_false] at hread
  exact hread

/-- **The round trip.** Of as many responses as there are requests for a metatile in some formats, the
reader of a format hands out the body of the response for a tile, and nothing outside the grid.

The mask is any, and the zoom from 0 to 30. All headers and bodies together have less than 2^31 bytes,
so that an `int` holds each offset. That the responses came in the order of the requests is for the
fetch to see to. -/
theorem make_metatile_round_trip (tile : TileProtocol) (zoom : 0 ≤ tile.z ∧ tile.z ≤ 30)
    (responses : List Response)
    (count : responses.length =
      (getFormatsVec tile.format).length * (min (2 ^ tile.z.toNat) 8 * min (2 ^ tile.z.toNat) 8))
    (small : (getFormatsVec tile.format).length * headerSize +
      (responses.map fun r => r.body.length).sum < 2 ^ 31) :
    ∃ metatile, makeMetatile tile responses = some metatile ∧
      ∀ (k : Nat) (fmt : ProtoFmt), (getFormatsVec tile.format)[k]? = some fmt →
      ∀ dx dy : Nat, dx < 8 → dy < 8 →
        let width := min (2 ^ tile.z.toNat) 8
        let read := (metatileReader metatile fmt).get (metaFloor tile.x + dx) (metaFloor tile.y + dy)
        (dx < width ∧ dy < width → ∃ response,
          responses[width * width * k + (width * dy + dx)]? = some response ∧
          read = some response.body) ∧
        (¬ (dx < width ∧ dy < width) → read = some []) := by
  simp only [← gridWidth_eq zoom] at count ⊢
  obtain ⟨g, rfl⟩ := Pieces.exists_map_of_nodup (metaSlots_nodup tile)
    (count.trans (length_metaSlots tile).symm) ({} : Response)
  have hsmall : (metatileOf tile fun s => (g s).body).length < 2 ^ 31 := by
    rw [length_metatileOf]
    rwa [List.map_map] at small
  refine ⟨_, makeMetatile_slots tile g, fun k fmt hk dx dy hx hy => ⟨?_, fun houtside => ?_⟩⟩
  · rintro ⟨hdx, hdy⟩
    refine ⟨g (fmt, tileIndex (metaFloor tile.x + dx) (metaFloor tile.y + dy)), ?_, ?_⟩
    · rw [List.getElem?_map, metaSlots_getElem? tile hk hdx hdy, Option.map_some]
    · exact get_metatileOf (List.mem_of_getElem? hk) hsmall
        ((inGrid_tileIndex_add hx hy).mpr ⟨hdx, hdy⟩)
  · refine get_metatileOf_outside (List.mem_of_getElem? hk) hsmall ?_
    rw [← Bool.not_eq_true]
    exact fun hgrid => houtside ((inGrid_tileIndex_add hx hy).mp hgrid)

/-- Zoom 1 has four tiles, and a metatile of them in two formats is read back. -/
theorem four_tiles_in_two_formats :
    let tile : TileProtocol := { z := 1, format := fmtPNG ||| fmtJPEG }
    let responses : List Response := (List.range 8).map fun n => { body := [.ofNat n, 7] }
    ∃ metatile, makeMetatile tile responses = some metatile ∧
      (metatileReader metatile fmtJPEG).get 1 0 = some [5, 7] := by
  intro tile responses
  obtain ⟨metatile, hmake, hread⟩ :=
    make_metatile_round_trip tile (by decide) responses (by decide) (by decide)
  obtain ⟨response, hresponse, hbody⟩ :=
    (hread 1 fmtJPEG (by decide) 1 0 (by decide) (by decide)).1 (by decide)
  refine ⟨metatile, hmake, hbody.trans ?_⟩
  have hfifth : responses[5]? = some { body := [5, 7] } := by decide
  rw [← Option.some.inj (hfifth.symm.trans hresponse)]

end RenderMq
