import RenderMq.Lib.Masks
import RenderMq.Storage.Disk

/-!
# The path of a metatile, in two languages

The Python renderer has an `xyz_to_meta` of its own, on integers of any width. It works on their bits
where the model of the C++ function counts, and finds the same path and the same place
(`pyXyzToMeta_eq`), whatever the coordinates are.

The path and the place together tell the tile (`xyzToMeta_inj`). Styles may have separators in them, so
that a path is read from its end.
-/

namespace RenderMq

/-! ## The Python functions -/

/-- `mask`. -/
def pyMask : Int := METATILE - 1

/-- `hashes` of the Python function. -/
def pyHashes (x y : Int) : Nat → Int
  | 0 => Int.lor (Int.shiftLeft (Int.land x 0x0f) 4) (Int.land y 0x0f)
  | i + 1 => pyHashes (Int.shiftRight x 4) (Int.shiftRight y 4) i

/-- `xyz_to_meta` of `metatile.py`. -/
def pyXyzToMeta (tilePath : String) (x y z : Int) (style : String) : String :=
  let hashes := pyHashes (Int.land x (Int.lnot pyMask)) (Int.land y (Int.lnot pyMask))
  tilePath ++ "/" ++ style ++ "/" ++ toString z ++ "/" ++ toString (hashes 4) ++ "/" ++
    toString (hashes 3) ++ "/" ++ toString (hashes 2) ++ "/" ++ toString (hashes 1) ++ "/" ++
    toString (hashes 0) ++ ".meta"

/-- `xyz_to_meta_offset` of `metatile.py`. -/
def pyXyzToMetaOffset (x y : Int) : Int :=
  Int.land y pyMask * METATILE + Int.land x pyMask

/-! ## Bits and remainders -/

theorem land_pyMask (v : Int) : Int.land v pyMask = v % METATILE := Masks.land_low 3 v

theorem land_not_pyMask (v : Int) : Int.land v (Int.lnot pyMask) = metaFloor v :=
  Masks.land_high 3 v

theorem land_nibble (v : Int) : Int.land v 0x0f = v % 16 := Masks.land_low 4 v

/-- A round of the Python loop packs what a round of the C++ loop counts. -/
theorem pyHashes_eq (x y : Int) (i : Nat) : pyHashes x y i = metaHash x y i := by
  induction i generalizing x y with
  | zero =>
    have hrow := Int.emod_nonneg y (b := 16) (by decide)
    have hlt := Int.emod_lt_of_pos y (b := 16) (by decide)
    have hshift : Int.shiftLeft (x % 16) 4 = x % 16 * 2 ^ 4 := Int.shiftLeft_eq (x % 16) 4
    rw [pyHashes, metaHash, land_nibble, land_nibble, hshift, Masks.lor_fields _ hrow hlt]
    rfl
  | succ i ih =>
    have hshift (v : Int) : Int.shiftRight v 4 = v / 16 := Int.shiftRight_eq_div_pow v 4
    rw [pyHashes, metaHash, hshift, hshift, ih]

/-- The paths are the same, whatever the coordinates are. -/
theorem pyXyzToMeta_eq (dir : String) (x y z : Int) (style : String) :
    pyXyzToMeta dir x y z style = (xyzToMeta dir x y z style).1 := by
  have hhashes : pyHashes (Int.land x (Int.lnot pyMask)) (Int.land y (Int.lnot pyMask)) =
      metaHash (metaFloor x) (metaFloor y) := by
    funext i
    rw [land_not_pyMask, land_not_pyMask, pyHashes_eq]
  unfold pyXyzToMeta
  rw [hhashes]
  rfl

theorem pyXyzToMetaOffset_eq (x y : Int) : pyXyzToMetaOffset x y = xyzToMetaOffset x y := by
  have hcol := Int.emod_nonneg x (b := METATILE) (by decide)
  have hrow := Int.emod_nonneg y (b := METATILE) (by decide)
  rw [pyXyzToMetaOffset, xyzToMetaOffset, land_pyMask, land_pyMask, Int.toNat_of_nonneg]
  unfold METATILE at *
  omega

/-! ## What a path and a place tell -/

/-- Tiles of a metatile differ in their places. -/
theorem tileIndex_inj {x y x' y' : Int} (hx : metaFloor x = metaFloor x')
    (hy : metaFloor y = metaFloor y') (h : tileIndex x y = tileIndex x' y') : x = x' ∧ y = y' := by
  have hcol := tileIndex_col x y
  have hrow := tileIndex_row x y
  rw [h, tileIndex_col] at hcol
  rw [h, tileIndex_row] at hrow
  rw [← metaFloor_add_emod x, ← metaFloor_add_emod x', ← metaFloor_add_emod y,
    ← metaFloor_add_emod y', hx, hy, hcol, hrow]
  exact ⟨rfl, rfl⟩

/-- A path in a directory belongs to one metatile. -/
theorem xyzToMeta_path_eq_iff (dir : String) {t u : TileProtocol} (ht : HashRange t)
    (hu : HashRange u) :
    (xyzToMeta dir t.x t.y t.z t.style).1 = (xyzToMeta dir u.x u.y u.z u.style).1 ↔
      SameMetatile t u :=
  DiskStorage.metatilePath_eq_iff ⟨dir⟩ ht hu

/-- The path and the place tell the tile. -/
theorem xyzToMeta_inj (dir : String) {t u : TileProtocol} (ht : HashRange t) (hu : HashRange u)
    (h : xyzToMeta dir t.x t.y t.z t.style = xyzToMeta dir u.x u.y u.z u.style) :
    t.x = u.x ∧ t.y = u.y ∧ t.z = u.z ∧ t.style = u.style := by
  have same := (xyzToMeta_path_eq_iff dir ht hu).mp (congrArg Prod.fst h)
  obtain ⟨hx, hy⟩ := tileIndex_inj same.x same.y (congrArg Prod.snd h)
  exact ⟨hx, hy, same.z, same.style⟩

/-- **A metatile has one path in both languages.** For coordinates that the five hashes hold, the path
and the place tell the tile, and tiles of a style and zoom level have the same path when they are in the
same metatile. The Python functions find the same path and the same place for any coordinates. No style
is left out.

The directory is one and the same for all. Beyond what the hashes hold, two metatiles may have one path.
-/
theorem metatile_path (dir : String) :
    (∀ t u : TileProtocol, HashRange t → HashRange u →
      xyzToMeta dir t.x t.y t.z t.style = xyzToMeta dir u.x u.y u.z u.style →
      t.x = u.x ∧ t.y = u.y ∧ t.z = u.z ∧ t.style = u.style) ∧
    (∀ t u : TileProtocol, HashRange t → HashRange u → t.style = u.style → t.z = u.z →
      ((xyzToMeta dir t.x t.y t.z t.style).1 = (xyzToMeta dir u.x u.y u.z u.style).1 ↔
        metaFloor t.x = metaFloor u.x ∧ metaFloor t.y = metaFloor u.y)) ∧
    ∀ (x y z : Int) (style : String),
      pyXyzToMeta dir x y z style = (xyzToMeta dir x y z style).1 ∧
      pyXyzToMetaOffset x y = ((xyzToMeta dir x y z style).2 : Nat) := by
  refine ⟨fun t u ht hu h => xyzToMeta_inj dir ht hu h, ?_, ?_⟩
  · intro t u ht hu hstyle hz
    rw [xyzToMeta_path_eq_iff dir ht hu]
    exact ⟨fun same => ⟨same.x, same.y⟩, fun same => ⟨same.1, same.2, hz, hstyle⟩⟩
  · intro x y z style
    exact ⟨pyXyzToMeta_eq dir x y z style, pyXyzToMetaOffset_eq x y⟩

/-- A tile of the first metatile and one of the next. -/
theorem metatile_path_next :
    (xyzToMeta "/t" 7 0 4 "vx/osm").1 = (xyzToMeta "/t" 8 0 4 "vx/osm").1 ↔
      metaFloor 7 = metaFloor 8 ∧ metaFloor 0 = metaFloor 0 :=
  (metatile_path "/t").2.1 { x := 7, y := 0, z := 4, style := "vx/osm" }
    { x := 8, y := 0, z := 4, style := "vx/osm" } ⟨by decide, by decide⟩ ⟨by decide, by decide⟩ rfl rfl

end RenderMq
