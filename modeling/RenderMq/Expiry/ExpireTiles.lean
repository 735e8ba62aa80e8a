import RenderMq.Lib.Descent
import RenderMq.Tile.Protocol
import Mathlib.Data.Int.Order.Basic

/-!
# The metatiles that `expire_tiles` expires

The program reads tiles and collects metatiles in `all_tiles`: for each tile those of its
descendants, up to the zoom of `--expire-up-to`, and those of its ancestors, down to the zoom of
`--expire-down-to`. Before either, it replaces the tile by the corner of its metatile.

Each of the two recursions collects just what it is to (`child_and_parent_tiles_exact`). The
ancestors of the corner have the metatiles of the tile's ancestors, but the descendants of the
corner are those of one tile of 64. `inputTile_covered_iff` says which tiles have all their
descendants in these metatiles.

Coordinates are `int`s; here they are unbounded, which is the same until a shift overflows.
-/

namespace RenderMq

/-- `xyz`. -/
structure Xyz where
  x : Int
  y : Int
  z : Int
  deriving DecidableEq, Repr

namespace Xyz

/-- The metatile of a tile, by its corner. -/
def toMeta (tile : Xyz) : Xyz := { tile with x := metaFloor tile.x, y := metaFloor tile.y }

/-- The tile that a tile is a quarter of. -/
def parent (tile : Xyz) : Xyz := ⟨tile.x >>> (1 : Nat), tile.y >>> (1 : Nat), tile.z - 1⟩

/-- The quarters of a tile, in the order in which `child_tiles` goes through them. -/
def children (tile : Xyz) : List Xyz :=
  let child : Xyz := ⟨tile.x <<< (1 : Nat), tile.y <<< (1 : Nat), tile.z + 1⟩
  [child, { child with x := child.x + 1 }, { child with x := child.x + 1, y := child.y + 1 },
    { child with y := child.y + 1 }]

end Xyz

/-! ## The tree of tiles -/

namespace Xyz

theorem z_of_mem_children {tile child : Xyz} (h : child ∈ tile.children) :
    child.z = tile.z + 1 := by
  simp only [children, List.mem_cons, List.not_mem_nil, or_false] at h
  rcases h with rfl | rfl | rfl | rfl <;> rfl

/-- The children of a tile are the tiles whose parent it is. -/
theorem mem_children (child tile : Xyz) : child ∈ tile.children ↔ child.parent = tile := by
  obtain ⟨x, y, z⟩ := tile
  obtain ⟨cx, cy, cz⟩ := child
  simp only [children, parent, List.mem_cons, List.not_mem_nil, or_false, Xyz.mk.injEq,
    Int.shiftLeft_eq, Int.shiftRight_eq_div_pow]
  omega

/-- The ancestor of a tile some levels up. -/
theorem iterate_parent (k : Nat) (tile : Xyz) :
    Xyz.parent^[k] tile = ⟨tile.x / 2 ^ k, tile.y / 2 ^ k, tile.z - k⟩ := by
  induction k with
  | zero => simp
  | succ k ih =>
    have hhalf : ∀ v : Int, (v / 2 ^ k) >>> (1 : Nat) = v / 2 ^ (k + 1) := by
      intro v
      rw [Int.shiftRight_eq_div_pow, Int.ediv_ediv_of_nonneg (Int.pow_nonneg (by decide)), pow_succ]
      rfl
    rw [Function.iterate_succ_apply', ih, parent]
    simp only [hhalf, Xyz.mk.injEq, true_and]
    omega

end Xyz

namespace ExpireTiles

/-- Add the metatile of a tile, unless it is there. -/
def addMeta (tiles : Finset Xyz) (tile : Xyz) : Finset Xyz :=
  if tile.toMeta ∈ tiles then tiles else insert tile.toMeta tiles

/-- `child_tiles`. -/
def childTiles (tile : Xyz) (maxZ : Int) (tiles : Finset Xyz) : Finset Xyz :=
  let tiles := addMeta tiles tile
  if tile.z < maxZ then
    let child : Xyz := ⟨tile.x <<< (1 : Nat), tile.y <<< (1 : Nat), tile.z + 1⟩
    let tiles := childTiles child maxZ tiles
    let tiles := childTiles { child with x := child.x + 1 } maxZ tiles
    let tiles := childTiles { child with x := child.x + 1, y := child.y + 1 } maxZ tiles
    childTiles { child with y := child.y + 1 } maxZ tiles
  else tiles
termination_by (maxZ - tile.z).toNat
decreasing_by all_goals omega

/-- `parent_tiles`. -/
def parentTiles (tile : Xyz) (minZ : Int) (tiles : Finset Xyz) : Finset Xyz :=
  let tiles := addMeta tiles tile
  if tile.z > minZ then parentTiles ⟨tile.x >>> (1 : Nat), tile.y >>> (1 : Nat), tile.z - 1⟩ minZ tiles
  else tiles
termination_by (tile.z - minZ).toNat
decreasing_by all_goals omega

/-- The options `--expire-down-to` and `--expire-up-to`. -/
structure Limits where
  expireMinZ : Option Int := none
  expireMaxZ : Option Int := none

/-- `numeric_limits<int>`. -/
abbrev intMin : Int := -2 ^ 31
abbrev intMax : Int := 2 ^ 31 - 1

namespace Limits

def minZ (limits : Limits) : Int :=
  match limits.expireMinZ with
  | some z => min intMax z
  | none => intMax

def maxZ (limits : Limits) : Int :=
  match limits.expireMaxZ with
  | some z => max intMin z
  | none => intMin

end Limits

/-- What `main` does with a tile of the input. -/
def addInput (limits : Limits) (allTiles : Finset Xyz) (tile : Xyz) : Finset Xyz :=
  let tileXyz : Xyz := ⟨metaFloor tile.x, metaFloor tile.y, tile.z⟩
  let zmin := min tile.z limits.minZ
  let zmax := max tile.z limits.maxZ
  parentTiles tileXyz zmin (childTiles tileXyz zmax allTiles)

/-- `all_tiles` after the whole input. -/
def allTiles (limits : Limits) (inputs : List Xyz) : Finset Xyz :=
  inputs.foldl (addInput limits) ∅

/-! ## What the two recursions collect -/

theorem addMeta_eq (tiles : Finset Xyz) (tile : Xyz) :
    addMeta tiles tile = insert tile.toMeta tiles := by
  unfold addMeta
  split
  · next h => exact (Finset.insert_eq_self.mpr h).symm
  · rfl

theorem childTiles_eq (maxZ : Int) (n : Nat) : ∀ (tile : Xyz) (tiles : Finset Xyz),
    (maxZ - tile.z).toNat = n →
      childTiles tile maxZ tiles =
        Descent.collect Xyz.toMeta (Descent.descend Xyz.children n tile) tiles := by
  induction n with
  | zero =>
    intro tile tiles hn
    rw [childTiles, if_neg (by omega), addMeta_eq]
    rfl
  | succ n ih =>
    intro tile tiles hn
    rw [childTiles, if_pos (by omega), addMeta_eq]
    show tile.children.foldl (fun s child => childTiles child maxZ s) (insert tile.toMeta tiles) =
      Descent.collect Xyz.toMeta (tile.children.flatMap (Descent.descend Xyz.children n))
        (insert tile.toMeta tiles)
    rw [Descent.collect_flatMap]
    refine List.foldl_ext _ _ _ fun s child hchild => ih child s ?_
    rw [Xyz.z_of_mem_children hchild]
    omega

theorem parentTiles_eq (minZ : Int) (n : Nat) : ∀ (tile : Xyz) (tiles : Finset Xyz),
    (tile.z - minZ).toNat = n →
      parentTiles tile minZ tiles =
        Descent.collect Xyz.toMeta (Descent.ascend Xyz.parent n tile) tiles := by
  induction n with
  | zero =>
    intro tile tiles hn
    rw [parentTiles, if_neg (by omega), addMeta_eq]
    rfl
  | succ n ih =>
    intro tile tiles hn
    rw [parentTiles, if_pos (by omega), addMeta_eq]
    exact ih tile.parent _ (by show (tile.z - 1 - minZ).toNat = n; omega)

/-! ## The input -/

/-- How many levels of descendants, and of ancestors, are asked for. -/
def levelsBelow (limits : Limits) (tile : Xyz) : Nat := (max tile.z limits.maxZ - tile.z).toNat

def levelsAbove (limits : Limits) (tile : Xyz) : Nat := (tile.z - min tile.z limits.minZ).toNat

/-- A tile of the input adds a metatile: as one of a descendant of its corner, or of an ancestor. -/
def Adds (limits : Limits) (tile metatile : Xyz) : Prop :=
  (∃ d, (∃ k ≤ levelsBelow limits tile, Xyz.parent^[k] d = tile.toMeta) ∧ d.toMeta = metatile) ∨
    ∃ k ≤ levelsAbove limits tile, (Xyz.parent^[k] tile.toMeta).toMeta = metatile

theorem mem_childTiles (tile : Xyz) (maxZ : Int) (tiles : Finset Xyz) (metatile : Xyz) :
    metatile ∈ childTiles tile maxZ tiles ↔ metatile ∈ tiles ∨
      ∃ d, (∃ k ≤ (maxZ - tile.z).toNat, Xyz.parent^[k] d = tile) ∧ d.toMeta = metatile := by
  rw [childTiles_eq maxZ _ tile tiles rfl]
  simp only [Descent.mem_collect, Descent.mem_descend Xyz.mem_children]

theorem mem_parentTiles (tile : Xyz) (minZ : Int) (tiles : Finset Xyz) (metatile : Xyz) :
    metatile ∈ parentTiles tile minZ tiles ↔ metatile ∈ tiles ∨
      ∃ k ≤ (tile.z - minZ).toNat, (Xyz.parent^[k] tile).toMeta = metatile := by
  rw [parentTiles_eq minZ _ tile tiles rfl]
  simp only [Descent.mem_collect, Descent.mem_ascend, exists_exists_and_eq_and]

theorem mem_addInput (limits : Limits) (tiles : Finset Xyz) (tile metatile : Xyz) :
    metatile ∈ addInput limits tiles tile ↔ metatile ∈ tiles ∨ Adds limits tile metatile := by
  show metatile ∈ parentTiles tile.toMeta _ (childTiles tile.toMeta _ tiles) ↔ _
  rw [mem_parentTiles, mem_childTiles, Adds, or_assoc]
  rfl

/-- Each tile of the input adds its metatiles, whatever is there already. -/
theorem mem_allTiles (limits : Limits) (inputs : List Xyz) (metatile : Xyz) :
    metatile ∈ allTiles limits inputs ↔ ∃ tile ∈ inputs, Adds limits tile metatile := by
  have hfold : ∀ tiles : Finset Xyz, metatile ∈ inputs.foldl (addInput limits) tiles ↔
      metatile ∈ tiles ∨ ∃ tile ∈ inputs, Adds limits tile metatile := by
    induction inputs with
    | nil => simp
    | cons tile inputs ih =>
      intro tiles
      rw [List.foldl_cons, ih, mem_addInput, List.exists_mem_cons_iff, or_assoc]
  have hempty := hfold ∅
  rwa [or_iff_right (Finset.notMem_empty metatile)] at hempty

/-! ## Which descendants are reached -/

theorem one_le_of_ne_zero {x : Int} (h : x % METATILE ≠ 0) : 1 ≤ x % METATILE := by
  unfold METATILE at *
  omega

/-- Where a coordinate is near its metatile's corner, its descendants are in metatiles of the
corner's descendants. -/
theorem exists_of_near {x v : Int} {k : Nat} (hnear : x % METATILE * 2 ^ k < METATILE)
    (hv : v / 2 ^ k = x) : ∃ w, w / 2 ^ k = metaFloor x ∧ metaFloor w = metaFloor v := by
  by_cases hcorner : x % METATILE = 0
  · exact ⟨v, by rw [hv, metaFloor, hcorner, Int.sub_zero], rfl⟩
  · -- the descendants are all in the first metatile
    have hk : k < 3 := by
      by_contra hge
      have hpow : (2 : Int) ^ 3 ≤ 2 ^ k := pow_le_pow_right₀ (by decide) (by omega)
      have hle : 1 * 2 ^ 3 ≤ x % METATILE * 2 ^ k :=
        mul_le_mul (one_le_of_ne_zero hcorner) hpow (by decide) (Int.emod_nonneg _ (by decide))
      unfold METATILE at *
      omega
    refine ⟨metaFloor x * 2 ^ k, Int.mul_ediv_cancel _ (pow_ne_zero k (by decide)), ?_⟩
    unfold metaFloor METATILE at *
    obtain rfl | rfl | rfl : k = 0 ∨ k = 1 ∨ k = 2 := by omega
    all_goals omega

/-- And where it is not, its first descendant is in none of them. -/
theorem near_of_metaFloor_eq {x w : Int} {k : Nat} (hw : w / 2 ^ k = metaFloor x)
    (hmeta : metaFloor w = metaFloor (x * 2 ^ k)) : x % METATILE * 2 ^ k < METATILE := by
  by_cases hcorner : x % METATILE = 0
  · rw [hcorner, Int.zero_mul]
    decide
  by_cases hk : k < 3
  · unfold metaFloor METATILE at *
    obtain rfl | rfl | rfl : k = 0 ∨ k = 1 ∨ k = 2 := by omega
    all_goals omega
  · -- the first descendant is a corner itself, and beyond all descendants of the corner
    exfalso
    have hpos : (0 : Int) < 2 ^ k := pow_pos (by decide) k
    have hlt : w < (metaFloor x + 1) * 2 ^ k := by
      rw [← hw]
      exact Int.lt_ediv_add_one_mul_self w hpos
    have hle : (metaFloor x + 1) * 2 ^ k ≤ x * 2 ^ k := by
      refine Int.mul_le_mul_of_nonneg_right ?_ hpos.le
      have := metaFloor_add_emod x
      have := one_le_of_ne_zero hcorner
      omega
    have hdvd : METATILE ∣ x * 2 ^ k :=
      Dvd.dvd.mul_left (pow_dvd_pow (2 : Int) (Nat.le_of_not_lt hk)) x
    unfold metaFloor METATILE at hmeta hdvd
    omega

/-- The metatile of an ancestor of the corner is that of the tile's. -/
theorem metaFloor_ediv (x : Int) (k : Nat) :
    metaFloor (metaFloor x / 2 ^ k) = metaFloor (x / 2 ^ k) := by
  have hpos : (0 : Int) < 2 ^ k := pow_pos (by decide) k
  have hfloor : ∀ v : Int, metaFloor v = 8 * (v / 8) := by
    intro v
    unfold metaFloor METATILE
    omega
  have hcomm : ∀ v : Int, v / 2 ^ k / 8 = v / 8 / 2 ^ k := by
    intro v
    rw [Int.ediv_ediv_of_nonneg hpos.le, Int.mul_comm, Int.ediv_ediv_of_nonneg (by decide)]
  rw [hfloor, hfloor (x / 2 ^ k), hcomm, hcomm, hfloor, Int.mul_ediv_cancel_left _ (by decide)]

/-! ## The input is covered -/

/-- A tile is at or below another. -/
def IsDescendant (d tile : Xyz) : Prop := ∃ k : Nat, Xyz.parent^[k] d = tile

/-- A tile lies in the square of another, on the same level or below: on each level down, the sides are
twice as long. -/
def Within (d tile : Xyz) : Prop :=
  ∃ k : Nat, d.z = tile.z + k ∧ (tile.x * 2 ^ k ≤ d.x ∧ d.x < (tile.x + 1) * 2 ^ k) ∧
    tile.y * 2 ^ k ≤ d.y ∧ d.y < (tile.y + 1) * 2 ^ k

/-- An ancestor's coordinate covers a range. -/
theorem ediv_pow_eq_iff (v w : Int) (k : Nat) :
    v / 2 ^ k = w ↔ w * 2 ^ k ≤ v ∧ v < (w + 1) * 2 ^ k := by
  have hpos : (0 : Int) < 2 ^ k := pow_pos (by decide) k
  rw [← Int.le_ediv_iff_mul_le hpos, ← Int.ediv_lt_iff_lt_mul hpos]
  omega

theorem iterate_parent_eq_iff (d tile : Xyz) (k : Nat) : Xyz.parent^[k] d = tile ↔
    d.z = tile.z + k ∧ (tile.x * 2 ^ k ≤ d.x ∧ d.x < (tile.x + 1) * 2 ^ k) ∧
      tile.y * 2 ^ k ≤ d.y ∧ d.y < (tile.y + 1) * 2 ^ k := by
  rw [Xyz.iterate_parent, ← ediv_pow_eq_iff, ← ediv_pow_eq_iff]
  constructor
  · rintro rfl
    exact ⟨by show d.z = d.z - k + k; omega, rfl, rfl⟩
  · rintro ⟨hz, hx, hy⟩
    rw [hx, hy, hz, Int.add_sub_cancel]

/-- The tiles at or below another are those in its square. -/
theorem isDescendant_iff_within (d tile : Xyz) : IsDescendant d tile ↔ Within d tile :=
  exists_congr fun k => iterate_parent_eq_iff d tile k

/-- **The two recursions are exact.** To what is there already, `child_tiles` adds the metatiles of the
tiles in the square of its tile, on all levels to the limit, and `parent_tiles` those of the tiles in
whose square its tile is; on the level of the tile itself both start, whatever the limit.

The tile, the limit and what is there already are any. Whether a tile lies in the world, and whether
these are the metatiles that should be expired, is not part of this. -/
theorem child_and_parent_tiles_exact (tile : Xyz) (limit : Int) (tiles : Finset Xyz)
    (metatile : Xyz) :
    (metatile ∈ childTiles tile limit tiles ↔ metatile ∈ tiles ∨
      ∃ d, Within d tile ∧ d.z ≤ max tile.z limit ∧ d.toMeta = metatile) ∧
    (metatile ∈ parentTiles tile limit tiles ↔ metatile ∈ tiles ∨
      ∃ a, Within tile a ∧ min tile.z limit ≤ a.z ∧ a.toMeta = metatile) := by
  rw [mem_childTiles, mem_parentTiles]
  constructor
  · refine or_congr_right (exists_congr fun d => ?_)
    rw [← and_assoc]
    refine and_congr_left fun _ => ?_
    constructor
    · rintro ⟨k, hk, hd⟩
      have hz := ((iterate_parent_eq_iff d tile k).mp hd).1
      exact ⟨⟨k, (iterate_parent_eq_iff d tile k).mp hd⟩, by omega⟩
    · rintro ⟨⟨k, hd⟩, hlimit⟩
      exact ⟨k, by omega, (iterate_parent_eq_iff d tile k).mpr hd⟩
  · refine or_congr_right ?_
    constructor
    · rintro ⟨k, hk, rfl⟩
      have hz := ((iterate_parent_eq_iff tile _ k).mp rfl).1
      exact ⟨_, ⟨k, (iterate_parent_eq_iff tile _ k).mp rfl⟩, by omega, rfl⟩
    · rintro ⟨a, ⟨k, ha⟩, hlimit, rfl⟩
      exact ⟨k, by omega, congrArg Xyz.toMeta ((iterate_parent_eq_iff tile a k).mpr ha)⟩

/-- The metatiles of all descendants and ancestors of a tile are there, within the limits. -/
structure Covered (limits : Limits) (tiles : Finset Xyz) (tile : Xyz) : Prop where
  descendants : ∀ d, IsDescendant d tile → d.z ≤ max tile.z limits.maxZ → d.toMeta ∈ tiles
  ancestors : ∀ a, IsDescendant tile a → min tile.z limits.minZ ≤ a.z → a.toMeta ∈ tiles

/-- On the deepest level asked for, the first descendant of the tile is in the first metatile below
the corner of its metatile. -/
def NearCorner (limits : Limits) (tile : Xyz) : Prop :=
  tile.x % METATILE * 2 ^ levelsBelow limits tile < METATILE ∧
    tile.y % METATILE * 2 ^ levelsBelow limits tile < METATILE

/-- The ancestors are covered, whatever the tile. -/
theorem adds_ancestor {limits : Limits} {tile a : Xyz} (ha : IsDescendant tile a)
    (hz : min tile.z limits.minZ ≤ a.z) : Adds limits tile a.toMeta := by
  obtain ⟨k, rfl⟩ := ha
  refine .inr ⟨k, ?_, ?_⟩
  · rw [Xyz.iterate_parent] at hz
    show k ≤ (tile.z - min tile.z limits.minZ).toNat
    have : min tile.z limits.minZ ≤ tile.z - k := hz
    omega
  · simp only [Xyz.iterate_parent, Xyz.toMeta, metaFloor_ediv]

theorem adds_descendant {limits : Limits} {tile d : Xyz} (hnear : NearCorner limits tile)
    (hd : IsDescendant d tile) (hz : d.z ≤ max tile.z limits.maxZ) :
    Adds limits tile d.toMeta := by
  obtain ⟨k, hk⟩ := hd
  obtain ⟨hx, hy, htile⟩ := Xyz.mk.inj ((Xyz.iterate_parent k d).symm.trans hk)
  have hle : k ≤ levelsBelow limits tile := by
    unfold levelsBelow
    omega
  -- what is near enough for the deepest level is near enough for this one
  have hlevel : ∀ v : Int, v % METATILE * 2 ^ levelsBelow limits tile < METATILE →
      v % METATILE * 2 ^ k < METATILE := by
    intro v hv
    refine lt_of_le_of_lt ?_ hv
    exact mul_le_mul_of_nonneg_left (pow_le_pow_right₀ (by decide) hle)
      (Int.emod_nonneg _ (by decide))
  obtain ⟨wx, hwx, hmetaX⟩ := exists_of_near (hlevel _ hnear.1) hx
  obtain ⟨wy, hwy, hmetaY⟩ := exists_of_near (hlevel _ hnear.2) hy
  refine .inl ⟨⟨wx, wy, d.z⟩, ⟨k, hle, ?_⟩, ?_⟩
  · rw [Xyz.iterate_parent]
    exact Xyz.mk.injEq .. ▸ ⟨hwx, hwy, htile⟩
  · exact Xyz.mk.injEq .. ▸ ⟨hmetaX, hmetaY, rfl⟩

/-- The first descendant of a tile, some levels down. -/
def firstDescendant (k : Nat) (tile : Xyz) : Xyz := ⟨tile.x * 2 ^ k, tile.y * 2 ^ k, tile.z + k⟩

theorem isDescendant_firstDescendant (k : Nat) (tile : Xyz) :
    IsDescendant (firstDescendant k tile) tile := by
  have hpow : (2 : Int) ^ k ≠ 0 := pow_ne_zero k (by decide)
  refine ⟨k, ?_⟩
  rw [Xyz.iterate_parent, firstDescendant]
  simp only [Int.mul_ediv_cancel _ hpow, Int.add_sub_cancel]

/-- Without the condition, the first descendant on the deepest level is not reached. -/
theorem nearCorner_of_adds {limits : Limits} {tile : Xyz}
    (h : Adds limits tile (firstDescendant (levelsBelow limits tile) tile).toMeta) :
    NearCorner limits tile := by
  rcases h with ⟨d, ⟨k, -, hk⟩, hmeta⟩ | ⟨k, -, hmeta⟩
  · rw [Xyz.iterate_parent] at hk
    obtain ⟨hx, hy, hz⟩ := Xyz.mk.inj hk
    obtain ⟨hmetaX, hmetaY, hmetaZ⟩ := Xyz.mk.inj hmeta
    -- it can only be reached on its own level
    obtain rfl : k = levelsBelow limits tile := by
      have : d.z = tile.z + levelsBelow limits tile := hmetaZ
      have : d.z - k = tile.z := hz
      omega
    exact ⟨near_of_metaFloor_eq hx hmetaX, near_of_metaFloor_eq hy hmetaY⟩
  · rw [Xyz.iterate_parent] at hmeta
    obtain ⟨-, -, hmetaZ⟩ := Xyz.mk.inj hmeta
    have hzero : levelsBelow limits tile = 0 := by
      have : tile.z - k = tile.z + levelsBelow limits tile := hmetaZ
      omega
    rw [NearCorner, hzero, pow_zero, Int.mul_one, Int.mul_one]
    exact ⟨Int.emod_lt_of_pos _ (by decide), Int.emod_lt_of_pos _ (by decide)⟩

/-- A tile of the input is covered whatever the rest of the input is, exactly where it is near the
corner of its metatile.

The limits are any. Other tiles of the input may cover what this one does not, and so the rest of the
input is arbitrary. That nothing else is added is no part of covering. -/
theorem inputTile_covered_iff (limits : Limits) (tile : Xyz) :
    (∀ inputs, tile ∈ inputs → Covered limits (allTiles limits inputs) tile) ↔
      NearCorner limits tile := by
  constructor
  · intro h
    have hadded := (h [tile] List.mem_cons_self).descendants _
      (isDescendant_firstDescendant (levelsBelow limits tile) tile)
      (by show tile.z + levelsBelow limits tile ≤ _; unfold levelsBelow; omega)
    obtain ⟨t, ht, hadds⟩ := (mem_allTiles ..).mp hadded
    rw [List.mem_singleton.mp ht] at hadds
    exact nearCorner_of_adds hadds
  · intro hnear inputs hmem
    constructor
    · intro d hd hz
      exact (mem_allTiles ..).mpr ⟨tile, hmem, adds_descendant hnear hd hz⟩
    · intro a ha hz
      exact (mem_allTiles ..).mpr ⟨tile, hmem, adds_ancestor ha hz⟩

/-- The last tile of a row of its metatile, with one level of descendants: these begin in the next
metatile. -/
theorem last_in_row_not_covered :
    ¬ Covered { expireMaxZ := some 4 } (allTiles { expireMaxZ := some 4 } [⟨7, 0, 3⟩]) ⟨7, 0, 3⟩ := by
  intro h
  have hadded := h.descendants ⟨14, 0, 4⟩ ⟨1, rfl⟩ (by decide)
  obtain ⟨t, ht, hadds⟩ := (mem_allTiles ..).mp hadded
  rw [List.mem_singleton.mp ht] at hadds
  exact absurd (nearCorner_of_adds hadds).1 (by decide)

end ExpireTiles

end RenderMq
