import Mathlib.Data.String.Basic
import RenderMq.Lib.SortedMap
import RenderMq.Tile.Protocol

/-!
# Style rules

The handler rewrites the style of a tile and forces its format, and then looks whether there is such a
tile: whether its zoom is in the limit of the style, its coordinates are in the zoom, and its format is
in the list of the style.

The width of a zoom is a shift of an `int`, and the limit may be any. A shift that is too far is not
defined, and so the check is an `Option`. `acceptsValid_iff` says which tiles get their right answer.
-/

namespace RenderMq

/-- `style_rules`. The formats of a list are as `parse_formats` sets them. -/
structure StyleRules where
  rewrites : SortedMap String String
  formats : SortedMap String ProtoFmt
  forcedFormats : SortedMap String ProtoFmt
  zoomLimits : SortedMap String Int
  parsed : ∀ {style fmts}, formats.find style = some fmts → fmts &&& fmtAll = fmts

/-- `DEFAULT_MAX_ZOOM`. -/
def defaultMaxZoom : Int := 18

/-! ## The check of the coordinates -/

/-- `1 << z`. -/
def shiftOne (z : Int) : Option Int :=
  if 0 ≤ z ∧ z < 32 then some (1#32 <<< z.toNat).toInt else none

/-- One less, which the least `int` has not. -/
def minusOne (v : Int) : Option Int := if -2 ^ 31 < v then some (v - 1) else none

/-- `check_xyz`. -/
def checkXyz (tile : TileProtocol) (maxZoom : Int) : Option Bool :=
  if tile.z < 0 ∨ tile.z > maxZoom then some false
  else
    ((shiftOne tile.z).bind minusOne).map fun maxXy =>
      !decide (tile.x < 0 ∨ tile.x > maxXy ∨ tile.y < 0 ∨ tile.y > maxXy)

/-- The width of a zoom comes out where the sign bit is not reached. -/
theorem maxXy_eq {z : Int} (h : 0 ≤ z) :
    (shiftOne z).bind minusOne = if z ≤ 30 then some (2 ^ z.toNat - 1) else none := by
  have hall : ∀ k < 32, (some (1#32 <<< k).toInt).bind minusOne =
      if k ≤ 30 then some ((2 : Int) ^ k - 1) else none := by decide
  unfold shiftOne
  by_cases hshift : z < 32
  · rw [if_pos ⟨h, hshift⟩, hall z.toNat (by omega)]
    by_cases hwidth : z ≤ 30
    · rw [if_pos hwidth, if_pos (by omega)]
    · rw [if_neg hwidth, if_neg (by omega)]
  · rw [if_neg (by omega), if_neg (by omega)]
    rfl

/-- A tile of the world, down to some zoom. -/
structure InWorld (tile : TileProtocol) (maxZoom : Int) : Prop where
  z : 0 ≤ tile.z ∧ tile.z ≤ maxZoom
  x : 0 ≤ tile.x ∧ tile.x < 2 ^ tile.z.toNat
  y : 0 ≤ tile.y ∧ tile.y < 2 ^ tile.z.toNat

/-- The zoom is not in the limit, or the width of the zoom is an `int`. -/
def HasWidth (tile : TileProtocol) (maxZoom : Int) : Prop :=
  tile.z < 0 ∨ maxZoom < tile.z ∨ tile.z ≤ 30

instance (tile : TileProtocol) (maxZoom : Int) : Decidable (HasWidth tile maxZoom) :=
  inferInstanceAs (Decidable (_ ∨ _ ∨ _))

theorem checkXyz_of_width {tile : TileProtocol} {maxZoom : Int} (h : HasWidth tile maxZoom) :
    ∃ ok, checkXyz tile maxZoom = some ok ∧ (ok = true ↔ InWorld tile maxZoom) := by
  unfold checkXyz
  by_cases hzoom : tile.z < 0 ∨ tile.z > maxZoom
  · rw [if_pos hzoom]
    refine ⟨false, rfl, iff_of_false Bool.false_ne_true fun hworld => ?_⟩
    have hz := hworld.z
    omega
  · have hlow : 0 ≤ tile.z := by omega
    have hwidth : tile.z ≤ 30 := by
      rcases h with h | h | h
      · omega
      · omega
      · exact h
    rw [if_neg hzoom, maxXy_eq hlow, if_pos hwidth]
    refine ⟨_, rfl, ?_⟩
    rw [Bool.not_eq_true', decide_eq_false_iff_not]
    constructor
    · intro hbad
      exact ⟨by omega, by omega, by omega⟩
    · rintro ⟨hz, hx, hy⟩ hbad
      omega

theorem checkXyz_of_not_width {tile : TileProtocol} {maxZoom : Int} (h : ¬ HasWidth tile maxZoom) :
    checkXyz tile maxZoom = none := by
  unfold HasWidth at h
  unfold checkXyz
  rw [if_neg (by omega), maxXy_eq (by omega), if_neg (by omega)]
  rfl

/-! ## The rules -/

namespace StyleRules

variable (rules : StyleRules)

/-- The tile with the style that its own is rewritten to. -/
def rewriteStyle (tile : TileProtocol) : TileProtocol :=
  { tile with style := (rules.rewrites.find tile.style).getD tile.style }

/-- The tile with the format that its style is forced to. -/
def forceFormat (tile : TileProtocol) : TileProtocol :=
  { tile with format := (rules.forcedFormats.find tile.style).getD tile.format }

def rewritten (tile : TileProtocol) : TileProtocol := rules.forceFormat (rules.rewriteStyle tile)

def maxZoom (tile : TileProtocol) : Int := (rules.zoomLimits.find tile.style).getD defaultMaxZoom

/-- The list of the style has a format of the tile. Where there are no lists, none is asked for. -/
def checkFormat (tile : TileProtocol) : Bool :=
  match rules.formats.find tile.style with
  | none => rules.formats.entries.isEmpty
  | some fmts => decide ((fmts &&& tile.format).toInt > 0)

/-- `rewrite_and_check`, and the tile after it. -/
def rewriteAndCheck (tile : TileProtocol) : Option (Bool × TileProtocol) :=
  let tile := rules.rewritten tile
  (checkXyz tile (rules.maxZoom tile)).map fun ok => (ok && rules.checkFormat tile, tile)

/-! ## The tiles that are accepted -/

/-- A list of formats has those of a tile, which has one. -/
def Lists (fmts format : ProtoFmt) : Prop := format ≠ fmtNone ∧ fmts &&& format = format

/-- There are no lists, or that of the style has the format. -/
def HasFormat (tile : TileProtocol) : Prop :=
  rules.formats.entries = [] ∨ ∃ fmts, rules.formats.find tile.style = some fmts ∧ Lists fmts tile.format

/-- The list of the style has some formats of the tile, and not all. -/
def ListsPart (tile : TileProtocol) : Prop :=
  ∃ fmts, rules.formats.find tile.style = some fmts ∧ fmts &&& tile.format ≠ fmtNone ∧
    fmts &&& tile.format ≠ tile.format

/-- The check comes out, and accepts a tile exactly if the rewritten tile is in the world and has a
format of its style. -/
def AcceptsValid (tile : TileProtocol) : Prop :=
  ∃ ok tile', rules.rewriteAndCheck tile = some (ok, tile') ∧ tile' = rules.rewritten tile ∧
    (ok = true ↔ InWorld tile' (rules.maxZoom tile') ∧ rules.HasFormat tile')

variable {rules}

/-- A mask of the four formats is positive where it is not zero. -/
theorem toInt_pos_iff {mask : ProtoFmt} (h : mask &&& fmtAll = mask) :
    mask.toInt > 0 ↔ mask ≠ fmtNone := by
  have hsmall : mask.toNat ≤ 15 := by
    rw [← h, BitVec.toNat_and]
    exact Nat.and_le_right
  rw [BitVec.toInt_eq_toNat_of_lt (by omega), Ne, ← BitVec.toNat_inj]
  have hzero : fmtNone.toNat = 0 := rfl
  omega

theorem find_eq_none_of_empty {style : String} (h : rules.formats.entries = []) :
    rules.formats.find style = none :=
  SortedMap.find_eq_none_iff.mpr fun e he => by rw [h] at he; cases he

/-- A format is found by one bit, and listed by all. -/
theorem checkFormat_iff (tile : TileProtocol) :
    (rules.checkFormat tile = true ↔ rules.HasFormat tile) ↔ ¬ rules.ListsPart tile := by
  unfold checkFormat HasFormat ListsPart
  cases hfind : rules.formats.find tile.style with
  | none => simp
  | some fmts =>
    have hlists : rules.formats.entries ≠ [] := by
      intro hempty
      rw [find_eq_none_of_empty hempty] at hfind
      cases hfind
    have hmask : fmts &&& tile.format &&& fmtAll = fmts &&& tile.format := by
      rw [BitVec.and_assoc, BitVec.and_comm tile.format, ← BitVec.and_assoc, rules.parsed hfind]
    simp only [hlists, false_or, Option.some.injEq, exists_eq_left', decide_eq_true_eq,
      toInt_pos_iff hmask, Lists]
    by_cases hall : fmts &&& tile.format = tile.format
    · simp [hall]
    · simp [hall]

/-- **The rules.** The right tiles are accepted exactly if the width of the zoom is an `int`, or the
zoom is not in the limit, and the formats of a tile in the world are not listed in part.

The rules are any, with styles that are rewritten or not and limits of any size, and so is the tile.
What a shift by 31 or more gives is not assumed, so that the condition leaves these zooms out. -/
theorem acceptsValid_iff (rules : StyleRules) (tile : TileProtocol) :
    rules.AcceptsValid tile ↔
      HasWidth (rules.rewritten tile) (rules.maxZoom (rules.rewritten tile)) ∧
        ¬ (InWorld (rules.rewritten tile) (rules.maxZoom (rules.rewritten tile)) ∧
          rules.ListsPart (rules.rewritten tile)) := by
  unfold AcceptsValid rewriteAndCheck
  dsimp only
  generalize rules.rewritten tile = rewritten
  by_cases hwidth : HasWidth rewritten (rules.maxZoom rewritten)
  · obtain ⟨inWorld, hcheck, hworld⟩ := checkXyz_of_width hwidth
    have hanswer : (∃ ok tile', some (inWorld && rules.checkFormat rewritten, rewritten) =
          some (ok, tile') ∧ tile' = rewritten ∧
            (ok = true ↔ InWorld tile' (rules.maxZoom tile') ∧ rules.HasFormat tile')) ↔
        ((inWorld && rules.checkFormat rewritten) = true ↔
          InWorld rewritten (rules.maxZoom rewritten) ∧ rules.HasFormat rewritten) := by
      constructor
      · rintro ⟨ok, tile', hsome, rfl, hok⟩
        rwa [(Prod.mk.inj (Option.some.inj hsome)).1]
      · exact fun hok => ⟨_, rewritten, rfl, rfl, hok⟩
    rw [hcheck, and_iff_right hwidth, Option.map_some, hanswer, Bool.and_eq_true, hworld,
      and_congr_right_iff, checkFormat_iff, not_and]
  · rw [checkXyz_of_not_width hwidth]
    refine iff_of_false ?_ fun h => hwidth h.1
    rintro ⟨ok, tile', hnone, -⟩
    cases hnone

/-- The rules where nothing is configured but a limit. -/
def deepRules : StyleRules where
  rewrites := .empty
  formats := .empty
  forcedFormats := .empty
  zoomLimits := SortedMap.empty.insert "map" 40
  parsed := fun h => by cases h

/-- The first tile of a deep zoom is not checked. -/
theorem deep_zoom_has_no_width : ¬ ∀ (rules : StyleRules) (tile : TileProtocol), rules.AcceptsValid tile := by
  intro h
  obtain ⟨ok, tile', hcheck, -⟩ := h deepRules { style := "map", z := 31 }
  have hnone : deepRules.rewriteAndCheck { style := "map", z := 31 } = none := by decide
  rw [hnone] at hcheck
  cases hcheck

end StyleRules

end RenderMq
