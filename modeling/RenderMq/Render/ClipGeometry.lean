import Mathlib.Data.Int.Range
import Mathlib.Data.List.AList
import Mathlib.Data.List.ProdSigma
import Mathlib.Data.List.ReduceOption
import RenderMq.Lib.Double
import RenderMq.Render.Features

/-!
# Clipping rectangles to the cells of a grid

A rectangle becomes a rectangle in each cell that it overlaps, in the pixels of the cell.

The cells are found by `math.floor`, which returns a double, and put in lists. Where these lists can be
made and the grid is not larger than what a double counts exactly, the clipping is exact, pixel by pixel
(`clipsExactly`).
-/

namespace RenderMq

namespace ClipGeometry

/-- The row and the column of a cell. -/
abbrev Location := Int × Int

/-- The dictionary of `clipGeometry`. -/
abbrev Geometries := AList fun _ : Location => MultiPolygon Int

/-- `rect`, whose ends are in it. -/
structure Rect where
  x0 : Int
  y0 : Int
  x1 : Int
  y1 : Int
deriving DecidableEq

def Rect.polygon (rect : Rect) : Polygon Int := rectangle rect.x0 rect.y0 rect.x1 rect.y1

/-! ## Cells -/

/-- `range`, where a list of more than `room` items cannot be made. -/
def range (room : Nat) (start stop : Int) : Option (List Int) :=
  if (stop - start).toNat ≤ room then some (Int.range start stop) else none

/-- `int(math.floor(coordinate / size))`, of integers. -/
def cellOf (coordinate size : Int) : Option Int :=
  if size = 0 then none else Double.ofInt (coordinate.fdiv size)

/-- The cells from that of one coordinate to that of another. -/
def cellRange (room : Nat) (low high size : Int) : Option (List Int) :=
  match cellOf low size, cellOf high size with
  | some first, some last => range room first (last + 1)
  | _, _ => none

/-- The rectangle of a polygon, by two corners of its outer ring. -/
def rectOf (polygon : Polygon Int) : Option Rect := do
  let outer ← polygon[0]?
  let upperLeft ← outer[0]?
  let lowerRight ← outer[2]?
  return ⟨← upperLeft[0]?, ← upperLeft[1]?, ← lowerRight[0]?, ← lowerRight[1]?⟩

/-! ## Clipping -/

section
variable (room : Nat) (pixels dimensions : Int × Int)

/-- A rectangle in the pixels of a cell that it overlaps. -/
def clip (rect : Rect) (location : Location) : Rect :=
  let (width, height) := pixels
  let (r, c) := location
  let tile : Rect := ⟨width * c, height * r, width * (c + 1), height * (r + 1)⟩
  { x0 := if rect.x0 > tile.x0 then rect.x0 - tile.x0 else 0
    y0 := if rect.y0 > tile.y0 then rect.y0 - tile.y0 else 0
    x1 := if rect.x1 < tile.x1 then rect.x1 - tile.x0 else width - 1
    y1 := if rect.y1 < tile.y1 then rect.y1 - tile.y0 else height - 1 }

def addPolygon (geometries : Geometries) (location : Location) (polygon : Polygon Int) : Geometries :=
  match geometries.lookup location with
  | some coordinates => geometries.insert location (coordinates ++ [polygon])
  | none => geometries.insert location [polygon]

/-- What is done for a cell, which may be outside the grid. -/
def clipCell (rect : Rect) (geometries : Geometries) (location : Location) : Geometries :=
  let (r, c) := location
  if r < 0 ∨ r ≥ dimensions.1 ∨ c < 0 ∨ c ≥ dimensions.2 then geometries
  else addPolygon geometries location (clip pixels rect location).polygon

/-- What is done for a row of cells, or what there was when it raised. -/
def clipRow (rect : Rect) (geometries : Geometries) (r : Int) : Except Geometries Geometries :=
  match cellRange room rect.x0 rect.x1 pixels.1 with
  | none => .error geometries
  | some cols =>
    .ok (cols.foldl (fun geometries c => clipCell pixels dimensions rect geometries (r, c)) geometries)

def clipPolygon (geometries : Geometries) (polygon : Polygon Int) : Except Geometries Geometries :=
  match rectOf polygon with
  | none => .error geometries
  | some rect =>
    if rect.y1 - rect.y0 = 0 ∧ rect.x1 - rect.x0 = 0 then .ok geometries
    else
      match cellRange room rect.y0 rect.y1 pixels.2 with
      | none => .error geometries
      | some rows => rows.foldlM (clipRow room pixels dimensions rect) geometries

/-- `clipGeometry`. What raises ends it, and is logged. -/
def clipGeometry : Geometry Int → Geometries
  | .other _ => ∅
  | .multiPolygon coordinates =>
    match coordinates.foldlM (clipPolygon room pixels dimensions) ∅ with
    | .ok geometries => geometries
    | .error geometries => geometries

end

/-! ## What clipping is for -/

/-- A cell of the grid. -/
def InGrid (dimensions : Int × Int) (location : Location) : Prop :=
  0 ≤ location.1 ∧ location.1 < dimensions.1 ∧ 0 ≤ location.2 ∧ location.2 < dimensions.2

instance (dimensions : Int × Int) (location : Location) : Decidable (InGrid dimensions location) :=
  inferInstanceAs (Decidable (_ ∧ _))

/-- A pixel of a cell. -/
def IsPixel (pixels : Int × Int) (x y : Int) : Prop := 0 ≤ x ∧ x ≤ pixels.1 - 1 ∧ 0 ≤ y ∧ y ≤ pixels.2 - 1

def Rect.Contains (rect : Rect) (x y : Int) : Prop :=
  rect.x0 ≤ x ∧ x ≤ rect.x1 ∧ rect.y0 ≤ y ∧ y ≤ rect.y1

/-- A pixel of a cell is in a rectangle of the grid. -/
def Covers (pixels : Int × Int) (rect : Rect) (location : Location) (x y : Int) : Prop :=
  rect.Contains (pixels.1 * location.2 + x) (pixels.2 * location.1 + y)

/-- A rectangle of the cell's pixels that has those of another. -/
structure Clips (pixels : Int × Int) (location : Location) (rect clipped : Rect) : Prop where
  columns : 0 ≤ clipped.x0 ∧ clipped.x0 ≤ clipped.x1 ∧ clipped.x1 ≤ pixels.1 - 1
  rows : 0 ≤ clipped.y0 ∧ clipped.y0 ≤ clipped.y1 ∧ clipped.y1 ≤ pixels.2 - 1
  exact : ∀ x y, IsPixel pixels x y → (Covers pixels rect location x y ↔ clipped.Contains x y)

/-- What there is of a rectangle in a cell, which is nothing where they do not overlap. -/
def ClipsTo (pixels : Int × Int) (location : Location) (rect : Rect) : Option Rect → Prop
  | some clipped => Clips pixels location rect clipped
  | none => ∀ x y, IsPixel pixels x y → ¬ Covers pixels rect location x y

/-- The entry of a cell, with a polygon for each rectangle that overlaps it. -/
def entryOf (clips : List (Option Rect)) : Option (MultiPolygon Int) :=
  if clips.reduceOption = [] then none else some (clips.reduceOption.map Rect.polygon)

/-- The geometry of rectangles. -/
def geometryOf (rects : List Rect) : Geometry Int := .multiPolygon (rects.map Rect.polygon)

/-- The rectangles are clipped to the cells of the grid and to no others. -/
def ClipsExactly (room : Nat) (pixels dimensions : Int × Int) (rects : List Rect) : Prop :=
  (∀ location, ¬ InGrid dimensions location →
    (clipGeometry room pixels dimensions (geometryOf rects)).lookup location = none) ∧
  ∀ location, InGrid dimensions location →
    ∃ clips, List.Forall₂ (ClipsTo pixels location) rects clips ∧
      (clipGeometry room pixels dimensions (geometryOf rects)).lookup location = entryOf clips

/-- Cells have pixels, and a double counts the rows and the columns. -/
structure WellSized (pixels dimensions : Int × Int) : Prop where
  width : 1 ≤ pixels.1
  height : 1 ≤ pixels.2
  rows : dimensions.1 ≤ 2 ^ 53
  cols : dimensions.2 ≤ 2 ^ 53

/-- The corners are in order and the rectangle is no point. -/
structure Rect.Proper (rect : Rect) : Prop where
  columns : rect.x0 ≤ rect.x1
  rows : rect.y0 ≤ rect.y1
  noPoint : ¬ (rect.x0 = rect.x1 ∧ rect.y0 = rect.y1)

/-- The lists of the cells that a rectangle spans can be made. -/
def Rect.Fits (room : Nat) (pixels : Int × Int) (rect : Rect) : Prop :=
  (cellRange room rect.x0 rect.x1 pixels.1).isSome = true ∧
    (cellRange room rect.y0 rect.y1 pixels.2).isSome = true

/-! ## One axis -/

variable {room : Nat} {pixels dimensions : Int × Int}

theorem mem_range {start stop i : Int} {items : List Int} (h : range room start stop = some items) :
    i ∈ items ↔ start ≤ i ∧ i < stop := by
  unfold range at h
  split at h
  · obtain rfl := Option.some.inj h
    exact Int.mem_range_iff
  · cases h

theorem nodup_range {start stop : Int} {items : List Int} (h : range room start stop = some items) :
    items.Nodup := by
  unfold range at h
  split at h
  · obtain rfl := Option.some.inj h
    refine List.nodup_range.map fun a b hab => ?_
    exact Int.ofNat.inj (Int.add_left_cancel hab)
  · cases h

theorem cellRange_eq {low high size : Int} {cells : List Int}
    (h : cellRange room low high size = some cells) :
    ∃ first last, Double.ofInt (low.fdiv size) = some first ∧ Double.ofInt (high.fdiv size) = some last ∧
      range room first (last + 1) = some cells := by
  unfold cellRange at h
  split at h
  next first last hfirst hlast =>
    unfold cellOf at hfirst hlast
    split at hfirst
    · cases hfirst
    next hsize =>
      rw [if_neg hsize] at hlast
      exact ⟨first, last, hfirst, hlast, h⟩
  · cases h

/-- The cells of a range are those that it overlaps, as far as a double counts. -/
theorem mem_cellRange {low high size i : Int} {cells : List Int} (hsize : 1 ≤ size)
    (h : cellRange room low high size = some cells) (hi : 0 ≤ i) (hlt : i < 2 ^ 53) :
    i ∈ cells ↔ low < size * i + size ∧ size * i ≤ high := by
  have hpos : 0 < size := hsize
  obtain ⟨first, last, hfirst, hlast, hrange⟩ := cellRange_eq h
  rw [Int.fdiv_eq_ediv_of_nonneg _ hpos.le] at hfirst hlast
  have hlow : low / size ≤ i ↔ low < size * i + size := by
    rw [← Int.lt_add_one_iff, Int.ediv_lt_iff_lt_mul hpos, Int.add_mul, Int.one_mul, Int.mul_comm i]
  have hhigh : i ≤ high / size ↔ size * i ≤ high := by
    rw [Int.le_ediv_iff_mul_le hpos, Int.mul_comm i]
  rw [mem_range hrange, Int.lt_add_one_iff, Double.ofInt_le_iff hfirst hi hlt,
    Double.le_ofInt_iff hlast hi hlt, hlow, hhigh]

theorem nodup_cellRange {low high size : Int} {cells : List Int}
    (h : cellRange room low high size = some cells) : cells.Nodup := by
  obtain ⟨first, last, -, -, hrange⟩ := cellRange_eq h
  exact nodup_range hrange

/-- What is between two ends is cut at a cell's start and end. -/
theorem clip_axis {low high start size : Int} (hsize : 1 ≤ size) (hle : low ≤ high)
    (hlow : low < start + size) (hhigh : start ≤ high) {a b : Int}
    (ha : a = if low > start then low - start else 0)
    (hb : b = if high < start + size then high - start else size - 1) :
    (0 ≤ a ∧ a ≤ b ∧ b ≤ size - 1) ∧
      ∀ p, 0 ≤ p → p ≤ size - 1 → (low ≤ start + p ∧ start + p ≤ high ↔ a ≤ p ∧ p ≤ b) := by
  split at ha
  · split at hb
    · exact ⟨by omega, fun p _ _ => by omega⟩
    · exact ⟨by omega, fun p _ _ => by omega⟩
  · split at hb
    · exact ⟨by omega, fun p _ _ => by omega⟩
    · exact ⟨by omega, fun p _ _ => by omega⟩

/-! ## One rectangle -/

/-- A rectangle and a cell overlap. -/
def Overlaps (pixels : Int × Int) (rect : Rect) (location : Location) : Prop :=
  (rect.y0 < pixels.2 * location.1 + pixels.2 ∧ pixels.2 * location.1 ≤ rect.y1) ∧
    rect.x0 < pixels.1 * location.2 + pixels.1 ∧ pixels.1 * location.2 ≤ rect.x1

instance (rect : Rect) (location : Location) : Decidable (Overlaps pixels rect location) :=
  inferInstanceAs (Decidable (_ ∧ _))

/-- What `clipGeometry` makes of a rectangle in a cell. -/
def clipOf (pixels dimensions : Int × Int) (location : Location) (rect : Rect) : Option Rect :=
  if InGrid dimensions location ∧ Overlaps pixels rect location then some (clip pixels rect location)
  else none

theorem clip_clips {rect : Rect} {location : Location} (hsize : WellSized pixels dimensions)
    (hproper : rect.Proper) (h : Overlaps pixels rect location) :
    Clips pixels location rect (clip pixels rect location) := by
  obtain ⟨⟨htop, hbottom⟩, hleft, hright⟩ := h
  have hxs : (clip pixels rect location).x1 = if rect.x1 < pixels.1 * location.2 + pixels.1
      then rect.x1 - pixels.1 * location.2 else pixels.1 - 1 := by
    dsimp only [clip]
    rw [Int.mul_add, Int.mul_one]
  have hys : (clip pixels rect location).y1 = if rect.y1 < pixels.2 * location.1 + pixels.2
      then rect.y1 - pixels.2 * location.1 else pixels.2 - 1 := by
    dsimp only [clip]
    rw [Int.mul_add, Int.mul_one]
  obtain ⟨hcolumns, hx⟩ := clip_axis hsize.width hproper.columns hleft hright rfl hxs
  obtain ⟨hrows, hy⟩ := clip_axis hsize.height hproper.rows htop hbottom rfl hys
  refine ⟨hcolumns, hrows, fun x y hpixel => ?_⟩
  obtain ⟨hx0, hx1, hy0, hy1⟩ := hpixel
  have hx := hx x hx0 hx1
  have hy := hy y hy0 hy1
  constructor
  · intro hcovers
    obtain ⟨h1, h2, h3, h4⟩ := hcovers
    obtain ⟨c1, c2⟩ := hx.mp ⟨h1, h2⟩
    obtain ⟨c3, c4⟩ := hy.mp ⟨h3, h4⟩
    exact ⟨c1, c2, c3, c4⟩
  · intro hclipped
    obtain ⟨h1, h2, h3, h4⟩ := hclipped
    obtain ⟨c1, c2⟩ := hx.mpr ⟨h1, h2⟩
    obtain ⟨c3, c4⟩ := hy.mpr ⟨h3, h4⟩
    exact ⟨c1, c2, c3, c4⟩

theorem clipOf_clipsTo {rect : Rect} {location : Location} (hsize : WellSized pixels dimensions)
    (hproper : rect.Proper) (hgrid : InGrid dimensions location) :
    ClipsTo pixels location rect (clipOf pixels dimensions location rect) := by
  unfold clipOf
  by_cases hoverlaps : Overlaps pixels rect location
  · rw [if_pos ⟨hgrid, hoverlaps⟩]
    exact clip_clips hsize hproper hoverlaps
  · rw [if_neg fun h => hoverlaps h.2]
    intro x y hpixel hcovers
    obtain ⟨hx0, hx1, hy0, hy1⟩ := hpixel
    obtain ⟨h1, h2, h3, h4⟩ := hcovers
    exact hoverlaps ⟨⟨by omega, by omega⟩, by omega, by omega⟩

theorem rectOf_polygon (rect : Rect) : rectOf rect.polygon = some rect := rfl

/-! ## The dictionary of the clipped rectangles -/

/-- An entry, with a rectangle behind those that it has. -/
def extend (entry : Option (MultiPolygon Int)) : Option Rect → Option (MultiPolygon Int)
  | none => entry
  | some rect => some (entry.getD [] ++ [rect.polygon])

theorem foldl_extend (clips : List (Option Rect)) (entry : Option (MultiPolygon Int)) :
    clips.foldl extend entry = if clips.reduceOption = [] then entry
      else some (entry.getD [] ++ clips.reduceOption.map Rect.polygon) := by
  induction clips generalizing entry with
  | nil => rfl
  | cons clipped clips ih =>
    rw [List.foldl_cons, ih]
    cases clipped with
    | none => rw [extend, List.reduceOption_cons_of_none]
    | some rect =>
      rw [extend, List.reduceOption_cons_of_some, if_neg (List.cons_ne_nil _ _), List.map_cons]
      by_cases hrest : clips.reduceOption = []
      · rw [if_pos hrest, hrest, List.map_nil]
      · rw [if_neg hrest, Option.getD_some, List.append_assoc, List.singleton_append]

theorem foldl_extend_none (clips : List (Option Rect)) : clips.foldl extend none = entryOf clips :=
  foldl_extend clips none

theorem lookup_addPolygon (geometries : Geometries) (location location' : Location)
    (polygon : Polygon Int) :
    (addPolygon geometries location polygon).lookup location' = if location' = location
      then some ((geometries.lookup location').getD [] ++ [polygon]) else geometries.lookup location' := by
  unfold addPolygon
  by_cases h : location' = location
  · rw [if_pos h, h]
    cases geometries.lookup location with
    | none => exact AList.lookup_insert geometries
    | some coordinates => exact AList.lookup_insert geometries
  · rw [if_neg h]
    cases geometries.lookup location with
    | none => exact AList.lookup_insert_ne h
    | some coordinates => exact AList.lookup_insert_ne h

theorem lookup_clipCell (rect : Rect) (geometries : Geometries) (location location' : Location) :
    (clipCell pixels dimensions rect geometries location).lookup location' =
      if location' = location ∧ InGrid dimensions location'
      then some ((geometries.lookup location').getD [] ++ [(clip pixels rect location').polygon])
      else geometries.lookup location' := by
  obtain ⟨r, c⟩ := location
  dsimp only [clipCell]
  by_cases hgrid : InGrid dimensions (r, c)
  · obtain ⟨h1, h2, h3, h4⟩ := id hgrid
    rw [if_neg (by omega), lookup_addPolygon]
    by_cases h : location' = (r, c)
    · rw [if_pos h, if_pos ⟨h, h ▸ hgrid⟩, h]
    · rw [if_neg h, if_neg fun hc => h hc.1]
  · have hout : r < 0 ∨ r ≥ dimensions.1 ∨ c < 0 ∨ c ≥ dimensions.2 := by
      by_contra hin
      exact hgrid ⟨by omega, by omega, by omega, by omega⟩
    rw [if_pos hout, if_neg]
    exact fun hc => hgrid (hc.1 ▸ hc.2)

/-- Of different cells, each gets a polygon, if it is in the grid. -/
theorem lookup_foldl_clipCell (rect : Rect) {cells : List Location} (hnodup : cells.Nodup)
    (geometries : Geometries) (location : Location) :
    (cells.foldl (clipCell pixels dimensions rect) geometries).lookup location =
      if location ∈ cells ∧ InGrid dimensions location
      then some ((geometries.lookup location).getD [] ++ [(clip pixels rect location).polygon])
      else geometries.lookup location := by
  induction cells generalizing geometries with
  | nil => simp
  | cons cell cells ih =>
    obtain ⟨hnew, hnodup⟩ := List.nodup_cons.mp hnodup
    rw [List.foldl_cons, ih hnodup, lookup_clipCell]
    by_cases hgrid : InGrid dimensions location
    · by_cases hcell : location = cell
      · have hrest : location ∉ cells := fun h => hnew (hcell ▸ h)
        rw [if_neg fun h => hrest h.1, if_pos ⟨hcell, hgrid⟩,
          if_pos ⟨hcell ▸ List.mem_cons_self, hgrid⟩]
      · simp only [hcell, false_and, if_false, List.mem_cons, false_or]
    · rw [if_neg fun h => hgrid h.2, if_neg fun h => hgrid h.2, if_neg fun h => hgrid h.2]

/-- A row of cells after the other is a list of cells. -/
theorem foldlM_clipRow (rect : Rect) {cols : List Int}
    (hcols : cellRange room rect.x0 rect.x1 pixels.1 = some cols) (rows : List Int)
    (geometries : Geometries) :
    rows.foldlM (clipRow room pixels dimensions rect) geometries =
      .ok ((rows ×ˢ cols).foldl (clipCell pixels dimensions rect) geometries) := by
  induction rows generalizing geometries with
  | nil => rfl
  | cons r rows ih =>
    rw [List.foldlM_cons, List.product_cons, List.foldl_append, List.foldl_map, clipRow, hcols]
    exact ih _

/-- What a rectangle adds to each entry. -/
theorem clipPolygon_spec {rect : Rect} (hsize : WellSized pixels dimensions) (hproper : rect.Proper)
    (hfits : rect.Fits room pixels) (geometries : Geometries) :
    ∃ after, clipPolygon room pixels dimensions geometries rect.polygon = .ok after ∧
      ∀ location, after.lookup location =
        extend (geometries.lookup location) (clipOf pixels dimensions location rect) := by
  obtain ⟨cols, hcolsRange⟩ := Option.isSome_iff_exists.mp hfits.1
  obtain ⟨rows, hrowsRange⟩ := Option.isSome_iff_exists.mp hfits.2
  have hpoint : ¬ (rect.y1 - rect.y0 = 0 ∧ rect.x1 - rect.x0 = 0) := by
    intro h
    exact hproper.noPoint ⟨by omega, by omega⟩
  refine ⟨(rows ×ˢ cols).foldl (clipCell pixels dimensions rect) geometries, ?_, fun location => ?_⟩
  · rw [clipPolygon, rectOf_polygon]
    dsimp only
    rw [if_neg hpoint, hrowsRange]
    exact foldlM_clipRow rect hcolsRange rows geometries
  · have hnodup : (rows ×ˢ cols).Nodup :=
      (nodup_cellRange hrowsRange).product (nodup_cellRange hcolsRange)
    have hcells : location ∈ rows ×ˢ cols ∧ InGrid dimensions location ↔
        InGrid dimensions location ∧ Overlaps pixels rect location := by
      rw [and_comm]
      refine and_congr_right fun hgrid => ?_
      obtain ⟨hr0, hr1, hc0, hc1⟩ := hgrid
      rw [List.mem_product, mem_cellRange hsize.height hrowsRange hr0 (hr1.trans_le hsize.rows),
        mem_cellRange hsize.width hcolsRange hc0 (hc1.trans_le hsize.cols)]
      rfl
    rw [lookup_foldl_clipCell rect hnodup, clipOf]
    by_cases h : InGrid dimensions location ∧ Overlaps pixels rect location
    · rw [if_pos h, if_pos (hcells.mpr h), extend]
    · rw [if_neg h, if_neg fun hc => h (hcells.mp hc), extend]

theorem clipPolygons_spec {rects : List Rect} (hsize : WellSized pixels dimensions)
    (hproper : ∀ rect ∈ rects, rect.Proper) (hfits : ∀ rect ∈ rects, rect.Fits room pixels)
    (geometries : Geometries) :
    ∃ after, (rects.map Rect.polygon).foldlM (clipPolygon room pixels dimensions) geometries = .ok after ∧
      ∀ location, after.lookup location =
        (rects.map (clipOf pixels dimensions location)).foldl extend (geometries.lookup location) := by
  induction rects generalizing geometries with
  | nil => exact ⟨geometries, rfl, fun _ => rfl⟩
  | cons rect rects ih =>
    obtain ⟨hproper, hpropers⟩ := List.forall_mem_cons.mp hproper
    obtain ⟨hfit, hfits⟩ := List.forall_mem_cons.mp hfits
    obtain ⟨middle, hclip, hmiddle⟩ := clipPolygon_spec hsize hproper hfit geometries
    obtain ⟨after, hclips, hafter⟩ := ih hpropers hfits middle
    refine ⟨after, ?_, fun location => ?_⟩
    · rw [List.map_cons, List.foldlM_cons, hclip]
      exact hclips
    · rw [hafter, hmiddle, List.map_cons, List.foldl_cons]

theorem lookup_clipGeometry {rects : List Rect} (hsize : WellSized pixels dimensions)
    (hproper : ∀ rect ∈ rects, rect.Proper) (hfits : ∀ rect ∈ rects, rect.Fits room pixels)
    (location : Location) :
    (clipGeometry room pixels dimensions (geometryOf rects)).lookup location =
      entryOf (rects.map (clipOf pixels dimensions location)) := by
  obtain ⟨after, hclips, hafter⟩ := clipPolygons_spec hsize hproper hfits ∅
  dsimp only [clipGeometry, geometryOf]
  rw [hclips]
  dsimp only
  rw [hafter, AList.lookup_empty, foldl_extend_none]

theorem clipsExactly {rects : List Rect} (hsize : WellSized pixels dimensions)
    (hproper : ∀ rect ∈ rects, rect.Proper) (hfits : ∀ rect ∈ rects, rect.Fits room pixels) :
    ClipsExactly room pixels dimensions rects := by
  refine ⟨fun location hout => ?_, fun location hgrid => ?_⟩
  · have hnone : rects.map (clipOf pixels dimensions location) = List.replicate rects.length none := by
      refine List.map_eq_replicate_iff.mpr fun rect _ => ?_
      exact if_neg fun h => hout h.1
    rw [lookup_clipGeometry hsize hproper hfits, hnone, entryOf,
      List.reduceOption_replicate_none, if_pos rfl]
  · refine ⟨rects.map (clipOf pixels dimensions location), ?_,
      lookup_clipGeometry hsize hproper hfits location⟩
    refine List.forall₂_map_right_iff.mpr (List.forall₂_same.mpr fun rect hrect => ?_)
    exact clipOf_clipsTo hsize (hproper rect hrect) hgrid

end ClipGeometry

end RenderMq
