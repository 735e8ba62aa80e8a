import RenderMq.Render.ClipGeometry

/-!
# Cutting features

The features of a metatile are cut into those of its subtiles. Each cell of the grid gets the clipped
geometries of the features that it has a part of, with their ids and properties
(`clipsExactly_and_cutsExactly`). The order in which a dictionary is gone through makes no difference.
-/

namespace RenderMq

namespace ClipGeometry

variable {ι π : Type}

/-- The dictionary of `cutFeatures`. -/
abbrev Collections (ι π : Type) := AList fun _ : Location => List (Feature ι (MultiPolygon Int) π)

/-- The order in which a dictionary is gone through. -/
structure Order where
  order : List (Σ _ : Location, MultiPolygon Int) → List (Σ _ : Location, MultiPolygon Int)
  perm : ∀ entries, (order entries).Perm entries

/-- A clipped geometry goes to the features of its cell, which raises where there is no such cell. -/
def attach (feature : Feature ι (Geometry Int) π) (cut : Collections ι π)
    (entry : Σ _ : Location, MultiPolygon Int) : Option (Collections ι π) :=
  match cut.lookup entry.1 with
  | none => none
  | some features => some (cut.insert entry.1 (features ++ [feature.withGeometry entry.2]))

def cutFeature (room : Nat) (order : Order) (pixels dimensions : Int × Int) (cut : Collections ι π)
    (feature : Feature ι (Geometry Int) π) : Option (Collections ι π) :=
  (order.order (clipGeometry room pixels dimensions feature.geometry).entries).foldlM (attach feature) cut

/-- Every cell of the grid, with no features. -/
def blank (room : Nat) (dimensions : Int × Int) : Option (Collections ι π) := do
  let ys ← range room 0 dimensions.1
  let xs ← range room 0 dimensions.2
  return (ys ×ˢ xs).foldl (fun cut location => cut.insert location []) ∅

/-- `cutFeatures`, where `dump` is not set, or nothing where it raises. -/
def cutFeatures (room : Nat) (order : Order) (features : Option (List (Feature ι (Geometry Int) π)))
    (pixels dimensions : Int × Int) : Option (Collections ι π) :=
  if pixels.1 < 1 ∨ pixels.2 < 1 ∨ dimensions.1 < 1 ∨ dimensions.2 < 1 then some ∅
  else
    let width := pixels.1.fdiv dimensions.2
    let height := pixels.2.fdiv dimensions.1
    if width < 1 ∨ height < 1 then some ∅
    else do
      let cut ← blank room dimensions
      match features with
      | none => return cut
      | some features => features.foldlM (cutFeature room order (width, height) dimensions) cut

/-! ## What cutting is for -/

/-- The clipped geometries of each feature get to the features of their cells, in order. -/
def CutsExactly (room : Nat) (order : Order) (pixels dimensions cell : Int × Int)
    (features : List (Feature ι (Geometry Int) π)) : Prop :=
  ∃ cut, cutFeatures room order (some features) pixels dimensions = some cut ∧
    ∀ location, cut.lookup location = if InGrid dimensions location
      then some (features.filterMap fun feature =>
        ((clipGeometry room cell dimensions feature.geometry).lookup location).map feature.withGeometry)
      else none

/-- The pixels of a tile that `cutFeatures` divides into a grid of cells. -/
structure Divides (room : Nat) (pixels dimensions cell : Int × Int) : Prop where
  rows : 1 ≤ dimensions.1 ∧ dimensions.1.toNat ≤ room
  cols : 1 ≤ dimensions.2 ∧ dimensions.2.toNat ≤ room
  width : pixels.1.fdiv dimensions.2 = cell.1
  height : pixels.2.fdiv dimensions.1 = cell.2

variable {room : Nat} {pixels dimensions : Int × Int}

/-! ## The dictionary of the cells -/

/-- The features of a cell get what there is for it, in whichever order the entries come. -/
theorem attach_entries (feature : Feature ι (Geometry Int) π)
    {entries : List (Σ _ : Location, MultiPolygon Int)} (hnodup : entries.NodupKeys)
    (cut : Collections ι π) (hkeys : ∀ entry ∈ entries, (cut.lookup entry.1).isSome = true) :
    ∃ after, entries.foldlM (attach feature) cut = some after ∧ ∀ location, after.lookup location =
      (cut.lookup location).map (· ++ ((entries.dlookup location).map feature.withGeometry).toList) := by
  induction entries generalizing cut with
  | nil =>
    refine ⟨cut, rfl, fun location => ?_⟩
    simp
  | cons entry entries ih =>
    obtain ⟨hnew, hnodup⟩ := List.nodupKeys_cons.mp hnodup
    obtain ⟨hkey, hkeys⟩ := List.forall_mem_cons.mp hkeys
    obtain ⟨features, hfeatures⟩ := Option.isSome_iff_exists.mp hkey
    let middle := cut.insert entry.1 (features ++ [feature.withGeometry entry.2])
    have hattach : attach feature cut entry = some middle := by
      rw [attach, hfeatures]
    have hmiddle : ∀ e ∈ entries, (middle.lookup e.1).isSome = true := by
      intro e he
      have hne : e.1 ≠ entry.1 := fun heq => hnew (heq ▸ List.mem_keys_of_mem he)
      rw [AList.lookup_insert_ne hne]
      exact hkeys e he
    obtain ⟨after, hrest, hafter⟩ := ih hnodup middle hmiddle
    refine ⟨after, ?_, fun location => ?_⟩
    · rw [List.foldlM_cons, hattach]
      exact hrest
    · rw [hafter]
      by_cases h : location = entry.1
      · rw [h, AList.lookup_insert, hfeatures, List.dlookup_eq_none.mpr hnew]
        obtain ⟨key, geometry⟩ := entry
        rw [List.dlookup_cons_eq]
        simp
      · rw [AList.lookup_insert_ne h, List.dlookup_cons_ne _ _ h]

theorem cutFeature_spec (order : Order) (feature : Feature ι (Geometry Int) π) (cut : Collections ι π)
    (hkeys : ∀ location, (cut.lookup location).isSome = true ↔ InGrid dimensions location)
    (hinside : ∀ location, ¬ InGrid dimensions location →
      (clipGeometry room pixels dimensions feature.geometry).lookup location = none) :
    ∃ after, cutFeature room order pixels dimensions cut feature = some after ∧
      ∀ location, after.lookup location = (cut.lookup location).map (· ++
        (((clipGeometry room pixels dimensions feature.geometry).lookup location).map
          feature.withGeometry).toList) := by
  let clipped := clipGeometry room pixels dimensions feature.geometry
  have hperm := order.perm clipped.entries
  have hnodup : (order.order clipped.entries).NodupKeys := (List.perm_nodupKeys hperm).mpr clipped.nodupKeys
  have hentries : ∀ entry ∈ order.order clipped.entries, (cut.lookup entry.1).isSome = true := by
    intro entry hentry
    by_contra hnone
    have hlookup : entry.2 ∈ clipped.lookup entry.1 :=
      AList.mem_lookup_iff.mpr (hperm.mem_iff.mp hentry)
    rw [hinside entry.1 fun hgrid => hnone ((hkeys entry.1).mpr hgrid)] at hlookup
    cases hlookup
  obtain ⟨after, hattach, hafter⟩ := attach_entries feature hnodup cut hentries
  refine ⟨after, hattach, fun location => ?_⟩
  rw [hafter, List.perm_dlookup location hnodup hperm]
  rfl

theorem cutFeatures_run (order : Order) {features : List (Feature ι (Geometry Int) π)}
    (hinside : ∀ feature ∈ features, ∀ location, ¬ InGrid dimensions location →
      (clipGeometry room pixels dimensions feature.geometry).lookup location = none)
    (cut : Collections ι π)
    (hkeys : ∀ location, (cut.lookup location).isSome = true ↔ InGrid dimensions location) :
    ∃ after, features.foldlM (cutFeature room order pixels dimensions) cut = some after ∧
      ∀ location, after.lookup location = (cut.lookup location).map (· ++
        features.filterMap fun feature =>
          ((clipGeometry room pixels dimensions feature.geometry).lookup location).map
            feature.withGeometry) := by
  induction features generalizing cut with
  | nil =>
    refine ⟨cut, rfl, fun location => ?_⟩
    simp
  | cons feature features ih =>
    obtain ⟨hfirst, hinside⟩ := List.forall_mem_cons.mp hinside
    obtain ⟨middle, hcut, hmiddle⟩ := cutFeature_spec order feature cut hkeys hfirst
    have hsame : ∀ location, (middle.lookup location).isSome = true ↔ InGrid dimensions location := by
      intro location
      rw [hmiddle, Option.isSome_map]
      exact hkeys location
    obtain ⟨after, hrest, hafter⟩ := ih hinside middle hsame
    refine ⟨after, ?_, fun location => ?_⟩
    · rw [List.foldlM_cons, hcut]
      exact hrest
    · rw [hafter, hmiddle, Option.map_map]
      refine congrArg (fun f => (cut.lookup location).map f) (funext fun found => ?_)
      rw [Function.comp_apply, List.append_assoc]
      cases hlookup : (clipGeometry room pixels dimensions feature.geometry).lookup location with
      | none => rw [List.filterMap_cons_none (by rw [hlookup]; rfl)]; rfl
      | some geometry => rw [List.filterMap_cons_some (by rw [hlookup]; rfl)]; rfl

theorem lookup_foldl_insert (cells : List Location) (cut : Collections ι π) (location : Location) :
    (cells.foldl (fun cut location => cut.insert location []) cut).lookup location =
      if location ∈ cells then some [] else cut.lookup location := by
  induction cells generalizing cut with
  | nil => rfl
  | cons cell cells ih =>
    rw [List.foldl_cons, ih]
    by_cases hrest : location ∈ cells
    · rw [if_pos hrest, if_pos (List.mem_cons_of_mem cell hrest)]
    · rw [if_neg hrest]
      by_cases hcell : location = cell
      · rw [hcell, if_pos List.mem_cons_self, AList.lookup_insert]
      · rw [AList.lookup_insert_ne hcell, if_neg]
        exact fun h => (List.mem_cons.mp h).elim hcell hrest

theorem blank_spec (hrows : dimensions.1.toNat ≤ room) (hcols : dimensions.2.toNat ≤ room) :
    ∃ cut : Collections ι π, blank room dimensions = some cut ∧
      ∀ location, cut.lookup location = if InGrid dimensions location then some [] else none := by
  have hys : range room 0 dimensions.1 = some (Int.range 0 dimensions.1) := by
    rw [range, Int.sub_zero, if_pos hrows]
  have hxs : range room 0 dimensions.2 = some (Int.range 0 dimensions.2) := by
    rw [range, Int.sub_zero, if_pos hcols]
  refine ⟨_, by rw [blank, hys, hxs]; rfl, fun location => ?_⟩
  rw [lookup_foldl_insert]
  have hcells : location ∈ Int.range 0 dimensions.1 ×ˢ Int.range 0 dimensions.2 ↔
      InGrid dimensions location := by
    rw [List.mem_product, Int.mem_range_iff, Int.mem_range_iff, and_assoc]
    rfl
  by_cases hgrid : InGrid dimensions location
  · rw [if_pos hgrid, if_pos (hcells.mpr hgrid)]
  · rw [if_neg hgrid, if_neg fun h => hgrid (hcells.mp h), AList.lookup_empty]

theorem one_le_of_fdiv {a b : Int} (hb : 1 ≤ b) (h : 1 ≤ a.fdiv b) : 1 ≤ a := by
  rw [Int.fdiv_eq_ediv_of_nonneg a (by omega), Int.le_ediv_iff_mul_le (by omega)] at h
  omega

theorem cutsExactly {cell : Int × Int} (order : Order) {features : List (Feature ι (Geometry Int) π)}
    (hsize : WellSized cell dimensions) (hdivides : Divides room pixels dimensions cell)
    (hinside : ∀ feature ∈ features, ∀ location, ¬ InGrid dimensions location →
      (clipGeometry room cell dimensions feature.geometry).lookup location = none) :
    CutsExactly room order pixels dimensions cell features := by
  obtain ⟨⟨hrows, hrowsFit⟩, ⟨hcols, hcolsFit⟩, hwidth, hheight⟩ := hdivides
  have hcellWidth := hsize.width
  have hcellHeight := hsize.height
  have hwide : 1 ≤ pixels.1 := one_le_of_fdiv hcols (hwidth ▸ hcellWidth)
  have hhigh : 1 ≤ pixels.2 := one_le_of_fdiv hrows (hheight ▸ hcellHeight)
  obtain ⟨cut, hblank, hcut⟩ := blank_spec (ι := ι) (π := π) hrowsFit hcolsFit
  have hkeys : ∀ location, (cut.lookup location).isSome = true ↔ InGrid dimensions location := by
    intro location
    rw [hcut]
    by_cases hgrid : InGrid dimensions location
    · rw [if_pos hgrid]
      exact iff_of_true rfl hgrid
    · rw [if_neg hgrid]
      exact iff_of_false Bool.false_ne_true hgrid
  obtain ⟨after, hrun, hafter⟩ := cutFeatures_run order hinside cut hkeys
  refine ⟨after, ?_, fun location => ?_⟩
  · unfold cutFeatures
    dsimp only
    rw [if_neg (by omega), hwidth, hheight, if_neg (by omega), hblank]
    exact hrun
  · rw [hafter, hcut]
    by_cases hgrid : InGrid dimensions location
    · rw [if_pos hgrid, if_pos hgrid, Option.map_some, List.nil_append]
    · rw [if_neg hgrid, if_neg hgrid, Option.map_none]

/-- **Clipping is exact**, where the lists of cells can be made and a double counts the rows and the
columns of the grid. And each feature gets to the cells that it is clipped to, in order.

The geometries are rectangles with their corners in order, which are no points. A cell has a pixel, the
grid has at most 2^53 rows and columns, and there is room for the cells that a rectangle touches. For
the second part the grid divides the image evenly. -/
theorem clipsExactly_and_cutsExactly {cell : Int × Int} {features : List (Feature ι (List Rect) π)}
    (hsize : WellSized cell dimensions)
    (hproper : ∀ feature ∈ features, ∀ rect ∈ feature.geometry, rect.Proper)
    (hfits : ∀ feature ∈ features, ∀ rect ∈ feature.geometry, rect.Fits room cell) :
    (∀ feature ∈ features, ClipsExactly room cell dimensions feature.geometry) ∧
      ∀ order pixels, Divides room pixels dimensions cell → CutsExactly room order pixels dimensions cell
        (features.map fun feature => feature.withGeometry (geometryOf feature.geometry)) := by
  have hclips : ∀ feature ∈ features, ClipsExactly room cell dimensions feature.geometry :=
    fun feature hfeature => clipsExactly hsize (hproper feature hfeature) (hfits feature hfeature)
  refine ⟨hclips, fun order pixels hdivides => cutsExactly order hsize hdivides ?_⟩
  intro feature hfeature
  obtain ⟨source, hsource, rfl⟩ := List.mem_map.mp hfeature
  exact (hclips source hsource).1

/-- The order of the entries themselves. -/
def entryOrder : Order where
  order := id
  perm _ := .refl _

/-- A rectangle that begins left of a grid of four cells and goes on into the second column. -/
def lowBar : Rect := ⟨-1, 2, 5, 2⟩

theorem clipsExactly_and_cutsExactly_bar : ClipsExactly 8 (4, 4) (2, 2) [lowBar] ∧
    CutsExactly 8 entryOrder (8, 8) (2, 2) (4, 4) [⟨1, geometryOf [lowBar], "bar"⟩] := by
  have hsize : WellSized (4, 4) (2, 2) := ⟨by decide, by decide, by decide, by decide⟩
  have hproper : ∀ rect ∈ [lowBar], rect.Proper :=
    List.forall_mem_singleton.mpr ⟨by decide, by decide, by decide⟩
  have hfits : ∀ rect ∈ [lowBar], rect.Fits 8 (4, 4) :=
    List.forall_mem_singleton.mpr ⟨by decide +kernel, by decide +kernel⟩
  let bar : Feature Nat (List Rect) String := ⟨1, [lowBar], "bar"⟩
  have hexact := @clipsExactly_and_cutsExactly Nat String 8 (2, 2) (4, 4) [bar] hsize
    (List.forall_mem_singleton.mpr hproper) (List.forall_mem_singleton.mpr hfits)
  exact ⟨hexact.1 bar List.mem_cons_self,
    hexact.2 entryOrder (8, 8) ⟨by decide, by decide, rfl, rfl⟩⟩

/-- A rectangle that ends beyond what a double can be. -/
def endless : Rect := ⟨0, 0, Double.overflow, 0⟩

/-- A rectangle of one row, which a double does not count. -/
def odd : Rect := ⟨0, 2 ^ 53 + 1, 1, 2 ^ 53 + 1⟩

/-- Of one rectangle there is one clip or none. -/
theorem ClipsExactly.single {rect : Rect} {location : Location}
    (h : ClipsExactly room pixels dimensions [rect]) (hgrid : InGrid dimensions location) :
    ∃ clipped, ClipsTo pixels location rect clipped ∧
      (clipGeometry room pixels dimensions (geometryOf [rect])).lookup location = entryOf [clipped] := by
  obtain ⟨clips, hclips, hentry⟩ := h.2 location hgrid
  obtain ⟨clipped, others, hclipped, hothers, rfl⟩ := List.forall₂_cons_left_iff.mp hclips
  obtain rfl := List.forall₂_nil_left_iff.mp hothers
  exact ⟨clipped, hclipped, hentry⟩

/-- The first cell is without a rectangle that begins there, and a row has one that is in the next. -/
theorem large_coordinates_are_clipped_wrong :
    (endless.Proper ∧ ¬ ClipsExactly 8 (1, 1) (1, 1) [endless]) ∧
      odd.Proper ∧ ¬ ClipsExactly 8 (1, 1) (2 ^ 53 + 2, 1) [odd] := by
  refine ⟨⟨⟨by decide +kernel, by decide, by decide +kernel⟩, ?_⟩, ⟨by decide, by decide, by decide⟩, ?_⟩
  · intro h
    obtain ⟨clipped, hclipped, hentry⟩ := h.single (show InGrid (1, 1) (0, 0) by decide)
    have hlookup : (clipGeometry 8 (1, 1) (1, 1) (geometryOf [endless])).lookup (0, 0) = none := by
      decide +kernel
    cases clipped with
    | none =>
      have hpixel : IsPixel (1, 1) 0 0 := ⟨by decide, by decide, by decide, by decide⟩
      exact hclipped 0 0 hpixel ⟨by decide, by decide +kernel, by decide, by decide⟩
    | some clipped =>
      rw [hlookup] at hentry
      cases hentry
  · intro h
    obtain ⟨clipped, hclipped, hentry⟩ := h.single (show InGrid (2 ^ 53 + 2, 1) (2 ^ 53, 0) by decide)
    have hlookup : (clipGeometry 8 (1, 1) (2 ^ 53 + 2, 1) (geometryOf [odd])).lookup (2 ^ 53, 0) ≠ none := by
      decide +kernel
    cases clipped with
    | none => exact hlookup hentry
    | some clipped =>
      -- the pixel that the polygon begins with is not in the rectangle
      obtain ⟨hx0, hx1, hx2⟩ := hclipped.columns
      obtain ⟨hy0, hy1, hy2⟩ := hclipped.rows
      have hpixel : IsPixel (1, 1) clipped.x0 clipped.y0 := ⟨hx0, by omega, hy0, by omega⟩
      obtain ⟨-, -, hrow, -⟩ := (hclipped.exact _ _ hpixel).mpr ⟨le_rfl, hx1, le_rfl, hy1⟩
      unfold odd at hrow
      dsimp only at hrow hy2
      omega

end ClipGeometry

end RenderMq
