/-!
# Features

The GeoJSON values that the metadata of a metatile is made of, with coordinates of any type.
-/

namespace RenderMq

/-- An outer ring and inner rings, which are lists of positions. -/
abbrev Polygon (κ : Type) := List (List (List κ))

/-- The coordinates of a `MultiPolygon`. -/
abbrev MultiPolygon (κ : Type) := List (Polygon κ)

/-- A geometry. Of one that is no `MultiPolygon` the coordinates are not looked at. -/
inductive Geometry (κ : Type) where
  | multiPolygon (coordinates : MultiPolygon κ)
  | other (type : String)

structure Feature (ι γ π : Type) where
  id : ι
  geometry : γ
  properties : π
deriving DecidableEq

/-- A feature like another, with a geometry of its own. -/
def Feature.withGeometry {ι γ δ π : Type} (feature : Feature ι γ π) (geometry : δ) : Feature ι δ π :=
  ⟨feature.id, geometry, feature.properties⟩

/-- The polygon of a rectangle, from the upper left around to the lower left. -/
def rectangle {κ : Type} (x0 y0 x1 y1 : κ) : Polygon κ := [[[x0, y0], [x1, y0], [x1, y1], [x0, y1]]]

end RenderMq
