import RenderMq.Lib.Wheel
import RenderMq.Handler.Backend

/-!
# The consistent hash

`consistent_hash`: each value stands at several points of a ring of `size_t`, drawn from a generator
that is seeded with the hash of the value. A key is hashed and shuffled, and routed to the value at the
next point of the ring.

The hash functions and the generator are arguments (`HashConfig`, `HashCombine`), and so is whether two
values ever share a point (`Spread`). `holds_run` says what the ring has after any history.
-/

namespace RenderMq

/-- What a `consistent_hash` is made with: `repeats`, `val_hash`, and what `get_value` gives time after
time once `rng` was seeded. -/
structure HashConfig (V : Type) where
  repeats : Int
  valHash : V → BitVec 64
  draw : BitVec 64 → Nat → BitVec 64

/-- `ring_t`, a `std::map` from `size_t`. -/
abbrev HashRing (V : Type) := List (Nat × V)

namespace HashConfig

variable {V K : Type}

/-! ## Operations -/

/-- `insert`: points that are taken stay as they are. -/
def insert (c : HashConfig V) (val : V) (ring : HashRing V) : HashRing V :=
  (List.range c.repeats.toNat).foldl
    (fun ring i => Wheel.insert (c.draw (c.valHash val) i).toNat val ring) ring

/-- `erase`: the points go, whatever value is there. -/
def erase (c : HashConfig V) (val : V) (ring : HashRing V) : HashRing V :=
  (List.range c.repeats.toNat).foldl
    (fun ring i => Wheel.erase (c.draw (c.valHash val) i).toNat ring) ring

/-- `shuffle`, Wang's algorithm. -/
def shuffle (key : BitVec 64) : BitVec 64 :=
  let key := ~~~key + key <<< 21
  let key := key ^^^ (key >>> 24 ||| key <<< 8)
  let key := (key + key <<< 3) + key <<< 8
  let key := key ^^^ (key >>> 14 ||| key <<< 18)
  let key := (key + key <<< 2) + key <<< 4
  let key := key ^^^ (key >>> 28 ||| key <<< 4)
  key + key <<< 31

/-- `lookup`. -/
def lookup (keyHash : K → BitVec 64) (k : K) (ring : HashRing V) : Option V :=
  Wheel.lookup (shuffle (keyHash k)).toNat ring

/-! ## Histories -/

/-- A change to the ring. -/
inductive Op (V : Type) where
  | insert (val : V)
  | erase (val : V)

def Op.value : Op V → V
  | .insert val => val
  | .erase val => val

/-- The ring after a change. -/
def apply (c : HashConfig V) (ring : HashRing V) : Op V → HashRing V
  | .insert val => c.insert val ring
  | .erase val => c.erase val ring

def run (c : HashConfig V) (ops : List (Op V)) : HashRing V := ops.foldl c.apply []

/-- The values present after a change. -/
def Op.change (s : Set V) : Op V → Set V
  | .insert val => Insert.insert val s
  | .erase val => s \ {val}

/-- The values present after a history. -/
def present (ops : List (Op V)) : Set V := ops.foldl Op.change ∅

/-- Where a value stands on the ring. -/
def points (c : HashConfig V) (val : V) : List Nat :=
  (List.range c.repeats.toNat).map fun i => (c.draw (c.valHash val) i).toNat

/-- Of some values, no two share a point. -/
def Spread (c : HashConfig V) (vals : List V) : Prop :=
  ∀ v ∈ vals, ∀ w ∈ vals, w ≠ v → ∀ p ∈ c.points w, p ∉ c.points v

theorem Spread.of_append_left {c : HashConfig V} {vals more : List V}
    (h : c.Spread (vals ++ more)) : c.Spread vals :=
  fun v hv w hw => h v (List.mem_append_left _ hv) w (List.mem_append_left _ hw)

/-! ## What the ring has -/

theorem insert_eq (c : HashConfig V) (val : V) (ring : HashRing V) :
    c.insert val ring = Wheel.insertAll (c.points val) val ring := by
  rw [insert, Wheel.insertAll, points, List.foldl_map]

theorem erase_eq (c : HashConfig V) (val : V) (ring : HashRing V) :
    c.erase val ring = Wheel.eraseAll (c.points val) ring := by
  rw [erase, Wheel.eraseAll, points, List.foldl_map]

theorem points_ne_nil {c : HashConfig V} (pointed : 0 < c.repeats) (val : V) :
    c.points val ≠ [] := by
  have hpos : c.repeats.toNat ≠ 0 := by omega
  simp [points, hpos]

theorem run_append (c : HashConfig V) (ops : List (Op V)) (op : Op V) :
    c.run (ops ++ [op]) = c.apply (c.run ops) op := by
  simp [run]

theorem present_append (ops : List (Op V)) (op : Op V) :
    present (ops ++ [op]) = op.change (present ops) := by
  simp [present]

/-- Only values of the history are present. -/
theorem present_subset (ops : List (Op V)) : ∀ v ∈ present ops, v ∈ ops.map Op.value := by
  induction ops using List.reverseRecOn with
  | nil => exact fun v hv => absurd hv (Set.notMem_empty v)
  | append_singleton ops op ih =>
    intro v hv
    rw [present_append] at hv
    rw [List.map_append, List.mem_append]
    cases op with
    | insert val =>
      rcases hv with rfl | hv
      · exact .inr (List.mem_singleton.mpr rfl)
      · exact .inl (ih v hv)
    | erase val => exact .inl (ih v hv.1)

/-- One change: the ring has the values that are present. -/
theorem holds_apply {c : HashConfig V} {s : Set V} {ring : HashRing V}
    (h : Wheel.Holds c.points s ring) {op : Op V} (apart : Wheel.Apart c.points s op.value) :
    Wheel.Holds c.points (op.change s) (c.apply ring op) := by
  cases op with
  | insert val =>
    rw [apply, insert_eq]
    exact h.insertAll apart
  | erase val =>
    rw [apply, erase_eq]
    exact h.eraseAll apart

/-- **Any history.** The ring has the values that are present. -/
theorem holds_run {c : HashConfig V} {ops : List (Op V)}
    (spread : c.Spread (ops.map Op.value)) :
    Wheel.Holds c.points (present ops) (c.run ops) := by
  induction ops using List.reverseRecOn with
  | nil => exact Wheel.Holds.empty
  | append_singleton ops op ih =>
    rw [run_append, present_append]
    rw [List.map_append] at spread
    refine holds_apply (ih spread.of_append_left) fun w hw hne => ?_
    exact spread op.value (by simp) w (List.mem_append_left _ (present_subset ops w hw)) hne

end HashConfig

/-! ## Tiles -/

/-- `boost::hash_combine` with the types that occur. -/
structure HashCombine where
  ofString : BitVec 64 → String → BitVec 64
  ofInt : BitVec 64 → Int → BitVec 64

/-- `hash_value` of a tile. -/
def HashCombine.hashValue (combine : HashCombine) (tp : TileProtocol) : BitVec 64 :=
  let seed := combine.ofString 0#64 tp.style
  let seed := combine.ofInt seed tp.z
  let seed := combine.ofInt seed (metaFloor tp.x)
  combine.ofInt seed (metaFloor tp.y)

theorem HashCombine.hashValue_congr (combine : HashCombine) {t u : TileProtocol}
    (same : SameMetatile t u) : combine.hashValue t = combine.hashValue u := by
  rw [hashValue, hashValue, same.x, same.y, same.z, same.style]

/-! ## Routing -/

namespace HashConfig

variable {V K : Type}

/-- **Routing.** The value for a key is determined by the values that are present and is one of them. A
value that comes takes keys only to itself, and one that goes gives up only its own keys. Tiles of one
metatile go to one value.

The hashes and the generator are arguments. It is assumed that each value has a point and that no two
values of the history share one (`Spread`). How evenly the keys are spread is not established. -/
theorem consistent_hash_routing (c : HashConfig V) (pointed : 0 < c.repeats) (ops : List (Op V))
    (spread : c.Spread (ops.map Op.value)) :
    (∀ ops', c.Spread (ops'.map Op.value) → present ops' = present ops →
      ∀ (keyHash : K → BitVec 64) (k : K),
        lookup keyHash k (c.run ops') = lookup keyHash k (c.run ops)) ∧
    (∀ (keyHash : K → BitVec 64) (k : K),
      lookup keyHash k (c.run ops) = none ↔ present ops = ∅) ∧
    (∀ (keyHash : K → BitVec 64) (k : K), ∀ v ∈ lookup keyHash k (c.run ops), v ∈ present ops) ∧
    (∀ v, c.Spread ((ops ++ [Op.insert v]).map Op.value) → ∀ (keyHash : K → BitVec 64) (k : K),
      lookup keyHash k (c.run (ops ++ [Op.insert v])) ≠ lookup keyHash k (c.run ops) →
        lookup keyHash k (c.run (ops ++ [Op.insert v])) = some v) ∧
    (∀ v, c.Spread ((ops ++ [Op.erase v]).map Op.value) → ∀ (keyHash : K → BitVec 64) (k : K),
      lookup keyHash k (c.run (ops ++ [Op.erase v])) ≠ lookup keyHash k (c.run ops) →
        lookup keyHash k (c.run ops) = some v) ∧
    (∀ (combine : HashCombine) (t u : TileProtocol), SameMetatile t u →
      lookup combine.hashValue t (c.run ops) = lookup combine.hashValue u (c.run ops)) := by
  have hholds := holds_run spread
  refine ⟨?independent, ?none, ?present, ?insert, ?erase, ?tiles⟩
  case independent =>
    intro ops' spread' heq keyHash k
    have hholds' := holds_run spread'
    rw [heq] at hholds'
    exact hholds'.lookup_congr hholds _
  case none =>
    intro keyHash k
    exact hholds.lookup_eq_none_iff fun v _ => points_ne_nil pointed v
  case present =>
    intro keyHash k v hv
    exact hholds.mem_of_lookup hv
  case insert =>
    intro v spread' keyHash k hne
    have hafter := holds_run spread'
    rw [present_append] at hafter
    have hsub : present ops ⊆ (Op.insert v).change (present ops) := Set.subset_insert v _
    obtain hsame | ⟨w, ⟨hw, hnew⟩, hlookup⟩ := hholds.lookup_of_subset hafter hsub _
    · exact absurd hsame hne
    · obtain rfl := (Set.mem_insert_iff.mp hw).resolve_right hnew
      exact hlookup
  case erase =>
    intro v spread' keyHash k hne
    have hafter := holds_run spread'
    rw [present_append] at hafter
    have hsub : (Op.erase v).change (present ops) ⊆ present ops := Set.sdiff_subset
    obtain hsame | ⟨w, ⟨hw, hgone⟩, hlookup⟩ := hafter.lookup_of_subset hholds hsub _
    · exact absurd hsame.symm hne
    · have hwv : w = v := by
        by_contra hwv
        exact hgone ⟨hw, hwv⟩
      rw [← hwv]
      exact hlookup
  case tiles =>
    intro combine t u same
    rw [lookup, lookup, combine.hashValue_congr same]

/-- Two points for each number. -/
def twoEach : HashConfig Nat where
  repeats := 2
  valHash := BitVec.ofNat 64
  draw := fun seed i => seed * 6364136223846793005#64 + BitVec.ofNat 64 i <<< 32

/-- Three values, of which the first goes: each tile has a value. A fourth comes: what it does not take
stays where it was. -/
theorem routes_among_values_that_stay :
    let before := [Op.insert 1, Op.insert 2, Op.insert 3, Op.erase 1]
    let after := before ++ [Op.insert 4]
    (∀ (combine : HashCombine) (tile : TileProtocol),
      lookup combine.hashValue tile (twoEach.run before) ≠ none) ∧
    (∀ (combine : HashCombine) (tile : TileProtocol),
      lookup combine.hashValue tile (twoEach.run after) ≠
          lookup combine.hashValue tile (twoEach.run before) →
        lookup combine.hashValue tile (twoEach.run after) = some 4) := by
  intro before after
  have hrouting := @consistent_hash_routing Nat TileProtocol twoEach (by decide) before
    (by unfold Spread; decide)
  refine ⟨fun combine tile hnone => ?_, fun combine tile => ?_⟩
  · have hempty := (hrouting.2.1 combine.hashValue tile).mp hnone
    have htwo : 2 ∈ present before := by simp [before, present, Op.change]
    rw [hempty] at htwo
    exact htwo
  · exact hrouting.2.2.2.1 4 (by unfold Spread; decide) combine.hashValue tile

end HashConfig

end RenderMq
