import RenderMq.Lib.Run
import RenderMq.Expiry.Fragment
import Mathlib.Data.List.AList
import Mathlib.Data.Finset.Basic

/-!
# What an expiry server knows

`expiry_data`: for each style and format the set of the metatiles that are expired, as keys of 32 bits.
The hash sets reserve one key; to put that key into a set has no defined result.

`expiry_data_is_a_map`: over any sequence of requests, a metatile is expired if the last request to set
it was to set it expired.
-/

namespace RenderMq

/-- `style_and_format`. -/
structure StyleAndFormat where
  style : String
  format : ProtoFmt
  deriving DecidableEq, Repr

def styleAndFormat (tile : TileProtocol) : StyleAndFormat :=
  { style := tile.style, format := tile.format }

/-- `sparse_hash_set::insert`. -/
def hashSetInsert (key : BitVec 32) (set : Finset (BitVec 32)) : Option (Finset (BitVec 32)) :=
  if key = deletedKey then none else some (insert key set)

/-- `expiry_data`. -/
structure ExpiryData where
  hashSets : AList fun _ : StyleAndFormat => Finset (BitVec 32) := ∅

namespace ExpiryData

/-! ## Operations -/

/-- `lookup`. -/
def lookup (d : ExpiryData) (t : TileProtocol) : Bool :=
  match d.hashSets.lookup (styleAndFormat t) with
  | some set => decide (tileToFrag t ∈ set)
  | none => false

/-- `insert`: a set that is not there is made. -/
def insert (d : ExpiryData) (t : TileProtocol) : Option (ExpiryData × Bool) := do
  let set ← hashSetInsert (tileToFrag t) ((d.hashSets.lookup (styleAndFormat t)).getD ∅)
  return ({ hashSets := d.hashSets.insert (styleAndFormat t) set }, true)

/-- `erase`. -/
def erase (d : ExpiryData) (t : TileProtocol) : ExpiryData × Bool :=
  match d.hashSets.lookup (styleAndFormat t) with
  | some set =>
    ({ hashSets := d.hashSets.insert (styleAndFormat t) (set.erase (tileToFrag t)) }, true)
  | none => (d, true)

end ExpiryData

/-- What a client asks of an expiry server. -/
inductive ExpiryRequest where
  | set (tile : TileProtocol) (status : Bool)
  | get (tile : TileProtocol)
  deriving DecidableEq, Repr

def ExpiryRequest.tile : ExpiryRequest → TileProtocol
  | .set tile _ => tile
  | .get tile => tile

namespace ExpiryData

/-- What `expiry_server` does with a request, and the response. -/
def handle (d : ExpiryData) : ExpiryRequest → Option (ExpiryData × Bool)
  | .set tile true => d.insert tile
  | .set tile false => some (d.erase tile)
  | .get tile => some (d, d.lookup tile)

/-! ## Keys -/

/-- What the server tells tiles apart by. -/
def key (t : TileProtocol) : StyleAndFormat × BitVec 32 := (styleAndFormat t, tileToFrag t)

theorem insert_eq_some {d d' : ExpiryData} {t : TileProtocol} {response : Bool}
    (h : d.insert t = some (d', response)) :
    d' = ⟨d.hashSets.insert (styleAndFormat t)
        (Insert.insert (tileToFrag t) ((d.hashSets.lookup (styleAndFormat t)).getD ∅))⟩ ∧
      response = true := by
  obtain ⟨set, hset, hd'⟩ := Option.bind_eq_some_iff.mp h
  obtain ⟨rfl, rfl⟩ := Prod.mk.inj (Option.some.inj hd')
  unfold hashSetInsert at hset
  split at hset
  · cases hset
  · obtain rfl := Option.some.inj hset
    exact ⟨rfl, rfl⟩

theorem lookup_insert {d d' : ExpiryData} {t : TileProtocol} {response : Bool}
    (h : d.insert t = some (d', response)) (u : TileProtocol) :
    d'.lookup u = if key u = key t then true else d.lookup u := by
  obtain ⟨rfl, _⟩ := insert_eq_some h
  unfold lookup key
  dsimp only
  simp only [Prod.mk.injEq]
  by_cases hsf : styleAndFormat u = styleAndFormat t
  · rw [hsf, AList.lookup_insert]
    cases d.hashSets.lookup (styleAndFormat t) with
    | none => simp
    | some set => by_cases hfrag : tileToFrag u = tileToFrag t <;> simp [hfrag]
  · rw [AList.lookup_insert_ne hsf, if_neg fun h => hsf h.1]

theorem lookup_erase (d : ExpiryData) (t u : TileProtocol) :
    (d.erase t).1.lookup u = if key u = key t then false else d.lookup u := by
  unfold erase key
  simp only [Prod.mk.injEq]
  cases hset : d.hashSets.lookup (styleAndFormat t) with
  | none =>
    dsimp only
    by_cases hkey : styleAndFormat u = styleAndFormat t ∧ tileToFrag u = tileToFrag t
    · rw [if_pos hkey, lookup, hkey.1, hset]
    · rw [if_neg hkey]
  | some set =>
    unfold lookup
    dsimp only
    by_cases hsf : styleAndFormat u = styleAndFormat t
    · rw [hsf, AList.lookup_insert, hset]
      by_cases hfrag : tileToFrag u = tileToFrag t <;> simp [hfrag]
    · rw [AList.lookup_insert_ne hsf, if_neg fun h => hsf h.1]

/-- What a request tells of a tile. -/
def marks (t : TileProtocol) : ExpiryRequest → Option Bool
  | .set u status => if key t = key u then some status else none
  | .get _ => none

/-- **One request** sets what it is about, and leaves the rest as it was. -/
theorem lookup_handle {d d' : ExpiryData} {req : ExpiryRequest} {response : Bool}
    (h : d.handle req = some (d', response)) (t : TileProtocol) :
    d'.lookup t = (marks t req).getD (d.lookup t) := by
  cases req with
  | set u status =>
    cases status with
    | true =>
      rw [lookup_insert h t, marks]
      split <;> rfl
    | false =>
      have herase : (d.erase u).1 = d' := congrArg Prod.fst (Option.some.inj h)
      rw [← herase, lookup_erase, marks]
      split <;> rfl
  | get u =>
    obtain ⟨rfl, _⟩ := Prod.mk.inj (Option.some.inj h)
    rfl

/-- A request for a tile that the packing is made for has a result. -/
theorem handle_defined (d : ExpiryData) {req : ExpiryRequest} (h : InRange req.tile) :
    ∃ d' response, d.handle req = some (d', response) := by
  cases req with
  | set u status =>
    cases status with
    | true =>
      have hfrag : tileToFrag u ≠ deletedKey := h.tileToFrag_ne_deletedKey
      rw [handle, insert, hashSetInsert, if_neg hfrag]
      exact ⟨_, _, rfl⟩
    | false => exact ⟨_, _, rfl⟩
  | get u => exact ⟨_, _, rfl⟩

/-! ## Runs -/

def step (d : ExpiryData) (req : ExpiryRequest) : Option ExpiryData := (d.handle req).map Prod.fst

/-- What is known of each tile is what the last request told of it. -/
theorem lookup_run {reqs : List ExpiryRequest} {d : ExpiryData}
    (hrun : Run.run step {} reqs = some d) (t : TileProtocol) :
    d.lookup t = (Run.last (marks t) reqs).getD false := by
  have hstep : ∀ (past : List ExpiryRequest) (d : ExpiryData) (req : ExpiryRequest) (d' : ExpiryData),
      d.lookup t = (Run.last (marks t) past).getD false → d.step req = some d' →
      d'.lookup t = (Run.last (marks t) (past ++ [req])).getD false := by
    intro past d req d' hd hreq
    obtain ⟨next, hhandle, rfl⟩ := Option.map_eq_some_iff.mp hreq
    rw [lookup_handle hhandle, Run.last_append, hd]
    cases marks t req <;> rfl
  exact Run.run_invariant hstep reqs [] {} d rfl hrun

/-- The last request to set a metatile of a style and format. -/
def setsMetatile (t : TileProtocol) : ExpiryRequest → Option Bool
  | .set u status =>
    if t.style = u.style ∧ t.format = u.format ∧ SameFragment t u then some status else none
  | .get _ => none

/-- For tiles that the packing is made for the key says the style, format, zoom and metatile. -/
theorem key_eq_iff {t u : TileProtocol} (ht : InRange t) (hu : InRange u) :
    key t = key u ↔ t.style = u.style ∧ t.format = u.format ∧ SameFragment t u := by
  rw [key, key, Prod.mk.injEq, tileToFrag_eq_iff ht hu, styleAndFormat, styleAndFormat,
    StyleAndFormat.mk.injEq, and_assoc]

theorem marks_eq {t : TileProtocol} (ht : InRange t) {req : ExpiryRequest} (hreq : InRange req.tile) :
    marks t req = setsMetatile t req := by
  cases req with
  | set u status =>
    have hkey : key t = key u ↔ t.style = u.style ∧ t.format = u.format ∧ SameFragment t u :=
      key_eq_iff ht hreq
    rw [marks, setsMetatile]
    simp only [hkey]
  | get u => rfl

/-- **An exact map.** Any sequence of requests has a result, after which a metatile of a style and
format is expired if the last request to set it was to set it expired. The key of a tile says its zoom
and metatile, and is never the reserved one.

Tiles have zooms from 0 to 18 and lie in the world. The requests are served one at a time, as the
service does. Outside this range two metatiles may have one key. -/
theorem expiry_data_is_a_map (reqs : List ExpiryRequest) (inRange : ∀ req ∈ reqs, InRange req.tile) :
    (∃ d, Run.run step {} reqs = some d ∧ ∀ t, InRange t →
      (d.lookup t = true ↔ Run.last (setsMetatile t) reqs = some true)) ∧
    (∀ t u, InRange t → InRange u → (tileToFrag t = tileToFrag u ↔ SameFragment t u)) ∧
    (∀ t, InRange t → tileToFrag t ≠ 0xffffffff#32) := by
  refine ⟨?_, fun t u => tileToFrag_eq_iff, fun t ht => ht.tileToFrag_ne_deletedKey⟩
  obtain ⟨d, hrun⟩ : ∃ d, Run.run step {} reqs = some d := by
    have progress : ∀ (d : ExpiryData) (req : ExpiryRequest), InRange req.tile →
        ∃ d', d.step req = some d' := by
      intro d req hreq
      obtain ⟨d', response, hhandle⟩ := handle_defined d hreq
      exact ⟨d', congrArg (Option.map Prod.fst) hhandle⟩
    exact Run.run_defined progress reqs {} inRange
  refine ⟨d, hrun, fun t ht => ?_⟩
  have hsame : Run.last (marks t) reqs = Run.last (setsMetatile t) reqs := by
    unfold Run.last
    rw [List.filterMap_congr fun req hreq => marks_eq ht (inRange req hreq)]
  rw [lookup_run hrun, hsame]
  cases Run.last (setsMetatile t) reqs <;> simp

/-- The last tile of the last zoom and the one tile of the first are set expired, and then the former is
not any more. -/
theorem expired_at_first_and_last_zoom :
    let last : TileProtocol := { x := 262143, y := 262143, z := 18 }
    let first : TileProtocol := { x := 0, y := 0, z := 0 }
    ∃ d, Run.run step {} [.set last true, .set first true, .set last false] = some d ∧
      d.lookup first = true ∧ d.lookup last ≠ true := by
  intro last first
  obtain ⟨⟨d, hrun, hlookup⟩, _⟩ :=
    expiry_data_is_a_map [.set last true, .set first true, .set last false] (by decide)
  refine ⟨d, hrun, (hlookup first (by decide)).mpr (by decide), fun h => ?_⟩
  exact absurd ((hlookup last (by decide)).mp h) (by decide)

end ExpiryData

end RenderMq
