import RenderMq.Metatile.WellFormed

/-!
# Storage over HTTP

`http_storage`: a metatile is stored as its single tiles, and put together again from the responses
to the requests for them.

The requests go out one by one (`getMetaSerial`), which stops at the first that is not answered
well; or all at once (`getMetaParallel`), where one exception loses all responses. What the
responses are put together to is decided by their order alone (`makeMetatile`): it walks over the
positions of a metatile and takes the next response wherever the grid has a tile.

`makeMetatile_slots` says that this is right for responses in the order of the slots, and
`makeMetatile_short` that too few responses are read past their end.
-/

namespace RenderMq

/-! ## Responses -/

/-- `http::response`. -/
structure Response where
  statusCode : Int := -1
  timeStamp : Int := -1
  body : Bytes := []
  deriving DecidableEq

/-- `INVALID_TIMESTAMP`: what is this old is expired. -/
def INVALID_TIMESTAMP : Int := 0

namespace Response

/-- What a fetched metatile is made of: the status is 200, and the tile is not expired. -/
def good (response : Response) : Bool :=
  decide (response.statusCode = 200) && decide (response.timeStamp ≠ INVALID_TIMESTAMP)

/-- `handle::exists`. -/
def handleExists (response : Response) : Bool := decide (response.statusCode = 200)

/-- `handle::expired`. -/
def handleExpired (response : Response) : Bool :=
  decide (response.timeStamp = INVALID_TIMESTAMP) || decide (response.statusCode ≠ 200)

/-- `handle::data`. -/
def handleData (response : Response) : Bytes × Bool :=
  (response.body, decide (response.statusCode = 200))

end Response

/-- What comes of a request: a response, or an exception. -/
abbrev Fetched := Except String Response

/-- Whether a request is answered by a tile that is not expired. -/
def answeredWell : Fetched → Bool
  | .ok response => response.good
  | .error _ => false

/-- Whether a request is answered, but not well. -/
def answeredBadly : Fetched → Bool
  | .ok response => !response.good
  | .error _ => false

/-- The body of an answer. -/
def fetchedBody : Fetched → Bytes
  | .ok response => response.body
  | .error _ => []

/-! ## Getting -/

/-- `get_meta_serial`. -/
def getMetaSerial (get : String → Fetched) : List String → Bool × List Response
  | [] => (true, [])
  | request :: requests =>
    match get request with
    | .error _ => (false, [])
    | .ok response =>
      if response.good then
        let (ret, responses) := getMetaSerial get requests
        (ret, response :: responses)
      else (false, [response])

/-- `multiGet`: the responses in the order of the requests, or the first exception. -/
def multiGet (get : String → Fetched) (requests : List String) : Except String (List Response) :=
  requests.mapM get

/-- `get_meta_parallel`. -/
def getMetaParallel (get : String → Fetched) (requests : List String) : Bool × List Response :=
  match multiGet get requests with
  | .error _ => (false, [])
  | .ok responses => (responses.all Response.good, responses)

/-! ## Putting together -/

/-- The columns and rows of a metatile, row by row. -/
def metaPositions : List (Nat × Nat) :=
  (List.range 8).flatMap fun y => (List.range 8).map fun x => (x, y)

/-- The sizes of the tiles of some positions. A position of the grid takes the next response; there
is no result where there is none. -/
def tileSizes : List Bool → List Response → Option (List (BitVec 32))
  | [], _ => some []
  | false :: slots, responses => (tileSizes slots responses).map (0#32 :: ·)
  | true :: _, [] => none
  | true :: slots, response :: responses =>
    (tileSizes slots responses).map (.ofNat 32 response.body.length :: ·)

/-- `make_metatile`. It never throws, since the headers get a size for each position. -/
def makeMetatile (tile : TileProtocol) (responses : List Response) : Option Bytes := do
  let formats := getFormatsVec tile.format
  let dim := getMetaDimensions tile.z
  let slots := formats.flatMap fun _ =>
    metaPositions.map fun (x, y) => decide ((x : Int) < dim) && decide ((y : Int) < dim)
  let sizes ← tileSizes slots responses
  let coord := xyToMetaXy tile.x tile.y
  let headers ← (writeHeaders coord.1 coord.2 tile.z formats sizes).toOption
  some (headers ++ responses.flatMap Response.body)

/-! ## The slots of a metatile -/

/-- A position of a metatile in a format. -/
abbrev Slot := ProtoFmt × Fin 64

/-- All positions, format by format. -/
def allSlots (formats : List ProtoFmt) : List Slot :=
  formats.flatMap fun fmt => (List.finRange 64).map fun i => (fmt, i)

/-- The positions of the grid, format by format. -/
def gridSlots (z : Int) (formats : List ProtoFmt) : List Slot :=
  (allSlots formats).filter fun s => inGrid z s.2

/-- The slots of a tile's metatile. -/
abbrev metaSlots (tile : TileProtocol) : List Slot :=
  gridSlots tile.z (getFormatsVec tile.format)

theorem mem_gridSlots {z : Int} {formats : List ProtoFmt} {s : Slot} :
    s ∈ gridSlots z formats ↔ s.1 ∈ formats ∧ inGrid z s.2 = true := by
  obtain ⟨fmt, i⟩ := s
  simp [gridSlots, allSlots]

theorem metaPositions_eq :
    metaPositions = (List.finRange 64).map fun i => ((i % 8 : Nat), (i / 8 : Nat)) := by
  decide

/-- The walk over the positions asks for a response where the grid has a tile. -/
theorem slots_eq (z : Int) (formats : List ProtoFmt) :
    (formats.flatMap fun _ => metaPositions.map fun (x, y) =>
        decide ((x : Int) < getMetaDimensions z) && decide ((y : Int) < getMetaDimensions z)) =
      (allSlots formats).map fun s => inGrid z s.2 := by
  rw [allSlots, List.map_flatMap]
  refine List.flatMap_congr fun fmt _ => ?_
  rw [metaPositions_eq, List.map_map, List.map_map]
  rfl

/-- Responses in the order of the positions that ask for them are given to these. -/
theorem tileSizes_filter {α : Type} (p : α → Bool) (g : α → Response) (slots : List α) :
    tileSizes (slots.map p) ((slots.filter p).map g) =
      some (slots.map fun s => if p s then .ofNat 32 (g s).body.length else 0#32) := by
  induction slots with
  | nil => rfl
  | cons s slots ih =>
    cases hp : p s with
    | false => simp [hp, tileSizes, ih]
    | true => simp [hp, tileSizes, ih]

/-- With too few responses the walk runs past their end. -/
theorem tileSizes_short {α : Type} (p : α → Bool) (slots : List α) (responses : List Response)
    (short : responses.length < (slots.filter p).length) :
    tileSizes (slots.map p) responses = none := by
  induction slots generalizing responses with
  | nil => cases short
  | cons s slots ih =>
    rw [List.map_cons]
    cases hp : p s with
    | false =>
      rw [List.filter_cons_of_neg (by simp [hp])] at short
      rw [tileSizes, ih responses short, Option.map_none]
    | true =>
      rw [List.filter_cons_of_pos hp] at short
      cases responses with
      | nil => rfl
      | cons response responses =>
        rw [tileSizes, ih responses (Nat.lt_of_succ_lt_succ short), Option.map_none]

/-- The bodies of the positions that have one, in a row. -/
theorem flatten_filter {α : Type} (p : α → Bool) (body : α → Bytes) (slots : List α) :
    (slots.map fun s => if p s then body s else []).flatten =
      ((slots.filter p).map body).flatten := by
  induction slots with
  | nil => rfl
  | cons s slots ih =>
    cases hp : p s with
    | false => simp [hp, ih]
    | true => simp [hp, ih]

/-- The metatile that has some bodies at the positions of the grid. -/
def metatileOf (tile : TileProtocol) (body : Slot → Bytes) : Bytes :=
  written (metaFloor tile.x) (metaFloor tile.y) tile.z (getFormatsVec tile.format)
    (bodiesOf (getFormatsVec tile.format) fun fmt i => if inGrid tile.z i then body (fmt, i) else [])

theorem bodiesOf_eq (formats : List ProtoFmt) (body : ProtoFmt → Fin 64 → Bytes) :
    bodiesOf formats body = (allSlots formats).map fun s => body s.1 s.2 := by
  rw [bodiesOf, allSlots, List.map_flatMap]
  refine List.flatMap_congr fun fmt _ => ?_
  rw [List.map_map]
  rfl

/-- **Putting together.** Responses in the order of the slots make the metatile that has their
bodies there. -/
theorem makeMetatile_slots (tile : TileProtocol) (g : Slot → Response) :
    makeMetatile tile ((metaSlots tile).map g) =
      some (metatileOf tile fun s => (g s).body) := by
  set formats := getFormatsVec tile.format with hformats
  set body : ProtoFmt → Fin 64 → Bytes :=
    fun fmt i => if inGrid tile.z i then (g (fmt, i)).body else [] with hbody
  have hsizes : tileSizes ((allSlots formats).map fun s => inGrid tile.z s.2)
      ((gridSlots tile.z formats).map g) = some (sizesOf (bodiesOf formats body)) := by
    rw [gridSlots, tileSizes_filter, bodiesOf_eq, sizesOf, List.map_map]
    refine congrArg some (List.map_congr_left fun s _ => ?_)
    simp only [hbody, Function.comp_apply]
    split <;> rfl
  have hflatten : ((gridSlots tile.z formats).map g).flatMap Response.body =
      (bodiesOf formats body).flatten := by
    have := flatten_filter (fun s : Slot => inGrid tile.z s.2) (fun s => (g s).body)
      (allSlots formats)
    rw [bodiesOf_eq, this, List.flatMap_map, ← List.flatMap_def]
    rfl
  have hheaders := writeHeaders_ok (x := metaFloor tile.x) (y := metaFloor tile.y) (z := tile.z)
    (length_bodiesOf formats body)
  simp only [makeMetatile, metaSlots, ← hformats, slots_eq, hsizes, xyToMetaXy, Option.bind_eq_bind,
    Option.bind_some, hheaders, Except.toOption, hflatten]
  rfl

/-- **Too few responses.** The one after the last is read. -/
theorem makeMetatile_short {tile : TileProtocol} {responses : List Response}
    (short : responses.length < (metaSlots tile).length) :
    makeMetatile tile responses = none := by
  simp only [makeMetatile, slots_eq, tileSizes_short _ _ _ short, Option.bind_eq_bind,
    Option.bind_none]

/-- How long the metatile of some bodies is. -/
theorem length_metatileOf (tile : TileProtocol) (body : Slot → Bytes) :
    (metatileOf tile body).length = (getFormatsVec tile.format).length * headerSize +
      ((metaSlots tile).map fun s => (body s).length).sum := by
  rw [metatileOf, length_written, bodiesOf_eq, flatten_filter (fun s : Slot => inGrid tile.z s.2),
    List.length_flatten, List.map_map]
  rfl

/-- The body of a slot is read back, where the metatile is not too long. -/
theorem get_metatileOf {tile : TileProtocol} {body : Slot → Bytes} {fmt : ProtoFmt}
    (hfmt : fmt ∈ getFormatsVec tile.format) (small : (metatileOf tile body).length < 2 ^ 31)
    {x y : Int} (hgrid : inGrid tile.z (tileIndex x y) = true) :
    (metatileReader (metatileOf tile body) fmt).get x y = some (body (fmt, tileIndex x y)) := by
  have hread := get_written (getFormatsVec_nodup tile.format) hfmt small x y
  simp only [hgrid, if_true] at hread
  exact hread

end RenderMq
