import RenderMq.Node.InfoView

/-!
# Tiles on a storage node

A node keeps each tile in a file (`mqCache`), and answers requests for tiles
(`MercatorTilesController`). A POST stores the tiles of a form, a GET reads one. Both may set the time of
tiles, the GET for several styles: the file's modification time, and the bit of the tile's metatile, which
is set if the time is the epoch and cleared if it is not (`setTime`).

The time reported for a tile is the epoch if its metatile's bit is set, and the time of its file if not
(`lastModifiedTime`).

A file is left in place by every request: it is replaced, or its time is set.
-/

namespace RenderMq.StorageNode

open ExpiryInfo

/-! ## The cache -/

/-- `mqTile`. -/
structure MqTile where
  type : Style
  zoom : Nat
  x : Nat
  y : Nat
  extension : String
  version : String
  replica : String
  deriving DecidableEq

/-- The root of a cache: the version's directory, and the type of the tiles. -/
structure CacheRoot where
  root : String
  type : Style
  deriving DecidableEq

/-- The name of a file. Its numbers are kept as numbers. -/
structure FileName where
  cache : CacheRoot
  replica : String
  type : Style
  zoom : Nat
  dirs : List Nat
  name : Nat
  extension : String
  deriving DecidableEq

structure File where
  data : Bytes
  mtime : Int

/-- A node's files, and its expiry server. -/
structure Node where
  files : FileName → Option File
  expiry : Guard

/-- `path_split`. -/
def pathSplit (i : Nat) : List Nat := [i / 1000000, i / 1000 % 1000, i % 1000]

/-- `construct_name`, with `construct_path`. -/
def constructName (cache : CacheRoot) (id : MqTile) : FileName where
  cache := cache
  replica := id.replica
  type := id.type
  zoom := id.zoom
  dirs := pathSplit id.x ++ (pathSplit id.y).dropLast
  name := (pathSplit id.y).getLastD 0
  extension := id.extension

namespace Node

/-- `get`. -/
def get (n : Node) (name : FileName) : Option Bytes := (n.files name).map File.data

/-- `put`. The new file takes the place of the old one. -/
def put (n : Node) (name : FileName) (data : Bytes) (now : Int) : Node :=
  if data.isEmpty then n
  else { n with files := Function.update n.files name (some { data := data, mtime := now }) }

/-- `get_modified_time`. -/
def getModifiedTime (n : Node) (name : FileName) : Option Int := (n.files name).map File.mtime

/-- `set_modified_time`, of a file that is there. -/
def setModifiedTime (n : Node) (name : FileName) (time : Int) : Node :=
  { n with
    files := Function.update n.files name ((n.files name).map fun f => { f with mtime := time }) }

section

variable {n : Node} {name other : FileName} {data : Bytes} {now time : Int}

@[simp] theorem expiry_put : (n.put name data now).expiry = n.expiry := by
  unfold put
  split <;> rfl

theorem getModifiedTime_put_of_ne (h : other ≠ name) :
    (n.put name data now).getModifiedTime other = n.getModifiedTime other := by
  unfold put
  split
  · rfl
  · exact congrArg (Option.map File.mtime) (Function.update_of_ne h ..)

/-- A file that is there stays there. -/
theorem getModifiedTime_put_isSome (h : (n.getModifiedTime name).isSome) :
    ((n.put name data now).getModifiedTime name).isSome := by
  unfold put
  split
  · exact h
  · have hfile : Function.update n.files name (some { data := data, mtime := now }) name = some _ :=
      Function.update_self ..
    show (Option.map File.mtime (Function.update n.files name _ name)).isSome
    rw [hfile]
    rfl

theorem getModifiedTime_setModifiedTime_self :
    (n.setModifiedTime name time).getModifiedTime name =
      (n.getModifiedTime name).map fun _ => time := by
  have hfile : (n.setModifiedTime name time).files name =
      (n.files name).map fun f => { f with mtime := time } := Function.update_self ..
  rw [getModifiedTime, hfile, getModifiedTime, Option.map_map, Option.map_map]
  rfl

theorem getModifiedTime_setModifiedTime_of_ne (h : other ≠ name) :
    (n.setModifiedTime name time).getModifiedTime other = n.getModifiedTime other :=
  congrArg (Option.map File.mtime) (Function.update_of_ne h ..)

end

end Node

/-! ## Requests -/

/-- The Unix epoch. -/
def EPOCH : Int := 0

/-- Where each version is kept. -/
structure Config where
  cacheInfo : String → Option String

/-- A file of a form: the tile its name is of, what is in it, and the time at which it is stored. -/
structure Part where
  z : Nat
  x : Nat
  y : Nat
  imageType : String
  data : Bytes
  now : Int

/-- A request for a tile. The time is the one that the request's `last-modified` gives, and the styles
those of its `X-Also-Expire`. A part of a form is missing where reading its name, or storing its file,
raises. -/
inductive Request where
  | post (tile : MqTile) (lastModified : Option Int) (parts : List (Option Part))
  | get (tile : MqTile) (lastModified : Option Int) (alsoExpire : Option (List Style))

def Request.tile : Request → MqTile
  | .post tile _ _ => tile
  | .get tile _ _ => tile

/-- `getDiskCache`. -/
def getDiskCache (cfg : Config) (tile : MqTile) : Option CacheRoot :=
  (cfg.cacheInfo tile.version).map fun root => { root := root, type := tile.type }

/-- `lastModifiedTime`, unless it raises. -/
def lastModifiedTime (n : Node) (cache : CacheRoot) (tile : MqTile) : Option (Node × Option Int) :=
  (getTile n.expiry tile.x tile.y tile.zoom tile.type .works).map fun answer =>
    ({ n with expiry := answer.1 },
      if answer.2 = some true then some EPOCH else n.getModifiedTime (constructName cache tile))

/-- The time of a tile is set, and whether its metatile is expired. The flag tells whether that was
done, or raised. -/
def setTime (cache : CacheRoot) (n : Node) (tile : MqTile) (secs : Int) : Node × Bool :=
  let n := n.setModifiedTime (constructName cache tile) secs
  match setTile n.expiry tile.x tile.y tile.zoom tile.type (decide (secs = EPOCH)) .works with
  | some answer => ({ n with expiry := answer.1 }, true)
  | none => (n, false)

/-- The tile of a part. -/
def Part.tile (theTile : MqTile) (part : Part) : MqTile :=
  { theTile with zoom := part.z, x := part.x, y := part.y, extension := part.imageType }

/-- The parts of a form, until one raises. -/
def postParts (cache : CacheRoot) (theTile : MqTile) (lastModified : Option Int) :
    Node → List (Option Part) → Node × Bool
  | n, [] => (n, true)
  | n, none :: _ => (n, false)
  | n, some part :: parts =>
    let tile := part.tile theTile
    let n := n.put (constructName cache tile) part.data part.now
    match setTime cache n tile (lastModified.getD part.now) with
    | (n, true) => postParts cache theTile lastModified n parts
    | (n, false) => (n, false)

/-- The styles to expire, until one raises. -/
def expireStyles (cache : CacheRoot) (theTile : MqTile) (secs : Int) : Node → List Style → Node
  | n, [] => n
  | n, style :: styles =>
    match setTime cache n { theTile with type := style } secs with
    | (n, true) => expireStyles cache theTile secs n styles
    | (n, false) => n

/-- What is returned: the image and its time, or what was raised. -/
inductive Result where
  | tile (image : Option Bytes) (lastModified : Option Int)
  | notConfigured
  | notFound
  | failed

/-- The end of a request. -/
def respond (n : Node) (cache : CacheRoot) (tile : MqTile) (image : Option Bytes) : Node × Result :=
  match lastModifiedTime n cache tile with
  | some (n, time) => (n, .tile image time)
  | none => (n, .failed)

/-- `process_tile_request`. -/
def processTileRequest (cfg : Config) (n : Node) (r : Request) : Node × Result :=
  match getDiskCache cfg r.tile with
  | none => (n, .notConfigured)
  | some cache =>
    match r with
    | .post theTile lastModified parts =>
      match postParts cache theTile lastModified n parts with
      | (n, true) => respond n cache theTile none
      | (n, false) => (n, .failed)
    | .get theTile lastModified alsoExpire =>
      match n.get (constructName cache theTile) with
      | none => (n, .notFound)
      | some image =>
        if image.isEmpty then (n, .notFound)
        else
          match lastModified with
          | none => respond n cache theTile (some image)
          | some secs =>
            let n := expireStyles cache theTile secs n (alsoExpire.getD [theTile.type])
            respond n cache theTile (some image)

/-- The time that a look at a tile reports. -/
def reported (cfg : Config) (n : Node) (tile : MqTile) : Option Int :=
  (getDiskCache cfg tile).bind fun cache => (lastModifiedTime n cache tile).bind Prod.snd

end RenderMq.StorageNode
