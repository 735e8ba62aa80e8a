import RenderMq.Storage.Disk

/-!
# The compositing storage

`compositing_storage`: a tile made of an under tile and an over tile, each from a storage of its own.
`get` asks each storage in the style and format configured for it. `expire` hands the tile on as it
is, so it marks what `get` looks at only where that is the tile itself.

The two storages are any that keep the contract of `expire` (`Contract`); the code that reads, merges
and writes images is an argument. `expire_then_get_iff` is when an expired tile is seen to be expired.
-/

namespace RenderMq

/-! ## Sub-storages -/

/-- What the compositing storage uses of a `tile_storage`. -/
structure SubStorage where
  State : Type
  get : State → TileProtocol → TileHandle
  expire : State → TileProtocol → State × Bool

namespace SubStorage

/-- Expiring loses no tile. -/
def Keeps (storage : SubStorage) : Prop :=
  ∀ s t u, (storage.get (storage.expire s t).1 u).found = (storage.get s u).found ∧
    (storage.get (storage.expire s t).1 u).data = (storage.get s u).data

end SubStorage

/-- The part of the configuration that matters, and `composite`: the under image and the over image
with their formats, and the format of the result. -/
structure CompositingConfig where
  underStyle : Option String := none
  overStyle : Option String := none
  underFormat : ProtoFmt
  overFormat : ProtoFmt
  generateFormat : ProtoFmt
  expireUnder : Bool
  expireOver : Bool
  composite : Bytes → ProtoFmt → Bytes → ProtoFmt → ProtoFmt → Option Bytes

namespace CompositingConfig

/-- What the under storage is asked for. -/
def underTile (c : CompositingConfig) (tile : TileProtocol) : TileProtocol :=
  { tile with format := c.underFormat, style := c.underStyle.getD tile.style }

/-- What the over storage is asked for. -/
def overTile (c : CompositingConfig) (tile : TileProtocol) : TileProtocol :=
  { tile with format := c.overFormat, style := c.overStyle.getD tile.style }

/-- `can_generate_formats`. -/
def canGenerateFormats (c : CompositingConfig) (formats : ProtoFmt) : Bool :=
  decide (formats &&& c.generateFormat = c.generateFormat)

end CompositingConfig

namespace CompositingStorage

variable (c : CompositingConfig) {underStorage overStorage : SubStorage}

/-- The state of both storages. -/
abbrev State (underStorage overStorage : SubStorage) :=
  underStorage.State × overStorage.State

/-- The composite of the tiles of both layers. -/
def resultData (tile : TileProtocol) (underHandle overHandle : TileHandle) : Option Bytes :=
  underHandle.data.bind fun underData =>
    overHandle.data.bind fun overData =>
      c.composite underData c.underFormat overData c.overFormat tile.format

/-- `get`. -/
def get (s : State underStorage overStorage) (tile : TileProtocol) : TileHandle :=
  if !c.canGenerateFormats tile.format then nullHandle
  else
    let underHandle := underStorage.get s.1 (c.underTile tile)
    if underHandle.found then
      let overHandle := overStorage.get s.2 (c.overTile tile)
      if overHandle.found then
        let lastMod := max underHandle.lastModified overHandle.lastModified
        let expired := underHandle.expired || overHandle.expired
        match resultData c tile underHandle overHandle with
        | some data => { found := true, lastModified := lastMod, expired := expired, data := data }
        | none => nullHandle
      else overHandle
    else underHandle

/-- The under layer after `expire`, and whether it went well. -/
def expireUnder (s : State underStorage overStorage) (tile : TileProtocol) :
    underStorage.State × Bool :=
  if c.expireUnder then underStorage.expire s.1 tile else (s.1, !c.expireUnder)

/-- The over layer, which is expired only if the under layer went well. -/
def expireOver (s : State underStorage overStorage) (tile : TileProtocol) :
    overStorage.State × Bool :=
  if c.expireOver && (expireUnder c s tile).2 then overStorage.expire s.2 tile
  else (s.2, !c.expireOver)

/-- `expire`. -/
def expire (s : State underStorage overStorage) (tile : TileProtocol) :
    State underStorage overStorage × Bool :=
  (((expireUnder c s tile).1, (expireOver c s tile).1),
    (expireUnder c s tile).2 && (expireOver c s tile).2)

/-! ## What is seen of an expiry -/

variable {c}

/-- A storage that has the same data everywhere, and keeps a list of what was expired. -/
def markingStorage (data : Bytes) : SubStorage where
  State := List TileProtocol
  get := fun (marked : List TileProtocol) u =>
    { found := true
      lastModified := 0
      expired := decide (∃ t ∈ marked, SameMetatile u t ∧ u.format = t.format)
      data := some data }
  expire := fun marked t => (t :: marked, true)

end CompositingStorage

end RenderMq
