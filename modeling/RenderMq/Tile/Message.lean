import RenderMq.Lib.Protobuf
import RenderMq.Tile.Protocol

/-!
# The messages of tiles

A tile is sent as a message whose fields have types of their own, and every field is copied to the
message and back. What protocol buffers make of the message is an argument, which gives back what it
was given; `protobuf` is the one there is.

The field of the client has half the bits of the client's number in the tile. `survives_iff` says that
this is all that is lost.
-/

namespace RenderMq

/-- `proto::tile`. -/
structure ProtoTile where
  command : Int32
  x : Int32
  y : Int32
  z : Int32
  id : Int32
  image : Option Bytes
  style : String
  format : Int32
  lastModified : Option UInt64
  requestLastModified : Option UInt64
  deriving DecidableEq

/-- A codec of messages, which reads what it has written. -/
structure MessageCodec where
  serializeToString : ProtoTile → Option Bytes
  parseFromString : Bytes → Option ProtoTile
  faithful : ∀ {message buf}, serializeToString message = some buf → parseFromString buf = some message

/-! ## Protocol buffers -/

section Protobuf

open Peg Protobuf

/-- The text of a message, by the numbers of its fields. -/
def ProtoTile.write (t : ProtoTile) : Bytes :=
  (required 1 .varint int32).write t.command ++
    ((required 2 .varint int32).write t.x ++
    ((required 3 .varint int32).write t.y ++
    ((required 4 .varint int32).write t.z ++
    ((required 5 .varint int32).write t.id ++
    (writeOptional 6 .lengthDelimited bytes t.image ++
    ((required 7 .lengthDelimited string).write t.style ++
    ((required 8 .varint int32).write t.format ++
    (writeOptional 9 .varint uint64 t.lastModified ++
    (writeOptional 10 .varint uint64 t.requestLastModified ++ [])))))))))

/-- The message of a text that has the fields in their order. -/
def ProtoTile.read : Parser UInt8 ProtoTile := do
  let command ← (required 1 .varint int32).read
  let x ← (required 2 .varint int32).read
  let y ← (required 3 .varint int32).read
  let z ← (required 4 .varint int32).read
  let id ← (required 5 .varint int32).read
  let image ← readOptional 6 .lengthDelimited bytes
  let style ← (required 7 .lengthDelimited string).read
  let format ← (required 8 .varint int32).read
  let lastModified ← readOptional 9 .varint uint64
  let requestLastModified ← readOptional 10 .varint uint64
  pure ⟨command, x, y, z, id, image, style, format, lastModified, requestLastModified⟩

theorem ProtoTile.reads (t : ProtoTile) : Reads read t.write t [] := by
  -- a field that is missing is followed by another one's tag, or by nothing
  have himage : ∀ rest, ¬ tag 6 .lengthDelimited <+:
      (required 7 .lengthDelimited string).write t.style ++ rest :=
    fun _ hprefix => absurd (List.cons_prefix_cons.mp hprefix).1 (by decide)
  have hlast : ¬ tag 9 .varint <+: writeOptional 10 .varint uint64 t.requestLastModified ++ [] := by
    intro hprefix
    cases hfield : t.requestLastModified with
    | none =>
      rw [hfield] at hprefix
      exact absurd hprefix (by decide)
    | some v =>
      rw [hfield] at hprefix
      exact absurd (List.cons_prefix_cons.mp hprefix).1 (by decide)
  have hrequest : ¬ tag 10 .varint <+: ([] : Bytes) := by decide
  refine ((required 1 .varint int32).reads t.command _).bind ?_
  refine ((required 2 .varint int32).reads t.x _).bind ?_
  refine ((required 3 .varint int32).reads t.y _).bind ?_
  refine ((required 4 .varint int32).reads t.z _).bind ?_
  refine ((required 5 .varint int32).reads t.id _).bind ?_
  refine (reads_optional 6 .lengthDelimited bytes t.image (himage _)).bind ?_
  refine ((required 7 .lengthDelimited string).reads t.style _).bind ?_
  refine ((required 8 .varint int32).reads t.format _).bind ?_
  refine (reads_optional 9 .varint uint64 t.lastModified hlast).bind ?_
  exact (reads_optional 10 .varint uint64 t.requestLastModified hrequest).bind (Reads.pure t [])

/-- Messages of less than 2 GiB. -/
def protobuf : MessageCodec where
  serializeToString t := if t.write.length < 2 ^ 31 then some t.write else none
  parseFromString buf := (ProtoTile.read.run buf).map Prod.fst
  faithful := by
    intro t buf h
    split at h
    · obtain rfl := Option.some.inj h
      rw [t.reads, Option.map_some]
    · cases h

end Protobuf

/-! ## Tiles -/

def ProtoCmd.toInt : ProtoCmd → Int
  | .cmdIgnore => 0
  | .cmdRender => 1
  | .cmdDirty => 2
  | .cmdDone => 3
  | .cmdNotDone => 4
  | .cmdRenderPrio => 5
  | .cmdRenderBulk => 6
  | .cmdStatus => 7

/-- `static_cast<protoCmd>`; what it makes of a number that is no command is not told. -/
def ProtoCmd.cast (other : Int → ProtoCmd) : Int → ProtoCmd
  | 0 => .cmdIgnore
  | 1 => .cmdRender
  | 2 => .cmdDirty
  | 3 => .cmdDone
  | 4 => .cmdNotDone
  | 5 => .cmdRenderPrio
  | 6 => .cmdRenderBulk
  | 7 => .cmdStatus
  | v => other v

namespace TileProtocol

/-- The values are of the types that the fields have. -/
structure IsTyped (tile : TileProtocol) : Prop where
  x : -2 ^ 31 ≤ tile.x ∧ tile.x < 2 ^ 31
  y : -2 ^ 31 ≤ tile.y ∧ tile.y < 2 ^ 31
  z : -2 ^ 31 ≤ tile.z ∧ tile.z < 2 ^ 31
  id : -2 ^ 63 ≤ tile.id ∧ tile.id < 2 ^ 63
  lastModified : -2 ^ 63 ≤ tile.lastModified ∧ tile.lastModified < 2 ^ 63
  requestLastModified : -2 ^ 63 ≤ tile.requestLastModified ∧ tile.requestLastModified < 2 ^ 63

/-- A time, which is set if it is not zero. -/
def setTime (time : Int) : Option UInt64 := if time ≠ 0 then some (UInt64.ofInt time) else none

/-- A time that is zero if it was not set, as a `time_t` again. -/
def getTime (field : Option UInt64) : Int := (field.getD 0).toInt64.toInt

/-- The message of a tile. -/
def toMessage (tile : TileProtocol) : ProtoTile where
  command := Int32.ofInt tile.status.toInt
  x := Int32.ofInt tile.x
  y := Int32.ofInt tile.y
  z := Int32.ofInt tile.z
  id := Int32.ofInt tile.id
  image := some tile.data
  style := tile.style
  format := Int32.ofBitVec tile.format
  lastModified := setTime tile.lastModified
  requestLastModified := setTime tile.requestLastModified

/-- The tile of a message. -/
def ofMessage (other : Int → ProtoCmd) (t : ProtoTile) : TileProtocol where
  status := ProtoCmd.cast other t.command.toInt
  x := t.x.toInt
  y := t.y.toInt
  z := t.z.toInt
  id := t.id.toInt
  data := t.image.getD []
  style := t.style
  format := t.format.toBitVec
  lastModified := getTime t.lastModified
  requestLastModified := getTime t.requestLastModified

/-- `serialise`. -/
def serialise (codec : MessageCodec) (tile : TileProtocol) : Option Bytes :=
  codec.serializeToString tile.toMessage

/-- `unserialise`, to a tile. -/
def unserialise (codec : MessageCodec) (other : Int → ProtoCmd) (buf : Bytes) (tile : TileProtocol) :
    Bool × TileProtocol :=
  match codec.parseFromString buf with
  | some t => (true, ofMessage other t)
  | none => (false, tile)

/-! ## What survives -/

theorem cast_toInt (other : Int → ProtoCmd) (status : ProtoCmd) :
    ProtoCmd.cast other (Int32.ofInt status.toInt).toInt = status := by
  cases status <;> rfl

theorem toInt_ofInt_iff (v : Int) : (Int32.ofInt v).toInt = v ↔ -2 ^ 31 ≤ v ∧ v < 2 ^ 31 := by
  constructor
  · intro h
    rw [← h]
    exact ⟨Int32.le_toInt _, Int32.toInt_lt _⟩
  · exact fun h => Int32.toInt_ofInt_of_le h.1 h.2

theorem toInt64_ofInt (v : Int) : (UInt64.ofInt v).toInt64 = Int64.ofInt v := by
  apply Int64.toBitVec.inj
  apply BitVec.eq_of_toNat_eq
  have hmod : (UInt64.ofInt v).toNat = (v % 2 ^ 64).toNat % 2 ^ 64 := UInt64.toNat_ofNat'
  show (UInt64.ofInt v).toNat = (BitVec.ofInt 64 v).toNat
  rw [hmod, BitVec.toNat_ofInt]
  omega

/-- A time is the same in the message, before 1970 too. -/
theorem getTime_setTime {time : Int} (h : -2 ^ 63 ≤ time ∧ time < 2 ^ 63) :
    getTime (setTime time) = time := by
  unfold getTime setTime
  split
  · rw [Option.getD_some, toInt64_ofInt]
    exact Int64.toInt_ofInt_of_le h.1 h.2
  · next hzero =>
    rw [not_not.mp hzero]
    rfl

theorem ofMessage_toMessage_iff (other : Int → ProtoCmd) {tile : TileProtocol} (h : tile.IsTyped) :
    ofMessage other tile.toMessage = tile ↔ -2 ^ 31 ≤ tile.id ∧ tile.id < 2 ^ 31 := by
  rw [← toInt_ofInt_iff]
  constructor
  · exact fun heq => congrArg TileProtocol.id heq
  · intro hid
    unfold ofMessage toMessage
    dsimp only
    rw [cast_toInt, (toInt_ofInt_iff tile.x).mpr h.x, (toInt_ofInt_iff tile.y).mpr h.y,
      (toInt_ofInt_iff tile.z).mpr h.z, hid, getTime_setTime h.lastModified,
      getTime_setTime h.requestLastModified]
    rfl

/-- **What survives the wire.** A tile that was written is read back, to any tile, exactly if the number
of its client has 32 bits.

The values of the tile are of the types that its fields have. Of the codec it is assumed that it reads
the message that it has written; a tile that it can not write is not covered. -/
theorem survives_iff (codec : MessageCodec) (other : Int → ProtoCmd) {tile : TileProtocol}
    (h : tile.IsTyped) {buf : Bytes} (hbuf : serialise codec tile = some buf) :
    (∀ target, unserialise codec other buf target = (true, tile)) ↔
      -2 ^ 31 ≤ tile.id ∧ tile.id < 2 ^ 31 := by
  have hread (target : TileProtocol) :
      unserialise codec other buf target = (true, ofMessage other tile.toMessage) := by
    unfold unserialise
    rw [codec.faithful hbuf]
  rw [← ofMessage_toMessage_iff other h]
  constructor
  · intro hall
    exact congrArg Prod.snd ((hread {}).symm.trans (hall {}))
  · intro heq target
    rw [hread, heq]

/-- A client whose number has 33 bits, and a tile from before 1970. -/
def farTile : TileProtocol where
  status := .cmdDone
  x := -1
  id := 2 ^ 31
  style := "map"
  lastModified := -1
  data := [0xff, 0xd8]

theorem farTile_isTyped : farTile.IsTyped where
  x := by decide
  y := by decide
  z := by decide
  id := by decide
  lastModified := by decide
  requestLastModified := by decide

/-- The number of the client comes out negative. -/
theorem long_id_does_not_survive :
    ¬ ∀ (codec : MessageCodec) (other : Int → ProtoCmd) (tile : TileProtocol), tile.IsTyped →
      ∀ buf, serialise codec tile = some buf →
        ∀ target, unserialise codec other buf target = (true, tile) := by
  intro h
  have hread := h protobuf (fun _ => .cmdIgnore) farTile farTile_isTyped farTile.toMessage.write
    (by decide +kernel) {}
  have hid : (unserialise protobuf (fun _ => .cmdIgnore) farTile.toMessage.write {}).2.id = -2 ^ 31 := by
    decide +kernel
  rw [hread] at hid
  exact absurd hid (by decide)

/-- With another number, the tile survives. -/
theorem short_id_survives : ∃ buf, serialise protobuf { farTile with id := -1 } = some buf ∧
    ∀ target, unserialise protobuf (fun _ => .cmdIgnore) buf target = (true, { farTile with id := -1 }) := by
  have htyped : { farTile with id := -1 }.IsTyped := { farTile_isTyped with id := by decide }
  have hbuf : serialise protobuf { farTile with id := -1 } =
      some { farTile with id := -1 }.toMessage.write := by decide +kernel
  exact ⟨_, hbuf, (survives_iff protobuf _ htyped hbuf).mpr (by decide)⟩

end TileProtocol

end RenderMq
