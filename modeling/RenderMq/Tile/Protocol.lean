import Mathlib.Algebra.Order.Ring.Int

/-!
# Tiles, formats and metatile arithmetic

The message that every component passes around (`TileProtocol`), the format bit mask, and the
arithmetic that maps a tile to the 8×8 metatile it is rendered and stored in.

A C++ `int` that is only compared, masked or added to small numbers is an `Int`; a value that is
used as a bit mask is a `BitVec 32`. Masking off the low three bits of a two's complement integer is
`metaFloor`, and keeping them is the remainder modulo 8, for negative values as well.
-/

namespace RenderMq

/-- The content of a tile, a metatile or a message part. -/
abbrev Bytes := List UInt8

/-! ## Commands and formats -/

/-- `protoCmd`: what a message asks for, or how a request ended. -/
inductive ProtoCmd where
  | cmdIgnore
  | cmdRender
  | cmdDirty
  | cmdDone
  | cmdNotDone
  | cmdRenderPrio
  | cmdRenderBulk
  | cmdStatus
  deriving DecidableEq, Repr

/-- `protoFmt`, a bit mask: a request may be for several formats at once. -/
abbrev ProtoFmt := BitVec 32

def fmtNone : ProtoFmt := 0#32
def fmtPNG : ProtoFmt := 1#32
def fmtJPEG : ProtoFmt := 2#32
def fmtJSON : ProtoFmt := 4#32
def fmtGIF : ProtoFmt := 8#32
def fmtAll : ProtoFmt := 15#32

/-- `mime_type_for`; it throws for anything but a single format. -/
def mimeTypeFor (fmt : ProtoFmt) : Except String String :=
  if fmt = fmtPNG then .ok "image/png"
  else if fmt = fmtJPEG then .ok "image/jpeg"
  else if fmt = fmtGIF then .ok "image/gif"
  else if fmt = fmtJSON then .ok "application/json;charset=UTF-8"
  else .error "Ambiguous format in mime_type_for()"

/-- `file_type_for`; it knows the empty and the full mask besides the single formats. -/
def fileTypeFor (fmt : ProtoFmt) : Except String String :=
  if fmt = fmtNone then .ok "none"
  else if fmt = fmtPNG then .ok "png"
  else if fmt = fmtJPEG then .ok "jpeg"
  else if fmt = fmtGIF then .ok "gif"
  else if fmt = fmtJSON then .ok "json"
  else if fmt = fmtAll then .ok "all"
  else .error "Ambiguous format in file_type_for()"

/-- The order in which `get_formats_vec` peels formats out of a mask. -/
def singleFormats : List ProtoFmt := [fmtPNG, fmtJPEG, fmtGIF, fmtJSON]

/-- `get_formats_vec`: the single formats of a mask. -/
def getFormatsVec (formatMask : ProtoFmt) : List ProtoFmt :=
  singleFormats.filter fun fmt => decide (formatMask &&& fmt ≠ 0#32)

theorem singleFormats_nodup : singleFormats.Nodup := by decide

theorem getFormatsVec_nodup (mask : ProtoFmt) : (getFormatsVec mask).Nodup :=
  singleFormats_nodup.filter _

theorem getFormatsVec_subset {mask fmt : ProtoFmt} (h : fmt ∈ getFormatsVec mask) :
    fmt ∈ singleFormats :=
  (List.mem_filter.mp h).1

/-- Every single format has a mime type and a file type. -/
theorem fileTypeFor_single : ∀ fmt ∈ singleFormats,
    ∃ mime ext, mimeTypeFor fmt = .ok mime ∧ fileTypeFor fmt = .ok ext := by
  intro fmt h
  simp only [singleFormats, List.mem_cons, List.not_mem_nil, or_false] at h
  rcases h with rfl | rfl | rfl | rfl <;> exact ⟨_, _, rfl, rfl⟩

/-! ## Messages -/

/-- A broker is known by the identity of its socket. -/
abbrev BrokerId := String

/-- `tile_protocol`. -/
structure TileProtocol where
  status : ProtoCmd := .cmdRenderPrio
  x : Int := 0
  y : Int := 0
  z : Int := 0
  id : Int := 0
  style : String := ""
  format : ProtoFmt := fmtPNG
  lastModified : Int := 0
  requestLastModified : Int := 0
  data : Bytes := []
  deriving DecidableEq, Repr

/-- `set_data`. -/
def TileProtocol.setData (tile : TileProtocol) (data : Bytes) : TileProtocol :=
  { tile with data := data }

/-- What a `tile_storage::handle` answers. -/
structure TileHandle where
  found : Bool
  lastModified : Int
  expired : Bool
  data : Option Bytes

/-! ## Metatile arithmetic -/

/-- `METATILE`: how wide and high a metatile is, in tiles. -/
abbrev METATILE : Int := 8

/-- `v & ~(METATILE - 1)`: the metatile coordinate of a tile coordinate. -/
def metaFloor (v : Int) : Int := v - v % METATILE

/-- `xy_to_meta_xy`. -/
def xyToMetaXy (x y : Int) : Int × Int := (metaFloor x, metaFloor y)

/-- `xyz_to_meta_offset`: where a tile stands in its metatile, row by row. -/
def xyzToMetaOffset (x y : Int) : Nat := ((y % METATILE) * METATILE + x % METATILE).toNat

/-- `get_meta_dimensions`: the metatile of a low zoom is smaller than 8×8. The shift is made on a
32 bit value; a count outside 0 to 31 is undefined in the source. -/
def getMetaDimensions (zoom : Int) (limit : Int := METATILE) : Int :=
  min (1#32 <<< zoom.toNat).toInt limit

/-- `get_tile_count_in_meta`. -/
def getTileCountInMeta (zoom : Int) (limit : Int := METATILE) : Int :=
  getMetaDimensions zoom limit * getMetaDimensions zoom limit

/-- Tiles that are rendered together. -/
structure SameMetatile (t u : TileProtocol) : Prop where
  x : metaFloor t.x = metaFloor u.x
  y : metaFloor t.y = metaFloor u.y
  z : t.z = u.z
  style : t.style = u.style

instance (t u : TileProtocol) : Decidable (SameMetatile t u) :=
  decidable_of_iff
    (metaFloor t.x = metaFloor u.x ∧ metaFloor t.y = metaFloor u.y ∧ t.z = u.z ∧ t.style = u.style)
    ⟨fun h => ⟨h.1, h.2.1, h.2.2.1, h.2.2.2⟩, fun h => ⟨h.x, h.y, h.z, h.style⟩⟩

theorem dvd_metaFloor (v : Int) : METATILE ∣ metaFloor v :=
  Int.dvd_self_sub_emod

/-- A tile coordinate is its metatile's plus the place in the metatile. -/
theorem metaFloor_add_emod (v : Int) : metaFloor v + v % METATILE = v := by
  unfold metaFloor
  omega

theorem metaFloor_add {v d : Int} (h0 : 0 ≤ d) (h8 : d < METATILE) :
    metaFloor (metaFloor v + d) = metaFloor v ∧ (metaFloor v + d) % METATILE = d := by
  unfold metaFloor METATILE at *
  omega

theorem xyzToMetaOffset_lt (x y : Int) : xyzToMetaOffset x y < 64 := by
  unfold xyzToMetaOffset METATILE
  omega

/-- Up to zoom 30 the dimension is `min (2 ^ zoom) 8`, as intended. -/
theorem getMetaDimensions_eq {zoom : Int} (h0 : 0 ≤ zoom) (h30 : zoom ≤ 30) :
    getMetaDimensions zoom = min (2 ^ zoom.toNat) METATILE := by
  have hlt : (2 : Nat) ^ zoom.toNat ≤ 2 ^ 30 := Nat.pow_le_pow_right (by decide) (by omega)
  have hnat : (1#32 <<< zoom.toNat).toNat = 2 ^ zoom.toNat := by
    rw [BitVec.toNat_shiftLeft, Nat.shiftLeft_eq, BitVec.toNat_ofNat, Nat.one_mod, Nat.one_mul,
      Nat.mod_eq_of_lt (by omega)]
  have hint : (1#32 <<< zoom.toNat).toInt = ((2 ^ zoom.toNat : Nat) : Int) := by
    rw [BitVec.toInt_eq_toNat_of_lt (by rw [hnat]; omega), hnat]
  rw [getMetaDimensions, hint]
  push_cast
  rfl

end RenderMq
