import RenderMq.Lib.Pieces
import RenderMq.Lib.Digits
import RenderMq.Storage.Http

/-!
# Where a tile is stored

Each tile is stored twice, on two of the hosts, in each format under a URL of its own (`formUrl`).
A hash of the tile picks the host of the first copy, and the next host has the second. The URL does
not say which copy it is; a header of the request does.

`url_inj` is what the storage relies on: whatever the hosts are, the tiles of a zoom level and the
formats have different URLs. They are read off the end of the URL, at the last separators.
-/

namespace RenderMq

/-- Which copy of a tile: the `X-Replica` header. -/
inductive Replica where
  | primary
  | secondary
  deriving DecidableEq, Repr

def Replica.offset : Replica → Nat
  | .primary => 0
  | .secondary => 1

/-- `lts_storage`. The hash that picks a host is that of the memcached library. -/
structure LtsStorage where
  hosts : List (String × Int)
  serverByKey : String → Nat
  appName : String
  version : String
  concurrency : Int := 16
  /-- `m_down_recheck_time`, in seconds. -/
  downRecheckTime : Int := 300

namespace LtsStorage

variable (lts : LtsStorage)

/-- `hashWrapper::getHost`. -/
def getHost (hashValue : String) (offset : Nat) : String × Int :=
  lts.hosts.getD ((lts.serverByKey hashValue + offset) % lts.hosts.length) ("", 0)

/-- `hashed_host`. -/
def hashedHost (x y z : Int) (replica : Replica) : String × Int :=
  lts.getHost (toString z ++ "/" ++ toString x ++ "/" ++ toString y) replica.offset

/-- The URL of a style and zoom level on a host. -/
def urlBase (hashedHost : String × Int) (z : Int) (style : String) : String :=
  "http://" ++ hashedHost.1 ++ ":" ++ toString hashedHost.2 ++ "/" ++ lts.version ++ "/" ++
    lts.appName ++ style ++ "/" ++ toString z

/-- The URL of a tile in a file type. -/
def url (x y z : Int) (style fileType : String) (replica : Replica) : String :=
  lts.urlBase (lts.hashedHost x y z replica) z style ++ "/" ++ toString x ++ "/" ++ toString y ++
    "." ++ fileType

/-- `form_url`. -/
def formUrl (x y z : Int) (style : String) (format : ProtoFmt) (replica : Replica) :
    Except String String :=
  (fileTypeFor format).map fun fileType => lts.url x y z style fileType replica

theorem toList_url (x y z : Int) (style fileType : String) (replica : Replica) :
    (lts.url x y z style fileType replica).toList =
      ((lts.urlBase (lts.hashedHost x y z replica) z style).toList ++ '/' :: (toString x).toList ++
        '/' :: (toString y).toList) ++ '.' :: fileType.toList := by
  simp [url]

/-- **The URLs differ.** The column, the row and the file type of a URL can be told. -/
theorem url_inj {x y x' y' z : Int} {style fileType fileType' : String}
    {replica replica' : Replica} (hdot : '.' ∉ fileType.toList) (hdot' : '.' ∉ fileType'.toList)
    (h : lts.url x y z style fileType replica = lts.url x' y' z style fileType' replica') :
    x = x' ∧ y = y' ∧ fileType = fileType' := by
  have hslash (n : Int) : '/' ∉ (toString n).toList :=
    Digits.separator_not_mem_toString n (by decide) (by decide)
  have hlist := congrArg String.toList h
  rw [toList_url, toList_url] at hlist
  obtain ⟨hpath, hfile⟩ := Pieces.append_separator_inj hdot hdot' hlist
  obtain ⟨hcolumn, hy⟩ := Pieces.append_separator_inj (hslash y) (hslash y') hpath
  obtain ⟨_, hx⟩ := Pieces.append_separator_inj (hslash x) (hslash x') hcolumn
  exact ⟨Digits.toString_inj hx, Digits.toString_inj hy, String.toList_injective hfile⟩

/-! ## The URLs of a metatile -/

/-- The file type of a single format. -/
def fileType (fmt : ProtoFmt) : String := (fileTypeFor fmt).toOption.getD ""

theorem fileTypeFor_eq {fmt : ProtoFmt} (h : fmt ∈ singleFormats) :
    fileTypeFor fmt = .ok (fileType fmt) := by
  obtain ⟨_, ext, _, hext⟩ := fileTypeFor_single fmt h
  simp [fileType, hext, Except.toOption]

theorem dot_not_mem_fileType {fmt : ProtoFmt} (h : fmt ∈ singleFormats) :
    '.' ∉ (fileType fmt).toList := by
  simp only [singleFormats, List.mem_cons, List.not_mem_nil, or_false] at h
  rcases h with rfl | rfl | rfl | rfl <;> decide

theorem fileType_inj {fmt fmt' : ProtoFmt} (h : fmt ∈ singleFormats) (h' : fmt' ∈ singleFormats)
    (heq : fileType fmt = fileType fmt') : fmt = fmt' := by
  revert heq
  simp only [singleFormats, List.mem_cons, List.not_mem_nil, or_false] at h h'
  rcases h with rfl | rfl | rfl | rfl <;> rcases h' with rfl | rfl | rfl | rfl <;> decide

/-- The URL of a slot of a tile's metatile. -/
def slotUrl (tile : TileProtocol) (replica : Replica) (s : Slot) : String :=
  lts.url (metaFloor tile.x + (s.2 % 8 : Nat)) (metaFloor tile.y + (s.2 / 8 : Nat)) tile.z
    tile.style (fileType s.1) replica

theorem formUrl_single (x y z : Int) (style : String) {fmt : ProtoFmt} (replica : Replica)
    (h : fmt ∈ singleFormats) :
    lts.formUrl x y z style fmt replica = .ok (lts.url x y z style (fileType fmt) replica) := by
  rw [formUrl, fileTypeFor_eq h]
  rfl

theorem slotUrl_inj {tile : TileProtocol} {replica replica' : Replica} {s s' : Slot}
    (hs : s.1 ∈ singleFormats) (hs' : s'.1 ∈ singleFormats)
    (h : lts.slotUrl tile replica s = lts.slotUrl tile replica' s') : s = s' := by
  obtain ⟨hx, hy, hfile⟩ :=
    lts.url_inj (dot_not_mem_fileType hs) (dot_not_mem_fileType hs') h
  refine Prod.ext (fileType_inj hs hs' hfile) (Fin.ext ?_)
  omega

/-- A tile's URL is that of its slot. -/
theorem slotUrl_tileIndex {tile : TileProtocol} {x y : Int} (hx : metaFloor x = metaFloor tile.x)
    (hy : metaFloor y = metaFloor tile.y) (replica : Replica) (fmt : ProtoFmt) :
    lts.slotUrl tile replica (fmt, tileIndex x y) =
      lts.url x y tile.z tile.style (fileType fmt) replica := by
  rw [slotUrl, tileIndex_col, tileIndex_row, ← hx, ← hy, metaFloor_add_emod, metaFloor_add_emod]

end LtsStorage

end RenderMq
