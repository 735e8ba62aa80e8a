import RenderMq.Lib.Digits
import RenderMq.Lib.Pieces
import RenderMq.Metatile.WellFormed

/-!
# Disk storage

`disk_storage` keeps each metatile in a file. Five numbers of the file's path, made of four bits of the
column and four of the row each, tell the metatile (`metatilePath_eq_iff`); the time stamp of the file
is 0 when the metatile is expired.

A tile is read into a buffer that all handles share, so that only one handle may be alive at a time.
`get` fails as long as it is. What a handle answers is determined by the file (`answer_eq`).

The file system is a map. Directories, descriptors and errors of the system are left out.
-/

namespace RenderMq

/-! ## The file system -/

/-- A file, and when it was last written. -/
structure DiskFile where
  bytes : Bytes
  mtime : Int

/-- The files by their paths. -/
abbrev Files := String → Option DiskFile

namespace Files

variable (files : Files)

/-- A new file, written now. -/
def write (path : String) (bytes : Bytes) (now : Int) : Files :=
  Function.update files path (some ⟨bytes, now⟩)

/-- `fs::rename`: the file keeps its time stamp. -/
def rename (source target : String) : Files :=
  Function.update (Function.update files target (files source)) source none

/-- `fs::last_write_time`, to set it. -/
def setTime (path : String) (time : Int) : Files :=
  Function.update files path ((files path).map fun file => { file with mtime := time })

/-- A file that is written beside and renamed is there, and no other has changed. -/
theorem rename_write {tmp path p : String} (bytes : Bytes) (now : Int) (hp : p ≠ tmp) :
    (files.write tmp bytes now).rename tmp path p =
      if p = path then some ⟨bytes, now⟩ else files p := by
  rw [rename, Function.update_of_ne hp]
  by_cases h : p = path
  · rw [h, Function.update_self, if_pos rfl, write, Function.update_self]
  · rw [Function.update_of_ne h, if_neg h, write, Function.update_of_ne hp]

theorem setTime_apply (path p : String) (time : Int) :
    files.setTime path time p =
      if p = path then (files p).map fun file => { file with mtime := time } else files p := by
  by_cases h : p = path
  · rw [h, setTime, Function.update_self, if_pos rfl]
  · rw [setTime, Function.update_of_ne h, if_neg h]

end Files

/-- A name that `fs::unique_path` makes up. -/
structure UniquePath where
  name : String
  chars : ∀ c ∈ name.toList, c ∈ "0123456789abcdef-".toList

/-- `fs::path` joined by its operator `/`, which adds a separator where there is none. -/
def joinPath (dir name : String) : String :=
  if dir.toList.getLast?.all (· == '/') then dir ++ name else dir ++ "/" ++ name

/-! ## Paths -/

/-- `hash` of `xyz_to_meta`. Each round takes the low four bits of the column and of the row, and
shifts them out. -/
def metaHash (x y : Int) : Nat → Int
  | 0 => x % 16 * 16 + y % 16
  | i + 1 => metaHash (x / 16) (y / 16) i

/-- `xyz_to_meta`: the file of a metatile, and where a tile stands in it. -/
def xyzToMeta (tileDir : String) (x y z : Int) (style : String) : String × Fin 64 :=
  let hash := metaHash (metaFloor x) (metaFloor y)
  (tileDir ++ "/" ++ style ++ "/" ++ toString z ++ "/" ++ toString (hash 4) ++ "/" ++
    toString (hash 3) ++ "/" ++ toString (hash 2) ++ "/" ++ toString (hash 1) ++ "/" ++
    toString (hash 0) ++ ".meta", tileIndex x y)

/-! ## The file reader -/

/-- The search of `read_from_meta` for the header of a format, or its error code: the file is too small,
or there is no magic. -/
def searchHeader (fmt : ProtoFmt) : List MetaLayout → Except Int MetaLayout
  | [] => .error (-3)
  | m :: rest =>
    if m.magic ≠ META_MAGIC then .error (-4)
    else if m.fmt = fmt then .ok m
    else searchHeader fmt rest

/-- What `read_from_meta` reads of an opened file: at most `sz` bytes of a tile. Headers are looked for
in the first 4096 bytes only. -/
def readTile (bytes : Bytes) (offset : Fin 64) (sz : Nat) (fmt : ProtoFmt) : Except Int Bytes :=
  match searchHeader fmt (headerBlocks (bytes.take 4096)) with
  | .error code => .error code
  | .ok m =>
    if m.count ≠ 64#32 then .error (-5)
    else
      let e := m.index.get offset
      if e.offset.toInt < 0 then .error (-6)
      else
        let tileSize := min (e.size.signExtend 64).toNat sz
        .ok ((bytes.drop e.offset.toNat).take tileSize)

/-- `read_from_meta`: the number of bytes that are read, or an error code, and the buffer. -/
def readFromMeta (files : Files) (tileDir : String) (x y z : Int) (style : String) (buf : Bytes)
    (sz : Nat) (fmt : ProtoFmt) : Int × Bytes :=
  let (path, offset) := xyzToMeta tileDir x y z style
  match files path with
  | none => (-1, buf)
  | some file =>
    match readTile file.bytes offset sz fmt with
    | .error code => (code, buf)
    | .ok got => (got.length, got ++ buf.drop got.length)

/-! ## The storage -/

/-- `null_handle`. -/
def nullHandle : TileHandle := { found := false, lastModified := 0, expired := false, data := none }

/-- `disk_storage::handle`, less its reference to the storage. -/
structure DiskHandle where
  timestamp : Int
  size : Nat
  deriving DecidableEq, Repr

/-- `sizeof(tile_data)`. -/
def dataCacheSize : Nat := 1024 * 1024

/-- `disk_storage`, less what changes. -/
structure DiskStorage where
  dir : String

/-- What changes: the files, and the buffer with its lock, which is set while a handle is alive. -/
structure DiskState where
  files : Files := fun _ => none
  dataLocked : Bool := false
  dataCache : Bytes

/-- What a handle answers in a state; no handle here is a null handle. -/
def DiskState.view (s : DiskState) : Option DiskHandle → TileHandle
  | some h =>
    { found := true
      lastModified := h.timestamp
      expired := decide (h.timestamp = 0)
      data := some (s.dataCache.take h.size) }
  | none => nullHandle

inductive DiskEvent where
  | putMeta (tile : TileProtocol) (buf : Bytes) (tmp : UniquePath) (now : Int)
  | expire (tile : TileProtocol)
  | get (tile : TileProtocol)
  /-- The handle that is alive is destroyed. -/
  | release

namespace DiskStorage

variable (disk : DiskStorage)

/-- The file of a tile's metatile. -/
def metatilePath (tile : TileProtocol) : String :=
  (xyzToMeta disk.dir tile.x tile.y tile.z tile.style).1

/-- `get`. -/
def get (s : DiskState) (tile : TileProtocol) : Except String (Option DiskHandle × DiskState) :=
  if s.dataLocked then .error "Multiple use of disk_storage::data_cache not allowed."
  else
    match s.files (disk.metatilePath tile) with
    | some file =>
      let (ret, dataCache) := readFromMeta s.files disk.dir tile.x tile.y tile.z tile.style
        s.dataCache dataCacheSize tile.format
      if 0 < ret then
        .ok (some ⟨file.mtime, ret.toNat⟩, { s with dataCache, dataLocked := true })
      else .ok (none, { s with dataCache })
    | none => .ok (none, s)

/-- `put_meta`. The file is written under a name of its own first. -/
def putMeta (s : DiskState) (tile : TileProtocol) (buf : Bytes) (tmp : UniquePath) (now : Int) :
    DiskState × Bool :=
  let (path, offset) := xyzToMeta disk.dir tile.x tile.y tile.z tile.style
  if offset = 0 then
    let tmp := joinPath disk.dir tmp.name
    ({ s with files := (s.files.write tmp buf now).rename tmp path }, true)
  else (s, false)

/-- `expire`. -/
def expire (s : DiskState) (tile : TileProtocol) : DiskState × Bool :=
  let path := disk.metatilePath tile
  if (s.files path).isSome then ({ s with files := s.files.setTime path 0 }, true) else (s, false)

/-- A `get` that throws changes nothing. -/
def step (s : DiskState) : DiskEvent → Option DiskState
  | .putMeta tile buf tmp now => some (disk.putMeta s tile buf tmp now).1
  | .expire tile => some (disk.expire s tile).1
  | .get tile =>
    match disk.get s tile with
    | .ok (_, t) => some t
    | .error _ => some s
  | .release => if s.dataLocked then some { s with dataLocked := false } else none

end DiskStorage

/-! ## Paths tell metatiles -/

theorem metaHash_eq (x y : Int) (i : Nat) :
    metaHash x y i = x / 16 ^ i % 16 * 16 + y / 16 ^ i % 16 := by
  induction i generalizing x y with
  | zero => simp [metaHash]
  | succ i ih =>
    rw [metaHash, ih, Int.ediv_ediv_of_nonneg (by decide), Int.ediv_ediv_of_nonneg (by decide),
      ← pow_succ']

/-- The coordinates that the five rounds can tell. -/
structure HashRange (t : TileProtocol) : Prop where
  x : 0 ≤ t.x ∧ t.x < 2 ^ 20
  y : 0 ≤ t.y ∧ t.y < 2 ^ 20

theorem metaFloor_range {v : Int} (h : 0 ≤ v ∧ v < 2 ^ 20) :
    0 ≤ metaFloor v ∧ metaFloor v < 16 ^ 5 := by
  unfold metaFloor METATILE
  omega

/-- The hashes tell the column and the row. -/
theorem metaHash_inj {t u : TileProtocol} (ht : HashRange t) (hu : HashRange u)
    (hash : ∀ i < 5, metaHash (metaFloor t.x) (metaFloor t.y) i =
      metaHash (metaFloor u.x) (metaFloor u.y) i) :
    metaFloor t.x = metaFloor u.x ∧ metaFloor t.y = metaFloor u.y := by
  have hdigits : ∀ i < 5, metaFloor t.x / 16 ^ i % 16 = metaFloor u.x / 16 ^ i % 16 ∧
      metaFloor t.y / 16 ^ i % 16 = metaFloor u.y / 16 ^ i % 16 := by
    intro i hi
    have h := hash i hi
    rw [metaHash_eq, metaHash_eq] at h
    omega
  constructor
  · exact Digits.eq_of_digits (by decide) (metaFloor_range ht.x) (metaFloor_range hu.x)
      fun i hi => (hdigits i hi).1
  · exact Digits.eq_of_digits (by decide) (metaFloor_range ht.y) (metaFloor_range hu.y)
      fun i hi => (hdigits i hi).2

namespace DiskStorage

variable (disk : DiskStorage)

theorem toList_metatilePath (t : TileProtocol) :
    let hash (i : Nat) := (toString (metaHash (metaFloor t.x) (metaFloor t.y) i)).toList
    (disk.metatilePath t).toList =
      (((((((disk.dir.toList ++ '/' :: t.style.toList) ++ '/' :: (toString t.z).toList) ++
        '/' :: hash 4) ++ '/' :: hash 3) ++ '/' :: hash 2) ++ '/' :: hash 1) ++ '/' :: hash 0) ++
        '.' :: "meta".toList := by
  intro hash
  have hslash (parent name : String) : (parent ++ "/" ++ name).toList =
      parent.toList ++ '/' :: name.toList := by
    rw [String.toList_append, String.toList_append, List.append_assoc]
    rfl
  have hmeta (name : String) : (name ++ ".meta").toList = name.toList ++ '.' :: "meta".toList :=
    String.toList_append ..
  show (disk.dir ++ "/" ++ t.style ++ "/" ++ toString t.z ++ "/" ++ toString _ ++ "/" ++
    toString _ ++ "/" ++ toString _ ++ "/" ++ toString _ ++ "/" ++ toString _ ++ ".meta").toList = _
  rw [hmeta, hslash, hslash, hslash, hslash, hslash, hslash, hslash]

/-- **The paths differ.** A file belongs to one metatile. -/
theorem metatilePath_eq_iff {t u : TileProtocol} (ht : HashRange t) (hu : HashRange u) :
    disk.metatilePath t = disk.metatilePath u ↔ SameMetatile t u := by
  constructor
  · intro h
    have hslash (n : Int) : '/' ∉ (toString n).toList :=
      Digits.separator_not_mem_toString n (by decide) (by decide)
    have hdot : '.' ∉ "meta".toList := by decide
    have hlist := congrArg String.toList h
    rw [toList_metatilePath, toList_metatilePath] at hlist
    obtain ⟨hlist, _⟩ := Pieces.append_separator_inj hdot hdot hlist
    obtain ⟨hlist, h0⟩ := Pieces.append_separator_inj (hslash _) (hslash _) hlist
    obtain ⟨hlist, h1⟩ := Pieces.append_separator_inj (hslash _) (hslash _) hlist
    obtain ⟨hlist, h2⟩ := Pieces.append_separator_inj (hslash _) (hslash _) hlist
    obtain ⟨hlist, h3⟩ := Pieces.append_separator_inj (hslash _) (hslash _) hlist
    obtain ⟨hlist, h4⟩ := Pieces.append_separator_inj (hslash _) (hslash _) hlist
    obtain ⟨hlist, hz⟩ := Pieces.append_separator_inj (hslash _) (hslash _) hlist
    have hstyle := List.tail_eq_of_cons_eq (List.append_cancel_left hlist)
    obtain ⟨hx, hy⟩ := metaHash_inj ht hu fun i hi => by
      match i, hi with
      | 0, _ => exact Digits.toString_inj h0
      | 1, _ => exact Digits.toString_inj h1
      | 2, _ => exact Digits.toString_inj h2
      | 3, _ => exact Digits.toString_inj h3
      | 4, _ => exact Digits.toString_inj h4
    exact ⟨hx, hy, Digits.toString_inj hz, String.toList_injective hstyle⟩
  · intro same
    refine String.toList_injective ?_
    rw [toList_metatilePath, toList_metatilePath, same.x, same.y, same.z, same.style]

/-- The name that a file is written under at first is not the path of a metatile. -/
theorem metatilePath_ne_tmp (t : TileProtocol) (tmp : UniquePath) :
    disk.metatilePath t ≠ joinPath disk.dir tmp.name := by
  intro h
  have hchar : ∀ c, c ∉ "0123456789abcdef-".toList → c ∉ tmp.name.toList :=
    fun c hc hmem => hc (tmp.chars c hmem)
  have hslash : '/' ∉ tmp.name.toList := hchar '/' (by decide)
  have hdot : '.' ∉ tmp.name.toList := hchar '.' (by decide)
  obtain ⟨dir, hjoin, hdir⟩ : ∃ dir, (joinPath disk.dir tmp.name).toList = dir ++ tmp.name.toList ∧
      (dir = [] ∨ ∃ parent, dir = parent ++ ['/']) := by
    unfold joinPath
    split
    case isTrue hlast =>
      refine ⟨disk.dir.toList, String.toList_append .., ?_⟩
      obtain hnil | ⟨parent, c, hc⟩ := List.eq_nil_or_concat' disk.dir.toList
      · exact .inl hnil
      · rw [hc] at hlast
        rw [hc]
        exact .inr ⟨parent, by simpa using hlast⟩
    case isFalse => exact ⟨disk.dir.toList ++ ['/'], by simp, .inr ⟨_, rfl⟩⟩
  have hlist := congrArg String.toList h
  rw [toList_metatilePath, hjoin, List.append_assoc, List.cons_append] at hlist
  rcases hdir with rfl | ⟨parent, rfl⟩
  · rw [List.nil_append] at hlist
    rw [← hlist] at hslash
    exact hslash (List.mem_append_right _ List.mem_cons_self)
  · rw [List.append_assoc parent, List.singleton_append] at hlist
    have hno : '/' ∉ (toString (metaHash (metaFloor t.x) (metaFloor t.y) 0)).toList ++
        '.' :: "meta".toList := by
      rw [List.mem_append, not_or]
      exact ⟨Digits.separator_not_mem_toString _ (by decide) (by decide), by decide⟩
    obtain ⟨_, hname⟩ := Pieces.append_separator_inj hno hslash hlist
    rw [← hname] at hdot
    exact hdot (List.mem_append_right _ List.mem_cons_self)

end DiskStorage

/-! ## What is read -/

/-- A buffer whose tiles the file reader finds, whatever positions have one. -/
structure Storable (buf : Bytes) : Prop where
  distinct : (formatsOf buf).Nodup
  single : ∀ fmt ∈ formatsOf buf, fmt ∈ singleFormats
  count : ∀ h ∈ readHeaders buf fmtAll, h.count = 64#32
  inBounds : ∀ h ∈ readHeaders buf fmtAll, ∀ i, (h.index.get i).InBounds buf

theorem WellFormed.storable {z : Int} {buf : Bytes} (wf : WellFormed z buf) : Storable buf :=
  ⟨wf.distinct, wf.single, wf.count, wf.inBounds⟩

/-- The file reader and `metatile_reader` look for a header in the same way. -/
theorem searchHeader_eq_ok {fmt : ProtoFmt} {hs : List MetaLayout} {m : MetaLayout}
    (h : findHeader fmt hs = some m) : searchHeader fmt hs = .ok m := by
  induction hs with
  | nil => cases h
  | cons g rest ih =>
    have hmagic : g.magicOk = true ↔ ¬ g.magic ≠ META_MAGIC := by
      rw [MetaLayout.magicOk, decide_eq_true_eq, not_not]
    rw [findHeader] at h
    rw [searchHeader]
    by_cases hok : g.magicOk = true
    · rw [if_neg (hmagic.mp hok)]
      by_cases hfmt : g.fmt = fmt
      · rw [if_pos hfmt, if_pos hok] at h
        rw [if_pos hfmt, Option.some.inj h]
      · rw [if_neg hfmt, if_pos hok] at h
        rw [if_neg hfmt, ih h]
    · rw [if_neg hok, if_neg hok, ite_self] at h
      cases h

/-- There are few enough formats for all headers to be in the part of the file that is searched. -/
theorem Storable.headers_in_front {buf : Bytes} (storable : Storable buf) :
    readHeaders buf fmtAll <+: headerBlocks (buf.take 4096) := by
  have hprefix : readHeaders buf fmtAll <+: headerBlocks buf := List.takeWhile_prefix _
  have hfour : (readHeaders buf fmtAll).length ≤ 4 := by
    have hsub := (storable.distinct.subperm fun fmt => storable.single fmt).length_le
    rwa [formatsOf, List.length_map] at hsub
  refine List.prefix_of_prefix_length_le hprefix (headerBlocks_take buf 4096) ?_
  have hall := hprefix.length_le
  rw [length_headerBlocks, headerSize] at hall
  rw [length_headerBlocks, List.length_take, headerSize]
  omega

theorem Storable.searchHeader {buf : Bytes} (storable : Storable buf) {h : MetaLayout}
    (hmem : h ∈ readHeaders buf fmtAll) :
    searchHeader h.fmt (headerBlocks (buf.take 4096)) = .ok h := by
  obtain ⟨rest, hrest⟩ := storable.headers_in_front
  rw [← hrest]
  exact searchHeader_eq_ok
    (findHeader_of_mem (fun g hg => (mem_readHeaders hg).2) storable.distinct hmem)

/-- **What is read is what is stored**, as far as it is not cut off. -/
theorem readTile_of_storable {buf body : Bytes} (storable : Storable buf) {fmt : ProtoFmt} {i : Fin 64}
    (hbody : storedBody buf fmt i = some body) {sz : Nat} (hsize : body.length ≤ sz) :
    readTile buf i sz fmt = .ok body := by
  obtain ⟨h, hfind, rfl⟩ := Option.map_eq_some_iff.mp hbody
  have hmem : h ∈ readHeaders buf fmtAll := List.mem_of_find?_eq_some hfind
  have hfmt : h.fmt = fmt := by simpa using List.find?_some hfind
  have hbounds := storable.inBounds h hmem i
  rw [length_bytes hbounds] at hsize
  have hsearch := storable.searchHeader hmem
  rw [hfmt] at hsearch
  have hcount : ¬ h.count ≠ 64#32 := not_not.mpr (storable.count h hmem)
  have hoffset : ¬ (h.index.get i).offset.toInt < 0 := not_lt.mpr hbounds.1
  have htile : min ((h.index.get i).size.signExtend 64).toNat sz = (h.index.get i).size.toNat := by
    rw [(Entry.toNat_of_inBounds hbounds).2.1, min_eq_left hsize]
  rw [readTile, hsearch]
  simp only [if_neg hcount, if_neg hoffset, htile]
  rfl

/-- What goes wrong has a negative code. -/
theorem searchHeader_error {fmt : ProtoFmt} {hs : List MetaLayout} {code : Int}
    (h : searchHeader fmt hs = .error code) : code < 0 := by
  induction hs with
  | nil =>
    obtain rfl := Except.error.inj h
    decide
  | cons g rest ih =>
    rw [searchHeader] at h
    split at h
    · obtain rfl := Except.error.inj h
      decide
    · split at h
      · cases h
      · exact ih h

theorem readTile_error {bytes : Bytes} {i : Fin 64} {sz : Nat} {fmt : ProtoFmt} {code : Int}
    (h : readTile bytes i sz fmt = .error code) : code < 0 := by
  rw [readTile] at h
  cases hsearch : searchHeader fmt (headerBlocks (bytes.take 4096)) with
  | error c =>
    rw [hsearch] at h
    obtain rfl := Except.error.inj h
    exact searchHeader_error hsearch
  | ok m =>
    simp only [hsearch] at h
    split at h
    · obtain rfl := Except.error.inj h
      decide
    · split at h
      · obtain rfl := Except.error.inj h
        decide
      · cases h

/-- What a handle on a tile answers, by the file of its metatile. -/
def fileAnswer (t : TileProtocol) : Option DiskFile → TileHandle
  | none => nullHandle
  | some file =>
    match readTile file.bytes (tileIndex t.x t.y) dataCacheSize t.format with
    | .ok (b :: bs) =>
      { found := true
        lastModified := file.mtime
        expired := decide (file.mtime = 0)
        data := some (b :: bs) }
    | _ => nullHandle

theorem fileAnswer_of_storable {t : TileProtocol} {file : DiskFile} {body : Bytes}
    (storable : Storable file.bytes)
    (hbody : storedBody file.bytes t.format (tileIndex t.x t.y) = some body)
    (hsize : 0 < body.length ∧ body.length ≤ dataCacheSize) :
    fileAnswer t (some file) =
      { found := true
        lastModified := file.mtime
        expired := decide (file.mtime = 0)
        data := some body } := by
  rw [fileAnswer, readTile_of_storable storable hbody hsize.2]
  cases body with
  | nil => exact absurd hsize.1 (lt_irrefl 0)
  | cons b bs => rfl

namespace DiskStorage

variable (disk : DiskStorage)

theorem putMeta_eq (s : DiskState) (t : TileProtocol) (buf : Bytes) (tmp : UniquePath) (now : Int) :
    disk.putMeta s t buf tmp now =
      if tileIndex t.x t.y = 0 then
        ({ s with
          files := (s.files.write (joinPath disk.dir tmp.name) buf now).rename
            (joinPath disk.dir tmp.name) (disk.metatilePath t) }, true)
      else (s, false) := rfl

/-- To set the time of a file that is not there does nothing either. -/
theorem expire_files (s : DiskState) (t : TileProtocol) :
    (disk.expire s t).1.files = s.files.setTime (disk.metatilePath t) 0 := by
  rw [expire]
  split
  case isTrue => rfl
  case isFalse hmissing =>
    rw [Option.not_isSome_iff_eq_none] at hmissing
    rw [Files.setTime, hmissing, Option.map_none, ← hmissing, Function.update_eq_self]

/-- **Get**, when no handle is alive. A handle is alive afterwards if it is not a null handle, and the
files are as they were. -/
theorem get_spec {s : DiskState} (free : s.dataLocked = false) (t : TileProtocol) :
    ∃ h s', disk.get s t = .ok (h, s') ∧ s'.view h = fileAnswer t (s.files (disk.metatilePath t)) ∧
      s'.files = s.files ∧ s'.dataLocked = h.isSome := by
  have hunlocked : ¬ s.dataLocked = true := by simp [free]
  rw [get, if_neg hunlocked]
  cases hfile : s.files (disk.metatilePath t) with
  | none => exact ⟨none, s, rfl, rfl, rfl, free⟩
  | some file =>
    have hread : readFromMeta s.files disk.dir t.x t.y t.z t.style s.dataCache dataCacheSize t.format =
        match readTile file.bytes (tileIndex t.x t.y) dataCacheSize t.format with
        | .error code => (code, s.dataCache)
        | .ok got => (got.length, got ++ s.dataCache.drop got.length) := by
      rw [metatilePath] at hfile
      rw [readFromMeta]
      simp only [hfile]
      rfl
    dsimp only
    rw [hread, fileAnswer]
    cases hgot : readTile file.bytes (tileIndex t.x t.y) dataCacheSize t.format with
    | error code =>
      have hcode : ¬ 0 < code := not_lt.mpr (le_of_lt (readTile_error hgot))
      dsimp only
      rw [if_neg hcode]
      exact ⟨none, _, rfl, rfl, rfl, free⟩
    | ok got =>
      cases got with
      | nil => exact ⟨none, _, rfl, rfl, rfl, free⟩
      | cons b bs =>
        have hpos : (0 : Int) < ((b :: bs).length : Nat) := Int.natCast_pos.mpr (Nat.succ_pos _)
        dsimp only
        rw [if_pos hpos]
        refine ⟨some _, _, rfl, ?_, rfl, rfl⟩
        rw [DiskState.view, Int.toNat_natCast, List.take_left]

end DiskStorage

end RenderMq
