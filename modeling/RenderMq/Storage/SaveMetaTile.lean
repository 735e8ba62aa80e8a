import RenderMq.Storage.TwoReaders

/-!
# Saving a metatile

`metaTile` holds the tiles of a metatile of one format and writes them to a file. The header is
written first, as it is after `memset`: without a format, and with an index of zeros. The offsets of
the tiles are worked out afterwards, into a table of their own (`offsets`), which is written behind the
header and which nobody reads.

So `read_from_meta` finds a header whose tiles are all empty, and answers 0 (`readFromMeta_save`): no tile
that was saved is ever read back.
-/

namespace RenderMq

/-- `metaTile`. -/
structure MetaTile where
  x : Int
  y : Int
  z : Int
  style : String
  tile : Fin 8 → Fin 8 → Bytes := fun _ _ => []

namespace MetaTile

variable (m : MetaTile)

/-- `set`. -/
def set (x y : Fin 8) (data : Bytes) : MetaTile :=
  { m with tile := Function.update m.tile x (Function.update (m.tile x) y data) }

/-- `get`. -/
def get (x y : Fin 8) : Bytes := m.tile x y

/-! ## The file -/

/-- The columns and rows up to the limit of the zoom level, column by column. -/
def places : List (Fin 8 × Fin 8) :=
  let inside (v : Fin 8) : Bool := decide (((v : Nat) : Int) < getMetaDimensions m.z)
  ((List.finRange 8).filter inside).flatMap fun ox =>
    ((List.finRange 8).filter inside).map fun oy => (ox, oy)

/-- The header, as it is written. -/
def header : MetaLayout where
  magic := META_MAGIC
  count := 64#32
  x := .ofInt 32 m.x
  y := .ofInt 32 m.y
  z := .ofInt 32 m.z
  fmt := 0#32
  index := Vector.replicate 64 ⟨0#32, 0#32⟩

/-- One turn of the loop that generates the offset table. -/
def addOffset (table : Vector Entry 64 × BitVec 64) (place : Fin 8 × Fin 8) :
    Vector Entry 64 × BitVec 64 :=
  let mt := tileIndex (m.x + (place.1 : Nat)) (m.y + (place.2 : Nat))
  let size : BitVec 32 := .ofNat 32 (m.get place.1 place.2).length
  (table.1.set mt ⟨table.2.setWidth 32, size⟩, table.2 + size.signExtend 64)

/-- `offsets`. -/
def offsets : Vector Entry 64 :=
  (m.places.foldl m.addOffset (Vector.replicate 64 ⟨0#32, 0#32⟩, .ofNat 64 headerSize)).1

/-- The bytes of the file: the header, the offset table, and the tiles. -/
def fileBytes : Bytes :=
  m.header.encode ++ (Words.encodeAll (m.offsets.toList.flatMap fun e => [e.offset, e.size]) ++
    m.places.flatMap fun place => m.get place.1 place.2)

/-- `save`, by a thread of a host. -/
def save (files : Files) (tileDir hostname thread : String) (now : Int) : Files :=
  let path := (xyzToMeta tileDir m.x m.y m.z m.style).1
  let tmp := path ++ "." ++ hostname ++ "." ++ thread
  (files.write tmp m.fileBytes now).rename tmp path

/-- A tile is read back: its column and row give the bytes that were set for it, in the format that the
header of the file has. -/
def ReadsBack (files : Files) (tileDir : String) (ox oy : Fin 8) (buf : Bytes) (sz : Nat) : Prop :=
  readFromMeta files tileDir (m.x + (ox : Nat)) (m.y + (oy : Nat)) m.z m.style buf sz
      (MetaLayout.readAt m.fileBytes 0).fmt =
    (((m.get ox oy).length : Int), m.get ox oy ++ buf.drop (m.get ox oy).length)

/-! ## Reading the file -/

theorem get_set_self (x y : Fin 8) (data : Bytes) : (m.set x y data).get x y = data := by
  show Function.update m.tile x (Function.update (m.tile x) y data) x y = data
  rw [Function.update_self, Function.update_self]

/-- The file that is written beside has another name. -/
theorem tmp_ne (path hostname thread : String) :
    path ≠ path ++ "." ++ hostname ++ "." ++ thread := by
  intro h
  have hlist := congrArg (fun s => s.toList.length) h
  simp only [String.toList_append, List.length_append] at hlist
  have hdot : ".".toList.length = 1 := rfl
  omega

/-- The file is there. -/
theorem save_apply (files : Files) (tileDir hostname thread : String) (now : Int) :
    m.save files tileDir hostname thread now (xyzToMeta tileDir m.x m.y m.z m.style).1 =
      some ⟨m.fileBytes, now⟩ := by
  rw [save, Files.rename_write _ _ _ (tmp_ne _ hostname thread), if_pos rfl]

/-- The header in the file is the one that was written. -/
theorem readAt_fileBytes : MetaLayout.readAt m.fileBytes 0 = m.header :=
  MetaLayout.readAt_encode m.header _

variable {m}

/-- The tiles of a metatile are in its file. -/
theorem path_eq (aligned : METATILE ∣ m.x ∧ METATILE ∣ m.y) (tileDir : String) (ox oy : Fin 8) :
    (xyzToMeta tileDir (m.x + (ox : Nat)) (m.y + (oy : Nat)) m.z m.style).1 =
      (xyzToMeta tileDir m.x m.y m.z m.style).1 := by
  have hfloor : ∀ (v : Int) (o : Fin 8), METATILE ∣ v → metaFloor (v + (o : Nat)) = metaFloor v := by
    intro v o hv
    have ho := o.isLt
    unfold metaFloor METATILE at *
    omega
  unfold xyzToMeta
  rw [hfloor m.x ox aligned.1, hfloor m.y oy aligned.2]

/-- **What is read of a saved file** is nothing, for any of its tiles. -/
theorem readFromMeta_save (aligned : METATILE ∣ m.x ∧ METATILE ∣ m.y) (files : Files)
    (tileDir hostname thread : String) (now : Int) (ox oy : Fin 8) (buf : Bytes) (sz : Nat) :
    readFromMeta (m.save files tileDir hostname thread now) tileDir (m.x + (ox : Nat))
      (m.y + (oy : Nat)) m.z m.style buf sz (MetaLayout.readAt m.fileBytes 0).fmt = (0, buf) := by
  have hfile : m.save files tileDir hostname thread now
      (xyzToMeta tileDir (m.x + (ox : Nat)) (m.y + (oy : Nat)) m.z m.style).1 =
        some ⟨m.fileBytes, now⟩ := by
    rw [path_eq aligned, save_apply]
  have hfront : ∃ rest, m.fileBytes.take 4096 = m.header.encode ++ rest := by
    rw [fileBytes, List.take_append, MetaLayout.length_encode,
      List.take_of_length_le (by rw [MetaLayout.length_encode]; decide)]
    exact ⟨_, rfl⟩
  obtain ⟨rest, hrest⟩ := hfront
  have hsearch : searchHeader (MetaLayout.readAt m.fileBytes 0).fmt
      (headerBlocks (m.fileBytes.take 4096)) = .ok m.header := by
    rw [readAt_fileBytes, hrest, headerBlocks_encode, searchHeader_ok_iff]
    exact ⟨[], _, rfl, fun g hg => absurd hg List.not_mem_nil, rfl, rfl⟩
  have hempty : ∀ i : Fin 64, m.header.index.get i = ⟨0#32, 0#32⟩ := by
    intro i
    exact Vector.getElem_replicate i.isLt
  have hcount : m.header.count = 64#32 := rfl
  have hoffset : (0 : Int) ≤ (Entry.mk 0#32 0#32).offset.toInt := le_refl 0
  have hsize : ((Entry.mk 0#32 0#32).size.signExtend 64).toNat = 0 := rfl
  rw [readFromMeta_found hfile hsearch, hempty, readEntry_eq hcount hoffset, hsize, Nat.zero_min,
    List.take_zero]
  rfl

/-- **No tile is read back**, whatever the metatile, and however large the buffer.

The metatile is aligned and has the tile, so that there would be something to read. The host's name, the
thread and the time, of which the temporary name is made, are any, and so are the files before. Writing
and renaming are taken to go well.. -/
theorem save_never_readsBack (aligned : METATILE ∣ m.x ∧ METATILE ∣ m.y) (files : Files)
    (tileDir hostname thread : String) (now : Int) {ox oy : Fin 8} (nonempty : m.get ox oy ≠ [])
    (buf : Bytes) (sz : Nat) :
    ¬ m.ReadsBack (m.save files tileDir hostname thread now) tileDir ox oy buf sz := by
  intro hread
  rw [ReadsBack, readFromMeta_save aligned] at hread
  have hlength : (0 : Int) = ((m.get ox oy).length : Nat) := congrArg Prod.fst hread
  exact nonempty (List.length_eq_zero_iff.mp (Int.natCast_eq_zero.mp hlength.symm))

/-- One tile at zoom 0. -/
def oneTileSaved : MetaTile := MetaTile.set { x := 0, y := 0, z := 0, style := "map" } 0 0 [1, 2, 3]

theorem oneTileSaved_never_readsBack :
    ¬ oneTileSaved.ReadsBack (oneTileSaved.save (fun _ => none) "tiles" "host" "1" 0) "tiles" 0 0 []
      3 := by
  refine save_never_readsBack ⟨Int.dvd_zero _, Int.dvd_zero _⟩ (fun _ => none) "tiles" "host" "1" 0
    ?_ [] 3
  have hget : oneTileSaved.get 0 0 = [1, 2, 3] := get_set_self ..
  rw [hget]
  exact List.cons_ne_nil _ _

/-- Its three bytes are not read back into a buffer of three bytes. -/
theorem save_loses_tile :
    ¬ ∀ (m : MetaTile), METATILE ∣ m.x ∧ METATILE ∣ m.y → 0 ≤ m.z ∧ m.z ≤ 30 →
      (∀ place ∈ m.places, m.get place.1 place.2 ≠ []) →
      ∀ (files : Files) (tileDir hostname thread : String) (now : Int), ∀ place ∈ m.places,
        ∀ (buf : Bytes) (sz : Nat), (m.get place.1 place.2).length ≤ sz →
          m.ReadsBack (m.save files tileDir hostname thread now) tileDir place.1 place.2 buf sz := by
  intro hall
  have hplaces : oneTileSaved.places = [(0, 0)] := by decide
  have hget : oneTileSaved.get 0 0 = [1, 2, 3] := get_set_self ..
  have hread := hall oneTileSaved ⟨Int.dvd_zero _, Int.dvd_zero _⟩ ⟨le_refl 0, by decide⟩
    (by rw [hplaces]; simp [hget]) (fun _ => none) "tiles" "host" "1" 0 (0, 0) (by rw [hplaces]; simp)
    [] 3 (by rw [hget]; decide)
  rw [ReadsBack, readFromMeta_save ⟨Int.dvd_zero _, Int.dvd_zero _⟩, hget] at hread
  cases hread

end MetaTile

end RenderMq
