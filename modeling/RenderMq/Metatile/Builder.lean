import RenderMq.Metatile.WellFormed
import Mathlib.Data.List.FinRange
import Mathlib.Data.List.Nodup

/-!
# The metatile builder of the workers

`metatile.py` writes metatiles in Python, for `metatile_reader` to read in C++. `make_meta` goes over
the formats twice: the first time it writes the headers, and counts where the tiles will go; the
second time it writes the tiles. The tiles of a format are in a dictionary, by row and column.

`makeMeta_eq` is what is written, in terms of the layout in memory that the reader has
(`headersFrom`, `Part.header`). With it `make_meta_read_back` is about the reader alone.

A dictionary is a function to `Option`, and a missing key is `none`, as are all exceptions: of a
format without a number, and of a number that `struct.pack` has no room for. An entry is set to `None`
once `write_contents` has written it, and can not be written again: that is a missing key as well, and
a format that is listed twice an exception (`nodup_of_makeMeta`). The dictionaries of different formats,
and the metadata, are different objects.
-/

namespace RenderMq

open Words

/-! ## The builder -/

/-- `FORMAT_LOOKUP`. -/
def formatLookup (format : String) : Option ProtoFmt :=
  if format = "png256" then some fmtPNG
  else if format = "png" then some fmtPNG
  else if format = "jpeg" then some fmtJPEG
  else if format = "gif" then some fmtGIF
  else if format = "json" then some fmtJSON
  else none

/-- The tiles of a format, by row and column. -/
abbrev Contents := Nat × Nat → Option Bytes

/-- Where the tile of an index position starts, and how long it is. -/
abbrev OffsetTable := Nat → Option (Nat × Nat)

/-- `struct.pack` of an `i`. -/
def pack (v : Int) : Option (BitVec 32) :=
  if -2 ^ 31 ≤ v ∧ v < 2 ^ 31 then some (.ofInt 32 v) else none

/-- The rows and columns, row by row. -/
def cells (size : Nat) : List (Nat × Nat) :=
  (List.range size).flatMap fun y => (List.range size).map fun x => (y, x)

/-- `metatile_builder`. -/
structure MetatileBuilder where
  metaTile : Bytes := []
  tile : TileProtocol
  size : Nat
  offset : Nat := 0

namespace MetatileBuilder

/-- One tile of `write_offsets`. -/
def place (tile : TileProtocol) (contents : Contents) (s : OffsetTable × Nat) (cell : Nat × Nat) :
    Option (OffsetTable × Nat) := do
  let body ← contents cell
  let mt := xyzToMetaOffset (tile.x + (cell.2 : Nat)) (tile.y + (cell.1 : Nat))
  some (Function.update s.1 mt (some (s.2, body.length)), s.2 + body.length)

/-- One line of the offset and size table. -/
def packEntry : Option (Nat × Nat) → Option (List (BitVec 32))
  | some (offset, size) => do
    let offset ← pack offset
    let size ← pack size
    some [offset, size]
  | none => some [0#32, 0#32]

/-- `write_offsets`. -/
def writeOffsets (b : MetatileBuilder) (contents : Contents) : Option MetatileBuilder := do
  let s ← (cells b.size).foldlM (place b.tile contents) (fun _ => none, b.offset)
  let table ← (List.range 64).flatMapM fun mt => packEntry (s.1 mt)
  some { b with metaTile := b.metaTile ++ encodeAll table, offset := s.2 }

/-- `write_contents`, and what is left of the dictionary. -/
def writeContents (b : MetatileBuilder) (contents : Contents) :
    Option (MetatileBuilder × Contents) := do
  let bodies ← (cells b.size).mapM contents
  some ({ b with metaTile := b.metaTile ++ bodies.flatten },
    fun cell => if cell ∈ cells b.size then none else contents cell)

/-- `write_contents` for a format. -/
def writeFormat (s : MetatileBuilder × (String → Contents)) (f : String) :
    Option (MetatileBuilder × (String → Contents)) := do
  let (b, contents) ← s.1.writeContents (s.2 f)
  some (b, Function.update s.2 f contents)

/-- `write_header`. -/
def writeHeader (b : MetatileBuilder) (format : String) : Option MetatileBuilder := do
  let formatAsInt ← formatLookup format
  let x ← pack b.tile.x
  let y ← pack b.tile.y
  let z ← pack b.tile.z
  some { b with metaTile := b.metaTile ++ encodeAll [META_MAGIC, 64#32, x, y, z, formatAsInt] }

/-- `offset_header`. -/
def offsetHeader (b : MetatileBuilder) : MetatileBuilder :=
  { b with offset := b.offset + (4 + 5 * 4) + (2 * 4) * 64 }

end MetatileBuilder

open MetatileBuilder

/-- `make_meta`. -/
def makeMeta (job : TileProtocol) (tiles : String → Contents) (metaData : Option Contents)
    (formats : List String) (size : Nat) : Option Bytes := do
  let builder : MetatileBuilder := { tile := job, size := size }
  let builder := formats.foldl (fun b _ => b.offsetHeader) builder
  let builder := if metaData.isSome then builder.offsetHeader else builder
  let builder ← formats.foldlM (fun b f => do (← b.writeHeader f).writeOffsets (tiles f)) builder
  let builder ← match metaData with
    | some contents => do (← builder.writeHeader "json").writeOffsets contents
    | none => some builder
  let (builder, _) ← formats.foldlM writeFormat (builder, tiles)
  let builder ← match metaData with
    | some contents => (builder.writeContents contents).map Prod.fst
    | none => some builder
  some builder.metaTile

/-! ## The parts of a metatile -/

/-- A format and its tiles. -/
structure Part where
  fmt : ProtoFmt
  body : Nat × Nat → Bytes

/-- The tiles of a part in a row. -/
def Part.data (size : Nat) (p : Part) : Bytes := ((cells size).map p.body).flatten

/-- How many bytes come before a tile. -/
def startIn (body : Nat × Nat → Bytes) (cell : Nat × Nat) : List (Nat × Nat) → Nat
  | [] => 0
  | c :: cs => if c = cell then 0 else (body c).length + startIn body cell cs

/-- The entry of a part for an index position. -/
def Part.entry (size offset : Nat) (p : Part) (i : Nat) : Option (Nat × Nat) :=
  if i / 8 < size ∧ i % 8 < size then
    some (offset + startIn p.body (i / 8, i % 8) (cells size), (p.body (i / 8, i % 8)).length)
  else none

/-- An entry in memory; zero where there is none. -/
def entryOf : Option (Nat × Nat) → Entry
  | some (offset, size) => ⟨.ofNat 32 offset, .ofNat 32 size⟩
  | none => ⟨0#32, 0#32⟩

/-- The header of a part whose tiles start at an offset. -/
def Part.header (job : TileProtocol) (size offset : Nat) (p : Part) : MetaLayout where
  magic := META_MAGIC
  count := 64#32
  x := .ofInt 32 job.x
  y := .ofInt 32 job.y
  z := .ofInt 32 job.z
  fmt := p.fmt
  index := Vector.ofFn fun i => entryOf (p.entry size offset i)

/-- The headers of parts whose tiles follow each other. -/
def headersFrom (job : TileProtocol) (size : Nat) : Nat → List Part → List MetaLayout
  | _, [] => []
  | offset, p :: parts =>
    p.header job size offset :: headersFrom job size (offset + (p.data size).length) parts

/-! ## What is written -/

theorem mem_cells {size : Nat} {cell : Nat × Nat} :
    cell ∈ cells size ↔ cell.1 < size ∧ cell.2 < size := by
  obtain ⟨y, x⟩ := cell
  simp [cells]

theorem nodup_cells (size : Nat) : (cells size).Nodup :=
  List.nodup_range.product List.nodup_range

theorem pack_natCast {n : Nat} (h : n < 2 ^ 31) : pack n = some (.ofNat 32 n) := by
  rw [pack, if_pos (by omega), BitVec.ofInt_natCast]

/-- The tiles in a row, taken apart at one of them. -/
theorem startIn_split {body : Nat × Nat → Bytes} {cell : Nat × Nat} {cs : List (Nat × Nat)}
    (hmem : cell ∈ cs) :
    ∃ before after, (cs.map body).flatten = before ++ (body cell ++ after) ∧
      before.length = startIn body cell cs := by
  induction cs with
  | nil => cases hmem
  | cons c cs ih =>
    rw [List.map_cons, List.flatten_cons, startIn]
    by_cases hc : c = cell
    · exact ⟨[], (cs.map body).flatten, by rw [hc, List.nil_append], by rw [if_pos hc]; rfl⟩
    · obtain ⟨before, after, hsplit, hlength⟩ :=
        ih ((List.mem_cons.mp hmem).resolve_left fun h => hc h.symm)
      refine ⟨body c ++ before, after, by rw [hsplit, List.append_assoc], ?_⟩
      rw [if_neg hc, List.length_append, hlength]

/-- A job whose tile is the first of its metatile, with coordinates that are `int`s. -/
structure Aligned (job : TileProtocol) : Prop where
  x : METATILE ∣ job.x
  y : METATILE ∣ job.y
  ints : ∀ v ∈ [job.x, job.y, job.z], -2 ^ 31 ≤ v ∧ v < 2 ^ 31

theorem Aligned.offset {job : TileProtocol} (aligned : Aligned job) {cell : Nat × Nat}
    (hcell : cell.1 < 8 ∧ cell.2 < 8) :
    xyzToMetaOffset (job.x + (cell.2 : Nat)) (job.y + (cell.1 : Nat)) = cell.1 * 8 + cell.2 := by
  have hx := aligned.x
  have hy := aligned.y
  unfold xyzToMetaOffset METATILE at *
  omega

/-- `write_offsets` places each tile after the one before. -/
theorem foldlM_place {job : TileProtocol} (aligned : Aligned job) {contents : Contents}
    {body : Nat × Nat → Bytes} {cs : List (Nat × Nat)} (inside : ∀ c ∈ cs, c.1 < 8 ∧ c.2 < 8)
    (distinct : cs.Nodup) (hbody : ∀ c ∈ cs, contents c = some (body c)) (table : OffsetTable)
    (offset : Nat) :
    ∃ table', cs.foldlM (place job contents) (table, offset) =
        some (table', offset + ((cs.map body).flatten).length) ∧
      ∀ i, table' i = if (i / 8, i % 8) ∈ cs then
        some (offset + startIn body (i / 8, i % 8) cs, (body (i / 8, i % 8)).length)
      else table i := by
  induction cs generalizing table offset with
  | nil => exact ⟨table, rfl, fun i => rfl⟩
  | cons c cs ih =>
    obtain ⟨hnew, hrest⟩ := List.nodup_cons.mp distinct
    obtain ⟨hinside, hinsideRest⟩ := List.forall_mem_cons.mp inside
    obtain ⟨hc, hbodyRest⟩ := List.forall_mem_cons.mp hbody
    obtain ⟨table', hfold, htable⟩ := ih hinsideRest hrest hbodyRest
      (Function.update table (c.1 * 8 + c.2) (some (offset, (body c).length)))
      (offset + (body c).length)
    refine ⟨table', ?_, fun i => ?_⟩
    · rw [List.foldlM_cons, place, hc, aligned.offset hinside, List.map_cons, List.flatten_cons,
        List.length_append, ← Nat.add_assoc]
      exact hfold
    · rw [htable, startIn]
      by_cases hi : (i / 8, i % 8) = c
      · have hpos : i = c.1 * 8 + c.2 := by
          rw [← hi]
          omega
        rw [hi, if_neg hnew, if_pos List.mem_cons_self, if_pos rfl, hpos, Function.update_self]
        rfl
      · have hpos : i ≠ c.1 * 8 + c.2 := fun h => hi (by rw [h]; ext <;> dsimp only <;> omega)
        have hne : c ≠ (i / 8, i % 8) := fun h => hi h.symm
        simp only [List.mem_cons, hi, false_or, if_neg hne, Function.update_of_ne hpos,
          Nat.add_assoc]

/-! ## The parts that are written -/

/-- A format by its name, and its tiles. -/
abbrev Named := String × Contents

/-- The part that is written for a format. -/
def partOf (n : Named) : Part where
  fmt := (formatLookup n.1).getD fmtNone
  body cell := (n.2 cell).getD []

/-- The format has a number, and all its tiles are there. -/
structure Complete (size : Nat) (n : Named) : Prop where
  known : (formatLookup n.1).isSome
  tiles : ∀ y x, y < size → x < size → (n.2 (y, x)).isSome

theorem Complete.fmt {size : Nat} {n : Named} (h : Complete size n) :
    formatLookup n.1 = some (partOf n).fmt := by
  obtain ⟨fmt, hfmt⟩ := Option.isSome_iff_exists.mp h.known
  rw [partOf, hfmt, Option.getD_some]

theorem Complete.body {size : Nat} {n : Named} (h : Complete size n) {cell : Nat × Nat}
    (hcell : cell ∈ cells size) : n.2 cell = some ((partOf n).body cell) := by
  obtain ⟨hy, hx⟩ := mem_cells.mp hcell
  obtain ⟨body, hbody⟩ := Option.isSome_iff_exists.mp (h.tiles cell.1 cell.2 hy hx)
  rw [partOf]
  dsimp only
  rw [hbody, Option.getD_some]

/-- What is done for a format before any tiles are written. -/
def writePart (b : MetatileBuilder) (n : Named) : Option MetatileBuilder := do
  (← b.writeHeader n.1).writeOffsets n.2

theorem size_writePart {b b' : MetatileBuilder} {n : Named} (h : writePart b n = some b') :
    b'.size = b.size := by
  obtain ⟨m, hheader, hoffsets⟩ := Option.bind_eq_some_iff.mp h
  obtain ⟨_, _, hoffsets⟩ := Option.bind_eq_some_iff.mp hoffsets
  obtain ⟨_, _, hoffsets⟩ := Option.bind_eq_some_iff.mp hoffsets
  obtain ⟨_, _, hheader⟩ := Option.bind_eq_some_iff.mp hheader
  obtain ⟨_, _, hheader⟩ := Option.bind_eq_some_iff.mp hheader
  obtain ⟨_, _, hheader⟩ := Option.bind_eq_some_iff.mp hheader
  obtain ⟨_, _, hheader⟩ := Option.bind_eq_some_iff.mp hheader
  rw [← Option.some.inj hoffsets, ← Option.some.inj hheader]

theorem flatten_bodies {size : Nat} {n : Named} (h : Complete size n) :
    (cells size).mapM n.2 = some ((cells size).map (partOf n).body) :=
  Pieces.mapM_eq_pure fun _ hcell => h.body hcell

/-- A part's entry fits an `int` when the part does. -/
theorem packEntry_entry {size offset : Nat} {p : Part}
    (fits : offset + (p.data size).length < 2 ^ 31) (i : Nat) :
    packEntry (p.entry size offset i) =
      some [(entryOf (p.entry size offset i)).offset, (entryOf (p.entry size offset i)).size] := by
  unfold Part.entry
  split
  · next hi =>
    have hcell : (i / 8, i % 8) ∈ cells size := mem_cells.mpr hi
    obtain ⟨before, after, hsplit, hlength⟩ := startIn_split hcell
    have hbound : startIn p.body (i / 8, i % 8) (cells size) +
        (p.body (i / 8, i % 8)).length ≤ (p.data size).length := by
      rw [Part.data, hsplit, List.length_append, List.length_append, hlength]
      omega
    simp only [packEntry, pack_natCast (show offset + startIn p.body (i / 8, i % 8) (cells size) <
      2 ^ 31 by omega), pack_natCast (show (p.body (i / 8, i % 8)).length < 2 ^ 31 by omega)]
    rfl
  · rfl

theorem encode_header (job : TileProtocol) (size offset : Nat) (p : Part) :
    (p.header job size offset).encode =
      encodeAll [META_MAGIC, 64#32, .ofInt 32 job.x, .ofInt 32 job.y, .ofInt 32 job.z, p.fmt] ++
        encodeAll ((List.range 64).flatMap fun i =>
          [(entryOf (p.entry size offset i)).offset, (entryOf (p.entry size offset i)).size]) := by
  have hindex : (p.header job size offset).index.toList =
      (List.range 64).map fun i => entryOf (p.entry size offset i) := by
    rw [Part.header, Vector.toList_ofFn, List.ofFn_eq_map, ← List.map_coe_finRange_eq_range,
      List.map_map]
    rfl
  rw [MetaLayout.encode, MetaLayout.words, hindex, List.flatMap_map, encodeAll, List.flatMap_append]
  rfl

/-- **One part.** Its header is written, and its tiles are counted. -/
theorem writePart_eq {b : MetatileBuilder} (aligned : Aligned b.tile) (hsize : b.size ≤ 8)
    {n : Named} (complete : Complete b.size n)
    (fits : b.offset + ((partOf n).data b.size).length < 2 ^ 31) :
    writePart b n = some { b with
      metaTile := b.metaTile ++ ((partOf n).header b.tile b.size b.offset).encode
      offset := b.offset + ((partOf n).data b.size).length } := by
  have hints : ∀ v ∈ [b.tile.x, b.tile.y, b.tile.z], pack v = some (.ofInt 32 v) :=
    fun v hv => if_pos (aligned.ints v hv)
  have hheader : b.writeHeader n.1 = some { b with
      metaTile := b.metaTile ++ encodeAll [META_MAGIC, 64#32, .ofInt 32 b.tile.x,
        .ofInt 32 b.tile.y, .ofInt 32 b.tile.z, (partOf n).fmt] } := by
    simp only [writeHeader, complete.fmt, hints b.tile.x (by simp), hints b.tile.y (by simp),
      hints b.tile.z (by simp), Option.bind_eq_bind, Option.bind_some]
  obtain ⟨table, hfold, htable⟩ := foldlM_place aligned
    (fun c hc => ⟨(mem_cells.mp hc).1.trans_le hsize, (mem_cells.mp hc).2.trans_le hsize⟩)
    (nodup_cells b.size) (fun c hc => complete.body hc) (fun _ => none) b.offset
  have hentry : ∀ i, table i = (partOf n).entry b.size b.offset i := by
    intro i
    rw [htable, Part.entry]
    simp only [mem_cells]
  have hwords : (List.range 64).flatMapM (fun mt => packEntry (table mt)) =
      some ((List.range 64).flatMap fun i => [(entryOf ((partOf n).entry b.size b.offset i)).offset,
        (entryOf ((partOf n).entry b.size b.offset i)).size]) := by
    refine Pieces.flatMapM_eq_some_iff.mpr ⟨fun i _ => ?_, List.flatMap_congr fun i _ => ?_⟩
    · rw [hentry, packEntry_entry fits, Option.isSome_some]
    · rw [hentry, packEntry_entry fits, Option.getD_some]
  rw [writePart, hheader]
  simp only [Option.bind_eq_bind, Option.bind_some, writeOffsets, hfold, hwords, encode_header,
    List.append_assoc]
  rfl

/-- How many bytes the tiles of some parts are. -/
def dataLength (size : Nat) (parts : List Part) : Nat :=
  (parts.map fun p => (p.data size).length).sum

theorem foldlM_writePart {job : TileProtocol} (aligned : Aligned job) {size : Nat} (hsize : size ≤ 8)
    {named : List Named} (complete : ∀ n ∈ named, Complete size n) (metaTile : Bytes) (offset : Nat)
    (fits : offset + dataLength size (named.map partOf) < 2 ^ 31) :
    named.foldlM writePart
        (⟨metaTile, job, size, offset⟩ : MetatileBuilder) =
      some ⟨metaTile ++ (headersFrom job size offset (named.map partOf)).flatMap MetaLayout.encode,
        job, size, offset + dataLength size (named.map partOf)⟩ := by
  induction named generalizing metaTile offset with
  | nil => simp [headersFrom, dataLength]
  | cons n named ih =>
    obtain ⟨hn, hrest⟩ := List.forall_mem_cons.mp complete
    have hlength : dataLength size ((n :: named).map partOf) =
        ((partOf n).data size).length + dataLength size (named.map partOf) := by
      simp [dataLength]
    rw [hlength] at fits ⊢
    have hfits : offset + ((partOf n).data size).length < 2 ^ 31 := by omega
    have hwrite := writePart_eq (b := ⟨metaTile, job, size, offset⟩) aligned hsize hn hfits
    dsimp only at hwrite
    rw [List.foldlM_cons, hwrite, Option.bind_eq_bind, Option.bind_some, ih hrest _ _ (by omega)]
    simp [headersFrom, List.append_assoc, Nat.add_assoc]

/-- The tiles of a part are written. -/
def writeTiles (b : MetatileBuilder) (n : Named) : Option MetatileBuilder :=
  (b.writeContents n.2).map Prod.fst

theorem foldlM_writeTiles {job : TileProtocol} {size : Nat} {named : List Named}
    (complete : ∀ n ∈ named, Complete size n) (metaTile : Bytes) (offset : Nat) :
    named.foldlM writeTiles (⟨metaTile, job, size, offset⟩ : MetatileBuilder) =
      some ⟨metaTile ++ (named.map partOf).flatMap (Part.data size), job, size, offset⟩ := by
  induction named generalizing metaTile with
  | nil => simp
  | cons n named ih =>
    obtain ⟨hn, hrest⟩ := List.forall_mem_cons.mp complete
    have hwrite : writeTiles ⟨metaTile, job, size, offset⟩ n =
        some ⟨metaTile ++ (partOf n).data size, job, size, offset⟩ := by
      simp only [writeTiles, writeContents, flatten_bodies hn, Option.bind_eq_bind, Option.bind_some,
        Option.map_some, Part.data]
    rw [List.foldlM_cons, hwrite, Option.bind_eq_bind, Option.bind_some, ih hrest]
    simp

/-- The formats with their tiles, and the metadata as one more. -/
def namedOf (tiles : String → Contents) (metaData : Option Contents) (formats : List String) :
    List Named :=
  formats.map (fun f => (f, tiles f)) ++ metaData.toList.map fun contents => ("json", contents)

/-- Formats whose numbers differ are different formats. -/
theorem nodup_of_namedOf {tiles : String → Contents} {metaData : Option Contents}
    {formats : List String}
    (distinct : ((namedOf tiles metaData formats).map fun n => formatLookup n.1).Nodup) :
    formats.Nodup := by
  rw [namedOf, List.map_append, List.map_map] at distinct
  exact List.Nodup.of_map _ distinct.of_append_left

theorem foldl_offsetHeader (b : MetatileBuilder) (formats : List String) :
    formats.foldl (fun b _ => b.offsetHeader) b =
      { b with offset := b.offset + formats.length * headerSize } := by
  induction formats generalizing b with
  | nil => simp
  | cons f formats ih =>
    rw [List.foldl_cons, ih]
    simp only [offsetHeader, headerSize, List.length_cons, MetatileBuilder.mk.injEq, true_and]
    omega

/-- Formats that differ have their tiles written one after the other, whatever else the dictionaries of
the others are. -/
theorem foldlM_writeFormat {formats : List String} (distinct : formats.Nodup)
    {tiles left : String → Contents} (same : ∀ f ∈ formats, left f = tiles f) (b : MetatileBuilder) :
    (formats.foldlM writeFormat (b, left)).map Prod.fst =
      formats.foldlM (fun b f => writeTiles b (f, tiles f)) b := by
  induction formats generalizing b left with
  | nil => rfl
  | cons f formats ih =>
    obtain ⟨hnew, hrest⟩ := List.nodup_cons.mp distinct
    obtain ⟨hf, hsame⟩ := List.forall_mem_cons.mp same
    rw [List.foldlM_cons, List.foldlM_cons, writeFormat, writeTiles]
    dsimp only
    rw [hf]
    cases b.writeContents (tiles f) with
    | none => rfl
    | some written =>
      refine ih hrest (fun g hg => ?_) written.1
      rw [Function.update_of_ne (ne_of_mem_of_not_mem hg hnew)]
      exact hsame g hg

/-- What has been written is gone. -/
theorem writeContents_spec {b b' : MetatileBuilder} {contents left : Contents}
    (h : b.writeContents contents = some (b', left)) :
    b'.size = b.size ∧ ∀ cell ∈ cells b.size, (contents cell).isSome ∧ left cell = none := by
  obtain ⟨bodies, hbodies, h⟩ := Option.bind_eq_some_iff.mp h
  obtain ⟨rfl, rfl⟩ := Prod.mk.inj (Option.some.inj h)
  exact ⟨rfl, fun cell hcell => ⟨Pieces.isSome_of_mapM hbodies cell hcell, if_pos hcell⟩⟩

/-- The formats whose tiles are written differ, and had theirs before. -/
theorem nodup_of_foldlM_writeFormat {formats : List String} {s s' : MetatileBuilder × (String → Contents)}
    (hsize : 0 < s.1.size) (h : formats.foldlM writeFormat s = some s') :
    formats.Nodup ∧ ∀ f ∈ formats, (s.2 f (0, 0)).isSome := by
  induction formats generalizing s with
  | nil => exact ⟨.nil, fun f hf => absurd hf List.not_mem_nil⟩
  | cons f formats ih =>
    rw [List.foldlM_cons] at h
    obtain ⟨s₁, hfirst, hrest⟩ := Option.bind_eq_some_iff.mp h
    obtain ⟨⟨b, left⟩, hwrite, hfirst⟩ := Option.bind_eq_some_iff.mp hfirst
    obtain rfl := Option.some.inj hfirst
    obtain ⟨hsame, hcells⟩ := writeContents_spec hwrite
    obtain ⟨hthere, hgone⟩ := hcells (0, 0) (mem_cells.mpr ⟨hsize, hsize⟩)
    obtain ⟨hnodup, hsome⟩ := ih (by rwa [hsame]) hrest
    dsimp only at hsome
    have hnew : f ∉ formats := by
      intro hf
      have hleft := hsome f hf
      rw [Function.update_self, hgone] at hleft
      cases hleft
    refine ⟨List.nodup_cons.mpr ⟨hnew, hnodup⟩, List.forall_mem_cons.mpr ⟨hthere, fun g hg => ?_⟩⟩
    have hg' := hsome g hg
    rwa [Function.update_of_ne (ne_of_mem_of_not_mem hg hnew)] at hg'

/-- The first round, over the formats and the metadata. -/
theorem makeMeta_first (job : TileProtocol) (tiles : String → Contents)
    (metaData : Option Contents) (formats : List String) (size : Nat) :
    makeMeta job tiles metaData formats size = (do
      let named := namedOf tiles metaData formats
      let builder ← named.foldlM writePart ⟨[], job, size, named.length * headerSize⟩
      let builder ← (formats.foldlM writeFormat (builder, tiles)).map Prod.fst
      let builder ← (metaData.toList.map fun contents => ("json", contents)).foldlM writeTiles builder
      some builder.metaTile) := by
  rw [makeMeta, foldl_offsetHeader]
  cases metaData with
  | none =>
    simp only [namedOf, Option.toList_none, List.map_nil, List.append_nil, List.foldlM_map,
      List.length_map, Option.isSome_none, Bool.false_eq_true, if_false, Nat.zero_add,
      Option.bind_eq_bind, Option.bind_some, Option.bind_map]
    rfl
  | some contents =>
    have hoffset : 0 + formats.length * headerSize + (4 + 5 * 4) + 2 * 4 * 64 =
        (formats.length + 1) * headerSize := by
      rw [headerSize]
      omega
    simp only [namedOf, Option.toList_some, List.map_cons, List.map_nil, List.foldlM_append,
      List.foldlM_map, List.length_append, List.length_map, List.length_singleton,
      Option.isSome_some, if_true, offsetHeader, hoffset, List.foldlM_cons, List.foldlM_nil,
      writePart, Option.bind_eq_bind, Option.bind_assoc, Option.bind_some, Option.pure_def,
      Option.bind_map, writeTiles, Function.comp_def]

/-- **A format that is listed twice is an exception**, since its tiles are gone when they are to be written
again. -/
theorem nodup_of_makeMeta {job : TileProtocol} {tiles : String → Contents}
    {metaData : Option Contents} {formats : List String} {size : Nat} {bytes : Bytes}
    (hsize : 0 < size) (h : makeMeta job tiles metaData formats size = some bytes) :
    formats.Nodup := by
  rw [makeMeta_first] at h
  obtain ⟨b, hparts, h⟩ := Option.bind_eq_some_iff.mp h
  obtain ⟨b', htiles, _⟩ := Option.bind_eq_some_iff.mp h
  obtain ⟨s, hwrite, _⟩ := Option.map_eq_some_iff.mp htiles
  have hb : b.size = size := Pieces.kept_of_foldlM (Q := fun b : MetatileBuilder => b.size = size)
    (fun b n b' hsize hpart => (size_writePart hpart).trans hsize) rfl hparts
  exact (nodup_of_foldlM_writeFormat (by rwa [hb]) hwrite).1

/-- The two rounds over formats that differ, and the metadata. -/
theorem makeMeta_rounds (job : TileProtocol) (tiles : String → Contents)
    (metaData : Option Contents) {formats : List String} (distinct : formats.Nodup) (size : Nat) :
    makeMeta job tiles metaData formats size = (do
      let named := namedOf tiles metaData formats
      let builder ← named.foldlM writePart ⟨[], job, size, named.length * headerSize⟩
      let builder ← named.foldlM writeTiles builder
      some builder.metaTile) := by
  rw [makeMeta_first]
  simp only [foldlM_writeFormat distinct (fun _ _ => rfl), namedOf, List.foldlM_append,
    List.foldlM_map, Option.bind_eq_bind, Option.bind_assoc]

/-- The bytes that are written for some parts. -/
def writtenParts (job : TileProtocol) (size : Nat) (parts : List Part) : Bytes :=
  (headersFrom job size (parts.length * headerSize) parts).flatMap MetaLayout.encode ++
    parts.flatMap (Part.data size)

/-- **What is written** by `make_meta`: the headers, then the tiles. -/
theorem makeMeta_eq {job : TileProtocol} (aligned : Aligned job) {size : Nat} (hsize : size ≤ 8)
    {tiles : String → Contents} {metaData : Option Contents} {formats : List String}
    (distinct : formats.Nodup)
    (complete : ∀ n ∈ namedOf tiles metaData formats, Complete size n)
    (fits : (namedOf tiles metaData formats).length * headerSize +
      dataLength size ((namedOf tiles metaData formats).map partOf) < 2 ^ 31) :
    makeMeta job tiles metaData formats size =
      some (writtenParts job size ((namedOf tiles metaData formats).map partOf)) := by
  rw [makeMeta_rounds job tiles metaData distinct]
  dsimp only
  rw [foldlM_writePart aligned hsize complete _ _ fits, Option.bind_eq_bind, Option.bind_some,
    foldlM_writeTiles complete, Option.bind_some, writtenParts, List.length_map,
    List.nil_append]

/-! ## What is read -/

theorem headersFrom_magic (job : TileProtocol) (size offset : Nat) (parts : List Part) :
    ∀ h ∈ headersFrom job size offset parts, h.magicOk = true := by
  induction parts generalizing offset with
  | nil => exact fun h hmem => absurd hmem List.not_mem_nil
  | cons p parts ih => exact List.forall_mem_cons.mpr ⟨rfl, ih _⟩

theorem headersFrom_fmt (job : TileProtocol) (size offset : Nat) (parts : List Part) :
    (headersFrom job size offset parts).map MetaLayout.fmt = parts.map Part.fmt := by
  induction parts generalizing offset with
  | nil => rfl
  | cons p parts ih => rw [headersFrom, List.map_cons, List.map_cons, ih]; rfl

theorem length_headersFrom (job : TileProtocol) (size offset : Nat) (parts : List Part) :
    (headersFrom job size offset parts).length = parts.length := by
  induction parts generalizing offset with
  | nil => rfl
  | cons p parts ih => rw [headersFrom, List.length_cons, List.length_cons, ih]

theorem mem_headersFrom (job : TileProtocol) (size offset : Nat) (before : List Part) (p : Part)
    (after : List Part) :
    p.header job size (offset + dataLength size before) ∈
      headersFrom job size offset (before ++ p :: after) := by
  induction before generalizing offset with
  | nil => exact List.mem_cons_self
  | cons q before ih =>
    have hlength : offset + dataLength size (q :: before) =
        offset + (q.data size).length + dataLength size before := by
      simp [dataLength, Nat.add_assoc]
    rw [hlength]
    exact List.mem_cons_of_mem _ (ih _)

theorem header_get (job : TileProtocol) (size offset : Nat) (p : Part) (i : Fin 64) :
    (p.header job size offset).index.get i = entryOf (p.entry size offset i) :=
  Vector.getElem_ofFn i.isLt

theorem length_flatMap_data (size : Nat) (parts : List Part) :
    (parts.flatMap (Part.data size)).length = dataLength size parts := by
  rw [List.length_flatMap, dataLength]

variable {job : TileProtocol} {size : Nat}

theorem length_writtenParts (parts : List Part) :
    (writtenParts job size parts).length =
      parts.length * headerSize + dataLength size parts := by
  rw [writtenParts, List.length_append, length_flatMap_encode, length_headersFrom,
    length_flatMap_data]

/-- The entry of a part points at its tile. -/
theorem entry_written {before after : List Part} {p : Part}
    (small : (writtenParts job size (before ++ p :: after)).length < 2 ^ 31) (i : Nat) :
    let start := (before ++ p :: after).length * headerSize + dataLength size before
    let e := entryOf (p.entry size start i)
    e.InBounds (writtenParts job size (before ++ p :: after)) ∧
      e.bytes (writtenParts job size (before ++ p :: after)) =
        if i / 8 < size ∧ i % 8 < size then p.body (i / 8, i % 8) else [] := by
  intro start e
  set buf := writtenParts job size (before ++ p :: after) with hbuf
  by_cases hi : i / 8 < size ∧ i % 8 < size
  · have hcell : (i / 8, i % 8) ∈ cells size := mem_cells.mpr hi
    obtain ⟨pre, post, hsplit, hlength⟩ : ∃ pre post,
        ((cells size).map p.body).flatten = pre ++ (p.body (i / 8, i % 8) ++ post) ∧
          pre.length = startIn p.body (i / 8, i % 8) (cells size) := startIn_split hcell
    have he : e = ⟨.ofNat 32 (start + pre.length), .ofNat 32 (p.body (i / 8, i % 8)).length⟩ := by
      rw [hlength]
      simp only [e, Part.entry, if_pos hi, entryOf]
    have hdata : buf = (((headersFrom job size ((before ++ p :: after).length * headerSize)
        (before ++ p :: after)).flatMap MetaLayout.encode ++ before.flatMap (Part.data size)) ++
          pre) ++ (p.body (i / 8, i % 8) ++ (post ++ after.flatMap (Part.data size))) := by
      rw [hbuf, writtenParts, List.flatMap_append, List.flatMap_cons, Part.data, hsplit]
      simp only [List.append_assoc]
    have hstart : (((headersFrom job size ((before ++ p :: after).length * headerSize)
        (before ++ p :: after)).flatMap MetaLayout.encode ++ before.flatMap (Part.data size)) ++
          pre).length = start + pre.length := by
      rw [List.length_append, List.length_append, length_flatMap_encode, length_headersFrom,
        length_flatMap_data]
    have hfits : start + pre.length + (p.body (i / 8, i % 8)).length ≤ buf.length := by
      rw [hdata, List.length_append, hstart, List.length_append]
      omega
    obtain ⟨hbounds, hbytes⟩ := entry_ofNat (lt_of_le_of_lt hfits small) hfits
    rw [he, if_pos hi]
    refine ⟨hbounds, hbytes.trans ?_⟩
    rw [hdata, ← hstart, List.drop_left, List.take_left]
  · have he : e = ⟨0#32, 0#32⟩ := by
      simp only [e, Part.entry, if_neg hi, entryOf]
    rw [he, if_neg hi]
    exact ⟨⟨by decide, by decide, by simp⟩, rfl⟩

/-- **One format.** The reader hands out the tiles of a part, and nothing outside the grid. -/
theorem get_writtenParts (aligned : Aligned job) {parts : List Part}
    (distinct : (parts.map Part.fmt).Nodup) (small : (writtenParts job size parts).length < 2 ^ 31)
    {p : Part} (hp : p ∈ parts) {dx dy : Nat} (hx : dx < 8) (hy : dy < 8) :
    (metatileReader (writtenParts job size parts) p.fmt).get (job.x + dx) (job.y + dy) =
      some (if dy < size ∧ dx < size then p.body (dy, dx) else []) := by
  obtain ⟨before, after, rfl⟩ := List.append_of_mem hp
  have hfound : (metatileReader (writtenParts job size (before ++ p :: after)) p.fmt).header =
      some (p.header job size ((before ++ p :: after).length * headerSize +
        dataLength size before)) := by
    rw [metatileReader, writtenParts, headerBlocks_flatMap]
    refine findHeader_of_mem (headersFrom_magic _ _ _ _) ?_ (mem_headersFrom ..)
    rwa [headersFrom_fmt]
  have hindex : ((tileIndex (job.x + dx) (job.y + dy) : Fin 64) : Nat) = dy * 8 + dx :=
    @Aligned.offset job aligned (dy, dx) ⟨hy, hx⟩
  obtain ⟨hbounds, hbytes⟩ := entry_written small (dy * 8 + dx)
  have hentry : (p.header job size ((before ++ p :: after).length * headerSize +
      dataLength size before)).index.get (tileIndex (job.x + dx) (job.y + dy)) =
        entryOf (p.entry size ((before ++ p :: after).length * headerSize +
          dataLength size before) (dy * 8 + dx)) := by
    rw [header_get, hindex]
  have hdiv : (dy * 8 + dx) / 8 = dy := by omega
  have hmod : (dy * 8 + dx) % 8 = dx := by omega
  rw [MetatileReader.get_of_inBounds hfound (by rw [hentry]; exact hbounds), hentry]
  refine congrArg some (hbytes.trans ?_)
  rw [hdiv, hmod]

/-- A format that was not written is not found, when the tiles do not look like a header. -/
theorem get_writtenParts_absent {parts : List Part} {fmt : ProtoFmt}
    (absent : fmt ∉ parts.map Part.fmt) (quiet : Quiet (parts.flatMap (Part.data size)))
    (x y : Int) : (metatileReader (writtenParts job size parts) fmt).get x y = some [] := by
  have hfound : (metatileReader (writtenParts job size parts) fmt).header = none := by
    rw [metatileReader, writtenParts, headerBlocks_flatMap, findHeader_append]
    · exact findHeader_quiet quiet fmt
    · exact headersFrom_magic _ _ _ _
    · rintro h hmem rfl
      refine absent ?_
      rw [← headersFrom_fmt job size (parts.length * headerSize)]
      exact List.mem_map_of_mem hmem
  rw [MetatileReader.get, hfound]

/-- **Written in Python, read in C++.** Of the metatile for a job in some formats, with the metadata as
one more, the reader of a format hands out the tiles of this format by column and row, and nothing for
the other positions; nor does it for other formats, when the tiles do not start with the magic.

The job is for the first tile of a metatile, with coordinates that are `int`s; the formats have
different numbers, no tile is missing, and all of it has less than 2^31 bytes. The metadata is a
dictionary of its own. What `make_meta` does where a tile is missing is not part of this. -/
theorem make_meta_read_back {job : TileProtocol} (aligned : Aligned job)
    {tiles : String → Contents} {metaData : Option Contents} {formats : List String}
    (distinct : ((namedOf tiles metaData formats).map fun n => formatLookup n.1).Nodup)
    (complete : ∀ n ∈ namedOf tiles metaData formats, Complete (min 8 (2 ^ job.z.toNat)) n)
    (small : (namedOf tiles metaData formats).length * headerSize +
      dataLength (min 8 (2 ^ job.z.toNat)) ((namedOf tiles metaData formats).map partOf) < 2 ^ 31) :
    let size := min 8 (2 ^ job.z.toNat)
    ∃ bytes, makeMeta job tiles metaData formats size = some bytes ∧
      (∀ n ∈ namedOf tiles metaData formats, ∀ fmt, formatLookup n.1 = some fmt →
        ∀ x y : Nat, x < 8 → y < 8 →
          (metatileReader bytes fmt).get (job.x + x) (job.y + y) =
            if y < size ∧ x < size then n.2 (y, x) else some []) ∧
      ∀ fmt, (∀ n ∈ namedOf tiles metaData formats, formatLookup n.1 ≠ some fmt) →
        ¬ encode META_MAGIC <+:
          bytes.drop ((namedOf tiles metaData formats).length * headerSize) →
        ∀ x y : Int, (metatileReader bytes fmt).get x y = some [] := by
  intro size
  set named := namedOf tiles metaData formats with hnamed
  have hfmts : named.map (fun n => formatLookup n.1) =
      ((named.map partOf).map Part.fmt).map some := by
    rw [List.map_map, List.map_map]
    exact List.map_congr_left fun n hn => (complete n hn).fmt
  have hdistinct : ((named.map partOf).map Part.fmt).Nodup := by
    rw [hfmts] at distinct
    exact List.Nodup.of_map some distinct
  have hlength : (writtenParts job size (named.map partOf)).length < 2 ^ 31 := by
    rwa [length_writtenParts, List.length_map]
  refine ⟨_, makeMeta_eq aligned (min_le_left ..) (nodup_of_namedOf distinct) complete small, ?_, ?_⟩
  · intro n hn fmt hfmt x y hx hy
    obtain rfl : (partOf n).fmt = fmt :=
      Option.some.inj ((complete n hn).fmt.symm.trans hfmt)
    rw [get_writtenParts aligned hdistinct hlength (List.mem_map_of_mem hn) hx hy]
    by_cases hin : y < size ∧ x < size
    · rw [if_pos hin, if_pos hin, (complete n hn).body (mem_cells.mpr hin)]
    · rw [if_neg hin, if_neg hin]
  · intro fmt absent magic x y
    refine get_writtenParts_absent ?_ (quiet_of_magic ?_) x y
    · intro hmem
      obtain ⟨p, hp, rfl⟩ := List.mem_map.mp hmem
      obtain ⟨n, hn, rfl⟩ := List.mem_map.mp hp
      exact absent n hn (complete n hn).fmt
    · have hdrop : (writtenParts job size (named.map partOf)).drop (named.length * headerSize) =
          (named.map partOf).flatMap (Part.data size) := by
        have hheaders : ((headersFrom job size ((named.map partOf).length * headerSize)
            (named.map partOf)).flatMap MetaLayout.encode).length = named.length * headerSize := by
          rw [length_flatMap_encode, length_headersFrom, List.length_map]
        rw [writtenParts, ← hheaders, List.drop_left]
      rwa [hdrop] at magic

/-- Two tiles by row and column, in two formats and with metadata, at zoom 1. -/
theorem tiles_of_a_worker_read_back :
    let job : TileProtocol := { x := 8, y := 16, z := 1 }
    let tiles : String → Contents := fun f cell =>
      some [.ofNat f.length, .ofNat cell.1, .ofNat cell.2]
    let metaData : Contents := fun cell => some (List.replicate cell.2 5)
    ∃ bytes, makeMeta job tiles (some metaData) ["png", "jpeg"] 2 = some bytes ∧
      (metatileReader bytes fmtJPEG).get 9 16 = some [4, 0, 1] ∧
      (metatileReader bytes fmtJSON).get 9 17 = some [5] := by
  intro job tiles metaData
  have aligned : Aligned job := ⟨by decide, by decide, by decide⟩
  have complete : ∀ n ∈ namedOf tiles (some metaData) ["png", "jpeg"],
      Complete (min 8 (2 ^ job.z.toNat)) n := by
    intro n hn
    simp only [namedOf, List.map_cons, List.map_nil, Option.toList_some, List.cons_append,
      List.nil_append, List.mem_cons, List.not_mem_nil, or_false] at hn
    rcases hn with rfl | rfl | rfl <;> exact ⟨rfl, fun _ _ _ _ => rfl⟩
  obtain ⟨bytes, hmake, hread, _⟩ := make_meta_read_back aligned (by decide) complete (by decide)
  refine ⟨bytes, hmake, ?_, ?_⟩
  · exact hread ("jpeg", tiles "jpeg") (by simp [namedOf]) fmtJPEG rfl 1 0 (by decide) (by decide)
  · exact hread ("json", metaData) (by simp [namedOf]) fmtJSON rfl 1 1 (by decide) (by decide)

end RenderMq
