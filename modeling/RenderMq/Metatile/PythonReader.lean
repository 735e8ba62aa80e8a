import RenderMq.Metatile.Made
import RenderMq.Render.Coverages

/-!
# The metatile reader of the workers

`metatile.py` has a reader of its own. A worker whose style is saved reads the metatile that another
worker has put in storage, and makes images and features of it again. The reader goes by the number of
tiles that a header gives, while `metatile_reader` in C++ goes by the size of its structure; and it stops
where no more than headers are left.

`tilesets_written` says that it finds what the builder wrote. `save_and_load` is the round trip: what
one worker saves, another reads back as the images of the first image format, and the features.
-/

namespace RenderMq

open Words MetatileBuilder Coverages

namespace PythonReader

/-! ## The reader -/

/-- `buffer(data, offset, size)`; a size of -1 is up to the end. -/
def buffer (data : Bytes) (offset size : Int) : Option Bytes :=
  if offset < 0 ∨ size < -1 then none
  else if size = -1 then some (data.drop offset.toNat)
  else some ((data.drop offset.toNat).take size.toNat)

/-- `FORMAT_REVERSE`. -/
def formatReverse (fmt : ProtoFmt) : Option String :=
  if fmt = fmtPNG then some "png"
  else if fmt = fmtJPEG then some "jpeg"
  else if fmt = fmtGIF then some "gif"
  else if fmt = fmtJSON then some "json"
  else none

/-- `tileset`. -/
structure Tileset where
  x : Int
  y : Int
  z : Int
  fmt : String
  tiles : List Bytes
  deriving DecidableEq

/-- The tiles of a header whose table starts at an offset. -/
def tilesAt (data : Bytes) (offset : Nat) (nTiles : Int) : Option (List Bytes) :=
  (List.range nTiles.toNat).mapM fun i =>
    buffer data (wordAt data (offset + 8 * i)).toInt (wordAt data (offset + 4 + 8 * i)).toInt

/-- The loop of `metatile_reader`, from an offset. -/
def tilesets (data : Bytes) (offset : Nat) : Option (List Tileset) :=
  if offset + 24 < data.length then
    if wordAt data offset ≠ META_MAGIC then some []
    else
      let nTiles := (wordAt data (offset + 4)).toInt
      if ((offset + 24 : Nat) : Int) + nTiles * 8 ≥ data.length then some []
      else do
        let tiles ← tilesAt data (offset + 24) nTiles
        let fmt ← formatReverse (wordAt data (offset + 20))
        let rest ← tilesets data (offset + 24 + 8 * nTiles.toNat)
        some (⟨(wordAt data (offset + 8)).toInt, (wordAt data (offset + 12)).toInt,
          (wordAt data (offset + 16)).toInt, fmt, tiles⟩ :: rest)
  else some []
termination_by data.length - offset

/-- One turn of the loops of `unImage` and `unJSON`. Not all tiles are present. -/
def readTile {α : Type} (openTile : Bytes → Option α) (img : Position → Option α)
    (tile : Bytes × Nat) : Option (Position → Option α) :=
  if tile.1 = [] then some img
  else (openTile tile.1).map fun v => Function.update img (tile.2 / 8, tile.2 % 8) (some v)

/-- `unImage` and `unJSON`. -/
def Tileset.read {α : Type} (openTile : Bytes → Option α) (t : Tileset) : Option (Position → Option α) :=
  if t.tiles.length ≠ 64 then none
  else t.tiles.zipIdx.foldlM (readTile openTile) fun _ => none

/-- `image`. Where there is no image, there is none at any position. -/
def image (openTile : Bytes → Option Bytes) (sets : List Tileset) : Option (Position → Option Bytes) :=
  match sets.find? fun t => t.fmt ≠ "json" with
  | some t => t.read openTile
  | none => some fun _ => none

/-- `metadata`. -/
def metadata {Feature : Type} (loads : Bytes → Option (List Feature)) (sets : List Tileset) :
    Option (Option (Position → Option (List Feature))) :=
  match sets.find? fun t => t.fmt = "json" with
  | some t => (t.read loads).map some
  | none => some none

/-- What a renderer makes of a metatile in storage. -/
def unpack {Feature : Type} (openTile : Bytes → Option Bytes) (loads : Bytes → Option (List Feature))
    (data : Bytes) : Option (RenderResult Feature) := do
  let sets ← tilesets data 0
  let img ← image openTile sets
  let features ← metadata loads sets
  some ⟨img, features⟩

/-! ## What is found -/

theorem buffer_of_inBounds {e : Entry} {data : Bytes} (h : e.InBounds data) :
    buffer data e.offset.toInt e.size.toInt = some (e.bytes data) := by
  obtain ⟨hoffset, hsize, _⟩ := h
  have hnat {w : BitVec 32} (hw : 0 ≤ w.toInt) : w.toInt.toNat = w.toNat := by
    have hmsb : w.msb = false := by
      rw [BitVec.msb_eq_toInt]
      simpa using hw
    rw [BitVec.toInt_eq_toNat_of_msb hmsb, Int.toNat_natCast]
  rw [buffer, if_neg (by omega), if_neg (by omega), hnat hoffset, hnat hsize]
  rfl

/-- A header and its tiles, as the reader has them. -/
def tilesetOf (data : Bytes) (fmt : String) (h : MetaLayout) : Tileset :=
  ⟨h.x.toInt, h.y.toInt, h.z.toInt, fmt, h.index.toList.map fun e => e.bytes data⟩

/-- The tiles of a header with 64 tiles that are in bounds. -/
theorem tilesAt_header {data : Bytes} {offset : Nat} {h : MetaLayout}
    (hread : MetaLayout.readAt data offset = h) (inBounds : ∀ i, (h.index.get i).InBounds data) :
    tilesAt data (offset + 24) 64 = some (h.index.toList.map fun e => e.bytes data) := by
  have hentry : ∀ i ∈ List.range 64, buffer data (wordAt data (offset + 24 + 8 * i)).toInt
      (wordAt data (offset + 24 + 4 + 8 * i)).toInt =
        some ((h.index.toList.map fun e => e.bytes data).getD i []) := by
    intro i hi
    have hi64 : i < 64 := List.mem_range.mp hi
    have hat : h.index.get ⟨i, hi64⟩ =
        ⟨wordAt data (offset + 24 + 8 * i), wordAt data (offset + 28 + 8 * i)⟩ := by
      rw [← hread]
      exact Vector.getElem_ofFn hi64
    have hbuffer := buffer_of_inBounds (inBounds ⟨i, hi64⟩)
    rw [hat] at hbuffer
    refine hbuffer.trans (congrArg some ?_)
    rw [← hat, List.getD_eq_getElem?_getD, List.getElem?_eq_getElem (by simpa using hi64),
      Option.getD_some, List.getElem_map, Vector.getElem_toList]
    rfl
  refine (Pieces.mapM_eq_pure hentry).trans (congrArg some ?_)
  refine List.ext_getElem (by simp) fun i hi hi' => ?_
  rw [List.getElem_map, List.getElem_range, List.getD_eq_getElem?_getD, List.getElem?_eq_getElem hi',
    Option.getD_some]

/-- One turn of the loop. -/
theorem tilesets_header {data : Bytes} {offset : Nat} {h : MetaLayout} {fmt : String}
    (hread : MetaLayout.readAt data offset = h) (room : offset + headerSize < data.length)
    (magic : h.magicOk = true) (count : h.count = 64#32) (hfmt : formatReverse h.fmt = some fmt)
    (inBounds : ∀ i, (h.index.get i).InBounds data) :
    tilesets data offset =
      (tilesets data (offset + headerSize)).map (tilesetOf data fmt h :: ·) := by
  have hmagic : wordAt data offset = META_MAGIC := by
    have := of_decide_eq_true magic
    rwa [← hread] at this
  have hcount : (wordAt data (offset + 4)).toInt = 64 := by
    have : wordAt data (offset + 4) = h.count := by rw [← hread]; rfl
    rw [this, count]
    rfl
  have hfmt' : formatReverse (wordAt data (offset + 20)) = some fmt := by
    rw [← hfmt, ← hread]
    rfl
  unfold headerSize at room
  rw [tilesets, if_pos (by omega), if_neg (by simp [hmagic])]
  simp only [hcount, hfmt', tilesAt_header hread inBounds]
  rw [if_neg (by omega)]
  have hoffset : offset + 24 + 8 * (64 : Int).toNat = offset + headerSize := by
    unfold headerSize
    omega
  simp only [Option.bind_eq_bind, Option.bind_some, hoffset]
  cases tilesets data (offset + headerSize) with
  | none => rfl
  | some rest =>
    simp only [Option.bind_some, Option.map_some, tilesetOf, ← hread]
    rfl

/-- The loop ends where no more than headers are left, or the magic is missing. -/
theorem tilesets_end {data rest : Bytes} {offset : Nat} (hoffset : data.drop offset = rest)
    (magic : ¬ encode META_MAGIC <+: rest) : tilesets data offset = some [] := by
  rw [tilesets]
  split
  · next hroom =>
    have hword : wordAt data offset = wordAt rest 0 := by
      have hsplit := wordAt_append_right (data.take offset) (data.drop offset) 0
      rwa [List.take_append_drop, List.length_take, min_eq_left (by omega), hoffset] at hsplit
    have hlength : 4 ≤ rest.length := by
      rw [← hoffset, List.length_drop]
      omega
    rw [if_pos]
    intro heq
    rw [hword] at heq
    have hfront := encode_wordAt_prefix hlength
    rw [heq] at hfront
    exact magic hfront
  · rfl

/-- **The headers of a buffer**, when something follows them that does not start like one. -/
theorem tilesets_headers {data rest : Bytes} (hrest : rest ≠ []) (magic : ¬ encode META_MAGIC <+: rest)
    {names : ProtoFmt → String} (hs before : List MetaLayout)
    (hdata : data = (before ++ hs).flatMap MetaLayout.encode ++ rest)
    (good : ∀ h ∈ hs, h.magicOk = true ∧ h.count = 64#32 ∧ formatReverse h.fmt = some (names h.fmt) ∧
      ∀ i, (h.index.get i).InBounds data) :
    tilesets data (before.length * headerSize) =
      some (hs.map fun h => tilesetOf data (names h.fmt) h) := by
  induction hs generalizing before with
  | nil =>
    rw [List.append_nil] at hdata
    have hoffset : data.drop (before.length * headerSize) = rest := by
      rw [hdata, ← length_flatMap_encode, List.drop_left]
    exact tilesets_end hoffset magic
  | cons h hs ih =>
    obtain ⟨⟨hmagic, hcount, hfmt, hbounds⟩, hgood⟩ := List.forall_mem_cons.mp good
    have hread : MetaLayout.readAt data (before.length * headerSize) = h := by
      rw [hdata, List.flatMap_append, List.append_assoc, ← length_flatMap_encode, ← Nat.add_zero
        (List.length _), readAt_append_right, List.flatMap_cons, List.append_assoc,
        MetaLayout.readAt_encode]
    have hroom : before.length * headerSize + headerSize < data.length := by
      have hpos := List.length_pos_of_ne_nil hrest
      rw [hdata, List.length_append, length_flatMap_encode, List.length_append, List.length_cons]
      unfold headerSize
      omega
    have hoffset : before.length * headerSize + headerSize = (before ++ [h]).length * headerSize := by
      rw [List.length_append, List.length_singleton, Nat.succ_mul]
    have hnext := ih (before ++ [h]) (by rw [hdata, List.append_assoc]; rfl) hgood
    rw [tilesets_header hread hroom hmagic hcount hfmt hbounds, hoffset, hnext]
    rfl

/-! ## What was written -/

/-- `FORMAT_REVERSE` of a format that there is. -/
def nameOf (fmt : ProtoFmt) : String := (formatReverse fmt).getD ""

theorem formatReverse_single {fmt : ProtoFmt} (h : fmt ∈ singleFormats) :
    formatReverse fmt = some (nameOf fmt) := by
  simp only [singleFormats, List.mem_cons, List.not_mem_nil, or_false] at h
  rcases h with rfl | rfl | rfl | rfl <;> rfl

/-- The tile of a part at an index position. -/
def tileAt (size : Nat) (p : Part) (i : Nat) : Bytes :=
  if i / 8 < size ∧ i % 8 < size then p.body (i / 8, i % 8) else []

/-- A part, as the reader has it. -/
def tilesetOfPart (job : TileProtocol) (size : Nat) (p : Part) : Tileset :=
  ⟨job.x, job.y, job.z, nameOf p.fmt, (List.range 64).map (tileAt size p)⟩

variable {job : TileProtocol} {size : Nat} {parts : List Part} {bytes : Bytes}

/-- The tiles of a header, by index position. -/
theorem map_index {data : Bytes} {h : MetaLayout} {tile : Nat → Bytes}
    (htile : ∀ i : Fin 64, (h.index.get i).bytes data = tile i) :
    (h.index.toList.map fun e => e.bytes data) = (List.range 64).map tile := by
  refine List.ext_getElem (by simp) fun i hi _ => ?_
  rw [List.getElem_map, Vector.getElem_toList, List.getElem_map, List.getElem_range]
  exact htile ⟨i, by simpa using hi⟩

/-- A header that was written, with its tiles. -/
theorem tilesetOf_header (aligned : Aligned job) {before after : List Part} {p : Part}
    (small : (writtenParts job size (before ++ p :: after)).length < 2 ^ 31) :
    tilesetOf (writtenParts job size (before ++ p :: after)) (nameOf p.fmt)
      (p.header job size ((before ++ p :: after).length * headerSize + dataLength size before)) =
        tilesetOfPart job size p := by
  have hints : ∀ v ∈ [job.x, job.y, job.z], (BitVec.ofInt 32 v).toInt = v := by
    intro v hv
    obtain ⟨hlow, hhigh⟩ := aligned.ints v hv
    rw [BitVec.toInt_ofInt]
    exact Int.bmod_eq_of_le (by omega) (by omega)
  rw [tilesetOf, tilesetOfPart, Tileset.mk.injEq]
  refine ⟨hints _ (by simp), hints _ (by simp), hints _ (by simp), rfl, map_index fun i => ?_⟩
  rw [header_get]
  exact (entry_written small i).2

/-- All headers that were written. -/
theorem map_headersFrom (aligned : Aligned job)
    (small : (writtenParts job size parts).length < 2 ^ 31) (before after : List Part)
    (hsplit : parts = before ++ after) :
    (headersFrom job size (parts.length * headerSize + dataLength size before) after).map
      (fun h => tilesetOf (writtenParts job size parts) (nameOf h.fmt) h) =
        after.map (tilesetOfPart job size) := by
  induction after generalizing before with
  | nil => rfl
  | cons p after ih =>
    have hnext := ih (before ++ [p]) (by rw [hsplit, List.append_assoc]; rfl)
    have hlength : dataLength size (before ++ [p]) =
        dataLength size before + (p.data size).length := by
      simp [dataLength]
    rw [hlength, ← Nat.add_assoc] at hnext
    subst hsplit
    rw [headersFrom, List.map_cons, List.map_cons, hnext]
    exact congrArg (· :: _) (tilesetOf_header aligned small)

/-- **The reader finds what the builder wrote**, if there are any tiles. -/
theorem tilesets_written (aligned : Aligned job) (made : MadeFrom job size parts bytes)
    (hsize : 0 < size) : tilesets bytes 0 = some (parts.map (tilesetOfPart job size)) := by
  rcases Classical.em (parts = []) with rfl | hparts
  · have hnil : bytes = [] := made.written
    rw [hnil, tilesets]
    rfl
  · have htiles : parts.flatMap (Part.data size) ≠ [] := by
      obtain ⟨p, hp⟩ := List.exists_mem_of_ne_nil parts hparts
      have hcell : (0, 0) ∈ cells size := mem_cells.mpr ⟨hsize, hsize⟩
      obtain ⟨first, others, hbody, _⟩ := (made.encoded p hp (0, 0) hcell).starts
      intro hnil
      have hdata : p.data size = [] := List.flatMap_eq_nil_iff.mp hnil p hp
      have hempty := List.flatten_eq_nil_iff.mp hdata (p.body (0, 0)) (List.mem_map_of_mem hcell)
      rw [hbody] at hempty
      cases hempty
    have hheaders := @tilesets_headers bytes _ htiles (magic_of_encoded made.encoded) nameOf
      (headersFrom job size (parts.length * headerSize) parts) [] made.written ?_
    · have hall := map_headersFrom aligned made.small [] parts rfl
      rw [dataLength, List.map_nil, List.sum_nil, Nat.add_zero] at hall
      rw [List.length_nil, Nat.zero_mul] at hheaders
      rw [hheaders, made.written, hall]
    · intro h hmem
      have hsmall := made.small
      obtain ⟨before, p, after, hsplit, rfl⟩ := of_mem_headersFrom hmem
      refine ⟨rfl, rfl, formatReverse_single (made.single p (by simp [hsplit])), fun i => ?_⟩
      rw [made.written]
      rw [hsplit] at hsmall ⊢
      rw [header_get]
      exact (entry_written hsmall i).1

/-! ## Saved and loaded -/

/-- The loop of `unImage` and `unJSON`, over some positions. -/
theorem foldlM_read {α : Type} {openTile : Bytes → Option α} {tile : Nat → Bytes} (n k : Nat)
    (opens : ∀ i, k ≤ i → i < k + n → tile i ≠ [] → (openTile (tile i)).isSome)
    (img : Position → Option α) :
    ∃ img', (((List.range' k n).map tile).zipIdx k).foldlM (readTile openTile) img = some img' ∧
      ∀ i, img' (i / 8, i % 8) = if k ≤ i ∧ i < k + n ∧ tile i ≠ [] then openTile (tile i)
        else img (i / 8, i % 8) := by
  induction n generalizing k img with
  | zero => exact ⟨img, rfl, fun i => by rw [if_neg (by omega)]⟩
  | succ n ih =>
    rw [List.range'_succ, List.map_cons, List.zipIdx_cons, List.foldlM_cons, readTile]
    have hrest := ih (k + 1) fun i hk hi => opens i (by omega) (by omega)
    have hsame : ∀ i, i ≠ k → ∀ P : Prop,
        (k + 1 ≤ i ∧ i < k + 1 + n ∧ P ↔ k ≤ i ∧ i < k + (n + 1) ∧ P) := by
      intro i hik P
      rw [← and_assoc, ← and_assoc]
      refine and_congr_left fun _ => ?_
      omega
    by_cases hempty : tile k = []
    · obtain ⟨img', hfold, himg⟩ := hrest img
      refine ⟨img', by rw [if_pos hempty]; exact hfold, fun i => ?_⟩
      rw [himg]
      by_cases hik : i = k
      · subst hik
        rw [if_neg (by omega), if_neg (by simp [hempty])]
      · exact if_congr (hsame i hik _) rfl rfl
    · obtain ⟨v, hv⟩ := Option.isSome_iff_exists.mp (opens k le_rfl (by omega) hempty)
      obtain ⟨img', hfold, himg⟩ := hrest (Function.update img (k / 8, k % 8) (some v))
      refine ⟨img', by rw [if_neg hempty, hv]; exact hfold, fun i => ?_⟩
      rw [himg]
      by_cases hik : i = k
      · subst hik
        rw [if_neg (by omega), if_pos ⟨le_rfl, by omega, hempty⟩, Function.update_self, hv]
      · have hpos : (i / 8, i % 8) ≠ (k / 8, k % 8) := by
          intro heq
          obtain ⟨hdiv, hmod⟩ := Prod.mk.inj heq
          omega
        rw [Function.update_of_ne hpos]
        exact if_congr (hsame i hik _) rfl rfl

/-- The tiles of a part are read by their rows and columns. -/
theorem read_part {α : Type} {openTile : Bytes → Option α} (hsize : size ≤ 8) {p : Part}
    (encoded : ∀ cell ∈ cells size, Encoded (p.body cell))
    (opens : ∀ cell ∈ cells size, (openTile (p.body cell)).isSome) :
    ∃ img, (tilesetOfPart job size p).read openTile = some img ∧
      ∀ cell ∈ cells size, img cell = openTile (p.body cell) := by
  have hopens : ∀ i, 0 ≤ i → i < 0 + 64 → tileAt size p i ≠ [] →
      (openTile (tileAt size p i)).isSome := by
    intro i _ _ hne
    unfold tileAt at hne ⊢
    split at hne
    · next hcell =>
      rw [if_pos hcell]
      exact opens _ (mem_cells.mpr hcell)
    · exact absurd rfl hne
  obtain ⟨img, hfold, himg⟩ := foldlM_read 64 0 hopens fun _ => none
  refine ⟨img, ?_, fun cell hcell => ?_⟩
  · rw [Tileset.read, if_neg (by simp [tilesetOfPart]), tilesetOfPart, List.range_eq_range']
    exact hfold
  · obtain ⟨hy, hx⟩ := mem_cells.mp hcell
    have hdiv : (cell.1 * 8 + cell.2) / 8 = cell.1 := by omega
    have hmod : (cell.1 * 8 + cell.2) % 8 = cell.2 := by omega
    have htile : tileAt size p (cell.1 * 8 + cell.2) = p.body cell := by
      rw [tileAt, hdiv, hmod, if_pos ⟨hy, hx⟩]
    have hpos := himg (cell.1 * 8 + cell.2)
    rw [hdiv, hmod, htile, if_pos ⟨by omega, by omega, (encoded cell hcell).nonempty⟩] at hpos
    exact hpos

theorem nameOf_json {format : String} {fmt : ProtoFmt} (h : formatLookup format = some fmt) :
    nameOf fmt = "json" ↔ format = "json" := by
  unfold formatLookup at h
  split_ifs at h with h1 h2 h3 h4 h5
  all_goals
    obtain rfl := Option.some.inj h
    subst format
    decide

/-- **The round trip.** What one worker saves, another reads back: the images of the first image format,
and the features if there are any.

It is assumed that the formats have different numbers, that images and features are encoded (`Encoded`:
not empty, short, and with another first byte than a header), that the images open and the features
load. That `make_meta` returns is assumed, and that the storage gives what it was given. -/
theorem save_and_load {Feature : Type} {openTile : Bytes → Option Bytes}
    {loads : Bytes → Option (List Feature)} (aligned : Aligned job) (hsize : 0 < size ∧ size ≤ 8)
    {tiles : String → Contents} {metaData : Option Contents} {format : String}
    {formats : List String} (names : "json" ∉ format :: formats)
    (distinct : ((namedOf tiles metaData (format :: formats)).map fun n => formatLookup n.1).Nodup)
    (encoded : ∀ n ∈ namedOf tiles metaData (format :: formats), ∀ cell body,
      n.2 cell = some body → Encoded body)
    (opens : ∀ cell body, tiles format cell = some body → (openTile body).isSome)
    (reads : ∀ contents ∈ metaData, ∀ cell body, contents cell = some body → (loads body).isSome)
    (h : makeMeta job tiles metaData (format :: formats) size = some bytes) :
    ∃ r : RenderResult Feature, unpack openTile loads bytes = some r ∧
      (∀ cell ∈ cells size, r.data cell = (tiles format cell).bind openTile) ∧
      (metaData = none → r.metadata = none) ∧
      ∀ contents, metaData = some contents → ∃ features, r.metadata = some features ∧
        ∀ cell ∈ cells size, features cell = (contents cell).bind loads := by
  have complete := complete_of_makeMeta h
  obtain ⟨made, -⟩ := madeFrom_of_makeMeta aligned hsize.2 distinct encoded h
  have hsets := tilesets_written aligned made hsize.1
  -- a format, read back
  have hread : ∀ {α : Type} (f : Bytes → Option α), ∀ n ∈ namedOf tiles metaData (format :: formats),
      (∀ cell body, n.2 cell = some body → (f body).isSome) →
        ∃ img, (tilesetOfPart job size (partOf n)).read f = some img ∧
          ∀ cell ∈ cells size, img cell = (n.2 cell).bind f := by
    intro α f n hn hf
    obtain ⟨img, himg, hcells⟩ := @read_part job size _ f hsize.2 _
      (made.encoded _ (List.mem_map_of_mem hn))
      fun cell hcell => hf cell _ ((complete n hn).body hcell)
    refine ⟨img, himg, fun cell hcell => ?_⟩
    rw [hcells cell hcell, (complete n hn).body hcell, Option.bind_some]
  have hname : ∀ n ∈ namedOf tiles metaData (format :: formats),
      (tilesetOfPart job size (partOf n)).fmt = "json" ↔ n.1 = "json" :=
    fun n hn => nameOf_json (complete n hn).fmt
  have himages : ∀ f ∈ format :: formats,
      (tilesetOfPart job size (partOf (f, tiles f))).fmt ≠ "json" := by
    intro f hf heq
    have hmem : (f, tiles f) ∈ namedOf tiles metaData (format :: formats) :=
      List.mem_append_left _ (List.mem_map_of_mem hf)
    exact names ((hname _ hmem).mp heq ▸ hf)
  have hfirst : (format, tiles format) ∈ namedOf tiles metaData (format :: formats) :=
    List.mem_append_left _ List.mem_cons_self
  obtain ⟨img, himg, hdata⟩ := hread openTile _ hfirst opens
  have himage : image openTile ((((namedOf tiles metaData (format :: formats)).map partOf).map
      (tilesetOfPart job size))) = some img := by
    simp only [image, namedOf, List.map_cons, List.cons_append, List.find?_cons,
      decide_eq_true (himages format List.mem_cons_self), himg]
  have hnone : ((((format :: formats).map fun f => (f, tiles f)).map partOf).map
      (tilesetOfPart job size)).find? (fun t => decide (t.fmt = "json")) = none := by
    refine List.find?_eq_none.mpr fun t ht => ?_
    obtain ⟨p, hp, rfl⟩ := List.mem_map.mp ht
    obtain ⟨n, hn, rfl⟩ := List.mem_map.mp hp
    obtain ⟨f, hf, rfl⟩ := List.mem_map.mp hn
    simpa using himages f hf
  cases metaData with
  | none =>
    refine ⟨⟨img, none⟩, ?_, hdata, fun _ => rfl, by simp⟩
    have hmeta : metadata loads ((((namedOf tiles none (format :: formats)).map partOf).map
        (tilesetOfPart job size))) = some none := by
      simp only [metadata, namedOf, Option.toList_none, List.map_nil, List.append_nil, hnone]
    simp only [unpack, hsets, himage, hmeta, Option.bind_eq_bind, Option.bind_some]
  | some contents =>
    have hlast : ("json", contents) ∈ namedOf tiles (some contents) (format :: formats) :=
      List.mem_append_right _ List.mem_cons_self
    obtain ⟨features, hfeatures, hcells⟩ := hread loads _ hlast (reads contents rfl)
    refine ⟨⟨img, some features⟩, ?_, hdata, by simp, ?_⟩
    · have hmeta : metadata loads ((((namedOf tiles (some contents) (format :: formats)).map
          partOf).map (tilesetOfPart job size))) = some (some features) := by
        simp only [metadata, namedOf, Option.toList_some, List.map_append, List.find?_append, hnone,
          Option.none_or]
        simp only [List.map_cons, List.map_nil, List.find?_cons,
          decide_eq_true ((hname _ hlast).mpr rfl), hfeatures, Option.map_some]
      simp only [unpack, hsets, himage, hmeta, Option.bind_eq_bind, Option.bind_some]
    · rintro _ ⟨⟩
      exact ⟨features, rfl, hcells⟩

/-- Images in two formats and features, at zoom 1. -/
theorem tiles_of_a_worker_are_loaded :
    let job : TileProtocol := { x := 8, y := 16, z := 1 }
    let tiles : String → Contents := fun f cell =>
      some [.ofNat f.length, .ofNat cell.1, .ofNat cell.2]
    let metaData : Contents := fun cell => some [.ofNat (cell.1 % 2)]
    ∃ bytes, ∃ r : RenderResult Bytes,
      makeMeta job tiles (some metaData) ["jpeg", "png"] 2 = some bytes ∧
      unpack some (fun body => some [body]) bytes = some r ∧ r.data (1, 0) = some [4, 1, 0] ∧
      ∃ features, r.metadata = some features ∧ features (1, 0) = some [[1]] := by
  intro job tiles metaData
  have aligned : Aligned job := ⟨by decide, by decide, by decide⟩
  have hnamed : ∀ n ∈ namedOf tiles (some metaData) ["jpeg", "png"],
      n = ("jpeg", tiles "jpeg") ∨ n = ("png", tiles "png") ∨ n = ("json", metaData) := by
    simp [namedOf]
  have complete : ∀ n ∈ namedOf tiles (some metaData) ["jpeg", "png"], Complete 2 n := by
    intro n hn
    rcases hnamed n hn with rfl | rfl | rfl <;> exact ⟨rfl, fun _ _ _ _ => rfl⟩
  have encoded : ∀ n ∈ namedOf tiles (some metaData) ["jpeg", "png"], ∀ cell body,
      n.2 cell = some body → Encoded body := by
    intro n hn cell body hbody
    rcases hnamed n hn with rfl | rfl | rfl
    · obtain rfl := Option.some.inj hbody
      exact ⟨⟨_, _, rfl, by decide⟩, by simp⟩
    · obtain rfl := Option.some.inj hbody
      exact ⟨⟨_, _, rfl, by decide⟩, by simp⟩
    · obtain rfl := Option.some.inj hbody
      refine ⟨⟨_, _, rfl, ?_⟩, by simp⟩
      have hbit : ∀ i : Fin 2, UInt8.ofNat (i : Nat) ≠ 0x4D := by decide
      exact hbit ⟨cell.1 % 2, Nat.mod_lt _ (by decide)⟩
  obtain ⟨bytes, hmake⟩ : ∃ bytes, makeMeta job tiles (some metaData) ["jpeg", "png"] 2 =
      some bytes := ⟨_, makeMeta_eq aligned (by decide) (by decide) complete (by decide)⟩
  obtain ⟨r, hload, hdata, _, hfeatures⟩ :=
    @save_and_load _ _ _ _ some (fun body => some [body]) aligned (by decide) _ _ _ _
      (by decide) (by decide) encoded (fun _ _ _ => rfl) (fun _ _ _ _ _ => rfl) hmake
  obtain ⟨features, hr, hcells⟩ := hfeatures metaData rfl
  exact ⟨bytes, r, hmake, hload, hdata (1, 0) (by decide), features, hr, hcells (1, 0) (by decide)⟩

end PythonReader

end RenderMq
