import RenderMq.Storage.Lts

/-!
# Which tiles are asked for

Three walks have to agree on the tiles of a metatile and their order: the one that makes the requests
to put them, the one that makes the URLs of their second copies, and the one that makes the URLs to
get them. `putTiles_together` is about the first two, for any buffer; `makeGetUrls_eq` and
`mem_makePutRequests` put the first and the third on the slots of a metatile.
-/

namespace RenderMq

namespace LtsStorage

variable (lts : LtsStorage)

/-! ## The URLs to get -/

/-- The columns and rows of a grid are those of its positions. -/
theorem grid_eq : ∀ d : Fin 9,
    ((List.range d).flatMap fun dy => (List.range d).map fun dx => (dx, dy)) =
      ((List.finRange 64).filter fun i : Fin 64 => decide ((i % 8 : Nat) < (d : Nat)) &&
        decide ((i / 8 : Nat) < (d : Nat))).map fun i : Fin 64 => ((i % 8 : Nat), (i / 8 : Nat)) := by
  decide

theorem inGrid_eq (z : Int) (i : Fin 64) :
    inGrid z i = (decide ((i % 8 : Nat) < (getMetaDimensions z).toNat) &&
      decide ((i / 8 : Nat) < (getMetaDimensions z).toNat)) := by
  simp only [inGrid, Int.lt_toNat]

/-- **The URLs to get** are those of the slots, in their order. -/
theorem makeGetUrls_eq (tile : TileProtocol) (replica : Replica) :
    lts.makeGetUrls tile replica =
      some ((metaSlots tile).map (lts.slotUrl tile replica)) := by
  have hdim : (getMetaDimensions tile.z).toNat < 9 := by
    have : getMetaDimensions tile.z ≤ 8 := min_le_right ..
    omega
  have hgrid := grid_eq ⟨(getMetaDimensions tile.z).toNat, hdim⟩
  simp only [← inGrid_eq] at hgrid
  have hformat : ∀ fmt ∈ getFormatsVec tile.format,
      (((List.range (getMetaDimensions tile.z).toNat).flatMap fun dy =>
        (List.range (getMetaDimensions tile.z).toNat).map fun dx => (dx, dy)).mapM
          fun d => (lts.formUrl (metaFloor tile.x + (d.1 : Nat)) (metaFloor tile.y + (d.2 : Nat))
            tile.z tile.style fmt replica).toOption) =
        some (((List.finRange 64).filter (inGrid tile.z)).map fun i =>
          lts.slotUrl tile replica (fmt, i)) := by
    intro fmt hfmt
    rw [hgrid]
    let urlAt (p : Nat × Nat) : String := lts.url (metaFloor tile.x + (p.1 : Nat))
      (metaFloor tile.y + (p.2 : Nat)) tile.z tile.style (fileType fmt) replica
    refine (Pieces.mapM_eq_pure (g := urlAt) fun p _ => ?_).trans ?_
    · rw [formUrl_single lts _ _ _ _ _ (getFormatsVec_subset hfmt)]
      rfl
    · rw [List.map_map]
      rfl
  refine Pieces.flatMapM_eq_some_iff.mpr ⟨fun fmt hfmt => ?_, ?_⟩
  · rw [xyToMetaXy, hformat fmt hfmt, Option.isSome_some]
  · rw [metaSlots, gridSlots, allSlots, List.filter_flatMap, List.map_flatMap]
    refine List.flatMap_congr fun fmt hfmt => ?_
    rw [xyToMetaXy, hformat fmt hfmt, Option.getD_some, List.filter_map, List.map_map]
    rfl

/-! ## The requests to put -/

/-- A tile that is put. -/
structure PutTile where
  x : Int
  y : Int
  fmt : ProtoFmt
  mime : String
  data : Bytes

/-- The URL of a copy of a tile that is put. -/
def PutTile.url (tile : TileProtocol) (replica : Replica) (t : PutTile) : String :=
  lts.url t.x t.y tile.z tile.style (fileType t.fmt) replica

def PutTile.request (tile : TileProtocol) (replica : Replica) (t : PutTile) : PutRequest :=
  ⟨t.url lts tile replica, t.mime, t.data⟩

theorem single_of_mimeTypeFor {fmt : ProtoFmt} {mime : String}
    (h : (mimeTypeFor fmt).toOption = some mime) : fmt ∈ singleFormats := by
  revert h
  unfold mimeTypeFor
  split
  · next h => exact fun _ => by simp [h, singleFormats]
  · split
    · next h => exact fun _ => by simp [h, singleFormats]
    · split
      · next h => exact fun _ => by simp [h, singleFormats]
      · split
        · next h => exact fun _ => by simp [h, singleFormats]
        · exact fun h => by cases h

/-- **The two walks of a put go together.** The requests and the URLs of the second copies are as
many, and each two are for one tile. -/
theorem putTiles_together {tile : TileProtocol} {metatile : Bytes} {requests : List PutRequest}
    (h : lts.makePutRequests tile metatile = some requests) :
    ∃ tiles : List PutTile, (∀ t ∈ tiles, t.fmt ∈ singleFormats) ∧
      requests = tiles.map (PutTile.request lts tile .primary) ∧
      lts.makeReplicaUrls tile metatile = some (tiles.map (PutTile.url lts tile .secondary)) := by
  refine Pieces.flatMapM_together (fun header _ bs hbs => ?_) requests h
  obtain ⟨mime, hmime, hbs⟩ := Option.bind_eq_some_iff.mp hbs
  have hsingle := single_of_mimeTypeFor hmime
  refine Pieces.flatMapM_together (fun i _ bs hbs => ?_) bs hbs
  obtain ⟨entry, hentry, hbs⟩ := Option.bind_eq_some_iff.mp hbs
  by_cases hsize : entry.size = 0#32
  · rw [if_pos hsize] at hbs
    obtain rfl := Option.some.inj hbs
    refine ⟨[], by simp, rfl, ?_⟩
    simp [replicaUrl, hentry, hsize]
  · rw [if_neg hsize, formUrl_single lts _ _ _ _ _ hsingle] at hbs
    obtain ⟨url, hurl, hbs⟩ := Option.bind_eq_some_iff.mp hbs
    obtain ⟨data, hdata, hbs⟩ := Option.bind_eq_some_iff.mp hbs
    obtain rfl := Option.some.inj hbs
    obtain rfl := Option.some.inj hurl
    refine ⟨[⟨metaFloor tile.x + (i % 8 : Nat), metaFloor tile.y + (i / 8 : Nat), header.fmt, mime,
      data⟩], by simpa using hsingle, rfl, ?_⟩
    simp only [replicaUrl, hentry, formUrl_single lts _ _ _ _ _ hsingle]
    simp [hsize, PutTile.url, xyToMetaXy, Except.toOption]

/-- The request for a position of a well-formed metatile. -/
theorem putRequest_eq {tile : TileProtocol} {metatile : Bytes} (wf : WellFormed tile.z metatile)
    {header : MetaLayout} (hmem : header ∈ readHeaders metatile fmtAll) (mime : String)
    (i : Fin 64) :
    lts.putRequest tile metatile header mime i =
      some (if inGrid tile.z i then
        [⟨lts.slotUrl tile .primary (header.fmt, i), mime, (header.index.get i).bytes metatile⟩]
      else []) := by
  have hentry : header.index.toList[(i : Nat)]? = some (header.index.get i) := by
    rw [List.getElem?_eq_getElem (by simp)]
    rfl
  have hsingle : header.fmt ∈ singleFormats := wf.single _ (List.mem_map_of_mem hmem)
  have hinside := wf.inside header hmem i
  simp only [putRequest, hentry, formUrl_single lts _ _ _ _ _ hsingle,
    bytesOf_of_inBounds (wf.inBounds header hmem i), Option.bind_eq_bind, Option.bind_some]
  by_cases hgrid : inGrid tile.z i = true
  · rw [if_neg (hinside.mpr hgrid), if_pos hgrid]
    rfl
  · rw [if_pos (not_not.mp fun hsize => hgrid (hinside.mp hsize)), if_neg hgrid]

/-- The requests of a header, one for each tile of the grid. -/
def headerRequests (tile : TileProtocol) (metatile : Bytes) (header : MetaLayout) (mime : String) :
    List PutRequest :=
  (List.finRange 64).flatMap fun i => if inGrid tile.z i then
    [⟨lts.slotUrl tile .primary (header.fmt, i), mime, (header.index.get i).bytes metatile⟩]
    else []

theorem mem_headerRequests {tile : TileProtocol} {metatile : Bytes} {header : MetaLayout}
    {mime : String} {r : PutRequest} :
    r ∈ lts.headerRequests tile metatile header mime ↔ ∃ i, inGrid tile.z i = true ∧
      r = ⟨lts.slotUrl tile .primary (header.fmt, i), mime, (header.index.get i).bytes metatile⟩ := by
  simp only [headerRequests, List.mem_flatMap]
  constructor
  · rintro ⟨i, _, hr⟩
    split at hr
    · next hgrid => exact ⟨i, hgrid, List.mem_singleton.mp hr⟩
    · cases hr
  · rintro ⟨i, hgrid, rfl⟩
    refine ⟨i, List.mem_finRange i, ?_⟩
    rw [if_pos hgrid]
    exact List.mem_singleton_self _

/-- The loop over the tiles of a header. -/
theorem putRequests_of_header {tile : TileProtocol} {metatile : Bytes}
    (wf : WellFormed tile.z metatile) {header : MetaLayout}
    (hmem : header ∈ readHeaders metatile fmtAll) :
    ∃ mime, mimeTypeFor header.fmt = .ok mime ∧
      ((mimeTypeFor header.fmt).toOption.bind fun mime =>
        (List.range header.count.toInt.toNat).flatMapM
          (lts.putRequest tile metatile header mime)) =
        some (lts.headerRequests tile metatile header mime) := by
  obtain ⟨mime, _, hmime, _⟩ :=
    fileTypeFor_single header.fmt (wf.single _ (List.mem_map_of_mem hmem))
  refine ⟨mime, hmime, ?_⟩
  have hrange : List.range header.count.toInt.toNat = (List.finRange 64).map Fin.val := by
    rw [wf.count header hmem]
    decide
  rw [hmime, hrange]
  refine Pieces.flatMapM_eq_some_iff.mpr ⟨fun n hn => ?_, ?_⟩
  · obtain ⟨i, _, rfl⟩ := List.mem_map.mp hn
    rw [putRequest_eq lts wf hmem, Option.isSome_some]
  · rw [List.flatMap_map]
    refine List.flatMap_congr fun i _ => ?_
    rw [putRequest_eq lts wf hmem, Option.getD_some]

/-- **The requests to put** a well-formed metatile are for the slots of its formats. -/
theorem mem_makePutRequests {tile : TileProtocol} {metatile : Bytes}
    (wf : WellFormed tile.z metatile) :
    ∃ requests, lts.makePutRequests tile metatile = some requests ∧
      ∀ r, r ∈ requests ↔ ∃ s ∈ gridSlots tile.z (formatsOf metatile), ∃ mime body,
        mimeTypeFor s.1 = .ok mime ∧ storedBody metatile s.1 s.2 = some body ∧
        r = ⟨lts.slotUrl tile .primary s, mime, body⟩ := by
  refine ⟨_, Pieces.flatMapM_eq_some_iff.mpr ⟨fun header hmem => ?_, rfl⟩, fun r => ?_⟩
  · obtain ⟨_, _, hrequests⟩ := lts.putRequests_of_header wf hmem
    exact Option.isSome_of_eq_some hrequests
  · rw [List.mem_flatMap]
    constructor
    · rintro ⟨header, hmem, hr⟩
      obtain ⟨mime, hmime, hrequests⟩ := lts.putRequests_of_header wf hmem
      simp only [Option.bind_eq_bind, hrequests, Option.getD_some, mem_headerRequests] at hr
      obtain ⟨i, hgrid, rfl⟩ := hr
      refine ⟨(header.fmt, i), mem_gridSlots.mpr ⟨List.mem_map_of_mem hmem, hgrid⟩, mime, _,
        hmime, ?_, rfl⟩
      rw [storedBody, headerFor_of_mem wf.distinct hmem, Option.map_some]
    · rintro ⟨⟨fmt, i⟩, hs, mime, body, hmime, hbody, rfl⟩
      obtain ⟨hfmt, hgrid⟩ := mem_gridSlots.mp hs
      obtain ⟨header, hmem, rfl⟩ := List.mem_map.mp hfmt
      obtain ⟨mime', hmime', hrequests⟩ := lts.putRequests_of_header wf hmem
      obtain rfl : mime = mime' := Except.ok.inj (hmime.symm.trans hmime')
      rw [storedBody, headerFor_of_mem wf.distinct hmem, Option.map_some] at hbody
      obtain rfl := Option.some.inj hbody
      refine ⟨header, hmem, ?_⟩
      simp only [Option.bind_eq_bind, hrequests, Option.getD_some, mem_headerRequests]
      exact ⟨i, hgrid, rfl⟩

end LtsStorage

end RenderMq
