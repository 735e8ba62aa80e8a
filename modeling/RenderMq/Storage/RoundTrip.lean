import RenderMq.Storage.Requests

/-!
# The round trip of a metatile

A metatile that was put is got back, tile by tile, in any formats that it has
(`get_meta_returns_what_was_put`). The metatile that comes back is put together anew
(`getMeta_putMeta`): its headers count offsets in an `int`, so this holds of metatiles of less than
2^31 bytes. The tiles of a metatile need not lie side by side in the buffer that is put, so the one
that comes back may be the longer one: `shared` is a small buffer whose tiles are all at one place.
-/

namespace RenderMq

namespace LtsStorage

variable (lts : LtsStorage)

/-! ## When all goes well -/

theorem putCopy_stored {post : String → PostOutcome} (stored : ∀ url, post url = .stored)
    (requests : List PutRequest) : lts.putCopy post requests = (requests, true) := by
  have hserial : putMetaSerial post requests = (requests, true) := by
    induction requests with
    | nil => rfl
    | cons request requests ih => rw [putMetaSerial, if_pos (stored _), ih]
  unfold putCopy
  split
  · exact hserial
  · simp [putMetaParallel, stored]

theorem getCopy_good {α : Type} {get : String → Fetched} {url : α → String} {g : α → Response}
    {slots : List α} (good : ∀ s ∈ slots, get (url s) = .ok (g s) ∧ (g s).good = true) :
    lts.getCopy get (slots.map url) = (true, slots.map g) := by
  have hserial : getMetaSerial get (slots.map url) = (true, slots.map g) := by
    induction slots with
    | nil => rfl
    | cons s slots ih =>
      obtain ⟨hget, hgood⟩ := good s List.mem_cons_self
      simp only [List.map_cons, getMetaSerial, hget, hgood, if_true,
        ih fun t ht => good t (List.mem_cons_of_mem s ht)]
  have hparallel : multiGet get (slots.map url) = .ok (slots.map g) := by
    rw [multiGet, List.mapM_map]
    exact Pieces.mapM_eq_pure fun s hs => (good s hs).1
  unfold getCopy
  split
  · exact hserial
  · rw [getMetaParallel, hparallel]
    have hall : (slots.map g).all Response.good = true := by
      rw [List.all_map, List.all_eq_true]
      exact fun s hs => (good s hs).2
    dsimp only
    rw [hall]

/-! ## Put and get -/

/-- Two tiles in one metatile. -/
structure SameMetatile (tile query : TileProtocol) : Prop where
  x : metaFloor query.x = metaFloor tile.x
  y : metaFloor query.y = metaFloor tile.y
  z : query.z = tile.z
  style : query.style = tile.style

theorem slotUrl_congr {tile query : TileProtocol} (same : SameMetatile tile query)
    (replica : Replica) (s : Slot) : lts.slotUrl query replica s = lts.slotUrl tile replica s := by
  rw [slotUrl, slotUrl, same.x, same.y, same.z, same.style]

/-- **Put.** When every request goes well, the nodes have the first copy of every tile. -/
theorem putMeta_stored {post : Replica → String → PostOutcome}
    (stored : ∀ replica url, post replica url = .stored)
    (touch : Replica → String → TouchOutcome) {tile : TileProtocol} {metatile : Bytes}
    (wf : WellFormed tile.z metatile) (now : Int) (store : LtsStore) :
    ∃ store', lts.putMeta post touch tile metatile now store = some (store', true) ∧
      ∀ s ∈ gridSlots tile.z (formatsOf metatile), ∃ body,
        storedBody metatile s.1 s.2 = some body ∧
        store' (.primary, lts.slotUrl tile .primary s) = some ⟨body, now⟩ := by
  obtain ⟨requests, hrequests, hmem⟩ := lts.mem_makePutRequests wf
  obtain ⟨tiles, _, _, hurls⟩ := lts.putTiles_together hrequests
  simp only [putMeta, hrequests, hurls, putCopy_stored lts (stored _), Option.bind_eq_bind,
    Option.bind_some, Bool.not_true, Bool.false_and, Bool.false_eq_true, if_false]
  refine ⟨_, rfl, fun s hs => ?_⟩
  obtain ⟨hfmt, _⟩ := mem_gridSlots.mp hs
  obtain ⟨mime, _, hmime, _⟩ := fileTypeFor_single s.1 (wf.single _ hfmt)
  obtain ⟨header, hheader, hheaderFmt⟩ := List.mem_map.mp hfmt
  have hbody : storedBody metatile s.1 s.2 = some ((header.index.get s.2).bytes metatile) := by
    rw [storedBody, ← hheaderFmt, headerFor_of_mem wf.distinct hheader, Option.map_some]
  refine ⟨_, hbody, ?_⟩
  rw [received_other (by decide)]
  have hsent : ∃ r ∈ requests, r.url = lts.slotUrl tile .primary s :=
    ⟨_, (hmem _).mpr ⟨s, hs, mime, _, hmime, hbody, rfl⟩, rfl⟩
  obtain ⟨r, hr, hurl, hvalue⟩ := received_some store now hsent
    (show (post .primary (lts.slotUrl tile .primary s)).applied = true by rw [stored]; rfl)
  rw [hvalue]
  -- no other tile of the metatile has this URL
  obtain ⟨s', hs', _, body', _, hbody', rfl⟩ := (hmem r).mp hr
  obtain rfl : s' = s := by
    refine lts.slotUrl_inj (wf.single _ (mem_gridSlots.mp hs').1) (wf.single _ hfmt) hurl
  rw [hbody] at hbody'
  rw [Option.some.inj hbody']

/-- The tiles of a buffer. -/
def tilesOf (metatile : Bytes) (s : Slot) : Bytes := (storedBody metatile s.1 s.2).getD []

/-- **Put, then get.** The tiles that were put are put together again. -/
theorem getMeta_putMeta {post : Replica → String → PostOutcome}
    (stored : ∀ replica url, post replica url = .stored)
    (touch : Replica → String → TouchOutcome) {tile query : TileProtocol} {metatile : Bytes}
    (wf : WellFormed tile.z metatile) (same : SameMetatile tile query)
    (mask : ∀ fmt ∈ getFormatsVec query.format, fmt ∈ formatsOf metatile) {now : Int}
    (valid : now ≠ INVALID_TIMESTAMP) (store : LtsStore) :
    ∃ store', lts.putMeta post touch tile metatile now store = some (store', true) ∧
      lts.getMeta (serve store') query = some (.got (metatileOf query (tilesOf metatile))) := by
  obtain ⟨store', hput, hstored⟩ := lts.putMeta_stored stored touch wf now store
  refine ⟨store', hput, ?_⟩
  let response (s : Slot) : Response :=
    { statusCode := 200, timeStamp := now, body := tilesOf metatile s }
  have hgood : ∀ s ∈ metaSlots query,
      serve store' .primary (lts.slotUrl query .primary s) = .ok (response s) ∧
        (response s).good = true := by
    intro s hs
    obtain ⟨hfmt, hgrid⟩ := mem_gridSlots.mp hs
    rw [same.z] at hgrid
    obtain ⟨body, hbody, hvalue⟩ := hstored s (mem_gridSlots.mpr ⟨mask _ hfmt, hgrid⟩)
    constructor
    · simp only [serve, lts.slotUrl_congr same, hvalue, response, tilesOf, hbody,
        Option.getD_some]
    · simp [Response.good, response, valid]
  simp only [getMeta, makeGetUrls_eq, getCopy_good lts hgood, Option.bind_eq_bind,
    Option.bind_some, Bool.true_eq_false, if_false, madeOf, makeMetatile_slots]
  rfl

/-- How long the metatile is that has some formats of a buffer. -/
def metatileSize (z : Int) (formats : List ProtoFmt) (metatile : Bytes) : Nat :=
  formats.length * headerSize +
    ((gridSlots z formats).map fun s => (tilesOf metatile s).length).sum

/-- **The round trip.** When all requests to put a metatile go well, it is got back in any formats that
it has: each tile of the grid is read as it was. And the requests and the URLs of the second copies are
as many, each two for one tile.

It is assumed that every POST takes effect, that the metatile is well formed at a zoom from 0 to 30,
that what is put together again has less than 2^31 bytes, and that the time is a valid one. What the
hosts had before is any, and the requests for the second copies may fail. A put of which some requests
fail is not covered. -/
theorem get_meta_returns_what_was_put {post : Replica → String → PostOutcome}
    (stored : ∀ replica url, post replica url = .stored)
    (touch : Replica → String → TouchOutcome) {tile query : TileProtocol} {metatile : Bytes}
    (zoom : 0 ≤ tile.z ∧ tile.z ≤ 30) (wf : WellFormed tile.z metatile)
    (same : SameMetatile tile query)
    (mask : ∀ fmt ∈ getFormatsVec query.format, fmt ∈ formatsOf metatile)
    (small : metatileSize tile.z (getFormatsVec query.format) metatile < 2 ^ 31) {now : Int}
    (valid : now ≠ INVALID_TIMESTAMP) (store : LtsStore) :
    (∃ store' result, lts.putMeta post touch tile metatile now store = some (store', true) ∧
      lts.getMeta (serve store') query = some (.got result) ∧
      ∀ fmt ∈ getFormatsVec query.format, ∀ x y : Int,
        0 ≤ x ∧ x < 2 ^ tile.z.toNat → 0 ≤ y ∧ y < 2 ^ tile.z.toNat → ∃ body,
          storedBody metatile fmt (tileIndex x y) = some body ∧
          (metatileReader metatile fmt).get x y = some body ∧
          (metatileReader result fmt).get x y = some body) ∧
    ∃ tiles : List PutTile,
      lts.makePutRequests tile metatile =
        some (tiles.map (PutTile.request lts tile .primary)) ∧
      lts.makeReplicaUrls tile metatile = some (tiles.map (PutTile.url lts tile .secondary)) := by
  constructor
  · obtain ⟨store', hput, hget⟩ :=
      lts.getMeta_putMeta stored touch wf same mask valid store
    refine ⟨store', _, hput, hget, fun fmt hfmt x y hx hy => ?_⟩
    obtain ⟨body, hbody, hread, _⟩ := wf.get (mask fmt hfmt) x y
    have hgrid : inGrid query.z (tileIndex x y) = true := by
      rw [same.z]
      exact inGrid_of_world zoom hx hy
    have hsmall : (metatileOf query (tilesOf metatile)).length < 2 ^ 31 := by
      rw [length_metatileOf, metaSlots, same.z]
      exact small
    refine ⟨body, hbody, hread, ?_⟩
    rw [get_metatileOf hfmt hsmall hgrid, tilesOf, hbody, Option.getD_some]
  · obtain ⟨requests, hrequests, _⟩ := lts.mem_makePutRequests wf
    obtain ⟨tiles, _, rfl, hurls⟩ := lts.putTiles_together hrequests
    exact ⟨tiles, hrequests, hurls⟩

/-! ## Tiles at one place -/

/-- The header of a buffer whose 64 tiles are all at one place behind it. -/
def sharedHeader (tile : Bytes) : MetaLayout where
  magic := META_MAGIC
  count := 64#32
  x := 0#32
  y := 0#32
  z := 3#32
  fmt := fmtPNG
  index := .replicate 64 ⟨536#32, .ofNat 32 tile.length⟩

/-- A metatile of 64 tiles that are the same. -/
def shared (tile : Bytes) : Bytes := (sharedHeader tile).encode ++ tile

theorem length_shared (tile : Bytes) : (shared tile).length = headerSize + tile.length := by
  rw [shared, List.length_append, MetaLayout.length_encode]

theorem readHeaders_shared {tile : Bytes} (quiet : Quiet tile) :
    readHeaders (shared tile) fmtAll = [sharedHeader tile] := by
  have hone : shared tile = [sharedHeader tile].flatMap MetaLayout.encode ++ tile := by
    rw [List.flatMap_singleton, shared]
  rw [hone, readHeaders_encode, readHeaders_quiet quiet, List.append_nil]
  intro h hmem
  obtain rfl := List.mem_singleton.mp hmem
  have hmask : (sharedHeader tile).fmt &&& fmtAll ≠ 0#32 := looksLike_fmtAll List.mem_cons_self
  simp [MetaLayout.looksLike, MetaLayout.magicOk, hmask]
  rfl

theorem sharedHeader_entry (tile : Bytes) (i : Fin 64) :
    (sharedHeader tile).index.get i = ⟨.ofNat 32 headerSize, .ofNat 32 tile.length⟩ :=
  Vector.getElem_replicate i.isLt

theorem shared_entry {tile : Bytes} (small : (shared tile).length < 2 ^ 31) (i : Fin 64) :
    ((sharedHeader tile).index.get i).InBounds (shared tile) ∧
      ((sharedHeader tile).index.get i).bytes (shared tile) = tile := by
  rw [sharedHeader_entry]
  obtain ⟨hbounds, hbytes⟩ := entry_ofNat (lt_of_le_of_lt (length_shared tile).ge small) (length_shared tile).ge
  refine ⟨hbounds, hbytes.trans ?_⟩
  rw [shared, ← MetaLayout.length_encode (sharedHeader tile), List.drop_left, List.take_length]

theorem wellFormed_shared {tile : Bytes} (quiet : Quiet tile) (filled : tile ≠ [])
    (small : (shared tile).length < 2 ^ 31) : WellFormed 3 (shared tile) := by
  have hscan := readHeaders_shared quiet
  have hformats : formatsOf (shared tile) = [fmtPNG] := by
    rw [formatsOf, hscan]
    rfl
  refine ⟨?_, ?_, ?_, ?_, ?_⟩
  · rw [hformats]
    exact List.nodup_singleton _
  · rw [hformats, List.forall_mem_singleton]
    exact List.mem_cons_self
  all_goals
    rw [hscan]
    intro h hmem
    obtain rfl := List.mem_singleton.mp hmem
  · rfl
  · exact fun i => (shared_entry small i).1
  · intro i
    obtain ⟨hbounds, hbytes⟩ := shared_entry small i
    have hinside : ∀ i, inGrid 3 i = true := by decide
    rw [← bytes_ne_nil_iff hbounds, hbytes]
    exact iff_of_true filled (hinside i)

theorem tilesOf_shared {tile : Bytes} (quiet : Quiet tile) (small : (shared tile).length < 2 ^ 31)
    (i : Fin 64) : tilesOf (shared tile) (fmtPNG, i) = tile := by
  have hfind : headerFor (shared tile) fmtPNG = some (sharedHeader tile) := by
    rw [headerFor, readHeaders_shared quiet]
    rfl
  rw [tilesOf, storedBody, hfind, Option.map_some, Option.getD_some, (shared_entry small i).2]

/-- With 64 tiles of 2^26 bytes, the 33rd starts beyond what an `int` counts, and is not found. -/
theorem get_shared {tile : Bytes} (quiet : Quiet tile) (hlength : tile.length = 2 ^ 26) :
    (metatileReader (metatileOf { z := 3 } (tilesOf (shared tile))) fmtPNG).get 0 4 = some [] := by
  have hsmall : (shared tile).length < 2 ^ 31 := by
    rw [length_shared, hlength]
    decide
  have hformats : getFormatsVec fmtPNG = [fmtPNG] := by decide
  have hinside : ∀ i, inGrid 3 i = true := by decide
  have hbodies : (bodiesOf [fmtPNG] fun fmt i =>
      if inGrid 3 i then tilesOf (shared tile) (fmt, i) else []) = List.replicate 64 tile := by
    rw [bodiesOf, List.flatMap_singleton]
    simp only [hinside, if_true, tilesOf_shared quiet hsmall, List.map_const', List.length_finRange]
  rw [metatileOf, hformats, hbodies]
  obtain ⟨h, hmem, hfmt, body, hbody, hentry⟩ := headersOf_entry (x := metaFloor 0)
    (y := metaFloor 0) (z := 3) (show (List.replicate 64 tile).length = [fmtPNG].length * 64 by simp)
    (show [fmtPNG][0]? = some fmtPNG from rfl) (tileIndex 0 4)
  have hfound := header_written (List.nodup_singleton fmtPNG) hmem
  have hindex : 64 * 0 + ((tileIndex 0 4 : Fin 64) : Nat) = 32 := by decide
  rw [hfmt] at hfound
  rw [hindex] at hbody hentry
  obtain rfl : tile = body := by simpa using hbody
  have hbefore : ((List.replicate 64 tile).take 32).flatten.length = 2 ^ 31 := by
    rw [List.take_replicate, List.length_flatten, List.map_replicate, List.sum_replicate, hlength]
    rfl
  have hsize : (written (metaFloor 0) (metaFloor 0) 3 [fmtPNG] (List.replicate 64 tile)).length =
      headerSize + 2 ^ 32 := by
    rw [length_written, List.length_flatten, List.map_replicate, List.sum_replicate, hlength]
    rfl
  rw [hbefore, hlength] at hentry
  simp only [MetatileReader.get, hfound, hentry]
  rw [if_neg]
  rw [metatileReader, hsize]
  decide

/-! ## Runs -/

/-- Two hosts, of which the first has the first copies. -/
def twoHosts : LtsStorage where
  hosts := [("first", 5050), ("second", 5050)]
  serverByKey := fun _ => 0
  appName := "mq"
  version := "0"

theorem metatileSize_shared {tile : Bytes} (quiet : Quiet tile)
    (small : (shared tile).length < 2 ^ 31) :
    metatileSize 3 [fmtPNG] (shared tile) = headerSize + 64 * tile.length := by
  have hcount : (gridSlots 3 [fmtPNG]).length = 64 := by decide
  have hsame : ∀ s ∈ gridSlots 3 [fmtPNG], (tilesOf (shared tile) s).length = tile.length := by
    rintro ⟨fmt, i⟩ hs
    obtain rfl := List.mem_singleton.mp (mem_gridSlots.mp hs).1
    rw [tilesOf_shared quiet small]
  rw [metatileSize, List.map_congr_left hsame, List.map_const', List.sum_replicate, hcount]
  rfl

/-- 64 tiles of three bytes are put and got back. -/
theorem shared_tiles_come_back :
    let tile : Bytes := [1, 2, 3]
    let query : TileProtocol := { z := 3 }
    ∃ store' result,
      twoHosts.putMeta (fun _ _ => .stored) (fun _ _ => ⟨true, false⟩) query (shared tile)
        1300000000 (fun _ => none) = some (store', true) ∧
      twoHosts.getMeta (serve store') query = some (.got result) ∧
      (metatileReader result fmtPNG).get 0 4 = some tile := by
  intro tile query
  have quiet : Quiet tile := quiet_of_short (by decide)
  have hsmall : (shared tile).length < 2 ^ 31 := by
    rw [length_shared]
    decide
  have hquery : getFormatsVec query.format = [fmtPNG] := by decide
  have hformats : formatsOf (shared tile) = [fmtPNG] := by
    rw [formatsOf, readHeaders_shared quiet]
    rfl
  have mask : ∀ fmt ∈ getFormatsVec query.format, fmt ∈ formatsOf (shared tile) := by
    rw [hformats, hquery]
    exact fun fmt => id
  have size : metatileSize query.z (getFormatsVec query.format) (shared tile) < 2 ^ 31 := by
    rw [hquery, metatileSize_shared quiet hsmall]
    decide
  obtain ⟨⟨store', result, hput, hget, hread⟩, _⟩ :=
    twoHosts.get_meta_returns_what_was_put (fun _ _ => rfl)
      (fun _ _ => ⟨true, false⟩) (by decide)
      (wellFormed_shared quiet (by decide) hsmall) ⟨rfl, rfl, rfl, rfl⟩ mask size
      (show (1300000000 : Int) ≠ INVALID_TIMESTAMP by decide) fun _ => none
  refine ⟨store', result, hput, hget, ?_⟩
  obtain ⟨body, hbody, _, hsame⟩ :=
    hread fmtPNG (by rw [hquery]; exact List.mem_cons_self) 0 4 (by decide) (by decide)
  have htile := tilesOf_shared quiet hsmall (tileIndex 0 4)
  rw [tilesOf, hbody, Option.getD_some] at htile
  rw [hsame, htile]

/-- 64 tiles at one place are put, and all requests go well; a tile that is got back is empty. -/
theorem shared_tiles_come_back_empty :
    let tile : Bytes := List.replicate (2 ^ 26) 0
    let query : TileProtocol := { z := 3 }
    WellFormed 3 (shared tile) ∧
    (∀ fmt ∈ getFormatsVec query.format, fmt ∈ formatsOf (shared tile)) ∧
    ∃ store' result,
      twoHosts.putMeta (fun _ _ => .stored) (fun _ _ => ⟨true, false⟩) query (shared tile)
        1300000000 (fun _ => none) = some (store', true) ∧
      twoHosts.getMeta (serve store') query = some (.got result) ∧
      storedBody (shared tile) fmtPNG (tileIndex 0 4) = some tile ∧ tile ≠ [] ∧
      (metatileReader result fmtPNG).get 0 4 = some [] := by
  intro tile query
  have hlength : tile.length = 2 ^ 26 := List.length_replicate ..
  have quiet : Quiet tile := quiet_replicate _
  have filled : tile ≠ [] := List.ne_nil_of_length_pos (by rw [hlength]; decide)
  have hsmall : (shared tile).length < 2 ^ 31 := by
    rw [length_shared, hlength]
    decide
  have wf := wellFormed_shared quiet filled hsmall
  have hformats : formatsOf (shared tile) = [fmtPNG] := by
    rw [formatsOf, readHeaders_shared quiet]
    rfl
  have mask : ∀ fmt ∈ getFormatsVec query.format, fmt ∈ formatsOf (shared tile) := by
    have hquery : getFormatsVec query.format = [fmtPNG] := by decide
    rw [hformats, hquery]
    exact fun fmt => id
  refine ⟨wf, mask, ?_⟩
  obtain ⟨store', hput, hget⟩ := twoHosts.getMeta_putMeta (fun _ _ => rfl) (fun _ _ => ⟨true, false⟩)
    wf ⟨rfl, rfl, rfl, rfl⟩ mask (show (1300000000 : Int) ≠ INVALID_TIMESTAMP by decide)
    fun _ => none
  obtain ⟨body, hbody, _⟩ := wf.get (hformats ▸ List.mem_singleton_self fmtPNG) 0 4
  have htile := tilesOf_shared quiet hsmall (tileIndex 0 4)
  rw [tilesOf, hbody, Option.getD_some] at htile
  exact ⟨store', _, hput, hget, hbody.trans (congrArg some htile), filled,
    get_shared quiet hlength⟩

end LtsStorage

end RenderMq
