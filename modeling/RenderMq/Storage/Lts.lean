import RenderMq.Lib.Writes
import RenderMq.Storage.Url

/-!
# The replicated tile store

`lts_storage`: a metatile is taken apart into its tiles, and each tile is posted to two hosts. A
metatile is fetched from the first copies, or else from the second ones, or else from whichever copy
is good of each tile. A single tile is fetched from its first copy, if there is one.

The storage nodes keep a body and a time for each copy and URL (`LtsStore`), and serve them
(`serve`). What becomes of a request on the way is an argument: of a POST (`PostOutcome`), of the GET
that expires a tile (`TouchOutcome`), and, where the nodes may do anything, of a GET (`Fetched`).

`none` stands for a call that throws or reads what is not there. The parts of a request that only
the log and the form's field names have are left out.
-/

namespace RenderMq

/-! ## The storage nodes -/

/-- What a node keeps of a tile. -/
structure StoredTile where
  body : Bytes
  timeStamp : Int
  deriving DecidableEq

abbrev LtsStore := Replica × String → Option StoredTile

/-- What a node answers to a GET. -/
def serve (store : LtsStore) (replica : Replica) (url : String) : Fetched :=
  match store (replica, url) with
  | some t => .ok { statusCode := 200, timeStamp := t.timeStamp, body := t.body }
  | none => .ok { statusCode := 404 }

/-- What becomes of a POST. One that fails may still have taken effect. -/
inductive PostOutcome where
  /-- 200 -/
  | stored
  /-- Any other status. -/
  | refused (applied : Bool)
  | threw (applied : Bool)
  deriving DecidableEq

def PostOutcome.applied : PostOutcome → Bool
  | .stored => true
  | .refused applied => applied
  | .threw applied => applied

/-- What becomes of a GET that sets the time of a tile. -/
structure TouchOutcome where
  applied : Bool
  threw : Bool

/-- One part of a form, and where it is posted to. -/
structure PutRequest where
  url : String
  mime : String
  data : Bytes
  deriving DecidableEq

/-- The nodes after some requests were sent to them, at a time that the headers say. -/
def received (store : LtsStore) (replica : Replica) (now : Int) (post : String → PostOutcome)
    (sent : List PutRequest) : LtsStore :=
  Writes.writeAll store
    ((sent.filter fun r => (post r.url).applied).map fun r => ((replica, r.url), ⟨r.data, now⟩))

/-- The nodes after the tiles of some URLs were expired. -/
def touched (store : LtsStore) (replica : Replica) (touch : String → TouchOutcome)
    (urls : List String) : LtsStore := fun k =>
  if k.1 = replica ∧ k.2 ∈ urls ∧ (touch k.2).applied then
    (store k).map fun t => { t with timeStamp := INVALID_TIMESTAMP }
  else store k

/-! ## What a node has received -/

section Received

variable {store : LtsStore} {replica : Replica} {now : Int} {post : String → PostOutcome}
  {sent : List PutRequest} {url : String}

/-- The other copies are untouched. -/
theorem received_other {other : Replica} (h : other ≠ replica) :
    received store replica now post sent (other, url) = store (other, url) := by
  refine Writes.writeAll_of_notMem (fun w hw hk => ?_) store
  obtain ⟨r, _, rfl⟩ := List.mem_map.mp hw
  exact h (congrArg Prod.fst hk).symm

/-- A tile is as before when no request for it took effect. -/
theorem received_none (h : ∀ r ∈ sent, r.url = url → (post url).applied = false) :
    received store replica now post sent (replica, url) = store (replica, url) := by
  refine Writes.writeAll_of_notMem (fun w hw hk => ?_) store
  obtain ⟨r, hr, rfl⟩ := List.mem_map.mp hw
  obtain ⟨hsent, happlied⟩ := List.mem_filter.mp hr
  obtain rfl : r.url = url := congrArg Prod.snd hk
  rw [h r hsent rfl] at happlied
  cases happlied

/-- A request that took effect, or another for the same tile, says what is there. -/
theorem received_some (store : LtsStore) (now : Int) (hsent : ∃ r ∈ sent, r.url = url)
    (happlied : (post url).applied = true) :
    ∃ r ∈ sent, r.url = url ∧
      received store replica now post sent (replica, url) = some ⟨r.data, now⟩ := by
  obtain ⟨r, hr, rfl⟩ := hsent
  have hwritten : ((replica, r.url), (⟨r.data, now⟩ : StoredTile)) ∈
      (sent.filter fun r => (post r.url).applied).map fun r => ((replica, r.url), ⟨r.data, now⟩) :=
    List.mem_map_of_mem (List.mem_filter.mpr ⟨hr, happlied⟩)
  obtain ⟨w, hw, hk, hvalue⟩ := Writes.writeAll_of_mem ⟨_, hwritten, rfl⟩ store
  obtain ⟨r', hr', rfl⟩ := List.mem_map.mp hw
  exact ⟨r', (List.mem_filter.mp hr').1, congrArg Prod.snd hk, hvalue⟩

end Received

namespace LtsStorage

variable (lts : LtsStorage)

/-! ## Putting -/

/-- The requests for the tile at position `i` of a header; none for an empty tile. -/
def putRequest (tile : TileProtocol) (metatile : Bytes) (header : MetaLayout) (mime : String)
    (i : Nat) : Option (List PutRequest) := do
  let coord := xyToMetaXy tile.x tile.y
  let entry ← header.index.toList[i]?
  if entry.size = 0#32 then some []
  else
    let url ← (lts.formUrl (coord.1 + (i % 8 : Nat)) (coord.2 + (i / 8 : Nat)) tile.z tile.style
      header.fmt .primary).toOption
    let data ← bytesOf metatile (entry.offset.signExtend 64).toNat (entry.size.signExtend 64).toNat
    some [⟨url, mime, data⟩]

/-- `make_put_requests`. -/
def makePutRequests (tile : TileProtocol) (metatile : Bytes) : Option (List PutRequest) :=
  (readHeaders metatile fmtAll).flatMapM fun header => do
    let mime ← (mimeTypeFor header.fmt).toOption
    (List.range header.count.toInt.toNat).flatMapM (lts.putRequest tile metatile header mime)

/-- The second copy's URL of the tile at position `i` of a header; none for an empty tile. -/
def replicaUrl (tile : TileProtocol) (header : MetaLayout) (i : Nat) : Option (List String) := do
  let coord := xyToMetaXy tile.x tile.y
  let entry ← header.index.toList[i]?
  if entry.size ≠ 0#32 then
    let url ← (lts.formUrl (coord.1 + (i % 8 : Nat)) (coord.2 + (i / 8 : Nat)) tile.z tile.style
      header.fmt .secondary).toOption
    some [url]
  else some []

/-- `make_replica_urls`. -/
def makeReplicaUrls (tile : TileProtocol) (metatile : Bytes) : Option (List String) :=
  (readHeaders metatile fmtAll).flatMapM fun header =>
    (List.range header.count.toInt.toNat).flatMapM (lts.replicaUrl tile header)

/-- `put_meta_serial`: the requests that are sent, and whether all went well. -/
def putMetaSerial (post : String → PostOutcome) : List PutRequest → List PutRequest × Bool
  | [] => ([], true)
  | request :: requests =>
    if post request.url = .stored then
      let (sent, ret) := putMetaSerial post requests
      (request :: sent, ret)
    else ([request], false)

/-- `put_meta_parallel`: all requests are sent. -/
def putMetaParallel (post : String → PostOutcome) (requests : List PutRequest) :
    List PutRequest × Bool :=
  (requests, requests.all fun r => decide (post r.url = .stored))

/-- One copy of all tiles. -/
def putCopy (post : String → PostOutcome) (requests : List PutRequest) : List PutRequest × Bool :=
  if lts.concurrency < 2 then putMetaSerial post requests else putMetaParallel post requests

/-- `make_get_urls`. -/
def makeGetUrls (tile : TileProtocol) (replica : Replica) : Option (List String) :=
  let coord := xyToMetaXy tile.x tile.y
  let dim := (getMetaDimensions tile.z).toNat
  (getFormatsVec tile.format).flatMapM fun fmt =>
    ((List.range dim).flatMap fun dy => (List.range dim).map fun dx => (dx, dy)).mapM
      fun d => (lts.formUrl (coord.1 + (d.1 : Nat)) (coord.2 + (d.2 : Nat)) tile.z tile.style
        fmt replica).toOption

/-- `expire`: the second copies are expired if no request for a first one throws. -/
def expire (touch : Replica → String → TouchOutcome) (tile : TileProtocol) (store : LtsStore) :
    Option (LtsStore × Bool) := do
  let primaryUrls ← lts.makeGetUrls tile .primary
  let replicaUrls ← lts.makeGetUrls tile .secondary
  let store := touched store .primary (touch .primary) primaryUrls
  if primaryUrls.any fun url => (touch .primary url).threw then some (store, false)
  else
    let store := touched store .secondary (touch .secondary) replicaUrls
    some (store, !replicaUrls.any fun url => (touch .secondary url).threw)

/-- `put_meta`. The requests for the second copies are those for the first with another URL. -/
def putMeta (post : Replica → String → PostOutcome) (touch : Replica → String → TouchOutcome)
    (tile : TileProtocol) (metatile : Bytes) (now : Int) (store : LtsStore) :
    Option (LtsStore × Bool) := do
  let requests ← lts.makePutRequests tile metatile
  let (sent, ret1) := lts.putCopy (post .primary) requests
  let store := received store .primary now (post .primary) sent
  let secondaryUrls ← lts.makeReplicaUrls tile metatile
  let requests := List.zipWith (fun r url => { r with url := url }) requests secondaryUrls
  let (sent, ret2) := lts.putCopy (post .secondary) requests
  let store := received store .secondary now (post .secondary) sent
  if !ret1 && !ret2 then
    let (store, _) ← lts.expire touch tile store
    some (store, false)
  else some (store, true)

/-! ## Getting -/

/-- What `get_meta` comes to. -/
inductive GetMeta where
  /-- It reads a response that is not there. -/
  | pastEnd
  | failed
  | got (metatile : Bytes)

/-- One copy of all tiles. -/
def getCopy (get : String → Fetched) (requests : List String) : Bool × List Response :=
  if lts.concurrency < 2 then getMetaSerial get requests else getMetaParallel get requests

/-- The walk over two lists of responses: `none` where the second has ended and is read, and
`some none` where neither response is good. -/
def combine : List Response → List Response → Option (Option (List Response))
  | [], _ => some (some [])
  | response0 :: responses0, responses1 =>
    if response0.good then
      (combine responses0 responses1.tail).map fun rest => rest.map (response0 :: ·)
    else
      match responses1 with
      | [] => none
      | response1 :: responses1 =>
        if response1.good then
          (combine responses0 responses1).map fun rest => rest.map (response1 :: ·)
        else some none

/-- The end of `get_meta` that has responses to put together. -/
def madeOf (tile : TileProtocol) (responses : List Response) : GetMeta :=
  match makeMetatile tile responses with
  | some metatile => .got metatile
  | none => .pastEnd

/-- `get_meta`. -/
def getMeta (fetch : Replica → String → Fetched) (tile : TileProtocol) : Option GetMeta := do
  let requests ← lts.makeGetUrls tile .primary
  let (ret0, responses0) := lts.getCopy (fetch .primary) requests
  if ret0 = false then
    let requests ← lts.makeGetUrls tile .secondary
    let (ret1, responses1) := lts.getCopy (fetch .secondary) requests
    if ret1 = false then
      match combine responses0 responses1 with
      | none => some .pastEnd
      | some none => some .failed
      | some (some responsesCombined) => some (madeOf tile responsesCombined)
    else some (madeOf tile responses1)
  else some (madeOf tile responses0)

/-- `m_hosts_down`: until when a host is not asked. -/
abbrev HostsDown := String × Int → Option Int

/-- `is_host_down`. -/
def isHostDown (down : HostsDown) (host : String × Int) (now : Int) : Bool × HostsDown :=
  match down host with
  | some recheckTime =>
    if now > recheckTime then (false, Function.update down host none) else (true, down)
  | none => (false, down)

/-- `host_is_down`. -/
def hostIsDown (down : HostsDown) (host : String × Int) (now : Int) : HostsDown :=
  Function.update down host (some (now + lts.downRecheckTime))

/-- `attempt_get_host`. -/
def attemptGetHost (fetch : Replica → String → Fetched) (down : HostsDown) (tile : TileProtocol)
    (replica : Replica) (now : Int) : Option Response × HostsDown :=
  let hashedHost := lts.hashedHost tile.x tile.y tile.z replica
  match isHostDown down hashedHost now with
  | (true, down) => (none, down)
  | (false, down) =>
    match lts.formUrl tile.x tile.y tile.z tile.style tile.format replica >>= fetch replica with
    | .ok response => (if response.statusCode = 200 then some response else none, down)
    | .error _ => (none, lts.hostIsDown down hashedHost now)

/-- `get`: the response that the handle is made of. -/
def get (fetch : Replica → String → Fetched) (down : HostsDown) (tile : TileProtocol) (now : Int) :
    Response × HostsDown :=
  match lts.attemptGetHost fetch down tile .primary now with
  | (some response, down) => (response, down)
  | (none, down) =>
    match lts.attemptGetHost fetch down tile .secondary now with
    | (some response, down) => (response, down)
    | (none, down) => ({}, down)

end LtsStorage

end RenderMq
