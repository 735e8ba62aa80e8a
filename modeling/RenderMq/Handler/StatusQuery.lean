import RenderMq.Handler.Outcome
import RenderMq.Handler.StorageWorker

/-!
# Status queries

A client may ask for the status of a tile instead of the tile. The command travels in the field that
the storage thread overwrites with the outcome, and `handle_tile` leaves it alone, so that the handler
knows the query for what it is.

Where the storage throws, `thread_func` does overwrite it, and the handler takes the query for a
request whose tile is missing. `status_query_iff` says when a status query is answered as it should be
and renders nothing.
-/

namespace RenderMq

namespace TileHandler

open HandlerBackend (inBackground inForeground)

/-- A request for the status, as it is parsed: into a new `tile_protocol`. -/
structure IsStatusQuery (tile : TileProtocol) : Prop where
  command : tile.status = .cmdStatus
  lastModified : tile.lastModified = 0
  data : tile.data = []

/-- What the storage says of a tile when it is asked for its status: the data and the time, if the
tile is there; or it throws. -/
def lookUp (storage : StorageCalls) (tile : TileProtocol) : Except String (Option (Bytes × Int)) := do
  let handle ← storage.get tile
  if ← handle.found then
    let data ← handle.data
    let time ← handle.lastModified
    return some (data, time)
  else return none

/-- The reply that says so. -/
def statusReply : Option (Bytes × Int) → HandlerReply
  | some (data, time) =>
    if time > 0 then .lastModified time
    else if data.length > 0 then .text "Tile marked as dirty."
    else .notFound
  | none => .notFound

def IsErrorReply : HandlerReply → Prop
  | .notFound | .serverError | .unavailable => True
  | _ => False

/-- The client is told the status, or an error where the storage throws, and nothing is rendered. -/
def StatusAnswered (storage : StorageCalls) (tile : TileProtocol) : Except String Outcome → Prop
  | .ok o =>
    o.jobs = [] ∧ ∃ reply, o.replies = [(tile.id, reply)] ∧
      match lookUp storage tile with
      | .ok status => reply = statusReply status
      | .error _ => IsErrorReply reply
  | .error _ => False

/-- The path of a query: through a storage thread, and back to the handler. -/
def answerQuery (th : Thresholds) (length again : Nat) (taken : Except String Unit)
    (dirtyList : DirtyList) (storage : StorageCalls) (tile : TileProtocol) :
    Except String Outcome :=
  handleResponseFromStorage th length again (fun _ => taken) (threadReply dirtyList storage tile)

/-- The status of a query is left alone. -/
theorem presentStatus_query {tile : TileProtocol} (hquery : tile.status = .cmdStatus)
    (handle : StorageHandle) : presentStatus tile handle = .ok tile.status := by
  unfold presentStatus
  rw [if_neg (not_not_intro hquery)]
  rfl

/-- A query comes back with what the storage has; but where the storage throws, as a missing tile. -/
theorem threadReply_query {storage : StorageCalls} {tile : TileProtocol}
    (hquery : tile.status = .cmdStatus) (dirtyList : DirtyList) :
    match lookUp storage tile with
    | .ok (some (data, time)) =>
      threadReply dirtyList storage tile = { tile with data := data, lastModified := time }
    | .ok none => threadReply dirtyList storage tile = tile
    | .error _ => (threadReply dirtyList storage tile).status = .cmdNotDone := by
  have hdirty : tile.status ≠ .cmdDirty := by
    rw [hquery]
    decide
  have hkeep : (if tile.status ≠ .cmdStatus then .cmdNotDone else tile.status) = tile.status :=
    if_neg (not_not_intro hquery)
  unfold threadReply handleTile lookUp
  rw [if_neg hdirty]
  cases storage.get tile with
  | error e => rfl
  | ok handle =>
    simp only [presentStatus_query hquery, hkeep]
    obtain ⟨found, expired, data, lastModified⟩ := handle
    cases found with
    | error e => rfl
    | ok present =>
      cases present with
      | false => rfl
      | true =>
        cases data with
        | error e => rfl
        | ok data =>
          cases lastModified with
          | error e => rfl
          | ok time => rfl

/-- What the handler answers to a query that comes back as such. -/
theorem handleResponse_status (th : Thresholds) (length again : Nat) (putJob : PutJob)
    {tile : TileProtocol} (hstatus : tile.status = .cmdStatus) :
    handleResponseFromStorage th length again putJob tile =
      .ok { replies := [(tile.id, statusReply (some (tile.data, tile.lastModified)))] } := by
  simp only [handleResponseFromStorage, hstatus, statusReply]
  split
  · rfl
  · split <;> rfl

/-- What the handler does with a query that comes back as a missing tile. -/
theorem statusAnswered_of_error {storage : StorageCalls} {tile reply : TileProtocol} {e : String}
    (hthrows : lookUp storage tile = .error e) (hstatus : reply.status = .cmdNotDone)
    (hid : reply.id = tile.id) (th : Thresholds) (length again : Nat)
    (taken : Except String Unit) :
    StatusAnswered storage tile
        (handleResponseFromStorage th length again (fun _ => taken) reply) ↔
      length ≥ th.max ∨ again < th.satisfy ∧ (∃ e, taken = .error e) ∧ tile.id > 0 := by
  have hanswered : ∀ o : Outcome, StatusAnswered storage tile (.ok o) ↔
      o.jobs = [] ∧ ∃ r, o.replies = [(tile.id, r)] ∧ IsErrorReply r := by
    intro o
    simp only [StatusAnswered, hthrows]
  simp only [handleResponseFromStorage, hstatus]
  by_cases hfull : length ≥ th.max
  · rw [if_pos hfull, hanswered]
    exact iff_of_true ⟨rfl, .unavailable, by rw [hid], trivial⟩ (.inl hfull)
  rw [if_neg hfull]
  by_cases hbusy : again ≥ th.satisfy
  · -- the client is told to come back for a tile that it has not asked for
    rw [if_pos hbusy, hanswered, andInBackground_replies]
    refine iff_of_false ?_ fun h => h.elim hfull fun h => absurd h.1 (Nat.not_lt.mpr hbusy)
    rintro ⟨-, r, hreplies, herror⟩
    obtain rfl := (Prod.mk.inj (List.head_eq_of_cons_eq hreplies)).2
    exact herror
  · rw [if_neg hbusy, hanswered]
    have hsame : (inForeground reply).id = tile.id := hid
    unfold sendToQueue
    cases taken with
    | ok u =>
      refine iff_of_false (fun h => absurd h.1 (List.cons_ne_nil _ _)) ?_
      rintro (h | ⟨-, ⟨e, he⟩, -⟩)
      · exact hfull h
      · cases he
    | error e =>
      simp only [hsame]
      by_cases hpos : tile.id > 0
      · rw [if_pos hpos]
        exact iff_of_true ⟨trivial, .notFound, rfl, trivial⟩
          (.inr ⟨Nat.not_le.mp hbusy, ⟨e, rfl⟩, hpos⟩)
      · rw [if_neg hpos]
        refine iff_of_false ?_ fun h => h.elim hfull fun h => hpos h.2.2
        rintro ⟨-, r, hreplies, -⟩
        exact absurd hreplies.symm (List.cons_ne_nil _ _)

/-- A status query is answered and renders nothing, exactly where the storage does not throw, or the
queue is too long, or it refuses the job of a client other than 0.

The storage may throw at each of its calls, the queue may refuse a job, and its length may change
between the two times that it is asked for. The path is that of one query, through a storage thread and
back to the handler; that a thread takes it is assumed. -/
theorem status_query_iff (th : Thresholds) (length again : Nat) (taken : Except String Unit)
    (dirtyList : DirtyList) (storage : StorageCalls) {tile : TileProtocol}
    (hquery : IsStatusQuery tile) :
    StatusAnswered storage tile (answerQuery th length again taken dirtyList storage tile) ↔
      (∃ status, lookUp storage tile = .ok status) ∨ length ≥ th.max ∨
        again < th.satisfy ∧ (∃ e, taken = .error e) ∧ tile.id > 0 := by
  have hreply := @threadReply_query storage tile hquery.command dirtyList
  unfold answerQuery
  cases hlookUp : lookUp storage tile with
  | ok status =>
    rw [hlookUp] at hreply
    refine iff_of_true ?_ (.inl ⟨status, rfl⟩)
    cases status with
    | none =>
      simp only at hreply
      rw [hreply, handleResponse_status _ _ _ _ hquery.command, hquery.lastModified, hquery.data]
      exact ⟨rfl, .notFound, rfl, by rw [hlookUp]; rfl⟩
    | some p =>
      simp only at hreply
      rw [hreply, handleResponse_status _ _ _ _ (by exact hquery.command)]
      exact ⟨rfl, _, rfl, by rw [hlookUp]⟩
  | error e =>
    rw [hlookUp] at hreply
    rw [statusAnswered_of_error hlookUp hreply (threadReply_same dirtyList storage tile).id]
    simp

/-- The status of a tile, asked for while the storage is down. -/
theorem status_query_renders :
    ¬ StatusAnswered StorageWorker.throwingStorage { status := .cmdStatus }
      (answerQuery exampleThresholds 0 0 (.ok ()) (fun _ => none) StorageWorker.throwingStorage
        { status := .cmdStatus }) := by
  rintro ⟨hjobs, -⟩
  exact absurd hjobs (List.cons_ne_nil _ _)

/-- A storage without the tile. -/
def emptyStorage : StorageCalls where
  get := fun _ => .ok ⟨.ok false, .ok false, .ok [], .ok 0⟩
  expire := fun _ => .ok true

/-- And while it is up. -/
theorem status_query_answered :
    StatusAnswered emptyStorage { status := .cmdStatus }
      (answerQuery exampleThresholds 0 0 (.ok ()) (fun _ => none) emptyStorage
        { status := .cmdStatus }) :=
  (status_query_iff exampleThresholds 0 0 (.ok ()) (fun _ => none) emptyStorage
    ⟨rfl, rfl, rfl⟩).mpr (.inl ⟨none, rfl⟩)

end TileHandler

end RenderMq
