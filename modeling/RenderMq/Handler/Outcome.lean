import RenderMq.Handler.Overload

/-!
# What becomes of a client's request

The handler's decision on a tile that the storage has answered, over any distributed queue: what the
queue length is each time it is read, and which jobs the queue takes, are arguments. With the brokers
of `HandlerBackend` as the queue it is `handleResponseFromStorage` of the overload
(`handleResponse_replies`).

Every client should get one reply, at once or from the job that carries its id. `one_outcome_iff` says
when: not where the queue refuses the job of client 0, and not where a tile of several formats is to be
sent.
-/

namespace RenderMq

/-- What the handler does with one tile. -/
structure Outcome where
  replies : HandlerReplies := []
  /-- The jobs that the queue has taken. -/
  jobs : List TileProtocol := []

namespace TileHandler

open HandlerBackend (inBackground inForeground)

/-- `put_job`, where it does not throw. -/
abbrev PutJob := TileProtocol → Except String Unit

/-- `send_to_queue`. -/
def sendToQueue (putJob : PutJob) (tile : TileProtocol) : Outcome :=
  match putJob tile with
  | .ok () => { jobs := [tile] }
  | .error _ => { replies := if tile.id > 0 then [(tile.id, .notFound)] else [] }

/-- The job in the background, after a reply. -/
def andInBackground (putJob : PutJob) (tile : TileProtocol) (replies : HandlerReplies) : Outcome :=
  let o := sendToQueue putJob (inBackground tile)
  { o with replies := replies ++ o.replies }

/-- `handle_response_from_storage` for a tile that the storage has: it is fresh, or stale. -/
def answerStored (th : Thresholds) (length again : Nat) (putJob : PutJob) (tile : TileProtocol) :
    Except String Outcome :=
  if tile.status = .cmdDone ∨ length ≥ th.stale then
    (replyWithTile tile).map fun replies => { replies := replies }
  else if th.staleRenderBackground then
    (replyWithTile tile).map fun replies =>
      if again < th.stale then andInBackground putJob tile replies else { replies := replies }
  else .ok (sendToQueue putJob (inForeground tile))

/-- `handle_response_from_storage`. The queue length is `length`, and `again` if it is read again. -/
def handleResponseFromStorage (th : Thresholds) (length again : Nat) (putJob : PutJob)
    (tile : TileProtocol) : Except String Outcome :=
  match tile.status with
  | .cmdStatus =>
    if tile.lastModified > 0 then
      .ok { replies := [(tile.id, .lastModified tile.lastModified)] }
    else if tile.data.length > 0 then
      .ok { replies := [(tile.id, .text "Tile marked as dirty.")] }
    else .ok { replies := [(tile.id, .notFound)] }
  | .cmdDirty =>
    if length ≥ th.max then .ok { replies := [(tile.id, .unavailable)] }
    else .ok (andInBackground putJob tile [(tile.id, .text "Tile submitted for rendering...")])
  | .cmdNotDone =>
    if length ≥ th.max then .ok { replies := [(tile.id, .unavailable)] }
    else if again ≥ th.satisfy then .ok (andInBackground putJob tile [(tile.id, .accepted)])
    else .ok (sendToQueue putJob (inForeground tile))
  | _ => answerStored th length again putJob tile

theorem handleResponse_stored {tile : TileProtocol} (hstatus : tile.status ≠ .cmdStatus)
    (hdirty : tile.status ≠ .cmdDirty) (hnotDone : tile.status ≠ .cmdNotDone) (th : Thresholds)
    (length again : Nat) (putJob : PutJob) :
    handleResponseFromStorage th length again putJob tile =
      answerStored th length again putJob tile := by
  unfold handleResponseFromStorage
  split
  · next h => exact absurd h hstatus
  · next h => exact absurd h hdirty
  · next h => exact absurd h hnotDone
  · rfl

/-! ## The handler with its brokers -/

section Brokers

variable {config : HandlerConfig}

/-- The brokers as a queue: they take a job where there is one to take it. -/
def putToBrokers (b : HandlerBackend config) (now : Int) : PutJob :=
  fun job => (b.send job now).2.map fun _ => ()

theorem sendToQueue_replies (b : HandlerBackend config) (job : TileProtocol) (now : Int) :
    (b.sendToQueue job now).2 = (sendToQueue (putToBrokers b now) job).replies := by
  unfold HandlerBackend.sendToQueue sendToQueue putToBrokers
  rcases b.send job now with ⟨b', _ | _⟩ <;> rfl

theorem answerStored_replies (th : Thresholds) (b : HandlerBackend config) (tile : TileProtocol)
    (now : Int) :
    (answerStored th (b.queueLength now) (b.queueLength now) (putToBrokers b now) tile).map
        Outcome.replies =
      if tile.status = .cmdDone ∨ b.queueLength now ≥ th.stale then replyWithTile tile
      else if th.staleRenderBackground then
        (replyWithTile tile).map fun replies =>
          if b.queueLength now < th.stale then
            replies ++ (b.sendToQueue (inBackground tile) now).2
          else replies
      else .ok (b.sendToQueue (inForeground tile) now).2 := by
  unfold answerStored
  split
  · cases replyWithTile tile <;> rfl
  · split
    · cases replyWithTile tile with
      | error e => rfl
      | ok replies =>
        simp only [Except.map, sendToQueue_replies]
        split <;> rfl
    · rw [sendToQueue_replies]
      rfl

/-- With the brokers for a queue, the replies are those of the handler with its brokers. -/
theorem handleResponse_replies (th : Thresholds) (b : HandlerBackend config) (tile : TileProtocol)
    (now : Int) :
    (b.handleResponseFromStorage th tile now).2 =
      (handleResponseFromStorage th (b.queueLength now) (b.queueLength now) (putToBrokers b now)
        tile).map Outcome.replies := by
  have hsend := fun job => sendToQueue_replies b job now
  unfold HandlerBackend.handleResponseFromStorage
  split
  · next hstatus =>
    simp only [handleResponseFromStorage, hstatus]
    split
    · rfl
    · split <;> rfl
  · next hstatus =>
    simp only [handleResponseFromStorage, hstatus]
    split
    · rfl
    · rw [hsend]
      rfl
  · next hstatus =>
    simp only [handleResponseFromStorage, hstatus]
    split
    · rfl
    · split
      · rw [hsend]
        rfl
      · rw [hsend]
        rfl
  · next hstatus hdirty hnotDone =>
    rw [handleResponse_stored hstatus hdirty hnotDone, answerStored_replies]
    split
    · rfl
    · split
      · cases replyWithTile tile with
        | error e => rfl
        | ok replies =>
          simp only [Except.map]
          split <;> rfl
      · rfl

end Brokers

/-! ## One outcome -/

/-- The client gets one reply, and jobs besides are nobody's; or one job carries its id. -/
def OneOutcome (client : Int) : Except String Outcome → Prop
  | .ok o =>
    (∃ reply, o.replies = [(client, reply)] ∧ ∀ job ∈ o.jobs, job.id < 0) ∨
      (o.replies = [] ∧ ∃ job, o.jobs = [job] ∧ job.id = client)
  | .error _ => False

/-- The tile is to be rendered while its client waits. -/
def RendersForClient (th : Thresholds) (length again : Nat) (tile : TileProtocol) : Prop :=
  match tile.status with
  | .cmdNotDone => length < th.max ∧ again < th.satisfy
  | .cmdStatus | .cmdDirty | .cmdDone => False
  | _ => length < th.stale ∧ th.staleRenderBackground = false

/-- The client is to be sent what the storage has. -/
def SendsTile (th : Thresholds) (length : Nat) (tile : TileProtocol) : Prop :=
  match tile.status with
  | .cmdDone => tile.data.length > 0
  | .cmdIgnore => tile.data.length > 0 ∧ (length ≥ th.stale ∨ th.staleRenderBackground = true)
  | _ => False

/-- The client can be told what becomes of its request: it is not client 0 with a job that the queue
refuses, and a tile that is sent has a mime type. -/
structure Answerable (th : Thresholds) (length again : Nat) (putJob : PutJob) (tile : TileProtocol) :
    Prop where
  refused : RendersForClient th length again tile →
    (∃ e, putJob (inForeground tile) = .error e) → tile.id ≠ 0
  format : SendsTile th length tile → ∃ mime, mimeTypeFor tile.format = .ok mime

/-- A job for a client that waits. -/
theorem foreground_iff (putJob : PutJob) {tile : TileProtocol} (hid : 0 ≤ tile.id) :
    OneOutcome tile.id (.ok (sendToQueue putJob (inForeground tile))) ↔
      ((∃ e, putJob (inForeground tile) = .error e) → tile.id ≠ 0) := by
  have hsame : (inForeground tile).id = tile.id := rfl
  unfold sendToQueue
  cases putJob (inForeground tile) with
  | ok u => exact iff_of_true (.inr ⟨rfl, _, rfl, rfl⟩) (by simp)
  | error e =>
    simp only [OneOutcome, hsame]
    by_cases hzero : tile.id = 0
    · simp [hzero]
    · have hpos : tile.id > 0 := by omega
      rw [if_pos hpos]
      exact iff_of_true (.inl ⟨.notFound, rfl, by simp⟩) fun _ => hzero

/-- A job in the background is nobody's, so it adds no reply. -/
theorem andInBackground_replies (putJob : PutJob) (tile : TileProtocol) (replies : HandlerReplies) :
    (andInBackground putJob tile replies).replies = replies := by
  unfold andInBackground sendToQueue
  split
  · exact List.append_nil _
  · exact List.append_nil _

/-- A reply, with a job in the background. -/
theorem oneOutcome_andInBackground (putJob : PutJob) (tile : TileProtocol) (reply : HandlerReply) :
    OneOutcome tile.id (.ok (andInBackground putJob tile [(tile.id, reply)])) := by
  refine .inl ⟨reply, andInBackground_replies .., fun job hjob => ?_⟩
  unfold andInBackground sendToQueue at hjob
  split at hjob
  · rw [List.mem_singleton.mp hjob]
    show (-1 : Int) < 0
    decide
  · exact absurd hjob List.not_mem_nil

theorem oneOutcome_reply (client : Int) (reply : HandlerReply) :
    OneOutcome client (.ok { replies := [(client, reply)] }) :=
  .inl ⟨reply, rfl, by simp⟩

/-- The tile is what a client can be sent. -/
def Sendable (tile : TileProtocol) : Prop :=
  (tile.status = .cmdDone ∨ tile.status = .cmdIgnore) ∧ tile.data.length > 0

/-- `reply_with_tile` sends one reply, unless it has a tile to send and no mime type for it. -/
theorem oneOutcome_replyWithTile {tile : TileProtocol} (hid : 0 ≤ tile.id)
    {f : HandlerReplies → Outcome}
    (hf : ∀ reply, OneOutcome tile.id (.ok (f [(tile.id, reply)]))) :
    OneOutcome tile.id ((replyWithTile tile).map f) ↔
      (Sendable tile → ∃ mime, mimeTypeFor tile.format = .ok mime) := by
  unfold replyWithTile Sendable
  rw [if_neg (by omega)]
  split
  · next hsend =>
    cases mimeTypeFor tile.format with
    | error e => exact iff_of_false id fun h => by simpa using h hsend
    | ok mime =>
      refine iff_of_true ?_ fun _ => ⟨mime, rfl⟩
      show OneOutcome tile.id (Except.map f (if _ then _ else _))
      split
      · exact hf _
      · exact hf _
  · next hsend => exact iff_of_true (hf _) fun h => absurd h hsend

section Stored

variable {th : Thresholds} {length again : Nat} {tile : TileProtocol}

theorem rendersForClient_stored (hstatus : tile.status ≠ .cmdStatus)
    (hdirty : tile.status ≠ .cmdDirty) (hnotDone : tile.status ≠ .cmdNotDone) :
    RendersForClient th length again tile ↔
      tile.status ≠ .cmdDone ∧ length < th.stale ∧ th.staleRenderBackground = false := by
  unfold RendersForClient
  cases h : tile.status <;> simp_all

theorem sendsTile_iff :
    SendsTile th length tile ↔ Sendable tile ∧
      (tile.status = .cmdDone ∨ length ≥ th.stale ∨ th.staleRenderBackground = true) := by
  unfold SendsTile Sendable
  cases h : tile.status <;> simp

/-- A tile that the storage has. -/
theorem answerStored_iff (putJob : PutJob) (hid : 0 ≤ tile.id) (hstatus : tile.status ≠ .cmdStatus)
    (hdirty : tile.status ≠ .cmdDirty) (hnotDone : tile.status ≠ .cmdNotDone) :
    OneOutcome tile.id (answerStored th length again putJob tile) ↔
      Answerable th length again putJob tile := by
  have hrenders : RendersForClient th length again tile ↔ _ :=
    rendersForClient_stored hstatus hdirty hnotDone
  have hreply := oneOutcome_reply tile.id
  -- where a reply is sent at once, only the format matters
  have hsent : ¬ RendersForClient th length again tile →
      (tile.status = .cmdDone ∨ length ≥ th.stale ∨ th.staleRenderBackground = true) →
      ((Sendable tile → ∃ mime, mimeTypeFor tile.format = .ok mime) ↔
        Answerable th length again putJob tile) := by
    intro hnot hnow
    constructor
    · intro h
      exact ⟨fun hr => absurd hr hnot, fun hs => h (sendsTile_iff.mp hs).1⟩
    · intro h hsendable
      exact h.format (sendsTile_iff.mpr ⟨hsendable, hnow⟩)
  unfold answerStored
  split
  · next hfresh =>
    rw [oneOutcome_replyWithTile hid hreply]
    refine hsent (fun hr => ?_) (hfresh.imp_right .inl)
    obtain ⟨hne, hlt, -⟩ := hrenders.mp hr
    rcases hfresh with hdone | hge
    · exact hne hdone
    · exact absurd hlt (Nat.not_lt.mpr hge)
  · next hstale =>
    split
    · next hbackground =>
      rw [oneOutcome_replyWithTile hid fun reply => ?_]
      · refine hsent (fun hr => ?_) (.inr (.inr hbackground))
        rw [hbackground] at hrenders
        exact absurd (hrenders.mp hr).2.2 (by simp)
      · split
        · exact oneOutcome_andInBackground putJob tile reply
        · exact hreply reply
    · next hforeground =>
      rw [foreground_iff putJob hid]
      have hrender : RendersForClient th length again tile :=
        hrenders.mpr ⟨fun h => hstale (.inl h), Nat.not_le.mp fun h => hstale (.inr h),
          by simpa using hforeground⟩
      constructor
      · intro h
        refine ⟨fun _ => h, fun hs => ?_⟩
        rcases (sendsTile_iff.mp hs).2 with hdone | hge | hbackground
        · exact absurd (.inl hdone) hstale
        · exact absurd (.inr hge) hstale
        · exact absurd hbackground hforeground
      · exact fun h => h.refused hrender

end Stored

/-- Every client gets one outcome, exactly where it is answerable.

The queue may refuse a job by an exception, and its length may change between the two times that it is
asked for. The id is that of a client, and so not negative. What counts is what the handler sends;
whether it arrives, and whether a job that is taken is ever done, is not part of this. -/
theorem one_outcome_iff (th : Thresholds) (length again : Nat) (putJob : PutJob)
    {tile : TileProtocol} (hid : 0 ≤ tile.id) :
    OneOutcome tile.id (handleResponseFromStorage th length again putJob tile) ↔
      Answerable th length again putJob tile := by
  have hreply := oneOutcome_reply tile.id
  have hbackground := oneOutcome_andInBackground putJob tile
  -- nothing is asked of a tile that is neither rendered for its client nor sent
  have hfree : ¬ RendersForClient th length again tile → ¬ SendsTile th length tile →
      Answerable th length again putJob tile :=
    fun hr hs => ⟨fun h => absurd h hr, fun h => absurd h hs⟩
  by_cases hstatus : tile.status = .cmdStatus
  · have hanswer := hfree (by simp [RendersForClient, hstatus]) (by simp [SendsTile, hstatus])
    refine iff_of_true ?_ hanswer
    simp only [handleResponseFromStorage, hstatus]
    split
    · exact hreply _
    · split
      · exact hreply _
      · exact hreply _
  by_cases hdirty : tile.status = .cmdDirty
  · have hanswer := hfree (by simp [RendersForClient, hdirty]) (by simp [SendsTile, hdirty])
    refine iff_of_true ?_ hanswer
    simp only [handleResponseFromStorage, hdirty]
    split
    · exact hreply _
    · exact hbackground _
  by_cases hnotDone : tile.status = .cmdNotDone
  · have hsends : ¬ SendsTile th length tile := by simp [SendsTile, hnotDone]
    simp only [handleResponseFromStorage, hnotDone]
    split
    · next hfull =>
      exact iff_of_true (hreply _) (hfree (by simp [RendersForClient, hnotDone, hfull]) hsends)
    · split
      · next hbusy =>
        exact iff_of_true (hbackground _)
          (hfree (by simp [RendersForClient, hnotDone, hbusy]) hsends)
      · next hroom hidle =>
        rw [foreground_iff putJob hid]
        have hrender : RendersForClient th length again tile := by
          simp only [RendersForClient, hnotDone]
          omega
        exact ⟨fun h => ⟨fun _ => h, fun hs => absurd hs hsends⟩, fun h => h.refused hrender⟩
  · rw [handleResponse_stored hstatus hdirty hnotDone]
    exact answerStored_iff putJob hid hstatus hdirty hnotDone

/-- Some thresholds, and a queue that takes nothing. -/
def exampleThresholds : Thresholds :=
  { stale := 100, satisfy := 500, max := 1000, staleRenderBackground := false }

def refusingQueue : PutJob := fun _ => .error "no brokers available to send jobs to!"

/-- A tile to render for a client. -/
def tileOfClient (client : Int) : TileProtocol := { id := client, status := .cmdNotDone }

/-- Client 0 hears nothing of its request, and nothing is rendered for it. -/
theorem client_zero_is_lost :
    ¬ OneOutcome 0 (handleResponseFromStorage exampleThresholds 0 0 refusingQueue
      (tileOfClient 0)) := by
  have hrun : handleResponseFromStorage exampleThresholds 0 0 refusingQueue (tileOfClient 0) =
    .ok {} := rfl
  rw [hrun]
  rintro (⟨reply, hreplies, -⟩ | ⟨-, job, hjobs, -⟩)
  · exact absurd hreplies.symm (List.cons_ne_nil _ _)
  · exact absurd hjobs.symm (List.cons_ne_nil _ _)

/-- Client 1 is told. -/
theorem client_one_is_told :
    OneOutcome 1 (handleResponseFromStorage exampleThresholds 0 0 refusingQueue
      (tileOfClient 1)) := by
  have hone : 0 ≤ (tileOfClient 1).id := by decide
  refine (one_outcome_iff exampleThresholds 0 0 refusingQueue hone).mpr ⟨fun _ _ => by decide, ?_⟩
  exact fun hsends => absurd hsends id

end TileHandler

end RenderMq
