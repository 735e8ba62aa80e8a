import RenderMq.Handler.Backend

/-!
# Overload

The handler gets each requested tile back from its storage, and then decides by the queue length
whether to render it, to render it in the background, or to turn the client away
(`handleResponseFromStorage`).

Only a job that is sent makes the backend look at the clock, and an overloaded handler sends none
(`handleResponse_overloaded`). So who counts as alive does not change while the overload lasts
(`alive_while_overloaded`), and an overload by brokers that fell silent never ends
(`overload_never_ends`).

The main loop is a run of the backend (`handlerRun_backend`). What a reply says beyond its kind, and
the clock that dates it, is left out.
-/

namespace RenderMq

/-! ## Replies -/

/-- `queue_threshold_*` and `stale_render_background`. -/
structure Thresholds where
  stale : Nat
  satisfy : Nat
  max : Nat
  staleRenderBackground : Bool

/-- What a client is sent. -/
inductive HandlerReply where
  /-- 200, with the tile. -/
  | tile (data : Bytes) (mime : String)
  /-- 200, with the time of the tile. -/
  | lastModified (time : Int)
  /-- 200, with a text. -/
  | text (text : String)
  /-- 202 -/
  | accepted
  /-- 304 -/
  | notModified
  /-- 404 -/
  | notFound
  /-- 500 -/
  | serverError
  /-- 503 -/
  | unavailable
  deriving DecidableEq, Repr

/-- Replies, each to the client of a request. -/
abbrev HandlerReplies := List (Int × HandlerReply)

/-- `reply_with_tile`; it throws for a tile of more than one format. -/
def replyWithTile (tile : TileProtocol) : Except String HandlerReplies :=
  if tile.id < 0 then .ok []
  else if (tile.status = .cmdDone ∨ tile.status = .cmdIgnore) ∧ tile.data.length > 0 then
    match mimeTypeFor tile.format with
    | .error message => .error message
    | .ok mime =>
      if tile.requestLastModified = 0 ∨ tile.lastModified < tile.requestLastModified then
        .ok [(tile.id, .tile tile.data mime)]
      else .ok [(tile.id, .notModified)]
  else .ok [(tile.id, .serverError)]

namespace HandlerBackend

variable {config : HandlerConfig}

/-! ## A response of the storage -/

/-- `send_to_queue`: an error is told to the client, if the tile still has one. -/
def sendToQueue (b : HandlerBackend config) (tile : TileProtocol) (now : Int) :
    HandlerBackend config × HandlerReplies :=
  match b.send tile now with
  | (b, .ok _) => (b, [])
  | (b, .error _) => (b, if tile.id > 0 then [(tile.id, .notFound)] else [])

/-- The tile as it is rendered in the background, without a client. -/
def inBackground (tile : TileProtocol) : TileProtocol :=
  { tile.setData [] with status := .cmdRenderBulk, id := -1 }

/-- The tile as it is rendered while its client waits. -/
def inForeground (tile : TileProtocol) : TileProtocol := { tile with status := .cmdRender }

/-- `handle_response_from_storage`. -/
def handleResponseFromStorage (th : Thresholds) (b : HandlerBackend config) (tile : TileProtocol)
    (now : Int) : HandlerBackend config × Except String HandlerReplies :=
  match tile.status with
  | .cmdStatus =>
    if tile.lastModified > 0 then (b, .ok [(tile.id, .lastModified tile.lastModified)])
    else if tile.data.length > 0 then (b, .ok [(tile.id, .text "Tile marked as dirty.")])
    else (b, .ok [(tile.id, .notFound)])
  | .cmdDirty =>
    if b.queueLength now ≥ th.max then (b, .ok [(tile.id, .unavailable)])
    else
      let (b, replies) := b.sendToQueue (inBackground tile) now
      (b, .ok ((tile.id, .text "Tile submitted for rendering...") :: replies))
  | .cmdNotDone =>
    if b.queueLength now ≥ th.max then (b, .ok [(tile.id, .unavailable)])
    else if b.queueLength now ≥ th.satisfy then
      let (b, replies) := b.sendToQueue (inBackground tile) now
      (b, .ok ((tile.id, .accepted) :: replies))
    else
      let (b, replies) := b.sendToQueue (inForeground tile) now
      (b, .ok replies)
  | _ =>
    if tile.status = .cmdDone ∨ b.queueLength now ≥ th.stale then (b, replyWithTile tile)
    else if th.staleRenderBackground then
      match replyWithTile tile with
      | .error message => (b, .error message)
      | .ok replies =>
        if b.queueLength now < th.stale then
          let (b, more) := b.sendToQueue (inBackground tile) now
          (b, .ok (replies ++ more))
        else (b, .ok replies)
    else
      let (b, replies) := b.sendToQueue (inForeground tile) now
      (b, .ok replies)

theorem sendToQueue_fst (b : HandlerBackend config) (tile : TileProtocol) (now : Int) :
    (b.sendToQueue tile now).1 = (b.send tile now).1 := by
  unfold sendToQueue
  split <;> simp [*]

/-- A response sends one job, or leaves the backend as it is. -/
theorem handleResponse_backend (th : Thresholds) (b : HandlerBackend config) (tile : TileProtocol)
    (now : Int) :
    (b.handleResponseFromStorage th tile now).1 = b ∨
      ∃ job, (b.handleResponseFromStorage th tile now).1 = (b.send job now).1 := by
  have sent : ∀ job, (b.sendToQueue job now).1 = b ∨
      ∃ job', (b.sendToQueue job now).1 = (b.send job' now).1 :=
    fun job => .inr ⟨job, sendToQueue_fst b job now⟩
  have foreground := sent (inForeground tile)
  have background := sent (inBackground tile)
  unfold handleResponseFromStorage
  split
  · split
    · exact .inl rfl
    · split <;> exact .inl rfl
  · split
    · exact .inl rfl
    · exact background
  · split
    · exact .inl rfl
    · split
      · exact background
      · exact foreground
  · split
    · exact .inl rfl
    · split
      · split
        · exact .inl rfl
        · split
          · exact background
          · exact .inl rfl
      · exact foreground

/-! ## While the queue is too long -/

/-- The queue is too long to render anything, stale tiles included. -/
def Overloaded (th : Thresholds) (b : HandlerBackend config) (now : Int) : Prop :=
  b.queueLength now ≥ th.max ∧ b.queueLength now ≥ th.stale

/-- **The step.** An overloaded handler leaves its backend as it is. -/
theorem handleResponse_overloaded {th : Thresholds} {b : HandlerBackend config} {now : Int}
    (overloaded : Overloaded th b now) (tile : TileProtocol) :
    (b.handleResponseFromStorage th tile now).1 = b := by
  unfold handleResponseFromStorage
  split
  · split
    · rfl
    · split <;> rfl
  · rw [if_pos overloaded.1]
  · rw [if_pos overloaded.1]
  · rw [if_pos (.inr overloaded.2)]

/-! ## The main loop -/

/-- What the main loop hands to the backend. -/
inductive HandlerEvent where
  | heartbeat (broker : BrokerId) (qsize : BitVec 64) (now : Int)
  | storageResponse (tile : TileProtocol) (now : Int)

def handlerStep (th : Thresholds) (b : HandlerBackend config) :
    HandlerEvent → Option (HandlerBackend config)
  | .heartbeat broker qsize now => some (b.updateHeartbeat broker qsize now)
  | .storageResponse tile now => some (b.handleResponseFromStorage th tile now).1

/-- The main loop's runs are runs of the backend. -/
theorem handlerRun_backend (th : Thresholds) :
    ∀ (events : List HandlerEvent) (b t : HandlerBackend config),
      Run.run (handlerStep th) b events = some t → ∃ es, Run.run step b es = some t := by
  intro events
  induction events with
  | nil =>
    intro b t hrun
    exact ⟨[], hrun⟩
  | cons e events ih =>
    intro b t hrun
    obtain ⟨m, hm, hrest⟩ := Run.run_cons hrun
    obtain ⟨es, hes⟩ := ih m t hrest
    cases e with
    | heartbeat broker qsize now =>
      obtain rfl := Option.some.inj hm
      exact ⟨.heartbeat broker qsize now :: es, hes⟩
    | storageResponse tile now =>
      obtain rfl := Option.some.inj hm
      rcases handleResponse_backend th b tile now with hsame | ⟨job, hsent⟩
      · rw [hsame] at hes
        exact ⟨es, hes⟩
      · rw [hsent] at hes
        exact ⟨.send job now :: es, hes⟩

/-- The brokers that count. -/
def alive (b : HandlerBackend config) (broker : BrokerId) : Bool :=
  (b.heartbeats.lookup broker).any Heartbeat.isLive

theorem alive_updateHeartbeat (b : HandlerBackend config) (broker : BrokerId) (qsize : BitVec 64)
    (now : Int) : (b.updateHeartbeat broker qsize now).alive = b.alive := by
  funext id
  unfold alive updateHeartbeat
  by_cases hid : id = broker
  · subst hid
    rw [AList.lookup_insert]
    cases b.heartbeats.lookup id <;> rfl
  · rw [AList.lookup_insert_ne hid]

/-- A response that comes finds the handler overloaded. -/
def FindsOverload (th : Thresholds) (b : HandlerBackend config) : HandlerEvent → Prop
  | .heartbeat _ _ _ => True
  | .storageResponse _ now => Overloaded th b now

/-- **The run.** While the overload lasts, no broker starts or stops to count, whatever heartbeats
come or stay away and however late it gets. -/
theorem alive_while_overloaded (th : Thresholds) {events : List HandlerEvent}
    {b t : HandlerBackend config}
    (overloaded : Run.EveryStep (handlerStep th) (FindsOverload th) b events)
    (hrun : Run.run (handlerStep th) b events = some t) : t.alive = b.alive := by
  have preserved : ∀ (past : List HandlerEvent) (s : HandlerBackend config) (e : HandlerEvent)
      (s' : HandlerBackend config), s.alive = b.alive → FindsOverload th s e →
      handlerStep th s e = some s' → s'.alive = b.alive := by
    intro past s e s' hs hover hs'
    cases e with
    | heartbeat broker qsize now =>
      obtain rfl := Option.some.inj hs'
      rw [alive_updateHeartbeat, hs]
    | storageResponse tile now =>
      obtain rfl := Option.some.inj hs'
      rw [handleResponse_overloaded hover, hs]
  exact Run.run_invariant_of_everyStep preserved events [] b t rfl overloaded hrun

/-- With no more heartbeats, an overload after settling never ends: the handler turns every client
away, for any responses at any times. -/
theorem overload_never_ends {th : Thresholds} {b : HandlerBackend config} {start : Int}
    (settled : b.settleTime = none) (overloaded : Overloaded th b start)
    (responses : List (TileProtocol × Int)) :
    Run.run (handlerStep th) b (responses.map fun r => .storageResponse r.1 r.2) = some b := by
  -- once settled, the queue length does not depend on the clock
  have anytime : ∀ now, Overloaded th b now := by
    intro now
    have hlength : b.queueLength now = b.queueLength start := by
      simp [queueLength, settling, settled]
    rw [Overloaded, hlength]
    exact overloaded
  induction responses with
  | nil => rfl
  | cons r responses ih =>
    rw [Run.run, List.map_cons, List.foldlM_cons, handlerStep,
      handleResponse_overloaded (anytime r.2)]
    exact ih

end HandlerBackend

end RenderMq
