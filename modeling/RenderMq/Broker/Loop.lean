import RenderMq.Lib.Run
import RenderMq.Metatile.Layout
import RenderMq.Queue.History

/-!
# The broker loop

`broker_impl::operator()`: one step for each message the broker takes off a socket. Handlers send
requests, workers ask for jobs and return results, and the monitor sends commands. A step changes
the task queue and sends messages, which are kept in the order they are sent.

A step has no result (`none`) in one case: a result other than `cmdNotDone` whose metatile points
outside itself, so that the string made of the tile's range is undefined. The monitor's `SHUTDOWN`
ends the loop, so it ends a run and is not an event.
-/

namespace RenderMq

/-- A request with the address of the handler it came from. -/
abbrev Request := TileProtocol × String

/-- What the broker sends, and on which socket. -/
inductive BrokerMessage where
  /-- A reply to a handler, on `frontend_rep`. -/
  | reply (address : String) (tile : TileProtocol)
  /-- `JOB` to a worker, on `backend_rep`. -/
  | job (addresses : List String) (proto : TileProtocol)
  /-- `NO JOBS` to a worker, on `backend_rep`. -/
  | noJobs (addresses : List String)
  /-- `JOBS AVAILABLE` to all workers, on `backend_pub`. -/
  | jobsAvailable (priority : BitVec 32) (unprocessed : BitVec 64)
  /-- A heartbeat to all handlers, on `frontend_pub`. -/
  | heartbeat (unprocessed : BitVec 64)
  /-- The answer to a monitor command. -/
  | monitor (text : String)
  deriving DecidableEq

/-- What the broker receives. `now` is the clock while the message is handled. -/
inductive BrokerEvent where
  | request (clientAddress : String) (tile : TileProtocol) (now : Int)
  | getJob (workerAddresses : List String)
  | result (workerAddresses : List String) (tile : TileProtocol)
  | resubmitZombieTasks (now : Int)
  | heartbeat
  | stats
  | clearTaskQueue
  | unknownCommand
  deriving DecidableEq

/-- The part of the configuration that the loop reads. -/
structure BrokerConfig where
  zombieTime : BitVec 32 := 300#32

structure Broker where
  queue : TaskQueue
  sent : List BrokerMessage

namespace Broker

def start : Broker := ⟨MultiIndex.empty, []⟩

/-- `publish_availability`. -/
def publishAvailability (b : Broker) : Broker :=
  match b.queue.front with
  | some t =>
    { b with sent := b.sent ++
      [.jobsAvailable (.ofInt 32 t.priority) (.ofNat 64 b.queue.countUnprocessed)] }
  | none => b

/-! ## Results -/

/-- Whether a subscriber is sent a reply at all. -/
def wantsReply (request : Request) : Bool :=
  decide (request.1.status ≠ .cmdDirty) && decide (request.1.status ≠ .cmdRenderBulk)

/-- The request with the outcome of the result, before it has any data. -/
def tileForHandler (tileFromWorker : TileProtocol) (request : Request) : TileProtocol :=
  { request.1 with
    status := tileFromWorker.status
    lastModified := tileFromWorker.lastModified }

/-- The reply of `send_tile_to_listeners` to one subscriber. -/
def replyTo (tileFromWorker : TileProtocol) (request : Request) : Option TileProtocol :=
  if tileFromWorker.status ≠ .cmdNotDone then
    ((metatileReader tileFromWorker.data request.1.format).get request.1.x request.1.y).map
      (tileForHandler tileFromWorker request).setData
  else some (tileForHandler tileFromWorker request)

/-- The loop of `send_tile_to_listeners` over the subscribers. -/
def repliesTo (tileFromWorker : TileProtocol) : List Request → Option (List BrokerMessage)
  | [] => some []
  | request :: rest =>
    if wantsReply request then
      (replyTo tileFromWorker request).bind fun tile =>
        (repliesTo tileFromWorker rest).map fun messages => .reply request.2 tile :: messages
    else repliesTo tileFromWorker rest

/-- `send_tile_to_listeners`. -/
def sendTileToListeners (b : Broker) (tileFromWorker : TileProtocol) : Option Broker :=
  match b.queue.get tileFromWorker with
  | some t =>
    (repliesTo tileFromWorker t.subscribers).map fun messages =>
      { queue := (b.queue.erase tileFromWorker).1, sent := b.sent ++ messages }
  | none => some b

/-! ## The other messages -/

/-- The answer to `GET_JOB`. -/
def giveJob (b : Broker) (workerAddresses : List String) : Broker :=
  match b.queue.front with
  | some t =>
    { queue := b.queue.setProcessed t.toTileProtocol
      sent := b.sent ++ [.job workerAddresses t.toTileProtocol] }
  | none => { b with sent := b.sent ++ [.noJobs workerAddresses] }

/-- The priority of a request. -/
def requestPriority (tile : TileProtocol) : Int :=
  if tile.status = .cmdRenderBulk then 0
  else if tile.status = .cmdDirty then 50
  else if tile.status = .cmdRenderPrio then 150
  else 100

/-- A request from a handler. `front_task` is a reference: after the push it reads the priority that
the task then has. -/
def takeRequest (b : Broker) (clientAddress : String) (tile : TileProtocol) (now : Int) : Broker :=
  let priority := requestPriority tile
  let frontTask := b.queue.front
  let b' := { b with queue := (b.queue.push tile clientAddress priority now).1 }
  match frontTask.bind fun t => b'.queue.get t.toTileProtocol with
  | some t => if t.priority < priority then b'.publishAvailability else b'
  | none => b'.publishAvailability

/-- The text of the answer to `STATS`. -/
def statsText (q : TaskQueue) : String :=
  let priority := match q.front with
    | some t => t.priority
    | none => -1
  s!"num_tasks={q.size} num_unprocessed={q.countUnprocessed} highest_priority={priority}"

/-- One turn of the loop. -/
def step (config : BrokerConfig) (b : Broker) : BrokerEvent → Option Broker
  | .request clientAddress tile now => some (b.takeRequest clientAddress tile now)
  | .getJob workerAddresses => some (b.giveJob workerAddresses)
  | .result _ tile => b.sendTileToListeners tile
  | .resubmitZombieTasks now => some
    { queue := b.queue.resubmitOlderThan config.zombieTime.toInt now
      sent := b.sent ++ [.monitor "RESUBMIT ZOMBIE TASKS"] }
  | .heartbeat =>
    let beaten : Broker :=
      { b with sent := b.sent ++ [.heartbeat (.ofNat 64 b.queue.countUnprocessed)] }
    let published := beaten.publishAvailability
    some { published with sent := published.sent ++ [.monitor "HEARTBEAT"] }
  | .stats => some { b with sent := b.sent ++ [.monitor (statsText b.queue)] }
  | .clearTaskQueue => some
    { queue := b.queue.clear, sent := b.sent ++ [.monitor "CLEAR TASK QUEUE"] }
  | .unknownCommand => some { b with sent := b.sent ++ [.monitor "UNKNOWN"] }

/-- A run of the broker, from the empty queue. -/
def run (config : BrokerConfig) (events : List BrokerEvent) : Option Broker :=
  Run.run (step config) start events

/-! ## What a step does to the queue -/

theorem publishAvailability_queue (b : Broker) : b.publishAvailability.queue = b.queue := by
  unfold publishAvailability
  split
  · rfl
  · rfl

/-- A request is pushed, whether or not availability is announced. -/
theorem takeRequest_queue (b : Broker) (clientAddress : String) (tile : TileProtocol) (now : Int) :
    (b.takeRequest clientAddress tile now).queue =
      (b.queue.push tile clientAddress (requestPriority tile) now).1 := by
  simp only [takeRequest]
  split
  · split
    · exact publishAvailability_queue _
    · rfl
  · exact publishAvailability_queue _

/-- A step of the broker is at most one operation on its queue, and resubmits when it is told to. -/
theorem queue_of_step {config : BrokerConfig} {b b' : Broker} {e : BrokerEvent}
    (hstep : b.step config e = some b') :
    b'.queue = b.queue ∨ ∃ op : QueueOp, b'.queue = op.apply b.queue ∧
      ∀ timeout now, op = .resubmitOlderThan timeout now →
        e = .resubmitZombieTasks now ∧ timeout = config.zombieTime.toInt := by
  cases e with
  | request clientAddress tile now =>
    obtain rfl := Option.some.inj hstep
    refine .inr ⟨.push tile clientAddress (requestPriority tile) now, takeRequest_queue .., ?_⟩
    intro _ _ hop
    cases hop
  | getJob workerAddresses =>
    obtain rfl := Option.some.inj hstep
    unfold giveJob
    split
    · next t _ =>
      refine .inr ⟨.setProcessed t.toTileProtocol, rfl, ?_⟩
      intro _ _ hop
      cases hop
    · exact .inl rfl
  | result workerAddresses tile =>
    simp only [step, sendTileToListeners] at hstep
    split at hstep
    · obtain ⟨messages, _, rfl⟩ := Option.map_eq_some_iff.mp hstep
      refine .inr ⟨.erase tile, rfl, ?_⟩
      intro _ _ hop
      cases hop
    · obtain rfl := Option.some.inj hstep
      exact .inl rfl
  | resubmitZombieTasks now =>
    obtain rfl := Option.some.inj hstep
    refine .inr ⟨.resubmitOlderThan config.zombieTime.toInt now, rfl, ?_⟩
    intro _ _ hop
    cases hop
    exact ⟨rfl, rfl⟩
  | heartbeat =>
    obtain rfl := Option.some.inj hstep
    exact .inl (publishAvailability_queue _)
  | clearTaskQueue =>
    obtain rfl := Option.some.inj hstep
    refine .inr ⟨.clear, rfl, ?_⟩
    intro _ _ hop
    cases hop
  | _ =>
    obtain rfl := Option.some.inj hstep
    exact .inl rfl

end Broker

end RenderMq
