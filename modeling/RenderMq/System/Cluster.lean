import RenderMq.Broker.Serving
import RenderMq.Worker.Safety

/-!
# Brokers and workers together

A cluster is any number of brokers and of workers. A worker is a `Station`: the communicator with its
worker thread, and the messages that are on their way between it and the brokers. `GET_JOB` and
`RESULT` go out, `JOB` and `NO JOBS` come in. The network may delay, overtake and lose them; it does
not invent or duplicate any. An announcement is published, so any worker may read it at any time and
as often as it likes, once a broker has sent it.

Each broker is a `Broker` and each worker a `WorkerSystem`, as they are on their own. A worker
thread answers its job: a result is the job with another status, time and data (`returned`).

Two records go with a station, which the source does not keep: the results that brokers have read
from it (`taken`), and the jobs that have gone astray on their way (`gone`).
-/

namespace RenderMq

/-- A worker is known to the brokers by the identity of its socket. -/
abbrev WorkerId := String

/-- The answer to a `GET_JOB`, with the broker it comes from. -/
structure BrokerAnswer where
  broker : BrokerId
  response : String
  tile : Option TileProtocol
  deriving DecidableEq

/-- What a worker makes of its job. -/
structure WorkerOutcome where
  status : ProtoCmd
  lastModified : Int
  data : Bytes

/-- The job with the outcome, as it is returned. -/
def WorkerOutcome.of (job : TileProtocol) (outcome : WorkerOutcome) : TileProtocol :=
  Broker.returned job outcome.status outcome.lastModified outcome.data

/-- A job, or its result, with the broker that handed it out. -/
abbrev JobAt := BrokerId × TileProtocol

/-! ## A station -/

structure Station where
  system : WorkerSystem := {}
  /-- On their way to the brokers. -/
  outgoing : List CommunicatorOutput := []
  /-- On their way from the brokers. -/
  incoming : List BrokerAnswer := []
  /-- The results that brokers have read. -/
  taken : List JobAt := []
  /-- The jobs, or their results, that are lost, declined or given up. -/
  gone : List JobAt := []

/-- What the communicator reads in a turn. -/
inductive TurnInput where
  | nothing
  /-- The `i`-th of the answers on their way. -/
  | answer (i : Nat)
  | announcement (broker : BrokerId) (maxPriority : BitVec 32) (qsize : BitVec 64)
  | worker
  deriving DecidableEq

/-- What happens at a station and its part of the network. -/
inductive StationEvent where
  | turn (now : Int) (input : TurnInput)
  | ask
  | receive
  /-- The worker thread is done with its job; without an outcome it has given up. -/
  | finish (outcome : Option WorkerOutcome)
  /-- The `i`-th message to a broker is lost. -/
  | loseMessage (i : Nat)
  /-- The `i`-th answer of a broker is lost. -/
  | loseAnswer (i : Nat)

namespace Station

/-- The job in an answer. -/
def jobOf (answer : BrokerAnswer) : Option JobAt :=
  if answer.response = "JOB" then answer.tile.map (answer.broker, ·) else none

/-- The result in a message. -/
def resultOf : CommunicatorOutput → Option JobAt
  | .result broker tile => some (broker, tile)
  | _ => none

/-- A message that goes to a broker. -/
def toBroker : CommunicatorOutput → Bool
  | .tile _ => false
  | _ => true

/-- The message of a turn, which must be there. -/
def roundInput (st : Station) : TurnInput → Option RoundInput
  | .nothing => some .nothing
  | .answer i => st.incoming[i]?.map fun a => .reply a.broker a.response a.tile
  | .announcement broker maxPriority qsize => some (.announcement broker maxPriority qsize)
  | .worker => some .worker

/-- The same message, as the communicator gets it. -/
def communicatorInput (st : Station) : RoundInput → Option CommunicatorInput
  | .nothing => none
  | .reply broker response tile => some (.reply broker response tile)
  | .announcement broker maxPriority qsize => some (.announcement broker maxPriority qsize)
  | .worker => st.system.toCommunicator.head?.map WorkerSystem.inputOf

/-- What the communicator sends in a turn. -/
def outputs (config : CommunicatorConfig) (st : Station) (now : Int) (input : RoundInput) :
    List CommunicatorOutput :=
  (st.system.communicator.round config now (st.communicatorInput input)).2

/-- The answers that a turn leaves on their way. -/
def unread (st : Station) : TurnInput → List BrokerAnswer
  | .answer i => st.incoming.eraseIdx i
  | _ => st.incoming

/-- The job of an answer that is read and not passed on. -/
def declined (sent : List CommunicatorOutput) : RoundInput → List JobAt
  | .reply broker response tile =>
    if WorkerSystem.passedBy broker sent = [] then (jobOf ⟨broker, response, tile⟩).toList else []
  | _ => []

def takeTurn (config : CommunicatorConfig) (st : Station) (now : Int) (input : TurnInput) :
    Option Station :=
  (st.roundInput input).bind fun read =>
    (st.system.takeRound config now read).map fun system =>
      { st with
        system := system
        incoming := st.unread input
        outgoing := st.outgoing ++ (st.outputs config now read).filter toBroker
        gone := st.gone ++ declined (st.outputs config now read) read }

def finish (config : CommunicatorConfig) (st : Station) (outcome : Option WorkerOutcome) :
    Option Station :=
  match st.system.worker with
  | .working delivery =>
    (st.system.step config (.finish (outcome.map (WorkerOutcome.of delivery.tile)))).map
      fun system =>
        { st with
          system := system
          gone := st.gone ++
            if outcome.isNone then [(delivery.broker, delivery.tile)] else [] }
  | _ => none

def step (config : CommunicatorConfig) (st : Station) : StationEvent → Option Station
  | .turn now input => st.takeTurn config now input
  | .ask => (st.system.step config .ask).map fun system => { st with system := system }
  | .receive => (st.system.step config .receive).map fun system => { st with system := system }
  | .finish outcome => st.finish config outcome
  | .loseMessage i => st.outgoing[i]?.map fun message =>
    { st with
      outgoing := st.outgoing.eraseIdx i
      gone := st.gone ++ (resultOf message).toList }
  | .loseAnswer i => st.incoming[i]?.map fun answer =>
    { st with
      incoming := st.incoming.eraseIdx i
      gone := st.gone ++ (jobOf answer).toList }

end Station

/-! ## The cluster -/

structure Cluster where
  brokers : BrokerId → Broker
  stations : WorkerId → Station

structure ClusterConfig where
  broker : BrokerConfig := {}
  communicator : CommunicatorConfig

inductive ClusterEvent where
  /-- A handler or a monitor sends a broker a message. -/
  | outside (broker : BrokerId) (e : BrokerEvent)
  /-- The `i`-th message of a worker reaches its broker. -/
  | deliver (worker : WorkerId) (i : Nat)
  | station (worker : WorkerId) (e : StationEvent)

namespace Cluster

def start : Cluster := ⟨fun _ => .start, fun _ => {}⟩

def setBroker (s : Cluster) (broker : BrokerId) (b : Broker) : Cluster :=
  { s with brokers := Function.update s.brokers broker b }

def setStation (s : Cluster) (worker : WorkerId) (st : Station) : Cluster :=
  { s with stations := Function.update s.stations worker st }

/-- Only workers send these; they come by `deliver`. -/
def isOfWorker : BrokerEvent → Bool
  | .getJob _ => true
  | .result _ _ => true
  | _ => false

/-- The answers to a worker among some messages of a broker. -/
def answersTo (broker : BrokerId) (worker : WorkerId) (sent : List BrokerMessage) :
    List BrokerAnswer :=
  sent.filterMap fun
    | .job addresses proto => if addresses = [worker] then some ⟨broker, "JOB", some proto⟩ else none
    | .noJobs addresses => if addresses = [worker] then some ⟨broker, "NO JOBS", none⟩ else none
    | _ => none

/-- The broker that a message is for, and what it is to the broker. -/
def received (worker : WorkerId) : CommunicatorOutput → Option (BrokerId × BrokerEvent)
  | .getJob broker => some (broker, .getJob [worker])
  | .result broker tile => some (broker, .result [worker] tile)
  | .tile _ => none

/-- A message reaches its broker, and the broker's answer sets out. -/
def deliver (config : ClusterConfig) (s : Cluster) (worker : WorkerId) (i : Nat) : Option Cluster :=
  (s.stations worker).outgoing[i]?.bind fun message =>
    (received worker message).bind fun (broker, e) =>
      ((s.brokers broker).step config.broker e).map fun b =>
        (s.setBroker broker b).setStation worker
          { s.stations worker with
            outgoing := (s.stations worker).outgoing.eraseIdx i
            incoming := (s.stations worker).incoming ++
              answersTo broker worker (b.sent.drop (s.brokers broker).sent.length)
            taken := (s.stations worker).taken ++ (Station.resultOf message).toList }

/-- An announcement is read only if its broker has sent it. -/
def heard (s : Cluster) : StationEvent → Bool
  | .turn _ (.announcement broker maxPriority qsize) =>
    decide (.jobsAvailable maxPriority qsize ∈ (s.brokers broker).sent)
  | _ => true

def step (config : ClusterConfig) (s : Cluster) : ClusterEvent → Option Cluster
  | .outside broker e =>
    if isOfWorker e then none
    else ((s.brokers broker).step config.broker e).map (s.setBroker broker)
  | .deliver worker i => s.deliver config worker i
  | .station worker e =>
    if s.heard e then ((s.stations worker).step config.communicator e).map (s.setStation worker)
    else none

/-- A run of the cluster; in the beginning the queues are empty and nothing is on its way. -/
def run (config : ClusterConfig) (events : List ClusterEvent) : Option Cluster :=
  Run.run (step config) start events

/-! ## The step, case by case -/

@[simp] theorem setBroker_stations (s : Cluster) (broker : BrokerId) (b : Broker) :
    (s.setBroker broker b).stations = s.stations := rfl

@[simp] theorem setStation_brokers (s : Cluster) (worker : WorkerId) (st : Station) :
    (s.setStation worker st).brokers = s.brokers := rfl

theorem setBroker_brokers (s : Cluster) (broker b' : BrokerId) (b : Broker) :
    (s.setBroker broker b).brokers b' = if b' = broker then b else s.brokers b' :=
  Function.update_apply ..

theorem setStation_stations (s : Cluster) (worker w : WorkerId) (st : Station) :
    (s.setStation worker st).stations w = if w = worker then st else s.stations w :=
  Function.update_apply ..

variable {config : ClusterConfig} {s s' : Cluster}

theorem outside_cases {broker : BrokerId} {e : BrokerEvent}
    (h : s.step config (.outside broker e) = some s') :
    isOfWorker e = false ∧
      ∃ b, (s.brokers broker).step config.broker e = some b ∧ s' = s.setBroker broker b := by
  rw [step] at h
  split at h
  · cases h
  · next hworker =>
    obtain ⟨b, hb, rfl⟩ := Option.map_eq_some_iff.mp h
    exact ⟨by simpa using hworker, b, hb, rfl⟩

theorem station_cases {worker : WorkerId} {e : StationEvent}
    (h : s.step config (.station worker e) = some s') :
    s.heard e = true ∧ ∃ st, (s.stations worker).step config.communicator e = some st ∧
      s' = s.setStation worker st := by
  rw [step] at h
  split at h
  · next hheard =>
    obtain ⟨st, hst, rfl⟩ := Option.map_eq_some_iff.mp h
    exact ⟨hheard, st, hst, rfl⟩
  · cases h

/-- What reaches a broker is a request for a job, which it answers, or a result. -/
theorem deliver_cases {worker : WorkerId} {i : Nat}
    (h : s.step config (.deliver worker i) = some s') :
    (∃ broker, (s.stations worker).outgoing[i]? = some (.getJob broker) ∧
      s' = (s.setBroker broker ((s.brokers broker).giveJob [worker])).setStation worker
        { s.stations worker with
          outgoing := (s.stations worker).outgoing.eraseIdx i
          incoming := (s.stations worker).incoming ++
            answersTo broker worker
              (((s.brokers broker).giveJob [worker]).sent.drop (s.brokers broker).sent.length) }) ∨
    ∃ broker tile b, (s.stations worker).outgoing[i]? = some (.result broker tile) ∧
      (s.brokers broker).sendTileToListeners tile = some b ∧
      s' = (s.setBroker broker b).setStation worker
        { s.stations worker with
          outgoing := (s.stations worker).outgoing.eraseIdx i
          incoming := (s.stations worker).incoming ++
            answersTo broker worker (b.sent.drop (s.brokers broker).sent.length)
          taken := (s.stations worker).taken ++ [(broker, tile)] } := by
  rw [step, deliver] at h
  obtain ⟨message, hmessage, h⟩ := Option.bind_eq_some_iff.mp h
  obtain ⟨⟨broker, e⟩, hreceived, h⟩ := Option.bind_eq_some_iff.mp h
  obtain ⟨b, hb, rfl⟩ := Option.map_eq_some_iff.mp h
  cases message with
  | getJob target =>
    obtain ⟨rfl, rfl⟩ := Prod.mk.inj (Option.some.inj hreceived)
    obtain rfl := Option.some.inj hb
    refine .inl ⟨target, hmessage, ?_⟩
    simp only [Station.resultOf, Option.toList_none, List.append_nil]
  | result target tile =>
    obtain ⟨rfl, rfl⟩ := Prod.mk.inj (Option.some.inj hreceived)
    exact .inr ⟨target, tile, b, hmessage, hb, rfl⟩
  | tile tile => cases hreceived

end Cluster

end RenderMq
