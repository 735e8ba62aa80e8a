import RenderMq.Tile.Protocol
import Mathlib

/-!
# The worker's communicator

`zmq_backend_worker::task_communicator`: the thread between a worker and the brokers. It collects
the brokers' announcements, asks the best of them for a job when the worker wants one, passes the
job on, and routes the result back. One turn of its loop (`round`) first looks whether the broker it
asked has timed out, and then reads at most one message.

Two things that the source leaves to its libraries are arguments. The clock is read once a turn. The
order in which an `unordered_map` is walked is an `Iteration`, any permutation of the entries; it
decides between brokers with the same status.
-/

namespace RenderMq

/-! ## What is known about the brokers -/

/-- `broker_status`. Both members are an `int` in the source. -/
structure BrokerStatus where
  maxPriority : Int
  queueLength : Int
  deriving DecidableEq, Repr

namespace BrokerStatus

/-- The default constructor: the worst status. -/
def worst : BrokerStatus := ⟨-2 ^ 31, -2 ^ 31⟩

/-- The status of an announcement: a `uint32_t` and a `uint64_t`, each converted to `int`. -/
def announced (maxPriority : BitVec 32) (qsize : BitVec 64) : BrokerStatus :=
  ⟨maxPriority.toInt, (qsize.setWidth 32).toInt⟩

/-- `operator>`: by priority, then by queue length. -/
def better (a b : BrokerStatus) : Bool :=
  decide (a.maxPriority > b.maxPriority) ||
    (decide (a.maxPriority = b.maxPriority) && decide (a.queueLength > b.queueLength))

theorem better_trans {a b c : BrokerStatus} (hab : a.better b = true) (hbc : b.better c = true) :
    a.better c = true := by
  simp only [better, Bool.or_eq_true, Bool.and_eq_true, decide_eq_true_eq] at *
  omega

theorem not_better_self (a : BrokerStatus) : a.better a = false := by
  simp [better]

/-- What is not better than a status is not better than a better one. -/
theorem not_better_of_better {a b c : BrokerStatus} (hab : a.better b = true)
    (hcb : c.better b = false) : c.better a = false := by
  cases hca : c.better a with
  | false => rfl
  | true => exact absurd (better_trans hca hab) (by simp [hcb])

end BrokerStatus

abbrev BrokersWithJobs := AList fun _ : BrokerId => BrokerStatus

/-- The order in which a map is walked. -/
structure Iteration where
  entries : BrokersWithJobs → List (Sigma fun _ : BrokerId => BrokerStatus)
  perm : ∀ m, (entries m).Perm m.entries

/-- Walk a map in the order of its entries. -/
def Iteration.inOrder : Iteration := ⟨fun m => m.entries, fun _ => .refl _⟩

/-- The loop of `highest_priority_broker`. -/
def bestOf (broker : Option BrokerId) (best : BrokerStatus) :
    List (Sigma fun _ : BrokerId => BrokerStatus) → Option BrokerId
  | [] => broker
  | status :: rest =>
    if status.2.better best then bestOf (some status.1) status.2 rest
    else bestOf broker best rest

/-- `highest_priority_broker`. -/
def highestPriorityBroker (iteration : Iteration) (brokersWithJobs : BrokersWithJobs) :
    Option BrokerId :=
  bestOf none .worst (iteration.entries brokersWithJobs)

/-- The loop answers the broker it started with, if nothing is better, or else one of the best. -/
theorem bestOf_spec (broker : Option BrokerId) (best : BrokerStatus)
    (l : List (Sigma fun _ : BrokerId => BrokerStatus)) :
    (bestOf broker best l = broker ∧ ∀ s ∈ l, s.2.better best = false) ∨
      ∃ s ∈ l, bestOf broker best l = some s.1 ∧ s.2.better best = true ∧
        ∀ s' ∈ l, s'.2.better s.2 = false := by
  induction l generalizing broker best with
  | nil => exact .inl ⟨rfl, by simp⟩
  | cons status rest ih =>
    rw [bestOf]
    split
    · next hbetter =>
      rcases ih (some status.1) status.2 with ⟨heq, hnone⟩ | ⟨s, hs, heq, hs', hall⟩
      · refine .inr ⟨status, List.mem_cons_self, heq, hbetter, ?_⟩
        exact List.forall_mem_cons.mpr ⟨BrokerStatus.not_better_self _, hnone⟩
      · refine .inr ⟨s, List.mem_cons_of_mem _ hs, heq,
          BrokerStatus.better_trans hs' hbetter, ?_⟩
        refine List.forall_mem_cons.mpr ⟨?_, hall⟩
        exact BrokerStatus.not_better_of_better hs' (BrokerStatus.not_better_self _)
    · next hnot =>
      have hnot' : status.2.better best = false := by simpa using hnot
      rcases ih broker best with ⟨heq, hnone⟩ | ⟨s, hs, heq, hs', hall⟩
      · exact .inl ⟨heq, List.forall_mem_cons.mpr ⟨hnot', hnone⟩⟩
      · refine .inr ⟨s, List.mem_cons_of_mem _ hs, heq, hs', ?_⟩
        exact List.forall_mem_cons.mpr
          ⟨BrokerStatus.not_better_of_better hs' hnot', hall⟩

/-- The broker that is asked has announced jobs, and no other has announced a better status. -/
theorem highestPriorityBroker_spec {iteration : Iteration} {m : BrokersWithJobs} {b : BrokerId}
    (h : highestPriorityBroker iteration m = some b) :
    ∃ status, m.lookup b = some status ∧
      ∀ b' status', m.lookup b' = some status' → status'.better status = false := by
  have hlookup : ∀ s : Sigma fun _ : BrokerId => BrokerStatus,
      s ∈ iteration.entries m ↔ m.lookup s.1 = some s.2 := by
    intro s
    rw [(iteration.perm m).mem_iff, ← AList.mem_lookup_iff, Option.mem_def]
  rcases bestOf_spec none .worst (iteration.entries m) with ⟨heq, _⟩ | ⟨s, hs, heq, _, hall⟩
  · rw [highestPriorityBroker, heq] at h
    cases h
  · rw [highestPriorityBroker, heq] at h
    obtain rfl := Option.some.inj h
    refine ⟨s.2, (hlookup s).mp hs, fun b' status' h' => ?_⟩
    exact hall ⟨b', status'⟩ ((hlookup _).mpr h')

/-! ## The state machine -/

/-- `communicator_state`. -/
inductive CommunicatorState where
  | idle
  | waitingForJob
  | tryingToGetJob
  | jobProcessing
  deriving DecidableEq, Repr

structure Communicator where
  state : CommunicatorState := .idle
  currentBroker : Option BrokerId := none
  brokersWithJobs : BrokersWithJobs := ∅
  getJobRetryTime : Int := 0

/-- What stays fixed: how the map is walked, and how long a broker may take (in milliseconds). -/
structure CommunicatorConfig where
  iteration : Iteration
  brokerTimeout : Int := 30000

/-- What the communicator sends. -/
inductive CommunicatorOutput where
  /-- `GET_JOB`, to a broker. -/
  | getJob (broker : BrokerId)
  /-- `RESULT`, to a broker. -/
  | result (broker : BrokerId) (tile : TileProtocol)
  /-- A job, to the worker thread. -/
  | tile (tile : TileProtocol)
  deriving DecidableEq

/-- What the communicator reads. -/
inductive CommunicatorInput where
  /-- From a broker: the answer to `GET_JOB`, with the tile if there is a further part. -/
  | reply (broker : BrokerId) (response : String) (tile : Option TileProtocol)
  /-- An announcement of a broker. -/
  | announcement (broker : BrokerId) (maxPriority : BitVec 32) (qsize : BitVec 64)
  /-- From the worker thread: a result, or without one a request for a job. -/
  | worker (result : Option TileProtocol)
  deriving DecidableEq

namespace Communicator

/-- A communicator with what it sent. -/
abbrev Effect := Communicator × List CommunicatorOutput

/-- `try_to_get_job`. -/
def tryToGetJob (config : CommunicatorConfig) (c : Communicator) (now : Int) : Effect :=
  match highestPriorityBroker config.iteration c.brokersWithJobs with
  | some broker =>
    ({ c with
        currentBroker := some broker
        state := .tryingToGetJob
        getJobRetryTime := now + config.brokerTimeout }, [.getJob broker])
  | none => ({ c with currentBroker := none, state := .waitingForJob }, [])

/-- Forget what a broker announced. -/
def dropBroker (c : Communicator) (broker : BrokerId) : Communicator :=
  { c with brokersWithJobs := c.brokersWithJobs.erase broker }

/-- The broker that was asked has not answered in time. -/
def timedOut (c : Communicator) (now : Int) : Bool :=
  decide (c.state = .tryingToGetJob) && decide (c.getJobRetryTime < now)

/-- The first part of a turn: give up on a broker that has timed out, and try another. -/
def checkTimeout (config : CommunicatorConfig) (c : Communicator) (now : Int) : Effect :=
  if c.timedOut now then
    match c.currentBroker with
    | some broker => (c.dropBroker broker).tryToGetJob config now
    | none => c.tryToGetJob config now
  else (c, [])

/-- An answer to `GET_JOB`. Anything but a `JOB` with a tile means that there is none. -/
def handleReply (config : CommunicatorConfig) (c : Communicator) (now : Int) (broker : BrokerId)
    (response : String) (tile : Option TileProtocol) : Effect :=
  match (if response = "JOB" then tile else none) with
  | some tile =>
    if c.state = .tryingToGetJob ∧ c.currentBroker = some broker then
      ({ c with currentBroker := some broker, state := .jobProcessing }, [.tile tile])
    else (c, [])
  | none =>
    if c.state = .tryingToGetJob then (c.dropBroker broker).tryToGetJob config now
    else (c.dropBroker broker, [])

/-- An announcement. -/
def handleAnnouncement (config : CommunicatorConfig) (c : Communicator) (now : Int)
    (broker : BrokerId) (status : BrokerStatus) : Effect :=
  let c := { c with brokersWithJobs := c.brokersWithJobs.insert broker status }
  if c.state = .waitingForJob then c.tryToGetJob config now else (c, [])

/-- A message of the worker thread. -/
def handleWorker (config : CommunicatorConfig) (c : Communicator) (now : Int) :
    Option TileProtocol → Effect
  | some tile =>
    if c.state = .jobProcessing then
      match c.currentBroker with
      | some broker => ({ c with currentBroker := none, state := .idle }, [.result broker tile])
      | none => (c, [])
    else (c, [])
  | none => if c.state = .idle then c.tryToGetJob config now else (c, [])

/-- The second part of a turn: read a message. -/
def handle (config : CommunicatorConfig) (c : Communicator) (now : Int) :
    CommunicatorInput → Effect
  | .reply broker response tile => c.handleReply config now broker response tile
  | .announcement broker maxPriority qsize =>
    c.handleAnnouncement config now broker (.announced maxPriority qsize)
  | .worker result => c.handleWorker config now result

/-- A turn of the loop. -/
def round (config : CommunicatorConfig) (c : Communicator) (now : Int)
    (input : Option CommunicatorInput) : Effect :=
  let checked := c.checkTimeout config now
  match input with
  | some input =>
    let handled := checked.1.handle config now input
    (handled.1, checked.2 ++ handled.2)
  | none => checked

/-! ## What a step can do -/

variable {config : CommunicatorConfig} {c : Communicator} {now : Int}

/-- `try_to_get_job` asks one broker and tries it, or asks none and waits. -/
theorem tryToGetJob_cases (config : CommunicatorConfig) (c : Communicator) (now : Int) :
    (∃ broker, (c.tryToGetJob config now).2 = [.getJob broker] ∧
      (c.tryToGetJob config now).1.state = .tryingToGetJob ∧
      (c.tryToGetJob config now).1.currentBroker = some broker ∧
      (c.tryToGetJob config now).1.getJobRetryTime = now + config.brokerTimeout) ∨
    ((c.tryToGetJob config now).2 = [] ∧
      (c.tryToGetJob config now).1.state = .waitingForJob ∧
      (c.tryToGetJob config now).1.currentBroker = none) := by
  unfold tryToGetJob
  split
  · next broker _ => exact .inl ⟨broker, rfl, rfl, rfl, rfl⟩
  · exact .inr ⟨rfl, rfl, rfl⟩

/-- A timeout is a new attempt, with one broker forgotten. -/
theorem checkTimeout_cases (config : CommunicatorConfig) (c : Communicator) (now : Int) :
    (c.timedOut now = false ∧ c.checkTimeout config now = (c, [])) ∨
      (c.timedOut now = true ∧
        ∃ c' : Communicator, c.checkTimeout config now = c'.tryToGetJob config now) := by
  unfold checkTimeout
  cases h : c.timedOut now with
  | false => exact .inl ⟨rfl, if_neg (by simp)⟩
  | true =>
    refine .inr ⟨rfl, ?_⟩
    rw [if_pos rfl]
    split
    · next broker _ => exact ⟨c.dropBroker broker, rfl⟩
    · exact ⟨c, rfl⟩

/-- A job offered by a broker: whether it is passed on. -/
def accepts (c : Communicator) (broker : BrokerId) : Prop :=
  c.state = .tryingToGetJob ∧ c.currentBroker = some broker

instance (c : Communicator) (broker : BrokerId) : Decidable (c.accepts broker) :=
  inferInstanceAs (Decidable (_ ∧ _))

end Communicator

end RenderMq
