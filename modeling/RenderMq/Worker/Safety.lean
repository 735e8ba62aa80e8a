import RenderMq.Lib.Run
import RenderMq.Worker.Communicator

/-!
# The communicator and its worker thread

The worker thread and the communicator talk over a pair of in-process sockets, a queue in each
direction (`toCommunicator`, `toWorker`). The thread asks for a job and waits for it; with a job it
returns a result or is done without one, and may then ask again. Brokers may send the communicator
anything at any time.

A job travels with the broker that offered it (`Delivery`), so that it can be said where its result
belongs. The source does not keep that broker with the job: it relies on `current_broker`.

The two threads are always in one of eleven situations (`Phase`), and every claim about them is read
off the situation. `consistent_step` is the step, by the two parts of a turn and the three things
that the worker thread does.
-/

namespace RenderMq

/-- A job passed to the worker thread, with the broker that offered it. -/
structure Delivery where
  broker : BrokerId
  tile : TileProtocol
  deriving DecidableEq

/-- What the worker thread is doing. -/
inductive WorkerThread where
  | ready
  | waiting
  | working (delivery : Delivery)
  deriving DecidableEq

/-- What the worker thread sends: `get_job` an empty message, `notify` the job it answers. -/
inductive WorkerMessage where
  | getJob
  | result (delivery : Delivery) (tile : TileProtocol)
  deriving DecidableEq

/-- The communicator and the worker thread, with a record of what went through. -/
structure WorkerSystem where
  communicator : Communicator := {}
  worker : WorkerThread := .ready
  toCommunicator : List WorkerMessage := []
  toWorker : List Delivery := []
  /-- How often the worker thread has asked for a job. -/
  requests : Nat := 0
  /-- The jobs passed to it. -/
  passed : List Delivery := []
  /-- The results it has returned, each with the broker of the job it answers. -/
  returned : List (BrokerId × TileProtocol) := []
  /-- The `RESULT` messages sent, with the broker they went to. -/
  results : List (BrokerId × TileProtocol) := []

/-- What a turn reads. -/
inductive RoundInput where
  | nothing
  | reply (broker : BrokerId) (response : String) (tile : Option TileProtocol)
  | announcement (broker : BrokerId) (maxPriority : BitVec 32) (qsize : BitVec 64)
  /-- The next message of the worker thread. -/
  | worker
  deriving DecidableEq

inductive WorkerEvent where
  /-- A turn of the communicator's loop. -/
  | round (now : Int) (input : RoundInput)
  /-- The worker thread sends its request for a job, and waits. -/
  | ask
  /-- The worker thread receives a job. -/
  | receive
  /-- The worker thread is done with its job, with a result or without. -/
  | finish (result : Option TileProtocol)
  deriving DecidableEq

namespace WorkerSystem

/-! ## The step -/

/-- The jobs among some messages, which a broker offered. -/
def passedBy (broker : BrokerId) (outputs : List CommunicatorOutput) : List Delivery :=
  outputs.filterMap fun
    | .tile tile => some ⟨broker, tile⟩
    | _ => none

/-- The results among some messages. -/
def resultsIn (outputs : List CommunicatorOutput) : List (BrokerId × TileProtocol) :=
  outputs.filterMap fun
    | .result broker tile => some (broker, tile)
    | _ => none

/-- The results on their way to the communicator. -/
def onTheirWay (messages : List WorkerMessage) : List (BrokerId × TileProtocol) :=
  messages.filterMap fun
    | .result delivery tile => some (delivery.broker, tile)
    | .getJob => none

/-- Take over what the communicator did. -/
def apply (s : WorkerSystem) (broker : BrokerId) (effect : Communicator.Effect) : WorkerSystem :=
  { s with
    communicator := effect.1
    toWorker := s.toWorker ++ passedBy broker effect.2
    passed := s.passed ++ passedBy broker effect.2
    results := s.results ++ resultsIn effect.2 }

def inputOf : WorkerMessage → CommunicatorInput
  | .getJob => .worker none
  | .result _ tile => .worker (some tile)

/-- A turn of the loop; there must be a message to read one. -/
def takeRound (config : CommunicatorConfig) (s : WorkerSystem) (now : Int) :
    RoundInput → Option WorkerSystem
  | .nothing => some (s.apply "" (s.communicator.round config now none))
  | .reply broker response tile =>
    some (s.apply broker (s.communicator.round config now (some (.reply broker response tile))))
  | .announcement broker maxPriority qsize =>
    some (s.apply broker
      (s.communicator.round config now (some (.announcement broker maxPriority qsize))))
  | .worker =>
    match s.toCommunicator with
    | message :: rest =>
      some ({ s with toCommunicator := rest }.apply ""
        (s.communicator.round config now (some (inputOf message))))
    | [] => none

def step (config : CommunicatorConfig) (s : WorkerSystem) : WorkerEvent → Option WorkerSystem
  | .round now input => s.takeRound config now input
  | .ask =>
    match s.worker with
    | .ready => some
      { s with
        worker := .waiting
        toCommunicator := s.toCommunicator ++ [.getJob]
        requests := s.requests + 1 }
    | _ => none
  | .receive =>
    match s.worker, s.toWorker with
    | .waiting, delivery :: rest => some { s with worker := .working delivery, toWorker := rest }
    | _, _ => none
  | .finish result =>
    match s.worker with
    | .working delivery =>
      match result with
      | some tile => some
        { s with
          worker := .ready
          toCommunicator := s.toCommunicator ++ [.result delivery tile]
          returned := s.returned ++ [(delivery.broker, tile)] }
      | none => some { s with worker := .ready }
    | _ => none

/-! ## The situations -/

/-- The situations, by the communicator's state and broker, the worker thread, and the two
queues. -/
inductive Phase : CommunicatorState → Option BrokerId → WorkerThread → List WorkerMessage →
    List Delivery → Prop where
  | resting (current) : Phase .idle current .ready [] []
  | asked (current) : Phase .idle current .waiting [.getJob] []
  | waiting (current) : Phase .waitingForJob current .waiting [] []
  | trying (broker) : Phase .tryingToGetJob (some broker) .waiting [] []
  | passed (delivery) : Phase .jobProcessing (some delivery.broker) .waiting [] [delivery]
  | working (delivery) : Phase .jobProcessing (some delivery.broker) (.working delivery) [] []
  | returned (delivery tile) :
    Phase .jobProcessing (some delivery.broker) .ready [.result delivery tile] []
  | returnedAsked (delivery tile) :
    Phase .jobProcessing (some delivery.broker) .waiting [.result delivery tile, .getJob] []
  -- from here on the worker thread gave no result, and the communicator waits for one
  | dropped (broker) : Phase .jobProcessing (some broker) .ready [] []
  | droppedAsked (broker) : Phase .jobProcessing (some broker) .waiting [.getJob] []
  | stuck (broker) : Phase .jobProcessing (some broker) .waiting [] []

theorem Phase.brokerSet {state : CommunicatorState} {current : Option BrokerId}
    {worker : WorkerThread} {toCommunicator : List WorkerMessage} {toWorker : List Delivery}
    (h : Phase state current worker toCommunicator toWorker)
    (hstate : state = .tryingToGetJob ∨ state = .jobProcessing) : current.isSome := by
  cases h with
  | resting => simp at hstate
  | asked => simp at hstate
  | waiting => simp at hstate
  | _ => rfl

/-- While a broker is tried, or all are waited for, the worker thread waits. -/
theorem Phase.waits {state : CommunicatorState} {current : Option BrokerId} {worker : WorkerThread}
    {toCommunicator : List WorkerMessage} {toWorker : List Delivery}
    (h : Phase state current worker toCommunicator toWorker)
    (hstate : state = .tryingToGetJob ∨ state = .waitingForJob) :
    worker = .waiting ∧ toCommunicator = [] ∧ toWorker = [] := by
  cases h with
  | waiting => exact ⟨rfl, rfl, rfl⟩
  | trying => exact ⟨rfl, rfl, rfl⟩
  | _ => simp at hstate

/-- The situation of a communicator with the worker thread and the queues. -/
abbrev PhaseOf (c : Communicator) (worker : WorkerThread) (toCommunicator : List WorkerMessage)
    (toWorker : List Delivery) : Prop :=
  Phase c.state c.currentBroker worker toCommunicator toWorker

/-- Some messages have nothing for the worker thread, and no result. -/
def Quiet (outputs : List CommunicatorOutput) : Prop :=
  ∀ o ∈ outputs, ∃ broker, o = .getJob broker

theorem Quiet.passedBy {outputs : List CommunicatorOutput} (h : Quiet outputs)
    (broker : BrokerId) : passedBy broker outputs = [] := by
  refine List.filterMap_eq_nil_iff.mpr fun o ho => ?_
  obtain ⟨b, rfl⟩ := h o ho
  rfl

theorem Quiet.resultsIn {outputs : List CommunicatorOutput} (h : Quiet outputs) :
    resultsIn outputs = [] := by
  refine List.filterMap_eq_nil_iff.mpr fun o ho => ?_
  obtain ⟨b, rfl⟩ := h o ho
  rfl

theorem quiet_nil : Quiet [] := by simp [Quiet]

variable {config : CommunicatorConfig} {c : Communicator} {now : Int}

/-- After an attempt the worker thread still waits, and a broker is asked or none is. -/
theorem phase_tryToGetJob (config : CommunicatorConfig) (c : Communicator) (now : Int) :
    PhaseOf (c.tryToGetJob config now).1 .waiting [] [] ∧ Quiet (c.tryToGetJob config now).2 := by
  rcases c.tryToGetJob_cases config now with ⟨broker, hout, hstate, hcurrent, _⟩ |
    ⟨hout, hstate, _⟩
  · rw [PhaseOf, hstate, hcurrent, hout]
    exact ⟨.trying broker, by simp [Quiet]⟩
  · rw [PhaseOf, hstate, hout]
    exact ⟨.waiting _, quiet_nil⟩

/-- The first part of a turn keeps the situation: a timeout happens only while a broker is tried. -/
theorem phase_checkTimeout {worker : WorkerThread} {tc : List WorkerMessage} {tw : List Delivery}
    (h : PhaseOf c worker tc tw) (config : CommunicatorConfig) (now : Int) :
    PhaseOf (c.checkTimeout config now).1 worker tc tw ∧
      Quiet (c.checkTimeout config now).2 := by
  rcases c.checkTimeout_cases config now with ⟨_, heq⟩ | ⟨htimeout, c', heq⟩
  · rw [heq]
    exact ⟨h, quiet_nil⟩
  · have hstate : c.state = .tryingToGetJob := by
      simp only [Communicator.timedOut, Bool.and_eq_true, decide_eq_true_eq] at htimeout
      exact htimeout.1
    obtain ⟨rfl, rfl, rfl⟩ := h.waits (.inl hstate)
    rw [heq]
    exact phase_tryToGetJob config c' now

/-- A job is passed on from a broker that is being tried, to a worker thread that waits; nothing
else is passed. -/
theorem phase_handleReply {worker : WorkerThread} {tc : List WorkerMessage} {tw : List Delivery}
    (h : PhaseOf c worker tc tw) (config : CommunicatorConfig) (now : Int) (broker : BrokerId)
    (response : String) (tile : Option TileProtocol) :
    (PhaseOf (c.handleReply config now broker response tile).1 worker tc tw ∧
      Quiet (c.handleReply config now broker response tile).2) ∨
    ∃ job, response = "JOB" ∧ tile = some job ∧ c.accepts broker ∧
      worker = .waiting ∧ tc = [] ∧ tw = [] ∧
      (c.handleReply config now broker response tile).2 = [.tile job] ∧
      PhaseOf (c.handleReply config now broker response tile).1 worker tc [⟨broker, job⟩] := by
  unfold Communicator.handleReply
  split
  · next job hjob =>
    split
    · next haccepts =>
      refine .inr ⟨job, ?_⟩
      obtain ⟨rfl, rfl⟩ : response = "JOB" ∧ tile = some job := by
        split at hjob
        · next hresponse => exact ⟨hresponse, hjob⟩
        · cases hjob
      rw [PhaseOf, haccepts.1, haccepts.2] at h
      cases h
      exact ⟨rfl, rfl, haccepts, rfl, rfl, rfl, rfl, .passed ⟨broker, job⟩⟩
    · exact .inl ⟨h, quiet_nil⟩
  · left
    split
    · next hstate =>
      obtain ⟨rfl, rfl, rfl⟩ := h.waits (.inl hstate)
      exact phase_tryToGetJob config _ now
    · exact ⟨h, quiet_nil⟩

theorem phase_handleAnnouncement {worker : WorkerThread} {tc : List WorkerMessage}
    {tw : List Delivery} (h : PhaseOf c worker tc tw) (config : CommunicatorConfig) (now : Int)
    (broker : BrokerId) (status : BrokerStatus) :
    PhaseOf (c.handleAnnouncement config now broker status).1 worker tc tw ∧
      Quiet (c.handleAnnouncement config now broker status).2 := by
  simp only [Communicator.handleAnnouncement]
  split
  · next hstate =>
    obtain ⟨rfl, rfl, rfl⟩ := h.waits (.inr hstate)
    exact phase_tryToGetJob config _ now
  · exact ⟨h, quiet_nil⟩

/-- A message of the worker thread is a request, answered by an attempt if the communicator is idle,
or a result, which goes to the broker of its job. -/
theorem phase_handleWorker {worker : WorkerThread} {message : WorkerMessage}
    {tc : List WorkerMessage} {tw : List Delivery} (h : PhaseOf c worker (message :: tc) tw)
    (config : CommunicatorConfig) (now : Int) :
    PhaseOf (c.handle config now (inputOf message)).1 worker tc tw ∧
      (∀ broker, passedBy broker (c.handle config now (inputOf message)).2 = []) ∧
      resultsIn (c.handle config now (inputOf message)).2 = onTheirWay [message] := by
  obtain ⟨state, current, brokersWithJobs, retryTime⟩ := c
  cases h with
  | asked =>
    obtain ⟨hphase, hquiet⟩ :=
      phase_tryToGetJob config ⟨.idle, current, brokersWithJobs, retryTime⟩ now
    exact ⟨hphase, fun broker => hquiet.passedBy broker, hquiet.resultsIn⟩
  | returned delivery tile => exact ⟨.resting _, fun _ => rfl, rfl⟩
  | returnedAsked delivery tile => exact ⟨.asked _, fun _ => rfl, rfl⟩
  | droppedAsked broker => exact ⟨.stuck broker, fun _ => rfl, rfl⟩

/-- A worker thread that may send a message leaves the first part of a turn nothing to do. -/
theorem checkTimeout_of_message {worker : WorkerThread} {message : WorkerMessage}
    {tc : List WorkerMessage} {tw : List Delivery} (h : PhaseOf c worker (message :: tc) tw)
    (config : CommunicatorConfig) (now : Int) : c.checkTimeout config now = (c, []) := by
  rcases c.checkTimeout_cases config now with ⟨_, heq⟩ | ⟨htimeout, _⟩
  · exact heq
  · simp only [Communicator.timedOut, Bool.and_eq_true, decide_eq_true_eq] at htimeout
    rw [PhaseOf, htimeout.1] at h
    generalize c.currentBroker = current at h
    cases h

/-! ## The invariant -/

/-- The situation, and the record of what went through. -/
structure Consistent (s : WorkerSystem) : Prop where
  phase : PhaseOf s.communicator s.worker s.toCommunicator s.toWorker
  /-- Each result returned is sent once, to its broker, or still on its way. -/
  results : s.results ++ onTheirWay s.toCommunicator = s.returned
  /-- A job passed has its own request, and an unanswered request has no job yet. -/
  requests : s.passed.length + (if s.worker = .waiting ∧ s.toWorker = [] then 1 else 0) ≤ s.requests

theorem consistent_start : Consistent {} where
  phase := .resting none
  results := rfl
  requests := le_refl 0

/-- A turn that passes nothing on and has no result. -/
theorem Consistent.quiet {s : WorkerSystem} (h : Consistent s) {broker : BrokerId}
    {effect : Communicator.Effect}
    (hphase : PhaseOf effect.1 s.worker s.toCommunicator s.toWorker) (hquiet : Quiet effect.2) :
    Consistent (s.apply broker effect) := by
  have hsame : s.apply broker effect = { s with communicator := effect.1 } := by
    simp only [apply, hquiet.passedBy, hquiet.resultsIn, List.append_nil]
  rw [hsame]
  exact ⟨hphase, h.results, h.requests⟩

/-- What a step may pass to the worker thread: nothing, or the one job of a `JOB` from the broker
that is being tried, when the worker thread's request has been read and nothing is on its way. -/
def PassesRightly (config : CommunicatorConfig) (s : WorkerSystem) (e : WorkerEvent)
    (s' : WorkerSystem) : Prop :=
  s'.passed = s.passed ∨
    ∃ now broker tile, e = .round now (.reply broker "JOB" (some tile)) ∧
      (s.communicator.checkTimeout config now).1.accepts broker ∧
      s.worker = .waiting ∧ s.toCommunicator = [] ∧ s.toWorker = [] ∧
      s'.passed = s.passed ++ [⟨broker, tile⟩] ∧ s'.toWorker = [⟨broker, tile⟩]

/-- A turn that reads nothing of the worker thread's, in terms of its second part. -/
theorem apply_round (s : WorkerSystem) (broker : BrokerId) (config : CommunicatorConfig) (now : Int)
    (input : CommunicatorInput) (quiet : Quiet (s.communicator.checkTimeout config now).2) :
    s.apply broker (s.communicator.round config now (some input)) =
      s.apply broker ((s.communicator.checkTimeout config now).1.handle config now input) := by
  have hpassed := quiet.passedBy broker
  have hresults := quiet.resultsIn
  unfold passedBy at hpassed
  unfold resultsIn at hresults
  simp only [Communicator.round, apply, passedBy, resultsIn, List.filterMap_append, hpassed,
    hresults, List.nil_append]

/-- A turn that reads a message of the worker thread passes nothing to it. -/
theorem consistent_takeMessage {s s' : WorkerSystem} (h : Consistent s) {now : Int}
    (hstep : s.takeRound config now .worker = some s') :
    Consistent s' ∧ s'.passed = s.passed := by
  rw [takeRound] at hstep
  split at hstep
  · next message rest hmessages =>
    obtain rfl := Option.some.inj hstep
    have hphase := h.phase
    rw [hmessages] at hphase
    have hround : s.communicator.round config now (some (inputOf message)) =
        s.communicator.handle config now (inputOf message) := by
      simp only [Communicator.round, checkTimeout_of_message hphase config now, List.nil_append]
    rw [hround]
    obtain ⟨hphase', hpassed, hresults⟩ := phase_handleWorker hphase config now
    have hsplit : onTheirWay s.toCommunicator = onTheirWay [message] ++ onTheirWay rest := by
      rw [hmessages, ← List.singleton_append, onTheirWay, List.filterMap_append]
      rfl
    refine ⟨⟨?_, ?_, ?_⟩, ?_⟩
    · simp only [apply, hpassed, List.append_nil]
      exact hphase'
    · simp only [apply, hresults, List.append_assoc]
      rw [← hsplit]
      exact h.results
    · simp only [apply, hpassed, List.append_nil]
      exact h.requests
    · simp only [apply, hpassed, List.append_nil]
  · cases hstep

theorem consistent_takeRound {s s' : WorkerSystem} (h : Consistent s) {now : Int}
    {input : RoundInput} (hstep : s.takeRound config now input = some s') :
    Consistent s' ∧ PassesRightly config s (.round now input) s' := by
  obtain ⟨hchecked, hquiet⟩ := phase_checkTimeout h.phase config now
  -- a quiet turn is consistent and passes nothing
  have quiet : ∀ {broker : BrokerId} {effect : Communicator.Effect},
      PhaseOf effect.1 s.worker s.toCommunicator s.toWorker → Quiet effect.2 →
      Consistent (s.apply broker effect) ∧
        PassesRightly config s (.round now input) (s.apply broker effect) := by
    intro broker effect hphase hq
    refine ⟨h.quiet hphase hq, .inl ?_⟩
    simp only [apply, hq.passedBy, List.append_nil]
  cases input with
  | nothing =>
    obtain rfl := Option.some.inj hstep
    exact quiet hchecked hquiet
  | announcement broker maxPriority qsize =>
    obtain rfl := Option.some.inj hstep
    rw [apply_round _ _ _ _ _ hquiet]
    obtain ⟨hphase, hq⟩ := phase_handleAnnouncement hchecked config now broker
      (.announced maxPriority qsize)
    exact quiet hphase hq
  | reply broker response tile =>
    obtain rfl := Option.some.inj hstep
    rw [apply_round _ _ _ _ _ hquiet]
    rcases phase_handleReply hchecked config now broker response tile with ⟨hphase, hq⟩ |
      ⟨job, rfl, rfl, haccepts, hworker, htc, htw, hout, hphase⟩
    · exact quiet hphase hq
    · have hpassed : passedBy broker ((s.communicator.checkTimeout config now).1.handle config now
          (.reply broker "JOB" (some job))).2 = [⟨broker, job⟩] := by
        rw [Communicator.handle, hout]
        rfl
      have hresults : resultsIn ((s.communicator.checkTimeout config now).1.handle config now
          (.reply broker "JOB" (some job))).2 = [] := by
        rw [Communicator.handle, hout]
        rfl
      have hcount := h.requests
      rw [if_pos ⟨hworker, htw⟩] at hcount
      refine ⟨⟨?_, ?_, ?_⟩, .inr ⟨now, broker, job, rfl, haccepts, hworker, htc, htw, ?_, ?_⟩⟩
      · simp only [apply, hpassed, htw, List.nil_append]
        exact hphase
      · simp only [apply, hresults, List.append_nil]
        exact h.results
      · simp only [apply, hpassed, htw]
        simpa using hcount
      · simp only [apply, hpassed]
      · simp only [apply, hpassed, htw, List.nil_append]
  | worker =>
    obtain ⟨hconsistent, hpassed⟩ := consistent_takeMessage h hstep
    exact ⟨hconsistent, .inl hpassed⟩

/-- The worker thread asks. -/
theorem consistent_ask {s s' : WorkerSystem} (h : Consistent s)
    (hstep : s.step config .ask = some s') : Consistent s' ∧ s'.passed = s.passed := by
  obtain ⟨⟨state, current, brokers, retryTime⟩, worker, tc, tw, requests, passed, returned,
    results⟩ := s
  obtain ⟨hphase, hresults, hrequests⟩ := h
  cases worker with
  | ready =>
    obtain rfl := Option.some.inj hstep
    have hway : onTheirWay (tc ++ [.getJob]) = onTheirWay tc := by
      rw [onTheirWay, List.filterMap_append]
      exact List.append_nil _
    refine ⟨⟨?_, ?_, ?_⟩, rfl⟩
    · cases hphase with
      | resting => exact .asked current
      | returned delivery tile => exact .returnedAsked delivery tile
      | dropped broker => exact .droppedAsked broker
    · rw [hway]
      exact hresults
    · simp only [reduceCtorEq, false_and, if_false] at hrequests
      dsimp only
      split <;> omega
  | waiting => cases hstep
  | working delivery => cases hstep

/-- The worker thread receives a job. -/
theorem consistent_receive {s s' : WorkerSystem} (h : Consistent s)
    (hstep : s.step config .receive = some s') : Consistent s' ∧ s'.passed = s.passed := by
  obtain ⟨⟨state, current, brokers, retryTime⟩, worker, tc, tw, requests, passed, returned,
    results⟩ := s
  obtain ⟨hphase, hresults, hrequests⟩ := h
  cases hphase with
  | passed delivery =>
    obtain rfl := Option.some.inj hstep
    refine ⟨⟨.working delivery, hresults, ?_⟩, rfl⟩
    simpa using hrequests
  | _ => cases hstep

/-- The worker thread is done with a job. -/
theorem consistent_finish {s s' : WorkerSystem} (h : Consistent s) {result : Option TileProtocol}
    (hstep : s.step config (.finish result) = some s') :
    Consistent s' ∧ s'.passed = s.passed := by
  obtain ⟨⟨state, current, brokers, retryTime⟩, worker, tc, tw, requests, passed, returned,
    results⟩ := s
  obtain ⟨hphase, hresults, hrequests⟩ := h
  cases hphase with
  | working delivery =>
    cases result with
    | some tile =>
      obtain rfl := Option.some.inj hstep
      refine ⟨⟨.returned delivery tile, ?_, ?_⟩, rfl⟩
      · simp only [onTheirWay, List.filterMap_nil, List.append_nil] at hresults
        simp [onTheirWay, hresults]
      · simpa using hrequests
    | none =>
      obtain rfl := Option.some.inj hstep
      refine ⟨⟨.dropped delivery.broker, hresults, ?_⟩, rfl⟩
      simpa using hrequests
  | _ => cases hstep

/-- **The step.** -/
theorem consistent_step {s s' : WorkerSystem} (h : Consistent s) {e : WorkerEvent}
    (hstep : s.step config e = some s') : Consistent s' ∧ PassesRightly config s e s' := by
  cases e with
  | round now input => exact consistent_takeRound h hstep
  | ask => exact (consistent_ask h hstep).imp_right .inl
  | receive => exact (consistent_receive h hstep).imp_right .inl
  | finish result => exact (consistent_finish h hstep).imp_right .inl

/-! ## The guarantee -/

/-- What holds of the communicator and its worker thread at any time. -/
structure Safe (config : CommunicatorConfig) (s : WorkerSystem) : Prop where
  brokerSet : s.communicator.state = .tryingToGetJob ∨ s.communicator.state = .jobProcessing →
    s.communicator.currentBroker.isSome
  /-- There are never more jobs than requests, and a request in waiting has none yet. -/
  requests : s.passed.length + (if s.worker = .waiting ∧ s.toWorker = [] then 1 else 0) ≤ s.requests
  /-- The results returned are those sent, each once and in order to the broker that offered the job
  it answers, and those that have not been read yet. -/
  results : s.results ++ onTheirWay s.toCommunicator = s.returned
  passes : ∀ e s', s.step config e = some s' → PassesRightly config s e s'

theorem Consistent.safe {s : WorkerSystem} (h : Consistent s) (config : CommunicatorConfig) :
    Safe config s where
  brokerSet := h.phase.brokerSet
  requests := h.requests
  results := h.results
  passes _ _ hstep := (consistent_step h hstep).2

/-- **The run.** Whatever brokers send and whenever they do, the communicator is safe: it knows its
broker while it asks one or its worker has a job, it passes on no more jobs than were requested, and
each result that it returns was sent by its worker, once and in order.

The messages of brokers, of the worker and of the timer interleave in any way. That a worker ever gets a
job is not established, since brokers need not answer. -/
theorem communicator_is_safe (config : CommunicatorConfig) (events : List WorkerEvent)
    (s : WorkerSystem) (hrun : Run.run (step config) {} events = some s) : Safe config s := by
  have hstep : ∀ (past : List WorkerEvent) (s : WorkerSystem) (e : WorkerEvent) (t : WorkerSystem),
      Consistent s → s.step config e = some t → Consistent t :=
    fun _ _ _ _ h hs => (consistent_step h hs).1
  exact (Run.run_invariant hstep events [] {} s consistent_start hrun).safe config

/-- The worker thread asks, a broker announces a job and gives it, and gets the result. -/
def oneJob : List WorkerEvent :=
  [.ask, .round 0 .worker, .round 1 (.announcement "b" 100 1),
    .round 2 (.reply "b" "JOB" (some { x := 8 })), .receive,
    .finish (some { x := 8, status := .cmdDone }), .round 3 .worker]

theorem oneJob_is_safe : ∃ s, Run.run (step { iteration := .inOrder }) {} oneJob = some s ∧
    s.results = [("b", { x := 8, status := .cmdDone })] ∧ Safe { iteration := .inOrder } s :=
  ⟨_, rfl, rfl, communicator_is_safe { iteration := .inOrder } oneJob _ rfl⟩

end WorkerSystem

end RenderMq
