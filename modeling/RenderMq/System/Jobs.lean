import RenderMq.System.Cluster

/-!
# Where the jobs are

A job that a broker hands to a worker is, from then on, in exactly one place: on its way, with the
worker, on its way back as a result, read by a broker, or gone astray. `places` lists the jobs of a
station by where they are. A step of a station moves jobs from one place to another
(`places_step`), and only an answer to `GET_JOB` brings a new one (`kept_deliver`). So the jobs in
the places of a station that come from a broker are those the broker has handed to it, each as often
as it was handed out (`Kept`).

What identifies a job is the tile without the outcome (`bare`): its result has another status, time
and data.
-/

namespace RenderMq

/-! ## The places of a station -/

namespace Station

/-- A job or its result, without the outcome. -/
def bare (job : JobAt) : JobAt := (job.1, Broker.returned job.2 .cmdIgnore 0 [])

def ofDelivery (delivery : Delivery) : JobAt := (delivery.broker, delivery.tile)

/-- The job that the worker thread works at. -/
def atThread : WorkerThread → List JobAt
  | .working delivery => [ofDelivery delivery]
  | _ => []

/-- The jobs of a station: on their way to it, passed to the worker thread, with it, returned by it,
on their way back, read by a broker, and gone. -/
def places (st : Station) : List JobAt :=
  st.incoming.filterMap jobOf ++ st.system.toWorker.map ofDelivery ++ atThread st.system.worker ++
    WorkerSystem.onTheirWay st.system.toCommunicator ++ st.outgoing.filterMap resultOf ++ st.taken ++
    st.gone

/-- How often a job is in a list. -/
def times (job : JobAt) (l : List JobAt) : Nat := (l.map bare).count job

@[simp] theorem times_nil (job : JobAt) : times job [] = 0 := rfl

theorem times_append (job : JobAt) (l l' : List JobAt) :
    times job (l ++ l') = times job l + times job l' := by
  simp only [times, List.map_append, List.count_append]

theorem times_places (job : JobAt) (st : Station) :
    times job st.places = times job (st.incoming.filterMap jobOf) +
      times job (st.system.toWorker.map ofDelivery) + times job (atThread st.system.worker) +
      times job (WorkerSystem.onTheirWay st.system.toCommunicator) +
      times job (st.outgoing.filterMap resultOf) + times job st.taken + times job st.gone := by
  simp only [places, times_append]

/-- What is taken out of a list, and what is left. -/
theorem times_eraseIdx {α : Type*} {f : α → Option JobAt} {l : List α} {i : Nat} {a : α}
    (h : l[i]? = some a) (job : JobAt) :
    times job (l.filterMap f) =
      times job (f a).toList + times job ((l.eraseIdx i).filterMap f) := by
  obtain ⟨hi, rfl⟩ := List.getElem?_eq_some_iff.mp h
  have hperm := ((List.getElem_cons_eraseIdx_perm hi).filterMap f).map bare
  rw [times, times, times, ← hperm.count_eq, ← List.count_append, ← List.map_append]
  congr 2
  rw [List.filterMap_cons]
  cases f l[i] <;> rfl

/-! ## A turn -/

variable {config : CommunicatorConfig} {st st' : Station}

/-- The results among the messages that a turn sends. -/
theorem resultOf_toBroker (sent : List CommunicatorOutput) :
    (sent.filter toBroker).filterMap resultOf = WorkerSystem.resultsIn sent := by
  rw [List.filterMap_filter, WorkerSystem.resultsIn]
  refine List.filterMap_congr fun o _ => ?_
  cases o <;> rfl

/-- What a turn does to the queues between the communicator and the worker thread. -/
theorem takeRound_spec {s s' : WorkerSystem} {now : Int} {read : RoundInput}
    (hstep : s.takeRound config now read = some s') :
    let sent := ({ system := s } : Station).outputs config now read
    s'.worker = s.worker ∧ s'.returned = s.returned ∧
      s'.results = s.results ++ WorkerSystem.resultsIn sent ∧
      ∃ broker, (∀ from' response tile, read = .reply from' response tile → from' = broker) ∧
        s'.passed = s.passed ++ WorkerSystem.passedBy broker sent ∧
        s'.toWorker = s.toWorker ++ WorkerSystem.passedBy broker sent := by
  cases read with
  | nothing =>
    obtain rfl := Option.some.inj hstep
    exact ⟨rfl, rfl, rfl, "", by simp, rfl, rfl⟩
  | reply broker response tile =>
    obtain rfl := Option.some.inj hstep
    exact ⟨rfl, rfl, rfl, broker, by simp, rfl, rfl⟩
  | announcement broker maxPriority qsize =>
    obtain rfl := Option.some.inj hstep
    exact ⟨rfl, rfl, rfl, broker, by simp, rfl, rfl⟩
  | worker =>
    simp only [WorkerSystem.takeRound] at hstep
    split at hstep
    · next message rest hmessages =>
      obtain rfl := Option.some.inj hstep
      simp only [outputs, communicatorInput, hmessages, List.head?_cons, Option.map_some]
      exact ⟨rfl, rfl, rfl, "", by simp, rfl, rfl⟩
    · cases hstep

/-- A turn passes the job of the answer it reads to the worker thread or declines it, and sends the
results of the worker thread to the brokers. -/
theorem times_takeTurn (h : st.system.Consistent) {now : Int} {input : TurnInput}
    (hstep : st.takeTurn config now input = some st') (job : JobAt) :
    times job st'.places = times job st.places := by
  obtain ⟨read, hread, hstep⟩ := Option.bind_eq_some_iff.mp hstep
  obtain ⟨system, hround, rfl⟩ := Option.map_eq_some_iff.mp hstep
  obtain ⟨hworker, hreturned, hresults, broker, hbroker, hpassed, htoWorker⟩ := takeRound_spec hround
  obtain ⟨hconsistent, hrightly⟩ := WorkerSystem.consistent_takeRound h hround
  set sent := st.outputs config now read with hsent
  have hsame : ({ system := st.system } : Station).outputs config now read = sent := rfl
  rw [hsame] at hresults hpassed htoWorker
  -- the results that the turn sends are those that it reads from the worker thread
  have hway : times job (WorkerSystem.onTheirWay st.system.toCommunicator) =
      times job (WorkerSystem.resultsIn sent) +
        times job (WorkerSystem.onTheirWay system.toCommunicator) := by
    have hreturns : st.system.results ++ WorkerSystem.onTheirWay st.system.toCommunicator =
        st.system.results ++
          (WorkerSystem.resultsIn sent ++ WorkerSystem.onTheirWay system.toCommunicator) := by
      rw [h.results, ← hreturned, ← hconsistent.results, hresults, List.append_assoc]
    rw [List.append_cancel_left hreturns, times_append]
  -- the job that it reads is passed on or declined
  have hjob : times job (st.incoming.filterMap jobOf) =
      times job ((st.unread input).filterMap jobOf) +
        times job ((WorkerSystem.passedBy broker sent).map ofDelivery) +
          times job (declined sent read) := by
    have hquiet : (∀ from' response tile, read ≠ .reply from' response tile) →
        WorkerSystem.passedBy broker sent = [] := by
      intro hother
      rcases hrightly with hnone | ⟨_, from', tile, heq, _⟩
      · exact List.append_right_eq_self.mp (hpassed.symm.trans hnone)
      · cases heq
        exact absurd rfl (hother _ _ _)
    cases input with
    | answer i =>
      obtain ⟨⟨from', response, tile⟩, hanswer, rfl⟩ := Option.map_eq_some_iff.mp hread
      obtain rfl : from' = broker := hbroker _ _ _ rfl
      rw [times_eraseIdx hanswer, unread, declined]
      rcases hrightly with hnone | ⟨_, _, job', heq, _, _, _, _, hnew, _⟩
      · have hnone' := List.append_right_eq_self.mp (hpassed.symm.trans hnone)
        rw [if_pos hnone', hnone', List.map_nil, times_nil, Nat.add_zero]
        exact Nat.add_comm ..
      · injection heq with _ heq
        injection heq with hfrom hresponse htile
        subst hfrom hresponse htile
        have hone := List.append_cancel_left (hpassed.symm.trans hnew)
        rw [if_neg (by simp [hone]), hone, times_nil]
        exact Nat.add_comm ..
    | nothing =>
      obtain rfl := Option.some.inj hread
      rw [hquiet (by simp)]
      rfl
    | announcement b maxPriority qsize =>
      obtain rfl := Option.some.inj hread
      rw [hquiet (by simp)]
      rfl
    | worker =>
      obtain rfl := Option.some.inj hread
      rw [hquiet (by simp)]
      rfl
  have hout : times job ((st.outgoing ++ sent.filter toBroker).filterMap resultOf) =
      times job (st.outgoing.filterMap resultOf) + times job (WorkerSystem.resultsIn sent) := by
    rw [List.filterMap_append, resultOf_toBroker, times_append]
  simp only [times_places, hworker, htoWorker, hout, List.map_append, times_append]
  omega

/-! ## The other steps of a station -/

theorem consistent_of_step (h : st.system.Consistent) {e : StationEvent}
    (hstep : st.step config e = some st') : st'.system.Consistent := by
  cases e with
  | turn now input =>
    obtain ⟨read, _, hstep⟩ := Option.bind_eq_some_iff.mp hstep
    obtain ⟨system, hround, rfl⟩ := Option.map_eq_some_iff.mp hstep
    exact (WorkerSystem.consistent_takeRound h hround).1
  | ask =>
    obtain ⟨system, hsystem, rfl⟩ := Option.map_eq_some_iff.mp hstep
    exact (WorkerSystem.consistent_step h hsystem).1
  | receive =>
    obtain ⟨system, hsystem, rfl⟩ := Option.map_eq_some_iff.mp hstep
    exact (WorkerSystem.consistent_step h hsystem).1
  | finish outcome =>
    simp only [step, finish] at hstep
    split at hstep
    · obtain ⟨system, hsystem, rfl⟩ := Option.map_eq_some_iff.mp hstep
      exact (WorkerSystem.consistent_step h hsystem).1
    · cases hstep
  | loseMessage i =>
    obtain ⟨_, _, rfl⟩ := Option.map_eq_some_iff.mp hstep
    exact h
  | loseAnswer i =>
    obtain ⟨_, _, rfl⟩ := Option.map_eq_some_iff.mp hstep
    exact h

/-- The worker thread sends its request, which is no job. -/
theorem times_ask (hstep : st.step config .ask = some st') (job : JobAt) :
    times job st'.places = times job st.places := by
  obtain ⟨system, hsystem, rfl⟩ := Option.map_eq_some_iff.mp hstep
  rw [WorkerSystem.step] at hsystem
  split at hsystem
  · next hworker =>
    obtain rfl := Option.some.inj hsystem
    have hway : WorkerSystem.onTheirWay (st.system.toCommunicator ++ [.getJob]) =
        WorkerSystem.onTheirWay st.system.toCommunicator := by
      rw [WorkerSystem.onTheirWay, List.filterMap_append]
      exact List.append_nil _
    simp only [times_places, hway, hworker]
    rfl
  · cases hsystem

/-- The job that was passed is now worked at. -/
theorem times_receive (hstep : st.step config .receive = some st') (job : JobAt) :
    times job st'.places = times job st.places := by
  obtain ⟨system, hsystem, rfl⟩ := Option.map_eq_some_iff.mp hstep
  rw [WorkerSystem.step] at hsystem
  split at hsystem
  · next delivery rest hworker hqueue =>
    obtain rfl := Option.some.inj hsystem
    have hsplit : times job ((delivery :: rest).map ofDelivery) =
        times job [ofDelivery delivery] + times job (rest.map ofDelivery) :=
      times_append job [_] _
    simp only [times_places, hworker, hqueue, hsplit, atThread, times_nil]
    omega
  · cases hsystem

/-- The job worked at is returned or given up. -/
theorem times_finish {outcome : Option WorkerOutcome}
    (hstep : st.step config (.finish outcome) = some st') (job : JobAt) :
    times job st'.places = times job st.places := by
  simp only [step, finish] at hstep
  split at hstep
  · next delivery hworker =>
    obtain ⟨system, hsystem, rfl⟩ := Option.map_eq_some_iff.mp hstep
    simp only [WorkerSystem.step, hworker] at hsystem
    cases outcome with
    | none =>
      obtain rfl := Option.some.inj hsystem
      simp only [times_places, hworker, atThread, ofDelivery, times_nil, Option.isNone_none,
        if_true, times_append]
      omega
    | some outcome =>
      obtain rfl := Option.some.inj hsystem
      have hway : WorkerSystem.onTheirWay
          (st.system.toCommunicator ++ [.result delivery (outcome.of delivery.tile)]) =
          WorkerSystem.onTheirWay st.system.toCommunicator ++
            [(delivery.broker, outcome.of delivery.tile)] := by
        rw [WorkerSystem.onTheirWay, List.filterMap_append]
        rfl
      have hone : times job [(delivery.broker, outcome.of delivery.tile)] =
          times job [ofDelivery delivery] := rfl
      simp only [times_places, hworker, atThread, times_nil, hway, times_append, hone,
        Option.isNone_some, Bool.false_eq_true, if_false]
      omega
  · cases hstep

/-- **The step of a station** keeps its jobs. -/
theorem places_step (h : st.system.Consistent) {e : StationEvent}
    (hstep : st.step config e = some st') (job : JobAt) :
    times job st'.places = times job st.places := by
  cases e with
  | turn now input => exact times_takeTurn h hstep job
  | ask => exact times_ask hstep job
  | receive => exact times_receive hstep job
  | finish outcome => exact times_finish hstep job
  | loseMessage i =>
    obtain ⟨message, hmessage, rfl⟩ := Option.map_eq_some_iff.mp hstep
    simp only [times_places, times_append, times_eraseIdx hmessage]
    omega
  | loseAnswer i =>
    obtain ⟨answer, hanswer, rfl⟩ := Option.map_eq_some_iff.mp hstep
    simp only [times_places, times_append, times_eraseIdx hanswer]
    omega

end Station

/-! ## What a broker hands out -/

namespace Broker

/-- The jobs that a broker has handed to a worker. -/
def handed (worker : WorkerId) (sent : List BrokerMessage) : List TileProtocol :=
  sent.filterMap fun
    | .job addresses proto => if addresses = [worker] then some proto else none
    | _ => none

/-- A message that answers a worker. -/
def isAnswer : BrokerMessage → Bool
  | .job _ _ => true
  | .noJobs _ => true
  | _ => false

theorem handed_append (worker : WorkerId) (sent sent' : List BrokerMessage) :
    handed worker (sent ++ sent') = handed worker sent ++ handed worker sent' :=
  List.filterMap_append

theorem handed_of_quiet (worker : WorkerId) {sent : List BrokerMessage}
    (quiet : ∀ m ∈ sent, isAnswer m = false) : handed worker sent = [] := by
  refine List.filterMap_eq_nil_iff.mpr fun m hm => ?_
  have hquiet := quiet m hm
  cases m with
  | job addresses proto => cases hquiet
  | _ => rfl

theorem quiet_publishAvailability (b : Broker) :
    ∃ new, b.publishAvailability.sent = b.sent ++ new ∧ ∀ m ∈ new, isAnswer m = false := by
  unfold publishAvailability
  split
  · exact ⟨_, rfl, by simp [isAnswer]⟩
  · exact ⟨[], (List.append_nil _).symm, by simp⟩

theorem quiet_repliesTo {tile : TileProtocol} :
    ∀ {subscribers : List Request} {messages : List BrokerMessage},
      repliesTo tile subscribers = some messages → ∀ m ∈ messages, isAnswer m = false
  | [], messages, h => by
    obtain rfl := Option.some.inj h
    simp
  | request :: rest, messages, h => by
    rw [repliesTo] at h
    split at h
    · obtain ⟨reply, _, hmap⟩ := Option.bind_eq_some_iff.mp h
      obtain ⟨others, hothers, rfl⟩ := Option.map_eq_some_iff.mp hmap
      exact List.forall_mem_cons.mpr ⟨rfl, quiet_repliesTo hothers⟩
    · exact quiet_repliesTo h

/-- Only `GET_JOB` is answered to a worker. -/
theorem quiet_step {config : BrokerConfig} {b b' : Broker} {e : BrokerEvent}
    (other : ∀ addresses, e ≠ .getJob addresses) (hstep : b.step config e = some b') :
    ∃ new, b'.sent = b.sent ++ new ∧ ∀ m ∈ new, isAnswer m = false := by
  cases e with
  | request address tile now =>
    obtain rfl := Option.some.inj hstep
    simp only [takeRequest]
    split
    · split
      · exact quiet_publishAvailability _
      · exact ⟨[], (List.append_nil _).symm, by simp⟩
    · exact quiet_publishAvailability _
  | getJob addresses => exact absurd rfl (other addresses)
  | result addresses tile =>
    simp only [step, sendTileToListeners] at hstep
    split at hstep
    · obtain ⟨messages, hmessages, rfl⟩ := Option.map_eq_some_iff.mp hstep
      exact ⟨messages, rfl, quiet_repliesTo hmessages⟩
    · obtain rfl := Option.some.inj hstep
      exact ⟨[], (List.append_nil _).symm, by simp⟩
  | heartbeat =>
    obtain rfl := Option.some.inj hstep
    obtain ⟨new, hnew, hquiet⟩ := quiet_publishAvailability
      { b with sent := b.sent ++ [.heartbeat (.ofNat 64 b.queue.countUnprocessed)] }
    refine ⟨.heartbeat (.ofNat 64 b.queue.countUnprocessed) :: new ++ [.monitor "HEARTBEAT"], ?_, ?_⟩
    · rw [hnew]
      simp
    · simp only [List.mem_append, List.mem_cons, List.not_mem_nil, or_false]
      rintro m ((rfl | hm) | rfl)
      · rfl
      · exact hquiet m hm
      · rfl
  | _ =>
    obtain rfl := Option.some.inj hstep
    exact ⟨_, rfl, by simp [isAnswer]⟩

/-- `GET_JOB` is answered once, to the worker that sent it. -/
theorem giveJob_sent (b : Broker) (addresses : List String) :
    ∃ answer, (b.giveJob addresses).sent = b.sent ++ [answer] ∧
      (answer = .noJobs addresses ∨ ∃ proto, answer = .job addresses proto) := by
  unfold giveJob
  split
  · exact ⟨_, rfl, .inr ⟨_, rfl⟩⟩
  · exact ⟨_, rfl, .inl rfl⟩

end Broker

/-! ## The cluster -/

namespace Cluster

open Station

variable {config : ClusterConfig} {s s' : Cluster}

/-- The jobs in the answers to a worker are those handed to it. -/
theorem jobOf_answersTo (broker : BrokerId) (worker : WorkerId) (sent : List BrokerMessage) :
    (answersTo broker worker sent).filterMap jobOf =
      (Broker.handed worker sent).map (broker, ·) := by
  rw [answersTo, Broker.handed, List.filterMap_filterMap, List.map_filterMap]
  refine List.filterMap_congr fun m _ => ?_
  cases m with
  | job addresses proto => by_cases h : addresses = [worker] <;> simp [h, jobOf]
  | noJobs addresses => by_cases h : addresses = [worker] <;> simp [h, jobOf]
  | _ => rfl

/-- Every worker has its jobs: in its places, those that come from a broker are those that the broker
has handed to it. -/
def Kept (s : Cluster) : Prop :=
  ∀ worker, (s.stations worker).system.Consistent ∧
    ∀ broker job, times (broker, job) (s.stations worker).places =
      times (broker, job) ((Broker.handed worker (s.brokers broker).sent).map (broker, ·))

theorem kept_start : Kept start := fun _ => ⟨WorkerSystem.consistent_start, fun _ _ => rfl⟩

theorem kept_outside (h : Kept s) {broker : BrokerId} {e : BrokerEvent}
    (hstep : s.step config (.outside broker e) = some s') : Kept s' := by
  obtain ⟨hworker, b, hb, rfl⟩ := outside_cases hstep
  obtain ⟨new, hsent, hquiet⟩ := Broker.quiet_step (by rintro _ rfl; cases hworker) hb
  refine fun worker => ⟨(h worker).1, fun broker' job => ?_⟩
  have hplaces := (h worker).2 broker' job
  rw [setBroker_stations, setBroker_brokers]
  split
  · next heq =>
    rw [hsent, Broker.handed_append, Broker.handed_of_quiet worker hquiet, List.append_nil, ← heq]
    exact hplaces
  · exact hplaces

theorem kept_station (h : Kept s) {worker : WorkerId} {e : StationEvent}
    (hstep : s.step config (.station worker e) = some s') : Kept s' := by
  obtain ⟨_, st, hst, rfl⟩ := station_cases hstep
  intro w
  rw [setStation_stations, setStation_brokers]
  split
  · next heq =>
    subst heq
    refine ⟨consistent_of_step (h w).1 hst, fun broker job => ?_⟩
    rw [places_step (h w).1 hst]
    exact (h w).2 broker job
  · exact h w

/-- The jobs of some worker from a broker, as a number. -/
theorem times_other (broker broker' : BrokerId) (hne : broker' ≠ broker) (job : TileProtocol)
    (l : List TileProtocol) : times (broker', job) (l.map (broker, ·)) = 0 := by
  refine List.count_eq_zero.mpr fun hmem => ?_
  simp only [List.map_map, List.mem_map, Function.comp_apply, bare, Prod.mk.injEq] at hmem
  obtain ⟨_, _, heq, _⟩ := hmem
  exact hne heq.symm

/-- A request for a job is answered with what is then handed out, if anything. -/
theorem handed_giveJob (b : Broker) (worker : WorkerId) :
    ∃ new, (b.giveJob [worker]).sent = b.sent ++ new ∧
      ∀ w, w ≠ worker → Broker.handed w new = [] := by
  obtain ⟨answer, hsent, hanswer⟩ := b.giveJob_sent [worker]
  refine ⟨[answer], hsent, fun w hne => ?_⟩
  rcases hanswer with rfl | ⟨proto, rfl⟩
  · rfl
  · simp [Broker.handed, hne.symm]

theorem kept_deliver (h : Kept s) {worker : WorkerId} {i : Nat}
    (hstep : s.step config (.deliver worker i) = some s') : Kept s' := by
  rcases deliver_cases hstep with ⟨broker, hmessage, rfl⟩ | ⟨broker, tile, b, hmessage, hb, rfl⟩
  · obtain ⟨new, hsent, hothers⟩ := handed_giveJob (s.brokers broker) worker
    intro w
    rw [setStation_stations, setStation_brokers]
    constructor
    · split
      · next heq => rw [← heq]; exact (h w).1
      · exact (h w).1
    intro broker' job
    have hplaces := (h w).2 broker' job
    have herase := times_eraseIdx (f := resultOf) hmessage (broker', job)
    by_cases hw : w = worker
    · subst hw
      rw [if_pos rfl, setBroker_brokers, hsent, List.drop_left]
      simp only [times_places, List.filterMap_append, times_append, jobOf_answersTo] at hplaces ⊢
      simp only [resultOf, Option.toList_none, times_nil, Nat.zero_add] at herase
      by_cases hbroker : broker' = broker
      · subst hbroker
        rw [if_pos rfl, hsent, Broker.handed_append, List.map_append, times_append]
        omega
      · rw [if_neg hbroker, times_other broker broker' hbroker]
        omega
    · rw [if_neg hw, setBroker_brokers, setBroker_stations, hplaces]
      split
      · next heq =>
        rw [hsent, Broker.handed_append, hothers w hw, List.append_nil, heq]
      · rfl
  · have hstep' : (s.brokers broker).step config.broker (.result [worker] tile) = some b := hb
    obtain ⟨new, hsent, hquiet⟩ := Broker.quiet_step (by simp) hstep'
    have hhanded : ∀ w broker', Broker.handed w
        ((s.setBroker broker b).brokers broker').sent = Broker.handed w (s.brokers broker').sent := by
      intro w broker'
      rw [setBroker_brokers]
      split
      · next heq =>
        rw [hsent, Broker.handed_append, Broker.handed_of_quiet w hquiet, List.append_nil, heq]
      · rfl
    intro w
    rw [setStation_stations, setStation_brokers]
    constructor
    · split
      · next heq => rw [← heq]; exact (h w).1
      · exact (h w).1
    intro broker' job
    have hplaces := (h w).2 broker' job
    have herase := times_eraseIdx (f := resultOf) hmessage (broker', job)
    rw [hhanded]
    split
    · next heq =>
      subst heq
      rw [hsent, List.drop_left]
      simp only [times_places, List.filterMap_append, times_append, jobOf_answersTo,
        Broker.handed_of_quiet w hquiet, List.map_nil, times_nil] at hplaces ⊢
      simp only [resultOf, Option.toList_some] at herase
      omega
    · exact hplaces

/-- **The step.** -/
theorem kept_step (h : Kept s) {e : ClusterEvent} (hstep : s.step config e = some s') : Kept s' := by
  cases e with
  | outside broker e => exact kept_outside h hstep
  | deliver worker i => exact kept_deliver h hstep
  | station worker e => exact kept_station h hstep

theorem kept_run {events : List ClusterEvent} (hrun : run config events = some s) : Kept s := by
  have hstep : ∀ (past : List ClusterEvent) (s : Cluster) (e : ClusterEvent) (t : Cluster),
      Kept s → s.step config e = some t → Kept t :=
    fun _ _ _ _ h hs => kept_step h hs
  exact Run.run_invariant hstep events [] start s kept_start hrun

/-! ## The guarantee -/

/-- The jobs in some places that come from a broker. -/
def fromBroker (broker : BrokerId) (l : List JobAt) : List JobAt :=
  l.filter fun job => decide (job.1 = broker)

theorem count_fromBroker (broker : BrokerId) (l : List JobAt) (job : JobAt) :
    times job (fromBroker broker l) = if job.1 = broker then times job l else 0 := by
  simp only [times, fromBroker, List.count, List.countP_map, List.countP_filter]
  split
  · next heq =>
    refine List.countP_congr fun p _ => ?_
    simp only [Function.comp_apply, beq_iff_eq, Bool.and_eq_true, decide_eq_true_eq,
      and_iff_left_iff_imp]
    rintro rfl
    exact heq
  · next hne =>
    refine List.countP_eq_zero.mpr fun p _ => ?_
    simp only [Function.comp_apply, beq_iff_eq, Bool.and_eq_true, decide_eq_true_eq, not_and]
    rintro rfl
    exact hne

/-- After every run of a cluster, and for every broker and worker, the jobs that the broker has handed
to the worker are each in exactly one of the worker's places, and no other job of the broker is.

Brokers, workers and their communicators interleave in any way, and answers may be lost, which is one of
the places. A job and its result are taken to be the same, whatever the outcome. That a job ever leaves
a place is not established. -/
theorem jobs_are_kept (config : ClusterConfig) (events : List ClusterEvent) (s : Cluster)
    (hrun : run config events = some s) (worker : WorkerId) (broker : BrokerId) :
    ((fromBroker broker (s.stations worker).places).map bare).Perm
      ((Broker.handed worker (s.brokers broker).sent).map fun job => bare (broker, job)) := by
  refine List.perm_iff_count.mpr fun job => ?_
  have hcount := count_fromBroker broker (s.stations worker).places job
  obtain ⟨b, tile⟩ := job
  have hmap : (Broker.handed worker (s.brokers broker).sent).map (fun job => bare (broker, job)) =
      ((Broker.handed worker (s.brokers broker).sent).map (broker, ·)).map bare := by
    rw [List.map_map]
    rfl
  rw [hmap]
  rw [times] at hcount
  rw [hcount]
  by_cases hb : b = broker
  · subst hb
    rw [if_pos rfl]
    exact (kept_run hrun worker).2 b tile
  · rw [if_neg hb]
    exact (times_other broker b hb tile _).symm

/-- A worker hears of a job, asks for it and gets it. -/
def getsJob (worker : WorkerId) : List ClusterEvent :=
  [.station worker .ask, .station worker (.turn 0 .worker),
    .station worker (.turn 1 (.announcement "b" 100 1)), .deliver worker 0]

/-- Two tiles are requested. The answer to the first worker is lost; the second worker renders. -/
def lostOnce : List ClusterEvent :=
  [.outside "b" (.request "h" { x := 9, y := 3, z := 5, status := .cmdRender } 0),
    .outside "b" (.request "h" { x := 17, y := 3, z := 5, status := .cmdRender } 0)] ++
  getsJob "v" ++ [.station "v" (.loseAnswer 0)] ++ getsJob "w" ++
    [.station "w" (.turn 2 (.answer 0)), .station "w" .receive,
      .station "w" (.finish (some ⟨.cmdNotDone, 0, []⟩)), .station "w" (.turn 3 .worker),
      .deliver "w" 0]

def inOrderCluster : ClusterConfig := { communicator := { iteration := .inOrder } }

theorem jobs_are_kept_lostOnce : ∃ s, run inOrderCluster lostOnce = some s ∧
    (s.stations "v").gone.length = 1 ∧ (s.stations "w").taken.length = 1 ∧
    ((fromBroker "b" (s.stations "w").places).map bare).Perm
      ((Broker.handed "w" (s.brokers "b").sent).map fun job => bare ("b", job)) :=
  ⟨_, rfl, rfl, rfl, jobs_are_kept inOrderCluster lostOnce _ rfl "w" "b"⟩

end Cluster

end RenderMq
