import RenderMq.Handler.Outcome
import RenderMq.System.Jobs

/-!
# What the replies of a cluster carry

A reply should carry the tile that was asked for. For one broker, whose workers return the jobs they
were handed, this is a matter of what the waiting subscribers ask for when a result arrives. In a
cluster that assumption is discharged: `jobs_are_kept` says that a result which reaches a broker is of
a job that this broker handed to this worker. All that is left to assume is what a worker thread does
with the job it has (`ReturnsMetatile`): what it returns is a metatile, in whatever formats. It has
none where the thread could not render.

Then no client is ever sent a wrong tile (`no_wrong_tile`), and a step serves all who wait for it
exactly when they ask for a format that the metatile has (`serves_iff`). Both are read off the replies
to a result (`deliver_result`), by three invariants: the jobs (`Kept`), what is on its way back
(`Sound`), and that the queue of each broker has come about by its operations.
-/

namespace RenderMq

namespace Cluster

open Station

variable {config : ClusterConfig} {s s' : Cluster}

/-! ## What is assumed and what is asked -/

/-- A worker thread returns a metatile. It may have no formats. -/
def ReturnsMetatile (s : Cluster) : ClusterEvent → Prop
  | .station worker (.finish (some outcome)) =>
    ∀ delivery, (s.stations worker).system.worker = .working delivery →
      outcome.status ≠ .cmdNotDone → IsMetatile delivery.tile.z outcome.data
  | _ => True

/-- Each reply of a step, of those of a kind, carries the body that a worker rendered for it: the step
is the result of a job that the broker had handed to this worker. -/
def Carries (config : ClusterConfig) (s : Cluster) (e : ClusterEvent)
    (kind : TileProtocol → Prop) : Prop :=
  ∀ s' broker, s.step config e = some s' →
    ∀ reply ∈ Broker.newReplies (s.brokers broker) (s'.brokers broker), kind reply.2 →
      ∃ worker i job, ∃ outcome : WorkerOutcome, e = .deliver worker i ∧
        job ∈ Broker.handed worker (s.brokers broker).sent ∧
        (s.stations worker).outgoing[i]? = some (.result broker (outcome.of job)) ∧
        Broker.CarriesBody job outcome.data reply.2

/-- A message to a broker can be taken; a result then answers each request that waits for it, once,
at the address that it came from and for the tile that it asked for; and each reply with a tile
carries what was asked for. -/
structure Serves (config : ClusterConfig) (s : Cluster) (e : ClusterEvent) : Prop where
  defined : ∀ worker i message, e = .deliver worker i →
    (s.stations worker).outgoing[i]? = some message → ∃ s', s.step config e = some s'
  answered : ∀ worker i broker tile s', e = .deliver worker i →
    (s.stations worker).outgoing[i]? = some (.result broker tile) → s.step config e = some s' →
      ∃ answered, Broker.AnswersWaiting (s.brokers broker) tile
        (Broker.newReplies (s.brokers broker) (s'.brokers broker)) answered
  served : Carries config s e fun tile => tile.status ≠ .cmdNotDone

/-- Each reply that a handler would send as a tile carries what was asked for. -/
abbrev Honest (config : ClusterConfig) (s : Cluster) (e : ClusterEvent) : Prop :=
  Carries config s e TileHandler.Sendable

/-- A request waits for the result of a job. -/
def Waits (s : Cluster) (broker : BrokerId) (tile : TileProtocol) (request : Request) : Prop :=
  ∃ t ∈ (s.brokers broker).queue.get tile, request ∈ t.subscribers ∧
    Broker.wantsReply request = true

/-- Whoever waits for a result asked for a format that its metatile has, and for a position of the
grid. -/
def AskWithin (s : Cluster) : ClusterEvent → Prop
  | .deliver worker i => ∀ broker tile,
    (s.stations worker).outgoing[i]? = some (.result broker tile) → tile.status ≠ .cmdNotDone →
      ∀ request, Waits s broker tile request → request.1.format ∈ formatsOf tile.data ∧
        inGrid tile.z (tileIndex request.1.x request.1.y) = true
  | _ => True

/-! ## The invariant -/

/-- A result is a metatile. -/
def Rendered (job : JobAt) : Prop := job.2.status ≠ .cmdNotDone → IsMetatile job.2.z job.2.data

/-- What is on its way back from a worker thread. -/
def results (st : Station) : List JobAt :=
  WorkerSystem.onTheirWay st.system.toCommunicator ++ st.outgoing.filterMap resultOf

structure Sound (s : Cluster) : Prop where
  kept : Kept s
  /-- Every result on its way back is a metatile. -/
  rendered : ∀ worker, ∀ p ∈ results (s.stations worker), Rendered p
  /-- Only messages to brokers go out. -/
  outgoing : ∀ worker, ∀ m ∈ (s.stations worker).outgoing, toBroker m = true
  reached : ∀ broker, (s.brokers broker).Reached

theorem sound_start : Sound start where
  kept := kept_start
  rendered _ _ hp := absurd hp List.not_mem_nil
  outgoing _ _ hm := absurd hm List.not_mem_nil
  reached _ := ⟨[], rfl⟩

theorem reached_step {config : BrokerConfig} {b b' : Broker} (h : b.Reached) {e : BrokerEvent}
    (hstep : b.step config e = some b') : b'.Reached := by
  obtain ⟨ops, hops⟩ := h
  rcases Broker.queue_of_step hstep with hsame | ⟨op, hop, _⟩
  · exact ⟨ops, hsame.trans hops⟩
  · exact ⟨ops ++ [op], by rw [hop, hops, Broker.runOps_snoc]⟩

/-- A turn sends the results that it reads, and nothing that is not for a broker. -/
theorem results_takeTurn {config : CommunicatorConfig} {st st' : Station}
    (h : st.system.Consistent) {now : Int} {input : TurnInput}
    (hstep : st.takeTurn config now input = some st') :
    (∀ p, p ∈ results st' ↔ p ∈ results st) ∧
      ∀ m ∈ st'.outgoing, m ∈ st.outgoing ∨ toBroker m = true := by
  obtain ⟨read, _, hstep⟩ := Option.bind_eq_some_iff.mp hstep
  obtain ⟨system, hround, rfl⟩ := Option.map_eq_some_iff.mp hstep
  obtain ⟨_, hreturned, hresults, _⟩ := takeRound_spec hround
  obtain ⟨hconsistent, _⟩ := WorkerSystem.consistent_takeRound h hround
  have hway : WorkerSystem.onTheirWay st.system.toCommunicator =
      WorkerSystem.resultsIn (st.outputs config now read) ++
        WorkerSystem.onTheirWay system.toCommunicator := by
    have htotal : st.system.results ++ WorkerSystem.onTheirWay st.system.toCommunicator =
        st.system.results ++ (WorkerSystem.resultsIn (st.outputs config now read) ++
          WorkerSystem.onTheirWay system.toCommunicator) := by
      rw [h.results, ← hreturned, ← hconsistent.results, hresults, List.append_assoc]
      rfl
    exact List.append_cancel_left htotal
  constructor
  · intro p
    simp only [results, hway, List.filterMap_append, resultOf_toBroker, List.mem_append]
    tauto
  · intro m hm
    rcases List.mem_append.mp hm with hm | hm
    · exact .inl hm
    · exact .inr (List.mem_filter.mp hm).2

/-- A step of a station brings at most the result of the job that its worker thread is done with. -/
theorem results_step {config : CommunicatorConfig} {st st' : Station} (h : st.system.Consistent)
    {e : StationEvent} (hstep : st.step config e = some st') :
    (∀ p ∈ results st', p ∈ results st ∨
      ∃ delivery, ∃ outcome : WorkerOutcome, e = .finish (some outcome) ∧
        st.system.worker = .working delivery ∧ p = (delivery.broker, outcome.of delivery.tile)) ∧
      ∀ m ∈ st'.outgoing, m ∈ st.outgoing ∨ toBroker m = true := by
  have lost : ∀ (l : List CommunicatorOutput) (i : Nat), ∀ m ∈ l.eraseIdx i, m ∈ l :=
    fun l i m hm => (List.eraseIdx_sublist l i).subset hm
  cases e with
  | turn now input =>
    obtain ⟨hresults, hout⟩ := results_takeTurn h hstep
    exact ⟨fun p hp => .inl ((hresults p).mp hp), hout⟩
  | ask =>
    obtain ⟨system, hsystem, rfl⟩ := Option.map_eq_some_iff.mp hstep
    rw [WorkerSystem.step] at hsystem
    split at hsystem
    · obtain rfl := Option.some.inj hsystem
      refine ⟨fun p hp => .inl ?_, fun m hm => .inl hm⟩
      simpa [results, WorkerSystem.onTheirWay] using hp
    · cases hsystem
  | receive =>
    obtain ⟨system, hsystem, rfl⟩ := Option.map_eq_some_iff.mp hstep
    rw [WorkerSystem.step] at hsystem
    split at hsystem
    · obtain rfl := Option.some.inj hsystem
      exact ⟨fun p hp => .inl hp, fun m hm => .inl hm⟩
    · cases hsystem
  | finish outcome =>
    simp only [Station.step, Station.finish] at hstep
    split at hstep
    · next delivery hworker =>
      obtain ⟨system, hsystem, rfl⟩ := Option.map_eq_some_iff.mp hstep
      simp only [WorkerSystem.step, hworker] at hsystem
      cases outcome with
      | none =>
        obtain rfl := Option.some.inj hsystem
        exact ⟨fun p hp => .inl hp, fun m hm => .inl hm⟩
      | some outcome =>
        obtain rfl := Option.some.inj hsystem
        refine ⟨fun p hp => ?_, fun m hm => .inl hm⟩
        simp only [results, WorkerSystem.onTheirWay, List.filterMap_append, List.mem_append,
          List.filterMap_cons, List.filterMap_nil, List.mem_singleton] at hp
        rcases hp with (hp | rfl) | hp
        · exact .inl (List.mem_append_left _ hp)
        · exact .inr ⟨delivery, outcome, rfl, hworker, rfl⟩
        · exact .inl (List.mem_append_right _ hp)
    · cases hstep
  | loseMessage i =>
    obtain ⟨_, _, rfl⟩ := Option.map_eq_some_iff.mp hstep
    refine ⟨fun p hp => .inl ?_, fun m hm => .inl (lost _ _ m hm)⟩
    rcases List.mem_append.mp hp with hp | hp
    · exact List.mem_append_left _ hp
    · refine List.mem_append_right _ ?_
      obtain ⟨m, hm, hresult⟩ := List.mem_filterMap.mp hp
      exact List.mem_filterMap.mpr ⟨m, lost _ _ m hm, hresult⟩
  | loseAnswer i =>
    obtain ⟨_, _, rfl⟩ := Option.map_eq_some_iff.mp hstep
    exact ⟨fun p hp => .inl hp, fun m hm => .inl hm⟩

/-- What is left when a message is taken out of those that go out. -/
theorem sound_eraseIdx {st st' : Station} {i : Nat} (hsystem : st'.system = st.system)
    (hout : st'.outgoing = st.outgoing.eraseIdx i) :
    (∀ p ∈ results st', p ∈ results st) ∧ ∀ m ∈ st'.outgoing, m ∈ st.outgoing := by
  have hsub : ∀ m ∈ st'.outgoing, m ∈ st.outgoing := by
    rw [hout]
    exact fun m hm => (List.eraseIdx_sublist _ i).subset hm
  refine ⟨fun p hp => ?_, hsub⟩
  rw [results, hsystem] at hp
  rcases List.mem_append.mp hp with hp | hp
  · exact List.mem_append_left _ hp
  · obtain ⟨m, hm, hresult⟩ := List.mem_filterMap.mp hp
    exact List.mem_append_right _ (List.mem_filterMap.mpr ⟨m, hsub m hm, hresult⟩)

/-- What a change of one broker and of one station must meet to keep the rest. -/
theorem Sound.changed (h : Sound s) (hkept : Kept s') (worker : WorkerId) (broker : BrokerId)
    (hstations : ∀ w, w ≠ worker → s'.stations w = s.stations w)
    (hbrokers : ∀ b, b ≠ broker → s'.brokers b = s.brokers b)
    (hrendered : ∀ p ∈ results (s'.stations worker), Rendered p)
    (hout : ∀ m ∈ (s'.stations worker).outgoing, toBroker m = true)
    (hreached : (s'.brokers broker).Reached) : Sound s' where
  kept := hkept
  rendered w := by
    by_cases hw : w = worker
    · rwa [hw]
    · rw [hstations w hw]
      exact h.rendered w
  outgoing w := by
    by_cases hw : w = worker
    · rwa [hw]
    · rw [hstations w hw]
      exact h.outgoing w
  reached b := by
    by_cases hb : b = broker
    · rwa [hb]
    · rw [hbrokers b hb]
      exact h.reached b

/-- A job that is worked at has been passed by the broker that handed it out. -/
theorem sound_station (h : Sound s) {worker : WorkerId} {e : StationEvent}
    (hworker : ReturnsMetatile s (.station worker e))
    (hstep : s.step config (.station worker e) = some s') : Sound s' := by
  have hkept := kept_station h.kept hstep
  obtain ⟨_, st, hst, rfl⟩ := station_cases hstep
  obtain ⟨hresults, hout⟩ := results_step (h.kept worker).1 hst
  have hself : (s.setStation worker st).stations worker = st := by
    rw [setStation_stations, if_pos rfl]
  refine h.changed hkept worker "" (fun w hw => ?_) (fun _ _ => rfl) ?_ ?_ (h.reached "")
  · rw [setStation_stations, if_neg hw]
  · rw [hself]
    intro p hp
    rcases hresults p hp with hp | ⟨delivery, outcome, rfl, hthread, rfl⟩
    · exact h.rendered worker p hp
    · exact hworker delivery hthread
  · rw [hself]
    intro m hm
    rcases hout m hm with hm | hm
    · exact h.outgoing worker m hm
    · exact hm

theorem sound_outside (h : Sound s) {broker : BrokerId} {e : BrokerEvent}
    (hstep : s.step config (.outside broker e) = some s') : Sound s' := by
  have hkept := kept_outside h.kept hstep
  obtain ⟨_, b, hb, rfl⟩ := outside_cases hstep
  refine h.changed hkept "" broker (fun _ _ => rfl) (fun b' hb' => ?_) (h.rendered "")
    (h.outgoing "") ?_
  · rw [setBroker_brokers, if_neg hb']
  · rw [setBroker_brokers, if_pos rfl]
    exact reached_step (h.reached broker) hb

theorem sound_deliver (h : Sound s) {worker : WorkerId} {i : Nat}
    (hstep : s.step config (.deliver worker i) = some s') : Sound s' := by
  have hkept := kept_deliver h.kept hstep
  obtain ⟨broker, e, b, st, rfl, hb, hsystem, hout⟩ : ∃ broker e b st,
      s' = (s.setBroker broker b).setStation worker st ∧
      (s.brokers broker).step config.broker e = some b ∧
      st.system = (s.stations worker).system ∧
      st.outgoing = (s.stations worker).outgoing.eraseIdx i := by
    rcases deliver_cases hstep with ⟨broker, _, rfl⟩ | ⟨broker, tile, b, _, hb, rfl⟩
    · exact ⟨broker, .getJob [worker], _, _, rfl, rfl, rfl, rfl⟩
    · exact ⟨broker, .result [worker] tile, _, _, rfl, hb, rfl, rfl⟩
  obtain ⟨hresults, hmessages⟩ := sound_eraseIdx hsystem hout
  have hself : ((s.setBroker broker b).setStation worker st).stations worker = st := by
    rw [setStation_stations, if_pos rfl]
  refine h.changed hkept worker broker (fun w hw => ?_) (fun b' hb' => ?_)
    ?_ ?_ ?_
  · rw [setStation_stations, if_neg hw, setBroker_stations]
  · rw [setStation_brokers, setBroker_brokers, if_neg hb']
  · rw [hself]
    exact fun p hp => h.rendered worker p (hresults p hp)
  · rw [hself]
    exact fun m hm => h.outgoing worker m (hmessages m hm)
  · rw [setStation_brokers, setBroker_brokers, if_pos rfl]
    exact reached_step (h.reached broker) hb

theorem sound_step (h : Sound s) {e : ClusterEvent} (hworker : ReturnsMetatile s e)
    (hstep : s.step config e = some s') : Sound s' := by
  cases e with
  | outside broker e => exact sound_outside h hstep
  | deliver worker i => exact sound_deliver h hstep
  | station worker e => exact sound_station h hworker hstep

/-! ## Serving -/

/-- A result that reaches a broker is of a job that the broker has handed to the worker. -/
theorem job_of_result (h : Kept s) {worker : WorkerId} {i : Nat} {broker : BrokerId}
    {tile : TileProtocol} (hmessage : (s.stations worker).outgoing[i]? = some (.result broker tile)) :
    ∃ job ∈ Broker.handed worker (s.brokers broker).sent,
      tile = (⟨tile.status, tile.lastModified, tile.data⟩ : WorkerOutcome).of job := by
  have hplace : (broker, tile) ∈ (s.stations worker).places := by
    have hmem : (broker, tile) ∈ (s.stations worker).outgoing.filterMap resultOf :=
      List.mem_filterMap.mpr ⟨_, List.mem_of_getElem? hmessage, rfl⟩
    simp only [places, List.mem_append]
    exact .inl (.inl (.inr hmem))
  have hcount := (h worker).2 broker (Broker.returned tile .cmdIgnore 0 [])
  have hpos : 0 < times (bare (broker, tile)) (s.stations worker).places :=
    List.count_pos_iff.mpr (List.mem_map_of_mem hplace)
  rw [bare, hcount] at hpos
  obtain ⟨p, hp, hbare⟩ := List.mem_map.mp (List.count_pos_iff.mp hpos)
  obtain ⟨job, hjob, rfl⟩ := List.mem_map.mp hp
  refine ⟨job, hjob, ?_⟩
  obtain ⟨-, hsame⟩ := Prod.mk.inj hbare
  calc tile
      = Broker.returned (Broker.returned tile .cmdIgnore 0 []) tile.status tile.lastModified
          tile.data := rfl
    _ = Broker.returned (Broker.returned job .cmdIgnore 0 []) tile.status tile.lastModified
          tile.data := by rw [hsame]
    _ = _ := rfl

theorem newReplies_self (b : Broker) : Broker.newReplies b b = [] := by
  rw [Broker.newReplies, List.drop_length]
  rfl

/-- The replies of a step in which one broker takes a message. -/
theorem newReplies_setBroker {broker broker' : BrokerId} {b : Broker} {reply : Broker.Reply}
    (h : reply ∈ Broker.newReplies (s.brokers broker') ((s.setBroker broker b).brokers broker')) :
    broker' = broker ∧ reply ∈ Broker.newReplies (s.brokers broker) b := by
  rw [setBroker_brokers] at h
  split at h
  · next heq => exact ⟨heq, heq ▸ h⟩
  · rw [newReplies_self] at h
    exact absurd h List.not_mem_nil

/-- A broker that takes no result sends no reply. -/
theorem carries_of_quiet {e : ClusterEvent} {kind : TileProtocol → Prop}
    (hquiet : ∀ s', s.step config e = some s' → ∃ (broker : BrokerId) (m : BrokerEvent) (b : Broker),
      s'.brokers = (s.setBroker broker b).brokers ∧
        (s.brokers broker).step config.broker m = some b ∧
          ∀ addresses tile, m ≠ .result addresses tile) : Carries config s e kind := by
  intro s' broker hstep reply hreply
  obtain ⟨target, m, b, hbrokers, hb, hm⟩ := hquiet s' hstep
  obtain ⟨b', hb', hnone⟩ := Broker.newReplies_quiet config.broker (s.brokers target) hm
  obtain rfl := Option.some.inj (hb.symm.trans hb')
  rw [hbrokers] at hreply
  have hmem := (newReplies_setBroker hreply).2
  rw [hnone] at hmem
  exact absurd hmem List.not_mem_nil

/-- A step that takes no result sends no reply. -/
theorem carries_other {e : ClusterEvent} {kind : TileProtocol → Prop}
    (hother : ∀ worker i broker tile, e = .deliver worker i →
      (s.stations worker).outgoing[i]? ≠ some (.result broker tile)) : Carries config s e kind := by
  cases e with
  | outside broker e =>
    refine carries_of_quiet fun s' hstep => ?_
    obtain ⟨hworker, b, hb, rfl⟩ := outside_cases hstep
    exact ⟨broker, e, b, rfl, hb, by rintro _ _ rfl; cases hworker⟩
  | station worker e =>
    intro s' broker hstep reply hreply
    obtain ⟨_, st, _, rfl⟩ := station_cases hstep
    rw [setStation_brokers, newReplies_self] at hreply
    exact absurd hreply List.not_mem_nil
  | deliver worker i =>
    refine carries_of_quiet fun s' hstep => ?_
    rcases deliver_cases hstep with ⟨target, _, rfl⟩ | ⟨target, tile, b, hresult, _, _⟩
    · exact ⟨target, .getJob [worker], _, rfl, rfl, by simp⟩
    · exact absurd hresult (hother worker i target tile rfl)

/-- **A result at its broker** is of a job that the broker has handed to the worker. It can be taken,
and each of those who wait for it gets one reply. -/
theorem deliver_result (h : Sound s) (config : ClusterConfig) {worker : WorkerId} {i : Nat}
    {broker : BrokerId} {tile : TileProtocol}
    (hmessage : (s.stations worker).outgoing[i]? = some (.result broker tile)) :
    ∃ s' answered, s.step config (.deliver worker i) = some s' ∧
      Broker.AnswersWaiting (s.brokers broker) tile
        (Broker.newReplies (s.brokers broker) (s'.brokers broker)) answered ∧
      ∀ broker' reply, reply ∈ Broker.newReplies (s.brokers broker') (s'.brokers broker') →
        broker' = broker := by
  have hmem : (broker, tile) ∈ results (s.stations worker) :=
    List.mem_append_right _ (List.mem_filterMap.mpr ⟨_, List.mem_of_getElem? hmessage, rfl⟩)
  have readable : Broker.Readable tile :=
    fun hne fmt x y => (h.rendered worker _ hmem hne).readable fmt x y
  obtain ⟨b, hb, answered, hanswered⟩ :=
    Broker.result_step config.broker (s.brokers broker) [worker] readable
  have hstep : ∃ s', s.step config (.deliver worker i) = some s' ∧
      s'.brokers = (s.setBroker broker b).brokers := by
    rw [step, deliver, hmessage]
    simp only [Option.bind_some, received, hb, Option.map_some]
    exact ⟨_, rfl, rfl⟩
  obtain ⟨s', hs', hbrokers⟩ := hstep
  refine ⟨s', answered, hs', ?_, fun broker' reply hreply => ?_⟩
  · rwa [hbrokers, setBroker_brokers, if_pos rfl]
  · rw [hbrokers] at hreply
    exact (newReplies_setBroker hreply).1

section Bodies

variable {broker : BrokerId} {tile : TileProtocol} {request : Request} {reply : TileProtocol}

/-- A reply carries what was asked for exactly when the metatile has the format and the grid has the
position. -/
theorem carries_iff (h : Sound s) (hrendered : Rendered (broker, tile))
    (hwaits : Waits s broker tile request) (hne : tile.status ≠ .cmdNotDone)
    (hreply : Broker.replyTo tile request = some reply) :
    Broker.CarriesBody tile tile.data reply ↔ request.1.format ∈ formatsOf tile.data ∧
      inGrid tile.z (tileIndex request.1.x request.1.y) = true := by
  obtain ⟨t, ht, hsub, _⟩ := hwaits
  have hkey := (h.reached broker).subscribers ht hsub
  have hmeta : IsMetatile tile.z tile.data := hrendered hne
  rw [Broker.replyTo, if_pos hne] at hreply
  obtain ⟨body, hbody, rfl⟩ := Option.map_eq_some_iff.mp hreply
  by_cases hfmt : request.1.format ∈ formatsOf tile.data
  · obtain ⟨stored, hstored, hget, hgrid⟩ := hmeta.get hfmt request.1.x request.1.y
    obtain rfl := Option.some.inj (hbody.symm.trans hget)
    constructor
    · exact fun hcarries => ⟨hfmt, hgrid.mp hcarries.nonempty⟩
    · exact fun hask => ⟨hkey, hstored, hgrid.mpr hask.2⟩
  · rw [hmeta.get_other hfmt] at hbody
    obtain rfl := Option.some.inj hbody
    exact iff_of_false (fun hcarries => hcarries.nonempty rfl) fun hask => hfmt hask.1

/-- A reply with data carries the body that was asked for. -/
theorem carries_of_data (h : Sound s) (hrendered : Rendered (broker, tile))
    (hwaits : Waits s broker tile request) (hne : tile.status ≠ .cmdNotDone)
    (hreply : Broker.replyTo tile request = some reply) (hdata : reply.data ≠ []) :
    Broker.CarriesBody tile tile.data reply := by
  refine (carries_iff h hrendered hwaits hne hreply).mpr ?_
  have hmeta : IsMetatile tile.z tile.data := hrendered hne
  rw [Broker.replyTo, if_pos hne] at hreply
  obtain ⟨body, hbody, rfl⟩ := Option.map_eq_some_iff.mp hreply
  by_cases hfmt : request.1.format ∈ formatsOf tile.data
  · obtain ⟨stored, _, hget, hgrid⟩ := hmeta.get hfmt request.1.x request.1.y
    obtain rfl := Option.some.inj (hbody.symm.trans hget)
    exact ⟨hfmt, hgrid.mp hdata⟩
  · rw [hmeta.get_other hfmt] at hbody
    exact absurd (Option.some.inj hbody).symm hdata

end Bodies

/-- The body of a result is the body of its job. -/
theorem carriesBody_of {job reply : TileProtocol} {outcome : WorkerOutcome} {tile : TileProtocol}
    (htile : tile = outcome.of job) :
    Broker.CarriesBody job outcome.data reply ↔ Broker.CarriesBody tile tile.data reply := by
  subst htile
  exact ⟨fun h => ⟨h.metatile, h.body, h.nonempty⟩, fun h => ⟨h.metatile, h.body, h.nonempty⟩⟩

section Result

variable {worker : WorkerId} {i : Nat} {broker : BrokerId} {tile : TileProtocol}

theorem rendered_outgoing (h : Sound s)
    (hmessage : (s.stations worker).outgoing[i]? = some (.result broker tile)) :
    Rendered (broker, tile) :=
  h.rendered worker _
    (List.mem_append_right _ (List.mem_filterMap.mpr ⟨_, List.mem_of_getElem? hmessage, rfl⟩))

/-- The replies to a result carry what was asked for, if those to the waiting requests do. -/
theorem carries_result (h : Sound s) {kind : TileProtocol → Prop}
    (hmessage : (s.stations worker).outgoing[i]? = some (.result broker tile))
    (hbody : ∀ request reply, Waits s broker tile request →
      Broker.replyTo tile request = some reply → kind reply →
        Broker.CarriesBody tile tile.data reply) : Carries config s (.deliver worker i) kind := by
  obtain ⟨s', answered, hs', hanswered, honly⟩ := deliver_result h config hmessage
  obtain ⟨job, hjob, htile⟩ := job_of_result h.kept hmessage
  intro s'' broker' hs'' reply hreply hkind
  obtain rfl := Option.some.inj (hs'.symm.trans hs'')
  obtain rfl := honly broker' reply hreply
  obtain ⟨request, hwaits, hto⟩ := hanswered.exists_request hreply
  replace hwaits := Broker.mem_waiting_iff.mp hwaits
  refine ⟨worker, i, job, _, rfl, hjob, hmessage.trans (by rw [← htile]), ?_⟩
  exact (carriesBody_of htile).mpr (hbody request reply.2 hwaits hto hkind)

/-- A result is served exactly when those who wait for it ask within its metatile. -/
theorem serves_result_iff (h : Sound s)
    (hmessage : (s.stations worker).outgoing[i]? = some (.result broker tile)) :
    Serves config s (.deliver worker i) ↔ AskWithin s (.deliver worker i) := by
  have hrendered := rendered_outgoing h hmessage
  obtain ⟨s', answered, hs', hanswered, _⟩ := deliver_result h config hmessage
  constructor
  · intro hserves broker' tile' hmessage' hne request hwaits
    rw [hmessage] at hmessage'
    cases hmessage'
    obtain ⟨reply, hreply, hto⟩ := hanswered.exists_reply (Broker.mem_waiting_iff.mpr hwaits)
    have hstatus : reply.2.status ≠ .cmdNotDone := by rwa [Broker.status_replyTo hto]
    obtain ⟨w, n, job, outcome, heq, _, hm, hbody⟩ := hserves.served s' broker hs' reply hreply hstatus
    cases heq
    rw [hmessage] at hm
    have htile : tile = outcome.of job := by injection Option.some.inj hm
    exact (carries_iff h hrendered hwaits hne hto).mp ((carriesBody_of htile).mp hbody)
  · intro hwithin
    refine ⟨fun _ _ _ _ _ => ⟨s', hs'⟩, ?_, carries_result h hmessage fun request reply hwaits hto hne => ?_⟩
    · rintro worker' i' broker' tile' s'' ⟨⟩ hmessage' hs''
      cases hmessage.symm.trans hmessage'
      obtain rfl := Option.some.inj (hs'.symm.trans hs'')
      exact ⟨answered, hanswered⟩
    · rw [Broker.status_replyTo hto] at hne
      exact (carries_iff h hrendered hwaits hne hto).mpr
        (hwithin broker tile hmessage hne request hwaits)

end Result

/-- A message to a broker that is no result is served: it can be taken, and has no reply. -/
theorem serves_other (h : Sound s) {e : ClusterEvent}
    (hother : ∀ worker i broker tile, e = .deliver worker i →
      (s.stations worker).outgoing[i]? ≠ some (.result broker tile)) : Serves config s e where
  defined := by
    rintro worker i message rfl hmessage
    cases message with
    | getJob broker =>
      rw [step, deliver, hmessage]
      exact ⟨_, rfl⟩
    | result broker tile => exact absurd hmessage (hother worker i broker tile rfl)
    | tile tile => cases h.outgoing worker _ (List.mem_of_getElem? hmessage)
  answered worker i broker tile _ he hmessage := absurd hmessage (hother worker i broker tile he)
  served := carries_other hother

/-- A step takes a result or it does not. -/
theorem result_or_other (s : Cluster) (e : ClusterEvent) :
    (∃ worker i broker tile, e = .deliver worker i ∧
      (s.stations worker).outgoing[i]? = some (.result broker tile)) ∨
    ∀ worker i broker tile, e = .deliver worker i →
      (s.stations worker).outgoing[i]? ≠ some (.result broker tile) := by
  by_cases h : ∃ worker i broker tile, e = .deliver worker i ∧
      (s.stations worker).outgoing[i]? = some (.result broker tile)
  · exact .inl h
  · exact .inr fun worker i broker tile he hm => h ⟨worker, i, broker, tile, he, hm⟩

/-- **The step.** A step serves all who wait for it exactly when they ask within the metatile. -/
theorem serves_iff (h : Sound s) (e : ClusterEvent) : Serves config s e ↔ AskWithin s e := by
  rcases result_or_other s e with ⟨worker, i, broker, tile, rfl, hmessage⟩ | hother
  · exact serves_result_iff h hmessage
  · refine iff_of_true (serves_other h hother) ?_
    cases e with
    | deliver worker i =>
      exact fun broker tile hmessage => absurd hmessage (hother worker i broker tile rfl)
    | _ => trivial

/-- **The step.** What a handler would send as a tile is the tile that was asked for. -/
theorem honest_step (h : Sound s) (e : ClusterEvent) : Honest config s e := by
  rcases result_or_other s e with ⟨worker, i, broker, tile, rfl, hmessage⟩ | hother
  · refine carries_result h hmessage fun request reply hwaits hto hsend => ?_
    have hne : tile.status ≠ .cmdNotDone := by
      rw [← Broker.status_replyTo hto]
      rcases hsend.1 with hstatus | hstatus
      · rw [hstatus]
        decide
      · rw [hstatus]
        decide
    exact carries_of_data h (rendered_outgoing h hmessage) hwaits hne hto
      (List.ne_nil_of_length_pos hsend.2)
  · exact carries_other hother

/-! ## The runs -/

/-- **No wrong tile.** In every run of a cluster whose worker threads return metatiles, every reply that
a handler would send as a tile carries the tile that was asked for, from a result of a job that the
broker had handed to that worker. Nothing is said of the replies that a handler answers as an error. -/
theorem no_wrong_tile (config : ClusterConfig) (events : List ClusterEvent)
    (worker : Run.EveryStep (step config) ReturnsMetatile start events) :
    Run.EveryStep (step config) (Honest config) start events :=
  Run.everyStep_of_invariant (fun _ e h _ => honest_step h e)
    (fun _ _ _ h hworker hstep => sound_step h hworker hstep) events start sound_start worker

/-- **Who is served.** In every such run all who wait for a result are served, each with one reply at
its address and with its tile in it, exactly when at every result they ask within its metatile. That
worker threads return metatiles (or `cmdNotDone`, without one) is assumed here; the brokers and
communicators are as they are, and messages may be lost and overtaken. A run need not bring a result
for each request. -/
theorem cluster_serves_iff (config : ClusterConfig) (events : List ClusterEvent)
    (worker : Run.EveryStep (step config) ReturnsMetatile start events) :
    Run.EveryStep (step config) (Serves config) start events ↔
      Run.EveryStep (step config) AskWithin start events :=
  Run.everyStep_congr_of_assumed (fun _ _ _ h => sound_step h) (fun _ e h _ => serves_iff h e) events
    start sound_start worker

/-- A tile is requested in PNG, and a worker asks for it. -/
def askedFor : List ClusterEvent :=
  [.outside "b" (.request "h" { format := fmtPNG, status := .cmdRender } 0), .station "w" .ask,
    .station "w" (.turn 0 .worker), .station "w" (.turn 1 (.announcement "b" 100 1))]

/-- The worker is handed the job; before it is done the tile is requested once more. -/
def requestedOnceMore : List ClusterEvent :=
  [.outside "b" (.request "k" { format := fmtPNG, status := .cmdRender } 1),
    .station "w" (.turn 2 (.answer 0)), .station "w" .receive]

def broughtBack : List ClusterEvent :=
  [.station "w" (.finish (some ⟨.cmdDone, 1, Broker.pngOnly⟩)), .station "w" (.turn 3 .worker)]

def bothServed : List ClusterEvent :=
  askedFor ++ .deliver "w" 0 :: (requestedOnceMore ++ (broughtBack ++ [.deliver "w" 0]))

/-- The job is done with a metatile for it. -/
theorem returnsMetatile_bothServed :
    Run.EveryStep (step inOrderCluster) ReturnsMetatile start bothServed := by
  refine Run.everyStep_append (by simp [askedFor, ReturnsMetatile]) fun s hs => ?_
  obtain rfl := Option.some.inj hs
  refine ⟨trivial, fun s hs => ?_⟩
  obtain rfl := Option.some.inj hs
  refine Run.everyStep_append (by simp [requestedOnceMore, ReturnsMetatile]) fun s hs => ?_
  obtain rfl := Option.some.inj hs
  refine ⟨fun delivery hdelivery _ => ?_, fun _ _ => ⟨trivial, fun _ _ => ⟨trivial, ?_⟩⟩⟩
  · obtain rfl := WorkerThread.working.inj hdelivery
    exact (Broker.metatileFor_pngOnly rfl rfl).isMetatile
  · exact fun _ _ => trivial

theorem formatsOf_pngOnly : fmtPNG ∈ formatsOf Broker.pngOnly :=
  have hmeta : MetatileFor { format := fmtPNG } Broker.pngOnly := Broker.metatileFor_pngOnly rfl rfl
  (hmeta.formats fmtPNG).mpr (by decide)

/-- Both who wait ask for the format of the metatile. -/
theorem askWithin_bothServed :
    Run.EveryStep (step inOrderCluster) AskWithin start bothServed := by
  refine Run.everyStep_append (by simp [askedFor, AskWithin]) fun s hs => ?_
  obtain rfl := Option.some.inj hs
  refine ⟨fun broker tile hm => ?_, fun s hs => ?_⟩
  · cases hm
  obtain rfl := Option.some.inj hs
  refine Run.everyStep_append (by simp [requestedOnceMore, AskWithin]) fun s hs => ?_
  obtain rfl := Option.some.inj hs
  refine Run.everyStep_append (by simp [broughtBack, AskWithin]) fun s hs => ?_
  obtain rfl := Option.some.inj hs
  refine ⟨fun broker tile hm _ request hwaits => ?_, fun _ _ => trivial⟩
  obtain ⟨t, ht, hsub, _⟩ := hwaits
  obtain ⟨rfl, rfl⟩ := CommunicatorOutput.result.inj (Option.some.inj hm)
  obtain rfl := Option.some.inj ht
  rcases List.mem_cons.mp hsub with rfl | hsub
  · exact ⟨formatsOf_pngOnly, by decide⟩
  · rw [List.mem_singleton.mp hsub]
    exact ⟨formatsOf_pngOnly, by decide⟩

/-- The worker renders, and both who wait are served. -/
theorem cluster_serves_both :
    Run.EveryStep (step inOrderCluster) (Serves inOrderCluster) start bothServed :=
  (cluster_serves_iff inOrderCluster bothServed returnsMetatile_bothServed).mpr
    askWithin_bothServed

end Cluster

end RenderMq
