import RenderMq.System.Serving
import RenderMq.Worker.RunLoop

/-!
# A cluster whose workers run the loop

`no_wrong_tile` takes it that worker threads return metatiles. Here they run the loop of `worker.py`, on
any storages and renderers (`RunsLoop`). The loop returns a metatile for a job whose coordinates are
those of a metatile and whose data is one (`RunLoop.turn_spec`). That this is so of every job that a
worker gets is the invariant `Unworked`: the queue of a broker keeps the metatile's coordinates, and on
its way a job is not changed.

A job has the data of the request that made its task. A handler that has a stale tile and does not
render it in the background sends the stale image along; where the loop returns the job as it was, that
image comes back in the place of a metatile. It has no header, so it is read as a metatile without any
formats. That what handlers send has none is assumed (`AsksPlainly`).
-/

namespace RenderMq

/-! ## Jobs before any worker has had them -/

/-- A job for a whole metatile whose data, if it has any, is none. -/
structure Plain (tile : TileProtocol) : Prop where
  data : Headerless tile.data
  x : METATILE ∣ tile.x
  y : METATILE ∣ tile.y

namespace TaskQueue

/-- All tasks of a queue are plain jobs. -/
def AllPlain (q : TaskQueue) : Prop := ∀ k t, q.find k = some t → Plain t.toTileProtocol

theorem allPlain_apply {q : TaskQueue} (h : AllPlain q) {op : QueueOp}
    (hpush : ∀ tile address priority now, op = .push tile address priority now →
      Headerless tile.data) : AllPlain (op.apply q) := by
  intro k t' ht'
  rcases apply_cases ht' with ⟨tile, address, priority, now, rfl, _, rfl⟩ | ⟨t, ht, hcases⟩
  · cases hq : q.find k with
    | none =>
      have hdata := hpush tile address priority now rfl
      exact ⟨hdata, dvd_metaFloor _, dvd_metaFloor _⟩
    | some t => exact ⟨(h k t hq).data, (h k t hq).x, (h k t hq).y⟩
  · have hplain := h k t ht
    rcases hcases with rfl | ⟨_, _, _, rfl⟩ | ⟨_, _, _, _, rfl⟩
    · exact hplain
    · exact ⟨hplain.data, hplain.x, hplain.y⟩
    · exact ⟨hplain.data, hplain.x, hplain.y⟩

end TaskQueue

namespace Broker

open TaskQueue

/-- Requests without a metatile leave a queue of plain jobs. -/
theorem allPlain_step {config : BrokerConfig} {b b' : Broker} {e : BrokerEvent}
    (h : AllPlain b.queue) (hrequest : ∀ address tile now, e = .request address tile now →
      Headerless tile.data) (hstep : b.step config e = some b') : AllPlain b'.queue := by
  have quiet : ∀ op : QueueOp, (∀ tile address priority now, op ≠ .push tile address priority now) →
      AllPlain (op.apply b.queue) :=
    fun op hop => allPlain_apply h fun _ _ _ _ heq => absurd heq (hop _ _ _ _)
  cases e with
  | request address tile now =>
    obtain rfl := Option.some.inj hstep
    rw [takeRequest_queue]
    have hpush : ∀ tile' address' priority now', QueueOp.push tile address (requestPriority tile) now =
        .push tile' address' priority now' → Headerless tile'.data := by
      rintro _ _ _ _ ⟨⟩
      exact hrequest _ _ _ rfl
    exact allPlain_apply h hpush
  | getJob addresses =>
    obtain rfl := Option.some.inj hstep
    unfold giveJob
    split
    · next t _ => exact quiet (.setProcessed t.toTileProtocol) (by simp)
    · exact h
  | result addresses tile =>
    simp only [step, sendTileToListeners] at hstep
    split at hstep
    · obtain ⟨_, _, rfl⟩ := Option.map_eq_some_iff.mp hstep
      exact quiet (.erase tile) (by simp)
    · obtain rfl := Option.some.inj hstep
      exact h
  | resubmitZombieTasks now =>
    obtain rfl := Option.some.inj hstep
    exact quiet (.resubmitOlderThan _ now) (by simp)
  | heartbeat =>
    obtain rfl := Option.some.inj hstep
    simp only [publishAvailability_queue]
    exact h
  | clearTaskQueue =>
    obtain rfl := Option.some.inj hstep
    exact quiet .clear (by simp)
  | _ =>
    obtain rfl := Option.some.inj hstep
    exact h

/-- A job that is handed out is a task of the queue. -/
theorem plain_handed {b : Broker} (h : AllPlain b.queue) (worker : WorkerId) :
    ∀ job ∈ handed worker ((b.giveJob [worker]).sent.drop b.sent.length), Plain job := by
  intro job hjob
  unfold giveJob at hjob
  split at hjob
  · next t ht =>
    obtain rfl : job = t.toTileProtocol := by simpa [handed] using hjob
    exact h _ t (mem_tasks_iff.mp (front_spec ht).1)
  · rw [List.drop_left] at hjob
    exact absurd hjob List.not_mem_nil

end Broker

namespace Station

/-- The jobs of a station that its worker thread is not done with. -/
def unworked (st : Station) : List JobAt :=
  st.incoming.filterMap jobOf ++ st.system.toWorker.map ofDelivery ++ atThread st.system.worker

variable {config : CommunicatorConfig} {st st' : Station}

theorem unworked_takeTurn (h : st.system.Consistent) {now : Int} {input : TurnInput}
    (hstep : st.takeTurn config now input = some st') : ∀ p ∈ unworked st', p ∈ unworked st := by
  obtain ⟨read, hread, hstep⟩ := Option.bind_eq_some_iff.mp hstep
  obtain ⟨system, hround, rfl⟩ := Option.map_eq_some_iff.mp hstep
  obtain ⟨hworker, _, _, broker, _, hpassed, htoWorker⟩ := takeRound_spec hround
  obtain ⟨_, hrightly⟩ := WorkerSystem.consistent_takeRound h hround
  have hunread : ∀ a ∈ st.unread input, a ∈ st.incoming := by
    intro a ha
    cases input with
    | answer i => exact (List.eraseIdx_sublist _ i).subset ha
    | _ => exact ha
  intro p hp
  simp only [unworked, List.mem_append, hworker] at hp ⊢
  rcases hp with (hp | hp) | hp
  · obtain ⟨a, ha, hjob⟩ := List.mem_filterMap.mp hp
    exact .inl (.inl (List.mem_filterMap.mpr ⟨a, hunread a ha, hjob⟩))
  · rw [htoWorker, List.map_append, List.mem_append] at hp
    rcases hp with hp | hp
    · exact .inl (.inr hp)
    -- the job that is passed on is the job of the answer that is read
    · rcases hrightly with hnone | ⟨_, from', tile, heq, _, _, _, _, hnew, _⟩
      · rw [List.append_right_eq_self.mp (hpassed.symm.trans hnone)] at hp
        exact absurd hp List.not_mem_nil
      · rw [List.append_cancel_left (hpassed.symm.trans hnew), List.map_cons, List.map_nil,
          List.mem_singleton] at hp
        injection heq with _ heq
        subst heq
        cases input with
        | answer i =>
          obtain ⟨⟨from', response, tile⟩, hanswer, heq⟩ := Option.map_eq_some_iff.mp hread
          cases heq
          refine .inl (.inl (List.mem_filterMap.mpr ⟨_, List.mem_of_getElem? hanswer, ?_⟩))
          rw [hp, jobOf, if_pos rfl]
          rfl
        | _ => cases hread
  · exact .inr hp

/-- A step of a station brings no job that its worker thread is not done with. -/
theorem unworked_step (h : st.system.Consistent) {e : StationEvent}
    (hstep : st.step config e = some st') : ∀ p ∈ unworked st', p ∈ unworked st := by
  cases e with
  | turn now input => exact unworked_takeTurn h hstep
  | ask =>
    obtain ⟨system, hsystem, rfl⟩ := Option.map_eq_some_iff.mp hstep
    rw [WorkerSystem.step] at hsystem
    split at hsystem
    · next hworker =>
      obtain rfl := Option.some.inj hsystem
      intro p hp
      simpa [unworked, atThread, hworker] using hp
    · cases hsystem
  | receive =>
    obtain ⟨system, hsystem, rfl⟩ := Option.map_eq_some_iff.mp hstep
    rw [WorkerSystem.step] at hsystem
    split at hsystem
    · next delivery rest hworker hqueue =>
      obtain rfl := Option.some.inj hsystem
      intro p hp
      simp only [unworked, atThread, hqueue, List.map_cons, List.mem_append, List.mem_cons,
        List.not_mem_nil, or_false] at hp ⊢
      tauto
    · cases hsystem
  | finish outcome =>
    simp only [step, finish] at hstep
    split at hstep
    · next delivery hworker =>
      obtain ⟨system, hsystem, rfl⟩ := Option.map_eq_some_iff.mp hstep
      have hsame : system.toWorker = st.system.toWorker ∧ atThread system.worker = [] := by
        simp only [WorkerSystem.step, hworker] at hsystem
        cases outcome with
        | none =>
          obtain rfl := Option.some.inj hsystem
          exact ⟨rfl, rfl⟩
        | some outcome =>
          obtain rfl := Option.some.inj hsystem
          exact ⟨rfl, rfl⟩
      intro p hp
      simp only [unworked, hsame.1, hsame.2, List.append_nil] at hp
      exact List.mem_append_left _ hp
    · cases hstep
  | loseMessage i =>
    obtain ⟨_, _, rfl⟩ := Option.map_eq_some_iff.mp hstep
    exact fun p hp => hp
  | loseAnswer i =>
    obtain ⟨_, _, rfl⟩ := Option.map_eq_some_iff.mp hstep
    intro p hp
    simp only [unworked, List.append_assoc] at hp ⊢
    rcases List.mem_append.mp hp with hp | hp
    · obtain ⟨a, ha, hjob⟩ := List.mem_filterMap.mp hp
      have hmem := (List.eraseIdx_sublist _ i).subset ha
      exact List.mem_append_left _ (List.mem_filterMap.mpr ⟨a, hmem, hjob⟩)
    · exact List.mem_append_right _ hp

end Station

namespace Cluster

open Station TaskQueue

variable {config : ClusterConfig} {s s' : Cluster}

/-- All jobs that are not worked at yet are plain. -/
structure Unworked (s : Cluster) : Prop where
  kept : Kept s
  queues : ∀ broker, AllPlain (s.brokers broker).queue
  jobs : ∀ worker, ∀ p ∈ unworked (s.stations worker), Plain p.2

theorem unworked_start : Unworked start where
  kept := kept_start
  queues _ _ _ ht := by cases ht
  jobs _ _ hp := absurd hp List.not_mem_nil

/-- What a handler asks with is no metatile: no data, or the image of a stale tile. -/
def AsksPlainly : ClusterEvent → Prop
  | .outside _ (.request _ tile _) => Headerless tile.data
  | _ => True

theorem unworked_setBroker (h : Unworked s) {broker : BrokerId} {b : Broker}
    (hb : AllPlain b.queue) (broker' : BrokerId) :
    AllPlain ((s.setBroker broker b).brokers broker').queue := by
  rw [setBroker_brokers]
  split
  · exact hb
  · exact h.queues broker'

theorem unworked_step' (h : Unworked s) {e : ClusterEvent} (hplain : AsksPlainly e)
    (hstep : s.step config e = some s') : Unworked s' := by
  have hkept := kept_step h.kept hstep
  cases e with
  | outside broker e =>
    obtain ⟨_, b, hb, rfl⟩ := outside_cases hstep
    have hqueue := Broker.allPlain_step (h.queues broker)
      (by rintro _ _ _ rfl; exact hplain) hb
    exact ⟨hkept, unworked_setBroker h hqueue, h.jobs⟩
  | station worker e =>
    obtain ⟨_, st, hst, rfl⟩ := station_cases hstep
    refine ⟨hkept, h.queues, fun w => ?_⟩
    rw [setStation_stations]
    split
    · exact fun p hp => h.jobs worker p (Station.unworked_step (h.kept worker).1 hst p hp)
    · exact h.jobs w
  | deliver worker i =>
    obtain ⟨broker, b, st, rfl, hqueue, hjobs⟩ : ∃ broker b st,
        s' = (s.setBroker broker b).setStation worker st ∧ AllPlain b.queue ∧
          ∀ p ∈ unworked st, p ∈ unworked (s.stations worker) ∨ Plain p.2 := by
      rcases deliver_cases hstep with ⟨broker, _, rfl⟩ | ⟨broker, tile, b, _, hb, rfl⟩
      · refine ⟨broker, _, _, rfl, ?_, fun p hp => ?_⟩
        · have hgive : (s.brokers broker).step config.broker (.getJob [worker]) =
              some ((s.brokers broker).giveJob [worker]) := rfl
          exact Broker.allPlain_step (h.queues broker) (by simp) hgive
        · simp only [unworked, List.filterMap_append, jobOf_answersTo, List.mem_append] at hp ⊢
          rcases hp with ((hp | hp) | hp) | hp
          · exact .inl (.inl (.inl hp))
          · obtain ⟨job, hjob, rfl⟩ := List.mem_map.mp hp
            exact .inr (Broker.plain_handed (h.queues broker) worker job hjob)
          · exact .inl (.inl (.inr hp))
          · exact .inl (.inr hp)
      · have hresult : (s.brokers broker).step config.broker (.result [worker] tile) = some b := hb
        obtain ⟨new, hsent, hquiet⟩ := Broker.quiet_step (by simp) hresult
        refine ⟨broker, b, _, rfl, Broker.allPlain_step (h.queues broker) (by simp) hresult,
          fun p hp => .inl ?_⟩
        simpa only [unworked, List.filterMap_append, jobOf_answersTo, hsent, List.drop_left,
          Broker.handed_of_quiet worker hquiet, List.map_nil, List.append_nil] using hp
    refine ⟨hkept, unworked_setBroker h hqueue, fun w => ?_⟩
    rw [setStation_stations]
    split
    · next heq =>
      rw [← heq] at hjobs
      exact fun p hp => (hjobs p hp).elim (h.jobs w p) id
    · exact h.jobs w

/-! ## Workers that run the loop -/

variable {σ Feature : Type}

/-- The worker threads run the loop, each on its storage as it is then, and handlers ask with no
metatile. -/
def RunsLoop (workers : WorkerId → RunLoop.Worker σ Feature) (s : Cluster) (e : ClusterEvent) : Prop :=
  AsksPlainly e ∧ ∀ worker outcome delivery, e = .station worker (.finish (some outcome)) →
    (s.stations worker).system.worker = .working delivery →
      ∃ now stored, (RunLoop.turn (workers worker) now delivery.tile stored).1 =
        some (outcome.of delivery.tile)

/-- **The step.** A worker that runs the loop returns a metatile. -/
theorem returnsMetatile_of_loop {workers : WorkerId → RunLoop.Worker σ Feature}
    (sound : ∀ worker, RunLoop.Sound (workers worker)) (h : Unworked s) {e : ClusterEvent}
    (hloop : RunsLoop workers s e) : ReturnsMetatile s e := by
  cases e with
  | station worker e =>
    cases e with
    | finish outcome =>
      cases outcome with
      | none => trivial
      | some outcome =>
        intro delivery hthread _
        have hplain : Plain delivery.tile := by
          refine h.jobs worker (ofDelivery delivery) ?_
          simp [unworked, hthread, atThread]
        obtain ⟨now, stored, hturn⟩ := hloop.2 worker outcome delivery rfl hthread
        obtain ⟨_, _, data, hsame, hmeta⟩ := RunLoop.turn_spec (sound worker) hplain.x hplain.y
          (hplain.data.isMetatile _) now stored _ hturn
        have hbytes : outcome.data = data := congrArg TileProtocol.data hsame
        rw [hbytes]
        exact hmeta
    | _ => trivial
  | _ => trivial

/-- **No wrong tile from the loop.** In every run of a cluster whose workers run the loop, every reply
that a handler would send as a tile carries the tile that was asked for, from a result of a job that
the broker had handed to that worker. The storages may be any that have metatiles, and the renderers
any; what is assumed of a worker is that the formats of a style have distinct codes and that images
and features are encoded (`Sound`), and of handlers that they send no metatile with a request. That
any reply comes is not part of it: a worker may end, and messages may be lost. -/
theorem run_loops_send_no_wrong_tile (config : ClusterConfig)
    (workers : WorkerId → RunLoop.Worker σ Feature)
    (sound : ∀ worker, RunLoop.Sound (workers worker)) (events : List ClusterEvent)
    (loops : Run.EveryStep (step config) (RunsLoop workers) start events) :
    Run.EveryStep (step config) (Honest config) start events := by
  refine no_wrong_tile config events ?_
  exact Run.everyStep_of_invariant (fun _ _ h hloop => returnsMetatile_of_loop sound h hloop)
    (fun _ _ _ h hloop hstep => unworked_step' h hloop.1 hstep) events start unworked_start loops

/-- A worker whose storage has the metatile of zoom 0. -/
def readsStorage : RunLoop.Worker Unit Unit where
  storage :=
    { get := fun _ => pure ⟨true, 5, false, none⟩
      getMeta := fun job => pure (if job.z = 0 then some Broker.pngOnly else none)
      putMeta := fun _ _ => pure true }
  codec := { formatArgs := fun _ => none, dumps := fun _ => [0x7B], openTile := some, loads := fun _ => none }
  formats := fun _ => some ["png"]
  styles := [""]
  savedStyles := []
  readOnlyStyles := []
  create := fun _ _ => Call.raise

theorem sound_readsStorage : RunLoop.Sound readsStorage where
  storage job s := by
    intro data hdata
    have hmeta : MetatileFor { format := fmtPNG } Broker.pngOnly :=
      Broker.metatileFor_pngOnly rfl rfl
    by_cases hz : job.z = 0
    · have heq : some (some Broker.pngOnly) = some (some data) := by
        rw [← hdata]
        exact congrArg some (if_pos hz).symm
      obtain rfl := Option.some.inj (Option.some.inj heq)
      rw [hz]
      exact hmeta.isMetatile
    · have heq : some none = some (some data) := by
        rw [← hdata]
        exact congrArg some (if_neg hz).symm
      cases Option.some.inj heq
  formats := by
    rintro _ _ ⟨⟩
    decide
  images := by
    rintro _ _ _ _ ⟨⟩
  features _ := ⟨⟨_, _, rfl, by decide⟩, by simp [readsStorage]⟩

/-- A handler asks for a tile anew, with the stale image that it has, and a worker asks for a job. -/
def askedWithStale : List ClusterEvent :=
  [.outside "b" (.request "h"
      { format := fmtPNG, status := .cmdRender, data := [0x89, 0x50, 0x4E, 0x47] } 0),
    .station "w" .ask, .station "w" (.turn 0 .worker), .station "w" (.turn 1 (.announcement "b" 100 1))]

/-- Another handler asks too, and the worker takes the tile from storage. -/
def bothStored : List ClusterEvent :=
  askedWithStale ++ .deliver "w" 0 :: (requestedOnceMore ++
    [.station "w" (.finish (some ⟨.cmdIgnore, 5, Broker.pngOnly⟩)), .station "w" (.turn 3 .worker),
      .deliver "w" 0])

theorem bothStored_sends_no_wrong_tile :
    Run.EveryStep (step inOrderCluster) (Honest inOrderCluster) start bothStored := by
  have hstale : Headerless [0x89, 0x50, 0x4E, 0x47] := fun _ => rfl
  have hnone : Headerless [] := fun _ => rfl
  refine run_loops_send_no_wrong_tile inOrderCluster (fun _ => readsStorage)
    (fun _ => sound_readsStorage) bothStored ?_
  refine Run.everyStep_append (by simp [askedWithStale, RunsLoop, AsksPlainly, hstale]) fun s hs => ?_
  obtain rfl := Option.some.inj hs
  refine ⟨⟨trivial, by simp⟩, fun s hs => ?_⟩
  obtain rfl := Option.some.inj hs
  refine Run.everyStep_append (by simp [requestedOnceMore, RunsLoop, AsksPlainly, hnone]) fun s hs => ?_
  obtain rfl := Option.some.inj hs
  refine ⟨⟨trivial, ?_⟩, fun _ _ => ⟨⟨trivial, by simp⟩, fun _ _ => ⟨⟨trivial, by simp⟩, ?_⟩⟩⟩
  · rintro worker outcome delivery ⟨⟩ hdelivery
    obtain rfl := WorkerThread.working.inj hdelivery
    exact ⟨0, (), rfl⟩
  · exact fun _ _ => trivial

end Cluster

end RenderMq
