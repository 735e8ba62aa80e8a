import RenderMq.Broker.Loop
import RenderMq.Metatile.Ranges

/-!
# No request is lost and none is answered twice

A request that wants a reply is, from the moment it is received, in exactly one of two places: held
by a task as a subscriber, or answered. `Conserved` says so of the requests received so far, as a
permutation, and pairs every reply with the request it answers.

Each event moves requests between the two places: a push adds one to a task (`pending_push`), a
result answers all of a task (`pending_erase`, `repliesTo_spec`), and nothing else touches either.
`conserved_step` is the step; the run follows.

The loop does not survive every result. A metatile with an entry that escapes its data makes the
string of a reply from a range that ends before it starts, and nothing catches what comes of it:
the broker ends with all the requests it holds. `broker_answers_each_request_once_iff` says that
this is the one way in which a request can get lost.
-/

namespace RenderMq

namespace Broker

/-! ## Where a request can be -/

/-- A reply, with the address it goes to. -/
abbrev Reply := String × TileProtocol

/-- The replies among the messages sent. -/
def replies (sent : List BrokerMessage) : List Reply :=
  sent.filterMap fun
    | .reply address tile => some (address, tile)
    | _ => none

/-- The requests among the events. -/
def received (events : List BrokerEvent) : List Request :=
  events.filterMap fun
    | .request address tile _ => some (tile, address)
    | _ => none

/-- The requests that tasks hold and that want a reply. -/
def pending (tasks : List Task) : List Request :=
  tasks.flatMap fun t => t.subscribers.filter wantsReply

/-- A reply answers a request: it goes where the request came from, and is about what the request
was about. -/
structure Answers (reply : Reply) (request : Request) : Prop where
  wanted : wantsReply request = true
  address : reply.1 = request.2
  x : reply.2.x = request.1.x
  y : reply.2.y = request.1.y
  z : reply.2.z = request.1.z
  style : reply.2.style = request.1.style
  id : reply.2.id = request.1.id
  format : reply.2.format = request.1.format

/-- Every request that wants a reply is answered or pending, once, and there are no other replies. -/
def Conserved (requests : List Request) (b : Broker) : Prop :=
  ∃ answered : List (Request × Reply),
    replies b.sent = answered.map Prod.snd ∧
    (∀ p ∈ answered, Answers p.2 p.1) ∧
    (requests.filter wantsReply).Perm (answered.map Prod.fst ++ pending b.queue.tasks)

/-! ## What each operation of the queue does to the pending requests -/

theorem pending_perm {l l' : List Task} (h : l.Perm l') : (pending l).Perm (pending l') :=
  h.flatMap_right _

theorem pending_cons (t : Task) (l : List Task) :
    pending (t :: l) = t.subscribers.filter wantsReply ++ pending l := rfl

/-- Only the subscribers of the tasks matter. -/
theorem pending_of_subscribers {l l' : List Task}
    (h : (l'.map Task.subscribers).Perm (l.map Task.subscribers)) :
    (pending l').Perm (pending l) := by
  have := h.flatMap_right (List.filter wantsReply)
  rwa [List.flatMap_map, List.flatMap_map] at this

theorem pending_setProcessed (q : TaskQueue) (tile : TileProtocol) :
    (pending (q.setProcessed tile).tasks).Perm (pending q.tasks) := by
  unfold TaskQueue.setProcessed
  split
  · exact pending_of_subscribers (MultiIndex.modify_map_perm (fun _ => rfl) _)
  · exact .refl _

theorem pending_resubmit (q : TaskQueue) (timeout now : Int) :
    (pending (q.resubmitOlderThan timeout now).tasks).Perm (pending q.tasks) :=
  pending_of_subscribers (MultiIndex.sweep_map_perm _ (fun _ => rfl) q)

/-- Merging a request into a task that is there adds it. -/
theorem pending_addSubscriber {q : TaskQueue} {k : TaskKey} {t : Task} (ht : q.find k = some t)
    (tile : TileProtocol) (address : String) (priority : Int) :
    (pending (q.modify k (TaskQueue.addSubscriber tile address priority)).first).Perm
      (pending q.tasks ++ [(tile, address)].filter wantsReply) := by
  obtain ⟨rest, hold, hnew⟩ :=
    MultiIndex.modify_first_replace ht (TaskQueue.addSubscriber tile address priority)
  refine (pending_perm hnew).trans (List.Perm.trans ?_ ((pending_perm hold).append_right _).symm)
  simp only [pending_cons, TaskQueue.addSubscriber, List.filter_append, List.append_assoc]
  exact List.perm_append_comm.append_left _

/-- A push adds its request, whether to a new task or to one that was there. -/
theorem pending_push (q : TaskQueue) (tile : TileProtocol) (address : String) (priority now : Int) :
    (pending (q.push tile address priority now).1.tasks).Perm
      (pending q.tasks ++ [(tile, address)].filter wantsReply) := by
  let task : Task := { TaskQueue.metaOf tile with priority := priority, timestamp := now }
  obtain ⟨t, ht⟩ : ∃ t, (q.insert task).1.find task.key = some t :=
    ⟨(q.find task.key).getD task, by rw [MultiIndex.find_insert, if_pos rfl]⟩
  -- the task as `insert` puts it there has no subscriber yet
  have hinsert : (pending (q.insert task).1.first).Perm (pending q.tasks) := by
    cases hfind : q.find task.key with
    | some u => rw [MultiIndex.insert_of_find hfind, TaskQueue.tasks]
    | none =>
      have h := pending_perm (MultiIndex.insert_first_perm hfind)
      rwa [pending_cons] at h
  exact (pending_addSubscriber ht tile address priority).trans (hinsert.append_right _)

/-- Removing a task takes its requests away, and no others. -/
theorem pending_erase {q : TaskQueue} {tile : TileProtocol} {t : Task} (ht : q.get tile = some t) :
    (pending q.tasks).Perm
      (t.subscribers.filter wantsReply ++ pending (q.erase tile).1.tasks) := by
  have ht' : q.find tile.taskKey = some t := ht
  simp only [TaskQueue.erase, ht']
  exact pending_perm (MultiIndex.erase_first_perm ht')

/-! ## What a result sends -/

@[simp] theorem replies_append (l l' : List BrokerMessage) :
    replies (l ++ l') = replies l ++ replies l' :=
  List.filterMap_append

/-- The reply to a subscriber is about what it asked for. -/
theorem answers_replyTo {tileFromWorker tile : TileProtocol} {request : Request}
    (wanted : wantsReply request = true) (h : replyTo tileFromWorker request = some tile) :
    Answers (request.2, tile) request := by
  unfold replyTo at h
  split at h
  · obtain ⟨data, _, rfl⟩ := Option.map_eq_some_iff.mp h
    exact ⟨wanted, rfl, rfl, rfl, rfl, rfl, rfl, rfl⟩
  · obtain rfl := Option.some.inj h
    exact ⟨wanted, rfl, rfl, rfl, rfl, rfl, rfl, rfl⟩

/-- The loop over the subscribers: one reply to each that wants one. -/
theorem repliesTo_spec {tileFromWorker : TileProtocol} :
    ∀ {subscribers : List Request} {messages : List BrokerMessage},
      repliesTo tileFromWorker subscribers = some messages →
      ∃ answered : List (Request × Reply),
        replies messages = answered.map Prod.snd ∧
        answered.map Prod.fst = subscribers.filter wantsReply ∧
        ∀ p ∈ answered, wantsReply p.1 = true ∧ p.2.1 = p.1.2 ∧
          replyTo tileFromWorker p.1 = some p.2.2
  | [], messages, h => by
    obtain rfl := Option.some.inj h
    exact ⟨[], rfl, rfl, by simp⟩
  | request :: rest, messages, h => by
    rw [repliesTo] at h
    split at h
    · next hwants =>
      obtain ⟨tile, htile, hmap⟩ := Option.bind_eq_some_iff.mp h
      obtain ⟨others, hothers, rfl⟩ := Option.map_eq_some_iff.mp hmap
      obtain ⟨answered, hreplies, hrequests, hall⟩ := repliesTo_spec hothers
      refine ⟨(request, request.2, tile) :: answered, ?_, ?_, ?_⟩
      · rw [List.map_cons, ← hreplies]
        rfl
      · rw [List.map_cons, hrequests, List.filter_cons, if_pos hwants]
      · rintro p (_ | ⟨_, hp⟩)
        · exact ⟨hwants, rfl, htile⟩
        · exact hall p hp
    · next hwants =>
      obtain ⟨answered, hreplies, hrequests, hall⟩ := repliesTo_spec h
      refine ⟨answered, hreplies, ?_, hall⟩
      rw [hrequests, List.filter_cons, if_neg hwants]

/-! ## The step and the run -/

theorem conserved_start : Conserved [] start := ⟨[], rfl, by simp, .refl _⟩

/-- What is kept when nothing is replied and no request leaves. -/
theorem Conserved.quiet {requests new : List Request} {b b' : Broker} (h : Conserved requests b)
    (hsent : replies b'.sent = replies b.sent)
    (hpending : (pending b'.queue.tasks).Perm (pending b.queue.tasks ++ new.filter wantsReply)) :
    Conserved (requests ++ new) b' := by
  obtain ⟨answered, hreplies, hall, hperm⟩ := h
  refine ⟨answered, hsent.trans hreplies, hall, ?_⟩
  rw [List.filter_append]
  refine (hperm.append_right _).trans ?_
  rw [List.append_assoc]
  exact hpending.symm.append_left _

/-- `publish_availability` sends nothing to handlers and leaves the queue alone. -/
theorem publishAvailability_spec (b : Broker) :
    b.publishAvailability.queue = b.queue ∧
      replies b.publishAvailability.sent = replies b.sent := by
  refine ⟨publishAvailability_queue b, ?_⟩
  unfold publishAvailability
  split
  · simp [replies]
  · rfl

theorem conserved_takeRequest {requests : List Request} {b : Broker} (h : Conserved requests b)
    (address : String) (tile : TileProtocol) (now : Int) :
    Conserved (requests ++ [(tile, address)]) (b.takeRequest address tile now) := by
  set b' : Broker :=
    { b with queue := (b.queue.push tile address (requestPriority tile) now).1 } with hb'
  have hpush := pending_push b.queue tile address (requestPriority tile) now
  obtain ⟨hqueue, hsent⟩ := publishAvailability_spec b'
  have hcases : b.takeRequest address tile now = b' ∨
      b.takeRequest address tile now = b'.publishAvailability := by
    simp only [takeRequest, ← hb']
    split
    · split
      · exact .inr rfl
      · exact .inl rfl
    · exact .inr rfl
  rcases hcases with heq | heq
  · rw [heq]
    exact h.quiet rfl hpush
  · rw [heq]
    refine h.quiet hsent ?_
    rw [hqueue]
    exact hpush

/-- A result for a task answers its subscribers, who are no longer pending. -/
theorem conserved_result {requests : List Request} {b b' : Broker} (h : Conserved requests b)
    {tile : TileProtocol} (hstep : b.sendTileToListeners tile = some b') :
    Conserved requests b' := by
  unfold sendTileToListeners at hstep
  split at hstep
  · next t ht =>
    obtain ⟨messages, hmessages, rfl⟩ := Option.map_eq_some_iff.mp hstep
    obtain ⟨answered, hreplies, hall, hperm⟩ := h
    obtain ⟨more, hmore, hrequests, hanswers⟩ := repliesTo_spec hmessages
    refine ⟨answered ++ more, ?_, ?_, ?_⟩
    · rw [replies_append, hreplies, hmore, List.map_append]
    · intro p hp
      rcases List.mem_append.mp hp with hp | hp
      · exact hall p hp
      · obtain ⟨hwants, haddress, hreply⟩ := hanswers p hp
        have hanswer := answers_replyTo hwants hreply
        rwa [← haddress] at hanswer
    · refine hperm.trans (((pending_erase ht).append_left _).trans (List.Perm.of_eq ?_))
      rw [List.map_append, hrequests, List.append_assoc]
  · obtain rfl := Option.some.inj hstep
    exact h

theorem received_append (past : List BrokerEvent) (e : BrokerEvent) :
    received (past ++ [e]) = received past ++ received [e] :=
  List.filterMap_append

/-- **The step.** Every event but `CLEAR TASK QUEUE` keeps the requests conserved. -/
theorem conserved_step {config : BrokerConfig} {requests : List Request} {b b' : Broker}
    {e : BrokerEvent} (h : Conserved requests b) (hclear : e ≠ .clearTaskQueue)
    (hstep : b.step config e = some b') : Conserved (requests ++ received [e]) b' := by
  cases e with
  | request address tile now =>
    obtain rfl := Option.some.inj hstep
    exact conserved_takeRequest h address tile now
  | getJob workerAddresses =>
    obtain rfl := Option.some.inj hstep
    unfold giveJob
    split
    · exact h.quiet (by simp [replies]) ((pending_setProcessed ..).trans (by simp [received]))
    · exact h.quiet (by simp [replies]) (by simp [received])
  | result workerAddresses tile =>
    rw [show received [.result workerAddresses tile] = [] from rfl, List.append_nil]
    exact conserved_result h hstep
  | resubmitZombieTasks now =>
    obtain rfl := Option.some.inj hstep
    exact h.quiet (by simp [replies]) ((pending_resubmit ..).trans (by simp [received]))
  | heartbeat =>
    obtain rfl := Option.some.inj hstep
    obtain ⟨hqueue, hsent⟩ := publishAvailability_spec
      { b with sent := b.sent ++ [.heartbeat (.ofNat 64 b.queue.countUnprocessed)] }
    refine h.quiet ?_ ?_
    · rw [replies_append, hsent]
      simp [replies]
    · rw [hqueue]
      simp [received]
  | stats =>
    obtain rfl := Option.some.inj hstep
    exact h.quiet (by simp [replies]) (by simp [received])
  | clearTaskQueue => exact absurd rfl hclear
  | unknownCommand =>
    obtain rfl := Option.some.inj hstep
    exact h.quiet (by simp [replies]) (by simp [received])

/-- `CLEAR TASK QUEUE` takes the pending requests away, and keeps the others conserved. -/
theorem Conserved.clear {config : BrokerConfig} {requests : List Request} {b b' : Broker}
    (h : Conserved requests b) (hstep : b.step config .clearTaskQueue = some b') :
    ∃ kept, (requests.filter wantsReply).Perm
        (kept.filter wantsReply ++ pending b.queue.tasks) ∧ Conserved kept b' := by
  obtain ⟨answered, hreplies, hall, hperm⟩ := h
  obtain rfl := Option.some.inj hstep
  have hwanted : (answered.map Prod.fst).filter wantsReply = answered.map Prod.fst := by
    refine List.filter_eq_self.mpr fun request hrequest => ?_
    obtain ⟨p, hp, rfl⟩ := List.mem_map.mp hrequest
    exact (hall p hp).wanted
  refine ⟨answered.map Prod.fst, by rwa [hwanted], answered, ?_, hall, ?_⟩
  · simpa [replies] using hreplies
  · rw [hwanted]
    exact List.Perm.of_eq (List.append_nil _).symm

/-- **The run.** -/
theorem conserved_run {config : BrokerConfig} {events : List BrokerEvent} {b : Broker}
    (hclear : .clearTaskQueue ∉ events) (hrun : run config events = some b) :
    Conserved (received events) b := by
  have hevents : ∀ e ∈ events, e ≠ .clearTaskQueue := by
    rintro e he rfl
    exact hclear he
  have hstep : ∀ (past : List BrokerEvent) (s : Broker) (e : BrokerEvent) (t : Broker),
      Conserved (received past) s → e ≠ .clearTaskQueue → s.step config e = some t →
      Conserved (received (past ++ [e])) t := by
    intro past s e t h hclear hstep
    rw [received_append]
    exact conserved_step h hclear hstep
  have h := Run.run_invariant_of_everyStep hstep events [] start b conserved_start
    (Run.everyStep_of_events hevents start) hrun
  rwa [List.nil_append] at h

/-! ## When a step is defined -/

/-- The metatile of a result gives a range within its data for a subscriber, so that the string of
the reply is defined. Entries that escape are those that wrap into the data (`Entry.escapes_iff`). -/
def ReadableFor (tile : TileProtocol) (request : Request) : Prop :=
  tile.status ≠ .cmdNotDone → ∀ h, HeaderOf request.1.format (headerBlocks tile.data) h →
    ¬ (h.index.get (tileIndex request.1.x request.1.y)).Escapes tile.data

/-- A result of a queued metatile can be read for each subscriber that is sent a reply. -/
def QueuedReadable (b : Broker) : BrokerEvent → Prop
  | .result _ tile => ∀ t, b.queue.get tile = some t →
      ∀ request ∈ t.subscribers, wantsReply request = true → ReadableFor tile request
  | _ => True

/-- A result can be read: every range its metatile's headers give lies in it. -/
def Readable (tile : TileProtocol) : Prop :=
  tile.status ≠ .cmdNotDone → ∀ fmt x y, ((metatileReader tile.data fmt).get x y).isSome

theorem Readable.readableFor {tile : TileProtocol} (h : Readable tile) (request : Request) :
    ReadableFor tile request :=
  fun hstatus => (get_isSome_iff ..).mp (h hstatus ..)

theorem replyTo_isSome_iff (tile : TileProtocol) (request : Request) :
    (replyTo tile request).isSome ↔ ReadableFor tile request := by
  unfold replyTo ReadableFor
  split
  · next hstatus =>
    rw [Option.isSome_map, get_isSome_iff]
    exact ⟨fun h _ => h, fun h => h hstatus⟩
  · next hstatus => exact iff_of_true rfl fun h => absurd h hstatus

/-- The loop over the subscribers goes through when the result can be read for each reply. -/
theorem repliesTo_isSome_iff (tile : TileProtocol) (subscribers : List Request) :
    (repliesTo tile subscribers).isSome ↔
      ∀ request ∈ subscribers, wantsReply request = true → ReadableFor tile request := by
  induction subscribers with
  | nil => exact iff_of_true rfl (by simp)
  | cons request rest ih =>
    rw [List.forall_mem_cons, ← ih, ← replyTo_isSome_iff, repliesTo]
    by_cases hwants : wantsReply request = true
    · rw [if_pos hwants]
      cases replyTo tile request <;> simp [hwants]
    · rw [if_neg hwants]
      simp [hwants]

theorem repliesTo_defined {tileFromWorker : TileProtocol} (readable : Readable tileFromWorker)
    (subscribers : List Request) : ∃ messages, repliesTo tileFromWorker subscribers = some messages :=
  Option.isSome_iff_exists.mp ((repliesTo_isSome_iff ..).mpr fun _ _ _ => readable.readableFor _)

/-- **When a step is defined.** -/
theorem step_isSome_iff (config : BrokerConfig) (b : Broker) (e : BrokerEvent) :
    (b.step config e).isSome ↔ QueuedReadable b e := by
  cases e with
  | result workerAddresses tile =>
    simp only [step, sendTileToListeners, QueuedReadable]
    cases b.queue.get tile with
    | none => exact iff_of_true rfl (by simp)
    | some t =>
      simp only [Option.isSome_map, repliesTo_isSome_iff, Option.some.injEq, forall_eq']
  | _ => exact iff_of_true rfl trivial

/-! ## What a result does -/

/-- A result does what it should: without a task of its metatile nothing, and with one it answers
each subscriber that wants a reply, once, and removes the task. -/
structure Settles (config : BrokerConfig) (b : Broker) (addresses : List String)
    (tile : TileProtocol) : Prop where
  unknown : b.queue.get tile = none → b.step config (.result addresses tile) = some b
  queued : ∀ t b', b.queue.get tile = some t → b.step config (.result addresses tile) = some b' →
    b'.queue.get tile = none ∧ ∃ answered : List (Request × Reply),
      replies b'.sent = replies b.sent ++ answered.map Prod.snd ∧
      answered.map Prod.fst = t.subscribers.filter wantsReply ∧ ∀ p ∈ answered, Answers p.2 p.1

theorem settles (config : BrokerConfig) (b : Broker) (addresses : List String)
    (tile : TileProtocol) : Settles config b addresses tile where
  unknown hnone := by simp only [step, sendTileToListeners, hnone]
  queued t b' ht hstep := by
    simp only [step, sendTileToListeners, ht] at hstep
    obtain ⟨messages, hmessages, rfl⟩ := Option.map_eq_some_iff.mp hstep
    obtain ⟨answered, hreplies, hrequests, hall⟩ := repliesTo_spec hmessages
    refine ⟨?_, answered, by rw [replies_append, hreplies], hrequests, fun p hp => ?_⟩
    · show (b.queue.erase tile).1.find tile.taskKey = none
      rw [TaskQueue.find_erase, if_pos rfl]
    · obtain ⟨hwants, haddress, hreply⟩ := hall p hp
      have hanswer := answers_replyTo hwants hreply
      rwa [← haddress] at hanswer

/-! ## The guarantee -/

/-- What is asked of the broker in a run: it gets to the end of it, with every request that wants a
reply answered once or still held by one task, and results then do what they should. -/
def AnswersOnce (config : BrokerConfig) (events : List BrokerEvent) : Prop :=
  ∃ b, run config events = some b ∧ Conserved (received events) b ∧
    ∀ addresses tile, Settles config b addresses tile

/-- **The guarantee.** A run without `CLEAR TASK QUEUE` conserves its requests exactly when each
result of a queued metatile can be read for the subscribers that are sent a reply: the first one
that can not ends the broker, and loses all that it holds. Requests, workers and monitors may come
in any order and with any clock values; nothing is said of whether a held request is ever answered. -/
theorem broker_answers_each_request_once_iff (config : BrokerConfig) (events : List BrokerEvent)
    (noClear : .clearTaskQueue ∉ events) :
    AnswersOnce config events ↔ Run.EveryStep (step config) QueuedReadable start events := by
  have hdefined : (run config events).isSome ↔
      Run.EveryStep (step config) QueuedReadable start events := by
    simp only [run, Run.run_isSome_iff, step_isSome_iff]
  rw [← hdefined, Option.isSome_iff_exists]
  constructor
  · rintro ⟨b, hrun, _⟩
    exact ⟨b, hrun⟩
  · rintro ⟨b, hrun⟩
    exact ⟨b, hrun, conserved_run noClear hrun, settles config b⟩

/-- Two requests are merged and handed out; the worker fails, and answers twice. -/
def failedTwice : List BrokerEvent :=
  [.request "a" { x := 1, y := 2, z := 4, status := .cmdRender } 0,
    .request "b" { x := 3, y := 2, z := 4, status := .cmdDirty } 0, .getJob ["w"],
    .result ["w"] { x := 0, y := 0, z := 4, status := .cmdNotDone },
    .result ["w"] { x := 0, y := 0, z := 4, status := .cmdNotDone }]

/-- The first result answers the one request that wants a reply and removes the task, and the
second finds nothing. -/
theorem broker_answers_failedTwice :
    AnswersOnce {} failedTwice ∧ ∃ b, run {} failedTwice = some b ∧ b.queue.tasks = [] ∧
      replies b.sent = [("a", { x := 1, y := 2, z := 4, status := .cmdNotDone })] := by
  have readable : ∀ b, ∀ e ∈ failedTwice, QueuedReadable b e := by
    intro b
    simp [failedTwice, QueuedReadable, ReadableFor]
  refine ⟨(broker_answers_each_request_once_iff {} failedTwice (by decide)).mpr ?_, ?_⟩
  · rw [← List.append_nil failedTwice]
    exact Run.everyStep_append (fun e he b => readable b e he) fun _ _ => trivial
  · obtain ⟨b, hb⟩ : ∃ b, run {} failedTwice = some b := Option.isSome_iff_exists.mp (by decide)
    exact ⟨b, hb, by cases hb; rfl, by cases hb; rfl⟩

/-- A header whose tiles end 8 bytes before they start, just before the end of the header. -/
def endsBeforeStart : MetaLayout where
  magic := META_MAGIC
  count := 64#32
  x := 0#32
  y := 0#32
  z := 4#32
  fmt := fmtPNG
  index := Vector.replicate 64 ⟨530#32, -8#32⟩

/-- What a worker returns for the metatile of the origin: that header alone. -/
def endingResult : BrokerEvent :=
  .result ["w"] { z := 4, format := fmtPNG, status := .cmdDone, data := endsBeforeStart.encode }

/-- A request that a worker is asked to render. -/
def handedOut : List BrokerEvent :=
  [.request "a" { z := 4, format := fmtPNG, status := .cmdRender } 0, .getJob ["w"]]

/-- The worker's result is of the queued metatile, and ends the broker while it holds a request. -/
theorem ending_result_loses_requests :
    ¬ ∀ (config : BrokerConfig) (events : List BrokerEvent), .clearTaskQueue ∉ events →
      AnswersOnce config events := by
  intro hall
  obtain ⟨b, hrun, _⟩ := hall {} (handedOut ++ [endingResult]) (by simp [handedOut, endingResult])
  have hevery := (Run.run_isSome_iff _ _).mp (Option.isSome_of_eq_some hrun)
  obtain ⟨held, hheld, t, ht, hmem⟩ : ∃ held, run {} handedOut = some held ∧
      ∃ t, held.queue.get { z := 4 } = some t ∧
        ({ z := 4, format := fmtPNG, status := .cmdRender }, "a") ∈ t.subscribers :=
    ⟨_, rfl, _, rfl, List.mem_singleton_self _⟩
  have hreadable := (step_isSome_iff {} held endingResult).mp (hevery.at_event handedOut hheld)
    t ht _ hmem rfl (by decide)
  refine hreadable endsBeforeStart ⟨[], headerBlocks [], ?_, by simp, rfl, rfl⟩ ⟨?_, ?_⟩
  · show headerBlocks endsBeforeStart.encode = _
    rw [← List.append_nil endsBeforeStart.encode, headerBlocks_encode]
    rfl
  · rw [MetaLayout.length_encode]
    decide
  · rw [MetaLayout.length_encode]
    decide

end Broker

end RenderMq
