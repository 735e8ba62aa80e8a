import RenderMq.Broker.Conservation
import RenderMq.Metatile.WellFormed

/-!
# What a reply carries

A worker returns the job it was handed, with a metatile in the formats that the job had at that
moment. Meanwhile requests in other formats may be merged into the task, and a result answers every
subscriber the task has when it arrives.

A service is the broker with its workers: a result is for one of the jobs handed out before, any
number of times and in any order. `Serves` says of a step that each reply it sends carries the body
that the worker returned for the tile and format asked for. `serves_iff` says exactly when: the
subscribers that are waiting ask for formats that the job had, at positions that the grid has.

The queue of a service is always one of `runOps` (`queue_of_step`), so what holds of the tasks of a
queue and their pushes holds here.
-/

namespace RenderMq

namespace Broker

/-! ## The service -/

/-- What happens to a broker with its workers. -/
inductive ServiceEvent where
  | request (clientAddress : String) (tile : TileProtocol) (now : Int)
  | getJob (workerAddresses : List String)
  /-- The worker with the `job`-th job handed out returns it. -/
  | result (job : Nat) (status : ProtoCmd) (lastModified : Int) (data : Bytes)
  | resubmitZombieTasks (now : Int)

/-- The jobs handed out. -/
def jobs (sent : List BrokerMessage) : List TileProtocol :=
  sent.filterMap fun
    | .job _ proto => some proto
    | _ => none

/-- What a worker makes of its job. -/
def returned (job : TileProtocol) (status : ProtoCmd) (lastModified : Int) (data : Bytes) :
    TileProtocol :=
  { job with status := status, lastModified := lastModified, data := data }

/-- The message that the broker receives, if there is such a job. -/
def ServiceEvent.message (b : Broker) : ServiceEvent → Option BrokerEvent
  | .request clientAddress tile now => some (.request clientAddress tile now)
  | .getJob workerAddresses => some (.getJob workerAddresses)
  | .result job status lastModified data =>
    (jobs b.sent)[job]?.map fun proto => .result [] (returned proto status lastModified data)
  | .resubmitZombieTasks now => some (.resubmitZombieTasks now)

def serviceStep (config : BrokerConfig) (b : Broker) (e : ServiceEvent) : Option Broker :=
  match e.message b with
  | some message => b.step config message
  | none => some b

/-! ## The queue of a service -/

theorem runOps_snoc (ops : List QueueOp) (op : QueueOp) :
    runOps (ops ++ [op]) = op.apply (runOps ops) := by
  rw [runOps, List.foldl_append]
  rfl

/-- The queue has come about by queue operations. -/
def Reached (b : Broker) : Prop := ∃ ops, b.queue = runOps ops

theorem reached_serviceStep {config : BrokerConfig} {b b' : Broker} {e : ServiceEvent}
    (h : Reached b) (hstep : serviceStep config b e = some b') : Reached b' := by
  unfold serviceStep at hstep
  split at hstep
  · obtain ⟨ops, hops⟩ := h
    rcases queue_of_step hstep with hsame | ⟨op, hop, _⟩
    · exact ⟨ops, hsame.trans hops⟩
    · exact ⟨ops ++ [op], by rw [hop, hops, runOps_snoc]⟩
  · obtain rfl := Option.some.inj hstep
    exact h

/-- The subscribers of a task asked for tiles of its metatile. -/
theorem Reached.subscribers {b : Broker} (h : Reached b) {tile : TileProtocol} {t : Task}
    (ht : b.queue.get tile = some t) {request : Request} (hmem : request ∈ t.subscribers) :
    TaskQueue.metaKey request.1 = tile.taskKey := by
  obtain ⟨ops, hops⟩ := h
  have hmatches := matches_run ops
  rw [QueueRun.queue_run, ← hops] at hmatches
  have made := hmatches.present tile.taskKey t ht
  rw [made.subscribers] at hmem
  obtain ⟨push, hpush, rfl⟩ := List.mem_map.mp hmem
  exact (made.mine push hpush).trans (MultiIndex.ident_of_find ht)

/-! ## Serving -/

/-- The replies of a step. -/
def newReplies (b b' : Broker) : List Reply := replies (b'.sent.drop b.sent.length)

/-- A reply carries what a worker returned for it: the reply is for a tile of the job's metatile, and
its body is the one at the tile's position in the format asked for. -/
structure CarriesBody (job : TileProtocol) (data : Bytes) (reply : TileProtocol) : Prop where
  metatile : TaskQueue.metaKey reply = job.taskKey
  body : storedBody data reply.format (tileIndex reply.x reply.y) = some reply.data
  nonempty : reply.data ≠ []

/-- The worker returns, if it does not fail, a metatile for its job. -/
def ReturnsMetatile (b : Broker) : ServiceEvent → Prop
  | .result job status _ data =>
    status ≠ .cmdNotDone → ∀ proto ∈ (jobs b.sent)[job]?, MetatileFor proto data
  | _ => True

/-- Each reply that a step sends, other than `cmdNotDone`, carries the body it was asked for. -/
def Serves (config : BrokerConfig) (b : Broker) (e : ServiceEvent) : Prop :=
  ∃ b', serviceStep config b e = some b' ∧
    ∀ reply ∈ newReplies b b', reply.2.status ≠ .cmdNotDone →
      ∃ job status lastModified data proto, e = .result job status lastModified data ∧
        (jobs b.sent)[job]? = some proto ∧ CarriesBody proto data reply.2

/-- Whoever waits for a reply when a result arrives asked for a single format that the job had when
it was handed out, and for a position of the grid. -/
def AskWithinJob (b : Broker) : ServiceEvent → Prop
  | .result job status _ _ =>
    status ≠ .cmdNotDone → ∀ proto ∈ (jobs b.sent)[job]?, ∀ t ∈ b.queue.get proto,
      ∀ request ∈ t.subscribers, wantsReply request = true →
        request.1.format ∈ getFormatsVec proto.format ∧
          inGrid proto.z (tileIndex request.1.x request.1.y) = true
  | _ => True

/-- A reply carries the body asked for exactly when the job had the format and the grid has the
position. -/
theorem carriesBody_iff {proto tile : TileProtocol} {status : ProtoCmd} {lastModified : Int}
    {data : Bytes} {request : Request} (hmeta : MetatileFor proto data)
    (hkey : TaskQueue.metaKey request.1 = proto.taskKey) (hstatus : status ≠ .cmdNotDone)
    (hreply : replyTo (returned proto status lastModified data) request = some tile) :
    CarriesBody proto data tile ↔ request.1.format ∈ getFormatsVec proto.format ∧
      inGrid proto.z (tileIndex request.1.x request.1.y) = true := by
  have hstatus' : (returned proto status lastModified data).status ≠ .cmdNotDone := hstatus
  rw [replyTo, if_pos hstatus'] at hreply
  obtain ⟨body, hbody, rfl⟩ := Option.map_eq_some_iff.mp hreply
  have hbody' : (metatileReader data request.1.format).get request.1.x request.1.y = some body :=
    hbody
  by_cases hfmt : request.1.format ∈ getFormatsVec proto.format
  · obtain ⟨stored, hstored, hget, hgrid⟩ :=
      hmeta.get ((hmeta.formats _).mpr hfmt) request.1.x request.1.y
    rw [hbody'] at hget
    obtain rfl := Option.some.inj hget
    constructor
    · exact fun h => ⟨hfmt, hgrid.mp h.nonempty⟩
    · exact fun h => ⟨hkey, hstored, hgrid.mpr h.2⟩
  · rw [hmeta.get_other hfmt] at hbody'
    obtain rfl := Option.some.inj hbody'
    exact iff_of_false (fun h => h.nonempty rfl) fun h => hfmt h.1

theorem newReplies_append (q : TaskQueue) (b : Broker) (messages : List BrokerMessage) :
    newReplies b ⟨q, b.sent ++ messages⟩ = replies messages := by
  rw [newReplies, List.drop_left]

/-- Only a result sends replies. -/
theorem newReplies_quiet (config : BrokerConfig) (b : Broker) {e : BrokerEvent}
    (quiet : ∀ addresses tile, e ≠ .result addresses tile) :
    ∃ b', b.step config e = some b' ∧ newReplies b b' = [] := by
  have published : ∀ (b' : Broker), b'.sent = b.sent → newReplies b b'.publishAvailability = [] := by
    intro b' hsent
    unfold publishAvailability
    split
    · rw [hsent, newReplies_append]
      rfl
    · rw [newReplies, hsent, List.drop_length]
      rfl
  have unsent : ∀ q : TaskQueue, newReplies b ⟨q, b.sent⟩ = [] := by
    intro q
    rw [newReplies, List.drop_length]
    rfl
  cases e with
  | request clientAddress tile now =>
    refine ⟨_, rfl, ?_⟩
    simp only [takeRequest]
    split
    · split
      · exact published _ rfl
      · exact unsent _
    · exact published _ rfl
  | getJob workerAddresses =>
    refine ⟨_, rfl, ?_⟩
    unfold giveJob
    split
    · exact newReplies_append ..
    · exact newReplies_append ..
  | result addresses tile => exact absurd rfl (quiet addresses tile)
  | heartbeat =>
    refine ⟨_, rfl, ?_⟩
    unfold publishAvailability
    split <;> simp [newReplies, replies]
  | _ => exact ⟨_, rfl, newReplies_append ..⟩

/-- The requests that wait for a result. -/
def waiting (b : Broker) (tile : TileProtocol) : List Request :=
  (b.queue.get tile).toList.flatMap fun t => t.subscribers.filter wantsReply

theorem mem_waiting_iff {b : Broker} {tile : TileProtocol} {request : Request} :
    request ∈ b.waiting tile ↔
      ∃ t ∈ b.queue.get tile, request ∈ t.subscribers ∧ wantsReply request = true := by
  simp [waiting]

/-- Some replies answer the requests that wait for a result, each at its address and for its own
tile. -/
def AnswersWaiting (b : Broker) (tile : TileProtocol) (sent : List Reply)
    (answered : List (Request × Reply)) : Prop :=
  sent = answered.map Prod.snd ∧ answered.map Prod.fst = b.waiting tile ∧
    ∀ p ∈ answered, p.2.1 = p.1.2 ∧ replyTo tile p.1 = some p.2.2

section AnswersWaiting

variable {b : Broker} {tile : TileProtocol} {sent : List Reply} {answered : List (Request × Reply)}

/-- A waiting request has a reply. -/
theorem AnswersWaiting.exists_reply (h : AnswersWaiting b tile sent answered) {request : Request}
    (hwaits : request ∈ b.waiting tile) : ∃ reply ∈ sent, replyTo tile request = some reply.2 := by
  obtain ⟨hsent, hrequests, hall⟩ := h
  rw [← hrequests] at hwaits
  obtain ⟨p, hp, rfl⟩ := List.mem_map.mp hwaits
  exact ⟨p.2, hsent ▸ List.mem_map_of_mem hp, (hall p hp).2⟩

/-- A reply is to a waiting request. -/
theorem AnswersWaiting.exists_request (h : AnswersWaiting b tile sent answered) {reply : Reply}
    (hreply : reply ∈ sent) : ∃ request ∈ b.waiting tile, replyTo tile request = some reply.2 := by
  obtain ⟨hsent, hrequests, hall⟩ := h
  rw [hsent] at hreply
  obtain ⟨p, hp, rfl⟩ := List.mem_map.mp hreply
  exact ⟨p.1, hrequests ▸ List.mem_map_of_mem hp, (hall p hp).2⟩

end AnswersWaiting

/-- What a result does: each waiting subscriber of its task gets one reply. -/
theorem result_step (config : BrokerConfig) (b : Broker) (addresses : List String)
    {tile : TileProtocol} (readable : Readable tile) :
    ∃ b', b.step config (.result addresses tile) = some b' ∧
      ∃ answered, AnswersWaiting b tile (newReplies b b') answered := by
  simp only [step, sendTileToListeners]
  cases ht : b.queue.get tile with
  | none =>
    refine ⟨b, rfl, [], ?_, by simp [waiting, ht], by simp⟩
    rw [newReplies, List.drop_length]
    rfl
  | some t =>
    obtain ⟨messages, hmessages⟩ := repliesTo_defined readable t.subscribers
    obtain ⟨answered, hreplies, hrequests, hall⟩ := repliesTo_spec hmessages
    refine ⟨⟨(b.queue.erase tile).1, b.sent ++ messages⟩, by simp only [hmessages, Option.map_some],
      answered, ?_, ?_, fun p hp => (hall p hp).2⟩
    · rw [newReplies_append, hreplies]
    · rw [hrequests, waiting, ht, Option.toList_some, List.flatMap_singleton]

/-- A reply has the status that the worker returned. -/
theorem status_replyTo {tile tile' : TileProtocol} {request : Request}
    (h : replyTo tile request = some tile') : tile'.status = tile.status := by
  unfold replyTo at h
  split at h
  · obtain ⟨_, _, rfl⟩ := Option.map_eq_some_iff.mp h
    rfl
  · rw [← Option.some.inj h]
    rfl

/-- What is not a result serves: it sends no reply. -/
theorem serves_of_quiet (config : BrokerConfig) (b : Broker) {e : ServiceEvent}
    (quiet : ∀ job status lastModified data, e ≠ .result job status lastModified data) :
    Serves config b e := by
  have sends : ∀ message : BrokerEvent, e.message b = some message →
      (∀ addresses tile, message ≠ .result addresses tile) → Serves config b e := by
    intro message hmessage hquiet
    obtain ⟨b', hstep, hnone⟩ := newReplies_quiet config b hquiet
    refine ⟨b', by rw [serviceStep, hmessage]; exact hstep, ?_⟩
    rw [hnone]
    simp
  cases e with
  | result job status lastModified data => exact absurd rfl (quiet job status lastModified data)
  | _ => exact sends _ rfl (by simp)

/-- A result without its job is not taken. -/
theorem serves_of_no_job (config : BrokerConfig) {b : Broker} {job : Nat} {status : ProtoCmd}
    {lastModified : Int} {data : Bytes} (hnone : (jobs b.sent)[job]? = none) :
    Serves config b (.result job status lastModified data) := by
  refine ⟨b, ?_, ?_⟩
  · simp only [serviceStep, ServiceEvent.message, hnone, Option.map_none]
  · rw [newReplies, List.drop_length]
    simp [replies]

/-- **The step.** With a worker that returns metatiles, a step serves exactly when the waiting
subscribers ask within the job. -/
theorem serves_iff (config : BrokerConfig) {b : Broker} {e : ServiceEvent} (hreached : Reached b)
    (hworker : ReturnsMetatile b e) : Serves config b e ↔ AskWithinJob b e := by
  cases e with
  | request clientAddress tile now => exact iff_of_true (serves_of_quiet _ _ (by simp)) trivial
  | getJob workerAddresses => exact iff_of_true (serves_of_quiet _ _ (by simp)) trivial
  | resubmitZombieTasks now => exact iff_of_true (serves_of_quiet _ _ (by simp)) trivial
  | result job status lastModified data =>
    cases hproto : (jobs b.sent)[job]? with
    | none =>
      refine iff_of_true (serves_of_no_job config hproto) ?_
      simp [AskWithinJob, hproto]
    | some proto =>
      have hmeta : status ≠ .cmdNotDone → MetatileFor proto data :=
        fun h => hworker h proto hproto
      have readable : Readable (returned proto status lastModified data) :=
        fun h fmt x y => (hmeta h).readable fmt x y
      obtain ⟨b', hstep, answered, hreplies, hrequests, hanswers⟩ := result_step config b [] readable
      have hall : ∀ p ∈ answered, replyTo _ p.1 = some p.2.2 := fun p hp => (hanswers p hp).2
      have hmem : ∀ request, request ∈ answered.map Prod.fst ↔ ∃ t ∈ b.queue.get _,
          request ∈ t.subscribers ∧ wantsReply request = true := fun request => by
        rw [hrequests, mem_waiting_iff]
      have hservice : serviceStep config b (.result job status lastModified data) = some b' := by
        simp only [serviceStep, ServiceEvent.message, hproto, Option.map_some]
        exact hstep
      -- the replies of the step, one by one
      have hcarries : ∀ p ∈ answered, status ≠ .cmdNotDone →
          (CarriesBody proto data p.2.2 ↔ p.1.1.format ∈ getFormatsVec proto.format ∧
            inGrid proto.z (tileIndex p.1.1.x p.1.1.y) = true) := by
        intro p hp hstatus
        obtain ⟨t, ht, hsub, _⟩ := (hmem p.1).mp (List.mem_map_of_mem hp)
        exact carriesBody_iff (hmeta hstatus) (hreached.subscribers ht hsub) hstatus (hall p hp)
      have hstatus : ∀ p ∈ answered, p.2.2.status = status := fun p hp => status_replyTo (hall p hp)
      constructor
      · rintro ⟨b'', hstep', hserved⟩ hne proto' hproto' t ht request hsub hwants
        rw [hservice] at hstep'
        obtain rfl := Option.some.inj hstep'
        rw [hproto] at hproto'
        obtain rfl := Option.some.inj hproto'
        obtain ⟨p, hp, rfl⟩ := List.mem_map.mp ((hmem request).mpr ⟨t, ht, hsub, hwants⟩)
        have hreply : p.2 ∈ newReplies b b' := by
          rw [hreplies]
          exact List.mem_map_of_mem hp
        obtain ⟨_, _, _, _, proto'', heq, hproto'', hbody⟩ :=
          hserved p.2 hreply (by rw [hstatus p hp]; exact hne)
        cases heq
        rw [hproto] at hproto''
        obtain rfl := Option.some.inj hproto''
        exact (hcarries p hp hne).mp hbody
      · intro hwithin
        refine ⟨b', hservice, fun reply hreply hne => ?_⟩
        rw [hreplies] at hreply
        obtain ⟨p, hp, rfl⟩ := List.mem_map.mp hreply
        rw [hstatus p hp] at hne
        obtain ⟨t, ht, hsub, hwants⟩ := (hmem p.1).mp (List.mem_map_of_mem hp)
        refine ⟨job, status, lastModified, data, proto, rfl, hproto, ?_⟩
        exact (hcarries p hp hne).mpr (hwithin hne proto hproto t ht p.1 hsub hwants)

/-- **The run.** With workers that return metatiles for their jobs, a run serves every subscriber the
tile it asked for exactly when at every result the waiting subscribers ask within the job.

It is assumed that a worker returns, unless it answers `cmdNotDone`, a metatile in the formats of the
job it was handed. Requests, jobs and results come in any order. A reply of `cmdNotDone` carries no
tile, and nothing is asked of it. -/
theorem every_reply_carries_its_tile_iff (config : BrokerConfig) (events : List ServiceEvent)
    (worker : Run.EveryStep (serviceStep config) ReturnsMetatile start events) :
    Run.EveryStep (serviceStep config) (Serves config) start events ↔
      Run.EveryStep (serviceStep config) AskWithinJob start events :=
  Run.everyStep_congr (fun _ _ _ => reached_serviceStep) (fun _ _ => serves_iff config) events start
    ⟨[], rfl⟩ worker

/-! ## A request that is merged too late -/

/-- A metatile of zoom 0 with one tile of one byte, in PNG. -/
def pngOnly : Bytes := written 0 0 0 [fmtPNG] ([1] :: List.replicate 63 [])

theorem getFormatsVec_PNG : getFormatsVec fmtPNG = [fmtPNG] := by decide

theorem metatileFor_pngOnly {job : TileProtocol} (hz : job.z = 0) (hfmt : job.format = fmtPNG) :
    MetatileFor job pngOnly := by
  have hformats : getFormatsVec job.format = [fmtPNG] := by rw [hfmt, getFormatsVec_PNG]
  have hmeta := metatileFor_written job 0 0 0 ([1] :: List.replicate 63 [])
  rw [hformats] at hmeta
  refine hmeta rfl ?_ ?_ ?_
  · rw [length_written]
    decide
  · intro n i body hbody
    have hn : n = 0 := by
      have := (List.getElem?_eq_some_iff.mp hbody).1
      simp at this
      omega
    subst hn
    have hat : ∀ i : Fin 64, ∀ body ∈ ([1] :: List.replicate 63 [] : List Bytes)[(i : Nat)]?,
        (body ≠ [] ↔ inGrid 0 i = true) := by decide
    rw [hz]
    exact hat i body (by simpa using hbody)
  · simp [Quiet, headerBlocks, headerSize]

/-- A tile is requested in PNG and handed out; before the result it is requested once more. -/
def requestedAgain (fmt : ProtoFmt) : List ServiceEvent :=
  [.request "a" { format := fmtPNG, status := .cmdRender } 0, .getJob ["w"],
    .request "b" { format := fmt, status := .cmdRender } 0, .result 0 .cmdDone 1 pngOnly]

/-- A run of `requestedAgain` is decided by its last step. There the job was for PNG, and the second
request waits. -/
theorem everyStep_requestedAgain {P : Broker → ServiceEvent → Prop}
    (other : ∀ b e, (∀ job status lastModified data, e ≠ .result job status lastModified data) →
      P b e) (fmt : ProtoFmt) :
    ∃ b : Broker, Reached b ∧
      (Run.EveryStep (serviceStep {}) P start (requestedAgain fmt) ↔
        P b (.result 0 .cmdDone 1 pngOnly)) ∧
      ReturnsMetatile b (.result 0 .cmdDone 1 pngOnly) ∧
      (AskWithinJob b (.result 0 .cmdDone 1 pngOnly) ↔ fmt = fmtPNG) := by
  let ops : List QueueOp :=
    [.push { format := fmtPNG, status := .cmdRender } "a" 100 0, .setProcessed {},
      .push { format := fmt, status := .cmdRender } "b" 100 0]
  refine ⟨_, ⟨ops, rfl⟩, ⟨fun h => (((h.2 _ rfl).2 _ rfl).2 _ rfl).1, fun h => ?_⟩,
    fun _ proto hproto => ?_, ?_⟩
  · refine ⟨other _ _ (by simp), fun s hs => ?_⟩
    obtain rfl := Option.some.inj hs
    refine ⟨other _ _ (by simp), fun s hs => ?_⟩
    obtain rfl := Option.some.inj hs
    refine ⟨other _ _ (by simp), fun s hs => ?_⟩
    obtain rfl := Option.some.inj hs
    exact ⟨h, fun _ _ => trivial⟩
  · obtain rfl := Option.some.inj hproto
    exact metatileFor_pngOnly rfl rfl
  · constructor
    · intro hask
      have hmem : fmt ∈ getFormatsVec fmtPNG :=
        (hask (by decide) _ rfl _ rfl ({ format := fmt, status := .cmdRender }, "b")
          (List.mem_cons_of_mem _ List.mem_cons_self) rfl).1
      rwa [getFormatsVec_PNG, List.mem_singleton] at hmem
    · rintro rfl _ proto hproto t ht request hmem _
      obtain rfl := Option.some.inj hproto
      obtain rfl := Option.some.inj ht
      rcases List.mem_cons.mp hmem with rfl | hmem
      · decide
      · rw [List.mem_singleton.mp hmem]
        decide

theorem worker_requestedAgain (fmt : ProtoFmt) :
    Run.EveryStep (serviceStep {}) ReturnsMetatile start (requestedAgain fmt) := by
  have other : ∀ b e, (∀ job status lastModified data, e ≠ .result job status lastModified data) →
      ReturnsMetatile b e := by
    rintro b (_ | _ | ⟨job, status, lastModified, data⟩ | _) hquiet
    · trivial
    · trivial
    · exact absurd rfl (hquiet job status lastModified data)
    · trivial
  obtain ⟨b, _, hlast, hreturns, _⟩ := everyStep_requestedAgain other fmt
  exact hlast.mpr hreturns

/-- The worker does what it should, and the request in JPEG gets an empty body. -/
theorem late_jpeg_not_served :
    Run.EveryStep (serviceStep {}) ReturnsMetatile start (requestedAgain fmtJPEG) ∧
      ¬ Run.EveryStep (serviceStep {}) (Serves {}) start (requestedAgain fmtJPEG) := by
  refine ⟨worker_requestedAgain fmtJPEG, fun hserved => ?_⟩
  obtain ⟨b, hreached, hlast, hreturns, hask⟩ :=
    everyStep_requestedAgain (fun b e => serves_of_quiet {} b) fmtJPEG
  have hpng := hask.mp ((serves_iff {} hreached hreturns).mp (hlast.mp hserved))
  exact absurd hpng (by decide)

/-- Requested again in PNG, both are served. -/
theorem late_png_served :
    Run.EveryStep (serviceStep {}) (Serves {}) start (requestedAgain fmtPNG) := by
  have other : ∀ b e, (∀ job status lastModified data, e ≠ .result job status lastModified data) →
      AskWithinJob b e := by
    rintro b (_ | _ | ⟨job, status, lastModified, data⟩ | _) hquiet
    · trivial
    · trivial
    · exact absurd rfl (hquiet job status lastModified data)
    · trivial
  obtain ⟨b, _, hlast, _, hask⟩ := everyStep_requestedAgain other fmtPNG
  refine (every_reply_carries_its_tile_iff {} (requestedAgain fmtPNG)
    (worker_requestedAgain fmtPNG)).mpr ?_
  exact hlast.mpr (hask.mpr rfl)

end Broker

end RenderMq
