import RenderMq.Handler.MongrelRequest
import RenderMq.Handler.Outcome
import RenderMq.Handler.StorageWorker
import RenderMq.Handler.StyleRules
import RenderMq.Tile.PathGrammar

/-!
# The handler's main loop

`tile_handler::operator()`: a handler reads requests of Mongrel2, results of its storage pool, and
replies of the brokers, one at a time and in any order. A request whose tile there is goes to the
pool; a result is answered, or becomes a job for a broker; and the reply of a broker is answered to
the client whose id it carries.

A turn has no result (`none`) where the handler does not survive it: the id of a client is not an
`int`, the coordinates of the tile have no width, or a tile of several formats is to be sent.

Each client that is accepted should be in one place. `Settled` says so of the clients accepted so far:
one is with the pool, or was answered at once, or waits for a job that carries its id. There is a
fourth place. Where the brokers refuse the job of client 0, nothing is sent (`unanswered`).
-/

namespace RenderMq

/-- A message to Mongrel2: the server, the client, and the reply. -/
structure MongrelReply where
  uuid : String
  client : Int
  reply : HandlerReply
  deriving DecidableEq

/-- A `tile_handler`, with a record of what went through. -/
structure Frontend where
  /-- `m_str_mongrel_id`: the server of the first request. -/
  strMongrelId : String := ""
  pool : StorageWorker := {}
  /-- How many results of the pool have been read. -/
  read : Nat := 0
  /-- The clients whose requests went to the pool. -/
  accepted : List Int := []
  /-- The replies that follow from what the pool found. -/
  answered : List MongrelReply := []
  /-- The replies to tiles that a broker sent back. -/
  returned : List MongrelReply := []
  /-- The servers and clients that were told at once that there is no such tile. -/
  refused : List (String × String) := []
  /-- The jobs, each with the broker that has taken it. -/
  jobs : List (BrokerId × TileProtocol) := []
  /-- The clients that a result left without a reply and without a job. -/
  unanswered : List Int := []

structure FrontendConfig where
  rules : StyleRules
  thresholds : Thresholds
  maxConcurrency : BitVec 64
  dirtyList : DirtyList

inductive FrontendEvent where
  /-- A message of Mongrel2. -/
  | mongrel (text : String)
  /-- The pool works. -/
  | pool (e : StorageEvent)
  /-- The next result of the pool is read. The queue length is `length`, and `again` if it is read
  again; `broker` takes the job, if there is one. -/
  | result (length again : Nat) (broker : Option BrokerId)
  /-- A broker sends a tile back. -/
  | returned (tile : TileProtocol)

namespace Frontend

/-! ## A turn -/

/-- `boost::lexical_cast<int>` of digits. -/
def lexicalCast (id : String) : Option Int :=
  let n := Nat.ofDigitChars 10 id.toList 0
  if n < 2 ^ 31 then some n else none

/-- `handle_request_from_mongrel`. -/
def handleRequest (config : FrontendConfig) (s : Frontend) (text : String) : Option Frontend :=
  match MongrelRequest.requestParser {} text with
  | none => some s
  | some request =>
    match TilePath.parse {} request.path with
    | none => some { s with refused := s.refused ++ [(request.uuid, request.id)] }
    | some tile =>
      match config.rules.rewriteAndCheck tile with
      | none => none
      | some (false, _) => some { s with refused := s.refused ++ [(request.uuid, request.id)] }
      | some (true, tile) =>
        (lexicalCast request.id).map fun client =>
          { s with
            strMongrelId := if s.strMongrelId.isEmpty then request.uuid else s.strMongrelId
            pool := { s.pool with requestsIn := s.pool.requestsIn ++ [{ tile with id := client }] }
            accepted := s.accepted ++ [client] }

/-- The replies as they are sent. -/
def toMongrel (s : Frontend) (replies : HandlerReplies) : List MongrelReply :=
  replies.map fun (client, reply) => ⟨s.strMongrelId, client, reply⟩

/-- `put_job`: a broker takes the job, or there is none. -/
def putJob (broker : Option BrokerId) : TileHandler.PutJob := fun _ =>
  match broker with
  | some _ => .ok ()
  | none => .error "no brokers available to send jobs to!"

/-- The jobs that wait for the client of a tile. -/
def forClient (jobs : List TileProtocol) : List TileProtocol :=
  jobs.filter fun job => decide (0 ≤ job.id)

/-- `handle_response_from_storage`, of the next result. -/
def handleResult (config : FrontendConfig) (s : Frontend) (length again : Nat)
    (broker : Option BrokerId) : Option Frontend :=
  s.pool.resultsOut[s.read]?.bind fun tile =>
    match TileHandler.handleResponseFromStorage config.thresholds length again (putJob broker) tile with
    | .error _ => none
    | .ok o => some
      { s with
        read := s.read + 1
        answered := s.answered ++ s.toMongrel o.replies
        jobs := s.jobs ++ o.jobs.map fun job => (broker.getD "", job)
        unanswered := s.unanswered ++
          if o.replies = [] ∧ forClient o.jobs = [] then [tile.id] else [] }

/-- A reply of a broker, which the runner passes to `reply_with_tile`. -/
def handleReturned (s : Frontend) (tile : TileProtocol) : Option Frontend :=
  match replyWithTile tile with
  | .error _ => none
  | .ok replies => some { s with returned := s.returned ++ s.toMongrel replies }

def step (config : FrontendConfig) (s : Frontend) : FrontendEvent → Option Frontend
  | .mongrel text => s.handleRequest config text
  | .pool (.request _) => none
  | .pool e => (s.pool.step config.maxConcurrency config.dirtyList e).map fun pool =>
    { s with pool := pool }
  | .result length again broker => s.handleResult config length again broker
  | .returned tile => s.handleReturned tile

/-! ## The clients of the pool -/

/-- The clients of some tiles. -/
abbrev clients (tiles : List TileProtocol) : List Int := tiles.map (·.id)

/-- All tiles that the pool has or has had. -/
def tiles (pool : StorageWorker) : List TileProtocol :=
  pool.requestsIn ++ pool.queuedRequests ++ pool.working ++ pool.threadsIn ++ pool.resultsOut

theorem count_eraseIdx {l : List TileProtocol} {i : Nat} {tile : TileProtocol} (h : l[i]? = some tile)
    (client : Int) : (clients l).count client =
      (clients (l.eraseIdx i)).count client + [tile.id].count client := by
  obtain ⟨hi, rfl⟩ := List.getElem?_eq_some_iff.mp h
  have hperm := (List.getElem_cons_eraseIdx_perm hi).map (·.id)
  rw [clients, clients, ← hperm.count_eq, List.map_cons, ← List.singleton_append, List.count_append,
    Nat.add_comm]

/-- The pool moves its tiles, and answers each for its client. -/
theorem clients_step {maxConcurrency : BitVec 64} {dirtyList : DirtyList} {pool pool' : StorageWorker}
    {e : StorageEvent} (hother : ∀ tile, e ≠ .request tile)
    (hstep : pool.step maxConcurrency dirtyList e = some pool') (client : Int) :
    (clients (tiles pool')).count client = (clients (tiles pool)).count client ∧
      ∃ new, pool'.resultsOut = pool.resultsOut ++ new := by
  cases e with
  | request tile => exact absurd rfl (hother tile)
  | threadReply i storage =>
    obtain ⟨tile, htile, rfl⟩ := Option.map_eq_some_iff.mp hstep
    refine ⟨?_, [], (List.append_nil _).symm⟩
    have herase := count_eraseIdx htile client
    have hid : (threadReply dirtyList storage tile).id = tile.id :=
      (threadReply_same dirtyList storage tile).id
    simp only [clients, tiles, List.map_append, List.count_append, List.map_cons, List.map_nil, hid] at *
    omega
  | poll request reply =>
    obtain ⟨m, hm, hreply⟩ := Option.bind_eq_some_iff.mp hstep
    have hfirst : (clients (tiles m)).count client = (clients (tiles pool)).count client ∧
        m.resultsOut = pool.resultsOut := by
      cases request with
      | false =>
        obtain rfl := Option.some.inj hm
        exact ⟨rfl, rfl⟩
      | true =>
        rw [if_pos rfl, StorageWorker.pollRequest] at hm
        split at hm
        · cases hm
        · next tile rest hin =>
          dsimp only at hm
          split at hm
          · obtain rfl := Option.some.inj hm
            refine ⟨?_, rfl⟩
            simp only [clients, tiles, StorageWorker.dispatch, hin, List.map_append, List.map_cons,
              List.map_nil, List.count_append, List.count_cons, List.count_nil]
            omega
          · obtain rfl := Option.some.inj hm
            refine ⟨?_, rfl⟩
            simp only [clients, tiles, hin, List.map_append, List.map_cons, List.map_nil,
              List.count_append, List.count_cons, List.count_nil]
            omega
    cases reply with
    | none =>
      obtain rfl := Option.some.inj hreply
      exact ⟨hfirst.1, [], by rw [hfirst.2, List.append_nil]⟩
    | some i =>
      simp only [StorageWorker.pollReply] at hreply
      split at hreply
      · cases hreply
      · next tile htile =>
        have herase := count_eraseIdx htile client
        have hcount := hfirst.1
        split at hreply
        · next next' rest hqueued =>
          obtain rfl := Option.some.inj hreply
          refine ⟨?_, [tile], by rw [← hfirst.2]; rfl⟩
          rw [← hcount]
          simp only [clients, tiles, StorageWorker.dispatch, hqueued, List.map_append, List.map_cons,
            List.map_nil, List.count_append, List.count_cons, List.count_nil] at herase ⊢
          omega
        · next hqueued =>
          obtain rfl := Option.some.inj hreply
          refine ⟨?_, [tile], by rw [← hfirst.2]⟩
          rw [← hcount]
          simp only [clients, tiles, hqueued, List.map_append, List.map_cons, List.map_nil,
            List.count_append, List.count_cons, List.count_nil] at herase ⊢
          omega

/-! ## What becomes of a result -/

theorem forClient_append (jobs jobs' : List TileProtocol) :
    forClient (jobs ++ jobs') = forClient jobs ++ forClient jobs' :=
  List.filter_append ..

/-- What a result leaves of its client: a reply, a job that waits for it, or nothing. -/
inductive Fate (client : Int) (o : Outcome) : Prop where
  | answered (reply : HandlerReply) (replies : o.replies = [(client, reply)])
      (jobs : forClient o.jobs = [])
  | waits (job : TileProtocol) (replies : o.replies = []) (jobs : forClient o.jobs = [job])
      (own : job.id = client)
  | unanswered (replies : o.replies = []) (jobs : forClient o.jobs = []) (zero : client = 0)

/-- A job in the background waits for nobody. -/
theorem forClient_andInBackground (put : TileHandler.PutJob) (tile : TileProtocol)
    (replies : HandlerReplies) :
    forClient (TileHandler.andInBackground put tile replies).jobs = [] := by
  unfold TileHandler.andInBackground TileHandler.sendToQueue
  split <;> rfl

theorem fate_background {client : Int} (put : TileHandler.PutJob) (tile : TileProtocol)
    (reply : HandlerReply) : Fate client (TileHandler.andInBackground put tile [(client, reply)]) :=
  .answered reply (TileHandler.andInBackground_replies ..) (forClient_andInBackground ..)

/-- A job in the foreground waits for its client, or is refused. Client 0 is not told. -/
theorem fate_foreground {tile : TileProtocol} (hid : 0 ≤ tile.id) (put : TileHandler.PutJob) :
    Fate tile.id (TileHandler.sendToQueue put (HandlerBackend.inForeground tile)) := by
  have hsame : (HandlerBackend.inForeground tile).id = tile.id := rfl
  unfold TileHandler.sendToQueue
  split
  · refine .waits (HandlerBackend.inForeground tile) rfl ?_ rfl
    simp [forClient, hsame, hid]
  · by_cases hpos : tile.id > 0
    · exact .answered .notFound (by rw [hsame, if_pos hpos]) rfl
    · exact .unanswered (by rw [hsame, if_neg hpos]) rfl (by omega)

/-- `reply_with_tile` sends one reply, if it does not throw. -/
theorem replyWithTile_one {tile : TileProtocol} (hid : 0 ≤ tile.id) {replies : HandlerReplies}
    (h : replyWithTile tile = .ok replies) : ∃ reply, replies = [(tile.id, reply)] := by
  unfold replyWithTile at h
  rw [if_neg (by omega)] at h
  split at h
  · split at h
    · cases h
    · split at h
      · exact ⟨_, (Except.ok.inj h).symm⟩
      · exact ⟨_, (Except.ok.inj h).symm⟩
  · exact ⟨_, (Except.ok.inj h).symm⟩

theorem replyWithTile_map {tile : TileProtocol} (hid : 0 ≤ tile.id) {f : HandlerReplies → Outcome}
    {o : Outcome} (h : (replyWithTile tile).map f = .ok o) : ∃ reply, o = f [(tile.id, reply)] := by
  cases hreplies : replyWithTile tile with
  | error e =>
    rw [hreplies] at h
    cases h
  | ok replies =>
    rw [hreplies] at h
    obtain ⟨reply, rfl⟩ := replyWithTile_one hid hreplies
    exact ⟨reply, (Except.ok.inj h).symm⟩

theorem fate_stored {th : Thresholds} {length again : Nat} {put : TileHandler.PutJob}
    {tile : TileProtocol} (hid : 0 ≤ tile.id) {o : Outcome}
    (h : TileHandler.answerStored th length again put tile = .ok o) : Fate tile.id o := by
  unfold TileHandler.answerStored at h
  split at h
  · obtain ⟨reply, rfl⟩ := replyWithTile_map hid h
    exact .answered reply rfl rfl
  · split at h
    · obtain ⟨reply, rfl⟩ := replyWithTile_map hid h
      split
      · exact fate_background ..
      · exact .answered reply rfl rfl
    · obtain rfl := Except.ok.inj h
      exact fate_foreground hid put

theorem fate_of_result {th : Thresholds} {length again : Nat} {put : TileHandler.PutJob}
    {tile : TileProtocol} (hid : 0 ≤ tile.id) {o : Outcome}
    (h : TileHandler.handleResponseFromStorage th length again put tile = .ok o) :
    Fate tile.id o := by
  unfold TileHandler.handleResponseFromStorage at h
  split at h
  · split at h
    · obtain rfl := Except.ok.inj h
      exact .answered _ rfl rfl
    · split at h
      · obtain rfl := Except.ok.inj h
        exact .answered _ rfl rfl
      · obtain rfl := Except.ok.inj h
        exact .answered _ rfl rfl
  · split at h
    · obtain rfl := Except.ok.inj h
      exact .answered _ rfl rfl
    · obtain rfl := Except.ok.inj h
      exact fate_background ..
  · split at h
    · obtain rfl := Except.ok.inj h
      exact .answered _ rfl rfl
    · split at h
      · obtain rfl := Except.ok.inj h
        exact fate_background ..
      · obtain rfl := Except.ok.inj h
        exact fate_foreground hid put
  · exact fate_stored hid h

/-- A job that waits for a client is to be rendered at once. -/
theorem status_of_forClient {th : Thresholds} {length again : Nat} {put : TileHandler.PutJob}
    {tile : TileProtocol} {o : Outcome}
    (h : TileHandler.handleResponseFromStorage th length again put tile = .ok o) :
    ∀ job ∈ o.jobs, 0 ≤ job.id → job.status = .cmdRender := by
  have hback : ∀ replies, ∀ job ∈ (TileHandler.andInBackground put tile replies).jobs,
      0 ≤ job.id → job.status = .cmdRender := by
    intro replies job hjob hid
    have hmem : job ∈ forClient (TileHandler.andInBackground put tile replies).jobs :=
      List.mem_filter.mpr ⟨hjob, by simpa using hid⟩
    rw [forClient_andInBackground] at hmem
    exact absurd hmem List.not_mem_nil
  have hfore : ∀ job ∈ (TileHandler.sendToQueue put (HandlerBackend.inForeground tile)).jobs,
      0 ≤ job.id → job.status = .cmdRender := by
    intro job hjob _
    unfold TileHandler.sendToQueue at hjob
    split at hjob
    · rw [List.mem_singleton.mp hjob]
      rfl
    · exact absurd hjob List.not_mem_nil
  unfold TileHandler.handleResponseFromStorage at h
  split at h
  · split at h
    · obtain rfl := Except.ok.inj h
      simp
    · split at h
      · obtain rfl := Except.ok.inj h
        simp
      · obtain rfl := Except.ok.inj h
        simp
  · split at h
    · obtain rfl := Except.ok.inj h
      simp
    · obtain rfl := Except.ok.inj h
      exact hback _
  · split at h
    · obtain rfl := Except.ok.inj h
      simp
    · split at h
      · obtain rfl := Except.ok.inj h
        exact hback _
      · obtain rfl := Except.ok.inj h
        exact hfore
  · unfold TileHandler.answerStored at h
    cases hreply : replyWithTile tile with
    | error e =>
      rw [hreply] at h
      simp only [Except.map] at h
      split at h
      · cases h
      · split at h
        · cases h
        · obtain rfl := Except.ok.inj h
          exact hfore
    | ok replies =>
      rw [hreply] at h
      simp only [Except.map] at h
      split at h
      · obtain rfl := Except.ok.inj h
        simp
      · split at h
        · obtain rfl := Except.ok.inj h
          split
          · exact hback _
          · simp
        · obtain rfl := Except.ok.inj h
          exact hfore

/-! ## The account of all clients -/

/-- The tiles that are with the pool: they are not answered yet, or their results not read. -/
def inPool (s : Frontend) : List TileProtocol :=
  s.pool.requestsIn ++ s.pool.queuedRequests ++ s.pool.working ++ s.pool.threadsIn ++
    s.pool.resultsOut.drop s.read

/-- The jobs that a client waits for. -/
def awaited (s : Frontend) : List TileProtocol := forClient (s.jobs.map Prod.snd)

/-- Where the clients are that were accepted. -/
structure Settled (s : Frontend) : Prop where
  once : s.accepted.Perm
    (clients s.inPool ++ s.answered.map (·.client) ++ clients s.awaited ++ s.unanswered)
  valid : ∀ client ∈ s.accepted, 0 ≤ client
  unanswered : ∀ client ∈ s.unanswered, client = 0
  read : s.read ≤ s.pool.resultsOut.length

theorem settled_start : Settled {} where
  once := .refl _
  valid := by simp
  unanswered := by simp
  read := le_refl 0

theorem lexicalCast_nonneg {id : String} {client : Int} (h : lexicalCast id = some client) :
    0 ≤ client := by
  simp only [lexicalCast] at h
  split at h
  · rw [← Option.some.inj h]
    exact Int.natCast_nonneg _
  · cases h

/-- The tiles that are with the pool are for clients that were accepted. -/
theorem Settled.valid_inPool {s : Frontend} (h : Settled s) {tile : TileProtocol}
    (htile : tile ∈ s.inPool) : 0 ≤ tile.id := by
  refine h.valid _ (h.once.mem_iff.mpr ?_)
  simp only [List.mem_append]
  exact .inl (.inl (.inl (List.mem_map_of_mem htile)))

variable {config : FrontendConfig} {s s' : Frontend}

/-- What changes when a request is taken. -/
theorem handleRequest_cases {text : String} (hstep : s.handleRequest config text = some s') :
    (s'.pool = s.pool ∧ s'.read = s.read ∧ s'.accepted = s.accepted ∧ s'.answered = s.answered ∧
      s'.jobs = s.jobs ∧ s'.unanswered = s.unanswered) ∨
    ∃ tile : TileProtocol, 0 ≤ tile.id ∧
      s'.pool = { s.pool with requestsIn := s.pool.requestsIn ++ [tile] } ∧ s'.read = s.read ∧
      s'.accepted = s.accepted ++ [tile.id] ∧ s'.answered = s.answered ∧ s'.jobs = s.jobs ∧
      s'.unanswered = s.unanswered := by
  unfold handleRequest at hstep
  split at hstep
  · obtain rfl := Option.some.inj hstep
    exact .inl ⟨rfl, rfl, rfl, rfl, rfl, rfl⟩
  · split at hstep
    · obtain rfl := Option.some.inj hstep
      exact .inl ⟨rfl, rfl, rfl, rfl, rfl, rfl⟩
    · split at hstep
      · cases hstep
      · obtain rfl := Option.some.inj hstep
        exact .inl ⟨rfl, rfl, rfl, rfl, rfl, rfl⟩
      · next tile _ =>
        obtain ⟨client, hclient, rfl⟩ := Option.map_eq_some_iff.mp hstep
        exact .inr ⟨{ tile with id := client }, lexicalCast_nonneg hclient, rfl, rfl, rfl, rfl, rfl,
          rfl⟩

theorem settled_handleRequest (h : Settled s) {text : String}
    (hstep : s.handleRequest config text = some s') : Settled s' := by
  rcases handleRequest_cases hstep with ⟨hpool, hread, haccepted, hanswered, hjobs, hunanswered⟩ |
    ⟨tile, hid, hpool, hread, haccepted, hanswered, hjobs, hunanswered⟩
  · constructor
    · simp only [inPool, awaited, hpool, hread, haccepted, hanswered, hjobs, hunanswered]
      exact h.once
    · rw [haccepted]
      exact h.valid
    · rw [hunanswered]
      exact h.unanswered
    · rw [hread, hpool]
      exact h.read
  · constructor
    · have honce := h.once
      simp only [List.perm_iff_count, inPool, awaited, hpool, hread, haccepted, hanswered, hjobs,
        hunanswered, clients, List.map_append, List.count_append, List.map_cons, List.map_nil]
        at honce ⊢
      intro client
      have := honce client
      omega
    · rw [haccepted]
      intro client hclient
      rcases List.mem_append.mp hclient with hclient | hclient
      · exact h.valid client hclient
      · rwa [List.mem_singleton.mp hclient]
    · rw [hunanswered]
      exact h.unanswered
    · rw [hread, hpool]
      exact h.read

/-- The pool has the tiles that are with it, and those that have been read. -/
theorem count_inPool (s : Frontend) (client : Int) :
    (clients (tiles s.pool)).count client =
      (clients s.inPool).count client + (clients (s.pool.resultsOut.take s.read)).count client := by
  have hsplit : (clients s.pool.resultsOut).count client =
      (clients (s.pool.resultsOut.take s.read)).count client +
        (clients (s.pool.resultsOut.drop s.read)).count client := by
    rw [← List.count_append, ← List.map_append, List.take_append_drop]
  simp only [clients, tiles, inPool, List.map_append, List.count_append] at hsplit ⊢
  omega

theorem settled_pool (h : Settled s) {e : StorageEvent}
    (hstep : s.step config (.pool e) = some s') : Settled s' := by
  have hother : ∀ tile, e ≠ .request tile := by
    rintro tile rfl
    cases hstep
  have hstep' : (s.pool.step config.maxConcurrency config.dirtyList e).map
      (fun pool => { s with pool := pool }) = some s' := by
    cases e with
    | request tile => exact absurd rfl (hother tile)
    | threadReply i storage => exact hstep
    | poll request reply => exact hstep
  obtain ⟨pool, hpool, rfl⟩ := Option.map_eq_some_iff.mp hstep'
  obtain ⟨new, hnew⟩ := (clients_step hother hpool 0).2
  refine ⟨?_, h.valid, h.unanswered, ?_⟩
  · have honce := h.once
    simp only [List.perm_iff_count, List.count_append] at honce ⊢
    intro client
    have hcount := (clients_step hother hpool client).1
    have hbefore := count_inPool s client
    have hafter := count_inPool { s with pool := pool } client
    have hread : pool.resultsOut.take s.read = s.pool.resultsOut.take s.read := by
      rw [hnew, List.take_append_of_le_length h.read]
    have := honce client
    simp only [hread, awaited] at hafter this ⊢
    omega
  · show s.read ≤ pool.resultsOut.length
    rw [hnew, List.length_append]
    have := h.read
    omega

theorem settled_handleResult (h : Settled s) {length again : Nat} {broker : Option BrokerId}
    (hstep : s.handleResult config length again broker = some s') : Settled s' := by
  obtain ⟨tile, htile, hstep⟩ := Option.bind_eq_some_iff.mp hstep
  split at hstep
  · cases hstep
  · next o ho =>
    obtain rfl := Option.some.inj hstep
    obtain ⟨hlt, hget⟩ := List.getElem?_eq_some_iff.mp htile
    have hdrop : s.pool.resultsOut.drop s.read = tile :: s.pool.resultsOut.drop (s.read + 1) := by
      rw [List.drop_eq_getElem_cons hlt, hget]
    have hid : 0 ≤ tile.id := h.valid_inPool (by simp [inPool, hdrop])
    have hjobs : (o.jobs.map fun job => (broker.getD "", job)).map Prod.snd = o.jobs := by
      rw [List.map_map]
      exact List.map_id _
    have hmongrel : (s.toMongrel o.replies).map (·.client) = o.replies.map Prod.fst := by
      rw [toMongrel, List.map_map]
      rfl
    have honce := h.once
    simp only [List.perm_iff_count, inPool, awaited, hdrop] at honce
    have hfate := fate_of_result hid ho
    refine ⟨?_, h.valid, ?_, hlt⟩
    · simp only [List.perm_iff_count, inPool, awaited, List.map_append, forClient_append, hjobs, hmongrel]
      intro client
      have hbefore := honce client
      cases hfate with
      | answered reply replies jobs =>
        rw [replies, jobs]
        simp only [clients, List.map_append, List.map_cons, List.map_nil, List.count_append,
          List.count_cons, List.count_nil, List.append_nil, reduceCtorEq, false_and, if_false]
          at hbefore ⊢
        omega
      | waits job replies jobs own =>
        rw [replies, jobs]
        simp only [clients, List.map_append, List.map_cons, List.map_nil, List.count_append,
          List.count_cons, List.count_nil, List.append_nil, reduceCtorEq, and_false, if_false, own]
          at hbefore ⊢
        omega
      | unanswered replies jobs zero =>
        rw [replies, jobs]
        simp only [clients, List.map_append, List.map_cons, List.map_nil, List.count_append,
          List.count_cons, List.count_nil, List.append_nil, and_self, if_true] at hbefore ⊢
        omega
    · intro client hclient
      rcases List.mem_append.mp hclient with hclient | hclient
      · exact h.unanswered client hclient
      · cases hfate with
        | answered reply replies jobs => simp [replies] at hclient
        | waits job replies jobs own => simp [replies, jobs] at hclient
        | unanswered replies jobs zero =>
          simp only [replies, jobs, and_self, if_true, List.mem_singleton] at hclient
          exact hclient.trans zero

/-- **The step.** -/
theorem settled_step (h : Settled s) {e : FrontendEvent} (hstep : s.step config e = some s') :
    Settled s' := by
  cases e with
  | mongrel text => exact settled_handleRequest h hstep
  | pool e => exact settled_pool h hstep
  | result length again broker => exact settled_handleResult h hstep
  | returned tile =>
    simp only [step, handleReturned] at hstep
    split at hstep
    · cases hstep
    · obtain rfl := Option.some.inj hstep
      exact ⟨h.once, h.valid, h.unanswered, h.read⟩

/-- A turn only adds jobs, and only a tile that a broker sends back adds to what is returned. -/
theorem jobs_step {e : FrontendEvent} (hstep : s.step config e = some s') :
    (∃ new, s'.jobs = s.jobs ++ new ∧ ∀ p ∈ new, 0 ≤ p.2.id → p.2.status = .cmdRender) ∧
      ((∀ tile, e ≠ .returned tile) → s'.returned = s.returned) := by
  have none_new : s'.jobs = s.jobs →
      ∃ new, s'.jobs = s.jobs ++ new ∧ ∀ p ∈ new, 0 ≤ p.2.id → p.2.status = .cmdRender :=
    fun h => ⟨[], by rw [h, List.append_nil], by simp⟩
  cases e with
  | mongrel text =>
    refine ⟨none_new ?_, fun _ => ?_⟩
    · rcases handleRequest_cases hstep with ⟨_, _, _, _, hjobs, _⟩ | ⟨_, _, _, _, _, _, hjobs, _⟩
      · exact hjobs
      · exact hjobs
    · simp only [step, handleRequest] at hstep
      split at hstep
      · rw [← Option.some.inj hstep]
      · split at hstep
        · rw [← Option.some.inj hstep]
        · split at hstep
          · cases hstep
          · rw [← Option.some.inj hstep]
          · obtain ⟨_, _, rfl⟩ := Option.map_eq_some_iff.mp hstep
            rfl
  | pool e =>
    cases e with
    | request tile => cases hstep
    | _ =>
      obtain ⟨_, _, rfl⟩ := Option.map_eq_some_iff.mp hstep
      exact ⟨none_new rfl, fun _ => rfl⟩
  | result length again broker =>
    obtain ⟨tile, _, hstep⟩ := Option.bind_eq_some_iff.mp hstep
    split at hstep
    · cases hstep
    · next o ho =>
      obtain rfl := Option.some.inj hstep
      refine ⟨⟨_, rfl, ?_⟩, fun _ => rfl⟩
      intro p hp
      obtain ⟨job, hjob, rfl⟩ := List.mem_map.mp hp
      exact status_of_forClient ho job hjob
  | returned tile =>
    simp only [step, handleReturned] at hstep
    split at hstep
    · cases hstep
    · obtain rfl := Option.some.inj hstep
      exact ⟨none_new rfl, fun hother => absurd rfl (hother tile)⟩

/-- A tile that a broker sends back is answered once, if it has a client. -/
theorem returned_step {tile : TileProtocol} (hstep : s.step config (.returned tile) = some s') :
    s'.returned.map (·.client) =
      s.returned.map (·.client) ++ if 0 ≤ tile.id then [tile.id] else [] := by
  simp only [step, handleReturned] at hstep
  split at hstep
  · cases hstep
  · next replies hreplies =>
    obtain rfl := Option.some.inj hstep
    rw [List.map_append, toMongrel, List.map_map]
    congr 1
    split
    · next hid =>
      obtain ⟨reply, rfl⟩ := replyWithTile_one hid hreplies
      rfl
    · next hid =>
      unfold replyWithTile at hreplies
      rw [if_pos (by omega)] at hreplies
      obtain rfl := Except.ok.inj hreplies
      rfl

/-! ## The guarantee -/

/-- After every run of a handler, each client that was accepted is in exactly one place: its tile is
with the pool, or it was answered at once, or a job with its id was given to a broker; or it is client
0, whose job no broker took.

Requests, storage threads, heartbeats and replies come in any order. Whether a job that was given to a
broker is answered is not part of this; the stack of handlers and brokers is about that. -/
theorem every_client_is_settled (config : FrontendConfig) (events : List FrontendEvent) (s : Frontend)
    (hrun : Run.run (step config) {} events = some s) : Settled s := by
  have hstep : ∀ (past : List FrontendEvent) (s : Frontend) (e : FrontendEvent) (t : Frontend),
      Settled s → s.step config e = some t → Settled t :=
    fun _ _ _ _ h hs => settled_step h hs
  exact Run.run_invariant hstep events [] {} s settled_start hrun

theorem parsed_empty : ∀ {style : String} {fmts : ProtoFmt},
    SortedMap.empty.find style = some fmts → fmts &&& fmtAll = fmts := by
  intro style fmts h
  cases h

/-- Any tile of the world, down to zoom 18, with a pool of one thread. -/
def plainConfig : FrontendConfig where
  rules := { rewrites := .empty, formats := .empty, forcedFormats := .empty, zoomLimits := .empty
             parsed := @parsed_empty }
  thresholds := ⟨100, 500, 1000, false⟩
  maxConcurrency := 1#64
  dirtyList := fun _ => none

/-- A client asks for a tile that the storage does not answer for, and waits for a job. -/
def oneClient : List FrontendEvent :=
  [.mongrel (MongrelRequest.message "u" "7" "/a/b/osm/0/0/0.png" [MongrelRequest.methodHeader]),
    .pool (.poll true none), .pool (.threadReply 0 StorageWorker.throwingStorage),
    .pool (.poll false (some 0)), .result 0 0 (some "b"),
    .returned { id := 7, status := .cmdDone, data := [1] }]

theorem oneClient_is_settled : ∃ s, Run.run (step plainConfig) {} oneClient = some s ∧
    s.accepted = [7] ∧ s.returned.map (·.client) = [7] ∧ Settled s :=
  ⟨_, rfl, rfl, rfl, every_client_is_settled plainConfig oneClient _ rfl⟩

end Frontend

end RenderMq
