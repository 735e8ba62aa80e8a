import RenderMq.Handler.Frontend
import RenderMq.System.Jobs

/-!
# Handlers and brokers together

A stack is any number of handlers and of brokers. A handler gives a job to a broker; the broker sends
a reply to the handler that a subscriber came from. Both may be delayed, overtaken and lost on their
way. What workers and monitors send a broker is arbitrary here; what a `CLEAR TASK QUEUE` throws away
is kept account of (`cleared`). A result that cannot be read ends its broker, and with it the run.

Each client should be answered at most once, in the whole stack: by its handler, from what the storage
has, or by the reply to its job. `Frontend.every_client_is_settled` is the account of one handler, and
`Broker.conserved_step` that of one broker. `Flows` joins them: for a handler, a broker and a client,
the jobs that were given, those that reached the broker, the replies, and those that came back.
-/

namespace RenderMq

/-- A handler is known to the brokers by the identity of its socket. -/
abbrev HandlerId := String

/-- A job, or the reply to it, between a handler and a broker. -/
abbrev Hop := HandlerId × BrokerId × TileProtocol

structure Stack where
  frontends : HandlerId → Frontend
  brokers : BrokerId → Broker
  /-- Jobs on their way. -/
  toBrokers : List Hop := []
  /-- Replies on their way. -/
  toHandlers : List Hop := []
  /-- What each broker has received. -/
  history : BrokerId → List BrokerEvent
  /-- The requests that each broker has cleared unanswered. -/
  cleared : BrokerId → List Request := fun _ => []
  /-- The replies that handlers have read. -/
  delivered : List Hop := []
  lostJobs : List Hop := []
  lostReplies : List Hop := []

structure StackConfig where
  frontend : HandlerId → FrontendConfig
  broker : BrokerConfig := {}

inductive StackEvent where
  /-- A handler takes a turn, other than for a reply of a broker. -/
  | frontend (handler : HandlerId) (e : FrontendEvent)
  /-- A worker or a monitor sends a broker a message. -/
  | broker (broker : BrokerId) (e : BrokerEvent)
  /-- The `i`-th job on its way reaches its broker. -/
  | request (i : Nat) (now : Int)
  /-- The `i`-th reply on its way reaches its handler. -/
  | reply (i : Nat)
  | loseRequest (i : Nat)
  | loseReply (i : Nat)

namespace Stack

def start : Stack := { frontends := fun _ => {}, brokers := fun _ => .start, history := fun _ => [] }

/-! ## The step -/

/-- Some requests to a broker. -/
def ofRequests (broker : BrokerId) (requests : List Request) : List Hop :=
  requests.map fun (tile, address) => (address, broker, tile)

/-- Some replies of a broker. -/
def ofReplies (broker : BrokerId) (replies : List Broker.Reply) : List Hop :=
  replies.map fun (address, tile) => (address, broker, tile)

/-- The requests that a message to a broker clears unanswered. -/
def clearedBy (b : Broker) : BrokerEvent → List Request
  | .clearTaskQueue => Broker.pending b.queue.tasks
  | _ => []

/-- A broker takes a message, and its replies set out. -/
def take (config : StackConfig) (s : Stack) (broker : BrokerId) (e : BrokerEvent) : Option Stack :=
  ((s.brokers broker).step config.broker e).map fun b =>
    { s with
      brokers := Function.update s.brokers broker b
      history := Function.update s.history broker (s.history broker ++ [e])
      cleared := Function.update s.cleared broker
        (s.cleared broker ++ clearedBy (s.brokers broker) e)
      toHandlers := s.toHandlers ++ ofReplies broker (Broker.newReplies (s.brokers broker) b) }

/-- A handler takes a turn, and its jobs set out. -/
def turn (config : StackConfig) (s : Stack) (handler : HandlerId) (e : FrontendEvent) :
    Option Stack :=
  ((s.frontends handler).step (config.frontend handler) e).map fun f =>
    { s with
      frontends := Function.update s.frontends handler f
      toBrokers := s.toBrokers ++
        (f.jobs.drop (s.frontends handler).jobs.length).map fun (broker, job) =>
          (handler, broker, job) }

/-- What comes to a handler from elsewhere than a broker. -/
def isOwn : FrontendEvent → Bool
  | .returned _ => false
  | _ => true

/-- What comes to a broker from elsewhere than a handler. -/
def isOther : BrokerEvent → Bool
  | .request _ _ _ => false
  | _ => true

def step (config : StackConfig) (s : Stack) : StackEvent → Option Stack
  | .frontend handler e => if isOwn e then s.turn config handler e else none
  | .broker broker e => if isOther e then s.take config broker e else none
  | .request i now => s.toBrokers[i]?.bind fun (handler, broker, tile) =>
    { s with toBrokers := s.toBrokers.eraseIdx i }.take config broker (.request handler tile now)
  | .reply i => s.toHandlers[i]?.bind fun (handler, broker, tile) =>
    { s with
      toHandlers := s.toHandlers.eraseIdx i
      delivered := s.delivered ++ [(handler, broker, tile)] }.turn config handler (.returned tile)
  | .loseRequest i => s.toBrokers[i]?.map fun hop =>
    { s with toBrokers := s.toBrokers.eraseIdx i, lostJobs := s.lostJobs ++ [hop] }
  | .loseReply i => s.toHandlers[i]?.map fun hop =>
    { s with toHandlers := s.toHandlers.eraseIdx i, lostReplies := s.lostReplies ++ [hop] }

/-- A run of the stack, from its start. -/
def run (config : StackConfig) (events : List StackEvent) : Option Stack :=
  Run.run (step config) start events

/-! ## Counting -/

/-- Whose a job or a reply is: the handler, the broker and the client. -/
def key (hop : Hop) : HandlerId × BrokerId × Int := (hop.1, hop.2.1, hop.2.2.id)

/-- How many jobs or replies are somebody's. -/
def times (k : HandlerId × BrokerId × Int) (l : List Hop) : Nat := (l.map key).count k

theorem times_append (k : HandlerId × BrokerId × Int) (l l' : List Hop) :
    times k (l ++ l') = times k l + times k l' := by
  simp only [times, List.map_append, List.count_append]

theorem times_eraseIdx {l : List Hop} {i : Nat} {hop : Hop} (h : l[i]? = some hop)
    (k : HandlerId × BrokerId × Int) : times k l = times k (l.eraseIdx i) + times k [hop] := by
  obtain ⟨hi, rfl⟩ := List.getElem?_eq_some_iff.mp h
  have hperm := (List.getElem_cons_eraseIdx_perm hi).map key
  rw [times, ← hperm.count_eq, List.map_cons, ← List.singleton_append, List.count_append,
    Nat.add_comm]
  rfl

/-- Nothing of another broker is somebody's. -/
theorem times_other {h : HandlerId} {b b' : BrokerId} {c : Int} (hne : b ≠ b') (l : List Hop)
    (hall : ∀ hop ∈ l, hop.2.1 = b') : times (h, b, c) l = 0 := by
  refine List.count_eq_zero.mpr fun hmem => ?_
  obtain ⟨hop, hhop, hkey⟩ := List.mem_map.mp hmem
  have hbroker : hop.2.1 = b := congrArg (fun k => k.2.1) hkey
  exact hne (hbroker.symm.trans (hall hop hhop))

theorem broker_ofRequests {broker : BrokerId} {requests : List Request} :
    ∀ hop ∈ ofRequests broker requests, hop.2.1 = broker := by
  intro hop hhop
  obtain ⟨_, _, rfl⟩ := List.mem_map.mp hhop
  rfl

theorem broker_ofReplies {broker : BrokerId} {replies : List Broker.Reply} :
    ∀ hop ∈ ofReplies broker replies, hop.2.1 = broker := by
  intro hop hhop
  obtain ⟨_, _, rfl⟩ := List.mem_map.mp hhop
  rfl

/-- The jobs that a handler has given. -/
def given (s : Stack) (handler : HandlerId) : List Hop :=
  (s.frontends handler).jobs.map fun (broker, job) => (handler, broker, job)

/-- The requests that a broker has received. -/
abbrev requests (s : Stack) (broker : BrokerId) : List Request := Broker.received (s.history broker)

/-- The requests that wait at a broker. -/
abbrev waiting (s : Stack) (broker : BrokerId) : List Request :=
  Broker.pending (s.brokers broker).queue.tasks

abbrev replies (s : Stack) (broker : BrokerId) : List Broker.Reply :=
  Broker.replies (s.brokers broker).sent

/-! ## The invariant -/

/-- Of the requests that a broker has received, it has cleared some, and the others are conserved. -/
def Keeps (requests cleared : List Request) (b : Broker) : Prop :=
  ∃ kept, (requests.filter Broker.wantsReply).Perm (kept.filter Broker.wantsReply ++ cleared) ∧
    Broker.Conserved kept b

/-- How the jobs and the replies flow. -/
structure Flows (s : Stack) : Prop where
  settled : ∀ h, (s.frontends h).Settled
  conserved : ∀ b, Keeps (s.requests b) (s.cleared b) (s.brokers b)
  /-- A job is on its way, has reached its broker, or is lost. -/
  jobs : ∀ h b c, times (h, b, c) (s.given h) = times (h, b, c) s.toBrokers +
    times (h, b, c) (ofRequests b (s.requests b)) + times (h, b, c) s.lostJobs
  /-- A reply is on its way, has reached its handler, or is lost. -/
  replies : ∀ h b c, times (h, b, c) (ofReplies b (s.replies b)) = times (h, b, c) s.toHandlers +
    times (h, b, c) s.delivered + times (h, b, c) s.lostReplies
  /-- A job that a client waits for wants a reply. -/
  wanted : ∀ b, ∀ request ∈ s.requests b, 0 ≤ request.1.id → Broker.wantsReply request = true
  wantedOnWay : ∀ hop ∈ s.toBrokers, 0 ≤ hop.2.2.id → hop.2.2.status = .cmdRender
  /-- A handler answers each reply that reaches it, if there is a client. -/
  returned : ∀ h, (s.frontends h).returned.map (·.client) =
    (s.delivered.filter fun hop => decide (hop.1 = h ∧ 0 ≤ hop.2.2.id)).map (·.2.2.id)

theorem flows_start : Flows start where
  settled _ := Frontend.settled_start
  conserved _ := ⟨[], .refl _, Broker.conserved_start⟩
  jobs _ _ _ := rfl
  replies _ _ _ := rfl
  wanted _ _ hmem := absurd hmem List.not_mem_nil
  wantedOnWay _ hmem := absurd hmem List.not_mem_nil
  returned _ := rfl

variable {config : StackConfig} {s s' : Stack}

/-- What a broker sends comes after what it has sent. -/
theorem sent_step {config : BrokerConfig} {b b' : Broker} {e : BrokerEvent}
    (hstep : b.step config e = some b') :
    Broker.replies b'.sent = Broker.replies b.sent ++ Broker.newReplies b b' := by
  obtain ⟨new, hnew⟩ : ∃ new, b'.sent = b.sent ++ new := by
    by_cases hget : ∃ addresses, e = .getJob addresses
    · obtain ⟨addresses, rfl⟩ := hget
      obtain rfl := Option.some.inj hstep
      obtain ⟨answer, hanswer, _⟩ := b.giveJob_sent addresses
      exact ⟨_, hanswer⟩
    · obtain ⟨new, hnew, _⟩ := Broker.quiet_step (fun addresses h => hget ⟨addresses, h⟩) hstep
      exact ⟨new, hnew⟩
  rw [Broker.newReplies, hnew, List.drop_left, Broker.replies_append]

/-- A message to a broker keeps the account of its requests. -/
theorem Keeps.step {config : BrokerConfig} {b b' : Broker} {e : BrokerEvent}
    {requests cleared : List Request} (h : Keeps requests cleared b)
    (hstep : b.step config e = some b') :
    Keeps (requests ++ Broker.received [e]) (cleared ++ clearedBy b e) b' := by
  obtain ⟨kept, hperm, hkept⟩ := h
  by_cases hclear : e = .clearTaskQueue
  · subst hclear
    obtain ⟨rest, hrest, hconserved⟩ := hkept.clear hstep
    refine ⟨rest, ?_, hconserved⟩
    rw [show Broker.received [.clearTaskQueue] = [] from rfl, List.append_nil]
    refine hperm.trans ((hrest.append_right cleared).trans ?_)
    rw [List.append_assoc]
    exact List.perm_append_comm.append_left _
  · have hnone : clearedBy b e = [] := by
      cases e with
      | clearTaskQueue => exact absurd rfl hclear
      | _ => rfl
    refine ⟨kept ++ Broker.received [e], ?_, Broker.conserved_step hkept hclear hstep⟩
    rw [hnone, List.append_nil, List.filter_append, List.filter_append, List.append_assoc]
    refine (hperm.append_right _).trans ?_
    rw [List.append_assoc]
    exact List.perm_append_comm.append_left _

/-- A broker takes a message; its request, if it is one, was on its way before. -/
theorem flows_take {broker : BrokerId} {e : BrokerEvent} (h : Flows s) {rest : List Hop} (hsub : ∀ hop ∈ rest, hop ∈ s.toBrokers)
    (hrest : ∀ k, times k s.toBrokers =
      times k rest + times k (ofRequests broker (Broker.received [e])))
    (hwanted : ∀ request ∈ Broker.received [e], 0 ≤ request.1.id → Broker.wantsReply request = true)
    (hstep : { s with toBrokers := rest }.take config broker e = some s') : Flows s' := by
  obtain ⟨b, hb, rfl⟩ := Option.map_eq_some_iff.mp hstep
  have hreplies := sent_step hb
  have hhistory : ∀ b', Function.update s.history broker (s.history broker ++ [e]) b' =
      if b' = broker then s.history broker ++ [e] else s.history b' :=
    fun b' => Function.update_apply ..
  have hbrokers : ∀ b', Function.update s.brokers broker b b' =
      if b' = broker then b else s.brokers b' :=
    fun b' => Function.update_apply ..
  have hcleared : ∀ b', Function.update s.cleared broker
      (s.cleared broker ++ clearedBy (s.brokers broker) e) b' =
      if b' = broker then s.cleared broker ++ clearedBy (s.brokers broker) e else s.cleared b' :=
    fun b' => Function.update_apply ..
  refine ⟨h.settled, fun b' => ?_, fun hd b' c => ?_, fun hd b' c => ?_, fun b' => ?_,
    fun hop hhop => h.wantedOnWay hop (hsub hop hhop), h.returned⟩
  · simp only [requests, hhistory, hbrokers, hcleared]
    split
    · next heq =>
      subst heq
      rw [Broker.received_append]
      exact (h.conserved b').step hb
    · exact h.conserved b'
  · have hcount := h.jobs hd b' c
    rw [hrest] at hcount
    simp only [requests, hhistory, given] at hcount ⊢
    split
    · next heq =>
      subst heq
      rw [Broker.received_append, ofRequests, List.map_append]
      simp only [times_append, ofRequests] at hcount ⊢
      omega
    · next hne =>
      rw [times_other hne _ broker_ofRequests] at hcount
      omega
  · have hcount := h.replies hd b' c
    simp only [replies, hbrokers] at hcount ⊢
    split
    · next heq =>
      subst heq
      rw [hreplies, ofReplies, List.map_append]
      simp only [times_append, ofReplies] at hcount ⊢
      omega
    · next hne =>
      rw [times_append, times_other hne _ broker_ofReplies]
      omega
  · intro request hrequest
    simp only [requests, hhistory] at hrequest
    split at hrequest
    · rw [Broker.received_append] at hrequest
      rcases List.mem_append.mp hrequest with hmem | hmem
      · exact h.wanted broker request hmem
      · exact hwanted request hmem
    · exact h.wanted b' request hrequest

/-- A handler takes a turn of its own. -/
theorem flows_turn {handler : HandlerId} {e : FrontendEvent} (h : Flows s) (hown : isOwn e = true)
    (hstep : s.turn config handler e = some s') : Flows s' := by
  obtain ⟨f, hf, rfl⟩ := Option.map_eq_some_iff.mp hstep
  obtain ⟨⟨new, hnew, hrender⟩, hreturned⟩ := Frontend.jobs_step hf
  have hsame := hreturned (by rintro tile rfl; cases hown)
  have hfrontends : ∀ hd, Function.update s.frontends handler f hd =
      if hd = handler then f else s.frontends hd :=
    fun hd => Function.update_apply ..
  refine ⟨fun hd => ?_, h.conserved, fun hd b c => ?_, h.replies, h.wanted, ?_, fun hd => ?_⟩
  · simp only [hfrontends]
    split
    · next heq =>
      subst heq
      exact Frontend.settled_step (h.settled hd) hf
    · exact h.settled hd
  · have hcount := h.jobs hd b c
    simp only [given, requests, hfrontends, times_append] at hcount ⊢
    split
    · next heq =>
      subst heq
      rw [hnew, List.drop_left, List.map_append, times_append]
      omega
    · next hne =>
      have hzero : times (hd, b, c)
          ((f.jobs.drop (s.frontends handler).jobs.length).map fun p => (handler, p.1, p.2)) = 0 := by
        refine List.count_eq_zero.mpr fun hmem => ?_
        obtain ⟨hop, hhop, hkey⟩ := List.mem_map.mp hmem
        obtain ⟨p, _, rfl⟩ := List.mem_map.mp hhop
        exact hne (congrArg Prod.fst hkey).symm
      rw [hzero]
      omega
  · intro hop hhop
    rcases List.mem_append.mp hhop with hmem | hmem
    · exact h.wantedOnWay hop hmem
    · obtain ⟨p, hp, rfl⟩ := List.mem_map.mp hmem
      rw [hnew, List.drop_left] at hp
      exact hrender p hp
  · simp only [hfrontends]
    split
    · next heq =>
      subst heq
      rw [hsame]
      exact h.returned hd
    · exact h.returned hd

/-- A job reaches its broker. -/
theorem flows_request {i : Nat} {now : Int} (h : Flows s)
    (hstep : s.step config (.request i now) = some s') : Flows s' := by
  obtain ⟨⟨handler, broker, tile⟩, hhop, hstep⟩ := Option.bind_eq_some_iff.mp hstep
  have hrest : ∀ k, times k s.toBrokers = times k (s.toBrokers.eraseIdx i) +
      times k (ofRequests broker (Broker.received [.request handler tile now])) :=
    fun k => times_eraseIdx hhop k
  refine flows_take h (fun hop hmem => (List.eraseIdx_sublist _ i).subset hmem) hrest ?_
    hstep
  intro request hrequest hid
  obtain rfl : request = (tile, handler) := List.mem_singleton.mp hrequest
  have hstatus := h.wantedOnWay _ (List.mem_of_getElem? hhop) hid
  simp only at hstatus
  simp [Broker.wantsReply, hstatus]

/-- A reply reaches its handler. -/
theorem flows_reply {i : Nat} (h : Flows s) (hstep : s.step config (.reply i) = some s') :
    Flows s' := by
  obtain ⟨⟨handler, broker, tile⟩, hhop, hstep⟩ := Option.bind_eq_some_iff.mp hstep
  obtain ⟨f, hf, rfl⟩ := Option.map_eq_some_iff.mp hstep
  have hf' : (s.frontends handler).step (config.frontend handler) (.returned tile) = some f := hf
  obtain ⟨⟨new, hnew, hrender⟩, _⟩ := Frontend.jobs_step hf'
  have hjobs : f.jobs = (s.frontends handler).jobs := by
    simp only [Frontend.step, Frontend.handleReturned] at hf'
    split at hf'
    · cases hf'
    · rw [← Option.some.inj hf']
  have hfrontends : ∀ hd, Function.update s.frontends handler f hd =
      if hd = handler then f else s.frontends hd :=
    fun hd => Function.update_apply ..
  refine ⟨fun hd => ?_, h.conserved, fun hd b c => ?_, fun hd b c => ?_, h.wanted, ?_, fun hd => ?_⟩
  · simp only [hfrontends]
    split
    · next heq =>
      subst heq
      exact Frontend.settled_step (h.settled hd) hf'
    · exact h.settled hd
  · have hcount := h.jobs hd b c
    simp only [given, requests, hfrontends, hjobs, List.drop_length, List.map_nil,
      List.append_nil] at hcount ⊢
    split
    · next heq =>
      subst heq
      rw [hjobs]
      exact hcount
    · exact hcount
  · have hcount := h.replies hd b c
    rw [times_eraseIdx hhop] at hcount
    simp only [replies, times_append] at hcount ⊢
    omega
  · simp only [hjobs, List.drop_length, List.map_nil, List.append_nil]
    exact h.wantedOnWay
  · simp only [hfrontends, List.filter_append, List.map_append]
    split
    · next heq =>
      subst heq
      rw [Frontend.returned_step hf', h.returned hd]
      congr 1
      by_cases hid : 0 ≤ tile.id
      · simp [hid]
      · simp [hid]
    · next hne =>
      have hnone : [(handler, broker, tile)].filter
          (fun hop : Hop => decide (hop.1 = hd ∧ 0 ≤ hop.2.2.id)) = [] := by
        simp [Ne.symm hne]
      rw [hnone, List.map_nil, List.append_nil]
      exact h.returned hd

/-- **The step.** -/
theorem flows_step (h : Flows s) {e : StackEvent} (hstep : s.step config e = some s') : Flows s' := by
  cases e with
  | frontend handler e =>
    rw [step] at hstep
    split at hstep
    · next hown => exact flows_turn h hown hstep
    · cases hstep
  | broker broker e =>
    rw [step] at hstep
    split at hstep
    · next hother =>
      have hnone : Broker.received [e] = [] := by
        cases e with
        | request address tile now => cases hother
        | _ => rfl
      refine flows_take h (fun _ hmem => hmem) (fun k => ?_) ?_ hstep
      · rw [hnone]
        rfl
      · rw [hnone]
        exact fun _ hmem => absurd hmem List.not_mem_nil
    · cases hstep
  | request i now => exact flows_request h hstep
  | reply i => exact flows_reply h hstep
  | loseRequest i =>
    obtain ⟨hop, hhop, rfl⟩ := Option.map_eq_some_iff.mp hstep
    refine ⟨h.settled, h.conserved, fun hd b c => ?_, h.replies, h.wanted, ?_, h.returned⟩
    · have hcount := h.jobs hd b c
      rw [times_eraseIdx hhop] at hcount
      simp only [given, requests, times_append] at hcount ⊢
      omega
    · exact fun hop hmem => h.wantedOnWay hop ((List.eraseIdx_sublist _ i).subset hmem)
  | loseReply i =>
    obtain ⟨hop, hhop, rfl⟩ := Option.map_eq_some_iff.mp hstep
    refine ⟨h.settled, h.conserved, h.jobs, fun hd b c => ?_, h.wanted, h.wantedOnWay, h.returned⟩
    have hcount := h.replies hd b c
    rw [times_eraseIdx hhop] at hcount
    simp only [replies, times_append] at hcount ⊢
    omega

theorem flows_run {events : List StackEvent} (hrun : run config events = some s) : Flows s := by
  have hstep : ∀ (past : List StackEvent) (s : Stack) (e : StackEvent) (t : Stack),
      Flows s → s.step config e = some t → Flows t :=
    fun _ _ _ _ h hs => flows_step h hs
  exact Run.run_invariant hstep events [] start s flows_start hrun

/-! ## The guarantee -/

/-- The clients of some jobs and replies between a handler and a broker. -/
def between (handler : HandlerId) (broker : BrokerId) (l : List Hop) : List Int :=
  (l.filter fun hop => decide (hop.1 = handler ∧ hop.2.1 = broker ∧ 0 ≤ hop.2.2.id)).map (·.2.2.id)

theorem count_between (handler : HandlerId) (broker : BrokerId) (l : List Hop) (client : Int) :
    (between handler broker l).count client =
      if 0 ≤ client then times (handler, broker, client) l else 0 := by
  simp only [between, times, List.count, List.countP_map, List.countP_filter]
  split
  · next hid =>
    refine List.countP_congr fun hop _ => ?_
    simp only [Function.comp_apply, key, beq_iff_eq, Bool.and_eq_true, decide_eq_true_eq,
      Prod.mk.injEq]
    constructor
    · rintro ⟨rfl, rfl, rfl, _⟩
      exact ⟨rfl, rfl, rfl⟩
    · rintro ⟨rfl, rfl, rfl⟩
      exact ⟨rfl, rfl, rfl, hid⟩
  · next hid =>
    refine List.countP_eq_zero.mpr fun hop _ => ?_
    simp only [Function.comp_apply, beq_iff_eq, Bool.and_eq_true, decide_eq_true_eq, not_and]
    rintro rfl _ _
    exact hid

/-- Of the requests of a client, a broker has replied to some, others wait, and others are cleared. -/
theorem times_requests (h : Flows s) (handler : HandlerId) (broker : BrokerId) {client : Int}
    (hid : 0 ≤ client) : times (handler, broker, client) (ofRequests broker (s.requests broker)) =
      times (handler, broker, client) (ofReplies broker (s.replies broker)) +
        times (handler, broker, client) (ofRequests broker (s.waiting broker)) +
        times (handler, broker, client) (ofRequests broker (s.cleared broker)) := by
  obtain ⟨kept, hkept, answered, hreplies, hall, hperm⟩ := h.conserved broker
  have hwanted : times (handler, broker, client) (ofRequests broker (s.requests broker)) =
      times (handler, broker, client)
        (ofRequests broker ((s.requests broker).filter Broker.wantsReply)) := by
    simp only [times, ofRequests, List.count, List.countP_map, List.countP_filter]
    refine List.countP_congr fun request hrequest => ?_
    simp only [Function.comp_apply, key, beq_iff_eq, Bool.and_eq_true, Prod.mk.injEq, iff_self_and]
    rintro ⟨_, _, rfl⟩
    exact h.wanted broker request hrequest hid
  have hanswered : (ofRequests broker (answered.map Prod.fst)).map key =
      (ofReplies broker (answered.map Prod.snd)).map key := by
    simp only [ofRequests, ofReplies, List.map_map]
    refine List.map_congr_left fun p hp => ?_
    have hanswers := hall p hp
    simp only [Function.comp_apply, key, hanswers.address, hanswers.id]
  have hplaces := hkept.trans (hperm.append_right (s.cleared broker))
  have hcount := ((hplaces.map fun (tile, address) => (address, broker, tile)).map key).count_eq
    (handler, broker, client)
  simp only [List.map_append, List.count_append] at hcount
  rw [hwanted, times, ofRequests, hcount, times, times, times, replies, hreplies, ← hanswered]
  rfl

/-- Every client of every handler is in one place. -/
structure Accounted (s : Stack) : Prop where
  /-- No client is answered twice, and none that did not ask. -/
  once : ∀ h, List.Subperm
    ((s.frontends h).answered.map (·.client) ++ (s.frontends h).returned.map (·.client))
    (s.frontends h).accepted
  /-- A job that a client waits for is on its way, waits at its broker, was cleared there, or is lost;
  or its reply is on its way, has reached its handler, or is lost. -/
  jobs : ∀ h b, (between h b (s.given h)).Perm (between h b (s.toBrokers ++
    ofRequests b (s.waiting b) ++ ofRequests b (s.cleared b) ++ s.toHandlers ++ s.delivered ++
    s.lostJobs ++ s.lostReplies))

theorem accounted_jobs (h : Flows s) (handler : HandlerId) (broker : BrokerId) :
    (between handler broker (s.given handler)).Perm (between handler broker (s.toBrokers ++
      ofRequests broker (s.waiting broker) ++ ofRequests broker (s.cleared broker) ++
      s.toHandlers ++ s.delivered ++ s.lostJobs ++ s.lostReplies)) := by
  refine List.perm_iff_count.mpr fun client => ?_
  rw [count_between, count_between]
  split
  · next hid =>
    have hjobs := h.jobs handler broker client
    have hreplies := h.replies handler broker client
    have hrequests := times_requests h handler broker hid
    simp only [times_append]
    omega
  · rfl

/-- The replies that a handler has read are to jobs that it has given. -/
theorem returned_subperm (h : Flows s) (handler : HandlerId) :
    List.Subperm ((s.frontends handler).returned.map (·.client))
      (Frontend.clients (s.frontends handler).awaited) := by
  let mine (hop : Hop) : Bool := decide (hop.1 = handler ∧ 0 ≤ hop.2.2.id)
  let pair (hop : Hop) : BrokerId × Int := (hop.2.1, hop.2.2.id)
  have hcount : ∀ (l : List Hop) (b : BrokerId) (c : Int), ((l.filter mine).map pair).count (b, c) =
      if 0 ≤ c then times (handler, b, c) l else 0 := by
    intro l b c
    rw [← count_between, between, List.count, List.countP_map, List.countP_filter, List.count,
      List.countP_map, List.countP_filter]
    refine List.countP_congr fun hop _ => ?_
    simp only [mine, pair, Function.comp_apply, beq_iff_eq, Bool.and_eq_true, decide_eq_true_eq,
      Prod.mk.injEq]
    tauto
  have hsub : List.Subperm ((s.delivered.filter mine).map pair)
      (((s.given handler).filter mine).map pair) := by
    refine List.subperm_ext_iff.mpr fun p _ => ?_
    obtain ⟨b, c⟩ := p
    rw [hcount, hcount]
    split
    · next hid =>
      have hjobs := h.jobs handler b c
      have hreplies := h.replies handler b c
      have hrequests := times_requests h handler b hid
      omega
    · exact le_refl 0
  obtain ⟨l, hperm, hsublist⟩ := hsub
  have hclients : (((s.given handler).filter mine).map pair).map Prod.snd =
      Frontend.clients (s.frontends handler).awaited := by
    simp only [given, Frontend.awaited, Frontend.forClient, Frontend.clients, List.filter_map,
      List.map_map]
    congr 1
    refine List.filter_congr fun p _ => ?_
    simp [mine]
  rw [h.returned handler, ← hclients]
  refine ⟨l.map Prod.snd, ?_, hsublist.map _⟩
  refine (hperm.map Prod.snd).trans (List.Perm.of_eq ?_)
  rw [List.map_map]
  rfl

/-- **The account of a stack.** After every run, whatever workers and monitors send and whatever is
lost, no client is answered twice; and each job that a client waits for, or its reply, is in exactly
one place. What a `CLEAR TASK QUEUE` throws away is one of the places. Runs in which a broker ends
(`SHUTDOWN`, or a result that it cannot read) are not covered, and nothing says that a job leaves a
place. -/
theorem every_client_is_answered_at_most_once (config : StackConfig) (events : List StackEvent)
    (s : Stack) (hrun : run config events = some s) : Accounted s := by
  have h := flows_run hrun
  refine ⟨fun handler => ?_, accounted_jobs h⟩
  have honce := (h.settled handler).once
  have hreturned := returned_subperm h handler
  refine List.Subperm.trans ?_ honce.symm.subperm
  refine List.subperm_ext_iff.mpr fun client _ => ?_
  have hle := hreturned.count_le client
  simp only [List.count_append] at hle ⊢
  omega

def plainStack : StackConfig := { frontend := fun _ => Frontend.plainConfig }

/-- A client waits for a job, which reaches its broker. -/
def requested : List StackEvent :=
  (Frontend.oneClient.take 5).map (.frontend "h") ++ [.request 0 0]

/-- The broker hands it out, and the worker cannot render. -/
def notRendered : List StackEvent :=
  requested ++ [.broker "b" (.getJob ["w"]),
    .broker "b" (.result ["w"] { style := "osm", status := .cmdNotDone }), .reply 0]

/-- The client of the one run is answered, and that of a run in which the queue is cleared is not: its
job is accounted for there. -/
theorem notRendered_accounted :
    (∃ s, run plainStack notRendered = some s ∧
      (s.frontends "h").returned = [⟨"u", 7, .serverError⟩] ∧ Accounted s) ∧
    ∃ s, run plainStack (requested ++ [.broker "b" .clearTaskQueue]) = some s ∧
      (s.frontends "h").returned = [] ∧ (s.cleared "b").length = 1 ∧ Accounted s :=
  ⟨⟨_, rfl, rfl, every_client_is_answered_at_most_once plainStack notRendered _ rfl⟩,
    _, rfl, rfl, rfl, every_client_is_answered_at_most_once plainStack (requested ++ [.broker "b" .clearTaskQueue]) _ rfl⟩

end Stack

end RenderMq
