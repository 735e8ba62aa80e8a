import RenderMq.Lib.Run
import RenderMq.Worker.Communicator

/-!
# The requests that brokers have not answered

Each broker answers every `GET_JOB` once, in order, after any delay. So beside the communicator an
exchange keeps the requests that are not answered yet, each with the time at which it times out; an
answer is for the oldest one to its broker.

A turn of the loop is two steps here, `poll` and `read`, which see the same clock (`round_eq`). The
clock does not go back.

A request should only go to a broker that has no other one which may still be answered in time, and a
job that comes in time should be passed on (`Orderly`). The communicator does not know which request
an answer is for. A late answer that it reads while it tries another request is taken for the answer
to that one: a late `NO JOBS`, of any broker, makes it ask again. `orderly_step` shows that nothing
else goes wrong: when no late answer is taken so (`AnswersInTime`), at most one request is live.
-/

namespace RenderMq

/-- A `GET_JOB` that has not been answered. -/
structure GetJobRequest where
  broker : BrokerId
  deadline : Int
  deriving DecidableEq

structure Exchange where
  communicator : Communicator := {}
  outstanding : List GetJobRequest := []
  clock : Int := 0
  /-- The turn has begun, and may read a message. -/
  polled : Bool := false

inductive ExchangeEvent where
  /-- A turn begins. -/
  | poll (now : Int)
  /-- The turn reads a message. -/
  | read (input : CommunicatorInput)

namespace Exchange

/-! ## The step -/

/-- The oldest request to a broker. -/
def oldest (outstanding : List GetJobRequest) (broker : BrokerId) : Option GetJobRequest :=
  outstanding.find? fun r => decide (r.broker = broker)

/-- The requests that are left when the oldest one to a broker is answered. -/
def answered (outstanding : List GetJobRequest) (broker : BrokerId) : List GetJobRequest :=
  outstanding.eraseP fun r => decide (r.broker = broker)

/-- The requests among some messages. -/
def requestsIn (deadline : Int) (outputs : List CommunicatorOutput) : List GetJobRequest :=
  outputs.filterMap fun
    | .getJob broker => some ⟨broker, deadline⟩
    | _ => none

/-- The requests left unanswered when an event happens, before it sends any. -/
def remaining (s : Exchange) : ExchangeEvent → List GetJobRequest
  | .read (.reply broker _ _) => answered s.outstanding broker
  | _ => s.outstanding

/-- The clock of an event. -/
def timeOf (s : Exchange) : ExchangeEvent → Int
  | .poll now => now
  | .read _ => s.clock

/-- What the communicator does. -/
def effect (config : CommunicatorConfig) (s : Exchange) : ExchangeEvent → Communicator.Effect
  | .poll now => s.communicator.checkTimeout config now
  | .read input => s.communicator.handle config s.clock input

/-- Time goes on, a turn reads at most one message, and a broker answers only what it was asked. -/
def enabled (s : Exchange) : ExchangeEvent → Bool
  | .poll now => decide (s.clock ≤ now)
  | .read (.reply broker _ _) => s.polled && (oldest s.outstanding broker).isSome
  | .read _ => s.polled

def step (config : CommunicatorConfig) (s : Exchange) (e : ExchangeEvent) : Option Exchange :=
  if s.enabled e then some
    { communicator := (s.effect config e).1
      outstanding := s.remaining e ++
        requestsIn (s.timeOf e + config.brokerTimeout) (s.effect config e).2
      clock := s.timeOf e
      polled := match e with
        | .poll _ => true
        | .read _ => false }
  else none

/-- The two steps of a turn do what `Communicator.round` does. -/
theorem round_eq (config : CommunicatorConfig) (s s' : Exchange) (now : Int)
    (input : CommunicatorInput) (hpoll : s.step config (.poll now) = some s') :
    s.communicator.round config now (some input) =
      ((s'.effect config (.read input)).1,
        (s.effect config (.poll now)).2 ++ (s'.effect config (.read input)).2) := by
  rw [step] at hpoll
  split at hpoll
  · obtain rfl := Option.some.inj hpoll
    rfl
  · cases hpoll

/-! ## What should hold, and when it does -/

/-- No request to a broker may still be answered in time. -/
def NoneLive (broker : BrokerId) (now : Int) (outstanding : List GetJobRequest) : Prop :=
  ∀ r ∈ outstanding, r.broker = broker → r.deadline < now

/-- One request to a broker at a time, and no job that comes in time is dropped. -/
structure Orderly (config : CommunicatorConfig) (s : Exchange) (e : ExchangeEvent) : Prop where
  oneRequest : s.enabled e = true → ∀ broker, .getJob broker ∈ (s.effect config e).2 →
    NoneLive broker (s.timeOf e) (s.remaining e)
  delivered : s.enabled e = true → ∀ broker tile, e = .read (.reply broker "JOB" (some tile)) →
    ∀ r ∈ oldest s.outstanding broker, s.clock ≤ r.deadline → .tile tile ∈ (s.effect config e).2

/-- An answer that is read while a request is tried, unless it is a `JOB` of another broker, is for a
request that has not timed out. -/
def AnswersInTime (s : Exchange) : ExchangeEvent → Prop
  | .read (.reply broker response tile) =>
    s.communicator.state = .tryingToGetJob →
      ¬ (response = "JOB" ∧ tile.isSome ∧ s.communicator.currentBroker ≠ some broker) →
      ∀ r ∈ oldest s.outstanding broker, s.clock ≤ r.deadline
  | _ => True

/-! ## The invariant -/

/-- All requests have timed out. -/
def AllDead (now : Int) (outstanding : List GetJobRequest) : Prop :=
  ∀ r ∈ outstanding, r.deadline < now

theorem AllDead.noneLive {now : Int} {outstanding : List GetJobRequest} (h : AllDead now outstanding)
    (broker : BrokerId) : NoneLive broker now outstanding :=
  fun r hr _ => h r hr

theorem AllDead.mono {now later : Int} {outstanding : List GetJobRequest}
    (h : AllDead now outstanding) (hle : now ≤ later) : AllDead later outstanding :=
  fun r hr => lt_of_lt_of_le (h r hr) hle

theorem AllDead.answered {now : Int} {outstanding : List GetJobRequest}
    (h : AllDead now outstanding) (broker : BrokerId) :
    AllDead now (answered outstanding broker) :=
  fun r hr => h r (List.mem_of_mem_eraseP hr)

/-- Only the request being tried is live: it is the last one, and its time is the retry time. -/
def OneLive (c : Communicator) (now : Int) (outstanding : List GetJobRequest) : Prop :=
  match c.state with
  | .tryingToGetJob => ∃ broker old, c.currentBroker = some broker ∧
      outstanding = old ++ [⟨broker, c.getJobRetryTime⟩] ∧ AllDead now old
  | _ => AllDead now outstanding

theorem oneLive_trying {c : Communicator} {now : Int} {outstanding : List GetJobRequest}
    (hstate : c.state = .tryingToGetJob) : OneLive c now outstanding ↔
      ∃ broker old, c.currentBroker = some broker ∧
        outstanding = old ++ [⟨broker, c.getJobRetryTime⟩] ∧ AllDead now old := by
  rw [OneLive, hstate]

theorem oneLive_other {c : Communicator} {now : Int} {outstanding : List GetJobRequest}
    (hstate : c.state ≠ .tryingToGetJob) : OneLive c now outstanding ↔ AllDead now outstanding := by
  rw [OneLive]
  split
  · next h => exact absurd h hstate
  · exact Iff.rfl

/-- An attempt made when all requests have timed out leaves one live, and sends no other. -/
theorem oneLive_tryToGetJob (config : CommunicatorConfig) (c : Communicator) {now : Int}
    {outstanding : List GetJobRequest} (dead : AllDead now outstanding) :
    OneLive (c.tryToGetJob config now).1 now
      (outstanding ++ requestsIn (now + config.brokerTimeout) (c.tryToGetJob config now).2) := by
  rcases c.tryToGetJob_cases config now with ⟨broker, hout, hstate, hcurrent, htime⟩ |
    ⟨hout, hstate, _⟩
  · rw [oneLive_trying hstate, hout, htime]
    exact ⟨broker, outstanding, hcurrent, rfl, dead⟩
  · rw [oneLive_other (by rw [hstate]; decide), hout]
    simpa [requestsIn] using dead

theorem OneLive.mono {c : Communicator} {now later : Int} {outstanding : List GetJobRequest}
    (h : OneLive c now outstanding) (hle : now ≤ later) : OneLive c later outstanding := by
  by_cases hstate : c.state = .tryingToGetJob
  · rw [oneLive_trying hstate] at h ⊢
    obtain ⟨broker, old, hcurrent, heq, dead⟩ := h
    exact ⟨broker, old, hcurrent, heq, dead.mono hle⟩
  · rw [oneLive_other hstate] at h ⊢
    exact h.mono hle

/-- An answer in time, among requests of which only the last is live, is for the last. -/
theorem oldest_live {old : List GetJobRequest} {last r : GetJobRequest} {now : Int}
    {broker : BrokerId} (dead : AllDead now old) (hr : r ∈ oldest (old ++ [last]) broker)
    (live : now ≤ r.deadline) : last.broker = broker ∧ answered (old ++ [last]) broker = old := by
  have hnone : oldest old broker = none := by
    cases hold : oldest old broker with
    | none => rfl
    | some r' =>
      rw [oldest, List.find?_append, ← oldest, hold] at hr
      obtain rfl := Option.some.inj hr
      exact absurd (dead _ (List.mem_of_find?_eq_some hold)) (not_lt_of_ge live)
  have hnot : ∀ r' ∈ old, ¬ decide (r'.broker = broker) = true := List.find?_eq_none.mp hnone
  rw [oldest, List.find?_append, ← oldest, hnone, Option.none_or] at hr
  have hlast : last.broker = broker := by
    have := List.find?_some hr
    have hmem := List.mem_of_find?_eq_some hr
    rw [List.mem_singleton.mp hmem] at this
    simpa using this
  refine ⟨hlast, ?_⟩
  rw [answered, List.eraseP_append_right _ hnot, List.eraseP_cons_of_pos (by simpa using hlast),
    List.append_nil]

/-- An answer of another broker leaves the last request. -/
theorem answered_other {old : List GetJobRequest} {last : GetJobRequest} {broker : BrokerId}
    (hne : last.broker ≠ broker) :
    answered (old ++ [last]) broker = answered old broker ++ [last] := by
  unfold answered
  by_cases hex : ∃ r ∈ old, decide (r.broker = broker) = true
  · obtain ⟨r, hr, hb⟩ := hex
    exact List.eraseP_append_left (p := fun r => decide (r.broker = broker)) hb [last] hr
  · have hnot : ∀ r ∈ old, ¬ decide (r.broker = broker) = true := fun r hr hb => hex ⟨r, hr, hb⟩
    rw [List.eraseP_append_right _ hnot, List.eraseP_of_forall_not hnot,
      List.eraseP_cons_of_neg (by simpa using hne), List.eraseP_nil]

/-! ## The step -/

variable {config : CommunicatorConfig}

/-- What a step owes: only one request is live after it, and those it sends go to brokers without a
live one. -/
def Keeps (config : CommunicatorConfig) (s : Exchange) (e : ExchangeEvent) : Prop :=
  OneLive (s.effect config e).1 (s.timeOf e)
    (s.remaining e ++ requestsIn (s.timeOf e + config.brokerTimeout) (s.effect config e).2) ∧
  ∀ broker, .getJob broker ∈ (s.effect config e).2 →
    NoneLive broker (s.timeOf e) (s.remaining e)

/-- A step that is an attempt, when all requests have timed out. -/
theorem keeps_attempt {s : Exchange} {e : ExchangeEvent} {c : Communicator}
    (heffect : s.effect config e = c.tryToGetJob config (s.timeOf e))
    (dead : AllDead (s.timeOf e) (s.remaining e)) : Keeps config s e := by
  rw [Keeps, heffect]
  exact ⟨oneLive_tryToGetJob config c dead, fun broker _ => dead.noneLive broker⟩

/-- A step that sends no request. -/
theorem keeps_silent {s : Exchange} {e : ExchangeEvent} {c : Communicator}
    {sent : List CommunicatorOutput} (heffect : s.effect config e = (c, sent))
    (hnone : ∀ broker, .getJob broker ∉ sent) (h : OneLive c (s.timeOf e) (s.remaining e)) :
    Keeps config s e := by
  have hempty : requestsIn (s.timeOf e + config.brokerTimeout) sent = [] := by
    refine List.filterMap_eq_nil_iff.mpr fun o ho => ?_
    cases o with
    | getJob broker => exact absurd ho (hnone broker)
    | _ => rfl
  rw [Keeps, heffect]
  refine ⟨?_, fun broker hmem => absurd hmem (hnone broker)⟩
  rw [hempty, List.append_nil]
  exact h

theorem keeps_poll {s : Exchange} (h : OneLive s.communicator s.clock s.outstanding) {now : Int}
    (hle : s.clock ≤ now) : Keeps config s (.poll now) := by
  rcases s.communicator.checkTimeout_cases config now with ⟨_, heq⟩ | ⟨htimeout, c', heq⟩
  · have heffect : s.effect config (.poll now) = (s.communicator, []) := heq
    exact keeps_silent heffect (by simp) (h.mono hle)
  · refine keeps_attempt heq ?_
    -- the request that was being tried has timed out as well
    simp only [Communicator.timedOut, Bool.and_eq_true, decide_eq_true_eq] at htimeout
    rw [oneLive_trying htimeout.1] at h
    obtain ⟨broker, old, _, hout, dead⟩ := h
    intro r hr
    have hr : r ∈ s.outstanding := hr
    rw [hout] at hr
    rcases List.mem_append.mp hr with hr | hr
    · exact dead.mono hle r hr
    · rw [List.mem_singleton.mp hr]
      exact htimeout.2

theorem keeps_announcement {s : Exchange} (h : OneLive s.communicator s.clock s.outstanding)
    (broker : BrokerId) (maxPriority : BitVec 32) (qsize : BitVec 64) :
    Keeps config s (.read (.announcement broker maxPriority qsize)) := by
  set c : Communicator := { s.communicator with
    brokersWithJobs := s.communicator.brokersWithJobs.insert broker
      (.announced maxPriority qsize) } with hc
  by_cases hstate : s.communicator.state = .waitingForJob
  · have heffect : s.effect config (.read (.announcement broker maxPriority qsize)) =
        c.tryToGetJob config s.clock := if_pos hstate
    refine keeps_attempt heffect ?_
    rw [oneLive_other (by rw [hstate]; decide)] at h
    exact h
  · have heffect : s.effect config (.read (.announcement broker maxPriority qsize)) = (c, []) :=
      if_neg hstate
    exact keeps_silent heffect (by simp) h

theorem keeps_worker {s : Exchange} (h : OneLive s.communicator s.clock s.outstanding)
    (result : Option TileProtocol) : Keeps config s (.read (.worker result)) := by
  cases result with
  | none =>
    by_cases hstate : s.communicator.state = .idle
    · have heffect : s.effect config (.read (.worker none)) =
          s.communicator.tryToGetJob config s.clock := if_pos hstate
      refine keeps_attempt heffect ?_
      rw [oneLive_other (by rw [hstate]; decide)] at h
      exact h
    · have heffect : s.effect config (.read (.worker none)) = (s.communicator, []) :=
        if_neg hstate
      exact keeps_silent heffect (by simp) h
  | some tile =>
    by_cases hstate : s.communicator.state = .jobProcessing
    · cases hcurrent : s.communicator.currentBroker with
      | some broker =>
        have heffect : s.effect config (.read (.worker (some tile))) =
            ({ s.communicator with currentBroker := none, state := .idle },
              [.result broker tile]) := by
          simp only [effect, Communicator.handle, Communicator.handleWorker, hstate, hcurrent,
            if_true]
        refine keeps_silent heffect (by simp) ?_
        rw [oneLive_other (by rw [hstate]; decide)] at h
        rw [oneLive_other (by simp)]
        exact h
      | none =>
        have heffect : s.effect config (.read (.worker (some tile))) = (s.communicator, []) := by
          simp only [effect, Communicator.handle, Communicator.handleWorker, hstate, hcurrent,
            if_true]
        exact keeps_silent heffect (by simp) h
    · have heffect : s.effect config (.read (.worker (some tile))) = (s.communicator, []) :=
        if_neg hstate
      exact keeps_silent heffect (by simp) h

/-- A job that is accepted is passed on. -/
theorem effect_job (config : CommunicatorConfig) {s : Exchange} {broker : BrokerId}
    (haccepts : s.communicator.accepts broker) (job : TileProtocol) :
    s.effect config (.read (.reply broker "JOB" (some job))) =
      ({ s.communicator with currentBroker := some broker, state := .jobProcessing },
        [.tile job]) := by
  simp only [effect, Communicator.handle, Communicator.handleReply, if_true]
  exact if_pos haccepts

/-- A job that is not accepted is dropped. -/
theorem effect_job_refused (config : CommunicatorConfig) {s : Exchange} {broker : BrokerId}
    (hrefuses : ¬ s.communicator.accepts broker) (job : TileProtocol) :
    s.effect config (.read (.reply broker "JOB" (some job))) = (s.communicator, []) := by
  simp only [effect, Communicator.handle, Communicator.handleReply, if_true]
  exact if_neg hrefuses

section Reply

variable {s : Exchange} {broker : BrokerId} {response : String} {tile : Option TileProtocol}

/-- Any other answer ends the request that is being tried, and then another broker is. -/
theorem effect_noJob (config : CommunicatorConfig) (hjob : ¬ (response = "JOB" ∧ tile.isSome)) :
    s.effect config (.read (.reply broker response tile)) =
      if s.communicator.state = .tryingToGetJob then
        (s.communicator.dropBroker broker).tryToGetJob config s.clock
      else (s.communicator.dropBroker broker, []) := by
  have hnone : (if response = "JOB" then tile else none) = none := by
    split
    · next hresponse =>
      exact Option.not_isSome_iff_eq_none.mp fun htile => hjob ⟨hresponse, htile⟩
    · rfl
  simp only [effect, Communicator.handle, Communicator.handleReply, hnone]

/-- While a request is being tried, an answer that is in time is the answer to it, and leaves none live. -/
theorem answered_dead (h : OneLive s.communicator s.clock s.outstanding)
    (asked : (oldest s.outstanding broker).isSome)
    (inTime : AnswersInTime s (.read (.reply broker response tile)))
    (hstate : s.communicator.state = .tryingToGetJob)
    (hown : ¬ (response = "JOB" ∧ tile.isSome ∧ s.communicator.currentBroker ≠ some broker)) :
    AllDead s.clock (answered s.outstanding broker) := by
  obtain ⟨r, hr⟩ := Option.isSome_iff_exists.mp asked
  rw [oneLive_trying hstate] at h
  obtain ⟨b, old, _, hout, dead⟩ := h
  have hlive := inTime hstate hown r hr
  rw [hout] at hr ⊢
  rw [(oldest_live dead hr hlive).2]
  exact dead

/-- Reading an answer, when no late answer is taken for one in time. -/
theorem keeps_reply (h : OneLive s.communicator s.clock s.outstanding)
    (asked : (oldest s.outstanding broker).isSome)
    (inTime : AnswersInTime s (.read (.reply broker response tile))) :
    Keeps config s (.read (.reply broker response tile)) := by
  by_cases hjob : response = "JOB" ∧ tile.isSome
  · obtain ⟨rfl, htile⟩ := hjob
    obtain ⟨job, rfl⟩ := Option.isSome_iff_exists.mp htile
    by_cases haccepts : s.communicator.accepts broker
    · refine keeps_silent (effect_job config haccepts job) (by simp) ?_
      rw [oneLive_other (by simp)]
      exact answered_dead h asked inTime haccepts.1 (by simp [haccepts.2])
    · refine keeps_silent (effect_job_refused config haccepts job) (by simp) ?_
      by_cases hstate : s.communicator.state = .tryingToGetJob
      · rw [oneLive_trying hstate] at h ⊢
        obtain ⟨b, old, hcurrent, hout, dead⟩ := h
        have hne : b ≠ broker := fun heq => haccepts ⟨hstate, by rw [hcurrent, heq]⟩
        refine ⟨b, answered old broker, hcurrent, ?_, dead.answered broker⟩
        exact (congrArg (answered · broker) hout).trans (answered_other hne)
      · rw [oneLive_other hstate] at h ⊢
        exact h.answered broker
  · have heffect : s.effect config (.read (.reply broker response tile)) = _ :=
      effect_noJob config hjob
    by_cases hstate : s.communicator.state = .tryingToGetJob
    · rw [if_pos hstate] at heffect
      refine keeps_attempt heffect ?_
      exact answered_dead h asked inTime hstate fun hown => hjob ⟨hown.1, hown.2.1⟩
    · rw [if_neg hstate] at heffect
      refine keeps_silent heffect (by simp) ?_
      have hstate' : (s.communicator.dropBroker broker).state ≠ .tryingToGetJob := hstate
      rw [oneLive_other hstate] at h
      rw [oneLive_other hstate']
      exact h.answered broker

end Reply

/-- **The step.** -/
theorem keeps_step {s : Exchange} (h : OneLive s.communicator s.clock s.outstanding)
    {e : ExchangeEvent} (henabled : s.enabled e = true) (inTime : AnswersInTime s e) :
    Keeps config s e := by
  cases e with
  | poll now => exact keeps_poll h (by simpa [enabled] using henabled)
  | read input =>
    cases input with
    | reply broker response tile =>
      refine keeps_reply h ?_ inTime
      simp only [enabled, Bool.and_eq_true] at henabled
      exact henabled.2
    | announcement broker maxPriority qsize => exact keeps_announcement h broker maxPriority qsize
    | worker result => exact keeps_worker h result

/-- A job that answers a live request is of the broker that is being tried. -/
theorem accepts_of_live {s : Exchange} (h : OneLive s.communicator s.clock s.outstanding)
    {broker : BrokerId} {r : GetJobRequest} (hr : r ∈ oldest s.outstanding broker)
    (live : s.clock ≤ r.deadline) : s.communicator.accepts broker := by
  have hmem : r ∈ s.outstanding := List.mem_of_find?_eq_some hr
  by_cases hstate : s.communicator.state = .tryingToGetJob
  · rw [oneLive_trying hstate] at h
    obtain ⟨b, old, hcurrent, hout, dead⟩ := h
    rw [hout] at hr
    refine ⟨hstate, hcurrent.trans (congrArg some ?_)⟩
    exact (oldest_live dead hr live).1
  · rw [oneLive_other hstate] at h
    exact absurd (h r hmem) (not_lt_of_ge live)

theorem orderly_step {s : Exchange} (h : OneLive s.communicator s.clock s.outstanding)
    {e : ExchangeEvent} (inTime : AnswersInTime s e) : Orderly config s e where
  oneRequest henabled := (keeps_step h henabled inTime).2
  delivered henabled broker tile heq r hr live := by
    subst heq
    rw [effect_job config (accepts_of_live h hr live)]
    exact List.mem_cons_self

theorem oneLive_step {s s' : Exchange} (h : OneLive s.communicator s.clock s.outstanding)
    {e : ExchangeEvent} (inTime : AnswersInTime s e) (hstep : s.step config e = some s') :
    OneLive s'.communicator s'.clock s'.outstanding := by
  unfold step at hstep
  split at hstep
  · next henabled =>
    obtain rfl := Option.some.inj hstep
    exact (keeps_step h henabled inTime).1
  · cases hstep

/-! ## The run -/

/-- **The run.** When no late answer is taken for the answer to the request being tried, a run of the
communicator never has two live requests to a broker, and passes on every job that comes in time.

An answer belongs to the oldest request that its broker has not answered yet. The condition is shown to
be enough; a run in which a late answer is taken so may still go well. -/
theorem exchange_is_orderly (config : CommunicatorConfig) (events : List ExchangeEvent)
    (inTime : Run.EveryStep (step config) AnswersInTime {} events) :
    Run.EveryStep (step config) (Orderly config) {} events := by
  have implied : ∀ (s : Exchange) (e : ExchangeEvent),
      OneLive s.communicator s.clock s.outstanding → AnswersInTime s e → Orderly config s e :=
    fun _ _ h => orderly_step h
  have preserved : ∀ (s : Exchange) (e : ExchangeEvent) (t : Exchange),
      OneLive s.communicator s.clock s.outstanding → AnswersInTime s e → s.step config e = some t →
      OneLive t.communicator t.clock t.outstanding :=
    fun _ _ _ h => oneLive_step h
  exact Run.everyStep_of_invariant implied preserved events {} (by simp [OneLive, AllDead]) inTime

def entriesInOrder : CommunicatorConfig := { iteration := .inOrder }

/-- Two brokers announce jobs, the better one is asked, and does not answer in time; then the other is
asked. -/
def secondAsked : List ExchangeEvent :=
  [.poll 0, .read (.announcement "a" 150 1), .poll 0, .read (.announcement "b" 100 1), .poll 1,
    .read (.worker none), .poll 30002]

/-- Now the first broker's `NO JOBS` arrives, and the other broker is asked again, while it may still
answer in time. -/
theorem late_noJobs_asks_again :
    ¬ Run.EveryStep (step entriesInOrder) (Orderly entriesInOrder) {}
      (secondAsked ++ [.poll 30003, .read (.reply "a" "NO JOBS" none)]) := by
  intro hevery
  have horderly := (Run.EveryStep.at_event (secondAsked ++ [ExchangeEvent.poll 30003]) hevery rfl).oneRequest
    rfl
  have hnone := horderly "b" (by decide) ⟨"b", 60002⟩ (by decide) rfl
  exact absurd hnone (by decide)

/-- A broker announces a job, is asked, and answers in time. -/
theorem answer_in_time_is_orderly :
    Run.EveryStep (step entriesInOrder) (Orderly entriesInOrder) {}
      [.poll 0, .read (.announcement "a" 150 1), .poll 1, .read (.worker none), .poll 2,
        .read (.reply "a" "JOB" (some {}))] := by
  refine exchange_is_orderly entriesInOrder _ ⟨trivial, fun s₁ h₁ => ⟨trivial, fun s₂ h₂ => ?_⟩⟩
  refine ⟨trivial, fun s₃ h₃ => ⟨trivial, fun s₄ h₄ => ⟨trivial, fun s₅ h₅ => ⟨?_, ?_⟩⟩⟩⟩
  · obtain rfl := Option.some.inj h₁
    obtain rfl := Option.some.inj h₂
    obtain rfl := Option.some.inj h₃
    obtain rfl := Option.some.inj h₄
    obtain rfl := Option.some.inj h₅
    intro _ _ r hr
    obtain rfl := Option.some.inj hr
    decide
  · exact fun _ _ => trivial

end Exchange

end RenderMq
