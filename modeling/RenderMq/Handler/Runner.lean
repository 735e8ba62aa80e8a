import RenderMq.Lib.Run
import RenderMq.Tile.Protocol

/-!
# The handlers of a runner

A `runner` sends jobs, and keeps a handler for the reply to a job that was put with one. Jobs are the
same by all but their status, their times and their data (`JobKey`).

What the runner should do is said by what has happened: a put that was sent registers its handler, a
reply goes to the handler that was registered last and uses it up (`registered`, `routes`). The code
registers before it sends, does not replace a handler, and takes a handler away after it has
returned. `handlers_routed` says when that comes to the same.
-/

namespace RenderMq

/-! ## Jobs -/

/-- What `operator==` compares of a job. -/
structure JobKey where
  x : Int
  y : Int
  z : Int
  id : Int
  style : String
  format : ProtoFmt
  deriving DecidableEq, Repr

def TileProtocol.key (job : TileProtocol) : JobKey :=
  ⟨job.x, job.y, job.z, job.id, job.style, job.format⟩

/-- What `hash_value` combines of a job. -/
def TileProtocol.hashed (job : TileProtocol) : String × Int × Int × Int :=
  (job.style, job.z, metaFloor job.x, metaFloor job.y)

/-- A job is found where an equal one was put. -/
theorem TileProtocol.hashed_eq {job other : TileProtocol} (h : job.key = other.key) :
    job.hashed = other.hashed := by
  obtain ⟨hx, hy, hz, _, hstyle, _⟩ := JobKey.mk.inj h
  rw [hashed, hashed, hx, hy, hz, hstyle]

namespace Runner

variable {H : Type*}

/-- A call of `put_job`, and whether the job could be sent. -/
structure Put (H : Type*) where
  job : TileProtocol
  handler : H
  sent : Bool

/-- What a handler does when it is called: the jobs that it puts, and whether it throws then. -/
structure Call (H : Type*) where
  puts : List (Put H) := []
  throws : Bool := false

/-- A handler that was called, for a reply; the default handler if none. -/
abbrev Dispatch (H : Type*) := TileProtocol × Option H

/-- `message_handlers`, and the calls that were made. -/
structure State (H : Type*) where
  messageHandlers : JobKey → Option H := fun _ => none
  dispatched : List (Dispatch H) := []

/-- `put_job`: the handler is registered, unless the job has one, and then the job is sent. -/
def putJob (s : State H) (put : Put H) : State H × Bool :=
  let inserted := match s.messageHandlers put.job.key with
    | some _ => s.messageHandlers
    | none => Function.update s.messageHandlers put.job.key (some put.handler)
  ({ s with messageHandlers := inserted }, put.sent)

/-- Call a handler. -/
def callHandler (s : State H) (job : TileProtocol) (handler : Option H) (call : Call H) : State H :=
  call.puts.foldl (fun s put => (putJob s put).1)
    { s with dispatched := s.dispatched ++ [(job, handler)] }

/-- `message_handlers.erase`. -/
def erase (s : State H) (key : JobKey) : State H :=
  { s with messageHandlers := Function.update s.messageHandlers key none }

/-- `handle_jobs`: the state at the end, or when a handler throws. -/
def handleJobs (s : State H) : List (TileProtocol × Call H) → State H
  | [] => s
  | (job, call) :: jobs =>
    match s.messageHandlers job.key with
    | some handler =>
      let called := callHandler s job (some handler) call
      -- the scope exit that erases the handler is entered after the call
      if call.throws then called else handleJobs (erase called job.key) jobs
    | none =>
      let called := callHandler s job none call
      if call.throws then called else handleJobs called jobs

inductive Event (H : Type*) where
  | put (put : Put H)
  | replies (jobs : List (TileProtocol × Call H))

def step (s : State H) : Event H → Option (State H)
  | .put put => some (putJob s put).1
  | .replies jobs => some (handleJobs s jobs)

/-! ## What should happen -/

/-- One thing that happens to a runner. -/
inductive Happening (H : Type*) where
  | put (put : Put H)
  | reply (job : TileProtocol)

/-- What an event comes to. A handler's puts come after the reply that it is called for. -/
def Event.happenings : Event H → List (Happening H)
  | .put p => [.put p]
  | .replies jobs => jobs.flatMap fun reply => .reply reply.1 :: reply.2.puts.map .put

/-- What a happening says of the handler for a job. -/
def tells (key : JobKey) : Happening H → Option (Option H)
  | .put put => if put.sent = true ∧ put.job.key = key then some (some put.handler) else none
  | .reply job => if job.key = key then some none else none

/-- The handler of the latest put of a job that was sent, if no reply has used it up. -/
def registered (past : List (Happening H)) (key : JobKey) : Option H :=
  (Run.last (tells key) past).join

/-- Where the replies should go. -/
def routes (past : List (Happening H)) : List (Happening H) → List (Dispatch H)
  | [] => []
  | .put put :: rest => routes (past ++ [.put put]) rest
  | .reply job :: rest => (job, registered past job.key) :: routes (past ++ [.reply job]) rest

/-- A job gets a handler, instead of the one that it has. -/
def register (s : State H) (put : Put H) : State H :=
  { s with messageHandlers := Function.update s.messageHandlers put.job.key (some put.handler) }

/-- One happening to a runner that does what it should. -/
def happen (s : State H) : Happening H → State H
  | .put put => if put.sent then register s put else s
  | .reply job => erase { s with dispatched := s.dispatched ++ [(job, s.messageHandlers job.key)] } job.key

theorem happen_sent (s : State H) {put : Put H} (hsent : put.sent = true) :
    happen s (.put put) = register s put := by
  rw [happen, if_pos hsent]

theorem happen_unsent (s : State H) {put : Put H} (hsent : ¬put.sent = true) :
    happen s (.put put) = s := by
  rw [happen, if_neg hsent]

/-- What a happening says of a job is what its handler is then. -/
theorem happen_messageHandlers (s : State H) (h : Happening H) (key : JobKey) :
    (happen s h).messageHandlers key = (tells key h).getD (s.messageHandlers key) := by
  cases h with
  | put put =>
    rw [happen, tells]
    by_cases hsent : put.sent = true
    · rw [if_pos hsent]
      by_cases hkey : put.job.key = key
      · rw [if_pos ⟨hsent, hkey⟩, ← hkey]
        exact Function.update_self ..
      · rw [if_neg fun h => hkey h.2]
        exact Function.update_of_ne (Ne.symm hkey) ..
    · rw [if_neg hsent, if_neg fun h => hsent h.1]
      rfl
  | reply job =>
    rw [happen, tells]
    by_cases hkey : job.key = key
    · rw [if_pos hkey, ← hkey]
      exact Function.update_self ..
    · rw [if_neg hkey]
      exact Function.update_of_ne (Ne.symm hkey) ..

theorem registered_append (past : List (Happening H)) (h : Happening H) (key : JobKey) :
    registered (past ++ [h]) key = (tells key h).getD (registered past key) := by
  rw [registered, Run.last_append, registered]
  cases tells key h <;> rfl

/-- A runner that does what it should, by what has happened. -/
theorem foldl_happen (hs : List (Happening H)) : ∀ (past : List (Happening H)) (s : State H),
    s.messageHandlers = registered past →
      (hs.foldl happen s).messageHandlers = registered (past ++ hs) ∧
        (hs.foldl happen s).dispatched = s.dispatched ++ routes past hs := by
  induction hs with
  | nil =>
    intro past s hpast
    rw [List.append_nil]
    exact ⟨hpast, (List.append_nil _).symm⟩
  | cons h hs ih =>
    intro past s hpast
    have hnext : (happen s h).messageHandlers = registered (past ++ [h]) := by
      funext key
      rw [happen_messageHandlers, registered_append, hpast]
    obtain ⟨hhandlers, hdispatched⟩ := ih (past ++ [h]) (happen s h) hnext
    rw [List.foldl_cons, List.append_cons]
    refine ⟨hhandlers, hdispatched.trans ?_⟩
    cases h with
    | put put =>
      have hsame : (happen s (.put put)).dispatched = s.dispatched := by
        by_cases hsent : put.sent = true
        · rw [happen_sent s hsent]
          rfl
        · rw [happen_unsent s hsent]
      rw [hsame]
      rfl
    | reply job =>
      have hlogged : (happen s (.reply job)).dispatched =
          s.dispatched ++ [(job, s.messageHandlers job.key)] := rfl
      rw [hlogged, hpast, List.append_assoc]
      rfl

/-! ## What does happen -/

/-- A put changes the handlers as it should: it is sent and the job has no other handler, or it is
not sent and the job has one already. -/
def PutKept (s : State H) (put : Put H) : Prop :=
  if put.sent then ∀ handler, s.messageHandlers put.job.key = some handler → handler = put.handler
  else s.messageHandlers put.job.key ≠ none

theorem putJob_of_some {s : State H} {put : Put H} {handler : H}
    (hfound : s.messageHandlers put.job.key = some handler) : (putJob s put).1 = s := by
  rw [putJob, hfound]

theorem putJob_of_none {s : State H} {put : Put H}
    (hfound : s.messageHandlers put.job.key = none) : (putJob s put).1 = register s put := by
  rw [putJob, hfound, register]

theorem register_key (s : State H) (put : Put H) :
    (register s put).messageHandlers put.job.key = some put.handler := Function.update_self ..

theorem putJob_eq_iff (s : State H) (put : Put H) :
    (putJob s put).1 = happen s (.put put) ↔ PutKept s put := by
  unfold PutKept
  cases hfound : s.messageHandlers put.job.key with
  | none =>
    rw [putJob_of_none hfound]
    by_cases hsent : put.sent = true
    · rw [if_pos hsent, happen_sent s hsent]
      refine iff_of_true rfl fun _ h => ?_
      cases h
    · rw [if_neg hsent, happen_unsent s hsent]
      refine iff_of_false (fun heq => ?_) (fun h => h rfl)
      have hkey := register_key s put
      rw [heq, hfound] at hkey
      cases hkey
  | some handler =>
    rw [putJob_of_some hfound]
    by_cases hsent : put.sent = true
    · rw [if_pos hsent, happen_sent s hsent]
      constructor
      · intro heq other hother
        have hkey := register_key s put
        rw [← heq, hfound, hother] at hkey
        exact Option.some.inj hkey
      · intro hsame
        rw [register, ← hsame handler rfl, ← hfound, Function.update_eq_self]
    · rw [if_neg hsent, happen_unsent s hsent]
      exact iff_of_true rfl (Option.some_ne_none handler)

/-- The puts of a handler that is called change the handlers as they should. The job that it is
called for is still registered then, and is not put. -/
def PutsKept (during : Option JobKey) : State H → List (Put H) → Prop
  | _, [] => True
  | s, put :: puts =>
    (if during = some put.job.key then put.sent = false else PutKept s put) ∧
      PutsKept during (putJob s put).1 puts

/-- The replies of a batch go as they should: a handler that is called does not throw, unless it is
the default handler and the reply is the last. -/
def RepliesKept (s : State H) : List (TileProtocol × Call H) → Prop
  | [] => True
  | (job, call) :: jobs =>
    let handler := s.messageHandlers job.key
    (call.throws = true → handler = none ∧ jobs = []) ∧
      PutsKept (handler.map fun _ => job.key) { s with dispatched := s.dispatched ++ [(job, handler)] }
        call.puts ∧
      RepliesKept (call.puts.foldl (fun s put => happen s (.put put)) (happen s (.reply job))) jobs

def Kept (s : State H) : Event H → Prop
  | .put put => PutKept s put
  | .replies jobs => RepliesKept s jobs

theorem puts_of_default {puts : List (Put H)} : ∀ {s : State H}, PutsKept none s puts →
    puts.foldl (fun s put => (putJob s put).1) s = puts.foldl (fun s put => happen s (.put put)) s := by
  induction puts with
  | nil => exact fun _ => rfl
  | cons put puts ih =>
    intro s hkept
    rw [List.foldl_cons, List.foldl_cons, ih hkept.2, (putJob_eq_iff s put).mpr hkept.1]

/-- A put leaves the other jobs' handlers alone, and so goes with taking one away. -/
theorem erase_putJob {s : State H} {key : JobKey} {handler : H} {put : Put H}
    (hkey : s.messageHandlers key = some handler)
    (hkept : if some key = some put.job.key then put.sent = false else PutKept s put) :
    erase (putJob s put).1 key = happen (erase s key) (.put put) ∧
      (putJob s put).1.messageHandlers key = some handler := by
  by_cases hsame : key = put.job.key
  · subst hsame
    rw [if_pos rfl] at hkept
    rw [putJob_of_some hkey, happen_unsent _ (by simp [hkept])]
    exact ⟨rfl, hkey⟩
  · rw [if_neg fun h => hsame (Option.some.inj h)] at hkept
    rw [(putJob_eq_iff s put).mpr hkept]
    by_cases hsent : put.sent = true
    · rw [happen_sent s hsent, happen_sent _ hsent]
      refine ⟨?_, (Function.update_of_ne hsame ..).trans hkey⟩
      exact congrArg (State.mk · s.dispatched) (Function.update_comm (Ne.symm hsame) ..)
    · rw [happen_unsent s hsent, happen_unsent _ hsent]
      exact ⟨rfl, hkey⟩

theorem puts_of_handler {key : JobKey} {handler : H} {puts : List (Put H)} : ∀ {s : State H},
    s.messageHandlers key = some handler → PutsKept (some key) s puts →
      erase (puts.foldl (fun s put => (putJob s put).1) s) key =
        puts.foldl (fun s put => happen s (.put put)) (erase s key) := by
  induction puts with
  | nil => exact fun _ _ => rfl
  | cons put puts ih =>
    intro s hkey hkept
    obtain ⟨herase, hstill⟩ := erase_putJob hkey hkept.1
    rw [List.foldl_cons, List.foldl_cons, ih hstill hkept.2, herase]

theorem handleJobs_eq {jobs : List (TileProtocol × Call H)} : ∀ {s : State H}, RepliesKept s jobs →
    handleJobs s jobs = (Event.replies jobs).happenings.foldl happen s := by
  induction jobs with
  | nil => exact fun _ => rfl
  | cons reply jobs ih =>
    intro s hkept
    obtain ⟨job, call⟩ := reply
    obtain ⟨hthrows, hputs, hrest⟩ := hkept
    have hhappens : (Event.replies ((job, call) :: jobs)).happenings.foldl happen s =
        (Event.replies jobs).happenings.foldl happen
          (call.puts.foldl (fun s put => happen s (.put put)) (happen s (.reply job))) := by
      simp only [Event.happenings, List.flatMap_cons, List.cons_append, List.foldl_cons,
        List.foldl_append, List.foldl_map]
    rw [hhappens, ← ih hrest, handleJobs]
    cases hfound : s.messageHandlers job.key with
    | some handler =>
      have hquiet : call.throws = false := by
        cases hthrow : call.throws with
        | false => rfl
        | true => exact absurd (hfound.symm.trans (hthrows hthrow).1) (Option.some_ne_none _)
      rw [hfound] at hputs
      have hcalled := puts_of_handler (s := { s with dispatched := s.dispatched ++ [(job, some handler)] })
        hfound hputs
      simp only [hquiet, Bool.false_eq_true, if_false]
      rw [callHandler, hcalled, happen, hfound]
    | none =>
      rw [hfound] at hputs
      have hcalled := puts_of_default hputs
      have herase : happen s (.reply job) = { s with dispatched := s.dispatched ++ [(job, none)] } := by
        rw [happen, hfound, erase, ← hfound, Function.update_eq_self]
      simp only [callHandler, hcalled, herase]
      split
      · next hthrow =>
        rw [(hthrows hthrow).2]
        rfl
      · rfl

theorem step_eq {s : State H} {e : Event H} (hkept : Kept s e) :
    step s e = some (e.happenings.foldl happen s) := by
  cases e with
  | put put => exact congrArg some ((putJob_eq_iff s put).mpr hkept)
  | replies jobs => exact congrArg some (handleJobs_eq hkept)

/-- **The handlers are routed.** In a run whose puts and calls all go as they should, each job has the
handler of the latest put that was sent and has not been used up, and each reply has gone to it.

Jobs and replies come in any order, and handlers may put jobs of their own. What is asked of the run is
stated for each step (`Kept`), and only that it is enough is established. That a reply comes for each
job is not part of this. -/
theorem handlers_routed (events : List (Event H)) (hkept : Run.EveryStep step Kept {} events) :
    ∃ s, Run.run step {} events = some s ∧
      s.messageHandlers = registered (events.flatMap Event.happenings) ∧
      s.dispatched = routes [] (events.flatMap Event.happenings) := by
  have hrun : Run.run step {} events =
      some ((events.flatMap Event.happenings).foldl happen ({} : State H)) := by
    refine (Run.run_congr_of_everyStep (fun s e => step_eq) events {} hkept).trans ?_
    rw [List.foldl_flatMap]
    exact List.foldlM_pure ..
  obtain ⟨hhandlers, hdispatched⟩ :=
    foldl_happen (events.flatMap Event.happenings) [] ({} : State H) rfl
  exact ⟨_, hrun, hhandlers, hdispatched⟩

theorem handlers_routed_once : ∃ s : State Nat,
    Run.run step {} [.put ⟨{}, 1, true⟩, .replies [({}, {}), ({}, {})]] = some s ∧
      s.messageHandlers = registered [.put ⟨{}, 1, true⟩, .reply {}, .reply {}] ∧
      s.dispatched = [({}, some 1), ({}, none)] := by
  refine handlers_routed [.put ⟨{}, 1, true⟩, .replies [({}, {}), ({}, {})]] ?_
  refine Run.everyStep_cons rfl ?_ (Run.everyStep_cons rfl ?_ trivial)
  · intro handler hhandler
    cases hhandler
  · have hquiet {p : Prop} : false = true → p := fun h => absurd h Bool.false_ne_true
    exact ⟨hquiet, trivial, hquiet, trivial, trivial⟩

/-- A put that throws leaves its handler behind, and the reply to an equal job goes to it. -/
theorem unsent_put_registers :
    ¬ ∀ (events : List (Event Nat)) (s : State Nat), Run.run step {} events = some s →
      s.messageHandlers = registered (events.flatMap Event.happenings) ∧
        s.dispatched = routes [] (events.flatMap Event.happenings) := by
  intro h
  have hrouted := (h [.put ⟨{}, 1, false⟩, .replies [({}, {})]] _ rfl).2
  exact absurd hrouted (by decide)

end Runner

end RenderMq
