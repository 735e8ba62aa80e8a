import RenderMq.Broker.Conservation
import RenderMq.Queue.Resubmit

/-!
# The zombie timer

A broker with a clock: each event comes some time after the one before it. Beside the broker a run
remembers of each task in the queue to whom it was last handed out, and when (`handedOut`).

A task is to go to another worker only when the one that has it has had it for `zombie_time`
(`HandsOutInTime`). But the timestamp that `resubmit_older_than` goes by is set when a task is made
and when it is resubmitted, not when it is handed out: a task that has waited in the queue long
enough is a zombie the moment a worker takes it.

**What is proved.** A run hands out in time if none of its resubmissions resets a task that was
handed out less than `zombie_time` ago (`zombieTimer_run`). After one that does, workers that keep
asking are handed the task too early (`earlyReset_breaks`).
-/

namespace RenderMq

open TaskQueue

/-- An event, and how long after the one before it. -/
structure TimedEvent where
  elapsed : Nat
  event : BrokerEvent

/-- What the broker receives at a time. -/
def BrokerEvent.atClock (now : Int) : BrokerEvent → BrokerEvent
  | .request clientAddress tile _ => .request clientAddress tile now
  | .resubmitZombieTasks _ => .resubmitZombieTasks now
  | e => e

/-- A broker with the clock, and to whom each task in its queue was last handed out. -/
structure TimedBroker where
  broker : Broker
  clock : Int
  handedOut : TaskKey → Option (List String × Int)

/-- The worker that is handed a task. -/
def Broker.jobFor (b : Broker) (k : TaskKey) : BrokerEvent → Option (List String)
  | .getJob workerAddresses =>
    if b.queue.front.map Task.key = some k then some workerAddresses else none
  | _ => none

/-- A worker is handed a task when it is sent the `JOB`. -/
theorem Broker.jobFor_getJob_iff {b : Broker} {k : TaskKey} {workerAddresses addresses : List String} :
    b.jobFor k (.getJob workerAddresses) = some addresses ↔
      workerAddresses = addresses ∧ ∃ proto : TileProtocol, proto.taskKey = k ∧
        (b.giveJob workerAddresses).sent = b.sent ++ [.job workerAddresses proto] := by
  unfold Broker.jobFor Broker.giveJob
  cases hfront : b.queue.front with
  | none => simp
  | some t =>
    simp only [Option.map_some, Option.some.injEq, List.append_cancel_left_eq, List.cons.injEq,
      BrokerMessage.job.injEq, true_and, and_true]
    constructor
    · intro hjob
      split at hjob
      · next hk => exact ⟨Option.some.inj hjob, t.toTileProtocol, hk, rfl⟩
      · cases hjob
    · rintro ⟨rfl, proto, hk, rfl⟩
      rw [if_pos (show t.key = k from hk)]

/-- Who is handed what does not depend on the clock. -/
theorem Broker.jobFor_atClock (b : Broker) (k : TaskKey) (e : BrokerEvent) (now : Int) :
    b.jobFor k (e.atClock now) = b.jobFor k e := by
  cases e <;> rfl

namespace TimedBroker

def start (clock : Int) : TimedBroker := ⟨Broker.start, clock, fun _ => none⟩

/-- The time of an event. -/
def time (s : TimedBroker) (e : TimedEvent) : Int := s.clock + e.elapsed

def step (config : BrokerConfig) (s : TimedBroker) (e : TimedEvent) : Option TimedBroker :=
  (s.broker.step config (e.event.atClock (s.time e))).map fun b =>
    { broker := b
      clock := s.time e
      handedOut := fun k => (b.queue.find k).bind fun _ =>
        ((s.broker.jobFor k e.event).map fun addresses => (addresses, s.time e)).or (s.handedOut k) }

/-- A step hands a task to another worker only when the one that has it has had it long enough. -/
def HandsOutInTime (config : BrokerConfig) (s : TimedBroker) (e : TimedEvent) : Prop :=
  ∀ k worker last addresses, s.handedOut k = some (worker, last) →
    s.broker.jobFor k e.event = some addresses → addresses ≠ worker →
      config.zombieTime.toNat ≤ s.time e - last

/-- A step does not reset a task that a worker has not had long enough. -/
def NoEarlyReset (config : BrokerConfig) (s : TimedBroker) (e : TimedEvent) : Prop :=
  match e.event with
  | .resubmitZombieTasks _ =>
    ∀ k worker last t, s.handedOut k = some (worker, last) → s.broker.queue.find k = some t →
      Resets s.broker.queue config.zombieTime.toInt (s.time e) t →
        config.zombieTime.toNat ≤ s.time e - last
  | _ => True

theorem NoEarlyReset.of_resubmit {config : BrokerConfig} {s : TimedBroker} {e : TimedEvent}
    (h : NoEarlyReset config s e) {now : Int}
    (hevent : e.event.atClock (s.time e) = .resubmitZombieTasks now) {k : TaskKey}
    {worker : List String} {last : Int} (hlast : s.handedOut k = some (worker, last)) {t : Task}
    (ht : s.broker.queue.find k = some t)
    (hresets : Resets s.broker.queue config.zombieTime.toInt now t) :
    config.zombieTime.toNat ≤ s.time e - last := by
  obtain ⟨elapsed, event⟩ := e
  cases event with
  | resubmitZombieTasks _ =>
    obtain rfl := BrokerEvent.resubmitZombieTasks.inj hevent
    exact h k worker last t hlast ht hresets
  | _ => cases hevent

/-! ## A task that is being processed -/

/-- A step that keeps a task that is being processed keeps it so, unless it resets it. -/
theorem processed_step {config : BrokerConfig} {b b' : Broker} {e : BrokerEvent}
    (hstep : b.step config e = some b') {k : TaskKey} {t t' : Task} (ht : b.queue.find k = some t)
    (ht' : b'.queue.find k = some t') (hprocessed : t.processed = true) :
    t'.processed = true ∨ ∃ now, e = .resubmitZombieTasks now ∧
      Resets b.queue config.zombieTime.toInt now t := by
  rcases Broker.queue_of_step hstep with hsame | ⟨op, hop, hresubmit⟩
  · rw [hsame, ht] at ht'
    rw [← Option.some.inj ht']
    exact .inl hprocessed
  · rw [hop] at ht'
    rcases processed_apply ht ht' hprocessed with hstill | ⟨timeout, now, heq, hresets⟩
    · exact .inl hstill
    · obtain ⟨hevent, rfl⟩ := hresubmit timeout now heq
      exact .inr ⟨now, hevent, hresets⟩

/-- A task that is handed out is being processed after it. -/
theorem processed_of_jobFor {config : BrokerConfig} {b b' : Broker} {e : BrokerEvent}
    (hstep : b.step config e = some b') {k : TaskKey} {addresses : List String}
    (hjob : b.jobFor k e = some addresses) {t' : Task} (ht' : b'.queue.find k = some t') :
    t'.processed = true := by
  cases e with
  | getJob workerAddresses =>
    obtain rfl := Option.some.inj hstep
    simp only [Broker.jobFor] at hjob
    split at hjob
    · next hfront =>
      obtain ⟨t, ht, hkey⟩ := Option.map_eq_some_iff.mp hfront
      rw [Broker.giveJob, ht] at ht'
      simp only [find_setProcessed] at ht'
      rw [if_pos (show k = t.taskKey from hkey.symm)] at ht'
      obtain ⟨u, _, rfl⟩ := Option.map_eq_some_iff.mp ht'
      rfl
    · cases hjob
  | _ => cases hjob

/-- A task that is handed out was not being processed. -/
theorem waiting_of_jobFor {b : Broker} {e : BrokerEvent} {k : TaskKey} {addresses : List String}
    (hjob : b.jobFor k e = some addresses) {t : Task} (ht : b.queue.find k = some t) :
    t.processed = false := by
  cases e with
  | getJob workerAddresses =>
    simp only [Broker.jobFor] at hjob
    split at hjob
    · next hfront =>
      obtain ⟨u, hu, hkey⟩ := Option.map_eq_some_iff.mp hfront
      obtain ⟨hmem, hwaiting, _⟩ := front_spec hu
      have hfind := mem_tasks_iff.mp hmem
      rw [hkey, ht] at hfind
      rw [Option.some.inj hfind]
      exact hwaiting
    · cases hjob
  | _ => cases hjob

/-! ## The run -/

/-- A task that was handed out is still being processed, or has been out long enough. -/
def Accounted (config : BrokerConfig) (s : TimedBroker) : Prop :=
  ∀ k worker last, s.handedOut k = some (worker, last) →
    ∃ t, s.broker.queue.find k = some t ∧
      (t.processed = true ∨ config.zombieTime.toNat ≤ s.clock - last)

theorem accounted_start (config : BrokerConfig) (clock : Int) : Accounted config (start clock) := by
  intro k worker last h
  cases h

/-- Who has a task after a step: the worker that it hands it to, or else who had it before. -/
theorem handedOut_cases {config : BrokerConfig} {s s' : TimedBroker} {e : TimedEvent}
    (hstep : s.step config e = some s') {k : TaskKey} {worker : List String} {last : Int}
    (h : s'.handedOut k = some (worker, last)) :
    (s.broker.jobFor k e.event = some worker ∧ last = s.time e) ∨
      (s.broker.jobFor k e.event = none ∧ s.handedOut k = some (worker, last)) := by
  obtain ⟨b, _, rfl⟩ := Option.map_eq_some_iff.mp hstep
  obtain ⟨_, _, h⟩ := Option.bind_eq_some_iff.mp h
  cases hjob : s.broker.jobFor k e.event with
  | some addresses =>
    rw [hjob] at h
    obtain ⟨rfl, rfl⟩ := Prod.mk.inj (Option.some.inj h)
    exact .inl ⟨rfl, rfl⟩
  | none =>
    rw [hjob, Option.map_none, Option.none_or] at h
    exact .inr ⟨rfl, h⟩

/-- A task that someone has is in the queue. -/
theorem inQueue_of_handedOut {config : BrokerConfig} {s s' : TimedBroker} {e : TimedEvent}
    (hstep : s.step config e = some s') {k : TaskKey} {worker : List String} {last : Int}
    (h : s'.handedOut k = some (worker, last)) : ∃ t, s'.broker.queue.find k = some t := by
  obtain ⟨b, _, rfl⟩ := Option.map_eq_some_iff.mp hstep
  obtain ⟨t, ht, _⟩ := Option.bind_eq_some_iff.mp h
  exact ⟨t, ht⟩

theorem broker_step {config : BrokerConfig} {s s' : TimedBroker} {e : TimedEvent}
    (hstep : s.step config e = some s') :
    s.broker.step config (e.event.atClock (s.time e)) = some s'.broker ∧ s'.clock = s.time e := by
  obtain ⟨b, hb, rfl⟩ := Option.map_eq_some_iff.mp hstep
  exact ⟨hb, rfl⟩

theorem accounted_step {config : BrokerConfig} {s s' : TimedBroker} {e : TimedEvent}
    (h : Accounted config s) (early : NoEarlyReset config s e) (hstep : s.step config e = some s') :
    Accounted config s' := by
  obtain ⟨hb, hclock⟩ := broker_step hstep
  intro k worker last hlast
  obtain ⟨t', ht'⟩ := inQueue_of_handedOut hstep hlast
  refine ⟨t', ht', ?_⟩
  rw [hclock]
  rcases handedOut_cases hstep hlast with ⟨hjob, _⟩ | ⟨_, hbefore⟩
  · exact .inl (processed_of_jobFor hb ((Broker.jobFor_atClock ..).trans hjob) ht')
  obtain ⟨t, ht, hprocessed | hlong⟩ := h k worker last hbefore
  · rcases processed_step hb ht ht' hprocessed with hstill | ⟨now, hevent, hresets⟩
    · exact .inl hstill
    · exact .inr (early.of_resubmit hevent hbefore ht hresets)
  · have hlater : s.clock ≤ s.time e := Int.le_add_of_nonneg_right (Int.natCast_nonneg _)
    exact .inr (by omega)

/-- A task is handed out only while it is not being processed. -/
theorem handsOutInTime_of_accounted {config : BrokerConfig} {s : TimedBroker} {e : TimedEvent}
    (h : Accounted config s) : HandsOutInTime config s e := by
  intro k worker last addresses hlast hjob _
  obtain ⟨t, ht, hout⟩ := h k worker last hlast
  have hwaiting : t.processed = false := waiting_of_jobFor hjob ht
  rw [hwaiting] at hout
  have hlong := hout.resolve_left (by simp)
  have hlater : s.clock ≤ s.time e := Int.le_add_of_nonneg_right (Int.natCast_nonneg _)
  omega

/-- **Any run.** While no resubmission resets a task that was handed out too short a time ago, no task
is handed to another worker before the zombie time is over.

Requests, workers and resubmissions come in any order and at any times. That a task is ever resubmitted
is not established: the walk over the timestamps may jump over it. What can happen after a step against
the condition is said by `earlyReset_breaks`. -/
theorem zombieTimer_run (config : BrokerConfig) (clock : Int) (events : List TimedEvent)
    (early : Run.EveryStep (step config) (NoEarlyReset config) (start clock) events) :
    Run.EveryStep (step config) (HandsOutInTime config) (start clock) events := by
  have hkeep : ∀ s e s', Accounted config s → NoEarlyReset config s e → s.step config e = some s' →
      Accounted config s' := fun s e s' h hearly hstep => accounted_step h hearly hstep
  have himplied : ∀ s e, Accounted config s → NoEarlyReset config s e →
      HandsOutInTime config s e := fun s e h _ => handsOutInTime_of_accounted h
  exact Run.everyStep_of_invariant himplied hkeep events _ (accounted_start config clock) early

/-- A tile is requested and handed out at once, and its worker has 300 seconds before the task is reset
and another gets it. -/
def handedOutTwice : List TimedEvent :=
  [⟨0, .request "h" { x := 0, y := 0, z := 4 } 0⟩, ⟨0, .getJob ["a"]⟩,
    ⟨300, .resubmitZombieTasks 0⟩, ⟨0, .getJob ["b"]⟩]

theorem handedOutTwice_inTime :
    Run.EveryStep (step {}) (HandsOutInTime {}) (start 0) handedOutTwice := by
  refine zombieTimer_run {} 0 handedOutTwice ⟨trivial, fun s hs => ⟨trivial, fun s' hs' => ?_⟩⟩
  refine ⟨?_, fun _ _ => ⟨trivial, fun _ _ => trivial⟩⟩
  intro k worker last t hlast _ _
  rcases handedOut_cases hs' hlast with ⟨_, rfl⟩ | ⟨_, hlast⟩
  · show (300 : Int) ≤ s'.clock + 300 - _
    rw [(broker_step hs').2]
    omega
  · rcases handedOut_cases hs hlast with ⟨hjob, _⟩ | ⟨_, hlast⟩
    · cases hjob
    · cases hlast

/-! ## After an early reset -/

/-- A task that waits is handed to a worker that keeps asking. -/
theorem handed_to_asking {config : BrokerConfig} {k : TaskKey} {worker addresses : List String}
    {last : Int} (other : addresses ≠ worker) :
    ∀ (n : Nat) (s : TimedBroker) (t : Task), s.broker.queue.find k = some t →
      t.processed = false → s.handedOut k = some (worker, last) →
      s.clock - last < config.zombieTime.toNat → s.broker.queue.countUnprocessed ≤ n →
      ¬ Run.EveryStep (step config) (HandsOutInTime config) s
        (List.replicate n ⟨0, .getJob addresses⟩) := by
  intro n
  induction n with
  | zero =>
    intro s t ht hwaiting _ _ hcount _
    have hnone := List.countP_eq_zero.mp (Nat.le_zero.mp hcount) t (MultiIndex.mem_of_find ht)
    simp [hwaiting] at hnone
  | succ n ih =>
    intro s t ht hwaiting hlast hshort hcount hevery
    rw [List.replicate_succ] at hevery
    obtain ⟨hfirst, hrest⟩ := hevery
    have htime : s.time ⟨0, .getJob addresses⟩ = s.clock := Int.add_zero _
    obtain ⟨u, hu⟩ := exists_front_of_waiting (MultiIndex.mem_of_find ht) hwaiting
    by_cases hkey : u.key = k
    · -- it is the task's turn
      have hjob : s.broker.jobFor k (.getJob addresses) = some addresses := by
        simp [Broker.jobFor, hu, hkey]
      have hlong := hfirst k worker last addresses hlast hjob other
      omega
    · -- another task is handed out, and there is one less to wait for
      have hjob : s.broker.jobFor k (.getJob addresses) = none := by
        simp [Broker.jobFor, hu, hkey]
      have hqueue : (s.broker.giveJob addresses).queue =
          s.broker.queue.setProcessed u.toTileProtocol := by
        rw [Broker.giveJob, hu]
      have hfind : (s.broker.giveJob addresses).queue.find k = some t := by
        rw [hqueue, find_setProcessed, if_neg (show k ≠ u.taskKey from fun h => hkey h.symm), ht]
      refine ih _ t hfind hwaiting ?_ ?_ ?_ (hrest _ rfl)
      · simp [hfind, hjob, hlast]
      · rwa [htime]
      · rw [hqueue]
        have hless := countUnprocessed_setProcessed hu
        omega

/-- After a step that resets a task early, another worker is handed the task too early: it need only
ask as often as there are tasks that wait. -/
theorem handed_after_reset {config : BrokerConfig} {s : TimedBroker} {elapsed : Nat} {now : Int}
    {k : TaskKey} {worker addresses : List String} {last : Int} {t : Task}
    (hlast : s.handedOut k = some (worker, last)) (ht : s.broker.queue.find k = some t)
    (hresets : Resets s.broker.queue config.zombieTime.toInt (s.clock + elapsed) t)
    (hshort : s.clock + elapsed - last < config.zombieTime.toNat) (other : addresses ≠ worker)
    {n : Nat} (hn : (s.broker.queue.resubmitOlderThan config.zombieTime.toInt
      (s.clock + elapsed)).countUnprocessed ≤ n) :
    ¬ Run.EveryStep (step config) (HandsOutInTime config) s
      (⟨elapsed, .resubmitZombieTasks now⟩ :: List.replicate n ⟨0, .getJob addresses⟩) := by
  intro hevery
  have hreset := find_resubmitOlderThan_some ht config.zombieTime.toInt (s.clock + elapsed)
  rw [if_pos hresets] at hreset
  refine handed_to_asking other n _ _ hreset rfl ?_ hshort hn (hevery.2 _ rfl)
  simp only [time, hreset, Option.bind_some, Broker.jobFor, Option.map_none, Option.none_or]
  exact hlast

/-- **The condition is exact.** After a step that resets a task early a run can go on to hand the task
to another worker too early. -/
theorem earlyReset_breaks {config : BrokerConfig} {s : TimedBroker} {e : TimedEvent}
    (early : ¬ NoEarlyReset config s e) :
    ∃ later, ¬ Run.EveryStep (step config) (HandsOutInTime config) s (e :: later) := by
  obtain ⟨elapsed, event⟩ := e
  cases event with
  | resubmitZombieTasks now =>
    simp only [NoEarlyReset, not_forall, not_le] at early
    obtain ⟨k, worker, last, t, hlast, ht, hresets, hshort⟩ := early
    exact ⟨_, handed_after_reset hlast ht hresets hshort (List.cons_ne_self "" worker) (le_refl _)⟩
  | _ => exact absurd trivial early

/-! ## A task that waits longer than the zombie time -/

/-- A tile is requested, and waits 400 seconds for a worker. -/
def handedOutLate : List TimedEvent :=
  [⟨0, .request "h" { x := 0, y := 0, z := 4 } 0⟩, ⟨400, .getJob ["a"]⟩]

/-- The broker then. -/
def late : TimedBroker := (Run.run (step {}) (start 0) handedOutLate).get rfl

/-- The task then. -/
def lateTask : Task :=
  { metaOf { x := 0, y := 0, z := 4 } with
    priority := 150, timestamp := 0, processed := true
    subscribers := [({ x := 0, y := 0, z := 4 }, "h")] }

theorem find_late : late.broker.queue.find lateTask.key = some lateTask := by decide

/-- A second later the task is reset, and another worker gets it. -/
theorem zombieTimer_starts_early :
    ¬ ∀ (config : BrokerConfig) (clock : Int) (events : List TimedEvent),
      Run.EveryStep (step config) (HandsOutInTime config) (start clock) events := by
  intro h
  have hevery := h {} 0 (handedOutLate ++ [⟨1, .resubmitZombieTasks 0⟩, ⟨0, .getJob ["b"]⟩])
  have hlater := hevery.after handedOutLate (Option.some_get rfl).symm
  have hlast : late.handedOut lateTask.key = some (["a"], 400) := rfl
  have other : (["b"] : List String) ≠ ["a"] := by decide
  refine handed_after_reset (n := 1) hlast find_late ?resets ?short other ?asks hlater
  case resets => decide
  case short => decide
  case asks => exact (countUnprocessed_le_size _).trans (le_of_eq (size_resubmitOlderThan ..))

end TimedBroker

end RenderMq
