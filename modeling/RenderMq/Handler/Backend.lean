import RenderMq.Lib.Run
import RenderMq.Tile.Protocol
import Mathlib

/-!
# The handler's view of the brokers

`zmq_backend_handler`: what a handler knows of the brokers by their heartbeats, where it sends jobs,
and how long it thinks the queue is.

A broker is alive when its last heartbeat is younger than the liveness time. Sending a job looks at
the clock and writes this down for every broker (`updateLiveBrokers`). Asking for the queue length
does not look at the clock: it reads what was written down. `queueLength_eq` says when that is the
same; `queueLength_after_send` that it is so right after a job was sent.

The consistent hash that picks a broker for a job is an argument (`Router`). The reconnection of the
subscription sockets, which changes no message, is left out.
-/

namespace RenderMq

/-! ## State -/

/-- `consistent_hash`. -/
structure Router where
  Ring : Type
  empty : Ring
  insert : BrokerId → Ring → Ring
  erase : BrokerId → Ring → Ring
  lookup : TileProtocol → Ring → Option BrokerId

/-- `heartbeat`: when the last one was received, what it said, and whether the consistent hash has
the broker. -/
structure Heartbeat where
  time : Int
  queueSize : BitVec 64
  isLive : Bool := false
  deriving DecidableEq, Repr

abbrev Heartbeats := AList fun _ : BrokerId => Heartbeat

structure HandlerConfig where
  router : Router
  /-- In microseconds, as all times here. -/
  livenessTime : Int := 30000000
  /-- Until when to wait for brokers to announce themselves, if at all. -/
  settleTime : Option Int := none

structure HandlerBackend (config : HandlerConfig) where
  heartbeats : Heartbeats := ∅
  settleTime : Option Int := config.settleTime
  ring : config.router.Ring := config.router.empty

namespace HandlerBackend

variable {config : HandlerConfig}

/-! ## Operations -/

/-- `update_heartbeat`. -/
def updateHeartbeat (b : HandlerBackend config) (broker : BrokerId) (qsize : BitVec 64)
    (now : Int) : HandlerBackend config :=
  let hb := (b.heartbeats.lookup broker).getD { time := 0, queueSize := 0 }
  { b with heartbeats := b.heartbeats.insert broker { hb with time := now, queueSize := qsize } }

/-- Whether a broker is alive by the age of its last heartbeat. -/
def young (config : HandlerConfig) (now : Int) (hb : Heartbeat) : Bool :=
  decide (now - hb.time < config.livenessTime)

/-- What `update_live_brokers` writes down for a broker. -/
def refresh (config : HandlerConfig) (now : Int) (hb : Heartbeat) : Heartbeat :=
  if young config now hb && !hb.isLive then { hb with isLive := true }
  else if !young config now hb && hb.isLive then { hb with isLive := false }
  else hb

/-- What `update_live_brokers` does to the consistent hash for a broker. -/
def reroute (config : HandlerConfig) (now : Int) (ring : config.router.Ring)
    (entry : Sigma fun _ : BrokerId => Heartbeat) : config.router.Ring :=
  if young config now entry.2 && !entry.2.isLive then config.router.insert entry.1 ring
  else if !young config now entry.2 && entry.2.isLive then config.router.erase entry.1 ring
  else ring

/-- The heartbeats with each one changed. -/
def mapHeartbeats (f : Heartbeat → Heartbeat) (m : Heartbeats) : Heartbeats :=
  ⟨m.entries.map (Sigma.map id fun _ => f), m.nodupKeys.map₂ (fun _ => f)⟩

/-- `update_live_brokers`. -/
def updateLiveBrokers (b : HandlerBackend config) (now : Int) : HandlerBackend config :=
  { b with
    heartbeats := mapHeartbeats (refresh config now) b.heartbeats
    ring := b.heartbeats.entries.foldl (reroute config now) b.ring }

/-- `settle_check() const`. -/
def settling (b : HandlerBackend config) (now : Int) : Bool :=
  match b.settleTime with
  | some t => decide (t ≥ now)
  | none => false

/-- `settle_check()`: it ends the settling when the time has come. -/
def settleCheck (b : HandlerBackend config) (now : Int) : HandlerBackend config × Bool :=
  match b.settleTime with
  | some t =>
    if t < now then ({ b.updateLiveBrokers now with settleTime := none }, false) else (b, true)
  | none => (b, false)

/-- `send`: the broker that the job goes to, or the error. -/
def send (b : HandlerBackend config) (job : TileProtocol) (now : Int) :
    HandlerBackend config × Except String BrokerId :=
  match b.settleCheck now with
  | (b, true) => (b, .error "still settling.")
  | (b, false) =>
    let b := b.updateLiveBrokers now
    match config.router.lookup job b.ring with
    | some broker => (b, .ok broker)
    | none => (b, .error "no brokers available to send jobs to!")

/-- The queue sizes of some brokers, normalised to their number: a `size_t` sum, then the floor of
the mean. -/
def normalised (hbs : List Heartbeat) : Nat :=
  if hbs.length = 0 then 0 else (hbs.map Heartbeat.queueSize).sum.toNat / hbs.length

/-- What is known of the brokers. -/
def known (b : HandlerBackend config) : List Heartbeat := b.heartbeats.entries.map fun e => e.2

/-- `queue_length`. -/
def queueLength (b : HandlerBackend config) (now : Int) : Nat :=
  if b.settling now then 2 ^ 64 - 1 else normalised (b.known.filter Heartbeat.isLive)

/-! ## What the operations do to the heartbeats -/

@[simp] theorem refresh_isLive (config : HandlerConfig) (now : Int) (hb : Heartbeat) :
    (refresh config now hb).isLive = young config now hb := by
  unfold refresh
  cases young config now hb <;> cases h : hb.isLive <;> simp [h]

@[simp] theorem refresh_time (config : HandlerConfig) (now : Int) (hb : Heartbeat) :
    (refresh config now hb).time = hb.time := by
  unfold refresh
  split
  · rfl
  · split <;> rfl

@[simp] theorem refresh_queueSize (config : HandlerConfig) (now : Int) (hb : Heartbeat) :
    (refresh config now hb).queueSize = hb.queueSize := by
  unfold refresh
  split
  · rfl
  · split <;> rfl

theorem known_updateLiveBrokers (b : HandlerBackend config) (now : Int) :
    (b.updateLiveBrokers now).known = b.known.map (refresh config now) := by
  simp [known, updateLiveBrokers, mapHeartbeats, Sigma.map]

theorem lookup_updateLiveBrokers (b : HandlerBackend config) (now : Int) (broker : BrokerId) :
    (b.updateLiveBrokers now).heartbeats.lookup broker =
      (b.heartbeats.lookup broker).map (refresh config now) :=
  List.dlookup_map₂ broker

/-! ## The length that is meant -/

/-- The floor of the mean of some sizes, 0 if there are none. -/
def meanOf (sizes : List Nat) : Nat := sizes.sum / sizes.length

/-- The last reported queue sizes of the brokers that are alive. -/
def liveSizes (b : HandlerBackend config) (now : Int) : List Nat :=
  (b.known.filter (young config now)).map fun hb => hb.queueSize.toNat

/-- The consistent hash has exactly the brokers that are alive now. -/
def FlagsCurrent (b : HandlerBackend config) (now : Int) : Prop :=
  ∀ hb ∈ b.known, hb.isLive = young config now hb

theorem toNat_sum (sizes : List (BitVec 64)) :
    sizes.sum.toNat = (sizes.map BitVec.toNat).sum % 2 ^ 64 := by
  induction sizes with
  | nil => rfl
  | cons size sizes ih =>
    rw [List.sum_cons, BitVec.toNat_add, ih, List.map_cons, List.sum_cons, Nat.add_mod_mod]

/-- With what was written down still true, the length is the one that is meant. -/
theorem queueLength_eq {b : HandlerBackend config} {now : Int} (settled : b.settling now = false)
    (current : b.FlagsCurrent now) (fits : (b.liveSizes now).sum < 2 ^ 64) :
    b.queueLength now = meanOf (b.liveSizes now) := by
  have hfilter : b.known.filter Heartbeat.isLive = b.known.filter (young config now) :=
    List.filter_congr current
  have hsum : (((b.known.filter (young config now)).map Heartbeat.queueSize).sum).toNat =
      (b.liveSizes now).sum := by
    rw [toNat_sum, List.map_map]
    exact Nat.mod_eq_of_lt fits
  have hlen : (b.liveSizes now).length = (b.known.filter (young config now)).length :=
    List.length_map ..
  rw [queueLength, settled, if_neg (by simp), hfilter, normalised, meanOf, hsum, hlen]
  split
  · next hzero => rw [hzero, Nat.div_zero]
  · rfl

theorem flagsCurrent_updateLiveBrokers (b : HandlerBackend config) (now : Int) :
    (b.updateLiveBrokers now).FlagsCurrent now := by
  intro hb hmem
  rw [known_updateLiveBrokers] at hmem
  obtain ⟨old, _, rfl⟩ := List.mem_map.mp hmem
  simp [young]

/-- Sending a job writes down who is alive, whether or not there is a broker for it. -/
theorem flagsCurrent_send (b : HandlerBackend config) (job : TileProtocol) {now : Int}
    (settled : (b.settleCheck now).2 = false) : (b.send job now).1.FlagsCurrent now := by
  unfold send
  split
  · next hsettle => simp [hsettle] at settled
  · dsimp only
    split
    · exact flagsCurrent_updateLiveBrokers _ now
    · exact flagsCurrent_updateLiveBrokers _ now

/-! ## Runs -/

/-- What happens to a backend. Each event has its own clock. -/
inductive BackendEvent where
  | heartbeat (broker : BrokerId) (qsize : BitVec 64) (now : Int)
  | queueLength (now : Int)
  | send (job : TileProtocol) (now : Int)

def step (b : HandlerBackend config) : BackendEvent → Option (HandlerBackend config)
  | .heartbeat broker qsize now => some (b.updateHeartbeat broker qsize now)
  | .queueLength _ => some b
  | .send job now => some (b.send job now).1

/-- The last heartbeat of each broker in a run: when, and what it reported. -/
def lastHeartbeat : List BackendEvent → BrokerId → Option (Int × BitVec 64) :=
  List.foldl (fun last e =>
    match e with
    | .heartbeat broker qsize now => Function.update last broker (some (now, qsize))
    | _ => last) fun _ => none

/-- What is known of a broker. -/
def reported (b : HandlerBackend config) (broker : BrokerId) : Option (Int × BitVec 64) :=
  (b.heartbeats.lookup broker).map fun hb => (hb.time, hb.queueSize)

theorem reported_updateLiveBrokers (b : HandlerBackend config) (now : Int) :
    (b.updateLiveBrokers now).reported = b.reported := by
  funext broker
  rw [reported, lookup_updateLiveBrokers, Option.map_map, reported]
  congr 1
  funext hb
  simp

theorem reported_send (b : HandlerBackend config) (job : TileProtocol) (now : Int) :
    (b.send job now).1.reported = b.reported := by
  have hsettle : (b.settleCheck now).1.reported = b.reported := by
    unfold settleCheck
    split
    · split
      · exact reported_updateLiveBrokers b now
      · rfl
    · rfl
  unfold send
  split
  · next b' heq => rw [← hsettle, heq]
  · next b' heq =>
    have hupdate : (b'.updateLiveBrokers now).reported = b.reported := by
      rw [reported_updateLiveBrokers, ← hsettle, heq]
    dsimp only
    split <;> exact hupdate

theorem reported_updateHeartbeat (b : HandlerBackend config) (broker : BrokerId)
    (qsize : BitVec 64) (now : Int) :
    (b.updateHeartbeat broker qsize now).reported =
      Function.update b.reported broker (some (now, qsize)) := by
  funext id
  unfold reported updateHeartbeat
  by_cases hid : id = broker
  · subst hid
    rw [AList.lookup_insert, Function.update_self]
    rfl
  · rw [AList.lookup_insert_ne hid, Function.update_of_ne hid]

/-- What is known of each broker is its last heartbeat. -/
theorem reported_run {events : List BackendEvent} {b : HandlerBackend config}
    (hrun : Run.run step {} events = some b) : b.reported = lastHeartbeat events := by
  have hstep : ∀ (past : List BackendEvent) (s : HandlerBackend config) (e : BackendEvent)
      (t : HandlerBackend config), s.reported = lastHeartbeat past → s.step e = some t →
      t.reported = lastHeartbeat (past ++ [e]) := by
    intro past s e t hs ht
    rw [lastHeartbeat, List.foldl_append, ← lastHeartbeat, ← hs]
    cases e with
    | heartbeat broker qsize now =>
      obtain rfl := Option.some.inj ht
      exact reported_updateHeartbeat s broker qsize now
    | queueLength now =>
      obtain rfl := Option.some.inj ht
      rfl
    | send job now =>
      obtain rfl := Option.some.inj ht
      exact reported_send s job now
  exact Run.run_invariant hstep events [] {} b rfl hrun

/-- A call of `queue_length` after settling answers for the brokers that are alive. -/
def CountsLive (b : HandlerBackend config) : BackendEvent → Prop
  | .queueLength now => b.settling now = false → b.queueLength now = meanOf (b.liveSizes now)
  | _ => True

/-- When `queue_length` is called, no broker has come alive or died since that was last written down,
and the sizes add up in a `size_t`. -/
def ReadsCurrent (b : HandlerBackend config) : BackendEvent → Prop
  | .queueLength now =>
    b.settling now = false → b.FlagsCurrent now ∧ (b.liveSizes now).sum < 2 ^ 64
  | _ => True

/-- **The run.** What is known of the brokers is always their last heartbeats; and where each call of
`queue_length` finds what was written down still true, each answers for the brokers alive.

Heartbeats, updates and calls come in any order, each with its own reading of the clock. What is asked
of a call is that the flags are current and that the sizes add up in a `size_t`. Nothing is said of a
call while the handler settles, which is answered with the largest length there is. -/
theorem queue_length_counts_live_brokers (config : HandlerConfig) (events : List BackendEvent) :
    (∀ b : HandlerBackend config, Run.run step {} events = some b →
      b.reported = lastHeartbeat events) ∧
    (Run.EveryStep step (@ReadsCurrent config) {} events →
      Run.EveryStep step (@CountsLive config) {} events) := by
  refine ⟨fun b => reported_run, ?_⟩
  have implied : ∀ (b : HandlerBackend config) (e : BackendEvent), True → ReadsCurrent b e →
      CountsLive b e := by
    intro b e _ hcurrent
    cases e with
    | queueLength now =>
      intro settled
      exact queueLength_eq settled (hcurrent settled).1 (hcurrent settled).2
    | _ => trivial
  exact Run.everyStep_of_invariant implied (fun _ _ _ _ _ _ => trivial) events {} trivial

/-- A ring that has the brokers in a line and gives every job to the first. -/
def firstInLine : Router where
  Ring := List BrokerId
  empty := []
  insert := List.cons
  erase := fun broker ring => ring.erase broker
  lookup := fun _ ring => ring.head?

/-- Two brokers announce themselves, a job is sent, and the queue length is asked for: 10 and 21
waiting tasks are 15 on average. -/
theorem queue_length_of_two_brokers :
    let config : HandlerConfig := { router := firstInLine }
    let events : List BackendEvent :=
      [.heartbeat "a" 10 0, .heartbeat "b" 21 1000, .send {} 2000, .queueLength 3000]
    (∃ b : HandlerBackend config, Run.run step {} events = some b ∧
      b.reported = lastHeartbeat events ∧ b.queueLength 3000 = 15) ∧
    Run.EveryStep step (@CountsLive config) {} events := by
  intro config events
  have hmain := queue_length_counts_live_brokers config events
  refine ⟨⟨_, rfl, hmain.1 _ rfl, by decide⟩, hmain.2 ?_⟩
  refine ⟨trivial, fun s1 h1 => ⟨trivial, fun s2 h2 => ⟨trivial, fun s3 h3 => ⟨?_, ?_⟩⟩⟩⟩
  · obtain rfl := Option.some.inj h1
    obtain rfl := Option.some.inj h2
    obtain rfl := Option.some.inj h3
    exact fun _ => ⟨by unfold FlagsCurrent; decide, by decide⟩
  · exact fun _ _ => trivial

/-- A broker reports 100 waiting tasks and is sent a job. It is never heard from again: ten seconds
after it should count as dead, its 100 tasks are still the queue length. -/
theorem queue_length_keeps_dead_broker :
    let config : HandlerConfig := { router := firstInLine }
    ¬ Run.EveryStep step (@CountsLive config) {}
      [.heartbeat "b" 100 0, .send {} 1, .queueLength 40000000] := by
  intro config hevery
  let before : List BackendEvent := [.heartbeat "b" 100 0, .send {} 1]
  have hcall := Run.EveryStep.at_event before hevery rfl
  have hlength := hcall (by decide)
  revert hlength
  decide

end HandlerBackend

end RenderMq
