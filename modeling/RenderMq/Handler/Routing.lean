import RenderMq.Handler.ConsistentHash

/-!
# Which brokers the router has

The handler backend with its consistent hash, and two records beside them: every change that was made to
the router, in order, and every job that was sent. A broker is written down as alive in one place, its
heartbeat, and present in the router in another. The two are changed together, by `update_live_brokers`
alone, and so they agree (`Tracked`).

`settle_check` and `send` read the clock each time they need it, so each reading is an argument. With
one reading for all they are those of the backend (`send_backend`).
-/

namespace RenderMq

namespace HashConfig

variable {V : Type}

/-- A value comes when it is absent and goes when it is present. -/
def Op.Fits (s : Set V) : Op V → Prop
  | .insert val => val ∉ s
  | .erase val => val ∈ s

/-- Each change of a history fits the values present before it. -/
inductive WellUsed : List (Op V) → Prop
  | nil : WellUsed []
  | snoc {ops : List (Op V)} {op : Op V} :
      WellUsed ops → op.Fits (present ops) → WellUsed (ops ++ [op])

/-- How often a value was inserted since it was last erased. -/
def insertions [DecidableEq V] (v : V) : List (Op V) → Nat :=
  List.foldl (fun n op =>
    match op with
    | .insert val => if val = v then n + 1 else n
    | .erase val => if val = v then 0 else n) 0

theorem insertions_append [DecidableEq V] (v : V) (ops : List (Op V)) (op : Op V) :
    insertions v (ops ++ [op]) =
      match op with
      | .insert val => if val = v then insertions v ops + 1 else insertions v ops
      | .erase val => if val = v then 0 else insertions v ops := by
  rw [insertions, List.foldl_append]
  rfl

/-- A value that is present was inserted once since it was last erased, and one that is absent was
not. -/
theorem WellUsed.insertions_eq [DecidableEq V] {ops : List (Op V)} (h : WellUsed ops) (v : V) :
    (v ∈ present ops → insertions v ops = 1) ∧ (v ∉ present ops → insertions v ops = 0) := by
  induction h with
  | nil => exact ⟨fun hv => absurd hv (Set.notMem_empty v), fun _ => rfl⟩
  | @snoc ops op _ hfits ih =>
    rw [present_append, insertions_append]
    cases op with
    | insert val =>
      by_cases hval : val = v
      · subst hval
        refine ⟨fun _ => ?_, fun habsent => absurd (Set.mem_insert val _) habsent⟩
        dsimp only
        rw [if_pos rfl, ih.2 hfits]
      · dsimp only
        rw [if_neg hval]
        refine ⟨fun hv => ih.1 (hv.resolve_left fun heq => hval heq.symm), fun habsent => ?_⟩
        exact ih.2 fun hv => habsent (.inr hv)
    | erase val =>
      by_cases hval : val = v
      · subst hval
        dsimp only
        rw [if_pos rfl]
        exact ⟨fun hv => absurd rfl hv.2, fun _ => rfl⟩
      · dsimp only
        rw [if_neg hval]
        refine ⟨fun hv => ih.1 hv.1, fun habsent => ih.2 fun hv => habsent ⟨hv, ?_⟩⟩
        exact fun heq => hval heq.symm

/-- What is on the ring is present, whether or not points are shared. -/
theorem mem_run {c : HashConfig V} {ops : List (Op V)} :
    ∀ e ∈ c.run ops, e.2 ∈ present ops ∧ e.1 ∈ c.points e.2 := by
  induction ops using List.reverseRecOn with
  | nil => exact fun e he => absurd he List.not_mem_nil
  | append_singleton ops op ih =>
    intro e he
    rw [run_append] at he
    rw [present_append]
    cases op with
    | insert val =>
      rw [apply, insert_eq, Wheel.mem_insertAll] at he
      rcases he with he | ⟨hp, hval, _⟩
      · exact ⟨.inr (ih e he).1, (ih e he).2⟩
      · exact ⟨.inl hval, hval.symm ▸ hp⟩
    | erase val =>
      rw [apply, erase_eq, Wheel.mem_eraseAll] at he
      obtain ⟨hpresent, hpoint⟩ := ih e he.1
      exact ⟨⟨hpresent, fun hval => he.2 (hval ▸ hpoint)⟩, hpoint⟩

end HashConfig

open HashConfig

/-- The consistent hash as the handler uses it. -/
def HashConfig.router (c : HashConfig BrokerId) (combine : HashCombine) : Router where
  Ring := HashRing BrokerId
  empty := []
  insert := c.insert
  erase := c.erase
  lookup := HashConfig.lookup combine.hashValue

/-- How a handler is set up. -/
structure RoutingConfig where
  hash : HashConfig BrokerId
  combine : HashCombine
  livenessTime : Int := 30000000
  settleTime : Option Int := none

abbrev RoutingConfig.handler (config : RoutingConfig) : HandlerConfig where
  router := config.hash.router config.combine
  livenessTime := config.livenessTime
  settleTime := config.settleTime

/-- A handler, what was done to its router, and the jobs that it sent. -/
structure Routing (config : RoutingConfig) where
  backend : HandlerBackend config.handler := {}
  changes : List (Op BrokerId) := []
  sent : List (BrokerId × TileProtocol) := []

namespace Routing

variable {config : RoutingConfig}

/-- The ring of the router. -/
def ring (s : Routing config) : HashRing BrokerId := s.backend.ring

/-! ## Operations -/

/-- The change that `update_live_brokers` makes to the router for a broker, if any. -/
def rerouteOp (config : RoutingConfig) (now : Int) (entry : Sigma fun _ : BrokerId => Heartbeat) :
    Option (Op BrokerId) :=
  if HandlerBackend.young config.handler now entry.2 && !entry.2.isLive then
    some (.insert entry.1)
  else if !HandlerBackend.young config.handler now entry.2 && entry.2.isLive then
    some (.erase entry.1)
  else none

/-- `update_live_brokers`. -/
def update (s : Routing config) (now : Int) : Routing config :=
  { s with
    backend := s.backend.updateLiveBrokers now
    changes := s.changes ++ s.backend.heartbeats.entries.filterMap (rerouteOp config now) }

/-- `settle_check()`: the clock is read to see if settling is over, and then for the update. -/
def settleCheck (s : Routing config) (now updated : Int) : Routing config × Bool :=
  match s.backend.settleTime with
  | some t =>
    if t < now then
      let s := s.update updated
      ({ s with backend := { s.backend with settleTime := none } }, false)
    else (s, true)
  | none => (s, false)

/-- `send`: the settle check, the update and the lookup. -/
def send (s : Routing config) (job : TileProtocol) (now settled updated : Int) :
    Routing config × Except String BrokerId :=
  match s.settleCheck now settled with
  | (s, true) => (s, .error "still settling.")
  | (s, false) =>
    let s := s.update updated
    match HashConfig.lookup config.combine.hashValue job s.backend.ring with
    | some broker => ({ s with sent := s.sent ++ [(broker, job)] }, .ok broker)
    | none => (s, .error "no brokers available to send jobs to!")

/-- With one reading of the clock, `send` is that of the backend. -/
theorem send_backend (s : Routing config) (job : TileProtocol) (now : Int) :
    ((s.send job now now now).1.backend, (s.send job now now now).2) = s.backend.send job now := by
  have hroute : ∀ b : HandlerBackend config.handler,
      HashConfig.lookup config.combine.hashValue job b.ring = config.handler.router.lookup job b.ring :=
    fun _ => rfl
  unfold send HandlerBackend.send settleCheck HandlerBackend.settleCheck
  cases s.backend.settleTime with
  | none =>
    dsimp only [update]
    rw [hroute]
    cases config.handler.router.lookup job (s.backend.updateLiveBrokers now).ring <;> rfl
  | some t =>
    by_cases ht : t < now
    · simp only [if_pos ht]
      dsimp only [update]
      rw [hroute]
      generalize HandlerBackend.updateLiveBrokers _ now = b
      cases config.handler.router.lookup job b.ring <;> rfl
    · simp only [if_neg ht]

/-! ## Runs -/

/-- What happens to a handler. -/
inductive Event where
  | heartbeat (broker : BrokerId) (qsize : BitVec 64) (now : Int)
  | updateLiveBrokers (now : Int)
  | settleCheck (now updated : Int)
  | send (job : TileProtocol) (now settled updated : Int)

def step (s : Routing config) : Event → Routing config
  | .heartbeat broker qsize now => { s with backend := s.backend.updateHeartbeat broker qsize now }
  | .updateLiveBrokers now => s.update now
  | .settleCheck now updated => (s.settleCheck now updated).1
  | .send job now settled updated => (s.send job now settled updated).1

def run (config : RoutingConfig) (events : List Event) : Routing config := events.foldl step {}

/-- When a broker was last heard of. -/
def lastHeard (broker : BrokerId) : List Event → Option Int :=
  List.foldl (fun last e =>
    match e with
    | .heartbeat b _ now => if b = broker then some now else last
    | _ => last) none

/-- The last heartbeat of a broker is younger than the liveness time. -/
def Alive (config : RoutingConfig) (events : List Event) (now : Int) (broker : BrokerId) : Prop :=
  ∃ t, lastHeard broker events = some t ∧ now - t < config.livenessTime

/-! ## One update -/

section Update

variable (config)

/-- What is done to the router is what is recorded. -/
theorem reroute_eq (now : Int) (ring : HashRing BrokerId)
    (entry : Sigma fun _ : BrokerId => Heartbeat) :
    HandlerBackend.reroute config.handler now ring entry =
      (rerouteOp config now entry).toList.foldl config.hash.apply ring := by
  unfold HandlerBackend.reroute rerouteOp
  generalize HandlerBackend.young config.handler now entry.2 = young
  generalize entry.2.isLive = live
  cases young <;> cases live <;> rfl

theorem foldl_reroute (now : Int) (entries : List (Sigma fun _ : BrokerId => Heartbeat)) :
    ∀ ring : HashRing BrokerId, entries.foldl (HandlerBackend.reroute config.handler now) ring =
      (entries.filterMap (rerouteOp config now)).foldl config.hash.apply ring := by
  induction entries with
  | nil => exact fun _ => rfl
  | cons entry entries ih =>
    intro ring
    have hfirst := reroute_eq config now ring entry
    refine (ih (HandlerBackend.reroute config.handler now ring entry)).trans ?_
    rw [hfirst, List.filterMap_cons]
    cases rerouteOp config now entry <;> rfl

/-- One broker: the change fits, and after it the broker is present if it is alive. -/
theorem rerouteOp_spec (now : Int) {entry : Sigma fun _ : BrokerId => Heartbeat}
    {changes : List (Op BrokerId)} (used : WellUsed changes)
    (flag : entry.1 ∈ present changes ↔ entry.2.isLive = true) :
    WellUsed (changes ++ (rerouteOp config now entry).toList) ∧
      ∀ broker, broker ∈ present (changes ++ (rerouteOp config now entry).toList) ↔
        (broker = entry.1 ∧ HandlerBackend.young config.handler now entry.2 = true) ∨
          (broker ≠ entry.1 ∧ broker ∈ present changes) := by
  unfold rerouteOp
  cases hyoung : HandlerBackend.young config.handler now entry.2 <;>
    cases hlive : entry.2.isLive <;>
    simp only [hlive, Bool.not_true, Bool.not_false, Bool.and_true, Bool.and_false, if_true, if_false,
      Bool.false_eq_true, Option.toList_some, Option.toList_none, List.append_nil, and_true, and_false,
      iff_true, iff_false, false_or] at flag ⊢
  case false.false =>
    refine ⟨used, fun broker => ⟨fun h => ⟨?_, h⟩, And.right⟩⟩
    exact fun heq => flag (heq ▸ h)
  case false.true =>
    refine ⟨.snoc used flag, fun broker => ?_⟩
    rw [present_append]
    exact ⟨fun h => ⟨h.2, h.1⟩, fun h => ⟨h.2, h.1⟩⟩
  case true.false =>
    refine ⟨.snoc used flag, fun broker => ?_⟩
    rw [present_append]
    refine ⟨fun h => ?_, fun h => h.imp id And.right⟩
    by_cases heq : broker = entry.1
    · exact .inl heq
    · exact .inr ⟨heq, h.resolve_left heq⟩
  case true.true =>
    refine ⟨used, fun broker => ⟨fun h => ?_, fun h => ?_⟩⟩
    · by_cases heq : broker = entry.1
      · exact .inl heq
      · exact .inr ⟨heq, h⟩
    · rcases h with rfl | ⟨_, h⟩
      · exact flag
      · exact h

/-- All brokers, one after the other. -/
theorem filterMap_rerouteOp (now : Int) (entries : List (Sigma fun _ : BrokerId => Heartbeat)) :
    ∀ changes : List (Op BrokerId), (entries.map Sigma.fst).Nodup → WellUsed changes →
      (∀ entry ∈ entries, entry.1 ∈ present changes ↔ entry.2.isLive = true) →
      WellUsed (changes ++ entries.filterMap (rerouteOp config now)) ∧
        ∀ broker, broker ∈ present (changes ++ entries.filterMap (rerouteOp config now)) ↔
          (∃ entry ∈ entries, broker = entry.1 ∧
            HandlerBackend.young config.handler now entry.2 = true) ∨
          (broker ∉ entries.map Sigma.fst ∧ broker ∈ present changes) := by
  induction entries with
  | nil =>
    intro changes _ used _
    simpa using used
  | cons entry entries ih =>
    intro changes nodup used flags
    rw [List.map_cons, List.nodup_cons] at nodup
    obtain ⟨hused, hpresent⟩ :=
      rerouteOp_spec config now used (flags entry List.mem_cons_self)
    have hflags : ∀ later ∈ entries,
        later.1 ∈ present (changes ++ (rerouteOp config now entry).toList) ↔
          later.2.isLive = true := by
      intro later hlater
      have hne : later.1 ≠ entry.1 := by
        intro heq
        exact nodup.1 (heq ▸ List.mem_map_of_mem hlater)
      rw [hpresent, ← flags later (List.mem_cons_of_mem _ hlater)]
      simp [hne]
    obtain ⟨ihused, ihpresent⟩ := ih _ nodup.2 hused hflags
    have hsplit : changes ++ (entry :: entries).filterMap (rerouteOp config now) =
        changes ++ (rerouteOp config now entry).toList ++
          entries.filterMap (rerouteOp config now) := by
      rw [List.append_assoc, List.filterMap_cons]
      cases rerouteOp config now entry <;> rfl
    rw [hsplit]
    refine ⟨ihused, fun broker => ?_⟩
    rw [ihpresent, hpresent, List.exists_mem_cons_iff, List.map_cons, List.mem_cons, not_or]
    by_cases heq : broker = entry.1
    · subst heq
      simp [nodup.1, or_comm]
    · simp [heq]

end Update

/-! ## The two records -/

/-- The router is what its changes make it, each change fitted, and a broker is present where its
heartbeat has it alive; what is known of each broker is its last heartbeat. -/
structure Tracked (events : List Event) (s : Routing config) : Prop where
  ring : s.backend.ring = config.hash.run s.changes
  used : WellUsed s.changes
  flags : ∀ broker, broker ∈ present s.changes ↔
    ∃ hb, s.backend.heartbeats.lookup broker = some hb ∧ hb.isLive = true
  heard : ∀ broker, (s.backend.heartbeats.lookup broker).map Heartbeat.time =
    lastHeard broker events

theorem Tracked.start : Tracked [] ({} : Routing config) := by
  refine ⟨rfl, .nil, fun broker => ⟨fun h => absurd h (Set.notMem_empty broker), ?_⟩, fun _ => rfl⟩
  rintro ⟨hb, hlookup, _⟩
  cases hlookup

theorem lastHeard_append (broker : BrokerId) (events : List Event) (e : Event) :
    lastHeard broker (events ++ [e]) =
      match e with
      | .heartbeat b _ now => if b = broker then some now else lastHeard broker events
      | _ => lastHeard broker events := by
  rw [lastHeard, List.foldl_append]
  rfl

/-- A heartbeat changes what is known of one broker, and not whether it counts as alive. -/
theorem Tracked.heartbeat {events : List Event} {s : Routing config} (tracked : Tracked events s)
    (broker : BrokerId) (qsize : BitVec 64) (now : Int) :
    Tracked (events ++ [.heartbeat broker qsize now]) (s.step (.heartbeat broker qsize now)) := by
  refine ⟨tracked.ring, tracked.used, fun id => (tracked.flags id).trans ?_, fun id => ?_⟩
  · unfold step HandlerBackend.updateHeartbeat
    dsimp only
    by_cases hid : id = broker
    · subst hid
      rw [AList.lookup_insert]
      cases s.backend.heartbeats.lookup id <;> simp
    · rw [AList.lookup_insert_ne hid]
  · rw [lastHeard_append]
    unfold step HandlerBackend.updateHeartbeat
    dsimp only
    by_cases hid : broker = id
    · subst hid
      rw [AList.lookup_insert, if_pos rfl]
      rfl
    · rw [AList.lookup_insert_ne (Ne.symm hid), if_neg hid]
      exact tracked.heard id

/-- **After an update** the brokers that are present are those alive. -/
theorem Tracked.update {events : List Event} {s : Routing config} (tracked : Tracked events s)
    (now : Int) :
    Tracked events (s.update now) ∧
      ∀ broker, broker ∈ present (s.update now).changes ↔ Alive config events now broker := by
  have hflags : ∀ entry ∈ s.backend.heartbeats.entries,
      entry.1 ∈ present s.changes ↔ entry.2.isLive = true := by
    intro entry hentry
    have hlookup : s.backend.heartbeats.lookup entry.1 = some entry.2 :=
      AList.mem_lookup_iff.mpr hentry
    rw [tracked.flags, hlookup]
    simp
  obtain ⟨hused, hpresent⟩ := filterMap_rerouteOp config now
    s.backend.heartbeats.entries s.changes s.backend.heartbeats.nodupKeys tracked.used hflags
  have hknown : ∀ broker, broker ∈ present (s.update now).changes ↔
      ∃ hb, s.backend.heartbeats.lookup broker = some hb ∧
        HandlerBackend.young config.handler now hb = true := by
    intro broker
    refine (hpresent broker).trans ⟨?_, ?_⟩
    · rintro (⟨entry, hentry, rfl, hyoung⟩ | ⟨habsent, hold⟩)
      · exact ⟨entry.2, AList.mem_lookup_iff.mpr hentry, hyoung⟩
      · obtain ⟨hb, hlookup, _⟩ := (tracked.flags broker).mp hold
        exact absurd (List.mem_map_of_mem (AList.mem_lookup_iff.mp hlookup)) habsent
    · rintro ⟨hb, hlookup, hyoung⟩
      exact .inl ⟨⟨broker, hb⟩, AList.mem_lookup_iff.mp hlookup, rfl, hyoung⟩
  refine ⟨⟨?ring, hused, fun broker => ?flag, fun broker => ?heard⟩, fun broker => ?alive⟩
  case ring =>
    have hring : (s.update now).backend.ring =
        (s.backend.heartbeats.entries.filterMap (rerouteOp config now)).foldl config.hash.apply
          s.backend.ring :=
      foldl_reroute config now s.backend.heartbeats.entries s.backend.ring
    rw [hring, tracked.ring, HashConfig.run, HashConfig.run, Routing.update, List.foldl_append]
  case flag =>
    rw [hknown, Routing.update, HandlerBackend.lookup_updateLiveBrokers]
    cases s.backend.heartbeats.lookup broker <;> simp
  case heard =>
    rw [Routing.update, HandlerBackend.lookup_updateLiveBrokers, Option.map_map, ← tracked.heard]
    congr 1
    funext hb
    exact HandlerBackend.refresh_time config.handler now hb
  case alive =>
    rw [hknown, Alive, ← tracked.heard]
    cases s.backend.heartbeats.lookup broker <;> simp [HandlerBackend.young]

/-- After an update only brokers that are alive are on the ring. -/
theorem Tracked.alive_of_mem_ring {events : List Event} {s : Routing config}
    (tracked : Tracked events s) (now : Int) :
    ∀ entry ∈ (s.update now).ring, Alive config events now entry.2 := by
  obtain ⟨hupdate, hpresent⟩ := tracked.update now
  intro entry hentry
  rw [Routing.ring, hupdate.ring] at hentry
  exact (hpresent entry.2).mp (mem_run entry hentry).1

/-- Events other than a heartbeat leave the last heartbeats as they are. -/
theorem Tracked.of_lastHeard {events later : List Event} {s : Routing config}
    (tracked : Tracked events s) (same : ∀ broker, lastHeard broker later = lastHeard broker events) :
    Tracked later s :=
  ⟨tracked.ring, tracked.used, tracked.flags, fun broker => (tracked.heard broker).trans (same broker).symm⟩

theorem settleCheck_snd (s : Routing config) (now updated : Int) :
    (s.settleCheck now updated).2 = s.backend.settling now := by
  unfold settleCheck HandlerBackend.settling
  cases s.backend.settleTime with
  | none => rfl
  | some t =>
    dsimp only
    split
    · next ht => exact (decide_eq_false (not_le.mpr ht)).symm
    · next ht => exact (decide_eq_true (not_lt.mp ht)).symm

@[simp] theorem sent_settleCheck (s : Routing config) (now updated : Int) :
    (s.settleCheck now updated).1.sent = s.sent := by
  unfold settleCheck
  split
  · split <;> rfl
  · rfl

theorem Tracked.settleCheck {events : List Event} {s : Routing config} (tracked : Tracked events s)
    (now updated : Int) : Tracked events (s.settleCheck now updated).1 := by
  unfold Routing.settleCheck
  split
  · split
    · have hupdate := (tracked.update updated).1
      exact ⟨hupdate.ring, hupdate.used, hupdate.flags, hupdate.heard⟩
    · exact tracked
  · exact tracked

/-! ## Sending -/

/-- While settling nothing is sent. -/
theorem send_settling {s : Routing config} {now : Int} (settling : s.backend.settling now = true)
    (job : TileProtocol) (settled updated : Int) :
    s.send job now settled updated =
      ((s.settleCheck now settled).1, .error "still settling.") := by
  have hcheck := settleCheck_snd s now settled
  unfold send
  split
  · next heq => rw [heq]
  · next heq =>
    rw [heq, settling] at hcheck
    cases hcheck

/-- After settling a job is routed by the router, once that is brought up to date. -/
theorem send_settled {s : Routing config} {now : Int} (done : s.backend.settling now = false)
    (job : TileProtocol) (settled updated : Int) :
    s.send job now settled updated =
      let s := (s.settleCheck now settled).1.update updated
      match HashConfig.lookup config.combine.hashValue job s.backend.ring with
      | some broker => ({ s with sent := s.sent ++ [(broker, job)] }, .ok broker)
      | none => (s, .error "no brokers available to send jobs to!") := by
  have hcheck := settleCheck_snd s now settled
  unfold send
  split
  · next heq =>
    rw [heq, done] at hcheck
    cases hcheck
  · next heq => rw [heq]

theorem Tracked.send {events : List Event} {s : Routing config} (tracked : Tracked events s)
    (job : TileProtocol) (now settled updated : Int) :
    Tracked events (s.send job now settled updated).1 := by
  cases hsettling : s.backend.settling now with
  | true =>
    rw [send_settling hsettling]
    exact tracked.settleCheck now settled
  | false =>
    have hupdate := ((tracked.settleCheck now settled).update updated).1
    rw [send_settled hsettling]
    dsimp only
    split
    · exact ⟨hupdate.ring, hupdate.used, hupdate.flags, hupdate.heard⟩
    · exact hupdate

/-- One event keeps the two records together. -/
theorem Tracked.step {events : List Event} {s : Routing config} (tracked : Tracked events s)
    (e : Event) : Tracked (events ++ [e]) (s.step e) := by
  cases e with
  | heartbeat broker qsize now => exact tracked.heartbeat broker qsize now
  | updateLiveBrokers now =>
    exact (tracked.update now).1.of_lastHeard fun broker => lastHeard_append broker events _
  | settleCheck now updated =>
    exact (tracked.settleCheck now updated).of_lastHeard fun broker =>
      lastHeard_append broker events _
  | send job now settled updated =>
    exact (tracked.send job now settled updated).of_lastHeard fun broker =>
      lastHeard_append broker events _

/-- Any run keeps the two records together. -/
theorem tracked_run (config : RoutingConfig) (events : List Event) :
    Tracked events (run config events) := by
  induction events using List.reverseRecOn with
  | nil => exact .start
  | append_singleton events e ih =>
    rw [run, List.foldl_append]
    exact ih.step e

/-- **The live set.** After each update the router has exactly the brokers that were heard of within the
liveness time: each was inserted once since it was last erased, and only absent brokers were inserted
and present ones erased. Where brokers share no points they are the ones on the ring. A job is sent to
one of them, or else `send` throws and sends nothing; it throws while settling and when there is no
such broker, and settled it sends the job as soon as one of them is on the ring.

The hash and the points are arguments. That every live broker is on the ring is not established where
points are shared: a broker whose points are all taken is alive and gets no job. -/
theorem router_is_live_set (config : RoutingConfig) (events : List Event) :
    let s := run config events
    (∀ now, let updated := s.update now
      (∀ broker, broker ∈ present updated.changes ↔ Alive config events now broker) ∧
      WellUsed updated.changes ∧
      (∀ broker ∈ present updated.changes, insertions broker updated.changes = 1) ∧
      updated.backend.ring = config.hash.run updated.changes ∧
      (0 < config.hash.repeats → config.hash.Spread (updated.changes.map Op.value) →
        ∀ broker, (∃ entry ∈ config.hash.run updated.changes, entry.2 = broker) ↔
          Alive config events now broker)) ∧
    (∀ job now settled updated, let result := s.send job now settled updated
      (∀ broker, result.2 = .ok broker →
        Alive config events updated broker ∧ result.1.sent = s.sent ++ [(broker, job)]) ∧
      (∀ text, result.2 = .error text → result.1.sent = s.sent) ∧
      (s.backend.settling now = true ∨ (∀ broker, ¬ Alive config events updated broker) →
        ∃ text, result.2 = .error text) ∧
      (s.backend.settling now = false →
        (∃ entry ∈ result.1.ring, Alive config events updated entry.2) →
          ∃ broker, result.2 = .ok broker)) := by
  intro s
  have htracked : Tracked events s := tracked_run config events
  refine ⟨?_, ?_⟩
  · intro now updated
    obtain ⟨hupdate, hpresent⟩ := htracked.update now
    refine ⟨hpresent, hupdate.used, fun broker => (hupdate.used.insertions_eq broker).1, hupdate.ring,
      fun pointed spread broker => ?_⟩
    rw [← hpresent broker]
    constructor
    · rintro ⟨entry, hentry, rfl⟩
      exact (mem_run entry hentry).1
    · intro hbroker
      obtain ⟨p, hp⟩ := List.exists_mem_of_ne_nil _ (points_ne_nil pointed broker)
      exact ⟨(p, broker), ((holds_run spread).mem_iff _).mpr ⟨hbroker, hp⟩, rfl⟩
  · intro job now settled updated result
    cases hsettling : s.backend.settling now with
    | true =>
      have hresult : result = _ := send_settling hsettling job settled updated
      rw [hresult]
      refine ⟨fun broker hbroker => ?_, fun _ _ => sent_settleCheck s now settled, fun _ => ⟨_, rfl⟩,
        fun hdone => ?_⟩
      · cases hbroker
      · cases hdone
    | false =>
      have halive := (htracked.settleCheck now settled).alive_of_mem_ring updated
      have hresult : result = _ := send_settled hsettling job settled updated
      have hsent : ((s.settleCheck now settled).1.update updated).sent = s.sent :=
        sent_settleCheck s now settled
      rw [hresult]
      dsimp only
      cases hlookup : HashConfig.lookup config.combine.hashValue job
          ((s.settleCheck now settled).1.update updated).backend.ring with
      | none =>
        refine ⟨fun broker hbroker => ?_, fun _ _ => hsent, fun _ => ⟨_, rfl⟩, fun _ hlive => ?_⟩
        · cases hbroker
        · -- a search that finds nothing was in an empty ring
          obtain ⟨entry, hentry, _⟩ := hlive
          have hempty := Wheel.find_eq_none_iff.mp (Option.map_eq_none_iff.mp hlookup)
          exact absurd hempty (List.ne_nil_of_mem hentry)
      | some broker =>
        obtain ⟨entry, hfind, rfl⟩ := Option.map_eq_some_iff.mp hlookup
        have hbroker := halive entry (Wheel.mem_of_find hfind)
        refine ⟨fun id hid => ?_, fun text htext => ?_, fun h => ?_, fun _ _ => ⟨_, rfl⟩⟩
        · obtain rfl := Except.ok.inj hid
          exact ⟨hbroker, congrArg (· ++ [(entry.2, job)]) hsent⟩
        · cases htext
        · rcases h with h | h
          · cases h
          · exact absurd hbroker (h entry.2)

/-- One point for each broker, and a hash of tiles that is always 0. -/
def onePoint : RoutingConfig where
  hash :=
    { repeats := 1
      valHash := fun broker => BitVec.ofNat 64 broker.length
      draw := fun seed _ => seed }
  combine := { ofString := fun seed _ => seed, ofInt := fun seed _ => seed }

/-- A broker is heard of, and a job comes. -/
def heardAndSent : List Event :=
  [.heartbeat "a" 0#64 1, .send { x := 1, y := 2, z := 4 } 2 2 2]

/-- The job is sent to the broker, which was inserted for it, and later ones are as well. -/
theorem job_is_sent :
    ((run onePoint heardAndSent).sent.map Prod.fst = ["a"] ∧
      insertions "a" (run onePoint heardAndSent).changes = 1) ∧
    ∃ broker, ((run onePoint heardAndSent).send { x := 8, y := 2, z := 4 } 3 3 3).2 = .ok broker := by
  refine ⟨by decide, ((router_is_live_set onePoint heardAndSent).2 _ 3 3 3).2.2.2 rfl ?_⟩
  exact ⟨(_, "a"), .head _, 1, rfl, by decide⟩

end Routing

end RenderMq
