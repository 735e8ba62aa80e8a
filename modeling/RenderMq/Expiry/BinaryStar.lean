import RenderMq.Expiry.Store

/-!
# Two expiry servers

`expiry_server`: each of two servers keeps a state (`Fsm`), sends it to the other as a heartbeat, and
changes it by the heartbeats of the other and the requests of clients. Where the state machine refuses an
event the server leaves its loop and is gone.

The two servers with the heartbeats under way between them are a `BinaryStar`. Heartbeats arrive in the
order they were sent, at any time. Each reading of the clock is an argument.

Without faults one server ends up active and the other passive, and neither is ever refused a heartbeat
(`fault_free_is_consistent`).
-/

namespace RenderMq

/-! ## The state machine -/

/-- `state_t`. -/
inductive ServerState where
  | primary
  | backup
  | active
  | passive
  deriving DecidableEq, Repr

/-- `event_t`. -/
inductive FsmEvent where
  | peerPrimary
  | peerBackup
  | peerActive
  | peerPassive
  | clientRequest
  deriving DecidableEq, Repr

/-- A heartbeat carries a state, and is read as the event of the same number. -/
def FsmEvent.ofPeer : ServerState → FsmEvent
  | .primary => .peerPrimary
  | .backup => .peerBackup
  | .active => .peerActive
  | .passive => .peerPassive

/-- `HEARTBEAT`, in microseconds, as all times here. -/
def HEARTBEAT : Int := 1000000

/-- `expiry_server::fsm`. The time at which the peer counts as gone is not set at first. -/
structure Fsm where
  state : ServerState
  peerExpiry : Option Int := none
  deriving DecidableEq, Repr

/-- Nothing was heard from the peer for two heartbeats. -/
def Fsm.peerExpired (m : Fsm) (now : Int) : Bool :=
  match m.peerExpiry with
  | some t => decide (now ≥ t)
  | none => false

/-- The state after an event, and whether the event is a good one. -/
def Fsm.next (m : Fsm) (now : Int) (ev : FsmEvent) : ServerState × Bool :=
  match m.state, ev with
  | .primary, .peerBackup => (.active, true)
  | .primary, .peerActive => (.passive, true)
  | .backup, .peerActive => (.passive, true)
  | .backup, .clientRequest => (.backup, false)
  | .active, .peerActive => (.active, false)
  | .passive, .peerPrimary => (.active, true)
  | .passive, .peerBackup => (.active, true)
  | .passive, .peerPassive => (.passive, false)
  | .passive, .clientRequest => if m.peerExpired now then (.active, true) else (.passive, false)
  | state, _ => (state, true)

/-- `event`. -/
def Fsm.event (m : Fsm) (now : Int) (ev : FsmEvent) : Fsm × Bool :=
  let (state, statusOk) := m.next now ev
  let peerExpiry :=
    if statusOk = true ∧ ev ≠ .clientRequest then some (now + 2 * HEARTBEAT) else m.peerExpiry
  ({ state, peerExpiry }, statusOk)

@[simp] theorem Fsm.event_snd (m : Fsm) (now : Int) (ev : FsmEvent) :
    (m.event now ev).2 = (m.next now ev).2 := rfl

/-- A backup refuses a request. -/
theorem Fsm.next_backup {m : Fsm} (hbackup : m.state = .backup) (now : Int) :
    m.next now .clientRequest = (.backup, false) := by
  obtain ⟨state, expiry⟩ := m
  obtain rfl : state = .backup := hbackup
  rfl

/-- A passive server refuses a request while its peer is not taken for gone. -/
theorem Fsm.next_passive {m : Fsm} {now : Int} (hpassive : m.state = .passive)
    (hpresent : m.peerExpired now = false) : m.next now .clientRequest = (.passive, false) := by
  obtain ⟨state, expiry⟩ := m
  obtain rfl : state = .passive := hpassive
  unfold next
  dsimp only
  rw [hpresent]
  rfl

/-! ## One server -/

/-- `expiry_server`, and whether it is in its loop. -/
structure ExpiryServer where
  fsm : Fsm
  running : Bool := true
  expired : ExpiryData := {}

namespace ExpiryServer

/-- A heartbeat of the peer. -/
def hear (srv : ExpiryServer) (now : Int) (state : ServerState) : ExpiryServer :=
  let (fsm, ok) := srv.fsm.event now (.ofPeer state)
  { srv with fsm, running := ok }

/-- A request of a client, and the response if it is not refused. -/
def request (srv : ExpiryServer) (now : Int) (req : ExpiryRequest) :
    Option (ExpiryServer × Option Bool) :=
  let (fsm, ok) := srv.fsm.event now .clientRequest
  if ok then do
    let (expired, response) ← srv.expired.handle req
    return ({ srv with fsm, expired }, some response)
  else
    some ({ srv with fsm, running := false }, none)

/-- An active server that can answer. -/
def isActive (srv : ExpiryServer) : Prop := srv.running = true ∧ srv.fsm.state = .active

/-- A request moves the state machine, and stops the server when it is refused. -/
theorem request_spec {srv srv' : ExpiryServer} {now : Int} {req : ExpiryRequest}
    {response : Option Bool} (h : srv.request now req = some (srv', response)) :
    srv'.fsm.state = (srv.fsm.next now .clientRequest).1 ∧
      srv'.running = (srv.running && (srv.fsm.next now .clientRequest).2) ∧
      response.isSome = (srv.fsm.next now .clientRequest).2 := by
  unfold request at h
  cases hok : (srv.fsm.next now .clientRequest).2 with
  | true =>
    have hevent : (srv.fsm.event now .clientRequest).2 = true := hok
    simp only [hevent, if_true] at h
    obtain ⟨⟨expired, answer⟩, _, hnext⟩ := Option.bind_eq_some_iff.mp h
    obtain ⟨rfl, rfl⟩ := Prod.mk.inj (Option.some.inj hnext)
    exact ⟨rfl, (Bool.and_true _).symm, rfl⟩
  | false =>
    have hevent : (srv.fsm.event now .clientRequest).2 = false := hok
    simp only [hevent, Bool.false_eq_true, if_false] at h
    obtain ⟨rfl, rfl⟩ := Prod.mk.inj (Option.some.inj h)
    exact ⟨rfl, (Bool.and_false _).symm, rfl⟩

/-- A request that is not refused is handled by the store. -/
theorem request_expired {srv srv' : ExpiryServer} {now : Int} {req : ExpiryRequest}
    {response : Option Bool} (h : srv.request now req = some (srv', response)) :
    (response = none ∧ srv'.expired = srv.expired) ∨
      ∃ answer, response = some answer ∧ srv.expired.handle req = some (srv'.expired, answer) := by
  unfold request at h
  dsimp only at h
  split at h
  · obtain ⟨⟨expired, answer⟩, hhandle, hnext⟩ := Option.bind_eq_some_iff.mp h
    obtain ⟨rfl, rfl⟩ := Prod.mk.inj (Option.some.inj hnext)
    exact .inr ⟨answer, rfl, hhandle⟩
  · obtain ⟨rfl, rfl⟩ := Prod.mk.inj (Option.some.inj h)
    exact .inl ⟨rfl, rfl⟩

end ExpiryServer

/-! ## Two servers -/

/-- Which of the two. -/
inductive Side where
  | primary
  | backup
  deriving DecidableEq, Repr

def Side.other : Side → Side
  | .primary => .backup
  | .backup => .primary

/-- How a server is started. -/
def Side.initState : Side → ServerState
  | .primary => .primary
  | .backup => .backup

/-- One thing for each side. -/
structure Pair (α : Type) where
  primary : α
  backup : α

namespace Pair

variable {α : Type}

def get (p : Pair α) : Side → α
  | .primary => p.primary
  | .backup => p.backup

def set (p : Pair α) : Side → α → Pair α
  | .primary, a => { p with primary := a }
  | .backup, a => { p with backup := a }

@[simp] theorem get_set_self (p : Pair α) (side : Side) (a : α) : (p.set side a).get side = a := by
  cases side <;> rfl

end Pair

/-- Two servers, the heartbeats that are under way to each, and whether the peer of each has stopped
since its last heartbeat was read. -/
structure BinaryStar where
  servers : Pair ExpiryServer :=
    { primary := { fsm := { state := .primary } }, backup := { fsm := { state := .backup } } }
  inboxes : Pair (List ServerState) := { primary := [], backup := [] }
  peerStopped : Pair Bool := { primary := false, backup := false }

/-- What happens. -/
inductive StarEvent where
  /-- A server sends a heartbeat. -/
  | beat (side : Side)
  /-- A server reads a heartbeat. -/
  | hear (side : Side) (now : Int)
  /-- A client's request reaches a server. -/
  | request (side : Side) (now : Int) (req : ExpiryRequest)
  | stop (side : Side)
  | restart (side : Side)

namespace BinaryStar

/-- A server after something happened to it. -/
def put (sys : BinaryStar) (side : Side) (srv : ExpiryServer) : BinaryStar :=
  { sys with
    servers := sys.servers.set side srv
    peerStopped :=
      if srv.running then sys.peerStopped else sys.peerStopped.set side.other true }

theorem put_running {srv : ExpiryServer} (h : srv.running = true) (sys : BinaryStar) (side : Side) :
    sys.put side srv = { sys with servers := sys.servers.set side srv } := by
  rw [put, if_pos h]

def step (sys : BinaryStar) : StarEvent → Option BinaryStar
  | .beat side =>
    if (sys.servers.get side).running then
      some { sys with
        inboxes := sys.inboxes.set side.other
          (sys.inboxes.get side.other ++ [(sys.servers.get side).fsm.state]) }
    else none
  | .hear side now =>
    match (sys.servers.get side).running, sys.inboxes.get side with
    | true, state :: rest =>
      some ({ sys with
        inboxes := sys.inboxes.set side rest
        peerStopped := sys.peerStopped.set side false }.put side
          ((sys.servers.get side).hear now state))
    | _, _ => none
  | .request side now req =>
    if (sys.servers.get side).running then do
      let (srv, _) ← (sys.servers.get side).request now req
      return sys.put side srv
    else none
  | .stop side =>
    if (sys.servers.get side).running then
      some (sys.put side { sys.servers.get side with running := false })
    else none
  | .restart side =>
    if (sys.servers.get side).running then none
    else
      some { sys with
        servers := sys.servers.set side { fsm := { state := side.initState } }
        peerStopped := sys.peerStopped.set side false }

/-- What each kind of step does. -/
theorem step_cases {sys sys' : BinaryStar} {e : StarEvent} (h : sys.step e = some sys') :
    match e with
    | .beat side => (sys.servers.get side).running = true ∧
        sys' = { sys with
          inboxes := sys.inboxes.set side.other
            (sys.inboxes.get side.other ++ [(sys.servers.get side).fsm.state]) }
    | .hear side now => (sys.servers.get side).running = true ∧
        ∃ state rest, sys.inboxes.get side = state :: rest ∧
          sys' = { sys with
            inboxes := sys.inboxes.set side rest
            peerStopped := sys.peerStopped.set side false }.put side
              ((sys.servers.get side).hear now state)
    | .request side now req => (sys.servers.get side).running = true ∧
        ∃ srv response, (sys.servers.get side).request now req = some (srv, response) ∧
          sys' = sys.put side srv
    | .stop side => (sys.servers.get side).running = true ∧
        sys' = sys.put side { sys.servers.get side with running := false }
    | .restart side => (sys.servers.get side).running = false ∧
        sys' = { sys with
          servers := sys.servers.set side { fsm := { state := side.initState } }
          peerStopped := sys.peerStopped.set side false } := by
  cases e with
  | beat side =>
    rw [step] at h
    split at h
    · next hrunning => exact ⟨hrunning, (Option.some.inj h).symm⟩
    · cases h
  | hear side now =>
    rw [step] at h
    split at h
    · next state rest hrunning hinbox =>
      exact ⟨hrunning, state, rest, hinbox, (Option.some.inj h).symm⟩
    · cases h
  | request side now req =>
    rw [step] at h
    split at h
    · next hrunning =>
      obtain ⟨⟨srv, response⟩, hrequest, hnext⟩ := Option.bind_eq_some_iff.mp h
      exact ⟨hrunning, srv, response, hrequest, (Option.some.inj hnext).symm⟩
    · cases h
  | stop side =>
    rw [step] at h
    split at h
    · next hrunning => exact ⟨hrunning, (Option.some.inj h).symm⟩
    · cases h
  | restart side =>
    rw [step] at h
    split at h
    · cases h
    · next hstopped => exact ⟨Bool.not_eq_true _ ▸ hstopped, (Option.some.inj h).symm⟩

/-! ## Without faults -/

/-- No server stops or is restarted, and clients ask the primary. -/
def FaultFree : StarEvent → Prop
  | .beat _ => True
  | .hear _ _ => True
  | .request side _ _ => side = .primary
  | .stop _ => False
  | .restart _ => False

/-- How far the two have come, by what they are and what is under way to the backup. -/
inductive Phase : ServerState → ServerState → List ServerState → Prop
  /-- The primary has not heard of the backup. -/
  | waiting {inbox : List ServerState} :
      (∀ m ∈ inbox, m = .primary) → Phase .primary .backup inbox
  /-- The primary is active, and the backup does not know. -/
  | ready {inbox : List ServerState} :
      (∀ m ∈ inbox, m = .primary ∨ m = .active) →
      inbox.Pairwise (fun m later => m = .active → later = .active) → Phase .active .backup inbox
  /-- The backup has heard it. -/
  | paired {inbox : List ServerState} :
      (∀ m ∈ inbox, m = .active) → Phase .active .passive inbox

/-- Both servers are in their loop and in a phase, and what is under way to the primary changes
nothing there once it is active. -/
structure Consistent (sys : BinaryStar) : Prop where
  running : ∀ side, (sys.servers.get side).running = true
  phase : Phase sys.servers.primary.fsm.state sys.servers.backup.fsm.state sys.inboxes.backup
  toPrimary : ∀ m ∈ sys.inboxes.primary, m = .backup ∨ m = .passive

/-- The backup sends what it is. -/
theorem Phase.backup {p b : ServerState} {inbox : List ServerState} (h : Phase p b inbox) :
    b = .backup ∨ b = .passive := by
  cases h with
  | waiting => exact .inl rfl
  | ready => exact .inl rfl
  | paired => exact .inr rfl

/-- The primary sends what it is. -/
theorem Phase.beat {p b : ServerState} {inbox : List ServerState} (h : Phase p b inbox) :
    Phase p b (inbox ++ [p]) := by
  cases h with
  | waiting hall =>
    refine .waiting fun m hm => ?_
    rcases List.mem_append.mp hm with hm | hm
    · exact hall m hm
    · exact List.mem_singleton.mp hm
  | ready hall horder =>
    refine .ready (fun m hm => ?_) (List.pairwise_append.mpr ⟨horder, List.pairwise_singleton _ _, ?_⟩)
    · rcases List.mem_append.mp hm with hm | hm
      · exact hall m hm
      · exact .inr (List.mem_singleton.mp hm)
    · intro m _ later hlater _
      exact List.mem_singleton.mp hlater
  | paired hall =>
    refine .paired fun m hm => ?_
    rcases List.mem_append.mp hm with hm | hm
    · exact hall m hm
    · exact List.mem_singleton.mp hm

/-- What the primary hears of the backup is good, and may make it active. -/
theorem Phase.hear_primary {m : Fsm} {b state : ServerState} {inbox : List ServerState}
    (h : Phase m.state b inbox) (hstate : state = .backup ∨ state = .passive) (now : Int) :
    (m.next now (.ofPeer state)).2 = true ∧ Phase (m.next now (.ofPeer state)).1 b inbox := by
  obtain ⟨mstate, expiry⟩ := m
  cases h with
  | waiting hall =>
    rcases hstate with rfl | rfl
    · refine ⟨rfl, .ready (fun m hm => .inl (hall m hm)) ?_⟩
      refine List.pairwise_of_forall_mem_list fun m hm later _ hactive => ?_
      rw [hall m hm] at hactive
      cases hactive
    · exact ⟨rfl, .waiting hall⟩
  | ready hall horder => rcases hstate with rfl | rfl <;> exact ⟨rfl, .ready hall horder⟩
  | paired hall => rcases hstate with rfl | rfl <;> exact ⟨rfl, .paired hall⟩

/-- What the backup hears of the primary is good, and may make it passive. -/
theorem Phase.hear_backup {m : Fsm} {p state : ServerState} {rest : List ServerState}
    (h : Phase p m.state (state :: rest)) (now : Int) :
    (m.next now (.ofPeer state)).2 = true ∧ Phase p (m.next now (.ofPeer state)).1 rest := by
  obtain ⟨mstate, expiry⟩ := m
  cases h with
  | waiting hall =>
    obtain ⟨rfl, hrest⟩ := List.forall_mem_cons.mp hall
    exact ⟨rfl, .waiting hrest⟩
  | ready hall horder =>
    obtain ⟨hfirst, hrest⟩ := List.forall_mem_cons.mp hall
    obtain ⟨hlater, hordered⟩ := List.pairwise_cons.mp horder
    rcases hfirst with rfl | rfl
    · exact ⟨rfl, .ready hrest hordered⟩
    · exact ⟨rfl, .paired fun m hm => hlater m hm rfl⟩
  | paired hall =>
    obtain ⟨rfl, hrest⟩ := List.forall_mem_cons.mp hall
    exact ⟨rfl, .paired hrest⟩

/-- A request to the primary is served. -/
theorem Phase.request_primary {m : Fsm} {b : ServerState} {inbox : List ServerState}
    (h : Phase m.state b inbox) (now : Int) :
    m.next now .clientRequest = (m.state, true) := by
  obtain ⟨mstate, expiry⟩ := m
  cases h <;> rfl

section Step

variable {sys sys' : BinaryStar}

theorem Consistent.beat {side : Side} (h : Consistent sys)
    (hstep : sys.step (.beat side) = some sys') : Consistent sys' := by
  obtain ⟨_, rfl⟩ := step_cases hstep
  cases side with
  | primary => exact ⟨h.running, h.phase.beat, h.toPrimary⟩
  | backup =>
    refine ⟨h.running, h.phase, fun m hm => ?_⟩
    rcases List.mem_append.mp hm with hm | hm
    · exact h.toPrimary m hm
    · rw [List.mem_singleton.mp hm]
      exact h.phase.backup

theorem Consistent.hear {side : Side} {now : Int} (h : Consistent sys)
    (hstep : sys.step (.hear side now) = some sys') : Consistent sys' := by
  obtain ⟨_, state, rest, hinbox, rfl⟩ := step_cases hstep
  cases side with
  | primary =>
    have hprimary : ∀ m ∈ state :: rest, m = .backup ∨ m = .passive := hinbox ▸ h.toPrimary
    obtain ⟨hfirst, hrest⟩ := List.forall_mem_cons.mp hprimary
    obtain ⟨hok, hphase⟩ := h.phase.hear_primary hfirst now
    refine ⟨fun side => ?_, hphase, hrest⟩
    cases side with
    | primary => exact hok
    | backup => exact h.running .backup
  | backup =>
    have hphase := h.phase
    rw [show sys.inboxes.backup = state :: rest from hinbox] at hphase
    obtain ⟨hok, hphase⟩ := hphase.hear_backup now
    refine ⟨fun side => ?_, hphase, h.toPrimary⟩
    cases side with
    | primary => exact h.running .primary
    | backup => exact hok

/-- Requests reach the primary only, and it serves them. -/
theorem Consistent.request {now : Int} {req : ExpiryRequest} (h : Consistent sys)
    (hstep : sys.step (.request .primary now req) = some sys') : Consistent sys' := by
  obtain ⟨_, srv, response, hrequest, rfl⟩ := step_cases hstep
  obtain ⟨hstate, hrunning, _⟩ := ExpiryServer.request_spec hrequest
  have hnext : (sys.servers.get .primary).fsm.next now .clientRequest =
    (sys.servers.primary.fsm.state, true) := h.phase.request_primary now
  rw [hnext] at hstate hrunning
  refine ⟨fun side => ?_, ?_, h.toPrimary⟩
  · cases side with
    | primary =>
      refine hrunning.trans ?_
      rw [h.running .primary]
      rfl
    | backup => exact h.running .backup
  · have hphase := h.phase
    rw [← show srv.fsm.state = sys.servers.primary.fsm.state from hstate] at hphase
    exact hphase

/-- One event without fault. -/
theorem Consistent.step {e : StarEvent} (h : Consistent sys) (faultFree : FaultFree e)
    (hstep : sys.step e = some sys') : Consistent sys' := by
  cases e with
  | beat side => exact h.beat hstep
  | hear side now => exact h.hear hstep
  | request side now req =>
    obtain rfl : side = .primary := faultFree
    exact h.request hstep
  | stop side => exact faultFree.elim
  | restart side => exact faultFree.elim

end Step

theorem consistent_start : Consistent {} := by
  refine ⟨fun side => ?_, .waiting fun m hm => absurd hm List.not_mem_nil,
    fun m hm => absurd hm List.not_mem_nil⟩
  cases side <;> rfl

/-- **Without faults** the two servers are never both active and never both passive, and neither is
refused a heartbeat.

A run is without faults if no server stops or is restarted and clients ask the primary. Heartbeats are
sent and read in any interleaving and lie in the inboxes for any time. That one of the servers becomes
active at all is not established. -/
theorem fault_free_is_consistent {events : List StarEvent}
    (faultFree : ∀ e ∈ events, FaultFree e) {sys : BinaryStar}
    (hrun : Run.run BinaryStar.step {} events = some sys) :
    (¬ ∀ side, (sys.servers.get side).fsm.state = .active) ∧
    (¬ ∀ side, (sys.servers.get side).fsm.state = .passive) ∧
    (∀ side state rest now, sys.inboxes.get side = state :: rest →
      ((sys.servers.get side).fsm.event now (.ofPeer state)).2 = true) := by
  have hstep : ∀ (s : BinaryStar) (e : StarEvent) (t : BinaryStar), Consistent s → FaultFree e →
      s.step e = some t → Consistent t := fun _ _ _ => Consistent.step
  have hconsistent : Consistent sys := Run.run_invariant_of_events hstep events {} sys
    consistent_start faultFree hrun
  have hphase := hconsistent.phase
  refine ⟨fun hactive => ?_, fun hpassive => ?_, fun side state rest now hinbox => ?_⟩
  · have hbackup : sys.servers.backup.fsm.state = .active := hactive .backup
    rcases hphase.backup with h | h <;> rw [h] at hbackup <;> cases hbackup
  · have hprimary : sys.servers.primary.fsm.state = .passive := hpassive .primary
    rw [hprimary] at hphase
    cases hphase
  · cases side with
    | primary =>
      have hmem : state ∈ sys.inboxes.primary := by
        rw [show sys.inboxes.primary = state :: rest from hinbox]
        exact List.mem_cons_self
      exact (hphase.hear_primary (hconsistent.toPrimary state hmem) now).1
    | backup =>
      rw [show sys.inboxes.backup = state :: rest from hinbox] at hphase
      exact (hphase.hear_backup now).1

/-- The two find each other, and the primary answers a request. -/
theorem primary_becomes_active :
    ∃ sys, Run.run BinaryStar.step {} [.beat .backup, .hear .primary 0, .beat .primary,
        .hear .backup 10, .request .primary 20 (.get {}), .beat .primary] = some sys ∧
      sys.servers.primary.fsm.state = .active ∧
      (¬ ∀ side, (sys.servers.get side).fsm.state = .active) ∧
      ((sys.servers.get .backup).fsm.event 30 .peerActive).2 = true := by
  let events : List StarEvent := [.beat .backup, .hear .primary 0, .beat .primary,
    .hear .backup 10, .request .primary 20 (.get {}), .beat .primary]
  have faultFree : ∀ e ∈ events, FaultFree e := by
    simp [events, FaultFree]
  have hrun : Run.run BinaryStar.step {} events = some _ := rfl
  obtain ⟨hactive, _, hheard⟩ := fault_free_is_consistent faultFree hrun
  exact ⟨_, hrun, rfl, hactive, hheard .backup .active [] 30 rfl⟩

end BinaryStar

end RenderMq
