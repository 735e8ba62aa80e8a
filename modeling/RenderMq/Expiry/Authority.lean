import RenderMq.Expiry.BinaryStar

/-!
# One authority

While one of the two expiry servers is active the other is to refuse requests (`Refuses`). The primary may
stop and be restarted; a passive server takes the other for gone only if it is (`Allowed`).

A server that is restarted as primary answers requests, although the other is active. And a heartbeat
that was sent before the restart may be read after it, as if it were of now. Where neither happens
(`Settled`), the refusals are as they should be: `one_server_has_authority`.
-/

namespace RenderMq

namespace BinaryStar

/-! ## What is asked, and what may happen -/

/-- A request that reaches a server while the other is active is refused. -/
def Refuses (sys : BinaryStar) : StarEvent → Prop
  | .request side now _ => (sys.servers.get side).running = true →
      (sys.servers.get side.other).isActive →
        ((sys.servers.get side).fsm.event now .clientRequest).2 = false
  | _ => True

/-- Only the primary stops and is restarted, and a passive server takes the other for gone only when it
has stopped since it was last heard of. -/
def Allowed (sys : BinaryStar) : StarEvent → Prop
  | .request side now _ => (sys.servers.get side).fsm.state = .passive →
      (sys.servers.get side).fsm.peerExpired now = true →
      (sys.servers.get side.other).running = false ∨ sys.peerStopped.get side = true
  | .stop side => side = .primary
  | .restart side => side = .primary
  | _ => True

/-- A heartbeat that changes the state of the server that reads it is not out of date: if its sender is
in its loop, it is in the state that it said. -/
def UpToDate (sys : BinaryStar) : StarEvent → Prop
  | .hear side now => ∀ state rest, sys.inboxes.get side = state :: rest →
      ((sys.servers.get side).fsm.next now (.ofPeer state)).1 ≠ (sys.servers.get side).fsm.state →
      (sys.servers.get side).running = true → (sys.servers.get side.other).running = true →
        (sys.servers.get side.other).fsm.state = state
  | _ => True

/-- Heartbeats that matter are up to date, and no request reaches a server that is still in
`state_primary` while the other is active. -/
def Settled (sys : BinaryStar) (e : StarEvent) : Prop :=
  UpToDate sys e ∧ ∀ side now req, e = .request side now req →
    (sys.servers.get side).fsm.state = .primary → ¬ (sys.servers.get side.other).isActive

/-! ## One server at a time -/

/-- A server that is not a fresh backup does not become one. -/
theorem next_ne_backup {m : Fsm} (h : m.state ≠ .backup) (now : Int) (ev : FsmEvent) :
    (m.next now ev).1 ≠ .backup := by
  obtain ⟨state, expiry⟩ := m
  unfold Fsm.next
  cases state <;> cases ev <;> dsimp only at h ⊢ <;> first | decide | exact h | (split <;> decide)

/-- A server that is not a fresh primary does not become one. -/
theorem next_ne_primary {m : Fsm} (h : m.state ≠ .primary) (now : Int) (ev : FsmEvent) :
    (m.next now ev).1 ≠ .primary := by
  obtain ⟨state, expiry⟩ := m
  unfold Fsm.next
  cases state <;> cases ev <;> dsimp only at h ⊢ <;> first | decide | exact h | (split <;> decide)

/-! ## The two together -/

/-- What the two are while both run, and whether the primary and the backup may take the other for
gone. -/
inductive Joint : ServerState → ServerState → Bool → Bool → Prop
  /-- The primary has started. -/
  | starting {b : ServerState} {gone gone' : Bool} : b ≠ .primary → Joint .primary b gone gone'
  /-- The primary is active, and the backup has not heard it. -/
  | leading {gone gone' : Bool} : Joint .active .backup gone gone'
  /-- The backup has heard it. -/
  | led {gone : Bool} : Joint .active .passive gone false
  /-- The backup is active, and the primary has heard it. -/
  | following {gone' : Bool} : Joint .passive .active false gone'

/-- The two servers: at most one is active. -/
structure Authority (sys : BinaryStar) : Prop where
  primary : sys.servers.primary.fsm.state ≠ .backup
  backup : sys.servers.backup.fsm.state ≠ .primary
  joint : sys.servers.primary.running = true → sys.servers.backup.running = true →
    Joint sys.servers.primary.fsm.state sys.servers.backup.fsm.state sys.peerStopped.primary
      sys.peerStopped.backup

section Joint

variable {p b state : ServerState} {gone gone' : Bool} {m : Fsm} {now : Int}

/-- The primary hears the backup. -/
theorem Joint.hear_primary (h : Joint m.state b gone gone')
    (upToDate : (m.next now (.ofPeer state)).1 ≠ m.state → b = state)
    (ok : (m.next now (.ofPeer state)).2 = true) :
    Joint (m.next now (.ofPeer state)).1 b false gone' := by
  obtain ⟨mstate, expiry⟩ := m
  cases h with
  | starting hb =>
    cases state with
    | backup =>
      have hchange : ServerState.active ≠ .primary := by decide
      obtain rfl := upToDate hchange
      exact .leading
    | active =>
      have hchange : ServerState.passive ≠ .primary := by decide
      obtain rfl := upToDate hchange
      exact .following
    | primary => exact .starting hb
    | passive => exact .starting hb
  | leading =>
    cases state with
    | active => cases ok
    | _ => exact .leading
  | led =>
    cases state with
    | active => cases ok
    | _ => exact .led
  | following =>
    have hchange : ServerState.active ≠ .passive := by decide
    cases state with
    | active => exact .following
    | passive => cases ok
    | primary => cases upToDate hchange
    | backup => cases upToDate hchange

/-- The backup hears the primary. -/
theorem Joint.hear_backup (h : Joint p m.state gone gone')
    (upToDate : (m.next now (.ofPeer state)).1 ≠ m.state → p = state)
    (ok : (m.next now (.ofPeer state)).2 = true) :
    Joint p (m.next now (.ofPeer state)).1 gone false := by
  obtain ⟨mstate, expiry⟩ := m
  cases h with
  | starting hb => exact .starting (next_ne_primary hb now _)
  | leading => cases state <;> first | exact .leading | exact .led
  | led =>
    have hchange : ServerState.active ≠ .passive := by decide
    cases state with
    | active => exact .led
    | passive => cases ok
    | primary => cases upToDate hchange
    | backup => cases upToDate hchange
  | following =>
    cases state with
    | active => cases ok
    | _ => exact .following

/-- A passive server that serves a request has lost its peer. -/
theorem gone_of_served (hpassive : m.state = .passive)
    (allowed : m.state = .passive → m.peerExpired now = true → gone = true)
    (ok : (m.next now .clientRequest).2 = true) : gone = true := by
  cases hexpired : m.peerExpired now with
  | true => exact allowed hpassive hexpired
  | false =>
    rw [Fsm.next_passive hpassive hexpired] at ok
    cases ok

/-- The primary takes a request. -/
theorem Joint.request_primary (h : Joint m.state b gone gone')
    (allowed : m.state = .passive → m.peerExpired now = true → gone = true)
    (ok : (m.next now .clientRequest).2 = true) :
    Joint (m.next now .clientRequest).1 b gone gone' := by
  obtain ⟨mstate, expiry⟩ := m
  cases h with
  | starting hb => exact .starting hb
  | leading => exact .leading
  | led => exact .led
  | following => cases gone_of_served rfl allowed ok

/-- The backup takes a request. -/
theorem Joint.request_backup (h : Joint p m.state gone gone')
    (allowed : m.state = .passive → m.peerExpired now = true → gone' = true)
    (ok : (m.next now .clientRequest).2 = true) :
    Joint p (m.next now .clientRequest).1 gone gone' := by
  obtain ⟨mstate, expiry⟩ := m
  cases h with
  | starting hb => exact .starting (next_ne_primary hb now _)
  | leading => cases ok
  | led => cases gone_of_served rfl allowed ok
  | following => exact .following

end Joint

/-! ## Any step -/

theorem Authority.start : Authority {} := by
  have hprimary : ServerState.primary ≠ .backup := by decide
  exact ⟨hprimary, hprimary.symm, fun _ _ => .starting hprimary.symm⟩

theorem Authority.hear {sys : BinaryStar} (h : Authority sys) {side : Side} {now : Int}
    {state : ServerState} {rest : List ServerState} (hrunning : (sys.servers.get side).running = true)
    (hinbox : sys.inboxes.get side = state :: rest) (upToDate : UpToDate sys (.hear side now)) :
    Authority ({ sys with
      inboxes := sys.inboxes.set side rest
      peerStopped := sys.peerStopped.set side false }.put side
        ((sys.servers.get side).hear now state)) := by
  have hchange := upToDate state rest hinbox
  cases side with
  | primary =>
    refine ⟨next_ne_backup h.primary now _, h.backup, fun hp hb => ?_⟩
    have hok : ((sys.servers.get .primary).hear now state).running = true := hp
    rw [put_running hok]
    exact (h.joint hrunning hb).hear_primary (fun hne => hchange hne hrunning hb) hok
  | backup =>
    refine ⟨h.primary, next_ne_primary h.backup now _, fun hp hb => ?_⟩
    have hok : ((sys.servers.get .backup).hear now state).running = true := hb
    rw [put_running hok]
    exact (h.joint hp hrunning).hear_backup (fun hne => hchange hne hrunning hp) hok

theorem Authority.request {sys : BinaryStar} (h : Authority sys) {side : Side} {now : Int}
    {req : ExpiryRequest} {srv : ExpiryServer} {response : Option Bool}
    (hrunning : (sys.servers.get side).running = true)
    (hrequest : (sys.servers.get side).request now req = some (srv, response))
    (allowed : Allowed sys (.request side now req)) : Authority (sys.put side srv) := by
  obtain ⟨hstate, hok, _⟩ := ExpiryServer.request_spec hrequest
  rw [hrunning, Bool.true_and] at hok
  cases side with
  | primary =>
    have hstate : srv.fsm.state = (sys.servers.primary.fsm.next now .clientRequest).1 := hstate
    refine ⟨fun heq => ?_, h.backup, fun hp hb => ?_⟩
    · exact next_ne_backup h.primary now .clientRequest (hstate.symm.trans heq)
    · have hsrv : srv.running = true := hp
      have hgone : (sys.servers.get .primary).fsm.state = .passive →
          (sys.servers.get .primary).fsm.peerExpired now = true → sys.peerStopped.primary = true :=
        fun hpassive hexpired => (allowed hpassive hexpired).resolve_left fun hstopped =>
          absurd (hb.symm.trans hstopped) (by decide)
      rw [put_running hsrv]
      have hjoint := (h.joint hrunning hb).request_primary hgone (hok.symm.trans hsrv)
      rw [← hstate] at hjoint
      exact hjoint
  | backup =>
    have hstate : srv.fsm.state = (sys.servers.backup.fsm.next now .clientRequest).1 := hstate
    refine ⟨h.primary, fun heq => ?_, fun hp hb => ?_⟩
    · exact next_ne_primary h.backup now .clientRequest (hstate.symm.trans heq)
    · have hsrv : srv.running = true := hb
      have hgone : (sys.servers.get .backup).fsm.state = .passive →
          (sys.servers.get .backup).fsm.peerExpired now = true → sys.peerStopped.backup = true :=
        fun hpassive hexpired => (allowed hpassive hexpired).resolve_left fun hstopped =>
          absurd (hp.symm.trans hstopped) (by decide)
      rw [put_running hsrv]
      have hjoint := (h.joint hp hrunning).request_backup hgone (hok.symm.trans hsrv)
      rw [← hstate] at hjoint
      exact hjoint

/-- **One step** keeps the invariant. -/
theorem Authority.step {sys sys' : BinaryStar} {e : StarEvent} (h : Authority sys)
    (allowed : Allowed sys e) (upToDate : UpToDate sys e) (hstep : sys.step e = some sys') :
    Authority sys' := by
  have hcases := step_cases hstep
  cases e with
  | beat side =>
    obtain ⟨_, rfl⟩ := hcases
    exact ⟨h.primary, h.backup, h.joint⟩
  | hear side now =>
    obtain ⟨hrunning, state, rest, hinbox, rfl⟩ := hcases
    exact h.hear hrunning hinbox upToDate
  | request side now req =>
    obtain ⟨hrunning, srv, response, hrequest, rfl⟩ := hcases
    exact h.request hrunning hrequest allowed
  | stop side =>
    obtain ⟨_, rfl⟩ := hcases
    obtain rfl : side = .primary := allowed
    exact ⟨h.primary, h.backup, fun hp _ => by cases hp⟩
  | restart side =>
    obtain ⟨_, rfl⟩ := hcases
    obtain rfl : side = .primary := allowed
    have hprimary : ServerState.primary ≠ .backup := by decide
    exact ⟨hprimary, h.backup, fun _ _ => .starting h.backup⟩

/-! ## Who answers -/

/-- With the invariant, a request that may happen is refused by all but the active server. -/
theorem Authority.refuses {sys : BinaryStar} {e : StarEvent} (h : Authority sys)
    (allowed : Allowed sys e) (settled : Settled sys e) : Refuses sys e := by
  cases e with
  | request side now req =>
    intro hself hother
    -- a server that is passive has not taken the active one for gone
    have hpassive : (sys.servers.get side).fsm.state = .passive → sys.peerStopped.get side = false →
        ((sys.servers.get side).fsm.event now .clientRequest).2 = false := by
      intro hstate hpresent
      cases hexpired : (sys.servers.get side).fsm.peerExpired now with
      | true =>
        rcases allowed hstate hexpired with hstopped | hgone
        · exact absurd (hother.1.symm.trans hstopped) (by decide)
        · exact absurd (hpresent.symm.trans hgone) (by decide)
      | false => rw [Fsm.event_snd, Fsm.next_passive hstate hexpired]
    cases side with
    | primary =>
      have hactive : sys.servers.backup.fsm.state = .active := hother.2
      have hjoint := h.joint hself hother.1
      generalize hp : sys.servers.primary.fsm.state = p at hjoint
      generalize hgone : sys.peerStopped.primary = gone at hjoint
      rw [hactive] at hjoint
      cases hjoint with
      | starting => exact absurd hother (settled.2 .primary now req rfl hp)
      | following => exact hpassive hp hgone
    | backup =>
      have hactive : sys.servers.primary.fsm.state = .active := hother.2
      have hjoint := h.joint hother.1 hself
      generalize hb : sys.servers.backup.fsm.state = b at hjoint
      generalize hgone : sys.peerStopped.backup = gone' at hjoint
      rw [hactive] at hjoint
      cases hjoint with
      | leading =>
        have hbackup : (sys.servers.get .backup).fsm.state = .backup := hb
        rw [Fsm.event_snd, Fsm.next_backup hbackup]
      | led => exact hpassive hb hgone
  | _ => trivial

/-- **One authority.** In every run in which only the primary stops and is restarted, servers are taken
for gone only when they are, no state changes by a heartbeat that is out of date, and no request reaches
a server in `state_primary` while the other is active: each request that reaches a server while the
other is active is refused.

Heartbeats wait in inboxes for any time, and clients ask either server at any time. Only that these
conditions are enough is established; a heartbeat that is out of date need not do any harm. -/
theorem one_server_has_authority (events : List StarEvent)
    (run : Run.EveryStep BinaryStar.step (fun sys e => Allowed sys e ∧ Settled sys e) {} events) :
    Run.EveryStep BinaryStar.step Refuses {} events := by
  have implied : ∀ (sys : BinaryStar) (e : StarEvent), Authority sys →
      Allowed sys e ∧ Settled sys e → Refuses sys e :=
    fun _ _ h hstep => h.refuses hstep.1 hstep.2
  have preserved : ∀ (sys : BinaryStar) (e : StarEvent) (sys' : BinaryStar), Authority sys →
      Allowed sys e ∧ Settled sys e → sys.step e = some sys' → Authority sys' :=
    fun _ _ _ h hstep => h.step hstep.1 hstep.2.1
  exact Run.everyStep_of_invariant implied preserved events {} Authority.start run

/-- The two find each other, and the passive one refuses a request. -/
theorem passive_backup_refuses :
    Run.EveryStep BinaryStar.step Refuses {} [.beat .backup, .hear .primary 0, .beat .primary,
      .hear .backup 10, .request .backup 20 (.get {})] := by
  refine one_server_has_authority _ ?_
  have hquiet : ∀ (sys : BinaryStar) (e : StarEvent), (∀ side now req, e ≠ .request side now req) →
      UpToDate sys e → Settled sys e :=
    fun _ _ hother hupToDate => ⟨hupToDate, fun side now req h => absurd h (hother side now req)⟩
  refine Run.everyStep_cons rfl ⟨trivial, hquiet _ _ (fun _ _ _ h => by cases h) trivial⟩ ?_
  refine Run.everyStep_cons rfl ⟨trivial, hquiet _ _ (fun _ _ _ h => by cases h) ?_⟩ ?_
  · intro state rest hinbox _ _ _
    cases hinbox
    rfl
  refine Run.everyStep_cons rfl ⟨trivial, hquiet _ _ (fun _ _ _ h => by cases h) trivial⟩ ?_
  refine Run.everyStep_cons rfl ⟨trivial, hquiet _ _ (fun _ _ _ h => by cases h) ?_⟩ ?_
  · intro state rest hinbox _ _ _
    cases hinbox
    rfl
  refine Run.everyStep_cons rfl ⟨?_, trivial, ?_⟩ trivial
  · intro _ hexpired
    cases hexpired
  · intro side now req h hprimary
    cases h
    cases hprimary

/-- The primary stops, the backup takes over, and the primary is restarted. It answers a request while the
backup is active. -/
theorem restarted_primary_answers :
    let events : List StarEvent := [.beat .backup, .hear .primary 0, .beat .primary, .hear .backup 10,
      .stop .primary, .request .backup 3000000 (.get {}), .restart .primary,
      .request .primary 3000010 (.get {})]
    Run.EveryStep BinaryStar.step Allowed {} events ∧
      ¬ Run.EveryStep BinaryStar.step Refuses {} events := by
  intro events
  constructor
  · refine Run.everyStep_cons rfl trivial (Run.everyStep_cons rfl trivial ?_)
    refine Run.everyStep_cons rfl trivial (Run.everyStep_cons rfl trivial ?_)
    refine Run.everyStep_cons rfl rfl (Run.everyStep_cons rfl (fun _ _ => .inl rfl) ?_)
    refine Run.everyStep_cons rfl rfl (Run.everyStep_cons rfl (fun hpassive => ?_) trivial)
    cases hpassive
  · intro hevery
    let before : List StarEvent := [.beat .backup, .hear .primary 0, .beat .primary, .hear .backup 10,
      .stop .primary, .request .backup 3000000 (.get {}), .restart .primary]
    have hrefused := Run.EveryStep.at_event before hevery rfl
    have habsurd : true = false := hrefused rfl ⟨rfl, rfl⟩
    cases habsurd

end BinaryStar

end RenderMq
