import RenderMq.Expiry.Authority

/-!
# Heartbeats in order

The heartbeats from one expiry server to the other arrive in the order they were sent, so that a server
may hear of a state long after its peer has left it. That does no harm while the peer goes on: a
heartbeat that changes the state of its reader is still true (`heartbeats_up_to_date`). It is only when
the primary is restarted that one from before may be read as if it were of now, and so the restarts are
to be clean (`CleanRestart`).
-/

namespace RenderMq

namespace BinaryStar

/-- When the primary is restarted nothing is under way that was overtaken: no "active" to a backup that
has not heard it, and no "backup" from one that is so no more. -/
def CleanRestart (sys : BinaryStar) : StarEvent → Prop
  | .restart _ =>
      (sys.servers.backup.fsm.state = .backup → .active ∉ sys.inboxes.backup) ∧
      (sys.servers.backup.fsm.state ≠ .backup → .backup ∉ sys.inboxes.primary)
  | _ => True

/-- How far a backup has come. It never goes back, for it is not restarted. -/
def rank : ServerState → Nat
  | .primary => 0
  | .backup => 1
  | .passive => 2
  | .active => 3

/-- What is under way to the primary and to the backup while both run, by what the two are. -/
inductive Underway : ServerState → ServerState → List ServerState → List ServerState →
    Prop
  /-- The primary has started, and the backup has not heard of an active one. -/
  | meeting {toPrimary toBackup : List ServerState} :
      .active ∉ toBackup → Underway .primary .backup toPrimary toBackup
  /-- The primary was restarted, and the backup went on. -/
  | restarted {b : ServerState} {toPrimary toBackup : List ServerState} :
      b = .passive ∨ b = .active → .backup ∉ toPrimary →
      Underway .primary b toPrimary toBackup
  /-- The primary is active, and the backup has not heard it. -/
  | leading {toPrimary toBackup : List ServerState} :
      toBackup.Pairwise (fun m later => m = .active → later ≠ .primary) →
      Underway .active .backup toPrimary toBackup
  /-- The backup has heard it. -/
  | led {toPrimary toBackup : List ServerState} :
      .primary ∉ toBackup → Underway .active .passive toPrimary toBackup
  /-- The backup is active, and the primary has heard it. -/
  | following {toPrimary toBackup : List ServerState} :
      (∀ m ∈ toPrimary, m = .active) → Underway .passive .active toPrimary toBackup

/-- The two servers with what is under way. The heartbeats of the backup rise as it does. -/
structure Timely (sys : BinaryStar) : Prop where
  authority : Authority sys
  toBackup : .backup ∉ sys.inboxes.backup
  rising : sys.inboxes.primary.Pairwise fun m later => rank m ≤ rank later
  bounded : ∀ m ∈ sys.inboxes.primary, rank m ≤ rank sys.servers.backup.fsm.state
  underway : sys.servers.primary.running = true → sys.servers.backup.running = true →
    Underway sys.servers.primary.fsm.state sys.servers.backup.fsm.state sys.inboxes.primary
      sys.inboxes.backup

/-- A backup only rises. -/
theorem rank_next {m : Fsm} (h : m.state ≠ .primary) (now : Int) (ev : FsmEvent) :
    rank m.state ≤ rank (m.next now ev).1 := by
  obtain ⟨state, expiry⟩ := m
  unfold Fsm.next
  cases state <;> cases ev <;> dsimp only at h ⊢ <;>
    first | decide | exact absurd rfl h | (split <;> decide)

section Underway

variable {p b state : ServerState} {toPrimary toBackup rest : List ServerState}
  {m : Fsm} {now : Int}

theorem Underway.beat_primary (h : Underway p b toPrimary toBackup) :
    Underway p b toPrimary (toBackup ++ [p]) := by
  cases h with
  | meeting hno => exact .meeting (by simp [hno])
  | restarted hb hno => exact .restarted hb hno
  | leading horder =>
    refine .leading (List.pairwise_append.mpr ⟨horder, List.pairwise_singleton _ _, ?_⟩)
    intro m _ later hlater _
    rw [List.mem_singleton.mp hlater]
    decide
  | led hno => exact .led (by simp [hno])
  | following hall => exact .following hall

theorem Underway.beat_backup (h : Underway p b toPrimary toBackup) :
    Underway p b (toPrimary ++ [b]) toBackup := by
  cases h with
  | meeting hno => exact .meeting hno
  | restarted hb hno =>
    refine .restarted hb fun hmem => ?_
    rcases List.mem_append.mp hmem with hmem | hmem
    · exact hno hmem
    · rw [← List.mem_singleton.mp hmem] at hb
      rcases hb with h | h <;> cases h
  | leading horder => exact .leading horder
  | led hno => exact .led hno
  | following hall =>
    refine .following fun m hm => ?_
    rcases List.mem_append.mp hm with hm | hm
    · exact hall m hm
    · exact List.mem_singleton.mp hm

/-- The primary hears the backup. -/
theorem Underway.hear_primary (h : Underway m.state b (state :: rest) toBackup)
    (rising : (state :: rest).Pairwise fun m later => rank m ≤ rank later)
    (bounded : ∀ s ∈ state :: rest, rank s ≤ rank b)
    (ok : (m.next now (.ofPeer state)).2 = true) :
    Underway (m.next now (.ofPeer state)).1 b rest toBackup := by
  obtain ⟨mstate, expiry⟩ := m
  cases h with
  | meeting hno =>
    have hstate := bounded state List.mem_cons_self
    cases state with
    | backup =>
      refine .leading (List.pairwise_of_forall_mem_list fun s hs later _ hactive => ?_)
      exact absurd (hactive ▸ hs) hno
    | active => exact absurd hstate (by decide)
    | primary => exact .meeting hno
    | passive => exact .meeting hno
  | restarted hb hno =>
    have hrest : ServerState.backup ∉ rest := fun hmem => hno (List.mem_cons_of_mem _ hmem)
    cases state with
    | backup => exact absurd List.mem_cons_self hno
    | active =>
      have hb : b = .active := by
        have hstate := bounded .active List.mem_cons_self
        rcases hb with rfl | rfl
        · exact absurd hstate (by decide)
        · rfl
      subst hb
      refine .following fun s hs => ?_
      have hrank := (List.pairwise_cons.mp rising).1 s hs
      cases s <;> first | rfl | exact absurd hrank (by decide)
    | primary => exact .restarted hb hrest
    | passive => exact .restarted hb hrest
  | leading horder =>
    cases state with
    | active => cases ok
    | primary => exact .leading horder
    | backup => exact .leading horder
    | passive => exact .leading horder
  | led hno =>
    cases state with
    | active => cases ok
    | primary => exact .led hno
    | backup => exact .led hno
    | passive => exact .led hno
  | following hall =>
    obtain ⟨rfl, hrest⟩ := List.forall_mem_cons.mp hall
    exact .following hrest

/-- The backup hears the primary. -/
theorem Underway.hear_backup (h : Underway p m.state toPrimary (state :: rest))
    (fresh : state ≠ .backup) (ok : (m.next now (.ofPeer state)).2 = true) :
    Underway p (m.next now (.ofPeer state)).1 toPrimary rest := by
  obtain ⟨mstate, expiry⟩ := m
  cases h with
  | meeting hno =>
    have hrest : ServerState.active ∉ rest := fun hmem => hno (List.mem_cons_of_mem _ hmem)
    cases state with
    | active => exact absurd List.mem_cons_self hno
    | backup => exact absurd rfl fresh
    | primary => exact .meeting hrest
    | passive => exact .meeting hrest
  | restarted hb hno =>
    dsimp only at hb
    rcases hb with rfl | rfl
    · cases state with
      | primary => exact .restarted (.inr rfl) hno
      | backup => exact absurd rfl fresh
      | active => exact .restarted (.inl rfl) hno
      | passive => cases ok
    · cases state with
      | primary => exact .restarted (.inr rfl) hno
      | backup => exact absurd rfl fresh
      | active => cases ok
      | passive => exact .restarted (.inr rfl) hno
  | leading horder =>
    obtain ⟨hlater, hordered⟩ := List.pairwise_cons.mp horder
    cases state with
    | active => exact .led fun hmem => hlater .primary hmem rfl rfl
    | backup => exact absurd rfl fresh
    | primary => exact .leading hordered
    | passive => exact .leading hordered
  | led hno =>
    have hrest : ServerState.primary ∉ rest := fun hmem => hno (List.mem_cons_of_mem _ hmem)
    cases state with
    | active => exact .led hrest
    | backup => exact absurd rfl fresh
    | primary => exact absurd List.mem_cons_self hno
    | passive => cases ok
  | following hall =>
    cases state with
    | active => cases ok
    | backup => exact absurd rfl fresh
    | primary => exact .following hall
    | passive => exact .following hall

/-- A passive server that takes a request leads then, or is passive still. -/
theorem next_request_of_passive (expiry : Option Int) (now : Int) :
    ((Fsm.mk .passive expiry).next now .clientRequest).1 = .active ∨
      ((Fsm.mk .passive expiry).next now .clientRequest).1 = .passive := by
  unfold Fsm.next
  dsimp only
  split
  · exact .inl rfl
  · exact .inr rfl

/-- The primary takes a request. -/
theorem Underway.request_primary {gone gone' : Bool} (h : Underway m.state b toPrimary toBackup)
    (joint : Joint (m.next now .clientRequest).1 b gone gone') :
    Underway (m.next now .clientRequest).1 b toPrimary toBackup := by
  obtain ⟨mstate, expiry⟩ := m
  cases h with
  | meeting hno => exact .meeting hno
  | restarted hb hno => exact .restarted hb hno
  | leading horder => exact .leading horder
  | led hno => exact .led hno
  | following hall =>
    rcases next_request_of_passive expiry now with hnext | hnext
    · rw [hnext] at joint
      cases joint
    · rw [hnext]
      exact .following hall

/-- The backup takes a request. -/
theorem Underway.request_backup {gone gone' : Bool} (h : Underway p m.state toPrimary toBackup)
    (joint : Joint p (m.next now .clientRequest).1 gone gone') :
    Underway p (m.next now .clientRequest).1 toPrimary toBackup := by
  obtain ⟨mstate, expiry⟩ := m
  cases h with
  | meeting hno => exact .meeting hno
  | restarted hb hno =>
    dsimp only at hb
    rcases hb with rfl | rfl
    · exact .restarted (next_request_of_passive expiry now).symm hno
    · exact .restarted (.inr rfl) hno
  | leading horder => exact .leading horder
  | led hno =>
    rcases next_request_of_passive expiry now with hnext | hnext
    · rw [hnext] at joint
      cases joint
    · rw [hnext]
      exact .led hno
  | following hall => exact .following hall

/-- What the primary hears is true, if it changes anything. -/
theorem Underway.true_of_primary (h : Underway m.state b (state :: rest) toBackup)
    (bounded : rank state ≤ rank b) (change : (m.next now (.ofPeer state)).1 ≠ m.state) :
    b = state := by
  obtain ⟨mstate, expiry⟩ := m
  cases h with
  | meeting =>
    cases state with
    | backup => rfl
    | active => exact absurd bounded (by decide)
    | _ => exact absurd rfl change
  | restarted hb hno =>
    cases state with
    | backup => exact absurd List.mem_cons_self hno
    | active =>
      rcases hb with rfl | rfl
      · exact absurd bounded (by decide)
      · rfl
    | _ => exact absurd rfl change
  | leading => cases state <;> exact absurd rfl change
  | led => cases state <;> exact absurd rfl change
  | following hall =>
    obtain ⟨rfl, _⟩ := List.forall_mem_cons.mp hall
    rfl

/-- What the backup hears is true, if it changes anything. -/
theorem Underway.true_of_backup (h : Underway p m.state toPrimary (state :: rest))
    (fresh : state ≠ .backup) (change : (m.next now (.ofPeer state)).1 ≠ m.state) : p = state := by
  obtain ⟨mstate, expiry⟩ := m
  cases h with
  | meeting hno =>
    cases state with
    | active => exact absurd List.mem_cons_self hno
    | _ => exact absurd rfl change
  | restarted hb =>
    dsimp only at hb
    rcases hb with rfl | rfl
    · cases state with
      | primary => rfl
      | backup => exact absurd rfl fresh
      | _ => exact absurd rfl change
    · cases state <;> exact absurd rfl change
  | leading =>
    cases state with
    | active => rfl
    | _ => exact absurd rfl change
  | led hno =>
    cases state with
    | primary => exact absurd List.mem_cons_self hno
    | backup => exact absurd rfl fresh
    | _ => exact absurd rfl change
  | following => cases state <;> exact absurd rfl change

end Underway

/-! ## Any step -/

/-- With what is under way in order, a heartbeat that matters is up to date. -/
theorem Timely.upToDate {sys : BinaryStar} (h : Timely sys) (e : StarEvent) : UpToDate sys e := by
  cases e with
  | hear side now =>
    intro state rest hinbox hchange hself hother
    cases side with
    | primary =>
      have hinbox : sys.inboxes.primary = state :: rest := hinbox
      have hunderway := h.underway hself hother
      have hbounded := h.bounded
      rw [hinbox] at hunderway hbounded
      exact hunderway.true_of_primary (hbounded state List.mem_cons_self) hchange
    | backup =>
      have hinbox : sys.inboxes.backup = state :: rest := hinbox
      have hunderway := h.underway hother hself
      have hfresh := h.toBackup
      rw [hinbox] at hunderway hfresh
      exact hunderway.true_of_backup (fun heq => hfresh (heq ▸ List.mem_cons_self)) hchange
  | _ => trivial

theorem Timely.start : Timely {} := by
  refine ⟨.start, List.not_mem_nil, List.Pairwise.nil, ?_, fun _ _ => .meeting List.not_mem_nil⟩
  exact fun m hm => absurd hm List.not_mem_nil

/-- The heartbeats from the backup after one more. -/
theorem Timely.rising_beat {sys : BinaryStar} (h : Timely sys) :
    (sys.inboxes.primary ++ [sys.servers.backup.fsm.state]).Pairwise
        (fun m later => rank m ≤ rank later) ∧
      ∀ m ∈ sys.inboxes.primary ++ [sys.servers.backup.fsm.state],
        rank m ≤ rank sys.servers.backup.fsm.state := by
  constructor
  · refine List.pairwise_append.mpr ⟨h.rising, List.pairwise_singleton _ _, ?_⟩
    intro m hm later hlater
    rw [List.mem_singleton.mp hlater]
    exact h.bounded m hm
  · intro m hm
    rcases List.mem_append.mp hm with hm | hm
    · exact h.bounded m hm
    · rw [List.mem_singleton.mp hm]

section Step

variable {sys sys' : BinaryStar} {side : Side} {now : Int} {req : ExpiryRequest}

theorem Timely.beat (h : Timely sys) (authority : Authority sys')
    (hstep : sys.step (.beat side) = some sys') : Timely sys' := by
  obtain ⟨_, rfl⟩ := step_cases hstep
  cases side with
  | primary =>
    refine ⟨authority, fun hmem => ?_, h.rising, h.bounded,
      fun hp hb => (h.underway hp hb).beat_primary⟩
    rcases List.mem_append.mp hmem with hmem | hmem
    · exact h.toBackup hmem
    · exact h.authority.primary (List.mem_singleton.mp hmem).symm
  | backup =>
    exact ⟨authority, h.toBackup, h.rising_beat.1, h.rising_beat.2,
      fun hp hb => (h.underway hp hb).beat_backup⟩

theorem Timely.hear (h : Timely sys) (authority : Authority sys')
    (hstep : sys.step (.hear side now) = some sys') : Timely sys' := by
  obtain ⟨hrunning, state, rest, hinbox, rfl⟩ := step_cases hstep
  cases side with
  | primary =>
    have hinbox : sys.inboxes.primary = state :: rest := hinbox
    have hrising := h.rising
    have hbounded := h.bounded
    rw [hinbox] at hrising hbounded
    refine ⟨authority, h.toBackup, (List.pairwise_cons.mp hrising).2,
      (List.forall_mem_cons.mp hbounded).2, fun hp hb => ?_⟩
    have hunderway := h.underway hrunning hb
    rw [hinbox] at hunderway
    exact hunderway.hear_primary hrising hbounded hp
  | backup =>
    have hinbox : sys.inboxes.backup = state :: rest := hinbox
    have hfresh := h.toBackup
    rw [hinbox, List.mem_cons, not_or] at hfresh
    refine ⟨authority, hfresh.2, h.rising, fun m hm => ?_, fun hp hb => ?_⟩
    · exact (h.bounded m hm).trans (rank_next h.authority.backup now _)
    · have hunderway := h.underway hp hrunning
      rw [hinbox] at hunderway
      exact hunderway.hear_backup (Ne.symm hfresh.1) hb

theorem Timely.request (h : Timely sys) (authority : Authority sys')
    (hstep : sys.step (.request side now req) = some sys') : Timely sys' := by
  obtain ⟨hrunning, srv, response, hrequest, rfl⟩ := step_cases hstep
  have hstate := (ExpiryServer.request_spec hrequest).1
  cases side with
  | primary =>
    have hnext : (sys.put .primary srv).servers.primary.fsm.state =
      (sys.servers.primary.fsm.next now .clientRequest).1 := hstate
    refine ⟨authority, h.toBackup, h.rising, h.bounded, fun hp hb => ?_⟩
    have hjoint := authority.joint hp hb
    rw [hnext] at hjoint ⊢
    exact (h.underway hrunning hb).request_primary hjoint
  | backup =>
    have hnext : (sys.put .backup srv).servers.backup.fsm.state =
      (sys.servers.backup.fsm.next now .clientRequest).1 := hstate
    refine ⟨authority, h.toBackup, h.rising, fun m hm => ?_, fun hp hb => ?_⟩
    · rw [hnext]
      exact (h.bounded m hm).trans (rank_next h.authority.backup now _)
    · have hjoint := authority.joint hp hb
      rw [hnext] at hjoint ⊢
      exact (h.underway hp hrunning).request_backup hjoint

/-- A clean restart: what the backup is tells what can be under way. -/
theorem Timely.restart (h : Timely sys) (authority : Authority sys')
    (clean : CleanRestart sys (.restart .primary)) (hstep : sys.step (.restart .primary) = some sys') :
    Timely sys' := by
  obtain ⟨_, rfl⟩ := step_cases hstep
  refine ⟨authority, h.toBackup, h.rising, h.bounded, fun _ _ => ?_⟩
  obtain ⟨hfresh, hlater⟩ := clean
  show Underway .primary sys.servers.backup.fsm.state _ _
  cases hstate : sys.servers.backup.fsm.state with
  | primary => exact absurd hstate h.authority.backup
  | backup => exact .meeting (hfresh hstate)
  | active => exact .restarted (.inr rfl) (hlater (by rw [hstate]; decide))
  | passive => exact .restarted (.inl rfl) (hlater (by rw [hstate]; decide))

/-- One step, from a state that heartbeats are in order in, keeps them in order. -/
theorem Timely.step {e : StarEvent} (h : Timely sys) (allowed : Allowed sys e)
    (clean : CleanRestart sys e) (hstep : sys.step e = some sys') : Timely sys' := by
  have authority := h.authority.step allowed (h.upToDate e) hstep
  cases e with
  | beat side => exact h.beat authority hstep
  | hear side now => exact h.hear authority hstep
  | request side now req => exact h.request authority hstep
  | stop side =>
    obtain ⟨_, rfl⟩ := step_cases hstep
    obtain rfl : side = .primary := allowed
    exact ⟨authority, h.toBackup, h.rising, h.bounded, fun hp _ => by cases hp⟩
  | restart side =>
    obtain rfl : side = .primary := allowed
    exact h.restart authority clean hstep

end Step

/-- **In order.** In every run in which only the primary stops, and is restarted when nothing under way
was overtaken, and servers are taken for gone only when they are, no state changes by a heartbeat that
is out of date. -/
theorem heartbeats_up_to_date (events : List StarEvent)
    (run : Run.EveryStep BinaryStar.step (fun sys e => Allowed sys e ∧ CleanRestart sys e) {} events) :
    Run.EveryStep BinaryStar.step UpToDate {} events := by
  have implied : ∀ (sys : BinaryStar) (e : StarEvent), Timely sys →
      Allowed sys e ∧ CleanRestart sys e → UpToDate sys e := fun _ e h _ => h.upToDate e
  have preserved : ∀ (sys : BinaryStar) (e : StarEvent) (sys' : BinaryStar), Timely sys →
      Allowed sys e ∧ CleanRestart sys e → sys.step e = some sys' → Timely sys' :=
    fun _ _ _ h hstep => h.step hstep.1 hstep.2
  exact Run.everyStep_of_invariant implied preserved events {} Timely.start run

/-- The primary is restarted while its "active" and a second "backup" are under way: each server is made
active by what it hears. -/
theorem overtaken_heartbeats_make_two_active :
    ∃ sys, Run.run BinaryStar.step {} [.beat .backup, .beat .backup, .hear .primary 0, .beat .primary,
        .stop .primary, .restart .primary, .beat .primary, .hear .backup 10, .hear .primary 20,
        .hear .backup 30] = some sys ∧
      ∀ side, (sys.servers.get side).isActive := by
  refine ⟨_, rfl, fun side => ?_⟩
  cases side <;> exact ⟨rfl, rfl⟩

end BinaryStar

end RenderMq
