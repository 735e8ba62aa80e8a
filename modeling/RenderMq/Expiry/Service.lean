import RenderMq.Expiry.BinaryStar

/-!
# Clients of the two expiry servers

`expiry_service`: a client asks one of the two expiry servers at a time. When no reply comes it drops its
connection, turns to the other server and asks again. What it left behind may still reach the first
server; a reply to it reaches nobody.

What a server was told it alone knows: the servers send each other their states and nothing else. So what
one has acknowledged the other may deny (`failover_forgets`). While the server that acknowledged it
answers, it stands (`acknowledged_stays_expired`).

Each call has a number, in the order of the calls. A request, a reply and an answer bear the number of
their call.
-/

namespace RenderMq

/-! ## State -/

/-- `expiry_service`, and the call that it waits for. A connection is a socket of its own. -/
structure ExpiryClient where
  server : Side := .primary
  connection : Nat := 0
  waiting : Option (Nat × ExpiryRequest) := none

/-- A request on its way to a server, or lying there. -/
structure ServiceRequest where
  client : Nat
  connection : Nat
  server : Side
  call : Nat
  request : ExpiryRequest
  deriving DecidableEq

/-- A reply on its way back. -/
structure ServiceReply where
  asked : ServiceRequest
  response : Bool
  deriving DecidableEq

/-- A call that has returned, and the number that the next call had then. -/
structure ServiceAnswer where
  reply : ServiceReply
  before : Nat
  deriving DecidableEq

structure ExpirySystem where
  star : BinaryStar := {}
  clients : Nat → ExpiryClient := fun _ => {}
  requests : List ServiceRequest := []
  replies : List ServiceReply := []
  answers : List ServiceAnswer := []
  nextCall : Nat := 0

/-- What happens. -/
inductive ServiceEvent where
  | beat (side : Side)
  | hear (side : Side) (now : Int)
  | stop (side : Side)
  /-- A client calls `is_expired` or `set_expired`. -/
  | call (client : Nat) (req : ExpiryRequest)
  /-- A client has waited long enough. -/
  | failover (client : Nat)
  /-- A request that is under way reaches its server. -/
  | serve (i : Nat) (now : Int)
  /-- A reply that is under way reaches its client. -/
  | receive (i : Nat)

namespace ExpirySystem

/-! ## Steps -/

/-- A client asks the server that it is connected to. -/
def ask (s : ExpirySystem) (client : Nat) (c : ExpiryClient) (call : Nat) (req : ExpiryRequest) :
    ExpirySystem :=
  { s with
    clients := Function.update s.clients client { c with waiting := some (call, req) }
    requests := { client, connection := c.connection, server := c.server, call, request := req } ::
      s.requests }

def step (s : ExpirySystem) : ServiceEvent → Option ExpirySystem
  | .beat side => (s.star.step (.beat side)).map fun star => { s with star }
  | .hear side now => (s.star.step (.hear side now)).map fun star => { s with star }
  | .stop side => (s.star.step (.stop side)).map fun star => { s with star }
  | .call client req =>
    match (s.clients client).waiting with
    | none => some { s.ask client (s.clients client) s.nextCall req with nextCall := s.nextCall + 1 }
    | some _ => none
  | .failover client =>
    match (s.clients client).waiting with
    | none => none
    | some (call, req) =>
      let c := s.clients client
      some (s.ask client { c with server := c.server.other, connection := c.connection + 1 } call req)
  | .serve i now => do
    let p ← s.requests[i]?
    let srv := s.star.servers.get p.server
    if srv.running then
      let (srv, response) ← srv.request now p.request
      return { s with
        star := s.star.put p.server srv
        requests := s.requests.eraseIdx i
        replies := (response.toList.map fun response => { asked := p, response }) ++ s.replies }
    else none
  | .receive i => do
    let r ← s.replies[i]?
    let c := s.clients r.asked.client
    if c.connection = r.asked.connection ∧ c.waiting = some (r.asked.call, r.asked.request) then
      return { s with
        clients := Function.update s.clients r.asked.client { c with waiting := none }
        replies := s.replies.eraseIdx i
        answers := { reply := r, before := s.nextCall } :: s.answers }
    else
      return { s with replies := s.replies.eraseIdx i }

/-! ## What is asked and what is known -/

/-- A request is to set a metatile expired, by its key. -/
def Sets (k : StyleAndFormat × BitVec 32) (req : ExpiryRequest) : Prop :=
  ∃ u, req = .set u true ∧ ExpiryData.key u = k

/-- A request is to set a metatile not expired. -/
def Erases (k : StyleAndFormat × BitVec 32) (req : ExpiryRequest) : Prop :=
  ∃ u, req = .set u false ∧ ExpiryData.key u = k

/-- A request asks if a metatile is expired. -/
def Asks (k : StyleAndFormat × BitVec 32) (req : ExpiryRequest) : Prop :=
  ∃ u, req = .get u ∧ ExpiryData.key u = k

/-- A call is under way: its client waits for it, or a request for it lies at a server or is on its
way there. -/
def Open (s : ExpirySystem) (call : Nat) (req : ExpiryRequest) : Prop :=
  (∃ client, (s.clients client).waiting = some (call, req)) ∨
    ∃ p ∈ s.requests, p.call = call ∧ p.request = req

/-- The replies that servers have given. -/
def given (s : ExpirySystem) : List ServiceReply := s.replies ++ s.answers.map ServiceAnswer.reply

theorem reply_given {s : ExpirySystem} {a : ServiceAnswer} (ha : a ∈ s.answers) :
    a.reply ∈ s.given :=
  List.mem_append_right _ (List.mem_map_of_mem ha)

/-- A server knows that a metatile is expired. -/
def Knows (s : ExpirySystem) (side : Side) (k : StyleAndFormat × BitVec 32) : Prop :=
  ∀ u, ExpiryData.key u = k → (s.star.servers.get side).expired.lookup u = true

/-- A client calls to set a metatile not expired. -/
def CallErases (k : StyleAndFormat × BitVec 32) : ServiceEvent → Prop
  | .call _ req => Erases k req
  | _ => False

section Handle

variable {k : StyleAndFormat × BitVec 32} {d d' : ExpiryData} {req : ExpiryRequest} {answer : Bool}

theorem handle_keeps (h : d.handle req = some (d', answer)) (quiet : ¬ Erases k req)
    (known : ∀ u, ExpiryData.key u = k → d.lookup u = true) :
    ∀ u, ExpiryData.key u = k → d'.lookup u = true := by
  intro u hu
  rw [ExpiryData.lookup_handle h u]
  cases req with
  | get w => exact known u hu
  | set w status =>
    rw [ExpiryData.marks]
    split
    · next heq =>
      cases status with
      | true => rfl
      | false => exact absurd ⟨w, rfl, heq.symm.trans hu⟩ quiet
    · exact known u hu

theorem handle_sets (h : d.handle req = some (d', answer)) (sets : Sets k req) :
    ∀ u, ExpiryData.key u = k → d'.lookup u = true := by
  obtain ⟨w, rfl, hw⟩ := sets
  intro u hu
  rw [ExpiryData.lookup_handle h u, ExpiryData.marks, if_pos (hu.trans hw.symm)]
  rfl

theorem handle_asks (h : d.handle req = some (d', answer)) (asks : Asks k req)
    (known : ∀ u, ExpiryData.key u = k → d.lookup u = true) : answer = true := by
  obtain ⟨w, rfl, hw⟩ := asks
  obtain ⟨_, rfl⟩ := Prod.mk.inj (Option.some.inj h)
  exact known w hw

end Handle

/-! ## What each kind of step does -/

theorem open_ask {s : ExpirySystem} {client : Nat} {c : ExpiryClient} {call call' : Nat}
    {req req' : ExpiryRequest} (h : (s.ask client c call req).Open call' req') :
    s.Open call' req' ∨ (call' = call ∧ req' = req) := by
  rcases h with ⟨other, hwaiting⟩ | ⟨p, hp, hcall, hreq⟩
  · unfold ask at hwaiting
    dsimp only at hwaiting
    by_cases hother : other = client
    · rw [hother, Function.update_self] at hwaiting
      obtain ⟨hcall, hreq⟩ := Prod.mk.inj (Option.some.inj hwaiting)
      exact .inr ⟨hcall.symm, hreq.symm⟩
    · rw [Function.update_of_ne hother] at hwaiting
      exact .inl (.inl ⟨other, hwaiting⟩)
  · rcases List.mem_cons.mp hp with rfl | hp
    · exact .inr ⟨hcall.symm, hreq.symm⟩
    · exact .inl (.inr ⟨p, hp, hcall, hreq⟩)

/-- Heartbeats and stops leave what the servers know. -/
theorem star_expired {star star' : BinaryStar} {e : StarEvent}
    (other : (∃ side, e = .beat side ∨ e = .stop side) ∨ ∃ side now, e = .hear side now)
    (h : star.step e = some star') (side : Side) :
    (star'.servers.get side).expired = (star.servers.get side).expired := by
  have hcases := BinaryStar.step_cases h
  rcases other with ⟨which, rfl | rfl⟩ | ⟨which, now, rfl⟩
  · obtain ⟨_, rfl⟩ := hcases
    rfl
  · obtain ⟨_, rfl⟩ := hcases
    cases which <;> cases side <;> rfl
  · obtain ⟨_, state, rest, _, rfl⟩ := hcases
    cases which <;> cases side <;> rfl

/-- What any step does: only a call opens a call, and takes its number. A new reply is what a server's
store says to a request for an open call. A call that returns has a reply that was given. A store changes
by a request for an open call alone. -/
structure Effect (s s' : ExpirySystem) (e : ServiceEvent) : Prop where
  nextCall : s.nextCall ≤ s'.nextCall
  opens : ∀ call req, s'.Open call req → s.Open call req ∨
    ∃ client, e = .call client req ∧ call = s.nextCall ∧ call < s'.nextCall
  given : ∀ r ∈ s'.given, r ∈ s.given ∨ (s.Open r.asked.call r.asked.request ∧
    (s.star.servers.get r.asked.server).expired.handle r.asked.request =
      some ((s'.star.servers.get r.asked.server).expired, r.response))
  answers : ∀ a ∈ s'.answers, a ∈ s.answers ∨ (a.before = s.nextCall ∧ a.reply ∈ s.given)
  stores : ∀ side, (s'.star.servers.get side).expired = (s.star.servers.get side).expired ∨
    ∃ call req answer, s.Open call req ∧
      (s.star.servers.get side).expired.handle req =
        some ((s'.star.servers.get side).expired, answer)

theorem Effect.of_star {s : ExpirySystem} {star : BinaryStar} (e : ServiceEvent)
    (same : ∀ side, (star.servers.get side).expired = (s.star.servers.get side).expired) :
    Effect s { s with star } e :=
  ⟨le_rfl, fun _ _ h => .inl h, fun _ h => .inl h, fun _ h => .inl h, fun side => .inl (same side)⟩

theorem effect_serve {s s' : ExpirySystem} {i : Nat} {now : Int}
    (h : s.step (.serve i now) = some s') : Effect s s' (.serve i now) := by
  obtain ⟨p, hp, h⟩ := Option.bind_eq_some_iff.mp h
  have hmem : p ∈ s.requests := List.mem_of_getElem? hp
  have hopen : s.Open p.call p.request := .inr ⟨p, hmem, rfl, rfl⟩
  dsimp only at h
  split at h
  · obtain ⟨⟨srv, response⟩, hrequest, hnext⟩ := Option.bind_eq_some_iff.mp h
    obtain rfl := Option.some.inj hnext
    have hexpired := ExpiryServer.request_expired hrequest
    have hstore : ((s.star.put p.server srv).servers.get p.server).expired = srv.expired := by
      rw [BinaryStar.put, Pair.get_set_self]
    refine ⟨le_rfl, fun call req h => .inl ?_, fun r hr => ?_, fun _ h => .inl h, fun side => ?_⟩
    · exact h.imp id fun hrequests => by
        obtain ⟨q, hq, hcall⟩ := hrequests
        exact ⟨q, List.mem_of_mem_eraseIdx hq, hcall⟩
    · rcases List.mem_append.mp hr with hr | hr
      · rcases List.mem_append.mp hr with hr | hr
        · obtain ⟨answer, hanswer, rfl⟩ := List.mem_map.mp hr
          rcases hexpired with ⟨rfl, _⟩ | ⟨answer', rfl, hhandle⟩
          · cases hanswer
          · obtain rfl := List.mem_singleton.mp hanswer
            refine .inr ⟨hopen, ?_⟩
            dsimp only
            rw [hstore]
            exact hhandle
        · exact .inl (List.mem_append_left _ hr)
      · exact .inl (List.mem_append_right _ hr)
    · by_cases hside : side = p.server
      · subst hside
        rcases hexpired with ⟨_, hsame⟩ | ⟨answer, _, hhandle⟩
        · exact .inl (hstore.trans hsame)
        · refine .inr ⟨p.call, p.request, answer, hopen, ?_⟩
          dsimp only
          rw [hstore]
          exact hhandle
      · refine .inl ?_
        dsimp only
        cases side <;> cases hserver : p.server <;>
          first | rfl | exact absurd hserver.symm hside
  · cases h

theorem effect_receive {s s' : ExpirySystem} {i : Nat} (h : s.step (.receive i) = some s') :
    Effect s s' (.receive i) := by
  obtain ⟨r, hr, h⟩ := Option.bind_eq_some_iff.mp h
  have hmem : r ∈ s.replies := List.mem_of_getElem? hr
  dsimp only at h
  split at h
  · obtain rfl := Option.some.inj h
    refine ⟨le_rfl, fun call req h => .inl ?_, fun r' hr' => .inl ?_, fun a ha => ?_,
      fun _ => .inl rfl⟩
    · refine h.imp (fun hwaiting => ?_) id
      obtain ⟨client, hwaiting⟩ := hwaiting
      dsimp only at hwaiting
      by_cases hclient : client = r.asked.client
      · rw [hclient, Function.update_self] at hwaiting
        cases hwaiting
      · rw [Function.update_of_ne hclient] at hwaiting
        exact ⟨client, hwaiting⟩
    · rcases List.mem_append.mp hr' with hr' | hr'
      · exact List.mem_append_left _ (List.mem_of_mem_eraseIdx hr')
      · rcases List.mem_cons.mp hr' with rfl | hr'
        · exact List.mem_append_left _ hmem
        · exact List.mem_append_right _ hr'
    · rcases List.mem_cons.mp ha with rfl | ha
      · exact .inr ⟨rfl, List.mem_append_left _ hmem⟩
      · exact .inl ha
  · obtain rfl := Option.some.inj h
    refine ⟨le_rfl, fun _ _ h => .inl h, fun r' hr' => .inl ?_, fun _ h => .inl h, fun _ => .inl rfl⟩
    rcases List.mem_append.mp hr' with hr' | hr'
    · exact List.mem_append_left _ (List.mem_of_mem_eraseIdx hr')
    · exact List.mem_append_right _ hr'

/-- **Any step** has these effects and no others. -/
theorem effect_step {s s' : ExpirySystem} {e : ServiceEvent} (h : s.step e = some s') :
    Effect s s' e := by
  cases e with
  | beat side =>
    obtain ⟨star, hstar, rfl⟩ := Option.map_eq_some_iff.mp h
    exact .of_star _ (star_expired (.inl ⟨side, .inl rfl⟩) hstar)
  | hear side now =>
    obtain ⟨star, hstar, rfl⟩ := Option.map_eq_some_iff.mp h
    exact .of_star _ (star_expired (.inr ⟨side, now, rfl⟩) hstar)
  | stop side =>
    obtain ⟨star, hstar, rfl⟩ := Option.map_eq_some_iff.mp h
    exact .of_star _ (star_expired (.inl ⟨side, .inr rfl⟩) hstar)
  | call client req =>
    rw [step] at h
    split at h
    · obtain rfl := Option.some.inj h
      refine ⟨Nat.le_succ _, fun call req' hopen => ?_, fun _ h => .inl h, fun _ h => .inl h,
        fun _ => .inl rfl⟩
      rcases open_ask hopen with hopen | ⟨rfl, rfl⟩
      · exact .inl hopen
      · exact .inr ⟨client, rfl, rfl, Nat.lt_succ_self _⟩
    · cases h
  | failover client =>
    rw [step] at h
    split at h
    · cases h
    · next call req hwaiting =>
      obtain rfl := Option.some.inj h
      refine ⟨le_rfl, fun call' req' hopen => .inl ?_, fun _ h => .inl h, fun _ h => .inl h,
        fun _ => .inl rfl⟩
      rcases open_ask hopen with hopen | ⟨rfl, rfl⟩
      · exact hopen
      · exact .inl ⟨client, hwaiting⟩
  | serve i now => exact effect_serve h
  | receive i => exact effect_receive h

/-! ## Numbers -/

/-- The calls so far have the numbers so far. -/
structure Numbered (s : ExpirySystem) : Prop where
  opened : ∀ call req, s.Open call req → call < s.nextCall
  given : ∀ r ∈ s.given, r.asked.call < s.nextCall

theorem Numbered.start : Numbered {} := by
  refine ⟨fun call req h => ?_, fun r hr => absurd hr List.not_mem_nil⟩
  rcases h with ⟨_, hwaiting⟩ | ⟨p, hp, _⟩
  · cases hwaiting
  · exact absurd hp List.not_mem_nil

theorem Numbered.step {s s' : ExpirySystem} {e : ServiceEvent} (h : Numbered s)
    (effect : Effect s s' e) : Numbered s' := by
  refine ⟨fun call req hopen => ?_, fun r hr => ?_⟩
  · rcases effect.opens call req hopen with hopen | ⟨_, _, _, hlt⟩
    · exact lt_of_lt_of_le (h.opened call req hopen) effect.nextCall
    · exact hlt
  · rcases effect.given r hr with hr | ⟨hopen, _⟩
    · exact lt_of_lt_of_le (h.given r hr) effect.nextCall
    · exact lt_of_lt_of_le (h.opened _ _ hopen) effect.nextCall

/-! ## After a call to set a metatile expired -/

/-- No call to set a metatile not expired is under way. -/
def Quiet (s : ExpirySystem) (k : StyleAndFormat × BitVec 32) : Prop :=
  ∀ call req, s.Open call req → ¬ Erases k req

/-- The server that has answered the call knows it, and says so to every call after that. -/
structure Kept (k : StyleAndFormat × BitVec 32) (n : Nat) (s : ExpirySystem) : Prop where
  numbered : Numbered s
  made : n < s.nextCall
  sets : ∀ req, s.Open n req → Sets k req
  quiet : s.Quiet k
  known : ∀ r ∈ s.given, r.asked.call = n → s.Knows r.asked.server k
  agree : ∀ a ∈ s.answers, a.reply.asked.call = n → ∀ r ∈ s.given, a.before ≤ r.asked.call →
    r.asked.server = a.reply.asked.server → Asks k r.asked.request → r.response = true

/-- A server that knows goes on to know. -/
theorem Kept.knows {k : StyleAndFormat × BitVec 32} {n : Nat} {s s' : ExpirySystem}
    {e : ServiceEvent} (h : Kept k n s) (effect : Effect s s' e) {side : Side}
    (known : s.Knows side k) : s'.Knows side k := by
  intro u hu
  rcases effect.stores side with hsame | ⟨call, req, answer, hopen, hhandle⟩
  · rw [hsame]
    exact known u hu
  · exact handle_keeps hhandle (h.quiet call req hopen) known u hu

/-- One step after the call. -/
theorem Kept.step {k : StyleAndFormat × BitVec 32} {n : Nat} {s s' : ExpirySystem}
    {e : ServiceEvent} (h : Kept k n s) (quiet : ¬ CallErases k e) (hstep : s.step e = some s') :
    Kept k n s' := by
  have effect := effect_step hstep
  refine ⟨h.numbered.step effect, lt_of_lt_of_le h.made effect.nextCall, fun req hopen => ?sets,
    fun call req hopen => ?quiet, fun r hr hcall => ?known,
    fun a ha hcall r hr hbefore hserver hasks => ?agree⟩
  case sets =>
    rcases effect.opens n req hopen with hopen | ⟨_, _, hnew, _⟩
    · exact h.sets req hopen
    · exact absurd hnew (ne_of_lt h.made)
  case quiet =>
    rcases effect.opens call req hopen with hopen | ⟨client, rfl, _⟩
    · exact h.quiet call req hopen
    · exact quiet
  case known =>
    rcases effect.given r hr with hr | ⟨hopen, hhandle⟩
    · exact h.knows effect (h.known r hr hcall)
    · rw [hcall] at hopen
      exact handle_sets hhandle (h.sets _ hopen)
  case agree =>
    rcases effect.answers a ha with ha | ⟨hnew, _⟩
    · rcases effect.given r hr with hr | ⟨_, hhandle⟩
      · exact h.agree a ha hcall r hr hbefore hserver hasks
      · have hknown := h.known a.reply (reply_given ha) hcall
        rw [← hserver] at hknown
        exact handle_asks hhandle hasks hknown
    · -- a call from after this answer has no reply yet
      have hlt : r.asked.call < s.nextCall := by
        rcases effect.given r hr with hr | ⟨hopen, _⟩
        · exact h.numbered.given r hr
        · exact h.numbered.opened _ _ hopen
      rw [hnew] at hbefore
      exact absurd hlt (not_lt.mpr hbefore)

/-- The call itself, when nothing to the contrary is under way. -/
theorem Kept.of_call {t : TileProtocol} {s s' : ExpirySystem} {client : Nat} (numbered : Numbered s)
    (quiet : s.Quiet (ExpiryData.key t)) (hstep : s.step (.call client (.set t true)) = some s') :
    Kept (ExpiryData.key t) s.nextCall s' := by
  have effect := effect_step hstep
  have numbered' := numbered.step effect
  rw [ExpirySystem.step] at hstep
  split at hstep
  · obtain rfl := Option.some.inj hstep
    have hopens : ∀ call req,
        Open { s.ask client (s.clients client) s.nextCall (.set t true) with
          nextCall := s.nextCall + 1 } call req →
        s.Open call req ∨ (call = s.nextCall ∧ req = .set t true) := fun _ _ => open_ask
    refine ⟨numbered', Nat.lt_succ_self _, fun req hopen => ?_, fun call req hopen => ?_,
      fun r hr hcall => ?_, fun a ha hcall => ?_⟩
    · rcases hopens _ _ hopen with hopen | ⟨_, rfl⟩
      · exact absurd (numbered.opened _ _ hopen) (lt_irrefl _)
      · exact ⟨t, rfl, rfl⟩
    · rcases hopens _ _ hopen with hopen | ⟨_, rfl⟩
      · exact quiet call req hopen
      · rintro ⟨u, hu, _⟩
        cases hu
    · exact absurd hcall (ne_of_lt (numbered.given r hr))
    · exact absurd hcall (ne_of_lt (numbered.given a.reply (reply_given ha)))
  · cases hstep

/-- **What a server has acknowledged** it does not deny. A client calls to set a metatile expired while
no call to the contrary is under way, and none is made from then on. Every call that is made after the
acknowledgement to ask for the metatile, and is answered by the server that gave it, is answered
"expired".

Servers stop, start and take over at any time, and calls are tried again at either of them. Nothing is
established for an answer of the other server: the two exchange their states and not what they have been
told. -/
theorem acknowledged_stays_expired {before after : List ServiceEvent} {client : Nat}
    {t : TileProtocol} {s₀ s : ExpirySystem} (hbefore : Run.run step {} before = some s₀)
    (quiet : s₀.Quiet (ExpiryData.key t))
    (hafter : Run.run step s₀ (.call client (.set t true) :: after) = some s)
    (later : ∀ e ∈ after, ¬ CallErases (ExpiryData.key t) e) :
    ∀ a ∈ s.answers, a.reply.asked.call = s₀.nextCall →
      ∀ g ∈ s.answers, a.before ≤ g.reply.asked.call →
        g.reply.asked.server = a.reply.asked.server →
        ∀ u, g.reply.asked.request = .get u → ExpiryData.key u = ExpiryData.key t →
          g.reply.response = true := by
  have hnumbered : Numbered s₀ := by
    have hstep : ∀ (past : List ServiceEvent) (s : ExpirySystem) (e : ServiceEvent)
        (s' : ExpirySystem), Numbered s → s.step e = some s' → Numbered s' :=
      fun _ _ _ _ h hs => h.step (effect_step hs)
    exact Run.run_invariant hstep before [] {} s₀ Numbered.start hbefore
  obtain ⟨s₁, hcall, hrest⟩ := Run.run_cons hafter
  have hstep : ∀ (s : ExpirySystem) (e : ServiceEvent) (s' : ExpirySystem),
      Kept (ExpiryData.key t) s₀.nextCall s → ¬ CallErases (ExpiryData.key t) e →
      s.step e = some s' → Kept (ExpiryData.key t) s₀.nextCall s' :=
    fun _ _ _ h hquiet hs => h.step hquiet hs
  have hkept : Kept (ExpiryData.key t) s₀.nextCall s :=
    Run.run_invariant_of_events hstep after s₁ s (.of_call hnumbered quiet hcall) later hrest
  intro a ha hn g hg hbefore hserver u hrequest hkey
  exact hkept.agree a ha hn g.reply (reply_given hg) hbefore hserver ⟨u, hrequest, hkey⟩

/-- A tile. -/
def oneTile : TileProtocol := { x := 8, y := 16, z := 12 }

/-- The servers find each other, a client calls to set the tile expired, and the primary acknowledges it
and stops. The client calls to ask for the tile, and turns to the backup. -/
def failoverEvents : List ServiceEvent :=
  [.beat .backup, .hear .primary 0, .beat .primary, .hear .backup 10, .call 0 (.set oneTile true),
    .serve 0 20, .receive 0, .stop .primary, .call 0 (.get oneTile), .failover 0, .serve 0 3000000,
    .receive 0]

/-- What the primary has acknowledged the backup denies. -/
theorem failover_forgets :
    (∀ e ∈ failoverEvents, ¬ CallErases (ExpiryData.key oneTile) e) ∧
    ∃ s, Run.run step {} failoverEvents = some s ∧
      ∃ a ∈ s.answers, ∃ g ∈ s.answers, a.reply.asked.request = .set oneTile true ∧
        a.reply.response = true ∧ a.before ≤ g.reply.asked.call ∧
        g.reply.asked.request = .get oneTile ∧ g.reply.response = false := by
  have hrun : Run.run step {} failoverEvents = some _ := rfl
  refine ⟨fun e he herases => ?_, _, hrun, _, List.mem_cons_of_mem _ List.mem_cons_self, _,
    List.mem_cons_self, rfl, rfl, by decide, rfl, rfl⟩
  cases e with
  | call client req =>
    obtain ⟨u, rfl, _⟩ := herases
    simp [failoverEvents] at he
  | _ => exact herases

/-- A client has called to set the tile not expired, and its request reaches the primary only when another
client has been acknowledged the contrary: the server that acknowledged it denies it as well. -/
theorem late_request_forgets :
    let after : List ServiceEvent :=
      [.serve 0 20, .receive 0, .serve 0 30, .call 0 (.get oneTile), .serve 0 40, .receive 0]
    (∀ e ∈ after, ¬ CallErases (ExpiryData.key oneTile) e) ∧
    ∃ s, Run.run step {} (.call 1 (.set oneTile false) :: .call 0 (.set oneTile true) :: after) =
        some s ∧
      ∃ a ∈ s.answers, ∃ g ∈ s.answers, a.reply.asked.request = .set oneTile true ∧
        a.reply.response = true ∧ a.before ≤ g.reply.asked.call ∧
        g.reply.asked.server = a.reply.asked.server ∧ g.reply.asked.request = .get oneTile ∧
        g.reply.response = false := by
  intro after
  have hrun : Run.run step {}
      (.call 1 (.set oneTile false) :: .call 0 (.set oneTile true) :: after) = some _ := rfl
  exact ⟨by simp [after, CallErases, Erases], _, hrun, _, List.mem_cons_of_mem _ List.mem_cons_self,
    _, List.mem_cons_self, rfl, rfl, by decide, rfl, rfl, rfl⟩

/-- The primary acknowledges that a tile is expired, and says so when it is asked. -/
theorem primary_remembers :
    ∃ s, Run.run step {} [.call 0 (.set oneTile true), .serve 0 20, .receive 0,
        .call 1 (.get oneTile), .serve 0 30, .receive 0] = some s ∧
      ∃ g ∈ s.answers, g.reply.asked.request = .get oneTile ∧ g.reply.response = true := by
  let after : List ServiceEvent :=
    [.serve 0 20, .receive 0, .call 1 (.get oneTile), .serve 0 30, .receive 0]
  have quiet : ({} : ExpirySystem).Quiet (ExpiryData.key oneTile) :=
    fun call req hopen => absurd (Numbered.start.opened call req hopen) (Nat.not_lt_zero call)
  have hstart : Run.run step {} [] = some {} := rfl
  have hrun : Run.run step {} (.call 0 (.set oneTile true) :: after) = some _ := rfl
  have later : ∀ e ∈ after, ¬ CallErases (ExpiryData.key oneTile) e := by
    simp [after, CallErases, Erases]
  have hkept := acknowledged_stays_expired hstart quiet hrun later _
    (List.mem_cons_of_mem _ List.mem_cons_self) rfl _ List.mem_cons_self (by decide) rfl oneTile rfl rfl
  exact ⟨_, hrun, _, List.mem_cons_self, rfl, hkept⟩

end ExpirySystem

end RenderMq
