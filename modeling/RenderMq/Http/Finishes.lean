import RenderMq.Http.InOrder

/-!
# When the requests are finished

`do_multi_requests` gives back one connection for each operation that is over, but none for an
operation whose handle was refused. As many connections as are set up can be lost in this way, and with
a concurrency of zero there is room for no request at all.

**What is proved.** If no request is there, or fewer handles are refused before the last request than
the concurrency allows requests at once, the loop is left on every run, with a response for each
request or an error that is thrown. Otherwise there is a run on which every transfer ends and the loop
goes round for ever (`do_multi_requests_finishes_iff`).
-/

namespace RenderMq.MultiRequests

/-! ## What is returned -/

/-- There is a response for each request, or an error is thrown. -/
def State.Responds (requests : Nat) (st : State) : Prop :=
  (∃ rs : List Response, rs.length = requests ∧ st.result = .ok (rs.map some)) ∨
    ∃ text, st.result = .error text

theorem visit_responds {slots : List Slot} (h : ∀ slot ∈ slots, slot ≠ .response none) :
    (∃ rs : List Response, rs.length = slots.length ∧ slots.mapM Slot.visit = .ok (rs.map some)) ∨
      ∃ text, slots.mapM Slot.visit = .error text := by
  induction slots with
  | nil => exact .inl ⟨[], rfl, rfl⟩
  | cons slot slots ih =>
    obtain ⟨hslot, hslots⟩ := List.forall_mem_cons.mp h
    rw [List.mapM_cons]
    cases slot with
    | error text => exact .inr ⟨text, rfl⟩
    | response resp =>
      cases resp with
      | none => exact absurd rfl hslot
      | some resp =>
        obtain ⟨rs, hlength, hrs⟩ | ⟨text, htext⟩ := ih hslots
        · refine .inl ⟨resp :: rs, congrArg Nat.succ hlength, ?_⟩
          rw [hrs]
          rfl
        · refine .inr ⟨text, ?_⟩
          rw [htext]
          rfl

section Loop

variable {T : Type*} {mkRequest : MkRequest T} {strerror : Nat → String} {requests : List T}
  {refused : Nat → Bool} {concurrency : Nat} {conns : List Conn} {st st' : State}

theorem responds_of_returned (hinv : InvWith refused conns requests.length concurrency st)
    (hphase : st.phase = .returned) : st.Responds requests.length := by
  obtain ⟨hledger, hfits⟩ := hinv
  rw [hphase] at hfits
  obtain ⟨hmulti, hmessages, hreqI⟩ := hfits
  -- no operation is left that curl was given
  have hnone : st.accepted refused = [] := by
    have hrunning := hledger.running_perm
    rw [hmulti, hmessages] at hrunning
    exact List.map_eq_nil_iff.mp hrunning.nil_eq.symm
  have hslots : ∀ slot ∈ st.responses, slot ≠ .response none := by
    intro slot hslot
    obtain ⟨i, hi, hget⟩ := List.mem_iff_getElem.mp hslot
    have hlt : i < st.reqI := by
      rw [hreqI, ← hledger.length_eq]
      exact hi
    obtain ⟨slot', hslot', hne⟩ := hledger.answered i hlt fun op hop => by
      rw [hnone] at hop
      cases hop
    rw [List.getElem?_eq_getElem hi, hget] at hslot'
    rw [Option.some.inj hslot']
    exact hne
  have hresponds := visit_responds hslots
  rwa [hledger.length_eq] at hresponds

end Loop

/-! ## The property -/

/-- Every run can go on or has returned, with the responses or an error, and none in which curl does
its part goes on for ever. -/
structure Finishes {T : Type*} (mkRequest : MkRequest T) (strerror : Nat → String)
    (requests : List T) (refused : Nat → Bool) (concurrency : Nat) (conns : List Conn) : Prop where
  responds : ∀ acts st, Run.run (stepWith mkRequest strerror requests refused concurrency)
      (start requests conns) acts = some st →
    (∃ act st', stepWith mkRequest strerror requests refused concurrency st act = some st') ∨
      st.phase = .returned ∧ st.Responds requests.length
  ends : ∀ states, Run.Endless (stepWith mkRequest strerror requests refused concurrency)
    (start requests conns) states → ¬ Fair states

section Loop

variable {T : Type*} {mkRequest : MkRequest T} {strerror : Nat → String} {requests : List T}
  {refused : Nat → Bool} {concurrency : Nat} {conns : List Conn} {st st' : State}

theorem finishes (hconns : conns.Nodup) (hconcurrency : requests ≠ [] → 0 < concurrency)
    (hspare : requests ≠ [] → refusedBefore refused (requests.length - 1) < conns.length) :
    Finishes mkRequest strerror requests refused concurrency conns where
  responds acts st hrun := by
    have hinv := run_invWith hconns hrun
    obtain hstep | hreturned :=
      @stepWith_or_returned T mkRequest strerror requests refused concurrency conns st hinv
    · exact .inl hstep
    · exact .inr ⟨hreturned, responds_of_returned hinv hreturned⟩
  ends _ hrun := not_endless_with hconns hconcurrency hspare hrun

/-! ## A run that goes round for ever -/

/-- curl ends all transfers whenever it is called. -/
def endAll (st : State) : Act := .perform (st.multi.map fun c => (c, ⟨0, {}⟩)) false

/-- The next state in this case. -/
def next (mkRequest : MkRequest T) (strerror : Nat → String) (requests : List T)
    (refused : Nat → Bool) (concurrency : Nat) (st : State) : State :=
  (stepWith mkRequest strerror requests refused concurrency st
    (if st.phase = .performing then endAll st else .advance)).getD st

theorem complete_all (st : State) : ∀ l, st.multi = l →
    ∃ st₁, (l.map fun c => (c, (⟨0, {}⟩ : Transfer))).foldlM State.complete st = some st₁ ∧
      st₁.multi = [] := by
  intro l
  induction l generalizing st with
  | nil => exact fun hmulti => ⟨st, rfl, hmulti⟩
  | cons c l ih =>
    intro hmulti
    have hfirst : ∃ st₁, st.complete (c, ⟨0, {}⟩) = some st₁ ∧ st₁.multi = l := by
      have hmem : c ∈ st.multi := by
        rw [hmulti]
        exact List.mem_cons_self
      have herase : st.multi.erase c = l := by
        rw [hmulti, List.erase_cons_head]
      unfold State.complete
      rw [if_pos hmem]
      dsimp only
      split <;> exact ⟨_, rfl, herase⟩
    obtain ⟨st₁, hst₁, hl⟩ := hfirst
    obtain ⟨st₂, hst₂, hnone⟩ := ih st₁ hl
    refine ⟨st₂, ?_, hnone⟩
    rw [List.map_cons, List.foldlM_cons, hst₁]
    exact hst₂

/-- Where curl is called, all transfers are over afterwards. -/
theorem next_of_performing (hphase : st.phase = .performing) :
    ∃ st', stepWith mkRequest strerror requests refused concurrency st (endAll st) = some st' ∧
      next mkRequest strerror requests refused concurrency st = st' ∧ st'.multi = [] ∧
      st'.phase = .reading := by
  obtain ⟨st₁, hst₁, hnone⟩ := complete_all st _ rfl
  have hstep : stepWith mkRequest strerror requests refused concurrency st (endAll st) =
      some { st₁ with newRunningHandles := st₁.multi.length, phase := .reading } := by
    show (if st.phase = .performing then _ else none) = _
    rw [if_pos hphase, hst₁]
    rfl
  refine ⟨_, hstep, ?_, hnone, rfl⟩
  rw [next, if_pos hphase, hstep]
  rfl

/-- Where too many are refused, the last request is not started. -/
theorem reqI_lt (hrequests : requests ≠ [])
    (hstuck : ¬ (0 < concurrency ∧ refusedBefore refused (requests.length - 1) < conns.length))
    (hledger : Ledger refused conns requests.length concurrency st) :
    st.reqI < requests.length := by
  refine hledger.reqI_le.lt_of_ne fun hend => ?_
  rcases hledger.started with hzero | hstarted
  · have hlength := List.length_pos_of_ne_nil hrequests
    omega
  · rw [hend] at hstarted
    exact hstuck hstarted

theorem not_returned (hrequests : requests ≠ [])
    (hstuck : ¬ (0 < concurrency ∧ refusedBefore refused (requests.length - 1) < conns.length))
    (hinv : InvWith refused conns requests.length concurrency st) : st.phase ≠ .returned := by
  intro hphase
  have hfits := hinv.fits
  rw [hphase] at hfits
  exact absurd hfits.2.2 (reqI_lt hrequests hstuck hinv.ledger).ne

theorem next_spec (hconns : conns.Nodup) (hrequests : requests ≠ [])
    (hstuck : ¬ (0 < concurrency ∧ refusedBefore refused (requests.length - 1) < conns.length))
    (st : State) (hinv : InvWith refused conns requests.length concurrency st) :
    InvWith refused conns requests.length concurrency
        (next mkRequest strerror requests refused concurrency st) ∧
      ∃ act, stepWith mkRequest strerror requests refused concurrency st act =
        some (next mkRequest strerror requests refused concurrency st) := by
  have hstep : ∃ act, stepWith mkRequest strerror requests refused concurrency st act =
      some (next mkRequest strerror requests refused concurrency st) := by
    by_cases hphase : st.phase = .performing
    · obtain ⟨st', hst', hnext, -⟩ :=
        @next_of_performing T mkRequest strerror requests refused concurrency st hphase
      exact ⟨endAll st, by rw [hnext]; exact hst'⟩
    · obtain ⟨act, st', hact⟩ | hreturned :=
        @stepWith_or_returned T mkRequest strerror requests refused concurrency conns st hinv
      · cases act with
        | advance =>
          refine ⟨.advance, ?_⟩
          rw [next, if_neg hphase, hact]
          rfl
        | perform done again => exact absurd (stepWith_perform hact).1 hphase
      · exact absurd hreturned (not_returned hrequests hstuck hinv)
  obtain ⟨act, hact⟩ := hstep
  exact ⟨stepWith_inv hconns hinv hact, act, hact⟩

section Endless

variable {states : Nat → State}

/-- Starting requests comes to an end. -/
theorem performing_of_filling
    (hrun : Run.Endless (stepWith mkRequest strerror requests refused concurrency)
      (start requests conns) states) :
    ∀ (n k : Nat), requests.length - (states k).reqI = n → (states k).phase = .filling →
      ∃ j ≥ k, (states j).phase = .performing := by
  intro n
  induction n using Nat.strong_induction_on with
  | _ n ih =>
    intro k hn hphase
    obtain ⟨act, hact⟩ := hrun.steps k
    -- one request more, or one refused, leaves fewer to be started
    have hmore : ∀ op free, Takes requests.length concurrency (states k) op free →
        (states (k + 1)).phase = (states k).phase → (states (k + 1)).reqI = (states k).reqI + 1 →
        ∃ j ≥ k, (states j).phase = .performing := by
      intro op free takes hsame hreqI
      have hlt := takes.lt
      obtain ⟨j, hj, hperforming⟩ := ih (requests.length - (states (k + 1)).reqI) (by omega) (k + 1)
        rfl (hsame.trans hphase)
      exact ⟨j, by omega, hperforming⟩
    generalize hnext : states (k + 1) = after at hact hmore
    cases stepWith_advanced (by rw [hphase]; exact Phase.noConfusion) hact with
    | added takes => exact hmore _ _ takes rfl rfl
    | refused takes => exact hmore _ _ takes rfl rfl
    | filled => exact ⟨k + 1, Nat.le_succ k, by rw [hnext]⟩
    | read hreading => cases hphase.symm.trans hreading
    | lost hreading => cases hphase.symm.trans hreading
    | refreshed hreading => cases hphase.symm.trans hreading

/-- curl is called again and again. -/
theorem performing_again
    (hrun : Run.Endless (stepWith mkRequest strerror requests refused concurrency)
      (start requests conns) states)
    (hinv : ∀ k, InvWith refused conns requests.length concurrency (states k))
    (hnot : ∀ k, (states k).phase ≠ .returned) (k : Nat) :
    ∃ j ≥ k, (states j).phase = .performing := by
  have hfits := (hinv k).fits
  cases hphase : (states k).phase with
  | filling => exact performing_of_filling hrun _ k rfl hphase
  | performing => exact ⟨k, Nat.le_refl k, hphase⟩
  | reading =>
    obtain ⟨i, hi, hreading, hmessages⟩ := eventually_read hrun hinv _ k rfl hphase
    obtain ⟨act, hact⟩ := hrun.steps i
    have hfilling : (states (i + 1)).phase = .filling := by
      have hleft := hnot (i + 1)
      rw [reading_step hreading hmessages hact] at hleft ⊢
      refine if_neg fun hend => hleft ?_
      exact if_pos hend
    obtain ⟨j, hj, hperforming⟩ := performing_of_filling hrun _ (i + 1) rfl hfilling
    exact ⟨j, by omega, hperforming⟩
  | returned => exact absurd hphase (hnot k)
  | failed text => rw [hphase] at hfits; exact hfits.elim

end Endless

/-- **The loop goes round for ever**, though every transfer ends. -/
theorem exists_endless (hconns : conns.Nodup) (hrequests : requests ≠ [])
    (hstuck : ¬ (0 < concurrency ∧ refusedBefore refused (requests.length - 1) < conns.length)) :
    ∃ states, Run.Endless (stepWith mkRequest strerror requests refused concurrency)
      (start requests conns) states ∧ Fair states := by
  obtain ⟨hrun, hinv⟩ := Run.endless_iterate
    (@start_invWith T requests refused concurrency conns)
    (@next_spec T mkRequest strerror requests refused concurrency conns hconns hrequests hstuck)
  have hagain := performing_again hrun hinv fun k => not_returned hrequests hstuck (hinv k)
  have hover : ∀ j,
      ((next mkRequest strerror requests refused concurrency)^[j] (start requests conns)).phase =
        .performing →
      ((next mkRequest strerror requests refused concurrency)^[j + 1] (start requests conns)).multi =
        [] ∧
      ((next mkRequest strerror requests refused concurrency)^[j + 1] (start requests conns)).phase =
        .reading := by
    intro j hphase
    obtain ⟨st', -, hnext, hnone, hreading⟩ := next_of_performing hphase
    rw [Function.iterate_succ_apply', hnext]
    exact ⟨hnone, hreading⟩
  refine ⟨_, hrun, ⟨fun k c _ => ?_, fun k => ?_⟩⟩
  · obtain ⟨j, hj, hphase⟩ := hagain k
    refine ⟨j + 1, by omega, ?_⟩
    rw [(hover j hphase).1]
    exact List.not_mem_nil
  · obtain ⟨j, hj, hphase⟩ := hagain k
    refine ⟨j + 1, by omega, ?_⟩
    rw [(hover j hphase).2]
    exact Phase.noConfusion

theorem finishes_iff_of_nodup (hconns : conns.Nodup) :
    Finishes mkRequest strerror requests refused concurrency conns ↔
      (requests ≠ [] → 0 < concurrency ∧ refusedBefore refused (requests.length - 1) < conns.length) := by
  constructor
  · intro hfinishes hrequests
    by_contra hstuck
    obtain ⟨states, hrun, hfair⟩ :=
      @exists_endless T mkRequest strerror requests refused concurrency conns hconns hrequests hstuck
    exact hfinishes.ends states hrun hfair
  · exact fun h => finishes hconns (fun hrequests => (h hrequests).1) fun hrequests => (h hrequests).2

end Loop

/-! ## With the connections that are set up -/

/-- **When the requests are finished.** Where the connections cannot be set up an error is thrown.
Otherwise `do_multi_requests` ends, whatever curl does, exactly if there are no requests or fewer
handles are refused before the last one than the concurrency.

Which handles are refused is an argument, and what curl does with the others is any that goes on. The
connections are distinct. With what responses it ends is not part of this. -/
theorem do_multi_requests_finishes_iff {T : Type*} (mkRequest : MkRequest T)
    (strerror : Nat → String) (requests : List T) (refused : Nat → Bool) (concurrency : Nat)
    {given : Option Conn} {create : Nat → Option Conn} (hdistinct : Distinct given create) :
    (∀ conns, setUp given create (min concurrency requests.length) = some conns →
        Finishes mkRequest strerror requests refused (min concurrency requests.length) conns) ↔
      setUp given create (min concurrency requests.length) = none ∨ requests = [] ∨
        refusedBefore refused (requests.length - 1) < concurrency := by
  cases hsetUp : setUp given create (min concurrency requests.length) with
  | none => exact iff_of_true (fun conns h => by cases h) (.inl rfl)
  | some conns =>
    obtain ⟨hconns, hlength⟩ := setUp_spec hdistinct hsetUp
    have hiff := @finishes_iff_of_nodup T mkRequest strerror requests refused
      (min concurrency requests.length) conns hconns
    have hgiven : given.toList.length ≤ 1 := by cases given <;> simp
    have hle := refusedBefore_le refused (requests.length - 1)
    have hpos : requests ≠ [] → 0 < requests.length := List.length_pos_of_ne_nil
    constructor
    · intro h
      by_cases hrequests : requests = []
      · exact .inr (.inl hrequests)
      · have hspare := hiff.mp (h conns rfl) hrequests
        exact .inr (.inr (by omega))
    · rintro (hnone | hempty | hspare) conns' hconns'
      · cases hnone
      · obtain rfl := Option.some.inj hconns'
        exact hiff.mpr fun hrequests => absurd hempty hrequests
      · obtain rfl := Option.some.inj hconns'
        refine hiff.mpr fun hrequests => ?_
        have hsome := hpos hrequests
        omega

theorem distinct_none_some : Distinct none some where
  created _ _ _ hi hj := Option.some.inj (hi.trans hj.symm)
  given _ c _ := (Option.some_ne_none c).symm

/-- One connection for two requests, of which the second is refused. -/
theorem do_multi_requests_finishes_last_refused :
    Finishes mkRequestGet (fun _ => "") ["/a", "/b"] (fun i => decide (i = 1))
      (min 1 ["/a", "/b"].length) [0] := by
  have hiff := do_multi_requests_finishes_iff mkRequestGet (fun _ => "") ["/a", "/b"]
    (fun i => decide (i = 1)) 1 distinct_none_some
  exact hiff.mpr (.inr (.inr (by decide))) [0] rfl

/-- The first of two requests is refused, with one connection; and a single one with no room for it. -/
theorem refused_handle_never_finishes :
    ¬ (∀ conns, setUp none some (min 1 ["/a", "/b"].length) = some conns →
        Finishes mkRequestGet (fun _ => "") ["/a", "/b"] (fun i => decide (i = 0))
          (min 1 ["/a", "/b"].length) conns) ∧
      ¬ ∀ conns, setUp none some (min 0 ["/a"].length) = some conns →
        Finishes mkRequestGet (fun _ => "") ["/a"] (fun _ => false) (min 0 ["/a"].length) conns := by
  constructor
  · intro h
    have hspare := (finishes_iff_of_nodup (by decide)).mp (h [0] rfl) (List.cons_ne_nil _ _)
    exact absurd hspare.2 (by decide)
  · intro h
    have hspare := (finishes_iff_of_nodup (by decide)).mp (h [] rfl) (List.cons_ne_nil _ _)
    exact absurd hspare.1 (by decide)

end RenderMq.MultiRequests
