import RenderMq.Http.RefusedHandles
import RenderMq.Lib.Endless

/-!
# The loop ends

A run of the loop stops only at its end (`stepWith_or_returned`). It goes on for ever only if a transfer
does, if curl always asks to be called again, or if no connection is left for a request
(`not_endless_with`); where no handle is refused there is always one (`not_endless`).

In a run that goes on for ever the number of transfers that were performed, and of requests that were
started, does not change any more from some time on. From then on no transfer is going on, since each
ends (`Fair.ends`). So there is nothing that curl could tell the program of, and once the program has
read all messages, it starts a request if one is left, and is at its end if none is.
-/

namespace RenderMq.MultiRequests

/-- The transfers that were performed and the requests that were started. -/
def State.progress (st : State) : Nat := st.performed.length + st.reqI

section Loop

variable {T : Type*} {mkRequest : MkRequest T} {strerror : Nat → String} {requests : List T}
  {refused : Nat → Bool} {concurrency : Nat} {conns : List Conn} {st st' : State}

/-! ## Steps -/

/-- Where there is no next step, the loop is left. -/
theorem stepWith_or_left :
    (∃ act st', stepWith mkRequest strerror requests refused concurrency st act = some st') ∨
      st.phase = .returned ∨ ∃ text, st.phase = .failed text := by
  cases hphase : st.phase with
  | filling =>
    refine .inl ⟨.advance, ?_⟩
    show ∃ st', advanceWith mkRequest strerror requests refused concurrency st = some st'
    unfold advanceWith
    rw [hphase]
    dsimp only
    split
    · split <;> exact ⟨_, rfl⟩
    · exact ⟨_, rfl⟩
  | performing =>
    refine .inl ⟨.perform [] false, ?_⟩
    show ∃ st', (if st.phase = .performing then _ else none) = some st'
    rw [if_pos hphase]
    exact ⟨_, rfl⟩
  | reading =>
    refine .inl ⟨.advance, ?_⟩
    show ∃ st', advanceWith mkRequest strerror requests refused concurrency st = some st'
    unfold advanceWith advance
    rw [hphase]
    dsimp only
    split
    · exact ⟨_, rfl⟩
    · split <;> exact ⟨_, rfl⟩
  | returned => exact .inr (.inl rfl)
  | failed text => exact .inr (.inr ⟨text, rfl⟩)

/-- The loop stops only at its end. -/
theorem stepWith_or_returned (hinv : InvWith refused conns requests.length concurrency st) :
    (∃ act st', stepWith mkRequest strerror requests refused concurrency st act = some st') ∨
      st.phase = .returned := by
  obtain hstep | hreturned | ⟨text, hfailed⟩ :=
    @stepWith_or_left T mkRequest strerror requests refused concurrency st
  · exact .inl hstep
  · exact .inr hreturned
  · have hfits := hinv.fits
    rw [hfailed] at hfits
    exact hfits.elim

theorem step_or_returned (hinv : Inv conns requests.length st) :
    (∃ act st', step mkRequest strerror requests concurrency st act = some st') ∨
      st.phase = .returned := by
  rw [← stepWith_none]
  rcases stepWith_or_left with hstep | hreturned | ⟨text, hfailed⟩
  · exact .inl hstep
  · exact .inr hreturned
  · have hfits := hinv.fits
    rw [hfailed] at hfits
    exact hfits.elim

/-- A step performs no fewer transfers and starts no fewer requests; and where it does neither, no
transfer stops going on. -/
theorem stepWith_progress (hinv : InvWith refused conns requests.length concurrency st) {act : Act}
    (hstep : stepWith mkRequest strerror requests refused concurrency st act = some st') :
    st.progress ≤ st'.progress ∧
      (st'.progress = st.progress → ∀ c ∈ st.multi, c ∈ st'.multi) := by
  cases act with
  | advance =>
    cases advanceWith_cases hstep with
    | added => exact ⟨Nat.le_succ _, fun _ c hc => List.mem_append_left _ hc⟩
    | refused => exact ⟨Nat.le_succ _, fun _ _ hc => hc⟩
    | filled => exact ⟨Nat.le_refl _, fun _ _ hc => hc⟩
    | read => exact ⟨Nat.le_refl _, fun _ _ hc => hc⟩
    | lost => exact ⟨Nat.le_refl _, fun _ _ hc => hc⟩
    | refreshed => exact ⟨Nat.le_refl _, fun _ _ hc => hc⟩
  | perform done again =>
    obtain ⟨-, st₁, hdone, rfl⟩ := stepWith_perform hstep
    obtain ⟨-, hperformed, hreqI⟩ := complete_run hinv.ledger hdone
    have hprogress : st₁.progress = st.progress + done.length := by
      rw [State.progress, State.progress, hperformed, hreqI]
      omega
    refine ⟨?_, fun hsame => ?_⟩
    · show st.progress ≤ st₁.progress
      omega
    · have hsame' : st₁.progress = st.progress := hsame
      have hnone : done = [] := List.eq_nil_of_length_eq_zero (by omega)
      subst hnone
      obtain rfl := Option.some.inj hdone
      exact fun c hc => hc

/-- There are no more than the requests, to be started and to be performed. -/
theorem progress_le (hledger : Ledger refused conns requests.length concurrency st) :
    st.progress ≤ 2 * requests.length := by
  have hperformed := hledger.performed_le
  have hreqI := hledger.reqI_le
  unfold State.progress
  omega

/-- Where curl is not called, the step is the program's own. -/
theorem stepWith_advanced {act : Act} (hphase : st.phase ≠ .performing)
    (hstep : stepWith mkRequest strerror requests refused concurrency st act = some st') :
    AdvancedWith mkRequest strerror requests refused concurrency st st' := by
  cases act with
  | advance => exact advanceWith_cases hstep
  | perform done again => exact absurd (stepWith_perform hstep).1 hphase

theorem performing_step {act : Act} (hphase : st.phase = .performing)
    (hstep : stepWith mkRequest strerror requests refused concurrency st act = some st') :
    st'.phase = .performing ∨ st'.phase = .reading := by
  cases act with
  | advance =>
    have hnone : advanceWith mkRequest strerror requests refused concurrency st = none := by
      unfold advanceWith advance
      rw [hphase]
    exact absurd (hnone.symm.trans hstep) (Option.some_ne_none _).symm
  | perform done again =>
    obtain ⟨-, st₁, -, rfl⟩ := stepWith_perform hstep
    cases again with
    | true => exact .inl rfl
    | false => exact .inr rfl

/-- Where no request is started, none is left or no connection is free. -/
theorem filling_step {act : Act} (hphase : st.phase = .filling) (hsame : st'.progress = st.progress)
    (hstep : stepWith mkRequest strerror requests refused concurrency st act = some st') :
    st'.phase = .performing ∧
      (st.runningHandles < concurrency → st.reqI < requests.length → st.free = []) := by
  cases stepWith_advanced (by rw [hphase]; exact Phase.noConfusion) hstep with
  | added => exact absurd hsame (Nat.succ_ne_self _)
  | refused => exact absurd hsame (Nat.succ_ne_self _)
  | filled _ hfull => exact ⟨rfl, hfull⟩
  | read hreading => cases hphase.symm.trans hreading
  | lost hreading => cases hphase.symm.trans hreading
  | refreshed hreading => cases hphase.symm.trans hreading

/-- Where all messages are read, the round ends. -/
theorem reading_step {act : Act} (hphase : st.phase = .reading) (hmessages : st.messages = [])
    (hstep : stepWith mkRequest strerror requests refused concurrency st act = some st') :
    st' = st.refresh requests.length := by
  cases stepWith_advanced (by rw [hphase]; exact Phase.noConfusion) hstep with
  | added takes => cases hphase.symm.trans takes.phase
  | refused takes => cases hphase.symm.trans takes.phase
  | filled hfilling => cases hphase.symm.trans hfilling
  | read _ _ hmessage => rw [hmessages] at hmessage; cases hmessage
  | lost _ hmessage => rw [hmessages] at hmessage; cases hmessage
  | refreshed => rfl

theorem returned_step {act : Act} (hphase : st.phase = .returned) :
    stepWith mkRequest strerror requests refused concurrency st act = none := by
  cases act with
  | advance =>
    show advanceWith mkRequest strerror requests refused concurrency st = none
    unfold advanceWith advance
    rw [hphase]
  | perform done again =>
    refine if_neg ?_
    rw [hphase]
    exact Phase.noConfusion

/-- Where all is read and no transfer is going on, the program starts a request next, if fewer were
refused than there are connections. -/
theorem starts_next {st'' : State} {act act' : Act}
    (hinv : InvWith refused conns requests.length concurrency st)
    (hconcurrency : requests ≠ [] → 0 < concurrency)
    (hspare : requests ≠ [] → refusedBefore refused (requests.length - 1) < conns.length)
    (hreading : st.phase = .reading) (hmessages : st.messages = []) (hmulti : st.multi = [])
    (hstep : stepWith mkRequest strerror requests refused concurrency st act = some st')
    (hstep' : stepWith mkRequest strerror requests refused concurrency st' act' = some st'') :
    st''.progress ≠ st'.progress := by
  intro hsame
  obtain ⟨hledger, hfits⟩ := hinv
  rw [hreading] at hfits
  have hrunning : st.newRunningHandles = 0 := hfits.trans (by rw [hmulti]; rfl)
  obtain rfl := reading_step hreading hmessages hstep
  by_cases hend : st.reqI = requests.length
  · have hreturned : (st.refresh requests.length).phase = .returned := if_pos ⟨hrunning, hend⟩
    rw [returned_step hreturned] at hstep'
    cases hstep'
  · have hfilling : (st.refresh requests.length).phase = .filling :=
      if_neg fun hboth => hend hboth.2
    have hlt : st.reqI < requests.length := hledger.reqI_le.lt_of_ne hend
    have hrequests : requests ≠ [] := List.ne_nil_of_length_pos (Nat.zero_lt_of_lt hlt)
    have hroom : st.newRunningHandles < concurrency := by
      rw [hrunning]
      exact hconcurrency hrequests
    have hfree : st.free = [] := (filling_step hfilling hsame hstep').2 hroom hlt
    -- all connections are with operations that were refused
    have hlength := hledger.conns_perm.length_eq
    rw [hfree, List.nil_append, List.length_map, hledger.length_inProgress, hmulti, hmessages]
      at hlength
    have hbefore : refusedBefore refused st.reqI ≤ refusedBefore refused (requests.length - 1) :=
      refusedBefore_mono refused (by omega)
    have hlost : refusedBefore refused st.reqI = conns.length := hlength
    have hsome := hspare hrequests
    omega

/-! ## A run that goes on for ever -/

/-- What is relied on of curl: every transfer ends, and there are not for ever more calls. -/
structure Fair (states : Nat → State) : Prop where
  ends : ∀ k c, c ∈ (states k).multi → ∃ j ≥ k, c ∉ (states j).multi
  returns : ∀ k, ∃ j ≥ k, (states j).phase ≠ .performing

section Endless

variable {states : Nat → State}

/-- From some time on, no request is started and no transfer is going on. -/
theorem eventually_idle
    (hrun : Run.Endless (stepWith mkRequest strerror requests refused concurrency)
      (start requests conns) states)
    (hfair : Fair states)
    (hinv : ∀ k, InvWith refused conns requests.length concurrency (states k)) :
    ∃ k, (∀ j ≥ k, (states j).progress = (states k).progress) ∧ ∀ j ≥ k, (states j).multi = [] := by
  have hstep : ∀ k, (states k).progress ≤ (states (k + 1)).progress := by
    intro k
    obtain ⟨act, hact⟩ := hrun.steps k
    exact (stepWith_progress (hinv k) hact).1
  obtain ⟨k, hk⟩ := Run.eventually_constant hstep fun k => progress_le (hinv k).ledger
  refine ⟨k, hk, fun j hj => List.eq_nil_iff_forall_not_mem.mpr fun c hc => ?_⟩
  -- it would not end
  have hforever : ∀ i ≥ j, c ∈ (states i).multi := by
    intro i hi
    induction i, hi using Nat.le_induction with
    | base => exact hc
    | succ i hi ih =>
      obtain ⟨act, hact⟩ := hrun.steps i
      refine (stepWith_progress (hinv i) hact).2 ?_ c ih
      rw [hk i (by omega), hk (i + 1) (by omega)]
  obtain ⟨i, hi, hends⟩ := hfair.ends j c hc
  exact hends (hforever i hi)

/-- curl's calls are over at some time. -/
theorem eventually_reading
    (hrun : Run.Endless (stepWith mkRequest strerror requests refused concurrency)
      (start requests conns) states)
    (hfair : Fair states) {k : Nat} (hphase : (states k).phase = .performing) :
    ∃ j ≥ k, (states j).phase = .reading := by
  by_contra hnot
  push Not at hnot
  have hforever : ∀ i ≥ k, (states i).phase = .performing := by
    intro i hi
    induction i, hi using Nat.le_induction with
    | base => exact hphase
    | succ i hi ih =>
      obtain ⟨act, hact⟩ := hrun.steps i
      rcases performing_step ih hact with hperforming | hreading
      · exact hperforming
      · exact absurd hreading (hnot (i + 1) (by omega))
  obtain ⟨i, hi, hreturns⟩ := hfair.returns k
  exact hreturns (hforever i hi)

/-- The program has read all messages at some time. -/
theorem eventually_read
    (hrun : Run.Endless (stepWith mkRequest strerror requests refused concurrency)
      (start requests conns) states)
    (hinv : ∀ k, InvWith refused conns requests.length concurrency (states k)) :
    ∀ (n k : Nat), (states k).messages.length = n → (states k).phase = .reading →
      ∃ j ≥ k, (states j).phase = .reading ∧ (states j).messages = [] := by
  intro n
  induction n with
  | zero => exact fun k hlen hphase => ⟨k, Nat.le_refl k, hphase, List.eq_nil_of_length_eq_zero hlen⟩
  | succ n ih =>
    intro k hlen hphase
    obtain ⟨act, hact⟩ := hrun.steps k
    have hfits := (hinv (k + 1)).fits
    generalize hnext : states (k + 1) = next at hact hfits
    cases stepWith_advanced (by rw [hphase]; exact Phase.noConfusion) hact with
    | added takes => cases hphase.symm.trans takes.phase
    | refused takes => cases hphase.symm.trans takes.phase
    | filled hfilling => cases hphase.symm.trans hfilling
    | read _ _ hmessages =>
      rw [hmessages, List.length_cons] at hlen
      have hlen' : (states (k + 1)).messages.length = n := by
        rw [hnext]
        exact Nat.succ.inj hlen
      have hphase' : (states (k + 1)).phase = .reading := by
        rw [hnext]
        exact hphase
      obtain ⟨j, hj, hread⟩ := ih (k + 1) hlen' hphase'
      exact ⟨j, by omega, hread⟩
    | lost => exact hfits.elim
    | refreshed _ hmessages => rw [hmessages] at hlen; cases hlen

/-- **No run goes on for ever**, if fewer handles are refused than there are connections. -/
theorem not_endless_with (hconns : conns.Nodup) (hconcurrency : requests ≠ [] → 0 < concurrency)
    (hspare : requests ≠ [] → refusedBefore refused (requests.length - 1) < conns.length)
    (hrun : Run.Endless (stepWith mkRequest strerror requests refused concurrency)
      (start requests conns) states) :
    ¬ Fair states := by
  intro hfair
  have hinv : ∀ k, InvWith refused conns requests.length concurrency (states k) :=
    hrun.invariant start_invWith fun _ _ _ h hstep => stepWith_inv hconns h hstep
  obtain ⟨k, hsame, hidle⟩ := eventually_idle hrun hfair hinv
  have hsame' : ∀ j ≥ k, (states (j + 1)).progress = (states j).progress := by
    intro j hj
    rw [hsame j hj, hsame (j + 1) (by omega)]
  have hreading : ∃ j ≥ k, (states j).phase = .reading := by
    have hfits := (hinv k).fits
    obtain ⟨act, hact⟩ := hrun.steps k
    cases hphase : (states k).phase with
    | filling =>
      have hperforming := (filling_step hphase (hsame' k (Nat.le_refl k)) hact).1
      obtain ⟨j, hj, hreading⟩ := eventually_reading hrun hfair hperforming
      exact ⟨j, by omega, hreading⟩
    | performing => exact eventually_reading hrun hfair hphase
    | reading => exact ⟨k, Nat.le_refl k, hphase⟩
    | returned => rw [returned_step hphase] at hact; cases hact
    | failed text => rw [hphase] at hfits; exact hfits.elim
  obtain ⟨i, hi, hreading⟩ := hreading
  obtain ⟨j, hj, hreading, hmessages⟩ := eventually_read hrun hinv _ i rfl hreading
  obtain ⟨act, hact⟩ := hrun.steps j
  obtain ⟨act', hact'⟩ := hrun.steps (j + 1)
  exact starts_next (hinv j) hconcurrency hspare hreading hmessages (hidle j (by omega)) hact hact'
    (hsame' (j + 1) (by omega))

/-- **No run goes on for ever.** -/
theorem not_endless (hconns : conns.Nodup) (hconcurrency : requests ≠ [] → 0 < concurrency)
    (hsome : requests ≠ [] → conns ≠ [])
    (hrun : Run.Endless (step mkRequest strerror requests concurrency) (start requests conns) states) :
    ¬ Fair states := by
  rw [← stepWith_none] at hrun
  refine not_endless_with hconns hconcurrency (fun hrequests => ?_) hrun
  have hnone : refusedBefore (fun _ => false) (requests.length - 1) = 0 := by
    simp [refusedBefore]
  rw [hnone]
  exact List.length_pos_of_ne_nil (hsome hrequests)

end Endless

end Loop

end RenderMq.MultiRequests
