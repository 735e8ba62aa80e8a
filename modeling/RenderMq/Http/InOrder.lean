import RenderMq.Http.Terminates
import Mathlib.Data.Set.List

/-!
# Responses in the order of the requests

`do_multi_requests_in_order` tells of every run, whatever curl does. No connection has two operations, and
there are no more of them than asked for. No request is performed twice. When the loop ends, every request
was performed, and the response at each place is that of the request at that place, or an error is thrown
if there was one.
-/

namespace RenderMq.MultiRequests

/-! ## The connections -/

/-- The connections that are created are new. -/
structure Distinct (given : Option Conn) (create : Nat → Option Conn) : Prop where
  created : ∀ i j c, create i = some c → create j = some c → i = j
  given : ∀ i c, create i = some c → given ≠ some c

theorem setUp_spec {given : Option Conn} {create : Nat → Option Conn}
    (hdistinct : Distinct given create) {concurrency : Nat} {conns : List Conn}
    (h : setUp given create concurrency = some conns) :
    conns.Nodup ∧ conns.length = max given.toList.length concurrency := by
  have hgrow : ∀ (n : Nat) (conns : List Conn), (List.range n).foldlM
      (fun free k => (create k).map fun conn => conn :: free) given.toList = some conns →
      conns.Nodup ∧ conns.length = n + given.toList.length ∧
        ∀ c ∈ conns, given = some c ∨ ∃ i < n, create i = some c := by
    intro n
    induction n with
    | zero =>
      intro conns h
      obtain rfl := Option.some.inj h
      refine ⟨?_, (Nat.zero_add _).symm, fun c hc => .inl (Option.mem_toList.mp hc)⟩
      cases given with
      | none => exact List.nodup_nil
      | some c => exact List.nodup_singleton c
    | succ n ih =>
      intro conns h
      rw [List.range_succ, List.foldlM_append] at h
      obtain ⟨free, hfree, h⟩ := Option.bind_eq_some_iff.mp h
      obtain ⟨hnodup, hlen, hfrom⟩ := ih free hfree
      obtain ⟨_, hconn, h⟩ := Option.bind_eq_some_iff.mp h
      obtain rfl := Option.some.inj h
      obtain ⟨conn, hcreate, rfl⟩ := Option.map_eq_some_iff.mp hconn
      refine ⟨List.nodup_cons.mpr ⟨fun hmem => ?_, hnodup⟩, ?_, fun c hc => ?_⟩
      · rcases hfrom conn hmem with hgiven | ⟨i, hi, hcreate'⟩
        · exact hdistinct.given n conn hcreate hgiven
        · have := hdistinct.created i n conn hcreate' hcreate
          omega
      · rw [List.length_cons, hlen]
        omega
      · rcases List.mem_cons.mp hc with rfl | hc
        · exact .inr ⟨n, Nat.lt_succ_self n, hcreate⟩
        · rcases hfrom c hc with hgiven | ⟨i, hi, hcreate'⟩
          · exact .inl hgiven
          · exact .inr ⟨i, Nat.lt_succ_of_lt hi, hcreate'⟩
  obtain ⟨hnodup, hlen, -⟩ := hgrow _ conns h
  exact ⟨hnodup, by omega⟩

/-! ## What the operations are of -/

section Loop

variable {T : Type*} {mkRequest : MkRequest T} {strerror : Nat → String} {requests : List T}
  {concurrency : Nat} {conns : List Conn} {st st' : State}

/-- An operation is that of the request at its index. -/
def IsOf (mkRequest : MkRequest T) (requests : List T) (op : Oper) : Prop :=
  ∃ data, requests[op.index]? = some data ∧ op = mkRequest.call data op.conn op.index

structure Made (mkRequest : MkRequest T) (requests : List T) (st : State) : Prop where
  inProgress : ∀ op ∈ st.inProgress, IsOf mkRequest requests op
  options : ∀ conn op, st.options conn = some op → IsOf mkRequest requests op
  performed : ∀ done ∈ st.performed, IsOf mkRequest requests done.1

theorem Made.complete {done : Conn × Transfer} (h : Made mkRequest requests st)
    (hdone : st.complete done = some st') : Made mkRequest requests st' := by
  obtain ⟨-, hdone⟩ := Option.ite_none_right_eq_some.mp hdone
  split at hdone
  · next op hop =>
    obtain rfl := Option.some.inj hdone
    refine ⟨h.inProgress, h.options, fun done hmem => ?_⟩
    rcases List.mem_append.mp hmem with hmem | hmem
    · exact h.performed done hmem
    · rw [List.mem_singleton.mp hmem]
      exact h.options _ op hop
  · obtain rfl := Option.some.inj hdone
    exact ⟨h.inProgress, h.options, h.performed⟩

theorem Made.advance (h : Made mkRequest requests st)
    (hstep : advance mkRequest strerror requests concurrency st = some st') :
    Made mkRequest requests st' := by
  cases advance_cases hstep with
  | @added data conn free _ hdata _ =>
    have hof : IsOf mkRequest requests (mkRequest.call data conn st.reqI) := by
      refine ⟨data, ?_, ?_⟩
      · rw [mkRequest.call_index, hdata]
      · rw [mkRequest.call_conn, mkRequest.call_index]
    refine ⟨fun op hop => ?_, fun c op hop => ?_, h.performed⟩
    · rcases List.mem_append.mp hop with hop | hop
      · exact h.inProgress op hop
      · rw [List.mem_singleton.mp hop]
        exact hof
    · have hupdate : Function.update st.options _ (some (mkRequest.call data conn st.reqI)) c =
        some op := hop
      rw [Function.update_apply] at hupdate
      split at hupdate
      · rw [← Option.some.inj hupdate]
        exact hof
      · exact h.options c op hupdate
  | @read op =>
    refine ⟨fun op' hop' => h.inProgress op' (List.mem_of_mem_erase hop'), fun c op' hop' => ?_,
      h.performed⟩
    have hupdate : Function.update st.options op.conn none c = some op' := hop'
    rw [Function.update_apply] at hupdate
    split at hupdate
    · cases hupdate
    · exact h.options c op' hupdate
  | filled => exact ⟨h.inProgress, h.options, h.performed⟩
  | lost => exact ⟨h.inProgress, h.options, h.performed⟩
  | refreshed => exact ⟨h.inProgress, h.options, h.performed⟩

theorem Made.step {act : Act} (h : Made mkRequest requests st)
    (hstep : step mkRequest strerror requests concurrency st act = some st') :
    Made mkRequest requests st' := by
  cases act with
  | advance => exact h.advance hstep
  | perform done again =>
    obtain ⟨-, st₁, hdone, rfl⟩ := step_perform hstep
    have hkeep : ∀ (past : List (Conn × Transfer)) s e t, Made mkRequest requests s →
        State.complete s e = some t → Made mkRequest requests t :=
      fun _ _ _ _ h hdone => h.complete hdone
    have hmade := Run.run_invariant hkeep done [] st st₁ h hdone
    exact ⟨hmade.inProgress, hmade.options, hmade.performed⟩

theorem run_made {acts : List Act}
    (hrun : Run.run (step mkRequest strerror requests concurrency) (start requests conns) acts =
      some st) : Made mkRequest requests st := by
  have hkeep : ∀ (past : List Act) s e t, Made mkRequest requests s →
      step mkRequest strerror requests concurrency s e = some t → Made mkRequest requests t :=
    fun _ _ _ _ h hstep => h.step hstep
  have hstart : Made mkRequest requests (start requests conns) :=
    ⟨fun _ hop => absurd hop List.not_mem_nil, fun _ _ hop => absurd hop (Option.some_ne_none _).symm,
      fun _ hdone => absurd hdone List.not_mem_nil⟩
  exact Run.run_invariant hkeep acts [] _ st hstart hrun

/-! ## The end of the loop -/

theorem mapM_visit {slots : List Slot} {rs : List (Option Response)}
    (h : slots.mapM Slot.visit = .ok rs) : slots = rs.map Slot.response := by
  induction slots generalizing rs with
  | nil =>
    cases h
    rfl
  | cons slot slots ih =>
    rw [List.mapM_cons] at h
    cases slot with
    | error text => cases h
    | response resp =>
      cases hrest : slots.mapM Slot.visit with
      | error text =>
        rw [hrest] at h
        cases h
      | ok rs' =>
        rw [hrest] at h
        cases h
        rw [List.map_cons, ← ih hrest]

theorem mapM_visit_response (rs : List (Option Response)) :
    (rs.map Slot.response).mapM Slot.visit = .ok rs := by
  induction rs with
  | nil => rfl
  | cons resp rs ih =>
    rw [List.map_cons, List.mapM_cons, ih]
    rfl

/-- Everything was performed. -/
theorem performed_perm (hinv : Inv conns requests.length st) (hphase : st.phase = .returned) :
    st.performedIndices.Perm (List.range requests.length) := by
  obtain ⟨hcore, hfits⟩ := hinv
  rw [hphase] at hfits
  refine (List.perm_ext_iff_of_nodup hcore.performed_nodup List.nodup_range).mpr fun i => ?_
  rw [hcore.mem_performed, List.mem_range, hfits.1, hfits.2]
  exact and_iff_left fun op hop => absurd hop List.not_mem_nil

/-- What there is at the end for a request that was performed. -/
theorem response_of_performed (hinv : Inv conns requests.length st) (hphase : st.phase = .returned)
    {op : Oper} {t : Transfer} (hdone : (op, t) ∈ st.performed) :
    ∃ slot, st.responses[op.index]? = some slot ∧ Answers slot t := by
  obtain ⟨hcore, hfits⟩ := hinv
  rw [hphase] at hfits
  have hmem : op.index ∈ st.performedIndices := List.mem_map.mpr ⟨(op, t), hdone, rfl⟩
  have hlt := ((hcore.mem_performed op.index).mp hmem).1
  obtain ⟨op', t', slot, hdone', hindex, hslot, hanswers⟩ := hcore.answered op.index hlt
    fun op' hop' => by rw [hfits.1] at hop'; exact absurd hop' List.not_mem_nil
  -- no request is performed twice
  have hsame : (op', t') = (op, t) :=
    List.inj_on_of_nodup_map hcore.performed_nodup hdone' hdone hindex
  rw [(Prod.mk.inj hsame).2] at hanswers
  exact ⟨slot, hslot, hanswers⟩

theorem result_ok (hinv : Inv conns requests.length st) (hphase : st.phase = .returned)
    {rs : List (Option Response)} (hresult : st.result = .ok rs) :
    rs.length = requests.length ∧ ∀ op t, (op, t) ∈ st.performed →
      t.code = 0 ∧ rs[op.index]? = some (some t.response) := by
  have hslots := mapM_visit hresult
  refine ⟨?_, fun op t hdone => ?_⟩
  · rw [← hinv.core.length_eq, hslots, List.length_map]
  · obtain ⟨slot, hslot, hanswers⟩ := response_of_performed hinv hphase hdone
    rw [hslots, List.getElem?_map] at hslot
    obtain ⟨resp, hresp, rfl⟩ := Option.map_eq_some_iff.mp hslot
    unfold Answers at hanswers
    split at hanswers
    · next hcode =>
      rw [Slot.response.inj hanswers] at hresp
      exact ⟨hcode, hresp⟩
    · obtain ⟨_, hanswers⟩ := hanswers
      cases hanswers

/-- The responses are returned exactly if no transfer ended in an error. -/
theorem result_ok_iff (hinv : Inv conns requests.length st) (hphase : st.phase = .returned) :
    (∃ rs, st.result = .ok rs) ↔ ∀ done ∈ st.performed, done.2.code = 0 := by
  constructor
  · rintro ⟨rs, hresult⟩ done hdone
    exact ((result_ok hinv hphase hresult).2 done.1 done.2 hdone).1
  · intro hgood
    have hresponse : st.responses ∈ Set.range (List.map Slot.response) := by
      rw [Set.range_list_map]
      intro slot hslot
      obtain ⟨i, hi, hget⟩ := List.mem_iff_getElem.mp hslot
      have hmem : i ∈ st.performedIndices := by
        rw [(performed_perm hinv hphase).mem_iff, List.mem_range, ← hinv.core.length_eq]
        exact hi
      obtain ⟨done, hdone, rfl⟩ := List.mem_map.mp hmem
      obtain ⟨slot', hslot', hanswers⟩ := response_of_performed hinv hphase hdone
      unfold Answers at hanswers
      rw [if_pos (hgood done hdone)] at hanswers
      rw [List.getElem?_eq_getElem hi, hget] at hslot'
      rw [Option.some.inj hslot', hanswers]
      exact ⟨_, rfl⟩
    obtain ⟨rs, hslots⟩ := hresponse
    refine ⟨rs, ?_⟩
    rw [State.result, ← hslots]
    exact mapM_visit_response rs

/-- An error is thrown exactly if a transfer ended in one. -/
theorem result_error_iff (hinv : Inv conns requests.length st) (hphase : st.phase = .returned) :
    (∃ text, st.result = .error text) ↔ ∃ done ∈ st.performed, done.2.code ≠ 0 := by
  have hok := result_ok_iff hinv hphase
  constructor
  · rintro ⟨text, htext⟩
    by_contra hnone
    push Not at hnone
    obtain ⟨rs, hrs⟩ := hok.mpr hnone
    cases htext.symm.trans hrs
  · rintro ⟨done, hdone, hcode⟩
    cases hresult : st.result with
    | error text => exact ⟨text, rfl⟩
    | ok rs => exact absurd (hok.mp ⟨rs, hresult⟩ done hdone) hcode

/-- There are no more operations than asked for. -/
theorem inProgress_le {given : Option Conn} (hcore : Core conns requests.length st)
    (hconcurrency : 1 ≤ concurrency)
    (hlen : conns.length = max given.toList.length (min concurrency requests.length)) :
    st.inProgress.length ≤ min concurrency requests.length := by
  cases hrequests : requests.length with
  | zero =>
    have hnone : st.inProgress = [] := by
      refine List.eq_nil_iff_forall_not_mem.mpr fun op hop => ?_
      have hlt := hcore.index_lt op hop
      have hle := hcore.reqI_le
      omega
    rw [hnone]
    exact Nat.zero_le _
  | succ n =>
    have hle := hcore.conns_perm.length_eq
    rw [List.length_append, List.length_map] at hle
    have hgiven : given.toList.length ≤ 1 := by cases given <;> simp
    omega

end Loop

/-- **Every request is performed once, and the responses are in the order of the requests.**

What curl does is any: how many operations it has done at a time, in what order, and with what results.
The connections can be set up and are distinct. That the end is reached is established for runs in which
curl goes on with what was given to it (`Fair`). -/
theorem do_multi_requests_in_order {T : Type*} (mkRequest : MkRequest T) (strerror : Nat → String)
    (requests : List T) {concurrency : Nat} {given : Option Conn} {create : Nat → Option Conn}
    {conns : List Conn} (hconcurrency : 1 ≤ concurrency) (hdistinct : Distinct given create)
    (hsetUp : setUp given create (min concurrency requests.length) = some conns) :
    -- at any time
    (∀ acts st, Run.run (step mkRequest strerror requests (min concurrency requests.length))
        (start requests conns) acts = some st →
      ((st.inProgress.map Oper.conn).Nodup ∧ st.inProgress.length ≤ min concurrency requests.length) ∧
      (st.performedIndices.Nodup ∧ ∀ done ∈ st.performed, IsOf mkRequest requests done.1) ∧
      ((∃ act st', step mkRequest strerror requests (min concurrency requests.length) st act =
        some st') ∨ st.phase = .returned) ∧
      -- at the end
      (st.phase = .returned →
        st.performedIndices.Perm (List.range requests.length) ∧
        (∀ rs, st.result = .ok rs → rs.length = requests.length ∧
          ∀ op t, (op, t) ∈ st.performed → rs[op.index]? = some (some t.response)) ∧
        ((∃ text, st.result = .error text) ↔ ∃ done ∈ st.performed, done.2.code ≠ 0))) ∧
    -- the end is reached
    ∀ states, Run.Endless (step mkRequest strerror requests (min concurrency requests.length))
      (start requests conns) states → ¬ Fair states := by
  obtain ⟨hconns, hlen⟩ := setUp_spec hdistinct hsetUp
  have hpos : requests ≠ [] → 0 < min concurrency requests.length := by
    intro hrequests
    have := List.length_pos_of_ne_nil hrequests
    omega
  refine ⟨fun acts st hrun => ?_, fun states hendless => ?_⟩
  · have hinv := run_inv hconns hrun
    have hmade := run_made hrun
    refine ⟨⟨hinv.core.conns_nodup hconns, inProgress_le hinv.core hconcurrency hlen⟩,
      ⟨hinv.core.performed_nodup, hmade.performed⟩, step_or_returned hinv, fun hphase => ?_⟩
    refine ⟨performed_perm hinv hphase, fun rs hresult => ?_, result_error_iff hinv hphase⟩
    obtain ⟨hlength, hplaces⟩ := result_ok hinv hphase hresult
    exact ⟨hlength, fun op t hdone => (hplaces op t hdone).2⟩
  · refine not_endless hconns hpos (fun hrequests => ?_) hendless
    refine List.ne_nil_of_length_pos ?_
    have := hpos hrequests
    omega

/-- The second of three requests is over first, and its connection is used for the third. -/
def secondFirst : List Act :=
  [.advance, .advance, .advance, .perform [(0, ⟨0, { statusCode := 304 }⟩)] false,
    .advance, .advance, .advance, .advance,
    .perform [(0, ⟨0, { statusCode := 404 }⟩), (1, ⟨0, { statusCode := 200 }⟩)] false,
    .advance, .advance, .advance]

theorem second_first_in_order :
    ∃ st, Run.run (step mkRequestGet (fun _ => "") ["/a", "/b", "/c"] 2)
        (start ["/a", "/b", "/c"] [1, 0]) secondFirst = some st ∧
      st.phase = .returned ∧ st.performedIndices.Perm [0, 1, 2] ∧
      st.result = .ok [some { statusCode := 200 }, some { statusCode := 304 },
        some { statusCode := 404 }] := by
  have hdistinct : Distinct none some :=
    { created := fun i j c hi hj => Option.some.inj (hi.trans hj.symm)
      given := fun _ c _ => (Option.some_ne_none c).symm }
  have hsetUp : setUp none some (min 2 ["/a", "/b", "/c"].length) = some [1, 0] := rfl
  have horder := (do_multi_requests_in_order mkRequestGet (fun _ => "") ["/a", "/b", "/c"]
    (show 1 ≤ 2 by omega) hdistinct hsetUp).1
  obtain ⟨st, hrun, hphase, hresult⟩ :
      ∃ st, Run.run (step mkRequestGet (fun _ => "") ["/a", "/b", "/c"] 2)
        (start ["/a", "/b", "/c"] [1, 0]) secondFirst = some st ∧ st.phase = .returned ∧
        st.result = .ok [some { statusCode := 200 }, some { statusCode := 304 },
          some { statusCode := 404 }] := ⟨_, rfl, rfl, rfl⟩
  exact ⟨st, hrun, hphase, ((horder secondFirst st hrun).2.2.2 hphase).1, hresult⟩

end RenderMq.MultiRequests
