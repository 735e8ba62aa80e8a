import RenderMq.Http.MultiRequests

/-!
# Handles that are refused

`curl_multi_add_handle` may refuse a handle. Then the request has its response at once, an error, but
its operation stays in progress, and the connection with it: no message ever comes for a handle that
was not added.

`stepWith` is the loop with the requests whose handles are refused; with none it is `step`
(`stepWith_none`). `Ledger` counts the connections that are lost.
-/

namespace RenderMq.MultiRequests

/-! ## The loop -/

/-- A request whose handle is refused. -/
def State.refuse (st : State) (op : Oper) (free : List Conn) : State :=
  { st.add op free with
    multi := st.multi
    responses := st.responses.set st.reqI (.error "Error adding easy handle to curl_multi.") }

section Loop

variable {T : Type*} (mkRequest : MkRequest T) (strerror : Nat → String) (requests : List T)
  (refused : Nat → Bool) (concurrency : Nat)

/-- The program's next step, by the requests whose handles are refused. -/
def advanceWith (st : State) : Option State :=
  match st.phase with
  | .filling =>
    if st.runningHandles < concurrency then
      match requests[st.reqI]?, st.free with
      | some data, conn :: free =>
        let op := mkRequest.call data conn st.reqI
        some (if refused st.reqI then st.refuse op free else st.add op free)
      | _, _ => some { st with phase := .performing, newRunningHandles := st.runningHandles }
    else some { st with phase := .performing, newRunningHandles := st.runningHandles }
  | _ => advance mkRequest strerror requests concurrency st

def stepWith (st : State) : Act → Option State
  | .advance => advanceWith mkRequest strerror requests refused concurrency st
  | .perform done again => step mkRequest strerror requests concurrency st (.perform done again)

/-- Where no handle is refused. -/
theorem stepWith_none :
    stepWith mkRequest strerror requests (fun _ => false) concurrency =
      step mkRequest strerror requests concurrency := by
  funext st act
  cases act with
  | perform done again => rfl
  | advance =>
    show advanceWith mkRequest strerror requests (fun _ => false) concurrency st =
      advance mkRequest strerror requests concurrency st
    unfold advanceWith
    split
    · next hphase =>
      unfold advance
      rw [hphase]
      rfl
    · rfl

end Loop

/-! ## What a step does -/

section Steps

variable {T : Type*} {mkRequest : MkRequest T} {strerror : Nat → String} {requests : List T}
  {refused : Nat → Bool} {concurrency : Nat} {st st' : State}

/-- A request is taken on: there is a connection for it, and room. -/
structure Takes (requests concurrency : Nat) (st : State) (op : Oper) (free : List Conn) : Prop where
  phase : st.phase = .filling
  room : st.runningHandles < concurrency
  lt : st.reqI < requests
  index : op.index = st.reqI
  free : st.free = op.conn :: free

/-- All that the program does by itself. -/
inductive AdvancedWith (mkRequest : MkRequest T) (strerror : Nat → String) (requests : List T)
    (refused : Nat → Bool) (concurrency : Nat) (st : State) : State → Prop
  | added {op : Oper} {free : List Conn} (takes : Takes requests.length concurrency st op free)
      (haccepted : refused st.reqI = false) :
      AdvancedWith mkRequest strerror requests refused concurrency st (st.add op free)
  | refused {op : Oper} {free : List Conn} (takes : Takes requests.length concurrency st op free)
      (hrefused : refused st.reqI = true) :
      AdvancedWith mkRequest strerror requests refused concurrency st (st.refuse op free)
  | filled (hphase : st.phase = .filling)
      (hfull : st.runningHandles < concurrency → st.reqI < requests.length → st.free = []) :
      AdvancedWith mkRequest strerror requests refused concurrency st
        { st with phase := .performing, newRunningHandles := st.runningHandles }
  | read {op : Oper} {code : Nat} {messages : List (Conn × Nat)} (hphase : st.phase = .reading)
      (hop : op ∈ st.inProgress) (hmessages : st.messages = (op.conn, code) :: messages) :
      AdvancedWith mkRequest strerror requests refused concurrency st
        (st.finish strerror op code messages)
  | lost {handle : Conn} {code : Nat} {messages : List (Conn × Nat)} {text : String}
      (hphase : st.phase = .reading) (hmessages : st.messages = (handle, code) :: messages)
      (hnone : ∀ op ∈ st.inProgress, op.conn ≠ handle) :
      AdvancedWith mkRequest strerror requests refused concurrency st
        { st with phase := .failed text }
  | refreshed (hphase : st.phase = .reading) (hmessages : st.messages = []) :
      AdvancedWith mkRequest strerror requests refused concurrency st (st.refresh requests.length)

theorem advanceWith_cases
    (hstep : advanceWith mkRequest strerror requests refused concurrency st = some st') :
    AdvancedWith mkRequest strerror requests refused concurrency st st' := by
  unfold advanceWith at hstep
  split at hstep
  · next hphase =>
    split at hstep
    · next hroom =>
      split at hstep
      · next data conn free hdata hfree =>
        obtain ⟨hlt, -⟩ := List.getElem?_eq_some_iff.mp hdata
        have takes : Takes requests.length concurrency st (mkRequest.call data conn st.reqI) free :=
          { phase := hphase
            room := hroom
            lt := hlt
            index := mkRequest.call_index ..
            free := by rw [mkRequest.call_conn, hfree] }
        obtain rfl := Option.some.inj hstep
        by_cases hrefused : refused st.reqI = true
        · rw [if_pos hrefused]
          exact .refused takes hrefused
        · rw [if_neg hrefused]
          exact .added takes (Bool.eq_false_of_not_eq_true hrefused)
      · next hnot =>
        obtain rfl := Option.some.inj hstep
        exact .filled hphase fun _ hlt => free_eq_nil hlt hnot
    · next hbusy =>
      obtain rfl := Option.some.inj hstep
      exact .filled hphase fun hlt => absurd hlt hbusy
  · next hnot =>
    cases advance_cases hstep with
    | added hphase => exact absurd hphase hnot
    | filled hphase => exact absurd hphase hnot
    | read hphase hop hmessages => exact .read hphase hop hmessages
    | lost hphase hmessages hnone => exact .lost hphase hmessages hnone
    | refreshed hphase hmessages => exact .refreshed hphase hmessages

theorem stepWith_perform {done : List (Conn × Transfer)} {again : Bool}
    (hstep : stepWith mkRequest strerror requests refused concurrency st (.perform done again) =
      some st') :
    st.phase = .performing ∧ ∃ st₁, done.foldlM State.complete st = some st₁ ∧
      st' = { st₁ with
        newRunningHandles := st₁.multi.length
        phase := if again then .performing else .reading } := by
  have hstep' : step mkRequest strerror requests concurrency st (.perform done again) = some st' :=
    hstep
  exact step_perform hstep'

end Steps

/-! ## The invariant -/

/-- How many of the first requests have their handles refused. -/
def refusedBefore (refused : Nat → Bool) (n : Nat) : Nat := (List.range n).countP refused

theorem refusedBefore_succ (refused : Nat → Bool) (n : Nat) :
    refusedBefore refused (n + 1) = refusedBefore refused n + if refused n then 1 else 0 := by
  rw [refusedBefore, List.range_succ, List.countP_append, List.countP_singleton]
  rfl

theorem refusedBefore_mono (refused : Nat → Bool) {m n : Nat} (h : m ≤ n) :
    refusedBefore refused m ≤ refusedBefore refused n := by
  induction n, h using Nat.le_induction with
  | base => exact Nat.le_refl _
  | succ n _ ih =>
    rw [refusedBefore_succ]
    omega

theorem refusedBefore_le (refused : Nat → Bool) (n : Nat) : refusedBefore refused n ≤ n := by
  refine List.countP_le_length.trans ?_
  rw [List.length_range]

/-- The operations that curl was given. -/
def State.accepted (refused : Nat → Bool) (st : State) : List Oper :=
  st.inProgress.filter fun op => !refused op.index

/-- What every step keeps, whatever is refused. -/
structure Ledger (refused : Nat → Bool) (conns : List Conn) (requests concurrency : Nat)
    (st : State) : Prop where
  /-- Each connection is free or has one operation. -/
  conns_perm : (st.free ++ st.inProgress.map Oper.conn).Perm conns
  /-- The transfer of each operation that curl was given is going on, or the program is about to be
  told. -/
  running_perm :
    (st.multi ++ st.messages.map Prod.fst).Perm ((st.accepted refused).map Oper.conn)
  options_eq : ∀ op ∈ st.accepted refused, st.options op.conn = some op
  /-- All that were refused are in progress. -/
  refused_eq : (st.inProgress.countP fun op => refused op.index) = refusedBefore refused st.reqI
  reqI_le : st.reqI ≤ requests
  length_eq : st.responses.length = requests
  index_lt : ∀ op ∈ st.inProgress, op.index < st.reqI
  performed_le : st.performed.length + st.multi.length ≤ st.reqI
  answered : ∀ i < st.reqI, (∀ op ∈ st.accepted refused, op.index ≠ i) →
    ∃ slot, st.responses[i]? = some slot ∧ slot ≠ .response none
  /-- There was a connection for the last request that was started. -/
  started : st.reqI = 0 ∨ 0 < concurrency ∧ refusedBefore refused (st.reqI - 1) < conns.length

/-- What holds in a phase. -/
def Phase.FitsWith (requests : Nat) (st : State) : Phase → Prop
  | .filling => True
  | .performing => True
  | .reading => st.newRunningHandles = st.multi.length
  | .returned => st.multi = [] ∧ st.messages = [] ∧ st.reqI = requests
  | .failed _ => False

structure InvWith (refused : Nat → Bool) (conns : List Conn) (requests concurrency : Nat)
    (st : State) : Prop where
  ledger : Ledger refused conns requests concurrency st
  fits : st.phase.FitsWith requests st

namespace Ledger

variable {refused : Nat → Bool} {conns : List Conn} {requests concurrency : Nat} {st : State}

theorem conns_nodup (h : Ledger refused conns requests concurrency st) (hconns : conns.Nodup) :
    (st.inProgress.map Oper.conn).Nodup :=
  (List.nodup_append.mp (h.conns_perm.nodup_iff.mpr hconns)).2.1

/-- A connection has one operation. -/
theorem eq_of_conn (h : Ledger refused conns requests concurrency st) (hconns : conns.Nodup)
    {op op' : Oper} (hop : op ∈ st.inProgress) (hop' : op' ∈ st.inProgress)
    (hconn : op.conn = op'.conn) : op = op' :=
  List.inj_on_of_nodup_map (h.conns_nodup hconns) hop hop' hconn

/-- A connection that curl knows of has an operation. -/
theorem exists_oper (h : Ledger refused conns requests concurrency st) {c : Conn}
    (hc : c ∈ st.multi ++ st.messages.map Prod.fst) : ∃ op ∈ st.accepted refused, op.conn = c :=
  List.mem_map.mp (h.running_perm.mem_iff.mp hc)

theorem accepted_subset {op : Oper} (hop : op ∈ st.accepted refused) :
    op ∈ st.inProgress ∧ refused op.index = false := by
  obtain ⟨hop, haccepted⟩ := List.mem_filter.mp hop
  exact ⟨hop, by simpa using haccepted⟩

/-- Operations in progress are refused, going on, or about to be told of. -/
theorem length_inProgress (h : Ledger refused conns requests concurrency st) :
    st.inProgress.length =
      refusedBefore refused st.reqI + (st.multi.length + st.messages.length) := by
  have hrunning := h.running_perm.length_eq
  rw [List.length_append, List.length_map, List.length_map] at hrunning
  rw [hrunning, State.accepted, ← List.countP_eq_length_filter, ← h.refused_eq,
    List.length_eq_countP_add_countP fun op => refused op.index]
  simp only [Bool.not_eq_true, Bool.decide_eq_false]

/-! ### Taking a request on -/

section Takes

variable {op : Oper} {free : List Conn}

theorem conn_ne_of_takes (h : Ledger refused conns requests concurrency st) (hconns : conns.Nodup)
    (takes : Takes requests concurrency st op free) :
    ∀ op' ∈ st.inProgress, op'.conn ≠ op.conn := by
  intro op' hop' hconn
  have hnodup := h.conns_perm.nodup_iff.mpr hconns
  rw [takes.free] at hnodup
  exact (List.nodup_append.mp hnodup).2.2 op.conn List.mem_cons_self op'.conn
    (List.mem_map_of_mem hop') hconn.symm

/-- The connection goes from those that are free to those that are used. -/
theorem conns_perm_of_takes (h : Ledger refused conns requests concurrency st)
    (takes : Takes requests concurrency st op free) :
    (free ++ (st.inProgress ++ [op]).map Oper.conn).Perm conns := by
  refine List.Perm.trans ?_ h.conns_perm
  rw [takes.free, List.map_append, ← List.append_assoc]
  exact List.perm_append_singleton op.conn _

theorem started_of_takes (h : Ledger refused conns requests concurrency st)
    (takes : Takes requests concurrency st op free) :
    0 < concurrency ∧ refusedBefore refused st.reqI < conns.length := by
  refine ⟨Nat.zero_lt_of_lt takes.room, ?_⟩
  have hlength := h.conns_perm.length_eq
  rw [List.length_append, List.length_map, takes.free, List.length_cons] at hlength
  have hle : (st.inProgress.countP fun op => refused op.index) ≤ st.inProgress.length :=
    List.countP_le_length
  rw [h.refused_eq] at hle
  omega

theorem index_lt_of_takes (h : Ledger refused conns requests concurrency st)
    (takes : Takes requests concurrency st op free) :
    ∀ op' ∈ st.inProgress ++ [op], op'.index < st.reqI + 1 := by
  intro op' hop'
  rcases List.mem_append.mp hop' with hop' | hop'
  · exact Nat.lt_succ_of_lt (h.index_lt op' hop')
  · rw [List.mem_singleton.mp hop', takes.index]
    exact Nat.lt_succ_self _

theorem countP_of_takes (h : Ledger refused conns requests concurrency st)
    (takes : Takes requests concurrency st op free) :
    ((st.inProgress ++ [op]).countP fun op => refused op.index) =
      refusedBefore refused (st.reqI + 1) := by
  rw [List.countP_append, h.refused_eq, refusedBefore_succ, List.countP_singleton, takes.index]

theorem add (h : Ledger refused conns requests concurrency st) (hconns : conns.Nodup)
    (takes : Takes requests concurrency st op free) (haccepted : refused st.reqI = false) :
    Ledger refused conns requests concurrency (st.add op free) := by
  have hfilter : (st.add op free).accepted refused = st.accepted refused ++ [op] := by
    show (st.inProgress ++ [op]).filter _ = _
    rw [List.filter_append, List.filter_singleton, takes.index, haccepted]
    rfl
  refine
    { conns_perm := h.conns_perm_of_takes takes, running_perm := ?_, options_eq := ?_,
      refused_eq := h.countP_of_takes takes, reqI_le := takes.lt, length_eq := h.length_eq,
      index_lt := h.index_lt_of_takes takes, performed_le := ?_, answered := ?_,
      started := .inr (h.started_of_takes takes) }
  · rw [hfilter, List.map_append]
    show ((st.multi ++ [op.conn]) ++ st.messages.map Prod.fst).Perm _
    refine List.Perm.trans ?_ (h.running_perm.append_right _)
    rw [List.append_assoc, List.append_assoc]
    exact List.perm_append_comm.append_left st.multi
  · intro op' hop'
    rw [hfilter] at hop'
    show Function.update st.options op.conn (some op) op'.conn = some op'
    rcases List.mem_append.mp hop' with hop' | hop'
    · rw [Function.update_of_ne (h.conn_ne_of_takes hconns takes op' (accepted_subset hop').1)]
      exact h.options_eq op' hop'
    · rw [List.mem_singleton.mp hop', Function.update_self]
  · have hle := h.performed_le
    show st.performed.length + (st.multi ++ [op.conn]).length ≤ st.reqI + 1
    rw [List.length_append, List.length_singleton]
    omega
  · intro i hi hnot
    rw [hfilter] at hnot
    have hne := hnot op (List.mem_append_right _ (List.mem_singleton_self op))
    rw [takes.index] at hne
    have hi' : i < st.reqI + 1 := hi
    exact h.answered i (by omega) fun op' hop' => hnot op' (List.mem_append_left _ hop')

/-- The response is there at once, and the connection is not free again. -/
theorem refuse (h : Ledger refused conns requests concurrency st) (hconns : conns.Nodup)
    (takes : Takes requests concurrency st op free) (hrefused : refused st.reqI = true) :
    Ledger refused conns requests concurrency (st.refuse op free) := by
  have hfilter : (st.refuse op free).accepted refused = st.accepted refused := by
    show (st.inProgress ++ [op]).filter _ = _
    rw [List.filter_append, List.filter_singleton, takes.index, hrefused]
    exact List.append_nil _
  have hlt : st.reqI < st.responses.length := by
    rw [h.length_eq]
    exact takes.lt
  refine
    { conns_perm := h.conns_perm_of_takes takes, running_perm := ?_, options_eq := ?_,
      refused_eq := h.countP_of_takes takes, reqI_le := takes.lt, length_eq := ?_,
      index_lt := h.index_lt_of_takes takes, performed_le := h.performed_le.trans (Nat.le_succ _),
      answered := ?_, started := .inr (h.started_of_takes takes) }
  · rw [hfilter]
    exact h.running_perm
  · intro op' hop'
    rw [hfilter] at hop'
    show Function.update st.options op.conn (some op) op'.conn = some op'
    rw [Function.update_of_ne (h.conn_ne_of_takes hconns takes op' (accepted_subset hop').1)]
    exact h.options_eq op' hop'
  · show (st.responses.set _ _).length = requests
    rw [List.length_set, h.length_eq]
  · intro i hi hnot
    rw [hfilter] at hnot
    have hi' : i < st.reqI + 1 := hi
    show ∃ slot, (st.responses.set st.reqI _)[i]? = some slot ∧ _
    by_cases hlast : st.reqI = i
    · subst hlast
      exact ⟨_, List.getElem?_set_self hlt, Slot.noConfusion⟩
    · rw [List.getElem?_set_ne hlast]
      exact h.answered i (by omega) hnot

end Takes

/-! ### The end of a transfer -/

theorem complete (h : Ledger refused conns requests concurrency st) {op : Oper}
    (hmulti : op.conn ∈ st.multi) (t : Transfer) :
    Ledger refused conns requests concurrency
      { st with
        multi := st.multi.erase op.conn
        messages := st.messages ++ [(op.conn, t.code)]
        info := Function.update st.info op.conn t.response
        bodies := Function.update st.bodies op.index t.response.body
        performed := st.performed ++ [(op, t)] } := by
  refine { h with running_perm := ?_, performed_le := ?_ }
  · exact (perm_told hmulti t.code).trans h.running_perm
  · have hle := h.performed_le
    have hpos := List.length_pos_of_mem hmulti
    show (st.performed ++ [(op, t)]).length + (st.multi.erase op.conn).length ≤ st.reqI
    rw [List.length_append, List.length_singleton, List.length_erase_of_mem hmulti]
    omega

/-! ### The end of an operation -/

theorem finish (h : Ledger refused conns requests concurrency st) (hconns : conns.Nodup)
    (strerror : Nat → String) {op : Oper} {code : Nat} {messages : List (Conn × Nat)}
    (hop : op ∈ st.accepted refused) (hmessages : st.messages = (op.conn, code) :: messages) :
    Ledger refused conns requests concurrency (st.finish strerror op code messages) := by
  obtain ⟨hmem, haccepted⟩ := accepted_subset hop
  have hperm : st.inProgress.Perm (op :: st.inProgress.erase op) := List.perm_cons_erase hmem
  have hfilter : (st.accepted refused).Perm
      (op :: (st.finish strerror op code messages).accepted refused) := by
    refine (hperm.filter fun op => !refused op.index).trans ?_
    rw [List.filter_cons, haccepted]
    exact List.Perm.refl _
  have hlt : op.index < st.responses.length := by
    rw [h.length_eq]
    exact (h.index_lt op hmem).trans_le h.reqI_le
  refine
    { conns_perm := ?_, running_perm := ?_, options_eq := ?_, refused_eq := ?_,
      reqI_le := h.reqI_le, length_eq := ?_,
      index_lt := fun op' hop' => h.index_lt op' (List.mem_of_mem_erase hop'),
      performed_le := h.performed_le, answered := ?_, started := h.started }
  · show (op.conn :: st.free ++ (st.inProgress.erase op).map Oper.conn).Perm conns
    refine List.Perm.trans ?_ h.conns_perm
    exact List.perm_middle.symm.trans ((hperm.map Oper.conn).symm.append_left st.free)
  · have hrunning := h.running_perm.trans (hfilter.map Oper.conn)
    rw [hmessages, List.map_cons] at hrunning
    exact List.Perm.cons_inv (List.perm_middle.symm.trans hrunning)
  · intro op' hop'
    have hnodup : (op :: st.inProgress.erase op).Nodup :=
      hperm.nodup_iff.mp (h.conns_nodup hconns).of_map
    have herase := (accepted_subset hop').1
    have hne : op'.conn ≠ op.conn := by
      intro hconn
      have hsame := h.eq_of_conn hconns (List.mem_of_mem_erase herase) hmem hconn
      rw [hsame] at herase
      exact (List.nodup_cons.mp hnodup).1 herase
    show Function.update st.options op.conn none op'.conn = some op'
    rw [Function.update_of_ne hne]
    exact h.options_eq op' (hfilter.mem_iff.mpr (List.mem_cons_of_mem _ hop'))
  · show (st.inProgress.erase op).countP _ = refusedBefore refused st.reqI
    rw [← h.refused_eq, hperm.countP_eq, List.countP_cons, haccepted]
    rfl
  · show (st.responses.set _ _).length = requests
    rw [List.length_set, h.length_eq]
  · intro i hi hnot
    show ∃ slot, (st.responses.set op.index _)[i]? = some slot ∧ _
    by_cases hindex : op.index = i
    · subst hindex
      refine ⟨_, List.getElem?_set_self hlt, ?_⟩
      unfold Oper.finish
      split <;> simp
    · rw [List.getElem?_set_ne hindex]
      refine h.answered i hi fun op' hop' => ?_
      rcases List.mem_cons.mp (hfilter.mem_iff.mp hop') with rfl | hop'
      · exact hindex
      · exact hnot op' hop'

end Ledger

/-! ## Every step keeps it -/

section Steps

variable {T : Type*} {mkRequest : MkRequest T} {strerror : Nat → String} {requests : List T}
  {refused : Nat → Bool} {concurrency : Nat} {conns : List Conn} {st st' : State}

/-- A transfer that ends is performed, for its operation. -/
theorem complete_ledger {done : Conn × Transfer}
    (h : Ledger refused conns requests.length concurrency st) (hdone : st.complete done = some st') :
    Ledger refused conns requests.length concurrency st' ∧
      st'.performed.length = st.performed.length + 1 ∧ st'.reqI = st.reqI := by
  obtain ⟨hmulti, hdone⟩ := Option.ite_none_right_eq_some.mp hdone
  obtain ⟨op, hop, hconn⟩ := h.exists_oper (List.mem_append_left _ hmulti)
  rw [← hconn] at hmulti hdone
  rw [h.options_eq op hop] at hdone
  obtain rfl := Option.some.inj hdone
  exact ⟨h.complete hmulti done.2, List.length_append, rfl⟩

theorem complete_run {done : List (Conn × Transfer)}
    (h : Ledger refused conns requests.length concurrency st)
    (hdone : done.foldlM State.complete st = some st') :
    Ledger refused conns requests.length concurrency st' ∧
      st'.performed.length = st.performed.length + done.length ∧ st'.reqI = st.reqI := by
  induction done generalizing st with
  | nil =>
    obtain rfl := Option.some.inj hdone
    exact ⟨h, rfl, rfl⟩
  | cons first done ih =>
    obtain ⟨st₁, hfirst, hrest⟩ := Run.run_cons hdone
    obtain ⟨hledger, hperformed, hreqI⟩ := complete_ledger h hfirst
    obtain ⟨hledger', hperformed', hreqI'⟩ := ih hledger hrest
    refine ⟨hledger', ?_, hreqI'.trans hreqI⟩
    rw [hperformed', hperformed, List.length_cons]
    omega

theorem advanceWith_inv (hconns : conns.Nodup)
    (h : InvWith refused conns requests.length concurrency st)
    (hstep : advanceWith mkRequest strerror requests refused concurrency st = some st') :
    InvWith refused conns requests.length concurrency st' := by
  obtain ⟨hledger, hfits⟩ := h
  cases advanceWith_cases hstep with
  | added takes haccepted =>
    refine ⟨hledger.add hconns takes haccepted, ?_⟩
    show Phase.FitsWith _ _ st.phase
    rw [takes.phase]
    exact trivial
  | refused takes hrefused =>
    refine ⟨hledger.refuse hconns takes hrefused, ?_⟩
    show Phase.FitsWith _ _ st.phase
    rw [takes.phase]
    exact trivial
  | filled => exact ⟨{ hledger with }, trivial⟩
  | @read op code messages hphase hop hmessages =>
    rw [hphase] at hfits
    -- it is an operation that curl was given
    obtain ⟨op', hop', hconn⟩ := hledger.exists_oper
      (List.mem_append_right _ (by rw [hmessages]; exact List.mem_cons_self))
    obtain rfl := hledger.eq_of_conn hconns (Ledger.accepted_subset hop').1 hop hconn
    refine ⟨hledger.finish hconns strerror hop' hmessages, ?_⟩
    show Phase.FitsWith _ _ st.phase
    rw [hphase]
    exact hfits
  | lost hphase hmessages hnone =>
    obtain ⟨op, hop, hconn⟩ := hledger.exists_oper
      (List.mem_append_right _ (by rw [hmessages]; exact List.mem_cons_self))
    exact absurd hconn (hnone op (Ledger.accepted_subset hop).1)
  | refreshed hphase hmessages =>
    rw [hphase] at hfits
    refine ⟨{ hledger with }, ?_⟩
    show Phase.FitsWith _ _ (if _ then Phase.returned else Phase.filling)
    split
    · next hend => exact ⟨List.eq_nil_of_length_eq_zero (hfits.symm.trans hend.1), hmessages, hend.2⟩
    · exact trivial

/-- **Every step keeps the invariant.** -/
theorem stepWith_inv (hconns : conns.Nodup) {act : Act}
    (h : InvWith refused conns requests.length concurrency st)
    (hstep : stepWith mkRequest strerror requests refused concurrency st act = some st') :
    InvWith refused conns requests.length concurrency st' := by
  cases act with
  | advance => exact advanceWith_inv hconns h hstep
  | perform done again =>
    obtain ⟨-, st₁, hdone, rfl⟩ := stepWith_perform hstep
    refine ⟨{ (complete_run h.ledger hdone).1 with }, ?_⟩
    cases again with
    | true => exact trivial
    | false => exact rfl

theorem start_invWith : InvWith refused conns requests.length concurrency (start requests conns) where
  ledger :=
    { conns_perm := by rw [start, List.map_nil, List.append_nil]
      running_perm := .nil
      options_eq := fun _ hop => absurd hop List.not_mem_nil
      refused_eq := rfl
      reqI_le := Nat.zero_le _
      length_eq := List.length_replicate
      index_lt := fun _ hop => absurd hop List.not_mem_nil
      performed_le := Nat.le_refl 0
      answered := fun _ hi => absurd hi (Nat.not_lt_zero _)
      started := .inl rfl }
  fits := trivial

/-- It holds after any run. -/
theorem run_invWith (hconns : conns.Nodup) {acts : List Act}
    (hrun : Run.run (stepWith mkRequest strerror requests refused concurrency)
      (start requests conns) acts = some st) :
    InvWith refused conns requests.length concurrency st := by
  have hkeep : ∀ (past : List Act) s e t, InvWith refused conns requests.length concurrency s →
      stepWith mkRequest strerror requests refused concurrency s e = some t →
      InvWith refused conns requests.length concurrency t :=
    fun _ _ _ _ h hstep => stepWith_inv hconns h hstep
  exact Run.run_invariant hkeep acts [] _ st start_invWith hrun

end Steps

end RenderMq.MultiRequests
