import RenderMq.Lib.Run
import RenderMq.Storage.Http

/-!
# Many requests at once

`do_multi_requests` performs a list of requests on a few connections, each connection one request after
another. Its loop adds requests while there are free connections (`Phase.filling`), lets curl work
(`Phase.performing`), and reads curl's messages about the transfers that ended (`Phase.reading`).

curl is a scheduler. While it works it may end any of the transfers, in any order (`Act.perform`).
Everything else is the program's own (`Act.advance`). A transfer is of the request that the connection was
set up for (`State.options`), and `performed` records what came of each.

`Inv` ties free connections, operations in progress and responses together; `step_inv` says that every
step keeps it.
-/

namespace RenderMq.MultiRequests

/-- A `CURL` handle. -/
abbrev Conn := Nat

/-! ## Operations -/

/-- `curl_oper`. -/
structure Oper where
  index : Nat
  conn : Conn
  url : String
  operType : String
  deriving DecidableEq

/-- `mk_request`: the operation for a request, on a connection and at an index. -/
structure MkRequest (T : Type*) where
  call : T → Conn → Nat → Oper
  call_index : ∀ req conn index, (call req conn index).index = index
  call_conn : ∀ req conn index, (call req conn index).conn = conn

/-- `mk_request_single`: the URL, and what is posted. -/
def mkRequestSingle : MkRequest (String × Bytes) where
  call req conn index := { index := index, conn := conn, url := req.1, operType := "POST" }
  call_index _ _ _ := rfl
  call_conn _ _ _ := rfl

/-- `mk_request_form`: the URL, and the parts of the form. -/
def mkRequestForm : MkRequest (String × List Bytes) where
  call req conn index := { index := index, conn := conn, url := req.1, operType := "POST" }
  call_index _ _ _ := rfl
  call_conn _ _ _ := rfl

/-- `mk_request_get`: the URL. -/
def mkRequestGet : MkRequest String where
  call req conn index := { index := index, conn := conn, url := req, operType := "GET" }
  call_index _ _ _ := rfl
  call_conn _ _ _ := rfl

/-- How a transfer ended: curl's result, and what was received. -/
structure Transfer where
  code : Nat
  response : Response
  deriving DecidableEq

/-- `response_or_error_t`. As it is allocated it is a null pointer to a response. -/
inductive Slot where
  | response (resp : Option Response)
  | error (text : String)
  deriving DecidableEq

/-- `finish`. The body was received by the operation; the status and the time are those of the
connection's last transfer. -/
def Oper.finish (strerror : Nat → String) (op : Oper) (code : Nat) (info : Response) (body : Bytes) :
    Slot :=
  if code = 0 then
    .response (some { statusCode := info.statusCode, timeStamp := info.timeStamp, body := body })
  else .error ("CURL error on " ++ op.operType ++ " to `" ++ op.url ++ "',:" ++ strerror code)

/-! ## The loop -/

inductive Phase where
  | filling
  | performing
  | reading
  | returned
  | failed (text : String)
  deriving DecidableEq

/-- The variables of `do_multi_requests`, and what curl knows. -/
structure State where
  phase : Phase
  /-- A stack, with its top first. -/
  free : List Conn
  inProgress : List Oper
  reqI : Nat
  runningHandles : Nat
  newRunningHandles : Nat
  responses : List Slot
  /-- The connections whose transfer is going on. -/
  multi : List Conn
  /-- The ended transfers of which the program was not told yet. -/
  messages : List (Conn × Nat)
  /-- The operation that each connection is set up for. -/
  options : Conn → Option Oper
  /-- What each connection knows of its last transfer. -/
  info : Conn → Response
  /-- The body that each operation received. -/
  bodies : Nat → Bytes
  /-- All transfers that ended, with the operations they were of. -/
  performed : List (Oper × Transfer)

namespace State

/-- The indices of the requests that were performed. -/
def performedIndices (st : State) : List Nat := st.performed.map fun done => done.1.index

/-- A request is started on a connection, which it sets up. -/
def add (st : State) (op : Oper) (free : List Conn) : State :=
  { st with
    free := free
    inProgress := st.inProgress ++ [op]
    multi := st.multi ++ [op.conn]
    options := Function.update st.options op.conn (some op)
    bodies := Function.update st.bodies op.index []
    reqI := st.reqI + 1 }

/-- A transfer ends. -/
def complete (st : State) (done : Conn × Transfer) : Option State :=
  if done.1 ∈ st.multi then
    match st.options done.1 with
    | some op =>
      some { st with
        multi := st.multi.erase done.1
        messages := st.messages ++ [(done.1, done.2.code)]
        info := Function.update st.info done.1 done.2.response
        bodies := Function.update st.bodies op.index done.2.response.body
        performed := st.performed ++ [(op, done.2)] }
    | none =>
      some { st with
        multi := st.multi.erase done.1
        messages := st.messages ++ [(done.1, done.2.code)] }
  else none

/-- An operation is over: its response is kept, and its connection is reset and free again. -/
def finish (strerror : Nat → String) (st : State) (op : Oper) (code : Nat)
    (messages : List (Conn × Nat)) : State :=
  { st with
    messages := messages
    inProgress := st.inProgress.erase op
    responses := st.responses.set op.index
      (op.finish strerror code (st.info op.conn) (st.bodies op.index))
    free := op.conn :: st.free
    options := Function.update st.options op.conn none }

/-- The end of a round. -/
def refresh (st : State) (requests : Nat) : State :=
  { st with
    runningHandles := st.newRunningHandles
    phase :=
      if st.newRunningHandles = 0 ∧ st.reqI = requests then .returned else .filling }

end State

/-- What happens next. -/
inductive Act where
  /-- The program goes on. -/
  | advance
  /-- A call of `curl_multi_perform`: the transfers that end in it, and whether curl wants another. -/
  | perform (done : List (Conn × Transfer)) (again : Bool)

section Loop

variable {T : Type*} (mkRequest : MkRequest T) (strerror : Nat → String) (requests : List T)
  (concurrency : Nat)

/-- The program's next step, where it is the program's turn. -/
def advance (st : State) : Option State :=
  match st.phase with
  | .filling =>
    if st.runningHandles < concurrency then
      match requests[st.reqI]?, st.free with
      | some data, conn :: free => some (st.add (mkRequest.call data conn st.reqI) free)
      | _, _ => some { st with phase := .performing, newRunningHandles := st.runningHandles }
    else some { st with phase := .performing, newRunningHandles := st.runningHandles }
  | .reading =>
    match st.messages with
    | [] => some (st.refresh requests.length)
    | (handle, code) :: messages =>
      match st.inProgress.find? fun op => op.conn = handle with
      | some op => some (st.finish strerror op code messages)
      | none =>
        some { st with phase := .failed "Request finished, but cannot find matching record." }
  | _ => none

def step (st : State) : Act → Option State
  | .advance => advance mkRequest strerror requests concurrency st
  | .perform done again =>
    if st.phase = .performing then
      (done.foldlM State.complete st).map fun st =>
        { st with
          newRunningHandles := st.multi.length
          phase := if again then .performing else .reading }
    else none

/-- The connections at the start: the given one, and new ones up to the number needed. -/
def setUp (given : Option Conn) (create : Nat → Option Conn) (concurrency : Nat) :
    Option (List Conn) :=
  (List.range (concurrency - given.toList.length)).foldlM
    (fun free k => (create k).map fun conn => conn :: free) given.toList

/-- The start of the loop. -/
def start (free : List Conn) : State where
  phase := .filling
  free := free
  inProgress := []
  reqI := 0
  runningHandles := 0
  newRunningHandles := 0
  responses := List.replicate requests.length (.response none)
  multi := []
  messages := []
  options := fun _ => none
  info := fun _ => {}
  bodies := fun _ => []
  performed := []

end Loop

/-- `response_or_error_visitor`. -/
def Slot.visit : Slot → Except String (Option Response)
  | .response resp => .ok resp
  | .error text => .error text

/-- What is returned at the end: the responses, or the first error is thrown. -/
def State.result (st : State) : Except String (List (Option Response)) := st.responses.mapM Slot.visit

/-! ## What a step does -/

section Steps

variable {T : Type*} {mkRequest : MkRequest T} {strerror : Nat → String} {requests : List T}
  {concurrency : Nat} {st st' : State}

/-- All that the program does by itself. -/
inductive Advanced (mkRequest : MkRequest T) (strerror : Nat → String) (requests : List T)
    (concurrency : Nat) (st : State) : State → Prop
  | added {data : T} {conn : Conn} {free : List Conn} (hphase : st.phase = .filling)
      (hdata : requests[st.reqI]? = some data) (hfree : st.free = conn :: free) :
      Advanced mkRequest strerror requests concurrency st
        (st.add (mkRequest.call data conn st.reqI) free)
  | filled (hphase : st.phase = .filling)
      (hfull : st.runningHandles < concurrency → st.reqI < requests.length → st.free = []) :
      Advanced mkRequest strerror requests concurrency st
        { st with phase := .performing, newRunningHandles := st.runningHandles }
  | read {op : Oper} {code : Nat} {messages : List (Conn × Nat)} (hphase : st.phase = .reading)
      (hop : op ∈ st.inProgress) (hmessages : st.messages = (op.conn, code) :: messages) :
      Advanced mkRequest strerror requests concurrency st (st.finish strerror op code messages)
  | lost {handle : Conn} {code : Nat} {messages : List (Conn × Nat)} {text : String}
      (hphase : st.phase = .reading) (hmessages : st.messages = (handle, code) :: messages)
      (hnone : ∀ op ∈ st.inProgress, op.conn ≠ handle) :
      Advanced mkRequest strerror requests concurrency st { st with phase := .failed text }
  | refreshed (hphase : st.phase = .reading) (hmessages : st.messages = []) :
      Advanced mkRequest strerror requests concurrency st (st.refresh requests.length)

/-- Where there is a request to start, only a connection can be missing. -/
theorem free_eq_nil (hlt : st.reqI < requests.length)
    (hnot : ∀ data conn free, requests[st.reqI]? = some data → st.free = conn :: free → False) :
    st.free = [] := by
  cases hfree : st.free with
  | nil => rfl
  | cons conn free => exact (hnot _ conn free (List.getElem?_eq_getElem hlt) hfree).elim

theorem advance_cases (hstep : advance mkRequest strerror requests concurrency st = some st') :
    Advanced mkRequest strerror requests concurrency st st' := by
  unfold advance at hstep
  split at hstep
  · next hphase =>
    split at hstep
    · split at hstep
      · next data conn free hdata hfree =>
        obtain rfl := Option.some.inj hstep
        exact .added hphase hdata hfree
      · next hnot =>
        obtain rfl := Option.some.inj hstep
        exact .filled hphase fun _ hlt => free_eq_nil hlt hnot
    · next hbusy =>
      obtain rfl := Option.some.inj hstep
      exact .filled hphase fun hlt => absurd hlt hbusy
  · next hphase =>
    split at hstep
    · next hmessages =>
      obtain rfl := Option.some.inj hstep
      exact .refreshed hphase hmessages
    · next handle code messages hmessages =>
      split at hstep
      · next op hfind =>
        obtain rfl := Option.some.inj hstep
        obtain rfl : op.conn = handle := by simpa using List.find?_some hfind
        exact .read hphase (List.mem_of_find?_eq_some hfind) hmessages
      · next hnone =>
        obtain rfl := Option.some.inj hstep
        refine .lost hphase hmessages fun op hop hconn => ?_
        exact absurd (decide_eq_true hconn) (List.find?_eq_none.mp hnone op hop)
  · cases hstep

theorem step_perform {done : List (Conn × Transfer)} {again : Bool}
    (hstep : step mkRequest strerror requests concurrency st (.perform done again) = some st') :
    st.phase = .performing ∧ ∃ st₁, done.foldlM State.complete st = some st₁ ∧
      st' = { st₁ with
        newRunningHandles := st₁.multi.length
        phase := if again then .performing else .reading } := by
  obtain ⟨hphase, hstep⟩ := Option.ite_none_right_eq_some.mp hstep
  obtain ⟨st₁, hdone, rfl⟩ := Option.map_eq_some_iff.mp hstep
  exact ⟨hphase, st₁, hdone, rfl⟩

end Steps

/-! ## The invariant -/

/-- A slot holds what came of a transfer. -/
def Answers (slot : Slot) (t : Transfer) : Prop :=
  if t.code = 0 then slot = .response (some t.response) else ∃ text, slot = .error text

/-- What every step keeps, whatever the phase. -/
structure Core (conns : List Conn) (requests : Nat) (st : State) : Prop where
  /-- Each connection is free or has one operation. -/
  conns_perm : (st.free ++ st.inProgress.map Oper.conn).Perm conns
  /-- The transfer of each operation is going on, or the program is about to be told. -/
  running_perm : (st.multi ++ st.messages.map Prod.fst).Perm (st.inProgress.map Oper.conn)
  options_eq : ∀ op ∈ st.inProgress, st.options op.conn = some op
  index_lt : ∀ op ∈ st.inProgress, op.index < st.reqI
  index_nodup : (st.inProgress.map Oper.index).Nodup
  reqI_le : st.reqI ≤ requests
  length_eq : st.responses.length = requests
  /-- What was started and is not going on was performed, once. -/
  performed_nodup : st.performedIndices.Nodup
  mem_performed : ∀ i, i ∈ st.performedIndices ↔
    i < st.reqI ∧ ∀ op ∈ st.inProgress, op.conn ∈ st.multi → op.index ≠ i
  told : ∀ op ∈ st.inProgress, ∀ code, (op.conn, code) ∈ st.messages →
    ∃ t, (op, t) ∈ st.performed ∧ t.code = code ∧ st.info op.conn = t.response ∧
      st.bodies op.index = t.response.body
  answered : ∀ i < st.reqI, (∀ op ∈ st.inProgress, op.index ≠ i) →
    ∃ op t slot, (op, t) ∈ st.performed ∧ op.index = i ∧ st.responses[i]? = some slot ∧
      Answers slot t

/-- What holds in a phase. -/
def Phase.Fits (requests : Nat) (st : State) : Phase → Prop
  | .filling => st.messages = [] ∧ st.runningHandles ≤ st.multi.length
  | .performing => True
  | .reading => st.newRunningHandles = st.multi.length
  | .returned => st.inProgress = [] ∧ st.reqI = requests
  | .failed _ => False

structure Inv (conns : List Conn) (requests : Nat) (st : State) : Prop where
  core : Core conns requests st
  fits : st.phase.Fits requests st

theorem Oper.finish_answers (strerror : Nat → String) (op : Oper) {t : Transfer} {info : Response}
    {body : Bytes} (hinfo : info = t.response) (hbody : body = t.response.body) :
    Answers (op.finish strerror t.code info body) t := by
  unfold Answers Oper.finish
  split
  · rw [hinfo, hbody]
  · exact ⟨_, rfl⟩

/-- A transfer that ends goes from those that are going on to those that are told of. -/
theorem perm_told {st : State} {c : Conn} (hc : c ∈ st.multi) (code : Nat) :
    (st.multi.erase c ++ (st.messages ++ [(c, code)]).map Prod.fst).Perm
      (st.multi ++ st.messages.map Prod.fst) := by
  rw [List.map_append, ← List.append_assoc]
  refine (List.perm_append_singleton c _).trans ?_
  exact (List.perm_cons_erase hc).symm.append_right _

namespace Core

variable {conns : List Conn} {requests : Nat} {st : State}

theorem conns_nodup (h : Core conns requests st) (hconns : conns.Nodup) :
    (st.inProgress.map Oper.conn).Nodup :=
  (List.nodup_append.mp (h.conns_perm.nodup_iff.mpr hconns)).2.1

/-- A connection has one operation. -/
theorem eq_of_conn (h : Core conns requests st) (hconns : conns.Nodup) {op op' : Oper}
    (hop : op ∈ st.inProgress) (hop' : op' ∈ st.inProgress) (hconn : op.conn = op'.conn) :
    op = op' :=
  List.inj_on_of_nodup_map (h.conns_nodup hconns) hop hop' hconn

theorem eq_of_index (h : Core conns requests st) {op op' : Oper} (hop : op ∈ st.inProgress)
    (hop' : op' ∈ st.inProgress) (hindex : op.index = op'.index) : op = op' :=
  List.inj_on_of_nodup_map h.index_nodup hop hop' hindex

theorem conn_ne (h : Core conns requests st) (hconns : conns.Nodup) {op op' : Oper}
    (hop : op ∈ st.inProgress) (hop' : op' ∈ st.inProgress) (hne : op ≠ op') : op.conn ≠ op'.conn :=
  fun hconn => hne (h.eq_of_conn hconns hop hop' hconn)

theorem index_ne (h : Core conns requests st) {op op' : Oper} (hop : op ∈ st.inProgress)
    (hop' : op' ∈ st.inProgress) (hne : op ≠ op') : op.index ≠ op'.index :=
  fun hindex => hne (h.eq_of_index hop hop' hindex)

/-- The transfer of an operation is not going on when the program is to be told of it. -/
theorem not_running (h : Core conns requests st) (hconns : conns.Nodup) {c : Conn}
    (hmulti : c ∈ st.multi) : c ∉ st.messages.map Prod.fst := by
  have hnodup := h.running_perm.nodup_iff.mpr (h.conns_nodup hconns)
  exact fun hmessage => (List.nodup_append.mp hnodup).2.2 c hmulti c hmessage rfl

theorem multi_nodup (h : Core conns requests st) (hconns : conns.Nodup) : st.multi.Nodup :=
  (List.nodup_append.mp (h.running_perm.nodup_iff.mpr (h.conns_nodup hconns))).1

/-- The operation that a connection of the multi, or of a message, is used for. -/
theorem exists_oper (h : Core conns requests st) {c : Conn}
    (hc : c ∈ st.multi ++ st.messages.map Prod.fst) : ∃ op ∈ st.inProgress, op.conn = c :=
  List.mem_map.mp (h.running_perm.mem_iff.mp hc)

theorem inProgress_eq_nil (h : Core conns requests st) (hmulti : st.multi = [])
    (hmessages : st.messages = []) : st.inProgress = [] := by
  have hrunning := h.running_perm
  rw [hmessages, hmulti] at hrunning
  exact List.map_eq_nil_iff.mp hrunning.nil_eq.symm

/-! ### Starting a request -/

theorem add (h : Core conns requests st) (hconns : conns.Nodup) {op : Oper} {free : List Conn}
    (hfree : st.free = op.conn :: free) (hindex : op.index = st.reqI) (hlt : st.reqI < requests)
    (hmessages : st.messages = []) : Core conns requests (st.add op free) := by
  have hnew : ∀ op' ∈ st.inProgress, op'.conn ≠ op.conn := by
    intro op' hop' hconn
    have hnodup := h.conns_perm.nodup_iff.mpr hconns
    rw [hfree] at hnodup
    exact (List.nodup_append.mp hnodup).2.2 op.conn List.mem_cons_self op'.conn
      (List.mem_map_of_mem hop') hconn.symm
  have hold : ∀ op' ∈ st.inProgress, op'.index ≠ op.index := by
    intro op' hop' heq
    have := h.index_lt op' hop'
    omega
  refine
    { conns_perm := ?_, running_perm := ?_, options_eq := ?_, index_lt := ?_, index_nodup := ?_,
      reqI_le := hlt, length_eq := h.length_eq, performed_nodup := h.performed_nodup,
      mem_performed := ?_, told := ?_, answered := ?_ }
  · show (free ++ (st.inProgress ++ [op]).map Oper.conn).Perm conns
    refine List.Perm.trans ?_ h.conns_perm
    rw [hfree, List.map_append, ← List.append_assoc]
    exact List.perm_append_singleton op.conn _
  · show (st.multi ++ [op.conn] ++ st.messages.map Prod.fst).Perm ((st.inProgress ++ [op]).map Oper.conn)
    have hrunning := h.running_perm
    rw [hmessages, List.map_nil, List.append_nil] at hrunning ⊢
    rw [List.map_append]
    exact hrunning.append_right _
  · intro op' hop'
    show Function.update st.options op.conn (some op) op'.conn = some op'
    rcases List.mem_append.mp hop' with hop' | hop'
    · rw [Function.update_of_ne (hnew op' hop')]
      exact h.options_eq op' hop'
    · rw [List.mem_singleton.mp hop', Function.update_self]
  · intro op' hop'
    show op'.index < st.reqI + 1
    rcases List.mem_append.mp hop' with hop' | hop'
    · exact Nat.lt_succ_of_lt (h.index_lt op' hop')
    · rw [List.mem_singleton.mp hop', hindex]
      exact Nat.lt_succ_self _
  · show ((st.inProgress ++ [op]).map Oper.index).Nodup
    rw [List.map_append]
    refine List.Nodup.append h.index_nodup (List.nodup_singleton _) fun i hi hi' => ?_
    obtain ⟨op', hop', rfl⟩ := List.mem_map.mp hi
    exact hold op' hop' (List.mem_singleton.mp hi')
  · intro i
    show i ∈ st.performedIndices ↔ i < st.reqI + 1 ∧
      ∀ op' ∈ st.inProgress ++ [op], op'.conn ∈ st.multi ++ [op.conn] → op'.index ≠ i
    rw [h.mem_performed]
    constructor
    · rintro ⟨hi, hnot⟩
      refine ⟨Nat.lt_succ_of_lt hi, fun op' hop' hrun => ?_⟩
      rcases List.mem_append.mp hop' with hop' | hop'
      · have hrun' : op'.conn ∈ st.multi := by simpa [hnew op' hop'] using hrun
        exact hnot op' hop' hrun'
      · rw [List.mem_singleton.mp hop', hindex]
        exact hi.ne'
    · rintro ⟨hi, hnot⟩
      have hne := hnot op (by simp) (by simp)
      refine ⟨by omega, fun op' hop' hrun => ?_⟩
      exact hnot op' (List.mem_append_left _ hop') (List.mem_append_left _ hrun)
  · intro op' _ code hmessage
    rw [show (st.add op free).messages = [] from hmessages] at hmessage
    cases hmessage
  · intro i hi hnot
    have hne := hnot op (List.mem_append_right _ (List.mem_singleton_self op))
    have hi' : i < st.reqI + 1 := hi
    exact h.answered i (by omega) fun op' hop' => hnot op' (List.mem_append_left _ hop')

/-! ### The end of a transfer -/

theorem complete (h : Core conns requests st) (hconns : conns.Nodup) {op : Oper}
    (hop : op ∈ st.inProgress) (hmulti : op.conn ∈ st.multi) (t : Transfer) :
    Core conns requests
      { st with
        multi := st.multi.erase op.conn
        messages := st.messages ++ [(op.conn, t.code)]
        info := Function.update st.info op.conn t.response
        bodies := Function.update st.bodies op.index t.response.body
        performed := st.performed ++ [(op, t)] } := by
  have hfirst : op.index ∉ st.performedIndices :=
    fun hmem => ((h.mem_performed op.index).mp hmem).2 op hop hmulti rfl
  have hgone : op.conn ∉ st.multi.erase op.conn := (h.multi_nodup hconns).not_mem_erase
  refine
    { conns_perm := h.conns_perm, running_perm := ?_, options_eq := h.options_eq,
      index_lt := h.index_lt, index_nodup := h.index_nodup, reqI_le := h.reqI_le,
      length_eq := h.length_eq, performed_nodup := ?_, mem_performed := ?_, told := ?_,
      answered := ?_ }
  · exact (perm_told hmulti t.code).trans h.running_perm
  · show ((st.performed ++ [(op, t)]).map fun done => done.1.index).Nodup
    rw [List.map_append]
    refine List.Nodup.append h.performed_nodup (List.nodup_singleton _) fun i hi hi' => ?_
    rw [List.mem_singleton.mp hi'] at hi
    exact hfirst hi
  · intro i
    have hmem : i ∈ (st.performed ++ [(op, t)]).map (fun done => done.1.index) ↔
        i ∈ st.performedIndices ∨ i = op.index := by
      rw [List.map_append, List.mem_append, List.map_singleton, List.mem_singleton]
      rfl
    show i ∈ (st.performed ++ [(op, t)]).map _ ↔ i < st.reqI ∧
      ∀ op' ∈ st.inProgress, op'.conn ∈ st.multi.erase op.conn → op'.index ≠ i
    rw [hmem, h.mem_performed]
    constructor
    · rintro (⟨hi, hnot⟩ | rfl)
      · exact ⟨hi, fun op' hop' hrun => hnot op' hop' (List.mem_of_mem_erase hrun)⟩
      · refine ⟨h.index_lt op hop, fun op' hop' hrun hindex => ?_⟩
        rw [h.eq_of_index hop' hop hindex] at hrun
        exact hgone hrun
    · rintro ⟨hi, hnot⟩
      by_cases hindex : i = op.index
      · exact .inr hindex
      · refine .inl ⟨hi, fun op' hop' hrun => ?_⟩
        by_cases hsame : op' = op
        · rw [hsame]
          exact Ne.symm hindex
        · have hne := h.conn_ne hconns hop' hop hsame
          exact hnot op' hop' ((List.mem_erase_of_ne hne).mpr hrun)
  · intro op' hop' code hmessage
    show ∃ t', (op', t') ∈ st.performed ++ [(op, t)] ∧ t'.code = code ∧
      Function.update st.info op.conn t.response op'.conn = t'.response ∧
      Function.update st.bodies op.index t.response.body op'.index = t'.response.body
    by_cases hsame : op' = op
    · subst hsame
      rw [Function.update_self, Function.update_self]
      refine ⟨t, List.mem_append_right _ (List.mem_singleton_self _), ?_, rfl, rfl⟩
      rcases List.mem_append.mp hmessage with hold | hnew
      · exact absurd (List.mem_map_of_mem (f := Prod.fst) hold) (h.not_running hconns hmulti)
      · exact (Prod.mk.inj (List.mem_singleton.mp hnew)).2.symm
    · have hmessage' : (op'.conn, code) ∈ st.messages := by
        rcases List.mem_append.mp hmessage with hold | hnew
        · exact hold
        · exact absurd (Prod.mk.inj (List.mem_singleton.mp hnew)).1 (h.conn_ne hconns hop' hop hsame)
      rw [Function.update_of_ne (h.conn_ne hconns hop' hop hsame),
        Function.update_of_ne (h.index_ne hop' hop hsame)]
      obtain ⟨t', ht', hcode, hinfo, hbody⟩ := h.told op' hop' code hmessage'
      exact ⟨t', List.mem_append_left _ ht', hcode, hinfo, hbody⟩
  · intro i hi hnot
    obtain ⟨op', t', slot, ht', hslot⟩ := h.answered i hi hnot
    exact ⟨op', t', slot, List.mem_append_left _ ht', hslot⟩

/-! ### The end of an operation -/

theorem finish (h : Core conns requests st) (hconns : conns.Nodup) (strerror : Nat → String)
    {op : Oper} {code : Nat} {messages : List (Conn × Nat)} (hop : op ∈ st.inProgress)
    (hmessages : st.messages = (op.conn, code) :: messages) :
    Core conns requests (st.finish strerror op code messages) := by
  have hperm : (st.inProgress.map Oper.conn).Perm
      (op.conn :: (st.inProgress.erase op).map Oper.conn) :=
    (List.perm_cons_erase hop).map Oper.conn
  have hrest : ∀ {op'}, op' ∈ st.inProgress.erase op → op' ∈ st.inProgress ∧ op' ≠ op := by
    intro op' hop'
    have hnodup : st.inProgress.Nodup := (h.conns_nodup hconns).of_map
    exact ⟨List.mem_of_mem_erase hop', (hnodup.mem_erase_iff.mp hop').1⟩
  have hmulti : op.conn ∉ st.multi := by
    intro hmulti
    refine h.not_running hconns hmulti ?_
    rw [hmessages]
    exact List.mem_cons_self
  obtain ⟨t, ht, rfl, hinfo, hbody⟩ := h.told op hop code (by rw [hmessages]; exact List.mem_cons_self)
  have hlt : op.index < st.responses.length := by
    rw [h.length_eq]
    exact (h.index_lt op hop).trans_le h.reqI_le
  refine
    { conns_perm := ?_, running_perm := ?_, options_eq := ?_,
      index_lt := fun op' hop' => h.index_lt op' (hrest hop').1,
      index_nodup := h.index_nodup.sublist (List.Sublist.map _ List.erase_sublist),
      reqI_le := h.reqI_le, length_eq := ?_, performed_nodup := h.performed_nodup,
      mem_performed := ?_, told := ?_, answered := ?_ }
  · show (op.conn :: st.free ++ (st.inProgress.erase op).map Oper.conn).Perm conns
    refine List.Perm.trans ?_ h.conns_perm
    exact List.perm_middle.symm.trans (hperm.symm.append_left st.free)
  · show (st.multi ++ messages.map Prod.fst).Perm ((st.inProgress.erase op).map Oper.conn)
    have hrunning := h.running_perm.trans hperm
    rw [hmessages, List.map_cons] at hrunning
    exact List.Perm.cons_inv (List.perm_middle.symm.trans hrunning)
  · intro op' hop'
    obtain ⟨hop', hne⟩ := hrest hop'
    show Function.update st.options op.conn none op'.conn = some op'
    rw [Function.update_of_ne (h.conn_ne hconns hop' hop hne)]
    exact h.options_eq op' hop'
  · show (st.responses.set _ _).length = requests
    rw [List.length_set, h.length_eq]
  · intro i
    refine (h.mem_performed i).trans (and_congr_right fun _ => ?_)
    constructor
    · exact fun hnot op' hop' hrun => hnot op' (hrest hop').1 hrun
    · intro hnot op' hop' hrun
      have hne : op' ≠ op := fun heq => hmulti (by rwa [heq] at hrun)
      exact hnot op' ((List.mem_erase_of_ne hne).mpr hop') hrun
  · intro op' hop' code hmessage
    refine h.told op' (hrest hop').1 code ?_
    rw [hmessages]
    exact List.mem_cons_of_mem _ hmessage
  · intro i hi hnot
    show ∃ op' t' slot, (op', t') ∈ st.performed ∧ op'.index = i ∧
      (st.responses.set op.index _)[i]? = some slot ∧ Answers slot t'
    by_cases hindex : op.index = i
    · subst hindex
      refine ⟨op, t, _, ht, rfl, ?_, op.finish_answers strerror hinfo hbody⟩
      rw [List.getElem?_set_self hlt]
    · rw [List.getElem?_set_ne hindex]
      refine h.answered i hi fun op' hop' => ?_
      by_cases hsame : op' = op
      · rw [hsame]
        exact hindex
      · exact hnot op' ((List.mem_erase_of_ne hsame).mpr hop')

end Core

/-! ## Every step keeps it -/

section Steps

variable {T : Type*} {mkRequest : MkRequest T} {strerror : Nat → String} {requests : List T}
  {concurrency : Nat} {conns : List Conn} {st st' : State}

theorem complete_core (hconns : conns.Nodup) {done : Conn × Transfer}
    (h : Core conns requests.length st) (hdone : st.complete done = some st') :
    Core conns requests.length st' := by
  obtain ⟨hmulti, hdone⟩ := Option.ite_none_right_eq_some.mp hdone
  obtain ⟨op, hop, hconn⟩ := h.exists_oper (List.mem_append_left _ hmulti)
  rw [← hconn] at hmulti hdone
  rw [h.options_eq op hop] at hdone
  obtain rfl := Option.some.inj hdone
  exact h.complete hconns hop hmulti done.2

theorem advance_inv (hconns : conns.Nodup) (h : Inv conns requests.length st)
    (hstep : advance mkRequest strerror requests concurrency st = some st') :
    Inv conns requests.length st' := by
  obtain ⟨hcore, hfits⟩ := h
  cases advance_cases hstep with
  | @added data conn free hphase hdata hfree =>
    rw [hphase] at hfits
    obtain ⟨hlt, -⟩ := List.getElem?_eq_some_iff.mp hdata
    refine ⟨hcore.add hconns ?_ (mkRequest.call_index ..) hlt hfits.1, ?_⟩
    · rw [mkRequest.call_conn, hfree]
    · show Phase.Fits _ _ st.phase
      rw [hphase]
      refine ⟨hfits.1, ?_⟩
      show st.runningHandles ≤ (st.multi ++ [_]).length
      rw [List.length_append]
      exact hfits.2.trans (Nat.le_add_right _ _)
  | filled => exact ⟨{ hcore with }, trivial⟩
  | read hphase hop hmessages =>
    rw [hphase] at hfits
    refine ⟨hcore.finish hconns strerror hop hmessages, ?_⟩
    show Phase.Fits _ _ st.phase
    rw [hphase]
    exact hfits
  | lost hphase hmessages hnone =>
    obtain ⟨op, hop, hconn⟩ := hcore.exists_oper
      (List.mem_append_right _ (by rw [hmessages]; exact List.mem_cons_self))
    exact absurd hconn (hnone op hop)
  | refreshed hphase hmessages =>
    rw [hphase] at hfits
    refine ⟨{ hcore with }, ?_⟩
    show Phase.Fits _ _ (if _ then Phase.returned else Phase.filling)
    split
    · next hend =>
      have hmulti : st.multi = [] := List.eq_nil_of_length_eq_zero (hfits.symm.trans hend.1)
      exact ⟨hcore.inProgress_eq_nil hmulti hmessages, hend.2⟩
    · exact ⟨hmessages, hfits.le⟩

/-- **Every step keeps the invariant.** -/
theorem step_inv (hconns : conns.Nodup) {act : Act} (h : Inv conns requests.length st)
    (hstep : step mkRequest strerror requests concurrency st act = some st') :
    Inv conns requests.length st' := by
  cases act with
  | advance => exact advance_inv hconns h hstep
  | perform done again =>
    obtain ⟨-, st₁, hdone, rfl⟩ := step_perform hstep
    have hkeep : ∀ (past : List (Conn × Transfer)) s e t, Core conns requests.length s →
        State.complete s e = some t → Core conns requests.length t :=
      fun _ _ _ _ h hdone => complete_core hconns h hdone
    have hcore := Run.run_invariant hkeep done [] st st₁ h.core hdone
    refine ⟨{ hcore with }, ?_⟩
    cases again with
    | true => exact trivial
    | false => exact rfl

theorem start_inv : Inv conns requests.length (start requests conns) where
  core :=
    { conns_perm := by rw [start, List.map_nil, List.append_nil]
      running_perm := .nil
      options_eq := fun _ hop => absurd hop List.not_mem_nil
      index_lt := fun _ hop => absurd hop List.not_mem_nil
      index_nodup := List.nodup_nil
      reqI_le := Nat.zero_le _
      length_eq := List.length_replicate
      performed_nodup := List.nodup_nil
      mem_performed := fun i => by simp [start, State.performedIndices]
      told := fun _ hop => absurd hop List.not_mem_nil
      answered := fun _ hi => absurd hi (Nat.not_lt_zero _) }
  fits := ⟨rfl, Nat.le_refl 0⟩

/-- It holds after any run. -/
theorem run_inv (hconns : conns.Nodup) {acts : List Act}
    (hrun : Run.run (step mkRequest strerror requests concurrency) (start requests conns) acts =
      some st) : Inv conns requests.length st := by
  have hkeep : ∀ (past : List Act) s e t, Inv conns requests.length s →
      step mkRequest strerror requests concurrency s e = some t → Inv conns requests.length t :=
    fun _ _ _ _ h hstep => step_inv hconns h hstep
  exact Run.run_invariant hkeep acts [] _ st start_inv hrun

end Steps

end RenderMq.MultiRequests
