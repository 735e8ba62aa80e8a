import Mathlib.Data.List.Basic

/-!
# Messages of several parts

`zstream`: a socket that is written to part after part and read from part after part. A writer says
before a part whether another follows (`manip::more`), a reader knows it after the part (`has_more`).
Routing headers are the parts before the first empty one.

**What is proved.** What `xrep::to` and a body write is read back as the addresses and the body
(`routing_headers_round_trip`). To pass over the headers of any message takes the same parts from the
socket as to read them (`ignoreRoutingHeaders_eq_map`).

What a socket of 0MQ itself takes off a message or puts before it on the way is not modelled.
-/

namespace RenderMq

namespace ZStream

/-- The data of a `zmq::message_t`. -/
abbrev Message := List UInt8

/-- A part on its way: its data, and whether the same message goes on. -/
structure Part where
  data : Message
  more : Bool
  deriving DecidableEq

/-! ## Writing -/

/-- `osocket`, with what was sent. -/
structure OutSocket where
  more : Bool
  sent : List Part

namespace OutSocket

/-- `<<` of a message or a string. -/
def put (s : OutSocket) (msg : Message) : OutSocket := ⟨false, s.sent ++ [⟨msg, s.more⟩]⟩

/-- `<< manip::more`. -/
def manipMore (s : OutSocket) : OutSocket := { s with more := true }

/-- `xrep::to`. -/
def xrepTo (s : OutSocket) (addrs : List Message) : OutSocket :=
  (addrs.foldl (fun out addr => out.manipMore.put addr) s).manipMore.put []

/-- A body, with `manip::more` before each part but the last. -/
def putBody (s : OutSocket) : List Message → OutSocket
  | [] => s
  | msg :: rest => putBody (if rest.isEmpty then s.put msg else s.manipMore.put msg) rest

end OutSocket

/-! ## Reading -/

/-- `isocket`, with what is still to be received. -/
structure InSocket where
  more : Bool
  queue : List Part
  deriving DecidableEq

namespace InSocket

/-- `>>` into a message or a string; without a part it waits. -/
def get (s : InSocket) : Option (Message × InSocket) :=
  match s.queue with
  | [] => none
  | part :: queue => some (part.data, ⟨part.more, queue⟩)

def hasMore (s : InSocket) : Bool := s.more

/-- Parts one after the other. -/
def getMany : Nat → InSocket → Option (List Message × InSocket)
  | 0, s => some ([], s)
  | k + 1, s => do
    let (msg, s) ← s.get
    let (msgs, s) ← getMany k s
    return (msg :: msgs, s)

/-- The loop of `>> manip::ignore_routing_headers`. -/
def ignoreFrom : List Part → Option InSocket
  | [] => none
  | part :: queue =>
    if part.more && decide (0 < part.data.length) then ignoreFrom queue else some ⟨part.more, queue⟩

/-- `>> manip::ignore_routing_headers`. -/
def ignoreRoutingHeaders (s : InSocket) : Option InSocket := ignoreFrom s.queue

/-- The loop of `>> manip::routing_headers`. -/
def headersFrom : List Message → List Part → Option (List Message × InSocket)
  | _, [] => none
  | headers, part :: queue =>
    if part.data.length = 0 then some (headers, ⟨part.more, queue⟩)
    else if part.more then headersFrom (headers ++ [part.data]) queue
    else some (headers ++ [part.data], ⟨part.more, queue⟩)

/-- `>> manip::routing_headers`, which starts from a list that is cleared. -/
def routingHeaders (s : InSocket) : Option (List Message × InSocket) := headersFrom [] s.queue

end InSocket

/-! ## The parts of a message -/

/-- A message part by part: more follow after all but the last. -/
def parts : List Message → List Part
  | [] => []
  | msg :: rest => ⟨msg, !rest.isEmpty⟩ :: parts rest

theorem parts_append {body : List Message} (hbody : body ≠ []) (addresses : List Message) :
    parts (addresses ++ body) = addresses.map (fun a => ⟨a, true⟩) ++ parts body := by
  induction addresses with
  | nil => rfl
  | cons a addresses ih =>
    have hmore : (addresses ++ body).isEmpty = false := by
      rw [List.isEmpty_eq_false_iff]
      exact List.append_ne_nil_of_right_ne_nil _ hbody
    rw [List.cons_append, parts, ih, hmore]
    rfl

namespace OutSocket

theorem foldl_put (addrs : List Message) (s : OutSocket) :
    (addrs.foldl (fun out addr => out.manipMore.put addr) s).sent =
      s.sent ++ addrs.map fun a => ⟨a, true⟩ := by
  induction addrs generalizing s with
  | nil => exact (List.append_nil _).symm
  | cons addr addrs ih =>
    rw [List.foldl_cons, ih, List.map_cons, List.append_cons]
    rfl

/-- A flag that is set before is used up by the first part. -/
theorem xrepTo_eq (s : OutSocket) (addrs : List Message) :
    s.xrepTo addrs = ⟨false, s.sent ++ addrs.map (fun a => ⟨a, true⟩) ++ [⟨[], true⟩]⟩ := by
  rw [xrepTo, put, manipMore, foldl_put]

theorem putBody_eq (body : List Message) (sent : List Part) :
    putBody ⟨false, sent⟩ body = ⟨false, sent ++ parts body⟩ := by
  induction body generalizing sent with
  | nil => rw [putBody, parts, List.append_nil]
  | cons msg rest ih =>
    rw [putBody, parts, List.append_cons, ← ih]
    cases rest <;> rfl

end OutSocket

namespace InSocket

/-! ## Headers -/

/-- Both loops end at the same part. -/
theorem ignoreFrom_eq_map (queue : List Part) (headers : List Message) :
    ignoreFrom queue = (headersFrom headers queue).map Prod.snd := by
  induction queue generalizing headers with
  | nil => rfl
  | cons part queue ih =>
    rw [ignoreFrom, headersFrom]
    by_cases hempty : part.data.length = 0
    · rw [if_pos hempty, hempty, decide_eq_false (Nat.lt_irrefl 0), Bool.and_false]
      rfl
    · rw [if_neg hempty, decide_eq_true (Nat.pos_of_ne_zero hempty), Bool.and_true]
      by_cases hmore : part.more = true
      · rw [if_pos hmore, if_pos hmore]
        exact ih _
      · rw [if_neg hmore, if_neg hmore]
        rfl

/-- **The same parts are taken**, whatever the message. -/
theorem ignoreRoutingHeaders_eq_map (s : InSocket) :
    s.ignoreRoutingHeaders = s.routingHeaders.map Prod.snd :=
  ignoreFrom_eq_map s.queue []

/-- Addresses are read up to the empty part. -/
theorem headersFrom_append {addresses : List Message} (haddresses : ∀ a ∈ addresses, a ≠ [])
    (headers : List Message) (more : Bool) (queue : List Part) :
    headersFrom headers (addresses.map (fun a => ⟨a, true⟩) ++ ⟨[], more⟩ :: queue) =
      some (headers ++ addresses, ⟨more, queue⟩) := by
  induction addresses generalizing headers with
  | nil => rw [List.append_nil]; rfl
  | cons a addresses ih =>
    obtain ⟨ha, hrest⟩ := List.forall_mem_cons.mp haddresses
    rw [List.map_cons, List.cons_append, headersFrom, if_neg (List.length_eq_zero_iff.not.mpr ha),
      if_pos rfl, ih hrest, ← List.append_cons]

/-! ## The body -/

/-- Reading the first parts of a body: more follow when some are left. -/
theorem getMany_parts (body : List Message) (later : List Part) {k : Nat} (hk : k ≤ body.length) :
    getMany k ⟨!body.isEmpty, parts body ++ later⟩ =
      some (body.take k, ⟨!(body.drop k).isEmpty, parts (body.drop k) ++ later⟩) := by
  induction k generalizing body with
  | zero => rfl
  | succ k ih =>
    cases body with
    | nil => exact absurd hk (Nat.not_succ_le_zero k)
    | cons msg rest =>
      have hrest := ih rest (Nat.le_of_succ_le_succ hk)
      rw [getMany]
      simp only [parts, get, List.cons_append, Option.bind_eq_bind, Option.bind_some, hrest]
      rfl

theorem hasMore_parts {body : List Message} {k : Nat} (queue : List Part) :
    (InSocket.mk (!(body.drop k).isEmpty) queue).hasMore = true ↔ k < body.length := by
  rw [hasMore, Bool.not_eq_true', List.isEmpty_eq_false_iff, Ne, List.drop_eq_nil_iff, Nat.not_le]

end InSocket

/-! ## Round trip -/

/-- **Headers and body are read back.** The parts that are written are read as the addresses and then,
part by part, as the body, and more follow until the last. Passing over the headers leaves the same to
read; so it does for any message.

No address is empty, since an empty part ends the headers, and the body has a part. Parts may follow
that belong to later messages. That the sockets keep the parts of a message together is assumed. -/
theorem routing_headers_round_trip (out : OutSocket) (addresses body : List Message)
    (later : List Part) (flag : Bool) (haddresses : ∀ a ∈ addresses, a ≠ []) (hbody : body ≠ []) :
    (out.xrepTo addresses).putBody body =
        ⟨false, out.sent ++ parts (addresses ++ [] :: body)⟩ ∧
      (∃ s, InSocket.routingHeaders ⟨flag, parts (addresses ++ [] :: body) ++ later⟩ =
          some (addresses, s) ∧
        ∀ k ≤ body.length, ∃ t, s.getMany k = some (body.take k, t) ∧
          t.queue = parts (body.drop k) ++ later ∧ (t.hasMore = true ↔ k < body.length)) ∧
      ∀ u : InSocket, u.ignoreRoutingHeaders = u.routingHeaders.map Prod.snd := by
  have hparts : parts (addresses ++ [] :: body) =
      addresses.map (fun a => ⟨a, true⟩) ++ ⟨[], !body.isEmpty⟩ :: parts body :=
    parts_append (List.cons_ne_nil _ _) addresses
  have hmore : (!body.isEmpty) = true := by
    rw [List.isEmpty_eq_false_iff.mpr hbody]
    rfl
  refine ⟨?written, ⟨⟨!body.isEmpty, parts body ++ later⟩, ?headers, ?body⟩,
    InSocket.ignoreRoutingHeaders_eq_map⟩
  case written =>
    rw [OutSocket.xrepTo_eq, OutSocket.putBody_eq, hparts, hmore]
    simp only [List.append_assoc, List.singleton_append]
  case headers =>
    rw [hparts, List.append_assoc, List.cons_append]
    exact InSocket.headersFrom_append haddresses [] _ _
  case body =>
    intro k hk
    exact ⟨_, InSocket.getMany_parts body later hk, rfl, InSocket.hasMore_parts _⟩

/-- Two addresses and a body with an empty part. -/
theorem routing_headers_round_trip_empty_part :
    ∃ s, InSocket.routingHeaders ⟨false, parts [[1], [2, 3], [], [], [4]]⟩ = some ([[1], [2, 3]], s) ∧
      ∃ t, s.getMany 2 = some ([[], [4]], t) ∧ t.queue = [] ∧ ¬ t.hasMore = true := by
  obtain ⟨-, ⟨s, hheaders, hbody⟩, -⟩ :=
    routing_headers_round_trip ⟨false, []⟩ [[1], [2, 3]] [[], [4]] [] false (by decide) (by decide)
  obtain ⟨t, hget, hqueue, hmore⟩ := hbody 2 (Nat.le_refl 2)
  exact ⟨s, hheaders, t, hget, hqueue, fun h => Nat.lt_irrefl 2 (hmore.mp h)⟩

end ZStream

end RenderMq
