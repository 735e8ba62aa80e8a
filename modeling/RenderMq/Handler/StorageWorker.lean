import RenderMq.Lib.Run
import RenderMq.Tile.Protocol
import Mathlib.Data.List.Basic
import Mathlib.Data.List.Perm.Basic

/-!
# The storage worker

`storage_worker`: a handler's requests to its storage, answered by a pool of threads. At most
`max_concurrency` requests are with the threads at a time, and the others wait in a queue.

A thread takes one tile after another and answers each (`threadReply`): where the storage throws, with
`cmdNotDone`. The worker's loop reads at most one request and one reply in a round, in this order.

The threads are seen from the worker: a tile that was sent to them is answered by one of them some
time, and the answers are read in any order. So `working` and `threadsIn` are taken from at any place.

`pool_conserves` is the account of all tiles, whatever the order of the events.
-/

namespace RenderMq

/-! ## A storage thread -/

/-- A `tile_storage::handle`, each of whose functions may throw. -/
structure StorageHandle where
  found : Except String Bool
  expired : Except String Bool
  /-- What `data` leaves in its argument. -/
  data : Except String Bytes
  lastModified : Except String Int

/-- What the storage does while a thread handles a tile. -/
structure StorageCalls where
  get : TileProtocol → Except String StorageHandle
  expire : TileProtocol → Except String Bool

/-- `m_dirty_list`: the styles that depend on a style. -/
abbrev DirtyList := String → Option (List String)

/-- The expiries of `handle_tile`. -/
def expireDirty (storage : StorageCalls) (dirtyList : DirtyList) (tile : TileProtocol) :
    Except String Unit := do
  let _ ← storage.expire tile
  ((dirtyList tile.style).getD []).forM fun style => do
    let _ ← storage.expire { tile with style := style }

/-- The status of a tile that the storage has. -/
def presentStatus (tile : TileProtocol) (handle : StorageHandle) : Except String ProtoCmd :=
  if tile.status ≠ .cmdStatus then do
    if ← handle.expired then return .cmdIgnore else return .cmdDone
  else return tile.status

/-- `handle_tile`, with the tile as it is when the storage throws. -/
def handleTile (storage : StorageCalls) (dirtyList : DirtyList) (tile : TileProtocol) :
    TileProtocol × Except String Unit :=
  if tile.status = .cmdDirty then (tile, expireDirty storage dirtyList tile)
  else
    match storage.get tile with
    | .error e => (tile, .error e)
    | .ok handle =>
      match handle.found with
      | .error e => (tile, .error e)
      | .ok true =>
        match presentStatus tile handle with
        | .error e => (tile, .error e)
        | .ok status =>
          match handle.data with
          | .error e => ({ tile with status := status }, .error e)
          | .ok data =>
            match handle.lastModified with
            | .error e => ({ tile with status := status, data := data }, .error e)
            | .ok time =>
              ({ tile with status := status, data := data, lastModified := time }, .ok ())
      | .ok false =>
        ({ tile with status := if tile.status ≠ .cmdStatus then .cmdNotDone else tile.status },
          .ok ())

/-- What `thread_func` does with a tile: it is answered, whether or not the storage throws. -/
def threadReply (dirtyList : DirtyList) (storage : StorageCalls) (tile : TileProtocol) :
    TileProtocol :=
  match handleTile storage dirtyList tile with
  | (tile, .ok ()) => tile
  | (tile, .error _) => { tile with status := .cmdNotDone }

/-- The fields of a tile that the storage does not touch. -/
structure SameRequest (t u : TileProtocol) : Prop where
  x : t.x = u.x
  y : t.y = u.y
  z : t.z = u.z
  id : t.id = u.id
  style : t.style = u.style
  format : t.format = u.format
  requestLastModified : t.requestLastModified = u.requestLastModified

theorem handleTile_same (storage : StorageCalls) (dirtyList : DirtyList) (tile : TileProtocol) :
    SameRequest (handleTile storage dirtyList tile).1 tile := by
  unfold handleTile
  split
  · exact ⟨rfl, rfl, rfl, rfl, rfl, rfl, rfl⟩
  · repeat' split
    all_goals exact ⟨rfl, rfl, rfl, rfl, rfl, rfl, rfl⟩

/-- A reply is about the tile that was asked for, and for the same client. -/
theorem threadReply_same (dirtyList : DirtyList) (storage : StorageCalls) (tile : TileProtocol) :
    SameRequest (threadReply dirtyList storage tile) tile := by
  have h := handleTile_same storage dirtyList tile
  unfold threadReply
  split
  · next heq => rwa [heq] at h
  · next heq =>
    rw [heq] at h
    exact ⟨h.x, h.y, h.z, h.id, h.style, h.format, h.requestLastModified⟩

/-! ## The pool -/

/-- The worker, with the messages on its way. -/
structure StorageWorker where
  /-- `size_t` -/
  curConcurrency : BitVec 64 := 0#64
  queuedRequests : List TileProtocol := []
  /-- Requests that are not yet read. -/
  requestsIn : List TileProtocol := []
  /-- All that was sent to the threads. -/
  threadsOut : List TileProtocol := []
  /-- What the threads have, and have not yet answered. -/
  working : List TileProtocol := []
  /-- Replies of the threads that are not yet read. -/
  threadsIn : List TileProtocol := []
  /-- All results that were forwarded to the handler. -/
  resultsOut : List TileProtocol := []

inductive StorageEvent where
  /-- The handler sends a request. -/
  | request (tile : TileProtocol)
  /-- A thread answers one of the tiles that the threads have. -/
  | threadReply (i : Nat) (storage : StorageCalls)
  /-- A round of the worker: whether it finds a request, and which reply it reads, if any. -/
  | poll (request : Bool) (reply : Option Nat)

namespace StorageWorker

/-- `threads_out << tile`. -/
def dispatch (s : StorageWorker) (tile : TileProtocol) : StorageWorker :=
  { s with threadsOut := s.threadsOut ++ [tile], working := s.working ++ [tile] }

/-- The first half of a round: a new item is started, or put on the pending queue. -/
def pollRequest (s : StorageWorker) (maxConcurrency : BitVec 64) : Option StorageWorker :=
  match s.requestsIn with
  | [] => none
  | tile :: rest =>
    let s := { s with requestsIn := rest }
    if s.curConcurrency < maxConcurrency then
      some { s.dispatch tile with curConcurrency := s.curConcurrency + 1 }
    else some { s with queuedRequests := s.queuedRequests ++ [tile] }

/-- The second half: a result is forwarded, and the thread gets the next item or becomes idle. -/
def pollReply (s : StorageWorker) (i : Nat) : Option StorageWorker :=
  match s.threadsIn[i]? with
  | none => none
  | some tile =>
    let s := { s with
      threadsIn := s.threadsIn.eraseIdx i
      resultsOut := s.resultsOut ++ [tile] }
    match s.queuedRequests with
    | next :: rest => some { s.dispatch next with queuedRequests := rest }
    | [] => some { s with curConcurrency := s.curConcurrency - 1 }

/-- One event. A round finds only what is there. -/
def step (maxConcurrency : BitVec 64) (dirtyList : DirtyList) (s : StorageWorker) :
    StorageEvent → Option StorageWorker
  | .request tile => some { s with requestsIn := s.requestsIn ++ [tile] }
  | .threadReply i storage =>
    s.working[i]?.map fun tile =>
      { s with
        working := s.working.eraseIdx i
        threadsIn := s.threadsIn ++ [RenderMq.threadReply dirtyList storage tile] }
  | .poll request reply =>
    (if request then s.pollRequest maxConcurrency else some s).bind fun s =>
      match reply with
      | some i => s.pollReply i
      | none => some s

/-! ## The account of all tiles -/

/-- What the handler has sent. -/
def requests (events : List StorageEvent) : List TileProtocol :=
  events.filterMap fun
    | .request tile => some tile
    | _ => none

/-- A request and its reply. -/
abbrev Answered := TileProtocol × TileProtocol

/-- Where the tiles are that the worker has received: forwarded, on the way back from a thread, with
a thread, or queued. -/
structure Accounts (maxConcurrency : BitVec 64) (dirtyList : DirtyList)
    (received : List TileProtocol) (forwarded returning : List Answered) (s : StorageWorker) :
    Prop where
  /-- Tiles are dispatched in the order in which they arrive. -/
  inOrder : received = s.threadsOut ++ s.queuedRequests
  /-- A dispatched tile is with the threads, or has one reply. -/
  answeredOnce : s.threadsOut.Perm ((forwarded ++ returning).map Prod.fst ++ s.working)
  /-- A reply is what a thread makes of its tile. -/
  isReply : ∀ p ∈ forwarded ++ returning, ∃ storage, p.2 = threadReply dirtyList storage p.1
  results : s.resultsOut = forwarded.map Prod.snd
  replies : s.threadsIn = returning.map Prod.snd
  /-- The counter is the number of tiles in flight. -/
  counted : s.curConcurrency.toNat = (returning.map Prod.fst ++ s.working).length
  bounded : s.curConcurrency ≤ maxConcurrency
  /-- Tiles wait only while all threads are busy. -/
  busy : s.queuedRequests ≠ [] → s.curConcurrency = maxConcurrency

namespace Accounts

variable {maxConcurrency : BitVec 64} {dirtyList : DirtyList} {received : List TileProtocol}
  {forwarded returning : List Answered} {s : StorageWorker}

/-- Every tile received is forwarded, in flight or queued, once. -/
theorem conserved (h : Accounts maxConcurrency dirtyList received forwarded returning s) :
    received.Perm (forwarded.map Prod.fst ++ (returning.map Prod.fst ++ s.working) ++
      s.queuedRequests) := by
  rw [h.inOrder, ← List.append_assoc, ← List.map_append]
  exact h.answeredOnce.append_right _

/-- A thread answers a tile that it has. -/
theorem answer (h : Accounts maxConcurrency dirtyList received forwarded returning s) {i : Nat}
    {tile : TileProtocol} (htile : s.working[i]? = some tile) (storage : StorageCalls) :
    Accounts maxConcurrency dirtyList received forwarded
      (returning ++ [(tile, threadReply dirtyList storage tile)])
      { s with
        working := s.working.eraseIdx i
        threadsIn := s.threadsIn ++ [threadReply dirtyList storage tile] } := by
  obtain ⟨hi, rfl⟩ := List.getElem?_eq_some_iff.mp htile
  have hsplit := List.getElem_cons_eraseIdx_perm hi
  constructor
  · exact h.inOrder
  · have hmap : (forwarded ++ (returning ++
        [(s.working[i], threadReply dirtyList storage s.working[i])])).map Prod.fst =
        (forwarded ++ returning).map Prod.fst ++ [s.working[i]] := by simp
    rw [hmap, List.append_assoc]
    exact h.answeredOnce.trans (hsplit.symm.append_left _)
  · intro p hp
    rw [← List.append_assoc] at hp
    rcases List.mem_append.mp hp with hp | hp
    · exact h.isReply p hp
    · exact ⟨storage, by rw [List.mem_singleton.mp hp]⟩
  · exact h.results
  · rw [List.map_append, ← h.replies]
    rfl
  · have := hsplit.length_eq
    rw [h.counted]
    simp at this ⊢
    omega
  · exact h.bounded
  · exact h.busy

/-- A request is started or queued. -/
theorem pollRequest (h : Accounts maxConcurrency dirtyList received forwarded returning s)
    {tile : TileProtocol} {rest : List TileProtocol} (hin : s.requestsIn = tile :: rest)
    {t : StorageWorker} (hpoll : s.pollRequest maxConcurrency = some t) :
    t.requestsIn = rest ∧
      Accounts maxConcurrency dirtyList (received ++ [tile]) forwarded returning t := by
  simp only [StorageWorker.pollRequest, hin] at hpoll
  split at hpoll
  · next hlt =>
    obtain rfl := Option.some.inj hpoll
    -- nothing waits while a thread is idle, so the tile overtakes none
    have hempty : s.queuedRequests = [] := by
      by_contra hne
      exact absurd (h.busy hne) (BitVec.ne_of_lt hlt)
    refine ⟨rfl, ?_, ?_, h.isReply, h.results, h.replies, ?_, ?_, ?_⟩
    · show received ++ [tile] = s.threadsOut ++ [tile] ++ s.queuedRequests
      rw [h.inOrder, hempty, List.append_nil, List.append_nil]
    · show (s.threadsOut ++ [tile]).Perm (_ ++ (s.working ++ [tile]))
      rw [← List.append_assoc]
      exact h.answeredOnce.append_right _
    · show (s.curConcurrency + 1).toNat = (_ ++ (s.working ++ [tile])).length
      rw [← List.append_assoc, List.length_append, ← h.counted]
      show (s.curConcurrency + 1#64).toNat = s.curConcurrency.toNat + 1
      bv_omega
    · show s.curConcurrency + 1#64 ≤ maxConcurrency
      bv_omega
    · exact fun hne => absurd hempty hne
  · next hge =>
    obtain rfl := Option.some.inj hpoll
    refine ⟨rfl, ?_, h.answeredOnce, h.isReply, h.results, h.replies, h.counted, h.bounded, ?_⟩
    · show received ++ [tile] = s.threadsOut ++ (s.queuedRequests ++ [tile])
      rw [h.inOrder, List.append_assoc]
    · intro _
      exact BitVec.le_antisymm h.bounded (BitVec.not_lt.mp hge)

/-- A reply is forwarded, and its thread gets the next tile. -/
theorem pollReply (h : Accounts maxConcurrency dirtyList received forwarded returning s) {i : Nat}
    {t : StorageWorker} (hpoll : s.pollReply i = some t) :
    t.requestsIn = s.requestsIn ∧ ∃ forwarded' returning',
      Accounts maxConcurrency dirtyList received forwarded' returning' t := by
  unfold StorageWorker.pollReply at hpoll
  rw [h.replies, List.getElem?_map] at hpoll
  cases hp : returning[i]? with
  | none => simp [hp] at hpoll
  | some p =>
    obtain ⟨hi, rfl⟩ := List.getElem?_eq_some_iff.mp hp
    have hsplit := List.getElem_cons_eraseIdx_perm hi
    have hmoved : (forwarded ++ [returning[i]] ++ returning.eraseIdx i).Perm
        (forwarded ++ returning) := by
      rw [List.append_assoc]
      exact hsplit.append_left _
    have honce := h.answeredOnce.trans ((hmoved.map Prod.fst).symm.append_right s.working)
    have hreplies : ∀ p ∈ forwarded ++ [returning[i]] ++ returning.eraseIdx i, ∃ storage,
        p.2 = threadReply dirtyList storage p.1 :=
      fun p hp => h.isReply p (hmoved.mem_iff.mp hp)
    have hresults : s.resultsOut ++ [returning[i].2] =
        (forwarded ++ [returning[i]]).map Prod.snd := by
      rw [List.map_append, ← h.results]
      rfl
    have hcount : s.curConcurrency.toNat =
        ((returning.eraseIdx i).map Prod.fst ++ s.working).length + 1 := by
      have := hsplit.length_eq
      rw [h.counted]
      simp only [List.length_append, List.length_map, List.length_cons] at this ⊢
      omega
    simp only [hp, Option.map_some] at hpoll
    split at hpoll
    · next next rest hqueue =>
      obtain rfl := Option.some.inj hpoll
      refine ⟨rfl, _, _, ?_, ?_, hreplies, hresults, List.eraseIdx_map .., ?_, h.bounded, ?_⟩
      · show received = s.threadsOut ++ [next] ++ rest
        rw [h.inOrder, hqueue, List.append_assoc]
        rfl
      · show (s.threadsOut ++ [next]).Perm (_ ++ (s.working ++ [next]))
        rw [← List.append_assoc]
        exact honce.append_right _
      · show s.curConcurrency.toNat = (_ ++ (s.working ++ [next])).length
        rw [hcount]
        simp only [List.length_append, List.length_cons, List.length_nil]
        omega
      · intro _
        exact h.busy (by rw [hqueue]; exact List.cons_ne_nil _ _)
    · next hqueue =>
      obtain rfl := Option.some.inj hpoll
      have hbound := h.bounded
      refine ⟨rfl, _, _, ?_, honce, hreplies, hresults, List.eraseIdx_map .., ?_, ?_, ?_⟩
      · exact h.inOrder
      · show (s.curConcurrency - 1#64).toNat = _
        bv_omega
      · show s.curConcurrency - 1#64 ≤ maxConcurrency
        bv_omega
      · exact fun hne => absurd hqueue hne

end Accounts

theorem requests_append (past : List StorageEvent) (e : StorageEvent) :
    requests (past ++ [e]) = requests past ++ requests [e] :=
  List.filterMap_append

/-- All tiles are accounted for, those that are not yet read among them. -/
def Conserved (maxConcurrency : BitVec 64) (dirtyList : DirtyList) (past : List StorageEvent)
    (s : StorageWorker) : Prop :=
  ∃ received forwarded returning, requests past = received ++ s.requestsIn ∧
    Accounts maxConcurrency dirtyList received forwarded returning s

/-- **The step.** -/
theorem conserved_step {maxConcurrency : BitVec 64} {dirtyList : DirtyList}
    {past : List StorageEvent} {s t : StorageWorker} {e : StorageEvent}
    (h : Conserved maxConcurrency dirtyList past s)
    (hstep : s.step maxConcurrency dirtyList e = some t) :
    Conserved maxConcurrency dirtyList (past ++ [e]) t := by
  obtain ⟨received, forwarded, returning, hpast, haccounts⟩ := h
  unfold Conserved
  rw [requests_append, hpast]
  cases e with
  | request tile =>
    obtain rfl := Option.some.inj hstep
    refine ⟨received, forwarded, returning, List.append_assoc .., ?_⟩
    exact ⟨haccounts.inOrder, haccounts.answeredOnce, haccounts.isReply, haccounts.results,
      haccounts.replies, haccounts.counted, haccounts.bounded, haccounts.busy⟩
  | threadReply i storage =>
    obtain ⟨tile, htile, rfl⟩ := Option.map_eq_some_iff.mp hstep
    exact ⟨received, forwarded, _, List.append_nil _, haccounts.answer htile storage⟩
  | poll request reply =>
    obtain ⟨m, hm, hreply⟩ := Option.bind_eq_some_iff.mp hstep
    -- the first half of the round
    have hfirst : ∃ received', received ++ s.requestsIn = received' ++ m.requestsIn ∧
        Accounts maxConcurrency dirtyList received' forwarded returning m := by
      cases request with
      | false =>
        obtain rfl := Option.some.inj hm
        exact ⟨received, rfl, haccounts⟩
      | true =>
        cases hin : s.requestsIn with
        | nil => simp [pollRequest, hin] at hm
        | cons tile rest =>
          obtain ⟨rfl, hm⟩ := haccounts.pollRequest hin hm
          exact ⟨received ++ [tile], List.append_cons .., hm⟩
    obtain ⟨received', hreceived, hm⟩ := hfirst
    rw [hreceived]
    cases reply with
    | none =>
      obtain rfl := Option.some.inj hreply
      exact ⟨received', forwarded, returning, List.append_nil _, hm⟩
    | some i =>
      obtain ⟨hin, forwarded', returning', ht⟩ := hm.pollReply hreply
      exact ⟨received', forwarded', returning', by rw [hin]; exact List.append_nil _, ht⟩

/-- Whatever the storage does, also where it throws, the thread that has a tile answers it once. -/
theorem step_threadReply (maxConcurrency : BitVec 64) (dirtyList : DirtyList) {s : StorageWorker}
    {i : Nat} {tile : TileProtocol} (htile : s.working[i]? = some tile) (storage : StorageCalls) :
    ∃ t, s.step maxConcurrency dirtyList (.threadReply i storage) = some t ∧
      t.threadsIn = s.threadsIn ++ [threadReply dirtyList storage tile] ∧
      t.working = s.working.eraseIdx i := by
  rw [step, htile]
  exact ⟨_, rfl, rfl, rfl⟩

/-- **The run.** After any events in any order, every tile received is forwarded, in flight or queued,
once, and the rest of the account holds; and a tile with a thread will be answered.

What the storage answers each thread, or throws, is an argument of the event. Threads end in any order,
and that a thread ends at all is not established. -/
theorem pool_conserves (maxConcurrency : BitVec 64) (dirtyList : DirtyList)
    {events : List StorageEvent} {s : StorageWorker}
    (hrun : Run.run (step maxConcurrency dirtyList) {} events = some s) :
    (∃ received forwarded returning,
      requests events = received ++ s.requestsIn ∧
        received.Perm (forwarded.map Prod.fst ++ (returning.map Prod.fst ++ s.working) ++
          s.queuedRequests) ∧
        Accounts maxConcurrency dirtyList received forwarded returning s) ∧
      ∀ i tile storage, s.working[i]? = some tile →
        ∃ t, s.step maxConcurrency dirtyList (.threadReply i storage) = some t ∧
          t.threadsIn = s.threadsIn ++ [threadReply dirtyList storage tile] ∧
          t.working = s.working.eraseIdx i := by
  have hstart : Conserved maxConcurrency dirtyList [] {} :=
    ⟨[], [], [], rfl, ⟨rfl, .refl _, by simp, rfl, rfl, rfl, Nat.zero_le _, by simp⟩⟩
  obtain ⟨received, forwarded, returning, hevents, haccounts⟩ :=
    Run.run_invariant (fun past s e t hs hst => conserved_step hs hst) events [] {} s hstart hrun
  refine ⟨⟨received, forwarded, returning, hevents, haccounts.conserved, haccounts⟩, ?_⟩
  intro i tile storage htile
  exact step_threadReply maxConcurrency dirtyList htile storage

/-- A storage that is down. -/
def throwingStorage : StorageCalls where
  get := fun _ => .error "unreachable"
  expire := fun _ => .error "unreachable"

/-- Two requests and one thread: the second waits until the first is answered. -/
def twoRequests : List StorageEvent :=
  [.request { id := 1 }, .request { id := 2 }, .poll true none, .poll true none,
    .threadReply 0 throwingStorage, .poll false (some 0)]

/-- The storage is down: the first is answered with `cmdNotDone`, and the second is with the thread. -/
theorem twoRequests_conserved :
    ∃ s, Run.run (step 1#64 fun _ => none) {} twoRequests = some s ∧
      s.resultsOut = [{ id := 1, status := .cmdNotDone }] ∧ s.working = [{ id := 2 }] ∧
      ∃ received forwarded returning,
        Accounts 1#64 (fun _ => none) received forwarded returning s := by
  have hrun : Run.run (step 1#64 fun _ => none) {} twoRequests = some _ := rfl
  obtain ⟨received, forwarded, returning, -, -, haccounts⟩ := (pool_conserves _ _ hrun).1
  exact ⟨_, hrun, rfl, rfl, received, forwarded, returning, haccounts⟩

end StorageWorker

end RenderMq
