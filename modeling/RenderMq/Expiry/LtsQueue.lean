import RenderMq.Lib.Run
import RenderMq.Lib.SortedMap
import RenderMq.Storage.Requests
import Mathlib.Data.Prod.Lex
import Mathlib.Order.BooleanAlgebra.Basic
import Mathlib.Data.String.Basic

/-!
# The queued expiries of `expire_tiles`

For an LTS, the program does not expire a metatile at once. It queues one path for each host that has
tiles of the metatile (`ltsQueueUrls`), and requests the paths of a host in one go when there are many
(`ltsSpecialExpire`), or at the end (`ltsSpecialDrain`).

An exception ends the requests of a batch, and the batch is cleared all the same (`ltsPerformUrls`).
`requested_perm` is the balance: what was queued has been requested, or was abandoned so, or still
waits. `expiries_requested` says when nothing is abandoned.
-/

namespace RenderMq

namespace StorageExpire

/-- A host and whether its paths are those of first copies, in the order of `pair`. -/
abbrev HostKey := String ×ₗ Bool

/-- `lts_queue_t`. -/
abbrev LtsQueue := SortedMap HostKey (List String)

/-- A path and where it is requested. -/
abbrev Expiry := HostKey × String

/-! ## Queueing -/

/-- The host and the path of a URL, apart at the first `/` that is not of `http://`. -/
def splitUrl (url : String) : Option (String × String) :=
  let host := url.toList.take 7 ++ (url.toList.drop 7).takeWhile (· ≠ '/')
  match (url.toList.drop 7).dropWhile (· ≠ '/') with
  | [] => none
  | path => some (String.ofList host, String.ofList path)

/-- `lts_fill_hosts`, of the URLs. -/
def ltsFillHosts (hosts : SortedMap String (String × Bool)) (urls : List String)
    (isPrimary : Bool) : SortedMap String (String × Bool) :=
  urls.foldl (fun hosts url =>
    match splitUrl url with
    | some (host, path) => hosts.insert host (path, isPrimary)
    | none => hosts) hosts

/-- The URLs of the tiles of a job's metatile, those of one copy. -/
def getUrls (lts : LtsStorage) (job : TileProtocol) (replica : Replica) : List String :=
  (lts.makeGetUrls job replica).getD []

/-- `unique_hosts` of a job. -/
def uniqueHosts (lts : LtsStorage) (job : TileProtocol) : SortedMap String (String × Bool) :=
  ltsFillHosts (ltsFillHosts SortedMap.empty (getUrls lts job .primary) true)
    (getUrls lts job .secondary) false

/-- What a job adds to the queue. -/
def expiriesOf (lts : LtsStorage) (job : TileProtocol) : List Expiry :=
  (uniqueHosts lts job).entries.map fun row => (toLex (row.1, row.2.2), row.2.1)

/-- Append a path to the list of its host. -/
def queuePath (queue : LtsQueue) (e : Expiry) : LtsQueue :=
  let queue := match queue.find e.1 with
    | none => queue.insert e.1 []
    | some _ => queue
  queue.modify e.1 (· ++ [e.2])

/-- `lts_queue_urls`. -/
def ltsQueueUrls (lts : LtsStorage) (queue : LtsQueue) (job : TileProtocol) : LtsQueue :=
  (expiriesOf lts job).foldl queuePath queue

/-! ## Performing -/

/-- How the requests of a batch go: whether there is a connection, and which of them throw. -/
structure Connection where
  opens : Bool
  throws : Nat → Bool

/-- The paths that are requested before one throws, and that one. -/
def untilThrow (throws : Nat → Bool) : List String → List String
  | [] => []
  | path :: paths => path :: if throws 0 then [] else untilThrow (fun i => throws (i + 1)) paths

/-- The paths of a batch that `lts_perform_urls` requests. -/
def Connection.requests (c : Connection) (paths : List String) : List String :=
  if c.opens then untilThrow c.throws paths else []

/-- The program's queue, the requests that it has made, and the paths that it has cleared without one. -/
structure State where
  queue : LtsQueue := SortedMap.empty
  requested : List Expiry := []
  abandoned : List Expiry := []

/-- The requests for a list, if it is due. -/
def requestsOf (due : List String → Bool) (http : HostKey → Connection)
    (itr : HostKey × List String) : List Expiry :=
  if due itr.2 then ((http itr.1).requests itr.2).map (Prod.mk itr.1) else []

/-- The paths of a list that are cleared without a request, if it is due. -/
def abandonsOf (due : List String → Bool) (http : HostKey → Connection)
    (itr : HostKey × List String) : List Expiry :=
  if due itr.2 then (itr.2.drop ((http itr.1).requests itr.2).length).map (Prod.mk itr.1) else []

/-- The loop that performs and clears the lists that are due. -/
def ltsPerformUrls (due : List String → Bool) (http : HostKey → Connection) (s : State) : State where
  queue := s.queue.mapValues fun _ paths => if due paths then [] else paths
  requested := s.requested ++ s.queue.entries.flatMap (requestsOf due http)
  abandoned := s.abandoned ++ s.queue.entries.flatMap (abandonsOf due http)

def LTS_QUEUE_BATCH_SIZE : Nat := 1024

/-- A job, or the end of them, and how the requests that it leads to go. -/
inductive Event where
  | job (tile : TileProtocol) (http : HostKey → Connection)
  | drain (http : HostKey → Connection)

/-- The lists that an event performs. -/
def Event.due : Event → List String → Bool
  | .job .., paths => decide (paths.length > LTS_QUEUE_BATCH_SIZE)
  | .drain _, paths => !paths.isEmpty

def Event.http : Event → HostKey → Connection
  | .job _ http => http
  | .drain http => http

/-- What an event adds to the queue. -/
def Event.expiries (lts : LtsStorage) : Event → List Expiry
  | .job tile _ => expiriesOf lts tile
  | .drain _ => []

/-- The queue when an event comes to its requests. -/
def Event.queue (lts : LtsStorage) (queue : LtsQueue) : Event → LtsQueue
  | .job tile _ => ltsQueueUrls lts queue tile
  | .drain _ => queue

/-- `lts_special_expire` and `lts_special_drain`. -/
def step (lts : LtsStorage) (s : State) (e : Event) : Option State :=
  some (ltsPerformUrls e.due e.http { s with queue := e.queue lts s.queue })

/-! ## What a batch requests -/

theorem untilThrow_append_drop (throws : Nat → Bool) (paths : List String) :
    untilThrow throws paths ++ paths.drop (untilThrow throws paths).length = paths := by
  induction paths generalizing throws with
  | nil => rfl
  | cons path paths ih =>
    rw [untilThrow]
    cases throws 0 with
    | true => simp
    | false => simpa using ih fun i => throws (i + 1)

theorem untilThrow_length_iff (throws : Nat → Bool) (paths : List String) :
    paths.length ≤ (untilThrow throws paths).length ↔
      ∀ i, i + 1 < paths.length → throws i = false := by
  induction paths generalizing throws with
  | nil => simp [untilThrow]
  | cons path paths ih =>
    rw [untilThrow]
    cases hfirst : throws 0 with
    | true =>
      simp only [if_true, List.length_cons, List.length_nil]
      constructor
      · intro hshort i hi
        omega
      · intro hquiet
        by_contra hlong
        have := hquiet 0 (by omega)
        rw [hfirst] at this
        cases this
    | false =>
      simp only [Bool.false_eq_true, if_false, List.length_cons, Nat.add_le_add_iff_right]
      rw [ih]
      constructor
      · intro hquiet i hi
        cases i with
        | zero => exact hfirst
        | succ i => exact hquiet i (by omega)
      · exact fun hquiet i hi => hquiet (i + 1) (by omega)

/-- The requests of a batch of some paths are made to the last. -/
def Connection.Completes (c : Connection) (paths : List String) : Prop :=
  c.opens = true ∧ ∀ i, i + 1 < paths.length → c.throws i = false

theorem Connection.requests_append_drop (c : Connection) (paths : List String) :
    c.requests paths ++ paths.drop (c.requests paths).length = paths := by
  unfold Connection.requests
  split
  · exact untilThrow_append_drop c.throws paths
  · rfl

theorem Connection.drop_requests_eq_nil_iff (c : Connection) {paths : List String}
    (hpaths : paths ≠ []) :
    paths.drop (c.requests paths).length = [] ↔ c.Completes paths := by
  rw [List.drop_eq_nil_iff, Connection.requests, Connection.Completes]
  cases c.opens with
  | true => simp [untilThrow_length_iff]
  | false => simpa using hpaths

/-! ## The balance -/

/-- The paths that wait in the queue. -/
def pending (queue : LtsQueue) : List Expiry :=
  queue.entries.flatMap fun itr => itr.2.map (Prod.mk itr.1)

theorem queuePath_perm (queue : LtsQueue) (e : Expiry) :
    (pending (queuePath queue e)).Perm (e :: pending queue) := by
  have hmodify {q : LtsQueue} {paths : List String} (hfound : q.find e.1 = some paths) :
      (pending (q.modify e.1 (· ++ [e.2]))).Perm (e :: pending q) := by
    obtain ⟨rest, hbefore, hafter⟩ := SortedMap.modify_perm (· ++ [e.2]) hfound
    refine (hafter.flatMap_right _).trans (.trans ?_ ((hbefore.flatMap_right _).symm.cons e))
    rw [List.flatMap_cons, List.flatMap_cons, List.map_append, List.append_assoc]
    exact List.perm_middle
  unfold queuePath
  cases hfound : queue.find e.1 with
  | some paths => exact hmodify hfound
  | none =>
    have hempty : (queue.insert e.1 []).find e.1 = some [] := by
      rw [SortedMap.find_insert, if_pos rfl, hfound]
      rfl
    refine (hmodify hempty).trans (.cons e ?_)
    exact (SortedMap.insert_perm hfound).flatMap_right _

theorem ltsQueueUrls_perm (lts : LtsStorage) (queue : LtsQueue) (job : TileProtocol) :
    (pending (ltsQueueUrls lts queue job)).Perm (expiriesOf lts job ++ pending queue) := by
  unfold ltsQueueUrls
  induction expiriesOf lts job generalizing queue with
  | nil => exact .refl _
  | cons e es ih =>
    refine (ih (queuePath queue e)).trans ?_
    refine ((queuePath_perm queue e).append_left es).trans ?_
    exact List.perm_middle

theorem event_queue_perm (lts : LtsStorage) (queue : LtsQueue) (e : Event) :
    (pending (e.queue lts queue)).Perm (e.expiries lts ++ pending queue) := by
  cases e with
  | job tile http => exact ltsQueueUrls_perm lts queue tile
  | drain http => exact .refl _

/-- What is requested of a list, what is abandoned and what stays in it. -/
theorem parts_eq (due : List String → Bool) (http : HostKey → Connection)
    (itr : HostKey × List String) :
    requestsOf due http itr ++ (abandonsOf due http itr ++
      (if due itr.2 then [] else itr.2).map (Prod.mk itr.1)) = itr.2.map (Prod.mk itr.1) := by
  unfold requestsOf abandonsOf
  split
  · rw [List.map_nil, List.append_nil, ← List.map_append, Connection.requests_append_drop]
  · rfl

/-- What a state accounts for. -/
def State.accounted (s : State) : List Expiry := s.requested ++ s.abandoned ++ pending s.queue

theorem ltsPerformUrls_perm (due : List String → Bool) (http : HostKey → Connection) (s : State) :
    (ltsPerformUrls due http s).accounted.Perm s.accounted := by
  have hkept : pending (ltsPerformUrls due http s).queue = s.queue.entries.flatMap fun itr =>
      (if due itr.2 then [] else itr.2).map (Prod.mk itr.1) := List.flatMap_map ..
  have hparts : (s.queue.entries.flatMap (requestsOf due http) ++
      (s.queue.entries.flatMap (abandonsOf due http) ++
        pending (ltsPerformUrls due http s).queue)).Perm (pending s.queue) := by
    rw [hkept]
    refine ((List.flatMap_append_perm ..).append_left _).trans ?_
    refine (List.flatMap_append_perm ..).trans ?_
    rw [List.flatMap_congr fun itr _ => parts_eq due http itr]
    exact .refl _
  unfold State.accounted
  refine .trans ?_ (hparts.append_left (s.requested ++ s.abandoned))
  refine List.perm_iff_count.mpr fun e => ?_
  simp only [ltsPerformUrls, List.count_append]
  omega

theorem step_perm {lts : LtsStorage} {s t : State} {e : Event} (hstep : step lts s e = some t) :
    t.accounted.Perm (e.expiries lts ++ s.accounted) := by
  obtain rfl := Option.some.inj hstep
  refine (ltsPerformUrls_perm e.due e.http _).trans ?_
  unfold State.accounted
  refine ((event_queue_perm lts s.queue e).append_left _).trans ?_
  rw [← List.append_assoc, ← List.append_assoc]
  exact List.perm_append_comm.append_right _

/-- **The balance.** What the jobs of a run have queued has been requested, or has been abandoned, or
waits. -/
theorem requested_perm {lts : LtsStorage} {events : List Event} {t : State}
    (hrun : Run.run (step lts) {} events = some t) :
    t.accounted.Perm (events.flatMap (Event.expiries lts)) := by
  have hkeep : ∀ (past : List Event) (s : State) (e : Event) (t : State),
      s.accounted.Perm (past.flatMap (Event.expiries lts)) → step lts s e = some t →
        t.accounted.Perm ((past ++ [e]).flatMap (Event.expiries lts)) := by
    intro past s e t hinv hstep
    refine (step_perm hstep).trans ?_
    rw [List.flatMap_append, List.flatMap_cons, List.flatMap_nil, List.append_nil]
    exact (hinv.append_left _).trans List.perm_append_comm
  exact Run.run_invariant hkeep events [] {} t (.refl _) hrun

/-! ## What is abandoned -/

/-- Each batch of an event is requested to its last path. -/
def Unbroken (lts : LtsStorage) (s : State) (e : Event) : Prop :=
  ∀ itr ∈ (e.queue lts s.queue).entries, e.due itr.2 = true → (e.http itr.1).Completes itr.2

theorem ne_nil_of_due {e : Event} {paths : List String} (hdue : e.due paths = true) : paths ≠ [] := by
  rintro rfl
  cases e with
  | job tile http => simp [Event.due] at hdue
  | drain http => cases hdue

theorem step_abandoned_iff {lts : LtsStorage} {s t : State} {e : Event}
    (hstep : step lts s e = some t) :
    t.abandoned = [] ↔ s.abandoned = [] ∧ Unbroken lts s e := by
  obtain rfl := Option.some.inj hstep
  refine List.append_eq_nil_iff.trans (and_congr Iff.rfl ?_)
  rw [List.flatMap_eq_nil_iff]
  refine forall₂_congr fun itr _ => ?_
  unfold abandonsOf
  by_cases hdue : e.due itr.2 = true
  · rw [if_pos hdue, List.map_eq_nil_iff, Connection.drop_requests_eq_nil_iff _ (ne_nil_of_due hdue)]
    exact ⟨fun h _ => h, fun h => h hdue⟩
  · rw [if_neg hdue]
    exact ⟨fun _ h => absurd h hdue, fun _ => rfl⟩

theorem run_abandoned_iff {lts : LtsStorage} : ∀ (events : List Event) {s t : State},
    Run.run (step lts) s events = some t →
      (t.abandoned = [] ↔ s.abandoned = [] ∧ Run.EveryStep (step lts) (Unbroken lts) s events) := by
  intro events
  induction events with
  | nil =>
    intro s t hrun
    obtain rfl := Option.some.inj hrun
    simp [Run.EveryStep]
  | cons e events ih =>
    intro s t hrun
    obtain ⟨m, hm, hrest⟩ := Run.run_cons hrun
    rw [ih hrest, step_abandoned_iff hm, and_assoc]
    refine and_congr_right fun _ => ?_
    constructor
    · intro h
      exact Run.everyStep_cons hm h.1 h.2
    · intro h
      exact ⟨h.1, h.2 m hm⟩

/-! ## The hosts of a job -/

/-- The paths that some URLs have on a host. -/
def pathsOn (host : String) (urls : List String) : List String :=
  urls.filterMap fun url => (splitUrl url).bind fun p => if p.1 = host then some p.2 else none

theorem find_ltsFillHosts (urls : List String) (isPrimary : Bool) (host : String) :
    ∀ hosts : SortedMap String (String × Bool),
      (ltsFillHosts hosts urls isPrimary).find host =
        (hosts.find host).or ((pathsOn host urls).head?.map fun path => (path, isPrimary)) := by
  induction urls with
  | nil => exact fun hosts => (Option.or_none ..).symm
  | cons url urls ih =>
    intro hosts
    rw [ltsFillHosts, List.foldl_cons]
    refine (ih _).trans ?_
    rw [pathsOn, pathsOn, List.filterMap_cons]
    cases splitUrl url with
    | none => rfl
    | some p =>
      obtain ⟨h, path⟩ := p
      simp only [SortedMap.find_insert, Option.bind_some]
      by_cases hhost : host = h
      · subst hhost
        cases hosts.find host <;> simp
      · rw [if_neg hhost, if_neg (Ne.symm hhost)]

/-- A host has tiles of a job's metatile. -/
def Occurs (lts : LtsStorage) (job : TileProtocol) (host : String) : Prop :=
  ∃ replica, ∃ url ∈ getUrls lts job replica, ∃ path, splitUrl url = some (host, path)

theorem occurs_iff (lts : LtsStorage) (job : TileProtocol) (host : String) :
    Occurs lts job host ↔ ((uniqueHosts lts job).find host).isSome = true := by
  have hpaths (urls : List String) : ((pathsOn host urls).head?).isSome = true ↔
      ∃ url ∈ urls, ∃ path, splitUrl url = some (host, path) := by
    rw [List.isSome_head?, ← List.isEmpty_eq_false_iff, List.isEmpty_eq_false_iff_exists_mem]
    simp only [pathsOn, List.mem_filterMap, Option.bind_eq_some_iff]
    constructor
    · rintro ⟨path, url, hurl, p, hp, hpath⟩
      split at hpath
      · next hhost => exact ⟨url, hurl, p.2, by rw [hp, ← hhost]⟩
      · cases hpath
    · rintro ⟨url, hurl, path, hp⟩
      exact ⟨path, url, hurl, _, hp, if_pos rfl⟩
  rw [uniqueHosts, find_ltsFillHosts, find_ltsFillHosts, SortedMap.find_empty, Option.none_or,
    Option.isSome_or, Option.isSome_map, Option.isSome_map, Bool.or_eq_true, hpaths, hpaths]
  constructor
  · rintro ⟨replica, hrep⟩
    cases replica with
    | primary => exact .inl hrep
    | secondary => exact .inr hrep
  · rintro (hrep | hrep)
    · exact ⟨.primary, hrep⟩
    · exact ⟨.secondary, hrep⟩

/-- The host of an expiry. -/
def Expiry.host (e : Expiry) : String := (ofLex e.1).1

/-- **One path for a host.** -/
theorem filter_expiriesOf (lts : LtsStorage) {job : TileProtocol} {host : String}
    (hoccurs : Occurs lts job host) :
    ∃ e : Expiry, ((expiriesOf lts job).filter fun e => decide (Expiry.host e = host)) = [e] := by
  obtain ⟨value, hfound⟩ := Option.isSome_iff_exists.mp ((occurs_iff lts job host).mp hoccurs)
  have hfilter := SortedMap.filter_key (uniqueHosts lts job) host
  rw [hfound] at hfilter
  refine ⟨(toLex (host, value.2), value.1), ?_⟩
  rw [expiriesOf, List.filter_map]
  exact congrArg (List.map fun row => (toLex (row.1, row.2.2), row.2.1)) hfilter

/-- A URL of a tile has a host. -/
theorem splitUrl_url (lts : LtsStorage) (x y z : Int) (style fileType : String) (replica : Replica) :
    (splitUrl (lts.url x y z style fileType replica)).isSome = true := by
  have hbase : ∃ base : String,
      lts.urlBase (lts.hashedHost x y z replica) z style = "http://" ++ base := by
    unfold LtsStorage.urlBase
    simp only [String.append_assoc]
    exact ⟨_, rfl⟩
  obtain ⟨base, hbase⟩ := hbase
  have hurl : ∃ rest : List Char, '/' ∈ rest ∧
      (lts.url x y z style fileType replica).toList = "http://".toList ++ rest := by
    rw [lts.toList_url, hbase, String.toList_append]
    simp only [List.append_assoc, List.cons_append]
    exact ⟨_, List.mem_append_right base.toList List.mem_cons_self, rfl⟩
  obtain ⟨rest, hslash, hurl⟩ := hurl
  have hdrop : ("http://".toList ++ rest).drop 7 = rest := rfl
  have hpath : rest.dropWhile (· ≠ '/') ≠ [] := by
    intro hnil
    have := List.dropWhile_eq_nil_iff.mp hnil '/' hslash
    simp at this
  rw [splitUrl, hurl, hdrop]
  split
  · next hnil => exact absurd hnil hpath
  · rfl

/-- A job has a path to queue when its metatile has tiles. -/
theorem expiriesOf_ne_nil_iff (lts : LtsStorage) (job : TileProtocol) :
    expiriesOf lts job ≠ [] ↔ metaSlots job ≠ [] := by
  have hurls (replica : Replica) :
      getUrls lts job replica = (metaSlots job).map (lts.slotUrl job replica) := by
    rw [getUrls, lts.makeGetUrls_eq, Option.getD_some]
  constructor
  · intro hne hslots
    refine hne ?_
    rw [expiriesOf, uniqueHosts, hurls, hurls, hslots]
    rfl
  · intro hslots hnil
    obtain ⟨slot, hslot⟩ := List.exists_mem_of_ne_nil _ hslots
    have hsplit : (splitUrl (lts.slotUrl job .primary slot)).isSome = true := splitUrl_url ..
    obtain ⟨p, hp⟩ := Option.isSome_iff_exists.mp hsplit
    have hoccurs : Occurs lts job p.1 := by
      refine ⟨.primary, lts.slotUrl job .primary slot, ?_, p.2, hp⟩
      rw [hurls]
      exact List.mem_map_of_mem hslot
    obtain ⟨e, he⟩ := filter_expiriesOf lts hoccurs
    rw [hnil] at he
    cases he

/-! ## Every expiry is requested -/

theorem pending_of_drain {lts : LtsStorage} {s t : State} {http : HostKey → Connection}
    (hstep : step lts s (.drain http) = some t) : pending t.queue = [] := by
  obtain rfl := Option.some.inj hstep
  refine List.flatMap_eq_nil_iff.mpr fun itr hitr => ?_
  obtain ⟨before, _, rfl⟩ := List.mem_map.mp hitr
  cases hpaths : before.2 with
  | nil => simp
  | cons path paths => simp [Event.due]

/-- What the jobs of some events have queued. -/
def queuedBy (lts : LtsStorage) (events : List Event) : List Expiry :=
  events.flatMap (Event.expiries lts)

/-- **When every expiry is requested.** After a drain, each that was queued has been requested as often
as it was queued, if and only if every batch was requested to its last path.

Jobs are queued in any order, the queues are drained at any time, and each request may throw. A request
counts once it was sent, whatever the host made of it. -/
theorem expiries_requested (lts : LtsStorage) (events : List Event) (http : HostKey → Connection) :
    ∃ t, Run.run (step lts) {} (events ++ [.drain http]) = some t ∧
      (Run.EveryStep (step lts) (Unbroken lts) {} (events ++ [.drain http]) ↔
        ∀ e, (queuedBy lts events).count e ≤ t.requested.count e) ∧
      (Run.EveryStep (step lts) (Unbroken lts) {} (events ++ [.drain http]) →
        ∀ e ∈ queuedBy lts events, e ∈ t.requested) ∧
      ∀ job host, Occurs lts job host →
        ∃ e : Expiry, ((expiriesOf lts job).filter fun e => decide (Expiry.host e = host)) = [e] := by
  have hdefined : ∀ (s : State) (e : Event), True → ∃ t, step lts s e = some t :=
    fun s e _ => ⟨_, rfl⟩
  obtain ⟨t, hrun⟩ := Run.run_defined hdefined (events ++ [.drain http]) {} fun _ _ => trivial
  have hempty : pending t.queue = [] := by
    rw [Run.run, List.foldlM_append] at hrun
    obtain ⟨m, _, hlast⟩ := Option.bind_eq_some_iff.mp hrun
    obtain ⟨t', ht', hend⟩ := Run.run_cons hlast
    obtain rfl := Option.some.inj hend
    exact pending_of_drain ht'
  have hperm : (t.requested ++ t.abandoned).Perm (queuedBy lts events) := by
    have := requested_perm hrun
    rw [State.accounted, hempty, List.append_nil, List.flatMap_append, List.flatMap_singleton] at this
    exact this.trans (.of_eq (List.append_nil _))
  have hiff : Run.EveryStep (step lts) (Unbroken lts) {} (events ++ [.drain http]) ↔
      ∀ e, (queuedBy lts events).count e ≤ t.requested.count e := by
    rw [← (run_abandoned_iff _ hrun).trans (and_iff_right rfl), List.eq_nil_iff_forall_not_mem]
    refine forall_congr' fun e => ?_
    rw [← List.count_eq_zero, ← hperm.count_eq, List.count_append]
    omega
  refine ⟨t, hrun, hiff, fun hevery e he => ?_, fun job host => filter_expiriesOf lts⟩
  exact List.count_pos_iff.mp (lt_of_lt_of_le (List.count_pos_iff.mpr he) (hiff.mp hevery e))

/-- Two paths on one host, and the request for the first throws. -/
theorem exception_abandons_batch :
    ¬ ∀ (lts : LtsStorage) (events : List Event) (http : HostKey → Connection) (t : State),
      Run.run (step lts) {} (events ++ [.drain http]) = some t →
        ∀ e ∈ queuedBy lts events, e ∈ t.requested := by
  intro h
  let lts : LtsStorage :=
    { hosts := [("tiles", 80)], serverByKey := fun _ => 0, appName := "mq", version := "1.0" }
  let http : HostKey → Connection := fun _ => ⟨true, fun i => i = 0⟩
  have hall := h lts [.job { style := "map" } http, .job { style := "hyb" } http] http _ rfl
  exact absurd (hall (toLex ("http://tiles:80", true), "/1.0/mqhyb/0/0/0.png")) (by decide +kernel)

end StorageExpire

end RenderMq
