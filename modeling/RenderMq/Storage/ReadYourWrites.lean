import RenderMq.Storage.RoundTrip

/-!
# Reading what was written

`put_meta` reports success when either copy of a metatile was written. `get` takes the first copy of
a tile that there is, and does not ask whether the second one is newer. So after a success the old
tile may be read, and look fresh, where the first copy was not written.

`never_stale_iff` says when it is not (`NeverStale`), by what the nodes had before and which requests
took effect (`FirstCopyNew`): the first copy that there is must be new, or expired, or the same.
-/

namespace RenderMq

/-- The response that a stored tile is served with. -/
def StoredTile.response (t : StoredTile) : Response :=
  { statusCode := 200, timeStamp := t.timeStamp, body := t.body }

namespace LtsStorage

variable (lts : LtsStorage)

/-! ## Which requests are sent -/

/-- A request for a URL is sent: all at once, always, and one by one, when all before it went
well. -/
def Reached (post : String → PostOutcome) (requests : List PutRequest) (url : String) : Prop :=
  ∃ before r after, requests = before ++ r :: after ∧ r.url = url ∧
    (lts.concurrency < 2 → ∀ r' ∈ before, post r'.url = .stored)

theorem mem_putMetaSerial {post : String → PostOutcome} {requests : List PutRequest}
    {url : String} :
    (∃ r ∈ (putMetaSerial post requests).1, r.url = url) ↔
      ∃ before r after, requests = before ++ r :: after ∧ r.url = url ∧
        ∀ r' ∈ before, post r'.url = .stored := by
  induction requests with
  | nil => simp [putMetaSerial]
  | cons request requests ih =>
    have hfirst : request.url = url → ∃ before r after,
        request :: requests = before ++ r :: after ∧ r.url = url ∧
          ∀ r' ∈ before, post r'.url = .stored :=
      fun hurl => ⟨[], request, requests, rfl, hurl, fun r hr => absurd hr List.not_mem_nil⟩
    by_cases hstored : post request.url = .stored
    · rw [putMetaSerial, if_pos hstored]
      constructor
      · rintro ⟨r, hr, hurl⟩
        rcases List.mem_cons.mp hr with rfl | hr
        · exact hfirst hurl
        · obtain ⟨before, r, after, rfl, hurl, hbefore⟩ := ih.mp ⟨r, hr, hurl⟩
          exact ⟨request :: before, r, after, rfl, hurl, List.forall_mem_cons.mpr
            ⟨hstored, hbefore⟩⟩
      · rintro ⟨before, r, after, hsplit, hurl, hbefore⟩
        cases before with
        | nil =>
          obtain ⟨rfl, rfl⟩ := List.cons.inj hsplit
          exact ⟨request, List.mem_cons_self, hurl⟩
        | cons first before =>
          obtain ⟨rfl, rfl⟩ := List.cons.inj hsplit
          obtain ⟨r', hr', hurl'⟩ :=
            ih.mpr ⟨before, r, after, rfl, hurl, (List.forall_mem_cons.mp hbefore).2⟩
          exact ⟨r', List.mem_cons_of_mem _ hr', hurl'⟩
    · rw [putMetaSerial, if_neg hstored]
      constructor
      · rintro ⟨r, hr, hurl⟩
        obtain rfl := List.mem_singleton.mp hr
        exact hfirst hurl
      · rintro ⟨before, r, after, hsplit, hurl, hbefore⟩
        cases before with
        | nil =>
          obtain ⟨rfl, rfl⟩ := List.cons.inj hsplit
          exact ⟨request, List.mem_singleton_self _, hurl⟩
        | cons first before =>
          obtain ⟨rfl, rfl⟩ := List.cons.inj hsplit
          exact absurd ((List.forall_mem_cons.mp hbefore).1) hstored

theorem mem_putCopy {post : String → PostOutcome} {requests : List PutRequest} {url : String} :
    (∃ r ∈ (lts.putCopy post requests).1, r.url = url) ↔ lts.Reached post requests url := by
  unfold putCopy Reached
  split
  · next serial => simp only [mem_putMetaSerial, serial, true_imp_iff]
  · next parallel =>
    simp only [putMetaParallel, parallel, false_imp_iff, and_true]
    constructor
    · rintro ⟨r, hr, hurl⟩
      obtain ⟨before, after, rfl⟩ := List.append_of_mem hr
      exact ⟨before, r, after, rfl, hurl⟩
    · rintro ⟨before, r, after, rfl, hurl⟩
      exact ⟨r, by simp, hurl⟩

theorem putMetaSerial_subset {post : String → PostOutcome} {requests : List PutRequest}
    {r : PutRequest} (h : r ∈ (putMetaSerial post requests).1) : r ∈ requests := by
  induction requests with
  | nil => exact h
  | cons request requests ih =>
    by_cases hstored : post request.url = .stored
    · rw [putMetaSerial, if_pos hstored] at h
      rcases List.mem_cons.mp h with rfl | h
      · exact List.mem_cons_self
      · exact List.mem_cons_of_mem _ (ih h)
    · rw [putMetaSerial, if_neg hstored] at h
      rw [List.mem_singleton.mp h]
      exact List.mem_cons_self

theorem putCopy_subset {post : String → PostOutcome} {requests : List PutRequest} {r : PutRequest}
    (h : r ∈ (lts.putCopy post requests).1) : r ∈ requests := by
  unfold putCopy at h
  split at h
  · exact putMetaSerial_subset h
  · exact h

/-- The request for a copy was sent, and took effect. -/
def Took (post : String → PostOutcome) (requests : List PutRequest) (url : String) : Prop :=
  lts.Reached post requests url ∧ (post url).applied = true

/-- What the node has of a tile afterwards: what was posted, or what it had. -/
theorem received_took {post : String → PostOutcome} {requests : List PutRequest} {url : String}
    {store : LtsStore} {replica : Replica} {now : Int} :
    (lts.Took post requests url → ∃ r ∈ requests, r.url = url ∧
      received store replica now post (lts.putCopy post requests).1 (replica, url) =
        some ⟨r.data, now⟩) ∧
    (¬ lts.Took post requests url →
      received store replica now post (lts.putCopy post requests).1 (replica, url) =
        store (replica, url)) := by
  constructor
  · rintro ⟨hreached, happlied⟩
    obtain ⟨r, hr, hurl, hvalue⟩ := received_some store now (lts.mem_putCopy.mpr hreached) happlied
    exact ⟨r, lts.putCopy_subset hr, hurl, hvalue⟩
  · intro hnot
    refine received_none fun r hr hurl => ?_
    rw [← Bool.not_eq_true]
    exact fun happlied => hnot ⟨lts.mem_putCopy.mp ⟨r, hr, hurl⟩, happlied⟩

/-! ## The nodes after a put -/

/-- The requests for the copies of a metatile, as `put_meta` has them. -/
def copyRequests (tile : TileProtocol) (metatile : Bytes) : Replica → Option (List PutRequest)
  | .primary => lts.makePutRequests tile metatile
  | .secondary => do
    let requests ← lts.makePutRequests tile metatile
    let urls ← lts.makeReplicaUrls tile metatile
    some (List.zipWith (fun r url => { r with url := url }) requests urls)

/-- The requests for both copies are for the same tiles. -/
theorem copyRequests_tiles {tile : TileProtocol} {metatile : Bytes} {requests : List PutRequest}
    (h : lts.makePutRequests tile metatile = some requests) :
    ∃ tiles : List PutTile, (∀ t ∈ tiles, t.fmt ∈ singleFormats) ∧
      ∀ replica, lts.copyRequests tile metatile replica =
        some (tiles.map (PutTile.request lts tile replica)) := by
  obtain ⟨tiles, single, rfl, hurls⟩ := lts.putTiles_together h
  refine ⟨tiles, single, fun replica => ?_⟩
  cases replica with
  | primary => exact h
  | secondary =>
    simp only [copyRequests, h, hurls, Option.bind_eq_bind, Option.bind_some, List.zipWith_map,
      List.zipWith_self]
    rfl

/-- A success says what the nodes have: each copy by its own requests. -/
theorem putMeta_success {post : Replica → String → PostOutcome}
    {touch : Replica → String → TouchOutcome} {tile : TileProtocol} {metatile : Bytes} {now : Int}
    {store store' : LtsStore}
    (h : lts.putMeta post touch tile metatile now store = some (store', true)) :
    ∃ requests secondary, lts.copyRequests tile metatile .primary = some requests ∧
      lts.copyRequests tile metatile .secondary = some secondary ∧
      store' = received (received store .primary now (post .primary)
          (lts.putCopy (post .primary) requests).1) .secondary now (post .secondary)
        (lts.putCopy (post .secondary) secondary).1 := by
  obtain ⟨requests, hrequests, _⟩ := Option.bind_eq_some_iff.mp h
  obtain ⟨_, _, _, hurls⟩ := lts.putTiles_together hrequests
  refine ⟨requests, _, hrequests, by rw [copyRequests, hrequests, hurls]; rfl, ?_⟩
  simp only [putMeta, hrequests, hurls, Option.bind_eq_bind, Option.bind_some] at h
  split at h
  · obtain ⟨_, _, h⟩ := Option.bind_eq_some_iff.mp h
    cases h
  · exact (congrArg Prod.fst (Option.some.inj h)).symm

/-- The request for a copy of a tile was sent, and took effect. -/
def Takes (post : Replica → String → PostOutcome) (tile : TileProtocol) (metatile : Bytes)
    (replica : Replica) (url : String) : Prop :=
  ∃ requests, lts.copyRequests tile metatile replica = some requests ∧
    lts.Took (post replica) requests url

/-- **The nodes after a put.** A copy is new where its request took effect, and else as it was. -/
theorem store_after_put {post : Replica → String → PostOutcome}
    {touch : Replica → String → TouchOutcome} {tile : TileProtocol} {metatile : Bytes} {now : Int}
    {store store' : LtsStore}
    (h : lts.putMeta post touch tile metatile now store = some (store', true)) (replica : Replica)
    (url : String) :
    (lts.Takes post tile metatile replica url → ∃ requests,
      lts.copyRequests tile metatile replica = some requests ∧
      ∃ r ∈ requests, r.url = url ∧ store' (replica, url) = some ⟨r.data, now⟩) ∧
    (¬ lts.Takes post tile metatile replica url → store' (replica, url) = store (replica, url)) := by
  obtain ⟨requests, secondary, hrequests, hsecondary, rfl⟩ := lts.putMeta_success h
  have hother : ∀ base : LtsStore, received base .secondary now (post .secondary)
      (lts.putCopy (post .secondary) secondary).1 (.primary, url) = base (.primary, url) :=
    fun base => received_other (by decide)
  have hbase : received store .primary now (post .primary)
      (lts.putCopy (post .primary) requests).1 (.secondary, url) = store (.secondary, url) :=
    received_other (by decide)
  cases replica with
  | primary =>
    rw [hother]
    constructor
    · rintro ⟨requests', hrequests', htook⟩
      obtain rfl := Option.some.inj (hrequests.symm.trans hrequests')
      exact ⟨requests, hrequests, lts.received_took.1 htook⟩
    · exact fun hnot => lts.received_took.2 fun htook => hnot ⟨requests, hrequests, htook⟩
  | secondary =>
    constructor
    · rintro ⟨requests', hrequests', htook⟩
      obtain rfl := Option.some.inj (hsecondary.symm.trans hrequests')
      exact ⟨secondary, hsecondary, lts.received_took.1 htook⟩
    · rw [← hbase]
      exact fun hnot => lts.received_took.2 fun htook => hnot ⟨secondary, hsecondary, htook⟩

/-! ## What is read -/

/-- What the handle of a tile is made of: the first copy that there is. -/
def firstCopy (store : LtsStore) (primaryUrl secondaryUrl : String) : Option StoredTile :=
  (store (.primary, primaryUrl)).or (store (.secondary, secondaryUrl))

/-- No host that may have the tile is thought to be down. -/
def HostsUp (down : HostsDown) (query : TileProtocol) (now : Int) : Prop :=
  ∀ replica, (isHostDown down (lts.hashedHost query.x query.y query.z replica) now).1 = false

theorem isHostDown_fst (down : HostsDown) (host : String × Int) (now : Int) :
    (isHostDown down host now).1 = (down host).any fun t => decide (now ≤ t) := by
  unfold isHostDown
  cases down host with
  | none => rfl
  | some t =>
    dsimp only
    split <;> simp <;> omega

/-- Asking for one host does not make another one be down. -/
theorem isHostDown_update {down : HostsDown} (host : String × Int) {host' : String × Int} {now : Int}
    (h' : (isHostDown down host' now).1 = false) :
    (isHostDown (isHostDown down host now).2 host' now).1 = false := by
  have hsame : (isHostDown down host now).2 = down ∨
      (isHostDown down host now).2 = Function.update down host none := by
    unfold isHostDown
    split
    · split
      · exact .inr rfl
      · exact .inl rfl
    · exact .inl rfl
  rcases hsame with hsame | hsame
  · rw [hsame]
    exact h'
  · rw [isHostDown_fst] at h'
    rw [hsame, isHostDown_fst]
    by_cases hhost : host' = host
    · rw [hhost, Function.update_self, Option.any_none]
    · rwa [Function.update_of_ne hhost]

/-- A node that is up answers for its copy. -/
theorem attemptGetHost_serve (store : LtsStore) {down : HostsDown} {query : TileProtocol}
    {replica : Replica} {now : Int} {url : String}
    (up : (isHostDown down (lts.hashedHost query.x query.y query.z replica) now).1 = false)
    (hurl : lts.formUrl query.x query.y query.z query.style query.format replica = .ok url) :
    lts.attemptGetHost (serve store) down query replica now =
      ((store (replica, url)).map StoredTile.response,
        (isHostDown down (lts.hashedHost query.x query.y query.z replica) now).2) := by
  unfold attemptGetHost
  dsimp only
  split
  · next heq => rw [heq] at up; cases up
  · next heq =>
    have hbind : ((.ok url : Except String String) >>= serve store replica) =
        serve store replica url := rfl
    rw [heq, hurl, hbind, serve]
    cases store (replica, url) with
    | some t => simp [StoredTile.response]
    | none => simp

/-- **Get.** What is read with both hosts up is the first copy that there is. -/
theorem get_serve {store : LtsStore} {down : HostsDown} {query : TileProtocol} {now : Int}
    {primaryUrl secondaryUrl : String} (up : lts.HostsUp down query now)
    (hprimary : lts.formUrl query.x query.y query.z query.style query.format .primary =
      .ok primaryUrl)
    (hsecondary : lts.formUrl query.x query.y query.z query.style query.format .secondary =
      .ok secondaryUrl) :
    (lts.get (serve store) down query now).1 =
      ((firstCopy store primaryUrl secondaryUrl).map StoredTile.response).getD {} := by
  have hsecond := lts.attemptGetHost_serve store
    (isHostDown_update (lts.hashedHost query.x query.y query.z .primary) (up .secondary)) hsecondary
  rw [get, lts.attemptGetHost_serve store (up .primary) hprimary, firstCopy]
  cases store (.primary, primaryUrl) with
  | some t => rfl
  | none =>
    simp only [Option.map_none, hsecond, Option.none_or]
    cases store (.secondary, secondaryUrl) <;> rfl

/-! ## Read your writes -/

/-- A body was posted, by a put of a metatile, for the tile and format of a query. -/
def Posted (tile : TileProtocol) (metatile : Bytes) (query : TileProtocol) (body : Bytes) : Prop :=
  ∃ requests url, lts.makePutRequests tile metatile = some requests ∧
    lts.formUrl query.x query.y query.z query.style query.format .primary = .ok url ∧
    ∃ r ∈ requests, r.url = url ∧ r.data = body

/-- What is read is new, or else does not look fresh. -/
def NeverStale (tile : TileProtocol) (metatile : Bytes) (query : TileProtocol)
    (response : Response) : Prop :=
  lts.Posted tile metatile query response.body ∨ response.handleExpired = true ∨
    response.handleExists = false

/-- An old tile that may be read: there is none, or it is expired, or it is the same. -/
def Harmless (tile : TileProtocol) (metatile : Bytes) (query : TileProtocol)
    (old : Option StoredTile) : Prop :=
  ∀ t, old = some t → t.timeStamp = INVALID_TIMESTAMP ∨ lts.Posted tile metatile query t.body

/-- The first copy that there is was written, or it is harmless. -/
def FirstCopyNew (post : Replica → String → PostOutcome) (tile : TileProtocol) (metatile : Bytes)
    (store : LtsStore) (query : TileProtocol) : Prop :=
  ∃ primaryUrl secondaryUrl,
    lts.formUrl query.x query.y query.z query.style query.format .primary = .ok primaryUrl ∧
    lts.formUrl query.x query.y query.z query.style query.format .secondary = .ok secondaryUrl ∧
    (lts.Takes post tile metatile .primary primaryUrl ∨
      (store (.primary, primaryUrl) ≠ none ∧
        lts.Harmless tile metatile query (store (.primary, primaryUrl))) ∨
      (store (.primary, primaryUrl) = none ∧
        (lts.Takes post tile metatile .secondary secondaryUrl ∨
          lts.Harmless tile metatile query (store (.secondary, secondaryUrl)))))

theorem formUrl_ok {x y z : Int} {style : String} {format : ProtoFmt} {replica : Replica}
    {url : String} (h : lts.formUrl x y z style format replica = .ok url) :
    ∃ ext, '.' ∉ ext.toList ∧ ∀ replica',
      lts.formUrl x y z style format replica' = .ok (lts.url x y z style ext replica') := by
  unfold formUrl at h ⊢
  cases hext : fileTypeFor format with
  | error message =>
    rw [hext] at h
    cases h
  | ok ext =>
    refine ⟨ext, ?_, fun replica' => rfl⟩
    have hnames : ext ∈ ["none", "png", "jpeg", "gif", "json", "all"] := by
      revert hext
      unfold fileTypeFor
      repeat' split
      all_goals rintro ⟨⟩
      all_goals simp
    have hdots : ∀ name ∈ ["none", "png", "jpeg", "gif", "json", "all"], '.' ∉ name.toList := by
      decide
    exact hdots ext hnames

/-- The bodies of both copies are posted. -/
theorem posted_of_copyRequests {tile query : TileProtocol} {metatile : Bytes} {replica : Replica}
    {requests : List PutRequest} {r : PutRequest} (zoom : query.z = tile.z)
    (style : query.style = tile.style)
    (hrequests : lts.copyRequests tile metatile replica = some requests) (hr : r ∈ requests)
    (hurl : lts.formUrl query.x query.y query.z query.style query.format replica = .ok r.url) :
    lts.Posted tile metatile query r.data := by
  obtain ⟨first, hfirst⟩ : ∃ first, lts.makePutRequests tile metatile = some first := by
    cases replica with
    | primary => exact ⟨requests, hrequests⟩
    | secondary =>
      obtain ⟨first, hfirst, _⟩ := Option.bind_eq_some_iff.mp hrequests
      exact ⟨first, hfirst⟩
  obtain ⟨tiles, single, hcopies⟩ := lts.copyRequests_tiles hfirst
  obtain rfl := Option.some.inj (hrequests.symm.trans (hcopies replica))
  obtain ⟨t, ht, rfl⟩ := List.mem_map.mp hr
  obtain ⟨ext, hdot, hext⟩ := lts.formUrl_ok hurl
  have heq := Except.ok.inj ((hext replica).symm.trans hurl)
  rw [zoom, style] at heq
  obtain ⟨hx, hy, rfl⟩ := lts.url_inj hdot (dot_not_mem_fileType (single t ht)) heq
  refine ⟨_, _, hcopies .primary, hext .primary, _, List.mem_map_of_mem ht, ?_, rfl⟩
  rw [zoom, style, hx, hy]
  rfl

/-- A tile that is served is never stale when it is harmless. -/
theorem neverStale_response {tile query : TileProtocol} {metatile : Bytes} {t : StoredTile} :
    lts.NeverStale tile metatile query t.response ↔
      lts.Harmless tile metatile query (some t) := by
  constructor
  · rintro (h | h | h) t' ⟨⟩
    · exact .inr h
    · rcases Bool.or_eq_true_iff.mp h with h | h
      · exact .inl (of_decide_eq_true h)
      · exact absurd rfl (of_decide_eq_true h)
    · cases h
  · intro h
    rcases h t rfl with h | h
    · exact .inr (.inl (by simp [StoredTile.response, Response.handleExpired, h]))
    · exact .inl h

/-- What took effect may be read. -/
theorem harmless_of_takes {post : Replica → String → PostOutcome}
    {touch : Replica → String → TouchOutcome} {tile query : TileProtocol} {metatile : Bytes}
    {now : Int} {store store' : LtsStore} {replica : Replica} {url : String}
    (success : lts.putMeta post touch tile metatile now store = some (store', true))
    (zoom : query.z = tile.z) (style : query.style = tile.style)
    (hurl : lts.formUrl query.x query.y query.z query.style query.format replica = .ok url)
    (takes : lts.Takes post tile metatile replica url) :
    ∃ t, store' (replica, url) = some t ∧ lts.Harmless tile metatile query (some t) := by
  obtain ⟨requests, hrequests, r, hr, rfl, hvalue⟩ :=
    (lts.store_after_put success replica url).1 takes
  refine ⟨_, hvalue, fun t ht => .inr ?_⟩
  obtain rfl := Option.some.inj ht
  exact lts.posted_of_copyRequests zoom style hrequests hr hurl

/-- **Read your writes.** After a put that reports success, what is read of a tile of the metatile, with
both hosts up, is never stale exactly where the first copy that there is was written.

Whatever the hosts had before, and whichever of the requests had no effect. It is assumed that the put
reports success, that the tile read was one of those posted, and that neither of its hosts is thought to
be down. Of a put that reports a failure nothing is said. -/
theorem never_stale_iff {post : Replica → String → PostOutcome}
    {touch : Replica → String → TouchOutcome} {tile query : TileProtocol} {metatile body : Bytes}
    {now clock : Int} {store store' : LtsStore} {down : HostsDown}
    (success : lts.putMeta post touch tile metatile now store = some (store', true))
    (zoom : query.z = tile.z) (style : query.style = tile.style)
    (contained : lts.Posted tile metatile query body) (up : lts.HostsUp down query clock) :
    lts.NeverStale tile metatile query (lts.get (serve store') down query clock).1 ↔
      lts.FirstCopyNew post tile metatile store query := by
  obtain ⟨_, primaryUrl, _, hprimary, _⟩ := contained
  obtain ⟨ext, _, hext⟩ := lts.formUrl_ok hprimary
  obtain ⟨secondaryUrl, hsecondary⟩ : ∃ url,
      lts.formUrl query.x query.y query.z query.style query.format .secondary = .ok url :=
    ⟨_, hext .secondary⟩
  rw [lts.get_serve up hprimary hsecondary]
  have hcond : lts.FirstCopyNew post tile metatile store query ↔
      lts.Takes post tile metatile .primary primaryUrl ∨
      (store (.primary, primaryUrl) ≠ none ∧
        lts.Harmless tile metatile query (store (.primary, primaryUrl))) ∨
      (store (.primary, primaryUrl) = none ∧
        (lts.Takes post tile metatile .secondary secondaryUrl ∨
          lts.Harmless tile metatile query (store (.secondary, secondaryUrl)))) := by
    constructor
    · rintro ⟨primaryUrl', secondaryUrl', hprimary', hsecondary', h⟩
      obtain rfl := Except.ok.inj (hprimary.symm.trans hprimary')
      obtain rfl := Except.ok.inj (hsecondary.symm.trans hsecondary')
      exact h
    · exact fun h => ⟨_, _, hprimary, hsecondary, h⟩
  rw [hcond]
  have hold (replica : Replica) (url : String) := (lts.store_after_put success replica url).2
  by_cases hfirst : lts.Takes post tile metatile .primary primaryUrl
  · obtain ⟨t, ht, harmless⟩ := lts.harmless_of_takes success zoom style hprimary hfirst
    rw [firstCopy, ht, Option.some_or, Option.map_some, Option.getD_some]
    exact iff_of_true (lts.neverStale_response.mpr harmless) (.inl hfirst)
  · rw [firstCopy, hold .primary primaryUrl hfirst]
    cases store (.primary, primaryUrl) with
    | some t =>
      rw [Option.some_or, Option.map_some, Option.getD_some, neverStale_response]
      simp [hfirst]
    | none =>
      rw [Option.none_or]
      by_cases hsecond : lts.Takes post tile metatile .secondary secondaryUrl
      · obtain ⟨t, ht, harmless⟩ := lts.harmless_of_takes success zoom style hsecondary hsecond
        rw [ht, Option.map_some, Option.getD_some]
        exact iff_of_true (lts.neverStale_response.mpr harmless)
          (.inr (.inr ⟨rfl, .inl hsecond⟩))
      · rw [hold .secondary secondaryUrl hsecond]
        cases store (.secondary, secondaryUrl) with
        | some t =>
          rw [Option.map_some, Option.getD_some, neverStale_response]
          simp [hfirst, hsecond]
        | none =>
          have hmissing : lts.NeverStale tile metatile query {} := .inr (.inr rfl)
          have harmless : lts.Harmless tile metatile query none := by
            rintro t ⟨⟩
          exact iff_of_true hmissing (.inr (.inr ⟨rfl, .inr harmless⟩))

/-! ## A put that is refused by the first hosts -/

/-- A put succeeds when every second copy is stored. -/
theorem putMeta_secondary {post : Replica → String → PostOutcome}
    (stored : ∀ url, post .secondary url = .stored) (touch : Replica → String → TouchOutcome)
    {tile : TileProtocol} {metatile : Bytes} (wf : WellFormed tile.z metatile) (now : Int)
    (store : LtsStore) :
    ∃ store', lts.putMeta post touch tile metatile now store = some (store', true) := by
  obtain ⟨requests, hrequests, _⟩ := lts.mem_makePutRequests wf
  obtain ⟨tiles, _, _, hurls⟩ := lts.putTiles_together hrequests
  simp only [putMeta, hrequests, hurls, putCopy_stored lts stored, Option.bind_eq_bind,
    Option.bind_some, Bool.not_true, Bool.and_false, Bool.false_eq_true, if_false]
  exact ⟨_, rfl⟩

/-- A request that has no effect does not take. -/
theorem not_takes {post : Replica → String → PostOutcome} {tile : TileProtocol} {metatile : Bytes}
    {replica : Replica} {url : String} (h : (post replica url).applied = false) :
    ¬ lts.Takes post tile metatile replica url := by
  rintro ⟨_, _, _, happlied⟩
  rw [h] at happlied
  cases happlied

/-- What is posted for a tile of a shared metatile. -/
theorem posted_shared {tile body : Bytes} (quiet : Quiet tile) (filled : tile ≠ [])
    (small : (shared tile).length < 2 ^ 31) :
    lts.Posted { z := 3 } (shared tile) { z := 3 } body ↔ body = tile := by
  have wf := wellFormed_shared quiet filled small
  obtain ⟨requests, hrequests, hmem⟩ :=
    lts.mem_makePutRequests (show WellFormed ({ z := 3 } : TileProtocol).z (shared tile) from wf)
  have hformats : formatsOf (shared tile) = [fmtPNG] := by
    rw [formatsOf, readHeaders_shared quiet]
    rfl
  have hstored (i : Fin 64) : storedBody (shared tile) fmtPNG i = some tile := by
    rw [storedBody, headerFor, readHeaders_shared quiet]
    exact congrArg some (shared_entry small i).2
  constructor
  · rintro ⟨requests', _, hrequests', _, r, hr, _, rfl⟩
    obtain rfl := Option.some.inj (hrequests.symm.trans hrequests')
    obtain ⟨⟨fmt, i⟩, hs, _, body, _, hbody, rfl⟩ := (hmem r).mp hr
    obtain rfl : fmt = fmtPNG := by
      have hfmt := (mem_gridSlots.mp hs).1
      rw [hformats] at hfmt
      exact List.mem_singleton.mp hfmt
    exact Option.some.inj (hbody.symm.trans (hstored i))
  · rintro rfl
    have hs : ((fmtPNG, 0) : Slot) ∈ gridSlots 3 (formatsOf (shared body)) := by
      rw [hformats]
      decide
    have hsingle : fmtPNG ∈ singleFormats := List.mem_cons_self
    obtain ⟨mime, _, hmime, _⟩ := fileTypeFor_single fmtPNG hsingle
    exact ⟨requests, _, hrequests, lts.formUrl_single _ _ _ _ _ hsingle, _,
      (hmem _).mpr ⟨_, hs, mime, body, hmime, hstored 0, rfl⟩, rfl, rfl⟩

/-- The first hosts refuse the tiles, the second ones take them: the put succeeds, and the old tile
is read as a fresh one. -/
theorem refused_put_read_as_old :
    let tile : TileProtocol := { z := 3 }
    let metatile := shared [1, 2, 3]
    let post : Replica → String → PostOutcome := fun replica _ =>
      if replica = .primary then .refused false else .stored
    ∃ store', twoHosts.putMeta post (fun _ _ => ⟨true, false⟩) tile metatile 1300000000
        (fun _ => some ⟨[9], 5⟩) = some (store', true) ∧
      twoHosts.Posted tile metatile tile [1, 2, 3] ∧ twoHosts.HostsUp (fun _ => none) tile 0 ∧
      (twoHosts.get (serve store') (fun _ => none) tile 0).1 =
        { statusCode := 200, timeStamp := 5, body := [9] } ∧
      ¬ twoHosts.NeverStale tile metatile tile
        (twoHosts.get (serve store') (fun _ => none) tile 0).1 := by
  intro tile metatile post
  have quiet : Quiet [1, 2, 3] := quiet_of_short (by decide)
  have hsmall : (shared [1, 2, 3]).length < 2 ^ 31 := by
    rw [length_shared]
    decide
  have hposted (body : Bytes) : twoHosts.Posted tile metatile tile body ↔ body = [1, 2, 3] :=
    twoHosts.posted_shared quiet (by decide) hsmall
  have up : twoHosts.HostsUp (fun _ => none) tile 0 := fun _ => rfl
  have wf : WellFormed tile.z metatile := wellFormed_shared quiet (by decide) hsmall
  obtain ⟨store', success⟩ : ∃ store', twoHosts.putMeta post (fun _ _ => ⟨true, false⟩) tile metatile
      1300000000 (fun _ => some ⟨[9], 5⟩) = some (store', true) :=
    twoHosts.putMeta_secondary (fun _ => rfl) _ wf _ _
  have hsingle : tile.format ∈ singleFormats := List.mem_cons_self
  have hget : (twoHosts.get (serve store') (fun _ => none) tile 0).1 =
      StoredTile.response ⟨[9], 5⟩ := by
    rw [twoHosts.get_serve up (twoHosts.formUrl_single _ _ _ _ _ hsingle)
      (twoHosts.formUrl_single _ _ _ _ _ hsingle), firstCopy,
      (twoHosts.store_after_put success .primary _).2 (twoHosts.not_takes rfl)]
    rfl
  refine ⟨store', success, (hposted _).mpr rfl, up, hget, ?_⟩
  rw [hget, neverStale_response]
  intro harmless
  rcases harmless ⟨[9], 5⟩ rfl with h | h
  · cases h
  · cases (hposted _).mp h

/-- All hosts take the tiles. -/
theorem stored_put_read_as_new :
    let tile : TileProtocol := { z := 3 }
    let metatile := shared [1, 2, 3]
    ∃ store', twoHosts.putMeta (fun _ _ => .stored) (fun _ _ => ⟨true, false⟩) tile metatile
        1300000000 (fun _ => some ⟨[9], 5⟩) = some (store', true) ∧
      twoHosts.NeverStale tile metatile tile
        (twoHosts.get (serve store') (fun _ => none) tile 0).1 := by
  intro tile metatile
  have quiet : Quiet [1, 2, 3] := quiet_of_short (by decide)
  have hsmall : (shared [1, 2, 3]).length < 2 ^ 31 := by
    rw [length_shared]
    decide
  have hposted : twoHosts.Posted tile metatile tile [1, 2, 3] :=
    (twoHosts.posted_shared quiet (by decide) hsmall).mpr rfl
  have wf : WellFormed tile.z metatile := wellFormed_shared quiet (by decide) hsmall
  obtain ⟨store', success⟩ : ∃ store', twoHosts.putMeta (fun _ _ => .stored)
      (fun _ _ => ⟨true, false⟩) tile metatile 1300000000 (fun _ => some ⟨[9], 5⟩) =
        some (store', true) :=
    twoHosts.putMeta_secondary (fun _ => rfl) _ wf _ _
  refine ⟨store', success,
    (twoHosts.never_stale_iff success rfl rfl hposted fun _ => rfl).mpr ?_⟩
  have hsingle : tile.format ∈ singleFormats := List.mem_cons_self
  obtain ⟨requests, url, hrequests, hurl, r, hr, hrurl, _⟩ := hposted
  obtain ⟨before, after, hsplit⟩ := List.append_of_mem hr
  exact ⟨url, _, hurl, twoHosts.formUrl_single _ _ _ _ _ hsingle, .inl ⟨requests, hrequests,
    ⟨before, r, after, hsplit, hrurl, fun _ _ _ => rfl⟩, rfl⟩⟩

end LtsStorage

end RenderMq
