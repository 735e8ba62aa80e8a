import RenderMq.Expiry.BinaryStar

/-!
# Putting a metatile that is expired

`expiry_overlay::put_meta` tells the expiry service that the metatile is not expired any more, and then
puts it to the storage. Either can fail. The service asks one of two servers, and turns to the other when
no reply comes: `Attempt` is what may become of each request that it sends.

`atomicPut_iff` is when a put that fails leaves the flag as it was. It does not when the service has
answered and the storage then fails, and the metatile was expired.
-/

namespace RenderMq

/-! ## The service -/

/-- What becomes of a request that is sent to a server. -/
inductive Attempt where
  /-- It is lost. -/
  | lost
  /-- It is handled, and no reply comes in time. -/
  | unanswered
  | answered
  /-- Connecting or sending throws. -/
  | sendThrows (what : String)
  /-- It is handled, and reading the reply throws. -/
  | receiveThrows (what : String)

/-- `expiry_service`: the server it is connected to, and what the two servers know. -/
structure ExpiryService where
  servers : Pair ExpiryData
  serverNumber : Side := .primary

namespace ExpiryService

/-- What a server does with a request. -/
def tell (s : ExpiryService) (req : ExpiryRequest) : Option (ExpiryService × Bool) :=
  ((s.servers.get s.serverNumber).handle req).map fun (data, response) =>
    ({ s with servers := s.servers.set s.serverNumber data }, response)

/-- The service turns to the other server. -/
def failover (s : ExpiryService) : ExpiryService := { s with serverNumber := s.serverNumber.other }

/-- `request_with_failover`. Without a reply it goes on for as long as there are attempts. -/
def requestWithFailover (s : ExpiryService) (req : ExpiryRequest) :
    List Attempt → Option (ExpiryService × Except String Bool)
  | [] => none
  | .lost :: attempts => s.failover.requestWithFailover req attempts
  | .unanswered :: attempts => do
    let (s, _) ← s.tell req
    s.failover.requestWithFailover req attempts
  | .answered :: _ => do
    let (s, response) ← s.tell req
    return (s, .ok response)
  | .sendThrows what :: _ => some (s, .error what)
  | .receiveThrows what :: _ => do
    let (s, _) ← s.tell req
    return (s, .error what)

/-- `is_expired`. -/
def isExpired (s : ExpiryService) (tile : TileProtocol) :
    List Attempt → Option (ExpiryService × Except String Bool) :=
  s.requestWithFailover (.get tile)

/-- `set_expired`. -/
def setExpired (s : ExpiryService) (tile : TileProtocol) (status : Bool) :
    List Attempt → Option (ExpiryService × Except String Bool) :=
  s.requestWithFailover (.set tile status)

/-! ## What the servers are told -/

/-- The server that the service is connected to when the request returns. -/
def endsAt : Side → List Attempt → Side
  | side, .lost :: attempts => endsAt side.other attempts
  | side, .unanswered :: attempts => endsAt side.other attempts
  | side, _ => side

/-- The servers that handle the request. -/
def handledBy : Side → List Attempt → List Side
  | side, .lost :: attempts => handledBy side.other attempts
  | side, .unanswered :: attempts => side :: handledBy side.other attempts
  | side, .answered :: _ => [side]
  | side, .receiveThrows _ :: _ => [side]
  | _, _ => []

/-- Whether there is an answer in the end. -/
def answers : List Attempt → Bool
  | .lost :: attempts => answers attempts
  | .unanswered :: attempts => answers attempts
  | .answered :: _ => true
  | _ => false

/-- An answer comes from the server that the service is then connected to. -/
theorem endsAt_mem_handledBy {attempts : List Attempt} (h : answers attempts = true) (side : Side) :
    endsAt side attempts ∈ handledBy side attempts := by
  induction attempts generalizing side with
  | nil => cases h
  | cons attempt attempts ih =>
    cases attempt with
    | lost => exact ih h side.other
    | unanswered => exact List.mem_cons_of_mem _ (ih h side.other)
    | answered => exact List.mem_singleton.mpr rfl
    | sendThrows what => cases h
    | receiveThrows what => cases h

theorem lookup_tell {s s' : ExpiryService} {tile : TileProtocol} {response : Bool}
    (h : s.tell (.set tile false) = some (s', response)) (side : Side) :
    s'.serverNumber = s.serverNumber ∧
      (s'.servers.get side).lookup tile =
        if side = s.serverNumber then false else (s.servers.get side).lookup tile := by
  obtain ⟨⟨data, told⟩, hhandle, heq⟩ := Option.map_eq_some_iff.mp h
  obtain ⟨rfl, rfl⟩ := Prod.mk.inj heq
  refine ⟨rfl, ?_⟩
  have hlookup : data.lookup tile = false := by
    rw [ExpiryData.lookup_handle hhandle tile, ExpiryData.marks, if_pos rfl, Option.getD_some]
  by_cases hside : side = s.serverNumber
  · rw [if_pos hside, hside, Pair.get_set_self, hlookup]
  · rw [if_neg hside]
    generalize s.serverNumber = asked at hside
    cases side <;> cases asked <;> first | rfl | exact absurd rfl hside

/-- **A request to set a tile not expired** leaves it expired at the servers that have not handled it
only. -/
theorem setExpired_false {s s' : ExpiryService} {tile : TileProtocol} {attempts : List Attempt}
    {result : Except String Bool} (h : s.setExpired tile false attempts = some (s', result)) :
    s'.serverNumber = endsAt s.serverNumber attempts ∧
      (∀ side, (s'.servers.get side).lookup tile =
        if side ∈ handledBy s.serverNumber attempts then false
        else (s.servers.get side).lookup tile) ∧
      (answers attempts = true ↔ ∃ response, result = .ok response) := by
  unfold setExpired at h
  induction attempts generalizing s with
  | nil => cases h
  | cons attempt attempts ih =>
    cases attempt with
    | lost => exact ih h
    | unanswered =>
      rw [requestWithFailover] at h
      obtain ⟨⟨t, response⟩, htell, hrest⟩ := Option.bind_eq_some_iff.mp h
      obtain ⟨hends, hlookup, hanswers⟩ := ih hrest
      have hnumber := (lookup_tell htell .primary).1
      have hother : t.failover.serverNumber = s.serverNumber.other := by
        rw [failover, hnumber]
      rw [hother] at hends hlookup
      refine ⟨hends, fun side => ?_, hanswers⟩
      have hside : (t.failover.servers.get side).lookup tile =
          if side = s.serverNumber then false else (s.servers.get side).lookup tile :=
        (lookup_tell htell side).2
      rw [hlookup side, hside, handledBy]
      by_cases h1 : side ∈ handledBy s.serverNumber.other attempts
      · rw [if_pos h1, if_pos (List.mem_cons_of_mem _ h1)]
      · rw [if_neg h1]
        simp only [List.mem_cons, h1, or_false]
    | answered =>
      rw [requestWithFailover] at h
      obtain ⟨⟨t, response⟩, htell, hreturn⟩ := Option.bind_eq_some_iff.mp h
      obtain ⟨rfl, rfl⟩ := Prod.mk.inj (Option.some.inj hreturn)
      refine ⟨(lookup_tell htell .primary).1, fun side => ?_, iff_of_true rfl ⟨_, rfl⟩⟩
      rw [(lookup_tell htell side).2, handledBy]
      simp only [List.mem_singleton]
    | sendThrows what =>
      obtain ⟨rfl, rfl⟩ := Prod.mk.inj (Option.some.inj h)
      refine ⟨rfl, fun side => (if_neg List.not_mem_nil).symm, iff_of_false Bool.false_ne_true ?_⟩
      intro hok
      obtain ⟨_, hok⟩ := hok
      cases hok
    | receiveThrows what =>
      rw [requestWithFailover] at h
      obtain ⟨⟨t, response⟩, htell, hreturn⟩ := Option.bind_eq_some_iff.mp h
      obtain ⟨rfl, rfl⟩ := Prod.mk.inj (Option.some.inj hreturn)
      refine ⟨(lookup_tell htell .primary).1, fun side => ?_, iff_of_false Bool.false_ne_true ?_⟩
      · rw [(lookup_tell htell side).2, handledBy]
        simp only [List.mem_singleton]
      · intro hok
        obtain ⟨_, hok⟩ := hok
        cases hok

end ExpiryService

/-! ## The overlay -/

/-- What the overlay uses of a storage, which may throw. -/
structure FallibleStorage where
  State : Type
  get : State → TileProtocol → Except String TileHandle
  putMeta : State → TileProtocol → Bytes → State × Except String Bool

/-- `expiry_overlay`. -/
structure ServiceOverlay (storage : FallibleStorage) where
  stored : storage.State
  expiry : ExpiryService

namespace ServiceOverlay

variable {storage : FallibleStorage}

/-- `get`, with an `overlay_handle`. -/
def get (s : ServiceOverlay storage) (tile : TileProtocol) (attempts : List Attempt) :
    Option (ServiceOverlay storage × Except String TileHandle) := do
  let (expiry, expired) ← s.expiry.isExpired tile attempts
  let s := { s with expiry }
  match expired with
  | .error what => return (s, .error what)
  | .ok expired =>
    return (s, (storage.get s.stored tile).map fun handle => { handle with expired })

/-- `put_meta`. What the service responds is not looked at. -/
def putMeta (s : ServiceOverlay storage) (tile : TileProtocol) (buf : Bytes)
    (attempts : List Attempt) : Option (ServiceOverlay storage × Except String Bool) := do
  let (expiry, response) ← s.expiry.setExpired tile false attempts
  match response with
  | .error what => return ({ s with expiry }, .error what)
  | .ok _ =>
    let (stored, result) := storage.putMeta s.stored tile buf
    return ({ stored, expiry }, result)

/-- What the server that the overlay is connected to says of a tile. -/
def seen (s : ServiceOverlay storage) (tile : TileProtocol) : Bool :=
  (s.expiry.servers.get s.expiry.serverNumber).lookup tile

/-- This is what a `get` sees that is answered. -/
theorem get_answered (s : ServiceOverlay storage) (tile : TileProtocol) (attempts : List Attempt) :
    ∃ s', s.get tile (.answered :: attempts) =
      some (s', (storage.get s.stored tile).map fun handle =>
        { handle with expired := s.seen tile }) :=
  ⟨_, rfl⟩

/-- What is asked of a put with some result: unless it succeeds, the flag is what it was; and if it
succeeds, the tile is not expired. -/
structure AtomicPut (s s' : ServiceOverlay storage) (tile : TileProtocol)
    (result : Except String Bool) : Prop where
  kept : result ≠ .ok true → s'.seen tile = s.seen tile
  cleared : result = .ok true → s'.seen tile = false

/-! ## When it is so -/

/-- The service answers, and the storage puts the metatile. -/
def BothSucceed (s : ServiceOverlay storage) (tile : TileProtocol) (buf : Bytes)
    (attempts : List Attempt) : Prop :=
  ExpiryService.answers attempts = true ∧ (storage.putMeta s.stored tile buf).2 = .ok true

/-- The tile was not expired, and the server that is connected in the end was told so or says so; or it
was expired, and that server was told nothing and says so. -/
def FlagKept (s : ServiceOverlay storage) (tile : TileProtocol) (attempts : List Attempt) : Prop :=
  let last := ExpiryService.endsAt s.expiry.serverNumber attempts
  if last ∈ ExpiryService.handledBy s.expiry.serverNumber attempts then s.seen tile = false
  else (s.expiry.servers.get last).lookup tile = s.seen tile

section Put

variable {s s' : ServiceOverlay storage} {tile : TileProtocol} {buf : Bytes}
  {attempts : List Attempt} {result : Except String Bool}

/-- What a put does: the service is told first, and the storage has the result if the service answers. -/
theorem putMeta_cases (h : s.putMeta tile buf attempts = some (s', result)) :
    ∃ expiry response, s.expiry.setExpired tile false attempts = some (expiry, response) ∧
      s'.expiry = expiry ∧
      ((∃ what, response = .error what ∧ result = .error what) ∨
        (∃ b, response = .ok b) ∧ result = (storage.putMeta s.stored tile buf).2) := by
  obtain ⟨⟨expiry, response⟩, hset, hput⟩ := Option.bind_eq_some_iff.mp h
  refine ⟨expiry, response, hset, ?_⟩
  cases response with
  | error what =>
    obtain ⟨rfl, rfl⟩ := Prod.mk.inj (Option.some.inj hput)
    exact ⟨rfl, .inl ⟨what, rfl, rfl⟩⟩
  | ok b =>
    obtain ⟨rfl, rfl⟩ := Prod.mk.inj (Option.some.inj hput)
    exact ⟨rfl, .inr ⟨⟨b, rfl⟩, rfl⟩⟩

theorem bothSucceed_iff (h : s.putMeta tile buf attempts = some (s', result)) :
    result = .ok true ↔ s.BothSucceed tile buf attempts := by
  obtain ⟨expiry, response, hset, _, hresult⟩ := putMeta_cases h
  have hanswers := (ExpiryService.setExpired_false hset).2.2
  unfold BothSucceed
  rw [hanswers]
  rcases hresult with ⟨what, rfl, rfl⟩ | ⟨hok, rfl⟩
  · refine iff_of_false (fun h => ?_) fun h => ?_
    · cases h
    · obtain ⟨⟨_, h⟩, _⟩ := h
      cases h
  · exact ⟨fun h => ⟨hok, h⟩, fun h => h.2⟩

theorem seen_putMeta (h : s.putMeta tile buf attempts = some (s', result)) :
    s'.seen tile =
      if ExpiryService.endsAt s.expiry.serverNumber attempts ∈
          ExpiryService.handledBy s.expiry.serverNumber attempts then false
      else (s.expiry.servers.get (ExpiryService.endsAt s.expiry.serverNumber attempts)).lookup
        tile := by
  obtain ⟨expiry, response, hset, rfl, _⟩ := putMeta_cases h
  obtain ⟨hends, hlookup, _⟩ := ExpiryService.setExpired_false hset
  rw [seen, hends, hlookup]

/-- The flag is kept. -/
theorem flagKept_iff (h : s.putMeta tile buf attempts = some (s', result)) :
    s'.seen tile = s.seen tile ↔ s.FlagKept tile attempts := by
  rw [seen_putMeta h, FlagKept]
  split
  · exact eq_comm
  · rfl

/-- **A put of two parts.** It is atomic exactly when both parts succeed or the flag is kept.

The service answers after any number of attempts, at either server, or not at all; the storage below is
an argument and may fail. The call is the only one under way. That the two servers know the same of a
tile is not assumed. -/
theorem atomicPut_iff (h : s.putMeta tile buf attempts = some (s', result)) :
    AtomicPut s s' tile result ↔ s.BothSucceed tile buf attempts ∨ s.FlagKept tile attempts := by
  rw [← bothSucceed_iff h, ← flagKept_iff h]
  constructor
  · intro atomic
    by_cases hok : result = .ok true
    · exact .inl hok
    · exact .inr (atomic.kept hok)
  · intro hcond
    refine ⟨fun hnot => hcond.resolve_left hnot, fun hok => ?_⟩
    have hboth := (bothSucceed_iff h).mp hok
    rw [seen_putMeta h, if_pos (ExpiryService.endsAt_mem_handledBy hboth.1 _)]

end Put

/-- A storage that refuses every metatile. -/
def refusingStorage : FallibleStorage where
  State := Unit
  get := fun _ _ => .ok { found := false, lastModified := 0, expired := false, data := none }
  putMeta := fun _ _ _ => ((), .ok false)

/-- The one tile of zoom 0, expired at the primary server. -/
def expiredAtPrimary : ExpiryService where
  servers :=
    { primary := ⟨AList.singleton ⟨"", fmtPNG⟩ {tileToFrag {}}⟩
      backup := {} }

/-- A put that succeeds. -/
theorem atomicPut_of_null :
    let storage : FallibleStorage := { refusingStorage with putMeta := fun _ _ _ => ((), .ok true) }
    let s : ServiceOverlay storage := { stored := (), expiry := expiredAtPrimary }
    ∃ s', s.putMeta {} [] [.answered] = some (s', .ok true) ∧ AtomicPut s s' {} (.ok true) := by
  intro storage s
  have hput : s.putMeta {} [] [.answered] = some (_, .ok true) := rfl
  exact ⟨_, hput, (atomicPut_iff hput).mpr (.inl ⟨rfl, rfl⟩)⟩

/-- The metatile is expired, the service answers at once, and the storage refuses: after that, it is
not expired any more. -/
theorem refused_put_loses_expiry :
    ¬ ∀ (storage : FallibleStorage) (s s' : ServiceOverlay storage) (tile : TileProtocol) (buf : Bytes)
      (attempts : List Attempt) (result : Except String Bool),
      s.putMeta tile buf attempts = some (s', result) → AtomicPut s s' tile result := by
  intro hall
  have atomic := hall refusingStorage { stored := (), expiry := expiredAtPrimary } _ {} []
    [.answered] _ rfl
  have hkept := atomic.kept (by simp [refusingStorage])
  exact absurd hkept (by decide)

end ServiceOverlay

end RenderMq
