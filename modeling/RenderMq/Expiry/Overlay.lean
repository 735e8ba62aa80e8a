import RenderMq.Expiry.Store

/-!
# The expiry overlay

`expiry_overlay`: a storage whose handles say of a tile what the expiry service says of it. The storage
beneath is an argument; the service is the store of one server that is always there.

The service keeps what it is told under the style and the format of a tile, and that format is a mask:
putting or expiring a metatile in several formats at once says nothing of each of them, and asking for
one of them says nothing of the others. `expiry_consistent_iff` is when this is not noticed.
-/

namespace RenderMq

/-- What the overlay uses of a `tile_storage`. -/
structure TileStorage where
  State : Type
  initial : State
  get : State → TileProtocol → TileHandle
  putMeta : State → TileProtocol → Bytes → State × Bool

/-- `null_storage`: nothing is there, and nothing is kept. -/
def nullStorage : TileStorage where
  State := Unit
  initial := ()
  get := fun _ _ => { found := false, lastModified := 0, expired := false, data := none }
  putMeta := fun _ _ _ => ((), true)

/-- `expiry_overlay`. -/
structure ExpiryOverlay (storage : TileStorage) where
  stored : storage.State := storage.initial
  expiry : ExpiryData := {}

namespace ExpiryOverlay

variable {storage : TileStorage}

/-! ## Operations -/

/-- `get`, with an `overlay_handle`. -/
def get (s : ExpiryOverlay storage) (tile : TileProtocol) : TileHandle :=
  { storage.get s.stored tile with expired := s.expiry.lookup tile }

/-- `put_meta`. -/
def putMeta (s : ExpiryOverlay storage) (tile : TileProtocol) (buf : Bytes) :
    Option (ExpiryOverlay storage × Bool) := do
  let (expiry, _) ← s.expiry.handle (.set tile false)
  let (stored, ok) := storage.putMeta s.stored tile buf
  return ({ stored, expiry }, ok)

/-- `expire`. -/
def expire (s : ExpiryOverlay storage) (tile : TileProtocol) :
    Option (ExpiryOverlay storage × Bool) := do
  let (expiry, ok) ← s.expiry.handle (.set tile true)
  return ({ s with expiry }, ok)

inductive Event where
  | putMeta (tile : TileProtocol) (buf : Bytes)
  | expire (tile : TileProtocol)
  | get (tile : TileProtocol)

def Event.tile : Event → TileProtocol
  | .putMeta tile _ => tile
  | .expire tile => tile
  | .get tile => tile

def step (s : ExpiryOverlay storage) : Event → Option (ExpiryOverlay storage)
  | .putMeta tile buf => (s.putMeta tile buf).map Prod.fst
  | .expire tile => (s.expire tile).map Prod.fst
  | .get _ => some s

/-! ## What was done last -/

/-- The last event to change a metatile in a format: whether it was expired (`true`) or put (`false`). -/
def covers (t : TileProtocol) (fmt : ProtoFmt) : Event → Option Bool
  | .putMeta u _ =>
    if t.style = u.style ∧ SameFragment t u ∧ fmt ∈ getFormatsVec u.format then some false else none
  | .expire u =>
    if t.style = u.style ∧ SameFragment t u ∧ fmt ∈ getFormatsVec u.format then some true else none
  | .get _ => none

/-- The last event to change what the service keeps under the key of a tile. -/
def marksKey (t : TileProtocol) : Event → Option Bool
  | .putMeta u _ => if ExpiryData.key t = ExpiryData.key u then some false else none
  | .expire u => if ExpiryData.key t = ExpiryData.key u then some true else none
  | .get _ => none

/-- What `get` is meant to say of a tile after some events: in a single format that was last put, it is
not expired; and it is expired when one of its formats was last expired. -/
structure Consistent (events : List Event) (t : TileProtocol) (expired : Bool) : Prop where
  put : t.format ∈ singleFormats → Run.last (covers t t.format) events = some false →
    expired = false
  expire : ∀ fmt ∈ getFormatsVec t.format, Run.last (covers t fmt) events = some true →
    expired = true

/-- The last event with the format mask of a tile does not belie the last events for its formats. -/
structure MaskAgrees (events : List Event) (t : TileProtocol) : Prop where
  put : t.format ∈ singleFormats → Run.last (covers t t.format) events = some false →
    Run.last (marksKey t) events ≠ some true
  expire : ∀ fmt ∈ getFormatsVec t.format, Run.last (covers t fmt) events = some true →
    Run.last (marksKey t) events = some true

theorem mem_getFormatsVec_self {fmt : ProtoFmt} (single : fmt ∈ singleFormats) :
    fmt ∈ getFormatsVec fmt := by
  refine List.mem_filter.mpr ⟨single, ?_⟩
  simp only [singleFormats, List.mem_cons, List.not_mem_nil, or_false] at single
  rcases single with rfl | rfl | rfl | rfl <;> rfl

/-- If the event is about the metatile of a tile, and in a format of it, then its mask is that of the
tile. -/
def SameMask (t : TileProtocol) (e : Event) : Prop :=
  t.style = e.tile.style → SameFragment t e.tile →
    (∃ fmt ∈ getFormatsVec t.format, fmt ∈ getFormatsVec e.tile.format) → t.format = e.tile.format

/-- Where all use one mask for a metatile, or masks that have no format in common with it, the masks
agree. -/
theorem maskAgrees_of_sameMask {events : List Event} {t : TileProtocol} (ht : InRange t)
    (inRange : ∀ e ∈ events, InRange e.tile) (same : ∀ e ∈ events, SameMask t e) :
    MaskAgrees events t := by
  have hkey : ∀ e ∈ events, ∀ fmt ∈ getFormatsVec t.format,
      (t.style = e.tile.style ∧ SameFragment t e.tile ∧ fmt ∈ getFormatsVec e.tile.format) ↔
        ExpiryData.key t = ExpiryData.key e.tile := by
    intro e he fmt hfmt
    rw [ExpiryData.key_eq_iff ht (inRange e he)]
    constructor
    · rintro ⟨hstyle, hfrag, hcommon⟩
      exact ⟨hstyle, same e he hstyle hfrag ⟨fmt, hfmt, hcommon⟩, hfrag⟩
    · rintro ⟨hstyle, hformat, hfrag⟩
      exact ⟨hstyle, hfrag, hformat ▸ hfmt⟩
  have hlast : ∀ fmt ∈ getFormatsVec t.format,
      Run.last (covers t fmt) events = Run.last (marksKey t) events := by
    intro fmt hfmt
    unfold Run.last
    refine congrArg List.getLast? (List.filterMap_congr fun e he => ?_)
    have hiff := hkey e he fmt hfmt
    cases e with
    | putMeta u buf =>
      simp only [Event.tile] at hiff
      simp only [covers, marksKey, hiff]
    | expire u =>
      simp only [Event.tile] at hiff
      simp only [covers, marksKey, hiff]
    | get u => rfl
  constructor
  · intro single hput
    rw [← hlast t.format (mem_getFormatsVec_self single), hput]
    simp
  · intro fmt hfmt hexpire
    rw [← hlast fmt hfmt, hexpire]

/-! ## What is said -/

/-- One event: the service is told of the tile's own mask and of nothing else. -/
theorem lookup_step {s s' : ExpiryOverlay storage} {e : Event} (h : s.step e = some s')
    (t : TileProtocol) : s'.expiry.lookup t = (marksKey t e).getD (s.expiry.lookup t) := by
  cases e with
  | putMeta u buf =>
    rw [step] at h
    obtain ⟨⟨next, ok⟩, hput, rfl⟩ := Option.map_eq_some_iff.mp h
    unfold putMeta at hput
    obtain ⟨⟨expiry, response⟩, hhandle, hnext⟩ := Option.bind_eq_some_iff.mp hput
    obtain ⟨rfl, _⟩ := Prod.mk.inj (Option.some.inj hnext)
    exact ExpiryData.lookup_handle hhandle t
  | expire u =>
    rw [step] at h
    obtain ⟨⟨next, ok⟩, hexpire, rfl⟩ := Option.map_eq_some_iff.mp h
    obtain ⟨⟨expiry, response⟩, hhandle, hnext⟩ := Option.bind_eq_some_iff.mp hexpire
    obtain ⟨rfl, _⟩ := Prod.mk.inj (Option.some.inj hnext)
    exact ExpiryData.lookup_handle hhandle t
  | get u =>
    obtain rfl := Option.some.inj h
    rfl

/-- Any run: a tile is expired if the last event with its key was an `expire`. -/
theorem expired_run {events : List Event} {s : ExpiryOverlay storage}
    (hrun : Run.run step {} events = some s) (t : TileProtocol) :
    (s.get t).expired = true ↔ Run.last (marksKey t) events = some true := by
  have hstep : ∀ (past : List Event) (s : ExpiryOverlay storage) (e : Event)
      (s' : ExpiryOverlay storage),
      s.expiry.lookup t = (Run.last (marksKey t) past).getD false → s.step e = some s' →
      s'.expiry.lookup t = (Run.last (marksKey t) (past ++ [e])).getD false := by
    intro past s e s' hs he
    rw [lookup_step he, Run.last_append, hs]
    cases marksKey t e <;> rfl
  have hlookup : (s.get t).expired = (Run.last (marksKey t) events).getD false :=
    Run.run_invariant hstep events [] {} s rfl hrun
  rw [hlookup]
  cases Run.last (marksKey t) events <;> simp

/-- A run over tiles that the packing is made for has a result. -/
theorem run_defined {events : List Event} (inRange : ∀ e ∈ events, InRange e.tile) :
    ∃ s : ExpiryOverlay storage, Run.run step {} events = some s := by
  have progress : ∀ (s : ExpiryOverlay storage) (e : Event), InRange e.tile →
      ∃ s', s.step e = some s' := by
    intro s e he
    cases e with
    | putMeta u buf =>
      have hreq : InRange (ExpiryRequest.set u false).tile := he
      obtain ⟨expiry, response, hhandle⟩ := s.expiry.handle_defined hreq
      rw [step, putMeta, hhandle]
      exact ⟨_, rfl⟩
    | expire u =>
      have hreq : InRange (ExpiryRequest.set u true).tile := he
      obtain ⟨expiry, response, hhandle⟩ := s.expiry.handle_defined hreq
      rw [step, expire, hhandle]
      exact ⟨_, rfl⟩
    | get u => exact ⟨s, rfl⟩
  exact Run.run_defined progress events {} inRange

/-- **Formats and masks.** After any events, `get` says what is meant of a tile exactly when the last
event with its format mask agrees with the last events for its formats.

The storage below is an argument, whose puts and expiries may fail. The flags are changed by the overlay
alone. What is meant is stated format by format, and the overlay keeps one flag for each mask that it is
called with. -/
theorem expiry_consistent_iff {events : List Event} {s : ExpiryOverlay storage}
    (hrun : Run.run step {} events = some s) (t : TileProtocol) :
    Consistent events t (s.get t).expired ↔ MaskAgrees events t := by
  have hexpired := expired_run hrun t
  constructor
  · intro h
    refine ⟨fun single hlast hmask => ?_, fun fmt hfmt hlast => hexpired.mp (h.expire fmt hfmt hlast)⟩
    have hnot := h.put single hlast
    rw [hexpired.mpr hmask] at hnot
    cases hnot
  · intro h
    refine ⟨fun single hlast => ?_, fun fmt hfmt hlast => hexpired.mpr (h.expire fmt hfmt hlast)⟩
    exact Bool.eq_false_iff.mpr fun htrue => h.put single hlast (hexpired.mp htrue)

/-- A metatile that is put and expired as PNG is expired as PNG. -/
theorem one_format_is_consistent :
    let tile : TileProtocol := { x := 8, y := 16, z := 12 }
    ∃ s : ExpiryOverlay nullStorage,
      Run.run step {} [.putMeta tile [], .expire tile] = some s ∧
      Consistent [.putMeta tile [], .expire tile] tile (s.get tile).expired := by
  intro tile
  obtain ⟨s, hrun⟩ : ∃ s : ExpiryOverlay nullStorage,
    Run.run step {} [.putMeta tile [], .expire tile] = some s := run_defined (by decide)
  refine ⟨s, hrun, (expiry_consistent_iff hrun tile).mpr ⟨fun _ hlast => ?_, fun _ _ _ => by decide⟩⟩
  exact absurd hlast (by decide)

/-- A metatile is expired as PNG and JPEG. As PNG it is not expired. -/
theorem expire_of_two_formats_is_not_seen :
    let both : TileProtocol := { x := 8, y := 16, z := 12, format := fmtPNG ||| fmtJPEG }
    let png : TileProtocol := { x := 8, y := 16, z := 12, format := fmtPNG }
    ∃ s : ExpiryOverlay nullStorage, Run.run step {} [.expire both] = some s ∧
      ¬ Consistent [.expire both] png (s.get png).expired := by
  intro both png
  obtain ⟨s, hrun⟩ : ∃ s : ExpiryOverlay nullStorage, Run.run step {} [.expire both] = some s :=
    run_defined (by decide)
  refine ⟨s, hrun, fun h => ?_⟩
  have hexpired := h.expire fmtPNG (by decide) (by decide)
  exact absurd ((expired_run hrun png).mp hexpired) (by decide)

end ExpiryOverlay

end RenderMq
