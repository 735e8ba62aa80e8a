import RenderMq.Storage.MetaStorage
import RenderMq.Worker.Factory

/-!
# Saved styles and expiry

A style that is saved looks in storage first, and draws a metatile only when it is not there. Whether it
has expired is the storage's to say: `get_meta` of a disk does not give what has expired. That of
`expiry_overlay` does, since it asks the storage beneath, which is told nothing of expiries.

So with an overlay a metatile of a saved style is drawn once. When it is expired the workers take it as a
job, read it from storage, and return it as done; and since nothing is put, it stays expired.
`saved_metatile_is_never_drawn_again` says so of all runs, for any renderers, of layers and coverages
too: what is stored stays, what is expired stays so, and what the renderers would draw makes no
difference.
-/

namespace RenderMq

open Coverages RunLoop

namespace SavedStyles

variable {Feature : Type}

/-- What an overlay keeps. -/
abbrev Overlay (base : MetaStorage) := ExpiryOverlay base.toTileStorage

variable {base : MetaStorage}

/-- `expiry_overlay`, as a worker sees it. To put something that the service has no key for has no
result, and there the worker ends. -/
def overlay (base : MetaStorage) : RunLoop.Storage (Overlay base) where
  get job := fun s => (some (s.get job), s)
  getMeta job := fun s => (some (base.getMeta s.stored job), s)
  putMeta job bytes := fun s =>
    match s.putMeta job bytes with
    | some (s', ok) => (some ok, s')
    | none => (none, s)

/-- A worker that works on an overlay, with the configurations of its styles' renderers. -/
structure Configured (base : MetaStorage) (Feature : Type) where
  worker : Worker (Overlay base × String) Feature
  systems : String → System Feature
  depth : Nat
  onOverlay : worker.storage = (overlay base).withStyle

/-- The worker with all its renderers. -/
def Configured.full (c : Configured base Feature) : Worker (Overlay base × String) Feature :=
  c.worker.atDepth c.systems c.depth

/-- What happens to an overlay: a worker takes a turn of its loop, or a tile is expired. -/
inductive Event (base : MetaStorage) (Feature : Type) where
  | turn (c : Configured base Feature) (now : Int) (job : TileProtocol)
  | expire (tile : TileProtocol)

def step (s : Overlay base) : Event base Feature → Option (Overlay base)
  | .turn c now job => some (turnOf c.full now job s).2
  | .expire tile => (s.expire tile).map Prod.fst

/-! ## What lasts -/

/-- A metatile is stored, and some tiles of it are expired. -/
structure Stored (t : TileProtocol) (data : Bytes) (expired : TileProtocol → Prop) (s : Overlay base) :
    Prop where
  data : base.getMeta s.stored t = some data
  expired : ∀ u, InRange u → SameMetatile u t → expired u → s.expiry.lookup u = true

variable {t : TileProtocol} {data : Bytes} {expired : TileProtocol → Prop}

/-- What is put is another metatile, since it was not found. So this one stays, and stays expired. -/
theorem stored_putMeta (apart : base.Apart) (ht : InRange t) {s s' : Overlay base} {job : TileProtocol}
    {bytes : Bytes} {ok : Bool} (hjob : InRange job) (hother : ¬ SameMetatile job t)
    (h : Stored t data expired s) (hput : s.putMeta job bytes = some (s', ok)) :
    Stored t data expired s' := by
  unfold ExpiryOverlay.putMeta at hput
  obtain ⟨⟨expiry, response⟩, hset, hput⟩ := Option.bind_eq_some_iff.mp hput
  obtain ⟨rfl, _⟩ := Prod.mk.inj (Option.some.inj hput)
  constructor
  · exact (apart.other s.stored job t bytes hjob ht hother).trans h.data
  · intro u hu hsame hexpired
    have hkey : ¬ ExpiryData.key u = ExpiryData.key job := by
      intro hkey
      obtain ⟨hstyle, _, hfragment⟩ := (ExpiryData.key_eq_iff hu hjob).mp hkey
      exact hother ((SameMetatile.of_sameFragment hstyle hfragment).symm.trans hsame)
    have hlookup := ExpiryData.lookup_handle hset u
    rw [ExpiryData.marks, if_neg hkey] at hlookup
    exact hlookup.trans (h.expired u hu hsame hexpired)

theorem lasts_overlay (apart : base.Apart) (ht : InRange t) :
    Lasts (overlay base) (Stored t data expired) where
  get _ _ h := h
  getMeta _ _ h := h
  putMeta job bytes s hgrid h hnone s' h' := by
    have hjob : InRange job := ⟨hgrid.inRange.zoom, hgrid.inRange.x, hgrid.inRange.y⟩
    have hother : ¬ SameMetatile job t := by
      intro hsame
      have hmeta : base.getMeta s.stored job = none := Option.some.inj hnone
      rw [apart.same s.stored job t hjob ht hsame, h.data] at hmeta
      cases hmeta
    unfold Call.wp overlay
    dsimp only
    cases hput : s'.putMeta job bytes with
    | none => exact h'
    | some out => exact stored_putMeta apart ht hjob hother h' hput

theorem stored_step (apart : base.Apart) (ht : InRange t) {s s' : Overlay base}
    {e : Event base Feature} (h : Stored t data expired s) (hstep : step s e = some s') :
    Stored t data expired s' := by
  cases e with
  | turn c now job =>
    obtain rfl := Option.some.inj hstep
    have hlasts : Lasts c.worker.storage fun s : Overlay base × String => Stored t data expired s.1 := by
      rw [c.onOverlay]
      exact (lasts_overlay apart ht).withStyle
    exact keeps_turnOf hlasts c.systems c.depth now job s h
  | expire u =>
    obtain ⟨⟨next, ok⟩, hexpire, rfl⟩ := Option.map_eq_some_iff.mp hstep
    unfold ExpiryOverlay.expire at hexpire
    obtain ⟨⟨expiry, response⟩, hset, hnext⟩ := Option.bind_eq_some_iff.mp hexpire
    obtain ⟨rfl, _⟩ := Prod.mk.inj (Option.some.inj hnext)
    refine ⟨h.data, fun v hv hsame hexpired => ?_⟩
    have hlookup := ExpiryData.lookup_handle hset v
    rw [ExpiryData.marks] at hlookup
    split at hlookup
    · exact hlookup
    · exact hlookup.trans (h.expired v hv hsame hexpired)

/-! ## What is returned -/

/-- The metatile of a job's tile is that of the job. -/
theorem sameMetatile_of_tileOf {job : TileProtocol} {tile : Tile} (hjob : InRange job)
    (htile : tileOf job = some tile) (format : ProtoFmt) :
    InRange (tile.metatile format) ∧ SameMetatile (tile.metatile format) job := by
  have hfloor : ∀ v, metaFloor (metaFloor v) = metaFloor v := by
    intro v
    unfold metaFloor METATILE
    omega
  have hrange : ∀ {v : Int}, 0 ≤ v ∧ v < 2 ^ job.z.toNat →
      0 ≤ metaFloor v ∧ metaFloor v < 2 ^ job.z.toNat := by
    intro v hv
    unfold metaFloor METATILE
    omega
  unfold tileOf at htile
  split at htile
  · obtain rfl := Option.some.inj htile
    exact ⟨⟨hjob.zoom, hrange hjob.x, hrange hjob.y⟩, hfloor _, hfloor _, rfl, rfl⟩
  · cases htile

/-- What a turn returns for a stored metatile of a saved style, whatever its renderers are. -/
theorem turnOf_stored (apart : base.Apart) (ht : InRange t) {s : Overlay base}
    (h : base.getMeta s.stored t = some data) (c : Configured base Feature) {job : TileProtocol}
    (hjob : InRange job) (hsame : SameMetatile job t) (saved : job.style ∈ c.worker.savedStyles)
    (systems : String → System Feature) (depth : Nat) (now : Int) :
    turnOf (c.worker.atDepth systems depth) now job s = turnOf c.full now job s ∧
      (turnOf c.full now job s).2 = s := by
  have hcreate : ∀ systems depth, ∃ create, c.worker.atDepth systems depth = { c.worker with create } := by
    intro systems depth
    cases depth <;> exact ⟨_, rfl⟩
  have hfound : ∀ tile format, tileOf job = some tile →
      c.worker.storage.getMeta (tile.metatile format) (s, job.style) = (some (some data), (s, job.style)) := by
    intro tile format htile
    obtain ⟨hrange, hmetatile⟩ := sameMetatile_of_tileOf hjob htile format
    have hmeta : base.getMeta s.stored (tile.metatile format) = some data :=
      (apart.same s.stored _ t hrange ht (hmetatile.trans hsame)).trans h
    rw [c.onOverlay, ← hmeta]
    rfl
  have hget : ∃ handle, c.worker.storage.get job (s, job.style) = (some handle, (s, job.style)) := by
    rw [c.onOverlay]
    exact ⟨_, rfl⟩
  have hgetMeta : ∃ answer,
      c.worker.storage.getMeta job (s, job.style) = (some answer, (s, job.style)) := by
    rw [c.onOverlay]
    exact ⟨_, rfl⟩
  have hturn := turn_found saved hget hgetMeta hfound
  obtain ⟨create, hdeep⟩ := hcreate systems depth
  obtain ⟨create', hfull⟩ := hcreate c.systems c.depth
  obtain ⟨heq, hkept⟩ := hturn create now
  obtain ⟨heq', _⟩ := hturn create' now
  unfold turnOf Configured.full
  rw [hdeep, hfull, heq, heq', hkept]
  exact ⟨rfl, rfl⟩

/-- **Drawn once.** In every run of workers and expiries over an overlay, a metatile that is stored
stays as it is stored, and what of it is expired stays expired; and a job for it in a saved style is
returned as the same, whatever the renderers would draw, and changes nothing.

The storage below is any that keeps metatiles apart (`Apart`), and the renderers are any. Only workers
and expiries are at work: a metatile that is put by another program is not covered. -/
theorem saved_metatile_is_never_drawn_again (apart : base.Apart) (ht : InRange t)
    {s s' : Overlay base} (stored : base.getMeta s.stored t = some data)
    (events : List (Event base Feature)) (hrun : Run.run step s events = some s') :
    base.getMeta s'.stored t = some data ∧
    (∀ u, InRange u → SameMetatile u t → s.expiry.lookup u = true → s'.expiry.lookup u = true) ∧
    ∀ (c : Configured base Feature) (now : Int) (job : TileProtocol), InRange job →
      SameMetatile job t → job.style ∈ c.worker.savedStyles → ∀ systems depth,
        turnOf (c.worker.atDepth systems depth) now job s' = turnOf c.full now job s' ∧
          (turnOf c.full now job s').2 = s' := by
  have hstart : Stored t data (fun u => s.expiry.lookup u = true) s := ⟨stored, fun _ _ _ h => h⟩
  have hstep : ∀ (past : List (Event base Feature)) s₁ (e : Event base Feature) s₂,
      Stored t data (fun u => s.expiry.lookup u = true) s₁ → step s₁ e = some s₂ →
      Stored t data (fun u => s.expiry.lookup u = true) s₂ :=
    fun _ _ _ _ h hstep => stored_step apart ht h hstep
  have hkept := Run.run_invariant hstep events [] s s' hstart hrun
  exact ⟨hkept.data, hkept.expired, fun c now job hjob hsame saved systems depth =>
    turnOf_stored apart ht hkept.data c hjob hsame saved systems depth now⟩

/-- A disk, where something is always put at the same time and under the same name first. -/
def someDisk : MetaStorage :=
  DiskStorage.storage ⟨"/tiles"⟩ (fun _ => ⟨"0123-4567-89ab-cdef", by simp⟩) fun _ => 1000

/-- A worker that draws one byte in the one style that it has, and saves it. -/
def savingWorker : Configured someDisk Unit where
  worker :=
    { storage := (overlay someDisk).withStyle
      codec := { formatArgs := fun _ => some some, dumps := fun _ => [], openTile := some
                 loads := fun _ => none }
      formats := fun _ => some ["png"]
      styles := ["map"]
      savedStyles := ["map"]
      readOnlyStyles := []
      create := fun _ _ => Call.raise }
  systems := fun _ => .plain fun _ => some (some ⟨fun _ => some [1], none⟩)
  depth := 1
  onOverlay := rfl

/-- A metatile is stored and expired, and comes as a job. It is not drawn, and stays expired. -/
theorem expired_metatile_is_not_drawn :
    let t : TileProtocol := { style := "map" }
    ∃ s s' : Overlay someDisk, s.expiry.lookup t = true ∧
      Run.run step s [.turn savingWorker 2000 t] = some s' ∧
      someDisk.getMeta s'.stored t = some [7] ∧ s'.expiry.lookup t = true ∧
      ∀ systems depth, turnOf (savingWorker.worker.atDepth systems depth) 3000 t s' =
        turnOf savingWorker.full 3000 t s' := by
  intro t
  have ht : InRange t := by decide
  have stored : someDisk.getMeta (someDisk.putMeta someDisk.initial t [7]).1 t = some [7] :=
    DiskStorage.getMeta_putMeta _ _ ht (by decide) (by decide) [7]
  obtain ⟨expiry, response, hset⟩ := @ExpiryData.handle_defined {} (.set t true) ht
  have hlookup : expiry.lookup t = true := by
    rw [ExpiryData.lookup_handle hset t, ExpiryData.marks, if_pos rfl]
    rfl
  obtain ⟨s, hs, hs'⟩ : ∃ s : Overlay someDisk, someDisk.getMeta s.stored t = some [7] ∧
      s.expiry.lookup t = true := ⟨{ stored := _, expiry }, stored, hlookup⟩
  obtain ⟨s', hrun⟩ : ∃ s', Run.run step s [.turn savingWorker 2000 t] = some s' := ⟨_, rfl⟩
  have apart : someDisk.Apart := DiskStorage.apart_storage _ _ _
  obtain ⟨hdata, hexpired, hsame⟩ := saved_metatile_is_never_drawn_again apart ht hs _ hrun
  have hself : SameMetatile t t := ⟨rfl, rfl, rfl, rfl⟩
  have hsaved : t.style ∈ savingWorker.worker.savedStyles := List.mem_singleton.mpr rfl
  exact ⟨s, s', hs', hrun, hdata, hexpired t ht hself hs', fun systems depth =>
    (hsame savingWorker 3000 t ht hself hsaved systems depth).1⟩

end SavedStyles

end RenderMq
