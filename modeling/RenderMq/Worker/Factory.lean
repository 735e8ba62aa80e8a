import RenderMq.Expiry.Fragment
import RenderMq.Worker.RunLoop

/-!
# The renderers of a worker

`factory.py` has a renderer for each style. Some draw by themselves (mapnik, terrain, aerial); a
composite renderer has its layers drawn by their styles' renderers, and a renderer by coverage its
subtiles. These go back to the factory, so that a saved style can be part of another style.

The tile is one object, which a renderer hands on. A composite renderer changes its style, and it stays
changed. So the calls here have the tile's style in their state, next to that of the storage.

What all this does to storage is put metatiles there that it has just not found. `keeps_turn` says so as
a rule: what such puts keep is kept by a turn of the loop, whatever is drawn.
-/

namespace RenderMq

open Coverages

namespace RunLoop

variable {σ Feature : Type}

/-! ## Rendering systems -/

/-- The renderer of a style, as it is configured. -/
inductive System (Feature : Type) where
  /-- One that draws by itself, and uses no storage. -/
  | plain (process : Tile → Option (Option (RenderResult Feature)))
  /-- The images of layers are put together. -/
  | composite (layers : List String)
      (combine : List (RenderResult Feature) → Option (RenderResult Feature))
  | coverages (renderer : Coverages.Renderer) (checkSubTiles : Tile → Option Subtiles)

/-- What `renderer_for` finds, where the state has the style of the tile. -/
abbrev Renderers (σ Feature : Type) := String → Option (Process (σ × String) Feature)

/-- `tile.style = layer`. -/
def setStyle (layer : String) : Call (σ × String) Unit := fun s => (some (), (s.1, layer))

/-- A layer is drawn, if there is something in it. -/
def drawLayer (renderers : Renderers σ Feature) (tile : Tile) (results : List (RenderResult Feature))
    (layer : String) : Call (σ × String) (List (RenderResult Feature)) := do
  setStyle layer
  let renderer ← Call.ofOption (renderers layer)
  match ← renderer { tile with style := layer } with
  | some result => return results ++ [result]
  | none => return results

/-- `process` of a composite renderer. -/
def compositeProcess (renderers : Renderers σ Feature) (layers : List String)
    (combine : List (RenderResult Feature) → Option (RenderResult Feature)) :
    Process (σ × String) Feature := fun tile => do
  let results ← layers.foldlM (drawLayer renderers tile) []
  if results.length < 1 then Call.raise
  else
    let result ← Call.ofOption (combine results)
    return some result

/-- The styles whose renderers `_update_coverages` gets, in its order. -/
def stylesInUse (r : Coverages.Renderer) (entries : List (Position × List String)) : List String :=
  let styles := entries.map fun e => styleName r e.2
  if mixedCoverage r entries then styles.eraseDups else styles.take 1

/-- Renderers draw one after another, until there is nothing in one. The style of the tile is what the
one before has left. -/
def drawAll (tile : Tile) : List (String × Process (σ × String) Feature) →
    Call (σ × String) (List (String × RenderResult Feature))
  | [] => return []
  | (style, renderer) :: rest => do
    let current : Call (σ × String) String := fun s => (some s.2, s)
    match ← renderer { tile with style := ← current } with
    | none => return []
    | some result => return (style, result) :: (← drawAll tile rest)

/-- `process` of a renderer by coverage. -/
def coveragesProcess (renderers : Renderers σ Feature) (r : Coverages.Renderer)
    (checkSubTiles : Tile → Option Subtiles) : Process (σ × String) Feature := fun tile => do
  let subtiles ← Call.ofOption (checkSubTiles tile)
  let styles := stylesInUse r subtiles.entries
  let found ← Call.ofOption (styles.mapM renderers)
  let results ← drawAll tile (styles.zip found)
  let result ← Call.ofOption
    (Coverages.process r (fun style => some (results.lookup style)) subtiles.entries).toOption
  return some result

def System.process (renderers : Renderers σ Feature) : System Feature → Process (σ × String) Feature
  | .plain process => fun tile => Call.ofOption (process tile)
  | .composite layers combine => compositeProcess renderers layers combine
  | .coverages r checkSubTiles => coveragesProcess renderers r checkSubTiles

/-- A worker whose renderers call each other, up to a depth. Deeper than that there is an exception. -/
def Worker.atDepth (w : Worker (σ × String) Feature) (systems : String → System Feature) :
    Nat → Worker (σ × String) Feature
  | 0 => { w with create := fun _ _ => Call.raise }
  | n + 1 => { w with create := fun style => (systems style).process (rendererFor (w.atDepth systems n)) }

/-- A storage, where the state has the style of the tile. -/
def Storage.withStyle (storage : Storage σ) : Storage (σ × String) where
  get job := (storage.get job).onFirst
  getMeta job := (storage.getMeta job).onFirst
  putMeta job bytes := (storage.putMeta job bytes).onFirst

/-- A turn of the loop. The tile is made with the style of the job. -/
def turnOf (w : Worker (σ × String) Feature) (now : Int) (job : TileProtocol) : Call σ TileProtocol :=
  fun s => ((turn w now job (s, job.style)).1, (turn w now job (s, job.style)).2.1)

/-! ## What storage keeps -/

/-- The first tile of a metatile, of any style. -/
structure OnGrid (x y z : Int) : Prop where
  column : METATILE ∣ x
  row : METATILE ∣ y
  inRange : InRange { x := x, y := y, z := z }

/-- What a storage keeps when metatiles are put there that were not there before. -/
structure Lasts (storage : Storage σ) (Inv : σ → Prop) : Prop where
  get : ∀ job, Call.Keeps Inv (storage.get job)
  getMeta : ∀ job, Call.Keeps Inv (storage.getMeta job)
  putMeta : ∀ (job : TileProtocol) (bytes : Bytes) (s : σ), OnGrid job.x job.y job.z → Inv s →
    (storage.getMeta job s).1 = some none → Call.Keeps Inv (storage.putMeta job bytes)

variable {w : Worker σ Feature} {Inv : σ → Prop}

/-- A renderer keeps what lasts. -/
def KeepsAll (Inv : σ → Prop) (p : Process σ Feature) : Prop :=
  ∀ tile : Tile, OnGrid tile.x tile.y tile.z → Call.Keeps Inv (p tile)

theorem keeps_storageProcess (lasts : Lasts w.storage Inv) (formats : List String)
    {backend : Option (Process σ Feature)} (hbackend : ∀ p ∈ backend, KeepsAll Inv p) :
    KeepsAll Inv (storageProcess w formats backend) := by
  intro tile hgrid s h
  unfold storageProcess
  rw [Call.wp_bind, Call.wp_ofOption]
  cases jobFormats formats with
  | none => exact h
  | some format =>
    set job : TileProtocol := { x := tile.x, y := tile.y, z := tile.z, style := tile.style, format }
    simp only [Option.elim]
    rw [Call.wp_bind]
    refine Call.wp_iff.mpr fun r s' hget => ?_
    have h' : Inv s' := by
      have hkept := lasts.getMeta job s h
      rwa [Call.wp, hget] at hkept
    rcases r with _ | _ | data
    · exact h'
    · cases backend with
      | none => exact h'
      | some p =>
        have hput : ∀ bytes, Call.Keeps Inv (w.storage.putMeta job bytes) :=
          fun bytes => lasts.putMeta job bytes s hgrid h (congrArg Prod.fst hget)
        refine Call.keeps_bind (hbackend p rfl tile hgrid) (fun result => ?_) s' h'
        refine Call.keeps_bind (Call.keeps_ofOption _) fun result => ?_
        refine Call.keeps_bind (Call.keeps_ofOption _) fun metaTile => ?_
        split
        · exact Call.keeps_raise
        · refine Call.keeps_bind (Call.keeps_ofOption _) fun bytes => ?_
          exact Call.keeps_bind (hput bytes) fun _ => Call.keeps_pure _
    · exact Call.keeps_bind (Call.keeps_ofOption _) (fun _ => Call.keeps_pure _) s' h'

theorem Lasts.withStyle {storage : Storage σ} (lasts : Lasts storage Inv) :
    Lasts storage.withStyle fun s : σ × String => Inv s.1 where
  get job s h := lasts.get job s.1 h
  getMeta job s h := lasts.getMeta job s.1 h
  putMeta job bytes s hgrid h hnone s' h' := lasts.putMeta job bytes s.1 hgrid h hnone s'.1 h'

section Systems

variable {Inv : σ × String → Prop} {renderers : Renderers σ Feature}

theorem keeps_drawLayer (hstyle : ∀ s style, Inv s → Inv (s.1, style))
    (hrenderers : ∀ style p, renderers style = some p → KeepsAll Inv p) {tile : Tile}
    (hgrid : OnGrid tile.x tile.y tile.z) (results : List (RenderResult Feature)) (layer : String) :
    Call.Keeps Inv (drawLayer renderers tile results layer) := by
  refine Call.keeps_bind (fun s h => hstyle s layer h) fun _ => ?_
  refine Call.keeps_bind_ofOption fun renderer hrenderer => ?_
  refine Call.keeps_bind (hrenderers layer renderer hrenderer _ hgrid) fun result => ?_
  cases result with
  | none => exact Call.keeps_pure _
  | some result => exact Call.keeps_pure _

theorem keeps_compositeProcess (hstyle : ∀ s style, Inv s → Inv (s.1, style))
    (hrenderers : ∀ style p, renderers style = some p → KeepsAll Inv p) (layers : List String)
    (combine : List (RenderResult Feature) → Option (RenderResult Feature)) :
    KeepsAll Inv (compositeProcess renderers layers combine) := by
  intro tile hgrid
  refine Call.keeps_bind (Call.keeps_foldlM (keeps_drawLayer hstyle hrenderers hgrid) layers [])
    fun results => ?_
  split
  · exact Call.keeps_raise
  · exact Call.keeps_bind (Call.keeps_ofOption _) fun _ => Call.keeps_pure _

theorem keeps_drawAll {tile : Tile} (hgrid : OnGrid tile.x tile.y tile.z) :
    ∀ renderers : List (String × Process (σ × String) Feature),
      (∀ r ∈ renderers, KeepsAll Inv r.2) → Call.Keeps Inv (drawAll tile renderers)
  | [], _ => Call.keeps_pure _
  | (style, renderer) :: rest, hkeep => by
    obtain ⟨hfirst, hrest⟩ := List.forall_mem_cons.mp hkeep
    refine Call.keeps_bind (fun s h => h) fun current => ?_
    refine Call.keeps_bind (hfirst _ hgrid) fun result => ?_
    cases result with
    | none => exact Call.keeps_pure _
    | some result => exact Call.keeps_bind (keeps_drawAll hgrid rest hrest) fun _ => Call.keeps_pure _

theorem keeps_coveragesProcess (hrenderers : ∀ style p, renderers style = some p → KeepsAll Inv p)
    (r : Coverages.Renderer) (checkSubTiles : Tile → Option Subtiles) :
    KeepsAll Inv (coveragesProcess renderers r checkSubTiles) := by
  intro tile hgrid
  refine Call.keeps_bind (Call.keeps_ofOption _) fun subtiles => ?_
  refine Call.keeps_bind_ofOption fun found hfound => ?_
  have hkeep : ∀ p ∈ (stylesInUse r subtiles.entries).zip found, KeepsAll Inv p.2 := by
    rintro ⟨style, p⟩ hp
    obtain ⟨style', _, hstyle'⟩ := Pieces.exists_of_mem_mapM hfound p (List.of_mem_zip hp).2
    exact hrenderers style' p hstyle'
  refine Call.keeps_bind (keeps_drawAll hgrid _ hkeep) fun results => ?_
  exact Call.keeps_bind (Call.keeps_ofOption _) fun _ => Call.keeps_pure _

/-- Every rendering system keeps what the renderers that it uses keep. -/
theorem keeps_process (hstyle : ∀ s style, Inv s → Inv (s.1, style))
    (hrenderers : ∀ style p, renderers style = some p → KeepsAll Inv p) (system : System Feature) :
    KeepsAll Inv (system.process renderers) := by
  cases system with
  | plain process => exact fun tile _ => Call.keeps_ofOption _
  | composite layers combine => exact keeps_compositeProcess hstyle hrenderers layers combine
  | coverages r checkSubTiles => exact keeps_coveragesProcess hrenderers r checkSubTiles

end Systems

theorem keeps_rendererFor (lasts : Lasts w.storage Inv) (hcreate : ∀ style, KeepsAll Inv (w.create style))
    {style : String} {p : Process σ Feature} (h : rendererFor w style = some p) : KeepsAll Inv p := by
  unfold rendererFor at h
  split at h
  · obtain rfl := Option.some.inj h
    have hrenderer : KeepsAll Inv (if style ∈ w.readOnlyStyles then
        storageProcess w ((w.formats style).getD []) none else w.create style) := by
      split
      · exact keeps_storageProcess lasts _ (by simp)
      · exact hcreate style
    split
    · exact keeps_storageProcess lasts _ fun p hp => Option.some.inj hp ▸ hrenderer
    · exact hrenderer
  · cases h

/-- The renderers of a worker keep what lasts, however deep they call each other. -/
theorem keeps_atDepth {w : Worker (σ × String) Feature} {Inv : σ × String → Prop}
    (lasts : Lasts w.storage Inv) (hstyle : ∀ s style, Inv s → Inv (s.1, style))
    (systems : String → System Feature) (depth : Nat) (style : String) :
    KeepsAll Inv ((w.atDepth systems depth).create style) := by
  induction depth generalizing style with
  | zero => exact fun tile _ => Call.keeps_raise
  | succ depth ih =>
    have hlasts : Lasts (w.atDepth systems depth).storage Inv := by
      cases depth <;> exact lasts
    exact keeps_process hstyle (fun _ _ hp => keeps_rendererFor hlasts ih hp) (systems style)

/-! ## A turn of the loop -/

theorem onGrid_of_checkXyz {job : TileProtocol} {tile : Tile} (htile : tileOf job = some tile)
    (h : checkXyz job.x job.y job.z = true) : OnGrid tile.x tile.y tile.z := by
  obtain ⟨_, _, hx0, hx1, hy0, hy1⟩ := of_checkXyz h
  unfold tileOf at htile
  split at htile
  · next hz =>
    obtain rfl := Option.some.inj htile
    have hfloor : ∀ {v : Int}, 0 ≤ v → v < 2 ^ job.z.toNat →
        0 ≤ metaFloor v ∧ metaFloor v < 2 ^ job.z.toNat := by
      intro v h0 h1
      have hsplit := metaFloor_add_emod v
      simp only [METATILE] at hsplit
      omega
    exact ⟨dvd_metaFloor _, dvd_metaFloor _, hz, hfloor hx0 hx1, hfloor hy0 hy1⟩
  · cases htile

/-- **A turn of the loop** keeps what lasts. -/
theorem keeps_turn (lasts : Lasts w.storage Inv) (hcreate : ∀ style, KeepsAll Inv (w.create style))
    (now : Int) (job : TileProtocol) : Call.Keeps Inv (turn w now job) := by
  unfold turn
  split
  · exact Call.keeps_pure _
  · next formats tile renderer hprepare =>
    obtain ⟨_, htile, hrenderer⟩ := prepare_spec hprepare
    split
    · next hcheck =>
      refine Call.keeps_bind (lasts.get job) fun handle => ?_
      have hstored : Call.Keeps Inv (fromStorage w job handle) := by
        unfold fromStorage
        split
        · split
          · exact lasts.getMeta job
          · exact Call.keeps_pure _
        · exact Call.keeps_pure _
      have hrender : Call.Keeps Inv (render w formats renderer tile job) := by
        have hgrid := onGrid_of_checkXyz htile hcheck
        refine Call.keeps_bind (keeps_rendererFor lasts hcreate hrenderer tile hgrid) fun result => ?_
        refine Call.keeps_bind (Call.keeps_ofOption _) fun result => ?_
        exact Call.keeps_bind (Call.keeps_ofOption _) fun _ => Call.keeps_ofOption _
      refine Call.keeps_bind hstored fun data => ?_
      cases data with
      | some data => exact Call.keeps_pure _
      | none =>
        refine Call.keeps_bind (Call.keeps_attempt hrender) fun metaTile => ?_
        cases metaTile <;> exact Call.keeps_pure _
    · exact Call.keeps_pure _

theorem keeps_turnOf {w : Worker (σ × String) Feature} {Inv : σ → Prop}
    (lasts : Lasts w.storage fun s => Inv s.1) (systems : String → System Feature) (depth : Nat)
    (now : Int) (job : TileProtocol) :
    Call.Keeps Inv (turnOf (w.atDepth systems depth) now job) := by
  intro s h
  have hlasts : Lasts (w.atDepth systems depth).storage fun s : σ × String => Inv s.1 := by
    cases depth <;> exact lasts
  exact keeps_turn hlasts (keeps_atDepth lasts (fun _ _ h => h) systems depth) now job
    (s, job.style) h

/-! ## What is found -/

/-- The job of a renderer that saves. -/
abbrev Tile.metatile (tile : Tile) (format : ProtoFmt) : TileProtocol :=
  { x := tile.x, y := tile.y, z := tile.z, style := tile.style, format }

/-- What a renderer that saves makes of a metatile that it has found. -/
def loaded (codec : Codec Feature) (formats : List String) (data : Bytes) :
    Option (Option (RenderResult Feature)) := do
  let _ ← jobFormats formats
  let result ← PythonReader.unpack codec.openTile codec.loads data
  return some result

/-- What is found is not drawn. -/
theorem storageProcess_found {formats : List String} {tile : Tile} {s : σ} {data : Bytes}
    (found : ∀ format, w.storage.getMeta (tile.metatile format) s = (some (some data), s))
    (backend : Option (Process σ Feature)) :
    storageProcess w formats backend tile s = (loaded w.codec formats data, s) := by
  unfold storageProcess loaded
  cases jobFormats formats with
  | none => rfl
  | some format =>
    simp only [bind, Call.ofOption, found format, Option.bind]
    cases PythonReader.unpack w.codec.openTile w.codec.loads data <;> rfl

/-- What is made of a metatile depends on what its renderer draws, and nothing else is changed. -/
theorem render_of_drawn {formats : List String} {renderer : Process σ Feature} {tile : Tile}
    {s : σ} {drawn : Option (Option (RenderResult Feature))} (h : renderer tile s = (drawn, s))
    (job : TileProtocol) :
    render w formats renderer tile job s =
      (render w formats (fun _ => Call.ofOption drawn) tile job s) ∧
    (render w formats renderer tile job s).2 = s := by
  unfold render
  simp only [bind, Call.ofOption, h, true_and]
  rcases drawn with _ | _ | result
  · rfl
  · rfl
  · dsimp only
    cases transcode w.codec result tile.size (imageFormats formats) <;> rfl

/-- The data with which a job is answered from storage, where `get_meta` gives an answer. -/
def answered (job : TileProtocol) (handle : TileHandle) (answer : Option Bytes) : Option Bytes :=
  if job.status ≠ .cmdDirty ∧ handle.found ∧ ¬ handle.expired then
    if job.status ≠ .cmdRenderBulk then answer else some job.data
  else none

/-- A turn with a renderer that draws without changing anything. -/
theorem turn_of_drawn {formats : List String} {renderer : Process σ Feature} {tile : Tile}
    {job : TileProtocol} {s : σ} {drawn : Option (Option (RenderResult Feature))} {handle : TileHandle}
    {answer : Option Bytes} (hprepare : prepare w job = some (formats, tile, renderer))
    (h : renderer tile s = (drawn, s)) (get : w.storage.get job s = (some handle, s))
    (getMeta : w.storage.getMeta job s = (some answer, s)) (now : Int) :
    turn w now job s =
      (if checkXyz job.x job.y job.z then
        match answered job handle answer with
        | some data => some { job with data, status := .cmdIgnore, lastModified := handle.lastModified }
        | none =>
          match (render w formats (fun _ => Call.ofOption drawn) tile job s).1 with
          | some metaTile => some (done now job metaTile)
          | none => some job
      else some { job with status := .cmdIgnore }, s) := by
  have hstored : fromStorage w job handle s = (some (answered job handle answer), s) := by
    unfold fromStorage answered
    split
    · split
      · exact getMeta
      · rfl
    · rfl
  obtain ⟨hrender, hkept⟩ := @render_of_drawn _ _ w formats _ _ _ _ h job
  unfold turn
  rw [hprepare]
  dsimp only
  split
  · simp only [bind, get, hstored, Call.attempt]
    cases answered job handle answer with
    | some data => rfl
    | none =>
      dsimp only
      rw [hkept, hrender]
      cases (render w formats (fun _ => Call.ofOption drawn) tile job s).1 <;> rfl
  · rfl

/-- **A turn for a metatile that is found** does not depend on what the renderers would draw, and
changes nothing. -/
theorem turn_found {job : TileProtocol} {s : σ} {data : Bytes} (saved : job.style ∈ w.savedStyles)
    (get : ∃ handle, w.storage.get job s = (some handle, s))
    (getMeta : ∃ answer, w.storage.getMeta job s = (some answer, s))
    (found : ∀ tile format, tileOf job = some tile →
      w.storage.getMeta (tile.metatile format) s = (some (some data), s))
    (create : String → Process σ Feature) (now : Int) :
    turn { w with create } now job s = turn w now job s ∧ (turn w now job s).2 = s := by
  obtain ⟨handle, hget⟩ := get
  obtain ⟨answer, hmeta⟩ := getMeta
  -- what both workers prepare
  have hprepare : ∀ create, prepare { w with create } job = none ∧ prepare w job = none ∨
      ∃ formats tile renderer renderer', prepare { w with create } job = some (formats, tile, renderer) ∧
        prepare w job = some (formats, tile, renderer') ∧
        renderer tile s = (loaded w.codec formats data, s) ∧
        renderer' tile s = (loaded w.codec formats data, s) := by
    intro create
    unfold prepare rendererFor
    dsimp only
    cases w.formats job.style with
    | none => exact .inl ⟨rfl, rfl⟩
    | some formats =>
      cases htile : tileOf job with
      | none => exact .inl ⟨rfl, rfl⟩
      | some tile =>
        by_cases hstyle : job.style ∈ w.styles
        · rw [if_pos hstyle, if_pos hstyle, if_pos saved, if_pos saved]
          have hfound (format : ProtoFmt) := found tile format htile
          exact .inr ⟨formats, tile, _, _, rfl, rfl, storageProcess_found (w := { w with create }) hfound _,
            storageProcess_found hfound _⟩
        · rw [if_neg hstyle, if_neg hstyle]
          exact .inl ⟨rfl, rfl⟩
  rcases hprepare create with ⟨hnone, hnone'⟩ | ⟨formats, tile, p, p', hsome, hsome', hp, hp'⟩
  · rw [turn, turn, hnone, hnone']
    exact ⟨rfl, rfl⟩
  · have hturn := turn_of_drawn (w := { w with create }) hsome hp hget hmeta now
    have hturn' := turn_of_drawn hsome' hp' hget hmeta now
    rw [hturn, hturn']
    exact ⟨rfl, rfl⟩

end RunLoop

end RenderMq
