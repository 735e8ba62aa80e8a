import RenderMq.Broker.Serving
import RenderMq.Lib.Call
import RenderMq.Metatile.PythonReader

/-!
# The run loop of a worker

`worker.py`: a worker takes a job and returns it, with another status, time and data. The metatile is
taken from storage if it is there and has not expired, else it is rendered, transcoded to the formats
of its style, and put together. A style that is saved has a renderer of its own around the others, which
looks in storage first and puts there what was rendered.

An exception that the loop does not catch ends the worker, and the job is not returned. One that it
catches in rendering leaves the job as it was: the status is written to a field that there is not
(`satus`). So the job comes back as it was sent.

`turn_spec` says what comes back: the job, with a metatile as its data. From this on, what workers
return is not an assumption any more, for storages that have metatiles and images that are encoded.
-/

namespace RenderMq

open MetatileBuilder Coverages

namespace RunLoop

/-! ## What a worker uses -/

/-- A `tile_storage`, as Python sees it. -/
structure Storage (σ : Type) where
  get : TileProtocol → Call σ TileHandle
  getMeta : TileProtocol → Call σ (Option Bytes)
  putMeta : TileProtocol → Bytes → Call σ Bool

/-- `Tile`, without what only a renderer computes with. -/
structure Tile where
  x : Int
  y : Int
  z : Int
  style : String
  /-- `dimensions`, which is the same in both directions. -/
  size : Nat
  deriving DecidableEq

/-- What a renderer does with a tile. -/
abbrev Process (σ Feature : Type) := Tile → Call σ (Option (RenderResult Feature))

/-- The images and features as they are saved and opened. -/
structure Codec (Feature : Type) where
  /-- `save` with the settings of a format, if it has any. -/
  formatArgs : String → Option (Bytes → Option Bytes)
  dumps : List Feature → Bytes
  openTile : Bytes → Option Bytes
  loads : Bytes → Option (List Feature)

/-- The configuration of a worker, with what is not Python code of this repository. -/
structure Worker (σ Feature : Type) where
  storage : Storage σ
  codec : Codec Feature
  /-- `formats`: the names of the formats of a style. -/
  formats : String → Option (List String)
  styles : List String
  savedStyles : List String
  readOnlyStyles : List String
  /-- `_create`. -/
  create : String → Process σ Feature

variable {σ Feature : Type}

/-! ## Tiles and images -/

/-- The constructor of `Tile`. The projection is there for zoom levels up to 18. Far from the grid it
overflows, but there a job is ignored in any case. -/
def tileOf (job : TileProtocol) : Option Tile :=
  if 0 ≤ job.z ∧ job.z ≤ 18 then
    some ⟨metaFloor job.x, metaFloor job.y, job.z, job.style, min 8 (2 ^ job.z.toNat)⟩
  else none

/-- `check_xyz`. -/
def checkXyz (x y z : Int) : Bool :=
  if z < 0 ∨ 30 < z then false
  else
    let maxXy := 2 ^ z.toNat - 1
    decide ¬ (x < 0 ∨ maxXy < x ∨ y < 0 ∨ maxXy < y)

/-- An image of a subtile is saved in one format. -/
def saveView (codec : Codec Feature) (view : Bytes) (cell : Position) (tiles : String → Contents)
    (format : String) : Option (String → Contents) := do
  let save ← codec.formatArgs format
  let data ← save view
  some (Function.update tiles format (Function.update (tiles format) cell (some data)))

/-- `Transcode`. The loops have the row first, and the dictionaries the column. -/
def transcode (codec : Codec Feature) (result : RenderResult Feature) (size : Nat)
    (formats : List String) : Option (String → Contents) :=
  (cells size).foldlM (fun tiles cell => do
    let view ← result.data (cell.2, cell.1)
    formats.foldlM (saveView codec view (cell.2, cell.1)) tiles) fun _ _ => none

/-- The formats that are images. -/
def imageFormats (formats : List String) : List String := formats.filter fun f => f ≠ "json"

/-- The features as text. -/
def metaDataOf (codec : Codec Feature) (formats : List String) (result : RenderResult Feature) :
    Option Contents :=
  if "json" ∈ formats then result.metadata.map fun m cell => (m cell).map codec.dumps else none

/-! ## Renderers -/

/-- `job_formats`. -/
def jobFormats (formats : List String) : Option ProtoFmt :=
  formats.foldlM (fun xfmt f => (formatLookup f).map (xfmt ||| ·)) fmtNone

/-- `process` of a renderer that saves. It does not import `dumps`, so that with features there is an
exception. Where nothing was rendered, there is one in `Transcode`. -/
def storageProcess (w : Worker σ Feature) (formats : List String)
    (backend : Option (Process σ Feature)) : Process σ Feature := fun tile => do
  let format ← Call.ofOption (jobFormats formats)
  let job : TileProtocol := { x := tile.x, y := tile.y, z := tile.z, style := tile.style, format }
  match ← w.storage.getMeta job with
  | none =>
    match backend with
    | none => return none
    | some process =>
      let result ← Call.ofOption (← process tile)
      let metaTile ← Call.ofOption (transcode w.codec result tile.size (imageFormats formats))
      if "json" ∈ formats ∧ result.metadata.isSome then Call.raise
      else
        let bytes ← Call.ofOption (makeMeta job metaTile none (imageFormats formats) tile.size)
        let _ ← w.storage.putMeta job bytes
        return some result
  | some data => do
    let result ← Call.ofOption (PythonReader.unpack w.codec.openTile w.codec.loads data)
    return some result

/-- `renderer_for`, of the renderers that the factory has made. -/
def rendererFor (w : Worker σ Feature) (style : String) : Option (Process σ Feature) :=
  if style ∈ w.styles then
    let formats := (w.formats style).getD []
    let renderer :=
      if style ∈ w.readOnlyStyles then storageProcess w formats none else w.create style
    some (if style ∈ w.savedStyles then storageProcess w formats (some renderer) else renderer)
  else none

/-! ## The loop -/

/-- The formats, the tile and the renderer of a job, or an exception. -/
def prepare (w : Worker σ Feature) (job : TileProtocol) :
    Option (List String × Tile × Process σ Feature) := do
  let formats ← w.formats job.style
  let tile ← tileOf job
  let renderer ← rendererFor w job.style
  some (formats, tile, renderer)

theorem prepare_spec {w : Worker σ Feature} {job : TileProtocol} {formats : List String} {tile : Tile}
    {renderer : Process σ Feature} (h : prepare w job = some (formats, tile, renderer)) :
    w.formats job.style = some formats ∧ tileOf job = some tile ∧
      rendererFor w job.style = some renderer := by
  obtain ⟨_, hformats, h⟩ := Option.bind_eq_some_iff.mp h
  obtain ⟨_, htile, h⟩ := Option.bind_eq_some_iff.mp h
  obtain ⟨_, hrenderer, h⟩ := Option.bind_eq_some_iff.mp h
  obtain ⟨rfl, heq⟩ := Prod.mk.inj (Option.some.inj h)
  obtain ⟨rfl, rfl⟩ := Prod.mk.inj heq
  exact ⟨hformats, htile, hrenderer⟩

/-- The metatile of a job is rendered. -/
def render (w : Worker σ Feature) (formats : List String) (renderer : Process σ Feature) (tile : Tile)
    (job : TileProtocol) : Call σ Bytes := do
  let result ← Call.ofOption (← renderer tile)
  let metaTile ← Call.ofOption (transcode w.codec result tile.size (imageFormats formats))
  Call.ofOption (makeMeta job metaTile (metaDataOf w.codec formats result) (imageFormats formats)
    tile.size)

/-- The job when it is done. -/
def done (now : Int) (job : TileProtocol) (metaTile : Bytes) : TileProtocol :=
  { job with
    data := if job.status ≠ .cmdDirty ∧ job.status ≠ .cmdRenderBulk then metaTile else job.data
    status := .cmdDone
    lastModified := now }

/-- The data with which a job is answered from storage, if it is. -/
def fromStorage (w : Worker σ Feature) (job : TileProtocol) (handle : TileHandle) :
    Call σ (Option Bytes) :=
  if job.status ≠ .cmdDirty ∧ handle.found ∧ ¬ handle.expired then
    if job.status ≠ .cmdRenderBulk then w.storage.getMeta job else return some job.data
  else return none

/-- A turn of the loop: what is returned for a job, unless the worker ends. -/
def turn (w : Worker σ Feature) (now : Int) (job : TileProtocol) : Call σ TileProtocol :=
  match prepare w job with
  | none => return { job with status := .cmdIgnore }
  | some (formats, tile, renderer) =>
    if checkXyz job.x job.y job.z then do
      let handle ← w.storage.get job
      match ← fromStorage w job handle with
      | some data =>
        return { job with data, status := .cmdIgnore, lastModified := handle.lastModified }
      | none => do
        match ← (render w formats renderer tile job).attempt with
        | some metaTile => return done now job metaTile
        | none => return job
    else return { job with status := .cmdIgnore }

/-! ## What is returned -/

/-- What a worker relies on: the storage has metatiles, the formats of a style differ, and images and
features are encoded. -/
structure Sound (w : Worker σ Feature) : Prop where
  storage : ∀ job s, (w.storage.getMeta job).wp
    (fun r _ => ∀ data, r = some (some data) → IsMetatile job.z data) s
  formats : ∀ style formats, w.formats style = some formats → (formats.map formatLookup).Nodup
  images : ∀ f save view data, w.codec.formatArgs f = some save → save view = some data → Encoded data
  features : ∀ features, Encoded (w.codec.dumps features)

variable {w : Worker σ Feature}

theorem saved_of_saveView {view : Bytes} {cell : Position} {tiles tiles' : String → Contents}
    {f : String} (images : ∀ f save view data, w.codec.formatArgs f = some save →
      save view = some data → Encoded data) (hold : ∀ g c body, tiles g c = some body → Encoded body)
    (h : saveView w.codec view cell tiles f = some tiles') :
    ∀ g c body, tiles' g c = some body → Encoded body := by
  obtain ⟨save, hsave, h⟩ := Option.bind_eq_some_iff.mp h
  obtain ⟨data, hdata, h⟩ := Option.bind_eq_some_iff.mp h
  obtain rfl := Option.some.inj h
  intro g c body hbody
  rw [Function.update_apply] at hbody
  split at hbody
  · rw [Function.update_apply] at hbody
    split at hbody
    · obtain rfl := Option.some.inj hbody
      exact images f save view _ hsave hdata
    · exact hold f c body hbody
  · exact hold g c body hbody

/-- All images of `Transcode` are encoded. -/
theorem encoded_of_transcode (images : ∀ f save view data, w.codec.formatArgs f = some save →
      save view = some data → Encoded data) {result : RenderResult Feature} {size : Nat}
    {formats : List String} {tiles : String → Contents}
    (h : transcode w.codec result size formats = some tiles) :
    ∀ f cell body, tiles f cell = some body → Encoded body := by
  let AllEncoded (tiles : String → Contents) : Prop :=
    ∀ f cell body, tiles f cell = some body → Encoded body
  have hnone : AllEncoded fun _ _ => none := by
    rintro f cell body ⟨⟩
  refine Pieces.kept_of_foldlM (Q := AllEncoded) (fun tiles cell tiles' hold hcell => ?_) hnone h
  obtain ⟨view, _, hformats⟩ := Option.bind_eq_some_iff.mp hcell
  exact Pieces.kept_of_foldlM (Q := AllEncoded)
    (fun _ _ _ hold hsave => saved_of_saveView images hold hsave) hold hformats

/-- The formats of a metatile differ, with the features as one more. -/
theorem distinct_named {formats : List String} (distinct : (formats.map formatLookup).Nodup)
    (tiles : String → Contents) (result : RenderResult Feature) :
    ((namedOf tiles (metaDataOf w.codec formats result) (imageFormats formats)).map
      fun n => formatLookup n.1).Nodup := by
  have hjson : ∀ f, formatLookup f = some fmtJSON → f = "json" := by
    intro f hf
    unfold formatLookup at hf
    split_ifs at hf with h1 h2 h3 h4 h5
    · cases hf
    · cases hf
    · cases hf
    · cases hf
    · exact h5
  have himages : ((imageFormats formats).map formatLookup).Nodup :=
    distinct.sublist (List.filter_sublist.map _)
  rw [namedOf, List.map_append, List.map_map]
  refine List.nodup_append.mpr ⟨himages, ?_, ?_⟩
  · cases metaDataOf w.codec formats result <;> simp
  · rintro a ha b hb rfl
    obtain ⟨f, hf, rfl⟩ := List.mem_map.mp ha
    have hb' : formatLookup f = some fmtJSON := by
      obtain ⟨n, hn, heq⟩ := List.mem_map.mp hb
      obtain ⟨contents, _, rfl⟩ := List.mem_map.mp hn
      exact heq.symm
    have hne := (List.mem_filter.mp hf).2
    rw [hjson f hb'] at hne
    simp at hne

theorem of_checkXyz {x y z : Int} (h : checkXyz x y z = true) :
    0 ≤ z ∧ z ≤ 30 ∧ 0 ≤ x ∧ x < 2 ^ z.toNat ∧ 0 ≤ y ∧ y < 2 ^ z.toNat := by
  unfold checkXyz at h
  split at h
  · cases h
  · have hxy := of_decide_eq_true h
    omega

/-- What is rendered is a metatile. -/
theorem render_spec (sound : Sound w) {formats : List String} {job : TileProtocol} {tile : Tile}
    (hformats : w.formats job.style = some formats) (htile : tileOf job = some tile)
    (hx : METATILE ∣ job.x) (hy : METATILE ∣ job.y) (hgrid : checkXyz job.x job.y job.z = true)
    (renderer : Process σ Feature) (s : σ) :
    (render w formats renderer tile job).wp
      (fun r _ => ∀ metaTile, r = some metaTile → IsMetatile job.z metaTile) s := by
  obtain ⟨h0, h30, hx0, hx1, hy0, hy1⟩ := of_checkXyz hgrid
  have hsize : tile.size = min 8 (2 ^ job.z.toNat) := by
    unfold tileOf at htile
    split at htile
    · rw [← Option.some.inj htile]
    · cases htile
  have aligned : Aligned job := by
    have hpow : (2 : Int) ^ job.z.toNat ≤ 2 ^ 30 := by
      exact_mod_cast Nat.pow_le_pow_right (show 0 < 2 by decide) (show job.z.toNat ≤ 30 by omega)
    refine ⟨hx, hy, fun v hv => ?_⟩
    simp only [List.mem_cons, List.not_mem_nil, or_false] at hv
    rcases hv with rfl | rfl | rfl <;> omega
  simp only [render, Call.wp_bind, Call.wp_ofOption]
  refine Call.wp_iff.mpr fun r s' _ => ?_
  rcases r with _ | _ | result
  · simp
  · simp
  simp only [Option.elim]
  cases htiles : transcode w.codec result tile.size (imageFormats formats) with
  | none => simp
  | some tiles =>
    intro metaTile hmake
    rw [hsize] at hmake
    refine ((madeFrom_of_makeMeta aligned (min_le_left ..)
      (distinct_named (sound.formats _ _ hformats) tiles result) ?_ hmake).1.isMetatile h0 h30).1
    intro n hn cell body hbody
    rcases List.mem_append.mp hn with hn | hn
    · obtain ⟨f, _, rfl⟩ := List.mem_map.mp hn
      exact encoded_of_transcode sound.images htiles f cell body hbody
    · obtain ⟨contents, hcontents, rfl⟩ := List.mem_map.mp hn
      have hmeta : metaDataOf w.codec formats result = some contents := by simpa using hcontents
      unfold metaDataOf at hmeta
      split at hmeta
      · obtain ⟨m, _, rfl⟩ := Option.map_eq_some_iff.mp hmeta
        obtain ⟨features, _, rfl⟩ := Option.map_eq_some_iff.mp hbody
        exact sound.features features
      · cases hmeta

/-- **A turn of the loop** returns the job with a metatile, unless the worker ends. -/
theorem turn_spec (sound : Sound w) {job : TileProtocol} (hx : METATILE ∣ job.x)
    (hy : METATILE ∣ job.y) (hdata : IsMetatile job.z job.data) (now : Int) (s : σ) :
    (turn w now job).wp (fun r _ => ∀ job', r = some job' → ∃ status lastModified data,
      job' = Broker.returned job status lastModified data ∧ IsMetatile job.z data) s := by
  have unchanged : ∀ status, ∀ job', some { job with status := status } = some job' →
      ∃ status lastModified data, job' = Broker.returned job status lastModified data ∧
        IsMetatile job.z data := by
    rintro status _ ⟨⟩
    exact ⟨status, job.lastModified, job.data, rfl, hdata⟩
  unfold turn
  split
  · exact unchanged .cmdIgnore
  · next formats tile renderer hprepare =>
    obtain ⟨hformats, htile, _⟩ := prepare_spec hprepare
    split
    · next hgrid =>
      rw [Call.wp_bind]
      refine Call.wp_iff.mpr fun handle s₁ _ => ?_
      cases handle with
      | none => simp
      | some handle =>
        -- the data from storage, which is a metatile
        have hstored : (fromStorage w job handle).wp
            (fun r _ => ∀ data, r = some (some data) → IsMetatile job.z data) s₁ := by
          unfold fromStorage
          split
          · split
            · exact sound.storage job s₁
            · rintro data ⟨⟩
              exact hdata
          · rintro data ⟨⟩
        simp only [Option.elim, Call.wp_bind]
        refine Call.wp_mono hstored fun r s₂ hr => ?_
        rcases r with _ | _ | data
        · simp
        · simp only [Call.wp_bind, Call.wp_attempt]
          refine Call.wp_mono (render_spec sound hformats htile hx hy hgrid _ s₂)
            fun r s₃ hmeta => ?_
          cases r with
          | none => exact unchanged job.status
          | some metaTile =>
            rintro _ ⟨⟩
            refine ⟨.cmdDone, now, _, rfl, ?_⟩
            split
            · exact hmeta metaTile rfl
            · exact hdata
        · rintro _ ⟨⟩
          exact ⟨.cmdIgnore, handle.lastModified, data, rfl, hr data rfl⟩
    · exact unchanged .cmdIgnore

end RunLoop

end RenderMq
