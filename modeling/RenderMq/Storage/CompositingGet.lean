import RenderMq.Storage.Compositing

/-!
# What the compositing storage gets

A composite is made by the image library, which is an argument: it reads an image or does not, and
writes one or does not. A layer that is configured to be JSON is not read at all; the pointer to its
image is never set.

A tile is asked for in some formats. These should be among the formats that the storage is configured
to generate, and the code asks for the reverse. `getsComposite_iff` says when this makes no difference.
-/

namespace RenderMq

/-! ## Images -/

/-- The functions of the image library. -/
structure ImageLibrary where
  Image : Type
  fromPng : Bytes → Option Image
  fromJpeg : Bytes → Option Image
  fromGif : Bytes → Option Image
  width : Image → Nat
  height : Image → Nat
  /-- An image, and another one on top of it. -/
  merge : Image → Image → Image
  /-- With a palette, where there are few colours. -/
  toPng : Image → Option Bytes
  toJpeg : Image → Int → Option Bytes
  toGif : Image → Option Bytes

/-- What comes of a format that no image is read from. -/
inductive ImageFailure where
  | exception (message : String)
  /-- A pointer is used that was not set. -/
  | uninitialised
  deriving DecidableEq, Repr

namespace ImageLibrary

variable (lib : ImageLibrary)

/-- `image::create`; a null pointer is none. -/
def create (data : Bytes) (fmt : ProtoFmt) : Except ImageFailure (Option lib.Image) :=
  if fmt = fmtPNG then .ok (lib.fromPng data)
  else if fmt = fmtJPEG then .ok (lib.fromJpeg data)
  else if fmt = fmtGIF then .ok (lib.fromGif data)
  else
    match mimeTypeFor fmt with
    | .error message => .error (.exception message)
    | .ok _ => .error .uninitialised

/-- What is written is not empty. -/
def written : Option Bytes → Except String Bytes
  | some (byte :: bytes) => .ok (byte :: bytes)
  | _ => .error "Could not write image."

/-- `image::save`. -/
def save (quality : Int) (image : lib.Image) (fmt : ProtoFmt) : Except String Bytes :=
  if fmt = fmtPNG then written (lib.toPng image)
  else if fmt = fmtJPEG then written (lib.toJpeg image quality)
  else if fmt = fmtGIF then written (lib.toGif image)
  else
    match mimeTypeFor fmt with
    | .error message => .error message
    | .ok _ => written none

/-- `composite`; it is none where it is false. -/
def composite (quality : Int) (underData : Bytes) (underFmt : ProtoFmt) (overData : Bytes)
    (overFmt resultFmt : ProtoFmt) : Except ImageFailure (Option Bytes) :=
  match lib.create underData underFmt, lib.create overData overFmt with
  | .error failure, _ => .error failure
  | .ok _, .error failure => .error failure
  | .ok (some underImage), .ok (some overImage) =>
    if lib.width underImage ≠ lib.width overImage ∨ lib.height underImage ≠ lib.height overImage then
      .ok none
    else .ok (lib.save quality (lib.merge underImage overImage) resultFmt).toOption
  | .ok _, .ok _ => .ok none

end ImageLibrary

/-! ## The storage -/

/-- `get_format_for`. -/
def getFormatFor (fileType : String) : ProtoFmt :=
  if fileType = "json" then fmtJSON
  else if fileType = "png" then fmtPNG
  else if fileType = "jpeg" then fmtJPEG
  else if fileType = "gif" then fmtGIF
  else fmtNone

/-- The configuration, as far as it is read. -/
structure CompositingProperties where
  underStyle : Option String := none
  overStyle : Option String := none
  underFormat : Option String
  overFormat : Option String
  jpeg : Bool := false
  gif : Bool := false
  png : Bool := false
  jpegQuality : Int := 80
  expireUnder : Bool := false
  expireOver : Bool := false

namespace CompositingProperties

/-- `m_generate_format`. -/
def generateFormat (p : CompositingProperties) : ProtoFmt :=
  (if p.jpeg then fmtJPEG else fmtNone) ||| (if p.gif then fmtGIF else fmtNone) |||
    (if p.png then fmtPNG else fmtNone)

/-- `compositing_storage::compositing_storage`, of what it throws only the message. -/
def construct (lib : ImageLibrary) (p : CompositingProperties) : Except String CompositingConfig :=
  match p.underFormat, p.overFormat with
  | none, _ => .error "No such node (under_format)"
  | some _, none => .error "No such node (over_format)"
  | some underName, some overName =>
    if getFormatFor underName = fmtNone then
      .error ("Value for composite storage under_format, `" ++ underName ++
        "', doesn't match a known format type.")
    else if getFormatFor overName = fmtNone then
      .error ("Value for composite storage over_format, `" ++ overName ++
        "', doesn't match a known format type.")
    else if p.generateFormat = fmtNone then
      .error ("No generation formats found in composite storage config. " ++
        "Have you set up the format configuration?")
    else
      .ok
        { underStyle := p.underStyle
          overStyle := p.overStyle
          underFormat := getFormatFor underName
          overFormat := getFormatFor overName
          generateFormat := p.generateFormat
          expireUnder := p.expireUnder
          expireOver := p.expireOver
          composite := fun underData underFmt overData overFmt resultFmt =>
            (lib.composite p.jpegQuality underData underFmt overData overFmt resultFmt).toOption.join }

end CompositingProperties

namespace CompositingStorage

variable {lib : ImageLibrary} {p : CompositingProperties} {c : CompositingConfig}
  {underStorage overStorage : SubStorage} {s : State underStorage overStorage} {tile : TileProtocol}

/-- `compositing_storage::get`, with what it may fail of. -/
def tryGet (lib : ImageLibrary) (quality : Int) (c : CompositingConfig)
    (s : State underStorage overStorage) (tile : TileProtocol) : Except ImageFailure TileHandle :=
  if !c.canGenerateFormats tile.format then .ok nullHandle
  else
    let underHandle := underStorage.get s.1 (c.underTile tile)
    if underHandle.found then
      let overHandle := overStorage.get s.2 (c.overTile tile)
      if overHandle.found then
        let lastMod := max underHandle.lastModified overHandle.lastModified
        let expired := underHandle.expired || overHandle.expired
        match underHandle.data, overHandle.data with
        | some underData, some overData =>
          match lib.composite quality underData c.underFormat overData c.overFormat tile.format with
          | .error failure => .error failure
          | .ok (some data) =>
            .ok { found := true, lastModified := lastMod, expired := expired, data := some data }
          | .ok none => .ok nullHandle
        | _, _ => .ok nullHandle
      else .ok overHandle
    else .ok underHandle

/-! ## What it should get -/

/-- Both layers have the tile, and its data. -/
def HasLayers (c : CompositingConfig) (s : State underStorage overStorage) (tile : TileProtocol)
    (underData overData : Bytes) : Prop :=
  (underStorage.get s.1 (c.underTile tile)).found = true ∧
    (underStorage.get s.1 (c.underTile tile)).data = some underData ∧
    (overStorage.get s.2 (c.overTile tile)).found = true ∧
    (overStorage.get s.2 (c.overTile tile)).data = some overData

/-- Both texts are images of one size, and what becomes of them can be written. -/
def Composes (lib : ImageLibrary) (quality : Int) (c : CompositingConfig) (fmt : ProtoFmt)
    (underData overData : Bytes) : Prop :=
  ∃ underImage overImage data, lib.create underData c.underFormat = .ok (some underImage) ∧
    lib.create overData c.overFormat = .ok (some overImage) ∧
    lib.width underImage = lib.width overImage ∧ lib.height underImage = lib.height overImage ∧
    lib.save quality (lib.merge underImage overImage) fmt = .ok data

/-- There is a composite, of these images. -/
def HasComposite (lib : ImageLibrary) (quality : Int) (c : CompositingConfig)
    (s : State underStorage overStorage) (tile : TileProtocol) : Prop :=
  ∃ underData overData, HasLayers c s tile underData overData ∧
    Composes lib quality c tile.format underData overData

/-- The formats are among these. -/
def IsSubset (formats others : ProtoFmt) : Prop := formats &&& others = formats

instance (formats others : ProtoFmt) : Decidable (IsSubset formats others) :=
  inferInstanceAs (Decidable (formats &&& others = formats))

/-- The tile is there exactly if its formats are generated and there is a composite. It is as late as
the later of its layers, and expired if one of them is. -/
structure GetsComposite (lib : ImageLibrary) (quality : Int) (c : CompositingConfig)
    (s : State underStorage overStorage) (tile : TileProtocol) (handle : TileHandle) : Prop where
  found : handle.found = true ↔
    IsSubset tile.format c.generateFormat ∧ HasComposite lib quality c s tile
  lastModified : handle.found = true → handle.lastModified =
    max (underStorage.get s.1 (c.underTile tile)).lastModified
      (overStorage.get s.2 (c.overTile tile)).lastModified
  expired : handle.found = true → handle.expired =
    ((underStorage.get s.1 (c.underTile tile)).expired ||
      (overStorage.get s.2 (c.overTile tile)).expired)

/-! ## What it gets -/

theorem getFormatFor_single {fileType : String} (h : getFormatFor fileType ≠ fmtNone) :
    getFormatFor fileType ∈ singleFormats := by
  unfold getFormatFor at h ⊢
  by_cases hjson : fileType = "json"
  · rw [if_pos hjson]
    decide
  by_cases hpng : fileType = "png"
  · rw [if_neg hjson, if_pos hpng]
    decide
  by_cases hjpeg : fileType = "jpeg"
  · rw [if_neg hjson, if_neg hpng, if_pos hjpeg]
    decide
  by_cases hgif : fileType = "gif"
  · rw [if_neg hjson, if_neg hpng, if_neg hjpeg, if_pos hgif]
    decide
  · rw [if_neg hjson, if_neg hpng, if_neg hjpeg, if_neg hgif] at h
    exact absurd rfl h

/-- Both layers have one format each. -/
theorem formats_of_construct (h : p.construct lib = .ok c) :
    c.underFormat ∈ singleFormats ∧ c.overFormat ∈ singleFormats := by
  unfold CompositingProperties.construct at h
  split at h
  · cases h
  · cases h
  · split at h
    · cases h
    · next hunder =>
      split at h
      · cases h
      · next hover =>
        split at h
        · cases h
        · obtain rfl := Except.ok.inj h
          exact ⟨getFormatFor_single hunder, getFormatFor_single hover⟩

/-- The layers are composed by the library. -/
theorem composite_of_construct (h : p.construct lib = .ok c) :
    c.composite = fun underData underFmt overData overFmt resultFmt =>
      (lib.composite p.jpegQuality underData underFmt overData overFmt resultFmt).toOption.join := by
  unfold CompositingProperties.construct at h
  split at h
  · cases h
  · cases h
  · split at h
    · cases h
    · split at h
      · cases h
      · split at h
        · cases h
        · rw [← Except.ok.inj h]

/-- What is got of a storage that was set up, where nothing fails. -/
theorem get_of_tryGet (hconstruct : p.construct lib = .ok c) {handle : TileHandle}
    (h : tryGet lib p.jpegQuality c s tile = .ok handle) : get c s tile = handle := by
  have hcomposite := composite_of_construct hconstruct
  unfold tryGet at h
  unfold get resultData
  rw [hcomposite]
  split at h
  · next hcannot =>
    rw [if_pos hcannot]
    exact Except.ok.inj h
  · next hcan =>
    rw [if_neg hcan]
    dsimp only at h ⊢
    split at h
    · next hunder =>
      rw [if_pos hunder]
      split at h
      · next hover =>
        rw [if_pos hover]
        split at h
        · next underData overData hunderData hoverData =>
          rw [hunderData, hoverData, Option.bind_some, Option.bind_some]
          split at h
          · cases h
          · next data hdata =>
            rw [hdata]
            exact Except.ok.inj h
          · next hdata =>
            rw [hdata]
            exact Except.ok.inj h
        · next hnone =>
          obtain rfl := Except.ok.inj h
          cases hunderData : (underStorage.get s.1 (c.underTile tile)).data with
          | none => rfl
          | some underData =>
            cases hoverData : (overStorage.get s.2 (c.overTile tile)).data with
            | none => rfl
            | some overData => exact (hnone underData overData hunderData hoverData).elim
      · next hover =>
        rw [if_neg hover]
        exact Except.ok.inj h
    · next hunder =>
      rw [if_neg hunder]
      exact Except.ok.inj h

/-- An image is read, or is none, in every format but one. -/
theorem create_of_single {fmt : ProtoFmt} (hsingle : fmt ∈ singleFormats) (hjson : fmt ≠ fmtJSON)
    (data : Bytes) : ∃ image?, lib.create data fmt = .ok image? := by
  simp only [singleFormats, List.mem_cons, List.not_mem_nil, or_false] at hsingle
  rcases hsingle with rfl | rfl | rfl | rfl
  · exact ⟨_, rfl⟩
  · exact ⟨_, rfl⟩
  · exact ⟨_, rfl⟩
  · exact absurd rfl hjson

theorem create_json (data : Bytes) : lib.create data fmtJSON = .error .uninitialised := rfl

/-- What can be composed is, and nothing else. -/
theorem composite_of_create {quality : Int} {fmt : ProtoFmt} {underData overData : Bytes}
    {underImage? overImage? : Option lib.Image}
    (hunder : lib.create underData c.underFormat = .ok underImage?)
    (hover : lib.create overData c.overFormat = .ok overImage?) :
    ∃ data?, lib.composite quality underData c.underFormat overData c.overFormat fmt = .ok data? ∧
      (data?.isSome = true ↔ Composes lib quality c fmt underData overData) := by
  unfold ImageLibrary.composite Composes
  rw [hunder, hover]
  cases underImage? with
  | none =>
    refine ⟨none, ?_, by simp⟩
    cases overImage? with
    | none => rfl
    | some overImage => rfl
  | some underImage =>
    cases overImage? with
    | none => exact ⟨none, rfl, by simp⟩
    | some overImage =>
      dsimp only
      split
      · next hsize =>
        refine ⟨none, rfl, iff_of_false Bool.false_ne_true ?_⟩
        rintro ⟨underImage', overImage', _, hunder', hover', hwidth, hheight, _⟩
        obtain rfl := Option.some.inj (Except.ok.inj hunder')
        obtain rfl := Option.some.inj (Except.ok.inj hover')
        exact hsize.elim (absurd hwidth) (absurd hheight)
      · next hsize =>
        obtain ⟨hwidth, hheight⟩ := not_or.mp hsize
        refine ⟨_, rfl, ?_⟩
        cases hsave : lib.save quality (lib.merge underImage overImage) fmt with
        | ok data =>
          exact iff_of_true rfl ⟨underImage, overImage, data, rfl, rfl, not_not.mp hwidth,
            not_not.mp hheight, hsave⟩
        | error message =>
          refine iff_of_false Bool.false_ne_true ?_
          rintro ⟨underImage', overImage', _, hunder', hover', _, _, hsave'⟩
          obtain rfl := Option.some.inj (Except.ok.inj hunder')
          obtain rfl := Option.some.inj (Except.ok.inj hover')
          exact absurd (hsave.symm.trans hsave') (by simp)

/-- Where a layer is JSON, there is no telling. -/
theorem composite_json {quality : Int} {fmt : ProtoFmt} {underData overData : Bytes}
    (hunder : c.underFormat ∈ singleFormats)
    (h : ¬ (c.underFormat ≠ fmtJSON ∧ c.overFormat ≠ fmtJSON)) :
    lib.composite quality underData c.underFormat overData c.overFormat fmt =
      .error .uninitialised := by
  unfold ImageLibrary.composite
  by_cases hjson : c.underFormat = fmtJSON
  · rw [hjson, create_json]
  · have hover : c.overFormat = fmtJSON := not_not.mp fun hover => h ⟨hjson, hover⟩
    have hsingle : ∃ image?, lib.create underData c.underFormat = .ok image? :=
      create_of_single hunder hjson underData
    obtain ⟨image?, himage⟩ := hsingle
    rw [himage, hover, create_json]

theorem tryGet_of_not_subset {quality : Int} (h : ¬ IsSubset c.generateFormat tile.format) :
    tryGet lib quality c s tile = .ok nullHandle := by
  have hcannot : c.canGenerateFormats tile.format = false := by
    unfold CompositingConfig.canGenerateFormats
    rw [BitVec.and_comm]
    exact decide_eq_false h
  unfold tryGet
  rw [hcannot]
  rfl

theorem canGenerate_of_subset (h : IsSubset c.generateFormat tile.format) :
    c.canGenerateFormats tile.format = true := by
  unfold CompositingConfig.canGenerateFormats
  rw [BitVec.and_comm]
  exact decide_eq_true h

theorem tryGet_of_not_layers {quality : Int} (hsubset : IsSubset c.generateFormat tile.format)
    (h : ¬ ∃ underData overData, HasLayers c s tile underData overData) :
    ∃ handle, tryGet lib quality c s tile = .ok handle ∧ handle.found = false := by
  unfold tryGet
  have hcan : ¬ (!c.canGenerateFormats tile.format) = true := by simp [canGenerate_of_subset hsubset]
  rw [if_neg hcan]
  dsimp only
  split
  · next hunder =>
    split
    · next hover =>
      split
      · next underData overData hunderData hoverData =>
        exact absurd ⟨underData, overData, hunder, hunderData, hover, hoverData⟩ h
      · exact ⟨nullHandle, rfl, rfl⟩
    · next hover => exact ⟨_, rfl, Bool.eq_false_iff.mpr hover⟩
  · next hunder => exact ⟨_, rfl, Bool.eq_false_iff.mpr hunder⟩

theorem tryGet_of_layers {quality : Int} (hsubset : IsSubset c.generateFormat tile.format)
    {underData overData : Bytes} (h : HasLayers c s tile underData overData) :
    tryGet lib quality c s tile =
      (lib.composite quality underData c.underFormat overData c.overFormat tile.format).map
        fun data? =>
          match data? with
          | some data =>
            { found := true
              lastModified := max (underStorage.get s.1 (c.underTile tile)).lastModified
                (overStorage.get s.2 (c.overTile tile)).lastModified
              expired := (underStorage.get s.1 (c.underTile tile)).expired ||
                (overStorage.get s.2 (c.overTile tile)).expired
              data := some data }
          | none => nullHandle := by
  obtain ⟨hunder, hunderData, hover, hoverData⟩ := h
  unfold tryGet
  rw [canGenerate_of_subset hsubset]
  simp only [hunder, hunderData, hover, hoverData, Bool.not_true, Bool.false_eq_true, if_false, if_true]
  cases lib.composite quality underData c.underFormat overData c.overFormat tile.format with
  | error failure => rfl
  | ok data? =>
    cases data? with
    | none => rfl
    | some data => rfl

theorem HasComposite.layers {quality : Int} (h : HasComposite lib quality c s tile) :
    ∃ underData overData, HasLayers c s tile underData overData := by
  obtain ⟨underData, overData, hlayers, -⟩ := h
  exact ⟨underData, overData, hlayers⟩

theorem hasComposite_iff {quality : Int} {underData overData : Bytes}
    (h : HasLayers c s tile underData overData) :
    HasComposite lib quality c s tile ↔ Composes lib quality c tile.format underData overData := by
  constructor
  · rintro ⟨underData', overData', hlayers, hcomposes⟩
    obtain rfl := Option.some.inj (h.2.1.symm.trans hlayers.2.1)
    obtain rfl := Option.some.inj (h.2.2.2.symm.trans hlayers.2.2.2)
    exact hcomposes
  · exact fun hcomposes => ⟨underData, overData, h, hcomposes⟩

/-- What `tryGet` gets is what it should, if it gets anything at all. -/
def TriesRight (lib : ImageLibrary) (quality : Int) (c : CompositingConfig)
    (s : State underStorage overStorage) (tile : TileProtocol) : Prop :=
  ∃ handle, tryGet lib quality c s tile = .ok handle ∧ GetsComposite lib quality c s tile handle

theorem triesRight_of_ok {quality : Int} {handle : TileHandle}
    (h : tryGet lib quality c s tile = .ok handle) :
    TriesRight lib quality c s tile ↔ GetsComposite lib quality c s tile handle := by
  constructor
  · rintro ⟨handle', hget, hright⟩
    obtain rfl := Except.ok.inj (h.symm.trans hget)
    exact hright
  · exact fun hright => ⟨handle, h, hright⟩

theorem getsComposite_of_not_found {quality : Int} {handle : TileHandle} (h : handle.found = false) :
    GetsComposite lib quality c s tile handle ↔
      ¬ (IsSubset tile.format c.generateFormat ∧ HasComposite lib quality c s tile) := by
  have hnot : ¬ handle.found = true := Bool.eq_false_iff.mp h
  constructor
  · exact fun hright hwanted => hnot (hright.found.mpr hwanted)
  · exact fun hunwanted => ⟨iff_of_false hnot hunwanted, fun hfound => absurd hfound hnot,
      fun hfound => absurd hfound hnot⟩

/-- Where both layers have the tile, and its formats include those that are generated. -/
theorem triesRight_of_layers (hsingle : c.underFormat ∈ singleFormats ∧ c.overFormat ∈ singleFormats)
    {quality : Int} (hsubset : IsSubset c.generateFormat tile.format) {underData overData : Bytes}
    (h : HasLayers c s tile underData overData) :
    TriesRight lib quality c s tile ↔
      (HasComposite lib quality c s tile → IsSubset tile.format c.generateFormat) ∧
        c.underFormat ≠ fmtJSON ∧ c.overFormat ≠ fmtJSON := by
  have hget := @tryGet_of_layers lib c _ _ s tile quality hsubset underData overData h
  by_cases hread : c.underFormat ≠ fmtJSON ∧ c.overFormat ≠ fmtJSON
  · rw [and_iff_left hread]
    obtain ⟨underImage?, hunder⟩ := @create_of_single lib _ hsingle.1 hread.1 underData
    obtain ⟨overImage?, hover⟩ := @create_of_single lib _ hsingle.2 hread.2 overData
    obtain ⟨data?, hcomposite, hcomposes⟩ :=
      @composite_of_create lib c quality tile.format _ _ _ _ hunder hover
    rw [← hasComposite_iff h] at hcomposes
    rw [hcomposite] at hget
    cases data? with
    | none =>
      have hnone : ¬ HasComposite lib quality c s tile := mt hcomposes.mpr Bool.false_ne_true
      rw [triesRight_of_ok hget, getsComposite_of_not_found rfl]
      exact iff_of_true (fun hwanted => hnone hwanted.2) fun hcomposite => absurd hcomposite hnone
    | some data =>
      have hsome : HasComposite lib quality c s tile := hcomposes.mp rfl
      rw [triesRight_of_ok hget, forall_prop_of_true hsome]
      constructor
      · exact fun hright => (hright.found.mp rfl).1
      · exact fun hwanted => ⟨iff_of_true rfl ⟨hwanted, hsome⟩, fun _ => rfl, fun _ => rfl⟩
  · rw [composite_json hsingle.1 hread] at hget
    refine iff_of_false ?_ fun hright => hread hright.2
    rintro ⟨handle, hok, -⟩
    exact absurd (hget.symm.trans hok) (by simp [Except.map])

/-- **What the compositing storage gets.** It gets the tiles that it should exactly if the formats that
are asked for are among those that are generated just when these are all asked for, or there is no
composite; and no layer is read as JSON.

The two layers are any storages in any state, and the image library is an argument, which may fail to
decode, to composite and to encode. The storage is one that could be made. What it does with `get_meta`
and `put_meta` is not part of this. -/
theorem getsComposite_iff (hconstruct : p.construct lib = .ok c)
    (s : State underStorage overStorage) (tile : TileProtocol) :
    (∃ handle, tryGet lib p.jpegQuality c s tile = .ok handle ∧
        GetsComposite lib p.jpegQuality c s tile handle) ↔
      (HasComposite lib p.jpegQuality c s tile →
        (IsSubset tile.format c.generateFormat ↔ IsSubset c.generateFormat tile.format)) ∧
      (IsSubset c.generateFormat tile.format →
        (∃ underData overData, HasLayers c s tile underData overData) →
          c.underFormat ≠ fmtJSON ∧ c.overFormat ≠ fmtJSON) := by
  change TriesRight lib p.jpegQuality c s tile ↔ _
  by_cases hsubset : IsSubset c.generateFormat tile.format
  · rw [iff_true_right hsubset, forall_prop_of_true hsubset]
    by_cases hlayers : ∃ underData overData, HasLayers c s tile underData overData
    · rw [imp_iff_right hlayers]
      obtain ⟨underData, overData, hhas⟩ := hlayers
      exact triesRight_of_layers (formats_of_construct hconstruct) hsubset hhas
    · obtain ⟨handle, hget, hfound⟩ :=
        @tryGet_of_not_layers lib c _ _ s tile p.jpegQuality hsubset hlayers
      have hnone : ¬ HasComposite lib p.jpegQuality c s tile := mt HasComposite.layers hlayers
      rw [triesRight_of_ok hget, getsComposite_of_not_found hfound]
      refine iff_of_true (fun hwanted => hnone hwanted.2) ⟨fun h => absurd h hnone, ?_⟩
      exact fun h => absurd h hlayers
  · rw [triesRight_of_ok (tryGet_of_not_subset hsubset), getsComposite_of_not_found rfl]
    rw [iff_false_right hsubset, forall_prop_of_false hsubset]
    tauto

/-- Images that are their own texts, all of one size. -/
def textImages : ImageLibrary where
  Image := Bytes
  fromPng := some
  fromJpeg := some
  fromGif := some
  width _ := 256
  height _ := 256
  merge := List.append
  toPng := some
  toJpeg image _ := some image
  toGif := some

/-- Labels on satellite images, of which JPEG and PNG can be generated. -/
def hybridProperties : CompositingProperties where
  underFormat := some "jpeg"
  overFormat := some "png"
  jpeg := true
  png := true

/-- A tile in one of two formats that are generated is not there. -/
theorem one_format_is_not_found :
    ¬ ∀ (lib : ImageLibrary) (p : CompositingProperties) (c : CompositingConfig),
      p.construct lib = .ok c → ∀ (underStorage overStorage : SubStorage)
        (s : State underStorage overStorage) (tile : TileProtocol),
          ∃ handle, tryGet lib p.jpegQuality c s tile = .ok handle ∧
            GetsComposite lib p.jpegQuality c s tile handle := by
  intro h
  let tile : TileProtocol := { style := "hyb", format := fmtPNG }
  let s : State (markingStorage [1]) (markingStorage [2]) :=
    (([] : List TileProtocol), ([] : List TileProtocol))
  obtain ⟨handle, hget, hright⟩ := h textImages hybridProperties _ rfl _ _ s tile
  obtain rfl := Except.ok.inj (hget.symm.trans (tryGet_of_not_subset (by decide)))
  refine absurd (hright.found.mpr ⟨by decide, [1], [2], ⟨rfl, rfl, rfl, rfl⟩, ?_⟩) Bool.false_ne_true
  exact ⟨([1] : Bytes), ([2] : Bytes), [1, 2], rfl, rfl, rfl, rfl, rfl⟩

/-- Where one format is generated, its tiles are there. -/
theorem getsComposite_hybrid : ∃ c, { hybridProperties with png := false }.construct textImages = .ok c ∧
    ∀ s : State (markingStorage [1]) (markingStorage [2]),
      ∃ handle, tryGet textImages 80 c s { style := "hyb", format := fmtJPEG } = .ok handle ∧
        GetsComposite textImages 80 c s { style := "hyb", format := fmtJPEG } handle := by
  refine ⟨_, rfl, fun s => ?_⟩
  have hiff := @getsComposite_iff textImages { hybridProperties with png := false } _ _ _ rfl s
    { style := "hyb", format := fmtJPEG }
  exact hiff.mpr ⟨fun _ => by decide, fun _ _ => by decide⟩

end CompositingStorage

end RenderMq
