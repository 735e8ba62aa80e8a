import RenderMq.Metatile.Writer
import Mathlib.Data.List.Nodup

/-!
# Well-formed metatiles

A buffer is a metatile of a zoom level (`WellFormed`) when the scan for headers finds one for each of
some formats, every entry lies in the buffer, and exactly the positions inside the grid have a tile:
below zoom 3 the world is smaller than a metatile.

`storedBody` is what such a buffer holds at a position in a format, by its headers. It is the
specification that readers are measured by: `WellFormed.get` for `metatile_reader`.

`MetatileFor` is the metatile that a worker owes for a job, with exactly the formats of the job.
-/

namespace RenderMq

open Words

/-! ## The grid -/

/-- Whether a position of a metatile is in the grid at a zoom level. Position `i` is column `i % 8`
of row `i / 8`. -/
def inGrid (z : Int) (i : Fin 64) : Bool :=
  decide (((i % 8 : Nat) : Int) < getMetaDimensions z) &&
    decide (((i / 8 : Nat) : Int) < getMetaDimensions z)

theorem tileIndex_col (x y : Int) : (((tileIndex x y : Nat) % 8 : Nat) : Int) = x % METATILE := by
  simp only [tileIndex, xyzToMetaOffset, METATILE]
  omega

theorem tileIndex_row (x y : Int) : (((tileIndex x y : Nat) / 8 : Nat) : Int) = y % METATILE := by
  simp only [tileIndex, xyzToMetaOffset, METATILE]
  omega

/-- A tile of the world stands at a position of the grid. -/
theorem inGrid_of_world {x y z : Int} (hz : 0 ≤ z ∧ z ≤ 30) (hx : 0 ≤ x ∧ x < 2 ^ z.toNat)
    (hy : 0 ≤ y ∧ y < 2 ^ z.toNat) : inGrid z (tileIndex x y) = true := by
  have hdim := getMetaDimensions_eq hz.1 hz.2
  have below : ∀ v : Int, 0 ≤ v ∧ v < 2 ^ z.toNat → v % METATILE < getMetaDimensions z := by
    intro v hv
    have h8 : v % METATILE < METATILE := Int.emod_lt_of_pos v (by decide)
    have hle : v % METATILE ≤ v := by
      unfold METATILE
      omega
    rw [hdim]
    exact lt_min (lt_of_le_of_lt hle hv.2) h8
  rw [inGrid, tileIndex_col, tileIndex_row]
  simp [below x hx, below y hy]

/-! ## Well-formed buffers -/

/-- The header of a format, as the scan finds it. -/
def headerFor (buf : Bytes) (fmt : ProtoFmt) : Option MetaLayout :=
  (readHeaders buf fmtAll).find? fun h => decide (h.fmt = fmt)

/-- What a buffer holds at a position in a format. -/
def storedBody (buf : Bytes) (fmt : ProtoFmt) (i : Fin 64) : Option Bytes :=
  (headerFor buf fmt).map fun h => (h.index.get i).bytes buf

/-- The formats that the scan finds. -/
def formatsOf (buf : Bytes) : List ProtoFmt := (readHeaders buf fmtAll).map MetaLayout.fmt

structure WellFormed (z : Int) (buf : Bytes) : Prop where
  distinct : (formatsOf buf).Nodup
  single : ∀ fmt ∈ formatsOf buf, fmt ∈ singleFormats
  count : ∀ h ∈ readHeaders buf fmtAll, h.count = 64#32
  inBounds : ∀ h ∈ readHeaders buf fmtAll, ∀ i, (h.index.get i).InBounds buf
  inside : ∀ h ∈ readHeaders buf fmtAll, ∀ i, (h.index.get i).size ≠ 0#32 ↔ inGrid z i = true

theorem headerFor_of_mem {buf : Bytes} (distinct : (formatsOf buf).Nodup) {h : MetaLayout}
    (hmem : h ∈ readHeaders buf fmtAll) : headerFor buf h.fmt = some h := by
  cases hfind : headerFor buf h.fmt with
  | none =>
    have := List.find?_eq_none.mp hfind h hmem
    simp at this
  | some g =>
    have hg : g ∈ readHeaders buf fmtAll := List.mem_of_find?_eq_some hfind
    have hfmt : g.fmt = h.fmt := by simpa using List.find?_some hfind
    rw [List.inj_on_of_nodup_map distinct hg hmem hfmt]

/-- The reader hands out what is stored, which is empty outside the grid only. -/
theorem WellFormed.get {z : Int} {buf : Bytes} (wf : WellFormed z buf) {fmt : ProtoFmt}
    (hfmt : fmt ∈ formatsOf buf) (x y : Int) :
    ∃ body, storedBody buf fmt (tileIndex x y) = some body ∧
      (metatileReader buf fmt).get x y = some body ∧
      (body ≠ [] ↔ inGrid z (tileIndex x y) = true) := by
  obtain ⟨h, hmem, rfl⟩ := List.mem_map.mp hfmt
  have hbounds := wf.inBounds h hmem (tileIndex x y)
  refine ⟨(h.index.get (tileIndex x y)).bytes buf, ?_, ?_, ?_⟩
  · rw [storedBody, headerFor_of_mem wf.distinct hmem, Option.map_some]
  · exact MetatileReader.get_of_inBounds (metatileReader_of_mem wf.distinct hmem) hbounds
  · rw [bytes_ne_nil_iff hbounds, wf.inside h hmem]

/-! ## The metatile for a job -/

/-- What a worker returns for a job: a metatile in exactly the formats of the job. -/
structure MetatileFor (job : TileProtocol) (data : Bytes) : Prop extends WellFormed job.z data where
  formats : ∀ fmt, fmt ∈ formatsOf data ↔ fmt ∈ getFormatsVec job.format
  others : ∀ fmt, fmt ∉ getFormatsVec job.format → (metatileReader data fmt).header = none

/-- Whatever the format and position, the reader's range can be read. -/
theorem MetatileFor.readable {job : TileProtocol} {data : Bytes} (h : MetatileFor job data)
    (fmt : ProtoFmt) (x y : Int) : ((metatileReader data fmt).get x y).isSome := by
  by_cases hfmt : fmt ∈ getFormatsVec job.format
  · obtain ⟨body, _, hget, _⟩ := h.get ((h.formats fmt).mpr hfmt) x y
    rw [hget, Option.isSome_some]
  · rw [MetatileReader.get, h.others fmt hfmt, Option.isSome_some]

/-- In a format that the job does not have, there is nothing to read. -/
theorem MetatileFor.get_other {job : TileProtocol} {data : Bytes} (h : MetatileFor job data)
    {fmt : ProtoFmt} (hfmt : fmt ∉ getFormatsVec job.format) (x y : Int) :
    (metatileReader data fmt).get x y = some [] := by
  rw [MetatileReader.get, h.others fmt hfmt]

/-- The tiles that follow the headers do not look like one more header. -/
def Quiet (tiles : Bytes) : Prop := ∀ h ∈ (headerBlocks tiles).head?, h.magicOk = false

/-- What is too short for a header is quiet. -/
theorem quiet_of_short {tiles : Bytes} (short : tiles.length < headerSize) : Quiet tiles := by
  have hblocks : tiles.length / headerSize = 0 := Nat.div_eq_of_lt short
  simp [Quiet, headerBlocks, hblocks]

/-- What does not start with the magic is quiet. -/
theorem quiet_of_magic {tiles : Bytes} (magic : ¬ encode META_MAGIC <+: tiles) : Quiet tiles := by
  intro h hmem
  rw [← Bool.not_eq_true]
  intro hok
  obtain ⟨n, hn⟩ : ∃ n, tiles.length / headerSize = n + 1 := by
    refine Nat.exists_eq_succ_of_ne_zero fun hzero => ?_
    simp [headerBlocks, hzero] at hmem
  have hfirst : MetaLayout.readAt tiles 0 = h := by
    simpa [headerBlocks, hn, List.range_succ_eq_map] using hmem
  have hword : wordAt tiles 0 = META_MAGIC := by
    have := of_decide_eq_true hok
    rwa [← hfirst] at this
  have hlength : 4 ≤ tiles.length := by
    have := Nat.div_mul_le_self tiles.length headerSize
    rw [hn, headerSize] at this
    omega
  have hfront := encode_wordAt_prefix hlength
  rw [hword] at hfront
  exact magic hfront

/-- Zeros are quiet. -/
theorem quiet_replicate (n : Nat) : Quiet (List.replicate n 0) := by
  intro h hmem
  obtain ⟨k, _, rfl⟩ := List.mem_map.mp (List.mem_of_mem_head? hmem)
  have hbyte : ∀ pos, (List.replicate n (0 : UInt8)).getD pos 0 = 0 := by
    intro pos
    rw [List.getD_eq_getElem?_getD]
    exact List.getElem?_getD_replicate_default_eq 0 n pos
  simp only [MetaLayout.magicOk, MetaLayout.readAt, wordAt, hbyte]
  decide

theorem looksLike_fmtAll {fmt : ProtoFmt} (h : fmt ∈ singleFormats) : fmt &&& fmtAll ≠ 0#32 := by
  simp only [singleFormats, List.mem_cons, List.not_mem_nil, or_false] at h
  rcases h with rfl | rfl | rfl | rfl <;> decide

theorem readHeaders_quiet {tiles : Bytes} (quiet : Quiet tiles) (mask : ProtoFmt) :
    readHeaders tiles mask = [] := by
  rw [readHeaders]
  cases hblocks : headerBlocks tiles with
  | nil => rfl
  | cons h rest =>
    have hquiet : h.magicOk = false := quiet h (by simp [hblocks])
    simp [MetaLayout.looksLike, hquiet]

/-- The reader opens no header among tiles that do not start like one. -/
theorem findHeader_quiet {tiles : Bytes} (quiet : Quiet tiles) (fmt : ProtoFmt) :
    findHeader fmt (headerBlocks tiles) = none := by
  cases hblocks : headerBlocks tiles with
  | nil => rfl
  | cons h rest =>
    have hquiet : h.magicOk = false := quiet h (by simp [hblocks])
    simp [findHeader, hquiet]

theorem readHeaders_written {x y z : Int} {formats : List ProtoFmt} {bodies : List Bytes}
    (single : ∀ fmt ∈ formats, fmt ∈ singleFormats) (quiet : Quiet bodies.flatten) :
    readHeaders (written x y z formats bodies) fmtAll =
      headersOf x y z formats (sizesOf bodies) := by
  rw [written, readHeaders_encode, readHeaders_quiet quiet, List.append_nil]
  intro h hmem
  have hfmt : h.fmt ∈ formats := fmt_of_mem_headersOf hmem
  simp [MetaLayout.looksLike, looksLike_fmtAll (single _ hfmt), (magicOk_headersOf hmem).1]

/-- The reader of a format that was not written walks over the headers into the tiles. -/
theorem metatileReader_written_other {x y z : Int} {formats : List ProtoFmt} {bodies : List Bytes}
    {fmt : ProtoFmt} (hfmt : fmt ∉ formats) :
    (metatileReader (written x y z formats bodies) fmt).header =
      findHeader fmt (headerBlocks bodies.flatten) := by
  rw [metatileReader, headerBlocks_written, findHeader_append]
  · exact fun h hmem => (magicOk_headersOf hmem).1
  · rintro h hmem rfl
    exact hfmt (fmt_of_mem_headersOf hmem)

/-- **What is written is well formed.** Tiles at the positions of the grid, and nowhere else, make
the metatile for a job. -/
theorem metatileFor_written (job : TileProtocol) (x y z : Int) (bodies : List Bytes)
    (count : bodies.length = (getFormatsVec job.format).length * 64)
    (small : (written x y z (getFormatsVec job.format) bodies).length < 2 ^ 31)
    (filled : ∀ (n : Nat) (i : Fin 64) body, bodies[64 * n + i]? = some body →
      (body ≠ [] ↔ inGrid job.z i = true))
    (quiet : Quiet bodies.flatten) :
    MetatileFor job (written x y z (getFormatsVec job.format) bodies) := by
  have hsingle : ∀ fmt ∈ getFormatsVec job.format, fmt ∈ singleFormats :=
    fun fmt => getFormatsVec_subset
  have hscan := readHeaders_written (x := x) (y := y) (z := z) hsingle quiet
  have hformats : formatsOf (written x y z (getFormatsVec job.format) bodies) =
      getFormatsVec job.format := by
    rw [formatsOf, hscan, headersOf_fmt]
  have distinct : (formatsOf (written x y z (getFormatsVec job.format) bodies)).Nodup := by
    rw [hformats]
    exact getFormatsVec_nodup _
  -- a header of the scan is the one whose entries `written_entry` describes
  have hentry : ∀ h ∈ readHeaders (written x y z (getFormatsVec job.format) bodies) fmtAll,
      ∀ i : Fin 64, (h.index.get i).InBounds (written x y z (getFormatsVec job.format) bodies) ∧
        ∃ (n : Nat) (body : Bytes), bodies[64 * n + i]? = some body ∧
          (h.index.get i).bytes (written x y z (getFormatsVec job.format) bodies) = body := by
    intro h hmem i
    have hfmt : h.fmt ∈ getFormatsVec job.format := by
      rw [← hformats]
      exact List.mem_map_of_mem hmem
    obtain ⟨k, hk⟩ := List.getElem?_of_mem hfmt
    obtain ⟨g, hg, hgfmt, hbounds, hbytes⟩ := written_entry count small hk i
    rw [← hscan] at hg
    obtain rfl := List.inj_on_of_nodup_map distinct hg hmem hgfmt
    exact ⟨hbounds, k, _, hbytes.symm, rfl⟩
  refine
    { distinct := distinct
      single := ?_
      count := ?_
      inBounds := fun h hmem i => (hentry h hmem i).1
      inside := ?_
      formats := fun fmt => by rw [hformats]
      others := ?_ }
  · rw [hformats]
    exact hsingle
  · rw [hscan]
    exact fun h hmem => (magicOk_headersOf hmem).2
  · intro h hmem i
    obtain ⟨hbounds, n, body, hbody, hbytes⟩ := hentry h hmem i
    rw [← filled n i body hbody, ← hbytes, bytes_ne_nil_iff hbounds]
  · intro fmt hfmt
    rw [metatileReader_written_other hfmt, findHeader_quiet quiet]

/-! ## Metatiles in whatever formats -/

/-- A metatile in the formats that it has. Without any header it has none. -/
structure IsMetatile (z : Int) (data : Bytes) : Prop extends WellFormed z data where
  others : ∀ fmt, fmt ∉ formatsOf data → (metatileReader data fmt).header = none

theorem MetatileFor.isMetatile {job : TileProtocol} {data : Bytes} (h : MetatileFor job data) :
    IsMetatile job.z data :=
  ⟨h.toWellFormed, fun fmt hfmt => h.others fmt fun hjob => hfmt ((h.formats fmt).mpr hjob)⟩

/-- Data in which a reader finds no header: no data at all, or a tile's image. -/
def Headerless (data : Bytes) : Prop := ∀ fmt, (metatileReader data fmt).header = none

/-- It is so where the first block, if there is one, does not start with the magic. -/
theorem headerless_iff {data : Bytes} :
    Headerless data ↔ ∀ h ∈ (headerBlocks data).head?, h.magicOk = false := by
  unfold Headerless metatileReader
  cases headerBlocks data with
  | nil => simp [findHeader]
  | cons h rest =>
    simp only [List.head?_cons, Option.mem_some_iff, forall_eq']
    constructor
    · intro hnone
      simpa [findHeader] using hnone h.fmt
    · intro hmagic fmt
      simp [findHeader, hmagic]

/-- What has no header is a metatile without formats. -/
theorem Headerless.isMetatile {data : Bytes} (hnone : Headerless data) (z : Int) :
    IsMetatile z data := by
  have hscan : readHeaders data fmtAll = [] := by
    have hfirst := headerless_iff.mp hnone
    rw [readHeaders]
    cases hblocks : headerBlocks data with
    | nil => rfl
    | cons h rest =>
      have hmagic : h.magicOk = false := hfirst h (by rw [hblocks]; rfl)
      simp [MetaLayout.looksLike, hmagic]
  exact ⟨⟨by simp [formatsOf, hscan], by simp [formatsOf, hscan], by simp [hscan], by simp [hscan],
    by simp [hscan]⟩, fun fmt _ => hnone fmt⟩

/-- In a format that a metatile does not have, there is nothing to read. -/
theorem IsMetatile.get_other {z : Int} {data : Bytes} (h : IsMetatile z data) {fmt : ProtoFmt}
    (hfmt : fmt ∉ formatsOf data) (x y : Int) : (metatileReader data fmt).get x y = some [] := by
  rw [MetatileReader.get, h.others fmt hfmt]

/-- Whatever the format and position, the reader's range can be read. -/
theorem IsMetatile.readable {z : Int} {data : Bytes} (h : IsMetatile z data) (fmt : ProtoFmt)
    (x y : Int) : ((metatileReader data fmt).get x y).isSome := by
  by_cases hfmt : fmt ∈ formatsOf data
  · obtain ⟨body, _, hget, _⟩ := h.get hfmt x y
    rw [hget, Option.isSome_some]
  · rw [h.get_other hfmt, Option.isSome_some]

end RenderMq
