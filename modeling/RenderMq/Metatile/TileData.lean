import RenderMq.Metatile.Ranges
import RenderMq.Metatile.WellFormed

/-!
# Tile data after the headers

A metatile does not say how many headers it has. `read_headers` and `metatile_reader` stop at the first
block that does not look like one, and the tiles begin there, with whatever bytes they have.

`readsAsWritten_iff` says for which formats and which tiles the two still read what `write_headers`
wrote, and nothing else. Every format has to be one of the mask. The first block of the tiles must not
look like a header, and where the reader would go on among the tiles, it must find nothing to read
(`Unmistakable`). Tiles that do not start with the magic are such tiles (`unmistakable_of_quiet`).
-/

namespace RenderMq

/-! ## Empty ranges -/

namespace MetatileReader

/-- There is nothing between the two pointers, at any position. -/
def Blank (r : MetatileReader) : Prop := ∀ x y, (r.range x y).1 = (r.range x y).2

/-- An entry that is read as an empty range of a buffer of some length: it has no size, or does not
pass for an entry of the buffer. -/
def BlankEntry (length : Nat) (e : Entry) : Prop := e.size = 0#32 ∨ length < e.sum.toNat

/-- Every position of a metatile is that of some tile. -/
theorem tileIndex_surjective (i : Fin 64) : ∃ x y : Int, tileIndex x y = i := by
  refine ⟨(i % 8 : Nat), (i / 8 : Nat), Fin.ext ?_⟩
  have hlt := i.isLt
  simp only [tileIndex, xyzToMetaOffset, METATILE]
  omega

/-- **When a reader has nothing to read.** -/
theorem blank_iff (r : MetatileReader) :
    r.Blank ↔ ∀ h, r.header = some h → ∀ i, BlankEntry r.data.length (h.index.get i) := by
  unfold Blank range
  cases hheader : r.header with
  | none =>
    refine iff_of_true (fun _ _ => rfl) ?_
    intro h hh
    cases hh
  | some h =>
    simp only [Option.some.injEq, forall_eq']
    have hentry : ∀ e : Entry, ((if e.sum.toNat ≤ r.data.length then
        ((e.offset.signExtend 64).toNat, e.sum.toNat) else (r.data.length, r.data.length)).1 =
        (if e.sum.toNat ≤ r.data.length then
        ((e.offset.signExtend 64).toNat, e.sum.toNat) else (r.data.length, r.data.length)).2) ↔
        BlankEntry r.data.length e := by
      intro e
      by_cases hpass : e.sum.toNat ≤ r.data.length
      · rw [if_pos hpass]
        have hfail : ¬ r.data.length < e.sum.toNat := not_lt_of_ge hpass
        exact (Entry.start_eq_end_iff e).trans (or_iff_left hfail).symm
      · rw [if_neg hpass]
        exact iff_of_true rfl (.inr (lt_of_not_ge hpass))
    constructor
    · intro hall i
      obtain ⟨x, y, rfl⟩ := tileIndex_surjective i
      exact (hentry _).mp (hall x y)
    · intro hall x y
      exact (hentry _).mpr (hall (tileIndex x y))

end MetatileReader

/-! ## Reading exactly what was written -/

/-- The scan finds the headers that were written, and the reader finds nothing in any other
format. -/
structure ReadsAsWritten (formats : List ProtoFmt) (headers : List MetaLayout) (buf : Bytes) :
    Prop where
  headers : readHeaders buf fmtAll = headers
  others : ∀ fmt, fmt ∉ formats → (metatileReader buf fmt).Blank

/-- What has to hold of the formats, and of the tiles behind the headers, for the headers to be told
from the tiles. -/
structure Unmistakable (formats : List ProtoFmt) (tiles : Bytes) : Prop where
  masked : ∀ fmt ∈ formats, fmt &&& fmtAll ≠ 0#32
  first : ∀ h ∈ (headerBlocks tiles).head?, h.looksLike fmtAll = false
  others : ∀ fmt, fmt ∉ formats → ∀ h, HeaderOf fmt (headerBlocks tiles) h →
    ∀ i, MetatileReader.BlankEntry (formats.length * headerSize + tiles.length) (h.index.get i)

/-- The elements in front are all that a condition takes, when they meet it and the next does not. -/
theorem takeWhile_append_eq_iff {α : Type} {p : α → Bool} {front rest : List α} :
    (front ++ rest).takeWhile p = front ↔
      (∀ a ∈ front, p a = true) ∧ ∀ a ∈ rest.head?, p a = false := by
  constructor
  · intro htake
    have hfront : ∀ a ∈ front, p a = true := fun a ha => by
      rw [← htake] at ha
      exact List.mem_takeWhile_imp ha
    refine ⟨hfront, fun a ha => ?_⟩
    rw [List.takeWhile_append_of_pos hfront, List.append_right_eq_self] at htake
    cases rest with
    | nil => cases ha
    | cons b rest =>
      obtain rfl : b = a := by simpa using ha
      rw [List.takeWhile_cons] at htake
      cases hp : p b with
      | false => rfl
      | true => simp [hp] at htake
  · rintro ⟨hfront, hrest⟩
    rw [List.takeWhile_append_of_pos hfront]
    cases rest with
    | nil => simp
    | cons b rest => simp [hrest b (by simp)]

section Written

variable {x y z : Int} {formats : List ProtoFmt} {bodies : List Bytes}

/-- The scan over what was written. -/
theorem readHeaders_written_iff :
    readHeaders (written x y z formats bodies) fmtAll = headersOf x y z formats (sizesOf bodies) ↔
      (∀ fmt ∈ formats, fmt &&& fmtAll ≠ 0#32) ∧
        ∀ h ∈ (headerBlocks bodies.flatten).head?, h.looksLike fmtAll = false := by
  rw [readHeaders, headerBlocks_written, takeWhile_append_eq_iff]
  refine and_congr_left fun _ => ?_
  have hlooks : ∀ h ∈ headersOf x y z formats (sizesOf bodies),
      (h.looksLike fmtAll = true ↔ h.fmt &&& fmtAll ≠ 0#32) := by
    intro h hmem
    simp [MetaLayout.looksLike, (magicOk_headersOf hmem).1]
  constructor
  · intro hall fmt hfmt
    rw [← headersOf_fmt x y z formats (sizesOf bodies)] at hfmt
    obtain ⟨h, hmem, rfl⟩ := List.mem_map.mp hfmt
    exact (hlooks h hmem).mp (hall h hmem)
  · intro hall h hmem
    exact (hlooks h hmem).mpr (hall h.fmt (fmt_of_mem_headersOf hmem))

theorem blank_written_iff {fmt : ProtoFmt} (hfmt : fmt ∉ formats) :
    (metatileReader (written x y z formats bodies) fmt).Blank ↔
      ∀ h, HeaderOf fmt (headerBlocks bodies.flatten) h → ∀ i, MetatileReader.BlankEntry
        (formats.length * headerSize + bodies.flatten.length) (h.index.get i) := by
  rw [MetatileReader.blank_iff, metatileReader_written_other hfmt]
  simp only [findHeader_eq_some_iff]
  rw [← length_written]
  rfl

end Written

/-- Tiles that do not start like a header are never taken for one, whatever follows. -/
theorem unmistakable_of_quiet {formats : List ProtoFmt} {tiles : Bytes}
    (masked : ∀ fmt ∈ formats, fmt &&& fmtAll ≠ 0#32) (quiet : Quiet tiles) :
    Unmistakable formats tiles := by
  refine ⟨masked, fun h hmem => ?_, fun fmt _ h hheader => ?_⟩
  · simp [MetaLayout.looksLike, quiet h hmem]
  · have hfound := findHeader_eq_some_iff.mpr hheader
    rw [findHeader_quiet quiet] at hfound
    cases hfound

/-- **Headers and tiles.** What `write_headers` made, with the tiles behind it, is read as it was
written exactly when the formats and the tiles cannot be mistaken.

The formats and the tiles are any for which `write_headers` makes something at all. The condition is
about the formats themselves and the bytes that follow the headers; how the tiles are found by the
entries is not part of this. -/
theorem readsAsWritten_iff {x y z : Int} {formats : List ProtoFmt} {bodies : List Bytes}
    {headers : Bytes} (hwrite : writeHeaders x y z formats (sizesOf bodies) = .ok headers) :
    ReadsAsWritten formats (headersOf x y z formats (sizesOf bodies)) (headers ++ bodies.flatten) ↔
      Unmistakable formats bodies.flatten := by
  have hheaders : headers ++ bodies.flatten = written x y z formats bodies := by
    unfold writeHeaders at hwrite
    split at hwrite
    · cases hwrite
    · rw [← Except.ok.inj hwrite]
      rfl
  rw [hheaders]
  constructor
  · rintro ⟨hscan, hothers⟩
    obtain ⟨hmasked, hfirst⟩ := readHeaders_written_iff.mp hscan
    exact ⟨hmasked, hfirst, fun fmt hfmt => (blank_written_iff hfmt).mp (hothers fmt hfmt)⟩
  · rintro ⟨hmasked, hfirst, hothers⟩
    refine ⟨readHeaders_written_iff.mpr ⟨hmasked, hfirst⟩, fun fmt hfmt => ?_⟩
    exact (blank_written_iff hfmt).mpr (hothers fmt hfmt)

/-- A metatile of one small tile. -/
def oneTile : List Bytes := [0x7B, 0x7D] :: List.replicate 63 []

theorem oneTile_readsAsWritten :
    ∃ headers, writeHeaders 0 0 0 [fmtJSON] (sizesOf oneTile) = .ok headers ∧
      ReadsAsWritten [fmtJSON] (headersOf 0 0 0 [fmtJSON] (sizesOf oneTile))
        (headers ++ oneTile.flatten) := by
  have hwrite : writeHeaders 0 0 0 [fmtJSON] (sizesOf oneTile) =
      .ok ((headersOf 0 0 0 [fmtJSON] (sizesOf oneTile)).flatMap MetaLayout.encode) :=
    writeHeaders_ok rfl
  refine ⟨_, hwrite, (readsAsWritten_iff hwrite).mpr (unmistakable_of_quiet ?_ ?_)⟩
  · intro fmt hfmt
    rw [List.mem_singleton.mp hfmt]
    exact looksLike_fmtAll (show fmtJSON ∈ singleFormats by decide)
  · exact quiet_of_short (by simp [oneTile, headerSize])

/-- A metatile whose first tile has the bytes of a header. -/
def headerAsTile : List Bytes := startsBefore.encode :: List.replicate 63 []

/-- A tile that looks like a header is taken for one. -/
theorem headerAsTile_mistaken :
    ¬ ∀ (x y z : Int) (formats : List ProtoFmt) (bodies : List Bytes) (headers : Bytes),
      writeHeaders x y z formats (sizesOf bodies) = .ok headers →
        ReadsAsWritten formats (headersOf x y z formats (sizesOf bodies))
          (headers ++ bodies.flatten) := by
  intro hall
  have hwrite : writeHeaders 0 0 0 [fmtJSON] (sizesOf headerAsTile) =
      .ok ((headersOf 0 0 0 [fmtJSON] (sizesOf headerAsTile)).flatMap MetaLayout.encode) :=
    writeHeaders_ok rfl
  have hscan := (hall 0 0 0 [fmtJSON] headerAsTile _ hwrite).headers
  have hfirst := (readHeaders_written_iff.mp hscan).2 startsBefore
  have htiles : headerAsTile.flatten = startsBefore.encode ++ [] := rfl
  rw [htiles, headerBlocks_encode] at hfirst
  have hlooks : startsBefore.looksLike fmtAll = true := by decide
  rw [hfirst rfl] at hlooks
  cases hlooks

end RenderMq
