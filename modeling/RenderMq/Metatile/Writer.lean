import RenderMq.Metatile.Layout

/-!
# Writing a metatile

`write_headers` makes the headers of a metatile from the sizes of its tiles, 64 for each format in
the order of the formats; the tiles follow in the same order. Where a tile starts is kept in an
`int` that the sizes are added to.

`written_entry` is what the writer owes the reader: with fewer than 2^31 bytes in all, the entry of
each position points at exactly the tile that was put there.
-/

namespace RenderMq

/-! ## The headers -/

/-- Where each tile goes: the first at `offset`, each next after the one before. -/
def indexFrom (offset : BitVec 32) : List (BitVec 32) → List Entry
  | [] => []
  | size :: rest => ⟨offset, size⟩ :: indexFrom (offset + size) rest

/-- The header of the `k`-th format, with its 64 of the entries. -/
def headerOf (x y z : Int) (entries : List Entry) (fmt : ProtoFmt) (k : Nat) : MetaLayout where
  magic := META_MAGIC
  count := 64#32
  x := .ofInt 32 x
  y := .ofInt 32 y
  z := .ofInt 32 z
  fmt := fmt
  index := Vector.ofFn fun i => entries.getD (64 * k + i) ⟨0#32, 0#32⟩

/-- The headers of all formats; the first tile comes after them. -/
def headersOf (x y z : Int) (formats : List ProtoFmt) (sizes : List (BitVec 32)) :
    List MetaLayout :=
  let entries := indexFrom (.ofNat 32 (formats.length * headerSize)) sizes
  formats.zipIdx.map fun (fmt, k) => headerOf x y z entries fmt k

/-- `write_headers`; it throws when the sizes do not match the formats. -/
def writeHeaders (x y z : Int) (formats : List ProtoFmt) (sizes : List (BitVec 32)) :
    Except String Bytes :=
  if sizes.length ≠ formats.length * 64 then
    .error (s!"Received {sizes.length} tile sizes for metatile headers, " ++
      s!"{formats.length * 64} required")
  else .ok ((headersOf x y z formats sizes).flatMap MetaLayout.encode)

theorem headersOf_fmt (x y z : Int) (formats : List ProtoFmt) (sizes : List (BitVec 32)) :
    (headersOf x y z formats sizes).map MetaLayout.fmt = formats := by
  rw [headersOf, List.map_map]
  exact List.zipIdx_map_fst 0 formats

/-- A header is for one of the formats. -/
theorem fmt_of_mem_headersOf {x y z : Int} {formats : List ProtoFmt} {sizes : List (BitVec 32)}
    {h : MetaLayout} (hmem : h ∈ headersOf x y z formats sizes) : h.fmt ∈ formats := by
  rw [← headersOf_fmt x y z formats sizes]
  exact List.mem_map_of_mem hmem

theorem length_headersOf (x y z : Int) (formats : List ProtoFmt) (sizes : List (BitVec 32)) :
    (headersOf x y z formats sizes).length = formats.length := by
  rw [headersOf, List.length_map, List.length_zipIdx]

theorem length_flatMap_encode (hs : List MetaLayout) :
    (hs.flatMap MetaLayout.encode).length = hs.length * headerSize := by
  simp [List.length_flatMap]

theorem magicOk_headersOf {x y z : Int} {formats : List ProtoFmt} {sizes : List (BitVec 32)}
    {h : MetaLayout} (hmem : h ∈ headersOf x y z formats sizes) :
    h.magicOk = true ∧ h.count = 64#32 := by
  obtain ⟨⟨fmt, k⟩, _, rfl⟩ := List.mem_map.mp hmem
  exact ⟨rfl, rfl⟩

/-! ## The tiles -/

/-- The sizes that the writer is given for some tiles. -/
def sizesOf (bodies : List Bytes) : List (BitVec 32) := bodies.map fun b => .ofNat 32 b.length

theorem indexFrom_getElem? (bodies : List Bytes) (start n : Nat) (hn : n < bodies.length) :
    (indexFrom (.ofNat 32 start) (sizesOf bodies))[n]? =
      some ⟨.ofNat 32 (start + (bodies.take n).flatten.length), .ofNat 32 bodies[n].length⟩ := by
  induction bodies generalizing start n with
  | nil => cases hn
  | cons b bodies ih =>
    cases n with
    | zero => rfl
    | succ n =>
      have hoffset : BitVec.ofNat 32 start + BitVec.ofNat 32 b.length =
          BitVec.ofNat 32 (start + b.length) := (BitVec.ofNat_add ..).symm
      have := ih (start + b.length) n (Nat.lt_of_succ_lt_succ hn)
      simp only [sizesOf, List.map_cons, indexFrom, hoffset, List.getElem?_cons_succ,
        List.take_succ_cons, List.flatten_cons, List.length_append, List.getElem_cons_succ]
      rw [← Nat.add_assoc]
      exact this

/-- The tiles in a row, taken apart at one of them. -/
theorem flatten_split (bodies : List Bytes) (n : Nat) (hn : n < bodies.length) :
    bodies.flatten = (bodies.take n).flatten ++ (bodies[n] ++ (bodies.drop (n + 1)).flatten) := by
  rw [← List.flatten_cons, ← List.flatten_append, List.getElem_cons_drop,
    List.take_append_drop]

/-- An entry made of small numbers points where they say. -/
theorem entry_ofNat {buf : Bytes} {start size : Nat} (small : start + size < 2 ^ 31)
    (fits : start + size ≤ buf.length) :
    (Entry.mk (.ofNat 32 start) (.ofNat 32 size)).InBounds buf ∧
      (Entry.mk (.ofNat 32 start) (.ofNat 32 size)).bytes buf = (buf.drop start).take size := by
  have hnat : ∀ n, n < 2 ^ 31 → (BitVec.ofNat 32 n).toNat = n := by
    intro n hn
    rw [BitVec.toNat_ofNat, Nat.mod_eq_of_lt (by omega)]
  have hint : ∀ n, n < 2 ^ 31 → (BitVec.ofNat 32 n).toInt = n := by
    intro n hn
    rw [BitVec.toInt_eq_toNat_of_lt (by rw [hnat n hn]; omega), hnat n hn]
  constructor
  · simp only [Entry.InBounds, hint start (by omega), hint size (by omega)]
    omega
  · simp only [Entry.bytes, hnat start (by omega), hnat size (by omega)]

variable {x y z : Int} {formats : List ProtoFmt} {bodies : List Bytes}

/-- The metatile that the writer's headers and the tiles make. -/
def written (x y z : Int) (formats : List ProtoFmt) (bodies : List Bytes) : Bytes :=
  (headersOf x y z formats (sizesOf bodies)).flatMap MetaLayout.encode ++ bodies.flatten

theorem writeHeaders_ok (count : bodies.length = formats.length * 64) :
    writeHeaders x y z formats (sizesOf bodies) =
      .ok ((headersOf x y z formats (sizesOf bodies)).flatMap MetaLayout.encode) := by
  rw [writeHeaders, if_neg]
  simpa [sizesOf] using count

theorem headerBlocks_written :
    headerBlocks (written x y z formats bodies) =
      headersOf x y z formats (sizesOf bodies) ++ headerBlocks bodies.flatten :=
  headerBlocks_flatMap ..

theorem length_written :
    (written x y z formats bodies).length =
      formats.length * headerSize + bodies.flatten.length := by
  rw [written, List.length_append, length_flatMap_encode, length_headersOf]

/-- What the entry at a position of the `k`-th format says, as an `int`. -/
theorem headersOf_entry (count : bodies.length = formats.length * 64) {fmt : ProtoFmt} {k : Nat}
    (hk : formats[k]? = some fmt) (i : Fin 64) :
    ∃ h ∈ headersOf x y z formats (sizesOf bodies), h.fmt = fmt ∧ ∃ body,
      bodies[64 * k + i]? = some body ∧
      h.index.get i = ⟨.ofNat 32 (formats.length * headerSize +
        (bodies.take (64 * k + i)).flatten.length), .ofNat 32 body.length⟩ := by
  obtain ⟨hlt, rfl⟩ := List.getElem?_eq_some_iff.mp hk
  have hn : 64 * k + i < bodies.length := by
    have := i.isLt
    omega
  set entries := indexFrom (.ofNat 32 (formats.length * headerSize)) (sizesOf bodies) with hentries
  refine ⟨headerOf x y z entries formats[k] k, ?_, rfl, bodies[64 * k + i],
    List.getElem?_eq_getElem hn, ?_⟩
  · refine List.mem_map.mpr ⟨(formats[k], k), ?_, rfl⟩
    exact List.mem_zipIdx_iff_getElem?.mpr hk
  · have hentry := indexFrom_getElem? bodies (formats.length * headerSize) _ hn
    have hat : (headerOf x y z entries formats[k] k).index.get i =
        entries.getD (64 * k + i) ⟨0#32, 0#32⟩ := Vector.getElem_ofFn i.isLt
    rw [hat, List.getD_eq_getElem?_getD, hentries, hentry, Option.getD_some]

/-- **What an entry points at.** The entry at a position of the `k`-th format is in bounds and has
the tile that was put there. -/
theorem written_entry (count : bodies.length = formats.length * 64)
    (small : (written x y z formats bodies).length < 2 ^ 31) {fmt : ProtoFmt} {k : Nat}
    (hk : formats[k]? = some fmt) (i : Fin 64) :
    ∃ h ∈ headersOf x y z formats (sizesOf bodies), h.fmt = fmt ∧
      (h.index.get i).InBounds (written x y z formats bodies) ∧
      some ((h.index.get i).bytes (written x y z formats bodies)) = bodies[64 * k + i]? := by
  obtain ⟨h, hmem, hfmt, body, hbody, hget⟩ := headersOf_entry count hk i
  refine ⟨h, hmem, hfmt, ?_⟩
  obtain ⟨hn, rfl⟩ := List.getElem?_eq_some_iff.mp hbody
  set pre := (bodies.take (64 * k + i)).flatten.length with hpre
  have hsplit := flatten_split bodies (64 * k + i) hn
  have htotal : bodies.flatten.length =
      pre + (bodies[64 * k + i].length + (bodies.drop (64 * k + i + 1)).flatten.length) := by
    rw [hsplit, List.length_append, List.length_append]
  have hfits : formats.length * headerSize + pre + bodies[64 * k + i].length ≤
      (written x y z formats bodies).length := by
    rw [length_written]
    omega
  obtain ⟨hbounds, hbytes⟩ := entry_ofNat (lt_of_le_of_lt hfits small) hfits
  rw [hget]
  refine ⟨hbounds, ?_⟩
  have hheaders : ((headersOf x y z formats (sizesOf bodies)).flatMap MetaLayout.encode).length =
      formats.length * headerSize := by
    rw [length_flatMap_encode, length_headersOf]
  rw [hbytes, hbody, written, ← List.drop_drop, ← hheaders, List.drop_left, hsplit, hpre,
    List.drop_left, List.take_left]

/-! ## Reading what was written -/

/-- The tiles of some formats, 64 for each, in the order of the headers. -/
def bodiesOf (formats : List ProtoFmt) (body : ProtoFmt → Fin 64 → Bytes) : List Bytes :=
  formats.flatMap fun fmt => (List.finRange 64).map (body fmt)

theorem length_bodiesOf (formats : List ProtoFmt) (body : ProtoFmt → Fin 64 → Bytes) :
    (bodiesOf formats body).length = formats.length * 64 := by
  simp [bodiesOf, List.length_flatMap]

theorem getElem?_bodiesOf {body : ProtoFmt → Fin 64 → Bytes} {fmt : ProtoFmt} {k : Nat}
    (hk : formats[k]? = some fmt) (i : Fin 64) :
    (bodiesOf formats body)[64 * k + i]? = some (body fmt i) := by
  have hblock : ∀ f : ProtoFmt, ((List.finRange 64).map (body f)).length = 64 := by simp
  rw [bodiesOf, Pieces.getElem?_flatMap_block hblock formats k i.isLt, hk]
  simp

/-- The reader opens the header that was written for a format. -/
theorem header_written (distinct : formats.Nodup) {h : MetaLayout}
    (hmem : h ∈ headersOf x y z formats (sizesOf bodies)) :
    (metatileReader (written x y z formats bodies) h.fmt).header = some h := by
  rw [metatileReader, headerBlocks_written]
  refine findHeader_of_mem (fun g hg => (magicOk_headersOf hg).1) ?_ hmem
  rwa [headersOf_fmt]

/-- **The reader after the writer.** What was put at a position in a format is read there. -/
theorem get_written {body : ProtoFmt → Fin 64 → Bytes} {fmt : ProtoFmt} (distinct : formats.Nodup)
    (hfmt : fmt ∈ formats)
    (small : (written x y z formats (bodiesOf formats body)).length < 2 ^ 31) (px py : Int) :
    (metatileReader (written x y z formats (bodiesOf formats body)) fmt).get px py =
      some (body fmt (tileIndex px py)) := by
  obtain ⟨k, hk⟩ := List.getElem?_of_mem hfmt
  obtain ⟨h, hmem, rfl, hbounds, hbytes⟩ :=
    written_entry (length_bodiesOf formats body) small hk (tileIndex px py)
  rw [MetatileReader.get_of_inBounds (header_written distinct hmem) hbounds]
  exact hbytes.trans (getElem?_bodiesOf hk _)

end RenderMq
