import RenderMq.Metatile.Ranges
import RenderMq.Storage.Disk

/-!
# The two readers of a metatile

A tile is read from a file by `read_from_meta`, and from a buffer by `metatile_reader`. Both walk over the
headers to the one of a format, and look up the entry of the tile. They find the same header where there
are at most seven (`searchHeader_take_iff`), but do not treat it alike: the file reader wants a count of
64, and reads what there is of a tile that the file does not have all of; the other does not look at the
count, and gives nothing of a tile that is cut off.

`readAlike_iff` is the exact condition for the two to give the same (`TreatedAlike`).
-/

namespace RenderMq

/-! ## The same header -/

/-- How many headers a buffer starts with. -/
def headerCount (buf : Bytes) : Nat := ((headerBlocks buf).takeWhile MetaLayout.magicOk).length

theorem HeaderOf.append {fmt : ProtoFmt} {front : List MetaLayout} {h : MetaLayout}
    (hfront : HeaderOf fmt front h) (rest : List MetaLayout) : HeaderOf fmt (front ++ rest) h := by
  obtain ⟨before, after, rfl, hh⟩ := hfront
  exact ⟨before, after ++ rest, by rw [List.append_assoc, List.cons_append], hh⟩

/-- A header that is opened is one of the front that has it. -/
theorem HeaderOf.of_prefix {fmt : ProtoFmt} {front blocks : List MetaLayout} {h : MetaLayout}
    (hblocks : HeaderOf fmt blocks h) (hinitial : front <+: blocks)
    (long : (blocks.takeWhile MetaLayout.magicOk).length ≤ front.length) :
    HeaderOf fmt front h := by
  obtain ⟨before, after, rfl, hbefore, hfmt, hmagic⟩ := hblocks
  have hcount : before.length + 1 ≤
      ((before ++ h :: after).takeWhile MetaLayout.magicOk).length := by
    rw [List.takeWhile_append_of_pos fun g hg => (hbefore g hg).1, List.takeWhile_cons, if_pos hmagic,
      List.length_append, List.length_cons]
    omega
  have hupto : before ++ [h] <+: before ++ h :: after := ⟨after, by simp⟩
  obtain ⟨rest, rfl⟩ := List.prefix_of_prefix_length_le hupto hinitial (by
    rw [List.length_append, List.length_singleton]
    omega)
  exact ⟨before, rest, by simp, hbefore, hfmt, hmagic⟩

/-- **The search in a file** finds the header that the reader of a buffer opens. -/
theorem searchHeader_ok_iff {fmt : ProtoFmt} {blocks : List MetaLayout} {h : MetaLayout} :
    searchHeader fmt blocks = .ok h ↔ HeaderOf fmt blocks h := by
  refine ⟨fun hsearch => ?_, fun hheader => searchHeader_eq_ok (findHeader_eq_some_iff.mpr hheader)⟩
  induction blocks with
  | nil => cases hsearch
  | cons g blocks ih =>
    rw [searchHeader] at hsearch
    split at hsearch
    · cases hsearch
    · next hmagic =>
      have hok : g.magicOk = true := decide_eq_true (not_not.mp hmagic)
      split at hsearch
      · next hfmt => exact headerOf_cons.mpr (.inl ⟨hfmt, hok, Except.ok.inj hsearch⟩)
      · next hfmt => exact headerOf_cons.mpr (.inr ⟨hfmt, hok, ih hsearch⟩)

/-- Seven headers are in the part of the file that is searched. -/
theorem searchHeader_take_iff {bytes : Bytes} (few : headerCount bytes ≤ 7) {fmt : ProtoFmt}
    {h : MetaLayout} :
    searchHeader fmt (headerBlocks (bytes.take 4096)) = .ok h ↔
      HeaderOf fmt (headerBlocks bytes) h := by
  rw [searchHeader_ok_iff]
  have hinitial := headerBlocks_take bytes 4096
  constructor
  · obtain ⟨rest, hrest⟩ := hinitial
    intro hfront
    rw [← hrest]
    exact hfront.append rest
  · intro hblocks
    refine hblocks.of_prefix hinitial ?_
    have hall : ((headerBlocks bytes).takeWhile MetaLayout.magicOk).length ≤
        (headerBlocks bytes).length := (List.takeWhile_prefix _).length_le
    rw [headerCount] at few
    rw [length_headerBlocks, headerSize] at hall
    rw [length_headerBlocks, List.length_take, headerSize]
    omega

/-! ## The same tile -/

/-- What a reader of a file gave (a number of bytes, and the buffer) is what a range of the file has. -/
structure ReadAlike (bytes : Bytes) (range : Nat × Nat) (read : Int × Bytes) : Prop where
  found : 0 < read.1 ↔ range.1 ≠ range.2
  inBuffer : 0 < read.1 → InBuffer range bytes
  same : 0 < read.1 → read.1 = ((range.2 - range.1 : Nat) : Int) ∧
    read.2.take (range.2 - range.1) = (bytes.drop range.1).take (range.2 - range.1)

/-- The readers treat an entry alike: it is empty; or both read it, its header having the count that the
file reader wants and its fields being what they should be; or neither does, the one because the tile does
not end in the file, the other because of the count or the offset, or because there is no room. -/
def TreatedAlike (bytes : Bytes) (sz : Nat) (count : BitVec 32) (e : Entry) : Prop :=
  e.size = 0#32 ∨
    (count = 64#32 ∧ 0 ≤ e.offset.toInt ∧ ¬ e.Wraps ∧ e.sum.toNat ≤ bytes.length ∧
      (e.size.signExtend 64).toNat ≤ sz) ∨
    (bytes.length < e.sum.toNat ∧
      (count ≠ 64#32 ∨ e.offset.toInt < 0 ∨ bytes.length ≤ e.offset.toNat ∨ sz = 0))

/-- What `read_from_meta` makes of the entry of a tile. -/
def readEntry (bytes buf : Bytes) (sz : Nat) (count : BitVec 32) (e : Entry) : Int × Bytes :=
  if count ≠ 64#32 then (-5, buf)
  else if e.offset.toInt < 0 then (-6, buf)
  else
    let got := (bytes.drop e.offset.toNat).take (min (e.size.signExtend 64).toNat sz)
    (got.length, got ++ buf.drop got.length)

/-- What `metatile_reader` makes of the entry of a tile. -/
def rangeOf (bytes : Bytes) (e : Entry) : Nat × Nat :=
  if e.sum.toNat ≤ bytes.length then ((e.offset.signExtend 64).toNat, e.sum.toNat)
  else (bytes.length, bytes.length)

theorem readFromMeta_found {files : Files} {tileDir style : String} {x y z : Int} {buf : Bytes}
    {sz : Nat} {fmt : ProtoFmt} {file : DiskFile} {m : MetaLayout}
    (hfile : files (xyzToMeta tileDir x y z style).1 = some file)
    (hsearch : searchHeader fmt (headerBlocks (file.bytes.take 4096)) = .ok m) :
    readFromMeta files tileDir x y z style buf sz fmt =
      readEntry file.bytes buf sz m.count (m.index.get (tileIndex x y)) := by
  have hposition : (xyzToMeta tileDir x y z style).2 = tileIndex x y := rfl
  simp only [readFromMeta, hfile, readTile, hsearch, readEntry, hposition]
  by_cases hcount : m.count ≠ 64#32
  · rw [if_pos hcount, if_pos hcount]
  · rw [if_neg hcount, if_neg hcount]
    by_cases hoffset : (m.index.get (tileIndex x y)).offset.toInt < 0
    · rw [if_pos hoffset, if_pos hoffset]
    · rw [if_neg hoffset, if_neg hoffset]

theorem range_found {bytes : Bytes} {fmt : ProtoFmt} {m : MetaLayout}
    (hheader : HeaderOf fmt (headerBlocks bytes) m) (x y : Int) :
    (metatileReader bytes fmt).range x y = rangeOf bytes (m.index.get (tileIndex x y)) := by
  have hfound : (metatileReader bytes fmt).header = some m := findHeader_eq_some_iff.mpr hheader
  rw [MetatileReader.range, hfound]
  rfl

/-- The start of a range that does not wrap. -/
theorem toNat_offset {e : Entry} (h : 0 ≤ e.offset.toInt) :
    (e.offset.signExtend 64).toNat = e.offset.toNat := by
  have hext := Entry.toNat_signExtend e.offset
  rw [if_neg (not_lt.mpr h)] at hext
  have hcond := BitVec.toInt_eq_toNat_cond e.offset
  split at hcond <;> omega

/-- The file reader reads something of an entry. -/
theorem readEntry_pos_iff {bytes buf : Bytes} {sz : Nat} {count : BitVec 32} {e : Entry} :
    0 < (readEntry bytes buf sz count e).1 ↔
      count = 64#32 ∧ 0 ≤ e.offset.toInt ∧ e.size ≠ 0#32 ∧ 0 < sz ∧
        e.offset.toNat < bytes.length := by
  unfold readEntry
  by_cases hcount : count = 64#32
  · rw [if_neg (not_not.mpr hcount)]
    by_cases hoffset : e.offset.toInt < 0
    · rw [if_pos hoffset]
      have hcode : ¬ (0 : Int) < -6 := by decide
      exact iff_of_false hcode (fun h => absurd h.2.1 (not_le_of_gt hoffset))
    · rw [if_neg hoffset]
      have hsize : e.size ≠ 0#32 ↔ 0 < (e.size.signExtend 64).toNat := by
        rw [Nat.pos_iff_ne_zero]
        exact Entry.signExtend_eq_zero_iff.not.symm
      simp only [List.length_take, List.length_drop, Int.natCast_pos, hcount, hsize, true_and]
      omega
  · rw [if_pos hcount]
    have hcode : ¬ (0 : Int) < -5 := by decide
    exact iff_of_false hcode (fun h => hcount h.1)

/-- What it reads then. -/
theorem readEntry_eq {bytes buf : Bytes} {sz : Nat} {count : BitVec 32} {e : Entry}
    (hcount : count = 64#32) (hoffset : 0 ≤ e.offset.toInt) :
    readEntry bytes buf sz count e =
      ((((bytes.drop e.offset.toNat).take (min (e.size.signExtend 64).toNat sz)).length : Int),
        (bytes.drop e.offset.toNat).take (min (e.size.signExtend 64).toNat sz) ++
          buf.drop ((bytes.drop e.offset.toNat).take
            (min (e.size.signExtend 64).toNat sz)).length) := by
  rw [readEntry, if_neg (not_not.mpr hcount), if_neg (not_lt.mpr hoffset)]

/-- An entry that both readers find in the file: they give the same when the sum of its fields does not
wrap and the buffer has room. -/
theorem readAlike_pass_iff {bytes buf : Bytes} {sz : Nat} {count : BitVec 32} {e : Entry}
    (hsize : e.size ≠ 0#32) (hpass : e.sum.toNat ≤ bytes.length) :
    ReadAlike bytes (rangeOf bytes e) (readEntry bytes buf sz count e) ↔
      count = 64#32 ∧ 0 ≤ e.offset.toInt ∧ ¬ e.Wraps ∧ (e.size.signExtend 64).toNat ≤ sz := by
  have hrange : rangeOf bytes e = ((e.offset.signExtend 64).toNat, e.sum.toNat) := if_pos hpass
  have hne : (e.offset.signExtend 64).toNat ≠ e.sum.toNat := (Entry.start_eq_end_iff e).not.mpr hsize
  have hpos : (e.size.signExtend 64).toNat ≠ 0 := Entry.signExtend_eq_zero_iff.not.mpr hsize
  rw [hrange]
  constructor
  · rintro ⟨hfound, hbuffer, hsame⟩
    have hread := hfound.mpr hne
    obtain ⟨hcount, hoffset, _⟩ := readEntry_pos_iff.mp hread
    have hwraps : ¬ e.Wraps := fun h =>
      absurd (hbuffer hread).1 (not_le_of_gt (Entry.sum_lt_of_wraps h))
    refine ⟨hcount, hoffset, hwraps, ?_⟩
    have hsum := (Entry.toNat_sum e).2 hwraps
    have hlength := (hsame hread).1
    rw [readEntry_eq hcount hoffset] at hlength
    simp only [List.length_take, List.length_drop, Nat.cast_inj] at hlength
    omega
  · rintro ⟨hcount, hoffset, hwraps, hroom⟩
    have hsum := (Entry.toNat_sum e).2 hwraps
    have hstart := toNat_offset hoffset
    have hlength : ((bytes.drop e.offset.toNat).take (min (e.size.signExtend 64).toNat sz)).length =
        e.sum.toNat - (e.offset.signExtend 64).toNat := by
      rw [List.length_take, List.length_drop]
      omega
    refine ⟨iff_of_true ?_ hne, fun _ => ⟨?_, hpass⟩, fun _ => ⟨?_, ?_⟩⟩
    · rw [readEntry_pos_iff]
      exact ⟨hcount, hoffset, hsize, by omega, by omega⟩
    · show (e.offset.signExtend 64).toNat ≤ e.sum.toNat
      omega
    · rw [readEntry_eq hcount hoffset, hlength]
    · rw [readEntry_eq hcount hoffset, List.take_append_of_le_length (le_of_eq hlength.symm), ← hlength,
        List.take_length, hstart, hlength]
      congr 1
      omega

/-- An entry that the buffer reader refuses: they give the same when the file reader reads nothing. -/
theorem readAlike_refused_iff {bytes buf : Bytes} {sz : Nat} {count : BitVec 32} {e : Entry}
    (hsize : e.size ≠ 0#32) (hpass : ¬ e.sum.toNat ≤ bytes.length) :
    ReadAlike bytes (rangeOf bytes e) (readEntry bytes buf sz count e) ↔
      count ≠ 64#32 ∨ e.offset.toInt < 0 ∨ bytes.length ≤ e.offset.toNat ∨ sz = 0 := by
  have hrange : rangeOf bytes e = (bytes.length, bytes.length) := if_neg hpass
  have hnone : ¬ 0 < (readEntry bytes buf sz count e).1 ↔
      count ≠ 64#32 ∨ e.offset.toInt < 0 ∨ bytes.length ≤ e.offset.toNat ∨ sz = 0 := by
    rw [readEntry_pos_iff]
    constructor
    · intro hnot
      by_contra hsome
      push Not at hsome
      exact hnot ⟨hsome.1, hsome.2.1, hsize, Nat.pos_of_ne_zero hsome.2.2.2, hsome.2.2.1⟩
    · rintro hcases ⟨hcount, hoffset, _, hroom, hinside⟩
      rcases hcases with h | h | h | h
      · exact h hcount
      · exact absurd hoffset (not_le_of_gt h)
      · exact absurd hinside (not_lt_of_ge h)
      · exact absurd hroom (not_lt_of_ge (le_of_eq h))
  rw [← hnone, hrange]
  constructor
  · exact fun h hread => h.found.mp hread rfl
  · exact fun hnot => ⟨iff_of_false hnot (fun h => h rfl), fun h => absurd h hnot,
      fun h => absurd h hnot⟩

/-- **One entry.** The readers make the same of it exactly when they treat it alike. -/
theorem readAlike_entry_iff (bytes buf : Bytes) (sz : Nat) (count : BitVec 32) (e : Entry) :
    ReadAlike bytes (rangeOf bytes e) (readEntry bytes buf sz count e) ↔
      TreatedAlike bytes sz count e := by
  by_cases hsize : e.size = 0#32
  · refine iff_of_true ?_ (.inl hsize)
    have hnone : ¬ 0 < (readEntry bytes buf sz count e).1 :=
      fun h => (readEntry_pos_iff.mp h).2.2.1 hsize
    have hempty : (rangeOf bytes e).1 = (rangeOf bytes e).2 := by
      unfold rangeOf
      split
      · exact (Entry.start_eq_end_iff e).mpr hsize
      · rfl
    exact ⟨iff_of_false hnone (fun h => h hempty), fun h => absurd h hnone, fun h => absurd h hnone⟩
  · by_cases hpass : e.sum.toNat ≤ bytes.length
    · rw [readAlike_pass_iff hsize hpass]
      unfold TreatedAlike
      have hinside : ¬ bytes.length < e.sum.toNat := not_lt_of_ge hpass
      tauto
    · rw [readAlike_refused_iff hsize hpass]
      unfold TreatedAlike
      have houtside : bytes.length < e.sum.toNat := lt_of_not_ge hpass
      tauto

/-- The readers on a file whose header for the format is known. -/
theorem readAlike_found_iff {files : Files} {tileDir style : String} {x y z : Int} {file : DiskFile}
    {fmt : ProtoFmt} {m : MetaLayout}
    (hfile : files (xyzToMeta tileDir x y z style).1 = some file) (few : headerCount file.bytes ≤ 7)
    (hheader : HeaderOf fmt (headerBlocks file.bytes) m) (buf : Bytes) (sz : Nat) :
    ReadAlike file.bytes ((metatileReader file.bytes fmt).range x y)
        (readFromMeta files tileDir x y z style buf sz fmt) ↔
      TreatedAlike file.bytes sz m.count (m.index.get (tileIndex x y)) := by
  rw [readFromMeta_found hfile ((searchHeader_take_iff few).mpr hheader), range_found hheader,
    readAlike_entry_iff]

/-- **The two readers.** On a file with at most seven headers they give the same for a tile in a format
exactly when they treat alike the entry that the header of the format has for it.

The bytes of the file are any, and so is the buffer of the one that reads into one. With eight headers
or more the Python functions stop where the reader goes on, which is not covered. -/
theorem readAlike_iff {files : Files} {tileDir style : String} {x y z : Int} {file : DiskFile}
    (hfile : files (xyzToMeta tileDir x y z style).1 = some file) (few : headerCount file.bytes ≤ 7)
    (fmt : ProtoFmt) (buf : Bytes) (sz : Nat) :
    ReadAlike file.bytes ((metatileReader file.bytes fmt).range x y)
        (readFromMeta files tileDir x y z style buf sz fmt) ↔
      ∀ m, HeaderOf fmt (headerBlocks file.bytes) m →
        TreatedAlike file.bytes sz m.count (m.index.get (tileIndex x y)) := by
  cases hsearch : searchHeader fmt (headerBlocks (file.bytes.take 4096)) with
  | error code =>
    -- neither finds a header
    have hnone : ∀ m, ¬ HeaderOf fmt (headerBlocks file.bytes) m := by
      intro m hm
      rw [← searchHeader_take_iff few, hsearch] at hm
      cases hm
    refine iff_of_true ?_ fun m hm => absurd hm (hnone m)
    have hread : readFromMeta files tileDir x y z style buf sz fmt = (code, buf) := by
      simp only [readFromMeta, hfile, readTile, hsearch]
    have hheader : (metatileReader file.bytes fmt).header = none := by
      cases hfind : (metatileReader file.bytes fmt).header with
      | none => rfl
      | some m => exact absurd (findHeader_eq_some_iff.mp hfind) (hnone m)
    have hcode : ¬ 0 < code := not_lt_of_ge (le_of_lt (searchHeader_error hsearch))
    rw [hread, MetatileReader.range, hheader]
    exact ⟨iff_of_false hcode (fun h => h rfl), fun h => absurd h hcode, fun h => absurd h hcode⟩
  | ok m =>
    have hheader := (searchHeader_take_iff few).mp hsearch
    rw [readAlike_found_iff hfile few hheader]
    refine ⟨fun h m' hm' => ?_, fun h => h m hheader⟩
    have hsame : some m = some m' :=
      (findHeader_eq_some_iff.mpr hheader).symm.trans (findHeader_eq_some_iff.mpr hm')
    obtain rfl := Option.some.inj hsame
    exact h

/-! ## A tile of two bytes -/

/-- A header whose tiles are the two bytes behind it. -/
def twoBytesBehind : MetaLayout where
  magic := META_MAGIC
  count := 64#32
  x := 0#32
  y := 0#32
  z := 0#32
  fmt := fmtJSON
  index := Vector.replicate 64 ⟨536#32, 2#32⟩

/-- The file system that has one file, under every name. -/
def oneFile (bytes : Bytes) : Files := fun _ => some ⟨bytes, 0⟩

theorem headerBlocks_short {tiles : Bytes} (short : tiles.length < headerSize) :
    headerBlocks (twoBytesBehind.encode ++ tiles) = [twoBytesBehind] := by
  have hnone : headerBlocks tiles = [] := by
    rw [headerBlocks, Nat.div_eq_of_lt short]
    rfl
  rw [headerBlocks_encode, hnone]

theorem headerCount_short {tiles : Bytes} (short : tiles.length < headerSize) :
    headerCount (twoBytesBehind.encode ++ tiles) = 1 := by
  rw [headerCount, headerBlocks_short short]
  rfl

theorem headerOf_short {tiles : Bytes} (short : tiles.length < headerSize) {fmt : ProtoFmt}
    {m : MetaLayout} (h : HeaderOf fmt (headerBlocks (twoBytesBehind.encode ++ tiles)) m) :
    m = twoBytesBehind := by
  rw [headerBlocks_short short] at h
  have hfound := findHeader_eq_some_iff.mpr h
  rw [findHeader] at hfound
  split_ifs at hfound
  · exact (Option.some.inj hfound).symm
  · cases hfound

/-- The whole tile is read alike. -/
theorem whole_tile_readAlike :
    ReadAlike (twoBytesBehind.encode ++ [0x7B, 0x7D])
      ((metatileReader (twoBytesBehind.encode ++ [0x7B, 0x7D]) fmtJSON).range 0 0)
      (readFromMeta (oneFile (twoBytesBehind.encode ++ [0x7B, 0x7D])) "tiles" 0 0 0 "map" [] 100
        fmtJSON) := by
  have hshort : ([0x7B, 0x7D] : Bytes).length < headerSize := by decide
  have hfew : headerCount (twoBytesBehind.encode ++ [0x7B, 0x7D]) ≤ 7 := by
    rw [headerCount_short hshort]
    decide
  have hfile : oneFile (twoBytesBehind.encode ++ [0x7B, 0x7D]) (xyzToMeta "tiles" 0 0 0 "map").1 =
      some ⟨twoBytesBehind.encode ++ [0x7B, 0x7D], 0⟩ := rfl
  refine (readAlike_iff hfile hfew fmtJSON [] 100).mpr fun m hm => .inr (.inl ?_)
  obtain rfl := headerOf_short hshort hm
  refine ⟨rfl, ?_, ?_, ?_, ?_⟩
  · show (0 : Int) ≤ (536#32).toInt
    decide
  · show ¬ (Entry.mk 536#32 2#32).Wraps
    unfold Entry.Wraps
    decide
  · show (Entry.mk 536#32 2#32).sum.toNat ≤ (twoBytesBehind.encode ++ [0x7B, 0x7D]).length
    rw [List.length_append, MetaLayout.length_encode]
    decide
  · show ((2#32).signExtend 64).toNat ≤ 100
    decide

/-- The tile without its second byte: the file reader gives the first byte, the other nothing. -/
theorem readers_differ_on_cut_tile :
    ¬ ∀ (files : Files) (tileDir style : String) (x y z : Int) (file : DiskFile),
      files (xyzToMeta tileDir x y z style).1 = some file → headerCount file.bytes ≤ 7 →
      ∀ (fmt : ProtoFmt) (buf : Bytes) (sz : Nat),
        (∀ m, HeaderOf fmt (headerBlocks file.bytes) m →
          (m.index.get (tileIndex x y)).size.toInt ≤ sz) →
        ReadAlike file.bytes ((metatileReader file.bytes fmt).range x y)
          (readFromMeta files tileDir x y z style buf sz fmt) := by
  intro hall
  have hshort : ([0x7B] : Bytes).length < headerSize := by decide
  have hfew : headerCount (twoBytesBehind.encode ++ [0x7B]) ≤ 7 := by
    rw [headerCount_short hshort]
    decide
  have hroom : ∀ m, HeaderOf fmtJSON (headerBlocks (twoBytesBehind.encode ++ [0x7B])) m →
      (m.index.get (tileIndex 0 0)).size.toInt ≤ (100 : Nat) := by
    intro m hm
    obtain rfl := headerOf_short hshort hm
    show (2#32).toInt ≤ 100
    decide
  have hheader : HeaderOf fmtJSON (headerBlocks (twoBytesBehind.encode ++ [0x7B])) twoBytesBehind := by
    rw [headerBlocks_short hshort]
    exact ⟨[], [], rfl, fun g hg => absurd hg List.not_mem_nil, rfl, rfl⟩
  have hlength : (twoBytesBehind.encode ++ [0x7B]).length = 537 := by
    rw [List.length_append, MetaLayout.length_encode]
    rfl
  generalize twoBytesBehind.encode ++ [0x7B] = bytes at *
  have hfile : oneFile bytes (xyzToMeta "tiles" 0 0 0 "map").1 = some ⟨bytes, 0⟩ := rfl
  have halike := (readAlike_found_iff hfile hfew hheader [] 100).mp
    (hall (oneFile bytes) "tiles" "map" 0 0 0 ⟨bytes, 0⟩ hfile hfew fmtJSON [] 100 hroom)
  have hentry : twoBytesBehind.index.get (tileIndex 0 0) = ⟨536#32, 2#32⟩ := rfl
  have hsum : (Entry.mk 536#32 2#32).sum.toNat = 538 := by decide
  rw [hentry, TreatedAlike, hsum, hlength] at halike
  rcases halike with h | ⟨_, _, _, h, _⟩ | ⟨_, h | h | h | h⟩
  · cases h
  · exact absurd h (by decide)
  · exact h rfl
  · exact absurd h (by decide)
  · exact absurd h (by decide)
  · exact absurd h (by decide)

end RenderMq
