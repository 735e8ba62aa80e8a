import RenderMq.Lib.Words
import RenderMq.Tile.Protocol
import Mathlib.Data.List.TakeWhile

/-!
# The metatile buffer

A metatile buffer starts with one header for each format (`meta_layout`, copied to and from memory
as it stands), and the tiles follow. A header has, for each of the 64 positions, where its tile
starts, counted from the start of the buffer, and how long it is.

Two pieces of code look for headers. `read_headers` takes headers from the front while they look
like headers. `metatile_reader` goes on until it meets the format it is looking for. Both walk over
the header-sized blocks of the buffer (`headerBlocks`), tile data included.

`readHeaders_encode` reads back what was written. `metatileReader_of_mem` connects the two walks:
a header the scan found is the one the reader opens, unless an earlier one has its format.
-/

namespace RenderMq

open Words

/-! ## The layout in memory -/

/-- `entry`: where a tile starts, and how long it is. Both are an `int` in the source. -/
structure Entry where
  offset : BitVec 32
  size : BitVec 32
  deriving DecidableEq, Repr

/-- `meta_layout`. The four characters of the magic are kept as one word. -/
structure MetaLayout where
  magic : BitVec 32
  count : BitVec 32
  x : BitVec 32
  y : BitVec 32
  z : BitVec 32
  fmt : ProtoFmt
  index : Vector Entry 64
  deriving DecidableEq

/-- `META_MAGIC`: the characters M, E, T, A, the first in the lowest byte. -/
def META_MAGIC : BitVec 32 := 0x4154454D#32

/-- `sizeof(meta_layout)`. -/
def headerSize : Nat := 536

namespace MetaLayout

/-- `magic_ok`. -/
def magicOk (h : MetaLayout) : Bool := decide (h.magic = META_MAGIC)

/-- A header as it lies in memory. -/
def words (h : MetaLayout) : List (BitVec 32) :=
  [h.magic, h.count, h.x, h.y, h.z, h.fmt] ++ h.index.toList.flatMap fun e => [e.offset, e.size]

def encode (h : MetaLayout) : Bytes := encodeAll h.words

/-- The header-sized block at a byte position, taken as a header. -/
def readAt (buf : Bytes) (pos : Nat) : MetaLayout where
  magic := wordAt buf pos
  count := wordAt buf (pos + 4)
  x := wordAt buf (pos + 8)
  y := wordAt buf (pos + 12)
  z := wordAt buf (pos + 16)
  fmt := wordAt buf (pos + 20)
  index := Vector.ofFn fun i => ⟨wordAt buf (pos + 24 + 8 * i), wordAt buf (pos + 28 + 8 * i)⟩

theorem length_words (h : MetaLayout) : h.words.length = 134 := by
  simp [words, List.length_flatMap]

@[simp] theorem length_encode (h : MetaLayout) : h.encode.length = headerSize := by
  rw [encode, length_encodeAll, length_words]
  rfl

/-- The `n`-th word of a header, read back. -/
theorem wordAt_encode_append (h : MetaLayout) (rest : Bytes) {n : Nat} {w : BitVec 32}
    (hn : h.words[n]? = some w) : wordAt (h.encode ++ rest) (4 * n) = w := by
  obtain ⟨hlt, hw⟩ := List.getElem?_eq_some_iff.mp hn
  rw [encode, wordAt_encodeAll hlt, hw]

/-- **The round trip of a header.** -/
theorem readAt_encode (h : MetaLayout) (rest : Bytes) : readAt (h.encode ++ rest) 0 = h := by
  have hword {n : Nat} {w : BitVec 32} (hn : h.words[n]? = some w) :=
    wordAt_encode_append h rest hn
  have hindex : ∀ i : Fin 64, wordAt (h.encode ++ rest) (0 + 24 + 8 * i) = (h.index.get i).offset ∧
      wordAt (h.encode ++ rest) (0 + 28 + 8 * i) = (h.index.get i).size := by
    intro i
    have hat : h.index.toList[(i : Nat)]? = some (h.index.get i) := by
      rw [List.getElem?_eq_getElem (by simp)]
      rfl
    constructor
    · rw [show 0 + 24 + 8 * (i : Nat) = 4 * (6 + 2 * i) by ring]
      refine hword ?_
      rw [words, List.getElem?_append_right (by simp)]
      simp only [List.length_cons, List.length_nil, Nat.add_sub_cancel_left, Nat.zero_add]
      rw [getElem?_flatMap_fst, hat, Option.map_some]
    · rw [show 0 + 28 + 8 * (i : Nat) = 4 * (6 + (2 * i + 1)) by ring]
      refine hword ?_
      rw [words, List.getElem?_append_right (by simp)]
      simp only [List.length_cons, List.length_nil, Nat.add_sub_cancel_left, Nat.zero_add]
      rw [getElem?_flatMap_snd, hat, Option.map_some]
  have hvec : (readAt (h.encode ++ rest) 0).index = h.index := by
    refine Vector.ext fun i hi => ?_
    obtain ⟨hoffset, hsize⟩ := hindex ⟨i, hi⟩
    simp only [readAt, Vector.getElem_ofFn, hoffset, hsize]
    rfl
  calc readAt (h.encode ++ rest) 0
      = ⟨h.magic, h.count, h.x, h.y, h.z, h.fmt, (readAt (h.encode ++ rest) 0).index⟩ := by
        rw [← hword (n := 0) rfl, ← hword (n := 1) rfl, ← hword (n := 2) rfl, ← hword (n := 3) rfl,
          ← hword (n := 4) rfl, ← hword (n := 5) rfl]
        rfl
    _ = h := by rw [hvec]

end MetaLayout

/-! ## The blocks of a buffer -/

/-- The consecutive header-sized blocks of a buffer, as far as they are whole. -/
def headerBlocks (buf : Bytes) : List MetaLayout :=
  (List.range (buf.length / headerSize)).map fun n => MetaLayout.readAt buf (n * headerSize)

theorem length_headerBlocks (buf : Bytes) :
    (headerBlocks buf).length = buf.length / headerSize := by
  rw [headerBlocks, List.length_map, List.length_range]

theorem readAt_append_right (a b : Bytes) (pos : Nat) :
    MetaLayout.readAt (a ++ b) (a.length + pos) = MetaLayout.readAt b pos := by
  simp only [MetaLayout.readAt, Nat.add_assoc, wordAt_append_right]

theorem headerBlocks_encode (h : MetaLayout) (rest : Bytes) :
    headerBlocks (h.encode ++ rest) = h :: headerBlocks rest := by
  have hlen : (h.encode ++ rest).length / headerSize = rest.length / headerSize + 1 := by
    rw [List.length_append, MetaLayout.length_encode, Nat.add_comm,
      Nat.add_div_right _ (by decide)]
  rw [headerBlocks, hlen, List.range_succ_eq_map, List.map_cons, List.map_map, Nat.zero_mul,
    MetaLayout.readAt_encode]
  refine congrArg (h :: ·) (List.map_congr_left fun n _ => ?_)
  have hpos : (n + 1) * headerSize = h.encode.length + n * headerSize := by
    rw [MetaLayout.length_encode]
    ring
  rw [Function.comp_apply, hpos, readAt_append_right]

/-- Headers in a row are the first blocks. -/
theorem headerBlocks_flatMap (hs : List MetaLayout) (rest : Bytes) :
    headerBlocks (hs.flatMap MetaLayout.encode ++ rest) = hs ++ headerBlocks rest := by
  induction hs with
  | nil => rfl
  | cons h hs ih =>
    rw [List.flatMap_cons, List.append_assoc, headerBlocks_encode, ih, List.cons_append]

/-- A block in front of a cut is not changed by it. -/
theorem readAt_append_left {a b : Bytes} {pos : Nat} (h : pos + headerSize ≤ a.length) :
    MetaLayout.readAt (a ++ b) pos = MetaLayout.readAt a pos := by
  have hword : ∀ n, n + 4 ≤ headerSize → wordAt (a ++ b) (pos + n) = wordAt a (pos + n) :=
    fun n hn => wordAt_append_left (by omega)
  have hindex : ∀ i : Fin 64, 24 + 8 * (i : Nat) + 4 ≤ headerSize ∧
      28 + 8 * (i : Nat) + 4 ≤ headerSize := by
    intro i
    unfold headerSize
    omega
  simp only [MetaLayout.readAt, Nat.add_assoc pos, hword 4 (by decide), hword 8 (by decide),
    hword 12 (by decide), hword 16 (by decide), hword 20 (by decide), hword _ (hindex _).1,
    hword _ (hindex _).2, show wordAt (a ++ b) pos = wordAt a pos from hword 0 (by decide)]

/-- The blocks of the front of a buffer are its first blocks. -/
theorem headerBlocks_take (buf : Bytes) (n : Nat) :
    headerBlocks (buf.take n) <+: headerBlocks buf := by
  have hle : (buf.take n).length / headerSize ≤ buf.length / headerSize :=
    Nat.div_le_div_right (by rw [List.length_take]; exact min_le_right ..)
  have hblock : ∀ k ∈ List.range ((buf.take n).length / headerSize),
      MetaLayout.readAt (buf.take n) (k * headerSize) = MetaLayout.readAt buf (k * headerSize) := by
    intro k hk
    have hroom : k * headerSize + headerSize ≤ (buf.take n).length := by
      rw [← Nat.succ_mul]
      exact (Nat.le_div_iff_mul_le (by decide)).mp (List.mem_range.mp hk)
    conv_rhs => rw [← List.take_append_drop n buf]
    exact (readAt_append_left hroom).symm
  rw [headerBlocks, List.map_congr_left hblock, headerBlocks]
  refine List.IsPrefix.map _ ?_
  rw [List.prefix_iff_eq_take, List.length_range, List.take_range, min_eq_left hle]

/-! ## The scan -/

/-- What `read_headers` takes for a header: a format of the mask, and the magic. -/
def MetaLayout.looksLike (formatMask : ProtoFmt) (h : MetaLayout) : Bool :=
  decide (h.fmt &&& formatMask ≠ 0#32) && h.magicOk

/-- `read_headers`. -/
def readHeaders (buf : Bytes) (formatMask : ProtoFmt) : List MetaLayout :=
  (headerBlocks buf).takeWhile (MetaLayout.looksLike formatMask)

/-! ## The reader -/

/-- The walk of `metatile_reader` over the blocks: it stops at the format, or where the magic is
missing. -/
def findHeader (fmt : ProtoFmt) : List MetaLayout → Option MetaLayout
  | [] => none
  | h :: rest =>
    if h.fmt = fmt then
      if h.magicOk then some h else none
    else if h.magicOk then findHeader fmt rest
    else none

/-- `metatile_reader`. It is initialized when it has found a header. -/
structure MetatileReader where
  data : Bytes
  header : Option MetaLayout

/-- The constructor. -/
def metatileReader (data : Bytes) (fmt : ProtoFmt) : MetatileReader :=
  ⟨data, findHeader fmt (headerBlocks data)⟩

/-- The bytes of a pointer range into a buffer, if it is one. -/
def bytesOf (data : Bytes) (first size : Nat) : Option Bytes :=
  if first + size ≤ data.length then some ((data.drop first).take size) else none

/-- The position of a tile in an index. -/
def tileIndex (x y : Int) : Fin 64 := ⟨xyzToMetaOffset x y, xyzToMetaOffset_lt x y⟩

/-- `metatile_reader::get`, with the string that its caller makes of the range. The sum of offset
and size is a `size_t` and may wrap; the range then is not one, and using it is undefined
(`none`). -/
def MetatileReader.get (r : MetatileReader) (x y : Int) : Option Bytes :=
  match r.header with
  | some h =>
    let e := h.index.get (tileIndex x y)
    let tileOffset := e.offset.signExtend 64
    let tileSize := e.size.signExtend 64
    if (tileOffset + tileSize).toNat ≤ r.data.length then
      bytesOf r.data tileOffset.toNat tileSize.toNat
    else some []
  | none => some []

/-! ## What a header points at -/

/-- An entry points into a buffer. -/
def Entry.InBounds (e : Entry) (buf : Bytes) : Prop :=
  0 ≤ e.offset.toInt ∧ 0 ≤ e.size.toInt ∧ e.offset.toInt + e.size.toInt ≤ buf.length

instance (e : Entry) (buf : Bytes) : Decidable (e.InBounds buf) :=
  inferInstanceAs (Decidable (_ ∧ _ ∧ _))

/-- The bytes an entry points at. -/
def Entry.bytes (e : Entry) (buf : Bytes) : Bytes :=
  (buf.drop e.offset.toNat).take e.size.toNat

theorem Entry.toNat_of_inBounds {e : Entry} {buf : Bytes} (h : e.InBounds buf) :
    (e.offset.signExtend 64).toNat = e.offset.toNat ∧
      (e.size.signExtend 64).toNat = e.size.toNat ∧
      (e.offset.signExtend 64 + e.size.signExtend 64).toNat = e.offset.toNat + e.size.toNat ∧
      e.offset.toNat + e.size.toNat ≤ buf.length := by
  obtain ⟨hoffset, hsize, hsum⟩ := h
  have hnat {w : BitVec 32} (hw : 0 ≤ w.toInt) :
      (w.signExtend 64).toNat = w.toNat ∧ w.toInt = w.toNat := by
    have hmsb : w.msb = false := by
      rw [BitVec.msb_eq_toInt]
      simpa using hw
    rw [BitVec.signExtend_eq_setWidth_of_msb_false hmsb, BitVec.toNat_setWidth,
      BitVec.toInt_eq_toNat_of_msb hmsb]
    exact ⟨Nat.mod_eq_of_lt (lt_trans w.isLt (by decide)), rfl⟩
  obtain ⟨ho, hoInt⟩ := hnat hoffset
  obtain ⟨hs, hsInt⟩ := hnat hsize
  have hlt : e.offset.toNat + e.size.toNat < 2 ^ 64 := by
    have := e.offset.isLt
    have := e.size.isLt
    omega
  refine ⟨ho, hs, ?_, by omega⟩
  rw [BitVec.toNat_add, ho, hs, Nat.mod_eq_of_lt hlt]

theorem length_bytes {e : Entry} {buf : Bytes} (h : e.InBounds buf) :
    (e.bytes buf).length = e.size.toNat := by
  have := (Entry.toNat_of_inBounds h).2.2.2
  rw [Entry.bytes, List.length_take, List.length_drop]
  omega

theorem bytes_ne_nil_iff {e : Entry} {buf : Bytes} (h : e.InBounds buf) :
    e.bytes buf ≠ [] ↔ e.size ≠ 0#32 := by
  rw [← List.length_pos_iff, length_bytes h]
  constructor
  · intro hpos hzero
    rw [hzero] at hpos
    exact lt_irrefl 0 hpos
  · intro hne
    exact Nat.pos_of_ne_zero fun hzero => hne (BitVec.eq_of_toNat_eq hzero)

/-- The range of an entry in bounds can be read. -/
theorem bytesOf_of_inBounds {e : Entry} {buf : Bytes} (h : e.InBounds buf) :
    bytesOf buf (e.offset.signExtend 64).toNat (e.size.signExtend 64).toNat =
      some (e.bytes buf) := by
  obtain ⟨ho, hs, _, hle⟩ := Entry.toNat_of_inBounds h
  rw [ho, hs, bytesOf, if_pos hle]
  rfl

/-- The reader hands out what an entry in bounds points at. -/
theorem MetatileReader.get_of_inBounds {r : MetatileReader} {h : MetaLayout} {x y : Int}
    (found : r.header = some h) (inBounds : (h.index.get (tileIndex x y)).InBounds r.data) :
    r.get x y = some ((h.index.get (tileIndex x y)).bytes r.data) := by
  obtain ⟨_, _, hsum, hle⟩ := Entry.toNat_of_inBounds inBounds
  simp only [MetatileReader.get, found, hsum, if_pos hle, bytesOf_of_inBounds inBounds]

/-! ## The two walks agree -/

theorem mem_readHeaders {buf : Bytes} {mask : ProtoFmt} {h : MetaLayout}
    (hmem : h ∈ readHeaders buf mask) : h.fmt &&& mask ≠ 0#32 ∧ h.magicOk = true := by
  have := List.mem_takeWhile_imp hmem
  simpa [MetaLayout.looksLike] using this

theorem findHeader_append {fmt : ProtoFmt} {hs rest : List MetaLayout}
    (magic : ∀ h ∈ hs, h.magicOk = true) (other : ∀ h ∈ hs, h.fmt ≠ fmt) :
    findHeader fmt (hs ++ rest) = findHeader fmt rest := by
  induction hs with
  | nil => rfl
  | cons h hs ih =>
    rw [List.cons_append, findHeader, if_neg (other h List.mem_cons_self),
      if_pos (magic h List.mem_cons_self)]
    exact ih (fun g hg => magic g (List.mem_cons_of_mem h hg))
      fun g hg => other g (List.mem_cons_of_mem h hg)

/-- Among headers of different formats in front, the walk finds the one of a format. -/
theorem findHeader_of_mem {hs rest : List MetaLayout} {h : MetaLayout}
    (magic : ∀ g ∈ hs, g.magicOk = true) (distinct : (hs.map MetaLayout.fmt).Nodup)
    (hmem : h ∈ hs) : findHeader h.fmt (hs ++ rest) = some h := by
  obtain ⟨before, after, rfl⟩ := List.append_of_mem hmem
  have hother : ∀ g ∈ before, g.fmt ≠ h.fmt := by
    intro g hg heq
    rw [List.map_append, List.map_cons] at distinct
    refine (List.nodup_append.mp distinct).2.2 g.fmt (List.mem_map_of_mem hg) h.fmt ?_ heq
    exact List.mem_cons_self
  rw [List.append_assoc, List.cons_append,
    findHeader_append (fun g hg => magic g (List.mem_append_left _ hg)) hother, findHeader,
    if_pos rfl, if_pos (magic h hmem)]

/-- The reader opens the header of a format that the scan found, where the formats differ. -/
theorem metatileReader_of_mem {buf : Bytes} {mask : ProtoFmt} {h : MetaLayout}
    (distinct : ((readHeaders buf mask).map MetaLayout.fmt).Nodup)
    (hmem : h ∈ readHeaders buf mask) : (metatileReader buf h.fmt).header = some h := by
  have hblocks : headerBlocks buf =
      readHeaders buf mask ++ (headerBlocks buf).dropWhile (MetaLayout.looksLike mask) :=
    List.takeWhile_append_dropWhile.symm
  rw [metatileReader, hblocks]
  exact findHeader_of_mem (fun g hg => (mem_readHeaders hg).2) distinct hmem

/-- Headers of the mask in a row are read back, when what follows does not look like one. -/
theorem readHeaders_encode {hs : List MetaLayout} {rest : Bytes} {mask : ProtoFmt}
    (good : ∀ h ∈ hs, h.looksLike mask = true) :
    readHeaders (hs.flatMap MetaLayout.encode ++ rest) mask = hs ++ readHeaders rest mask := by
  rw [readHeaders, headerBlocks_flatMap, List.takeWhile_append_of_pos good]
  rfl

end RenderMq
