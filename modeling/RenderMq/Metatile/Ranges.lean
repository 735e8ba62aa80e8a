import RenderMq.Metatile.Layout

/-!
# The ranges that the reader answers

`metatile_reader::get` answers a pair of pointers into the buffer (`MetatileReader.range`). The two
fields of an entry are signed, and are converted to `size_t` before they are added, so the sum may
wrap; it is the sum alone that is compared with the size of the buffer.

`range_inBuffer_iff` says when the pair is a range of the buffer: unless the entry has a negative field
that makes the sum wrap to a place inside the buffer (`Entry.WrapsInto`). Then the pair starts before
the buffer, or ends before it starts.
-/

namespace RenderMq

/-! ## Which header is opened -/

/-- The header that a format is read from: the first block of the format, where all blocks up to it
have the magic. -/
def HeaderOf (fmt : ProtoFmt) (blocks : List MetaLayout) (h : MetaLayout) : Prop :=
  ∃ before after, blocks = before ++ h :: after ∧
    (∀ g ∈ before, g.magicOk = true ∧ g.fmt ≠ fmt) ∧ h.fmt = fmt ∧ h.magicOk = true

theorem headerOf_cons {fmt : ProtoFmt} {g h : MetaLayout} {blocks : List MetaLayout} :
    HeaderOf fmt (g :: blocks) h ↔
      (g.fmt = fmt ∧ g.magicOk = true ∧ g = h) ∨
        (g.fmt ≠ fmt ∧ g.magicOk = true ∧ HeaderOf fmt blocks h) := by
  constructor
  · rintro ⟨before, after, hblocks, hbefore, hfmt, hmagic⟩
    cases before with
    | nil =>
      obtain ⟨rfl, _⟩ := List.cons_eq_cons.mp hblocks
      exact .inl ⟨hfmt, hmagic, rfl⟩
    | cons b before =>
      obtain ⟨rfl, hrest⟩ := List.cons_eq_cons.mp hblocks
      obtain ⟨hfirst, hothers⟩ := List.forall_mem_cons.mp hbefore
      exact .inr ⟨hfirst.2, hfirst.1, before, after, hrest, hothers, hfmt, hmagic⟩
  · rintro (⟨hfmt, hmagic, rfl⟩ | ⟨hfmt, hmagic, before, after, rfl, hbefore, hh⟩)
    · exact ⟨[], blocks, rfl, by simp, hfmt, hmagic⟩
    · exact ⟨g :: before, after, rfl, List.forall_mem_cons.mpr ⟨⟨hmagic, hfmt⟩, hbefore⟩, hh⟩

/-- **What the walk of the reader finds.** -/
theorem findHeader_eq_some_iff {fmt : ProtoFmt} {blocks : List MetaLayout} {h : MetaLayout} :
    findHeader fmt blocks = some h ↔ HeaderOf fmt blocks h := by
  induction blocks with
  | nil =>
    refine iff_of_false (fun hnone => by cases hnone) ?_
    rintro ⟨before, after, hblocks, _⟩
    exact List.append_ne_nil_of_right_ne_nil before (List.cons_ne_nil h after) hblocks.symm
  | cons g blocks ih =>
    rw [headerOf_cons, ← ih, findHeader]
    by_cases hfmt : g.fmt = fmt <;> by_cases hmagic : g.magicOk = true <;> simp [hfmt, hmagic]

/-! ## The range -/

/-- `metatile_reader::get`, its two pointers counted from the start of the buffer. -/
def MetatileReader.range (r : MetatileReader) (x y : Int) : Nat × Nat :=
  match r.header with
  | some h =>
    let e := h.index.get (tileIndex x y)
    let tileOffset := e.offset.signExtend 64
    let tileSize := e.size.signExtend 64
    if (tileOffset + tileSize).toNat ≤ r.data.length then
      (tileOffset.toNat, (tileOffset + tileSize).toNat)
    else (r.data.length, r.data.length)
  | none => (r.data.length, r.data.length)

/-- A pair of positions is a range of a buffer. -/
def InBuffer (range : Nat × Nat) (data : Bytes) : Prop :=
  range.1 ≤ range.2 ∧ range.2 ≤ data.length

instance (range : Nat × Nat) (data : Bytes) : Decidable (InBuffer range data) :=
  inferInstanceAs (Decidable (_ ∧ _))

/-! ## Sums that wrap -/

namespace Entry

/-- The sum of offset and size as the reader forms it. -/
def sum (e : Entry) : BitVec 64 := e.offset.signExtend 64 + e.size.signExtend 64

/-- Converted to `size_t`, offset and size add up to more than a `size_t`: both are negative, or one is
and the other makes up for it. -/
def Wraps (e : Entry) : Prop :=
  (e.offset.toInt < 0 ∧ e.size.toInt < 0) ∨
    ((e.offset.toInt < 0 ∨ e.size.toInt < 0) ∧ 0 ≤ e.offset.toInt + e.size.toInt)

/-- The sum wraps, to a place up to the end of a buffer. -/
def WrapsInto (e : Entry) (data : Bytes) : Prop := e.Wraps ∧ e.sum.toNat ≤ data.length

/-- An `int` as a `size_t`. -/
theorem toNat_signExtend (w : BitVec 32) :
    ((w.signExtend 64).toNat : Int) = if w.toInt < 0 then w.toInt + 2 ^ 64 else w.toInt := by
  have hint : (w.signExtend 64).toInt = w.toInt := BitVec.toInt_signExtend_of_le (by decide)
  have hcond := BitVec.toInt_eq_toNat_cond (x := w.signExtend 64)
  have hlt : (w.signExtend 64).toNat < 2 ^ 64 := (w.signExtend 64).isLt
  have hlow : -2 ^ 31 ≤ w.toInt ∧ w.toInt < 2 ^ 31 := ⟨BitVec.le_toInt w, BitVec.toInt_lt⟩
  rw [hint] at hcond
  split at hcond <;> split <;> omega

/-- Where the sum ends up. -/
theorem toNat_sum (e : Entry) :
    (e.Wraps → e.sum.toNat + 2 ^ 64 =
      (e.offset.signExtend 64).toNat + (e.size.signExtend 64).toNat) ∧
    (¬ e.Wraps → e.sum.toNat = (e.offset.signExtend 64).toNat + (e.size.signExtend 64).toNat) := by
  have ho := toNat_signExtend e.offset
  have hs := toNat_signExtend e.size
  have hlow : ∀ w : BitVec 32, -2 ^ 31 ≤ w.toInt ∧ w.toInt < 2 ^ 31 :=
    fun w => ⟨BitVec.le_toInt w, BitVec.toInt_lt⟩
  obtain ⟨ho1, ho2⟩ := hlow e.offset
  obtain ⟨hs1, hs2⟩ := hlow e.size
  have hsum : e.sum.toNat =
      ((e.offset.signExtend 64).toNat + (e.size.signExtend 64).toNat) % 2 ^ 64 :=
    BitVec.toNat_add ..
  unfold Wraps
  split at ho <;> split at hs <;> omega

/-- A sum that wraps ends before it starts. -/
theorem sum_lt_of_wraps {e : Entry} (h : e.Wraps) :
    e.sum.toNat < (e.offset.signExtend 64).toNat := by
  have hsum := (toNat_sum e).1 h
  have hlt : (e.size.signExtend 64).toNat < 2 ^ 64 := (e.size.signExtend 64).isLt
  omega

theorem signExtend_eq_zero_iff {w : BitVec 32} : (w.signExtend 64).toNat = 0 ↔ w = 0#32 := by
  have hw := toNat_signExtend w
  have hlow : -2 ^ 31 ≤ w.toInt ∧ w.toInt < 2 ^ 31 := ⟨BitVec.le_toInt w, BitVec.toInt_lt⟩
  have hzero : w = 0#32 ↔ w.toInt = 0 := BitVec.toInt_inj.symm
  rw [hzero]
  split at hw <;> omega

/-- An entry that passes has the start and the end of its range at one place only if it has no size. -/
theorem start_eq_end_iff (e : Entry) :
    (e.offset.signExtend 64).toNat = e.sum.toNat ↔ e.size = 0#32 := by
  rw [← signExtend_eq_zero_iff]
  have hlt : (e.offset.signExtend 64).toNat < 2 ^ 64 := (e.offset.signExtend 64).isLt
  have hlt' : (e.size.signExtend 64).toNat < 2 ^ 64 := (e.size.signExtend 64).isLt
  by_cases hwraps : e.Wraps
  · have hsum := (toNat_sum e).1 hwraps
    omega
  · have hsum := (toNat_sum e).2 hwraps
    omega

end Entry

/-! ## When the range is one -/

/-- The sum of an entry passes for a place in a buffer, while its range leaves the buffer. -/
def Entry.Escapes (e : Entry) (data : Bytes) : Prop :=
  e.sum.toNat ≤ data.length ∧
    data.length < (e.offset.signExtend 64).toNat + (e.size.signExtend 64).toNat

/-- In a buffer that a `size_t` can measure, the entries that escape are those that wrap into it. -/
theorem Entry.escapes_iff {e : Entry} {data : Bytes} (hdata : data.length < 2 ^ 64) :
    e.Escapes data ↔ e.WrapsInto data := by
  unfold Entry.Escapes Entry.WrapsInto
  by_cases hwraps : e.Wraps
  · have hsum := (toNat_sum e).1 hwraps
    constructor
    · exact fun h => ⟨hwraps, h.1⟩
    · exact fun h => ⟨h.2, by omega⟩
  · have hsum := (toNat_sum e).2 hwraps
    constructor
    · rintro ⟨hpass, hleaves⟩
      omega
    · exact fun h => absurd h.1 hwraps

/-- The string that a caller makes of the range is defined, unless the entry escapes. -/
theorem get_isSome_iff (data : Bytes) (fmt : ProtoFmt) (x y : Int) :
    ((metatileReader data fmt).get x y).isSome ↔
      ∀ h, HeaderOf fmt (headerBlocks data) h → ¬ (h.index.get (tileIndex x y)).Escapes data := by
  simp only [← findHeader_eq_some_iff]
  unfold MetatileReader.get metatileReader
  cases findHeader fmt (headerBlocks data) with
  | none =>
    refine iff_of_true rfl ?_
    intro h hh
    cases hh
  | some h =>
    simp only [Option.some.injEq, forall_eq']
    set e := h.index.get (tileIndex x y)
    show (if e.sum.toNat ≤ data.length then bytesOf data _ _ else _).isSome ↔ ¬ e.Escapes data
    unfold Entry.Escapes bytesOf
    split
    · next hpass => split <;> simp [hpass] <;> omega
    · next hpass => exact iff_of_true rfl fun h => hpass h.1

/-- The range in a buffer, by the header that was found. -/
theorem range_inBuffer_of_header (r : MetatileReader) (x y : Int) :
    InBuffer (r.range x y) r.data ↔
      ∀ h, r.header = some h → ¬ (h.index.get (tileIndex x y)).WrapsInto r.data := by
  unfold MetatileReader.range
  cases hheader : r.header with
  | none =>
    refine iff_of_true ⟨le_refl _, le_refl _⟩ ?_
    intro h hh
    cases hh
  | some h =>
    simp only [Option.some.injEq, forall_eq']
    set e := h.index.get (tileIndex x y)
    show InBuffer (if e.sum.toNat ≤ r.data.length then
      ((e.offset.signExtend 64).toNat, e.sum.toNat) else _) r.data ↔ _
    by_cases hpass : e.sum.toNat ≤ r.data.length
    · rw [if_pos hpass]
      by_cases hwraps : e.Wraps
      · have hlt := Entry.sum_lt_of_wraps hwraps
        exact iff_of_false (fun h => absurd h.1 (not_le_of_gt hlt)) (fun h => h ⟨hwraps, hpass⟩)
      · have hsum := (Entry.toNat_sum e).2 hwraps
        refine iff_of_true ⟨?_, hpass⟩ (fun h => hwraps h.1)
        show (e.offset.signExtend 64).toNat ≤ e.sum.toNat
        omega
    · rw [if_neg hpass]
      exact iff_of_true ⟨le_refl _, le_refl _⟩ (fun h => hpass h.2)

/-- **The range.** What the reader answers is a range of the buffer, unless the entry it reads has a sum
that wraps into the buffer.

The bytes, the format and the coordinates are any. Offset and size are `int`s that are added as
`size_t`. That the range has the tile is not established: nothing in a buffer says what it was. -/
theorem range_inBuffer_iff (data : Bytes) (fmt : ProtoFmt) (x y : Int) :
    InBuffer ((metatileReader data fmt).range x y) data ↔
      ∀ h, HeaderOf fmt (headerBlocks data) h →
        ¬ (h.index.get (tileIndex x y)).WrapsInto data := by
  have hrange := range_inBuffer_of_header (metatileReader data fmt) x y
  simp only [metatileReader, findHeader_eq_some_iff] at hrange
  exact hrange

/-- A header whose tiles start before the buffer and end in it. -/
def startsBefore : MetaLayout where
  magic := META_MAGIC
  count := 64#32
  x := 0#32
  y := 0#32
  z := 0#32
  fmt := fmtPNG
  index := Vector.replicate 64 ⟨-8#32, 16#32⟩

/-- The sum of -8 and 16 passes for a place in the buffer, and the range starts 8 bytes before it. -/
theorem range_leaves_buffer :
    ¬ ∀ (data : Bytes) (fmt : ProtoFmt) (x y : Int),
      InBuffer ((metatileReader data fmt).range x y) data := by
  intro hall
  have hrange := (range_inBuffer_of_header (metatileReader (startsBefore.encode ++ []) fmtPNG) 0 0).mp
    (hall (startsBefore.encode ++ []) fmtPNG 0 0)
  have hfound : (metatileReader (startsBefore.encode ++ []) fmtPNG).header = some startsBefore := by
    rw [metatileReader, headerBlocks_encode]
    rfl
  refine hrange startsBefore hfound ⟨.inr ⟨.inl ?_, ?_⟩, ?_⟩
  · decide
  · decide
  · show _ ≤ (startsBefore.encode ++ []).length
    rw [List.append_nil, MetaLayout.length_encode]
    decide

end RenderMq
