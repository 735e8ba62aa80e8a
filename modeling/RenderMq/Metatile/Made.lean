import Mathlib.Algebra.Group.Action.Defs
import Mathlib.Algebra.Order.BigOperators.Group.List
import Mathlib.Data.List.Perm.Subperm
import RenderMq.Metatile.Builder

/-!
# What the builder makes is a metatile

`make_meta_read_back` takes it that all tiles are there, and reads them one by one. A worker has no such
promise: it calls `make_meta` with the tiles that it has, and where one is missing, or a format has no
number, there is an exception. What comes out without one has all its tiles (`complete_of_makeMeta`),
and is a metatile: well formed, with the formats that were given and no other (`MadeFrom.isMetatile`).
-/

namespace RenderMq

open Words MetatileBuilder

variable {job : TileProtocol} {size : Nat}

/-! ## Nothing is missing -/

/-- A part that has been written has a number, and all its tiles. -/
theorem complete_of_writePart {b b' : MetatileBuilder} {n : Named} (h : writePart b n = some b') :
    Complete b.size n := by
  obtain ⟨m, hheader, hoffsets⟩ := Option.bind_eq_some_iff.mp h
  obtain ⟨fmt, hfmt, hheader⟩ := Option.bind_eq_some_iff.mp hheader
  obtain ⟨_, _, hheader⟩ := Option.bind_eq_some_iff.mp hheader
  obtain ⟨_, _, hheader⟩ := Option.bind_eq_some_iff.mp hheader
  obtain ⟨_, _, hheader⟩ := Option.bind_eq_some_iff.mp hheader
  have hsize : m.size = b.size := by rw [← Option.some.inj hheader]
  obtain ⟨s, hplaces, _⟩ := Option.bind_eq_some_iff.mp hoffsets
  refine ⟨by rw [hfmt, Option.isSome_some], fun y x hy hx => ?_⟩
  have hcell : (y, x) ∈ cells m.size := mem_cells.mpr (by rw [hsize]; exact ⟨hy, hx⟩)
  obtain ⟨_, _, _, hplace⟩ :=
    Pieces.turn_of_foldlM (Q := fun _ => True) (fun _ _ _ _ _ => trivial) trivial hplaces (y, x) hcell
  obtain ⟨body, hbody, _⟩ := Option.bind_eq_some_iff.mp hplace
  rw [hbody, Option.isSome_some]

/-- **Nothing is missing** where `make_meta` returns. -/
theorem complete_of_makeMeta {tiles : String → Contents} {metaData : Option Contents}
    {formats : List String} {bytes : Bytes}
    (h : makeMeta job tiles metaData formats size = some bytes) :
    ∀ n ∈ namedOf tiles metaData formats, Complete size n := by
  rw [makeMeta_first] at h
  obtain ⟨b, hparts, _⟩ := Option.bind_eq_some_iff.mp h
  intro n hn
  obtain ⟨b', b'', hsize, hwrite⟩ := Pieces.turn_of_foldlM (Q := fun b : MetatileBuilder => b.size = size)
    (fun b n b' hsize hwrite => (size_writePart hwrite).trans hsize) rfl hparts n hn
  rw [← hsize]
  exact complete_of_writePart hwrite

/-! ## The metatile -/

theorem of_mem_headersFrom {offset : Nat} {parts : List Part} {h : MetaLayout}
    (hmem : h ∈ headersFrom job size offset parts) :
    ∃ before p after, parts = before ++ p :: after ∧
      h = p.header job size (offset + dataLength size before) := by
  induction parts generalizing offset with
  | nil => cases hmem
  | cons p parts ih =>
    rcases List.mem_cons.mp hmem with rfl | hmem
    · exact ⟨[], p, parts, rfl, rfl⟩
    · obtain ⟨before, q, after, rfl, rfl⟩ := ih hmem
      refine ⟨p :: before, q, after, rfl, ?_⟩
      have hlength : dataLength size (p :: before) =
          (p.data size).length + dataLength size before := by
        simp [dataLength]
      rw [hlength, Nat.add_assoc]

/-- The scan finds the headers that were written. -/
theorem readHeaders_writtenParts {parts : List Part} (single : ∀ p ∈ parts, p.fmt ∈ singleFormats)
    (quiet : Quiet (parts.flatMap (Part.data size))) :
    readHeaders (writtenParts job size parts) fmtAll =
      headersFrom job size (parts.length * headerSize) parts := by
  rw [writtenParts, readHeaders_encode, readHeaders_quiet quiet, List.append_nil]
  intro h hmem
  have hfmt : h.fmt ∈ parts.map Part.fmt := by
    rw [← headersFrom_fmt job size (parts.length * headerSize)]
    exact List.mem_map_of_mem hmem
  obtain ⟨p, hp, hpfmt⟩ := List.mem_map.mp hfmt
  simp [MetaLayout.looksLike, headersFrom_magic _ _ _ _ h hmem, ← hpfmt,
    looksLike_fmtAll (single p hp)]

/-- The grid of a metatile, in the builder's terms. -/
theorem inGrid_iff {z : Int} (h0 : 0 ≤ z) (h30 : z ≤ 30) (i : Fin 64) :
    inGrid z i = true ↔
      (i : Nat) / 8 < min 8 (2 ^ z.toNat) ∧ (i : Nat) % 8 < min 8 (2 ^ z.toNat) := by
  have hdim : getMetaDimensions z = ((min 8 (2 ^ z.toNat) : Nat) : Int) := by
    have hpow : ((2 ^ z.toNat : Nat) : Int) = 2 ^ z.toNat := Nat.cast_pow ..
    rw [getMetaDimensions_eq h0 h30, METATILE, ← hpow]
    omega
  rw [inGrid, hdim, Bool.and_eq_true, decide_eq_true_eq, decide_eq_true_eq, and_comm]
  exact and_congr Nat.cast_lt Nat.cast_lt

/-- **What is written is a metatile** in the formats of the parts. -/
theorem isMetatile_writtenParts (h0 : 0 ≤ job.z) (h30 : job.z ≤ 30) {parts : List Part}
    (distinct : (parts.map Part.fmt).Nodup) (single : ∀ p ∈ parts, p.fmt ∈ singleFormats)
    (small : (writtenParts job (min 8 (2 ^ job.z.toNat)) parts).length < 2 ^ 31)
    (filled : ∀ p ∈ parts, ∀ cell ∈ cells (min 8 (2 ^ job.z.toNat)), p.body cell ≠ [])
    (quiet : Quiet (parts.flatMap (Part.data (min 8 (2 ^ job.z.toNat))))) :
    IsMetatile job.z (writtenParts job (min 8 (2 ^ job.z.toNat)) parts) ∧
      formatsOf (writtenParts job (min 8 (2 ^ job.z.toNat)) parts) = parts.map Part.fmt := by
  set size := min 8 (2 ^ job.z.toNat)
  have hscan : readHeaders (writtenParts job size parts) fmtAll =
      headersFrom job size (parts.length * headerSize) parts := readHeaders_writtenParts single quiet
  have hformats : formatsOf (writtenParts job size parts) = parts.map Part.fmt := by
    rw [formatsOf, hscan, headersFrom_fmt]
  -- the entries of a header that the scan finds
  have hentry : ∀ h ∈ readHeaders (writtenParts job size parts) fmtAll, ∀ i : Fin 64,
      (h.index.get i).InBounds (writtenParts job size parts) ∧
        ((h.index.get i).size ≠ 0#32 ↔ inGrid job.z i = true) := by
    intro h hmem i
    rw [hscan] at hmem
    obtain ⟨before, p, after, rfl, rfl⟩ := of_mem_headersFrom hmem
    obtain ⟨hbounds, hbytes⟩ := entry_written small i
    rw [header_get]
    refine ⟨hbounds, ?_⟩
    rw [← bytes_ne_nil_iff hbounds, hbytes, inGrid_iff h0 h30]
    split
    · next hcell =>
      have hne := filled p (by simp) ((i : Nat) / 8, (i : Nat) % 8) (mem_cells.mpr hcell)
      exact iff_of_true hne hcell
    · next hcell => exact iff_of_false (fun hne => hne rfl) hcell
  refine ⟨⟨⟨?_, ?_, ?_, fun h hmem i => (hentry h hmem i).1, fun h hmem i => (hentry h hmem i).2⟩, ?_⟩,
    hformats⟩
  · rwa [hformats]
  · rw [hformats]
    exact fun fmt hfmt => by
      obtain ⟨p, hp, rfl⟩ := List.mem_map.mp hfmt
      exact single p hp
  · intro h hmem
    rw [hscan] at hmem
    obtain ⟨_, _, _, _, rfl⟩ := of_mem_headersFrom hmem
    rfl
  · intro fmt hfmt
    rw [hformats] at hfmt
    rw [metatileReader, writtenParts, headerBlocks_flatMap, findHeader_append]
    · exact findHeader_quiet quiet fmt
    · exact headersFrom_magic _ _ _ _
    · rintro h hmem rfl
      refine hfmt ?_
      rw [← headersFrom_fmt job size (parts.length * headerSize)]
      exact List.mem_map_of_mem hmem

/-! ## The metatile of a worker -/

/-- An image or a text as it is saved: it does not begin like a header, and is not too long. -/
structure Encoded (body : Bytes) : Prop where
  starts : ∃ first rest, body = first :: rest ∧ first ≠ 0x4D
  short : body.length < 2 ^ 22

theorem Encoded.nonempty {body : Bytes} (h : Encoded body) : body ≠ [] := by
  obtain ⟨_, _, rfl, _⟩ := h.starts
  exact List.cons_ne_nil _ _

/-- The tiles of some parts do not start like a header. -/
theorem magic_of_encoded {parts : List Part}
    (encoded : ∀ p ∈ parts, ∀ cell ∈ cells size, Encoded (p.body cell)) :
    ¬ encode META_MAGIC <+: parts.flatMap (Part.data size) := by
  have hbodies : parts.flatMap (Part.data size) =
      (parts.flatMap fun p => (cells size).map p.body).flatten := by
    rw [← List.flatMap_id, List.flatMap_assoc]
    simp only [List.flatMap_id]
    rfl
  have hcode : encode META_MAGIC = [0x4D, 0x45, 0x54, 0x41] := by decide
  rw [hbodies, hcode]
  cases hlist : parts.flatMap fun p => (cells size).map p.body with
  | nil => simp
  | cons body bodies =>
    have hmem : body ∈ parts.flatMap fun p => (cells size).map p.body := by simp [hlist]
    obtain ⟨p, hp, hmem⟩ := List.mem_flatMap.mp hmem
    obtain ⟨cell, hcell, rfl⟩ := List.mem_map.mp hmem
    obtain ⟨first, rest, hbody, hfirst⟩ := (encoded p hp cell hcell).starts
    intro hmagic
    rw [List.flatten_cons, hbody, List.cons_append, List.cons_prefix_cons] at hmagic
    exact hfirst hmagic.1.symm

theorem single_of_formatLookup {format : String} {fmt : ProtoFmt}
    (h : formatLookup format = some fmt) : fmt ∈ singleFormats := by
  unfold formatLookup at h
  split_ifs at h
  all_goals
    obtain rfl := Option.some.inj h
    decide

theorem length_data_le {p : Part} (hsize : size ≤ 8)
    (short : ∀ cell ∈ cells size, (p.body cell).length ≤ 2 ^ 22) :
    (p.data size).length ≤ 64 * 2 ^ 22 := by
  have hlength : (cells size).length ≤ 64 := by
    simp only [cells, List.length_flatMap, List.length_map, List.length_range, List.map_const',
      List.sum_replicate, smul_eq_mul]
    exact Nat.mul_le_mul hsize hsize
  rw [Part.data, List.length_flatten, List.map_map]
  refine (List.sum_le_card_nsmul _ (2 ^ 22) ?_).trans ?_
  · rintro n hn
    obtain ⟨cell, hcell, rfl⟩ := List.mem_map.mp hn
    exact short cell hcell
  · rw [List.length_map, smul_eq_mul]
    exact Nat.mul_le_mul_right _ hlength

/-- What is to be known of the parts that a worker writes. -/
structure MadeFrom (job : TileProtocol) (size : Nat) (parts : List Part) (bytes : Bytes) : Prop where
  written : bytes = writtenParts job size parts
  distinct : (parts.map Part.fmt).Nodup
  single : ∀ p ∈ parts, p.fmt ∈ singleFormats
  encoded : ∀ p ∈ parts, ∀ cell ∈ cells size, Encoded (p.body cell)
  small : (writtenParts job size parts).length < 2 ^ 31

/-- Tiles that are encoded, in formats that differ, are four formats at most of 64 tiles at most. -/
theorem madeFrom_of_makeMeta (aligned : Aligned job) (hsize : size ≤ 8)
    {tiles : String → Contents} {metaData : Option Contents} {formats : List String} {bytes : Bytes}
    (distinct : ((namedOf tiles metaData formats).map fun n => formatLookup n.1).Nodup)
    (encoded : ∀ n ∈ namedOf tiles metaData formats, ∀ cell body, n.2 cell = some body →
      Encoded body)
    (h : makeMeta job tiles metaData formats size = some bytes) :
    MadeFrom job size ((namedOf tiles metaData formats).map partOf) bytes ∧
      ((namedOf tiles metaData formats).map partOf).map (fun p => some p.fmt) =
        (namedOf tiles metaData formats).map fun n => formatLookup n.1 := by
  have complete := complete_of_makeMeta h
  set named := namedOf tiles metaData formats
  have hfmts : (named.map partOf).map (fun p => some p.fmt) =
      named.map fun n => formatLookup n.1 := by
    rw [List.map_map]
    exact (List.map_congr_left fun n hn => (complete n hn).fmt).symm
  have hdistinct : ((named.map partOf).map Part.fmt).Nodup := by
    have hsome : (named.map partOf).map (fun p => some p.fmt) =
        ((named.map partOf).map Part.fmt).map some := by
      rw [List.map_map (f := Part.fmt)]
      rfl
    rw [← hfmts, hsome] at distinct
    exact List.Nodup.of_map some distinct
  have hsingle : ∀ p ∈ named.map partOf, p.fmt ∈ singleFormats := by
    intro p hp
    obtain ⟨n, hn, rfl⟩ := List.mem_map.mp hp
    exact single_of_formatLookup (complete n hn).fmt
  have hbody : ∀ p ∈ named.map partOf, ∀ cell ∈ cells size, Encoded (p.body cell) := by
    intro p hp cell hcell
    obtain ⟨n, hn, rfl⟩ := List.mem_map.mp hp
    exact encoded n hn cell _ ((complete n hn).body hcell)
  have hcount : (named.map partOf).length ≤ 4 := by
    have hsub : ((named.map partOf).map Part.fmt).Subperm singleFormats := by
      refine hdistinct.subperm fun fmt hfmt => ?_
      obtain ⟨p, hp, rfl⟩ := List.mem_map.mp hfmt
      exact hsingle p hp
    simpa [singleFormats] using hsub.length_le
  have hdata : dataLength size (named.map partOf) ≤ 4 * (64 * 2 ^ 22) := by
    rw [dataLength]
    refine (List.sum_le_card_nsmul _ (64 * 2 ^ 22) ?_).trans ?_
    · intro n hn
      obtain ⟨p, hp, rfl⟩ := List.mem_map.mp hn
      exact length_data_le hsize fun cell hcell => (hbody p hp cell hcell).short.le
    · rw [List.length_map, smul_eq_mul]
      exact Nat.mul_le_mul_right _ hcount
  have hsmall : (named.map partOf).length * headerSize + dataLength size (named.map partOf) <
      2 ^ 31 := by
    unfold headerSize
    omega
  have hmake := makeMeta_eq aligned hsize (nodup_of_namedOf distinct) complete (by rwa [List.length_map] at hsmall)
  refine ⟨⟨Option.some.inj (h.symm.trans hmake), hdistinct, hsingle, hbody, ?_⟩, hfmts⟩
  rwa [length_writtenParts]

theorem MadeFrom.isMetatile (h0 : 0 ≤ job.z) (h30 : job.z ≤ 30) {parts : List Part} {bytes : Bytes}
    (made : MadeFrom job (min 8 (2 ^ job.z.toNat)) parts bytes) :
    IsMetatile job.z bytes ∧ formatsOf bytes = parts.map Part.fmt := by
  rw [made.written]
  exact isMetatile_writtenParts h0 h30 made.distinct made.single made.small
    (fun p hp cell hcell => (made.encoded p hp cell hcell).nonempty)
    (quiet_of_magic (magic_of_encoded made.encoded))

end RenderMq
