import RenderMq.Storage.Requests

/-!
# The parts of a put

`make_put_requests` believes the headers of the buffer it is given: how many entries there are, where
a tile starts and how long it is. What it does with a buffer that is not a metatile is told by
`makePutParts`, which keeps apart the two ways to end early (`PutFault`): an exception, and a step
outside of the index of a header or of the buffer.

`staysInside_iff` says for which buffers there is no such step: each header up to the first that is not
of a single format, at which the walk throws, has at most 64 entries, and the entries of its tiles are
in bounds (`PutsInside`). The URLs of the second copies are then as many as the requests, for any
buffer.
-/

namespace RenderMq

/-- Why `make_put_requests` makes no requests. -/
inductive PutFault where
  /-- It reads an entry that the header does not have, or takes a part from outside of the buffer. -/
  | outside
  | threw (message : String)
  deriving DecidableEq

namespace LtsStorage

variable (lts : LtsStorage)

/-- The requests for the tile at position `i` of a header; none for an empty tile. -/
def makePutPart (tile : TileProtocol) (metatile : Bytes) (header : MetaLayout) (mime : String)
    (i : Nat) : Except PutFault (List PutRequest) :=
  let coord := xyToMetaXy tile.x tile.y
  match header.index.toList[i]? with
  | none => .error .outside
  | some entry =>
    if entry.size = 0#32 then .ok []
    else
      match lts.formUrl (coord.1 + (i % 8 : Nat)) (coord.2 + (i / 8 : Nat)) tile.z tile.style
          header.fmt .primary with
      | .error message => .error (.threw message)
      | .ok url =>
        if entry.InBounds metatile then .ok [⟨url, mime, entry.bytes metatile⟩]
        else .error .outside

/-- The requests for the tiles of a header. -/
def makeHeaderParts (tile : TileProtocol) (metatile : Bytes) (header : MetaLayout) :
    Except PutFault (List PutRequest) :=
  match mimeTypeFor header.fmt with
  | .error message => .error (.threw message)
  | .ok mime =>
    (List.range header.count.toInt.toNat).flatMapM (lts.makePutPart tile metatile header mime)

/-- `make_put_requests`, with the reason where there are no requests. -/
def makePutParts (tile : TileProtocol) (metatile : Bytes) : Except PutFault (List PutRequest) :=
  (readHeaders metatile fmtAll).flatMapM (lts.makeHeaderParts tile metatile)

/-- What is asked of a put: no step outside of a header or of the buffer, and one URL for each request
where the requests are paired with the URLs of the second copies. -/
structure StaysInside (tile : TileProtocol) (metatile : Bytes) : Prop where
  inside : lts.makePutParts tile metatile ≠ .error .outside
  paired : ∀ requests, lts.makePutParts tile metatile = .ok requests →
    ∃ urls, lts.makeReplicaUrls tile metatile = some urls ∧ urls.length = requests.length

/-- A header says nothing that leads outside: it has no more entries than there are, and each that has a
tile is in bounds. -/
structure PutsInside (metatile : Bytes) (header : MetaLayout) : Prop where
  count : header.count.toInt ≤ 64
  entries : ∀ i : Fin 64, ((i : Nat) : Int) < header.count.toInt →
    (header.index.get i).size ≠ 0#32 → (header.index.get i).InBounds metatile

variable {tile : TileProtocol} {metatile : Bytes} {header : MetaLayout}

/-! ## One header -/

theorem getElem?_index (header : MetaLayout) (i : Fin 64) :
    header.index.toList[(i : Nat)]? = some (header.index.get i) := by
  rw [List.getElem?_eq_getElem (by simp)]
  rfl

/-- An entry of a header that has it: the part is taken when it is in bounds. -/
theorem makePutPart_eq (single : header.fmt ∈ singleFormats) (mime : String) (i : Fin 64) :
    lts.makePutPart tile metatile header mime i =
      if (header.index.get i).size = 0#32 then .ok []
      else if (header.index.get i).InBounds metatile then
        .ok [⟨lts.slotUrl tile .primary (header.fmt, i), mime, (header.index.get i).bytes metatile⟩]
      else .error .outside := by
  simp only [makePutPart, getElem?_index, formUrl_single lts _ _ _ _ _ single]
  rfl

/-- In a single format nothing throws. -/
theorem makePutPart_fault (single : header.fmt ∈ singleFormats) {mime : String} {i : Nat}
    {fault : PutFault} (h : lts.makePutPart tile metatile header mime i = .error fault) :
    fault = .outside := by
  by_cases hi : i < 64
  · rw [lts.makePutPart_eq single mime ⟨i, hi⟩] at h
    split at h
    · cases h
    · split at h
      · cases h
      · exact (Except.error.inj h).symm
  · have hnone : header.index.toList[i]? = none := by
      rw [List.getElem?_eq_none_iff, Vector.length_toList]
      omega
    rw [makePutPart, hnone] at h
    exact (Except.error.inj h).symm

/-- The loop over the entries goes outside exactly when the header leads there. -/
theorem flatMapM_makePutPart_iff (single : header.fmt ∈ singleFormats) (mime : String) :
    (List.range header.count.toInt.toNat).flatMapM (lts.makePutPart tile metatile header mime) =
        .error .outside ↔ ¬ PutsInside metatile header := by
  rw [Pieces.flatMapM_eq_error_iff_exists fun i _ fault => lts.makePutPart_fault single]
  constructor
  · rintro ⟨i, hi, hpart⟩ hinside
    have hlt : i < header.count.toInt.toNat := List.mem_range.mp hi
    have hcount := hinside.count
    have h64 : i < 64 := by omega
    rw [lts.makePutPart_eq single mime ⟨i, h64⟩] at hpart
    split at hpart
    · cases hpart
    · next hsize =>
      have hbounds := hinside.entries ⟨i, h64⟩ (by simpa using hlt) hsize
      rw [if_pos hbounds] at hpart
      cases hpart
  · intro hinside
    by_cases hcount : header.count.toInt ≤ 64
    · -- an entry that has a tile is out of bounds
      obtain ⟨i, hlt, hsize, hbounds⟩ : ∃ i : Fin 64, ((i : Nat) : Int) < header.count.toInt ∧
          (header.index.get i).size ≠ 0#32 ∧ ¬ (header.index.get i).InBounds metatile := by
        by_contra hnone
        refine hinside ⟨hcount, fun i hlt hsize => ?_⟩
        by_contra hbounds
        exact hnone ⟨i, hlt, hsize, hbounds⟩
      refine ⟨i, List.mem_range.mpr (by omega), ?_⟩
      rw [lts.makePutPart_eq single mime i, if_neg hsize, if_neg hbounds]
    · -- the entry after the last is read
      refine ⟨64, List.mem_range.mpr (by omega), ?_⟩
      rw [makePutPart, List.getElem?_eq_none (by simp)]

/-- A header of a single format leads outside or not; any other throws. -/
theorem makeHeaderParts_outside_iff :
    lts.makeHeaderParts tile metatile header = .error .outside ↔
      header.fmt ∈ singleFormats ∧ ¬ PutsInside metatile header := by
  unfold makeHeaderParts
  cases hmime : mimeTypeFor header.fmt with
  | error message =>
    refine iff_of_false (fun h => by cases h) (fun h => ?_)
    obtain ⟨mime, _, hok, _⟩ := fileTypeFor_single header.fmt h.1
    rw [hmime] at hok
    cases hok
  | ok mime =>
    have hsome : (mimeTypeFor header.fmt).toOption = some mime := by
      rw [hmime]
      rfl
    have single : header.fmt ∈ singleFormats := single_of_mimeTypeFor hsome
    exact (lts.flatMapM_makePutPart_iff single mime).trans (and_iff_right single).symm

/-- Where a header does not lead outside, it is gone through without an error if it is of a single
format. -/
theorem makeHeaderParts_ok_iff :
    (∃ requests, lts.makeHeaderParts tile metatile header = .ok requests) ↔
      header.fmt ∈ singleFormats ∧ PutsInside metatile header := by
  constructor
  · rintro ⟨requests, hok⟩
    have single : header.fmt ∈ singleFormats := by
      unfold makeHeaderParts at hok
      cases hmime : mimeTypeFor header.fmt with
      | error message =>
        rw [hmime] at hok
        cases hok
      | ok mime =>
        have hsome : (mimeTypeFor header.fmt).toOption = some mime := by
          rw [hmime]
          rfl
        exact single_of_mimeTypeFor hsome
    refine ⟨single, ?_⟩
    by_contra hinside
    rw [lts.makeHeaderParts_outside_iff.mpr ⟨single, hinside⟩] at hok
    cases hok
  · rintro ⟨single, hinside⟩
    cases hparts : lts.makeHeaderParts tile metatile header with
    | ok requests => exact ⟨requests, rfl⟩
    | error fault =>
      obtain ⟨mime, _, hmime, _⟩ := fileTypeFor_single header.fmt single
      unfold makeHeaderParts at hparts
      rw [hmime] at hparts
      obtain ⟨before, i, after, _, _, hi⟩ := Pieces.flatMapM_eq_error_iff.mp hparts
      obtain rfl := lts.makePutPart_fault single hi
      exact absurd hinside ((lts.flatMapM_makePutPart_iff single mime).mp hparts)

/-! ## The buffer -/

/-- The headers that the walk comes to before it throws. -/
def reachedHeaders (metatile : Bytes) : List MetaLayout :=
  (readHeaders metatile fmtAll).takeWhile fun h => singleFormats.contains h.fmt

/-- The walk over the headers goes outside exactly when a header that it comes to leads there. -/
theorem makePutParts_inside_iff :
    lts.makePutParts tile metatile ≠ .error .outside ↔
      ∀ h ∈ reachedHeaders metatile, PutsInside metatile h := by
  unfold makePutParts
  cases hparts : (readHeaders metatile fmtAll).flatMapM (lts.makeHeaderParts tile metatile) with
  | ok requests =>
    refine iff_of_true (fun h => by cases h) fun h hmem => ?_
    have hok := Pieces.ok_of_flatMapM_ok hparts h ((List.takeWhile_subset _) hmem)
    exact (lts.makeHeaderParts_ok_iff.mp hok).2
  | error fault =>
    obtain ⟨before, a, after, hheaders, hbefore, ha⟩ := Pieces.flatMapM_eq_error_iff.mp hparts
    have hpre : ∀ b ∈ before, b.fmt ∈ singleFormats ∧ PutsInside metatile b :=
      fun b hb => lts.makeHeaderParts_ok_iff.mp (hbefore b hb)
    have htake : reachedHeaders metatile =
        before ++ (a :: after).takeWhile fun h => singleFormats.contains h.fmt := by
      rw [reachedHeaders, hheaders, List.takeWhile_append_of_pos]
      exact fun b hb => List.contains_iff_mem.mpr (hpre b hb).1
    by_cases hfmt : a.fmt ∈ singleFormats
    · -- the first header that fails is of a single format, and leads outside
      have hnot : ¬ PutsInside metatile a := by
        intro hinside
        obtain ⟨requests, hok⟩ := lts.makeHeaderParts_ok_iff.mpr ⟨hfmt, hinside⟩
        rw [ha] at hok
        cases hok
      have houtside : lts.makeHeaderParts tile metatile a = .error .outside :=
        lts.makeHeaderParts_outside_iff.mpr ⟨hfmt, hnot⟩
      obtain rfl := Except.error.inj (ha.symm.trans houtside)
      refine iff_of_false (fun h => h rfl) (fun h => hnot (h a ?_))
      rw [htake, List.takeWhile_cons, if_pos (List.contains_iff_mem.mpr hfmt)]
      exact List.mem_append_right _ List.mem_cons_self
    · -- the walk throws there, and comes to no further header
      refine iff_of_true (fun h => ?_) fun h hmem => ?_
      · obtain rfl := Except.error.inj h
        exact hfmt (lts.makeHeaderParts_outside_iff.mp ha).1
      · rw [htake, List.takeWhile_cons, if_neg (by simpa using hfmt), List.append_nil] at hmem
        exact (hpre h hmem).2

/-- What is made is what `makePutRequests` makes. -/
theorem makePutRequests_of_parts {requests : List PutRequest}
    (h : lts.makePutParts tile metatile = .ok requests) :
    lts.makePutRequests tile metatile = some requests := by
  refine Pieces.flatMapM_of_ok (fun header _ bs hbs => ?_) requests h
  have hok := lts.makeHeaderParts_ok_iff.mp ⟨bs, hbs⟩
  obtain ⟨mime, _, hmime, _⟩ := fileTypeFor_single header.fmt hok.1
  simp only [makeHeaderParts, hmime] at hbs
  rw [hmime]
  refine Pieces.flatMapM_of_ok (fun i hi as has => ?_) bs hbs
  have hcount := hok.2.count
  have hlt := List.mem_range.mp hi
  have h64 : i < 64 := by omega
  rw [lts.makePutPart_eq hok.1 mime ⟨i, h64⟩] at has
  have hentry := getElem?_index header ⟨i, h64⟩
  simp only [putRequest, hentry, formUrl_single lts _ _ _ _ _ hok.1]
  split at has
  · next hsize =>
    obtain rfl := Except.ok.inj has
    simp [hsize]
  · next hsize =>
    split at has
    · next hbounds =>
      obtain rfl := Except.ok.inj has
      simp only [Option.bind_eq_bind, Option.bind_some, if_neg hsize, bytesOf_of_inBounds hbounds]
      rfl
    · cases has

/-- **The parts of a put.** All of them stay inside, and the two walks of a put go together, exactly
when each header that is come to leads nowhere outside.

The metatile is any bytes, and the tile any. The walks are those that make the requests and the URLs of
the second copies. What the hosts do with the requests is not part of this. -/
theorem staysInside_iff (tile : TileProtocol) (metatile : Bytes) :
    lts.StaysInside tile metatile ↔ ∀ h ∈ reachedHeaders metatile, PutsInside metatile h := by
  refine Iff.trans ⟨fun h => h.inside, fun hinside => ⟨hinside, fun requests hok => ?_⟩⟩
    lts.makePutParts_inside_iff
  obtain ⟨tiles, _, rfl, hurls⟩ := lts.putTiles_together (lts.makePutRequests_of_parts hok)
  exact ⟨_, hurls, by rw [List.length_map, List.length_map]⟩

/-- The header of a metatile whose tiles were cut off: each would be one byte behind it. -/
def cutOff : MetaLayout where
  magic := META_MAGIC
  count := 64#32
  x := 0#32
  y := 0#32
  z := 0#32
  fmt := fmtPNG
  index := Vector.replicate 64 ⟨536#32, 1#32⟩

/-- A part of a metatile that was cut off is taken from behind the buffer. -/
theorem put_leaves_buffer :
    ¬ ∀ (lts : LtsStorage) (tile : TileProtocol) (metatile : Bytes),
      lts.StaysInside tile metatile := by
  intro hall
  have hstays := hall ⟨[("localhost", 8080)], fun _ => 0, "tiles", "1.0", 1, 300⟩ {}
    (cutOff.encode ++ [])
  have hreached : cutOff ∈ reachedHeaders (cutOff.encode ++ []) := by
    rw [reachedHeaders, readHeaders, headerBlocks_encode]
    exact List.mem_cons_self
  have hinside := (makePutParts_inside_iff _).mp hstays.inside cutOff hreached
  have hbounds := (hinside.entries 0 (by decide) (by decide)).2.2
  rw [List.append_nil, MetaLayout.length_encode] at hbounds
  exact absurd hbounds (by decide)

end LtsStorage

end RenderMq
