import RenderMq.Storage.Complete

/-!
# Fetching a metatile from one host

`http_storage::get_meta`, the one that `lts_storage` replaces: the requests go out, and whatever comes of
them the responses are put together. A failed fetch is noted in the result only, so that the walk that
puts them together may have fewer responses than tiles, and reads past their end.

`getsSafely_iff` says when it does not (`AnsweredEnough`). One by one, only the last request may be
answered badly, since the first bad answer ends the fetch. All at once, no request may throw.
-/

namespace RenderMq

/-- `http_storage`, with the part of it that a storage over HTTP has to bring: a request for each tile of
a metatile. -/
structure HttpStorage where
  concurrency : Int := 1
  request : TileProtocol → Slot → String

namespace HttpStorage

variable (http : HttpStorage)

/-- `make_get_requests`, "in metatile order one format after the next". -/
def makeGetRequests (tile : TileProtocol) : List String :=
  (metaSlots tile).map (http.request tile)

/-- The responses to some requests, one by one or all at once. -/
def getTiles (get : String → Fetched) (requests : List String) : Bool × List Response :=
  if http.concurrency < 2 then getMetaSerial get requests else getMetaParallel get requests

/-- `get_meta`. There is no result where it reads a response that is not there. -/
def getMeta (get : String → Fetched) (tile : TileProtocol) : Option (Bool × Bytes) :=
  let (ret, responses) := http.getTiles get (http.makeGetRequests tile)
  (makeMetatile tile responses).map fun metatile => (ret, metatile)

/-- What is asked of a fetch: it reads no response that is not there, and succeeds only if each tile was
got with status 200. -/
structure GetsSafely (get : String → Fetched) (tile : TileProtocol) : Prop where
  inside : http.getMeta get tile ≠ none
  complete : ∀ metatile, http.getMeta get tile = some (true, metatile) →
    ∀ s ∈ metaSlots tile, ∃ response, get (http.request tile s) = .ok response ∧
      response.statusCode = 200

/-- Enough requests are answered. One by one: all but the last are answered well, and the last is
answered. All at once: all are answered. -/
def AnsweredEnough (get : String → Fetched) (tile : TileProtocol) : Prop :=
  if http.concurrency < 2 then
    (∀ s ∈ (metaSlots tile).dropLast, answeredWell (get (http.request tile s)) = true) ∧
      ∀ s ∈ (metaSlots tile).getLast?, answered (get (http.request tile s)) = true
  else ∀ s ∈ metaSlots tile, answered (get (http.request tile s)) = true

end HttpStorage

/-! ## Putting together, or not -/

/-- A walk over positions that has a response for each that takes one. -/
theorem tileSizes_enough {α : Type} (p : α → Bool) (slots : List α) (responses : List Response)
    (enough : (slots.filter p).length ≤ responses.length) :
    ∃ sizes, tileSizes (slots.map p) responses = some sizes ∧ sizes.length = slots.length := by
  induction slots generalizing responses with
  | nil => exact ⟨[], rfl, rfl⟩
  | cons s slots ih =>
    rw [List.map_cons]
    cases hp : p s with
    | false =>
      rw [List.filter_cons_of_neg (by simp [hp])] at enough
      obtain ⟨sizes, hsizes, hlength⟩ := ih responses enough
      exact ⟨0#32 :: sizes, by rw [tileSizes, hsizes, Option.map_some], by simp [hlength]⟩
    | true =>
      rw [List.filter_cons_of_pos hp, List.length_cons] at enough
      cases responses with
      | nil => exact absurd enough (Nat.not_succ_le_zero _)
      | cons response responses =>
        obtain ⟨sizes, hsizes, hlength⟩ := ih responses (Nat.le_of_succ_le_succ enough)
        exact ⟨_ :: sizes, by rw [tileSizes, hsizes, Option.map_some], by simp [hlength]⟩

/-- **When the walk stays among the responses.** -/
theorem makeMetatile_eq_none_iff {tile : TileProtocol} {responses : List Response} :
    makeMetatile tile responses = none ↔ responses.length < (metaSlots tile).length := by
  refine ⟨fun hnone => ?_, makeMetatile_short⟩
  by_contra hnot
  obtain ⟨sizes, hsizes, hlength⟩ :=
    tileSizes_enough (fun s : Slot => inGrid tile.z s.2) (allSlots (getFormatsVec tile.format))
      responses (Nat.le_of_not_lt hnot)
  have hcount : sizes.length = (getFormatsVec tile.format).length * 64 := by
    rw [hlength, allSlots, List.length_flatMap]
    simp
  have hheaders : ∃ headers, writeHeaders (metaFloor tile.x) (metaFloor tile.y) tile.z
      (getFormatsVec tile.format) sizes = .ok headers :=
    ⟨_, by rw [writeHeaders, if_neg (not_not.mpr hcount)]⟩
  obtain ⟨headers, hheaders⟩ := hheaders
  simp only [makeMetatile, slots_eq, hsizes, Option.bind_eq_bind, Option.bind_some, xyToMetaXy,
    hheaders, Except.toOption] at hnone
  cases hnone

/-! ## How many responses there are -/

section Fetch

variable {α : Type} {get : String → Fetched} {url : α → String}

/-- One by one, there are as many responses as requests unless one before the last is answered badly,
or the last is not answered. -/
theorem length_getMetaSerial_iff (slots : List α) :
    slots.length ≤ (getMetaSerial get (slots.map url)).2.length ↔
      (∀ s ∈ slots.dropLast, answeredWell (get (url s)) = true) ∧
        ∀ s ∈ slots.getLast?, answered (get (url s)) = true := by
  induction slots with
  | nil => simp [getMetaSerial]
  | cons s slots ih =>
    cases hget : get (url s) with
    | error message =>
      rw [LtsStorage.serial_error hget]
      refine iff_of_false (by simp) fun h => ?_
      cases slots with
      | nil => simpa [hget, answered] using h.2 s rfl
      | cons t slots => simpa [hget, answeredWell] using h.1 s List.mem_cons_self
    | ok response =>
      cases hgood : response.good with
      | false =>
        rw [LtsStorage.serial_bad hget hgood]
        cases slots with
        | nil => simp [hget, answered]
        | cons t slots => simp [hget, answeredWell, hgood]
      | true =>
        rw [LtsStorage.serial_good hget hgood, List.length_cons, List.length_cons,
          Nat.succ_le_succ_iff, ih]
        cases slots with
        | nil => simp [hget, answered]
        | cons t slots => simp [hget, answeredWell, hgood]

/-- All at once, there are as many responses as requests unless one throws. -/
theorem length_getMetaParallel_iff (slots : List α) :
    slots.length ≤ (getMetaParallel get (slots.map url)).2.length ↔
      ∀ s ∈ slots, answered (get (url s)) = true := by
  by_cases hall : ∀ s ∈ slots, answered (get (url s)) = true
  · rw [LtsStorage.getMetaParallel_ok hall, List.length_map]
    exact iff_of_true (le_refl _) hall
  · refine iff_of_false ?_ hall
    push Not at hall
    obtain ⟨s, hs, hmissing⟩ := hall
    rw [LtsStorage.getMetaParallel_error ⟨s, hs, by simpa using hmissing⟩]
    exact Nat.not_le_of_gt (List.length_pos_of_mem hs)

end Fetch

/-! ## The fetch -/

namespace HttpStorage

variable {http : HttpStorage} {get : String → Fetched} {tile : TileProtocol}

/-- The fetch stays among the responses exactly when enough requests are answered. -/
theorem getMeta_inside_iff : http.getMeta get tile ≠ none ↔ http.AnsweredEnough get tile := by
  simp only [getMeta, ne_eq, Option.map_eq_none_iff, makeMetatile_eq_none_iff, not_lt]
  unfold AnsweredEnough getTiles
  split
  · exact length_getMetaSerial_iff (metaSlots tile)
  · exact length_getMetaParallel_iff (metaSlots tile)

/-- What succeeds has all tiles. -/
theorem getTiles_ret {α : Type} {url : α → String} {slots : List α}
    (h : (http.getTiles get (slots.map url)).1 = true) :
    ∀ s ∈ slots, answeredWell (get (url s)) = true := by
  unfold getTiles at h
  split at h
  · rw [LtsStorage.getMetaSerial_ret] at h
    exact List.all_eq_true.mp h
  · by_cases hall : ∀ s ∈ slots, answered (get (url s)) = true
    · rw [LtsStorage.getMetaParallel_ok hall] at h
      exact List.all_eq_true.mp h
    · push Not at hall
      obtain ⟨s, hs, hmissing⟩ := hall
      rw [LtsStorage.getMetaParallel_error ⟨s, hs, by simpa using hmissing⟩] at h
      cases h

/-- **The fetch of a metatile** is safe exactly when enough of its requests are answered.

What comes of each request is an argument, an exception included, and so are the requests themselves;
the concurrency is any. That a fetch is safe does not mean that it succeeds. -/
theorem getsSafely_iff (http : HttpStorage) (get : String → Fetched) (tile : TileProtocol) :
    http.GetsSafely get tile ↔ http.AnsweredEnough get tile := by
  rw [← getMeta_inside_iff]
  refine ⟨fun h => h.inside, fun hinside => ⟨hinside, fun metatile h s hs => ?_⟩⟩
  obtain ⟨_, _, heq⟩ := Option.map_eq_some_iff.mp h
  have hret : (http.getTiles get (http.makeGetRequests tile)).1 = true := congrArg Prod.fst heq
  obtain ⟨hget, hgood⟩ := ok_of_answeredWell (getTiles_ret hret s hs)
  refine ⟨_, hget, ?_⟩
  simp only [Response.good, Bool.and_eq_true, decide_eq_true_eq] at hgood
  exact hgood.1

/-- At zoom 0 there is one tile, and the host is out of reach: its response is read, and there is
none. -/
theorem getMeta_reads_past_end :
    ¬ ∀ (http : HttpStorage) (get : String → Fetched) (tile : TileProtocol),
      http.GetsSafely get tile := by
  intro hall
  have hsafe := hall { request := fun _ _ => "" } (fun _ => .error "couldn't connect") { z := 0 }
  exact hsafe.inside rfl

end HttpStorage

end RenderMq
