import RenderMq.Storage.RoundTrip

/-!
# What a fetched metatile is made of

A metatile is got from two copies of its tiles, each of which may be missing, expired or out of
reach. What is got should be complete: each tile with the body that one of the copies was answered
with (`Complete`).

The walk that combines the copies takes it that both lists of responses are as long as the list of
tiles. They are not where a request throws, or where one copy stops at an earlier tile than the
other: then it reads a response that is not there, or stops too early. `AnsweredTogether` is when
that does not happen, and `get_meta_complete_iff` says that it is the exact condition.
-/

namespace RenderMq

/-- The response of a request that has one. -/
def responseOf : Fetched → Response
  | .ok response => response
  | .error _ => {}

/-- A request has a response. -/
def answered : Fetched → Bool
  | .ok _ => true
  | .error _ => false

theorem ok_of_answered {r : Fetched} (h : answered r = true) : r = .ok (responseOf r) := by
  cases r with
  | ok => rfl
  | error => cases h

@[simp] theorem good_responseOf (r : Fetched) : (responseOf r).good = answeredWell r := by
  cases r <;> rfl

theorem ok_of_answeredWell {r : Fetched} (h : answeredWell r = true) :
    r = .ok (responseOf r) ∧ (responseOf r).good = true := by
  cases r with
  | ok => exact ⟨rfl, h⟩
  | error => cases h

@[simp] theorem body_responseOf (r : Fetched) : (responseOf r).body = fetchedBody r := by
  cases r <;> rfl

namespace LtsStorage

variable {α : Type} {get get0 get1 : String → Fetched} {url url0 url1 : α → String}
  {slots : List α}

/-! ## One by one -/

/-- The copies fail together: the first tile that is not answered well for both is answered, and not
well, for both. -/
def FailTogether (a b : α → Fetched) : List α → Prop
  | [] => False
  | s :: slots =>
    (answeredWell (a s) = true ∧ answeredWell (b s) = true ∧ FailTogether a b slots) ∨
      (answeredBadly (a s) = true ∧ answeredBadly (b s) = true)

theorem getMetaSerial_ret (slots : List α) :
    (getMetaSerial get (slots.map url)).1 = slots.all fun s => answeredWell (get (url s)) := by
  induction slots with
  | nil => rfl
  | cons s slots ih =>
    rw [List.map_cons, getMetaSerial, List.all_cons]
    cases hget : get (url s) with
    | error => rfl
    | ok response =>
      cases hgood : response.good with
      | false => simp [answeredWell, hgood]
      | true => simp [answeredWell, hgood, ih]

theorem serial_error {s : α} {message : String} (h : get (url s) = .error message) :
    getMetaSerial get ((s :: slots).map url) = (false, []) := by
  rw [List.map_cons, getMetaSerial, h]

theorem serial_bad {s : α} {response : Response} (h : get (url s) = .ok response)
    (bad : response.good = false) :
    getMetaSerial get ((s :: slots).map url) = (false, [response]) := by
  simp only [List.map_cons, getMetaSerial, h, bad, Bool.false_eq_true, if_false]

theorem serial_good {s : α} {response : Response} (h : get (url s) = .ok response)
    (good : response.good = true) :
    (getMetaSerial get ((s :: slots).map url)).2 =
      response :: (getMetaSerial get (slots.map url)).2 := by
  simp only [List.map_cons, getMetaSerial, h, good, if_true]

theorem combine_good {response : Response} (good : response.good = true)
    (responses0 responses1 : List Response) :
    combine (response :: responses0) responses1 =
      (combine responses0 responses1.tail).map fun rest => rest.map (response :: ·) := by
  simp only [combine, good, if_true]

theorem combine_bad_nil {response : Response} (bad : response.good = false)
    (responses0 : List Response) : combine (response :: responses0) [] = none := by
  simp only [combine, bad, Bool.false_eq_true, if_false]

theorem combine_bad_cons {response response' : Response} (bad : response.good = false)
    (responses0 responses1 : List Response) :
    combine (response :: responses0) (response' :: responses1) =
      if response'.good then
        (combine responses0 responses1).map fun rest => rest.map (response' :: ·)
      else some none := by
  simp only [combine, bad, Bool.false_eq_true, if_false]

/-- A response is read that is not there, or there are too few. -/
def RunsShort (combined : Option (Option (List Response))) (slots : Nat) : Prop :=
  combined = none ∨ ∃ rs, combined = some (some rs) ∧ rs.length < slots

theorem RunsShort.cons {combined : Option (Option (List Response))} {slots : Nat}
    (h : RunsShort combined slots) (response : Response) :
    RunsShort (combined.map fun rest => rest.map (response :: ·)) (slots + 1) := by
  rcases h with rfl | ⟨rs, rfl, hshort⟩
  · exact .inl rfl
  · exact .inr ⟨response :: rs, rfl, Nat.succ_lt_succ hshort⟩

/-- With nothing to combine it with, what a copy has runs short. -/
theorem combine_serial_nil (slots : List α)
    (bad : (slots.all fun s => answeredWell (get (url s))) = false) :
    RunsShort (combine (getMetaSerial get (slots.map url)).2 []) slots.length := by
  induction slots with
  | nil => cases bad
  | cons s slots ih =>
    rw [List.all_cons] at bad
    cases hget : get (url s) with
    | error => exact .inr ⟨[], by rw [serial_error hget, combine], Nat.zero_lt_succ _⟩
    | ok response =>
      cases hgood : response.good with
      | false =>
        refine .inl ?_
        rw [serial_bad hget hgood, combine_bad_nil hgood]
      | true =>
        rw [hget, answeredWell, hgood, Bool.true_and] at bad
        rw [serial_good hget hgood, combine_good hgood, List.tail_nil]
        exact (ih bad).cons response

/-- What the two copies come to, one tile after the other: they are found to lack a tile where they fail
together, and else the responses run short. -/
def Settles (get0 get1 : String → Fetched) (url0 url1 : α → String) (slots : List α) : Prop :=
  let combined := combine (getMetaSerial get0 (slots.map url0)).2
    (getMetaSerial get1 (slots.map url1)).2
  let together := FailTogether (fun s => get0 (url0 s)) (fun s => get1 (url1 s)) slots
  (together ∧ combined = some none) ∨ (¬ together ∧ RunsShort combined slots.length)

/-- The first copy stops with an answer: what the second has for the tile decides. -/
theorem Settles.of_bad {s : α} {response0 : Response} (h0 : get0 (url0 s) = .ok response0)
    (hgood0 : response0.good = false)
    (bad1 : ((s :: slots).all fun s => answeredWell (get1 (url1 s))) = false) :
    Settles get0 get1 url0 url1 (s :: slots) := by
  unfold Settles
  intro combined together
  cases h1 : get1 (url1 s) with
  | error =>
    have hcombined : combined = none := by
      simp only [combined]
      rw [serial_bad h0 hgood0, serial_error h1, combine_bad_nil hgood0]
    refine .inr ⟨?_, .inl hcombined⟩
    simp [together, FailTogether, h0, h1, answeredWell, answeredBadly]
  | ok response1 =>
    cases hgood1 : response1.good with
    | false =>
      refine .inl ⟨?_, ?_⟩
      · simp [together, FailTogether, h0, h1, answeredBadly, hgood0, hgood1]
      · simp only [combined]
        rw [serial_bad h0 hgood0, serial_bad h1 hgood1, combine_bad_cons hgood0, hgood1,
          if_neg Bool.false_ne_true]
    | true =>
      have hcombined : combined = some (some [response1]) := by
        simp only [combined]
        rw [serial_bad h0 hgood0, serial_good h1 hgood1, combine_bad_cons hgood0, hgood1,
          if_pos rfl, combine]
        rfl
      refine .inr ⟨?_, .inr ⟨[response1], hcombined, ?_⟩⟩
      · simp [together, FailTogether, h0, h1, answeredWell, answeredBadly, hgood0, hgood1]
      · rw [List.all_cons, h1, answeredWell, hgood1, Bool.true_and] at bad1
        cases slots with
        | nil => cases bad1
        | cons => exact Nat.succ_lt_succ (Nat.zero_lt_succ _)

/-- The first copy goes on: either the second does too, or the responses run short where the first
stops. -/
theorem Settles.of_good {s : α} {response0 : Response} (h0 : get0 (url0 s) = .ok response0)
    (hgood0 : response0.good = true)
    (bad0 : (slots.all fun s => answeredWell (get0 (url0 s))) = false)
    (hrest : answeredWell (get1 (url1 s)) = true → Settles get0 get1 url0 url1 slots) :
    Settles get0 get1 url0 url1 (s :: slots) := by
  unfold Settles
  intro combined together
  have hcombined : combined =
      (combine (getMetaSerial get0 (slots.map url0)).2
        (getMetaSerial get1 ((s :: slots).map url1)).2.tail).map
          fun rest => rest.map (response0 :: ·) := by
    simp only [combined]
    rw [serial_good h0 hgood0, combine_good hgood0]
  rw [hcombined]
  have stops := (combine_serial_nil slots bad0).cons response0
  cases h1 : get1 (url1 s) with
  | error =>
    rw [serial_error h1, List.tail_nil]
    refine .inr ⟨?_, stops⟩
    simp [together, FailTogether, h0, h1, answeredWell, answeredBadly]
  | ok response1 =>
    cases hgood1 : response1.good with
    | false =>
      rw [serial_bad h1 hgood1, List.tail_cons]
      refine .inr ⟨?_, stops⟩
      simp [together, FailTogether, h0, h1, answeredWell, answeredBadly, hgood0, hgood1]
    | true =>
      have htogether : together ↔ FailTogether (fun s => get0 (url0 s))
          (fun s => get1 (url1 s)) slots := by
        simp [together, FailTogether, h0, h1, answeredWell, answeredBadly, hgood0, hgood1]
      rw [serial_good h1 hgood1, List.tail_cons, htogether]
      rw [h1, answeredWell] at hrest
      rcases hrest hgood1 with ⟨hfail, hnone⟩ | ⟨hfail, hshort⟩
      · exact .inl ⟨hfail, by rw [hnone]; rfl⟩
      · exact .inr ⟨hfail, hshort.cons response0⟩

/-- **One by one.** Two copies that both stop settle. -/
theorem combine_serial (slots : List α)
    (bad0 : (slots.all fun s => answeredWell (get0 (url0 s))) = false)
    (bad1 : (slots.all fun s => answeredWell (get1 (url1 s))) = false) :
    Settles get0 get1 url0 url1 slots := by
  induction slots with
  | nil => cases bad0
  | cons s slots ih =>
    cases h0 : get0 (url0 s) with
    | error =>
      refine .inr ⟨?_, .inr ⟨[], ?_, Nat.zero_lt_succ _⟩⟩
      · simp [FailTogether, h0, answeredWell, answeredBadly]
      · rw [serial_error h0, combine]
    | ok response0 =>
      cases hgood0 : response0.good with
      | false => exact .of_bad h0 hgood0 bad1
      | true =>
        rw [List.all_cons, h0, answeredWell, hgood0, Bool.true_and] at bad0
        refine .of_good h0 hgood0 bad0 fun hwell => ih bad0 ?_
        rwa [List.all_cons, hwell, Bool.true_and] at bad1

/-! ## All at once -/

theorem multiGet_ok (all : ∀ s ∈ slots, answered (get (url s)) = true) :
    multiGet get (slots.map url) = .ok (slots.map fun s => responseOf (get (url s))) := by
  rw [multiGet, List.mapM_map]
  exact Pieces.mapM_eq_pure fun s hs => ok_of_answered (all s hs)

/-- One exception loses all responses. -/
theorem multiGet_error (missing : ∃ s ∈ slots, answered (get (url s)) = false) :
    ∃ message, multiGet get (slots.map url) = .error message := by
  induction slots with
  | nil =>
    obtain ⟨s, hs, _⟩ := missing
    cases hs
  | cons s slots ih =>
    rw [multiGet, List.map_cons, List.mapM_cons]
    cases hget : get (url s) with
    | error message => exact ⟨message, rfl⟩
    | ok response =>
      obtain ⟨t, ht, hmissing⟩ := missing
      rcases List.mem_cons.mp ht with rfl | ht
      · rw [hget] at hmissing
        cases hmissing
      · obtain ⟨message, hmessage⟩ := ih ⟨t, ht, hmissing⟩
        rw [multiGet] at hmessage
        exact ⟨message, by rw [hmessage]; rfl⟩

theorem getMetaParallel_ok (all : ∀ s ∈ slots, answered (get (url s)) = true) :
    getMetaParallel get (slots.map url) =
      (slots.all fun s => answeredWell (get (url s)),
        slots.map fun s => responseOf (get (url s))) := by
  rw [getMetaParallel, multiGet_ok all]
  simp only [List.all_map, Function.comp_def, good_responseOf]

theorem getMetaParallel_error (missing : ∃ s ∈ slots, answered (get (url s)) = false) :
    getMetaParallel get (slots.map url) = (false, []) := by
  obtain ⟨message, hmessage⟩ := multiGet_error missing
  rw [getMetaParallel, hmessage]

/-- Two full lists of responses are combined, tile by tile. -/
theorem combine_map (f g : α → Response) (slots : List α) :
    combine (slots.map f) (slots.map g) =
      if slots.all fun s => (f s).good || (g s).good then
        some (some (slots.map fun s => if (f s).good then f s else g s))
      else some none := by
  induction slots with
  | nil => rfl
  | cons s slots ih =>
    rw [List.map_cons, List.map_cons]
    cases hf : (f s).good with
    | true =>
      rw [combine_good hf, List.tail_cons, ih]
      simp only [List.all_cons, hf, Bool.true_or, Bool.true_and, List.map_cons, if_true]
      split <;> rfl
    | false =>
      rw [combine_bad_cons hf]
      cases hg : (g s).good with
      | true =>
        rw [if_pos rfl, ih]
        simp only [List.all_cons, hf, hg, Bool.false_or, Bool.true_and, List.map_cons,
          Bool.false_eq_true, if_false]
        split <;> rfl
      | false => simp [hf, hg]

/-- A full list with a response that is not good is read past the end of none. -/
theorem combine_nil {responses : List Response} (bad : responses.all Response.good = false) :
    combine responses [] = none := by
  induction responses with
  | nil => cases bad
  | cons response responses ih =>
    rw [List.all_cons] at bad
    cases hgood : response.good with
    | false => rw [combine_bad_nil hgood]
    | true =>
      rw [hgood, Bool.true_and] at bad
      rw [combine_good hgood, List.tail_nil, ih bad, Option.map_none]

/-- **All at once.** Two full copies are combined tile by tile. Where a response is missing from either,
its copy is empty, and the responses run short. -/
theorem combine_parallel (get1 : String → Fetched) (url1 : α → String) (slots : List α)
    (bad0 : (slots.all fun s => answeredWell (get0 (url0 s))) = false) :
    let combined := combine (getMetaParallel get0 (slots.map url0)).2
      (getMetaParallel get1 (slots.map url1)).2
    let together := ∀ s ∈ slots, answered (get0 (url0 s)) = true ∧ answered (get1 (url1 s)) = true
    (together ∧ combined =
      if slots.all fun s => answeredWell (get0 (url0 s)) || answeredWell (get1 (url1 s)) then
        some (some (slots.map fun s =>
          if answeredWell (get0 (url0 s)) then responseOf (get0 (url0 s))
          else responseOf (get1 (url1 s))))
      else some none) ∨
    (¬ together ∧ RunsShort combined slots.length) := by
  intro combined together
  by_cases all0 : ∀ s ∈ slots, answered (get0 (url0 s)) = true
  · by_cases all1 : ∀ s ∈ slots, answered (get1 (url1 s)) = true
    · refine .inl ⟨fun s hs => ⟨all0 s hs, all1 s hs⟩, ?_⟩
      simp only [combined]
      rw [getMetaParallel_ok all0, getMetaParallel_ok all1, combine_map]
      simp only [good_responseOf]
    · refine .inr ⟨fun h => all1 fun s hs => (h s hs).2, .inl ?_⟩
      push Not at all1
      obtain ⟨s, hs, hmissing⟩ := all1
      simp only [combined]
      rw [getMetaParallel_ok all0, getMetaParallel_error ⟨s, hs, Bool.not_eq_true _ ▸ hmissing⟩]
      refine combine_nil ?_
      simp only [List.all_map, Function.comp_def, good_responseOf]
      exact bad0
  · refine .inr ⟨fun h => all0 fun s hs => (h s hs).1, .inr ⟨[], ?_, ?_⟩⟩
    · push Not at all0
      obtain ⟨s, hs, hmissing⟩ := all0
      simp only [combined]
      rw [getMetaParallel_error ⟨s, hs, Bool.not_eq_true _ ▸ hmissing⟩, combine]
    · refine List.length_pos_iff.mpr fun hnil => ?_
      rw [hnil] at bad0
      cases bad0

/-! ## The two copies of a metatile -/

variable (lts : LtsStorage)

theorem getCopy_ret (slots : List α) :
    (lts.getCopy get (slots.map url)).1 = slots.all fun s => answeredWell (get (url s)) := by
  unfold getCopy
  split
  · exact getMetaSerial_ret slots
  · by_cases hall : ∀ s ∈ slots, answered (get (url s)) = true
    · rw [getMetaParallel_ok hall]
    · push Not at hall
      obtain ⟨s, hs, hmissing⟩ := hall
      rw [getMetaParallel_error ⟨s, hs, by simpa using hmissing⟩]
      refine (List.all_eq_false.mpr ⟨s, hs, ?_⟩).symm
      cases hget : get (url s) with
      | error => simp [answeredWell]
      | ok => exact absurd (by rw [hget]; rfl) hmissing

/-- What is fetched of a slot. -/
def copyOf (fetch : Replica → String → Fetched) (tile : TileProtocol) (replica : Replica)
    (s : Slot) : Fetched := fetch replica (lts.slotUrl tile replica s)

/-- When `get_meta` does not go wrong: either copy is answered well for all tiles; or else, one by
one, the copies fail together, and all at once, every request is answered. -/
def AnsweredTogether (fetch : Replica → String → Fetched) (tile : TileProtocol) : Prop :=
  let slots := metaSlots tile
  let first := lts.copyOf fetch tile .primary
  let second := lts.copyOf fetch tile .secondary
  (∀ s ∈ slots, answeredWell (first s) = true) ∨ (∀ s ∈ slots, answeredWell (second s) = true) ∨
    if lts.concurrency < 2 then FailTogether first second slots
    else ∀ s ∈ slots, answered (first s) = true ∧ answered (second s) = true

variable (fetch : Replica → String → Fetched) (tile : TileProtocol)

theorem madeOf_pick (pick : Slot → Replica) :
    madeOf tile ((metaSlots tile).map fun s =>
        responseOf (lts.copyOf fetch tile (pick s) s)) =
      .got (metatileOf tile fun s => fetchedBody (lts.copyOf fetch tile (pick s) s)) := by
  simp only [madeOf, makeMetatile_slots, body_responseOf]

/-- Where one of the copies is answered well for each tile, the metatile is made of these. -/
theorem madeOf_together
    (well : ((metaSlots tile).all fun s => answeredWell (lts.copyOf fetch tile .primary s) ||
      answeredWell (lts.copyOf fetch tile .secondary s)) = true) :
    ∃ pick : Slot → Replica,
      (∀ s ∈ metaSlots tile, answeredWell (lts.copyOf fetch tile (pick s) s) = true) ∧
      madeOf tile ((metaSlots tile).map fun s =>
          if answeredWell (lts.copyOf fetch tile .primary s) then
            responseOf (lts.copyOf fetch tile .primary s)
          else responseOf (lts.copyOf fetch tile .secondary s)) =
        .got (metatileOf tile fun s => fetchedBody (lts.copyOf fetch tile (pick s) s)) := by
  let pick (s : Slot) : Replica :=
    if answeredWell (lts.copyOf fetch tile .primary s) then .primary else .secondary
  refine ⟨pick, fun s hs => ?_, ?_⟩
  · have hs := List.all_eq_true.mp well s hs
    simp only [pick]
    split
    · assumption
    · next hbad => exact (Bool.or_eq_true_iff.mp hs).resolve_left hbad
  · rw [← lts.madeOf_pick fetch tile pick]
    refine congrArg (madeOf tile) (List.map_congr_left fun s _ => ?_)
    simp only [pick]
    split <;> rfl

section NeitherWell

variable {lts fetch tile}
  (bad0 : ((metaSlots tile).all fun s => answeredWell (lts.copyOf fetch tile .primary s)) = false)
  (bad1 : ((metaSlots tile).all fun s => answeredWell (lts.copyOf fetch tile .secondary s)) = false)

include bad0 bad1

/-- What `get_meta` comes to when neither copy is answered well for all tiles. -/
theorem getMeta_combine :
    lts.getMeta fetch tile =
      let slots := metaSlots tile
      match combine (lts.getCopy (fetch .primary) (slots.map (lts.slotUrl tile .primary))).2
        (lts.getCopy (fetch .secondary) (slots.map (lts.slotUrl tile .secondary))).2 with
      | none => some .pastEnd
      | some none => some .failed
      | some (some responses) => some (madeOf tile responses) := by
  rw [getMeta, makeGetUrls_eq, makeGetUrls_eq]
  exact (if_pos ((lts.getCopy_ret _).trans bad0)).trans
    (if_pos ((lts.getCopy_ret _).trans bad1))

/-- Where the responses run short, one is read that is not there. -/
theorem getMeta_short
    (h : RunsShort (combine
      (lts.getCopy (fetch .primary) ((metaSlots tile).map (lts.slotUrl tile .primary))).2
      (lts.getCopy (fetch .secondary) ((metaSlots tile).map (lts.slotUrl tile .secondary))).2)
      (metaSlots tile).length) : lts.getMeta fetch tile = some .pastEnd := by
  rw [getMeta_combine bad0 bad1]
  dsimp only
  rcases h with hnone | ⟨rs, hrs, hshort⟩
  · rw [hnone]
  · rw [hrs]
    show some (madeOf tile rs) = some .pastEnd
    rw [madeOf, makeMetatile_short hshort]

/-- One by one, `get_meta` fails where the copies do so together, and else it runs short. -/
theorem getMeta_serial (serial : lts.concurrency < 2) :
    let together := FailTogether (lts.copyOf fetch tile .primary) (lts.copyOf fetch tile .secondary)
      (metaSlots tile)
    (together ∧ lts.getMeta fetch tile = some .failed) ∨
      (¬ together ∧ lts.getMeta fetch tile = some .pastEnd) := by
  intro together
  have hcopy : ∀ get requests, lts.getCopy get requests = getMetaSerial get requests :=
    fun get requests => if_pos serial
  rcases combine_serial (metaSlots tile) bad0 bad1 with ⟨hfail, hnone⟩ | ⟨hfail, hshort⟩
  · refine .inl ⟨hfail, ?_⟩
    rw [getMeta_combine bad0 bad1]
    dsimp only
    rw [hcopy, hcopy, hnone]
  · refine .inr ⟨hfail, getMeta_short bad0 bad1 ?_⟩
    rw [hcopy, hcopy]
    exact hshort

/-- All at once, `get_meta` takes each tile from a copy that has it, if every request is answered, and else
it runs short. -/
theorem getMeta_parallel (parallel : ¬ lts.concurrency < 2) :
    let together := ∀ s ∈ metaSlots tile, answered (lts.copyOf fetch tile .primary s) = true ∧
      answered (lts.copyOf fetch tile .secondary s) = true
    (together ∧ (lts.getMeta fetch tile = some .failed ∨ ∃ pick : Slot → Replica,
      (∀ s ∈ metaSlots tile, answeredWell (lts.copyOf fetch tile (pick s) s) = true) ∧
      lts.getMeta fetch tile = some (.got (metatileOf tile fun s =>
        fetchedBody (lts.copyOf fetch tile (pick s) s))))) ∨
      (¬ together ∧ lts.getMeta fetch tile = some .pastEnd) := by
  intro together
  have hcopy : ∀ get requests, lts.getCopy get requests = getMetaParallel get requests :=
    fun get requests => if_neg parallel
  rcases combine_parallel (fetch .secondary) (lts.slotUrl tile .secondary) (metaSlots tile) bad0
    with ⟨hall, hcombined⟩ | ⟨hmissing, hshort⟩
  · refine .inl ⟨hall, ?_⟩
    have hmeta := getMeta_combine bad0 bad1
    dsimp only at hmeta
    rw [hcopy, hcopy] at hmeta
    by_cases hsome : ((metaSlots tile).all fun s =>
        answeredWell (lts.copyOf fetch tile .primary s) ||
          answeredWell (lts.copyOf fetch tile .secondary s)) = true
    · obtain ⟨pick, hwell, hmade⟩ := lts.madeOf_together fetch tile hsome
      rw [hcombined.trans (if_pos hsome)] at hmeta
      exact .inr ⟨pick, hwell, hmeta.trans (congrArg some hmade)⟩
    · rw [hcombined.trans (if_neg hsome)] at hmeta
      exact .inl hmeta
  · refine .inr ⟨hmissing, getMeta_short bad0 bad1 ?_⟩
    rw [hcopy, hcopy]
    exact hshort

end NeitherWell

/-- A copy that is answered well for all tiles is what the metatile is made of. -/
theorem getCopy_well {replica : Replica}
    (well : ∀ s ∈ metaSlots tile,
      answeredWell (lts.copyOf fetch tile replica s) = true) :
    lts.getCopy (fetch replica)
        ((metaSlots tile).map (lts.slotUrl tile replica)) =
      (true, (metaSlots tile).map fun s =>
        responseOf (lts.copyOf fetch tile replica s)) :=
  lts.getCopy_good fun s hs => ok_of_answeredWell (well s hs)

/-- **What `get_meta` comes to.** It fails, or has a body that was answered well for each tile, where
the copies are answered together; else it reads a response that is not there. -/
theorem getMeta_cases :
    (lts.AnsweredTogether fetch tile ∧ (lts.getMeta fetch tile = some .failed ∨
      ∃ pick : Slot → Replica,
        (∀ s ∈ metaSlots tile,
          answeredWell (lts.copyOf fetch tile (pick s) s) = true) ∧
        lts.getMeta fetch tile = some (.got (metatileOf tile fun s =>
          fetchedBody (lts.copyOf fetch tile (pick s) s))))) ∨
    (¬ lts.AnsweredTogether fetch tile ∧ lts.getMeta fetch tile = some .pastEnd) := by
  by_cases well0 : ∀ s ∈ metaSlots tile, answeredWell (lts.copyOf fetch tile .primary s) = true
  · refine .inl ⟨.inl well0, .inr ⟨fun _ => .primary, well0, ?_⟩⟩
    simp only [getMeta, makeGetUrls_eq, Option.bind_eq_bind, Option.bind_some,
      lts.getCopy_well fetch tile well0, Bool.true_eq_false, if_false,
      lts.madeOf_pick fetch tile fun _ => .primary]
  have bad0 : ((metaSlots tile).all fun s => answeredWell (lts.copyOf fetch tile .primary s)) = false := by
    rw [← Bool.not_eq_true, List.all_eq_true]
    exact well0
  by_cases well1 : ∀ s ∈ metaSlots tile, answeredWell (lts.copyOf fetch tile .secondary s) = true
  · refine .inl ⟨.inr (.inl well1), .inr ⟨fun _ => .secondary, well1, ?_⟩⟩
    simp only [getMeta, makeGetUrls_eq, Option.bind_eq_bind, Option.bind_some,
      (lts.getCopy_ret _).trans bad0, if_true, lts.getCopy_well fetch tile well1,
      Bool.true_eq_false, if_false, lts.madeOf_pick fetch tile fun _ => .secondary]
  have bad1 : ((metaSlots tile).all fun s => answeredWell (lts.copyOf fetch tile .secondary s)) = false := by
    rw [← Bool.not_eq_true, List.all_eq_true]
    exact well1
  by_cases serial : lts.concurrency < 2
  · have htogether : lts.AnsweredTogether fetch tile ↔ FailTogether
        (lts.copyOf fetch tile .primary) (lts.copyOf fetch tile .secondary) (metaSlots tile) := by
      simp only [AnsweredTogether, well0, well1, false_or, if_pos serial]
    rw [htogether]
    rcases getMeta_serial bad0 bad1 serial with ⟨hfail, hmeta⟩ | hshort
    · exact .inl ⟨hfail, .inl hmeta⟩
    · exact .inr hshort
  · have htogether : lts.AnsweredTogether fetch tile ↔
        ∀ s ∈ metaSlots tile, answered (lts.copyOf fetch tile .primary s) = true ∧
          answered (lts.copyOf fetch tile .secondary s) = true := by
      simp only [AnsweredTogether, well0, well1, false_or, if_neg serial]
    rw [htogether]
    exact getMeta_parallel bad0 bad1 serial

/-! ## Success means complete -/

/-- What `get_meta` owes: it fails; or in each format asked for, each tile of the grid has a body that
one of the copies of this very tile was answered with, by a 200 and a valid time. -/
def Complete : Prop :=
  match lts.getMeta fetch tile with
  | some .failed => True
  | some (.got result) =>
    ∀ fmt ∈ getFormatsVec tile.format, ∀ x y : Int,
      metaFloor x = metaFloor tile.x → metaFloor y = metaFloor tile.y →
      inGrid tile.z (tileIndex x y) = true →
      ∃ replica url response, lts.formUrl x y tile.z tile.style fmt replica = .ok url ∧
        fetch replica url = .ok response ∧ response.statusCode = 200 ∧
        response.timeStamp ≠ INVALID_TIMESTAMP ∧
        (metatileReader result fmt).get x y = some response.body
  | _ => False

/-- Whichever copy each tile is taken from, the metatile has less than 2^31 bytes. -/
def Fits : Prop :=
  ∀ pick : Slot → Replica, (getFormatsVec tile.format).length * headerSize +
    ((metaSlots tile).map fun s => (fetchedBody (lts.copyOf fetch tile (pick s) s)).length).sum <
      2 ^ 31

/-- **Success means complete** only where the copies are answered together; and there always, as far as
an `int` counts.

What comes of each request for either copy is an argument: a tile, an expired one, an error or an
exception; and so is whether they are sent one by one or all at once. A fetch that fails owes nothing.
In which of two copies a tile is newer is not looked at. -/
theorem get_meta_complete_iff :
    (lts.Complete fetch tile → lts.AnsweredTogether fetch tile) ∧
    (lts.Fits fetch tile → (lts.Complete fetch tile ↔ lts.AnsweredTogether fetch tile)) := by
  have necessary : lts.Complete fetch tile → lts.AnsweredTogether fetch tile := by
    intro hcomplete
    rcases lts.getMeta_cases fetch tile with ⟨htogether, _⟩ | ⟨_, hpastEnd⟩
    · exact htogether
    · rw [Complete, hpastEnd] at hcomplete
      exact hcomplete.elim
  refine ⟨necessary, fun fits => ⟨necessary, fun htogether => ?_⟩⟩
  rcases lts.getMeta_cases fetch tile with ⟨_, hfailed | ⟨pick, hwell, hgot⟩⟩ | ⟨hnot, _⟩
  · rw [Complete, hfailed]
    trivial
  · rw [Complete, hgot]
    intro fmt hfmt x y hx hy hgrid
    obtain ⟨hok, hgood⟩ := ok_of_answeredWell
      (hwell (fmt, tileIndex x y) (mem_gridSlots.mpr ⟨hfmt, hgrid⟩))
    rw [Response.good, Bool.and_eq_true, decide_eq_true_eq, decide_eq_true_eq] at hgood
    have hfits : (metatileOf tile fun s =>
        fetchedBody (lts.copyOf fetch tile (pick s) s)).length < 2 ^ 31 := by
      rw [length_metatileOf]
      exact fits pick
    refine ⟨pick (fmt, tileIndex x y), _, _, ?_, hok, hgood.1, hgood.2, ?_⟩
    · rw [lts.formUrl_single _ _ _ _ _ (getFormatsVec_subset hfmt),
        lts.slotUrl_tileIndex hx hy]
    · rw [get_metatileOf hfmt hfits hgrid, body_responseOf]
  · exact absurd htogether hnot

/-- A tile that only the second node has is got from there. -/
theorem second_copy_is_complete :
    twoHosts.Complete (fun replica _ => match replica with
      | .primary => .ok { statusCode := 404 }
      | .secondary => .ok { statusCode := 200, timeStamp := 1300000000, body := [1, 2, 3] }) {} := by
  have hslots : metaSlots {} = [(fmtPNG, 0)] := by decide
  refine ((get_meta_complete_iff twoHosts _ {}).2 fun pick => ?_).mpr (.inr (.inl fun s _ => rfl))
  rw [hslots, List.map_singleton, List.sum_singleton, copyOf]
  cases pick (fmtPNG, 0)
  · decide
  · decide

/-- Neither node can be reached, and the first response is read all the same. -/
theorem unreachable_nodes_not_complete :
    ¬ twoHosts.Complete (fun _ _ => .error "couldn't connect to host") {} := by
  have hslots : metaSlots {} = [(fmtPNG, 0)] := by decide
  have hmem : ((fmtPNG, 0) : Slot) ∈ metaSlots {} := by
    rw [hslots]
    exact List.mem_singleton_self _
  intro hcomplete
  rcases twoHosts.getMeta_cases (fun _ _ => .error "couldn't connect to host") {} with
    ⟨htogether, _⟩ | ⟨_, hpastEnd⟩
  · rcases htogether with h | h | h
    · exact Bool.false_ne_true (h _ hmem)
    · exact Bool.false_ne_true (h _ hmem)
    · rw [if_neg (by decide)] at h
      exact Bool.false_ne_true (h _ hmem).1
  · rw [Complete, hpastEnd] at hcomplete
    exact hcomplete

end LtsStorage

end RenderMq
