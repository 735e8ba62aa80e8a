import RenderMq.Handler.Outcome
import RenderMq.Handler.MongrelRequest
import RenderMq.Http.HttpDate

/-!
# What was not modified

A client that has a tile of some time is to be told so if the tile is no later than that. Two functions
compare the times, and each has them in the wrong order. So only a tile of the very time of the request
is answered as it should be (`repliesByTime_iff`, `tellsByTime_iff`).

The comparison of a reply is not made for a tile of more than one format, for which there is no reply.
-/

namespace RenderMq

open HttpDate

/-! ## The reply -/

/-- A reply by the time of a tile: 304 exactly if it is no later than the request's, and else the tile. -/
structure RepliesByTime (tile : TileProtocol) : Prop where
  notModified : replyWithTile tile = .ok [(tile.id, .notModified)] ↔
    tile.lastModified ≤ tile.requestLastModified
  modified : tile.requestLastModified < tile.lastModified →
    ∃ mime, replyWithTile tile = .ok [(tile.id, .tile tile.data mime)]

/-- What is sent to a client that has a tile of some time. -/
theorem replyWithTile_of_request {tile : TileProtocol} (hid : 0 ≤ tile.id)
    (hsendable : TileHandler.Sendable tile)
    (hrequest : tile.requestLastModified ≠ 0) :
    replyWithTile tile = (mimeTypeFor tile.format).map fun mime =>
      [(tile.id, if tile.lastModified < tile.requestLastModified then .tile tile.data mime
        else .notModified)] := by
  unfold replyWithTile
  unfold TileHandler.Sendable at hsendable
  rw [if_neg (not_lt.mpr hid), if_pos hsendable]
  cases mimeTypeFor tile.format with
  | error message => rfl
  | ok mime =>
    simp only [hrequest, false_or]
    split
    · rfl
    · rfl

theorem repliesByTime_iff {tile : TileProtocol} (hid : 0 ≤ tile.id)
    (hsendable : TileHandler.Sendable tile) (hrequest : tile.requestLastModified ≠ 0) :
    RepliesByTime tile ↔ (∃ mime, mimeTypeFor tile.format = .ok mime) ∧
      tile.lastModified = tile.requestLastModified := by
  have hreply := replyWithTile_of_request hid hsendable hrequest
  cases hmime : mimeTypeFor tile.format with
  | error message =>
    have hthrows : replyWithTile tile = .error message := by rw [hreply, hmime]; rfl
    refine iff_of_false (fun h => ?_) fun h => by simpa using h.1
    rcases le_or_gt tile.lastModified tile.requestLastModified with hle | hlt
    · exact absurd (hthrows.symm.trans (h.notModified.mpr hle)) (by simp)
    · obtain ⟨mime, htile⟩ := h.modified hlt
      exact absurd (hthrows.symm.trans htile) (by simp)
  | ok mime =>
    have hsends : replyWithTile tile = .ok [(tile.id,
        if tile.lastModified < tile.requestLastModified then .tile tile.data mime
        else .notModified)] := by rw [hreply, hmime]; rfl
    refine Iff.trans ?_ (and_iff_right ⟨mime, rfl⟩).symm
    rcases lt_trichotomy tile.lastModified tile.requestLastModified with hlt | heq | hlt
    · rw [if_pos hlt] at hsends
      refine iff_of_false (fun h => ?_) hlt.ne
      exact absurd (hsends.symm.trans (h.notModified.mpr hlt.le)) (by simp)
    · rw [if_neg heq.not_lt] at hsends
      exact iff_of_true ⟨iff_of_true hsends heq.le, fun hlt => absurd heq hlt.ne'⟩ heq
    · rw [if_neg hlt.not_gt] at hsends
      refine iff_of_false (fun h => ?_) hlt.ne'
      obtain ⟨mime', htile⟩ := h.modified hlt
      exact absurd (hsends.symm.trans htile) (by simp)

/-! ## The header -/

namespace MongrelRequest

/-- The time of the header, if there is one that is a date. -/
def ifModifiedSinceTime (request : MongrelRequest) : Option Int :=
  (request.headers.find "if-modified-since").bind parseHttpDate

/-- `mongrel_request::if_modified_since`. -/
def ifModifiedSince (request : MongrelRequest) (modified : Int) : Bool :=
  match request.headers.find "if-modified-since" with
  | some value =>
    match parseHttpDate value with
    | some time => decide (time > modified)
    | none => true
  | none => true

theorem ifModifiedSince_eq (request : MongrelRequest) (modified : Int) :
    request.ifModifiedSince modified =
      (request.ifModifiedSinceTime.map fun time => decide (time > modified)).getD true := by
  unfold ifModifiedSince ifModifiedSinceTime
  cases request.headers.find "if-modified-since" with
  | none => rfl
  | some value =>
    cases hparse : parseHttpDate value with
    | none => simp [hparse]
    | some time => simp [hparse]

/-- It is false exactly if the header has a time, and this is no earlier than the one it is given. -/
def TellsByTime (request : MongrelRequest) (modified : Int) : Prop :=
  request.ifModifiedSince modified = false ↔
    ∃ time, request.ifModifiedSinceTime = some time ∧ modified ≤ time

theorem tellsByTime_iff (request : MongrelRequest) (modified : Int) :
    request.TellsByTime modified ↔ ∀ time, request.ifModifiedSinceTime = some time → time = modified := by
  unfold TellsByTime
  rw [ifModifiedSince_eq]
  cases request.ifModifiedSinceTime with
  | none => simp
  | some time =>
    simp only [Option.map_some, Option.getD_some, Option.some.injEq, exists_eq_left', forall_eq',
      decide_eq_false_iff_not, not_lt]
    omega

end MongrelRequest

/-! ## Both -/

/-- **What was not modified.** A tile of one format is answered by its time exactly if this is the time
of the request. The header is told by its time exactly if it has none, or has the very time that it is
compared with.

The tile is one that is sent to a client, with data, and the request has a time. A request without a
time is sent the tile, which is not in question here. -/
theorem notModified_iff {tile : TileProtocol} (hid : 0 ≤ tile.id) (hsendable : TileHandler.Sendable tile)
    (hrequest : tile.requestLastModified ≠ 0) (request : MongrelRequest) (modified : Int) :
    (RepliesByTime tile ↔ (∃ mime, mimeTypeFor tile.format = .ok mime) ∧
      tile.lastModified = tile.requestLastModified) ∧
    (request.TellsByTime modified ↔
      ∀ time, request.ifModifiedSinceTime = some time → time = modified) :=
  ⟨repliesByTime_iff hid hsendable hrequest, request.tellsByTime_iff modified⟩

/-- A tile that is older than what the client has is sent again, and a header that is later than the
tile says that the tile was modified since. -/
theorem modified_told_wrong : ¬ ((∀ tile : TileProtocol, 0 ≤ tile.id → TileHandler.Sendable tile →
      tile.requestLastModified ≠ 0 → RepliesByTime tile) ∧
    ∀ (request : MongrelRequest) (modified : Int), request.TellsByTime modified) := by
  rintro ⟨hreplies, -⟩
  let tile : TileProtocol := { status := .cmdDone, lastModified := 1, requestLastModified := 2, data := [0] }
  have hnot := (hreplies tile (by decide) ⟨.inl rfl, by decide⟩ (by decide)).notModified.mpr (by decide)
  exact absurd hnot (by decide)

theorem notModified_same_time :
    (RepliesByTime { status := .cmdDone, lastModified := 5, requestLastModified := 5, data := [0] } ↔
      (∃ mime, mimeTypeFor fmtPNG = .ok mime) ∧ (5 : Int) = 5) ∧
    (({} : MongrelRequest).TellsByTime 5 ↔
      ∀ time, ({} : MongrelRequest).ifModifiedSinceTime = some time → time = 5) := by
  let tile : TileProtocol := { status := .cmdDone, lastModified := 5, requestLastModified := 5, data := [0] }
  have hid : 0 ≤ tile.id := by decide
  have hsendable : TileHandler.Sendable tile := ⟨.inl rfl, by decide⟩
  have hrequest : tile.requestLastModified ≠ 0 := by decide
  exact notModified_iff hid hsendable hrequest {} 5

end RenderMq
