import RenderMq.Node.MercatorTiles

/-!
# An expired tile

A tile is reported as expired when its metatile's bit is set, or when its own file has the epoch as its
time. A request sets times (`timesOf`). Of those, the last for any tile of the metatile decides the bit
(`bitTime`), and the last for the tile itself decides the time of its file (`ownTime`).

`stays_expired_iff` says of a run of requests, of which the first expires the metatile, when the tile is
reported as expired after each of them. A later time for another tile of the metatile clears the bit, and
the file of the tile still has the time it had before it was expired.
-/

namespace RenderMq.StorageNode

open ExpiryInfo

/-! ## The times a request sets -/

/-- The index of the tile's metatile, as it is sent. -/
def MqTile.idx (tile : MqTile) : Option Nat := sentIdx tile.x tile.y tile.zoom

/-- A tile, and the time set for it. -/
abbrev Setting := MqTile × Int

/-- The times that a form sets. A time that can not be sent is the last. -/
def timesOfParts (theTile : MqTile) (lastModified : Option Int) : List (Option Part) → List Setting
  | [] => []
  | none :: _ => []
  | some part :: parts =>
    (part.tile theTile, lastModified.getD part.now) ::
      if (part.tile theTile).idx.isSome then timesOfParts theTile lastModified parts else []

def timesOfStyles (theTile : MqTile) (secs : Int) : List Style → List Setting
  | [] => []
  | style :: styles =>
    ({ theTile with type := style }, secs) ::
      if theTile.idx.isSome then timesOfStyles theTile secs styles else []

/-- The tile is there to be read. -/
def found (cfg : Config) (n : Node) (tile : MqTile) : Bool :=
  match (getDiskCache cfg tile).bind fun cache => n.get (constructName cache tile) with
  | some image => !image.isEmpty
  | none => false

/-- The times that a request sets. -/
def timesOf (cfg : Config) (n : Node) : Request → List Setting
  | .post theTile lastModified parts =>
    if (getDiskCache cfg theTile).isSome then timesOfParts theTile lastModified parts else []
  | .get theTile (some secs) alsoExpire =>
    if found cfg n theTile then timesOfStyles theTile secs (alsoExpire.getD [theTile.type]) else []
  | .get _ none _ => []

/-- A time for a tile of the same metatile, in the same style. -/
def bitSetting (tile : MqTile) (set : Setting) : Option Int :=
  if sentStyle set.1.type = sentStyle tile.type ∧ set.1.idx = tile.idx then some set.2 else none

/-- A time for the file. -/
def ownSetting (name : FileName) (cache : CacheRoot) (set : Setting) : Option Int :=
  if constructName cache set.1 = name then some set.2 else none

/-! ## Names -/

/-- A file is of one tile. -/
theorem constructName_inj {cache cache' : CacheRoot} {t t' : MqTile}
    (h : constructName cache t = constructName cache' t') :
    t.type = t'.type ∧ t.zoom = t'.zoom ∧ t.x = t'.x ∧ t.y = t'.y := by
  simp only [constructName, FileName.mk.injEq] at h
  obtain ⟨_, _, htype, hzoom, hdirs, hname, _⟩ := h
  simp only [pathSplit, List.dropLast, List.cons_append, List.nil_append, List.cons.injEq] at hdirs
  have hlast : t.y % 1000 = t'.y % 1000 := hname
  exact ⟨htype, hzoom, by omega, by omega⟩

theorem ownSetting_eq_none {cache cache' : CacheRoot} {t : MqTile} {set : Setting}
    (h : bitSetting t set = none) : ownSetting (constructName cache t) cache' set = none := by
  refine if_neg fun hname => ?_
  obtain ⟨htype, hzoom, hx, hy⟩ := constructName_inj hname
  have hsame : sentStyle set.1.type = sentStyle t.type ∧ set.1.idx = t.idx := by
    rw [MqTile.idx, MqTile.idx, htype, hzoom, hx, hy]
    exact ⟨rfl, rfl⟩
  rw [bitSetting, if_pos hsame] at h
  cases h

/-! ## What one time does -/

/-- A bit after a time is set. -/
def bitAfter (old : Option Bool) : Option Int → Option Bool
  | some secs => old.map fun _ => decide (secs = EPOCH)
  | none => old

theorem bitAfter_or (old : Option Bool) (first later : Option Int) :
    bitAfter (bitAfter old first) later = bitAfter old (later.or first) := by
  cases later with
  | none => rfl
  | some secs => cases first <;> cases old <;> rfl

section Settings

variable {cache : CacheRoot} {n : Node} {t : MqTile} {idx : Nat} {name : FileName}

/-- Setting a time, by the file and by the bit. -/
theorem setTime_spec (cache : CacheRoot) (n : Node) (tile : MqTile) (secs : Int) :
    (setTime cache n tile secs).2 = tile.idx.isSome ∧
      (∀ name, (setTime cache n tile secs).1.getModifiedTime name =
        (n.setModifiedTime (constructName cache tile) secs).getModifiedTime name) ∧
      ∀ (t : MqTile) (idx : Nat), t.idx = some idx →
        (setTime cache n tile secs).1.expiry.look (sentStyle t.type) idx =
          bitAfter (n.expiry.look (sentStyle t.type) idx) (bitSetting t (tile, secs)) := by
  unfold setTime
  cases hidx : tile.idx with
  | none =>
    have hset : setTile n.expiry tile.x tile.y tile.zoom tile.type (decide (secs = EPOCH)) .works =
        none := setTile_eq_none hidx ..
    have hexpiry : (n.setModifiedTime (constructName cache tile) secs).expiry = n.expiry := rfl
    dsimp only
    rw [hexpiry, hset]
    refine ⟨rfl, fun _ => rfl, fun t idx ht => ?_⟩
    rw [bitSetting, if_neg fun h => by rw [hidx, ht] at h; cases h.2]
    rfl
  | some i =>
    have hanswer : ∃ g' done, setTile n.expiry tile.x tile.y tile.zoom tile.type
        (decide (secs = EPOCH)) .works = some (g', done) ∧ _ := setTile_look hidx
    obtain ⟨g', done, hset, hlook⟩ := hanswer
    have hexpiry : (n.setModifiedTime (constructName cache tile) secs).expiry = n.expiry := rfl
    dsimp only
    rw [hexpiry, hset]
    refine ⟨rfl, fun _ => rfl, fun t idx ht => ?_⟩
    show g'.look (sentStyle t.type) idx = _
    rw [hlook, bitSetting, hidx, ht]
    by_cases hsame : sentStyle t.type = sentStyle tile.type ∧ idx = i
    · rw [if_pos hsame, if_pos ⟨hsame.1.symm, congrArg some hsame.2.symm⟩]
      rfl
    · rw [if_neg hsame, if_neg fun h => hsame ⟨h.1.symm, (Option.some.inj h.2).symm⟩]
      rfl

/-- What times that are set do to a node: to each bit that is seen, and to each file that was there. -/
structure Effect (cache : CacheRoot) (sets : List Setting) (n n' : Node) : Prop where
  look : ∀ (t : MqTile) (idx : Nat), t.idx = some idx →
    n'.expiry.look (sentStyle t.type) idx =
      bitAfter (n.expiry.look (sentStyle t.type) idx) (Run.last (bitSetting t) sets)
  mtime : ∀ name time, n.getModifiedTime name = some time →
    n'.getModifiedTime name = some ((Run.last (ownSetting name cache) sets).getD time)

theorem Effect.nil : Effect cache [] n n := ⟨fun _ _ _ => rfl, fun _ _ h => h⟩

theorem Effect.cons {set : Setting} {sets : List Setting} {n₁ n₂ : Node}
    (hfirst : Effect cache [set] n n₁) (hrest : Effect cache sets n₁ n₂) :
    Effect cache (set :: sets) n n₂ := by
  have hone : ∀ tells : Setting → Option Int, Run.last tells [set] = tells set := by
    intro tells
    rw [Run.last_cons]
    exact Option.none_or
  refine ⟨fun t idx ht => ?_, fun name time htime => ?_⟩
  · rw [hrest.look t idx ht, hfirst.look t idx ht, hone, Run.last_cons, bitAfter_or]
  · rw [hrest.mtime name _ (hfirst.mtime name time htime), hone, Run.last_cons, Option.getD_or]

/-- A tile is stored, or only has its time set. -/
theorem setTime_effect (tile : MqTile) (secs : Int) {n₁ : Node} (hexpiry : n₁.expiry = n.expiry)
    (hother : ∀ name, name ≠ constructName cache tile →
      n₁.getModifiedTime name = n.getModifiedTime name)
    (hself : (n.getModifiedTime (constructName cache tile)).isSome →
      (n₁.getModifiedTime (constructName cache tile)).isSome) :
    Effect cache [(tile, secs)] n (setTime cache n₁ tile secs).1 := by
  obtain ⟨-, hfiles, hlook⟩ := setTime_spec cache n₁ tile secs
  refine ⟨fun t idx ht => ?_, fun name time htime => ?_⟩
  · rw [hlook t idx ht, hexpiry, Run.last_cons]
    exact congrArg _ Option.none_or.symm
  · rw [hfiles, Run.last_cons]
    by_cases hname : name = constructName cache tile
    · subst hname
      obtain ⟨time₁, htime₁⟩ := Option.isSome_iff_exists.mp (hself (by rw [htime]; rfl))
      rw [Node.getModifiedTime_setModifiedTime_self, htime₁, ownSetting, if_pos rfl]
      rfl
    · rw [Node.getModifiedTime_setModifiedTime_of_ne hname, hother name hname, htime, ownSetting,
        if_neg (Ne.symm hname)]
      rfl

theorem postParts_effect (theTile : MqTile) (lastModified : Option Int) (n : Node)
    (parts : List (Option Part)) :
    Effect cache (timesOfParts theTile lastModified parts) n
      (postParts cache theTile lastModified n parts).1 := by
  induction parts generalizing n with
  | nil => exact .nil
  | cons part parts ih =>
    cases part with
    | none => exact .nil
    | some part =>
      let tile := part.tile theTile
      let n₁ := n.put (constructName cache tile) part.data part.now
      have hfirst : Effect cache [(tile, lastModified.getD part.now)] n
          (setTime cache n₁ tile (lastModified.getD part.now)).1 :=
        setTime_effect tile _ Node.expiry_put (fun _ h => Node.getModifiedTime_put_of_ne h)
          Node.getModifiedTime_put_isSome
      have hdone := (setTime_spec cache n₁ tile (lastModified.getD part.now)).1
      unfold timesOfParts postParts
      dsimp only
      cases hset : setTime cache n₁ tile (lastModified.getD part.now) with
      | mk n₂ done =>
        rw [hset] at hfirst hdone
        cases done with
        | true =>
          rw [show (part.tile theTile).idx.isSome = true from hdone.symm, if_pos rfl]
          exact hfirst.cons (ih n₂)
        | false =>
          rw [show (part.tile theTile).idx.isSome = false from hdone.symm,
            if_neg Bool.false_ne_true]
          exact hfirst

theorem expireStyles_effect (theTile : MqTile) (secs : Int) (n : Node) (styles : List Style) :
    Effect cache (timesOfStyles theTile secs styles) n (expireStyles cache theTile secs n styles) := by
  induction styles generalizing n with
  | nil => exact .nil
  | cons style styles ih =>
    let tile := { theTile with type := style }
    have hfirst : Effect cache [(tile, secs)] n (setTime cache n tile secs).1 :=
      setTime_effect tile secs rfl (fun _ _ => rfl) id
    have hdone := (setTime_spec cache n tile secs).1
    unfold timesOfStyles expireStyles
    cases hset : setTime cache n tile secs with
    | mk n₂ done =>
      rw [hset] at hfirst hdone
      cases done with
      | true =>
        rw [show theTile.idx.isSome = true from hdone.symm, if_pos rfl]
        exact hfirst.cons (ih n₂)
      | false =>
        rw [show theTile.idx.isSome = false from hdone.symm, if_neg Bool.false_ne_true]
        exact hfirst

/-- Looking at a tile changes neither a bit nor a file. -/
theorem Effect.respond {sets : List Setting} {n n' : Node} (h : Effect cache sets n n')
    (tile : MqTile) (image : Option Bytes) :
    Effect cache sets n (respond n' cache tile image).1 := by
  unfold StorageNode.respond lastModifiedTime
  cases hidx : tile.idx with
  | none =>
    have hget : getTile n'.expiry tile.x tile.y tile.zoom tile.type .works = none :=
      getTile_eq_none hidx _
    rw [hget]
    exact h
  | some idx =>
    have hanswer : ∃ g', getTile n'.expiry tile.x tile.y tile.zoom tile.type .works =
        some (g', _) ∧ _ := getTile_eq_look hidx
    obtain ⟨g', hget, hsame⟩ := hanswer
    rw [hget]
    exact ⟨fun t idx ht => (hsame ..).trans (h.look t idx ht), h.mtime⟩

theorem timesOf_of_not_found {cfg : Config} {theTile : MqTile} (h : found cfg n theTile = false)
    (lastModified : Option Int) (alsoExpire : Option (List Style)) :
    timesOf cfg n (.get theTile lastModified alsoExpire) = [] := by
  cases lastModified with
  | none => rfl
  | some secs =>
    rw [timesOf, h]
    rfl

/-- **A request does what its times do.** -/
theorem processTileRequest_effect {cfg : Config} {r : Request}
    (hcache : getDiskCache cfg r.tile = some cache) :
    Effect cache (timesOf cfg n r) n (processTileRequest cfg n r).1 := by
  unfold processTileRequest
  rw [hcache]
  cases r with
  | post theTile lastModified parts =>
    have htimes : timesOf cfg n (.post theTile lastModified parts) =
        timesOfParts theTile lastModified parts := by
      rw [timesOf, show getDiskCache cfg theTile = some cache from hcache]
      rfl
    have hparts : Effect cache (timesOfParts theTile lastModified parts) n _ :=
      postParts_effect theTile lastModified n parts
    rw [htimes]
    dsimp only
    cases hpost : postParts cache theTile lastModified n parts with
    | mk n₁ done =>
      rw [hpost] at hparts
      cases done with
      | true => exact hparts.respond theTile none
      | false => exact hparts
  | get theTile lastModified alsoExpire =>
    have hfound : found cfg n theTile = match n.get (constructName cache theTile) with
        | some image => !image.isEmpty
        | none => false := by
      rw [found, show getDiskCache cfg theTile = some cache from hcache, Option.bind_some]
    dsimp only
    cases himage : n.get (constructName cache theTile) with
    | none =>
      rw [himage] at hfound
      rw [timesOf_of_not_found hfound]
      exact .nil
    | some image =>
      rw [himage] at hfound
      dsimp only at hfound ⊢
      cases hempty : image.isEmpty with
      | true =>
        rw [hempty] at hfound
        rw [timesOf_of_not_found hfound]
        exact .nil
      | false =>
        rw [hempty] at hfound
        cases lastModified with
        | none => exact Effect.nil.respond theTile (some image)
        | some secs =>
          rw [timesOf, hfound]
          exact (expireStyles_effect theTile secs n _).respond theTile (some image)

theorem processTileRequest_of_none {cfg : Config} {r : Request}
    (hcache : getDiskCache cfg r.tile = none) :
    (processTileRequest cfg n r).1 = n ∧ timesOf cfg n r = [] := by
  constructor
  · rw [processTileRequest, hcache]
  · cases r with
    | post theTile lastModified parts =>
      rw [timesOf, show getDiskCache cfg theTile = none from hcache]
      rfl
    | get theTile lastModified alsoExpire =>
      refine timesOf_of_not_found ?_ lastModified alsoExpire
      rw [found, show getDiskCache cfg theTile = none from hcache, Option.bind_none]

end Settings

/-! ## What is reported -/

/-- The bit of the tile's metatile, as it is seen. -/
def bit (n : Node) (t : MqTile) : Option Bool :=
  t.idx.bind fun idx => n.expiry.look (sentStyle t.type) idx

/-- The time of the tile's file, which there is if the tile is stored. -/
def fileTime (cfg : Config) (n : Node) (t : MqTile) : Option Int :=
  (getDiskCache cfg t).bind fun cache => n.getModifiedTime (constructName cache t)

/-- The last time that a request sets for any tile of the metatile. -/
def bitTime (cfg : Config) (n : Node) (r : Request) (t : MqTile) : Option Int :=
  Run.last (bitSetting t) (timesOf cfg n r)

/-- The last time that it sets for the tile's own file. -/
def ownTime (cfg : Config) (n : Node) (r : Request) (t : MqTile) : Option Int :=
  (getDiskCache cfg r.tile).bind fun cache =>
    (getDiskCache cfg t).bind fun own =>
      Run.last (ownSetting (constructName own t) cache) (timesOf cfg n r)

section Reports

variable {cfg : Config} {n : Node} {r : Request} {t : MqTile} {time : Int}

theorem reported_iff (htime : fileTime cfg n t = some time) :
    reported cfg n t = some EPOCH ↔ t.idx.isSome ∧ (bit n t = some true ∨ time = EPOCH) := by
  obtain ⟨cache, hcache, hmtime⟩ := Option.bind_eq_some_iff.mp htime
  unfold reported lastModifiedTime
  rw [hcache, Option.bind_some, bit]
  cases hidx : t.idx with
  | none =>
    have hget : getTile n.expiry t.x t.y t.zoom t.type .works = none := getTile_eq_none hidx _
    rw [hget]
    exact iff_of_false (fun h => by cases h) fun h => by cases h.1
  | some idx =>
    have hanswer : ∃ g', getTile n.expiry t.x t.y t.zoom t.type .works = some (g', _) ∧ _ :=
      getTile_eq_look hidx
    obtain ⟨g', hget, -⟩ := hanswer
    rw [hget, Option.map_some, Option.bind_some, Option.bind_some]
    dsimp only
    by_cases hbit : n.expiry.look (sentStyle t.type) idx = some true
    · rw [if_pos hbit]
      exact iff_of_true rfl ⟨rfl, .inl hbit⟩
    · rw [if_neg hbit, hmtime, Option.some_inj]
      exact ⟨fun h => ⟨rfl, .inr h⟩, fun h => h.2.resolve_left hbit⟩

/-- A request for a tile that is stored, by its times. -/
theorem fileTime_processTileRequest (htime : fileTime cfg n t = some time) :
    fileTime cfg (processTileRequest cfg n r).1 t = some ((ownTime cfg n r t).getD time) := by
  obtain ⟨own, hown, hmtime⟩ := Option.bind_eq_some_iff.mp htime
  rw [fileTime, ownTime, hown, Option.bind_some]
  cases hcache : getDiskCache cfg r.tile with
  | none =>
    rw [(processTileRequest_of_none hcache).1, hmtime]
    rfl
  | some cache => exact (processTileRequest_effect hcache).mtime _ time hmtime

theorem bit_processTileRequest :
    bit (processTileRequest cfg n r).1 t = bitAfter (bit n t) (bitTime cfg n r t) := by
  unfold bit bitTime
  cases hcache : getDiskCache cfg r.tile with
  | none =>
    obtain ⟨hsame, hnothing⟩ := processTileRequest_of_none (n := n) hcache
    rw [hsame, hnothing]
    rfl
  | some cache =>
    cases hidx : t.idx with
    | none =>
      rw [Option.bind_none]
      cases Run.last (bitSetting t) (timesOf cfg n r) <;> rfl
    | some idx => exact (processTileRequest_effect hcache).look t idx hidx

/-- What sets no time for the metatile sets none for the tile. -/
theorem ownTime_eq_none (h : bitTime cfg n r t = none) : ownTime cfg n r t = none := by
  have hnone : ∀ set ∈ timesOf cfg n r, bitSetting t set = none :=
    List.filterMap_eq_nil_iff.mp (List.getLast?_eq_none_iff.mp h)
  unfold ownTime
  cases getDiskCache cfg r.tile with
  | none => rfl
  | some cache =>
    cases getDiskCache cfg t with
    | none => rfl
    | some own =>
      refine List.getLast?_eq_none_iff.mpr (List.filterMap_eq_nil_iff.mpr fun set hset => ?_)
      exact ownSetting_eq_none (hnone set hset)

/-- A request leaves a tile reported as expired: it sets no time for the metatile; or the last that it
sets is the epoch, and the expiry server has the metatile's bit; or the tile's own file has the epoch as
its time, by the request or from before. -/
def Keeps (cfg : Config) (t : MqTile) (n : Node) (r : Request) : Prop :=
  t.idx.isSome ∧
    (bitTime cfg n r t = none ∨ (bitTime cfg n r t = some EPOCH ∧ (bit n t).isSome) ∨
      (ownTime cfg n r t).or (fileTime cfg n t) = some EPOCH)

theorem keeps_iff (htime : fileTime cfg n t = some time)
    (hbefore : t.idx.isSome → bitTime cfg n r t = none → reported cfg n t = some EPOCH) :
    reported cfg (processTileRequest cfg n r).1 t = some EPOCH ↔ Keeps cfg t n r := by
  have hown : (ownTime cfg n r t).or (fileTime cfg n t) = some EPOCH ↔
      (ownTime cfg n r t).getD time = EPOCH := by
    rw [htime]
    cases ownTime cfg n r t <;> exact Option.some_inj
  rw [reported_iff (fileTime_processTileRequest htime), bit_processTileRequest, Keeps, hown]
  refine and_congr_right fun hidx => ?_
  cases hbit : bitTime cfg n r t with
  | none =>
    have hreported := ((reported_iff htime).mp (hbefore hidx hbit)).2
    rw [ownTime_eq_none hbit]
    exact iff_of_true hreported (.inl rfl)
  | some secs =>
    have hset : bitAfter (bit n t) (some secs) = some true ↔
        some secs = some EPOCH ∧ (bit n t).isSome := by
      cases bit n t <;> simp [bitAfter]
    rw [hset, or_iff_right (Option.some_ne_none secs)]

end Reports

/-! ## Runs -/

/-- One request. -/
def step (cfg : Config) (n : Node) (r : Request) : Option Node :=
  some (processTileRequest cfg n r).1

/-- The tiles are of one metatile. -/
def SameMetatile (t t' : MqTile) : Prop :=
  t.zoom = t'.zoom ∧ t.x / MqExpiry.METATILE = t'.x / MqExpiry.METATILE ∧
    t.y / MqExpiry.METATILE = t'.y / MqExpiry.METATILE

/-- The request expires the metatile of a tile: it is a GET with the epoch as its time for a tile of the
metatile, which is stored, and the style is among those to expire. -/
def Expires (cfg : Config) (t : MqTile) (n : Node) : Request → Prop
  | .post .. => False
  | .get theTile lastModified alsoExpire =>
    lastModified = some EPOCH ∧ SameMetatile theTile t ∧ found cfg n theTile = true ∧
      t.type ∈ alsoExpire.getD [theTile.type]

/-- The tile is reported with the epoch after each of the requests. -/
def StaysExpired (cfg : Config) (t : MqTile) (n : Node) (rs : List Request) : Prop :=
  Run.EveryStep (step cfg)
    (fun n r => reported cfg (processTileRequest cfg n r).1 t = some EPOCH) n rs

/-- The tile itself is POSTed with a later time than the epoch. -/
def reposted (cfg : Config) (t : MqTile) (n : Node) : Request → Bool
  | r@(.post ..) => (ownTime cfg n r t).any fun secs => decide (EPOCH < secs)
  | .get .. => false

/-- One request, where none follows the one that POSTs the tile itself. -/
def stepUntilPosted (cfg : Config) (t : MqTile) (n : Node) (r : Request) : Option Node :=
  if reposted cfg t n r then none else step cfg n r

/-- A condition on each request until the tile itself is POSTed with a later time. -/
def UntilPosted (cfg : Config) (t : MqTile) (P : Node → Request → Prop) (n : Node)
    (rs : List Request) : Prop :=
  Run.EveryStep (stepUntilPosted cfg t) (fun n r => reposted cfg t n r = false → P n r) n rs

/-- The tile is reported with the epoch after each of the requests until it is itself POSTed with a later
time. -/
def StaysExpiredUntilPosted (cfg : Config) (t : MqTile) : Node → List Request → Prop :=
  UntilPosted cfg t fun n r => reported cfg (processTileRequest cfg n r).1 t = some EPOCH

section Runs

variable {cfg : Config} {n : Node} {r : Request} {t : MqTile}

theorem SameMetatile.idx_eq {t' : MqTile} (h : SameMetatile t t') : t.idx = t'.idx := by
  obtain ⟨hzoom, hx, hy⟩ := h
  rw [MqTile.idx, MqTile.idx, sentIdx, sentIdx, tileIdx, tileIdx, hzoom, hx, hy]

theorem mem_timesOfStyles {theTile : MqTile} {secs : Int} {style : Style} {styles : List Style}
    (hidx : theTile.idx.isSome) (h : style ∈ styles) :
    ({ theTile with type := style }, secs) ∈ timesOfStyles theTile secs styles := by
  induction styles with
  | nil => cases h
  | cons first styles ih =>
    rw [timesOfStyles, if_pos hidx]
    rcases List.mem_cons.mp h with rfl | hrest
    · exact List.mem_cons_self
    · exact List.mem_cons_of_mem _ (ih hrest)

/-- What expires a metatile sets a time for it. -/
theorem Expires.bitTime_ne_none (h : Expires cfg t n r) (hidx : t.idx.isSome) :
    bitTime cfg n r t ≠ none := by
  match r with
  | .get theTile lastModified alsoExpire =>
    obtain ⟨rfl, hsame, hfound, hstyle⟩ := h
    have htimes : timesOf cfg n (.get theTile (some EPOCH) alsoExpire) =
        timesOfStyles theTile EPOCH (alsoExpire.getD [theTile.type]) := by
      rw [timesOf, if_pos hfound]
    rw [← hsame.idx_eq] at hidx
    rw [bitTime, htimes]
    refine Run.last_ne_none (mem_timesOfStyles hidx hstyle) ?_
    have hset : sentStyle t.type = sentStyle t.type ∧ theTile.idx = t.idx := ⟨rfl, hsame.idx_eq⟩
    exact ne_of_eq_of_ne (if_pos hset) (Option.some_ne_none EPOCH)

/-- A stored tile is reported as expired. -/
def Expired (cfg : Config) (t : MqTile) (n : Node) : Prop :=
  (fileTime cfg n t).isSome ∧ reported cfg n t = some EPOCH

theorem Expired.keeps_iff (h : Expired cfg t n) :
    reported cfg (processTileRequest cfg n r).1 t = some EPOCH ↔ Keeps cfg t n r := by
  obtain ⟨time, htime⟩ := Option.isSome_iff_exists.mp h.1
  exact StorageNode.keeps_iff htime fun _ _ => h.2

/-- What expires a metatile has its tiles reported with the epoch if and only if it keeps them. -/
theorem Expires.keeps_iff (h : Expires cfg t n r) (hstored : (fileTime cfg n t).isSome) :
    reported cfg (processTileRequest cfg n r).1 t = some EPOCH ↔ Keeps cfg t n r := by
  obtain ⟨time, htime⟩ := Option.isSome_iff_exists.mp hstored
  exact StorageNode.keeps_iff htime fun hidx hnone => absurd hnone (h.bitTime_ne_none hidx)

/-- A stored tile that is reported with the epoch after a request is then stored and expired. -/
theorem expired_of_reported (hstored : (fileTime cfg n t).isSome)
    (hreported : reported cfg (processTileRequest cfg n r).1 t = some EPOCH) :
    Expired cfg t (processTileRequest cfg n r).1 := by
  obtain ⟨time, htime⟩ := Option.isSome_iff_exists.mp hstored
  refine ⟨?_, hreported⟩
  rw [fileTime_processTileRequest htime]
  rfl

/-- A tile that is stored stays stored. -/
theorem Expired.step {n' : Node} (h : Expired cfg t n)
    (hreported : reported cfg (processTileRequest cfg n r).1 t = some EPOCH)
    (hstep : step cfg n r = some n') : Expired cfg t n' := by
  obtain rfl := Option.some.inj hstep
  exact expired_of_reported h.1 hreported

/-- A request after which the run goes on did not POST the tile. -/
theorem stepUntilPosted_some {n' : Node} (h : stepUntilPosted cfg t n r = some n') :
    reposted cfg t n r = false ∧ (processTileRequest cfg n r).1 = n' := by
  unfold stepUntilPosted at h
  split at h
  · cases h
  · next hnot => exact ⟨Bool.eq_false_iff.mpr hnot, Option.some.inj h⟩

/-- **An expired tile stays expired for as long as no request sets a later time for its metatile**, or
its own file has the epoch as its time. In a run whose first request expires the metatile of a stored
tile, the tile is reported with the epoch after every request if and only if every request keeps it; and
it is so until the tile itself is POSTed with a later time if and only if every request until then keeps
it.

The expiry server is reached by every request. Whether a request keeps the tile is read off the times it
sets and the node before it. -/
theorem stays_expired_iff (hstored : (fileTime cfg n t).isSome) (hexpires : Expires cfg t n r)
    (rs : List Request) :
    (StaysExpired cfg t n (r :: rs) ↔ Run.EveryStep (step cfg) (Keeps cfg t) n (r :: rs)) ∧
      (StaysExpiredUntilPosted cfg t n (r :: rs) ↔ UntilPosted cfg t (Keeps cfg t) n (r :: rs)) := by
  have hfirst := hexpires.keeps_iff hstored
  constructor
  · refine Run.everyStep_iff_cons hfirst fun hkept n' hn' => ?_
    obtain rfl := Option.some.inj hn'
    exact Run.everyStep_iff (fun _ _ h => h.keeps_iff) (fun _ _ _ h => h.step) rs _
      (expired_of_reported hstored hkept)
  · unfold StaysExpiredUntilPosted UntilPosted
    refine Run.everyStep_iff_cons (imp_congr_right fun _ => hfirst) fun hkept n' hn' => ?_
    obtain ⟨hnot, rfl⟩ := stepUntilPosted_some hn'
    refine Run.everyStep_iff (fun _ _ h => imp_congr_right fun _ => h.keeps_iff) ?_ rs _
      (expired_of_reported hstored (hkept hnot))
    intro n r n' hexpired hkept hn'
    obtain ⟨hnot, rfl⟩ := stepUntilPosted_some hn'
    exact expired_of_reported hexpired.1 (hkept hnot)

end Runs

/-! ## Two tiles of one metatile -/

def tileAt (x : Nat) : MqTile :=
  { type := osm, zoom := 4, x := x, y := 0, extension := "png", version := "1", replica := "0" }

def oneRoot : Config := { cacheInfo := fun _ => some "/data" }

/-- Both are stored, at the time 1000. -/
def twoTiles : Node where
  files name :=
    if name = constructName { root := "/data", type := osm } (tileAt 0) ∨
        name = constructName { root := "/data", type := osm } (tileAt 1) then
      some { data := [1], mtime := 1000 }
    else none
  expiry := zoomFour

/-- The metatile is expired, by the first of them. -/
def expireFirst : Request := .get (tileAt 0) (some EPOCH) none

def readFirst : Request := .get (tileAt 0) none none

/-- The first is stored anew. -/
def postFirst : Request :=
  .post (tileAt 0) (some 2000)
    [some { z := 4, x := 0, y := 0, imageType := "png", data := [2], now := 2000 }]

theorem expireFirst_expires : Expires oneRoot (tileAt 1) twoTiles expireFirst :=
  ⟨rfl, ⟨rfl, rfl, rfl⟩, by decide, List.mem_cons_self⟩

/-- The second is stored anew itself. -/
def postSecond : Request :=
  .post (tileAt 1) (some 2000)
    [some { z := 4, x := 1, y := 0, imageType := "png", data := [2], now := 2000 }]

/-- The second is reported as expired while the first is only read, and until it is stored anew itself. -/
theorem second_stays_expired :
    StaysExpired oneRoot (tileAt 1) twoTiles [expireFirst, readFirst] ∧
      StaysExpiredUntilPosted oneRoot (tileAt 1) twoTiles [expireFirst, postSecond, postFirst] := by
  have hstored : (fileTime oneRoot twoTiles (tileAt 1)).isSome := by decide
  have hkept : Keeps oneRoot (tileAt 1) twoTiles expireFirst :=
    ⟨by decide, .inr (.inl (by decide +kernel))⟩
  refine ⟨(stays_expired_iff hstored expireFirst_expires [readFirst]).1.mpr ⟨hkept, ?_⟩,
    (stays_expired_iff hstored expireFirst_expires [postSecond, postFirst]).2.mpr
      ⟨fun _ => hkept, ?_⟩⟩
  · intro n hn
    obtain rfl := Option.some.inj hn
    exact ⟨⟨by decide, .inl (by decide +kernel)⟩, fun _ _ => trivial⟩
  · intro n hn
    obtain ⟨-, rfl⟩ := stepUntilPosted_some hn
    have hposted : reposted oneRoot (tileAt 1) (processTileRequest oneRoot twoTiles expireFirst).1
        postSecond = true := by decide +kernel
    refine ⟨fun hnot => absurd (hposted.symm.trans hnot) Bool.noConfusion, fun n' hn' => ?_⟩
    exact absurd (hposted.symm.trans (stepUntilPosted_some hn').1) Bool.noConfusion

/-- Once the first is stored anew, the second is reported with the time it had, and it was not POSTed
itself. -/
theorem second_is_forgotten :
    (fileTime oneRoot twoTiles (tileAt 1)).isSome ∧
      Expires oneRoot (tileAt 1) twoTiles expireFirst ∧
      ¬ StaysExpired oneRoot (tileAt 1) twoTiles [expireFirst, postFirst] ∧
      ¬ StaysExpiredUntilPosted oneRoot (tileAt 1) twoTiles [expireFirst, postFirst] := by
  have hreported : reported oneRoot (processTileRequest oneRoot
      (processTileRequest oneRoot twoTiles expireFirst).1 postFirst).1 (tileAt 1) = some 1000 := by
    decide +kernel
  refine ⟨by decide, expireFirst_expires, fun h => ?_, fun h => ?_⟩
  · have hsecond := (h.2 _ rfl).1
    cases hreported.symm.trans hsecond
  · have hsecond := (h.2 _ rfl).1 (by decide +kernel)
    cases hreported.symm.trans hsecond

end RenderMq.StorageNode
