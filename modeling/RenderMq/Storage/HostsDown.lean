import RenderMq.Storage.Lts

/-!
# Which hosts are marked down

`lts_storage::get` asks the host of the first copy of a tile, and then that of the second. A host that
throws is not asked again for a while (`m_hosts_down`). The same handler catches what `form_url` throws:
for a tile in several formats there is no URL, so that hosts are marked down which nobody has asked
anything.

`attemptHost` is `attempt_get_host` with what it did. `marksFailures_iff` says when only those hosts are
marked which a request failed at.
-/

namespace RenderMq

/-- What `http::get` does. -/
inductive GetOutcome where
  /-- It throws before there is a request. -/
  | notSent (what : String)
  /-- The request is made, and fails. -/
  | failed (what : String)
  | answered (response : Response)

/-- What its caller sees. -/
def GetOutcome.fetched : GetOutcome → Fetched
  | .notSent what => .error what
  | .failed what => .error what
  | .answered response => .ok response

/-- When an attempt looks whether the host is down, and when it marks it. -/
structure AttemptTimes where
  check : Int
  mark : Int

/-- What comes of an attempt. What is thrown is caught, with or without a request made. -/
inductive HostOutcome where
  | skipped
  | threw (requested : Bool)
  | answered (response : Response)

/-- An attempt: the host, what came of it, and the hosts that are down afterwards. -/
structure HostAttempt where
  host : String × Int
  outcome : HostOutcome
  down : LtsStorage.HostsDown

namespace HostAttempt

/-- The response that is returned. -/
def response (a : HostAttempt) : Option Response :=
  match a.outcome with
  | .answered response => if response.statusCode = 200 then some response else none
  | _ => none

/-- `host_is_down` is called. -/
def Marks (a : HostAttempt) : Prop := ∃ requested, a.outcome = .threw requested

/-- A request was made to the host, and failed. -/
def RequestFailed (a : HostAttempt) : Prop := a.outcome = .threw true

end HostAttempt

namespace LtsStorage

variable (lts : LtsStorage)

/-- `attempt_get_host`, with what it did. -/
def attemptHost (http : Replica → String → GetOutcome) (times : AttemptTimes) (down : HostsDown)
    (tile : TileProtocol) (replica : Replica) : HostAttempt :=
  let host := lts.hashedHost tile.x tile.y tile.z replica
  match isHostDown down host times.check with
  | (true, down) => { host, outcome := .skipped, down }
  | (false, down) =>
    match lts.formUrl tile.x tile.y tile.z tile.style tile.format replica with
    | .error _ => { host, outcome := .threw false, down := lts.hostIsDown down host times.mark }
    | .ok url =>
      match http replica url with
      | .notSent _ => { host, outcome := .threw false, down := lts.hostIsDown down host times.mark }
      | .failed _ => { host, outcome := .threw true, down := lts.hostIsDown down host times.mark }
      | .answered response => { host, outcome := .answered response, down }

/-- The first attempt of `get`. -/
def firstAttempt (http : Replica → String → GetOutcome) (clock : Replica → AttemptTimes)
    (down : HostsDown) (tile : TileProtocol) : HostAttempt :=
  lts.attemptHost http (clock .primary) down tile .primary

/-- The second attempt, where the first has no response. -/
def secondAttempt (http : Replica → String → GetOutcome) (clock : Replica → AttemptTimes)
    (down : HostsDown) (tile : TileProtocol) : HostAttempt :=
  lts.attemptHost http (clock .secondary) (lts.firstAttempt http clock down tile).down tile
    .secondary

/-- The attempts of `get`. -/
def getAttempts (http : Replica → String → GetOutcome) (clock : Replica → AttemptTimes)
    (down : HostsDown) (tile : TileProtocol) : List HostAttempt :=
  if (lts.firstAttempt http clock down tile).response.isSome then
    [lts.firstAttempt http clock down tile]
  else [lts.firstAttempt http clock down tile, lts.secondAttempt http clock down tile]

/-- The hosts that are down after `get`. -/
def hostsDownAfter (http : Replica → String → GetOutcome) (clock : Replica → AttemptTimes)
    (down : HostsDown) (tile : TileProtocol) : HostsDown :=
  if (lts.firstAttempt http clock down tile).response.isSome then
    (lts.firstAttempt http clock down tile).down
  else (lts.secondAttempt http clock down tile).down

/-! ## The same as `get` -/

section Same

variable (http : Replica → String → GetOutcome) (down : HostsDown) (tile : TileProtocol) (now : Int)

theorem attemptGetHost_eq (replica : Replica) :
    lts.attemptGetHost (fun replica url => (http replica url).fetched) down tile replica now =
      ((lts.attemptHost http ⟨now, now⟩ down tile replica).response,
        (lts.attemptHost http ⟨now, now⟩ down tile replica).down) := by
  unfold attemptGetHost attemptHost
  dsimp only
  cases isHostDown down (lts.hashedHost tile.x tile.y tile.z replica) now with
  | mk isDown down =>
    cases isDown with
    | true => rfl
    | false =>
      cases lts.formUrl tile.x tile.y tile.z tile.style tile.format replica with
      | error what => rfl
      | ok url =>
        have hbind : ((.ok url : Except String String) >>= fun url => (http replica url).fetched) =
            (http replica url).fetched := rfl
        dsimp only
        rw [hbind]
        cases http replica url <;> rfl

/-- Where the clock stands still, `get` leaves the hosts down that the attempts leave down. -/
theorem get_snd_eq :
    (lts.get (fun replica url => (http replica url).fetched) down tile now).2 =
      lts.hostsDownAfter http (fun _ => ⟨now, now⟩) down tile := by
  rw [get, attemptGetHost_eq, hostsDownAfter, secondAttempt, firstAttempt]
  cases (lts.attemptHost http ⟨now, now⟩ down tile .primary).response with
  | some response => rfl
  | none =>
    dsimp only
    rw [attemptGetHost_eq]
    cases (lts.attemptHost http ⟨now, now⟩
      (lts.attemptHost http ⟨now, now⟩ down tile .primary).down tile .secondary).response <;> rfl

end Same

/-! ## What an attempt does to the hosts -/

section Attempt

variable {lts : LtsStorage} {http : Replica → String → GetOutcome} {times : AttemptTimes}
  {down : HostsDown} {tile : TileProtocol} {replica : Replica}

/-- Asking leaves an entry as it is, or removes it after its recheck time. -/
theorem isHostDown_snd (down : HostsDown) (host other : String × Int) (now : Int) :
    (isHostDown down host now).2 other = down other ∨
      ((isHostDown down host now).2 other = none ∧ ∃ t, down other = some t ∧ t < now) := by
  unfold isHostDown
  cases hdown : down host with
  | none => exact .inl rfl
  | some t =>
    dsimp only
    split
    · next hlater =>
      by_cases hother : other = host
      · rw [hother]
        exact .inr ⟨Function.update_self .., t, hdown, hlater⟩
      · exact .inl (Function.update_of_ne hother ..)
    · exact .inl rfl

/-- The host is up and its request can be made: there is a URL, and `http::get` gets as far as sending
it. -/
def Sends (lts : LtsStorage) (http : Replica → String → GetOutcome) (tile : TileProtocol)
    (replica : Replica) : Prop :=
  ∃ url, lts.formUrl tile.x tile.y tile.z tile.style tile.format replica = .ok url ∧
    ∀ what, http replica url ≠ .notSent what

/-- What an attempt does: nothing where the host is down. Else it throws and marks the host, with or
without a request that failed, or it answers. -/
inductive AttemptEffect (lts : LtsStorage) (http : Replica → String → GetOutcome)
    (times : AttemptTimes) (down : HostsDown) (tile : TileProtocol) (replica : Replica)
    (host : String × Int) : HostAttempt → Prop
  | skipped (isDown : (isHostDown down host times.check).1 = true) :
      AttemptEffect lts http times down tile replica host
        ⟨host, .skipped, (isHostDown down host times.check).2⟩
  | unsent (up : (isHostDown down host times.check).1 = false)
      (unsent : ¬ lts.Sends http tile replica) :
      AttemptEffect lts http times down tile replica host
        ⟨host, .threw false, lts.hostIsDown (isHostDown down host times.check).2 host times.mark⟩
  | failed (up : (isHostDown down host times.check).1 = false) (sends : lts.Sends http tile replica) :
      AttemptEffect lts http times down tile replica host
        ⟨host, .threw true, lts.hostIsDown (isHostDown down host times.check).2 host times.mark⟩
  | answered (up : (isHostDown down host times.check).1 = false)
      (sends : lts.Sends http tile replica) (response : Response) :
      AttemptEffect lts http times down tile replica host
        ⟨host, .answered response, (isHostDown down host times.check).2⟩

/-- **One attempt** has one of these effects. -/
theorem attemptHost_effect (lts : LtsStorage) (http : Replica → String → GetOutcome)
    (times : AttemptTimes) (down : HostsDown) (tile : TileProtocol) (replica : Replica) :
    AttemptEffect lts http times down tile replica (lts.hashedHost tile.x tile.y tile.z replica)
      (lts.attemptHost http times down tile replica) := by
  unfold attemptHost
  dsimp only
  set host := lts.hashedHost tile.x tile.y tile.z replica with hhost
  have hsplit : isHostDown down host times.check =
      ((isHostDown down host times.check).1, (isHostDown down host times.check).2) := rfl
  cases hisDown : (isHostDown down host times.check).1 with
  | true =>
    rw [hsplit, hisDown]
    exact .skipped hisDown
  | false =>
    rw [hsplit, hisDown]
    cases hurl : lts.formUrl tile.x tile.y tile.z tile.style tile.format replica with
    | error what =>
      refine .unsent hisDown fun sends => ?_
      obtain ⟨url, hok, _⟩ := sends
      rw [hurl] at hok
      cases hok
    | ok url =>
      dsimp only
      have hsends : lts.Sends http tile replica ↔ ∀ what, http replica url ≠ .notSent what := by
        refine ⟨fun sends => ?_, fun sent => ⟨url, hurl, sent⟩⟩
        obtain ⟨other, hok, sent⟩ := sends
        rw [hurl] at hok
        rwa [Except.ok.inj hok]
      cases hget : http replica url with
      | notSent what => exact .unsent hisDown fun sends => hsends.mp sends what hget
      | failed what =>
        refine .failed hisDown (hsends.mpr fun other h => ?_)
        rw [hget] at h
        cases h
      | answered response =>
        refine .answered hisDown (hsends.mpr fun other h => ?_) response
        rw [hget] at h
        cases h

variable {host : String × Int} {a : HostAttempt}

/-- A host that is marked is down until its recheck time. -/
theorem AttemptEffect.marked (h : AttemptEffect lts http times down tile replica host a)
    (marks : a.Marks) : a.down a.host = some (times.mark + lts.downRecheckTime) := by
  obtain ⟨requested, houtcome⟩ := marks
  cases h with
  | skipped isDown => cases houtcome
  | unsent up unsent => exact Function.update_self ..
  | failed up sends => exact Function.update_self ..
  | answered up sends response => cases houtcome

/-- Another entry, or any if the host is not marked, stays or is removed after its recheck time. -/
theorem AttemptEffect.frame (h : AttemptEffect lts http times down tile replica host a)
    {other : String × Int} (unmarked : a.host = other → ¬ a.Marks) :
    a.down other = down other ∨
      (a.down other = none ∧ ∃ t, down other = some t ∧ t < times.check) := by
  have hcheck := isHostDown_snd down host other times.check
  have hkeep (hne : other ≠ host) :
      lts.hostIsDown (isHostDown down host times.check).2 host times.mark other =
        (isHostDown down host times.check).2 other := Function.update_of_ne hne ..
  cases h with
  | skipped isDown => exact hcheck
  | unsent up unsent =>
    dsimp only
    rw [hkeep fun heq => unmarked heq.symm ⟨false, rfl⟩]
    exact hcheck
  | failed up sends =>
    dsimp only
    rw [hkeep fun heq => unmarked heq.symm ⟨true, rfl⟩]
    exact hcheck
  | answered up sends response => exact hcheck

/-- An attempt marks its host only after a request that failed, exactly if the request can be made where
the host is up. -/
theorem AttemptEffect.fair_iff (h : AttemptEffect lts http times down tile replica host a) :
    (a.Marks → a.RequestFailed) ↔
      ((isHostDown down host times.check).1 = false → lts.Sends http tile replica) := by
  cases h with
  | skipped isDown =>
    refine iff_of_true (fun marks => ?_) fun up => ?_
    · obtain ⟨_, houtcome⟩ := marks
      cases houtcome
    · rw [isDown] at up
      cases up
  | unsent up unsent =>
    refine iff_of_false (fun fair => ?_) fun sends => unsent (sends up)
    cases fair ⟨false, rfl⟩
  | failed up sends => exact iff_of_true (fun _ => rfl) fun _ => sends
  | answered up sends response =>
    refine iff_of_true (fun marks => ?_) fun _ => sends
    obtain ⟨_, houtcome⟩ := marks
    cases houtcome

/-- A host that is down is not asked, and no entry changes. -/
theorem AttemptEffect.skips (h : AttemptEffect lts http times down tile replica host a)
    (isDown : (isHostDown down host times.check).1 = true) : a.response = none ∧ a.down = down := by
  have hsame : (isHostDown down host times.check).2 = down := by
    unfold isHostDown at isDown ⊢
    cases hhost : down host with
    | none => rfl
    | some t =>
      rw [hhost] at isDown
      dsimp only at isDown ⊢
      split
      · next hlater =>
        rw [if_pos hlater] at isDown
        cases isDown
      · rfl
  cases h with
  | skipped _ => exact ⟨rfl, hsame⟩
  | unsent up _ =>
    rw [isDown] at up
    cases up
  | failed up _ =>
    rw [isDown] at up
    cases up
  | answered up _ _ =>
    rw [isDown] at up
    cases up

end Attempt

/-! ## What a call does to the hosts -/

/-- What is asked of a call: it marks a host only after a request to it that failed, and every other
entry stays, unless it is removed after its recheck time. -/
structure MarksFailures (lts : LtsStorage) (http : Replica → String → GetOutcome)
    (clock : Replica → AttemptTimes) (down : HostsDown) (tile : TileProtocol) : Prop where
  marked : ∀ a ∈ lts.getAttempts http clock down tile, a.Marks → a.RequestFailed
  others : ∀ host, (∀ a ∈ lts.getAttempts http clock down tile, a.host = host → ¬ a.Marks) →
    lts.hostsDownAfter http clock down tile host = down host ∨
      (lts.hostsDownAfter http clock down tile host = none ∧
        ∃ t, down host = some t ∧ ∃ replica, t < (clock replica).check)

/-- An attempt asks a host that is up, or none: the request can be made there. -/
def SendsIfUp (lts : LtsStorage) (http : Replica → String → GetOutcome) (times : AttemptTimes)
    (down : HostsDown) (tile : TileProtocol) (replica : Replica) : Prop :=
  (isHostDown down (lts.hashedHost tile.x tile.y tile.z replica) times.check).1 = false →
    lts.Sends http tile replica

section Call

variable {lts : LtsStorage} {http : Replica → String → GetOutcome}
  {clock : Replica → AttemptTimes} {down : HostsDown} {tile : TileProtocol}

theorem firstAttempt_effect :
    AttemptEffect lts http (clock .primary) down tile .primary
      (lts.hashedHost tile.x tile.y tile.z .primary) (lts.firstAttempt http clock down tile) :=
  attemptHost_effect ..

theorem secondAttempt_effect :
    AttemptEffect lts http (clock .secondary) (lts.firstAttempt http clock down tile).down tile
      .secondary (lts.hashedHost tile.x tile.y tile.z .secondary)
      (lts.secondAttempt http clock down tile) :=
  attemptHost_effect ..

theorem mem_getAttempts {a : HostAttempt} :
    a ∈ lts.getAttempts http clock down tile ↔
      a = lts.firstAttempt http clock down tile ∨
        ((lts.firstAttempt http clock down tile).response = none ∧
          a = lts.secondAttempt http clock down tile) := by
  unfold getAttempts
  cases (lts.firstAttempt http clock down tile).response with
  | some response => simp
  | none => simp

/-- The entries of hosts that are not marked. -/
theorem hostsDownAfter_frame {host : String × Int}
    (unmarked : ∀ a ∈ lts.getAttempts http clock down tile, a.host = host → ¬ a.Marks) :
    lts.hostsDownAfter http clock down tile host = down host ∨
      (lts.hostsDownAfter http clock down tile host = none ∧
        ∃ t, down host = some t ∧ ∃ replica, t < (clock replica).check) := by
  have hfirst : (lts.firstAttempt http clock down tile).down host = down host ∨
      ((lts.firstAttempt http clock down tile).down host = none ∧
        ∃ t, down host = some t ∧ t < (clock .primary).check) :=
    firstAttempt_effect.frame (unmarked _ (mem_getAttempts.mpr (.inl rfl)))
  unfold hostsDownAfter
  split
  · rcases hfirst with hsame | ⟨hnone, t, ht, hlt⟩
    · exact .inl hsame
    · exact .inr ⟨hnone, t, ht, .primary, hlt⟩
  · next hresponse =>
    have hsecond := secondAttempt_effect.frame (unmarked _ (mem_getAttempts.mpr
      (.inr ⟨by simpa using hresponse, rfl⟩)))
    rcases hsecond with hsame | ⟨hnone, t, ht, hlt⟩
    · rw [hsame]
      rcases hfirst with hsame | ⟨hnone, t, ht, hlt⟩
      · exact .inl hsame
      · exact .inr ⟨hnone, t, ht, .primary, hlt⟩
    · rcases hfirst with hsame | ⟨hgone, _⟩
      · exact .inr ⟨hnone, t, hsame ▸ ht, .secondary, hlt⟩
      · rw [hgone] at ht
        cases ht

/-- Each of the attempts that are made marks its host only if its request failed. -/
theorem marksFailures_iff_attempts : lts.MarksFailures http clock down tile ↔
    ((lts.firstAttempt http clock down tile).Marks →
      (lts.firstAttempt http clock down tile).RequestFailed) ∧
    ((lts.firstAttempt http clock down tile).response = none →
      (lts.secondAttempt http clock down tile).Marks →
        (lts.secondAttempt http clock down tile).RequestFailed) := by
  constructor
  · intro h
    exact ⟨h.marked _ (mem_getAttempts.mpr (.inl rfl)),
      fun hnone => h.marked _ (mem_getAttempts.mpr (.inr ⟨hnone, rfl⟩))⟩
  · intro h
    refine ⟨fun a ha => ?_, fun host => hostsDownAfter_frame⟩
    rcases mem_getAttempts.mp ha with rfl | ⟨hnone, rfl⟩
    · exact h.1
    · exact h.2 hnone

/-- **Which hosts are marked down.** Only those at which a request failed, exactly if in each attempt
that is made of a host that is up there is a URL for the tile, and `http::get` gets as far as sending.

What comes of each attempt and the readings of the clock are arguments, and so is what is marked at the
start. When a host that is marked is tried again is not part of this. -/
theorem marksFailures_iff (lts : LtsStorage) (http : Replica → String → GetOutcome)
    (clock : Replica → AttemptTimes) (down : HostsDown) (tile : TileProtocol) :
    lts.MarksFailures http clock down tile ↔
      lts.SendsIfUp http (clock .primary) down tile .primary ∧
        ((lts.firstAttempt http clock down tile).response = none →
          lts.SendsIfUp http (clock .secondary) (lts.firstAttempt http clock down tile).down tile
            .secondary) := by
  rw [marksFailures_iff_attempts, firstAttempt_effect.fair_iff, secondAttempt_effect.fair_iff]
  rfl

/-- Where `http::get` always gets as far as sending, only the format matters: it has a file type, or
both hosts are down. -/
theorem marksFailures_iff_format (sends : ∀ replica url what, http replica url ≠ .notSent what) :
    lts.MarksFailures http clock down tile ↔
      (∃ fileType, fileTypeFor tile.format = .ok fileType) ∨
        ∀ replica, (isHostDown down (lts.hashedHost tile.x tile.y tile.z replica)
          (clock replica).check).1 = true := by
  have hsends (replica : Replica) : lts.Sends http tile replica ↔
      ∃ fileType, fileTypeFor tile.format = .ok fileType := by
    unfold Sends formUrl
    cases fileTypeFor tile.format with
    | error what =>
      refine iff_of_false (fun h => ?_) fun h => ?_
      · obtain ⟨_, h, _⟩ := h
        cases h
      · obtain ⟨_, h⟩ := h
        cases h
    | ok fileType => exact iff_of_true ⟨_, rfl, sends replica _⟩ ⟨_, rfl⟩
  rw [marksFailures_iff_attempts, firstAttempt_effect.fair_iff, secondAttempt_effect.fair_iff,
    hsends, hsends]
  by_cases hformat : ∃ fileType, fileTypeFor tile.format = .ok fileType
  · exact iff_of_true ⟨fun _ => hformat, fun _ _ => hformat⟩ (.inl hformat)
  · simp only [hformat, imp_false, Bool.not_eq_false, false_or]
    constructor
    · intro h
      obtain ⟨hresponse, hdown⟩ := firstAttempt_effect.skips h.1
      rw [hdown] at h
      intro replica
      cases replica with
      | primary => exact h.1
      | secondary => exact h.2 hresponse
    · intro h
      obtain ⟨_, hdown⟩ := firstAttempt_effect.skips (h .primary)
      rw [hdown]
      exact ⟨h .primary, fun _ => h .secondary⟩

/-- A tile in two formats has no URL. Both hosts are up and would answer, and are marked down. -/
theorem mask_marks_host_down :
    ¬ ∀ (lts : LtsStorage) (http : Replica → String → GetOutcome) (clock : Replica → AttemptTimes)
      (down : HostsDown) (tile : TileProtocol), lts.MarksFailures http clock down tile := by
  intro hall
  have h := hall
    { hosts := [("a", 80), ("b", 80)], serverByKey := fun _ => 0, appName := "", version := "" }
    (fun _ _ => .answered { statusCode := 200 }) (fun _ => ⟨0, 0⟩) (fun _ => none)
    { format := fmtPNG ||| fmtJPEG }
  have hmarked := h.marked _ (mem_getAttempts.mpr (.inl rfl)) ⟨false, rfl⟩
  cases hmarked

end Call

end LtsStorage

end RenderMq
