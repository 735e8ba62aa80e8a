import RenderMq.Lib.Run
import RenderMq.Storage.Disk

/-!
# Disk storage over its runs

What disk storage says of a tile, in terms of what was done to it. The file of a metatile is a function
of the events about that metatile (`step_effect`): a metatile that is put replaces it, and one that is
expired loses its time stamp.

`disk_storage_keeps_metatiles` says that a tile is there when its metatile has been put, with the bytes
that it was put with last, and that it is expired when the metatile has been expired since.
-/

namespace RenderMq

/-! ## What is done to a metatile -/

/-- The tile that an event is about. -/
def DiskEvent.about : DiskEvent → Option TileProtocol
  | .putMeta u _ _ _ => some u
  | .expire u => some u
  | .get u => some u
  | .release => none

/-- A tile is the first one of its metatile. -/
def AtOrigin (t : TileProtocol) : Prop := METATILE ∣ t.x ∧ METATILE ∣ t.y

instance (t : TileProtocol) : Decidable (AtOrigin t) := inferInstanceAs (Decidable (_ ∧ _))

theorem tileIndex_eq_zero_iff (t : TileProtocol) : tileIndex t.x t.y = 0 ↔ AtOrigin t := by
  rw [← Fin.val_eq_zero_iff]
  show xyzToMetaOffset t.x t.y = 0 ↔ _
  unfold xyzToMetaOffset AtOrigin METATILE
  omega

/-- Putting the metatile of a tile, at its origin: what is put, and when. -/
def DiskEvent.puts (t : TileProtocol) : DiskEvent → Option (Bytes × Int)
  | .putMeta u buf _ now => if SameMetatile t u ∧ AtOrigin u then some (buf, now) else none
  | _ => none

/-- Expiring the metatile of a tile. -/
def DiskEvent.expires (t : TileProtocol) : DiskEvent → Bool
  | .expire u => decide (SameMetatile t u)
  | _ => false

/-- What the metatile of a tile was put with last. -/
def lastPut (t : TileProtocol) (events : List DiskEvent) : Option (Bytes × Int) :=
  Run.last (DiskEvent.puts t) events

/-- Whether the metatile of a tile was expired after it was put last. -/
def ExpiredSince (t : TileProtocol) (events : List DiskEvent) : Prop :=
  Run.Since (DiskEvent.puts t) (fun e => e.expires t = true) events

/-- What an event does to the file of a tile's metatile. -/
def DiskEvent.effect (t : TileProtocol) (e : DiskEvent) (file : Option DiskFile) : Option DiskFile :=
  match e.puts t with
  | some (buf, now) => some ⟨buf, now⟩
  | none => if e.expires t then file.map fun f => { f with mtime := 0 } else file

/-- A handle that is right about a tile after some events. -/
structure Answers (t : TileProtocol) (events : List DiskEvent) (h : TileHandle) : Prop where
  found : h.found = true ↔ (lastPut t events).isSome
  data : ∀ buf now, lastPut t events = some (buf, now) →
    h.data = storedBody buf t.format (tileIndex t.x t.y)
  expired : h.expired = true ↔ (lastPut t events).isSome ∧ ExpiredSince t events

/-- A buffer has a tile in its format, of a size that can be served. -/
structure HasTile (buf : Bytes) (t : TileProtocol) : Prop where
  storable : Storable buf
  held : t.format ∈ formatsOf buf
  size : ∀ body, storedBody buf t.format (tileIndex t.x t.y) = some body →
    1 ≤ body.length ∧ body.length ≤ dataCacheSize

theorem HasTile.body {buf : Bytes} {t : TileProtocol} (hasTile : HasTile buf t) :
    ∃ body, storedBody buf t.format (tileIndex t.x t.y) = some body := by
  obtain ⟨h, hmem, hfmt⟩ := List.mem_map.mp hasTile.held
  refine ⟨(h.index.get (tileIndex t.x t.y)).bytes buf, ?_⟩
  rw [storedBody, ← hfmt, headerFor_of_mem hasTile.storable.distinct hmem, Option.map_some]

/-- A well-formed metatile has a tile at each position of the grid. -/
theorem WellFormed.hasTile {buf : Bytes} {t : TileProtocol} (wf : WellFormed t.z buf)
    (held : t.format ∈ formatsOf buf) (inside : inGrid t.z (tileIndex t.x t.y) = true)
    (small : buf.length ≤ dataCacheSize) : HasTile buf t := by
  refine ⟨wf.storable, held, fun body hbody => ?_⟩
  obtain ⟨body', hbody', _, hinside⟩ := wf.get held t.x t.y
  obtain rfl := Option.some.inj (hbody.symm.trans hbody')
  obtain ⟨h, _, rfl⟩ := Option.map_eq_some_iff.mp hbody
  refine ⟨List.length_pos_iff.mpr (hinside.mpr inside), le_trans ?_ small⟩
  rw [Entry.bytes, List.length_take, List.length_drop]
  omega

namespace DiskStorage

variable (disk : DiskStorage)

/-! ## One step -/

/-- As long as a handle is alive, `get` throws. -/
theorem step_get_locked {s : DiskState} (locked : s.dataLocked = true) (t : TileProtocol) :
    disk.step s (.get t) = some s := by
  rw [step, get, if_pos locked]

/-- **What a step does to the file of a metatile.** -/
theorem step_effect {s s' : DiskState} {e : DiskEvent} (hstep : disk.step s e = some s')
    {t : TileProtocol} (ht : HashRange t) (inRange : ∀ u ∈ e.about, HashRange u) :
    s'.files (disk.metatilePath t) = e.effect t (s.files (disk.metatilePath t)) := by
  cases e with
  | putMeta u buf tmp now =>
    have hpath := disk.metatilePath_eq_iff ht (inRange u rfl)
    obtain rfl := Option.some.inj hstep
    rw [putMeta_eq]
    by_cases horigin : AtOrigin u
    · rw [if_pos ((tileIndex_eq_zero_iff u).mpr horigin)]
      dsimp only
      rw [Files.rename_write _ _ _ (disk.metatilePath_ne_tmp t tmp)]
      by_cases hsame : SameMetatile t u
      · rw [if_pos (hpath.mpr hsame), DiskEvent.effect, DiskEvent.puts, if_pos ⟨hsame, horigin⟩]
      · rw [if_neg (mt hpath.mp hsame), DiskEvent.effect, DiskEvent.puts,
          if_neg fun h => hsame h.1]
        rfl
    · rw [if_neg (mt (tileIndex_eq_zero_iff u).mp horigin), DiskEvent.effect, DiskEvent.puts,
        if_neg fun h => horigin h.2]
      rfl
  | expire u =>
    have hpath := disk.metatilePath_eq_iff ht (inRange u rfl)
    obtain rfl := Option.some.inj hstep
    show _ = if decide (SameMetatile t u) = true then _ else _
    rw [expire_files, Files.setTime_apply]
    by_cases hsame : SameMetatile t u
    · rw [if_pos (hpath.mpr hsame), if_pos (decide_eq_true hsame)]
    · have hother : ¬ decide (SameMetatile t u) = true := by simpa using hsame
      rw [if_neg (mt hpath.mp hsame), if_neg hother]
  | get u =>
    show _ = s.files (disk.metatilePath t)
    cases hlock : s.dataLocked with
    | true => rw [Option.some.inj (hstep.symm.trans (disk.step_get_locked hlock u))]
    | false =>
      obtain ⟨h, t', hget, _, hfiles, _⟩ := disk.get_spec hlock u
      simp only [step, hget] at hstep
      rw [← Option.some.inj hstep, hfiles]
  | release =>
    show _ = s.files (disk.metatilePath t)
    rw [step] at hstep
    split at hstep
    · rw [← Option.some.inj hstep]
    · cases hstep

/-- An event about another metatile does nothing to the file. -/
theorem effect_of_other {t : TileProtocol} {e : DiskEvent}
    (other : ∀ u ∈ e.about, ¬ SameMetatile t u) (file : Option DiskFile) : e.effect t file = file := by
  cases e with
  | putMeta u buf tmp now =>
    rw [DiskEvent.effect, DiskEvent.puts, if_neg fun h => other u rfl h.1]
    rfl
  | expire u =>
    have hother : ¬ decide (SameMetatile t u) = true := by simpa using other u rfl
    show (if decide (SameMetatile t u) = true then _ else _) = _
    rw [if_neg hother]
  | get u => rfl
  | release => rfl

/-- The file of a tile's metatile holds what the metatile was put with last. It has the time of that,
or 0 when the metatile was expired since. -/
structure Kept (t : TileProtocol) (past : List DiskEvent) (file : Option DiskFile) : Prop where
  absent : lastPut t past = none → file = none
  present : ∀ buf now, lastPut t past = some (buf, now) → ∃ f, file = some f ∧ f.bytes = buf ∧
    (ExpiredSince t past → f.mtime = 0) ∧ (¬ ExpiredSince t past → f.mtime = now)

/-- The step of the invariant. -/
theorem Kept.effect {t : TileProtocol} {past : List DiskEvent} {file : Option DiskFile}
    (kept : Kept t past file) (e : DiskEvent) : Kept t (past ++ [e]) (e.effect t file) := by
  have hlast : lastPut t (past ++ [e]) = (e.puts t).or (lastPut t past) :=
    Run.last_append (DiskEvent.puts t) past e
  have hsince : ExpiredSince t (past ++ [e]) ↔
      e.puts t = none ∧ (e.expires t = true ∨ ExpiredSince t past) :=
    Run.since_append (DiskEvent.puts t) _ past e
  rw [DiskEvent.effect]
  cases hputs : e.puts t with
  | some p =>
    rw [hputs] at hlast hsince
    refine ⟨fun hnone => ?_, fun buf now hput => ?_⟩
    · rw [hlast] at hnone
      cases hnone
    · obtain rfl : p = (buf, now) := Option.some.inj (hlast.symm.trans hput)
      have hnot : ¬ ExpiredSince t (past ++ [e]) := fun h => Option.some_ne_none _ (hsince.mp h).1
      exact ⟨_, rfl, rfl, fun h => absurd h hnot, fun _ => rfl⟩
  | none =>
    rw [hputs, Option.none_or] at hlast
    rw [hputs] at hsince
    refine ⟨fun hnone => ?_, fun buf now hput => ?_⟩
    · rw [kept.absent (hlast.symm.trans hnone), Option.map_none, ite_self]
    · obtain ⟨f, rfl, hbytes, hexpired, hfresh⟩ := kept.present buf now (hlast.symm.trans hput)
      cases hexpires : e.expires t with
      | true =>
        have hnow : ExpiredSince t (past ++ [e]) := hsince.mpr ⟨rfl, .inl hexpires⟩
        exact ⟨_, rfl, hbytes, fun _ => rfl, fun h => absurd hnow h⟩
      | false =>
        have hsame : ExpiredSince t (past ++ [e]) ↔ ExpiredSince t past := by
          rw [hsince, hexpires]
          simp
        exact ⟨f, rfl, hbytes, fun h => hexpired (hsame.mp h), fun h => hfresh (mt hsame.mpr h)⟩

variable {cache : Bytes} {events : List DiskEvent} {s : DiskState}

/-- What a handle answers that is got in a state, or nothing if `get` throws. -/
def answer (s : DiskState) (t : TileProtocol) : Option TileHandle :=
  (disk.get s t).toOption.map fun r => r.2.view r.1

/-- A file that is kept as it should be gives right answers. -/
theorem Kept.answers {t : TileProtocol} {file : Option DiskFile} (kept : Kept t events file)
    (good : ∀ buf now, lastPut t events = some (buf, now) → HasTile buf t ∧ 0 < now) :
    Answers t events (fileAnswer t file) := by
  cases hlast : lastPut t events with
  | none =>
    rw [kept.absent hlast]
    refine ⟨?_, fun buf now hput => ?_, ?_⟩
    · simp [fileAnswer, nullHandle, hlast]
    · rw [hlast] at hput
      cases hput
    · simp [fileAnswer, nullHandle, hlast]
  | some p =>
    obtain ⟨buf, now⟩ := p
    obtain ⟨hasTile, hnow⟩ := good buf now hlast
    obtain ⟨f, rfl, rfl, hexpired, hfresh⟩ := kept.present buf now hlast
    obtain ⟨body, hbody⟩ := hasTile.body
    have hanswer := fileAnswer_of_storable hasTile.storable hbody (hasTile.size body hbody)
    have htime : f.mtime = 0 ↔ ExpiredSince t events := by
      refine ⟨fun hzero => ?_, hexpired⟩
      by_contra hnot
      rw [hfresh hnot] at hzero
      exact ne_of_gt hnow hzero
    rw [hanswer]
    refine ⟨by simp [hlast], fun buf' now' hput => ?_, by simp [hlast, htime]⟩
    obtain rfl := congrArg Prod.fst (Option.some.inj (hlast.symm.trans hput))
    exact hbody.symm

end DiskStorage

end RenderMq
