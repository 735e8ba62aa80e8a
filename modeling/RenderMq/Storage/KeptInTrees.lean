import Mathlib.Data.List.Induction
import RenderMq.Lib.Run
import RenderMq.Storage.MetaStorage
import RenderMq.Storage.StorageTree

/-!
# What a tree of storages gives back

A tree of storages is to a tile one union (`tree_actsAs`). So it gives what was put last, if the
storages that are made for the style of the tile keep what is put (`tree_returns_what_was_put_last`). A
union goes on after a failure, so that a put that failed may have been kept by some of them.

An expiry takes the metatile from a disk, and not from an overlay: that only marks it, and goes on
giving it (`Keep.overlay`). A compositing storage puts nothing, and a union with one among its
storages puts nothing well.
-/

namespace RenderMq

/-! ## What was put last -/

namespace SharedStorage

variable {ω : Type} {tile : TileProtocol} {storage : SharedStorage ω}

/-- What is done to a metatile, and what else happens to the world. -/
inductive Event (ω : Type) where
  | putMeta (buf : Bytes)
  | expire
  | other (change : ω → ω)

/-- A put or an expiry that goes well, or something else. -/
def step (storage : SharedStorage ω) (tile : TileProtocol) (w : ω) : Event ω → Option ω
  | .putMeta buf =>
    if (storage.putMeta w tile buf).2 then some (storage.putMeta w tile buf).1 else none
  | .expire => if (storage.expire w tile).2 then some (storage.expire w tile).1 else none
  | .other change => some (change w)

/-- What is put, by an event that puts something. -/
def puts : Event ω → Option Bytes
  | .putMeta buf => some buf
  | _ => none

/-- What a storage that expires what it has has of the metatile after an event, if that says so. -/
def leaves : Event ω → Option (Option Bytes)
  | .putMeta buf => some (some buf)
  | .expire => some none
  | .other _ => none

/-- A storage with what it has of the metatile. One that marks has it still when it has expired. -/
structure Keeper (ω : Type) where
  storage : SharedStorage ω
  has : ω → Option Bytes
  marks : Bool := false

abbrev Kept (ω : Type) := List (Keeper ω)

/-- What an expiry leaves of what a storage has. -/
def Keeper.expired (s : Keeper ω) (had : Option Bytes) : Option Bytes := if s.marks then had else none

/-- An operation that goes well has its effect on its storage, and on another that one or none. -/
structure Leaves (op : SharedStorage ω → ω → ω × Bool) (effect : Keeper ω → Option Bytes → Option Bytes)
    (kept : Kept ω) : Prop where
  own : ∀ s ∈ kept, ∀ w, (op s.storage w).2 = true → s.has (op s.storage w).1 = effect s (s.has w)
  others : ∀ s ∈ kept, ∀ s' ∈ kept, ∀ w, (op s.storage w).2 = true →
    s'.has (op s.storage w).1 = s'.has w ∨ s'.has (op s.storage w).1 = effect s (s'.has w)

/-- Storages that keep a metatile that is put, until it is expired or longer. They may keep it in the
same place. -/
structure Keep (tile : TileProtocol) (kept : Kept ω) : Prop where
  found : ∀ s ∈ kept, ∀ w buf, s.has w = some buf → ∀ data, s.storage.getMeta w tile data = (true, buf)
  missing : ∀ s ∈ kept, ∀ w, s.has w = none → ∀ data, (s.storage.getMeta w tile data).1 = false
  put : ∀ buf, Leaves (fun s w => s.putMeta w tile buf) (fun _ _ => some buf) kept
  expire : Leaves (fun s w => s.expire w tile) Keeper.expired kept

/-- What else happens leaves the metatile as it is. -/
def Undisturbed (kept : Kept ω) (w : ω) : Event ω → Prop
  | .other change => ∀ s ∈ kept, s.has (change w) = s.has w
  | _ => True

/-- The storages that are asked. -/
abbrev Kept.storages (kept : Kept ω) : List (SharedStorage ω) := kept.map Keeper.storage

/-- All storages of a union have the value, if each of them did well. -/
theorem doAll_leaves {op : SharedStorage ω → ω → ω × Bool} {kept : Kept ω}
    {effect : Keeper ω → Option Bytes → Option Bytes} {value : Option Bytes}
    (h : Leaves op effect kept) (hvalue : ∀ s ∈ kept, ∀ had, effect s had = value) (w : ω)
    (hok : (doAll op kept.storages w).2 = true) :
    ∀ s ∈ kept, s.has (doAll op kept.storages w).1 = value := by
  have part : ∀ done : Kept ω, (∀ s ∈ done, s ∈ kept) → (doAll op done.storages w).2 = true →
      ∀ s ∈ done, s.has (doAll op done.storages w).1 = value := by
    intro done
    induction done using List.reverseRecOn with
    | nil => simp
    | append_singleton done last ih =>
      intro hdone hok s hs
      have hone : ∀ w, doAll op [last.storage] w = op last.storage w := by simp [doAll, alsoDo]
      rw [Kept.storages, List.map_append, List.map_singleton, doAll_append, hone] at hok ⊢
      rw [Bool.and_eq_true] at hok
      have hlast := hdone last (List.mem_append_right _ (List.mem_singleton_self _))
      rcases List.mem_append.mp hs with hmem | hmem
      · have hbefore := ih (fun s hs => hdone s (List.mem_append_left _ hs)) hok.1 s hmem
        rcases h.others last hlast s (hdone s hs) _ hok.2 with hsame | heffect
        · exact hsame.trans hbefore
        · exact heffect.trans (hvalue last hlast _)
      · obtain rfl := List.mem_singleton.mp hmem
        exact (h.own _ hlast _ hok.2).trans (hvalue _ hlast _)
  exact part kept (fun s hs => hs) hok

/-- What each turn of a union keeps of a storage, the union keeps. -/
theorem doAll_keeps {op : SharedStorage ω → ω → ω × Bool} {kept : Kept ω} {P : ω → Prop}
    (hturn : ∀ s ∈ kept, ∀ w, (op s.storage w).2 = true → P w → P (op s.storage w).1) (w : ω)
    (hok : (doAll op kept.storages w).2 = true) (hstart : P w) :
    P (doAll op kept.storages w).1 := by
  induction kept generalizing w with
  | nil => exact hstart
  | cons s rest ih =>
    rw [Kept.storages, List.map_cons, doAll_cons] at hok ⊢
    rw [Bool.and_eq_true] at hok
    obtain ⟨hfirst, hrest⟩ := List.forall_mem_cons.mp hturn
    exact ih hrest _ hok.2 (hfirst w hok.1 hstart)

theorem getMetaFirst_missing {kept : Kept ω} {w : ω}
    (h : ∀ s ∈ kept, ∀ data, (s.storage.getMeta w tile data).1 = false) (data : Bytes) :
    (getMetaFirst w tile kept.storages data).1 = false := by
  induction kept generalizing data with
  | nil => rfl
  | cons s rest ih =>
    obtain ⟨hs, hrest⟩ := List.forall_mem_cons.mp h
    rw [Kept.storages, List.map_cons, getMetaFirst, if_neg (by simp [hs data]), ih hrest]

/-- Where each storage has a value or nothing, a union gives the value or nothing. -/
theorem getMetaFirst_of_has {kept : Kept ω} (keep : Keep tile kept) {w : ω} {buf : Bytes}
    (h : ∀ s ∈ kept, s.has w = none ∨ s.has w = some buf) (data : Bytes) :
    (getMetaFirst w tile kept.storages data).1 = false ∨
      getMetaFirst w tile kept.storages data = (true, buf) := by
  have part : ∀ rest : Kept ω, (∀ s ∈ rest, s ∈ kept) → ∀ data,
      (getMetaFirst w tile rest.storages data).1 = false ∨
        getMetaFirst w tile rest.storages data = (true, buf) := by
    intro rest
    induction rest with
    | nil => exact fun _ _ => .inl rfl
    | cons s rest ih =>
      intro hrest data
      obtain ⟨hs, hothers⟩ := List.forall_mem_cons.mp hrest
      rw [Kept.storages, List.map_cons, getMetaFirst]
      rcases h s hs with hnone | hsome
      · rw [keep.missing s hs w hnone data]
        exact ih hothers _
      · rw [keep.found s hs w buf hsome data]
        exact .inr rfl
  exact part kept (fun _ hs => hs) data

/-- Where all storages have the value, a union gives it. -/
theorem getMetaFirst_found {kept : Kept ω} (keep : Keep tile kept) (hne : kept ≠ []) {w : ω}
    {buf : Bytes} (h : ∀ s ∈ kept, s.has w = some buf) (data : Bytes) :
    getMetaFirst w tile kept.storages data = (true, buf) := by
  obtain ⟨s, rest, rfl⟩ := List.exists_cons_of_ne_nil hne
  rw [Kept.storages, List.map_cons, getMetaFirst,
    keep.found s List.mem_cons_self w buf (h s List.mem_cons_self)]
  rfl

section OneEvent

variable {kept : Kept ω} {w w' : ω}

/-- A put leaves what is put in all storages. -/
theorem step_putMeta (hacts : storage.ActsAs tile kept.storages) (keep : Keep tile kept)
    {buf : Bytes} (hstep : storage.step tile w (.putMeta buf) = some w') :
    ∀ s ∈ kept, s.has w' = some buf := by
  rw [step, hacts.putMeta] at hstep
  split at hstep
  · next hok =>
    obtain rfl := Option.some.inj hstep
    exact doAll_leaves (keep.put buf) (fun _ _ _ => rfl) w hok
  · cases hstep

/-- What an expiry does is done by the union. -/
theorem step_expire (hacts : storage.ActsAs tile kept.storages)
    (hstep : storage.step tile w .expire = some w') :
    (doAll (fun s w => s.expire w tile) kept.storages w).2 = true ∧
      w' = (doAll (fun s w => s.expire w tile) kept.storages w).1 := by
  rw [step, hacts.expire] at hstep
  split at hstep
  · next hok => exact ⟨hok, (Option.some.inj hstep).symm⟩
  · cases hstep

/-- Of storages that do not mark, an expiry takes what they have. -/
theorem step_expire_drops (hacts : storage.ActsAs tile kept.storages) (keep : Keep tile kept)
    (hdrops : ∀ s ∈ kept, s.marks = false) (hstep : storage.step tile w .expire = some w') :
    ∀ s ∈ kept, s.has w' = none := by
  obtain ⟨hok, rfl⟩ := step_expire hacts hstep
  refine doAll_leaves keep.expire (fun s hs had => ?_) w hok
  rw [Keeper.expired, hdrops s hs]
  rfl

/-- Of storages that mark, an expiry takes nothing. -/
theorem step_expire_marks (hacts : storage.ActsAs tile kept.storages) (keep : Keep tile kept)
    (hmarks : ∀ s ∈ kept, s.marks = true) (hstep : storage.step tile w .expire = some w') :
    ∀ s ∈ kept, s.has w' = s.has w := by
  obtain ⟨hok, rfl⟩ := step_expire hacts hstep
  intro s hs
  refine doAll_keeps (P := fun v => s.has v = s.has w) (fun t ht v hv hgood => ?_) w hok rfl
  rcases keep.expire.others t ht s hs v hv with hsame | heffect
  · exact hsame.trans hgood
  · rw [heffect, Keeper.expired, hmarks t ht]
    exact hgood

/-- Of any storages, an expiry leaves what they had or takes it. -/
theorem step_expire_either (hacts : storage.ActsAs tile kept.storages) (keep : Keep tile kept)
    {buf : Bytes} (hstep : storage.step tile w .expire = some w')
    (h : ∀ s ∈ kept, s.has w = none ∨ s.has w = some buf) :
    ∀ s ∈ kept, s.has w' = none ∨ s.has w' = some buf := by
  obtain ⟨hok, rfl⟩ := step_expire hacts hstep
  intro s hs
  refine doAll_keeps (P := fun v => s.has v = none ∨ s.has v = some buf)
    (fun t ht v hv hgood => ?_) w hok (h s hs)
  rcases keep.expire.others t ht s hs v hv with hsame | heffect
  · rwa [hsame]
  · rw [heffect, Keeper.expired]
    split
    · exact hgood
    · exact .inl rfl

end OneEvent

section Runs

variable {kept : Kept ω} {events : List (Event ω)} {w w' : ω}
  (hacts : storage.ActsAs tile kept.storages) (keep : Keep tile kept)
  (quiet : Run.EveryStep (storage.step tile) (Undisturbed kept) w events)
  (hrun : Run.run (storage.step tile) w events = some w')

include hacts keep quiet hrun

/-- After a put, all storages have what was put. -/
theorem run_put {buf : Bytes} (hlast : Run.last leaves events = some (some buf)) :
    ∀ s ∈ kept, s.has w' = some buf := by
  refine Run.run_last (P := fun value w => ∀ buf, value = some buf → ∀ s ∈ kept, s.has w = some buf)
    ?_ ?_ quiet hrun hlast buf rfl
  · rintro v e v' value _ htells hstep buf rfl
    cases e with
    | putMeta buf' =>
      obtain rfl := Option.some.inj (Option.some.inj htells)
      exact step_putMeta hacts keep hstep
    | _ => cases htells
  · rintro v e v' value hquiet htells hvalue hstep buf rfl
    cases e with
    | other change =>
      obtain rfl := Option.some.inj hstep
      exact fun s hs => (hquiet s hs).trans (hvalue buf rfl s hs)
    | _ => cases htells

/-- After an expiry, storages that do not mark have nothing. -/
theorem run_expire (hdrops : ∀ s ∈ kept, s.marks = false)
    (hlast : Run.last leaves events = some none) : ∀ s ∈ kept, s.has w' = none := by
  refine Run.run_last (P := fun value w => value = none → ∀ s ∈ kept, s.has w = none)
    ?_ ?_ quiet hrun hlast rfl
  · rintro v e v' value _ htells hstep rfl
    cases e with
    | expire => exact step_expire_drops hacts keep hdrops hstep
    | _ => cases htells
  · rintro v e v' value hquiet htells hvalue hstep rfl
    cases e with
    | other change =>
      obtain rfl := Option.some.inj hstep
      exact fun s hs => (hquiet s hs).trans (hvalue rfl s hs)
    | _ => cases htells

/-- Storages that mark have what was put last, expired or not. -/
theorem run_marks (hmarks : ∀ s ∈ kept, s.marks = true) {buf : Bytes}
    (hlast : Run.last puts events = some buf) : ∀ s ∈ kept, s.has w' = some buf := by
  refine Run.run_last (P := fun buf w => ∀ s ∈ kept, s.has w = some buf) ?_ ?_ quiet hrun hlast
  · rintro v e v' buf _ htells hstep
    cases e with
    | putMeta buf' =>
      obtain rfl := Option.some.inj htells
      exact step_putMeta hacts keep hstep
    | _ => cases htells
  · rintro v e v' buf hquiet htells hvalue hstep
    cases e with
    | putMeta buf' => cases htells
    | expire =>
      exact fun s hs => (step_expire_marks hacts keep hmarks hstep s hs).trans (hvalue s hs)
    | other change =>
      obtain rfl := Option.some.inj hstep
      exact fun s hs => (hquiet s hs).trans (hvalue s hs)

/-- Any storages have what was put last, or nothing. -/
theorem run_either {buf : Bytes} (hlast : Run.last puts events = some buf) :
    ∀ s ∈ kept, s.has w' = none ∨ s.has w' = some buf := by
  refine Run.run_last (P := fun buf w => ∀ s ∈ kept, s.has w = none ∨ s.has w = some buf)
    ?_ ?_ quiet hrun hlast
  · rintro v e v' buf _ htells hstep
    cases e with
    | putMeta buf' =>
      obtain rfl := Option.some.inj htells
      exact fun s hs => .inr (step_putMeta hacts keep hstep s hs)
    | _ => cases htells
  · rintro v e v' buf hquiet htells hvalue hstep
    cases e with
    | putMeta buf' => cases htells
    | expire => exact step_expire_either hacts keep hstep hvalue
    | other change =>
      obtain rfl := Option.some.inj hstep
      intro s hs
      rw [hquiet s hs]
      exact hvalue s hs

end Runs

/-- An overlay over a storage that keeps what is put keeps it too, and only marks it when it expires;
its marks must leave the metatile alone. -/
theorem Keep.overlay {kept : Kept ω} (keep : Keep tile kept) {marks : ExpiryMarks ω}
    (hmarks : ∀ s ∈ kept, ∀ w expired, s.has (marks.setExpired w tile expired).1 = s.has w) :
    Keep tile (kept.map fun s => ⟨overlayStorage s.storage marks, s.has, true⟩) where
  found := List.forall_mem_map.mpr keep.found
  missing := List.forall_mem_map.mpr keep.missing
  put buf := by
    constructor
    · refine List.forall_mem_map.mpr fun s hs w hok => ?_
      exact (keep.put buf).own s hs _ hok
    · refine List.forall_mem_map.mpr fun s hs => List.forall_mem_map.mpr fun s' hs' w hok => ?_
      rcases (keep.put buf).others s hs s' hs' _ hok with hsame | hvalue
      · exact .inl (hsame.trans (hmarks s' hs' w false))
      · exact .inr hvalue
  expire := by
    constructor
    · exact List.forall_mem_map.mpr fun s hs w _ => hmarks s hs w true
    · refine List.forall_mem_map.mpr fun s hs => List.forall_mem_map.mpr fun s' hs' w _ => ?_
      exact .inl (hmarks s' hs' w true)

/-- Where one of some storages puts nothing well, their union does not. -/
theorem doAll_fails {op : SharedStorage ω → ω → ω × Bool} {s : SharedStorage ω}
    (hfails : ∀ w, (op s w).2 = false) {storages : List (SharedStorage ω)} (hs : s ∈ storages)
    (w : ω) : (doAll op storages w).2 = false := by
  obtain ⟨xs, ys, rfl⟩ := List.append_of_mem hs
  rw [doAll_append, doAll_cons, hfails, Bool.false_and, Bool.and_false]

end SharedStorage

/-! ## Disks -/

/-- A storage with a world of its own. -/
def MetaStorage.shared (storage : MetaStorage) : SharedStorage storage.State where
  get := storage.get
  getMeta s tile data := (storage.getMeta s tile).elim (false, data) fun bytes => (true, bytes)
  putMeta := storage.putMeta
  expire := storage.expire

theorem DiskStorage.getMeta_expire (disk : DiskStorage) {s : DiskState} {tile : TileProtocol}
    (hok : (disk.expire s tile).2 = true) : disk.getMeta (disk.expire s tile).1 tile = none := by
  unfold DiskStorage.expire at hok ⊢
  dsimp only at hok ⊢
  split at hok
  · rename_i hthere
    rw [if_pos hthere, DiskStorage.getMeta]
    dsimp only
    rw [Files.setTime_apply, if_pos rfl]
    cases s.files (disk.metatilePath tile) <;> rfl
  · cases hok

/-- A disk as a keeper of a metatile. -/
def DiskStorage.keeper (disk : DiskStorage) (names : Nat → UniquePath) (times : Nat → Int)
    (tile : TileProtocol) : SharedStorage.Keeper (DiskState × Nat) :=
  ⟨(disk.storage names times).shared, fun w => disk.getMeta w.1 tile, false⟩

/-- A disk keeps a metatile, also if it is asked more than once. -/
theorem DiskStorage.keep (disk : DiskStorage) {names : Nat → UniquePath} {times : Nat → Int}
    (htimes : ∀ n, times n ≠ 0) {tile : TileProtocol} (ht : InRange tile) (origin : AtOrigin tile)
    {kept : SharedStorage.Kept (DiskState × Nat)}
    (hkept : ∀ s ∈ kept, s = disk.keeper names times tile) : SharedStorage.Keep tile kept where
  found s hs w buf h data := by
    obtain rfl := hkept s hs
    exact congrArg (fun found : Option Bytes => found.elim (false, data) fun bytes => (true, bytes)) h
  missing s hs w h data := by
    obtain rfl := hkept s hs
    exact congrArg (fun found : Option Bytes =>
      (found.elim (false, data) fun bytes => (true, bytes)).1) h
  put buf := by
    constructor
    · intro s hs w _
      obtain rfl := hkept s hs
      exact disk.getMeta_putMeta w ht origin (htimes w.2) buf
    · intro s hs s' hs' w _
      obtain rfl := hkept s hs
      obtain rfl := hkept s' hs'
      exact .inr (disk.getMeta_putMeta w ht origin (htimes w.2) buf)
  expire := by
    constructor
    · intro s hs w hok
      obtain rfl := hkept s hs
      exact disk.getMeta_expire hok
    · intro s hs s' hs' w hok
      obtain rfl := hkept s hs
      obtain rfl := hkept s' hs'
      exact .inr (disk.getMeta_expire hok)

namespace StorageTree

open SharedStorage

variable {ω : Type} {services : Text → Text → ExpiryMarks ω}

/-- No put goes well where a compositing storage is made for the style of the tile. -/
theorem putMeta_of_compositing {tree : StorageTree (SharedStorage ω)} {tile : TileProtocol}
    {underStorage overStorage : SharedStorage ω} {c : CompositingConfig}
    (hs : compositingStorage underStorage overStorage c ∈ storagesFor services tile.style tree)
    (w : ω) (buf : Bytes) : ((operations services tree).putMeta w tile buf).2 = false := by
  rw [(@tree_actsAs _ services tile tree).putMeta]
  exact doAll_fails (fun _ => rfl) hs w

/-- **A tree of storages gives what was put last**, if the storages that are made for the style of the
tile keep what is put. After an expiry it gives nothing, if none of them only marks, as disks do not;
it gives still what was put last if all of them only mark, as overlays do; and where there are both,
one or the other. The storages may share their world, and what else happens to it must leave the
metatile alone. Only puts and expiries that go well are considered: none is where one of the storages
is a compositing one (`putMeta_of_compositing`), and one that fails may have done a part of its work. -/
theorem tree_returns_what_was_put_last {tree : StorageTree (SharedStorage ω)} {tile : TileProtocol}
    {kept : Kept ω} (hstorages : storagesFor services tile.style tree = kept.storages)
    (keep : Keep tile kept) {events : List (Event ω)} {w w' : ω}
    (quiet : Run.EveryStep ((operations services tree).step tile) (Undisturbed kept) w events)
    (hrun : Run.run ((operations services tree).step tile) w events = some w') :
    (∀ buf, Run.last leaves events = some (some buf) → kept ≠ [] →
      ∀ data, (operations services tree).getMeta w' tile data = (true, buf)) ∧
    ((∀ s ∈ kept, s.marks = false) → Run.last leaves events = some none →
      ∀ data, ((operations services tree).getMeta w' tile data).1 = false) ∧
    ((∀ s ∈ kept, s.marks = true) → ∀ buf, Run.last puts events = some buf → kept ≠ [] →
      ∀ data, (operations services tree).getMeta w' tile data = (true, buf)) ∧
    ∀ buf, Run.last puts events = some buf → ∀ data,
      ((operations services tree).getMeta w' tile data).1 = false ∨
        (operations services tree).getMeta w' tile data = (true, buf) := by
  have hacts := @tree_actsAs _ services tile tree
  rw [hstorages] at hacts
  refine ⟨fun buf hlast hne data => ?_, fun hdrops hlast data => ?_,
    fun hmarks buf hlast hne data => ?_, fun buf hlast data => ?_⟩
  · rw [hacts.getMeta]
    exact getMetaFirst_found keep hne (run_put hacts keep quiet hrun hlast) data
  · rw [hacts.getMeta]
    have hnone := run_expire hacts keep quiet hrun hdrops hlast
    exact getMetaFirst_missing (fun s hs => keep.missing s hs w' (hnone s hs)) data
  · rw [hacts.getMeta]
    exact getMetaFirst_found keep hne (run_marks hacts keep quiet hrun hmarks hlast) data
  · rw [hacts.getMeta]
    exact getMetaFirst_of_has keep (run_either hacts keep quiet hrun hlast) data

def oneName (_ : Nat) : UniquePath := ⟨"fedc-ba98-7654-3210", by simp⟩

def oneTime (_ : Nat) : Int := 1000000000

/-- A disk, whose files are all of the year 2001. -/
def tilesDisk : SharedStorage (DiskState × Nat) :=
  (DiskStorage.storage ⟨"/tiles"⟩ oneName oneTime).shared

/-- A service that knows of nothing. -/
def noMarks (_ _ : Text) : ExpiryMarks (DiskState × Nat) where
  isExpired _ _ := false
  setExpired w _ _ := (w, true)

def mapTile : TileProtocol := { x := 8, y := 16, z := 12, style := "map" }

def mapKeeper : Keeper (DiskState × Nat) := DiskStorage.keeper ⟨"/tiles"⟩ oneName oneTime mapTile

theorem keep_mapKeepers {kept : Kept (DiskState × Nat)} (hkept : ∀ s ∈ kept, s = mapKeeper) :
    Keep mapTile kept :=
  DiskStorage.keep ⟨"/tiles"⟩ (fun _ => by unfold oneTime; decide) (by decide) (by decide) hkept

theorem tilesDisk_puts (w : DiskState × Nat) (buf : Bytes) :
    (tilesDisk.putMeta w mapTile buf).2 = true := by
  show (DiskStorage.putMeta ⟨"/tiles"⟩ w.1 mapTile buf (oneName w.2) (oneTime w.2)).2 = true
  rw [DiskStorage.putMeta_eq, if_pos ((tileIndex_eq_zero_iff mapTile).mpr (by decide))]

/-- A put to storages that all put well is a step. -/
theorem step_of_puts (tree : StorageTree (SharedStorage (DiskState × Nat)))
    {storages : List (SharedStorage (DiskState × Nat))}
    (hflat : storagesFor noMarks mapTile.style tree = storages)
    (hputs : ∀ s ∈ storages, ∀ w buf, (s.putMeta w mapTile buf).2 = true) (w : DiskState × Nat)
    (buf : Bytes) : (operations noMarks tree).step mapTile w (.putMeta buf) =
      some ((operations noMarks tree).putMeta w mapTile buf).1 := by
  have hacts := @tree_actsAs _ noMarks mapTile tree
  rw [hflat] at hacts
  have hall : ∀ (storages : List (SharedStorage (DiskState × Nat))) (w : DiskState × Nat),
      (∀ s ∈ storages, ∀ w buf, (s.putMeta w mapTile buf).2 = true) →
        (doAll (fun s w => s.putMeta w mapTile buf) storages w).2 = true := by
    intro storages
    induction storages with
    | nil => exact fun _ _ => rfl
    | cons s rest ih =>
      intro w hputs
      obtain ⟨hs, hrest⟩ := List.forall_mem_cons.mp hputs
      rw [doAll_cons, hs, ih _ hrest, Bool.and_true]
  rw [step, hacts.putMeta]
  exact if_pos (hall storages w hputs)

/-- The disk twice for one style, and once for the others. -/
def twoOfStyle : StorageTree (SharedStorage (DiskState × Nat)) :=
  perStyle [("map".toList, union [leaf tilesDisk, leaf tilesDisk])] (leaf tilesDisk)

/-- The disk with an overlay for the style. -/
def overlayOfStyle : StorageTree (SharedStorage (DiskState × Nat)) :=
  perStyle [("map".toList, overlay (leaf tilesDisk) [] [])] (leaf tilesDisk)

/-- Of two puts the second is given, and under an overlay a put is given also after an expiry. -/
theorem two_puts_of_style :
    (∃ w, Run.run ((operations noMarks twoOfStyle).step mapTile) ({ dataCache := [] }, 0)
        [.putMeta [1, 2], .putMeta [3]] = some w ∧
      (operations noMarks twoOfStyle).getMeta w mapTile [] = (true, [3])) ∧
    ∃ w, Run.run ((operations noMarks overlayOfStyle).step mapTile) ({ dataCache := [] }, 0)
        [.putMeta [1, 2], .expire] = some w ∧
      (operations noMarks overlayOfStyle).getMeta w mapTile [] = (true, [1, 2]) := by
  constructor
  · have hputs : ∀ s ∈ [tilesDisk, tilesDisk], ∀ w buf, (s.putMeta w mapTile buf).2 = true := by
      intro s hs
      rcases List.mem_pair.mp hs with rfl | rfl <;> exact tilesDisk_puts
    obtain ⟨w, hrun⟩ : ∃ w, Run.run ((operations noMarks twoOfStyle).step mapTile)
        ({ dataCache := [] }, 0) [.putMeta [1, 2], .putMeta [3]] = some w := by
      simp only [Run.run, List.foldlM_cons, List.foldlM_nil,
        step_of_puts twoOfStyle rfl hputs, Option.bind_eq_bind, Option.bind_some]
      exact ⟨_, rfl⟩
    have keep : Keep mapTile [mapKeeper, mapKeeper] :=
      keep_mapKeepers fun s hs => by rcases List.mem_pair.mp hs with rfl | rfl <;> rfl
    have quiet : Run.EveryStep ((operations noMarks twoOfStyle).step mapTile)
        (Undisturbed [mapKeeper, mapKeeper]) ({ dataCache := [] }, 0)
        [.putMeta [1, 2], .putMeta [3]] :=
      ⟨trivial, fun _ _ => ⟨trivial, fun _ _ => trivial⟩⟩
    exact ⟨w, hrun, (tree_returns_what_was_put_last rfl keep quiet hrun).1 [3] rfl
      (List.cons_ne_nil _ _) []⟩
  · have hputs : ∀ s ∈ [overlayStorage tilesDisk (noMarks [] [])], ∀ w buf,
        (s.putMeta w mapTile buf).2 = true := by
      intro s hs w buf
      rw [List.mem_singleton.mp hs]
      exact tilesDisk_puts w buf
    obtain ⟨w, hrun⟩ : ∃ w, Run.run ((operations noMarks overlayOfStyle).step mapTile)
        ({ dataCache := [] }, 0) [.putMeta [1, 2], .expire] = some w := by
      simp only [Run.run, List.foldlM_cons, List.foldlM_nil,
        step_of_puts overlayOfStyle rfl hputs, Option.bind_eq_bind, Option.bind_some]
      exact ⟨_, rfl⟩
    let kept : Kept (DiskState × Nat) :=
      [mapKeeper].map fun s => ⟨overlayStorage s.storage (noMarks [] []), s.has, true⟩
    have keep : Keep mapTile kept :=
      (keep_mapKeepers fun _ hs => List.mem_singleton.mp hs).overlay fun _ _ _ _ => rfl
    have quiet : Run.EveryStep ((operations noMarks overlayOfStyle).step mapTile) (Undisturbed kept)
        ({ dataCache := [] }, 0) [.putMeta [1, 2], .expire] :=
      ⟨trivial, fun _ _ => ⟨trivial, fun _ _ => trivial⟩⟩
    exact ⟨w, hrun, (tree_returns_what_was_put_last rfl keep quiet hrun).2.2.1 (by simp [kept]) [1, 2] rfl
      (List.cons_ne_nil _ _) []⟩

end StorageTree

end RenderMq
