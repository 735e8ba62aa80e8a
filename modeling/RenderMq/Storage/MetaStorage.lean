import RenderMq.Expiry.Overlay
import RenderMq.Storage.DiskHistory

/-!
# Storages with all their operations

`tile_storage` as a value: what there is of a tile and of a metatile, to put a metatile, and to expire
one. Storages that are made of others take them as arguments.

`Apart` is what a storage owes to those above it: it finds a metatile by style, zoom and place, and what
is put of one metatile does nothing to the others. `apart_storage`: a disk owes nothing.
-/

namespace RenderMq

/-- `tile_storage`. -/
structure MetaStorage extends TileStorage where
  getMeta : State → TileProtocol → Option Bytes
  expire : State → TileProtocol → State × Bool

namespace MetaStorage

/-- Metatiles are kept apart, by style, zoom and place. -/
structure Apart (storage : MetaStorage) : Prop where
  same : ∀ s t u, InRange t → InRange u → SameMetatile t u → storage.getMeta s t = storage.getMeta s u
  other : ∀ s t u buf, InRange t → InRange u → ¬ SameMetatile t u →
    storage.getMeta (storage.putMeta s t buf).1 u = storage.getMeta s u

end MetaStorage

theorem InRange.hashRange {t : TileProtocol} (h : InRange t) : HashRange t := by
  have hpow : (2 : Int) ^ t.z.toNat ≤ 2 ^ 18 := by
    have hz := h.zoom
    exact_mod_cast Nat.pow_le_pow_right (show 0 < 2 by decide) (show t.z.toNat ≤ 18 by omega)
  obtain ⟨_, ⟨hx0, hx1⟩, hy0, hy1⟩ := h
  exact ⟨⟨hx0, by omega⟩, hy0, by omega⟩

namespace SameMetatile

variable {t u v : TileProtocol}

theorem symm (h : SameMetatile t u) : SameMetatile u t :=
  ⟨h.x.symm, h.y.symm, h.z.symm, h.style.symm⟩

theorem trans (h : SameMetatile t u) (h' : SameMetatile u v) : SameMetatile t v :=
  ⟨h.x.trans h'.x, h.y.trans h'.y, h.z.trans h'.z, h.style.trans h'.style⟩

theorem of_sameFragment (hstyle : t.style = u.style) (h : SameFragment t u) : SameMetatile t u := by
  obtain ⟨hz, hx, hy⟩ := h
  refine ⟨?_, ?_, hz, hstyle⟩ <;> unfold metaFloor METATILE at * <;> omega

end SameMetatile

/-! ## A disk -/

namespace DiskStorage

variable (disk : DiskStorage)

/-- What `get_meta` gives of a file: its bytes, if it has not expired. -/
def metaOf (file : DiskFile) : Option Bytes := if file.mtime = 0 then none else some file.bytes

/-- `get_meta`. -/
def getMeta (s : DiskState) (tile : TileProtocol) : Option Bytes :=
  (s.files (disk.metatilePath tile)).bind metaOf

/-- A disk as a storage, with the names and times that it uses when it puts something for the nth
time. No handle is alive between the operations. -/
def storage (names : Nat → UniquePath) (times : Nat → Int) : MetaStorage where
  State := DiskState × Nat
  initial := ({ dataCache := [] }, 0)
  get s tile := (disk.answer s.1 tile).getD nullHandle
  getMeta s tile := disk.getMeta s.1 tile
  putMeta s tile buf :=
    let (state, ok) := disk.putMeta s.1 tile buf (names s.2) (times s.2)
    ((state, s.2 + 1), ok)
  expire s tile :=
    let (state, ok) := disk.expire s.1 tile
    ((state, s.2), ok)

/-- What putting a metatile does to a file. -/
theorem files_putMeta (s : DiskState) {t u : TileProtocol} (ht : InRange t) (hu : InRange u)
    (buf : Bytes) (tmp : UniquePath) (now : Int) :
    (disk.putMeta s t buf tmp now).1.files (disk.metatilePath u) =
      DiskEvent.effect u (.putMeta t buf tmp now) (s.files (disk.metatilePath u)) := by
  have hput : disk.step s (.putMeta t buf tmp now) = some (disk.putMeta s t buf tmp now).1 := rfl
  refine disk.step_effect hput hu.hashRange fun v hv => ?_
  obtain rfl := Option.some.inj hv
  exact ht.hashRange

theorem apart_storage (names : Nat → UniquePath) (times : Nat → Int) :
    (disk.storage names times).Apart where
  same s t u ht hu hsame := by
    have hpath := (disk.metatilePath_eq_iff ht.hashRange hu.hashRange).mpr hsame
    exact congrArg (fun path => (s.1.files path).bind metaOf) hpath
  other s t u buf ht hu hother := by
    have hfile := disk.files_putMeta s.1 ht hu buf (names s.2) (times s.2)
    rw [effect_of_other] at hfile
    · exact congrArg (fun file : Option DiskFile => file.bind metaOf) hfile
    · intro v hv hsame
      obtain rfl := Option.some.inj hv
      exact hother hsame.symm

/-- A metatile is given when it was put, at a time that is not the epoch. -/
theorem getMeta_putMeta {names : Nat → UniquePath} {times : Nat → Int} (s : DiskState × Nat)
    {t : TileProtocol} (ht : InRange t) (origin : AtOrigin t) (htime : times s.2 ≠ 0) (buf : Bytes) :
    (disk.storage names times).getMeta ((disk.storage names times).putMeta s t buf).1 t = some buf := by
  have hfile := disk.files_putMeta s.1 ht ht buf (names s.2) (times s.2)
  have hself : SameMetatile t t := ⟨rfl, rfl, rfl, rfl⟩
  rw [DiskEvent.effect, DiskEvent.puts, if_pos ⟨hself, origin⟩] at hfile
  have hgiven : metaOf ⟨buf, times s.2⟩ = some buf := if_neg htime
  exact (congrArg (fun file : Option DiskFile => file.bind metaOf) hfile).trans hgiven

end DiskStorage

end RenderMq
