import RenderMq.Storage.Compositing
import RenderMq.Storage.StorageConfig

/-!
# Trees of storages

What the storages do that are made of others: `union_storage`, `per_style_storage`, `expiry_overlay` and
`compositing_storage`, over a world that all of them may share.

However unions and storages for each style are nested, to a tile the whole is one union: it asks the
storages that are made for the style of the tile from left to right (`tree_actsAs`). An overlay and a
compositing storage are each one storage of that union, whatever is below them.
-/

namespace RenderMq

/-- `tile_storage`. What `get_meta` gives is left in a string that has something in it before. -/
structure SharedStorage (ω : Type) where
  get : ω → TileProtocol → TileHandle
  getMeta : ω → TileProtocol → Bytes → Bool × Bytes
  putMeta : ω → TileProtocol → Bytes → ω × Bool
  expire : ω → TileProtocol → ω × Bool

/-- `expiry_service`. -/
structure ExpiryMarks (ω : Type) where
  isExpired : ω → TileProtocol → Bool
  setExpired : ω → TileProtocol → Bool → ω × Bool

namespace SharedStorage

variable {ω : Type}

/-! ## Unions -/

/-- `union_storage::get`. -/
def getFirst (w : ω) (tile : TileProtocol) : List (SharedStorage ω) → TileHandle
  | [] => nullHandle
  | storage :: rest =>
    let handle := storage.get w tile
    if handle.found then handle else getFirst w tile rest

/-- `union_storage::get_meta`. A storage that fails may leave something in the string. -/
def getMetaFirst (w : ω) (tile : TileProtocol) : List (SharedStorage ω) → Bytes → Bool × Bytes
  | [], data => (false, data)
  | storage :: rest, data =>
    let result := storage.getMeta w tile data
    if result.1 then result else getMetaFirst w tile rest result.2

/-- One turn of `success &= ...`. -/
def alsoDo (op : SharedStorage ω → ω → ω × Bool) (done : ω × Bool) (storage : SharedStorage ω) :
    ω × Bool :=
  let result := op storage done.1
  (result.1, done.2 && result.2)

/-- The loops of `union_storage::put_meta` and `union_storage::expire`. -/
def doAll (op : SharedStorage ω → ω → ω × Bool) (storages : List (SharedStorage ω)) (w : ω) :
    ω × Bool :=
  storages.foldl (alsoDo op) (w, true)

/-- `union_storage`. -/
def unionStorage (storages : List (SharedStorage ω)) : SharedStorage ω where
  get w tile := getFirst w tile storages
  getMeta w tile data := getMetaFirst w tile storages data
  putMeta w tile buf := doAll (fun storage w => storage.putMeta w tile buf) storages w
  expire w tile := doAll (fun storage w => storage.expire w tile) storages w

/-! ## The others -/

/-- The storage of a style: `find`, and what the operations do with it. -/
def ofStyle (storages : List (Text × SharedStorage ω)) (deflt : SharedStorage ω) (style : String) :
    SharedStorage ω :=
  (storages.lookup style.toList).getD deflt

/-- `per_style_storage`. -/
def perStyleStorage (storages : List (Text × SharedStorage ω)) (deflt : SharedStorage ω) :
    SharedStorage ω where
  get w tile := (ofStyle storages deflt tile.style).get w tile
  getMeta w tile data := (ofStyle storages deflt tile.style).getMeta w tile data
  putMeta w tile buf := (ofStyle storages deflt tile.style).putMeta w tile buf
  expire w tile := (ofStyle storages deflt tile.style).expire w tile

/-- `expiry_overlay`. -/
def overlayStorage (storage : SharedStorage ω) (marks : ExpiryMarks ω) : SharedStorage ω where
  get w tile := { storage.get w tile with expired := marks.isExpired w tile }
  getMeta := storage.getMeta
  putMeta w tile buf := storage.putMeta (marks.setExpired w tile false).1 tile buf
  expire w tile := marks.setExpired w tile true

/-- What a `compositing_storage` sees of a layer. -/
def layer (storage : SharedStorage ω) : SubStorage where
  State := ω
  get := storage.get
  expire := storage.expire

/-- `compositing_storage`. -/
def compositingStorage (underStorage overStorage : SharedStorage ω) (c : CompositingConfig) :
    SharedStorage ω where
  get w tile :=
    @CompositingStorage.get c underStorage.layer overStorage.layer (w, w) tile
  getMeta _ _ data := (false, data)
  putMeta w _ _ := (w, false)
  expire w tile :=
    let underDone := if c.expireUnder then underStorage.expire w tile else (w, true)
    let overDone :=
      if c.expireOver && underDone.2 then overStorage.expire underDone.1 tile
      else (underDone.1, !c.expireOver)
    (overDone.1, underDone.2 && overDone.2)

/-! ## One after the other -/

variable {tile : TileProtocol} {storage : SharedStorage ω} {xs ys others : List (SharedStorage ω)}

theorem foldl_alsoDo (op : SharedStorage ω → ω → ω × Bool) (storages : List (SharedStorage ω))
    (w : ω) (ok : Bool) :
    storages.foldl (alsoDo op) (w, ok) = ((doAll op storages w).1, ok && (doAll op storages w).2) := by
  induction storages generalizing w ok with
  | nil => rw [doAll, List.foldl_nil, List.foldl_nil, Bool.and_true]
  | cons storage rest ih =>
    rw [doAll, List.foldl_cons, List.foldl_cons, alsoDo, alsoDo, ih, ih (op storage w).1]
    rw [Bool.true_and, Bool.and_assoc]

theorem doAll_cons (op : SharedStorage ω → ω → ω × Bool) (storage : SharedStorage ω)
    (rest : List (SharedStorage ω)) (w : ω) :
    doAll op (storage :: rest) w =
      ((doAll op rest (op storage w).1).1, (op storage w).2 && (doAll op rest (op storage w).1).2) := by
  rw [doAll, List.foldl_cons, alsoDo, foldl_alsoDo, Bool.true_and]

theorem doAll_append (op : SharedStorage ω → ω → ω × Bool) (xs ys : List (SharedStorage ω)) (w : ω) :
    doAll op (xs ++ ys) w =
      ((doAll op ys (doAll op xs w).1).1,
        (doAll op xs w).2 && (doAll op ys (doAll op xs w).1).2) := by
  rw [doAll, List.foldl_append]
  exact foldl_alsoDo op ys _ _

theorem getFirst_append (w : ω) (tile : TileProtocol) (xs ys : List (SharedStorage ω)) :
    getFirst w tile (xs ++ ys) =
      if (getFirst w tile xs).found then getFirst w tile xs else getFirst w tile ys := by
  induction xs with
  | nil => rfl
  | cons storage rest ih =>
    rw [List.cons_append, getFirst, getFirst]
    by_cases h : (storage.get w tile).found = true
    · simp only [h, if_true]
    · simp only [h, if_false, ih, Bool.false_eq_true]

theorem getMetaFirst_append (w : ω) (tile : TileProtocol) (xs ys : List (SharedStorage ω))
    (data : Bytes) :
    getMetaFirst w tile (xs ++ ys) data =
      if (getMetaFirst w tile xs data).1 then getMetaFirst w tile xs data
      else getMetaFirst w tile ys (getMetaFirst w tile xs data).2 := by
  induction xs generalizing data with
  | nil => rfl
  | cons storage rest ih =>
    rw [List.cons_append, getMetaFirst, getMetaFirst]
    by_cases h : (storage.getMeta w tile data).1 = true
    · simp only [h, if_true]
    · simp only [h, if_false, ih, Bool.false_eq_true]

/-- Two handles say the same of a tile, if it is there. -/
def SameThere (h h' : TileHandle) : Prop := h.found = h'.found ∧ (h.found = true → h = h')

/-- To a tile, a storage is the union of some others. -/
structure ActsAs (storage : SharedStorage ω) (tile : TileProtocol) (storages : List (SharedStorage ω)) :
    Prop where
  get : ∀ w, SameThere (storage.get w tile) ((unionStorage storages).get w tile)
  getMeta : ∀ w data, storage.getMeta w tile data = (unionStorage storages).getMeta w tile data
  putMeta : ∀ w buf, storage.putMeta w tile buf = (unionStorage storages).putMeta w tile buf
  expire : ∀ w, storage.expire w tile = (unionStorage storages).expire w tile

theorem actsAs_self (storage : SharedStorage ω) (tile : TileProtocol) :
    storage.ActsAs tile [storage] where
  get w := by
    simp only [unionStorage, getFirst, SameThere]
    by_cases h : (storage.get w tile).found = true
    · simp [h]
    · simp [h, nullHandle]
  getMeta w data := by
    simp only [unionStorage, getMetaFirst]
    by_cases h : (storage.getMeta w tile data).1 = true
    · simp [h]
    · have hfalse : (storage.getMeta w tile data).1 = false := Bool.eq_false_iff.mpr h
      rw [if_neg h, ← hfalse]
  putMeta w buf := by simp [unionStorage, doAll, alsoDo]
  expire w := by simp [unionStorage, doAll, alsoDo]

theorem actsAs_append (h : storage.ActsAs tile xs) (hothers : (unionStorage others).ActsAs tile ys) :
    (unionStorage (storage :: others)).ActsAs tile (xs ++ ys) where
  get w := by
    obtain ⟨hfound, heq⟩ := h.get w
    have hrest := hothers.get w
    simp only [unionStorage, getFirst, getFirst_append] at hfound heq hrest ⊢
    by_cases hthere : (storage.get w tile).found = true
    · rw [if_pos hthere, ← hfound, if_pos hthere, ← heq hthere]
      exact ⟨rfl, fun _ => rfl⟩
    · rw [if_neg hthere, ← hfound, if_neg hthere]
      exact hrest
  getMeta w data := by
    have hfirst := h.getMeta w data
    have hrest := hothers.getMeta w (storage.getMeta w tile data).2
    simp only [unionStorage, getMetaFirst, getMetaFirst_append] at hfirst hrest ⊢
    rw [← hfirst, hrest]
  putMeta w buf := by
    have hfirst := h.putMeta w buf
    have hrest := hothers.putMeta (storage.putMeta w tile buf).1 buf
    simp only [unionStorage, doAll_append] at hfirst hrest ⊢
    rw [doAll_cons, ← hfirst, ← hrest]
  expire w := by
    have hfirst := h.expire w
    have hrest := hothers.expire (storage.expire w tile).1
    simp only [unionStorage, doAll_append] at hfirst hrest ⊢
    rw [doAll_cons, ← hfirst, ← hrest]

end SharedStorage

namespace StorageTree

open SharedStorage

variable {ω : Type} (services : Text → Text → ExpiryMarks ω)

mutual
/-- What a storage that was made does. -/
def operations : StorageTree (SharedStorage ω) → SharedStorage ω
  | leaf storage => storage
  | union storages => unionStorage (operationsOf storages)
  | perStyle storages deflt => perStyleStorage (operationsOfStyles storages) (operations deflt)
  | overlay storage primary backup => overlayStorage (operations storage) (services primary backup)
  | compositing underStorage overStorage c =>
    compositingStorage (operations underStorage) (operations overStorage) c

def operationsOf : List (StorageTree (SharedStorage ω)) → List (SharedStorage ω)
  | [] => []
  | tree :: rest => operations tree :: operationsOf rest

def operationsOfStyles : List (Text × StorageTree (SharedStorage ω)) → List (Text × SharedStorage ω)
  | [] => []
  | (style, tree) :: rest => (style, operations tree) :: operationsOfStyles rest
end

mutual
/-- The storages that are asked for a tile of a style, from left to right. -/
def storagesFor (style : String) : StorageTree (SharedStorage ω) → List (SharedStorage ω)
  | union storages => storagesForAll style storages
  | perStyle storages deflt => (storagesOfStyle style storages).getD (storagesFor style deflt)
  | leaf storage => [storage]
  | overlay storage primary backup => [operations services (overlay storage primary backup)]
  | compositing underStorage overStorage c =>
    [operations services (compositing underStorage overStorage c)]

def storagesForAll (style : String) : List (StorageTree (SharedStorage ω)) → List (SharedStorage ω)
  | [] => []
  | tree :: rest => storagesFor style tree ++ storagesForAll style rest

def storagesOfStyle (style : String) :
    List (Text × StorageTree (SharedStorage ω)) → Option (List (SharedStorage ω))
  | [] => none
  | (name, tree) :: rest =>
    if style.toList = name then some (storagesFor style tree) else storagesOfStyle style rest
end

/-! ## A tree is a union -/

variable {services}

mutual
/-- **To a tile, a tree of storages is one union** of the storages that are made for its style. -/
theorem tree_actsAs (tile : TileProtocol) : ∀ tree : StorageTree (SharedStorage ω),
    (operations services tree).ActsAs tile (storagesFor services tile.style tree)
  | leaf storage => actsAs_self storage tile
  | union storages => trees_actAs tile storages
  | perStyle storages deflt => by
    have hdeflt := tree_actsAs tile deflt
    have hstyle := style_actsAs tile storages
    rw [operations, storagesFor]
    have hof : (ofStyle (operationsOfStyles services storages) (operations services deflt)
        tile.style).ActsAs tile
          ((storagesOfStyle services tile.style storages).getD
            (storagesFor services tile.style deflt)) := by
      rcases hstyle with ⟨hnone, hlookup⟩ | ⟨storage, found, hsome, hlookup, hacts⟩
      · rw [ofStyle, hnone, hlookup]
        exact hdeflt
      · rw [ofStyle, hsome, hlookup]
        exact hacts
    exact ⟨hof.get, hof.getMeta, hof.putMeta, hof.expire⟩
  | overlay storage primary backup => actsAs_self _ tile
  | compositing underStorage overStorage c => actsAs_self _ tile

theorem trees_actAs (tile : TileProtocol) : ∀ storages : List (StorageTree (SharedStorage ω)),
    (unionStorage (operationsOf services storages)).ActsAs tile
      (storagesForAll services tile.style storages)
  | [] => ⟨fun _ => ⟨rfl, fun _ => rfl⟩, fun _ _ => rfl, fun _ _ => rfl, fun _ => rfl⟩
  | tree :: rest => actsAs_append (tree_actsAs tile tree) (trees_actAs tile rest)

theorem style_actsAs (tile : TileProtocol) : ∀ storages : List (Text × StorageTree (SharedStorage ω)),
    (storagesOfStyle services tile.style storages = none ∧
      (operationsOfStyles services storages).lookup tile.style.toList = none) ∨
    ∃ storage found, storagesOfStyle services tile.style storages = some found ∧
      (operationsOfStyles services storages).lookup tile.style.toList = some storage ∧
      storage.ActsAs tile found
  | [] => .inl ⟨rfl, rfl⟩
  | (name, tree) :: rest => by
    rw [storagesOfStyle, operationsOfStyles, PropertyTree.lookup_cons_if]
    by_cases h : tile.style.toList = name
    · rw [if_pos h, if_pos h]
      exact .inr ⟨_, _, rfl, rfl, tree_actsAs tile tree⟩
    · rw [if_neg h, if_neg h]
      exact style_actsAs tile rest
end

end StorageTree

end RenderMq
