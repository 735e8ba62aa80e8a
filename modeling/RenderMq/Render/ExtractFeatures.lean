import Mathlib.Algebra.GroupWithZero.Nat
import RenderMq.Lib.Runs
import RenderMq.Render.Features

/-!
# Features of points of interest

The renderers tell the points of interest that they drew, and these become features. An entry that lacks
something is to be ignored, with a warning. But the text of the warning is called like a function,
which raises, and so does the one outside of the loop.

So there are features where all entries are well formed, and only there (`extracts_iff`).
-/

namespace RenderMq

namespace ExtractFeatures

/-- What was raised. -/
abbrev Exception := String

/-- Objects of any kind, with what can be tried with them. -/
structure Objects where
  Obj : Type
  item : Obj → String → Except Exception Obj
  index : Obj → Nat → Except Exception Obj
  attr : Obj → String → Except Exception Obj
  iterate : Obj → Except Exception (List Obj)
  toDict : Obj → Except Exception Obj
  toInt : Obj → Except Exception Int
  toStr : Obj → Except Exception String

/-- The properties of a feature. -/
structure Properties (α : Type) where
  name : α
  type : String := "poi"

abbrev FeatureMW (py : Objects) := Feature py.Obj (MultiPolygon py.Obj) (Properties py.Obj)

abbrev FeatureMNK (py : Objects) := Feature Int (MultiPolygon Int) (Properties py.Obj)

variable (py : Objects)

/-! ## Loops and handlers -/

/-- A text that is called. -/
def callText (_text : String) : Except Exception Unit := .error "TypeError: 'str' object is not callable"

/-- The loop over the entries. What raises is handled, and where the handler raises the loop ends. -/
def forEach {σ : Type} (body : σ → py.Obj → Except Exception σ) : List py.Obj → σ → σ × Option Exception
  | [], features => (features, none)
  | poi :: pois, features =>
    match body features poi with
    | .ok features => forEach body pois features
    | .error _ =>
      match callText "metacutter cant get poi: %s: %s" with
      | .ok _ => forEach body pois features
      | .error exception => (features, some exception)

/-- The features at the end of a loop, or those that there were when it raised, which is handled. -/
def orHandled {σ : Type} (handle : σ → Except Exception σ) : σ × Option Exception → Except Exception σ
  | (features, none) => .ok features
  | (features, some _) => handle features

/-! ## Mapware -/

/-- The polygon of a label or an icon. -/
def corners (o : py.Obj) : Except Exception (Polygon py.Obj) := do
  let x1 ← py.item o "x1"
  let y1 ← py.item o "y1"
  let x2 ← py.item o "x2"
  let y2 ← py.item o "y2"
  return rectangle x1 y1 x2 y2

def featureMW (poi : py.Obj) : Except Exception (FeatureMW py) := do
  let label ← py.item poi "label"
  let icon ← py.item poi "icon"
  let geometry := [← corners py label, ← corners py icon]
  let id ← py.item poi "id"
  let name ← py.item poi "name"
  return { id := id, geometry := geometry, properties := { name := name } }

def appendMW (features : List (FeatureMW py)) (poi : py.Obj) : Except Exception (List (FeatureMW py)) := do
  let feature ← featureMW py poi
  return features ++ [feature]

def handleMW (metaData : py.Obj) (features : List (FeatureMW py)) :
    Except Exception (List (FeatureMW py)) := do
  let _ ← py.toStr metaData
  callText "metacutter cant get attribute poi: %s: %s"
  return features

/-- `extractFeaturesMW`, of metadata that may be `None`. -/
def extractFeaturesMW : Option py.Obj → Except Exception (List (FeatureMW py))
  | none => .ok []
  | some metaData =>
    match py.item metaData "pois" >>= py.iterate with
    | .error _ => handleMW py metaData []
    | .ok pois => orHandled (handleMW py metaData) (forEach py (appendMW py) pois [])

/-! ## Mapnik -/

/-- The box of an entry, which has the pixels that it begins in and those that it ends in. -/
def boxMNK (poi : py.Obj) : Except Exception (Polygon Int) := do
  let box ← py.attr poi "box"
  let x0 ← py.index box 0 >>= py.toInt
  let y0 ← py.index box 1 >>= py.toInt
  let x1 ← py.index box 2 >>= py.toInt
  let y1 ← py.index box 3 >>= py.toInt
  return rectangle x0 y0 (x1 + 1) (y1 + 1)

/-- The box, the dictionary and the id of an entry. -/
def readMNK (poi : py.Obj) : Except Exception (Polygon Int × py.Obj × Int) := do
  let polygon ← boxMNK py poi
  let properties ← py.attr poi "properties" >>= py.toDict
  let id ← py.item properties "id" >>= py.toInt
  return (polygon, properties, id)

def newMNK (features : List (FeatureMNK py)) (polygon : Polygon Int) (properties : py.Obj) (id : Int) :
    Except Exception (List (FeatureMNK py)) := do
  let name ← py.item properties "name"
  return features ++ [{ id := id, geometry := [polygon], properties := { name := name } }]

/-- An entry's box goes to the last feature, if it has the same id, or else to a new one. -/
def appendMNK (features : List (FeatureMNK py)) (poi : py.Obj) : Except Exception (List (FeatureMNK py)) := do
  let (polygon, properties, id) ← readMNK py poi
  match features.getLast? with
  | none => newMNK py features polygon properties id
  | some previous =>
    if previous.id = id then
      return features.dropLast ++ [previous.withGeometry (previous.geometry ++ [polygon])]
    else newMNK py features polygon properties id

def handleMNK (features : List (FeatureMNK py)) : Except Exception (List (FeatureMNK py)) := do
  callText "metacutter cant get attribute poi: %s: %s"
  return features

/-- The entries of metadata that may be `None`. -/
def iterateMNK : Option py.Obj → Except Exception (List py.Obj)
  | none => .error "TypeError: 'NoneType' object is not iterable"
  | some metaData => py.iterate metaData

/-- `extractFeaturesMNK`. -/
def extractFeaturesMNK (metaData : Option py.Obj) : Except Exception (List (FeatureMNK py)) :=
  match iterateMNK py metaData with
  | .error _ => handleMNK py []
  | .ok pois => orHandled (handleMNK py) (forEach py (appendMNK py) pois [])

/-! ## What is to be extracted -/

/-- A key is there. -/
def HasItem (o : py.Obj) (key : String) : Prop := ∃ value, py.item o key = .ok value

def HasCorners (o : py.Obj) : Prop := ∀ key ∈ ["x1", "y1", "x2", "y2"], HasItem py o key

structure WellFormedMW (poi : py.Obj) : Prop where
  label : ∃ label, py.item poi "label" = .ok label ∧ HasCorners py label
  icon : ∃ icon, py.item poi "icon" = .ok icon ∧ HasCorners py icon
  id : HasItem py poi "id"
  name : HasItem py poi "name"

structure WellFormedMNK (poi : py.Obj) : Prop where
  box : ∃ box, py.attr poi "box" = .ok box ∧
    ∀ i ∈ [0, 1, 2, 3], ∃ side n, py.index box i = .ok side ∧ py.toInt side = .ok n
  properties : ∃ o properties, py.attr poi "properties" = .ok o ∧ py.toDict o = .ok properties ∧
    (∃ id n, py.item properties "id" = .ok id ∧ py.toInt id = .ok n) ∧ HasItem py properties "name"

/-- The list of the entries, if there is one that is usable. -/
def poisMW (metaData : Option py.Obj) : Option (List py.Obj) :=
  metaData.bind fun o => (py.item o "pois" >>= py.iterate).toOption

def poisMNK (metaData : Option py.Obj) : Option (List py.Obj) := (iterateMNK py metaData).toOption

/-- The features of the well-formed entries. -/
def expectedMW (metaData : Option py.Obj) : List (FeatureMW py) :=
  ((poisMW py metaData).getD []).filterMap fun poi => (featureMW py poi).toOption

/-- An entry with all that there has to be. -/
structure EntryMNK where
  id : Int
  polygon : Polygon Int
  name : py.Obj

def entryMNK (poi : py.Obj) : Except Exception (EntryMNK py) := do
  let (polygon, properties, id) ← readMNK py poi
  let name ← py.item properties "name"
  return ⟨id, polygon, name⟩

/-- The feature of entries with the same id. -/
def featureMNK (entries : List (EntryMNK py)) : Option (FeatureMNK py) :=
  entries.head?.map fun first =>
    { id := first.id, geometry := entries.map fun e => e.polygon, properties := { name := first.name } }

/-- The features of entries, one for each run of the same id. -/
def featuresMNK (entries : List (EntryMNK py)) : List (FeatureMNK py) :=
  (entries.splitBy fun e e' => e.id == e'.id).filterMap (featureMNK py)

/-- The features of the well-formed entries. -/
def expectedMNK (metaData : Option py.Obj) : List (FeatureMNK py) :=
  featuresMNK py (((poisMNK py metaData).getD []).filterMap fun poi => (entryMNK py poi).toOption)

/-- Both extractions return what they are to. -/
def Extracts (mapware mapnik : Option py.Obj) : Prop :=
  extractFeaturesMW py mapware = .ok (expectedMW py mapware) ∧
    extractFeaturesMNK py mapnik = .ok (expectedMNK py mapnik)

variable {py}

/-! ## What does not raise -/

theorem bind_eq_ok_iff {α β : Type} {x : Except Exception α} {f : α → Except Exception β} {b : β} :
    x >>= f = .ok b ↔ ∃ a, x = .ok a ∧ f a = .ok b := by
  cases x with
  | error exception =>
    constructor
    · intro h
      cases h
    · intro h
      obtain ⟨a, ha, -⟩ := h
      cases ha
  | ok a =>
    constructor
    · exact fun h => ⟨a, rfl, h⟩
    · intro h
      obtain ⟨a', ha, hf⟩ := h
      obtain rfl := Except.ok.inj ha
      exact hf

theorem toOption_eq_some_iff {α : Type} {x : Except Exception α} {a : α} :
    x.toOption = some a ↔ x = .ok a := by
  cases x with
  | error exception => exact ⟨fun h => (by cases h), fun h => (by cases h)⟩
  | ok a' => exact ⟨fun h => congrArg Except.ok (Option.some.inj h), fun h => congrArg some (Except.ok.inj h)⟩

/-- A loop comes to its end where no entry raises, since the handler raises. -/
theorem forEach_eq_iff {σ : Type} {body : σ → py.Obj → Except Exception σ} {pois : List py.Obj} {s s' : σ} :
    forEach py body pois s = (s', none) ↔ pois.foldlM body s = .ok s' := by
  induction pois generalizing s with
  | nil =>
    rw [forEach, List.foldlM_nil]
    exact ⟨fun h => congrArg Except.ok (Prod.mk.inj h).1, fun h => congrArg (·, none) (Except.ok.inj h)⟩
  | cons poi pois ih =>
    rw [forEach, List.foldlM_cons]
    cases hbody : body s poi with
    | ok middle => exact ih
    | error exception => exact ⟨fun h => (by cases h), fun h => (by cases h)⟩

theorem handleMW_ne_ok {metaData : py.Obj} {features out : List (FeatureMW py)} :
    handleMW py metaData features ≠ .ok out := by
  intro h
  unfold handleMW at h
  obtain ⟨text, -, hcall⟩ := bind_eq_ok_iff.mp h
  cases hcall

theorem handleMNK_ne_ok {features out : List (FeatureMNK py)} : handleMNK py features ≠ .ok out := by
  intro h
  cases h

/-- A loop and the handler outside of it, which raises. -/
theorem loop_eq_ok_iff {σ : Type} {body : σ → py.Obj → Except Exception σ} {handle : σ → Except Exception σ}
    {pois : List py.Obj} {s out : σ} (hraises : ∀ s', handle s' ≠ .ok out) :
    orHandled handle (forEach py body pois s) = .ok out ↔ pois.foldlM body s = .ok out := by
  rw [← forEach_eq_iff]
  obtain ⟨features, raised⟩ := forEach py body pois s
  cases raised with
  | none => exact ⟨fun h => congrArg (·, none) (Except.ok.inj h), fun h => congrArg Except.ok (Prod.mk.inj h).1⟩
  | some exception => exact ⟨fun h => absurd h (hraises features), fun h => (by cases h)⟩

theorem extractFeaturesMW_eq_ok_iff {metaData : Option py.Obj} {features : List (FeatureMW py)} :
    extractFeaturesMW py metaData = .ok features ↔ metaData = none ∧ features = [] ∨
      ∃ pois, poisMW py metaData = some pois ∧ pois.foldlM (appendMW py) [] = .ok features := by
  cases metaData with
  | none =>
    refine ⟨fun h => .inl ⟨rfl, (Except.ok.inj h).symm⟩, fun h => ?_⟩
    rcases h with ⟨-, rfl⟩ | ⟨pois, hpois, -⟩
    · rfl
    · cases hpois
  | some metaData =>
    unfold extractFeaturesMW poisMW
    dsimp only
    rw [Option.bind_some, or_iff_right fun h => Option.some_ne_none metaData h.1]
    cases py.item metaData "pois" >>= py.iterate with
    | error exception =>
      refine ⟨fun h => absurd h handleMW_ne_ok, fun h => ?_⟩
      obtain ⟨pois, hsome, -⟩ := h
      cases hsome
    | ok pois =>
      refine (loop_eq_ok_iff fun _ => handleMW_ne_ok).trans ⟨fun h => ⟨pois, rfl, h⟩, fun h => ?_⟩
      obtain ⟨pois', hsome, hfold⟩ := h
      rwa [Option.some.inj hsome]

theorem extractFeaturesMNK_eq_ok_iff {metaData : Option py.Obj} {features : List (FeatureMNK py)} :
    extractFeaturesMNK py metaData = .ok features ↔
      ∃ pois, poisMNK py metaData = some pois ∧ pois.foldlM (appendMNK py) [] = .ok features := by
  unfold extractFeaturesMNK poisMNK
  cases iterateMNK py metaData with
  | error exception =>
    refine ⟨fun h => absurd h handleMNK_ne_ok, fun h => ?_⟩
    obtain ⟨pois, hsome, -⟩ := h
    cases hsome
  | ok pois =>
    refine (loop_eq_ok_iff fun _ => handleMNK_ne_ok).trans ⟨fun h => ⟨pois, rfl, h⟩, fun h => ?_⟩
    obtain ⟨pois', hsome, hfold⟩ := h
    rwa [Option.some.inj hsome]

/-! ## Mapware entries -/

theorem corners_ok_iff {o : py.Obj} : (∃ polygon, corners py o = .ok polygon) ↔ HasCorners py o := by
  constructor
  · intro h
    obtain ⟨polygon, h⟩ := h
    obtain ⟨x1, hx1, h⟩ := bind_eq_ok_iff.mp h
    obtain ⟨y1, hy1, h⟩ := bind_eq_ok_iff.mp h
    obtain ⟨x2, hx2, h⟩ := bind_eq_ok_iff.mp h
    obtain ⟨y2, hy2, -⟩ := bind_eq_ok_iff.mp h
    simp only [HasCorners, List.forall_mem_cons]
    exact ⟨⟨x1, hx1⟩, ⟨y1, hy1⟩, ⟨x2, hx2⟩, ⟨y2, hy2⟩, by simp⟩
  · intro h
    simp only [HasCorners, List.forall_mem_cons] at h
    obtain ⟨⟨x1, hx1⟩, ⟨y1, hy1⟩, ⟨x2, hx2⟩, ⟨y2, hy2⟩, -⟩ := h
    unfold corners
    rw [hx1, hy1, hx2, hy2]
    exact ⟨rectangle x1 y1 x2 y2, rfl⟩

theorem featureMW_ok_iff {poi : py.Obj} :
    (∃ feature, featureMW py poi = .ok feature) ↔ WellFormedMW py poi := by
  constructor
  · intro h
    obtain ⟨feature, h⟩ := h
    obtain ⟨label, hlabel, h⟩ := bind_eq_ok_iff.mp h
    obtain ⟨icon, hicon, h⟩ := bind_eq_ok_iff.mp h
    obtain ⟨labelBox, hlabelBox, h⟩ := bind_eq_ok_iff.mp h
    obtain ⟨iconBox, hiconBox, h⟩ := bind_eq_ok_iff.mp h
    obtain ⟨id, hid, h⟩ := bind_eq_ok_iff.mp h
    obtain ⟨name, hname, -⟩ := bind_eq_ok_iff.mp h
    exact ⟨⟨label, hlabel, corners_ok_iff.mp ⟨labelBox, hlabelBox⟩⟩,
      ⟨icon, hicon, corners_ok_iff.mp ⟨iconBox, hiconBox⟩⟩, ⟨id, hid⟩, ⟨name, hname⟩⟩
  · intro h
    obtain ⟨⟨label, hlabel, hlabelBox⟩, ⟨icon, hicon, hiconBox⟩, ⟨id, hid⟩, ⟨name, hname⟩⟩ := h
    obtain ⟨labelBox, hlabelBox⟩ := corners_ok_iff.mpr hlabelBox
    obtain ⟨iconBox, hiconBox⟩ := corners_ok_iff.mpr hiconBox
    refine ⟨⟨id, [labelBox, iconBox], { name := name }⟩, ?_⟩
    unfold featureMW
    rw [hlabel, hicon, hid, hname]
    refine bind_eq_ok_iff.mpr ⟨label, rfl, bind_eq_ok_iff.mpr ⟨icon, rfl, ?_⟩⟩
    rw [hlabelBox, hiconBox]
    rfl

/-- All entries are appended, if all are well formed. -/
theorem foldlM_appendMW_iff {pois : List py.Obj} {features out : List (FeatureMW py)} :
    pois.foldlM (appendMW py) features = .ok out ↔ (∀ poi ∈ pois, WellFormedMW py poi) ∧
      out = features ++ pois.filterMap fun poi => (featureMW py poi).toOption := by
  induction pois generalizing features with
  | nil =>
    rw [List.foldlM_nil, List.filterMap_nil, List.append_nil]
    exact ⟨fun h => ⟨by simp, (Except.ok.inj h).symm⟩, fun h => congrArg Except.ok h.2.symm⟩
  | cons poi pois ih =>
    rw [List.foldlM_cons, List.forall_mem_cons, ← featureMW_ok_iff]
    unfold appendMW
    cases hfeature : featureMW py poi with
    | error exception =>
      refine ⟨fun h => (by cases h), fun h => ?_⟩
      obtain ⟨⟨⟨feature, hok⟩, -⟩, -⟩ := h
      cases hok
    | ok feature =>
      have hfilter : (poi :: pois).filterMap (fun poi => (featureMW py poi).toOption) =
          feature :: pois.filterMap fun poi => (featureMW py poi).toOption :=
        List.filterMap_cons_some (by rw [hfeature]; rfl)
      rw [hfilter, List.append_cons]
      refine ih.trans ⟨fun h => ⟨⟨⟨feature, rfl⟩, h.1⟩, h.2⟩, fun h => ⟨h.1.2, h.2⟩⟩

theorem extractsMW_iff {metaData : Option py.Obj} :
    extractFeaturesMW py metaData = .ok (expectedMW py metaData) ↔
      metaData = none ∨ ∃ pois, poisMW py metaData = some pois ∧ ∀ poi ∈ pois, WellFormedMW py poi := by
  rw [extractFeaturesMW_eq_ok_iff]
  refine or_congr ⟨fun h => h.1, fun h => ⟨h, ?_⟩⟩ (exists_congr fun pois => and_congr_right fun hpois => ?_)
  · rw [h]
    rfl
  · rw [foldlM_appendMW_iff, List.nil_append, expectedMW, hpois]
    exact and_iff_left rfl

/-! ## Mapnik entries -/

theorem boxMNK_ok_iff {poi : py.Obj} : (∃ polygon, boxMNK py poi = .ok polygon) ↔
    ∃ box, py.attr poi "box" = .ok box ∧
      ∀ i ∈ [0, 1, 2, 3], ∃ side n, py.index box i = .ok side ∧ py.toInt side = .ok n := by
  constructor
  · intro h
    obtain ⟨polygon, h⟩ := h
    obtain ⟨box, hbox, h⟩ := bind_eq_ok_iff.mp h
    obtain ⟨x0, hx0, h⟩ := bind_eq_ok_iff.mp h
    obtain ⟨y0, hy0, h⟩ := bind_eq_ok_iff.mp h
    obtain ⟨x1, hx1, h⟩ := bind_eq_ok_iff.mp h
    obtain ⟨y1, hy1, -⟩ := bind_eq_ok_iff.mp h
    have hside : ∀ {i : Nat} {n : Int}, py.index box i >>= py.toInt = .ok n →
        ∃ side n, py.index box i = .ok side ∧ py.toInt side = .ok n := by
      intro i n hi
      obtain ⟨side, hside, hint⟩ := bind_eq_ok_iff.mp hi
      exact ⟨side, n, hside, hint⟩
    simp only [List.forall_mem_cons]
    exact ⟨box, hbox, hside hx0, hside hy0, hside hx1, hside hy1, by simp⟩
  · intro h
    obtain ⟨box, hbox, h⟩ := h
    simp only [List.forall_mem_cons] at h
    obtain ⟨⟨s0, x0, hs0, hx0⟩, ⟨s1, y0, hs1, hy0⟩, ⟨s2, x1, hs2, hx1⟩, ⟨s3, y1, hs3, hy1⟩, -⟩ := h
    refine ⟨rectangle x0 y0 (x1 + 1) (y1 + 1), bind_eq_ok_iff.mpr ⟨box, hbox, ?_⟩⟩
    refine bind_eq_ok_iff.mpr ⟨x0, bind_eq_ok_iff.mpr ⟨s0, hs0, hx0⟩, ?_⟩
    refine bind_eq_ok_iff.mpr ⟨y0, bind_eq_ok_iff.mpr ⟨s1, hs1, hy0⟩, ?_⟩
    refine bind_eq_ok_iff.mpr ⟨x1, bind_eq_ok_iff.mpr ⟨s2, hs2, hx1⟩, ?_⟩
    exact bind_eq_ok_iff.mpr ⟨y1, bind_eq_ok_iff.mpr ⟨s3, hs3, hy1⟩, rfl⟩

theorem entryMNK_ok_iff {poi : py.Obj} : (∃ entry, entryMNK py poi = .ok entry) ↔ WellFormedMNK py poi := by
  constructor
  · intro h
    obtain ⟨entry, h⟩ := h
    obtain ⟨⟨polygon, properties, id⟩, hread, h⟩ := bind_eq_ok_iff.mp h
    obtain ⟨name, hname, -⟩ := bind_eq_ok_iff.mp h
    obtain ⟨polygon', hbox, hread⟩ := bind_eq_ok_iff.mp hread
    obtain ⟨properties', hproperties, hread⟩ := bind_eq_ok_iff.mp hread
    obtain ⟨id', hid, hread⟩ := bind_eq_ok_iff.mp hread
    obtain ⟨o, ho, hdict⟩ := bind_eq_ok_iff.mp hproperties
    obtain ⟨value, hvalue, hint⟩ := bind_eq_ok_iff.mp hid
    cases hread
    exact ⟨boxMNK_ok_iff.mp ⟨polygon, hbox⟩, o, properties, ho, hdict, ⟨value, id, hvalue, hint⟩, name, hname⟩
  · intro h
    obtain ⟨hbox, o, properties, ho, hdict, ⟨value, id, hvalue, hint⟩, name, hname⟩ := h
    obtain ⟨polygon, hbox⟩ := boxMNK_ok_iff.mpr hbox
    refine ⟨⟨id, polygon, name⟩, bind_eq_ok_iff.mpr ⟨(polygon, properties, id), ?_, ?_⟩⟩
    · refine bind_eq_ok_iff.mpr ⟨polygon, hbox, ?_⟩
      refine bind_eq_ok_iff.mpr ⟨properties, bind_eq_ok_iff.mpr ⟨o, ho, hdict⟩, ?_⟩
      exact bind_eq_ok_iff.mpr ⟨id, bind_eq_ok_iff.mpr ⟨value, hvalue, hint⟩, rfl⟩
    · exact bind_eq_ok_iff.mpr ⟨name, hname, rfl⟩

/-! ## Runs of Mapnik entries -/

/-- The last run has the last feature. -/
theorem featuresMNK_of_split {entries rest : List (EntryMNK py)} {init : List (List (EntryMNK py))}
    {first : EntryMNK py}
    (h : entries.splitBy (fun e e' => e.id == e'.id) = init ++ [first :: rest]) :
    featuresMNK py entries = init.filterMap (featureMNK py) ++
      [⟨first.id, (first :: rest).map fun e => e.polygon, { name := first.name }⟩] := by
  rw [featuresMNK, h, List.filterMap_append]
  rfl

/-- A well-formed entry goes to its feature. -/
theorem appendMNK_entry {entries : List (EntryMNK py)} {entry : EntryMNK py} {poi : py.Obj}
    (h : entryMNK py poi = .ok entry) :
    appendMNK py (featuresMNK py entries) poi = .ok (featuresMNK py (entries ++ [entry])) := by
  obtain ⟨⟨polygon, properties, id⟩, hread, h⟩ := bind_eq_ok_iff.mp h
  obtain ⟨name, hname, h⟩ := bind_eq_ok_iff.mp h
  obtain rfl := Except.ok.inj h
  refine bind_eq_ok_iff.mpr ⟨_, hread, ?_⟩
  dsimp only
  have hnew : ∀ features : List (FeatureMNK py), newMNK py features polygon properties id =
      .ok (features ++ [⟨id, [polygon], { name := name }⟩]) :=
    fun features => bind_eq_ok_iff.mpr ⟨name, hname, rfl⟩
  rcases List.eq_nil_or_concat (entries.splitBy fun e e' => e.id == e'.id) with hnone | ⟨init, run, hruns⟩
  · obtain rfl := List.splitBy_eq_nil.mp hnone
    exact hnew []
  · rw [List.concat_eq_append] at hruns
    have hne : run ≠ [] := List.ne_nil_of_mem_splitBy (by
      rw [hruns]
      exact List.mem_append_right init (List.mem_singleton.mpr rfl))
    obtain ⟨first, rest, rfl⟩ := List.exists_cons_of_ne_nil hne
    rw [featuresMNK_of_split hruns, List.getLast?_concat]
    dsimp only
    by_cases hid : first.id = id
    · rw [if_pos hid, List.dropLast_concat, featuresMNK_of_split (Runs.splitBy_concat_of_eq hruns hid),
        ← List.cons_append, List.map_append]
      rfl
    · rw [if_neg hid, hnew, featuresMNK_of_split (Runs.splitBy_concat_of_ne hruns hid),
        List.filterMap_append]
      rfl

theorem foldlM_appendMNK {pois : List py.Obj} (h : ∀ poi ∈ pois, WellFormedMNK py poi)
    (entries : List (EntryMNK py)) : pois.foldlM (appendMNK py) (featuresMNK py entries) =
      .ok (featuresMNK py (entries ++ pois.filterMap fun poi => (entryMNK py poi).toOption)) := by
  induction pois generalizing entries with
  | nil =>
    rw [List.filterMap_nil, List.append_nil]
    rfl
  | cons poi pois ih =>
    obtain ⟨hpoi, hpois⟩ := List.forall_mem_cons.mp h
    obtain ⟨entry, hentry⟩ := entryMNK_ok_iff.mpr hpoi
    have hfilter : (poi :: pois).filterMap (fun poi => (entryMNK py poi).toOption) =
        entry :: pois.filterMap fun poi => (entryMNK py poi).toOption :=
      List.filterMap_cons_some (by rw [hentry]; rfl)
    rw [List.foldlM_cons, hfilter, List.append_cons, appendMNK_entry hentry]
    exact ih hpois (entries ++ [entry])

/-! ## Mapnik boxes -/

/-- The number of boxes in features. -/
def boxes (features : List (FeatureMNK py)) : Nat := (features.map fun f => f.geometry.length).sum

theorem boxes_append (features features' : List (FeatureMNK py)) :
    boxes (features ++ features') = boxes features + boxes features' := by
  unfold boxes
  rw [List.map_append, List.sum_append]

theorem boxes_newMNK {features out : List (FeatureMNK py)} {polygon : Polygon Int} {properties : py.Obj}
    {id : Int} (h : newMNK py features polygon properties id = .ok out) : boxes out = boxes features + 1 := by
  obtain ⟨name, -, h⟩ := bind_eq_ok_iff.mp h
  obtain rfl := Except.ok.inj h
  exact boxes_append _ _

/-- An entry that does not raise leaves a box, even without a name. -/
theorem boxes_appendMNK {features out : List (FeatureMNK py)} {poi : py.Obj}
    (h : appendMNK py features poi = .ok out) : boxes out = boxes features + 1 := by
  obtain ⟨⟨polygon, properties, id⟩, -, h⟩ := bind_eq_ok_iff.mp h
  dsimp only at h
  rcases List.eq_nil_or_concat features with rfl | ⟨init, previous, rfl⟩
  · exact boxes_newMNK h
  · rw [List.concat_eq_append, List.getLast?_concat] at h
    dsimp only at h
    split at h
    · obtain rfl := Except.ok.inj h
      rw [List.dropLast_concat, List.concat_eq_append, boxes_append, boxes_append, Nat.add_assoc]
      refine congrArg (boxes init + ·) ?_
      exact List.length_append
    · rw [List.concat_eq_append]
      exact boxes_newMNK h

theorem boxes_foldlM {pois : List py.Obj} {features out : List (FeatureMNK py)}
    (h : pois.foldlM (appendMNK py) features = .ok out) : boxes out = boxes features + pois.length := by
  induction pois generalizing features with
  | nil =>
    obtain rfl := Except.ok.inj h
    rfl
  | cons poi pois ih =>
    rw [List.foldlM_cons] at h
    obtain ⟨middle, hpoi, hpois⟩ := bind_eq_ok_iff.mp h
    rw [ih hpois, boxes_appendMNK hpoi, List.length_cons, Nat.add_assoc, Nat.add_comm 1]

theorem boxes_featuresMNK (entries : List (EntryMNK py)) :
    boxes (featuresMNK py entries) = entries.length := by
  have hruns : ∀ runs : List (List (EntryMNK py)),
      boxes (runs.filterMap (featureMNK py)) = runs.flatten.length := by
    intro runs
    induction runs with
    | nil => rfl
    | cons run runs ih =>
      cases run with
      | nil => exact ih
      | cons first rest =>
        have hfirst : featureMNK py (first :: rest) =
            some ⟨first.id, (first :: rest).map fun e => e.polygon, { name := first.name }⟩ := rfl
        rw [List.filterMap_cons_some hfirst, ← List.singleton_append, boxes_append, ih, List.flatten_cons,
          List.length_append]
        refine congrArg (· + runs.flatten.length) ?_
        exact List.length_map _
  rw [featuresMNK, hruns, List.flatten_splitBy]

theorem extractsMNK_iff {metaData : Option py.Obj} :
    extractFeaturesMNK py metaData = .ok (expectedMNK py metaData) ↔
      ∃ pois, poisMNK py metaData = some pois ∧ ∀ poi ∈ pois, WellFormedMNK py poi := by
  rw [extractFeaturesMNK_eq_ok_iff]
  refine exists_congr fun pois => and_congr_right fun hpois => ?_
  rw [expectedMNK, hpois, Option.getD_some]
  constructor
  · intro h
    -- every entry leaves a box, and so all are among those that are well formed
    have hboxes := boxes_foldlM h
    rw [boxes_featuresMNK] at hboxes
    have hlength : (pois.filterMap fun poi => (entryMNK py poi).toOption).length = pois.length :=
      hboxes.trans (Nat.zero_add _)
    intro poi hpoi
    obtain ⟨entry, hentry⟩ :=
      Option.isSome_iff_exists.mp (List.filterMap_length_eq_length.mp hlength poi hpoi)
    exact entryMNK_ok_iff.mp ⟨entry, toOption_eq_some_iff.mp hentry⟩
  · exact fun h => foldlM_appendMNK h []

/-- **The features of the well-formed entries are returned** where all entries are well formed, or there
is no metadata of Mapware.

The objects are any, and each access to them and each conversion may raise. Which entries are missing
where one of them is not well formed is not part of this. -/
theorem extracts_iff (py : Objects) (mapware mapnik : Option py.Obj) : Extracts py mapware mapnik ↔
    (mapware = none ∨ ∃ pois, poisMW py mapware = some pois ∧ ∀ poi ∈ pois, WellFormedMW py poi) ∧
      ∃ pois, poisMNK py mapnik = some pois ∧ ∀ poi ∈ pois, WellFormedMNK py poi :=
  and_congr extractsMW_iff extractsMNK_iff

/-- Texts, lists and dictionaries. -/
inductive Plain where
  | text (text : String)
  | list (items : List Plain)
  | dict (entries : List (String × Plain))

def pairOf : Plain → Option (String × Plain)
  | .list [.text key, value] => some (key, value)
  | _ => none

/-- What can be done with them; their own text is not looked at. -/
def plain : Objects where
  Obj := Plain
  item
    | .dict entries, key => (entries.lookup key).elim (.error ("KeyError: '" ++ key ++ "'")) .ok
    | _, _ => .error "TypeError: indices must be integers, not str"
  index
    | .list items, i => items[i]?.elim (.error "IndexError: list index out of range") .ok
    | _, i => .error ("KeyError: " ++ toString i)
  attr _ name := .error ("AttributeError: object has no attribute '" ++ name ++ "'")
  iterate
    | .text text => .ok (text.toList.map fun c => .text c.toString)
    | .list items => .ok items
    | .dict entries => .ok (entries.map fun e => .text e.1)
  toDict
    | .dict entries => .ok (.dict entries)
    | .list items =>
      (items.mapM pairOf).elim (.error "TypeError: cannot convert dictionary update sequence element")
        fun entries => .ok (.dict entries)
    | .text _ => .error "ValueError: dictionary update sequence element #0 has length 0; 2 is required"
  toInt
    | .text text => text.toInt?.elim (.error "ValueError: invalid literal for int() with base 10") .ok
    | _ => .error "TypeError: int() argument must be a string or a number"
  toStr _ := .ok "object"

/-- One entry that has no keys, and no attributes, ends both extractions. -/
theorem malformed_entry_raises :
    extractFeaturesMW plain (some (.dict [("pois", .list [.dict []])])) ≠
        .ok (expectedMW plain (some (.dict [("pois", .list [.dict []])]))) ∧
      extractFeaturesMNK plain (some (.list [.dict []])) ≠
        .ok (expectedMNK plain (some (.list [.dict []]))) := by
  have hmapware : extractFeaturesMW plain (some (.dict [("pois", .list [.dict []])])) =
      .error "TypeError: 'str' object is not callable" := rfl
  have hmapnik : extractFeaturesMNK plain (some (.list [.dict []])) =
      .error "TypeError: 'str' object is not callable" := rfl
  rw [hmapware, hmapnik]
  refine ⟨fun h => ?_, fun h => ?_⟩
  · cases h
  · cases h

end ExtractFeatures

end RenderMq
