import Mathlib.Data.List.Dedup
import Mathlib.Data.List.Nodup
import Mathlib.Data.String.Basic
import RenderMq.Lib.Intern
import RenderMq.Lib.SortedMap
import RenderMq.Tile.Protocol

/-!
# Renderers by coverage

A metatile is rendered by the renderers of its subtiles' coverages. Where all subtiles have one style,
its renderer renders the whole metatile. Else every renderer does, and the result is put together from
the subtiles of each.

Whether there is more than one style is told by the names of the coverages, and a subtile that has none
counts as `default` there, but is rendered as `missing`. `usesOwn_iff` says when this matters. The order
in which the dictionary of the subtiles is gone through does not.
-/

namespace RenderMq

namespace Coverages

/-- The row and the column of a subtile. -/
abbrev Position := Nat × Nat

/-- `RenderResult`, with dictionaries of images and of feature collections. -/
structure RenderResult (Feature : Type) where
  data : Position → Option Bytes
  metadata : Option (Position → Option (List Feature))

/-- `Renderer`. The configuration has both keys that are asked for. -/
structure Renderer where
  coverages : SortedMap String String
  default : String
  missing : String
  hasDefault : coverages.find "default" = some default
  hasMissing : coverages.find "missing" = some missing

/-- What `factory.renderer_for` returns, by what it makes of the metatile. -/
abbrev Factory (Feature : Type) := String → Option (Option (RenderResult Feature))

/-- The dictionary of `checkSubTiles`, in the order in which it is gone through. -/
structure Subtiles where
  entries : List (Position × List String)
  keys : (entries.map Prod.fst).Nodup
  notEmpty : entries ≠ []

variable {Feature : Type} (r : Renderer) (factory : Factory Feature)

/-! ## The styles -/

/-- The names that `process` looks at. -/
def uniqueCoverages (entries : List (Position × List String)) : List (Option String) :=
  (entries.map fun e => e.2.head?).dedup

/-- The name by which `process` looks a coverage up, in lower case. -/
def sanitisedName : Option String → String
  | some name => if (r.coverages.find name.toLower).isSome then name.toLower else "default"
  | none => "default"

/-- `self.coverages[name]`, of a name that is there. -/
def styleOf (name : String) : String := (r.coverages.find name).getD r.default

/-- The style of a subtile in `_update_coverages`. -/
def styleName (coverage : List String) : String :=
  let vendName := match coverage with
    | name :: _ => name.toLower
    | [] => "missing"
  match r.coverages.find vendName with
  | some style => style
  | none => r.default

def mixedCoverage (entries : List (Position × List String)) : Bool :=
  decide (1 < ((uniqueCoverages entries).map fun c => styleOf r (sanitisedName r c)).dedup.length)

/-! ## The renderers -/

/-- What a subtile has in the dictionary: its names, and then the index of its renderer. -/
inductive Coverage where
  | names (names : List String)
  | index (index : Nat)

/-- The renderer of a style, of which there is one. -/
def rendererFor (style : String) : Except String (Option (RenderResult Feature)) :=
  match factory style with
  | some renderer => .ok renderer
  | none => .error ("Renderer for style name '" ++ style ++ "' could not be retrieved.")

/-- `_update_coverages`. -/
def updateCoverages (mixed : Bool) : List (Position × List String) →
    Intern.Table String (Option (RenderResult Feature)) →
      Except String (List (Position × Coverage) × List (Option (RenderResult Feature)))
  | [], table => .ok ([], table.values)
  | (tileXY, coverage) :: rest, table =>
    match Intern.intern (rendererFor factory) (styleName r coverage) table with
    | .error e => .error e
    | .ok (index, table) =>
      if mixed then
        (updateCoverages mixed rest table).map fun out => ((tileXY, .index index) :: out.1, out.2)
      else .ok ((tileXY, .index index) :: rest.map fun e => (e.1, .names e.2), table.values)

/-- `_combine`. -/
def combine (results : List (RenderResult Feature)) :
    List (Position × Coverage) → Except String (RenderResult Feature)
  | [] => .ok { data := fun _ => none, metadata := some fun _ => none }
  | (_, .names _) :: _ => .error "TypeError: list indices must be integers, not list"
  | (tileXY, .index index) :: rest =>
    match results[index]? with
    | none => .error "IndexError: list index out of range"
    | some result =>
      match result.data tileXY, (result.metadata.map fun m => m tileXY).getD (some []) with
      | some image, some features =>
        (combine results rest).map fun combined =>
          { data := Function.update combined.data tileXY (some image)
            metadata := combined.metadata.map fun m => Function.update m tileXY (some features) }
      | _, _ => .error "KeyError"

/-- The results of all renderers, or none if one has none. -/
def results (renderers : List (Option (RenderResult Feature))) : List (RenderResult Feature) :=
  (renderers.mapM id).getD []

/-- `process`. -/
def process (entries : List (Position × List String)) : Except String (RenderResult Feature) := do
  let mixed := mixedCoverage r entries
  let (coverages, renderers) ← updateCoverages r factory mixed entries {}
  if mixed then
    if (results renderers).length > 0 then combine (results renderers) coverages
    else .error "no image rendered"
  else
    match renderers.head? with
    | none => .error "IndexError: list index out of range"
    | some none => .error "no image rendered"
    | some (some result) => .ok result

/-! ## The subtiles' own renderers -/

/-- The style of a subtile: that of its first coverage, or else `default` or `missing`. -/
def configured (coverage : List String) : String :=
  match coverage.head? with
  | some name => (r.coverages.find name.toLower).getD r.default
  | none => r.missing

/-- The metadata of a subtile; there is none in a result without any. -/
def RenderResult.metaAt (result : RenderResult Feature) (tileXY : Position) : Option (List Feature) :=
  (result.metadata.map fun m => m tileXY).getD (some [])

/-- A result has all subtiles. -/
def RenderResult.Complete (result : RenderResult Feature) (entries : List (Position × List String)) :
    Prop :=
  ∀ e ∈ entries, (result.data e.1).isSome = true ∧ (result.metaAt e.1).isSome = true

/-- The renderers of all styles that are configured return results. -/
def AllReturn (entries : List (Position × List String)) : Prop :=
  ∀ name style, r.coverages.find name = some style →
    ∃ result, factory style = some (some result) ∧ result.Complete entries

/-- What the renderer of a subtile made of it is what there is of it in a result. -/
def HasOwn (result : RenderResult Feature) (e : Position × List String) : Prop :=
  ∃ own, factory (configured r e.2) = some (some own) ∧ result.data e.1 = own.data e.1 ∧
    result.metaAt e.1 = own.metaAt e.1

/-- With any renderers that return results, each subtile is rendered by its own. -/
def UsesOwn (Feature : Type) (r : Renderer) (s : Subtiles) : Prop :=
  ∀ factory : Factory Feature, AllReturn r factory s.entries →
    ∃ result, process r factory s.entries = .ok result ∧ ∀ e ∈ s.entries, HasOwn r factory result e

/-- Some subtiles have a coverage and some have none. Those that have one have the style of `default`,
and `missing` has another. -/
structure Confused (r : Renderer) (entries : List (Position × List String)) : Prop where
  uncovered : ∃ e ∈ entries, e.2 = []
  covered : ∃ e ∈ entries, e.2 ≠ []
  default : ∀ e ∈ entries, e.2 ≠ [] → configured r e.2 = r.default
  missing : r.missing ≠ r.default

variable {r factory} {entries : List (Position × List String)}

theorem styleName_eq (coverage : List String) : styleName r coverage = configured r coverage := by
  unfold styleName configured
  cases coverage with
  | nil => simp [r.hasMissing]
  | cons name coverage =>
    dsimp only [List.head?_cons]
    cases r.coverages.find name.toLower with
    | none => rfl
    | some style => rfl

/-- The renderer of every subtile returns a result. -/
theorem AllReturn.own (h : AllReturn r factory entries) (coverage : List String) :
    ∃ own, factory (configured r coverage) = some (some own) ∧ own.Complete entries := by
  unfold configured
  cases coverage.head? with
  | none => exact h "missing" r.missing r.hasMissing
  | some name =>
    dsimp only
    cases hfind : r.coverages.find name.toLower with
    | none => exact h "default" r.default r.hasDefault
    | some style => exact h name.toLower style hfind

/-! ## One style or more -/

/-- The style that a subtile is counted by. -/
def counted (r : Renderer) (coverage : List String) : String :=
  styleOf r (sanitisedName r coverage.head?)

theorem counted_nil : counted r [] = r.default := by
  unfold counted styleOf sanitisedName
  simp [r.hasDefault]

theorem counted_of_ne_nil {coverage : List String} (h : coverage ≠ []) :
    counted r coverage = configured r coverage := by
  obtain ⟨name, rest, rfl⟩ := List.exists_cons_of_ne_nil h
  unfold counted configured styleOf sanitisedName
  dsimp only [List.head?_cons]
  cases hfind : r.coverages.find name.toLower with
  | none => simp [r.hasDefault]
  | some style => simp [hfind]

theorem length_dedup_le_one_iff {l : List String} : l.dedup.length ≤ 1 ↔ ∀ a ∈ l, ∀ b ∈ l, a = b := by
  constructor
  · intro h a ha b hb
    have ha := List.mem_dedup.mpr ha
    have hb := List.mem_dedup.mpr hb
    cases hl : l.dedup with
    | nil =>
      rw [hl] at ha
      cases ha
    | cons c tail =>
      rw [hl] at h ha hb
      obtain rfl : tail = [] := List.length_eq_zero_iff.mp (Nat.le_zero.mp (Nat.le_of_succ_le_succ h))
      rw [List.mem_singleton.mp ha, List.mem_singleton.mp hb]
  · intro h
    by_contra hlong
    have hnodup := List.nodup_dedup l
    cases hl : l.dedup with
    | nil =>
      rw [hl] at hlong
      exact hlong (Nat.zero_le 1)
    | cons a tail =>
      cases tail with
      | nil =>
        rw [hl] at hlong
        exact hlong le_rfl
      | cons b tail =>
        have ha : a ∈ l := List.mem_dedup.mp (by rw [hl]; exact List.mem_cons_self)
        have hb : b ∈ l := List.mem_dedup.mp (by
          rw [hl]
          exact List.mem_cons_of_mem a List.mem_cons_self)
        rw [hl, h a ha b hb] at hnodup
        exact (List.nodup_cons.mp hnodup).1 List.mem_cons_self

/-- There is one style where all subtiles are counted by the same. -/
theorem mixedCoverage_eq_false_iff : mixedCoverage r entries = false ↔
    ∀ e ∈ entries, ∀ e' ∈ entries, counted r e.2 = counted r e'.2 := by
  unfold mixedCoverage
  rw [decide_eq_false_iff_not, not_lt, length_dedup_le_one_iff]
  constructor
  · intro h e he e' he'
    refine h _ (List.mem_map_of_mem (List.mem_dedup.mpr ?_)) _ (List.mem_map_of_mem (List.mem_dedup.mpr ?_))
    · exact List.mem_map_of_mem he
    · exact List.mem_map_of_mem he'
  · intro h a ha b hb
    obtain ⟨name, hname, rfl⟩ := List.mem_map.mp ha
    obtain ⟨name', hname', rfl⟩ := List.mem_map.mp hb
    obtain ⟨e, he, rfl⟩ := List.mem_map.mp (List.mem_dedup.mp hname)
    obtain ⟨e', he', rfl⟩ := List.mem_map.mp (List.mem_dedup.mp hname')
    exact h e he e' he'

/-- Where there is one style and the subtiles are not confused, it is everyone's. -/
theorem configured_eq_of_not_mixed (hmixed : mixedCoverage r entries = false)
    (hclear : ¬ Confused r entries) {e e' : Position × List String} (he : e ∈ entries)
    (he' : e' ∈ entries) : configured r e.2 = configured r e'.2 := by
  have hcounted := mixedCoverage_eq_false_iff.mp hmixed
  -- with a subtile that has none, the others are counted as `default`
  have hconfused : ∀ u ∈ entries, ∀ c ∈ entries, u.2 = [] → c.2 ≠ [] → r.missing = r.default := by
    intro u hu c hc hnone hsome
    by_contra hmissing
    refine hclear ⟨⟨u, hu, hnone⟩, ⟨c, hc, hsome⟩, fun d hd hne => ?_, hmissing⟩
    rw [← counted_of_ne_nil hne, hcounted d hd u hu, hnone, counted_nil]
  have hnil : configured r [] = r.missing := rfl
  by_cases h : e.2 = []
  · by_cases h' : e'.2 = []
    · rw [h, h']
    · rw [h, hnil, hconfused e he e' he' h h', ← counted_of_ne_nil h', hcounted e' he' e he, h, counted_nil]
  · by_cases h' : e'.2 = []
    · rw [h', hnil, hconfused e' he' e he h' h, ← counted_of_ne_nil h, hcounted e he e' he', h', counted_nil]
    · rw [← counted_of_ne_nil h, ← counted_of_ne_nil h', hcounted e he e' he']

theorem not_mixed_of_confused (h : Confused r entries) : mixedCoverage r entries = false := by
  have hdefault : ∀ e ∈ entries, counted r e.2 = r.default := by
    intro e he
    by_cases hnone : e.2 = []
    · rw [hnone, counted_nil]
    · rw [counted_of_ne_nil hnone, h.default e he hnone]
  refine mixedCoverage_eq_false_iff.mpr fun e he e' he' => ?_
  rw [hdefault e he, hdefault e' he']

/-! ## One renderer -/

/-- Where there is one style, the first subtile's renderer makes the result. -/
theorem process_of_not_mixed {e : Position × List String} (hmixed : mixedCoverage r (e :: entries) = false)
    {own : RenderResult Feature} (hown : factory (configured r e.2) = some (some own)) :
    process r factory (e :: entries) = .ok own := by
  have hmake : rendererFor factory (styleName r e.2) = .ok (some own) := by
    unfold rendererFor
    rw [styleName_eq, hown]
  have hintern : Intern.intern (rendererFor factory) (styleName r e.2) {} =
      .ok (0, ⟨Function.update (fun _ => none) (styleName r e.2) (some 0), [some own]⟩) := by
    unfold Intern.intern
    rw [hmake]
    rfl
  unfold process
  rw [hmixed]
  unfold updateCoverages
  rw [hintern]
  rfl

/-! ## Several renderers -/

/-- A subtile that has the index of its renderer. -/
def Indexed (r : Renderer) (factory : Factory Feature) (renderers : List (Option (RenderResult Feature)))
    (e : Position × List String) (o : Position × Coverage) : Prop :=
  o.1 = e.1 ∧ ∃ index own, o.2 = .index index ∧ renderers[index]? = some (some own) ∧
    factory (configured r e.2) = some (some own)

/-- Where there are more styles, every subtile gets the index of its renderer. -/
theorem updateCoverages_spec {table : Intern.Table String (Option (RenderResult Feature))}
    (hsound : Intern.Sound (rendererFor factory) table)
    (hown : ∀ e ∈ entries, ∃ own, factory (configured r e.2) = some (some own)) :
    ∃ out renderers, updateCoverages r factory true entries table = .ok (out, renderers) ∧
      table.values <+: renderers ∧ (∀ v ∈ renderers, v ∈ table.values ∨ v.isSome = true) ∧
      List.Forall₂ (Indexed r factory renderers) entries out := by
  induction entries generalizing table with
  | nil => exact ⟨[], table.values, rfl, List.prefix_rfl, fun v hv => .inl hv, .nil⟩
  | cons e rest ih =>
    obtain ⟨⟨own, hfactory⟩, hrest⟩ := List.forall_mem_cons.mp hown
    have hmake : rendererFor factory (styleName r e.2) = .ok (some own) := by
      unfold rendererFor
      rw [styleName_eq, hfactory]
    obtain ⟨index, table', hintern, hsound', hvalues, hindex⟩ := Intern.intern_spec hsound hmake
    obtain ⟨out, renderers, hupdate, hprefix, hsome, hall⟩ := ih hsound' hrest
    have hfirst : Indexed r factory renderers e (e.1, .index index) := by
      obtain ⟨more, rfl⟩ := hprefix
      obtain ⟨hlt, _⟩ := List.getElem?_eq_some_iff.mp hindex
      exact ⟨rfl, index, own, rfl, by rw [List.getElem?_append_left hlt, hindex], hfactory⟩
    refine ⟨(e.1, .index index) :: out, renderers, ?_, ?_, ?_, .cons hfirst hall⟩
    · rw [updateCoverages, hintern]
      dsimp only
      rw [if_pos rfl, hupdate]
      rfl
    · rcases hvalues with heq | heq
      · rwa [heq] at hprefix
      · rw [heq] at hprefix
        exact (List.prefix_append _ _).trans hprefix
    · intro v hv
      rcases hsome v hv with hold | hnew
      · rcases hvalues with heq | heq
        · exact .inl (heq ▸ hold)
        · rw [heq] at hold
          rcases List.mem_append.mp hold with hold | hlast
          · exact .inl hold
          · rw [List.mem_singleton.mp hlast]
            exact .inr rfl
      · exact .inr hnew

theorem eq_map_results {renderers : List (Option (RenderResult Feature))}
    (h : ∀ v ∈ renderers, v.isSome = true) : renderers = (results renderers).map some := by
  have hmapM : ∃ rs, renderers.mapM id = some rs ∧ renderers = rs.map some := by
    induction renderers with
    | nil => exact ⟨[], rfl, rfl⟩
    | cons v renderers ih =>
      obtain ⟨hv, hrest⟩ := List.forall_mem_cons.mp h
      obtain ⟨result, rfl⟩ := Option.isSome_iff_exists.mp hv
      obtain ⟨rs, hrs, heq⟩ := ih hrest
      refine ⟨result :: rs, ?_, by rw [List.map_cons, ← heq]⟩
      rw [List.mapM_cons, hrs]
      rfl
  obtain ⟨rs, hrs, heq⟩ := hmapM
  unfold results
  rw [hrs, Option.getD_some, ← heq]

/-- What is combined has every subtile from its own renderer. -/
theorem combine_spec {rs : List (RenderResult Feature)} {out : List (Position × Coverage)}
    (hkeys : (entries.map Prod.fst).Nodup)
    (hindexed : List.Forall₂ (Indexed r factory (rs.map some)) entries out)
    (hcomplete : ∀ e ∈ entries, ∀ own, factory (configured r e.2) = some (some own) →
      (own.data e.1).isSome = true ∧ (own.metaAt e.1).isSome = true) :
    ∃ combined m, combine rs out = .ok combined ∧ combined.metadata = some m ∧
      ∀ e ∈ entries, HasOwn r factory combined e := by
  induction hindexed with
  | nil => exact ⟨_, _, rfl, rfl, by simp⟩
  | @cons e o rest out hfirst _ ih =>
    obtain ⟨tileXY, coverage⟩ := o
    obtain ⟨rfl, index, own, rfl, hindex, hfactory⟩ := hfirst
    obtain ⟨hnew, hkeys⟩ := List.nodup_cons.mp hkeys
    obtain ⟨hdone, hrest⟩ := List.forall_mem_cons.mp hcomplete
    obtain ⟨himage, hmeta⟩ := hdone own hfactory
    obtain ⟨image, himage⟩ := Option.isSome_iff_exists.mp himage
    obtain ⟨features, hmeta⟩ := Option.isSome_iff_exists.mp hmeta
    obtain ⟨combined, m, hcombine, hm, hall⟩ := ih hkeys hrest
    have hresult : rs[index]? = some own := by
      rw [List.getElem?_map] at hindex
      obtain ⟨result, hresult, heq⟩ := Option.map_eq_some_iff.mp hindex
      rw [hresult, Option.some.inj heq]
    refine ⟨⟨Function.update combined.data e.1 (some image), some (Function.update m e.1 (some features))⟩,
      Function.update m e.1 (some features), ?_, rfl, ?_⟩
    · unfold RenderResult.metaAt at hmeta
      rw [combine, hresult]
      dsimp only
      rw [himage, hmeta]
      dsimp only
      rw [hcombine, Except.map, hm]
      rfl
    · refine List.forall_mem_cons.mpr ⟨⟨own, hfactory, ?_, ?_⟩, fun e' he' => ?_⟩
      · rw [himage]
        exact Function.update_self ..
      · rw [hmeta]
        exact Function.update_self ..
      · obtain ⟨own', hown', hdata, hmeta'⟩ := hall e' he'
        have hne : e'.1 ≠ e.1 := fun heq => hnew (heq ▸ List.mem_map_of_mem he')
        refine ⟨own', hown', ?_, ?_⟩
        · rw [← hdata]
          exact Function.update_of_ne hne ..
        · rw [← hmeta', RenderResult.metaAt, RenderResult.metaAt, hm]
          exact Function.update_of_ne hne ..

theorem process_of_mixed (s : Subtiles) (hmixed : mixedCoverage r s.entries = true)
    (hreturn : AllReturn r factory s.entries) :
    ∃ result, process r factory s.entries = .ok result ∧ ∀ e ∈ s.entries, HasOwn r factory result e := by
  have hown : ∀ e ∈ s.entries, ∃ own, factory (configured r e.2) = some (some own) := by
    intro e _
    obtain ⟨own, hown, -⟩ := hreturn.own e.2
    exact ⟨own, hown⟩
  obtain ⟨out, renderers, hupdate, -, hsome, hindexed⟩ :=
    updateCoverages_spec (Intern.sound_empty (rendererFor factory)) hown
  have hresults : renderers = (results renderers).map some :=
    eq_map_results fun v hv => (hsome v hv).resolve_left List.not_mem_nil
  have hcomplete : ∀ e ∈ s.entries, ∀ own, factory (configured r e.2) = some (some own) →
      (own.data e.1).isSome = true ∧ (own.metaAt e.1).isSome = true := by
    intro e he own hfactory
    obtain ⟨own', hown', hcomplete⟩ := hreturn.own e.2
    obtain rfl := Option.some.inj (Option.some.inj (hfactory.symm.trans hown'))
    exact hcomplete e he
  rw [hresults] at hindexed
  obtain ⟨combined, m, hcombine, -, hall⟩ := combine_spec s.keys hindexed hcomplete
  -- there is a first subtile, and so there is a result
  have hlength : (results renderers).length > 0 := by
    obtain ⟨e, rest, hentries⟩ := List.exists_cons_of_ne_nil s.notEmpty
    rw [hentries] at hindexed
    cases hindexed with
    | cons hfirst _ =>
      obtain ⟨-, index, own, -, hindex, -⟩ := hfirst
      obtain ⟨hlt, -⟩ := List.getElem?_eq_some_iff.mp hindex
      rw [List.length_map] at hlt
      exact Nat.zero_lt_of_lt hlt
  refine ⟨combined, ?_, hall⟩
  unfold process
  rw [hmixed]
  dsimp only
  rw [hupdate]
  simp only [bind, Except.bind]
  rw [if_pos trivial, if_pos hlength, hcombine]

/-! ## When each is rendered by its own -/

/-- A result that tells its style in every subtile. -/
def markedResult (style : String) : RenderResult Feature where
  data _ := some style.toByteArray.data.toList
  metadata := none

def markedFactory : Factory Feature := fun style => some (some (markedResult style))

theorem markedFactory_allReturn : AllReturn r (markedFactory : Factory Feature) entries :=
  fun _ style _ => ⟨markedResult style, rfl, fun _ _ => ⟨rfl, rfl⟩⟩

theorem markedResult_inj {style style' : String} {tileXY : Position}
    (h : (markedResult style : RenderResult Feature).data tileXY =
      (markedResult style' : RenderResult Feature).data tileXY) : style = style' := by
  have hlists := Option.some.inj h
  exact String.toByteArray_inj.mp (ByteArray.ext (Array.toList_inj.mp hlists))

/-- Confused subtiles are all rendered by the renderer of the first. -/
theorem not_usesOwn_of_confused {s : Subtiles} (h : Confused r s.entries) : ¬ UsesOwn Feature r s := by
  intro huses
  obtain ⟨e, rest, hentries⟩ := List.exists_cons_of_ne_nil s.notEmpty
  obtain ⟨result, hprocess, hall⟩ := huses markedFactory markedFactory_allReturn
  let own : RenderResult Feature := markedResult (configured r e.2)
  have hown : markedFactory (configured r e.2) = some (some own) := rfl
  have hfirst := process_of_not_mixed (hentries ▸ not_mixed_of_confused h) hown
  rw [← hentries, hprocess] at hfirst
  obtain rfl := Except.ok.inj hfirst
  -- the first subtile's style is everyone's, and so `missing` is `default`
  have hsame : ∀ e' ∈ s.entries, configured r e.2 = configured r e'.2 := by
    intro e' he'
    obtain ⟨own, hmarked, hdata, -⟩ := hall e' he'
    obtain rfl := Option.some.inj (Option.some.inj hmarked)
    exact markedResult_inj hdata
  obtain ⟨u, hu, hnone⟩ := h.uncovered
  obtain ⟨c, hc, hsome⟩ := h.covered
  have hmissing : configured r u.2 = r.missing := by
    rw [hnone]
    rfl
  refine h.missing ?_
  rw [← hmissing, ← hsame u hu, hsame c hc, h.default c hc hsome]

/-- **Each subtile is rendered by its own renderer**, unless some have no coverage, and some have one
and all these have the style of `default`, which is not the style of `missing`.

The renderers are any, with features of any type, and the subtiles are those of any dictionary, in any
order. That rendering succeeds is not part of this: it is about which renderer is asked. -/
theorem usesOwn_iff (Feature : Type) (r : Renderer) (s : Subtiles) :
    UsesOwn Feature r s ↔ ¬ Confused r s.entries := by
  obtain ⟨e, rest, hentries⟩ := List.exists_cons_of_ne_nil s.notEmpty
  have hmem : e ∈ s.entries := by
    rw [hentries]
    exact List.mem_cons_self
  constructor
  · exact fun huses hconfused => not_usesOwn_of_confused hconfused huses
  · intro hclear factory hreturn
    cases hmixed : mixedCoverage r s.entries with
    | true => exact process_of_mixed s hmixed hreturn
    | false =>
      obtain ⟨own, hown, -⟩ := hreturn.own e.2
      refine ⟨own, ?_, fun e' he' => ⟨own, ?_, rfl, rfl⟩⟩
      · rw [hentries] at hmixed ⊢
        exact process_of_not_mixed hmixed hown
      · rw [configured_eq_of_not_mixed hmixed hclear he' hmem, hown]

/-- Two styles that are configured, and no other coverage. -/
def twoStyles : Renderer where
  coverages := (SortedMap.empty.insert "default" "osm").insert "missing" "blank"
  default := "osm"
  missing := "blank"
  hasDefault := by decide
  hasMissing := by decide

/-- A metatile at the edge of what is covered. -/
def edge : Subtiles where
  entries := [((0, 0), ["navteq"]), ((0, 1), [])]
  keys := by decide
  notEmpty := by decide

/-- The metatile is rendered as `default`, where nothing is covered too. -/
theorem uncovered_is_rendered_as_default : ¬ ∀ (r : Renderer) (s : Subtiles), UsesOwn Unit r s := by
  intro h
  refine not_usesOwn_of_confused ⟨⟨((0, 1), []), by decide, rfl⟩, ⟨((0, 0), ["navteq"]), by decide, by decide⟩,
    ?_, by decide⟩ (h twoStyles edge)
  have hall : ∀ e ∈ edge.entries, e.2 ≠ [] → configured twoStyles e.2 = twoStyles.default := by
    decide +kernel
  exact hall

end Coverages

end RenderMq
