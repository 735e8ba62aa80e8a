import RenderMq.Storage.StorageConfig

/-!
# Nested configurations

An INI file has no sections within sections. What a part of a storage is to be told is written with the
name of the part and a dot before it, and so on for the parts of parts (`StoragePlan.lines`). What the
factory makes of the lines, in whatever order they stand, is what was planned, at any depth
(`planned_storage_is_made`).

Only the outermost storage reads keys with dots. It puts what it finds into trees for its parts, which
have no dots in their keys any more (`Shows`).
-/

namespace RenderMq

open PropertyTree (fragments shown strip)

/-- The settings of a storage and of its parts, each with a path. -/
abbrev Lines := List (List Text × Text)

/-- A storage that is meant to be made, with the names of its parts. -/
inductive StoragePlan where
  | leaf (type : Text) (settings : List (Text × Text))
  | union (names : Text) (storages : List (Text × StoragePlan))
  | perStyle (names : Text) (storages : List (Text × StoragePlan)) (deflt : StoragePlan)
  | overlay (name primary backup : Text) (storage : StoragePlan)
  | compositing (underStorage overStorage : StoragePlan) (config : Lines)

/-- Lines that are about a part. -/
def beneathName (name : Text) (lines : Lines) : Lines := lines.map fun e => (name :: e.1, e.2)

/-- The makers of the storages that are made of nothing else go by the settings that they look up. -/
def Makers.Reads {σ : Type} (m : Makers σ) : Prop :=
  ∀ type maker, m.leaf type = some maker → ∀ t u : StorageConfig, t.Same u → maker t = maker u

namespace StoragePlan

/-! ## What is written -/

/-- What a storage is told itself. -/
def settings : StoragePlan → List (Text × Text)
  | leaf type settings => ("type".toList, type) :: settings
  | union names _ => [("type".toList, "union".toList), ("storages".toList, names)]
  | perStyle names _ _ => [("type".toList, "per_style".toList), ("styles".toList, names)]
  | overlay name primary backup _ =>
    [("type".toList, "expiry_overlay".toList), ("storage".toList, name),
      ("primary".toList, primary), ("backup".toList, backup)]
  | compositing _ _ _ => [("type".toList, "compositing".toList)]

/-- The parts and their names. -/
def parts : StoragePlan → List (Text × StoragePlan)
  | leaf _ _ => []
  | union _ storages => storages
  | perStyle _ storages deflt => storages ++ [("default".toList, deflt)]
  | overlay name _ _ storage => [(name, storage)]
  | compositing underStorage overStorage _ =>
    [("under".toList, underStorage), ("over".toList, overStorage)]

/-- What is beneath the names of something that is no storage. -/
def inset : StoragePlan → List (Text × Lines)
  | compositing _ _ config => [("config".toList, config)]
  | _ => []

mutual
/-- All lines of a storage. -/
def lines : StoragePlan → Lines
  | leaf type settings => (["type".toList], type) :: settings.map fun e => ([e.1], e.2)
  | union names storages =>
    [(["type".toList], "union".toList), (["storages".toList], names)] ++ linesOf storages
  | perStyle names storages deflt =>
    [(["type".toList], "per_style".toList), (["styles".toList], names)] ++
      (linesOf storages ++ beneathName "default".toList (lines deflt))
  | overlay name primary backup storage =>
    [(["type".toList], "expiry_overlay".toList), (["storage".toList], name),
      (["primary".toList], primary), (["backup".toList], backup)] ++ beneathName name (lines storage)
  | compositing underStorage overStorage config =>
    [(["type".toList], "compositing".toList)] ++
      (beneathName "under".toList (lines underStorage) ++
        (beneathName "over".toList (lines overStorage) ++ beneathName "config".toList config))

def linesOf : List (Text × StoragePlan) → Lines
  | [] => []
  | (name, plan) :: rest => beneathName name (lines plan) ++ linesOf rest
end

mutual
/-- How deep the parts are nested. -/
def depth : StoragePlan → Nat
  | leaf _ _ => 1
  | union _ storages => depths storages + 1
  | perStyle _ storages deflt => max (depths storages) (depth deflt) + 1
  | overlay _ _ _ storage => depth storage + 1
  | compositing underStorage overStorage _ => max (depth underStorage) (depth overStorage) + 1

def depths : List (Text × StoragePlan) → Nat
  | [] => 0
  | (_, plan) :: rest => max (depth plan) (depths rest)
end

/-- What there is beneath each name. -/
def beneath (plan : StoragePlan) : List (Text × Lines) :=
  (plan.parts.map fun part => (part.1, part.2.lines)) ++ plan.inset

theorem linesOf_eq (storages : List (Text × StoragePlan)) :
    linesOf storages = storages.flatMap fun part => beneathName part.1 part.2.lines := by
  induction storages with
  | nil => rfl
  | cons part rest ih =>
    rw [linesOf, ih]
    rfl

/-- The lines of a storage are its settings, and what is beneath the names. -/
theorem lines_eq (plan : StoragePlan) :
    plan.lines = (plan.settings.map fun e => ([e.1], e.2)) ++
      plan.beneath.flatMap fun part => beneathName part.1 part.2 := by
  cases plan <;> simp [lines, settings, beneath, parts, inset, linesOf_eq, List.flatMap_map]

theorem mem_lines {plan : StoragePlan} {e : Text × Text} (h : e ∈ plan.settings) :
    ([e.1], e.2) ∈ plan.lines := by
  rw [lines_eq]
  exact List.mem_append_left _ (List.mem_map.mpr ⟨e, h, rfl⟩)

theorem depth_le_depths {storages : List (Text × StoragePlan)} {part : Text × StoragePlan}
    (h : part ∈ storages) : part.2.depth ≤ depths storages := by
  induction storages with
  | nil => cases h
  | cons first rest ih =>
    rw [depths]
    rcases List.mem_cons.mp h with rfl | hmem
    · exact Nat.le_max_left _ _
    · exact (ih hmem).trans (Nat.le_max_right _ _)

theorem depth_part {plan : StoragePlan} {part : Text × StoragePlan} (h : part ∈ plan.parts) :
    part.2.depth < plan.depth := by
  cases plan with
  | leaf type settings => cases h
  | union names storages =>
    have hle := @depth_le_depths storages part h
    rw [depth]
    omega
  | perStyle names storages deflt =>
    rw [depth]
    rcases List.mem_append.mp h with hmem | hmem
    · have := depth_le_depths hmem
      omega
    · obtain rfl := List.mem_singleton.mp hmem
      dsimp only
      omega
  | overlay name primary backup storage =>
    obtain rfl := List.mem_singleton.mp h
    rw [depth]
    exact Nat.lt_succ_self _
  | compositing underStorage overStorage config =>
    rw [depth]
    rcases List.mem_pair.mp h with rfl | rfl <;> dsimp only <;> omega

/-! ## What is planned well -/

/-- A name that can be a step of a key: not empty, and without dots and semicolons. -/
def IsName (name : Text) : Prop := name ≠ [] ∧ '.' ∉ name ∧ ';' ∉ name

/-- Lines that can be told apart. -/
structure Told (lines : Lines) : Prop where
  nodup : (lines.map Prod.fst).Nodup
  names : ∀ e ∈ lines, e.1 ≠ [] ∧ ∀ k ∈ e.1, IsName k

/-- The lists of names are right, and the settings are those of the type. -/
def Own : StoragePlan → Prop
  | leaf type settings =>
    type ∉ ["union".toList, "per_style".toList, "expiry_overlay".toList, "compositing".toList] ∧
      (("type".toList :: settings.map Prod.fst).Nodup ∧ ∀ e ∈ settings, IsName e.1)
  | union names storages => splitNames names = storages.map Prod.fst
  | perStyle names storages _ => splitNames names = storages.map Prod.fst
  | overlay _ _ _ _ => True
  | compositing _ _ config => Told config

/-- All parts of a storage have names of their own. -/
inductive WellNamed : StoragePlan → Prop
  | mk (plan : StoragePlan) (own : plan.Own) (nodup : (plan.beneath.map Prod.fst).Nodup)
      (names : ∀ part ∈ plan.beneath, IsName part.1) (parts : ∀ part ∈ plan.parts, WellNamed part.2) :
      WellNamed plan

/-! ## What the lines show -/

theorem isName_of_mem_settings {plan : StoragePlan} (own : plan.Own) :
    ∀ e ∈ plan.settings, IsName e.1 := by
  cases plan with
  | leaf type settings =>
    have htype : IsName "type".toList := by
      unfold IsName
      decide
    exact List.forall_mem_cons.mpr ⟨htype, own.2.2⟩
  | union names storages => simp [settings, IsName]
  | perStyle names storages deflt => simp [settings, IsName]
  | overlay name primary backup storage => simp [settings, IsName]
  | compositing underStorage overStorage config => simp [settings, IsName]

theorem nodup_settings {plan : StoragePlan} (own : plan.Own) :
    (plan.settings.map Prod.fst).Nodup := by
  cases plan with
  | leaf type settings => exact own.2.1
  | union names storages => simp [settings]
  | perStyle names storages deflt => simp [settings]
  | overlay name primary backup storage => simp [settings]
  | compositing underStorage overStorage config => simp [settings]

theorem told_beneathNames {parts : List (Text × Lines)} (nodup : (parts.map Prod.fst).Nodup)
    (names : ∀ part ∈ parts, IsName part.1) (told : ∀ part ∈ parts, Told part.2) :
    Told (parts.flatMap fun part => beneathName part.1 part.2) := by
  constructor
  · rw [List.map_flatMap, List.nodup_flatMap]
    constructor
    · intro part hpart
      have hcons : Function.Injective (List.cons part.1) := List.cons_injective
      have h := (told part hpart).nodup.map hcons
      rw [List.map_map] at h
      rw [beneathName, List.map_map]
      exact h
    · refine (List.pairwise_map.mp nodup).imp ?_
      intro part part' hne path h h'
      obtain ⟨e, he, rfl⟩ := List.mem_map.mp h
      obtain ⟨e', he', heq⟩ := List.mem_map.mp h'
      obtain ⟨f, _, rfl⟩ := List.mem_map.mp he
      obtain ⟨f', _, rfl⟩ := List.mem_map.mp he'
      exact hne (List.cons.inj heq).1.symm
  · intro e he
    obtain ⟨part, hpart, hmem⟩ := List.mem_flatMap.mp he
    obtain ⟨f, hf, rfl⟩ := List.mem_map.mp hmem
    refine ⟨List.cons_ne_nil _ _, List.forall_mem_cons.mpr ⟨names part hpart, ?_⟩⟩
    exact ((told part hpart).names f hf).2

/-- The lines of a storage whose parts have names can be told apart. -/
theorem told_lines {plan : StoragePlan} (h : plan.WellNamed) : Told plan.lines := by
  induction h with
  | mk plan own nodup names _ ih =>
    have hbeneath : ∀ part ∈ plan.beneath, Told part.2 := by
      intro part hpart
      rcases List.mem_append.mp hpart with hmem | hmem
      · obtain ⟨part', hpart', rfl⟩ := List.mem_map.mp hmem
        exact ih part' hpart'
      · cases plan with
        | compositing underStorage overStorage config =>
          obtain rfl := List.mem_singleton.mp hmem
          exact own
        | _ => cases hmem
    have htold := told_beneathNames nodup names hbeneath
    rw [lines_eq]
    constructor
    · rw [List.map_append, List.map_map, List.nodup_append]
      refine ⟨?_, htold.nodup, ?_⟩
      · have hsingle : Function.Injective fun k : Text => [k] := List.singleton_injective
        have hnodup := (nodup_settings own).map hsingle
        rw [List.map_map] at hnodup
        exact hnodup
      · intro path hpath path' hpath' heq
        obtain ⟨e, _, rfl⟩ := List.mem_map.mp hpath
        obtain ⟨e', he', rfl⟩ := List.mem_map.mp hpath'
        obtain ⟨part, hpart, hmem⟩ := List.mem_flatMap.mp he'
        obtain ⟨f, hf, rfl⟩ := List.mem_map.mp hmem
        exact ((hbeneath part hpart).names f hf).1 (List.cons.inj heq).2.symm
    · intro e he
      rcases List.mem_append.mp he with hmem | hmem
      · obtain ⟨e', he', rfl⟩ := List.mem_map.mp hmem
        refine ⟨List.cons_ne_nil _ _, ?_⟩
        intro k hk
        obtain rfl := List.mem_singleton.mp hk
        exact isName_of_mem_settings own e' he'
      · exact htold.names e hmem

/-- What the lines of a storage show beneath the name of a part is what the lines of the part show. -/
theorem shown_beneath {plan : StoragePlan} (nodup : (plan.beneath.map Prod.fst).Nodup)
    {part : Text × Lines} (hpart : part ∈ plan.beneath) {path : List Text} (hne : path ≠ []) :
    shown plan.lines (part.1 :: path) = shown part.2 path := by
  have hroots : ∀ settings : List (Text × Text),
      (strip part.1 (settings.map fun e => ([e.1], e.2))).filter (fun e => e.1 ≠ []) = [] := by
    intro settings
    induction settings with
    | nil => rfl
    | cons e rest ih =>
      rw [List.map_cons, PropertyTree.strip_cons]
      split
      · rw [List.filter_cons, if_neg (by simp), ih]
      · exact ih
  rw [PropertyTree.shown_cons, lines_eq, PropertyTree.strip_append,
    ← PropertyTree.shown_filter_ne_nil _ hne, List.filter_append, hroots, List.nil_append,
    PropertyTree.shown_filter_ne_nil _ hne]
  exact congrArg (shown · path) (PropertyTree.strip_flatMap nodup hpart)

/-! ## What is to be made -/

/-- A configuration with these lines and no others. -/
def configOf (lines : Lines) : StorageConfig := PropertyTree.puts lines .empty

section
variable {σ : Type} (m : Makers σ)

mutual
/-- The storage that is meant: each part is made of its own lines, as if there were no others. -/
def make : StoragePlan → Making (Option (StorageTree σ))
  | leaf type settings =>
    match m.leaf type with
    | none => return none
    | some maker => .ofExcept ((maker (configOf (leaf type settings).lines)).map (·.map .leaf))
  | union _ storages => some <$> do
    let made ← makeAll "Failed to create storage item within union." storages
    return .union made
  | perStyle _ storages deflt => some <$> do
    let message := "Failed to create storage item within per-style."
    let made ← makeAll message storages
    let deflt ← Making.needed message (make deflt)
    return .perStyle ((storages.map Prod.fst).zip made) deflt
  | overlay _ primary backup storage => some <$>
    if !m.context then .ofExcept (.error "0MQ context not provided, but is required.")
    else do
      let made ← Making.needed "Failed to create storage for expiry overlay." (make storage)
      return .overlay made primary backup
  | compositing underStorage overStorage config => some <$> do
    let underMade ← Making.needed (layerMessage "under".toList) (make underStorage)
    let overMade ← Making.needed (layerMessage "over".toList) (make overStorage)
    let read ← Making.ofExcept ((CompositingProperties.read (configOf config)).construct m.lib)
    return .compositing underMade overMade read

def makeAll (message : String) : List (Text × StoragePlan) → Making (List (StorageTree σ))
  | [] => return []
  | (_, plan) :: rest => do
    let made ← Making.needed message (make plan)
    let others ← makeAll message rest
    return made :: others
end

end

/-! ## What is read -/

/-- A configuration without dots in its keys that has what some lines say. -/
structure Shows (pt : StorageConfig) (lines : Lines) : Prop where
  shows : ∀ path ≠ [], pt.look path = shown lines path
  dotless : pt.AllKeys fun k => '.' ∉ k

/-- A configuration from which a storage and its parts read what is meant for them. -/
structure Presents (pt : StorageConfig) (plan : StoragePlan) : Prop where
  own : ∀ e ∈ plan.settings, pt.get? e.1 = some e.2
  beneath : ∀ part ∈ plan.beneath, ∃ sub, pt.getSubtree part.1 = .ok sub ∧ Shows sub part.2
  leaf : plan.beneath = [] → pt.Same (configOf plan.lines)

theorem get?_of_isName {name : Text} (h : IsName name) (pt : StorageConfig) :
    pt.get? name = pt.look [name] := by
  rw [StorageConfig.get?, PropertyTree.fragments_of_isFragment ⟨h.1, h.2.1⟩]

theorem get?_same {t u : StorageConfig} (h : t.Same u) {key : Text} (hkey : key ≠ []) :
    t.get? key = u.get? key :=
  h _ (PropertyTree.fragments_ne_nil hkey)

theorem read_same {t u : StorageConfig} (h : t.Same u) :
    CompositingProperties.read t = CompositingProperties.read u := by
  have hget : ∀ key : Text, key ≠ [] → t.get? key = u.get? key := fun key hkey => get?_same h hkey
  unfold CompositingProperties.read
  rw [hget "under_style".toList (by decide), hget "over_style".toList (by decide),
    hget "under_format".toList (by decide), hget "over_format".toList (by decide),
    hget "jpeg".toList (by decide), hget "gif".toList (by decide), hget "png".toList (by decide),
    hget "jpeg.quality".toList (by decide), hget "expire_under".toList (by decide),
    hget "expire_over".toList (by decide)]

/-- A tree without dots presents what it shows: the loop over its entries does nothing. -/
theorem presents_of_shows {pt : StorageConfig} {plan : StoragePlan} (h : plan.WellNamed)
    (hpt : Shows pt plan.lines) : Presents pt plan := by
  have told := told_lines h
  cases h with
  | mk _ own nodup names _ =>
    constructor
    · intro e he
      have hmem := mem_lines he
      rw [get?_of_isName (isName_of_mem_settings own e he), hpt.shows _ (List.cons_ne_nil _ _)]
      exact PropertyTree.shown_of_mem told.nodup hmem
    · intro part hpart
      obtain ⟨hne, hdot, _⟩ := names part hpart
      have hentries : pt.entriesBeneath part.1 = [] := by
        rw [StorageConfig.entriesBeneath, List.filter_eq_nil_iff]
        intro e he hpre
        refine hpt.dotless [] pt rfl e he ((List.isPrefixOf_iff_prefix.mp hpre).subset ?_)
        exact List.mem_append_right _ (List.mem_singleton_self _)
      have hwalk : pt.walk (fragments '.' part.1) = pt.child part.1 := by
        rw [PropertyTree.fragments_of_isFragment ⟨hne, hdot⟩, PropertyTree.walk]
        cases pt.child part.1 <;> rfl
      refine ⟨(pt.child part.1).getD .empty, ?_, ?_⟩
      · rw [StorageConfig.getSubtree, hentries, hwalk]
        rfl
      · constructor
        · intro path hpath
          rw [← shown_beneath nodup hpart hpath, ← hpt.shows _ (List.cons_ne_nil _ _),
            PropertyTree.look_cons]
          cases pt.child part.1 with
          | none => exact PropertyTree.look_empty hpath
          | some sub => rfl
        · cases hchild : pt.child part.1 with
          | none => exact PropertyTree.allKeys_empty _
          | some sub => exact hpt.dotless.child hchild
    · intro _ path hpath
      rw [hpt.shows path hpath, configOf, PropertyTree.look_puts_empty told.nodup hpath]

/-! ## An INI file -/

/-- A line of an INI file. -/
def entryOf (line : List Text × Text) : Text × StorageConfig :=
  (['.'].intercalate line.1, .leaf line.2)

/-- A section of an INI file has the lines of a storage, in some order. -/
def Section (pt : StorageConfig) (plan : StoragePlan) : Prop :=
  ∃ file : Lines, file.Perm plan.lines ∧ pt.children = file.map entryOf

theorem isFragments {path : List Text} (h : ∀ k ∈ path, IsName k) :
    ∀ k ∈ path, PropertyTree.IsFragment '.' k :=
  fun k hk => ⟨(h k hk).1, (h k hk).2.1⟩

theorem intercalate_ne_nil {path : List Text} (hne : path ≠ []) (h : ∀ k ∈ path, IsName k) :
    ['.'].intercalate path ≠ [] := by
  intro hnil
  have hfragments := PropertyTree.fragments_intercalate hne (isFragments h)
  rw [hnil, PropertyTree.fragments_nil] at hfragments
  exact hne hfragments.symm

theorem semicolon_not_mem {path : List Text} (h : ∀ k ∈ path, IsName k) :
    ';' ∉ ['.'].intercalate path := by
  induction path with
  | nil => simp
  | cons k rest ih =>
    obtain ⟨hk, hrest⟩ := List.forall_mem_cons.mp h
    cases rest with
    | nil => rw [List.intercalate_singleton]; exact hk.2.2
    | cons k' rest =>
      rw [List.intercalate_cons_cons]
      simp only [List.mem_append, List.mem_singleton, not_or]
      exact ⟨⟨hk.2.2, by decide⟩, ih hrest⟩

theorem getLast?_intercalate {path : List Text} (hne : path ≠ []) (h : ∀ k ∈ path, IsName k) :
    (['.'].intercalate path).getLast? ≠ some '.' := by
  intro hlast
  obtain ⟨front, hfront⟩ := List.getLast?_eq_some_iff.mp hlast
  have hsplit := List.splitOn_intercalate '.' (fun k hk => (h k hk).2.1) hne
  rw [hfront, List.splitOn_append_cons_self, List.splitOn_nil] at hsplit
  exact (h [] (hsplit ▸ List.mem_append_right _ (List.mem_singleton_self _))).1 rfl

/-- A line is found by its key. -/
theorem child_file {pt : StorageConfig} {file : Lines}
    (names : ∀ e ∈ file, e.1 ≠ [] ∧ ∀ k ∈ e.1, IsName k) (hchildren : pt.children = file.map entryOf)
    {path : List Text} (hne : path ≠ []) (h : ∀ k ∈ path, IsName k) :
    pt.child (['.'].intercalate path) = (file.lookup path).map PropertyTree.leaf := by
  obtain ⟨data, children⟩ := pt
  obtain rfl : children = file.map entryOf := hchildren
  induction file with
  | nil => rfl
  | cons e rest ih =>
    obtain ⟨he, hrest⟩ := List.forall_mem_cons.mp names
    obtain ⟨path', text⟩ := e
    have hiff : ['.'].intercalate path = ['.'].intercalate path' ↔ path = path' := by
      refine ⟨fun heq => ?_, fun heq => heq ▸ rfl⟩
      have hread := congrArg (fragments '.') heq
      rwa [PropertyTree.fragments_intercalate hne (isFragments h),
        PropertyTree.fragments_intercalate he.1 (isFragments he.2)] at hread
    rw [List.map_cons, entryOf, PropertyTree.child_cons, PropertyTree.lookup_cons_if, ih hrest]
    by_cases heq : path = path'
    · rw [if_pos heq, if_pos (hiff.mpr heq)]
      rfl
    · rw [if_neg heq, if_neg fun h => heq (hiff.mp h)]

theorem lookup_of_mem {lines : Lines} (nodup : (lines.map Prod.fst).Nodup) {e : List Text × Text}
    (h : e ∈ lines) : lines.lookup e.1 = some e.2 := by
  induction lines with
  | nil => cases h
  | cons e' rest ih =>
    obtain ⟨he', hrest⟩ := List.nodup_cons.mp nodup
    obtain ⟨path, text⟩ := e'
    rw [PropertyTree.lookup_cons_if]
    rcases List.mem_cons.mp h with rfl | hmem
    · rw [if_pos rfl]
    · rw [if_neg fun heq => he' (List.mem_map.mpr ⟨e, hmem, heq⟩), ih hrest hmem]

section
variable {pt : StorageConfig} {file : Lines}

theorem look_line (told : Told file) (hchildren : pt.children = file.map entryOf)
    {e : List Text × Text} (h : e ∈ file) :
    pt.look [['.'].intercalate e.1] = some e.2 := by
  obtain ⟨hne, hnames⟩ := told.names e h
  rw [PropertyTree.look_cons, child_file told.names hchildren hne hnames, lookup_of_mem told.nodup h]
  rfl

/-- A line about a part is put where the part looks for it. -/
theorem putEntry_line (told : Told file) (hchildren : pt.children = file.map entryOf) {name : Text}
    {rest : List Text} {text : Text} (hrest : rest ≠ []) (h : (name :: rest, text) ∈ file)
    (sub : StorageConfig) :
    pt.putEntry name sub (entryOf (name :: rest, text)) = .ok (sub.put text rest) := by
  obtain ⟨hne, hnames⟩ := told.names _ h
  have hrestNames : ∀ k ∈ rest, IsName k := fun k hk => hnames k (List.mem_cons_of_mem _ hk)
  have hget : pt.getEntry (['.'].intercalate (name :: rest)) = .ok text := by
    rw [StorageConfig.getEntry, PropertyTree.fragments_of_isFragment
      ⟨intercalate_ne_nil hne hnames, semicolon_not_mem hnames⟩, look_line told hchildren h]
    rfl
  have hlast := getLast?_intercalate hrest hrestNames
  rw [StorageConfig.putEntry, entryOf, hget]
  show sub.putKey (List.drop _ (['.'].intercalate (name :: rest))) text = _
  rw [StorageConfig.beneath, PropertyTree.drop_intercalate hrest, StorageConfig.putKey,
    PropertyTree.fragments_intercalate hrest (isFragments hrestNames), if_neg fun h => hlast h.2]

/-- The loop puts the lines about a part, in the order in which they stand. -/
theorem putEntries_file (told : Told file) (hchildren : pt.children = file.map entryOf) {name : Text}
    (hname : IsName name) {lines : Lines} (hlines : ∀ e ∈ lines, e ∈ file) (sub : StorageConfig) :
    ((lines.map entryOf).filter fun entry =>
        (StorageConfig.beneath name).isPrefixOf entry.1).foldlM (pt.putEntry name) sub =
      .ok (PropertyTree.puts ((strip name lines).filter fun e => e.1 ≠ []) sub) := by
  induction lines generalizing sub with
  | nil => rfl
  | cons e rest ih =>
    obtain ⟨he, hrest⟩ := List.forall_mem_cons.mp hlines
    obtain ⟨path, text⟩ := e
    obtain ⟨hne, hnames⟩ := told.names _ he
    have hstarts := PropertyTree.prefix_intercalate_iff hname.2.1 (isFragments hnames)
    rw [List.map_cons, List.filter_cons]
    by_cases hpath : ∃ tail ≠ [], path = name :: tail
    · obtain ⟨tail, htail, rfl⟩ := hpath
      have hpre : (StorageConfig.beneath name).isPrefixOf (entryOf (name :: tail, text)).1 = true :=
        List.isPrefixOf_iff_prefix.mpr (hstarts.mpr ⟨tail, htail, rfl⟩)
      rw [if_pos hpre, List.foldlM_cons, putEntry_line told hchildren htail he]
      show List.foldlM _ _ _ = _
      rw [ih hrest, PropertyTree.strip_cons, if_pos rfl, List.filter_cons, if_pos (by simp [htail])]
      rfl
    · have hpre : ¬ (StorageConfig.beneath name).isPrefixOf (entryOf (path, text)).1 = true :=
        fun hpre => hpath (hstarts.mp (List.isPrefixOf_iff_prefix.mp hpre))
      rw [if_neg hpre, ih hrest]
      cases path with
      | nil => exact absurd rfl hne
      | cons j tail =>
        rw [PropertyTree.strip_cons]
        split
        · rename_i hj
          have htail : tail = [] := by
            by_contra htail
            exact hpath ⟨tail, htail, hj ▸ rfl⟩
          rw [List.filter_cons, if_neg (by simp [htail])]
        · rfl

/-- Lines have nothing beneath them. -/
theorem look_beneath_line (data : Text) (file : Lines) (k k' : Text) (rest : List Text) :
    (PropertyTree.child k (.node data (file.map entryOf))).bind (PropertyTree.look (k' :: rest)) =
      none := by
  induction file with
  | nil => rfl
  | cons e others ih =>
    rw [List.map_cons, entryOf, PropertyTree.child_cons]
    split
    · exact PropertyTree.look_leaf e.2 (List.cons_ne_nil _ _)
    · exact ih

theorem look_single {data : Text} (single : ∀ e ∈ file, ∃ k, e.1 = [k]) {path : List Text}
    (hpath : path ≠ []) :
    PropertyTree.look path (.node data (file.map entryOf)) = shown file path := by
  obtain ⟨k, rest, rfl⟩ := List.exists_cons_of_ne_nil hpath
  induction file with
  | nil => rfl
  | cons e others ih =>
    obtain ⟨⟨j, hj⟩, hothers⟩ := List.forall_mem_cons.mp single
    obtain ⟨path', text⟩ := e
    obtain rfl : path' = [j] := hj
    have hrec := ih hothers
    rw [PropertyTree.look_cons] at hrec ⊢
    rw [List.map_cons, entryOf, List.intercalate_singleton, PropertyTree.child_cons,
      PropertyTree.shown_cons_if, ← hrec]
    cases rest with
    | nil =>
      by_cases h : k = j
      · rw [if_pos h, h, if_pos rfl]
        rfl
      · rw [if_neg h, if_neg (by simp [h]), if_neg (by simp [h])]
        cases PropertyTree.child k (.node data (others.map entryOf)) <;> rfl
    | cons k' rest =>
      have hne : ¬ k :: k' :: rest <+: [j] := fun h => by simpa using h.length_le
      have heq : ¬ k :: k' :: rest = [j] := fun h => by simpa using congrArg List.length h
      have hnone := look_beneath_line data others k k' rest
      rw [hnone, if_neg heq]
      simp only [if_neg hne]
      split
      · exact PropertyTree.look_leaf text (List.cons_ne_nil _ _)
      · exact hnone

/-- A section of an INI file presents what its lines say, in whatever order they stand. -/
theorem presents_of_section {plan : StoragePlan} (h : plan.WellNamed) (hpt : Section pt plan) :
    Presents pt plan := by
  obtain ⟨file, perm, hchildren⟩ := hpt
  have toldLines := told_lines h
  have told : Told file :=
    ⟨(perm.map Prod.fst).nodup_iff.mpr toldLines.nodup, fun e he => toldLines.names e (perm.subset he)⟩
  have hshown : ∀ path, shown file path = shown plan.lines path :=
    PropertyTree.shown_perm perm told.nodup
  cases h with
  | mk _ own nodup names _ =>
    constructor
    · intro e he
      have hmem := mem_lines he
      have hlook := look_line told hchildren (perm.symm.subset hmem)
      rw [List.intercalate_singleton] at hlook
      rw [get?_of_isName (isName_of_mem_settings own e he), hlook]
    · intro part hpart
      have hname := names part hpart
      have hwalk : pt.walk (fragments '.' part.1) = (file.lookup [part.1]).map .leaf := by
        have hchild := child_file told.names hchildren (List.cons_ne_nil part.1 [])
          (List.forall_mem_singleton.mpr hname)
        rw [List.intercalate_singleton] at hchild
        rw [PropertyTree.fragments_of_isFragment ⟨hname.1, hname.2.1⟩, PropertyTree.walk, hchild]
        cases file.lookup [part.1] <;> rfl
      have hsub := putEntries_file told hchildren hname (fun e he => he)
        (((file.lookup [part.1]).map PropertyTree.leaf).getD .empty)
      refine ⟨PropertyTree.puts ((strip part.1 file).filter fun e => e.1 ≠ [])
        (((file.lookup [part.1]).map PropertyTree.leaf).getD .empty), ?_, ?_⟩
      · rw [StorageConfig.getSubtree, StorageConfig.entriesBeneath, hchildren, hwalk]
        exact hsub
      · constructor
        · intro path hpath
          have hbase : (((file.lookup [part.1]).map PropertyTree.leaf).getD .empty).look path = none := by
            cases file.lookup [part.1] with
            | none => exact PropertyTree.look_empty hpath
            | some text => exact PropertyTree.look_leaf text hpath
          have hputs : ∀ base : StorageConfig, base.look path = none →
              (PropertyTree.puts ((strip part.1 file).filter fun e => e.1 ≠ []) base).look path =
                shown ((strip part.1 file).filter fun e => e.1 ≠ []) path := by
            intro base hnone
            have hall : ((strip part.1 file).map Prod.fst).Nodup :=
              PropertyTree.nodup_strip told.nodup
            have hnodup : (((strip part.1 file).filter fun e => e.1 ≠ []).map Prod.fst).Nodup :=
              hall.sublist (List.filter_sublist.map Prod.fst)
            rw [PropertyTree.look_puts _ hnodup, hnone]
            rfl
          rw [hputs _ hbase, PropertyTree.shown_filter_ne_nil _ hpath, ← PropertyTree.shown_cons,
            hshown, shown_beneath nodup hpart hpath]
        · refine PropertyTree.AllKeys.puts ?_ ?_
          · cases file.lookup [part.1] with
            | none => exact PropertyTree.allKeys_empty _
            | some text => exact PropertyTree.allKeys_leaf _ text
          · intro e he k hk
            have hmem := PropertyTree.mem_strip (List.mem_of_mem_filter he)
            exact ((told.names _ hmem).2 k (List.mem_cons_of_mem _ hk)).2.1
    · intro hnone path hpath
      have single : ∀ e ∈ file, ∃ k, e.1 = [k] := by
        intro e he
        have hmem := perm.subset he
        rw [lines_eq, hnone, List.flatMap_nil, List.append_nil] at hmem
        obtain ⟨setting, _, rfl⟩ := List.mem_map.mp hmem
        exact ⟨setting.1, rfl⟩
      obtain ⟨data, children⟩ := pt
      obtain rfl : children = file.map entryOf := hchildren
      rw [look_single single hpath, hshown, configOf,
        PropertyTree.look_puts_empty toldLines.nodup hpath]

end

/-! ## What is made -/

section
variable {σ : Type} {m : Makers σ} {pt : StorageConfig} {n : Nat}

theorem get_of_own {plan : StoragePlan} (hpt : Presents pt plan) {e : Text × Text}
    (h : e ∈ plan.settings) : pt.get e.1 = .ok e.2 := by
  rw [StorageConfig.get, hpt.own e h]
  rfl

/-- The parts are made one after the other. -/
theorem mapM_parts {make : StorageConfig → Making (Option (StorageTree σ))} {message : String}
    {storages : List (Text × StoragePlan)}
    (h : ∀ part ∈ storages,
      makePart make message pt part.1 = Making.needed message (part.2.make m)) :
    (storages.map Prod.fst).mapM (makePart make message pt) = makeAll m message storages := by
  induction storages with
  | nil => rfl
  | cons part rest ih =>
    obtain ⟨hpart, hrest⟩ := List.forall_mem_cons.mp h
    rw [List.map_cons, List.mapM_cons, hpart, ih hrest, makeAll]

theorem makePart_eq {make : StorageConfig → Making (Option (StorageTree σ))} {message : String}
    {name : Text} {sub : StorageConfig} {plan : StoragePlan} (hsub : pt.getSubtree name = .ok sub)
    (h : make sub = plan.make m) :
    makePart make message pt name = Making.needed message (plan.make m) := by
  rw [makePart, hsub, ← h]
  rfl

/-- What presents a storage is made into it. -/
theorem make_of_presents (reads : m.Reads) {plan : StoragePlan} (h : plan.WellNamed) :
    ∀ {pt : StorageConfig}, Presents pt plan → ∀ {n : Nat}, plan.depth ≤ n →
      getTileStorage m n pt = plan.make m := by
  induction h with
  | mk plan own nodup names parts ih =>
    intro pt hpt n hn
    cases n with
    | zero => cases plan <;> simp [depth] at hn
    | succ n =>
      have part : ∀ part ∈ plan.parts, ∀ message,
          makePart (getTileStorage m n) message pt part.1 =
            Making.needed message (part.2.make m) := by
        intro part hpart message
        have hmem : (part.1, part.2.lines) ∈ plan.beneath :=
          List.mem_append_left _ (List.mem_map.mpr ⟨part, hpart, rfl⟩)
        obtain ⟨sub, hsub, hshows⟩ := hpt.beneath _ hmem
        have hdepth := depth_part hpart
        exact makePart_eq hsub (ih part hpart (presents_of_shows (parts part hpart) hshows) (by omega))
      rw [getTileStorage, createStorage]
      cases plan with
      | leaf type settings =>
        obtain ⟨htype, _⟩ := own
        simp only [List.mem_cons, List.not_mem_nil, or_false, not_or] at htype
        rw [hpt.own ("type".toList, type) List.mem_cons_self, make]
        dsimp only
        rw [if_neg htype.1, if_neg htype.2.1, if_neg htype.2.2.1, if_neg htype.2.2.2]
        cases hleaf : m.leaf type with
        | none => rfl
        | some maker =>
          dsimp only
          rw [reads type maker hleaf pt _ (hpt.leaf rfl)]
      | union list storages =>
        rw [hpt.own ("type".toList, "union".toList) List.mem_cons_self, make, createUnionStorage,
          get_of_own hpt (List.mem_cons_of_mem _ (List.mem_singleton_self _))]
        dsimp only
        rw [if_pos rfl]
        refine congrArg (some <$> ·) ?_
        have hstorages : ∀ message, (storages.map Prod.fst).mapM
            (makePart (getTileStorage m n) message pt) = makeAll m message storages :=
          fun message => mapM_parts fun p hp => part p hp message
        rw [Making.ofExcept_ok_bind, own, hstorages]
      | perStyle list storages deflt =>
        rw [hpt.own ("type".toList, "per_style".toList) List.mem_cons_self, make,
          createPerStyleStorage, get_of_own hpt (List.mem_cons_of_mem _ (List.mem_singleton_self _))]
        dsimp only
        rw [if_neg (by decide), if_pos rfl]
        refine congrArg (some <$> ·) ?_
        have hdeflt := part ("default".toList, deflt)
          (List.mem_append_right _ (List.mem_singleton_self _))
        have hstorages : ∀ message, (storages.map Prod.fst).mapM
            (makePart (getTileStorage m n) message pt) = makeAll m message storages :=
          fun message => mapM_parts fun p hp => part p (List.mem_append_left _ hp) message
        dsimp only at hdeflt
        rw [Making.ofExcept_ok_bind, own, hstorages]
        simp only [hdeflt]
      | overlay name primary backup storage =>
        have hstorage := part (name, storage) (List.mem_singleton_self _)
        have hname := get_of_own hpt (e := ("storage".toList, name)) (by simp [settings])
        have hprimary := get_of_own hpt (e := ("primary".toList, primary)) (by simp [settings])
        have hbackup := get_of_own hpt (e := ("backup".toList, backup)) (by simp [settings])
        rw [hpt.own ("type".toList, "expiry_overlay".toList) List.mem_cons_self, make,
          createExpiryOverlay, hname, hprimary, hbackup]
        dsimp only
        rw [if_neg (by decide), if_neg (by decide), if_pos rfl]
        refine congrArg (some <$> ·) ?_
        cases m.context with
        | false => rfl
        | true =>
          rw [if_neg (by simp), if_neg (by simp), Making.ofExcept_ok_bind, hstorage]
          rfl
      | compositing underStorage overStorage config =>
        have hunder := part ("under".toList, underStorage) List.mem_cons_self
        have hover := part ("over".toList, overStorage)
          (List.mem_cons_of_mem _ (List.mem_singleton_self _))
        obtain ⟨sub, hsub, hshows⟩ := hpt.beneath ("config".toList, config) (by simp [beneath, inset])
        have hsame : sub.Same (configOf config) := by
          intro path hpath
          rw [hshows.shows path hpath, configOf, PropertyTree.look_puts_empty own.nodup hpath]
        rw [hpt.own ("type".toList, "compositing".toList) List.mem_cons_self, make,
          createCompositingStorage]
        dsimp only at hunder hover hsub ⊢
        rw [if_neg (by decide), if_neg (by decide), if_neg (by decide), if_pos rfl]
        refine congrArg (some <$> ·) ?_
        simp only [hunder, hover, hsub, ← read_same hsame]
        rfl

/-- **What is planned is made**, from a section of an INI file with its lines in any order: each part,
however deep it is nested, as if it had a configuration of its own.

Names are not empty and have no dot and no semicolon, and those of the parts of one storage differ; so
do the keys of a leaf. What a leaf is made of its settings is an argument, which is to read them by
their keys alone (`Reads`). Calls within calls are as many as the plan is deep. -/
theorem planned_storage_is_made (reads : m.Reads) {plan : StoragePlan} (h : plan.WellNamed)
    (hpt : Section pt plan) (hn : plan.depth ≤ n) : getTileStorage m n pt = plan.make m :=
  make_of_presents reads h (presents_of_section h hpt) hn

end

/-! ## A union of unions -/

def nullPlan : StoragePlan := leaf "null".toList []

/-- A union with a null storage and with another storage for each style. -/
def nestedPlan : StoragePlan :=
  union "a, b".toList
    [("a".toList, nullPlan),
      ("b".toList, perStyle "map".toList
        [("map".toList, overlay "s".toList "p".toList "q".toList nullPlan)] nullPlan)]

/-- Its lines, the last one first. -/
def nestedSection : StorageConfig := .node [] (nestedPlan.lines.reverse.map entryOf)

def withContext : Makers Unit := { onlyNull with context := true }

theorem withContext_reads : withContext.Reads := by
  intro type maker hmaker t u _
  unfold withContext onlyNull at hmaker
  dsimp only at hmaker
  split at hmaker
  · rw [← Option.some.inj hmaker]
  · cases hmaker

theorem wellNamed_nullPlan : nullPlan.WellNamed := by
  refine .mk _ ?_ ?_ ?_ ?_ <;> simp [nullPlan, Own, beneath, parts, inset]

theorem wellNamed_nestedPlan : nestedPlan.WellNamed := by
  have hoverlay : (overlay "s".toList "p".toList "q".toList nullPlan).WellNamed := by
    refine .mk _ ?_ ?_ ?_ ?_ <;> simp [Own, beneath, parts, inset, IsName, wellNamed_nullPlan]
  have hstyles : (perStyle "map".toList
      [("map".toList, overlay "s".toList "p".toList "q".toList nullPlan)] nullPlan).WellNamed := by
    refine .mk _ rfl ?_ ?_ ?_
    · simp [beneath, parts, inset]
    · simp [beneath, parts, inset, IsName]
    · exact List.forall_mem_cons.mpr ⟨hoverlay, List.forall_mem_singleton.mpr wellNamed_nullPlan⟩
  refine .mk _ rfl ?_ ?_ ?_
  · simp [nestedPlan, beneath, parts, inset]
  · simp [nestedPlan, beneath, parts, inset, IsName]
  · exact List.forall_mem_cons.mpr ⟨wellNamed_nullPlan, List.forall_mem_singleton.mpr hstyles⟩

theorem nested_storage_is_made :
    getTileStorage withContext 4 nestedSection =
      pure (some (.union [.leaf (), .perStyle
        [("map".toList, .overlay (.leaf ()) "p".toList "q".toList)] (.leaf ())])) :=
  planned_storage_is_made withContext_reads wellNamed_nestedPlan
    ⟨nestedPlan.lines.reverse, List.reverse_perm _, rfl⟩ (by decide)

end StoragePlan

end RenderMq
