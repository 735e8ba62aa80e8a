import RenderMq.Lib.PropertyTree
import RenderMq.Storage.CompositingGet

/-!
# Storages from a configuration

`tile_storage_factory`, and the makers of the storages that are made of others. The settings of a part
are the subtree with its name, and the keys that start with its name and a dot (`getSubtree`). What is
made is a tree of storages; those that are made of nothing else are an argument.

A part is made from less than its whole, so that a storage is made in as many steps as there are keys
(`getTileStorage_returns`), unless a part has no name. The part with no name is the whole, with what
is under keys that start with a dot: if there are none, the maker calls itself for ever.
-/

namespace RenderMq

abbrev Text := List Char

/-- `ptree`, with texts as keys and as data. -/
abbrev StorageConfig := PropertyTree Text Text

open PropertyTree (fragments)

namespace StorageConfig

/-! ## Reading -/

/-- `get_optional<string>`. -/
def get? (key : Text) (pt : StorageConfig) : Option Text := pt.look (fragments '.' key)

/-- The text of a `ptree_bad_path`. -/
def noSuchNode (path : Text) : String := "No such node (" ++ String.ofList path ++ ")"

/-- `get<string>`. -/
def get (key : Text) (pt : StorageConfig) : Except String Text :=
  (pt.get? key).elim (.error (noSuchNode key)) .ok

/-- `get<string>`, with a semicolon between the steps of the path. -/
def getEntry (key : Text) (pt : StorageConfig) : Except String Text :=
  (pt.look (fragments ';' key)).elim (.error (noSuchNode key)) .ok

/-- `put`. It asserts that a path that is not there does not end in a dot. -/
def putKey (key value : Text) (pt : StorageConfig) : Except String StorageConfig :=
  if pt.walk (fragments '.' key) = none ∧ key.getLast? = some '.' then
    .error "Empty path not allowed for put_child."
  else .ok (pt.put value (fragments '.' key))

/-- What the keys of a part start with. -/
def beneath (name : Text) : Text := name ++ ['.']

/-- One turn of the loop over the entries. -/
def putEntry (pt : StorageConfig) (name : Text) (sub : StorageConfig) (entry : Text × StorageConfig) :
    Except String StorageConfig := do
  let value ← pt.getEntry entry.1
  sub.putKey (entry.1.drop (beneath name).length) value

/-- The entries that the loop does something for. -/
def entriesBeneath (pt : StorageConfig) (name : Text) : List (Text × StorageConfig) :=
  pt.children.filter fun entry => (beneath name).isPrefixOf entry.1

/-- `get_subtree`. -/
def getSubtree (pt : StorageConfig) (name : Text) : Except String StorageConfig :=
  (pt.entriesBeneath name).foldlM (pt.putEntry name) ((pt.walk (fragments '.' name)).getD .empty)

end StorageConfig

/-! ## Names -/

/-- `is_any_of(", ")`. -/
def isGap (c : Char) : Bool := c == ',' || c == ' '

/-- `token_compress_on`: gaps that are next to each other are one. -/
def compress : Text → Text
  | a :: b :: rest => if isGap a && isGap b then compress (b :: rest) else a :: compress (b :: rest)
  | rest => rest

/-- `boost::split`. -/
def splitNames (names : Text) : List Text := (compress names).splitOnP isGap

theorem splitOnP_cons_gap {a : Char} {rest : Text} (h : isGap a = true) :
    (a :: rest).splitOnP isGap = [] :: rest.splitOnP isGap := by
  rw [List.splitOnP_cons_eq_if_modifyHead, if_pos h]

theorem splitOnP_cons_other {a : Char} (h : isGap a = false) (rest : Text) :
    ∃ head tail, rest.splitOnP isGap = head :: tail ∧
      (a :: rest).splitOnP isGap = (a :: head) :: tail := by
  obtain ⟨head, tail, hsplit⟩ := List.exists_cons_of_ne_nil (List.splitOnP_ne_nil isGap rest)
  refine ⟨head, tail, hsplit, ?_⟩
  rw [List.splitOnP_cons_eq_if_modifyHead, if_neg (by simp [h]), hsplit]
  rfl

theorem head_splitOnP_cons (a : Char) (rest : Text) :
    ((a :: rest).splitOnP isGap).head? = some [] ↔ isGap a = true := by
  cases ha : isGap a with
  | true =>
    rw [splitOnP_cons_gap ha]
    simp
  | false =>
    obtain ⟨head, tail, _, hsplit⟩ := splitOnP_cons_other ha rest
    rw [hsplit]
    simp

/-- The first name is empty if there is nothing before the first gap. -/
theorem head_splitNames (names : Text) :
    (splitNames names).head? = some [] ↔ names = [] ∨ names.head?.any isGap = true := by
  unfold splitNames
  fun_induction compress names with
  | case1 a b rest hgap ih =>
    rw [Bool.and_eq_true] at hgap
    rw [ih]
    simp [hgap.1, hgap.2]
  | case2 a b rest hgap ih =>
    rw [head_splitOnP_cons]
    simp
  | case3 rest hrest =>
    cases rest with
    | nil => simp
    | cons a rest =>
      rw [head_splitOnP_cons]
      simp

theorem nil_mem_tail_splitNames (names : Text) :
    [] ∈ (splitNames names).tail ↔ names.getLast?.any isGap = true := by
  unfold splitNames
  fun_induction compress names with
  | case1 a b rest hgap ih => rw [ih, List.getLast?_cons_cons]
  | case2 a b rest hgap ih =>
    rw [List.getLast?_cons_cons, ← ih]
    cases ha : isGap a with
    | true =>
      have hb : isGap b = false := by simpa [ha] using hgap
      obtain ⟨head, tail, hsplit⟩ := List.exists_cons_of_ne_nil
        (List.splitOnP_ne_nil isGap (compress (b :: rest)))
      have hhead : head ≠ [] := by
        have hiff := head_splitNames (b :: rest)
        rw [splitNames, hsplit] at hiff
        simpa [hb] using hiff
      rw [splitOnP_cons_gap ha, List.tail_cons, hsplit, List.mem_cons, List.tail_cons]
      exact or_iff_right fun hnil => hhead hnil.symm
    | false =>
      obtain ⟨head, tail, hsplit, hcons⟩ := splitOnP_cons_other ha (compress (b :: rest))
      rw [hcons, hsplit, List.tail_cons, List.tail_cons]
  | case3 rest hrest =>
    match rest, hrest with
    | [], _ => simp
    | [a], _ =>
      cases ha : isGap a with
      | true =>
        rw [splitOnP_cons_gap ha]
        simp [ha]
      | false =>
        obtain ⟨head, tail, hsplit, hcons⟩ := splitOnP_cons_other ha []
        rw [List.splitOnP_nil] at hsplit
        obtain ⟨rfl, rfl⟩ := List.cons.inj hsplit
        rw [hcons]
        simp [ha]
    | a :: b :: rest, hrest => exact absurd rfl (hrest a b rest)

/-- A name is empty where the list of the names is, or starts or ends with a gap. -/
theorem nil_mem_splitNames_iff (names : Text) :
    [] ∈ splitNames names ↔
      names = [] ∨ names.head?.any isGap = true ∨ names.getLast?.any isGap = true := by
  rw [← nil_mem_tail_splitNames, ← or_assoc, ← head_splitNames]
  obtain ⟨head, tail, hsplit⟩ := List.exists_cons_of_ne_nil
    (List.splitOnP_ne_nil isGap (compress names))
  rw [splitNames, hsplit]
  simp [eq_comm]

theorem compress_append {name : Text} (h : ∀ c ∈ name, isGap c = false) (rest : Text) :
    compress (name ++ rest) = name ++ compress rest := by
  induction name with
  | nil => rfl
  | cons c name ih =>
    obtain ⟨hc, hname⟩ := List.forall_mem_cons.mp h
    have hrest := ih hname
    rw [List.cons_append, List.cons_append, ← hrest]
    cases name ++ rest with
    | nil => rfl
    | cons d others =>
      have hgap : ¬ (isGap c && isGap d) = true := by simp [hc]
      rw [compress, if_neg hgap]

theorem head_intercalate {gap name : Text} (rest : List Text)
    (h : ∀ k ∈ name :: rest, k ≠ [] ∧ ∀ c ∈ k, isGap c = false) :
    ∃ c tail, gap.intercalate (name :: rest) = c :: tail ∧ isGap c = false := by
  obtain ⟨hne, hname⟩ := h name List.mem_cons_self
  obtain ⟨c, others, rfl⟩ := List.exists_cons_of_ne_nil hne
  have hc := hname c List.mem_cons_self
  cases rest with
  | nil => exact ⟨c, others, List.intercalate_singleton, hc⟩
  | cons next rest => exact ⟨c, _, List.intercalate_cons_cons, hc⟩

/-- Names that are written one after the other are read again. -/
theorem splitNames_intercalate {names : List Text} (hne : names ≠ [])
    (h : ∀ name ∈ names, name ≠ [] ∧ ∀ c ∈ name, isGap c = false) :
    splitNames (", ".toList.intercalate names) = names := by
  induction names with
  | nil => exact absurd rfl hne
  | cons name rest ih =>
    obtain ⟨⟨_, hname⟩, hrest⟩ := List.forall_mem_cons.mp h
    unfold splitNames at ih ⊢
    cases rest with
    | nil =>
      have hcompress := compress_append hname []
      have hnil : compress [] = [] := rfl
      rw [hnil, List.append_nil] at hcompress
      rw [List.intercalate_singleton, hcompress]
      exact List.splitOnP_eq_singleton hname
    | cons next rest =>
      have hnext := ih (List.cons_ne_nil _ _) hrest
      have hgap : compress (", ".toList ++ ", ".toList.intercalate (next :: rest)) =
          ' ' :: compress (", ".toList.intercalate (next :: rest)) := by
        obtain ⟨c, tail, htail, hc⟩ := head_intercalate rest hrest
        rw [htail]
        show compress (',' :: ' ' :: c :: tail) = _
        rw [compress, if_pos (by decide), compress, if_neg (by simp [hc])]
      rw [List.intercalate_cons_cons, List.append_assoc, compress_append hname, hgap,
        List.splitOnP_append_cons_of_forall_mem hname ' ' rfl, hnext]

/-! ## The factory -/

/-- A storage that was made. A leaf is a storage that is made of nothing else. -/
inductive StorageTree (σ : Type) where
  | leaf (storage : σ)
  | union (storages : List (StorageTree σ))
  | perStyle (storages : List (Text × StorageTree σ)) (deflt : StorageTree σ)
  | overlay (storage : StorageTree σ) (primary backup : Text)
  | compositing (underStorage overStorage : StorageTree σ) (config : CompositingConfig)

/-- What the makers have: a 0MQ context or none, the image library, and those of the other types. -/
structure Makers (σ : Type) where
  context : Bool
  lib : ImageLibrary
  leaf : Text → Option (StorageConfig → Except String (Option σ))

/-- Something is made, or not (with a text), or the maker calls itself more often than it may. -/
abbrev Making (α : Type) := ExceptT String Option α

namespace Making

variable {α β : Type}

def ofExcept (x : Except String α) : Making α := ExceptT.mk (some x)

/-- What was made, if anything; or else the text of who needed it. -/
def needed (message : String) (x : Making (Option α)) : Making α :=
  x >>= fun made => ofExcept (made.elim (.error message) .ok)

theorem ofExcept_ok_bind (a : α) (f : α → Making β) : ofExcept (.ok a) >>= f = f a := rfl

/-- It comes to an end. -/
def Returns (x : Making α) : Prop := x.run ≠ none

theorem returns_ofExcept (x : Except String α) : (ofExcept x).Returns :=
  Option.some_ne_none x

theorem returns_pure (a : α) : (pure a : Making α).Returns :=
  Option.some_ne_none _

theorem Returns.bind {x : Making α} {f : α → Making β} (hx : x.Returns)
    (hf : ∀ a, x = pure a → (f a).Returns) : (x >>= f).Returns := by
  rcases (x : Option (Except String α)) with _ | message | a
  · exact absurd rfl hx
  · exact Option.some_ne_none _
  · exact hf a rfl

theorem Returns.map {x : Making α} (hx : x.Returns) (f : α → β) : (f <$> x).Returns := by
  rw [map_eq_pure_bind]
  exact hx.bind fun a _ => returns_pure _

theorem Returns.mapM {f : α → Making β} {xs : List α} (h : ∀ a ∈ xs, (f a).Returns) :
    (xs.mapM f).Returns := by
  induction xs with
  | nil => exact returns_pure []
  | cons a rest ih =>
    obtain ⟨ha, hrest⟩ := List.forall_mem_cons.mp h
    rw [List.mapM_cons]
    exact ha.bind fun b _ => (ih hrest).bind fun bs _ => returns_pure _

/-- What comes of one thing after another comes of both. -/
theorem bind_eq_pure {x : Making α} {f : α → Making β} {b : β} (h : x >>= f = pure b) :
    ∃ a, x = pure a ∧ f a = pure b := by
  rcases (x : Option (Except String α)) with _ | message | a
  · cases h
  · cases h
  · exact ⟨a, rfl, h⟩

theorem ofExcept_eq_pure {x : Except String α} {a : α} (h : ofExcept x = pure a) : x = .ok a :=
  Option.some.inj h

theorem mapM_eq_pure {f : α → Making β} {xs : List α} {bs : List β} (h : xs.mapM f = pure bs) :
    ∀ a ∈ xs, ∃ b, f a = pure b := by
  induction xs generalizing bs with
  | nil => simp
  | cons a rest ih =>
    rw [List.mapM_cons] at h
    obtain ⟨b, hb, h⟩ := bind_eq_pure h
    obtain ⟨bs', hbs, _⟩ := bind_eq_pure h
    exact List.forall_mem_cons.mpr ⟨⟨b, hb⟩, ih hbs⟩

end Making

/-- `get<bool>`, where there is such a setting and it is one. -/
def readFlag (text : Option Text) : Bool := text = some "1".toList ∨ text = some "true".toList

/-- What the compositing storage reads of its configuration. -/
def CompositingProperties.read (config : StorageConfig) : CompositingProperties where
  underStyle := (config.get? "under_style".toList).map String.ofList
  overStyle := (config.get? "over_style".toList).map String.ofList
  underFormat := (config.get? "under_format".toList).map String.ofList
  overFormat := (config.get? "over_format".toList).map String.ofList
  jpeg := (config.get? "jpeg".toList).isSome
  gif := (config.get? "gif".toList).isSome
  png := (config.get? "png".toList).isSome
  jpegQuality := ((config.get? "jpeg.quality".toList).bind (String.ofList · |>.toInt?)).getD 80
  expireUnder := readFlag (config.get? "expire_under".toList)
  expireOver := readFlag (config.get? "expire_over".toList)

section
variable {σ : Type} (m : Makers σ) (make : StorageConfig → Making (Option (StorageTree σ)))

/-- `make_subtree`. -/
def makePart (message : String) (pt : StorageConfig) (name : Text) : Making (StorageTree σ) := do
  let sub ← Making.ofExcept (pt.getSubtree name)
  Making.needed message (make sub)

/-- `create_union_storage`. -/
def createUnionStorage (pt : StorageConfig) : Making (StorageTree σ) := do
  let names ← Making.ofExcept (pt.get "storages".toList)
  let storages ←
    (splitNames names).mapM (makePart make "Failed to create storage item within union." pt)
  return .union storages

/-- `create_per_style_storage`. -/
def createPerStyleStorage (pt : StorageConfig) : Making (StorageTree σ) := do
  let message := "Failed to create storage item within per-style."
  let names ← Making.ofExcept (pt.get "styles".toList)
  let storages ← (splitNames names).mapM (makePart make message pt)
  let deflt ← makePart make message pt "default".toList
  return .perStyle ((splitNames names).zip storages) deflt

/-- `create_expiry_overlay`. -/
def createExpiryOverlay (pt : StorageConfig) : Making (StorageTree σ) :=
  if !m.context then .ofExcept (.error "0MQ context not provided, but is required.")
  else do
    let name ← Making.ofExcept (pt.get "storage".toList)
    let storage ← makePart make "Failed to create storage for expiry overlay." pt name
    let primary ← Making.ofExcept (pt.get "primary".toList)
    let backup ← Making.ofExcept (pt.get "backup".toList)
    return .overlay storage primary backup

/-- The text of a layer that is not made. -/
def layerMessage (name : Text) : String :=
  "Failed to create `" ++ String.ofList name ++ "' item within composting storage."

/-- `create_compositing_storage`. -/
def createCompositingStorage (pt : StorageConfig) : Making (StorageTree σ) := do
  let underStorage ← makePart make (layerMessage "under".toList) pt "under".toList
  let overStorage ← makePart make (layerMessage "over".toList) pt "over".toList
  let sub ← Making.ofExcept (pt.getSubtree "config".toList)
  let config ← Making.ofExcept ((CompositingProperties.read sub).construct m.lib)
  return .compositing underStorage overStorage config

/-- `tile_storage_factory::create`, which is given itself for the parts. -/
def createStorage (pt : StorageConfig) : Making (Option (StorageTree σ)) :=
  match pt.get? "type".toList with
  | none => return none
  | some type =>
    if type = "union".toList then some <$> createUnionStorage make pt
    else if type = "per_style".toList then some <$> createPerStyleStorage make pt
    else if type = "expiry_overlay".toList then some <$> createExpiryOverlay m make pt
    else if type = "compositing".toList then some <$> createCompositingStorage m make pt
    else
      match m.leaf type with
      | none => return none
      | some maker => .ofExcept ((maker pt).map (·.map .leaf))

end

/-- The names of the parts that are asked for. -/
def StorageConfig.asks (pt : StorageConfig) : List Text :=
  match pt.get? "type".toList with
  | none => []
  | some type =>
    if type = "union".toList then ((pt.get? "storages".toList).map splitNames).getD []
    else if type = "per_style".toList then
      ((pt.get? "styles".toList).map splitNames).getD [] ++ ["default".toList]
    else if type = "expiry_overlay".toList then (pt.get? "storage".toList).toList
    else if type = "compositing".toList then ["under".toList, "over".toList]
    else []

/-- A configuration of a part, of a part of a part, and so on. -/
def StorageConfig.Below : StorageConfig → StorageConfig → Prop :=
  Relation.ReflTransGen fun pt sub => ∃ name ∈ pt.asks, pt.getSubtree name = .ok sub

/-- `get_tile_storage`, in so many calls within calls. -/
def getTileStorage {σ : Type} (m : Makers σ) : Nat → StorageConfig → Making (Option (StorageTree σ))
  | 0, _ => ExceptT.mk none
  | n + 1, pt => createStorage m (getTileStorage m n) pt

/-! ## How much there is to read -/

namespace StorageConfig

/-- The steps of a key. -/
def steps (key : Text) : Nat := (key.splitOn '.').length

/-- The steps of all keys of a configuration. -/
def keySteps (pt : StorageConfig) : Nat := pt.weight steps

theorem steps_pos (key : Text) : 0 < steps key :=
  List.length_pos_of_ne_nil (List.splitOn_ne_nil '.' key)

theorem sum_steps_fragments (key : Text) : ((fragments '.' key).map steps).sum ≤ steps key := by
  have hone : (fragments '.' key).map steps = (fragments '.' key).map fun _ => 1 := by
    refine List.map_congr_left fun k hk => ?_
    rw [steps, List.splitOn_eq_singleton (PropertyTree.not_mem_of_mem_fragments k hk)]
    rfl
  rw [hone, List.map_const', List.sum_replicate, smul_eq_mul, mul_one]
  exact PropertyTree.length_fragments_le '.' key

theorem steps_beneath {name key : Text} (h : beneath name <+: key) :
    steps key = steps name + steps (key.drop (beneath name).length) := by
  obtain ⟨rest, rfl⟩ := h
  rw [List.drop_left, beneath, List.append_assoc, List.singleton_append, steps,
    List.splitOn_append_cons_self, List.length_append]
  rfl

theorem putKey_ok {key value : Text} {pt pt' : StorageConfig} (h : pt.putKey key value = .ok pt') :
    pt' = pt.put value (fragments '.' key) := by
  unfold putKey at h
  split at h
  · cases h
  · exact (Except.ok.inj h).symm

theorem putEntry_ok {pt sub sub' : StorageConfig} {name : Text} {entry : Text × StorageConfig}
    (h : pt.putEntry name sub entry = .ok sub') :
    ∃ value, pt.getEntry entry.1 = .ok value ∧
      sub' = sub.put value (fragments '.' (entry.1.drop (beneath name).length)) := by
  unfold putEntry at h
  cases hget : pt.getEntry entry.1 with
  | error message => rw [hget] at h; cases h
  | ok value =>
    rw [hget] at h
    exact ⟨value, rfl, putKey_ok h⟩

/-- The loop moves keys, and takes at least one step off each. -/
theorem keySteps_entries {pt : StorageConfig} {name : Text} {entries : List (Text × StorageConfig)}
    (hentries : ∀ e ∈ entries, beneath name <+: e.1) {sub sub' : StorageConfig}
    (h : entries.foldlM (pt.putEntry name) sub = .ok sub') :
    sub'.keySteps + entries.length ≤ sub.keySteps + (entries.map (steps ·.1)).sum := by
  induction entries generalizing sub with
  | nil =>
    obtain rfl := Except.ok.inj h
    exact Nat.le_refl _
  | cons e rest ih =>
    obtain ⟨he, hrest⟩ := List.forall_mem_cons.mp hentries
    rw [List.foldlM_cons] at h
    cases hput : pt.putEntry name sub e with
    | error message => rw [hput] at h; cases h
    | ok next =>
      rw [hput] at h
      obtain ⟨value, _, hnext⟩ := putEntry_ok hput
      have hstep := PropertyTree.weight_put_le steps value
        (fragments '.' (e.1.drop (beneath name).length)) sub
      rw [← hnext] at hstep
      have hfrag := sum_steps_fragments (e.1.drop (beneath name).length)
      have hkey := steps_beneath he
      have hname := steps_pos name
      have hrec := ih hrest h
      unfold keySteps at hrec ⊢
      rw [List.map_cons, List.sum_cons, List.length_cons]
      omega

theorem keySteps_entriesBeneath_le (pt : StorageConfig) (name : Text) :
    ((pt.entriesBeneath name).map (steps ·.1)).sum ≤ pt.keySteps :=
  (PropertyTree.weights_filter_le steps (beneath name).isPrefixOf pt.children).trans_eq
    (PropertyTree.weight_eq steps pt).symm

/-- A child has no dot in its key, so that it is not one of the entries beneath a name. -/
theorem keySteps_child_le {pt c : StorageConfig} {k : Text} (hdot : '.' ∉ k) (h : pt.child k = some c)
    (name : Text) :
    steps k + c.keySteps + ((pt.entriesBeneath name).map (steps ·.1)).sum ≤ pt.keySteps := by
  have hk : (beneath name).isPrefixOf k = false := by
    rw [Bool.eq_false_iff]
    intro hpre
    refine hdot ((List.isPrefixOf_iff_prefix.mp hpre).subset ?_)
    exact List.mem_append_right _ (List.mem_singleton_self _)
  exact (PropertyTree.weights_child_le steps hk h).trans_eq (PropertyTree.weight_eq steps pt).symm

theorem keySteps_pos {pt : StorageConfig} (h : pt.children ≠ []) : 0 < pt.keySteps := by
  obtain ⟨e, rest, hchildren⟩ := List.exists_cons_of_ne_nil h
  have hpos := steps_pos e.1
  rw [keySteps, PropertyTree.weight_eq, hchildren, PropertyTree.weights]
  omega

/-- **A part has less to read than its whole**, if it has a name. -/
theorem keySteps_getSubtree {pt sub : StorageConfig} {name : Text} (hpt : pt.children ≠ [])
    (hname : name ≠ []) (h : pt.getSubtree name = .ok sub) : sub.keySteps < pt.keySteps := by
  have hloop := keySteps_entries (fun e he => by simpa using (List.mem_filter.mp he).2) h
  cases hbase : pt.walk (fragments '.' name) with
  | none =>
    have hzero : keySteps PropertyTree.empty = 0 := rfl
    have hpos := keySteps_pos hpt
    have hall := pt.keySteps_entriesBeneath_le name
    rw [hbase, Option.getD_none, hzero] at hloop
    cases hentries : pt.entriesBeneath name with
    | nil =>
      rw [hentries] at hloop
      simp only [List.length_nil, List.map_nil, List.sum_nil] at hloop
      omega
    | cons e rest =>
      rw [hentries] at hloop hall
      rw [List.length_cons] at hloop
      omega
  | some base =>
    rw [hbase, Option.getD_some] at hloop
    obtain ⟨k, path, hpath⟩ := List.exists_cons_of_ne_nil (PropertyTree.fragments_ne_nil hname)
    rw [hpath] at hbase
    obtain ⟨c, hchild, hwalk⟩ := Option.bind_eq_some_iff.mp hbase
    have hdot := PropertyTree.not_mem_of_mem_fragments k (hpath ▸ List.mem_cons_self)
    have hwhole := keySteps_child_le hdot hchild name
    have hle : keySteps base ≤ keySteps c := PropertyTree.weight_walk_le steps hwalk
    have hpos := steps_pos k
    omega

end StorageConfig

/-! ## In how many steps -/

section
variable {σ : Type} {m : Makers σ} {make : StorageConfig → Making (Option (StorageTree σ))}
  {pt : StorageConfig}

theorem makePart_returns {message : String} {name : Text}
    (h : ∀ sub, pt.getSubtree name = .ok sub → (make sub).Returns) :
    (makePart make message pt name).Returns := by
  unfold makePart
  cases hsub : pt.getSubtree name with
  | error text => exact Making.returns_ofExcept _
  | ok sub =>
    exact (h sub hsub).bind fun made _ => Making.returns_ofExcept _

theorem get_of_pure {key text : Text} (h : Making.ofExcept (pt.get key) = pure text) :
    pt.get? key = some text := by
  have hget := Making.ofExcept_eq_pure h
  unfold StorageConfig.get at hget
  cases hkey : pt.get? key with
  | none => rw [hkey] at hget; cases hget
  | some text' =>
    rw [hkey] at hget
    rw [Except.ok.inj hget]

/-- The factory comes to an end if it does for each part. -/
theorem createStorage_returns
    (h : ∀ name ∈ pt.asks, ∀ sub, pt.getSubtree name = .ok sub → (make sub).Returns) :
    (createStorage m make pt).Returns := by
  have part : ∀ message, ∀ name ∈ pt.asks, (makePart make message pt name).Returns :=
    fun message name hname => makePart_returns (h name hname)
  unfold createStorage
  cases htype : pt.get? "type".toList with
  | none => exact Making.returns_pure none
  | some type =>
    simp only [StorageConfig.asks, htype] at part
    dsimp only
    split_ifs at part ⊢ with hunion hstyle hoverlay hcompositing
    · refine Making.Returns.map ?_ some
      refine (Making.returns_ofExcept _).bind fun names hnames => ?_
      rw [get_of_pure hnames] at part
      exact (Making.Returns.mapM (part _)).bind fun storages _ => Making.returns_pure _
    · refine Making.Returns.map ?_ some
      refine (Making.returns_ofExcept _).bind fun names hnames => ?_
      rw [get_of_pure hnames] at part
      refine (Making.Returns.mapM fun name hname => part _ name ?_).bind fun storages _ => ?_
      · exact List.mem_append_left _ hname
      · refine (part _ _ (List.mem_append_right _ (List.mem_singleton_self _))).bind fun deflt _ => ?_
        exact Making.returns_pure _
    · refine Making.Returns.map ?_ some
      unfold createExpiryOverlay
      split
      · exact Making.returns_ofExcept _
      · refine (Making.returns_ofExcept _).bind fun name hname => ?_
        rw [get_of_pure hname] at part
        refine (part _ name (List.mem_singleton_self name)).bind fun storage _ => ?_
        refine (Making.returns_ofExcept _).bind fun primary _ => ?_
        exact (Making.returns_ofExcept _).bind fun backup _ => Making.returns_pure _
    · refine Making.Returns.map ?_ some
      refine (part _ _ List.mem_cons_self).bind fun underStorage _ => ?_
      refine (part _ _ (List.mem_cons_of_mem _ (List.mem_singleton_self _))).bind
        fun overStorage _ => ?_
      refine (Making.returns_ofExcept _).bind fun sub _ => ?_
      exact (Making.returns_ofExcept _).bind fun config _ => Making.returns_pure _
    · split
      · exact Making.returns_pure none
      · exact Making.returns_ofExcept _

theorem makePart_made {message : String} {name : Text} {s : StorageTree σ}
    (h : makePart make message pt name = pure s) :
    ∃ sub s', pt.getSubtree name = .ok sub ∧ make sub = pure (some s') := by
  obtain ⟨sub, hsub, h⟩ := Making.bind_eq_pure h
  obtain ⟨made, hmade, h⟩ := Making.bind_eq_pure h
  have helim := Making.ofExcept_eq_pure h
  cases made with
  | none => cases helim
  | some s' => exact ⟨sub, s', Making.ofExcept_eq_pure hsub, hmade⟩

/-- What is made has all of its parts made. -/
theorem createStorage_made {s : StorageTree σ} (h : createStorage m make pt = pure (some s)) :
    ∀ name ∈ pt.asks, ∃ sub s', pt.getSubtree name = .ok sub ∧ make sub = pure (some s') := by
  unfold createStorage at h
  cases htype : pt.get? "type".toList with
  | none =>
    rw [htype] at h
    cases h
  | some type =>
    rw [htype] at h
    simp only [StorageConfig.asks, htype]
    dsimp only at h
    split_ifs at h ⊢ with hunion hstyle hoverlay hcompositing
    · rw [map_eq_pure_bind] at h
      obtain ⟨made, h, _⟩ := Making.bind_eq_pure h
      obtain ⟨names, hnames, h⟩ := Making.bind_eq_pure h
      obtain ⟨storages, hstorages, _⟩ := Making.bind_eq_pure h
      rw [get_of_pure hnames]
      intro name hname
      obtain ⟨s', hs'⟩ := Making.mapM_eq_pure hstorages name hname
      exact makePart_made hs'
    · rw [map_eq_pure_bind] at h
      obtain ⟨made, h, _⟩ := Making.bind_eq_pure h
      obtain ⟨names, hnames, h⟩ := Making.bind_eq_pure h
      obtain ⟨storages, hstorages, h⟩ := Making.bind_eq_pure h
      obtain ⟨deflt, hdeflt, _⟩ := Making.bind_eq_pure h
      rw [get_of_pure hnames]
      intro name hname
      rcases List.mem_append.mp hname with hmem | hmem
      · obtain ⟨s', hs'⟩ := Making.mapM_eq_pure hstorages name hmem
        exact makePart_made hs'
      · exact List.mem_singleton.mp hmem ▸ makePart_made hdeflt
    · rw [map_eq_pure_bind] at h
      obtain ⟨made, h, _⟩ := Making.bind_eq_pure h
      unfold createExpiryOverlay at h
      split at h
      · cases h
      · obtain ⟨name, hname, h⟩ := Making.bind_eq_pure h
        obtain ⟨storage, hstorage, _⟩ := Making.bind_eq_pure h
        rw [get_of_pure hname]
        intro name' hmem
        exact List.mem_singleton.mp hmem ▸ makePart_made hstorage
    · rw [map_eq_pure_bind] at h
      obtain ⟨made, h, _⟩ := Making.bind_eq_pure h
      obtain ⟨underStorage, hunder, h⟩ := Making.bind_eq_pure h
      obtain ⟨overStorage, hover, _⟩ := Making.bind_eq_pure h
      intro name hname
      rcases List.mem_pair.mp hname with rfl | rfl
      · exact makePart_made hunder
      · exact makePart_made hover
    · intro name hname
      cases hname

theorem children_ne_nil_of_asks {name : Text} (h : name ∈ pt.asks) : pt.children ≠ [] := by
  intro hnil
  have htype : pt.get? "type".toList = none := by
    have hfragments : fragments '.' "type".toList = ["type".toList] := by decide
    rw [StorageConfig.get?, hfragments, PropertyTree.look_cons, PropertyTree.child, hnil]
    rfl
  unfold StorageConfig.asks at h
  rw [htype] at h
  cases h

end

variable {σ : Type} (m : Makers σ)

/-- With a name for every part, a storage is made or refused in as many calls as there is to read. -/
theorem getTileStorage_returns {pt : StorageConfig} (named : ∀ d, pt.Below d → [] ∉ d.asks) {n : Nat}
    (h : pt.keySteps < n) : (getTileStorage m n pt).Returns := by
  induction n generalizing pt with
  | zero => exact absurd h (Nat.not_lt_zero _)
  | succ n ih =>
    refine createStorage_returns fun name hname sub hsub => ?_
    have hne : name ≠ [] := fun hnil => named pt .refl (hnil ▸ hname)
    have hless := StorageConfig.keySteps_getSubtree (children_ne_nil_of_asks hname) hne hsub
    refine ih (fun d hd => named d (.head ⟨name, hname, hsub⟩ hd)) ?_
    omega

/-- The part with no name is the whole. -/
theorem getSubtree_nil {pt : StorageConfig} (h : pt.entriesBeneath [] = []) : pt.getSubtree [] = .ok pt := by
  unfold StorageConfig.getSubtree
  rw [h, PropertyTree.fragments_nil]
  rfl

/-- A part of what is made is made. -/
theorem part_made {pt d : StorageConfig} (hbelow : pt.Below d) {n : Nat} {s : StorageTree σ}
    (h : getTileStorage m n pt = pure (some s)) : ∃ n s', getTileStorage m n d = pure (some s') := by
  induction hbelow using Relation.ReflTransGen.head_induction_on generalizing n s with
  | refl => exact ⟨n, s, h⟩
  | head hpart _ ih =>
    obtain ⟨name, hname, hsub⟩ := hpart
    cases n with
    | zero => cases h
    | succ n =>
      obtain ⟨sub, s', hsub', hmade⟩ := createStorage_made h name hname
      obtain rfl := Except.ok.inj (hsub.symm.trans hsub')
      exact ih hmade

/-- A storage that has itself as a part is never made. -/
theorem not_made_of_unnamed {d : StorageConfig} (unnamed : [] ∈ d.asks) (h : d.entriesBeneath [] = [])
    (n : Nat) (s : StorageTree σ) : getTileStorage m n d ≠ pure (some s) := by
  induction n generalizing s with
  | zero => exact fun hmade => nomatch hmade
  | succ n ih =>
    intro hmade
    obtain ⟨sub, s', hsub, hpart⟩ := createStorage_made hmade [] unnamed
    obtain rfl := Except.ok.inj ((getSubtree_nil h).symm.trans hsub)
    exact ih s' hpart

/-- So it is with a comma too many in a list of storages. -/
theorem not_made_of_gap {d : StorageConfig} {names : Text}
    (htype : d.get? "type".toList = some "union".toList)
    (hnames : d.get? "storages".toList = some names)
    (hgap : names.head?.any isGap = true ∨ names.getLast?.any isGap = true)
    (h : d.entriesBeneath [] = []) (n : Nat) (s : StorageTree σ) :
    getTileStorage m n d ≠ pure (some s) := by
  refine not_made_of_unnamed m ?_ h n s
  simp only [StorageConfig.asks, htype, if_pos, hnames]
  exact (nil_mem_splitNames_iff names).mpr (.inr hgap)

/-- **Every configuration is read to its end, unless a part has no name**, here or further down. Where
no key starts with a dot, such a part is the whole configuration again, and nothing is made however often
the maker calls itself.

What the leaves are made of is an argument, and they may fail. A configuration that is read to its end
may still be refused; and with keys that start with a dot nothing is said of a part without a name. -/
theorem storage_is_made_in_time (pt : StorageConfig) :
    ((∀ d, pt.Below d → [] ∉ d.asks) →
      ∀ n, pt.keySteps < n → (getTileStorage m n pt).Returns) ∧
    ∀ d, pt.Below d → [] ∈ d.asks → d.entriesBeneath [] = [] →
      d.getSubtree [] = .ok d ∧ ∀ n s, getTileStorage m n pt ≠ pure (some s) := by
  refine ⟨fun named n hn => getTileStorage_returns m named hn, ?_⟩
  intro d hbelow unnamed h
  refine ⟨getSubtree_nil h, fun n s hmade => ?_⟩
  obtain ⟨n', s', hpart⟩ := part_made m hbelow hmade
  exact not_made_of_unnamed m unnamed h n' s' hpart

/-! ## A comma too many -/

/-- Makers of null storages, and of storages that are made of others. -/
def onlyNull : Makers Unit where
  context := false
  lib := CompositingStorage.textImages
  leaf type := if type = "null".toList then some fun _ => .ok (some ()) else none

/-- A union with a null storage, whose list of storages is this. -/
def unionOf (names : String) : StorageConfig :=
  .node [] [("type".toList, .leaf "union".toList), ("storages".toList, .leaf names.toList),
    ("none.type".toList, .leaf "null".toList)]

theorem unionOf_none_named {d : StorageConfig} (h : (unionOf "none").Below d) : [] ∉ d.asks := by
  rcases Relation.ReflTransGen.cases_head h with rfl | ⟨sub, ⟨name, hname, hsub⟩, hrest⟩
  · decide
  · have hasks : (unionOf "none").asks = ["none".toList] := by decide
    obtain rfl := List.mem_singleton.mp (hasks ▸ hname)
    have hpart : (unionOf "none").getSubtree "none".toList =
        .ok (.node [] [("type".toList, .leaf "null".toList)]) := rfl
    obtain rfl := Except.ok.inj (hpart.symm.trans hsub)
    rcases Relation.ReflTransGen.cases_head hrest with rfl | ⟨sub', ⟨name', hname', _⟩, _⟩
    · decide
    · cases hname'

/-- With the comma the union asks for itself. -/
theorem unionOf_with_comma :
    (∀ n, (unionOf "none").keySteps < n → (getTileStorage onlyNull n (unionOf "none")).Returns) ∧
    (unionOf "none, ").getSubtree [] = .ok (unionOf "none, ") ∧
    ∀ n s, getTileStorage onlyNull n (unionOf "none, ") ≠ pure (some s) :=
  ⟨(storage_is_made_in_time onlyNull (unionOf "none")).1 fun _ h => unionOf_none_named h,
    (storage_is_made_in_time onlyNull (unionOf "none, ")).2 _ .refl (by decide) (by rfl)⟩

end RenderMq
