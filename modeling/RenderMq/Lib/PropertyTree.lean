import Mathlib.Algebra.GroupWithZero.Nat
import Mathlib.Data.List.Basic
import Mathlib.Data.List.Infix
import Mathlib.Data.List.Perm.Basic

/-!
# Property trees

A tree has data and, in order, children with keys. A key may occur more than once; the first child that
has it is the one that is found. To put data at the end of a path makes what is missing of the path.

`look` is what there is at the end of a path, and `same` trees have the same there. What some data was
put in, one after the other, is looked up as in the list of it (`look_puts`).

A text stands for a path whose steps are written with a separator between them (`fragments`).
-/

inductive PropertyTree (κ ν : Type) where
  | node (data : ν) (children : List (κ × PropertyTree κ ν))

namespace PropertyTree

variable {κ ν : Type}

def data : PropertyTree κ ν → ν
  | .node data _ => data

def children : PropertyTree κ ν → List (κ × PropertyTree κ ν)
  | .node _ children => children

@[simp] theorem data_node (data : ν) (children : List (κ × PropertyTree κ ν)) :
    (node data children).data = data := rfl

@[simp] theorem children_node (data : ν) (children : List (κ × PropertyTree κ ν)) :
    (node data children).children = children := rfl

def leaf (data : ν) : PropertyTree κ ν := .node data []

/-- A tree with nothing in it. -/
def empty [Inhabited ν] : PropertyTree κ ν := leaf default

theorem lookup_cons_if {α β : Type} [BEq α] [LawfulBEq α] [DecidableEq α] (a b : α) (v : β)
    (rest : List (α × β)) :
    ((b, v) :: rest).lookup a = if a = b then some v else rest.lookup a := by
  rw [List.lookup_cons]
  by_cases h : a = b
  · rw [if_pos h, h, beq_self_eq_true]
  · rw [if_neg h, beq_false_of_ne h]

/-! ## Weights -/

section
variable (w : κ → Nat)

mutual
/-- The weights of all keys of a tree. -/
def weight : PropertyTree κ ν → Nat
  | .node _ children => weights children
def weights : List (κ × PropertyTree κ ν) → Nat
  | [] => 0
  | (k, t) :: rest => w k + weight t + weights rest
end

theorem weight_eq (t : PropertyTree κ ν) : t.weight w = weights w t.children := by
  cases t
  rfl

end

/-! ## Paths -/

variable [DecidableEq κ]

/-- The first child with a key. -/
def child (k : κ) (t : PropertyTree κ ν) : Option (PropertyTree κ ν) := t.children.lookup k

theorem child_cons (j k : κ) (data : ν) (t : PropertyTree κ ν) (rest : List (κ × PropertyTree κ ν)) :
    (node data ((k, t) :: rest)).child j = if j = k then some t else (node data rest).child j :=
  lookup_cons_if j k t rest

/-- The tree at the end of a path. -/
def walk : List κ → PropertyTree κ ν → Option (PropertyTree κ ν)
  | [], t => some t
  | k :: path, t => (t.child k).bind (walk path)

/-- The data at the end of a path. -/
def look (path : List κ) (t : PropertyTree κ ν) : Option ν := (t.walk path).map data

/-- Change the first child with a key, or a new one at the end. -/
def alter [Inhabited ν] (f : PropertyTree κ ν → PropertyTree κ ν) (k : κ) :
    List (κ × PropertyTree κ ν) → List (κ × PropertyTree κ ν)
  | [] => [(k, f empty)]
  | (j, t) :: rest => if k = j then (j, f t) :: rest else (j, t) :: alter f k rest

/-- Put data at the end of a path. -/
def put [Inhabited ν] (data : ν) : List κ → PropertyTree κ ν → PropertyTree κ ν
  | [], t => .node data t.children
  | k :: path, t => .node t.data (alter (put data path) k t.children)

/-- Put data at the ends of paths, in turn. -/
def puts [Inhabited ν] (entries : List (List κ × ν)) (t : PropertyTree κ ν) : PropertyTree κ ν :=
  entries.foldl (fun t e => t.put e.2 e.1) t

/-- All keys of a tree, those that are found, are such. -/
def AllKeys (P : κ → Prop) (t : PropertyTree κ ν) : Prop :=
  ∀ path u, t.walk path = some u → ∀ e ∈ u.children, P e.1

/-- The same data at the end of every path that goes anywhere. -/
def Same (t u : PropertyTree κ ν) : Prop := ∀ path ≠ [], t.look path = u.look path

variable {t u : PropertyTree κ ν} {k : κ}

@[simp] theorem look_nil (t : PropertyTree κ ν) : t.look ([] : List κ) = some t.data := rfl

theorem look_cons (k : κ) (path : List κ) (t : PropertyTree κ ν) :
    t.look (k :: path) = (t.child k).bind (look path) := by
  unfold look
  rw [walk, Option.map_bind]
  rfl

theorem look_leaf (data : ν) {path : List κ} (h : path ≠ []) :
    (leaf data : PropertyTree κ ν).look path = none := by
  cases path with
  | nil => exact absurd rfl h
  | cons k path => rfl

theorem look_empty [Inhabited ν] {path : List κ} (h : path ≠ []) :
    (empty : PropertyTree κ ν).look path = none :=
  look_leaf default h

/-! ## Beneath a key -/

theorem AllKeys.child {P : κ → Prop} (h : t.AllKeys P) (hchild : t.child k = some u) :
    u.AllKeys P := by
  intro path v hwalk
  refine h (k :: path) v ?_
  rw [walk, hchild, Option.bind_some, hwalk]

omit [DecidableEq κ] in
theorem weights_filter_le (w : κ → Nat) (Q : κ → Bool) (children : List (κ × PropertyTree κ ν)) :
    ((children.filter (Q ·.1)).map (w ·.1)).sum ≤ weights w children := by
  induction children with
  | nil => exact Nat.le_refl _
  | cons e rest ih =>
    rw [weights, List.filter_cons]
    split
    · rw [List.map_cons, List.sum_cons]
      omega
    · omega

theorem allKeys_leaf (P : κ → Prop) (data : ν) : (leaf data : PropertyTree κ ν).AllKeys P := by
  intro path u hwalk e he
  cases path with
  | nil =>
    obtain rfl := Option.some.inj hwalk
    cases he
  | cons k path => cases hwalk

/-- A child weighs no more than its tree, less its own key and the keys that some others have. -/
theorem weights_child_le (w : κ → Nat) {Q : κ → Bool} (hk : Q k = false)
    {children : List (κ × PropertyTree κ ν)} (h : children.lookup k = some u) :
    w k + u.weight w + ((children.filter (Q ·.1)).map (w ·.1)).sum ≤ weights w children := by
  induction children with
  | nil => cases h
  | cons e rest ih =>
    obtain ⟨j, c⟩ := e
    rw [lookup_cons_if] at h
    rw [weights, List.filter_cons]
    split at h
    · rename_i hj
      obtain rfl := Option.some.inj h
      obtain rfl := hj
      have := weights_filter_le w Q rest
      rw [if_neg (by simp [hk])]
      omega
    · have := ih h
      split
      · simp only [List.map_cons, List.sum_cons]
        omega
      · omega

theorem weight_walk_le (w : κ → Nat) {path : List κ} (h : t.walk path = some u) :
    u.weight w ≤ t.weight w := by
  induction path generalizing t with
  | nil => exact Option.some.inj h ▸ Nat.le_refl _
  | cons k path ih =>
    obtain ⟨c, hc, hrest⟩ := Option.bind_eq_some_iff.mp h
    have hchild := @weights_child_le _ _ _ c k w (fun _ => false) rfl _ hc
    rw [← weight_eq] at hchild
    have := ih hrest
    omega

/-! ## Lists of data -/

/-- The part of a list of data that is beneath a key. -/
def strip (k : κ) (entries : List (List κ × ν)) : List (List κ × ν) :=
  entries.filterMap fun e =>
    match e.1 with
    | [] => none
    | j :: path => if j = k then some (path, e.2) else none

theorem strip_append (k : κ) (entries rest : List (List κ × ν)) :
    strip k (entries ++ rest) = strip k entries ++ strip k rest :=
  List.filterMap_append

theorem strip_beneath (k : κ) (entries : List (List κ × ν)) (j : κ) :
    strip k (entries.map fun e => (j :: e.1, e.2)) = if j = k then entries else [] := by
  rw [strip, List.filterMap_map]
  by_cases h : j = k
  · simp [h]
  · simp [h]

theorem strip_cons (k j : κ) (path : List κ) (data : ν) (entries : List (List κ × ν)) :
    strip k ((j :: path, data) :: entries) =
      if j = k then (path, data) :: strip k entries else strip k entries := by
  unfold strip
  rw [List.filterMap_cons]
  by_cases h : j = k
  · simp only [if_pos h]
  · simp only [if_neg h]

theorem mem_strip {k : κ} {entries : List (List κ × ν)} {e : List κ × ν} (h : e ∈ strip k entries) :
    (k :: e.1, e.2) ∈ entries := by
  obtain ⟨⟨path, data⟩, hmem, hstrip⟩ := List.mem_filterMap.mp h
  cases path with
  | nil => cases hstrip
  | cons j path =>
    dsimp only at hstrip
    split at hstrip
    · rename_i hj
      obtain rfl := Option.some.inj hstrip
      exact hj ▸ hmem
    · cases hstrip

theorem nodup_strip {k : κ} {entries : List (List κ × ν)} (nodup : (entries.map Prod.fst).Nodup) :
    ((strip k entries).map Prod.fst).Nodup := by
  induction entries with
  | nil => exact nodup
  | cons e rest ih =>
    obtain ⟨path, data⟩ := e
    obtain ⟨hpath, hrest⟩ := List.nodup_cons.mp nodup
    cases path with
    | nil => exact ih hrest
    | cons j path =>
      rw [strip_cons]
      split
      · rename_i hj
        refine List.nodup_cons.mpr ⟨fun hmem => hpath ?_, ih hrest⟩
        obtain ⟨e, he, hpe⟩ := List.mem_map.mp hmem
        exact List.mem_map.mpr ⟨_, mem_strip he, by rw [hj]; exact congrArg (List.cons k) hpe⟩
      · exact ih hrest

/-- Lists that are beneath different keys are taken apart again. -/
theorem strip_flatMap {parts : List (κ × List (List κ × ν))} (nodup : (parts.map Prod.fst).Nodup)
    {part : κ × List (List κ × ν)} (h : part ∈ parts) :
    strip part.1 (parts.flatMap fun p => p.2.map fun e => (p.1 :: e.1, e.2)) = part.2 := by
  have other : ∀ parts : List (κ × List (List κ × ν)), part.1 ∉ parts.map Prod.fst →
      strip part.1 (parts.flatMap fun p => p.2.map fun e => (p.1 :: e.1, e.2)) = [] := by
    intro parts hpart
    induction parts with
    | nil => rfl
    | cons p rest ih =>
      rw [List.map_cons, List.mem_cons, not_or] at hpart
      rw [List.flatMap_cons, strip_append, strip_beneath, if_neg fun h => hpart.1 h.symm, ih hpart.2]
      rfl
  induction parts with
  | nil => cases h
  | cons p rest ih =>
    obtain ⟨hp, hrest⟩ := List.nodup_cons.mp nodup
    rw [List.flatMap_cons, strip_append, strip_beneath]
    rcases List.mem_cons.mp h with rfl | hmem
    · rw [if_pos rfl, other rest hp, List.append_nil]
    · have hne : p.1 ≠ part.1 := fun heq => hp (List.mem_map.mpr ⟨part, hmem, heq.symm⟩)
      rw [if_neg hne, List.nil_append, ih hrest hmem]

/-! ## What was put -/

section
variable [Inhabited ν]

theorem lookup_alter (f : PropertyTree κ ν → PropertyTree κ ν) (k j : κ)
    (children : List (κ × PropertyTree κ ν)) :
    (alter f k children).lookup j =
      if j = k then some (f ((children.lookup k).getD empty)) else children.lookup j := by
  induction children with
  | nil => rw [alter, lookup_cons_if]; rfl
  | cons e rest ih =>
    obtain ⟨i, t⟩ := e
    by_cases hi : k = i
    · obtain rfl := hi
      rw [alter, if_pos rfl]
      simp only [lookup_cons_if, if_true, Option.getD_some]
      by_cases hj : j = k <;> simp only [hj, if_true, if_false]
    · rw [alter, if_neg hi]
      simp only [lookup_cons_if, ih, if_neg hi]
      by_cases hj : j = i
      · have hjk : j ≠ k := fun h => hi (h.symm.trans hj)
        rw [if_pos hj, if_neg hjk, if_pos hj]
      · rw [if_neg hj, if_neg hj]

theorem child_put (data : ν) (k j : κ) (path : List κ) (t : PropertyTree κ ν) :
    (t.put data (k :: path)).child j =
      if j = k then some (((t.child k).getD empty).put data path) else t.child j :=
  lookup_alter _ _ _ _

theorem look_put (data : ν) (path q : List κ) (t : PropertyTree κ ν) :
    (t.put data path).look q =
      if q = path then some data
      else if q <+: path then some ((t.look q).getD default) else t.look q := by
  induction path generalizing t q with
  | nil =>
    cases q with
    | nil => rfl
    | cons j q => simp [put, look_cons, child]
  | cons k path ih =>
    cases q with
    | nil => simp [put]
    | cons j q =>
      rw [look_cons, child_put, look_cons]
      by_cases hj : j = k
      · obtain rfl := hj
        rw [if_pos rfl, Option.bind_some, ih]
        simp only [List.cons.injEq, true_and, List.cons_prefix_cons]
        cases t.child j with
        | some c => rfl
        | none =>
          cases q with
          | nil => rfl
          | cons i q => rfl
      · simp [hj]

/-- What a list of data shows at a path: what it has for the path, or that it goes on from there. -/
def shown (entries : List (List κ × ν)) (path : List κ) : Option ν :=
  match entries.lookup path with
  | some data => some data
  | none => if entries.any (fun e => path <+: e.1) then some default else none

theorem shown_cons_if (path q : List κ) (data : ν) (entries : List (List κ × ν)) :
    shown ((path, data) :: entries) q =
      if q = path then some data
      else match shown entries q with
        | some data => some data
        | none => if q <+: path then some default else none := by
  unfold shown
  rw [lookup_cons_if]
  by_cases h : q = path
  · simp [h]
  · rw [if_neg h, if_neg h]
    cases entries.lookup q with
    | some data => rfl
    | none =>
      by_cases hpre : q <+: path <;> cases hany : entries.any (fun e => q <+: e.1) <;>
        simp [hpre, hany]

theorem shown_of_mem {entries : List (List κ × ν)} (nodup : (entries.map Prod.fst).Nodup)
    {e : List κ × ν} (h : e ∈ entries) : shown entries e.1 = some e.2 := by
  induction entries with
  | nil => cases h
  | cons e' rest ih =>
    obtain ⟨he', hrest⟩ := List.nodup_cons.mp nodup
    obtain ⟨path, data⟩ := e'
    rw [shown_cons_if]
    rcases List.mem_cons.mp h with rfl | hmem
    · rw [if_pos rfl]
    · have hne : e.1 ≠ path := fun heq => he' (List.mem_map.mpr ⟨e, hmem, heq⟩)
      rw [if_neg hne, ih hrest hmem]

/-- What is put at the root does not show elsewhere. -/
theorem shown_filter_ne_nil (entries : List (List κ × ν)) {q : List κ} (h : q ≠ []) :
    shown (entries.filter fun e => e.1 ≠ []) q = shown entries q := by
  induction entries with
  | nil => rfl
  | cons e rest ih =>
    obtain ⟨path, data⟩ := e
    rw [shown_cons_if, List.filter_cons]
    by_cases hpath : path = []
    · have hpre : ¬ q <+: path := fun hpre => h (List.prefix_nil.mp (hpath ▸ hpre))
      rw [if_neg (by simp [hpath]), ih, if_neg (hpath ▸ h), if_neg hpre]
      cases shown rest q <;> rfl
    · rw [if_pos (by simp [hpath]), shown_cons_if, ih]

/-- What is shown beneath a key. -/
theorem shown_cons (k : κ) (path : List κ) (entries : List (List κ × ν)) :
    shown entries (k :: path) = shown (strip k entries) path := by
  induction entries with
  | nil => rfl
  | cons e rest ih =>
    obtain ⟨q, data⟩ := e
    cases q with
    | nil =>
      have hstrip : strip k (([], data) :: rest) = strip k rest := rfl
      have hpre : ¬ (k :: path) <+: [] := fun h => List.cons_ne_nil _ _ (List.prefix_nil.mp h)
      rw [hstrip, shown_cons_if, ih, if_neg (List.cons_ne_nil _ _), if_neg hpre]
      cases shown (strip k rest) path <;> rfl
    | cons j q =>
      rw [strip_cons, shown_cons_if, ih]
      simp only [List.cons.injEq, List.cons_prefix_cons]
      by_cases hj : j = k
      · obtain rfl := hj
        rw [if_pos rfl, shown_cons_if]
        simp only [true_and]
      · have hkj : ¬ k = j := fun h => hj h.symm
        rw [if_neg hj]
        simp only [hkj, false_and, if_false]
        cases shown (strip k rest) path <;> rfl

/-- What lists show does not depend on their order, if no path is given twice. -/
theorem shown_perm {entries entries' : List (List κ × ν)} (perm : entries.Perm entries')
    (nodup : (entries.map Prod.fst).Nodup) (path : List κ) : shown entries path = shown entries' path := by
  induction perm with
  | nil => rfl
  | cons e _ ih =>
    rw [shown_cons_if, shown_cons_if, ih (List.nodup_cons.mp nodup).2]
  | swap e e' rest =>
    have hne : e.1 ≠ e'.1 := by
      rintro h
      simp [h] at nodup
    rw [shown_cons_if, shown_cons_if, shown_cons_if, shown_cons_if]
    by_cases h : path = e.1
    · have h' : path ≠ e'.1 := fun h' => hne (h.symm.trans h')
      rw [if_pos h, if_neg h', if_pos h]
    · by_cases h' : path = e'.1
      · simp only [if_neg h, if_pos h']
      · simp only [if_neg h, if_neg h']
        cases shown rest path with
        | some data => rfl
        | none => by_cases hp : path <+: e.1 <;> by_cases hp' : path <+: e'.1 <;> simp [hp, hp']
  | trans perm _ ih ih' =>
    exact (ih nodup).trans (ih' ((perm.map Prod.fst).nodup_iff.mp nodup))

/-- **What was put is looked up as in the list of it**, if no path is given twice. -/
theorem look_puts (entries : List (List κ × ν)) (nodup : (entries.map Prod.fst).Nodup)
    (t : PropertyTree κ ν) (q : List κ) :
    (puts entries t).look q =
      match entries.lookup q with
      | some data => some data
      | none =>
        if entries.any (fun e => q <+: e.1) then some ((t.look q).getD default) else t.look q := by
  induction entries generalizing t with
  | nil => rfl
  | cons e rest ih =>
    obtain ⟨path, data⟩ := e
    obtain ⟨hpath, hrest⟩ := List.nodup_cons.mp nodup
    have hputs : puts ((path, data) :: rest) t = puts rest (t.put data path) := rfl
    rw [hputs, ih hrest, look_put, lookup_cons_if]
    by_cases h : q = path
    · have hnone : rest.lookup q = none := by
        rw [List.lookup_eq_none_iff]
        intro e he
        have hne : q ≠ e.1 := fun hq => hpath (List.mem_map.mpr ⟨e, he, hq.symm.trans h⟩)
        exact bne_iff_ne.mpr hne
      rw [hnone, if_pos h, if_pos h]
      simp
    · rw [if_neg h, if_neg h]
      cases rest.lookup q with
      | some data' => rfl
      | none =>
        by_cases hpre : q <+: path <;> cases hany : rest.any (fun e => q <+: e.1) <;>
          simp [hpre, hany]

theorem look_puts_empty {entries : List (List κ × ν)} (nodup : (entries.map Prod.fst).Nodup)
    {q : List κ} (h : q ≠ []) : (puts entries empty).look q = shown entries q := by
  rw [look_puts entries nodup, look_empty h]
  rfl

/-! ## Keys and weights -/

theorem mem_alter {f : PropertyTree κ ν → PropertyTree κ ν} {k : κ}
    {children : List (κ × PropertyTree κ ν)} {e : κ × PropertyTree κ ν}
    (h : e ∈ alter f k children) : e.1 = k ∨ ∃ e' ∈ children, e'.1 = e.1 := by
  induction children with
  | nil =>
    obtain rfl := List.mem_singleton.mp h
    exact .inl rfl
  | cons e' rest ih =>
    obtain ⟨j, t⟩ := e'
    rw [alter] at h
    split at h
    · rename_i hk
      rcases List.mem_cons.mp h with rfl | hmem
      · exact .inl hk.symm
      · exact .inr ⟨e, List.mem_cons_of_mem _ hmem, rfl⟩
    · rcases List.mem_cons.mp h with rfl | hmem
      · exact .inr ⟨_, List.mem_cons_self, rfl⟩
      · rcases ih hmem with hk | ⟨e', he', heq⟩
        · exact .inl hk
        · exact .inr ⟨e', List.mem_cons_of_mem _ he', heq⟩

theorem allKeys_empty (P : κ → Prop) : (empty : PropertyTree κ ν).AllKeys P := allKeys_leaf P default

theorem AllKeys.put {P : κ → Prop} (h : t.AllKeys P) (data : ν) {path : List κ}
    (hpath : ∀ k ∈ path, P k) : (t.put data path).AllKeys P := by
  induction path generalizing t with
  | nil =>
    intro q u hwalk e he
    cases q with
    | nil =>
      obtain rfl := Option.some.inj hwalk
      exact h [] t rfl e he
    | cons j q => exact h (j :: q) u hwalk e he
  | cons k path ih =>
    obtain ⟨hk, hrest⟩ := List.forall_mem_cons.mp hpath
    intro q u hwalk e he
    cases q with
    | nil =>
      obtain rfl := Option.some.inj hwalk
      rcases mem_alter he with heq | ⟨e', he', heq⟩
      · exact heq ▸ hk
      · exact heq ▸ h [] t rfl e' he'
    | cons j q =>
      rw [PropertyTree.walk, child_put] at hwalk
      by_cases hj : j = k
      · rw [if_pos hj, Option.bind_some] at hwalk
        have hbase : ((t.child k).getD empty).AllKeys P := by
          cases hc : t.child k with
          | none => exact allKeys_empty P
          | some c => exact h.child hc
        exact ih hbase hrest q u hwalk e he
      · rw [if_neg hj] at hwalk
        exact h (j :: q) u hwalk e he

theorem AllKeys.puts {P : κ → Prop} (h : t.AllKeys P) {entries : List (List κ × ν)}
    (hentries : ∀ e ∈ entries, ∀ k ∈ e.1, P k) : (puts entries t).AllKeys P := by
  induction entries generalizing t with
  | nil => exact h
  | cons e rest ih =>
    obtain ⟨he, hrest⟩ := List.forall_mem_cons.mp hentries
    exact ih (h.put e.2 he) hrest

theorem weights_alter_le {w : κ → Nat} {f : PropertyTree κ ν → PropertyTree κ ν} {n : Nat}
    (hf : ∀ t, (f t).weight w ≤ t.weight w + n) (k : κ) (children : List (κ × PropertyTree κ ν)) :
    weights w (alter f k children) ≤ weights w children + (w k + n) := by
  induction children with
  | nil =>
    have hempty : (empty : PropertyTree κ ν).weight w = 0 := rfl
    have h := hf empty
    simp only [alter, weights]
    omega
  | cons e rest ih =>
    obtain ⟨j, t⟩ := e
    have h := hf t
    rw [alter]
    split <;> simp only [weights] <;> omega

/-- To put data somewhere adds no more than its path. -/
theorem weight_put_le (w : κ → Nat) (data : ν) (path : List κ) (t : PropertyTree κ ν) :
    (t.put data path).weight w ≤ t.weight w + (path.map w).sum := by
  induction path generalizing t with
  | nil =>
    rw [put, weight_eq, children_node, ← weight_eq]
    exact Nat.le_refl _
  | cons k path ih =>
    rw [put, weight_eq, children_node, weight_eq, List.map_cons, List.sum_cons]
    exact weights_alter_le (ih ·) k t.children

end

/-! ## Texts that stand for paths -/

section
variable {α : Type} [DecidableEq α]

/-- The steps of a path: a separator at the end is not followed by a step. -/
def fragments (sep : α) (key : List α) : List (List α) :=
  if (key.splitOn sep).getLast? = some [] then (key.splitOn sep).dropLast else key.splitOn sep

/-- A step that can be written: it is not empty, and has no separator in it. -/
def IsFragment (sep : α) (key : List α) : Prop := key ≠ [] ∧ sep ∉ key

variable {sep : α} {path : List (List α)} {name : List α}

@[simp] theorem fragments_nil (sep : α) : fragments sep [] = [] := by
  rw [fragments, List.splitOn_nil]
  rfl

theorem fragments_ne_nil (h : name ≠ []) : fragments sep name ≠ [] := by
  intro hnil
  refine h ?_
  have hjoin : [sep].intercalate (name.splitOn sep) = name := List.intercalate_splitOn sep
  unfold fragments at hnil
  split at hnil
  · rename_i hlast
    obtain ⟨front, hfront⟩ := List.getLast?_eq_some_iff.mp hlast
    rw [hfront, List.dropLast_concat] at hnil
    rw [← hjoin, hfront, hnil]
    rfl
  · exact absurd hnil (List.splitOn_ne_nil sep name)

theorem length_fragments_le (sep : α) (key : List α) :
    (fragments sep key).length ≤ (key.splitOn sep).length := by
  unfold fragments
  split
  · rw [List.length_dropLast]
    omega
  · exact Nat.le_refl _

/-- A path that is written is read. -/
theorem fragments_intercalate (hne : path ≠ []) (h : ∀ k ∈ path, IsFragment sep k) :
    fragments sep ([sep].intercalate path) = path := by
  have hsplit := List.splitOn_intercalate sep (fun k hk => (h k hk).2) hne
  rw [fragments, hsplit, if_neg]
  intro hlast
  exact (h [] (List.mem_of_getLast? hlast)).1 rfl

theorem fragments_of_isFragment (h : IsFragment sep name) : fragments sep name = [name] := by
  have hsplit := List.splitOn_eq_singleton h.2
  rw [fragments, hsplit, if_neg]
  intro hlast
  exact h.1 (Option.some.inj hlast)

theorem not_mem_of_mem_splitOn {key : List α} : ∀ k ∈ key.splitOn sep, sep ∉ k := by
  induction key with
  | nil => simp
  | cons c key ih =>
    rw [List.splitOn_cons_eq_if_modifyHead]
    split
    · exact List.forall_mem_cons.mpr ⟨List.not_mem_nil, ih⟩
    · rename_i hc
      have hne : sep ≠ c := fun h => hc (beq_iff_eq.mpr h.symm)
      cases hsplit : key.splitOn sep with
      | nil => exact absurd hsplit (List.splitOn_ne_nil sep key)
      | cons head rest =>
        obtain ⟨hhead, hrest⟩ := List.forall_mem_cons.mp (hsplit ▸ ih)
        refine List.forall_mem_cons.mpr ⟨?_, hrest⟩
        rw [List.mem_cons, not_or]
        exact ⟨hne, hhead⟩

theorem not_mem_of_mem_fragments {key : List α} : ∀ k ∈ fragments sep key, sep ∉ k := by
  intro k hk
  unfold fragments at hk
  split at hk
  · exact not_mem_of_mem_splitOn k (List.dropLast_subset _ hk)
  · exact not_mem_of_mem_splitOn k hk

/-- A written path starts with a step and a separator if it starts with the step and goes on. -/
theorem prefix_intercalate_iff (hname : sep ∉ name) (h : ∀ k ∈ path, IsFragment sep k) :
    name ++ [sep] <+: [sep].intercalate path ↔ ∃ rest ≠ [], path = name :: rest := by
  constructor
  · rintro ⟨tail, htail⟩
    have hne : path ≠ [] := by
      rintro rfl
      simp at htail
    have hsplit := List.splitOn_intercalate sep (fun k hk => (h k hk).2) hne
    rw [← htail, List.append_assoc, List.singleton_append, List.splitOn_append_cons_self,
      List.splitOn_eq_singleton hname] at hsplit
    exact ⟨tail.splitOn sep, List.splitOn_ne_nil sep tail, hsplit.symm⟩
  · rintro ⟨rest, hrest, rfl⟩
    rw [List.intercalate_cons_of_ne_nil hrest]
    exact List.prefix_append _ _

omit [DecidableEq α] in
/-- What is written of a path after its first step. -/
theorem drop_intercalate {rest : List (List α)} (hrest : rest ≠ []) :
    ([sep].intercalate (name :: rest)).drop (name ++ [sep]).length = [sep].intercalate rest := by
  rw [List.intercalate_cons_of_ne_nil hrest, List.drop_left]

end

end PropertyTree
