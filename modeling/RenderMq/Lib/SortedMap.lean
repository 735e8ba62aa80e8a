import RenderMq.Lib.Wheel

/-!
# Maps in the order of their keys

A map is the list of its entries, in ascending order of their keys. An insertion leaves the value of
a key that has one (`insert`), and a value may be changed in place (`modify`).

A map is determined by what it finds (`ext_find`). What a change in place does to the entries as a
whole, in no particular order, is in `modify_perm`.
-/

/-- A map, as its entries in the order of their keys. -/
structure SortedMap (κ α : Type*) [LinearOrder κ] where
  entries : List (κ × α)
  ordered : Wheel.Ordered entries

namespace SortedMap

variable {κ α : Type*} [LinearOrder κ]

def empty : SortedMap κ α := ⟨[], List.Pairwise.nil⟩

/-- The value of a key. -/
def find (m : SortedMap κ α) (k : κ) : Option α :=
  (m.entries.find? fun e => decide (e.1 = k)).map Prod.snd

/-- Give a key a value, unless it has one. -/
def insert (k : κ) (a : α) (m : SortedMap κ α) : SortedMap κ α :=
  ⟨Wheel.insert k a m.entries, m.ordered.insert⟩

/-- Change every value, by its key. -/
def mapValues (f : κ → α → α) (m : SortedMap κ α) : SortedMap κ α where
  entries := m.entries.map fun e => (e.1, f e.1 e.2)
  ordered := by
    refine List.pairwise_map.mpr ?_
    exact m.ordered

/-- Change the value of a key, if it has one. -/
def modify (k : κ) (f : α → α) (m : SortedMap κ α) : SortedMap κ α :=
  m.mapValues fun j a => if j = k then f a else a

variable {m : SortedMap κ α} {k : κ} {a : α}

/-! ## What is found -/

theorem find_eq_some_iff : m.find k = some a ↔ (k, a) ∈ m.entries := by
  rw [find, Option.map_eq_some_iff]
  constructor
  · rintro ⟨⟨j, b⟩, hfound, rfl⟩
    have hkey := List.find?_some hfound
    obtain rfl : j = k := of_decide_eq_true hkey
    exact List.mem_of_find?_eq_some hfound
  · intro hmem
    cases hfound : m.entries.find? fun e => decide (e.1 = k) with
    | none => exact absurd (decide_eq_true rfl) (List.find?_eq_none.mp hfound (k, a) hmem)
    | some e =>
      have hkey := List.find?_some hfound
      replace hkey : e.1 = k := of_decide_eq_true hkey
      refine ⟨e, rfl, ?_⟩
      rw [m.ordered.unique (List.mem_of_find?_eq_some hfound) hmem hkey]

theorem find_eq_none_iff : m.find k = none ↔ ∀ e ∈ m.entries, e.1 ≠ k := by
  simp only [find, Option.map_eq_none_iff, List.find?_eq_none, decide_eq_true_eq, ne_eq]

theorem find_empty (k : κ) : (empty : SortedMap κ α).find k = none := rfl

theorem find_insert (k : κ) (a : α) (m : SortedMap κ α) (j : κ) :
    (m.insert k a).find j = if j = k then (m.find k).or (some a) else m.find j := by
  refine Option.ext fun b => ?_
  rw [find_eq_some_iff, insert, Wheel.mem_insert, ← find_eq_some_iff, ← find_eq_none_iff]
  by_cases hj : j = k
  · subst hj
    rw [if_pos rfl]
    cases hfound : m.find j with
    | none => simp [eq_comm]
    | some c => simp
  · rw [if_neg hj]
    simp [hj]

theorem find_mapValues (f : κ → α → α) (m : SortedMap κ α) (k : κ) :
    (m.mapValues f).find k = (m.find k).map (f k) := by
  refine Option.ext fun b => ?_
  rw [find_eq_some_iff, Option.map_eq_some_iff, mapValues, List.mem_map]
  constructor
  · rintro ⟨⟨j, c⟩, hmem, heq⟩
    obtain ⟨rfl, rfl⟩ := Prod.mk.inj heq
    exact ⟨c, find_eq_some_iff.mpr hmem, rfl⟩
  · rintro ⟨c, hfound, rfl⟩
    exact ⟨(k, c), find_eq_some_iff.mp hfound, rfl⟩

theorem find_modify (k : κ) (f : α → α) (m : SortedMap κ α) (j : κ) :
    (m.modify k f).find j = if j = k then (m.find k).map f else m.find j := by
  rw [modify, find_mapValues]
  by_cases hj : j = k
  · subst hj
    simp
  · simp [hj]

/-- Insert entries, one after the other. -/
def insertAll (l : List (κ × α)) (m : SortedMap κ α) : SortedMap κ α :=
  l.foldl (fun m e => m.insert e.1 e.2) m

theorem find_insertAll (l : List (κ × α)) (k : κ) : ∀ m : SortedMap κ α,
    (m.insertAll l).find k = (m.find k).or ((l.find? fun e => decide (e.1 = k)).map Prod.snd) := by
  induction l with
  | nil => exact fun m => (Option.or_none ..).symm
  | cons e l ih =>
    intro m
    refine (ih (m.insert e.1 e.2)).trans ?_
    rw [find_insert]
    by_cases hk : k = e.1
    · subst hk
      rw [if_pos rfl, List.find?_cons, decide_eq_true rfl]
      cases m.find e.1 <;> rfl
    · rw [if_neg hk, List.find?_cons, decide_eq_false (Ne.symm hk)]

/-- Maps that find the same are the same. -/
theorem ext_find {m n : SortedMap κ α} (h : ∀ k, m.find k = n.find k) : m = n := by
  obtain ⟨entries, ordered⟩ := m
  obtain ⟨entries', ordered'⟩ := n
  have hnodup {l : List (κ × α)} (hl : Wheel.Ordered l) : l.Nodup :=
    List.Pairwise.imp (fun hab heq => absurd (congrArg Prod.fst heq) (ne_of_lt hab)) hl
  have hperm : entries.Perm entries' := by
    refine (List.perm_ext_iff_of_nodup (hnodup ordered) (hnodup ordered')).mpr fun e => ?_
    have hsame := h e.1
    constructor
    · intro hmem
      exact find_eq_some_iff.mp (hsame.symm.trans (find_eq_some_iff.mpr hmem))
    · intro hmem
      exact find_eq_some_iff.mp (hsame.trans (find_eq_some_iff.mpr hmem))
  have heq : entries = entries' :=
    hperm.eq_of_pairwise (fun a b _ _ hab hba => absurd hab (lt_asymm hba)) ordered ordered'
  subst heq
  rfl

/-- A map is made of its entries, in any order. -/
theorem insertAll_of_perm {l : List (κ × α)} (hperm : l.Perm m.entries) : empty.insertAll l = m := by
  refine ext_find fun k => ?_
  rw [find_insertAll, find_empty, Option.none_or]
  cases hfound : l.find? fun e => decide (e.1 = k) with
  | none =>
    refine (find_eq_none_iff.mpr fun e he => ?_).symm
    simpa using List.find?_eq_none.mp hfound e (hperm.mem_iff.mpr he)
  | some e =>
    have hkey := List.find?_some hfound
    obtain rfl : e.1 = k := of_decide_eq_true hkey
    exact (find_eq_some_iff.mpr (hperm.mem_iff.mp (List.mem_of_find?_eq_some hfound))).symm

/-! ## The entries as a whole -/

theorem insert_perm (hfree : m.find k = none) : (m.insert k a).entries.Perm ((k, a) :: m.entries) := by
  have hany : ¬ (m.entries.any fun e => decide (e.1 = k)) = true := by
    rw [List.any_eq_true]
    rintro ⟨e, he, hkey⟩
    exact find_eq_none_iff.mp hfree e he (of_decide_eq_true hkey)
  show (Wheel.insert k a m.entries).Perm _
  unfold Wheel.insert
  rw [if_neg hany]
  exact OrderedIndex.insert_perm Prod.fst (k, a) m.entries

/-- An entry is the only one of its key. -/
theorem entries_split (hfound : m.find k = some a) :
    ∃ before after, m.entries = before ++ (k, a) :: after ∧ ∀ e ∈ before ++ after, e.1 ≠ k := by
  obtain ⟨before, after, hsplit⟩ := List.append_of_mem (find_eq_some_iff.mp hfound)
  refine ⟨before, after, hsplit, fun e he hkey => ?_⟩
  have hordered := m.ordered
  rw [hsplit] at hordered
  obtain ⟨_, hafter, hbefore⟩ := List.pairwise_append.mp hordered
  rcases List.mem_append.mp he with he | he
  · exact ne_of_lt (hbefore e he (k, a) List.mem_cons_self) hkey
  · exact ne_of_gt ((List.pairwise_cons.mp hafter).1 e he) hkey

theorem modify_perm (f : α → α) (hfound : m.find k = some a) :
    ∃ rest, m.entries.Perm ((k, a) :: rest) ∧ (m.modify k f).entries.Perm ((k, f a) :: rest) := by
  obtain ⟨before, after, hsplit, hother⟩ := entries_split hfound
  have hperm : m.entries.Perm ((k, a) :: (before ++ after)) := hsplit ▸ List.perm_middle
  have hkeep : ∀ e ∈ before ++ after, (e.1, if e.1 = k then f e.2 else e.2) = e := by
    intro e he
    rw [if_neg (hother e he)]
  refine ⟨before ++ after, hperm, ?_⟩
  refine (hperm.map fun e => (e.1, if e.1 = k then f e.2 else e.2)).trans ?_
  rw [List.map_cons, if_pos rfl, List.map_congr_left hkeep, List.map_id']

/-- The entries of a key. -/
theorem filter_key (m : SortedMap κ α) (k : κ) :
    (m.entries.filter fun e => decide (e.1 = k)) = (m.find k).toList.map (Prod.mk k) := by
  cases hfound : m.find k with
  | none =>
    refine List.filter_eq_nil_iff.mpr fun e he => ?_
    simpa using find_eq_none_iff.mp hfound e he
  | some a =>
    obtain ⟨before, after, hsplit, hother⟩ := entries_split hfound
    have hnone {l : List (κ × α)} (hl : ∀ e ∈ l, e.1 ≠ k) :
        (l.filter fun e => decide (e.1 = k)) = [] :=
      List.filter_eq_nil_iff.mpr fun e he => by simpa using hl e he
    rw [hsplit, List.filter_append, List.filter_cons,
      hnone fun e he => hother e (List.mem_append_left _ he),
      hnone fun e he => hother e (List.mem_append_right _ he), if_pos (decide_eq_true rfl)]
    rfl

end SortedMap
