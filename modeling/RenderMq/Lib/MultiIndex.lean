import RenderMq.Lib.OrderedIndex
import Mathlib.Data.List.Nodup
import Mathlib.Data.List.Perm.Lattice

/-!
# A container with one identity and two orders

A multi-index container: its elements are distinguished by an identity, and stand in two ordered
indices at once, each with a key of its own. The hashed index on the identity is not stored: it
finds what the first ordered index holds.

The container carries its own consistency. The two indices hold the same elements, each in the
order of its key, and no identity occurs twice. An operation that could break this cannot be
written, so a lemma about a container never asks for it again.

Insertion refuses an identity that is present. A change (`Modifier`) must keep the identity; it may
change either key, and then each index relinks the element on its own.

The view that programs are verified against is `find`: what an identity stands for. Each operation
has one `find` law, and one permutation law for counting arguments.
-/

open OrderedIndex

/-- The container. The fields after the two indices are its invariant. -/
structure MultiIndex {α ι κ₁ κ₂ : Type*} [LinearOrder κ₁] [LinearOrder κ₂]
    (ident : α → ι) (key₁ : α → κ₁) (key₂ : α → κ₂) where
  first : List α
  second : List α
  same : second.Perm first
  sorted₁ : Sorted key₁ first
  sorted₂ : Sorted key₂ second
  unique : (first.map ident).Nodup

namespace MultiIndex

variable {α ι κ₁ κ₂ : Type*} [LinearOrder κ₁] [LinearOrder κ₂] [DecidableEq ι]
variable {ident : α → ι} {key₁ : α → κ₁} {key₂ : α → κ₂}

/-! ## What one index does -/

/-- A change of an element that keeps its identity. -/
structure Modifier (ident : α → ι) where
  run : α → α
  keeps : ∀ a, ident (run a) = ident a

/-- Change the elements with one identity and leave the others. -/
def Modifier.at (f : Modifier ident) (i : ι) (a : α) : α := if ident a = i then f.run a else a

omit [LinearOrder κ₁] [LinearOrder κ₂] in
theorem Modifier.ident_at (f : Modifier ident) (i : ι) (a : α) :
    ident (f.at i a) = ident a := by
  unfold Modifier.at
  split
  · exact f.keeps a
  · rfl

omit [LinearOrder κ₂] in
/-- With unique identities, changing the first element of an identity changes every one. -/
theorem modify_perm_map {l : List α} (unique : (l.map ident).Nodup) (f : Modifier ident) (i : ι) :
    (modify key₁ (fun a => decide (ident a = i)) f.run l).Perm (l.map (f.at i)) := by
  rcases split_first (fun a => decide (ident a = i)) l with
    hnone | ⟨before, a, after, rfl, hb, ha⟩
  · rw [modify_of_none hnone]
    have hid : l.map (f.at i) = l := by
      refine (List.map_congr_left fun b hb => ?_).trans (List.map_id l)
      have hne : ident b ≠ i := by simpa using hnone b hb
      simp [Modifier.at, hne]
    rw [hid]
  · refine (modify_perm_of_split hb ha).trans (List.Perm.of_eq ?_)
    have hai : ident a = i := by simpa using ha
    have hnot : ∀ b ∈ after, ident b ≠ i := by
      intro b hbm heq
      rw [List.map_append, List.map_cons] at unique
      have hcons := (List.nodup_append.mp unique).2.1
      exact (List.nodup_cons.mp hcons).1 (List.mem_map.mpr ⟨b, hbm, heq.trans hai.symm⟩)
    have hleft : before.map (f.at i) = before := by
      refine (List.map_congr_left fun b hb' => ?_).trans (List.map_id before)
      have hne : ident b ≠ i := by simpa using hb b hb'
      simp [Modifier.at, hne]
    have hright : after.map (f.at i) = after := by
      refine (List.map_congr_left fun b hb' => ?_).trans (List.map_id after)
      simp [Modifier.at, hnot b hb']
    rw [List.map_append, List.map_cons, hleft, hright]
    simp [Modifier.at, hai]

/-! ## The operations -/

/-- The container with nothing in it. -/
def empty : MultiIndex ident key₁ key₂ where
  first := []
  second := []
  same := .nil
  sorted₁ := .nil _
  sorted₂ := .nil _
  unique := List.nodup_nil

/-- The element an identity stands for. -/
def find (m : MultiIndex ident key₁ key₂) (i : ι) : Option α :=
  m.first.find? fun a => decide (ident a = i)

omit [DecidableEq ι] in
theorem unique₂ (m : MultiIndex ident key₁ key₂) : (m.second.map ident).Nodup :=
  (m.same.map ident).nodup_iff.mpr m.unique

/-- Insert an element whose identity is not present; answer whether it was inserted. -/
def insert (m : MultiIndex ident key₁ key₂) (a : α) : MultiIndex ident key₁ key₂ × Bool :=
  if h : ∃ b ∈ m.first, ident b = ident a then (m, false)
  else
    ({ first := OrderedIndex.insert key₁ a m.first
       second := OrderedIndex.insert key₂ a m.second
       same := (insert_perm _ _ _).trans ((m.same.cons a).trans (insert_perm _ _ _).symm)
       sorted₁ := sorted_insert m.sorted₁
       sorted₂ := sorted_insert m.sorted₂
       unique := by
        refine ((insert_perm key₁ a m.first).map ident).nodup_iff.mpr ?_
        refine List.nodup_cons.mpr ⟨fun hm => h ?_, m.unique⟩
        exact List.mem_map.mp hm }, true)

/-- Change the element of an identity; both indices put it back in order. -/
def modify (m : MultiIndex ident key₁ key₂) (i : ι) (f : Modifier ident) :
    MultiIndex ident key₁ key₂ where
  first := OrderedIndex.modify key₁ (fun a => decide (ident a = i)) f.run m.first
  second := OrderedIndex.modify key₂ (fun a => decide (ident a = i)) f.run m.second
  same :=
    (modify_perm_map m.unique₂ f i).trans
      ((m.same.map _).trans (modify_perm_map m.unique f i).symm)
  sorted₁ := sorted_modify m.sorted₁
  sorted₂ := sorted_modify m.sorted₂
  unique := by
    have hmap : (m.first.map (f.at i)).map ident = m.first.map ident := by
      rw [List.map_map]
      exact List.map_congr_left fun a _ => f.ident_at i a
    refine ((modify_perm_map m.unique f i).map ident).nodup_iff.mpr ?_
    rw [hmap]
    exact m.unique

/-- Remove the element of an identity. -/
def erase (m : MultiIndex ident key₁ key₂) (i : ι) : MultiIndex ident key₁ key₂ where
  first := m.first.filter fun a => decide (ident a ≠ i)
  second := m.second.filter fun a => decide (ident a ≠ i)
  same := m.same.filter _
  sorted₁ := m.sorted₁.sublist List.filter_sublist
  sorted₂ := m.sorted₂.sublist List.filter_sublist
  unique := m.unique.sublist (List.filter_sublist.map ident)

/-! ## The view by identity -/

variable {m : MultiIndex ident key₁ key₂}

theorem find_eq_some_iff {i : ι} {a : α} : m.find i = some a ↔ a ∈ m.first ∧ ident a = i := by
  constructor
  · intro h
    exact ⟨List.mem_of_find?_eq_some h, by simpa using List.find?_some h⟩
  · rintro ⟨hmem, rfl⟩
    cases hf : m.find (ident a) with
    | none =>
      have := List.find?_eq_none.mp hf a hmem
      simp at this
    | some b =>
      have hb : b ∈ m.first := List.mem_of_find?_eq_some hf
      have hid : ident b = ident a := by simpa using List.find?_some hf
      rw [List.inj_on_of_nodup_map m.unique hb hmem hid]

theorem find_eq_none_iff {i : ι} : m.find i = none ↔ ∀ a ∈ m.first, ident a ≠ i := by
  unfold find
  simp only [List.find?_eq_none, decide_eq_true_eq, ne_eq]

theorem find_of_mem {a : α} (h : a ∈ m.first) : m.find (ident a) = some a :=
  find_eq_some_iff.mpr ⟨h, rfl⟩

theorem mem_of_find {i : ι} {a : α} (h : m.find i = some a) : a ∈ m.first :=
  (find_eq_some_iff.mp h).1

theorem ident_of_find {i : ι} {a : α} (h : m.find i = some a) : ident a = i :=
  (find_eq_some_iff.mp h).2

@[simp] theorem find_empty (i : ι) : (empty : MultiIndex ident key₁ key₂).find i = none := rfl

/-! ### Insertion -/

theorem insert_of_find {a b : α} (h : m.find (ident a) = some b) : m.insert a = (m, false) := by
  have hex : ∃ b ∈ m.first, ident b = ident a := ⟨b, mem_of_find h, ident_of_find h⟩
  simp only [insert, dif_pos hex]

theorem insert_first_perm {a : α} (h : m.find (ident a) = none) :
    (m.insert a).1.first.Perm (a :: m.first) := by
  have hno : ¬ ∃ b ∈ m.first, ident b = ident a := by
    rintro ⟨b, hb, heq⟩
    exact find_eq_none_iff.mp h b hb heq
  simp only [insert, dif_neg hno]
  exact insert_perm ..

theorem insert_snd {a : α} : (m.insert a).2 = true ↔ m.find (ident a) = none := by
  unfold insert
  split
  · next h =>
    obtain ⟨b, hb, heq⟩ := h
    refine iff_of_false (by simp) fun hnone => find_eq_none_iff.mp hnone b hb heq
  · next h =>
    refine iff_of_true rfl (find_eq_none_iff.mpr fun b hb heq => h ⟨b, hb, heq⟩)

/-- After an insertion the new identity stands for what was there, or else for the new element. -/
theorem find_insert (a : α) (i : ι) :
    (m.insert a).1.find i = if i = ident a then some ((m.find i).getD a) else m.find i := by
  cases hf : m.find (ident a) with
  | some b =>
    rw [insert_of_find hf]
    split
    · next h => rw [h, hf, Option.getD_some]
    · rfl
  | none =>
    have hperm := insert_first_perm hf
    split
    · next h =>
      subst h
      rw [hf, Option.getD_none]
      exact find_eq_some_iff.mpr ⟨hperm.mem_iff.mpr List.mem_cons_self, rfl⟩
    · next h =>
      refine Option.ext fun b => ?_
      rw [find_eq_some_iff, find_eq_some_iff, hperm.mem_iff, List.mem_cons]
      constructor
      · rintro ⟨rfl | hb, rfl⟩
        · exact absurd rfl h
        · exact ⟨hb, rfl⟩
      · rintro ⟨hb, rfl⟩
        exact ⟨.inr hb, rfl⟩

/-! ### Change -/

theorem modify_first_perm (i : ι) (f : Modifier ident) :
    (m.modify i f).first.Perm (m.first.map (f.at i)) :=
  modify_perm_map m.unique f i

theorem find_modify (i : ι) (f : Modifier ident) (j : ι) :
    (m.modify i f).find j = if j = i then (m.find i).map f.run else m.find j := by
  have hmem : ∀ b, b ∈ (m.modify i f).first ↔ ∃ a ∈ m.first, f.at i a = b := fun b => by
    rw [(modify_first_perm i f).mem_iff, List.mem_map]
  refine Option.ext fun b => ?_
  rw [find_eq_some_iff, hmem]
  constructor
  · rintro ⟨⟨a, ha, rfl⟩, rfl⟩
    rw [f.ident_at]
    split
    · next h =>
      rw [← h, find_of_mem ha]
      simp [Modifier.at, h]
    · next h =>
      rw [find_of_mem ha]
      simp [Modifier.at, h]
  · split
    · next h =>
      intro hb
      obtain ⟨a, ha, rfl⟩ := Option.map_eq_some_iff.mp hb
      have hai := ident_of_find ha
      exact ⟨⟨a, mem_of_find ha, by simp [Modifier.at, hai]⟩, by rw [f.keeps, hai, h]⟩
    · next h =>
      intro hb
      have hbj := ident_of_find hb
      have hne : ident b ≠ i := fun heq => h (hbj.symm.trans heq)
      exact ⟨⟨b, mem_of_find hb, by simp [Modifier.at, hne]⟩, hbj⟩

/-- A change of an element that is present replaces it, and keeps the others. -/
theorem modify_first_replace {i : ι} {a : α} (h : m.find i = some a) (f : Modifier ident) :
    ∃ rest, m.first.Perm (a :: rest) ∧ (m.modify i f).first.Perm (f.run a :: rest) := by
  obtain ⟨before, after, hsplit⟩ := List.append_of_mem (mem_of_find h)
  have hai := ident_of_find h
  have hothers : ∀ b ∈ before ++ after, f.at i b = b := by
    intro b hb
    have hunique := m.unique
    rw [hsplit, List.map_append, List.map_cons] at hunique
    have hne : ident b ≠ i := by
      intro heq
      have hnotin := (List.nodup_middle.mp hunique)
      refine (List.nodup_cons.mp hnotin).1 ?_
      rw [← List.map_append]
      exact List.mem_map.mpr ⟨b, hb, heq.trans hai.symm⟩
    simp [Modifier.at, hne]
  refine ⟨before ++ after, ?_, ?_⟩
  · rw [hsplit]
    exact List.perm_middle
  · refine (modify_first_perm i f).trans ?_
    rw [hsplit, List.map_append, List.map_cons]
    refine List.perm_middle.trans ?_
    rw [← List.map_append, List.map_congr_left hothers, List.map_id']
    simp [Modifier.at, hai]

/-- A change that keeps some part of an element keeps that part of all elements. -/
theorem modify_map_perm {β : Type*} {g : α → β} {f : Modifier ident} (same : ∀ a, g (f.run a) = g a)
    (i : ι) : ((m.modify i f).first.map g).Perm (m.first.map g) := by
  refine ((modify_first_perm i f).map g).trans (List.Perm.of_eq ?_)
  rw [List.map_map]
  refine List.map_congr_left fun a _ => ?_
  rw [Function.comp_apply, Modifier.at]
  split
  · exact same a
  · rfl

/-! ### Removal -/

theorem find_erase (i j : ι) : (m.erase i).find j = if j = i then none else m.find j := by
  refine Option.ext fun b => ?_
  rw [find_eq_some_iff]
  simp only [erase, List.mem_filter, decide_eq_true_eq]
  split
  · next h =>
    subst h
    refine iff_of_false (fun hb => hb.1.2 hb.2) (by simp)
  · next h =>
    rw [find_eq_some_iff]
    constructor
    · rintro ⟨⟨hb, _⟩, hj⟩
      exact ⟨hb, hj⟩
    · rintro ⟨hb, hj⟩
      exact ⟨⟨hb, fun hi => h (hj.symm.trans hi)⟩, hj⟩

theorem erase_first_perm {i : ι} {a : α} (h : m.find i = some a) :
    m.first.Perm (a :: (m.erase i).first) := by
  obtain ⟨before, after, hsplit⟩ := List.append_of_mem (mem_of_find h)
  have hai := ident_of_find h
  have hunique := m.unique
  rw [hsplit, List.map_append, List.map_cons] at hunique
  have hnotin := (List.nodup_cons.mp (List.nodup_middle.mp hunique)).1
  have hkeep : (before ++ after).filter (fun b => decide (ident b ≠ i)) = before ++ after := by
    refine List.filter_eq_self.mpr fun b hb => ?_
    have hne : ident b ≠ i := by
      intro heq
      refine hnotin ?_
      rw [← List.map_append]
      exact List.mem_map.mpr ⟨b, hb, heq.trans hai.symm⟩
    simpa using hne
  have herase : (m.erase i).first = before ++ after := by
    simp only [erase, hsplit, List.filter_append, List.filter_cons, hai]
    simpa using hkeep
  rw [herase, hsplit]
  exact List.perm_middle

end MultiIndex
