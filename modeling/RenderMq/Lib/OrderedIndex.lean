import Mathlib.Order.Lattice
import Mathlib.Data.List.TakeWhile
import Mathlib.Data.List.Perm.Basic

/-!
# Ordered, non-unique indices

An ordered index that admits equal keys, as its elements in index order. The three operations a
container needs of it are an insertion, which goes after every element whose key is not greater,
the change of one element in place, and the search for an element.

Changing an element may change its key. The index then keeps the element where it stands when
neither neighbour is out of order with it, and otherwise unlinks it and links it again where an
insertion would put it (`relink`). A caller that walks the index while it changes elements holds a
position: `relink` answers the elements before and the elements after the one that was changed, so
that the walk can be resumed from there.

`Sorted` is the one invariant. Nothing here is about a particular element or key.
-/

namespace OrderedIndex

variable {α κ : Type*} [LinearOrder κ]

/-- The elements stand in the order of their keys; equal keys are in no particular order. -/
def Sorted (key : α → κ) (l : List α) : Prop := l.Pairwise fun a b => key a ≤ key b

/-- The two sides of the upper bound of a key: what an insertion of that key goes after, and what
it goes before. -/
def upper (key : α → κ) (k : κ) (l : List α) : List α × List α :=
  (l.takeWhile fun b => decide (key b ≤ k), l.dropWhile fun b => decide (key b ≤ k))

/-- Insertion at the upper bound of the new element's key. -/
def insert (key : α → κ) (a : α) (l : List α) : List α :=
  (upper key (key a) l).1 ++ a :: (upper key (key a) l).2

/-- Neither neighbour of a changed element is out of order with it. -/
def inPlace (key : α → κ) (before : List α) (a : α) (after : List α) : Bool :=
  (before.getLast?.all fun b => decide (key b ≤ key a)) &&
    (after.head?.all fun b => decide (key a ≤ key b))

/-- Where a changed element ends up: the elements before it and the elements after it. -/
def relink (key : α → κ) (before : List α) (a : α) (after : List α) : List α × List α :=
  if inPlace key before a after then (before, after) else upper key (key a) (before ++ after)

/-- Change the first element that satisfies `p`, and put it back in order. -/
def modify (key : α → κ) (p : α → Bool) (f : α → α) (l : List α) : List α :=
  match l.dropWhile fun a => !p a with
  | [] => l
  | a :: after =>
    let sides := relink key (l.takeWhile fun a => !p a) (f a) after
    sides.1 ++ f a :: sides.2

/-! ## The upper bound -/

theorem Sorted.nil (key : α → κ) : Sorted key [] := List.Pairwise.nil

theorem Sorted.sublist {key : α → κ} {l l' : List α} (sub : l'.Sublist l) (h : Sorted key l) :
    Sorted key l' :=
  List.Pairwise.sublist sub h

/-- The two sides of the upper bound are the index, cut in two. -/
@[simp] theorem upper_append (key : α → κ) (k : κ) (l : List α) :
    (upper key k l).1 ++ (upper key k l).2 = l :=
  List.takeWhile_append_dropWhile

theorem le_of_mem_upper_fst {key : α → κ} {k : κ} {l : List α} {b : α}
    (h : b ∈ (upper key k l).1) : key b ≤ k := by
  simpa using List.mem_takeWhile_imp h

/-- In a sorted index everything past the upper bound of a key has a greater key. -/
theorem lt_of_mem_upper_snd {key : α → κ} {k : κ} :
    ∀ {l : List α}, Sorted key l → ∀ {b : α}, b ∈ (upper key k l).2 → k < key b
  | [], _, b, hb => by simp [upper] at hb
  | a :: l, hs, b, hb => by
    have hs' := List.pairwise_cons.mp hs
    by_cases ha : key a ≤ k
    · have hb' : b ∈ (upper key k l).2 := by simpa [upper, ha] using hb
      exact lt_of_mem_upper_snd hs'.2 hb'
    · have hb' : b = a ∨ b ∈ l := by simpa [upper, ha] using hb
      rcases hb' with rfl | hb'
      · exact lt_of_not_ge ha
      · exact lt_of_lt_of_le (lt_of_not_ge ha) (hs'.1 b hb')

/-- In a sorted index everything up to a key is before its upper bound. -/
theorem mem_upper_fst {key : α → κ} {k : κ} {l : List α} (hl : Sorted key l) {b : α} (hb : b ∈ l)
    (hle : key b ≤ k) : b ∈ (upper key k l).1 := by
  rw [← upper_append key k l] at hb
  rcases List.mem_append.mp hb with hleft | hright
  · exact hleft
  · exact absurd hle (not_le_of_gt (lt_of_mem_upper_snd hl hright))

/-- A sorted index stays sorted when an element is put between elements with keys on either side
of its own. -/
theorem Sorted.between {key : α → κ} {before after : List α} {a : α}
    (h : Sorted key (before ++ after)) (hb : ∀ b ∈ before, key b ≤ key a)
    (ha : ∀ b ∈ after, key a ≤ key b) : Sorted key (before ++ a :: after) := by
  obtain ⟨hl, hr, hlr⟩ := List.pairwise_append.mp h
  refine List.pairwise_append.mpr ⟨hl, List.pairwise_cons.mpr ⟨ha, hr⟩, ?_⟩
  intro b hbm c hcm
  rcases List.mem_cons.mp hcm with rfl | hcm
  · exact hb b hbm
  · exact hlr b hbm c hcm

theorem sorted_insert {key : α → κ} {a : α} {l : List α} (h : Sorted key l) :
    Sorted key (insert key a l) := by
  have hcut : Sorted key ((upper key (key a) l).1 ++ (upper key (key a) l).2) := by
    rwa [upper_append]
  exact hcut.between (fun b hb => le_of_mem_upper_fst hb)
    (fun b hb => le_of_lt (lt_of_mem_upper_snd h hb))

theorem insert_perm (key : α → κ) (a : α) (l : List α) : (insert key a l).Perm (a :: l) := by
  have h : (insert key a l).Perm
      (a :: ((upper key (key a) l).1 ++ (upper key (key a) l).2)) := List.perm_middle
  rwa [upper_append] at h

/-! ## Relinking a changed element -/

/-- Relinking moves the changed element only: the others keep their order. -/
@[simp] theorem relink_append (key : α → κ) (before : List α) (a : α) (after : List α) :
    (relink key before a after).1 ++ (relink key before a after).2 = before ++ after := by
  unfold relink
  split
  · rfl
  · exact upper_append ..

/-- Between sorted neighbours, being in place is being in order with every other element. -/
theorem inPlace_iff {key : α → κ} {before after : List α} {a : α}
    (hb : Sorted key before) (ha : Sorted key after) :
    inPlace key before a after = true ↔
      (∀ b ∈ before, key b ≤ key a) ∧ ∀ b ∈ after, key a ≤ key b := by
  have left : (before.getLast?.all fun b => decide (key b ≤ key a)) = true ↔
      ∀ b ∈ before, key b ≤ key a := by
    rcases List.eq_nil_or_concat before with rfl | ⟨init, last, rfl⟩
    · simp
    · have hlast := (List.pairwise_append.mp (by simpa [Sorted] using hb)).2.2
      simp only [List.concat_eq_append, List.getLast?_append, List.getLast?_singleton,
        Option.some_or, Option.all_some, decide_eq_true_eq, List.mem_append, List.mem_singleton]
      refine ⟨fun h b hbm => ?_, fun h => h last (.inr rfl)⟩
      rcases hbm with hbm | rfl
      · exact le_trans (hlast b hbm last (List.mem_singleton_self _)) h
      · exact h
  have right : (after.head?.all fun b => decide (key a ≤ key b)) = true ↔
      ∀ b ∈ after, key a ≤ key b := by
    cases after with
    | nil => simp
    | cons c rest =>
      have hhead := (List.pairwise_cons.mp ha).1
      simp only [List.head?_cons, Option.all_some, decide_eq_true_eq, List.mem_cons]
      refine ⟨fun h b hbm => ?_, fun h => h c (.inl rfl)⟩
      rcases hbm with rfl | hbm
      · exact h
      · exact le_trans h (hhead b hbm)
  rw [inPlace, Bool.and_eq_true, left, right]

theorem sorted_relink {key : α → κ} {before after : List α} {a : α}
    (h : Sorted key (before ++ after)) :
    Sorted key ((relink key before a after).1 ++ a :: (relink key before a after).2) := by
  obtain ⟨hb, ha, _⟩ := List.pairwise_append.mp h
  unfold relink
  split
  · next hin =>
    obtain ⟨hle, hge⟩ := (inPlace_iff hb ha).mp hin
    exact h.between hle hge
  · exact sorted_insert h

/-! ## Changing one element -/

/-- What `modify` does to an index that is cut at the element it finds. -/
theorem modify_of_split {key : α → κ} {p : α → Bool} {f : α → α} {before after : List α} {a : α}
    (hb : ∀ b ∈ before, p b = false) (ha : p a = true) :
    modify key p f (before ++ a :: after) =
      (relink key before (f a) after).1 ++ f a :: (relink key before (f a) after).2 := by
  have hdrop : (before ++ a :: after).dropWhile (fun a => !p a) = a :: after := by
    rw [List.dropWhile_append_of_pos (by simpa using hb)]
    simp [ha]
  have htake : (before ++ a :: after).takeWhile (fun a => !p a) = before := by
    rw [List.takeWhile_append_of_pos (by simpa using hb)]
    simp [ha]
  simp only [modify, hdrop, htake]

/-- An index in which nothing satisfies `p` is left alone. -/
theorem modify_of_none {key : α → κ} {p : α → Bool} {f : α → α} {l : List α}
    (h : ∀ b ∈ l, p b = false) : modify key p f l = l := by
  have hdrop : l.dropWhile (fun a => !p a) = [] := List.dropWhile_eq_nil_iff.mpr (by simpa using h)
  simp only [modify, hdrop]

/-- An index is either free of `p`, or cut at its first element that satisfies `p`. -/
theorem split_first (p : α → Bool) (l : List α) :
    (∀ b ∈ l, p b = false) ∨
      ∃ before a after, l = before ++ a :: after ∧ (∀ b ∈ before, p b = false) ∧ p a = true := by
  cases hd : l.dropWhile (fun a => !p a) with
  | nil => exact .inl (by simpa using List.dropWhile_eq_nil_iff.mp hd)
  | cons a after =>
    refine .inr ⟨l.takeWhile (fun a => !p a), a, after, ?_, ?_, ?_⟩
    · rw [← hd, List.takeWhile_append_dropWhile]
    · intro b hb
      simpa using List.mem_takeWhile_imp hb
    · have := List.head?_dropWhile_not (fun a => !p a) l
      simpa [hd] using this

theorem sorted_modify {key : α → κ} {p : α → Bool} {f : α → α} {l : List α}
    (h : Sorted key l) : Sorted key (modify key p f l) := by
  rcases split_first p l with hnone | ⟨before, a, after, rfl, hb, ha⟩
  · rwa [modify_of_none hnone]
  · rw [modify_of_split hb ha]
    exact sorted_relink (h.sublist (List.Sublist.append_left (List.sublist_cons_self a after) _))

/-- Changing an element replaces it and keeps every other. -/
theorem modify_perm_of_split {key : α → κ} {p : α → Bool} {f : α → α} {before after : List α}
    {a : α} (hb : ∀ b ∈ before, p b = false) (ha : p a = true) :
    (modify key p f (before ++ a :: after)).Perm (before ++ f a :: after) := by
  rw [modify_of_split hb ha]
  refine List.perm_middle.trans ?_
  rw [relink_append]
  exact List.perm_middle.symm

end OrderedIndex
