import RenderMq.Lib.Pieces

/-!
# Paths joined of parts

Parts are joined to a root one after the other, with a separator between, as `posixpath.join` of
Python does. A part that begins with the separator would take the place of what is before it, and none
is put after a root that ends with one.

Parts that have no separator in them, and are not empty, can be told from the path (`join_inj`).
-/

namespace PathJoin

variable {α : Type*} [DecidableEq α] (sep : α)

/-- One more part. -/
def joinPart (path part : List α) : List α :=
  if part.head? = some sep then part
  else if path = [] ∨ path.getLast? = some sep then path ++ part
  else path ++ sep :: part

def join (root : List α) (parts : List (List α)) : List α := parts.foldl (joinPart sep) root

/-- A root as it stands before the first part. -/
def base (root : List α) : List α :=
  if root = [] ∨ root.getLast? = some sep then root else root ++ [sep]

variable {sep}

theorem joinPart_eq {part : List α} (root : List α) (hpart : sep ∉ part) :
    joinPart sep root part = base sep root ++ part := by
  have hhead : part.head? ≠ some sep := fun h => hpart (List.mem_of_head? h)
  unfold joinPart base
  rw [if_neg hhead]
  split
  · rfl
  · rw [List.append_assoc, List.singleton_append]

theorem base_append {part : List α} (root : List α) (hne : part ≠ []) (hpart : sep ∉ part) :
    base sep (root ++ part) = root ++ part ++ [sep] := by
  refine if_neg ?_
  rintro (hnil | hlast)
  · exact hne (List.append_eq_nil_iff.mp hnil).2
  · rw [List.getLast?_append_of_ne_nil _ hne] at hlast
    exact hpart (List.mem_of_getLast? hlast)

/-- What stands after the last separator is the last part. -/
theorem eq_of_joinPart_eq {root part before after : List α} (hpart : sep ∉ part)
    (hafter : sep ∉ after) (h : joinPart sep root part = before ++ sep :: after) : part = after := by
  rw [joinPart_eq root hpart, base] at h
  split at h
  · next hroot =>
    rcases hroot with rfl | hlast
    · have hmem : sep ∈ part := by
        rw [List.nil_append] at h
        rw [h]
        exact List.mem_append_right before List.mem_cons_self
      exact absurd hmem hpart
    · obtain ⟨front, rfl⟩ := List.getLast?_eq_some_iff.mp hlast
      rw [List.append_assoc, List.singleton_append] at h
      exact (Pieces.append_separator_inj hpart hafter h).2
  · rw [List.append_assoc, List.singleton_append] at h
    exact (Pieces.append_separator_inj hpart hafter h).2

/-- Parts without separators are joined by separators. -/
theorem join_eq {parts : List (List α)} (root : List α) (hne : parts ≠ [])
    (hparts : ∀ p ∈ parts, p ≠ [] ∧ sep ∉ p) :
    join sep root parts = base sep root ++ [sep].intercalate parts := by
  induction parts generalizing root with
  | nil => exact absurd rfl hne
  | cons part rest ih =>
    obtain ⟨⟨hpart, hsep⟩, hrest⟩ := List.forall_mem_cons.mp hparts
    rw [join, List.foldl_cons, joinPart_eq root hsep]
    cases rest with
    | nil => rw [List.intercalate_singleton, List.foldl_nil]
    | cons next rest =>
      have hjoin := ih (base sep root ++ part) (List.cons_ne_nil _ _) hrest
      rw [join] at hjoin
      rw [hjoin, base_append _ hpart hsep, List.intercalate_cons_cons]
      simp only [List.append_assoc]

/-- **The parts of a path.** -/
theorem join_inj {parts parts' : List (List α)} (root : List α) (hne : parts ≠ [])
    (hne' : parts' ≠ []) (hparts : ∀ p ∈ parts, p ≠ [] ∧ sep ∉ p)
    (hparts' : ∀ p ∈ parts', p ≠ [] ∧ sep ∉ p) (h : join sep root parts = join sep root parts') :
    parts = parts' := by
  rw [join_eq root hne hparts, join_eq root hne' hparts'] at h
  have hsplit := congrArg (List.splitOn sep) (List.append_cancel_left h)
  rwa [List.splitOn_intercalate sep (fun p hp => (hparts p hp).2) hne,
    List.splitOn_intercalate sep (fun p hp => (hparts' p hp).2) hne'] at hsplit

end PathJoin
