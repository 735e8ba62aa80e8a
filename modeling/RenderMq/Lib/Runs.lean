import Mathlib.Data.List.SplitBy

/-!
# Runs of one key

A list is split into its runs of elements that have the same key. With an element behind the list, the
last run becomes longer, or there is one more.
-/

namespace Runs

variable {α β : Type} [DecidableEq β] {key : α → β}

/-- Elements of a run have the key of its first. -/
theorem key_eq_of_isChain {a : α} {as : List α} (h : (a :: as).IsChain fun x y => (key x == key y) = true) :
    ∀ x ∈ a :: as, key x = key a := by
  induction as generalizing a with
  | nil =>
    intro x hx
    rw [List.mem_singleton.mp hx]
  | cons b bs ih =>
    obtain ⟨hab, hrest⟩ := List.isChain_cons_cons.mp h
    intro x hx
    rcases List.mem_cons.mp hx with hfirst | hrun
    · rw [hfirst]
    · rw [ih hrest x hrun, eq_of_beq hab]

variable {l : List α} {init : List (List α)} {a e : α} {as : List α}

/-- An element with another key begins a run. -/
theorem splitBy_concat_of_ne (h : l.splitBy (fun x y => key x == key y) = init ++ [a :: as])
    (he : key a ≠ key e) :
    (l ++ [e]).splitBy (fun x y => key x == key y) = init ++ [a :: as] ++ [[e]] := by
  have hrun : (a :: as).IsChain fun x y => (key x == key y) = true :=
    List.isChain_of_mem_splitBy (by rw [h]; exact List.mem_append_right _ (List.mem_singleton.mpr rfl))
  have hl : l = init.flatten ++ (a :: as) := by
    rw [← List.flatten_splitBy (fun x y => key x == key y) l, h, List.flatten_concat]
  rw [List.splitBy_append, h]
  · rfl
  · intro x hx y hy
    obtain rfl := Option.some.inj hy
    rw [hl, List.getLast?_append_of_ne_nil _ (List.cons_ne_nil a as)] at hx
    refine beq_false_of_ne ?_
    rw [key_eq_of_isChain hrun x (List.mem_of_getLast? hx)]
    exact he

/-- An element with the same key goes on with the last run. -/
theorem splitBy_concat_of_eq (h : l.splitBy (fun x y => key x == key y) = init ++ [a :: as])
    (he : key a = key e) :
    (l ++ [e]).splitBy (fun x y => key x == key y) = init ++ [a :: (as ++ [e])] := by
  obtain ⟨hflatten, hnil, hruns, hchain⟩ := List.splitBy_eq_iff.mp h
  have hrun := hruns (a :: as) (List.mem_append_right _ (List.mem_singleton.mpr rfl))
  refine List.splitBy_eq_iff.mpr ⟨?_, ?_, ?_, ?_⟩
  · rw [hflatten, List.flatten_concat, List.flatten_concat, List.append_assoc]
    rfl
  · intro hmem
    rcases List.mem_append.mp hmem with hinit | hlast
    · exact hnil (List.mem_append_left _ hinit)
    · exact absurd (List.mem_singleton.mp hlast) (List.cons_ne_nil _ _).symm
  · intro m hm
    rcases List.mem_append.mp hm with hinit | hlast
    · exact hruns m (List.mem_append_left _ hinit)
    · rw [List.mem_singleton.mp hlast, ← List.cons_append]
      refine List.isChain_append.mpr ⟨hrun, List.isChain_singleton e, fun x hx y hy => ?_⟩
      obtain rfl := Option.some.inj hy
      rw [key_eq_of_isChain hrun x (List.mem_of_getLast? hx), he]
      exact beq_self_eq_true _
  · obtain ⟨hinit, -, hlast⟩ := List.isChain_append.mp hchain
    refine List.isChain_append.mpr ⟨hinit, List.isChain_singleton _, fun x hx y hy => ?_⟩
    obtain rfl := Option.some.inj hy
    obtain ⟨hne, _, hdiffer⟩ := hlast x hx (a :: as) rfl
    exact ⟨hne, List.cons_ne_nil _ _, hdiffer⟩

end Runs
