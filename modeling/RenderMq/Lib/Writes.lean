import Mathlib.Logic.Function.Basic
import Mathlib.Data.List.Basic

/-!
# Writes to a store

A store maps keys to values, or to nothing. Values are written to keys one after another
(`writeAll`). A key that is not written keeps its value (`writeAll_of_notMem`); a key that is has one
of the values written to it (`writeAll_of_mem`).
-/

namespace Writes

variable {κ ν : Type*} [DecidableEq κ]

/-- The writes, from the first to the last. -/
def writeAll (store : κ → Option ν) (writes : List (κ × ν)) : κ → Option ν :=
  writes.foldl (fun store w => Function.update store w.1 (some w.2)) store

theorem writeAll_cons (store : κ → Option ν) (w : κ × ν) (writes : List (κ × ν)) :
    writeAll store (w :: writes) = writeAll (Function.update store w.1 (some w.2)) writes := rfl

/-- **The frame.** -/
theorem writeAll_of_notMem {writes : List (κ × ν)} {k : κ} (h : ∀ w ∈ writes, w.1 ≠ k)
    (store : κ → Option ν) : writeAll store writes k = store k := by
  induction writes generalizing store with
  | nil => rfl
  | cons w writes ih =>
    rw [writeAll_cons, ih fun w' hw' => h w' (List.mem_cons_of_mem w hw')]
    exact Function.update_of_ne (h w List.mem_cons_self).symm ..

/-- A key that is written has one of the values. -/
theorem writeAll_of_mem {writes : List (κ × ν)} {k : κ} (h : ∃ w ∈ writes, w.1 = k)
    (store : κ → Option ν) : ∃ w ∈ writes, w.1 = k ∧ writeAll store writes k = some w.2 := by
  induction writes generalizing store with
  | nil =>
    obtain ⟨w, hw, _⟩ := h
    cases hw
  | cons w writes ih =>
    rw [writeAll_cons]
    by_cases hlater : ∃ w' ∈ writes, w'.1 = k
    · obtain ⟨w', hw', hk, hvalue⟩ := ih hlater (Function.update store w.1 (some w.2))
      exact ⟨w', List.mem_cons_of_mem w hw', hk, hvalue⟩
    · have hrest : ∀ w' ∈ writes, w'.1 ≠ k := fun w' hw' hk => hlater ⟨w', hw', hk⟩
      obtain ⟨w', hw', rfl⟩ := h
      rcases List.mem_cons.mp hw' with rfl | hw'
      · refine ⟨w', List.mem_cons_self, rfl, ?_⟩
        rw [writeAll_of_notMem hrest, Function.update_self]
      · exact absurd rfl (hrest w' hw')

end Writes
