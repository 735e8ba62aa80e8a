import Mathlib.Data.Finset.Insert
import Mathlib.Logic.Function.Iterate

/-!
# Trees given by a parent function

Every node has a parent and finitely many children; the children of a node are the nodes whose parent
it is. `descend` lists a node with what is below it down to a depth, `ascend` a node with what is
above it up to a height. Both come to powers of the parent function (`mem_descend`, `mem_ascend`).

`collect` puts what a list of nodes stands for into a set.
-/

namespace Descent

variable {α β : Type*}

/-- A node, and then all below each of its children. -/
def descend (children : α → List α) : Nat → α → List α
  | 0, t => [t]
  | n + 1, t => t :: (children t).flatMap (descend children n)

/-- A node, and then all above its parent. -/
def ascend (parent : α → α) : Nat → α → List α
  | 0, t => [t]
  | n + 1, t => t :: ascend parent n (parent t)

/-- The nodes at or below a node are those that it is an ancestor of. -/
theorem mem_descend {children : α → List α} {parent : α → α}
    (mem_children : ∀ c t, c ∈ children t ↔ parent c = t) (n : Nat) (t d : α) :
    d ∈ descend children n t ↔ ∃ k ≤ n, parent^[k] d = t := by
  induction n generalizing t with
  | zero => simp [descend]
  | succ n ih =>
    rw [descend, List.mem_cons, List.mem_flatMap]
    constructor
    · rintro (rfl | ⟨c, hc, hd⟩)
      · exact ⟨0, Nat.zero_le _, rfl⟩
      · obtain ⟨k, hk, rfl⟩ := (ih c).mp hd
        refine ⟨k + 1, Nat.succ_le_succ hk, ?_⟩
        rw [Function.iterate_succ_apply']
        exact (mem_children _ t).mp hc
    · rintro ⟨k, hk, rfl⟩
      cases k with
      | zero => exact .inl rfl
      | succ k =>
        refine .inr ⟨parent^[k] d, ?_, (ih _).mpr ⟨k, Nat.le_of_succ_le_succ hk, rfl⟩⟩
        rw [mem_children, Function.iterate_succ_apply']

/-- The nodes at or above a node are its ancestors. -/
theorem mem_ascend {parent : α → α} (n : Nat) (t a : α) :
    a ∈ ascend parent n t ↔ ∃ k ≤ n, parent^[k] t = a := by
  induction n generalizing t with
  | zero => simp [ascend, eq_comm]
  | succ n ih =>
    rw [ascend, List.mem_cons, ih]
    constructor
    · rintro (rfl | ⟨k, hk, rfl⟩)
      · exact ⟨0, Nat.zero_le _, rfl⟩
      · exact ⟨k + 1, Nat.succ_le_succ hk, rfl⟩
    · rintro ⟨k, hk, rfl⟩
      cases k with
      | zero => exact .inl rfl
      | succ k => exact .inr ⟨k, Nat.le_of_succ_le_succ hk, rfl⟩

/-- A set with what the nodes of a list stand for. -/
def collect [DecidableEq β] (f : α → β) (l : List α) (s : Finset β) : Finset β :=
  l.foldl (fun s t => insert (f t) s) s

section Collect

variable [DecidableEq β] (f : α → β)

theorem mem_collect (l : List α) (s : Finset β) (b : β) :
    b ∈ collect f l s ↔ b ∈ s ∨ ∃ t ∈ l, f t = b := by
  induction l generalizing s with
  | nil => simp [collect]
  | cons t l ih =>
    rw [show collect f (t :: l) s = collect f l (insert (f t) s) from rfl, ih, Finset.mem_insert,
      List.exists_mem_cons_iff, eq_comm]
    tauto

/-- Collecting from several lists is collecting from each in turn. -/
theorem collect_flatMap {γ : Type*} (g : γ → List α) (l : List γ) (s : Finset β) :
    collect f (l.flatMap g) s = l.foldl (fun s c => collect f (g c) s) s := by
  induction l generalizing s with
  | nil => rfl
  | cons c l ih =>
    rw [List.flatMap_cons, List.foldl_cons, ← ih]
    exact List.foldl_append

end Collect

end Descent
