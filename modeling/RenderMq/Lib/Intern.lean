import Mathlib.Data.List.Basic
import Mathlib.Logic.Function.Basic

/-!
# Tables that grow

A table has a value for each key that was asked for, under a number. A key that is asked for again gets
the number it has, and another one the next number, with a value that is made for it.

No value is ever moved, so a number that was given stays good (`intern_spec`).
-/

namespace Intern

variable {κ β ε : Type}

structure Table (κ β : Type) where
  indices : κ → Option Nat := fun _ => none
  values : List β := []

/-- The values are those that were made for their keys. -/
def Sound (make : κ → Except ε β) (t : Table κ β) : Prop :=
  ∀ k i, t.indices k = some i → ∃ b, make k = .ok b ∧ t.values[i]? = some b

theorem sound_empty (make : κ → Except ε β) : Sound make {} := by
  intro k i h
  cases h

variable [DecidableEq κ]

/-- The number of a key. -/
def intern (make : κ → Except ε β) (k : κ) (t : Table κ β) : Except ε (Nat × Table κ β) :=
  match t.indices k with
  | some i => .ok (i, t)
  | none =>
    (make k).map fun b =>
      (t.values.length,
        { indices := Function.update t.indices k (some t.values.length), values := t.values ++ [b] })

/-- A number is good, and those before it stay so, since a value is added at the end or not at all. -/
theorem intern_spec {make : κ → Except ε β} {t : Table κ β} (h : Sound make t) {k : κ} {b : β}
    (hk : make k = .ok b) : ∃ i t', intern make k t = .ok (i, t') ∧ Sound make t' ∧
      (t'.values = t.values ∨ t'.values = t.values ++ [b]) ∧ t'.values[i]? = some b := by
  unfold intern
  cases hindex : t.indices k with
  | some i =>
    obtain ⟨b', hmake, hvalue⟩ := h k i hindex
    obtain rfl := Except.ok.inj (hk.symm.trans hmake)
    exact ⟨i, t, rfl, h, .inl rfl, hvalue⟩
  | none =>
    have hlast : (t.values ++ [b])[t.values.length]? = some b := List.getElem?_concat_length
    refine ⟨t.values.length, ⟨Function.update t.indices k (some t.values.length), t.values ++ [b]⟩,
      by rw [hk]; rfl, ?_, .inr rfl, hlast⟩
    intro j i hj
    dsimp only at hj ⊢
    by_cases hkey : j = k
    · rw [hkey, Function.update_self] at hj
      obtain rfl := Option.some.inj hj
      exact ⟨b, by rw [hkey, hk], hlast⟩
    · rw [Function.update_of_ne hkey] at hj
      obtain ⟨b', hmake, hvalue⟩ := h j i hj
      obtain ⟨hlt, _⟩ := List.getElem?_eq_some_iff.mp hvalue
      exact ⟨b', hmake, by rw [List.getElem?_append_left hlt, hvalue]⟩

end Intern
