import Mathlib.Data.List.Basic
import Mathlib.Data.List.Range

/-!
# Counting down to what is due

Something is due at some times. A counter stands at the time to the next of them: `Next` when the
present counts, `After` when it does not. Where something is due every `p`, a counter that has come to
zero is set to `p` (`Next.rearm`), and no time that is due is missed by one who waits no longer than
the counter says (`filter_range_add`).
-/

namespace Countdown

variable {due : Nat → Prop} {t c d p : Nat}

/-- From `t` it is `c` to the next time that is due, which may be `t`. -/
structure Next (due : Nat → Prop) (t c : Nat) : Prop where
  then_due : due (t + c)
  before : ∀ i < c, ¬ due (t + i)

/-- From `t` it is `c` to the next time that is due after `t`. -/
structure After (due : Nat → Prop) (t c : Nat) : Prop where
  pos : 0 < c
  then_due : due (t + c)
  between : ∀ i, 0 < i → i < c → ¬ due (t + i)

/-- After a time that is due the next one comes `p` later. -/
def Every (p : Nat) (due : Nat → Prop) : Prop := ∀ t, due t → After due t p

theorem Next.due_iff (h : Next due t c) : due t ↔ c = 0 := by
  constructor
  · intro hdue
    by_contra hc
    exact h.before 0 (Nat.pos_of_ne_zero hc) hdue
  · intro hc
    have hdue := h.then_due
    rwa [hc] at hdue

theorem Next.after (h : Next due t c) (hc : c ≠ 0) : After due t c :=
  ⟨Nat.pos_of_ne_zero hc, h.then_due, fun i _ => h.before i⟩

/-- A counter at zero is set again. -/
theorem Next.rearm (every : Every p due) (h : Next due t c) :
    After due t (if c = 0 then p else c) := by
  by_cases hc : c = 0
  · rw [if_pos hc]
    exact every t (h.due_iff.mpr hc)
  · rw [if_neg hc]
    exact h.after hc

/-- Time goes on, no further than the counter says. -/
theorem After.elapse (h : After due t c) (hd : 0 < d) (hdc : d ≤ c) : Next due (t + d) (c - d) where
  then_due := by
    have hdue := h.then_due
    rwa [Nat.add_assoc, Nat.add_sub_cancel' hdc]
  before i hi := by
    rw [Nat.add_assoc]
    exact h.between (d + i) (by omega) (by omega)

/-- The times that are due meanwhile: the first, or none. -/
theorem After.filter_range_add [DecidablePred due] (h : After due t c) (hd : 0 < d) (hdc : d ≤ c) :
    (List.range (t + d)).filter (due ·) =
      (List.range t).filter (due ·) ++ if due t then [t] else [] := by
  obtain ⟨e, rfl⟩ : ∃ e, d = e + 1 := ⟨d - 1, by omega⟩
  clear hd
  induction e with
  | zero =>
    rw [List.range_succ, List.filter_append, List.filter_singleton]
    by_cases hdue : due t <;> simp [hdue]
  | succ e ih =>
    have hnot : ¬ due (t + (e + 1)) := h.between (e + 1) (Nat.succ_pos e) (by omega)
    rw [← Nat.add_assoc, List.range_succ, List.filter_append, List.filter_singleton,
      ih (by omega), decide_eq_false hnot]
    exact List.append_nil _

/-! ## Multiples -/

theorem every_dvd (hp : 0 < p) : Every p (p ∣ ·) := by
  intro t ht
  refine ⟨hp, Nat.dvd_add ht (Nat.dvd_refl p), fun i hi hip hdvd => ?_⟩
  exact absurd (Nat.le_of_dvd hi ((Nat.dvd_add_right ht).mp hdvd)) (Nat.not_le.mpr hip)

theorem every_pos_dvd (hp : 0 < p) : Every p fun t => 0 < t ∧ p ∣ t := by
  intro t ht
  have hafter := every_dvd hp t ht.2
  exact ⟨hp, ⟨by omega, hafter.then_due⟩, fun i hi hip hdue => hafter.between i hi hip hdue.2⟩

/-- The first multiple but zero. -/
theorem next_pos_dvd (hp : 0 < p) : Next (fun t => 0 < t ∧ p ∣ t) 0 p where
  then_due := by
    rw [Nat.zero_add]
    exact ⟨hp, Nat.dvd_refl p⟩
  before i hip hdue := by
    rw [Nat.zero_add] at hdue
    exact absurd (Nat.le_of_dvd hdue.1 hdue.2) (Nat.not_le.mpr hip)

end Countdown
