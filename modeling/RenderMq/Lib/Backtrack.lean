import Mathlib.Data.List.Infix
import Mathlib.Data.List.Basic

/-!
# Regular expressions that backtrack

A pattern is matched from left to right. A repetition is greedy: it tries the longest text first, and
what comes after the repetition says whether that one will do (`many`). So the pattern is written with
what comes after as an argument.

What a repetition ends up with is the longest text that will do (`many_eq_some_iff`). Where what comes
after begins with no token of the repetition, there is only one such text (`many_append`).
-/

namespace Backtrack

variable {τ β : Type*}

/-- What is made of an input that matches. -/
abbrev Matcher (τ β : Type*) := List τ → Option β

/-- The texts of a kind of tokens that an input begins with, and what comes after each; the longest
text is the first. -/
def runs (q : τ → Bool) : List τ → List (List τ × List τ)
  | [] => [([], [])]
  | a :: input =>
    if q a then ((runs q input).map fun s => (a :: s.1, s.2)) ++ [([], a :: input)]
    else [([], a :: input)]

/-- `q*`, and then a pattern. -/
def many (q : τ → Bool) (after : List τ → Matcher τ β) : Matcher τ β := fun input =>
  (runs q input).findSome? fun s => after s.1 s.2

/-- `q+`, and then a pattern. -/
def many1 (q : τ → Bool) (after : List τ → Matcher τ β) : Matcher τ β :=
  many q fun s rest => if s.isEmpty then none else after s rest

/-- A text, and then a pattern. -/
def text [DecidableEq τ] (s : List τ) (after : Matcher τ β) : Matcher τ β := fun input =>
  if s <+: input then after (input.drop s.length) else none

/-- The end of the input. -/
def atEnd (v : β) : Matcher τ β := fun input => if input.isEmpty then some v else none

/-! ## Repetitions -/

variable {q : τ → Bool} {after : List τ → Matcher τ β}

theorem many_nil : many q after [] = after [] [] := by
  rw [many, runs, List.findSome?_singleton]

theorem many_cons_of_neg {a : τ} (ha : ¬ q a = true) (input : List τ) :
    many q after (a :: input) = after [] (a :: input) := by
  rw [many, runs, if_neg ha, List.findSome?_singleton]

theorem many_cons_of_pos {a : τ} (ha : q a = true) (input : List τ) :
    many q after (a :: input) =
      (many q (fun s => after (a :: s)) input).or (after [] (a :: input)) := by
  rw [many, runs, if_pos ha, List.findSome?_append, List.findSome?_map, List.findSome?_singleton]
  rfl

/-- A text that a repetition may match, and what comes after it. -/
structure Splits (q : τ → Bool) (input s rest : List τ) : Prop where
  eq : input = s ++ rest
  kind : ∀ a ∈ s, q a = true

theorem Splits.nil (input : List τ) : Splits q input [] input := ⟨rfl, by simp⟩

theorem splits_nil_iff {s rest : List τ} : Splits q [] s rest ↔ s = [] ∧ rest = [] := by
  constructor
  · intro h
    exact List.append_eq_nil_iff.mp h.eq.symm
  · rintro ⟨rfl, rfl⟩
    exact .nil []

theorem splits_cons_iff {a : τ} {input s rest : List τ} :
    Splits q (a :: input) s rest ↔
      (s = [] ∧ rest = a :: input) ∨ (q a = true ∧ ∃ s', s = a :: s' ∧ Splits q input s' rest) := by
  constructor
  · rintro ⟨heq, hkind⟩
    cases s with
    | nil => exact .inl ⟨rfl, heq.symm⟩
    | cons b s =>
      obtain ⟨rfl, htail⟩ := List.cons_eq_cons.mp heq
      obtain ⟨ha, hrest⟩ := List.forall_mem_cons.mp hkind
      exact .inr ⟨ha, s, rfl, htail, hrest⟩
  · rintro (⟨rfl, rfl⟩ | ⟨ha, s, rfl, rfl, hkind⟩)
    · exact .nil _
    · exact ⟨rfl, List.forall_mem_cons.mpr ⟨ha, hkind⟩⟩

theorem many_eq_none_iff {input : List τ} :
    many q after input = none ↔ ∀ s rest, Splits q input s rest → after s rest = none := by
  induction input generalizing after with
  | nil =>
    rw [many_nil]
    constructor
    · intro h s rest hsplit
      obtain ⟨rfl, rfl⟩ := splits_nil_iff.mp hsplit
      exact h
    · exact fun h => h [] [] (.nil [])
  | cons a input ih =>
    by_cases ha : q a = true
    · rw [many_cons_of_pos ha, Option.or_eq_none_iff, ih]
      constructor
      · rintro ⟨hlonger, hempty⟩ s rest hsplit
        rcases splits_cons_iff.mp hsplit with ⟨rfl, rfl⟩ | ⟨_, s, rfl, htail⟩
        · exact hempty
        · exact hlonger s rest htail
      · intro h
        refine ⟨fun s rest hsplit => ?_, h [] _ (.nil _)⟩
        exact h _ rest (splits_cons_iff.mpr (.inr ⟨ha, s, rfl, hsplit⟩))
    · rw [many_cons_of_neg ha]
      constructor
      · intro hempty s rest hsplit
        rcases splits_cons_iff.mp hsplit with ⟨rfl, rfl⟩ | ⟨hq, _⟩
        · exact hempty
        · exact absurd hq ha
      · exact fun h => h [] _ (.nil _)

/-- **The longest text that will do.** -/
theorem many_eq_some_iff {input : List τ} {v : β} :
    many q after input = some v ↔ ∃ s rest, Splits q input s rest ∧ after s rest = some v ∧
      ∀ s' rest', Splits q input s' rest' → s.length < s'.length → after s' rest' = none := by
  induction input generalizing after with
  | nil =>
    rw [many_nil]
    constructor
    · intro h
      refine ⟨[], [], .nil [], h, fun s' rest' hsplit hlt => ?_⟩
      obtain ⟨rfl, _⟩ := splits_nil_iff.mp hsplit
      exact absurd hlt (Nat.lt_irrefl _)
    · rintro ⟨s, rest, hsplit, h, _⟩
      obtain ⟨rfl, rfl⟩ := splits_nil_iff.mp hsplit
      exact h
  | cons a input ih =>
    by_cases ha : q a = true
    · have hlift {s' rest' : List τ} (hsplit : Splits q input s' rest') :
          Splits q (a :: input) (a :: s') rest' :=
        splits_cons_iff.mpr (.inr ⟨ha, s', rfl, hsplit⟩)
      rw [many_cons_of_pos ha, Option.or_eq_some_iff, ih, many_eq_none_iff]
      constructor
      · rintro (⟨s, rest, hsplit, h, hlongest⟩ | ⟨hnone, h⟩)
        · refine ⟨a :: s, rest, hlift hsplit, h, fun s' rest' hsplit' hlt => ?_⟩
          rcases splits_cons_iff.mp hsplit' with ⟨rfl, _⟩ | ⟨_, s', rfl, htail⟩
          · exact absurd hlt (Nat.not_lt_zero _)
          · exact hlongest s' rest' htail (Nat.lt_of_succ_lt_succ hlt)
        · refine ⟨[], a :: input, .nil _, h, fun s' rest' hsplit' hlt => ?_⟩
          rcases splits_cons_iff.mp hsplit' with ⟨rfl, _⟩ | ⟨_, s', rfl, htail⟩
          · exact absurd hlt (Nat.lt_irrefl _)
          · exact hnone s' rest' htail
      · rintro ⟨s, rest, hsplit, h, hlongest⟩
        rcases splits_cons_iff.mp hsplit with ⟨rfl, rfl⟩ | ⟨_, s, rfl, htail⟩
        · refine .inr ⟨fun s' rest' hsplit' => ?_, h⟩
          exact hlongest (a :: s') rest' (hlift hsplit') (Nat.zero_lt_succ _)
        · refine .inl ⟨s, rest, htail, h, fun s' rest' hsplit' hlt => ?_⟩
          exact hlongest (a :: s') rest' (hlift hsplit') (Nat.succ_lt_succ hlt)
    · rw [many_cons_of_neg ha]
      constructor
      · intro h
        refine ⟨[], a :: input, .nil _, h, fun s' rest' hsplit' hlt => ?_⟩
        rcases splits_cons_iff.mp hsplit' with ⟨rfl, _⟩ | ⟨hq, _⟩
        · exact absurd hlt (Nat.lt_irrefl _)
        · exact absurd hq ha
      · rintro ⟨s, rest, hsplit, h, _⟩
        rcases splits_cons_iff.mp hsplit with ⟨rfl, rfl⟩ | ⟨hq, _⟩
        · exact h
        · exact absurd hq ha

/-- Where what comes after a repetition begins with no token of it, there is one text for it. -/
theorem many_append {s rest : List τ} (hs : ∀ a ∈ s, q a = true)
    (hrest : ∀ a ∈ rest.head?, q a = false)
    (hafter : ∀ s' a rest', q a = true → after s' (a :: rest') = none) :
    many q after (s ++ rest) = after s rest := by
  induction s generalizing after with
  | nil =>
    cases rest with
    | nil => exact many_nil
    | cons a rest => exact many_cons_of_neg (by simp [hrest a rfl]) rest
  | cons a s ih =>
    obtain ⟨ha, hs⟩ := List.forall_mem_cons.mp hs
    rw [List.cons_append, many_cons_of_pos ha, ih hs fun s' => hafter (a :: s'), hafter [] a _ ha,
      Option.or_none]

theorem many1_append {s rest : List τ} (hne : s ≠ []) (hs : ∀ a ∈ s, q a = true)
    (hrest : ∀ a ∈ rest.head?, q a = false)
    (hafter : ∀ s' a rest', q a = true → after s' (a :: rest') = none) :
    many1 q after (s ++ rest) = after s rest := by
  rw [many1, many_append hs hrest]
  · rw [if_neg (by simpa using hne)]
  · intro s' a rest' ha
    split
    · rfl
    · exact hafter s' a rest' ha

theorem many1_eq_some {input : List τ} {v : β} (h : many1 q after input = some v) :
    ∃ s rest, s ≠ [] ∧ Splits q input s rest ∧ after s rest = some v := by
  obtain ⟨s, rest, hsplit, hafter, _⟩ := many_eq_some_iff.mp h
  split at hafter
  · cases hafter
  · next hne => exact ⟨s, rest, by simpa using hne, hsplit, hafter⟩

/-! ## Texts -/

section Texts

variable [DecidableEq τ] {s : List τ} {next : Matcher τ β}

theorem text_append (rest : List τ) : text s next (s ++ rest) = next rest := by
  rw [text, if_pos (List.prefix_append s rest), List.drop_left]

theorem text_eq_some {input : List τ} {v : β} (h : text s next input = some v) :
    ∃ rest, input = s ++ rest ∧ next rest = some v := by
  unfold text at h
  split at h
  · next hprefix =>
    obtain ⟨rest, rfl⟩ := hprefix
    rw [List.drop_left] at h
    exact ⟨rest, rfl, h⟩
  · cases h

/-- A text fails where its first token is not there. -/
theorem text_cons_ne {a b : τ} (h : a ≠ b) (input : List τ) :
    text (a :: s) next (b :: input) = none :=
  if_neg fun hprefix => h (List.cons_prefix_cons.mp hprefix).1

end Texts

end Backtrack
