import RenderMq.Lib.MultiIndex
import Mathlib.Data.Prod.Lex
import Mathlib.Tactic.Push

/-!
# Changing elements while walking the index that orders them

A walk over the second index of a container, from its first element to its last, that changes every
element a rule applies to. The change sets the very key the walk goes by, so the container relinks the
element and the walk resumes after the place it was moved to.

**What is proved.** The walk ends, and an element is either left as it was or changed once
(`find_sweepFrom`). When the change sets every element to one key `k`, `find_sweep_iff` says exactly
which elements are changed: those the rule applies to that are not jumped over (`Jumped`). One that
is changed below `k`, and is not the last below `k`, is moved past all that are at or below `k`, and
they are never seen. So `sweep_complete_iff` says when the walk reaches every element the rule applies
to.

The reason is in `relink`: an element moved to the upper bound of `k` leaves everything at or below
`k` behind the walk.
-/

open OrderedIndex

namespace MultiIndex

variable {α ι κ₁ κ₂ : Type*} [LinearOrder κ₁] [LinearOrder κ₂] [DecidableEq ι]
variable {ident : α → ι} {key₁ : α → κ₁} {key₂ : α → κ₂}

/-- A rule of a walk: which elements it changes, and the change, after which it does not apply. -/
structure Rule (ident : α → ι) extends Modifier ident where
  applies : α → Bool
  stops : ∀ a, applies (run a) = false

omit [LinearOrder κ₁] [LinearOrder κ₂] [DecidableEq ι] in
/-- What a rule applies to is changed by it. -/
theorem Rule.run_ne (r : Rule ident) {a : α} (ha : r.applies a = true) : r.run a ≠ a := by
  intro hsame
  have hstops := r.stops a
  rw [hsame, ha] at hstops
  cases hstops

/-- Where the element of an identity stands in the second index. -/
def position (m : MultiIndex ident key₁ key₂) (i : ι) : Nat :=
  m.second.findIdx fun a => decide (ident a = i)

/-- The second index after a change, given where the changed element stood. -/
theorem modify_second_of_split {m : MultiIndex ident key₁ key₂} {before after : List α} {a : α}
    (h : m.second = before ++ a :: after) (f : Modifier ident) :
    (m.modify (ident a) f).second =
        (relink key₂ before (f.run a) after).1 ++ f.run a :: (relink key₂ before (f.run a) after).2 ∧
      (m.modify (ident a) f).position (ident a) =
        (relink key₂ before (f.run a) after).1.length := by
  have hunique := m.unique₂
  rw [h, List.map_append, List.map_cons] at hunique
  have hothers : ∀ b ∈ before ++ after, ident b ≠ ident a := by
    intro b hb heq
    refine (List.nodup_cons.mp (List.nodup_middle.mp hunique)).1 ?_
    rw [← List.map_append]
    exact List.mem_map.mpr ⟨b, hb, heq⟩
  have hsecond : (m.modify (ident a) f).second =
      (relink key₂ before (f.run a) after).1 ++
        f.run a :: (relink key₂ before (f.run a) after).2 := by
    simp only [modify, h]
    refine modify_of_split (fun b hb => ?_) (by simp)
    simpa using hothers b (List.mem_append_left _ hb)
  refine ⟨hsecond, ?_⟩
  have hfree : ∀ b ∈ (relink key₂ before (f.run a) after).1,
      decide (ident b = ident a) = false := by
    intro b hb
    have hmem : b ∈ before ++ after := by
      rw [← relink_append key₂ before (f.run a) after]
      exact List.mem_append_left _ hb
    simpa using hothers b hmem
  rw [position, hsecond, List.findIdx_append, if_neg]
  · rw [List.findIdx_cons]
    simp [f.keeps]
  · rw [List.findIdx_eq_length_of_false hfree]
    exact lt_irrefl _

/-- A change replaces one element of the second index, and keeps the others. -/
theorem modify_second_replace {m : MultiIndex ident key₁ key₂} {i : ι} {a : α}
    (h : m.find i = some a) (f : Modifier ident) :
    ∃ rest, m.second.Perm (a :: rest) ∧ (m.modify i f).second.Perm (f.run a :: rest) := by
  obtain ⟨rest, hold, hnew⟩ := modify_first_replace h f
  exact ⟨rest, m.same.trans hold, (m.modify i f).same.trans hnew⟩

/-! ## The walk -/

section Walk

variable (r : Rule ident)

/-- The rule no longer applies to a changed element, so a change leaves fewer it applies to. -/
theorem countP_modify_lt {m : MultiIndex ident key₁ key₂} {a : α} (hmem : a ∈ m.second)
    (ha : r.applies a = true) :
    (m.modify (ident a) r.toModifier).second.countP r.applies < m.second.countP r.applies := by
  obtain ⟨rest, hold, hnew⟩ :=
    modify_second_replace (find_of_mem (m.same.mem_iff.mp hmem)) r.toModifier
  rw [hold.countP_eq, hnew.countP_eq, List.countP_cons, List.countP_cons, r.stops a, ha]
  simp

/-- The walk from position `n`: change the element there if the rule applies, and go on after
wherever it now stands. -/
def sweepFrom (m : MultiIndex ident key₁ key₂) (n : Nat) : MultiIndex ident key₁ key₂ :=
  match h : m.second[n]? with
  | none => m
  | some a =>
    if hp : r.applies a = true then
      let m' := m.modify (ident a) r.toModifier
      sweepFrom m' (m'.position (ident a) + 1)
    else sweepFrom m (n + 1)
termination_by (m.second.countP r.applies, m.second.length - n)
decreasing_by
  · exact Prod.Lex.left _ _ (countP_modify_lt r (List.mem_of_getElem? h) hp)
  · refine Prod.Lex.right _ ?_
    have := (List.getElem?_eq_some_iff.mp h).1
    omega

/-- The walk over the whole index. -/
def sweep (m : MultiIndex ident key₁ key₂) : MultiIndex ident key₁ key₂ :=
  sweepFrom r m 0

/-- The walk has reached the end. -/
theorem sweepFrom_end {m : MultiIndex ident key₁ key₂} {before : List α}
    (h : m.second = before) : sweepFrom r m before.length = m := by
  rw [sweepFrom]
  split
  · rfl
  · next a ha =>
    rw [h, List.getElem?_eq_none (le_refl _)] at ha
    cases ha

/-- The walk is at an element. -/
theorem sweepFrom_at {m : MultiIndex ident key₁ key₂} {before after : List α} {a : α}
    (h : m.second = before ++ a :: after) :
    sweepFrom r m before.length =
      if r.applies a = true then
        sweepFrom r (m.modify (ident a) r.toModifier)
          ((m.modify (ident a) r.toModifier).position (ident a) + 1)
      else sweepFrom r m (before.length + 1) := by
  have hat : m.second[before.length]? = some a := by simp [h]
  rw [sweepFrom]
  split
  · next hnone =>
    rw [hat] at hnone
    cases hnone
  · next b hb =>
    rw [hat] at hb
    obtain rfl := Option.some.inj hb
    split
    · rfl
    · rfl

/-- The walk passes an element that the rule does not apply to. -/
theorem sweepFrom_skip {m : MultiIndex ident key₁ key₂} {before after : List α} {a : α}
    (h : m.second = before ++ a :: after) (ha : r.applies a = false) :
    sweepFrom r m before.length = sweepFrom r m (before ++ [a]).length := by
  rw [sweepFrom_at r h, ha, if_neg Bool.false_ne_true, List.length_append, List.length_singleton]

/-- The walk changes an element the rule applies to, and resumes after its new place. -/
theorem sweepFrom_change {m : MultiIndex ident key₁ key₂} {before after : List α} {a : α}
    (h : m.second = before ++ a :: after) (ha : r.applies a = true) :
    sweepFrom r m before.length =
      sweepFrom r (m.modify (ident a) r.toModifier)
        ((relink key₂ before (r.run a) after).1 ++ [r.run a]).length := by
  rw [sweepFrom_at r h, if_pos ha, (modify_second_of_split h r.toModifier).2, List.length_append,
    List.length_singleton]

/-- What a change leaves behind the walk and ahead of it. -/
theorem modify_second_resume {m : MultiIndex ident key₁ key₂} {before after : List α} {a : α}
    (h : m.second = before ++ a :: after) :
    (m.modify (ident a) r.toModifier).second =
      ((relink key₂ before (r.run a) after).1 ++ [r.run a]) ++
        (relink key₂ before (r.run a) after).2 := by
  rw [(modify_second_of_split h r.toModifier).1, List.append_assoc, List.singleton_append]

/-- Induction over the walk, on the elements behind it and the elements ahead of it. -/
theorem sweep_induction
    {motive : ∀ (m : MultiIndex ident key₁ key₂) (before after : List α),
      m.second = before ++ after → Prop}
    (atEnd : ∀ m before h, motive m before [] h)
    (skip : ∀ m before a after h, r.applies a = false →
      motive m (before ++ [a]) after (by rw [h, List.append_cons]) → motive m before (a :: after) h)
    (change : ∀ m before a after h, r.applies a = true →
      motive (m.modify (ident a) r.toModifier)
        ((relink key₂ before (r.run a) after).1 ++ [r.run a])
        (relink key₂ before (r.run a) after).2 (modify_second_resume r h) →
      motive m before (a :: after) h)
    (m : MultiIndex ident key₁ key₂) (before after : List α) (h : m.second = before ++ after) :
    motive m before after h := by
  match after, h with
  | [], h => exact atEnd m before h
  | a :: after, h =>
    cases ha : r.applies a with
    | false => exact skip m before a after h ha (sweep_induction atEnd skip change ..)
    | true => exact change m before a after h ha (sweep_induction atEnd skip change ..)
termination_by (m.second.countP r.applies, after.length)
decreasing_by
  · exact Prod.Lex.right _ (by simp)
  · exact Prod.Lex.left _ _ (countP_modify_lt r (by simp [h]) ha)

/-! ## An element is changed once or not at all -/

/-- The walk leaves an identity alone, or changes what it stood for, once. -/
theorem find_sweepFrom (m : MultiIndex ident key₁ key₂) (before after : List α)
    (h : m.second = before ++ after) (i : ι) :
    (sweepFrom r m before.length).find i = m.find i ∨
      ∃ a, m.find i = some a ∧ r.applies a = true ∧
        (sweepFrom r m before.length).find i = some (r.run a) := by
  induction m, before, after, h using sweep_induction r with
  | atEnd m before h => exact .inl (by rw [sweepFrom_end r (by simpa using h)])
  | skip m before a after h ha ih => rwa [sweepFrom_skip r h ha]
  | change m before a after h ha ih =>
    rw [sweepFrom_change r h ha]
    have hfind : m.find (ident a) = some a :=
      find_of_mem (m.same.mem_iff.mp (by simp [h]))
    rw [find_modify] at ih
    split at ih
    · next hi =>
      subst hi
      rw [hfind, Option.map_some] at ih
      rcases ih with ih | ⟨b, hb, hpb, _⟩
      · exact .inr ⟨a, hfind, ha, ih⟩
      · obtain rfl := Option.some.inj hb
        rw [r.stops a] at hpb
        cases hpb
    · exact ih

theorem find_sweep (m : MultiIndex ident key₁ key₂) (i : ι) :
    (m.sweep r).find i = m.find i ∨
      ∃ a, m.find i = some a ∧ r.applies a = true ∧ (m.sweep r).find i = some (r.run a) :=
  find_sweepFrom r m [] m.second rfl i

/-- A walk whose change keeps some part of an element keeps that part of all elements. -/
theorem sweep_map_perm {β : Type*} {g : α → β} (same : ∀ a, g (r.run a) = g a)
    (m : MultiIndex ident key₁ key₂) : ((m.sweep r).first.map g).Perm (m.first.map g) := by
  have walk : ∀ (m : MultiIndex ident key₁ key₂) before after (_ : m.second = before ++ after),
      ((sweepFrom r m before.length).first.map g).Perm (m.first.map g) := by
    intro m before after h
    induction m, before, after, h using sweep_induction r with
    | atEnd m before h => rw [sweepFrom_end r (by simpa using h)]
    | skip m before a after h ha ih => rwa [sweepFrom_skip r h ha]
    | change m before a after h ha ih =>
      rw [sweepFrom_change r h ha]
      exact ih.trans (modify_map_perm same _)
  exact walk m [] m.second rfl

/-! ## Which elements the walk reaches -/

/-- An element at or below `k` is jumped over: one before it that the rule applies to has a key below
`k` and is not the last below `k`, so that it is moved past all that are at or below `k`. -/
def Jumped (key : α → κ₂) (k : κ₂) (y : α) : List α → Prop
  | [] => False
  | a :: after =>
    (r.applies a = true ∧ key a < k ∧ y ∈ after ∧ key y ≤ k ∧ ∃ b ∈ after, key b < k) ∨
      Jumped key k y after

instance instDecidableJumped [DecidableEq α] (key : α → κ₂) (k : κ₂) (y : α) :
    ∀ l : List α, Decidable (Jumped r key k y l)
  | [] => inferInstanceAs (Decidable False)
  | _ :: after =>
    have := instDecidableJumped key k y after
    inferInstanceAs (Decidable (_ ∨ _))

omit [DecidableEq ι] in
/-- An element that is jumped over is at or below `k`, behind another element below `k`. -/
theorem of_jumped {key : α → κ₂} {k : κ₂} {y : α} :
    ∀ {l : List α}, Jumped r key k y l → y ∈ l ∧ key y ≤ k ∧ ∃ a ∈ l, key a < k
  | a :: after, h => by
    rcases h with ⟨_, hak, hy, hyk, _⟩ | h
    · exact ⟨List.mem_cons_of_mem a hy, hyk, a, List.mem_cons_self, hak⟩
    · obtain ⟨hy, hyk, b, hb, hbk⟩ := of_jumped h
      exact ⟨List.mem_cons_of_mem a hy, hyk, b, List.mem_cons_of_mem a hb, hbk⟩

omit [DecidableEq ι] in
/-- An element that the rule does not apply to makes the walk jump over nothing. -/
theorem jumped_cons_skip {key : α → κ₂} {k : κ₂} {y a : α} {after : List α}
    (ha : r.applies a = false) : Jumped r key k y (a :: after) ↔ Jumped r key k y after := by
  simp [Jumped, ha]

omit [DecidableEq ι] in
/-- The rest of the index is sorted too. -/
theorem sorted_rest {m : MultiIndex ident key₁ key₂} {before after : List α} {a : α}
    (h : m.second = before ++ a :: after) : Sorted key₂ (before ++ after) := by
  have hall : Sorted key₂ (before ++ a :: after) := h ▸ m.sorted₂
  exact hall.sublist (List.Sublist.append_left (List.sublist_cons_self a _) _)

variable {k : κ₂} (sets : ∀ a, key₂ (r.run a) = k)

include sets in
/-- What is behind the walk at or below `k` stays behind it, and stays as it is. -/
theorem behind_sweepFrom (m : MultiIndex ident key₁ key₂) (before after : List α)
    (h : m.second = before ++ after) :
    ∀ b ∈ before, key₂ b ≤ k → b ∈ (sweepFrom r m before.length).second := by
  induction m, before, after, h using sweep_induction r with
  | atEnd m before h =>
    intro b hb _
    rw [List.append_nil] at h
    rw [sweepFrom_end r h, h]
    exact hb
  | skip m before a after h ha ih =>
    intro b hb hle
    rw [sweepFrom_skip r h ha]
    exact ih b (List.mem_append_left _ hb) hle
  | change m before a after h ha ih =>
    intro b hb hle
    rw [sweepFrom_change r h ha]
    refine ih b (List.mem_append_left _ ?_) hle
    unfold relink
    split
    · exact hb
    · -- not in place: the element is linked at the upper bound of `k`, after `b`
      rw [sets a]
      exact mem_upper_fst (sorted_rest h) (List.mem_append_left _ hb) hle

include sets in
omit [DecidableEq ι] in
/-- An element that is moved, with another one up to `k` after it, stands before the last element below
`k`. -/
theorem lt_of_not_inPlace {before after : List α} {a y : α}
    (hall : Sorted key₂ (before ++ a :: after))
    (hin : ¬ inPlace key₂ before (r.run a) after = true) (hy : y ∈ after) (hyk : key₂ y ≤ k) :
    key₂ a < k ∧ ∃ b ∈ after, key₂ b < k := by
  obtain ⟨hbefore, hafter, hcross⟩ := List.pairwise_append.mp hall
  obtain ⟨hhead, hrest⟩ := List.pairwise_cons.mp hafter
  rw [inPlace_iff hbefore hrest, sets a] at hin
  have hup : ∀ b ∈ before, key₂ b ≤ k := fun b hb =>
    le_trans (hcross b hb a List.mem_cons_self) (le_trans (hhead y hy) hyk)
  have hlast : ∃ b ∈ after, key₂ b < k := by
    by_contra hnone
    exact hin ⟨hup, fun b hb => le_of_not_gt fun hbk => hnone ⟨b, hb, hbk⟩⟩
  obtain ⟨b, hb, hbk⟩ := hlast
  exact ⟨lt_of_le_of_lt (hhead b hb) hbk, b, hb, hbk⟩

include sets in
/-- The walk changes an element that is ahead of it, and that the rule applies to, exactly when it is
not jumped over. -/
theorem find_sweepFrom_iff (m : MultiIndex ident key₁ key₂) (before after : List α)
    (h : m.second = before ++ after) {y : α} (hy : y ∈ after) (hpy : r.applies y = true) :
    (sweepFrom r m before.length).find (ident y) = some (r.run y) ↔
      ¬ Jumped r key₂ k y after := by
  induction m, before, after, h using sweep_induction r with
  | atEnd m before h => exact absurd hy List.not_mem_nil
  | skip m before a after h ha ih =>
    have hne : y ≠ a := by
      rintro rfl
      rw [ha] at hpy
      cases hpy
    rw [sweepFrom_skip r h ha, jumped_cons_skip r ha]
    exact ih ((List.mem_cons.mp hy).resolve_left hne)
  | change m before a after h ha ih =>
    have hall : Sorted key₂ (before ++ a :: after) := h ▸ m.sorted₂
    have hrest := sorted_rest h
    have hresume := modify_second_resume r h
    have hfresh : a ∉ after := by
      have hunique := m.unique₂.of_map
      rw [h] at hunique
      exact (List.nodup_cons.mp (List.nodup_append.mp hunique).2.1).1
    rw [sweepFrom_change r h ha]
    rcases List.mem_cons.mp hy with rfl | hy
    · -- the changed element stays behind the walk; nothing before it in the rest could jump over it
      refine iff_of_true ?_ ?_
      · have hstay := behind_sweepFrom r sets _ _ _ hresume (r.run y) (by simp) (le_of_eq (sets y))
        have hfind := find_of_mem ((sweepFrom r _ _).same.mem_iff.mp hstay)
        rwa [r.keeps y] at hfind
      · rintro (⟨_, _, hmem, _⟩ | hjumped)
        · exact hfresh hmem
        · exact hfresh (of_jumped r hjumped).1
    by_cases hin : inPlace key₂ before (r.run a) after = true
    · have hr : relink key₂ before (r.run a) after = (before, after) := if_pos hin
      obtain ⟨hbefore, hafter, -⟩ := List.pairwise_append.mp hall
      have hge := ((inPlace_iff hbefore (List.pairwise_cons.mp hafter).2).mp hin).2
      rw [sets a] at hge
      have hnone : ¬ ∃ b ∈ after, key₂ b < k := by
        rintro ⟨b, hb, hbk⟩
        exact not_lt_of_ge (hge b hb) hbk
      have hfree : ¬ Jumped r key₂ k y after := fun hjumped => hnone (of_jumped r hjumped).2.2
      rw [hr] at ih ⊢
      refine iff_of_true ((ih hy).mpr hfree) ?_
      rintro (⟨_, _, _, _, hbelow⟩ | hjumped)
      · exact hnone hbelow
      · exact hfree hjumped
    · have hr : relink key₂ before (r.run a) after = upper key₂ k (before ++ after) := by
        rw [relink, if_neg hin, sets a]
      rw [hr] at ih hresume ⊢
      by_cases hyk : key₂ y ≤ k
      · -- `y` is left behind the walk, which never comes back to it
        have hbehind := mem_upper_fst hrest (List.mem_append_right _ hy) hyk
        have hstay := behind_sweepFrom r sets _ _ _ hresume y (List.mem_append_left _ hbehind) hyk
        obtain ⟨hak, hbelow⟩ := lt_of_not_inPlace r sets hall hin hy hyk
        refine iff_of_false ?_ (not_not.mpr (.inl ⟨ha, hak, hy, hyk, hbelow⟩))
        rw [find_of_mem ((sweepFrom r _ _).same.mem_iff.mp hstay)]
        exact fun hsame => r.run_ne hpy (Option.some.inj hsame).symm
      · -- `y` is still ahead, where all keys are past `k`
        have hahead : y ∈ (upper key₂ k (before ++ after)).2 := by
          have hmem := List.mem_append_right before hy
          rw [← upper_append key₂ k (before ++ after)] at hmem
          exact (List.mem_append.mp hmem).resolve_left fun hleft => hyk (le_of_mem_upper_fst hleft)
        refine iff_of_true ((ih hahead).mpr fun hjumped => hyk (of_jumped r hjumped).2.1) ?_
        exact fun hjumped => hyk (of_jumped r hjumped).2.1

include sets in
/-- **What the walk does to an element**: it changes it, if the rule applies and it is not jumped
over. -/
theorem find_sweep_iff {m : MultiIndex ident key₁ key₂} {i : ι} {y : α} (h : m.find i = some y)
    (hpy : r.applies y = true) :
    (m.sweep r).find i = some (r.run y) ↔ ¬ Jumped r key₂ k y m.second := by
  rw [← ident_of_find h]
  exact find_sweepFrom_iff r sets m [] m.second rfl (m.same.mem_iff.mpr (mem_of_find h)) hpy

/-! ## When the walk reaches everything -/

/-- No element the rule applies to is jumped over: one with a key below `k` has none after it at or
below `k`, or nothing at all after it below `k`. -/
def NoneJumped (key : α → κ₂) (k : κ₂) : List α → Prop
  | [] => True
  | a :: after =>
    (r.applies a = true → key a < k →
      (∀ b ∈ after, r.applies b = true → k < key b) ∨ ∀ b ∈ after, k ≤ key b) ∧
    NoneJumped key k after

instance instDecidableNoneJumped (key : α → κ₂) (k : κ₂) :
    ∀ l : List α, Decidable (NoneJumped r key k l)
  | [] => inferInstanceAs (Decidable True)
  | _ :: after =>
    have := instDecidableNoneJumped key k after
    inferInstanceAs (Decidable (_ ∧ _))

omit [DecidableEq ι] in
/-- None is jumped over: every single element that the rule applies to is not. -/
theorem noneJumped_iff {key : α → κ₂} {k : κ₂} :
    ∀ {l : List α}, l.Nodup →
      (NoneJumped r key k l ↔ ∀ y ∈ l, r.applies y = true → ¬ Jumped r key k y l)
  | [], _ => by simp [NoneJumped]
  | a :: after, hnodup => by
    obtain ⟨hfresh, hnodup⟩ := List.nodup_cons.mp hnodup
    rw [NoneJumped, noneJumped_iff hnodup, List.forall_mem_cons]
    constructor
    · rintro ⟨hhead, hafter⟩
      refine ⟨fun _ => ?_, fun y hy hpy => ?_⟩
      · rintro (⟨_, _, hmem, _⟩ | hjumped)
        · exact hfresh hmem
        · exact hfresh (of_jumped r hjumped).1
      · rintro (⟨ha, hak, _, hyk, b, hb, hbk⟩ | hjumped)
        · rcases hhead ha hak with hpast | hlast
          · exact not_lt_of_ge hyk (hpast y hy hpy)
          · exact not_lt_of_ge (hlast b hb) hbk
        · exact hafter y hy hpy hjumped
    · rintro ⟨_, hafter⟩
      refine ⟨fun ha hak => ?_, fun y hy hpy hjumped => hafter y hy hpy (.inr hjumped)⟩
      by_cases hbelow : ∃ b ∈ after, key b < k
      · refine .inl fun y hy hpy => lt_of_not_ge fun hyk => ?_
        exact hafter y hy hpy (.inl ⟨ha, hak, hy, hyk, hbelow⟩)
      · exact .inr fun b hb => le_of_not_gt fun hbk => hbelow ⟨b, hb, hbk⟩

omit [DecidableEq ι] in
/-- Where all elements the rule applies to have a key below `k`, one is jumped over as soon as there
are two. -/
theorem noneJumped_iff_countP {key : α → κ₂} {k : κ₂} :
    ∀ {l : List α}, (∀ a ∈ l, r.applies a = true → key a < k) →
      (NoneJumped r key k l ↔ l.countP r.applies ≤ 1)
  | [], _ => by simp [NoneJumped]
  | a :: after, below => by
    have hafter : ∀ b ∈ after, r.applies b = true → key b < k :=
      fun b hb => below b (List.mem_cons_of_mem a hb)
    have ih := noneJumped_iff_countP hafter
    cases ha : r.applies a with
    | false => simpa [NoneJumped, ha] using ih
    | true =>
      have hnone : ((∀ b ∈ after, r.applies b = true → k < key b) ∨ ∀ b ∈ after, k ≤ key b) ↔
          after.countP r.applies = 0 := by
        rw [List.countP_eq_zero]
        constructor
        · rintro (h | h) b hb hpb
          · exact lt_asymm (h b hb hpb) (hafter b hb hpb)
          · exact absurd (hafter b hb hpb) (not_lt_of_ge (h b hb))
        · exact fun h => .inl fun b hb hpb => absurd hpb (h b hb)
      have hka : key a < k := below a List.mem_cons_self ha
      simp only [NoneJumped, ha, hka, true_implies, hnone, ih, List.countP_cons, if_true]
      omega

/-- The walk has done its work: every element the rule applied to is changed, every other is as it
was. -/
def SweptTo (m m' : MultiIndex ident key₁ key₂) : Prop :=
  ∀ a ∈ m.second, (if r.applies a then r.run a else a) ∈ m'.second

/-- The walk has done its work when it has changed what the rule applies to: the rest it leaves alone. -/
theorem sweptTo_iff (m : MultiIndex ident key₁ key₂) :
    SweptTo r m (m.sweep r) ↔
      ∀ a ∈ m.second, r.applies a = true → (m.sweep r).find (ident a) = some (r.run a) := by
  refine forall₂_congr fun a ha => ?_
  have hfind : m.find (ident a) = some a := find_of_mem (m.same.mem_iff.mp ha)
  cases hpa : r.applies a with
  | true =>
    rw [if_pos rfl, find_eq_some_iff, (m.sweep r).same.mem_iff]
    simp [r.keeps a]
  | false =>
    refine iff_of_true ?_ (fun h => by cases h)
    rw [if_neg (by simp), (m.sweep r).same.mem_iff]
    rcases find_sweep r m (ident a) with hsame | ⟨b, hb, hpb, _⟩
    · exact mem_of_find (hsame.trans hfind)
    · rw [hfind] at hb
      obtain rfl := Option.some.inj hb
      rw [hpa] at hpb
      cases hpb

include sets in
/-- **The walk changes every element the rule applies to, and no other, exactly when none is jumped
over.** -/
theorem sweep_complete_iff (m : MultiIndex ident key₁ key₂) :
    SweptTo r m (m.sweep r) ↔ NoneJumped r key₂ k m.second := by
  rw [sweptTo_iff, noneJumped_iff r m.unique₂.of_map]
  refine forall₃_congr fun y hy hpy => ?_
  exact find_sweepFrom_iff r sets m [] m.second rfl hy hpy

/-- The walk has done its work, by identities. -/
theorem sweptTo_iff_find (m : MultiIndex ident key₁ key₂) :
    SweptTo r m (m.sweep r) ↔
      ∀ i, (m.sweep r).find i = (m.find i).map fun a => if r.applies a then r.run a else a := by
  have hident : ∀ a, ident (if r.applies a then r.run a else a) = ident a := by
    intro a
    split
    · exact r.keeps a
    · rfl
  constructor
  · intro hswept i
    cases hi : m.find i with
    | none =>
      rcases find_sweep r m i with h | ⟨a, ha, _⟩
      · rw [h, hi, Option.map_none]
      · rw [hi] at ha
        cases ha
    | some a =>
      have hmem := hswept a (m.same.mem_iff.mpr (mem_of_find hi))
      refine find_eq_some_iff.mpr ⟨(m.sweep r).same.mem_iff.mp hmem, ?_⟩
      rw [hident, ident_of_find hi]
  · intro hfind a ha
    have h := hfind (ident a)
    rw [find_of_mem (m.same.mem_iff.mp ha), Option.map_some] at h
    exact (m.sweep r).same.mem_iff.mpr (mem_of_find h)

end Walk

end MultiIndex
