import Mathlib.Data.List.Basic
import Mathlib.Data.List.Flatten

/-!
# Lists put together from pieces

Two ways to take a list apart again: at the last separator, when what follows it has none
(`append_separator_inj`); and by counting, when all pieces are equally long
(`getElem?_flatMap_block`). What has no separator in it stands in one of the pieces, if at all
(`infix_append_cons_iff`). What is given in the order of different things is a function of them
(`exists_map_of_nodup`).

A loop that has ended without a failure has not failed in any of its turns (`turn_of_foldlM`), and has
kept what they keep (`kept_of_foldlM`). Where a piece may be missing, the list is missing (`List.flatMapM` in `Option`). What is there is
made of all pieces (`flatMapM_eq_some_iff`), and two lists made piece by piece from the same things
go together (`flatMapM_together`). Where a piece may fail in more than one way, the list fails like
the first piece that does (`flatMapM_eq_error_iff`).
-/

namespace Pieces

universe u v

variable {α β : Type*}

/-- The last separator of a list tells what is before it and after it. -/
theorem append_separator_inj {c : α} {s t before before' : List α} (hs : c ∉ s) (ht : c ∉ t)
    (h : before ++ c :: s = before' ++ c :: t) : before = before' ∧ s = t := by
  have one_way : ∀ {d u v : List α}, c ∉ u → c :: u = d ++ c :: v → d = [] ∧ u = v := by
    intro d u v hu heq
    cases d with
    | nil => exact ⟨rfl, List.tail_eq_of_cons_eq heq⟩
    | cons e d =>
      refine absurd ?_ hu
      rw [List.tail_eq_of_cons_eq heq]
      exact List.mem_append_right d List.mem_cons_self
  rcases List.append_eq_append_iff.mp h with ⟨d, hbefore, heq⟩ | ⟨d, hbefore, heq⟩
  · obtain ⟨rfl, rfl⟩ := one_way hs heq
    exact ⟨by rw [hbefore, List.append_nil], rfl⟩
  · obtain ⟨rfl, rfl⟩ := one_way ht heq
    exact ⟨by rw [hbefore, List.append_nil], rfl⟩

/-- What has no separator in it ends before the separator. -/
theorem prefix_append_cons_iff {c : α} {f s t : List α} (hc : c ∉ f) :
    f <+: s ++ c :: t ↔ f <+: s := by
  induction s generalizing f with
  | nil =>
    cases f with
    | nil => simp
    | cons a f =>
      refine iff_of_false (fun h => hc ?_) (by simp)
      rw [(List.cons_prefix_cons.mp h).1]
      exact List.mem_cons_self
  | cons b s ih =>
    cases f with
    | nil => simp
    | cons a f =>
      rw [List.cons_append, List.cons_prefix_cons, List.cons_prefix_cons,
        ih fun h => hc (List.mem_cons_of_mem a h)]

/-- What has no separator in it stands before the separator or after it. -/
theorem infix_append_cons_iff {c : α} {f s t : List α} (hc : c ∉ f) :
    f <:+: s ++ c :: t ↔ f <:+: s ∨ f <:+: t := by
  induction s with
  | nil =>
    rw [List.nil_append, List.infix_cons_iff, List.infix_nil]
    refine or_congr_left ?_
    rw [← List.prefix_nil]
    exact prefix_append_cons_iff (s := []) hc
  | cons b s ih =>
    have hprefix : f <+: b :: s ++ c :: t ↔ f <+: b :: s := prefix_append_cons_iff hc
    rw [List.cons_append] at hprefix ⊢
    rw [List.infix_cons_iff, hprefix, ih, List.infix_cons_iff, or_assoc]

/-- What begins with something that is not in the first part stands after it. -/
theorem cons_infix_append_iff {a : α} {f s t : List α} (ha : a ∉ s) :
    a :: f <:+: s ++ t ↔ a :: f <:+: t := by
  induction s with
  | nil => rfl
  | cons b s ih =>
    obtain ⟨hab, hs⟩ := not_or.mp (mt List.mem_cons.mpr ha)
    rw [List.cons_append, List.infix_cons_iff, ih hs]
    refine or_iff_right fun h => hab ?_
    exact (List.cons_prefix_cons.mp h).1

/-- Pieces of one length: the `i`-th of the `k`-th. -/
theorem getElem?_flatMap_block {f : α → List β} {n : Nat} (hn : ∀ a, (f a).length = n)
    (l : List α) (k : Nat) {i : Nat} (hi : i < n) :
    (l.flatMap f)[n * k + i]? = l[k]?.bind fun a => (f a)[i]? := by
  induction l generalizing k with
  | nil => rfl
  | cons a l ih =>
    rw [List.flatMap_cons]
    cases k with
    | zero =>
      rw [Nat.mul_zero, Nat.zero_add, List.getElem?_append_left (by rw [hn]; exact hi)]
      rfl
    | succ k =>
      rw [List.getElem?_append_right (by rw [hn, Nat.mul_succ]; omega), hn,
        show n * (k + 1) + i - n = n * k + i by rw [Nat.mul_succ]; omega, ih]
      rfl

/-- What is given in the order of different things is given to these. -/
theorem exists_map_of_nodup [DecidableEq α] {l : List α} {m : List β} (distinct : l.Nodup)
    (length : m.length = l.length) (default : β) : ∃ g : α → β, m = l.map g := by
  refine ⟨fun a => m.getD (l.idxOf a) default, List.ext_getElem (by simpa using length) ?_⟩
  intro i hi hi'
  rw [List.getElem_map, distinct.idxOf_getElem, List.getD_eq_getElem?_getD,
    List.getElem?_eq_getElem hi, Option.getD_some]

/-! ## Pieces that may be missing -/

/-- Each result of a `mapM` comes from an element. -/
theorem exists_of_mem_mapM {f : α → Option β} : ∀ {l : List α} {bs : List β}, l.mapM f = some bs →
    ∀ b ∈ bs, ∃ a ∈ l, f a = some b
  | [], _, h => by
    obtain rfl := Option.some.inj h
    simp
  | a :: l, bs, h => by
    rw [List.mapM_cons] at h
    obtain ⟨b, hb, h⟩ := Option.bind_eq_some_iff.mp h
    obtain ⟨bs', hbs, h⟩ := Option.bind_eq_some_iff.mp h
    obtain rfl := Option.some.inj h
    intro c hc
    rcases List.mem_cons.mp hc with rfl | hc
    · exact ⟨a, List.mem_cons_self, hb⟩
    · obtain ⟨a', ha', hfa'⟩ := exists_of_mem_mapM hbs c hc
      exact ⟨a', List.mem_cons_of_mem _ ha', hfa'⟩

/-- A `mapM` that has a result has one for each element. -/
theorem isSome_of_mapM {f : α → Option β} {l : List α} {bs : List β} (h : l.mapM f = some bs) :
    ∀ a ∈ l, (f a).isSome := by
  induction l generalizing bs with
  | nil => exact fun a ha => absurd ha List.not_mem_nil
  | cons a l ih =>
    rw [List.mapM_cons] at h
    obtain ⟨b, hb, h⟩ := Option.bind_eq_some_iff.mp h
    obtain ⟨bs', hbs, _⟩ := Option.bind_eq_some_iff.mp h
    exact List.forall_mem_cons.mpr ⟨by rw [hb, Option.isSome_some], ih hbs⟩

theorem mapM_eq_pure {m : Type u → Type v} [Monad m] [LawfulMonad m] {γ : Type u} {f : α → m γ}
    {g : α → γ} {l : List α} (h : ∀ a ∈ l, f a = pure (g a)) : l.mapM f = pure (l.map g) := by
  induction l with
  | nil => rfl
  | cons a l ih =>
    rw [List.mapM_cons, h a List.mem_cons_self, ih fun b hb => h b (List.mem_cons_of_mem a hb),
      pure_bind, pure_bind, List.map_cons]

/-- What every turn of a loop keeps. -/
theorem kept_of_foldlM {f : β → α → Option β} {Q : β → Prop}
    (keeps : ∀ b a b', Q b → f b a = some b' → Q b') {l : List α} {b c : β} (hb : Q b)
    (h : l.foldlM f b = some c) : Q c := by
  induction l generalizing b with
  | nil =>
    obtain rfl := Option.some.inj h
    exact hb
  | cons a l ih =>
    rw [List.foldlM_cons] at h
    obtain ⟨b', hfirst, hrest⟩ := Option.bind_eq_some_iff.mp h
    exact ih (keeps b a b' hb hfirst) hrest

/-- What a loop that has ended without a failure did in each of its turns. -/
theorem turn_of_foldlM {f : β → α → Option β} {Q : β → Prop}
    (keeps : ∀ b a b', Q b → f b a = some b' → Q b') {l : List α} {b c : β} (hb : Q b)
    (h : l.foldlM f b = some c) : ∀ a ∈ l, ∃ b b', Q b ∧ f b a = some b' := by
  induction l generalizing b with
  | nil => exact fun a ha => absurd ha List.not_mem_nil
  | cons a l ih =>
    rw [List.foldlM_cons] at h
    obtain ⟨b', hfirst, hrest⟩ := Option.bind_eq_some_iff.mp h
    exact List.forall_mem_cons.mpr ⟨⟨b, b', hb, hfirst⟩, ih (keeps b a b' hb hfirst) hrest⟩

theorem flatMapM_eq_some_iff {f : α → Option (List β)} {l : List α} {bs : List β} :
    l.flatMapM f = some bs ↔
      (∀ a ∈ l, (f a).isSome) ∧ l.flatMap (fun a => (f a).getD []) = bs := by
  induction l generalizing bs with
  | nil => simp
  | cons a l ih =>
    rw [List.flatMapM_cons, List.forall_mem_cons, List.flatMap_cons]
    cases hfa : f a with
    | none => simp
    | some as =>
      cases hl : l.flatMapM f with
      | none =>
        have hmissing : ¬ ∀ a ∈ l, (f a).isSome := by
          intro hall
          have := ih.mpr ⟨hall, rfl⟩
          rw [hl] at this
          cases this
        simp [hmissing]
      | some rest =>
        obtain ⟨hall, hrest⟩ := ih.mp hl
        simpa [hrest] using fun _ => hall

/-- Two lists that are made piece by piece from the same things, each pair of pieces from some
third ones. -/
theorem flatMapM_together {γ δ : Type*} {f : α → Option (List β)} {g : α → Option (List γ)}
    {p : δ → β} {q : δ → γ} {Good : δ → Prop} {l : List α}
    (together : ∀ a ∈ l, ∀ bs, f a = some bs →
      ∃ ds : List δ, (∀ d ∈ ds, Good d) ∧ bs = ds.map p ∧ g a = some (ds.map q)) :
    ∀ bs, l.flatMapM f = some bs →
      ∃ ds : List δ, (∀ d ∈ ds, Good d) ∧ bs = ds.map p ∧ l.flatMapM g = some (ds.map q) := by
  induction l with
  | nil =>
    intro bs hbs
    obtain rfl := Option.some.inj hbs
    exact ⟨[], by simp, rfl, rfl⟩
  | cons a l ih =>
    intro bs hbs
    rw [List.flatMapM_cons] at hbs
    obtain ⟨first, hfirst, hbs⟩ := Option.bind_eq_some_iff.mp hbs
    obtain ⟨rest, hrest, hbs⟩ := Option.bind_eq_some_iff.mp hbs
    obtain rfl := Option.some.inj hbs
    obtain ⟨ds, hgood, rfl, hga⟩ := together a List.mem_cons_self first hfirst
    obtain ⟨ds', hgood', rfl, hgl⟩ :=
      ih (fun a' ha' => together a' (List.mem_cons_of_mem a ha')) rest hrest
    refine ⟨ds ++ ds', ?_, (List.map_append ..).symm, ?_⟩
    · exact fun d hd => (List.mem_append.mp hd).elim (hgood d) (hgood' d)
    · rw [List.flatMapM_cons, hga, hgl, List.map_append]
      rfl

/-! ## Pieces that may fail -/

section Except

variable {ε : Type*} {f : α → Except ε (List β)} {l : List α}

theorem flatMapM_cons_error {a : α} {e : ε} (ha : f a = .error e) :
    (a :: l).flatMapM f = .error e := by
  rw [List.flatMapM_cons, ha]
  rfl

theorem flatMapM_cons_ok {a : α} {bs : List β} (ha : f a = .ok bs) :
    (a :: l).flatMapM f = (l.flatMapM f).map fun rest => bs ++ rest := by
  rw [List.flatMapM_cons, ha]
  cases l.flatMapM f <;> rfl

theorem flatMapM_cons_eq_ok {a : α} {bs : List β} (h : (a :: l).flatMapM f = .ok bs) :
    ∃ first rest, f a = .ok first ∧ l.flatMapM f = .ok rest ∧ bs = first ++ rest := by
  cases ha : f a with
  | error e =>
    rw [flatMapM_cons_error ha] at h
    cases h
  | ok first =>
    rw [flatMapM_cons_ok ha] at h
    cases hl : l.flatMapM f with
    | error e =>
      rw [hl] at h
      cases h
    | ok rest =>
      rw [hl] at h
      exact ⟨first, rest, rfl, rfl, (Except.ok.inj h).symm⟩

/-- The list fails like the first piece that fails. -/
theorem flatMapM_eq_error_iff {e : ε} :
    l.flatMapM f = .error e ↔ ∃ before a after, l = before ++ a :: after ∧
      (∀ b ∈ before, ∃ bs, f b = .ok bs) ∧ f a = .error e := by
  induction l with
  | nil =>
    refine iff_of_false (fun h => by cases h) ?_
    rintro ⟨before, a, after, hl, _⟩
    exact List.append_ne_nil_of_right_ne_nil before (List.cons_ne_nil a after) hl.symm
  | cons a l ih =>
    cases ha : f a with
    | error e' =>
      rw [flatMapM_cons_error ha, Except.error.injEq]
      constructor
      · rintro rfl
        exact ⟨[], a, l, rfl, by simp, ha⟩
      · rintro ⟨before, c, after, hl, hbefore, hc⟩
        cases before with
        | nil =>
          obtain ⟨rfl, _⟩ := List.cons_eq_cons.mp hl
          exact Except.error.inj (ha.symm.trans hc)
        | cons b before =>
          obtain ⟨rfl, _⟩ := List.cons_eq_cons.mp hl
          obtain ⟨bs, hbs⟩ := hbefore a List.mem_cons_self
          rw [ha] at hbs
          cases hbs
    | ok bs =>
      have hmap : (a :: l).flatMapM f = .error e ↔ l.flatMapM f = .error e := by
        rw [flatMapM_cons_ok ha]
        cases l.flatMapM f <;> simp [Except.map]
      rw [hmap, ih]
      constructor
      · rintro ⟨before, c, after, rfl, hbefore, hc⟩
        exact ⟨a :: before, c, after, rfl, List.forall_mem_cons.mpr ⟨⟨bs, ha⟩, hbefore⟩, hc⟩
      · rintro ⟨before, c, after, hl, hbefore, hc⟩
        cases before with
        | nil =>
          obtain ⟨rfl, _⟩ := List.cons_eq_cons.mp hl
          rw [ha] at hc
          cases hc
        | cons b before =>
          obtain ⟨rfl, rfl⟩ := List.cons_eq_cons.mp hl
          exact ⟨before, c, after, rfl, (List.forall_mem_cons.mp hbefore).2, hc⟩

/-- A list that is there has all its pieces. -/
theorem ok_of_flatMapM_ok :
    ∀ {bs : List β}, l.flatMapM f = .ok bs → ∀ a ∈ l, ∃ as, f a = .ok as := by
  induction l with
  | nil => exact fun _ a ha => absurd ha List.not_mem_nil
  | cons a l ih =>
    intro bs hbs
    obtain ⟨first, rest, ha, hl, _⟩ := flatMapM_cons_eq_ok hbs
    exact List.forall_mem_cons.mpr ⟨⟨first, ha⟩, ih hl⟩

/-- Where the pieces fail in one way only, the list fails when one of them does. -/
theorem flatMapM_eq_error_iff_exists {e : ε} (only : ∀ a ∈ l, ∀ e', f a = .error e' → e' = e) :
    l.flatMapM f = .error e ↔ ∃ a ∈ l, f a = .error e := by
  constructor
  · intro h
    obtain ⟨before, a, after, rfl, _, ha⟩ := flatMapM_eq_error_iff.mp h
    exact ⟨a, List.mem_append_right before List.mem_cons_self, ha⟩
  · rintro ⟨a, hmem, ha⟩
    cases hl : l.flatMapM f with
    | ok bs =>
      obtain ⟨as, has⟩ := ok_of_flatMapM_ok hl a hmem
      rw [ha] at has
      cases has
    | error e' =>
      obtain ⟨before, b, after, rfl, _, hb⟩ := flatMapM_eq_error_iff.mp hl
      rw [only b (List.mem_append_right before List.mem_cons_self) e' hb]

/-- A list that is there is there for a function that does the same where nothing fails. -/
theorem flatMapM_of_ok {g : α → Option (List β)} (h : ∀ a ∈ l, ∀ bs, f a = .ok bs → g a = some bs) :
    ∀ bs, l.flatMapM f = .ok bs → l.flatMapM g = some bs := by
  induction l with
  | nil =>
    intro bs hbs
    obtain rfl := Except.ok.inj hbs
    rfl
  | cons a l ih =>
    intro bs hbs
    obtain ⟨first, rest, ha, hl, rfl⟩ := flatMapM_cons_eq_ok hbs
    rw [List.flatMapM_cons, h a List.mem_cons_self first ha,
      ih (fun b hb => h b (List.mem_cons_of_mem a hb)) rest hl]
    rfl

end Except

end Pieces
