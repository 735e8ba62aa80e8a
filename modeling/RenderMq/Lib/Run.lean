import Mathlib.Data.List.Basic

/-!
# Runs of a partial step function

A system is a step function from a state and an event to the next state, or to nothing where the
step has no defined result. A run is `List.foldlM` of the steps.

An invariant of a run may speak of its past, the events so far (`run_invariant`). A condition on the
steps of a run, each by the state it starts from, is `EveryStep`; with it an invariant may be kept
only by the steps that meet the condition (`run_invariant_of_everyStep`).

Where each event says something or nothing of a matter, `last` is the last thing said, and `Since` is
what has happened after it.
-/

namespace Run

variable {σ ε : Type*} {step : σ → ε → Option σ}

/-- The run of a list of events. -/
abbrev run (step : σ → ε → Option σ) (s : σ) (es : List ε) : Option σ := es.foldlM step s

theorem run_cons {s t : σ} {e : ε} {es : List ε} (h : run step s (e :: es) = some t) :
    ∃ m, step s e = some m ∧ run step m es = some t := by
  rw [run, List.foldlM_cons] at h
  exact Option.bind_eq_some_iff.mp h

/-- Every step of a run meets a condition on the state it starts from and its event. -/
def EveryStep (step : σ → ε → Option σ) (P : σ → ε → Prop) : σ → List ε → Prop
  | _, [] => True
  | s, e :: es => P s e ∧ ∀ t, step s e = some t → EveryStep step P t es

theorem everyStep_cons {P : σ → ε → Prop} {s t : σ} {e : ε} {es : List ε} (hstep : step s e = some t)
    (hfirst : P s e) (hrest : EveryStep step P t es) : EveryStep step P s (e :: es) := by
  refine ⟨hfirst, fun t' ht' => ?_⟩
  obtain rfl := Option.some.inj (hstep.symm.trans ht')
  exact hrest

/-- What each step meeting a condition preserves, a run of such steps preserves. -/
theorem run_invariant_of_everyStep {P : σ → ε → Prop} {Inv : List ε → σ → Prop}
    (preserved : ∀ past s e t, Inv past s → P s e → step s e = some t → Inv (past ++ [e]) t) :
    ∀ (es past : List ε) (s t : σ), Inv past s → EveryStep step P s es →
      run step s es = some t → Inv (past ++ es) t := by
  intro es
  induction es with
  | nil =>
    intro past s t hinv _ hrun
    obtain rfl := Option.some.inj hrun
    rwa [List.append_nil]
  | cons e es ih =>
    intro past s t hinv hevery hrun
    obtain ⟨m, hm, hrest⟩ := run_cons hrun
    rw [List.append_cons]
    exact ih _ m t (preserved past s e m hinv hevery.1 hm) (hevery.2 m hm) hrest

/-- What each step preserves, a run preserves. -/
theorem run_invariant {Inv : List ε → σ → Prop}
    (preserved : ∀ past s e t, Inv past s → step s e = some t → Inv (past ++ [e]) t) :
    ∀ (es past : List ε) (s t : σ), Inv past s → run step s es = some t →
      Inv (past ++ es) t := by
  intro es
  induction es with
  | nil =>
    intro past s t hinv hrun
    obtain rfl := Option.some.inj hrun
    rwa [List.append_nil]
  | cons e es ih =>
    intro past s t hinv hrun
    obtain ⟨m, hm, hrest⟩ := run_cons hrun
    rw [List.append_cons]
    exact ih _ m t (preserved past s e m hinv hm) hrest

/-- What each of some events preserves, a run of them preserves. -/
theorem run_invariant_of_events {Good : ε → Prop} {Inv : σ → Prop}
    (preserved : ∀ s e t, Inv s → Good e → step s e = some t → Inv t) :
    ∀ (es : List ε) (s t : σ), Inv s → (∀ e ∈ es, Good e) → run step s es = some t → Inv t := by
  intro es
  induction es with
  | nil =>
    intro s t hinv _ hrun
    obtain rfl := Option.some.inj hrun
    exact hinv
  | cons e es ih =>
    intro s t hinv hgood hrun
    obtain ⟨hfirst, hrest⟩ := List.forall_mem_cons.mp hgood
    obtain ⟨m, hm, hlater⟩ := run_cons hrun
    exact ih m t (preserved s e m hinv hfirst hm) hrest hlater

/-- The condition holds of each step that comes after some events. -/
theorem EveryStep.after {P : σ → ε → Prop} {later : List ε} :
    ∀ (es : List ε) {s t : σ}, EveryStep step P s (es ++ later) → run step s es = some t →
      EveryStep step P t later
  | [], s, t, h, hrun => by
    obtain rfl := Option.some.inj hrun
    exact h
  | d :: es, s, t, h, hrun => by
    obtain ⟨m, hm, hrest⟩ := run_cons hrun
    exact EveryStep.after es (h.2 m hm) hrest

/-- The condition holds of each step, in the state that the events before it lead to. -/
theorem EveryStep.at_event {P : σ → ε → Prop} {e : ε} {later : List ε} (es : List ε) {s t : σ}
    (h : EveryStep step P s (es ++ e :: later)) (hrun : run step s es = some t) : P t e :=
  (h.after es hrun).1

/-- A condition on events alone. -/
theorem everyStep_of_events {Good : ε → Prop} :
    ∀ {es : List ε}, (∀ e ∈ es, Good e) → ∀ s, EveryStep step (fun _ => Good) s es
  | [], _, _ => trivial
  | _ :: _, h, _ => by
    obtain ⟨hfirst, hrest⟩ := List.forall_mem_cons.mp h
    exact ⟨hfirst, fun t _ => everyStep_of_events hrest t⟩

/-- A condition that the first events of a run always meet is left to check for the later ones. -/
theorem everyStep_append {P : σ → ε → Prop} {later : List ε} :
    ∀ {es : List ε} {s : σ}, (∀ e ∈ es, ∀ t, P t e) →
      (∀ t, run step s es = some t → EveryStep step P t later) → EveryStep step P s (es ++ later)
  | [], s, _, hlater => hlater s rfl
  | e :: es, s, hearly, hlater => by
    obtain ⟨hfirst, hrest⟩ := List.forall_mem_cons.mp hearly
    refine ⟨hfirst s, fun t ht => everyStep_append hrest fun u hu => hlater u ?_⟩
    rw [run, List.foldlM_cons, ht]
    exact hu

/-- Where the steps of a run meet a condition that keeps an invariant, they meet what the two
imply. -/
theorem everyStep_of_invariant {Inv : σ → Prop} {P Q : σ → ε → Prop}
    (implied : ∀ s e, Inv s → P s e → Q s e)
    (preserved : ∀ s e t, Inv s → P s e → step s e = some t → Inv t) :
    ∀ (es : List ε) (s : σ), Inv s → EveryStep step P s es → EveryStep step Q s es := by
  intro es
  induction es with
  | nil => exact fun _ _ _ => trivial
  | cons e es ih =>
    intro s hinv hevery
    refine ⟨implied s e hinv hevery.1, fun t ht => ?_⟩
    exact ih t (preserved s e t hinv hevery.1 ht) (hevery.2 t ht)

/-- Two conditions that agree on the steps from good states meet every step of the same runs, where the
steps that are assumed keep the states good. -/
theorem everyStep_congr_of_assumed {Inv : σ → Prop} {A P Q : σ → ε → Prop}
    (preserved : ∀ s e t, Inv s → A s e → step s e = some t → Inv t)
    (agree : ∀ s e, Inv s → A s e → (P s e ↔ Q s e)) :
    ∀ (es : List ε) (s : σ), Inv s → EveryStep step A s es →
      (EveryStep step P s es ↔ EveryStep step Q s es) := by
  intro es
  induction es with
  | nil => exact fun _ _ _ => Iff.rfl
  | cons e es ih =>
    intro s hinv hall
    refine and_congr (agree s e hinv hall.1) (forall_congr' fun t => ?_)
    refine imp_congr_right fun ht => ?_
    exact ih t (preserved s e t hinv hall.1 ht) (hall.2 t ht)

/-- The same where all steps keep the states good. -/
theorem everyStep_congr {Inv : σ → Prop} {A P Q : σ → ε → Prop}
    (preserved : ∀ s e t, Inv s → step s e = some t → Inv t)
    (agree : ∀ s e, Inv s → A s e → (P s e ↔ Q s e)) :
    ∀ (es : List ε) (s : σ), Inv s → EveryStep step A s es →
      (EveryStep step P s es ↔ EveryStep step Q s es) :=
  everyStep_congr_of_assumed (fun s e t h _ => preserved s e t h) agree

theorem everyStep_iff_cons {P Q : σ → ε → Prop} {s : σ} {e : ε} {es : List ε}
    (hfirst : P s e ↔ Q s e)
    (hrest : P s e → ∀ t, step s e = some t → (EveryStep step P t es ↔ EveryStep step Q t es)) :
    EveryStep step P s (e :: es) ↔ EveryStep step Q s (e :: es) := by
  constructor
  · intro hevery
    refine ⟨hfirst.mp hevery.1, fun t ht => ?_⟩
    exact (hrest hevery.1 t ht).mp (hevery.2 t ht)
  · intro hevery
    have hP := hfirst.mpr hevery.1
    exact ⟨hP, fun t ht => (hrest hP t ht).mpr (hevery.2 t ht)⟩

/-- Two conditions that agree on the steps from good states, where one of them keeps the states good,
hold of every step of the same runs. -/
theorem everyStep_iff {Inv : σ → Prop} {P Q : σ → ε → Prop}
    (agree : ∀ s e, Inv s → (P s e ↔ Q s e))
    (preserved : ∀ s e t, Inv s → P s e → step s e = some t → Inv t) :
    ∀ (es : List ε) (s : σ), Inv s → (EveryStep step P s es ↔ EveryStep step Q s es) := by
  intro es
  induction es with
  | nil => exact fun _ _ => Iff.rfl
  | cons e es ih =>
    intro s hinv
    refine everyStep_iff_cons (agree s e hinv) fun hP t ht => ?_
    exact ih t (preserved s e t hinv hP ht)

/-- Two step functions that agree where a condition holds have the same runs of such steps. -/
theorem run_congr_of_everyStep {step' : σ → ε → Option σ} {P : σ → ε → Prop}
    (agree : ∀ s e, P s e → step s e = step' s e) :
    ∀ (es : List ε) (s : σ), EveryStep step P s es → run step s es = run step' s es := by
  intro es
  induction es with
  | nil => exact fun _ _ => rfl
  | cons e es ih =>
    intro s hevery
    rw [run, run, List.foldlM_cons, List.foldlM_cons, ← agree s e hevery.1]
    refine Option.bind_congr fun t ht => ?_
    exact ih t (hevery.2 t ht)

/-- A run is defined when its steps are. -/
theorem run_defined {Good : ε → Prop} (progress : ∀ s e, Good e → ∃ t, step s e = some t) :
    ∀ (es : List ε) (s : σ), (∀ e ∈ es, Good e) → ∃ t, run step s es = some t := by
  intro es
  induction es with
  | nil => exact fun s _ => ⟨s, rfl⟩
  | cons e es ih =>
    intro s hgood
    obtain ⟨m, hm⟩ := progress s e (hgood e List.mem_cons_self)
    obtain ⟨t, ht⟩ := ih m fun e he => hgood e (List.mem_cons_of_mem _ he)
    refine ⟨t, ?_⟩
    rw [run, List.foldlM_cons, hm]
    exact ht

/-- A run is defined exactly when each of its steps is. -/
theorem run_isSome_iff :
    ∀ (es : List ε) (s : σ),
      (run step s es).isSome ↔ EveryStep step (fun s e => (step s e).isSome = true) s es := by
  intro es
  induction es with
  | nil => exact fun _ => iff_of_true rfl trivial
  | cons e es ih =>
    intro s
    rw [run, List.foldlM_cons]
    cases hstep : step s e with
    | none =>
      refine iff_of_false (by simp) fun hevery => ?_
      have hfirst : (step s e).isSome = true := hevery.1
      rw [hstep] at hfirst
      cases hfirst
    | some m =>
      refine (ih m).trans ⟨fun h => everyStep_cons hstep ?_ h, fun h => h.2 m hstep⟩
      rw [hstep]
      rfl

/-! ## What was said last -/

/-- The last thing that some events say. -/
def last {α : Type*} (tells : ε → Option α) (es : List ε) : Option α :=
  (es.filterMap tells).getLast?

theorem last_append {α : Type*} (tells : ε → Option α) (es : List ε) (e : ε) :
    last tells (es ++ [e]) = (tells e).or (last tells es) := by
  rw [last, List.filterMap_append, List.getLast?_append, last, List.filterMap_cons]
  cases tells e <;> rfl

theorem last_cons {α : Type*} (tells : ε → Option α) (e : ε) (es : List ε) :
    last tells (e :: es) = (last tells es).or (tells e) := by
  have hsplit : last tells ([e] ++ es) = (last tells es).or (last tells [e]) := by
    rw [last, List.filterMap_append, List.getLast?_append, last, last]
  have hone : last tells [e] = tells e := last_append tells [] e |>.trans (Option.or_none ..)
  rw [← List.singleton_append, hsplit, hone]

theorem last_ne_none {α : Type*} {tells : ε → Option α} {es : List ε} {e : ε} (he : e ∈ es)
    (htold : tells e ≠ none) : last tells es ≠ none := by
  intro hnone
  exact htold (List.filterMap_eq_nil_iff.mp (List.getLast?_eq_none_iff.mp hnone) e he)

/-- Where the steps that say something make it so, and the others keep it, the last thing said is so
at the end of a run. -/
theorem run_last {α : Type*} {tells : ε → Option α} {P : α → σ → Prop} {A : σ → ε → Prop}
    (makes : ∀ s e t a, A s e → tells e = some a → step s e = some t → P a t)
    (keeps : ∀ s e t a, A s e → tells e = none → P a s → step s e = some t → P a t)
    {es : List ε} {s t : σ} (hevery : EveryStep step A s es) (hrun : run step s es = some t) {a : α}
    (hlast : last tells es = some a) : P a t := by
  have hstep : ∀ (past : List ε) (s : σ) (e : ε) (t : σ), (∀ a, last tells past = some a → P a s) →
      A s e → step s e = some t → ∀ a, last tells (past ++ [e]) = some a → P a t := by
    intro past s e t hpast hA hst a ha
    rw [last_append] at ha
    cases htells : tells e with
    | none =>
      rw [htells, Option.none_or] at ha
      exact keeps s e t a hA htells (hpast a ha) hst
    | some b =>
      rw [htells, Option.some_or] at ha
      obtain rfl := Option.some.inj ha
      exact makes s e t b hA htells hst
  have hstart : ∀ a, last tells [] = some a → P a s := by
    intro a ha
    cases ha
  exact run_invariant_of_everyStep hstep es [] s t hstart hevery hrun a hlast

/-- Something has happened since the last time that something was said. -/
def Since {α : Type*} (tells : ε → Option α) (happens : ε → Prop) (es : List ε) : Prop :=
  ∃ before after, es = before ++ after ∧ (∀ e ∈ after, tells e = none) ∧ ∃ e ∈ after, happens e

theorem since_append {α : Type*} (tells : ε → Option α) (happens : ε → Prop) (es : List ε) (e : ε) :
    Since tells happens (es ++ [e]) ↔ tells e = none ∧ (happens e ∨ Since tells happens es) := by
  constructor
  · rintro ⟨before, after, hes, hquiet, d, hd, hhappens⟩
    obtain rfl | ⟨after, c, rfl⟩ := List.eq_nil_or_concat' after
    · exact absurd hd List.not_mem_nil
    rw [← List.append_assoc] at hes
    obtain ⟨hbefore, hce⟩ := List.append_inj' hes rfl
    obtain rfl := List.head_eq_of_cons_eq hce
    refine ⟨hquiet e (by simp), ?_⟩
    rcases List.mem_append.mp hd with hd | hd
    · have hrest := fun c hc => hquiet c (List.mem_append_left _ hc)
      exact .inr ⟨before, after, hbefore, hrest, d, hd, hhappens⟩
    · rw [List.mem_singleton.mp hd] at hhappens
      exact .inl hhappens
  · rintro ⟨hquiet, hhappens | ⟨before, after, rfl, hafter, d, hd, hhappens⟩⟩
    · exact ⟨es, [e], rfl, by simpa using hquiet, e, by simp, hhappens⟩
    · refine ⟨before, after ++ [e], List.append_assoc .., ?_, d, List.mem_append_left _ hd, hhappens⟩
      intro c hc
      rcases List.mem_append.mp hc with hc | hc
      · exact hafter c hc
      · rwa [List.mem_singleton.mp hc]

end Run
