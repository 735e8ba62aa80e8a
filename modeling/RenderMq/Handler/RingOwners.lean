import RenderMq.Lib.Run
import RenderMq.Handler.ConsistentHash

/-!
# The owners of the points of a ring

`insert` leaves a point alone that another value has; `erase` takes the points of a value away by
their places, without looking whose they are. Where two values share a point, the one that came
second may have none, and when it goes it takes the points of the other.

**What is proved.** In a run the points of every value stay its own, and every value present keeps
one and is found from there, exactly when each value that is inserted finds a point that no other
value has, and none of the points of a value that is erased is another's (`keepsOwners_iff`). It is
so when no two values share a point (`keepsOwners_of_spread`).
-/

namespace RenderMq

namespace HashConfig

variable {V : Type}

/-- A ring with the values that were inserted and not erased since. -/
structure Tracked (V : Type) where
  ring : HashRing V
  present : Set V

def Tracked.start : Tracked V := ⟨[], ∅⟩

def step (c : HashConfig V) (s : Tracked V) (op : Op V) : Option (Tracked V) :=
  some ⟨c.apply s.ring op, op.change s.present⟩

theorem run_step (c : HashConfig V) (ops : List (Op V)) :
    Run.run c.step .start ops = some ⟨c.run ops, present ops⟩ := by
  induction ops using List.reverseRecOn with
  | nil => rfl
  | append_singleton ops op ih =>
    rw [run_append, present_append, Run.run, List.foldlM_append, ← Run.run, ih]
    rfl

/-- A value has a point, and is returned for some position. -/
def Owns (ring : HashRing V) (v : V) : Prop :=
  (∃ p, (p, v) ∈ ring) ∧ ∃ position : BitVec 64, Wheel.lookup position.toNat ring = some v

/-- A change removes no points but those of the value that is erased, and afterwards every value
present has a point and is returned. -/
def KeepsOwners (c : HashConfig V) (s : Tracked V) (op : Op V) : Prop :=
  (∀ v, op = .erase v → ∀ e ∈ s.ring, e.2 ≠ v → e ∈ c.apply s.ring op) ∧
    ∀ v ∈ op.change s.present, Owns (c.apply s.ring op) v

/-- Another value has no point in the way: an insertion finds a place that is free or its own, and an
erasure none that is not. -/
def OwnersApart (c : HashConfig V) (s : Tracked V) : Op V → Prop
  | .insert v => ∃ p ∈ c.points v, ∀ e ∈ s.ring, e.1 = p → e.2 = v
  | .erase v => ∀ p ∈ c.points v, ∀ e ∈ s.ring, e.1 = p → e.2 = v

/-! ## The ring -/

/-- The ring is in order, every point is one that its value draws, and every value present has a
point. -/
structure Sound (c : HashConfig V) (s : Tracked V) : Prop where
  ordered : Wheel.Ordered s.ring
  drawn : ∀ e ∈ s.ring, e.1 ∈ c.points e.2
  owns : ∀ v ∈ s.present, ∃ p, (p, v) ∈ s.ring

theorem sound_start (c : HashConfig V) : c.Sound .start where
  ordered := List.Pairwise.nil
  drawn _ he := by cases he
  owns _ hv := absurd hv (Set.notMem_empty _)

/-- A value with a point is returned for the position of that point. -/
theorem owns_of_mem {c : HashConfig V} {ring : HashRing V} (ordered : Wheel.Ordered ring)
    (drawn : ∀ e ∈ ring, e.1 ∈ c.points e.2) {p : Nat} {v : V} (h : (p, v) ∈ ring) :
    Owns ring v := by
  obtain ⟨i, _, hp⟩ := List.mem_map.mp (drawn _ h)
  refine ⟨⟨p, h⟩, c.draw (c.valHash v) i, ?_⟩
  rw [hp]
  exact Wheel.lookup_of_mem ordered h

theorem ordered_apply {c : HashConfig V} {ring : HashRing V} (h : Wheel.Ordered ring) (op : Op V) :
    Wheel.Ordered (c.apply ring op) := by
  cases op with
  | insert v =>
    rw [apply, insert_eq]
    exact h.insertAll
  | erase v =>
    rw [apply, erase_eq]
    exact h.eraseAll

/-- A change brings in points of its own value only. -/
theorem mem_or_drawn_of_mem_apply {c : HashConfig V} {ring : HashRing V} {op : Op V} {e : Nat × V}
    (he : e ∈ c.apply ring op) : e ∈ ring ∨ (e.1 ∈ c.points e.2 ∧ e.2 = op.value) := by
  cases op with
  | insert v =>
    rw [apply, insert_eq, Wheel.mem_insertAll] at he
    rcases he with he | ⟨hp, hv, _⟩
    · exact .inl he
    · exact .inr ⟨hv ▸ hp, hv⟩
  | erase v =>
    rw [apply, erase_eq, Wheel.mem_eraseAll] at he
    exact .inl he.1

theorem drawn_apply {c : HashConfig V} {ring : HashRing V} (h : ∀ e ∈ ring, e.1 ∈ c.points e.2)
    (op : Op V) : ∀ e ∈ c.apply ring op, e.1 ∈ c.points e.2 := by
  intro e he
  rcases mem_or_drawn_of_mem_apply he with he | ⟨hp, _⟩
  · exact h e he
  · exact hp

/-- A change brings in no value but its own. -/
theorem known_apply {c : HashConfig V} {ring : HashRing V} {vals : List V}
    (h : ∀ e ∈ ring, e.2 ∈ vals) {op : Op V} (hop : op.value ∈ vals) :
    ∀ e ∈ c.apply ring op, e.2 ∈ vals := by
  intro e he
  rcases mem_or_drawn_of_mem_apply he with he | ⟨_, hv⟩
  · exact h e he
  · rwa [hv]

/-! ## One change -/

/-- An insertion removes no points, so it keeps the owners when the new value gets a point. -/
theorem keepsOwners_insert_iff {c : HashConfig V} {s : Tracked V} (h : c.Sound s) (v : V) :
    c.KeepsOwners s (.insert v) ↔ c.OwnersApart s (.insert v) := by
  have hordered := ordered_apply (c := c) h.ordered (.insert v)
  have hdrawn := drawn_apply h.drawn (.insert v)
  have hmem : ∀ e, e ∈ c.apply s.ring (.insert v) ↔
      e ∈ s.ring ∨ (e.1 ∈ c.points v ∧ e.2 = v ∧ ∀ e' ∈ s.ring, e'.1 ≠ e.1) := by
    intro e
    rw [apply, insert_eq, Wheel.mem_insertAll]
  constructor
  · rintro ⟨_, howns⟩
    obtain ⟨⟨p, hp⟩, _⟩ := howns v (Set.mem_insert v s.present)
    refine ⟨p, hdrawn _ hp, fun e he hep => ?_⟩
    rcases (hmem _).mp hp with hp | ⟨_, _, hfree⟩
    · rw [h.ordered.unique he hp hep]
    · exact absurd hep (hfree e he)
  · rintro ⟨p, hp, hapart⟩
    refine ⟨fun _ hop => (by cases hop), fun w hw => ?_⟩
    by_cases hpresent : w ∈ s.present
    · obtain ⟨q, hq⟩ := h.owns w hpresent
      exact owns_of_mem hordered hdrawn ((hmem _).mpr (.inl hq))
    · obtain rfl := (Set.mem_insert_iff.mp hw).resolve_right hpresent
      refine owns_of_mem (p := p) hordered hdrawn ((hmem _).mpr ?_)
      by_cases htaken : ∃ e ∈ s.ring, e.1 = p
      · obtain ⟨e, he, rfl⟩ := htaken
        rw [← hapart e he rfl]
        exact .inl he
      · exact .inr ⟨hp, rfl, fun e he hep => htaken ⟨e, he, hep⟩⟩

/-- An erasure keeps the owners when it removes no other's points: then no other value loses any. -/
theorem keepsOwners_erase_iff {c : HashConfig V} {s : Tracked V} (h : c.Sound s) (v : V) :
    c.KeepsOwners s (.erase v) ↔ c.OwnersApart s (.erase v) := by
  have hordered := ordered_apply (c := c) h.ordered (.erase v)
  have hdrawn := drawn_apply h.drawn (.erase v)
  have hmem : ∀ e, e ∈ c.apply s.ring (.erase v) ↔ e ∈ s.ring ∧ e.1 ∉ c.points v := by
    intro e
    rw [apply, erase_eq, Wheel.mem_eraseAll]
  constructor
  · rintro ⟨hothers, _⟩ p hp e he rfl
    by_contra hne
    exact ((hmem e).mp (hothers v rfl e he hne)).2 hp
  · intro hapart
    have hothers : ∀ e ∈ s.ring, e.2 ≠ v → e ∈ c.apply s.ring (.erase v) :=
      fun e he hne => (hmem e).mpr ⟨he, fun hp => hne (hapart e.1 hp e he rfl)⟩
    refine ⟨fun w hop e he hne => ?_, fun w hw => ?_⟩
    · obtain rfl := Op.erase.inj hop
      exact hothers e he hne
    · obtain ⟨hpresent, hne⟩ := hw
      obtain ⟨p, hp⟩ := h.owns w hpresent
      exact owns_of_mem hordered hdrawn (hothers _ hp hne)

theorem keepsOwners_step_iff {c : HashConfig V} {s : Tracked V} (h : c.Sound s) (op : Op V) :
    c.KeepsOwners s op ↔ c.OwnersApart s op := by
  cases op with
  | insert v => exact keepsOwners_insert_iff h v
  | erase v => exact keepsOwners_erase_iff h v

theorem sound_step {c : HashConfig V} {s s' : Tracked V} {op : Op V} (h : c.Sound s)
    (keeps : c.KeepsOwners s op) (hstep : c.step s op = some s') : c.Sound s' := by
  obtain rfl := Option.some.inj hstep
  exact ⟨ordered_apply h.ordered op, drawn_apply h.drawn op, fun v hv => (keeps.2 v hv).1⟩

/-! ## Any run -/

/-- **Any run.** The owners keep their points exactly when every change finds the points of others out
of its way.

What points a value draws is an argument, and two values may draw the same. The values are inserted and
erased in any order, also twice in a row. Which keys then go where follows from the points and is not
part of this. -/
theorem keepsOwners_iff (c : HashConfig V) (ops : List (Op V)) :
    Run.EveryStep c.step c.KeepsOwners .start ops ↔
      Run.EveryStep c.step c.OwnersApart .start ops := by
  have hkeep : ∀ s op s', c.Sound s → c.KeepsOwners s op → c.step s op = some s' → c.Sound s' :=
    fun s op s' h keeps hstep => sound_step h keeps hstep
  exact Run.everyStep_iff (fun s op h => keepsOwners_step_iff h op) hkeep ops _ (sound_start c)

/-- Two points for each number, from a generator that is seeded with the low half of the hash, which is
the same for all. -/
def lowHalf : HashConfig Nat where
  repeats := 2
  valHash := fun v => BitVec.ofNat 64 v <<< 32
  draw := fun seed i => (seed.setWidth 32).setWidth 64 + BitVec.ofNat 64 i

/-- The second of two values gets no point. -/
theorem second_has_no_point :
    ¬ ∀ (c : HashConfig Nat) (ops : List (Op Nat)),
      Run.EveryStep c.step c.KeepsOwners .start ops := by
  intro h
  have hsecond : Owns (lowHalf.run [.insert 1, .insert 2]) 2 :=
    ((h lowHalf [.insert 1, .insert 2]).2 _ rfl).1.2 2 (Set.mem_insert 2 _)
  have hring : lowHalf.run [.insert 1, .insert 2] = [(0, 1), (1, 1)] := by decide
  rw [hring] at hsecond
  obtain ⟨⟨p, hp⟩, _⟩ := hsecond
  simp at hp

/-! ## Values that share no points -/

/-- Where no two values share a point nothing is in the way of a change. -/
theorem ownersApart_of_spread {c : HashConfig V} (pointed : 0 < c.repeats) {vals : List V}
    (spread : c.Spread vals) {s : Tracked V} (h : c.Sound s) (known : ∀ e ∈ s.ring, e.2 ∈ vals)
    {op : Op V} (hop : op.value ∈ vals) : c.OwnersApart s op := by
  have hapart : ∀ p ∈ c.points op.value, ∀ e ∈ s.ring, e.1 = p → e.2 = op.value := by
    intro p hp e he hep
    by_contra hne
    exact spread op.value hop e.2 (known e he) hne e.1 (h.drawn e he) (hep ▸ hp)
  cases op with
  | insert v =>
    obtain ⟨p, hp⟩ := List.exists_mem_of_ne_nil _ (points_ne_nil pointed v)
    exact ⟨p, hp, hapart p hp⟩
  | erase v => exact hapart

theorem keepsOwners_of_spread {c : HashConfig V} (pointed : 0 < c.repeats) {ops : List (Op V)}
    (spread : c.Spread (ops.map Op.value)) :
    Run.EveryStep c.step c.KeepsOwners .start ops := by
  let vals := ops.map Op.value
  let Inv (s : Tracked V) : Prop := c.Sound s ∧ ∀ e ∈ s.ring, e.2 ∈ vals
  have himplied : ∀ s op, Inv s → op.value ∈ vals → c.KeepsOwners s op := by
    intro s op hinv hop
    have hapart := ownersApart_of_spread pointed spread hinv.1 hinv.2 hop
    exact (keepsOwners_step_iff hinv.1 op).mpr hapart
  have hkeep : ∀ s op s', Inv s → op.value ∈ vals → c.step s op = some s' → Inv s' := by
    intro s op s' hinv hop hstep
    refine ⟨sound_step hinv.1 (himplied s op hinv hop) hstep, ?_⟩
    obtain rfl := Option.some.inj hstep
    exact known_apply hinv.2 hop
  have hevents : ∀ op ∈ ops, op.value ∈ vals := fun op hop => List.mem_map_of_mem hop
  refine Run.everyStep_of_invariant himplied hkeep ops _ ⟨sound_start c, ?_⟩
    (Run.everyStep_of_events hevents _)
  intro e he
  cases he

end HashConfig

end RenderMq
