import RenderMq.Lib.OrderedIndex
import Mathlib.Data.Set.Insert

/-!
# Values on a wheel

Points on the rim of a wheel, each with a value, are kept in ascending order. The value
for a place on the rim is the one at the next point, going up from the place and around
(`lookup`).

What is found depends on the points alone: it is at the point that is met first (`Sooner`,
`find_eq_some_iff`). So of two wheels with the points of the one among those of the other, the larger
one finds what the smaller one finds, or else something that the smaller one has not
(`find_of_subset`).

A value may have several points. With the points of different values apart, the wheel holds a set of
values (`Holds`), and what is found depends on that set alone.
-/

namespace Wheel

variable {π ν : Type*} [LinearOrder π]

/-- The points stand in ascending order, and no two at one place. -/
def Ordered (ring : List (π × ν)) : Prop := ring.Pairwise fun a b => a.1 < b.1

/-- Put a value at a point, if there is none. -/
def insert (p : π) (v : ν) (ring : List (π × ν)) : List (π × ν) :=
  if ring.any fun e => decide (e.1 = p) then ring else OrderedIndex.insert Prod.fst (p, v) ring

/-- Take the value at a point away, if there is one. -/
def erase (p : π) (ring : List (π × ν)) : List (π × ν) := ring.filter fun e => decide (e.1 ≠ p)

/-- The next point from a place, or else the first one. -/
def find (h : π) (ring : List (π × ν)) : Option (π × ν) :=
  (ring.find? fun e => decide (h ≤ e.1)).or ring.head?

/-- The value at the next point from a place. -/
def lookup (h : π) (ring : List (π × ν)) : Option ν := (find h ring).map Prod.snd

/-! ## What is on the wheel -/

theorem mem_erase {p : π} {ring : List (π × ν)} {e : π × ν} :
    e ∈ erase p ring ↔ e ∈ ring ∧ e.1 ≠ p := by
  simp [erase]

theorem mem_insert {p : π} {v : ν} {ring : List (π × ν)} {e : π × ν} :
    e ∈ insert p v ring ↔ e ∈ ring ∨ (e = (p, v) ∧ ∀ e' ∈ ring, e'.1 ≠ p) := by
  unfold insert
  split
  · next hany =>
    obtain ⟨e', he', hp⟩ := List.any_eq_true.mp hany
    refine ⟨.inl, fun h => h.elim id fun h => ?_⟩
    exact absurd (of_decide_eq_true hp) (h.2 e' he')
  · next hany =>
    have hfree : ∀ e' ∈ ring, e'.1 ≠ p := by
      intro e' he' hp
      exact hany (List.any_eq_true.mpr ⟨e', he', decide_eq_true hp⟩)
    rw [(OrderedIndex.insert_perm Prod.fst (p, v) ring).mem_iff, List.mem_cons]
    exact ⟨fun h => h.elim (fun h => .inr ⟨h, hfree⟩) .inl, fun h => h.elim .inr fun h => .inl h.1⟩

theorem Ordered.erase {p : π} {ring : List (π × ν)} (h : Ordered ring) : Ordered (erase p ring) :=
  h.filter _

theorem Ordered.insert {p : π} {v : ν} {ring : List (π × ν)} (h : Ordered ring) :
    Ordered (insert p v ring) := by
  unfold Wheel.insert
  split
  · exact h
  · next hany =>
    have hfree : ∀ e ∈ ring, e.1 ≠ p := by
      intro e he hp
      exact hany (List.any_eq_true.mpr ⟨e, he, decide_eq_true hp⟩)
    have hsorted : OrderedIndex.Sorted Prod.fst (OrderedIndex.insert Prod.fst (p, v) ring) :=
      OrderedIndex.sorted_insert (List.Pairwise.imp le_of_lt h)
    have hplaces : ((OrderedIndex.insert Prod.fst (p, v) ring).map Prod.fst).Nodup := by
      refine ((OrderedIndex.insert_perm Prod.fst (p, v) ring).map Prod.fst).nodup_iff.mpr ?_
      rw [List.map_cons, List.nodup_cons]
      constructor
      · intro hmem
        obtain ⟨e, he, hp⟩ := List.mem_map.mp hmem
        exact hfree e he hp
      · exact List.pairwise_map.mpr (List.Pairwise.imp ne_of_lt h)
    exact (hsorted.and (List.pairwise_map.mp hplaces)).imp fun hab => lt_of_le_of_ne hab.1 hab.2

/-- A place has one value. -/
theorem Ordered.unique {ring : List (π × ν)} (h : Ordered ring) {a b : π × ν} (ha : a ∈ ring)
    (hb : b ∈ ring) (hp : a.1 = b.1) : a = b := by
  induction ring with
  | nil => cases ha
  | cons e ring ih =>
    obtain ⟨hfirst, hrest⟩ := List.pairwise_cons.mp h
    cases List.mem_cons.mp ha with
    | inl hae =>
      cases List.mem_cons.mp hb with
      | inl hbe => rw [hae, hbe]
      | inr hbr =>
        rw [hae] at hp
        exact absurd hp (ne_of_lt (hfirst b hbr))
    | inr har =>
      cases List.mem_cons.mp hb with
      | inl hbe =>
        rw [hbe] at hp
        exact absurd hp.symm (ne_of_lt (hfirst a har))
      | inr hbr => exact ih hrest har hbr

/-! ## Which point is met first -/

/-- Going up from a place and around, one point is met no later than another. -/
def Sooner (h p q : π) : Prop := (h ≤ p ∧ (q < h ∨ p ≤ q)) ∨ (p < h ∧ q < h ∧ p ≤ q)

theorem Sooner.antisymm {h p q : π} (hpq : Sooner h p q) (hqp : Sooner h q p) : p = q := by
  rcases hpq with ⟨hp, hpq⟩ | ⟨hp, hq, hpq⟩
  · rcases hqp with ⟨hq, hqp⟩ | ⟨hq, hp', _⟩
    · exact le_antisymm (hpq.resolve_left (not_lt.mpr hq)) (hqp.resolve_left (not_lt.mpr hp))
    · exact absurd hp' (not_lt.mpr hp)
  · rcases hqp with ⟨hq', _⟩ | ⟨_, _, hqp⟩
    · exact absurd hq (not_lt.mpr hq')
    · exact le_antisymm hpq hqp

theorem mem_of_find {h : π} {ring : List (π × ν)} {e : π × ν} (hfind : find h ring = some e) :
    e ∈ ring := by
  rcases Option.or_eq_some_iff.mp hfind with hnext | ⟨_, hfirst⟩
  · exact List.mem_of_find?_eq_some hnext
  · exact List.mem_of_mem_head? hfirst

/-- The next point is met no later than the others. -/
theorem find_spec {h : π} {ring : List (π × ν)} (ordered : Ordered ring) {e : π × ν}
    (hfind : find h ring = some e) : e ∈ ring ∧ ∀ e' ∈ ring, Sooner h e.1 e'.1 := by
  unfold find at hfind
  cases hnext : ring.find? fun e => decide (h ≤ e.1) with
  | some next =>
    rw [hnext, Option.some_or] at hfind
    obtain rfl := Option.some.inj hfind
    obtain ⟨hnextp, before, after, rfl, hbefore⟩ := List.find?_eq_some_iff_append.mp hnext
    have hp : h ≤ next.1 := of_decide_eq_true hnextp
    refine ⟨by simp, fun e' he' => .inl ⟨hp, ?_⟩⟩
    rcases List.mem_append.mp he' with he' | he'
    · have := hbefore e' he'
      exact .inl (by simpa using this)
    · rcases List.mem_cons.mp he' with rfl | he'
      · exact .inr le_rfl
      · exact .inr (le_of_lt ((List.pairwise_cons.mp (List.pairwise_append.mp ordered).2.1).1 e' he'))
  | none =>
    rw [hnext, Option.none_or] at hfind
    have hbelow : ∀ e' ∈ ring, e'.1 < h := by
      intro e' he'
      have := List.find?_eq_none.mp hnext e' he'
      simpa using this
    cases ring with
    | nil => cases hfind
    | cons first ring =>
      obtain rfl := Option.some.inj hfind
      refine ⟨List.mem_cons_self, fun e' he' => .inr ⟨hbelow _ List.mem_cons_self, hbelow e' he', ?_⟩⟩
      rcases List.mem_cons.mp he' with rfl | he'
      · exact le_rfl
      · exact le_of_lt ((List.pairwise_cons.mp ordered).1 e' he')

theorem find_eq_none_iff {h : π} {ring : List (π × ν)} : find h ring = none ↔ ring = [] := by
  cases ring with
  | nil => simp [find]
  | cons e ring => simp [find]

/-- **What is found** is at the point that is met first. -/
theorem find_eq_some_iff {h : π} {ring : List (π × ν)} (ordered : Ordered ring) {e : π × ν} :
    find h ring = some e ↔ e ∈ ring ∧ ∀ e' ∈ ring, Sooner h e.1 e'.1 := by
  refine ⟨find_spec ordered, fun ⟨hmem, hfirst⟩ => ?_⟩
  cases hfind : find h ring with
  | none =>
    rw [find_eq_none_iff.mp hfind] at hmem
    cases hmem
  | some found =>
    obtain ⟨hfound, hfoundFirst⟩ := find_spec ordered hfind
    have hplace := (hfoundFirst e hmem).antisymm (hfirst found hfound)
    rw [ordered.unique hfound hmem hplace]

/-- From its own place on a point is met first. -/
theorem lookup_of_mem {ring : List (π × ν)} (ordered : Ordered ring) {p : π} {v : ν}
    (h : (p, v) ∈ ring) : lookup p ring = some v := by
  have hfirst : ∀ e ∈ ring, Sooner p p e.1 := fun e _ => .inl ⟨le_rfl, lt_or_ge e.1 p⟩
  rw [lookup, (find_eq_some_iff ordered).mpr ⟨h, hfirst⟩, Option.map_some]

/-- Two wheels with the same points find the same. -/
theorem find_congr {ring ring' : List (π × ν)} (ordered : Ordered ring) (ordered' : Ordered ring')
    (same : ∀ e, e ∈ ring ↔ e ∈ ring') (h : π) : find h ring = find h ring' := by
  refine Option.ext fun e => ?_
  rw [find_eq_some_iff ordered, find_eq_some_iff ordered']
  simp only [same]

/-- **More points.** A larger wheel finds what the smaller one does, or a point that the smaller one
does not have. -/
theorem find_of_subset {ring larger : List (π × ν)} (ordered : Ordered ring)
    (ordered' : Ordered larger) (subset : ∀ e ∈ ring, e ∈ larger) {h : π} {e : π × ν}
    (hfind : find h larger = some e) : find h ring = some e ∨ e ∉ ring := by
  obtain ⟨_, hfirst⟩ := find_spec ordered' hfind
  by_cases hmem : e ∈ ring
  · exact .inl ((find_eq_some_iff ordered).mpr ⟨hmem, fun e' he' => hfirst e' (subset e' he')⟩)
  · exact .inr hmem

/-! ## Values with several points each -/

/-- Put a value at each of some points. -/
def insertAll (ps : List π) (v : ν) (ring : List (π × ν)) : List (π × ν) :=
  ps.foldl (fun ring p => insert p v ring) ring

/-- Take the values at some points away. -/
def eraseAll (ps : List π) (ring : List (π × ν)) : List (π × ν) :=
  ps.foldl (fun ring p => erase p ring) ring

theorem Ordered.insertAll {ps : List π} {v : ν} {ring : List (π × ν)} (h : Ordered ring) :
    Ordered (insertAll ps v ring) := by
  induction ps generalizing ring with
  | nil => exact h
  | cons p ps ih => exact ih h.insert

theorem Ordered.eraseAll {ps : List π} {ring : List (π × ν)} (h : Ordered ring) :
    Ordered (eraseAll ps ring) := by
  induction ps generalizing ring with
  | nil => exact h
  | cons p ps ih => exact ih h.erase

theorem mem_insertAll {ps : List π} {v : ν} {ring : List (π × ν)} {e : π × ν} :
    e ∈ insertAll ps v ring ↔
      e ∈ ring ∨ (e.1 ∈ ps ∧ e.2 = v ∧ ∀ e' ∈ ring, e'.1 ≠ e.1) := by
  induction ps generalizing ring with
  | nil => simp [insertAll]
  | cons p ps ih =>
    rw [insertAll, List.foldl_cons, ← insertAll, ih, mem_insert]
    constructor
    · rintro ((hmem | ⟨rfl, hfree⟩) | ⟨hp, hv, hfree⟩)
      · exact .inl hmem
      · exact .inr ⟨List.mem_cons_self, rfl, hfree⟩
      · exact .inr ⟨List.mem_cons_of_mem _ hp, hv, fun e' he' => hfree e' (mem_insert.mpr (.inl he'))⟩
    · rintro (hmem | ⟨hp, hv, hfree⟩)
      · exact .inl (.inl hmem)
      · by_cases hfirst : e.1 = p
        · exact .inl (.inr ⟨Prod.ext hfirst hv, hfirst ▸ hfree⟩)
        · refine .inr ⟨(List.mem_cons.mp hp).resolve_left hfirst, hv, fun e' he' => ?_⟩
          rcases mem_insert.mp he' with he' | ⟨rfl, _⟩
          · exact hfree e' he'
          · exact fun h => hfirst h.symm

theorem mem_eraseAll {ps : List π} {ring : List (π × ν)} {e : π × ν} :
    e ∈ eraseAll ps ring ↔ e ∈ ring ∧ e.1 ∉ ps := by
  induction ps generalizing ring with
  | nil => simp [eraseAll]
  | cons p ps ih =>
    rw [eraseAll, List.foldl_cons, ← eraseAll, ih, mem_erase, List.mem_cons, not_or, and_assoc]

variable {points : ν → List π}

/-- The wheel has the values of a set, each at all of its points. -/
structure Holds (points : ν → List π) (s : Set ν) (ring : List (π × ν)) : Prop where
  ordered : Ordered ring
  mem_iff : ∀ e, e ∈ ring ↔ e.2 ∈ s ∧ e.1 ∈ points e.2

theorem Holds.empty : Holds points ∅ [] :=
  ⟨List.Pairwise.nil, fun _ => by simp⟩

/-- The points of a value are not those of the others in a set. -/
def Apart (points : ν → List π) (s : Set ν) (v : ν) : Prop :=
  ∀ w ∈ s, w ≠ v → ∀ p ∈ points w, p ∉ points v

theorem Holds.insertAll {s : Set ν} {v : ν} {ring : List (π × ν)} (h : Holds points s ring)
    (apart : Apart points s v) :
    Holds points (Insert.insert v s) (insertAll (points v) v ring) := by
  refine ⟨h.ordered.insertAll, fun e => ?_⟩
  rw [mem_insertAll, h.mem_iff, Set.mem_insert_iff]
  constructor
  · rintro (⟨hs, hp⟩ | ⟨hp, rfl, _⟩)
    · exact ⟨.inr hs, hp⟩
    · exact ⟨.inl rfl, hp⟩
  · rintro ⟨hv, hp⟩
    by_cases hs : e.2 ∈ s
    · exact .inl ⟨hs, hp⟩
    · obtain rfl := hv.resolve_right hs
      refine .inr ⟨hp, rfl, fun e' he' heq => ?_⟩
      obtain ⟨hs', hp'⟩ := (h.mem_iff e').mp he'
      have hne : e'.2 ≠ e.2 := fun heq => hs (heq ▸ hs')
      exact apart e'.2 hs' hne e'.1 hp' (heq ▸ hp)

theorem Holds.eraseAll {s : Set ν} {v : ν} {ring : List (π × ν)} (h : Holds points s ring)
    (apart : Apart points s v) : Holds points (s \ {v}) (eraseAll (points v) ring) := by
  refine ⟨h.ordered.eraseAll, fun e => ?_⟩
  rw [mem_eraseAll, h.mem_iff, Set.mem_sdiff, Set.mem_singleton_iff]
  constructor
  · rintro ⟨⟨hs, hp⟩, hout⟩
    exact ⟨⟨hs, fun heq => hout (heq ▸ hp)⟩, hp⟩
  · rintro ⟨⟨hs, hne⟩, hp⟩
    exact ⟨⟨hs, hp⟩, apart e.2 hs hne e.1 hp⟩

/-- What is found depends on the set of values alone. -/
theorem Holds.lookup_congr {s : Set ν} {ring ring' : List (π × ν)} (h : Holds points s ring)
    (h' : Holds points s ring') (place : π) : lookup place ring = lookup place ring' := by
  have same : ∀ e, e ∈ ring ↔ e ∈ ring' := fun e => (h.mem_iff e).trans (h'.mem_iff e).symm
  rw [lookup, find_congr h.ordered h'.ordered same, lookup]

theorem Holds.mem_of_lookup {s : Set ν} {ring : List (π × ν)} (h : Holds points s ring) {place : π}
    {v : ν} (hlookup : lookup place ring = some v) : v ∈ s := by
  obtain ⟨e, hfind, rfl⟩ := Option.map_eq_some_iff.mp hlookup
  exact ((h.mem_iff e).mp (find_spec h.ordered hfind).1).1

theorem Holds.lookup_eq_none_iff {s : Set ν} {ring : List (π × ν)} (h : Holds points s ring)
    (pointed : ∀ v ∈ s, points v ≠ []) {place : π} : lookup place ring = none ↔ s = ∅ := by
  rw [lookup, Option.map_eq_none_iff, find_eq_none_iff]
  constructor
  · rintro rfl
    refine Set.eq_empty_iff_forall_notMem.mpr fun v hv => ?_
    obtain ⟨p, hp⟩ := List.exists_mem_of_ne_nil _ (pointed v hv)
    exact List.not_mem_nil ((h.mem_iff (p, v)).mpr ⟨hv, hp⟩)
  · rintro rfl
    refine List.eq_nil_iff_forall_not_mem.mpr fun e he => ?_
    exact ((h.mem_iff e).mp he).1

/-- **Minimal disruption.** Of two sets of values, the one among the other, the larger one finds what
the smaller one finds, or a value that the smaller one has not. -/
theorem Holds.lookup_of_subset {s s' : Set ν} {ring ring' : List (π × ν)}
    (h : Holds points s ring) (h' : Holds points s' ring') (subset : s ⊆ s') (place : π) :
    lookup place ring' = lookup place ring ∨ ∃ v ∈ s' \ s, lookup place ring' = some v := by
  have hpoints : ∀ e ∈ ring, e ∈ ring' := by
    intro e he
    obtain ⟨hs, hp⟩ := (h.mem_iff e).mp he
    exact (h'.mem_iff e).mpr ⟨subset hs, hp⟩
  cases hfind : find place ring' with
  | none =>
    obtain rfl := find_eq_none_iff.mp hfind
    obtain rfl : ring = [] := List.eq_nil_iff_forall_not_mem.mpr fun e he =>
      List.not_mem_nil (hpoints e he)
    exact .inl rfl
  | some e =>
    rcases find_of_subset h.ordered h'.ordered hpoints hfind with hsame | hnew
    · left
      rw [lookup, lookup, hfind, hsame]
    · obtain ⟨hs', hp⟩ := (h'.mem_iff e).mp (find_spec h'.ordered hfind).1
      refine .inr ⟨e.2, ⟨hs', fun hs => hnew ((h.mem_iff e).mpr ⟨hs, hp⟩)⟩, ?_⟩
      rw [lookup, hfind]
      rfl

end Wheel
