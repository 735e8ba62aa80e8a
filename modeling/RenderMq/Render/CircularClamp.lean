import Mathlib.Data.Rat.Floor
import Mathlib.Tactic.Linarith
import Mathlib.Tactic.NormNum
import Mathlib.Tactic.Ring

/-!
# Wrapping coordinates

A latitude or a longitude outside its range is moved into it by whole ranges. The steps by which
`CircularClamp` moves it are longer than the range by one, so it is right where the number of the steps
makes up whole ranges as well, as no step does (`isWrapped_circularClamp_iff`).
-/

namespace RenderMq

namespace CircularClamp

/-- `int`, which cuts off what is behind the point. -/
def truncate (x : ℚ) : ℤ := if 0 ≤ x then ⌊x⌋ else ⌈x⌉

def circularClamp (low high value : ℚ) : ℚ :=
  let (low, high) := if low > high then (high, low) else (low, high)
  let length := (high - low) + 1
  if value < low then
    let moved := truncate (|value - low| / length) * -length + low
    high - |value - moved|
  else if value > high then
    let moved := truncate (|value - high| / length) * length + high
    low + |value - moved|
  else value

def tileSize : ℚ := 256

/-- `xyFromLatLng`, with the projection to pixels. -/
def xyFromLatLng (toPixels : ℚ × ℚ → ℤ → ℚ × ℚ) (latLng : ℚ × ℚ) (zoom : ℤ) : ℤ × ℤ × ℤ :=
  let lat := circularClamp (-90) 90 latLng.1
  let lng := circularClamp (-180) 180 latLng.2
  let pixels := toPixels (lng, lat) zoom
  (truncate (pixels.1 / tileSize), truncate (pixels.2 / tileSize), zoom)

/-! ## Wrapping -/

/-- A value of the range that is whole ranges away. -/
structure IsWrapped (low high value wrapped : ℚ) : Prop where
  mem : low ≤ wrapped ∧ wrapped ≤ high
  apart : ∃ n : ℤ, value - wrapped = n * (high - low)

/-- How far a value is outside of a range. -/
def outside (low high value : ℚ) : ℚ := max 0 (max (low - value) (value - high))

/-- After some steps that are longer by one, whose number makes up whole ranges, a distance is within
one range. -/
def Reaches (period distance : ℚ) : Prop :=
  ∃ k n : ℕ, (k : ℚ) = n * period ∧ k * (period + 1) ≤ distance ∧
    distance ≤ k * (period + 1) + period

variable {low high value period distance : ℚ}

theorem truncate_of_nonneg {x : ℚ} (h : 0 ≤ x) : truncate x = ⌊x⌋ := if_pos h

/-- What the steps leave of a distance. -/
def rest (period distance : ℚ) : ℚ := distance - ⌊distance / (period + 1)⌋ * (period + 1)

theorem rest_nonneg (hperiod : 0 < period) (distance : ℚ) : 0 ≤ rest period distance := by
  have hlength : 0 < period + 1 := by linarith
  have hfloor := Int.floor_le (distance / (period + 1))
  rw [le_div_iff₀ hlength] at hfloor
  exact sub_nonneg.mpr hfloor

/-- A distance that is a number of steps and a part of a range takes these steps. -/
theorem floor_steps (hperiod : 0 < period) {k : ℕ} (hlow : k * (period + 1) ≤ distance)
    (hhigh : distance ≤ k * (period + 1) + period) : ⌊distance / (period + 1)⌋ = (k : ℤ) := by
  have hlength : 0 < period + 1 := by linarith
  refine Int.floor_eq_iff.mpr ⟨?_, ?_⟩
  · rw [le_div_iff₀ hlength]
    exact_mod_cast hlow
  · rw [div_lt_iff₀ hlength]
    push_cast
    linarith

/-- What is left is within a range, and the steps are whole ranges. -/
theorem reaches_iff (hperiod : 0 < period) (hdistance : 0 ≤ distance) :
    Reaches period distance ↔ rest period distance ≤ period ∧
      ∃ n : ℤ, period + (distance - rest period distance) = n * period := by
  unfold rest
  constructor
  · intro h
    obtain ⟨k, n, hk, hlow, hhigh⟩ := h
    rw [floor_steps hperiod hlow hhigh]
    push_cast
    refine ⟨by linarith, 1 + (k : ℤ) + n, ?_⟩
    push_cast
    rw [sub_sub_cancel, mul_add, hk]
    ring
  · intro h
    obtain ⟨hrest, n, hn⟩ := h
    have hquotient : 0 ≤ distance / (period + 1) := div_nonneg hdistance (by linarith)
    obtain ⟨k, hk⟩ := Int.eq_ofNat_of_zero_le (Int.floor_nonneg.mpr hquotient)
    have hstart := rest_nonneg hperiod distance
    unfold rest at hstart
    rw [hk] at hrest hn hstart
    push_cast at hrest hn hstart
    -- what the ranges are ahead of the steps is the number of the steps
    have hwhole : (k : ℚ) = ((n - 1 - k : ℤ) : ℚ) * period := by
      push_cast
      linarith
    have hcount : 0 ≤ n - 1 - (k : ℤ) := by
      by_contra hneg
      have hnegative : ((n - 1 - k : ℤ) : ℚ) < 0 := Int.cast_lt_zero.mpr (not_le.mp hneg)
      have hproduct := mul_neg_of_neg_of_pos hnegative hperiod
      have hk0 : (0 : ℚ) ≤ k := Nat.cast_nonneg k
      linarith
    obtain ⟨m, hm⟩ := Int.eq_ofNat_of_zero_le hcount
    refine ⟨k, m, ?_, by linarith, by linarith⟩
    rw [hwhole, hm]
    rfl

/-! ## Below, above and within the range -/

theorem circularClamp_of_lt (h : low < high) (hvalue : value < low) :
    circularClamp low high value = high - rest (high - low) (low - value) := by
  have hlength : 0 < high - low + 1 := by linarith
  have hdistance : |value - low| = low - value := by
    rw [abs_sub_comm]
    exact abs_of_pos (by linarith)
  have hsteps : 0 ≤ (low - value) / (high - low + 1) := div_nonneg (by linarith) hlength.le
  have hrest := rest_nonneg (sub_pos.mpr h) (low - value)
  unfold rest at hrest
  dsimp only [circularClamp]
  rw [if_neg h.not_gt]
  dsimp only
  rw [if_pos hvalue, hdistance, truncate_of_nonneg hsteps, abs_of_nonpos (by linarith), rest]
  ring

theorem circularClamp_of_gt (h : low < high) (hvalue : high < value) :
    circularClamp low high value = low + rest (high - low) (value - high) := by
  have hlength : 0 < high - low + 1 := by linarith
  have hdistance : |value - high| = value - high := abs_of_pos (by linarith)
  have hsteps : 0 ≤ (value - high) / (high - low + 1) := div_nonneg (by linarith) hlength.le
  have hrest := rest_nonneg (sub_pos.mpr h) (value - high)
  unfold rest at hrest
  dsimp only [circularClamp]
  rw [if_neg h.not_gt]
  dsimp only
  rw [if_neg (by linarith), if_pos hvalue, hdistance, truncate_of_nonneg hsteps,
    abs_of_nonneg (by linarith), rest]
  ring

theorem circularClamp_of_mem (hlow : low ≤ value) (hhigh : value ≤ high) :
    circularClamp low high value = value := by
  dsimp only [circularClamp]
  rw [if_neg (hlow.trans hhigh).not_gt]
  dsimp only
  rw [if_neg hlow.not_gt, if_neg hhigh.not_gt]

theorem isWrapped_below_iff (h : low < high) (hvalue : value < low) :
    IsWrapped low high value (circularClamp low high value) ↔ Reaches (high - low) (low - value) := by
  have hperiod : 0 < high - low := sub_pos.mpr h
  have hrest := rest_nonneg hperiod (low - value)
  rw [circularClamp_of_lt h hvalue, reaches_iff hperiod (by linarith)]
  constructor
  · intro hw
    obtain ⟨n, hn⟩ := hw.apart
    refine ⟨by linarith [hw.mem.1], -n, ?_⟩
    push_cast
    linarith
  · intro hr
    obtain ⟨hle, n, hn⟩ := hr
    refine ⟨⟨by linarith, by linarith⟩, -n, ?_⟩
    push_cast
    linarith

theorem isWrapped_above_iff (h : low < high) (hvalue : high < value) :
    IsWrapped low high value (circularClamp low high value) ↔ Reaches (high - low) (value - high) := by
  have hperiod : 0 < high - low := sub_pos.mpr h
  have hrest := rest_nonneg hperiod (value - high)
  rw [circularClamp_of_gt h hvalue, reaches_iff hperiod (by linarith)]
  constructor
  · intro hw
    obtain ⟨n, hn⟩ := hw.apart
    exact ⟨by linarith [hw.mem.2], n, by linarith⟩
  · intro hr
    obtain ⟨hle, n, hn⟩ := hr
    exact ⟨⟨by linarith, by linarith⟩, n, by linarith⟩

theorem isWrapped_of_mem (hlow : low ≤ value) (hhigh : value ≤ high) :
    IsWrapped low high value (circularClamp low high value) := by
  rw [circularClamp_of_mem hlow hhigh]
  refine ⟨⟨hlow, hhigh⟩, 0, ?_⟩
  rw [sub_self, Int.cast_zero, zero_mul]

theorem reaches_zero (hperiod : 0 < period) : Reaches period 0 := by
  refine ⟨0, 0, ?_, ?_, ?_⟩
  · rw [Nat.cast_zero, zero_mul]
  · rw [Nat.cast_zero, zero_mul]
  · rw [Nat.cast_zero, zero_mul, zero_add]
    exact hperiod.le

/-- **A value is wrapped into the range** where whole ranges are among the steps by which it is moved.

The bounds and the value are any rational numbers, with the lower bound below the upper one. The floats
of the code are not part of this, nor is a range that is empty. -/
theorem isWrapped_circularClamp_iff (h : low < high) :
    IsWrapped low high value (circularClamp low high value) ↔
      Reaches (high - low) (outside low high value) := by
  rcases lt_or_ge value low with hbelow | hlow
  · have houtside : outside low high value = low - value := by
      rw [outside, max_eq_left (show value - high ≤ low - value by linarith), max_eq_right (by linarith)]
    rw [houtside]
    exact isWrapped_below_iff h hbelow
  · rcases lt_or_ge high value with habove | hhigh
    · have houtside : outside low high value = value - high := by
        rw [outside, max_eq_right (show low - value ≤ value - high by linarith), max_eq_right (by linarith)]
      rw [houtside]
      exact isWrapped_above_iff h habove
    · have houtside : outside low high value = 0 := by
        rw [outside, max_eq_left (max_le (by linarith) (by linarith))]
      rw [houtside]
      exact iff_of_true (isWrapped_of_mem hlow hhigh) (reaches_zero (sub_pos.mpr h))

/-- Coordinates that are wrapped have the tile of those that they are wrapped to. -/
theorem xyFromLatLng_wrapped (toPixels : ℚ × ℚ → ℤ → ℚ × ℚ) {latLng : ℚ × ℚ} (zoom : ℤ)
    (hlat : IsWrapped (-90) 90 latLng.1 (circularClamp (-90) 90 latLng.1))
    (hlng : IsWrapped (-180) 180 latLng.2 (circularClamp (-180) 180 latLng.2)) :
    xyFromLatLng toPixels latLng zoom = xyFromLatLng toPixels
      (circularClamp (-90) 90 latLng.1, circularClamp (-180) 180 latLng.2) zoom := by
  unfold xyFromLatLng
  dsimp only
  rw [circularClamp_of_mem hlat.mem.1 hlat.mem.2, circularClamp_of_mem hlng.mem.1 hlng.mem.2]

/-- A longitude that is less than one range away. -/
theorem isWrapped_circularClamp_near : IsWrapped (-180) 180 200 (circularClamp (-180) 180 200) := by
  refine (isWrapped_circularClamp_iff (by norm_num)).mpr ⟨0, 0, ?_, ?_, ?_⟩
  · norm_num
  · norm_num [outside]
  · norm_num [outside]

/-- A longitude of one range and one degree is as if it were of two ranges. -/
theorem far_longitude_is_moved_too_far : ¬ IsWrapped (-180) 180 541 (circularClamp (-180) 180 541) := by
  have hclamp : circularClamp (-180) 180 541 = -180 := by
    decide +kernel
  intro h
  obtain ⟨n, hn⟩ := h.apart
  rw [hclamp] at hn
  have hwhole : (721 : ℤ) = n * 360 := by
    have hcast : ((721 : ℤ) : ℚ) = ((n * 360 : ℤ) : ℚ) := by
      push_cast
      linarith
    exact_mod_cast hcast
  omega

end CircularClamp

end RenderMq
