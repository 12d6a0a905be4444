import Mathlib.Algebra.BigOperators.Group.List.Basic
import Mathlib.Algebra.Order.Ring.Abs
import Mathlib.Data.List.Induction
import Mathlib.Tactic.Linarith
import Mathlib.Tactic.Ring

/-! Exponential smoothing, and the averages that it keeps. -/

set_option autoImplicit false

namespace TradingPipeline.Foundation

universe u

variable {K : Type u} [CommRing K]

/-- Move the average towards the value. -/
def smooth (alpha value average : K) : K := alpha * value + (1 - alpha) * average

/-- The average after the first value is that value. -/
def smoothStep (alpha : K) : Option K → K → K
  | none, value => value
  | some average, value => smooth alpha value average

/-- What smoothing makes of the values, starting from nothing. -/
def smoothed (alpha : K) (before : Option K) (values : List K) : Option K :=
  values.foldl (fun average value => some (smoothStep alpha average value)) before

def weighted (weights values : List K) : K := (List.zipWith (· * ·) weights values).sum

section Weighted

theorem weighted_append {weights values : List K} (length : weights.length = values.length)
    (weight value : K) :
    weighted (weights ++ [weight]) (values ++ [value]) = weighted weights values + weight * value := by
  rw [weighted, List.zipWith_append length, List.sum_append]
  simp [weighted]

theorem weighted_scale (factor : K) (weights values : List K) :
    weighted (weights.map (factor * ·)) values = factor * weighted weights values := by
  induction weights generalizing values with
  | nil => simp [weighted]
  | cons weight rest ih =>
    cases values with
    | nil => simp [weighted]
    | cons value others =>
      have tail := ih others
      simp only [weighted, List.map_cons, List.zipWith_cons_cons, List.sum_cons] at tail ⊢
      rw [tail]
      ring

theorem sum_scale (factor : K) (weights : List K) :
    (weights.map (factor * ·)).sum = factor * weights.sum := by
  induction weights with
  | nil => simp
  | cons weight rest ih =>
    rw [List.map_cons, List.sum_cons, List.sum_cons, ih]
    ring

theorem weighted_neg (weights values : List K) :
    weighted weights (values.map (- ·)) = -weighted weights values := by
  induction weights generalizing values with
  | nil => simp [weighted]
  | cons weight rest ih =>
    cases values with
    | nil => simp [weighted]
    | cons value others =>
      have tail := ih others
      simp only [weighted, List.map_cons, List.zipWith_cons_cons, List.sum_cons] at tail ⊢
      rw [tail]
      ring

end Weighted

section Averages

variable [LinearOrder K] [IsStrictOrderedRing K]

/-- A weighted average of the values, with no weight negative. -/
def IsAverage (average : K) (values : List K) : Prop :=
  ∃ weights : List K, weights.length = values.length ∧ (∀ weight ∈ weights, 0 ≤ weight) ∧
    weights.sum = 1 ∧ average = weighted weights values

theorem isAverage_singleton (value : K) : IsAverage value [value] :=
  ⟨[1], rfl, by simp, by simp, by simp [weighted]⟩

theorem IsAverage.smooth {alpha average : K} {values : List K} (is : IsAverage average values)
    (nonneg : 0 ≤ alpha) (le : alpha ≤ 1) (value : K) :
    IsAverage (smooth alpha value average) (values ++ [value]) := by
  obtain ⟨weights, length, positive, sum, rfl⟩ := is
  refine ⟨weights.map ((1 - alpha) * ·) ++ [alpha], ?_, ?_, ?_, ?_⟩
  · simp [length]
  · intro weight member
    rcases List.mem_append.mp member with earlier | last
    · obtain ⟨old, listed, rfl⟩ := List.mem_map.mp earlier
      exact mul_nonneg (sub_nonneg.mpr le) (positive old listed)
    · rw [List.mem_singleton.mp last]
      exact nonneg
  · rw [List.sum_append, sum_scale, sum, List.sum_singleton]
    ring
  · rw [weighted_append (by simp [length]), weighted_scale, Foundation.smooth]
    ring

theorem isAverage_smoothed {alpha : K} (nonneg : 0 ≤ alpha) (le : alpha ≤ 1) {values : List K}
    (some' : values ≠ []) :
    ∃ average, smoothed alpha none values = some average ∧ IsAverage average values := by
  induction values using List.reverseRecOn with
  | nil => exact absurd rfl some'
  | append_singleton earlier last ih =>
    simp only [smoothed, List.foldl_append, List.foldl_cons, List.foldl_nil] at ih ⊢
    by_cases first : earlier = []
    · subst first
      exact ⟨last, rfl, isAverage_singleton last⟩
    · obtain ⟨average, before, is⟩ := ih first
      rw [before]
      exact ⟨_, rfl, is.smooth nonneg le last⟩

theorem weighted_ge {low : K} {weights values : List K} (length : weights.length = values.length)
    (nonneg : ∀ weight ∈ weights, 0 ≤ weight) (bounds : ∀ value ∈ values, low ≤ value) :
    weights.sum * low ≤ weighted weights values := by
  induction weights generalizing values with
  | nil => simp [weighted]
  | cons weight rest ih =>
    cases values with
    | nil => contradiction
    | cons value others =>
      have tail := ih (Nat.succ.inj length) (fun other member => nonneg other (.tail _ member))
        fun other member => bounds other (.tail _ member)
      have head := mul_le_mul_of_nonneg_left (bounds value List.mem_cons_self)
        (nonneg weight List.mem_cons_self)
      simp only [weighted, List.sum_cons, List.zipWith_cons_cons] at tail ⊢
      linarith

theorem IsAverage.between {average low high : K} {values : List K} (is : IsAverage average values)
    (bounds : ∀ value ∈ values, low ≤ value ∧ value ≤ high) : low ≤ average ∧ average ≤ high := by
  obtain ⟨weights, length, nonneg, sum, rfl⟩ := is
  constructor
  · have lower := weighted_ge length nonneg fun value member => (bounds value member).1
    rwa [sum, one_mul] at lower
  · have mirrored : ∀ value ∈ values.map (- ·), -high ≤ value := by
      intro value member
      obtain ⟨old, listed, rfl⟩ := List.mem_map.mp member
      exact neg_le_neg (bounds old listed).2
    have lower := weighted_ge (by simpa using length) nonneg mirrored
    rw [sum, one_mul, weighted_neg] at lower
    exact neg_le_neg_iff.mp lower

end Averages

section Decay

theorem smoothed_replicate (alpha value average : K) (count : Nat) :
    ∃ final, smoothed alpha (some average) (List.replicate count value) = some final ∧
      final - value = (1 - alpha) ^ count * (average - value) := by
  induction count generalizing average with
  | zero => exact ⟨average, rfl, by ring⟩
  | succ count ih =>
    obtain ⟨final, run, distance⟩ := ih (smooth alpha value average)
    refine ⟨final, run, ?_⟩
    rw [distance, smooth]
    ring

end Decay

section Noise

variable [LinearOrder K] [IsStrictOrderedRing K] {alpha anchor average noise radius : K}

/-- Noise that the pull at the edge makes up for never carries the average over that edge. -/
theorem smooth_noise_near (le : alpha ≤ 1)
    (near : |average - anchor| ≤ radius) (small : |noise| ≤ alpha * radius) :
    |smooth alpha anchor average + noise - anchor| ≤ radius := by
  have split : smooth alpha anchor average + noise - anchor =
      (1 - alpha) * (average - anchor) + noise := by
    rw [smooth]
    ring
  calc |smooth alpha anchor average + noise - anchor|
      ≤ |(1 - alpha) * (average - anchor)| + |noise| := by
        rw [split]
        exact abs_add_le _ _
    _ ≤ (1 - alpha) * radius + alpha * radius := by
        rw [abs_mul, abs_of_nonneg (sub_nonneg.mpr le)]
        exact add_le_add (mul_le_mul_of_nonneg_left near (sub_nonneg.mpr le)) small
    _ = radius := by ring

theorem smooth_noise_moves (nonneg : 0 ≤ alpha) (near : |average - anchor| ≤ radius)
    (small : |noise| ≤ alpha * radius) :
    |smooth alpha anchor average + noise - average| ≤ 2 * alpha * radius := by
  have split : smooth alpha anchor average + noise - average =
      alpha * -(average - anchor) + noise := by
    rw [smooth]
    ring
  calc |smooth alpha anchor average + noise - average|
      ≤ |alpha * -(average - anchor)| + |noise| := by
        rw [split]
        exact abs_add_le _ _
    _ ≤ alpha * radius + alpha * radius := by
        rw [abs_mul, abs_neg, abs_of_nonneg nonneg]
        exact add_le_add (mul_le_mul_of_nonneg_left near nonneg) small
    _ = 2 * alpha * radius := by ring

end Noise

end TradingPipeline.Foundation
