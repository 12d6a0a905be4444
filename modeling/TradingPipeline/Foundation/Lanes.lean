import Mathlib.Algebra.BigOperators.Fin
import Mathlib.Data.List.Basic

/-! Sequences that interleave several lanes. -/

set_option autoImplicit false

namespace TradingPipeline.Foundation

universe u v

variable {L : Type u} {α : Type v} [DecidableEq L]

/-- The items of one lane, in order. -/
def lane (focus : L) (tagged : List (L × α)) : List α :=
  tagged.filterMap fun entry => if entry.1 = focus then some entry.2 else none

section Lanes

variable (focus : L) (first second : List (L × α)) (item : α)

@[simp] theorem lane_nil : lane focus ([] : List (L × α)) = [] := rfl

@[simp] theorem lane_append :
    lane focus (first ++ second) = lane focus first ++ lane focus second := by
  simp only [lane, List.filterMap_append]

@[simp] theorem lane_cons_self (rest : List (L × α)) :
    lane focus ((focus, item) :: rest) = item :: lane focus rest := by
  simp [lane]

theorem lane_cons_ne {other : L} (different : other ≠ focus) (rest : List (L × α)) :
    lane focus ((other, item) :: rest) = lane focus rest := by
  simp [lane, different]

theorem lane_tag_self (items : List α) : lane focus (items.map (Prod.mk focus)) = items := by
  induction items with
  | nil => rfl
  | cons item rest ih => rw [List.map_cons, lane_cons_self, ih]

theorem lane_tag_other {other : L} (different : other ≠ focus) (items : List α) :
    lane focus (items.map (Prod.mk other)) = [] := by
  induction items with
  | nil => rfl
  | cons item rest ih => rw [List.map_cons, lane_cons_ne focus item different, ih]

theorem mem_lane {tagged : List (L × α)} : item ∈ lane focus tagged ↔ (focus, item) ∈ tagged := by
  simp only [lane, List.mem_filterMap, Option.ite_none_right_eq_some, Option.some.injEq]
  constructor
  · rintro ⟨⟨owner, other⟩, member, rfl, rfl⟩
    exact member
  · intro member
    exact ⟨_, member, rfl, rfl⟩

theorem lane_of_all {tagged : List (L × α)} (all : ∀ entry ∈ tagged, entry.1 = focus) (other : L) :
    (lane other tagged).length = if other = focus then tagged.length else 0 := by
  induction tagged with
  | nil => simp
  | cons entry rest ih =>
    obtain ⟨owner, item⟩ := entry
    obtain rfl : owner = focus := all _ List.mem_cons_self
    have tail := ih fun later member => all later (List.mem_cons_of_mem _ member)
    by_cases same : other = owner
    · subst same
      simpa using tail
    · simpa [lane_cons_ne _ _ (Ne.symm same), same] using tail

theorem length_lane_le (tagged : List (L × α)) : (lane focus tagged).length ≤ tagged.length :=
  List.length_filterMap_le _ _

end Lanes

/-- When a label is only found in one lane, selecting it there loses nothing. -/
theorem lane_filter (focus : L) (label : α → Bool) (tagged : List (L × α))
    (routed : ∀ entry ∈ tagged, label entry.2 = true → entry.1 = focus) :
    (lane focus tagged).filter label = (tagged.map Prod.snd).filter label := by
  induction tagged with
  | nil => rfl
  | cons entry rest ih =>
    obtain ⟨owner, item⟩ := entry
    have tail := ih fun later member => routed later (List.mem_cons_of_mem _ member)
    by_cases here : owner = focus
    · subst here
      simp only [lane_cons_self, List.map_cons, List.filter_cons, tail]
    · have other : label item = false := by
        cases is : label item
        · rfl
        · exact absurd (routed _ List.mem_cons_self is) here
      simp [lane_cons_ne focus item here, tail, other]

theorem nodup_of_lanes {β : Type v} (label : α → β) (tagged : List (L × α))
    (within : ∀ focus, ((lane focus tagged).map label).Nodup)
    (between : ∀ first ∈ tagged, ∀ second ∈ tagged, first.1 ≠ second.1 →
      label first.2 ≠ label second.2) :
    (tagged.map fun entry => label entry.2).Nodup := by
  induction tagged with
  | nil => exact List.nodup_nil
  | cons entry rest ih =>
    obtain ⟨owner, item⟩ := entry
    rw [List.map_cons, List.nodup_cons]
    constructor
    · intro repeated
      obtain ⟨⟨other, twin⟩, member, same⟩ := List.mem_map.mp repeated
      -- the twin lies in the same lane, or in another
      by_cases here : other = owner
      · subst here
        have fresh := within other
        rw [lane_cons_self, List.map_cons, List.nodup_cons] at fresh
        exact fresh.1 (List.mem_map.mpr ⟨twin, (mem_lane _ _).mpr member, same⟩)
      · exact between _ (List.mem_cons_of_mem _ member) _ List.mem_cons_self here same
    · apply ih
      · intro focus
        have whole := within focus
        by_cases here : owner = focus
        · subst here
          rw [lane_cons_self, List.map_cons] at whole
          exact (List.nodup_cons.mp whole).2
        · rwa [lane_cons_ne focus item here] at whole
      · exact fun first member second later =>
          between first (List.mem_cons_of_mem _ member) second (List.mem_cons_of_mem _ later)

theorem sum_lane_length {n : Nat} (tagged : List (Fin n × α)) :
    ∑ focus : Fin n, (lane focus tagged).length = tagged.length := by
  induction tagged with
  | nil => simp
  | cons entry rest ih =>
    obtain ⟨owner, item⟩ := entry
    have each : ∀ focus : Fin n, (lane focus ((owner, item) :: rest)).length =
        (if owner = focus then 1 else 0) + (lane focus rest).length := by
      intro focus
      by_cases here : owner = focus
      · subst here; simp [Nat.add_comm]
      · simp [lane_cons_ne focus item here, here]
    simp only [each, Finset.sum_add_distrib, ih, Finset.sum_ite_eq, Finset.mem_univ, if_true,
      List.length_cons, Nat.add_comm]

end TradingPipeline.Foundation
