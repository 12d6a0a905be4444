import Mathlib.Data.Int.CardIntervalMod
import Mathlib.Data.List.Nodup

/-! Tasks that are dealt out to places in turn. -/

set_option autoImplicit false

namespace TradingPipeline.Foundation.RoundRobin

universe u v

variable {α : Type u} {β : Type v} {places : List α} {turn tasks : Nat}

/-- The place whose turn it is; there is none among no places. -/
def place (places : List α) (turn : Nat) : Option α := places[turn % places.length]?

/-- The places of that many tasks. -/
def deal (places : List α) (tasks : Nat) : List (Option α) :=
  (List.range tasks).map (place places)

@[simp] theorem length_deal : (deal places tasks).length = tasks := by
  rw [deal, List.length_map, List.length_range]

theorem deal_add (places : List α) (first second : Nat) : deal places (first + second) =
    deal places first ++ (List.range second).map fun turn => place places (first + turn) := by
  unfold deal
  rw [List.range_add, List.map_append, List.map_map]
  rfl

theorem place_map (f : α → β) (places : List α) (turn : Nat) :
    place (places.map f) turn = (place places turn).map f := by
  rw [place, place, List.length_map, List.getElem?_map]

theorem mem_of_place {value : α} (placed : place places turn = some value) : value ∈ places :=
  List.mem_of_getElem? placed

theorem exists_place (some' : places ≠ []) (turn : Nat) :
    ∃ value ∈ places, place places turn = some value := by
  have less : turn % places.length < places.length := Nat.mod_lt _ (List.length_pos_iff.mpr some')
  exact ⟨_, List.getElem_mem less, List.getElem?_eq_getElem less⟩

theorem place_of_lt (less : turn < places.length) : place places turn = places[turn]? := by
  rw [place, Nat.mod_eq_of_lt less]

theorem deal_of_le (enough : tasks ≤ places.length) :
    deal places tasks = (places.take tasks).map some := by
  apply List.ext_getElem
  · rw [length_deal, List.length_map, List.length_take, Nat.min_eq_left enough]
  · intro turn within less
    rw [length_deal] at within
    have bound : turn < places.length := Nat.lt_of_lt_of_le within enough
    simp only [deal, List.getElem_map, List.getElem_range, List.getElem_take, place_of_lt bound,
      List.getElem?_eq_getElem bound]

theorem deal_nodup (distinct : places.Nodup) (enough : tasks ≤ places.length) :
    (deal places tasks).Nodup := by
  rw [deal_of_le enough]
  exact (distinct.sublist (List.take_sublist _ _)).map (Option.some_injective _)

theorem place_eq_iff (distinct : places.Nodup) {index : Nat} (less : index < places.length) :
    place places turn = places[index]? ↔ turn % places.length = index := by
  have bound : turn % places.length < places.length := Nat.mod_lt _ (by omega)
  rw [place, List.getElem?_inj bound distinct]

variable [DecidableEq α]

/-- Each place gets its share, and the first ones what is left over. -/
theorem count_deal (distinct : places.Nodup) {index : Nat} (less : index < places.length) :
    (deal places tasks).count places[index]? =
      tasks / places.length + if index < tasks % places.length then 1 else 0 := by
  have turns : (deal places tasks).count places[index]? =
      Nat.count (· ≡ index [MOD places.length]) tasks := by
    rw [deal, List.count, List.countP_map, Nat.count]
    refine List.countP_congr fun turn _ => ?_
    simp only [Function.comp_apply, beq_iff_eq, decide_eq_true_eq, place_eq_iff distinct less]
    rw [Nat.ModEq, Nat.mod_eq_of_lt less]
  rw [turns, Nat.count_modEq_card _ (by omega), Nat.mod_eq_of_lt less]

theorem count_deal_le (distinct : places.Nodup) {value other : α} (mem : value ∈ places)
    (memOther : other ∈ places) :
    (deal places tasks).count (some value) ≤ (deal places tasks).count (some other) + 1 := by
  obtain ⟨index, less, rfl⟩ := List.getElem_of_mem mem
  obtain ⟨second, within, rfl⟩ := List.getElem_of_mem memOther
  rw [← List.getElem?_eq_getElem less, ← List.getElem?_eq_getElem within,
    count_deal distinct less, count_deal distinct within]
  split <;> split <;> omega

end TradingPipeline.Foundation.RoundRobin
