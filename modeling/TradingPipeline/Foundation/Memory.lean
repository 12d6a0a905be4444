import Mathlib.Data.List.Forall2
import TradingPipeline.Foundation.Fallible

/-! Arrays that grow, and what they ask memory for.

An array asks for more room when what it takes up does not fit; how much it asks for is told by its
growth. What memory answers is a parameter.
-/

set_option autoImplicit false

namespace TradingPipeline.Foundation

universe u v

inductive MemoryError where
  /-- More than an array can have at all. -/
  | capacityOverflow
  /-- More than there is. -/
  | refused
  deriving DecidableEq

/-- What a request for room for so many items meets with, unless it is granted. -/
abbrev Memory := Nat → Option MemoryError

/-- Memory that grants every request. -/
def Memory.ample : Memory := fun _ => none

/-- How much an array asks for when its capacity is less than what is needed. -/
structure Growth where
  next (capacity needed : Nat) : Nat
  enough (capacity needed : Nat) : needed ≤ next capacity needed

namespace Growth

/-- Just what is needed. -/
def exact : Growth := ⟨fun _ needed => needed, fun _ needed => Nat.le_refl needed⟩

/-- What is needed, but no less than twice the capacity, and at first no less than `least`. -/
def doubling (least : Nat) : Growth where
  next capacity needed := max least (max (2 * capacity) needed)
  enough _ _ := Nat.le_trans (Nat.le_max_right _ _) (Nat.le_max_right _ _)

variable (growth : Growth)

/-- The request, if one is made. -/
def ask (capacity needed : Nat) : Option Nat :=
  if needed ≤ capacity then none else some (growth.next capacity needed)

theorem ask_add_zero {capacity length : Nat} (fits : length ≤ capacity) :
    growth.ask capacity (length + 0) = none := if_pos fits

/-- The capacity afterwards. -/
def after (capacity needed : Nat) : Nat := (growth.ask capacity needed).getD capacity

theorem le_after (capacity needed : Nat) : needed ≤ growth.after capacity needed := by
  unfold after ask
  split
  · next fits => exact fits
  · exact growth.enough capacity needed

/-- All requests of an array of that length that takes up so many items at a time. -/
def requests (capacity length : Nat) : List Nat → List Nat
  | [] => []
  | size :: rest => (growth.ask capacity (length + size)).toList ++
      requests (growth.after capacity (length + size)) (length + size) rest

end Growth

/-- The requests are granted. -/
def Memory.Grants (memory : Memory) (growth : Growth) (capacity length : Nat) (sizes : List Nat) :
    Prop :=
  ∀ request ∈ growth.requests capacity length sizes, memory request = none

instance (memory : Memory) (growth : Growth) (capacity length : Nat) (sizes : List Nat) :
    Decidable (memory.Grants growth capacity length sizes) :=
  List.decidableBAll (fun request => memory request = none) _

/-- The items of an array, and for how many it has room. -/
structure Grown (α : Type u) where
  items : List α
  capacity : Nat
  room : items.length ≤ capacity
  deriving DecidableEq

namespace Grown

variable {α : Type u}

def empty : Grown α := ⟨[], 0, Nat.le_refl 0⟩

section Growing

variable (growth : Growth) (memory : Memory) (array : Grown α) (more : List α)

/-- The array with more items at its end, in the room that it then has. -/
def append : Grown α :=
  ⟨array.items ++ more, growth.after array.capacity (array.items.length + more.length),
    List.length_append ▸ growth.le_after _ _⟩

def extend : Except MemoryError (Grown α) :=
  match (growth.ask array.capacity (array.items.length + more.length)).bind memory with
  | some error => .error error
  | none => .ok (array.append growth more)

end Growing

variable {growth : Growth} {memory : Memory} {array result : Grown α} {more : List α}

theorem items_append : (array.append growth more).items = array.items ++ more := rfl

theorem capacity_append : (array.append growth more).capacity =
    growth.after array.capacity (array.items.length + more.length) := rfl

theorem length_append :
    (array.append growth more).items.length = array.items.length + more.length :=
  List.length_append

theorem append_nil (growth : Growth) (array : Grown α) : array.append growth [] = array := by
  obtain ⟨items, capacity, room⟩ := array
  have same : growth.after capacity (items.length + 0) = capacity := by
    rw [Growth.after, growth.ask_add_zero room, Option.getD_none]
  unfold append
  simp only [List.append_nil, List.length_nil, same]

theorem foldl_items (blocks : List (List α)) :
    (blocks.foldl (append growth) array).items = array.items ++ blocks.flatten := by
  induction blocks generalizing array with
  | nil => exact (List.append_nil _).symm
  | cons block rest ih =>
    rw [List.foldl_cons, ih, items_append, List.flatten_cons, List.append_assoc]

end Grown

section Grants

variable {memory : Memory} {growth : Growth} {capacity length size : Nat} {sizes : List Nat}

theorem grants_ample : Memory.ample.Grants growth capacity length sizes := fun _ _ => rfl

theorem grants_nil : memory.Grants growth capacity length [] :=
  fun _ mem => absurd mem List.not_mem_nil

theorem grants_cons : memory.Grants growth capacity length (size :: sizes) ↔
    (growth.ask capacity (length + size)).bind memory = none ∧
      memory.Grants growth (growth.after capacity (length + size)) (length + size) sizes := by
  rw [Memory.Grants, Growth.requests, List.forall_mem_append]
  apply and_congr_left'
  cases growth.ask capacity (length + size) with
  | none => simp
  | some request => simp

theorem grants_of_append {later : List Nat}
    (granted : memory.Grants growth capacity length (sizes ++ later)) :
    memory.Grants growth capacity length sizes := by
  induction sizes generalizing capacity length with
  | nil => exact grants_nil
  | cons size rest ih =>
    obtain ⟨here, granted⟩ := grants_cons.mp granted
    exact grants_cons.mpr ⟨here, ih granted⟩

end Grants

section Loop

variable {α : Type u} {ε : Type u} {ι : Type v} {growth : Growth} {memory : Memory}
  {wrap : MemoryError → ε} {read : ι → Except ε (List α)} {array result : Grown α}
  {pieces : List ι}

/-- One turn of a loop that takes up what it reads. -/
def Grown.take (growth : Growth) (memory : Memory) (wrap : MemoryError → ε)
    (read : ι → Except ε (List α)) (array : Grown α) (piece : ι) : Except ε (Grown α) := do
  let more ← read piece
  (array.extend growth memory more).mapError wrap

theorem take_eq_ok {piece : ι} : array.take growth memory wrap read piece = .ok result ↔
    ∃ more, read piece = .ok more ∧
      (growth.ask array.capacity (array.items.length + more.length)).bind memory = none ∧
      result = array.append growth more := by
  unfold Grown.take
  rw [bind_eq_ok]
  apply exists_congr
  intro more
  apply and_congr_right'
  unfold Grown.extend
  cases (growth.ask array.capacity (array.items.length + more.length)).bind memory with
  | none => simp [Except.mapError, eq_comm]
  | some error => simp [Except.mapError]

theorem take_nil {piece : ι} (nothing : read piece = .ok []) :
    array.take growth memory wrap read piece = .ok array := by
  refine take_eq_ok.mpr ⟨[], nothing, ?_, (Grown.append_nil growth array).symm⟩
  rw [List.length_nil, growth.ask_add_zero array.room]
  rfl

/-- The loop comes to its end when every piece is read and every request is granted. -/
theorem foldlM_take : pieces.foldlM (Grown.take growth memory wrap read) array = .ok result ↔
    ∃ blocks, List.Forall₂ (fun piece block => read piece = .ok block) pieces blocks ∧
      memory.Grants growth array.capacity array.items.length (blocks.map List.length) ∧
      result = blocks.foldl (Grown.append growth) array := by
  induction pieces generalizing array with
  | nil =>
    constructor
    · rintro ⟨⟩
      exact ⟨[], .nil, grants_nil, rfl⟩
    · rintro ⟨_, ⟨⟩, -, rfl⟩
      rfl
  | cons piece rest ih =>
    rw [List.foldlM_cons, bind_eq_ok]
    constructor
    · rintro ⟨next, taken, folded⟩
      obtain ⟨block, here, granted, rfl⟩ := take_eq_ok.mp taken
      obtain ⟨blocks, later, grants, same⟩ := ih.mp folded
      rw [Grown.length_append, Grown.capacity_append] at grants
      exact ⟨block :: blocks, .cons here later, grants_cons.mpr ⟨granted, grants⟩, same⟩
    · rintro ⟨_, ⟨⟩, grants, same⟩
      next block blocks here later =>
      obtain ⟨granted, grants⟩ := grants_cons.mp grants
      refine ⟨array.append growth block, take_eq_ok.mpr ⟨block, here, granted, rfl⟩,
        ih.mpr ⟨blocks, later, ?_, same⟩⟩
      rwa [Grown.length_append, Grown.capacity_append]

theorem foldlM_take_items {items : List α} :
    (pieces.foldlM (Grown.take growth memory wrap read) .empty).map Grown.items = .ok items ↔
      ∃ blocks, List.Forall₂ (fun piece block => read piece = .ok block) pieces blocks ∧
        memory.Grants growth 0 0 (blocks.map List.length) ∧ blocks.flatten = items := by
  have collected (blocks : List (List α)) :
      (blocks.foldl (Grown.append growth) Grown.empty).items = blocks.flatten :=
    Grown.foldl_items blocks
  simp only [map_eq_ok, foldlM_take]
  constructor
  · rintro ⟨_, ⟨blocks, each, grants, rfl⟩, same⟩
    exact ⟨blocks, each, grants, (collected blocks).symm.trans same⟩
  · rintro ⟨blocks, each, grants, same⟩
    exact ⟨_, ⟨blocks, each, grants, rfl⟩, (collected blocks).trans same⟩

/-- Where every piece is read, only memory can stop the loop. -/
theorem foldlM_take_error {blocks : List (List α)} {error : ε}
    (each : List.Forall₂ (fun piece block => read piece = .ok block) pieces blocks)
    (stopped : pieces.foldlM (Grown.take growth memory wrap read) array = .error error) :
    ∃ cause, error = wrap cause := by
  induction each generalizing array with
  | nil => contradiction
  | @cons piece block rest blocks here _ ih =>
    rw [List.foldlM_cons, bind_eq_error] at stopped
    rcases stopped with stopped | ⟨next, _, stopped⟩
    · rw [Grown.take, here] at stopped
      change (array.extend growth memory block).mapError wrap = _ at stopped
      cases met : array.extend growth memory block with
      | ok result =>
        rw [met] at stopped
        contradiction
      | error cause =>
        rw [met] at stopped
        exact ⟨cause, (Except.error.inj stopped).symm⟩
    · exact ih stopped

end Loop

end TradingPipeline.Foundation
