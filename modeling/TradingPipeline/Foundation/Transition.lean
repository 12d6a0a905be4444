import Mathlib.Logic.Relation
import Mathlib.Algebra.Order.Ring.Nat
import Mathlib.Data.List.Basic

/-! Executable transition systems that report events.

A step is a function of the state and of an action, so a schedule is a list of
actions and a run can be evaluated. What an observer may rely on is the history:
the events of all steps taken, in order.
-/

set_option autoImplicit false

namespace TradingPipeline.Foundation

universe u v w

/-- `step state action` is `none` when the action is not enabled. -/
structure System (S : Type u) (A : Type v) (E : Type w) where
  start : S
  step : S → A → Option (S × List E)

namespace System

variable {S : Type u} {A : Type v} {E : Type w} {M : System S A E}

/-- Perform the scheduled actions in order; a disabled action refuses the schedule. -/
def runFrom (M : System S A E) : S → List A → Option (S × List E)
  | state, [] => some (state, [])
  | state, action :: rest =>
    match M.step state action with
    | none => none
    | some (next, events) =>
      match runFrom M next rest with
      | none => none
      | some (final, later) => some (final, events ++ later)

def run (M : System S A E) (schedule : List A) : Option (S × List E) :=
  M.runFrom M.start schedule

/-- Every action of the schedule is allowed in the state it is taken from. -/
def AllowedAlong (M : System S A E) (allowed : S → A → Prop) : S → List A → Prop
  | _, [] => True
  | state, action :: rest => allowed state action ∧
      ∀ result ∈ M.step state action, AllowedAlong M allowed result.1 rest

instance AllowedAlong.decidable (M : System S A E) (allowed : S → A → Prop)
    [∀ state action, Decidable (allowed state action)] :
    (state : S) → (schedule : List A) → Decidable (M.AllowedAlong allowed state schedule)
  | _, [] => inferInstanceAs (Decidable True)
  | state, action :: rest =>
    have : DecidablePred fun result : S × List E => M.AllowedAlong allowed result.1 rest :=
      fun result => AllowedAlong.decidable M allowed result.1 rest
    inferInstanceAs (Decidable (allowed state action ∧
      ∀ result, result ∈ M.step state action → M.AllowedAlong allowed result.1 rest))

/-- The states reached by allowed actions, each with the history that led to it. -/
inductive Reach (M : System S A E) (allowed : S → A → Prop) : S → List E → Prop where
  | start : Reach M allowed M.start []
  | next {state after : S} {history events : List E} {action : A} :
      Reach M allowed state history → allowed state action →
      M.step state action = some (after, events) → Reach M allowed after (history ++ events)

abbrev Reachable (M : System S A E) : S → List E → Prop := M.Reach fun _ _ => True

/-- Some schedule of allowed actions leads from one state to the other. -/
def Leads (M : System S A E) (allowed : S → A → Prop) : S → S → Prop :=
  Relation.ReflTransGen fun state after =>
    ∃ action events, allowed state action ∧ M.step state action = some (after, events)

theorem runFrom_cons {state next final : S} {action : A} {rest : List A} {events later : List E}
    (first : M.step state action = some (next, events))
    (tail : M.runFrom next rest = some (final, later)) :
    M.runFrom state (action :: rest) = some (final, events ++ later) := by
  simp only [runFrom, first, tail]

theorem runFrom_one {state next : S} {action : A} {events : List E}
    (step : M.step state action = some (next, events)) :
    M.runFrom state [action] = some (next, events) := by
  simp only [runFrom, step, List.append_nil]

theorem runFrom_cons_inv {state final : S} {action : A} {rest : List A} {history : List E}
    (run : M.runFrom state (action :: rest) = some (final, history)) :
    ∃ next events later, M.step state action = some (next, events) ∧
      M.runFrom next rest = some (final, later) ∧ history = events ++ later := by
  simp only [runFrom] at run
  split at run
  · contradiction
  · next next events step =>
    split at run
    · contradiction
    · next last later inner =>
      simp only [Option.some.injEq, Prod.mk.injEq] at run
      obtain ⟨rfl, rfl⟩ := run
      exact ⟨next, events, later, step, inner, rfl⟩

theorem runFrom_nil_inv {state final : S} {history : List E}
    (run : M.runFrom state [] = some (final, history)) : final = state ∧ history = [] := by
  simp only [runFrom, Option.some.injEq, Prod.mk.injEq] at run
  exact ⟨run.1.symm, run.2.symm⟩

theorem runFrom_append {state middle final : S} {first second : List A} {before after : List E}
    (head : M.runFrom state first = some (middle, before))
    (tail : M.runFrom middle second = some (final, after)) :
    M.runFrom state (first ++ second) = some (final, before ++ after) := by
  induction first generalizing state before with
  | nil =>
    obtain ⟨rfl, rfl⟩ := runFrom_nil_inv head
    exact tail
  | cons action rest ih =>
    obtain ⟨next, events, later, step, inner, rfl⟩ := runFrom_cons_inv head
    rw [List.cons_append, List.append_assoc]
    exact runFrom_cons step (ih inner)

theorem Reach.mono {allowed wider : S → A → Prop} {state : S} {history : List E}
    (reach : M.Reach allowed state history)
    (implies : ∀ state action, allowed state action → wider state action) :
    M.Reach wider state history := by
  induction reach with
  | start => exact .start
  | next _ ok step ih => exact .next ih (implies _ _ ok) step

theorem Reach.reachable {allowed : S → A → Prop} {state : S} {history : List E}
    (reach : M.Reach allowed state history) : M.Reachable state history :=
  reach.mono fun _ _ _ => trivial

theorem Reach.extend {allowed : S → A → Prop} {state final : S} {history later : List E}
    {schedule : List A} (reach : M.Reach allowed state history)
    (along : M.AllowedAlong allowed state schedule)
    (run : M.runFrom state schedule = some (final, later)) :
    M.Reach allowed final (history ++ later) := by
  induction schedule generalizing state history later with
  | nil =>
    obtain ⟨rfl, rfl⟩ := runFrom_nil_inv run
    simpa using reach
  | cons action rest ih =>
    obtain ⟨next, events, more, step, inner, rfl⟩ := runFrom_cons_inv run
    rw [← List.append_assoc]
    exact ih (.next reach along.1 step) (along.2 _ step) inner

theorem allowedAlong_of_forall {allowed : S → A → Prop} {schedule : List A}
    (each : ∀ action ∈ schedule, ∀ state, allowed state action) (state : S) :
    M.AllowedAlong allowed state schedule := by
  induction schedule generalizing state with
  | nil => trivial
  | cons action rest ih =>
    exact ⟨each action List.mem_cons_self state, fun result _ =>
      ih (fun later member => each later (List.mem_cons_of_mem action member)) result.1⟩

theorem allowedAlong_true (M : System S A E) (state : S) (schedule : List A) :
    M.AllowedAlong (fun _ _ => True) state schedule :=
  allowedAlong_of_forall (fun _ _ _ => trivial) state

theorem Reach.of_run {allowed : S → A → Prop} {schedule : List A} {state : S}
    {history : List E} (along : M.AllowedAlong allowed M.start schedule)
    (run : M.run schedule = some (state, history)) : M.Reach allowed state history :=
  Reach.start.extend along run

/-- A schedule that can be evaluated shows that a state of its kind is reached. -/
theorem exists_reach_of_run (M : System S A E) (allowed : S → A → Prop) (schedule : List A)
    (check : S × List E → Bool) (along : M.AllowedAlong allowed M.start schedule)
    (checked : (M.run schedule).any check = true) :
    ∃ state history, M.Reach allowed state history ∧ check (state, history) = true := by
  obtain ⟨⟨state, history⟩, run, holds⟩ := (Option.any_eq_true _ _).mp checked
  exact ⟨state, history, .of_run along run, holds⟩

theorem exists_run_of_reachable {state : S} {history : List E}
    (reach : M.Reachable state history) :
    ∃ schedule, M.run schedule = some (state, history) := by
  induction reach with
  | start => exact ⟨[], rfl⟩
  | @next state after history events action _ _ step ih =>
    obtain ⟨schedule, run⟩ := ih
    exact ⟨schedule ++ [action], runFrom_append run (runFrom_one step)⟩

/-- The invariant rule: what holds at the start and survives every allowed step
holds of every state reached, together with its history. -/
theorem Reach.invariant {allowed : S → A → Prop} {state : S} {history : List E}
    (holds : S → List E → Prop) (initial : holds M.start [])
    (preserved : ∀ {state history action after events}, M.Reach allowed state history →
      holds state history → allowed state action →
      M.step state action = some (after, events) → holds after (history ++ events))
    (reach : M.Reach allowed state history) : holds state history := by
  induction reach with
  | start => exact initial
  | next reach ok step ih => exact preserved reach ih ok step

/-- The same rule along one run: what every step keeps holds at its end, and its history
shows only what the steps may show. -/
theorem invariant_of_run (holds : S → Prop) (shows : E → Prop)
    (preserved : ∀ {state action after events}, holds state →
      M.step state action = some (after, events) → holds after ∧ ∀ event ∈ events, shows event)
    {state final : S} {schedule : List A} {history : List E} (initial : holds state)
    (run : M.runFrom state schedule = some (final, history)) :
    holds final ∧ ∀ event ∈ history, shows event := by
  induction schedule generalizing state history with
  | nil =>
    obtain ⟨rfl, rfl⟩ := runFrom_nil_inv run
    exact ⟨initial, fun _ member => absurd member List.not_mem_nil⟩
  | cons action rest ih =>
    obtain ⟨next, events, later, step, inner, rfl⟩ := runFrom_cons_inv run
    obtain ⟨kept, here⟩ := preserved initial step
    obtain ⟨last, there⟩ := ih kept inner
    refine ⟨last, fun event member => ?_⟩
    rcases List.mem_append.mp member with member | member
    · exact here event member
    · exact there event member

theorem Leads.mono {allowed wider : S → A → Prop} {state after : S}
    (leads : M.Leads allowed state after)
    (implies : ∀ state action, allowed state action → wider state action) :
    M.Leads wider state after := by
  induction leads with
  | refl => exact .refl
  | tail _ step ih =>
    obtain ⟨action, events, ok, taken⟩ := step
    exact ih.tail ⟨action, events, implies _ _ ok, taken⟩

section Simulation

variable {T : Type u} {B : Type v} {F : Type w} {N : System T B F}

/-- Forward simulation: when each allowed step of `M` is answered by a run of `N` that
reports the same view, every history of `M` is seen as a history of `N`. -/
theorem Reach.simulate {allowed : S → A → Prop} {state : S} {history : List E}
    (related : S → T → Prop) (view : E → List F) (initial : related M.start N.start)
    (answer : ∀ {state action after events abstract}, allowed state action →
      M.step state action = some (after, events) → related state abstract →
      ∃ schedule next, N.runFrom abstract schedule = some (next, events.flatMap view) ∧
        related after next)
    (reach : M.Reach allowed state history) :
    ∃ abstract, N.Reachable abstract (history.flatMap view) ∧ related state abstract := by
  induction reach with
  | start => exact ⟨N.start, .start, initial⟩
  | next _ ok step ih =>
    obtain ⟨abstract, seen, relates⟩ := ih
    obtain ⟨schedule, next, run, relates⟩ := answer ok step relates
    rw [List.flatMap_append]
    exact ⟨next, seen.extend (N.allowedAlong_true _ _) run, relates⟩

/-- Two systems whose steps agree on what the one's states mean have the same runs. -/
theorem runFrom_view {N : System T A E} (view : S → T) (keeps : T → Prop)
    (agree : ∀ {state} action, keeps (view state) →
      (M.step state action).map (Prod.map view id) = N.step (view state) action)
    (stable : ∀ {state action after events}, keeps state →
      N.step state action = some (after, events) → keeps after)
    {state : S} (holds : keeps (view state)) (schedule : List A) :
    (M.runFrom state schedule).map (Prod.map view id) = N.runFrom (view state) schedule := by
  induction schedule generalizing state with
  | nil => rfl
  | cons action rest ih =>
    have same := agree action holds
    unfold runFrom
    cases taken : M.step state action with
    | none =>
      rw [taken, Option.map_none] at same
      rw [← same, Option.map_none]
    | some result =>
      obtain ⟨next, events⟩ := result
      rw [taken, Option.map_some, Prod.map_apply, id_eq] at same
      have later := ih (stable holds same.symm)
      rw [← same]
      simp only [← later]
      cases M.runFrom next rest <;> rfl

end Simulation

section Components

variable {T : Type u} {B : Type v} {F : Type w} {N : System T B F}

/-- A component: where each allowed step of `M` is, on one part of the state, no step at all or
an allowed step of `N`, that part is reached by `N` with its view of the history. -/
theorem Reach.project {allowed : S → A → Prop} {permitted : T → B → Prop} {state : S}
    {history : List E} (part : S → T) (view : E → List F) (initial : part M.start = N.start)
    (answer : ∀ {state action after events}, allowed state action →
      M.step state action = some (after, events) →
      part after = part state ∧ events.flatMap view = [] ∨
      ∃ own, permitted (part state) own ∧
        N.step (part state) own = some (part after, events.flatMap view))
    (reach : M.Reach allowed state history) :
    N.Reach permitted (part state) (history.flatMap view) := by
  induction reach with
  | start => exact initial ▸ .start
  | next _ ok step ih =>
    rw [List.flatMap_append]
    rcases answer ok step with ⟨same, nothing⟩ | ⟨own, permits, taken⟩
    · rw [same, nothing, List.append_nil]
      exact ih
    · exact ih.next permits taken

end Components

section Termination

/-- A step that always lowers the measure cannot be taken for ever: from any state some
state is led to in which no allowed action is enabled. -/
theorem exists_quiescent (allowed : S → A → Prop) (measure : S → Nat) (keeps : S → Prop)
    (stable : ∀ {state action after events}, keeps state → allowed state action →
      M.step state action = some (after, events) → keeps after ∧ measure after < measure state)
    (state : S) (holds : keeps state) :
    ∃ final, M.Leads allowed state final ∧ keeps final ∧
      ∀ action, allowed final action → M.step final action = none := by
  by_cases quiet : ∀ action, allowed state action → M.step state action = none
  · exact ⟨state, Relation.ReflTransGen.refl, holds, quiet⟩
  · simp only [not_forall] at quiet
    obtain ⟨action, ok, enabled⟩ := quiet
    obtain ⟨⟨after, events⟩, step⟩ := Option.ne_none_iff_exists'.mp enabled
    obtain ⟨kept, lower⟩ := stable holds ok step
    obtain ⟨final, leads, holds, quiet⟩ := exists_quiescent allowed measure keeps stable after kept
    exact ⟨final, leads.head ⟨action, events, ok, step⟩, holds, quiet⟩
termination_by measure state

theorem countP_le_of_run (measure : S → Nat) (keeps : S → Prop) (counted : A → Bool)
    (lowers : ∀ {state action after events}, keeps state →
      M.step state action = some (after, events) →
      keeps after ∧ measure after + (if counted action then 1 else 0) ≤ measure state)
    {state final : S} {schedule : List A} {events : List E} (holds : keeps state)
    (run : M.runFrom state schedule = some (final, events)) :
    schedule.countP counted ≤ measure state := by
  induction schedule generalizing state events with
  | nil => exact Nat.zero_le _
  | cons action rest ih =>
    obtain ⟨next, _, _, step, inner, _⟩ := runFrom_cons_inv run
    obtain ⟨kept, lower⟩ := lowers holds step
    have tail := ih kept inner
    rw [List.countP_cons]
    omega

/-- Bounded progress: where each counted step ends what is under way or lowers the measure, and no
other step raises it, a run that has not ended it has counted no more than the measure. -/
theorem ends_of_run (going : S → Prop) (measure : S → Nat) (ends : E → Prop) (counted : A → Bool)
    (kind : A → Prop)
    (progress : ∀ {state action after events}, going state → kind action →
      M.step state action = some (after, events) → (∃ event ∈ events, ends event) ∨
        going after ∧ measure after + (if counted action then 1 else 0) ≤ measure state)
    {state final : S} {schedule : List A} {history : List E} (initial : going state)
    (each : ∀ action ∈ schedule, kind action)
    (run : M.runFrom state schedule = some (final, history)) :
    (∃ event ∈ history, ends event) ∨
      going final ∧ measure final + schedule.countP counted ≤ measure state := by
  induction schedule generalizing state history with
  | nil =>
    obtain ⟨rfl, rfl⟩ := runFrom_nil_inv run
    exact .inr ⟨initial, Nat.le_refl _⟩
  | cons action rest ih =>
    obtain ⟨next, events, later, step, inner, rfl⟩ := runFrom_cons_inv run
    rcases progress initial (each action List.mem_cons_self) step with
      ⟨event, member, is⟩ | ⟨goes, lower⟩
    · exact .inl ⟨event, List.mem_append_left _ member, is⟩
    · rcases ih goes (fun more mem => each more (List.mem_cons_of_mem _ mem)) inner with
        ⟨event, member, is⟩ | ⟨last, bound⟩
      · exact .inl ⟨event, List.mem_append_right _ member, is⟩
      · rw [List.countP_cons]
        exact .inr ⟨last, by omega⟩

theorem length_le_of_run (measure : S → Nat) (keeps : S → Prop) (kind : A → Prop)
    (lowers : ∀ {state action after events}, keeps state → kind action →
      M.step state action = some (after, events) → keeps after ∧ measure after < measure state)
    {state final : S} {schedule : List A} {events : List E} (holds : keeps state)
    (each : ∀ action ∈ schedule, kind action)
    (run : M.runFrom state schedule = some (final, events)) :
    keeps final ∧ measure final + schedule.length ≤ measure state := by
  induction schedule generalizing state events with
  | nil =>
    obtain ⟨rfl, rfl⟩ := runFrom_nil_inv run
    exact ⟨holds, Nat.le_refl _⟩
  | cons action rest ih =>
    obtain ⟨next, _, _, step, inner, _⟩ := runFrom_cons_inv run
    obtain ⟨kept, lower⟩ := lowers holds (each action List.mem_cons_self) step
    obtain ⟨last, bound⟩ := ih kept (fun later mem => each later (List.mem_cons_of_mem _ mem)) inner
    rw [List.length_cons]
    exact ⟨last, by omega⟩

theorem exists_run_of_endless (keeps : S → Prop) (action : A)
    (again : ∀ {state}, keeps state →
      ∃ after events, M.step state action = some (after, events) ∧ keeps after)
    {state : S} (holds : keeps state) (length : Nat) :
    ∃ final events, M.runFrom state (List.replicate length action) = some (final, events) := by
  induction length generalizing state with
  | zero => exact ⟨state, [], rfl⟩
  | succ length ih =>
    obtain ⟨after, events, step, kept⟩ := again holds
    obtain ⟨final, later, run⟩ := ih kept
    exact ⟨final, events ++ later, runFrom_cons step run⟩

end Termination

end System
end TradingPipeline.Foundation
