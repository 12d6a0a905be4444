import Mathlib.Data.List.Basic
import Mathlib.Logic.Function.Basic

/-! Machines that answer each input with at most one output.

A keyed machine keeps one local state for each key. What it answers for a key depends on
the inputs with that key alone, so the machine may be split among several copies of itself
by any routing of the keys.
-/

set_option autoImplicit false

namespace TradingPipeline.Foundation

universe u v w x

structure Transducer (S : Type u) (I : Type v) (O : Type w) where
  step : S → I → S × Option O

namespace Transducer

variable {S : Type u} {I : Type v} {O : Type w} (machine : Transducer S I O)

/-- The state after the inputs. -/
def after (state : S) (inputs : List I) : S :=
  inputs.foldl (fun state input => (machine.step state input).1) state

/-- The answers to the inputs, in order. -/
def outputs : S → List I → List O
  | _, [] => []
  | state, input :: rest =>
    (machine.step state input).2.toList ++ outputs (machine.step state input).1 rest

theorem after_cons (state : S) (input : I) (rest : List I) :
    machine.after state (input :: rest) = machine.after (machine.step state input).1 rest := rfl

theorem after_append (state : S) (first second : List I) :
    machine.after state (first ++ second) = machine.after (machine.after state first) second := by
  simp only [after, List.foldl_append]

theorem outputs_append (state : S) (first second : List I) :
    machine.outputs state (first ++ second) =
      machine.outputs state first ++ machine.outputs (machine.after state first) second := by
  induction first generalizing state with
  | nil => rfl
  | cons input rest ih =>
    simp only [List.cons_append, outputs, ih, List.append_assoc]
    rfl

theorem outputs_mono (state : S) {shorter longer : List I} (begins : shorter <+: longer) :
    machine.outputs state shorter <+: machine.outputs state longer := by
  obtain ⟨more, rfl⟩ := begins
  rw [outputs_append]
  exact List.prefix_append _ _

theorem mem_outputs {state : S} {inputs : List I} {output : O}
    (member : output ∈ machine.outputs state inputs) :
    ∃ earlier input, earlier ++ [input] <+: inputs ∧
      (machine.step (machine.after state earlier) input).2 = some output := by
  induction inputs generalizing state with
  | nil => exact absurd member List.not_mem_nil
  | cons first rest ih =>
    rcases List.mem_append.mp member with answer | later
    · exact ⟨[], first, ⟨rest, rfl⟩, Option.mem_toList.mp answer⟩
    · obtain ⟨earlier, input, begins, answer⟩ := ih later
      exact ⟨first :: earlier, input, List.cons_prefix_cons.mpr ⟨rfl, begins⟩, answer⟩

/-- What holds of each input and of the state that it is met in. -/
def Along (holds : S → I → Prop) : S → List I → Prop
  | _, [] => True
  | state, input :: rest => holds state input ∧ Along holds (machine.step state input).1 rest

instance Along.decidable (holds : S → I → Prop) [∀ state input, Decidable (holds state input)] :
    (state : S) → (inputs : List I) → Decidable (machine.Along holds state inputs)
  | _, [] => inferInstanceAs (Decidable True)
  | state, input :: rest =>
    have := Along.decidable holds (machine.step state input).1 rest
    inferInstanceAs (Decidable (holds state input ∧
      machine.Along holds (machine.step state input).1 rest))

variable {machine} in
theorem Along.imp {holds implied : S → I → Prop} (invariant : S → Prop)
    (stable : ∀ state input, invariant state → invariant (machine.step state input).1)
    (implies : ∀ state input, invariant state → holds state input → implied state input)
    {state : S} {inputs : List I} (initial : invariant state)
    (along : machine.Along holds state inputs) : machine.Along implied state inputs := by
  induction inputs generalizing state with
  | nil => trivial
  | cons input rest ih =>
    exact ⟨implies state input initial along.1, ih (stable state input initial) along.2⟩

section Images

variable {T : Type x} {P : Type w} {coarse : Transducer T I P}

/-- A machine that forgets part of the state and of the answers answers the images. -/
theorem outputs_image (view : S → T) (show' : O → P)
    (commutes : ∀ state input, coarse.step (view state) input =
      (view (machine.step state input).1, (machine.step state input).2.map show'))
    (state : S) (inputs : List I) :
    coarse.outputs (view state) inputs = (machine.outputs state inputs).map show' := by
  induction inputs generalizing state with
  | nil => rfl
  | cons input rest ih =>
    simp only [outputs, commutes, ih, List.map_append]
    cases (machine.step state input).2 <;> rfl

end Images

section Keyed

variable {K : Type x} [DecidableEq K]

/-- One local state for each key. -/
def keyed (key : I → K) : Transducer (K → S) I O where
  step states input :=
    let (next, answer) := machine.step (states (key input)) input
    (Function.update states (key input) next, answer)

/-- The answers for one key are those to the inputs with that key. -/
theorem keyed_outputs (key : I → K) (about : O → K)
    (labels : ∀ state input answer, (machine.step state input).2 = some answer →
      about answer = key input)
    (states : K → S) (inputs : List I) (focus : K) :
    ((machine.keyed key).outputs states inputs).filter (about · = focus) =
      machine.outputs (states focus) (inputs.filter (key · = focus)) := by
  induction inputs generalizing states with
  | nil => rfl
  | cons input rest ih =>
    have answers : ∀ answer ∈ (machine.step (states (key input)) input).2.toList,
        about answer = key input := fun answer member =>
      labels _ _ answer (Option.mem_toList.mp member)
    -- an answer has the key of its input, so the filter keeps all of it or nothing
    by_cases here : key input = focus
    · subst here
      have all : (machine.step (states (key input)) input).2.toList.filter
          (about · = key input) = (machine.step (states (key input)) input).2.toList :=
        List.filter_eq_self.mpr fun answer member => by simp [answers answer member]
      simp only [outputs, keyed, List.filter_append, List.filter_cons, decide_true, if_true] at ih ⊢
      rw [all, ih, Function.update_self]
    · have none : (machine.step (states (key input)) input).2.toList.filter
          (about · = focus) = [] :=
        List.filter_eq_nil_iff.mpr fun answer member => by simp [answers answer member, here]
      simp only [outputs, keyed, List.filter_append, List.filter_cons, here, decide_false,
        Bool.false_eq_true, if_false] at ih ⊢
      rw [none, ih, List.nil_append, Function.update_of_ne (Ne.symm here)]

end Keyed
end Transducer
end TradingPipeline.Foundation
