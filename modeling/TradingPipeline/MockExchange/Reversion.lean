import Mathlib.Data.List.Chain
import TradingPipeline.MockExchange.Pacing

/-! Mean reversion keeps the quotes of every symbol sane.

The mid price of a symbol takes a walk of its own, whatever the loop does in between.
-/

set_option autoImplicit false

namespace TradingPipeline.MockExchange

open Foundation Shmbus

variable {K : Type} [Field K] [LinearOrder K]

/-- The mid prices that a symbol takes step by step, with any draws. -/
inductive Walk (origin : SymState K) : SymState K → List K → Prop where
  | start : Walk origin origin []
  | step {sym : SymState K} {mids : List K} (walk : Walk origin sym mids) (draw : Draw K) :
      Walk origin (sym.next draw) (mids ++ [(sym.next draw).mid])

namespace Walk

variable {origin sym : SymState K} {mids : List K}

theorem anchor_eq (walk : Walk origin sym mids) : sym.anchor = origin.anchor := by
  induction walk with
  | start => rfl
  | step _ _ ih => exact ih

theorem getLast (walk : Walk origin sym mids) : (origin.mid :: mids).getLast? = some sym.mid := by
  cases walk with
  | start => rfl
  | step => rw [← List.cons_append, List.getLast?_concat]

variable [IsStrictOrderedRing K]

theorem near (walk : Walk origin sym mids) (initial : origin.Near) : sym.Near := by
  induction walk with
  | start => exact initial
  | step _ draw ih => exact ih.next draw

theorem all_near (walk : Walk origin sym mids) (initial : origin.Near) :
    ∀ mid ∈ mids, |mid - origin.anchor.value| ≤ 25 := by
  induction walk with
  | start => exact fun _ mem => absurd mem List.not_mem_nil
  | @step sym mids walk draw ih =>
    intro mid mem
    rcases List.mem_append.mp mem with earlier | last
    · exact ih mid earlier
    · rw [List.mem_singleton.mp last, ← walk.anchor_eq]
      exact (walk.near initial).next draw

theorem small_steps (walk : Walk origin sym mids) (initial : origin.Near) :
    (origin.mid :: mids).IsChain fun before after => |after - before| ≤ 1 / 20 := by
  induction walk with
  | start => exact List.isChain_singleton _
  | @step sym mids walk draw ih =>
    rw [← List.cons_append]
    refine List.isChain_append.mpr ⟨ih, List.isChain_singleton _, ?_⟩
    intro before last after head
    -- the price before the step is the last one of the walk so far
    rw [walk.getLast, Option.mem_some_iff] at last
    rw [List.head?_cons, Option.mem_some_iff] at head
    rw [← last, ← head]
    exact (walk.near initial).step_le draw

end Walk

section Mids

variable {K : Type}

/-- The mid prices at which ticks are sent for the symbol with this index. -/
def sentMids (idx : Nat) (history : List (ExchangeEvent K)) : List K :=
  history.filterMap fun
    | .started _ => none
    | .sent other mid _ => if other = idx then some mid else none

theorem sentMids_append (idx : Nat) (history events : List (ExchangeEvent K)) :
    sentMids idx (history ++ events) = sentMids idx history ++ sentMids idx events :=
  List.filterMap_append

theorem sentMids_same (idx : Nat) (mid : K) (tick : MarketTick) :
    sentMids idx [.sent idx mid tick] = [mid] := by
  simp [sentMids]

theorem sentMids_other {idx other : Nat} (ne : other ≠ idx) (mid : K) (tick : MarketTick) :
    sentMids idx [.sent other mid tick] = [] := by
  simp [sentMids, ne]

end Mids

section Runs

variable [IsStrictOrderedRing K] {setup : Setup K} {state after : Exchange K}
  {history events : List (ExchangeEvent K)}

theorem near_of_symStates {idx : Nat} {origin : SymState K}
    (listed : setup.symStates[idx]? = some origin) : origin.Near := by
  rw [Setup.symStates, List.getElem?_mapIdx, Option.map_eq_some_iff] at listed
  obtain ⟨name, -, rfl⟩ := listed
  exact near_new name _

variable [FloorRing K]

/-- Every symbol is on its walk, and each tick shows its mid price as a quote. -/
structure Walking (setup : Setup K) (state : Exchange K) (history : List (ExchangeEvent K)) :
    Prop where
  walks : ∀ idx origin, setup.symStates[idx]? = some origin →
    ∃ sym, state.symbols[idx]? = some sym ∧ Walk origin sym (sentMids idx history)
  length : state.symbols.length = setup.symStates.length
  quoted : ∀ idx mid tick, .sent idx mid tick ∈ history → Quoted mid tick

theorem Walking.near (walking : Walking setup state history) {idx : Nat} {sym : SymState K}
    (here : state.symbols[idx]? = some sym) : sym.Near := by
  have inside : idx < setup.symStates.length :=
    walking.length ▸ (List.getElem?_eq_some_iff.mp here).1
  obtain ⟨same, found, walk⟩ := walking.walks idx _ (List.getElem?_eq_getElem inside)
  rw [here, Option.some.injEq] at found
  rw [found]
  exact walk.near (near_of_symStates (List.getElem?_eq_getElem inside))

theorem Walking.quiet (walking : Walking setup state history) (same : after.symbols = state.symbols)
    (silent : ∀ idx mid tick, .sent idx mid tick ∉ events) :
    Walking setup after (history ++ events) := by
  have nothing (idx : Nat) : sentMids idx events = [] := by
    refine List.filterMap_eq_nil_iff.mpr fun event mem => ?_
    cases event with
    | started => rfl
    | sent other mid tick => exact absurd mem (silent other mid tick)
  refine ⟨fun idx origin listed => ?_, same ▸ walking.length, fun idx mid tick mem => ?_⟩
  · rw [same, sentMids_append, nothing idx, List.append_nil]
    exact walking.walks idx origin listed
  · rcases List.mem_append.mp mem with earlier | here
    · exact walking.quoted idx mid tick earlier
    · exact absurd here (silent idx mid tick)

theorem Walking.step (walking : Walking setup state history)
    (stepped : ExchangeStepped setup state after events) :
    Walking setup after (history ++ events) := by
  cases stepped with
  | elapse | interrupt | move | advance | resync =>
    exact walking.quiet rfl fun _ _ _ => List.not_mem_nil
  | round => exact walking.quiet rfl (by simp)
  | @publish idx sym at' here draw ts bidSz askSz =>
    refine ⟨fun other origin listed => ?_, ?_, fun other mid tick mem => ?_⟩
    · obtain ⟨old, found, walk⟩ := walking.walks other origin listed
      rw [sentMids_append]
      by_cases same : idx = other
      · subst same
        rw [here, Option.some.injEq] at found
        subst found
        have inside := (List.getElem?_eq_some_iff.mp here).1
        rw [sentMids_same]
        exact ⟨_, List.getElem?_set_self inside, walk.step draw⟩
      · rw [sentMids_other same, List.append_nil]
        exact ⟨old, (List.getElem?_set_ne same).trans found, walk⟩
    · exact (List.length_set ..).trans walking.length
    · rcases List.mem_append.mp mem with earlier | last
      · exact walking.quoted other mid tick earlier
      · cases List.mem_singleton.mp last
        exact ((walking.near here).next draw).quoted _ _ _ _

theorem walking_start (setup : Setup K) : Walking setup (exchange setup).start [] where
  walks _ origin listed := ⟨origin, listed, .start⟩
  length := rfl
  quoted _ _ _ mem := absurd mem List.not_mem_nil

theorem walking_of_reachable (reach : (exchange setup).Reachable state history) :
    Walking setup state history := by
  refine reach.invariant (Walking setup) (walking_start setup) ?_
  intro state history action after events _ walking _ step
  exact walking.step (exchangeStep_inv step)

/-- Any anchor can be drawn, and whatever is drawn: the mid price of each symbol stays within 25
of its anchor, so that the floor takes no effect in any step, it moves by at most 0.05 from one
tick to the next, and each tick is a quote of its mid price. -/
theorem quotes_sane (reach : (exchange setup).Reachable state history) :
    (∀ anchor : Anchor K, ∃ draw, Anchor.drawn draw = anchor) ∧
    (∀ idx mid tick, .sent idx mid tick ∈ history → Quoted mid tick) ∧
    ∀ idx origin, setup.symStates[idx]? = some origin →
      origin.mid = origin.anchor.value ∧
      (∀ mid ∈ sentMids idx history, |mid - origin.anchor.value| ≤ 25) ∧
      ((origin.mid :: sentMids idx history).IsChain fun before after =>
        |after - before| ≤ 1 / 20) ∧
      ∃ sym, state.symbols[idx]? = some sym ∧ sym.anchor = origin.anchor ∧
        |sym.mid - origin.anchor.value| ≤ 25 ∧ ∀ draw, 1 / 100 < sym.moved draw := by
  have walking := walking_of_reachable reach
  refine ⟨Anchor.exists_drawn, walking.quoted, fun idx origin listed => ?_⟩
  obtain ⟨sym, here, walk⟩ := walking.walks idx origin listed
  have initial := near_of_symStates listed
  have near := walk.near initial
  refine ⟨?_, walk.all_near initial, walk.small_steps initial, sym, here, walk.anchor_eq, ?_,
    near.floor_lt⟩
  · rw [Setup.symStates, List.getElem?_mapIdx, Option.map_eq_some_iff] at listed
    obtain ⟨name, -, rfl⟩ := listed
    rfl
  · rw [← walk.anchor_eq]
    exact near

/-- The first tick of a symbol whose anchor is 50, with the lowest jitter. -/
theorem quotes_sane_once : ∃ (state : Exchange ℚ) (history : List (ExchangeEvent ℚ)),
    sentMids 0 history = [1999 / 40] ∧
    (∀ anchor : Anchor ℚ, ∃ draw, Anchor.drawn draw = anchor) ∧
    (∀ idx mid tick, .sent idx mid tick ∈ history → Quoted mid tick) ∧
    ∀ idx origin, quietSetup.symStates[idx]? = some origin →
      origin.mid = origin.anchor.value ∧
      (∀ mid ∈ sentMids idx history, |mid - origin.anchor.value| ≤ 25) ∧
      ((origin.mid :: sentMids idx history).IsChain fun before after =>
        |after - before| ≤ 1 / 20) ∧
      ∃ sym, state.symbols[idx]? = some sym ∧ sym.anchor = origin.anchor ∧
        |sym.mid - origin.anchor.value| ≤ 25 ∧ ∀ draw, 1 / 100 < sym.moved draw := by
  obtain ⟨state, history, reach, checked⟩ := (exchange quietSetup).exists_reach_of_run
    (fun _ _ => True) twoRounds (fun result => sentMids 0 result.2 = [1999 / 40])
    (System.allowedAlong_true _ _ _) (by decide +kernel)
  exact ⟨state, history, of_decide_eq_true checked, quotes_sane reach⟩

end Runs

end TradingPipeline.MockExchange
