import TradingPipeline.Engine.Rounds
import TradingPipeline.Foundation.Cursor

/-! The order ids of different workers.

A worker counts from `id << 32` and advances before it uses an id, so with 2^32 workers and
2^32 orders each the ids are exactly the numbers from 1 to 2^64. All are different as `u64`,
but the last of the last worker is stored as 0.
-/

set_option autoImplicit false

namespace TradingPipeline.Engine

open Foundation Shmbus EngineEvent

/-- The width that `id << 32` reserves for each worker. -/
def idWidth : Nat := 2 ^ 32

section Ids

variable {F : Type} {n : Nat}

theorem strategy_ids (args : StrategyArgs F) (symbols : SymbolMap F) (last : Nat)
    (ticks : List Observed) :
    ((strategy args).outputs (symbols, .ofNat last) ticks).map OrderMsg.orderId =
        (List.range' (last + 1)
          ((strategy args).outputs (symbols, .ofNat last) ticks).length).map UInt64.ofNat ∧
      ((strategy args).after (symbols, .ofNat last) ticks).2 =
        .ofNat (last + ((strategy args).outputs (symbols, .ofNat last) ticks).length) := by
  induction ticks generalizing symbols last with
  | nil => exact ⟨rfl, rfl⟩
  | cons seen rest ih =>
    rcases strategyStep_orderId args seen symbols (.ofNat last) with
      ⟨quiet, next⟩ | ⟨order, emits, id, _, next⟩
    · have step : (strategy args).step (symbols, .ofNat last) seen =
          (((strategyStep args seen symbols (.ofNat last)).symbols, .ofNat last), none) := by
        simp only [strategy, quiet, next]
      have tail := ih (strategyStep args seen symbols (.ofNat last)).symbols last
      simpa [Transducer.outputs, Transducer.after, step] using tail
    · rw [Cursor.ofNat_succ] at id next
      have step : (strategy args).step (symbols, .ofNat last) seen =
          (((strategyStep args seen symbols (.ofNat last)).symbols, .ofNat (last + 1)),
            some order) := by
        simp only [strategy, emits, next]
      have tail := ih (strategyStep args seen symbols (.ofNat last)).symbols (last + 1)
      simp only [Transducer.outputs, step, Option.toList_some, List.singleton_append, List.map_cons,
        List.length_cons, List.range'_succ, id, tail.1, true_and]
      have after : (strategy args).after (symbols, .ofNat last) (seen :: rest) =
          (strategy args).after ((strategyStep args seen symbols (.ofNat last)).symbols,
            .ofNat (last + 1)) rest := by
        simp only [Transducer.after, List.foldl_cons, step]
      rw [after, tail.2]
      congr 1
      omega

theorem workerStart_id (id : Nat) : UInt64.ofNat id <<< 32 = .ofNat (id * idWidth) := by
  apply UInt64.toNat_inj.mp
  have places : (32 : UInt64).toNat % 64 = 32 := rfl
  simp only [UInt64.toNat_shiftLeft, UInt64.toNat_ofNat', places, Nat.shiftLeft_eq, idWidth]
  omega

variable [NeZero n] {args : StrategyArgs F} {state : EngineState F n} {history : List (EngineEvent n)}

theorem worker_ids (known : Accounted args state history) (id : Fin n) :
    (lane id (emissions history)).map OrderMsg.orderId =
        (List.range' (id * idWidth + 1) (lane id (emissions history)).length).map UInt64.ofNat ∧
      (state.workers id).nextOrderId =
        .ofNat (id * idWidth + (lane id (emissions history)).length) := by
  obtain ⟨reached, answers⟩ := known.worked id
  have ids := strategy_ids args (fun _ => .default args) (id * idWidth)
    (lane id (handlings history))
  rw [← workerStart_id id] at ids
  rw [answers]
  exact ⟨ids.1, (congrArg Prod.snd reached).symm.trans ids.2⟩

theorem count_inj {first second : Nat} (firstPos : 0 < first) (firstLe : first ≤ 2 ^ 64)
    (secondPos : 0 < second) (secondLe : second ≤ 2 ^ 64)
    (same : UInt64.ofNat first = .ofNat second) : first = second := by
  rcases Nat.le_total first second with le | le
  · exact (Cursor.ofNat_inj first second le (by omega) same.symm).symm
  · exact Cursor.ofNat_inj second first le (by omega) same

/-- The range of a worker's ids stays below 2^64. -/
def BelowWrap (id : Fin n) (history : List (EngineEvent n)) : Prop :=
  id.val + 1 < idWidth ∨ (lane id (emissions history)).length < idWidth

/-- The order ids of a run in which no worker outgrows its width. -/
structure IdsUnique (state : EngineState F n) (history : List (EngineEvent n)) : Prop where
  unique : ((emissions history).map fun entry => entry.2.orderId).Nodup
  /-- The counter has not overflowed. -/
  counter : ∀ id, BelowWrap id history → (state.workers id).nextOrderId.toNat =
    id * idWidth + (lane id (emissions history)).length
  increasing : ∀ id, BelowWrap id history →
    ((lane id (offers history)).map OrderMsg.orderId).Pairwise (· < ·)

theorem order_ids_unique (few : n ≤ 2 ^ 32) (reach : (runWithWorkers args).Reachable state history)
    (bounded : ∀ id, (lane id (emissions history)).length ≤ 2 ^ 32) : IdsUnique state history := by
  have known := accounted reach
  -- the ids of a worker lie in a band of its own
  have place {id : Fin n} {order : OrderMsg} (member : (id, order) ∈ emissions history) :
      ∃ count, id * idWidth < count ∧ count ≤ (id + 1) * idWidth ∧ order.orderId = .ofNat count := by
    have listed := List.mem_map_of_mem (f := OrderMsg.orderId) ((mem_lane id order).mpr member)
    rw [(worker_ids known id).1, List.mem_map] at listed
    obtain ⟨count, within, is⟩ := listed
    have bound := bounded id
    rw [List.mem_range'_1] at within
    exact ⟨count, by omega, by simp only [idWidth] at *; omega, is.symm⟩
  have below (id : Fin n) (fits : BelowWrap id history) :
      id * idWidth + (lane id (emissions history)).length < 2 ^ 64 := by
    have last := id.isLt
    have bound := bounded id
    unfold BelowWrap at fits
    simp only [idWidth] at *
    omega
  constructor
  case unique =>
    apply nodup_of_lanes
    · intro id
      rw [(worker_ids known id).1]
      refine List.Nodup.map_on ?_ List.nodup_range'
      intro first firstMember second secondMember same
      rw [List.mem_range'_1] at firstMember secondMember
      have bound := bounded id
      have last := id.isLt
      simp only [idWidth] at firstMember secondMember
      exact count_inj (by omega) (by omega) (by omega) (by omega) same
    · -- two bands share no id
      intro first firstMember second secondMember different same
      obtain ⟨firstCount, above, within, is⟩ := place firstMember
      obtain ⟨secondCount, above', within', is'⟩ := place secondMember
      have firstLast := first.1.isLt
      have secondLast := second.1.isLt
      simp only [idWidth] at above within above' within'
      rw [is, is'] at same
      have equal := count_inj (by omega) (by omega) (by omega) (by omega) same
      exact different (Fin.ext (by omega))
  case counter =>
    intro id fits
    rw [(worker_ids known id).2, UInt64.toNat_ofNat', Nat.mod_eq_of_lt (below id fits)]
  case increasing =>
    intro id fits
    have sorted : ((lane id (emissions history)).map OrderMsg.orderId).Pairwise (· < ·) := by
      rw [(worker_ids known id).1, List.pairwise_map]
      refine (List.pairwise_lt_range' ..).imp_of_mem ?_
      intro first second firstMember secondMember less
      rw [List.mem_range'_1] at firstMember secondMember
      have bound := below id fits
      rw [UInt64.lt_iff_toNat_lt, UInt64.toNat_ofNat', UInt64.toNat_ofNat',
        Nat.mod_eq_of_lt (by omega), Nat.mod_eq_of_lt (by omega)]
      exact less
    -- what has been offered is the front of what has been emitted
    have begins : (lane id (offers history)).map OrderMsg.orderId <+:
        (lane id (emissions history)).map OrderMsg.orderId :=
      List.IsPrefix.map _ ⟨_, (known.orders id).symm⟩
    exact sorted.sublist begins.sublist

/-- Two orders of each of two workers. -/
theorem order_ids_unique_orders : ∃ state history,
    (emissions history).map (fun entry => entry.2.orderId) = [1, 0x100000001, 2, 0x100000002] ∧
      IdsUnique (F := ℚ) (n := 2) state history := by
  obtain ⟨state, history, reach, found⟩ := System.exists_reach_of_run
    (runWithWorkers (n := 2) eagerArgs) (fun _ _ => True) bothEmit
    (fun final => (emissions final.2).map (fun entry => entry.2.orderId) =
      [1, 0x100000001, 2, 0x100000002])
    (System.allowedAlong_true _ _ _) (by decide +kernel)
  have ids := of_decide_eq_true found
  refine ⟨state, history, ids, order_ids_unique (by decide) reach fun id => ?_⟩
  have within := length_lane_le id (emissions history)
  have emitted : (emissions history).length = 4 := by simpa using congrArg List.length ids
  omega

/-- The same without the proviso on the last worker. -/
structure IdsNeverWrap (state : EngineState F n) (history : List (EngineEvent n)) : Prop where
  unique : ((emissions history).map fun entry => entry.2.orderId).Nodup
  counter : ∀ id, (state.workers id).nextOrderId.toNat =
    id * idWidth + (lane id (emissions history)).length
  increasing : ∀ id, ((lane id (offers history)).map OrderMsg.orderId).Pairwise (· < ·)

instance neZero_workers : NeZero (2 ^ 32 : Nat) := ⟨by decide⟩

/-- The letters `T0QNAC0O`: their hash is routed to the last of 2^32 workers. -/
def lastSymbol : Symbol := #v[84, 48, 81, 78, 65, 67, 48, 79]

theorem lastSymbol_routed : target lastSymbol = (Fin.last (2 ^ 32 - 1) : Fin (2 ^ 32)) := by
  decide +kernel

/-- The counter of the last of 2^32 workers overflows with its 2^32nd order. -/
theorem last_worker_wraps :
    ¬ ∀ (F : Type) (n : Nat) [NeZero n] (args : StrategyArgs F) state history, n ≤ 2 ^ 32 →
      (runWithWorkers args).Reachable state history →
      (∀ id : Fin n, (lane id (emissions history)).length ≤ 2 ^ 32) →
      IdsNeverWrap (n := n) state history := by
  intro never
  obtain ⟨state, history, reach, _, _, length, tagged⟩ := eager_run lastSymbol_routed (2 ^ 32)
  have lanes := lane_of_all _ tagged
  have bounded (id : Fin (2 ^ 32)) : (lane id (emissions history)).length ≤ 2 ^ 32 :=
    (length_lane_le id (emissions history)).trans (Nat.le_of_eq length)
  have counter := (never ℚ (2 ^ 32) eagerArgs state history (Nat.le_refl _) reach bounded).counter
    (Fin.last (2 ^ 32 - 1))
  rw [lanes, if_pos rfl, length] at counter
  have bound := (state.workers (Fin.last (2 ^ 32 - 1))).nextOrderId.toNat_lt
  rw [counter] at bound
  exact absurd bound (by decide)

end Ids

end TradingPipeline.Engine
