import Mathlib.Tactic.NormNum
import Mathlib.Tactic.NormNum.OfScientific
import TradingPipeline.Foundation.Rounding
import TradingPipeline.Foundation.Smoothing
import TradingPipeline.Shmbus.Cpu
import TradingPipeline.Shmbus.Message

/-! The symbols of the mock exchange and their quotes.

A price is a number of an ordered field with exact arithmetic, and a literal stands for the decimal
that it shows. Only the conversion to an integer rounds, towards zero.
-/

set_option autoImplicit false

namespace TradingPipeline.MockExchange

open Foundation (smooth smooth_noise_near smooth_noise_moves trim truncate truncate_of_nonneg)
open Shmbus

variable {K : Type} [Field K] [LinearOrder K]

/-- What `rng.gen::<f64>()` can yield. -/
structure Draw (K : Type) [Field K] [LinearOrder K] where
  value : K
  nonneg : 0 ≤ value
  lt_one : value < 1

/-- A price that a symbol can be given to revert to. -/
@[ext] structure Anchor (K : Type) [Field K] [LinearOrder K] where
  value : K
  ge : 50 ≤ value
  lt : value < 500

structure SymState (K : Type) [Field K] [LinearOrder K] where
  name : Symbol
  anchor : Anchor K
  mid : K

section Symbols

def packSymbol (s : List Char) : Symbol :=
  let bytes := s.flatMap String.utf8EncodeChar
  Vector.ofFn fun position => bytes.getD position 0

/-- The names that `--symbols` lists. -/
def symbolNames (symbols : List Char) : List Symbol :=
  ((symbols.splitOn ',').filter fun s => s ≠ []).map fun s => packSymbol (trim isWhitespace s)

variable [IsStrictOrderedRing K]

/-- `50.0 + rng.gen::<f64>() * 450.0`. -/
def Anchor.drawn (draw : Draw K) : Anchor K where
  value := 50 + draw.value * 450
  ge := by linarith [draw.nonneg]
  lt := by linarith [draw.lt_one]

theorem Anchor.exists_drawn (anchor : Anchor K) : ∃ draw, drawn draw = anchor := by
  have ge := anchor.ge
  have lt := anchor.lt
  refine ⟨⟨(anchor.value - 50) / 450, div_nonneg (by linarith) (by norm_num), ?_⟩, ?_⟩
  · rw [div_lt_one (by norm_num)]
    linarith
  · ext
    simp only [drawn]
    ring

def SymState.new (name : Symbol) (anchor : Anchor K) : SymState K := ⟨name, anchor, anchor.value⟩

end Symbols

section Step

variable (sym : SymState K) (draw : Draw K)

/-- The mid price after the drift and the jitter, before its floor. -/
def SymState.moved : K :=
  let drift := (sym.anchor.value - sym.mid) * 0.001
  let jitter := (draw.value - 0.5) * 0.05
  sym.mid + drift + jitter

def SymState.next : SymState K := { sym with mid := max (sym.moved draw) 0.01 }

end Step

section Quote

def spreadHalf (mid : K) : K := max (mid * 0.00005) 0.005

def bid (mid : K) : K := mid - spreadHalf mid

def ask (mid : K) : K := mid + spreadHalf mid

variable [FloorRing K]

/-- `as i64`, which saturates. -/
def asI64 (x : K) : Int64 := .ofIntClamp (truncate x)

/-- The tick that is sent for a symbol after its step. -/
def SymState.tick (sym : SymState K) (seq ts : UInt64) (bidSz askSz : Fin 900) : MarketTick where
  seqNum := seq
  exchTsNs := ts
  recvTsNs := 0
  symbol := sym.name
  bidPx := asI64 (bid sym.mid * 1e6)
  askPx := asI64 (ask sym.mid * 1e6)
  bidSz := 100 + .ofNat bidSz
  askSz := 100 + .ofNat askSz
  pad := 0

/-- The prices of the tick are those around the mid price, cut to whole millionths: no conversion
saturates, the bid is positive, and the ask lies at least a hundredth above it. -/
structure Quoted (mid : K) (tick : MarketTick) : Prop where
  bidPx : tick.bidPx.toInt = ⌊bid mid * 1000000⌋
  askPx : tick.askPx.toInt = ⌊ask mid * 1000000⌋
  positive : 0 < tick.bidPx.toInt
  apart : tick.bidPx.toInt + 10000 ≤ tick.askPx.toInt

end Quote

section Reversion

variable [IsStrictOrderedRing K] {sym : SymState K}

/-- The mid price lies within 25 of its anchor. -/
def SymState.Near (sym : SymState K) : Prop := |sym.mid - sym.anchor.value| ≤ 25

theorem near_new (name : Symbol) (anchor : Anchor K) : (SymState.new name anchor).Near := by
  simp [SymState.Near, SymState.new]

theorem moved_eq_smooth (sym : SymState K) (draw : Draw K) :
    sym.moved draw = smooth (1 / 1000) sym.anchor.value sym.mid +
      (draw.value - 1 / 2) * (5 / 100) := by
  have drift : (0.001 : K) = 1 / 1000 := by norm_num
  have half : (0.5 : K) = 1 / 2 := by norm_num
  have jitter : (0.05 : K) = 5 / 100 := by norm_num
  rw [SymState.moved, smooth, drift, half, jitter]
  ring

theorem jitter_le (draw : Draw K) :
    |(draw.value - 1 / 2) * (5 / 100)| ≤ 1 / 1000 * 25 := by
  have nonneg := draw.nonneg
  have lt := draw.lt_one
  rw [abs_le]
  constructor <;> linarith

namespace SymState.Near

theorem moved (near : sym.Near) (draw : Draw K) :
    |sym.moved draw - sym.anchor.value| ≤ 25 := by
  rw [moved_eq_smooth]
  exact smooth_noise_near (by norm_num) near (jitter_le draw)

theorem moved_ge (near : sym.Near) (draw : Draw K) : 25 ≤ sym.moved draw := by
  have lower := (abs_le.mp (near.moved draw)).1
  have ge := sym.anchor.ge
  linarith

theorem floor_lt (near : sym.Near) (draw : Draw K) : 1 / 100 < sym.moved draw :=
  lt_of_lt_of_le (by norm_num) (near.moved_ge draw)

theorem next_mid (near : sym.Near) (draw : Draw K) : (sym.next draw).mid = sym.moved draw := by
  have floor : (0.01 : K) = 1 / 100 := by norm_num
  rw [SymState.next, floor]
  exact max_eq_left (near.floor_lt draw).le

theorem next (near : sym.Near) (draw : Draw K) : (sym.next draw).Near := by
  have moved := near.moved draw
  rwa [← near.next_mid draw] at moved

theorem step_le (near : sym.Near) (draw : Draw K) : |(sym.next draw).mid - sym.mid| ≤ 1 / 20 := by
  rw [near.next_mid draw, moved_eq_smooth]
  calc |smooth (1 / 1000) sym.anchor.value sym.mid + (draw.value - 1 / 2) * (5 / 100) - sym.mid|
      ≤ 2 * (1 / 1000) * 25 := smooth_noise_moves (by norm_num) near (jitter_le draw)
    _ = 1 / 20 := by norm_num

theorem mid_bounds (near : sym.Near) : 25 ≤ sym.mid ∧ sym.mid ≤ 525 := by
  obtain ⟨lower, upper⟩ := abs_le.mp near
  have ge := sym.anchor.ge
  have lt := sym.anchor.lt
  constructor <;> linarith

end SymState.Near

section Conversion

variable [FloorRing K]

theorem toInt_asI64 {x : K} (nonneg : 0 ≤ x) (small : x ≤ 1000000000) :
    (asI64 x).toInt = ⌊x⌋ := by
  have low : 0 ≤ ⌊x⌋ := Int.floor_nonneg.mpr nonneg
  have high : ⌊x⌋ ≤ 1000000000 := by
    have floor := (Int.floor_le x).trans small
    exact_mod_cast floor
  rw [asI64, truncate_of_nonneg nonneg]
  refine Int64.toInt_ofIntClamp ?_ ?_
  · exact Int.le_trans (by decide) low
  · exact Int.le_trans high (by decide)

theorem spreadHalf_bounds {mid : K} (small : mid ≤ 525) :
    5 / 1000 ≤ spreadHalf mid ∧ spreadHalf mid ≤ 1 := by
  have half : (0.005 : K) = 5 / 1000 := by norm_num
  have share : (0.00005 : K) = 5 / 100000 := by norm_num
  rw [spreadHalf, half, share]
  refine ⟨le_max_right _ _, max_le ?_ ?_⟩
  · linarith
  · norm_num

theorem SymState.Near.quoted (near : sym.Near) (seq ts : UInt64) (bidSz askSz : Fin 900) :
    Quoted sym.mid (sym.tick seq ts bidSz askSz) := by
  obtain ⟨large, small⟩ := near.mid_bounds
  obtain ⟨wide, narrow⟩ := spreadHalf_bounds small
  have bidBounds : 24 * 1000000 ≤ bid sym.mid * 1000000 ∧ bid sym.mid * 1000000 ≤ 1000000000 := by
    unfold bid
    constructor <;> linarith
  have askBounds : 0 ≤ ask sym.mid * 1000000 ∧ ask sym.mid * 1000000 ≤ 1000000000 := by
    unfold ask
    constructor <;> linarith
  have million : (1e6 : K) = 1000000 := by norm_num
  have bidPx : (sym.tick seq ts bidSz askSz).bidPx.toInt = ⌊bid sym.mid * 1000000⌋ := by
    rw [SymState.tick, million]
    exact toInt_asI64 (le_trans (by norm_num) bidBounds.1) bidBounds.2
  have askPx : (sym.tick seq ts bidSz askSz).askPx.toInt = ⌊ask sym.mid * 1000000⌋ := by
    rw [SymState.tick, million]
    exact toInt_asI64 askBounds.1 askBounds.2
  refine ⟨bidPx, askPx, ?_, ?_⟩
  · rw [bidPx, Int.floor_pos]
    exact le_trans (by norm_num) bidBounds.1
  · -- a whole number of millionths between the prices survives the cut
    have apart : bid sym.mid * 1000000 + (10000 : ℤ) ≤ ask sym.mid * 1000000 := by
      unfold bid ask
      push_cast
      linarith
    rw [bidPx, askPx, ← Int.floor_add_intCast]
    exact Int.floor_le_floor apart

end Conversion
end Reversion

end TradingPipeline.MockExchange
