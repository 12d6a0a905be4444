import Mathlib.Data.Rat.Floor

/-! The fixed-bucket latency histogram of `latency.rs`.

The product of the count and a quantile is exact, where the code takes it in `f64`.
-/

set_option autoImplicit false

namespace TradingPipeline.Shmbus

/-- `BUCKET_BOUNDS_NS`: the inclusive upper bound of each bucket. -/
def bucketBoundsNs : Vector UInt64 21 := #v[
  500, 1000, 2000, 5000, 10000, 20000, 50000, 100000, 200000, 500000, 1000000, 2000000, 5000000,
  10000000, 20000000, 50000000, 100000000, 200000000, 500000000, 1000000000,
  18446744073709551615]

structure LatencyHistogram where
  buckets : Vector UInt64 21
  minNs : UInt64
  maxNs : UInt64
  sumNs : BitVec 128
  count : UInt64
  deriving DecidableEq

namespace LatencyHistogram

def new : LatencyHistogram where
  buckets := Vector.replicate 21 0
  minNs := 18446744073709551615
  maxNs := 0
  sumNs := 0
  count := 0

/-- The bucket a sample is counted in: the first whose bound it does not exceed. -/
def bucketIndex (latencyNs : UInt64) : Fin 21 :=
  (bucketBoundsNs.findFinIdx? fun bound => latencyNs ≤ bound).getD 20

def record (histogram : LatencyHistogram) (latencyNs : UInt64) : LatencyHistogram :=
  let index := bucketIndex latencyNs
  { buckets := histogram.buckets.set index (histogram.buckets[index] + 1)
    minNs := if latencyNs < histogram.minNs then latencyNs else histogram.minNs
    maxNs := if latencyNs > histogram.maxNs then latencyNs else histogram.maxNs
    sumNs := histogram.sumNs + BitVec.ofNat 128 latencyNs.toNat
    count := histogram.count + 1 }

@[simp] theorem record_count (histogram : LatencyHistogram) (latencyNs : UInt64) :
    (histogram.record latencyNs).count = histogram.count + 1 := rfl

/-- What a new histogram holds after the samples. -/
def recorded (samples : List UInt64) : LatencyHistogram := samples.foldl record new

/-- `x.ceil() as u64`; the cast saturates. -/
def ceilU64 (x : ℚ) : UInt64 := .ofNat (min ⌈x⌉.toNat (2 ^ 64 - 1))

/-- The rank that `quantile` looks for. -/
def targetRank (histogram : LatencyHistogram) (q : ℚ) : UInt64 :=
  let target := ceilU64 (histogram.count.toNat * q)
  if target < 1 then 1 else target

/-- The `for` loop of `quantile`, over the buckets with their bounds. -/
def scan (target : UInt64) : UInt64 → List (UInt64 × UInt64) → Option UInt64
  | _, [] => none
  | cum, (bucket, bound) :: rest =>
    let cum := cum + bucket
    if cum ≥ target then some bound else scan target cum rest

/-- What the loop of `quantile` returns, if it does. -/
def bucketFor (histogram : LatencyHistogram) (q : ℚ) : Option UInt64 :=
  scan (histogram.targetRank q) 0 (histogram.buckets.toList.zip bucketBoundsNs.toList)

def quantile (histogram : LatencyHistogram) (q : ℚ) : UInt64 :=
  if histogram.count = 0 then 0 else (histogram.bucketFor q).getD histogram.maxNs

end LatencyHistogram

structure Summary where
  count : UInt64
  minNs : UInt64
  maxNs : UInt64
  meanNs : UInt64
  p50Ns : UInt64
  p90Ns : UInt64
  p99Ns : UInt64
  p999Ns : UInt64
  deriving DecidableEq

def LatencyHistogram.summary (histogram : LatencyHistogram) : Summary where
  count := histogram.count
  minNs := if histogram.count = 0 then 0 else histogram.minNs
  maxNs := histogram.maxNs
  meanNs :=
    if histogram.count = 0 then 0
    else .ofNat (histogram.sumNs / .ofNat 128 histogram.count.toNat).toNat
  p50Ns := histogram.quantile (1 / 2)
  p90Ns := histogram.quantile (9 / 10)
  p99Ns := histogram.quantile (99 / 100)
  p999Ns := histogram.quantile (999 / 1000)

/-- `saturating_sub`. -/
def saturatingSub (later earlier : UInt64) : UInt64 := if later < earlier then 0 else later - earlier

end TradingPipeline.Shmbus
