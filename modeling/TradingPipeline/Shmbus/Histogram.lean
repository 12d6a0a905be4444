import Mathlib.Algebra.BigOperators.Fin
import Mathlib.Data.List.Induction
import Mathlib.Data.List.Perm.Basic
import TradingPipeline.Foundation.OrderStatistic
import TradingPipeline.Shmbus.Latency

/-! What the histogram says about the samples.

Each aggregate is compared with the list of samples. As long as they are fewer than 2^64, no
counter and no sum wraps, and the mean fits its word because it lies between two samples.
-/

set_option autoImplicit false

namespace TradingPipeline.Shmbus

open Foundation

namespace LatencyHistogram

section Buckets

theorem get_eq (buckets : Vector UInt64 21) (index : Fin 21) :
    buckets.get index = buckets[index.val] := rfl

theorem bounds_strict : ∀ first second : Fin 21, first < second →
    bucketBoundsNs.get first < bucketBoundsNs.get second := by
  decide

theorem le_last_bound (latencyNs : UInt64) : latencyNs ≤ bucketBoundsNs.get (Fin.last 20) :=
  UInt64.le_iff_toNat_le.mpr (Nat.le_of_lt_succ latencyNs.toNat_lt)

theorem bucketIndex_spec (latencyNs : UInt64) :
    latencyNs ≤ bucketBoundsNs.get (bucketIndex latencyNs) ∧
      ∀ before, before < bucketIndex latencyNs → bucketBoundsNs.get before < latencyNs := by
  cases found : bucketBoundsNs.findFinIdx? fun bound => decide (latencyNs ≤ bound) with
  | none =>
    rw [Vector.findFinIdx?_eq_none_iff] at found
    have last := found (bucketBoundsNs.get (Fin.last 20)) (Vector.getElem_mem _)
    exact absurd (decide_eq_true (le_last_bound latencyNs)) last
  | some index =>
    have is : bucketIndex latencyNs = index := by rw [bucketIndex, found, Option.getD_some]
    have first : bucketBoundsNs.toArray.findFinIdx?
        (fun bound => decide (latencyNs ≤ bound)) = _ := Vector.findFinIdx?_toArray
    rw [found, Option.map_some, Array.findFinIdx?_eq_some_iff] at first
    rw [is]
    refine ⟨of_decide_eq_true first.1, fun before less => ?_⟩
    have fails := first.2 (before.cast bucketBoundsNs.size_toArray.symm) less
    simpa [get_eq] using fails

theorem bucketIndex_le_iff (latencyNs : UInt64) (index : Fin 21) :
    bucketIndex latencyNs ≤ index ↔ latencyNs ≤ bucketBoundsNs.get index := by
  obtain ⟨fits, before⟩ := bucketIndex_spec latencyNs
  constructor
  · intro le
    rcases Nat.eq_or_lt_of_le le with same | less
    · rwa [← Fin.ext same]
    · exact UInt64.le_trans fits (UInt64.le_of_lt (bounds_strict _ _ less))
  · intro le
    by_contra greater
    exact absurd le (UInt64.not_le.mpr (before index (by omega)))

/-- The bucket of a sample: above the bound before it and up to its own. -/
def InBucket (index : Fin 21) (latencyNs : UInt64) : Prop :=
  (∀ before : Fin 21, before.val + 1 = index.val → bucketBoundsNs.get before < latencyNs) ∧
    latencyNs ≤ bucketBoundsNs.get index

instance (index : Fin 21) (latencyNs : UInt64) : Decidable (InBucket index latencyNs) :=
  inferInstanceAs (Decidable (_ ∧ _))

theorem bucketIndex_eq_iff (latencyNs : UInt64) (index : Fin 21) :
    bucketIndex latencyNs = index ↔ InBucket index latencyNs := by
  constructor
  · rintro rfl
    obtain ⟨fits, earlier⟩ := bucketIndex_spec latencyNs
    exact ⟨fun before next => earlier before (by omega), fits⟩
  · rintro ⟨above, fits⟩
    have le := (bucketIndex_le_iff latencyNs index).mpr fits
    by_contra other
    -- a smaller index would let the sample fit the bound before
    have positive : 0 < index.val := by omega
    have fitsBefore := (bucketIndex_le_iff latencyNs ⟨index - 1, by omega⟩).mp
      (Nat.le_sub_one_of_lt (Nat.lt_of_le_of_ne le fun same => other (Fin.ext same)))
    exact absurd fitsBefore (UInt64.not_le.mpr (above _ (Nat.sub_add_cancel positive)))

end Buckets

section Recording

variable {histogram : LatencyHistogram} {samples : List UInt64} (latencyNs : UInt64)

theorem record_bucket (histogram : LatencyHistogram) (index : Fin 21) :
    (histogram.record latencyNs).buckets.get index =
      if bucketIndex latencyNs = index then histogram.buckets.get index + 1
      else histogram.buckets.get index := by
  simp only [record, get_eq, Vector.getElem_set, Fin.val_inj]
  split
  · next same => rw [← same]; rfl
  · rfl

/-- What the histogram keeps of the samples, with nothing lost to the width of a word. -/
structure Keeps (histogram : LatencyHistogram) (samples : List UInt64) : Prop where
  buckets : ∀ index, (histogram.buckets.get index).toNat =
    samples.countP fun latencyNs => bucketIndex latencyNs = index
  count : histogram.count.toNat = samples.length
  sum : histogram.sumNs.toNat = (samples.map UInt64.toNat).sum
  min : (samples = [] ∧ histogram.minNs = new.minNs ∨ histogram.minNs ∈ samples) ∧
    ∀ latencyNs ∈ samples, histogram.minNs ≤ latencyNs
  max : (samples = [] ∧ histogram.maxNs = new.maxNs ∨ histogram.maxNs ∈ samples) ∧
    ∀ latencyNs ∈ samples, latencyNs ≤ histogram.maxNs

theorem sum_le (samples : List UInt64) :
    (samples.map UInt64.toNat).sum ≤ samples.length * (2 ^ 64 - 1) := by
  induction samples with
  | nil => exact Nat.zero_le _
  | cons latencyNs rest ih =>
    have bound := latencyNs.toNat_lt
    rw [List.map_cons, List.sum_cons, List.length_cons, Nat.succ_mul]
    omega

theorem keeps_new : Keeps new [] where
  buckets := by decide
  count := rfl
  sum := rfl
  min := ⟨.inl ⟨rfl, rfl⟩, nofun⟩
  max := ⟨.inl ⟨rfl, rfl⟩, nofun⟩

theorem record_minNs_le (histogram : LatencyHistogram) :
    (histogram.record latencyNs).minNs ≤ histogram.minNs ∧
      (histogram.record latencyNs).minNs ≤ latencyNs := by
  simp only [record]
  split
  · next less => exact ⟨UInt64.le_of_lt less, UInt64.le_refl _⟩
  · next less => exact ⟨UInt64.le_refl _, UInt64.not_lt.mp less⟩

theorem le_record_maxNs (histogram : LatencyHistogram) :
    histogram.maxNs ≤ (histogram.record latencyNs).maxNs ∧
      latencyNs ≤ (histogram.record latencyNs).maxNs := by
  simp only [record]
  split
  · next greater => exact ⟨UInt64.le_of_lt greater, UInt64.le_refl _⟩
  · next greater => exact ⟨UInt64.le_refl _, UInt64.not_lt.mp greater⟩

theorem Keeps.record (keeps : Keeps histogram samples) (few : samples.length + 1 < 2 ^ 64) :
    Keeps (histogram.record latencyNs) (samples ++ [latencyNs]) := by
  constructor
  case buckets =>
    intro index
    have least : samples.countP (fun sample => bucketIndex sample = index) ≤ samples.length :=
      List.countP_le_length
    have one : (1 : UInt64).toNat = 1 := rfl
    rw [record_bucket, List.countP_append]
    split
    · next here =>
      rw [UInt64.toNat_add, keeps.buckets, List.countP_singleton, if_pos (decide_eq_true here), one]
      exact Nat.mod_eq_of_lt (by omega)
    · next other =>
      rw [keeps.buckets, List.countP_singleton, decide_eq_false other]
      rfl
  case count =>
    rw [record_count, UInt64.toNat_add, keeps.count, List.length_append]
    exact Nat.mod_eq_of_lt few
  case sum =>
    have bound := latencyNs.toNat_lt
    have sum := sum_le samples
    have word : (BitVec.ofNat 128 latencyNs.toNat).toNat = latencyNs.toNat := by
      rw [BitVec.toNat_ofNat]
      exact Nat.mod_eq_of_lt (by omega)
    -- less than 2 ^ 64 samples, each below 2 ^ 64
    have total : (samples.map UInt64.toNat).sum + latencyNs.toNat < 2 ^ 128 := by
      have := Nat.mul_le_mul_right (2 ^ 64 - 1) (Nat.le_of_lt_succ (Nat.lt_of_succ_lt few))
      omega
    rw [List.map_append, List.sum_append]
    simp only [LatencyHistogram.record, BitVec.toNat_add, keeps.sum, word]
    exact Nat.mod_eq_of_lt total
  case min =>
    -- before the first sample the minimum is the greatest word
    have greatest : latencyNs ≤ new.minNs := le_last_bound latencyNs
    obtain ⟨fromSamples, fromSample⟩ := record_minNs_le latencyNs histogram
    have extreme : IsExtreme (· ≤ ·) new.minNs histogram.minNs samples := keeps.min
    exact extreme.concat UInt64.le_trans UInt64.le_antisymm greatest (ite_eq_or_eq _ _ _)
      fromSamples fromSample
  case max =>
    have least : new.maxNs ≤ latencyNs := UInt64.le_iff_toNat_le.mpr (Nat.zero_le _)
    obtain ⟨fromSamples, fromSample⟩ := le_record_maxNs latencyNs histogram
    have extreme : IsExtreme (· ≥ ·) new.maxNs histogram.maxNs samples := keeps.max
    exact extreme.concat (fun le le' => UInt64.le_trans le' le)
      (fun le le' => UInt64.le_antisymm le' le) least (ite_eq_or_eq _ _ _) fromSamples fromSample

theorem keeps_recorded (samples : List UInt64) (few : samples.length < 2 ^ 64) :
    Keeps (recorded samples) samples := by
  induction samples using List.reverseRecOn with
  | nil => exact keeps_new
  | append_singleton samples latencyNs ih =>
    rw [List.length_append] at few
    rw [recorded, List.foldl_append]
    exact (ih (Nat.lt_of_succ_lt few)).record latencyNs few

end Recording

section Abstraction

variable {histogram : LatencyHistogram} {samples : List UInt64}

theorem sum_buckets (keeps : Keeps histogram samples) :
    ∑ index, (histogram.buckets.get index).toNat = samples.length := by
  have counts (index : Fin 21) : (histogram.buckets.get index).toNat =
      Multiset.count index ((samples.map bucketIndex : List (Fin 21)) : Multiset (Fin 21)) := by
    rw [keeps.buckets, Multiset.coe_count, List.count, List.countP_map]
    rfl
  calc
    _ = ∑ index, Multiset.count index ((samples.map bucketIndex : List (Fin 21)) : Multiset _) :=
      Finset.sum_congr rfl fun index _ => counts index
    _ = _ := by
      rw [Multiset.sum_count_eq_card fun index _ => Finset.mem_univ index, Multiset.coe_card,
        List.length_map]

theorem sum_between (low high : Nat) (samples : List UInt64)
    (between : ∀ latencyNs ∈ samples, low ≤ latencyNs.toNat ∧ latencyNs.toNat ≤ high) :
    samples.length * low ≤ (samples.map UInt64.toNat).sum ∧
      (samples.map UInt64.toNat).sum ≤ samples.length * high := by
  induction samples with
  | nil => simp
  | cons latencyNs rest ih =>
    obtain ⟨lower, upper⟩ := ih fun sample mem => between sample (List.mem_cons_of_mem _ mem)
    obtain ⟨least, most⟩ := between latencyNs List.mem_cons_self
    rw [List.map_cons, List.sum_cons, List.length_cons, Nat.succ_mul, Nat.succ_mul]
    omega

theorem Keeps.perm {permuted : List UInt64} (keeps : Keeps histogram samples)
    (perm : samples.Perm permuted) : Keeps histogram permuted where
  buckets index := by rw [keeps.buckets, perm.countP_eq]
  count := by rw [keeps.count, perm.length_eq]
  sum := by rw [keeps.sum, (perm.map _).sum_eq]
  min := by
    have extreme : IsExtreme (· ≤ ·) new.minNs histogram.minNs samples := keeps.min
    exact extreme.perm perm
  max := by
    have extreme : IsExtreme (· ≥ ·) new.maxNs histogram.maxNs samples := keeps.max
    exact extreme.perm perm

theorem Keeps.unique {other : LatencyHistogram} (keeps : Keeps histogram samples)
    (keepsOther : Keeps other samples) : other = histogram := by
  have buckets : other.buckets = histogram.buckets := by
    apply Vector.ext
    intro place less
    apply UInt64.toNat_inj.mp
    rw [← get_eq other.buckets ⟨place, less⟩, ← get_eq histogram.buckets ⟨place, less⟩,
      keeps.buckets, keepsOther.buckets]
  have count : other.count = histogram.count :=
    UInt64.toNat_inj.mp (by rw [keeps.count, keepsOther.count])
  have sum : other.sumNs = histogram.sumNs :=
    BitVec.eq_of_toNat_eq (by rw [keeps.sum, keepsOther.sum])
  have min : other.minNs = histogram.minNs := by
    have extreme : IsExtreme (· ≤ ·) new.minNs histogram.minNs samples := keeps.min
    exact extreme.unique UInt64.le_antisymm keepsOther.min
  have max : other.maxNs = histogram.maxNs := by
    have extreme : IsExtreme (· ≥ ·) new.maxNs histogram.maxNs samples := keeps.max
    exact extreme.unique (fun le le' => UInt64.le_antisymm le' le) keepsOther.max
  calc
    other = ⟨other.buckets, other.minNs, other.maxNs, other.sumNs, other.count⟩ := rfl
    _ = histogram := by rw [buckets, min, max, sum, count]

/-- What the histogram says of the samples, and what its summary reports of them. -/
structure Abstracts (histogram : LatencyHistogram) (samples : List UInt64) : Prop where
  bucket : ∀ index, (histogram.buckets.get index).toNat =
    samples.countP fun latencyNs => InBucket index latencyNs
  sum_buckets : ∑ index, (histogram.buckets.get index).toNat = histogram.count.toNat
  count : histogram.count.toNat = samples.length
  min : samples ≠ [] →
    histogram.minNs ∈ samples ∧ ∀ latencyNs ∈ samples, histogram.minNs ≤ latencyNs
  max : samples ≠ [] →
    histogram.maxNs ∈ samples ∧ ∀ latencyNs ∈ samples, latencyNs ≤ histogram.maxNs
  sum : histogram.sumNs.toNat = (samples.map UInt64.toNat).sum
  summary_count : histogram.summary.count.toNat = samples.length
  summary_min : (samples = [] ∧ histogram.summary.minNs = 0 ∨ histogram.summary.minNs ∈ samples) ∧
    ∀ latencyNs ∈ samples, histogram.summary.minNs ≤ latencyNs
  summary_max : (samples = [] ∧ histogram.summary.maxNs = 0 ∨ histogram.summary.maxNs ∈ samples) ∧
    ∀ latencyNs ∈ samples, latencyNs ≤ histogram.summary.maxNs
  mean : histogram.summary.meanNs.toNat = (samples.map UInt64.toNat).sum / samples.length
  mean_between : histogram.summary.minNs ≤ histogram.summary.meanNs ∧
    histogram.summary.meanNs ≤ histogram.summary.maxNs

/-- The mean lies between two samples, so the cast to `u64` loses nothing. -/
theorem Keeps.mean (keeps : Keeps histogram samples) (few : samples.length < 2 ^ 64) :
    histogram.summary.meanNs.toNat = (samples.map UInt64.toNat).sum / samples.length ∧
      histogram.summary.minNs ≤ histogram.summary.meanNs ∧
        histogram.summary.meanNs ≤ histogram.summary.maxNs := by
  by_cases empty : histogram.count = 0
  · have none : samples.length = 0 := by rw [← keeps.count, empty]; rfl
    simp only [summary, if_pos empty, none, Nat.div_zero]
    exact ⟨rfl, UInt64.le_refl _, UInt64.le_iff_toNat_le.mpr (Nat.zero_le _)⟩
  · have positive : 0 < samples.length := by
      rw [← keeps.count]
      exact Nat.pos_of_ne_zero fun zero => empty (UInt64.toNat_inj.mp zero)
    obtain ⟨lower, upper⟩ := sum_between histogram.minNs.toNat histogram.maxNs.toNat samples
      fun latencyNs mem => ⟨UInt64.le_iff_toNat_le.mp (keeps.min.2 _ mem),
        UInt64.le_iff_toNat_le.mp (keeps.max.2 _ mem)⟩
    have least : histogram.minNs.toNat ≤ (samples.map UInt64.toNat).sum / samples.length :=
      (Nat.le_div_iff_mul_le positive).mpr (by rwa [Nat.mul_comm])
    have most : (samples.map UInt64.toNat).sum / samples.length ≤ histogram.maxNs.toNat :=
      Nat.div_le_of_le_mul upper
    have fits := histogram.maxNs.toNat_lt
    -- the quotient lies below the maximum, so the cast to a word keeps it
    have exact : histogram.summary.meanNs.toNat =
        (samples.map UInt64.toNat).sum / samples.length := by
      simp only [summary, if_neg empty, UInt64.toNat_ofNat', BitVec.toNat_udiv, keeps.sum,
        BitVec.toNat_ofNat, keeps.count]
      rw [Nat.mod_eq_of_lt (show samples.length < 2 ^ 128 by omega), Nat.mod_eq_of_lt (by omega)]
    refine ⟨exact, UInt64.le_iff_toNat_le.mpr ?_, UInt64.le_iff_toNat_le.mpr ?_⟩
    · rw [exact]
      simpa only [summary, if_neg empty] using least
    · rw [exact]
      exact most

/-- Without a sample the summary has 0 where the histogram has the greatest word. -/
theorem Keeps.summary_min (keeps : Keeps histogram samples) :
    (samples = [] ∧ histogram.summary.minNs = 0 ∨ histogram.summary.minNs ∈ samples) ∧
      ∀ latencyNs ∈ samples, histogram.summary.minNs ≤ latencyNs := by
  by_cases empty : histogram.count = 0
  · have none : samples = [] := by
      apply List.length_eq_zero_iff.mp
      rw [← keeps.count, empty]
      rfl
    subst none
    exact ⟨.inl ⟨rfl, if_pos empty⟩, fun _ mem => absurd mem List.not_mem_nil⟩
  · have same : histogram.summary.minNs = histogram.minNs := if_neg empty
    have some : samples ≠ [] := by
      rintro rfl
      exact empty (UInt64.toNat_inj.mp keeps.count)
    rw [same]
    exact ⟨.inr (keeps.min.1.resolve_left fun none => some none.1), keeps.min.2⟩

theorem Keeps.abstracts (keeps : Keeps histogram samples) (few : samples.length < 2 ^ 64) :
    Abstracts histogram samples where
  bucket index := by simp only [keeps.buckets, bucketIndex_eq_iff]
  sum_buckets := by rw [LatencyHistogram.sum_buckets keeps, keeps.count]
  count := keeps.count
  min some := ⟨keeps.min.1.resolve_left fun none => some none.1, keeps.min.2⟩
  max some := ⟨keeps.max.1.resolve_left fun none => some none.1, keeps.max.2⟩
  sum := keeps.sum
  summary_count := keeps.count
  summary_min := keeps.summary_min
  summary_max := keeps.max
  mean := (keeps.mean few).1
  mean_between := (keeps.mean few).2

/-- Fewer than 2^64 samples are kept exactly, and their order leaves no trace. -/
theorem recorded_abstracts (samples : List UInt64) (few : samples.length < 2 ^ 64) :
    Abstracts (recorded samples) samples ∧
      ∀ permuted, samples.Perm permuted →
        (recorded permuted).summary = (recorded samples).summary := by
  have keeps := keeps_recorded samples few
  refine ⟨keeps.abstracts few, fun permuted perm => ?_⟩
  have keepsPermuted := keeps_recorded permuted (perm.length_eq ▸ few)
  rw [keeps.unique (keepsPermuted.perm perm.symm)]

theorem recorded_abstracts_edges :
    Abstracts (recorded [500, 18446744073709551615, 501]) [500, 18446744073709551615, 501] ∧
      ∀ permuted, [500, 18446744073709551615, 501].Perm permuted →
        (recorded permuted).summary = (recorded [500, 18446744073709551615, 501]).summary :=
  recorded_abstracts [500, 18446744073709551615, 501] (by decide)

end Abstraction

end LatencyHistogram

end TradingPipeline.Shmbus
