import TradingPipeline.Foundation.OrderStatistic
import TradingPipeline.Shmbus.Histogram

/-! The quantiles of the histogram against the order statistics of the samples.

The scan stops in the bucket of the sample with the rank that it looks for.
-/

set_option autoImplicit false

namespace TradingPipeline.Shmbus.LatencyHistogram

open Foundation

/-- The rank of the sample that a quantile asks for. -/
def rank (samples : List UInt64) (q : ℚ) : Nat := max 1 ⌈samples.length * q⌉.toNat

/-- The least bound that the sample does not exceed. -/
def LeastBound (latencyNs bound : UInt64) : Prop :=
  bound ∈ bucketBoundsNs.toList ∧ latencyNs ≤ bound ∧
    ∀ other ∈ bucketBoundsNs.toList, latencyNs ≤ other → bound ≤ other

theorem leastBound_bucketIndex (latencyNs : UInt64) :
    LeastBound latencyNs (bucketBoundsNs.get (bucketIndex latencyNs)) := by
  obtain ⟨fits, before⟩ := bucketIndex_spec latencyNs
  refine ⟨Vector.mem_toList_iff.mpr (Vector.getElem_mem _), fits, fun other mem above => ?_⟩
  obtain ⟨place, less, rfl⟩ := Vector.mem_iff_getElem.mp (Vector.mem_toList_iff.mp mem)
  have le := (bucketIndex_le_iff latencyNs ⟨place, less⟩).mpr above
  rcases Nat.eq_or_lt_of_le le with same | earlier
  · rw [show bucketIndex latencyNs = ⟨place, less⟩ from Fin.ext same]
    exact UInt64.le_refl _
  · exact UInt64.le_of_lt (bounds_strict _ ⟨place, less⟩ earlier)

theorem bound_ratio : ∀ index : Fin 20, index.val < 19 →
    2 * (bucketBoundsNs.get index.succ).toNat ≤ 5 * (bucketBoundsNs.get index.castSucc).toNat := by
  decide

theorem bucketIndex_near (latencyNs : UInt64) (low : 500 < latencyNs)
    (high : latencyNs ≤ 1000000000) :
    2 * (bucketBoundsNs.get (bucketIndex latencyNs)).toNat < 5 * latencyNs.toNat := by
  have before := (bucketIndex_spec latencyNs).2
  have below : bucketIndex latencyNs ≤ 19 := (bucketIndex_le_iff latencyNs 19).mpr high
  have positive : bucketIndex latencyNs ≠ 0 := fun first =>
    absurd ((bucketIndex_le_iff latencyNs 0).mp (Fin.le_of_eq first)) (UInt64.not_le.mpr low)
  obtain ⟨index, same⟩ := Fin.exists_succ_eq.mpr positive
  rw [← same] at before below ⊢
  have greater := UInt64.lt_iff_toNat_lt.mp (before index.castSucc Fin.castSucc_lt_succ)
  have ratio := bound_ratio index (Nat.lt_of_succ_le below)
  omega

section Scan

variable {histogram : LatencyHistogram} {samples : List UInt64} {latencyNs target : UInt64}

theorem countP_through (samples : List UInt64) (index : Fin 21) :
    samples.countP (fun sample => (bucketIndex sample).val < index.val + 1) =
      samples.countP fun sample => sample ≤ bucketBoundsNs.get index := by
  refine List.countP_congr fun sample _ => ?_
  rw [decide_eq_true_iff, decide_eq_true_iff, ← bucketIndex_le_iff, Nat.lt_succ_iff, Fin.le_def]

theorem countP_next (samples : List UInt64) (index : Fin 21) :
    samples.countP (fun sample => (bucketIndex sample).val < index.val + 1) =
      samples.countP (fun sample => (bucketIndex sample).val < index.val) +
        samples.countP fun sample => bucketIndex sample = index := by
  induction samples with
  | nil => rfl
  | cons sample rest ih =>
    simp only [List.countP_cons, ih, decide_eq_true_iff, Fin.ext_iff]
    split <;> split <;> split <;> omega

theorem drop_entries (histogram : LatencyHistogram) (index : Fin 21) :
    (histogram.buckets.toList.zip bucketBoundsNs.toList).drop index =
      (histogram.buckets.get index, bucketBoundsNs.get index) ::
        (histogram.buckets.toList.zip bucketBoundsNs.toList).drop (index + 1) := by
  have size (buckets : Vector UInt64 21) : index.val < buckets.toList.length := by
    rw [Vector.length_toList]
    exact index.isLt
  have less : index.val < (histogram.buckets.toList.zip bucketBoundsNs.toList).length := by
    rw [List.length_zip]
    exact Nat.lt_min.mpr ⟨size _, size _⟩
  rw [List.drop_eq_getElem_cons less, List.getElem_zip]
  simp only [Vector.getElem_toList]
  rfl

theorem scan_step (keeps : Keeps histogram samples) (few : samples.length < 2 ^ 64)
    (told : ∀ index, latencyNs ≤ bucketBoundsNs.get index ↔
      target.toNat ≤ samples.countP fun sample => sample ≤ bucketBoundsNs.get index)
    (index : Fin 21) (cum : UInt64)
    (summed : cum.toNat = samples.countP fun sample => (bucketIndex sample).val < index.val) :
    ∃ next : UInt64,
      next.toNat = samples.countP (fun sample => (bucketIndex sample).val < index.val + 1) ∧
      scan target cum ((histogram.buckets.toList.zip bucketBoundsNs.toList).drop index) =
        if bucketIndex latencyNs ≤ index then some (bucketBoundsNs.get index)
        else scan target next
          ((histogram.buckets.toList.zip bucketBoundsNs.toList).drop (index + 1)) := by
  have next : (cum + histogram.buckets.get index).toNat =
      samples.countP fun sample => (bucketIndex sample).val < index.val + 1 := by
    have bound : samples.countP (fun sample => (bucketIndex sample).val < index.val + 1) ≤
      samples.length := List.countP_le_length
    rw [countP_next] at bound ⊢
    rw [UInt64.toNat_add, summed, keeps.buckets]
    exact Nat.mod_eq_of_lt (Nat.lt_of_le_of_lt bound few)
  -- the running sum counts the samples up to this bound
  have here : cum + histogram.buckets.get index ≥ target ↔ bucketIndex latencyNs ≤ index := by
    rw [bucketIndex_le_iff, told, ← countP_through, ← next]
    exact UInt64.le_iff_toNat_le
  refine ⟨_, next, ?_⟩
  rw [drop_entries, scan]
  exact if_congr here rfl rfl

/-- From every bucket not after that of the sample the loop arrives there. -/
theorem scan_stops (keeps : Keeps histogram samples) (few : samples.length < 2 ^ 64)
    (told : ∀ index, latencyNs ≤ bucketBoundsNs.get index ↔
      target.toNat ≤ samples.countP fun sample => sample ≤ bucketBoundsNs.get index)
    (index : Fin 21) (le : index ≤ bucketIndex latencyNs) (cum : UInt64)
    (summed : cum.toNat = samples.countP fun sample => (bucketIndex sample).val < index.val) :
    scan target cum ((histogram.buckets.toList.zip bucketBoundsNs.toList).drop index) =
      some (bucketBoundsNs.get (bucketIndex latencyNs)) := by
  induction left : (bucketIndex latencyNs).val - index.val generalizing index cum with
  | zero =>
    obtain ⟨next, -, turn⟩ := scan_step keeps few told index cum summed
    -- the scan has come to the bucket of the order statistic
    have same : index = bucketIndex latencyNs := Fin.ext (by omega)
    rw [turn, if_pos (Fin.le_of_eq same.symm), same]
  | succ left ih =>
    obtain ⟨next, summedNext, turn⟩ := scan_step keeps few told index cum summed
    have less : index.val + 1 < 21 := by omega
    rw [turn, if_neg (by omega)]
    refine ih ⟨index + 1, less⟩ (Fin.le_def.mpr ?_) next summedNext ?_
    · simp only
      omega
    · simp only
      omega

end Scan

section Correctness

variable {samples : List UInt64} {q : ℚ}

theorem rank_positive (samples : List UInt64) (q : ℚ) : 0 < rank samples q :=
  Nat.lt_of_lt_of_le Nat.one_pos (Nat.le_max_left 1 _)

theorem rank_le (some : samples ≠ []) (most : q ≤ 1) : rank samples q ≤ samples.length := by
  have ceiling : ⌈samples.length * q⌉ ≤ (samples.length : ℤ) := by
    rw [Int.ceil_le]
    have whole : (0 : ℚ) ≤ samples.length := Nat.cast_nonneg _
    calc
      samples.length * q ≤ samples.length * 1 := mul_le_mul_of_nonneg_left most whole
      _ = ((samples.length : ℤ) : ℚ) := by rw [mul_one, Int.cast_natCast]
  exact Nat.max_le.mpr ⟨List.length_pos_iff.mpr some, Int.toNat_le.mpr ceiling⟩

theorem rank_mono {higher : ℚ} (le : q ≤ higher) : rank samples q ≤ rank samples higher := by
  have whole : (0 : ℚ) ≤ samples.length := Nat.cast_nonneg _
  have scaled := Int.toNat_le_toNat (Int.ceil_le_ceil (mul_le_mul_of_nonneg_left le whole))
  exact max_le_max_left 1 scaled

/-- The word holds the rank, so the cast saturates nothing. -/
theorem targetRank_toNat {histogram : LatencyHistogram} (keeps : Keeps histogram samples)
    (few : samples.length < 2 ^ 64) (some : samples ≠ []) (most : q ≤ 1) :
    (histogram.targetRank q).toNat = rank samples q := by
  have within := rank_le some most
  have ceiling : ⌈samples.length * q⌉.toNat ≤ samples.length :=
    Nat.le_trans (Nat.le_max_right 1 _) within
  have ceil : (ceilU64 (histogram.count.toNat * q)).toNat = ⌈samples.length * q⌉.toNat := by
    rw [ceilU64, keeps.count, Nat.min_eq_left (by omega), UInt64.toNat_ofNat']
    exact Nat.mod_eq_of_lt (by omega)
  have one : (1 : UInt64).toNat = 1 := rfl
  simp only [targetRank, rank, UInt64.lt_iff_toNat_lt, ceil, one]
  split
  · rw [one]
    omega
  · rw [ceil]
    omega

/-- The quantile is the bound of the bucket that holds the sample of its rank. -/
theorem quantile_eq (few : samples.length < 2 ^ 64) (some' : samples ≠ []) (most : q ≤ 1) :
    ∃ latencyNs, orderStatistic (rank samples q) samples = some latencyNs ∧
      (recorded samples).bucketFor q = some (bucketBoundsNs.get (bucketIndex latencyNs)) ∧
      (recorded samples).quantile q = bucketBoundsNs.get (bucketIndex latencyNs) := by
  have keeps := keeps_recorded samples few
  have positive := rank_positive samples q
  obtain ⟨latencyNs, is⟩ := exists_orderStatistic positive (rank_le some' most)
  have found : (recorded samples).bucketFor q =
      some (bucketBoundsNs.get (bucketIndex latencyNs)) := by
    refine scan_stops keeps few (fun index => ?_) 0 (Fin.zero_le _) 0 ?_
    · rw [targetRank_toNat keeps few some' most]
      exact orderStatistic_le_iff positive is _
    · -- no index lies before the first
      exact (List.countP_eq_zero.mpr fun sample _ => by simp).symm
  have counted : (recorded samples).count ≠ 0 := by
    intro zero
    have none := keeps.count
    rw [zero] at none
    exact some' (List.length_eq_zero_iff.mp none.symm)
  refine ⟨latencyNs, is, found, ?_⟩
  rw [quantile, if_neg counted, found, Option.getD_some]

/-- What `quantile` answers when the sample of the rank is given. -/
structure Answers (samples : List UInt64) (q : ℚ) (latencyNs : UInt64) : Prop where
  statistic : orderStatistic (rank samples q) samples = some latencyNs
  least : LeastBound latencyNs ((recorded samples).quantile q)
  found : (recorded samples).bucketFor q = some ((recorded samples).quantile q)
  above : latencyNs ≤ (recorded samples).quantile q
  near : 500 < latencyNs → latencyNs ≤ 1000000000 →
    2 * ((recorded samples).quantile q).toNat < 5 * latencyNs.toNat

theorem exists_answers (few : samples.length < 2 ^ 64) (some : samples ≠ []) (most : q ≤ 1) :
    ∃ latencyNs, Answers samples q latencyNs := by
  obtain ⟨latencyNs, is, found, same⟩ := quantile_eq few some most
  refine ⟨latencyNs, is, ?_, ?_, ?_, ?_⟩
  · exact same ▸ leastBound_bucketIndex latencyNs
  · exact same ▸ found
  · exact same ▸ (bucketIndex_spec latencyNs).1
  · exact same ▸ bucketIndex_near latencyNs

theorem quantile_mono {higher : ℚ} (few : samples.length < 2 ^ 64) (le : q ≤ higher)
    (most : higher ≤ 1) :
    (recorded samples).quantile q ≤ (recorded samples).quantile higher := by
  by_cases some : samples = []
  · rw [some]
    exact UInt64.le_refl _
  · obtain ⟨latencyNs, is⟩ := exists_answers few some (le_trans le most)
    obtain ⟨other, isOther⟩ := exists_answers few some most
    -- the bound of the later sample is a bound of the earlier one
    have order := orderStatistic_mono (rank_positive samples q) (rank_mono le) is.statistic
      isOther.statistic
    exact is.least.2.2 _ isOther.least.1 (UInt64.le_trans order isOther.above)

theorem minNs_le_quantile (few : samples.length < 2 ^ 64) (most : q ≤ 1) :
    (recorded samples).summary.minNs ≤ (recorded samples).quantile q := by
  by_cases some : samples = []
  · rw [some]
    exact UInt64.le_refl _
  · obtain ⟨latencyNs, is⟩ := exists_answers few some most
    have least := (keeps_recorded samples few).min.2 _ (orderStatistic_mem is.statistic)
    simp only [summary]
    split
    · exact UInt64.le_iff_toNat_le.mpr (Nat.zero_le _)
    · exact UInt64.le_trans least is.above

/-- Fewer than 2^64 samples get the right quantiles. -/
theorem quantile_correct (samples : List UInt64) (few : samples.length < 2 ^ 64) :
    (samples ≠ [] → ∀ q, 0 ≤ q → q ≤ 1 → ∃ latencyNs, Answers samples q latencyNs) ∧
      (∀ q higher, 0 ≤ q → q ≤ higher → higher ≤ 1 →
        (recorded samples).quantile q ≤ (recorded samples).quantile higher) ∧
      (recorded samples).summary.minNs ≤ (recorded samples).summary.p50Ns ∧
      (recorded samples).summary.p50Ns ≤ (recorded samples).summary.p90Ns ∧
      (recorded samples).summary.p90Ns ≤ (recorded samples).summary.p99Ns ∧
      (recorded samples).summary.p99Ns ≤ (recorded samples).summary.p999Ns := by
  refine ⟨fun some q _ most => exists_answers few some most,
    fun q higher _ le most => quantile_mono few le most, ?_, ?_, ?_, ?_⟩
  · exact minNs_le_quantile few (by norm_num)
  · exact quantile_mono few (by norm_num) (by norm_num)
  · exact quantile_mono few (by norm_num) (by norm_num)
  · exact quantile_mono few (by norm_num) (by norm_num)

theorem quantile_correct_edge :
    ∃ latencyNs, Answers [500, 501, 1000] (1 / 2) latencyNs :=
  (quantile_correct [500, 501, 1000] (by decide)).1 (List.cons_ne_nil _ _) (1 / 2)
    (by norm_num) (by norm_num)

theorem recorded_count (samples : List UInt64) :
    (recorded samples).count = .ofNat samples.length := by
  induction samples using List.reverseRecOn with
  | nil => rfl
  | append_singleton samples latencyNs ih =>
    rw [recorded, List.foldl_append, List.length_append, UInt64.ofNat_add, ← ih]
    rfl

/-- After 2^64 samples the count is zero again, and the quantile is no bound at all. -/
theorem quantile_wraps :
    List.replicate (2 ^ 64) (0 : UInt64) ≠ [] ∧ (0 : ℚ) ≤ 1 / 2 ∧ (1 / 2 : ℚ) ≤ 1 ∧
      ¬ ∃ latencyNs, Answers (List.replicate (2 ^ 64) 0) (1 / 2) latencyNs := by
  refine ⟨?_, by norm_num, by norm_num, ?_⟩
  · rw [Ne, List.replicate_eq_nil_iff]
    exact Nat.ne_of_gt (Nat.two_pow_pos 64)
  · rintro ⟨latencyNs, is⟩
    have count : (recorded (List.replicate (2 ^ 64) 0)).count = 0 := by
      rw [recorded_count, List.length_replicate]
      rfl
    have zero : (recorded (List.replicate (2 ^ 64) 0)).quantile (1 / 2) = 0 := by
      rw [quantile, if_pos count]
    have bound := is.least.1
    rw [zero] at bound
    exact absurd bound (by decide)

end Correctness

end TradingPipeline.Shmbus.LatencyHistogram
