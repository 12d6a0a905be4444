import TradingPipeline.Scripts.Pinning
import TradingPipeline.Shmbus.CpuRender

/-! Where the threads of the two scenarios of `run-bench.sh` run.

The script hands its CPUs on as texts: the engine reads the list of its workers and, in the second
scenario, `SHARED_CPUS` for its noise threads. Its memory is granted.
-/

set_option autoImplicit false

namespace TradingPipeline.Scripts

open Foundation Shmbus
open Foundation.Shell (Text)

section Engine

/-- The CPUs that `spawn_noise` pins its threads to. -/
def spawnNoise (nThreads : Nat) (pinCpus : CpuVec) : List (Option UInt64) :=
  (List.range nThreads).map fun i =>
    if pinCpus.items = [] then none else pinCpus.items[i % pinCpus.items.length]?

/-- The CPUs that `run_with_workers` pins its strategy threads to. -/
def workerPins (workers : Nat) (workerCpus : CpuVec) : List (Option UInt64) :=
  (List.range workers).map fun w =>
    (workerCpus.items[w % max workerCpus.items.length 1]?).filter fun _ => workerCpus.items ≠ []

theorem spawnNoise_eq (nThreads : Nat) (pinCpus : CpuVec) :
    spawnNoise nThreads pinCpus = RoundRobin.deal pinCpus.items nThreads := by
  unfold spawnNoise RoundRobin.deal
  apply List.map_congr_left
  intro i _
  unfold RoundRobin.place
  split
  · next nothing => rw [nothing, List.getElem?_nil]
  · rfl

theorem workerPins_eq (workers : Nat) (workerCpus : CpuVec) :
    workerPins workers workerCpus = RoundRobin.deal workerCpus.items workers := by
  unfold workerPins RoundRobin.deal
  apply List.map_congr_left
  intro w _
  unfold RoundRobin.place
  by_cases nothing : workerCpus.items = []
  · rw [nothing, List.getElem?_nil, List.getElem?_nil]
    rfl
  · have some' : 1 ≤ workerCpus.items.length := List.length_pos_iff.mpr nothing
    rw [Nat.max_eq_left some']
    cases workerCpus.items[w % workerCpus.items.length]? with
    | none => rfl
    | some cpu => exact if_pos (decide_eq_true nothing)

end Engine

section Scenario

/-- The CPUs of the processes and of the engine's threads. -/
structure Placement where
  exchange : Nat
  feedhandler : Nat
  engine : Nat
  workers : List (Option UInt64)
  noise : List (Option UInt64)

/-- `run_scenario`, and what the engine makes of its arguments. -/
def runScenario (pins : Pins) (workers noiseN : Nat) (sharedCpus : Text) :
    Except CpuListError Placement := do
  let workerCpus ← parseCpuList .ample (commaJoin pins.workers)
  let noiseCpus ← parseCpuList .ample (if noiseN > 0 then sharedCpus else [])
  .ok ⟨pins.exchange, pins.feedhandler, pins.engine, workerPins workers workerCpus,
    if noiseN > 0 then spawnNoise noiseN noiseCpus else []⟩

namespace Placement

/-- Exchange, feedhandler, engine and workers. -/
def pipeline (placement : Placement) : List (Option Nat) :=
  [some placement.exchange, some placement.feedhandler, some placement.engine] ++
    placement.workers.map (Option.map UInt64.toNat)

def noiseThreads (placement : Placement) : List (Option Nat) :=
  placement.noise.map (Option.map UInt64.toNat)

end Placement
end Scenario

section Reading

variable {cpus : List Nat}

theorem parts_toDigits (small : ∀ cpu ∈ cpus, cpu < 2 ^ 64) :
    List.Forall₂ IsPart (cpus.map (Nat.toDigits 10)) (cpus.map fun cpu => [UInt64.ofNat cpu]) := by
  rw [List.forall₂_map_left_iff, List.forall₂_map_right_iff, List.forall₂_same]
  intro cpu mem
  have number : IsNumber (Nat.toDigits 10 cpu) (.ofNat cpu) := by
    have shown := isNumber_usizeToString (.ofNat cpu)
    unfold usizeToString at shown
    rwa [UInt64.toNat_ofNat_of_lt' (small cpu mem)] at shown
  exact .number number.padded

theorem parse_commaJoin (small : ∀ cpu ∈ cpus, cpu < 2 ^ 64) :
    ∃ vec : CpuVec, parseCpuList .ample (commaJoin cpus) = .ok vec ∧ vec.items = cpus.map .ofNat := by
  apply map_eq_ok.mp
  rw [parseCpuList_eq_ok]
  by_cases nothing : cpus = []
  · subst nothing
    exact ⟨[[]], .part List.not_mem_nil (.blank fun _ mem => absurd mem List.not_mem_nil),
      grants_ample, rfl⟩
  · refine ⟨cpus.map fun cpu => [.ofNat cpu], isCpuList_iff.mpr ?_, grants_ample, ?_⟩
    · have pieces : (commaJoin cpus).splitOn ',' = cpus.map (Nat.toDigits 10) := by
        refine List.splitOn_intercalate ',' (fun piece mem => ?_) (by simpa using nothing)
        obtain ⟨cpu, -, rfl⟩ := List.mem_map.mp mem
        exact (Numeral.ofNat cpu).fresh rfl
      rw [pieces]
      exact parts_toDigits small
    · exact (List.map_eq_flatMap ..).symm

theorem deal_toNat (small : ∀ cpu ∈ cpus, cpu < 2 ^ 64) (tasks : Nat) :
    (RoundRobin.deal (cpus.map UInt64.ofNat) tasks).map (Option.map UInt64.toNat) =
      RoundRobin.deal cpus tasks := by
  unfold RoundRobin.deal
  rw [List.map_map]
  apply List.map_congr_left
  intro turn _
  rw [Function.comp_apply, ← RoundRobin.place_map, map_toNat_ofNat small]

end Reading

section Plan

variable {arr : List Nat} {workers : Nat}

variable (workers) in
theorem pickPinning_eq (some' : arr ≠ []) : ∃ pins, pickPinning arr workers = some pins ∧
    pins.workers.length = workers ∧ (∀ cpu ∈ pins.workers, cpu ∈ arr) ∧
    [some pins.exchange, some pins.feedhandler, some pins.engine] ++ pins.workers.map some =
      RoundRobin.deal arr (3 + workers) := by
  have length : 0 < arr.length := List.length_pos_iff.mpr some'
  have role (role : Nat) : some (arr.getD (role % arr.length) 0) = RoundRobin.place arr role := by
    have less := Nat.mod_lt role length
    rw [RoundRobin.place, List.getD_eq_getElem?_getD, List.getElem?_eq_getElem less,
      Option.getD_some]
  refine ⟨_, if_neg (Nat.ne_of_gt length), by simp, fun cpu mem => ?_, ?_⟩
  · obtain ⟨w, -, rfl⟩ := List.mem_map.mp mem
    exact RoundRobin.mem_of_place (role (3 + w)).symm
  · have front : RoundRobin.deal arr 3 =
        [RoundRobin.place arr 0, RoundRobin.place arr 1, RoundRobin.place arr 2] := rfl
    rw [RoundRobin.deal_add, front, ← role 0, ← role 1, ← role 2, Nat.zero_mod, List.map_map]
    refine congrArg _ (List.map_congr_left fun w _ => ?_)
    exact role (3 + w)

theorem runScenario_eq {shared : List Nat} (some' : arr ≠ []) (small : ∀ cpu ∈ arr, cpu < 2 ^ 64)
    (smallShared : ∀ cpu ∈ shared, cpu < 2 ^ 64) (noiseN : Nat) :
    ∃ pins placement, pickPinning arr workers = some pins ∧
      runScenario pins workers noiseN (commaJoin shared) = .ok placement ∧
      placement.pipeline = RoundRobin.deal arr (3 + workers) ∧
      placement.noiseThreads = RoundRobin.deal shared noiseN := by
  obtain ⟨pins, picked, length, inside, roles⟩ := pickPinning_eq workers some'
  have smallWorkers : ∀ cpu ∈ pins.workers, cpu < 2 ^ 64 := fun cpu mem => small cpu (inside cpu mem)
  obtain ⟨vec, read, items⟩ := parse_commaJoin smallWorkers
  have asked : ∃ cpus : List Nat, (if noiseN > 0 then commaJoin shared else []) = commaJoin cpus ∧
      (∀ cpu ∈ cpus, cpu < 2 ^ 64) ∧ (noiseN > 0 → cpus = shared) := by
    by_cases noisy : noiseN > 0
    · exact ⟨shared, if_pos noisy, smallShared, fun _ => rfl⟩
    · exact ⟨[], if_neg noisy, fun _ mem => absurd mem List.not_mem_nil,
        fun some' => absurd some' noisy⟩
  obtain ⟨cpus, text, smallCpus, same⟩ := asked
  obtain ⟨noise, readNoise, noiseItems⟩ := parse_commaJoin smallCpus
  refine ⟨pins, ⟨pins.exchange, pins.feedhandler, pins.engine, workerPins workers vec,
    if noiseN > 0 then spawnNoise noiseN noise else []⟩, picked, ?_, ?_, ?_⟩
  · unfold runScenario
    rw [read, text, readNoise]
    rfl
  · -- there are as many CPUs as workers, so each worker has its own
    rw [← roles, Placement.pipeline, workerPins_eq, items, deal_toNat smallWorkers,
      RoundRobin.deal_of_le (Nat.le_of_eq length.symm), ← length, List.take_length]
  · unfold Placement.noiseThreads
    by_cases noisy : noiseN > 0
    · rw [if_pos noisy, spawnNoise_eq, noiseItems, deal_toNat smallCpus, same noisy]
    · obtain rfl : noiseN = 0 := by omega
      rfl

/-- What the two scenarios are compared for. -/
structure Separated (isoCpus sharedCpus : List Nat) (workers : Nat) (iso noisy : Placement) :
    Prop where
  /-- Every thread of the first scenario is pinned to a CPU that is meant for it. -/
  iso_pinned : ∀ thread ∈ iso.pipeline, ∃ cpu ∈ isoCpus, thread = some cpu
  quiet : iso.noiseThreads = []
  noisy_pinned : ∀ thread ∈ noisy.pipeline ++ noisy.noiseThreads, ∃ cpu ∈ sharedCpus,
    thread = some cpu
  /-- No CPU is used in both. -/
  apart : ∀ thread ∈ iso.pipeline, thread ∉ noisy.pipeline ++ noisy.noiseThreads
  /-- With CPUs enough no two threads share one. -/
  iso_alone : 3 + workers ≤ isoCpus.length → iso.pipeline.Nodup
  noisy_alone : 3 + workers ≤ sharedCpus.length → noisy.pipeline.Nodup
  /-- The noise is spread evenly. -/
  even : ∀ cpu ∈ sharedCpus, ∀ other ∈ sharedCpus,
    noisy.noiseThreads.count (some cpu) ≤ noisy.noiseThreads.count (some other) + 1

theorem deal_pinned {cpus : List Nat} (some' : cpus ≠ []) {tasks : Nat} {thread : Option Nat}
    (mem : thread ∈ RoundRobin.deal cpus tasks) : ∃ cpu ∈ cpus, thread = some cpu := by
  obtain ⟨turn, -, rfl⟩ := List.mem_map.mp mem
  exact RoundRobin.exists_place some' turn

theorem separated_of_deal {isoCpus sharedCpus : List Nat} {noiseN : Nat} {iso noisy : Placement}
    (someIso : isoCpus ≠ []) (someShared : sharedCpus ≠ [])
    (isoDistinct : isoCpus.Nodup) (sharedDistinct : sharedCpus.Nodup)
    (disjoint : ∀ cpu ∈ sharedCpus, cpu ∉ isoCpus)
    (isoPipeline : iso.pipeline = RoundRobin.deal isoCpus (3 + workers))
    (isoNoise : iso.noiseThreads = RoundRobin.deal isoCpus 0)
    (pipeline : noisy.pipeline = RoundRobin.deal sharedCpus (3 + workers))
    (noise : noisy.noiseThreads = RoundRobin.deal sharedCpus noiseN) :
    Separated isoCpus sharedCpus workers iso noisy := by
  have isoPinned : ∀ thread ∈ iso.pipeline, ∃ cpu ∈ isoCpus, thread = some cpu := by
    intro thread mem
    rw [isoPipeline] at mem
    exact deal_pinned someIso mem
  have noisyPinned : ∀ thread ∈ noisy.pipeline ++ noisy.noiseThreads, ∃ cpu ∈ sharedCpus,
      thread = some cpu := by
    intro thread mem
    rw [pipeline, noise] at mem
    rcases List.mem_append.mp mem with mem | mem
    · exact deal_pinned someShared mem
    · exact deal_pinned someShared mem
  refine ⟨isoPinned, isoNoise, noisyPinned, ?_, fun enough => ?_, fun enough => ?_, ?_⟩
  · intro thread mem also
    obtain ⟨cpu, isIso, rfl⟩ := isoPinned thread mem
    obtain ⟨other, isShared, same⟩ := noisyPinned _ also
    cases same
    exact disjoint cpu isShared isIso
  · exact isoPipeline ▸ RoundRobin.deal_nodup isoDistinct enough
  · exact pipeline ▸ RoundRobin.deal_nodup sharedDistinct enough
  · intro cpu mem other memOther
    rw [noise]
    exact RoundRobin.count_deal_le sharedDistinct mem memOther

end Plan

section Scenarios

variable {limit : Option Nat} {isolated online : KernelList} {asked : Option KernelList}

theorem intendedIso_ne_nil (left : intendedShared isolated online asked ≠ []) :
    intendedIso isolated online asked ≠ [] := by
  intro nothing
  have none : online.cpus = [] := by
    unfold intendedIso at nothing
    split at nothing
    · contradiction
    · split at nothing
      · contradiction
      · split at nothing
        · exact nothing
        · next many =>
          rw [List.drop_eq_nil_iff] at nothing
          omega
  rw [intendedShared, none] at left
  exact left rfl

/-- Either no online CPU is left for the second scenario and the script says so, or the threads of
the two scenarios run apart. -/
theorem scenarios_apart (readable : Readable limit isolated online asked) (workers noiseN : Nat) :
    (∀ cpu ∈ online.cpus, cpu ∈ intendedIso isolated online asked) ∧
      benchPlan limit isolated.file online.file (asked.map fun list => list.text) none workers =
        .error .covered ∨
    ∃ plan isoPins sharedPins iso noisy,
      benchPlan limit isolated.file online.file (asked.map fun list => list.text) none workers =
        .ok plan ∧
      plan.isoPin = some isoPins ∧ plan.sharedPin = some sharedPins ∧
      runScenario isoPins workers 0 plan.sharedCpus = .ok iso ∧
      runScenario sharedPins workers noiseN plan.sharedCpus = .ok noisy ∧
      Separated (intendedIso isolated online asked) (intendedShared isolated online asked)
        workers iso noisy := by
  obtain ⟨chosen, -, cpus, -⟩ := isoCpus_eq readable
  have part : (intendedShared isolated online asked).Sublist online.cpus := List.filter_sublist
  rw [benchPlan_eq readable]
  by_cases covered : intendedShared isolated online asked = []
  · refine .inl ⟨fun cpu mem => ?_, if_pos covered⟩
    have none := List.filter_eq_nil_iff.mp covered cpu mem
    simpa using none
  · have someIso := intendedIso_ne_nil covered
    have wide {cpu : Nat} (small : cpu < 2 ^ 31) : cpu < 2 ^ 64 := small.trans (by decide)
    have smallIso : ∀ cpu ∈ intendedIso isolated online asked, cpu < 2 ^ 64 :=
      cpus ▸ fun cpu mem => wide (chosen.small cpu mem)
    have smallShared : ∀ cpu ∈ intendedShared isolated online asked, cpu < 2 ^ 64 :=
      fun cpu mem => wide (online.small cpu (part.mem mem))
    obtain ⟨isoPins, iso, picked, ran, pipeline, noise⟩ :=
      runScenario_eq someIso smallIso smallShared 0
    obtain ⟨sharedPins, noisy, pickedShared, ranShared, pipelineShared, noiseShared⟩ :=
      runScenario_eq covered smallShared smallShared noiseN
    refine .inr ⟨_, isoPins, sharedPins, iso, noisy, if_neg covered, picked, pickedShared, ran,
      ranShared, ?_⟩
    refine separated_of_deal someIso covered (cpus ▸ chosen.cpus_nodup)
      (online.cpus_nodup.sublist part) (fun cpu mem => ?_) pipeline noise pipelineShared noiseShared
    simpa using List.of_mem_filter mem

/-- The CPUs of a host from one on. -/
def cpusFrom (first count : Nat) (small : count ≤ 2 ^ 31) : KernelList :=
  .ofCpus ((List.range count).drop first) List.pairwise_lt_range.drop fun _ mem =>
    (List.mem_range.mp (List.mem_of_mem_drop mem)).trans_le small

theorem eight_le : 8 ≤ 2 ^ 31 := by decide

theorem readable_cpusFrom {first second count : Nat} (small : count ≤ 2 ^ 31)
    (settable : ∀ most ∈ limit, 640 ≤ most) :
    Readable limit (cpusFrom first count small) (cpusFrom second count small) none where
  settable := settable
  isolated := singles_short settable fun _ mem =>
    (List.mem_range.mp (List.mem_of_mem_drop mem)).trans_le small
  online := singles_short settable fun _ mem =>
    (List.mem_range.mp (List.mem_of_mem_drop mem)).trans_le small
  asked := fun _ none => absurd none (by simp)

theorem scenarios_apart_eight : ∃ plan isoPins sharedPins iso noisy,
    benchPlan (some 4300) (cpusFrom 4 8 eight_le).file (cpusFrom 0 8 eight_le).file none none 2 =
      .ok plan ∧
    plan.isoPin = some isoPins ∧ plan.sharedPin = some sharedPins ∧
    runScenario isoPins 2 0 plan.sharedCpus = .ok iso ∧
    runScenario sharedPins 2 4 plan.sharedCpus = .ok noisy ∧
    Separated [4, 5, 6, 7] [0, 1, 2, 3] 2 iso noisy := by
  have readable : Readable (some 4300) (cpusFrom 4 8 eight_le) (cpusFrom 0 8 eight_le) none :=
    readable_cpusFrom eight_le (by decide)
  rcases scenarios_apart readable 2 4 with ⟨covers, -⟩ | planned
  · exact absurd (covers 0 (by decide)) (by decide)
  · exact planned

/-- With nothing isolated and nothing asked for, the script needs four CPUs: fewer, of which it only
warns, are all taken for the first scenario. -/
theorem refuses_iff (readable : Readable limit isolated online none) (none' : isolated.cpus = [])
    (workers : Nat) :
    benchPlan limit isolated.file online.file none none workers = .error .covered ↔
      online.cpus.length < 4 := by
  have intended : intendedIso isolated online none =
      if online.cpus.length < 4 then online.cpus
      else online.cpus.drop (online.cpus.length / 2) := by
    simp only [intendedIso, Option.map_none, none', ne_eq, not_true, if_false]
  have plan := benchPlan_eq readable workers
  rw [Option.map_none] at plan
  rw [plan]
  constructor
  · intro refused
    by_contra many
    rw [if_neg many] at intended
    obtain ⟨first, rest, cons⟩ : ∃ first rest, online.cpus = first :: rest := by
      apply List.exists_cons_of_ne_nil
      intro nothing
      rw [nothing] at many
      exact many (by decide)
    have fresh : first ∉ rest := (List.nodup_cons.mp (cons ▸ online.cpus_nodup)).1
    -- the lowest CPU is not in the upper half
    have lower : first ∉ online.cpus.drop (online.cpus.length / 2) := by
      obtain ⟨half, is⟩ : ∃ half, online.cpus.length / 2 = half + 1 :=
        ⟨online.cpus.length / 2 - 1, by omega⟩
      rw [is, cons, List.drop_succ_cons]
      exact fun mem => fresh (List.mem_of_mem_drop mem)
    have left : first ∈ intendedShared isolated online none := by
      refine List.mem_filter.mpr ⟨cons ▸ List.mem_cons_self, ?_⟩
      rw [intended]
      exact decide_eq_true lower
    rw [if_neg (List.ne_nil_of_mem left)] at refused
    contradiction
  · intro few
    rw [if_pos few] at intended
    refine if_pos (List.filter_eq_nil_iff.mpr fun cpu mem => ?_)
    rw [intended]
    simpa using mem

theorem three_le : 3 ≤ 2 ^ 31 := by decide

theorem refuses_iff_three :
    benchPlan (some 4300) (cpusFrom 3 3 three_le).file (cpusFrom 0 3 three_le).file none none 2 =
      .error .covered := by
  have readable : Readable (some 4300) (cpusFrom 3 3 three_le) (cpusFrom 0 3 three_le) none :=
    readable_cpusFrom three_le (by decide)
  exact (refuses_iff readable rfl 2).mpr (by decide)

end Scenarios

end TradingPipeline.Scripts
