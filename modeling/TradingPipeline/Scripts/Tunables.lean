import Mathlib.Data.List.Nodup
import TradingPipeline.Foundation.Shell

/-! The files that `host-prep.sh` writes to, and the names of their snapshots. -/

set_option autoImplicit false

namespace TradingPipeline.Scripts

open Foundation Shell

/-- The number in the name of a directory such as `cpu10`. -/
structure Index where
  text : Text
  nonempty : text ≠ []
  digits : ∀ char ∈ text, char.isDigit = true
  deriving DecidableEq

/-- The tunables with a fixed path. -/
inductive Knob where
  | smtControl
  | noTurbo
  | cpufreqBoost
  | amdPstateStatus
  | thpEnabled
  | thpDefrag
  | khugepagedDefrag
  | swappiness
  | zoneReclaimMode
  | statInterval
  | nrHugepages
  | nmiWatchdog
  | schedMigrationCostNs
  | schedMinGranularityNs
  | schedWakeupGranularityNs
  | rmemMax
  | rmemDefault
  | wmemMax
  | wmemDefault
  | netdevMaxBacklog
  | netdevBudget
  | defaultSmpAffinity
  deriving DecidableEq

def Knob.path : Knob → String
  | .smtControl => "/sys/devices/system/cpu/smt/control"
  | .noTurbo => "/sys/devices/system/cpu/intel_pstate/no_turbo"
  | .cpufreqBoost => "/sys/devices/system/cpu/cpufreq/boost"
  | .amdPstateStatus => "/sys/devices/system/cpu/amd_pstate/status"
  | .thpEnabled => "/sys/kernel/mm/transparent_hugepage/enabled"
  | .thpDefrag => "/sys/kernel/mm/transparent_hugepage/defrag"
  | .khugepagedDefrag => "/sys/kernel/mm/transparent_hugepage/khugepaged/defrag"
  | .swappiness => "/proc/sys/vm/swappiness"
  | .zoneReclaimMode => "/proc/sys/vm/zone_reclaim_mode"
  | .statInterval => "/proc/sys/vm/stat_interval"
  | .nrHugepages => "/proc/sys/vm/nr_hugepages"
  | .nmiWatchdog => "/proc/sys/kernel/nmi_watchdog"
  | .schedMigrationCostNs => "/proc/sys/kernel/sched_migration_cost_ns"
  | .schedMinGranularityNs => "/proc/sys/kernel/sched_min_granularity_ns"
  | .schedWakeupGranularityNs => "/proc/sys/kernel/sched_wakeup_granularity_ns"
  | .rmemMax => "/proc/sys/net/core/rmem_max"
  | .rmemDefault => "/proc/sys/net/core/rmem_default"
  | .wmemMax => "/proc/sys/net/core/wmem_max"
  | .wmemDefault => "/proc/sys/net/core/wmem_default"
  | .netdevMaxBacklog => "/proc/sys/net/core/netdev_max_backlog"
  | .netdevBudget => "/proc/sys/net/core/netdev_budget"
  | .defaultSmpAffinity => "/proc/irq/default_smp_affinity"

inductive Tunable where
  | fixed (knob : Knob)
  | scalingGovernor (cpu : Index)
  | cstateDisable (cpu state : Index)
  | smpAffinity (irq : Index)
  deriving DecidableEq

def Tunable.path : Tunable → Text
  | .fixed knob => knob.path.toList
  | .scalingGovernor cpu =>
    "/sys/devices/system/cpu/cpu".toList ++ (cpu.text ++ "/cpufreq/scaling_governor".toList)
  | .cstateDisable cpu state =>
    -- the glob of the loop ends in a slash, and another one is put behind it
    "/sys/devices/system/cpu/cpu".toList ++ (cpu.text ++ ("/cpuidle/state".toList ++
      (state.text ++ "//disable".toList)))
  | .smpAffinity irq => "/proc/irq/".toList ++ (irq.text ++ "/smp_affinity".toList)

/-- `sed 's|/|_|g'`. -/
def underscored (path : Text) : Text := path.map fun char => if char = '/' then '_' else char

/-- The name of a tunable's snapshot. -/
def Tunable.key (tunable : Tunable) : Text := underscored tunable.path

section Keys

theorem Index.underscored (index : Index) : Scripts.underscored index.text = index.text := by
  rw [Scripts.underscored, List.map_congr_left (g := id), List.map_id]
  intro char member
  have digit := index.digits char member
  have other : char ≠ '/' := by
    intro same
    rw [same] at digit
    contradiction
  rw [if_neg other]
  rfl

def Knob.all : List Knob :=
  [.smtControl, .noTurbo, .cpufreqBoost, .amdPstateStatus, .thpEnabled, .thpDefrag,
    .khugepagedDefrag, .swappiness, .zoneReclaimMode, .statInterval, .nrHugepages, .nmiWatchdog,
    .schedMigrationCostNs, .schedMinGranularityNs, .schedWakeupGranularityNs, .rmemMax,
    .rmemDefault, .wmemMax, .wmemDefault, .netdevMaxBacklog, .netdevBudget, .defaultSmpAffinity]

theorem Knob.mem_all (knob : Knob) : knob ∈ Knob.all := by
  cases knob <;> decide

theorem fixed_keys_nodup : (Knob.all.map fun knob => Scripts.underscored knob.path.toList).Nodup := by
  decide +kernel

/-- No digit stands in a fixed key, so it is not the key of a numbered tunable. -/
theorem fixed_no_digit : ∀ knob ∈ Knob.all,
    ∀ char ∈ Scripts.underscored knob.path.toList, char.isDigit = false := by
  have checked : (Knob.all.all fun knob =>
      (Scripts.underscored knob.path.toList).all fun char => !char.isDigit) = true := by
    decide +kernel
  intro knob listed char member
  have plain := List.all_eq_true.mp (List.all_eq_true.mp checked knob listed) char member
  simpa using plain

theorem Index.takeWhile_append (index : Index) {mark : Char} (rest : Text)
    (ends : mark.isDigit = false) :
    (index.text ++ mark :: rest).takeWhile Char.isDigit = index.text := by
  rw [List.takeWhile_append_of_pos index.digits, List.takeWhile_cons_of_neg (by rw [ends]; decide),
    List.append_nil]

theorem Index.append_inj {first second : Index} {rest tail : Text} {mark other : Char}
    (same : first.text ++ mark :: rest = second.text ++ other :: tail)
    (ends : mark.isDigit = false) (stops : other.isDigit = false) :
    first = second ∧ mark :: rest = other :: tail := by
  have text : first.text = second.text := by
    rw [← first.takeWhile_append rest ends, same, second.takeWhile_append tail stops]
  rw [text, List.append_cancel_left_eq] at same
  obtain ⟨_, _, _⟩ := first
  subst text
  exact ⟨rfl, same⟩

theorem underscored_append (front rest : Text) : Scripts.underscored (front ++ rest) =
    Scripts.underscored front ++ Scripts.underscored rest :=
  List.map_append

theorem key_scalingGovernor (cpu : Index) : (Tunable.scalingGovernor cpu).key =
    "_sys_devices_system_cpu_cpu".toList ++ (cpu.text ++ '_' :: "cpufreq_scaling_governor".toList) := by
  have front : Scripts.underscored "/sys/devices/system/cpu/cpu".toList =
      "_sys_devices_system_cpu_cpu".toList := by decide +kernel
  have rest : Scripts.underscored "/cpufreq/scaling_governor".toList =
      '_' :: "cpufreq_scaling_governor".toList := by decide +kernel
  have key : (Tunable.scalingGovernor cpu).key = Scripts.underscored ("/sys/devices/system/cpu/cpu".toList ++
      (cpu.text ++ "/cpufreq/scaling_governor".toList)) := rfl
  simp only [key, underscored_append, cpu.underscored, front, rest]

theorem key_cstateDisable (cpu state : Index) : (Tunable.cstateDisable cpu state).key =
    "_sys_devices_system_cpu_cpu".toList ++ (cpu.text ++ '_' :: ("cpuidle_state".toList ++
      (state.text ++ '_' :: "_disable".toList))) := by
  have front : Scripts.underscored "/sys/devices/system/cpu/cpu".toList =
      "_sys_devices_system_cpu_cpu".toList := by decide +kernel
  have middle : Scripts.underscored "/cpuidle/state".toList = '_' :: "cpuidle_state".toList := by
    decide +kernel
  have rest : Scripts.underscored "//disable".toList = '_' :: "_disable".toList := by decide +kernel
  have key : (Tunable.cstateDisable cpu state).key = Scripts.underscored
      ("/sys/devices/system/cpu/cpu".toList ++ (cpu.text ++ ("/cpuidle/state".toList ++
        (state.text ++ "//disable".toList)))) := rfl
  simp only [key, underscored_append, cpu.underscored, state.underscored, front, middle, rest,
    List.cons_append]

theorem key_smpAffinity (irq : Index) : (Tunable.smpAffinity irq).key =
    "_proc_irq_".toList ++ (irq.text ++ '_' :: "smp_affinity".toList) := by
  have front : Scripts.underscored "/proc/irq/".toList = "_proc_irq_".toList := by decide +kernel
  have rest : Scripts.underscored "/smp_affinity".toList = '_' :: "smp_affinity".toList := by
    decide +kernel
  have key : (Tunable.smpAffinity irq).key = Scripts.underscored
      ("/proc/irq/".toList ++ (irq.text ++ "/smp_affinity".toList)) := rfl
  simp only [key, underscored_append, irq.underscored, front, rest]

theorem numbered_ne_fixed (knob : Knob) (index : Index) {front rest : Text} :
    (Tunable.fixed knob).key ≠ front ++ (index.text ++ rest) := by
  intro same
  obtain ⟨digit, member⟩ := List.exists_mem_of_ne_nil _ index.nonempty
  have absent := fixed_no_digit knob knob.mem_all digit
    (by
      rw [show Scripts.underscored knob.path.toList = _ from same]
      exact List.mem_append_right _ (List.mem_append_left _ member))
  rw [index.digits digit member] at absent
  contradiction

theorem key_injective : Function.Injective Tunable.key := by
  intro first second same
  -- two keys with numbers differ in a fixed part, or the numbers are the same
  cases first with
  | fixed knob =>
    cases second with
    | fixed other =>
      have equal := List.inj_on_of_nodup_map fixed_keys_nodup knob.mem_all other.mem_all same
      rw [equal]
    | scalingGovernor cpu =>
      rw [key_scalingGovernor] at same
      exact absurd same (numbered_ne_fixed knob cpu)
    | cstateDisable cpu state =>
      rw [key_cstateDisable] at same
      exact absurd same (numbered_ne_fixed knob cpu)
    | smpAffinity irq =>
      rw [key_smpAffinity] at same
      exact absurd same (numbered_ne_fixed knob irq)
  | scalingGovernor cpu =>
    rw [key_scalingGovernor] at same
    cases second with
    | fixed knob => exact absurd same.symm (numbered_ne_fixed knob cpu)
    | scalingGovernor other =>
      rw [key_scalingGovernor, List.append_cancel_left_eq] at same
      obtain ⟨rfl, _⟩ := Index.append_inj same rfl rfl
      rfl
    | cstateDisable other state =>
      rw [key_cstateDisable, List.append_cancel_left_eq] at same
      have rest := (Index.append_inj same rfl rfl).2
      simp at rest
    | smpAffinity irq =>
      rw [key_smpAffinity] at same
      simp at same
  | cstateDisable cpu state =>
    rw [key_cstateDisable] at same
    cases second with
    | fixed knob => exact absurd same.symm (numbered_ne_fixed knob cpu)
    | scalingGovernor other =>
      rw [key_scalingGovernor, List.append_cancel_left_eq] at same
      have rest := (Index.append_inj same rfl rfl).2
      simp at rest
    | cstateDisable other place =>
      rw [key_cstateDisable, List.append_cancel_left_eq] at same
      obtain ⟨rfl, rest⟩ := Index.append_inj same rfl rfl
      rw [List.cons.injEq, List.append_cancel_left_eq] at rest
      obtain ⟨rfl, _⟩ := Index.append_inj rest.2 rfl rfl
      rfl
    | smpAffinity irq =>
      rw [key_smpAffinity] at same
      simp at same
  | smpAffinity irq =>
    rw [key_smpAffinity] at same
    cases second with
    | fixed knob => exact absurd same.symm (numbered_ne_fixed knob irq)
    | scalingGovernor cpu =>
      rw [key_scalingGovernor] at same
      simp at same
    | cstateDisable cpu state =>
      rw [key_cstateDisable] at same
      simp at same
    | smpAffinity other =>
      rw [key_smpAffinity, List.append_cancel_left_eq] at same
      obtain ⟨rfl, _⟩ := Index.append_inj same rfl rfl
      rfl

end Keys

end TradingPipeline.Scripts
