import Mathlib.Data.Finset.Sort
import TradingPipeline.Foundation.RoundRobin
import TradingPipeline.Foundation.Shell
import TradingPipeline.Scripts.IrqMask
import TradingPipeline.Scripts.ReadersAgree

/-! The CPUs that `run-bench.sh` chooses for its two scenarios.

An array of bash holds the numbers that `expand_list` prints. Memory is granted: a list of CPUs is
small.
-/

set_option autoImplicit false

namespace TradingPipeline.Scripts

open Foundation
open Foundation.Shell (Text)

section Script

/-- `read_cpu_file`, on the content of the file. -/
def readCpuFile (content : Text) : Text := content.filter (· ≠ '\n')

/-- `${value:-default}`, with `none` for a variable that is not set. -/
def orDefault (value : Option Text) (default : Text) : Text :=
  if value.getD [] = [] then default else value.getD []

/-- `IFS=,; echo "${cpus[*]}"`, which is what `','.join` prints, too. -/
def commaJoin (cpus : List Nat) : Text := [','].intercalate (cpus.map (Nat.toDigits 10))

inductive Refusal where
  | python (error : Python.Error)
  /-- `SHARED_CPUS came out empty`. -/
  | covered
  deriving DecidableEq

/-- `ISO_CPUS`, after the defaults. -/
def isoCpus (limit : Option Nat) (isoEnv : Option Text) (isolatedFile onlineFile : Text) :
    Except Python.Error Text :=
  let iso := orDefault isoEnv (readCpuFile isolatedFile)
  if iso = [] then do
    let onlineArr ← expandList limit .ample (readCpuFile onlineFile)
    if onlineArr.length < 4 then .ok (commaJoin onlineArr)
    else .ok (commaJoin (onlineArr.drop (onlineArr.length / 2)))
  else .ok iso

/-- `SHARED_CPUS`: unless it is set, the online CPUs without those of `ISO_CPUS`. -/
def sharedCpus (limit : Option Nat) (sharedEnv : Option Text) (onlineDefault iso : Text) :
    Except Python.Error Text :=
  let shared := sharedEnv.getD []
  if shared = [] then do
    let on ← expand limit onlineDefault
    let iso ← expand limit iso
    .ok (commaJoin ((on \ iso).sort (· ≤ ·)))
  else .ok shared

/-- The CPUs of the processes and of the engine's workers. -/
structure Pins where
  exchange : Nat
  feedhandler : Nat
  engine : Nat
  workers : List Nat
  deriving DecidableEq

/-- `pick_pinning`; its four empty lines for an empty array are `none`. -/
def pickPinning (arr : List Nat) (workers : Nat) : Option Pins :=
  let cpu (role : Nat) := arr.getD (role % arr.length) 0
  if arr.length = 0 then none
  else some ⟨arr.getD 0 0, cpu 1, cpu 2, (List.range workers).map fun w => cpu (3 + w)⟩

/-- What the scenarios are run with. -/
structure BenchPlan where
  sharedCpus : Text
  isoPin : Option Pins
  sharedPin : Option Pins
  deriving DecidableEq

/-- The script from `read_cpu_file` to `readarray`, with the contents of the two files and with the
environment. -/
def benchPlan (limit : Option Nat) (isolatedFile onlineFile : Text)
    (isoEnv sharedEnv : Option Text) (workers : Nat) : Except Refusal BenchPlan := do
  let iso ← (isoCpus limit isoEnv isolatedFile onlineFile).mapError .python
  let shared ← (sharedCpus limit sharedEnv (readCpuFile onlineFile) iso).mapError .python
  if shared = [] then .error .covered else do
    let isoArr ← (expandList limit .ample iso).mapError .python
    let sharedArr ← (expandList limit .ample shared).mapError .python
    .ok ⟨shared, pickPinning isoArr workers, pickPinning sharedArr workers⟩

end Script

section Kernel

/-- A list as the kernel prints it: ascending, of numbers that are an `int` there. -/
structure KernelList extends LinuxList where
  ascending : (items.flatMap Item.values).Pairwise (· < ·)
  small : ∀ cpu ∈ items.flatMap Item.values, cpu < 2 ^ 31

namespace KernelList

def cpus (list : KernelList) : List Nat := list.items.flatMap Item.values

/-- The content of the file. -/
def file (list : KernelList) : Text := list.text ++ ['\n']

end KernelList

/-- The CPUs of the first scenario: those asked for, else the isolated ones, else the upper half. -/
def intendedIso (isolated online : KernelList) (asked : Option KernelList) : List Nat :=
  match asked.map KernelList.cpus with
  | some (cpu :: rest) => cpu :: rest
  | _ =>
    if isolated.cpus ≠ [] then isolated.cpus
    else if online.cpus.length < 4 then online.cpus
    else online.cpus.drop (online.cpus.length / 2)

/-- The CPUs of the second one. -/
def intendedShared (isolated online : KernelList) (asked : Option KernelList) : List Nat :=
  online.cpus.filter (· ∉ intendedIso isolated online asked)

/-- `int` has no limit below 640 digits, and it can read the lists. -/
structure Readable (limit : Option Nat) (isolated online : KernelList)
    (asked : Option KernelList) : Prop where
  settable : ∀ most ∈ limit, 640 ≤ most
  isolated : isolated.Short limit
  online : online.Short limit
  asked : ∀ list ∈ asked, list.Short limit

end Kernel

section Texts

namespace LinuxList

variable (list : LinuxList)

theorem text_overAlphabet : OverAlphabet list.text := by
  intro char mem
  rcases mem_intercalate mem with rfl | ⟨piece, listed, inside⟩
  · decide
  · obtain ⟨item, -, rfl⟩ := List.mem_map.mp listed
    exact text_alphabet item char inside

theorem text_eq_nil_iff : list.text = [] ↔ list.items = [] := by
  constructor
  · intro nothing
    by_contra some'
    have pieces := list.splitOn_text some'
    rw [nothing, List.splitOn_nil, eq_comm, List.map_eq_singleton_iff] at pieces
    obtain ⟨item, items, blank⟩ := pieces
    exact text_ne_nil (list.printed item (by simp [items])).1 blank
  · intro nothing
    simp [text, nothing]

theorem exists_listText {limit : Option Nat} (short : list.Short limit) :
    ∃ items, ListText list.text items ∧ (∀ item ∈ items, ¬ item.Long limit) ∧
      items.flatMap Item.values = list.items.flatMap Item.values := by
  by_cases nothing : list.items = []
  · refine ⟨[.blank], ?_, ?_, by simp [nothing, Item.values]⟩
    · rw [ListText, list.text_eq_nil_iff.mpr nothing, List.splitOn_nil]
      exact .cons (.blank fun _ mem => absurd mem List.not_mem_nil) .nil
    · rw [List.forall_mem_singleton, not_long_iff]
      exact fun _ mem => absurd mem List.not_mem_nil
  · refine ⟨list.items, ?_, short, rfl⟩
    rw [ListText, list.splitOn_text nothing, List.forall₂_map_left_iff, List.forall₂_same]
    exact fun item mem => text_shows (list.printed item mem).1

theorem readCpuFile_text : readCpuFile (list.text ++ ['\n']) = list.text := by
  have newline : readCpuFile ['\n'] = [] := by decide
  have kept : readCpuFile list.text = list.text := by
    apply List.filter_eq_self.mpr
    intro char mem
    have plain := list.text_overAlphabet char mem
    by_contra newline
    obtain rfl : char = '\n' := by simpa using newline
    contradiction
  calc
    _ = readCpuFile list.text ++ readCpuFile ['\n'] := List.filter_append ..
    _ = _ := by rw [kept, newline, List.append_nil]

end LinuxList

/-- One item for each number. -/
def singles (cpus : List Nat) : List Item := cpus.map fun cpu => .number (.ofNat cpu)

theorem values_singles (cpus : List Nat) : (singles cpus).flatMap Item.values = cpus := by
  simp [singles, List.flatMap_map, Item.values]

theorem singles_printed (cpus : List Nat) :
    ∀ item ∈ singles cpus, item ≠ .blank ∧ ¬ item.Descends := by
  intro item mem
  obtain ⟨cpu, -, rfl⟩ := List.mem_map.mp mem
  exact ⟨nofun, id⟩

theorem singles_short {limit : Option Nat} {cpus : List Nat}
    (settable : ∀ most ∈ limit, 640 ≤ most) (small : ∀ cpu ∈ cpus, cpu < 2 ^ 31) :
    ∀ item ∈ singles cpus, ¬ item.Long limit := by
  intro item mem
  obtain ⟨cpu, among, rfl⟩ := List.mem_map.mp mem
  rw [not_long_iff, Item.numerals, List.forall_mem_singleton]
  intro most is
  have fewDigits : (Numeral.ofNat cpu).digits.length ≤ 10 :=
    (Nat.length_toDigits_le_iff (by decide) (by decide)).mpr
      ((small cpu among).trans (by decide))
  exact fewDigits.trans ((by decide : 10 ≤ 640).trans (settable most is))

namespace KernelList

variable (list : KernelList)

theorem cpus_ascending : list.cpus.Pairwise (· < ·) := list.ascending

theorem cpus_nodup : list.cpus.Nodup := list.cpus_ascending.imp Nat.ne_of_lt

theorem readCpuFile_file : readCpuFile list.file = list.text := list.readCpuFile_text

theorem text_eq_nil_iff : list.text = [] ↔ list.cpus = [] := by
  rw [list.toLinuxList.text_eq_nil_iff, cpus, List.flatMap_eq_nil_iff]
  constructor
  · intro nothing item mem
    rw [nothing] at mem
    exact absurd mem List.not_mem_nil
  · intro empty
    apply List.eq_nil_iff_forall_not_mem.mpr
    intro item mem
    have printed := list.printed item mem
    have none := empty item mem
    cases item with
    | blank => exact printed.1 rfl
    | number cpu => contradiction
    | range lo hi =>
      rw [Item.values, List.range'_eq_nil_iff] at none
      exact printed.2 (show hi.value < lo.value by omega)

theorem expandList_text {limit : Option Nat} (short : list.Short limit) :
    expandList limit .ample list.text = .ok list.cpus := by
  obtain ⟨items, shows, allShort, same⟩ := list.exists_listText short
  exact (expandList_eq_ok list.text_overAlphabet).mpr
    ⟨items, shows, allShort, grants_ample, same.symm⟩

theorem expand_text {limit : Option Nat} (short : list.Short limit) :
    expand limit list.text = .ok list.cpus.toFinset :=
  list.toLinuxList.expand_text.mpr ⟨short, rfl⟩

/-- The list of single numbers. -/
def ofCpus (cpus : List Nat) (ascending : cpus.Pairwise (· < ·))
    (small : ∀ cpu ∈ cpus, cpu < 2 ^ 31) : KernelList where
  items := singles cpus
  printed := singles_printed cpus
  ascending := (values_singles cpus).symm ▸ ascending
  small := (values_singles cpus).symm ▸ small

theorem exists_of_sublist {limit : Option Nat} (settable : ∀ most ∈ limit, 640 ≤ most)
    {cpus : List Nat} (part : cpus.Sublist list.cpus) : ∃ printed : KernelList,
      printed.Short limit ∧ printed.cpus = cpus ∧ printed.text = commaJoin cpus := by
  have small : ∀ cpu ∈ cpus, cpu < 2 ^ 31 := fun cpu mem => list.small cpu (part.mem mem)
  refine ⟨ofCpus cpus (list.ascending.sublist part) small, singles_short settable small,
    values_singles cpus, ?_⟩
  unfold LinuxList.text ofCpus singles commaJoin
  rw [List.map_map]
  rfl

end KernelList
end Texts

section Plan

open KernelList

variable {limit : Option Nat} {isolated online : KernelList} {asked : Option KernelList}

theorem commaJoin_eq_nil_iff {cpus : List Nat} : commaJoin cpus = [] ↔ cpus = [] := by
  constructor
  · intro nothing
    cases cpus with
    | nil => rfl
    | cons cpu rest =>
      unfold commaJoin at nothing
      cases rest with
      | nil => simp [List.intercalate_singleton] at nothing
      | cons => simp [List.intercalate_cons_of_ne_nil] at nothing
  · rintro rfl
    rfl

/-- Whatever list is chosen, it reads as one of the kernel's. -/
theorem isoCpus_eq (readable : Readable limit isolated online asked) :
    ∃ chosen : KernelList, chosen.Short limit ∧ chosen.cpus = intendedIso isolated online asked ∧
      isoCpus limit (asked.map fun list => list.text) isolated.file online.file =
        .ok chosen.text := by
  by_cases given : ∃ list ∈ asked, list.cpus ≠ []
  · obtain ⟨list, rfl, some'⟩ := given
    obtain ⟨cpu, rest, cons⟩ := List.exists_cons_of_ne_nil some'
    have text : list.text ≠ [] := fun nothing => some' (list.text_eq_nil_iff.mp nothing)
    refine ⟨list, readable.asked list rfl, ?_, ?_⟩
    · simp only [intendedIso, Option.map_some, cons]
    · simp only [isoCpus, orDefault, Option.map_some, Option.getD_some, if_neg text]
  · -- what is asked for is nothing, as the script sees it
    have default : orDefault (asked.map fun list => list.text) (readCpuFile isolated.file) =
        isolated.text := by
      cases asked with
      | none => exact isolated.readCpuFile_file
      | some list =>
        have nothing : list.text = [] := by
          apply list.text_eq_nil_iff.mpr
          by_contra some'
          exact given ⟨list, rfl, some'⟩
        simp only [orDefault, Option.map_some, Option.getD_some, nothing, if_true]
        exact isolated.readCpuFile_file
    have intended : intendedIso isolated online asked =
        if isolated.cpus ≠ [] then isolated.cpus
        else if online.cpus.length < 4 then online.cpus
        else online.cpus.drop (online.cpus.length / 2) := by
      cases asked with
      | none => rfl
      | some list =>
        have nothing : list.cpus = [] := by
          by_contra some'
          exact given ⟨list, rfl, some'⟩
        simp only [intendedIso, Option.map_some, nothing]
    rw [intended]
    simp only [isoCpus, default]
    by_cases some' : isolated.cpus = []
    · rw [if_pos (isolated.text_eq_nil_iff.mpr some'), if_neg (not_not.mpr some')]
      simp only [online.readCpuFile_file, online.expandList_text readable.online]
      by_cases few : online.cpus.length < 4
      · obtain ⟨chosen, short, cpus, text⟩ :=
          online.exists_of_sublist readable.settable (List.Sublist.refl _)
        refine ⟨chosen, short, by rw [if_pos few, cpus], ?_⟩
        rw [text]
        exact if_pos few
      · obtain ⟨chosen, short, cpus, text⟩ := online.exists_of_sublist readable.settable
          (List.drop_sublist (online.cpus.length / 2) _)
        refine ⟨chosen, short, by rw [if_neg few, cpus], ?_⟩
        rw [text]
        exact if_neg few
    · rw [if_neg (mt isolated.text_eq_nil_iff.mp some'), if_pos some']
      exact ⟨isolated, readable.isolated, rfl, rfl⟩

theorem sharedCpus_eq {chosen : KernelList} (onlineShort : online.Short limit)
    (chosenShort : chosen.Short limit) : sharedCpus limit none online.text chosen.text =
      .ok (commaJoin (online.cpus.filter (· ∉ chosen.cpus))) := by
  have ascending := online.ascending.sublist (List.filter_sublist (p := (· ∉ chosen.cpus)))
  have rest : (online.cpus.toFinset \ chosen.cpus.toFinset).sort (· ≤ ·) =
      online.cpus.filter (· ∉ chosen.cpus) := by
    have same : online.cpus.toFinset \ chosen.cpus.toFinset =
        (online.cpus.filter (· ∉ chosen.cpus)).toFinset := by
      ext cpu
      simp
    rw [same]
    exact (List.toFinset_sort _ (ascending.imp Nat.ne_of_lt)).mpr (ascending.imp Nat.le_of_lt)
  simp only [sharedCpus, Option.getD_none, if_true, online.expand_text onlineShort,
    chosen.expand_text chosenShort]
  exact congrArg (fun cpus => Except.ok (commaJoin cpus)) rest

/-- The script ends with an error when no CPU is left for the second scenario; otherwise each
scenario has the CPUs that are meant for it. -/
theorem benchPlan_eq (readable : Readable limit isolated online asked) (workers : Nat) :
    benchPlan limit isolated.file online.file (asked.map fun list => list.text) none workers =
      if intendedShared isolated online asked = [] then .error .covered
      else .ok ⟨commaJoin (intendedShared isolated online asked),
        pickPinning (intendedIso isolated online asked) workers,
        pickPinning (intendedShared isolated online asked) workers⟩ := by
  obtain ⟨chosen, short, cpus, iso⟩ := isoCpus_eq readable
  have shared := sharedCpus_eq readable.online short
  rw [cpus] at shared
  have part : (intendedShared isolated online asked).Sublist online.cpus := List.filter_sublist
  obtain ⟨rest, restShort, restCpus, restText⟩ :=
    online.exists_of_sublist readable.settable part
  have readIso := chosen.expandList_text short
  have readRest := rest.expandList_text restShort
  rw [cpus] at readIso
  rw [restCpus, restText] at readRest
  unfold benchPlan
  rw [iso, online.readCpuFile_file]
  simp only [Except.mapError, bind, Except.bind, shared, readIso]
  by_cases covered : intendedShared isolated online asked = []
  · rw [if_pos covered]
    exact if_pos (commaJoin_eq_nil_iff.mpr covered)
  · rw [if_neg covered]
    refine (if_neg (mt commaJoin_eq_nil_iff.mp covered)).trans ?_
    have same : commaJoin (online.cpus.filter (· ∉ intendedIso isolated online asked)) =
        commaJoin (intendedShared isolated online asked) := rfl
    rw [same, readRest]

end Plan

end TradingPipeline.Scripts
