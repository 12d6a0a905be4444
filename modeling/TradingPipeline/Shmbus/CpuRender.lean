import Mathlib.Data.List.Chain
import TradingPipeline.Foundation.OrderStatistic
import TradingPipeline.Shmbus.CpuParse

/-! What `format_cpu_list` prints, and that it is read back.

The sorted list without duplicates falls into maximal runs of neighbours; each run is printed as
one part of the grammar.
-/

set_option autoImplicit false

namespace TradingPipeline.Shmbus

open Foundation

section Distinct

variable {value : UInt64} {values : List UInt64}

theorem mem_dedup : value ∈ dedup values ↔ value ∈ values := by
  induction values with
  | nil => exact Iff.rfl
  | cons first rest ih =>
    cases rest with
    | nil => exact Iff.rfl
    | cons second rest =>
      rw [dedup]
      split
      · next same =>
        rw [ih, same]
        simp
      · rw [List.mem_cons, ih, List.mem_cons (l := second :: rest)]

theorem pairwise_dedup (sorted : values.Pairwise fun first second => first ≤ second) :
    (dedup values).Pairwise fun first second => first < second := by
  induction values with
  | nil => exact .nil
  | cons first rest ih =>
    obtain ⟨least, sorted⟩ := List.pairwise_cons.mp sorted
    cases rest with
    | nil => exact List.pairwise_singleton _ _
    | cons second rest =>
      rw [dedup]
      split
      · exact ih sorted
      · next other =>
        refine List.pairwise_cons.mpr ⟨fun later mem => ?_, ih sorted⟩
        have next : first < second :=
          UInt64.lt_of_le_of_ne (least second List.mem_cons_self) other
        rcases List.mem_cons.mp (mem_dedup.mp mem) with rfl | behind
        · exact next
        · exact UInt64.lt_of_lt_of_le next ((List.pairwise_cons.mp sorted).1 later behind)

/-- `sorted`, after the two calls that make it. -/
def sortedDistinct (cpus : List UInt64) : List UInt64 :=
  dedup (cpus.mergeSort fun first second => first ≤ second)

theorem mem_sortedDistinct {cpus : List UInt64} : value ∈ sortedDistinct cpus ↔ value ∈ cpus := by
  rw [sortedDistinct, mem_dedup, List.mem_mergeSort]

theorem pairwise_sortedDistinct (cpus : List UInt64) :
    (sortedDistinct cpus).Pairwise fun first second => first < second :=
  pairwise_dedup (pairwise_le_mergeSort cpus)

theorem eq_of_same_elements {first second : List UInt64}
    (strict : first.Pairwise fun earlier later => earlier < later)
    (strict' : second.Pairwise fun earlier later => earlier < later)
    (same : ∀ value, value ∈ first ↔ value ∈ second) : first = second := by
  have distinct {values : List UInt64}
      (strict : values.Pairwise fun earlier later => earlier < later) : values.Nodup :=
    strict.imp fun less => UInt64.ne_of_lt less
  refine List.Perm.eq_of_pairwise ?_ strict strict'
    ((List.perm_ext_iff_of_nodup (distinct strict) (distinct strict')).mpr same)
  intro one other _ _ less greater
  exact absurd less (UInt64.lt_asymm greater)

end Distinct

section Runs

variable {lo hi : UInt64}

theorem rangeInclusive_self (lo : UInt64) : rangeInclusive lo lo = [lo] := by
  rw [rangeInclusive, Nat.add_sub_cancel_left]
  simp

theorem rangeInclusive_cons {next : UInt64} (after : next.toNat = lo.toNat + 1)
    (le : next ≤ hi) : rangeInclusive lo hi = lo :: rangeInclusive next hi := by
  have le := UInt64.le_iff_toNat_le.mp le
  have count : hi.toNat + 1 - lo.toNat = hi.toNat + 1 - next.toNat + 1 := by omega
  rw [rangeInclusive, count, List.range'_succ, List.map_cons, rangeInclusive, after,
    UInt64.ofNat_toNat]

/-- The inner loop stops at the end of the run of neighbours, and no sum in it overflows. -/
theorem exists_runEnd {last : UInt64} {sorted : List UInt64} (turns : Nat)
    (strict : (last :: sorted).Pairwise fun first second => first < second) :
    ∃ steps hi later, runEnd turns last sorted = some (turns + steps, hi, later) ∧
      last :: sorted = rangeInclusive last hi ++ later ∧ hi.toNat = last.toNat + steps ∧
      ∀ next ∈ later.head?, hi.toNat + 1 < next.toNat := by
  induction sorted generalizing turns last with
  | nil =>
    refine ⟨0, last, [], rfl, ?_, rfl, ?_⟩
    · rw [rangeInclusive_self]
      rfl
    · intro next mem
      contradiction
  | cons next rest ih =>
    obtain ⟨least, strict⟩ := List.pairwise_cons.mp strict
    have less := UInt64.lt_iff_toNat_lt.mp (least next List.mem_cons_self)
    have bound := next.toNat_lt
    -- the next value is greater, so the successor does not overflow
    have fits : (UInt64.ofNat (last.toNat + 1)).toNat = last.toNat + 1 :=
      UInt64.toNat_ofNat_of_lt' (Nat.lt_of_le_of_lt less bound)
    have sum : checkedAdd last 1 = some (.ofNat (last.toNat + 1)) :=
      checkedAdd_eq_some.mpr fits.symm
    rw [runEnd, sum]
    simp only
    split
    · next same =>
      have after : next.toNat = last.toNat + 1 := by rw [same, fits]
      obtain ⟨steps, hi, later, ended, split, length, apart⟩ := ih (turns + 1) strict
      refine ⟨steps + 1, hi, later, ?_, ?_, by omega, apart⟩
      · rw [ended, Nat.add_assoc, Nat.add_comm 1]
      · rw [rangeInclusive_cons after (UInt64.le_iff_toNat_le.mpr (by omega)), split]
        rfl
    · next other =>
      refine ⟨0, last, next :: rest, rfl, ?_, rfl, ?_⟩
      · rw [rangeInclusive_self]
        rfl
      · intro first mem
        cases mem
        have apart : next.toNat ≠ last.toNat + 1 := fun same =>
          other (UInt64.toNat_inj.mp (same.trans fits.symm))
        omega

/-- How a run is printed. -/
def item (run : UInt64 × UInt64) : List Char :=
  if run.1 = run.2 then usizeToString run.1
  else usizeToString run.1 ++ ['-'] ++ usizeToString run.2

/-- What one turn of the outer loop adds. -/
def addItem (out : List Char) (run : UInt64 × UInt64) : List Char :=
  (if out ≠ [] then out ++ [','] else out) ++ item run

/-- The runs of neighbours of a list: each goes up, and none touches the one before. -/
structure IsRuns (runs : List (UInt64 × UInt64)) (sorted : List UInt64) : Prop where
  values : runs.flatMap (fun run => rangeInclusive run.1 run.2) = sorted
  ordered : ∀ run ∈ runs, run.1 ≤ run.2
  apart : runs.IsChain fun run next => run.2.toNat + 1 < next.1.toNat

theorem render_cons {start : UInt64} {rest later : List UInt64} {turns : Nat} (out : List Char)
    (ended : runEnd 0 start rest = some (turns, hi, later))
    (length : hi.toNat = start.toNat + turns) :
    render out (start :: rest) = render (addItem out (start, hi)) later := by
  -- a run of a single value takes no turn of the loop
  have printed : item (start, hi) = if turns = 0 then usizeToString start
      else usizeToString start ++ ['-'] ++ usizeToString hi := by
    refine if_congr ?_ rfl rfl
    rw [← UInt64.toNat_inj]
    simp only [length]
    omega
  rw [render]
  split
  · next none => simp [ended] at none
  · next same =>
    rw [ended] at same
    cases same
    have grown (front : List Char) : (if turns = 0 then front ++ usizeToString start
        else front ++ usizeToString start ++ ['-'] ++ usizeToString hi) =
          front ++ item (start, hi) := by
      rw [printed]
      split
      · rfl
      · simp only [List.append_assoc]
    simp only [grown]
    rfl

theorem rangeInclusive_head (le : lo ≤ hi) : (rangeInclusive lo hi).head? = some lo := by
  have le := UInt64.le_iff_toNat_le.mp le
  have count : hi.toNat + 1 - lo.toNat = hi.toNat - lo.toNat + 1 := by omega
  rw [rangeInclusive, count, List.range'_succ, List.map_cons, List.head?_cons, UInt64.ofNat_toNat]

theorem IsRuns.head {runs : List (UInt64 × UInt64)} {sorted : List UInt64}
    (is : IsRuns runs sorted) : ∀ run ∈ runs.head?, sorted.head? = some run.1 := by
  intro run first
  obtain ⟨later, rfl⟩ := List.head?_eq_some_iff.mp first
  have head := rangeInclusive_head (is.ordered run List.mem_cons_self)
  rw [← is.values, List.flatMap_cons, List.head?_append, head]
  rfl

theorem exists_runs (out : List Char) (sorted : List UInt64)
    (strict : sorted.Pairwise fun first second => first < second) :
    ∃ runs, render out sorted = some (runs.foldl addItem out) ∧ IsRuns runs sorted := by
  induction size_eq : sorted.length using Nat.strongRecOn generalizing out sorted with
  | ind size ih =>
    cases sorted with
    | nil => exact ⟨[], by rw [render]; rfl, rfl, fun _ mem => absurd mem List.not_mem_nil, .nil⟩
    | cons start rest =>
      -- the first run ends somewhere, and the rest is shorter
      obtain ⟨turns, hi, later, ended, split, length, apart⟩ := exists_runEnd 0 strict
      rw [Nat.zero_add] at ended
      have shorter := length_runEnd ended
      have strictLater : later.Pairwise fun first second => first < second := by
        rw [split] at strict
        exact (List.pairwise_append.mp strict).2.1
      have smaller : later.length < size := size_eq ▸ Nat.lt_succ_of_le shorter
      obtain ⟨runs, rendered, is⟩ := ih later.length smaller (addItem out (start, hi)) later
        strictLater rfl
      refine ⟨(start, hi) :: runs, ?_, ?_, ?_, ?_⟩
      · rw [render_cons out ended length, rendered]
        rfl
      · rw [List.flatMap_cons, is.values, split]
      · rintro run mem
        rcases List.mem_cons.mp mem with rfl | behind
        · exact UInt64.le_iff_toNat_le.mpr (by simp only [length]; omega)
        · exact is.ordered run behind
      · refine List.isChain_cons.mpr ⟨fun run first => ?_, is.apart⟩
        exact apart run.1 (is.head run first)

end Runs

section RoundTrip

variable {runs : List (UInt64 × UInt64)} {cpus other : List UInt64} {text : List Char}

theorem isNumber_usizeToString (value : UInt64) : IsNumber (usizeToString value) value :=
  ⟨usizeToString value, .inl rfl, Nat.toDigits_ne_nil,
    fun _ mem => Nat.isDigit_of_mem_toDigits (by decide) (by decide) mem,
    Nat.ofDigitChars_ten_toDigits⟩

theorem isPart_item {run : UInt64 × UInt64} (le : run.1 ≤ run.2) :
    IsPart (item run) (rangeInclusive run.1 run.2) := by
  have low := (isNumber_usizeToString run.1).padded
  have high := (isNumber_usizeToString run.2).padded
  unfold item
  split
  · next same =>
    rw [← same, rangeInclusive_self]
    exact .number low
  · rw [List.append_assoc]
    exact .range low high le

theorem item_ne_nil (run : UInt64 × UInt64) : item run ≠ [] := by
  have some : usizeToString run.1 ≠ [] := Nat.toDigits_ne_nil
  unfold item
  split
  · exact some
  · simp [some]

theorem intercalate_append (front first : List Char) (rest : List (List Char)) :
    [','].intercalate ((front ++ first) :: rest) = front ++ [','].intercalate (first :: rest) := by
  cases rest with
  | nil => simp
  | cons second rest => simp

theorem foldl_addItem {out : List Char} (some : out ≠ []) :
    runs.foldl addItem out = [','].intercalate (out :: runs.map item) := by
  induction runs generalizing out with
  | nil => simp
  | cons run rest ih =>
    have added : addItem out run = (out ++ [',']) ++ item run := by rw [addItem, if_pos some]
    rw [List.foldl_cons, ih (by rw [added]; simp), added, intercalate_append, List.map_cons,
      List.intercalate_cons_cons]

theorem foldl_addItem_nil (runs : List (UInt64 × UInt64)) :
    runs.foldl addItem [] = [','].intercalate (runs.map item) := by
  cases runs with
  | nil => rfl
  | cons run rest => exact foldl_addItem (item_ne_nil run)

/-- How many numbers each run has. -/
def runLengths (runs : List (UInt64 × UInt64)) : List Nat :=
  runs.map fun run => (rangeInclusive run.1 run.2).length

/-- The printed runs are the parts of a list; no run at all is a blank part. -/
theorem isCpuList_items {sorted : List UInt64} (is : IsRuns runs sorted) :
    ∃ parts, IsCpuList ([','].intercalate (runs.map item)) parts ∧ parts.flatten = sorted ∧
      ∀ memory : Memory, memory.Grants vecGrowth 0 0 (parts.map List.length) ↔
        memory.Grants vecGrowth 0 0 (runLengths runs) := by
  rw [← is.values]
  by_cases none : runs = []
  · subst none
    have blank : IsPart [] [] := .blank fun _ mem => absurd mem List.not_mem_nil
    exact ⟨[[]], .part List.not_mem_nil blank, rfl, fun _ => Iff.rfl⟩
  · refine ⟨runs.map fun run => rangeInclusive run.1 run.2, ?_, (List.flatMap_def ..).symm, ?_⟩
    · rw [isCpuList_iff, List.splitOn_intercalate]
      · rw [List.forall₂_map_left_iff, List.forall₂_map_right_iff, List.forall₂_same]
        exact fun run mem => isPart_item (is.ordered run mem)
      · intro piece mem
        obtain ⟨run, among, rfl⟩ := List.mem_map.mp mem
        exact (isPart_item (is.ordered run among)).single
      · simpa using none
    · intro memory
      rw [List.map_map]
      rfl

theorem formatCpuList_eq (cpus : List UInt64) :
    formatCpuList cpus = render [] (sortedDistinct cpus) := by
  unfold formatCpuList
  split
  · next empty =>
    have nothing : sortedDistinct cpus = [] := by
      rw [sortedDistinct, empty, List.mergeSort_nil]
      rfl
    rw [nothing, render]
  · rfl

theorem exists_format (cpus : List UInt64) : ∃ runs, IsRuns runs (sortedDistinct cpus) ∧
    formatCpuList cpus = some ([','].intercalate (runs.map item)) := by
  obtain ⟨runs, rendered, is⟩ := exists_runs [] _ (pairwise_sortedDistinct cpus)
  rw [foldl_addItem_nil] at rendered
  exact ⟨runs, is, (formatCpuList_eq cpus).trans rendered⟩

theorem parse_items {memory : Memory} (is : IsRuns runs (sortedDistinct cpus)) :
    (parseCpuList memory ([','].intercalate (runs.map item))).map Grown.items =
        .ok (sortedDistinct cpus) ↔ memory.Grants vecGrowth 0 0 (runLengths runs) := by
  obtain ⟨parts, list, values, granted⟩ := isCpuList_items is
  rw [parseCpuList_eq_ok, ← granted]
  constructor
  · rintro ⟨others, again, grants, -⟩
    rwa [list.unique again]
  · exact fun grants => ⟨parts, list, grants, values⟩

theorem format_eq_iff (formatted : formatCpuList cpus = some text) :
    formatCpuList other = some text ↔ ∀ cpu, cpu ∈ other ↔ cpu ∈ cpus := by
  constructor
  · intro again cpu
    obtain ⟨runs, is, shown⟩ := exists_format cpus
    obtain ⟨otherRuns, otherIs, otherShown⟩ := exists_format other
    have texts : [','].intercalate (otherRuns.map item) = [','].intercalate (runs.map item) :=
      Option.some.inj ((otherShown.symm.trans again).trans (formatted.symm.trans shown))
    -- both are what is read from the one text
    have read := (parse_items is).mpr grants_ample
    have otherRead := (parse_items otherIs).mpr grants_ample
    rw [texts, read] at otherRead
    rw [← mem_sortedDistinct, ← Except.ok.inj otherRead, mem_sortedDistinct]
  · intro same
    have items : sortedDistinct other = sortedDistinct cpus := by
      refine eq_of_same_elements (pairwise_sortedDistinct _) (pairwise_sortedDistinct _) ?_
      intro cpu
      rw [mem_sortedDistinct, mem_sortedDistinct, same]
    rw [formatCpuList_eq, items, ← formatCpuList_eq, formatted]

/-- What is printed is read back as the distinct numbers in their order, tells apart just the
sets of numbers, consists of maximal ranges, and is printed without an overflow. With less memory
than is granted for the ranges it is not read, but for no other reason. -/
theorem format_round_trip (cpus : List UInt64) :
    ∃ text, formatCpuList cpus = some text ∧
      (∃ distinct, (parseCpuList .ample text).map Grown.items = .ok distinct ∧
        distinct.Pairwise (fun first second => first < second) ∧
        ∀ cpu, cpu ∈ distinct ↔ cpu ∈ cpus) ∧
      (∃ runs : List (UInt64 × UInt64), text = [','].intercalate (runs.map item) ∧
        (∀ run ∈ runs, run.1 ≤ run.2) ∧
        (runs.IsChain fun run next => run.2.toNat + 1 < next.1.toNat) ∧
        ∀ memory distinct, (parseCpuList .ample text).map Grown.items = .ok distinct →
          ((parseCpuList memory text).map Grown.items = .ok distinct ↔
            memory.Grants vecGrowth 0 0 (runLengths runs))) ∧
      (∀ memory message, parseCpuList memory text ≠ .error (.err message)) ∧
      ∀ other, formatCpuList other = some text ↔ ∀ cpu, cpu ∈ other ↔ cpu ∈ cpus := by
  obtain ⟨runs, is, formatted⟩ := exists_format cpus
  have read := (parse_items is).mpr grants_ample
  obtain ⟨parts, list, -⟩ := isCpuList_items is
  refine ⟨_, formatted, ⟨_, read, pairwise_sortedDistinct cpus, fun cpu => mem_sortedDistinct⟩,
    ⟨runs, rfl, is.ordered, is.apart, fun memory distinct again => ?_⟩,
    fun memory => parseCpuList_ne_err list, fun other => format_eq_iff formatted⟩
  obtain rfl := Except.ok.inj (read.symm.trans again)
  exact parse_items is

end RoundTrip

end TradingPipeline.Shmbus
