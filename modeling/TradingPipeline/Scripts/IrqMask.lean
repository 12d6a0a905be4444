import TradingPipeline.Foundation.Bits
import TradingPipeline.Scripts.CpuLists

/-! The IRQ mask of `host-prep.sh`: the online CPUs without the isolated ones. -/

set_option autoImplicit false

namespace TradingPipeline.Scripts

open Foundation
open Foundation.Python (strip isSpace isSpace_digit)

section Script

/-- The body of the loop of `expand`. -/
def expandInto (limit : Option Nat) (out : Finset Nat) (part : List Char) :
    Except Python.Error (Finset Nat) :=
  let part := strip part
  if part = [] then .ok out else do
    let cpus ← partCpus limit part
    .ok (out ∪ cpus.toFinset)

def expand (limit : Option Nat) (s : List Char) : Except Python.Error (Finset Nat) :=
  if s = [] then .ok ∅ else (s.splitOn ',').foldlM (expandInto limit) ∅

/-- `'0' * pad + hex_full`. -/
def padHex (hexFull : List Char) : List Char :=
  List.replicate (-(hexFull.length : Int) % 8).toNat '0' ++ hexFull

/-- The pieces of eight characters, joined by commas. -/
def groupHex (hex : List Char) : List Char :=
  [','].intercalate ((List.range' 0 ((hex.length + 7) / 8) 8).map fun i => (hex.drop i).take 8)

/-- The script, with the content of `/sys/devices/system/cpu/online` and with its argument. -/
def irqMask (limit : Option Nat) (onlineFile isolated : List Char) :
    Except Python.Error (List Char) := do
  let online ← expand limit (strip onlineFile)
  let iso ← expand limit isolated
  let allowed := online \ iso
  let formatted := hexFormat (maskOf allowed)
  let hexFull := if formatted = [] then ['0'] else formatted
  .ok (groupHex (padHex hexFull))

end Script

section Formats

/-- A list of numbers and of ranges that do not descend, as Linux prints its CPU lists. -/
structure LinuxList where
  items : List Item
  printed : ∀ item ∈ items, item ≠ .blank ∧ ¬ item.Descends

def Item.text : Item → List Char
  | blank => []
  | number cpu => cpu.digits
  | range lo hi => lo.digits ++ '-' :: hi.digits

def LinuxList.text (list : LinuxList) : List Char := [','].intercalate (list.items.map Item.text)

/-- No numeral of the list is longer than the limit. -/
def LinuxList.Short (limit : Option Nat) (list : LinuxList) : Prop :=
  ∀ item ∈ list.items, ¬ item.Long limit

/-- The CPU is one of the numbers or lies in one of the ranges. -/
def LinuxList.Has (list : LinuxList) (cpu : Nat) : Prop := ∃ item ∈ list.items, cpu ∈ item.values

/-- What the kernel makes of a mask: groups of eight hexadecimal digits between commas, the most
significant group first. -/
def decodeMask (mask : List Char) : Option Nat :=
  (mask.splitOn ',').foldlM (fun value group =>
    if group.length = 8 then (hexValue group).map (value * 2 ^ 32 + ·) else none) 0

end Formats

section Lists

variable {limit : Option Nat} {item : Item}

theorem text_shows (some' : item ≠ .blank) : ItemText item.text item := by
  cases item with
  | blank => exact absurd rfl some'
  | number cpu => exact .number (.refl _ _)
  | range lo hi => exact .range (.refl _ _) (.refl _ _)

theorem text_chars {char : Char} (mem : char ∈ item.text) :
    char.isDigit = true ∨ char = '-' := by
  cases item with
  | blank => exact absurd mem List.not_mem_nil
  | number cpu => exact .inl (cpu.decimal char mem)
  | range lo hi =>
    rcases List.mem_append.mp mem with low | high
    · exact .inl (lo.decimal char low)
    · rcases List.mem_cons.mp high with hyphen | high
      · exact .inr hyphen
      · exact .inl (hi.decimal char high)

theorem text_alphabet (item : Item) : OverAlphabet item.text := by
  intro char mem
  rcases text_chars mem with digit | rfl
  · simp [inAlphabet, digit]
  · decide

theorem text_solid {char : Char} (mem : char ∈ item.text) : isSpace char = false := by
  rcases text_chars mem with digit | rfl
  · exact isSpace_digit char digit
  · decide

theorem text_ne_nil (some' : item ≠ .blank) : item.text ≠ [] := by
  cases item with
  | blank => exact absurd rfl some'
  | number cpu => exact cpu.nonempty
  | range lo hi => exact List.append_ne_nil_of_right_ne_nil _ (List.cons_ne_nil _ _)

theorem expandInto_text (some' : item ≠ .blank) {out result : Finset Nat} :
    expandInto limit out item.text = .ok result ↔
      ¬ item.Long limit ∧ out ∪ item.values.toFinset = result := by
  have stripped : strip item.text = item.text := trim_of_solid fun _ mem => text_solid mem
  have solid : strip item.text ≠ [] := by
    rw [stripped]
    exact text_ne_nil some'
  rw [expandInto, if_neg solid, bind_eq_ok]
  simp only [partCpus_eq_ok (text_alphabet item) solid, Except.ok.injEq]
  constructor
  · rintro ⟨_, ⟨shown, shows, short, rfl⟩, same⟩
    obtain rfl := shows.unique (text_shows some')
    exact ⟨short, same⟩
  · exact fun ⟨short, same⟩ => ⟨_, ⟨item, text_shows some', short, rfl⟩, same⟩

theorem foldlM_expandInto {items : List Item} (printed : ∀ item ∈ items, item ≠ .blank)
    {out result : Finset Nat} : (items.map Item.text).foldlM (expandInto limit) out = .ok result ↔
      (∀ item ∈ items, ¬ item.Long limit) ∧
        out ∪ (items.flatMap Item.values).toFinset = result := by
  induction items generalizing out with
  | nil => simp [pure, Except.pure]
  | cons item rest ih =>
    obtain ⟨here, later⟩ := List.forall_mem_cons.mp printed
    rw [List.map_cons, List.foldlM_cons, bind_eq_ok, List.forall_mem_cons, List.flatMap_cons,
      List.toFinset_append, ← Finset.union_assoc]
    simp only [expandInto_text here, ih later]
    constructor
    · rintro ⟨_, ⟨short, rfl⟩, allShort, same⟩
      exact ⟨⟨short, allShort⟩, same⟩
    · exact fun ⟨⟨short, allShort⟩, same⟩ => ⟨_, ⟨short, rfl⟩, allShort, same⟩

namespace LinuxList

variable (list : LinuxList)

theorem splitOn_text (some' : list.items ≠ []) :
    list.text.splitOn ',' = list.items.map Item.text := by
  refine List.splitOn_intercalate ',' (fun piece mem => ?_) (by simpa using some')
  obtain ⟨item, -, rfl⟩ := List.mem_map.mp mem
  intro comma
  rcases text_chars comma with digit | hyphen
  · contradiction
  · contradiction

def cpuSet : Finset Nat := (list.items.flatMap Item.values).toFinset

theorem mem_cpuSet {cpu : Nat} : cpu ∈ list.cpuSet ↔ list.Has cpu := by
  simp [cpuSet, Has]

theorem expand_text {cpus : Finset Nat} :
    expand limit list.text = .ok cpus ↔ list.Short limit ∧ list.cpuSet = cpus := by
  by_cases empty : list.items = []
  · have nothing : list.text = [] := by simp [text, empty]
    rw [expand, if_pos nothing, Except.ok.injEq]
    simp [Short, cpuSet, empty]
  · have pieces := list.splitOn_text empty
    have some' : list.text ≠ [] := by
      intro nothing
      rw [nothing, List.splitOn_nil, eq_comm, List.map_eq_singleton_iff] at pieces
      obtain ⟨item, items, blank⟩ := pieces
      exact text_ne_nil (list.printed item (by simp [items])).1 blank
    rw [expand, if_neg some', pieces, foldlM_expandInto fun item mem => (list.printed item mem).1,
      Finset.empty_union]
    rfl

theorem strip_file : strip (list.text ++ ['\n']) = list.text := by
  have newline : ∀ char ∈ ['\n'], isSpace char = true := List.forall_mem_singleton.mpr rfl
  rw [strip, trim_append_right newline]
  refine trim_of_solid fun char mem => ?_
  rcases mem_intercalate mem with rfl | ⟨piece, listed, inside⟩
  · decide
  · obtain ⟨item, -, rfl⟩ := List.mem_map.mp listed
    exact text_solid inside

end LinuxList
end Lists

section Groups

variable {hex : List Char} {value : Nat}

theorem flatten_slices {count start : Nat} (length : hex.length = start + 8 * count) :
    ((List.range' start count 8).map fun i => (hex.drop i).take 8).flatten = hex.drop start := by
  induction count generalizing start with
  | zero =>
    rw [Nat.mul_zero, Nat.add_zero] at length
    rw [← length, List.drop_length]
    rfl
  | succ count ih =>
    rw [List.range'_succ, List.map_cons, List.flatten_cons, ih (by omega), ← List.drop_drop,
      List.take_append_drop]

theorem length_slice {count start i : Nat} (length : hex.length = start + 8 * count)
    (mem : i ∈ List.range' start count 8) : ((hex.drop i).take 8).length = 8 := by
  obtain ⟨position, bound, rfl⟩ := List.mem_range'.mp mem
  rw [List.length_take, List.length_drop]
  omega

theorem decode_groups {groups : List (List Char)} (lengths : ∀ group ∈ groups, group.length = 8)
    (before : Nat) : groups.foldlM (fun value group =>
      if group.length = 8 then (hexValue group).map (value * 2 ^ 32 + ·) else none) before =
    hexFrom before groups.flatten := by
  induction groups generalizing before with
  | nil => rfl
  | cons group rest ih =>
    obtain ⟨length, lengths⟩ := List.forall_mem_cons.mp lengths
    have some' : group ≠ [] := by
      rintro rfl
      contradiction
    have base : 16 ^ 8 = 2 ^ 32 := by decide
    have one : (hexValue group).map (before * 2 ^ 32 + ·) = hexFrom before group := by
      rw [hexFrom_eq_map, length, base, hexValue, if_neg some']
    rw [List.foldlM_cons, if_pos length, one, List.flatten_cons, hexFrom_append]
    exact congrArg _ (funext fun value => ih lengths value)

theorem decodeMask_groupHex {count : Nat} (some' : hex ≠ []) (length : hex.length = 8 * count)
    (read : hexFrom 0 hex = some value) : decodeMask (groupHex hex) = some value := by
  have least := List.length_pos_of_ne_nil some'
  have turns : (hex.length + 7) / 8 = count := by omega
  have whole : hex.length = 0 + 8 * count := by omega
  have slices : (groupHex hex).splitOn ',' =
      (List.range' 0 count 8).map fun i => (hex.drop i).take 8 := by
    rw [groupHex, turns]
    refine List.splitOn_intercalate ',' (fun group mem comma => ?_) ?_
    · obtain ⟨i, -, rfl⟩ := List.mem_map.mp mem
      have digit := isSome_hexDigit read (List.mem_of_mem_drop (List.mem_of_mem_take comma))
      contradiction
    · rw [ne_eq, List.map_eq_nil_iff, List.range'_eq_nil_iff]
      omega
  rw [decodeMask, slices, decode_groups, flatten_slices whole, List.drop_zero, read]
  intro group mem
  obtain ⟨i, inside, rfl⟩ := List.mem_map.mp mem
  exact length_slice whole inside

theorem decodeMask_groupHex_padHex (read : hexFrom 0 hex = some value) (some' : hex ≠ []) :
    decodeMask (groupHex (padHex hex)) = some value := by
  have length : (padHex hex).length = 8 * ((hex.length + 7) / 8) := by
    rw [padHex, List.length_append, List.length_replicate]
    omega
  refine decodeMask_groupHex (List.append_ne_nil_of_right_ne_nil _ some') length ?_
  rw [padHex, hexFrom_zeros, read]

end Groups

section Mask

/-- A mask is printed for all lists that `int` can read, and it is decoded to the set of the CPUs
that are online and not isolated. -/
theorem irq_mask_decodes (limit : Option Nat) (online isolated : LinuxList) :
    ((∃ mask, irqMask limit (online.text ++ ['\n']) isolated.text = .ok mask) ↔
      online.Short limit ∧ isolated.Short limit) ∧
    ∀ mask, irqMask limit (online.text ++ ['\n']) isolated.text = .ok mask →
      ∃ value, decodeMask mask = some value ∧
        ∀ cpu, value.testBit cpu = true ↔ online.Has cpu ∧ ¬ isolated.Has cpu := by
  have printed (mask : List Char) :
      irqMask limit (online.text ++ ['\n']) isolated.text = .ok mask ↔
        (online.Short limit ∧ isolated.Short limit) ∧
          groupHex (padHex (hexFormat (maskOf (online.cpuSet \ isolated.cpuSet)))) = mask := by
    rw [irqMask, online.strip_file]
    simp only [bind_eq_ok, LinuxList.expand_text, if_neg (hexFormat_ne_nil _), Except.ok.injEq]
    constructor
    · rintro ⟨_, ⟨short, rfl⟩, _, ⟨isoShort, rfl⟩, same⟩
      exact ⟨⟨short, isoShort⟩, same⟩
    · exact fun ⟨⟨short, isoShort⟩, same⟩ => ⟨_, ⟨short, rfl⟩, _, ⟨isoShort, rfl⟩, same⟩
  constructor
  · simp only [printed]
    exact ⟨fun ⟨_, short, _⟩ => short, fun short => ⟨_, short, rfl⟩⟩
  · intro mask is
    obtain ⟨-, rfl⟩ := (printed mask).mp is
    refine ⟨_, decodeMask_groupHex_padHex (hexFrom_hexFormat _) (hexFormat_ne_nil _),
      fun cpu => ?_⟩
    rw [testBit_maskOf, Finset.mem_sdiff, LinuxList.mem_cpuSet, LinuxList.mem_cpuSet]

example : irqMask (some 4300) "0,2,4-6,33\n".toList "4".toList =
    .ok "00000002,00000065".toList := by
  decide +kernel

end Mask

end TradingPipeline.Scripts
