import Mathlib.Algebra.Order.Ring.Nat
import TradingPipeline.Foundation.Memory
import TradingPipeline.Foundation.Trim

/-! The CPU lists of `cpu.rs`, read and rendered.

A text is the list of its characters. What memory answers when the vector of `parse_cpu_list` has to
grow is a parameter; what texts need, and the copy that `format_cpu_list` sorts, is granted.
-/

set_option autoImplicit false

namespace TradingPipeline.Shmbus

open Foundation

/-- The most words that a `Vec<usize>` can hold, in `isize::MAX` bytes. -/
def maxLen : Nat := (2 ^ 63 - 1) / 8

/-- Memory as a `Vec<usize>` meets with it: beyond its limit it panics, and where the allocator
does not grant a request the program aborts. -/
def vecMemory (grants : Nat → Bool) : Memory := fun request =>
  if maxLen < request then some .capacityOverflow
  else if grants request then none
  else some .refused

/-- How a `Vec` of words grows. -/
def vecGrowth : Growth := .doubling 4

/-- `Vec<usize>`. -/
abbrev CpuVec := Grown UInt64

/-- What can come out of `parse_cpu_list` instead of a vector. -/
inductive CpuListError where
  /-- `Err`, with its message. -/
  | err (message : String)
  /-- The vector cannot grow, which ends the program. -/
  | memory (error : MemoryError)
  deriving DecidableEq

section Numbers

def checkedAdd (first second : UInt64) : Option UInt64 :=
  if first.toNat + second.toNat < 2 ^ 64 then some (first + second) else none

def checkedMul (first second : UInt64) : Option UInt64 :=
  if first.toNat * second.toNat < 2 ^ 64 then some (first * second) else none

inductive ParseIntError where
  | empty
  | invalidDigit
  | posOverflow
  deriving DecidableEq

/-- `stringify_err`. -/
def stringifyErr : ParseIntError → String
  | .empty => "cannot parse integer from empty string"
  | .invalidDigit => "invalid digit found in string"
  | .posOverflow => "number too large to fit in target type"

/-- The loop of `usize::from_str` over the digits. -/
def parseDigits (result : UInt64) : List Char → Except ParseIntError UInt64
  | [] => .ok result
  | char :: rest =>
    if char.isDigit then
      match (checkedMul result 10).bind fun mul =>
          checkedAdd mul (.ofNat (char.toNat - '0'.toNat)) with
      | some result => parseDigits result rest
      | none => .error .posOverflow
    else .error .invalidDigit

/-- `str::parse::<usize>`. -/
def parseUsize (text : List Char) : Except ParseIntError UInt64 :=
  if text = [] then .error .empty
  else if text = ['+'] ∨ text = ['-'] then .error .invalidDigit
  else if text.head? = some '+' then parseDigits 0 text.tail
  else parseDigits 0 text

/-- `usize::to_string`. -/
def usizeToString (value : UInt64) : List Char := Nat.toDigits 10 value.toNat

end Numbers

section Parse

/-- `char::is_whitespace`, the `White_Space` property. -/
def isWhitespace (char : Char) : Bool :=
  let code := char.toNat
  (0x9 ≤ code && code ≤ 0xD) || code = 0x20 || code = 0x85 || code = 0xA0 || code = 0x1680 ||
    (0x2000 ≤ code && code ≤ 0x200A) || code = 0x2028 || code = 0x2029 || code = 0x202F ||
    code = 0x205F || code = 0x3000

/-- `lo..=hi`. -/
def rangeInclusive (lo hi : UInt64) : List UInt64 :=
  (List.range' lo.toNat (hi.toNat + 1 - lo.toNat)).map .ofNat

/-- `parse::<usize>().map_err(stringify_err)`. -/
def parseCpu (text : List Char) : Except CpuListError UInt64 :=
  (parseUsize text).mapError fun error => .err (stringifyErr error)

/-- What one part of the list adds to the vector. -/
def partItems (part : List Char) : Except CpuListError (List UInt64) :=
  match splitOnce '-' part with
  | some (a, b) => do
    let lo ← parseCpu (trim isWhitespace a)
    let hi ← parseCpu (trim isWhitespace b)
    if hi < lo then
      .error (.err ("invalid range: " ++ toString lo ++ "-" ++ toString hi))
    else .ok (rangeInclusive lo hi)
  | none => do
    let cpu ← parseCpu part
    .ok [cpu]

/-- Each part is read, then `push` or `extend` puts what it adds behind the rest. -/
def parseCpuList (memory : Memory) (s : List Char) : Except CpuListError CpuVec :=
  (((s.splitOn ',').map (trim isWhitespace)).filter fun part => part ≠ []).foldlM
    (Grown.take vecGrowth memory .memory partItems) .empty

end Parse

section Render

/-- `Vec::dedup`. -/
def dedup : List UInt64 → List UInt64
  | first :: second :: rest =>
    if first = second then dedup (second :: rest) else first :: dedup (second :: rest)
  | rest => rest

/-- The inner loop of `format_cpu_list`: the number of its turns, which is `j - i`, then
`sorted[j]` and what follows it. An overflow of `sorted[j] + 1` makes it `none`. -/
def runEnd (turns : Nat) (last : UInt64) : List UInt64 → Option (Nat × UInt64 × List UInt64)
  | [] => some (turns, last, [])
  | next :: rest =>
    match checkedAdd last 1 with
    | none => none
    | some after =>
      if next = after then runEnd (turns + 1) next rest else some (turns, last, next :: rest)

theorem length_runEnd {turns steps : Nat} {last hi : UInt64} {sorted later : List UInt64}
    (ended : runEnd turns last sorted = some (steps, hi, later)) :
    later.length ≤ sorted.length := by
  induction sorted generalizing turns last with
  | nil =>
    cases ended
    exact Nat.le_refl _
  | cons next rest ih =>
    simp only [runEnd] at ended
    split at ended
    · contradiction
    · split at ended
      · exact Nat.le_succ_of_le (ih ended)
      · cases ended
        exact Nat.le_refl _

/-- The outer loop of `format_cpu_list`, from `sorted[i]` on. -/
def render (out : List Char) : List UInt64 → Option (List Char)
  | [] => some out
  | start :: rest =>
    match _ended : runEnd 0 start rest with
    | none => none
    | some (turns, hi, later) =>
      let out := if out ≠ [] then out ++ [','] else out
      let out := if turns = 0 then out ++ usizeToString start
        else out ++ usizeToString start ++ ['-'] ++ usizeToString hi
      render out later
termination_by sorted => sorted.length
decreasing_by exact Nat.lt_succ_of_le (length_runEnd _ended)

/-- `format_cpu_list`; `none` is the panic of an overflow. -/
def formatCpuList (cpus : List UInt64) : Option (List Char) :=
  if cpus = [] then some []
  else render [] (dedup (cpus.mergeSort fun first second => first ≤ second))

end Render

end TradingPipeline.Shmbus
