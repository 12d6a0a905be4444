import TradingPipeline.Foundation.Numerals
import TradingPipeline.Foundation.Shell

/-! The schemata that `cache-alloc.sh` writes for its groups.

The script takes the ids of the cache instances from the default schemata, filter by filter, and
gives all of them one mask. Its last `tr` deletes the newlines between the ids with the blanks.
-/

set_option autoImplicit false

namespace TradingPipeline.Scripts

open Foundation
open Foundation.Shell (Text lines unlines isSpace cat lines_unlines lines_of_single)

/-- The resources of which the script sets a share, by the name of their line. -/
inductive Resource where
  | l3
  | mb
  deriving DecidableEq

def Resource.name : Resource → Text
  | l3 => ['L', '3']
  | mb => ['M', 'B']

section Script

/-- `\1` where `^[[:space:]]*NAME:\(.*\)$` matches the line. -/
def afterName (resource : Resource) (line : Text) : Option Text :=
  let rest := line.dropWhile isSpace
  let head := resource.name ++ [':']
  if rest.take head.length = head then some (rest.drop head.length) else none

/-- `L3_IDS` and `MB_IDS`, from the content of `/sys/fs/resctrl/schemata`. -/
def cacheIds (resource : Resource) (schemata : Text) : Text :=
  let matched := unlines ((lines schemata).filterMap (afterName resource))
  let first := unlines ((lines matched).take 1)
  let split := first.map fun char => if char = ';' then '\n' else char
  let ids := unlines ((lines split).map fun line => line.takeWhile (· ≠ '='))
  let joined := ids.filter fun char => !isSpace char
  cat (unlines ((lines joined).filter (· ≠ [])))

/-- The body of the loop of `build_l3_line` and of `build_mb_line`. -/
def addId (value : Text) (state : Text × Bool) (id : Text) : Text × Bool :=
  let (line, first) := state
  let id := trim isSpace id
  if id = [] then (line, first)
  else if first then (line ++ id ++ '=' :: value, false)
  else (line ++ ';' :: id ++ '=' :: value, first)

/-- `build_l3_line` and `build_mb_line`. -/
def buildLine (resource : Resource) (value ids : Text) : Text :=
  ((lines (ids ++ ['\n'])).foldl (addId value) (resource.name ++ [':'], true)).1

end Script

section Kernel

/-- One cache instance in the default schemata. -/
structure Instance where
  id : Numeral
  mask : Text
  plain : ∀ char ∈ mask, char ≠ ';' ∧ char ≠ '\n'

def Instance.text (cache : Instance) : Text := cache.id.digits ++ '=' :: cache.mask

/-- What the kernel shows as the schemata of the default group. -/
structure Schemata (resource : Resource) where
  before : List Text
  indent : Text
  instances : List Instance
  after : List Text
  others : ∀ line ∈ before, afterName resource line = none
  blanks : ∀ char ∈ indent, char = ' '
  some' : instances ≠ []
  plain : ∀ line ∈ before ++ after, '\n' ∉ line

variable {resource : Resource}

namespace Schemata

def line (schemata : Schemata resource) : Text :=
  schemata.indent ++ (resource.name ++ [':'] ++
    [';'].intercalate (schemata.instances.map Instance.text))

def content (schemata : Schemata resource) : Text :=
  unlines (schemata.before ++ schemata.line :: schemata.after)

end Schemata

/-- One entry of a line that is written. -/
def decodeEntry (entry : Text) : Option (Nat × Text) :=
  (splitOnce '=' entry).bind fun (id, value) =>
    if id ≠ [] ∧ id.all Char.isDigit then some (Nat.ofDigitChars 10 id 0, value) else none

/-- The instances that a line names, with their values. -/
def decodeLine (resource : Resource) (line : Text) : Option (List (Nat × Text)) :=
  (afterName resource line).bind fun entries => (entries.splitOn ';').mapM decodeEntry

end Kernel

section Filters

variable {resource : Resource}

theorem name_solid : ∀ char ∈ resource.name ++ [':'], isSpace char = false := by
  cases resource <;> simp [Resource.name, isSpace]

theorem afterName_append {indent rest : Text} (blanks : ∀ char ∈ indent, isSpace char = true) :
    afterName resource (indent ++ (resource.name ++ [':'] ++ rest)) = some rest := by
  have skipped : (indent ++ (resource.name ++ [':'] ++ rest)).dropWhile isSpace =
      resource.name ++ [':'] ++ rest := by
    rw [List.dropWhile_append_of_pos blanks]
    cases resource <;> rfl
  unfold afterName
  simp only [skipped, List.take_left, List.drop_left, if_true]

theorem afterName_sublist {line rest : Text} (matched : afterName resource line = some rest) :
    rest.Sublist line := by
  unfold afterName at matched
  simp only [Option.ite_none_right_eq_some, Option.some.injEq] at matched
  obtain ⟨-, rfl⟩ := matched
  exact (List.drop_sublist _ _).trans (List.dropWhile_sublist _)

theorem isSpace_digit {char : Char} (digit : char.isDigit = true) : isSpace char = false := by
  have code := digit_code digit
  rw [← Bool.not_eq_true]
  intro space
  simp only [isSpace, Bool.or_eq_true, Bool.and_eq_true, decide_eq_true_eq] at space
  rcases space with rfl | space
  · contradiction
  · omega

theorem map_intercalate {pieces : List Text} (some' : pieces ≠ [])
    (fresh : ∀ piece ∈ pieces, ';' ∉ piece) :
    (unlines [[';'].intercalate pieces]).map (fun char => if char = ';' then '\n' else char) =
      unlines pieces := by
  have same {piece : Text} (fresh : ';' ∉ piece) :
      piece.map (fun char => if char = ';' then '\n' else char) = piece := by
    refine (List.map_congr_left fun char mem => ?_).trans (List.map_id piece)
    exact if_neg fun is : char = ';' => fresh (is ▸ mem)
  induction pieces with
  | nil => contradiction
  | cons piece rest ih =>
    obtain ⟨here, later⟩ := List.forall_mem_cons.mp fresh
    by_cases last : rest = []
    · subst last
      simp [unlines, same here]
    · have tail := ih last later
      simp only [unlines, List.flatMap_cons, List.flatMap_nil, List.append_nil, List.map_append]
        at tail ⊢
      rw [List.intercalate_cons_of_ne_nil last, List.map_append, List.map_append, same here,
        List.append_assoc, List.append_assoc, tail]
      exact (List.append_assoc piece ['\n'] _).symm

end Filters

section Ids

variable {resource : Resource} (schemata : Schemata resource)

theorem Instance.text_plain (cache : Instance) : ';' ∉ cache.text ∧ '\n' ∉ cache.text := by
  unfold Instance.text
  constructor
  · intro mem
    rcases List.mem_append.mp mem with mem | mem
    · exact absurd (cache.id.decimal _ mem) (by decide)
    · rcases List.mem_cons.mp mem with is | mem
      · contradiction
      · exact (cache.plain _ mem).1 rfl
  · intro mem
    rcases List.mem_append.mp mem with mem | mem
    · exact absurd (cache.id.decimal _ mem) (by decide)
    · rcases List.mem_cons.mp mem with is | mem
      · contradiction
      · exact (cache.plain _ mem).2 rfl

theorem Instance.takeWhile_text (cache : Instance) :
    cache.text.takeWhile (· ≠ '=') = cache.id.digits := by
  unfold Instance.text
  rw [List.takeWhile_append_of_pos]
  · simp
  · intro char digit
    have other : char ≠ '=' := by
      rintro rfl
      exact absurd (cache.id.decimal _ digit) (by decide)
    exact decide_eq_true other

namespace Schemata

/-- The entries of the line, with separators between them. -/
def entries : Text := [';'].intercalate (schemata.instances.map Instance.text)

theorem entries_plain : '\n' ∉ schemata.entries := by
  intro mem
  rcases mem_intercalate mem with is | ⟨piece, listed, inside⟩
  · contradiction
  · obtain ⟨cache, -, rfl⟩ := List.mem_map.mp listed
    exact cache.text_plain.2 inside

theorem afterName_line : afterName resource schemata.line = some schemata.entries :=
  afterName_append fun char mem => by rw [schemata.blanks char mem]; rfl

theorem lines_content : lines schemata.content =
    schemata.before ++ schemata.line :: schemata.after := by
  apply lines_unlines
  intro line mem
  rcases List.mem_append.mp mem with before | here
  · exact schemata.plain line (List.mem_append_left _ before)
  · rcases List.mem_cons.mp here with rfl | after
    · intro newline
      rcases List.mem_append.mp newline with indent | rest
      · exact absurd (schemata.blanks _ indent) (by decide)
      · rcases List.mem_append.mp rest with name | entries
        · exact absurd (name_solid _ name) (by decide)
        · exact schemata.entries_plain entries
    · exact schemata.plain line (List.mem_append_right _ after)

theorem first_matched : unlines ((lines (unlines ((lines schemata.content).filterMap
    (afterName resource)))).take 1) = unlines [schemata.entries] := by
  have none : schemata.before.filterMap (afterName resource) = [] :=
    List.filterMap_eq_nil_iff.mpr schemata.others
  rw [schemata.lines_content, List.filterMap_append, none, List.nil_append,
    List.filterMap_cons_some schemata.afterName_line, lines_unlines]
  · rfl
  · intro rest mem
    rcases List.mem_cons.mp mem with rfl | later
    · exact schemata.entries_plain
    · obtain ⟨line, listed, matched⟩ := List.mem_filterMap.mp later
      exact fun newline => schemata.plain line (List.mem_append_right _ listed)
        ((afterName_sublist matched).mem newline)

def joined : Text := schemata.instances.flatMap fun cache => cache.id.digits

theorem joined_digits : ∀ char ∈ schemata.joined, char.isDigit = true := by
  intro char mem
  obtain ⟨cache, -, digit⟩ := List.mem_flatMap.mp mem
  exact cache.id.decimal char digit

theorem joined_ne_nil : schemata.joined ≠ [] := by
  intro nothing
  obtain ⟨cache, rest, cons⟩ := List.exists_cons_of_ne_nil schemata.some'
  have none := List.flatMap_eq_nil_iff.mp nothing cache (cons ▸ List.mem_cons_self)
  exact cache.id.nonempty none

/-- What the last `tr` leaves of the ids. -/
theorem filter_ids : (unlines (schemata.instances.map fun cache => cache.id.digits)).filter
    (fun char => !isSpace char) = schemata.joined := by
  have kept (cache : Instance) : (cache.id.digits ++ ['\n']).filter (fun char => !isSpace char) =
      cache.id.digits := by
    have digits : cache.id.digits.filter (fun char => !isSpace char) = cache.id.digits := by
      apply List.filter_eq_self.mpr
      intro char mem
      rw [isSpace_digit (cache.id.decimal char mem)]
      rfl
    rw [List.filter_append, digits]
    exact List.append_nil _
  unfold unlines joined
  rw [List.flatMap_map, List.filter_flatMap]
  simp only [kept]

theorem joined_plain : '\n' ∉ schemata.joined :=
  fun mem => absurd (schemata.joined_digits _ mem) (by decide)

/-- Nothing is left between the ids of the instances. -/
theorem cacheIds_content : cacheIds resource schemata.content = schemata.joined := by
  have some' : schemata.instances.map Instance.text ≠ [] := by
    simpa using schemata.some'
  have fresh : ∀ piece ∈ schemata.instances.map Instance.text, ';' ∉ piece ∧ '\n' ∉ piece := by
    intro piece mem
    obtain ⟨cache, -, rfl⟩ := List.mem_map.mp mem
    exact cache.text_plain
  have split : (unlines [schemata.entries]).map (fun char => if char = ';' then '\n' else char) =
      unlines (schemata.instances.map Instance.text) :=
    map_intercalate some' fun piece mem => (fresh piece mem).1
  have cut : (schemata.instances.map Instance.text).map (fun line => line.takeWhile (· ≠ '=')) =
      schemata.instances.map fun cache => cache.id.digits := by
    rw [List.map_map]
    exact List.map_congr_left fun cache _ => cache.takeWhile_text
  have grep : [schemata.joined].filter (· ≠ []) = [schemata.joined] :=
    List.filter_eq_self.mpr fun text mem => by
      rw [List.mem_singleton.mp mem]
      exact decide_eq_true schemata.joined_ne_nil
  have last : schemata.joined.rdropWhile (· = '\n') = schemata.joined := by
    apply List.rdropWhile_eq_self_iff.mpr
    intro _ newline
    exact schemata.joined_plain (of_decide_eq_true newline ▸ List.getLast_mem _)
  unfold cacheIds
  simp only [first_matched, split]
  rw [lines_unlines fun piece mem => (fresh piece mem).2, cut, filter_ids,
    lines_of_single schemata.joined_plain schemata.joined_ne_nil, grep]
  calc
    _ = (schemata.joined ++ ['\n']).rdropWhile (· = '\n') := by simp [cat, unlines]
    _ = schemata.joined.rdropWhile (· = '\n') :=
      List.rdropWhile_concat_pos _ _ _ (decide_eq_true rfl)
    _ = _ := last

theorem trim_joined : trim isSpace schemata.joined = schemata.joined :=
  trim_of_solid fun char mem => isSpace_digit (schemata.joined_digits char mem)

theorem buildLine_joined (value : Text) : buildLine resource value schemata.joined =
    resource.name ++ [':'] ++ schemata.joined ++ '=' :: value := by
  have single : lines (schemata.joined ++ ['\n']) = [schemata.joined] := by
    have text : schemata.joined ++ ['\n'] = unlines [schemata.joined] := by simp [unlines]
    rw [text]
    exact lines_unlines fun line mem => List.mem_singleton.mp mem ▸ schemata.joined_plain
  unfold buildLine
  rw [single, List.foldl_cons, List.foldl_nil]
  simp only [addId, trim_joined, if_neg schemata.joined_ne_nil, if_true]

theorem decodeLine_joined {value : Text} (plain : ';' ∉ value) :
    decodeLine resource (resource.name ++ [':'] ++ schemata.joined ++ '=' :: value) =
      some [(Nat.ofDigitChars 10 schemata.joined 0, value)] := by
  have line : resource.name ++ [':'] ++ schemata.joined ++ '=' :: value =
      [] ++ (resource.name ++ [':'] ++ (schemata.joined ++ '=' :: value)) := by simp
  have single : (schemata.joined ++ '=' :: value).splitOn ';' =
      [schemata.joined ++ '=' :: value] := by
    apply List.splitOn_eq_singleton
    intro mem
    rcases List.mem_append.mp mem with digit | rest
    · exact absurd (schemata.joined_digits _ digit) (by decide)
    · rcases List.mem_cons.mp rest with is | rest
      · contradiction
      · exact plain rest
  have entry : decodeEntry (schemata.joined ++ '=' :: value) =
      some (Nat.ofDigitChars 10 schemata.joined 0, value) := by
    have fresh : '=' ∉ schemata.joined :=
      fun mem => absurd (schemata.joined_digits _ mem) (by decide)
    rw [decodeEntry, splitOnce_append fresh]
    exact if_pos ⟨schemata.joined_ne_nil, List.all_eq_true.mpr schemata.joined_digits⟩
  have blanks : ∀ char ∈ ([] : Text), isSpace char = true :=
    fun _ mem => absurd mem List.not_mem_nil
  rw [decodeLine, line, afterName_append blanks, Option.bind_some, single, List.mapM_cons, entry]
  rfl

end Schemata

/-- The line names a single instance, whose number is made of the digits of all of them. So the
script sets a share of every instance exactly when there is only one. -/
theorem every_instance_iff {value : Text} (plain : ';' ∉ value) :
    decodeLine resource (buildLine resource value (cacheIds resource schemata.content)) =
        some [(Nat.ofDigitChars 10 (schemata.instances.flatMap fun cache => cache.id.digits) 0,
          value)] ∧
      (decodeLine resource (buildLine resource value (cacheIds resource schemata.content)) =
          some (schemata.instances.map fun cache => (cache.id.value, value)) ↔
        schemata.instances.length = 1) := by
  rw [schemata.cacheIds_content, schemata.buildLine_joined, schemata.decodeLine_joined plain]
  refine ⟨rfl, ?_⟩
  constructor
  · intro same
    have length := congrArg List.length (Option.some.inj same)
    rw [List.length_map] at length
    exact length.symm
  · intro single
    obtain ⟨cache, is⟩ := List.length_eq_one_iff.mp single
    have joined : schemata.joined = cache.id.digits := by
      simp [Schemata.joined, is]
    rw [is, joined]
    rfl

theorem mask_plain : ∀ char ∈ ['7', 'f', 'f'], char ≠ ';' ∧ char ≠ '\n' := by
  simp

theorem bandwidth_line : ∀ line ∈ ["    MB:0=100;1=100".toList],
    afterName .l3 line = none ∧ '\n' ∉ line :=
  List.forall_mem_singleton.mpr (by decide)

/-- Two caches, as the kernel shows them. -/
def twoCaches : Schemata .l3 where
  before := ["    MB:0=100;1=100".toList]
  indent := List.replicate 4 ' '
  instances := [⟨.ofNat 0, ['7', 'f', 'f'], mask_plain⟩, ⟨.ofNat 1, ['7', 'f', 'f'], mask_plain⟩]
  after := []
  others line mem := (bandwidth_line line mem).1
  blanks _ mem := List.eq_of_mem_replicate mem
  some' := List.cons_ne_nil _ _
  plain line mem := (bandwidth_line line mem).2

/-- Both caches are taken for the instance `01`. -/
theorem every_instance_iff_two :
    decodeLine .l3 (buildLine .l3 "7f8".toList (cacheIds .l3 twoCaches.content)) =
        some [(1, "7f8".toList)] ∧
      decodeLine .l3 (buildLine .l3 "7f8".toList (cacheIds .l3 twoCaches.content)) ≠
        some [(0, "7f8".toList), (1, "7f8".toList)] := by
  obtain ⟨named, every⟩ := every_instance_iff twoCaches (show ';' ∉ "7f8".toList by decide)
  exact ⟨named, fun whole => absurd (every.mp whole) (by decide)⟩

end Ids

end TradingPipeline.Scripts
