import TradingPipeline.Foundation.Transition
import TradingPipeline.Scripts.Tunables

/-! `write_sysfs` and the runs of `host-prep.sh`.

A run of the script calls `write_sysfs` once for each tunable that it finds, so a sequence of
runs is a sequence of calls. Whether a write succeeds is decided outside; a write that fails
leaves the file as it was.
-/

set_option autoImplicit false

namespace TradingPipeline.Scripts

open Foundation Shell

/-- `ACTION`. -/
inductive Mode where
  | dryRun
  | apply
  | revert
  deriving DecidableEq

/-- What the tests `-e` and `-w` find. -/
inductive Access where
  | missing
  | notWritable
  | writable
  deriving DecidableEq

/-- The line that a call prints. -/
inductive Report where
  | skipMissing
  | skipNotWritable
  | wouldWrite (current value : Text)
  | set (value was : Text)
  | writeFailed (kept : Text)
  | already (value : Text)
  | reverted (prev : Text)
  | noSnapshot
  deriving DecidableEq

structure SysfsState where
  content : Tunable → Text
  /-- The files in `STATE_DIR`. -/
  saved : Text → Option Text

namespace SysfsState

def write (state : SysfsState) (tunable : Tunable) (text : Text) : SysfsState :=
  { state with content := Function.update state.content tunable text }

def save (state : SysfsState) (key text : Text) : SysfsState :=
  { state with saved := Function.update state.saved key (some text) }

def remove (state : SysfsState) (key : Text) : SysfsState :=
  { state with saved := Function.update state.saved key none }

/-- `[[ -f "$saved" ]] || echo "$current" > "$saved"`. -/
def snapshot (state : SysfsState) (tunable : Tunable) : SysfsState :=
  if (state.saved tunable.key).isSome then state
  else state.save tunable.key (echo (cat (state.content tunable)))

section Laws

variable (state : SysfsState) (tunable : Tunable) (key text : Text)

@[simp] theorem save_self : (state.save key text).saved key = some text := Function.update_self ..

@[simp] theorem remove_self : (state.remove key).saved key = none := Function.update_self ..

@[simp] theorem write_self : (state.write tunable text).content tunable = text :=
  Function.update_self ..

variable {state tunable key text} {other : Text} {another : Tunable}

theorem save_other (different : other ≠ key) :
    (state.save key text).saved other = state.saved other :=
  Function.update_of_ne different ..

theorem remove_other (different : other ≠ key) :
    (state.remove key).saved other = state.saved other :=
  Function.update_of_ne different ..

theorem write_other (different : another ≠ tunable) :
    (state.write tunable text).content another = state.content another :=
  Function.update_of_ne different ..

theorem snapshot_saved : (state.snapshot tunable).saved tunable.key ≠ none := by
  unfold snapshot
  split
  · next saved => exact Option.isSome_iff_ne_none.mp saved
  · simp

@[simp] theorem snapshot_content : (state.snapshot tunable).content = state.content := by
  unfold snapshot
  split <;> rfl

theorem snapshot_other (different : other ≠ tunable.key) :
    (state.snapshot tunable).saved other = state.saved other := by
  unfold snapshot
  split
  · rfl
  · exact save_other different

theorem snapshot_remove :
    (state.snapshot tunable).remove tunable.key = state.remove tunable.key := by
  unfold snapshot
  split
  · rfl
  · simp [save, remove]

end Laws
end SysfsState

/-- One call of `write_sysfs`. The file's answer to a text that is written to it is its new
content, or nothing when the write fails. -/
def writeSysfs (state : SysfsState) (mode : Mode) (tunable : Tunable) (value : Text)
    (access : Access) (answer : Text → Option Text) : SysfsState × Report :=
  if access = .missing then (state, .skipMissing)
  else if access = .notWritable ∧ mode ≠ .dryRun then (state, .skipNotWritable)
  else
    let current := cat (state.content tunable)
    let key := tunable.key
    match mode with
    | .dryRun => (state, .wouldWrite current value)
    | .apply =>
      let kept := state.snapshot tunable
      if current ≠ value then
        match answer (echo value) with
        | some content => (kept.write tunable content, .set value current)
        | none => (kept.remove key, .writeFailed current)
      else (kept, .already value)
    | .revert =>
      match state.saved key with
      | some file =>
        let prev := cat file
        -- the outcome of this write is not looked at
        let restored := match answer (echo prev) with
          | some content => state.write tunable content
          | none => state
        (restored.remove key, .reverted prev)
      | none => (state, .noSnapshot)

/-- A call and what it meets. -/
structure Call where
  mode : Mode
  tunable : Tunable
  value : Text
  access : Access
  succeeds : Bool
  deriving DecidableEq

/-- A successful write is read back. -/
def Call.answer (call : Call) (written : Text) : Option Text :=
  if call.succeeds then some written else none

def Call.run (state : SysfsState) (call : Call) : SysfsState × Report :=
  writeSysfs state call.mode call.tunable call.value call.access call.answer

/-- Any number of runs, from the original contents and an empty `STATE_DIR`. -/
def hostPrep (original : Tunable → Text) : System SysfsState Call (Tunable × Report) where
  start := ⟨original, fun _ => none⟩
  step state call := some ((call.run state).1, [(call.tunable, (call.run state).2)])

/-- One run of the script. -/
def runCalls (state : SysfsState) (calls : List Call) : SysfsState :=
  calls.foldl (fun state call => (call.run state).1) state

/-- The call tries to write to its tunable. -/
def Call.writes (call : Call) (state : SysfsState) : Bool :=
  call.access = .writable &&
    match call.mode with
    | .dryRun => false
    | .apply => cat (state.content call.tunable) ≠ call.value
    | .revert => (state.saved call.tunable.key).isSome

/-- Everything that one call can do to the files. -/
inductive CallStepped (state : SysfsState) (call : Call) : SysfsState → Prop where
  | nothing : CallStepped state call state
  | already (apply : call.mode = .apply) (access : call.access = .writable) :
      CallStepped state call (state.snapshot call.tunable)
  | set (apply : call.mode = .apply) (access : call.access = .writable) :
      CallStepped state call
        ((state.snapshot call.tunable).write call.tunable (echo call.value))
  | writeFailed (writes : call.writes state = true) (fails : call.succeeds = false) :
      CallStepped state call ((state.snapshot call.tunable).remove call.tunable.key)
  | reverted {file : Text} (saved : state.saved call.tunable.key = some file) :
      CallStepped state call
        ((state.write call.tunable (echo (cat file))).remove call.tunable.key)
  | revertFailed (writes : call.writes state = true) (fails : call.succeeds = false) :
      CallStepped state call (state.remove call.tunable.key)

theorem run_stepped (state : SysfsState) (call : Call) :
    CallStepped state call (call.run state).1 := by
  obtain ⟨mode, tunable, value, access, succeeds⟩ := call
  simp only [Call.run, writeSysfs]
  cases access with
  | missing => exact .nothing
  | notWritable => cases mode <;> exact .nothing
  | writable =>
    cases mode with
    | dryRun => exact .nothing
    | apply =>
      by_cases differs : cat (state.content tunable) ≠ value
      · cases succeeds with
        | true =>
          simp only [reduceCtorEq, if_false, false_and, if_pos differs, Call.answer, if_true]
          exact .set rfl rfl
        | false =>
          simp only [reduceCtorEq, if_false, false_and, if_pos differs, Call.answer]
          exact .writeFailed (by simpa [Call.writes] using differs) rfl
      · simp only [reduceCtorEq, if_false, false_and, if_neg differs]
        exact .already rfl rfl
    | revert =>
      cases saved : state.saved tunable.key with
      | none => exact .nothing
      | some file =>
        cases succeeds with
        | true => exact .reverted saved
        | false => exact .revertFailed (by simp [Call.writes, saved]) rfl

section Snapshots

variable {original : Tunable → Text} {state : SysfsState} {call : Call}
  {history : List (Tunable × Report)}

/-- The tunable reads as it did at the start. -/
def Original (original : Tunable → Text) (state : SysfsState) (tunable : Tunable) : Prop :=
  cat (state.content tunable) = cat (original tunable)

/-- Every tunable holds its original value or has a snapshot of it. -/
def Safe (original : Tunable → Text) (state : SysfsState) : Prop :=
  ∀ tunable, Original original state tunable ∨
    ∃ file, state.saved tunable.key = some file ∧ cat file = cat (original tunable)

/-- A write fails only while its tunable reads as at the start, and no snapshot is made of a
value that `echo` takes for an option. -/
structure Careful (original : Tunable → Text) (state : SysfsState) (call : Call) : Prop where
  failure : call.writes state = true → call.succeeds = false →
    Original original state call.tunable
  plain : call.mode = .apply → call.access = .writable →
    optionWord (cat (original call.tunable)) = false

instance (state : SysfsState) (call : Call) : Decidable (Careful original state call) :=
  decidable_of_iff
    ((call.writes state = true → call.succeeds = false →
        cat (state.content call.tunable) = cat (original call.tunable)) ∧
      (call.mode = .apply → call.access = .writable →
        optionWord (cat (original call.tunable)) = false))
    ⟨fun both => ⟨both.1, both.2⟩, fun careful => ⟨careful.failure, careful.plain⟩⟩

/-- What the snapshots say about the original contents. -/
structure Guarded (original : Tunable → Text) (state : SysfsState) : Prop where
  saved : ∀ tunable file, state.saved tunable.key = some file →
    file = echo (cat (original tunable)) ∧ optionWord (cat (original tunable)) = false
  unsaved : ∀ tunable, state.saved tunable.key = none → Original original state tunable

theorem Guarded.safe (guarded : Guarded original state) : Safe original state := by
  intro tunable
  cases saved : state.saved tunable.key with
  | none => exact .inl (guarded.unsaved tunable saved)
  | some file =>
    obtain ⟨rfl, plain⟩ := guarded.saved tunable file saved
    exact .inr ⟨_, rfl, (cat_echo plain).trans (cat_cat _)⟩

theorem Guarded.snapshot (guarded : Guarded original state) (tunable : Tunable)
    (plain : optionWord (cat (original tunable)) = false) :
    Guarded original (state.snapshot tunable) := by
  cases saved : state.saved tunable.key with
  | some file => rwa [SysfsState.snapshot, saved]
  | none =>
    -- without a saved file the tunable still holds its original value
    have reads : cat (state.content tunable) = _ := guarded.unsaved tunable saved
    rw [SysfsState.snapshot, saved, if_neg (by simp), reads]
    constructor
    case saved =>
      intro other file is
      by_cases same : other = tunable
      · rw [same, SysfsState.save_self, Option.some.injEq] at is
        rw [same]
        exact ⟨is.symm, plain⟩
      · rw [SysfsState.save_other (key_injective.ne same)] at is
        exact guarded.saved other file is
    case unsaved =>
      intro other is
      by_cases same : other = tunable
      · rw [same, SysfsState.save_self] at is
        contradiction
      · rw [SysfsState.save_other (key_injective.ne same)] at is
        exact guarded.unsaved other is

theorem Guarded.write (guarded : Guarded original state) {tunable : Tunable} (text : Text)
    (saved : state.saved tunable.key ≠ none) : Guarded original (state.write tunable text) where
  saved := guarded.saved
  unsaved other is := by
    have different : other ≠ tunable := fun same => saved (same ▸ is)
    rw [Original, SysfsState.write_other different]
    exact guarded.unsaved other is

/-- A snapshot may be removed while its tunable reads as at the start. -/
theorem Guarded.remove (state : SysfsState)
    (saved : ∀ tunable file, state.saved tunable.key = some file →
      file = echo (cat (original tunable)) ∧ optionWord (cat (original tunable)) = false)
    {tunable : Tunable} (unsaved : ∀ other, other ≠ tunable → state.saved other.key = none →
      Original original state other) (reads : Original original state tunable) :
    Guarded original (state.remove tunable.key) where
  saved other file is := by
    by_cases same : other = tunable
    · rw [same, SysfsState.remove_self] at is
      contradiction
    · rw [SysfsState.remove_other (key_injective.ne same)] at is
      exact saved other file is
  unsaved other is := by
    by_cases same : other = tunable
    · exact same ▸ reads
    · rw [SysfsState.remove_other (key_injective.ne same)] at is
      exact unsaved other same is

theorem Guarded.step (guarded : Guarded original state) (careful : Careful original state call)
    {after : SysfsState} (stepped : CallStepped state call after) : Guarded original after := by
  cases stepped with
  | nothing => exact guarded
  | already apply access => exact guarded.snapshot _ (careful.plain apply access)
  | set apply access =>
    exact (guarded.snapshot _ (careful.plain apply access)).write _ SysfsState.snapshot_saved
  | revertFailed writes fails =>
    exact .remove state guarded.saved (fun other _ => guarded.unsaved other)
      (careful.failure writes fails)
  | writeFailed writes fails =>
    -- the snapshot is taken and removed again, so nothing has changed
    rw [SysfsState.snapshot_remove]
    exact .remove state guarded.saved (fun other _ => guarded.unsaved other)
      (careful.failure writes fails)
  | @reverted file saved =>
    obtain ⟨rfl, plain⟩ := guarded.saved _ file saved
    refine .remove (state.write call.tunable _) guarded.saved ?_ ?_
    · intro other different is
      rw [Original, SysfsState.write_other different]
      exact guarded.unsaved other is
    · simp only [Original, SysfsState.write_self, cat_echo plain, cat_cat]

theorem guarded (reach : (hostPrep original).Reach (Careful original) state history) :
    Guarded original state := by
  induction reach with
  | start => exact ⟨nofun, fun _ _ => rfl⟩
  | @next state _ _ _ call _ careful step ih =>
    cases step
    exact ih.step careful (run_stepped state call)

theorem run_other (state : SysfsState) (call : Call) {tunable : Tunable}
    (different : tunable ≠ call.tunable) :
    (call.run state).1.content tunable = state.content tunable ∧
      (call.run state).1.saved tunable.key = state.saved tunable.key := by
  have keys := key_injective.ne different
  have stepped := run_stepped state call
  generalize (call.run state).1 = after at stepped ⊢
  cases stepped with
  | nothing => exact ⟨rfl, rfl⟩
  | already => exact ⟨by rw [SysfsState.snapshot_content], SysfsState.snapshot_other keys⟩
  | set =>
    rw [SysfsState.write_other different, SysfsState.snapshot_content]
    exact ⟨rfl, SysfsState.snapshot_other keys⟩
  | writeFailed =>
    rw [SysfsState.snapshot_remove]
    exact ⟨rfl, SysfsState.remove_other keys⟩
  | revertFailed => exact ⟨rfl, SysfsState.remove_other keys⟩
  | reverted saved =>
    rw [SysfsState.remove_other keys]
    exact ⟨SysfsState.write_other different, rfl⟩

section Runs

/-- A call of a run in apply mode whose write has succeeded. -/
def Call.Applies (call : Call) : Prop :=
  call.mode = .apply ∧ call.access = .writable ∧ call.succeeds = true

/-- A call of a run in revert mode whose write succeeds. -/
def Call.Reverts (call : Call) : Prop :=
  call.mode = .revert ∧ call.access = .writable ∧ call.succeeds = true

/-- The tunable has its snapshot and the value that the call asks for. -/
structure Settled (state : SysfsState) (call : Call) : Prop where
  saved : state.saved call.tunable.key ≠ none
  value : cat (state.content call.tunable) = call.value ∨
    state.content call.tunable = echo call.value

theorem Call.Applies.settles (applies : call.Applies) (state : SysfsState) :
    Settled (call.run state).1 call := by
  obtain ⟨mode, tunable, value, access, succeeds⟩ := call
  obtain ⟨rfl, rfl, rfl⟩ := applies
  simp only [Call.run, writeSysfs, reduceCtorEq, if_false, false_and, Call.answer, if_true]
  by_cases differs : cat (state.content tunable) ≠ value
  · rw [if_pos differs]
    exact ⟨SysfsState.snapshot_saved, .inr (SysfsState.write_self ..)⟩
  · rw [if_neg differs]
    refine ⟨SysfsState.snapshot_saved, .inl ?_⟩
    rw [SysfsState.snapshot_content]
    exact not_not.mp differs

theorem runCalls_other {calls : List Call} {tunable : Tunable}
    (untouched : ∀ call ∈ calls, call.tunable ≠ tunable) (state : SysfsState) :
    (runCalls state calls).content tunable = state.content tunable ∧
      (runCalls state calls).saved tunable.key = state.saved tunable.key := by
  induction calls generalizing state with
  | nil => exact ⟨rfl, rfl⟩
  | cons call rest ih =>
    obtain ⟨content, saved⟩ :=
      ih (fun other member => untouched other (List.mem_cons_of_mem _ member)) (call.run state).1
    have here := run_other state call (untouched call List.mem_cons_self).symm
    exact ⟨content.trans here.1, saved.trans here.2⟩

theorem runCalls_settled {calls : List Call} (applies : ∀ call ∈ calls, call.Applies)
    (distinct : (calls.map Call.tunable).Nodup) (state : SysfsState) :
    ∀ call ∈ calls, Settled (runCalls state calls) call := by
  induction calls generalizing state with
  | nil => exact nofun
  | cons first rest ih =>
    rw [List.map_cons, List.nodup_cons] at distinct
    intro call member
    rcases List.mem_cons.mp member with rfl | later
    · have settled := (applies call member).settles state
      -- the calls behind it are about other tunables
      have elsewhere : ∀ other ∈ rest, other.tunable ≠ call.tunable :=
        fun other among same => distinct.1 (same ▸ List.mem_map_of_mem among)
      have untouched := runCalls_other elsewhere (call.run state).1
      constructor
      case saved => exact untouched.2 ▸ settled.saved
      case value => exact untouched.1 ▸ settled.value
    · exact ih (fun other among => applies other (List.mem_cons_of_mem _ among)) distinct.2
        (first.run state).1 call later

/-- A call in apply mode asks for what is there. Its write, should it be tried, puts the same
text into the file again. -/
theorem Settled.run {call : Call} (settled : Settled state call) (apply : call.mode = .apply)
    (succeeds : call.succeeds = true ∨ cat (echo call.value) = call.value) :
    (call.run state).1 = state := by
  obtain ⟨mode, tunable, value, access, ok⟩ := call
  obtain ⟨saved, reads⟩ := settled
  dsimp only at apply saved reads succeeds
  subst apply
  have kept : state.snapshot tunable = state := by
    rw [SysfsState.snapshot, if_pos (Option.isSome_iff_ne_none.mpr saved)]
  simp only [Call.run, writeSysfs, kept]
  cases access with
  | missing | notWritable => rfl
  | writable =>
    -- a second write happens only where the file reads back something else
    by_cases differs : cat (state.content tunable) ≠ value
    · have content := reads.resolve_left differs
      cases ok with
      | true =>
        simp only [reduceCtorEq, if_false, false_and, if_pos differs, Call.answer, if_true]
        rw [SysfsState.write, ← content, Function.update_eq_self]
      | false =>
        have same := succeeds.resolve_left Bool.false_ne_true
        exact absurd (content ▸ same) differs
    · simp only [reduceCtorEq, if_false, false_and, if_neg differs]

theorem runCalls_again {calls : List Call} (settled : ∀ call ∈ calls, Settled state call)
    (apply : ∀ call ∈ calls, call.mode = .apply)
    (succeeds : ∀ call ∈ calls, call.succeeds = true ∨ cat (echo call.value) = call.value) :
    runCalls state calls = state := by
  induction calls with
  | nil => rfl
  | cons call rest ih =>
    have here := (settled call List.mem_cons_self).run (apply call List.mem_cons_self)
      (succeeds call List.mem_cons_self)
    rw [runCalls, List.foldl_cons, here]
    exact ih (fun other among => settled other (List.mem_cons_of_mem _ among))
      (fun other among => apply other (List.mem_cons_of_mem _ among))
      fun other among => succeeds other (List.mem_cons_of_mem _ among)

theorem Call.Reverts.careful {call : Call} (reverts : call.Reverts) :
    Careful original state call where
  failure _ fails := by
    rw [reverts.2.2] at fails
    contradiction
  plain apply := by
    rw [reverts.1] at apply
    contradiction

theorem Call.Reverts.removes {call : Call} (reverts : call.Reverts) (state : SysfsState) :
    (call.run state).1.saved call.tunable.key = none := by
  obtain ⟨mode, tunable, value, access, succeeds⟩ := call
  obtain ⟨rfl, rfl, rfl⟩ := reverts
  cases saved : state.saved tunable.key <;> simp [Call.run, writeSysfs, saved]

theorem runCalls_revert {calls : List Call} (reverts : ∀ call ∈ calls, call.Reverts)
    (guarded : Guarded original state)
    (covers : ∀ tunable, state.saved tunable.key ≠ none →
      ∃ call ∈ calls, call.tunable = tunable) (tunable : Tunable) :
    Original original (runCalls state calls) tunable := by
  induction calls generalizing state with
  | nil =>
    apply guarded.unsaved
    -- no call is left, so no saved file is left either
    by_contra saved
    obtain ⟨_, member, _⟩ := covers tunable saved
    contradiction
  | cons call rest ih =>
    have now := reverts call List.mem_cons_self
    refine ih (fun other among => reverts other (List.mem_cons_of_mem _ among))
      (guarded.step now.careful (run_stepped state call)) ?_
    intro other saved
    by_cases same : other = call.tunable
    · exact absurd (same ▸ now.removes state) saved
    · rw [(run_other state call same).2] at saved
      obtain ⟨later, member, is⟩ := covers other saved
      rcases List.mem_cons.mp member with rfl | among
      · exact absurd is.symm same
      · exact ⟨later, among, is⟩

end Runs

/-- What the snapshots are for. -/
structure Protected (original : Tunable → Text) (state : SysfsState) : Prop where
  safe : Safe original state
  /-- A revert that comes to every tunable with a snapshot and meets no failure. -/
  restores : ∀ calls, (∀ call ∈ calls, call.Reverts) →
    (∀ tunable, state.saved tunable.key ≠ none → ∃ call ∈ calls, call.tunable = tunable) →
    ∀ tunable, Original original (runCalls state calls) tunable
  /-- A second run with values of the first one. -/
  reapplies : ∀ calls, (∀ call ∈ calls, call.Applies) → (calls.map Call.tunable).Nodup →
    ∀ again, (∀ call ∈ again, call.mode = .apply ∧
      (call.succeeds = true ∨ cat (echo call.value) = call.value) ∧
      ∃ earlier ∈ calls, earlier.tunable = call.tunable ∧ earlier.value = call.value) →
    runCalls (runCalls state calls) again = runCalls state calls

/-- When writes fail only on tunables that read as at the start, no original value is lost. -/
theorem snapshots_protect (reach : (hostPrep original).Reach (Careful original) state history) :
    Protected original state := by
  have guarded := guarded reach
  constructor
  case safe => exact guarded.safe
  case restores => exact fun calls reverts covers => runCalls_revert reverts guarded covers
  case reapplies =>
    intro calls applies distinct again repeats
    have settled := runCalls_settled applies distinct state
    refine runCalls_again ?_ (fun call member => (repeats call member).1)
      fun call member => (repeats call member).2.1
    intro call member
    obtain ⟨_, _, earlier, among, tunable, value⟩ := repeats call member
    obtain ⟨saved, reads⟩ := settled earlier among
    rw [tunable] at saved reads
    rw [value] at reads
    exact ⟨saved, reads⟩

end Snapshots

section Failure

/-- A call for the number of hugepages. -/
def hugepages (mode : Mode) (count : String) (succeeds : Bool) : Call :=
  ⟨mode, .fixed .nrHugepages, count.toList, .writable, succeeds⟩

def sixtyFour (_ : Tunable) : Text := "64\n".toList

/-- After a failure on the original value, a value is applied over another one. -/
theorem snapshots_protect_hugepages : ∃ state, ∃ history : List (Tunable × Report),
    history.map Prod.snd = [.writeFailed "64".toList, .set "128".toList "64".toList,
      .set "256".toList "128".toList] ∧ Protected sixtyFour state := by
  obtain ⟨state, history, reach, checked⟩ := System.exists_reach_of_run (hostPrep sixtyFour)
    (Careful sixtyFour)
    [hugepages .apply "128" false, hugepages .apply "128" true, hugepages .apply "256" true]
    (fun reached => reached.2.map Prod.snd = [.writeFailed "64".toList,
      .set "128".toList "64".toList, .set "256".toList "128".toList])
    (by decide +kernel) (by decide +kernel)
  exact ⟨state, history, of_decide_eq_true checked, snapshots_protect reach⟩

/-- The second of two applied values is refused, and the snapshot goes with it. -/
theorem snapshot_lost : ¬ ∀ original state history,
    (hostPrep original).Reachable state history → Safe original state := by
  intro always
  obtain ⟨state, history, reach, checked⟩ := System.exists_reach_of_run (hostPrep sixtyFour)
    (fun _ _ => True) [hugepages .apply "128" true, hugepages .apply "256" false]
    (fun reached => cat (reached.1.content (.fixed .nrHugepages)) = "128".toList ∧
      reached.1.saved (Tunable.fixed .nrHugepages).key = none)
    (System.allowedAlong_true _ _ _) (by decide +kernel)
  obtain ⟨content, saved⟩ := of_decide_eq_true checked
  rcases always sixtyFour state history reach (.fixed .nrHugepages) with reads | ⟨file, kept, _⟩
  · rw [Original, content] at reads
    exact absurd reads (by decide +kernel)
  · rw [saved] at kept
    contradiction

end Failure

end TradingPipeline.Scripts
