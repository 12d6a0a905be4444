import TradingPipeline.Scripts.Bench

/-! Which failures leave the host tuned when `run-bench.sh` ends.

The flag is set two commands after the writes, and the trap returns at once while it is not set.
The signals do no harm by themselves: the script goes on after their handler.
-/

set_option autoImplicit false

namespace TradingPipeline.Scripts

open Foundation

/-- Each change is followed by a revert. -/
def EveryChangeReverted (history : List BenchEvent) : Prop :=
  ∀ before tunable after, history = before ++ .changed tunable :: after → .reverted ∈ after

theorem everyChangeReverted_nil : EveryChangeReverted [] := by
  intro before tunable after shape
  exact absurd shape (by simp)

theorem everyChangeReverted_snoc (history : List BenchEvent) :
    EveryChangeReverted (history ++ [.reverted]) := by
  intro before tunable after shape
  rcases List.eq_nil_or_concat' after with rfl | ⟨init, last, rfl⟩
  · have same := (List.append_inj' shape rfl).2
    exact absurd same (by simp)
  · rw [← List.cons_append, ← List.append_assoc] at shape
    have same := (List.append_inj' shape rfl).2
    rw [← same]
    exact List.mem_append_right _ List.mem_cons_self

namespace Bench

/-- `|| true` or the block behind `||` takes the failure of the running command. -/
def guarded (bench : Bench) : Bool :=
  match bench.teardowns with
  | teardown :: _ => teardown = .clean || teardown = .revert
  | [] => bench.pc = .cacheAlloc

/-- A failure now is not followed by a revert: the flag is not set, or `prod_teardown` itself
fails in the `EXIT` trap. -/
def unprotected (bench : Bench) : Bool :=
  bench.owed && !bench.guarded &&
    (!bench.prepped || bench.pc = .exiting && bench.pending = 0)

end Bench

/-- No command fails where nothing would revert the host. -/
def FailsProtected (bench : Bench) (action : BenchAction) : Prop :=
  bench.unprotected = true → action ≠ .finish false

instance (bench : Bench) (action : BenchAction) : Decidable (FailsProtected bench action) :=
  inferInstanceAs (Decidable (bench.unprotected = true → action ≠ .finish false))

/-- From the first write to the assignment of the flag. -/
def BenchPc.tuning : BenchPc → Bool
  | .hostPrep | .announceAlloc | .cacheAlloc | .allocWarning | .setPrepped => true
  | _ => false

/-- Only a failure that nothing catches leaves these commands other than by the assignment. -/
theorem scriptNext_leaves {ok : Bool} {pc next : BenchPc} (step : Bench.scriptNext ok pc = some next)
    (inside : pc.tuning = true) (outside : next.tuning = false) : ok = false ∧ pc ≠ .cacheAlloc := by
  cases pc with
  | hostPrep | announceAlloc | cacheAlloc | allocWarning =>
    cases ok with
    | true => cases step; contradiction
    | false => cases step; first | contradiction | exact ⟨rfl, by simp⟩
  | _ => contradiction

theorem scriptNext_prologue {ok : Bool} {pc next : BenchPc}
    (step : Bench.scriptNext ok pc = some next) (at' : next = .prologue ∨ next = .ended) :
    pc = .prologue := by
  cases pc with
  | prologue => rfl
  | _ => cases ok <;> cases step <;> simp at at'

theorem scriptNext_false {pc next : BenchPc} (step : Bench.scriptNext false pc = some next)
    (unguarded : pc ≠ .cacheAlloc) : next = .failed ∨ next = .ended := by
  cases pc with
  | cacheAlloc => contradiction
  | prologue => exact .inr (Option.some.inj step).symm
  | setPrepped | failed | exiting | ended => exact nomatch step
  | _ => exact .inl (Option.some.inj step).symm

theorem scriptNext_exiting {ok : Bool} {pc next : BenchPc}
    (step : Bench.scriptNext ok pc = some next) : next ≠ .exiting := by
  cases pc <;> cases ok <;> cases step <;> simp

/-- A teardown that will still run the revert, unless its `echo` fails. -/
def TeardownPc.live : TeardownPc → Bool
  | .failed => false
  | _ => true

/-- While a revert is owed, the flag is set or will be, and in the `EXIT` trap a teardown is on its
way to the revert. -/
structure TeardownInvariant (bench : Bench) (history : List BenchEvent) : Prop where
  settled : bench.owed = false → EveryChangeReverted history
  covered : bench.owed = true → bench.pc.tuning = false → bench.prepped = true
  outside : bench.pc = .prologue ∨ bench.pc = .ended → bench.owed = false
  entered : ∀ teardown ∈ bench.teardowns, teardown ≠ .test → bench.prepped = true
  reverting : bench.running = true → bench.teardowns.head? = some .revert → bench.owed = false
  exiting : bench.pc = .exiting → bench.owed = true →
    0 < bench.pending ∨ ∃ teardown ∈ bench.teardowns.head?, teardown.live = true

theorem called_cases (bench : Bench) (call : Call) :
    bench.called call = ({ bench with host := (call.run bench.host).1 }, []) ∨
    call.mode = .apply ∧ bench.called call =
      ({ bench with host := (call.run bench.host).1, owed := true }, [.changed call.tunable]) := by
  unfold Bench.called
  dsimp only
  split
  · next apply _ => exact .inr ⟨apply, rfl⟩
  · exact .inl rfl

theorem hostPrepMode_apply {bench : Bench} (mode : bench.hostPrepMode = some .apply) :
    bench.teardowns = [] ∧ bench.pc = .hostPrep := by
  unfold Bench.hostPrepMode at mode
  split at mode
  · contradiction
  · next top =>
    split at mode
    · next at' => exact ⟨top, at'⟩
    · contradiction
  · contradiction

namespace TeardownInvariant

variable {bench after : Bench} {history events : List BenchEvent} {behind : List TeardownPc}
  {teardown : TeardownPc}

theorem start (host : SysfsState) : TeardownInvariant (Scripts.bench host).start [] where
  settled _ := everyChangeReverted_nil
  covered owed := nomatch owed
  outside _ := rfl
  entered _ member := nomatch member
  reverting running := nomatch running
  exiting at' := nomatch at'

theorem exitShell (inv : TeardownInvariant bench history) (idle : bench.running = false)
    (settled : bench.pc = .exiting → bench.owed = false)
    (set : bench.owed = true → bench.prepped = true) :
    TeardownInvariant bench.exitShell history := by
  unfold Bench.exitShell
  split
  · next exiting =>
    exact {
      settled := inv.settled
      covered := fun owed => absurd owed (by simp [settled exiting])
      outside := fun _ => settled exiting
      entered := fun _ member => nomatch member
      reverting := fun running => absurd running (by simp [idle])
      exiting := fun at' => nomatch at' }
  · exact {
      settled := inv.settled
      covered := fun owed _ => set owed
      outside := fun at' => by simp at at'
      entered := fun teardown member other => absurd (List.mem_singleton.mp member) other
      reverting := fun running => absurd running (by simp [idle])
      exiting := fun _ _ => .inr ⟨.test, rfl, rfl⟩ }

/-- Where the shell exits for a failure and no signal waits, the last teardown has failed. -/
theorem settled_of_exit (inv : TeardownInvariant bench history) (served : bench.pending = 0)
    (dead : ∀ teardown ∈ bench.teardowns.head?, teardown = .failed) (exiting : bench.pc = .exiting) :
    bench.owed = false := by
  by_contra owed
  rcases inv.exiting exiting (by simpa using owed) with waits | ⟨teardown, top, live⟩
  · omega
  · rw [dead teardown top] at live
    contradiction

theorem return' (inv : TeardownInvariant bench history) (top : bench.teardowns = teardown :: behind)
    (settled : bench.pc = .exiting → bench.owed = false) :
    TeardownInvariant (bench.return' behind) history where
  settled := inv.settled
  covered owed outside := by
    refine inv.covered owed ?_
    by_cases exiting : bench.pc = .exiting
    · rw [exiting]
      rfl
    · simpa [Bench.return', exiting] using outside
  outside at' := by
    by_cases exiting : bench.pc = .exiting
    · exact settled exiting
    · exact inv.outside (by simpa [Bench.return', exiting] using at')
  entered later member := inv.entered later (top ▸ List.mem_cons_of_mem _ member)
  reverting running := nomatch running
  exiting at' owed := by
    by_cases exiting : bench.pc = .exiting
    · exact absurd owed (by simp [Bench.return', settled exiting])
    · exact absurd at' (by simp [Bench.return', exiting])

theorem runs (inv : TeardownInvariant bench history)
    (other : bench.teardowns.head? ≠ some .revert) :
    TeardownInvariant { bench with running := true } history where
  settled := inv.settled
  covered := inv.covered
  outside := inv.outside
  entered := inv.entered
  reverting _ top := absurd top other
  exiting := inv.exiting

theorem advance {next : TeardownPc} {running : Bool} (inv : TeardownInvariant bench history)
    (prepped : bench.prepped = true) (idle : running = true → next ≠ .revert)
    (live : bench.pc = .exiting → bench.owed = true → 0 < bench.pending ∨ next.live = true) :
    TeardownInvariant { bench with teardowns := next :: behind, running := running } history where
  settled := inv.settled
  covered := inv.covered
  outside := inv.outside
  entered _ _ _ := prepped
  reverting runs top := absurd (Option.some.inj top) (idle runs)
  exiting at' owed := (live at' owed).imp_right fun live => ⟨next, rfl, live⟩

theorem startTeardown (inv : TeardownInvariant bench history)
    (top : bench.teardowns = teardown :: behind)
    (step : bench.startTeardown behind teardown = some (after, events)) :
    TeardownInvariant after (history ++ events) := by
  cases teardown with
  | test =>
    simp only [Bench.startTeardown, Option.some.injEq, Prod.mk.injEq] at step
    obtain ⟨rfl, rfl⟩ := step
    rw [List.append_nil]
    split
    · next prepped => exact inv.advance prepped (by simp) fun _ _ => .inr rfl
    · next unset =>
      apply inv.return' top
      intro exiting
      by_contra owed
      exact unset (inv.covered (by simpa using owed) (by rw [exiting]; rfl))
  | announce | clean =>
    simp only [Bench.startTeardown, Option.some.injEq, Prod.mk.injEq] at step
    obtain ⟨rfl, rfl⟩ := step
    rw [List.append_nil]
    exact inv.runs (by simp [top])
  | revert =>
    simp only [Bench.startTeardown, Option.some.injEq, Prod.mk.injEq] at step
    obtain ⟨rfl, rfl⟩ := step
    exact {
      settled := fun _ => everyChangeReverted_snoc history
      covered := fun owed => nomatch owed
      outside := fun _ => rfl
      entered := inv.entered
      reverting := fun _ _ => rfl
      exiting := fun _ owed => nomatch owed }
  | failed => exact nomatch step

theorem startScript (inv : TeardownInvariant bench history) (top : bench.teardowns = [])
    (step : bench.startScript = some (after, events)) :
    TeardownInvariant after (history ++ events) := by
  unfold Bench.startScript at step
  split at step
  · simp only [Option.some.injEq, Prod.mk.injEq] at step
    obtain ⟨rfl, rfl⟩ := step
    rw [List.append_nil]
    exact {
      settled := inv.settled
      covered := fun _ _ => rfl
      outside := fun at' => by simp at at'
      entered := fun _ _ _ => rfl
      reverting := fun _ at' => by simp [top] at at'
      exiting := fun at' => nomatch at' }
  · contradiction
  · contradiction
  · contradiction
  · simp only [Option.some.injEq, Prod.mk.injEq] at step
    obtain ⟨rfl, rfl⟩ := step
    rw [List.append_nil]
    exact inv.runs (by simp [top])

theorem finishTeardown {ok : Bool} (inv : TeardownInvariant bench history)
    (running : bench.running = true) (top : bench.teardowns = teardown :: behind)
    (protects : FailsProtected bench (.finish ok))
    (step : bench.finishTeardown behind ok teardown = some after) :
    TeardownInvariant after history := by
  have entered : teardown ≠ .test → bench.prepped = true :=
    inv.entered teardown (top ▸ List.mem_cons_self)
  cases teardown with
  | announce =>
    simp only [Bench.finishTeardown, Option.some.injEq] at step
    subst step
    apply inv.advance (entered (by simp)) (by simp)
    intro exiting owed
    cases ok with
    | true => exact .inr rfl
    | false =>
      -- a signal waits here, or the failure is one that is ruled out
      refine .inl (Nat.pos_of_ne_zero fun none => protects ?_ rfl)
      simp [Bench.unprotected, Bench.guarded, top, exiting, owed, none]
  | clean =>
    simp only [Bench.finishTeardown, Option.some.injEq] at step
    subst step
    exact inv.advance (entered (by simp)) (by simp) fun _ _ => .inr rfl
  | revert =>
    simp only [Bench.finishTeardown, Option.some.injEq] at step
    subst step
    exact inv.return' top fun _ => inv.reverting running (by rw [top]; rfl)
  | test | failed => exact nomatch step

theorem finishScript {ok : Bool} {pc : BenchPc} (inv : TeardownInvariant bench history)
    (top : bench.teardowns = []) (protects : FailsProtected bench (.finish ok))
    (step : Bench.scriptNext ok bench.pc = some pc) :
    TeardownInvariant { bench with pc := pc, running := false } history where
  settled := inv.settled
  covered owed outside := by
    by_cases inside : bench.pc.tuning = true
    · obtain ⟨rfl, other⟩ := scriptNext_leaves step inside outside
      change bench.owed = true at owed
      by_contra unset
      refine protects ?_ rfl
      have unset : bench.prepped = false := by simpa using unset
      simp [Bench.unprotected, Bench.guarded, top, owed, other, unset]
    · exact inv.covered owed (by simpa using inside)
  outside at' := inv.outside (.inl (scriptNext_prologue step at'))
  entered := inv.entered
  reverting running := nomatch running
  exiting at' := absurd at' (scriptNext_exiting step)

theorem called {call : Call} (inv : TeardownInvariant bench history)
    (mode : bench.hostPrepMode = some call.mode) (step : bench.called call = (after, events)) :
    TeardownInvariant after (history ++ events) := by
  rcases called_cases bench call with same | ⟨apply, same⟩
  · rw [same, Prod.mk.injEq] at step
    obtain ⟨rfl, rfl⟩ := step
    rw [List.append_nil]
    exact {
      settled := inv.settled
      covered := inv.covered
      outside := inv.outside
      entered := inv.entered
      reverting := inv.reverting
      exiting := inv.exiting }
  · rw [apply] at mode
    obtain ⟨top, at'⟩ := hostPrepMode_apply mode
    rw [same, Prod.mk.injEq] at step
    obtain ⟨rfl, rfl⟩ := step
    exact {
      settled := fun owed => nomatch owed
      covered := fun _ outside => by simp [at', BenchPc.tuning] at outside
      outside := fun outside => by simp [at'] at outside
      entered := inv.entered
      reverting := fun _ revert => by simp [top] at revert
      exiting := fun exiting => by simp [at'] at exiting }

theorem trap (inv : TeardownInvariant bench history) (idle : bench.running = false) :
    TeardownInvariant
      { bench with teardowns := .test :: bench.teardowns, pending := bench.pending - 1 }
      history where
  settled := inv.settled
  covered := inv.covered
  outside := inv.outside
  entered teardown member other := by
    rcases List.mem_cons.mp member with rfl | member
    · contradiction
    · exact inv.entered teardown member other
  reverting running := absurd running (by simp [idle])
  exiting _ _ := .inr ⟨.test, rfl, rfl⟩

theorem step {action : BenchAction} (inv : TeardownInvariant bench history)
    (protects : FailsProtected bench action) (stepped : BenchStepped bench action after events) :
    TeardownInvariant after (history ++ events) := by
  cases stepped with
  | killed at' =>
    have settled := inv.outside (.inl at')
    rw [List.append_nil]
    exact {
      settled := inv.settled
      covered := fun owed => absurd owed (by simp [settled])
      outside := fun _ => settled
      entered := inv.entered
      reverting := fun running => nomatch running
      exiting := fun exiting => nomatch exiting }
  | signal =>
    rw [List.append_nil]
    exact {
      settled := inv.settled
      covered := inv.covered
      outside := inv.outside
      entered := inv.entered
      reverting := inv.reverting
      exiting := fun _ _ => .inl (Nat.succ_pos _) }
  | trap idle =>
    rw [List.append_nil]
    exact inv.trap idle
  | startTeardown top step => exact inv.startTeardown top step
  | startScript top step => exact inv.startScript top step
  | call _ mode step => exact inv.called mode step
  | finishTeardown running top step =>
    rw [List.append_nil]
    exact inv.finishTeardown running top protects step
  | finishScript _ top step =>
    rw [List.append_nil]
    exact inv.finishScript top protects step
  | exit idle served dead =>
    rw [List.append_nil]
    rcases dead with failed | ⟨_, at'⟩
    · have dead : ∀ teardown ∈ bench.teardowns.head?, teardown = .failed := by
        intro teardown top
        rw [failed] at top
        exact (Option.some.inj top).symm
      exact inv.exitShell idle (inv.settled_of_exit served dead)
        fun _ => inv.entered .failed (List.mem_of_mem_head? failed) (by simp)
    · exact inv.exitShell idle (fun exiting => by simp [at'] at exiting)
        fun owed => inv.covered owed (by rw [at']; rfl)
  | setTrap at' =>
    have settled := inv.outside (.inl at')
    rw [List.append_nil]
    exact {
      settled := inv.settled
      covered := fun owed => absurd owed (by simp [settled])
      outside := fun _ => settled
      entered := inv.entered
      reverting := inv.reverting
      exiting := fun exiting => nomatch exiting }
  | finished idle at' =>
    rw [List.append_nil]
    exact inv.exitShell idle (fun exiting => by simp [at'] at exiting)
      fun owed => inv.covered owed (by rw [at']; rfl)

end TeardownInvariant

/-- The shell gives up while the flag is not set: every teardown that comes ends at its test. -/
structure Abandoned (bench : Bench) : Prop where
  closing : bench.pc = .failed ∨ bench.pc = .exiting ∨ bench.pc = .ended
  unset : bench.prepped = false
  idle : bench.running = false
  tests : ∀ teardown ∈ bench.teardowns, teardown = .test

namespace Abandoned

variable {bench after : Bench} {events : List BenchEvent} {action : BenchAction}

theorem exitShell (abandoned : Abandoned bench) : Abandoned bench.exitShell := by
  unfold Bench.exitShell
  split
  · exact ⟨.inr (.inr rfl), abandoned.unset, abandoned.idle, fun _ member => nomatch member⟩
  · exact ⟨.inr (.inl rfl), abandoned.unset, abandoned.idle, fun _ => List.mem_singleton.mp⟩

theorem return' {behind : List TeardownPc} (abandoned : Abandoned bench)
    (top : bench.teardowns = .test :: behind) : Abandoned (bench.return' behind) where
  closing := by
    by_cases last : bench.pc = .exiting ∧ behind = []
    · exact .inr (.inr (if_pos last))
    · simpa only [Bench.return', if_neg last] using abandoned.closing
  unset := abandoned.unset
  idle := rfl
  tests teardown member := abandoned.tests teardown (top ▸ List.mem_cons_of_mem _ member)

theorem step (abandoned : Abandoned bench) (stepped : BenchStepped bench action after events) :
    Abandoned after ∧ ∀ event ∈ events, event ≠ .reverted := by
  have ⟨closing, unset, idle, tests⟩ := abandoned
  cases stepped with
  | killed at' | setTrap at' | finished _ at' => simp [at'] at closing
  | signal => exact ⟨⟨closing, unset, idle, tests⟩, fun _ member => nomatch member⟩
  | trap =>
    refine ⟨⟨closing, unset, idle, ?_⟩, fun _ member => nomatch member⟩
    intro teardown member
    rcases List.mem_cons.mp member with rfl | member
    · rfl
    · exact tests teardown member
  | @startTeardown teardown behind _ _ top step =>
    cases tests teardown (top ▸ List.mem_cons_self)
    simp only [Bench.startTeardown, unset, Bool.false_eq_true, if_false, Option.some.injEq,
      Prod.mk.injEq] at step
    obtain ⟨rfl, rfl⟩ := step
    exact ⟨abandoned.return' top, fun _ member => nomatch member⟩
  | startScript _ step =>
    rcases closing with at' | at' | at' <;> simp [Bench.startScript, at'] at step
  | call running | finishTeardown running | finishScript running => simp [idle] at running
  | exit => exact ⟨abandoned.exitShell, fun _ member => nomatch member⟩

theorem of_failure (entered : ∀ teardown ∈ bench.teardowns, teardown ≠ .test → bench.prepped = true)
    (unset : bench.prepped = false) (unguarded : bench.guarded = false)
    (stepped : BenchStepped bench (.finish false) after events) :
    Abandoned after ∧ ∀ event ∈ events, event ≠ .reverted := by
  cases stepped with
  | @finishTeardown _ teardown _ _ _ top step =>
    -- only its test is run without the flag, and it starts no command
    by_cases test : teardown = .test
    · simp [test, Bench.finishTeardown] at step
    · exact absurd (entered teardown (top ▸ List.mem_cons_self) test) (by simp [unset])
  | finishScript _ top step =>
    have closing := scriptNext_false step (by simpa [Bench.guarded, top] using unguarded)
    refine ⟨⟨?_, unset, rfl, by simp [top]⟩, fun _ member => nomatch member⟩
    exact closing.imp_right .inr

end Abandoned

section Runs

variable {host : SysfsState} {state : Bench} {history : List BenchEvent}

theorem teardown_invariant (reach : (bench host).Reach FailsProtected state history) :
    TeardownInvariant state history :=
  reach.invariant TeardownInvariant (.start host) fun _ inv protects step =>
    inv.step protects (benchStep_inv step)

/-- Such a failure before the flag is set is the end of it: no revert is run from there on. -/
theorem never_reverted (reach : (bench host).Reach FailsProtected state history)
    (unset : state.prepped = false) (unguarded : state.guarded = false)
    {schedule : List BenchAction} {final : Bench} {later : List BenchEvent}
    (run : (bench host).runFrom state (.finish false :: schedule) = some (final, later)) :
    .reverted ∉ later := by
  obtain ⟨after, events, rest, step, onward, rfl⟩ := System.runFrom_cons_inv run
  have ⟨abandoned, first⟩ :=
    Abandoned.of_failure (teardown_invariant reach).entered unset unguarded (benchStep_inv step)
  have ⟨_, others⟩ := System.invariant_of_run Abandoned (· ≠ BenchEvent.reverted)
    (fun abandoned step => abandoned.step (benchStep_inv step)) abandoned onward
  intro member
  rcases List.mem_append.mp member with member | member
  · exact first _ member rfl
  · exact others _ member rfl

/-- In a run without such a failure, every change is reverted when the script has ended. -/
theorem reverted_at_end (reach : (bench host).Reach FailsProtected state history)
    (ended : state.pc = .ended) : EveryChangeReverted history :=
  have inv := teardown_invariant reach
  inv.settled (inv.outside (.inr ended))

end Runs

section Failure

def sixtyFourPages : SysfsState := ⟨sixtyFour, fun _ => none⟩

/-- `host-prep.sh` changes the number of hugepages. -/
def tuneHugepages : List BenchAction :=
  [.next, .start, .finish true, .start, .finish true, .start,
    .call (hugepages .apply "128" true)]

/-- A command of a scenario fails, and so does the first teardown, which a signal has called. -/
theorem reverted_at_end_interrupted : ∃ state : Bench, ∃ history, state.pc = .ended ∧
    history = [.changed (.fixed .nrHugepages), .reverted] ∧ EveryChangeReverted history := by
  obtain ⟨state, history, reach, checked⟩ := (bench sixtyFourPages).exists_reach_of_run
    FailsProtected
    (tuneHugepages ++ [.finish true, .start, .finish true, .start, .finish false, .start,
      .finish true, .start, .start, .signal, .finish false, .trap, .start, .start,
      .finish false, .exit, .start, .start, .finish true, .start, .finish false, .start,
      .call (hugepages .revert "" true), .finish true])
    (fun reached => reached.1.pc = .ended ∧
      reached.2 = [.changed (.fixed .nrHugepages), .reverted])
    (by decide +kernel) (by decide +kernel)
  obtain ⟨ended, shows⟩ := of_decide_eq_true checked
  exact ⟨state, history, ended, shows, reverted_at_end reach ended⟩

/-- `host-prep.sh` fails behind its first write. -/
theorem left_tuned : ¬ ∀ host state history,
    (bench host).Reachable state history → state.pc = .ended → EveryChangeReverted history := by
  intro always
  obtain ⟨state, history, reach, checked⟩ := (bench sixtyFourPages).exists_reach_of_run
    (fun _ _ => True) (tuneHugepages ++ [.finish false, .exit, .start])
    (fun reached => reached.1.pc = .ended ∧ reached.2 = [.changed (.fixed .nrHugepages)])
    (System.allowedAlong_true _ _ _) (by decide +kernel)
  obtain ⟨ended, shows⟩ := of_decide_eq_true checked
  have reverted := always sixtyFourPages state history reach ended [] (.fixed .nrHugepages) [] shows
  contradiction

end Failure
end TradingPipeline.Scripts
