import TradingPipeline.Scripts.HostPrep

/-! `run-bench.sh` with `PROD=1`, under `set -e` and with its trap.

Each step starts or finishes a command, which may fail. `host-prep.sh` makes its calls of
`write_sysfs` one by one while it runs, and may fail after any of them. A signal that is trapped
waits until the command that runs has finished; then `prod_teardown` is called, and the script goes
on where it was.
-/

set_option autoImplicit false

namespace TradingPipeline.Scripts

open Foundation

inductive BenchPc where
  /-- The commands before the trap is set. -/
  | prologue
  | checkRoot
  | announceApply
  | hostPrep
  | announceAlloc
  | cacheAlloc
  | allocWarning
  | setPrepped
  /-- All commands behind `prod_setup`. -/
  | body
  /-- A command has failed, or `exit` was called. -/
  | failed
  /-- In the `EXIT` trap. -/
  | exiting
  | ended
  deriving DecidableEq

/-- Where a call of `prod_teardown` is. -/
inductive TeardownPc where
  | test
  | announce
  | clean
  | revert
  | failed
  deriving DecidableEq

structure Bench where
  pc : BenchPc
  /-- The calls of `prod_teardown` that are not over, the innermost first. -/
  teardowns : List TeardownPc
  /-- A command is running. -/
  running : Bool
  /-- The trapped signals that wait. -/
  pending : Nat
  /-- `PROD_PREPPED`. -/
  prepped : Bool
  host : SysfsState
  /-- A tunable was changed, and no revert has been run since. -/
  owed : Bool

inductive BenchAction where
  /-- `INT` or `TERM` arrives. -/
  | signal
  /-- The handler of a signal is called. -/
  | trap
  | start
  /-- The running `host-prep.sh` calls `write_sysfs`. -/
  | call (call : Call)
  | finish (ok : Bool)
  /-- The shell exits because of a failure. -/
  | exit
  /-- There is no more command before the trap is set, or in the whole script. -/
  | next
  deriving DecidableEq

inductive BenchEvent where
  | changed (tunable : Tunable)
  | reverted
  deriving DecidableEq

namespace Bench

variable (bench : Bench)

/-- The `EXIT` trap; it is run once. -/
def exitShell : Bench :=
  if bench.pc = .exiting then { bench with pc := .ended, teardowns := [] }
  else { bench with pc := .exiting, teardowns := [.test] }

/-- A call of `prod_teardown` returns to what is behind it, the last one to the end. -/
def return' (behind : List TeardownPc) : Bench :=
  { bench with
    pc := if bench.pc = .exiting ∧ behind = [] then .ended else bench.pc
    teardowns := behind
    running := false }

/-- The next command of a teardown starts; the test of the flag cannot fail. -/
def startTeardown (behind : List TeardownPc) : TeardownPc → Option (Bench × List BenchEvent)
  | .test =>
    some (if bench.prepped then { bench with teardowns := .announce :: behind }
      else bench.return' behind, [])
  | .announce | .clean => some ({ bench with running := true }, [])
  | .revert => some ({ bench with running := true, owed := false }, [.reverted])
  | .failed => none

/-- The next command of the script starts; the assignment cannot fail. -/
def startScript : Option (Bench × List BenchEvent) :=
  match bench.pc with
  | .setPrepped => some ({ bench with pc := .body, prepped := true }, [])
  | .failed | .exiting | .ended => none
  | _ => some ({ bench with running := true }, [])

/-- The command of a teardown finishes; only the failure of the first `echo` is not caught. -/
def finishTeardown (behind : List TeardownPc) (ok : Bool) : TeardownPc → Option Bench
  | .announce =>
    some { bench with running := false, teardowns := (if ok then .clean else .failed) :: behind }
  | .clean => some { bench with running := false, teardowns := .revert :: behind }
  | .revert => some (bench.return' behind)
  | .test | .failed => none

/-- Where the script goes on after a command. -/
def scriptNext (ok : Bool) : BenchPc → Option BenchPc
  | .prologue => some (if ok then .prologue else .ended)
  | .checkRoot => some (if ok then .announceApply else .failed)
  | .announceApply => some (if ok then .hostPrep else .failed)
  | .hostPrep => some (if ok then .announceAlloc else .failed)
  | .announceAlloc => some (if ok then .cacheAlloc else .failed)
  -- the failure of this one is caught
  | .cacheAlloc => some (if ok then .setPrepped else .allocWarning)
  | .allocWarning => some (if ok then .setPrepped else .failed)
  | .body => some (if ok then .body else .failed)
  | .setPrepped | .failed | .exiting | .ended => none

/-- The mode of the `host-prep.sh` that is running. -/
def hostPrepMode : Option Mode :=
  match bench.teardowns with
  | .revert :: _ => some .revert
  | [] => if bench.pc = .hostPrep then some .apply else none
  | _ => none

/-- A call of `write_sysfs` in apply mode changes its tunable when it reports so. -/
def called (call : Call) : Bench × List BenchEvent :=
  let (host, report) := call.run bench.host
  match call.mode, report with
  | .apply, .set _ _ => ({ bench with host := host, owed := true }, [.changed call.tunable])
  | _, _ => ({ bench with host := host }, [])

end Bench

open Bench in
def benchStep (bench : Bench) : BenchAction → Option (Bench × List BenchEvent)
  | .signal =>
    match bench.pc with
    | .prologue => some ({ bench with pc := .ended, running := false }, [])
    | .ended => none
    | _ => some ({ bench with pending := bench.pending + 1 }, [])
  | .trap =>
    if bench.running = false ∧ 0 < bench.pending ∧ bench.pc ≠ .ended then
      some ({ bench with
        teardowns := .test :: bench.teardowns
        pending := bench.pending - 1 }, [])
    else none
  | .start =>
    if bench.running = false ∧ bench.pending = 0 then
      match bench.teardowns with
      | teardown :: behind => bench.startTeardown behind teardown
      | [] => bench.startScript
    else none
  | .call call =>
    if bench.running ∧ bench.hostPrepMode = some call.mode then some (bench.called call) else none
  | .finish ok =>
    if bench.running then
      match bench.teardowns with
      | teardown :: behind => (bench.finishTeardown behind ok teardown).map fun after => (after, [])
      | [] => (scriptNext ok bench.pc).map fun pc => ({ bench with pc := pc, running := false }, [])
    else none
  | .exit =>
    -- waiting signals are served first
    if bench.running = false ∧ bench.pending = 0 ∧
        (bench.teardowns.head? = some .failed ∨ bench.teardowns = [] ∧ bench.pc = .failed) then
      some (bench.exitShell, [])
    else none
  | .next =>
    if bench.running = false ∧ bench.teardowns = [] then
      match bench.pc with
      | .prologue => some ({ bench with pc := .checkRoot }, [])
      | .body => some (bench.exitShell, [])
      | _ => none
    else none

/-- Everything that one step can do. -/
inductive BenchStepped (bench : Bench) : BenchAction → Bench → List BenchEvent → Prop where
  | killed (at' : bench.pc = .prologue) :
      BenchStepped bench .signal { bench with pc := .ended, running := false } []
  | signal (trapped : bench.pc ≠ .prologue) (alive : bench.pc ≠ .ended) :
      BenchStepped bench .signal { bench with pending := bench.pending + 1 } []
  | trap (idle : bench.running = false) (waits : 0 < bench.pending) (alive : bench.pc ≠ .ended) :
      BenchStepped bench .trap
        { bench with teardowns := .test :: bench.teardowns, pending := bench.pending - 1 } []
  | startTeardown {teardown : TeardownPc} {behind : List TeardownPc} {after : Bench}
      {events : List BenchEvent} (top : bench.teardowns = teardown :: behind)
      (step : bench.startTeardown behind teardown = some (after, events)) :
      BenchStepped bench .start after events
  | startScript {after : Bench} {events : List BenchEvent} (top : bench.teardowns = [])
      (step : bench.startScript = some (after, events)) : BenchStepped bench .start after events
  | call {call : Call} {after : Bench} {events : List BenchEvent}
      (running : bench.running = true) (mode : bench.hostPrepMode = some call.mode)
      (step : bench.called call = (after, events)) : BenchStepped bench (.call call) after events
  | finishTeardown {ok : Bool} {teardown : TeardownPc} {behind : List TeardownPc} {after : Bench}
      (running : bench.running = true) (top : bench.teardowns = teardown :: behind)
      (step : bench.finishTeardown behind ok teardown = some after) :
      BenchStepped bench (.finish ok) after []
  | finishScript {ok : Bool} {pc : BenchPc} (running : bench.running = true)
      (top : bench.teardowns = []) (step : Bench.scriptNext ok bench.pc = some pc) :
      BenchStepped bench (.finish ok) { bench with pc := pc, running := false } []
  | exit (idle : bench.running = false) (served : bench.pending = 0)
      (dead : bench.teardowns.head? = some .failed ∨ bench.teardowns = [] ∧ bench.pc = .failed) :
      BenchStepped bench .exit bench.exitShell []
  | setTrap (at' : bench.pc = .prologue) :
      BenchStepped bench .next { bench with pc := .checkRoot } []
  | finished (idle : bench.running = false) (at' : bench.pc = .body) :
      BenchStepped bench .next bench.exitShell []

theorem benchStep_inv {bench after : Bench} {action : BenchAction} {events : List BenchEvent}
    (step : benchStep bench action = some (after, events)) :
    BenchStepped bench action after events := by
  cases action with
  | signal =>
    simp only [benchStep] at step
    split at step
    · next at' => cases step; exact .killed at'
    · contradiction
    · next trapped alive => cases step; exact .signal trapped alive
  | trap =>
    obtain ⟨⟨idle, waits, alive⟩, same⟩ := Option.ite_none_right_eq_some.mp step
    cases same
    exact .trap idle waits alive
  | start =>
    obtain ⟨_, step⟩ := Option.ite_none_right_eq_some.mp step
    split at step
    · next top => exact .startTeardown top step
    · next top => exact .startScript top step
  | call call =>
    obtain ⟨⟨running, mode⟩, same⟩ := Option.ite_none_right_eq_some.mp step
    exact .call running mode (Option.some.inj same)
  | finish ok =>
    obtain ⟨running, step⟩ := Option.ite_none_right_eq_some.mp step
    split at step
    · next top =>
      obtain ⟨_, finish, same⟩ := Option.map_eq_some_iff.mp step
      cases same
      exact .finishTeardown running top finish
    · next top =>
      obtain ⟨_, finish, same⟩ := Option.map_eq_some_iff.mp step
      cases same
      exact .finishScript running top finish
  | exit =>
    obtain ⟨⟨idle, served, dead⟩, same⟩ := Option.ite_none_right_eq_some.mp step
    cases same
    exact .exit idle served dead
  | next =>
    obtain ⟨⟨idle, _⟩, step⟩ := Option.ite_none_right_eq_some.mp step
    split at step
    · next at' => cases step; exact .setTrap at'
    · next at' => cases step; exact .finished idle at'
    · contradiction

/-- The script on a host in any state. -/
def bench (host : SysfsState) : System Bench BenchAction BenchEvent where
  start :=
    { pc := .prologue
      teardowns := []
      running := false
      pending := 0
      prepped := false
      host := host
      owed := false }
  step := benchStep

end TradingPipeline.Scripts
