import TradingPipeline.Shmbus.Initialisation

/-! What openers that die leave to the next one.

They run one after the other, and each of them may stop for ever after any of its steps. The
magic is stored before the ready word; whoever dies between the two leaves a bus that looks
initialised to everyone after him and never becomes ready.
-/

set_option autoImplicit false

namespace TradingPipeline.Shmbus

open Foundation (System)

/-- The cursors and all sequence numbers are zero. -/
structure SpscRing.Initialised (ring : SpscRing) : Prop where
  head : ring.head = 0
  tail : ring.tail = 0
  seq : ∀ index, (ring.slots index).seq = 0

/-- What a creator leaves that gets through the cold start. -/
structure BusLayout.Initialised (layout : BusLayout) : Prop where
  header : layout.header = ⟨busMagic, busVersion, 1⟩
  ring : ∀ which, (layout.ring which).Initialised

namespace OpenerPc

def returned : OpenerPc → Bool
  | .attached | .failed _ => true
  | _ => false

/-- The most steps to the return of an opener that does not have to wait. -/
def stepsLeft : OpenerPc → Nat
  | .openFile => 13
  | .readLen => 12
  | .setLen => 11
  | .map _ => 10
  | .loadMagic => 9
  | .zero => 8
  | .initTicks => 7
  | .initOrders => 6
  | .storeVersion => 5
  | .storeMagic => 4
  | .storeReady | .loadVersion => 3
  | .spin => 2
  | .finish => 1
  | .attached | .failed _ => 0

/-- The header that an opener finds when no other has died before the ready word. -/
def expects : OpenerPc → BusHeader → Prop
  | .initTicks, header | .initOrders, header | .storeVersion, header => header = ⟨0, 0, 0⟩
  | .storeMagic, header => header = ⟨0, busVersion, 0⟩
  | .storeReady, header => header = ⟨busMagic, busVersion, 0⟩
  | .loadVersion, header | .spin, header | .finish, header | .attached, header =>
    header = ⟨busMagic, busVersion, 1⟩
  | _, header => header.magic ≠ busMagic ∨ header = ⟨busMagic, busVersion, 1⟩

/-- The way to the ready word past a magic that is already there, and the wait for it. -/
def waits : OpenerPc → Bool
  | .openFile | .readLen | .map false | .loadMagic | .loadVersion | .spin => true
  | _ => false

end OpenerPc

section File

variable {file written : BusFile} {pc next : OpenerPc}

theorem initialised_zeroed : SpscRing.zeroed.Initialised := ⟨rfl, rfl, fun _ => rfl⟩

theorem initialised_initInPlace (ring : SpscRing) : ring.initInPlace.Initialised :=
  ⟨rfl, rfl, fun _ => rfl⟩

theorem openedStep_initialised (rings : ∀ which, (file.layout.ring which).Initialised)
    (step : openedStep file pc = some (written, next)) (which : BusRing) :
    (written.layout.ring which).Initialised := by
  by_cases keeps : pc.wipes = false
  · rw [openedStep_ring step keeps]
    exact rings which
  · cases pc with
    | zero =>
      cases step
      exact initialised_zeroed
    | initTicks | initOrders =>
      cases step
      simp only [BusFile.initRing, BusLayout.setRing, Function.update_apply]
      split
      · exact initialised_initInPlace _
      · exact rings which
    | _ => exact absurd rfl keeps

/-- Whatever the header holds that is expected, the step leaves what the next one expects, and
it is a step closer to the return. -/
theorem openedStep_expects (expects : pc.expects file.layout.header)
    (step : openedStep file pc = some (written, next)) :
    next.expects written.layout.header ∧ next.stepsLeft < pc.stepsLeft := by
  cases openedStep_inv step with
  | foreign other => exact ⟨.inl other, by decide⟩
  | known same => exact ⟨expects.resolve_left (not_not.mpr same), by decide⟩
  | zero => exact ⟨rfl, by decide⟩
  | storeVersion | storeMagic | storeReady =>
    simp only [OpenerPc.expects] at expects
    simp only [OpenerPc.expects, BusFile.setHeader, expects]
    exact ⟨trivial, by decide⟩
  | mismatch other => exact absurd (congrArg BusHeader.version expects) other
  | unready other => exact absurd (congrArg BusHeader.ready expects) other
  | _ => exact ⟨expects, by decide⟩

theorem zero_ne_busMagic : (0 : UInt32) ≠ busMagic := by decide

theorem failed_expects {header : BusHeader} (expects : pc.expects header)
    (system : pc.system = true) :
    (OpenerPc.failed .os).expects header ∧ (OpenerPc.failed .os).stepsLeft < pc.stepsLeft := by
  cases pc with
  | openFile | readLen | setLen | map => exact ⟨expects, Nat.zero_lt_succ _⟩
  | _ => contradiction

theorem openedStep_next (step : openedStep file pc = some (written, next)) : next ≠ .openFile := by
  cases openedStep_inv step <;> simp only [ne_eq, reduceCtorEq, not_false_eq_true]

theorem openedStep_isSome (opened : pc ≠ .openFile) (going : pc.returned = false) :
    ∃ written next, openedStep file pc = some (written, next) := by
  cases pc with
  | openFile => exact absurd rfl opened
  | attached | failed => contradiction
  | _ => exact ⟨_, _, rfl⟩

theorem expects_openFile {header : BusHeader} (expects : pc.expects header)
    (ready : pc ≠ .storeReady) : OpenerPc.expects .openFile header := by
  cases pc with
  | initTicks | initOrders | storeVersion | storeMagic =>
    cases expects
    exact .inl zero_ne_busMagic
  | loadVersion | spin | finish | attached => exact .inr expects
  | storeReady => exact absurd rfl ready
  | _ => exact expects

theorem openedStep_waits (opened : pc ≠ .openFile) (len : file.len = busSize)
    (header : file.layout.header = ⟨busMagic, busVersion, 0⟩) (waits : pc.waits = true) :
    ∃ next, openedStep file pc = some (file, next) ∧ next.waits = true := by
  cases pc with
  | readLen =>
    refine ⟨.map false, ?_, rfl⟩
    simp only [openedStep, len, Nat.lt_irrefl, if_false]
  | map fresh =>
    cases fresh with
    | true => contradiction
    | false => exact ⟨.loadMagic, rfl, rfl⟩
  | loadMagic =>
    refine ⟨.loadVersion, ?_, rfl⟩
    simp only [openedStep, header, ne_eq, not_true_eq_false, if_false]
  | loadVersion =>
    refine ⟨.spin, ?_, rfl⟩
    simp only [openedStep, header, ne_eq, not_true_eq_false, if_false]
  | spin =>
    refine ⟨.spin, ?_, rfl⟩
    simp only [openedStep, header]
    rfl
  | openFile => exact absurd rfl opened
  | _ => contradiction

end File

section Bus

variable {n : Nat}

/-- A step of the call of this opener. -/
def BusAction.opens (id : Fin n) : BusAction n → Bool
  | .opener other | .osError other => other = id
  | .ring _ _ _ => false

/-- The openers run in their order: once a later one has begun, the earlier ones are dead or
have returned. -/
def OneAtATime (state : BusState n) (action : BusAction n) : Prop :=
  ∃ id, action.opens id = true ∧ ∀ later, id < later → state.openers later = .openFile

instance (state : BusState n) (action : BusAction n) : Decidable (OneAtATime state action) :=
  inferInstanceAs (Decidable (∃ id, action.opens id = true ∧
    ∀ later, id < later → state.openers later = .openFile))

/-- The opener, running alone from here, comes to its return, and where that is `Ok` the bus is
initialised. -/
structure Recovers (state : BusState n) (id : Fin n) : Prop where
  ends : ∃ bound, ∀ schedule final events, (∀ action ∈ schedule, action.opens id = true) →
    (bus n).runFrom state schedule = some (final, events) → schedule.length ≤ bound
  proceeds : ∀ schedule final events, (∀ action ∈ schedule, action.opens id = true) →
    (bus n).runFrom state schedule = some (final, events) → (final.openers id).returned = false →
    ((bus n).step final (.opener id)).isSome
  initialised : ∀ schedule final events, (∀ action ∈ schedule, action.opens id = true) →
    (bus n).runFrom state schedule = some (final, events) → final.openers id = .attached →
    ∃ file, final.file = some file ∧ file.layout.Initialised

/-- What is in the file, or will be when somebody creates it. -/
def BusState.layout (state : BusState n) : BusLayout := (state.file.getD .empty).layout

/-- No other opener has died between the magic and the ready word. -/
structure Clean (state : BusState n) (id : Fin n) : Prop where
  created : state.file = none → state.openers id = .openFile ∨ state.openers id = .failed .os
  ring : ∀ which, (state.layout.ring which).Initialised
  expects : (state.openers id).expects state.layout.header
  nobody : ∀ other, other ≠ id → state.openers other ≠ .storeReady

/-- Another opener has died there. -/
structure Orphaned (state : BusState n) (id : Fin n) : Prop where
  orphan : ∃ other, other ≠ id ∧ state.openers other = .storeReady
  file : ∃ file, state.file = some file ∧ file.len = busSize ∧
    file.layout.header = ⟨busMagic, busVersion, 0⟩
  waits : (state.openers id).waits = true ∨ state.openers id = .failed .os

section Steps

variable {state after : BusState n} {action : BusAction n} {events history : List (BusEvent n)}
  {id : Fin n}

theorem opens_opener {other : Fin n} (opens : (BusAction.opener other).opens id = true) :
    other = id := of_decide_eq_true opens

theorem opens_osError {other : Fin n} (opens : (BusAction.osError other).opens id = true) :
    other = id := of_decide_eq_true opens

theorem Clean.setOpener (clean : Clean state id) {file : Option BusFile} {next : OpenerPc}
    (created : file = none → next = .failed .os)
    (ring : ∀ which, ((file.getD .empty).layout.ring which).Initialised)
    (expects : next.expects (file.getD .empty).layout.header)
    (closer : next.stepsLeft < (state.openers id).stepsLeft) :
    Clean ({ state with file := file }.setOpener id next) id ∧
      (({ state with file := file }.setOpener id next).openers id).stepsLeft <
        (state.openers id).stepsLeft := by
  rw [BusState.setOpener_self]
  refine ⟨?_, closer⟩
  constructor
  case created =>
    intro none
    rw [BusState.setOpener_self]
    exact .inr (created none)
  case ring => exact ring
  case expects =>
    rw [BusState.setOpener_self]
    exact expects
  case nobody =>
    intro other ne
    rw [BusState.setOpener_of_ne ne]
    exact clean.nobody other ne

theorem Clean.step (clean : Clean state id) (opens : action.opens id = true)
    (step : busStep state action = some (after, events)) :
    Clean after id ∧ (after.openers id).stepsLeft < (state.openers id).stepsLeft := by
  cases busStep_inv step with
  | openFile at' =>
    cases opens_opener opens
    have expects := clean.expects
    rw [at'] at expects
    apply clean.setOpener
    case created => exact fun none => absurd none (Option.some_ne_none _)
    case ring => exact clean.ring
    case expects => exact expects
    case closer =>
      rw [at']
      decide
  | @opened _ file written pc exists' taken =>
    cases opens_opener opens
    have ring := clean.ring
    have expects := clean.expects
    simp only [BusState.layout, exists', Option.getD_some] at ring expects
    obtain ⟨expected, closer⟩ := openedStep_expects expects taken
    apply clean.setOpener
    case created => exact fun none => absurd none (Option.some_ne_none _)
    case ring => exact openedStep_initialised ring taken
    case expects => exact expected
    case closer => exact closer
  | osError system =>
    cases opens_osError opens
    obtain ⟨expected, closer⟩ := failed_expects clean.expects system
    exact clean.setOpener (fun _ => rfl) clean.ring expected closer
  | ring => contradiction

theorem Clean.proceeds (clean : Clean state id) (going : (state.openers id).returned = false) :
    (busStep state (.opener id)).isSome := by
  by_cases at' : state.openers id = .openFile
  · simp only [busStep, if_pos at', Option.isSome_some]
  · cases found : state.file with
    | none =>
      rcases clean.created found with opening | failed
      · exact absurd opening at'
      · rw [failed] at going
        contradiction
    | some file =>
      obtain ⟨written, next, taken⟩ := openedStep_isSome at' going
      rw [busStep_opened found taken]
      rfl

theorem Orphaned.again (orphaned : Orphaned state id) (waits : (state.openers id).waits = true) :
    ∃ after events, busStep state (.opener id) = some (after, events) ∧
      Orphaned after id ∧ (after.openers id).waits = true := by
  obtain ⟨other, apart, dead⟩ := orphaned.orphan
  obtain ⟨file, found, len, header⟩ := orphaned.file
  have still {pc : OpenerPc} (kept : pc.waits = true) :
      Orphaned ({ state with file := some file }.setOpener id pc) id := by
    refine ⟨⟨other, apart, ?_⟩, ⟨file, rfl, len, header⟩, .inl ?_⟩
    · rw [BusState.setOpener_of_ne apart]
      exact dead
    · rw [BusState.setOpener_self]
      exact kept
  -- it finds the magic and the version, and waits for a ready word that nobody stores
  by_cases at' : state.openers id = .openFile
  · refine ⟨{ state with file := some file }.setOpener id .readLen, [], ?_, still rfl, ?_⟩
    · simp only [busStep, if_pos at', found, Option.getD_some]
    · rw [BusState.setOpener_self]
      rfl
  · obtain ⟨next, taken, kept⟩ := openedStep_waits at' len header waits
    refine ⟨_, _, busStep_opened found taken, still kept, ?_⟩
    rw [BusState.setOpener_self]
    exact kept

theorem Orphaned.step (orphaned : Orphaned state id) (opens : action.opens id = true)
    (step : busStep state action = some (after, events)) : Orphaned after id := by
  cases action with
  | opener other =>
    cases opens_opener opens
    rcases orphaned.waits with waits | failed
    · obtain ⟨_, _, taken, kept, _⟩ := orphaned.again waits
      cases taken.symm.trans step
      exact kept
    · obtain ⟨file, found, _⟩ := orphaned.file
      simp [busStep, failed, found, openedStep] at step
  | osError other =>
    cases opens_osError opens
    obtain ⟨other, apart, dead⟩ := orphaned.orphan
    simp only [busStep, Option.ite_none_right_eq_some, Option.some.injEq, Prod.mk.injEq] at step
    obtain ⟨-, rfl, -⟩ := step
    refine ⟨⟨other, apart, ?_⟩, orphaned.file, .inr BusState.setOpener_self⟩
    rw [BusState.setOpener_of_ne apart]
    exact dead
  | ring => contradiction

theorem openers_step (opens : action.opens id = true)
    (step : busStep state action = some (after, events)) :
    after.openers id ≠ .openFile ∧
      ∀ other, other ≠ id → after.openers other = state.openers other := by
  cases busStep_inv step with
  | openFile at' =>
    cases opens_opener opens
    refine ⟨?_, fun other ne => BusState.setOpener_of_ne ne⟩
    rw [BusState.setOpener_self]
    exact OpenerPc.noConfusion
  | opened exists' taken =>
    cases opens_opener opens
    refine ⟨?_, fun other ne => BusState.setOpener_of_ne ne⟩
    rw [BusState.setOpener_self]
    exact openedStep_next taken
  | osError system =>
    cases opens_osError opens
    refine ⟨?_, fun other ne => BusState.setOpener_of_ne ne⟩
    rw [BusState.setOpener_self]
    exact OpenerPc.noConfusion
  | ring => contradiction

/-- The next opener finds the file as the last one leaves it. -/
theorem handOver {next : Fin n} (sized : Sized state) (last : Clean state id ∨ Orphaned state id)
    (fresh : state.openers next = .openFile) : Clean state next ∨ Orphaned state next := by
  have waits : (state.openers next).waits = true := by
    rw [fresh]
    rfl
  have apart {other : Fin n} (dead : state.openers other = .storeReady) : other ≠ next := by
    rintro rfl
    rw [fresh] at dead
    contradiction
  rcases last with clean | orphaned
  · have expects := clean.expects
    -- only the creator that dies before the ready word leaves an orphan
    by_cases dies : state.openers id = .storeReady
    · obtain ⟨file, found, len⟩ := sized.whole id (by rw [dies]; rfl)
      simp only [dies, BusState.layout, found, Option.getD_some] at expects
      exact .inr ⟨⟨id, apart dies, dies⟩, ⟨file, found, len, expects⟩, .inl waits⟩
    · refine .inl ⟨fun _ => .inl fresh, clean.ring, ?_, fun other ne => ?_⟩
      · rw [fresh]
        exact expects_openFile expects dies
      · by_cases same : other = id
        · rwa [same]
        · exact clean.nobody other same
  · obtain ⟨other, -, dead⟩ := orphaned.orphan
    exact .inr ⟨⟨other, apart dead, dead⟩, orphaned.file, .inl waits⟩

/-- Whoever has nobody after him that has begun finds the file in order, or waits for ever. -/
def Orderly (state : BusState n) : Prop :=
  ∀ id, (∀ later, id < later → state.openers later = .openFile) →
    Clean state id ∨ Orphaned state id

theorem Orderly.step (orderly : Orderly state) (sized : Sized after)
    (one : OneAtATime state action) (step : busStep state action = some (after, events)) :
    Orderly after := by
  obtain ⟨id, opens, last⟩ := one
  obtain ⟨begun, frame⟩ := openers_step opens step
  have here : Clean after id ∨ Orphaned after id := by
    rcases orderly id last with clean | orphaned
    · exact .inl (clean.step opens step).1
    · exact .inr (orphaned.step opens step)
  intro other lastOther
  rcases Nat.lt_trichotomy other.val id.val with before | same | behind
  · exact absurd (lastOther id before) begun
  · rwa [Fin.ext same]
  · refine handOver sized here ?_
    rw [frame other (Fin.ne_of_gt behind)]
    exact last other behind

theorem orderly_of_reach (reach : (bus n).Reach OneAtATime state history) : Orderly state := by
  refine reach.invariant (fun state _ => Orderly state) ?_ fun before orderly one step =>
    orderly.step ((sized_of_reachable before.reachable).step step) one step
  intro id _
  refine .inl ⟨fun _ => .inl rfl, fun _ => initialised_zeroed, .inl zero_ne_busMagic, ?_⟩
  intro _ _
  exact OpenerPc.noConfusion

end Steps

section Runs

variable {state : BusState n} {history : List (BusEvent n)} {id : Fin n}

theorem Clean.recovers (clean : Clean state id) : Recovers state id := by
  have along {schedule : List (BusAction n)} {final : BusState n} {events : List (BusEvent n)}
      (each : ∀ action ∈ schedule, action.opens id = true)
      (run : (bus n).runFrom state schedule = some (final, events)) :=
    System.length_le_of_run (fun state => (state.openers id).stepsLeft)
      (fun state => Clean state id) (fun action => action.opens id = true)
      (fun clean opens step => clean.step opens step) clean each run
  constructor
  case ends =>
    refine ⟨(state.openers id).stepsLeft, fun schedule final events each run => ?_⟩
    have bound := (along each run).2
    omega
  case proceeds =>
    intro schedule final events each run going
    exact (along each run).1.proceeds going
  case initialised =>
    intro schedule final events each run attached
    have clean := (along each run).1
    have expects := clean.expects
    have ring := clean.ring
    rw [attached] at expects
    -- without a file nobody can have attached
    cases found : final.file with
    | none =>
      rcases clean.created found with opening | failed
      · rw [attached] at opening
        contradiction
      · rw [attached] at failed
        contradiction
    | some file =>
      simp only [BusState.layout, found, Option.getD_some] at expects ring
      exact ⟨file, rfl, expects, ring⟩

/-- Whoever comes after a creator that died before the ready word never returns. -/
theorem Orphaned.not_recovers (orphaned : Orphaned state id)
    (waits : (state.openers id).waits = true) : ¬ Recovers state id := by
  intro recovers
  obtain ⟨bound, ends⟩ := recovers.ends
  obtain ⟨final, events, run⟩ := System.exists_run_of_endless (M := bus n)
    (fun state => Orphaned state id ∧ (state.openers id).waits = true) (.opener id)
    (fun waiting => waiting.1.again waiting.2) ⟨orphaned, waits⟩ (bound + 1)
  have length := ends _ final events ?_ run
  · rw [List.length_replicate] at length
    omega
  · intro action mem
    rw [List.eq_of_mem_replicate mem]
    exact decide_eq_true rfl

/-- A lone opener after the others recovers the bus if and only if none of them has died
between the magic and the ready word. -/
theorem recovers_iff (reach : (bus n).Reach OneAtATime state history)
    (fresh : ∀ later, id ≤ later → state.openers later = .openFile) :
    Recovers state id ↔ ∀ other, state.openers other ≠ .storeReady := by
  have opening := fresh id (Fin.le_refl id)
  have waits : (state.openers id).waits = true := by
    rw [opening]
    rfl
  have order := orderly_of_reach reach id fun later less => fresh later (Fin.le_of_lt less)
  constructor
  · intro recovers other dead
    rcases order with clean | orphaned
    · refine clean.nobody other ?_ dead
      rintro rfl
      rw [opening] at dead
      contradiction
    · exact orphaned.not_recovers waits recovers
  · intro nobody
    rcases order with clean | orphaned
    · exact clean.recovers
    · obtain ⟨other, -, dead⟩ := orphaned.orphan
      exact absurd dead (nobody other)

/-- The first creator dies after the version and before the magic. -/
theorem recovers_iff_unmarked : ∃ state history, (bus 2).Reach OneAtATime state history ∧
    state.openers 0 = .storeMagic ∧
    (Recovers state 1 ↔ ∀ other, state.openers other ≠ .storeReady) := by
  obtain ⟨state, history, reach, died⟩ := System.exists_reach_of_run (bus 2) OneAtATime
    (List.replicate 8 (.opener 0))
    (fun final => final.1.openers 0 = .storeMagic ∧ ∀ later, 1 ≤ later →
      final.1.openers later = .openFile) (by decide +kernel) (by decide +kernel)
  obtain ⟨died, fresh⟩ := of_decide_eq_true died
  exact ⟨state, history, reach, died, recovers_iff reach fresh⟩

/-- The first creator dies after the magic and before the ready word: the next opener does not
come to an end. -/
theorem creator_orphans : ¬ ∀ (n : Nat) (state : BusState n) (history : List (BusEvent n))
    (id : Fin n), (bus n).Reach OneAtATime state history →
      (∀ later, id ≤ later → state.openers later = .openFile) → Recovers state id := by
  intro recovers
  obtain ⟨state, history, reach, died⟩ := System.exists_reach_of_run (bus 2) OneAtATime
    (List.replicate 9 (.opener 0))
    (fun final => final.1.openers 0 = .storeReady ∧ ∀ later, 1 ≤ later →
      final.1.openers later = .openFile) (by decide +kernel) (by decide +kernel)
  obtain ⟨died, fresh⟩ := of_decide_eq_true died
  have opening := fresh 1 (Fin.le_refl 1)
  rcases orderly_of_reach reach 1 fun later less => fresh later (Fin.le_of_lt less) with
    clean | orphaned
  · exact clean.nobody 0 (by decide) died
  · exact orphaned.not_recovers (by rw [opening]; rfl) (recovers 2 state history 1 reach fresh)

end Runs

end Bus

end TradingPipeline.Shmbus
