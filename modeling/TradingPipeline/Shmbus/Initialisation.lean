import TradingPipeline.Shmbus.Shm

/-! Who initialises the bus, and when.

An opener decides on the cold start from the length and the magic that it read before, and
nothing keeps two of them from deciding so at once. Once a bus has been handed out and no
opener is on the way to the cold start, no opener ever gets there.
-/

set_option autoImplicit false

namespace TradingPipeline.Shmbus

open Foundation (System)

namespace OpenerPc

/-- The opener has found the file long enough, or has made it so. -/
def sized : OpenerPc → Bool
  | .openFile | .readLen | .setLen | .failed _ => false
  | _ => true

/-- The opener has taken the branch of the cold start and has not yet left the rings, or
takes that branch when it goes on alone and this magic is in the file. -/
def coldStarts (magic : UInt32) : OpenerPc → Bool
  | .setLen | .map true | .zero | .initTicks | .initOrders => true
  | .openFile | .readLen | .map false | .loadMagic => magic ≠ busMagic
  | _ => false

/-- The steps of its own that an opener takes before it overwrites anything. -/
def stepsToWipe : OpenerPc → Nat
  | .openFile => 5
  | .readLen => 4
  | .map false => 3
  | .setLen | .loadMagic => 2
  | .map true => 1
  | _ => 0

theorem not_wipes_of_warm {pc : OpenerPc} {magic : UInt32} (warm : pc.coldStarts magic = false) :
    pc.wipes = false := by
  cases pc with
  | zero | initTicks | initOrders => contradiction
  | _ => rfl

theorem coldStarts_busMagic {pc : OpenerPc} {magic : UInt32}
    (warm : pc.coldStarts magic = false) : pc.coldStarts busMagic = false := by
  cases pc with
  | map fresh =>
    cases fresh with
    | true => contradiction
    | false => rfl
  | setLen | zero | initTicks | initOrders => contradiction
  | _ => rfl

end OpenerPc

section File

variable {file written : BusFile} {pc next : OpenerPc}

theorem openedStep_len (step : openedStep file pc = some (written, next)) :
    written.len = if pc = .setLen then busSize else file.len := by
  cases openedStep_inv step <;> rfl

theorem openedStep_sized (step : openedStep file pc = some (written, next))
    (sized : next.sized = true) :
    pc.sized = true ∨ pc = .setLen ∨ pc = .readLen ∧ busSize ≤ file.len := by
  cases openedStep_inv step with
  | short => contradiction
  | whole long => exact .inr (.inr ⟨rfl, long⟩)
  | setLen => exact .inr (.inl rfl)
  | _ => exact .inl rfl

theorem openedStep_ring (step : openedStep file pc = some (written, next))
    (keeps : pc.wipes = false) : written.layout.ring = file.layout.ring := by
  cases openedStep_inv step with
  | zero | initTicks | initOrders => contradiction
  | _ => rfl

theorem openedStep_magic (step : openedStep file pc = some (written, next))
    (keeps : pc.wipes = false) :
    written.layout.header.magic = file.layout.header.magic ∨
      written.layout.header.magic = busMagic := by
  cases openedStep_inv step with
  | zero | initTicks | initOrders => contradiction
  | storeMagic => exact .inr rfl
  | _ => exact .inl rfl

theorem openedStep_warm (len : file.len = busSize)
    (warm : pc.coldStarts file.layout.header.magic = false)
    (step : openedStep file pc = some (written, next)) :
    next.coldStarts written.layout.header.magic = false := by
  cases openedStep_inv step with
  | short less => exact absurd less (Nat.not_lt.mpr len.ge)
  | foreign other => exact absurd other (of_decide_eq_false warm)
  | whole | mapFound => exact warm
  | setLen | mapFresh | zero | initTicks | initOrders => contradiction
  | _ => rfl

theorem openedStep_cold (opened : pc ≠ .openFile) (len : file.len = busSize)
    (cold : pc.coldStarts file.layout.header.magic = true) (keeps : pc.wipes = false) :
    ∃ written next, openedStep file pc = some (written, next) ∧ written.len = busSize ∧
      next.coldStarts written.layout.header.magic = true ∧
      next.stepsToWipe < pc.stepsToWipe := by
  cases pc with
  | readLen =>
    refine ⟨file, .map false, ?_, len, cold, by decide⟩
    simp only [openedStep, len, Nat.lt_irrefl, if_false]
  | setLen => exact ⟨_, _, rfl, rfl, rfl, by decide⟩
  | map fresh =>
    cases fresh with
    | true => exact ⟨_, _, rfl, len, rfl, by decide⟩
    | false => exact ⟨_, _, rfl, len, cold, by decide⟩
  | loadMagic =>
    have other : file.layout.header.magic ≠ busMagic := by
      simpa [OpenerPc.coldStarts] using cold
    refine ⟨file, .zero, ?_, len, rfl, by decide⟩
    simp only [openedStep, if_pos other]
  | _ => contradiction

end File

section Bus

variable {n : Nat}

namespace BusEvent

/-- The bus that an earlier event handed out is overwritten by another process. -/
def undoes : BusEvent n → BusEvent n → Bool
  | .opened id, .wiped other => id ≠ other
  | _, _ => false

end BusEvent

/-- No bus that has been handed out is initialised again. -/
def SingleInit (history : List (BusEvent n)) : Prop :=
  history.Pairwise fun earlier later => earlier.undoes later = false

instance (history : List (BusEvent n)) : Decidable (SingleInit history) :=
  inferInstanceAs (Decidable (history.Pairwise fun earlier later => earlier.undoes later = false))

namespace BusState

/-- The magic in the file; zero as long as there is no file. -/
def magic (state : BusState n) : UInt32 := (state.file.getD .empty).layout.header.magic

def coldStarts (state : BusState n) (id : Fin n) : Bool :=
  (state.openers id).coldStarts state.magic

def rings (state : BusState n) : Option (BusRing → SpscRing) :=
  state.file.map fun file => file.layout.ring

section Fields

variable {state : BusState n} {id other : Fin n} {pc : OpenerPc} {file : BusFile}

@[simp] theorem setOpener_file : (state.setOpener id pc).file = state.file := rfl

@[simp] theorem setOpener_self : (state.setOpener id pc).openers id = pc := by
  simp only [setOpener, Function.update_self]

@[simp] theorem setOpener_of_ne (ne : other ≠ id) :
    (state.setOpener id pc).openers other = state.openers other := by
  simp only [setOpener, Function.update_of_ne ne]

theorem coldStarts_setOpener_self :
    (state.setOpener id pc).coldStarts id = pc.coldStarts state.magic := by
  simp only [coldStarts, setOpener_self]
  rfl

theorem coldStarts_setOpener_of_ne (ne : other ≠ id) :
    (state.setOpener id pc).coldStarts other = state.coldStarts other := by
  simp only [coldStarts, setOpener_of_ne ne]
  rfl

theorem magic_eq (exists' : state.file = some file) :
    state.magic = file.layout.header.magic := by
  rw [magic, exists', Option.getD_some]

end Fields

end BusState

/-- When `open_or_create` returns `Ok`, no opener is on the way to the cold start. -/
def ReturnsAlone (state : BusState n) (action : BusAction n) : Prop :=
  ∀ id, action = .opener id → state.openers id = .finish → ∀ other, state.coldStarts other = false

instance (state : BusState n) (action : BusAction n) : Decidable (ReturnsAlone state action) :=
  inferInstanceAs (Decidable (∀ id, action = .opener id → state.openers id = .finish →
    ∀ other, state.coldStarts other = false))

/-- Who has passed the length has the whole file in front of him. -/
structure Sized (state : BusState n) : Prop where
  bounded : ∀ file, state.file = some file → file.len ≤ busSize
  whole : ∀ id, (state.openers id).sized = true → ∃ file, state.file = some file ∧
    file.len = busSize

/-- The file is whole and nobody is on the way to the cold start. -/
structure Settled (state : BusState n) : Prop where
  whole : ∃ file, state.file = some file ∧ file.len = busSize
  warm : ∀ id, state.coldStarts id = false

section Steps

variable {state after : BusState n} {action : BusAction n} {events history : List (BusEvent n)}
  {id : Fin n}

theorem Sized.step (sized : Sized state) (step : busStep state action = some (after, events)) :
    Sized after := by
  cases busStep_inv step with
  | @openFile id at' =>
    constructor
    · intro file exists'
      simp only [BusState.setOpener_file, Option.some.injEq] at exists'
      subst exists'
      cases found : state.file with
      | none => exact Nat.zero_le _
      | some old => exact sized.bounded old found
    · intro other past
      by_cases same : other = id
      · subst same
        rw [BusState.setOpener_self] at past
        contradiction
      · rw [BusState.setOpener_of_ne same] at past
        obtain ⟨file, found, len⟩ := sized.whole other past
        exact ⟨file, by rw [BusState.setOpener_file, found, Option.getD_some], len⟩
  | @opened id file written pc exists' taken =>
    have bounded := sized.bounded file exists'
    have kept := openedStep_len taken
    -- a file of full length keeps it
    have grown : file.len = busSize → written.len = busSize := by
      intro len
      rw [kept, len, ite_self]
    constructor
    · intro found same
      cases same
      rw [kept]
      split
      · exact Nat.le_refl _
      · exact bounded
    · intro other past
      refine ⟨written, rfl, ?_⟩
      by_cases same : other = id
      · subst same
        rw [BusState.setOpener_self] at past
        rcases openedStep_sized taken past with earlier | making | ⟨_, long⟩
        · obtain ⟨found, there, len⟩ := sized.whole other earlier
          cases exists'.symm.trans there
          exact grown len
        · rw [kept, if_pos making]
        · exact grown (Nat.le_antisymm bounded long)
      · rw [BusState.setOpener_of_ne same] at past
        obtain ⟨found, there, len⟩ := sized.whole other past
        cases exists'.symm.trans there
        exact grown len
  | @osError id system =>
    refine ⟨sized.bounded, fun other past => ?_⟩
    by_cases same : other = id
    · subst same
      rw [BusState.setOpener_self] at past
      contradiction
    · rw [BusState.setOpener_of_ne same] at past
      exact sized.whole other past
  | @ring id which action file ring shown attached exists' taken =>
    constructor
    · intro found same
      cases same
      exact (sized.bounded file exists' : file.len ≤ busSize)
    · intro other past
      obtain ⟨found, there, len⟩ := sized.whole other past
      cases exists'.symm.trans there
      exact ⟨_, rfl, len⟩

theorem sized_of_reachable (reach : (bus n).Reachable state history) : Sized state := by
  refine reach.invariant (fun state _ => Sized state) ?_ fun _ sized _ step => sized.step step
  exact ⟨nofun, nofun⟩

/-- A step that puts an opener elsewhere keeps the others off the cold start as long as the
magic stays, or becomes that of the bus. -/
theorem warm_setOpener (warm : ∀ other, state.coldStarts other = false) {file : Option BusFile}
    {pc : OpenerPc}
    (magic : BusState.magic { state with file := file } = state.magic ∨
      BusState.magic { state with file := file } = busMagic)
    (here : pc.coldStarts (BusState.magic { state with file := file }) = false)
    (other : Fin n) : ({ state with file := file }.setOpener id pc).coldStarts other = false := by
  by_cases same : other = id
  · subst same
    rw [BusState.coldStarts_setOpener_self]
    exact here
  · have before := warm other
    rw [BusState.coldStarts_setOpener_of_ne same]
    unfold BusState.coldStarts at before ⊢
    rcases magic with kept | stored
    · exact kept ▸ before
    · exact stored ▸ OpenerPc.coldStarts_busMagic before

theorem shows_wiped {pc : OpenerPc} {other : Fin n} (wiped : .wiped other ∈ pc.shows id) :
    pc.wipes = true ∧ other = id := by
  unfold OpenerPc.shows at wiped
  split at wiped
  · next wipes =>
    simp only [List.mem_singleton, BusEvent.wiped.injEq] at wiped
    exact ⟨wipes, wiped⟩
  · split at wiped <;> simp at wiped

/-- Once settled, the bus stays so, and nobody overwrites it. -/
theorem Settled.step (settled : Settled state)
    (step : busStep state action = some (after, events)) :
    Settled after ∧ ∀ event ∈ events, ∀ other, event ≠ .wiped other := by
  obtain ⟨⟨file, found, len⟩, warm⟩ := settled
  cases busStep_inv step with
  | @openFile id at' =>
    have same : some (state.file.getD .empty) = state.file := by rw [found]; rfl
    have here := warm id
    simp only [BusState.coldStarts, at'] at here
    rw [same]
    exact ⟨⟨⟨file, found, len⟩, warm_setOpener warm (.inl rfl) here⟩, nofun⟩
  | @opened id _ written pc exists' taken =>
    cases found.symm.trans exists'
    have magic := BusState.magic_eq found
    have here : (state.openers id).coldStarts file.layout.header.magic = false :=
      magic ▸ warm id
    -- an opener that is not on the way to the cold start overwrites nothing
    have keeps : (state.openers id).wipes = false := OpenerPc.not_wipes_of_warm here
    constructor
    · refine ⟨⟨written, rfl, ?_⟩, warm_setOpener warm ?_ (openedStep_warm len here taken)⟩
      · rw [openedStep_len taken, len, ite_self]
      · rw [magic]
        exact openedStep_magic taken keeps
    · rintro event shown other rfl
      rw [(shows_wiped shown).1] at keeps
      contradiction
  | @osError id system =>
    exact ⟨⟨⟨file, found, len⟩, warm_setOpener warm (.inl rfl) rfl⟩, nofun⟩
  | ring attached exists' taken =>
    cases found.symm.trans exists'
    constructor
    · refine ⟨⟨_, rfl, len⟩, fun other => ?_⟩
      have before := warm other
      simp only [BusState.coldStarts, BusState.magic, found] at before
      exact before
    · rintro event shown other rfl
      obtain ⟨_, _, impossible⟩ := List.mem_map.mp shown
      contradiction

theorem Settled.of_returns (sized : Sized state) (returns : state.openers id = .finish)
    (alone : ReturnsAlone state (.opener id)) : Settled state :=
  ⟨sized.whole id (by rw [returns]; rfl), alone id rfl returns⟩

end Steps

section Alone

variable {state after : BusState n} {action : BusAction n} {events : List (BusEvent n)} {id : Fin n}
  {file written : BusFile} {pc : OpenerPc}

/-- Some run from here has the opener overwrite the header or a ring. -/
def MayWipe (state : BusState n) (id : Fin n) : Prop :=
  ∃ schedule final later, (bus n).runFrom state schedule = some (final, later) ∧ .wiped id ∈ later

theorem MayWipe.of_step (step : busStep state action = some (after, events))
    (may : MayWipe after id) : MayWipe state id := by
  obtain ⟨schedule, final, later, run, wiped⟩ := may
  have first : (bus n).step state action = some (after, events) := step
  exact ⟨action :: schedule, final, events ++ later, System.runFrom_cons first run,
    List.mem_append_right events wiped⟩

theorem busStep_opened (exists' : state.file = some file)
    (step : openedStep file (state.openers id) = some (written, pc)) :
    busStep state (.opener id) = some ({ state with file := some written }.setOpener id pc,
      (state.openers id).shows id) := by
  have opened : state.openers id ≠ .openFile := by
    intro closed
    rw [closed] at step
    contradiction
  simp only [busStep, if_neg opened, exists', step, Option.map_some]

/-- Overwriting is the next step: nothing can refuse it. -/
theorem mayWipe_of_wipes (exists' : state.file = some file)
    (wipes : (state.openers id).wipes = true) : MayWipe state id := by
  have enabled : ∃ written pc, openedStep file (state.openers id) = some (written, pc) := by
    cases at' : state.openers id with
    | zero | initTicks | initOrders => exact ⟨_, _, rfl⟩
    | _ => simp [at', OpenerPc.wipes] at wipes
  obtain ⟨written, pc, step⟩ := enabled
  refine ⟨[.opener id], _, _, System.runFrom_cons (busStep_opened exists' step) rfl, ?_⟩
  simp [OpenerPc.shows, wipes]

theorem mayWipe_of_coldStarts (exists' : state.file = some file) (len : file.len = busSize)
    (cold : state.coldStarts id = true) : MayWipe state id := by
  -- induction on the steps that the opener still has to take
  generalize rank : (state.openers id).stepsToWipe = steps
  induction steps using Nat.strongRecOn generalizing state file with
  | ind steps ih =>
    subst rank
    by_cases wipes : (state.openers id).wipes = true
    · exact mayWipe_of_wipes exists' wipes
    by_cases closed : state.openers id = .openFile
    · have same : some (state.file.getD .empty) = state.file := by rw [exists']; rfl
      have step : busStep state (.opener id) = some (state.setOpener id .readLen, []) := by
        simp only [busStep, if_pos closed, same]
      have colder : (state.setOpener id .readLen).coldStarts id = true := by
        rw [BusState.coldStarts_setOpener_self]
        rwa [BusState.coldStarts, closed] at cold
      refine .of_step step (ih 4 ?_ exists' len colder ?_)
      · rw [closed]
        decide
      · rw [BusState.setOpener_self]
        rfl
    · have magic := BusState.magic_eq exists'
      obtain ⟨written, pc, step, whole, colder, nearer⟩ :=
        openedStep_cold closed len (magic ▸ cold) (Bool.eq_false_iff.mpr wipes)
      refine .of_step (busStep_opened exists' step) (ih pc.stepsToWipe nearer rfl whole ?_ ?_)
      · rw [BusState.coldStarts_setOpener_self]
        exact colder
      · rw [BusState.setOpener_self]

end Alone

section Runs

variable {state after : BusState n} {action : BusAction n} {events history later : List (BusEvent n)}
  {schedule : List (BusAction n)} {id : Fin n}

theorem Settled.run (settled : Settled state)
    (run : (bus n).runFrom state schedule = some (after, later)) :
    ∀ event ∈ later, ∀ other, event ≠ .wiped other :=
  (System.invariant_of_run Settled (fun event => ∀ other, event ≠ .wiped other)
    (fun settled step => settled.step step) settled run).2

theorem undoes_of_not_wiped {earlier event : BusEvent n} (kept : ∀ other, event ≠ .wiped other) :
    earlier.undoes event = false := by
  cases event with
  | wiped other => exact absurd rfl (kept other)
  | opened | ring => cases earlier <;> rfl

theorem undoes_of_not_opened {earlier event : BusEvent n} (none' : ∀ id, earlier ≠ .opened id) :
    earlier.undoes event = false := by
  cases earlier with
  | opened id => exact absurd rfl (none' id)
  | wiped | ring => rfl

theorem singleInit_of_kept (kept : ∀ event ∈ later, ∀ other, event ≠ .wiped other) :
    SingleInit later := by
  induction later with
  | nil => exact .nil
  | cons event rest ih =>
    refine .cons (fun next member => ?_) (ih fun next member => kept next (.tail _ member))
    exact undoes_of_not_wiped (kept next (.tail _ member))

theorem singleInit_of_unopened (none' : ∀ event ∈ later, ∀ id, event ≠ .opened id) :
    SingleInit later := by
  induction later with
  | nil => exact .nil
  | cons event rest ih =>
    refine .cons (fun next _ => ?_) (ih fun next member => none' next (.tail _ member))
    exact undoes_of_not_opened (none' event List.mem_cons_self)

theorem opened_shown (step : busStep state action = some (after, events))
    (shown : .opened id ∈ events) :
    action = .opener id ∧ state.openers id = .finish ∧ events = [.opened id] := by
  cases busStep_inv step with
  | openFile at' => contradiction
  | @opened other file written pc exists' taken =>
    unfold OpenerPc.shows at shown ⊢
    split at shown
    · simp at shown
    · next keeps =>
      split at shown
      · next at' =>
        simp only [List.mem_singleton, BusEvent.opened.injEq] at shown
        subst shown
        exact ⟨rfl, at', by rw [if_neg keeps, if_pos at']⟩
      · contradiction
  | osError system => contradiction
  | ring attached exists' taken =>
    obtain ⟨_, _, impossible⟩ := List.mem_map.mp shown
    contradiction

/-- Where every `Ok` is returned with no opener on the way to the cold start, the first one
settles the bus. -/
structure HandedOut (state : BusState n) (history : List (BusEvent n)) : Prop where
  single : SingleInit history
  settled : (∃ id, .opened id ∈ history) → Settled state

theorem handedOut_of_reach (reach : (bus n).Reach ReturnsAlone state history) :
    HandedOut state history := by
  refine reach.invariant HandedOut ⟨.nil, fun ⟨_, member⟩ => absurd member List.not_mem_nil⟩ ?_
  intro state history action after events reached handed alone step
  by_cases before : ∃ id, BusEvent.opened id ∈ history
  · -- the bus is settled already
    obtain ⟨settled, kept⟩ := (handed.settled before).step step
    refine ⟨List.pairwise_append.mpr ⟨handed.single, singleInit_of_kept kept, ?_⟩, fun _ => settled⟩
    exact fun _ _ event member => undoes_of_not_wiped (kept event member)
  · have unopened : ∀ event ∈ history, ∀ id, event ≠ .opened id := by
      rintro event member id rfl
      exact before ⟨id, member⟩
    by_cases now : ∃ id, BusEvent.opened id ∈ events
    · -- this step hands the bus out for the first time
      obtain ⟨id, shown⟩ := now
      obtain ⟨rfl, returns, rfl⟩ := opened_shown step shown
      have settled := Settled.of_returns (sized_of_reachable reached.reachable) returns alone
      have step : busStep state (.opener id) = some (after, [.opened id]) := step
      refine ⟨List.pairwise_append.mpr ⟨handed.single, List.pairwise_singleton _ _, ?_⟩,
        fun _ => (settled.step step).1⟩
      exact fun event member _ _ => undoes_of_not_opened (unopened event member)
    · have none' : ∀ event ∈ history ++ events, ∀ id, event ≠ .opened id := by
        rintro event member id rfl
        rcases List.mem_append.mp member with member | member
        · exact before ⟨id, member⟩
        · exact now ⟨id, member⟩
      exact ⟨singleInit_of_unopened none', fun ⟨id, member⟩ => absurd rfl (none' _ member id)⟩

theorem rings_kept (exists' : ∃ file, state.file = some file)
    (step : busStep state (.opener id) = some (after, events))
    (kept : ∀ event ∈ events, ∀ other, event ≠ .wiped other) : after.rings = state.rings := by
  obtain ⟨file, found⟩ := exists'
  cases busStep_inv step with
  | openFile at' =>
    simp only [BusState.rings, BusState.setOpener_file, found, Option.getD_some]
  | @opened _ _ written pc there taken =>
    cases found.symm.trans there
    have keeps : (state.openers id).wipes = false := by
      by_contra wipes
      have wipes := Bool.of_not_eq_false wipes
      exact kept (.wiped id) (by simp [OpenerPc.shows, wipes]) id rfl
    simp only [BusState.rings, BusState.setOpener_file, found, Option.map_some,
      openedStep_ring taken keeps]

theorem returns_step (exists' : ∃ file, state.file = some file)
    (returns : state.openers id = .finish) :
    busStep state (.opener id) = some (state.setOpener id .attached, [.opened id]) := by
  obtain ⟨file, found⟩ := exists'
  have taken : openedStep file (state.openers id) = some (file, .attached) := by
    rw [returns]
    rfl
  rw [busStep_opened found taken, returns, ← found]
  rfl

theorem finish_warm (returns : state.openers id = .finish) : state.coldStarts id = false := by
  rw [BusState.coldStarts, returns]
  rfl

/-- The bus is initialised once in every run in which each `Ok` is returned while no opener is
on the way to the cold start, and its rings are left alone from the first `Ok` on. Where an `Ok`
is returned otherwise, some run goes on to overwrite the bus that has been handed out. -/
theorem single_initialisation (n : Nat) :
    (∀ {state : BusState n} {history : List (BusEvent n)},
      (bus n).Reach ReturnsAlone state history →
        SingleInit history ∧
          ∀ id after events, (∃ first, .opened first ∈ history) →
            (bus n).step state (.opener id) = some (after, events) → after.rings = state.rings) ∧
    ∀ {state : BusState n} {history : List (BusEvent n)} {id : Fin n},
      (bus n).Reachable state history → state.openers id = .finish →
        ((∀ schedule final events,
            (bus n).runFrom state (.opener id :: schedule) = some (final, events) →
              SingleInit events) ↔
          ReturnsAlone state (.opener id)) := by
  constructor
  · intro state history reach
    have handed := handedOut_of_reach reach
    refine ⟨handed.single, fun id after events out step => ?_⟩
    have settled := handed.settled out
    obtain ⟨file, found, _⟩ := settled.whole
    have step : busStep state (.opener id) = some (after, events) := step
    exact rings_kept ⟨file, found⟩ step (settled.step step).2
  · intro state history id reach returns
    have sized := sized_of_reachable reach
    obtain ⟨file, found, len⟩ := sized.whole id (by rw [returns]; rfl)
    constructor
    · intro single _ same _ other
      cases same
      -- the other one goes on to its cold start behind the return
      by_contra cold
      have cold := Bool.of_not_eq_false cold
      have apart : other ≠ id := by
        rintro rfl
        rw [finish_warm returns] at cold
        contradiction
      have still : (state.setOpener id .attached).coldStarts other = true := by
        rwa [BusState.coldStarts_setOpener_of_ne apart]
      have may : MayWipe (state.setOpener id .attached) other :=
        mayWipe_of_coldStarts found len still
      obtain ⟨schedule, final, later, run, wiped⟩ := may
      have step : (bus n).step state (.opener id) = some (_, _) :=
        returns_step ⟨file, found⟩ returns
      have handed := single _ _ _ (System.runFrom_cons step run)
      have clean := (List.pairwise_cons.mp handed).1 _ wiped
      exact apart (of_decide_eq_false clean |> not_not.mp).symm
    · intro alone schedule final events run
      have settled := Settled.of_returns sized returns alone
      exact singleInit_of_kept (settled.run run)

/-- The first process creates the bus and publishes on it before the second one comes. -/
theorem single_initialisation_of_two :
    (∃ state history, (bus 2).Reach ReturnsAlone state history ∧
      (∀ id, state.openers id = .attached) ∧ SingleInit history ∧
      ∀ id after events, (∃ first, .opened first ∈ history) →
        (bus 2).step state (.opener id) = some (after, events) → after.rings = state.rings) ∧
    ∃ state history, (bus 2).Reachable state history ∧ state.openers 0 = .finish ∧
      ((∀ schedule final events,
          (bus 2).runFrom state (.opener 0 :: schedule) = some (final, events) →
            SingleInit events) ↔
        ReturnsAlone state (.opener 0)) := by
  constructor
  · obtain ⟨state, history, reach, attached⟩ := System.exists_reach_of_run (bus 2) ReturnsAlone
      (List.replicate 11 (.opener 0) ++ [.ring 0 .ticks .producerNew] ++
        (publishCall [7]).map (.ring 0 .ticks) ++ List.replicate 7 (.opener 1))
      (fun final => ∀ id, final.1.openers id = .attached) (by decide +kernel) (by decide +kernel)
    exact ⟨state, history, reach, of_decide_eq_true attached,
      (single_initialisation 2).1 reach⟩
  · obtain ⟨state, history, reach, finish⟩ := System.exists_reach_of_run (bus 2) (fun _ _ => True)
      (List.replicate 10 (.opener 0)) (fun final => final.1.openers 0 = .finish)
      (System.allowedAlong_true _ _ _) (by decide +kernel)
    have finish := of_decide_eq_true finish
    exact ⟨state, history, reach, finish, (single_initialisation 2).2 reach finish⟩

/-- Both processes find the file empty before either extends it. The first one gets through
the cold start and publishes a message, then the second one goes through it too. -/
theorem initialised_twice : ¬ ∀ (n : Nat) (state : BusState n) (history : List (BusEvent n)),
    (bus n).Reachable state history → SingleInit history := by
  intro single
  obtain ⟨state, history, reach, twice⟩ := System.exists_reach_of_run (bus 2) (fun _ _ => True)
    (List.replicate 2 (.opener 1) ++ List.replicate 11 (.opener 0) ++
      [.ring 0 .ticks .producerNew] ++ (publishCall [7]).map (.ring 0 .ticks) ++
      List.replicate 3 (.opener 1))
    (fun final => ¬ SingleInit final.2) (System.allowedAlong_true _ _ _) (by decide +kernel)
  exact of_decide_eq_true twice (single 2 state history reach)

end Runs

end Bus

end TradingPipeline.Shmbus
