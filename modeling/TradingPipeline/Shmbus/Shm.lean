import TradingPipeline.Shmbus.Ring

/-! The shared-memory bus of `shm.rs`: a file with a header and two rings.

Each call of `open_or_create` has a program counter, and a step is one system call or one
access to the header or to a region of the mapping. The file is never shortened or removed.
A process that has attached works on the rings by the steps of `Ring.lean`.
-/

set_option autoImplicit false

namespace TradingPipeline.Shmbus

open Foundation (System)

/-- `BUS_MAGIC`, the letters "SHMB". -/
def busMagic : UInt32 := 0x53484D42

def busVersion : UInt32 := 1

structure BusHeader where
  magic : UInt32
  version : UInt32
  ready : UInt32
  deriving DecidableEq

/-- `size_of::<BusLayout>()`: a header and two rings, whose cursors and slots take whole
cache lines of 64 bytes, a slot two of them. -/
def busSize : Nat := 64 + 2 * (2 * 64 + ringCapacity * 128)

inductive BusRing where
  | ticks
  | orders
  deriving DecidableEq

structure BusLayout where
  header : BusHeader
  ring : BusRing → SpscRing

namespace BusLayout

def zeroed : BusLayout := ⟨⟨0, 0, 0⟩, fun _ => .zeroed⟩

def setRing (layout : BusLayout) (which : BusRing) (ring : SpscRing) : BusLayout :=
  { layout with ring := Function.update layout.ring which ring }

end BusLayout

/-- The file; what lies behind its end reads as zero once it is extended. -/
structure BusFile where
  len : Nat
  layout : BusLayout

/-- What `open` creates. -/
def BusFile.empty : BusFile := ⟨0, .zeroed⟩

inductive OpenError where
  | os
  /-- `InvalidData`, with the version found in the file. -/
  | invalidData (file : UInt32)
  deriving DecidableEq

def OpenError.message : OpenError → Option String
  | .os => none
  | .invalidData file => some ("shm bus version mismatch: file=" ++ toString file ++ ", code=" ++
      toString busVersion)

/-- The next step of `open_or_create`. -/
inductive OpenerPc where
  | openFile
  | readLen
  | setLen
  | map (fresh : Bool)
  | loadMagic
  | zero
  | initTicks
  | initOrders
  | storeVersion
  | storeMagic
  | storeReady
  | loadVersion
  | spin
  | finish
  /-- It has returned `Ok`. -/
  | attached
  | failed (error : OpenError)
  deriving DecidableEq

namespace OpenerPc

/-- The steps that overwrite the header or the rings. -/
def wipes : OpenerPc → Bool
  | .zero | .initTicks | .initOrders => true
  | _ => false

/-- The system calls, which may fail. -/
def system : OpenerPc → Bool
  | .openFile | .readLen | .setLen | .map _ => true
  | _ => false

end OpenerPc

def BusFile.setHeader (file : BusFile) (header : BusHeader) : BusFile :=
  { file with layout := { file.layout with header := header } }

def BusFile.initRing (file : BusFile) (which : BusRing) : BusFile :=
  { file with layout := file.layout.setRing which (file.layout.ring which).initInPlace }

/-- One step of `open_or_create` on the file that it has opened. -/
def openedStep (file : BusFile) : OpenerPc → Option (BusFile × OpenerPc)
  | .readLen => some (file, if file.len < busSize then .setLen else .map false)
  | .setLen => some ({ file with len := busSize }, .map true)
  | .map fresh => some (file, if fresh then .zero else .loadMagic)
  | .loadMagic =>
    some (file, if file.layout.header.magic ≠ busMagic then .zero else .loadVersion)
  | .zero => some ({ file with layout := .zeroed }, .initTicks)
  | .initTicks => some (file.initRing .ticks, .initOrders)
  | .initOrders => some (file.initRing .orders, .storeVersion)
  | .storeVersion =>
    some (file.setHeader { file.layout.header with version := busVersion }, .storeMagic)
  | .storeMagic => some (file.setHeader { file.layout.header with magic := busMagic }, .storeReady)
  | .storeReady => some (file.setHeader { file.layout.header with ready := 1 }, .finish)
  | .loadVersion =>
    let version := file.layout.header.version
    some (file, if version ≠ busVersion then .failed (.invalidData version) else .spin)
  | .spin => some (file, if file.layout.header.ready ≠ 1 then .spin else .finish)
  | .finish => some (file, .attached)
  | .openFile | .attached | .failed _ => none

/-- Everything that one step on the opened file can do. -/
inductive OpenerStepped (file : BusFile) : OpenerPc → BusFile → OpenerPc → Prop where
  | short (less : file.len < busSize) : OpenerStepped file .readLen file .setLen
  | whole (long : busSize ≤ file.len) : OpenerStepped file .readLen file (.map false)
  | setLen : OpenerStepped file .setLen { file with len := busSize } (.map true)
  | mapFresh : OpenerStepped file (.map true) file .zero
  | mapFound : OpenerStepped file (.map false) file .loadMagic
  | foreign (other : file.layout.header.magic ≠ busMagic) :
      OpenerStepped file .loadMagic file .zero
  | known (same : file.layout.header.magic = busMagic) :
      OpenerStepped file .loadMagic file .loadVersion
  | zero : OpenerStepped file .zero { file with layout := .zeroed } .initTicks
  | initTicks : OpenerStepped file .initTicks (file.initRing .ticks) .initOrders
  | initOrders : OpenerStepped file .initOrders (file.initRing .orders) .storeVersion
  | storeVersion :
      OpenerStepped file .storeVersion
        (file.setHeader { file.layout.header with version := busVersion }) .storeMagic
  | storeMagic :
      OpenerStepped file .storeMagic
        (file.setHeader { file.layout.header with magic := busMagic }) .storeReady
  | storeReady :
      OpenerStepped file .storeReady (file.setHeader { file.layout.header with ready := 1 }) .finish
  | mismatch (other : file.layout.header.version ≠ busVersion) :
      OpenerStepped file .loadVersion file (.failed (.invalidData file.layout.header.version))
  | current (same : file.layout.header.version = busVersion) :
      OpenerStepped file .loadVersion file .spin
  | unready (other : file.layout.header.ready ≠ 1) : OpenerStepped file .spin file .spin
  | ready (same : file.layout.header.ready = 1) : OpenerStepped file .spin file .finish
  | finish : OpenerStepped file .finish file .attached

theorem openedStep_inv {file written : BusFile} {pc next : OpenerPc}
    (step : openedStep file pc = some (written, next)) : OpenerStepped file pc written next := by
  cases pc with
  | readLen =>
    simp only [openedStep, Option.some.injEq, Prod.mk.injEq] at step
    obtain ⟨rfl, rfl⟩ := step
    split
    · next less => exact .short less
    · next long => exact .whole (Nat.not_lt.mp long)
  | map fresh =>
    cases step
    cases fresh with
    | true => exact .mapFresh
    | false => exact .mapFound
  | loadMagic =>
    simp only [openedStep, Option.some.injEq, Prod.mk.injEq] at step
    obtain ⟨rfl, rfl⟩ := step
    split
    · next other => exact .foreign other
    · next same => exact .known (not_not.mp same)
  | loadVersion =>
    simp only [openedStep, Option.some.injEq, Prod.mk.injEq] at step
    obtain ⟨rfl, rfl⟩ := step
    split
    · next other => exact .mismatch other
    · next same => exact .current (not_not.mp same)
  | spin =>
    simp only [openedStep, Option.some.injEq, Prod.mk.injEq] at step
    obtain ⟨rfl, rfl⟩ := step
    split
    · next other => exact .unready other
    · next same => exact .ready (not_not.mp same)
  | setLen => cases step; exact .setLen
  | zero => cases step; exact .zero
  | initTicks => cases step; exact .initTicks
  | initOrders => cases step; exact .initOrders
  | storeVersion => cases step; exact .storeVersion
  | storeMagic => cases step; exact .storeMagic
  | storeReady => cases step; exact .storeReady
  | finish => cases step; exact .finish
  | openFile | attached | failed => contradiction

/-- The processes attached to the two ends of a ring. -/
structure RingEnds where
  producer : Option RingProducer
  consumer : Option RingConsumer

/-- Any number of processes around one path. -/
structure BusState (n : Nat) where
  file : Option BusFile
  openers : Fin n → OpenerPc
  ends : BusRing → RingEnds

inductive BusAction (n : Nat) where
  | opener (id : Fin n)
  /-- A system call of the opener fails. -/
  | osError (id : Fin n)
  /-- A process that has attached works on a ring. -/
  | ring (id : Fin n) (which : BusRing) (action : RingAction)
  deriving DecidableEq

inductive BusEvent (n : Nat) where
  /-- The header or a ring has been overwritten. -/
  | wiped (id : Fin n)
  /-- `open_or_create` has returned `Ok`. -/
  | opened (id : Fin n)
  | ring (which : BusRing) (event : RingEvent)
  deriving DecidableEq

section Steps

variable {n : Nat}

namespace BusState

def setOpener (state : BusState n) (id : Fin n) (pc : OpenerPc) : BusState n :=
  { state with openers := Function.update state.openers id pc }

/-- One ring of the file with the processes at its ends. -/
def ringState (state : BusState n) (file : BusFile) (which : BusRing) : RingState :=
  ⟨file.layout.ring which, (state.ends which).producer, (state.ends which).consumer⟩

def setRing (state : BusState n) (file : BusFile) (which : BusRing) (ring : RingState) : BusState n :=
  { state with
    file := some { file with layout := file.layout.setRing which ring.ring }
    ends := Function.update state.ends which ⟨ring.producer, ring.consumer⟩ }

end BusState

/-- What other processes care about in a step of an opener. -/
def OpenerPc.shows (pc : OpenerPc) (id : Fin n) : List (BusEvent n) :=
  if pc.wipes then [.wiped id] else if pc = .finish then [.opened id] else []

def busStep (state : BusState n) : BusAction n → Option (BusState n × List (BusEvent n))
  | .opener id =>
    if state.openers id = .openFile then
      some ({ state with file := some (state.file.getD .empty) }.setOpener id .readLen, [])
    else
      match state.file with
      | none => none
      | some file =>
        (openedStep file (state.openers id)).map fun (file, pc) =>
          ({ state with file := some file }.setOpener id pc, (state.openers id).shows id)
  | .osError id =>
    if (state.openers id).system then some (state.setOpener id (.failed .os), []) else none
  | .ring id which action =>
    if state.openers id = .attached then
      match state.file with
      | none => none
      | some file =>
        (ringStep (state.ringState file which) action).map fun (ring, shown) =>
          (state.setRing file which ring, shown.map (.ring which))
    else none

/-- All processes before their call, on a path without a file. -/
def bus (n : Nat) : System (BusState n) (BusAction n) (BusEvent n) where
  start := ⟨none, fun _ => .openFile, fun _ => ⟨none, none⟩⟩
  step := busStep

/-- Everything that one step can do. -/
inductive BusStepped (state : BusState n) :
    BusAction n → BusState n → List (BusEvent n) → Prop where
  | openFile {id : Fin n} (at' : state.openers id = .openFile) :
      BusStepped state (.opener id)
        ({ state with file := some (state.file.getD .empty) }.setOpener id .readLen) []
  | opened {id : Fin n} {file after : BusFile} {pc : OpenerPc} (exists' : state.file = some file)
      (step : openedStep file (state.openers id) = some (after, pc)) :
      BusStepped state (.opener id) ({ state with file := some after }.setOpener id pc)
        ((state.openers id).shows id)
  | osError {id : Fin n} (system : (state.openers id).system = true) :
      BusStepped state (.osError id) (state.setOpener id (.failed .os)) []
  | ring {id : Fin n} {which : BusRing} {action : RingAction} {file : BusFile} {ring : RingState}
      {shown : List RingEvent} (attached : state.openers id = .attached)
      (exists' : state.file = some file)
      (step : ringStep (state.ringState file which) action = some (ring, shown)) :
      BusStepped state (.ring id which action) (state.setRing file which ring)
        (shown.map (.ring which))

theorem busStep_inv {state after : BusState n} {action : BusAction n} {events : List (BusEvent n)}
    (step : busStep state action = some (after, events)) : BusStepped state action after events := by
  cases action with
  | opener id =>
    simp only [busStep] at step
    split at step
    · next at' => cases step; exact .openFile at'
    · split at step
      · contradiction
      · next file exists' =>
        obtain ⟨⟨written, pc⟩, taken, made⟩ := Option.map_eq_some_iff.mp step
        cases made
        exact .opened exists' taken
  | osError id =>
    simp only [busStep, Option.ite_none_right_eq_some] at step
    obtain ⟨system, step⟩ := step
    cases step
    exact .osError system
  | ring id which action =>
    simp only [busStep, Option.ite_none_right_eq_some] at step
    obtain ⟨attached, step⟩ := step
    split at step
    · contradiction
    · next file exists' =>
      obtain ⟨⟨ring, shown⟩, taken, made⟩ := Option.map_eq_some_iff.mp step
      cases made
      exact .ring attached exists' taken

end Steps

end TradingPipeline.Shmbus
