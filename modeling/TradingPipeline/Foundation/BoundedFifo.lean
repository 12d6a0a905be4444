import TradingPipeline.Foundation.Transition

/-! A bounded FIFO queue shared by one writer and one reader, as an atomic object.

The object is a monitor over the events that a concurrent implementation shows:
calls, the instants at which an operation takes effect, and returns. A history is
accepted when every operation takes effect at one instant between its call and its
return, and the instants form a legal sequential history of the queue.
-/

set_option autoImplicit false

namespace TradingPipeline.Foundation.BoundedFifo

variable {α : Type}

inductive Event (α : Type) where
  | putCall (item : α)
  /-- The instant at which a put decides whether the queue has room. -/
  | fullTest (full : Bool)
  | put (item : α)
  | putReturn (accepted : Bool)
  | takeCall
  /-- The instant at which a take decides whether the queue has an item. -/
  | emptyTest (empty : Bool)
  | take (item : α)
  | takeReturn (result : Option α)
  | writerGone
  | readerGone
  deriving DecidableEq, Repr

inductive Writer (α : Type) where
  | idle
  | called (item : α)
  | refused
  | admitted (item : α)
  | stored
  deriving DecidableEq, Repr

inductive Reader (α : Type) where
  | idle
  | called
  | refused
  | admitted
  | holding (item : α)
  deriving DecidableEq, Repr

structure Queue (α : Type) where
  items : List α
  /-- How many items have left the queue so far. -/
  taken : Nat
  writer : Writer α
  reader : Reader α
  deriving DecidableEq, Repr

def Queue.empty : Queue α := ⟨[], 0, .idle, .idle⟩

/-- Items that have ever entered the queue. -/
def Queue.entered (queue : Queue α) : Nat := queue.taken + queue.items.length

def accept [DecidableEq α] (capacity : Nat) (queue : Queue α) : Event α → Option (Queue α)
  | .putCall item =>
    if queue.writer = .idle then some { queue with writer := .called item } else none
  | .fullTest full =>
    match queue.writer with
    | .called item =>
      if full = decide (queue.items.length = capacity) then
        some { queue with writer := if full then .refused else .admitted item }
      else none
    | _ => none
  | .put item =>
    if queue.writer = .admitted item ∧ queue.items.length < capacity then
      some { queue with items := queue.items ++ [item], writer := .stored }
    else none
  | .putReturn accepted =>
    if queue.writer = (if accepted then .stored else .refused) then
      some { queue with writer := .idle }
    else none
  | .takeCall =>
    if queue.reader = .idle then some { queue with reader := .called } else none
  | .emptyTest empty =>
    if queue.reader = .called ∧ empty = queue.items.isEmpty then
      some { queue with reader := if empty then .refused else .admitted }
    else none
  | .take item =>
    if queue.reader = .admitted ∧ queue.items.head? = some item then
      some { queue with
        items := queue.items.tail
        taken := queue.taken + 1
        reader := .holding item }
    else none
  | .takeReturn result =>
    if queue.reader = (match result with | none => .refused | some item => .holding item) then
      some { queue with reader := .idle }
    else none
  | .writerGone => some { queue with writer := .idle }
  | .readerGone => some { queue with reader := .idle }

/-- The queue object: its actions are the events themselves. -/
def object (α : Type) [DecidableEq α] (capacity : Nat) : System (Queue α) (Event α) (Event α) where
  start := .empty
  step queue event := (accept capacity queue event).map fun next => (next, [event])

def puts (history : List (Event α)) : List α :=
  history.filterMap fun | .put item => some item | _ => none

def takes (history : List (Event α)) : List α :=
  history.filterMap fun | .take item => some item | _ => none

section Laws

variable [DecidableEq α] {capacity : Nat} {queue next : Queue α} {history : List (Event α)}

theorem object_step {event : Event α} {events : List (Event α)} :
    (object α capacity).step queue event = some (next, events) ↔
      accept capacity queue event = some next ∧ events = [event] := by
  simp only [object, Option.map_eq_some_iff, Prod.mk.injEq]
  constructor
  · rintro ⟨_, accepted, rfl, rfl⟩
    exact ⟨accepted, rfl⟩
  · rintro ⟨accepted, rfl⟩
    exact ⟨next, accepted, rfl, rfl⟩

/-- The object takes the events in order and ends in `next`. -/
abbrev Accepted (capacity : Nat) (queue : Queue α) (events : List (Event α)) (next : Queue α) :
    Prop :=
  (object α capacity).runFrom queue events = some (next, events)

theorem Accepted.nil : Accepted capacity queue [] queue := rfl

theorem Accepted.cons {middle : Queue α} {event : Event α} {rest : List (Event α)}
    (first : accept capacity queue event = some middle)
    (tail : Accepted capacity middle rest next) : Accepted capacity queue (event :: rest) next :=
  System.runFrom_cons (object_step.mpr ⟨first, rfl⟩) tail

theorem Accepted.one {event : Event α} (taken : accept capacity queue event = some next) :
    Accepted capacity queue [event] next :=
  .cons taken .nil

section Rules

variable {item : α}

theorem accept_putCall (idle : queue.writer = .idle) :
    accept capacity queue (.putCall item) = some { queue with writer := .called item } :=
  if_pos idle

theorem accept_full (called : queue.writer = .called item)
    (full : queue.items.length = capacity) :
    accept capacity queue (.fullTest true) = some { queue with writer := .refused } := by
  simp only [accept, called, full, decide_true, if_true]

theorem accept_room (called : queue.writer = .called item)
    (room : queue.items.length ≠ capacity) :
    accept capacity queue (.fullTest false) = some { queue with writer := .admitted item } := by
  simp only [accept, called, room, decide_false, if_true]
  rfl

theorem accept_put (admitted : queue.writer = .admitted item)
    (room : queue.items.length < capacity) :
    accept capacity queue (.put item) =
      some { queue with items := queue.items ++ [item], writer := .stored } :=
  if_pos ⟨admitted, room⟩

theorem accept_putReturn_true (stored : queue.writer = .stored) :
    accept capacity queue (.putReturn true) = some { queue with writer := .idle } :=
  if_pos stored

theorem accept_putReturn_false (refused : queue.writer = .refused) :
    accept capacity queue (.putReturn false) = some { queue with writer := .idle } :=
  if_pos refused

theorem accept_takeCall (idle : queue.reader = .idle) :
    accept capacity queue .takeCall = some { queue with reader := .called } :=
  if_pos idle

theorem accept_empty (called : queue.reader = .called) (empty : queue.items = []) :
    accept capacity queue (.emptyTest true) = some { queue with reader := .refused } := by
  simp only [accept, called, empty, List.isEmpty_nil, and_self, if_true]

theorem accept_nonempty (called : queue.reader = .called) (nonempty : queue.items ≠ []) :
    accept capacity queue (.emptyTest false) = some { queue with reader := .admitted } := by
  simp [accept, called, nonempty]

theorem accept_take (admitted : queue.reader = .admitted)
    (first : queue.items.head? = some item) :
    accept capacity queue (.take item) =
      some { queue with
        items := queue.items.tail
        taken := queue.taken + 1
        reader := .holding item } :=
  if_pos ⟨admitted, first⟩

theorem accept_takeReturn_none (refused : queue.reader = .refused) :
    accept capacity queue (.takeReturn none) = some { queue with reader := .idle } :=
  if_pos refused

theorem accept_takeReturn_some (holding : queue.reader = .holding item) :
    accept capacity queue (.takeReturn (some item)) = some { queue with reader := .idle } :=
  if_pos holding

end Rules

theorem accept_items {event : Event α} (accepted : accept capacity queue event = some next) :
    queue.items ++ puts [event] = takes [event] ++ next.items ∧
      next.taken = queue.taken + (takes [event]).length := by
  cases event with
  | fullTest full =>
    simp only [accept] at accepted
    split at accepted
    · simp only [Option.ite_none_right_eq_some, Option.some.injEq] at accepted
      obtain ⟨_, rfl⟩ := accepted
      simp [puts, takes]
    · contradiction
  | put item =>
    simp only [accept, Option.ite_none_right_eq_some, Option.some.injEq] at accepted
    obtain ⟨_, rfl⟩ := accepted
    simp [puts, takes]
  | take item =>
    -- what is taken is the first item
    simp only [accept, Option.ite_none_right_eq_some, Option.some.injEq] at accepted
    obtain ⟨⟨_, first⟩, rfl⟩ := accepted
    obtain ⟨rest, items⟩ := List.head?_eq_some_iff.mp first
    simp [puts, takes, items]
  | writerGone | readerGone =>
    simp only [accept, Option.some.injEq] at accepted
    subst accepted
    simp [puts, takes]
  | putCall | putReturn | takeCall | emptyTest | takeReturn =>
    simp only [accept, Option.ite_none_right_eq_some, Option.some.injEq] at accepted
    obtain ⟨_, rfl⟩ := accepted
    simp [puts, takes]

theorem runFrom_items {schedule : List (Event α)}
    (run : (object α capacity).runFrom queue schedule = some (next, history)) :
    queue.items ++ puts history = takes history ++ next.items ∧
      next.taken = queue.taken + (takes history).length := by
  induction schedule generalizing queue history with
  | nil =>
    obtain ⟨rfl, rfl⟩ := System.runFrom_nil_inv run
    simp [puts, takes]
  | cons event rest ih =>
    obtain ⟨middle, _, later, step, tail, rfl⟩ := System.runFrom_cons_inv run
    obtain ⟨accepted, rfl⟩ := object_step.mp step
    obtain ⟨items, count⟩ := accept_items accepted
    obtain ⟨more, total⟩ := ih tail
    simp only [puts, takes, List.filterMap_append, List.length_append] at items count more total ⊢
    constructor
    · rw [← List.append_assoc, items, List.append_assoc, more, List.append_assoc]
    · rw [total, count, Nat.add_assoc]

/-- The sequential law of a queue: what was put is what was taken followed by what is
still stored, in the same order. -/
theorem puts_eq (reach : (object α capacity).Reachable queue history) :
    puts history = takes history ++ queue.items ∧ queue.taken = (takes history).length := by
  obtain ⟨schedule, run⟩ := System.exists_run_of_reachable reach
  obtain ⟨items, count⟩ := runFrom_items run
  exact ⟨items, by rw [count]; exact Nat.zero_add _⟩

theorem entered_eq (reach : (object α capacity).Reachable queue history) :
    queue.entered = (puts history).length := by
  obtain ⟨items, count⟩ := puts_eq reach
  rw [Queue.entered, items, count, List.length_append]

theorem accept_entered {event : Event α} (accepted : accept capacity queue event = some next) :
    next.entered = queue.entered + (puts [event]).length := by
  obtain ⟨items, count⟩ := accept_items accepted
  have lengths := congrArg List.length items
  simp only [List.length_append] at lengths
  simp only [Queue.entered]
  omega

theorem accept_stored {event : Event α} (accepted : accept capacity queue event = some next)
    (stored : next.writer = .stored) : queue.writer = .stored ∨ 0 < (puts [event]).length := by
  cases event with
  | put item => exact .inr Nat.one_pos
  | fullTest full =>
    simp only [accept] at accepted
    split at accepted
    · simp only [Option.ite_none_right_eq_some, Option.some.injEq] at accepted
      obtain ⟨_, rfl⟩ := accepted
      cases full <;> contradiction
    · contradiction
  | putCall | putReturn =>
    simp only [accept, Option.ite_none_right_eq_some, Option.some.injEq] at accepted
    obtain ⟨_, rfl⟩ := accepted
    contradiction
  | writerGone =>
    cases accepted
    contradiction
  | readerGone =>
    cases accepted
    exact .inl stored
  | takeCall | emptyTest | take | takeReturn =>
    simp only [accept, Option.ite_none_right_eq_some, Option.some.injEq] at accepted
    obtain ⟨_, rfl⟩ := accepted
    exact .inl stored

theorem entered_pos_of_stored (reach : (object α capacity).Reachable queue history)
    (stored : queue.writer = .stored) : 0 < queue.entered := by
  induction reach with
  | start => contradiction
  | next _ _ step ih =>
    obtain ⟨accepted, _⟩ := object_step.mp step
    rw [accept_entered accepted]
    rcases accept_stored accepted stored with before | put
    · have := ih before
      omega
    · omega

end Laws

end TradingPipeline.Foundation.BoundedFifo
