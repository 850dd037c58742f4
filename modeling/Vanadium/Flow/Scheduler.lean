import Vanadium.Foundations.RoundRobin
import Vanadium.Foundations.Transition

/-!
# The writers of a connection

All writers of a `Conn` share its message pipe. Those with something to write are active; they form
one ring for each priority (`activeWriters`), and one of them, `c.writing`, has the turn. A writer
is a flow, whose goroutine runs the loop of `writeMsg`, or a `singleMessageWriter`, which lives for
one call of `sendMessageLocked`.

An action is a critical section under `c.mu`, or a step of a goroutine outside of one. The state
also records the queues that the rings stand for (`queue`) and to whom turns were given (`turns`).
-/

namespace Vanadium.Flow

open Foundations Foundations.RoundRobin

/-- `expressPriority`, `flowPriority` and `tearDownPriority`. -/
inductive Priority
  | express
  | flow
  | tearDown
deriving DecidableEq

/-- The index in `activeWriters`. -/
def Priority.index : Priority → ℕ
  | express => 0
  | flow => 1
  | tearDown => 2

/-- A `writer`. -/
inductive Writer
  | flow (id : ℕ)
  | single (id : ℕ) (p : Priority)
deriving DecidableEq

def Writer.priority : Writer → Priority
  | flow _ => .flow
  | single _ p => p

/-- Where a writer is in `writeMsg` or `sendMessageLocked`. -/
inductive Pc
  | idle
  /-- The context of the flow was not done at the beginning of `writeMsg`. -/
  | checked
  /-- It waits for its turn. -/
  | waiting
  /-- It has received from its channel. -/
  | notified
  /-- It writes to the message pipe. -/
  | sending
  /-- Its context was done while it waited. -/
  | cancelled
  /-- `writeMsg` is about to call `close`. -/
  | closing
  /-- `sendMessageLocked` has returned. -/
  | finished
deriving DecidableEq

/-- `f.writing`: set when `writeMsg` activates the flow and cleared at its end. -/
def Pc.writing : Pc → Bool
  | waiting | notified | sending | cancelled => true
  | idle | checked | closing | finished => false

/-- The part of a `Conn` that decides who writes. -/
structure Sched where
  links : Links Writer
  activeWriters : Priority → Option Writer
  writing : Option Writer
  pc : Writer → Pc
  /-- The one-slot channel of a flow is full, or the channel of a single message writer is
  closed. -/
  writeCh : Writer → Bool
  /-- The context of a flow is done. -/
  ctxDone : Writer → Bool
  closed : Writer → Bool
  queue : Priority → List Writer
  turns : List Writer

/-- A new `Conn`. -/
def Sched.new : Sched where
  links := ⟨id, id⟩
  activeWriters _ := none
  writing := none
  pc _ := .idle
  writeCh _ := false
  ctxDone _ := false
  closed _ := false
  queue _ := []
  turns := []

/-! ## Queues -/

/-- A writer becomes active. -/
def enqueue (w : Writer) (q : Priority → List Writer) : Priority → List Writer :=
  if w ∈ q w.priority then q else Function.update q w.priority (q w.priority ++ [w])

/-- A writer is no longer active. -/
def dequeue (w : Writer) (q : Priority → List Writer) : Priority → List Writer :=
  Function.update q w.priority ((q w.priority).erase w)

/-- The first writer of a priority gets a turn. -/
def serve (p : Priority) (q : Priority → List Writer) : Priority → List Writer :=
  Function.update q p ((q p).rotate 1)

namespace Sched

/-! ## The operations under the lock -/

def activateWriterLocked (s : Sched) (w : Writer) : Sched :=
  let s := { s with queue := enqueue w s.queue }
  let head := s.activeWriters w.priority
  if head = some w ∨ s.links.next w ≠ w then s
  else
    match head with
    | none => { s with activeWriters := Function.update s.activeWriters w.priority (some w) }
    | some head => { s with links := s.links.insertBefore head w }

def deactivateWriterLocked (s : Sched) (w : Writer) : Sched :=
  let s := { s with queue := dequeue w s.queue }
  let n := s.links.next w
  let s :=
    if s.activeWriters w.priority = some w then
      { s with
        activeWriters :=
          Function.update s.activeWriters w.priority (if w = n then none else some n) }
    else s
  { s with links := s.links.remove w }

/-- `notify`. The result is `none` if a flow's channel is full, so that the caller would block with
the lock held, or if a single message writer's channel would be closed twice. -/
def notify (s : Sched) (w : Writer) : Option Sched :=
  if s.writeCh w then none else some { s with writeCh := Function.update s.writeCh w true }

/-- The loop of `notifyNextWriterLocked`. -/
def notifyFirst (s : Sched) : List Priority → Option Sched
  | [] => some s
  | p :: ps =>
    match s.activeWriters p with
    | none => notifyFirst s ps
    | some head =>
      { s with
        activeWriters := Function.update s.activeWriters p (some (s.links.next head))
        writing := some head
        queue := serve p s.queue
        turns := s.turns ++ [head] }.notify head

def notifyNextWriterLocked (s : Sched) (w : Option Writer) : Option Sched :=
  let s := if s.writing = w then { s with writing := none } else s
  if s.writing = none then s.notifyFirst [.express, .flow, .tearDown] else some s

def setPc (s : Sched) (w : Writer) (pc : Pc) : Sched :=
  { s with pc := Function.update s.pc w pc }

/-! ## Actions -/

inductive Action
  /-- `writeMsg` finds that its context is not done. -/
  | check (id : ℕ)
  /-- The flow activates itself. Without parts there is nothing to wait for, and the call ends. -/
  | start (id : ℕ) (noParts alsoClose : Bool)
  /-- `sendMessageLocked` activates a new writer. -/
  | sendMessage (id : ℕ) (p : Priority)
  /-- A waiting writer receives from its channel. -/
  | receive (w : Writer)
  /-- A waiting writer sees that its context is done. -/
  | cancel (w : Writer)
  /-- A flow that has the turn has no tokens. -/
  | noTokens (id : ℕ)
  /-- A flow that has the turn begins to send a message. -/
  | send (id : ℕ)
  /-- A flow has sent a message and has more. -/
  | sendMore (id : ℕ)
  /-- The last critical section of `writeMsg`, with or without a call of `close` after it, or of
  `sendMessageLocked`. -/
  | finish (w : Writer) (closes : Bool)
  /-- `releaseLocked`. -/
  | release (id : ℕ)
  /-- The context of a flow is cancelled, or its deadline passes. -/
  | cancelContext (id : ℕ)
  /-- `close`. -/
  | close (id : ℕ)
  /-- `SetDeadlineContext`, which may not be called concurrently with a write. -/
  | setDeadlineContext (id : ℕ)
deriving DecidableEq

/-- Whether an action can happen. -/
def enabled (s : Sched) : Action → Bool
  | .check id => s.pc (.flow id) = .idle ∧ s.ctxDone (.flow id) = false
  | .start id _ _ => s.pc (.flow id) = .checked
  | .sendMessage id p => s.pc (.single id p) = .idle
  | .receive w => s.pc w = .waiting ∧ s.writeCh w
  | .cancel (.flow id) => s.pc (.flow id) = .waiting ∧ s.ctxDone (.flow id)
  | .cancel (.single id p) => s.pc (.single id p) = .waiting
  | .noTokens id => s.pc (.flow id) = .notified
  | .send id => s.pc (.flow id) = .notified
  | .sendMore id => s.pc (.flow id) = .sending
  | .finish (.flow id) closes =>
    s.pc (.flow id) = .sending ∨ (s.pc (.flow id) = .cancelled ∧ closes)
  | .finish (.single id p) _ =>
    s.pc (.single id p) = .notified ∨ s.pc (.single id p) = .cancelled
  | .release _ => true
  | .cancelContext _ => true
  | .close _ => true
  | .setDeadlineContext id => s.pc (.flow id) = .idle ∧ s.closed (.flow id) = false

/-- Where a writer goes at the end of its write. -/
def afterWrite : Writer → Bool → Pc
  | .flow _, closes => if closes then .closing else .idle
  | .single _ _, _ => .finished

/-- The last critical section of a write. -/
def finishWrite (s : Sched) (w : Writer) (closes : Bool) : Option Sched :=
  ((s.setPc w (afterWrite w closes)).deactivateWriterLocked w).notifyNextWriterLocked (some w)

/-- The effect of an action. -/
def exec (s : Sched) : Action → Option Sched
  | .check id => some (s.setPc (.flow id) .checked)
  | .start id noParts alsoClose =>
    let s := (s.setPc (.flow id) .waiting).activateWriterLocked (.flow id)
    if noParts then s.finishWrite (.flow id) alsoClose
    else s.notifyNextWriterLocked (some (.flow id))
  | .sendMessage id p =>
    ((s.setPc (.single id p) .waiting).activateWriterLocked (.single id p)).notifyNextWriterLocked
      (some (.single id p))
  | .receive w =>
    let s := s.setPc w .notified
    match w with
    -- a receive takes the item out of a channel, but a closed channel stays closed
    | .flow _ => some { s with writeCh := Function.update s.writeCh w false }
    | .single _ _ => some s
  | .cancel w => some (s.setPc w .cancelled)
  | .noTokens id =>
    ((s.setPc (.flow id) .waiting).deactivateWriterLocked (.flow id)).notifyNextWriterLocked
      (some (.flow id))
  | .send id => some (s.setPc (.flow id) .sending)
  | .sendMore id => (s.setPc (.flow id) .waiting).notifyNextWriterLocked (some (.flow id))
  | .finish w closes => s.finishWrite w closes
  | .release id =>
    if (s.pc (.flow id)).writing then
      (s.activateWriterLocked (.flow id)).notifyNextWriterLocked none
    else some s
  | .cancelContext id => some { s with ctxDone := Function.update s.ctxDone (.flow id) true }
  | .close id =>
    let s := { s with closed := Function.update s.closed (.flow id) true }
    some (if s.pc (.flow id) = .closing then s.setPc (.flow id) .idle else s)
  | .setDeadlineContext id =>
    some { s with ctxDone := Function.update s.ctxDone (.flow id) false }

/-- The writer whose claim is given up before the next writer is notified. -/
def Action.givesUp : Action → Option Writer
  | .start id _ _ | .noTokens id | .sendMore id => some (.flow id)
  | .sendMessage id p => some (.single id p)
  | .finish w _ => some w
  | _ => none

/-- One step. -/
def step (s : Sched) (a : Action) : Option Sched := if s.enabled a then s.exec a else none

end Sched

end Vanadium.Flow
