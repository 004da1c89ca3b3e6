import Fiberexec.Support.Machine
import Mathlib.Data.Int.Basic

/-!
# `sync_wait`

`sync_wait` connects a sender to a `sync_wait_receiver`, starts it and waits on
a condition variable until the receiver has stored a completion.  The fiber
that waits and the thread that completes share a `fiber_sync_state` through
`shared_ptr`s; the receiver lives in the operation state, which the waiter
destroys when it returns.

The completion method runs inside `start()` or on any other thread.  Each
access to the shared state is one step, and `notify_all` is several: it walks
the wait list, and the waiter can run as soon as it has been taken off it.
-/

namespace Fiberexec.SyncWait

open Support

/-! ## Completions and results -/

/-- An exception object: a `std::system_error`, or any other. -/
inductive Exception (X : Type*)
  | systemError (code : ℤ)
  | object (x : X)
  deriving DecidableEq

/-- The argument of `set_error`. -/
inductive ErrorArg (X : Type*)
  /-- a `std::exception_ptr`, which may be null -/
  | exceptionPtr (p : Option (Exception X))
  /-- a `std::error_code` -/
  | errorCode (code : ℤ)
  | object (x : X)
  deriving DecidableEq

/-- The `std::exception_ptr` that `set_error` stores. -/
def ErrorArg.ptr {X : Type*} : ErrorArg X → Option (Exception X)
  | .exceptionPtr p => p
  | .errorCode code => some (.systemError code)
  | .object x => some (.object x)

/-- The completion that a sender delivers.  `throws` is the exception thrown
while the value is stored, if one is. -/
inductive Completion (V X : Type*)
  | setValue (v : V) (throws : Option (Exception X))
  | setError (e : ErrorArg X)
  | setStopped
  deriving DecidableEq

/-- How `sync_wait` ends. -/
inductive Result (V X : Type*)
  | returned (v : Option V)
  | rethrown (e : Exception X)
  deriving DecidableEq

/-- What the documentation promises for a completion.  A null
`std::exception_ptr` holds nothing that could be rethrown. -/
def Completion.expected {V X : Type*} : Completion V X → Result V X
  | .setValue v none => .returned (some v)
  | .setValue _ (some e) => .rethrown e
  | .setError e => (e.ptr.map .rethrown).getD (.returned none)
  | .setStopped => .returned none

/-! ## Places in the code -/

/-- Where the fiber in `sync_wait` stands. -/
inductive Waiter
  /-- in `stdexec::start(op)` -/
  | starting
  /-- about to lock `mtx` -/
  | started
  /-- has locked `mtx`, about to test `done` -/
  | locked
  /-- has found `done` false -/
  | refused
  /-- suspended in `cv.wait`, or taken off the wait list -/
  | waiting
  /-- has found `done` true -/
  | passed
  /-- has unlocked `mtx` -/
  | unlocked
  /-- has its result, about to destroy `op` -/
  | settled
  /-- about to release `state` -/
  | releasing
  | returned
  deriving DecidableEq

/-- Where the completion method stands. -/
inductive Completer
  /-- not called yet -/
  | idle
  /-- about to copy `state_` -/
  | entered
  /-- about to lock `mtx` -/
  | copied
  | locked
  /-- has stored the result -/
  | stored
  /-- has set `done` -/
  | marked
  /-- has unlocked `mtx` -/
  | unlocked
  /-- in `notify_all` -/
  | notifying
  /-- about to release its copy -/
  | notified
  | finished
  deriving DecidableEq

/-- Who can lock `mtx`. -/
inductive Party
  | waiter
  | completer
  deriving DecidableEq

/-- The `shared_ptr`s to the shared state: `state`, `state_` and `s`. -/
inductive Holder
  | waiter
  | receiver
  | completer
  deriving DecidableEq

/-- The shared state, the operation state and the two parties. -/
structure State (V X : Type*) where
  waiter : Waiter
  completer : Completer
  /-- the completion method is called inside `start()` -/
  inline : Bool
  owner : Option Party
  /-- the waiter is on the wait list of `cv` -/
  enqueued : Bool
  value : Option V
  error : Option (Exception X)
  done : Bool
  held : Holder → Bool
  /-- the operation state, with the receiver in it, exists -/
  op : Bool
  /-- a step has used the shared state or the operation state after its end -/
  violated : Bool
  delivered : Option (Completion V X)
  result : Option (Result V X)

variable {V X : Type*}

/-- The shared state has not been freed. -/
def State.alive (s : State V X) : Bool :=
  s.held .waiter || s.held .receiver || s.held .completer

/-- The atomic steps. -/
inductive Event (V X : Type*)
  /-- the sender calls a completion method -/
  | deliver (c : Completion V X) (inline : Bool)
  /-- `auto s = state_` -/
  | copyState
  | lockReceiver
  /-- the stores to `value` and `error` -/
  | store
  | setDone
  | unlockReceiver
  /-- `notify_all` begins -/
  | notifyAll
  /-- `notify_all` takes the waiter off the wait list and wakes it -/
  | wakeWaiter
  /-- `notify_all` finds the wait list empty and returns -/
  | notifyReturns
  /-- the destructor of `s` -/
  | dropCopy
  /-- `start()` returns -/
  | startReturns
  /-- the waiter locks `mtx`, at first or after it was woken -/
  | lockWaiter
  /-- the waiter tests `done` -/
  | test
  /-- the waiter enters the wait list and unlocks `mtx` -/
  | enqueue
  /-- the waiter wakes though nobody woke it -/
  | spuriousWake
  | unlockWaiter
  /-- the waiter reads `error` and `value` -/
  | readResult
  /-- the destructor of `op` -/
  | destroyOp
  /-- the destructor of `state` -/
  | dropState
  deriving DecidableEq

/-! ## Steps -/

/-- Steps that use the shared state or its reference count. -/
def Event.usesState : Event V X → Bool
  | .deliver _ _ | .startReturns | .spuriousWake | .destroyOp => false
  | _ => true

/-- Steps that use the operation state.  The arguments of `set_value` and
`set_error` may be references into it. -/
def Event.usesOp : Event V X → Bool
  | .deliver _ _ | .copyState | .store | .startReturns | .destroyOp => true
  | _ => false

/-- The completion method is running. -/
def Completer.isRunning : Completer → Bool
  | .idle | .finished => false
  | _ => true

/-- When a step may be taken. -/
def enabled (s : State V X) : Event V X → Prop
  | .deliver _ inline =>
      s.completer = .idle ∧ (inline = true → s.waiter = .starting)
  | .copyState => s.completer = .entered
  | .lockReceiver => s.completer = .copied ∧ s.owner = none
  | .store => s.completer = .locked
  | .setDone => s.completer = .stored
  | .unlockReceiver => s.completer = .marked
  | .notifyAll => s.completer = .unlocked
  | .wakeWaiter => s.completer = .notifying ∧ s.enqueued = true
  | .notifyReturns => s.completer = .notifying ∧ s.enqueued = false
  | .dropCopy => s.completer = .notified
  | .startReturns =>
      s.waiter = .starting ∧
        ¬(s.inline = true ∧ s.completer.isRunning = true)
  | .lockWaiter =>
      (s.waiter = .started ∨ s.waiter = .waiting ∧ s.enqueued = false) ∧
        s.owner = none
  | .test => s.waiter = .locked
  | .enqueue => s.waiter = .refused
  | .spuriousWake => s.enqueued = true
  | .unlockWaiter => s.waiter = .passed
  | .readResult => s.waiter = .unlocked
  | .destroyOp => s.waiter = .settled
  | .dropState => s.waiter = .releasing

/-- The stores of `set_value`, `set_error` and `set_stopped` to `value` and
`error`. -/
def Completion.store (value : Option V) (error : Option (Exception X)) :
    Completion V X → Option V × Option (Exception X)
  | .setValue v none => (some v, error)
  | .setValue _ (some e) => (value, some e)
  | .setError e => (value, e.ptr)
  | .setStopped => (value, error)

/-- `value` and `error` after the stores. -/
def State.stored (s : State V X) : Option V × Option (Exception X) :=
  match s.delivered with
  | some c => c.store s.value s.error
  | none => (s.value, s.error)

/-- The end of `sync_wait`: rethrow `error`, or return `value`. -/
def State.outcome (s : State V X) : Result V X :=
  match s.error with
  | some e => .rethrown e
  | none => .returned s.value

/-- What a step does, apart from `violated`. -/
def step (s : State V X) : Event V X → State V X
  | .deliver c inline =>
      { s with completer := .entered, inline := inline, delivered := some c }
  | .copyState =>
      { s with
        completer := .copied
        held := Function.update s.held .completer true }
  | .lockReceiver => { s with completer := .locked, owner := some .completer }
  | .store =>
      { s with
        completer := .stored
        value := s.stored.1
        error := s.stored.2 }
  | .setDone => { s with completer := .marked, done := true }
  | .unlockReceiver => { s with completer := .unlocked, owner := none }
  | .notifyAll => { s with completer := .notifying }
  | .wakeWaiter => { s with enqueued := false }
  | .notifyReturns => { s with completer := .notified }
  | .dropCopy =>
      { s with
        completer := .finished
        held := Function.update s.held .completer false }
  | .startReturns => { s with waiter := .started }
  | .lockWaiter => { s with waiter := .locked, owner := some .waiter }
  | .test => { s with waiter := if s.done = true then .passed else .refused }
  | .enqueue => { s with waiter := .waiting, enqueued := true, owner := none }
  | .spuriousWake => { s with enqueued := false }
  | .unlockWaiter => { s with waiter := .unlocked, owner := none }
  | .readResult => { s with waiter := .settled, result := some s.outcome }
  | .destroyOp =>
      { s with
        waiter := .releasing
        op := false
        held := Function.update s.held .receiver false }
  | .dropState =>
      { s with
        waiter := .returned
        held := Function.update s.held .waiter false }

/-- The step uses something that no longer exists. -/
def violates (s : State V X) (e : Event V X) : Bool :=
  e.usesState && !s.alive || e.usesOp && !s.op

/-- What a step does. -/
def effect (s : State V X) (e : Event V X) : State V X :=
  { step s e with violated := s.violated || violates s e }

/-- `op` is connected and about to be started. -/
def initial : State V X where
  waiter := .starting
  completer := .idle
  inline := false
  owner := none
  enqueued := false
  value := none
  error := none
  done := false
  held := fun h => decide (h ≠ .completer)
  op := true
  violated := false
  delivered := none
  result := none

/-- A call of `sync_wait` as a system of atomic steps. -/
def machine : Machine (State V X) (Event V X) where
  init := fun s => s = initial
  enabled := enabled
  effect := effect

instance (s : State V X) (e : Event V X) : Decidable (machine.enabled s e) := by
  change Decidable (enabled s e)
  cases e <;> (dsimp only [enabled]; infer_instance)

end Fiberexec.SyncWait
