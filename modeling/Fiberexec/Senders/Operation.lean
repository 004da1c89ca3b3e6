import Fiberexec.Support.Machine
import Fiberexec.Support.Platform
import Fiberexec.SyncWait.Model
import Mathlib.Logic.Function.Basic

/-!
# The operations of `schedule` and `run`

An operation state of `schedule_sender` or `run_sender` lives in its parent,
which may destroy it before it is started, or at any time after its receiver has
been completed.  `start()` bridges the stop token of the receiver, of whatever type,
to a `std::stop_source` of its own and posts a task to the pool; the task runs on a
fiber, makes the bridged token the fiber's own, and completes the receiver.

The thread in `start()`, the fiber, the threads that request a stop and the
parent run side by side.  Each access to the operation state is one step, and an
access after its end is recorded.
-/

namespace Fiberexec.Senders

open Support
open SyncWait (Exception)

/-! ## What runs on the fiber -/

/-- What a callable may end with instead of a value. -/
inductive Thrown (X : Type)
  /-- `boost::context::detail::forced_unwind` -/
  | forcedUnwind
  | exception (e : Exception X)
  deriving DecidableEq

/-- What an asynchronous operation gives back to its caller: the numbers that it
returns, none if it is `void`, or the code of the `std::system_error` that it
throws. -/
inductive Reply
  | value (ns : List ℤ)
  | error (code : ℤ)
  deriving DecidableEq

/-- A callable, as far as it deals with its fiber: it calls asynchronous
operations and goes on with what they give back.  The type is inductive, so a
callable makes finitely many calls on each path; one that reads in an endless loop
is not among them. -/
inductive Body (V X : Type)
  /-- without a value if the callable returns `void` -/
  | ret (v : Option V)
  | throw (e : Thrown X)
  /-- `checks` tells whether the operation begins with `begin_async_op` -/
  | call (checks : Bool) (k : Reply → Body V X)

/-- The completions of a receiver. -/
inductive Completion (V X : Type)
  | setValue (v : Option V)
  | setError (e : Exception X)
  | setStopped
  deriving DecidableEq

/-- The `catch` clauses of `run_sender::operation::start`.  Of a
`std::system_error` the value of its code is looked at, not the category. -/
def Thrown.completion {V X : Type} : Thrown X → Completion V X
  | .forcedUnwind => .setStopped
  | .exception (.systemError code) =>
      if code = ecanceled then .setStopped else .setError (.systemError code)
  | .exception (.object x) => .setError (.object x)

namespace Body

variable {V X : Type}

/-- A call of an operation that begins with `begin_async_op`, in a callable that
does not catch its error. -/
def io (k : List ℤ → Body V X) : Body V X :=
  .call true fun res =>
    match res with
    | .value ns => k ns
    | .error code => .throw (.exception (.systemError code))

/-- How a body that is through completes a `run` operation. -/
def completion? : Body V X → Option (Completion V X)
  | .ret v => some (.setValue v)
  | .throw e => some e.completion
  | .call _ _ => none

/-- How a body goes on when the operation it calls has a result. -/
def reply : Body V X → Reply → Body V X
  | .call _ k, res => k res
  | b, _ => b

/-- What is left of a body after its first calls had these results. -/
def feed (b : Body V X) (replies : List Reply) : Body V X :=
  replies.foldl reply b

end Body

/-! ## Operation states -/

/-- The two senders of the library.  The completion of `schedule` runs the
body, which belongs to what is connected to it; that of `run` follows it. -/
inductive Kind
  | schedule
  | run
  deriving DecidableEq

/-- Progress of `start()`. -/
inductive Starter
  | idle
  /-- the token is stoppable and `fiber_stop_` has a state -/
  | bridging
  /-- about to post the task -/
  | posting
  | done
  deriving DecidableEq

/-- The state of `stop_cb_`. -/
inductive Callback
  | absent
  | registered
  /-- `stop_forwarder` is about to request the stop -/
  | running
  /-- `stop_forwarder` has requested the stop, and is about to return -/
  | forwarded
  | ran
  /-- deregistered before it ran -/
  | removed
  deriving DecidableEq

/-- The task and its fiber. -/
inductive Fiber (V X : Type)
  | unposted
  | queued
  | running (b : Body V X)
  /-- suspended in an asynchronous operation -/
  | waiting (k : Reply → Body V X)
  /-- about to complete the receiver -/
  | completing (c : Completion V X)
  | returned

namespace Fiber

variable {V X : Type}

/-- The task is in the queue. -/
def atEntry : Fiber V X → Bool
  | .queued => true
  | _ => false

/-- The body is about to begin an asynchronous operation. -/
def atCall : Fiber V X → Bool
  | .running (.call _ _) => true
  | _ => false

def atWait : Fiber V X → Bool
  | .waiting _ => true
  | _ => false

/-- The body is through. -/
def atEnd : Fiber V X → Bool
  | .running b => b.completion?.isSome
  | _ => false

def atCompletion : Fiber V X → Bool
  | .completing _ => true
  | _ => false

end Fiber

inductive Life
  | alive
  /-- the destructor waits for `stop_cb_` -/
  | destroying
  | destroyed
  deriving DecidableEq

/-- An operation.  The last four members record what the body was told, whether
it was unwound, how the receiver was completed, and whether the operation state
was used after its end. -/
structure Op (V X : Type) where
  starter : Starter
  callback : Callback
  /-- the state of `fiber_stop_`, if it has one, and whether its stop is
  requested; it is shared with the token of the fiber -/
  fiberStop : Option Bool
  /-- `fiber_stop_token`: whether the fiber has the token of `fiber_stop_` -/
  token : Bool
  fiber : Fiber V X
  life : Life
  replies : List Reply
  unwound : Bool
  received : List (Completion V X)
  fault : Bool

/-- What an operation is made of: the sender, the receiver's stop source, unless
its token cannot be stopped, and the callable. -/
structure Setup (σ V X : Type) where
  kind : Kind
  source : Option σ
  body : Body V X

section Steps

variable {σ κ V X : Type}

namespace Op

/-- An access to the operation state. -/
def touch (o : Op V X) : Op V X :=
  if o.life = .destroyed then { o with fault := true } else o

/-- `current_fiber_stop_token().stop_requested()`. -/
def stopRequested (o : Op V X) : Bool :=
  o.token && o.fiberStop == some true

/-- `start()` up to `stop_cb_`. -/
def start (c : Setup σ V X) (o : Op V X) : Op V X :=
  match c.source with
  | some _ => { o.touch with starter := .bridging, fiberStop := some false }
  | none => { o.touch with starter := .posting }

/-- `stop_forwarder`. -/
def forward (o : Op V X) : Op V X :=
  { o.touch with fiberStop := some true }

/-- `stop_cb_.emplace`, which runs the callback at once when the stop was
requested before. -/
def register (requested : Bool) (o : Op V X) : Op V X :=
  if requested = true then
    { o.forward with starter := .posting, callback := .ran }
  else { o.touch with starter := .posting, callback := .registered }

/-- `schedule_task`: the task carries the token. -/
def post (o : Op V X) : Op V X :=
  { o.touch with starter := .done, fiber := .queued }

/-- The task begins.  `install_fiber_stop_token` passes over a token that cannot
be stopped. -/
def enter (c : Setup σ V X) (o : Op V X) : Op V X :=
  match c.kind with
  | .schedule =>
      { o with
        token := o.fiberStop.isSome
        fiber := .completing (.setValue none) }
  | .run =>
      { o.touch with token := o.fiberStop.isSome, fiber := .running c.body }

/-- A step of the body, which for `run` is a member of the operation state. -/
def stepBody (c : Setup σ V X) (o : Op V X) (fiber : Fiber V X) : Op V X :=
  match c.kind with
  | .schedule => { o with fiber := fiber }
  | .run => { o.touch with fiber := fiber }

/-- The body begins an asynchronous operation.  `begin_async_op` refuses it when
the fiber's stop was requested. -/
def call (c : Setup σ V X) (o : Op V X) (checks : Bool) (k : Reply → Body V X) :
    Op V X :=
  if checks = true ∧ o.stopRequested = true then
    { o.stepBody c (.running (k (.error ecanceled))) with
      replies := o.replies ++ [.error ecanceled] }
  else o.stepBody c (.waiting k)

/-- The operation ends with a result. -/
def answer (c : Setup σ V X) (o : Op V X) (k : Reply → Body V X) (res : Reply) :
    Op V X :=
  { o.stepBody c (.running (k res)) with replies := o.replies ++ [res] }

/-- The body is through. -/
def leave (c : Setup σ V X) (o : Op V X) (completion : Completion V X) :
    Op V X :=
  match c.kind with
  | .schedule => { o with fiber := .returned }
  | .run => { o.touch with fiber := .completing completion }

/-- The receiver is completed.  What is connected to `schedule` runs inside. -/
def complete (c : Setup σ V X) (o : Op V X) (completion : Completion V X) :
    Op V X :=
  { o.touch with
    received := o.received ++ [completion]
    fiber :=
      match c.kind with
      | .schedule => .running c.body
      | .run => .returned }

/-- The destructor removes `stop_cb_`, unless it runs. -/
def destroyBegin (o : Op V X) : Op V X :=
  { o with
    life := .destroying
    callback := if o.callback = .registered then .removed else o.callback }

end Op

/-! ## Steps -/

/-- The operations, named by `κ`, and the stop sources of their receivers. -/
structure State (σ κ V X : Type) where
  requested : σ → Bool
  op : κ → Op V X

inductive Event (σ κ : Type)
  /-- somebody requests a stop -/
  | requestStop (src : σ)
  | start (i : κ)
  | register (i : κ)
  | post (i : κ)
  /-- the requesting thread comes to the callback -/
  | callbackBegin (i : κ)
  | callbackForward (i : κ)
  | callbackEnd (i : κ)
  /-- a fiber begins the task -/
  | enter (i : κ)
  | call (i : κ)
  | answer (i : κ) (res : Reply)
  /-- the stack of the suspended fiber is unwound -/
  | unwind (i : κ)
  | leave (i : κ)
  | complete (i : κ)
  | destroyBegin (i : κ)
  | destroyEnd (i : κ)
  deriving DecidableEq

/-- The operation that a step is about. -/
def Event.op? : Event σ κ → Option κ
  | .requestStop _ => none
  | .start i | .register i | .post i | .callbackBegin i | .callbackForward i
  | .callbackEnd i | .enter i | .call i | .answer i _ | .unwind i | .leave i
  | .complete i | .destroyBegin i | .destroyEnd i => some i

variable (setup : κ → Setup σ V X)

/-- Whether the stop of a receiver was requested. -/
def State.sourceRequested (s : State σ κ V X) (i : κ) : Bool :=
  (setup i).source.any s.requested

/-- When a step may be taken. -/
def enabled (s : State σ κ V X) : Event σ κ → Prop
  | .requestStop _ => True
  | .start i => (s.op i).starter = .idle ∧ (s.op i).life = .alive
  | .register i => (s.op i).starter = .bridging
  | .post i => (s.op i).starter = .posting
  | .callbackBegin i =>
      (s.op i).callback = .registered ∧ s.sourceRequested setup i = true
  | .callbackForward i => (s.op i).callback = .running
  | .callbackEnd i => (s.op i).callback = .forwarded
  | .enter i => (s.op i).fiber.atEntry = true
  | .call i => (s.op i).fiber.atCall = true
  | .answer i _ => (s.op i).fiber.atWait = true
  | .unwind i => (s.op i).fiber.atWait = true
  | .leave i => (s.op i).fiber.atEnd = true
  | .complete i => (s.op i).fiber.atCompletion = true
  | .destroyBegin i =>
      (s.op i).life = .alive ∧
        ((s.op i).starter = .idle ∨ (s.op i).received ≠ [])
  | .destroyEnd i =>
      (s.op i).life = .destroying ∧ (s.op i).callback ≠ .running ∧
        (s.op i).callback ≠ .forwarded

/-- What a step does to the operation it is about. -/
def State.step (s : State σ κ V X) (i : κ) (o : Op V X) :
    Event σ κ → Op V X
  | .requestStop _ => o
  | .start _ => o.start (setup i)
  | .register _ => o.register (s.sourceRequested setup i)
  | .post _ => o.post
  | .callbackBegin _ => { o with callback := .running }
  | .callbackForward _ => { o.forward with callback := .forwarded }
  | .callbackEnd _ => { o with callback := .ran }
  | .enter _ => o.enter (setup i)
  | .call _ =>
      match o.fiber with
      | .running (.call checks k) => o.call (setup i) checks k
      | _ => o
  | .answer _ res =>
      match o.fiber with
      | .waiting k => o.answer (setup i) k res
      | _ => o
  | .unwind _ => { o.leave (setup i) .setStopped with unwound := true }
  | .leave _ =>
      match o.fiber with
      | .running b =>
          match b.completion? with
          | some c => o.leave (setup i) c
          | none => o
      | _ => o
  | .complete _ =>
      match o.fiber with
      | .completing c => o.complete (setup i) c
      | _ => o
  | .destroyBegin _ => o.destroyBegin
  | .destroyEnd _ => { o with life := .destroyed }

variable [DecidableEq σ] [DecidableEq κ]

/-- What a step does. -/
def effect (s : State σ κ V X) (e : Event σ κ) : State σ κ V X :=
  match e.op? with
  | some i =>
      { s with op := Function.update s.op i (s.step setup i (s.op i) e) }
  | none =>
      match e with
      | .requestStop src =>
          { s with requested := Function.update s.requested src true }
      | _ => s

end Steps

/-- An operation state as `connect` returns it. -/
def Op.initial {V X : Type} : Op V X where
  starter := .idle
  callback := .absent
  fiberStop := none
  token := false
  fiber := .unposted
  life := .alive
  replies := []
  unwound := false
  received := []
  fault := false

section Machine

variable {σ κ V X : Type} [DecidableEq σ] [DecidableEq κ]

/-- Nothing is started; stops may have been requested before. -/
def State.initial (s : State σ κ V X) : Prop :=
  ∀ i, s.op i = Op.initial

/-- The operations as a system of atomic steps. -/
def machine (setup : κ → Setup σ V X) :
    Machine (State σ κ V X) (Event σ κ) where
  init := State.initial
  enabled := enabled setup
  effect := effect setup

instance (setup : κ → Setup σ V X)
    (s : State σ κ V X) (e : Event σ κ) :
    Decidable ((machine setup).enabled s e) := by
  change Decidable (enabled setup s e)
  cases e <;> (dsimp only [enabled]; infer_instance)

end Machine

end Fiberexec.Senders
