import Fiberexec.Resources.Channel
import Fiberexec.Ring.Request
import Fiberexec.Support.Error
import Fiberexec.Support.Handles
import Fiberexec.Support.Machine
import Fiberexec.Support.Platform

/-!
# The pool of registered buffers

`fixed_buffer_pool` registers its buffers with the ring of a worker and keeps
the indices of the free ones in a channel.  `borrow` takes an index off the
channel, suspending the fiber while there is none; the `fixed_buffer` it returns
puts the index back when it is destroyed or overwritten.  `async_send_zc` hands
the buffer of a `fixed_buffer` to the kernel, which reads it until it has posted
the last CQE of the send.

All fibers that use a pool run on one thread, so a function that does not
suspend is one step.  `async_send_zc` is two: it submits its request, and goes
on once the promise of its handler is fulfilled.
-/

namespace Fiberexec.Resources.BufferPool

open Support
open Fiberexec.Ring (Signal Handler Track notification)

/-- `fixed_buffer`: `owner` tells whether `pool_` is not null, and `key` is
`idx_`. -/
abbrev FixedBuffer :=
  Handle ℕ

/-- A call of `async_send_zc` that has prepared its request. -/
structure Call where
  /-- the address of the `fixed_buffer` it was given -/
  buf : ℕ
  bufIndex : ℕ
  /-- what the ring holds of the request -/
  track : Track
  handler : Handler
  /-- the call has returned or thrown -/
  left : Bool
  deriving DecidableEq

/-- The pool of a worker, with the `fixed_buffer`s that exist and the sends. -/
structure State where
  freeList : Channel ℕ
  buffers : Handles ℕ
  /-- how many fibers are suspended in `borrow` -/
  waiting : ℕ
  calls : List Call
  /-- `return_buffer` was refused, or had to suspend -/
  unreturned : Bool
  deriving DecidableEq

/-! ## The constructor -/

/-- How a constructor ends, if it does. -/
inductive Construction
  | throws (e : Error)
  | suspends
  | constructed (s : State)
  deriving DecidableEq

/-- `buf_count_`. -/
def roundedCount (bufCount : ℕ) : ℕ :=
  max (bitCeil bufCount) 2

/-- `max_size` of a vector of `iovec`s. -/
def maxIovecs : ℕ :=
  2 ^ 59 - 1

/-- `IORING_MAX_REG_BUFFERS`. -/
def maxRegistered : ℕ :=
  16384

/-- `io_uring_register_buffers`; `r` is the kernel's answer to an acceptable
number of buffers. -/
def registerBuffers (count : ℕ) (r : ℤ) : ℤ :=
  -- `-EINVAL`
  if count = 0 ∨ maxRegistered < count then -22 else r

/-- The constructor.  The first three flags tell whether there is memory for
the bytes, the channel and the vector of `iovec`s.  The number of bytes is
computed in 64 bits; the number of buffers is passed as an `unsigned`, and the
loop compares its index with it as a `uint16_t`.  A `buf_count` over `2 ^ 63`
has no `bit_ceil`; here it is one more count that the kernel does not take. -/
def construct (storageAllocated ringAllocated iovecsAllocated onWorker : Bool)
    (bufSize bufCount : ℕ) (registered : ℤ) : Construction :=
  let count := roundedCount bufCount
  if maxBytes < bufSize * count % 2 ^ 64 then .throws .lengthError
  else if storageAllocated = false then .throws .badAlloc
  else
    match Channel.construct count with
    | none => .throws .fiberError
    | some freeList =>
        if ringAllocated = false then .throws .badAlloc
        else if bufSize = 0 ∨ count = 0 then
          .throws (.invalidArgument
            "fixed_buffer_pool: buf_size and buf_count must be non-zero")
        else if onWorker = false then
          .throws (.runtimeError
            "fixed_buffer_pool constructed outside of a fiberexec worker thread")
        else if maxIovecs < count then .throws .lengthError
        else if iovecsAllocated = false then .throws .badAlloc
        else
          let answer := registerBuffers (count % 2 ^ 32) registered
          if answer < 0 then
            .throws (.systemError (-answer) "io_uring_register_buffers")
          else
            match freeList.pushAll (List.range (count % 2 ^ 16)) with
            | none => .suspends
            | some freeList =>
                .constructed
                  { freeList := freeList
                    buffers := []
                    waiting := 0
                    calls := []
                    unreturned := false }

/-! ## The functions -/

/-- `return_buffer`. -/
def State.returnBuffer (s : State) (idx : ℕ) : State :=
  match s.freeList.push idx with
  | some (.success, freeList) => { s with freeList := freeList }
  | _ => { s with unreturned := true }

/-- `~fixed_buffer`, and the first lines of its move assignment. -/
def State.giveBack (s : State) (h : FixedBuffer) : State :=
  if h.owner = true then s.returnBuffer h.key else s

/-- What a function does for its caller. -/
inductive Outcome
  | borrowed (idx : ℕ)
  | sent (result : ℤ)
  | suspended
  | throws (e : Error)
  deriving DecidableEq

/-- `borrow_fixed_buffer`, and the `borrow` that it calls.  The thread-local
pointer is null once the pool is closed. -/
def State.borrow (s : State) : State × Outcome :=
  if s.freeList.closed = true then
    (s, .throws (.runtimeError
      ("borrow_fixed_buffer called without fixed_buffer_size/fixed_buffer_count " ++
        "configured in context_options")))
  else
    match s.freeList.pop with
    | none => ({ s with waiting := s.waiting + 1 }, .suspended)
    | some (.success, some idx, freeList) =>
        ({ s with
            freeList := freeList
            buffers := s.buffers.take idx }, .borrowed idx)
    | some _ => (s, .throws (.runtimeError "fixed_buffer_pool: pool closed"))

/-- A suspended `borrow` is resumed. -/
def State.resume (s : State) : State × Outcome :=
  match s.freeList.pop with
  | none => (s, .suspended)
  | some (.success, some idx, freeList) =>
      ({ s with
          freeList := freeList
          buffers := s.buffers.take idx
          waiting := s.waiting - 1 }, .borrowed idx)
  | some _ =>
      ({ s with waiting := s.waiting - 1 },
        .throws (.runtimeError "fixed_buffer_pool: pool closed"))

/-- `io_uring_submit` hands everything that is queued to the kernel. -/
def State.submit (s : State) : State :=
  { s with calls := s.calls.map (fun c => { c with track := c.track.submit }) }

/-- `async_send_zc` up to its `wait`, for the `fixed_buffer` at `i`.  `gotSqe`
tells whether the submission queue has an entry, `submitted` is what
`io_uring_submit` returns.  A request whose submission fails stays queued.
The calling fiber is one of the worker, so there is a current ring. -/
def State.sendZc (s : State) (i : ℕ) (h : FixedBuffer) (gotSqe : Bool)
    (submitted : ℤ) : State × Outcome :=
  if gotSqe = false then
    (s, .throws (.runtimeError "async_send_zc: io_uring ring full"))
  else
    let call : Call := ⟨i, h.key, ⟨[.answer], [], []⟩, .fresh true, false⟩
    if submitted < 0 then
      ({ s with calls := s.calls ++ [{ call with left := true }] },
        .throws (.systemError (-submitted) "io_uring_submit (async_send_zc)"))
    else
      (State.submit { s with calls := s.calls ++ [call] }, .suspended)

/-- The rest of `async_send_zc`. -/
def Call.finish (c : Call) : Outcome :=
  if c.handler.value < 0 then
    .throws (.systemError (-c.handler.value) "async_send_zc")
  else .sent c.handler.value

/-! ## The system -/

/-- The steps. -/
inductive Event
  | borrow
  | resume
  | moveConstruct (src : ℕ) (h : FixedBuffer)
  /-- `dst = src` is an assignment to itself -/
  | moveAssign (dst src : ℕ) (d h : FixedBuffer)
  | destroy (i : ℕ) (h : FixedBuffer)
  | sendZc (i : ℕ) (h : FixedBuffer) (gotSqe : Bool) (submitted : ℤ)
  /-- a submission for another operation of the worker -/
  | submit
  /-- the kernel posts the only CQE of a send -/
  | answer (k : ℕ) (c : Call) (res : ℤ)
  /-- the kernel posts the first of two CQEs -/
  | answerMore (k : ℕ) (c : Call) (res : ℤ)
  /-- the kernel has released the buffer -/
  | notify (k : ℕ) (c : Call)
  /-- `drain_cqes` hands the oldest CQE of a send to its handler -/
  | dispatch (k : ℕ) (c : Call) (sig : Signal) (cqes : List Signal)
  /-- `async_send_zc` goes on after its `wait` -/
  | finish (k : ℕ) (c : Call)
  /-- `~fixed_buffer_pool` -/
  | close
  deriving DecidableEq

/-- When a step may be taken.  `async_send_zc` is given a `fixed_buffer` that
owns a buffer, and the pool is destroyed when all fibers have ended. -/
def enabled (s : State) : Event → Prop
  | .borrow => True
  | .resume => 0 < s.waiting
  | .moveConstruct src h => s.buffers[src]? = some (some h)
  | .moveAssign dst src d h =>
      s.buffers[dst]? = some (some d) ∧ s.buffers[src]? = some (some h)
  | .destroy i h => s.buffers[i]? = some (some h)
  | .sendZc i h _ _ => s.buffers[i]? = some (some h) ∧ h.owner = true
  | .submit => True
  | .answer k c _ => s.calls[k]? = some c ∧ c.track.kernel = [.answer]
  | .answerMore k c _ => s.calls[k]? = some c ∧ c.track.kernel = [.answer]
  | .notify k c => s.calls[k]? = some c ∧ c.track.kernel = [.notification]
  | .dispatch k c sig cqes =>
      s.calls[k]? = some c ∧ c.track.cqes = sig :: cqes
  | .finish k c =>
      s.calls[k]? = some c ∧ c.left = false ∧ 0 < c.handler.fulfilments
  | .close =>
      s.freeList.closed = false ∧ s.buffers.owned = [] ∧ s.waiting = 0

/-- A step of one call. -/
def State.setCall (s : State) (k : ℕ) (c : Call) : State :=
  { s with calls := s.calls.set k c }

/-- What a step does. -/
def effect (s : State) : Event → State
  | .borrow => s.borrow.1
  | .resume => s.resume.1
  | .moveConstruct src h =>
      { s with buffers := s.buffers.moveConstruct src h }
  | .moveAssign dst src d h =>
      if dst = src then s
      else
        { s.giveBack d with
          buffers := s.buffers.moveAssign dst src h }
  | .destroy i h => { s.giveBack h with buffers := s.buffers.destroy i }
  | .sendZc i h gotSqe submitted => (s.sendZc i h gotSqe submitted).1
  | .submit => s.submit
  | .answer k c res =>
      s.setCall k { c with
        track := ⟨c.track.queued, [], c.track.cqes ++ [⟨res, false, false⟩]⟩ }
  | .answerMore k c res =>
      s.setCall k { c with
        track := ⟨c.track.queued, [.notification],
          c.track.cqes ++ [⟨res, true, false⟩]⟩ }
  | .notify k c =>
      s.setCall k { c with
        track := ⟨c.track.queued, [], c.track.cqes ++ [notification]⟩ }
  | .dispatch k c sig cqes =>
      s.setCall k { c with
        track := ⟨c.track.queued, c.track.kernel, cqes⟩
        handler := c.handler.complete sig }
  | .finish k c => s.setCall k { c with left := true }
  | .close => { s with freeList := s.freeList.close }

/-- What a call of a function does for its caller in a step. -/
def outcome (s : State) : Event → Option Outcome
  | .borrow => some s.borrow.2
  | .resume => some s.resume.2
  | .sendZc i h gotSqe submitted => some (s.sendZc i h gotSqe submitted).2
  | .finish _ c => some c.finish
  | _ => none

/-- The pools that a constructor with these arguments leaves, as a system of
steps. -/
def machine (bufSize bufCount : ℕ) : Machine State Event where
  init := fun s =>
    ∃ storageAllocated ringAllocated iovecsAllocated onWorker registered,
      construct storageAllocated ringAllocated iovecsAllocated onWorker bufSize
        bufCount registered = .constructed s
  enabled := enabled
  effect := effect

instance (bufSize bufCount : ℕ) (s : State) (e : Event) :
    Decidable ((machine bufSize bufCount).enabled s e) :=
  match e with
  | .borrow => .isTrue trivial
  | .resume => inferInstanceAs (Decidable (0 < s.waiting))
  | .moveConstruct src h =>
      inferInstanceAs (Decidable (s.buffers[src]? = some (some h)))
  | .moveAssign dst src d h =>
      inferInstanceAs (Decidable
        (s.buffers[dst]? = some (some d) ∧ s.buffers[src]? = some (some h)))
  | .destroy i h => inferInstanceAs (Decidable (s.buffers[i]? = some (some h)))
  | .sendZc i h _ _ =>
      inferInstanceAs (Decidable
        (s.buffers[i]? = some (some h) ∧ h.owner = true))
  | .submit => .isTrue trivial
  | .answer k c _ =>
      inferInstanceAs (Decidable
        (s.calls[k]? = some c ∧ c.track.kernel = [.answer]))
  | .answerMore k c _ =>
      inferInstanceAs (Decidable
        (s.calls[k]? = some c ∧ c.track.kernel = [.answer]))
  | .notify k c =>
      inferInstanceAs (Decidable
        (s.calls[k]? = some c ∧ c.track.kernel = [.notification]))
  | .dispatch k c sig cqes =>
      inferInstanceAs (Decidable
        (s.calls[k]? = some c ∧ c.track.cqes = sig :: cqes))
  | .finish k c =>
      inferInstanceAs (Decidable
        (s.calls[k]? = some c ∧ c.left = false ∧ 0 < c.handler.fulfilments))
  | .close =>
      inferInstanceAs (Decidable (s.freeList.closed = false ∧
        s.buffers.owned = [] ∧ s.waiting = 0))

end Fiberexec.Resources.BufferPool
