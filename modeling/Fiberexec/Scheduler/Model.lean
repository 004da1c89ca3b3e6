import Fiberexec.Support.Machine
import Fiberexec.Support.Platform

/-!
# The scheduling algorithm of a worker

This is the model of `io_uring_scheduler` as Boost.Fiber's dispatcher drives it:
`awakened`, `pick_next`, `suspend_until`, `notify` and the loop of `drain_cqes`.

What is assumed of Boost.Fiber: its dispatcher takes what `pick_next` returns, and
calls `suspend_until` when there is nothing and only then, with the time at which the
next sleeping fiber is due; and a thread that makes a fiber of this one ready calls
`notify` after the fiber is in the queue.  These are two steps.  Fibers that the
dispatcher keeps for another thread's sake and hands to `awakened` before its next
`pick_next` count as in the queue already.

The kernel completes requests at any time.  What a completion does besides making a
fiber ready is left to the model of the ring.
-/

namespace Fiberexec.Scheduler

open Support

/-! ## The thread of a worker -/

/-- A time of the steady clock; none is `time_point::max()`. -/
abbrev Deadline := Option ℤ

/-- What the thread executes. -/
inductive Thread (φ : Type)
  /-- in the dispatcher, about to call `pick_next` -/
  | dispatching
  | running (f : φ)
  /-- in `suspend_until`, about to look for a CQE -/
  | suspending (absTime : Deadline)
  /-- in `io_uring_wait_cqe`, or until `expiry` in `io_uring_wait_cqe_timeout` -/
  | waiting (absTime : Deadline) (expiry : Deadline)
  | draining
  deriving DecidableEq

/-- A CQE: of the notify read, or of another request, with the fiber that its
handler makes ready, if any. -/
inductive Cqe (φ : Type)
  | notify
  | request (f : Option φ)
  deriving DecidableEq

/-- A scheduler.  `armed` are the notify reads that the kernel holds and
`unwritten` the threads between `awakened` and `notify`.  The last two members
record the fibers that were made ready and those that were picked, in order. -/
structure State (φ : Type) where
  ready : List φ
  thread : Thread φ
  cqes : List (Cqe φ)
  notifyFd : ℕ
  armed : ℕ
  unwritten : ℕ
  now : ℤ
  awoken : List φ
  picked : List φ

inductive Event (φ : Type)
  /-- another thread makes a fiber ready, and goes on to `notify` -/
  | awakened (f : φ)
  | notify
  /-- another thread writes `notify_fd_` in `request_cancel` -/
  | requestCancel
  /-- the kernel completes the notify read -/
  | readNotify
  /-- the kernel completes another request -/
  | complete (f : Option φ)
  | tick
  /-- the thread itself makes a fiber ready, which it resumes or which slept -/
  | wake (f : φ)
  /-- the running fiber suspends -/
  | suspend
  /-- the running fiber goes to the end of the queue -/
  | yield
  /-- the dispatcher calls `pick_next`, and `suspend_until` when there is nothing -/
  | pickNext (absTime : Deadline)
  /-- `io_uring_peek_cqe` -/
  | peek
  /-- the wait returns with a CQE -/
  | waitCqe
  /-- the wait fails, as when it is interrupted -/
  | waitFails
  | waitExpires
  /-- one round of `drain_cqes` -/
  | drainCqe
  deriving DecidableEq

variable {φ : Type}

/-- The thread is not in the scheduler's own code. -/
def Thread.atLarge : Thread φ → Bool
  | .dispatching | .running _ => true
  | _ => false

def Thread.isRunning : Thread φ → Bool
  | .running _ => true
  | _ => false

def Thread.isSuspending : Thread φ → Bool
  | .suspending _ => true
  | _ => false

def Thread.isWaiting : Thread φ → Bool
  | .waiting _ _ => true
  | _ => false

/-- The wait has a time limit, which is over. -/
def Thread.expired (now : ℤ) : Thread φ → Bool
  | .waiting _ (some expiry) => decide (expiry ≤ now)
  | _ => false

/-- When a step may be taken. -/
def enabled (s : State φ) : Event φ → Prop
  | .awakened _ | .requestCancel | .complete _ | .tick => True
  | .notify => 0 < s.unwritten
  | .readNotify => 0 < s.armed ∧ 0 < s.notifyFd
  | .wake _ => s.thread.atLarge = true
  | .suspend | .yield => s.thread.isRunning = true
  -- the dispatcher has made ready the sleeping fibers that are due
  | .pickNext absTime =>
      s.thread = .dispatching ∧ ∀ d ∈ absTime, s.now < d
  | .peek => s.thread.isSuspending = true
  | .waitCqe => s.thread.isWaiting = true ∧ s.cqes ≠ []
  | .waitFails => s.thread.isWaiting = true
  | .waitExpires => s.thread.expired s.now = true
  | .drainCqe => s.thread = .draining

namespace State

/-- `awakened`. -/
def push (s : State φ) (f : φ) : State φ :=
  { s with ready := s.ready ++ [f], awoken := s.awoken ++ [f] }

/-- `pick_next`. -/
def pickNext (s : State φ) (absTime : Deadline) : State φ :=
  match s.ready with
  | [] => { s with thread := .suspending absTime }
  | f :: rest =>
      { s with
        ready := rest
        thread := .running f
        picked := s.picked ++ [f] }

/-- `suspend_until` up to the wait.  The clock is read and the wait, which is relative
to that, begins in one step; time that passes in between makes it end later. -/
def suspendUntil (s : State φ) (absTime : Deadline) : State φ :=
  if s.cqes ≠ [] then { s with thread := .draining }
  else
    match absTime with
    | none => { s with thread := .waiting none none }
    | some d =>
        if d ≤ s.now then { s with thread := .dispatching }
        else
          { s with
            thread := .waiting (some d)
              (some (s.now + (timespec (d - s.now)).nanos)) }

/-- One round of `drain_cqes`; a notify CQE re-arms the read. -/
def drainCqe (s : State φ) : State φ :=
  match s.cqes with
  | [] => { s with thread := .dispatching }
  | .notify :: rest => { s with cqes := rest, armed := s.armed + 1 }
  | .request none :: rest => { s with cqes := rest }
  | .request (some f) :: rest => { s.push f with cqes := rest }

end State

/-- What a step does. -/
def effect (s : State φ) : Event φ → State φ
  | .awakened f => { s.push f with unwritten := s.unwritten + 1 }
  | .notify =>
      { s with unwritten := s.unwritten - 1, notifyFd := s.notifyFd + 1 }
  | .requestCancel => { s with notifyFd := s.notifyFd + 1 }
  | .readNotify =>
      { s with
        armed := s.armed - 1
        notifyFd := s.notifyFd - 1
        cqes := s.cqes ++ [.notify] }
  | .complete f => { s with cqes := s.cqes ++ [.request f] }
  | .tick => { s with now := s.now + 1 }
  | .wake f => s.push f
  | .suspend => { s with thread := .dispatching }
  | .yield =>
      match s.thread with
      | .running f => { s.push f with thread := .dispatching }
      | _ => s
  | .pickNext absTime => s.pickNext absTime
  | .peek =>
      match s.thread with
      | .suspending absTime => s.suspendUntil absTime
      | _ => s
  | .waitCqe => { s with thread := .draining }
  | .waitFails | .waitExpires => { s with thread := .dispatching }
  | .drainCqe => s.drainCqe

/-- The scheduler as its constructor leaves it: the notify read is armed. -/
def initial (now : ℤ) : State φ where
  ready := []
  thread := .dispatching
  cqes := []
  notifyFd := 0
  armed := 1
  unwritten := 0
  now := now
  awoken := []
  picked := []

/-- The scheduler as a system of atomic steps. -/
def machine (φ : Type) : Machine (State φ) (Event φ) where
  init := fun s => ∃ now, s = initial now
  enabled := enabled
  effect := effect

instance [DecidableEq φ] (s : State φ) (e : Event φ) :
    Decidable ((machine φ).enabled s e) := by
  change Decidable (enabled s e)
  cases e <;> (dsimp only [enabled]; infer_instance)

end Fiberexec.Scheduler
