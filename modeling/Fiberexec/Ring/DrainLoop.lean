import Fiberexec.Multishot.RecvStream
import Fiberexec.Ring.Model
import Fiberexec.Support.Tally

/-!
# One call of `drain_cqes`

The loop takes CQEs off the ring until there is none.  Its body submits: it arms
the two eventfd reads and multishot requests again, and hands queued cancels to
the kernel.  The kernel may answer at once, so that CQEs are added to the ring
while it is drained.

The kernel posts CQEs at any time between two turns, for the reads as long as
their eventfds have units, for a multishot request as long as it has events.  No
fiber runs during the call, so the handlers stay where they are.  What a handler
does with a result is left to other modules: whether a request is armed again
depends on the CQE alone.
-/

namespace Fiberexec.Ring.DrainLoop

open Support Multishot

/-! ## Handlers and requests -/

/-- What a handler is. -/
inductive Kind
  /-- an `io_awaitable` or a `send_zc_handler` -/
  | promise
  | acceptor
  | recv
  deriving DecidableEq

/-- The handlers that live during the call and their addresses, which are never
one of the tags. -/
structure Layout (η : Type) where
  kind : η → Kind
  addr : η → ℕ
  handlerAt : ℕ → Option η
  tag_lt_addr : ∀ h, kCancelTag < addr h
  handlerAt_addr : ∀ h, handlerAt (addr h) = some h

/-- A request, as an SQE or in the kernel. -/
inductive Request (η : Type)
  /-- the read of the pool's `eventfd_` -/
  | readWork
  /-- the read of `notify_fd_` -/
  | readNotify
  /-- a linked timeout -/
  | timeout
  | cancel (target : ℕ)
  /-- a cancel that has found its request and has yet to be answered -/
  | cancelled
  | oneShot (h : η)
  | sendZc (h : η)
  /-- a zero-copy send that has yet to release its buffer -/
  | zcNotif (h : η)
  /-- a multishot request; `ending` tells that a cancel has found it -/
  | multishot (h : η) (ending : Bool)
  deriving DecidableEq

structure Cqe where
  userData : ℕ
  res : ℤ
  /-- `IORING_CQE_F_MORE` -/
  more : Bool
  deriving DecidableEq

/-- The branches of the loop body. -/
inductive Branch (η : Type)
  | work
  | notify
  | cancel
  /-- `complete` of this handler -/
  | handler (h : η)
  deriving DecidableEq

variable {η : Type}

/-- The branch that is taken for a tag.  There is none if no handler lives at
the address. -/
def Layout.branch (L : Layout η) (tag : ℕ) : Option (Branch η) :=
  if tag = kWorkTag then some .work
  else if tag = kNotifyTag then some .notify
  else if tag = kCancelTag then some .cancel
  else (L.handlerAt tag).map .handler

/-- Whether `complete` arms the request again. -/
def Layout.rearms (L : Layout η) (h : η) (c : Cqe) : Bool :=
  match L.kind h with
  | .promise => false
  | .acceptor => Acceptor.rearms c.res c.more
  | .recv => Recv.Stream.rearms ⟨c.res, none, c.more⟩

/-- The `user_data` of the last CQE of a request, if nothing else is needed for
the kernel to post it. -/
def Layout.lastTag (L : Layout η) : Request η → Option ℕ
  | .timeout | .cancel _ | .cancelled => some kCancelTag
  | .oneShot h | .sendZc h | .zcNotif h | .multishot h true => some (L.addr h)
  | .readWork | .readNotify | .multishot _ false => none

/-! ## States -/

/-- The worker in `drain_cqes`.  `workFd` and `notifyFd` are the units in the
two eventfds, `workQueue` the number of queued tasks and `remaining` the number
of events still to come for a multishot request.  `launched`, `arrived` and
`dispatched` record the fibers launched, all CQEs in ring order, and those
taken off the ring with the branch they went to. -/
structure State (η : Type) where
  sq : List (Request η)
  kernel : List (Request η)
  cq : List Cqe
  cancelQueue : List ℕ
  workFd : ℕ
  notifyFd : ℕ
  workQueue : ℕ
  remaining : η → ℕ
  /-- the call has returned -/
  returned : Bool
  /-- an SQE that was not there was written to, or a dead handler called -/
  crashed : Bool
  launched : ℕ
  arrived : List Cqe
  dispatched : List (Cqe × Branch η)

/-- The atomic steps. -/
inductive Event
  /-- one turn of the loop.  `launch` and `rearm` are what the work branch reads
  from `running_`, and `taken` is how many SQEs a submit hands over -/
  | turn (launch rearm : Bool) (taken : ℕ)
  /-- the loop finds the ring empty -/
  | ret
  /-- the kernel answers the read of an eventfd -/
  | readWork (i : ℕ)
  | readNotify (i : ℕ)
  /-- the kernel posts the last CQE of a request -/
  | finish (i : ℕ) (res : ℤ)
  /-- the kernel posts the first of two CQEs of a zero-copy send -/
  | sent (i : ℕ) (res : ℤ)
  /-- the kernel posts an event of a multishot request, and keeps the request
  if `more` -/
  | post (i : ℕ) (res : ℤ) (more : Bool)
  /-- a cancel finds a multishot request.  One that finds another request, or
  none, needs no step of its own: all that follows are their last CQEs -/
  | hit (i j : ℕ)
  /-- another worker reads a unit of the pool's eventfd and takes a task -/
  | elsewhere
  deriving DecidableEq

/-! ## The loop body -/

/-- `io_uring_submit`. -/
def State.submit (s : State η) (taken : ℕ) : State η :=
  { s with
    sq := s.sq.drop taken
    kernel := s.kernel ++ s.sq.take taken }

/-- `arm_work_efd` and `arm_notify`. -/
def State.arm (s : State η) (r : Request η) (taken : ℕ) : State η :=
  if s.sq.length < kRingEntries then
    { s with sq := s.sq ++ [r] }.submit taken
  else { s with crashed := true }

/-- The re-arm in `complete`. -/
def State.tryArm (s : State η) (r : Request η) (taken : ℕ) : State η :=
  if s.sq.length < kRingEntries then
    { s with sq := s.sq ++ [r] }.submit taken
  else s

def State.flushCancelQueue (s : State η) : State η :=
  let flushed := flush kRingEntries .cancel s.cancelQueue s.sq
  { s with
    cancelQueue := flushed.1
    sq := flushed.2 }

/-- The work branch up to the re-arm: a queued task is launched. -/
def State.launchFiber (s : State η) (res : ℤ) (launch : Bool) : State η :=
  if 0 ≤ res ∧ launch = true ∧ s.workQueue ≠ 0 then
    { s with
      workQueue := s.workQueue - 1
      launched := s.launched + 1 }
  else s

/-- A branch of the loop body. -/
def State.execute (L : Layout η) (s : State η) (c : Cqe) (launch rearm : Bool)
    (taken : ℕ) : Branch η → State η
  | .work =>
      let s := s.launchFiber c.res launch
      if rearm = true then s.arm .readWork taken else s
  | .notify => s.flushCancelQueue.arm .readNotify taken
  | .cancel => s
  | .handler h =>
      if L.rearms h c = true then s.tryArm (.multishot h false) taken else s

/-- `io_uring_cqe_seen`: the first CQE leaves the ring for a branch. -/
def State.seen (s : State η) (c : Cqe) (b : Branch η) : State η :=
  { s with
    cq := s.cq.tail
    dispatched := s.dispatched ++ [(c, b)] }

/-- One turn of the loop. -/
def turn (L : Layout η) (s : State η) (launch rearm : Bool) (taken : ℕ) :
    State η :=
  match s.cq with
  | [] => s
  | c :: _ =>
      match L.branch c.userData with
      | some b => (s.seen c b).execute L c launch rearm taken b
      | none => { s with crashed := true }

/-! ## The system -/

/-- The kernel adds a CQE to the ring. -/
def State.addCqe (s : State η) (c : Cqe) : State η :=
  { s with cq := s.cq ++ [c], arrived := s.arrived ++ [c] }

/-- When a step may be taken. -/
def enabled (L : Layout η) (s : State η) : Event → Prop
  | .turn _ _ _ => s.cq ≠ []
  | .ret => s.cq = []
  | .readWork i => s.kernel[i]? = some .readWork ∧ 0 < s.workFd
  | .readNotify i => s.kernel[i]? = some .readNotify ∧ 0 < s.notifyFd
  | .finish i _ => ∃ r tag, s.kernel[i]? = some r ∧ L.lastTag r = some tag
  | .sent i _ => ∃ h, s.kernel[i]? = some (.sendZc h)
  | .post i _ _ =>
      ∃ h, s.kernel[i]? = some (.multishot h false) ∧ 0 < s.remaining h
  | .hit i j =>
      ∃ h, s.kernel[i]? = some (.cancel (L.addr h)) ∧
        s.kernel[j]? = some (.multishot h false)
  | .elsewhere => 0 < s.workFd

variable [DecidableEq η]

/-- What a step does. -/
def effect (L : Layout η) (s : State η) : Event → State η
  | .turn launch rearm taken => turn L s launch rearm taken
  | .ret => { s with returned := true }
  | .readWork i =>
      { s with
        kernel := s.kernel.eraseIdx i
        workFd := s.workFd - 1 }.addCqe ⟨kWorkTag, 8, false⟩
  | .readNotify i =>
      { s with
        kernel := s.kernel.eraseIdx i
        notifyFd := s.notifyFd - 1 }.addCqe ⟨kNotifyTag, 8, false⟩
  | .finish i res =>
      match (s.kernel[i]?).bind L.lastTag with
      | some tag =>
          { s with kernel := s.kernel.eraseIdx i }.addCqe ⟨tag, res, false⟩
      | none => s
  | .sent i res =>
      match s.kernel[i]? with
      | some (.sendZc h) =>
          { s with kernel := s.kernel.set i (.zcNotif h) }.addCqe
            ⟨L.addr h, res, true⟩
      | _ => s
  | .post i res more =>
      match s.kernel[i]? with
      | some (.multishot h false) =>
          { s with
            kernel := if more = true then s.kernel else s.kernel.eraseIdx i
            remaining := Function.update s.remaining h (s.remaining h - 1)
          }.addCqe ⟨L.addr h, res, more⟩
      | _ => s
  | .hit i j =>
      match s.kernel[j]? with
      | some (.multishot h false) =>
          { s with
            kernel := (s.kernel.set i .cancelled).set j (.multishot h true) }
      | _ => s
  | .elsewhere =>
      { s with
        workFd := s.workFd - 1
        workQueue := s.workQueue - 1 }

/-- The call begins: every CQE in the ring has a tag or the address of a
handler. -/
structure Begins (L : Layout η) (s : State η) : Prop where
  returned : s.returned = false
  crashed : s.crashed = false
  arrived : s.arrived = s.cq
  dispatched : s.dispatched = []
  addressed : ∀ c ∈ s.cq, L.branch c.userData ≠ none

/-- The call that begins in `start`, as a system of atomic steps. -/
def machine (L : Layout η) (start : State η) : Machine (State η) Event where
  init := fun s => s = start
  enabled := fun s e =>
    s.returned = false ∧ s.crashed = false ∧ enabled L s e
  effect := effect L

end Fiberexec.Ring.DrainLoop
