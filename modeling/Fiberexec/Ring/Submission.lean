import Fiberexec.Multishot.RecvConstruct
import Fiberexec.Ring.Model
import Fiberexec.Support.SubmissionCode

/-!
# All code that submits

`io_uring_get_sqe` is called in many places, most of which do not check what it
returns.  This file has them all: the asynchronous operations, the constructors
and destructors of the multishot objects, `submit_cancel`, the constructor of
the scheduler and the turns of `drain_cqes`.

The worker's thread switches between fibers only where a fiber waits for a
future, and `drain_cqes` runs only in between.  What is executed from one such
point to the next is one step, and is given as `Code`.  A wait counts as such a
point also when the future is ready.  A function that waits ends with the
`Frame` that tells how it goes on.

Of an SQE only its kind is kept.  The memory for promises and queues is taken to
be there.
-/

namespace Fiberexec.Ring.Submission

open Support Multishot

/-! ## Submission entries and frames -/

/-- An SQE, by what it asks for. -/
inductive Sqe
  | read
  | write
  | accept
  | openat
  | close
  | connect
  | recv
  | send
  | fsync
  | sendZc
  | timeout (ts : Timespec)
  | linkTimeout (ts : Timespec)
  | multishotAccept
  | recvMultishot
  | cancel (target : ℕ)
  /-- the read of the pool's `eventfd_` -/
  | readWork
  /-- the read of `notify_fd_` -/
  | readNotify
  deriving DecidableEq

/-- The operations that submit a linked pair. -/
inductive Linked
  | sendRecv
  | writeFsync
  deriving DecidableEq

/-- What the errors of the two requests are reported with. -/
def Linked.whats : Linked → List String
  | .sendRecv => ["async_send_recv (send)", "async_send_recv (recv)"]
  | .writeFsync => ["async_write_fsync (write)", "async_write_fsync (fsync)"]

/-- What the operation returns. -/
def Linked.values : Linked → List ℤ → List ℤ
  | .sendRecv, out => out
  | .writeFsync, out => out.take 1

/-- Where a suspended fiber waits.  The multishot objects have names in `κ`. -/
inductive Frame (κ : Type)
  /-- the operation `what` waits for its result, and returns it unless it is
  `void` -/
  | result (what : String) (void : Bool)
  /-- `async_sleep_for` -/
  | sleep
  /-- a linked pair, with the results read so far -/
  | linked (op : Linked) (out : List ℤ)
  /-- `multishot_acceptor::next` -/
  | acceptorNext (i : κ)
  /-- `multishot_recv::next` -/
  | recvNext (i : κ)
  /-- `~multishot_acceptor` closes the front of `pending_fds_` -/
  | closePending (i : κ)
  /-- `~multishot_acceptor` closes what `next` has returned -/
  | closeDrained (i : κ)
  /-- `~multishot_acceptor` is in `next` -/
  | drainAcceptor (i : κ)
  /-- `~multishot_recv` is in `next` -/
  | drainRecv (i : κ)
  deriving DecidableEq

/-- Where a step stops, unless it throws. -/
inductive Stop (κ : Type)
  | suspended (frame : Frame κ)
  | returned (values : List ℤ)
  /-- `drain_cqes` goes on to its next CQE -/
  | turned
  deriving DecidableEq

/-- What a function finds in its thread and its fiber: whether there is a ring,
and whether the fiber's stop was requested. -/
structure Site where
  ring : Bool
  stop : Bool
  deriving DecidableEq

/-- Code that submits. -/
abbrev Prog (β : Type) : Type :=
  Code Sqe Error β

variable {κ : Type}

/-! ## `async_helpers.hpp` and `fiber_context.cpp` -/

def beginAsyncOp (site : Site) (caller : String) : Prog Unit :=
  if site.ring = false then
    .raise (.runtimeError (caller ++ " called outside of a fiberexec fiber"))
  else if site.stop = true then .raise (.systemError ecanceled caller)
  else pure ()

/-- `submit_and_wait` up to its wait. -/
def submitAndWait (frame : Frame κ) : Prog (Stop κ) := do
  let ret ← Code.submitAll
  if ret < 0 then .raise (.systemError (-ret) "io_uring_submit")
  else pure (.suspended frame)

/-- `submit_and_wait_with_timeout` up to its wait. -/
def submitAndWaitWithTimeout (timeout : ℤ) (frame : Frame κ) :
    Prog (Stop κ) := do
  if ← Code.tryGet (.linkTimeout (timespec timeout)) then
    let ret ← Code.submitAll
    if ret < 0 then .raise (.systemError (-ret) "io_uring_submit")
    else pure (.suspended frame)
  else
    .raise (.runtimeError "submit_and_wait_with_timeout: io_uring ring full")

def dispatch (timeout : Option ℤ) (frame : Frame κ) : Prog (Stop κ) :=
  match timeout with
  | some timeout => submitAndWaitWithTimeout timeout frame
  | none => submitAndWait frame

/-- `submit_linked_and_wait` up to its first wait, for a chain of `n` SQEs. -/
def submitLinkedAndWait (n outSize : ℕ) (frame : Frame κ) : Prog (Stop κ) :=
  if n = 0 ∨ kMaxLinkedOps < n ∨ n ≠ outSize then
    .raise (.invalidArgument
      "submit_linked_and_wait: chain length must be in [1, k_max_linked_ops]")
  else do
    let ret ← Code.submitAll
    if ret < 0 then
      .raise (.systemError (-ret) "io_uring_submit (linked chain)")
    else pure (.suspended frame)

/-- Take an SQE and submit it, and throw when there is none or the submit
fails. -/
def submitSqe (sqe : Sqe) (full failed : String) : Prog Unit := do
  if ← Code.tryGet sqe then
    let ret ← Code.submitAll
    if ret < 0 then .raise (.systemError (-ret) failed) else pure ()
  else .raise (.runtimeError full)

/-- The three ways on from an SQE that is taken with a check and submitted. -/
theorem submitSqe_ending
    {β : Type} (sqe : Sqe) (full failed : String) (c : Unit → Prog β)
    (ret : ℕ → ℤ) (q : List Sqe) :
    ((submitSqe sqe full failed >>= c).run kRingEntries ret q).ending =
      if q.length < kRingEntries then
        if ret 0 < 0 then .threw (.systemError (-ret 0) failed)
        else ((c ()).run kRingEntries (fun n => ret (n + 1)) []).ending
      else .threw (.runtimeError full) := by
  change (Code.run kRingEntries (.get sqe fun got => _) ret q).ending = _
  rw [Code.run]
  split
  · change (Code.run kRingEntries (.submit fun r => _) ret _).ending = _
    rw [Code.run]
    split
    next hfail =>
      simp only [Code.bind, hfail, if_true]
      rfl
    next hok =>
      simp only [Code.bind, hok, if_false]
      rfl
  · rfl

/-- Take an SQE and submit it, and give up silently when there is none.  The
result tells whether there was one. -/
def trySubmitSqe (sqe : Sqe) : Prog Bool := do
  if ← Code.tryGet sqe then
    let _ ← Code.submitAll
    pure true
  else pure false

/-- `submit_cancel`.  The result tells whether it dropped its request for want
of an SQE. -/
def submitCancel (site : Site) (handler : ℕ) : Prog Bool :=
  if site.ring = false then pure false
  else do
    let submitted ← trySubmitSqe (.cancel handler)
    pure (!submitted)

/-! ## `async_io.cpp` and `async_send_zc` -/

/-- An operation with one SQE and an optional timeout. -/
def oneShot (what : String) (sqe : Sqe) (void : Bool) (site : Site)
    (timeout : Option ℤ) : Prog (Stop κ) := do
  beginAsyncOp site what
  Code.getUnchecked sqe
  dispatch timeout (.result what void)

def asyncRead : Site → Option ℤ → Prog (Stop κ) :=
  oneShot "async_read" .read false

def asyncWrite : Site → Option ℤ → Prog (Stop κ) :=
  oneShot "async_write" .write false

def asyncAccept : Site → Option ℤ → Prog (Stop κ) :=
  oneShot "async_accept" .accept false

def asyncOpenat : Site → Option ℤ → Prog (Stop κ) :=
  oneShot "async_openat" .openat false

def asyncConnect : Site → Option ℤ → Prog (Stop κ) :=
  oneShot "async_connect" .connect true

def asyncRecv : Site → Option ℤ → Prog (Stop κ) :=
  oneShot "async_recv" .recv false

def asyncSend : Site → Option ℤ → Prog (Stop κ) :=
  oneShot "async_send" .send false

/-- `async_close`, which does not look at the stop token.  `frame` tells who
waits for it. -/
def asyncClose (site : Site) (frame : Frame κ) : Prog (Stop κ) :=
  if site.ring = false then
    .raise (.runtimeError "async_close called outside of a fiberexec fiber")
  else do
    Code.getUnchecked .close
    submitAndWait frame

/-- The linked operations: both SQEs are taken without a check. -/
def linkedPair (what : String) (first second : Sqe) (op : Linked)
    (site : Site) : Prog (Stop κ) := do
  beginAsyncOp site what
  Code.getUnchecked first
  Code.getUnchecked second
  submitLinkedAndWait 2 2 (.linked op [])

def asyncSendRecv : Site → Prog (Stop κ) :=
  linkedPair "async_send_recv" .send .recv .sendRecv

def asyncWriteFsync : Site → Prog (Stop κ) :=
  linkedPair "async_write_fsync" .write .fsync .writeFsync

def asyncSleepFor (site : Site) (duration : ℤ) : Prog (Stop κ) := do
  beginAsyncOp site "async_sleep_for"
  if duration ≤ 0 then pure (.returned [])
  else
    Code.getUnchecked (.timeout (timespec duration))
    submitAndWait .sleep

def asyncSendZc (site : Site) : Prog (Stop κ) :=
  if site.ring = false then
    .raise (.runtimeError "async_send_zc called outside of a fiberexec fiber")
  else do
    submitSqe .sendZc "async_send_zc: io_uring ring full"
      "io_uring_submit (async_send_zc)"
    pure (.suspended (.result "async_send_zc" false))

/-- The error of the first request of a linked pair that failed. -/
def firstError : List String → List ℤ → Option Error
  | what :: whats, res :: out =>
      if res < 0 then some (.systemError (-res) what) else firstError whats out
  | _, _ => none

/-- A linked pair has read all its results. -/
def Linked.finish (op : Linked) (out : List ℤ) : Prog (Stop κ) :=
  match firstError op.whats out with
  | some e => .raise e
  | none => pure (.returned (op.values out))

/-! ## The multishot objects -/

/-- What the code of a worker changes besides the ring.  `gaveUp` records that
`submit_cancel` or a re-arm went without an SQE. -/
structure World (κ : Type) where
  /-- `cancel_queue_` -/
  cancelQueue : List ℕ
  acceptor : κ → Acceptor.Object
  recv : κ → Recv.Object
  gaveUp : Bool

section Objects

variable [DecidableEq κ]

def World.setAcceptor (w : World κ) (i : κ) (a : Acceptor.Object) : World κ :=
  { w with acceptor := Function.update w.acceptor i a }

def World.setRecv (w : World κ) (i : κ) (a : Recv.Object) : World κ :=
  { w with recv := Function.update w.recv i a }

/-- The constructor of `multishot_acceptor`. -/
def multishotAcceptor (w : World κ) (site : Site) (i : κ) :
    Prog (World κ × Stop κ) :=
  if site.ring = false then
    .raise (.runtimeError
      "multishot_acceptor constructed outside of a fiberexec fiber")
  else do
    submitSqe .multishotAccept "multishot_acceptor: io_uring ring full"
      "io_uring_submit (multishot_accept)"
    pure (w.setAcceptor i Acceptor.initial.object, .returned [])

/-- The constructor of `multishot_recv`: `Recv.construct`, with the ring in
place of its last two answers. -/
def multishotRecv (w : World κ) (site : Site) (i : κ) (thread : Recv.Thread)
    (answers : Recv.Answers) (bufSize bufCount : ℕ) :
    Prog (World κ × Stop κ) :=
  match (Recv.construct thread
    { answers with onWorker := site.ring, gotSqe := true, submitted := 0 }
    bufSize bufCount).2 with
  | .error e => .raise e
  | .ok b => do
      submitSqe .recvMultishot "multishot_recv: io_uring ring full"
        "io_uring_submit (multishot_recv)"
      pure (w.setRecv i (Recv.initial b.bufCount).object, .returned [])

/-- The constructor throws on the ring what `Recv.construct` throws when its
last two answers are those of the ring. -/
theorem multishotRecv_threw_iff
    {w : World κ} {site : Site} {i : κ} {thread : Recv.Thread}
    {answers : Recv.Answers} {bufSize bufCount : ℕ} {ret : ℕ → ℤ}
    {q : List Sqe} {e : Error} :
    ((multishotRecv w site i thread answers bufSize bufCount).run kRingEntries
        ret q).ending = .threw e ↔
      (Recv.construct thread
        { answers with
          onWorker := site.ring
          gotSqe := decide (q.length < kRingEntries)
          submitted := ret 0 }
        bufSize bufCount).2 = .error e := by
  have hlast := Recv.construct_snd_eq thread
    { answers with
      onWorker := site.ring
      gotSqe := decide (q.length < kRingEntries)
      submitted := ret 0 }
    bufSize bufCount
  rw [multishotRecv, hlast]
  generalize (Recv.construct thread _ bufSize bufCount).2 = r
  cases r with
  | error e' => simp [Code.run]
  | ok b =>
      simp only [submitSqe_ending, decide_eq_false_iff_not, ite_not]
      split
      · split <;> simp [Code.run, pure]
      · simp

/-- What `multishot_acceptor::next` makes of where its object leads it. -/
def ofAcceptorNext (w : World κ) (i : κ) :
    Acceptor.Next → Prog (World κ × Stop κ)
  | .value fd => pure (w, .returned [fd])
  | .nullopt => pure (w, .returned [])
  | .throws error =>
      .raise (.systemError (-error) "multishot_acceptor::next")
  | .suspended => pure (w, .suspended (.acceptorNext i))

/-- What `multishot_recv::next` makes of where its object leads it. -/
def ofRecvNext (w : World κ) (i : κ) : Recv.Next → Prog (World κ × Stop κ)
  | .value item => pure (w, .returned [item.bufId, item.size])
  | .nullopt => pure (w, .returned [])
  | .throws error => .raise (.systemError (-error) "multishot_recv::next")
  | .suspended => pure (w, .suspended (.recvNext i))

/-- An `async_close` in the `try` block of `~multishot_acceptor`. -/
def closeInDestructor (w : World κ) (site : Site) (frame : Frame κ) :
    Prog (World κ × Stop κ) := do
  let stop ← (asyncClose site frame).catchAll (pure (.returned []))
  pure (w, stop)

/-- The first loop of `~multishot_acceptor`, at its head. -/
def closePending (w : World κ) (site : Site) (i : κ) :
    Prog (World κ × Stop κ) :=
  match (w.acceptor i).pendingFds with
  | [] => pure (w, .returned [])
  | _ :: _ => closeInDestructor w site (.closePending i)

/-- The second loop of `~multishot_acceptor`, given where `next` leads. -/
def drainAcceptor (w : World κ) (site : Site) (i : κ) :
    Acceptor.Next → Prog (World κ × Stop κ)
  | .value _ => closeInDestructor w site (.closeDrained i)
  | .suspended => pure (w, .suspended (.drainAcceptor i))
  | .nullopt | .throws _ => pure (w, .returned [])

/-- The second loop of `~multishot_acceptor`, at its head. -/
def drainAcceptorNext (w : World κ) (site : Site) (i : κ) :
    Prog (World κ × Stop κ) :=
  let r := (w.acceptor i).next site.stop
  drainAcceptor (w.setAcceptor i r.1) site i r.2

/-- `~multishot_acceptor` up to its first wait. -/
def destroyAcceptor (w : World κ) (site : Site) (i : κ) :
    Prog (World κ × Stop κ) :=
  if (w.acceptor i).error ≠ 0 then closePending w site i
  else drainAcceptorNext w site i

/-- `~multishot_recv` leaves its loop and frees the buffer ring. -/
def freeRecv (w : World κ) (i : κ) : World κ × Stop κ :=
  (w.setRecv i { w.recv i with bufRing := none }, .returned [])

/-- The loop of `~multishot_recv`, at its head.  It first takes the messages
that are there and returns their buffers. -/
def drainRecv (w : World κ) (site : Site) (i : κ) : World κ × Stop κ :=
  let r := (w.recv i).returnPending.next site.stop
  let w := w.setRecv i r.1
  match r.2 with
  | .suspended => (w, .suspended (.drainRecv i))
  | _ => freeRecv w i

/-- `~multishot_recv` up to its first wait.  `handler` is the address that is
cancelled. -/
def destroyRecv (w : World κ) (site : Site) (i : κ) (handler : ℕ) :
    Prog (World κ × Stop κ) :=
  let w := w.setRecv i (w.recv i).returnPending
  if (w.recv i).error = 0 then do
    let dropped ← submitCancel site handler
    pure (drainRecv { w with gaveUp := w.gaveUp || dropped } site i)
  else pure (freeRecv w i)

/-- A suspended fiber goes on.  `res` is the value of the future it waits
for. -/
def resume (w : World κ) (site : Site) (res : ℤ) :
    Frame κ → Prog (World κ × Stop κ)
  | .result what void =>
      if res < 0 then .raise (.systemError (-res) what)
      else pure (w, .returned (if void = true then [] else [res]))
  | .sleep =>
      if res ≠ -etime then .raise (.systemError (-res) "async_sleep_for")
      else pure (w, .returned [])
  | .linked op out =>
      if out.length + 1 < op.whats.length then
        pure (w, .suspended (.linked op (out ++ [res])))
      else do
        let stop ← op.finish (out ++ [res])
        pure (w, stop)
  | .acceptorNext i => ofAcceptorNext w i (Acceptor.afterWait res)
  | .recvNext i =>
      let r := (w.recv i).afterWait
      ofRecvNext (w.setRecv i r.1) i r.2
  | .closePending i =>
      if res < 0 then pure (w, .returned [])
      else
        let a := w.acceptor i
        closePending
          (w.setAcceptor i { a with pendingFds := a.pendingFds.tail }) site i
  | .closeDrained i =>
      if res < 0 then pure (w, .returned []) else drainAcceptorNext w site i
  | .drainAcceptor i => drainAcceptor w site i (Acceptor.afterWait res)
  | .drainRecv i =>
      let r := (w.recv i).afterWait
      let w := w.setRecv i r.1
      match r.2 with
      | .value item =>
          pure (drainRecv (w.setRecv i (r.1.returnBuffer item.bufId)) site i)
      | _ => pure (freeRecv w i)

end Objects

/-! ## The scheduler -/

def armWorkEfd : Prog Unit := do
  Code.getUnchecked .readWork
  let _ ← Code.submitAll
  pure ()

def armNotify : Prog Unit := do
  Code.getUnchecked .readNotify
  let _ ← Code.submitAll
  pure ()

/-- `flush_cancel_queue`, with what stays in the queue. -/
def flushCancelQueue : List ℕ → Prog (List ℕ)
  | [] => pure []
  | target :: queue => do
      if ← Code.tryGet (.cancel target) then flushCancelQueue queue
      else pure (target :: queue)

theorem run_flushCancelQueue (queue : List ℕ) (ret : ℕ → ℤ) (q : List Sqe) :
    ((flushCancelQueue queue).run kRingEntries ret q).queue =
        (flush kRingEntries .cancel queue q).2 ∧
      ((flushCancelQueue queue).run kRingEntries ret q).ending =
        .returned (flush kRingEntries .cancel queue q).1 := by
  induction queue generalizing q with
  | nil => exact ⟨rfl, rfl⟩
  | cons target queue ih =>
      rw [flushCancelQueue, flush]
      change (Code.run _ (.get _ fun got => _) ret q).queue = _ ∧
        (Code.run _ (.get _ fun got => _) ret q).ending = _
      rw [Code.run]
      split
      · exact ih _
      · exact ⟨rfl, rfl⟩

/-- The end of the constructor of `io_uring_scheduler`. -/
def construct (w : World κ) : Prog (World κ × Stop κ) := do
  armWorkEfd
  armNotify
  pure (w, .returned [])

/-- Whom the tag of a CQE names. -/
inductive Target (κ : Type)
  | work
  | notify
  | cancel
  /-- an `io_awaitable` or a `send_zc_handler` -/
  | promise
  | acceptor (i : κ)
  | recv (i : κ)
  deriving DecidableEq

/-- A CQE; `buffer` is there if `IORING_CQE_F_BUFFER` is set. -/
structure Cqe (κ : Type) where
  target : Target κ
  res : ℤ
  more : Bool
  buffer : Option ℕ
  deriving DecidableEq

/-- Arm a multishot request again, if this is so. -/
def rearmIf (rearms : Bool) (sqe : Sqe) (w : World κ) :
    Prog (World κ × Stop κ) := do
  if rearms = true then
    let submitted ← trySubmitSqe sqe
    pure ({ w with gaveUp := w.gaveUp || !submitted }, .turned)
  else pure (w, .turned)

/-- One turn of `drain_cqes`.  `running` is what it reads from `running_`.  The
handlers that only fulfil a promise, and the launch of a fiber, do not touch
the ring. -/
def turn [DecidableEq κ] (w : World κ) (c : Cqe κ) (running : Bool) :
    Prog (World κ × Stop κ) :=
  match c.target with
  | .work => do
      if running = true then armWorkEfd
      pure (w, .turned)
  | .notify => do
      let rest ← flushCancelQueue w.cancelQueue
      armNotify
      pure ({ w with cancelQueue := rest }, .turned)
  | .cancel | .promise => pure (w, .turned)
  | .acceptor i =>
      rearmIf (Acceptor.rearms c.res c.more) .multishotAccept
        (w.setAcceptor i ((w.acceptor i).complete c.res))
  | .recv i =>
      rearmIf (Recv.Stream.rearms ⟨c.res, c.buffer, c.more⟩) .recvMultishot
        (w.setRecv i
          (Recv.Stream.complete (w.recv i) ⟨c.res, c.buffer, c.more⟩))

/-! ## The system -/

/-- What a fiber calls. -/
inductive Call (κ : Type)
  | asyncRead (timeout : Option ℤ)
  | asyncWrite (timeout : Option ℤ)
  | asyncAccept (timeout : Option ℤ)
  | asyncOpenat (timeout : Option ℤ)
  | asyncConnect (timeout : Option ℤ)
  | asyncRecv (timeout : Option ℤ)
  | asyncSend (timeout : Option ℤ)
  | asyncClose
  | asyncSendRecv
  | asyncWriteFsync
  | asyncSleepFor (duration : ℤ)
  | asyncSendZc
  | submitCancel (handler : ℕ)
  | multishotAcceptor (i : κ)
  | multishotRecv (i : κ) (thread : Recv.Thread) (answers : Recv.Answers)
      (bufSize bufCount : ℕ)
  | acceptorNext (i : κ)
  | recvNext (i : κ)
  | destroyAcceptor (i : κ)
  | destroyRecv (i : κ) (handler : ℕ)
  deriving DecidableEq

/-- A call that does not touch an object. -/
def plain (w : World κ) (c : Prog (Stop κ)) : Prog (World κ × Stop κ) := do
  let stop ← c
  pure (w, stop)

/-- The code of a call up to its first wait. -/
def Call.code [DecidableEq κ] (w : World κ) (site : Site) :
    Call κ → Prog (World κ × Stop κ)
  | .asyncRead timeout => plain w (Submission.asyncRead site timeout)
  | .asyncWrite timeout => plain w (Submission.asyncWrite site timeout)
  | .asyncAccept timeout => plain w (Submission.asyncAccept site timeout)
  | .asyncOpenat timeout => plain w (Submission.asyncOpenat site timeout)
  | .asyncConnect timeout => plain w (Submission.asyncConnect site timeout)
  | .asyncRecv timeout => plain w (Submission.asyncRecv site timeout)
  | .asyncSend timeout => plain w (Submission.asyncSend site timeout)
  | .asyncClose =>
      plain w (Submission.asyncClose site (.result "async_close" true))
  | .asyncSendRecv => plain w (Submission.asyncSendRecv site)
  | .asyncWriteFsync => plain w (Submission.asyncWriteFsync site)
  | .asyncSleepFor duration => plain w (Submission.asyncSleepFor site duration)
  | .asyncSendZc => plain w (Submission.asyncSendZc site)
  | .submitCancel handler => do
      let dropped ← Submission.submitCancel site handler
      pure ({ w with gaveUp := w.gaveUp || dropped }, .returned [])
  | .multishotAcceptor i => Submission.multishotAcceptor w site i
  | .multishotRecv i thread answers bufSize bufCount =>
      Submission.multishotRecv w site i thread answers bufSize bufCount
  | .acceptorNext i =>
      let r := (w.acceptor i).next site.stop
      ofAcceptorNext (w.setAcceptor i r.1) i r.2
  | .recvNext i =>
      let r := (w.recv i).next site.stop
      ofRecvNext (w.setRecv i r.1) i r.2
  | .destroyAcceptor i => Submission.destroyAcceptor w site i
  | .destroyRecv i handler => Submission.destroyRecv w site i handler

/-- The worker.  Fibers have names in `ι`.  `refused`, `crashed` and `thrown`
record that an `io_uring_get_sqe` returned null, that such a pointer was written
through, and the exceptions that left an operation. -/
structure State (ι κ : Type) where
  /-- the constructor of the scheduler has returned -/
  started : Bool
  sq : List Sqe
  world : World κ
  suspended : ι → Option (Frame κ)
  refused : Bool
  crashed : Bool
  thrown : List Error

/-- The atomic steps.  `ret` is what the `io_uring_submit`s in a step return. -/
inductive Event (ι κ : Type)
  /-- the scheduler is constructed -/
  | start (ret : ℕ → ℤ)
  /-- a fiber makes a call -/
  | call (f : ι) (c : Call κ) (site : Site) (ret : ℕ → ℤ)
  /-- the future for which a fiber waits has a value -/
  | resume (f : ι) (res : ℤ) (site : Site) (ret : ℕ → ℤ)
  /-- one turn of `drain_cqes` -/
  | turn (c : Cqe κ) (running : Bool) (ret : ℕ → ℤ)
  /-- any thread calls `request_cancel` -/
  | requestCancel (handler : ℕ)

variable {ι : Type} [DecidableEq ι] [DecidableEq κ]

/-- When a step may be taken.  Nothing is assumed of the kernel: any CQE may be
there, and a future may have any value. -/
def enabled (s : State ι κ) : Event ι κ → Prop
  | .start _ => s.started = false
  | .call f _ site _ =>
      s.started = true ∧ s.suspended f = none ∧ site.ring = true
  | .resume f _ site _ =>
      s.started = true ∧ s.suspended f ≠ none ∧ site.ring = true
  | .turn _ _ _ | .requestCancel _ => s.started = true

/-- Where a fiber stands after a step. -/
def Stop.frame : Stop κ → Option (Frame κ)
  | .suspended frame => some frame
  | _ => none

/-- The code of fiber `f`, or of no fiber, has been executed. -/
def State.settle (s : State ι κ) (f : Option ι)
    (o : Code.Outcome Sqe Error (World κ × Stop κ)) : State ι κ :=
  let place (frame : Option (Frame κ)) : ι → Option (Frame κ) :=
    match f with
    | some f => Function.update s.suspended f frame
    | none => s.suspended
  let s := { s with
    started := true
    sq := o.queue
    refused := s.refused || o.refused }
  match o.ending with
  | .returned (w, stop) => { s with world := w, suspended := place stop.frame }
  | .threw e => { s with suspended := place none, thrown := s.thrown ++ [e] }
  | .aborted => { s with crashed := true }

/-- Execute code on the ring. -/
def State.execute (s : State ι κ) (f : Option ι)
    (c : Prog (World κ × Stop κ)) (ret : ℕ → ℤ) : State ι κ :=
  s.settle f (c.run kRingEntries ret s.sq)

/-- What a step does. -/
def effect (s : State ι κ) : Event ι κ → State ι κ
  | .start ret => s.execute none (construct s.world) ret
  | .call f c site ret => s.execute (some f) (c.code s.world site) ret
  | .resume f res site ret =>
      match s.suspended f with
      | some frame =>
          s.execute (some f) (Submission.resume s.world site res frame) ret
      | none => s
  | .turn c running ret =>
      s.execute none (Submission.turn s.world c running) ret
  | .requestCancel handler =>
      { s with
        world := { s.world with
          cancelQueue := s.world.cancelQueue ++ [handler] } }

/-- A worker whose ring has just been set up. -/
def initial : State ι κ where
  started := false
  sq := []
  world :=
    { cancelQueue := []
      acceptor := fun _ => Acceptor.initial.object
      recv := fun _ => (Recv.initial 0).object
      gaveUp := false }
  suspended := fun _ => none
  refused := false
  crashed := false
  thrown := []

/-- The worker as a system of atomic steps. -/
def machine : Machine (State ι κ) (Event ι κ) where
  init := fun s => s = initial
  enabled := fun s e => s.crashed = false ∧ enabled s e
  effect := effect

end Fiberexec.Ring.Submission
