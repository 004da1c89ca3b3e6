import Fiberexec.Ring.Request
import Fiberexec.Support.Lists
import Fiberexec.Support.Machine
import Mathlib.Data.Fintype.Basic

/-!
# The ring of one worker

This is the model of `io_uring_scheduler` on one worker thread: the fibers'
calls of `submit_and_wait`, `submit_and_wait_with_timeout`,
`submit_linked_and_wait` and `async_send_zc`, their stop callbacks,
`request_cancel`, `flush_cancel_queue`, `arm_notify` and `drain_cqes`.

The worker's thread executes one thing at a time.  The kernel, the threads that
request a stop and those that call `notify` interleave with it freely.  What
the thread does between two points at which another party can tell a difference
is one step.  So `flush_cancel_queue` and the `arm_notify` after it are one
step: nobody else touches the submission queue, and a `request_cancel` between
the two is the same as one after both.

A handler is reached by its address alone, which is free for a new handler as
soon as the call that owned it has returned.
-/

namespace Fiberexec.Ring

open Support

/-! ## Names and tags -/

/-- `k_work_tag`. -/
def kWorkTag : ℕ := 0

/-- `k_notify_tag`. -/
def kNotifyTag : ℕ := 1

/-- `k_cancel_tag`. -/
def kCancelTag : ℕ := 2

/-- `k_ring_entries`. -/
def kRingEntries : ℕ := 256

/-- `k_max_linked_ops`. -/
def kMaxLinkedOps : ℕ := 8

/-- The name of a request: the fiber that made it, the number of the call of
that fiber and the position of its SQE in the call. -/
structure Rid (ι : Type*) where
  fiber : ι
  serial : ℕ
  index : ℕ
  deriving DecidableEq

/-! ## What the ring holds -/

/-- What an SQE asks for.  The fiber of a `cancel` is the one whose call asked
for it, which the kernel does not see. -/
inductive Op (ι : Type*)
  | io (r : Rid ι) (addr : ℕ) (zc : Bool)
  /-- `IORING_OP_LINK_TIMEOUT` -/
  | timeout
  /-- `IORING_OP_ASYNC_CANCEL` -/
  | cancel (target : ℕ) (origin : ι)
  | readNotify
  | readWork
  deriving DecidableEq

/-- A request held by the kernel. -/
inductive Entry (ι : Type*)
  | op (o : Op ι)
  /-- a zero-copy send that has yet to release its buffer -/
  | zcNotif (r : Rid ι) (addr : ℕ)
  deriving DecidableEq

/-- A CQE.  `rid` names the request it answers, which `drain_cqes` does not
see. -/
structure Cqe (ι : Type*) where
  userData : ℕ
  signal : Signal
  rid : Option (Rid ι)
  deriving DecidableEq

/-- The CQE of a read, a timeout or a cancel. -/
def Cqe.tagged {ι : Type*} (tag : ℕ) (res : ℤ) : Cqe ι :=
  ⟨tag, ⟨res, false, false⟩, none⟩

/-- A live handler, and the call it belongs to. -/
structure Cell (ι : Type*) where
  fiber : ι
  index : ℕ
  handler : Handler
  deriving DecidableEq

/-! ## Stop callbacks -/

/-- A stop source: the pool's, or one behind the token of a fiber. -/
inductive Source (τ : Type*)
  | pool
  | token (t : τ)
  deriving DecidableEq

/-- The two stop callbacks of a call. -/
inductive Slot
  | pool
  | fiber
  deriving DecidableEq

instance : Fintype Slot where
  elems := {.pool, .fiber}
  complete := by
    intro slot
    cases slot <;> simp

/-- A `std::stop_callback`.  It is run inline by its constructor when the stop
was already requested, and by the requesting thread otherwise. -/
inductive Callback
  | absent
  | registered
  /-- about to push the next of these addresses -/
  | pushing (inline : Bool) (todo : List ℕ)
  /-- pushed an address; about to write the eventfd -/
  | writing (inline : Bool) (todo : List ℕ)
  | executed
  deriving DecidableEq

/-- The loop over `request_cancel` that a callback runs. -/
def Callback.run (inline : Bool) : List ℕ → Callback
  | [] => .executed
  | a :: todo => .pushing inline (a :: todo)

/-- The callback is being run, by its constructor or by another thread. -/
def Callback.isRunning : Callback → Bool
  | .pushing _ _ | .writing _ _ => true
  | _ => false

/-- The callback is being run by its own constructor. -/
def Callback.isInline : Callback → Bool
  | .pushing inline _ | .writing inline _ => inline
  | _ => false

/-- The callback is being run by the thread that requested the stop. -/
def Callback.isRemote : Callback → Bool
  | .pushing inline _ | .writing inline _ => !inline
  | _ => false

/-! ## Calls -/

/-- Which function was called. -/
inductive Form
  /-- `submit_and_wait` -/
  | oneShot
  /-- `submit_and_wait_with_timeout` -/
  | timed
  /-- `submit_linked_and_wait` -/
  | linked
  /-- `async_send_zc` -/
  | sendZc
  deriving DecidableEq

/-- The numbers of SQEs each function accepts. -/
def Form.accepts : Form → ℕ → Bool
  | .linked, n => decide (1 ≤ n ∧ n ≤ kMaxLinkedOps)
  | _, n => decide (n = 1)

/-- Whether the handler is a `send_zc_handler`. -/
def Form.zc : Form → Bool
  | .sendZc => true
  | _ => false

/-- Where a call stands. -/
inductive Phase
  /-- the SQEs are prepared -/
  | prepared
  /-- submitted; about to construct `pool_cb` -/
  | submitted
  /-- about to construct `fiber_cb`, if the fiber has a token -/
  | poolRegistered
  /-- in `future.get()` for the next result -/
  | waiting
  /-- all results read; about to destroy `fiber_cb` -/
  | collected
  /-- about to destroy `pool_cb` and return -/
  | unregistered
  deriving DecidableEq

/-- A call in progress: the addresses of its handlers, in the order of the
SQEs, and the results read so far. -/
structure Call where
  form : Form
  addrs : List ℕ
  phase : Phase
  out : List ℤ
  cb : Slot → Callback

/-- A fiber: how many calls it has made, and the one it is in. -/
structure Fiber where
  serial : ℕ
  call : Option Call

/-- What the worker's thread executes. -/
inductive Thread (ι : Type*)
  /-- between fibers, in the dispatcher or in `drain_cqes` -/
  | dispatching
  | fiber (f : ι)
  /-- `drain_cqes` has taken a notify CQE off the ring -/
  | notified
  deriving DecidableEq

/-- The SQEs of a call, from position `i` on. -/
def sqesFrom {ι : Type*} (f : ι) (serial : ℕ) (zc : Bool) :
    ℕ → List ℕ → List (Op ι)
  | _, [] => []
  | i, a :: addrs =>
      .io ⟨f, serial, i⟩ a zc :: sqesFrom f serial zc (i + 1) addrs

/-- The handlers of a call come to life at their addresses. -/
def allocFrom {ι : Type*} (f : ι) (zc : Bool) :
    ℕ → List ℕ → (ℕ → Option (Cell ι)) → ℕ → Option (Cell ι)
  | _, [], mem => mem
  | i, a :: addrs, mem =>
      allocFrom f zc (i + 1) addrs
        (Function.update mem a (some ⟨f, i, .fresh zc⟩))

/-- The handlers of a call are destroyed. -/
def release {ι : Type*} (mem : ℕ → Option (Cell ι)) (addrs : List ℕ) :
    ℕ → Option (Cell ι) :=
  fun a => if a ∈ addrs then none else mem a

/-! ## States -/

/-- The worker.  `mem` is what lives at an address.  `stopping` tells that
`request_stop` is running its callbacks.  `submitted`, `unwritten`, `result`,
`returned` and `cancelled` record history: all SQEs handed to the kernel, the
number of `request_cancel`s between push and write, the result the kernel
posted for a request, the results of the calls that returned, and the requests
that a cancel has hit, with the fiber it came from. -/
structure State (ι τ : Type*) where
  thread : Thread ι
  fiber : ι → Fiber
  mem : ℕ → Option (Cell ι)
  sq : List (Op ι)
  kernel : List (Entry ι)
  cq : List (Cqe ι)
  cancelQueue : List (ℕ × ι)
  notifyFd : ℕ
  requested : Source τ → Bool
  stopping : Source τ → Bool
  /-- `arm_notify` got no SQE -/
  crashed : Bool
  /-- a CQE was dispatched to an address at which no handler lives -/
  dangling : Bool
  submitted : List (Op ι)
  unwritten : ℕ
  result : Rid ι → Option ℤ
  returned : List (ι × ℕ × List ℤ)
  cancelled : List (Rid ι × ι)

/-- The atomic steps. -/
inductive Event (ι τ : Type*)
  /-- the dispatcher switches to a fiber that is not in a call -/
  | switch (f : ι)
  /-- a fiber that is not in a call suspends or ends -/
  | yield (f : ι)
  /-- a call constructs its handlers and prepares its SQEs -/
  | prepare (f : ι) (form : Form) (addrs : List ℕ)
  /-- `io_uring_submit` -/
  | submit (f : ι)
  /-- `std::stop_callback pool_cb` -/
  | registerPool (f : ι)
  /-- `std::stop_callback fiber_cb`, if the token can be stopped -/
  | registerFiber (f : ι)
  /-- `future.get()` suspends the fiber -/
  | block (f : ι)
  /-- the dispatcher switches to a fiber whose promise is fulfilled -/
  | resume (f : ι)
  /-- `future.get()` returns -/
  | collect (f : ι)
  /-- `~stop_callback` of `fiber_cb` -/
  | unregisterFiber (f : ι)
  /-- `~stop_callback` of `pool_cb`, and the call returns -/
  | ret (f : ι)
  /-- one turn of `drain_cqes`; `rearm` is what it reads from `running_` -/
  | drain (c : Cqe ι) (rearm : Bool)
  /-- `flush_cancel_queue` and `arm_notify` -/
  | processNotify
  /-- the kernel posts the only CQE of a request -/
  | complete (i : ℕ) (r : Rid ι) (addr : ℕ) (zc : Bool) (res : ℤ)
  /-- the kernel posts the first of two CQEs of a zero-copy send -/
  | completeMore (i : ℕ) (r : Rid ι) (addr : ℕ) (res : ℤ)
  /-- the kernel posts the second -/
  | completeNotif (i : ℕ) (r : Rid ι) (addr : ℕ)
  | completeTimeout (i : ℕ) (res : ℤ)
  /-- the notify read ends; `ok` tells whether it took a unit -/
  | readNotify (i : ℕ) (ok : Bool)
  | readWork (i : ℕ) (res : ℤ)
  /-- the kernel executes a cancel and finds this request -/
  | cancelHit (i : ℕ) (target : ℕ) (origin : ι) (j : ℕ) (r : Rid ι) (zc : Bool)
  /-- the kernel executes a cancel and finds nothing -/
  | cancelMiss (i : ℕ) (target : ℕ) (origin : ι)
  /-- `request_stop` sets the stop of a source -/
  | requestStop (src : Source τ)
  /-- `request_stop` runs a registered callback -/
  | invoke (f : ι) (slot : Slot) (src : Source τ)
  /-- `request_stop` has run all callbacks -/
  | finishStop (src : Source τ)
  /-- `request_cancel`: push -/
  | pushCancel (f : ι) (slot : Slot) (inline : Bool) (addr : ℕ) (todo : List ℕ)
  /-- `request_cancel`: write `notify_fd_` -/
  | writeCancel (f : ι) (slot : Slot) (inline : Bool) (todo : List ℕ)
  /-- an unrelated `notify` -/
  | notify

variable {ι τ : Type*} [DecidableEq ι] [DecidableEq τ]

/-! ## When a step may be taken -/

/-- The source that a callback of a fiber listens to. -/
def sourceOf (token : ι → Option τ) (f : ι) : Slot → Option (Source τ)
  | .pool => some .pool
  | .fiber => (token f).map .token

/-- The fiber is in a call for which `P` holds. -/
def State.inCall (s : State ι τ) (f : ι) (P : Call → Prop) : Prop :=
  ∃ c ∈ (s.fiber f).call, P c

/-- The handler of the next result. -/
def State.nextHandler (s : State ι τ) (c : Call) : Option Handler :=
  (c.addrs[c.out.length]?).bind (fun a => (s.mem a).map Cell.handler)

/-- The promise of the next result is fulfilled. -/
def State.ready (s : State ι τ) (c : Call) : Prop :=
  ∃ h ∈ s.nextHandler c, 0 < h.fulfilments

/-- The thread that requested the stop of a source runs none of its
callbacks. -/
def State.quiet (s : State ι τ) (token : ι → Option τ) (src : Source τ) :
    Prop :=
  ∀ f slot, sourceOf token f slot = some src →
    ∀ c ∈ (s.fiber f).call, (c.cb slot).isRemote = false

/-- Whether a kernel entry is a request with this `user_data`. -/
def Entry.isAt {ι : Type*} (target : ℕ) : Entry ι → Bool
  | .op (.io _ addr _) => decide (addr = target)
  | _ => false

/-- When a step may be taken.  New handlers are aligned objects, so that their
addresses are none of the tags, and they overlap no live handler. -/
def enabled (token : ι → Option τ) (s : State ι τ) : Event ι τ → Prop
  | .switch f => s.thread = .dispatching ∧ (s.fiber f).call.isNone = true
  | .yield f => s.thread = .fiber f ∧ (s.fiber f).call.isNone = true
  | .prepare f form addrs =>
      s.thread = .fiber f ∧ (s.fiber f).call.isNone = true ∧
        form.accepts addrs.length = true ∧
        s.sq.length + addrs.length ≤ kRingEntries ∧
        addrs.Nodup ∧ ∀ a ∈ addrs, kCancelTag < a ∧ (s.mem a).isNone = true
  | .submit f => s.thread = .fiber f ∧ s.inCall f (fun c => c.phase = .prepared)
  | .registerPool f =>
      s.thread = .fiber f ∧ s.inCall f (fun c => c.phase = .submitted)
  | .registerFiber f =>
      s.thread = .fiber f ∧ s.inCall f (fun c =>
        c.phase = .poolRegistered ∧ (c.cb .pool).isInline = false)
  | .block f =>
      s.thread = .fiber f ∧ s.inCall f (fun c =>
        c.phase = .waiting ∧ (c.cb .fiber).isInline = false ∧ ¬s.ready c)
  | .resume f =>
      s.thread = .dispatching ∧
        s.inCall f (fun c => c.phase = .waiting ∧ s.ready c)
  | .collect f =>
      s.thread = .fiber f ∧ s.inCall f (fun c =>
        c.phase = .waiting ∧ (c.cb .fiber).isInline = false ∧ s.ready c)
  | .unregisterFiber f =>
      s.thread = .fiber f ∧ s.inCall f (fun c =>
        c.phase = .collected ∧ (c.cb .fiber).isRunning = false)
  | .ret f =>
      s.thread = .fiber f ∧ s.inCall f (fun c =>
        c.phase = .unregistered ∧ (c.cb .pool).isRunning = false)
  | .drain c _ => s.thread = .dispatching ∧ s.cq.head? = some c
  | .processNotify => s.thread = .notified
  | .complete i r addr zc _ => s.kernel[i]? = some (.op (.io r addr zc))
  | .completeMore i r addr _ => s.kernel[i]? = some (.op (.io r addr true))
  | .completeNotif i r addr => s.kernel[i]? = some (.zcNotif r addr)
  | .completeTimeout i _ => s.kernel[i]? = some (.op .timeout)
  | .readNotify i ok =>
      s.kernel[i]? = some (.op .readNotify) ∧ (ok = true → 0 < s.notifyFd)
  | .readWork i _ => s.kernel[i]? = some (.op .readWork)
  | .cancelHit i target origin j r zc =>
      s.kernel[i]? = some (.op (.cancel target origin)) ∧
        s.kernel[j]? = some (.op (.io r target zc))
  | .cancelMiss i target origin =>
      s.kernel[i]? = some (.op (.cancel target origin)) ∧
        ∀ e ∈ s.kernel, e.isAt target = false
  | .requestStop src => s.requested src = false
  | .invoke f slot src =>
      s.inCall f (fun c => c.cb slot = .registered) ∧
        sourceOf token f slot = some src ∧ s.stopping src = true ∧
        s.quiet token src
  | .finishStop src =>
      s.stopping src = true ∧ s.quiet token src ∧
        ∀ f slot, sourceOf token f slot = some src →
          ∀ c ∈ (s.fiber f).call, c.cb slot ≠ .registered
  | .pushCancel f slot inline addr todo =>
      s.inCall f (fun c => c.cb slot = .pushing inline (addr :: todo))
  | .writeCancel f slot inline todo =>
      s.inCall f (fun c => c.cb slot = .writing inline todo)
  | .notify => True

/-! ## What a step does -/

/-- Change the call a fiber is in. -/
def State.mapCall (s : State ι τ) (f : ι) (g : Call → Call) : State ι τ :=
  { s with
    fiber := Function.update s.fiber f
      { s.fiber f with call := (s.fiber f).call.map g } }

/-- Set a callback of a call. -/
def Call.setCb (c : Call) (slot : Slot) (cb : Callback) : Call :=
  { c with cb := Function.update c.cb slot cb }

/-- `io_uring_submit`, which takes all prepared SQEs. -/
def State.submitAll (s : State ι τ) : State ι τ :=
  { s with
    sq := []
    kernel := s.kernel ++ s.sq.map .op
    submitted := s.submitted ++ s.sq }

/-- `arm_work_efd` and `arm_notify`. -/
def State.arm (s : State ι τ) (o : Op ι) : State ι τ :=
  if s.sq.length < kRingEntries then { s with sq := s.sq ++ [o] }.submitAll
  else { s with crashed := true }

/-- The loop of `flush_cancel_queue`, over the queue and the submission
queue. -/
def flushCancelQueue : List (ℕ × ι) → List (Op ι) → List (ℕ × ι) × List (Op ι) :=
  -- ring full; items remain for next wakeup
  flush kRingEntries fun p => .cancel p.1 p.2

/-- A call constructs its handlers and prepares all its SQEs. -/
def startCall (s : State ι τ) (f : ι) (form : Form) (addrs : List ℕ) :
    State ι τ :=
  let serial := (s.fiber f).serial
  { s with
    sq := s.sq ++ sqesFrom f serial form.zc 0 addrs ++
      (if form = .timed then [.timeout] else [])
    mem := allocFrom f form.zc 0 addrs s.mem
    fiber := Function.update s.fiber f
      ⟨serial, some ⟨form, addrs, .prepared, [], fun _ => .absent⟩⟩ }

/-- A call gets its SQEs, one more for the timeout of a timed one. -/
def prepare (s : State ι τ) (f : ι) (form : Form) (addrs : List ℕ) :
    State ι τ :=
  let serial := (s.fiber f).serial
  let sq := s.sq ++ sqesFrom f serial form.zc 0 addrs
  if form = .timed ∧ kRingEntries ≤ sq.length then
    -- no SQE for the timeout: the call throws, its SQE stays prepared
    { s with
      sq := sq
      fiber := Function.update s.fiber f ⟨serial + 1, none⟩ }
  else startCall s f form addrs

/-- A stop callback is constructed. -/
def register (token : ι → Option τ) (s : State ι τ) (f : ι) (slot : Slot)
    (c : Call) : Call :=
  match sourceOf token f slot with
  | none => c
  | some src =>
      c.setCb slot
        (if s.requested src = true then Callback.run true c.addrs
          else .registered)

/-- `future.get()` returns the next result. -/
def collect (s : State ι τ) (c : Call) : Call :=
  { c with
    out := c.out ++ [((s.nextHandler c).map Handler.value).getD 0]
    phase :=
      if c.out.length + 1 < c.addrs.length then .waiting else .collected }

/-- The call of a fiber returns. -/
def ret (s : State ι τ) (f : ι) : State ι τ :=
  match (s.fiber f).call with
  | none => s
  | some c =>
      { s with
        fiber := Function.update s.fiber f ⟨(s.fiber f).serial + 1, none⟩
        mem := release s.mem c.addrs
        returned := s.returned ++ [(f, (s.fiber f).serial, c.out)] }

/-- `drain_cqes` calls `complete` of the handler at this address. -/
def dispatch (s : State ι τ) (addr : ℕ) (c : Signal) : State ι τ :=
  match s.mem addr with
  | none => { s with dangling := true }
  | some cell =>
      { s with
        mem := Function.update s.mem addr
          (some { cell with handler := cell.handler.complete c }) }

/-- One turn of `drain_cqes`. -/
def drain (s : State ι τ) (c : Cqe ι) (rearm : Bool) : State ι τ :=
  let s := { s with cq := s.cq.tail }
  if c.userData = kWorkTag then
    if rearm = true then s.arm .readWork else s
  else if c.userData = kNotifyTag then { s with thread := .notified }
  else if c.userData = kCancelTag then s
  else dispatch s c.userData c.signal

/-- `flush_cancel_queue` and `arm_notify`. -/
def processNotify (s : State ι τ) : State ι τ :=
  let flushed := flushCancelQueue s.cancelQueue s.sq
  { s with
    thread := .dispatching
    cancelQueue := flushed.1
    sq := flushed.2 }.arm .readNotify

/-- The kernel takes an entry off its list and posts a CQE. -/
def State.post (s : State ι τ) (i : ℕ) (c : Cqe ι) : State ι τ :=
  { s with
    kernel := s.kernel.eraseIdx i
    cq := s.cq ++ [c] }

/-- What a step does. -/
def effect (token : ι → Option τ) (s : State ι τ) : Event ι τ → State ι τ
  | .switch f => { s with thread := .fiber f }
  | .yield _ => { s with thread := .dispatching }
  | .prepare f form addrs => prepare s f form addrs
  | .submit f =>
      s.submitAll.mapCall f (fun c =>
        { c with phase := if c.form.zc = true then .waiting else .submitted })
  | .registerPool f =>
      s.mapCall f (fun c =>
        { register token s f .pool c with phase := .poolRegistered })
  | .registerFiber f =>
      s.mapCall f (fun c =>
        { register token s f .fiber c with phase := .waiting })
  | .block _ => { s with thread := .dispatching }
  | .resume f => { s with thread := .fiber f }
  | .collect f => s.mapCall f (collect s)
  | .unregisterFiber f =>
      s.mapCall f (fun c =>
        { c.setCb .fiber .absent with phase := .unregistered })
  | .ret f => ret s f
  | .drain c rearm => drain s c rearm
  | .processNotify => processNotify s
  | .complete i r addr _ res =>
      { s.post i ⟨addr, ⟨res, false, false⟩, some r⟩ with
        result := Function.update s.result r (some res) }
  | .completeMore i r addr res =>
      { s with
        kernel := s.kernel.eraseIdx i ++ [.zcNotif r addr]
        cq := s.cq ++ [⟨addr, ⟨res, true, false⟩, some r⟩]
        result := Function.update s.result r (some res) }
  | .completeNotif i r addr => s.post i ⟨addr, notification, some r⟩
  | .completeTimeout i res => s.post i (.tagged kCancelTag res)
  | .readNotify i ok =>
      { s.post i (.tagged kNotifyTag (if ok = true then 8 else -1)) with
        notifyFd := if ok = true then s.notifyFd - 1 else s.notifyFd }
  | .readWork i res => s.post i (.tagged kWorkTag res)
  | .cancelHit i _ origin _ r _ =>
      { s.post i (.tagged kCancelTag 0) with
        cancelled := s.cancelled ++ [(r, origin)] }
  -- `-ENOENT`
  | .cancelMiss i _ _ => s.post i (.tagged kCancelTag (-2))
  | .requestStop src =>
      { s with
        requested := Function.update s.requested src true
        stopping := Function.update s.stopping src true }
  | .invoke f slot _ =>
      s.mapCall f (fun c => c.setCb slot (Callback.run false c.addrs))
  | .finishStop src =>
      { s with stopping := Function.update s.stopping src false }
  | .pushCancel f slot inline addr todo =>
      { s.mapCall f (fun c => c.setCb slot (.writing inline todo)) with
        cancelQueue := s.cancelQueue ++ [(addr, f)]
        unwritten := s.unwritten + 1 }
  | .writeCancel f slot inline todo =>
      { s.mapCall f (fun c => c.setCb slot (Callback.run inline todo)) with
        notifyFd := s.notifyFd + 1
        unwritten := s.unwritten - 1 }
  | .notify => { s with notifyFd := s.notifyFd + 1 }

/-- The worker as the constructor of `io_uring_scheduler` leaves it. -/
def initial : State ι τ where
  thread := .dispatching
  fiber := fun _ => ⟨0, none⟩
  mem := fun _ => none
  sq := []
  kernel := [.op .readWork, .op .readNotify]
  cq := []
  cancelQueue := []
  notifyFd := 0
  requested := fun _ => false
  stopping := fun _ => false
  crashed := false
  dangling := false
  submitted := [.readWork, .readNotify]
  unwritten := 0
  result := fun _ => none
  returned := []
  cancelled := []

/-- The worker as a system of atomic steps, with the stop tokens of its
fibers.  A crashed process takes no steps. -/
def machine (token : ι → Option τ) : Machine (State ι τ) (Event ι τ) where
  init := fun s => s = initial
  enabled := fun s e => s.crashed = false ∧ enabled token s e
  effect := effect token

theorem reachable_invariant
    {token : ι → Option τ} {I : State ι τ → Prop} (hinit : I initial)
    (hstep : ∀ s e, (machine token).Reachable s → I s → s.crashed = false →
      enabled token s e → I (effect token s e))
    {s : State ι τ} (h : (machine token).Reachable s) : I s := by
  refine Machine.Reachable.invariant ?_
    (fun s e hs hI he => hstep s e hs hI he.1 he.2) h
  rintro s rfl
  exact hinit

omit [DecidableEq ι] [DecidableEq τ] in
theorem State.inCall_iff
    {s : State ι τ} {f : ι} {c : Call} (hcall : (s.fiber f).call = some c)
    {P : Call → Prop} : s.inCall f P ↔ P c := by
  simp [State.inCall, hcall]

instance (s : State ι τ) (f : ι) (P : Call → Prop) [DecidablePred P] :
    Decidable (s.inCall f P) :=
  inferInstanceAs (Decidable (∃ c ∈ (s.fiber f).call, P c))

instance (s : State ι τ) (c : Call) : Decidable (s.ready c) :=
  inferInstanceAs (Decidable (∃ h ∈ s.nextHandler c, 0 < h.fulfilments))

instance [Fintype ι] (token : ι → Option τ) (s : State ι τ)
    (src : Source τ) : Decidable (s.quiet token src) :=
  inferInstanceAs (Decidable (∀ f slot, sourceOf token f slot = some src →
    ∀ c ∈ (s.fiber f).call, (c.cb slot).isRemote = false))

instance [Fintype ι] (token : ι → Option τ) (s : State ι τ)
    (e : Event ι τ) : Decidable ((machine token).enabled s e) := by
  change Decidable (s.crashed = false ∧ enabled token s e)
  cases e <;> (dsimp only [enabled]; infer_instance)

/-! ## What beginning a call does -/

omit [DecidableEq ι] in
theorem sqesFrom_length
    (f : ι) (serial : ℕ) (zc : Bool) (i : ℕ) (addrs : List ℕ) :
    (sqesFrom f serial zc i addrs).length = addrs.length := by
  induction addrs generalizing i with
  | nil => rfl
  | cons a addrs ih => rw [sqesFrom, List.length_cons, ih, List.length_cons]

omit [DecidableEq τ] in
/-- On an empty submission queue no call is short of an SQE. -/
theorem prepare_eq_startCall
    {s : State ι τ} {f : ι} {form : Form} {addrs : List ℕ}
    (hsq : s.sq = []) (haccepts : form.accepts addrs.length = true) :
    prepare s f form addrs = startCall s f form addrs := by
  rw [prepare, if_neg]
  rintro ⟨rfl, hfull⟩
  rw [hsq, List.nil_append, sqesFrom_length] at hfull
  simp only [Form.accepts, decide_eq_true_eq] at haccepts
  rw [haccepts] at hfull
  exact absurd hfull (by decide)

/-! ## What a step does to a call -/

/-- What a step does to the call its fiber is in, apart from `prepare` and
`ret`. -/
def callStep (token : ι → Option τ) (s : State ι τ) (f : ι) :
    Event ι τ → Call → Call
  | .submit f', c =>
      if f' = f then
        { c with phase := if c.form.zc = true then .waiting else .submitted }
      else c
  | .registerPool f', c =>
      if f' = f then
        { register token s f' .pool c with phase := .poolRegistered }
      else c
  | .registerFiber f', c =>
      if f' = f then { register token s f' .fiber c with phase := .waiting }
      else c
  | .collect f', c => if f' = f then collect s c else c
  | .unregisterFiber f', c =>
      if f' = f then { c.setCb .fiber .absent with phase := .unregistered }
      else c
  | .invoke f' slot _, c =>
      if f' = f then c.setCb slot (Callback.run false c.addrs) else c
  | .pushCancel f' slot inline _ todo, c =>
      if f' = f then c.setCb slot (.writing inline todo) else c
  | .writeCancel f' slot inline todo, c =>
      if f' = f then c.setCb slot (Callback.run inline todo) else c
  | _, c => c

/-- The fiber whose call a step may change, apart from `prepare` and `ret`. -/
def Event.caller {ι τ : Type*} : Event ι τ → Option ι
  | .submit f | .registerPool f | .registerFiber f | .collect f
  | .unregisterFiber f | .invoke f _ _ | .pushCancel f _ _ _ _
  | .writeCancel f _ _ _ => some f
  | _ => none

omit [DecidableEq τ] in
theorem callStep_of_ne
    {token : ι → Option τ} {s : State ι τ} {f : ι} {e : Event ι τ}
    (h : e.caller ≠ some f) (c : Call) : callStep token s f e c = c := by
  cases e with
  | submit f' | registerPool f' | registerFiber f' | collect f'
  | unregisterFiber f' | invoke f' | pushCancel f' | writeCancel f' =>
      exact if_neg (fun hf => h (congrArg some hf))
  | _ => rfl

theorem Call.setCb_self (c : Call) (slot : Slot) (cb : Callback) :
    (c.setCb slot cb).cb slot = cb :=
  Function.update_self ..

theorem Call.setCb_of_ne
    {c : Call} {slot slot' : Slot} {cb : Callback} (h : slot' ≠ slot) :
    (c.setCb slot cb).cb slot' = c.cb slot' :=
  Function.update_of_ne h ..

omit [DecidableEq τ] in
theorem mapCall_fiber
    (s : State ι τ) (f f' : ι) (g : Call → Call) :
    (s.mapCall f' g).fiber f =
      ⟨(s.fiber f).serial,
        (s.fiber f).call.map (fun c => if f' = f then g c else c)⟩ := by
  by_cases hf : f' = f
  · subst hf
    simp [State.mapCall]
  · have hne : f ≠ f' := fun h => hf h.symm
    simp [State.mapCall, hf, hne]

omit [DecidableEq ι] [DecidableEq τ] in
/-- What arming a read can change. -/
theorem arm_frame (s : State ι τ) (o : Op ι) :
    ∃ sq kernel crashed submitted, s.arm o =
      { s with
        sq := sq
        kernel := kernel
        crashed := crashed
        submitted := submitted } := by
  simp only [State.arm]
  split
  · exact ⟨_, _, _, _, rfl⟩
  · exact ⟨_, _, _, _, rfl⟩

omit [DecidableEq ι] [DecidableEq τ] in
/-- What processing a notify CQE can change. -/
theorem processNotify_frame (s : State ι τ) :
    ∃ sq kernel cancelQueue crashed submitted, processNotify s =
      { s with
        thread := .dispatching
        sq := sq
        kernel := kernel
        cancelQueue := cancelQueue
        crashed := crashed
        submitted := submitted } := by
  obtain ⟨_, _, _, _, harm⟩ := arm_frame _ .readNotify
  exact ⟨_, _, _, _, _, harm⟩

omit [DecidableEq ι] [DecidableEq τ] in
/-- What a turn of `drain_cqes` can change. -/
theorem drain_frame (s : State ι τ) (c : Cqe ι) (rearm : Bool) :
    ∃ thread mem sq kernel crashed dangling submitted, drain s c rearm =
      { s with
        thread := thread
        mem := mem
        sq := sq
        kernel := kernel
        cq := s.cq.tail
        crashed := crashed
        dangling := dangling
        submitted := submitted } := by
  simp only [drain]
  split
  · split
    · obtain ⟨sq, kernel, crashed, submitted, harm⟩ :=
        arm_frame { s with cq := s.cq.tail } .readWork
      exact ⟨_, _, _, _, _, _, _, harm⟩
    · exact ⟨_, _, _, _, _, _, _, rfl⟩
  · split
    · exact ⟨_, _, _, _, _, _, _, rfl⟩
    · split
      · exact ⟨_, _, _, _, _, _, _, rfl⟩
      · simp only [dispatch]
        split
        · exact ⟨_, _, _, _, _, _, _, rfl⟩
        · exact ⟨_, _, _, _, _, _, _, rfl⟩

omit [DecidableEq τ] in
theorem startCall_fiber_of_ne
    {s : State ι τ} {f f' : ι} {form : Form} {addrs : List ℕ}
    (h : f ≠ f') : (startCall s f' form addrs).fiber f = s.fiber f := by
  simp [startCall, h]

omit [DecidableEq τ] in
theorem prepare_fiber_of_ne
    {s : State ι τ} {f f' : ι} {form : Form} {addrs : List ℕ}
    (h : f ≠ f') : (prepare s f' form addrs).fiber f = s.fiber f := by
  simp only [prepare]
  split
  · simp [h]
  · rw [startCall_fiber_of_ne h]

omit [DecidableEq τ] in
theorem ret_fiber_of_ne
    {s : State ι τ} {f f' : ι} (h : f ≠ f') :
    (ret s f').fiber f = s.fiber f := by
  simp only [ret]
  split <;> simp [h]

/-- The number of a fiber's calls and what its call looks like after a step,
apart from the two steps that begin and end a call. -/
theorem fiber_effect
    {token : ι → Option τ} {s : State ι τ} {e : Event ι τ} {f : ι}
    (hprepare : ∀ form addrs, e ≠ .prepare f form addrs)
    (hret : e ≠ .ret f) :
    (effect token s e).fiber f =
      ⟨(s.fiber f).serial,
        (s.fiber f).call.map (callStep token s f e)⟩ := by
  have hsame : ∀ fb : Fiber, fb = ⟨fb.serial, fb.call.map (fun c => c)⟩ := by
    intro fb
    simp
  cases e with
  | submit f' => exact mapCall_fiber s.submitAll f f' _
  | registerPool f' | registerFiber f' | collect f' | unregisterFiber f'
  | invoke f' | pushCancel f' | writeCancel f' =>
      exact mapCall_fiber s f f' _
  | prepare f' form addrs =>
      have hne : f ≠ f' := by
        rintro rfl
        exact hprepare form addrs rfl
      rw [effect, prepare_fiber_of_ne hne]
      exact hsame _
  | ret f' =>
      have hne : f ≠ f' := by
        rintro rfl
        exact hret rfl
      rw [effect, ret_fiber_of_ne hne]
      exact hsame _
  | drain c rearm =>
      obtain ⟨_, _, _, _, _, _, _, hdrain⟩ := drain_frame s c rearm
      rw [effect, hdrain]
      exact hsame _
  | processNotify =>
      obtain ⟨_, _, _, _, _, hnotify⟩ := processNotify_frame s
      rw [effect, hnotify]
      exact hsame _
  | _ => exact hsame _

omit [DecidableEq ι] [DecidableEq τ] in
theorem register_form_addrs
    (token : ι → Option τ) (s : State ι τ) (f : ι) (slot : Slot) (c : Call) :
    (register token s f slot c).form = c.form ∧
      (register token s f slot c).addrs = c.addrs := by
  simp only [register]
  split <;> exact ⟨rfl, rfl⟩

omit [DecidableEq τ] in
theorem callStep_form_addrs
    (token : ι → Option τ) (s : State ι τ) (f : ι) (e : Event ι τ)
    (c : Call) :
    (callStep token s f e c).form = c.form ∧
      (callStep token s f e c).addrs = c.addrs := by
  cases e with
  | registerPool f' | registerFiber f' =>
      simp only [callStep]
      split
      · exact register_form_addrs token s f' _ c
      · exact ⟨rfl, rfl⟩
  | submit | collect | unregisterFiber | invoke | pushCancel | writeCancel =>
      simp only [callStep]
      split <;> exact ⟨rfl, rfl⟩
  | _ => exact ⟨rfl, rfl⟩

/-! ## What a step does to a stop source -/

theorem source_effect
    (token : ι → Option τ) (s : State ι τ) (e : Event ι τ) (src : Source τ) :
    ((effect token s e).requested src = s.requested src ∧
        (effect token s e).stopping src = s.stopping src) ∨
      (e = .requestStop src ∧ (effect token s e).requested src = true ∧
        (effect token s e).stopping src = true) ∨
      (e = .finishStop src ∧
        (effect token s e).requested src = s.requested src) := by
  cases e with
  | requestStop src' =>
      by_cases hsrc : src = src'
      · subst hsrc
        exact Or.inr (Or.inl
          ⟨rfl, Function.update_self .., Function.update_self ..⟩)
      · exact Or.inl
          ⟨Function.update_of_ne hsrc .., Function.update_of_ne hsrc ..⟩
  | finishStop src' =>
      by_cases hsrc : src = src'
      · subst hsrc
        exact Or.inr (Or.inr ⟨rfl, rfl⟩)
      · exact Or.inl ⟨rfl, Function.update_of_ne hsrc ..⟩
  | prepare f form addrs =>
      simp only [effect, prepare, startCall]
      split <;> exact Or.inl ⟨rfl, rfl⟩
  | ret f =>
      simp only [effect, ret]
      split <;> exact Or.inl ⟨rfl, rfl⟩
  | drain c rearm =>
      obtain ⟨_, _, _, _, _, _, _, hdrain⟩ := drain_frame s c rearm
      rw [effect, hdrain]
      exact Or.inl ⟨rfl, rfl⟩
  | processNotify =>
      obtain ⟨_, _, _, _, _, hnotify⟩ := processNotify_frame s
      rw [effect, hnotify]
      exact Or.inl ⟨rfl, rfl⟩
  | _ => exact Or.inl ⟨rfl, rfl⟩

/-! ## What a flush does -/

/-- The cancel SQEs of queued requests. -/
def cancelSqes {ι : Type*} (queue : List (ℕ × ι)) : List (Op ι) :=
  queue.map (fun p => .cancel p.1 p.2)

omit [DecidableEq ι] in
/-- A flush takes the front of the queue, as far as there is room. -/
theorem flushCancelQueue_eq
    (queue : List (ℕ × ι)) (sq : List (Op ι)) :
    flushCancelQueue queue sq =
      (queue.drop (kRingEntries - sq.length),
        sq ++ cancelSqes (queue.take (kRingEntries - sq.length))) :=
  flush_eq ..

omit [DecidableEq ι] [DecidableEq τ] in
/-- A notify CQE processed on an empty submission queue: unless the notify read
gets no SQE, the whole cancel queue is submitted with it. -/
theorem processNotify_eq
    {s : State ι τ} (hsq : s.sq = [])
    (hlive : (processNotify s).crashed = false) :
    processNotify s =
      { s with
        thread := .dispatching
        cancelQueue := []
        kernel := s.kernel ++
          (cancelSqes s.cancelQueue ++ [Op.readNotify]).map .op
        submitted :=
          s.submitted ++ (cancelSqes s.cancelQueue ++ [.readNotify]) } := by
  have hflush := flushCancelQueue_eq s.cancelQueue s.sq
  rw [hsq, List.length_nil, Nat.sub_zero, List.nil_append] at hflush
  by_cases hroom : s.cancelQueue.length < kRingEntries
  · rw [List.drop_eq_nil_of_le (Nat.le_of_lt hroom),
      List.take_of_length_le (Nat.le_of_lt hroom)] at hflush
    simp [processNotify, State.arm, State.submitAll, hsq, hflush, cancelSqes,
      hroom]
  · simp [processNotify, State.arm, hsq, hflush, cancelSqes, hroom] at hlive

end Fiberexec.Ring
