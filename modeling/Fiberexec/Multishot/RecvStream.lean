import Fiberexec.Multishot.Recv
import Fiberexec.Support.BitCeil
import Fiberexec.Support.Requests

/-!
# The receiver as a stream of messages

This is the receiver again, from its constructor on, with what `Recv` leaves
out.  The `received_buffer`s are objects that can be moved.  The SQEs wait in
the ring until the kernel consumes them, in order, and the cancel of the
destructor is one of them; it ends the request that is armed when it is
executed, and does nothing when none is.  The CQEs dispatched, the messages
returned to the user and those the destructor discards are recorded.
-/

namespace Fiberexec.Multishot.Recv.Stream

open Support

/-! ## The object and its buffers -/

/-- A CQE of the object: `res`, the buffer id if `IORING_CQE_F_BUFFER` is set,
and `IORING_CQE_F_MORE`. -/
structure Cqe where
  res : ℤ
  buffer : Option ℕ
  more : Bool
  deriving DecidableEq

/-- The CQE with which a request ends. -/
def Cqe.isLast (c : Cqe) : Bool :=
  !c.more

/-- `multishot_recv::complete`, apart from the promise and the re-arm. -/
def complete (a : Object) (c : Cqe) : Object :=
  a.completeLast ⟨c.res, c.buffer⟩

/-- Whether `complete` arms the request again. -/
def rearms (c : Cqe) : Bool :=
  !c.more && decide (0 < c.res)

/-- `received_buffer`; `owner` tells whether `owner_` is not null. -/
structure ReceivedBuffer where
  owner : Bool
  bufId : ℕ
  size : ℕ
  deriving DecidableEq

/-- What a move leaves of the buffer moved from. -/
def ReceivedBuffer.movedFrom (b : ReceivedBuffer) : ReceivedBuffer :=
  { b with owner := false }

/-- `~received_buffer`, and the first lines of its move assignment. -/
def giveBack (a : Object) (b : ReceivedBuffer) : Object :=
  if b.owner = true then a.returnBuffer b.bufId else a

theorem foldl_returnBuffer (items : List PendingItem) (a : Object) :
    items.foldl (fun a item => a.returnBuffer item.bufId) a =
      { a with
        bufRing := a.bufRing.map
          (fun ids => ids ++ items.map PendingItem.bufId) } := by
  induction items generalizing a with
  | nil => simp
  | cons item items ih =>
      rw [List.foldl_cons, ih]
      simp [Object.returnBuffer, Function.comp_def]

/-- The first loop of the destructor moves the buffers of all messages to the
ring. -/
theorem returnPending_eq (a : Object) :
    a.returnPending =
      { a with
        pending := []
        bufRing := a.bufRing.map
          (fun ids => ids ++ a.pending.map PendingItem.bufId) } := by
  rw [Object.returnPending, foldl_returnBuffer]

/-! ## The system -/

/-- An SQE that the kernel has not consumed. -/
inductive Sqe
  | recv
  | cancel
  deriving DecidableEq

/-- The receiver with its requests, its buffers and its history.  `ring` counts
the requests that the kernel holds. -/
structure State where
  object : Object
  sqes : List Sqe
  ring : Requests Cqe
  /-- the `received_buffer`s that exist -/
  handles : List ReceivedBuffer
  stop : Bool
  phase : Phase
  /-- all CQEs handed to `complete` -/
  dispatched : List Cqe
  /-- what `next` has returned to the user -/
  returned : List PendingItem
  /-- what the destructor has returned to the buffer ring -/
  discarded : List PendingItem

/-- The atomic steps. -/
inductive Event
  /-- the kernel posts a CQE of an armed request -/
  | post (c : Cqe)
  /-- the kernel consumes the oldest SQE -/
  | consume
  /-- `drain_cqes` hands the next CQE to `complete`; `gotSqe` tells whether a
  re-arm obtains an SQE -/
  | drain (gotSqe : Bool)
  /-- the user calls `next` -/
  | next
  /-- the fiber resumes in `next` -/
  | resume
  /-- a `received_buffer` is constructed from another one -/
  | moveConstruct (src : ℕ)
  /-- a `received_buffer` is assigned to another one, or to itself -/
  | moveAssign (dst src : ℕ)
  /-- a `received_buffer` is destroyed -/
  | release (i : ℕ)
  /-- the user destroys the object; `gotSqe` tells whether `submit_cancel`
  obtains an SQE -/
  | destroy (gotSqe : Bool)
  /-- one turn of `while (next()) {}` in the destructor -/
  | drainLoop
  /-- the destructor frees the buffer ring and returns -/
  | free
  | requestStop
  deriving DecidableEq

/-- Where a call of `next` leads.  The user gets a `received_buffer`; that of
the destructor is destroyed at once. -/
def settle (s : State) (caller : Caller) (r : Object × Next) : State :=
  match caller, r.2 with
  | caller, .suspended =>
      { s with object := r.1, phase := .waiting caller }
  | .user, .value item =>
      { s with
        object := r.1
        handles := s.handles ++ [⟨true, item.bufId, item.size⟩]
        returned := s.returned ++ [item]
        phase := .user }
  | .user, _ => { s with object := r.1, phase := .user }
  | .destructor, .value item =>
      { s with
        object := r.1.returnBuffer item.bufId
        discarded := s.discarded ++ [item]
        phase := .draining }
  | .destructor, _ => { s with object := r.1, phase := .freeing }

/-- `drain_cqes` calls `complete` with this CQE. -/
def dispatch (s : State) (c : Cqe) (gotSqe : Bool) (ring : Requests Cqe) :
    State :=
  { s with
    object := complete s.object c
    phase := if s.object.waiter = true then s.phase.fulfil else s.phase
    sqes := if rearms c && gotSqe then s.sqes ++ [.recv] else s.sqes
    ring := ring
    dispatched := s.dispatched ++ [c] }

/-- The CQE of a cancelled request. -/
def canceledCqe : Cqe :=
  ⟨-ecanceled, none, false⟩

/-- The kernel executes an SQE. -/
def execute (ring : Requests Cqe) : Sqe → Requests Cqe
  | .recv => ring.arm
  | .cancel => if 0 < ring.armed then ring.post canceledCqe true else ring

/-- When a step may be taken.  Only data leave a request armed, and
`drain_cqes` does not run while the destructor is between two suspension
points. -/
def enabled (s : State) : Event → Prop
  | .post c => 0 < s.ring.armed ∧ (c.more = true → 0 < c.res)
  | .consume => s.sqes ≠ []
  | .drain _ =>
      s.ring.cq ≠ [] ∧ s.phase ≠ .draining ∧ s.phase ≠ .freeing ∧
        s.phase ≠ .returned
  | .next | .destroy _ => s.phase = .user
  | .resume => ∃ caller, s.phase = .woken caller
  | .moveConstruct src => src < s.handles.length ∧ s.phase ≠ .returned
  | .moveAssign dst src =>
      dst < s.handles.length ∧ src < s.handles.length ∧ s.phase ≠ .returned
  | .release i => i < s.handles.length ∧ s.phase ≠ .returned
  | .drainLoop => s.phase = .draining
  | .free => s.phase = .freeing
  | .requestStop => True

/-- What a step does. -/
def effect (s : State) : Event → State
  | .post c =>
      { s with
        object := c.buffer.elim s.object s.object.selectBuffer
        ring := s.ring.post c c.isLast }
  | .consume =>
      match s.sqes with
      | sqe :: sqes => { s with sqes := sqes, ring := execute s.ring sqe }
      | [] => s
  | .drain gotSqe =>
      match s.ring.take? with
      | some (c, ring) => dispatch s c gotSqe ring
      | none => s
  | .next => settle s .user (s.object.next s.stop)
  | .resume =>
      match s.phase with
      | .woken caller => settle s caller s.object.afterWait
      | _ => s
  | .moveConstruct src =>
      match s.handles[src]? with
      | some b =>
          { s with handles := s.handles.set src b.movedFrom ++ [b] }
      | none => s
  | .moveAssign dst src =>
      if dst = src then s
      else
        match s.handles[dst]?, s.handles[src]? with
        | some old, some b =>
            { s with
              object := giveBack s.object old
              handles := (s.handles.set dst b).set src b.movedFrom }
        | _, _ => s
  | .release i =>
      match s.handles[i]? with
      | some b =>
          { s with
            object := giveBack s.object b
            handles := s.handles.eraseIdx i }
      | none => s
  | .destroy gotSqe =>
      { s with
        object := s.object.returnPending
        discarded := s.discarded ++ s.object.pending
        sqes :=
          if s.object.error = 0 ∧ gotSqe = true then s.sqes ++ [.cancel]
          else s.sqes
        phase := if s.object.error = 0 then .draining else .freeing }
  | .drainLoop => settle s .destructor (s.object.next s.stop)
  | .free =>
      { s with
        object := { s.object with bufRing := none }
        phase := .returned }
  | .requestStop => { s with stop := true }

/-! ## The constructor -/

/-- Why the constructor throws. -/
inductive ConstructError
  | invalidArgument
  | setupBufRing
  | ringFull
  | submit (error : ℤ)
  deriving DecidableEq

/-- `io_uring_setup_buf_ring` takes a power of two up to 32768; the count is
passed as an `unsigned int`. -/
def setupAccepts (count : ℕ) : Prop :=
  count % 2 ^ 32 ≠ 0 ∧ count % 2 ^ 32 ≤ 32768

instance (count : ℕ) : Decidable (setupAccepts count) :=
  inferInstanceAs (Decidable (_ ∧ _))

/-- The object when its request is armed.  The ids are passed as
`uint16_t`. -/
def initial (count : ℕ) : State where
  object :=
    { pending := [], waiter := false, error := 0,
      bufRing := some ((List.range count).map (fun i => i % 2 ^ 16)) }
  sqes := []
  ring := ⟨1, []⟩
  handles := []
  stop := false
  phase := .user
  dispatched := []
  returned := []
  discarded := []

/-- The constructor; `gotSqe` and `submitted` are what `io_uring_get_sqe` and
`io_uring_submit` give. -/
def construct (bufSize bufCount : ℕ) (gotSqe : Bool) (submitted : ℤ) :
    Except ConstructError State :=
  if bufSize = 0 ∨ bufCount = 0 then .error .invalidArgument
  else if ¬setupAccepts (bitCeil bufCount) then .error .setupBufRing
  else if gotSqe = false then .error .ringFull
  else if submitted < 0 then .error (.submit submitted)
  else .ok (initial (bitCeil bufCount))

/-- The receivers that the constructor accepts, as a system of atomic steps. -/
def machine (bufSize bufCount : ℕ) : Machine State Event where
  init := fun s => ∃ gotSqe submitted,
    construct bufSize bufCount gotSqe submitted = .ok s
  enabled := enabled
  effect := effect

instance (bufSize bufCount : ℕ) (s : State) (e : Event) :
    Decidable ((machine bufSize bufCount).enabled s e) :=
  match e with
  | .post c =>
      inferInstanceAs (Decidable
        (0 < s.ring.armed ∧ (c.more = true → 0 < c.res)))
  | .consume => inferInstanceAs (Decidable (s.sqes ≠ []))
  | .drain _ =>
      inferInstanceAs (Decidable (s.ring.cq ≠ [] ∧ s.phase ≠ .draining ∧
        s.phase ≠ .freeing ∧ s.phase ≠ .returned))
  | .next | .destroy _ => inferInstanceAs (Decidable (s.phase = .user))
  | .resume =>
      match hp : s.phase with
      | .woken caller => .isTrue ⟨caller, hp⟩
      | .user | .waiting _ | .draining | .freeing | .returned =>
          .isFalse (by rintro ⟨caller, h⟩; rw [hp] at h; cases h)
  | .moveConstruct src =>
      inferInstanceAs (Decidable
        (src < s.handles.length ∧ s.phase ≠ .returned))
  | .moveAssign dst src =>
      inferInstanceAs (Decidable (dst < s.handles.length ∧
        src < s.handles.length ∧ s.phase ≠ .returned))
  | .release i =>
      inferInstanceAs (Decidable
        (i < s.handles.length ∧ s.phase ≠ .returned))
  | .drainLoop => inferInstanceAs (Decidable (s.phase = .draining))
  | .free => inferInstanceAs (Decidable (s.phase = .freeing))
  | .requestStop => inferInstanceAs (Decidable True)

/-- The count that is passed on is not cut off: only larger powers of two are
multiples of `2 ^ 32`. -/
theorem bitCeil_le_of_setupAccepts
    {bufCount : ℕ} (h : setupAccepts (bitCeil bufCount)) :
    bitCeil bufCount ≤ 32768 := by
  obtain ⟨hne, hle⟩ := h
  have hsmall : bitCeil bufCount < 2 ^ 32 :=
    bitCeil_lt_of_mod_ne_zero hne
  rwa [Nat.mod_eq_of_lt hsmall] at hle

/-- An accepted object has `buf_count_` buffers, 32768 at most. -/
theorem construct_ok
    {bufSize bufCount : ℕ} {gotSqe : Bool} {submitted : ℤ} {s : State}
    (h : construct bufSize bufCount gotSqe submitted = .ok s) :
    s = initial (bitCeil bufCount) ∧ bitCeil bufCount ≤ 32768 := by
  simp only [construct] at h
  split at h
  next => cases h
  next =>
    split at h
    next => cases h
    next haccepts =>
      split at h
      next => cases h
      next =>
        split at h
        next => cases h
        next =>
          exact ⟨(Except.ok.inj h).symm,
            bitCeil_le_of_setupAccepts (not_not.mp haccepts)⟩

theorem eq_initial_of_init
    {bufSize bufCount : ℕ} {s : State}
    (h : (machine bufSize bufCount).init s) :
    s = initial (bitCeil bufCount) := by
  obtain ⟨gotSqe, submitted, hok⟩ := h
  exact (construct_ok hok).1

/-! ## The requests of the object -/

/-- The requests that wait in the ring or are held by the kernel. -/
def State.requests (s : State) : Requests Cqe :=
  ⟨s.ring.armed + s.sqes.count .recv, s.ring.cq⟩

theorem requests_post
    {s : State} {c : Cqe} {ends : Bool} (h : 0 < s.ring.armed) :
    { s with ring := s.ring.post c ends }.requests =
      s.requests.post c ends := by
  simp only [State.requests, Requests.post, Requests.mk.injEq, and_true]
  split <;> omega

theorem requests_take
    {s : State} {c : Cqe} {ring : Requests Cqe}
    (h : s.ring.take? = some (c, ring)) :
    s.requests.take? = some (c, { s with ring := ring }.requests) := by
  rw [Requests.take?_eq_some_iff] at h ⊢
  simp [State.requests, h]

theorem requests_dispatch
    (s : State) (c : Cqe) (gotSqe : Bool) (ring : Requests Cqe) :
    (dispatch s c gotSqe ring).requests =
      if rearms c && gotSqe then { s with ring := ring }.requests.arm
      else { s with ring := ring }.requests := by
  simp only [State.requests, dispatch]
  split
  · simp [Requests.arm, Nat.add_assoc]
  · rfl

theorem requests_destroy (s : State) (gotSqe : Bool) :
    (effect s (.destroy gotSqe)).requests = s.requests := by
  simp only [effect, State.requests]
  split <;> simp

/-- A request is as before when the kernel takes it over; a cancel posts the
last completion of a request, or does nothing. -/
theorem requests_consume
    {s : State} {sqe : Sqe} {sqes : List Sqe} (h : s.sqes = sqe :: sqes) :
    (effect s .consume).requests = s.requests ∨
      0 < s.ring.armed ∧
        (effect s .consume).requests = s.requests.post canceledCqe true := by
  simp only [effect, h]
  cases sqe with
  | recv =>
      left
      simp only [State.requests, execute, Requests.arm, h,
        List.count_cons_self, Requests.mk.injEq, and_true]
      omega
  | cancel =>
      by_cases harmed : 0 < s.ring.armed
      · right
        refine ⟨harmed, ?_⟩
        simp only [State.requests, execute, harmed, if_true, Requests.post,
          h, Requests.mk.injEq, and_true]
        simp
        omega
      · left
        simp [State.requests, execute, harmed, h]

end Fiberexec.Multishot.Recv.Stream
