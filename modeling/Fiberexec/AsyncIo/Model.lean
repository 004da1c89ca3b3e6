import Fiberexec.AsyncIo.Sqe
import Fiberexec.Ring.Completion
import Fiberexec.Support.Memory

/-!
# The bytes that calls move

`Ring.Model` follows the requests of a worker and their results.  Here every
request has its SQE, and the kernel moves bytes for it between memory and the
file that its descriptor names, piece by piece, until it posts the CQE with their
number.

The kernel keeps to the memory that was lent with a request and to the length in its
SQE.  It works on a request of a chain when no result before it has broken the chain.
An fsync that succeeds has been done.  A zero-copy send may go on reading its buffer
after its first CQE, until the notification.  What breaks a chain, what the requests
behind a break are answered with, and when a result is a number of bytes, are
parameters: `Kernel.Documented` says what the manual pages have on them.

Sends with `MSG_ZEROCOPY` are left out: the kernel may read their buffers at any time
after the call.
-/

namespace Fiberexec.AsyncIo

open Support
open Fiberexec.Ring (Rid Pending)

variable {ι τ φ β : Type}

/-! ## What an SQE does -/

/-- Two pieces of memory do not overlap. -/
def Span.Apart (a b : Span) : Prop :=
  a.data + a.size ≤ b.data ∨ b.data + b.size ≤ a.data

instance (a b : Span) : Decidable (a.Apart b) :=
  inferInstanceAs (Decidable (_ ∨ _))

namespace Sqe

/-- The kernel moves bytes from the file to the buffer. -/
def fills (q : Sqe) : Bool :=
  match q.opcode with
  | .read | .recv => true
  | _ => false

/-- The kernel moves bytes from the buffer to the file. -/
def takes (q : Sqe) : Bool :=
  match q.opcode with
  | .write | .send | .sendZc => true
  | _ => false

/-- The length of the buffer. -/
def extent (q : Sqe) : ℕ :=
  if q.fills = true ∨ q.takes = true then q.len else 0

/-- The memory that the kernel is lent: the buffer, or the places for the address
of the peer and its length. -/
def regions (q : Sqe) : List Span :=
  match q.opcode with
  | .read | .recv | .write | .send | .sendZc => [⟨q.addr, q.len⟩]
  | .accept => if q.addr = 0 then [] else [⟨q.addr, q.room⟩, ⟨q.off, 4⟩]
  | _ => []

/-- The kernel writes to the memory that it is lent. -/
def dirties (q : Sqe) : Bool :=
  q.fills || decide (q.opcode = .accept)

/-- What is lent with two SQEs does not overlap. -/
def Apart (q q' : Sqe) : Prop :=
  ∀ a ∈ q.regions, ∀ b ∈ q'.regions, a.Apart b

instance (q q' : Sqe) : Decidable (q.Apart q') :=
  inferInstanceAs (Decidable (∀ a ∈ q.regions, ∀ b ∈ q'.regions, a.Apart b))

/-- A receive with `MSG_TRUNC`. -/
def msgTrunc (q : Sqe) : Bool :=
  decide (q.opcode = .recv ∧ 32 ≤ q.opFlags % 64)

/-- A send with `MSG_ZEROCOPY`. -/
def msgZerocopy (q : Sqe) : Bool :=
  decide (q.opcode = .send ∧ 0x4000000 ≤ q.opFlags % 0x8000000)

/-- `O_TRUNC`, for an openat. -/
def oTrunc (q : Sqe) : Bool :=
  decide (512 ≤ q.opFlags % 1024)

/-- `O_APPEND`, for an openat. -/
def oAppend (q : Sqe) : Bool :=
  decide (1024 ≤ q.opFlags % 2048)

end Sqe

/-! ## The kernel -/

/-- What the model leaves open of the kernel. -/
structure Kernel where
  /-- a result that is not negative is the number of bytes moved -/
  counts : Sqe → Bool
  /-- a result breaks the chain behind the request -/
  breaks : Sqe → ℤ → Bool
  /-- a result that a request behind a break can have -/
  cancels : ℤ → Bool

/-- A kernel that does nothing beyond it. -/
def manual : Kernel where
  counts q := !q.msgTrunc
  breaks q res :=
    decide (res < 0 ∨ (q.opcode = .read ∨ q.opcode = .write) ∧
      q.len ≤ maxRwCount ∧ res < q.len)
  cancels res := decide (res = -ecanceled)

/-- What a descriptor refers to: an open file, with its `O_APPEND`. -/
structure Desc (φ : Type) where
  file : φ
  append : Bool
  deriving DecidableEq

/-- What the kernel did for a request. -/
inductive Deed (β : Type)
  /-- it moved these bytes from the buffer to the file, at the end of the file or at
  an offset, which only a regular file has -/
  | taken (append : Bool) (off : ℕ) (data : List β)
  /-- it moved these bytes from the file to the buffer -/
  | filled (off : ℕ) (data : List β)
  | synced
  /-- it opened the file, and cut it to nothing if `trunc` -/
  | opened (trunc : Bool)
  deriving DecidableEq

def Deed.isSync : Deed β → Bool
  | .taken _ _ _ | .filled _ _ | .opened _ => false
  | .synced => true

/-- The bytes that were moved. -/
def Deed.data : Deed β → List β
  | .taken _ _ data | .filled _ data => data
  | .synced | .opened _ => []

/-- An entry of the kernel's log. -/
structure Act (ι φ β : Type) where
  rid : Rid ι
  file : φ
  deed : Deed β
  deriving DecidableEq

/-- The ring, memory, and descriptors.  `lent`, `moved` and `log` record history:
what the buffer of a request held when its call began, the bytes moved for it, and
all that the kernel did to files. -/
structure State (ι τ φ β : Type) where
  ring : Ring.State ι τ
  /-- the calls of a fiber, by their number -/
  ops : ι → ℕ → Option Operation
  mem : ℕ → β
  fds : ℤ → Option (Desc φ)
  /-- the registered files -/
  slots : ℤ → Option (Desc φ)
  /-- what the kernel has found for a request -/
  target : Rid ι → Option (Desc φ)
  lent : Rid ι → List β
  moved : Rid ι → List β
  log : List (Act ι φ β)

namespace State

/-- The SQE of a request. -/
def sqe (s : State ι τ φ β) (r : Rid ι) : Option Sqe :=
  (s.ops r.fiber r.serial).bind fun op => op.requests[r.index]?

/-- The SQEs of the call that a fiber is in. -/
def openSqes (s : State ι τ φ β) (f : ι) : List Sqe :=
  match (s.ring.fiber f).call with
  | none => []
  | some _ =>
      (s.ops f (s.ring.fiber f).serial).elim [] Operation.requests

/-- What the descriptor of an SQE refers to. -/
def lookup (s : State ι τ φ β) (q : Sqe) : Option (Desc φ) :=
  if q.fixedFile = true then s.slots q.fd else s.fds q.fd

/-- No request before this one has broken their chain. -/
def started (k : Kernel) (s : State ι τ φ β) (r : Rid ι) : Prop :=
  ∀ i < r.index, ∃ q ∈ s.sqe { r with index := i },
    ∃ v ∈ s.ring.result { r with index := i }, k.breaks q v = false

/-- An fsync has been done for the request. -/
def synced [DecidableEq ι] (s : State ι τ φ β) (r : Rid ι) : Bool :=
  s.log.any fun a => decide (a.rid = r) && a.deed.isSync

/-- What the kernel posts for a request with this SQE when it is through with it.
The number of bytes is final unless the notification of a zero-copy send is to
follow. -/
def answers [DecidableEq ι] (k : Kernel) (s : State ι τ φ β) (r : Rid ι) (q : Sqe)
    (res : ℤ) (more : Bool) : Prop :=
  (∀ i < r.index, (s.ring.result { r with index := i }).isSome = true) ∧
    (s.started k r ∨ k.cancels res = true) ∧
    (0 ≤ res →
      (k.counts q = true → q.fills = true ∨ q.takes = true →
        ((s.moved r).length : ℤ) ≤ res ∧
          (more = false → ((s.moved r).length : ℤ) = res)) ∧
      (q.opcode = .fsync → s.synced r = true))

end State

/-! ## Steps -/

/-- The steps.  Those about a request name its SQE, and what its descriptor refers
to. -/
inductive Event (ι τ φ β : Type)
  /-- a step of the ring that neither begins a call nor answers a request -/
  | ring (e : Ring.Event ι τ)
  | call (f : ι) (op : Operation) (addrs : List ℕ)
  /-- somebody writes to memory -/
  | store (addr : ℕ) (data : List β)
  /-- the kernel looks the descriptor of a request up -/
  | assign (r : Rid ι) (q : Sqe)
  /-- the kernel moves the next `n` bytes of the buffer to the file -/
  | take (r : Rid ι) (q : Sqe) (d : Desc φ) (n : ℕ)
  /-- the kernel moves bytes to the next places of the buffer -/
  | fill (r : Rid ι) (q : Sqe) (d : Desc φ) (data : List β)
  /-- the kernel makes a file durable -/
  | sync (r : Rid ι) (q : Sqe) (d : Desc φ)
  /-- the kernel opens a file and gives it a descriptor -/
  | openFile (r : Rid ι) (q : Sqe) (x : φ) (fd : ℤ)
  /-- the kernel writes the address of a peer and its length -/
  | peer (r : Rid ι) (q : Sqe) (addr addrlen : List β)
  /-- the kernel posts the only CQE of a request -/
  | answer (i : ℕ) (r : Rid ι) (q : Sqe) (addr : ℕ) (zc : Bool) (res : ℤ)
  /-- the kernel posts the first CQE of a zero-copy send -/
  | answerMore (i : ℕ) (r : Rid ι) (q : Sqe) (addr : ℕ) (res : ℤ)
  /-- the kernel posts its notification -/
  | answerNotif (i : ℕ) (r : Rid ι) (q : Sqe) (addr : ℕ) (res : ℤ)
  /-- a descriptor is opened in another way, closed or reused -/
  | setFd (fd : ℤ) (d : Option (Desc φ))
  | setSlot (slot : ℤ) (d : Option (Desc φ))

/-- A step of the ring that neither begins a call nor answers a request. -/
def plain : Ring.Event ι τ → Bool
  | .prepare _ _ _ | .complete _ _ _ _ _ | .completeMore _ _ _ _
  | .completeNotif _ _ _ => false
  | _ => true

/-- The step of the ring in a step. -/
def Event.ring? : Event ι τ φ β → Option (Ring.Event ι τ)
  | .ring e => some e
  | .call f op addrs => some (.prepare f op.form addrs)
  | .answer i r _ addr zc res => some (.complete i r addr zc res)
  | .answerMore i r _ addr res => some (.completeMore i r addr res)
  | .answerNotif i r _ addr _ => some (.completeNotif i r addr)
  | _ => none

section Machine

variable [DecidableEq ι] [DecidableEq τ]

/-- How far the kernel may go with the buffer of a request that it holds. -/
def State.limit (s : State ι τ φ β) (r : Rid ι) (q : Sqe) : ℕ :=
  if Pending.answer ∈ (s.ring.track r).kernel then q.len
  else if Pending.notification ∈ (s.ring.track r).kernel then
    min q.len ((s.ring.result r).getD 0).toNat
  else 0

/-- The kernel is at work on a request that it has not answered. -/
def State.busy (k : Kernel) (s : State ι τ φ β) (r : Rid ι) (q : Sqe) : Prop :=
  s.sqe r = some q ∧ s.started k r ∧ Pending.answer ∈ (s.ring.track r).kernel

/-- The kernel may move `n` more bytes for a request. -/
def State.moves (k : Kernel) (s : State ι τ φ β) (r : Rid ι) (q : Sqe)
    (d : Desc φ) (n : ℕ) : Prop :=
  s.sqe r = some q ∧ s.target r = some d ∧ s.started k r ∧ 0 < n ∧
    (s.moved r).length + n ≤ s.limit r q

/-- What a step asks for besides the step of the ring in it. -/
def Applies (k : Kernel) (s : State ι τ φ β) : Event ι τ φ β → Prop
  | .ring e => plain e = true
  | .call _ op addrs =>
      addrs.length = op.requests.length ∧ ∀ q ∈ op.requests, q.msgZerocopy = false
  | .assign r q =>
      s.sqe r = some q ∧ Pending.answer ∈ (s.ring.track r).kernel ∧
        s.target r = none
  | .take r q d n => s.moves k r q d n ∧ q.takes = true
  | .fill r q d data => s.moves k r q d data.length ∧ q.fills = true
  | .sync r q d =>
      s.busy k r q ∧ q.opcode = .fsync ∧ s.target r = some d
  | .openFile r q _ _ => s.busy k r q ∧ q.opcode = .openat
  | .peer r q addr addrlen =>
      s.busy k r q ∧ q.opcode = .accept ∧ q.addr ≠ 0 ∧
        addr.length ≤ q.room ∧ addrlen.length = 4
  | .answer _ r q _ _ res => s.sqe r = some q ∧ s.answers k r q res false
  | .answerMore _ r q _ res => s.sqe r = some q ∧ s.answers k r q res true
  | .answerNotif _ r q _ res =>
      s.sqe r = some q ∧ s.ring.result r = some res ∧
        (0 ≤ res → k.counts q = true → ((s.moved r).length : ℤ) = res)
  | .store _ _ | .setFd _ _ | .setSlot _ _ => True

/-- The kernel has done something for a request. -/
def State.record (s : State ι τ φ β) (r : Rid ι) (x : φ) (deed : Deed β) :
    State ι τ φ β :=
  { s with
    moved := Function.update s.moved r (s.moved r ++ deed.data)
    log := s.log ++ [⟨r, x, deed⟩] }

/-- A call begins. -/
def State.begin (s : State ι τ φ β) (f : ι) (op : Operation) :
    State ι τ φ β :=
  let serial := (s.ring.fiber f).serial
  { s with
    ops := Function.update s.ops f (Function.update (s.ops f) serial (some op))
    lent := fun r =>
      if r.fiber = f ∧ r.serial = serial then
        (op.requests[r.index]?).elim [] fun q =>
          Memory.read s.mem q.addr q.extent
      else s.lent r }

/-- What a step does besides the step of the ring in it. -/
def aside (s : State ι τ φ β) : Event ι τ φ β → State ι τ φ β
  | .call f op _ => s.begin f op
  | .store addr data => { s with mem := Memory.write s.mem addr data }
  | .assign r q => { s with target := Function.update s.target r (s.lookup q) }
  | .take r q d n =>
      let done := (s.moved r).length
      s.record r d.file
        (.taken d.append (q.off + done) (Memory.read s.mem (q.addr + done) n))
  | .fill r q d data =>
      let done := (s.moved r).length
      { s.record r d.file (.filled (q.off + done) data) with
        mem := Memory.write s.mem (q.addr + done) data }
  | .sync r _ d => s.record r d.file .synced
  | .openFile r q x fd =>
      { s.record r x (.opened q.oTrunc) with
        fds := Function.update s.fds fd (some ⟨x, q.oAppend⟩) }
  | .peer _ q addr addrlen =>
      { s with
        mem := Memory.write (Memory.write s.mem q.addr addr) q.off addrlen }
  | .setFd fd d => { s with fds := Function.update s.fds fd d }
  | .setSlot slot d => { s with slots := Function.update s.slots slot d }
  | .ring _ | .answer _ _ _ _ _ _ | .answerMore _ _ _ _ _
  | .answerNotif _ _ _ _ _ => s

variable (k : Kernel) (token : ι → Option τ)

def effect (s : State ι τ φ β) (e : Event ι τ φ β) : State ι τ φ β :=
  { aside s e with ring := e.ring?.elim s.ring (Ring.effect token s.ring) }

/-- The worker and the kernel as one system of atomic steps. -/
def machine : Machine (State ι τ φ β) (Event ι τ φ β) where
  init := fun s => s.ring = Ring.initial ∧ (∀ f n, s.ops f n = none) ∧
    (∀ r, s.target r = none) ∧ (∀ r, s.moved r = []) ∧ s.log = []
  enabled := fun s e =>
    (∀ e' ∈ e.ring?, s.ring.crashed = false ∧ Ring.enabled token s.ring e') ∧
      Applies k s e
  effect := effect token

/-! ## Decidability -/

variable [DecidableEq φ]

instance (s : State ι τ φ β) (r : Rid ι) : Decidable (s.started k r) :=
  inferInstanceAs (Decidable (∀ i < r.index, ∃ q ∈ s.sqe { r with index := i },
    ∃ v ∈ s.ring.result { r with index := i }, k.breaks q v = false))

instance (s : State ι τ φ β) (r : Rid ι) (q : Sqe) (res : ℤ) (more : Bool) :
    Decidable (s.answers k r q res more) :=
  inferInstanceAs (Decidable (_ ∧ _))

instance (s : State ι τ φ β) (r : Rid ι) (q : Sqe) : Decidable (s.busy k r q) :=
  inferInstanceAs (Decidable (_ ∧ _))

instance (s : State ι τ φ β) (r : Rid ι) (q : Sqe) (d : Desc φ) (n : ℕ) :
    Decidable (s.moves k r q d n) :=
  inferInstanceAs (Decidable (_ ∧ _))

instance (s : State ι τ φ β) :
    (e : Event ι τ φ β) → Decidable (Applies k s e)
  | .ring e => inferInstanceAs (Decidable (plain e = true))
  | .call _ op addrs =>
      inferInstanceAs (Decidable (addrs.length = op.requests.length ∧
        ∀ q ∈ op.requests, q.msgZerocopy = false))
  | .assign r q =>
      inferInstanceAs (Decidable (s.sqe r = some q ∧
        Pending.answer ∈ (s.ring.track r).kernel ∧ s.target r = none))
  | .take r q d n =>
      inferInstanceAs (Decidable (s.moves k r q d n ∧ q.takes = true))
  | .fill r q d data =>
      inferInstanceAs (Decidable (s.moves k r q d data.length ∧ q.fills = true))
  | .sync r q d =>
      inferInstanceAs (Decidable (s.busy k r q ∧ q.opcode = .fsync ∧
        s.target r = some d))
  | .openFile r q _ _ =>
      inferInstanceAs (Decidable (s.busy k r q ∧ q.opcode = .openat))
  | .peer r q addr addrlen =>
      inferInstanceAs (Decidable (s.busy k r q ∧ q.opcode = .accept ∧
        q.addr ≠ 0 ∧ addr.length ≤ q.room ∧ addrlen.length = 4))
  | .answer _ r q _ _ res =>
      inferInstanceAs (Decidable (s.sqe r = some q ∧ s.answers k r q res false))
  | .answerMore _ r q _ res =>
      inferInstanceAs (Decidable (s.sqe r = some q ∧ s.answers k r q res true))
  | .answerNotif _ r q _ res =>
      inferInstanceAs (Decidable (s.sqe r = some q ∧ s.ring.result r = some res ∧
        (0 ≤ res → k.counts q = true → ((s.moved r).length : ℤ) = res)))
  | .store _ _ | .setFd _ _ | .setSlot _ _ => .isTrue trivial

instance [Fintype ι] (s : State ι τ φ β) (e : Event ι τ φ β) :
    Decidable ((machine k token).enabled s e) :=
  have : ∀ e', Decidable (s.ring.crashed = false ∧ Ring.enabled token s.ring e') :=
    fun e' => inferInstanceAs (Decidable ((Ring.machine token).enabled s.ring e'))
  inferInstanceAs (Decidable ((∀ e' ∈ e.ring?, s.ring.crashed = false ∧
    Ring.enabled token s.ring e') ∧ Applies k s e))

end Machine

end Fiberexec.AsyncIo
