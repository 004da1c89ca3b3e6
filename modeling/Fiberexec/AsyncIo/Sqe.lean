import Fiberexec.Ring.Submission

/-!
# What the functions of `async_io.cpp` ask for

`Ring.Submission` follows which kinds of SQEs a function takes and submits.
Here is what the functions write into them: the descriptor with the flag for a
registered one, the offset, the buffer and its length.  The length of an SQE has
32 bits.
-/

namespace Fiberexec.AsyncIo

open Support
open Fiberexec.Ring (Form kRingEntries)

/-! ## Arguments -/

/-- `fd_ref`. -/
structure FdRef where
  index : ℤ
  fixed : Bool
  deriving DecidableEq

/-- A `std::span` of bytes. -/
structure Span where
  data : ℕ
  size : ℕ
  deriving DecidableEq

/-! ## SQEs -/

inductive Opcode
  | read
  | write
  | accept
  | openat
  | close
  | connect
  | recv
  | send
  | fsync
  | timeout
  | linkTimeout
  | sendZc
  deriving DecidableEq

/-- An SQE. -/
structure Sqe where
  opcode : Opcode
  fd : ℤ
  off : ℕ
  addr : ℕ
  len : ℕ
  /-- `msg_flags`, `open_flags` and the others that share their place -/
  opFlags : ℤ
  bufIndex : ℕ
  /-- the `__kernel_timespec` that `addr` points to -/
  ts : Timespec
  /-- the `socklen_t` that `off` points to, for an accept -/
  room : ℕ
  /-- `IOSQE_FIXED_FILE` -/
  fixedFile : Bool
  /-- `IOSQE_IO_LINK` -/
  ioLink : Bool
  deriving DecidableEq

/-- `io_uring_prep_rw`, which the functions of liburing below start with.  `len`
is passed as an `unsigned`. -/
def prepRw (opcode : Opcode) (fd : ℤ) (addr len off : ℕ) : Sqe where
  opcode := opcode
  fd := fd
  off := off
  addr := addr
  len := len % 2 ^ 32
  opFlags := 0
  bufIndex := 0
  ts := ⟨0, 0⟩
  room := 0
  fixedFile := false
  ioLink := false

/-- `sqe->flags |= IOSQE_FIXED_FILE` for an `fd_ref` that is `fixed`. -/
def Sqe.onFd (q : Sqe) (fd : FdRef) : Sqe :=
  { q with fixedFile := fd.fixed }

/-- `sqe->flags |= IOSQE_IO_LINK`. -/
def Sqe.linked (q : Sqe) : Sqe :=
  { q with ioLink := true }

/-! ## The functions -/

/-- A call of a function of `async_io.hpp`, or of `async_send_zc`, with its
arguments.  Pointers are addresses, and a null pointer is 0. -/
inductive Operation
  | asyncRead (fd : FdRef) (buf : Span) (timeout : Option ℤ)
  | asyncWrite (fd : FdRef) (buf : Span) (timeout : Option ℤ)
  /-- `room` is the `socklen_t` at `addrlen` -/
  | asyncAccept (fd : ℤ) (addr addrlen room : ℕ) (timeout : Option ℤ)
  | asyncOpenat (dirfd : ℤ) (path : ℕ) (flags : ℤ) (mode : ℕ)
      (timeout : Option ℤ)
  | asyncClose (fd : ℤ)
  | asyncConnect (fd : FdRef) (addr addrlen : ℕ) (timeout : Option ℤ)
  | asyncRecv (fd : FdRef) (buf : Span) (flags : ℤ) (timeout : Option ℤ)
  | asyncSend (fd : FdRef) (buf : Span) (flags : ℤ) (timeout : Option ℤ)
  | asyncSendRecv (fd : FdRef) (sendBuf recvBuf : Span)
      (sendFlags recvFlags : ℤ)
  | asyncWriteFsync (fd : FdRef) (buf : Span)
  | asyncSleepFor (duration : ℤ)
  /-- `nbytes` of the buffer with this index, which begins at `data` -/
  | asyncSendZc (fd : ℤ) (data nbytes : ℕ) (flags : ℤ) (bufIndex : ℕ)
  deriving DecidableEq

namespace Operation

def readSqe (fd : FdRef) (buf : Span) : Sqe :=
  (prepRw .read fd.index buf.data buf.size 0).onFd fd

def writeSqe (fd : FdRef) (buf : Span) : Sqe :=
  (prepRw .write fd.index buf.data buf.size 0).onFd fd

def recvSqe (fd : FdRef) (buf : Span) (flags : ℤ) : Sqe :=
  { (prepRw .recv fd.index buf.data buf.size 0).onFd fd with opFlags := flags }

def sendSqe (fd : FdRef) (buf : Span) (flags : ℤ) : Sqe :=
  { (prepRw .send fd.index buf.data buf.size 0).onFd fd with opFlags := flags }

/-- The SQEs whose handlers a call waits for. -/
def requests : Operation → List Sqe
  | .asyncRead fd buf _ => [readSqe fd buf]
  | .asyncWrite fd buf _ => [writeSqe fd buf]
  | .asyncAccept fd addr addrlen room _ =>
      [{ prepRw .accept fd addr 0 addrlen with room := room }]
  | .asyncOpenat dirfd path flags mode _ =>
      [{ prepRw .openat dirfd path mode 0 with opFlags := flags }]
  | .asyncClose fd => [prepRw .close fd 0 0 0]
  | .asyncConnect fd addr addrlen _ =>
      [(prepRw .connect fd.index addr 0 addrlen).onFd fd]
  | .asyncRecv fd buf flags _ => [recvSqe fd buf flags]
  | .asyncSend fd buf flags _ => [sendSqe fd buf flags]
  | .asyncSendRecv fd sendBuf recvBuf sendFlags recvFlags =>
      [(sendSqe fd sendBuf sendFlags).linked, recvSqe fd recvBuf recvFlags]
  | .asyncWriteFsync fd buf =>
      [(writeSqe fd buf).linked, (prepRw .fsync fd.index 0 0 0).onFd fd]
  | .asyncSleepFor duration =>
      if duration ≤ 0 then []
      else [{ prepRw .timeout (-1) 0 1 0 with ts := timespec duration }]
  | .asyncSendZc fd data nbytes flags bufIndex =>
      [{ prepRw .sendZc fd data nbytes 0 with
          opFlags := flags
          bufIndex := bufIndex }]

def timeout : Operation → Option ℤ
  | .asyncRead _ _ timeout | .asyncWrite _ _ timeout
  | .asyncAccept _ _ _ _ timeout | .asyncOpenat _ _ _ _ timeout
  | .asyncConnect _ _ _ timeout
  | .asyncRecv _ _ _ timeout | .asyncSend _ _ _ timeout => timeout
  | _ => none

/-- All SQEs of a call.  `submit_and_wait_with_timeout` links a timeout to the
one it is given. -/
def sqes (op : Operation) : List Sqe :=
  match op.timeout with
  | none => op.requests
  | some timeout =>
      op.requests.map Sqe.linked ++
        [{ prepRw .linkTimeout (-1) 0 1 0 with ts := timespec timeout }]

/-- The function of `fiber_context.cpp` that the call waits in. -/
def form : Operation → Form
  | .asyncSendRecv .. | .asyncWriteFsync .. => .linked
  | .asyncSendZc .. => .sendZc
  | op => if op.timeout.isSome then .timed else .oneShot

/-! ## The kinds of the SQEs -/

variable {κ : Type}

/-- The call as `Ring.Submission` knows it. -/
def call : Operation → Ring.Submission.Call κ
  | .asyncRead _ _ timeout => .asyncRead timeout
  | .asyncWrite _ _ timeout => .asyncWrite timeout
  | .asyncAccept _ _ _ _ timeout => .asyncAccept timeout
  | .asyncOpenat _ _ _ _ timeout => .asyncOpenat timeout
  | .asyncClose _ => .asyncClose
  | .asyncConnect _ _ _ timeout => .asyncConnect timeout
  | .asyncRecv _ _ _ timeout => .asyncRecv timeout
  | .asyncSend _ _ _ timeout => .asyncSend timeout
  | .asyncSendRecv .. => .asyncSendRecv
  | .asyncWriteFsync .. => .asyncWriteFsync
  | .asyncSleepFor duration => .asyncSleepFor duration
  | .asyncSendZc .. => .asyncSendZc

end Operation

/-- The kind of an SQE. -/
def Sqe.kind (q : Sqe) : Ring.Submission.Sqe :=
  match q.opcode with
  | .read => .read
  | .write => .write
  | .accept => .accept
  | .openat => .openat
  | .close => .close
  | .connect => .connect
  | .recv => .recv
  | .send => .send
  | .fsync => .fsync
  | .timeout => .timeout q.ts
  | .linkTimeout => .linkTimeout q.ts
  | .sendZc => .sendZc

namespace Operation

variable {κ : Type}

/-- The calls take the SQEs that `Ring.Submission` says.  A submit that fails
leaves them in the queue. -/
theorem queue_of_failed_submit
    [DecidableEq κ] (op : Operation) (w : Ring.Submission.World κ) :
    ((op.call.code w ⟨true, false⟩).run kRingEntries (fun _ => -1) []).queue =
      op.sqes.map Sqe.kind := by
  cases op with
  | asyncRead _ _ timeout | asyncWrite _ _ timeout
  | asyncAccept _ _ _ _ timeout | asyncOpenat _ _ _ _ timeout
  | asyncConnect _ _ _ timeout
  | asyncRecv _ _ _ timeout | asyncSend _ _ _ timeout =>
      cases timeout <;> rfl
  | asyncSleepFor duration =>
      by_cases hle : duration ≤ 0 <;>
        simp only [call, Ring.Submission.Call.code,
          Ring.Submission.asyncSleepFor, sqes, timeout, requests, hle, if_true,
          if_false] <;>
        rfl
  | _ => rfl

end Operation

end Fiberexec.AsyncIo
