import Fiberexec.Resources.Channel
import Fiberexec.Support.Error
import Fiberexec.Support.Handles
import Fiberexec.Support.Machine

/-!
# The table of registered file descriptors

`fixed_fd_table` registers a table of empty slots with the ring of its worker
and keeps the numbers of the free ones in a channel.  `acquire_fd_slot` takes a
slot off the channel, suspending the fiber while there is none, and installs a
descriptor in it; the `fd_slot` it returns clears the slot and puts its number
back when it is destroyed or overwritten.

All fibers that use a table run on one thread, so a function that does not
suspend is one step.  The kernel's answer to an update is part of the step.  As
the fibers rely on it, clearing a slot of the table succeeds.
-/

namespace Fiberexec.Resources.FdTable

open Support

/-- `fd_slot`: `owner` tells whether `table_` is not null, and `key` is
`slot_`. -/
abbrev FdSlot :=
  Handle ℕ

/-- The table of a worker, with the slots that the kernel has registered for
its ring and the `fd_slot`s that exist. -/
structure State where
  /-- the registered descriptors; an empty slot has `-1` -/
  files : List ℤ
  freeList : Channel ℕ
  slots : Handles ℕ
  /-- the descriptors of the fibers suspended in `borrow_slot` -/
  waiting : List ℤ
  /-- a `noexcept` function has thrown -/
  terminated : Bool
  /-- `release_slot` was refused, or had to suspend -/
  unreleased : Bool
  /-- the slots that were taken for an acquire that has thrown -/
  lost : List ℕ
  deriving DecidableEq

/-- The descriptor registered in a slot. -/
def State.fileAt (s : State) (slot : ℕ) : ℤ :=
  (s.files[slot]?).getD (-1)

/-! ## The constructor -/

/-- `max_size` of a vector of `int`. -/
def maxSlots : ℕ :=
  2 ^ 61 - 1

/-- The constructor.  `ringAllocated` and `slotsAllocated` tell whether there is
memory for the channel and for the vector, `registered` is what
`io_uring_register_files` returns.  The capacity is passed as an
`unsigned`. -/
def construct (onWorker ringAllocated slotsAllocated : Bool) (capacity : ℕ)
    (registered : ℤ) : Except Error State :=
  match Channel.construct capacity with
  | none => .error .fiberError
  | some freeList =>
      if ringAllocated = false then .error .badAlloc
      else if onWorker = false then
        .error (.runtimeError
          "fixed_fd_table constructed outside of a fiberexec worker thread")
      else if capacity = 0 then
        .error (.invalidArgument "fixed_fd_table: capacity must be non-zero")
      else if maxSlots < capacity then .error .lengthError
      else if slotsAllocated = false then .error .badAlloc
      else if registered < 0 then
        .error (.systemError (-registered) "io_uring_register_files")
      else
        let count := capacity % 2 ^ 32
        .ok
          { files := List.replicate count (-1)
            freeList := (List.range count).foldl
              (fun c i => (c.tryPush i).2) freeList
            slots := []
            waiting := []
            terminated := false
            unreleased := false
            lost := [] }

/-! ## The functions -/

/-- `io_uring_register_files_update` of one slot.  `r` is the kernel's answer,
and `left` what the slot holds when it is an error.  A descriptor of `-2` is
`IORING_REGISTER_FILES_SKIP`. -/
def registerFilesUpdate (files : List ℤ) (slot : ℕ) (fd r left : ℤ) :
    ℤ × List ℤ :=
  -- `-EINVAL`
  if files.length ≤ slot then (-22, files)
  else if r < 0 then (r, files.set slot left)
  else if fd = -2 then (r, files)
  else (r, files.set slot fd)

/-- `fixed_fd_table::update`. -/
def State.update (s : State) (slot : ℕ) (fd r left : ℤ) :
    State × Option Error :=
  let answer := registerFilesUpdate s.files slot fd r left
  ({ s with files := answer.2 },
    if answer.1 < 0 then
      some (.systemError (-answer.1) "io_uring_register_files_update")
    else none)

/-- `update(slot_, -1)` in the `noexcept` members of `fd_slot`. -/
def State.clear (s : State) (slot : ℕ) : State :=
  match s.update slot (-1) 1 (-1) with
  | (s, none) => s
  | (s, some _) => { s with terminated := true }

/-- `release_slot`. -/
def State.releaseSlot (s : State) (slot : ℕ) : State :=
  match s.freeList.push slot with
  | some (.success, freeList) => { s with freeList := freeList }
  | _ => { s with unreleased := true }

/-- `~fd_slot`, and the first lines of its move assignment. -/
def State.giveBack (s : State) (h : FdSlot) : State :=
  if h.owner = true then (s.clear h.key).releaseSlot h.key else s

/-- What a function does for its caller. -/
inductive Outcome
  | returned (slot : ℕ)
  | suspended
  | throws (e : Error)
  deriving DecidableEq

/-- The rest of `acquire_fd_slot` once it has a slot. -/
def State.install (s : State) (slot : ℕ) (fd r left : ℤ) : State × Outcome :=
  match s.update slot fd r left with
  | (s, none) => ({ s with slots := s.slots.take slot }, .returned slot)
  | (s, some e) => ({ s with lost := s.lost ++ [slot] }, .throws e)

/-- `acquire_fd_slot`.  The thread-local pointer is null once the table is
closed. -/
def State.acquire (s : State) (fd r left : ℤ) : State × Outcome :=
  if s.freeList.closed = true then
    (s, .throws (.runtimeError
      "acquire_fd_slot called without registered_fd_capacity configured in context_options"))
  else
    match s.freeList.pop with
    | none => ({ s with waiting := s.waiting ++ [fd] }, .suspended)
    | some (.success, some slot, freeList) =>
        { s with freeList := freeList }.install slot fd r left
    | some _ =>
        (s, .throws (.runtimeError "fixed_fd_table: table closed"))

/-- The `i`-th suspended `acquire_fd_slot` is resumed. -/
def State.resume (s : State) (i : ℕ) (fd r left : ℤ) : State × Outcome :=
  match s.freeList.pop with
  | none => (s, .suspended)
  | some (.success, some slot, freeList) =>
      { s with
        freeList := freeList
        waiting := s.waiting.eraseIdx i }.install slot fd r left
  | some _ =>
      ({ s with waiting := s.waiting.eraseIdx i },
        .throws (.runtimeError "fixed_fd_table: table closed"))

/-! ## The system -/

/-- The steps. -/
inductive Event
  | acquire (fd r left : ℤ)
  | resume (i : ℕ) (fd r left : ℤ)
  /-- `fd_slot::update` -/
  | update (i : ℕ) (h : FdSlot) (fd r left : ℤ)
  | moveConstruct (src : ℕ) (h : FdSlot)
  /-- `dst = src` is an assignment to itself -/
  | moveAssign (dst src : ℕ) (d h : FdSlot)
  | destroy (i : ℕ) (h : FdSlot)
  /-- `~fixed_fd_table` -/
  | close
  deriving DecidableEq

/-- When a step may be taken.  `update` is called on an `fd_slot` that owns a
slot, and the table is destroyed when all fibers have ended. -/
def enabled (s : State) : Event → Prop
  | .acquire _ _ _ => True
  | .resume i fd _ _ => s.waiting[i]? = some fd
  | .update i h _ _ _ => s.slots[i]? = some (some h) ∧ h.owner = true
  | .moveConstruct src h => s.slots[src]? = some (some h)
  | .moveAssign dst src d h =>
      s.slots[dst]? = some (some d) ∧ s.slots[src]? = some (some h)
  | .destroy i h => s.slots[i]? = some (some h)
  | .close => s.freeList.closed = false ∧ s.slots.owned = [] ∧ s.waiting = []

/-- What a step does. -/
def effect (s : State) : Event → State
  | .acquire fd r left => (s.acquire fd r left).1
  | .resume i fd r left => (s.resume i fd r left).1
  | .update _ h fd r left => (s.update h.key fd r left).1
  | .moveConstruct src h => { s with slots := s.slots.moveConstruct src h }
  | .moveAssign dst src d h =>
      if dst = src then s
      else
        { s.giveBack d with
          slots := s.slots.moveAssign dst src h }
  | .destroy i h => { s.giveBack h with slots := s.slots.destroy i }
  | .close =>
      { s with
        freeList := s.freeList.close
        files := [] }

/-- What a call of `acquire_fd_slot` does for its caller in a step. -/
def outcome (s : State) : Event → Option Outcome
  | .acquire fd r left => some (s.acquire fd r left).2
  | .resume i fd r left => some (s.resume i fd r left).2
  | _ => none

/-- The tables of a capacity that the constructor accepts, as a system of
steps. -/
def machine (capacity : ℕ) : Machine State Event where
  init := fun s => ∃ onWorker ringAllocated slotsAllocated registered,
    construct onWorker ringAllocated slotsAllocated capacity registered = .ok s
  enabled := enabled
  effect := effect

instance (capacity : ℕ) (s : State) (e : Event) :
    Decidable ((machine capacity).enabled s e) :=
  match e with
  | .acquire _ _ _ => .isTrue trivial
  | .resume i fd _ _ => inferInstanceAs (Decidable (s.waiting[i]? = some fd))
  | .update i h _ _ _ =>
      inferInstanceAs (Decidable
        (s.slots[i]? = some (some h) ∧ h.owner = true))
  | .moveConstruct src h =>
      inferInstanceAs (Decidable (s.slots[src]? = some (some h)))
  | .moveAssign dst src d h =>
      inferInstanceAs (Decidable
        (s.slots[dst]? = some (some d) ∧ s.slots[src]? = some (some h)))
  | .destroy i h => inferInstanceAs (Decidable (s.slots[i]? = some (some h)))
  | .close =>
      inferInstanceAs (Decidable (s.freeList.closed = false ∧
        s.slots.owned = [] ∧ s.waiting = []))

end Fiberexec.Resources.FdTable
