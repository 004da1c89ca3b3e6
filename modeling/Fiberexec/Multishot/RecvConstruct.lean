import Fiberexec.Multishot.RecvStream
import Fiberexec.Support.Error
import Fiberexec.Support.Platform

/-!
# The constructor of a receiver

`RecvStream` starts with an object that is armed.  Here is what its constructor
does before: it takes the id of its buffer group from a counter of the thread,
allocates its buffers in one piece, registers a buffer ring for the group and
provides every buffer to the kernel with its address, length and id.

Sizes are computed in 64 bits; the kernel's interface takes lengths in 32 bits
and ids in 16.
-/

namespace Fiberexec.Multishot.Recv

open Support

/-! ## The buffers -/

/-- A part of `buf_storage_`. -/
structure Span where
  offset : ℕ
  size : ℕ
  deriving DecidableEq

/-- An entry of the buffer ring: where a buffer is, its length and its id. -/
structure Provided where
  addr : ℕ
  len : ℕ
  bid : ℕ
  deriving DecidableEq

/-- The part of the storage that the kernel may write for an entry. -/
def Provided.span (p : Provided) : Span :=
  ⟨p.addr, p.len⟩

/-- The members of `multishot_recv` that say where its buffers are. -/
structure Buffers where
  bgid : ℕ
  bufSize : ℕ
  /-- `buf_count_` -/
  bufCount : ℕ
  /-- the size of `buf_storage_` -/
  storage : ℕ
  /-- what the constructor provides -/
  provided : List Provided
  deriving DecidableEq

/-- `io_uring_buf_ring_add` of the `i`-th buffer, in the constructor. -/
def provide (bufSize i : ℕ) : Provided :=
  ⟨i * bufSize % 2 ^ 64, bufSize % 2 ^ 32, i % 2 ^ 16⟩

/-- `return_buffer`. -/
def Buffers.returnBuffer (b : Buffers) (bufId : ℕ) : Provided :=
  ⟨bufId * b.bufSize % 2 ^ 64, b.bufSize % 2 ^ 32, bufId⟩

/-- `received_buffer::data`, for a message of `size` bytes. -/
def Buffers.data (b : Buffers) (bufId size : ℕ) : Span :=
  ⟨bufId * b.bufSize % 2 ^ 64, size⟩

/-! ## The constructor -/

/-- What the constructor uses of its thread. -/
structure Thread where
  /-- `tl_next_bgid` -/
  nextBgid : ℕ
  /-- the buffer groups registered with the ring -/
  groups : List ℕ
  deriving DecidableEq

/-- What the constructor finds: a ring, memory for the buffers, what the kernel
says of an acceptable buffer ring, an entry of the submission queue, and what
`io_uring_submit` returns. -/
structure Answers where
  onWorker : Bool
  allocated : Bool
  setup : ℤ
  gotSqe : Bool
  submitted : ℤ
  deriving DecidableEq

/-- Everything goes well. -/
def Answers.good : Answers :=
  ⟨true, true, 0, true, 1⟩

/-- The error of `io_uring_setup_buf_ring`, or what is not negative. -/
def Thread.setupBufRing (t : Thread) (count bgid : ℕ) (setup : ℤ) : ℤ :=
  -- `-EINVAL`
  if ¬Stream.setupAccepts count then -22
  -- `-EEXIST`
  else if bgid ∈ t.groups then -17
  else setup

/-- The constructor.  When the ring is full or the submission fails it frees the
buffer ring again.  A `buf_count` over `2 ^ 63` has no `bit_ceil`; here it is
one more count that the kernel does not take. -/
def construct (t : Thread) (a : Answers) (bufSize bufCount : ℕ) :
    Thread × Except Error Buffers :=
  let bgid := t.nextBgid
  let t := { t with nextBgid := (t.nextBgid + 1) % 2 ^ 16 }
  let count := bitCeil bufCount
  let storage := bufSize * count % 2 ^ 64
  let ret := t.setupBufRing count bgid a.setup
  if bufSize = 0 ∨ bufCount = 0 then
    (t, .error (.invalidArgument
      "multishot_recv: buf_size and buf_count must be non-zero"))
  else if a.onWorker = false then
    (t, .error (.runtimeError
      "multishot_recv constructed outside of a fiberexec fiber"))
  else if maxBytes < storage then (t, .error .lengthError)
  else if a.allocated = false then (t, .error .badAlloc)
  else if ret < 0 then
    (t, .error (.systemError (-ret) "io_uring_setup_buf_ring"))
  else if a.gotSqe = false then
    (t, .error (.runtimeError "multishot_recv: io_uring ring full"))
  else if a.submitted < 0 then
    (t, .error (.systemError (-a.submitted) "io_uring_submit (multishot_recv)"))
  else
    ({ t with groups := t.groups ++ [bgid] },
      .ok
        { bgid := bgid
          bufSize := bufSize
          bufCount := count
          storage := storage
          provided := (List.range count).map (provide bufSize) })

/-- How the constructor can end. -/
inductive Constructs (t : Thread) (a : Answers) (bufSize bufCount : ℕ) :
    Thread × Except Error Buffers → Prop
  | throws (e : Error) :
      Constructs t a bufSize bufCount
        ({ t with nextBgid := (t.nextBgid + 1) % 2 ^ 16 }, .error e)
  | ok (hsize : ¬(bufSize = 0 ∨ bufCount = 0)) (hworker : ¬a.onWorker = false)
      (hstorage : ¬maxBytes < bufSize * bitCeil bufCount % 2 ^ 64)
      (hallocated : ¬a.allocated = false)
      (haccepts : Stream.setupAccepts (bitCeil bufCount))
      (hnew : t.nextBgid ∉ t.groups) (hsqe : ¬a.gotSqe = false)
      (hsubmitted : ¬a.submitted < 0) :
      Constructs t a bufSize bufCount
        (⟨(t.nextBgid + 1) % 2 ^ 16, t.groups ++ [t.nextBgid]⟩,
          .ok
            { bgid := t.nextBgid
              bufSize := bufSize
              bufCount := bitCeil bufCount
              storage := bufSize * bitCeil bufCount % 2 ^ 64
              provided :=
                (List.range (bitCeil bufCount)).map (provide bufSize) })

/-- The kernel accepts a buffer ring of a new group only. -/
theorem of_setupBufRing
    {t : Thread} {count bgid : ℕ} {setup : ℤ}
    (h : ¬t.setupBufRing count bgid setup < 0) :
    Stream.setupAccepts count ∧ bgid ∉ t.groups := by
  rw [Thread.setupBufRing] at h
  split at h
  · exact absurd h (by decide)
  next haccepts =>
    split at h
    · exact absurd h (by decide)
    next hnew => exact ⟨not_not.mp haccepts, hnew⟩

/-- Every check of the constructor throws or goes on to the next one. -/
theorem constructs (t : Thread) (a : Answers) (bufSize bufCount : ℕ) :
    Constructs t a bufSize bufCount (construct t a bufSize bufCount) := by
  unfold construct
  refine iteInduction (fun _ => .throws _) fun hsize => ?_
  refine iteInduction (fun _ => .throws _) fun hworker => ?_
  refine iteInduction (fun _ => .throws _) fun hstorage => ?_
  refine iteInduction (fun _ => .throws _) fun hallocated => ?_
  refine iteInduction (fun _ => .throws _) fun hret => ?_
  refine iteInduction (fun _ => .throws _) fun hsqe => ?_
  refine iteInduction (fun _ => .throws _) fun hsubmitted => ?_
  obtain ⟨haccepts, hnew⟩ := of_setupBufRing hret
  exact .ok hsize hworker hstorage hallocated haccepts hnew hsqe hsubmitted

theorem construct_snd_eq (t : Thread) (a : Answers) (bufSize bufCount : ℕ) :
    (construct t a bufSize bufCount).2 =
      match (construct t { a with gotSqe := true, submitted := 0 } bufSize
        bufCount).2 with
      | .error e => .error e
      | .ok b =>
          if a.gotSqe = false then
            .error (.runtimeError "multishot_recv: io_uring ring full")
          else if a.submitted < 0 then
            .error (.systemError (-a.submitted)
              "io_uring_submit (multishot_recv)")
          else .ok b := by
  unfold construct
  dsimp only
  by_cases hsize : bufSize = 0 ∨ bufCount = 0
  · rw [if_pos hsize, if_pos hsize]
  rw [if_neg hsize, if_neg hsize]
  by_cases hworker : a.onWorker = false
  · rw [if_pos hworker, if_pos hworker]
  rw [if_neg hworker, if_neg hworker]
  by_cases hstorage : maxBytes < bufSize * bitCeil bufCount % 2 ^ 64
  · rw [if_pos hstorage, if_pos hstorage]
  rw [if_neg hstorage, if_neg hstorage]
  by_cases hallocated : a.allocated = false
  · rw [if_pos hallocated, if_pos hallocated]
  rw [if_neg hallocated, if_neg hallocated]
  generalize Thread.setupBufRing _ _ _ _ = ret
  by_cases hret : ret < 0
  · rw [if_pos hret, if_pos hret]
  rw [if_neg hret, if_neg hret, apply_ite Prod.snd, apply_ite Prod.snd]
  rfl

theorem construct_nextBgid
    (t : Thread) (a : Answers) (bufSize bufCount : ℕ) :
    (construct t a bufSize bufCount).1.nextBgid =
      (t.nextBgid + 1) % 2 ^ 16 := by
  have h := constructs t a bufSize bufCount
  generalize construct t a bufSize bufCount = r at h ⊢
  cases h <;> rfl

theorem construct_eq_ok
    {t : Thread} {a : Answers} {bufSize bufCount : ℕ} {b : Buffers}
    (h : (construct t a bufSize bufCount).2 = .ok b) :
    b.bgid = t.nextBgid ∧ t.nextBgid ∉ t.groups ∧
      (construct t a bufSize bufCount).1.groups = t.groups ++ [t.nextBgid] ∧
      b.bufSize = bufSize ∧ b.bufCount = bitCeil bufCount ∧
      b.storage = bufSize * bitCeil bufCount % 2 ^ 64 ∧
      b.provided =
        (List.range (bitCeil bufCount)).map (provide bufSize) := by
  have hcases := constructs t a bufSize bufCount
  generalize construct t a bufSize bufCount = r at h hcases ⊢
  cases hcases with
  | throws e => cases h
  | ok _ _ _ _ _ hnew _ _ =>
      obtain rfl := Except.ok.inj h
      exact ⟨rfl, hnew, rfl, rfl, rfl, rfl, rfl⟩

/-- An object that is constructed is the one that `RecvStream` starts with: its
buffer ring holds the ids that were provided. -/
theorem stream_construct_of_ok
    {t : Thread} {a : Answers} {bufSize bufCount : ℕ} {b : Buffers}
    (h : (construct t a bufSize bufCount).2 = .ok b) :
    ∃ s, Stream.construct bufSize bufCount a.gotSqe a.submitted = .ok s ∧
      s.object.bufRing = some (b.provided.map Provided.bid) := by
  have hcases := constructs t a bufSize bufCount
  generalize construct t a bufSize bufCount = r at h hcases
  cases hcases with
  | throws e => cases h
  | ok hsize _ _ _ haccepts _ hsqe hsubmitted =>
      obtain rfl := Except.ok.inj h
      refine ⟨Stream.initial (bitCeil bufCount), ?_, ?_⟩
      · simp [Stream.construct, hsize, haccepts, hsqe, hsubmitted]
      · simp [Stream.initial, provide, Function.comp_def]

end Fiberexec.Multishot.Recv
