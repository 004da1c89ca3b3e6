import Fiberexec.Ring.Submission
import Mathlib.Data.Finset.Defs
import Mathlib.Data.Fintype.EquivFin

/-!
# Failed submissions

A function that submits SQEs for a handler of its own throws when
`io_uring_submit` returns an error, and `submit_and_wait_with_timeout` also when
it gets no SQE for the timeout.  Its handlers are destroyed on the way out, but
the SQEs that carry their addresses stay in the ring: `io_uring_submit` has
published them before it entered the kernel, which returns an error only when
it has consumed none, and nothing takes them back.  The next successful submit,
whoever makes it, hands them to the kernel.
-/

namespace Fiberexec.Ring.Failure

open Support

/-! ## The ring and its handlers -/

/-- The ring of a worker.  SQEs, requests held by the kernel and CQEs are given
by their `user_data`.  `dangling` records the addresses at which `complete` was
called though no handler lived there. -/
structure State where
  sq : List ℕ
  kernel : List ℕ
  cq : List ℕ
  handlers : List ℕ
  dangling : List ℕ
  deriving DecidableEq

/-- SQEs with these addresses are prepared, and the handlers there are alive. -/
def State.prepare (s : State) (addrs : List ℕ) : State :=
  { s with
    sq := s.sq ++ addrs
    handlers := addrs ++ s.handlers }

/-- The handlers at these addresses are destroyed. -/
def State.unwind (s : State) (addrs : List ℕ) : State :=
  { s with handlers := s.handlers.filter (fun a => decide (a ∉ addrs)) }

/-- `io_uring_submit` with this result. -/
def State.submit (s : State) (ret : ℤ) : State :=
  if ret < 0 then s
  else
    { s with
      sq := []
      kernel := s.kernel ++ s.sq }

/-- Submit, and throw on an error. -/
def State.submitOrThrow (s : State) (addrs : List ℕ) (ret : ℤ) (what : String) :
    State × Option Error :=
  if ret < 0 then
    ((s.submit ret).unwind addrs, some (.systemError (-ret) what))
  else (s.submit ret, none)

/-- `submit_and_wait` up to its wait. -/
def submitAndWait (addr : ℕ) (ret : ℤ) (s : State) : State × Option Error :=
  (s.prepare [addr]).submitOrThrow [addr] ret "io_uring_submit"

/-- `submit_and_wait_with_timeout` up to its wait. -/
def submitAndWaitWithTimeout (addr : ℕ) (ret : ℤ) (s : State) :
    State × Option Error :=
  let s := s.prepare [addr]
  if s.sq.length < kRingEntries then
    { s with sq := s.sq ++ [kCancelTag] }.submitOrThrow [addr] ret
      "io_uring_submit"
  else
    (s.unwind [addr],
      some (.runtimeError "submit_and_wait_with_timeout: io_uring ring full"))

/-- `submit_linked_and_wait` up to its wait. -/
def submitLinkedAndWait (addrs : List ℕ) (ret : ℤ) (s : State) :
    State × Option Error :=
  (s.prepare addrs).submitOrThrow addrs ret "io_uring_submit (linked chain)"

/-- `async_send_zc` up to its wait. -/
def asyncSendZc (addr : ℕ) (ret : ℤ) (s : State) : State × Option Error :=
  (s.prepare [addr]).submitOrThrow [addr] ret "io_uring_submit (async_send_zc)"

/-- The constructor of `multishot_acceptor`. -/
def multishotAcceptor (addr : ℕ) (ret : ℤ) (s : State) :
    State × Option Error :=
  (s.prepare [addr]).submitOrThrow [addr] ret
    "io_uring_submit (multishot_accept)"

/-- The constructor of `multishot_recv`. -/
def multishotRecv (addr : ℕ) (ret : ℤ) (s : State) : State × Option Error :=
  (s.prepare [addr]).submitOrThrow [addr] ret "io_uring_submit (multishot_recv)"

/-- A call of one of these functions, with the addresses of its handlers. -/
inductive Call
  | submitAndWait (addr : ℕ)
  | submitAndWaitWithTimeout (addr : ℕ)
  | submitLinkedAndWait (addrs : List ℕ)
  | asyncSendZc (addr : ℕ)
  | multishotAcceptor (addr : ℕ)
  | multishotRecv (addr : ℕ)
  deriving DecidableEq

def Call.addrs : Call → List ℕ
  | .submitLinkedAndWait addrs => addrs
  | .submitAndWait addr | .submitAndWaitWithTimeout addr | .asyncSendZc addr
  | .multishotAcceptor addr | .multishotRecv addr => [addr]

/-- Run a call with this result of `io_uring_submit`. -/
def Call.run (c : Call) (ret : ℤ) (s : State) : State × Option Error :=
  match c with
  | .submitAndWait addr => Failure.submitAndWait addr ret s
  | .submitAndWaitWithTimeout addr =>
      Failure.submitAndWaitWithTimeout addr ret s
  | .submitLinkedAndWait addrs => Failure.submitLinkedAndWait addrs ret s
  | .asyncSendZc addr => Failure.asyncSendZc addr ret s
  | .multishotAcceptor addr => Failure.multishotAcceptor addr ret s
  | .multishotRecv addr => Failure.multishotRecv addr ret s

/-! ## The calls as code -/

section Code

variable {κ : Type} [DecidableEq κ] (w : Submission.World κ) (i : κ)
  (frame : Submission.Frame κ) (thread : Multishot.Recv.Thread)
  (answers : Multishot.Recv.Answers) (bufSize bufCount : ℕ)

/-- A call as `Submission` has it, from the SQEs that its caller takes on.  There an
SQE has its kind and no address. -/
def Call.code : Call → Submission.Prog (Submission.World κ × Submission.Stop κ)
  | .submitAndWait _ => Submission.plain w do
      Code.getUnchecked .read
      Submission.submitAndWait frame
  | .submitAndWaitWithTimeout _ => Submission.plain w do
      Code.getUnchecked .read
      Submission.submitAndWaitWithTimeout 0 frame
  | .submitLinkedAndWait addrs => do
      addrs.forM fun _ => Code.getUnchecked .read
      Submission.plain w
        (Submission.submitLinkedAndWait addrs.length addrs.length frame)
  | .asyncSendZc _ => Submission.plain w (Submission.asyncSendZc ⟨true, false⟩)
  | .multishotAcceptor _ => Submission.multishotAcceptor w ⟨true, false⟩ i
  | .multishotRecv _ =>
      Submission.multishotRecv w ⟨true, false⟩ i thread answers bufSize bufCount

/-- The number of SQEs that code leaves in the queue, and what it throws. -/
def outcome {β : Type} (c : Submission.Prog β) (ret : ℤ)
    (q : List Submission.Sqe) : ℕ × Option Error :=
  let o := c.run kRingEntries (fun _ => ret) q
  (o.queue.length,
    match o.ending with
    | .threw e => some e
    | _ => none)

variable {w i frame thread answers bufSize bufCount} {ret : ℤ} {s : State}
  {q : List Submission.Sqe}

omit [DecidableEq κ] in
theorem outcome_submit
    {β : Type} {k : ℤ → Submission.Prog β} {what : String}
    (hq : q.length = s.sq.length)
    (hfail : ret < 0 → k ret = .raise (.systemError (-ret) what))
    (hok : ¬ret < 0 → ∃ b, k ret = .done b) (addrs : List ℕ) :
    outcome (.submit k) ret q =
      ((s.submitOrThrow addrs ret what).1.sq.length,
        (s.submitOrThrow addrs ret what).2) := by
  by_cases hret : ret < 0
  · simp [outcome, Code.run, State.submitOrThrow, State.submit, State.unwind, hret,
      hq, hfail hret]
  · obtain ⟨b, hb⟩ := hok hret
    simp [outcome, Code.run, State.submitOrThrow, State.submit, hret, hb]

omit [DecidableEq κ] in
theorem outcome_get
    {β : Type} (hroom : q.length < kRingEntries) (sqe : Submission.Sqe)
    (k : Bool → Submission.Prog β) :
    outcome (.get sqe k) ret q = outcome (k true) ret (q ++ [sqe]) := by
  rw [outcome, Code.run, if_pos hroom]
  rfl

omit [DecidableEq κ] in
theorem outcome_get_of_full
    {β : Type} (hfull : ¬q.length < kRingEntries) (sqe : Submission.Sqe)
    (k : Bool → Submission.Prog β) :
    outcome (.get sqe k) ret q = outcome (k false) ret q := by
  rw [outcome, Code.run, if_neg hfull]
  rfl

omit [DecidableEq κ] in
theorem outcome_forM
    {β : Type} (c : Submission.Prog β) (ret : ℤ) {addrs : List ℕ}
    (hroom : q.length + addrs.length ≤ kRingEntries) :
    ∃ q' : List Submission.Sqe, q'.length = q.length + addrs.length ∧
      outcome ((addrs.forM fun _ => Code.getUnchecked .read) >>= fun _ => c) ret q =
        outcome c ret q' := by
  induction addrs generalizing q with
  | nil => exact ⟨q, rfl, rfl⟩
  | cons addr addrs ih =>
      rw [List.length_cons] at hroom
      obtain ⟨q', hlength, hrun⟩ := ih (q := q ++ [.read])
        (by rw [List.length_append, List.length_singleton]; omega)
      refine ⟨q', ?_, ?_⟩
      · rw [hlength, List.length_append, List.length_singleton, List.length_cons]
        omega
      · rw [← hrun]
        exact outcome_get (by omega) _ _

/-- The calls leave as many SQEs and throw the same as the code does. -/
theorem run_eq_outcome
    {c : Call} (hq : q.length = s.sq.length) (hpos : 1 ≤ c.addrs.length)
    (hmax : c.addrs.length ≤ kMaxLinkedOps)
    (hroom : s.sq.length + c.addrs.length ≤ kRingEntries)
    {b : Multishot.Recv.Buffers}
    (hb : (Multishot.Recv.construct thread
      { answers with onWorker := true, gotSqe := true, submitted := 0 }
      bufSize bufCount).2 = .ok b) :
    outcome (c.code w i frame thread answers bufSize bufCount) ret q =
      ((c.run ret s).1.sq.length, (c.run ret s).2) := by
  have hlt : q.length < kRingEntries := by omega
  have hnext : ∀ sqe addr, (q ++ [sqe]).length = (s.prepare [addr]).sq.length := by
    simp [State.prepare, hq]
  cases c with
  | submitAndWait addr =>
      refine (outcome_get hlt _ _).trans ?_
      exact outcome_submit (hnext .read addr) (fun hret => by simp [Code.bind, hret])
        (fun hret => by simp [Code.bind, pure, hret]) [addr]
  | submitAndWaitWithTimeout addr =>
      refine (outcome_get hlt _ _).trans ?_
      simp only [Call.run, submitAndWaitWithTimeout]
      by_cases hroom' : (s.prepare [addr]).sq.length < kRingEntries
      · rw [if_pos hroom']
        refine (outcome_get (by rwa [hnext .read addr]) _ _).trans ?_
        refine outcome_submit ?_ (fun hret => by simp [Code.bind, hret])
          (fun hret => by simp [Code.bind, pure, hret]) [addr]
        rw [List.length_append, hnext .read addr, List.length_append]
        rfl
      · rw [if_neg hroom']
        refine (outcome_get_of_full (by rwa [hnext .read addr]) _ _).trans ?_
        exact congrArg (·, _) (hnext .read addr)
  | submitLinkedAndWait addrs =>
      have hroom' : q.length + addrs.length ≤ kRingEntries := by
        rw [hq]
        exact hroom
      obtain ⟨q', hlength, hrun⟩ := outcome_forM (Submission.plain w
        (Submission.submitLinkedAndWait addrs.length addrs.length frame)) ret hroom'
      have hchain : ¬(addrs.length = 0 ∨ kMaxLinkedOps < addrs.length ∨
          addrs.length ≠ addrs.length) := by
        simp only [Call.addrs] at hpos hmax
        omega
      refine hrun.trans ?_
      simp only [Submission.submitLinkedAndWait, if_neg hchain]
      refine outcome_submit ?_ (fun hret => by simp [Code.bind, hret])
        (fun hret => by simp [Code.bind, pure, hret]) addrs
      rw [hlength, hq, State.prepare, List.length_append]
  | asyncSendZc addr =>
      refine (outcome_get hlt _ _).trans ?_
      exact outcome_submit (hnext .sendZc addr)
        (fun hret => by simp [Code.bind, hret])
        (fun hret => by simp [Code.bind, pure, hret]) [addr]
  | multishotAcceptor addr =>
      refine (outcome_get hlt _ _).trans ?_
      exact outcome_submit (hnext .multishotAccept addr)
        (fun hret => by simp [Code.bind, hret])
        (fun hret => by simp [Code.bind, pure, hret]) [addr]
  | multishotRecv addr =>
      simp only [Call.code, Submission.multishotRecv, hb]
      refine (outcome_get hlt _ _).trans ?_
      exact outcome_submit (hnext .recvMultishot addr)
        (fun hret => by simp [Code.bind, hret])
        (fun hret => by simp [Code.bind, pure, hret]) [addr]

end Code

/-! ## The system -/

/-- The atomic steps. -/
inductive Event
  /-- a fiber makes a call; `ret` is what `io_uring_submit` returns -/
  | call (c : Call) (ret : ℤ)
  /-- a call returns, or an object is destroyed, with all its CQEs drained -/
  | finish (c : Call)
  /-- a cancel is submitted -/
  | cancel (ret : ℤ)
  /-- the kernel posts a CQE of a request, and keeps the request if `more` -/
  | post (i : ℕ) (userData : ℕ) (more : Bool)
  /-- one turn of `drain_cqes`; `rearm` is the result of the submit, if the
  request is armed again -/
  | drain (rearm : Option ℤ)
  deriving DecidableEq

/-- When a step may be taken.  The SQEs of a call were obtained by its caller. -/
def enabled (s : State) : Event → Prop
  | .call c _ =>
      1 ≤ c.addrs.length ∧ c.addrs.length ≤ kMaxLinkedOps ∧
        s.sq.length + c.addrs.length ≤ kRingEntries ∧ c.addrs.Nodup ∧
        ∀ a ∈ c.addrs, kCancelTag < a ∧ a ∉ s.handlers
  | .finish c =>
      ∀ a ∈ c.addrs,
        a ∈ s.handlers ∧ a ∉ s.sq ∧ a ∉ s.kernel ∧ a ∉ s.cq
  | .cancel _ => s.sq.length < kRingEntries
  | .post i userData _ => s.kernel[i]? = some userData
  | .drain rearm =>
      s.cq ≠ [] ∧ (rearm.isSome = true → s.sq.length < kRingEntries)

/-- `complete` of the handler at this address is called, or one of the tags is
handled. -/
def State.dispatch (s : State) (userData : ℕ) : State :=
  if userData ≤ kCancelTag ∨ userData ∈ s.handlers then s
  else { s with dangling := s.dangling ++ [userData] }

/-- A request is armed again, if it is, and submitted. -/
def State.rearm (s : State) (userData : ℕ) : Option ℤ → State
  | none => s
  | some ret => { s with sq := s.sq ++ [userData] }.submit ret

/-- What a step does. -/
def effect (s : State) : Event → State
  | .call c ret => (c.run ret s).1
  | .finish c => s.unwind c.addrs
  | .cancel ret => { s with sq := s.sq ++ [kCancelTag] }.submit ret
  | .post i userData more =>
      { s with
        kernel := if more = true then s.kernel else s.kernel.eraseIdx i
        cq := s.cq ++ [userData] }
  | .drain rearm =>
      match s.cq with
      | [] => s
      | userData :: cq =>
          ({ s with cq := cq }.dispatch userData).rearm userData rearm

/-- The ring with the two reads of the scheduler armed. -/
def initial : State where
  sq := []
  kernel := [kWorkTag, kNotifyTag]
  cq := []
  handlers := []
  dangling := []

/-- The ring as a system of atomic steps. -/
def machine : Machine State Event where
  init := fun s => s = initial
  enabled := enabled
  effect := effect

instance (s : State) (e : Event) : Decidable (machine.enabled s e) := by
  change Decidable (enabled s e)
  cases e <;> (dsimp only [enabled]; infer_instance)

/-! ## What a throwing call leaves -/

theorem submitOrThrow_of_throws
    {s : State} {addrs : List ℕ} {ret : ℤ} {what : String}
    (h : (s.submitOrThrow addrs ret what).2.isSome = true) :
    (s.submitOrThrow addrs ret what).1 = s.unwind addrs := by
  rw [State.submitOrThrow] at h ⊢
  split at h
  next hret => rw [if_pos hret, State.submit, if_pos hret]
  next => cases h

/-- Whatever call throws, its SQEs are in the ring and its handlers are gone. -/
theorem run_of_throws
    {c : Call} {ret : ℤ} {s : State} (h : (c.run ret s).2.isSome = true) :
    ∃ extra, (c.run ret s).1 =
      { s.prepare c.addrs with
        sq := s.sq ++ c.addrs ++ extra }.unwind c.addrs := by
  cases c with
  | submitAndWaitWithTimeout addr =>
      simp only [Call.run, submitAndWaitWithTimeout] at h ⊢
      split
      next hroom =>
        rw [if_pos hroom] at h
        exact ⟨[kCancelTag], submitOrThrow_of_throws h⟩
      next => exact ⟨[], by rw [List.append_nil]; rfl⟩
  | _ =>
      refine ⟨[], ?_⟩
      rw [List.append_nil]
      exact submitOrThrow_of_throws h

theorem not_mem_unwind
    {s : State} {addrs : List ℕ} {a : ℕ} (ha : a ∈ addrs) :
    a ∉ (s.unwind addrs).handlers := by
  simp [State.unwind, ha]

/-- A call throws when the submit fails, and with a timeout also when the ring
has no second SQE. -/
theorem run_throws_iff
    {c : Call} {ret : ℤ} {s : State} :
    (c.run ret s).2.isSome = true ↔
      ret < 0 ∨ ∃ addr, c = .submitAndWaitWithTimeout addr ∧
        kRingEntries ≤ s.sq.length + 1 := by
  have hthrow : ∀ (s : State) (addrs : List ℕ) (what : String),
      (s.submitOrThrow addrs ret what).2.isSome = true ↔ ret < 0 := by
    intro s addrs what
    rw [State.submitOrThrow]
    split
    next hret => exact iff_of_true rfl hret
    next hret => exact iff_of_false (by simp) hret
  cases c with
  | submitAndWaitWithTimeout addr =>
      simp only [Call.run, submitAndWaitWithTimeout, State.prepare,
        List.length_append, List.length_singleton]
      split
      next hroom => rw [hthrow]; simp [hroom]
      next hfull => simp [not_lt.mp hfull]
  | _ =>
      refine (hthrow _ _ _).trans ?_
      simp

/-! ## What becomes of it -/

theorem dispatch_handlers (s : State) (userData : ℕ) :
    (s.dispatch userData).handlers = s.handlers := by
  rw [State.dispatch]
  split <;> rfl

theorem dispatch_cq (s : State) (userData : ℕ) :
    (s.dispatch userData).cq = s.cq := by
  rw [State.dispatch]
  split <;> rfl

/-- `drain_cqes` gets to a CQE for a dead handler, and calls it. -/
theorem exists_dispatched
    {s : State} {front : List ℕ} {a : ℕ} (hcq : s.cq = front ++ [a])
    (hdead : a ∉ s.handlers) (htag : kCancelTag < a) :
    ∃ s', machine.Reaches s s' ∧ a ∈ s'.dangling := by
  -- by induction on the CQEs before it, each of which one turn takes off
  induction front generalizing s with
  | nil =>
      refine ⟨effect s (.drain none), Machine.Reaches.single (M := machine)
        (e := .drain none) ⟨by simp [hcq], by simp⟩, ?_⟩
      · have hlive : ¬(a ≤ kCancelTag ∨ a ∈ s.handlers) := by
          simp [hdead, htag]
        simp [effect, hcq, State.dispatch, State.rearm, hlive]
  | cons u front ih =>
      have heffect : effect s (.drain none) =
          { s with cq := front ++ [a] }.dispatch u := by
        simp [effect, hcq, State.rearm]
      obtain ⟨s', hs', hdangling⟩ := ih (s := effect s (.drain none))
        (by rw [heffect, dispatch_cq])
        (by rw [heffect, dispatch_handlers]; exact hdead)
      exact ⟨s', .head (e := .drain none) ⟨by simp [hcq], by simp⟩ hs',
        hdangling⟩

theorem exists_fresh (handlers : List ℕ) (a : ℕ) :
    ∃ b, kCancelTag < b ∧ b ∉ handlers ∧ b ≠ a := by
  obtain ⟨b, hb⟩ :=
    Infinite.exists_notMem_finset (insert a (handlers ++ [0, 1, 2]).toFinset)
  simp only [Finset.mem_insert, List.mem_toFinset, List.mem_append,
    List.mem_cons, List.not_mem_nil, or_false, not_or] at hb
  obtain ⟨hne, hhandlers, h0, h1, h2⟩ := hb
  refine ⟨b, ?_, hhandlers, hne⟩
  rw [kCancelTag]
  omega

/-- The next successful submit, by a call of another fiber, hands an SQE of a
dead handler to the kernel, and its CQE is dispatched to that handler. -/
theorem exists_dangling
    {s : State} {a : ℕ} (ha : a ∈ s.sq) (hdead : a ∉ s.handlers)
    (htag : kCancelTag < a) (hroom : s.sq.length < kRingEntries) :
    ∃ s', machine.Reaches s s' ∧ a ∈ s'.dangling := by
  obtain ⟨b, hbtag, hfresh, hne⟩ := exists_fresh s.handlers a
  have hcall : effect s (.call (.submitAndWait b) 0) =
      { s with
        sq := []
        kernel := s.kernel ++ (s.sq ++ [b])
        handlers := b :: s.handlers } := by
    simp [effect, Call.run, submitAndWait, State.submitOrThrow, State.submit,
      State.prepare]
  have hkernel : a ∈ (effect s (.call (.submitAndWait b) 0)).kernel := by
    rw [hcall]
    simp [ha]
  obtain ⟨i, hi⟩ := List.mem_iff_getElem?.mp hkernel
  obtain ⟨s', hs', hdangling⟩ := exists_dispatched
    (s := effect (effect s (.call (.submitAndWait b) 0)) (.post i a false))
    (a := a) rfl (by
      change a ∉ (effect s (.call (.submitAndWait b) 0)).handlers
      rw [hcall]
      simp [hdead, hne.symm]) htag
  refine ⟨s', .head (e := .call (.submitAndWait b) 0) ?_
    (.head (e := .post i a false) hi hs'), hdangling⟩
  refine ⟨le_rfl, Nat.le_add_left 1 7, hroom, List.nodup_singleton b, ?_⟩
  intro x hx
  obtain rfl := List.mem_singleton.mp hx
  exact ⟨hbtag, hfresh⟩

/-! ## The theorem on failed submissions -/

/-- At every failure point and in every state of the ring, after the exception
has left the function the ring holds SQEs that carry the addresses of its
destroyed handlers, all of them; and unless the ring is full, a later submit by
another fiber can make a CQE that is dispatched to any of them. -/
theorem failed_submission_keeps_references
    (s : State) (c : Call) (ret : ℤ) (hcall : machine.enabled s (.call c ret))
    (hfail : ret < 0 ∨ ∃ addr, c = .submitAndWaitWithTimeout addr ∧
      kRingEntries ≤ s.sq.length + 1) :
    (c.run ret s).2.isSome = true ∧
      (¬∀ a ∈ c.addrs, a ∉ (effect s (.call c ret)).sq) ∧
      ∀ a ∈ c.addrs, a ∉ (effect s (.call c ret)).handlers ∧
        a ∈ (effect s (.call c ret)).sq ∧
        ((effect s (.call c ret)).sq.length < kRingEntries →
          ∃ s', machine.Reaches (effect s (.call c ret)) s' ∧
            a ∈ s'.dangling) := by
  have hthrow := run_throws_iff.mpr hfail
  obtain ⟨extra, hrun⟩ := run_of_throws hthrow
  have heffect : effect s (.call c ret) = (c.run ret s).1 := rfl
  have hsq : ∀ a ∈ c.addrs, a ∈ (effect s (.call c ret)).sq := by
    intro a ha
    rw [heffect, hrun]
    simp [State.unwind, ha]
  have hdead : ∀ a ∈ c.addrs, a ∉ (effect s (.call c ret)).handlers := by
    intro a ha
    rw [heffect, hrun]
    exact not_mem_unwind ha
  refine ⟨hthrow, fun hnone => ?_, fun a ha => ⟨hdead a ha, hsq a ha, ?_⟩⟩
  · obtain ⟨a, ha⟩ := List.exists_mem_of_length_pos hcall.1
    exact hnone a ha (hsq a ha)
  · exact exists_dangling (hsq a ha) (hdead a ha) (hcall.2.2.2.2 a ha).1

/-- A linked chain of two, on a ring that has nothing else prepared: both SQEs
stay, and the CQE of the second can reach the destroyed handler. -/
theorem failed_linked_submission_keeps_references :
    8 ∈ (effect initial (.call (.submitLinkedAndWait [8, 16]) (-16))).sq ∧
      16 ∈ (effect initial (.call (.submitLinkedAndWait [8, 16]) (-16))).sq ∧
      ∃ s', machine.Reaches
        (effect initial (.call (.submitLinkedAndWait [8, 16]) (-16))) s' ∧
          16 ∈ s'.dangling := by
  have hkept := (failed_submission_keeps_references initial
    (.submitLinkedAndWait [8, 16]) (-16) (by decide) (.inl (by decide))).2.2
  obtain ⟨-, hfirst, -⟩ := hkept 8 (by decide)
  obtain ⟨-, hsecond, hlater⟩ := hkept 16 (by decide)
  exact ⟨hfirst, hsecond, hlater (by decide)⟩

/-- `io_uring_submit` returns `-EAGAIN` in `submit_and_wait`: the SQE of the
dead `io_awaitable` stays in the ring, and the call of another fiber has its
CQE dispatched to it. -/
theorem failed_submission_dispatches_to_dead_handler :
    ∃ s, machine.Reachable s ∧ 8 ∈ s.sq ∧ 8 ∉ s.handlers ∧
      ∃ s', machine.Reaches s s' ∧ 8 ∈ s'.dangling := by
  obtain ⟨s, hs, hsq, hdead, hroom⟩ := Machine.exists_reachableUnder_of_exec
    (M := machine) (G := fun _ _ => True)
    (P := fun s : State => 8 ∈ s.sq ∧ 8 ∉ s.handlers ∧
      s.sq.length < kRingEntries) rfl
    [.call (.submitAndWait 8) (-11)]
    (by decide)
  exact ⟨s, hs, hsq, hdead, exists_dangling hsq hdead (by decide) hroom⟩

end Fiberexec.Ring.Failure
