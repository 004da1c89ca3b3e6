import Fiberexec.Ring.Submission

/-!
# Nothing stays unsubmitted

As long as submits succeed, whatever code of the worker begins on an empty
submission queue ends on an empty one, also by an exception.  So it finds as
many SQEs as it needs, which is at most two except for a flush of the cancel
queue.  Each function is proved to keep this discipline once, in terms of `wp`.
-/

namespace Fiberexec.Ring.Submission

open Support Multishot

variable {ι κ : Type}

/-! ## The discipline -/

/-- The exceptions for a full ring. -/
def ringFull : List Error :=
  [.runtimeError "submit_and_wait_with_timeout: io_uring ring full",
    .runtimeError "async_send_zc: io_uring ring full",
    .runtimeError "multishot_acceptor: io_uring ring full",
    .runtimeError "multishot_recv: io_uring ring full"]

/-- Started with `n` SQEs in the submission queue, the code never lacks one.  It
returns a value satisfying `Q`, or throws something else than an exception for a
full ring, and the queue is empty then. -/
def Clean {β : Type} (n : ℕ) (Q : β → Prop) (c : Prog β) : Prop :=
  Code.wp kRingEntries (fun n b => n = 0 ∧ Q b)
    (fun n e => n = 0 ∧ e ∉ ringFull) n c

theorem systemError_notMem_ringFull (errno : ℤ) (what : String) :
    Error.systemError errno what ∉ ringFull := by
  simp [ringFull]

theorem Clean.bind
    {β γ : Type} {n : ℕ} {Q : β → Prop} {R : γ → Prop} {c : Prog β}
    {f : β → Prog γ} (h : Clean n Q c) (hf : ∀ b, Q b → Clean 0 R (f b)) :
    Clean n R (c >>= f) := by
  rw [Clean, Code.wp_bind]
  refine Code.wp_mono h ?_ (fun _ _ he => he)
  rintro _ b ⟨rfl, hb⟩
  exact hf b hb

theorem clean_pure {β : Type} {Q : β → Prop} {b : β} (h : Q b) :
    Clean 0 Q (pure b) :=
  (Code.wp_pure b).mpr ⟨rfl, h⟩

theorem clean_raise
    {β : Type} {Q : β → Prop} {e : Error} (h : e ∉ ringFull) :
    Clean 0 Q (.raise e) :=
  (Code.wp_raise e).mpr ⟨rfl, h⟩

theorem clean_raise_systemError
    {β : Type} {Q : β → Prop} (errno : ℤ) (what : String) :
    Clean 0 Q (.raise (.systemError errno what)) :=
  clean_raise (systemError_notMem_ringFull errno what)

theorem Clean.catchAll
    {β : Type} {n : ℕ} {Q : β → Prop} {c d : Prog β} (h : Clean n Q c)
    (hd : Clean 0 Q d) : Clean n Q (c.catchAll d) := by
  rw [Clean, Code.wp_catchAll]
  refine Code.wp_mono h (fun _ _ hb => hb) ?_
  rintro _ e ⟨rfl, -⟩
  exact hd

/-! ## The operations -/

section Operations

variable {site : Site}

theorem beginAsyncOp_clean (hring : site.ring = true) (caller : String) :
    Clean 0 (fun _ => True) (beginAsyncOp site caller) := by
  rw [beginAsyncOp, if_neg (by simp [hring])]
  split
  · exact clean_raise_systemError ..
  · exact clean_pure trivial

/-- A submit empties the queue, whatever is thrown or awaited after it. -/
theorem submitThen_clean
    {β : Type} {Q : β → Prop} {n : ℕ} {c : ℤ → Prog β}
    (h : ∀ ret, 0 ≤ ret → Clean 0 Q (c ret)) :
    Clean n Q (Code.submitAll >>= c) := by
  rw [Clean, Code.wp_bind, Code.wp_submitAll]
  exact h

theorem submitAndWait_clean {n : ℕ} (frame : Frame κ) :
    Clean n (fun _ => True) (submitAndWait frame) := by
  refine submitThen_clean fun ret hret => ?_
  rw [if_neg (Int.not_lt.mpr hret)]
  exact clean_pure trivial

theorem submitAndWaitWithTimeout_clean
    {n : ℕ} (hroom : n < kRingEntries) (timeout : ℤ) (frame : Frame κ) :
    Clean n (fun _ => True) (submitAndWaitWithTimeout timeout frame) := by
  rw [Clean, submitAndWaitWithTimeout, Code.wp_bind, Code.wp_tryGet]
  exact ⟨hroom, submitAndWait_clean frame⟩

theorem dispatch_clean
    {n : ℕ} (hroom : n < kRingEntries) (timeout : Option ℤ)
    (frame : Frame κ) : Clean n (fun _ => True) (dispatch timeout frame) := by
  cases timeout with
  | none => exact submitAndWait_clean frame
  | some timeout => exact submitAndWaitWithTimeout_clean hroom timeout frame

theorem submitLinkedAndWait_clean {n : ℕ} (frame : Frame κ) :
    Clean n (fun _ => True) (submitLinkedAndWait 2 2 frame) := by
  rw [submitLinkedAndWait, if_neg (by decide)]
  refine submitThen_clean fun ret hret => ?_
  rw [if_neg (Int.not_lt.mpr hret)]
  exact clean_pure trivial

theorem getUnchecked_clean
    {β : Type} {Q : β → Prop} {n : ℕ} (hroom : n < kRingEntries) (sqe : Sqe)
    {c : Unit → Prog β} (h : Clean (n + 1) Q (c ())) :
    Clean n Q (Code.getUnchecked sqe >>= c) := by
  rw [Clean, Code.wp_bind, Code.wp_getUnchecked]
  exact ⟨hroom, h⟩

theorem submitSqe_clean (sqe : Sqe) (full failed : String) :
    Clean 0 (fun _ => True) (submitSqe sqe full failed) := by
  rw [Clean, submitSqe, Code.wp_bind, Code.wp_tryGet]
  refine ⟨by decide, submitThen_clean fun ret hret => ?_⟩
  rw [if_neg (Int.not_lt.mpr hret)]
  exact clean_pure trivial

theorem trySubmitSqe_clean (sqe : Sqe) :
    Clean 0 (fun submitted => submitted = true) (trySubmitSqe sqe) := by
  rw [Clean, trySubmitSqe, Code.wp_bind, Code.wp_tryGet]
  exact ⟨by decide, submitThen_clean fun _ _ => clean_pure rfl⟩

theorem submitCancel_clean (site : Site) (handler : ℕ) :
    Clean 0 (fun dropped => dropped = false) (submitCancel site handler) := by
  rw [submitCancel]
  split
  · exact clean_pure rfl
  · refine (trySubmitSqe_clean _).bind ?_
    rintro _ rfl
    exact clean_pure rfl

theorem oneShot_clean
    (hring : site.ring = true) (what : String) (sqe : Sqe) (void : Bool)
    (timeout : Option ℤ) :
    Clean 0 (fun _ => True)
      (oneShot what sqe void site timeout : Prog (Stop κ)) := by
  refine (beginAsyncOp_clean hring what).bind fun _ _ => ?_
  exact getUnchecked_clean (by decide) sqe (dispatch_clean (by decide) ..)

theorem asyncClose_clean (hring : site.ring = true) (frame : Frame κ) :
    Clean 0 (fun _ => True) (asyncClose site frame) := by
  rw [asyncClose, if_neg (by simp [hring])]
  exact getUnchecked_clean (by decide) _ (submitAndWait_clean frame)

theorem linkedPair_clean
    (hring : site.ring = true) (what : String) (first second : Sqe)
    (op : Linked) :
    Clean 0 (fun _ => True)
      (linkedPair what first second op site : Prog (Stop κ)) := by
  refine (beginAsyncOp_clean hring what).bind fun _ _ => ?_
  exact getUnchecked_clean (by decide) first
    (getUnchecked_clean (by decide) second (submitLinkedAndWait_clean _))

theorem asyncSleepFor_clean (hring : site.ring = true) (duration : ℤ) :
    Clean 0 (fun _ => True) (asyncSleepFor site duration : Prog (Stop κ)) := by
  refine (beginAsyncOp_clean hring _).bind fun _ _ => ?_
  split
  · exact clean_pure trivial
  · exact getUnchecked_clean (by decide) _ (submitAndWait_clean _)

theorem asyncSendZc_clean (hring : site.ring = true) :
    Clean 0 (fun _ => True) (asyncSendZc site : Prog (Stop κ)) := by
  rw [asyncSendZc, if_neg (by simp [hring])]
  exact (submitSqe_clean ..).bind fun _ _ => clean_pure trivial

theorem firstError_notMem_ringFull
    {whats : List String} {out : List ℤ} {e : Error}
    (h : firstError whats out = some e) : e ∉ ringFull := by
  induction whats generalizing out with
  | nil => simp [firstError] at h
  | cons what whats ih =>
      cases out with
      | nil => simp [firstError] at h
      | cons res out =>
          rw [firstError] at h
          split at h
          · obtain rfl := Option.some.inj h
            exact systemError_notMem_ringFull _ _
          · exact ih h

theorem linkedFinish_clean (op : Linked) (out : List ℤ) :
    Clean 0 (fun _ => True) (op.finish out : Prog (Stop κ)) := by
  rw [Linked.finish]
  split
  · next e he => exact clean_raise (firstError_notMem_ringFull he)
  · exact clean_pure trivial

end Operations

/-! ## The multishot objects -/

/-- Nothing was given up silently. -/
def Thorough (r : World κ × Stop κ) : Prop :=
  r.1.gaveUp = false

section Objects

variable {w : World κ} {site : Site}

theorem plain_clean
    {c : Prog (Stop κ)} (hw : w.gaveUp = false)
    (h : Clean 0 (fun _ => True) c) : Clean 0 Thorough (plain w c) :=
  h.bind fun _ _ => clean_pure hw

theorem ofAcceptorNext_clean
    (hw : w.gaveUp = false) (i : κ) (r : Acceptor.Next) :
    Clean 0 Thorough (ofAcceptorNext w i r) := by
  cases r with
  | throws error => exact clean_raise_systemError ..
  | _ => exact clean_pure hw

theorem ofRecvNext_clean (hw : w.gaveUp = false) (i : κ) (r : Recv.Next) :
    Clean 0 Thorough (ofRecvNext w i r) := by
  cases r with
  | throws error => exact clean_raise_systemError ..
  | _ => exact clean_pure hw

theorem closeInDestructor_clean
    (hring : site.ring = true) (hw : w.gaveUp = false) (frame : Frame κ) :
    Clean 0 Thorough (closeInDestructor w site frame) :=
  ((asyncClose_clean hring frame).catchAll (clean_pure trivial)).bind
    fun _ _ => clean_pure hw

theorem closePending_clean
    (hring : site.ring = true) (hw : w.gaveUp = false) (i : κ) :
    Clean 0 Thorough (closePending w site i) := by
  rw [closePending]
  split
  · exact clean_pure hw
  · exact closeInDestructor_clean hring hw _

theorem drainAcceptor_clean
    (hring : site.ring = true) (hw : w.gaveUp = false) (i : κ)
    (r : Acceptor.Next) : Clean 0 Thorough (drainAcceptor w site i r) := by
  cases r with
  | value fd => exact closeInDestructor_clean hring hw _
  | _ => exact clean_pure hw

variable [DecidableEq κ]

theorem multishotAcceptor_clean
    (hring : site.ring = true) (hw : w.gaveUp = false) (i : κ) :
    Clean 0 Thorough (multishotAcceptor w site i) := by
  rw [multishotAcceptor, if_neg (by simp [hring])]
  exact (submitSqe_clean ..).bind fun _ _ => clean_pure hw

/-- A constructor of a receiver that does not find the ring full. -/
def NotFull (r : Recv.Thread × Except Error Recv.Buffers) : Prop :=
  ∀ e, r.2 = .error e → e ∉ ringFull

theorem notFull_error (t : Recv.Thread) {e : Error} (he : e ∉ ringFull) :
    NotFull (t, .error e) := by
  rintro e' ⟨⟩
  exact he

/-- What the constructor of a receiver throws before it asks for an SQE. -/
theorem recvConstruct_notFull
    (thread : Recv.Thread) {answers : Recv.Answers} (bufSize bufCount : ℕ)
    (hring : answers.onWorker = true) (hsqe : answers.gotSqe = true) :
    NotFull (Recv.construct thread answers bufSize bufCount) := by
  unfold Recv.construct
  refine iteInduction (fun _ => notFull_error _ (by simp [ringFull]))
    fun _ => ?_
  rw [if_neg (by simp [hring])]
  refine iteInduction (fun _ => notFull_error _ (by simp [ringFull]))
    fun _ => ?_
  refine iteInduction (fun _ => notFull_error _ (by simp [ringFull]))
    fun _ => ?_
  refine iteInduction
    (fun _ => notFull_error _ (systemError_notMem_ringFull _ _)) fun _ => ?_
  rw [if_neg (by simp [hsqe])]
  refine iteInduction
    (fun _ => notFull_error _ (systemError_notMem_ringFull _ _)) fun _ => ?_
  nofun

theorem multishotRecv_clean
    (hring : site.ring = true) (hw : w.gaveUp = false) (i : κ)
    (thread : Recv.Thread) (answers : Recv.Answers) (bufSize bufCount : ℕ) :
    Clean 0 Thorough
      (multishotRecv w site i thread answers bufSize bufCount) := by
  rw [multishotRecv]
  split
  · next e he =>
      exact clean_raise (recvConstruct_notFull thread _ _ hring rfl e he)
  · exact (submitSqe_clean ..).bind fun _ _ => clean_pure hw

theorem drainAcceptorNext_clean
    (hring : site.ring = true) (hw : w.gaveUp = false) (i : κ) :
    Clean 0 Thorough (drainAcceptorNext w site i) := by
  refine drainAcceptor_clean hring ?_ i _
  exact hw

theorem destroyAcceptor_clean
    (hring : site.ring = true) (hw : w.gaveUp = false) (i : κ) :
    Clean 0 Thorough (destroyAcceptor w site i) := by
  rw [destroyAcceptor]
  split
  · exact closePending_clean hring hw i
  · exact drainAcceptorNext_clean hring hw i

theorem drainRecv_thorough (hw : w.gaveUp = false) (site : Site) (i : κ) :
    Thorough (drainRecv w site i) := by
  rw [drainRecv]
  split <;> exact hw

theorem destroyRecv_clean
    (hw : w.gaveUp = false) (site : Site) (i : κ) (handler : ℕ) :
    Clean 0 Thorough (destroyRecv w site i handler) := by
  simp only [destroyRecv]
  split
  · refine (submitCancel_clean site handler).bind ?_
    rintro _ rfl
    refine clean_pure (drainRecv_thorough ?_ site i)
    exact (Bool.or_false _).trans hw
  · exact clean_pure hw

/-- Whatever a fiber waits for, it goes on with an empty queue and leaves one. -/
theorem resume_clean
    (hring : site.ring = true) (hw : w.gaveUp = false) (res : ℤ)
    (frame : Frame κ) : Clean 0 Thorough (resume w site res frame) := by
  cases frame with
  | result what void =>
      simp only [resume]
      split
      · exact clean_raise_systemError ..
      · exact clean_pure hw
  | sleep =>
      simp only [resume]
      split
      · exact clean_raise_systemError ..
      · exact clean_pure hw
  | linked op out =>
      simp only [resume]
      split
      · exact clean_pure hw
      · exact (linkedFinish_clean op _).bind fun _ _ => clean_pure hw
  | acceptorNext i => exact ofAcceptorNext_clean hw i _
  | recvNext i =>
      refine ofRecvNext_clean ?_ i _
      exact hw
  | closePending i =>
      simp only [resume]
      split
      · exact clean_pure hw
      · refine closePending_clean hring ?_ i
        exact hw
  | closeDrained i =>
      simp only [resume]
      split
      · exact clean_pure hw
      · exact drainAcceptorNext_clean hring hw i
  | drainAcceptor i => exact drainAcceptor_clean hring hw i _
  | drainRecv i =>
      simp only [resume]
      split
      · refine clean_pure (drainRecv_thorough ?_ site i)
        exact hw
      · exact clean_pure hw

/-- Every call of a fiber keeps the discipline. -/
theorem code_clean
    (hring : site.ring = true) (hw : w.gaveUp = false) (c : Call κ) :
    Clean 0 Thorough (c.code w site) := by
  cases c with
  | asyncRead timeout => exact plain_clean hw (oneShot_clean hring ..)
  | asyncWrite timeout => exact plain_clean hw (oneShot_clean hring ..)
  | asyncAccept timeout => exact plain_clean hw (oneShot_clean hring ..)
  | asyncOpenat timeout => exact plain_clean hw (oneShot_clean hring ..)
  | asyncConnect timeout => exact plain_clean hw (oneShot_clean hring ..)
  | asyncRecv timeout => exact plain_clean hw (oneShot_clean hring ..)
  | asyncSend timeout => exact plain_clean hw (oneShot_clean hring ..)
  | asyncClose => exact plain_clean hw (asyncClose_clean hring _)
  | asyncSendRecv => exact plain_clean hw (linkedPair_clean hring ..)
  | asyncWriteFsync => exact plain_clean hw (linkedPair_clean hring ..)
  | asyncSleepFor duration =>
      exact plain_clean hw (asyncSleepFor_clean hring duration)
  | asyncSendZc => exact plain_clean hw (asyncSendZc_clean hring)
  | submitCancel handler =>
      refine (submitCancel_clean site handler).bind ?_
      rintro _ rfl
      exact clean_pure ((Bool.or_false _).trans hw)
  | multishotAcceptor i => exact multishotAcceptor_clean hring hw i
  | multishotRecv i thread answers bufSize bufCount =>
      exact multishotRecv_clean hring hw i thread answers bufSize bufCount
  | acceptorNext i =>
      refine ofAcceptorNext_clean ?_ i _
      exact hw
  | recvNext i =>
      refine ofRecvNext_clean ?_ i _
      exact hw
  | destroyAcceptor i => exact destroyAcceptor_clean hring hw i
  | destroyRecv i handler => exact destroyRecv_clean hw site i handler

end Objects

/-! ## The scheduler -/

theorem armWorkEfd_clean : Clean 0 (fun _ => True) armWorkEfd :=
  getUnchecked_clean (by decide) _
    (submitThen_clean fun _ _ => clean_pure trivial)

theorem armNotify_clean {n : ℕ} (hroom : n < kRingEntries) :
    Clean n (fun _ => True) armNotify :=
  getUnchecked_clean hroom _ (submitThen_clean fun _ _ => clean_pure trivial)

/-- The flush leaves its SQEs in the queue for the code after it. -/
theorem flushCancelQueue_clean
    {β : Type} {Q : β → Prop} {n : ℕ} {queue : List ℕ} {c : List ℕ → Prog β}
    (hroom : n + queue.length ≤ kRingEntries)
    (h : Clean (n + queue.length) Q (c [])) :
    Clean n Q (flushCancelQueue queue >>= c) := by
  rw [Clean, Code.wp_bind]
  induction queue generalizing n with
  | nil => exact h
  | cons target queue ih =>
      rw [List.length_cons] at hroom h
      rw [flushCancelQueue, Code.wp_bind, Code.wp_tryGet]
      refine ⟨by omega, ih (by omega) ?_⟩
      rwa [Nat.add_assoc, Nat.add_comm 1]

theorem construct_clean {w : World κ} (hw : w.gaveUp = false) :
    Clean 0 Thorough (construct w) := by
  refine armWorkEfd_clean.bind fun _ _ => ?_
  exact (armNotify_clean (by decide)).bind fun _ _ => clean_pure hw

theorem rearmIf_clean
    {w : World κ} (hw : w.gaveUp = false) (rearms : Bool) (sqe : Sqe) :
    Clean 0 Thorough (rearmIf rearms sqe w) := by
  rw [rearmIf]
  split
  · refine (trySubmitSqe_clean sqe).bind ?_
    rintro _ rfl
    exact clean_pure ((Bool.or_false _).trans hw)
  · exact clean_pure hw

/-- A turn of `drain_cqes` keeps the discipline if its flush leaves an SQE for
the notify read. -/
theorem turn_clean
    [DecidableEq κ] {w : World κ} {c : Cqe κ} (hw : w.gaveUp = false)
    (hfits : c.target = .notify → w.cancelQueue.length < kRingEntries)
    (running : Bool) : Clean 0 Thorough (turn w c running) := by
  rw [turn]
  split
  · dsimp only
    split
    · exact armWorkEfd_clean.bind fun _ _ => clean_pure hw
    · exact clean_pure hw
  · next htarget =>
      have hlt := hfits htarget
      refine flushCancelQueue_clean (by omega) ?_
      exact (armNotify_clean (by omega)).bind fun _ _ => clean_pure hw
  · exact clean_pure hw
  · exact clean_pure hw
  · refine rearmIf_clean ?_ ..
    exact hw
  · refine rearmIf_clean ?_ ..
    exact hw

/-! ## Runs -/

/-- Every `io_uring_submit` of the step succeeds, and a notify CQE finds fewer
than `k_ring_entries` requests to flush. -/
def Assumed (s : State ι κ) : Event ι κ → Prop
  | .start ret | .call _ _ _ ret | .resume _ _ _ ret => ∀ n, 0 ≤ ret n
  | .turn c _ ret =>
      (∀ n, 0 ≤ ret n) ∧
        (c.target = .notify → s.world.cancelQueue.length < kRingEntries)
  | .requestCancel _ => True

/-- No SQE is left unsubmitted, no `io_uring_get_sqe` has returned null, no null
pointer was written through, no cancel and no re-arm was silently dropped, and
no exception for a full ring was thrown. -/
structure Tidy (s : State ι κ) : Prop where
  sq : s.sq = []
  refused : s.refused = false
  crashed : s.crashed = false
  gaveUp : s.world.gaveUp = false
  thrown : ∀ e ∈ s.thrown, e ∉ ringFull

variable [DecidableEq ι] [DecidableEq κ] {s : State ι κ}

omit [DecidableEq ι] [DecidableEq κ] in
theorem tidy_initial : Tidy (initial : State ι κ) :=
  ⟨rfl, rfl, rfl, rfl, nofun⟩

omit [DecidableEq κ] in
theorem Tidy.execute
    (h : Tidy s) {f : Option ι} {c : Prog (World κ × Stop κ)} {ret : ℕ → ℤ}
    (hret : ∀ n, 0 ≤ ret n) (hc : Clean 0 Thorough c) :
    Tidy (s.execute f c ret) := by
  have hrun := Code.run_of_wp (q := []) hret hc
  rw [State.execute, h.sq]
  generalize c.run kRingEntries ret [] = o at hrun
  obtain ⟨queue, refused, ending⟩ := o
  obtain ⟨(rfl : refused = false), hending⟩ := hrun
  have hnone : (s.refused || false) = false := by
    rw [h.refused, Bool.or_false]
  cases ending with
  | returned r =>
      obtain ⟨hempty, hthorough⟩ := hending
      exact ⟨List.eq_nil_of_length_eq_zero hempty, hnone, h.crashed, hthorough,
        h.thrown⟩
  | threw e =>
      obtain ⟨hempty, hother⟩ := hending
      refine ⟨List.eq_nil_of_length_eq_zero hempty, hnone, h.crashed, h.gaveUp,
        ?_⟩
      intro e' he'
      obtain he' | he' := List.mem_append.mp he'
      · exact h.thrown e' he'
      · exact List.mem_singleton.mp he' ▸ hother
  | aborted => exact hending.elim

theorem Tidy.effect
    {e : Event ι κ} (h : Tidy s) (he : enabled s e) (hassumed : Assumed s e) :
    Tidy (effect s e) := by
  cases e with
  | start ret => exact h.execute hassumed (construct_clean h.gaveUp)
  | call f c site ret =>
      exact h.execute hassumed (code_clean he.2.2 h.gaveUp c)
  | resume f res site ret =>
      simp only [Submission.effect]
      split
      · exact h.execute hassumed (resume_clean he.2.2 h.gaveUp res _)
      · exact h
  | turn c running ret =>
      exact h.execute hassumed.1 (turn_clean h.gaveUp hassumed.2 running)
  | requestCancel handler =>
      exact ⟨h.sq, h.refused, h.crashed, h.gaveUp, h.thrown⟩

/-- In every run in which submits succeed and fewer than `k_ring_entries`
cancels are flushed at a time, the submission queue is empty whenever a fiber
suspends, an operation returns or throws, or `drain_cqes` goes on to its next
CQE.  No `io_uring_get_sqe` ever returns null, checked or not, no exception for
a full ring is thrown, and neither `submit_cancel` nor a re-arm gives up.  It is
assumed that no allocation fails between an `io_uring_get_sqe` and its
`io_uring_submit`: the code of `Ring.Submission` has no `std::bad_alloc` there, which
would leave the SQE in the queue. -/
theorem submission_queue_empty_between_steps
    (h : machine.ReachableUnder Assumed s) :
    s.sq = [] ∧ s.refused = false ∧ s.crashed = false ∧
      s.world.gaveUp = false ∧ ∀ e ∈ s.thrown, e ∉ ringFull := by
  have htidy : Tidy s := by
    refine Machine.ReachableUnder.invariant ?_ ?_ h
    · rintro s rfl
      exact tidy_initial
    · intro s e _ htidy he hassumed
      exact htidy.effect he.2 hassumed
  exact ⟨htidy.sq, htidy.refused, htidy.crashed, htidy.gaveUp, htidy.thrown⟩

/-- A read with a timeout is cancelled while another fiber waits in an acceptor
whose request is armed again. -/
theorem submission_queue_empty_after_cancelled_read :
    ∃ s : State (Fin 2) Unit, machine.ReachableUnder Assumed s ∧
      s.suspended 1 = some (.acceptorNext ()) ∧
      s.thrown = [.systemError 125 "async_read"] ∧ s.sq = [] := by
  have hret : ∀ n : ℕ, (0 : ℤ) ≤ (fun _ => 2 : ℕ → ℤ) n :=
    fun _ => Int.zero_le_ofNat 2
  have h₀ := Machine.ReachableUnder.init (M := machine) (G := Assumed)
    (s := (initial : State (Fin 2) Unit)) rfl
  have h₁ := h₀.step (e := Event.start fun _ => 2) ⟨rfl, rfl⟩ hret
  have h₂ := h₁.step
    (e := Event.call 0 (.asyncRead (some 5)) ⟨true, false⟩ fun _ => 2)
    ⟨rfl, rfl, rfl, rfl⟩ hret
  have h₃ := h₂.step
    (e := Event.call 1 (.multishotAcceptor ()) ⟨true, false⟩ fun _ => 2)
    ⟨rfl, rfl, rfl, rfl⟩ hret
  have h₄ := h₃.step
    (e := Event.call 1 (.acceptorNext ()) ⟨true, false⟩ fun _ => 2)
    ⟨rfl, rfl, rfl, rfl⟩ hret
  have h₅ := h₄.step (e := Event.requestCancel 64) ⟨rfl, rfl⟩ trivial
  have h₆ := h₅.step
    (e := Event.turn ⟨.notify, 8, false, none⟩ true fun _ => 2)
    ⟨rfl, rfl⟩ ⟨hret, fun _ => by decide⟩
  have h₇ := h₆.step
    (e := Event.turn ⟨.acceptor (), 9, false, none⟩ true fun _ => 2)
    ⟨rfl, rfl⟩ ⟨hret, fun h => absurd h (by decide)⟩
  have h₈ := h₇.step (e := Event.resume 0 (-125) ⟨true, true⟩ fun _ => 2)
    ⟨rfl, rfl, Option.some_ne_none _, rfl⟩ hret
  exact ⟨_, h₈, rfl, rfl, (submission_queue_empty_between_steps h₈).1⟩

end Fiberexec.Ring.Submission
