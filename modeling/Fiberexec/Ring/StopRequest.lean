import Fiberexec.Ring.Completion

/-!
# Stop requests of suspended operations

A stop callback pushes the addresses of its call on the cancel queue and writes
`notify_fd_` once for each.  There is always exactly one notify read, armed,
completed or being processed, and the queue is never longer than the number of
wake-ups that are still to come.  Once the callback of a suspended call has run,
each of its addresses is in the queue or in a cancel SQE that was submitted
after the SQE it is to cancel.
-/

namespace Fiberexec.Ring

open Support

variable {ι τ : Type*} [DecidableEq ι] {s : State ι τ}

/-! ## Wake-ups -/

/-- The notify reads that are prepared or held by the kernel. -/
def State.notifyReads (s : State ι τ) : ℕ :=
  s.sq.count .readNotify + s.kernel.count (.op .readNotify)

/-- The notify CQEs that are not drained. -/
def State.notifyCqes (s : State ι τ) : ℕ :=
  s.cq.countP (fun c => decide (c.userData = kNotifyTag))

/-- The notify CQEs, one at most, that are being processed. -/
def State.notifyProcessing (s : State ι τ) : ℕ :=
  if s.thread = .notified then 1 else 0

/-- One notify read goes round, and the queue is no longer than the number of
times it still comes by. -/
structure Notified (s : State ι τ) : Prop where
  single : s.notifyReads + s.notifyCqes + s.notifyProcessing = 1
  bound : s.cancelQueue.length ≤
    s.notifyFd + s.notifyCqes + s.notifyProcessing + s.unwritten

theorem notified_initial : Notified (initial : State ι τ) where
  single := by
    simp [initial, State.notifyReads, State.notifyCqes,
      State.notifyProcessing]
  bound := Nat.zero_le _

theorem submitAll_notifyReads : s.submitAll.notifyReads = s.notifyReads := by
  have hcount : (s.sq.map Entry.op).count (.op .readNotify) =
      s.sq.count .readNotify :=
    List.count_map_of_injective s.sq Entry.op (fun _ _ h => Entry.op.inj h) _
  simp only [State.notifyReads, State.submitAll, List.count_append, hcount,
    List.count_nil]
  omega

theorem arm_notifyReads
    (o : Op ι) (hlive : (s.arm o).crashed = false) :
    (s.arm o).notifyReads =
      s.notifyReads + (if o = .readNotify then 1 else 0) := by
  simp only [State.arm] at hlive ⊢
  split at hlive
  next hroom =>
    rw [if_pos hroom, submitAll_notifyReads]
    simp only [State.notifyReads, List.count_append, List.count_singleton,
      beq_iff_eq]
    omega
  next => cases hlive

theorem post_notifyReads
    {i : ℕ} {x : Entry ι} (hi : s.kernel[i]? = some x) (c : Cqe ι) :
    (s.post i c).notifyReads + (if x = .op .readNotify then 1 else 0) =
      s.notifyReads := by
  have hcount := count_eraseIdx_add hi (.op .readNotify)
  simp only [State.notifyReads, State.post]
  omega

omit [DecidableEq ι] in
theorem post_notifyCqes (i : ℕ) (c : Cqe ι) :
    (s.post i c).notifyCqes =
      s.notifyCqes + (if c.userData = kNotifyTag then 1 else 0) := by
  simp [State.notifyCqes, State.post, List.countP_append, List.countP_cons]

theorem ne_notifyTag {a : ℕ} (h : kCancelTag < a) : a ≠ kNotifyTag := by
  rintro rfl
  exact absurd h (by decide)

/-- A step away from the ring that takes no wake-up and pushes at most as much
as it leaves to be written. -/
theorem Notified.of_ring
    {s s' : State ι τ} (h : Notified s) (hsq : s'.sq = s.sq)
    (hkernel : s'.kernel = s.kernel) (hcq : s'.cq = s.cq)
    (hprocessing : s'.notifyProcessing = s.notifyProcessing)
    (hqueue : s'.cancelQueue.length + (s.notifyFd + s.unwritten) ≤
      s.cancelQueue.length + (s'.notifyFd + s'.unwritten)) : Notified s' := by
  have hreads : s'.notifyReads = s.notifyReads := by
    simp only [State.notifyReads, hsq, hkernel]
  have hcqes : s'.notifyCqes = s.notifyCqes := by
    simp only [State.notifyCqes, hcq]
  obtain ⟨hsingle, hbound⟩ := h
  constructor <;> omega

theorem Notified.post
    (h : Notified s) {i : ℕ} {x : Entry ι} (hi : s.kernel[i]? = some x)
    (hx : x ≠ .op .readNotify) {c : Cqe ι} (hc : c.userData ≠ kNotifyTag) :
    Notified (s.post i c) := by
  have hreads := post_notifyReads hi c
  have hcqes := post_notifyCqes (s := s) i c
  rw [if_neg hx] at hreads
  rw [if_neg hc] at hcqes
  obtain ⟨hsingle, hbound⟩ := h
  refine ⟨?_, ?_⟩
  · change (s.post i c).notifyReads + (s.post i c).notifyCqes +
      s.notifyProcessing = 1
    omega
  · change s.cancelQueue.length ≤ s.notifyFd + (s.post i c).notifyCqes +
      s.notifyProcessing + s.unwritten
    omega

theorem startCall_notifyReads
    (f : ι) (form : Form) (addrs : List ℕ) :
    (startCall s f form addrs).notifyReads = s.notifyReads := by
  have hnone : Op.readNotify ∉ sqesFrom f (s.fiber f).serial form.zc 0 addrs ++
      (if form = .timed then [.timeout] else []) := by
    intro hmem
    rcases List.mem_append.mp hmem with hmem | hmem
    · obtain ⟨_, _, -, heq⟩ := mem_sqesFrom_iff.mp hmem
      cases heq
    · split at hmem <;> simp at hmem
  have hcount := List.count_eq_zero.mpr hnone
  simp only [State.notifyReads, startCall, List.count_append] at hcount ⊢
  omega

/-- One turn of `drain_cqes`. -/
theorem notified_drain
    (h : Notified s) {c : Cqe ι} {rearm : Bool}
    (hthread : s.thread = .dispatching) (hc : s.cq.head? = some c)
    (hlive : (drain s c rearm).crashed = false) :
    Notified (drain s c rearm) := by
  obtain ⟨cs, hcs⟩ := List.head?_eq_some_iff.mp hc
  have hprocessing : s.notifyProcessing = 0 := by
    simp [State.notifyProcessing, hthread]
  have hcqes : s.notifyCqes = ({ s with cq := s.cq.tail } : State ι τ).notifyCqes
      + (if c.userData = kNotifyTag then 1 else 0) := by
    simp [State.notifyCqes, hcs, List.countP_cons]
  obtain ⟨hsingle, hbound⟩ := h
  -- a CQE that is not the notify read's leaves all counts alone
  have hpop : c.userData ≠ kNotifyTag →
      Notified ({ s with cq := s.cq.tail } : State ι τ) := by
    intro hne
    rw [if_neg hne] at hcqes
    constructor
    · change s.notifyReads + _ + s.notifyProcessing = 1
      omega
    · change s.cancelQueue.length ≤
        s.notifyFd + _ + s.notifyProcessing + s.unwritten
      omega
  simp only [drain] at hlive ⊢
  split
  next hwork =>
    have hold := hpop (by rw [hwork]; decide)
    rw [if_pos hwork] at hlive
    split
    next hrearm =>
      rw [if_pos hrearm] at hlive
      have hreads := arm_notifyReads _ hlive
      obtain ⟨sq, kernel, crashed, submitted, harm⟩ :=
        arm_frame { s with cq := s.cq.tail } .readWork
      rw [if_neg (by simp), harm] at hreads
      rw [harm]
      exact ⟨by rw [hreads]; exact hold.single, hold.bound⟩
    next => exact hold
  next =>
    split
    next hnotify =>
      rw [if_pos hnotify] at hcqes
      constructor
      · change s.notifyReads + ({ s with cq := s.cq.tail } : State ι τ).notifyCqes
          + 1 = 1
        omega
      · change s.cancelQueue.length ≤ s.notifyFd +
          ({ s with cq := s.cq.tail } : State ι τ).notifyCqes + 1 + s.unwritten
        omega
    next hnotify =>
      have hold := hpop hnotify
      split
      next => exact hold
      next =>
        simp only [dispatch]
        split
        · exact ⟨hold.single, hold.bound⟩
        · exact ⟨hold.single, hold.bound⟩

theorem notified_processNotify
    (h : Notified s) (hthread : s.thread = .notified) (hsq : s.sq = [])
    (hlive : (processNotify s).crashed = false) :
    Notified (processNotify s) := by
  have hprocessing : s.notifyProcessing = 1 := by
    simp [State.notifyProcessing, hthread]
  have hcancels : (cancelSqes s.cancelQueue).count .readNotify = 0 := by
    rw [List.count_eq_zero]
    simp [cancelSqes]
  obtain ⟨hsingle, -⟩ := h
  rw [processNotify_eq hsq hlive]
  constructor
  · have hreads : (s.kernel ++
        (cancelSqes s.cancelQueue ++ [Op.readNotify]).map Entry.op).count
          (.op .readNotify) = s.kernel.count (.op .readNotify) + 1 := by
      rw [List.count_append, List.count_map_of_injective _ Entry.op
        (fun _ _ heq => Entry.op.inj heq), List.count_append, hcancels]
      simp
    simp only [State.notifyReads, hreads]
    change s.sq.count .readNotify + (s.kernel.count _ + 1) + s.notifyCqes + 0 = 1
    simp only [State.notifyReads] at hsingle
    omega
  · exact Nat.zero_le _

theorem Notified.postNotify
    (h : Notified s) {i : ℕ} (hi : s.kernel[i]? = some (.op .readNotify))
    {c : Cqe ι} (hc : c.userData = kNotifyTag) {fd : ℕ}
    (hfd : s.notifyFd ≤ fd + 1) :
    Notified { s.post i c with notifyFd := fd } := by
  have hreads := post_notifyReads hi c
  have hcqes := post_notifyCqes (s := s) i c
  rw [if_pos rfl] at hreads
  rw [if_pos hc] at hcqes
  obtain ⟨hsingle, hbound⟩ := h
  constructor
  · change (s.post i c).notifyReads + (s.post i c).notifyCqes +
      s.notifyProcessing = 1
    omega
  · change s.cancelQueue.length ≤ fd + (s.post i c).notifyCqes +
      s.notifyProcessing + s.unwritten
    omega

variable [DecidableEq τ] {token : ι → Option τ} {e : Event ι τ}

theorem notified_effect
    (hsound : Sound s) (h : Notified s) (hlive : s.crashed = false)
    (he : enabled token s e) (hlive' : (effect token s e).crashed = false) :
    Notified (effect token s e) := by
  have haligned : ∀ {i : ℕ} {x : Entry ι} {r : Rid ι} {a : ℕ}
      {z : Option Bool}, s.kernel[i]? = some x → x.label = some (r, a, z) →
      a ≠ kNotifyTag := by
    intro i x r a z hi hx
    obtain ⟨-, -, -, -, -, hlt, -⟩ := hsound.routed.call_of_label
      (mem_labels_of_kernel (List.mem_of_getElem? hi) hx)
    exact ne_notifyTag hlt
  have hcancel : kCancelTag ≠ kNotifyTag := by decide
  have hwork : kWorkTag ≠ kNotifyTag := by decide
  cases e with
  | switch f | resume f | yield f | block f =>
      refine h.of_ring rfl rfl rfl ?_ le_rfl
      simp [State.notifyProcessing, effect, he.1]
  | prepare f form addrs =>
      rw [hsound.scheduled.prepare_eq hlive he]
      refine ⟨?_, h.bound⟩
      rw [startCall_notifyReads]
      exact h.single
  | submit f =>
      refine ⟨?_, h.bound⟩
      change s.submitAll.notifyReads + s.notifyCqes + s.notifyProcessing = 1
      rw [submitAll_notifyReads]
      exact h.single
  | ret f =>
      simp only [effect, ret]
      split <;> exact ⟨h.single, h.bound⟩
  | drain c rearm => exact notified_drain h he.1 he.2 hlive'
  | processNotify =>
      exact notified_processNotify h he
        (hsound.scheduled.sq_of_notified hlive he) hlive'
  | complete i r a zc res =>
      have hpost := h.post he (by simp)
        (c := ⟨a, ⟨res, false, false⟩, some r⟩) (haligned he rfl)
      exact ⟨hpost.single, hpost.bound⟩
  | completeMore i r a res =>
      have hpost := h.post he (by simp)
        (c := ⟨a, ⟨res, true, false⟩, some r⟩) (haligned he rfl)
      refine ⟨?_, hpost.bound⟩
      have hreads : (effect token s (.completeMore i r a res)).notifyReads =
          (s.post i ⟨a, ⟨res, true, false⟩, some r⟩).notifyReads := by
        simp [effect, State.post, State.notifyReads, List.count_append]
      rw [hreads]
      exact hpost.single
  | completeNotif i r a => exact h.post he (by simp) (haligned he rfl)
  | completeTimeout i res => exact h.post he (by simp) hcancel
  | readNotify i ok =>
      apply h.postNotify he.1 rfl
      split
      next hok =>
        have hunit := he.2 hok
        omega
      next => omega
  | readWork i res => exact h.post he (by simp) hwork
  | cancelHit i target origin j r zc =>
      have hpost := h.post he.1 (by simp) (c := .tagged kCancelTag 0) hcancel
      exact ⟨hpost.single, hpost.bound⟩
  | cancelMiss i target origin => exact h.post he.1 (by simp) hcancel
  | pushCancel f slot inline addr todo =>
      refine h.of_ring rfl rfl rfl rfl ?_
      simp only [effect, State.mapCall, List.length_append,
        List.length_singleton]
      omega
  | writeCancel f slot inline todo =>
      refine h.of_ring rfl rfl rfl rfl ?_
      simp only [effect, State.mapCall]
      omega
  | notify =>
      refine h.of_ring rfl rfl rfl rfl ?_
      simp only [effect]
      omega
  | _ => exact ⟨h.single, h.bound⟩

theorem reachable_notified
    (h : (machine token).Reachable s) (hlive : s.crashed = false) :
    Notified s :=
  reachable_invariant (I := fun s => s.crashed = false → Notified s)
    (fun _ => notified_initial)
    (fun _ _ hreach hI hlive he hlive' =>
      notified_effect (reachable_sound hreach) (hI hlive) hlive he hlive')
    h hlive

/-! ## What becomes of queued requests -/

omit [DecidableEq ι] [DecidableEq τ] in
theorem arm_submitted
    (o : Op ι) (hlive : (s.arm o).crashed = false) :
    (s.arm o).submitted = s.submitted ++ (s.sq ++ [o]) := by
  simp only [State.arm] at hlive ⊢
  split at hlive
  next hroom => rw [if_pos hroom]; rfl
  next => cases hlive

omit [DecidableEq ι] [DecidableEq τ] in
theorem drain_queues
    {c : Cqe ι} {rearm : Bool} (hlive : (drain s c rearm).crashed = false) :
    ((drain s c rearm).sq = s.sq ∧
        (drain s c rearm).submitted = s.submitted) ∨
      (drain s c rearm).submitted = s.submitted ++ (s.sq ++ [.readWork]) := by
  simp only [drain] at hlive ⊢
  split
  next hwork =>
    rw [if_pos hwork] at hlive
    split
    next hrearm =>
      rw [if_pos hrearm] at hlive
      exact Or.inr (arm_submitted _ hlive)
    next => exact Or.inl ⟨rfl, rfl⟩
  next =>
    split
    next => exact Or.inl ⟨rfl, rfl⟩
    next =>
      split
      next => exact Or.inl ⟨rfl, rfl⟩
      next =>
        simp only [dispatch]
        split <;> exact Or.inl ⟨rfl, rfl⟩

/-- What is prepared stays prepared until it is submitted, and a queued cancel
stays queued until its SQE is. -/
theorem queues_effect
    (hsched : Scheduled s) (hlive : s.crashed = false)
    (he : enabled token s e) (hlive' : (effect token s e).crashed = false) :
    ∃ new, (effect token s e).submitted = s.submitted ++ new ∧
      (∀ o ∈ s.sq, o ∈ (effect token s e).sq ∨ o ∈ new) ∧
      ∀ p ∈ s.cancelQueue, p ∈ (effect token s e).cancelQueue ∨
        (s.sq = [] ∧ .cancel p.1 p.2 ∈ new) := by
  cases e with
  | submit f => exact ⟨s.sq, rfl, fun o ho => Or.inr ho, fun p hp => Or.inl hp⟩
  | prepare f form addrs =>
      rw [hsched.prepare_eq hlive he]
      refine ⟨[], (List.append_nil _).symm, ?_, fun p hp => Or.inl hp⟩
      intro o ho
      left
      simp only [startCall, List.mem_append]
      exact Or.inl (Or.inl ho)
  | ret f =>
      simp only [effect, ret]
      split <;>
        exact ⟨[], (List.append_nil _).symm, fun o ho => Or.inl ho,
          fun p hp => Or.inl hp⟩
  | drain c rearm =>
      have hqueue : (drain s c rearm).cancelQueue = s.cancelQueue := by
        obtain ⟨_, _, _, _, _, _, _, hdrain⟩ := drain_frame s c rearm
        rw [hdrain]
      rcases drain_queues hlive' with ⟨hsq, hsub⟩ | hsub
      · refine ⟨[], by rw [effect, hsub, List.append_nil], ?_, ?_⟩
        · intro o ho
          rw [effect, hsq]
          exact Or.inl ho
        · intro p hp
          rw [effect, hqueue]
          exact Or.inl hp
      · refine ⟨s.sq ++ [Op.readWork], hsub, ?_, ?_⟩
        · intro o ho
          exact Or.inr (List.mem_append_left _ ho)
        · intro p hp
          rw [effect, hqueue]
          exact Or.inl hp
  | processNotify =>
      have hsq := hsched.sq_of_notified hlive he
      have heq := processNotify_eq hsq hlive'
      refine ⟨cancelSqes s.cancelQueue ++ [.readNotify], ?_, ?_, ?_⟩
      · rw [effect, heq]
      · rw [hsq]
        simp
      · intro p hp
        exact Or.inr ⟨hsq, List.mem_append_left _
          (List.mem_map.mpr ⟨p, hp, rfl⟩)⟩
  | pushCancel f slot inline addr todo =>
      exact ⟨[], (List.append_nil _).symm, fun o ho => Or.inl ho,
        fun p hp => Or.inl (List.mem_append_left _ hp)⟩
  | _ =>
      exact ⟨[], (List.append_nil _).symm, fun o ho => Or.inl ho,
        fun p hp => Or.inl hp⟩

/-! ## Stop callbacks -/

/-- The addresses that a callback has yet to push, once it has begun. -/
def Callback.pending : Callback → Option (List ℕ)
  | .pushing _ todo | .writing _ todo => some todo
  | .executed => some []
  | _ => none

/-- In which phases of a call a callback exists. -/
def Phase.listens : Phase → Slot → Bool
  | .poolRegistered, .pool | .waiting, _ | .collected, _
  | .unregistered, .pool => true
  | _, _ => false

theorem Callback.run_pending (inline : Bool) (todo : List ℕ) :
    (Callback.run inline todo).pending = some todo := by
  cases todo <;> rfl

theorem Callback.run_ne_registered (inline : Bool) (todo : List ℕ) :
    Callback.run inline todo ≠ .registered := by
  cases todo <;> simp [Callback.run]

theorem Callback.run_ne_absent (inline : Bool) (todo : List ℕ) :
    Callback.run inline todo ≠ .absent := by
  cases todo <;> simp [Callback.run]

/-- What a step can do to a callback of the call of fiber `f`. -/
inductive CallbackStep (token : ι → Option τ) (s : State ι τ) (e : Event ι τ)
    (f : ι) (c : Call) (slot : Slot) : Callback → Callback → Prop
  | same (cb : Callback)
      (hlistens : c.form.zc = false → (sourceOf token f slot).isSome = true →
        (callStep token s f e c).phase.listens slot = true →
          c.phase.listens slot = true) : CallbackStep token s e f c slot cb cb
  | register (cb : Callback)
      (hrequested : ∀ src, sourceOf token f slot = some src →
        (effect token s e).requested src = false) :
      CallbackStep token s e f c slot cb .registered
  | start (cb : Callback) (inline : Bool) (src : Source τ)
      (hsource : sourceOf token f slot = some src)
      (hrequested : s.requested src = true ∨ s.stopping src = true) :
      CallbackStep token s e f c slot cb (.run inline c.addrs)
  | push (inline : Bool) (a : ℕ) (todo : List ℕ)
      (hqueue : (a, f) ∈ (effect token s e).cancelQueue) :
      CallbackStep token s e f c slot (.pushing inline (a :: todo))
        (.writing inline todo)
  | write (inline : Bool) (todo : List ℕ) :
      CallbackStep token s e f c slot (.writing inline todo)
        (.run inline todo)
  | unregister (cb : Callback)
      (hphase : (callStep token s f e c).phase.listens slot = false) :
      CallbackStep token s e f c slot cb .absent

section CallbackStep

variable {f : ι} {c : Call} {slot : Slot} {cb cb' : Callback}

/-- A callback that exists stays, as long as its call is in a phase in which it
does. -/
theorem CallbackStep.ne_absent
    (h : CallbackStep token s e f c slot cb cb') (hzc : c.form.zc = false)
    (hsource : (sourceOf token f slot).isSome = true)
    (hlistens : (callStep token s f e c).phase.listens slot = true)
    (hcb : c.phase.listens slot = true → cb ≠ .absent) : cb' ≠ .absent := by
  cases h with
  | same _ hkeep => exact hcb (hkeep hzc hsource hlistens)
  | register _ _ => simp
  | start _ inline _ _ _ => exact Callback.run_ne_absent inline _
  | push inline a todo _ => simp
  | write inline todo => exact Callback.run_ne_absent inline _
  | unregister _ hphase =>
      rw [hlistens] at hphase
      cases hphase

/-- A callback is registered only if its stop was not requested before. -/
theorem CallbackStep.of_registered
    (h : CallbackStep token s e f c slot cb cb') (hcb : cb' = .registered) :
    cb = .registered ∨ ∀ src, sourceOf token f slot = some src →
      (effect token s e).requested src = false := by
  cases h with
  | same _ _ => exact Or.inl hcb
  | register _ hrequested => exact Or.inr hrequested
  | start _ inline _ _ _ =>
      exact absurd hcb (Callback.run_ne_registered inline _)
  | push inline a todo _ => cases hcb
  | write inline todo => exact absurd hcb (Callback.run_ne_registered inline _)
  | unregister _ _ => cases hcb

/-- A callback begins once its stop is requested, with all addresses of its
call, and takes none off before it is queued. -/
theorem CallbackStep.of_pending
    (h : CallbackStep token s e f c slot cb cb') {todo : List ℕ}
    (hcb : cb'.pending = some todo) :
    (todo = c.addrs ∧ ∃ src, sourceOf token f slot = some src ∧
        (s.requested src = true ∨ s.stopping src = true)) ∨
      cb.pending = some todo ∨ ∃ a, cb.pending = some (a :: todo) ∧
        (a, f) ∈ (effect token s e).cancelQueue := by
  cases h with
  | same _ _ => exact Or.inr (Or.inl hcb)
  | register _ _ => cases hcb
  | start _ inline src hsource hrequested =>
      rw [Callback.run_pending] at hcb
      exact Or.inl ⟨(Option.some.inj hcb).symm, src, hsource, hrequested⟩
  | push inline a todo' hqueue =>
      obtain rfl := Option.some.inj hcb
      exact Or.inr (Or.inr ⟨a, rfl, hqueue⟩)
  | write inline todo' =>
      rw [Callback.run_pending] at hcb
      exact Or.inr (Or.inl hcb)
  | unregister _ _ => cases hcb

end CallbackStep

theorem callbackStep_register
    {f : ι} {c : Call} {slot : Slot}
    (hrequested : (effect token s e).requested = s.requested)
    (hsource : (sourceOf token f slot).isSome = true) :
    CallbackStep token s e f c slot (c.cb slot)
      ((register token s f slot c).cb slot) := by
  obtain ⟨src, hsrc⟩ := Option.isSome_iff_exists.mp hsource
  simp only [register, hsrc, Call.setCb, Function.update_self]
  split
  next hreq => exact .start _ true src hsrc (Or.inl hreq)
  next hnot =>
    apply CallbackStep.register
    intro src' hsrc'
    obtain rfl := Option.some.inj (hsrc.symm.trans hsrc')
    rw [hrequested]
    simpa using hnot

omit [DecidableEq ι] [DecidableEq τ] in
theorem register_cb_of_ne
    {f : ι} {c : Call} {slot slot' : Slot} (h : slot' ≠ slot) :
    (register token s f slot c).cb slot' = c.cb slot' := by
  simp only [register]
  split
  · rfl
  · simp [Call.setCb, h]

omit [DecidableEq ι] [DecidableEq τ] in
theorem register_cb_of_none
    {f : ι} {c : Call} {slot slot' : Slot}
    (h : (sourceOf token f slot).isSome ≠ true) :
    (register token s f slot c).cb slot' = c.cb slot' := by
  simp only [Bool.not_eq_true, Option.isSome_eq_false_iff,
    Option.isNone_iff_eq_none] at h
  simp only [register, h]

theorem callbackStep_of_eq
    {f : ι} {c : Call} {slot : Slot} (h : callStep token s f e c = c) :
    CallbackStep token s e f c slot (c.cb slot)
      ((callStep token s f e c).cb slot) := by
  have hsame : CallbackStep token s e f c slot (c.cb slot) (c.cb slot) := by
    apply CallbackStep.same
    intro _ _ hlistens
    rwa [h] at hlistens
  rwa [h]

theorem callbackStep_setCb
    {f : ι} {c : Call} {slot slot' : Slot} {cb : Callback}
    (h : callStep token s f e c = c.setCb slot' cb)
    (hcb : slot = slot' → CallbackStep token s e f c slot (c.cb slot) cb) :
    CallbackStep token s e f c slot (c.cb slot)
      ((callStep token s f e c).cb slot) := by
  rw [h]
  by_cases hslot : slot = slot'
  · subst hslot
    rw [Call.setCb_self]
    exact hcb rfl
  · rw [Call.setCb_of_ne hslot]
    apply CallbackStep.same
    intro _ _ hlistens
    rwa [h] at hlistens

theorem callbackStep_phase
    {f : ι} {c : Call} {slot : Slot}
    (h : (callStep token s f e c).cb slot = c.cb slot)
    (hlistens : c.form.zc = false →
      (callStep token s f e c).phase.listens slot = true →
        c.phase.listens slot = true) :
    CallbackStep token s e f c slot (c.cb slot)
      ((callStep token s f e c).cb slot) := by
  rw [h]
  exact .same _ (fun hzc _ => hlistens hzc)

/-- Every step does to a callback one of the above. -/
theorem callbackStep_effect
    {f : ι} {c : Call} (he : enabled token s e)
    (hcall : (s.fiber f).call = some c) (slot : Slot) :
    CallbackStep token s e f c slot (c.cb slot)
      ((callStep token s f e c).cb slot) := by
  by_cases hcaller : e.caller = some f
  case neg => exact callbackStep_of_eq (callStep_of_ne hcaller c)
  cases e with
  | submit f' =>
      obtain rfl := Option.some.inj hcaller
      apply callbackStep_phase (by simp only [callStep, if_true])
      intro hzc hlistens
      simp [callStep, hzc, Phase.listens] at hlistens
  | registerPool f' =>
      obtain rfl := Option.some.inj hcaller
      cases slot with
      | pool =>
          simp only [callStep, if_true]
          exact callbackStep_register rfl rfl
      | fiber =>
          apply callbackStep_phase
          · simp only [callStep, if_true]
            exact register_cb_of_ne (by simp)
          · intro _ hlistens
            simp [callStep, Phase.listens] at hlistens
  | registerFiber f' =>
      obtain rfl := Option.some.inj hcaller
      have hphase := ((State.inCall_iff hcall).mp he.2).1
      cases slot with
      | fiber =>
          simp only [callStep, if_true]
          by_cases hsource : (sourceOf token f' .fiber).isSome = true
          · exact callbackStep_register rfl hsource
          · rw [register_cb_of_none hsource]
            exact .same _ (fun _ hcon => absurd hcon hsource)
      | pool =>
          apply callbackStep_phase
          · simp only [callStep, if_true]
            exact register_cb_of_ne (by simp)
          · intro _ _
            rw [hphase]
            rfl
  | collect f' =>
      obtain rfl := Option.some.inj hcaller
      have hphase := ((State.inCall_iff hcall).mp he.2).1
      apply callbackStep_phase (by simp only [callStep, if_true, collect])
      intro _ _
      rw [hphase]
      rfl
  | unregisterFiber f' =>
      obtain rfl := Option.some.inj hcaller
      have hphase := ((State.inCall_iff hcall).mp he.2).1
      cases slot with
      | fiber =>
          simp only [callStep, if_true, Call.setCb_self]
          apply CallbackStep.unregister
          simp [callStep, Phase.listens]
      | pool =>
          apply callbackStep_phase
          · simp only [callStep, if_true]
            exact Call.setCb_of_ne (by simp)
          · intro _ _
            rw [hphase]
            rfl
  | invoke f' slot' src =>
      obtain rfl := Option.some.inj hcaller
      refine callbackStep_setCb (if_pos rfl) ?_
      rintro rfl
      exact .start _ false src he.2.1 (Or.inr he.2.2.1)
  | pushCancel f' slot' inline a todo =>
      obtain rfl := Option.some.inj hcaller
      have hcb := (State.inCall_iff hcall).mp he
      refine callbackStep_setCb (if_pos rfl) ?_
      rintro rfl
      rw [hcb]
      exact .push inline a todo (by simp [effect])
  | writeCancel f' slot' inline todo =>
      obtain rfl := Option.some.inj hcaller
      have hcb := (State.inCall_iff hcall).mp he
      refine callbackStep_setCb (if_pos rfl) ?_
      rintro rfl
      rw [hcb]
      exact .write inline todo
  | _ => cases hcaller

/-! ## Requests are heard -/

/-- The cancel of position `i` of a call, whose address is `a`, is queued, or
its SQE was submitted after the one it is to cancel. -/
def State.Accounted (s : State ι τ) (f : ι) (zc : Bool) (i a : ℕ) : Prop :=
  (a, f) ∈ s.cancelQueue ∨
    [Op.io (s.current f i) a zc, .cancel a f].Sublist s.submitted

/-- A call whose stop was requested has a callback that is still to be run, is
running or has accounted for every address. -/
structure Heard (token : ι → Option τ) (s : State ι τ) (f : ι) (c : Call) :
    Prop where
  present : c.form.zc = false → ∀ slot,
    (sourceOf token f slot).isSome = true → c.phase.listens slot = true →
      c.cb slot ≠ .absent
  asleep : ∀ slot src, sourceOf token f slot = some src →
    c.cb slot = .registered → s.requested src = true → s.stopping src = true
  pushed : ∀ slot todo, (c.cb slot).pending = some todo →
    ∀ i a, c.addrs[i]? = some a → a ∈ todo ∨ s.Accounted f c.form.zc i a
  sent : ∀ i a, c.addrs[i]? = some a →
    Op.io (s.current f i) a c.form.zc ∈ s.sq ∨
      Op.io (s.current f i) a c.form.zc ∈ s.submitted

/-- What was accounted for stays so. -/
theorem accounted_effect
    (hsched : Scheduled s) (hlive : s.crashed = false)
    (he : enabled token s e) (hlive' : (effect token s e).crashed = false)
    {f : ι} {zc : Bool} {i a : ℕ}
    (hserial : ((effect token s e).fiber f).serial = (s.fiber f).serial)
    (hsent : Op.io (s.current f i) a zc ∈ s.sq ∨
      Op.io (s.current f i) a zc ∈ s.submitted)
    (h : s.Accounted f zc i a) : (effect token s e).Accounted f zc i a := by
  obtain ⟨new, hsub, -, hqueue⟩ := queues_effect hsched hlive he hlive'
  rw [State.Accounted, State.current, hserial, hsub]
  rcases h with hq | hs
  · rcases hqueue (a, f) hq with hq' | ⟨hsq, hnew⟩
    · exact Or.inl hq'
    · right
      have hio : Op.io (s.current f i) a zc ∈ s.submitted := by
        rw [hsq] at hsent
        exact hsent.resolve_left (by simp)
      exact List.Sublist.append (List.singleton_sublist.mpr hio)
        (List.singleton_sublist.mpr hnew)
  · exact Or.inr (hs.trans (List.sublist_append_left _ _))

omit [DecidableEq τ] in
theorem heard_startCall
    (f : ι) (form : Form) (addrs : List ℕ) :
    Heard token (startCall s f form addrs) f
      ⟨form, addrs, .prepared, [], fun _ => .absent⟩ := by
  constructor
  · intro _ slot _ hlistens
    cases slot <;> simp [Phase.listens] at hlistens
  · intro slot src _ hcb
    cases hcb
  · intro slot todo hpending
    cases hpending
  · intro i a ha
    left
    have hcurrent : (startCall s f form addrs).current f i =
        ⟨f, (s.fiber f).serial, 0 + i⟩ := by
      simp [State.current, startCall]
    rw [hcurrent]
    simp only [startCall, List.mem_append]
    exact Or.inl (Or.inr (mem_sqesFrom_iff.mpr ⟨i, a, ha, rfl⟩))

theorem heard_effect
    (hsched : Scheduled s) (hlive : s.crashed = false)
    (he : enabled token s e) (hlive' : (effect token s e).crashed = false)
    (h : ∀ f c, (s.fiber f).call = some c → Heard token s f c)
    {f : ι} {c' : Call}
    (hcall' : ((effect token s e).fiber f).call = some c') :
    Heard token (effect token s e) f c' := by
  rcases hsched.call_effect hlive he hcall' with
    ⟨form, addrs, -, heq, rfl⟩ | ⟨-, c, hcall, rfl, hserial⟩
  · rw [heq]
    exact heard_startCall f form addrs
  obtain ⟨hform, haddrs⟩ := callStep_form_addrs token s f e c
  have hc := h f c hcall
  constructor
  · intro hzc slot hsource hlistens
    rw [hform] at hzc
    exact (callbackStep_effect he hcall slot).ne_absent hzc hsource hlistens
      (hc.present hzc slot hsource)
  · intro slot src hsource hcb hrequested
    rcases (callbackStep_effect he hcall slot).of_registered hcb with
      hold | hnot
    · rcases source_effect token s e src with
        ⟨hreq, hstop⟩ | ⟨-, -, hstop⟩ | ⟨rfl, -⟩
      · rw [hreq] at hrequested
        rw [hstop]
        exact hc.asleep slot src hsource hold hrequested
      · exact hstop
      · -- `request_stop` does not end before it has run this callback
        exact absurd hold (he.2.2 f slot hsource c hcall)
    · rw [hnot src hsource] at hrequested
      cases hrequested
  · intro slot todo hpending i a ha
    rw [haddrs] at ha
    rw [hform]
    have hkeep : s.Accounted f c.form.zc i a →
        (effect token s e).Accounted f c.form.zc i a :=
      accounted_effect hsched hlive he hlive' hserial (hc.sent i a ha)
    rcases (callbackStep_effect he hcall slot).of_pending hpending with
      ⟨rfl, -⟩ | hold | ⟨b, hold, hqueue⟩
    · exact Or.inl (List.mem_of_getElem? ha)
    · exact (hc.pushed slot todo hold i a ha).imp_right hkeep
    · rcases hc.pushed slot _ hold i a ha with hmem | hacc
      · rcases List.mem_cons.mp hmem with rfl | hmem
        · exact Or.inr (Or.inl hqueue)
        · exact Or.inl hmem
      · exact Or.inr (hkeep hacc)
  · intro i a ha
    rw [haddrs] at ha
    obtain ⟨new, hsub, hsq, -⟩ := queues_effect hsched hlive he hlive'
    rw [hform, State.current, hserial, hsub]
    rcases hc.sent i a ha with hold | hold
    · exact (hsq _ hold).imp_right (List.mem_append_right _)
    · exact Or.inr (List.mem_append_left _ hold)

theorem reachable_heard
    (h : (machine token).Reachable s) (hlive : s.crashed = false)
    {f : ι} {c : Call} (hcall : (s.fiber f).call = some c) :
    Heard token s f c :=
  reachable_invariant (I := fun s => s.crashed = false →
      ∀ f c, (s.fiber f).call = some c → Heard token s f c)
    (by simp [initial])
    (fun _ _ hreach hI hlive he hlive' _ _ =>
      heard_effect (reachable_scheduled hreach) hlive he hlive' (hI hlive))
    h hlive f c hcall

/-! ## No stop request is lost -/

/-- In every state of every run in which `arm_notify` got its SQEs: the cancel
queue is no longer than the wake-ups that are still to come; exactly one notify
read is armed, completed or being processed, the latter on an empty submission
queue; and when the stop of a suspended one-shot, timed or linked operation has
been requested, and its callback neither is running nor still has to be run by
`request_stop`, then the address of each of its handlers is in the cancel queue,
or was submitted in a cancel after the SQE it is to cancel. -/
theorem stop_request_not_lost
    (token : ι → Option τ) (s : State ι τ)
    (h : (machine token).Reachable s) (hlive : s.crashed = false) :
    s.cancelQueue.length ≤
      s.notifyFd + (s.notifyCqes + s.notifyProcessing) + s.unwritten ∧
    s.notifyReads + s.notifyCqes + s.notifyProcessing = 1 ∧
    (s.thread = .notified → s.sq = []) ∧
    ∀ f c slot src, (s.fiber f).call = some c → c.form ≠ .sendZc →
      c.phase = .waiting → sourceOf token f slot = some src →
      s.requested src = true → (c.cb slot).isRunning = false →
      (c.cb slot = .registered → s.stopping src = false) →
      ∀ i a, c.addrs[i]? = some a →
        (a, f) ∈ s.cancelQueue ∨
          [Op.io (s.current f i) a false, .cancel a f].Sublist s.submitted := by
  obtain ⟨hsingle, hbound⟩ := reachable_notified h hlive
  refine ⟨by omega, hsingle, (reachable_scheduled h).sq_of_notified hlive, ?_⟩
  intro f c slot src hcall hform hphase hsource hrequested hidle hdone i a ha
  have hc := reachable_heard h hlive hcall
  have hzc : c.form.zc = false := by
    cases hf : c.form <;> simp [hf, Form.zc] at hform ⊢
  have hpresent : c.cb slot ≠ .absent := by
    apply hc.present hzc slot
    · rw [hsource]
      rfl
    · rw [hphase]
      cases slot <;> rfl
  have hexecuted : c.cb slot = .executed := by
    cases hcb : c.cb slot with
    | absent => exact absurd hcb hpresent
    | registered =>
        have hstop := hc.asleep slot src hsource hcb hrequested
        rw [hdone hcb] at hstop
        cases hstop
    | pushing inline todo => simp [hcb, Callback.isRunning] at hidle
    | writing inline todo => simp [hcb, Callback.isRunning] at hidle
    | executed => rfl
  have hpushed := hc.pushed slot [] (by rw [hexecuted]; rfl) i a ha
  rw [hzc] at hpushed
  exact hpushed.resolve_left (by simp)

/-- The pool's stop is requested while fiber `f` is suspended, and the request
is flushed; then fiber `g` begins a linked call, whose callback runs inline. -/
def stopDuringAndBefore (f g : ι) : List (Event ι τ) :=
  [.switch f, .prepare f .oneShot [8], .submit f, .registerPool f,
    .registerFiber f, .block f,
    .requestStop .pool, .invoke f .pool .pool, .pushCancel f .pool false 8 [],
    .writeCancel f .pool false [], .finishStop .pool,
    .readNotify 1 true, .drain (.tagged kNotifyTag 8) false, .processNotify,
    .switch g, .prepare g .linked [16, 24], .submit g, .registerPool g,
    .pushCancel g .pool true 16 [24], .writeCancel g .pool true [24],
    .pushCancel g .pool true 24 [], .writeCancel g .pool true [],
    .registerFiber g, .block g]

theorem stop_request_not_lost_during_and_before :
    ∃ s : State (Fin 2) (Fin 2),
      (machine (fun _ => none)).Reachable s ∧
      s.requested .pool = true ∧ s.cancelQueue = [(16, 1), (24, 1)] ∧
      s.notifyFd = 2 ∧
      s.notifyReads + s.notifyCqes + s.notifyProcessing = 1 ∧
      ((8, 0) ∈ s.cancelQueue ∨
        [Op.io (s.current 0 0) 8 false, .cancel 8 0].Sublist s.submitted) := by
  obtain ⟨s, hs, hlive, hrequested, hqueue, hfd, c, hcall, hform, hphase, hcb,
      haddrs⟩ :=
    Machine.exists_reachableUnder_of_exec
      (M := machine (fun _ : Fin 2 => (none : Option (Fin 2))))
      (G := fun _ _ => True)
      (P := fun s => s.crashed = false ∧ s.requested .pool = true ∧
        s.cancelQueue = [(16, 1), (24, 1)] ∧ s.notifyFd = 2 ∧
        s.inCall 0 (fun c => c.form = .oneShot ∧ c.phase = .waiting ∧
          c.cb .pool = .executed ∧ c.addrs = [8]))
      rfl (stopDuringAndBefore 0 1) (by decide)
  obtain ⟨-, hsingle, -, hheard⟩ :=
    stop_request_not_lost (fun _ => none) s hs hlive
  refine ⟨s, hs, hrequested, hqueue, hfd, hsingle, ?_⟩
  exact hheard 0 c .pool .pool hcall (by simp [hform]) hphase rfl hrequested
    (by rw [hcb]; rfl) (by simp [hcb]) 0 8 (by rw [haddrs]; rfl)

end Fiberexec.Ring
