import Fiberexec.Pool.Shutdown

/-!
# Tasks left in the queue by a shutdown

Once `running_` is false a worker drops the wake-ups it finds, and does not
re-arm its read.  The only threads that still dequeue are those that read
`running_` as true before, and each of them takes one task.  Every task behind
those stays in `work_queue_` for ever.
-/

namespace Fiberexec.Pool

open Support

variable {ι : Type*} [DecidableEq ι]

/-- A queued task that no continuation of the run dequeues. -/
def Stranded (s : State ι) (t : Ticket) : Prop :=
  t ∈ s.workQueue ∧ ∀ s', (machine ι).Reaches s s' → t ∈ s'.workQueue

/-! ## Threads that will still dequeue -/

/-- Whether a thread has read `running_` as true and is about to dequeue. -/
def Thread.dequeues : Thread → ℕ
  | .dequeuing => 1
  | _ => 0

/-- The threads that have read `running_` as true and are about to dequeue. -/
def State.dequeuers [Fintype ι] (s : State ι) : ℕ :=
  ∑ w, (s.worker w).thread.dequeues

/-- How a step moves the number of threads about to dequeue. -/
def dequeuersDelta (s : State ι) : Event ι → ℤ
  | .loadRunning _ res => if 0 ≤ res ∧ s.running = true then 1 else 0
  | .dequeue _ => -1
  | _ => 0

theorem thread_dequeues_effect
    {s : State ι} {e : Event ι} {w : ι}
    (hw : e.worker? = some w) (he : enabled s e) :
    ((((effect s e).worker w).thread.dequeues : ℕ) : ℤ) =
      (s.worker w).thread.dequeues + dequeuersDelta s e := by
  have hmove := moves_effect hw he
  generalize (effect s e).worker w = v at hmove ⊢
  cases hmove <;> simp [dequeuersDelta, Thread.dequeues, *]

theorem dequeuers_effect [Fintype ι]
    {s : State ι} {e : Event ι} (he : enabled s e) :
    ((effect s e).dequeuers : ℤ) = s.dequeuers + dequeuersDelta s e := by
  refine total_effect (g := fun v => v.thread.dequeues) (fun _ => rfl)
    (fun w hw => thread_dequeues_effect hw he) ?_
  intro hnone
  cases e <;> first | rfl | cases hnone

omit [DecidableEq ι] in
theorem dequeuers_le_owed [Fintype ι] (s : State ι) :
    s.dequeuers ≤ s.owed := by
  refine Finset.sum_le_sum ?_
  intro w _
  cases hw : (s.worker w).thread <;>
    simp [Worker.owed, Thread.owed, Thread.dequeues, hw]

omit [DecidableEq ι] in
theorem dequeuers_le_length [Fintype ι]
    {s : State ι} (h : Accounted s) :
    s.dequeuers ≤ s.workQueue.length := by
  have hle := h.wakeUps_le
  have howed := dequeuers_le_owed s
  simp only [State.wakeUps] at hle
  omega

/-! ## Behind the last of them -/

/-- `running_` is false and `t` stands behind every task that will still be
dequeued. -/
def Behind [Fintype ι] (s : State ι) (t : Ticket) : Prop :=
  s.running = false ∧ ∃ front back,
    s.workQueue = front ++ t :: back ∧ s.dequeuers ≤ front.length

theorem running_effect_of_false
    {s : State ι} {e : Event ι} (h : s.running = false) :
    (effect s e).running = false := by
  cases hrun : (effect s e).running with
  | false => rfl
  | true => simp [running_of_effect hrun] at h

omit [DecidableEq ι] in
theorem dequeuers_pos [Fintype ι]
    {s : State ι} {w : ι} (hw : (s.worker w).thread = .dequeuing) :
    0 < s.dequeuers := by
  have hshare := le_total (fun v : Worker => v.thread.dequeues) s.worker w
  simp only [hw, Thread.dequeues] at hshare
  exact hshare

theorem behind_effect [Fintype ι]
    {s : State ι} {e : Event ι} {t : Ticket}
    (h : Behind s t) (he : enabled s e) : Behind (effect s e) t := by
  obtain ⟨hrun, front, back, hqueue, hle⟩ := h
  refine ⟨running_effect_of_false hrun, ?_⟩
  have hmove := dequeuers_effect he
  cases e with
  | postPush =>
      simp only [dequeuersDelta] at hmove
      refine ⟨front, back ++ [s.posted], ?_, by omega⟩
      simp [effect, hqueue]
  | dequeue w =>
      have hpos := dequeuers_pos he
      simp only [dequeuersDelta] at hmove
      cases front with
      | nil =>
          simp only [List.length_nil] at hle
          omega
      | cons a front =>
          simp only [List.length_cons] at hle
          refine ⟨front, back, ?_, by omega⟩
          simp [effect, dequeue, hqueue]
  | loadRunning w res =>
      simp only [dequeuersDelta, hrun, Bool.false_eq_true, and_false,
        if_false] at hmove
      exact ⟨front, back, hqueue, by omega⟩
  | mainInFlight w =>
      simp only [dequeuersDelta] at hmove
      refine ⟨front, back, ?_, by omega⟩
      rw [(effect_queue_of_not_queues rfl).1, hqueue]
  | _ =>
      simp only [dequeuersDelta] at hmove
      exact ⟨front, back, hqueue, by omega⟩

/-- A task behind the last one to be dequeued is never dequeued. -/
theorem stranded_of_behind [Fintype ι]
    {s : State ι} {t : Ticket} (h : Behind s t) : Stranded s t := by
  have hmem : ∀ {s : State ι}, Behind s t → t ∈ s.workQueue := by
    rintro s ⟨-, front, back, hqueue, -⟩
    simp [hqueue]
  refine ⟨hmem h, fun s' hs => hmem ?_⟩
  exact Machine.Reaches.stable (P := fun s => Behind s t)
    (fun s e hbehind he => behind_effect hbehind he) hs h

/-- A queue longer than the number of threads about to dequeue strands its
last task. -/
theorem exists_stranded [Fintype ι]
    {s : State ι} (hrun : s.running = false)
    (hlt : s.dequeuers < s.workQueue.length) : ∃ t, Stranded s t := by
  have hne : s.workQueue ≠ [] := by
    intro hnil
    simp [hnil] at hlt
  refine ⟨s.workQueue.getLast hne, stranded_of_behind ⟨hrun,
    s.workQueue.dropLast, [], ?_, ?_⟩⟩
  · exact (List.dropLast_append_getLast hne).symm
  · simp only [List.length_dropLast]
    omega

/-! ## Runs that strand nothing -/

/-- `stop` clears `running_` only when every queued task is already claimed by
a thread about to dequeue, and nobody posts after that. -/
def AcceptsNoOrphan [Fintype ι] (s : State ι) : Event ι → Prop
  | .stopStore => s.workQueue.length = s.dequeuers
  | .postPush => s.running = true
  | _ => True

instance [Fintype ι] (s : State ι) :
    (e : Event ι) → Decidable (AcceptsNoOrphan s e)
  | .stopStore =>
      inferInstanceAs (Decidable (s.workQueue.length = s.dequeuers))
  | .postPush => inferInstanceAs (Decidable (s.running = true))
  | .start _ | .postWrite | .readWork _ _ | .takeCqe _ _ | .loadRunning _ _
  | .dequeue _ | .launch _ _ | .loadRearm _ | .armWorkEfd _ | .resume _ _
  | .suspend _ _ | .finish _ _ | .notifyAll _ | .mainLock _ | .mainRunning _
  | .mainInFlight _ | .mainPark _ | .stopRequest | .stopLock | .stopNotify
  | .stopUnlock | .join => .isTrue trivial

theorem claimed_effect [Fintype ι]
    {s : State ι} {e : Event ι} (haccounted : Accounted s)
    (h : s.running = false → s.workQueue.length = s.dequeuers)
    (he : enabled s e) (hguard : AcceptsNoOrphan s e)
    (hrun : (effect s e).running = false) :
    (effect s e).workQueue.length = (effect s e).dequeuers := by
  have hmove := dequeuers_effect he
  cases e with
  | stopStore =>
      have hclaimed : s.workQueue.length = s.dequeuers := hguard
      simp only [dequeuersDelta] at hmove
      change s.workQueue.length = _
      omega
  | postPush =>
      have hpush : s.running = true := hguard
      have hstill : s.running = false := hrun
      simp [hpush] at hstill
  | dequeue w =>
      have hclaimed := h (by
        by_contra hnot
        have hstill : s.running = true := by simpa using hnot
        simp only [effect, dequeue] at hrun
        split at hrun <;> simp [hstill] at hrun)
      simp only [dequeuersDelta] at hmove
      cases hqueue : s.workQueue with
      | nil => exact absurd hqueue (haccounted.queue_ne_nil he)
      | cons t rest =>
          have hrest : (effect s (.dequeue w)).workQueue = rest := by
            simp [effect, dequeue, hqueue]
          rw [hqueue, List.length_cons] at hclaimed
          rw [hrest]
          omega
  | loadRunning w res =>
      have hbefore : s.running = false := hrun
      have hclaimed := h hbefore
      simp only [dequeuersDelta, hbefore, Bool.false_eq_true, and_false,
        if_false] at hmove
      change s.workQueue.length = _
      omega
  | mainInFlight w =>
      have hclaimed := h (by rw [← hrun, (owner_effect rfl).2])
      simp only [dequeuersDelta] at hmove
      rw [(effect_queue_of_not_queues rfl).1]
      omega
  | _ =>
      have hclaimed := h hrun
      simp only [dequeuersDelta] at hmove
      change s.workQueue.length = _
      omega

theorem claimed_of_acceptsNoOrphan [Fintype ι]
    {s : State ι} (h : (machine ι).ReachableUnder AcceptsNoOrphan s) :
    s.running = false → s.workQueue.length = s.dequeuers := by
  refine Machine.ReachableUnder.invariant
    (I := fun s => s.running = false → s.workQueue.length = s.dequeuers)
    ?_ ?_ h
  · rintro s rfl hrun
    cases hrun
  · intro s e hs hI he hguard hrun
    exact claimed_effect (reachable_accounted hs.reachable) hI he hguard hrun

omit [DecidableEq ι] in
theorem exists_dequeuing [Fintype ι] {s : State ι} (h : 0 < s.dequeuers) :
    ∃ w, (s.worker w).thread = .dequeuing := by
  obtain ⟨w, -, hw⟩ := Finset.exists_ne_zero_of_sum_ne_zero h.ne'
  refine ⟨w, ?_⟩
  generalize (s.worker w).thread = pc at hw
  cases pc with
  | dequeuing => rfl
  | _ => exact absurd rfl hw

/-- When every queued task is claimed, the claimants can empty the queue. -/
theorem reaches_empty_queue [Fintype ι]
    {s : State ι} (h : (machine ι).Reachable s)
    (hclaimed : s.workQueue.length = s.dequeuers) :
    ∃ s', (machine ι).Reaches s s' ∧ s'.workQueue = [] := by
  induction hn : s.workQueue.length generalizing s with
  | zero => exact ⟨s, .refl, List.length_eq_zero_iff.mp hn⟩
  | succ n ih =>
      obtain ⟨w, hw⟩ := exists_dequeuing (s := s) (by omega)
      have he : (machine ι).enabled s (.dequeue w) := hw
      have hmove := dequeuers_effect (e := .dequeue w) he
      simp only [dequeuersDelta] at hmove
      have hlen : (effect s (.dequeue w)).workQueue.length = n := by
        cases hqueue : s.workQueue with
        | nil => simp [hqueue] at hn
        | cons t rest =>
            rw [hqueue, List.length_cons] at hn
            have hrest : (effect s (.dequeue w)).workQueue = rest := by
              simp [effect, dequeue, hqueue]
            rw [hrest]
            omega
      have hnext : (machine ι).Reachable (effect s (.dequeue w)) := h.step he
      obtain ⟨s', hs', hempty⟩ := ih hnext (by omega) hlen
      exact ⟨s', (Machine.Reaches.single he).trans hs', hempty⟩

/-! ## Executed exactly once -/

theorem launched_or_held
    {s : State ι} (h : (machine ι).Reachable s) :
    ∀ t ∈ s.dequeued, t ∈ s.launches.map Prod.snd ∨
      ∃ w, (s.worker w).thread = .launching t := by
  refine reachable_invariant
    (I := fun s => ∀ t ∈ s.dequeued, t ∈ s.launches.map Prod.snd ∨
      ∃ w, (s.worker w).thread = .launching t) (by simp [initial]) ?_ h
  intro s e _ hI he t ht
  have hold : t ∈ s.dequeued → t ∈ (effect s e).launches.map Prod.snd ∨
      ∃ w, ((effect s e).worker w).thread = .launching t := by
    intro hmem
    rw [launches_effect, List.map_append]
    rcases hI t hmem with hlaunched | ⟨w, hw⟩
    · exact .inl (List.mem_append_left _ hlaunched)
    · rcases launching_effect he hw with rfl | hkeep
      · exact .inl (by simp [Event.launched])
      · exact .inr ⟨w, hkeep⟩
  cases e with
  | dequeue w =>
      cases hqueue : s.workQueue with
      | nil =>
          refine hold ?_
          simpa [effect, dequeue, hqueue] using ht
      | cons t' rest =>
          have hsplit : t ∈ s.dequeued ∨ t = t' := by
            simpa [effect, dequeue, hqueue] using ht
          rcases hsplit with hmem | rfl
          · exact hold hmem
          · exact .inr ⟨w, by simp [effect, dequeue, hqueue]⟩
  | mainInFlight w =>
      rw [(effect_queue_of_not_queues rfl).2.2.2.2] at ht
      exact hold ht
  | _ => exact hold ht

theorem exited_of_destroyed
    {s : State ι} (h : (machine ι).Reachable s) :
    s.owner = .destroyed → ∀ w, (s.worker w).thread = .exited := by
  refine reachable_invariant
    (I := fun s => s.owner = .destroyed →
      ∀ w, (s.worker w).thread = .exited) (by simp [initial]) ?_ h
  intro s e _ hI he howner w
  refine (exited_effect_iff he).mpr (.inl ?_)
  cases hisOwner : e.isOwner with
  | false =>
      rw [(owner_effect hisOwner).1] at howner
      exact hI howner w
  | true =>
      cases e with
      | join => exact he.2 w
      | stopRequest | stopLock | stopStore | stopNotify | stopUnlock =>
          cases howner
      | _ => cases hisOwner

/-- With an empty queue at the end, every posted task has been executed exactly
once. -/
theorem executed_once_of_destroyed [Fintype ι]
    {s : State ι} (h : (machine ι).Reachable s)
    (howner : s.owner = .destroyed) (hqueue : s.workQueue = [])
    {t : Ticket} (ht : t < s.posted) :
    (s.finishes.map Prod.snd).count t = 1 := by
  have hexited := exited_of_destroyed h howner
  have hperm : s.launches.Perm s.finishes :=
    (drain_perm_of_returned h)
      (fun w => (returned_iff_exited h w).mpr (hexited w))
  have hmem : t ∈ s.dequeued := by
    have hfifo := (reachable_accounted h).fifo
    rw [hqueue, List.append_nil] at hfifo
    rw [hfifo]
    exact List.mem_range.mpr ht
  have hlaunched : t ∈ s.launches.map Prod.snd := by
    rcases launched_or_held h t hmem with hlaunched | ⟨w, hw⟩
    · exact hlaunched
    · simp [hexited w] at hw
  rw [← (hperm.map Prod.snd).count_eq]
  exact List.count_eq_one_of_mem (reachable_launchedOnce h).nodup hlaunched

/-! ## The theorem on stranded tasks -/

/-- In every run in which `stop` clears `running_` only when every queued task
is claimed by a thread about to dequeue, and in which nobody posts afterwards,
no task is stranded and every posted task is executed exactly once before
`~fiber_pool` returns; and every step that breaks this rule strands a task. -/
theorem no_task_stranded_iff_claimed [Fintype ι] :
    (∀ s : State ι, (machine ι).ReachableUnder AcceptsNoOrphan s →
        (s.running = false → ∀ t, ¬Stranded s t) ∧
          (s.owner = .destroyed → ∀ t, t < s.posted →
            (s.finishes.map Prod.snd).count t = 1)) ∧
      ∀ (s : State ι) (e : Event ι), (machine ι).Reachable s →
        enabled s e → ¬AcceptsNoOrphan s e → ∃ t, Stranded (effect s e) t := by
  refine ⟨fun s h => ⟨?_, ?_⟩, ?_⟩
  · rintro hrun t ⟨-, hstays⟩
    obtain ⟨s', hs', hempty⟩ := reaches_empty_queue h.reachable
      (claimed_of_acceptsNoOrphan h hrun)
    simpa [hempty] using hstays s' hs'
  · intro howner t ht
    have hrun : s.running = false := by
      rw [(reachable_exclusive h.reachable).running, howner]
      rfl
    have hclaimed := claimed_of_acceptsNoOrphan h hrun
    have hnone : s.dequeuers = 0 := by
      refine Finset.sum_eq_zero ?_
      intro w _
      rw [exited_of_destroyed h.reachable howner w]
      rfl
    refine executed_once_of_destroyed h.reachable howner ?_ ht
    exact List.length_eq_zero_iff.mp (hclaimed.trans hnone)
  · intro s e h he hbreak
    have hmove := dequeuers_effect he
    have hle := dequeuers_le_length (reachable_accounted h)
    cases e with
    | stopStore =>
        have hne : s.workQueue.length ≠ s.dequeuers := hbreak
        simp only [dequeuersDelta] at hmove
        refine exists_stranded rfl ?_
        change _ < s.workQueue.length
        omega
    | postPush =>
        have hrun : s.running = false := Bool.eq_false_of_not_eq_true hbreak
        simp only [dequeuersDelta] at hmove
        refine exists_stranded hrun ?_
        simp only [effect, List.length_append, List.length_singleton]
          at hmove ⊢
        omega
    | _ => exact absurd trivial hbreak

/-- Worker 1 reads `running_` as true, `stop` clears it, and the task is then
dequeued, run and finished before `~fiber_pool` returns. -/
theorem no_task_stranded_claimed_in_time :
    ∃ s : State (Fin 2),
      (machine (Fin 2)).ReachableUnder AcceptsNoOrphan s ∧
        s.owner = .destroyed ∧ s.posted = 1 ∧
        (s.finishes.map Prod.snd).count 0 = 1 := by
  obtain ⟨s, hs, howner, hposted⟩ := Machine.exists_reachableUnder_of_exec
    (M := machine (Fin 2)) (G := AcceptsNoOrphan)
    (P := fun s => s.owner = .destroyed ∧ s.posted = 1) rfl
    [.start 0, .start 1, .postPush, .postWrite, .readWork 1 8, .takeCqe 1 8,
      .loadRunning 1 8, .stopRequest, .stopLock, .stopStore, .stopNotify,
      .stopUnlock, .dequeue 1, .launch 1 0, .loadRearm 1, .resume 1 0,
      .finish 1 0, .notifyAll 1, .mainLock 0, .mainRunning 0, .mainInFlight 0,
      .mainLock 1, .mainRunning 1, .mainInFlight 1, .join]
    (by decide)
  exact ⟨s, hs, howner, hposted,
    (no_task_stranded_iff_claimed.1 s hs).2 howner 0 (by omega)⟩

/-- The post is accepted and its wake-up delivered, but worker 1 loads
`running_` only after `stop` cleared it: it drops the wake-up, both workers
leave and the task is still queued when `~fiber_pool` returns. -/
theorem accepted_task_never_executed :
    ∃ s : State (Fin 2), (machine (Fin 2)).Reachable s ∧
      s.owner = .destroyed ∧ s.posted = 1 ∧ s.workQueue = [0] ∧
        (s.finishes.map Prod.snd).count 0 = 0 :=
  Machine.exists_reachableUnder_of_exec
    (M := machine (Fin 2)) (G := fun _ _ => True) rfl
    [.start 0, .start 1, .postPush, .postWrite, .readWork 1 8, .stopRequest,
      .stopLock, .stopStore, .stopNotify, .stopUnlock, .takeCqe 1 8,
      .loadRunning 1 8, .loadRearm 1, .mainLock 0, .mainRunning 0,
      .mainInFlight 0, .mainLock 1, .mainRunning 1, .mainInFlight 1, .join]
    (by decide)

end Fiberexec.Pool
