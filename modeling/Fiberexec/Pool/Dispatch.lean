import Fiberexec.Pool.Model
import Fiberexec.Support.Lists
import Mathlib.Data.List.Range

/-!
# Work dispatch

The eventfd of the pool counts wake-ups.  This module relates that count to
the length of `work_queue_`: while the pool runs, every queued task is matched
by exactly one wake-up that is still on its way, be it an eventfd write its
producer has yet to make, a unit of the count, or a work CQE whose worker has
yet to dequeue.
-/

namespace Fiberexec.Pool

open Support

variable {ι : Type*} [DecidableEq ι]

/-! ## Wake-ups on their way -/

/-- Whether a thread is handling a work CQE that has yet to dequeue. -/
def Thread.owed : Thread → ℕ
  | .workCqe res => if 0 ≤ res then 1 else 0
  | .dequeuing => 1
  | _ => 0

/-- The work CQEs of a worker with `res >= 0` that have yet to dequeue. -/
def Worker.owed (v : Worker) : ℕ :=
  v.workCqes.countP (fun res => 0 ≤ res) + v.thread.owed

/-- The work CQEs of all workers with `res >= 0` that have yet to dequeue. -/
def State.owed [Fintype ι] (s : State ι) : ℕ :=
  ∑ w, (s.worker w).owed

/-- How a step moves the number of work CQEs that have yet to dequeue: the
kernel adds one, a dequeue uses one, and a worker that finds `running_` false
drops one. -/
def owedDelta (s : State ι) : Event ι → ℤ
  | .readWork _ res => if 0 ≤ res then 1 else 0
  | .loadRunning _ res => if 0 ≤ res ∧ s.running = false then -1 else 0
  | .dequeue _ => -1
  | _ => 0

theorem worker_owed_effect
    {s : State ι} {e : Event ι} {w : ι}
    (hw : e.worker? = some w) (he : enabled s e) :
    (((effect s e).worker w).owed : ℤ) =
      (s.worker w).owed + owedDelta s e := by
  have hmove := moves_effect hw he
  generalize (effect s e).worker w = v at hmove ⊢
  cases hmove with
  | @readWork res _ =>
      by_cases hres : 0 ≤ res
      · simp [owedDelta, Worker.owed, List.countP_append, hres]
        omega
      · simp [owedDelta, Worker.owed, List.countP_append, hres]
  | takeCqe hthread hcqes =>
      simp [owedDelta, Worker.owed, Thread.owed, hthread, hcqes,
        List.countP_cons]
  | @loadFalse res hthread hload =>
      by_cases hres : 0 ≤ res
      · have hrun : s.running = false := by simpa [hres] using hload
        simp [owedDelta, Worker.owed, Thread.owed, hthread, hres, hrun]
      · simp [owedDelta, Worker.owed, Thread.owed, hthread, hres]
  | _ => simp [owedDelta, Worker.owed, Thread.owed, Worker.wake, *]

theorem owed_effect [Fintype ι]
    {s : State ι} {e : Event ι} (he : enabled s e) :
    ((effect s e).owed : ℤ) = s.owed + owedDelta s e := by
  refine total_effect (g := Worker.owed) (fun _ => rfl)
    (fun w hw => worker_owed_effect hw he) ?_
  intro hnone
  cases e <;> first | rfl | cases hnone

/-! ## The queue and the wake-ups -/

/-- Wake-ups on their way: units of the count, work CQEs that have yet to
dequeue, and posts that have pushed and not yet written. -/
def State.wakeUps [Fintype ι] (s : State ι) : ℕ :=
  s.eventfd + s.owed + s.unwritten

/-- The steps of `post`, of the eventfd and of the dequeue. -/
def Event.queues : Event ι → Bool
  | .postPush | .postWrite | .readWork _ _ | .dequeue _ => true
  | _ => false

theorem effect_queue_of_not_queues
    {s : State ι} {e : Event ι} (h : e.queues = false) :
    (effect s e).workQueue = s.workQueue ∧
      (effect s e).eventfd = s.eventfd ∧
      (effect s e).unwritten = s.unwritten ∧
      (effect s e).posted = s.posted ∧
      (effect s e).dequeued = s.dequeued := by
  cases e with
  | postPush | postWrite | readWork | dequeue => cases h
  | mainInFlight w =>
      simp only [effect]
      split <;> exact ⟨rfl, rfl, rfl, rfl, rfl⟩
  | _ => exact ⟨rfl, rfl, rfl, rfl, rfl⟩

/-- A step of a worker that drops its wake-up. -/
def drops (s : State ι) : Event ι → ℤ
  | .loadRunning _ res => if 0 ≤ res ∧ s.running = false then 1 else 0
  | _ => 0

/-- The difference between the length of the queue and the wake-ups moves only
where a wake-up is dropped.  The hypothesis on the queue rules out a dequeue
that finds nothing. -/
theorem length_sub_wakeUps_effect [Fintype ι]
    {s : State ι} {e : Event ι} (he : enabled s e)
    (hne : ∀ w, e = .dequeue w → s.workQueue ≠ []) :
    ((effect s e).workQueue.length : ℤ) - (effect s e).wakeUps =
      s.workQueue.length - s.wakeUps + drops s e := by
  have howed := owed_effect he
  cases hq : e.queues with
  | false =>
      obtain ⟨hqueue, hfd, hwritten, -, -⟩ :=
        effect_queue_of_not_queues (s := s) hq
      have hdelta : owedDelta s e = -drops s e := by
        cases e with
        | loadRunning w res =>
            simp only [owedDelta, drops]
            split <;> rfl
        | readWork | dequeue => cases hq
        | _ => rfl
      simp only [State.wakeUps, hqueue, hfd, hwritten]
      omega
  | true =>
      cases e with
      | postPush =>
          simp only [owedDelta] at howed
          simp only [effect, State.wakeUps, drops, List.length_append,
            List.length_singleton] at howed ⊢
          omega
      | postWrite =>
          simp only [enabled] at he
          simp only [effect, owedDelta, State.wakeUps, drops] at howed ⊢
          omega
      | readWork w res =>
          have hunit := he.2
          have hqueue : (effect s (.readWork w res)).workQueue =
            s.workQueue := rfl
          have hfd : (effect s (.readWork w res)).eventfd =
            if 0 ≤ res then s.eventfd - 1 else s.eventfd := rfl
          have hwritten : (effect s (.readWork w res)).unwritten =
            s.unwritten := rfl
          simp only [owedDelta] at howed
          simp only [State.wakeUps, drops, hqueue, hfd, hwritten]
          split at howed <;> rename_i hres <;> simp [hres] at hunit ⊢ <;> omega
      | dequeue w =>
          cases hqueue : s.workQueue with
          | nil => exact absurd hqueue (hne w rfl)
          | cons t rest =>
              simp only [effect, dequeue, hqueue, owedDelta, State.wakeUps,
                State.goto, State.set, drops, List.length_cons] at howed ⊢
              omega
      | _ => cases hq

/-- The queue and the wake-ups.  Clearing `running_` makes workers drop
wake-ups, so from then on the queue may be the longer of the two. -/
structure Accounted [Fintype ι] (s : State ι) : Prop where
  wakeUps_le : s.wakeUps ≤ s.workQueue.length
  wakeUps_eq : s.running = true → s.workQueue.length = s.wakeUps
  fifo : s.dequeued ++ s.workQueue = List.range s.posted

omit [DecidableEq ι] in
theorem accounted_initial [Fintype ι] : Accounted (initial : State ι) := by
  refine ⟨?_, ?_, rfl⟩ <;>
    simp [State.wakeUps, State.owed, initial, Worker.owed, Thread.owed]

omit [DecidableEq ι] in
/-- A thread about to dequeue finds a task. -/
theorem Accounted.queue_ne_nil [Fintype ι]
    {s : State ι} {w : ι} (h : Accounted s)
    (hw : (s.worker w).thread = .dequeuing) :
    s.workQueue ≠ [] := by
  have hshare : (s.worker w).owed ≤ s.owed :=
    le_total Worker.owed s.worker w
  have hone : 1 ≤ (s.worker w).owed := by
    simp [Worker.owed, Thread.owed, hw]
  have hle := h.wakeUps_le
  intro hnil
  rw [hnil] at hle
  simp only [State.wakeUps, List.length_nil] at hle
  omega

theorem running_of_effect
    {s : State ι} {e : Event ι} (h : (effect s e).running = true) :
    s.running = true := by
  cases e with
  | stopStore => cases h
  | dequeue w =>
      simp only [effect, dequeue] at h
      split at h <;> exact h
  | mainInFlight w =>
      simp only [effect] at h
      split at h <;> exact h
  | _ => exact h

theorem fifo_effect
    {s : State ι} {e : Event ι}
    (h : s.dequeued ++ s.workQueue = List.range s.posted) :
    (effect s e).dequeued ++ (effect s e).workQueue =
      List.range (effect s e).posted := by
  cases hq : e.queues with
  | false =>
      obtain ⟨hqueue, -, -, hposted, hdequeued⟩ :=
        effect_queue_of_not_queues (s := s) hq
      rw [hqueue, hposted, hdequeued, h]
  | true =>
      cases e with
      | postPush => simp [effect, List.range_succ, ← h]
      | postWrite | readWork => exact h
      | dequeue w =>
          cases hqueue : s.workQueue with
          | nil => simpa [effect, dequeue, hqueue] using h
          | cons t rest => simpa [effect, dequeue, hqueue] using h
      | _ => cases hq

theorem accounted_effect [Fintype ι]
    {s : State ι} {e : Event ι} (h : Accounted s) (he : enabled s e) :
    Accounted (effect s e) := by
  have hmove := length_sub_wakeUps_effect he (by
    intro w hw
    subst hw
    exact h.queue_ne_nil he)
  have hle := h.wakeUps_le
  refine ⟨?_, ?_, fifo_effect h.fifo⟩
  · have hdrops : 0 ≤ drops s e := by
      cases e with
      | loadRunning w res =>
          simp only [drops]
          split <;> decide
      | _ => exact le_rfl
    omega
  · intro hrun
    have hbefore := running_of_effect hrun
    have heq := h.wakeUps_eq hbefore
    have hdrops : drops s e = 0 := by
      cases e with
      | loadRunning w res => simp [drops, hbefore]
      | _ => rfl
    omega

theorem reachable_accounted [Fintype ι]
    {s : State ι} (h : (machine ι).Reachable s) : Accounted s :=
  reachable_invariant accounted_initial
    (fun _ _ _ hI he => accounted_effect hI he) h

/-! ## The read of the eventfd -/

/-- Whether a thread is handling a work CQE. -/
def Thread.processing : Thread → ℕ
  | .workCqe _ | .dequeuing | .launching _ | .rearmCheck | .arming => 1
  | _ => 0

/-- The reads of the work eventfd a worker is responsible for, in whichever
of the three places they are. -/
def Worker.reads (v : Worker) : ℕ :=
  v.armedReads + v.workCqes.length + v.thread.processing

/-- How a step moves the number of a worker's reads: constructing the
scheduler arms one, and a worker that finds `running_` false does not re-arm. -/
def readsDelta (s : State ι) : Event ι → ℤ
  | .start _ => 1
  | .loadRearm _ => if s.running = true then 0 else -1
  | _ => 0

theorem worker_reads_effect
    {s : State ι} {e : Event ι} {w : ι}
    (hw : e.worker? = some w) (he : enabled s e) :
    (((effect s e).worker w).reads : ℤ) =
      (s.worker w).reads + readsDelta s e := by
  have hmove := moves_effect hw he
  generalize (effect s e).worker w = v at hmove ⊢
  cases hmove with
  | readWork hpos =>
      simp [readsDelta, Worker.reads]
      omega
  | takeCqe hthread hcqes =>
      simp [readsDelta, Worker.reads, Thread.processing, hthread, hcqes]
      omega
  | start hthread | armWorkEfd hthread =>
      simp [readsDelta, Worker.reads, Thread.processing, hthread]
      omega
  | _ => simp [readsDelta, Worker.reads, Thread.processing, Worker.wake, *]

/-- A worker's single read, from the construction of its scheduler on. -/
structure OneRead (s : State ι) : Prop where
  starting : ∀ w, (s.worker w).thread = .starting → (s.worker w).reads = 0
  started : ∀ w, (s.worker w).thread ≠ .starting → s.running = true →
    (s.worker w).reads = 1

omit [DecidableEq ι] in
theorem oneRead_initial : OneRead (initial : State ι) :=
  ⟨fun _ _ => rfl, fun _ h => absurd rfl h⟩

theorem starting_effect_iff
    {s : State ι} {e : Event ι} {w : ι} (he : enabled s e) :
    ((effect s e).worker w).thread = .starting ↔
      (s.worker w).thread = .starting ∧ e ≠ .start w := by
  by_cases hw : e.worker? = some w
  · have hmove := moves_effect hw he
    generalize (effect s e).worker w = v at hmove ⊢
    cases hmove <;> simp [*]
  · have hagree : ((effect s e).worker w).thread = (s.worker w).thread :=
      effect_worker_agree (g := Worker.thread) (fun _ => rfl) hw
    have hne : e ≠ .start w := by
      rintro rfl
      exact hw rfl
    simp [hagree, hne]

theorem readsDelta_eq_zero
    {s : State ι} {e : Event ι} {w : ι} (hstart : e ≠ .start w)
    (hload : e = .loadRearm w → s.running = true) :
    (if e.worker? = some w then readsDelta s e else 0) = 0 := by
  cases e with
  | start x =>
      have hx : x ≠ w := fun h => hstart (h ▸ rfl)
      simp [Event.worker?, hx]
  | loadRearm x =>
      simp only [Event.worker?, Option.some.injEq, ite_eq_right_iff]
      rintro rfl
      simp [readsDelta, hload rfl]
  | _ => simp [readsDelta]

theorem oneRead_effect
    {s : State ι} {e : Event ι} (h : OneRead s) (he : enabled s e) :
    OneRead (effect s e) := by
  have hreads : ∀ w, (((effect s e).worker w).reads : ℤ) =
      (s.worker w).reads +
        if e.worker? = some w then readsDelta s e else 0 := by
    intro w
    split
    next hw => exact worker_reads_effect hw he
    next hw =>
      rw [effect_worker_agree (g := Worker.reads) (fun _ => rfl) hw]
      simp
  constructor
  · intro w hstarting
    obtain ⟨hbefore, hne⟩ := (starting_effect_iff he).mp hstarting
    have hzero := h.starting w hbefore
    have hmove := hreads w
    have hdelta := readsDelta_eq_zero (s := s) hne (by
      rintro rfl
      simp [enabled, hbefore] at he)
    omega
  · intro w hstarted hrun
    have hbefore := running_of_effect hrun
    have hmove := hreads w
    by_cases hstarting : (s.worker w).thread = .starting
    · -- the worker has just constructed its scheduler
      have hstart : e = .start w := by
        by_contra hne
        exact hstarted ((starting_effect_iff he).mpr ⟨hstarting, hne⟩)
      have hzero := h.starting w hstarting
      subst hstart
      simp [Event.worker?, readsDelta] at hmove
      omega
    · have hone := h.started w hstarting hbefore
      have hne : e ≠ .start w := by
        rintro rfl
        exact hstarting he
      have hdelta := readsDelta_eq_zero hne (fun _ => hbefore)
      omega

theorem reachable_oneRead
    {s : State ι} (h : (machine ι).Reachable s) : OneRead s :=
  reachable_invariant oneRead_initial
    (fun _ _ _ hI he => oneRead_effect hI he) h

/-! ## Launching -/

/-- The fiber a step launches. -/
def Event.launched : Event ι → List (ι × Ticket)
  | .launch w t => [(w, t)]
  | _ => []

theorem launches_effect (s : State ι) (e : Event ι) :
    (effect s e).launches = s.launches ++ e.launched := by
  cases e with
  | launch w t => rfl
  | dequeue w =>
      simp only [effect, dequeue]
      split <;> simp [Event.launched]
  | mainInFlight w =>
      simp only [effect]
      split <;> simp [Event.launched]
  | _ => simp [effect, Event.launched, finishFiber, State.wakeAll]

theorem dequeued_effect_subset (s : State ι) (e : Event ι) :
    s.dequeued ⊆ (effect s e).dequeued := by
  cases hq : e.queues with
  | false =>
      obtain ⟨-, -, -, -, hdequeued⟩ :=
        effect_queue_of_not_queues (s := s) hq
      exact hdequeued ▸ List.Subset.refl _
  | true =>
      cases e with
      | dequeue w =>
          simp only [effect, dequeue]
          split
          · exact List.Subset.refl _
          · exact List.subset_append_left _ _
      | postPush | postWrite | readWork => exact List.Subset.refl _
      | _ => cases hq

/-- A thread that holds a task got it from the queue, in this step or before,
and has not launched it in this one. -/
theorem launching_of_effect
    {s : State ι} {e : Event ι} {w : ι} {t : Ticket}
    (he : enabled s e)
    (h : ((effect s e).worker w).thread = .launching t) :
    ((s.worker w).thread = .launching t ∧ e ≠ .launch w t) ∨
      ∃ rest, e = .dequeue w ∧ s.workQueue = t :: rest := by
  by_cases hw : e.worker? = some w
  · have hmove := moves_effect hw he
    generalize (effect s e).worker w = v at hmove h
    cases hmove with
    | dequeueSome _ hqueue =>
        obtain rfl := Thread.launching.inj h
        exact .inr ⟨_, rfl, hqueue⟩
    | readWork => exact .inl ⟨h, by simp⟩
    | _ => cases h
  · have hagree : ((effect s e).worker w).thread = (s.worker w).thread :=
      effect_worker_agree (g := Worker.thread) (fun _ => rfl) hw
    refine .inl ⟨hagree ▸ h, ?_⟩
    rintro rfl
    exact hw rfl

theorem launching_effect
    {s : State ι} {e : Event ι} {w : ι} {t : Ticket} (he : enabled s e)
    (h : (s.worker w).thread = .launching t) :
    e = .launch w t ∨ ((effect s e).worker w).thread = .launching t := by
  by_cases hw : e.worker? = some w
  · have hmove := moves_effect hw he
    generalize (effect s e).worker w = v at hmove ⊢
    cases hmove with
    | launch hthread =>
        obtain rfl := Thread.launching.inj (h.symm.trans hthread)
        exact .inl rfl
    | readWork => exact .inr h
    | _ => simp_all
  · exact .inr ((effect_worker_agree (g := Worker.thread) (fun _ => rfl)
      hw).trans h)

/-- Every task is launched at most once: a task leaves the queue for one
thread, which launches it and forgets it. -/
structure LaunchedOnce (s : State ι) : Prop where
  nodup : (s.launches.map Prod.snd).Nodup
  launched_dequeued : ∀ t ∈ s.launches.map Prod.snd, t ∈ s.dequeued
  held_dequeued : ∀ w t, (s.worker w).thread = .launching t →
    t ∈ s.dequeued ∧ t ∉ s.launches.map Prod.snd
  held_unique : ∀ w x t, (s.worker w).thread = .launching t →
    (s.worker x).thread = .launching t → w = x

omit [DecidableEq ι] in
theorem launchedOnce_initial : LaunchedOnce (initial : State ι) := by
  constructor <;> simp [initial]

theorem mem_launches_effect
    {s : State ι} {e : Event ι} {t : Ticket}
    (ht : t ∈ (effect s e).launches.map Prod.snd) :
    t ∈ s.launches.map Prod.snd ∨ ∃ w, e = .launch w t := by
  rw [launches_effect, List.map_append, List.mem_append] at ht
  refine ht.imp_right ?_
  cases e with
  | launch w t' =>
      intro hmem
      have heq : t = t' := by simpa [Event.launched] using hmem
      exact ⟨w, heq ▸ rfl⟩
  | _ => simp [Event.launched]

omit [DecidableEq ι] in
/-- The head of the queue has never been dequeued before. -/
theorem head_not_mem_dequeued
    {s : State ι} {t : Ticket} {rest : List Ticket}
    (hfifo : s.dequeued ++ s.workQueue = List.range s.posted)
    (hqueue : s.workQueue = t :: rest) : t ∉ s.dequeued := by
  intro ht
  have hnodup : (s.dequeued ++ t :: rest).Nodup := by
    rw [← hqueue, hfifo]
    exact List.nodup_range
  exact List.disjoint_of_nodup_append hnodup ht List.mem_cons_self

theorem launchedOnce_effect
    {s : State ι} {e : Event ι} (h : LaunchedOnce s) (he : enabled s e)
    (hfifo : s.dequeued ++ s.workQueue = List.range s.posted) :
    LaunchedOnce (effect s e) := by
  have hgrow := dequeued_effect_subset s e
  constructor
  · rw [launches_effect, List.map_append]
    cases e with
    | launch w t =>
        have hnew := (h.held_dequeued w t he).2
        exact nodup_append_singleton h.nodup hnew
    | _ => simpa [Event.launched] using h.nodup
  · intro t ht
    rcases mem_launches_effect ht with hold | ⟨w, rfl⟩
    · exact hgrow (h.launched_dequeued t hold)
    · exact hgrow (h.held_dequeued w t he).1
  · intro w t ht
    rcases launching_of_effect he ht with ⟨hold, hne⟩ | ⟨rest, rfl, hqueue⟩
    · refine ⟨hgrow (h.held_dequeued w t hold).1, ?_⟩
      intro hmem
      rcases mem_launches_effect hmem with hmem | ⟨x, rfl⟩
      · exact (h.held_dequeued w t hold).2 hmem
      · exact hne (h.held_unique w x t hold he ▸ rfl)
    · have hfresh := head_not_mem_dequeued hfifo hqueue
      refine ⟨by simp [effect, dequeue, hqueue], ?_⟩
      intro hmem
      rcases mem_launches_effect hmem with hmem | ⟨x, hx⟩
      · exact hfresh (h.launched_dequeued t hmem)
      · cases hx
  · intro w x t hw hx
    rcases launching_of_effect he hw with ⟨hwold, -⟩ | ⟨rest, hwnew, hqueue⟩
    · rcases launching_of_effect he hx with ⟨hxold, -⟩ | ⟨rest, -, hqueue⟩
      · exact h.held_unique w x t hwold hxold
      · exact absurd (h.held_dequeued w t hwold).1
          (head_not_mem_dequeued hfifo hqueue)
    · rcases launching_of_effect he hx with ⟨hxold, -⟩ | ⟨_, hxnew, -⟩
      · exact absurd (h.held_dequeued x t hxold).1
          (head_not_mem_dequeued hfifo hqueue)
      · exact Event.dequeue.inj (hwnew.symm.trans hxnew)

theorem reachable_launchedOnce [Fintype ι]
    {s : State ι} (h : (machine ι).Reachable s) : LaunchedOnce s :=
  reachable_invariant launchedOnce_initial
    (fun _ _ hs hI he =>
      launchedOnce_effect hI he (reachable_accounted hs).fifo) h

/-! ## The dispatch theorem -/

/-- While the pool runs, work dispatch loses and duplicates nothing: the queue
is exactly as long as the wake-ups on their way; each worker has its one read
armed, its CQE undrained or its CQE in hand; tasks leave the queue in push
order, and each is launched at most once; and a work CQE with `res >= 0` finds
the queue non-empty.  In particular a non-empty queue always has a wake-up on
its way. -/
theorem dispatch_conserves [Fintype ι]
    {s : State ι} (h : (machine ι).Reachable s) (hrun : s.running = true) :
    s.workQueue.length = s.eventfd + s.owed + s.unwritten ∧
      (∀ w, (s.worker w).thread ≠ .starting →
        (s.worker w).armedReads + (s.worker w).workCqes.length +
          (s.worker w).thread.processing = 1) ∧
      s.dequeued ++ s.workQueue = List.range s.posted ∧
      (s.launches.map Prod.snd).Nodup ∧
      (∀ t ∈ s.launches.map Prod.snd, t ∈ s.dequeued) ∧
      (∀ w, (s.worker w).thread = .dequeuing → s.workQueue ≠ []) ∧
      (s.workQueue ≠ [] → 0 < s.eventfd + s.owed + s.unwritten) := by
  have haccounted := reachable_accounted h
  have honce := reachable_launchedOnce h
  have hlength : s.workQueue.length = s.eventfd + s.owed + s.unwritten :=
    haccounted.wakeUps_eq hrun
  refine ⟨hlength, ?_, haccounted.fifo, honce.nodup,
    honce.launched_dequeued, ?_, ?_⟩
  · intro w hw
    exact (reachable_oneRead h).started w hw hrun
  · intro w hw
    exact haccounted.queue_ne_nil hw
  · intro hne
    rw [← hlength]
    exact List.length_pos_iff.mpr hne

/-- Two posts, of which worker 1 has taken one wake-up while the other
producer has yet to write. -/
theorem dispatch_conserves_two_posts :
    ∃ s : State (Fin 2), (machine (Fin 2)).Reachable s ∧
      s.running = true ∧ s.workQueue = [0, 1] ∧
      s.workQueue.length = s.eventfd + s.owed + s.unwritten := by
  obtain ⟨s, hs, hrun, hqueue⟩ := Machine.exists_reachableUnder_of_exec
    (M := machine (Fin 2)) (G := fun _ _ => True)
    (P := fun s => s.running = true ∧ s.workQueue = [0, 1]) rfl
    [.start 1, .postPush, .postWrite, .postPush, .readWork 1 8, .takeCqe 1 8]
    (by decide)
  exact ⟨s, hs, hrun, hqueue, (dispatch_conserves hs hrun).1⟩

end Fiberexec.Pool
