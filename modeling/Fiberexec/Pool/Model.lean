import Fiberexec.Support.Machine
import Fiberexec.Support.Tally
import Mathlib.Data.Fintype.Basic
import Mathlib.Data.Int.Order.Basic

/-!
# The fiber pool

This is the model of `fiber_pool` and of the part of `io_uring_scheduler` that
touches state shared between OS threads: `post`, the `k_work_tag` branch of
`drain_cqes`, `arm_work_efd`, `launch_fiber`, `stop`, `worker` and
`~fiber_pool`.

Every atomic access is one step, and so is every critical section of `mtx_`.
The thread of a worker executes one thing at a time, so a worker's fibers, its
main fiber and its `drain_cqes` interleave only where the running code
suspends, while different workers, the producers, the thread that destroys the
pool and the kernel interleave freely.

Tasks are identified by the number of the `post` call that carried them.
-/

namespace Fiberexec.Pool

open Support

/-- The number of a `post` call, standing for the task it carries. -/
abbrev Ticket := ℕ

/-! ## Local states -/

/-- What the OS thread of a worker is executing. -/
inductive Thread
  /-- spawned, `use_scheduling_algorithm` not yet run -/
  | starting
  /-- in the dispatcher, that is in `pick_next` or `suspend_until` -/
  | dispatching
  /-- `drain_cqes` took a work CQE with this `res` off the ring -/
  | workCqe (res : ℤ)
  /-- `res >= 0` and `running_` was read as true; about to lock `mtx_` -/
  | dequeuing
  /-- holds a dequeued task; about to increment `in_flight_` -/
  | launching (t : Ticket)
  /-- about to load `running_` for the re-arm -/
  | rearmCheck
  /-- `running_` was read as true; about to call `arm_work_efd` -/
  | arming
  /-- runs the fiber of this task -/
  | fiber (t : Ticket)
  /-- a finished fiber decremented `in_flight_` from 1; about to notify -/
  | notifying
  /-- main fiber, holding `shutdown_mtx_`, about to load `running_` -/
  | mainLoadRunning
  /-- main fiber, read `running_` as false, about to load `in_flight_` -/
  | mainLoadInFlight
  /-- main fiber, predicate false, about to enqueue and unlock -/
  | mainParking
  /-- `worker()` returned -/
  | exited
  deriving DecidableEq

/-- Where the main fiber of a worker stands in `shutdown_cv_.wait`. -/
inductive MainFiber
  /-- wants `shutdown_mtx_`, at first or after a wake-up -/
  | locking
  | holding
  /-- enqueued on `shutdown_cv_` -/
  | enqueued
  | returned
  deriving DecidableEq

/-- One worker.  `armedReads` are its reads of the work eventfd that the
kernel holds, `workCqes` the results of those whose CQE is undrained, and
`live` the fibers it launched that have not yet decremented `in_flight_`. -/
structure Worker where
  armedReads : ℕ
  workCqes : List ℤ
  thread : Thread
  main : MainFiber
  live : List Ticket

/-- Progress of `~fiber_pool`, whose first act is `stop()`. -/
inductive Owner
  | alive
  /-- requested the pool's stop source; wants `shutdown_mtx_` -/
  | stopLocking
  | stopStoring
  | stopNotifying
  | stopUnlocking
  | joining
  | destroyed
  deriving DecidableEq

/-- Who holds `shutdown_mtx_`. -/
inductive Holder (ι : Type*)
  | main (w : ι)
  | stop
  deriving DecidableEq

/-- The pool, with workers named by `ι`.  The last five fields record history:
the number of pushes so far, the posts that have pushed and not yet written
the eventfd, and who was dequeued, launched and finished, in order. -/
structure State (ι : Type*) where
  workQueue : List Ticket
  eventfd : ℕ
  running : Bool
  inFlight : ℕ
  shutdownMtx : Option (Holder ι)
  owner : Owner
  worker : ι → Worker
  posted : ℕ
  unwritten : ℕ
  dequeued : List Ticket
  launches : List (ι × Ticket)
  finishes : List (ι × Ticket)

/-! ## Steps -/

/-- The atomic steps. -/
inductive Event (ι : Type*)
  /-- a worker thread constructs its scheduler, which arms the work read -/
  | start (w : ι)
  /-- `post`: push under `mtx_` -/
  | postPush
  /-- `post`: write the eventfd -/
  | postWrite
  /-- the kernel completes an armed work read -/
  | readWork (w : ι) (res : ℤ)
  /-- `drain_cqes` takes the next work CQE off the ring -/
  | takeCqe (w : ι) (res : ℤ)
  /-- `res >= 0 && running_.load(relaxed)` -/
  | loadRunning (w : ι) (res : ℤ)
  /-- the critical section of `mtx_` in `drain_cqes` -/
  | dequeue (w : ι)
  /-- `launch_fiber` -/
  | launch (w : ι) (t : Ticket)
  /-- `running_.load(acquire)` -/
  | loadRearm (w : ι)
  /-- `arm_work_efd` -/
  | armWorkEfd (w : ι)
  /-- the dispatcher switches to a fiber -/
  | resume (w : ι) (t : Ticket)
  /-- the running fiber suspends -/
  | suspend (w : ι) (t : Ticket)
  /-- the running fiber's task returns and `in_flight_` is decremented -/
  | finish (w : ι) (t : Ticket)
  /-- a finished fiber's `shutdown_cv_.notify_all()` -/
  | notifyAll (w : ι)
  /-- the main fiber acquires `shutdown_mtx_` -/
  | mainLock (w : ι)
  /-- the predicate's `running_.load(relaxed)` -/
  | mainRunning (w : ι)
  /-- the predicate's `in_flight_.load(acquire)` -/
  | mainInFlight (w : ι)
  /-- enqueue on `shutdown_cv_` and unlock -/
  | mainPark (w : ι)
  /-- `stop`: `pool_stop_source_.request_stop()` -/
  | stopRequest
  | stopLock
  /-- `stop`: `running_.store(false)` -/
  | stopStore
  | stopNotify
  | stopUnlock
  /-- every `thr.join()` has returned -/
  | join
  deriving DecidableEq

variable {ι : Type*} [DecidableEq ι]

/-- Replace the local state of one worker. -/
@[simp] def State.set (s : State ι) (w : ι) (v : Worker) : State ι :=
  { s with worker := Function.update s.worker w v }

/-- Move the thread of one worker. -/
@[simp] def State.goto (s : State ι) (w : ι) (pc : Thread) : State ι :=
  s.set w { s.worker w with thread := pc }

/-- A parked main fiber that is notified wants the mutex again. -/
def Worker.wake (v : Worker) : Worker :=
  { v with main := if v.main = .enqueued then .locking else v.main }

/-- `shutdown_cv_.notify_all()`. -/
def State.wakeAll (s : State ι) : State ι :=
  { s with worker := fun w => (s.worker w).wake }

/-- When a step may be taken. -/
def enabled (s : State ι) : Event ι → Prop
  | .start w => (s.worker w).thread = .starting
  | .postPush => s.owner ≠ .destroyed
  | .postWrite => 0 < s.unwritten
  | .readWork w res =>
      0 < (s.worker w).armedReads ∧ (0 ≤ res → 0 < s.eventfd)
  | .takeCqe w res =>
      (s.worker w).thread = .dispatching ∧
        (s.worker w).workCqes.head? = some res
  | .loadRunning w res => (s.worker w).thread = .workCqe res
  | .dequeue w => (s.worker w).thread = .dequeuing
  | .launch w t => (s.worker w).thread = .launching t
  | .loadRearm w => (s.worker w).thread = .rearmCheck
  | .armWorkEfd w => (s.worker w).thread = .arming
  | .resume w t =>
      (s.worker w).thread = .dispatching ∧ t ∈ (s.worker w).live
  | .suspend w t => (s.worker w).thread = .fiber t
  | .finish w t => (s.worker w).thread = .fiber t
  | .notifyAll w => (s.worker w).thread = .notifying
  | .mainLock w =>
      (s.worker w).thread = .dispatching ∧
        (s.worker w).main = .locking ∧ s.shutdownMtx = none
  | .mainRunning w => (s.worker w).thread = .mainLoadRunning
  | .mainInFlight w => (s.worker w).thread = .mainLoadInFlight
  | .mainPark w => (s.worker w).thread = .mainParking
  | .stopRequest => s.owner = .alive
  | .stopLock => s.owner = .stopLocking ∧ s.shutdownMtx = none
  | .stopStore => s.owner = .stopStoring
  | .stopNotify => s.owner = .stopNotifying
  | .stopUnlock => s.owner = .stopUnlocking
  | .join => s.owner = .joining ∧ ∀ w, (s.worker w).thread = .exited

/-- The critical section of `mtx_` in `drain_cqes`. -/
def dequeue (s : State ι) (w : ι) : State ι :=
  match s.workQueue with
  | [] => s.goto w .rearmCheck
  | t :: rest =>
      { s.goto w (.launching t) with
        workQueue := rest
        dequeued := s.dequeued ++ [t] }

/-- `launch_fiber`: count the fiber, then create and detach it. -/
def launchFiber (s : State ι) (w : ι) (t : Ticket) : State ι :=
  { s.set w { s.worker w with
      thread := .rearmCheck
      live := t :: (s.worker w).live } with
    inFlight := s.inFlight + 1
    launches := s.launches ++ [(w, t)] }

/-- The end of the tracked fiber body: the fiber that brings the counter from
1 to 0 goes on to notify. -/
def finishFiber (s : State ι) (w : ι) (t : Ticket) : State ι :=
  { s.set w { s.worker w with
      thread := if s.inFlight = 1 then .notifying else .dispatching
      live := (s.worker w).live.erase t } with
    inFlight := s.inFlight - 1
    finishes := s.finishes ++ [(w, t)] }

/-- What a step does. -/
def effect (s : State ι) : Event ι → State ι
  | .start w =>
      s.set w { s.worker w with
        thread := .dispatching
        armedReads := (s.worker w).armedReads + 1 }
  | .postPush =>
      { s with
        workQueue := s.workQueue ++ [s.posted]
        posted := s.posted + 1
        unwritten := s.unwritten + 1 }
  | .postWrite =>
      { s with
        eventfd := s.eventfd + 1
        unwritten := s.unwritten - 1 }
  | .readWork w res =>
      { s.set w { s.worker w with
          armedReads := (s.worker w).armedReads - 1
          workCqes := (s.worker w).workCqes ++ [res] } with
        -- a failed read leaves the count alone
        eventfd := if 0 ≤ res then s.eventfd - 1 else s.eventfd }
  | .takeCqe w res =>
      s.set w { s.worker w with
        thread := .workCqe res
        workCqes := (s.worker w).workCqes.tail }
  | .loadRunning w res =>
      s.goto w (if 0 ≤ res ∧ s.running = true then .dequeuing else .rearmCheck)
  | .dequeue w => dequeue s w
  | .launch w t => launchFiber s w t
  | .loadRearm w =>
      s.goto w (if s.running = true then .arming else .dispatching)
  | .armWorkEfd w =>
      s.set w { s.worker w with
        thread := .dispatching
        armedReads := (s.worker w).armedReads + 1 }
  | .resume w t => s.goto w (.fiber t)
  | .suspend w _ => s.goto w .dispatching
  | .finish w t => finishFiber s w t
  | .notifyAll w => s.wakeAll.goto w .dispatching
  | .mainLock w =>
      { s.set w { s.worker w with
          thread := .mainLoadRunning
          main := .holding } with
        shutdownMtx := some (.main w) }
  | .mainRunning w =>
      s.goto w (if s.running = true then .mainParking else .mainLoadInFlight)
  | .mainInFlight w =>
      if s.inFlight = 0 then
        { s.set w { s.worker w with
            thread := .exited
            main := .returned } with
          shutdownMtx := none }
      else s.goto w .mainParking
  | .mainPark w =>
      { s.set w { s.worker w with
          thread := .dispatching
          main := .enqueued } with
        shutdownMtx := none }
  | .stopRequest => { s with owner := .stopLocking }
  | .stopLock =>
      { s with
        owner := .stopStoring
        shutdownMtx := some .stop }
  | .stopStore =>
      { s with
        owner := .stopNotifying
        running := false }
  | .stopNotify => { s.wakeAll with owner := .stopUnlocking }
  | .stopUnlock =>
      { s with
        owner := .joining
        shutdownMtx := none }
  | .join => { s with owner := .destroyed }

/-- The pool as `fiber_pool`'s constructor leaves it, its threads spawned. -/
def initial : State ι where
  workQueue := []
  eventfd := 0
  running := true
  inFlight := 0
  shutdownMtx := none
  owner := .alive
  worker := fun _ =>
    { armedReads := 0, workCqes := [], thread := .starting,
      main := .locking, live := [] }
  posted := 0
  unwritten := 0
  dequeued := []
  launches := []
  finishes := []

/-- The pool as a system of atomic steps. -/
def machine (ι : Type*) [DecidableEq ι] : Machine (State ι) (Event ι) where
  init := fun s => s = initial
  enabled := enabled
  effect := effect

theorem reachable_invariant
    {I : State ι → Prop} (hinit : I initial)
    (hstep : ∀ s e, (machine ι).Reachable s → I s → enabled s e →
      I (effect s e))
    {s : State ι} (h : (machine ι).Reachable s) : I s := by
  refine Machine.Reachable.invariant ?_ hstep h
  rintro s rfl
  exact hinit

/-! ## What a step leaves alone -/

/-- The worker whose thread, or whose ring, a step belongs to. -/
def Event.worker? : Event ι → Option ι
  | .start w | .readWork w _ | .takeCqe w _ | .loadRunning w _ | .dequeue w
  | .launch w _ | .loadRearm w | .armWorkEfd w | .resume w _ | .suspend w _
  | .finish w _ | .notifyAll w | .mainLock w | .mainRunning w
  | .mainInFlight w | .mainPark w => some w
  | .postPush | .postWrite | .stopRequest | .stopLock | .stopStore
  | .stopNotify | .stopUnlock | .join => none

/-- What an enabled step does to the worker it belongs to, with one case for
each way that it can go. -/
inductive Moves (s : State ι) (w : ι) : Event ι → Worker → Prop
  | start : (s.worker w).thread = .starting →
      Moves s w (.start w) { s.worker w with
        thread := .dispatching
        armedReads := (s.worker w).armedReads + 1 }
  | readWork {res : ℤ} : 0 < (s.worker w).armedReads →
      Moves s w (.readWork w res) { s.worker w with
        armedReads := (s.worker w).armedReads - 1
        workCqes := (s.worker w).workCqes ++ [res] }
  | takeCqe {res : ℤ} {rest : List ℤ} :
      (s.worker w).thread = .dispatching →
      (s.worker w).workCqes = res :: rest →
      Moves s w (.takeCqe w res) { s.worker w with
        thread := .workCqe res
        workCqes := rest }
  | loadTrue {res : ℤ} : (s.worker w).thread = .workCqe res → 0 ≤ res →
      s.running = true →
      Moves s w (.loadRunning w res) { s.worker w with thread := .dequeuing }
  | loadFalse {res : ℤ} : (s.worker w).thread = .workCqe res →
      ¬(0 ≤ res ∧ s.running = true) →
      Moves s w (.loadRunning w res) { s.worker w with thread := .rearmCheck }
  | dequeueNone : (s.worker w).thread = .dequeuing → s.workQueue = [] →
      Moves s w (.dequeue w) { s.worker w with thread := .rearmCheck }
  | dequeueSome {t : Ticket} {rest : List Ticket} :
      (s.worker w).thread = .dequeuing → s.workQueue = t :: rest →
      Moves s w (.dequeue w) { s.worker w with thread := .launching t }
  | launch {t : Ticket} : (s.worker w).thread = .launching t →
      Moves s w (.launch w t) { s.worker w with
        thread := .rearmCheck
        live := t :: (s.worker w).live }
  | rearm : (s.worker w).thread = .rearmCheck → s.running = true →
      Moves s w (.loadRearm w) { s.worker w with thread := .arming }
  | rearmSkip : (s.worker w).thread = .rearmCheck → s.running = false →
      Moves s w (.loadRearm w) { s.worker w with thread := .dispatching }
  | armWorkEfd : (s.worker w).thread = .arming →
      Moves s w (.armWorkEfd w) { s.worker w with
        thread := .dispatching
        armedReads := (s.worker w).armedReads + 1 }
  | resume {t : Ticket} : (s.worker w).thread = .dispatching →
      t ∈ (s.worker w).live →
      Moves s w (.resume w t) { s.worker w with thread := .fiber t }
  | suspend {t : Ticket} : (s.worker w).thread = .fiber t →
      Moves s w (.suspend w t) { s.worker w with thread := .dispatching }
  | finishLast {t : Ticket} : (s.worker w).thread = .fiber t →
      s.inFlight = 1 →
      Moves s w (.finish w t) { s.worker w with
        thread := .notifying
        live := (s.worker w).live.erase t }
  | finish {t : Ticket} : (s.worker w).thread = .fiber t → s.inFlight ≠ 1 →
      Moves s w (.finish w t) { s.worker w with
        thread := .dispatching
        live := (s.worker w).live.erase t }
  | notifyAll : (s.worker w).thread = .notifying →
      Moves s w (.notifyAll w) { (s.worker w).wake with
        thread := .dispatching }
  | mainLock : (s.worker w).thread = .dispatching →
      (s.worker w).main = .locking →
      Moves s w (.mainLock w) { s.worker w with
        thread := .mainLoadRunning
        main := .holding }
  | mainRunning : (s.worker w).thread = .mainLoadRunning →
      s.running = true →
      Moves s w (.mainRunning w) { s.worker w with thread := .mainParking }
  | mainStopped : (s.worker w).thread = .mainLoadRunning →
      s.running = false →
      Moves s w (.mainRunning w) { s.worker w with
        thread := .mainLoadInFlight }
  | mainReturn : (s.worker w).thread = .mainLoadInFlight → s.inFlight = 0 →
      Moves s w (.mainInFlight w) { s.worker w with
        thread := .exited
        main := .returned }
  | mainInFlight : (s.worker w).thread = .mainLoadInFlight →
      s.inFlight ≠ 0 →
      Moves s w (.mainInFlight w) { s.worker w with thread := .mainParking }
  | mainPark : (s.worker w).thread = .mainParking →
      Moves s w (.mainPark w) { s.worker w with
        thread := .dispatching
        main := .enqueued }

/-- Every enabled step of a worker is one of these moves. -/
theorem moves_effect
    {s : State ι} {e : Event ι} {w : ι} (hw : e.worker? = some w)
    (he : enabled s e) : Moves s w e ((effect s e).worker w) := by
  cases e with
  | postPush | postWrite | stopRequest | stopLock | stopStore | stopNotify
  | stopUnlock | join => cases hw
  | start x =>
      cases hw
      simpa [effect] using Moves.start he
  | readWork x res =>
      cases hw
      simpa [effect] using Moves.readWork he.1
  | takeCqe x res =>
      cases hw
      obtain ⟨rest, hcqes⟩ := List.head?_eq_some_iff.mp he.2
      simpa [effect, hcqes] using Moves.takeCqe he.1 hcqes
  | loadRunning x res =>
      cases hw
      by_cases hload : 0 ≤ res ∧ s.running = true
      · simpa [effect, hload] using Moves.loadTrue he hload.1 hload.2
      · simpa [effect, hload] using Moves.loadFalse he hload
  | dequeue x =>
      cases hw
      cases hqueue : s.workQueue with
      | nil => simpa [effect, dequeue, hqueue] using Moves.dequeueNone he hqueue
      | cons t rest =>
          simpa [effect, dequeue, hqueue] using Moves.dequeueSome he hqueue
  | launch x t =>
      cases hw
      simpa [effect, launchFiber] using Moves.launch he
  | loadRearm x =>
      cases hw
      cases hrun : s.running with
      | true => simpa [effect, hrun] using Moves.rearm he hrun
      | false => simpa [effect, hrun] using Moves.rearmSkip he hrun
  | armWorkEfd x =>
      cases hw
      simpa [effect] using Moves.armWorkEfd he
  | resume x t =>
      cases hw
      simpa [effect] using Moves.resume he.1 he.2
  | suspend x t =>
      cases hw
      simpa [effect] using Moves.suspend he
  | finish x t =>
      cases hw
      by_cases hlast : s.inFlight = 1
      · simpa [effect, finishFiber, hlast] using Moves.finishLast he hlast
      · simpa [effect, finishFiber, hlast] using Moves.finish he hlast
  | notifyAll x =>
      cases hw
      simpa [effect, State.wakeAll] using Moves.notifyAll he
  | mainLock x =>
      cases hw
      simpa [effect] using Moves.mainLock he.1 he.2.1
  | mainRunning x =>
      cases hw
      cases hrun : s.running with
      | true => simpa [effect, hrun] using Moves.mainRunning he hrun
      | false => simpa [effect, hrun] using Moves.mainStopped he hrun
  | mainInFlight x =>
      cases hw
      by_cases hzero : s.inFlight = 0
      · simpa [effect, hzero] using Moves.mainReturn he hzero
      · simpa [effect, hzero] using Moves.mainInFlight he hzero
  | mainPark x =>
      cases hw
      simpa [effect] using Moves.mainPark he

theorem effect_worker_of_ne
    {s : State ι} {e : Event ι} {x : ι} (hx : e.worker? ≠ some x) :
    (effect s e).worker x = s.worker x ∨
      (effect s e).worker x = (s.worker x).wake := by
  cases e with
  | dequeue w =>
      have hne : x ≠ w := fun h => hx (h ▸ rfl)
      simp only [effect, dequeue]
      split <;> simp [hne]
  | mainInFlight w =>
      have hne : x ≠ w := fun h => hx (h ▸ rfl)
      simp only [effect]
      split <;> simp [hne]
  | notifyAll w =>
      have hne : x ≠ w := fun h => hx (h ▸ rfl)
      exact .inr (by simp [effect, hne, State.wakeAll])
  | stopNotify => exact .inr rfl
  | postPush | postWrite | stopRequest | stopLock | stopStore | stopUnlock
  | join => exact .inl rfl
  | start w | readWork w | takeCqe w | loadRunning w | launch w | loadRearm w
  | armWorkEfd w | resume w | suspend w | finish w | mainLock w
  | mainRunning w | mainPark w =>
      have hne : x ≠ w := fun h => hx (h ▸ rfl)
      exact .inl (by simp [effect, launchFiber, finishFiber, hne])

/-- A quantity that waking does not change stays the same at workers the step
does not belong to. -/
theorem effect_worker_agree
    {α : Type*} {g : Worker → α} (hg : ∀ v, g v.wake = g v)
    {s : State ι} {e : Event ι} {x : ι} (hx : e.worker? ≠ some x) :
    g ((effect s e).worker x) = g (s.worker x) := by
  rcases effect_worker_of_ne (s := s) hx with h | h
  · rw [h]
  · rw [h, hg]

/-- A total that waking does not change moves by the share of the worker the
step belongs to. -/
theorem total_effect [Fintype ι]
    {g : Worker → ℕ} (hg : ∀ v, g v.wake = g v)
    {s : State ι} {e : Event ι} {δ : ℤ}
    (hlocal : ∀ w, e.worker? = some w →
      (g ((effect s e).worker w) : ℤ) = g (s.worker w) + δ)
    (hnone : e.worker? = none → δ = 0) :
    ((∑ x, g ((effect s e).worker x) : ℕ) : ℤ) =
      (∑ x, g (s.worker x) : ℕ) + δ := by
  cases hw : e.worker? with
  | some w =>
      have htotal : ∑ x, g ((effect s e).worker x) + g (s.worker w) =
          ∑ x, g (s.worker x) + g ((effect s e).worker w) := by
        refine total_add_of_agree_off w ?_
        intro x hx
        refine effect_worker_agree hg ?_
        rw [hw]
        exact fun h => hx (Option.some.inj h).symm
      have hshare := hlocal w hw
      omega
  | none =>
      have htotal : ∑ x, g ((effect s e).worker x) = ∑ x, g (s.worker x) :=
        Finset.sum_congr rfl
          (fun x _ => effect_worker_agree hg (by rw [hw]; exact nofun))
      rw [htotal, hnone hw, add_zero]

instance [Fintype ι] (s : State ι) (e : Event ι) :
    Decidable ((machine ι).enabled s e) := by
  change Decidable (enabled s e)
  cases e <;> (dsimp only [enabled]; infer_instance)

end Fiberexec.Pool
