import Fiberexec.Scheduler.Model

/-!
# Wake-ups

A fiber that is made ready is run, in the order in which the fibers were made
ready, also when the thread is about to block or blocks in `suspend_until`; behind
them the fibers of the completions that are in the queue.  The argument counts: as
long as the thread does not look at `ready_`, each fiber in it has its own `notify`
outstanding, as a thread that is still to write, in the eventfd, or in the completion
queue; and the notify read is armed, or its CQE is there.
-/

namespace Fiberexec.Scheduler

open Support

variable {φ : Type}

/-! ## Counting notifications -/

def Cqe.isNotify : Cqe φ → Bool
  | .notify => true
  | .request _ => false

/-- The CQEs of the notify read. -/
def State.notified (s : State φ) : ℕ :=
  s.cqes.countP Cqe.isNotify

/-- The thread has found `ready_` empty and will not look again before it has
drained CQEs. -/
def Thread.asleep : Thread φ → Bool
  | .suspending _ | .waiting _ _ => true
  | _ => false

/-- The kernel waits as long as it was asked to. -/
def Thread.Punctual : Thread φ → Prop
  | .waiting absTime expiry => expiry = absTime
  | _ => True

structure Awake (s : State φ) : Prop where
  fifo : s.picked ++ s.ready = s.awoken
  oneRead : s.armed + s.notified = 1
  owed : s.thread.asleep = true →
    s.ready.length ≤ s.unwritten + s.notifyFd + s.notified
  punctual : s.thread.Punctual

theorem awake_initial (now : ℤ) : Awake (initial now : State φ) where
  fifo := rfl
  oneRead := rfl
  owed := by simp [initial, Thread.asleep]
  punctual := trivial

theorem awake_push {s : State φ} (h : Awake s) (f : φ)
    (hthread : s.thread.asleep = false) : Awake (s.push f) where
  fifo := by simp [State.push, ← h.fifo]
  oneRead := h.oneRead
  owed := fun hasleep => by
    rw [show (s.push f).thread = s.thread from rfl, hthread] at hasleep
    cases hasleep
  punctual := h.punctual

theorem Awake.goto
    {s : State φ} (h : Awake s) {t : Thread φ} (hasleep : t.asleep = false)
    (hpunctual : t.Punctual) : Awake { s with thread := t } where
  fifo := h.fifo
  oneRead := h.oneRead
  owed := fun h => by
    rw [show ({ s with thread := t } : State φ).thread = t from rfl, hasleep] at h
    cases h
  punctual := hpunctual

theorem awake_pickNext {s : State φ} (h : Awake s) (absTime : Deadline) :
    Awake (s.pickNext absTime) := by
  have hfifo := h.fifo
  rw [State.pickNext]
  split
  next hready =>
      refine ⟨h.fifo, h.oneRead, fun _ => ?_, trivial⟩
      simp [hready]
  next f rest hready =>
      refine ⟨?_, h.oneRead, ?_, trivial⟩
      · simpa [hready] using hfifo
      · exact fun hasleep => by cases hasleep

theorem awake_suspendUntil {s : State φ} (h : Awake s) {absTime : Deadline}
    (hthread : s.thread = .suspending absTime) :
    Awake (s.suspendUntil absTime) := by
  have howed := h.owed (by rw [hthread]; rfl)
  unfold State.suspendUntil
  split
  next => exact h.goto rfl trivial
  next =>
      split
      next => exact ⟨h.fifo, h.oneRead, fun _ => howed, rfl⟩
      next d =>
          split
          next => exact h.goto rfl trivial
          next =>
              refine ⟨h.fifo, h.oneRead, fun _ => howed, ?_⟩
              change some (s.now + (timespec (d - s.now)).nanos) = some d
              rw [nanos_timespec]
              congr 1
              omega

theorem awake_drainCqe {s : State φ} (h : Awake s)
    (hthread : s.thread = .draining) : Awake s.drainCqe := by
  have hread := h.oneRead
  have hasleep : s.thread.asleep = false := by rw [hthread]; rfl
  rw [State.drainCqe]
  split
  next => exact h.goto rfl trivial
  next rest hcqes =>
      refine ⟨h.fifo, ?_, by simp [hasleep], h.punctual⟩
      rw [State.notified, hcqes, List.countP_cons_of_pos rfl] at hread
      simp only [State.notified]
      omega
  next rest hcqes =>
      refine ⟨h.fifo, ?_, by simp [hasleep], h.punctual⟩
      simpa [State.notified, hcqes, Cqe.isNotify] using hread
  next f rest hcqes =>
      have hpush := awake_push h f hasleep
      refine ⟨hpush.fifo, ?_, fun hasleep' => ?_, h.punctual⟩
      · simpa [State.notified, State.push, hcqes, Cqe.isNotify] using hread
      · change s.thread.asleep = true at hasleep'
        rw [hasleep] at hasleep'
        cases hasleep'

theorem awake_effect {s : State φ} {e : Event φ} (h : Awake s)
    (he : enabled s e) : Awake (effect s e) := by
  have hread := h.oneRead
  cases e with
  | awakened f =>
      refine ⟨by simp [effect, State.push, ← h.fifo], h.oneRead, ?_, h.punctual⟩
      intro hasleep
      have howed := h.owed hasleep
      simp only [effect, State.push, State.notified, List.length_append,
        List.length_singleton] at howed ⊢
      omega
  | notify =>
      have hpos : 0 < s.unwritten := he
      refine ⟨h.fifo, h.oneRead, fun hasleep => ?_, h.punctual⟩
      have howed := h.owed hasleep
      simp only [effect, State.notified] at howed ⊢
      omega
  | requestCancel =>
      refine ⟨h.fifo, h.oneRead, fun hasleep => ?_, h.punctual⟩
      have howed := h.owed hasleep
      simp only [effect, State.notified] at howed ⊢
      omega
  | readNotify =>
      obtain ⟨harmed, hfd⟩ : 0 < s.armed ∧ 0 < s.notifyFd := he
      refine ⟨h.fifo, ?_, fun hasleep => ?_, h.punctual⟩
      · simp [effect, State.notified, Cqe.isNotify] at hread ⊢
        omega
      · have howed := h.owed hasleep
        simp [effect, State.notified, Cqe.isNotify] at howed ⊢
        omega
  | complete f =>
      refine ⟨h.fifo, ?_, fun hasleep => ?_, h.punctual⟩
      · simpa [effect, State.notified, Cqe.isNotify] using hread
      · simpa [effect, State.notified, Cqe.isNotify] using h.owed hasleep
  | tick => exact ⟨h.fifo, h.oneRead, h.owed, h.punctual⟩
  | wake f =>
      refine awake_push h f ?_
      cases hthread : s.thread <;> simp_all [enabled, Thread.atLarge, Thread.asleep]
  | suspend => exact h.goto rfl trivial
  | yield =>
      simp only [effect]
      split
      next f hthread =>
          exact (awake_push h f (by rw [hthread]; rfl)).goto rfl trivial
      next => exact h
  | pickNext absTime => exact awake_pickNext h absTime
  | peek =>
      simp only [effect]
      split
      next absTime hthread => exact awake_suspendUntil h hthread
      next => exact h
  | waitCqe => exact h.goto rfl trivial
  | waitFails | waitExpires => exact h.goto rfl trivial
  | drainCqe => exact awake_drainCqe h he

theorem awake_of_reachable
    {s : State φ} (h : (machine φ).Reachable s) : Awake s := by
  refine h.invariant ?_ ?_
  · rintro s ⟨now, rfl⟩
    exact awake_initial now
  · intro s e _ hI he
    exact awake_effect hI he

/-! ## Blocking -/

/-- A sleeping thread with a ready fiber is about to be woken. -/
theorem Awake.woken
    {s : State φ} (h : Awake s) (hasleep : s.thread.asleep = true)
    (hready : s.ready ≠ []) :
    0 < s.unwritten ∨ 0 < s.armed ∧ 0 < s.notifyFd ∨ s.cqes ≠ [] := by
  have hpos := List.length_pos_iff.mpr hready
  have howed := h.owed hasleep
  have hread := h.oneRead
  by_cases hcqes : s.cqes = []
  · have hnone : s.notified = 0 := by rw [State.notified, hcqes]; rfl
    rcases Nat.eq_zero_or_pos s.unwritten with hzero | hunwritten
    · exact .inr (.inl ⟨by omega, by omega⟩)
    · exact .inl hunwritten
  · exact .inr (.inr hcqes)

/-- `ready_` is a queue: the fibers picked and those still in it are the fibers
made ready, in order.  A thread that has found it empty and is about to block, or
blocks, while fibers are made ready is about to be woken: a CQE is there, the armed
notify read can complete, or the thread that made a fiber ready is still to call
`notify`.  A wait with a time limit ends when the limit says, not earlier. -/
theorem blocked_thread_is_woken
    {s : State φ} (h : (machine φ).Reachable s) :
    s.picked ++ s.ready = s.awoken ∧
      (s.thread.asleep = true → s.ready ≠ [] →
        0 < s.unwritten ∨ 0 < s.armed ∧ 0 < s.notifyFd ∨ s.cqes ≠ []) ∧
      (∀ absTime expiry, s.thread = .waiting absTime expiry →
        (enabled s .waitExpires ↔ ∃ d ∈ absTime, d ≤ s.now)) := by
  have hawake := awake_of_reachable h
  refine ⟨hawake.fifo, hawake.woken, ?_⟩
  intro absTime expiry hthread
  have hpunctual := hawake.punctual
  rw [hthread] at hpunctual
  obtain rfl : expiry = absTime := hpunctual
  cases expiry with
  | none => simp [enabled, hthread, Thread.expired]
  | some d => simp [enabled, hthread, Thread.expired]

/-- Another thread makes a fiber ready after the thread has found the queue empty,
and the thread blocks before `notify`. -/
theorem blocked_thread_is_woken_late :
    ∃ s : State ℕ, (machine ℕ).Reachable s ∧ s.thread = .waiting none none ∧
      s.ready = [7] ∧
      (0 < s.unwritten ∨ 0 < s.armed ∧ 0 < s.notifyFd ∨ s.cqes ≠ []) := by
  obtain ⟨s, hs, hthread, hready⟩ := Machine.exists_reachableUnder_of_exec
    (M := machine ℕ) (G := fun _ _ => True)
    (P := fun s => s.thread = .waiting none none ∧ s.ready = [7]) ⟨0, rfl⟩
    [.pickNext none, .awakened 7, .peek]
    (by decide)
  exact ⟨s, hs, hthread, hready, (blocked_thread_is_woken hs).2.1
    (by rw [hthread]; rfl) (by simp [hready])⟩

/-! ## Ready fibers run -/

/-- The steps that are taken when nothing new happens: threads that are to call
`notify` do, the kernel completes the notify read, the thread goes on, and the
fibers that it runs suspend. -/
def Settles : Event φ → Prop
  | .notify | .readNotify | .suspend | .pickNext _ | .peek | .waitCqe
  | .drainCqe => True
  | _ => False

/-- The order of the places that the thread goes through. -/
def Thread.rank (now : ℤ) (cqes : List (Cqe φ)) : Thread φ → ℕ
  | .running _ => 5
  | .dispatching => 3
  -- the time limit may pass before `suspend_until` looks at the clock
  | .suspending absTime => if absTime.any (· ≤ now) = true then 4 else 2
  | .waiting _ _ => 1
  | .draining => if cqes = [] then 4 else 0

/-- What is left to be done. -/
def State.rank (s : State φ) : ℕ :=
  40 * s.unwritten + 30 * s.notifyFd + 20 * s.cqes.length +
    10 * s.ready.length + s.thread.rank s.now s.cqes

theorem rank_suspendUntil {s : State φ} {absTime : Deadline}
    (hthread : s.thread = .suspending absTime) :
    (s.suspendUntil absTime).rank < s.rank := by
  unfold State.suspendUntil
  split
  next hcqes =>
      simp only [State.rank, hthread, Thread.rank, hcqes, if_false]
      split <;> omega
  next =>
      split
      next => simp [State.rank, hthread, Thread.rank]
      next d =>
          split
          next hdue => simp [State.rank, hthread, Thread.rank, hdue]
          next hdue => simp [State.rank, hthread, Thread.rank, hdue]

theorem rank_drainCqe {s : State φ} (hthread : s.thread = .draining) :
    s.drainCqe.rank < s.rank := by
  have hle : ∀ cqes : List (Cqe φ), Thread.rank s.now cqes .draining ≤ 4 := by
    intro cqes
    simp only [Thread.rank]
    split <;> omega
  rw [State.drainCqe]
  split
  next hcqes => simp [State.rank, hthread, Thread.rank, hcqes]
  next rest hcqes =>
      have := hle rest
      simp only [State.rank, hthread, hcqes, List.length_cons] at this ⊢
      omega
  next rest hcqes =>
      have := hle rest
      simp only [State.rank, hthread, hcqes, List.length_cons] at this ⊢
      omega
  next f rest hcqes =>
      have := hle rest
      simp only [State.rank, State.push, hthread, hcqes, List.length_cons,
        List.length_append, List.length_nil] at this ⊢
      omega

theorem rank_pickNext {s : State φ} {absTime : Deadline}
    (hthread : s.thread = .dispatching) (hdue : ∀ d ∈ absTime, s.now < d) :
    (s.pickNext absTime).rank < s.rank := by
  rw [State.pickNext]
  split
  next hready =>
      have hlater : absTime.any (· ≤ s.now) = false := by
        cases absTime with
        | none => rfl
        | some d => simpa using hdue d rfl
      simp [State.rank, hthread, Thread.rank, hlater]
  next f rest hready =>
      simp only [State.rank, hthread, Thread.rank, hready, List.length_cons]
      omega

theorem rank_effect {s : State φ} {e : Event φ} (he : enabled s e)
    (hsettles : Settles e) : (effect s e).rank < s.rank := by
  cases e with
  | notify =>
      have hpos : 0 < s.unwritten := he
      simp only [effect, State.rank]
      omega
  | readNotify =>
      have hpos : 0 < s.notifyFd := he.2
      have hle : s.thread.rank s.now (s.cqes ++ [.notify]) ≤
          s.thread.rank s.now s.cqes := by
        cases s.thread <;> simp [Thread.rank]
      simp only [effect, State.rank, List.length_append, List.length_singleton]
      omega
  | suspend =>
      cases hthread : s.thread <;>
        simp_all [enabled, Thread.isRunning, effect, State.rank, Thread.rank]
  | pickNext absTime => exact rank_pickNext he.1 he.2
  | peek =>
      simp only [effect]
      split
      next absTime hthread => exact rank_suspendUntil hthread
      next hne =>
          cases hthread : s.thread with
          | suspending d => exact absurd hthread (hne d)
          | _ => simp [enabled, hthread, Thread.isSuspending] at he
  | waitCqe =>
      obtain ⟨hwaiting, hcqes⟩ := he
      cases hthread : s.thread <;>
        simp_all [Thread.isWaiting, effect, State.rank, Thread.rank]
  | drainCqe => exact rank_drainCqe he
  | _ => cases hsettles

/-- The fiber that the handler of a CQE makes ready. -/
def Cqe.fiber? : Cqe φ → Option φ
  | .notify => none
  | .request f => f

/-- The fibers that the CQEs in the queue make ready, in order. -/
def State.completed (s : State φ) : List φ :=
  s.cqes.filterMap Cqe.fiber?

end Fiberexec.Scheduler
