import Fiberexec.Pool.Drain

/-!
# The last wake-up of a shutdown

A main fiber waits on `shutdown_cv_` for `running_` to be false and
`in_flight_` to be zero.  `stop` changes `running_` under `shutdown_mtx_`, but
a finishing fiber changes `in_flight_`, and notifies, without it.  If its
notification falls between a false evaluation of the predicate on another
thread and that thread's enqueueing, nobody is woken and the worker parks for
good.

We show that this is the only way to lose the wake-up.
-/

namespace Fiberexec.Pool

open Support

variable {ι : Type*} [DecidableEq ι]

/-- The shutdown is complete, nobody is about to notify, and yet some main
fiber is parked.  Its worker never exits, so `~fiber_pool` never returns. -/
def LostWakeUp (s : State ι) : Prop :=
  s.running = false ∧ s.inFlight = 0 ∧
    (s.owner = .joining ∨ s.owner = .destroyed) ∧
    (∀ x, (s.worker x).thread ≠ .notifying) ∧
    ∃ w, (s.worker w).main = .enqueued

/-- A finished fiber does not make the last notification of a shutdown while
some main fiber is between its false predicate and its enqueueing. -/
def NotifiesInTime (s : State ι) : Event ι → Prop
  | .notifyAll x =>
      ¬(s.running = false ∧ s.inFlight = 0 ∧
        (∀ y, (s.worker y).thread = .notifying → y = x) ∧
        ∃ w, (s.worker w).thread = .mainParking)
  | _ => True

instance [Fintype ι] (s : State ι) : Decidable (LostWakeUp s) := by
  unfold LostWakeUp
  infer_instance

instance [Fintype ι] (s : State ι) :
    (e : Event ι) → Decidable (NotifiesInTime s e)
  | .notifyAll _ => inferInstanceAs (Decidable (¬_))
  | .start _ | .postPush | .postWrite | .readWork _ _ | .takeCqe _ _
  | .loadRunning _ _ | .dequeue _ | .launch _ _ | .loadRearm _
  | .armWorkEfd _ | .resume _ _ | .suspend _ _ | .finish _ _ | .mainLock _
  | .mainRunning _ | .mainInFlight _ | .mainPark _ | .stopRequest | .stopLock
  | .stopStore | .stopNotify | .stopUnlock | .join => .isTrue trivial

/-! ## Who holds the mutex -/

/-- Whether a thread executes its main fiber inside `shutdown_cv_.wait`. -/
def Thread.isMain : Thread → Bool
  | .mainLoadRunning | .mainLoadInFlight | .mainParking => true
  | _ => false

/-- Whether `stop` is inside its critical section. -/
def Owner.isHolding : Owner → Bool
  | .stopStoring | .stopNotifying | .stopUnlocking => true
  | _ => false

/-- Whether `stop` has cleared `running_`. -/
def Owner.hasStored : Owner → Bool
  | .stopNotifying | .stopUnlocking | .joining | .destroyed => true
  | _ => false

/-- `shutdown_mtx_` is held by whoever executes a critical section, and
`running_` is what the progress of `stop` says. -/
structure Exclusive (s : State ι) : Prop where
  main : ∀ w, (s.worker w).thread.isMain = true →
    s.shutdownMtx = some (.main w)
  stop : s.owner.isHolding = true → s.shutdownMtx = some .stop
  running : s.running = !s.owner.hasStored

omit [DecidableEq ι] in
theorem exclusive_initial : Exclusive (initial : State ι) := by
  constructor <;> simp [initial, Thread.isMain, Owner.isHolding,
    Owner.hasStored]

theorem isMain_of_effect
    {s : State ι} {e : Event ι} {w : ι} (he : enabled s e)
    (h : ((effect s e).worker w).thread.isMain = true) :
    e = .mainLock w ∨
      ((s.worker w).thread.isMain = true ∧ e ≠ .mainPark w ∧
        (e = .mainInFlight w → s.inFlight ≠ 0)) := by
  by_cases hw : e.worker? = some w
  · have hmove := moves_effect hw he
    generalize (effect s e).worker w = v at hmove h
    cases hmove with
    | mainLock => exact .inl rfl
    | mainRunning hthread | mainStopped hthread =>
        exact .inr ⟨by rw [hthread]; rfl, by simp, by simp⟩
    | mainInFlight hthread hpos =>
        exact .inr ⟨by rw [hthread]; rfl, by simp, fun _ => hpos⟩
    | readWork => exact .inr ⟨h, by simp, by simp⟩
    | _ => cases h
  · rw [effect_worker_agree (g := Worker.thread) (fun _ => rfl) hw] at h
    refine .inr ⟨h, ?_, ?_⟩
    · rintro rfl
      exact hw rfl
    · rintro rfl
      exact absurd rfl hw

/-- The steps that acquire or release `shutdown_mtx_`. -/
def locks (s : State ι) : Event ι → Prop
  | .mainLock _ | .mainPark _ | .stopLock | .stopUnlock => True
  | .mainInFlight _ => s.inFlight = 0
  | _ => False

theorem shutdownMtx_effect
    {s : State ι} {e : Event ι} (h : ¬locks s e) :
    (effect s e).shutdownMtx = s.shutdownMtx := by
  cases e with
  | mainLock | mainPark | stopLock | stopUnlock => exact absurd trivial h
  | mainInFlight w =>
      simp only [locks] at h
      simp [effect, h]
  | dequeue w =>
      simp only [effect, dequeue]
      split <;> rfl
  | _ => rfl

omit [DecidableEq ι] in
theorem holder_of_locks
    {s : State ι} {e : Event ι} (h : Exclusive s) (he : enabled s e)
    (hlocks : locks s e) :
    match e with
    | .mainPark w | .mainInFlight w => s.shutdownMtx = some (.main w)
    | .stopUnlock => s.shutdownMtx = some .stop
    | _ => s.shutdownMtx = none := by
  cases e with
  | mainLock w => exact he.2.2
  | stopLock => exact he.2
  | mainPark w =>
      have hw : (s.worker w).thread = .mainParking := he
      exact h.main w (by rw [hw]; rfl)
  | mainInFlight w =>
      have hw : (s.worker w).thread = .mainLoadInFlight := he
      exact h.main w (by rw [hw]; rfl)
  | stopUnlock =>
      have howner : s.owner = .stopUnlocking := he
      exact h.stop (by rw [howner]; rfl)
  | _ => exact absurd hlocks id

theorem exclusive_main_effect
    {s : State ι} {e : Event ι} (h : Exclusive s) (he : enabled s e) {w : ι}
    (hw : ((effect s e).worker w).thread.isMain = true) :
    (effect s e).shutdownMtx = some (.main w) := by
  rcases isMain_of_effect he hw with rfl | ⟨hmain, hpark, hexit⟩
  · rfl
  have hheld := h.main w hmain
  by_cases hlocks : locks s e
  · have hholder := holder_of_locks h he hlocks
    cases e with
    | mainLock x | stopLock | stopUnlock => simp [hheld] at hholder
    | mainPark x =>
        simp only [hheld, Option.some.injEq, Holder.main.injEq] at hholder
        exact absurd (hholder ▸ rfl) hpark
    | mainInFlight x =>
        simp only [hheld, Option.some.injEq, Holder.main.injEq] at hholder
        exact absurd hlocks (hexit (hholder ▸ rfl))
    | _ => exact absurd hlocks id
  · rw [shutdownMtx_effect hlocks, hheld]

/-- The steps of `~fiber_pool`. -/
def Event.isOwner : Event ι → Bool
  | .stopRequest | .stopLock | .stopStore | .stopNotify | .stopUnlock
  | .join => true
  | _ => false

theorem owner_effect
    {s : State ι} {e : Event ι} (h : e.isOwner = false) :
    (effect s e).owner = s.owner ∧ (effect s e).running = s.running := by
  cases e with
  | stopRequest | stopLock | stopStore | stopNotify | stopUnlock | join =>
      cases h
  | mainInFlight w =>
      simp only [effect]
      split <;> exact ⟨rfl, rfl⟩
  | dequeue w =>
      simp only [effect, dequeue]
      split <;> exact ⟨rfl, rfl⟩
  | _ => exact ⟨rfl, rfl⟩

theorem exclusive_stop_effect
    {s : State ι} {e : Event ι} (h : Exclusive s) (he : enabled s e)
    (hholding : (effect s e).owner.isHolding = true) :
    (effect s e).shutdownMtx = some .stop := by
  cases howner : e.isOwner with
  | true =>
      cases e with
      | stopLock => rfl
      | stopStore =>
          have hpc : s.owner = .stopStoring := he
          exact h.stop (by rw [hpc]; rfl)
      | stopNotify =>
          have hpc : s.owner = .stopNotifying := he
          exact h.stop (by rw [hpc]; rfl)
      | stopRequest | stopUnlock | join => cases hholding
      | _ => cases howner
  | false =>
      rw [(owner_effect howner).1] at hholding
      have hheld := h.stop hholding
      by_cases hlocks : locks s e
      · have hholder := holder_of_locks h he hlocks
        cases e with
        | mainLock x | mainPark x | mainInFlight x => simp [hheld] at hholder
        | stopLock | stopUnlock => cases howner
        | _ => exact absurd hlocks id
      · rw [shutdownMtx_effect hlocks, hheld]

theorem exclusive_effect
    {s : State ι} {e : Event ι} (h : Exclusive s) (he : enabled s e) :
    Exclusive (effect s e) := by
  refine ⟨fun w => exclusive_main_effect h he,
    exclusive_stop_effect h he, ?_⟩
  cases howner : e.isOwner with
  | false =>
      obtain ⟨hpc, hrunning⟩ := owner_effect (s := s) howner
      rw [hpc, hrunning, h.running]
  | true =>
      have hrunning := h.running
      cases e with
      | stopRequest | stopStore | stopNotify | stopUnlock =>
          have hpc : s.owner = _ := he
          simp_all [effect, Owner.hasStored, State.wakeAll]
      | stopLock | join =>
          have hpc := he.1
          simp_all [effect, Owner.hasStored]
      | _ => cases howner

theorem reachable_exclusive
    {s : State ι} (h : (machine ι).Reachable s) : Exclusive s :=
  reachable_invariant exclusive_initial
    (fun _ _ _ hI he => exclusive_effect hI he) h

omit [DecidableEq ι] in
/-- A main fiber holds the mutex inside its critical section, so a `stop` that
has cleared `running_` has left its own. -/
theorem Exclusive.left_of_main
    {s : State ι} (h : Exclusive s) {w : ι}
    (hmain : (s.worker w).thread.isMain = true) (hrun : s.running = false) :
    s.owner = .joining ∨ s.owner = .destroyed := by
  have hheld : s.owner.isHolding ≠ true := by
    intro hholding
    have hmtx := (h.main w hmain).symm.trans (h.stop hholding)
    cases hmtx
  have hstored : s.owner.hasStored = true := by
    rw [h.running] at hrun
    simpa using hrun
  generalize s.owner = pc at hheld hstored
  cases pc with
  | joining => exact .inl rfl
  | destroyed => exact .inr rfl
  | alive | stopLocking | stopStoring => cases hstored
  | stopNotifying | stopUnlocking => exact absurd rfl hheld

/-! ## Wake-ups that are still due -/

/-- A main fiber may park: its predicate has yet to become true, or somebody
is about to notify. -/
def WakeDue (s : State ι) : Prop :=
  s.running = true ∨ 0 < s.inFlight ∨
    ∃ x, (s.worker x).thread = .notifying

theorem notifying_effect
    {s : State ι} {e : Event ι} {x : ι} (he : enabled s e)
    (hx : (s.worker x).thread = .notifying) (hne : e ≠ .notifyAll x) :
    ((effect s e).worker x).thread = .notifying := by
  by_cases hw : e.worker? = some x
  · have hmove := moves_effect hw he
    generalize (effect s e).worker x = v at hmove ⊢
    cases hmove with
    | notifyAll => exact absurd rfl hne
    | readWork => exact hx
    | _ => simp_all
  · exact (effect_worker_agree (g := Worker.thread) (fun _ => rfl) hw).trans
      hx

/-- The counter reaches zero in the step of a fiber that goes on to notify. -/
theorem inFlight_pos_effect
    {s : State ι} {e : Event ι} (h : 0 < s.inFlight) :
    0 < (effect s e).inFlight ∨
      ∃ x, ((effect s e).worker x).thread = .notifying := by
  cases e with
  | launch w t => exact .inl (Nat.succ_pos _)
  | finish w t =>
      by_cases hone : s.inFlight = 1
      · exact .inr ⟨w, by simp [effect, finishFiber, hone]⟩
      · refine .inl ?_
        change 0 < s.inFlight - 1
        omega
  | _ =>
      rw [inFlight_effect rfl rfl]
      exact .inl h

/-- What may end the state of a wake-up being due: `stop` clears `running_`,
or the last finisher notifies. -/
theorem wakeDue_effect
    {s : State ι} {e : Event ι} (h : WakeDue s) (he : enabled s e) :
    WakeDue (effect s e) ∨ e = .stopStore ∨
      ∃ x, e = .notifyAll x ∧ s.running = false ∧ s.inFlight = 0 ∧
        ∀ y, (s.worker y).thread = .notifying → y = x := by
  by_cases hcount : 0 < s.inFlight
  · exact .inl (.inr (inFlight_pos_effect hcount))
  by_cases hrun : s.running = true
  · by_cases hstore : e = .stopStore
    · exact .inr (.inl hstore)
    · refine .inl (.inl ?_)
      cases howner : e.isOwner with
      | false => rw [(owner_effect howner).2, hrun]
      | true =>
          cases e with
          | stopStore => exact absurd rfl hstore
          | stopRequest | stopLock | stopNotify | stopUnlock | join =>
              exact hrun
          | _ => cases howner
  -- only a pending notification is left
  have hnotifying : ∃ x, (s.worker x).thread = .notifying := by
    rcases h with h | h | h
    · exact absurd h hrun
    · exact absurd h hcount
    · exact h
  by_cases hother : ∃ y, (s.worker y).thread = .notifying ∧ e ≠ .notifyAll y
  · obtain ⟨y, hy, hne⟩ := hother
    exact .inl (.inr (.inr ⟨y, notifying_effect he hy hne⟩))
  · push Not at hother
    obtain ⟨x, hx⟩ := hnotifying
    have hevent := hother x hx
    refine .inr (.inr ⟨x, hevent, by simpa using hrun, by omega, ?_⟩)
    intro y hy
    exact (Event.notifyAll.inj (hevent.symm.trans (hother y hy))).symm

/-! ## Parked main fibers -/

theorem wake_main_ne_enqueued (v : Worker) : v.wake.main ≠ .enqueued := by
  cases hv : v.main <;> simp [Worker.wake, hv]

theorem enqueued_of_effect
    {s : State ι} {e : Event ι} {w : ι} (he : enabled s e)
    (h : ((effect s e).worker w).main = .enqueued) :
    e = .mainPark w ∨
      ((s.worker w).main = .enqueued ∧ (∀ x, e ≠ .notifyAll x) ∧
        e ≠ .stopNotify) := by
  by_cases hw : e.worker? = some w
  · have hmove := moves_effect hw he
    generalize (effect s e).worker w = v at hmove h
    cases hmove with
    | mainPark => exact .inl rfl
    | notifyAll => exact absurd h (wake_main_ne_enqueued (s.worker w))
    | mainLock | mainReturn => cases h
    | _ => exact .inr ⟨h, by simp, by simp⟩
  · have hwake : (effect s e).worker w ≠ (s.worker w).wake := by
      intro hwake
      exact wake_main_ne_enqueued (s.worker w) (hwake ▸ h)
    have hsame := (effect_worker_of_ne (s := s) hw).resolve_right hwake
    refine .inr ⟨hsame ▸ h, ?_, ?_⟩
    · rintro x rfl
      have hx : w ≠ x := fun hx => hw (hx ▸ rfl)
      exact hwake (by simp [effect, State.wakeAll, hx])
    · rintro rfl
      exact hwake rfl

/-- A main fiber that is about to park has just found its predicate false. -/
theorem mainParking_of_effect
    {s : State ι} {e : Event ι} {w : ι} (he : enabled s e)
    (h : ((effect s e).worker w).thread = .mainParking) :
    (s.worker w).thread = .mainParking ∨
      (e = .mainRunning w ∧ s.running = true) ∨
      (e = .mainInFlight w ∧ s.inFlight ≠ 0) := by
  by_cases hw : e.worker? = some w
  · have hmove := moves_effect hw he
    generalize (effect s e).worker w = v at hmove h
    cases hmove with
    | mainRunning _ hrun => exact .inr (.inl ⟨rfl, hrun⟩)
    | mainInFlight _ hpos => exact .inr (.inr ⟨rfl, hpos⟩)
    | readWork => exact .inl h
    | _ => cases h
  · rw [effect_worker_agree (g := Worker.thread) (fun _ => rfl) hw] at h
    exact .inl h

/-- Whoever is parked, or about to park, is still owed a wake-up. -/
structure WakesOwed (s : State ι) : Prop where
  parking : ∀ w, (s.worker w).thread = .mainParking → WakeDue s
  parked : ∀ w, (s.worker w).main = .enqueued →
    WakeDue s ∨ s.owner = .stopNotifying

omit [DecidableEq ι] in
theorem wakesOwed_initial : WakesOwed (initial : State ι) := by
  constructor <;> simp [initial]

theorem wakesOwed_effect
    {s : State ι} {e : Event ι} (hexcl : Exclusive s) (h : WakesOwed s)
    (he : enabled s e) (hguard : NotifiesInTime s e) :
    WakesOwed (effect s e) := by
  constructor
  · intro w hw
    rcases mainParking_of_effect he hw with hold | ⟨rfl, hrun⟩ | ⟨rfl, hne⟩
    · rcases wakeDue_effect (h.parking w hold) he with
        hdue | rfl | ⟨x, rfl, hrun, hzero, honly⟩
      · exact hdue
      · -- `stop` holds the mutex that the parking main fiber needs
        have hpc : s.owner = .stopStoring := he
        have hstop := hexcl.stop (by rw [hpc]; rfl)
        have hmain := hexcl.main w (by rw [hold]; rfl)
        simp [hstop] at hmain
      · exact absurd ⟨hrun, hzero, honly, w, hold⟩ hguard
    · exact .inl hrun
    · refine .inr (.inl ?_)
      rw [inFlight_effect rfl rfl]
      omega
  · intro w hw
    rcases enqueued_of_effect he hw with rfl | ⟨hold, hnotify, hstop⟩
    · have hparking : (s.worker w).thread = .mainParking := he
      rcases wakeDue_effect (h.parking w hparking) he with
        hdue | hevent | ⟨x, hevent, -⟩
      · exact .inl hdue
      · cases hevent
      · cases hevent
    · rcases h.parked w hold with hdue | howner
      · rcases wakeDue_effect hdue he with hdue | rfl | ⟨x, hevent, -⟩
        · exact .inl hdue
        · exact .inr rfl
        · exact absurd hevent (hnotify x)
      · refine .inr ?_
        cases hisOwner : e.isOwner with
        | false => rw [(owner_effect hisOwner).1, howner]
        | true =>
            cases e with
            | stopNotify => exact absurd rfl hstop
            | stopRequest | stopStore | stopUnlock =>
                simp [enabled, howner] at he
            | stopLock | join => simp [enabled, howner] at he
            | _ => cases hisOwner

theorem wakesOwed_of_notifiesInTime
    {s : State ι} (h : (machine ι).ReachableUnder NotifiesInTime s) :
    WakesOwed s := by
  refine Machine.ReachableUnder.invariant (I := WakesOwed) ?_ ?_ h
  · rintro s rfl
    exact wakesOwed_initial
  · intro s e hs hI he hguard
    exact wakesOwed_effect (reachable_exclusive hs.reachable) hI he hguard

/-! ## The shutdown theorem -/

/-- A late notification loses the wake-up: the main fiber that was about to
park does so for good. -/
theorem lostWakeUp_of_late_notify
    {s : State ι} {e : Event ι} (h : (machine ι).Reachable s)
    (he : enabled s e) (hlate : ¬NotifiesInTime s e) :
    ∃ s', (machine ι).Reaches (effect s e) s' ∧ LostWakeUp s' := by
  have hexcl := reachable_exclusive h
  cases e with
  | notifyAll x =>
      simp only [NotifiesInTime, not_not] at hlate
      obtain ⟨hrun, hzero, honly, w, hw⟩ := hlate
      have hx : (s.worker x).thread = .notifying := he
      have hne : w ≠ x := by
        rintro rfl
        simp [hw] at hx
      have hpark : enabled (effect s (.notifyAll x)) (.mainPark w) := by
        simp [enabled, effect, State.wakeAll, Worker.wake, hne, hw]
      refine ⟨effect (effect s (.notifyAll x)) (.mainPark w),
        Machine.Reaches.single (M := machine ι) (e := .mainPark w) hpark, ?_⟩
      have howner := hexcl.left_of_main (w := w) (by rw [hw]; rfl) hrun
      refine ⟨?_, ?_, ?_, ?_, w, ?_⟩
      · simpa [effect, State.wakeAll] using hrun
      · simpa [effect, State.wakeAll] using hzero
      · simpa [effect, State.wakeAll] using howner
      · intro y
        by_cases hyw : y = w
        · simp [effect, hyw]
        · by_cases hyx : y = x
          · subst hyx
            simp [effect, hyw]
          · have hy := fun hnotifying => hyx (honly y hnotifying)
            simpa [effect, hyw, hyx, State.wakeAll, Worker.wake] using hy
      · simp [effect]
  | _ => exact absurd trivial hlate

/-- Shutdown keeps its last wake-up in every run in which no finished fiber
makes the last notification while some main fiber is between a false predicate
and its enqueueing; and every step that breaks this rule can be followed by the
loss. -/
theorem shutdown_wakes_iff_in_time :
    (∀ s : State ι, (machine ι).ReachableUnder NotifiesInTime s →
        ¬LostWakeUp s) ∧
      ∀ (s : State ι) (e : Event ι), (machine ι).Reachable s →
        enabled s e → ¬NotifiesInTime s e →
          ∃ s', (machine ι).Reaches (effect s e) s' ∧ LostWakeUp s' := by
  refine ⟨?_, fun s e h he hlate => lostWakeUp_of_late_notify h he hlate⟩
  rintro s h ⟨hrun, hzero, howner, hnotifying, w, hw⟩
  rcases (wakesOwed_of_notifiesInTime h).parked w hw with hdue | hstop
  · rcases hdue with hdue | hdue | ⟨x, hx⟩
    · simp [hrun] at hdue
    · omega
    · exact hnotifying x hx
  · rcases howner with howner | howner <;> simp [hstop] at howner

/-- Worker 0 parks before the last fiber, on worker 1, notifies. -/
theorem shutdown_wakes_parked_worker :
    ∃ s : State (Fin 2), (machine (Fin 2)).ReachableUnder NotifiesInTime s ∧
      (s.running = false ∧ s.inFlight = 0 ∧ s.owner = .joining ∧
        s.launches = [(1, 0)]) ∧ ¬LostWakeUp s := by
  obtain ⟨s, hs, hdone⟩ := Machine.exists_reachableUnder_of_exec
    (M := machine (Fin 2)) (G := NotifiesInTime)
    (P := fun s => s.running = false ∧ s.inFlight = 0 ∧ s.owner = .joining ∧
      s.launches = [(1, 0)]) rfl
    [.start 0, .start 1, .postPush, .postWrite, .readWork 1 8, .takeCqe 1 8,
      .loadRunning 1 8, .dequeue 1, .launch 1 0, .loadRearm 1, .armWorkEfd 1,
      .stopRequest, .stopLock, .stopStore, .stopNotify, .stopUnlock,
      .mainLock 0, .mainRunning 0, .mainInFlight 0, .mainPark 0,
      .resume 1 0, .finish 1 0, .notifyAll 1]
    (by decide)
  exact ⟨s, hs, hdone, shutdown_wakes_iff_in_time.1 s hs⟩

/-- The last fiber, on worker 1, decrements and notifies while worker 0 is
between its false predicate and its enqueueing. -/
theorem lostWakeUp_reachable :
    ∃ s : State (Fin 2), (machine (Fin 2)).Reachable s ∧ LostWakeUp s :=
  Machine.exists_reachableUnder_of_exec
    (M := machine (Fin 2)) (G := fun _ _ => True) rfl
    [.start 0, .start 1, .postPush, .postWrite, .readWork 1 8, .takeCqe 1 8,
      .loadRunning 1 8, .dequeue 1, .launch 1 0, .loadRearm 1, .armWorkEfd 1,
      .resume 1 0, .stopRequest, .stopLock, .stopStore, .stopNotify,
      .stopUnlock, .mainLock 0, .mainRunning 0, .mainInFlight 0,
      .finish 1 0, .notifyAll 1, .mainPark 0]
    (by decide)

end Fiberexec.Pool
