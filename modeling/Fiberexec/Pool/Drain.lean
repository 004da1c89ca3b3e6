import Fiberexec.Pool.Dispatch
import Fiberexec.Support.Lists

/-!
# Draining the fibers at shutdown

`in_flight_` is counted over the whole pool while fibers are launched, and
workers leave, one by one.  A worker may therefore leave while another is
about to launch.  This is harmless: a worker leaves only when no fiber of any
worker is unfinished, in particular none of its own, and it can only launch
from `drain_cqes`, which its thread is not in at that moment and will not be in
again.
-/

namespace Fiberexec.Pool

open Support

variable {ι : Type*} [DecidableEq ι]

/-! ## Launched, finished and live fibers -/

/-- The fiber that a step finishes. -/
def Event.finished : Event ι → List (ι × Ticket)
  | .finish w t => [(w, t)]
  | _ => []

theorem finishes_effect (s : State ι) (e : Event ι) :
    (effect s e).finishes = s.finishes ++ e.finished := by
  cases e with
  | finish w t => rfl
  | dequeue w =>
      simp only [effect, dequeue]
      split <;> simp [Event.finished]
  | mainInFlight w =>
      simp only [effect]
      split <;> simp [Event.finished]
  | _ => simp [effect, Event.finished, launchFiber, State.wakeAll]

/-- The tasks among `xs` that belong to `w`. -/
def tasksOf (w : ι) (xs : List (ι × Ticket)) : List Ticket :=
  (xs.filter (fun x => x.1 = w)).map Prod.snd

theorem mem_tasksOf {w : ι} {t : Ticket} {xs : List (ι × Ticket)} :
    t ∈ tasksOf w xs ↔ (w, t) ∈ xs := by
  simp [tasksOf]

theorem tasksOf_append (w : ι) (xs ys : List (ι × Ticket)) :
    tasksOf w (xs ++ ys) = tasksOf w xs ++ tasksOf w ys := by
  simp [tasksOf]

theorem tasksOf_sublist (w : ι) (xs : List (ι × Ticket)) :
    (tasksOf w xs).Sublist (xs.map Prod.snd) :=
  List.filter_sublist.map _

theorem live_effect
    {s : State ι} {e : Event ι} {w : ι}
    (hlaunch : ∀ t, e ≠ .launch w t) (hfinish : ∀ t, e ≠ .finish w t) :
    ((effect s e).worker w).live = (s.worker w).live := by
  by_cases hw : e.worker? = some w
  · cases e with
    | launch x t =>
        cases hw
        exact absurd rfl (hlaunch t)
    | finish x t =>
        cases hw
        exact absurd rfl (hfinish t)
    | dequeue x =>
        cases hw
        simp only [effect, dequeue]
        split <;> simp
    | mainInFlight x =>
        cases hw
        simp only [effect]
        split <;> simp
    | postPush | postWrite | stopRequest | stopLock | stopStore | stopNotify
    | stopUnlock | join => cases hw
    | _ =>
        cases hw
        simp [effect, State.wakeAll, Worker.wake]
  · exact effect_worker_agree (g := Worker.live) (fun _ => rfl) hw

/-- A worker's launched fibers are its finished and its live ones, and the
fiber its thread runs is live. -/
structure Tracked (s : State ι) : Prop where
  perm : ∀ w, (tasksOf w s.launches).Perm
    (tasksOf w s.finishes ++ (s.worker w).live)
  live_of_fiber : ∀ w t, (s.worker w).thread = .fiber t →
    t ∈ (s.worker w).live

theorem tracked_initial : Tracked (initial : State ι) := by
  constructor <;> simp [initial, tasksOf]

theorem tracked_perm_effect
    {s : State ι} {e : Event ι} (h : Tracked s) (he : enabled s e) (w : ι) :
    (tasksOf w (effect s e).launches).Perm
      (tasksOf w (effect s e).finishes ++ ((effect s e).worker w).live) := by
  have hperm := h.perm w
  rw [launches_effect, finishes_effect, tasksOf_append, tasksOf_append]
  cases e with
  | launch x t =>
      by_cases hx : x = w
      · subst hx
        have hlive : ((effect s (.launch x t)).worker x).live =
            t :: (s.worker x).live := by
          simp [effect, launchFiber]
        have hnew : tasksOf x (Event.launch x t).launched = [t] := by
          simp [Event.launched, tasksOf]
        have hold : tasksOf x (Event.launch x t).finished = [] := rfl
        rw [hlive, hnew, hold, List.append_nil]
        refine (List.perm_append_singleton t _).trans ?_
        exact (hperm.cons t).trans List.perm_middle.symm
      · rw [live_effect (by simpa using hx) (by simp)]
        simpa [Event.launched, Event.finished, tasksOf, hx] using hperm
  | finish x t =>
      by_cases hx : x = w
      · subst hx
        have hmem := h.live_of_fiber x t he
        have hlive : ((effect s (.finish x t)).worker x).live =
            (s.worker x).live.erase t := by
          simp [effect, finishFiber]
        have hnew : tasksOf x (Event.finish x t).finished = [t] := by
          simp [Event.finished, tasksOf]
        rw [hlive, hnew, List.append_assoc]
        refine List.Perm.trans ?_
          ((List.perm_cons_erase hmem).append_left _)
        simpa [Event.launched, tasksOf] using hperm
      · rw [live_effect (by simp) (by simpa using hx)]
        simpa [Event.launched, Event.finished, tasksOf, hx] using hperm
  | _ =>
      rw [live_effect (by simp) (by simp)]
      simpa [Event.launched, Event.finished, tasksOf] using hperm

theorem live_of_fiber_effect
    {s : State ι} {e : Event ι} (h : Tracked s) (he : enabled s e)
    {w : ι} {t : Ticket}
    (hw : ((effect s e).worker w).thread = .fiber t) :
    t ∈ ((effect s e).worker w).live := by
  by_cases hworker : e.worker? = some w
  · have hmove := moves_effect hworker he
    generalize (effect s e).worker w = v at hmove hw ⊢
    cases hmove with
    | resume _ hlive =>
        obtain rfl := Thread.fiber.inj hw
        exact hlive
    | readWork => exact h.live_of_fiber w t hw
    | _ => cases hw
  · rw [effect_worker_agree (g := Worker.thread) (fun _ => rfl)
      hworker] at hw
    rw [effect_worker_agree (g := Worker.live) (fun _ => rfl) hworker]
    exact h.live_of_fiber w t hw

theorem reachable_tracked
    {s : State ι} (h : (machine ι).Reachable s) : Tracked s :=
  reachable_invariant tracked_initial
    (fun _ _ _ hI he =>
      ⟨tracked_perm_effect hI he, fun _ _ => live_of_fiber_effect hI he⟩) h

/-! ## The counter -/

/-- The live fibers of all workers. -/
def State.liveFibers [Fintype ι] (s : State ι) : ℕ :=
  ∑ w, (s.worker w).live.length

theorem inFlight_effect
    {s : State ι} {e : Event ι}
    (hlaunch : e.launched = []) (hfinish : e.finished = []) :
    (effect s e).inFlight = s.inFlight := by
  cases e with
  | launch | finish => simp [Event.launched, Event.finished] at hlaunch hfinish
  | dequeue w =>
      simp only [effect, dequeue]
      split <;> rfl
  | mainInFlight w =>
      simp only [effect]
      split <;> rfl
  | _ => rfl

/-- How a step moves the number of live fibers. -/
def liveDelta : Event ι → ℤ
  | .launch _ _ => 1
  | .finish _ _ => -1
  | _ => 0

theorem liveFibers_effect [Fintype ι]
    {s : State ι} {e : Event ι} (htracked : Tracked s) (he : enabled s e) :
    ((effect s e).liveFibers : ℤ) = s.liveFibers + liveDelta e := by
  refine total_effect (g := fun v => v.live.length) (fun _ => rfl) ?_ ?_
  · intro w hw
    cases e with
    | launch x t =>
        cases hw
        simp [effect, launchFiber, liveDelta]
    | finish x t =>
        cases hw
        have hmem := htracked.live_of_fiber w t he
        have hpos := List.length_pos_of_mem hmem
        simp [effect, finishFiber, liveDelta, List.length_erase_of_mem hmem]
        omega
    | _ =>
        rw [live_effect (by simp) (by simp)]
        simp [liveDelta]
  · intro hnone
    cases e <;> first | rfl | cases hnone

theorem inFlight_eq_effect [Fintype ι]
    {s : State ι} {e : Event ι} (htracked : Tracked s)
    (h : s.inFlight = s.liveFibers) (he : enabled s e) :
    (effect s e).inFlight = (effect s e).liveFibers := by
  have hmove := liveFibers_effect htracked he
  cases e with
  | launch w t =>
      have hcount : (effect s (.launch w t)).inFlight = s.inFlight + 1 := rfl
      simp only [liveDelta] at hmove
      omega
  | finish w t =>
      have hcount : (effect s (.finish w t)).inFlight = s.inFlight - 1 := rfl
      simp only [liveDelta] at hmove
      omega
  | _ =>
      rw [inFlight_effect rfl rfl, h]
      simp only [liveDelta] at hmove
      omega

theorem reachable_inFlight [Fintype ι]
    {s : State ι} (h : (machine ι).Reachable s) :
    s.inFlight = s.liveFibers :=
  reachable_invariant (I := fun s => s.inFlight = s.liveFibers)
    (by simp [State.liveFibers, initial])
    (fun _ _ hs hI he => inFlight_eq_effect (reachable_tracked hs) hI he) h

/-- The fibers launched by `launch_fiber` that have not yet decremented. -/
def State.unfinished (s : State ι) : List (ι × Ticket) :=
  s.launches.filter (fun x => x ∉ s.finishes)

theorem finishes_subset_launches
    {s : State ι} (h : Tracked s) : s.finishes ⊆ s.launches := by
  intro x hx
  have hmem : x.2 ∈ tasksOf x.1 s.finishes ++ (s.worker x.1).live :=
    List.mem_append_left _ (mem_tasksOf.mpr hx)
  exact mem_tasksOf.mp ((h.perm x.1).mem_iff.mpr hmem)

theorem finish_not_mem_finishes
    {s : State ι} (h : Tracked s) (honce : LaunchedOnce s)
    {w : ι} {t : Ticket} (hw : (s.worker w).thread = .fiber t) :
    (w, t) ∉ s.finishes := by
  intro hmem
  have hnodup : (tasksOf w s.finishes ++ (s.worker w).live).Nodup :=
    (h.perm w).nodup_iff.mp ((tasksOf_sublist w s.launches).nodup honce.nodup)
  exact List.disjoint_of_nodup_append hnodup (mem_tasksOf.mpr hmem)
    (h.live_of_fiber w t hw)

theorem reachable_finishes_nodup [Fintype ι]
    {s : State ι} (h : (machine ι).Reachable s) : s.finishes.Nodup := by
  refine reachable_invariant (I := fun s => s.finishes.Nodup)
    List.nodup_nil ?_ h
  intro s e hs hnodup he
  rw [finishes_effect]
  cases e with
  | finish w t =>
      have hnew := finish_not_mem_finishes (reachable_tracked hs)
        (reachable_launchedOnce hs) he
      exact nodup_append_singleton hnodup hnew
  | _ => simpa [Event.finished] using hnodup

theorem launches_length_effect
    {s : State ι} {e : Event ι}
    (hlive : ∀ w t, (s.worker w).thread = .fiber t → 0 < s.inFlight)
    (h : s.launches.length = s.finishes.length + s.inFlight)
    (he : enabled s e) :
    (effect s e).launches.length =
      (effect s e).finishes.length + (effect s e).inFlight := by
  rw [launches_effect, finishes_effect]
  cases e with
  | launch w t =>
      have hcount : (effect s (.launch w t)).inFlight = s.inFlight + 1 := rfl
      simp [Event.launched, Event.finished]
      omega
  | finish w t =>
      have hpos := hlive w t he
      have hcount : (effect s (.finish w t)).inFlight = s.inFlight - 1 := rfl
      simp [Event.launched, Event.finished]
      omega
  | _ =>
      rw [inFlight_effect rfl rfl]
      simpa [Event.launched, Event.finished] using h

theorem inFlight_pos_of_fiber [Fintype ι]
    {s : State ι} (h : (machine ι).Reachable s)
    {w : ι} {t : Ticket} (hw : (s.worker w).thread = .fiber t) :
    0 < s.inFlight := by
  rw [reachable_inFlight h]
  have hmem := (reachable_tracked h).live_of_fiber w t hw
  exact (List.length_pos_of_mem hmem).trans_le
    (le_total (fun v : Worker => v.live.length) s.worker w)

/-- `in_flight_` is the number of launched fibers that have not yet executed
their decrement. -/
theorem inFlight_eq_unfinished [Fintype ι]
    {s : State ι} (h : (machine ι).Reachable s) :
    s.inFlight = s.unfinished.length := by
  have hlength : s.launches.length = s.finishes.length + s.inFlight :=
    reachable_invariant
      (I := fun s => s.launches.length = s.finishes.length + s.inFlight) rfl
      (fun _ _ hs hI he => launches_length_effect
        (fun _ _ => inFlight_pos_of_fiber hs) hI he) h
  have hsplit := length_filter_not_mem_add
    (reachable_launchedOnce h).nodup.of_map
    (reachable_finishes_nodup h)
    (finishes_subset_launches (reachable_tracked h))
    (p := fun x => x ∉ s.finishes) (by simp)
  simp only [State.unfinished]
  omega

/-! ## Leaving workers -/

theorem exited_effect_iff
    {s : State ι} {e : Event ι} {w : ι} (he : enabled s e) :
    ((effect s e).worker w).thread = .exited ↔
      (s.worker w).thread = .exited ∨
        (e = .mainInFlight w ∧ s.inFlight = 0) := by
  by_cases hw : e.worker? = some w
  · have hmove := moves_effect hw he
    generalize (effect s e).worker w = v at hmove ⊢
    cases hmove <;> simp [*]
  · rw [effect_worker_agree (g := Worker.thread) (fun _ => rfl) hw]
    refine (or_iff_left ?_).symm
    rintro ⟨rfl, -⟩
    exact hw rfl

theorem main_returned_effect_iff
    {s : State ι} {e : Event ι} {w : ι} (he : enabled s e)
    (hback : (s.worker w).main = .returned →
      (s.worker w).thread = .exited) :
    ((effect s e).worker w).main = .returned ↔
      (s.worker w).main = .returned ∨
        (e = .mainInFlight w ∧ s.inFlight = 0) := by
  have hwake : ∀ v : Worker, v.wake.main = .returned ↔
      v.main = .returned := by
    intro v
    cases hv : v.main <;> simp [Worker.wake, hv]
  by_cases hw : e.worker? = some w
  · have hmove := moves_effect hw he
    generalize (effect s e).worker w = v at hmove ⊢
    cases hmove with
    | mainPark hthread =>
        have hnot : (s.worker w).main ≠ .returned := by
          intro hret
          simp [hback hret] at hthread
        simp [hnot]
    | notifyAll => simp [hwake]
    | mainLock _ hmain => simp [hmain]
    | mainReturn _ hzero | mainInFlight _ hzero => simp [hzero]
    | _ => simp
  · have hagree : ((effect s e).worker w).main = .returned ↔
        (s.worker w).main = .returned := by
      rcases effect_worker_of_ne (s := s) hw with h | h
      · rw [h]
      · rw [h, hwake]
    rw [hagree]
    refine (or_iff_left ?_).symm
    rintro ⟨rfl, -⟩
    exact hw rfl

/-- The wait of a main fiber has returned exactly when its thread has left. -/
theorem returned_iff_exited
    {s : State ι} (h : (machine ι).Reachable s) :
    ∀ w, (s.worker w).main = .returned ↔
      (s.worker w).thread = .exited := by
  refine reachable_invariant
    (I := fun s => ∀ w, (s.worker w).main = .returned ↔
      (s.worker w).thread = .exited) (by simp [initial]) ?_ h
  intro s e _ hI he w
  rw [main_returned_effect_iff he (hI w).mp, exited_effect_iff he, hI w]

theorem live_of_exited [Fintype ι]
    {s : State ι} (h : (machine ι).Reachable s) :
    ∀ w, (s.worker w).thread = .exited → (s.worker w).live = [] := by
  refine reachable_invariant
    (I := fun s => ∀ w, (s.worker w).thread = .exited →
      (s.worker w).live = []) (by simp [initial]) ?_ h
  intro s e hs hI he w hexited
  rcases (exited_effect_iff he).mp hexited with hbefore | ⟨rfl, hzero⟩
  · have hlaunch : ∀ t, e ≠ .launch w t := by
      rintro t rfl
      simp [enabled, hbefore] at he
    have hfinish : ∀ t, e ≠ .finish w t := by
      rintro t rfl
      simp [enabled, hbefore] at he
    rw [live_effect hlaunch hfinish]
    exact hI w hbefore
  · -- no fiber of any worker is live when the counter is zero
    rw [live_effect (by simp) (by simp)]
    have hshare := le_total (fun v : Worker => v.live.length) s.worker w
    have htotal : ∑ x, (s.worker x).live.length = 0 := by
      rw [← hzero]
      exact (reachable_inFlight hs).symm
    exact List.length_eq_zero_iff.mp (by omega)

theorem launches_of_exited
    {s s' : State ι} {w : ι} (hs : (machine ι).Reaches s s')
    (hw : (s.worker w).thread = .exited) {t : Ticket}
    (ht : (w, t) ∈ s'.launches) : (w, t) ∈ s.launches := by
  have hstable : (s'.worker w).thread = .exited ∧
      ((w, t) ∈ s'.launches → (w, t) ∈ s.launches) := by
    refine Machine.Reaches.stable
      (P := fun s' => (s'.worker w).thread = .exited ∧
        ((w, t) ∈ s'.launches → (w, t) ∈ s.launches)) ?_ hs ⟨hw, id⟩
    rintro s₁ e ⟨hexited, hold⟩ he
    refine ⟨(exited_effect_iff he).mpr (.inl hexited), ?_⟩
    intro hmem
    change (w, t) ∈ (effect s₁ e).launches at hmem
    rw [launches_effect, List.mem_append] at hmem
    rcases hmem with hmem | hmem
    · exact hold hmem
    · cases e with
      | launch x t' =>
          have hx : w = x ∧ t = t' := by simpa [Event.launched] using hmem
          obtain ⟨rfl, rfl⟩ := hx
          have hlaunching : (s₁.worker w).thread = .launching t := he
          simp [hexited] at hlaunching
      | _ => simp [Event.launched] at hmem
  exact hstable.2 ht

/-- A worker whose wait has returned has finished all it launched. -/
theorem finished_of_returned [Fintype ι]
    {s : State ι} (h : (machine ι).Reachable s) {w : ι}
    (hw : (s.worker w).main = .returned) {t : Ticket}
    (ht : (w, t) ∈ s.launches) : (w, t) ∈ s.finishes := by
  have hlive := live_of_exited h w ((returned_iff_exited h w).mp hw)
  have hmem := ((reachable_tracked h).perm w).mem_iff.mp (mem_tasksOf.mpr ht)
  rw [hlive, List.append_nil] at hmem
  exact mem_tasksOf.mp hmem

/-- When all workers have returned, launched and finished are the same. -/
theorem drain_perm_of_returned [Fintype ι]
    {s : State ι} (h : (machine ι).Reachable s)
    (hall : ∀ w, (s.worker w).main = .returned) :
    s.launches.Perm s.finishes := by
  rw [List.perm_ext_iff_of_nodup (reachable_launchedOnce h).nodup.of_map
    (reachable_finishes_nodup h)]
  intro x
  exact ⟨fun hx => finished_of_returned h (hall x.1) hx,
    fun hx => finishes_subset_launches (reachable_tracked h) hx⟩

/-! ## The drain theorem -/

/-- The drain abandons no running fiber.  `in_flight_` is the number of
launched fibers that have not yet decremented, so a decrement never underflows;
when the wait of a worker's main fiber returns, every fiber the worker launched
has finished, and whatever the other workers still do it launches no further
one; and when all workers have returned, launched and finished are the same. -/
theorem drain_abandons_no_fiber [Fintype ι]
    {s : State ι} (h : (machine ι).Reachable s) :
    s.inFlight = s.unfinished.length ∧
      (∀ w t, (s.worker w).thread = .fiber t → 0 < s.inFlight) ∧
      (∀ w, (s.worker w).main = .returned →
        (∀ t, (w, t) ∈ s.launches → (w, t) ∈ s.finishes) ∧
          ∀ s', (machine ι).Reaches s s' →
            ∀ t, (w, t) ∈ s'.launches → (w, t) ∈ s.launches) ∧
      ((∀ w, (s.worker w).main = .returned) →
        s.launches.Perm s.finishes) := by
  refine ⟨inFlight_eq_unfinished h, fun w t => inFlight_pos_of_fiber h,
    ?_, drain_perm_of_returned h⟩
  intro w hw
  refine ⟨fun t => finished_of_returned h hw, fun s' hs t ht => ?_⟩
  exact launches_of_exited hs ((returned_iff_exited h w).mp hw) ht

/-- Worker 1 reads `running_` as true and dequeues; then `stop` runs, worker 0
leaves, and only after that does worker 1 launch. -/
theorem drain_abandons_no_fiber_late_launch :
    ∃ s : State (Fin 2), (machine (Fin 2)).Reachable s ∧
      (s.worker 0).main = .returned ∧ s.launches = [(1, 0)] ∧
      s.inFlight = s.unfinished.length := by
  obtain ⟨s, hs, hmain, hlaunches⟩ := Machine.exists_reachableUnder_of_exec
    (M := machine (Fin 2)) (G := fun _ _ => True)
    (P := fun s => (s.worker 0).main = .returned ∧ s.launches = [(1, 0)]) rfl
    [.start 0, .start 1, .postPush, .postWrite, .readWork 1 8, .takeCqe 1 8,
      .loadRunning 1 8, .dequeue 1, .stopRequest, .stopLock, .stopStore,
      .stopNotify, .stopUnlock, .mainLock 0, .mainRunning 0, .mainInFlight 0,
      .launch 1 0]
    (by decide)
  exact ⟨s, hs, hmain, hlaunches, (drain_abandons_no_fiber hs).1⟩

end Fiberexec.Pool
