import Fiberexec.Pool.Stranded
import Fiberexec.Senders.Lifetime

/-!
# Operations on the pool

The operations of `schedule` and `run` and the pool that runs them, as one system.
`schedule_task` pushes the task of an operation to the pool's queue; what a fiber
does for its operation it does while the thread of its worker runs it; and the
fiber of a task ends when the task has returned.

Both parts keep the guarantees that they have alone.  What the composition adds is
where an operation runs, and what has become of it when the pool is destroyed.
-/

namespace Fiberexec.Senders

open Support

variable {ι σ κ V X : Type}

/-! ## The composed system -/

/-- Whether a step is taken by the fiber of the operation. -/
def Event.onFiber : Event σ κ → Bool
  | .enter _ | .call _ | .answer _ _ | .unwind _ | .leave _ | .complete _ => true
  | _ => false

def Event.posts : Event σ κ → Bool
  | .post _ => true
  | _ => false

def Fiber.atReturn : Fiber V X → Bool
  | .returned => true
  | _ => false

/-- `task` tells for the tasks of the pool which operation they belong to, if
any, and `trace` records the worker and the task of each step of a fiber. -/
structure System (ι σ κ V X : Type) where
  pool : Pool.State ι
  ops : State σ κ V X
  task : Pool.Ticket → Option κ
  trace : List (ι × Pool.Ticket)

inductive SystemEvent (ι σ κ : Type)
  /-- a step of the pool alone; a `postPush` is that of somebody else's task -/
  | pool (e : Pool.Event ι)
  /-- a step of an operation outside of its fiber -/
  | ops (e : Event σ κ)
  /-- `schedule_task` pushes the task of the operation -/
  | post (i : κ)
  /-- a step of the fiber of task `t` on worker `w` -/
  | fiber (w : ι) (t : Pool.Ticket) (e : Event σ κ)
  deriving DecidableEq

/-- The part of a step that the pool takes. -/
def SystemEvent.pool? : SystemEvent ι σ κ → Option (Pool.Event ι)
  | .pool e => some e
  | .post _ => some .postPush
  | .ops _ | .fiber _ _ _ => none

/-- The part of a step that an operation takes. -/
def SystemEvent.ops? : SystemEvent ι σ κ → Option (Event σ κ)
  | .pool _ => none
  | .ops e | .fiber _ _ e => some e
  | .post i => some (.post i)

section Machine

variable [DecidableEq ι] [DecidableEq σ] [DecidableEq κ]
  (setup : κ → Setup σ V X)

/-- What ties the steps of the two parts together. -/
def Coupled (s : System ι σ κ V X) : SystemEvent ι σ κ → Prop
  -- the tracked fiber body decrements `in_flight_` after the task has returned
  | .pool (.finish _ t) =>
      (s.task t).all (fun i => (s.ops.op i).fiber.atReturn) = true
  | .pool _ => True
  | .ops e => e.onFiber = false ∧ e.posts = false
  | .post _ => True
  | .fiber w t e =>
      (s.pool.worker w).thread = .fiber t ∧ e.onFiber = true ∧ e.op? = s.task t

def systemEffect (s : System ι σ κ V X) (e : SystemEvent ι σ κ) :
    System ι σ κ V X where
  pool := e.pool?.elim s.pool (Pool.effect s.pool)
  ops := e.ops?.elim s.ops (effect setup s.ops)
  task :=
    match e with
    | .post i => Function.update s.task s.pool.posted (some i)
    | _ => s.task
  trace :=
    match e with
    | .fiber w t _ => s.trace ++ [(w, t)]
    | _ => s.trace

/-- The operations and the pool as one system of atomic steps. -/
def system : Machine (System ι σ κ V X) (SystemEvent ι σ κ) where
  init := fun s => s.pool = Pool.initial ∧ s.ops.initial ∧
    (∀ t, s.task t = none) ∧ s.trace = []
  enabled := fun s e =>
    (∀ p ∈ e.pool?, Pool.enabled s.pool p) ∧
      (∀ o ∈ e.ops?, enabled setup s.ops o) ∧ Coupled s e
  effect := systemEffect setup

instance [Fintype ι] (s : System ι σ κ V X) :
    (e : SystemEvent ι σ κ) → Decidable (Coupled s e)
  | .pool e =>
      match e with
      | .finish _ t => inferInstanceAs (Decidable
          ((s.task t).all (fun i => (s.ops.op i).fiber.atReturn) = true))
      | .start _ | .postPush | .postWrite | .readWork _ _ | .takeCqe _ _
      | .loadRunning _ _ | .dequeue _ | .launch _ _ | .loadRearm _
      | .armWorkEfd _ | .resume _ _ | .suspend _ _ | .notifyAll _ | .mainLock _
      | .mainRunning _ | .mainInFlight _ | .mainPark _ | .stopRequest | .stopLock
      | .stopStore | .stopNotify | .stopUnlock | .join => .isTrue trivial
  | .ops e =>
      inferInstanceAs (Decidable (e.onFiber = false ∧ e.posts = false))
  | .post _ => .isTrue trivial
  | .fiber w t e =>
      inferInstanceAs (Decidable ((s.pool.worker w).thread = .fiber t ∧
        e.onFiber = true ∧ e.op? = s.task t))

instance [Fintype ι] (s : System ι σ κ V X) (e : SystemEvent ι σ κ) :
    Decidable ((system setup).enabled s e) :=
  have : ∀ p, Decidable (Pool.enabled s.pool p) := fun p =>
    inferInstanceAs (Decidable ((Pool.machine ι).enabled s.pool p))
  have : ∀ o, Decidable (enabled setup s.ops o) := fun o =>
    inferInstanceAs (Decidable ((machine setup).enabled s.ops o))
  inferInstanceAs (Decidable ((∀ p ∈ e.pool?, Pool.enabled s.pool p) ∧
    (∀ o ∈ e.ops?, enabled setup s.ops o) ∧ Coupled s e))

end Machine

/-! ## The two parts -/

section Parts

variable [DecidableEq ι] [DecidableEq σ] [DecidableEq κ]
  {setup : κ → Setup σ V X} {s : System ι σ κ V X} {e : SystemEvent ι σ κ}

/-- What a guard of the pool says of a step of the composed system. -/
def OnPool (H : Pool.State ι → Pool.Event ι → Prop) (s : System ι σ κ V X)
    (e : SystemEvent ι σ κ) : Prop :=
  ∀ p ∈ e.pool?, H s.pool p

theorem pool_reachableUnder
    {H : Pool.State ι → Pool.Event ι → Prop}
    (h : (system setup).ReachableUnder (OnPool H) s) :
    (Pool.machine ι).ReachableUnder H s.pool := by
  refine Machine.ReachableUnder.component (M := system setup) (f := System.pool)
    (fun s hs => hs.1) ?_ h
  intro s e he hguard
  cases hp : e.pool? with
  | none => exact .inl (by simp [system, systemEffect, hp])
  | some p =>
      exact .inr ⟨p, he.1 p hp, hguard p hp, by simp [system, systemEffect, hp,
        Pool.machine]⟩

theorem pool_reachable (h : (system setup).Reachable s) :
    (Pool.machine ι).Reachable s.pool :=
  pool_reachableUnder (h.mono fun _ _ _ _ _ => trivial)

theorem ops_reachable (h : (system setup).Reachable s) :
    (machine setup).Reachable s.ops := by
  refine Machine.ReachableUnder.component (M := system setup) (f := System.ops)
    (fun s hs => hs.2.1) ?_ h
  intro s e he _
  cases ho : e.ops? with
  | none => exact .inl (by simp [system, systemEffect, ho])
  | some o =>
      exact .inr ⟨o, he.2.1 o ho, trivial, by simp [system, systemEffect, ho,
        machine]⟩

end Parts

/-! ## What the steps of an operation touch -/

section Touched

variable {setup : κ → Setup σ V X} {s : State σ κ V X} {i : κ} {e : Event σ κ}

@[simp] theorem Op.starter_stepBody
    (c : Setup σ V X) (o : Op V X) (fiber : Fiber V X) :
    (o.stepBody c fiber).starter = o.starter := by
  rw [stepBody]
  split
  next => rfl
  next => exact o.starter_touch

@[simp] theorem Op.starter_leave
    (c : Setup σ V X) (o : Op V X) (x : Completion V X) :
    (o.leave c x).starter = o.starter := by
  rw [leave]
  split
  next => rfl
  next => exact o.starter_touch

theorem starter_step_of_onFiber
    (hfiber : e.onFiber = true) :
    (s.step setup i (s.op i) e).starter = (s.op i).starter := by
  cases e with
  | enter j =>
      simp only [State.step, Op.enter]
      split <;> simp
  | call j =>
      simp only [State.step]
      split
      next checks k _ =>
          rw [Op.call]
          split <;> simp
      next => rfl
  | answer j res =>
      simp only [State.step]
      split
      next => simp [Op.answer]
      next => rfl
  | unwind j => simp [State.step]
  | leave j =>
      simp only [State.step]
      split
      next b _ => split <;> simp
      next => rfl
  | complete j =>
      simp only [State.step]
      split
      next => simp [Op.complete]
      next => rfl
  | _ => cases hfiber

variable [DecidableEq σ] [DecidableEq κ]

theorem fiber_effect_of_outside
    (hfiber : e.onFiber = false) (hposts : e.posts = false) :
    ((effect setup s e).op i).fiber = (s.op i).fiber := by
  by_cases hi : e.op? = some i
  · rw [op_effect hi]
    cases e with
    | requestStop | callbackBegin | callbackEnd | destroyBegin | destroyEnd => rfl
    | start j =>
        simp only [State.step, Op.start]
        split <;> exact Op.fiber_touch _
    | register j =>
        simp only [State.step, Op.register, Op.forward]
        split <;> exact Op.fiber_touch _
    | callbackForward j => exact Op.fiber_touch _
    | post j => cases hposts
    | enter | call | answer | unwind | leave | complete => cases hfiber
  · rw [op_effect_of_ne hi]

theorem starter_effect_of_not_posts
    (he : enabled setup s e) (hposts : e.posts = false) :
    ((effect setup s e).op i).starter = .done ↔ (s.op i).starter = .done := by
  by_cases hi : e.op? = some i
  · rw [op_effect hi]
    cases e with
    | requestStop | callbackBegin | callbackEnd | destroyBegin | destroyEnd =>
        exact Iff.rfl
    | start j =>
        cases hi
        have hidle : (s.op i).starter = .idle := he.1
        simp only [State.step, Op.start, hidle]
        split <;> simp
    | register j =>
        cases hi
        have hbridging : (s.op i).starter = .bridging := he
        simp only [State.step, Op.register, hbridging]
        split <;> simp
    | callbackForward j => simp [State.step, Op.forward]
    | post j => cases hposts
    | enter | call | answer | unwind | leave | complete =>
        rw [starter_step_of_onFiber rfl]
  · rw [op_effect_of_ne hi]

omit [DecidableEq σ] [DecidableEq κ] in
theorem Fiber.eq_returned {f : Fiber V X} (h : f.atReturn = true) :
    f = .returned := by
  cases f <;> simp_all [atReturn]

theorem returned_effect
    (h : (machine setup).Reachable s) (he : enabled setup s e)
    (hreturned : (s.op i).fiber = .returned) :
    ((effect setup s e).op i).fiber = .returned := by
  by_cases hi : e.op? = some i
  · rw [op_effect hi]
    have hsound := sound_of_reachable h i
    have hmove := moves_step he hi hsound
    generalize s.step setup i (s.op i) e = o' at hmove ⊢
    cases hmove with
    | post hstarter =>
        have hunposted := hsound.delivery.fiber_of_starting (by simp [hstarter])
        simp [hreturned] at hunposted
    | enterSchedule hfiber _ | enterRun hfiber _ | refuse hfiber _ | wait hfiber _
    | answer _ hfiber | leaveRun hfiber _ _ | completeSchedule hfiber _
    | unwindRun hfiber _ =>
        simp [hreturned] at hfiber
    | unwindSchedule _ _ | leaveSchedule _ _ | completeRun _ _ => rfl
    | _ => exact hreturned
  · rwa [op_effect_of_ne hi]

end Touched

/-! ## What the pool does with a task -/

section Tasks

variable [DecidableEq ι] {p : Pool.State ι}

theorem launched_of_fiber
    (h : (Pool.machine ι).Reachable p) {w : ι} {t : Pool.Ticket}
    (hw : (p.worker w).thread = .fiber t) : (w, t) ∈ p.launches := by
  have htracked := Pool.reachable_tracked h
  exact Pool.mem_tasksOf.mp ((htracked.perm w).mem_iff.mpr
    (List.mem_append_right _ (htracked.live_of_fiber w t hw)))

theorem posted_le_effect (p : Pool.State ι) (e : Pool.Event ι) :
    p.posted ≤ (Pool.effect p e).posted := by
  cases e with
  | postPush => exact Nat.le_succ _
  | dequeue w =>
      simp only [Pool.effect, Pool.dequeue]
      split <;> exact le_rfl
  | mainInFlight w =>
      simp only [Pool.effect]
      split <;> exact le_rfl
  | _ => exact le_rfl

variable [Fintype ι]

theorem lt_posted_of_launched
    (h : (Pool.machine ι).Reachable p) {w : ι} {t : Pool.Ticket}
    (hw : (w, t) ∈ p.launches) : t < p.posted := by
  have hdequeued := (Pool.reachable_launchedOnce h).launched_dequeued t
    (List.mem_map_of_mem hw)
  have hfifo := (Pool.reachable_accounted h).fifo
  exact List.mem_range.mp (hfifo ▸ List.mem_append_left _ hdequeued)

theorem worker_unique
    (h : (Pool.machine ι).Reachable p) {w w' : ι}
    {t : Pool.Ticket} (hw : (w, t) ∈ p.launches) (hw' : (w', t) ∈ p.launches) :
    w = w' := by
  have hinj := List.inj_on_of_nodup_map (Pool.reachable_launchedOnce h).nodup hw hw'
  exact congrArg Prod.fst (hinj rfl)

/-- After the last `join` a task that left the queue has finished. -/
theorem finished_of_destroyed
    (h : (Pool.machine ι).Reachable p)
    (hdestroyed : p.owner = .destroyed) {t : Pool.Ticket} (ht : t ∈ p.dequeued) :
    ∃ w, (w, t) ∈ p.finishes := by
  have hexited := Pool.exited_of_destroyed h hdestroyed
  have hperm := Pool.drain_perm_of_returned h
    (fun w => (Pool.returned_iff_exited h w).mpr (hexited w))
  rcases Pool.launched_or_held h t ht with hlaunched | ⟨w, hw⟩
  · obtain ⟨x, hx, rfl⟩ := List.mem_map.mp hlaunched
    exact ⟨x.1, hperm.mem_iff.mp hx⟩
  · simp [hexited w] at hw

theorem not_launched_of_queued
    (h : (Pool.machine ι).Reachable p) {t : Pool.Ticket}
    (ht : t ∈ p.workQueue) (w : ι) : (w, t) ∉ p.launches := by
  intro hw
  have hdequeued := (Pool.reachable_launchedOnce h).launched_dequeued t
    (List.mem_map_of_mem hw)
  have hnodup : (p.dequeued ++ p.workQueue).Nodup := by
    rw [(Pool.reachable_accounted h).fifo]
    exact List.nodup_range
  exact List.disjoint_of_nodup_append hnodup hdequeued ht

end Tasks

/-! ## Tasks and operations -/

section Linked

variable [DecidableEq ι] [DecidableEq σ] [DecidableEq κ]
  {setup : κ → Setup σ V X} {s : System ι σ κ V X} {e : SystemEvent ι σ κ}

/-- The operations and the tasks of the pool belong together: an operation that
has posted has one task, which the pool has launched if it has begun, and whose
fiber finishes after the operation. -/
structure Linked (s : System ι σ κ V X) : Prop where
  posted : ∀ t i, s.task t = some i →
    t < s.pool.posted ∧ (s.ops.op i).starter = .done
  unique : ∀ t t' i, s.task t = some i → s.task t' = some i → t = t'
  task : ∀ i, (s.ops.op i).starter = .done → ∃ t, s.task t = some i
  launched : ∀ t i, s.task t = some i → (s.ops.op i).fiber.entered = true →
    ∃ w, (w, t) ∈ s.pool.launches
  finished : ∀ t i w, s.task t = some i → (w, t) ∈ s.pool.finishes →
    (s.ops.op i).fiber = .returned
  trace : ∀ x ∈ s.trace, x ∈ s.pool.launches

theorem linked_initial (h : (system setup).init s) : Linked s := by
  obtain ⟨hpool, hops, htask, htrace⟩ := h
  refine ⟨?_, ?_, ?_, ?_, ?_, ?_⟩
  · simp [htask]
  · simp [htask]
  · intro i hstarter
    rw [hops i] at hstarter
    cases hstarter
  · simp [htask]
  · simp [htask]
  · simp [htrace]

theorem linked_pool
    {p : Pool.Event ι} (h : Linked s)
    (he : (system setup).enabled s (.pool p)) :
    Linked (systemEffect setup s (.pool p)) := by
  have hlaunches : (Pool.effect s.pool p).launches = _ := Pool.launches_effect _ _
  refine ⟨?_, h.unique, h.task, ?_, ?_, ?_⟩
  · intro t i ht
    obtain ⟨hlt, hstarter⟩ := h.posted t i ht
    exact ⟨hlt.trans_le (posted_le_effect _ _), hstarter⟩
  · intro t i ht hentered
    obtain ⟨w, hw⟩ := h.launched t i ht hentered
    exact ⟨w, hlaunches ▸ List.mem_append_left _ hw⟩
  · intro t i w ht hw
    change (w, t) ∈ (Pool.effect s.pool p).finishes at hw
    rw [Pool.finishes_effect, List.mem_append] at hw
    rcases hw with hw | hw
    · exact h.finished t i w ht hw
    · cases p with
      | finish w' t' =>
          have heq : w = w' ∧ t = t' := by simpa [Pool.Event.finished] using hw
          obtain ⟨rfl, rfl⟩ := heq
          have hall : (s.task t).all
            (fun i => (s.ops.op i).fiber.atReturn) = true := he.2.2
          rw [show s.task t = some i from ht] at hall
          exact Fiber.eq_returned hall
      | _ => simp [Pool.Event.finished] at hw
  · intro x hx
    exact hlaunches ▸ List.mem_append_left _ (h.trace x hx)

theorem linked_ops
    {o : Event σ κ} (h : Linked s) (he : (system setup).enabled s (.ops o)) :
    Linked (systemEffect setup s (.ops o)) := by
  obtain ⟨-, henabled, hfiber, hposts⟩ := he
  have hstarter : ∀ i, ((effect setup s.ops o).op i).starter = .done ↔
      (s.ops.op i).starter = .done := fun i =>
    starter_effect_of_not_posts (henabled o rfl) hposts
  have hsame : ∀ i, ((effect setup s.ops o).op i).fiber = (s.ops.op i).fiber :=
    fun i => fiber_effect_of_outside hfiber hposts
  refine ⟨?_, h.unique, ?_, ?_, ?_, h.trace⟩
  · intro t i ht
    exact (h.posted t i ht).imp_right (hstarter i).mpr
  · intro i hdone
    exact h.task i ((hstarter i).mp hdone)
  · intro t i ht hentered
    exact h.launched t i ht (hsame i ▸ hentered)
  · intro t i w ht hw
    exact (hsame i).trans (h.finished t i w ht hw)

theorem linked_fiber
    {w : ι} {t : Pool.Ticket} {o : Event σ κ} (hs : (system setup).Reachable s)
    (h : Linked s) (he : (system setup).enabled s (.fiber w t o)) :
    Linked (systemEffect setup s (.fiber w t o)) := by
  obtain ⟨-, henabled, hthread, hfiber, htask⟩ := he
  have hlaunched := launched_of_fiber (pool_reachable hs) hthread
  have hposts : o.posts = false := by
    cases o with
    | post i => cases hfiber
    | _ => rfl
  have hstarter : ∀ i, ((effect setup s.ops o).op i).starter = .done ↔
      (s.ops.op i).starter = .done := fun i =>
    starter_effect_of_not_posts (henabled o rfl) hposts
  refine ⟨?_, h.unique, ?_, ?_, ?_, ?_⟩
  · intro t' i ht
    exact (h.posted t' i ht).imp_right (hstarter i).mpr
  · intro i hdone
    exact h.task i ((hstarter i).mp hdone)
  · intro t' i ht hentered
    by_cases hi : o.op? = some i
    · obtain rfl := h.unique t t' i (htask ▸ hi) ht
      exact ⟨w, hlaunched⟩
    · refine h.launched t' i ht ?_
      have hsame : (Senders.effect setup s.ops o).op i = s.ops.op i := op_effect_of_ne hi
      exact hsame ▸ hentered
  · intro t' i w' ht hw
    exact returned_effect (ops_reachable hs) (henabled o rfl)
      (h.finished t' i w' ht hw)
  · intro x hx
    rcases List.mem_append.mp hx with hx | hx
    · exact h.trace x hx
    · rw [List.mem_singleton.mp hx]
      exact hlaunched

theorem linked_post [Fintype ι]
    {i : κ} (hs : (system setup).Reachable s) (h : Linked s)
    (he : (system setup).enabled s (.post i)) :
    Linked (systemEffect setup s (.post i)) := by
  have hposting : (s.ops.op i).starter = .posting := he.2.1 _ rfl
  have hop : (effect setup s.ops (.post i)).op i = (s.ops.op i).post :=
    op_effect rfl
  have hother : ∀ j, j ≠ i →
      (effect setup s.ops (.post i)).op j = s.ops.op j := fun j hj =>
    op_effect_of_ne fun heq => hj (Option.some.inj heq).symm
  -- the new ticket was given to nobody, and the operation had none
  have hcases : ∀ t j, Function.update s.task s.pool.posted (some i) t = some j →
      t = s.pool.posted ∧ j = i ∨ j ≠ i ∧ s.task t = some j := by
    intro t j ht
    by_cases hnew : t = s.pool.posted
    · subst hnew
      rw [Function.update_self, Option.some.injEq] at ht
      exact .inl ⟨rfl, ht.symm⟩
    · rw [Function.update_of_ne hnew] at ht
      refine .inr ⟨?_, ht⟩
      rintro rfl
      have hdone := (h.posted t j ht).2
      rw [hposting] at hdone
      cases hdone
  refine ⟨?_, ?_, ?_, ?_, ?_, h.trace⟩
  · intro t j ht
    rcases hcases t j ht with ⟨rfl, rfl⟩ | ⟨hj, hold⟩
    · exact ⟨Nat.lt_succ_self _, congrArg Op.starter hop⟩
    · obtain ⟨hlt, hstarter⟩ := h.posted t j hold
      exact ⟨Nat.lt_succ_of_lt hlt,
        (congrArg Op.starter (hother j hj)).trans hstarter⟩
  · intro t t' j ht ht'
    rcases hcases t j ht with ⟨rfl, rfl⟩ | ⟨hj, hold⟩
    · rcases hcases t' j ht' with ⟨rfl, -⟩ | ⟨hj, -⟩
      · rfl
      · exact absurd rfl hj
    · rcases hcases t' j ht' with ⟨-, rfl⟩ | ⟨-, hold'⟩
      · exact absurd rfl hj
      · exact h.unique t t' j hold hold'
  · intro j hdone
    by_cases hj : j = i
    · exact ⟨s.pool.posted, hj ▸ Function.update_self _ _ _⟩
    · obtain ⟨t, ht⟩ := h.task j ((congrArg Op.starter (hother j hj)).symm.trans
        hdone)
      exact ⟨t, (Function.update_of_ne (h.posted t j ht).1.ne _ _).trans ht⟩
  · intro t j ht hentered
    rcases hcases t j ht with ⟨rfl, rfl⟩ | ⟨hj, hold⟩
    · have hqueued : ((effect setup s.ops (.post j)).op j).fiber = .queued :=
        congrArg Op.fiber hop
      change ((effect setup s.ops (.post j)).op j).fiber.entered = true at hentered
      rw [hqueued] at hentered
      cases hentered
    · refine h.launched t j hold ?_
      rw [← hother j hj]
      exact hentered
  · intro t j w ht hw
    have hlaunched : (w, t) ∈ s.pool.launches :=
      Pool.finishes_subset_launches (Pool.reachable_tracked (pool_reachable hs)) hw
    rcases hcases t j ht with ⟨rfl, rfl⟩ | ⟨hj, hold⟩
    · exact absurd (lt_posted_of_launched (pool_reachable hs) hlaunched)
        (lt_irrefl _)
    · exact (congrArg Op.fiber (hother j hj)).trans (h.finished t j w hold hw)

theorem linked_of_reachable [Fintype ι] (h : (system setup).Reachable s) : Linked s := by
  refine h.invariant (fun _ => linked_initial) ?_
  intro s e hs hlinked he
  cases e with
  | pool p => exact linked_pool hlinked he
  | ops o => exact linked_ops hlinked he
  | post i => exact linked_post hs hlinked he
  | fiber w t o => exact linked_fiber hs hlinked he

/-- The receiver of an operation whose fiber has returned is completed. -/
theorem received_of_returned
    (h : (system setup).Reachable s) {i : κ}
    (hreturned : (s.ops.op i).fiber = .returned) :
    (s.ops.op i).received.length = 1 := by
  have hlength := (sound_of_reachable (ops_reachable h) i).delivery.length_received
  simpa [hreturned, Fiber.completed] using hlength

/-- An operation that has posted and not begun is in the queue. -/
theorem queued_of_not_entered
    (h : (system setup).Reachable s) {i : κ}
    (hdone : (s.ops.op i).starter = .done)
    (hentered : (s.ops.op i).fiber.entered = false) :
    (s.ops.op i).fiber = .queued ∧ (s.ops.op i).received = [] := by
  have hdelivery := (sound_of_reachable (ops_reachable h) i).delivery
  have hfiber : (s.ops.op i).fiber = .queued := by
    cases hfiber : (s.ops.op i).fiber with
    | unposted =>
        cases hdelivery with
        | unposted hstarter _ _ _ => exact absurd hdone hstarter
        | pending _ hne _ _ _ => exact absurd hfiber hne
        | completed _ hcompleted _ => simp [hfiber, Fiber.completed] at hcompleted
    | queued => rfl
    | _ => simp [hfiber, Fiber.entered] at hentered
  have hlength := hdelivery.length_received
  exact ⟨hfiber, by simpa [hfiber, Fiber.completed] using hlength⟩

end Linked

/-! ## The pool is destroyed -/

section Destroyed

variable [DecidableEq ι] [Fintype ι] [DecidableEq σ] [DecidableEq κ]
  {setup : κ → Setup σ V X} {s : System ι σ κ V X}

/-- Operations on a pool of any number of workers.  The fiber of a task runs on
one worker only, and each operation has one task.  When `~fiber_pool` returns, an
operation that was started on the pool has completed its receiver, once, and its
fiber has finished; or its task is still in the queue, and it never began. -/
theorem pool_runs_operations
    (h : (system setup).Reachable s) :
    (∀ w w' t, (w, t) ∈ s.trace → (w', t) ∈ s.trace → w = w') ∧
      (∀ t t' i, s.task t = some i → s.task t' = some i → t = t') ∧
      (s.pool.owner = .destroyed → ∀ i, (s.ops.op i).starter = .done →
        ∃ t, s.task t = some i ∧
          ((∃ w, (w, t) ∈ s.pool.finishes) ∧
              (s.ops.op i).fiber = .returned ∧ (s.ops.op i).received.length = 1 ∨
            t ∈ s.pool.workQueue ∧ (s.ops.op i).fiber = .queued ∧
              (s.ops.op i).received = [])) := by
  have hpool := pool_reachable h
  have hlinked := linked_of_reachable h
  refine ⟨?_, hlinked.unique, ?_⟩
  · intro w w' t hw hw'
    exact worker_unique hpool (hlinked.trace _ hw) (hlinked.trace _ hw')
  · intro hdestroyed i hdone
    obtain ⟨t, ht⟩ := hlinked.task i hdone
    refine ⟨t, ht, ?_⟩
    have hposted : t ∈ s.pool.dequeued ++ s.pool.workQueue := by
      rw [(Pool.reachable_accounted hpool).fifo]
      exact List.mem_range.mpr (hlinked.posted t i ht).1
    rcases List.mem_append.mp hposted with hdequeued | hqueue
    · obtain ⟨w, hw⟩ := finished_of_destroyed hpool hdestroyed hdequeued
      have hreturned := hlinked.finished t i w ht hw
      exact .inl ⟨⟨w, hw⟩, hreturned, received_of_returned h hreturned⟩
    · refine .inr ⟨hqueue, queued_of_not_entered h hdone ?_⟩
      by_contra hentered
      obtain ⟨w, hw⟩ := hlinked.launched t i ht (by simpa using hentered)
      exact not_launched_of_queued hpool hqueue w hw

/-- When every task was claimed in time the queue is empty in the end. -/
theorem queue_of_destroyed
    {p : Pool.State ι}
    (h : (Pool.machine ι).ReachableUnder Pool.AcceptsNoOrphan p)
    (hdestroyed : p.owner = .destroyed) : p.workQueue = [] := by
  have hrun : p.running = false := by
    rw [(Pool.reachable_exclusive h.reachable).running, hdestroyed]
    rfl
  have hnone : p.dequeuers = 0 := by
    refine Finset.sum_eq_zero ?_
    intro w _
    rw [Pool.exited_of_destroyed h.reachable hdestroyed w]
    rfl
  exact List.length_eq_zero_iff.mp
    ((Pool.claimed_of_acceptsNoOrphan h hrun).trans hnone)

end Destroyed

section Whole

variable [DecidableEq ι] [Fintype ι] [DecidableEq σ] [DecidableEq κ]
  {setup : κ → Setup σ V X} {s : System ι σ κ V X}

/-- In every run in which `stop` clears `running_` only when every queued task is
claimed by a thread about to dequeue, and in which nobody posts afterwards, every
operation that was started on the pool has completed its receiver exactly once when
`~fiber_pool` returns: `schedule` with `set_value()`, `run` as its callable ended. -/
theorem operations_complete_before_destruction
    (h : (system setup).ReachableUnder (OnPool Pool.AcceptsNoOrphan) s)
    (hdestroyed : s.pool.owner = .destroyed) {i : κ}
    (hdone : (s.ops.op i).starter = .done) :
    ∃ x, (s.ops.op i).received = [x] ∧ Justified (setup i) (s.ops.op i) x := by
  have hqueue := queue_of_destroyed (pool_reachableUnder h) hdestroyed
  have hreach := h.reachable
  have hlinked := linked_of_reachable hreach
  obtain ⟨t, ht⟩ := hlinked.task i hdone
  have hposted : t ∈ s.pool.dequeued ++ s.pool.workQueue := by
    rw [(Pool.reachable_accounted (pool_reachable hreach)).fifo]
    exact List.mem_range.mpr (hlinked.posted t i ht).1
  rw [hqueue, List.append_nil] at hposted
  obtain ⟨w, hw⟩ := finished_of_destroyed (pool_reachable hreach) hdestroyed hposted
  obtain ⟨x, hx⟩ := List.length_eq_one_iff.mp
    (received_of_returned hreach (hlinked.finished t i w ht hw))
  refine ⟨x, hx, (sound_of_reachable (ops_reachable hreach) i).justified ?_⟩
  rw [hx]
  exact List.mem_singleton_self x

instance (s : System ι σ κ V X) (e : SystemEvent ι σ κ) :
    Decidable (OnPool Pool.AcceptsNoOrphan s e) :=
  inferInstanceAs (Decidable (∀ p ∈ e.pool?, Pool.AcceptsNoOrphan s.pool p))

end Whole

/-- One operation of `run`, not started, and a pool of one worker. -/
def oneReadOnPool : System Unit Unit Unit ℕ Unit where
  pool := Pool.initial
  ops := { requested := fun _ => false, op := fun _ => Op.initial }
  task := fun _ => none
  trace := []

/-- The pool is destroyed while the task is in the queue: the worker drops the
wake-up, and the receiver is never completed. -/
theorem pool_runs_operations_dropped :
    ∃ s : System Unit Unit Unit ℕ Unit, (system oneRead).Reachable s ∧
      s.pool.owner = .destroyed ∧ ∃ t, s.task t = some () ∧ t ∈ s.pool.workQueue ∧
        (s.ops.op ()).received = [] := by
  obtain ⟨s, hs, hdestroyed, hdone, hfinishes⟩ :=
    Machine.exists_reachableUnder_of_exec (M := system oneRead)
    (G := fun _ _ => True)
    (P := fun s => s.pool.owner = .destroyed ∧ (s.ops.op ()).starter = .done ∧
      s.pool.finishes = [])
    (s := oneReadOnPool) ⟨rfl, fun _ => rfl, fun _ => rfl, rfl⟩
    [.pool (.start ()), .ops (.start ()), .ops (.register ()), .post (),
      .pool .postWrite, .pool (.readWork () 8), .pool .stopRequest,
      .pool .stopLock, .pool .stopStore, .pool .stopNotify, .pool .stopUnlock,
      .pool (.takeCqe () 8), .pool (.loadRunning () 8), .pool (.loadRearm ()),
      .pool (.mainLock ()), .pool (.mainRunning ()), .pool (.mainInFlight ()),
      .pool .join]
    (by decide)
  obtain ⟨t, ht, ⟨⟨w, hw⟩, -⟩ | ⟨hqueue, -, hreceived⟩⟩ :=
    (pool_runs_operations hs).2.2 hdestroyed () hdone
  · simp [hfinishes] at hw
  · exact ⟨s, hs, hdestroyed, t, ht, hqueue, hreceived⟩

/-- The fiber suspends in its read, is resumed with the result and completes the
receiver; then the pool is destroyed. -/
theorem operations_complete_before_destruction_read :
    ∃ s : System Unit Unit Unit ℕ Unit,
      (system oneRead).ReachableUnder (OnPool Pool.AcceptsNoOrphan) s ∧
      s.pool.owner = .destroyed ∧ s.trace.length = 5 ∧ ∃ x, (s.ops.op ()).received = [x] := by
  obtain ⟨s, hs, hdestroyed, hdone, htrace⟩ :=
    Machine.exists_reachableUnder_of_exec (M := system oneRead)
    (G := OnPool Pool.AcceptsNoOrphan)
    (P := fun s => s.pool.owner = .destroyed ∧ (s.ops.op ()).starter = .done ∧
      s.trace.length = 5)
    (s := oneReadOnPool) ⟨rfl, fun _ => rfl, fun _ => rfl, rfl⟩
    [.pool (.start ()), .ops (.start ()), .ops (.register ()), .post (),
      .pool .postWrite, .pool (.readWork () 8), .pool (.takeCqe () 8),
      .pool (.loadRunning () 8), .pool (.dequeue ()), .pool (.launch () 0),
      .pool (.loadRearm ()), .pool (.armWorkEfd ()), .pool (.resume () 0),
      .fiber () 0 (.enter ()), .fiber () 0 (.call ()), .pool (.suspend () 0),
      .pool (.resume () 0), .fiber () 0 (.answer () (.value [3])), .fiber () 0 (.leave ()),
      .fiber () 0 (.complete ()), .pool (.finish () 0), .pool (.notifyAll ()),
      .pool .stopRequest, .pool .stopLock, .pool .stopStore, .pool .stopNotify,
      .pool .stopUnlock, .pool (.mainLock ()), .pool (.mainRunning ()),
      .pool (.mainInFlight ()), .pool .join]
    (by decide)
  obtain ⟨x, hx, -⟩ := operations_complete_before_destruction hs hdestroyed hdone
  exact ⟨s, hs, hdestroyed, htrace, x, hx⟩

end Fiberexec.Senders
