import Fiberexec.Senders.Cancellation
import Fiberexec.SyncWait.Completion

/-!
# Awaiting an operation

A fiber that calls `fiberexec::sync_wait` with a `schedule` or `run` sender: the
operation state lives on its stack, `start()` posts the task, and the fiber of the
task completes a `sync_wait_receiver`.  Any number of fibers do so side by side.

The two parts keep the guarantees that they have alone.  What the composition adds is
that the result of `sync_wait` is that of the callable, and what the environment of
`sync_wait_receiver`, which is empty, means for a stop request.
-/

namespace Fiberexec.Senders

open Support
open SyncWait (Exception)

variable {κ V X : Type}

/-! ## The composed system -/

/-- What is awaited: a sender and its callable.  `sync_wait_receiver` has an empty
environment, whose stop token cannot be stopped. -/
def awaitedSetup (sender : κ → Kind × Body V X) (i : κ) : Setup Empty V X where
  kind := (sender i).1
  source := none
  body := (sender i).2

/-- A completion as `sync_wait_receiver` gets it.  `throws` is the exception thrown
while a value is stored, if one is. -/
def Completion.awaited (throws : Option (Exception X)) :
    Completion V X → SyncWait.Completion (Option V) X
  | .setValue v => .setValue v throws
  | .setError e => .setError (.exceptionPtr (some e))
  | .setStopped => .setStopped

/-- The completion that the fiber is about to deliver. -/
def Fiber.completion? : Fiber V X → Option (Completion V X)
  | .completing x => some x
  | _ => none

/-- The operations, and the calls of `sync_wait` that own them. -/
structure Awaiting (κ V X : Type) where
  ops : State Empty κ V X
  wait : κ → SyncWait.State (Option V) X

inductive AwaitEvent (κ V X : Type)
  /-- a step of an operation that has nothing to do with `sync_wait` -/
  | ops (e : Event Empty κ)
  /-- the fiber of the task calls a method of the receiver -/
  | complete (i : κ) (x : Completion V X) (throws : Option (Exception X))
  /-- the destructor of `op` is through -/
  | destroyOp (i : κ)
  /-- a step of `sync_wait` or of the receiver -/
  | wait (i : κ) (e : SyncWait.Event (Option V) X)

/-- The part of a step that an operation takes. -/
def AwaitEvent.ops? : AwaitEvent κ V X → Option (Event Empty κ)
  | .ops e => some e
  | .complete i _ _ => some (.complete i)
  | .destroyOp i => some (.destroyEnd i)
  | .wait _ _ => none

/-- The part of a step that `sync_wait` takes, and which call of it. -/
def AwaitEvent.wait? :
    AwaitEvent κ V X → Option (κ × SyncWait.Event (Option V) X)
  | .ops _ => none
  | .complete i x throws => some (i, .deliver (x.awaited throws) false)
  | .destroyOp i => some (i, .destroyOp)
  | .wait i e => some (i, e)

section Machine

variable [DecidableEq κ] (sender : κ → Kind × Body V X)

/-- What ties the steps of the two parts together. -/
def Awaits (s : Awaiting κ V X) : AwaitEvent κ V X → Prop
  -- `stdexec::start(op)`
  | .ops (.start i) | .ops (.post i) => (s.wait i).waiter = .starting
  -- `op` goes out of scope
  | .ops (.destroyBegin i) => (s.wait i).waiter = .settled
  | .ops (.complete _) | .ops (.destroyEnd _) => False
  | .ops _ => True
  | .complete i x _ => (s.ops.op i).fiber.completion? = some x
  | .destroyOp _ => True
  | .wait _ (.deliver _ _) | .wait _ .destroyOp => False
  | .wait i .startReturns => (s.ops.op i).starter = .done
  | .wait _ _ => True

def awaitEffect (s : Awaiting κ V X) (e : AwaitEvent κ V X) : Awaiting κ V X where
  ops := e.ops?.elim s.ops (effect (awaitedSetup sender) s.ops)
  wait := e.wait?.elim s.wait fun w =>
    Function.update s.wait w.1 (SyncWait.effect (s.wait w.1) w.2)

/-- The operations and those who await them as one system of atomic steps. -/
def awaiting : Machine (Awaiting κ V X) (AwaitEvent κ V X) where
  init := fun s => s.ops.initial ∧ ∀ i, s.wait i = SyncWait.initial
  enabled := fun s e =>
    (∀ o ∈ e.ops?, enabled (awaitedSetup sender) s.ops o) ∧
      (∀ w ∈ e.wait?, SyncWait.enabled (s.wait w.1) w.2) ∧ Awaits s e
  effect := awaitEffect sender

end Machine

/-! ## The two parts -/

section Parts

variable [DecidableEq κ] {sender : κ → Kind × Body V X} {s : Awaiting κ V X}
  {e : AwaitEvent κ V X} {i : κ}

theorem awaiting_ops_reachable (h : (awaiting sender).Reachable s) :
    (machine (awaitedSetup sender)).Reachable s.ops := by
  refine Machine.ReachableUnder.component (M := awaiting sender)
    (f := Awaiting.ops) (fun s hs => hs.1) ?_ h
  intro s e he _
  cases ho : e.ops? with
  | none => exact .inl (by simp [awaiting, awaitEffect, ho])
  | some o =>
      exact .inr ⟨o, he.1 o ho, trivial,
        by simp [awaiting, awaitEffect, ho, machine]⟩

theorem awaiting_wait_reachable (h : (awaiting sender).Reachable s) (i : κ) :
    SyncWait.machine.Reachable (s.wait i) := by
  refine Machine.ReachableUnder.component (M := awaiting sender)
    (f := fun s => s.wait i) (fun s hs => hs.2 i) ?_ h
  intro s e he _
  cases hw : e.wait? with
  | none => exact .inl (by simp [awaiting, awaitEffect, hw])
  | some w =>
      obtain ⟨j, w⟩ := w
      by_cases hi : i = j
      · subst hi
        exact .inr ⟨w, he.2.1 _ hw, trivial,
          by simp [awaiting, awaitEffect, hw, SyncWait.machine]⟩
      · exact .inl (by simp [awaiting, awaitEffect, hw, hi])

end Parts

/-! ## One operation and its waiter -/

/-- What ties an operation to the call of `sync_wait` that owns it. -/
structure Awaited (o : Op V X) (w : SyncWait.State (Option V) X) : Prop where
  delivered : o.received = [] ∧ w.delivered = none ∨
    ∃ x throws, o.received = [x] ∧ w.delivered = some (x.awaited throws)
  started : w.waiter ≠ .starting → o.starter = .done
  life : w.op = true ↔ o.life ≠ .destroyed

/-- What the steps of an operation apart from its completion and its end keep. -/
theorem step_keeps
    {σ : Type} {setup : κ → Setup σ V X} {s : State σ κ V X} {e : Event σ κ} {i : κ}
    (he : enabled setup s e) (hi : e.op? = some i) (hcomplete : e ≠ .complete i)
    (hdestroy : e ≠ .destroyEnd i) :
    (s.step setup i (s.op i) e).received = (s.op i).received ∧
      ((s.op i).starter = .done → (s.step setup i (s.op i) e).starter = .done) ∧
      ((s.step setup i (s.op i) e).life = .destroyed ↔
        (s.op i).life = .destroyed) := by
  cases e with
  | requestStop src => cases hi
  | start j =>
      cases hi
      simp only [State.step, Op.start]
      split <;> simp [he.1]
  | register j =>
      cases hi
      have hstarter : (s.op i).starter = .bridging := he
      simp only [State.step, Op.register]
      split <;> simp [hstarter, Op.forward]
  | post j => simp [State.step, Op.post]
  | callbackBegin j | callbackEnd j => simp [State.step]
  | callbackForward j => simp [State.step, Op.forward]
  | enter j =>
      simp only [State.step, Op.enter]
      split <;> simp
  | call j =>
      simp only [State.step, Op.call, Op.stepBody]
      split
      · split <;> split <;> simp
      · simp
  | answer j res =>
      simp only [State.step, Op.answer, Op.stepBody]
      split
      · split <;> simp
      · simp
  | unwind j =>
      simp only [State.step, Op.leave]
      split <;> simp
  | leave j =>
      simp only [State.step, Op.leave]
      split
      · split
        · split <;> simp
        · simp
      · simp
  | complete j => cases hi; exact absurd rfl hcomplete
  | destroyBegin j =>
      cases hi
      simp [State.step, Op.destroyBegin, he.1]
  | destroyEnd j => cases hi; exact absurd rfl hdestroy

/-- What the steps of `sync_wait` and of the receiver keep. -/
theorem wait_keeps
    {w : SyncWait.State V X} {e : SyncWait.Event V X} (he : SyncWait.enabled w e)
    (hdeliver : ∀ c inline, e ≠ .deliver c inline) (hdestroy : e ≠ .destroyOp) :
    (SyncWait.effect w e).delivered = w.delivered ∧
      (SyncWait.effect w e).op = w.op ∧
      ((SyncWait.effect w e).waiter ≠ .starting →
        w.waiter ≠ .starting ∨ e = .startReturns) := by
  cases e with
  | deliver c inline => exact absurd rfl (hdeliver c inline)
  | destroyOp => exact absurd rfl hdestroy
  | startReturns => exact ⟨rfl, rfl, fun _ => .inr rfl⟩
  | lockWaiter =>
      refine ⟨rfl, rfl, fun _ => .inl ?_⟩
      rcases he.1 with hstarted | ⟨hwaiting, -⟩
      · simp [hstarted]
      · simp [hwaiting]
  | test | enqueue | unlockWaiter | readResult | dropState =>
      refine ⟨rfl, rfl, fun _ => .inl ?_⟩
      rw [show w.waiter = _ from he]
      decide
  | _ => exact ⟨rfl, rfl, .inl⟩

section Steps

variable [DecidableEq κ] {sender : κ → Kind × Body V X} {s : Awaiting κ V X}
  {e : AwaitEvent κ V X} {i : κ}

/-- The operation that a step is about. -/
def AwaitEvent.op? : AwaitEvent κ V X → Option κ
  | .ops e => e.op?
  | .complete i _ _ | .destroyOp i | .wait i _ => some i

theorem awaited_of_ne
    (h : Awaited (s.ops.op i) (s.wait i)) (hi : e.op? ≠ some i) :
    Awaited ((awaitEffect sender s e).ops.op i)
      ((awaitEffect sender s e).wait i) := by
  have hne : ∀ j w, some j ≠ some i → Function.update s.wait j w i = s.wait i :=
    fun j w hj => Function.update_of_ne (fun heq => hj (congrArg some heq.symm)) ..
  cases e with
  | ops e =>
      have hop : (awaitEffect sender s (.ops e)).ops.op i = s.ops.op i :=
        op_effect_of_ne hi
      rw [hop]
      exact h
  | complete j x throws =>
      have hop : (awaitEffect sender s (.complete j x throws)).ops.op i =
          s.ops.op i := op_effect_of_ne (e := .complete j) hi
      have hwait : (awaitEffect sender s (.complete j x throws)).wait i =
          s.wait i := hne j _ hi
      rw [hop, hwait]
      exact h
  | destroyOp j =>
      have hop : (awaitEffect sender s (.destroyOp j)).ops.op i = s.ops.op i :=
        op_effect_of_ne (e := .destroyEnd j) hi
      have hwait : (awaitEffect sender s (.destroyOp j)).wait i = s.wait i :=
        hne j _ hi
      rw [hop, hwait]
      exact h
  | wait j w =>
      have hwait : (awaitEffect sender s (.wait j w)).wait i = s.wait i := hne j _ hi
      rw [hwait]
      exact h

theorem awaited_ops
    {o : Event Empty κ} (h : Awaited (s.ops.op i) (s.wait i))
    (he : (awaiting sender).enabled s (.ops o)) (hi : o.op? = some i) :
    Awaited ((awaitEffect sender s (.ops o)).ops.op i) (s.wait i) := by
  obtain ⟨hops, -, hawaits⟩ := he
  have hcomplete : o ≠ .complete i := by
    rintro rfl
    exact hawaits
  have hdestroy : o ≠ .destroyEnd i := by
    rintro rfl
    exact hawaits
  obtain ⟨hreceived, hstarter, hlife⟩ := step_keeps (hops o rfl) hi hcomplete hdestroy
  have hop : (awaitEffect sender s (.ops o)).ops.op i = _ := op_effect hi
  rw [hop]
  refine ⟨?_, fun hwaiter => hstarter (h.started hwaiter), ?_⟩
  · rw [hreceived]
    exact h.delivered
  · rw [h.life, ne_eq, ne_eq, hlife]

theorem awaited_complete
    {x : Completion V X} {throws : Option (Exception X)}
    (hreach : (awaiting sender).Reachable s) (h : Awaited (s.ops.op i) (s.wait i))
    (he : (awaiting sender).enabled s (.complete i x throws)) :
    Awaited ((awaitEffect sender s (.complete i x throws)).ops.op i)
      ((awaitEffect sender s (.complete i x throws)).wait i) := by
  have hsound := sound_of_reachable (awaiting_ops_reachable hreach) i
  have hfiber : (s.ops.op i).fiber = .completing x := by
    have hx : (s.ops.op i).fiber.completion? = some x := he.2.2
    cases hf : (s.ops.op i).fiber <;> simp_all [Fiber.completion?]
  have hnone : (s.ops.op i).received = [] := by
    have hlength := hsound.delivery.length_received
    simpa [hfiber, Fiber.completed] using hlength
  have hop : (awaitEffect sender s (.complete i x throws)).ops.op i = _ :=
    op_effect (e := .complete i) rfl
  have hwait : (awaitEffect sender s (.complete i x throws)).wait i =
      SyncWait.effect (s.wait i) (.deliver (x.awaited throws) false) :=
    Function.update_self ..
  rw [hop, hwait]
  simp only [State.step, hfiber, Op.complete]
  refine ⟨.inr ⟨x, throws, by simp [hnone], rfl⟩, ?_, ?_⟩
  · simpa [SyncWait.effect, SyncWait.step] using h.started
  · simpa [SyncWait.effect, SyncWait.step] using h.life

theorem awaited_destroyOp
    (h : Awaited (s.ops.op i) (s.wait i))
    (he : (awaiting sender).enabled s (.destroyOp i)) :
    Awaited ((awaitEffect sender s (.destroyOp i)).ops.op i)
      ((awaitEffect sender s (.destroyOp i)).wait i) := by
  have hsettled : (s.wait i).waiter = .settled := he.2.1 _ rfl
  have hop : (awaitEffect sender s (.destroyOp i)).ops.op i = _ :=
    op_effect (e := .destroyEnd i) rfl
  have hwait : (awaitEffect sender s (.destroyOp i)).wait i =
      SyncWait.effect (s.wait i) .destroyOp := Function.update_self ..
  rw [hop, hwait]
  refine ⟨h.delivered, fun _ => h.started (by simp [hsettled]), ?_⟩
  simp [SyncWait.effect, SyncWait.step, State.step]

theorem awaited_wait
    {w : SyncWait.Event (Option V) X} (h : Awaited (s.ops.op i) (s.wait i))
    (he : (awaiting sender).enabled s (.wait i w)) :
    Awaited (s.ops.op i) ((awaitEffect sender s (.wait i w)).wait i) := by
  obtain ⟨-, hwaits, hawaits⟩ := he
  have hdeliver : ∀ c inline, w ≠ .deliver c inline := by
    rintro c inline rfl
    exact hawaits
  have hdestroy : w ≠ .destroyOp := by
    rintro rfl
    exact hawaits
  obtain ⟨hdelivered, hop, hwaiter⟩ := wait_keeps (hwaits _ rfl) hdeliver hdestroy
  have hwait : (awaitEffect sender s (.wait i w)).wait i =
      SyncWait.effect (s.wait i) w := Function.update_self ..
  rw [hwait]
  refine ⟨?_, ?_, ?_⟩
  · rw [hdelivered]
    exact h.delivered
  · intro hnot
    rcases hwaiter hnot with hbefore | rfl
    · exact h.started hbefore
    · exact hawaits
  · rw [hop]
    exact h.life

theorem awaited_of_reachable
    (h : (awaiting sender).Reachable s) (i : κ) :
    Awaited (s.ops.op i) (s.wait i) := by
  refine h.invariant (I := fun s => ∀ i, Awaited (s.ops.op i) (s.wait i)) ?_ ?_ i
  · rintro s ⟨hops, hwait⟩ i
    rw [hops i, hwait i]
    constructor <;> simp [Op.initial, SyncWait.initial]
  · intro s e hreach hI he i
    by_cases hi : e.op? = some i
    · cases e with
      | ops o => exact awaited_ops (hI i) he hi
      | complete j x throws => cases hi; exact awaited_complete hreach (hI i) he
      | destroyOp j => cases hi; exact awaited_destroyOp (hI i) he
      | wait j w => cases hi; exact awaited_wait (hI i) he
    · exact awaited_of_ne (hI i) hi

/-- An operation that is awaited has no stop token. -/
theorem Sound.not_stopRequested
    {c : Setup Empty V X} {requested : Bool} {o : Op V X}
    (h : Sound c requested o) (hsource : c.source = none) :
    o.stopRequested = false := by
  have hstop : o.fiberStop = none := by
    cases h.bridge with
    | idle _ _ hstop | unbridged _ _ _ hstop => exact hstop
    | bridging _ hne _ _ | bridged _ hne _ => exact absurd hsource hne
  simp [Op.stopRequested, hstop]

/-- Any number of fibers that await operations of `schedule` and `run`, in every
interleaving.  Nobody uses the operation state or the shared state after its end, on
which both sides agree; when `sync_wait` has a result the receiver was completed
exactly once, as the callable ended, and the result is the value, nothing for
`set_stopped`, or the exception; the operation state may then be destroyed.  No call
of the callable is refused on account of a stop, whoever requested one. -/
theorem sync_wait_returns_callable
    (h : (awaiting sender).Reachable s) (i : κ) :
    (s.ops.op i).fault = false ∧ (s.wait i).violated = false ∧
      ((s.wait i).op = true ↔ (s.ops.op i).life ≠ .destroyed) ∧
      ((s.wait i).waiter.hasResult = true →
        ∃ x throws, (s.ops.op i).received = [x] ∧
          Justified (awaitedSetup sender i) (s.ops.op i) x ∧
          (s.wait i).result = some (x.awaited throws).expected) ∧
      ((s.wait i).waiter = .settled → (s.ops.op i).life = .alive →
        enabled (awaitedSetup sender) s.ops (.destroyBegin i)) ∧
      (s.ops.op i).stopRequested = false := by
  have hsound := sound_of_reachable (awaiting_ops_reachable h) i
  have hwait := SyncWait.reachable_sound (awaiting_wait_reachable h i)
  have hawaited := awaited_of_reachable h i
  -- the result is that of what was delivered, and this is what was received
  have hresult : (s.wait i).waiter.hasResult = true →
      ∃ x throws, (s.ops.op i).received = [x] ∧
        (s.wait i).result = some (x.awaited throws).expected := by
    intro hhas
    obtain ⟨c, hc, hresult⟩ := hwait.answered.result hhas
    rcases hawaited.delivered with ⟨-, hnone⟩ | ⟨x, throws, hreceived, hdelivered⟩
    · simp [hnone] at hc
    · obtain rfl := Option.some.inj (hdelivered.symm.trans hc)
      exact ⟨x, throws, hreceived, hresult⟩
  refine ⟨hsound.fault, hwait.unviolated, hawaited.life, ?_, ?_,
    hsound.not_stopRequested rfl⟩
  · intro hhas
    obtain ⟨x, throws, hreceived, hresult⟩ := hresult hhas
    exact ⟨x, throws, hreceived, hsound.justified (by simp [hreceived]), hresult⟩
  · intro hsettled halive
    obtain ⟨x, -, hreceived, -⟩ := hresult (by rw [hsettled]; rfl)
    exact ⟨halive, .inr (by simp [hreceived])⟩

end Steps

section Run

variable [DecidableEq κ] [DecidableEq V] [DecidableEq X]
  (sender : κ → Kind × Body V X)

instance (s : Awaiting κ V X) (e : AwaitEvent κ V X) : Decidable (Awaits s e) := by
  cases e with
  | ops e => cases e <;> (dsimp only [Awaits]; infer_instance)
  | wait i e => cases e <;> (dsimp only [Awaits]; infer_instance)
  | _ => dsimp only [Awaits]; infer_instance

instance (s : Awaiting κ V X) (e : AwaitEvent κ V X) :
    Decidable ((awaiting sender).enabled s e) :=
  have : ∀ o, Decidable (enabled (awaitedSetup sender) s.ops o) := fun o =>
    inferInstanceAs (Decidable ((machine (awaitedSetup sender)).enabled s.ops o))
  have : ∀ w : κ × SyncWait.Event (Option V) X,
      Decidable (SyncWait.enabled (s.wait w.1) w.2) := fun w =>
    inferInstanceAs (Decidable (SyncWait.machine.enabled (s.wait w.1) w.2))
  inferInstanceAs (Decidable
    ((∀ o ∈ e.ops?, enabled (awaitedSetup sender) s.ops o) ∧
      (∀ w ∈ e.wait?, SyncWait.enabled (s.wait w.1) w.2) ∧ Awaits s e))

end Run

/-- The callable reads, the read fails and the callable lets the error pass; it is
rethrown to the fiber that awaits, which has gone to sleep before. -/
theorem sync_wait_returns_callable_rethrown :
    ∃ s : Awaiting Unit ℕ Unit,
      (awaiting fun _ => (.run, .io fun ns => .ret (ns.head?.map Int.toNat))).Reachable s ∧
      (s.wait ()).waiter = .returned ∧
      (s.wait ()).result = some (.rethrown (.systemError 5)) ∧
      (s.ops.op ()).fault = false ∧ (s.wait ()).violated = false := by
  obtain ⟨s, hs, hwaiter, hresult⟩ := Machine.exists_reachableUnder_of_exec
    (M := awaiting fun _ : Unit =>
      (.run, (.io fun ns => .ret (ns.head?.map Int.toNat) : Body ℕ Unit)))
    (G := fun _ _ => True)
    (P := fun s => (s.wait ()).waiter = .returned ∧
      (s.wait ()).result = some (.rethrown (.systemError 5)))
    (s := { ops := { requested := fun _ => false, op := fun _ => Op.initial }
            wait := fun _ => SyncWait.initial })
    ⟨fun _ => rfl, fun _ => rfl⟩
    [.ops (.start ()), .ops (.post ()), .ops (.enter ()), .wait () .startReturns,
      .wait () .lockWaiter, .wait () .test, .wait () .enqueue, .ops (.call ()),
      .ops (.answer () (.error 5)), .ops (.leave ()),
      .complete () (.setError (.systemError 5)) none, .wait () .copyState,
      .wait () .lockReceiver, .wait () .store, .wait () .setDone,
      .wait () .unlockReceiver, .wait () .notifyAll, .wait () .wakeWaiter,
      .wait () .lockWaiter, .wait () .test, .wait () .unlockWaiter,
      .wait () .readResult, .ops (.destroyBegin ()), .destroyOp (),
      .wait () .dropState]
    (by decide)
  obtain ⟨hfault, hviolated, -⟩ := sync_wait_returns_callable hs ()
  exact ⟨s, hs, hwaiter, hresult, hfault, hviolated⟩

end Fiberexec.Senders
