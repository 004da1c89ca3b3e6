import Fiberexec.Support.Machine
import Fiberexec.Support.Tally

/-!
# Parallel bulk

This is the model of `fiber_bulk_receiver::set_value`, which runs in the
launcher fiber, and of the `n` tasks it posts.  All of them share one
`fiber_bulk_shared`, which lies inside the operation state.

Every access to `remaining`, `has_error` and `error` is one step, and so are
the start and the end of a call of `fun`.  The pool may start a posted task at
any moment, also while the launcher is still in its posting loop, and the steps
of all tasks and of the launcher interleave freely.  What a call does is left
open: it returns or throws any exception.
-/

namespace Fiberexec.Bulk

open Support

variable {n : ℕ} {ε : Type*}

/-! ## States -/

/-- Where the launcher stands in `fiber_bulk_receiver::set_value`. -/
inductive Launcher
  /-- about to compare the shape with 0 -/
  | entering
  /-- at the head of the posting loop -/
  | posting (i : ℕ)
  | returned
  deriving DecidableEq

/-- Where the task of one index stands. -/
inductive Task (ε : Type*)
  | unposted
  | posted
  /-- inside `fun` -/
  | calling
  /-- caught this exception; about to compare and exchange `has_error` -/
  | caught (x : ε)
  /-- exchanged `has_error`; about to write `error` -/
  | storing (x : ε)
  | decrementing
  /-- decremented `remaining` to 0; about to load `has_error` -/
  | loading
  /-- loaded this value of `has_error`; about to complete -/
  | completing (hasError : Bool)
  | finished
  deriving DecidableEq

/-- What the downstream receiver is called with.  The exception pointer is
null when it is `none`. -/
inductive Completion (ε : Type*)
  | setValue
  | setError (x : Option ε)
  deriving DecidableEq

/-- The shared state, the launcher and the tasks.  The last three fields record
history: the arguments of the calls begun, the outcomes of the calls ended, and
the completions delivered. -/
structure State (n : ℕ) (ε : Type*) where
  remaining : ℕ
  error : Option ε
  hasError : Bool
  launcher : Launcher
  task : Fin n → Task ε
  calls : List (ℕ × ℕ)
  ended : List (Fin n × Option ε)
  completions : List (Completion ε)

/-! ## Steps -/

/-- The atomic steps. -/
inductive Event (n : ℕ) (ε : Type*)
  /-- the launcher compares the shape with 0, and completes if it is 0 -/
  | enter
  /-- one turn of the posting loop -/
  | post (i : Fin n)
  /-- the posting loop's test fails -/
  | leave
  /-- the pool runs the task, which calls `fun(i, i + 1)` -/
  | call (i : Fin n)
  | callReturn (i : Fin n)
  | callThrow (i : Fin n) (x : ε)
  /-- `has_error.compare_exchange_strong(expected, true)` -/
  | exchange (i : Fin n) (x : ε)
  /-- `error = std::current_exception()` -/
  | store (i : Fin n) (x : ε)
  /-- `--remaining` -/
  | decrement (i : Fin n)
  /-- `has_error.load(acquire)` -/
  | load (i : Fin n)
  /-- `set_error` or `set_value` on the downstream receiver -/
  | complete (i : Fin n) (hasError : Bool)
  deriving DecidableEq

/-- Move one task. -/
@[simp] def State.goto (s : State n ε) (i : Fin n) (pc : Task ε) : State n ε :=
  { s with task := Function.update s.task i pc }

/-- When a step may be taken. -/
def enabled (s : State n ε) : Event n ε → Prop
  | .enter => s.launcher = .entering
  | .post i => s.launcher = .posting i
  | .leave => s.launcher = .posting n
  | .call i => s.task i = .posted
  | .callReturn i => s.task i = .calling
  | .callThrow i _ => s.task i = .calling
  | .exchange i x => s.task i = .caught x
  | .store i x => s.task i = .storing x
  | .decrement i => s.task i = .decrementing
  | .load i => s.task i = .loading
  | .complete i hasError => s.task i = .completing hasError

/-- What a step does. -/
def effect (s : State n ε) : Event n ε → State n ε
  | .enter =>
      if n = 0 then
        { s with
          launcher := .returned
          completions := s.completions ++ [.setValue] }
      else { s with launcher := .posting 0 }
  | .post i => { s.goto i .posted with launcher := .posting (i + 1) }
  | .leave => { s with launcher := .returned }
  | .call i =>
      { s.goto i .calling with calls := s.calls ++ [(i.val, i.val + 1)] }
  | .callReturn i =>
      { s.goto i .decrementing with ended := s.ended ++ [(i, none)] }
  | .callThrow i x =>
      { s.goto i (.caught x) with ended := s.ended ++ [(i, some x)] }
  | .exchange i x =>
      -- only the first exception is kept
      { s.goto i (if s.hasError = true then .decrementing else .storing x) with
        hasError := true }
  | .store i x => { s.goto i .decrementing with error := some x }
  | .decrement i =>
      { s.goto i (if s.remaining = 1 then .loading else .finished) with
        remaining := s.remaining - 1 }
  | .load i => s.goto i (.completing s.hasError)
  | .complete i hasError =>
      { s.goto i .finished with
        completions := s.completions ++
          [if hasError = true then .setError s.error else .setValue] }

/-- Whether a step reads the shared state or the operation state.  `pool` is a
member of the receiver, which lies in the operation state, and a running call
uses the function object in the shared state. -/
def Event.readsOpstate : Event n ε → Bool
  | .leave => false
  | _ => true

/-- The operation as `start` leaves it when the predecessor completes. -/
def initial : State n ε where
  remaining := n
  error := none
  hasError := false
  launcher := .entering
  task := fun _ => .unposted
  calls := []
  ended := []
  completions := []

/-- Parallel bulk of shape `n` as a system of atomic steps. -/
def machine (n : ℕ) (ε : Type*) : Machine (State n ε) (Event n ε) where
  init := fun s => s = initial
  enabled := enabled
  effect := effect

theorem reachable_invariant
    {I : State n ε → Prop} (hinit : I initial)
    (hstep : ∀ s e, (machine n ε).Reachable s → I s → enabled s e →
      I (effect s e))
    {s : State n ε} (h : (machine n ε).Reachable s) : I s := by
  refine Machine.Reachable.invariant ?_ hstep h
  rintro s rfl
  exact hinit

/-- The calls the sequential loop makes, in its order. -/
def sequentialCalls (n : ℕ) : List (ℕ × ℕ) :=
  (List.range n).map (fun i => (i, i + 1))

/-! ## What a step leaves alone -/

/-- The task a step belongs to. -/
def Event.task? : Event n ε → Option (Fin n)
  | .enter | .leave => none
  | .post i | .call i | .callReturn i | .callThrow i _ | .exchange i _
  | .store i _ | .decrement i | .load i | .complete i _ => some i

theorem effect_task_of_ne
    {s : State n ε} {e : Event n ε} {j : Fin n} (hj : e.task? ≠ some j) :
    (effect s e).task j = s.task j := by
  cases e with
  | enter =>
      simp only [effect]
      split <;> rfl
  | leave => rfl
  | post i | call i | callReturn i | callThrow i | exchange i | store i
  | decrement i | load i | complete i =>
      have hne : j ≠ i := fun h => hj (h ▸ rfl)
      simp [effect, hne]

/-- Where the task of a step stands before it. -/
def Event.source : Event n ε → Task ε
  | .enter | .leave | .post _ => .unposted
  | .call _ => .posted
  | .callReturn _ | .callThrow _ _ => .calling
  | .exchange _ x => .caught x
  | .store _ x => .storing x
  | .decrement _ => .decrementing
  | .load _ => .loading
  | .complete _ hasError => .completing hasError

/-- Where the task of a step stands after it. -/
def Event.target (s : State n ε) : Event n ε → Task ε
  | .enter | .leave => .unposted
  | .post _ => .posted
  | .call _ => .calling
  | .callReturn _ | .store _ _ => .decrementing
  | .callThrow _ x => .caught x
  | .exchange _ x => if s.hasError = true then .decrementing else .storing x
  | .decrement _ => if s.remaining = 1 then .loading else .finished
  | .load _ => .completing s.hasError
  | .complete _ _ => .finished

theorem effect_task_eq_target
    {s : State n ε} {e : Event n ε} {i : Fin n} (hi : e.task? = some i) :
    (effect s e).task i = e.target s := by
  cases e with
  | enter | leave => cases hi
  | _ =>
      cases hi
      simp [effect, Event.target]

theorem task_eq_source
    {s : State n ε} {e : Event n ε} {i : Fin n} (he : enabled s e)
    (hi : e.task? = some i) (hpost : e ≠ .post i) :
    s.task i = e.source := by
  cases e with
  | enter | leave => cases hi
  | post j =>
      cases hi
      exact absurd rfl hpost
  | _ =>
      cases hi
      exact he

/-- A total over the tasks moves by the share of the task the step belongs
to. -/
theorem total_effect
    (g : Task ε → ℕ) {s : State n ε} {e : Event n ε} {i : Fin n}
    (hi : e.task? = some i) {a b : ℕ} (ha : g (s.task i) = a)
    (hb : g ((effect s e).task i) = b) :
    ∑ j, g ((effect s e).task j) + a = ∑ j, g (s.task j) + b := by
  subst ha hb
  refine total_add_of_agree_off i ?_
  intro j hj
  rw [effect_task_of_ne]
  rw [hi]
  exact fun h => hj (Option.some.inj h).symm

theorem total_effect_of_none
    (g : Task ε → ℕ) {s : State n ε} {e : Event n ε}
    (hnone : e.task? = none) :
    ∑ j, g ((effect s e).task j) = ∑ j, g (s.task j) := by
  refine Finset.sum_congr rfl ?_
  intro j _
  rw [effect_task_of_ne]
  rw [hnone]
  exact nofun

instance [DecidableEq ε] (s : State n ε) (e : Event n ε) :
    Decidable ((machine n ε).enabled s e) := by
  change Decidable (enabled s e)
  cases e <;> (dsimp only [enabled]; infer_instance)

end Fiberexec.Bulk
