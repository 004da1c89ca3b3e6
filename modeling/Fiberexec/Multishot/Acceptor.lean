import Fiberexec.Support.Machine
import Fiberexec.Support.Multishot
import Fiberexec.Support.Platform
import Mathlib.Data.Int.Order.Basic

/-!
# The multishot acceptor

`multishot_acceptor` holds one accept request.  `complete` runs in
`drain_cqes`; `next` and the destructor run in the consumer fiber, and their
code between two suspension points is one step.  The destructor decides from
`error_` whether the request is still armed, but `next` also sets `error_` when
it sees a stop request.
-/

namespace Fiberexec.Multishot

open Support

/-- Who called `next`: the user of the object, or its destructor. -/
inductive Caller
  | user
  | destructor
  deriving DecidableEq

namespace Acceptor

/-! ## The object -/

/-- The data members of `multishot_acceptor` that change.  `waiter` tells
whether `waiter_` holds a promise. -/
structure Object where
  pendingFds : List ℤ
  waiter : Bool
  error : ℤ
  deriving DecidableEq

/-- `multishot_acceptor::complete`, apart from the promise and the re-arm. -/
def Object.complete (a : Object) (res : ℤ) : Object :=
  if res < 0 then { a with error := res, waiter := false }
  else if a.waiter = true then { a with waiter := false }
  else { a with pendingFds := a.pendingFds ++ [res] }

/-- Whether `complete` arms the request again. -/
def rearms (res : ℤ) (more : Bool) : Bool :=
  !more && decide (0 ≤ res)

/-- How a call of `next` leaves its fiber. -/
inductive Next
  | value (fd : ℤ)
  | nullopt
  /-- `std::system_error` -/
  | throws (error : ℤ)
  /-- in `future.get()` -/
  | suspended
  deriving DecidableEq

/-- What `next` makes of the value of its future. -/
def afterWait (res : ℤ) : Next :=
  if res = -ecanceled ∨ res = -einval then .nullopt
  else if res < 0 then .throws res
  else .value res

/-- `multishot_acceptor::next` up to its suspension. -/
def Object.next (a : Object) (stop : Bool) : Object × Next :=
  match a.pendingFds with
  | fd :: rest => ({ a with pendingFds := rest }, .value fd)
  | [] =>
      if a.error ≠ 0 then
        if a.error = -ecanceled ∨ a.error = -einval then (a, .nullopt)
        else (a, .throws a.error)
      else if stop = true then ({ a with error := -ecanceled }, .nullopt)
      else ({ a with waiter := true }, .suspended)

/-! ## The system -/

/-- Where the consumer fiber stands. -/
inductive Phase
  /-- in the user's code -/
  | user
  | waiting (caller : Caller)
  /-- the promise of `next` is fulfilled, the fiber not yet resumed -/
  | woken (caller : Caller) (res : ℤ)
  /-- the destructor closes the front of `pending_fds_` -/
  | closingPending
  /-- the destructor closes what `next` returned -/
  | closingDrained
  /-- `~multishot_acceptor` has returned -/
  | returned
  deriving DecidableEq

/-- The object, its accept request, the consumer fiber and its stop token.
While the request stays armed it yields file descriptors; its last completion
carries any result. -/
structure State where
  object : Object
  request : Multishot ℕ ℤ
  stop : Bool
  phase : Phase

/-- The atomic steps. -/
inductive Event
  /-- the kernel accepts a connection and keeps the request armed -/
  | post (fd : ℕ)
  /-- the kernel posts a CQE without `F_MORE` -/
  | finish (res : ℤ)
  /-- `drain_cqes` hands the next CQE to `complete`; `gotSqe` tells whether a
  re-arm obtains an SQE -/
  | drain (gotSqe : Bool)
  /-- the user calls `next` -/
  | next
  /-- the fiber resumes in `next` -/
  | resume
  /-- the user destroys the object -/
  | destroy
  /-- an `async_close` of the destructor returns -/
  | closed
  /-- an `async_close` of the destructor throws -/
  | closeFailed
  | requestStop
  deriving DecidableEq

/-- Where the consumer goes from a call of `next`.  The destructor closes what
it gets, and leaves its loop otherwise, also by an exception. -/
def settle : Caller → Next → Phase
  | caller, .suspended => .waiting caller
  | .user, _ => .user
  | .destructor, .value _ => .closingDrained
  | .destructor, _ => .returned

def callNext (s : State) (caller : Caller) : State :=
  { s with
    object := (s.object.next s.stop).1
    phase := settle caller (s.object.next s.stop).2 }

/-- The loop over `pending_fds_` in the destructor. -/
def closePending (s : State) : State :=
  { s with
    phase := if s.object.pendingFds = [] then .returned else .closingPending }

/-- `waiter_->set_value(res)`. -/
def Phase.fulfil (p : Phase) (res : ℤ) : Phase :=
  match p with
  | .waiting caller => .woken caller res
  | p => p

/-- `drain_cqes` calls `complete` with this result. -/
def dispatch (s : State) (res : ℤ) (more gotSqe : Bool)
    (rest : Multishot ℕ ℤ) : State :=
  { s with
    object := s.object.complete res
    phase := if s.object.waiter = true then s.phase.fulfil res else s.phase
    request := if rearms res more && gotSqe then rest.rearm else rest }

/-- When a step may be taken. -/
def enabled (s : State) : Event → Prop
  | .post _ | .finish _ => s.request.isArmed = true
  | .drain _ => s.request.undrained ≠ []
  | .next | .destroy => s.phase = .user
  | .resume => ∃ caller res, s.phase = .woken caller res
  | .closed | .closeFailed =>
      s.phase = .closingPending ∨ s.phase = .closingDrained
  | .requestStop => True

/-- What a step does. -/
def effect (s : State) : Event → State
  | .post fd => { s with request := s.request.post fd }
  | .finish res => { s with request := s.request.finish res }
  | .drain gotSqe =>
      match s.request.take? with
      | some (.inl fd, rest) => dispatch s fd true gotSqe rest
      | some (.inr res, rest) => dispatch s res false gotSqe rest
      | none => s
  | .next => callNext s .user
  | .resume =>
      match s.phase with
      | .woken caller res => { s with phase := settle caller (afterWait res) }
      | _ => s
  | .destroy =>
      if s.object.error ≠ 0 then closePending s else callNext s .destructor
  | .closed =>
      if s.phase = .closingPending then
        closePending { s with
          object := { s.object with pendingFds := s.object.pendingFds.tail } }
      else callNext s .destructor
  | .closeFailed => { s with phase := .returned }
  | .requestStop => { s with stop := true }

/-- The object as its constructor leaves it. -/
def initial : State where
  object := { pendingFds := [], waiter := false, error := 0 }
  request := .armed []
  stop := false
  phase := .user

/-- The acceptor as a system of atomic steps. -/
def machine : Machine State Event where
  init := fun s => s = initial
  enabled := enabled
  effect := effect

instance (s : State) (e : Event) : Decidable (machine.enabled s e) := by
  change Decidable (enabled s e)
  cases e with
  | resume =>
      cases hp : s.phase with
      | woken caller res => exact .isTrue ⟨caller, res, hp⟩
      | _ => exact .isFalse (by simp [enabled, hp])
  | _ => dsimp only [enabled]; infer_instance

/-! ## Runs that end the request first -/

/-- `next` is about to take its stop branch while the request is live. -/
def StopsLive (s : State) : Prop :=
  s.object.pendingFds = [] ∧ s.object.error = 0 ∧ s.stop = true ∧
    s.request.Live

instance (s : State) : Decidable (StopsLive s) := by
  unfold StopsLive
  infer_instance

/-- No `next`, the user's or the destructor's, takes its stop branch while the
request is live, and no close in the drain loop throws then. -/
def EndsFirst (s : State) : Event → Prop
  | .next | .destroy => ¬StopsLive s
  | .closed => s.phase = .closingDrained → ¬StopsLive s
  | .closeFailed => s.phase = .closingDrained → ¬s.request.Live
  | _ => True

instance (s : State) (e : Event) : Decidable (EndsFirst s e) := by
  cases e <;> (dsimp only [EndsFirst]; infer_instance)

/-- `error_` is set, or the consumer will leave the destructor without a
further look at it, only once the request is gone. -/
structure Ended (s : State) : Prop where
  error : s.object.error ≠ 0 → s.request = .gone
  woken : ∀ caller res, s.phase = .woken caller res → res < 0 →
    s.request = .gone
  closing : s.phase = .closingPending → s.request = .gone
  returned : s.phase = .returned → s.request = .gone

theorem ended_initial : Ended initial := by
  constructor <;> simp [initial]

theorem ended_of_gone {s : State} (h : s.request = .gone) : Ended s :=
  ⟨fun _ => h, fun _ _ _ _ => h, fun _ => h, fun _ => h⟩

theorem Ended.of_live
    {s : State} (h : Ended s) (hlive : s.request ≠ .gone) :
    s.object.error = 0 ∧ (∀ caller res, s.phase = .woken caller res → 0 ≤ res) ∧
      s.phase ≠ .closingPending ∧ s.phase ≠ .returned := by
  refine ⟨by_contra fun h0 => hlive (h.error h0), fun caller res hp => ?_,
    fun hp => hlive (h.closing hp), fun hp => hlive (h.returned hp)⟩
  by_contra hneg
  exact hlive (h.woken caller res hp (by omega))

theorem Ended.of_request
    {s s' : State} (h : Ended s) (hobject : s'.object = s.object)
    (hphase : s'.phase = s.phase)
    (hgone : s.request = .gone → s'.request = .gone) : Ended s' := by
  constructor
  · exact fun h0 => hgone (h.error (hobject ▸ h0))
  · exact fun c r hp hr => hgone (h.woken c r (hphase ▸ hp) hr)
  · exact fun hp => hgone (h.closing (hphase ▸ hp))
  · exact fun hp => hgone (h.returned (hphase ▸ hp))

theorem ended_callNext
    {s : State} {caller : Caller} (h : Ended s) (hguard : ¬StopsLive s) :
    Ended (callNext s caller) := by
  by_cases hgone : s.request = .gone
  · exact ended_of_gone hgone
  have herror := (h.of_live hgone).1
  have hlive := Multishot.live_iff_ne_gone.mpr hgone
  cases hpending : s.object.pendingFds with
  | cons fd rest =>
      have hnext : s.object.next s.stop =
          ({ s.object with pendingFds := rest }, .value fd) := by
        simp [Object.next, hpending]
      cases caller <;> constructor <;>
        simp [callNext, hnext, settle, herror]
  | nil =>
      have hstop : s.stop = false := by
        by_contra hstop
        exact hguard ⟨hpending, herror, by simpa using hstop, hlive⟩
      have hnext : s.object.next s.stop =
          ({ s.object with waiter := true }, .suspended) := by
        simp [Object.next, hpending, herror, hstop]
      cases caller <;> constructor <;>
        simp [callNext, hnext, settle, herror]

/-- `complete` leaves the consumer where it stands, or wakes it with the
result. -/
theorem dispatch_phase
    (s : State) (res : ℤ) (more gotSqe : Bool) (rest : Multishot ℕ ℤ) :
    (dispatch s res more gotSqe rest).phase = s.phase ∨
      ∃ caller, (dispatch s res more gotSqe rest).phase =
        .woken caller res := by
  simp only [dispatch]
  split
  · cases s.phase with
    | waiting caller => exact .inr ⟨caller, rfl⟩
    | _ => exact .inl rfl
  · exact .inl rfl

theorem ended_dispatch
    {s : State} {res : ℤ} {more gotSqe : Bool} {rest : Multishot ℕ ℤ}
    (h : Ended s) (hlive : s.request ≠ .gone)
    (hfinal : res < 0 → rest = .gone) :
    Ended (dispatch s res more gotSqe rest) := by
  obtain ⟨herror, hwoken, hclosing, hreturned⟩ := h.of_live hlive
  by_cases hres : res < 0
  · refine ended_of_gone ?_
    have hrearms : rearms res more = false := by
      simp [rearms, hres]
    simp [dispatch, hrearms, hfinal hres]
  · have hobject : (s.object.complete res).error = 0 := by
      simp only [Object.complete, hres, if_false]
      split <;> exact herror
    refine ⟨fun hne => absurd hobject hne, ?_, ?_, ?_⟩ <;>
      rcases dispatch_phase s res more gotSqe rest with hp | ⟨caller, hp⟩ <;>
      rw [hp]
    · intro caller r hr hneg
      have hle := hwoken caller r hr
      omega
    · rintro _ r heq hneg
      obtain ⟨-, rfl⟩ := Phase.woken.inj heq
      exact absurd hneg hres
    · exact fun hp => absurd hp hclosing
    · exact nofun
    · exact fun hp => absurd hp hreturned
    · exact nofun

theorem afterWait_of_nonneg {res : ℤ} (h : 0 ≤ res) :
    afterWait res = .value res := by
  have hcanceled : res ≠ -ecanceled := by
    simp only [ecanceled]
    omega
  have hinval : res ≠ -einval := by
    simp only [einval]
    omega
  simp [afterWait, hcanceled, hinval, not_lt_of_ge h]

theorem ended_resume
    {s : State} {caller : Caller} {res : ℤ} (h : Ended s)
    (hp : s.phase = .woken caller res) : Ended (effect s .resume) := by
  have heffect : effect s .resume =
      { s with phase := settle caller (afterWait res) } := by
    simp [effect, hp]
  rw [heffect]
  by_cases hres : res < 0
  · exact ended_of_gone (h.woken caller res hp hres)
  · rw [afterWait_of_nonneg (by omega)]
    cases caller <;> exact ⟨h.error, nofun, nofun, nofun⟩

theorem ended_effect
    {s : State} {e : Event} (h : Ended s) (he : enabled s e)
    (hguard : EndsFirst s e) : Ended (effect s e) := by
  cases e with
  | post fd =>
      exact h.of_request rfl rfl Multishot.post_eq_gone_iff.mpr
  | finish res =>
      exact h.of_request rfl rfl Multishot.finish_eq_gone_iff.mpr
  | drain gotSqe =>
      simp only [effect]
      split
      next fd rest htake =>
        refine ended_dispatch h (Multishot.ne_gone_of_take htake) ?_
        intro hneg
        omega
      next res rest htake =>
        exact ended_dispatch h (Multishot.ne_gone_of_take htake)
          (fun _ => Multishot.eq_gone_of_take_last htake)
      next => exact h
  | next => exact ended_callNext h hguard
  | resume =>
      obtain ⟨caller, res, hp⟩ := he
      exact ended_resume h hp
  | destroy =>
      simp only [effect]
      split
      next herror => exact ended_of_gone (h.error herror)
      next => exact ended_callNext h hguard
  | closed =>
      simp only [effect]
      split
      next hp => exact ended_of_gone (h.closing hp)
      next hp =>
        exact ended_callNext h (hguard (he.resolve_left hp))
  | closeFailed =>
      refine ended_of_gone ?_
      rcases he with hp | hp
      · exact h.closing hp
      · exact not_not.mp (Multishot.live_iff_ne_gone.not.mp (hguard hp))
  | requestStop => exact h.of_request rfl rfl id

theorem ended_of_endsFirst
    {s : State} (h : machine.ReachableUnder EndsFirst s) : Ended s := by
  refine Machine.ReachableUnder.invariant ?_ ?_ h
  · rintro s rfl
    exact ended_initial
  · intro s e _ hI he hguard
    exact ended_effect hI he hguard

/-! ## Runs that do not -/

theorem next_of_stopsLive {s : State} (h : StopsLive s) :
    s.object.next s.stop =
      ({ s.object with error := -ecanceled }, .nullopt) := by
  obtain ⟨hpending, herror, hstop, -⟩ := h
  simp [Object.next, hpending, herror, hstop]

/-- A destructor whose `next` takes the stop branch returns at once. -/
theorem callNext_destructor_of_stopsLive {s : State} (h : StopsLive s) :
    (callNext s .destructor).phase = .returned ∧
      (callNext s .destructor).request.Live := by
  refine ⟨?_, h.2.2.2⟩
  simp [callNext, next_of_stopsLive h, settle]

/-- With `error_` set and nothing buffered the destructor returns at once. -/
theorem destroy_of_error
    {s : State} (herror : s.object.error ≠ 0)
    (hpending : s.object.pendingFds = []) :
    effect s .destroy = { s with phase := .returned } := by
  simp [effect, herror, closePending, hpending]

/-- Each step that breaks the rule can be followed by a destructor that leaves
a live request behind. -/
theorem abandons_of_not_endsFirst
    {s : State} {e : Event} (he : enabled s e) (hbreak : ¬EndsFirst s e) :
    ∃ s', machine.Reaches (effect s e) s' ∧
      s'.phase = .returned ∧ s'.request.Live := by
  cases e with
  | next =>
      have hstops : StopsLive s := not_not.mp hbreak
      have hnext : effect s .next =
          { s with
            object := { s.object with error := -ecanceled }
            phase := .user } := by
        simp [effect, callNext, next_of_stopsLive hstops, settle]
      have hdestroy : effect (effect s .next) .destroy =
          { effect s .next with phase := .returned } :=
        destroy_of_error (by simp [hnext, ecanceled]) (by simp [hnext, hstops.1])
      have hphase : (effect s .next).phase = .user := by rw [hnext]
      refine ⟨effect (effect s .next) .destroy,
        Machine.Reaches.single (M := machine) (e := .destroy) hphase, ?_, ?_⟩
      · rw [hdestroy]
      · rw [hdestroy, hnext]
        exact hstops.2.2.2
  | destroy =>
      have hstops : StopsLive s := not_not.mp hbreak
      refine ⟨_, .refl, ?_⟩
      rw [effect, if_neg (not_not.mpr hstops.2.1)]
      exact callNext_destructor_of_stopsLive hstops
  | closed =>
      obtain ⟨hp, hstops⟩ := Classical.not_imp.mp hbreak
      refine ⟨_, .refl, ?_⟩
      rw [effect, if_neg (by rw [hp]; exact nofun)]
      exact callNext_destructor_of_stopsLive (not_not.mp hstops)
  | closeFailed =>
      obtain ⟨-, hlive⟩ := Classical.not_imp.mp hbreak
      exact ⟨_, .refl, rfl, not_not.mp hlive⟩
  | _ => exact absurd trivial hbreak

/-! ## The theorem on the destructor -/

/-- In every run in which no `next` takes its stop branch and no close in the
drain loop throws while the request is live, `~multishot_acceptor` returns only
when no accept request of the object is armed and no CQE of it is undrained;
and every step that breaks this rule can be followed by a destructor that
returns with a live request. -/
theorem acceptor_ends_request_iff_not_stopped_live (s : State) :
    (machine.ReachableUnder EndsFirst s → s.phase = .returned →
        s.request.isArmed = false ∧ s.request.undrained = []) ∧
      ∀ e, machine.Reachable s → enabled s e → ¬EndsFirst s e →
        ∃ s', machine.Reaches (effect s e) s' ∧
          s'.phase = .returned ∧ s'.request.Live := by
  refine ⟨fun h hp => ?_,
    fun e _ he hbreak => abandons_of_not_endsFirst he hbreak⟩
  rw [(ended_of_endsFirst h).returned hp]
  exact ⟨rfl, rfl⟩

/-- A connection is buffered, the kernel consumes the request and it is armed
again; the destructor closes the connection, waits, and returns on the final
CQE. -/
theorem acceptor_ends_request_after_rearm :
    ∃ s, machine.ReachableUnder EndsFirst s ∧ s.phase = .returned ∧
      s.request.isArmed = false ∧ s.request.undrained = [] := by
  obtain ⟨s, hs, hp⟩ := Machine.exists_reachableUnder_of_exec
    (M := machine) (G := EndsFirst) (P := fun s => s.phase = .returned) rfl
    [.finish 5, .drain true, .post 6, .destroy, .drain true, .closed, .closed,
      .finish (-22), .drain true, .resume]
    (by decide)
  exact ⟨s, hs, hp, (acceptor_ends_request_iff_not_stopped_live s).1 hs hp⟩

/-- A stop is requested and the object destroyed: the destructor's first `next`
sets `error_` and returns no value, and the accept request is still armed. -/
theorem acceptor_abandons_armed_request :
    ∃ s, machine.Reachable s ∧ s.phase = .returned ∧
      s.request.isArmed = true :=
  Machine.exists_reachableUnder_of_exec
    (M := machine) (G := fun _ _ => True) rfl
    [.requestStop, .destroy]
    (by decide)

end Acceptor

end Fiberexec.Multishot
