import Fiberexec.Multishot.Acceptor
import Fiberexec.Support.Requests

/-!
# The acceptor as a stream of connections

This is the acceptor again, with what it does recorded: the CQEs dispatched to
it, the descriptors `next` has returned to the user and those the destructor
has passed to `async_close`.  Its accept requests are counted, so that arming
one while another is armed would be seen.  The object and its code are those of
`Acceptor`, and every run here is a run there.
-/

namespace Fiberexec.Multishot.Acceptor.Stream

open Support

/-! ## The system -/

/-- A CQE of the object; `more` is `IORING_CQE_F_MORE`. -/
structure Cqe where
  res : ℤ
  more : Bool
  deriving DecidableEq

/-- The CQE with which a request ends. -/
def Cqe.isLast (c : Cqe) : Bool :=
  !c.more

/-- The acceptor with its requests and its history. -/
structure State where
  object : Object
  ring : Requests Cqe
  stop : Bool
  phase : Phase
  /-- all CQEs handed to `complete` -/
  dispatched : List Cqe
  /-- what `next` has returned to the user -/
  returned : List ℤ
  /-- the arguments of `async_close` -/
  closed : List ℤ

/-- The descriptor that a call of `next` returns. -/
def fdsOf : Next → List ℤ
  | .value fd => [fd]
  | _ => []

/-- A call of `next` ends or suspends.  The destructor closes what it gets. -/
def leave (s : State) (caller : Caller) (r : Object × Next) : State :=
  { s with
    object := r.1
    phase := settle caller r.2
    returned := s.returned ++ if caller = .user then fdsOf r.2 else []
    closed := s.closed ++ if caller = .destructor then fdsOf r.2 else [] }

/-- The loop over `pending_fds_` in the destructor. -/
def closePending (s : State) : State :=
  match s.object.pendingFds with
  | [] => { s with phase := .returned }
  | fd :: _ => { s with phase := .closingPending, closed := s.closed ++ [fd] }

/-- `drain_cqes` calls `complete` with this CQE. -/
def dispatch (s : State) (c : Cqe) (gotSqe : Bool) (ring : Requests Cqe) :
    State :=
  { s with
    object := s.object.complete c.res
    phase := if s.object.waiter = true then s.phase.fulfil c.res else s.phase
    ring := if rearms c.res c.more && gotSqe then ring.arm else ring
    dispatched := s.dispatched ++ [c] }

/-- When a step may be taken.  A destroyed object takes no CQE. -/
def enabled (s : State) : Event → Prop
  | .post _ | .finish _ => 0 < s.ring.armed
  | .drain _ => s.ring.cq ≠ [] ∧ s.phase ≠ .returned
  | .next | .destroy => s.phase = .user
  | .resume => ∃ caller res, s.phase = .woken caller res
  | .closed | .closeFailed =>
      s.phase = .closingPending ∨ s.phase = .closingDrained
  | .requestStop => True

/-- What a step does. -/
def effect (s : State) : Event → State
  | .post fd => { s with ring := s.ring.post ⟨fd, true⟩ false }
  | .finish res => { s with ring := s.ring.post ⟨res, false⟩ true }
  | .drain gotSqe =>
      match s.ring.take? with
      | some (c, ring) => dispatch s c gotSqe ring
      | none => s
  | .next => leave s .user (s.object.next s.stop)
  | .resume =>
      match s.phase with
      | .woken caller res => leave s caller (s.object, afterWait res)
      | _ => s
  | .destroy =>
      if s.object.error ≠ 0 then closePending s
      else leave s .destructor (s.object.next s.stop)
  | .closed =>
      if s.phase = .closingPending then
        closePending { s with
          object := { s.object with pendingFds := s.object.pendingFds.tail } }
      else leave s .destructor (s.object.next s.stop)
  | .closeFailed => { s with phase := .returned }
  | .requestStop => { s with stop := true }

/-- The object as its constructor leaves it. -/
def initial : State where
  object := { pendingFds := [], waiter := false, error := 0 }
  ring := ⟨1, []⟩
  stop := false
  phase := .user
  dispatched := []
  returned := []
  closed := []

/-- The acceptor as a system of atomic steps. -/
def machine : Machine State Event where
  init := fun s => s = initial
  enabled := enabled
  effect := effect

instance (s : State) (e : Event) : Decidable (machine.enabled s e) :=
  match e with
  | .post _ | .finish _ => inferInstanceAs (Decidable (0 < s.ring.armed))
  | .drain _ =>
      inferInstanceAs (Decidable (s.ring.cq ≠ [] ∧ s.phase ≠ .returned))
  | .next | .destroy => inferInstanceAs (Decidable (s.phase = .user))
  | .resume =>
      match hp : s.phase with
      | .woken caller res => .isTrue ⟨caller, res, hp⟩
      | .user | .waiting _ | .closingPending | .closingDrained | .returned =>
          .isFalse (by rintro ⟨caller, res, h⟩; rw [hp] at h; cases h)
  | .closed | .closeFailed =>
      inferInstanceAs (Decidable
        (s.phase = .closingPending ∨ s.phase = .closingDrained))
  | .requestStop => inferInstanceAs (Decidable True)

/-! ## The same object without its history -/

/-- The CQE of a completion that keeps the request armed. -/
def Cqe.ofFd (fd : ℕ) : Cqe :=
  ⟨fd, true⟩

/-- The CQE of a last completion. -/
def Cqe.ofLast (res : ℤ) : Cqe :=
  ⟨res, false⟩

/-- The states agree, and the counted requests are those of one multishot
request. -/
structure Views (s : State) (a : Acceptor.State) : Prop where
  object : a.object = s.object
  stop : a.stop = s.stop
  phase : a.phase = s.phase
  ring : s.ring = a.request.requests Cqe.ofFd Cqe.ofLast

theorem views_initial : Views initial Acceptor.initial :=
  ⟨rfl, rfl, rfl, rfl⟩

theorem Views.take
    {s : State} {a : Acceptor.State} (h : Views s a) {c : Cqe}
    {ring : Requests Cqe} (htake : s.ring.take? = some (c, ring)) :
    (∃ fd rest, a.request.take? = some (.inl fd, rest) ∧ c = ⟨fd, true⟩ ∧
        ring = rest.requests Cqe.ofFd Cqe.ofLast) ∨
      ∃ res, a.request.take? = some (.inr res, .gone) ∧ c = ⟨res, false⟩ ∧
        ring = ⟨0, []⟩ := by
  rw [h.ring, Multishot.requests_take] at htake
  obtain ⟨⟨x, rest⟩, hrest, heq⟩ := Option.map_eq_some_iff.mp htake
  obtain ⟨rfl, rfl⟩ := Prod.mk.inj heq
  cases x with
  | inl fd => exact .inl ⟨fd, rest, hrest, rfl, rfl⟩
  | inr res =>
      obtain rfl := Multishot.eq_gone_of_take_last hrest
      exact .inr ⟨res, hrest, rfl, rfl⟩

theorem Views.armed
    {s : State} {a : Acceptor.State} (h : Views s a) :
    0 < s.ring.armed ↔ a.request.isArmed = true := by
  rw [h.ring]
  exact Multishot.armed_requests_pos

theorem Views.leave
    {s : State} {a : Acceptor.State} (h : Views s a) (caller : Caller)
    (r : Object × Next) :
    Views (leave s caller r)
      { a with object := r.1, phase := settle caller r.2 } :=
  ⟨rfl, h.stop, rfl, h.ring⟩

theorem Views.callNext
    {s : State} {a : Acceptor.State} (h : Views s a) (caller : Caller) :
    Views (Stream.leave s caller (s.object.next s.stop))
      (Acceptor.callNext a caller) := by
  have hcall : Acceptor.callNext a caller =
      { a with
        object := (s.object.next s.stop).1
        phase := settle caller (s.object.next s.stop).2 } := by
    rw [Acceptor.callNext, h.object, h.stop]
  exact hcall ▸ h.leave caller _

theorem Views.closePending
    {s : State} {a : Acceptor.State} (h : Views s a) :
    Views (closePending s) (Acceptor.closePending a) := by
  cases hpending : s.object.pendingFds with
  | nil =>
      have hclose : Stream.closePending s = { s with phase := .returned } := by
        simp [Stream.closePending, hpending]
      rw [hclose]
      exact ⟨h.object, h.stop,
        by simp [Acceptor.closePending, h.object, hpending], h.ring⟩
  | cons fd rest =>
      have hclose : Stream.closePending s =
          { s with phase := .closingPending, closed := s.closed ++ [fd] } := by
        simp [Stream.closePending, hpending]
      rw [hclose]
      exact ⟨h.object, h.stop,
        by simp [Acceptor.closePending, h.object, hpending], h.ring⟩

theorem Views.dispatch_more
    {s : State} {a : Acceptor.State} (h : Views s a) {fd : ℕ} {gotSqe : Bool}
    {rest : Multishot ℕ ℤ} :
    Views (dispatch s ⟨fd, true⟩ gotSqe (rest.requests Cqe.ofFd Cqe.ofLast))
      (Acceptor.dispatch a fd true gotSqe rest) := by
  refine ⟨?_, h.stop, ?_, rfl⟩
  · simp only [dispatch, Acceptor.dispatch, h.object]
  · simp only [dispatch, Acceptor.dispatch, h.object, h.phase]

theorem Views.dispatch_last
    {s : State} {a : Acceptor.State} (h : Views s a) {res : ℤ}
    {gotSqe : Bool} :
    Views (dispatch s ⟨res, false⟩ gotSqe ⟨0, []⟩)
      (Acceptor.dispatch a res false gotSqe .gone) := by
  refine ⟨?_, h.stop, ?_, ?_⟩
  · simp only [dispatch, Acceptor.dispatch, h.object]
  · simp only [dispatch, Acceptor.dispatch, h.object, h.phase]
  · simp only [dispatch, Acceptor.dispatch]
    split <;> rfl

theorem Views.effect
    {s : State} {a : Acceptor.State} {e : Event} (h : Views s a)
    (he : enabled s e) :
    Acceptor.enabled a e ∧ Views (effect s e) (Acceptor.effect a e) := by
  cases e with
  | post fd =>
      have harmed := h.armed.mp he
      refine ⟨harmed, h.object, h.stop, h.phase, ?_⟩
      simp only [Stream.effect, Acceptor.effect, h.ring,
        Multishot.requests_post harmed, Cqe.ofFd]
  | finish res =>
      have harmed := h.armed.mp he
      refine ⟨harmed, h.object, h.stop, h.phase, ?_⟩
      simp only [Stream.effect, Acceptor.effect, h.ring,
        Multishot.requests_finish harmed, Cqe.ofLast]
  | drain gotSqe =>
      obtain ⟨c, ring, htake⟩ := Requests.exists_take he.1
      simp only [Stream.effect, htake]
      rcases h.take htake with
        ⟨fd, rest, hrest, rfl, rfl⟩ | ⟨res, hrest, rfl, rfl⟩
      · refine ⟨Multishot.undrained_ne_nil_of_take hrest, ?_⟩
        simp only [Acceptor.effect, hrest]
        exact h.dispatch_more
      · refine ⟨Multishot.undrained_ne_nil_of_take hrest, ?_⟩
        simp only [Acceptor.effect, hrest]
        exact h.dispatch_last
  | next => exact ⟨h.phase.trans he, h.callNext .user⟩
  | resume =>
      obtain ⟨caller, res, hp⟩ := he
      refine ⟨⟨caller, res, h.phase.trans hp⟩, ?_⟩
      simp only [Stream.effect, Acceptor.effect, hp, h.phase]
      exact ⟨h.object, h.stop, rfl, h.ring⟩
  | destroy =>
      refine ⟨h.phase.trans he, ?_⟩
      simp only [Stream.effect, Acceptor.effect, h.object]
      split
      · exact h.closePending
      · exact h.callNext .destructor
  | closed =>
      refine ⟨by rwa [Acceptor.enabled, h.phase], ?_⟩
      simp only [Stream.effect, Acceptor.effect, h.object, h.phase]
      split
      · refine Views.closePending ⟨?_, h.stop, ?_, h.ring⟩
        · rfl
        · rfl
      · exact h.callNext .destructor
  | closeFailed =>
      exact ⟨by rwa [Acceptor.enabled, h.phase], h.object, h.stop, rfl, h.ring⟩
  | requestStop => exact ⟨trivial, h.object, rfl, h.phase, h.ring⟩

/-- Every run here is a run of the acceptor, guarded where this one is. -/
theorem exists_views
    {G : State → Event → Prop} {H : Acceptor.State → Event → Prop}
    (hGH : ∀ s a e, Views s a → G s e → H a e) {s : State}
    (h : machine.ReachableUnder G s) :
    ∃ a, Acceptor.machine.ReachableUnder H a ∧ Views s a := by
  refine Machine.ReachableUnder.simulated ?_ ?_ h
  · rintro s rfl
    exact ⟨Acceptor.initial, rfl, views_initial⟩
  · intro s a e hviews he hguard ha
    obtain ⟨hea, hviews'⟩ := hviews.effect he
    exact ⟨_, .step ha hea (hGH s a e hviews hguard), hviews'⟩

end Fiberexec.Multishot.Acceptor.Stream
