import Fiberexec.Multishot.AcceptorOrder

/-!
# What the destructor of the acceptor closes

Both loops of `~multishot_acceptor` stand in one `try` block.  When one
`async_close` throws, the block is left, and what is still in `pending_fds_`
is never closed.  A destructor whose closes throw only for the last descriptor
closes every connection that `next` did not return, once and in order.
-/

namespace Fiberexec.Multishot.Acceptor.Stream

open Support

/-! ## Runs in which only the last close throws -/

/-- An `async_close` of the destructor throws only when nothing else is left to
close. -/
def ClosesLast (s : State) : Event → Prop
  | .closeFailed => unclosed s = []
  | _ => True

instance (s : State) (e : Event) : Decidable (ClosesLast s e) :=
  match e with
  | .closeFailed => inferInstanceAs (Decidable (unclosed s = []))
  | .post _ | .finish _ | .drain _ | .next | .resume | .destroy | .closed
  | .requestStop => .isTrue trivial

/-- The destructor has returned, and every connection went to the user or to
`async_close`. -/
def AllClosed (s : State) : Prop :=
  s.phase = .returned → s.returned ++ s.closed = arrivals s.dispatched

/-- A `next` of the destructor that ends leaves nothing to close. -/
theorem allClosed_next
    {s : State} (h : Ledger s)
    (hp : s.phase = .user ∨ s.phase = .closingDrained) :
    AllClosed (leave s .destructor (s.object.next s.stop)) := by
  obtain ⟨hlaw, -⟩ := h.at_call hp
  rcases next_cases s.object s.stop with
    ⟨fd, rest, -, hnext⟩ | ⟨a, r, hnext, hpending, -, hends, -⟩ | ⟨-, hnext⟩
  · intro hreturned
    simp [hnext, leave, settle] at hreturned
  · intro _
    simpa [hnext, leave, fdsOf_of_ends hends, hpending]
      using hlaw
  · intro hreturned
    simp [hnext, leave, settle] at hreturned

theorem allClosed_resume
    {s : State} {caller : Caller} {res : ℤ} (h : Ledger s)
    (hp : s.phase = .woken caller res) :
    AllClosed (leave s caller (s.object, afterWait res)) := by
  have hlaw := h.conserved (by simp [hp])
  by_cases hres : res < 0
  · have hpending := (h.woken caller res hp hres).1
    have hends := ends_afterWait_iff.mpr hres
    simp only [hp, handed, not_le.mpr hres, if_false, unclosed,
      hpending] at hlaw
    intro _
    simpa [leave, fdsOf_of_ends hends] using hlaw
  · rw [afterWait_of_nonneg (not_lt.mp hres)]
    intro hreturned
    cases caller <;> simp [leave, settle] at hreturned

theorem allClosed_closePending
    {s : State}
    (hlaw : s.returned ++ s.closed ++ s.object.pendingFds =
      arrivals s.dispatched) : AllClosed (closePending s) := by
  intro hreturned
  cases hpending : s.object.pendingFds with
  | nil => simpa [closePending, hpending] using hlaw
  | cons fd rest => simp [closePending, hpending] at hreturned

theorem allClosed_effect
    {s : State} {e : Event} (hledger : Ledger s) (h : AllClosed s)
    (he : enabled s e) (hguard : ClosesLast s e) : AllClosed (effect s e) := by
  cases e with
  | post fd => exact h
  | finish res => exact h
  | drain gotSqe =>
      obtain ⟨c, ring, htake⟩ := Requests.exists_take he.1
      simp only [effect, htake]
      intro hreturned
      -- `complete` cannot make the destructor return
      refine absurd hreturned ?_
      simp only [dispatch]
      split
      · cases hp : s.phase <;> simp_all [Phase.fulfil, enabled]
      · exact he.2
  | next =>
      intro hreturned
      refine absurd hreturned ?_
      simp only [effect, leave]
      cases (s.object.next s.stop).2 <;> simp [settle]
  | resume =>
      obtain ⟨caller, res, hp⟩ := he
      simp only [effect, hp]
      exact allClosed_resume hledger hp
  | destroy =>
      simp only [effect]
      split
      · exact allClosed_closePending (hledger.at_call (.inl he)).1
      · exact allClosed_next hledger (.inl he)
  | closed =>
      simp only [effect]
      split
      next hp =>
        have hlaw := hledger.conserved (by simp [hp])
        simp only [hp, handed, unclosed] at hlaw
        exact allClosed_closePending (by simpa using hlaw)
      next hp => exact allClosed_next hledger (.inr (he.resolve_left hp))
  | closeFailed =>
      intro _
      have hlaw := hledger.conserved
        (by rcases he with hp | hp <;> simp [hp])
      rw [show unclosed s = [] from hguard] at hlaw
      rcases he with hp | hp <;> simpa [effect, hp, handed] using hlaw
  | requestStop => exact h

theorem allClosed_of_closesLast
    {s : State} (h : machine.ReachableUnder ClosesLast s) : AllClosed s := by
  refine Machine.ReachableUnder.invariant ?_ ?_ h
  · rintro s rfl hp
    cases hp
  · intro s e hs hI he hguard
    exact allClosed_effect (ledger_of_reachable hs.reachable) hI he hguard

/-! ## Runs that also end the request -/

/-- `next` is about to take its stop branch while a request is armed or a CQE
is undrained. -/
def StopsLive (s : State) : Prop :=
  s.object.pendingFds = [] ∧ s.object.error = 0 ∧ s.stop = true ∧
    s.ring ≠ ⟨0, []⟩

instance (s : State) : Decidable (StopsLive s) := by
  unfold StopsLive
  infer_instance

/-- `Acceptor.EndsFirst`, on the counted requests. -/
def EndsFirst (s : State) : Event → Prop
  | .next | .destroy => ¬StopsLive s
  | .closed => s.phase = .closingDrained → ¬StopsLive s
  | .closeFailed => s.phase = .closingDrained → s.ring = ⟨0, []⟩
  | _ => True

instance (s : State) (e : Event) : Decidable (EndsFirst s e) :=
  match e with
  | .next | .destroy => inferInstanceAs (Decidable (¬StopsLive s))
  | .closed =>
      inferInstanceAs (Decidable (s.phase = .closingDrained → ¬StopsLive s))
  | .closeFailed =>
      inferInstanceAs (Decidable
        (s.phase = .closingDrained → s.ring = ⟨0, []⟩))
  | .post _ | .finish _ | .drain _ | .resume | .requestStop => .isTrue trivial

theorem Views.live
    {s : State} {a : Acceptor.State} (h : Views s a) :
    a.request.Live ↔ s.ring ≠ ⟨0, []⟩ := by
  rw [Multishot.live_iff_ne_gone, h.ring, ne_eq, ne_eq,
    Multishot.requests_eq_empty_iff]

theorem Views.stopsLive
    {s : State} {a : Acceptor.State} (h : Views s a) :
    Acceptor.StopsLive a ↔ StopsLive s := by
  rw [Acceptor.StopsLive, StopsLive, h.object, h.stop, h.live]

theorem Views.endsFirst
    {s : State} {a : Acceptor.State} {e : Event} (h : Views s a)
    (hguard : EndsFirst s e) : Acceptor.EndsFirst a e := by
  cases e with
  | next => exact h.stopsLive.not.mpr hguard
  | destroy => exact h.stopsLive.not.mpr hguard
  | closed =>
      exact fun hp => h.stopsLive.not.mpr (hguard (h.phase.symm.trans hp))
  | closeFailed =>
      exact fun hp => h.live.not.mpr
        (not_not.mpr (hguard (h.phase.symm.trans hp)))
  | _ => trivial

/-- A destructor that ends its request leaves nothing of it in the ring. -/
theorem ring_of_endsFirst
    {s : State} (h : machine.ReachableUnder EndsFirst s)
    (hp : s.phase = .returned) : s.ring = ⟨0, []⟩ := by
  obtain ⟨a, ha, hviews⟩ :=
    exists_views (G := EndsFirst) (H := Acceptor.EndsFirst)
      (fun _ _ _ hviews hguard => hviews.endsFirst hguard) h
  have hgone := (ended_of_endsFirst ha).returned (hviews.phase.trans hp)
  rw [hviews.ring, hgone]
  rfl

/-! ## A close that throws too early -/

theorem history_of_returned
    {s s' : State} (hp : s.phase = .returned) (h : machine.Reaches s s') :
    s'.phase = .returned ∧ s'.returned = s.returned ∧
      s'.closed = s.closed ∧ s'.dispatched = s.dispatched := by
  refine h.stable (P := fun x => x.phase = .returned ∧
    x.returned = s.returned ∧ x.closed = s.closed ∧
      x.dispatched = s.dispatched) ?_ ⟨hp, rfl, rfl, rfl⟩
  rintro x e ⟨hx, hrest⟩ he
  cases e with
  | post fd => exact ⟨hx, hrest⟩
  | finish res => exact ⟨hx, hrest⟩
  | drain gotSqe => exact absurd hx he.2
  | next => cases hx.symm.trans he
  | resume =>
      obtain ⟨caller, res, hwoken⟩ := he
      cases hx.symm.trans hwoken
  | destroy => cases hx.symm.trans he
  | closed => rcases he with hphase | hphase <;> simp [hphase] at hx
  | closeFailed => rcases he with hphase | hphase <;> simp [hphase] at hx
  | requestStop => exact ⟨hx, hrest⟩

/-- A close that throws with something left to close loses it for good. -/
theorem leaks_of_not_closesLast
    {s s' : State} {e : Event} (hs : machine.Reachable s) (he : enabled s e)
    (hbreak : ¬ClosesLast s e) (h : machine.Reaches (effect s e) s') :
    s'.phase = .returned ∧
      ∃ fd, (s'.returned ++ s'.closed).count fd <
        (arrivals s'.dispatched).count fd := by
  cases e with
  | closeFailed =>
      obtain ⟨hp, hreturned, hclosed, hdispatched⟩ :=
        history_of_returned (s := effect s .closeFailed) rfl h
      obtain ⟨fd, hfd⟩ := List.exists_mem_of_ne_nil _ hbreak
      have hlaw := (ledger_of_reachable hs).conserved
        (by rcases he with hp | hp <;> simp [hp])
      refine ⟨hp, fd, ?_⟩
      have hcount := List.count_pos_iff.mpr hfd
      rw [hreturned, hclosed, hdispatched]
      simp only [effect, ← hlaw, List.count_append]
      omega
  | _ => exact absurd trivial hbreak

/-! ## The theorem on the closes -/

/-- In every run in which an `async_close` of the destructor throws only when
nothing else is left to close, a returned destructor has passed to
`async_close`, once and in order, every connection that was dispatched and not
returned to the user.  When moreover no `next` takes its stop branch and no
close in the drain loop throws while the request is live, no CQE is left
undrained by then.  Every close that throws earlier loses a connection for
good. -/
theorem acceptor_closes_undelivered_iff_last_throws (s : State) :
    (machine.ReachableUnder ClosesLast s → s.phase = .returned →
        s.returned ++ s.closed = arrivals s.dispatched) ∧
      (machine.ReachableUnder (fun s e => ClosesLast s e ∧ EndsFirst s e) s →
        s.phase = .returned →
          s.returned ++ s.closed = arrivals s.dispatched ∧
            s.ring = ⟨0, []⟩) ∧
      ∀ e, machine.Reachable s → enabled s e → ¬ClosesLast s e →
        ∀ s', machine.Reaches (effect s e) s' →
          s'.phase = .returned ∧
            ∃ fd, (s'.returned ++ s'.closed).count fd <
              (arrivals s'.dispatched).count fd := by
  refine ⟨allClosed_of_closesLast, fun h hp => ⟨?_, ?_⟩, ?_⟩
  · exact allClosed_of_closesLast (h.mono fun _ _ hguard => hguard.1) hp
  · exact ring_of_endsFirst (h.mono fun _ _ hguard => hguard.2) hp
  · exact fun e hs he hbreak s' hs' => leaks_of_not_closesLast hs he hbreak hs'

/-- Two connections are buffered when the request ends; of the two closes of
the destructor the second one throws. -/
theorem acceptor_closes_undelivered_after_error :
    ∃ s, machine.ReachableUnder
        (fun s e => ClosesLast s e ∧ EndsFirst s e) s ∧
      s.phase = .returned ∧ s.closed = ([5, 6] : List ℤ) ∧
      s.returned ++ s.closed = arrivals s.dispatched ∧ s.ring = ⟨0, []⟩ := by
  obtain ⟨s, hs, hp, hclosed⟩ := Machine.exists_reachableUnder_of_exec
    (M := machine) (G := fun s e => ClosesLast s e ∧ EndsFirst s e)
    (P := fun s : State => s.phase = .returned ∧
      s.closed = ([5, 6] : List ℤ)) rfl
    [.post 5, .post 6, .finish (-22), .drain true, .drain true, .drain true,
      .destroy, .closed, .closeFailed]
    (by decide)
  exact ⟨s, hs, hp, hclosed,
    (acceptor_closes_undelivered_iff_last_throws s).2.1 hs hp⟩

/-- Two connections are buffered and a stop is requested; the first close of
the destructor throws, and the second connection is never closed. -/
theorem acceptor_leaks_connection_after_failed_close :
    ∃ s, machine.Reachable s ∧ s.phase = .returned ∧
      s.returned = [] ∧ s.closed = ([5] : List ℤ) ∧
      arrivals s.dispatched = ([5, 6] : List ℤ) :=
  Machine.exists_reachableUnder_of_exec
    (M := machine) (G := fun _ _ => True)
    (P := fun s : State => s.phase = .returned ∧ s.returned = [] ∧
      s.closed = ([5] : List ℤ) ∧
      arrivals s.dispatched = ([5, 6] : List ℤ)) rfl
    [.post 5, .post 6, .drain true, .drain true, .requestStop, .destroy,
      .closeFailed]
    (by decide)

end Fiberexec.Multishot.Acceptor.Stream
