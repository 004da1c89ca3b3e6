import Fiberexec.Multishot.AcceptorStream

/-!
# The order of accepted connections

A descriptor reaches the consumer by one of two ways, through the promise of a
suspended `next` or through `pending_fds_`.  The two never hold connections
out of order, because `next` suspends only with an empty queue and a fulfilled
promise is never fulfilled again.  What was dispatched is at every time what
was returned, followed by what was closed, by the descriptor in the promise and
by the queue.
-/

namespace Fiberexec.Multishot.Acceptor.Stream

open Support

/-! ## Where a descriptor can be -/

/-- The connections that CQEs report, in order. -/
def arrivals (cs : List Cqe) : List ℤ :=
  (cs.map Cqe.res).filter (fun res => 0 ≤ res)

/-- The descriptor given to the promise and not yet returned. -/
def handed : Phase → List ℤ
  | .woken _ res => if 0 ≤ res then [res] else []
  | _ => []

/-- `pending_fds_`, without the front that the destructor is closing. -/
def unclosed (s : State) : List ℤ :=
  if s.phase = .closingPending then s.object.pendingFds.tail
  else s.object.pendingFds

/-- The final CQE has been dispatched. -/
def Final (s : State) : Prop :=
  ∃ c ∈ s.dispatched, c.res < 0

/-- The destructor has not been called. -/
def consuming : Phase → Bool
  | .user | .waiting .user | .woken .user _ => true
  | _ => false

/-- `next` reports the end of the stream. -/
def Ends (r : Next) : Prop :=
  r = .nullopt ∨ ∃ error, r = .throws error

theorem arrivals_append (cs : List Cqe) (c : Cqe) :
    arrivals (cs ++ [c]) = arrivals cs ++ if 0 ≤ c.res then [c.res] else [] := by
  simp only [arrivals, List.map_append, List.map_cons, List.map_nil,
    List.filter_append, List.filter_singleton, Bool.cond_decide]

/-! ## What one call does -/

/-- A call of `next` takes the front of the queue, or reports the end, or
suspends; the last two only with an empty queue. -/
theorem next_cases (a : Object) (stop : Bool) :
    (∃ fd rest, a.pendingFds = fd :: rest ∧
        a.next stop = ({ a with pendingFds := rest }, .value fd)) ∨
      (∃ a' r, a.next stop = (a', r) ∧ a.pendingFds = [] ∧
        (a.error ≠ 0 ∨ stop = true) ∧ Ends r ∧
        a'.pendingFds = [] ∧ a'.waiter = a.waiter) ∨
      a.pendingFds = [] ∧
        a.next stop = ({ a with waiter := true }, .suspended) := by
  cases hpending : a.pendingFds with
  | cons fd rest =>
      exact .inl ⟨fd, rest, rfl, by simp [Object.next, hpending]⟩
  | nil =>
      by_cases herror : a.error = 0
      · cases stop with
        | false =>
            exact .inr (.inr ⟨rfl, by simp [Object.next, hpending, herror]⟩)
        | true =>
            refine .inr (.inl ⟨{ a with error := -ecanceled }, .nullopt,
              ?_, rfl, .inr rfl, .inl rfl, hpending, rfl⟩)
            simp [Object.next, hpending, herror]
      · by_cases hclean : a.error = -ecanceled ∨ a.error = -einval
        · refine .inr (.inl ⟨a, .nullopt, ?_, rfl, .inl herror, .inl rfl,
            hpending, rfl⟩)
          simp [Object.next, hpending, herror, hclean]
        · refine .inr (.inl ⟨a, .throws a.error, ?_, rfl, .inl herror,
            .inr ⟨_, rfl⟩, hpending, rfl⟩)
          simp [Object.next, hpending, herror, hclean]

theorem settle_of_ends (caller : Caller) {r : Next} (h : Ends r) :
    settle caller r = if caller = .user then .user else .returned := by
  rcases h with rfl | ⟨error, rfl⟩ <;> cases caller <;> rfl

theorem fdsOf_of_ends {r : Next} (h : Ends r) : fdsOf r = [] := by
  rcases h with rfl | ⟨error, rfl⟩ <;> rfl

/-- A resumed `next` reports the end exactly when it was woken by the final
CQE. -/
theorem ends_afterWait_iff {res : ℤ} : Ends (afterWait res) ↔ res < 0 := by
  constructor
  · intro hends
    by_contra hres
    rw [afterWait_of_nonneg (not_lt.mp hres)] at hends
    rcases hends with h | ⟨error, h⟩ <;> cases h
  · intro hres
    unfold afterWait
    split
    · exact .inl rfl
    · exact .inr ⟨res, rfl⟩

theorem dispatch_of_neg
    {s : State} {c : Cqe} {gotSqe : Bool} {ring : Requests Cqe}
    (h : c.res < 0) :
    dispatch s c gotSqe ring =
      { s with
        object := { s.object with error := c.res, waiter := false }
        phase := if s.object.waiter = true then s.phase.fulfil c.res
          else s.phase
        ring := ring
        dispatched := s.dispatched ++ [c] } := by
  have hrearms : rearms c.res c.more = false := by simp [rearms, h]
  simp [dispatch, Object.complete, h, hrearms]

theorem dispatch_of_waiter
    {s : State} {c : Cqe} {gotSqe : Bool} {ring : Requests Cqe}
    (h : 0 ≤ c.res) (hwaiter : s.object.waiter = true) :
    dispatch s c gotSqe ring =
      { s with
        object := { s.object with waiter := false }
        phase := s.phase.fulfil c.res
        ring := if rearms c.res c.more && gotSqe then ring.arm else ring
        dispatched := s.dispatched ++ [c] } := by
  simp [dispatch, Object.complete, not_lt_of_ge h, hwaiter]

theorem dispatch_of_free
    {s : State} {c : Cqe} {gotSqe : Bool} {ring : Requests Cqe}
    (h : 0 ≤ c.res) (hwaiter : s.object.waiter = false) :
    dispatch s c gotSqe ring =
      { s with
        object := { s.object with
          pendingFds := s.object.pendingFds ++ [c.res] }
        ring := if rearms c.res c.more && gotSqe then ring.arm else ring
        dispatched := s.dispatched ++ [c] } := by
  simp [dispatch, Object.complete, not_lt_of_ge h, hwaiter]

/-! ## The ledger -/

/-- Every connection dispatched is in exactly one place, in order. -/
structure Ledger (s : State) : Prop where
  conserved : s.phase ≠ .returned →
    s.returned ++ s.closed ++ (handed s.phase ++ unclosed s) =
      arrivals s.dispatched
  opened : consuming s.phase = true → s.closed = []
  waiter : s.object.waiter = true ↔ ∃ caller, s.phase = .waiting caller
  waiting : ∀ caller, s.phase = .waiting caller → s.object.pendingFds = []
  woken : ∀ caller res, s.phase = .woken caller res → res < 0 →
    s.object.pendingFds = [] ∧ Final s
  closing : s.phase = .closingPending → s.object.pendingFds ≠ []
  error : s.object.error ≠ 0 → Final s ∨ s.stop = true
  gone : Final s → s.ring = ⟨0, []⟩

theorem ledger_initial : Ledger initial := by
  constructor <;> simp [initial, handed, unclosed, arrivals, Final]

theorem Ledger.of_ring
    {s : State} (h : Ledger s) {ring : Requests Cqe}
    (hover : Final s → ring = ⟨0, []⟩) : Ledger { s with ring := ring } :=
  ⟨h.conserved, h.opened, h.waiter, h.waiting, h.woken, h.closing, h.error,
    hover⟩

/-- An armed request, or an undrained CQE, shows that the final CQE has not
been dispatched. -/
theorem Ledger.not_final
    {s : State} (h : Ledger s) (hring : s.ring ≠ ⟨0, []⟩) : ¬Final s :=
  fun hfinal => hring (h.gone hfinal)

theorem Ledger.not_woken_neg
    {s : State} (h : Ledger s) (hfinal : ¬Final s) {caller : Caller} {res : ℤ}
    (hp : s.phase = .woken caller res) : 0 ≤ res := by
  by_contra hneg
  exact hfinal (h.woken caller res hp (not_le.mp hneg)).2

theorem Ledger.not_waiting
    {s : State} (h : Ledger s) (hwaiter : s.object.waiter = false) :
    ∀ caller, s.phase ≠ .waiting caller := by
  intro caller hp
  simp [h.waiter.mpr ⟨caller, hp⟩] at hwaiter

theorem Ledger.no_waiter
    {s : State} (h : Ledger s) (hp : ∀ caller, s.phase ≠ .waiting caller) :
    s.object.waiter = false := by
  rw [← Bool.not_eq_true, h.waiter]
  exact fun ⟨caller, hcaller⟩ => hp caller hcaller

theorem final_dispatched_iff {s s' : State} {c : Cqe}
    (h : s'.dispatched = s.dispatched ++ [c]) :
    Final s' ↔ Final s ∨ c.res < 0 := by
  simp only [Final, h, List.mem_append, List.mem_singleton, or_and_right,
    exists_or, exists_eq_left]

theorem not_final_dispatched
    {s s' : State} {c : Cqe} (h : s'.dispatched = s.dispatched ++ [c])
    (hfinal : ¬Final s) (hres : 0 ≤ c.res) : ¬Final s' := by
  rw [final_dispatched_iff h, not_or]
  exact ⟨hfinal, not_lt_of_ge hres⟩

/-- The final CQE: a waiting fiber is woken with it, and no connection moves. -/
theorem Ledger.dispatch_neg
    {s : State} {c : Cqe} {gotSqe : Bool} {ring : Requests Cqe}
    (h : Ledger s) (hring : ring = ⟨0, []⟩) (hneg : c.res < 0) :
    Ledger (dispatch s c gotSqe ring) := by
  rw [dispatch_of_neg hneg]
  have hF : ∀ s' : State, s'.dispatched = s.dispatched ++ [c] → Final s' :=
    fun s' hs' => (final_dispatched_iff hs').mpr (.inr hneg)
  have harrivals : arrivals (s.dispatched ++ [c]) = arrivals s.dispatched := by
    simp [arrivals_append, hneg]
  cases hwaiter : s.object.waiter with
  | true =>
      obtain ⟨caller, hp⟩ := h.waiter.mp hwaiter
      have hpending := h.waiting caller hp
      have hlaw := h.conserved (by simp [hp])
      simp only [hp, handed, unclosed, hpending] at hlaw
      have hopened := h.opened
      rw [hp] at hopened
      refine ⟨?_, ?_, ?_, ?_, ?_, ?_, ?_, ?_⟩
      · simp [hp, Phase.fulfil, handed, unclosed, hneg, hpending, harrivals,
          ← hlaw]
      · cases caller <;> simp_all [Phase.fulfil, consuming]
      · simp [hp, Phase.fulfil]
      · simp [hp, Phase.fulfil]
      · exact fun _ _ _ _ => ⟨hpending, hF _ rfl⟩
      · simp [hp, Phase.fulfil]
      · exact fun _ => .inl (hF _ rfl)
      · exact fun _ => hring
  | false =>
      refine ⟨?_, h.opened, ?_, h.waiting, ?_, h.closing, ?_, ?_⟩
      · intro hp
        exact (h.conserved hp).trans harrivals.symm
      · simpa using h.not_waiting hwaiter
      · exact fun caller res hp hres =>
          ⟨(h.woken caller res hp hres).1, hF _ rfl⟩
      · exact fun _ => .inl (hF _ rfl)
      · exact fun _ => hring

/-- A connection that finds the fiber waiting: the queue is empty, so that the
promise comes next in order. -/
theorem Ledger.dispatch_waiter
    {s : State} {c : Cqe} {gotSqe : Bool} {ring : Requests Cqe}
    (h : Ledger s) (hfinal : ¬Final s) (hres : 0 ≤ c.res)
    (hwaiter : s.object.waiter = true) :
    Ledger (dispatch s c gotSqe ring) := by
  rw [dispatch_of_waiter hres hwaiter]
  obtain ⟨caller, hp⟩ := h.waiter.mp hwaiter
  have hpending := h.waiting caller hp
  have hlaw := h.conserved (by simp [hp])
  simp only [hp, handed, unclosed, hpending] at hlaw
  have hopened := h.opened
  rw [hp] at hopened
  refine ⟨?_, ?_, ?_, ?_, ?_, ?_, ?_, ?_⟩
  · simp [hp, Phase.fulfil, handed, unclosed, hres, hpending, arrivals_append,
      ← hlaw]
  · cases caller <;> simp_all [Phase.fulfil, consuming]
  · simp [hp, Phase.fulfil]
  · simp [hp, Phase.fulfil]
  · intro caller' res heq hneg
    simp only [hp, Phase.fulfil, Phase.woken.injEq] at heq
    omega
  · simp [hp, Phase.fulfil]
  · exact fun herror => .inr ((h.error herror).resolve_left hfinal)
  · exact fun hfinal' =>
      absurd hfinal' (not_final_dispatched rfl hfinal hres)

/-- A connection that finds no fiber waiting: it comes last. -/
theorem Ledger.dispatch_free
    {s : State} {c : Cqe} {gotSqe : Bool} {ring : Requests Cqe}
    (h : Ledger s) (hfinal : ¬Final s) (hres : 0 ≤ c.res)
    (hwaiter : s.object.waiter = false) :
    Ledger (dispatch s c gotSqe ring) := by
  rw [dispatch_of_free hres hwaiter]
  refine ⟨?_, h.opened, h.waiter, ?_, ?_, ?_, ?_, ?_⟩
  · intro hp
    simp only [arrivals_append, hres, if_true, ← h.conserved hp,
      List.append_assoc]
    by_cases hclosing : s.phase = .closingPending
    · simp [unclosed, hclosing, List.tail_append_of_ne_nil (h.closing hclosing)]
    · simp [unclosed, hclosing]
  · exact fun caller hp => absurd hp (h.not_waiting hwaiter caller)
  · intro caller res hp hneg
    have hnonneg := h.not_woken_neg hfinal hp
    omega
  · intro hp
    simp
  · exact fun herror => .inr ((h.error herror).resolve_left hfinal)
  · exact fun hfinal' =>
      absurd hfinal' (not_final_dispatched rfl hfinal hres)

theorem Ledger.dispatch
    {s : State} {c : Cqe} {gotSqe : Bool} {ring : Requests Cqe}
    (h : Ledger s) (hfinal : ¬Final s)
    (hring : c.res < 0 → ring = ⟨0, []⟩) :
    Ledger (Stream.dispatch s c gotSqe ring) := by
  by_cases hneg : c.res < 0
  · exact h.dispatch_neg (hring hneg) hneg
  · cases hwaiter : s.object.waiter with
    | true => exact h.dispatch_waiter hfinal (not_lt.mp hneg) hwaiter
    | false => exact h.dispatch_free hfinal (not_lt.mp hneg) hwaiter

/-- The consumer neither waits nor has anything in hand. -/
def idle : Phase → Bool
  | .user | .closingDrained | .returned => true
  | _ => false

theorem ledger_of_idle
    {s : State} (hp : idle s.phase = true)
    (hlaw : s.phase ≠ .returned →
      s.returned ++ s.closed ++ s.object.pendingFds = arrivals s.dispatched)
    (hopened : consuming s.phase = true → s.closed = [])
    (hwaiter : s.object.waiter = false)
    (herror : s.object.error ≠ 0 → Final s ∨ s.stop = true)
    (hgone : Final s → s.ring = ⟨0, []⟩) : Ledger s := by
  have hhanded : handed s.phase = [] := by
    cases hphase : s.phase <;> simp_all [idle, handed]
  have hunclosed : unclosed s = s.object.pendingFds := by
    cases hphase : s.phase <;> simp_all [idle, unclosed]
  refine ⟨?_, hopened, ?_, ?_, ?_, ?_, herror, hgone⟩
  · simpa [hhanded, hunclosed] using hlaw
  · refine iff_of_false (by simp [hwaiter]) ?_
    rintro ⟨caller, hphase⟩
    simp [hphase, idle] at hp
  · intro caller hphase
    simp [hphase, idle] at hp
  · intro caller res hphase
    simp [hphase, idle] at hp
  · intro hphase
    simp [hphase, idle] at hp

theorem Ledger.at_call
    {s : State} (h : Ledger s)
    (hp : s.phase = .user ∨ s.phase = .closingDrained) :
    s.returned ++ s.closed ++ s.object.pendingFds = arrivals s.dispatched ∧
      s.object.waiter = false := by
  constructor
  · rcases hp with hp | hp <;>
      simpa [hp, handed, unclosed] using h.conserved (by simp [hp])
  · exact h.no_waiter (by rcases hp with hp | hp <;> simp [hp])

theorem Ledger.leave_value
    {s : State} {caller : Caller} {a : Object} {fd : ℤ} (h : Ledger s)
    (hcaller : caller = .user → s.closed = [])
    (hlaw : s.returned ++ s.closed ++ fd :: a.pendingFds =
      arrivals s.dispatched)
    (hwaiter : a.waiter = false) (herror : a.error = s.object.error) :
    Ledger (leave s caller (a, .value fd)) := by
  have herror' : a.error ≠ 0 → Final s ∨ s.stop = true :=
    fun hne => h.error (herror ▸ hne)
  cases caller with
  | user =>
      have hclosed := hcaller rfl
      refine ledger_of_idle rfl (fun _ => ?_) (fun _ => ?_) hwaiter herror'
        h.gone
      · simpa [leave, fdsOf, hclosed] using hlaw
      · simp [leave, hclosed]
  | destructor =>
      refine ledger_of_idle rfl (fun _ => ?_) (fun hp => ?_) hwaiter herror'
        h.gone
      · simpa [leave, fdsOf] using hlaw
      · cases hp

theorem Ledger.leave_ends
    {s : State} {caller : Caller} {a : Object} {r : Next} (h : Ledger s)
    (hcaller : caller = .user → s.closed = [])
    (hlaw : s.returned ++ s.closed = arrivals s.dispatched)
    (hpending : a.pendingFds = []) (hwaiter : a.waiter = false)
    (hwhy : Final s ∨ s.stop = true) (hends : Ends r) :
    Ledger (leave s caller (a, r)) := by
  have hsettle := settle_of_ends caller hends
  have hfds := fdsOf_of_ends hends
  refine ledger_of_idle ?_ (fun _ => ?_) (fun hp => ?_) hwaiter (fun _ => hwhy)
    h.gone
  · cases caller <;> simp [leave, hsettle, idle]
  · simpa [leave, hfds, hpending] using hlaw
  · cases caller with
    | user => simp [leave, hfds, hcaller rfl]
    | destructor => simp [leave, hsettle, consuming] at hp

theorem Ledger.leave_suspended
    {s : State} {caller : Caller} (h : Ledger s)
    (hcaller : caller = .user → s.closed = [])
    (hlaw : s.returned ++ s.closed = arrivals s.dispatched)
    (hpending : s.object.pendingFds = []) :
    Ledger (leave s caller ({ s.object with waiter := true }, .suspended)) := by
  refine ⟨fun _ => ?_, fun hp => ?_, ?_, fun _ _ => hpending, ?_, ?_, h.error,
    h.gone⟩
  · simpa [leave, settle, fdsOf, handed, unclosed, hpending] using hlaw
  · cases caller with
    | user => simp [leave, fdsOf, hcaller rfl]
    | destructor => cases hp
  · simp [leave, settle]
  · simp [leave, settle]
  · simp [leave, settle]

/-- A call of `next`, by the user or by the destructor. -/
theorem Ledger.next
    {s : State} {caller : Caller} (h : Ledger s)
    (hp : s.phase = .user ∨ s.phase = .closingDrained)
    (hcaller : caller = .user → s.closed = []) :
    Ledger (leave s caller (s.object.next s.stop)) := by
  obtain ⟨hlaw, hwaiter⟩ := h.at_call hp
  rcases next_cases s.object s.stop with
    ⟨fd, rest, hpending, hnext⟩ |
      ⟨a, r, hnext, hpending, hwhy, hends, hempty, hsame⟩ | ⟨hpending, hnext⟩
  · rw [hpending] at hlaw
    rw [hnext]
    exact h.leave_value hcaller hlaw hwaiter rfl
  · rw [hpending, List.append_nil] at hlaw
    rw [hnext]
    exact h.leave_ends hcaller hlaw hempty (hsame.trans hwaiter)
      (hwhy.elim h.error .inr) hends
  · rw [hpending, List.append_nil] at hlaw
    rw [hnext]
    exact h.leave_suspended hcaller hlaw hpending

/-- The fiber resumes, with a connection or with the final result. -/
theorem Ledger.resume
    {s : State} {caller : Caller} {res : ℤ} (h : Ledger s)
    (hp : s.phase = .woken caller res) :
    Ledger (leave s caller (s.object, afterWait res)) := by
  have hlaw := h.conserved (by simp [hp])
  have hwaiter := h.no_waiter (by simp [hp])
  have hcaller : caller = .user → s.closed = [] := by
    rintro rfl
    exact h.opened (by simp [hp, consuming])
  by_cases hres : res < 0
  · obtain ⟨hpending, hfinal⟩ := h.woken caller res hp hres
    refine h.leave_ends hcaller ?_ hpending hwaiter (.inl hfinal)
      (ends_afterWait_iff.mpr hres)
    simpa [hp, handed, not_le.mpr hres, unclosed, hpending] using hlaw
  · have hnonneg := not_lt.mp hres
    rw [afterWait_of_nonneg hnonneg]
    refine h.leave_value hcaller ?_ hwaiter rfl
    simpa [hp, handed, hnonneg, unclosed] using hlaw

/-- The destructor's loop over the queue, from a state in which what it has
not yet closed is the whole queue. -/
theorem ledger_closePending
    {s : State}
    (hlaw : s.returned ++ s.closed ++ s.object.pendingFds =
      arrivals s.dispatched)
    (hwaiter : s.object.waiter = false)
    (herror : s.object.error ≠ 0 → Final s ∨ s.stop = true)
    (hgone : Final s → s.ring = ⟨0, []⟩) : Ledger (closePending s) := by
  cases hpending : s.object.pendingFds with
  | nil =>
      simp only [closePending, hpending]
      refine ledger_of_idle rfl (fun hp => absurd rfl hp) (fun hp => ?_)
        hwaiter herror hgone
      cases hp
  | cons fd rest =>
      simp only [closePending, hpending]
      refine ⟨fun _ => ?_, ?_, ?_, ?_, ?_, fun _ => ?_, herror, hgone⟩
      · simp [handed, unclosed, hpending, ← hlaw]
      · simp [consuming]
      · simp [hwaiter]
      · simp
      · simp
      · simp [hpending]

theorem Ledger.close_failed
    {s : State} (h : Ledger s)
    (hp : s.phase = .closingPending ∨ s.phase = .closingDrained) :
    Ledger { s with phase := .returned } := by
  have hwaiter := h.no_waiter (by rcases hp with hp | hp <;> simp [hp])
  refine ledger_of_idle rfl (fun hp => absurd rfl hp) (fun hp => ?_) hwaiter
    h.error h.gone
  cases hp

theorem ring_of_take_final
    {s : State} (h : machine.Reachable s) {c : Cqe} {ring : Requests Cqe}
    (htake : s.ring.take? = some (c, ring)) (hneg : c.res < 0) :
    ring = ⟨0, []⟩ := by
  obtain ⟨a, -, hviews⟩ :=
    exists_views (H := fun _ _ => True) (fun _ _ _ _ _ => trivial) h
  rcases hviews.take htake with ⟨fd, rest, -, rfl, -⟩ | ⟨res, -, -, hring⟩
  · exact absurd hneg (by simp)
  · exact hring

theorem ledger_effect
    {s : State} {e : Event} (hs : machine.Reachable s) (h : Ledger s)
    (he : enabled s e) : Ledger (effect s e) := by
  cases e with
  | post fd =>
      refine h.of_ring fun hfinal => absurd (h.gone hfinal) ?_
      intro hring
      simp [enabled, hring] at he
  | finish res =>
      refine h.of_ring fun hfinal => absurd (h.gone hfinal) ?_
      intro hring
      simp [enabled, hring] at he
  | drain gotSqe =>
      obtain ⟨c, ring, htake⟩ := Requests.exists_take he.1
      simp only [effect, htake]
      refine h.dispatch (h.not_final fun hring => he.1 ?_)
        (ring_of_take_final hs htake)
      rw [hring]
  | next =>
      refine h.next (.inl he) fun _ => h.opened ?_
      simp [show s.phase = .user from he, consuming]
  | resume =>
      obtain ⟨caller, res, hp⟩ := he
      simp only [effect, hp]
      exact h.resume hp
  | destroy =>
      simp only [effect]
      split
      · obtain ⟨hlaw, hwaiter⟩ := h.at_call (.inl he)
        exact ledger_closePending hlaw hwaiter h.error h.gone
      · exact h.next (.inl he) (by simp)
  | closed =>
      simp only [effect]
      split
      next hp =>
        -- the front was closed while it stood in the queue
        have hlaw := h.conserved (by simp [hp])
        simp only [hp, handed, unclosed] at hlaw
        refine ledger_closePending ?_ ?_ h.error h.gone
        · simpa using hlaw
        · exact h.no_waiter (by simp [hp])
      next hp => exact h.next (.inr (he.resolve_left hp)) (by simp)
  | closeFailed => exact h.close_failed he
  | requestStop =>
      exact ⟨h.conserved, h.opened, h.waiter, h.waiting, h.woken, h.closing,
        fun _ => .inr rfl, h.gone⟩

theorem ledger_of_reachable {s : State} (h : machine.Reachable s) :
    Ledger s := by
  refine Machine.Reachable.invariant ?_ ?_ h
  · rintro s rfl
    exact ledger_initial
  · intro s e hs hI he
    exact ledger_effect hs hI he

/-! ## The outstanding request -/

/-- A re-arm obtains an SQE. -/
def Rearms (s : State) : Event → Prop
  | .drain gotSqe =>
      ∀ c ring, s.ring.take? = some (c, ring) →
        rearms c.res c.more = true → gotSqe = true
  | _ => True

/-- One request is outstanding, as long as the final CQE has not been
dispatched. -/
def Outstanding (s : State) : Prop :=
  ¬Final s → s.ring.outstanding Cqe.isLast = 1

theorem outstanding_dispatch
    {s : State} {c : Cqe} {gotSqe : Bool} {ring : Requests Cqe}
    (h : Outstanding s) (htake : s.ring.take? = some (c, ring))
    (hgot : rearms c.res c.more = true → gotSqe = true) :
    Outstanding (dispatch s c gotSqe ring) := by
  intro hfinal
  rw [final_dispatched_iff rfl, not_or] at hfinal
  have hone := h hfinal.1
  rw [Requests.outstanding_take htake] at hone
  cases hmore : c.more with
  | true =>
      -- the request goes on
      simpa [dispatch, rearms, hmore, Cqe.isLast] using hone
  | false =>
      have hrearms : rearms c.res c.more = true := by
        simp [rearms, hmore, not_lt.mp hfinal.2]
      simp only [dispatch, hrearms, hgot hrearms, Bool.and_self, if_true,
        Requests.outstanding_arm]
      simpa [Cqe.isLast, hmore] using hone

theorem outstanding_effect
    {s : State} {e : Event} (h : Outstanding s) (he : enabled s e)
    (hguard : Rearms s e) : Outstanding (effect s e) := by
  have hsame : ∀ s' : State, s'.dispatched = s.dispatched →
      s'.ring.outstanding Cqe.isLast = s.ring.outstanding Cqe.isLast →
        Outstanding s' := by
    intro s' hdispatched hring hfinal
    rw [hring]
    refine h fun hold => hfinal ?_
    rwa [Final, hdispatched]
  cases e with
  | post fd => exact hsame _ rfl (Requests.outstanding_post he rfl)
  | finish res => exact hsame _ rfl (Requests.outstanding_post he rfl)
  | drain gotSqe =>
      obtain ⟨c, ring, htake⟩ := Requests.exists_take he.1
      simp only [effect, htake]
      exact outstanding_dispatch h htake (hguard c ring htake)
  | next => exact hsame _ rfl rfl
  | resume =>
      obtain ⟨caller, res, hp⟩ := he
      simp only [effect, hp]
      exact hsame _ rfl rfl
  | destroy =>
      simp only [effect, closePending]
      split
      · split <;> exact hsame _ rfl rfl
      · exact hsame _ rfl rfl
  | closed =>
      simp only [effect, closePending]
      split
      · split <;> exact hsame _ rfl rfl
      · exact hsame _ rfl rfl
  | closeFailed => exact hsame _ rfl rfl
  | requestStop => exact hsame _ rfl rfl

theorem outstanding_of_rearms
    {s : State} (h : machine.ReachableUnder Rearms s) : Outstanding s := by
  refine Machine.ReachableUnder.invariant ?_ ?_ h
  · rintro s rfl _
    rfl
  · intro s e _ hI he hguard
    exact outstanding_effect hI he hguard

/-! ## The theorem on the order of connections -/

/-- What the call of `next` that a step carries on reports. -/
def report (s : State) : Event → Option Next
  | .next => some (s.object.next s.stop).2
  | .resume =>
      match s.phase with
      | .woken _ res => some (afterWait res)
      | _ => none
  | .destroy =>
      if s.object.error ≠ 0 then none else some (s.object.next s.stop).2
  | .closed =>
      if s.phase = .closingPending then none
      else some (s.object.next s.stop).2
  | _ => none

theorem Ledger.empty_of_next_ends
    {s : State} (h : Ledger s)
    (hp : s.phase = .user ∨ s.phase = .closingDrained)
    (hends : Ends (s.object.next s.stop).2) :
    handed s.phase ++ s.object.pendingFds = [] ∧
      (Final s ∨ s.stop = true) := by
  rcases next_cases s.object s.stop with
    ⟨fd, rest, -, hnext⟩ | ⟨a, r, -, hpending, hwhy, -⟩ | ⟨-, hnext⟩
  · rw [hnext] at hends
    rcases hends with h | ⟨error, h⟩ <;> cases h
  · refine ⟨?_, hwhy.elim h.error .inr⟩
    rcases hp with hp | hp <;> simp [hp, handed, hpending]
  · rw [hnext] at hends
    rcases hends with h | ⟨error, h⟩ <;> cases h

theorem Ledger.empty_of_ends
    {s : State} {e : Event} {r : Next} (h : Ledger s) (he : enabled s e)
    (hreport : report s e = some r) (hends : Ends r) :
    handed s.phase ++ s.object.pendingFds = [] ∧
      (Final s ∨ s.stop = true) := by
  cases e with
  | next =>
      obtain rfl := Option.some.inj hreport
      exact h.empty_of_next_ends (.inl he) hends
  | resume =>
      obtain ⟨caller, res, hp⟩ := he
      simp only [report, hp, Option.some.injEq] at hreport
      subst hreport
      have hneg := ends_afterWait_iff.mp hends
      obtain ⟨hpending, hfinal⟩ := h.woken caller res hp hneg
      exact ⟨by simp [hp, handed, hneg, hpending], .inl hfinal⟩
  | destroy =>
      simp only [report] at hreport
      split at hreport
      next => cases hreport
      next =>
        obtain rfl := Option.some.inj hreport
        exact h.empty_of_next_ends (.inl he) hends
  | closed =>
      simp only [report] at hreport
      split at hreport
      next => cases hreport
      next hp =>
        obtain rfl := Option.some.inj hreport
        exact h.empty_of_next_ends (.inr (he.resolve_left hp)) hends
  | _ => cases hreport

/-- Until the object is destroyed, the descriptors returned by `next`, the one
handed to the waiter and `pending_fds_` are in this order the connections
dispatched; in the destructor the closed ones come after the returned ones.
`next` reports the end only when nothing is left and the final CQE has been
dispatched or a stop requested.  And as long as re-arms obtain an SQE, exactly
one accept request is outstanding until the final CQE is dispatched. -/
theorem acceptor_delivers_in_order (s : State) (h : machine.Reachable s) :
    (consuming s.phase = true →
        s.returned ++ handed s.phase ++ s.object.pendingFds =
          arrivals s.dispatched) ∧
      (s.phase ≠ .returned →
        s.returned ++ s.closed ++ handed s.phase ++ unclosed s =
          arrivals s.dispatched) ∧
      (∀ e r, enabled s e → report s e = some r → Ends r →
        handed s.phase ++ s.object.pendingFds = [] ∧
          (Final s ∨ s.stop = true)) ∧
      (machine.ReachableUnder Rearms s → ¬Final s →
        s.ring.outstanding Cqe.isLast = 1) := by
  have hledger := ledger_of_reachable h
  have hlaw : s.phase ≠ .returned →
      s.returned ++ s.closed ++ handed s.phase ++ unclosed s =
        arrivals s.dispatched := by
    intro hp
    simpa using hledger.conserved hp
  refine ⟨fun hp => ?_, hlaw, fun e r he => hledger.empty_of_ends he,
    outstanding_of_rearms⟩
  have hopen : s.phase ≠ .returned ∧ s.phase ≠ .closingPending := by
    constructor <;> (intro hphase; simp [hphase, consuming] at hp)
  simpa [hledger.opened hp, unclosed, hopen.2] using hlaw hopen.1

/-- Two connections arrive after the waiter was given a first one and before
the fiber resumes, the second of them with the end of the request. -/
theorem acceptor_delivers_burst_in_order :
    ∃ s, machine.Reachable s ∧ consuming s.phase = true ∧
      s.returned = ([5, 6] : List ℤ) ∧
      s.returned ++ handed s.phase ++ s.object.pendingFds =
        arrivals s.dispatched := by
  obtain ⟨s, hs, hp, hreturned⟩ := Machine.exists_reachableUnder_of_exec
    (M := machine) (G := fun _ _ => True)
    (P := fun s : State => consuming s.phase = true ∧
      s.returned = ([5, 6] : List ℤ)) rfl
    [.next, .post 5, .drain true, .post 6, .finish 7, .drain true, .drain true,
      .resume, .next]
    (by decide)
  exact ⟨s, hs, hp, hreturned, (acceptor_delivers_in_order s hs).1 hp⟩

end Fiberexec.Multishot.Acceptor.Stream
