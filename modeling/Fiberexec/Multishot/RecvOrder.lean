import Fiberexec.Multishot.RecvStream

/-!
# The order of received messages

Every message goes through `pending_`, and a promise carries no value: a fiber
that is woken looks at `pending_` and at `error_`, in this order, as they are
when it resumes.  What was dispatched is at every time what was returned,
followed by what the destructor discarded and by `pending_`; and the final CQE
is the last one, so that `error_` has its code from then on.
-/

namespace Fiberexec.Multishot.Recv.Stream

open Support

/-! ## What was dispatched -/

/-- The pair that `complete` makes of a data CQE. -/
def Cqe.item (c : Cqe) : PendingItem :=
  ⟨c.buffer.getD 0, c.res.toNat⟩

/-- The pairs of the data CQEs, in order. -/
def pairs (cs : List Cqe) : List PendingItem :=
  (cs.filter (fun c => 0 < c.res)).map Cqe.item

/-- The final CQE has been dispatched. -/
def Final (s : State) : Prop :=
  ∃ c ∈ s.dispatched, c.res ≤ 0

/-- The value of `error_` for the result of a final CQE. -/
def code (res : ℤ) : ℤ :=
  if res = 0 then -enodata else res

/-- The destructor has not been called. -/
def consuming : Phase → Bool
  | .user | .waiting .user | .woken .user => true
  | _ => false

/-- `next` reports the end of the stream. -/
def Ends (r : Next) : Prop :=
  r = .nullopt ∨ ∃ error, r = .throws error

theorem pairs_append (cs : List Cqe) (c : Cqe) :
    pairs (cs ++ [c]) = pairs cs ++ if 0 < c.res then [c.item] else [] := by
  simp only [pairs, List.filter_append, List.filter_singleton,
    Bool.cond_decide, List.map_append]
  split <;> rfl

theorem code_ne_zero {res : ℤ} : code res ≠ 0 := by
  simp only [code]
  split
  · simp [enodata]
  · assumption

theorem final_dispatched_iff
    {s s' : State} {c : Cqe} (h : s'.dispatched = s.dispatched ++ [c]) :
    Final s' ↔ Final s ∨ c.res ≤ 0 := by
  simp only [Final, h, List.mem_append, List.mem_singleton, or_and_right,
    exists_or, exists_eq_left]

/-! ## What one call does -/

theorem complete_of_data {a : Object} {c : Cqe} (h : 0 < c.res) :
    complete a c =
      { a with pending := a.pending ++ [c.item], waiter := false } := by
  simp [complete, Object.completeLast, h, Object.completeData, Cqe.item]

theorem complete_of_final {a : Object} {c : Cqe} (h : c.res ≤ 0) :
    (complete a c).pending = a.pending ∧ (complete a c).waiter = false ∧
      (complete a c).error = code c.res := by
  have hres : ¬0 < c.res := not_lt.mpr h
  cases hbuffer : c.buffer with
  | none => simp [complete, Object.completeLast, hres, Object.completeFinal,
      hbuffer, code]
  | some bufId => simp [complete, Object.completeLast, hres,
      Object.completeFinal, hbuffer, code, Object.returnBuffer]

/-- What a call of `next` can give, and why. -/
inductive Pull (a : Object) (stop : Bool) : Object × Next → Prop
  | value {item : PendingItem} {rest : List PendingItem} :
      a.pending = item :: rest →
        Pull a stop ({ a with pending := rest }, .value item)
  | ended : a.pending = [] → a.error ≠ 0 → Pull a stop (a, ofError a.error)
  | stopped : a.pending = [] → a.error = 0 → stop = true →
      Pull a stop ({ a with error := -ecanceled }, .nullopt)
  | suspended : a.pending = [] → a.error = 0 → stop = false →
      Pull a stop ({ a with waiter := true }, .suspended)

theorem pull_next (a : Object) (stop : Bool) : Pull a stop (a.next stop) := by
  simp only [Object.next]
  split
  next item rest hpending => exact .value hpending
  next hpending =>
    split
    next herror => exact .ended hpending herror
    next herror =>
      have hzero := not_not.mp herror
      split
      next hstop => exact .stopped hpending hzero hstop
      next hstop => exact .suspended hpending hzero (by simpa using hstop)

theorem pull_afterWait
    {a : Object} {stop : Bool} (h : a.pending ≠ [] ∨ a.error ≠ 0) :
    Pull a stop a.afterWait := by
  simp only [Object.afterWait]
  split
  next item rest hpending => exact .value hpending
  next hpending =>
    exact .ended hpending (h.resolve_left (not_not.mpr hpending))

theorem ends_ofError (error : ℤ) : Ends (ofError error) := by
  simp only [ofError]
  split
  · exact .inl rfl
  · exact .inr ⟨error, rfl⟩

theorem Pull.empty_of_ends
    {a : Object} {stop : Bool} {r : Object × Next} (h : Pull a stop r)
    (hends : Ends r.2) : a.pending = [] ∧ (a.error ≠ 0 ∨ stop = true) := by
  cases h with
  | value hpending => rcases hends with h | ⟨error, h⟩ <;> cases h
  | ended hpending herror => exact ⟨hpending, .inl herror⟩
  | stopped hpending herror hstop => exact ⟨hpending, .inr hstop⟩
  | suspended => rcases hends with h | ⟨error, h⟩ <;> cases h

theorem Pull.eq_ofError
    {a : Object} {stop : Bool} {r : Object × Next} (h : Pull a stop r)
    (hpending : a.pending = []) (herror : a.error ≠ 0) :
    r.2 = ofError a.error := by
  cases h with
  | value hcons => simp [hpending] at hcons
  | ended => rfl
  | stopped _ hzero _ => exact absurd hzero herror
  | suspended _ hzero _ => exact absurd hzero herror

/-! ## The ledger -/

/-- Every message dispatched is in one place, in order, and `error_` tells of
the final CQE. -/
structure Ledger (s : State) : Prop where
  conserved : s.returned ++ s.discarded ++ s.object.pending =
    pairs s.dispatched
  opened : consuming s.phase = true → s.discarded = []
  waiter : s.object.waiter = true ↔ ∃ caller, s.phase = .waiting caller
  waiting : ∀ caller, s.phase = .waiting caller →
    s.object.pending = [] ∧ s.object.error = 0
  woken : ∀ caller, s.phase = .woken caller →
    s.object.pending ≠ [] ∨ s.object.error ≠ 0
  error : s.object.error ≠ 0 → Final s ∨ s.stop = true
  final : ∀ c ∈ s.dispatched, c.res ≤ 0 → s.object.error = code c.res
  tidy : s.requests.Tidy Cqe.isLast
  gone : Final s → s.requests = ⟨0, []⟩
  posted : ∀ c ∈ s.ring.cq, c.more = true → 0 < c.res

theorem ledger_initial (count : ℕ) : Ledger (initial count) := by
  constructor <;>
    simp [initial, pairs, Final, State.requests, Requests.Tidy.armed]

/-- The steps that touch neither the messages nor the consumer. -/
structure Same (s s' : State) : Prop where
  pending : s'.object.pending = s.object.pending
  waiter : s'.object.waiter = s.object.waiter
  error : s'.object.error = s.object.error
  phase : s'.phase = s.phase
  stop : s.stop = true → s'.stop = true
  dispatched : s'.dispatched = s.dispatched
  returned : s'.returned = s.returned
  discarded : s'.discarded = s.discarded

theorem Same.final_iff {s s' : State} (h : Same s s') :
    Final s' ↔ Final s := by
  rw [Final, Final, h.dispatched]

theorem Ledger.of_same
    {s s' : State} (h : Ledger s) (hsame : Same s s')
    (htidy : s'.requests.Tidy Cqe.isLast)
    (hover : Final s → s'.requests = ⟨0, []⟩)
    (hposted : ∀ c ∈ s'.ring.cq, c.more = true → 0 < c.res) : Ledger s' := by
  refine ⟨?_, ?_, ?_, ?_, ?_, ?_, ?_, htidy, ?_, hposted⟩
  · rw [hsame.returned, hsame.discarded, hsame.pending, hsame.dispatched]
    exact h.conserved
  · rw [hsame.phase, hsame.discarded]
    exact h.opened
  · rw [hsame.waiter, hsame.phase]
    exact h.waiter
  · rw [hsame.pending, hsame.error, hsame.phase]
    exact h.waiting
  · rw [hsame.pending, hsame.error, hsame.phase]
    exact h.woken
  · rw [hsame.error, hsame.final_iff]
    exact fun herror => (h.error herror).imp_right hsame.stop
  · rw [hsame.dispatched, hsame.error]
    exact h.final
  · exact fun hfinal => hover (hsame.final_iff.mp hfinal)

theorem Ledger.no_waiter
    {s : State} (h : Ledger s) (hp : ∀ caller, s.phase ≠ .waiting caller) :
    s.object.waiter = false := by
  rw [← Bool.not_eq_true, h.waiter]
  exact fun ⟨caller, hcaller⟩ => hp caller hcaller

/-- `complete` wakes the waiting fiber, and moves no other. -/
theorem Ledger.fulfilled
    {s : State} (h : Ledger s) :
    (∃ caller, s.phase = .waiting caller ∧
        (if s.object.waiter = true then s.phase.fulfil else s.phase) =
          .woken caller) ∨
      (∀ caller, s.phase ≠ .waiting caller) ∧
        (if s.object.waiter = true then s.phase.fulfil else s.phase) =
          s.phase := by
  cases hwaiter : s.object.waiter with
  | true =>
      obtain ⟨caller, hp⟩ := h.waiter.mp hwaiter
      exact .inl ⟨caller, hp, by simp [hp, Phase.fulfil]⟩
  | false =>
      refine .inr ⟨fun caller hp => ?_, rfl⟩
      simp [h.waiter.mpr ⟨caller, hp⟩] at hwaiter

/-- After `complete` a woken fiber finds a message or an error. -/
theorem complete_ready (a : Object) (c : Cqe) :
    (complete a c).pending ≠ [] ∨ (complete a c).error ≠ 0 :=
  completeLast_ready a ⟨c.res, c.buffer⟩

/-- What `complete` does to the consumer: it is not left waiting. -/
theorem Ledger.dispatch_phase
    {s : State} (h : Ledger s) (c : Cqe) (gotSqe : Bool)
    (ring : Requests Cqe) :
    (∀ caller, (dispatch s c gotSqe ring).phase ≠ .waiting caller) ∧
      (consuming (dispatch s c gotSqe ring).phase = true →
        consuming s.phase = true) := by
  rcases h.fulfilled with ⟨caller, hp, hphase⟩ | ⟨hnot, hphase⟩
  · simp only [dispatch, hphase]
    refine ⟨by simp, ?_⟩
    cases caller <;> simp [hp, consuming]
  · simp only [dispatch, hphase]
    exact ⟨hnot, id⟩

theorem Ledger.dispatch_law
    {s : State} {c : Cqe} (h : Ledger s) :
    s.returned ++ s.discarded ++ (complete s.object c).pending =
        pairs (s.dispatched ++ [c]) ∧
      (complete s.object c).waiter = false := by
  rw [pairs_append, ← h.conserved]
  by_cases hres : 0 < c.res
  · simp [complete_of_data hres, hres]
  · obtain ⟨hpending, hwaiter, -⟩ :=
      complete_of_final (a := s.object) (not_lt.mp hres)
    simp [hpending, hwaiter, hres]

/-- `drain_cqes` hands a CQE to `complete`.  It is the first final one, since
none can follow such a one. -/
theorem Ledger.dispatch
    {s : State} {c : Cqe} {gotSqe : Bool} {ring : Requests Cqe}
    (h : Ledger s) (htake : s.ring.take? = some (c, ring)) :
    Ledger (Stream.dispatch s c gotSqe ring) := by
  have hrequests := requests_take htake
  have hfinal : ¬Final s := by
    intro hfinal
    rw [h.gone hfinal] at hrequests
    cases hrequests
  obtain ⟨hlaw, hwaiter⟩ := h.dispatch_law (c := c)
  obtain ⟨hnot, hopen⟩ := h.dispatch_phase c gotSqe ring
  obtain ⟨htidy, hlast⟩ := h.tidy.take hrequests
  have hcq := Requests.cq_of_take htake
  have hmore : c.more = true → 0 < c.res :=
    h.posted c (hcq ▸ List.mem_cons_self)
  refine ⟨hlaw, fun hp => h.opened (hopen hp), ?_,
    fun caller hp => absurd hp (hnot caller), fun _ _ => complete_ready _ _,
    ?_, ?_, ?_, ?_, ?_⟩
  · simp only [Stream.dispatch] at hnot ⊢
    simp [hwaiter, hnot]
  · intro herror
    by_cases hres : 0 < c.res
    · simp only [Stream.dispatch, complete_of_data hres] at herror
      exact .inr ((h.error herror).resolve_left hfinal)
    · exact .inl ((final_dispatched_iff rfl).mpr (.inr (not_lt.mp hres)))
  · intro d hd hres
    rcases List.mem_append.mp hd with hd | hd
    · exact absurd ⟨d, hd, hres⟩ hfinal
    · obtain rfl := List.mem_singleton.mp hd
      exact (complete_of_final hres).2.2
  · rw [requests_dispatch]
    split
    next hrearms =>
      have hisLast : c.isLast = true := by
        simp only [rearms, Bool.and_eq_true] at hrearms
        exact hrearms.1.1
      rw [hlast hisLast]
      exact Requests.tidy_arm
    next => exact htidy
  · intro hfinal'
    have hres := ((final_dispatched_iff rfl).mp hfinal').resolve_left hfinal
    have hisLast : c.isLast = true := by
      simpa [Cqe.isLast] using mt hmore (not_lt.mpr hres)
    have hrearms : rearms c = false := by simp [rearms, hres]
    rw [requests_dispatch, hrearms]
    exact hlast hisLast
  · exact fun d hd => h.posted d (hcq ▸ List.mem_cons_of_mem _ hd)

/-- The consumer is neither suspended in `next` nor about to resume there. -/
def idle : Phase → Bool
  | .user | .draining | .freeing | .returned => true
  | _ => false

theorem Ledger.of_idle
    {s s' : State} (h : Ledger s) (hp : idle s'.phase = true)
    (hlaw : s'.returned ++ s'.discarded ++ s'.object.pending =
      pairs s'.dispatched)
    (hopened : consuming s'.phase = true → s'.discarded = [])
    (hwaiter : s'.object.waiter = false)
    (herror : s'.object.error ≠ 0 → Final s ∨ s'.stop = true)
    (hfinal : ∀ c ∈ s.dispatched, c.res ≤ 0 → s'.object.error = code c.res)
    (hdispatched : s'.dispatched = s.dispatched)
    (hrequests : s'.requests = s.requests) (hring : s'.ring = s.ring) :
    Ledger s' := by
  have hsame : Final s' ↔ Final s := by rw [Final, Final, hdispatched]
  refine ⟨hlaw, hopened, ?_, ?_, ?_, ?_, hdispatched ▸ hfinal,
    hrequests ▸ h.tidy, ?_, hring ▸ h.posted⟩
  · refine iff_of_false (by simp [hwaiter]) ?_
    rintro ⟨caller, hphase⟩
    simp [hphase, idle] at hp
  · intro caller hphase
    simp [hphase, idle] at hp
  · intro caller hphase
    simp [hphase, idle] at hp
  · rwa [hsame]
  · rw [hsame, hrequests]
    exact h.gone

theorem Ledger.settle_value
    {s : State} {caller : Caller} {item : PendingItem}
    {rest : List PendingItem} (h : Ledger s)
    (hpending : s.object.pending = item :: rest)
    (hwaiter : s.object.waiter = false)
    (hcaller : caller = .user → s.discarded = []) :
    Ledger (settle s caller ({ s.object with pending := rest }, .value item)) := by
  have hlaw := h.conserved
  rw [hpending] at hlaw
  cases caller with
  | user =>
      have hnone := hcaller rfl
      refine h.of_idle rfl ?_ (fun _ => hnone) hwaiter h.error h.final rfl rfl
        rfl
      simpa [Stream.settle, hnone] using hlaw
  | destructor =>
      refine h.of_idle rfl ?_ (fun hp => ?_) hwaiter h.error h.final rfl rfl rfl
      · simpa [Stream.settle, Object.returnBuffer] using hlaw
      · cases hp

theorem Ledger.settle_ends
    {s : State} {caller : Caller} {a : Object} {r : Next} (h : Ledger s)
    (hends : Ends r) (hpending : a.pending = s.object.pending)
    (hwaiter : a.waiter = false)
    (herror : a.error ≠ 0 → Final s ∨ s.stop = true)
    (hfinal : ∀ c ∈ s.dispatched, c.res ≤ 0 → a.error = code c.res)
    (hcaller : caller = .user → s.discarded = []) :
    Ledger (settle s caller (a, r)) := by
  have hlaw := h.conserved
  rw [← hpending] at hlaw
  have hsettle : settle s caller (a, r) =
      { s with
        object := a
        phase := if caller = .user then .user else .freeing } := by
    rcases hends with rfl | ⟨error, rfl⟩ <;> cases caller <;> rfl
  rw [hsettle]
  refine h.of_idle ?_ hlaw ?_ hwaiter herror hfinal rfl rfl rfl
  · cases caller <;> rfl
  · cases caller with
    | user => exact fun _ => hcaller rfl
    | destructor => simp [consuming]

theorem Ledger.settle_suspended
    {s : State} {caller : Caller} (h : Ledger s)
    (hpending : s.object.pending = []) (herror : s.object.error = 0)
    (hcaller : caller = .user → s.discarded = []) :
    Ledger (settle s caller
      ({ s.object with waiter := true }, .suspended)) := by
  refine ⟨h.conserved, ?_, ?_, fun _ _ => ⟨hpending, herror⟩, ?_, h.error,
    h.final, h.tidy, h.gone, h.posted⟩
  · cases caller with
    | user => exact fun _ => hcaller rfl
    | destructor => simp [Stream.settle, consuming]
  · simp [Stream.settle]
  · simp [Stream.settle]

/-- A call of `next`, or its rest after the wait. -/
theorem Ledger.settle
    {s : State} {caller : Caller} {r : Object × Next} (h : Ledger s)
    (hpull : Pull s.object s.stop r) (hwaiter : s.object.waiter = false)
    (hcaller : caller = .user → s.discarded = []) :
    Ledger (settle s caller r) := by
  cases hpull with
  | value hpending => exact h.settle_value hpending hwaiter hcaller
  | ended hpending herror =>
      exact h.settle_ends (ends_ofError _) rfl hwaiter h.error h.final hcaller
  | stopped hpending herror hstop =>
      -- the final CQE would have left its code in `error_`
      refine h.settle_ends (.inl rfl) rfl hwaiter (fun _ => .inr hstop) ?_
        hcaller
      intro c hc hres
      exact absurd ((h.final c hc hres).symm.trans herror) code_ne_zero
  | suspended hpending herror hstop =>
      exact h.settle_suspended hpending herror hcaller

/-- The first loop of the destructor, and its cancel. -/
theorem Ledger.destroy
    {s : State} {gotSqe : Bool} (h : Ledger s) (hp : s.phase = .user) :
    Ledger (effect s (.destroy gotSqe)) := by
  have hwaiter := h.no_waiter (by simp [hp])
  have hobject : (effect s (.destroy gotSqe)).object.waiter = false ∧
      (effect s (.destroy gotSqe)).object.error = s.object.error := by
    simp [effect, returnPending_eq, hwaiter]
  refine h.of_idle ?_ ?_ ?_ hobject.1 ?_ ?_ rfl (requests_destroy s gotSqe) rfl
  · simp only [effect]
    split <;> rfl
  · simpa [effect, Object.returnPending] using h.conserved
  · intro hopen
    simp only [effect] at hopen
    split at hopen <;> cases hopen
  · exact fun herror => h.error (hobject.2 ▸ herror)
  · exact fun c hc hres => hobject.2.trans (h.final c hc hres)

theorem Ledger.free
    {s : State} (h : Ledger s) (hp : s.phase = .freeing) :
    Ledger (effect s .free) := by
  have hwaiter := h.no_waiter (by simp [hp])
  refine h.of_idle rfl h.conserved (fun hopen => ?_) hwaiter h.error h.final
    rfl rfl rfl
  cases hopen

theorem same_giveBack (a : Object) (b : ReceivedBuffer) :
    (giveBack a b).pending = a.pending ∧ (giveBack a b).waiter = a.waiter ∧
      (giveBack a b).error = a.error := by
  simp only [giveBack]
  split <;> exact ⟨rfl, rfl, rfl⟩

/-- The steps of the `received_buffer`s. -/
def onHandles : Event → Bool
  | .moveConstruct _ | .moveAssign _ _ | .release _ => true
  | _ => false

theorem same_handles
    (s : State) {e : Event} (he : onHandles e = true) :
    Same s (effect s e) ∧ (effect s e).sqes = s.sqes ∧
      (effect s e).ring = s.ring := by
  have hrefl : Same s s := ⟨rfl, rfl, rfl, rfl, id, rfl, rfl, rfl⟩
  cases e with
  | moveConstruct src =>
      simp only [effect]
      split
      · exact ⟨⟨rfl, rfl, rfl, rfl, id, rfl, rfl, rfl⟩, rfl, rfl⟩
      · exact ⟨hrefl, rfl, rfl⟩
  | moveAssign dst src =>
      simp only [effect]
      split
      · exact ⟨hrefl, rfl, rfl⟩
      · split
        next old b _ _ =>
          obtain ⟨hpending, hwaiter, herror⟩ := same_giveBack s.object old
          exact ⟨⟨hpending, hwaiter, herror, rfl, id, rfl, rfl, rfl⟩, rfl, rfl⟩
        next => exact ⟨hrefl, rfl, rfl⟩
  | release i =>
      simp only [effect]
      split
      next b _ =>
        obtain ⟨hpending, hwaiter, herror⟩ := same_giveBack s.object b
        exact ⟨⟨hpending, hwaiter, herror, rfl, id, rfl, rfl, rfl⟩, rfl, rfl⟩
      next => exact ⟨hrefl, rfl, rfl⟩
  | _ => cases he

theorem requests_handles
    (s : State) {e : Event} (he : onHandles e = true) :
    (effect s e).requests = s.requests := by
  obtain ⟨-, hsqes, hring⟩ := same_handles s he
  rw [State.requests, State.requests, hsqes, hring]

theorem Ledger.handles
    {s : State} {e : Event} (h : Ledger s) (he : onHandles e = true) :
    Ledger (effect s e) := by
  obtain ⟨hsame, -, hring⟩ := same_handles s he
  have hrequests := requests_handles s he
  exact h.of_same hsame (hrequests ▸ h.tidy) (hrequests ▸ h.gone)
    (hring ▸ h.posted)

theorem Ledger.post
    {s : State} {c : Cqe} (h : Ledger s) (harmed : 0 < s.ring.armed)
    (hmore : c.more = true → 0 < c.res) : Ledger (effect s (.post c)) := by
  have hsame : Same s (effect s (.post c)) := by
    simp only [effect]
    cases c.buffer <;> exact ⟨rfl, rfl, rfl, rfl, id, rfl, rfl, rfl⟩
  have hrequests : (effect s (.post c)).requests =
      s.requests.post c c.isLast := requests_post harmed
  refine h.of_same hsame ?_ (fun hfinal => ?_) ?_
  · rw [hrequests]
    exact h.tidy.post (Nat.add_pos_left harmed _) rfl
  · have hgone := congrArg Requests.armed (h.gone hfinal)
    simp only [State.requests] at hgone
    omega
  · intro d hd
    rcases List.mem_append.mp hd with hd | hd
    · exact h.posted d hd
    · exact List.mem_singleton.mp hd ▸ hmore

theorem Ledger.consume
    {s : State} (h : Ledger s) (he : s.sqes ≠ []) :
    Ledger (effect s .consume) := by
  obtain ⟨sqe, sqes, hsqes⟩ := List.exists_cons_of_ne_nil he
  have hsame : Same s (effect s .consume) := by
    simp only [effect, hsqes]
    exact ⟨rfl, rfl, rfl, rfl, id, rfl, rfl, rfl⟩
  have hposted : ∀ c ∈ (effect s .consume).ring.cq,
      c.more = true → 0 < c.res := by
    simp only [effect, hsqes]
    cases sqe with
    | recv => exact h.posted
    | cancel =>
        simp only [execute]
        split
        · intro c hc
          rcases List.mem_append.mp hc with hc | hc
          · exact h.posted c hc
          · obtain rfl := List.mem_singleton.mp hc
            simp [canceledCqe]
        · exact h.posted
  rcases requests_consume hsqes with hrequests | ⟨harmed, hrequests⟩
  · exact h.of_same hsame (hrequests ▸ h.tidy) (hrequests ▸ h.gone) hposted
  · refine h.of_same hsame ?_ (fun hfinal => ?_) hposted
    · rw [hrequests]
      exact h.tidy.post (Nat.add_pos_left harmed _) rfl
    · have hgone := congrArg Requests.armed (h.gone hfinal)
      simp only [State.requests] at hgone
      omega

theorem ledger_effect
    {s : State} {e : Event} (h : Ledger s) (he : enabled s e) :
    Ledger (effect s e) := by
  cases e with
  | post c => exact h.post he.1 he.2
  | consume => exact h.consume he
  | drain gotSqe =>
      obtain ⟨c, ring, htake⟩ := Requests.exists_take he.1
      simp only [effect, htake]
      exact h.dispatch htake
  | next =>
      refine h.settle (pull_next _ _) (h.no_waiter ?_) fun _ => h.opened ?_
      · simp [show s.phase = .user from he]
      · simp [show s.phase = .user from he, consuming]
  | resume =>
      obtain ⟨caller, hp⟩ := he
      simp only [effect, hp]
      refine h.settle (pull_afterWait (h.woken caller hp))
        (h.no_waiter (by simp [hp])) ?_
      rintro rfl
      exact h.opened (by simp [hp, consuming])
  | moveConstruct src => exact h.handles rfl
  | moveAssign dst src => exact h.handles rfl
  | release i => exact h.handles rfl
  | destroy gotSqe => exact h.destroy he
  | drainLoop =>
      refine h.settle (pull_next _ _) (h.no_waiter ?_) (by simp)
      simp [show s.phase = .draining from he]
  | free => exact h.free he
  | requestStop =>
      exact h.of_same ⟨rfl, rfl, rfl, rfl, fun _ => rfl, rfl, rfl, rfl⟩ h.tidy
        h.gone h.posted

theorem ledger_of_reachable
    {bufSize bufCount : ℕ} {s : State}
    (h : (machine bufSize bufCount).Reachable s) : Ledger s := by
  refine Machine.Reachable.invariant ?_ ?_ h
  · intro s hs
    exact eq_initial_of_init hs ▸ ledger_initial _
  · intro s e _ hI he
    exact ledger_effect hI he

/-! ## The outstanding request -/

/-- A re-arm obtains an SQE. -/
def Rearms (s : State) : Event → Prop
  | .drain gotSqe =>
      ∀ c ring, s.ring.take? = some (c, ring) → rearms c = true →
        gotSqe = true
  | _ => True

/-- One request is outstanding, as long as the final CQE has not been
dispatched. -/
def Outstanding (s : State) : Prop :=
  ¬Final s → s.requests.outstanding Cqe.isLast = 1

theorem outstanding_dispatch
    {s : State} {c : Cqe} {gotSqe : Bool} {ring : Requests Cqe}
    (h : Outstanding s) (htake : s.ring.take? = some (c, ring))
    (hgot : rearms c = true → gotSqe = true) :
    Outstanding (dispatch s c gotSqe ring) := by
  intro hfinal
  rw [final_dispatched_iff rfl, not_or] at hfinal
  have hone := h hfinal.1
  rw [Requests.outstanding_take (requests_take htake)] at hone
  rw [requests_dispatch]
  cases hmore : c.more with
  | true =>
      -- the request goes on
      simpa [rearms, hmore, Cqe.isLast] using hone
  | false =>
      have hrearms : rearms c = true := by
        simp [rearms, hmore, not_le.mp hfinal.2]
      rw [hrearms, hgot hrearms, Bool.and_self, if_pos rfl,
        Requests.outstanding_arm]
      simpa [Cqe.isLast, hmore] using hone

theorem Outstanding.of_requests
    {s s' : State} (h : Outstanding s)
    (hdispatched : s'.dispatched = s.dispatched)
    (hrequests : s'.requests = s.requests) : Outstanding s' := by
  intro hfinal
  rw [hrequests]
  refine h fun hold => hfinal ?_
  rwa [Final, hdispatched]

theorem settle_stream (s : State) (caller : Caller) (r : Object × Next) :
    (settle s caller r).dispatched = s.dispatched ∧
      (settle s caller r).requests = s.requests := by
  simp only [settle]
  split <;> exact ⟨rfl, rfl⟩

theorem outstanding_effect
    {s : State} {e : Event} (h : Outstanding s) (he : enabled s e)
    (hguard : Rearms s e) : Outstanding (effect s e) := by
  cases e with
  | post c =>
      have hrequests : (effect s (.post c)).requests =
          s.requests.post c c.isLast := requests_post he.1
      intro hfinal
      rw [hrequests, Requests.outstanding_post (Nat.add_pos_left he.1 _) rfl]
      exact h hfinal
  | consume =>
      obtain ⟨sqe, sqes, hsqes⟩ := List.exists_cons_of_ne_nil he
      have hdispatched : (effect s .consume).dispatched = s.dispatched := by
        simp only [effect, hsqes]
      rcases requests_consume hsqes with hrequests | ⟨harmed, hrequests⟩
      · exact h.of_requests hdispatched hrequests
      · have hlast : canceledCqe.isLast = true := rfl
        intro hfinal
        rw [hrequests,
          Requests.outstanding_post (Nat.add_pos_left harmed _) hlast]
        exact h (by rwa [Final, hdispatched] at hfinal)
  | drain gotSqe =>
      obtain ⟨c, ring, htake⟩ := Requests.exists_take he.1
      simp only [effect, htake]
      exact outstanding_dispatch h htake (hguard c ring htake)
  | next | drainLoop =>
      obtain ⟨hdispatched, hrequests⟩ := settle_stream s _ (s.object.next s.stop)
      exact h.of_requests hdispatched hrequests
  | resume =>
      obtain ⟨caller, hp⟩ := he
      obtain ⟨hdispatched, hrequests⟩ :=
        settle_stream s caller s.object.afterWait
      simp only [effect, hp]
      exact h.of_requests hdispatched hrequests
  | moveConstruct src =>
      exact h.of_requests (same_handles s rfl).1.dispatched
        (requests_handles s rfl)
  | moveAssign dst src =>
      exact h.of_requests (same_handles s rfl).1.dispatched
        (requests_handles s rfl)
  | release i =>
      exact h.of_requests (same_handles s rfl).1.dispatched
        (requests_handles s rfl)
  | destroy gotSqe => exact h.of_requests rfl (requests_destroy s gotSqe)
  | free => exact h.of_requests rfl rfl
  | requestStop => exact h.of_requests rfl rfl

theorem outstanding_of_rearms
    {bufSize bufCount : ℕ} {s : State}
    (h : (machine bufSize bufCount).ReachableUnder Rearms s) :
    Outstanding s := by
  refine Machine.ReachableUnder.invariant ?_ ?_ h
  · intro s hs
    rw [eq_initial_of_init hs]
    exact fun _ => rfl
  · intro s e _ hI he hguard
    exact outstanding_effect hI he hguard

/-! ## The theorem on the byte stream -/

/-- What the call of `next` that a step carries on reports. -/
def report (s : State) : Event → Option Next
  | .next | .drainLoop => some (s.object.next s.stop).2
  | .resume =>
      match s.phase with
      | .woken _ => some s.object.afterWait.2
      | _ => none
  | _ => none

theorem Ledger.pull_of_report
    {s : State} {e : Event} {r : Next} (h : Ledger s) (he : enabled s e)
    (hreport : report s e = some r) :
    ∃ a, Pull s.object s.stop (a, r) := by
  cases e with
  | next | drainLoop =>
      obtain rfl := Option.some.inj hreport
      exact ⟨_, pull_next s.object s.stop⟩
  | resume =>
      obtain ⟨caller, hp⟩ := he
      simp only [report, hp, Option.some.injEq] at hreport
      subst hreport
      exact ⟨_, pull_afterWait (h.woken caller hp)⟩
  | _ => cases hreport

theorem ofError_code (res : ℤ) :
    ofError (code res) =
      if res = 0 ∨ res = -enodata ∨ res = -ecanceled ∨ res = -einval then
        .nullopt
      else .throws res := by
  by_cases hzero : res = 0
  · simp [code, ofError, hzero]
  · simp [code, ofError, hzero]

/-- Until the object is destroyed, the pairs returned by `next` and `pending_`
are in this order the pairs of the data CQEs dispatched; in the destructor the
discarded ones come between.  `next` reports the end only when `pending_` is
empty and the final CQE has been dispatched or a stop requested.  When
`pending_` is empty and the final CQE dispatched, the result of this CQE decides
between an end and an exception, and the throw after the wait always has an
error to report.  And as long as re-arms obtain an SQE, exactly one recv
request is outstanding until the final CQE is dispatched. -/
theorem recv_delivers_stream
    (bufSize bufCount : ℕ) (s : State)
    (h : (machine bufSize bufCount).Reachable s) :
    (consuming s.phase = true →
        s.returned ++ s.object.pending = pairs s.dispatched) ∧
      s.returned ++ s.discarded ++ s.object.pending = pairs s.dispatched ∧
      (∀ e r, enabled s e → report s e = some r → Ends r →
        s.object.pending = [] ∧ (Final s ∨ s.stop = true)) ∧
      (∀ e r c, enabled s e → report s e = some r → s.object.pending = [] →
        c ∈ s.dispatched → c.res ≤ 0 →
          r = if c.res = 0 ∨ c.res = -enodata ∨ c.res = -ecanceled ∨
              c.res = -einval then .nullopt else .throws c.res) ∧
      (∀ caller, s.phase = .woken caller → s.object.pending = [] →
        s.object.error ≠ 0) ∧
      ((machine bufSize bufCount).ReachableUnder Rearms s → ¬Final s →
        s.requests.outstanding Cqe.isLast = 1) := by
  have hledger := ledger_of_reachable h
  refine ⟨fun hp => ?_, hledger.conserved, ?_, ?_, ?_, outstanding_of_rearms⟩
  · simpa [hledger.opened hp] using hledger.conserved
  · intro e r he hreport hends
    obtain ⟨a, hpull⟩ := hledger.pull_of_report he hreport
    obtain ⟨hpending, hwhy⟩ := hpull.empty_of_ends hends
    exact ⟨hpending, hwhy.elim hledger.error .inr⟩
  · intro e r c he hreport hpending hc hres
    obtain ⟨a, hpull⟩ := hledger.pull_of_report he hreport
    have herror := hledger.final c hc hres
    rw [← ofError_code, ← herror]
    exact hpull.eq_ofError hpending (herror ▸ code_ne_zero)
  · intro caller hp hpending
    exact (hledger.woken caller hp).resolve_left (not_not.mpr hpending)

/-- Two messages and the end of the stream are dispatched between the wake-up
of the fiber and its resumption; the first message is then returned. -/
theorem recv_delivers_burst :
    ∃ s, (machine 4096 2).Reachable s ∧
      s.returned = ([⟨0, 5⟩] : List PendingItem) ∧
      s.object.pending = ([⟨1, 7⟩] : List PendingItem) ∧
      s.returned ++ s.discarded ++ s.object.pending = pairs s.dispatched := by
  obtain ⟨s, hs, hreturned, hpending⟩ := Machine.exists_reachableUnder_of_exec
    (M := machine 4096 2) (G := fun _ _ => True)
    (P := fun s : State => s.returned = ([⟨0, 5⟩] : List PendingItem) ∧
      s.object.pending = ([⟨1, 7⟩] : List PendingItem))
    (s := initial 2) ⟨true, 1, rfl⟩
    [.next, .post ⟨5, some 0, true⟩, .drain true, .post ⟨7, some 1, true⟩,
      .post ⟨0, none, false⟩, .drain true, .drain true, .resume]
    (by decide)
  exact ⟨s, hs, hreturned, hpending,
    (recv_delivers_stream 4096 2 s hs).2.1⟩

end Fiberexec.Multishot.Recv.Stream
