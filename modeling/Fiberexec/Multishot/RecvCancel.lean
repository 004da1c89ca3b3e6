import Fiberexec.Multishot.RecvOrder

/-!
# The cancel of the receiver's destructor

The destructor issues one cancel and then waits for the end of its request.
`complete` does not know of it: when a data CQE without `F_MORE` is dispatched
after the cancel was issued, the request is armed again, and no cancel is left
for it.  The destructor then waits until the peer sends or closes.  Without
such a CQE the cancel, when it is executed, finds the request armed or ended,
and the destructor waits for a CQE that is there or will be posted.
-/

namespace Fiberexec.Multishot.Recv.Stream

open Support

/-! ## Runs without a re-arm after the cancel -/

/-- The destructor is in its drain loop. -/
def inDrainLoop : Phase → Bool
  | .draining | .waiting .destructor | .woken .destructor => true
  | _ => false

/-- `submit_cancel` and the re-arms obtain their SQE, and no CQE is dispatched
in the drain loop that arms the request again. -/
def CancelsLast (s : State) : Event → Prop
  | .destroy gotSqe => s.object.error = 0 → gotSqe = true
  | .drain gotSqe =>
      ∀ c ∈ s.ring.cq.head?, rearms c = true →
        gotSqe = true ∧ inDrainLoop s.phase = false
  | _ => True

instance (s : State) (e : Event) : Decidable (CancelsLast s e) :=
  match e with
  | .destroy gotSqe =>
      inferInstanceAs (Decidable (s.object.error = 0 → gotSqe = true))
  | .drain gotSqe =>
      inferInstanceAs (Decidable (∀ c ∈ s.ring.cq.head?, rearms c = true →
        gotSqe = true ∧ inDrainLoop s.phase = false))
  | .post _ | .consume | .next | .resume | .moveConstruct _
  | .moveAssign _ _ | .release _ | .drainLoop | .free | .requestStop =>
      .isTrue trivial

theorem CancelsLast.rearms
    {s : State} {e : Event} (h : CancelsLast s e) : Rearms s e := by
  cases e with
  | drain gotSqe =>
      intro c ring htake hrearms
      exact (h c (by simp [Requests.cq_of_take htake]) hrearms).1
  | _ => trivial

/-! ## Where the cancel is -/

theorem settle_phase
    (s : State) (caller : Caller) (r : Object × Next) :
    (consuming (settle s caller r).phase = true → caller = .user) ∧
      (inDrainLoop (settle s caller r).phase = true →
        caller = .destructor) := by
  obtain ⟨a, result⟩ := r
  cases caller <;> cases result <;> simp [settle, consuming, inDrainLoop]

theorem settle_ring (s : State) (caller : Caller) (r : Object × Next) :
    (settle s caller r).sqes = s.sqes ∧ (settle s caller r).ring = s.ring := by
  simp only [settle]
  split <;> exact ⟨rfl, rfl⟩

/-- Before the destructor there is no cancel. -/
def Fresh (s : State) : Prop :=
  consuming s.phase = true → .cancel ∉ s.sqes

theorem Fresh.of_phase
    {s s' : State} (h : Fresh s) (hsqes : s'.sqes = s.sqes)
    (hopen : consuming s'.phase = true → consuming s.phase = true) :
    Fresh s' := by
  intro hp
  rw [hsqes]
  exact h (hopen hp)

theorem fresh_effect
    {s : State} {e : Event} (hledger : Ledger s) (h : Fresh s)
    (he : enabled s e) : Fresh (effect s e) := by
  have hhandles : onHandles e = true → Fresh (effect s e) := by
    intro honHandles
    obtain ⟨hsame, hsqes, -⟩ := same_handles s honHandles
    exact h.of_phase hsqes (hsame.phase ▸ id)
  cases e with
  | post c => exact h
  | consume =>
      obtain ⟨sqe, sqes, hsqes⟩ := List.exists_cons_of_ne_nil he
      simp only [effect, hsqes]
      intro hp hmem
      refine h hp ?_
      rw [hsqes]
      exact List.mem_cons_of_mem _ hmem
  | drain gotSqe =>
      obtain ⟨c, ring, htake⟩ := Requests.exists_take he.1
      simp only [effect, htake]
      intro hp
      have hfresh := h ((hledger.dispatch_phase c gotSqe ring).2 hp)
      simp only [dispatch]
      split
      · simpa using hfresh
      · exact hfresh
  | next =>
      refine h.of_phase (settle_ring ..).1 fun _ => ?_
      simp [show s.phase = .user from he, consuming]
  | resume =>
      obtain ⟨caller, hp⟩ := he
      simp only [effect, hp]
      refine h.of_phase (settle_ring ..).1 fun hopen => ?_
      obtain rfl := (settle_phase s caller _).1 hopen
      simp [hp, consuming]
  | moveConstruct src => exact hhandles rfl
  | moveAssign dst src => exact hhandles rfl
  | release i => exact hhandles rfl
  | destroy gotSqe =>
      intro hp
      simp only [effect] at hp
      split at hp <;> cases hp
  | drainLoop =>
      refine h.of_phase (settle_ring ..).1 fun hopen => ?_
      exact absurd ((settle_phase s .destructor _).1 hopen) (by simp)
  | free => exact fun hp => by cases hp
  | requestStop => exact h

theorem fresh_of_reachable
    {bufSize bufCount : ℕ} {s : State}
    (h : (machine bufSize bufCount).Reachable s) : Fresh s := by
  refine Machine.Reachable.invariant ?_ ?_ h
  · intro s hs
    rw [eq_initial_of_init hs]
    simp [Fresh, initial]
  · intro s e hs hI he
    exact fresh_effect (ledger_of_reachable hs) hI he

/-- In the drain loop the cancel waits in the ring behind every request, or it
was executed and the last CQE of the request is posted. -/
def Issued (s : State) : Prop :=
  inDrainLoop s.phase = true →
    (∃ sqes, s.sqes = sqes ++ [.cancel] ∧ .cancel ∉ sqes) ∨
      (∃ c ∈ s.ring.cq, c.isLast = true) ∨ Final s

theorem Issued.of_phase
    {s s' : State} (h : Issued s) (hsqes : s'.sqes = s.sqes)
    (hring : s'.ring = s.ring) (hdispatched : s'.dispatched = s.dispatched)
    (hloop : inDrainLoop s'.phase = true → inDrainLoop s.phase = true) :
    Issued s' := by
  intro hp
  rw [hsqes, hring, Final, hdispatched]
  exact h (hloop hp)

theorem Issued.settle
    {s : State} {caller : Caller} {r : Object × Next} (h : Issued s)
    (hcaller : caller = .destructor → inDrainLoop s.phase = true) :
    Issued (settle s caller r) := by
  obtain ⟨hsqes, hring⟩ := settle_ring s caller r
  exact h.of_phase hsqes hring (settle_stream s caller r).1
    fun hp => hcaller ((settle_phase s caller r).2 hp)

theorem Ledger.dispatch_loop
    {s : State} (h : Ledger s) (c : Cqe) (gotSqe : Bool)
    (ring : Requests Cqe)
    (hp : inDrainLoop (Stream.dispatch s c gotSqe ring).phase = true) :
    inDrainLoop s.phase = true := by
  rcases h.fulfilled with ⟨caller, hwaiting, hphase⟩ | ⟨-, hphase⟩
  · simp only [Stream.dispatch, hphase] at hp
    rw [hwaiting]
    cases caller
    · cases hp
    · rfl
  · simpa only [Stream.dispatch, hphase] using hp

/-- What is dispatched in the drain loop is the final CQE, or it keeps the
request armed. -/
theorem Issued.dispatch
    {s : State} {c : Cqe} {gotSqe : Bool} {ring : Requests Cqe}
    (hledger : Ledger s) (h : Issued s)
    (htake : s.ring.take? = some (c, ring))
    (hguard : CancelsLast s (.drain gotSqe)) :
    Issued (dispatch s c gotSqe ring) := by
  have hcq := Requests.cq_of_take htake
  intro hp
  have hloop := hledger.dispatch_loop c gotSqe ring hp
  have hrearms : rearms c = false := by
    by_contra htrue
    have hout := (hguard c (by simp [hcq]) (by simpa using htrue)).2
    simp [hloop] at hout
  have hsqes : (Stream.dispatch s c gotSqe ring).sqes = s.sqes := by
    simp [Stream.dispatch, hrearms]
  rw [hsqes]
  by_cases hres : c.res ≤ 0
  · exact .inr (.inr ((final_dispatched_iff rfl).mpr (.inr hres)))
  · have hlast : c.isLast = false := by
      simpa [rearms, Cqe.isLast, not_le.mp hres] using hrearms
    rcases h hloop with hwaits | ⟨d, hd, hdlast⟩ | hfinal
    · exact .inl hwaits
    · refine .inr (.inl ⟨d, ?_, hdlast⟩)
      rw [hcq] at hd
      rcases List.mem_cons.mp hd with rfl | hd
      · simp [hlast] at hdlast
      · exact hd
    · exact .inr (.inr ((final_dispatched_iff rfl).mpr (.inl hfinal)))

theorem mem_execute
    {ring : Requests Cqe} {sqe : Sqe} {c : Cqe} (h : c ∈ ring.cq) :
    c ∈ (execute ring sqe).cq := by
  cases sqe with
  | recv => exact h
  | cancel =>
      simp only [execute]
      split
      · exact List.mem_append_left _ h
      · exact h

/-- A cancel that finds no request armed comes after the last CQE. -/
theorem exists_last_of_cancel
    {s : State} (h : Outstanding s) (hsqes : s.sqes = [.cancel]) :
    (∃ c ∈ (execute s.ring .cancel).cq, c.isLast = true) ∨ Final s := by
  by_cases harmed : 0 < s.ring.armed
  · refine .inl ⟨canceledCqe, ?_, rfl⟩
    simp [execute, harmed, Requests.post]
  · by_cases hfinal : Final s
    · exact .inr hfinal
    · have hone := h hfinal
      have hnone : s.sqes.count .recv = 0 := by simp [hsqes]
      simp only [State.requests, Requests.outstanding, hnone] at hone
      have hpos : 0 < s.ring.cq.countP Cqe.isLast := by omega
      obtain ⟨c, hc, hlast⟩ := List.countP_pos_iff.mp hpos
      exact .inl ⟨c, mem_execute hc, hlast⟩

theorem Issued.consume
    {s : State} (h : Issued s) (houtstanding : Outstanding s)
    (he : s.sqes ≠ []) : Issued (effect s .consume) := by
  obtain ⟨sqe, sqes, hsqes⟩ := List.exists_cons_of_ne_nil he
  simp only [effect, hsqes]
  intro hp
  rcases h hp with ⟨front, hfront, hnot⟩ | ⟨c, hc, hlast⟩ | hfinal
  · cases front with
    | cons first rest =>
        rw [hsqes, List.cons_append, List.cons.injEq] at hfront
        exact .inl ⟨rest, hfront.2,
          fun hmem => hnot (List.mem_cons_of_mem _ hmem)⟩
    | nil =>
        obtain ⟨rfl, rfl⟩ := List.cons.inj (hsqes.symm.trans hfront)
        exact .inr (exists_last_of_cancel houtstanding hsqes)
  · exact .inr (.inl ⟨c, mem_execute hc, hlast⟩)
  · exact .inr (.inr hfinal)

theorem issued_effect
    {s : State} {e : Event} (hledger : Ledger s) (hfresh : Fresh s)
    (houtstanding : Outstanding s) (h : Issued s) (he : enabled s e)
    (hguard : CancelsLast s e) : Issued (effect s e) := by
  have hhandles : onHandles e = true → Issued (effect s e) := by
    intro honHandles
    obtain ⟨hsame, hsqes, hring⟩ := same_handles s honHandles
    exact h.of_phase hsqes hring hsame.dispatched (hsame.phase ▸ id)
  cases e with
  | post c =>
      intro hp
      rcases h hp with hwaits | ⟨d, hd, hlast⟩ | hfinal
      · exact .inl hwaits
      · exact .inr (.inl ⟨d, List.mem_append_left _ hd, hlast⟩)
      · exact .inr (.inr hfinal)
  | consume => exact h.consume houtstanding he
  | drain gotSqe =>
      obtain ⟨c, ring, htake⟩ := Requests.exists_take he.1
      simp only [effect, htake]
      exact h.dispatch hledger htake hguard
  | next => exact h.settle (by simp)
  | resume =>
      obtain ⟨caller, hp⟩ := he
      simp only [effect, hp]
      refine h.settle ?_
      rintro rfl
      rw [hp]
      rfl
  | moveConstruct src => exact hhandles rfl
  | moveAssign dst src => exact hhandles rfl
  | release i => exact hhandles rfl
  | destroy gotSqe =>
      have hnone := hfresh (by simp [show s.phase = .user from he, consuming])
      intro hp
      by_cases herror : s.object.error = 0
      · have hgot : gotSqe = true := hguard herror
        exact .inl ⟨s.sqes, by simp [effect, herror, hgot], hnone⟩
      · simp [effect, herror, inDrainLoop] at hp
  | drainLoop =>
      refine h.settle fun _ => ?_
      simp [show s.phase = .draining from he, inDrainLoop]
  | free => exact fun hp => by cases hp
  | requestStop => exact h

theorem issued_of_cancelsLast
    {bufSize bufCount : ℕ} {s : State}
    (h : (machine bufSize bufCount).ReachableUnder CancelsLast s) :
    Issued s := by
  refine Machine.ReachableUnder.invariant ?_ ?_ h
  · intro s hs
    rw [eq_initial_of_init hs]
    simp [Issued, initial, inDrainLoop]
  · intro s e hs hI he hguard
    exact issued_effect (ledger_of_reachable hs.reachable)
      (fresh_of_reachable hs.reachable)
      (outstanding_of_rearms (hs.mono fun _ _ hg => hg.rearms)) hI he hguard

/-! ## A re-arm after the cancel -/

/-- The destructor can come to wait while the ring stays as it is. -/
def ReachesWaiting (bufSize bufCount : ℕ) (s : State) : Prop :=
  ∃ s', (machine bufSize bufCount).Reaches s s' ∧
    s'.phase = .waiting .destructor ∧ s'.ring = s.ring ∧ s'.sqes = s.sqes

/-- A message of the drain loop gives its buffer back and leaves the ring as it
is. -/
theorem ReachesWaiting.of_value
    {bufSize bufCount : ℕ} {s : State} {e : Event} {item : PendingItem}
    {items : List PendingItem} (he : enabled s e)
    (hstep : effect s e =
      settle s .destructor ({ s.object with pending := items }, .value item))
    (h : ReachesWaiting bufSize bufCount (settle s .destructor
      ({ s.object with pending := items }, .value item))) :
    ReachesWaiting bufSize bufCount s := by
  obtain ⟨s', hs', hwaiting, hring, hsqes⟩ := h
  rw [← hstep] at hs'
  exact ⟨s', Machine.Reaches.head (M := machine bufSize bufCount) he hs',
    hwaiting, hring, hsqes⟩

/-- With no error and no stop the destructor empties `pending_` and waits. -/
theorem reachesWaiting_of_draining
    (bufSize bufCount : ℕ) (items : List PendingItem) {s : State}
    (hp : s.phase = .draining) (hpending : s.object.pending = items)
    (herror : s.object.error = 0) (hstop : s.stop = false) :
    ReachesWaiting bufSize bufCount s := by
  induction items generalizing s with
  | nil =>
      have hloop : effect s .drainLoop =
          { s with
            object := { s.object with waiter := true }
            phase := .waiting .destructor } := by
        simp [effect, Object.next, hpending, herror, hstop, settle]
      refine ⟨effect s .drainLoop, Machine.Reaches.single
        (M := machine bufSize bufCount) (e := .drainLoop) hp, ?_⟩
      rw [hloop]
      exact ⟨rfl, rfl, rfl⟩
  | cons item items ih =>
      have hloop : effect s .drainLoop = settle s .destructor
          ({ s.object with pending := items }, .value item) := by
        simp [effect, Object.next, hpending]
      exact .of_value (e := .drainLoop) hp hloop (ih rfl rfl herror hstop)

/-- A destructor that is woken for a message returns its buffer, and those of
the messages after it, and waits again. -/
theorem reachesWaiting_of_woken
    (bufSize bufCount : ℕ) {s : State} (hp : s.phase = .woken .destructor)
    (hpending : s.object.pending ≠ []) (herror : s.object.error = 0)
    (hstop : s.stop = false) : ReachesWaiting bufSize bufCount s := by
  obtain ⟨item, items, hcons⟩ := List.exists_cons_of_ne_nil hpending
  have hresume : effect s .resume = settle s .destructor
      ({ s.object with pending := items }, .value item) := by
    simp [effect, hp, Object.afterWait, hcons]
  refine .of_value (e := .resume) ⟨.destructor, hp⟩ hresume ?_
  exact reachesWaiting_of_draining bufSize bufCount items rfl rfl herror hstop

/-- A data CQE without `F_MORE` that is dispatched in the drain loop leaves the
destructor waiting on a request that no cancel follows. -/
theorem waits_on_rearmed
    {bufSize bufCount : ℕ} {s : State} {c : Cqe} {ring : Requests Cqe}
    (hs : (machine bufSize bufCount).Reachable s)
    (he : enabled s (.drain true)) (htake : s.ring.take? = some (c, ring))
    (hrearms : rearms c = true) (hloop : inDrainLoop s.phase = true)
    (hstop : s.stop = false) :
    ∃ s', (machine bufSize bufCount).Reaches (effect s (.drain true)) s' ∧
      s'.phase = .waiting .destructor ∧ s'.ring.cq = [] ∧
        s'.sqes.getLast? = some .recv := by
  have hledger := ledger_of_reachable hs
  have hdata : 0 < c.res ∧ c.isLast = true := by
    simp only [rearms, Bool.and_eq_true, decide_eq_true_eq] at hrearms
    exact ⟨hrearms.2, hrearms.1⟩
  have hrequests := requests_take htake
  have hfinal : ¬Final s := by
    intro hfinal
    rw [hledger.gone hfinal] at hrequests
    cases hrequests
  have herror : s.object.error = 0 := by
    by_contra hne
    rcases hledger.error hne with h | h
    · exact hfinal h
    · simp [hstop] at h
  have hcq : ring.cq = [] :=
    congrArg Requests.cq ((hledger.tidy.take hrequests).2 hdata.2)
  have heffect : effect s (.drain true) = dispatch s c true ring := by
    simp [effect, htake]
  have hphase : (dispatch s c true ring).phase = .woken .destructor := by
    rcases hledger.fulfilled with ⟨caller, hwaiting, hphase⟩ | ⟨hnot, hphase⟩
    · simp only [dispatch, hphase]
      cases caller
      · simp [hwaiting, inDrainLoop] at hloop
      · rfl
    · simp only [dispatch, hphase]
      cases hp : s.phase with
      | woken caller =>
          cases caller
          · simp [hp, inDrainLoop] at hloop
          · rfl
      | draining => exact absurd hp he.2.1
      | waiting caller => exact absurd hp (hnot caller)
      | user | freeing | returned => simp [hp, inDrainLoop] at hloop
  rw [heffect]
  obtain ⟨s', hs', hwaiting, hring, hsqes⟩ :=
    reachesWaiting_of_woken bufSize bufCount hphase
      (by simp [dispatch, complete_of_data hdata.1])
      (by simp [dispatch, complete_of_data hdata.1, herror]) hstop
  refine ⟨s', hs', hwaiting, ?_, ?_⟩
  · rw [hring]
    exact hcq
  · rw [hsqes]
    simp [dispatch, hrearms]

theorem waits_without_cancel
    {bufSize bufCount : ℕ} {s : State}
    (hs : (machine bufSize bufCount).Reachable s) (hp : s.phase = .user)
    (herror : s.object.error = 0) (hstop : s.stop = false)
    (hcq : s.ring.cq = []) :
    ∃ s', (machine bufSize bufCount).Reaches (effect s (.destroy false)) s' ∧
      s'.phase = .waiting .destructor ∧ s'.ring.cq = [] ∧
        .cancel ∉ s'.sqes := by
  have hfresh := fresh_of_reachable hs (by simp [hp, consuming])
  obtain ⟨s', hs', hwaiting, hring, hsqes⟩ :=
    reachesWaiting_of_draining bufSize bufCount []
      (s := effect s (.destroy false))
      (by simp [effect, herror]) (by simp [effect, returnPending_eq])
      (by simp [effect, returnPending_eq, herror]) hstop
  refine ⟨s', hs', hwaiting, ?_, ?_⟩
  · rw [hring]
    exact hcq
  · rw [hsqes]
    simpa [effect] using hfresh

/-! ## The theorem on the cancel -/

/-- In every run in which `submit_cancel` and the re-arms obtain their SQE and
no data CQE without `F_MORE` is dispatched in the drain loop, a CQE is undrained
whenever the destructor waits in its draining `next`, or the newest SQE in the
ring is its cancel, which the kernel executes after every request was armed.
And if such a CQE is dispatched and no stop requested, the destructor can come
to wait with no CQE undrained on a request that was armed after the cancel;
likewise if the cancel obtains no SQE. -/
theorem recv_destructor_waits_on_cancelled_request
    (bufSize bufCount : ℕ) (s : State) :
    ((machine bufSize bufCount).ReachableUnder CancelsLast s →
        s.phase = .waiting .destructor →
          s.ring.cq ≠ [] ∨ s.sqes.getLast? = some .cancel) ∧
      (∀ c ring, (machine bufSize bufCount).Reachable s →
        enabled s (.drain true) → s.ring.take? = some (c, ring) →
        rearms c = true → inDrainLoop s.phase = true → s.stop = false →
          ∃ s', (machine bufSize bufCount).Reaches
              (effect s (.drain true)) s' ∧
            s'.phase = .waiting .destructor ∧ s'.ring.cq = [] ∧
              s'.sqes.getLast? = some .recv) ∧
      ((machine bufSize bufCount).Reachable s → s.phase = .user →
        s.object.error = 0 → s.stop = false → s.ring.cq = [] →
          ∃ s', (machine bufSize bufCount).Reaches
              (effect s (.destroy false)) s' ∧
            s'.phase = .waiting .destructor ∧ s'.ring.cq = [] ∧
              .cancel ∉ s'.sqes) := by
  refine ⟨fun h hp => ?_, fun c ring => waits_on_rearmed,
    waits_without_cancel⟩
  have hledger := ledger_of_reachable h.reachable
  have hfinal : ¬Final s := by
    rintro ⟨c, hc, hres⟩
    exact code_ne_zero ((hledger.final c hc hres).symm.trans
      (hledger.waiting .destructor hp).2)
  rcases issued_of_cancelsLast h (by simp [hp, inDrainLoop]) with
    ⟨sqes, hsqes, -⟩ | ⟨c, hc, -⟩ | h
  · exact .inr (by simp [hsqes])
  · exact .inl (List.ne_nil_of_mem hc)
  · exact absurd h hfinal

/-- A message is undrained when the object is destroyed; the destructor waits
with the cancel in the ring. -/
theorem recv_destructor_waits_behind_cancel :
    ∃ s, (machine 4096 2).ReachableUnder CancelsLast s ∧
      s.phase = .waiting .destructor ∧ s.ring.cq = [] ∧
      s.sqes.getLast? = some .cancel := by
  obtain ⟨s, hs, hp, hcq⟩ := Machine.exists_reachableUnder_of_exec
    (M := machine 4096 2) (G := CancelsLast)
    (P := fun s : State => s.phase = .waiting .destructor ∧ s.ring.cq = [])
    (s := initial 2) ⟨true, 1, rfl⟩
    [.post ⟨5, some 0, true⟩, .destroy true, .drainLoop, .drain true, .resume,
      .drainLoop]
    (by decide)
  have hcancel :=
    (recv_destructor_waits_on_cancelled_request 4096 2 s).1 hs hp
  exact ⟨s, hs, hp, hcq, hcancel.resolve_left (not_not.mpr hcq)⟩

/-- A data CQE without `F_MORE` is undrained when the object is destroyed, and
the cancel finds no request.  `complete` then arms the request again, and the
destructor waits on it with no cancel left. -/
theorem recv_destructor_waits_on_rearmed_request :
    ∃ s, (machine 4096 2).Reachable s ∧ s.stop = false ∧
      s.phase = .waiting .destructor ∧ s.ring = ⟨1, []⟩ ∧ s.sqes = [] :=
  Machine.exists_reachableUnder_of_exec
    (M := machine 4096 2) (G := fun _ _ => True)
    (P := fun s : State => s.stop = false ∧
      s.phase = .waiting .destructor ∧ s.ring = ⟨1, []⟩ ∧ s.sqes = [])
    (s := initial 2) ⟨true, 1, rfl⟩
    [.post ⟨5, some 0, false⟩, .destroy true, .consume, .drainLoop,
      .drain true, .resume, .drainLoop, .consume]
    (by decide)

end Fiberexec.Multishot.Recv.Stream
