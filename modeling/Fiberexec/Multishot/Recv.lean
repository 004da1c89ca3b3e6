import Fiberexec.Multishot.Acceptor

/-!
# The multishot receiver

`multishot_recv` holds one recv request and the buffer ring from which the
kernel selects a buffer for each message.  As for the acceptor, `complete` runs
in `drain_cqes` and the rest in the consumer fiber.  The destructor frees the
buffer ring, and the kernel may write into a buffer as long as the request is
armed.
-/

namespace Fiberexec.Multishot

open Support

namespace Recv

/-! ## The object -/

/-- `pending_item`. -/
structure PendingItem where
  bufId : ℕ
  size : ℕ
  deriving DecidableEq

/-- The data members of `multishot_recv` that change.  `waiter` tells whether
`waiter_` holds a promise, and `bufRing` holds the ids of the buffers in the
buffer ring, or `none` when `buf_ring_` is null. -/
structure Object where
  pending : List PendingItem
  waiter : Bool
  error : ℤ
  bufRing : Option (List ℕ)
  deriving DecidableEq

/-- `multishot_recv::return_buffer`. -/
def Object.returnBuffer (a : Object) (bufId : ℕ) : Object :=
  { a with bufRing := a.bufRing.map (fun ids => ids ++ [bufId]) }

/-- The buffer is in the ring, where the kernel can select it. -/
def Object.provides (a : Object) (bufId : ℕ) : Prop :=
  bufId ∈ a.bufRing.getD []

instance (a : Object) (bufId : ℕ) : Decidable (a.provides bufId) :=
  inferInstanceAs (Decidable (bufId ∈ a.bufRing.getD []))

/-- The kernel takes a buffer out of the ring. -/
def Object.selectBuffer (a : Object) (bufId : ℕ) : Object :=
  { a with bufRing := a.bufRing.map (fun ids => ids.erase bufId) }

/-- The last completion of a request: any result, with the id of the buffer
the kernel selected if it selected one. -/
structure Last where
  res : ℤ
  buffer : Option ℕ
  deriving DecidableEq

/-- The branch of `multishot_recv::complete` for `res > 0`. -/
def Object.completeData (a : Object) (item : PendingItem) : Object :=
  { a with pending := a.pending ++ [item], waiter := false }

/-- The other branch: an end of file or an error. -/
def Object.completeFinal (a : Object) (res : ℤ) (buffer : Option ℕ) : Object :=
  { (match buffer with
      | some bufId => a.returnBuffer bufId
      | none => a) with
    error := if res = 0 then -enodata else res
    waiter := false }

/-- `multishot_recv::complete` on the last completion of a request, apart from
the promise and the re-arm. -/
def Object.completeLast (a : Object) (c : Last) : Object :=
  if 0 < c.res then
    -- the flags of a CQE without a buffer have 0 in place of an id
    a.completeData ⟨c.buffer.getD 0, c.res.toNat⟩
  else a.completeFinal c.res c.buffer

/-- How a call of `next` leaves its fiber. -/
inductive Next
  | value (item : PendingItem)
  | nullopt
  /-- `std::system_error` -/
  | throws (error : ℤ)
  /-- in `future.get()` -/
  | suspended
  deriving DecidableEq

/-- What `next` makes of `error_`. -/
def ofError (error : ℤ) : Next :=
  if error = -enodata ∨ error = -ecanceled ∨ error = -einval then .nullopt
  else .throws error

/-- `multishot_recv::next` up to its suspension. -/
def Object.next (a : Object) (stop : Bool) : Object × Next :=
  match a.pending with
  | item :: rest => ({ a with pending := rest }, .value item)
  | [] =>
      if a.error ≠ 0 then (a, ofError a.error)
      else if stop = true then ({ a with error := -ecanceled }, .nullopt)
      else ({ a with waiter := true }, .suspended)

/-- `multishot_recv::next` after its suspension. -/
def Object.afterWait (a : Object) : Object × Next :=
  match a.pending with
  | item :: rest => ({ a with pending := rest }, .value item)
  | [] => (a, ofError a.error)

/-! ## The system -/

/-- Where the consumer fiber stands. -/
inductive Phase
  /-- in the user's code -/
  | user
  | waiting (caller : Caller)
  /-- the promise of `next` is fulfilled, the fiber not yet resumed -/
  | woken (caller : Caller)
  /-- at the head of the drain loop of the destructor -/
  | draining
  /-- the destructor is about to free the buffer ring -/
  | freeing
  /-- `~multishot_recv` has returned -/
  | returned
  deriving DecidableEq

/-- The object, its recv request, the consumer fiber with the
`received_buffer`s it holds, and its stop token. -/
structure State where
  object : Object
  request : Multishot PendingItem Last
  handles : List ℕ
  stop : Bool
  phase : Phase

/-- The atomic steps. -/
inductive Event
  /-- the kernel posts a data CQE and keeps the request armed -/
  | post (item : PendingItem)
  /-- the kernel posts a CQE without `F_MORE` -/
  | finish (c : Last)
  /-- `drain_cqes` hands the next CQE to `complete`; `gotSqe` tells whether a
  re-arm obtains an SQE -/
  | drain (gotSqe : Bool)
  /-- the user calls `next` -/
  | next
  /-- the fiber resumes in `next` -/
  | resume
  /-- the user destroys a `received_buffer` -/
  | release (bufId : ℕ)
  /-- the user destroys the object -/
  | destroy
  /-- one turn of `while (next()) {}` in the destructor -/
  | drainLoop
  /-- the destructor frees the buffer ring and returns -/
  | free
  | requestStop
  deriving DecidableEq

/-- Where a call of `next` leads.  The user keeps the buffer it gets; the
destructor returns it to the ring at once and goes round its loop, and leaves
the loop otherwise, also by an exception. -/
def settle (s : State) (caller : Caller) (r : Object × Next) : State :=
  match caller, r.2 with
  | caller, .suspended =>
      { s with object := r.1, phase := .waiting caller }
  | .user, .value item =>
      { s with
        object := r.1
        handles := s.handles ++ [item.bufId]
        phase := .user }
  | .user, _ => { s with object := r.1, phase := .user }
  | .destructor, .value item =>
      { s with object := r.1.returnBuffer item.bufId, phase := .draining }
  | .destructor, _ => { s with object := r.1, phase := .freeing }

/-- The first loop of the destructor. -/
def Object.returnPending (a : Object) : Object :=
  { (a.pending.foldl (fun a item => a.returnBuffer item.bufId) a) with
    pending := [] }

/-- `waiter_->set_value()`. -/
def Phase.fulfil : Phase → Phase
  | .waiting caller => .woken caller
  | p => p

/-- `drain_cqes` has called `complete`. -/
def dispatch (s : State) (object : Object)
    (rest : Multishot PendingItem Last) : State :=
  { s with
    object := object
    phase := if s.object.waiter = true then s.phase.fulfil else s.phase
    request := rest }

/-- When a step may be taken.  `drain_cqes` does not run while the destructor
is between two suspension points. -/
def enabled (s : State) : Event → Prop
  | .post item =>
      s.request.isArmed = true ∧ 0 < item.size ∧ s.object.provides item.bufId
  | .finish c =>
      s.request.isArmed = true ∧ (0 < c.res → c.buffer ≠ none) ∧
        ∀ bufId ∈ c.buffer, s.object.provides bufId
  | .drain _ =>
      s.request.undrained ≠ [] ∧ s.phase ≠ .draining ∧ s.phase ≠ .freeing
  | .next | .destroy => s.phase = .user
  | .resume => ∃ caller, s.phase = .woken caller
  | .release bufId => bufId ∈ s.handles ∧ s.phase ≠ .returned
  | .drainLoop => s.phase = .draining
  | .free => s.phase = .freeing
  | .requestStop => True

/-- What a step does. -/
def effect (s : State) : Event → State
  | .post item =>
      { s with
        object := s.object.selectBuffer item.bufId
        request := s.request.post item }
  | .finish c =>
      { s with
        object := c.buffer.elim s.object s.object.selectBuffer
        request := s.request.finish c }
  | .drain gotSqe =>
      match s.request.take? with
      | some (.inl item, rest) =>
          dispatch s (s.object.completeData item) rest
      | some (.inr c, rest) =>
          -- only a request consumed by data is armed again
          dispatch s (s.object.completeLast c)
            (if 0 < c.res ∧ gotSqe = true then rest.rearm else rest)
      | none => s
  | .next => settle s .user (s.object.next s.stop)
  | .resume =>
      match s.phase with
      | .woken caller => settle s caller s.object.afterWait
      | _ => s
  | .release bufId =>
      { s with
        object := s.object.returnBuffer bufId
        handles := s.handles.erase bufId }
  | .destroy =>
      { s with
        object := s.object.returnPending
        phase := if s.object.error = 0 then .draining else .freeing }
  | .drainLoop => settle s .destructor (s.object.next s.stop)
  | .free =>
      { s with
        object := { s.object with bufRing := none }
        phase := .returned }
  | .requestStop => { s with stop := true }

/-- The object as its constructor leaves it, with `bufCount` buffers. -/
def initial (bufCount : ℕ) : State where
  object :=
    { pending := [], waiter := false, error := 0,
      bufRing := some (List.range bufCount) }
  request := .armed []
  handles := []
  stop := false
  phase := .user

/-- The receiver as a system of atomic steps. -/
def machine (bufCount : ℕ) : Machine State Event where
  init := fun s => s = initial bufCount
  enabled := enabled
  effect := effect

instance (bufCount : ℕ) (s : State) (e : Event) :
    Decidable ((machine bufCount).enabled s e) := by
  change Decidable (enabled s e)
  cases e with
  | resume =>
      cases hp : s.phase with
      | woken caller => exact .isTrue ⟨caller, hp⟩
      | _ => exact .isFalse (by simp [enabled, hp])
  | _ => dsimp only [enabled]; infer_instance

/-! ## What the steps do to the object -/

theorem returnPending_error (a : Object) :
    a.returnPending.error = a.error := by
  have hfold : ∀ (items : List PendingItem) (b : Object),
      (items.foldl (fun a item => a.returnBuffer item.bufId) b).error =
        b.error := by
    intro items
    induction items with
    | nil => exact fun b => rfl
    | cons item items ih => exact fun b => ih (b.returnBuffer item.bufId)
  exact hfold a.pending a

theorem completeLast_ready (a : Object) (c : Last) :
    (a.completeLast c).pending ≠ [] ∨ (a.completeLast c).error ≠ 0 := by
  simp only [Object.completeLast]
  split
  · exact .inl (by simp [Object.completeData])
  · refine .inr ?_
    simp only [Object.completeFinal]
    split
    · simp [enodata]
    · assumption

theorem completeLast_error_of_data
    {a : Object} {c : Last} (h : 0 < c.res) :
    (a.completeLast c).error = a.error := by
  simp [Object.completeLast, h, Object.completeData]

theorem completeLast_error_of_final
    {a : Object} {c : Last} (h : ¬0 < c.res) :
    (a.completeLast c).error ≠ 0 := by
  simp only [Object.completeLast, h, if_false, Object.completeFinal]
  split
  · simp [enodata]
  · assumption

/-! ## Runs that end the request first -/

/-- `next` is about to take its stop branch while the request is live. -/
def StopsLive (s : State) : Prop :=
  s.object.pending = [] ∧ s.object.error = 0 ∧ s.stop = true ∧ s.request.Live

instance (s : State) : Decidable (StopsLive s) := by
  unfold StopsLive
  infer_instance

/-- No `next`, the user's or the destructor's, takes its stop branch while the
request is live. -/
def EndsFirst (s : State) : Event → Prop
  | .next | .drainLoop => ¬StopsLive s
  | _ => True

/-- Every re-arm obtains an SQE. -/
def Rearms (_ : State) : Event → Prop
  | .drain gotSqe => gotSqe = true
  | _ => True

instance (s : State) (e : Event) : Decidable (EndsFirst s e) := by
  cases e <;> (dsimp only [EndsFirst]; infer_instance)

instance (s : State) (e : Event) : Decidable (Rearms s e) := by
  cases e <;> (dsimp only [Rearms]; infer_instance)

/-- `error_` is set, or the destructor has left its loop, only once the request
is gone; and a woken fiber finds a message or an error. -/
structure Ended (s : State) : Prop where
  error : s.object.error ≠ 0 → s.request = .gone
  woken : ∀ caller, s.phase = .woken caller →
    s.object.pending ≠ [] ∨ s.object.error ≠ 0
  freeing : s.phase = .freeing → s.request = .gone
  returned : s.phase = .returned → s.request = .gone

theorem ended_initial (bufCount : ℕ) : Ended (initial bufCount) := by
  constructor <;> simp [initial]

theorem Ended.of_request
    {s s' : State} (h : Ended s) (hpending : s'.object.pending = s.object.pending)
    (herror : s'.object.error = s.object.error) (hphase : s'.phase = s.phase)
    (hgone : s.request = .gone → s'.request = .gone) : Ended s' := by
  constructor
  · exact fun h0 => hgone (h.error (herror ▸ h0))
  · intro caller hp
    rw [hpending, herror]
    exact h.woken caller (hphase ▸ hp)
  · exact fun hp => hgone (h.freeing (hphase ▸ hp))
  · exact fun hp => hgone (h.returned (hphase ▸ hp))

/-- `drain_cqes` only runs `complete` while the request is live, and then the
consumer has not concluded anything. -/
theorem ended_dispatch
    {s : State} {object : Object} {rest : Multishot PendingItem Last}
    (h : Ended s) (hlive : s.request ≠ .gone)
    (hready : object.pending ≠ [] ∨ object.error ≠ 0)
    (herror : object.error ≠ 0 → rest = .gone) :
    Ended (dispatch s object rest) := by
  have hfreeing : s.phase ≠ .freeing := fun hp => hlive (h.freeing hp)
  have hreturned : s.phase ≠ .returned := fun hp => hlive (h.returned hp)
  have hphase : (dispatch s object rest).phase = s.phase ∨
      ∃ caller, (dispatch s object rest).phase = .woken caller := by
    simp only [dispatch]
    split
    · cases s.phase with
      | waiting caller => exact .inr ⟨caller, rfl⟩
      | _ => exact .inl rfl
    · exact .inl rfl
  refine ⟨herror, fun _ _ => hready, ?_, ?_⟩ <;>
    rcases hphase with hp | ⟨caller, hp⟩ <;> rw [hp]
  · exact fun hp => absurd hp hfreeing
  · exact nofun
  · exact fun hp => absurd hp hreturned
  · exact nofun

/-- Settling a call of `next` is safe when its outcome is: an end of the stream
means that the request is gone. -/
theorem ended_settle
    {s : State} {caller : Caller} {r : Object × Next}
    (herror : r.1.error ≠ 0 → s.request = .gone)
    (hover : (r.2 = .nullopt ∨ ∃ error, r.2 = .throws error) →
      s.request = .gone) : Ended (settle s caller r) := by
  obtain ⟨object, result⟩ := r
  cases result with
  | value item => cases caller <;> exact ⟨herror, nofun, nofun, nofun⟩
  | suspended => cases caller <;> exact ⟨herror, nofun, nofun, nofun⟩
  | nullopt =>
      have hgone := hover (.inl rfl)
      cases caller <;> exact ⟨herror, nofun, fun _ => hgone, fun _ => hgone⟩
  | throws error =>
      have hgone := hover (.inr ⟨error, rfl⟩)
      cases caller <;> exact ⟨herror, nofun, fun _ => hgone, fun _ => hgone⟩

theorem ended_next
    {s : State} {caller : Caller} (h : Ended s) (hguard : ¬StopsLive s) :
    Ended (settle s caller (s.object.next s.stop)) := by
  cases hpending : s.object.pending with
  | cons item rest =>
      simp only [Object.next, hpending]
      exact ended_settle h.error (by simp)
  | nil =>
      by_cases herror : s.object.error = 0
      · by_cases hstop : s.stop = true
        · have hgone : s.request = .gone := by
            by_contra hne
            exact hguard ⟨hpending, herror, hstop,
              Multishot.live_iff_ne_gone.mpr hne⟩
          exact ended_settle (fun _ => hgone) (fun _ => hgone)
        · have hnext : s.object.next s.stop =
              ({ s.object with waiter := true }, .suspended) := by
            simp [Object.next, hpending, herror, hstop]
          rw [hnext]
          exact ended_settle h.error (by simp)
      · have hgone := h.error herror
        exact ended_settle (fun _ => hgone) (fun _ => hgone)

theorem ended_resume
    {s : State} {caller : Caller} (h : Ended s)
    (hp : s.phase = .woken caller) : Ended (effect s .resume) := by
  simp only [effect, hp]
  cases hpending : s.object.pending with
  | cons item rest =>
      simp only [Object.afterWait, hpending]
      exact ended_settle h.error (by simp)
  | nil =>
      have hgone := h.error ((h.woken caller hp).resolve_left
        (not_not.mpr hpending))
      exact ended_settle (fun _ => hgone) (fun _ => hgone)

theorem ended_effect
    {s : State} {e : Event} (h : Ended s) (he : enabled s e)
    (hguard : EndsFirst s e) : Ended (effect s e) := by
  cases e with
  | post item =>
      exact h.of_request rfl rfl rfl Multishot.post_eq_gone_iff.mpr
  | finish c =>
      obtain ⟨res, buffer⟩ := c
      cases buffer <;>
        exact h.of_request rfl rfl rfl Multishot.finish_eq_gone_iff.mpr
  | drain gotSqe =>
      simp only [effect]
      split
      next item rest htake =>
        have hlive := Multishot.ne_gone_of_take htake
        refine ended_dispatch h hlive (.inl (by simp [Object.completeData])) ?_
        exact fun h0 => absurd (h.error h0) hlive
      next c rest htake =>
        have hlive := Multishot.ne_gone_of_take htake
        refine ended_dispatch h hlive (completeLast_ready _ _) ?_
        intro h0
        by_cases hres : 0 < c.res
        · rw [completeLast_error_of_data hres] at h0
          exact absurd (h.error h0) hlive
        · simp [hres, Multishot.eq_gone_of_take_last htake]
      next => exact h
  | next => exact ended_next h hguard
  | resume =>
      obtain ⟨caller, hp⟩ := he
      exact ended_resume h hp
  | release bufId => exact h.of_request rfl rfl rfl id
  | destroy =>
      refine ⟨?_, ?_, ?_, ?_⟩
      · exact fun h0 => h.error (returnPending_error s.object ▸ h0)
      · simp only [effect]
        split <;> exact nofun
      · simp only [effect]
        split
        next => exact nofun
        next herror => exact fun _ => h.error herror
      · simp only [effect]
        split <;> exact nofun
  | drainLoop => exact ended_next h hguard
  | free => exact ⟨h.error, nofun, nofun, fun _ => h.freeing he⟩
  | requestStop => exact h.of_request rfl rfl rfl id

theorem ended_of_endsFirst
    {bufCount : ℕ} {s : State}
    (h : (machine bufCount).ReachableUnder EndsFirst s) : Ended s := by
  refine Machine.ReachableUnder.invariant ?_ ?_ h
  · rintro s rfl
    exact ended_initial bufCount
  · intro s e _ hI he hguard
    exact ended_effect hI he hguard

/-! ## `error_` tells whether the request is live -/

theorem settle_request (s : State) (caller : Caller) (r : Object × Next) :
    (settle s caller r).request = s.request := by
  simp only [settle]
  split <;> rfl

theorem settle_error (s : State) (caller : Caller) (r : Object × Next) :
    (settle s caller r).object.error = r.1.error := by
  simp only [settle]
  split <;> rfl

theorem next_error_of_ne
    {a : Object} {stop : Bool} (h : a.error ≠ 0) :
    (a.next stop).1.error ≠ 0 := by
  simp only [Object.next]
  split
  · exact h
  · rw [if_pos h]
    exact h

theorem afterWait_error (a : Object) : a.afterWait.1.error = a.error := by
  simp only [Object.afterWait]
  split <;> rfl

theorem live_effect_of_error_eq_zero
    {s : State} {e : Event}
    (h : s.object.error = 0 → s.request ≠ .gone) (hrearms : Rearms s e)
    (h0 : (effect s e).object.error = 0) : (effect s e).request ≠ .gone := by
  cases e with
  | post item => exact Multishot.post_eq_gone_iff.not.mpr (h h0)
  | finish c =>
      obtain ⟨res, buffer⟩ := c
      cases buffer <;> exact Multishot.finish_eq_gone_iff.not.mpr (h h0)
  | drain gotSqe =>
      have hgot : gotSqe = true := hrearms
      simp only [effect] at h0 ⊢
      split at h0
      next item rest htake => exact Multishot.ne_gone_of_take_more htake
      next c rest htake =>
        by_cases hres : 0 < c.res
        · simp [dispatch, hres, hgot, Multishot.eq_gone_of_take_last htake,
            Multishot.rearm]
        · exact absurd h0 (completeLast_error_of_final hres)
      next => exact h h0
  | next | drainLoop =>
      simp only [effect, settle_request, settle_error] at h0 ⊢
      refine h (by_contra fun hne => next_error_of_ne hne h0)
  | resume =>
      simp only [effect] at h0 ⊢
      split at h0
      · simp only [settle_error, afterWait_error, settle_request] at h0 ⊢
        exact h h0
      · exact h h0
  | destroy => exact h (returnPending_error s.object ▸ h0)
  | release bufId => exact h h0
  | free => exact h h0
  | requestStop => exact h h0

theorem live_of_rearms
    {bufCount : ℕ} {s : State}
    (h : (machine bufCount).ReachableUnder Rearms s) :
    s.object.error = 0 → s.request ≠ .gone := by
  refine Machine.ReachableUnder.invariant
    (I := fun s => s.object.error = 0 → s.request ≠ .gone) ?_ ?_ h
  · rintro s rfl _
    exact nofun
  · intro s e _ hI _ hrearms h0
    exact live_effect_of_error_eq_zero hI hrearms h0

/-! ## Runs that do not end it first -/

theorem next_of_stopsLive {s : State} (h : StopsLive s) :
    s.object.next s.stop =
      ({ s.object with error := -ecanceled }, .nullopt) := by
  obtain ⟨hpending, herror, hstop, -⟩ := h
  simp [Object.next, hpending, herror, hstop]

theorem reaches_returned
    {m : ℕ} {s : State} (hp : s.phase = .freeing)
    (hlive : s.request.Live) :
    ∃ s', (machine m).Reaches s s' ∧ s'.phase = .returned ∧
      s'.request.Live :=
  ⟨effect s .free,
    Machine.Reaches.single (M := machine m) (e := .free) hp,
    rfl, hlive⟩

/-- Each step that breaks the rule sets `error_` of a live request, and can be
followed by a destructor that leaves it behind. -/
theorem abandons_of_not_endsFirst
    {bufCount : ℕ} {s : State} {e : Event} (hbreak : ¬EndsFirst s e) :
    (effect s e).object.error ≠ 0 ∧ (effect s e).request.Live ∧
      ∃ s', (machine bufCount).Reaches (effect s e) s' ∧
        s'.phase = .returned ∧ s'.request.Live := by
  cases e with
  | next =>
      have hstops : StopsLive s := not_not.mp hbreak
      have hnext : effect s .next =
          { s with
            object := { s.object with error := -ecanceled }
            phase := .user } := by
        simp [effect, next_of_stopsLive hstops, settle]
      have hdestroy :
          (effect (effect s .next) .destroy).phase = .freeing := by
        rw [hnext]
        simp [effect, ecanceled]
      have hlive : (effect s .next).request.Live := by
        rw [hnext]
        exact hstops.2.2.2
      have hphase : (effect s .next).phase = .user := by rw [hnext]
      refine ⟨by simp [hnext, ecanceled], hlive, ?_⟩
      obtain ⟨s', hs', hend⟩ :=
        reaches_returned (m := bufCount) hdestroy hlive
      exact ⟨s', (Machine.Reaches.single (M := machine bufCount)
        (e := .destroy) hphase).trans hs', hend⟩
  | drainLoop =>
      have hstops : StopsLive s := not_not.mp hbreak
      have hloop : effect s .drainLoop =
          { s with
            object := { s.object with error := -ecanceled }
            phase := .freeing } := by
        simp [effect, next_of_stopsLive hstops, settle]
      have hlive : (effect s .drainLoop).request.Live := by
        rw [hloop]
        exact hstops.2.2.2
      exact ⟨by simp [hloop, ecanceled], hlive,
        reaches_returned (by rw [hloop]) hlive⟩
  | _ => exact absurd trivial hbreak

/-! ## The theorem on the destructor -/

/-- In every run in which no `next` takes its stop branch while the request is
live, the destructor frees the buffer ring and returns only when no recv
request of the object is armed and no CQE of it is undrained; if moreover every
re-arm obtains an SQE, `error_` is 0 exactly while the request is armed or its
last CQE is undrained.  Every step that breaks the rule sets `error_` of a live
request, and can be followed by a destructor that frees the ring under it. -/
theorem recv_ends_request_iff_not_stopped_live (bufCount : ℕ) :
    (∀ s, (machine bufCount).ReachableUnder
        (fun s e => EndsFirst s e ∧ Rearms s e) s →
        (s.object.error = 0 ↔
          s.request.isArmed = true ∨ s.request.isEnding = true)) ∧
      (∀ s, (machine bufCount).ReachableUnder EndsFirst s →
        s.phase = .freeing ∨ s.phase = .returned →
          s.request.isArmed = false ∧ s.request.undrained = []) ∧
      ∀ s e, (machine bufCount).Reachable s → enabled s e →
        ¬EndsFirst s e →
          (effect s e).object.error ≠ 0 ∧ (effect s e).request.Live ∧
            ∃ s', (machine bufCount).Reaches (effect s e) s' ∧
              s'.phase = .returned ∧ s'.request.Live := by
  refine ⟨fun s h => ?_, fun s h hp => ?_,
    fun s e _ _ hbreak => abandons_of_not_endsFirst hbreak⟩
  · have hended := ended_of_endsFirst (h.mono fun _ _ hg => hg.1)
    have hlive := live_of_rearms (h.mono fun _ _ hg => hg.2)
    rw [← Multishot.live_iff_armed_or_ending, Multishot.live_iff_ne_gone]
    exact ⟨hlive, fun hne => by_contra fun h0 => hne (hended.error h0)⟩
  · have hended := ended_of_endsFirst h
    rw [hp.elim hended.freeing hended.returned]
    exact ⟨rfl, rfl⟩

/-- A message is delivered, another arrives while the request is consumed and
armed again, and the destructor drains it and ends on the cancelled request. -/
theorem recv_ends_request_after_rearm :
    ∃ s, (machine 2).ReachableUnder EndsFirst s ∧ s.phase = .returned ∧
      s.request.isArmed = false ∧ s.request.undrained = [] := by
  obtain ⟨s, hs, hp⟩ := Machine.exists_reachableUnder_of_exec
    (M := machine 2) (G := EndsFirst) (P := fun s => s.phase = .returned) rfl
    [.next, .post ⟨0, 5⟩, .drain true, .resume, .finish ⟨7, some 1⟩,
      .drain true, .release 0, .destroy, .drainLoop, .post ⟨0, 3⟩,
      .drain true, .resume, .drainLoop, .finish ⟨-125, none⟩, .drain true,
      .resume, .free]
    (by decide)
  exact ⟨s, hs, hp,
    (recv_ends_request_iff_not_stopped_live 2).2.1 s hs (.inr hp)⟩

/-- A stop is requested and the object destroyed: the destructor's first `next`
sets `error_` and returns no value, and the ring is freed while the recv
request is still armed. -/
theorem recv_frees_ring_of_armed_request :
    ∃ s, (machine 2).Reachable s ∧ s.phase = .returned ∧
      s.object.bufRing = none ∧ s.object.error ≠ 0 ∧
        s.request.isArmed = true :=
  Machine.exists_reachableUnder_of_exec
    (M := machine 2) (G := fun _ _ => True) rfl
    [.requestStop, .destroy, .drainLoop, .free]
    (by decide)

end Recv

end Fiberexec.Multishot
