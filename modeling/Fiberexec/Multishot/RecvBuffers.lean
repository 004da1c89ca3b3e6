import Fiberexec.Multishot.RecvOrder
import Fiberexec.Support.Lists
import Mathlib.Data.List.Perm.Subperm
import Mathlib.Data.List.Range

/-!
# The buffers of the receiver

A buffer is in the buffer ring, attached to an undrained CQE, in `pending_`, or
owned by a `received_buffer`.  Every step of the object and of the kernel moves
a buffer from one of these places to another, and none makes a second one of
it: for each id the number of places that hold it never changes until the ring
is freed.
-/

namespace Fiberexec.Multishot.Recv.Stream

open Support

/-! ## Where a buffer can be -/

/-- The ids in the buffer ring. -/
def provided (s : State) : List ℕ :=
  s.object.bufRing.getD []

/-- How many undrained CQEs have the buffer. -/
def attached (s : State) (id : ℕ) : ℕ :=
  s.ring.cq.countP (fun c => c.buffer == some id)

/-- How many messages in `pending_` have the buffer. -/
def buffered (s : State) (id : ℕ) : ℕ :=
  (s.object.pending.map PendingItem.bufId).count id

/-- The `received_buffer` owns the buffer. -/
def owns (id : ℕ) (b : ReceivedBuffer) : Bool :=
  b.owner && b.bufId == id

/-- How many `received_buffer`s own the buffer. -/
def owned (s : State) (id : ℕ) : ℕ :=
  s.handles.countP (owns id)

/-- In how many places the buffer is. -/
def places (s : State) (id : ℕ) : ℕ :=
  (provided s).count id + attached s id + buffered s id + owned s id

/-- The kernel attaches a buffer of the ring to every CQE with data, and to a
CQE without data it attaches one of the ring or none. -/
def Provides (s : State) : Event → Prop
  | .post c =>
      (0 < c.res → c.buffer ≠ none) ∧ ∀ id ∈ c.buffer, s.object.provides id
  | _ => True

instance (s : State) (e : Event) : Decidable (Provides s e) :=
  match e with
  | .post c =>
      inferInstanceAs (Decidable
        ((0 < c.res → c.buffer ≠ none) ∧
          ∀ id ∈ c.buffer, s.object.provides id))
  | .consume | .drain _ | .next | .resume | .moveConstruct _
  | .moveAssign _ _ | .release _ | .destroy _ | .drainLoop | .free
  | .requestStop => .isTrue trivial

/-! ## The object -/

theorem count_provided_giveBack
    {s : State} (hs : s.object.bufRing ≠ none) (b : ReceivedBuffer)
    (handles : List ReceivedBuffer) (id : ℕ) :
    (provided { s with
        object := giveBack s.object b, handles := handles }).count id =
      (provided s).count id + if owns id b = true then 1 else 0 := by
  obtain ⟨ids, hids⟩ := Option.ne_none_iff_exists'.mp hs
  cases hb : b.owner with
  | true =>
      simp [provided, giveBack, owns, hb, Object.returnBuffer, hids,
        List.count_singleton]
  | false => simp [provided, giveBack, owns, hb]

theorem owns_movedFrom (id : ℕ) (b : ReceivedBuffer) :
    owns id b.movedFrom = false :=
  rfl

/-- The kernel selects a buffer of the ring, and attaches it to a CQE. -/
theorem places_post
    {s : State} {c : Cqe} {id : ℕ} (hs : s.object.bufRing ≠ none)
    (hguard : Provides s (.post c)) :
    places (effect s (.post c)) id = places s id := by
  obtain ⟨ids, hids⟩ := Option.ne_none_iff_exists'.mp hs
  have hattached : attached (effect s (.post c)) id =
      attached s id + if c.buffer = some id then 1 else 0 := by
    simp [attached, effect, Requests.post, List.countP_singleton]
  cases hbuffer : c.buffer with
  | none =>
      rw [hbuffer, if_neg (by simp)] at hattached
      rw [places, places, hattached]
      simp [effect, hbuffer, provided, buffered, owned]
  | some bufId =>
      have hmem : bufId ∈ ids := by
        have hprovides := hguard.2 bufId hbuffer
        simpa [Object.provides, hids] using hprovides
      have hcount : (provided (effect s (.post c))).count id =
          (provided s).count id - if bufId = id then 1 else 0 := by
        simp [provided, effect, hbuffer, Object.selectBuffer, hids,
          List.count_erase]
      have hpos : bufId = id → 0 < (provided s).count id := by
        rintro rfl
        simpa [provided, hids] using hmem
      have hrest : buffered (effect s (.post c)) id = buffered s id ∧
          owned (effect s (.post c)) id = owned s id := by
        simp [effect, hbuffer, buffered, owned, Object.selectBuffer]
      simp only [hbuffer, Option.some.injEq] at hattached
      rw [places, places, hcount, hattached, hrest.1, hrest.2]
      split <;> omega

theorem places_consume (s : State) (id : ℕ) :
    places (effect s .consume) id = places s id := by
  cases hsqes : s.sqes with
  | nil => simp [effect, hsqes]
  | cons sqe sqes =>
      have hattached : attached (effect s .consume) id = attached s id := by
        simp only [effect, hsqes, attached]
        cases sqe with
        | recv => rfl
        | cancel =>
            simp only [execute]
            split
            · simp [Requests.post, canceledCqe]
            · rfl
      rw [places, places, hattached]
      simp [effect, hsqes, provided, buffered, owned]

/-- `complete` takes the buffer of a message to `pending_`, and returns one
that is attached to a final CQE. -/
theorem places_dispatch
    {s : State} {c : Cqe} {gotSqe : Bool} {ring : Requests Cqe} {id : ℕ}
    (hs : s.object.bufRing ≠ none) (htake : s.ring.take? = some (c, ring))
    (hdata : 0 < c.res → c.buffer ≠ none) :
    places (dispatch s c gotSqe ring) id = places s id := by
  obtain ⟨ids, hids⟩ := Option.ne_none_iff_exists'.mp hs
  have hattached : attached s id =
      attached (dispatch s c gotSqe ring) id +
        if c.buffer = some id then 1 else 0 := by
    simp [attached, dispatch, Requests.cq_of_take htake, List.countP_cons]
  have howned : owned (dispatch s c gotSqe ring) id = owned s id := rfl
  by_cases hres : 0 < c.res
  · obtain ⟨bufId, hbuffer⟩ := Option.ne_none_iff_exists'.mp (hdata hres)
    have hprovided : provided (dispatch s c gotSqe ring) = provided s := by
      simp [provided, dispatch, complete, Object.completeLast, hres,
        Object.completeData]
    have hbuffered : buffered (dispatch s c gotSqe ring) id =
        buffered s id + if c.buffer = some id then 1 else 0 := by
      simp [buffered, dispatch, complete, Object.completeLast, hres,
        Object.completeData, hbuffer, List.count_singleton]
    rw [places, places, hprovided, hbuffered, howned, hattached]
    omega
  · have hprovided : (provided (dispatch s c gotSqe ring)).count id =
        (provided s).count id + if c.buffer = some id then 1 else 0 := by
      cases hbuffer : c.buffer <;>
        simp [provided, dispatch, complete, Object.completeLast, hres,
          Object.completeFinal, hbuffer, Object.returnBuffer, hids,
          List.count_singleton]
    have hbuffered : buffered (dispatch s c gotSqe ring) id =
        buffered s id := by
      cases hbuffer : c.buffer <;>
        simp [buffered, dispatch, complete, Object.completeLast, hres,
          Object.completeFinal, hbuffer, Object.returnBuffer]
    rw [places, places, hprovided, hbuffered, howned, hattached]
    omega

/-- A message goes to the user, or back to the ring. -/
theorem places_settle
    {s : State} {caller : Caller} {r : Object × Next} {id : ℕ}
    (hs : s.object.bufRing ≠ none) (hpull : Pull s.object s.stop r) :
    places (settle s caller r) id = places s id := by
  obtain ⟨ids, hids⟩ := Option.ne_none_iff_exists'.mp hs
  cases hpull with
  | value hpending =>
      cases caller with
      | user =>
          simp only [places, settle, provided, attached, buffered, owned,
            hpending, List.map_cons, List.count_cons, List.countP_append,
            List.countP_singleton, owns, Bool.true_and]
          omega
      | destructor =>
          simp only [places, settle, provided, attached, buffered, owned,
            hpending, Object.returnBuffer, hids, Option.map_some,
            Option.getD_some, List.count_append, List.map_cons,
            List.count_cons, List.count_nil]
          omega
  | ended =>
      rcases ends_ofError s.object.error with hr | ⟨error, hr⟩ <;> rw [hr] <;>
        cases caller <;> rfl
  | stopped => cases caller <;> rfl
  | suspended => cases caller <;> rfl

theorem places_moveConstruct (s : State) (src id : ℕ) :
    places (effect s (.moveConstruct src)) id = places s id := by
  simp only [effect]
  split
  next b hb =>
    have hset := countP_set_add (p := owns id) (b := b.movedFrom) hb
    rw [owns_movedFrom, if_neg Bool.false_ne_true] at hset
    simp only [places, provided, attached, buffered, owned,
      List.countP_append, List.countP_singleton]
    omega
  next => rfl

theorem places_moveAssign
    {s : State} (dst src id : ℕ) (hs : s.object.bufRing ≠ none) :
    places (effect s (.moveAssign dst src)) id = places s id := by
  simp only [effect]
  split
  next => rfl
  next hne =>
    split
    next old b hdst hsrc =>
      have hfirst := countP_set_add (p := owns id) (b := b) hdst
      have hsrc' : (s.handles.set dst b)[src]? = some b := by
        rw [List.getElem?_set_ne hne, hsrc]
      have hsecond := countP_set_add (p := owns id) (b := b.movedFrom) hsrc'
      rw [owns_movedFrom, if_neg Bool.false_ne_true] at hsecond
      have hprovided := count_provided_giveBack hs old
        ((s.handles.set dst b).set src b.movedFrom) id
      have hpending := (same_giveBack s.object old).1
      simp only [places, hprovided, attached, buffered, owned, hpending]
      omega
    next => rfl

theorem places_release
    {s : State} (i id : ℕ) (hs : s.object.bufRing ≠ none) :
    places (effect s (.release i)) id = places s id := by
  simp only [effect]
  split
  next b hb =>
    have herase := countP_eraseIdx_add (p := owns id) hb
    have hprovided :=
      count_provided_giveBack hs b (s.handles.eraseIdx i) id
    have hpending := (same_giveBack s.object b).1
    simp only [places, hprovided, attached, buffered, owned, hpending]
    omega
  next => rfl

theorem places_destroy
    {s : State} (gotSqe : Bool) (id : ℕ) (hs : s.object.bufRing ≠ none) :
    places (effect s (.destroy gotSqe)) id = places s id := by
  obtain ⟨ids, hids⟩ := Option.ne_none_iff_exists'.mp hs
  simp only [places, effect, provided, attached, buffered, owned,
    returnPending_eq, hids, Option.map_some, Option.getD_some,
    List.count_append, List.map_nil, List.count_nil]
  omega

/-! ## Runs -/

theorem Pull.bufRing
    {a : Object} {stop : Bool} {r : Object × Next} (h : Pull a stop r) :
    r.1.bufRing = a.bufRing := by
  cases h <;> rfl

theorem bufRing_of_effect
    {s : State} {e : Event} (h : (effect s e).object.bufRing ≠ none) :
    s.object.bufRing ≠ none := by
  intro hs
  refine h ?_
  have hsettle : ∀ caller r, r.1.bufRing = none →
      (settle s caller r).object.bufRing = none := by
    intro caller r hr
    simp only [settle]
    split <;> simp [Object.returnBuffer, hr]
  have hgive : ∀ b, (giveBack s.object b).bufRing = none := by
    intro b
    simp only [giveBack]
    split <;> simp [Object.returnBuffer, hs]
  cases e with
  | post c => cases hc : c.buffer <;> simp [effect, hc, Object.selectBuffer, hs]
  | consume =>
      simp only [effect]
      split <;> exact hs
  | drain gotSqe =>
      simp only [effect]
      split
      next c ring _ =>
        by_cases hres : 0 < c.res
        · simp [dispatch, complete_of_data hres, hs]
        · cases hc : c.buffer <;>
            simp [dispatch, complete, Object.completeLast, hres,
              Object.completeFinal, hc, Object.returnBuffer, hs]
      next => exact hs
  | next | drainLoop =>
      exact hsettle _ _ ((pull_next s.object s.stop).bufRing.trans hs)
  | resume =>
      simp only [effect]
      split
      · refine hsettle _ _ ?_
        simp only [Object.afterWait]
        split <;> exact hs
      · exact hs
  | moveConstruct src =>
      simp only [effect]
      split <;> exact hs
  | moveAssign dst src =>
      simp only [effect]
      split
      · exact hs
      · split
        · exact hgive _
        · exact hs
  | release i =>
      simp only [effect]
      split
      · exact hgive _
      · exact hs
  | destroy gotSqe => simp [effect, returnPending_eq, hs]
  | free => rfl
  | requestStop => exact hs

/-- Data come with a buffer. -/
def Attached (s : State) : Prop :=
  ∀ c ∈ s.ring.cq, 0 < c.res → c.buffer ≠ none

theorem attached_effect
    {s : State} {e : Event} (h : Attached s) (he : enabled s e)
    (hguard : Provides s e) : Attached (effect s e) := by
  have hsettle : ∀ caller r, Attached (settle s caller r) := by
    intro caller r
    simp only [settle]
    split <;> exact h
  have hhandles : onHandles e = true → Attached (effect s e) := by
    intro honHandles
    rwa [Attached, (same_handles s honHandles).2.2]
  cases e with
  | post c =>
      intro d hd
      rcases List.mem_append.mp hd with hd | hd
      · exact h d hd
      · exact List.mem_singleton.mp hd ▸ hguard.1
  | consume =>
      obtain ⟨sqe, sqes, hsqes⟩ := List.exists_cons_of_ne_nil he
      simp only [effect, hsqes]
      cases sqe with
      | recv => exact h
      | cancel =>
          intro d hd
          simp only [execute] at hd
          split at hd
          · rcases List.mem_append.mp hd with hd | hd
            · exact h d hd
            · obtain rfl := List.mem_singleton.mp hd
              simp [canceledCqe, ecanceled]
          · exact h d hd
  | drain gotSqe =>
      obtain ⟨c, ring, htake⟩ := Requests.exists_take he.1
      simp only [effect, htake]
      intro d hd
      refine h d ?_
      rw [Requests.cq_of_take htake]
      exact List.mem_cons_of_mem _ hd
  | next | drainLoop => exact hsettle _ _
  | resume =>
      simp only [effect]
      split
      · exact hsettle _ _
      · exact h
  | moveConstruct src => exact hhandles rfl
  | moveAssign dst src => exact hhandles rfl
  | release i => exact hhandles rfl
  | destroy gotSqe => exact h
  | free => exact h
  | requestStop => exact h

/-- No step up to the freeing of the ring changes in how many places a buffer
is. -/
theorem places_effect
    {s : State} {e : Event} (hledger : Ledger s) (hattached : Attached s)
    (hs : (effect s e).object.bufRing ≠ none) (he : enabled s e)
    (hguard : Provides s e) (id : ℕ) :
    places (effect s e) id = places s id := by
  have hring := bufRing_of_effect hs
  cases e with
  | post c => exact places_post hring hguard
  | consume => exact places_consume s id
  | drain gotSqe =>
      obtain ⟨c, ring, htake⟩ := Requests.exists_take he.1
      simp only [effect, htake]
      refine places_dispatch hring htake (hattached c ?_)
      rw [Requests.cq_of_take htake]
      exact List.mem_cons_self
  | next | drainLoop => exact places_settle hring (pull_next _ _)
  | resume =>
      obtain ⟨caller, hp⟩ := he
      simp only [effect, hp]
      exact places_settle hring (pull_afterWait (hledger.woken caller hp))
  | moveConstruct src => exact places_moveConstruct s src id
  | moveAssign dst src => exact places_moveAssign dst src id hring
  | release i => exact places_release i id hring
  | destroy gotSqe => exact places_destroy gotSqe id hring
  | free => exact absurd rfl hs
  | requestStop => rfl

/-- All ids of an accepted object fit in the 16 bits of a buffer id, and each
is added once. -/
theorem places_initial {count : ℕ} (h : count ≤ 32768) (id : ℕ) :
    places (initial count) id = if id < count then 1 else 0 := by
  have hids : (List.range count).map (fun i => i % 2 ^ 16) =
      List.range count := by
    conv_rhs => rw [← List.map_id (List.range count)]
    refine List.map_congr_left fun i hi => ?_
    have hlt := List.mem_range.mp hi
    exact Nat.mod_eq_of_lt (by omega)
  have hcount : (List.range count).count id = if id < count then 1 else 0 := by
    simp only [List.nodup_range.count, List.mem_range]
  simp only [places, initial, provided, attached, buffered, owned, hids,
    Option.getD_some, hcount]
  simp

/-! ## The theorem on the buffers -/

/-- Every buffer is in one place while the ring exists. -/
def InOnePlace (count : ℕ) (s : State) : Prop :=
  s.object.bufRing ≠ none →
    ∀ id, places s id = if id < count then 1 else 0

theorem inOnePlace_of_provides
    {bufSize bufCount : ℕ} {s : State}
    (h : (machine bufSize bufCount).ReachableUnder Provides s) :
    InOnePlace (bitCeil bufCount) s ∧ Attached s := by
  refine Machine.ReachableUnder.invariant
    (I := fun s => InOnePlace (bitCeil bufCount) s ∧ Attached s) ?_ ?_ h
  · rintro s ⟨gotSqe, submitted, hok⟩
    obtain ⟨rfl, hbound⟩ := construct_ok hok
    exact ⟨fun _ => places_initial hbound, by simp [Attached, initial]⟩
  · rintro s e hs ⟨hplaces, hattached⟩ he hguard
    refine ⟨fun hring id => ?_, attached_effect hattached he hguard⟩
    have hledger := ledger_of_reachable hs.reachable
    exact (places_effect hledger hattached hring he hguard id).trans
      (hplaces (bufRing_of_effect hring) id)

/-- As long as the kernel attaches to its CQEs buffers of the ring, and one to
each CQE with data, every id below `buf_count_` is up to the freeing of the ring
in exactly one place: in the ring, attached to an undrained CQE, in `pending_`
or owned by a `received_buffer`; and no other id is anywhere.  So the ring
holds no id twice, and never more than `buf_count_` entries. -/
theorem recv_buffers_conserved
    (bufSize bufCount : ℕ) (s : State)
    (h : (machine bufSize bufCount).ReachableUnder Provides s)
    (hring : s.object.bufRing ≠ none) :
    (∀ id, (provided s).count id + attached s id + buffered s id +
        owned s id = if id < bitCeil bufCount then 1 else 0) ∧
      (provided s).Nodup ∧ (provided s).length ≤ bitCeil bufCount := by
  have hplaces := (inOnePlace_of_provides h).1 hring
  have hnodup : (provided s).Nodup := by
    rw [List.nodup_iff_count_le_one]
    intro id
    have hid := hplaces id
    simp only [places] at hid
    split at hid <;> omega
  have hsub : provided s ⊆ List.range (bitCeil bufCount) := by
    intro id hid
    have hpos := List.count_pos_iff.mpr hid
    have hone := hplaces id
    simp only [places] at hone
    rw [List.mem_range]
    by_contra hge
    rw [if_neg hge] at hone
    omega
  refine ⟨hplaces, hnodup, ?_⟩
  simpa using (hnodup.subperm hsub).length_le

/-- Two messages are received and the first is moved, assigned over the second
and released; the second went back when it was overwritten. -/
theorem recv_buffers_conserved_after_moves :
    ∃ s, (machine 4096 2).ReachableUnder Provides s ∧
      s.object.bufRing = some ([1, 0] : List ℕ) ∧
      (provided s).length ≤ bitCeil 2 := by
  obtain ⟨s, hs, hring⟩ := Machine.exists_reachableUnder_of_exec
    (M := machine 4096 2) (G := Provides)
    (P := fun s : State => s.object.bufRing = some ([1, 0] : List ℕ))
    (s := initial 2) ⟨true, 1, rfl⟩
    [.post ⟨5, some 0, true⟩, .drain true, .post ⟨7, some 1, true⟩,
      .drain true, .next, .next, .moveConstruct 0, .moveAssign 1 2,
      .moveAssign 1 1, .release 2, .release 0, .release 0]
    (by decide)
  exact ⟨s, hs, hring,
    (recv_buffers_conserved 4096 2 s hs (by simp [hring])).2.2⟩

end Fiberexec.Multishot.Recv.Stream
