import Fiberexec.Multishot.AcceptorOrder
import Fiberexec.Multishot.RecvOrder

/-!
# Stop requests and a suspended `next`

The operations of a fiber register a callback on the fiber's stop token and on
that of the pool, and the callback asks for a cancel.  `next` of the multishot
classes registers none: it looks at the token once, before it suspends, and
never at the pool's.  A stop that is requested while the fiber is suspended
reaches it only if a CQE happens to be undrained.

Both classes are the same here, so the system is stated for what they have in
common.
-/

namespace Fiberexec.Multishot.NextStop

open Support

/-! ## What the two classes have in common -/

/-- An object that takes CQEs and gives what they bring to one fiber. -/
structure Class where
  Object : Type
  Cqe : Type
  /-- of the promise in `waiter_` -/
  Value : Type
  Next : Type
  initial : Object
  waiter : Object → Bool
  complete : Object → Cqe → Object
  value : Cqe → Value
  next : Object → Bool → Object × Next
  afterWait : Object → Value → Object × Next
  suspends : Next → Bool
  /-- what the kernel does to the memory it shares with the object -/
  attach : Object → Cqe → Object
  isLast : Cqe → Bool
  rearms : Cqe → Bool
  wellFormed : Cqe → Bool
  waiter_initial : waiter initial = false
  waiter_complete : ∀ a c, waiter (complete a c) = false
  waiter_next : ∀ a stop,
    waiter (next a stop).1 = (waiter a || suspends (next a stop).2)
  waiter_afterWait : ∀ a v, waiter (afterWait a v).1 = waiter a
  waiter_attach : ∀ a c, waiter (attach a c) = waiter a
  /-- the check of the stop token -/
  returns_of_stop : ∀ a, suspends (next a true).2 = false

theorem acceptor_waiter_next (a : Acceptor.Object) (stop : Bool) :
    (a.next stop).1.waiter =
      (a.waiter || decide ((a.next stop).2 = .suspended)) := by
  rcases Acceptor.Stream.next_cases a stop with
    ⟨fd, rest, -, hnext⟩ | ⟨a', r, hnext, -, -, hends, -, hwaiter⟩ | ⟨-, hnext⟩
  · simp [hnext]
  · rcases hends with rfl | ⟨error, rfl⟩ <;> simp [hnext, hwaiter]
  · simp [hnext]

theorem acceptor_returns_of_stop (a : Acceptor.Object) :
    decide ((a.next true).2 = .suspended) = false := by
  simp only [Acceptor.Object.next]
  split
  · rfl
  · split
    · split <;> rfl
    · rfl

/-- `multishot_acceptor`. -/
def acceptor : Class where
  Object := Acceptor.Object
  Cqe := Acceptor.Stream.Cqe
  Value := ℤ
  Next := Acceptor.Next
  initial := Acceptor.initial.object
  waiter := Acceptor.Object.waiter
  complete := fun a c => a.complete c.res
  value := Acceptor.Stream.Cqe.res
  next := Acceptor.Object.next
  afterWait := fun a res => (a, Acceptor.afterWait res)
  suspends := fun r => decide (r = .suspended)
  attach := fun a _ => a
  isLast := Acceptor.Stream.Cqe.isLast
  rearms := fun c => Acceptor.rearms c.res c.more
  wellFormed := fun c => decide (c.more = true → 0 ≤ c.res)
  waiter_initial := rfl
  waiter_complete := by
    intro a c
    simp only [Acceptor.Object.complete]
    split
    · rfl
    · split
      · rfl
      · simp_all
  waiter_next := acceptor_waiter_next
  waiter_afterWait := fun _ _ => rfl
  waiter_attach := fun _ _ => rfl
  returns_of_stop := acceptor_returns_of_stop

theorem recv_waiter_next (a : Recv.Object) (stop : Bool) :
    (a.next stop).1.waiter =
      (a.waiter || decide ((a.next stop).2 = .suspended)) := by
  have hpull := Recv.Stream.pull_next a stop
  generalize a.next stop = r at hpull
  cases hpull with
  | value => simp
  | ended =>
      rcases Recv.Stream.ends_ofError a.error with hr | ⟨error, hr⟩ <;>
        simp [hr]
  | stopped => simp
  | suspended => simp

theorem recv_returns_of_stop (a : Recv.Object) :
    decide ((a.next true).2 = .suspended) = false := by
  have hpull := Recv.Stream.pull_next a true
  generalize a.next true = r at hpull
  cases hpull with
  | value => rfl
  | ended =>
      rcases Recv.Stream.ends_ofError a.error with hr | ⟨error, hr⟩ <;>
        simp [hr]
  | stopped => rfl
  | suspended _ _ hstop => cases hstop

/-- `multishot_recv` with `count` buffers. -/
def recv (count : ℕ) : Class where
  Object := Recv.Object
  Cqe := Recv.Stream.Cqe
  Value := Unit
  Next := Recv.Next
  initial := (Recv.Stream.initial count).object
  waiter := Recv.Object.waiter
  complete := Recv.Stream.complete
  value := fun _ => ()
  next := Recv.Object.next
  afterWait := fun a _ => a.afterWait
  suspends := fun r => decide (r = .suspended)
  attach := fun a c => c.buffer.elim a a.selectBuffer
  isLast := Recv.Stream.Cqe.isLast
  rearms := Recv.Stream.rearms
  wellFormed := fun c => decide (c.more = true → 0 < c.res)
  waiter_initial := rfl
  waiter_complete := by
    intro a c
    by_cases hres : 0 < c.res
    · rw [Recv.Stream.complete_of_data hres]
    · exact (Recv.Stream.complete_of_final (not_lt.mp hres)).2.1
  waiter_next := recv_waiter_next
  waiter_afterWait := by
    intro a _
    simp only [Recv.Object.afterWait]
    split <;> rfl
  waiter_attach := by
    intro a c
    cases c.buffer <;> rfl
  returns_of_stop := recv_returns_of_stop

/-- The multishot classes. -/
inductive Kind
  | acceptor
  | recv (count : ℕ)

def Kind.toClass : Kind → Class
  | .acceptor => NextStop.acceptor
  | .recv count => NextStop.recv count

/-! ## The system -/

/-- The two stop sources: that of the fiber's own token, and the pool's. -/
inductive StopKind
  | token
  | pool
  deriving DecidableEq

/-- A `std::stop_source`.  A callback is known by the address whose cancel it
asks for. -/
structure Source where
  requested : Bool
  /-- registered and not yet run -/
  callbacks : List ℕ
  deriving DecidableEq

/-- Where the consumer fiber stands. -/
inductive Phase (V : Type)
  /-- in the user's code -/
  | user
  /-- in `future.get()` -/
  | waiting
  /-- the promise of `next` is fulfilled, the fiber not yet resumed -/
  | woken (value : V)

instance {V : Type} (p : Phase V) : Decidable (p = .user) :=
  match p with
  | .user => .isTrue rfl
  | .waiting | .woken _ => .isFalse (by simp)

instance {V : Type} (p : Phase V) : Decidable (p = .waiting) :=
  match p with
  | .waiting => .isTrue rfl
  | .user | .woken _ => .isFalse (by simp)

/-- The object with its requests, the consumer fiber, the stop sources, and the
cancels asked for: in `cancel_queue_`, and submitted. -/
structure State (K : Class) where
  object : K.Object
  ring : Requests K.Cqe
  phase : Phase K.Value
  source : StopKind → Source
  cancelQueue : List ℕ
  submitted : List ℕ

/-- The atomic steps. -/
inductive Event (K : Class)
  /-- the kernel posts a CQE of an armed request -/
  | post (c : K.Cqe)
  /-- `drain_cqes` hands the next CQE to `complete`; `gotSqe` tells whether a
  re-arm obtains an SQE -/
  | drain (gotSqe : Bool)
  /-- the fiber calls `next` -/
  | next
  /-- the fiber resumes in `next` -/
  | resume
  | requestStop (kind : StopKind)
  /-- `request_stop` runs the next callback -/
  | runCallback (kind : StopKind)
  /-- another operation registers its callback -/
  | register (kind : StopKind) (userData : ℕ)
  /-- another operation ends -/
  | deregister (kind : StopKind) (userData : ℕ)
  /-- `flush_cancel_queue` -/
  | flush
  /-- the kernel executes the oldest cancel -/
  | executeCancel

variable {K : Class} {addr : ℕ}

def State.setSource (s : State K) (kind : StopKind) (src : Source) : State K :=
  { s with source := Function.update s.source kind src }

/-- `waiter_->set_value`. -/
def Phase.fulfil {V : Type} (p : Phase V) (v : V) : Phase V :=
  match p with
  | .waiting => .woken v
  | p => p

/-- `drain_cqes` calls `complete` with this CQE. -/
def dispatch (s : State K) (c : K.Cqe) (gotSqe : Bool)
    (ring : Requests K.Cqe) : State K :=
  { s with
    object := K.complete s.object c
    phase :=
      if K.waiter s.object = true then s.phase.fulfil (K.value c) else s.phase
    ring := if K.rearms c && gotSqe then ring.arm else ring }

/-- `next`, which sees the fiber's own token only. -/
def callNext (s : State K) : State K :=
  { s with
    object := (K.next s.object (s.source .token).requested).1
    phase :=
      if K.suspends (K.next s.object (s.source .token).requested).2 = true then
        .waiting
      else .user }

/-- When a step may be taken.  The other operations have other addresses than
the object. -/
def enabled (addr : ℕ) (s : State K) : Event K → Prop
  | .post c => 0 < s.ring.armed ∧ K.wellFormed c = true
  | .drain _ => s.ring.cq ≠ []
  | .next => s.phase = .user
  | .resume => ∃ v, s.phase = .woken v
  | .requestStop _ | .flush => True
  | .runCallback kind =>
      (s.source kind).requested = true ∧ (s.source kind).callbacks ≠ []
  | .register _ userData => userData ≠ addr
  | .deregister kind userData => userData ∈ (s.source kind).callbacks
  | .executeCancel => s.submitted ≠ []

/-- What a step does. -/
def effect (s : State K) : Event K → State K
  | .post c =>
      { s with
        object := K.attach s.object c
        ring := s.ring.post c (K.isLast c) }
  | .drain gotSqe =>
      match s.ring.take? with
      | some (c, ring) => dispatch s c gotSqe ring
      | none => s
  | .next => callNext s
  | .resume =>
      match s.phase with
      | .woken v =>
          { s with object := (K.afterWait s.object v).1, phase := .user }
      | _ => s
  | .requestStop kind =>
      s.setSource kind { s.source kind with requested := true }
  | .runCallback kind =>
      match (s.source kind).callbacks with
      | userData :: rest =>
          { s.setSource kind { s.source kind with callbacks := rest } with
            cancelQueue := s.cancelQueue ++ [userData] }
      | [] => s
  | .register kind userData =>
      -- a callback that comes too late runs at once
      if (s.source kind).requested = true then
        { s with cancelQueue := s.cancelQueue ++ [userData] }
      else
        s.setSource kind { s.source kind with
          callbacks := (s.source kind).callbacks ++ [userData] }
  | .deregister kind userData =>
      s.setSource kind { s.source kind with
        callbacks := (s.source kind).callbacks.erase userData }
  | .flush =>
      { s with cancelQueue := [], submitted := s.submitted ++ s.cancelQueue }
  | .executeCancel => { s with submitted := s.submitted.tail }

/-- No cancel for the object is asked for, nor will a callback ask for one. -/
structure Foreign (addr : ℕ) (s : State K) : Prop where
  callbacks : ∀ kind, addr ∉ (s.source kind).callbacks
  queued : addr ∉ s.cancelQueue
  submitted : addr ∉ s.submitted

/-- The object at the address `addr`, from its construction on, as a system of
atomic steps. -/
def machine (K : Class) (addr : ℕ) : Machine (State K) (Event K) where
  init := fun s =>
    s.object = K.initial ∧ s.ring = ⟨1, []⟩ ∧ s.phase = .user ∧ Foreign addr s
  enabled := enabled addr
  effect := effect

instance (s : State K) (e : Event K) :
    Decidable ((machine K addr).enabled s e) :=
  match e with
  | .post c =>
      inferInstanceAs (Decidable
        (0 < s.ring.armed ∧ K.wellFormed c = true))
  | .drain _ => inferInstanceAs (Decidable (s.ring.cq ≠ []))
  | .next => inferInstanceAs (Decidable (s.phase = .user))
  | .resume =>
      match hp : s.phase with
      | .woken v => .isTrue ⟨v, hp⟩
      | .user | .waiting => .isFalse (by rintro ⟨v, h⟩; rw [hp] at h; cases h)
  | .requestStop _ | .flush => inferInstanceAs (Decidable True)
  | .runCallback kind =>
      inferInstanceAs (Decidable
        ((s.source kind).requested = true ∧ (s.source kind).callbacks ≠ []))
  | .register _ userData => inferInstanceAs (Decidable (userData ≠ addr))
  | .deregister kind userData =>
      inferInstanceAs (Decidable (userData ∈ (s.source kind).callbacks))
  | .executeCancel => inferInstanceAs (Decidable (s.submitted ≠ []))

/-- A stop is requested and its callbacks have run, the fiber is suspended, and
nothing that would wake it is under way. -/
structure Unreached (addr : ℕ) (s : State K) : Prop where
  stopped : ∃ kind, (s.source kind).requested = true ∧
    (s.source kind).callbacks = []
  suspended : s.phase = .waiting
  drained : s.ring.cq = []
  notQueued : addr ∉ s.cancelQueue
  notSubmitted : addr ∉ s.submitted

/-! ## What holds in every run -/

theorem Foreign.setSource
    {s : State K} (h : Foreign addr s) (kind : StopKind) {src : Source}
    (hsrc : addr ∉ src.callbacks) : Foreign addr (s.setSource kind src) := by
  refine ⟨fun other => ?_, h.queued, h.submitted⟩
  by_cases hother : other = kind
  · simpa [State.setSource, hother] using hsrc
  · simpa [State.setSource, hother] using h.callbacks other

/-- `next` registers nothing, so that no step asks for a cancel of the
object. -/
theorem foreign_effect
    {s : State K} {e : Event K} (h : Foreign addr s)
    (he : enabled addr s e) : Foreign addr (effect s e) := by
  cases e with
  | post c => exact ⟨h.callbacks, h.queued, h.submitted⟩
  | drain gotSqe =>
      simp only [effect]
      split
      · exact ⟨h.callbacks, h.queued, h.submitted⟩
      · exact h
  | next => exact ⟨h.callbacks, h.queued, h.submitted⟩
  | resume =>
      simp only [effect]
      split
      · exact ⟨h.callbacks, h.queued, h.submitted⟩
      · exact h
  | requestStop kind => exact h.setSource kind (h.callbacks kind)
  | runCallback kind =>
      have haddr := h.callbacks kind
      simp only [effect]
      split
      next userData rest hcallbacks =>
        rw [hcallbacks, List.mem_cons, not_or] at haddr
        refine ⟨(h.setSource kind haddr.2).callbacks, ?_, h.submitted⟩
        simp [h.queued, haddr.1]
      next => exact h
  | register kind userData =>
      have hne : addr ≠ userData := Ne.symm he
      simp only [effect]
      split
      · refine ⟨h.callbacks, ?_, h.submitted⟩
        simp [h.queued, hne]
      · refine h.setSource kind ?_
        simp [h.callbacks kind, hne]
  | deregister kind userData =>
      exact h.setSource kind fun hmem =>
        h.callbacks kind (List.mem_of_mem_erase hmem)
  | flush =>
      refine ⟨h.callbacks, by simp [effect], ?_⟩
      simp [effect, h.queued, h.submitted]
  | executeCancel =>
      exact ⟨h.callbacks, h.queued,
        fun hmem => h.submitted (List.mem_of_mem_tail hmem)⟩

/-- `waiter_` is set exactly while the fiber is suspended. -/
def Waits (s : State K) : Prop :=
  K.waiter s.object = true ↔ s.phase = .waiting

theorem Waits.no_waiter
    {s : State K} (h : Waits s) (hp : s.phase ≠ .waiting) :
    K.waiter s.object = false := by
  rw [← Bool.not_eq_true]
  exact fun hwaiter => hp (h.mp hwaiter)

theorem waits_callNext
    {s : State K} (h : Waits s) (hp : s.phase = .user) :
    Waits (callNext s) := by
  have hwaiter := h.no_waiter (by simp [hp])
  simp only [Waits, callNext, K.waiter_next, hwaiter, Bool.false_or]
  split
  · simp [*]
  · simp [*]

theorem not_waiting_dispatch
    {s : State K} (h : Waits s) (c : K.Cqe) (gotSqe : Bool)
    (ring : Requests K.Cqe) : (dispatch s c gotSqe ring).phase ≠ .waiting := by
  simp only [dispatch]
  split
  next hwaiter =>
    rw [h.mp hwaiter]
    simp [Phase.fulfil]
  next hwaiter => exact fun hp => hwaiter (h.mpr hp)

theorem waits_effect
    {s : State K} {e : Event K} (h : Waits s) (he : enabled addr s e) :
    Waits (effect s e) := by
  cases e with
  | post c =>
      simp only [Waits, effect, K.waiter_attach]
      exact h
  | drain gotSqe =>
      simp only [effect]
      split
      next c ring _ =>
        refine iff_of_false ?_ (not_waiting_dispatch h c gotSqe ring)
        simp [dispatch, K.waiter_complete]
      next => exact h
  | next => exact waits_callNext h he
  | resume =>
      obtain ⟨v, hp⟩ := he
      have hwaiter := h.no_waiter (by simp [hp])
      simp only [effect, hp]
      refine iff_of_false ?_ (by simp)
      simp [K.waiter_afterWait, hwaiter]
  | requestStop kind => exact h
  | runCallback kind =>
      simp only [effect]
      split <;> exact h
  | register kind userData =>
      simp only [effect]
      split <;> exact h
  | deregister kind userData => exact h
  | flush => exact h
  | executeCancel => exact h

theorem sound_of_reachable
    {s : State K} (h : (machine K addr).Reachable s) :
    Foreign addr s ∧ Waits s := by
  refine Machine.Reachable.invariant
    (I := fun s => Foreign addr s ∧ Waits s) ?_ ?_ h
  · rintro s ⟨hobject, -, hp, hforeign⟩
    refine ⟨hforeign, ?_⟩
    simp [Waits, hobject, hp, K.waiter_initial]
  · rintro s e - ⟨hforeign, hwaits⟩ he
    exact ⟨foreign_effect hforeign he, waits_effect hwaits he⟩

/-! ## Runs in which a CQE is at hand -/

/-- A stop is requested only while the fiber is not suspended or a CQE is
undrained; and a `next` that comes after the stop of the pool suspends only if
a CQE is undrained. -/
def Prompt (s : State K) : Event K → Prop
  | .requestStop _ => s.phase = .waiting → s.ring.cq ≠ []
  | .next =>
      K.suspends (K.next s.object (s.source .token).requested).2 = true →
        (s.source .pool).requested = true → s.ring.cq ≠ []
  | _ => True

instance (s : State K) (e : Event K) : Decidable (Prompt s e) :=
  match e with
  | .requestStop _ =>
      inferInstanceAs (Decidable (s.phase = .waiting → s.ring.cq ≠ []))
  | .next =>
      inferInstanceAs (Decidable
        (K.suspends (K.next s.object (s.source .token).requested).2 = true →
          (s.source .pool).requested = true → s.ring.cq ≠ []))
  | .post _ | .drain _ | .resume | .runCallback _ | .register _ _
  | .deregister _ _ | .flush | .executeCancel => .isTrue trivial

/-- A fiber that is suspended although a stop was requested will be woken. -/
def Reached (s : State K) : Prop :=
  s.phase = .waiting → ∀ kind, (s.source kind).requested = true →
    s.ring.cq ≠ []

theorem Reached.of_same
    {s s' : State K} (h : Reached s) (hphase : s'.phase = s.phase)
    (hring : s'.ring = s.ring)
    (hsource : ∀ kind, (s'.source kind).requested =
      (s.source kind).requested) : Reached s' := by
  intro hp kind hrequested
  rw [hring]
  exact h (hphase ▸ hp) kind (hsource kind ▸ hrequested)

theorem requested_setSource
    (s : State K) (kind : StopKind) (callbacks : List ℕ) (other : StopKind) :
    ((s.setSource kind { s.source kind with callbacks := callbacks }).source
      other).requested = (s.source other).requested := by
  by_cases hother : other = kind
  · simp [State.setSource, hother]
  · simp [State.setSource, hother]

theorem reached_callNext
    {s : State K} (hguard : Prompt s .next) : Reached (callNext s) := by
  intro hp kind hrequested
  simp only [callNext] at hp hrequested ⊢
  split at hp
  next hsuspends =>
    cases kind with
    | token =>
        rw [hrequested, K.returns_of_stop] at hsuspends
        cases hsuspends
    | pool => exact hguard hsuspends hrequested
  next => cases hp

theorem reached_effect
    {s : State K} {e : Event K} (hwaits : Waits s) (h : Reached s)
    (he : enabled addr s e) (hguard : Prompt s e) : Reached (effect s e) := by
  cases e with
  | post c =>
      intro _ _ _
      simp [effect, Requests.post]
  | drain gotSqe =>
      obtain ⟨c, ring, htake⟩ := Requests.exists_take he
      simp only [effect, htake]
      exact fun hp => absurd hp (not_waiting_dispatch hwaits c gotSqe ring)
  | next => exact reached_callNext hguard
  | resume =>
      obtain ⟨v, hp⟩ := he
      simp only [effect, hp]
      exact fun huser => by cases huser
  | requestStop kind => exact fun hp _ _ => hguard hp
  | runCallback kind =>
      simp only [effect]
      split
      · exact h.of_same rfl rfl (requested_setSource s kind _)
      · exact h
  | register kind userData =>
      simp only [effect]
      split
      · exact h
      · exact h.of_same rfl rfl (requested_setSource s kind _)
  | deregister kind userData =>
      exact h.of_same rfl rfl (requested_setSource s kind _)
  | flush => exact h
  | executeCancel => exact h

theorem reached_of_prompt
    {s : State K} (h : (machine K addr).ReachableUnder Prompt s) :
    Reached s := by
  refine Machine.ReachableUnder.invariant ?_ ?_ h
  · rintro s ⟨-, -, huser, -⟩ hp
    rw [huser] at hp
    cases hp
  · intro s e hs hI he hguard
    exact reached_effect (sound_of_reachable hs.reachable).2 hI he hguard

theorem Reached.not_unreached
    {s : State K} (h : Reached s) : ¬Unreached addr s := by
  intro hbad
  obtain ⟨kind, hrequested, -⟩ := hbad.stopped
  exact h hbad.suspended kind hrequested hbad.drained

/-! ## A stop that does not reach the fiber -/

/-- `request_stop` runs all its callbacks, and none is for the object. -/
theorem reaches_callbacks_run
    (kind : StopKind) (callbacks : List ℕ) {s : State K}
    (hforeign : Foreign addr s) (hrequested : (s.source kind).requested = true)
    (hcallbacks : (s.source kind).callbacks = callbacks)
    (hp : s.phase = .waiting) (hcq : s.ring.cq = []) :
    ∃ s', (machine K addr).Reaches s s' ∧ Unreached addr s' := by
  induction callbacks generalizing s with
  | nil =>
      exact ⟨s, .refl, ⟨kind, hrequested, hcallbacks⟩, hp, hcq,
        hforeign.queued, hforeign.submitted⟩
  | cons userData rest ih =>
      have he : enabled addr s (.runCallback kind) :=
        ⟨hrequested, by simp [hcallbacks]⟩
      have heffect : effect s (.runCallback kind) =
          { s.setSource kind { s.source kind with callbacks := rest } with
            cancelQueue := s.cancelQueue ++ [userData] } := by
        simp [effect, hcallbacks]
      obtain ⟨s', hs', hbad⟩ := ih (s := effect s (.runCallback kind))
        (foreign_effect hforeign he)
        (by rw [heffect]; simpa [State.setSource] using hrequested)
        (by rw [heffect]; simp [State.setSource])
        (by rw [heffect]; exact hp) (by rw [heffect]; exact hcq)
      exact ⟨s', Machine.Reaches.head (M := machine K addr)
        (e := .runCallback kind) he hs', hbad⟩

/-- Each step that breaks the rule leads to a fiber that its stop does not
reach. -/
theorem unreached_of_not_prompt
    {s : State K} {e : Event K} (hs : (machine K addr).Reachable s)
    (he : enabled addr s e) (hbreak : ¬Prompt s e) :
    ∃ s', (machine K addr).Reaches (effect s e) s' ∧ Unreached addr s' := by
  have hforeign := foreign_effect (sound_of_reachable hs).1 he
  cases e with
  | requestStop kind =>
      obtain ⟨hp, hcq⟩ := Classical.not_imp.mp hbreak
      exact reaches_callbacks_run kind _ hforeign
        (by simp [effect, State.setSource]) rfl hp (not_not.mp hcq)
  | next =>
      obtain ⟨hsuspends, hrest⟩ := Classical.not_imp.mp hbreak
      obtain ⟨hrequested, hcq⟩ := Classical.not_imp.mp hrest
      exact reaches_callbacks_run .pool _ hforeign hrequested rfl
        (by simp [effect, callNext, hsuspends]) (not_not.mp hcq)
  | _ => exact absurd trivial hbreak

/-- The system without the kernel's CQEs: no connection, no message. -/
def quiet (K : Class) (addr : ℕ) : Machine (State K) (Event K) :=
  { machine K addr with
    enabled := fun s e => enabled addr s e ∧ ∀ c, e ≠ .post c }

/-- Without a CQE the fiber stays suspended, whatever else happens. -/
theorem waiting_of_quiet
    {s s' : State K} (hp : s.phase = .waiting) (hcq : s.ring.cq = [])
    (h : (quiet K addr).Reaches s s') : s'.phase = .waiting := by
  refine (h.stable (P := fun s => s.phase = .waiting ∧ s.ring.cq = []) ?_
    ⟨hp, hcq⟩).1
  rintro x e ⟨hx, hempty⟩ ⟨he, hquiet⟩
  cases e with
  | post c => exact absurd rfl (hquiet c)
  | drain gotSqe => exact absurd hempty he
  | next =>
      rw [show x.phase = .user from he] at hx
      cases hx
  | resume =>
      obtain ⟨v, hwoken⟩ := he
      rw [hwoken] at hx
      cases hx
  | runCallback kind =>
      refine ⟨?_, ?_⟩ <;> simp only [quiet, machine, effect]
      · split <;> exact hx
      · split <;> exact hempty
  | register kind userData =>
      refine ⟨?_, ?_⟩ <;> simp only [quiet, machine, effect]
      · split <;> exact hx
      · split <;> exact hempty
  | requestStop kind | deregister kind userData => exact ⟨hx, hempty⟩
  | flush => exact ⟨hx, hempty⟩
  | executeCancel => exact ⟨hx, hempty⟩

/-! ## The theorem on stop requests -/

/-- For both classes: in every run in which a stop, of the fiber's token or of
the pool, is requested only while the fiber is not suspended in `next` or a CQE
is undrained, and no `next` suspends after the stop of the pool without one, no
state is reached in which the stop is requested and its callbacks run, the fiber
suspended, no CQE undrained and no cancel for the object asked for.  Every step
that breaks this rule leads to such a state, and there the fiber stays suspended
until the kernel posts a CQE. -/
theorem stop_reaches_next_iff_cqe_undrained (kind : Kind) (addr : ℕ) :
    (∀ s, (machine kind.toClass addr).ReachableUnder Prompt s →
        ¬Unreached addr s) ∧
      (∀ s e, (machine kind.toClass addr).Reachable s → enabled addr s e →
        ¬Prompt s e →
          ∃ s', (machine kind.toClass addr).Reaches (effect s e) s' ∧
            Unreached addr s') ∧
      ∀ s s', Unreached addr s → (quiet kind.toClass addr).Reaches s s' →
        s'.phase = .waiting :=
  ⟨fun _ h => (reached_of_prompt h).not_unreached,
    fun _ _ => unreached_of_not_prompt,
    fun _ _ h => waiting_of_quiet h.suspended h.drained⟩

/-- The object as its constructor leaves it, and no stop requested. -/
def initial (K : Class) : State K where
  object := K.initial
  ring := ⟨1, []⟩
  phase := .user
  source := fun _ => ⟨false, []⟩
  cancelQueue := []
  submitted := []

theorem init_initial (K : Class) (addr : ℕ) :
    (machine K addr).init (initial K) :=
  ⟨rfl, rfl, rfl, ⟨by simp [initial], by simp [initial], by simp [initial]⟩⟩

/-- A stop is requested while a connection is undrained: the fiber is woken by
it, and its next call of `next` sees the token. -/
theorem stop_reaches_next_behind_connection :
    ∃ s, (machine Kind.acceptor.toClass 0).ReachableUnder Prompt s ∧
      (s.source .token).requested = true ∧ ¬Unreached 0 s := by
  obtain ⟨s, hs, hrequested⟩ := Machine.exists_reachableUnder_of_exec
    (M := machine Kind.acceptor.toClass 0) (G := Prompt)
    (P := fun s => (s.source .token).requested = true) (init_initial _ 0)
    [.next, .register .token 8, .post (⟨5, true⟩ : Acceptor.Stream.Cqe),
      .requestStop .token, .runCallback .token, .drain true, .resume, .next]
    (by decide)
  exact ⟨s, hs, hrequested,
    (stop_reaches_next_iff_cqe_undrained .acceptor 0).1 s hs⟩

/-- The fiber is suspended in `next` of an acceptor when the stop of its token
is requested; and it suspends in `next` of a receiver after the stop of the pool
was requested.  Nothing will wake it. -/
theorem stop_misses_suspended_next :
    (∃ s, (machine Kind.acceptor.toClass 0).Reachable s ∧ Unreached 0 s) ∧
      ∃ s, (machine (Kind.recv 2).toClass 0).Reachable s ∧ Unreached 0 s := by
  constructor
  · obtain ⟨s, hs, hstopped, hp, hcq, hqueue, hsubmitted⟩ :=
      Machine.exists_reachableUnder_of_exec
        (M := machine Kind.acceptor.toClass 0) (G := fun _ _ => True)
        (P := fun s => ((s.source .token).requested = true ∧
          (s.source .token).callbacks = []) ∧ s.phase = .waiting ∧
          s.ring.cq = [] ∧ 0 ∉ s.cancelQueue ∧ 0 ∉ s.submitted)
        (init_initial _ 0) [.next, .requestStop .token] (by decide)
    exact ⟨s, hs, ⟨.token, hstopped⟩, hp, hcq, hqueue, hsubmitted⟩
  · obtain ⟨s, hs, hstopped, hp, hcq, hqueue, hsubmitted⟩ :=
      Machine.exists_reachableUnder_of_exec
        (M := machine (Kind.recv 2).toClass 0) (G := fun _ _ => True)
        (P := fun s => ((s.source .pool).requested = true ∧
          (s.source .pool).callbacks = []) ∧ s.phase = .waiting ∧
          s.ring.cq = [] ∧ 0 ∉ s.cancelQueue ∧ 0 ∉ s.submitted)
        (init_initial _ 0) [.requestStop .pool, .next] (by decide)
    exact ⟨s, hs, ⟨.pool, hstopped⟩, hp, hcq, hqueue, hsubmitted⟩

end Fiberexec.Multishot.NextStop
