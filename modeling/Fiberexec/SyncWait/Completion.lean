import Fiberexec.SyncWait.Model

/-!
# The completion reaches the waiter

Two facts carry the argument.  `done` is written and tested under the mutex, so
that a waiter that goes to sleep does so before `done` is set and is still on
the wait list when `notify_all` gets to it.  And the completion method takes
its own reference to the shared state while the waiter, which has not seen
`done`, still keeps the receiver.
-/

namespace Fiberexec.SyncWait

open Support

variable {V X : Type*} {s : State V X} {e : Event V X}

/-! ## What each place implies -/

/-- The completion method holds `mtx`. -/
def Completer.holdsLock : Completer → Bool
  | .locked | .stored | .marked => true
  | _ => false

/-- The completion method has stored its result. -/
def Completer.hasStored : Completer → Bool
  | .idle | .entered | .copied | .locked => false
  | _ => true

/-- The completion method has set `done`. -/
def Completer.hasMarked : Completer → Bool
  | .idle | .entered | .copied | .locked | .stored => false
  | _ => true

/-- The completion method holds a copy of `state_`. -/
def Completer.holdsCopy : Completer → Bool
  | .idle | .entered | .finished => false
  | _ => true

/-- `notify_all` has yet to go through the wait list. -/
def Completer.mayWake : Completer → Bool
  | .notified | .finished => false
  | _ => true

/-- The waiter holds `mtx`. -/
def Waiter.holdsLock : Waiter → Bool
  | .locked | .refused | .passed => true
  | _ => false

/-- The waiter has found `done` true. -/
def Waiter.sawDone : Waiter → Bool
  | .passed | .unlocked | .settled | .releasing | .returned => true
  | _ => false

/-- The waiter has read the result. -/
def Waiter.hasResult : Waiter → Bool
  | .settled | .releasing | .returned => true
  | _ => false

/-- The waiter has not destroyed the operation state. -/
def Waiter.keepsOp : Waiter → Bool
  | .releasing | .returned => false
  | _ => true

/-- What a completion leaves in `value` and `error`. -/
def Completion.saved : Completion V X → Option V × Option (Exception X)
  | .setValue v none => (some v, none)
  | .setValue _ (some e) => (none, some e)
  | .setError e => (none, e.ptr)
  | .setStopped => (none, none)

/-- The two parties at the mutex and on the wait list. -/
structure Synced (s : State V X) : Prop where
  byCompleter : s.owner = some .completer ↔ s.completer.holdsLock = true
  byWaiter : s.owner = some .waiter ↔ s.waiter.holdsLock = true
  done : s.done = s.completer.hasMarked
  saw : s.waiter.sawDone = true → s.completer.hasMarked = true
  refused : s.waiter = .refused → s.completer.hasMarked = false
  enqueued : s.enqueued = true →
    s.waiter = .waiting ∧ s.completer.mayWake = true

/-- Who keeps the shared state and the operation state. -/
structure Kept (s : State V X) : Prop where
  completer : s.held .completer = s.completer.holdsCopy
  receiver : s.held .receiver = s.waiter.keepsOp
  waiter : s.held .waiter = decide (s.waiter ≠ .returned)
  op : s.op = s.waiter.keepsOp

/-- What was delivered, what is stored and what was read. -/
structure Answered (s : State V X) : Prop where
  idle : s.delivered = none ↔ s.completer = .idle
  blank : s.completer.hasStored = false → s.value = none ∧ s.error = none
  saved : s.completer.hasStored = true →
    ∃ c, s.delivered = some c ∧ (s.value, s.error) = c.saved
  result : s.waiter.hasResult = true →
    ∃ c, s.delivered = some c ∧ s.result = some c.expected

theorem synced_initial : Synced (initial : State V X) := by
  constructor <;> simp [initial, Completer.holdsLock, Waiter.holdsLock,
    Completer.hasMarked, Waiter.sawDone]

theorem kept_initial : Kept (initial : State V X) :=
  ⟨rfl, rfl, rfl, rfl⟩

theorem answered_initial : Answered (initial : State V X) where
  idle := iff_of_true rfl rfl
  blank := fun _ => ⟨rfl, rfl⟩
  saved := nofun
  result := nofun

/-! ## The mutex and the wait list -/

theorem Synced.not_byCompleter
    (h : Synced s) (hp : s.completer.holdsLock = false) :
    s.owner ≠ some .completer := by
  rw [ne_eq, h.byCompleter, hp]
  simp

theorem Synced.not_byWaiter
    (h : Synced s) (hp : s.waiter.holdsLock = false) :
    s.owner ≠ some .waiter := by
  rw [ne_eq, h.byWaiter, hp]
  simp

theorem Synced.exclusive
    (h : Synced s) (hp : s.waiter.holdsLock = true) :
    s.completer.holdsLock = false := by
  have howner := h.byWaiter.mpr hp
  rw [← Bool.not_eq_true, ← h.byCompleter, howner]
  simp

theorem Synced.byCompleter_effect
    (h : Synced s) (he : enabled s e) :
    (effect s e).owner = some .completer ↔
      (effect s e).completer.holdsLock = true := by
  cases e with
  | lockReceiver => exact iff_of_true rfl rfl
  | store | setDone =>
      refine iff_of_true (h.byCompleter.mpr ?_) rfl
      rw [show s.completer = _ from he]
      rfl
  | unlockReceiver => exact iff_of_false nofun nofun
  | deliver c inline =>
      exact iff_of_false (h.not_byCompleter (by rw [he.1]; rfl)) nofun
  | wakeWaiter | spuriousWake => exact h.byCompleter
  | notifyReturns =>
      exact iff_of_false (h.not_byCompleter (by rw [he.1]; rfl)) nofun
  | copyState | notifyAll | dropCopy =>
      refine iff_of_false (h.not_byCompleter ?_) nofun
      rw [show s.completer = _ from he]
      rfl
  | lockWaiter =>
      refine iff_of_false nofun (h.byCompleter.not.mp ?_)
      rw [he.2]
      exact nofun
  | enqueue | unlockWaiter =>
      refine iff_of_false nofun ?_
      have hp : s.waiter.holdsLock = true := by
        rw [show s.waiter = _ from he]
        rfl
      exact (Bool.not_eq_true _).mpr (h.exclusive hp)
  | startReturns | test | readResult | destroyOp | dropState =>
      exact h.byCompleter

theorem Synced.byWaiter_effect
    (h : Synced s) (he : enabled s e) :
    (effect s e).owner = some .waiter ↔
      (effect s e).waiter.holdsLock = true := by
  cases e with
  | lockWaiter => exact iff_of_true rfl rfl
  | test =>
      have hp : s.waiter = .locked := he
      refine iff_of_true (h.byWaiter.mpr (by rw [hp]; rfl)) ?_
      simp only [effect, step]
      split <;> rfl
  | enqueue | unlockWaiter => exact iff_of_false nofun nofun
  | startReturns =>
      exact iff_of_false (h.not_byWaiter (by rw [he.1]; rfl)) nofun
  | readResult | destroyOp | dropState =>
      refine iff_of_false (h.not_byWaiter ?_) nofun
      rw [show s.waiter = _ from he]
      rfl
  | lockReceiver =>
      refine iff_of_false nofun (h.byWaiter.not.mp ?_)
      rw [he.2]
      exact nofun
  | unlockReceiver =>
      refine iff_of_false nofun (h.byWaiter.not.mp ?_)
      have hp : s.completer = .marked := he
      rw [h.byCompleter.mpr (by rw [hp]; rfl)]
      exact nofun
  | deliver | copyState | store | setDone | notifyAll | wakeWaiter
  | notifyReturns | dropCopy | spuriousWake => exact h.byWaiter

theorem hasMarked_effect (he : enabled s e) :
    (effect s e).completer.hasMarked = s.completer.hasMarked ∨
      e = .setDone ∧ s.completer.hasMarked = false ∧
        (effect s e).completer.hasMarked = true := by
  cases e with
  | setDone =>
      have hp : s.completer = .stored := he
      exact .inr ⟨rfl, by rw [hp]; rfl, rfl⟩
  | deliver c inline => exact .inl (by rw [he.1]; rfl)
  | lockReceiver | notifyReturns => exact .inl (by rw [he.1]; rfl)
  | copyState | store | unlockReceiver | notifyAll | dropCopy =>
      refine .inl ?_
      rw [show s.completer = _ from he]
      rfl
  | wakeWaiter | startReturns | lockWaiter | test | enqueue | spuriousWake
  | unlockWaiter | readResult | destroyOp | dropState => exact .inl rfl

theorem Synced.done_effect
    (h : Synced s) (he : enabled s e) :
    (effect s e).done = (effect s e).completer.hasMarked := by
  rcases hasMarked_effect he with hsame | ⟨rfl, -, hmarked⟩
  · rw [hsame]
    cases e with
    | setDone =>
        have hp : s.completer = .stored := he
        rw [hp] at hsame
        cases hsame
    | _ => exact h.done
  · exact hmarked.symm

theorem Synced.saw_effect
    (h : Synced s) (he : enabled s e)
    (hsaw : (effect s e).waiter.sawDone = true) :
    (effect s e).completer.hasMarked = true := by
  have hkeep : s.completer.hasMarked = true →
      (effect s e).completer.hasMarked = true := by
    intro hmarked
    rcases hasMarked_effect he with hsame | ⟨-, -, hmarked'⟩
    · rw [hsame, hmarked]
    · exact hmarked'
  apply hkeep
  cases e with
  | test =>
      rw [← h.done]
      simp only [effect, step] at hsaw
      split at hsaw
      next hdone => exact hdone
      next => cases hsaw
  | unlockWaiter | readResult | destroyOp | dropState =>
      apply h.saw
      rw [show s.waiter = _ from he]
      rfl
  | startReturns | lockWaiter | enqueue => cases hsaw
  | deliver | copyState | lockReceiver | store | setDone | unlockReceiver
  | notifyAll | wakeWaiter | notifyReturns | dropCopy | spuriousWake =>
      exact h.saw hsaw

/-- The completion method cannot set `done` while the waiter holds the
mutex. -/
theorem Synced.refused_effect
    (h : Synced s) (he : enabled s e)
    (hrefused : (effect s e).waiter = .refused) :
    (effect s e).completer.hasMarked = false := by
  cases e with
  | test =>
      change s.completer.hasMarked = false
      rw [← h.done]
      simp only [effect, step] at hrefused
      split at hrefused
      next => cases hrefused
      next hdone => simpa using hdone
  | setDone =>
      have hp : s.completer = .stored := he
      have hwaiter : s.waiter = .refused := hrefused
      have hfree := h.exclusive (by rw [hwaiter]; rfl)
      rw [hp] at hfree
      cases hfree
  | startReturns | lockWaiter | enqueue | unlockWaiter | readResult
  | destroyOp | dropState => cases hrefused
  | deliver | copyState | lockReceiver | store | unlockReceiver
  | notifyAll | wakeWaiter | notifyReturns | dropCopy | spuriousWake =>
      have hold := h.refused hrefused
      rcases hasMarked_effect he with hsame | ⟨heq, -, -⟩
      · rw [hsame, hold]
      · cases heq

/-- The waiter goes to sleep before `done` is set, and `notify_all` returns only
when it has been taken off the wait list. -/
theorem Synced.enqueued_effect
    (h : Synced s) (he : enabled s e)
    (henqueued : (effect s e).enqueued = true) :
    (effect s e).waiter = .waiting ∧
      (effect s e).completer.mayWake = true := by
  cases e with
  | enqueue =>
      refine ⟨rfl, ?_⟩
      have hunmarked := h.refused he
      change s.completer.mayWake = true
      cases hp : s.completer with
      | notified | finished => rw [hp] at hunmarked; cases hunmarked
      | _ => rfl
  | wakeWaiter | spuriousWake => cases henqueued
  | notifyReturns => exact absurd (he.2.symm.trans henqueued) (by simp)
  | dropCopy =>
      have hwake := (h.enqueued henqueued).2
      rw [show s.completer = _ from he] at hwake
      cases hwake
  | deliver | copyState | lockReceiver | store | setDone | unlockReceiver
  | notifyAll => exact ⟨(h.enqueued henqueued).1, rfl⟩
  | startReturns =>
      have hwaiting := (h.enqueued henqueued).1
      exact absurd (hwaiting.symm.trans he.1) (by simp)
  | lockWaiter =>
      have hwaiting := (h.enqueued henqueued).1
      rcases he.1 with hstarted | ⟨-, hoff⟩
      · exact absurd (hwaiting.symm.trans hstarted) (by simp)
      · exact absurd (hoff.symm.trans henqueued) (by simp)
  | test | unlockWaiter | readResult | destroyOp | dropState =>
      have hwaiting := (h.enqueued henqueued).1
      rw [show s.waiter = _ from he] at hwaiting
      cases hwaiting

theorem synced_effect (h : Synced s) (he : enabled s e) :
    Synced (effect s e) where
  byCompleter := h.byCompleter_effect he
  byWaiter := h.byWaiter_effect he
  done := h.done_effect he
  saw := h.saw_effect he
  refused := h.refused_effect he
  enqueued := h.enqueued_effect he

/-! ## Lifetimes -/

theorem Kept.completer_effect
    (h : Kept s) (he : enabled s e) :
    (effect s e).held .completer = (effect s e).completer.holdsCopy := by
  have hold := h.completer
  cases e with
  | copyState | dropCopy => rfl
  | destroyOp | dropState =>
      exact hold
  | deliver c inline =>
      rw [he.1] at hold
      exact hold
  | lockReceiver | notifyReturns =>
      rw [he.1] at hold
      exact hold
  | store | setDone | unlockReceiver | notifyAll =>
      rw [show s.completer = _ from he] at hold
      exact hold
  | wakeWaiter | startReturns | lockWaiter | test | enqueue | spuriousWake
  | unlockWaiter | readResult => exact hold

/-- The waiter keeps the operation state, and the receiver in it the shared
state, up to one step. -/
theorem keepsOp_effect (he : enabled s e) (hdestroy : e ≠ .destroyOp) :
    (effect s e).waiter.keepsOp = s.waiter.keepsOp := by
  cases e with
  | destroyOp => exact absurd rfl hdestroy
  | startReturns => rw [he.1]; rfl
  | lockWaiter => rcases he.1 with hp | ⟨hp, -⟩ <;> (rw [hp]; rfl)
  | test =>
      rw [show s.waiter = _ from he]
      simp only [effect, step]
      split <;> rfl
  | enqueue | unlockWaiter | readResult | dropState =>
      rw [show s.waiter = _ from he]
      rfl
  | deliver | copyState | lockReceiver | store | setDone | unlockReceiver
  | notifyAll | wakeWaiter | notifyReturns | dropCopy | spuriousWake => rfl

theorem Kept.receiver_effect
    (h : Kept s) (he : enabled s e) :
    (effect s e).held .receiver = (effect s e).waiter.keepsOp := by
  by_cases hdestroy : e = .destroyOp
  · subst hdestroy
    rfl
  · rw [keepsOp_effect he hdestroy, ← h.receiver]
    cases e with
    | destroyOp => exact absurd rfl hdestroy
    | _ => rfl

theorem Kept.op_effect
    (h : Kept s) (he : enabled s e) :
    (effect s e).op = (effect s e).waiter.keepsOp := by
  by_cases hdestroy : e = .destroyOp
  · subst hdestroy
    rfl
  · rw [keepsOp_effect he hdestroy, ← h.op]
    cases e with
    | destroyOp => exact absurd rfl hdestroy
    | _ => rfl

theorem Kept.waiter_effect
    (h : Kept s) (he : enabled s e) :
    (effect s e).held .waiter = decide ((effect s e).waiter ≠ .returned) := by
  have hold := h.waiter
  cases e with
  | dropState => rfl
  | copyState | dropCopy =>
      exact hold
  | destroyOp =>
      rw [show s.waiter = _ from he] at hold
      exact hold
  | startReturns =>
      rw [he.1] at hold
      exact hold
  | lockWaiter =>
      rcases he.1 with hp | ⟨hp, -⟩ <;>
      · rw [hp] at hold
        exact hold
  | test =>
      rw [show s.waiter = _ from he] at hold
      simp only [effect, step]
      split <;> exact hold
  | enqueue | unlockWaiter | readResult =>
      rw [show s.waiter = _ from he] at hold
      exact hold
  | deliver | lockReceiver | store | setDone | unlockReceiver | notifyAll
  | wakeWaiter | notifyReturns | spuriousWake => exact hold

theorem kept_effect (h : Kept s) (he : enabled s e) : Kept (effect s e) where
  completer := h.completer_effect he
  receiver := h.receiver_effect he
  waiter := h.waiter_effect he
  op := h.op_effect he

theorem Synced.keepsOp
    (h : Synced s) (hp : s.completer.hasMarked = false) :
    s.waiter.keepsOp = true := by
  have hsaw : s.waiter.sawDone = false := by
    rw [← Bool.not_eq_true]
    intro hsaw
    exact absurd (hp.symm.trans (h.saw hsaw)) (by simp)
  cases hw : s.waiter with
  | releasing | returned => rw [hw] at hsaw; cases hsaw
  | _ => rfl

theorem Kept.alive_of_copy
    (h : Kept s) (hp : s.completer.holdsCopy = true) : s.alive = true := by
  rw [State.alive, h.completer, hp, Bool.or_true]

theorem Kept.alive_of_waiter
    (h : Kept s) (hp : s.waiter ≠ .returned) : s.alive = true := by
  rw [State.alive, h.waiter, decide_eq_true hp, Bool.true_or, Bool.true_or]

/-- Whoever uses the shared state holds a reference to it. -/
theorem Kept.alive_of_uses
    (hsync : Synced s) (h : Kept s) (he : enabled s e)
    (huses : e.usesState = true) : s.alive = true := by
  cases e with
  | deliver | startReturns | spuriousWake | destroyOp => cases huses
  | copyState =>
      have hp : s.completer = .entered := he
      have hop := hsync.keepsOp (by rw [hp]; rfl)
      rw [State.alive, h.receiver, hop, Bool.or_true, Bool.true_or]
  | lockReceiver | wakeWaiter | notifyReturns =>
      exact h.alive_of_copy (by rw [he.1]; rfl)
  | store | setDone | unlockReceiver | notifyAll | dropCopy =>
      refine h.alive_of_copy ?_
      rw [show s.completer = _ from he]
      rfl
  | lockWaiter =>
      refine h.alive_of_waiter ?_
      rcases he.1 with hp | ⟨hp, -⟩ <;> simp [hp]
  | test | enqueue | unlockWaiter | readResult | dropState =>
      refine h.alive_of_waiter ?_
      rw [show s.waiter = _ from he]
      simp

/-- Whoever uses the operation state does so before it is destroyed. -/
theorem Kept.op_of_uses
    (hsync : Synced s) (h : Kept s) (he : enabled s e)
    (huses : e.usesOp = true) : s.op = true := by
  rw [h.op]
  cases e with
  | deliver c inline => exact hsync.keepsOp (by rw [he.1]; rfl)
  | copyState | store =>
      apply hsync.keepsOp
      rw [show s.completer = _ from he]
      rfl
  | startReturns => rw [he.1]; rfl
  | destroyOp => rw [show s.waiter = _ from he]; rfl
  | _ => cases huses

theorem violates_eq_false
    (hsync : Synced s) (h : Kept s) (he : enabled s e) :
    violates s e = false := by
  have hstate : e.usesState = true → s.alive = true :=
    h.alive_of_uses hsync he
  have hop : e.usesOp = true → s.op = true := h.op_of_uses hsync he
  rw [violates]
  cases husesState : e.usesState <;> cases husesOp : e.usesOp <;>
    simp_all

/-! ## The result -/

theorem hasStored_effect (he : enabled s e) :
    (effect s e).completer.hasStored = s.completer.hasStored ∨ e = .store := by
  cases e with
  | store => exact .inr rfl
  | deliver c inline => exact .inl (by rw [he.1]; rfl)
  | lockReceiver | notifyReturns => exact .inl (by rw [he.1]; rfl)
  | copyState | setDone | unlockReceiver | notifyAll | dropCopy =>
      refine .inl ?_
      rw [show s.completer = _ from he]
      rfl
  | wakeWaiter | startReturns | lockWaiter | test | enqueue | spuriousWake
  | unlockWaiter | readResult | destroyOp | dropState => exact .inl rfl

theorem data_effect (hstore : e ≠ .store) :
    (effect s e).value = s.value ∧ (effect s e).error = s.error := by
  cases e with
  | store => exact absurd rfl hstore
  | _ => exact ⟨rfl, rfl⟩

theorem delivered_effect (he : enabled s e) (hidle : s.completer ≠ .idle) :
    (effect s e).delivered = s.delivered := by
  cases e with
  | deliver c inline => exact absurd he.1 hidle
  | _ => rfl

theorem Answered.idle_effect
    (h : Answered s) (he : enabled s e) :
    (effect s e).delivered = none ↔ (effect s e).completer = .idle := by
  have hnone : s.completer ≠ .idle → s.delivered ≠ none := h.idle.not.mpr
  cases e with
  | deliver c inline => exact iff_of_false nofun nofun
  | lockReceiver | notifyReturns =>
      exact iff_of_false (hnone (by rw [he.1]; exact nofun)) nofun
  | copyState | store | setDone | unlockReceiver | notifyAll | dropCopy =>
      refine iff_of_false (hnone ?_) nofun
      rw [show s.completer = _ from he]
      exact nofun
  | wakeWaiter | startReturns | lockWaiter | test | enqueue | spuriousWake
  | unlockWaiter | readResult | destroyOp | dropState => exact h.idle

theorem Answered.blank_effect
    (h : Answered s) (he : enabled s e)
    (hp : (effect s e).completer.hasStored = false) :
    (effect s e).value = none ∧ (effect s e).error = none := by
  rcases hasStored_effect he with hsame | rfl
  · have hstore : e ≠ .store := by
      rintro rfl
      cases hp
    obtain ⟨hvalue, herror⟩ := data_effect (s := s) hstore
    rw [hvalue, herror]
    exact h.blank (hsame.symm.trans hp)
  · cases hp

theorem Answered.saved_effect
    (h : Answered s) (he : enabled s e)
    (hp : (effect s e).completer.hasStored = true) :
    ∃ c, (effect s e).delivered = some c ∧
      ((effect s e).value, (effect s e).error) = c.saved := by
  by_cases hstore : e = .store
  · subst hstore
    have hlocked : s.completer = .locked := he
    obtain ⟨hvalue, herror⟩ := h.blank (by rw [hlocked]; rfl)
    have hdelivered : s.delivered ≠ none :=
      h.idle.not.mpr (by rw [hlocked]; exact nofun)
    obtain ⟨c, hc⟩ := Option.ne_none_iff_exists'.mp hdelivered
    refine ⟨c, hc, ?_⟩
    change (s.stored.1, s.stored.2) = c.saved
    rw [State.stored, hc, hvalue, herror]
    cases c with
    | setValue v throws => cases throws <;> rfl
    | setError e => rfl
    | setStopped => rfl
  · have hold := (hasStored_effect he).resolve_right hstore
    rw [hp] at hold
    have hidle : s.completer ≠ .idle := by
      intro hidle
      rw [hidle] at hold
      cases hold
    obtain ⟨hvalue, herror⟩ := data_effect (s := s) hstore
    rw [delivered_effect he hidle, hvalue, herror]
    exact h.saved hold.symm

/-- Reading what a completion has stored gives what is promised for it. -/
theorem outcome_of_saved
    {c : Completion V X} (h : (s.value, s.error) = c.saved) :
    s.outcome = c.expected := by
  obtain ⟨hvalue, herror⟩ := Prod.mk.inj h
  rw [State.outcome, hvalue, herror]
  cases c with
  | setValue v throws => cases throws <;> rfl
  | setError e =>
      simp only [Completion.expected]
      cases e.ptr <;> rfl
  | setStopped => rfl

theorem hasStored_of_hasMarked
    {p : Completer} (h : p.hasMarked = true) : p.hasStored = true := by
  cases p <;> first | rfl | cases h

theorem Answered.result_effect
    (hsync : Synced s) (h : Answered s) (he : enabled s e)
    (hp : (effect s e).waiter.hasResult = true) :
    ∃ c, (effect s e).delivered = some c ∧
      (effect s e).result = some c.expected := by
  cases e with
  | readResult =>
      have hunlocked : s.waiter = .unlocked := he
      have hmarked := hsync.saw (by rw [hunlocked]; rfl)
      obtain ⟨c, hc, hsaved⟩ := h.saved (hasStored_of_hasMarked hmarked)
      exact ⟨c, hc, congrArg some (outcome_of_saved hsaved)⟩
  | destroyOp | dropState =>
      apply h.result
      rw [show s.waiter = _ from he]
      rfl
  | deliver c inline =>
      have hwaiter : s.waiter.sawDone = true := by
        have hresult : s.waiter.hasResult = true := hp
        cases hw : s.waiter <;> rw [hw] at hresult <;> first | rfl | cases hresult
      have hmarked := hsync.saw hwaiter
      rw [he.1] at hmarked
      cases hmarked
  | startReturns | lockWaiter | enqueue | unlockWaiter => cases hp
  | test =>
      simp only [effect, step] at hp
      split at hp <;> cases hp
  | copyState | lockReceiver | store | setDone | unlockReceiver | notifyAll
  | wakeWaiter | notifyReturns | dropCopy | spuriousWake => exact h.result hp

/-- All that is known of a reachable state. -/
structure Sound (s : State V X) : Prop where
  synced : Synced s
  kept : Kept s
  answered : Answered s
  unviolated : s.violated = false

theorem sound_effect (h : Sound s) (he : enabled s e) :
    Sound (effect s e) where
  synced := synced_effect h.synced he
  kept := kept_effect h.kept he
  answered :=
    { idle := h.answered.idle_effect he
      blank := h.answered.blank_effect he
      saved := h.answered.saved_effect he
      result := h.answered.result_effect h.synced he }
  unviolated := by
    change (s.violated || violates s e) = false
    rw [h.unviolated, violates_eq_false h.synced h.kept he]
    rfl

theorem reachable_sound
    (h : (machine : Machine (State V X) (Event V X)).Reachable s) :
    Sound s := by
  refine Machine.Reachable.invariant ?_ ?_ h
  · rintro s rfl
    exact ⟨synced_initial, kept_initial, answered_initial, rfl⟩
  · intro s e _ hI he
    exact sound_effect hI he

/-! ## Progress -/

/-- How many steps the completion method has left. -/
def Completer.rank : Completer → ℕ
  | .idle => 9
  | .entered => 8
  | .copied => 7
  | .locked => 6
  | .stored => 5
  | .marked => 4
  | .unlocked => 3
  | .notifying => 2
  | .notified => 1
  | .finished => 0

/-- How many steps the waiter has left at most, unless it is woken by
nobody. -/
def State.waiterRank (s : State V X) : ℕ :=
  match s.waiter with
  | .starting => 13
  | .started => 12
  | .locked => if s.done = true then 6 else 10
  | .refused => 9
  | .waiting =>
      if s.enqueued = true then 8 else if s.done = true then 7 else 11
  | .passed => 5
  | .unlocked => 4
  | .settled => 3
  | .releasing => 2
  | .returned => 1

def State.rank (s : State V X) : ℕ :=
  s.completer.rank + s.waiterRank

/-- Every step takes the call nearer to its end, except that the waiter may be
woken by nobody. -/
theorem rank_effect
    (hsync : Synced s) (he : enabled s e) (hspurious : e ≠ .spuriousWake) :
    (effect s e).rank < s.rank := by
  cases e with
  | spuriousWake => exact absurd rfl hspurious
  | deliver c inline =>
      refine Nat.add_lt_add_right ?_ s.waiterRank
      rw [he.1]
      exact Nat.lt_succ_self 8
  | lockReceiver | notifyReturns =>
      refine Nat.add_lt_add_right ?_ s.waiterRank
      rw [he.1]
      exact Nat.lt_succ_self _
  | copyState | store | unlockReceiver | notifyAll | dropCopy =>
      refine Nat.add_lt_add_right ?_ s.waiterRank
      rw [show s.completer = _ from he]
      exact Nat.lt_succ_self _
  | setDone =>
      have hle : (effect s .setDone).waiterRank ≤ s.waiterRank := by
        cases hw : s.waiter <;> cases hq : s.enqueued <;>
          cases hdone : s.done <;>
          simp [State.waiterRank, effect, step, hw, hq, hdone]
      have hp : s.completer.rank = 5 := by rw [show s.completer = _ from he]; rfl
      simp only [State.rank, hp]
      exact Nat.add_lt_add_of_lt_of_le (Nat.lt_succ_self 4) hle
  | wakeWaiter =>
      obtain ⟨hp, henqueued⟩ := he
      have hwaiting := (hsync.enqueued henqueued).1
      have hdone : s.done = true := by rw [hsync.done, hp]; rfl
      simp [State.rank, State.waiterRank, effect, step, hwaiting, henqueued,
        hdone]
  | startReturns =>
      simp [State.rank, State.waiterRank, effect, step, he.1]
  | lockWaiter =>
      rcases he.1 with hp | ⟨hp, henqueued⟩
      · cases hdone : s.done <;>
          simp [State.rank, State.waiterRank, effect, step, hp, hdone]
      · cases hdone : s.done <;>
          simp [State.rank, State.waiterRank, effect, step, hp, henqueued, hdone]
  | test =>
      have hp : s.waiter = .locked := he
      cases hdone : s.done <;>
        simp [State.rank, State.waiterRank, effect, step, hp, hdone]
  | enqueue | unlockWaiter | readResult | destroyOp | dropState =>
      simp [State.rank, State.waiterRank, effect, step,
        show s.waiter = _ from he]

theorem Synced.owner_eq_none
    (h : Synced s) (hc : s.completer.holdsLock = false)
    (hw : s.waiter.holdsLock = false) : s.owner = none := by
  cases howner : s.owner with
  | none => rfl
  | some p =>
      cases p with
      | waiter => exact absurd howner (h.not_byWaiter hw)
      | completer => exact absurd howner (h.not_byCompleter hc)

/-- Until both are done one of the two parties can go on. -/
theorem exists_enabled
    (h : Synced s) (hidle : s.completer ≠ .idle)
    (hend : ¬(s.waiter = .returned ∧ s.completer = .finished)) :
    ∃ e : Event V X, e ≠ .spuriousWake ∧ enabled s e := by
  cases hc : s.completer with
  | idle => exact absurd hc hidle
  | entered => exact ⟨.copyState, by simp, hc⟩
  | locked => exact ⟨.store, by simp, hc⟩
  | stored => exact ⟨.setDone, by simp, hc⟩
  | marked => exact ⟨.unlockReceiver, by simp, hc⟩
  | unlocked => exact ⟨.notifyAll, by simp, hc⟩
  | notifying =>
      cases hq : s.enqueued with
      | true => exact ⟨.wakeWaiter, by simp, hc, hq⟩
      | false => exact ⟨.notifyReturns, by simp, hc, hq⟩
  | notified => exact ⟨.dropCopy, by simp, hc⟩
  | copied =>
      cases hw : s.waiter with
      | locked => exact ⟨.test, by simp, hw⟩
      | refused => exact ⟨.enqueue, by simp, hw⟩
      | passed => exact ⟨.unlockWaiter, by simp, hw⟩
      | _ =>
          exact ⟨.lockReceiver, by simp, hc,
            h.owner_eq_none (by rw [hc]; rfl) (by rw [hw]; rfl)⟩
  | finished =>
      have hoff : s.enqueued = false := by
        rw [← Bool.not_eq_true]
        intro hq
        have hwake := (h.enqueued hq).2
        rw [hc] at hwake
        cases hwake
      have hfree : s.waiter.holdsLock = false → s.owner = none :=
        h.owner_eq_none (by rw [hc]; rfl)
      cases hw : s.waiter with
      | starting =>
          exact ⟨.startReturns, by simp, hw, by simp [hc, Completer.isRunning]⟩
      | started =>
          exact ⟨.lockWaiter, by simp, .inl hw, hfree (by rw [hw]; rfl)⟩
      | locked => exact ⟨.test, by simp, hw⟩
      | refused => exact ⟨.enqueue, by simp, hw⟩
      | waiting =>
          exact ⟨.lockWaiter, by simp, .inr ⟨hw, hoff⟩,
            hfree (by rw [hw]; rfl)⟩
      | passed => exact ⟨.unlockWaiter, by simp, hw⟩
      | unlocked => exact ⟨.readResult, by simp, hw⟩
      | settled => exact ⟨.destroyOp, by simp, hw⟩
      | releasing => exact ⟨.dropState, by simp, hw⟩
      | returned => exact absurd ⟨hw, hc⟩ hend

/-! ## The theorem on `sync_wait` -/

theorem Kept.finished_of_not_alive
    (hsync : Synced s) (h : Kept s) (halive : s.alive = false) :
    s.waiter = .returned ∧ s.completer = .finished := by
  simp only [State.alive, Bool.or_eq_false_iff] at halive
  obtain ⟨⟨hwaiter, -⟩, hcompleter⟩ := halive
  have hreturned : s.waiter = .returned := by
    simpa [h.waiter] using hwaiter
  have hmarked := hsync.saw (by rw [hreturned]; rfl)
  refine ⟨hreturned, ?_⟩
  rw [h.completer] at hcompleter
  cases hc : s.completer with
  | finished => rfl
  | idle | entered => rw [hc] at hmarked; cases hmarked
  | _ => rw [hc] at hcompleter; cases hcompleter

/-- In every interleaving of a completion with `sync_wait`: the completion
method never finishes with the waiter still on the wait list; what `sync_wait`
returns or rethrows is what is promised for the delivered completion; no step
uses the shared state or the operation state after its end; and the shared
state is freed only when both sides have finished.  Once a completion is
delivered one of the two sides can go on until both have finished, and every
step brings them nearer to it, wake-ups by nobody apart. -/
theorem sync_wait_returns_completion
    (s : State V X)
    (h : (machine : Machine (State V X) (Event V X)).Reachable s) :
    ¬(s.completer = .finished ∧ s.enqueued = true) ∧
      (s.waiter.hasResult = true →
        ∃ c, s.delivered = some c ∧ s.result = some c.expected) ∧
      s.violated = false ∧
      (s.alive = false → s.waiter = .returned ∧ s.completer = .finished) ∧
      (s.delivered ≠ none →
        ¬(s.waiter = .returned ∧ s.completer = .finished) →
          ∃ e : Event V X, e ≠ .spuriousWake ∧ enabled s e) ∧
      ∀ e : Event V X, enabled s e → e ≠ .spuriousWake →
        (effect s e).rank < s.rank := by
  obtain ⟨hsync, hkept, hanswered, hviolated⟩ := reachable_sound h
  refine ⟨?_, hanswered.result, hviolated, hkept.finished_of_not_alive hsync,
    fun hdelivered hend => ?_, fun e he => rank_effect hsync he⟩
  · rintro ⟨hfinished, henqueued⟩
    have hwake := (hsync.enqueued henqueued).2
    rw [hfinished] at hwake
    cases hwake
  · exact exists_enabled hsync (hanswered.idle.not.mp hdelivered) hend

/-- The waiter sleeps when the value is delivered by another thread; it is
woken, returns and destroys the operation state while `notify_all` is still in
the wait list, and the shared state outlives that. -/
theorem sync_wait_returns_during_notify_all :
    ∃ s : State ℕ Unit, machine.Reachable s ∧ s.waiter = .returned ∧
      s.result = some (.returned (some 7)) ∧ s.alive = false ∧
      s.completer = .finished ∧ s.violated = false := by
  obtain ⟨s, hs, hwaiter, hresult, halive⟩ :=
    Machine.exists_reachableUnder_of_exec
      (M := (machine : Machine (State ℕ Unit) (Event ℕ Unit)))
      (G := fun _ _ => True)
      (P := fun s : State ℕ Unit => s.waiter = .returned ∧
        s.result = some (.returned (some 7)) ∧ s.alive = false) rfl
      [.startReturns, .lockWaiter, .test, .enqueue,
        .deliver (.setValue 7 none) false, .copyState, .lockReceiver, .store,
        .setDone, .unlockReceiver, .notifyAll, .wakeWaiter, .lockWaiter, .test,
        .unlockWaiter, .readResult, .destroyOp, .dropState, .notifyReturns,
        .dropCopy]
      (by decide)
  have hsound := sync_wait_returns_completion s hs
  exact ⟨s, hs, hwaiter, hresult, halive, (hsound.2.2.2.1 halive).2,
    hsound.2.2.1⟩

end Fiberexec.SyncWait
