import Mathlib.Logic.Relation
import Mathlib.Order.Nat

/-!
# Systems of atomic steps

Every component of this development is a system of atomic steps: a step is
named by an event, `enabled` says in which states it may be taken and `effect`
what it does.  Concurrent code is modelled by letting the events of all
threads, and of the kernel, interleave freely.

Safety arguments need two rules only.  An invariant is carried along every run
by `ReachableUnder.invariant`; a property of all later states by
`Reaches.stable`.  That a system comes to rest follows from a decreasing
measure by `terminates_of_measure`.  Runs may be restricted to steps satisfying a guard, which is
how a result is stated that holds of some runs and not of all of them.
-/

namespace Fiberexec.Support

universe u v

/-- A system of atomic steps over states `σ`, with events `ε`. -/
structure Machine (σ : Type u) (ε : Type v) where
  init : σ → Prop
  enabled : σ → ε → Prop
  effect : σ → ε → σ

namespace Machine

variable {σ : Type u} {ε : Type v} {M : Machine σ ε}

/-! ## Runs -/

/-- The states reached from an initial one by steps that all satisfy `G`. -/
inductive ReachableUnder (M : Machine σ ε) (G : σ → ε → Prop) : σ → Prop
  | init {s : σ} : M.init s → ReachableUnder M G s
  | step {s : σ} {e : ε} :
      ReachableUnder M G s → M.enabled s e → G s e →
        ReachableUnder M G (M.effect s e)

/-- The states of all runs. -/
def Reachable (M : Machine σ ε) (s : σ) : Prop :=
  M.ReachableUnder (fun _ _ => True) s

/-- One step, whatever its event. -/
def Steps (M : Machine σ ε) (s s' : σ) : Prop :=
  ∃ e, M.enabled s e ∧ s' = M.effect s e

/-- Some continuation of a run in `s` arrives in `s'`. -/
def Reaches (M : Machine σ ε) : σ → σ → Prop :=
  Relation.ReflTransGen M.Steps

/-- Some continuation by steps that all satisfy `G` arrives in `s'`. -/
def ReachesUnder (M : Machine σ ε) (G : σ → ε → Prop) : σ → σ → Prop :=
  Relation.ReflTransGen fun s s' => ∃ e, M.enabled s e ∧ G s e ∧ s' = M.effect s e

theorem ReachableUnder.mono
    {G H : σ → ε → Prop} (hGH : ∀ s e, G s e → H s e) {s : σ}
    (h : M.ReachableUnder G s) : M.ReachableUnder H s := by
  induction h with
  | init hs => exact .init hs
  | step _ he hg ih => exact .step ih he (hGH _ _ hg)

theorem ReachableUnder.reachable
    {G : σ → ε → Prop} {s : σ} (h : M.ReachableUnder G s) :
    M.Reachable s :=
  h.mono (fun _ _ _ => trivial)

theorem Reachable.step
    {s : σ} {e : ε} (h : M.Reachable s) (he : M.enabled s e) :
    M.Reachable (M.effect s e) :=
  ReachableUnder.step h he trivial

theorem Reachable.trans
    {s s' : σ} (h : M.Reachable s) (hs : M.Reaches s s') :
    M.Reachable s' := by
  induction hs with
  | refl => exact h
  | tail _ hstep ih =>
      obtain ⟨e, he, rfl⟩ := hstep
      exact ih.step he

theorem Reaches.single {s : σ} {e : ε} (he : M.enabled s e) :
    M.Reaches s (M.effect s e) :=
  Relation.ReflTransGen.single ⟨e, he, rfl⟩

theorem Reaches.head
    {s s' : σ} {e : ε} (he : M.enabled s e)
    (h : M.Reaches (M.effect s e) s') : M.Reaches s s' :=
  Relation.ReflTransGen.head ⟨e, he, rfl⟩ h

/-! ## Invariants -/

/-- What holds initially and is kept by every guarded step holds in every
state of every guarded run.  The step case may use that its source state is
itself reached by such a run. -/
theorem ReachableUnder.invariant
    {G : σ → ε → Prop} {I : σ → Prop}
    (hinit : ∀ s, M.init s → I s)
    (hstep : ∀ s e, M.ReachableUnder G s → I s → M.enabled s e → G s e →
      I (M.effect s e))
    {s : σ} (h : M.ReachableUnder G s) : I s := by
  induction h with
  | init hs => exact hinit _ hs
  | step hprev he hg ih => exact hstep _ _ hprev ih he hg

theorem Reachable.invariant
    {I : σ → Prop}
    (hinit : ∀ s, M.init s → I s)
    (hstep : ∀ s e, M.Reachable s → I s → M.enabled s e →
      I (M.effect s e))
    {s : σ} (h : M.Reachable s) : I s :=
  ReachableUnder.invariant hinit
    (fun s e hprev hI he _ => hstep s e hprev hI he) h

/-- A property kept by every step stays true along every continuation. -/
theorem Reaches.stable
    {P : σ → Prop}
    (hstep : ∀ s e, P s → M.enabled s e → P (M.effect s e))
    {s s' : σ} (hs : M.Reaches s s') (hP : P s) : P s' := by
  induction hs with
  | refl => exact hP
  | tail _ hlast ih =>
      obtain ⟨e, he, rfl⟩ := hlast
      exact hstep _ _ ih he

theorem ReachesUnder.stable
    {G : σ → ε → Prop} {P : σ → Prop}
    (hstep : ∀ s e, P s → M.enabled s e → G s e → P (M.effect s e))
    {s s' : σ} (hs : M.ReachesUnder G s s') (hP : P s) : P s' := by
  induction hs with
  | refl => exact hP
  | tail _ hlast ih =>
      obtain ⟨e, he, hg, rfl⟩ := hlast
      exact hstep _ _ ih he hg

/-! ## Simulation -/

/-- When every guarded step of `M` is matched by a continuation of the related
run of `N`, every guarded run of `M` is related to a guarded run of `N`. -/
theorem ReachableUnder.simulated
    {σ' : Type*} {ε' : Type*} {N : Machine σ' ε'} {R : σ → σ' → Prop}
    {G : σ → ε → Prop} {H : σ' → ε' → Prop}
    (hinit : ∀ s, M.init s → ∃ a, N.init a ∧ R s a)
    (hstep : ∀ s a e, R s a → M.enabled s e → G s e → N.ReachableUnder H a →
      ∃ a', N.ReachableUnder H a' ∧ R (M.effect s e) a')
    {s : σ} (h : M.ReachableUnder G s) :
    ∃ a, N.ReachableUnder H a ∧ R s a := by
  induction h with
  | init hs =>
      obtain ⟨a, ha, hR⟩ := hinit _ hs
      exact ⟨a, .init ha, hR⟩
  | step _ he hg ih =>
      obtain ⟨a, ha, hR⟩ := ih
      exact hstep _ a _ hR he hg ha

/-- A component of a composed system: when every guarded step of `M` is a guarded
step of `N` on the component, or leaves it alone, the component of a guarded run of
`M` is a guarded run of `N`. -/
theorem ReachableUnder.component
    {σ' : Type*} {ε' : Type*} {N : Machine σ' ε'} {f : σ → σ'}
    {G : σ → ε → Prop} {H : σ' → ε' → Prop}
    (hinit : ∀ s, M.init s → N.init (f s))
    (hstep : ∀ s e, M.enabled s e → G s e → f (M.effect s e) = f s ∨
      ∃ e', N.enabled (f s) e' ∧ H (f s) e' ∧
        f (M.effect s e) = N.effect (f s) e')
    {s : σ} (h : M.ReachableUnder G s) : N.ReachableUnder H (f s) := by
  induction h with
  | init hs => exact .init (hinit _ hs)
  | step _ he hg ih =>
      rcases hstep _ _ he hg with hsame | ⟨e', he', hg', hnext⟩
      · rwa [hsame]
      · rw [hnext]
        exact .step ih he' hg'

/-! ## Termination -/

/-- No step can be taken. -/
def Quiescent (M : Machine σ ε) (s : σ) : Prop :=
  ∀ e, ¬M.enabled s e

/-- No run goes on for ever. -/
def Terminates (M : Machine σ ε) : Prop :=
  ∀ run : ℕ → σ, M.init (run 0) → ∃ k, ¬M.Steps (run k) (run (k + 1))

/-- A measure that every step of every run decreases bounds the runs. -/
theorem terminates_of_measure
    (rank : σ → ℕ)
    (hdecr : ∀ s e, M.Reachable s → M.enabled s e →
      rank (M.effect s e) < rank s) : M.Terminates := by
  intro run hinit
  by_contra hforever
  rw [not_exists_not] at hforever
  have hall : ∀ k, M.Reachable (run k) ∧ rank (run k) + k ≤ rank (run 0) := by
    intro k
    induction k with
    | zero => exact ⟨.init hinit, le_rfl⟩
    | succ k ih =>
        obtain ⟨hreach, hle⟩ := ih
        obtain ⟨e, he, hnext⟩ := hforever k
        have hlt := hdecr _ _ hreach he
        rw [hnext]
        exact ⟨hreach.step he, by omega⟩
  have hlong := (hall (rank (run 0) + 1)).2
  omega

section Exec

variable (M : Machine σ ε) (G : σ → ε → Prop)
variable [∀ s e, Decidable (M.enabled s e)] [∀ s e, Decidable (G s e)]

/-- Replay a schedule, failing at the first event that is not enabled or does
not satisfy the guard. -/
def exec (s : σ) : List ε → Option σ
  | [] => some s
  | e :: es =>
      if M.enabled s e ∧ G s e then exec (M.effect s e) es else none

variable {M G}

theorem exec_reachableUnder
    {s s' : σ} {es : List ε}
    (hs : M.ReachableUnder G s) (hexec : M.exec G s es = some s') :
    M.ReachableUnder G s' := by
  induction es generalizing s with
  | nil =>
      simp only [exec, Option.some.injEq] at hexec
      exact hexec ▸ hs
  | cons e es ih =>
      rw [exec] at hexec
      split at hexec
      next hguard => exact ih (.step hs hguard.1 hguard.2) hexec
      next => exact absurd hexec (by simp)

/-- A schedule that replays to a state satisfying `P` witnesses a reachable
state satisfying `P`. -/
theorem exists_reachableUnder_of_exec
    {P : σ → Prop} [DecidablePred P] {s : σ} (hs : M.init s)
    (es : List ε) (h : (M.exec G s es).any (fun s' => decide (P s')) = true) :
    ∃ s', M.ReachableUnder G s' ∧ P s' := by
  cases hexec : M.exec G s es with
  | none => simp [hexec] at h
  | some s' =>
      refine ⟨s', exec_reachableUnder (.init hs) hexec, ?_⟩
      simpa [hexec] using h

theorem exec_reaches
    {s s' : σ} {es : List ε} (hexec : M.exec G s es = some s') :
    M.Reaches s s' := by
  induction es generalizing s with
  | nil =>
      simp only [exec, Option.some.injEq] at hexec
      exact hexec ▸ Relation.ReflTransGen.refl
  | cons e es ih =>
      rw [exec] at hexec
      split at hexec
      next hguard => exact .head hguard.1 (ih hexec)
      next => exact absurd hexec (by simp)

/-- A schedule in two parts witnesses a reachable state and a continuation. -/
theorem exists_reaches_of_exec
    {P : σ → σ → Prop} [∀ s s', Decidable (P s s')] {s : σ} (hs : M.init s)
    (es es' : List ε)
    (h : (M.exec G s es).any (fun s₁ =>
      (M.exec G s₁ es').any fun s₂ => decide (P s₁ s₂)) = true) :
    ∃ s₁ s₂, M.Reachable s₁ ∧ M.Reaches s₁ s₂ ∧ P s₁ s₂ := by
  cases hexec : M.exec G s es with
  | none => simp [hexec] at h
  | some s₁ =>
      cases hexec' : M.exec G s₁ es' with
      | none => simp [hexec, hexec'] at h
      | some s₂ =>
          refine ⟨s₁, s₂, (exec_reachableUnder (.init hs) hexec).reachable,
            exec_reaches hexec', ?_⟩
          simpa [hexec, hexec'] using h

/-- Two systems that can take the same steps from related states, and stay
related, replay every schedule alike. -/
theorem exec_rel
    {σ' : Type*} {N : Machine σ' ε} [∀ s e, Decidable (N.enabled s e)]
    {R : σ → σ' → Prop}
    (henabled : ∀ s a e, R s a → (M.enabled s e ↔ N.enabled a e))
    (hstep : ∀ s a e, R s a → M.enabled s e →
      R (M.effect s e) (N.effect a e))
    {s : σ} {a : σ'} (h : R s a) (es : List ε) :
    Option.Rel R (M.exec (fun _ _ => True) s es)
      (N.exec (fun _ _ => True) a es) := by
  induction es generalizing s a with
  | nil => exact .some h
  | cons e es ih =>
      simp only [exec, and_true]
      by_cases he : M.enabled s e
      · rw [if_pos he, if_pos ((henabled s a e h).mp he)]
        exact ih (hstep s a e h he)
      · rw [if_neg he, if_neg (fun hN => he ((henabled s a e h).mpr hN))]
        exact .none

end Exec

end Machine

end Fiberexec.Support
