import Fiberexec.Bulk.Completion

/-!
# Bulk as the sequential loop

The invariants of the counter, of the histories and of the error slot are
assembled here.  Every run of a bulk operation comes to rest, and at rest it
has made the calls of the sequential loop, in some order, and has completed
once.
-/

namespace Fiberexec.Bulk

open Support

variable {n : ℕ} {ε : Type*}

/-! ## At the completion -/

/-- When every task has decremented, the calls made are those of the loop. -/
theorem calls_perm_of_remaining_eq_zero
    {s : State n ε} (hcounted : Counted s) (h : Logged s)
    (hzero : s.remaining = 0) : s.calls.Perm (sequentialCalls n) := by
  rw [List.perm_ext_iff_of_nodup h.calls_nodup nodup_sequentialCalls]
  intro c
  rw [h.mem_calls, mem_sequentialCalls]
  constructor
  · rintro ⟨i, hi, -⟩
    exact ⟨i, hi⟩
  · rintro ⟨i, hi⟩
    refine ⟨i, hi, ?_⟩
    have hpending := pending_eq_zero hcounted hzero i
    cases hpc : s.task i <;> simp_all [Task.pending, Task.called]

theorem ended_perm_of_remaining_eq_zero
    {s : State n ε} (hcounted : Counted s) (h : Logged s)
    (hzero : s.remaining = 0) :
    (s.ended.map Prod.fst).Perm (List.finRange n) := by
  rw [List.perm_ext_iff_of_nodup h.ended_nodup (List.nodup_finRange n)]
  intro i
  rw [h.mem_ended]
  have hpending := pending_eq_zero hcounted hzero i
  cases hpc : s.task i <;> simp_all [Task.pending, Task.ended]

theorem calls_subperm
    {s : State n ε} (h : Logged s) : s.calls.Subperm (sequentialCalls n) := by
  refine h.calls_nodup.subperm ?_
  intro c hc
  obtain ⟨i, hi, -⟩ := (h.mem_calls c).mp hc
  exact mem_sequentialCalls.mpr ⟨i, hi⟩

/-- A delivered completion is `set_value` when no call threw and otherwise
`set_error` with an exception that one of the calls threw. -/
def Right (s : State n ε) (c : Completion ε) : Prop :=
  (c = .setValue ∧ ∀ r ∈ s.ended, r.2 = none) ∨
    ∃ i x, c = .setError (some x) ∧ (i, some x) ∈ s.ended

theorem right_of_mem_completions
    {s : State n ε} (h : (machine n ε).Reachable s) {c : Completion ε}
    (hc : c ∈ s.completions) : Right s c := by
  have hcounted := reachable_counted h
  have herror := reachable_errorKept h
  have hzero := remaining_eq_zero_of_completed hcounted (List.ne_nil_of_mem hc)
  rw [(reachable_decided h).completed c hc, State.verdict]
  by_cases hhas : s.hasError = true
  · obtain ⟨i, x, hx, hthrown⟩ := error_of_hasError hcounted herror hzero hhas
    rw [if_pos hhas, hx]
    exact .inr ⟨i, x, rfl, hthrown⟩
  · rw [if_neg hhas]
    refine .inl ⟨rfl, ?_⟩
    rintro ⟨i, outcome⟩ hr
    cases outcome with
    | none => rfl
    | some x =>
        exact absurd (hasError_of_thrown hcounted herror hzero hr) hhas

/-! ## After the completion -/

/-- After the completion has started no step reads the shared state or the
operation state. -/
theorem not_readsOpstate_of_completed
    {s : State n ε} (h : (machine n ε).Reachable s)
    (hdone : s.completions ≠ []) {e : Event n ε} (he : enabled s e) :
    e.readsOpstate = false := by
  have hcounted := reachable_counted h
  have hposted := reachable_posted h
  have hzero := remaining_eq_zero_of_completed hcounted hdone
  cases hi : e.task? with
  | some i =>
      have hsource := hposted.task_eq_source he hi
      have hpending := pending_eq_zero hcounted hzero i
      have hclosing := closing_eq_zero_of_completed hcounted hdone i
      rw [hsource] at hpending hclosing
      cases e with
      | leave => rfl
      | load | complete => cases hclosing
      | _ => cases hpending
  | none =>
      cases e with
      | leave => rfl
      | enter =>
          have hentering : s.launcher = .entering := he
          have honce := hcounted.once
          have hpos := List.length_pos_iff.mpr hdone
          rw [if_neg (fun h => h.2 hentering)] at honce
          omega
      | _ => cases hi

/-! ## Coming to rest -/

/-- Steps a task has ahead of it, at most. -/
def Task.rank : Task ε → ℕ
  | .unposted => 8
  | .posted => 7
  | .calling => 6
  | .caught _ => 5
  | .storing _ => 4
  | .decrementing => 3
  | .loading => 2
  | .completing _ => 1
  | .finished => 0

/-- Steps the launcher has ahead of it, at most. -/
def Launcher.rank (n : ℕ) : Launcher → ℕ
  | .entering => n + 2
  | .posting i => n + 1 - i
  | .returned => 0

/-- Steps the operation has ahead of it, at most. -/
def State.rank (s : State n ε) : ℕ :=
  ∑ i, (s.task i).rank + s.launcher.rank n

theorem target_rank_lt (s : State n ε) {e : Event n ε} {i : Fin n}
    (hi : e.task? = some i) : (e.target s).rank < e.source.rank := by
  cases e with
  | enter | leave => cases hi
  | exchange | decrement =>
      simp only [Event.target]
      split <;> simp [Event.source, Task.rank]
  | _ => simp [Event.target, Event.source, Task.rank]

theorem launcher_rank_effect
    {s : State n ε} {e : Event n ε} (he : enabled s e) :
    (effect s e).launcher.rank n ≤ s.launcher.rank n ∧
      (e.task? = none →
        (effect s e).launcher.rank n < s.launcher.rank n) := by
  cases e with
  | enter =>
      have hentering : s.launcher = .entering := he
      simp only [effect]
      split <;> simp [hentering, Launcher.rank]
  | post i =>
      have hposting : s.launcher = .posting i := he
      simp only [effect, hposting, Launcher.rank, Event.task?]
      exact ⟨by omega, by simp⟩
  | leave =>
      have hposting : s.launcher = .posting n := he
      simp [effect, hposting, Launcher.rank]
  | _ => exact ⟨le_rfl, by simp [Event.task?]⟩

theorem rank_effect
    {s : State n ε} {e : Event n ε} (hposted : Posted s) (he : enabled s e) :
    (effect s e).rank < s.rank := by
  obtain ⟨hle, hlt⟩ := launcher_rank_effect he
  cases hi : e.task? with
  | some i =>
      have htotal := total_effect Task.rank (s := s) hi
        (congrArg Task.rank (hposted.task_eq_source he hi))
        (congrArg Task.rank (effect_task_eq_target hi))
      have hdecr := target_rank_lt s hi
      simp only [State.rank]
      omega
  | none =>
      have htotal := total_effect_of_none Task.rank (s := s) hi
      have hlauncher := hlt hi
      simp only [State.rank]
      omega

theorem terminates : (machine n ε).Terminates :=
  Machine.terminates_of_measure State.rank
    (fun _ _ hs he => rank_effect (reachable_posted hs) he)

/-- At rest the launcher has returned and all tasks have finished. -/
theorem finished_of_quiescent
    {s : State n ε} (hposted : Posted s)
    (hrest : (machine n ε).Quiescent s) :
    s.launcher = .returned ∧ ∀ i, s.task i = .finished := by
  have hlauncher : s.launcher = .returned := by
    cases hl : s.launcher with
    | entering => exact absurd hl (hrest .enter)
    | posting i =>
        have hle := hposted.le
        rw [hl] at hle
        rcases Nat.lt_or_eq_of_le hle with hlt | heq
        · exact absurd hl (hrest (.post ⟨i, hlt⟩))
        · have hlast : s.launcher = .posting n := by rw [hl, ← heq]; rfl
          exact absurd hlast (hrest .leave)
    | returned => rfl
  refine ⟨hlauncher, fun i => ?_⟩
  cases hpc : s.task i with
  | unposted =>
      have hle := (hposted.unposted_iff i).mp hpc
      rw [hlauncher] at hle
      exact absurd i.isLt (not_lt_of_ge hle)
  | posted => exact absurd hpc (hrest (.call i))
  | calling => exact absurd hpc (hrest (.callReturn i))
  | caught x => exact absurd hpc (hrest (.exchange i x))
  | storing x => exact absurd hpc (hrest (.store i x))
  | decrementing => exact absurd hpc (hrest (.decrement i))
  | loading => exact absurd hpc (hrest (.load i))
  | completing b => exact absurd hpc (hrest (.complete i b))
  | finished => rfl

theorem completed_of_quiescent
    {s : State n ε} (h : (machine n ε).Reachable s)
    (hrest : (machine n ε).Quiescent s) : s.completions.length = 1 := by
  have hcounted := reachable_counted h
  obtain ⟨hlauncher, hall⟩ := finished_of_quiescent (reachable_posted h) hrest
  have hzero : s.remaining = 0 := by
    rw [hcounted.remaining]
    simp [hall, Task.pending]
  have honce := hcounted.once
  simpa [hall, Task.closing, hzero, hlauncher] using honce

/-! ## The theorem on bulk -/

/-- Parallel bulk equals the sequential loop up to order.  No call is made
twice or with other arguments; a completion comes after all calls have ended,
is the only one and is the right one; no step reads the operation state after
it; and every run comes to rest, having made all the calls and completed. -/
theorem bulk_eq_sequential_up_to_order (n : ℕ) (ε : Type*) :
    (∀ s : State n ε, (machine n ε).Reachable s →
      s.calls.Subperm (sequentialCalls n) ∧
        s.completions.length ≤ 1 ∧
        (∀ c ∈ s.completions,
          s.calls.Perm (sequentialCalls n) ∧
            (s.ended.map Prod.fst).Perm (List.finRange n) ∧
            Right s c ∧
            ∀ e, enabled s e → e.readsOpstate = false) ∧
        ((machine n ε).Quiescent s → s.completions.length = 1)) ∧
      (machine n ε).Terminates := by
  refine ⟨fun s h => ?_, terminates⟩
  have hcounted := reachable_counted h
  have hlogged := reachable_logged h
  refine ⟨calls_subperm hlogged, completions_length_le_one hcounted,
    fun c hc => ?_, completed_of_quiescent h⟩
  have hdone := List.ne_nil_of_mem hc
  have hzero := remaining_eq_zero_of_completed hcounted hdone
  exact ⟨calls_perm_of_remaining_eq_zero hcounted hlogged hzero,
    ended_perm_of_remaining_eq_zero hcounted hlogged hzero,
    right_of_mem_completions h hc,
    fun e he => not_readsOpstate_of_completed h hdone he⟩

/-- Two indices: the task of index 1 throws and finishes its call before
index 0 has begun its own, whose end then delivers the exception. -/
theorem bulk_second_index_throws :
    ∃ s : State 2 ℕ, (machine 2 ℕ).Reachable s ∧
      s.calls = [(1, 2), (0, 1)] ∧ s.completions = [.setError (some 7)] ∧
        s.calls.Perm (sequentialCalls 2) := by
  obtain ⟨s, hs, hcalls, hdone⟩ := Machine.exists_reachableUnder_of_exec
    (M := machine 2 ℕ) (G := fun _ _ => True)
    (P := fun s => s.calls = [(1, 2), (0, 1)] ∧
      s.completions = [.setError (some 7)]) rfl
    [.enter, .post 0, .post 1, .call 1, .callThrow 1 7, .exchange 1 7,
      .store 1 7, .decrement 1, .call 0, .callReturn 0, .leave, .decrement 0,
      .load 0, .complete 0 true]
    (by decide)
  have hright := ((bulk_eq_sequential_up_to_order 2 ℕ).1 s hs).2.2.1
    (.setError (some 7)) (by simp [hdone])
  exact ⟨s, hs, hcalls, hdone, hright.1⟩

end Fiberexec.Bulk
