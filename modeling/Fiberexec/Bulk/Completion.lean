import Fiberexec.Bulk.Model
import Fiberexec.Support.Lists

/-!
# Parallel bulk equals the sequential loop up to order

The counter `remaining` is the number of tasks that have not yet decremented
it, so exactly one task brings it to 0, and at that moment every task has been
posted, has made its call and has recorded what the call threw.
-/

namespace Fiberexec.Bulk

open Support

variable {n : ℕ} {ε : Type*}

/-! ## The posting loop -/

/-- How many tasks the launcher has posted. -/
def Launcher.posted (n : ℕ) : Launcher → ℕ
  | .entering => 0
  | .posting i => i
  | .returned => n

/-- The tasks posted are those below the position of the posting loop. -/
structure Posted (s : State n ε) : Prop where
  unposted_iff : ∀ i, s.task i = .unposted ↔ s.launcher.posted n ≤ i.val
  le : s.launcher.posted n ≤ n

theorem posted_initial : Posted (initial : State n ε) := by
  constructor <;> simp [initial, Launcher.posted]

theorem unposted_effect_iff
    {s : State n ε} {e : Event n ε} {i : Fin n} (he : enabled s e)
    (hpost : e ≠ .post i) :
    (effect s e).task i = .unposted ↔ s.task i = .unposted := by
  by_cases hi : e.task? = some i
  · rw [effect_task_eq_target hi, task_eq_source he hi hpost]
    cases e with
    | enter | leave => cases hi
    | post j =>
        cases hi
        exact absurd rfl hpost
    | exchange | decrement =>
        simp only [Event.target, Event.source]
        split <;> simp
    | _ => simp [Event.target, Event.source]
  · rw [effect_task_of_ne hi]

theorem posted_effect
    {s : State n ε} {e : Event n ε} (h : Posted s) (he : enabled s e) :
    Posted (effect s e) := by
  cases e with
  | enter =>
      have hentering : s.launcher = .entering := he
      have hunposted := h.unposted_iff
      by_cases hn : n = 0
      · subst hn
        exact ⟨fun i => i.elim0, by simp [effect, Launcher.posted]⟩
      · rw [hentering] at hunposted
        exact ⟨by simpa [effect, hn, Launcher.posted] using hunposted,
          by simp [effect, hn, Launcher.posted]⟩
  | post i =>
      have hposting : s.launcher = .posting i := he
      refine ⟨fun j => ?_, i.isLt⟩
      have hj := h.unposted_iff j
      simp only [hposting, Launcher.posted] at hj
      by_cases hij : j = i
      · subst hij
        simp [effect, Launcher.posted]
      · have hne : j.val ≠ i.val := fun h => hij (Fin.ext h)
        simp only [effect, State.goto, Launcher.posted,
          Function.update_of_ne hij, hj]
        omega
  | leave =>
      have hposting : s.launcher = .posting n := he
      have hunposted := h.unposted_iff
      rw [hposting] at hunposted
      exact ⟨hunposted, le_rfl⟩
  | _ =>
      exact ⟨fun i => (unposted_effect_iff he (by simp)).trans
        (h.unposted_iff i), h.le⟩

theorem reachable_posted
    {s : State n ε} (h : (machine n ε).Reachable s) : Posted s :=
  reachable_invariant posted_initial
    (fun _ _ _ hI he => posted_effect hI he) h

/-- In a run every step finds its task at its source. -/
theorem Posted.task_eq_source
    {s : State n ε} {e : Event n ε} {i : Fin n} (h : Posted s)
    (he : enabled s e) (hi : e.task? = some i) : s.task i = e.source := by
  by_cases hpost : e = .post i
  · subst hpost
    have hposting : s.launcher = .posting i := he
    exact (h.unposted_iff i).mpr (by rw [hposting]; exact le_rfl)
  · exact Bulk.task_eq_source he hi hpost

theorem Posted.agree_effect
    {α : Type*} (g : Task ε → α) {s : State n ε} {e : Event n ε}
    (h : Posted s) (he : enabled s e) (hg : g (e.target s) = g e.source)
    (i : Fin n) : g ((effect s e).task i) = g (s.task i) := by
  by_cases hi : e.task? = some i
  · rw [effect_task_eq_target hi, h.task_eq_source he hi, hg]
  · rw [effect_task_of_ne hi]

/-! ## The counter -/

/-- Whether a task has yet to decrement `remaining`. -/
def Task.pending : Task ε → ℕ
  | .loading | .completing _ | .finished => 0
  | _ => 1

/-- Whether a task brought `remaining` to 0 and has yet to complete. -/
def Task.closing : Task ε → ℕ
  | .loading | .completing _ => 1
  | _ => 0

/-- `remaining` counts the tasks that have not decremented it, and once it is
0 one task is about to complete or one completion has been delivered. -/
structure Counted (s : State n ε) : Prop where
  remaining : s.remaining = ∑ i, (s.task i).pending
  once : ∑ i, (s.task i).closing + s.completions.length =
    if s.remaining = 0 ∧ s.launcher ≠ .entering then 1 else 0

theorem counted_initial : Counted (initial : State n ε) := by
  constructor <;> simp [initial, Task.pending, Task.closing]

theorem remaining_eq_of_entering
    {s : State n ε} (hposted : Posted s) (h : Counted s)
    (hentering : s.launcher = .entering) : s.remaining = n := by
  rw [h.remaining]
  have hall : ∀ i, s.task i = .unposted := by
    intro i
    rw [hposted.unposted_iff, hentering]
    exact Nat.zero_le _
  simp [hall, Task.pending]

theorem pending_le_remaining
    {s : State n ε} (h : Counted s) (i : Fin n) :
    (s.task i).pending ≤ s.remaining := by
  rw [h.remaining]
  exact le_total Task.pending s.task i

theorem counted_of_neutral
    {s : State n ε} {e : Event n ε} (hposted : Posted s) (h : Counted s)
    (he : enabled s e) (hpending : (e.target s).pending = e.source.pending)
    (hclosing : (e.target s).closing = e.source.closing)
    (hremaining : (effect s e).remaining = s.remaining)
    (hcompletions : (effect s e).completions = s.completions)
    (hlauncher : (effect s e).launcher = .entering ↔ s.launcher = .entering) :
    Counted (effect s e) := by
  have honce := h.once
  simp only [ne_eq] at honce
  constructor
  · simp only [hposted.agree_effect Task.pending he hpending, hremaining,
      h.remaining]
  · simp only [hposted.agree_effect Task.closing he hclosing, hremaining,
      hcompletions, ne_eq, hlauncher, honce]

theorem counted_decrement
    {s : State n ε} {i : Fin n} (hposted : Posted s) (h : Counted s)
    (he : s.task i = .decrementing) : Counted (effect s (.decrement i)) := by
  have hcount := h.remaining
  have honce := h.once
  have hpos := pending_le_remaining h i
  rw [he] at hpos
  change 1 ≤ s.remaining at hpos
  have hlauncher : s.launcher ≠ .entering := by
    intro hentering
    have hunposted := (hposted.unposted_iff i).mpr
      (by rw [hentering]; exact Nat.zero_le _)
    simp [he] at hunposted
  have htotal := total_effect Task.pending (s := s) (e := .decrement i)
    (a := 1) (b := 0) rfl (by rw [he]; rfl)
    (by simp only [effect, State.goto, Function.update_self]; split <;> rfl)
  have hclosers := total_effect Task.closing (s := s) (e := .decrement i)
    (a := 0) (b := if s.remaining = 1 then 1 else 0) rfl (by rw [he]; rfl)
    (by simp only [effect, State.goto, Function.update_self]; split <;> rfl)
  rw [if_neg (by omega)] at honce
  constructor
  · change s.remaining - 1 = _
    omega
  · change _ + s.completions.length =
      if s.remaining - 1 = 0 ∧ s.launcher ≠ .entering then 1 else 0
    by_cases hlast : s.remaining = 1
    · rw [if_pos hlast] at hclosers
      rw [if_pos ⟨by omega, hlauncher⟩]
      omega
    · rw [if_neg hlast] at hclosers
      rw [if_neg (by omega)]
      omega

theorem counted_complete
    {s : State n ε} {i : Fin n} {hasError : Bool} (h : Counted s)
    (he : s.task i = .completing hasError) :
    Counted (effect s (.complete i hasError)) := by
  have hcount := h.remaining
  have htotal := total_effect Task.pending (s := s)
    (e := .complete i hasError) (a := 0) (b := 0) rfl (by rw [he]; rfl)
    (by simp [effect, Task.pending])
  have hclosers := total_effect Task.closing (s := s)
    (e := .complete i hasError) (a := 1) (b := 0) rfl (by rw [he]; rfl)
    (by simp [effect, Task.closing])
  constructor
  · change s.remaining = _
    omega
  · refine Eq.trans ?_ h.once
    have hlen : (effect s (.complete i hasError)).completions.length =
        s.completions.length + 1 := List.length_append
    omega

theorem counted_enter
    {s : State n ε} (hposted : Posted s) (h : Counted s)
    (hentering : s.launcher = .entering) : Counted (effect s .enter) := by
  have hstart := remaining_eq_of_entering hposted h hentering
  have honce := h.once
  simp only [hentering, ne_eq, not_true_eq_false, and_false, if_false]
    at honce
  by_cases hn : n = 0
  · subst hn
    constructor
    · simpa [effect] using h.remaining
    · simp only [effect, if_true, hstart, List.length_append,
        List.length_singleton, ne_eq, reduceCtorEq, not_false_eq_true,
        and_self]
      omega
  · constructor
    · simpa [effect, hn] using h.remaining
    · simpa [effect, hn, hstart] using honce

theorem counted_effect
    {s : State n ε} {e : Event n ε} (hposted : Posted s) (h : Counted s)
    (he : enabled s e) : Counted (effect s e) := by
  cases e with
  | enter => exact counted_enter hposted h he
  | leave =>
      have hposting : s.launcher = .posting n := he
      have honce := h.once
      exact ⟨h.remaining, by simpa [effect, hposting] using honce⟩
  | decrement i => exact counted_decrement hposted h he
  | complete i hasError => exact counted_complete h he
  | post i =>
      have hposting : s.launcher = .posting i := he
      exact counted_of_neutral hposted h he rfl rfl rfl rfl
        (by simp [effect, hposting])
  | exchange i x =>
      refine counted_of_neutral hposted h he ?_ ?_ rfl rfl Iff.rfl <;>
        simp only [Event.target] <;> split <;> rfl
  | call i | callReturn i | callThrow i | store i | load i =>
      exact counted_of_neutral hposted h he rfl rfl rfl rfl Iff.rfl

theorem reachable_counted
    {s : State n ε} (h : (machine n ε).Reachable s) : Counted s :=
  reachable_invariant counted_initial
    (fun _ _ hs hI he => counted_effect (reachable_posted hs) hI he) h

/-- Once a completion is delivered, or about to be, every task has
decremented. -/
theorem remaining_eq_zero_of_closing
    {s : State n ε} (h : Counted s) {i : Fin n}
    (hi : (s.task i).closing = 1) : s.remaining = 0 := by
  have hshare := le_total Task.closing s.task i
  have honce := h.once
  by_contra hne
  rw [if_neg (fun h => hne h.1)] at honce
  omega

theorem remaining_eq_zero_of_completed
    {s : State n ε} (h : Counted s) (hdone : s.completions ≠ []) :
    s.remaining = 0 := by
  have hpos : 0 < s.completions.length := List.length_pos_iff.mpr hdone
  have honce := h.once
  by_contra hne
  rw [if_neg (fun h => hne h.1)] at honce
  omega

theorem pending_eq_zero
    {s : State n ε} (h : Counted s) (hzero : s.remaining = 0) (i : Fin n) :
    (s.task i).pending = 0 := by
  have hle := pending_le_remaining h i
  omega

theorem closing_eq_zero_of_completed
    {s : State n ε} (h : Counted s) (hdone : s.completions ≠ [])
    (i : Fin n) : (s.task i).closing = 0 := by
  have hpos : 0 < s.completions.length := List.length_pos_iff.mpr hdone
  have hshare := le_total Task.closing s.task i
  have honce := h.once
  split at honce <;> omega

theorem completions_length_le_one
    {s : State n ε} (h : Counted s) : s.completions.length ≤ 1 := by
  have honce := h.once
  split at honce <;> omega

/-! ## The calls -/

/-- Whether the task has begun its call. -/
def Task.called : Task ε → Bool
  | .unposted | .posted => false
  | _ => true

/-- Whether the call of the task has ended. -/
def Task.ended : Task ε → Bool
  | .unposted | .posted | .calling => false
  | _ => true

/-- The arguments with which the task of `i` calls `fun`. -/
def callOf (i : Fin n) : ℕ × ℕ :=
  (i.val, i.val + 1)

theorem callOf_inj {i j : Fin n} : callOf i = callOf j ↔ i = j := by
  simp only [callOf, Prod.mk.injEq, Fin.ext_iff]
  omega

theorem mem_sequentialCalls {c : ℕ × ℕ} :
    c ∈ sequentialCalls n ↔ ∃ i : Fin n, c = callOf i := by
  simp only [sequentialCalls, List.mem_map, List.mem_range, callOf]
  constructor
  · rintro ⟨i, hi, rfl⟩
    exact ⟨⟨i, hi⟩, rfl⟩
  · rintro ⟨i, rfl⟩
    exact ⟨i, i.isLt, rfl⟩

theorem nodup_sequentialCalls : (sequentialCalls n).Nodup := by
  refine List.Nodup.map ?_ List.nodup_range
  intro i j h
  exact (Prod.mk.inj h).1

/-- The histories hold one entry for each task past that point. -/
structure Logged (s : State n ε) : Prop where
  calls_nodup : s.calls.Nodup
  mem_calls : ∀ c, c ∈ s.calls ↔ ∃ i, c = callOf i ∧ (s.task i).called = true
  ended_nodup : (s.ended.map Prod.fst).Nodup
  mem_ended : ∀ i, i ∈ s.ended.map Prod.fst ↔ (s.task i).ended = true

theorem logged_initial : Logged (initial : State n ε) := by
  constructor <;> simp [initial, Task.called, Task.ended]

theorem logged_of_neutral
    {s : State n ε} {e : Event n ε} (hposted : Posted s) (h : Logged s)
    (he : enabled s e) (hcalled : (e.target s).called = e.source.called)
    (hended : (e.target s).ended = e.source.ended)
    (hcalls : (effect s e).calls = s.calls)
    (hlog : (effect s e).ended = s.ended) : Logged (effect s e) := by
  refine ⟨hcalls ▸ h.calls_nodup, fun c => ?_, hlog ▸ h.ended_nodup,
    fun i => ?_⟩
  · simp only [hcalls, hposted.agree_effect Task.called he hcalled]
    exact h.mem_calls c
  · rw [hlog, hposted.agree_effect Task.ended he hended]
    exact h.mem_ended i

theorem logged_call
    {s : State n ε} {i : Fin n} (h : Logged s) (hpc : s.task i = .posted) :
    Logged (effect s (.call i)) := by
  refine ⟨nodup_append_singleton h.calls_nodup ?_, fun c => ?_,
    h.ended_nodup, fun j => ?_⟩
  · rw [h.mem_calls]
    rintro ⟨j, hj, hcalled⟩
    rw [← callOf_inj.mp hj, hpc] at hcalled
    cases hcalled
  · change c ∈ s.calls ++ [callOf i] ↔ _
    rw [List.mem_append, List.mem_singleton, h.mem_calls]
    constructor
    · rintro (⟨j, rfl, hj⟩ | rfl)
      · have hne : j ≠ i := by
          rintro rfl
          rw [hpc] at hj
          cases hj
        exact ⟨j, rfl, by simpa [effect, hne] using hj⟩
      · exact ⟨i, rfl, by simp [effect, Task.called]⟩
    · rintro ⟨j, rfl, hj⟩
      by_cases hij : j = i
      · exact .inr (hij ▸ rfl)
      · exact .inl ⟨j, rfl, by simpa [effect, hij] using hj⟩
  · rw [show (effect s (.call i)).ended = s.ended from rfl, h.mem_ended]
    by_cases hij : j = i
    · subst hij
      simp [effect, hpc, Task.ended]
    · simp [effect, hij]

theorem logged_callEnd
    {s : State n ε} {e : Event n ε} {i : Fin n} {outcome : Option ε}
    (hposted : Posted s) (h : Logged s) (he : enabled s e)
    (hi : e.task? = some i) (hsource : e.source = .calling)
    (hcalled : (e.target s).called = true)
    (hended : (e.target s).ended = true)
    (hcalls : (effect s e).calls = s.calls)
    (hlog : (effect s e).ended = s.ended ++ [(i, outcome)]) :
    Logged (effect s e) := by
  have hpc := hposted.task_eq_source he hi
  have hnext := effect_task_eq_target (s := s) hi
  refine ⟨hcalls ▸ h.calls_nodup, fun c => ?_, ?_, fun j => ?_⟩
  · simp only [hcalls,
      hposted.agree_effect Task.called he (by rw [hcalled, hsource]; rfl)]
    exact h.mem_calls c
  · rw [hlog, List.map_append]
    refine nodup_append_singleton h.ended_nodup ?_
    rw [h.mem_ended, hpc, hsource]
    exact nofun
  · rw [hlog, List.map_append, List.mem_append, h.mem_ended]
    by_cases hij : j = i
    · subst hij
      simp [hnext, hended]
    · have hne : e.task? ≠ some j := by
        rw [hi]
        exact fun h => hij (Option.some.inj h).symm
      rw [effect_task_of_ne hne]
      simp [hij]

theorem logged_effect
    {s : State n ε} {e : Event n ε} (hposted : Posted s) (h : Logged s)
    (he : enabled s e) : Logged (effect s e) := by
  cases e with
  | call i => exact logged_call h he
  | callReturn i | callThrow i =>
      exact logged_callEnd hposted h he rfl rfl rfl rfl rfl rfl
  | enter =>
      refine logged_of_neutral hposted h he rfl rfl ?_ ?_ <;>
        simp only [effect] <;> split <;> rfl
  | exchange | decrement =>
      refine logged_of_neutral hposted h he ?_ ?_ rfl rfl <;>
        simp only [Event.target] <;> split <;> rfl
  | _ => exact logged_of_neutral hposted h he rfl rfl rfl rfl

theorem reachable_logged
    {s : State n ε} (h : (machine n ε).Reachable s) : Logged s :=
  reachable_invariant logged_initial
    (fun _ _ hs hI he => logged_effect (reachable_posted hs) hI he) h

/-! ## The error slot -/

/-- The exception a task has caught and not yet offered to `has_error`. -/
def Task.caught? : Task ε → Option ε
  | .caught x => some x
  | _ => none

/-- The exception a task is about to write to `error`. -/
def Task.storing? : Task ε → Option ε
  | .storing x => some x
  | _ => none

/-- `has_error` is set as soon as a thrown exception has been offered to it,
and the task that set it writes its exception before it decrements. -/
structure ErrorKept (s : State n ε) : Prop where
  caught : ∀ i x, (s.task i).caught? = some x → (i, some x) ∈ s.ended
  storing : ∀ i x, (s.task i).storing? = some x → (i, some x) ∈ s.ended
  error : ∀ x, s.error = some x → ∃ i, (i, some x) ∈ s.ended
  hasError : s.hasError = true →
    s.error ≠ none ∨ ∃ i x, (s.task i).storing? = some x
  thrown : ∀ i x, (i, some x) ∈ s.ended →
    (s.task i).caught? = some x ∨ s.hasError = true

theorem errorKept_initial : ErrorKept (initial : State n ε) := by
  constructor <;> simp [initial, Task.caught?, Task.storing?]

theorem errorKept_of_neutral
    {s : State n ε} {e : Event n ε} (hposted : Posted s) (h : ErrorKept s)
    (he : enabled s e) (hcaught : (e.target s).caught? = e.source.caught?)
    (hstoring : (e.target s).storing? = e.source.storing?)
    (herror : (effect s e).error = s.error)
    (hhas : (effect s e).hasError = s.hasError)
    (hlog : ∀ i x, (i, some x) ∈ (effect s e).ended ↔
      (i, some x) ∈ s.ended) : ErrorKept (effect s e) := by
  have hc := hposted.agree_effect Task.caught? he hcaught
  have hs := hposted.agree_effect Task.storing? he hstoring
  constructor
  · simpa only [hc, hlog] using h.caught
  · simpa only [hs, hlog] using h.storing
  · simpa only [herror, hlog] using h.error
  · simpa only [hhas, herror, hs] using h.hasError
  · simpa only [hlog, hc, hhas] using h.thrown

section OneTask

variable {s s' : State n ε} {i : Fin n}

theorem ErrorKept.caught_of_others
    (h : ErrorKept s) (hothers : ∀ j, j ≠ i → s'.task j = s.task j)
    (hi : (s'.task i).caught? = none) {j : Fin n} {x : ε}
    (hj : (s'.task j).caught? = some x) : (j, some x) ∈ s.ended := by
  have hij : j ≠ i := by
    rintro rfl
    simp [hi] at hj
  exact h.caught j x (hothers j hij ▸ hj)

theorem ErrorKept.storing_of_others
    (h : ErrorKept s) (hothers : ∀ j, j ≠ i → s'.task j = s.task j)
    (hi : (s'.task i).storing? = none) {j : Fin n} {x : ε}
    (hj : (s'.task j).storing? = some x) : (j, some x) ∈ s.ended := by
  have hij : j ≠ i := by
    rintro rfl
    simp [hi] at hj
  exact h.storing j x (hothers j hij ▸ hj)

theorem ErrorKept.hasError_of_others
    (h : ErrorKept s) (hothers : ∀ j, j ≠ i → s'.task j = s.task j)
    (hi : (s.task i).storing? = none) (herror : s'.error = s.error)
    (hhas : s.hasError = true) :
    s'.error ≠ none ∨ ∃ j x, (s'.task j).storing? = some x := by
  rcases h.hasError hhas with hset | ⟨j, x, hj⟩
  · exact .inl (herror ▸ hset)
  · have hij : j ≠ i := by
      rintro rfl
      simp [hi] at hj
    exact .inr ⟨j, x, (hothers j hij).symm ▸ hj⟩

theorem ErrorKept.thrown_of_others
    (h : ErrorKept s) (hothers : ∀ j, j ≠ i → s'.task j = s.task j)
    (hi : (s.task i).caught? = none) (hhas : s'.hasError = s.hasError)
    {j : Fin n} {x : ε} (hj : (j, some x) ∈ s.ended) :
    (s'.task j).caught? = some x ∨ s'.hasError = true := by
  rcases h.thrown j x hj with hcaught | hset
  · have hij : j ≠ i := by
      rintro rfl
      simp [hi] at hcaught
    exact .inl ((hothers j hij).symm ▸ hcaught)
  · exact .inr (hhas ▸ hset)

end OneTask

theorem errorKept_callThrow
    {s : State n ε} {i : Fin n} {x : ε} (h : ErrorKept s)
    (hpc : s.task i = .calling) : ErrorKept (effect s (.callThrow i x)) := by
  have hothers : ∀ j, j ≠ i →
      (effect s (.callThrow i x)).task j = s.task j := by
    intro j hij
    simp [effect, hij]
  have hnext : (effect s (.callThrow i x)).task i = .caught x := by
    simp [effect]
  have hlog : (effect s (.callThrow i x)).ended = s.ended ++ [(i, some x)] :=
    rfl
  constructor
  · intro j y hj
    rw [hlog]
    by_cases hij : j = i
    · subst hij
      obtain rfl : x = y := by simpa [hnext, Task.caught?] using hj
      simp
    · exact List.mem_append_left _ (h.caught j y (hothers j hij ▸ hj))
  · intro j y hj
    exact List.mem_append_left _
      (h.storing_of_others hothers (by rw [hnext]; rfl) hj)
  · intro y hy
    obtain ⟨j, hj⟩ := h.error y hy
    exact ⟨j, List.mem_append_left _ hj⟩
  · exact h.hasError_of_others hothers (by rw [hpc]; rfl) rfl
  · intro j y hj
    rw [hlog, List.mem_append, List.mem_singleton] at hj
    rcases hj with hj | hj
    · exact h.thrown_of_others hothers (by rw [hpc]; rfl) rfl hj
    · obtain ⟨rfl, hy⟩ := Prod.mk.inj hj
      obtain rfl : y = x := Option.some.inj hy
      exact .inl (by rw [hnext]; rfl)

theorem errorKept_exchange
    {s : State n ε} {i : Fin n} {x : ε} (h : ErrorKept s)
    (hpc : s.task i = .caught x) : ErrorKept (effect s (.exchange i x)) := by
  have hothers : ∀ j, j ≠ i →
      (effect s (.exchange i x)).task j = s.task j := by
    intro j hij
    simp [effect, hij]
  have hthrown : (i, some x) ∈ s.ended := h.caught i x (by rw [hpc]; rfl)
  have hnext : (effect s (.exchange i x)).task i =
      if s.hasError = true then .decrementing else .storing x := by
    simp [effect]
  constructor
  · intro j y hj
    refine h.caught_of_others hothers ?_ hj
    rw [hnext]
    split <;> rfl
  · intro j y hj
    by_cases hij : j = i
    · subst hij
      rw [hnext] at hj
      split at hj
      · cases hj
      · obtain rfl : x = y := by simpa [Task.storing?] using hj
        exact hthrown
    · exact h.storing j y (hothers j hij ▸ hj)
  · exact h.error
  · intro _
    by_cases hhas : s.hasError = true
    · exact h.hasError_of_others hothers (by rw [hpc]; rfl) rfl hhas
    · exact .inr ⟨i, x, by rw [hnext, if_neg hhas]; rfl⟩
  · exact fun _ _ _ => .inr rfl

theorem errorKept_store
    {s : State n ε} {i : Fin n} {x : ε} (h : ErrorKept s)
    (hpc : s.task i = .storing x) : ErrorKept (effect s (.store i x)) := by
  have hothers : ∀ j, j ≠ i → (effect s (.store i x)).task j = s.task j := by
    intro j hij
    simp [effect, hij]
  have hnext : (effect s (.store i x)).task i = .decrementing := by
    simp [effect]
  constructor
  · exact fun j y hj => h.caught_of_others hothers (by rw [hnext]; rfl) hj
  · exact fun j y hj => h.storing_of_others hothers (by rw [hnext]; rfl) hj
  · intro y hy
    obtain rfl : x = y := Option.some.inj hy
    exact ⟨i, h.storing i x (by rw [hpc]; rfl)⟩
  · exact fun _ => .inl (by simp [effect])
  · exact fun j y hj => h.thrown_of_others hothers (by rw [hpc]; rfl) rfl hj

theorem errorKept_effect
    {s : State n ε} {e : Event n ε} (hposted : Posted s) (h : ErrorKept s)
    (he : enabled s e) : ErrorKept (effect s e) := by
  cases e with
  | callThrow i x => exact errorKept_callThrow h he
  | exchange i x => exact errorKept_exchange h he
  | store i x => exact errorKept_store h he
  | callReturn i =>
      exact errorKept_of_neutral hposted h he rfl rfl rfl rfl
        (by simp [effect])
  | enter =>
      refine errorKept_of_neutral hposted h he rfl rfl ?_ ?_ ?_ <;>
        simp only [effect] <;> split <;> simp
  | decrement i =>
      refine errorKept_of_neutral hposted h he ?_ ?_ rfl rfl
        (fun _ _ => Iff.rfl) <;> simp only [Event.target] <;> split <;> rfl
  | _ =>
      exact errorKept_of_neutral hposted h he rfl rfl rfl rfl
        (fun _ _ => Iff.rfl)

theorem reachable_errorKept
    {s : State n ε} (h : (machine n ε).Reachable s) : ErrorKept s :=
  reachable_invariant errorKept_initial
    (fun _ _ hs hI he => errorKept_effect (reachable_posted hs) hI he) h

/-- When every task has decremented, an exception was thrown exactly if
`has_error` is set, and then `error` holds a thrown exception. -/
theorem error_of_hasError
    {s : State n ε} (hcounted : Counted s) (h : ErrorKept s)
    (hzero : s.remaining = 0) (hhas : s.hasError = true) :
    ∃ i x, s.error = some x ∧ (i, some x) ∈ s.ended := by
  rcases h.hasError hhas with herror | ⟨j, y, hj⟩
  · obtain ⟨x, hx⟩ := Option.ne_none_iff_exists'.mp herror
    obtain ⟨i, hi⟩ := h.error x hx
    exact ⟨i, x, hx, hi⟩
  · have hpending := pending_eq_zero hcounted hzero j
    cases hpc : s.task j <;> simp_all [Task.pending, Task.storing?]

theorem hasError_of_thrown
    {s : State n ε} (hcounted : Counted s) (h : ErrorKept s)
    (hzero : s.remaining = 0) {i : Fin n} {x : ε}
    (hthrown : (i, some x) ∈ s.ended) : s.hasError = true := by
  rcases h.thrown i x hthrown with hcaught | hhas
  · have hpending := pending_eq_zero hcounted hzero i
    cases hpc : s.task i <;> simp_all [Task.pending, Task.caught?]
  · exact hhas

/-! ## The completion -/

/-- The completion that the shared state calls for. -/
def State.verdict (s : State n ε) : Completion ε :=
  if s.hasError = true then .setError s.error else .setValue

/-- The value of `has_error` a task has loaded. -/
def Task.loaded? : Task ε → Option Bool
  | .completing hasError => some hasError
  | _ => none

/-- What was loaded, and what was delivered, agrees with the shared state. -/
structure Decided (s : State n ε) : Prop where
  loaded : ∀ i b, (s.task i).loaded? = some b → b = s.hasError
  completed : ∀ c ∈ s.completions, c = s.verdict

theorem decided_initial : Decided (initial : State n ε) := by
  constructor <;> simp [initial, Task.loaded?]

theorem decided_of_neutral
    {s : State n ε} {e : Event n ε} (hposted : Posted s) (h : Decided s)
    (he : enabled s e) (hloaded : (e.target s).loaded? = e.source.loaded?)
    (hhas : (effect s e).hasError = s.hasError)
    (herror : (effect s e).error = s.error)
    (hcompletions : (effect s e).completions = s.completions) :
    Decided (effect s e) := by
  have hl := hposted.agree_effect Task.loaded? he hloaded
  constructor
  · simpa only [hl, hhas] using h.loaded
  · simpa only [State.verdict, hhas, herror, hcompletions] using h.completed

/-- While a task has yet to decrement nothing has been decided. -/
theorem decided_of_pending
    {s : State n ε} (h : Counted s) {i : Fin n}
    (hi : (s.task i).pending = 1) : Decided s := by
  have hpos := pending_le_remaining h i
  constructor
  · intro j b hj
    have hzero : s.remaining = 0 := by
      refine remaining_eq_zero_of_closing h (i := j) ?_
      cases hpc : s.task j <;> simp_all [Task.loaded?, Task.closing]
    omega
  · intro c hc
    have hzero := remaining_eq_zero_of_completed h (List.ne_nil_of_mem hc)
    omega

theorem decided_enter
    {s : State n ε} (hposted : Posted s) (herror : ErrorKept s)
    (h : Decided s) (he : enabled s .enter) :
    Decided (effect s .enter) := by
  by_cases hn : n = 0
  · subst hn
    have hhas : s.hasError = false := by
      by_contra hne
      rcases herror.hasError (by simpa using hne) with hsome | ⟨i, -⟩
      · obtain ⟨x, hx⟩ := Option.ne_none_iff_exists'.mp hsome
        obtain ⟨i, -⟩ := herror.error x hx
        exact i.elim0
      · exact i.elim0
    refine ⟨fun i => i.elim0, fun c hc => ?_⟩
    simp only [effect, if_true, List.mem_append, List.mem_singleton] at hc
    rcases hc with hc | rfl
    · simpa [effect, State.verdict] using h.completed c hc
    · simp [effect, State.verdict, hhas]
  · exact decided_of_neutral hposted h he rfl (by simp [effect, hn])
      (by simp [effect, hn]) (by simp [effect, hn])

theorem decided_load
    {s : State n ε} {i : Fin n} (h : Decided s) :
    Decided (effect s (.load i)) := by
  refine ⟨fun j b hj => ?_, h.completed⟩
  by_cases hij : j = i
  · subst hij
    simpa [effect, Task.loaded?, eq_comm] using hj
  · exact h.loaded j b (by simpa [effect, hij] using hj)

theorem decided_complete
    {s : State n ε} {i : Fin n} {hasError : Bool} (h : Decided s)
    (hpc : s.task i = .completing hasError) :
    Decided (effect s (.complete i hasError)) := by
  have hloaded : hasError = s.hasError :=
    h.loaded i hasError (by rw [hpc]; rfl)
  constructor
  · intro j b hj
    by_cases hij : j = i
    · subst hij
      simp [effect, Task.loaded?] at hj
    · exact h.loaded j b (by simpa [effect, hij] using hj)
  · intro c hc
    simp only [effect, List.mem_append, List.mem_singleton] at hc
    rcases hc with hc | rfl
    · exact h.completed c hc
    · rw [hloaded]
      rfl

theorem decided_effect
    {s : State n ε} {e : Event n ε} (hs : (machine n ε).Reachable s)
    (h : Decided s) (he : enabled s e) : Decided (effect s e) := by
  have hposted := reachable_posted hs
  have hcounted : Counted (effect s e) := reachable_counted (hs.step he)
  cases e with
  | enter => exact decided_enter hposted (reachable_errorKept hs) h he
  | load i => exact decided_load h
  | complete i hasError => exact decided_complete h he
  | exchange i x =>
      refine decided_of_pending hcounted (i := i) ?_
      rw [effect_task_eq_target rfl, Event.target]
      split <;> rfl
  | store i x =>
      refine decided_of_pending hcounted (i := i) ?_
      rw [effect_task_eq_target rfl]
      rfl
  | decrement i =>
      refine decided_of_neutral hposted h he ?_ rfl rfl rfl
      simp only [Event.target]
      split <;> rfl
  | _ => exact decided_of_neutral hposted h he rfl rfl rfl rfl

theorem reachable_decided
    {s : State n ε} (h : (machine n ε).Reachable s) : Decided s :=
  reachable_invariant decided_initial
    (fun _ _ hs hI he => decided_effect hs hI he) h

end Fiberexec.Bulk
