import Mathlib.Data.Int.Notation
import Mathlib.Data.Nat.Notation

/-!
# Code that fills a submission queue

A thread hands requests over in two steps: it takes an entry of a queue of
bounded capacity, which fails when the queue is full, and later submits all
entries at once.  `Code` is what such a thread executes between two scheduling
points.  It may throw, and it may write to an entry that it did not get.

`run` executes it on a given queue.  `wp` says, by recursion on the code, what
the number of entries in the queue has to be for no entry to be missing, and
what is then left in the queue at the end; `run_of_wp` is its soundness.
-/

namespace Fiberexec.Support

universe u v w w'

/-- Code over a queue with entries in `α` that returns a `β` or throws an
`ε`. -/
inductive Code (α : Type u) (ε : Type v) (β : Type w) : Type max u v w
  | done (b : β)
  | raise (e : ε)
  /-- the write to a missing entry -/
  | abort
  /-- take an entry and fill it in; the code goes on with whether there was
  one -/
  | get (a : α) (k : Bool → Code α ε β)
  /-- submit; the code goes on with the result, which is negative on an
  error -/
  | submit (k : ℤ → Code α ε β)

namespace Code

variable {α : Type u} {ε : Type v} {β : Type w} {γ : Type w'}

/-! ## Composition -/

def bind : Code α ε β → (β → Code α ε γ) → Code α ε γ
  | .done b, f => f b
  | .raise e, _ => .raise e
  | .abort, _ => .abort
  | .get a k, f => .get a (fun got => (k got).bind f)
  | .submit k, f => .submit (fun ret => (k ret).bind f)

instance : Monad (Code α ε) where
  pure := .done
  bind := bind

/-- `try { c } catch (...) { d }`. -/
def catchAll : Code α ε β → Code α ε β → Code α ε β
  | .done b, _ => .done b
  | .raise _, d => d
  | .abort, _ => .abort
  | .get a k, d => .get a (fun got => (k got).catchAll d)
  | .submit k, d => .submit (fun ret => (k ret).catchAll d)

/-- Take an entry, and tell whether there was one. -/
def tryGet (a : α) : Code α ε Bool :=
  .get a .done

/-- Take an entry and fill it in without a check. -/
def getUnchecked (a : α) : Code α ε PUnit.{w + 1} :=
  .get a (fun got => if got = true then .done ⟨⟩ else .abort)

/-- Submit, and return the result. -/
def submitAll : Code α ε ℤ :=
  .submit .done

/-! ## Execution -/

/-- How the execution of code ends. -/
inductive Ending (ε : Type v) (β : Type w)
  | returned (b : β)
  | threw (e : ε)
  | aborted

/-- What the execution of code leaves: the entries in the queue, and whether a
request for an entry was refused. -/
structure Outcome (α : Type u) (ε : Type v) (β : Type w) where
  queue : List α
  refused : Bool
  ending : Ending ε β

/-- Execute code on a queue of this capacity.  `ret n` is what the `n`-th
submit returns; one that fails leaves the queue as it is. -/
def run (cap : ℕ) : Code α ε β → (ℕ → ℤ) → List α → Outcome α ε β
  | .done b, _, q => ⟨q, false, .returned b⟩
  | .raise e, _, q => ⟨q, false, .threw e⟩
  | .abort, _, q => ⟨q, false, .aborted⟩
  | .get a k, ret, q =>
      if q.length < cap then (k true).run cap ret (q ++ [a])
      else { (k false).run cap ret q with refused := true }
  | .submit k, ret, q =>
      (k (ret 0)).run cap (fun n => ret (n + 1)) (if ret 0 < 0 then q else [])

/-! ## Weakest preconditions -/

/-- With `n` entries in the queue, and if all submits succeed, no entry is
missing, and the code returns a value in a state satisfying `Q` or throws in
one satisfying `E`.  The state is the number of entries in the queue. -/
def wp (cap : ℕ) (Q : ℕ → β → Prop) (E : ℕ → ε → Prop) :
    ℕ → Code α ε β → Prop
  | n, .done b => Q n b
  | n, .raise e => E n e
  | _, .abort => False
  | n, .get _ k => n < cap ∧ wp cap Q E (n + 1) (k true)
  | _, .submit k => ∀ ret, 0 ≤ ret → wp cap Q E 0 (k ret)

variable {cap n : ℕ} {Q Q' : ℕ → β → Prop} {E E' : ℕ → ε → Prop}

@[simp]
theorem wp_pure (b : β) :
    wp cap Q E n (pure b : Code α ε β) ↔ Q n b :=
  Iff.rfl

@[simp]
theorem wp_raise (e : ε) : wp cap Q E n (.raise e : Code α ε β) ↔ E n e :=
  Iff.rfl

@[simp]
theorem wp_tryGet {Q : ℕ → Bool → Prop} (a : α) :
    wp cap Q E n (tryGet a : Code α ε Bool) ↔ n < cap ∧ Q (n + 1) true :=
  Iff.rfl

@[simp]
theorem wp_getUnchecked {Q : ℕ → PUnit.{w + 1} → Prop} (a : α) :
    wp cap Q E n (getUnchecked a : Code α ε PUnit.{w + 1}) ↔
      n < cap ∧ Q (n + 1) ⟨⟩ :=
  Iff.rfl

@[simp]
theorem wp_submitAll {Q : ℕ → ℤ → Prop} :
    wp cap Q E n (submitAll : Code α ε ℤ) ↔ ∀ ret, 0 ≤ ret → Q 0 ret :=
  Iff.rfl

@[simp]
theorem wp_bind
    {β γ : Type w} {Q : ℕ → γ → Prop} (c : Code α ε β) (f : β → Code α ε γ) :
    wp cap Q E n (c >>= f) ↔ wp cap (fun n b => wp cap Q E n (f b)) E n c := by
  change wp cap Q E n (c.bind f) ↔ _
  induction c generalizing n with
  | done b => exact Iff.rfl
  | raise e => exact Iff.rfl
  | abort => exact Iff.rfl
  | get a k ih => exact and_congr_right fun _ => ih true
  | submit k ih => exact forall₂_congr fun ret _ => ih ret

@[simp]
theorem wp_catchAll (c d : Code α ε β) :
    wp cap Q E n (c.catchAll d) ↔
      wp cap Q (fun n _ => wp cap Q E n d) n c := by
  induction c generalizing n with
  | done b => exact Iff.rfl
  | raise e => exact Iff.rfl
  | abort => exact Iff.rfl
  | get a k ih => exact and_congr_right fun _ => ih true
  | submit k ih => exact forall₂_congr fun ret _ => ih ret

/-- The rule of consequence. -/
theorem wp_mono
    {c : Code α ε β} (h : wp cap Q E n c)
    (hQ : ∀ n b, Q n b → Q' n b) (hE : ∀ n e, E n e → E' n e) :
    wp cap Q' E' n c := by
  induction c generalizing n with
  | done b => exact hQ n b h
  | raise e => exact hE n e h
  | abort => exact h
  | get a k ih => exact ⟨h.1, ih true h.2⟩
  | submit k ih => exact fun ret hret => ih ret (h ret hret)

/-- Soundness: when the submits succeed, no request for an entry is refused and
the code ends as its weakest precondition says. -/
theorem run_of_wp
    {c : Code α ε β} {ret : ℕ → ℤ} {q : List α} (hret : ∀ n, 0 ≤ ret n)
    (h : wp cap Q E q.length c) :
    (c.run cap ret q).refused = false ∧
      match (c.run cap ret q).ending with
      | .returned b => Q (c.run cap ret q).queue.length b
      | .threw e => E (c.run cap ret q).queue.length e
      | .aborted => False := by
  induction c generalizing ret q with
  | done b => exact ⟨rfl, h⟩
  | raise e => exact ⟨rfl, h⟩
  | abort => exact h.elim
  | get a k ih =>
      obtain ⟨hroom, h⟩ := h
      rw [run, if_pos hroom]
      exact ih true hret (by rwa [List.length_append])
  | submit k ih =>
      rw [run, if_neg (Int.not_lt.mpr (hret 0))]
      exact ih (ret 0) (fun n => hret (n + 1)) (h (ret 0) (hret 0))

end Code

end Fiberexec.Support
