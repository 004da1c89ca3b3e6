import Fiberexec.Support.Multishot
import Mathlib.Data.List.Basic

/-!
# Counted requests

Nothing in a ring keeps a program from arming a multishot request a second time
while the first is still armed.  Here the armed requests of one handler are
counted, and their completions are in one queue.  A request is outstanding from
its arming until its last completion is taken.

A program that arms a request again only when the last completion of the one
before is taken has at most one outstanding.  Its counted requests are then
those of a `Multishot` value, on which every operation can be carried out
instead.
-/

namespace Fiberexec.Support

variable {α β γ : Type*}

/-- The armed requests of one handler, and their undrained completions. -/
structure Requests (γ : Type*) where
  armed : ℕ
  cq : List γ
  deriving DecidableEq

namespace Requests

/-- An armed request posts a completion; its last one ends it. -/
def post (r : Requests γ) (c : γ) (last : Bool) : Requests γ where
  armed := if last = true then r.armed - 1 else r.armed
  cq := r.cq ++ [c]

/-- Arm another request. -/
def arm (r : Requests γ) : Requests γ :=
  { r with armed := r.armed + 1 }

/-- Take the oldest undrained completion. -/
def take? (r : Requests γ) : Option (γ × Requests γ) :=
  match r.cq with
  | [] => none
  | c :: cq => some (c, { r with cq := cq })

/-- The requests that are armed or have their last completion undrained. -/
def outstanding (r : Requests γ) (last : γ → Bool) : ℕ :=
  r.armed + r.cq.countP last

theorem take?_eq_some_iff {r r' : Requests γ} {c : γ} :
    r.take? = some (c, r') ↔ r = ⟨r'.armed, c :: r'.cq⟩ := by
  obtain ⟨armed, cq⟩ := r
  obtain ⟨armed', cq'⟩ := r'
  cases cq with
  | nil => simp [take?]
  | cons d cq => simp [take?, and_left_comm]

variable {last : γ → Bool}

theorem outstanding_post
    {r : Requests γ} {c : γ} {ends : Bool} (h : 0 < r.armed)
    (hlast : last c = ends) :
    (r.post c ends).outstanding last = r.outstanding last := by
  subst hlast
  simp only [outstanding, post, List.countP_append, List.countP_singleton]
  split <;> omega

theorem outstanding_arm (r : Requests γ) :
    r.arm.outstanding last = r.outstanding last + 1 := by
  simp only [outstanding, arm]
  omega

/-- Taking its last completion settles a request. -/
theorem outstanding_take
    {r r' : Requests γ} {c : γ} (h : r.take? = some (c, r')) :
    r.outstanding last =
      r'.outstanding last + if last c = true then 1 else 0 := by
  rw [take?_eq_some_iff.mp h]
  simp only [outstanding, List.countP_cons]
  omega

theorem exists_take {r : Requests γ} (h : r.cq ≠ []) :
    ∃ c r', r.take? = some (c, r') := by
  obtain ⟨c, cq, hcq⟩ := List.exists_cons_of_ne_nil h
  exact ⟨c, ⟨r.armed, cq⟩, take?_eq_some_iff.mpr (by rw [← hcq])⟩

theorem cq_of_take
    {r r' : Requests γ} {c : γ} (h : r.take? = some (c, r')) :
    r.cq = c :: r'.cq := by
  rw [take?_eq_some_iff.mp h]

variable (last) in
/-- One request at most is outstanding, and its last completion is the last in
the queue. -/
inductive Tidy : Requests γ → Prop
  | armed {cq : List γ} : (∀ c ∈ cq, last c = false) → Tidy ⟨1, cq⟩
  | ended {cq : List γ} {c : γ} :
      (∀ d ∈ cq, last d = false) → last c = true → Tidy ⟨0, cq ++ [c]⟩
  | gone : Tidy ⟨0, []⟩

theorem Tidy.post
    {r : Requests γ} {c : γ} {ends : Bool} (h : Tidy last r)
    (harmed : 0 < r.armed) (hlast : last c = ends) :
    Tidy last (r.post c ends) := by
  cases h with
  | armed hcq =>
      cases ends with
      | true => exact .ended hcq hlast
      | false =>
          refine .armed fun d hd => ?_
          rcases List.mem_append.mp hd with hd | hd
          · exact hcq d hd
          · exact List.mem_singleton.mp hd ▸ hlast
  | ended => exact absurd harmed (by simp)
  | gone => exact absurd harmed (by simp)

theorem Tidy.take
    {r r' : Requests γ} {c : γ} (h : Tidy last r)
    (htake : r.take? = some (c, r')) :
    Tidy last r' ∧ (last c = true → r' = ⟨0, []⟩) := by
  cases h with
  | @armed cq hcq =>
      cases cq with
      | nil => cases htake
      | cons d cq =>
          obtain ⟨rfl, rfl⟩ := Prod.mk.inj (Option.some.inj htake)
          refine ⟨.armed fun x hx => hcq x (List.mem_cons_of_mem _ hx), ?_⟩
          intro hd
          simp [hcq d List.mem_cons_self] at hd
  | @ended cq y hcq hy =>
      cases cq with
      | nil =>
          obtain ⟨rfl, rfl⟩ := Prod.mk.inj (Option.some.inj htake)
          exact ⟨.gone, fun _ => rfl⟩
      | cons d cq =>
          obtain ⟨rfl, rfl⟩ := Prod.mk.inj (Option.some.inj htake)
          refine ⟨.ended (fun x hx => hcq x (List.mem_cons_of_mem _ hx)) hy, ?_⟩
          intro hd
          simp [hcq d List.mem_cons_self] at hd
  | gone => cases htake

theorem tidy_arm : Tidy last (arm ⟨0, []⟩) :=
  .armed (by simp)

end Requests

namespace Multishot

variable (more : α → γ) (final : β → γ)

/-- A multishot request as a counted one, with its completions written as
entries of the queue. -/
def requests : Multishot α β → Requests γ
  | .armed cq => ⟨1, cq.map more⟩
  | .ended cq last => ⟨0, cq.map more ++ [final last]⟩
  | .gone => ⟨0, []⟩

variable {more final}

theorem armed_requests_pos {m : Multishot α β} :
    0 < (m.requests more final).armed ↔ m.isArmed = true := by
  cases m <;> simp [requests, isArmed]

theorem requests_post {m : Multishot α β} (h : m.isArmed = true) (x : α) :
    (m.post x).requests more final =
      (m.requests more final).post (more x) false := by
  cases m with
  | armed cq => simp [post, requests, Requests.post]
  | ended cq last => cases h
  | gone => cases h

theorem requests_finish {m : Multishot α β} (h : m.isArmed = true) (y : β) :
    (m.finish y).requests more final =
      (m.requests more final).post (final y) true := by
  cases m with
  | armed cq => rfl
  | ended cq last => cases h
  | gone => cases h

theorem requests_take (m : Multishot α β) :
    (m.requests more final).take? =
      m.take?.map (fun p => (Sum.elim more final p.1,
        p.2.requests more final)) := by
  cases m with
  | armed cq => cases cq <;> rfl
  | ended cq last => cases cq <;> rfl
  | gone => rfl

theorem requests_eq_empty_iff {m : Multishot α β} :
    m.requests more final = ⟨0, []⟩ ↔ m = .gone := by
  cases m <;> simp [requests]

end Multishot

end Fiberexec.Support
