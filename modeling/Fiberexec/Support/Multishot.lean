import Mathlib.Data.Sum.Basic

/-!
# Multishot requests

A multishot request posts any number of completions while it stays armed, and
a last one with which it ends.  The type below holds exactly the states such a
request can be in together with its undrained completions, so that no
completion can follow the last one and nothing is posted after the request has
ended.
-/

namespace Fiberexec.Support

/-- A multishot request and its undrained completions.  Completions posted
while it stays armed carry an `α`, the last one carries a `β`. -/
inductive Multishot (α β : Type*)
  /-- queued or held by the kernel -/
  | armed (cq : List α)
  /-- ended, its last completion undrained -/
  | ended (cq : List α) (last : β)
  /-- ended, and all completions drained -/
  | gone
  deriving DecidableEq

namespace Multishot

variable {α β : Type*}

/-- The request is queued or held by the kernel. -/
def isArmed : Multishot α β → Bool
  | .armed _ => true
  | _ => false

/-- The last completion has been posted and is undrained. -/
def isEnding : Multishot α β → Bool
  | .ended _ _ => true
  | _ => false

/-- The undrained completions, oldest first. -/
def undrained : Multishot α β → List (α ⊕ β)
  | .armed cq => cq.map .inl
  | .ended cq last => cq.map .inl ++ [.inr last]
  | .gone => []

/-- The request is armed, or a completion of it is undrained. -/
def Live (r : Multishot α β) : Prop :=
  r.isArmed = true ∨ r.undrained ≠ []

instance (r : Multishot α β) : Decidable r.Live := by
  cases r with
  | armed cq => exact .isTrue (.inl rfl)
  | ended cq last => exact .isTrue (.inr (by simp [undrained]))
  | gone => exact .isFalse (by simp [Live, isArmed, undrained])

/-- The kernel posts a completion and keeps the request armed. -/
def post (r : Multishot α β) (x : α) : Multishot α β :=
  match r with
  | .armed cq => .armed (cq ++ [x])
  | r => r

/-- The kernel posts the last completion. -/
def finish (r : Multishot α β) (y : β) : Multishot α β :=
  match r with
  | .armed cq => .ended cq y
  | r => r

/-- Take the oldest undrained completion. -/
def take? : Multishot α β → Option ((α ⊕ β) × Multishot α β)
  | .armed (x :: cq) => some (.inl x, .armed cq)
  | .ended (x :: cq) last => some (.inl x, .ended cq last)
  | .ended [] last => some (.inr last, .gone)
  | .armed [] | .gone => none

/-- Arm the request again, which is possible once it is gone. -/
def rearm : Multishot α β → Multishot α β
  | .gone => .armed []
  | r => r

theorem live_iff_ne_gone {r : Multishot α β} : r.Live ↔ r ≠ .gone := by
  cases r <;> simp [Live, isArmed, undrained]

/-- A live request is armed, or has its last completion undrained. -/
theorem live_iff_armed_or_ending {r : Multishot α β} :
    r.Live ↔ r.isArmed = true ∨ r.isEnding = true := by
  cases r <;> simp [Live, isArmed, isEnding, undrained]

theorem post_eq_gone_iff {r : Multishot α β} {x : α} :
    r.post x = .gone ↔ r = .gone := by
  cases r <;> simp [post]

theorem finish_eq_gone_iff {r : Multishot α β} {y : β} :
    r.finish y = .gone ↔ r = .gone := by
  cases r <;> simp [finish]

theorem ne_gone_of_take
    {r r' : Multishot α β} {c : α ⊕ β} (h : r.take? = some (c, r')) :
    r ≠ .gone := by
  rintro rfl
  cases h

theorem undrained_ne_nil_of_take
    {r r' : Multishot α β} {c : α ⊕ β} (h : r.take? = some (c, r')) :
    r.undrained ≠ [] := by
  cases r with
  | armed cq => cases cq <;> simp_all [take?, undrained]
  | ended cq last => simp [undrained]
  | gone => cases h

theorem eq_gone_of_take_last
    {r r' : Multishot α β} {y : β} (h : r.take? = some (.inr y, r')) :
    r' = .gone := by
  cases r with
  | armed cq => cases cq <;> simp [take?] at h
  | ended cq last => cases cq <;> simp_all [take?]
  | gone => cases h

theorem ne_gone_of_take_more
    {r r' : Multishot α β} {x : α} (h : r.take? = some (.inl x, r')) :
    r' ≠ .gone := by
  cases r with
  | armed cq =>
      cases cq with
      | nil => cases h
      | cons a cq =>
          obtain ⟨-, rfl⟩ := Prod.mk.inj (Option.some.inj h)
          exact nofun
  | ended cq last =>
      cases cq with
      | nil => cases h
      | cons a cq =>
          obtain ⟨-, rfl⟩ := Prod.mk.inj (Option.some.inj h)
          exact nofun
  | gone => cases h

end Multishot

end Fiberexec.Support
