import Fiberexec.Support.BitCeil

/-!
# Channels

`channel` wraps Boost's `buffered_channel`, a queue over a ring of a power of
two places.  One place of the ring stays free, to tell a full ring from an empty
one, so a ring of `n` places holds `n - 1` items.  The wrapper therefore asks
for `bit_ceil(capacity + 1)` places.
-/

namespace Fiberexec.Resources

open Support

/-- `channel_op_status`. -/
inductive ChannelOpStatus
  | success
  | empty
  | full
  | closed
  | timeout
  deriving DecidableEq

/-- A channel: the places of its ring, and the items in it, oldest first. -/
structure Channel (α : Type*) where
  ring : ℕ
  items : List α
  closed : Bool
  deriving DecidableEq

namespace Channel

variable {α : Type*}

/-- The constructor.  `capacity + 1` is computed in 64 bits, and Boost takes no
ring of less than two places. -/
def construct (capacity : ℕ) : Option (Channel α) :=
  let ring := bitCeil ((capacity + 1) % 2 ^ 64)
  if ring < 2 then none else some ⟨ring, [], false⟩

/-- How many items the ring holds. -/
def usable (c : Channel α) : ℕ :=
  c.ring - 1

/-- `try_push`. -/
def tryPush (c : Channel α) (a : α) : ChannelOpStatus × Channel α :=
  if c.closed = true then (.closed, c)
  else if c.items.length < c.usable then
    (.success, { c with items := c.items ++ [a] })
  else (.full, c)

/-- `push`; `none` when the fiber has to suspend. -/
def push (c : Channel α) (a : α) : Option (ChannelOpStatus × Channel α) :=
  match c.tryPush a with
  | (.full, _) => none
  | r => some r

/-- `pop`; `none` when the fiber has to suspend. -/
def pop (c : Channel α) : Option (ChannelOpStatus × Option α × Channel α) :=
  match c.items with
  | a :: items => some (.success, some a, { c with items := items })
  | [] => if c.closed = true then some (.closed, none, c) else none

/-- A loop that pushes one item after the other; `none` when a push has to
suspend. -/
def pushAll (c : Channel α) : List α → Option (Channel α)
  | [] => some c
  | a :: xs =>
      match c.push a with
      | none => none
      | some (_, c) => c.pushAll xs

/-- `close`. -/
def close (c : Channel α) : Channel α :=
  { c with closed := true }

/-- The channel holds what it was constructed for. -/
theorem le_usable_of_construct
    {capacity : ℕ} {c : Channel α} (h : construct capacity = some c)
    (hsize : capacity + 1 < 2 ^ 64) :
    capacity ≤ c.usable ∧ c.usable = bitCeil (capacity + 1) - 1 ∧
      c.items = [] ∧ c.closed = false := by
  rw [construct, Nat.mod_eq_of_lt hsize] at h
  split at h
  next => cases h
  next =>
    obtain rfl := Option.some.inj h
    have hle := le_bitCeil (capacity + 1)
    refine ⟨?_, rfl, rfl, rfl⟩
    simp only [usable]
    omega

theorem tryPush_of_lt
    {c : Channel α} (a : α) (hopen : c.closed = false)
    (hlt : c.items.length < c.usable) :
    c.tryPush a = (.success, { c with items := c.items ++ [a] }) := by
  simp [tryPush, hopen, hlt]

theorem push_of_lt
    {c : Channel α} (a : α) (hopen : c.closed = false)
    (hlt : c.items.length < c.usable) :
    c.push a = some (.success, { c with items := c.items ++ [a] }) := by
  rw [push, tryPush_of_lt a hopen hlt]

theorem foldl_tryPush
    {c : Channel α} (xs : List α) (hopen : c.closed = false)
    (hroom : c.items.length + xs.length ≤ c.usable) :
    xs.foldl (fun c a => (c.tryPush a).2) c =
      { c with items := c.items ++ xs } := by
  induction xs generalizing c with
  | nil => simp
  | cons a xs ih =>
      rw [List.length_cons] at hroom
      rw [List.foldl_cons, tryPush_of_lt a hopen (by omega), ih]
      · simp
      · exact hopen
      · simp only [List.length_append, List.length_singleton]
        change _ ≤ c.usable
        omega

theorem pushAll_of_le
    {c : Channel α} (xs : List α) (hopen : c.closed = false)
    (hroom : c.items.length + xs.length ≤ c.usable) :
    c.pushAll xs = some { c with items := c.items ++ xs } := by
  induction xs generalizing c with
  | nil => simp [pushAll]
  | cons a xs ih =>
      rw [List.length_cons] at hroom
      rw [pushAll, push_of_lt a hopen (by omega)]
      simp only
      rw [ih]
      · simp
      · exact hopen
      · simp only [List.length_append, List.length_singleton]
        change _ ≤ c.usable
        omega

end Channel

end Fiberexec.Resources
