import Fiberexec.Support.Handles
import Fiberexec.Tasks.Model
import Mathlib.Data.List.Range

/-!
# Tasks as owners of callables

To its user a task is a handle of a callable: it owns one or is empty, a move
empties the source, and a task that is overwritten or destroyed destroys what it
owns.  `Owners` is this abstract machine, which knows nothing of buffers and
tables.
-/

namespace Fiberexec.Tasks

open Support

/-! ## Owners of callables -/

/-- Tasks as handles of the callables they own. -/
structure Owners where
  handles : Handles ℕ
  made : ℕ
  invoked : List ℕ
  destroyed : List ℕ

namespace Owners

def initial : Owners :=
  ⟨[], 0, [], []⟩

/-- The handle at an address. -/
def handleAt (a : Owners) (i : ℕ) : Option (Handle ℕ) :=
  (a.handles[i]?).join

def enabled (a : Owners) : Op → Prop
  | .defaultConstruct | .construct => True
  | .moveConstruct src => (a.handleAt src).isSome = true
  | .moveAssign dst src =>
      (a.handleAt dst).isSome = true ∧ (a.handleAt src).isSome = true
  | .invoke i => (a.handleAt i).any Handle.owner = true
  | .destroy i => (a.handleAt i).isSome = true

def effect (a : Owners) : Op → Owners
  | .defaultConstruct => { a with handles := a.handles ++ [some ⟨false, 0⟩] }
  | .construct =>
      { a with
        handles := a.handles.take a.made
        made := a.made + 1 }
  | .moveConstruct src =>
      match a.handleAt src with
      | none => a
      | some h => { a with handles := a.handles.moveConstruct src h }
  | .moveAssign dst src =>
      if dst = src then a
      else
        match a.handleAt dst, a.handleAt src with
        | some d, some h =>
            { a with
              handles := a.handles.moveAssign dst src h
              destroyed := a.destroyed ++ d.owned?.toList }
        | _, _ => a
  | .invoke i =>
      match a.handleAt i with
      | none => a
      | some h => { a with invoked := a.invoked ++ h.owned?.toList }
  | .destroy i =>
      match a.handleAt i with
      | none => a
      | some h =>
          { a with
            handles := a.handles.destroy i
            destroyed := a.destroyed ++ h.owned?.toList }

def machine : Machine Owners Op where
  init := fun a => a = initial
  enabled := enabled
  effect := effect

instance (a : Owners) (op : Op) : Decidable (machine.enabled a op) :=
  match op with
  | .defaultConstruct | .construct => .isTrue trivial
  | .moveConstruct src =>
      inferInstanceAs (Decidable ((a.handleAt src).isSome = true))
  | .moveAssign dst src =>
      inferInstanceAs (Decidable ((a.handleAt dst).isSome = true ∧
        (a.handleAt src).isSome = true))
  | .invoke i =>
      inferInstanceAs (Decidable ((a.handleAt i).any Handle.owner = true))
  | .destroy i => inferInstanceAs (Decidable ((a.handleAt i).isSome = true))

theorem handleAt_eq_some_iff {a : Owners} {i : ℕ} {h : Handle ℕ} :
    a.handleAt i = some h ↔ a.handles[i]? = some (some h) := by
  rw [handleAt, Option.join_eq_some_iff]

/-- Every callable that was stored has one owner or has been destroyed once. -/
def Linear (a : Owners) : Prop :=
  (a.handles.owned ++ a.destroyed).Perm (List.range a.made)

theorem Linear.nodup {a : Owners} (h : a.Linear) :
    (a.handles.owned ++ a.destroyed).Nodup :=
  h.nodup_iff.mpr List.nodup_range

/-- A handle that goes away destroys what it owned. -/
theorem Linear.giveBack
    {a : Owners} (h : a.Linear) {hs : Handles ℕ} {d : Handle ℕ}
    (howned : (hs.owned ++ d.owned?.toList).Perm a.handles.owned) :
    (hs.owned ++ (a.destroyed ++ d.owned?.toList)).Perm (List.range a.made) := by
  refine List.Perm.trans ?_ h
  calc
    List.Perm _ (hs.owned ++ (d.owned?.toList ++ a.destroyed)) :=
      List.perm_append_comm.append_left _
    _ = hs.owned ++ d.owned?.toList ++ a.destroyed :=
      (List.append_assoc _ _ _).symm
    List.Perm _ (a.handles.owned ++ a.destroyed) := howned.append_right _

theorem linear_effect {a : Owners} (h : a.Linear) (op : Op) :
    (a.effect op).Linear := by
  cases op with
  | defaultConstruct => simpa [Linear, effect, Handles.owned, Handle.owned?] using h
  | construct =>
      simp only [Linear, effect]
      rw [Handles.owned_take, List.range_succ, List.append_assoc]
      refine List.Perm.trans ?_ (List.Perm.append_right _ h)
      rw [List.append_assoc]
      exact List.perm_append_comm.append_left _
  | moveConstruct src =>
      simp only [effect]
      split
      next => exact h
      next d hd =>
        have howned := Handles.owned_moveConstruct (handleAt_eq_some_iff.mp hd)
        exact (howned.append_right _).trans h
  | moveAssign dst src =>
      simp only [effect]
      split_ifs with heq
      · exact h
      · split
        next d d' hd hd' =>
          exact h.giveBack (Handles.owned_moveAssign
            (handleAt_eq_some_iff.mp hd) (handleAt_eq_some_iff.mp hd') heq)
        next => exact h
  | invoke i =>
      simp only [effect]
      split
      next => exact h
      next => exact h
  | destroy i =>
      simp only [effect]
      split
      next => exact h
      next d hd =>
        exact h.giveBack (Handles.owned_destroy (handleAt_eq_some_iff.mp hd))

end Owners

/-! ## What an operation does -/

/-- The task that an operation overwrites or destroys. -/
def Op.releases : Op → Option ℕ
  | .moveAssign dst src => if dst = src then none else some dst
  | .destroy i => some i
  | _ => none

/-- The task that an operation invokes. -/
def Op.invokes : Op → Option ℕ
  | .invoke i => some i
  | _ => none

/-- The task that an operation moves from, and the one it moves to; `next` is
the address of a new task. -/
def Op.moves (next : ℕ) : Op → Option (ℕ × ℕ)
  | .moveConstruct src => some (src, next)
  | .moveAssign dst src => if dst = src then none else some (src, dst)
  | _ => none

namespace Owners

variable {a : Owners}

/-- The callable that the handle at an address owns. -/
def owned? (a : Owners) (i : ℕ) : Option ℕ :=
  (a.handleAt i).bind Handle.owned?

theorem mem_owned_iff {k : ℕ} :
    k ∈ a.handles.owned ↔ ∃ i, a.owned? i = some k := by
  rw [Handles.mem_owned_iff]
  simp only [owned?, Option.bind_eq_some_iff, Handle.owned?_eq_some_iff,
    handleAt_eq_some_iff]
  simp

theorem invoked_effect (op : Op) :
    (a.effect op).invoked =
      a.invoked ++ (op.invokes.bind a.owned?).toList := by
  cases op with
  | invoke i =>
      simp only [effect, Op.invokes, Option.bind_some, owned?]
      cases a.handleAt i <;> simp
  | moveConstruct src =>
      simp only [effect, Op.invokes]
      cases a.handleAt src <;> simp
  | moveAssign dst src =>
      simp only [effect, Op.invokes]
      split_ifs
      · simp
      · split <;> simp
  | destroy i =>
      simp only [effect, Op.invokes]
      cases a.handleAt i <;> simp
  | _ => simp [effect, Op.invokes]

theorem destroyed_effect {op : Op} (he : a.enabled op) :
    (a.effect op).destroyed =
      a.destroyed ++ (op.releases.bind a.owned?).toList := by
  cases op with
  | moveConstruct src =>
      simp only [effect, Op.releases]
      cases a.handleAt src <;> simp
  | moveAssign dst src =>
      obtain ⟨d, hd⟩ := Option.isSome_iff_exists.mp he.1
      obtain ⟨h, hh⟩ := Option.isSome_iff_exists.mp he.2
      simp only [effect, Op.releases]
      split_ifs
      · simp
      · simp [hd, hh, owned?]
  | invoke i =>
      simp only [effect, Op.releases]
      cases a.handleAt i <;> simp
  | destroy i =>
      simp only [effect, Op.releases, Option.bind_some, owned?]
      cases a.handleAt i <;> simp
  | _ => simp [effect, Op.releases]

/-- A move empties its source and hands over what that owned. -/
theorem handleAt_effect_of_moves
    {op : Op} (he : a.enabled op) {src dst : ℕ}
    (hmoves : op.moves a.handles.length = some (src, dst)) :
    ∃ h, a.handleAt src = some h ∧
      (a.effect op).handleAt src = some h.movedFrom ∧
      (a.effect op).handleAt dst = some h := by
  cases op with
  | moveConstruct src' =>
      obtain ⟨rfl, rfl⟩ := Prod.mk.inj (Option.some.inj hmoves)
      obtain ⟨h, hh⟩ := Option.isSome_iff_exists.mp he
      have hsrc := handleAt_eq_some_iff.mp hh
      have hlt := (List.getElem?_eq_some_iff.mp hsrc).1
      refine ⟨h, hh, ?_, ?_⟩
      · simp only [effect, hh, handleAt_eq_some_iff, Handles.moveConstruct]
        rw [List.getElem?_append_left (by simpa using hlt),
          List.getElem?_set_self hlt]
      · simp [effect, hh, handleAt_eq_some_iff, Handles.moveConstruct]
  | moveAssign dst' src' =>
      simp only [Op.moves] at hmoves
      split_ifs at hmoves with heq
      obtain ⟨rfl, rfl⟩ := Prod.mk.inj (Option.some.inj hmoves)
      obtain ⟨d, hd⟩ := Option.isSome_iff_exists.mp he.1
      obtain ⟨h, hh⟩ := Option.isSome_iff_exists.mp he.2
      have hdst := (List.getElem?_eq_some_iff.mp
        (handleAt_eq_some_iff.mp hd)).1
      have hsrc := (List.getElem?_eq_some_iff.mp
        (handleAt_eq_some_iff.mp hh)).1
      refine ⟨h, hh, ?_, ?_⟩
      · simp [effect, heq, hd, hh, handleAt_eq_some_iff, Handles.moveAssign,
          hsrc]
      · simp only [effect, if_neg heq, hd, hh, handleAt_eq_some_iff,
          Handles.moveAssign]
        rw [List.getElem?_set_ne (Ne.symm heq), List.getElem?_set_self hdst]
  | _ => cases hmoves

end Owners

end Fiberexec.Tasks
