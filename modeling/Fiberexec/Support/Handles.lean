import Fiberexec.Support.Lists

/-!
# Handles that own a resource

A handle is an object that owns a resource or is empty.  It can be constructed
from another handle, or assigned from one, which empties the other; a handle
that is overwritten or destroyed gives back what it owns.  A handle that is
assigned to itself keeps everything.

What all handles own together is the list `owned`.  Each operation keeps it up
to order, apart from the resources it hands out or gives back.
-/

namespace Fiberexec.Support

/-- A handle: whether it owns a resource, and which one it owns or has owned
last. -/
structure Handle (κ : Type*) where
  owner : Bool
  key : κ
  deriving DecidableEq

namespace Handle

variable {κ : Type*}

/-- What a move leaves of the handle moved from. -/
def movedFrom (h : Handle κ) : Handle κ :=
  { h with owner := false }

/-- The resource that a handle owns. -/
def owned? (h : Handle κ) : Option κ :=
  if h.owner = true then some h.key else none

@[simp] theorem owned?_movedFrom (h : Handle κ) : h.movedFrom.owned? = none :=
  rfl

theorem owned?_eq_some_iff {h : Handle κ} {k : κ} :
    h.owned? = some k ↔ h = ⟨true, k⟩ := by
  obtain ⟨owner, key⟩ := h
  cases owner <;> simp [owned?]

end Handle

/-- Handles by their address; a destroyed one is `none`. -/
abbrev Handles (κ : Type*) :=
  List (Option (Handle κ))

namespace Handles

variable {κ : Type*}

/-- The resources that are owned. -/
def owned (hs : Handles κ) : List κ :=
  hs.filterMap (fun h => h.bind Handle.owned?)

/-- A new handle takes a resource. -/
def take (hs : Handles κ) (k : κ) : Handles κ :=
  hs ++ [some ⟨true, k⟩]

/-- A new handle is constructed from the one at `src`. -/
def moveConstruct (hs : Handles κ) (src : ℕ) (h : Handle κ) : Handles κ :=
  hs.set src (some h.movedFrom) ++ [some h]

/-- The handle at `dst` is overwritten by the one at `src`. -/
def moveAssign (hs : Handles κ) (dst src : ℕ) (h : Handle κ) : Handles κ :=
  if dst = src then hs
  else (hs.set dst (some h)).set src (some h.movedFrom)

/-- The handle at `i` is destroyed. -/
def destroy (hs : Handles κ) (i : ℕ) : Handles κ :=
  hs.set i none

theorem mem_owned_iff {hs : Handles κ} {k : κ} :
    k ∈ hs.owned ↔ ∃ i : ℕ, hs[i]? = some (some (Handle.mk true k)) := by
  rw [← List.mem_iff_getElem?]
  simp [owned, Option.bind_eq_some_iff, Handle.owned?_eq_some_iff]

/-- When nothing is owned twice, a resource has one owner at most. -/
theorem owner_unique
    {hs : Handles κ} (hnodup : hs.owned.Nodup) {k : κ} {i j : ℕ}
    (hi : hs[i]? = some (some (Handle.mk true k)))
    (hj : hs[j]? = some (some (Handle.mk true k))) : i = j := by
  rw [List.Nodup, owned, List.pairwise_filterMap] at hnodup
  obtain ⟨hilt, hi⟩ := List.getElem?_eq_some_iff.mp hi
  obtain ⟨hjlt, hj⟩ := List.getElem?_eq_some_iff.mp hj
  have hne : ∀ {i j : ℕ} (hilt : i < hs.length) (hjlt : j < hs.length),
      hs[i] = some ⟨true, k⟩ → hs[j] = some ⟨true, k⟩ → ¬i < j := by
    intro i j hilt hjlt hi hj hij
    have hpair := List.pairwise_iff_getElem.mp hnodup i j hilt hjlt hij
    rw [hi, hj] at hpair
    exact hpair k rfl k rfl rfl
  have hij := hne hilt hjlt hi hj
  have hji := hne hjlt hilt hj hi
  omega

theorem owned_take (hs : Handles κ) (k : κ) :
    (hs.take k).owned = hs.owned ++ [k] := by
  simp [take, owned, Handle.owned?]

/-- Writing one place exchanges what the handle there owns. -/
theorem owned_set_perm
    {hs : Handles κ} {i : ℕ} {a : Option (Handle κ)} (h : hs[i]? = some a)
    (b : Option (Handle κ)) :
    (owned (hs.set i b) ++ (a.bind Handle.owned?).toList).Perm
      (hs.owned ++ (b.bind Handle.owned?).toList) :=
  filterMap_set_perm h _ b

theorem owned_moveConstruct
    {hs : Handles κ} {src : ℕ} {h : Handle κ} (hsrc : hs[src]? = some (some h)) :
    (hs.moveConstruct src h).owned.Perm hs.owned := by
  have hset := owned_set_perm hsrc (some h.movedFrom)
  simp only [Option.bind_some, Handle.owned?_movedFrom, Option.toList_none,
    List.append_nil] at hset
  have hsplit : (hs.moveConstruct src h).owned =
      owned (hs.set src (some h.movedFrom)) ++ h.owned?.toList := by
    cases howned : h.owned? <;> simp [moveConstruct, owned, howned]
  rw [hsplit]
  exact hset

theorem owned_moveAssign
    {hs : Handles κ} {dst src : ℕ} {d h : Handle κ}
    (hdst : hs[dst]? = some (some d)) (hsrc : hs[src]? = some (some h))
    (hne : dst ≠ src) :
    ((hs.moveAssign dst src h).owned ++ d.owned?.toList).Perm hs.owned := by
  have hfirst := owned_set_perm hdst (some h)
  have hsrc' : (hs.set dst (some h))[src]? = some (some h) := by
    rw [List.getElem?_set_ne hne, hsrc]
  have hsecond := owned_set_perm hsrc' (some h.movedFrom)
  simp only [Option.bind_some, Handle.owned?_movedFrom, Option.toList_none,
    List.append_nil] at hfirst hsecond
  rw [moveAssign, if_neg hne]
  -- what the source owned is counted once on either side
  refine (List.perm_append_right_iff h.owned?.toList).mp ?_
  calc
    _ = owned ((hs.set dst (some h)).set src (some h.movedFrom)) ++
          (d.owned?.toList ++ h.owned?.toList) := List.append_assoc _ _ _
    List.Perm _ (owned ((hs.set dst (some h)).set src (some h.movedFrom)) ++
          (h.owned?.toList ++ d.owned?.toList)) :=
      List.perm_append_comm.append_left _
    _ = owned ((hs.set dst (some h)).set src (some h.movedFrom)) ++
          h.owned?.toList ++ d.owned?.toList := (List.append_assoc _ _ _).symm
    List.Perm _ (owned (hs.set dst (some h)) ++ d.owned?.toList) :=
      hsecond.append_right _
    List.Perm _ (hs.owned ++ h.owned?.toList) := hfirst

theorem owned_destroy
    {hs : Handles κ} {i : ℕ} {h : Handle κ} (hi : hs[i]? = some (some h)) :
    ((hs.destroy i).owned ++ h.owned?.toList).Perm hs.owned := by
  have hset := owned_set_perm hi none
  simpa [destroy] using hset

/-! ### Handles that are left alone -/

variable {hs : Handles κ} {j : ℕ} {a : Option (Handle κ)}

theorem getElem?_take (hj : hs[j]? = some a) (k : κ) :
    (hs.take k)[j]? = some a := by
  rw [take, List.getElem?_append_left (List.getElem?_eq_some_iff.mp hj).1, hj]

theorem getElem?_moveConstruct
    (hj : hs[j]? = some a) {src : ℕ} (hne : src ≠ j) (h : Handle κ) :
    (hs.moveConstruct src h)[j]? = some a := by
  have hset : (hs.set src (some h.movedFrom))[j]? = some a := by
    rw [List.getElem?_set_ne hne, hj]
  rw [moveConstruct,
    List.getElem?_append_left (List.getElem?_eq_some_iff.mp hset).1, hset]

theorem getElem?_moveAssign
    (hj : hs[j]? = some a) {dst src : ℕ} (hdst : dst ≠ j) (hsrc : src ≠ j)
    (h : Handle κ) : (hs.moveAssign dst src h)[j]? = some a := by
  rw [moveAssign]
  split_ifs
  · exact hj
  · rw [List.getElem?_set_ne hsrc, List.getElem?_set_ne hdst, hj]

theorem getElem?_destroy (hj : hs[j]? = some a) {i : ℕ} (hne : i ≠ j) :
    (hs.destroy i)[j]? = some a := by
  rw [destroy, List.getElem?_set_ne hne, hj]

end Handles

end Fiberexec.Support
