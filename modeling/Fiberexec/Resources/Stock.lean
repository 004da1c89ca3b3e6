import Fiberexec.Resources.Channel
import Fiberexec.Support.Handles

/-!
# Stocks

A stock is a fixed set of keys whose free ones wait in a channel.  A key is
handed out by popping it and is owned by a handle until the handle gives it
back.  The law of a stock says where its keys are: each is free, owned, or gone
to nobody.  The channel has room for all keys, so giving one back never
suspends.
-/

namespace Fiberexec.Resources

open Support

/-- The keys `all` are free, owned by a handle or gone, and the channel has room
for them.  Nothing is owned when the channel is closed. -/
structure Stock {κ : Type*} (all gone : List κ) (free : Channel κ)
    (hs : Handles κ) : Prop where
  places : (free.items ++ hs.owned ++ gone).Perm all
  room : all.length ≤ free.usable
  closed : free.closed = true → hs.owned = []

namespace Stock

variable {κ : Type*} {all gone : List κ} {free : Channel κ} {hs : Handles κ}
variable {k : κ} {items : List κ}

/-! ## Where a key is -/

theorem mem_iff (h : Stock all gone free hs) :
    k ∈ free.items ∨ k ∈ hs.owned ∨ k ∈ gone ↔ k ∈ all := by
  rw [← h.places.mem_iff]
  simp

theorem length_add (h : Stock all gone free hs) :
    free.items.length + hs.owned.length + gone.length = all.length := by
  have hlength := h.places.length_eq
  rwa [List.length_append, List.length_append] at hlength

/-- When no key occurs twice in the stock, none is in two places. -/
theorem nodup (h : Stock all gone free hs) (hall : all.Nodup) :
    free.items.Nodup ∧ hs.owned.Nodup ∧
      ∀ k ∈ free.items, k ∉ hs.owned ∧ k ∉ gone := by
  have hnodup := h.places.nodup_iff.mpr hall
  rw [List.append_assoc, List.nodup_append] at hnodup
  obtain ⟨hfree, hrest, hdisjoint⟩ := hnodup
  refine ⟨hfree, (List.nodup_append.mp hrest).1, fun k hk => ⟨?_, ?_⟩⟩
  · intro howned
    exact hdisjoint k hk k (List.mem_append_left _ howned) rfl
  · intro hgone
    exact hdisjoint k hk k (List.mem_append_right _ hgone) rfl

/-- While nothing is gone, a key is once free or has one owner. -/
theorem mem_all_iff
    [DecidableEq κ] (h : Stock all [] free hs) (hall : all.Nodup) :
    k ∈ all ↔ free.items.count k = 1 ∧ k ∉ hs.owned ∨
      free.items.count k = 0 ∧
        ∃! i : ℕ, hs[i]? = some (some (Handle.mk true k)) := by
  obtain ⟨hfree, howned, hdisjoint⟩ := h.nodup hall
  rw [← h.mem_iff]
  constructor
  · rintro (hk | hk | hk)
    · exact .inl ⟨List.count_eq_one_of_mem hfree hk, (hdisjoint k hk).1⟩
    · obtain ⟨i, hi⟩ := Handles.mem_owned_iff.mp hk
      refine .inr ⟨List.count_eq_zero.mpr fun hfree => ?_, i, hi, ?_⟩
      · exact (hdisjoint k hfree).1 hk
      · intro j hj
        exact Handles.owner_unique howned hj hi
    · cases hk
  · rintro (⟨hcount, -⟩ | ⟨-, i, hi, -⟩)
    · exact .inl (List.count_pos_iff.mp (by omega))
    · exact .inr (.inl (Handles.mem_owned_iff.mpr ⟨i, hi⟩))

theorem open_of_owned (h : Stock all gone free hs) (hk : k ∈ hs.owned) :
    free.closed = false := by
  rw [← Bool.not_eq_true]
  intro hclosed
  simp [h.closed hclosed] at hk

theorem push_of_owned (h : Stock all gone free hs) (hk : k ∈ hs.owned) :
    free.push k =
      some (.success, { free with items := free.items ++ [k] }) := by
  have hlength := h.length_add
  have hpos := List.length_pos_of_mem hk
  have hroom := h.room
  exact Channel.push_of_lt k (h.open_of_owned hk) (by omega)

/-! ## Steps -/

theorem of_perm
    (h : Stock all gone free hs) {hs' : Handles κ}
    (howned : hs'.owned.Perm hs.owned) : Stock all gone free hs' := by
  refine ⟨?_, h.room, ?_⟩
  · exact ((howned.append_left _).append_right _).trans h.places
  · intro hclosed
    rw [h.closed hclosed] at howned
    exact howned.eq_nil

theorem giveBack
    (h : Stock all gone free hs) {hs' : Handles κ} {d : Handle κ}
    (howned : (hs'.owned ++ d.owned?.toList).Perm hs.owned)
    (hd : d.owned? = some k) :
    Stock all gone { free with items := free.items ++ [k] } hs' := by
  rw [hd, Option.toList_some] at howned
  have hmem : k ∈ hs.owned := howned.mem_iff.mp (by simp)
  have hopen := h.open_of_owned hmem
  refine ⟨?_, h.room, ?_⟩
  · refine List.Perm.trans (.append_right _ ?_) h.places
    rw [List.append_assoc]
    exact (List.perm_append_comm.trans howned).append_left _
  · intro hclosed
    simp [hopen] at hclosed

theorem take
    (h : Stock all gone free hs) (hopen : free.closed = false)
    (hitems : free.items = k :: items) :
    Stock all gone { free with items := items } (hs.take k) := by
  refine ⟨?_, h.room, ?_⟩
  · refine List.Perm.trans (.append_right _ ?_) h.places
    rw [Handles.owned_take, hitems, ← List.append_assoc]
    exact List.perm_append_singleton k _
  · intro hclosed
    simp [hopen] at hclosed

theorem lose
    (h : Stock all gone free hs) (hitems : free.items = k :: items) :
    Stock all (gone ++ [k]) { free with items := items } hs := by
  refine ⟨?_, h.room, h.closed⟩
  refine List.Perm.trans ?_ h.places
  rw [hitems, ← List.append_assoc]
  exact List.perm_append_singleton k _

theorem close (h : Stock all gone free hs) (hempty : hs.owned = []) :
    Stock all gone free.close hs :=
  ⟨h.places, h.room, fun _ => hempty⟩

/-- A channel that holds all keys, none of which has been handed out. -/
theorem initial (hitems : free.items = all) (hroom : all.length ≤ free.usable) :
    Stock all [] free [] :=
  ⟨by simp [Handles.owned, hitems], hroom, fun _ => rfl⟩

end Stock

end Fiberexec.Resources
