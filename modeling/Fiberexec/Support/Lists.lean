import Mathlib.Data.List.Perm.Basic
import Mathlib.Data.List.Nodup

/-!
# Lists as histories and as queues

Facts about duplicate-free histories and their parts, about what a selection
sees of a queue when an entry is taken out, and about moving the front of a queue
into another as far as that has room.
-/

namespace Fiberexec.Support

variable {α β : Type*}

/-- Removing from a duplicate-free list the members of a duplicate-free part
of it leaves the difference of the lengths. -/
theorem length_filter_not_mem_add
    {xs ys : List α} (hxs : xs.Nodup) (hys : ys.Nodup) (hsub : ys ⊆ xs)
    {p : α → Bool} (hp : ∀ x, p x = true ↔ x ∉ ys) :
    (xs.filter p).length + ys.length = xs.length := by
  have hperm : (xs.filter (fun x => !p x)).Perm ys := by
    rw [List.perm_ext_iff_of_nodup (hxs.filter _) hys]
    intro a
    have ha : (!p a) = true ↔ a ∈ ys := by
      rw [Bool.not_eq_true', ← Bool.not_eq_true, hp, not_not]
    rw [List.mem_filter, ha]
    exact ⟨fun h => h.2, fun h => ⟨hsub h, h⟩⟩
  have hsplit := List.length_eq_length_filter_add (l := xs) p
  rw [hperm.length_eq] at hsplit
  omega

theorem nodup_append_singleton
    {xs : List α} {a : α} (hxs : xs.Nodup) (ha : a ∉ xs) :
    (xs ++ [a]).Nodup := by
  rw [List.nodup_append]
  refine ⟨hxs, List.nodup_singleton a, ?_⟩
  rintro b hb c hc rfl
  exact ha (List.mem_singleton.mp hc ▸ hb)

/-- What holds of every entry and the history before it, after one more entry. -/
theorem forall_split_append_singleton
    {P : List α → α → Prop} {xs : List α} {x : α} :
    (∀ front a back, xs ++ [x] = front ++ a :: back → P front a) ↔
      (∀ front a back, xs = front ++ a :: back → P front a) ∧ P xs x := by
  constructor
  · intro h
    exact ⟨fun front a back hxs => h front a (back ++ [x]) (by simp [hxs]),
      h xs x [] rfl⟩
  · rintro ⟨h, hx⟩ front a back hxs
    rcases List.eq_nil_or_concat back with rfl | ⟨back, last, rfl⟩
    · obtain ⟨rfl, heq⟩ := List.append_inj' hxs rfl
      obtain rfl := List.singleton_inj.mp heq
      exact hx
    · have hlast : xs ++ [x] = (front ++ a :: back) ++ [last] := by simpa using hxs
      exact h front a back (List.append_inj' hlast rfl).1

/-- The entry of a history that a member of the concatenation comes from. -/
theorem exists_split_of_flatMap
    {f : α → List β} {xs : List α} {n : ℕ} {b : β}
    (h : (xs.flatMap f)[n]? = some b) :
    ∃ front a back j, xs = front ++ a :: back ∧ (f a)[j]? = some b ∧
      n = (front.flatMap f).length + j := by
  induction xs generalizing n with
  | nil => simp at h
  | cons x xs ih =>
      rw [List.flatMap_cons] at h
      by_cases hn : n < (f x).length
      · rw [List.getElem?_append_left hn] at h
        exact ⟨[], x, xs, n, rfl, h, by simp⟩
      · rw [List.getElem?_append_right (Nat.not_lt.mp hn)] at h
        obtain ⟨front, a, back, j, rfl, hb, hj⟩ := ih h
        refine ⟨x :: front, a, back, j, rfl, hb, ?_⟩
        rw [List.flatMap_cons, List.length_append]
        omega

/-! ## Taking one entry out of a list -/

theorem exists_split_eraseIdx
    {xs : List α} {i : ℕ} {a : α} (h : xs[i]? = some a) :
    ∃ front back, xs = front ++ a :: back ∧
      xs.eraseIdx i = front ++ back := by
  induction xs generalizing i with
  | nil => simp at h
  | cons x xs ih =>
      cases i with
      | zero =>
          obtain rfl : x = a := by simpa using h
          exact ⟨[], xs, rfl, rfl⟩
      | succ i =>
          obtain ⟨front, back, hxs, herase⟩ := ih (by simpa using h)
          exact ⟨x :: front, back, by simp [hxs], by simp [herase]⟩

theorem mem_eraseIdx_of_ne
    {xs : List α} {i : ℕ} {x y : α} (hx : x ∈ xs)
    (hi : xs[i]? = some y) (hne : y ≠ x) : x ∈ xs.eraseIdx i := by
  obtain ⟨front, back, hxs, herase⟩ := exists_split_eraseIdx hi
  rw [hxs, List.mem_append, List.mem_cons] at hx
  rw [herase, List.mem_append]
  rcases hx with hx | rfl | hx
  · exact .inl hx
  · exact absurd rfl hne
  · exact .inr hx

/-- An entry that a selection ignores can be taken out. -/
theorem filterMap_eraseIdx_of_none
    {xs : List α} {i : ℕ} {a : α} (h : xs[i]? = some a)
    {g : α → Option β} (hg : g a = none) :
    (xs.eraseIdx i).filterMap g = xs.filterMap g := by
  obtain ⟨front, back, hxs, herase⟩ := exists_split_eraseIdx h
  rw [herase, hxs]
  simp [hg]

/-- Taking out the only entry that a selection picks leaves nothing of it. -/
theorem filterMap_eraseIdx_of_singleton
    {xs : List α} {i : ℕ} {a : α} (h : xs[i]? = some a)
    {g : α → Option β} {b c : β} (hg : g a = some b)
    (hxs : xs.filterMap g = [c]) : (xs.eraseIdx i).filterMap g = [] := by
  obtain ⟨front, back, rfl, herase⟩ := exists_split_eraseIdx h
  rw [herase]
  have hlen := congrArg List.length hxs
  rw [List.filterMap_append, List.filterMap_cons_some hg, List.length_append,
    List.length_cons, List.length_singleton] at hlen
  rw [List.filterMap_append, ← List.length_eq_zero_iff, List.length_append]
  omega

theorem countP_eraseIdx_add
    {p : α → Bool} {xs : List α} {i : ℕ} {a : α} (h : xs[i]? = some a) :
    (xs.eraseIdx i).countP p + (if p a = true then 1 else 0) =
      xs.countP p := by
  obtain ⟨front, back, hxs, herase⟩ := exists_split_eraseIdx h
  rw [herase, hxs]
  simp only [List.countP_append, List.countP_cons]
  omega

/-- Taking out an entry lowers its own count and no other. -/
theorem count_eraseIdx_add
    [DecidableEq α] {xs : List α} {i : ℕ} {a : α} (h : xs[i]? = some a)
    (b : α) :
    (xs.eraseIdx i).count b + (if a = b then 1 else 0) = xs.count b := by
  simpa only [List.count, beq_iff_eq] using countP_eraseIdx_add (p := (· == b)) h

theorem countP_set_add
    {p : α → Bool} {xs : List α} {i : ℕ} {a b : α} (h : xs[i]? = some a) :
    (xs.set i b).countP p + (if p a = true then 1 else 0) =
      xs.countP p + if p b = true then 1 else 0 := by
  obtain ⟨hlt, rfl⟩ := List.getElem?_eq_some_iff.mp h
  have hpos : p xs[i] = true → 0 < xs.countP p := fun hp =>
    List.countP_pos_iff.mpr ⟨xs[i], List.getElem_mem hlt, hp⟩
  rw [List.countP_set hlt]
  by_cases hp : p xs[i] = true
  · have hle := hpos hp
    rw [if_pos hp]
    omega
  · rw [if_neg hp]
    omega

/-- Writing one entry exchanges what a selection picks there. -/
theorem filterMap_set_perm
    {xs : List α} {i : ℕ} {a : α} (h : xs[i]? = some a) (g : α → Option β)
    (b : α) :
    ((xs.set i b).filterMap g ++ (g a).toList).Perm
      (xs.filterMap g ++ (g b).toList) := by
  obtain ⟨hlt, rfl⟩ := List.getElem?_eq_some_iff.mp h
  have hsplit : xs.filterMap g =
      (xs.take i).filterMap g ++
        ((g xs[i]).toList ++ (xs.drop (i + 1)).filterMap g) := by
    conv_lhs => rw [← List.take_append_drop i xs, List.drop_eq_getElem_cons hlt]
    simp only [List.filterMap_eq_flatMap_toList, List.flatMap_append,
      List.flatMap_cons]
  have hset : (xs.set i b).filterMap g =
      (xs.take i).filterMap g ++
        ((g b).toList ++ (xs.drop (i + 1)).filterMap g) := by
    rw [List.set_eq_take_append_cons_drop, if_pos hlt]
    simp only [List.filterMap_eq_flatMap_toList, List.flatMap_append,
      List.flatMap_cons]
  rw [hsplit, hset]
  simp only [List.append_assoc]
  refine List.Perm.append_left _ ?_
  refine List.perm_append_comm.trans ?_
  rw [← List.append_assoc (g xs[i]).toList]
  exact List.perm_append_comm.append_right _

theorem mem_of_mem_eraseIdx
    {xs : List α} {i : ℕ} {a : α} (h : a ∈ xs.eraseIdx i) : a ∈ xs :=
  (List.eraseIdx_sublist xs i).mem h

/-! ## Related options -/

theorem isSome_eq_of_rel
    {R : α → β → Prop} {x : Option α} {y : Option β}
    (h : Option.Rel R x y) : x.isSome = y.isSome := by
  cases h with
  | none => rfl
  | some _ => rfl

theorem exists_of_rel_some_left
    {R : α → β → Prop} {a : α} {y : Option β}
    (h : Option.Rel R (some a) y) : ∃ b, y = some b ∧ R a b := by
  cases h with
  | some hab => exact ⟨_, rfl, hab⟩

theorem exists_of_rel_some_right
    {R : α → β → Prop} {x : Option α} {b : β}
    (h : Option.Rel R x (some b)) : ∃ a, x = some a ∧ R a b := by
  cases h with
  | some hab => exact ⟨_, rfl, hab⟩

/-! ## Flushing a queue into another -/

/-- Move entries from the front of a queue to the end of one of this capacity
until that is full. -/
def flush (cap : ℕ) (f : α → β) : List α → List β → List α × List β
  | [], ys => ([], ys)
  | x :: xs, ys =>
      if ys.length < cap then flush cap f xs (ys ++ [f x]) else (x :: xs, ys)

theorem flush_eq (cap : ℕ) (f : α → β) (xs : List α) (ys : List β) :
    flush cap f xs ys =
      (xs.drop (cap - ys.length), ys ++ (xs.take (cap - ys.length)).map f) := by
  induction xs generalizing ys with
  | nil => simp [flush]
  | cons x xs ih =>
      rw [flush]
      split
      next hroom =>
        obtain ⟨k, hk⟩ : ∃ k, cap - ys.length = k + 1 :=
          ⟨cap - ys.length - 1, by omega⟩
        have hrest : cap - (ys.length + 1) = k := by omega
        simp [ih, hk, hrest]
      next hfull =>
        have hzero : cap - ys.length = 0 := by omega
        simp [hzero]

/-- There is room left if all entries fit and one more. -/
theorem length_flush_lt (cap : ℕ) (f : α → β) (xs : List α) (ys : List β) :
    (flush cap f xs ys).2.length < cap ↔ ys.length + xs.length < cap := by
  rw [flush_eq, List.length_append, List.length_map, List.length_take]
  omega

theorem flush_perm (cap : ℕ) (f : α → β) (xs : List α) (ys : List β) :
    ((flush cap f xs ys).1.map f ++ (flush cap f xs ys).2).Perm
      (xs.map f ++ ys) := by
  rw [flush_eq]
  refine List.perm_append_comm.trans ?_
  rw [List.append_assoc, ← List.map_append, List.take_append_drop]
  exact List.perm_append_comm

end Fiberexec.Support
