import Mathlib.Data.List.Basic
import Mathlib.Data.Nat.Notation
import Mathlib.Logic.Function.Basic

/-!
# Bytes in memory

A memory has a byte at every address.  What is written can be read back at the same
place, and a write leaves alone what is read elsewhere.

Lists that are written piece by piece, all from address 0 on and in any
interleaving, lie over one another: see `Overlay`.
-/

namespace Fiberexec.Support.Memory

variable {β : Type*}

/-- The `n` bytes from `addr` on. -/
def read (mem : ℕ → β) (addr n : ℕ) : List β :=
  (List.range n).map fun k => mem (addr + k)

/-- Write `data` from `addr` on. -/
def write (mem : ℕ → β) (addr : ℕ) (data : List β) : ℕ → β := fun a =>
  if addr ≤ a then data[a - addr]?.getD (mem a) else mem a

@[simp]
theorem length_read (mem : ℕ → β) (addr n : ℕ) : (read mem addr n).length = n := by
  simp [read]

theorem read_add (mem : ℕ → β) (addr m n : ℕ) :
    read mem addr (m + n) = read mem addr m ++ read mem (addr + m) n := by
  simp [read, List.range_add, Nat.add_assoc, Function.comp_def]

theorem write_add
    (mem : ℕ → β) (addr : ℕ) {data : List β} {k : ℕ} (hk : k < data.length) :
    write mem addr data (addr + k) = data[k] := by
  simp [write, hk]

theorem write_of_outside
    (mem : ℕ → β) {addr a : ℕ} {data : List β}
    (ha : a < addr ∨ addr + data.length ≤ a) : write mem addr data a = mem a := by
  rw [write]
  split
  next hle =>
      have hnone : data[a - addr]? = none := List.getElem?_eq_none (by omega)
      rw [hnone, Option.getD_none]
  next => rfl

theorem read_write_self (mem : ℕ → β) (addr : ℕ) (data : List β) :
    read (write mem addr data) addr data.length = data := by
  refine List.ext_getElem (by simp) ?_
  intro k _ hk
  simp [read, write_add mem addr hk]

theorem read_write_of_apart
    (mem : ℕ → β) {addr addr' n : ℕ} {data : List β}
    (h : addr' + n ≤ addr ∨ addr + data.length ≤ addr') :
    read (write mem addr data) addr' n = read mem addr' n := by
  refine List.map_congr_left fun k hk => write_of_outside mem ?_
  have hlt := List.mem_range.mp hk
  omega

/-- What is read around a write. -/
theorem read_write_within
    (mem : ℕ → β) (addr m k : ℕ) (data : List β) :
    read (write mem (addr + m) data) addr (m + (data.length + k)) =
      read mem addr m ++ (data ++ read mem (addr + m + data.length) k) := by
  rw [read_add, read_add, read_write_self,
    read_write_of_apart mem (.inl (Nat.le_refl _)),
    read_write_of_apart mem (.inr (Nat.le_refl _))]

/-! ## Lists laid over one another -/

/-- `bytes`, of which `size` are in use, is `base` with lists laid over it from 0 on.
The longest list gives the size if it reaches beyond `base`, and a byte that some list
reaches is the byte of one of them. -/
structure Overlay {ι : Type*} (base : ℕ → β) (size₀ : ℕ) (lists : ι → List β)
    (bytes : ℕ → β) (size : ℕ) : Prop where
  base_le : size₀ ≤ size
  length_le : ∀ i, (lists i).length ≤ size
  size_eq : size = size₀ ∨ ∃ i, size = (lists i).length
  byte : ∀ k, (bytes k = base k ∧ ∀ i, (lists i).length ≤ k) ∨
    ∃ i, (lists i)[k]? = some (bytes k)

namespace Overlay

variable {ι : Type*} {base bytes : ℕ → β} {size₀ size : ℕ} {lists : ι → List β}

theorem of_nil (h : ∀ i, lists i = []) : Overlay base size₀ lists base size₀ where
  base_le := Nat.le_refl _
  length_le i := by simp [h i]
  size_eq := .inl rfl
  byte k := .inl ⟨rfl, fun i => by simp [h i]⟩

/-- The next piece of a list is written behind what is there of it. -/
theorem write [DecidableEq ι]
    (h : Overlay base size₀ lists bytes size) (j : ι) (data : List β) :
    Overlay base size₀ (Function.update lists j (lists j ++ data))
      (Memory.write bytes (lists j).length data)
      (max size ((lists j).length + data.length)) := by
  -- every list is still there, with the same beginning
  have hkept : ∀ i, lists i <+: Function.update lists j (lists j ++ data) i := by
    intro i
    by_cases hi : i = j
    · subst hi
      simp
    · simp [hi]
  have hself : Function.update lists j (lists j ++ data) j = lists j ++ data :=
    Function.update_self ..
  constructor
  · exact Nat.le_trans h.base_le (Nat.le_max_left ..)
  · intro i
    by_cases hi : i = j
    · subst hi
      rw [hself, List.length_append]
      exact Nat.le_max_right ..
    · rw [Function.update_of_ne hi]
      exact Nat.le_trans (h.length_le i) (Nat.le_max_left ..)
  · rcases Nat.le_total size ((lists j).length + data.length) with hle | hle
    · refine .inr ⟨j, ?_⟩
      rw [Nat.max_eq_right hle, hself, List.length_append]
    · rw [Nat.max_eq_left hle]
      refine h.size_eq.imp_right ?_
      rintro ⟨i, hi⟩
      refine ⟨i, Nat.le_antisymm (hi ▸ (hkept i).length_le) ?_⟩
      by_cases hij : i = j
      · subst hij
        rwa [hself, List.length_append]
      · rw [Function.update_of_ne hij]
        exact h.length_le i
  · intro k
    by_cases hk : (lists j).length ≤ k ∧ k < (lists j).length + data.length
    · -- a byte of the new piece
      obtain ⟨m, rfl⟩ := Nat.exists_eq_add_of_le hk.1
      have hm : m < data.length := by omega
      refine .inr ⟨j, ?_⟩
      rw [hself, write_add bytes _ hm, List.getElem?_append_right (by omega)]
      simp [hm]
    · rw [write_of_outside bytes (by omega)]
      rcases h.byte k with ⟨hbyte, hshort⟩ | ⟨i, hi⟩
      · refine .inl ⟨hbyte, fun i => ?_⟩
        by_cases hij : i = j
        · subst hij
          have hle := hshort i
          rw [hself, List.length_append]
          omega
        · rw [Function.update_of_ne hij]
          exact hshort i
      · refine .inr ⟨i, ?_⟩
        obtain ⟨rest, hrest⟩ := hkept i
        obtain ⟨hlt, -⟩ := List.getElem?_eq_some_iff.mp hi
        rw [← hrest, List.getElem?_append_left hlt, hi]

/-- A byte in use is a byte of `base` that was in use, or one of a list. -/
theorem byte_of_lt
    (h : Overlay base size₀ lists bytes size) {k : ℕ} (hk : k < size) :
    (k < size₀ ∧ bytes k = base k) ∨ ∃ i, (lists i)[k]? = some (bytes k) := by
  refine (h.byte k).imp_left ?_
  rintro ⟨hbyte, hshort⟩
  refine ⟨?_, hbyte⟩
  rcases h.size_eq with rfl | ⟨i, rfl⟩
  · exact hk
  · exact absurd (hshort i) (Nat.not_le.mpr hk)

end Overlay

end Fiberexec.Support.Memory
