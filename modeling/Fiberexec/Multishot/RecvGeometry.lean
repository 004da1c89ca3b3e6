import Fiberexec.Multishot.RecvConstruct
import Mathlib.Algebra.Order.Ring.Nat

/-!
# Where the buffers of a receiver are

The constructor, `return_buffer` and `received_buffer::data` each compute where
a buffer is.  For sizes that fit into the 32 bits of a length in the buffer
ring, all agree: the buffers follow one another in the storage.  A larger size
is cut off in what the kernel is told, and nothing checks it.
-/

namespace Fiberexec.Multishot.Recv

open Support

/-- All of `s` belongs to `t`. -/
def Span.Inside (s t : Span) : Prop :=
  t.offset ≤ s.offset ∧ s.offset + s.size ≤ t.offset + t.size

/-- One span ends before the other begins. -/
def Span.Apart (s t : Span) : Prop :=
  s.offset + s.size ≤ t.offset ∨ t.offset + t.size ≤ s.offset

/-- The buffers as they are meant: the storage has room for all, each is
provided with its full length inside the storage and apart from the others, it
is provided alike when it is returned, and a message that fits into it is seen
inside it. -/
structure Buffers.Sound (b : Buffers) (bufSize bufCount : ℕ) : Prop where
  storage : b.storage = bufSize * bitCeil bufCount
  count : b.provided.length = bitCeil bufCount
  ids : ∀ (i : ℕ) p, b.provided[i]? = some p → p.bid = i
  length : ∀ p ∈ b.provided, p.len = bufSize
  inside : ∀ p ∈ b.provided, p.span.Inside ⟨0, b.storage⟩
  apart : ∀ (i j : ℕ) p q, b.provided[i]? = some p → b.provided[j]? = some q →
    i ≠ j → p.span.Apart q.span
  returned : ∀ p ∈ b.provided, b.returnBuffer p.bid = p
  data : ∀ p ∈ b.provided, ∀ size ≤ p.len, (b.data p.bid size).Inside p.span

theorem bitCeil_le_of_ok
    {t : Thread} {a : Answers} {bufSize bufCount : ℕ} {b : Buffers}
    (h : (construct t a bufSize bufCount).2 = .ok b) :
    bitCeil bufCount ≤ 32768 := by
  obtain ⟨s, hs, -⟩ := stream_construct_of_ok h
  exact (Stream.construct_ok hs).2

/-- No product wraps around for sizes of 32 bits. -/
theorem mul_lt_of_small
    {bufSize i : ℕ} (hsize : bufSize < 2 ^ 32) (hi : i ≤ 32768) :
    i * bufSize < 2 ^ 64 := by
  calc
    i * bufSize ≤ 32768 * bufSize := Nat.mul_le_mul_right bufSize hi
    _ < 2 ^ 64 := by omega

theorem provide_eq
    {bufSize i : ℕ} (hsize : bufSize < 2 ^ 32) (hi : i < 32768) :
    provide bufSize i = ⟨i * bufSize, bufSize, i⟩ := by
  rw [provide, Nat.mod_eq_of_lt (mul_lt_of_small hsize hi.le),
    Nat.mod_eq_of_lt hsize, Nat.mod_eq_of_lt (by omega)]

theorem end_le_of_lt (bufSize : ℕ) {i j : ℕ} (hij : i < j) :
    i * bufSize + bufSize ≤ j * bufSize := by
  calc
    i * bufSize + bufSize = (i + 1) * bufSize := (Nat.succ_mul i bufSize).symm
    _ ≤ j * bufSize := Nat.mul_le_mul_right bufSize hij

theorem sound_of_small
    {t : Thread} {a : Answers} {bufSize bufCount : ℕ} {b : Buffers}
    (h : (construct t a bufSize bufCount).2 = .ok b)
    (hsize : bufSize < 2 ^ 32) : b.Sound bufSize bufCount := by
  have hcount := bitCeil_le_of_ok h
  obtain ⟨-, -, -, hbuf, -, hstorage, hprovided⟩ := construct_eq_ok h
  have hbytes : b.storage = bufSize * bitCeil bufCount := by
    rw [hstorage, Nat.mul_comm, Nat.mod_eq_of_lt (mul_lt_of_small hsize hcount)]
  -- what is provided is the product of the index and the size
  have hentry : ∀ (i : ℕ) p, b.provided[i]? = some p →
      i < bitCeil bufCount ∧ p = ⟨i * bufSize, bufSize, i⟩ := by
    intro i p hp
    rw [hprovided, List.getElem?_map, Option.map_eq_some_iff] at hp
    obtain ⟨j, hj, rfl⟩ := hp
    obtain ⟨hlt, hij⟩ := List.getElem?_eq_some_iff.mp hj
    rw [List.length_range] at hlt
    rw [List.getElem_range] at hij
    subst hij
    exact ⟨hlt, provide_eq hsize (by omega)⟩
  have hmem : ∀ p ∈ b.provided, ∃ i < bitCeil bufCount,
      p = ⟨i * bufSize, bufSize, i⟩ := by
    intro p hp
    obtain ⟨i, hi⟩ := List.mem_iff_getElem?.mp hp
    exact ⟨i, hentry i p hi⟩
  refine ⟨hbytes, by simp [hprovided], ?_, ?_, ?_, ?_, ?_, ?_⟩
  · intro i p hp
    rw [(hentry i p hp).2]
  · intro p hp
    obtain ⟨i, -, rfl⟩ := hmem p hp
    rfl
  · intro p hp
    obtain ⟨i, hi, rfl⟩ := hmem p hp
    have hend := end_le_of_lt bufSize hi
    rw [Nat.mul_comm (bitCeil bufCount), ← hbytes] at hend
    exact ⟨Nat.zero_le _, by simpa [Provided.span] using hend⟩
  · intro i j p q hp hq hij
    rw [(hentry i p hp).2, (hentry j q hq).2]
    rcases Nat.lt_or_gt_of_ne hij with hlt | hgt
    · exact .inl (end_le_of_lt bufSize hlt)
    · exact .inr (end_le_of_lt bufSize hgt)
  · intro p hp
    obtain ⟨i, hi, rfl⟩ := hmem p hp
    simp only [Buffers.returnBuffer, hbuf]
    rw [Nat.mod_eq_of_lt (mul_lt_of_small hsize (by omega)),
      Nat.mod_eq_of_lt hsize]
  · intro p hp size hle
    obtain ⟨i, hi, rfl⟩ := hmem p hp
    simp only [Buffers.data, hbuf, Provided.span, Span.Inside]
    rw [Nat.mod_eq_of_lt (mul_lt_of_small hsize (by omega))]
    exact ⟨le_rfl, Nat.add_le_add_left hle _⟩

/-- The buffers of an accepted receiver are as they are meant exactly if their
size has 32 bits. -/
theorem buffers_sound_iff_size_lt
    (t : Thread) (a : Answers) (bufSize bufCount : ℕ) (b : Buffers)
    (h : (construct t a bufSize bufCount).2 = .ok b) :
    b.Sound bufSize bufCount ↔ bufSize < 2 ^ 32 := by
  refine ⟨fun hsound => ?_, sound_of_small h⟩
  obtain ⟨-, -, -, -, -, -, hprovided⟩ := construct_eq_ok h
  have hpos : 0 < bitCeil bufCount := Nat.pow_pos Nat.two_pos
  have hfirst : provide bufSize 0 ∈ b.provided := by
    rw [hprovided]
    exact List.mem_map_of_mem (List.mem_range.mpr hpos)
  have hlength := hsound.length _ hfirst
  simp only [provide] at hlength
  rw [← hlength]
  exact Nat.mod_lt _ (by decide)

/-- A receiver with three buffers of 4096 bytes, which become four. -/
theorem buffers_sound_of_page_size :
    ∃ b, (construct ⟨0, []⟩ .good 4096 3).2 = .ok b ∧ b.storage = 16384 ∧
      b.Sound 4096 3 :=
  ⟨_, rfl, rfl, (buffers_sound_iff_size_lt ⟨0, []⟩ .good 4096 3 _ rfl).mpr
    (by decide)⟩

/-- One buffer of `2 ^ 32` bytes is provided with length 0.  Four buffers of
`2 ^ 62` bytes have no storage at all. -/
theorem large_buffers_cut_off :
    (∃ b, (construct ⟨0, []⟩ .good (2 ^ 32) 1).2 = .ok b ∧
        b.storage = 2 ^ 32 ∧ b.provided = [⟨0, 0, 0⟩]) ∧
      ∃ b, (construct ⟨0, []⟩ .good (2 ^ 62) 4).2 = .ok b ∧ b.storage = 0 :=
  ⟨⟨_, rfl, rfl, rfl⟩, _, rfl, rfl⟩

end Fiberexec.Multishot.Recv
