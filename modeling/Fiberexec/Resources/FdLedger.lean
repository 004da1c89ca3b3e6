import Fiberexec.Resources.FdTable
import Fiberexec.Resources.Stock
import Mathlib.Data.List.Range

/-!
# Where the slots of a table are

Every slot that the kernel has registered is free, owned by one `fd_slot`, or
lost to an acquire that has thrown.  A slot that is free is empty in the kernel.
-/

namespace Fiberexec.Resources.FdTable

open Support

/-! ## What the functions do -/

theorem length_registerFilesUpdate
    (files : List ℤ) (slot : ℕ) (fd r left : ℤ) :
    (registerFilesUpdate files slot fd r left).2.length = files.length := by
  simp only [registerFilesUpdate]
  split_ifs <;> simp

theorem getElem?_registerFilesUpdate_of_ne
    (files : List ℤ) {slot k : ℕ} (fd r left : ℤ) (hne : slot ≠ k) :
    (registerFilesUpdate files slot fd r left).2[k]? = files[k]? := by
  simp only [registerFilesUpdate]
  split_ifs <;> simp [hne]

theorem clear_of_lt {s : State} {slot : ℕ} (h : slot < s.files.length) :
    s.clear slot = { s with files := s.files.set slot (-1) } := by
  have hanswer : registerFilesUpdate s.files slot (-1) 1 (-1) =
      (1, s.files.set slot (-1)) := by
    simp [registerFilesUpdate, not_le.mpr h]
  simp [State.clear, State.update, hanswer]

/-! ## The law -/

/-- The slots that are registered: the capacity as an `unsigned`. -/
def registered (capacity : ℕ) : ℕ :=
  capacity % 2 ^ 32

/-- Where the slots of a table are, and what the kernel holds. -/
structure Ledger (capacity : ℕ) (s : State) : Prop where
  stock : Stock (List.range (registered capacity)) s.lost s.freeList s.slots
  empty : ∀ slot ∈ s.freeList.items, s.fileAt slot = -1
  files : s.freeList.closed = false → s.files.length = registered capacity
  usable : s.freeList.usable = bitCeil (capacity + 1) - 1
  idle : s.freeList.closed = true → s.waiting = []
  sound : s.terminated = false ∧ s.unreleased = false

namespace Ledger

variable {capacity : ℕ} {s : State}

theorem lt_of_free
    (h : Ledger capacity s) {slot : ℕ} (hslot : slot ∈ s.freeList.items) :
    slot < registered capacity :=
  List.mem_range.mp (h.stock.mem_iff.mp (.inl hslot))

theorem lt_of_owned
    (h : Ledger capacity s) {slot : ℕ} (hslot : slot ∈ s.slots.owned) :
    slot < registered capacity :=
  List.mem_range.mp (h.stock.mem_iff.mp (.inr (.inl hslot)))

theorem length_add (h : Ledger capacity s) :
    s.freeList.items.length + s.slots.owned.length + s.lost.length =
      registered capacity := by
  rw [h.stock.length_add, List.length_range]

theorem capacity_le_usable (h : Ledger capacity s) :
    capacity ≤ s.freeList.usable := by
  have hle := le_bitCeil (capacity + 1)
  rw [h.usable]
  omega

theorem giveBack
    (h : Ledger capacity s) {d : FdSlot} {slots : Handles ℕ}
    (howned : (slots.owned ++ d.owned?.toList).Perm s.slots.owned) :
    Ledger capacity { s.giveBack d with slots := slots } := by
  cases howner : d.owner with
  | false =>
      have hnone : d.owned? = none := by simp [Handle.owned?, howner]
      rw [hnone, Option.toList_none, List.append_nil] at howned
      simp only [State.giveBack, howner, Bool.false_eq_true, if_false]
      exact ⟨h.stock.of_perm howned, h.empty, h.files, h.usable, h.idle,
        h.sound⟩
  | true =>
      have hsome : d.owned? = some d.key := by simp [Handle.owned?, howner]
      have hmem : d.key ∈ s.slots.owned :=
        howned.mem_iff.mp (by simp [hsome])
      have hopen := h.stock.open_of_owned hmem
      have hlt : d.key < s.files.length := by
        rw [h.files hopen]
        exact h.lt_of_owned hmem
      have heffect : s.giveBack d =
          { s with
            files := s.files.set d.key (-1)
            freeList :=
              { s.freeList with items := s.freeList.items ++ [d.key] } } := by
        rw [State.giveBack, if_pos howner, clear_of_lt hlt, State.releaseSlot]
        simp only [h.stock.push_of_owned hmem]
      rw [heffect]
      refine ⟨h.stock.giveBack howned hsome, ?_, ?_, h.usable, h.idle, h.sound⟩
      · intro slot hslot
        rcases List.mem_append.mp hslot with hslot | hslot
        · have hempty := h.empty slot hslot
          simp only [State.fileAt] at hempty ⊢
          rw [List.getElem?_set]
          split_ifs with heq
          · simp
          · exact hempty
        · obtain rfl := List.mem_singleton.mp hslot
          simp [State.fileAt, hlt]
      · intro _
        rw [List.length_set, h.files hopen]

theorem update
    (h : Ledger capacity s) {slot : ℕ} (hslot : slot ∉ s.freeList.items)
    (fd r left : ℤ) : Ledger capacity (s.update slot fd r left).1 := by
  refine ⟨h.stock, ?_, ?_, h.usable, h.idle, h.sound⟩
  · intro k hk
    have hne : slot ≠ k := fun heq => hslot (heq ▸ hk)
    simp only [State.update, State.fileAt]
    rw [getElem?_registerFilesUpdate_of_ne _ _ _ _ hne]
    exact h.empty k hk
  · intro hopen
    simp only [State.update]
    rw [length_registerFilesUpdate, h.files hopen]

end Ledger

/-- What becomes of a slot that an acquire takes off the free list: a new
`fd_slot` owns it, or nobody does. -/
theorem install_cases (s : State) (slot : ℕ) (fd r left : ℤ) :
    ((s.update slot fd r left).2 = none ∧
      s.install slot fd r left =
        ({ (s.update slot fd r left).1 with slots := s.slots.take slot },
          .returned slot)) ∨
      ∃ e, (s.update slot fd r left).2 = some e ∧
        s.install slot fd r left =
          ({ (s.update slot fd r left).1 with lost := s.lost ++ [slot] },
            .throws e) := by
  cases hupdate : s.update slot fd r left with
  | mk s' error =>
      have hframe : s'.slots = s.slots ∧ s'.lost = s.lost := by
        have heq := congrArg Prod.fst hupdate
        simp only [State.update] at heq
        rw [← heq]
        exact ⟨rfl, rfl⟩
      cases error with
      | none =>
          refine .inl ⟨rfl, ?_⟩
          rw [State.install, hupdate, ← hframe.1]
      | some e =>
          refine .inr ⟨e, rfl, ?_⟩
          rw [State.install, hupdate, ← hframe.2]

/-- The table when an acquire has taken the first free slot. -/
def State.taken (s : State) (items : List ℕ) (waiting : List ℤ) : State :=
  { s with
    freeList := { s.freeList with items := items }
    waiting := waiting }

theorem Ledger.install
    {capacity : ℕ} {s : State} (h : Ledger capacity s)
    (hopen : s.freeList.closed = false) {slot : ℕ} {items : List ℕ}
    (hitems : s.freeList.items = slot :: items) (waiting : List ℤ)
    (fd r left : ℤ) :
    Ledger capacity ((s.taken items waiting).install slot fd r left).1 := by
  have hfree : slot ∉ items := by
    have hnodup := (h.stock.nodup List.nodup_range).1
    rw [hitems] at hnodup
    exact (List.nodup_cons.mp hnodup).1
  have hfiles : ∀ k ∈ items,
      State.fileAt ((s.taken items waiting).update slot fd r left).1 k =
        -1 := by
    intro k hk
    have hne : slot ≠ k := fun heq => hfree (heq ▸ hk)
    simp only [State.update, State.fileAt, State.taken]
    rw [getElem?_registerFilesUpdate_of_ne _ _ _ _ hne]
    exact h.empty k (by simp [hitems, hk])
  have hlength : ((s.taken items waiting).update slot fd r left).1.files.length
      = Resources.FdTable.registered capacity := by
    simp only [State.update, State.taken]
    rw [length_registerFilesUpdate, h.files hopen]
  have hidle : s.freeList.closed = true → waiting = [] := by simp [hopen]
  rcases install_cases (s.taken items waiting) slot fd r left with
    ⟨-, heq⟩ | ⟨e, -, heq⟩
  · rw [heq]
    exact ⟨h.stock.take hopen hitems, hfiles, fun _ => hlength, h.usable, hidle,
      h.sound⟩
  · rw [heq]
    exact ⟨h.stock.lose hitems, hfiles, fun _ => hlength, h.usable, hidle,
      h.sound⟩

/-! ## Steps -/

/-- How a call of `acquire_fd_slot` can go. -/
theorem acquire_cases (s : State) (fd r left : ℤ) :
    (s.freeList.closed = true ∧ ∃ e, s.acquire fd r left = (s, .throws e)) ∨
      s.freeList.closed = false ∧
        ((s.freeList.items = [] ∧
          s.acquire fd r left =
            ({ s with waiting := s.waiting ++ [fd] }, .suspended)) ∨
        ∃ slot items, s.freeList.items = slot :: items ∧
          s.acquire fd r left =
            (s.taken items s.waiting).install slot fd r left) := by
  cases hclosed : s.freeList.closed with
  | true => exact .inl ⟨rfl, by simp [State.acquire, hclosed]⟩
  | false =>
      refine .inr ⟨rfl, ?_⟩
      rw [State.acquire, if_neg (by simp [hclosed])]
      cases hitems : s.freeList.items with
      | nil => exact .inl ⟨rfl, by simp [Channel.pop, hitems, hclosed]⟩
      | cons slot items =>
          exact .inr ⟨slot, items, rfl, by
            simp [Channel.pop, hitems, State.taken]⟩

/-- How a suspended call goes on while the table is open. -/
theorem resume_cases
    {s : State} (hopen : s.freeList.closed = false) (i : ℕ) (fd r left : ℤ) :
    (s.freeList.items = [] ∧ s.resume i fd r left = (s, .suspended)) ∨
      ∃ slot items, s.freeList.items = slot :: items ∧
        s.resume i fd r left =
          (s.taken items (s.waiting.eraseIdx i)).install slot fd r left := by
  rw [State.resume]
  cases hitems : s.freeList.items with
  | nil => exact .inl ⟨rfl, by simp [Channel.pop, hitems, hopen]⟩
  | cons slot items =>
      exact .inr ⟨slot, items, rfl, by
        simp [Channel.pop, hitems, State.taken]⟩

theorem Ledger.open_of_resume
    {capacity : ℕ} {s : State} (h : Ledger capacity s) {i : ℕ} {fd : ℤ}
    (hi : s.waiting[i]? = some fd) : s.freeList.closed = false := by
  rw [← Bool.not_eq_true]
  intro hclosed
  simp [h.idle hclosed] at hi

theorem ledger_effect
    {capacity : ℕ} {s : State} {e : Event} (h : Ledger capacity s)
    (he : enabled s e) : Ledger capacity (effect s e) := by
  cases e with
  | acquire fd r left =>
      simp only [effect]
      rcases acquire_cases s fd r left with
        ⟨-, e, heq⟩ | ⟨hopen, ⟨-, heq⟩ | ⟨slot, items, hitems, heq⟩⟩
      · rw [heq]
        exact h
      · rw [heq]
        exact ⟨h.stock, h.empty, h.files, h.usable, by simp [hopen], h.sound⟩
      · rw [heq]
        exact h.install hopen hitems _ fd r left
  | resume i fd r left =>
      simp only [effect]
      have hopen := h.open_of_resume he
      rcases resume_cases hopen i fd r left with
        ⟨-, heq⟩ | ⟨slot, items, hitems, heq⟩
      · rw [heq]
        exact h
      · rw [heq]
        exact h.install hopen hitems _ fd r left
  | update i d fd r left =>
      have hd : d = ⟨true, d.key⟩ := by rw [← he.2]
      have hmem : d.key ∈ s.slots.owned :=
        Handles.mem_owned_iff.mpr ⟨i, hd ▸ he.1⟩
      refine h.update ?_ fd r left
      intro hfree
      exact ((h.stock.nodup List.nodup_range).2.2 _ hfree).1 hmem
  | moveConstruct src d =>
      have howned := Handles.owned_moveConstruct he
      exact ⟨h.stock.of_perm howned, h.empty, h.files, h.usable, h.idle,
        h.sound⟩
  | moveAssign dst src d d' =>
      simp only [effect]
      split_ifs with heq
      · exact h
      · exact h.giveBack (Handles.owned_moveAssign he.1 he.2 heq)
  | destroy i d => exact h.giveBack (Handles.owned_destroy he)
  | close =>
      refine ⟨h.stock.close he.2.1, ?_, ?_, h.usable, fun _ => he.2.2, h.sound⟩
      · intro slot _
        simp [effect, State.fileAt]
      · intro hclosed
        simp [effect, Channel.close] at hclosed

/-! ## Accepted tables -/

/-- The table that a constructor leaves, if it leaves one. -/
def LeavesTable (capacity : ℕ) : Except Error State → Prop
  | .error _ => True
  | .ok s => Ledger capacity s ∧ s.slots = [] ∧ s.lost = []

/-- Every check of the constructor throws or goes on to the next one. -/
theorem construct_leavesTable
    (onWorker ringAllocated slotsAllocated : Bool) (capacity : ℕ)
    (registered : ℤ) :
    LeavesTable capacity
      (construct onWorker ringAllocated slotsAllocated capacity registered) := by
  unfold construct
  cases hchannel : (Channel.construct capacity : Option (Channel ℕ)) with
  | none => trivial
  | some freeList =>
      refine iteInduction (fun _ => trivial) fun _ => ?_
      refine iteInduction (fun _ => trivial) fun _ => ?_
      refine iteInduction (fun _ => trivial) fun _ => ?_
      refine iteInduction (fun _ => trivial) fun hsize => ?_
      refine iteInduction (fun _ => trivial) fun _ => ?_
      refine iteInduction (fun _ => trivial) fun _ => ?_
      have hmax : capacity + 1 < 2 ^ 64 := by
        simp only [maxSlots] at hsize
        omega
      obtain ⟨hle, husable, hitems, hopen⟩ :=
        Channel.le_usable_of_construct hchannel hmax
      have hcount : capacity % 2 ^ 32 ≤ capacity := Nat.mod_le _ _
      have hfill := Channel.foldl_tryPush (List.range (capacity % 2 ^ 32)) hopen
        (by rw [hitems, List.length_range, List.length_nil]; omega)
      dsimp only
      rw [hfill, hitems, List.nil_append]
      refine ⟨⟨?_, ?_, ?_, husable, ?_, rfl, rfl⟩, rfl, rfl⟩
      · refine Stock.initial rfl ?_
        rw [List.length_range, FdTable.registered]
        exact hcount.trans hle
      · intro slot hslot
        simp only [State.fileAt, List.getElem?_replicate]
        split <;> rfl
      · simp [FdTable.registered]
      · simp [hopen]

/-- The table that an accepting constructor leaves. -/
theorem ledger_of_construct
    {onWorker ringAllocated slotsAllocated : Bool} {capacity : ℕ}
    {registered : ℤ} {s : State}
    (h : construct onWorker ringAllocated slotsAllocated capacity registered =
      .ok s) : Ledger capacity s ∧ s.slots = [] ∧ s.lost = [] := by
  have hleaves := construct_leavesTable onWorker ringAllocated slotsAllocated
    capacity registered
  rwa [h] at hleaves

theorem ledger_of_reachable
    {capacity : ℕ} {s : State} (h : (machine capacity).Reachable s) :
    Ledger capacity s := by
  refine Machine.Reachable.invariant ?_ ?_ h
  · rintro s ⟨onWorker, ringAllocated, slotsAllocated, registered, hs⟩
    exact (ledger_of_construct hs).1
  · intro s e _ hledger he
    exact ledger_effect hledger he

/-! ## The theorem on ownership -/

theorem free_of_returned
    {s : State} {e : Event} {slot : ℕ}
    (hreturned : outcome s e = some (.returned slot)) :
    slot ∈ s.freeList.items := by
  have hinstall : ∀ (s' : State) (k : ℕ) (fd r left : ℤ),
      (s'.install k fd r left).2 = .returned slot → k = slot := by
    intro s' k fd r left hk
    rcases install_cases s' k fd r left with ⟨-, heq⟩ | ⟨e, -, heq⟩
    · rw [heq] at hk
      exact Outcome.returned.inj hk
    · rw [heq] at hk
      cases hk
  cases e with
  | acquire fd r left =>
      have hk := Option.some.inj hreturned
      rcases acquire_cases s fd r left with
        ⟨-, e, heq⟩ | ⟨-, ⟨-, heq⟩ | ⟨k, items, hitems, heq⟩⟩
      · rw [heq] at hk
        cases hk
      · rw [heq] at hk
        cases hk
      · rw [heq] at hk
        rw [hitems, hinstall _ _ _ _ _ hk]
        exact List.mem_cons_self
  | resume i fd r left =>
      have hk := Option.some.inj hreturned
      simp only [State.resume, Channel.pop] at hk
      cases hitems : s.freeList.items with
      | nil =>
          rw [hitems] at hk
          split_ifs at hk
      | cons k items =>
          rw [hitems] at hk
          rw [hinstall _ _ _ _ _ hk]
          exact List.mem_cons_self
  | _ => cases hreturned

/-- In every run of a table that the constructor accepts: no slot has two
owners, none is free twice, and none is free and owned; a free slot is empty in
the kernel; no acquire returns a slot beyond the capacity; and while the table
is open, releasing a slot that is owned succeeds at once, since the channel has
room for the capacity. -/
theorem fd_slots_never_shared
    (capacity : ℕ) (s : State) (h : (machine capacity).Reachable s) :
    (∀ slot i j : ℕ, s.slots[i]? = some (some ⟨true, slot⟩) →
        s.slots[j]? = some (some ⟨true, slot⟩) → i = j) ∧
      s.freeList.items.Nodup ∧
      (∀ slot ∈ s.freeList.items,
        slot ∉ s.slots.owned ∧ s.fileAt slot = -1) ∧
      (∀ e slot, enabled s e → outcome s e = some (.returned slot) →
        slot < capacity) ∧
      (s.freeList.closed = false → ∀ slot ∈ s.slots.owned,
        (s.freeList.push slot).map Prod.fst = some .success) ∧
      s.terminated = false ∧ s.unreleased = false ∧
      s.freeList.usable = bitCeil (capacity + 1) - 1 ∧
      capacity ≤ s.freeList.usable := by
  have hledger := ledger_of_reachable h
  obtain ⟨hfree, howned, hdisjoint⟩ := hledger.stock.nodup List.nodup_range
  refine ⟨?_, hfree, ?_, ?_, ?_, hledger.sound.1, hledger.sound.2,
    hledger.usable, hledger.capacity_le_usable⟩
  · intro slot i j hi hj
    exact Handles.owner_unique howned hi hj
  · intro slot hslot
    exact ⟨(hdisjoint slot hslot).1, hledger.empty slot hslot⟩
  · intro e slot _ hreturned
    have hmem := free_of_returned hreturned
    exact (hledger.lt_of_free hmem).trans_le (Nat.mod_le _ _)
  · intro _ slot hslot
    rw [hledger.stock.push_of_owned hslot]
    rfl

/-- A table of two slots.  The first `fd_slot` is moved onto the second, whose
slot is thereby freed. -/
theorem fd_slots_not_shared_after_move :
    ∃ s, (machine 2).Reachable s ∧ s.freeList.items = [1] ∧
      s.slots = [some ⟨false, 0⟩, some ⟨true, 0⟩] ∧ s.fileAt 1 = -1 ∧
      (s.freeList.push 0).map Prod.fst = some .success := by
  obtain ⟨s, hs, hitems, hslots, hopen⟩ :=
    Machine.exists_reachableUnder_of_exec
      (M := machine 2) (G := fun _ _ => True)
      (P := fun s : State => s.freeList.items = [1] ∧
        s.slots = [some ⟨false, 0⟩, some ⟨true, 0⟩] ∧
          s.freeList.closed = false)
      ⟨true, true, true, 0, rfl⟩
      [.acquire 5 1 (-1), .acquire 7 1 (-1),
        .moveAssign 1 0 ⟨true, 1⟩ ⟨true, 0⟩]
      (by decide)
  obtain ⟨-, -, hfree, -, hrelease, -⟩ := fd_slots_never_shared 2 s hs
  have hempty := (hfree 1 (by simp [hitems])).2
  have howned : 0 ∈ s.slots.owned := by rw [hslots]; decide
  exact ⟨s, hs, hitems, hslots, hempty, hrelease hopen 0 howned⟩

end Fiberexec.Resources.FdTable
