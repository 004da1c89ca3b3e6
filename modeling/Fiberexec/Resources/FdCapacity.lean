import Fiberexec.Resources.FdLedger

/-!
# Failing acquires

`acquire_fd_slot` takes a slot off the free list before it installs the
descriptor, and nothing owns the slot in between.  When the kernel refuses the
descriptor the exception leaves the function with the slot in nobody's hands,
unlike in `fixed_buffer_pool::borrow`, where the handle owns its index from the
start.  The slot is never free again.
-/

namespace Fiberexec.Resources.FdTable

open Support

/-- The kernel installs the descriptor of an acquire that has a slot. -/
def Installs (s : State) : Event → Prop
  | .acquire _ r _ | .resume _ _ r _ =>
      s.freeList.closed = false → s.freeList.items ≠ [] → 0 ≤ r
  | _ => True

instance (s : State) (e : Event) : Decidable (Installs s e) :=
  match e with
  | .acquire _ r _ | .resume _ _ r _ =>
      inferInstanceAs (Decidable
        (s.freeList.closed = false → s.freeList.items ≠ [] → 0 ≤ r))
  | .update _ _ _ _ _ | .moveConstruct _ _ | .moveAssign _ _ _ _
  | .destroy _ _ | .close => .isTrue trivial

/-! ## What a step does to the lost slots -/

theorem lost_giveBack (s : State) (d : FdSlot) :
    (s.giveBack d).lost = s.lost := by
  have hclear : ∀ slot, (s.clear slot).lost = s.lost := by
    intro slot
    simp only [State.clear]
    split
    next s' heq => exact (congrArg (fun p => p.1.lost) heq).symm
    next s' e heq => exact (congrArg (fun p => p.1.lost) heq).symm
  have hrelease : ∀ (s' : State) slot, (s'.releaseSlot slot).lost = s'.lost := by
    intro s' slot
    simp only [State.releaseSlot]
    split <;> rfl
  rw [State.giveBack]
  split_ifs
  · rw [hrelease, hclear]
  · rfl

theorem update_snd
    {s : State} {slot : ℕ} (hslot : slot < s.files.length) (fd r left : ℤ) :
    (s.update slot fd r left).2 =
      if r < 0 then
        some (.systemError (-r) "io_uring_register_files_update")
      else none := by
  have hanswer : (registerFilesUpdate s.files slot fd r left).1 = r := by
    simp only [registerFilesUpdate, not_le.mpr hslot, if_false]
    split_ifs <;> rfl
  simp only [State.update, hanswer]

theorem lost_install_of_nonneg
    {s : State} {slot : ℕ} (hslot : slot < s.files.length) {fd r left : ℤ}
    (hr : 0 ≤ r) : (s.install slot fd r left).1.lost = s.lost := by
  have hok := update_snd hslot fd r left
  rw [if_neg (not_lt.mpr hr)] at hok
  rcases install_cases s slot fd r left with ⟨-, heq⟩ | ⟨e, he, -⟩
  · rw [heq]
    rfl
  · simp [hok] at he

theorem install_of_neg
    {s : State} {slot : ℕ} (hslot : slot < s.files.length) {r : ℤ}
    (hr : r < 0) (fd left : ℤ) :
    (s.install slot fd r left).1.lost = s.lost ++ [slot] ∧
      (s.install slot fd r left).1.freeList = s.freeList ∧
      (s.install slot fd r left).2 =
        .throws (.systemError (-r) "io_uring_register_files_update") := by
  have herror := update_snd hslot fd r left
  rw [if_pos hr] at herror
  rcases install_cases s slot fd r left with ⟨hnone, -⟩ | ⟨e, he, heq⟩
  · simp [herror] at hnone
  · obtain rfl := Option.some.inj (herror.symm.trans he)
    rw [heq]
    exact ⟨rfl, rfl, rfl⟩

/-- What an acquire with a refused descriptor leaves behind. -/
structure Loses (s : State) (e : Event) : Prop where
  lost : ∃ slot, s.freeList.items = slot :: (effect s e).freeList.items ∧
    (effect s e).lost = s.lost ++ [slot]
  throws : ∃ r < 0, outcome s e =
    some (.throws (.systemError (-r) "io_uring_register_files_update"))

theorem loses_of_taken
    {s : State} {e : Event} {slot : ℕ} {items : List ℕ} {waiting : List ℤ}
    {fd r left : ℤ} (hslot : slot < s.files.length)
    (hitems : s.freeList.items = slot :: items)
    (heffect : effect s e =
      ((s.taken items waiting).install slot fd r left).1)
    (houtcome : outcome s e =
      some ((s.taken items waiting).install slot fd r left).2) :
    (0 ≤ r → (effect s e).lost = s.lost) ∧ (r < 0 → Loses s e) := by
  refine ⟨fun hr => ?_, fun hr => ?_⟩
  · rw [heffect]
    exact lost_install_of_nonneg (s := s.taken items waiting) hslot hr
  · obtain ⟨hlost, hfree, hthrows⟩ := install_of_neg
      (s := s.taken items waiting) hslot hr fd left
    refine ⟨⟨slot, ?_, ?_⟩, r, hr, ?_⟩
    · rw [heffect, hfree, hitems]
      rfl
    · rw [heffect, hlost]
      rfl
    · rw [houtcome, hthrows]

/-- A step loses a slot exactly if it is an acquire with a refused
descriptor. -/
theorem lost_effect
    {capacity : ℕ} {s : State} {e : Event} (h : Ledger capacity s)
    (he : enabled s e) :
    (Installs s e → (effect s e).lost = s.lost) ∧
      (¬Installs s e → Loses s e) := by
  have hvalid : ∀ {slot items}, s.freeList.closed = false →
      s.freeList.items = slot :: items → slot < s.files.length := by
    intro slot items hopen hitems
    rw [h.files hopen]
    exact h.lt_of_free (by simp [hitems])
  cases e with
  | acquire fd r left =>
      rcases acquire_cases s fd r left with
        ⟨hclosed, e, heq⟩ | ⟨hopen, ⟨hnone, heq⟩ | ⟨slot, items, hitems, heq⟩⟩
      · simp [effect, heq, Installs, hclosed]
      · simp [effect, heq, Installs, hnone]
      · simpa [Installs, hopen, hitems] using loses_of_taken
          (e := .acquire fd r left) (hvalid hopen hitems) hitems
          (congrArg Prod.fst heq) (by rw [outcome, heq])
  | resume i fd r left =>
      have hopen := h.open_of_resume he
      rcases resume_cases hopen i fd r left with
        ⟨hnone, heq⟩ | ⟨slot, items, hitems, heq⟩
      · simp [effect, heq, Installs, hnone]
      · simpa [Installs, hopen, hitems] using loses_of_taken
          (e := .resume i fd r left) (hvalid hopen hitems) hitems
          (congrArg Prod.fst heq) (by rw [outcome, heq])
  | moveAssign dst src d d' =>
      refine ⟨fun _ => ?_, fun hguard => absurd trivial hguard⟩
      simp only [effect]
      split_ifs
      · rfl
      · exact lost_giveBack s d
  | destroy i d =>
      exact ⟨fun _ => lost_giveBack s d, fun hguard => absurd trivial hguard⟩
  | update | moveConstruct | close =>
      exact ⟨fun _ => rfl, fun hguard => absurd trivial hguard⟩

theorem lost_sublist_of_reaches
    {capacity : ℕ} {s s' : State} (hs : (machine capacity).Reachable s)
    (h : (machine capacity).Reaches s s') : s.lost.Sublist s'.lost := by
  induction h with
  | refl => exact List.Sublist.refl _
  | @tail s₁ _ hprev hlast ih =>
      obtain ⟨e, he, rfl⟩ := hlast
      refine ih.trans ?_
      obtain ⟨hkeep, hlose⟩ := lost_effect
        (ledger_of_reachable (hs.trans hprev)) he
      change List.Sublist _ (effect s₁ e).lost
      by_cases hguard : Installs s₁ e
      · rw [hkeep hguard]
      · obtain ⟨slot, -, hlost⟩ := (hlose hguard).lost
        rw [hlost]
        exact List.sublist_append_left _ _

/-! ## The theorem on failing acquires -/

theorem lost_of_installs
    {capacity : ℕ} {s : State}
    (h : (machine capacity).ReachableUnder Installs s) : s.lost = [] := by
  refine Machine.ReachableUnder.invariant (I := fun s : State => s.lost = [])
    ?_ ?_ h
  · rintro s ⟨onWorker, ringAllocated, slotsAllocated, registered, hs⟩
    exact (ledger_of_construct hs).2.2
  · intro s e hs hlost he hguard
    have hkeep := (lost_effect (ledger_of_reachable hs.reachable) he).1 hguard
    exact hkeep.trans hlost

theorem items_of_suspended
    {s : State} {e : Event} (hsuspended : outcome s e = some .suspended) :
    s.freeList.items = [] := by
  by_contra hne
  obtain ⟨slot, items, hitems⟩ := List.exists_cons_of_ne_nil hne
  have hinstall : ∀ (s' : State) (fd r left : ℤ),
      (s'.install slot fd r left).2 ≠ .suspended := by
    intro s' fd r left
    rcases install_cases s' slot fd r left with ⟨-, heq⟩ | ⟨e, -, heq⟩ <;>
      simp [heq]
  cases e with
  | acquire fd r left =>
      have hout := Option.some.inj hsuspended
      rcases acquire_cases s fd r left with
        ⟨-, e, heq⟩ | ⟨-, ⟨hnone, -⟩ | ⟨k, rest, hk, heq⟩⟩
      · simp [heq] at hout
      · exact hne hnone
      · obtain ⟨rfl, rfl⟩ := List.cons.inj (hitems.symm.trans hk)
        rw [heq] at hout
        exact hinstall _ _ _ _ hout
  | resume i fd r left =>
      have hout := Option.some.inj hsuspended
      simp only [State.resume, Channel.pop, hitems] at hout
      exact hinstall _ _ _ _ hout
  | _ => cases hsuspended

/-- In every run in which no descriptor of an acquire with a slot is refused,
and for a capacity below `2 ^ 32`, the free slots and those owned are at every
point as many as the capacity, and an acquire suspends only when all are owned.
Every acquire with a refused descriptor throws with a slot fewer free than
before, and from then on some slot is missing for ever.  For a larger capacity
fewer slots than the capacity are registered at all. -/
theorem acquire_keeps_slots_iff_installed
    (capacity : ℕ) (s : State) :
    (capacity < 2 ^ 32 → (machine capacity).ReachableUnder Installs s →
        s.freeList.items.length + s.slots.owned.length = capacity ∧
          ∀ e, enabled s e → outcome s e = some .suspended →
            s.slots.owned.length = capacity) ∧
      (∀ e, (machine capacity).Reachable s → enabled s e → ¬Installs s e →
        (∃ r < 0, outcome s e = some (.throws
          (.systemError (-r) "io_uring_register_files_update"))) ∧
        ¬(∀ slot, slot ∈ (effect s e).freeList.items ↔
          slot ∈ s.freeList.items) ∧
        ∀ s', (machine capacity).Reaches (effect s e) s' →
          s'.freeList.items.length + s'.slots.owned.length < capacity) ∧
      (2 ^ 32 ≤ capacity → (machine capacity).Reachable s →
        s.freeList.items.length + s.slots.owned.length < capacity) := by
  refine ⟨fun hsmall h => ?_, fun e h he hguard => ?_, fun hlarge h => ?_⟩
  · have hlength := (ledger_of_reachable h.reachable).length_add
    rw [lost_of_installs h, registered, Nat.mod_eq_of_lt hsmall] at hlength
    refine ⟨hlength, fun e _ hsuspended => ?_⟩
    rw [items_of_suspended hsuspended] at hlength
    simpa using hlength
  · have hledger := ledger_of_reachable h
    have hloses := (lost_effect hledger he).2 hguard
    obtain ⟨slot, hitems, hlost⟩ := hloses.lost
    refine ⟨hloses.throws, ?_, ?_⟩
    · intro hsame
      have hnodup := (hledger.stock.nodup List.nodup_range).1
      rw [hitems, List.nodup_cons] at hnodup
      exact hnodup.1 ((hsame slot).mpr (by simp [hitems]))
    · intro s' hs'
      have hafter := h.step (M := machine capacity) he
      have hlength := (ledger_of_reachable (hafter.trans hs')).length_add
      have hsublist := (lost_sublist_of_reaches hafter hs').length_le
      have hpos : 0 < (effect s e).lost.length := by simp [hlost]
      have hle : registered capacity ≤ capacity := Nat.mod_le _ _
      change (effect s e).lost.length ≤ _ at hsublist
      omega
  · have hlength := (ledger_of_reachable h).length_add
    have hlt : registered capacity < 2 ^ 32 := Nat.mod_lt _ (by decide)
    omega

/-- Two acquires with good descriptors take both slots of a table, and the next
one has to wait for one of them. -/
theorem acquires_take_whole_table :
    ∃ s, (machine 2).ReachableUnder Installs s ∧
      outcome s (.acquire 9 1 (-1)) = some .suspended ∧
      s.slots.owned.length = 2 := by
  obtain ⟨s, hs, hsuspended⟩ := Machine.exists_reachableUnder_of_exec
    (M := machine 2) (G := Installs)
    (P := fun s : State => outcome s (.acquire 9 1 (-1)) = some .suspended)
    ⟨true, true, true, 0, rfl⟩ [.acquire 5 1 (-1), .acquire 7 1 (-1)]
    (by decide)
  have hkept := (acquire_keeps_slots_iff_installed 2 s).1 (by decide) hs
  exact ⟨s, hs, hsuspended, hkept.2 (.acquire 9 1 (-1)) trivial hsuspended⟩

/-- A table of one slot.  The kernel refuses a descriptor with `EBADF`; the
slot is gone, and the next acquire waits though no `fd_slot` is alive. -/
theorem failed_acquire_leaves_no_slot :
    ∃ s, (machine 1).Reachable s ∧ s.freeList.items = [0] ∧
      (s.acquire 99 (-9) (-1)).2 =
        .throws (.systemError 9 "io_uring_register_files_update") ∧
      (s.acquire 99 (-9) (-1)).1.freeList.items = [] ∧
      (s.acquire 99 (-9) (-1)).1.slots = [] ∧
      ((s.acquire 99 (-9) (-1)).1.acquire 5 1 (-1)).2 = .suspended :=
  Machine.exists_reachableUnder_of_exec
    (M := machine 1) (G := fun _ _ => True)
    (P := fun s : State => s.freeList.items = [0] ∧
      (s.acquire 99 (-9) (-1)).2 =
        .throws (.systemError 9 "io_uring_register_files_update") ∧
      (s.acquire 99 (-9) (-1)).1.freeList.items = [] ∧
      (s.acquire 99 (-9) (-1)).1.slots = [] ∧
      ((s.acquire 99 (-9) (-1)).1.acquire 5 1 (-1)).2 = .suspended)
    ⟨true, true, true, 0, rfl⟩ []
    (by decide)

end Fiberexec.Resources.FdTable
