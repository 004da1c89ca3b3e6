import Fiberexec.Ring.DrainEnds

/-!
# Room for the reads

Of the SQEs that a turn takes, only those of the two eventfd reads are not
checked.  With an empty submission queue there is one, except after a flush of
`k_ring_entries` cancels or more.  So a call of `drain_cqes` comes to its end
unless so many cancels are queued and a notify CQE can be dispatched.
-/

namespace Fiberexec.Ring.DrainLoop

open Support

variable {η : Type} {L : Layout η} {s : State η}

/-! ## When a turn crashes -/

/-- A turn finds the SQE that it takes without a check. -/
def Fits (s : State η) : Event → Prop
  | .turn _ rearm _ => ∀ c ∈ s.cq.head?,
      (c.userData = kWorkTag → rearm = true → s.sq.length < kRingEntries) ∧
        (c.userData = kNotifyTag →
          s.sq.length + s.cancelQueue.length < kRingEntries)
  | _ => True

theorem arm_crashed_iff
    (hlive : s.crashed = false) (r : Request η) (taken : ℕ) :
    (s.arm r taken).crashed = true ↔ ¬s.sq.length < kRingEntries := by
  rw [State.arm]
  split
  next hroom =>
    exact iff_of_false (by simp [State.submit, hlive]) (not_not.mpr hroom)
  next hfull => exact iff_of_true rfl hfull

theorem tryArm_crashed (s : State η) (r : Request η) (taken : ℕ) :
    (s.tryArm r taken).crashed = s.crashed := by
  rw [State.tryArm]
  split <;> rfl

theorem launchFiber_agree
    {β : Type} {g : State η → β}
    (hg : ∀ s queue launched,
      g { s with workQueue := queue, launched := launched } = g s)
    (s : State η) (res : ℤ) (launch : Bool) :
    g (s.launchFiber res launch) = g s := by
  rw [State.launchFiber]
  split
  · exact hg ..
  · rfl

theorem launchFiber_sq (s : State η) (res : ℤ) (launch : Bool) :
    (s.launchFiber res launch).sq = s.sq :=
  launchFiber_agree (g := State.sq) (fun _ _ _ => rfl) s res launch

theorem execute_crashed_iff
    (hlive : s.crashed = false) (c : Cqe) (launch rearm : Bool) (taken : ℕ)
    (b : Branch η) :
    (s.execute L c launch rearm taken b).crashed = true ↔
      (b = .work ∧ rearm = true ∧ ¬s.sq.length < kRingEntries) ∨
        (b = .notify ∧
          ¬s.sq.length + s.cancelQueue.length < kRingEntries) := by
  cases b with
  | work =>
      have hlaunch := launchFiber_agree (g := State.crashed)
        (fun _ _ _ => rfl) s c.res launch
      simp only [State.execute, reduceCtorEq, false_and, or_false, true_and]
      split
      next hrearm =>
        rw [arm_crashed_iff (hlaunch.trans hlive), launchFiber_sq]
        simp [hrearm]
      next hrearm => simp [hrearm, hlaunch, hlive]
  | notify =>
      simp only [State.execute, reduceCtorEq, false_and, false_or, true_and]
      rw [← length_flush_lt kRingEntries Request.cancel]
      exact arm_crashed_iff (s := s.flushCancelQueue) hlive _ taken
  | cancel => simp [State.execute, hlive]
  | handler h =>
      simp only [State.execute, reduceCtorEq, false_and, or_false, iff_false]
      split
      · rw [tryArm_crashed, hlive]
        decide
      · rw [hlive]
        decide

theorem Layout.branch_eq_work_iff (tag : ℕ) :
    L.branch tag = some .work ↔ tag = kWorkTag := by
  rw [Layout.branch]
  split_ifs <;> simp_all

theorem Layout.branch_eq_notify_iff (tag : ℕ) :
    L.branch tag = some .notify ↔ tag = kNotifyTag := by
  rw [Layout.branch]
  split_ifs with hwork <;> simp_all [kWorkTag, kNotifyTag]

/-! ## What a branch submits -/

section Branches

variable {r : Request η} {taken : ℕ}

theorem mem_submit
    {r' : Request η}
    (h : r' ∈ ({ s with sq := s.sq ++ [r] }.submit taken).kernel) :
    r' ∈ s.kernel ∨ r' ∈ s.sq ∨ r' = r := by
  obtain h | h := List.mem_append.mp h
  · exact .inl h
  · obtain h | h := List.mem_append.mp (List.mem_of_mem_take h)
    · exact .inr (.inl h)
    · exact .inr (.inr (List.mem_singleton.mp h))

theorem submit_sq
    (hroom : s.sq.length < kRingEntries) (htaken : kRingEntries ≤ taken) :
    ({ s with sq := s.sq ++ [r] }.submit taken).sq = [] := by
  apply List.drop_eq_nil_of_le
  rw [List.length_append, List.length_singleton]
  omega

/-- Without an SQE a read crashes where a re-arm does nothing. -/
theorem arm_agree
    {β : Type} {g : State η → β}
    (hg : ∀ s, g { s with crashed := true } = g s) :
    g (s.arm r taken) = g (s.tryArm r taken) := by
  rw [State.arm, State.tryArm]
  split
  · rfl
  · exact hg s

theorem mem_tryArm {r' : Request η} (h : r' ∈ (s.tryArm r taken).kernel) :
    r' ∈ s.kernel ∨ r' ∈ s.sq ∨ r' = r := by
  rw [State.tryArm] at h
  split at h
  · exact mem_submit h
  · exact .inl h

theorem mem_arm {r' : Request η} (h : r' ∈ (s.arm r taken).kernel) :
    r' ∈ s.kernel ∨ r' ∈ s.sq ∨ r' = r := by
  rw [arm_agree (g := State.kernel) fun _ => rfl] at h
  exact mem_tryArm h

theorem tryArm_sq
    (hroom : s.sq.length < kRingEntries) (htaken : kRingEntries ≤ taken) :
    (s.tryArm r taken).sq = [] := by
  rw [State.tryArm, if_pos hroom]
  exact submit_sq hroom htaken

theorem arm_sq
    (hroom : s.sq.length < kRingEntries) (htaken : kRingEntries ≤ taken) :
    (s.arm r taken).sq = [] := by
  rw [arm_agree (g := State.sq) fun _ => rfl]
  exact tryArm_sq hroom htaken

theorem tryArm_cancelQueue :
    (s.tryArm r taken).cancelQueue = s.cancelQueue := by
  rw [State.tryArm]
  split <;> rfl

theorem arm_cancelQueue : (s.arm r taken).cancelQueue = s.cancelQueue := by
  rw [arm_agree (g := State.cancelQueue) fun _ => rfl]
  exact tryArm_cancelQueue

theorem cancelQueue_execute
    (c : Cqe) (launch rearm : Bool) {b : Branch η} (hb : b ≠ .notify) :
    (s.execute L c launch rearm taken b).cancelQueue = s.cancelQueue := by
  have hlaunch := launchFiber_agree (g := State.cancelQueue)
    (fun _ _ _ => rfl) s c.res launch
  cases b with
  | work =>
      simp only [State.execute]
      split
      · rw [arm_cancelQueue, hlaunch]
      · exact hlaunch
  | notify => exact absurd rfl hb
  | cancel => rfl
  | handler h =>
      simp only [State.execute]
      split
      · exact tryArm_cancelQueue
      · rfl

theorem length_cancelQueue_execute
    (c : Cqe) (launch rearm : Bool) (b : Branch η) :
    (s.execute L c launch rearm taken b).cancelQueue.length ≤
      s.cancelQueue.length := by
  by_cases hb : b = .notify
  · subst hb
    simp only [State.execute]
    rw [arm_cancelQueue, State.flushCancelQueue, flush_eq, List.length_drop]
    exact Nat.sub_le ..
  · rw [cancelQueue_execute c launch rearm hb]

theorem sq_execute
    (hsq : s.sq = []) (htaken : kRingEntries ≤ taken) (c : Cqe)
    (launch rearm : Bool) (b : Branch η)
    (hroom : b = .notify → s.cancelQueue.length < kRingEntries) :
    (s.execute L c launch rearm taken b).sq = [] := by
  have hempty : s.sq.length < kRingEntries := by
    rw [hsq, List.length_nil]
    decide
  cases b with
  | work =>
      simp only [State.execute]
      split
      · exact arm_sq (by rwa [launchFiber_sq]) htaken
      · rw [launchFiber_sq, hsq]
  | notify =>
      refine arm_sq ?_ htaken
      apply (length_flush_lt ..).mpr
      rw [hsq, List.length_nil, Nat.zero_add]
      exact hroom rfl
  | cancel => exact hsq
  | handler h =>
      simp only [State.execute]
      split
      · exact tryArm_sq hempty htaken
      · exact hsq

theorem readNotify_mem_execute
    (hsq : s.sq = []) (c : Cqe) (launch rearm : Bool) {b : Branch η}
    (hb : b ≠ .notify)
    (h : .readNotify ∈ (s.execute L c launch rearm taken b).kernel) :
    .readNotify ∈ s.kernel := by
  have hlaunch := launchFiber_agree (g := State.kernel)
    (fun _ _ _ => rfl) s c.res launch
  cases b with
  | work =>
      simp only [State.execute] at h
      split at h
      · obtain h | h | h := mem_arm h
        · exact hlaunch ▸ h
        · rw [launchFiber_sq, hsq] at h
          cases h
        · cases h
      · exact hlaunch ▸ h
  | notify => exact absurd rfl hb
  | cancel => exact h
  | handler i =>
      simp only [State.execute] at h
      split at h
      · obtain h | h | h := mem_tryArm h
        · exact h
        · rw [hsq] at h
          cases h
        · cases h
      · exact h

end Branches

variable [DecidableEq η]

/-- A step crashes if and only if it is a turn that finds no SQE for a read. -/
theorem effect_crashed_iff
    {e : Event} (hlive : s.crashed = false)
    (haddressed : ∀ c ∈ s.cq, L.branch c.userData ≠ none)
    (he : enabled L s e) : (effect L s e).crashed = true ↔ ¬Fits s e := by
  cases e with
  | turn launch rearm taken =>
      obtain ⟨c, b, hcq, hb, hturn⟩ := exists_turn he haddressed
      rw [effect, hturn]
      refine (execute_crashed_iff (s := s.seen c b) hlive ..).trans ?_
      have hwork : b = .work ↔ c.userData = kWorkTag := by
        rw [← L.branch_eq_work_iff, hb, Option.some.injEq]
      have hnotify : b = .notify ↔ c.userData = kNotifyTag := by
        rw [← L.branch_eq_notify_iff, hb, Option.some.injEq]
      rw [Fits, hcq]
      simp only [List.head?_cons, Option.mem_some, forall_eq', hwork, hnotify,
        State.seen, not_and_or, Classical.not_imp]
  | finish i res =>
      simp only [effect]
      split <;> simp [State.addCqe, hlive, Fits]
  | sent i res =>
      simp only [effect]
      split <;> simp [State.addCqe, hlive, Fits]
  | post i res more =>
      simp only [effect]
      split <;> simp [State.addCqe, hlive, Fits]
  | hit i j =>
      simp only [effect]
      split <;> simp [hlive, Fits]
  | _ => simp [effect, State.addCqe, hlive, Fits]

theorem live_of_fits
    {e : Event} (hlive : s.crashed = false)
    (haddressed : ∀ c ∈ s.cq, L.branch c.userData ≠ none)
    (he : enabled L s e) (hfits : Fits s e) :
    (effect L s e).crashed = false := by
  rw [← Bool.not_eq_true, effect_crashed_iff hlive haddressed he, not_not]
  exact hfits

/-! ## Submits that succeed -/

/-- Every submit hands over all SQEs. -/
def Submits (_ : State η) : Event → Prop
  | .turn _ _ taken => kRingEntries ≤ taken
  | _ => True

/-- A notify CQE is in the ring, or the kernel can post one. -/
def CanNotify (s : State η) : Prop :=
  (∃ c ∈ s.cq, c.userData = kNotifyTag) ∨
    (.readNotify ∈ s.kernel ∧ 0 < s.notifyFd)

/-- What the kernel leaves alone, and that it arms no notify read. -/
structure Answered (s s' : State η) : Prop where
  sq : s'.sq = s.sq
  cancelQueue : s'.cancelQueue = s.cancelQueue
  readNotify : .readNotify ∈ s'.kernel → .readNotify ∈ s.kernel
  notifyFd : s'.notifyFd ≤ s.notifyFd

/-- Every step but a turn is an answer of the kernel or changes no request. -/
theorem answered
    {e : Event} (hturn : ∀ launch rearm taken, e ≠ .turn launch rearm taken) :
    Answered s (effect L s e) := by
  have hset : ∀ {rs : List (Request η)} {i : ℕ} {r : Request η},
      .readNotify ∈ rs.set i r → r ≠ .readNotify → .readNotify ∈ rs := by
    intro rs i r h hr
    exact (List.mem_or_eq_of_mem_set h).resolve_right (Ne.symm hr)
  cases e with
  | turn launch rearm taken => exact absurd rfl (hturn launch rearm taken)
  | ret => exact ⟨rfl, rfl, id, le_rfl⟩
  | readWork i => exact ⟨rfl, rfl, mem_of_mem_eraseIdx, le_rfl⟩
  | readNotify i => exact ⟨rfl, rfl, mem_of_mem_eraseIdx, Nat.sub_le _ _⟩
  | finish i res =>
      simp only [effect]
      split
      · exact ⟨rfl, rfl, mem_of_mem_eraseIdx, le_rfl⟩
      · exact ⟨rfl, rfl, id, le_rfl⟩
  | sent i res =>
      simp only [effect]
      split
      · exact ⟨rfl, rfl, fun h => hset h (by simp), le_rfl⟩
      · exact ⟨rfl, rfl, id, le_rfl⟩
  | post i res more =>
      simp only [effect]
      split
      · refine ⟨rfl, rfl, fun h => ?_, le_rfl⟩
        simp only [State.addCqe] at h
        split at h
        · exact h
        · exact mem_of_mem_eraseIdx h
      · exact ⟨rfl, rfl, id, le_rfl⟩
  | hit i j =>
      simp only [effect]
      split
      · exact ⟨rfl, rfl, fun h => hset (hset h (by simp)) (by simp), le_rfl⟩
      · exact ⟨rfl, rfl, id, le_rfl⟩
  | elsewhere => exact ⟨rfl, rfl, id, le_rfl⟩

/-- If no notify CQE can be dispatched, none ever can. -/
theorem canNotify_of_effect
    {e : Event} (hsq : s.sq = [])
    (haddressed : ∀ c ∈ s.cq, L.branch c.userData ≠ none)
    (he : enabled L s e) (h : CanNotify (effect L s e)) : CanNotify s := by
  obtain ⟨c', hc', hnotify'⟩ | ⟨hread, hpos⟩ := h
  · cases moves_effect haddressed he with
    | dispatch c b _ hcq _ _ =>
        exact .inl ⟨c', hcq ▸ List.mem_cons_of_mem c hc', hnotify'⟩
    | add c _ hnotify hcq _ _ =>
        rw [hcq, List.mem_append, List.mem_singleton] at hc'
        obtain hc' | rfl := hc'
        · exact .inl ⟨c', hc', hnotify'⟩
        · exact .inr (hnotify hnotify')
    | stay hcq _ _ => exact .inl ⟨c', hcq ▸ hc', hnotify'⟩
  · by_cases hturn : ∀ launch rearm taken, e ≠ .turn launch rearm taken
    · have hanswered := answered (L := L) (s := s) hturn
      exact .inr ⟨hanswered.readNotify hread,
        hpos.trans_le hanswered.notifyFd⟩
    · simp only [not_forall, not_not] at hturn
      obtain ⟨launch, rearm, taken, rfl⟩ := hturn
      obtain ⟨c, b, hcq, hb, hturn⟩ := exists_turn he haddressed
      rw [effect, hturn] at hread hpos
      by_cases hnotify : b = .notify
      · refine .inl ⟨c, hcq ▸ List.mem_cons_self, ?_⟩
        exact (L.branch_eq_notify_iff _).mp (hnotify ▸ hb)
      · refine .inr ⟨readNotify_mem_execute (s := s.seen c b) hsq c launch rearm
          hnotify hread, ?_⟩
        rwa [(executes L _ c launch rearm taken b).notifyFd] at hpos

/-- A state in which the reads find their SQEs, now and later. -/
structure Roomy (s : State η) : Prop where
  sq : s.sq = []
  live : s.crashed = false
  room : s.cancelQueue.length < kRingEntries ∨ ¬CanNotify s

omit [DecidableEq η] in
theorem Roomy.fits (h : Roomy s) (e : Event) : Fits s e := by
  cases e with
  | turn launch rearm taken =>
      intro c hc
      refine ⟨fun _ _ => ?_, fun hnotify => ?_⟩
      · rw [h.sq, List.length_nil]
        decide
      · rw [h.sq, List.length_nil, Nat.zero_add]
        refine h.room.resolve_right (not_not.mpr (.inl ⟨c, ?_, hnotify⟩))
        exact List.mem_of_mem_head? hc
  | _ => trivial

theorem Roomy.effect
    {e : Event} (h : Roomy s)
    (haddressed : ∀ c ∈ s.cq, L.branch c.userData ≠ none)
    (he : enabled L s e) (hsubmits : Submits s e) :
    Roomy (effect L s e) := by
  have hlive := live_of_fits h.live haddressed he (h.fits e)
  have hquiet : ¬CanNotify s → ¬CanNotify (DrainLoop.effect L s e) :=
    fun hno hcan => hno (canNotify_of_effect h.sq haddressed he hcan)
  by_cases hturn : ∀ launch rearm taken, e ≠ .turn launch rearm taken
  · have hanswered := answered (L := L) (s := s) hturn
    refine ⟨hanswered.sq.trans h.sq, hlive, ?_⟩
    exact h.room.imp (fun hroom => hanswered.cancelQueue ▸ hroom) hquiet
  · simp only [not_forall, not_not] at hturn
    obtain ⟨launch, rearm, taken, rfl⟩ := hturn
    obtain ⟨c, b, hcq, hb, hturn⟩ := exists_turn he haddressed
    refine ⟨?_, hlive, h.room.imp (fun hroom => ?_) hquiet⟩
    · rw [DrainLoop.effect, hturn]
      refine sq_execute (s := s.seen c b) h.sq hsubmits c launch rearm b ?_
      rintro rfl
      refine h.room.resolve_right (not_not.mpr (.inl ⟨c, ?_, ?_⟩))
      · exact hcq ▸ List.mem_cons_self
      · exact (L.branch_eq_notify_iff _).mp hb
    · rw [DrainLoop.effect, hturn]
      exact (length_cancelQueue_execute (s := s.seen c b) ..).trans_lt hroom

/-! ## Runs -/

variable {start : State η}

theorem sound_of_reachable
    (hbegin : Begins L start) (h : (machine L start).Reachable s) :
    Sound L s := by
  refine Machine.Reachable.invariant ?_ ?_ h
  · rintro s rfl
    exact ⟨hbegin.addressed, fun h => absurd (hbegin.returned ▸ h) (by decide)⟩
  · intro s e _ hsound he
    exact hsound.effect he.1 he.2.2

theorem accounted_of_reachable
    [Fintype η] (hbegin : Begins L start)
    (h : (machine L start).Reachable s) : Accounted L start s := by
  refine Machine.Reachable.invariant ?_ ?_ h
  · rintro s rfl
    refine ⟨?_, ⟨[], ?_⟩, ?_, ?_⟩
    · rw [hbegin.dispatched, hbegin.arrived]
      rfl
    · rw [hbegin.arrived, List.append_nil]
    · rw [hbegin.dispatched]
      nofun
    · rw [hbegin.dispatched, List.length_nil, Nat.zero_add]
  · intro s e hs haccounted he
    exact haccounted.effect (sound_of_reachable hbegin hs).addressed he.2.2

/-- Every step of a call lowers the rank. -/
theorem rank_effect_lt
    [Fintype η] {e : Event} (hsound : Sound L s) (hlive : s.returned = false)
    (he : enabled L s e) : (effect L s e).rank < s.rank := by
  have hlower := measure_effect (weighs_weight L) hsound.addressed he
  simp only [State.rank, hlive]
  by_cases hret : e = .ret
  · subst hret
    exact Nat.lt_succ_self _
  · have hone : e.lowers 1 = 1 := by
      cases e with
      | ret => exact absurd rfl hret
      | _ => rfl
    rw [returned_effect hsound.addressed he hret, hlive]
    omega

theorem terminates [Fintype η] (hbegin : Begins L start) :
    (machine L start).Terminates :=
  Machine.terminates_of_measure State.rank fun _ _ hs he =>
    rank_effect_lt (sound_of_reachable hbegin hs) he.1 he.2.2

/-- The call has returned with an empty ring, and every CQE was dispatched. -/
def Ends (s : State η) : Prop :=
  s.returned = true ∧ s.cq = [] ∧ s.dispatched.map Prod.fst = s.arrived

/-- The loop stops only at its end or in a crash. -/
theorem ends_or_crashed
    [Fintype η] (hbegin : Begins L start)
    (hs : (machine L start).Reachable s)
    (hquiescent : (machine L start).Quiescent s) :
    Ends s ∨ s.crashed = true := by
  by_contra hno
  simp only [not_or, Bool.not_eq_true] at hno
  obtain ⟨hends, hlive⟩ := hno
  by_cases hreturned : s.returned = true
  · have hcq := (sound_of_reachable hbegin hs).returned hreturned
    have horder := (accounted_of_reachable hbegin hs).order
    rw [hcq, List.append_nil] at horder
    exact hends ⟨hreturned, hcq, horder⟩
  · rw [Bool.not_eq_true] at hreturned
    by_cases hcq : s.cq = []
    · exact hquiescent .ret ⟨hreturned, hlive, hcq⟩
    · exact hquiescent (.turn true true 0) ⟨hreturned, hlive, hcq⟩

/-- With the reads served, no run crashes. -/
theorem roomy_of_submits
    (hbegin : Begins L start) (hsq : start.sq = [])
    (hroom : start.cancelQueue.length < kRingEntries ∨ ¬CanNotify start)
    (h : (machine L start).ReachableUnder Submits s) : Roomy s := by
  refine Machine.ReachableUnder.invariant ?_ ?_ h
  · rintro s rfl
    exact ⟨hsq, hbegin.crashed, hroom⟩
  · intro s e hs hroomy he hsubmits
    exact hroomy.effect (sound_of_reachable hbegin hs.reachable).addressed
      he.2.2 hsubmits

/-! ### A call that crashes -/

/-- The cancels that are queued leave no SQE for the notify read. -/
structure Overfull (s : State η) : Prop where
  sq : s.sq = []
  live : s.crashed = false
  returned : s.returned = false
  queue : kRingEntries ≤ s.cancelQueue.length

theorem Overfull.turn
    {c : Cqe} {cq : List Cqe} (h : Overfull s) (hsound : Sound L s)
    (hcq : s.cq = c :: cq) (hc : c.userData ≠ kNotifyTag) :
    Overfull (effect L s (.turn true true kRingEntries)) := by
  have hne : s.cq ≠ [] := by simp [hcq]
  have hfits : Fits s (.turn true true kRingEntries) := by
    intro c' hc'
    rw [hcq, List.head?_cons, Option.mem_some] at hc'
    subst hc'
    refine ⟨fun _ _ => ?_, fun hnotify => absurd hnotify hc⟩
    rw [h.sq, List.length_nil]
    decide
  have hlive := live_of_fits (e := .turn true true kRingEntries) h.live
    hsound.addressed hne hfits
  have hreturned := returned_effect (e := .turn true true kRingEntries)
    hsound.addressed hne (by simp)
  obtain ⟨c', b, hcq', hb, hturn⟩ := exists_turn hne hsound.addressed
  obtain rfl : c' = c := (List.cons.inj (hcq'.symm.trans hcq)).1
  have hnotify : b ≠ .notify := by
    rintro rfl
    exact hc ((L.branch_eq_notify_iff _).mp hb)
  refine ⟨?_, hlive, hreturned.trans h.returned, ?_⟩
  · rw [effect, hturn]
    exact sq_execute (s := s.seen c' b) h.sq le_rfl c' true true b
      (fun h => absurd h hnotify)
  · rw [effect, hturn, cancelQueue_execute c' true true hnotify]
    exact h.queue

/-- The loop comes to the first notify CQE, and crashes there. -/
theorem Overfull.exists_crash
    (hbegin : Begins L start) {before after : List Cqe} {c : Cqe}
    (h : Overfull s) (hs : (machine L start).ReachableUnder Submits s)
    (hcq : s.cq = before ++ c :: after) (hc : c.userData = kNotifyTag)
    (hbefore : ∀ c' ∈ before, c'.userData ≠ kNotifyTag) :
    ∃ s', (machine L start).ReachableUnder Submits s' ∧ s'.crashed = true ∧
      s'.returned = false := by
  have hsound := sound_of_reachable hbegin hs.reachable
  have he : (machine L start).enabled s (.turn true true kRingEntries) :=
    ⟨h.returned, h.live, by simp [enabled, hcq]⟩
  have hnext : (machine L start).ReachableUnder Submits
      (effect L s (.turn true true kRingEntries)) := hs.step he le_rfl
  induction before generalizing s with
  | nil =>
      refine ⟨_, hnext, ?_, ?_⟩
      · rw [effect_crashed_iff h.live hsound.addressed he.2.2]
        intro hfits
        have hroom := (hfits c (by rw [hcq]; rfl)).2 hc
        have hqueue := h.queue
        omega
      · exact (returned_effect hsound.addressed he.2.2 (by simp)).trans
          h.returned
  | cons c₀ before ih =>
      have hc₀ := hbefore c₀ List.mem_cons_self
      have hoverfull := h.turn hsound hcq hc₀
      have htail : (effect L s (.turn true true kRingEntries)).cq =
          before ++ c :: after := by
        obtain ⟨c', b, hcq', -, hturn⟩ := exists_turn he.2.2 hsound.addressed
        rw [effect, hturn, (executes L _ c' true true kRingEntries b).cq]
        exact congrArg List.tail hcq
      have he' : (machine L start).enabled
          (effect L s (.turn true true kRingEntries))
          (.turn true true kRingEntries) :=
        ⟨hoverfull.returned, hoverfull.live, by simp [enabled, htail]⟩
      exact ih hoverfull hnext htail
        (fun c' hc' => hbefore c' (List.mem_cons_of_mem c₀ hc'))
        (sound_of_reachable hbegin hnext.reachable) he' (hnext.step he' le_rfl)

theorem Overfull.exists_crash_of_mem
    (hbegin : Begins L start) (h : Overfull s)
    (hs : (machine L start).ReachableUnder Submits s)
    (hmem : ∃ c ∈ s.cq, c.userData = kNotifyTag) :
    ∃ s', (machine L start).ReachableUnder Submits s' ∧ s'.crashed = true ∧
      s'.returned = false := by
  obtain ⟨c', hc', hnotify'⟩ := hmem
  cases hfind : s.cq.find? (fun c => decide (c.userData = kNotifyTag)) with
  | none =>
      exact absurd hnotify' (by simpa using List.find?_eq_none.mp hfind c' hc')
  | some c =>
      obtain ⟨hc, before, after, hcq, hbefore⟩ :=
        List.find?_eq_some_iff_append.mp hfind
      exact h.exists_crash hbegin hs hcq (by simpa using hc)
        (fun c' hc' => by simpa using hbefore c' hc')

/-- A notify CQE that can be dispatched finds the queue too long. -/
theorem exists_crash_of_canNotify
    (hbegin : Begins L start) (hsq : start.sq = [])
    (hqueue : kRingEntries ≤ start.cancelQueue.length)
    (hnotify : CanNotify start) :
    ∃ s, (machine L start).ReachableUnder Submits s ∧ s.crashed = true ∧
      s.returned = false := by
  have hoverfull : Overfull start :=
    ⟨hsq, hbegin.crashed, hbegin.returned, hqueue⟩
  obtain hmem | ⟨hread, hpos⟩ := hnotify
  · exact hoverfull.exists_crash_of_mem hbegin (.init rfl) hmem
  · obtain ⟨i, hi⟩ := List.mem_iff_getElem?.mp hread
    refine Overfull.exists_crash_of_mem (s := effect L start (.readNotify i))
      hbegin ⟨hsq, hbegin.crashed, hbegin.returned, hqueue⟩ ?_ ?_
    · exact Machine.ReachableUnder.step (e := Event.readNotify i) (.init rfl)
        ⟨hbegin.returned, hbegin.crashed, hi, hpos⟩ trivial
    · exact ⟨⟨kNotifyTag, 8, false⟩,
        List.mem_append_right _ List.mem_cons_self, rfl⟩

/-! ## The theorem on the loop -/

/-- A call of `drain_cqes` takes finitely many steps, also of the kernel.  The
CQEs that are in the ring or are added are dispatched in order, each once and to
the branch of its tag, and no more than the outstanding input allows.  The call
ends with an empty ring unless a turn finds no SQE for an eventfd read.  When it
begins with an empty submission queue and submits succeed, it ends so in all
runs if and only if fewer than `k_ring_entries` cancels are queued or no notify
CQE can be dispatched. -/
theorem drain_cqes_ends_iff
    [Fintype η] (L : Layout η) (start : State η) (hbegin : Begins L start) :
    (machine L start).Terminates ∧
      (∀ s, (machine L start).Reachable s →
        Accounted L start s ∧
          ((machine L start).Quiescent s → Ends s ∨ s.crashed = true) ∧
          ∀ e, (machine L start).enabled s e →
            ((effect L s e).crashed = true ↔ ¬Fits s e)) ∧
      (start.sq = [] →
        ((∀ s, (machine L start).ReachableUnder Submits s →
            (machine L start).Quiescent s → Ends s) ↔
          start.cancelQueue.length < kRingEntries ∨ ¬CanNotify start)) := by
  refine ⟨terminates hbegin, fun s hs => ⟨accounted_of_reachable hbegin hs,
    ends_or_crashed hbegin hs, fun e he => ?_⟩, fun hsq => ⟨?_, ?_⟩⟩
  · exact effect_crashed_iff he.2.1 (sound_of_reachable hbegin hs).addressed
      he.2.2
  · intro hends
    by_contra hno
    simp only [not_or, not_lt, not_not] at hno
    obtain ⟨s, hs, hcrashed, hreturned⟩ :=
      exists_crash_of_canNotify hbegin hsq hno.1 hno.2
    have hstuck : (machine L start).Quiescent s :=
      fun e he => absurd (hcrashed.symm.trans he.2.1) (by decide)
    exact absurd (hreturned.symm.trans (hends s hs hstuck).1) (by decide)
  · intro hroom s hs hquiescent
    have hlive := (roomy_of_submits hbegin hsq hroom hs).live
    refine (ends_or_crashed hbegin hs.reachable hquiescent).resolve_right ?_
    rw [hlive]
    decide

/-- Handlers side by side. -/
def Layout.row (n : ℕ) (kind : Fin n → Kind) : Layout (Fin n) where
  kind := kind
  addr := fun i => kCancelTag + 1 + i
  handlerAt := fun a =>
    if h : kCancelTag < a ∧ a - (kCancelTag + 1) < n then
      some ⟨a - (kCancelTag + 1), h.2⟩
    else none
  tag_lt_addr := fun i => by omega
  handlerAt_addr := by
    intro i
    have hi := i.isLt
    rw [dif_pos ⟨by omega, by omega⟩]
    simp

/-- A worker with one acceptor: its request is consumed and has two events to
come, a task and a cancel are queued, and both reads can be answered. -/
def busy : State (Fin 1) where
  sq := []
  kernel := [.readNotify, .timeout]
  cq := [⟨kWorkTag, 8, false⟩, ⟨kCancelTag + 1, 9, false⟩]
  cancelQueue := [kCancelTag + 1]
  workFd := 1
  notifyFd := 1
  workQueue := 2
  remaining := fun _ => 2
  returned := false
  crashed := false
  launched := 0
  arrived := [⟨kWorkTag, 8, false⟩, ⟨kCancelTag + 1, 9, false⟩]
  dispatched := []

theorem drain_cqes_ends_when_busy :
    Begins (.row 1 fun _ => .acceptor) busy ∧ busy.budget = 9 ∧
      ∀ s, (machine (.row 1 fun _ => .acceptor) busy).ReachableUnder Submits s →
        (machine (.row 1 fun _ => .acceptor) busy).Quiescent s → Ends s := by
  have hbegin : Begins (.row 1 fun _ => .acceptor) busy :=
    ⟨rfl, rfl, rfl, rfl, by decide⟩
  refine ⟨hbegin, rfl, ?_⟩
  exact ((drain_cqes_ends_iff _ busy hbegin).2.2 rfl).mpr (.inl (by decide))

/-- `k_ring_entries` fibers wait for one request each, and a stop has queued a
cancel for every one of them.  The notify CQE is in the ring. -/
def flooded : State (Fin kRingEntries) where
  sq := []
  kernel := .readWork :: List.ofFn .oneShot
  cq := [⟨kNotifyTag, 8, false⟩]
  cancelQueue := List.ofFn (Layout.row kRingEntries fun _ => .promise).addr
  workFd := 0
  notifyFd := kRingEntries - 1
  workQueue := 0
  remaining := fun _ => 0
  returned := false
  crashed := false
  launched := 0
  arrived := [⟨kNotifyTag, 8, false⟩]
  dispatched := []

/-- The flush takes every SQE, and `arm_notify` writes through a null
pointer. -/
theorem drain_cqes_crashes_when_flooded :
    Begins (.row kRingEntries fun _ => .promise) flooded ∧ flooded.sq = [] ∧
      ∃ s, (machine (.row kRingEntries fun _ => .promise)
          flooded).ReachableUnder Submits s ∧
        (machine (.row kRingEntries fun _ => .promise) flooded).Quiescent s ∧
        s.crashed = true ∧ ¬Ends s := by
  have hbegin : Begins (.row kRingEntries fun _ => .promise) flooded := by
    refine ⟨rfl, rfl, rfl, rfl, ?_⟩
    intro c hc
    rw [List.mem_singleton.mp hc]
    exact Option.some_ne_none Branch.notify
  obtain ⟨s, hs, hcrashed, hreturned⟩ := exists_crash_of_canNotify hbegin rfl
    (by rw [flooded, List.length_ofFn])
    (.inl ⟨_, List.mem_cons_self, rfl⟩)
  refine ⟨hbegin, rfl, s, hs, ?_, hcrashed, ?_⟩
  · exact fun e he => absurd (hcrashed.symm.trans he.2.1) (by decide)
  · exact fun hends => absurd (hreturned.symm.trans hends.1) (by decide)

end Fiberexec.Ring.DrainLoop
