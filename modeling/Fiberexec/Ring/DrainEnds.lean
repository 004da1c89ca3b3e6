import Fiberexec.Ring.DrainLoop
import Fiberexec.Support.Lists

/-!
# The loop of `drain_cqes` ends

The ring does not get shorter with every turn, since the body submits.  What
gets smaller is the number of CQEs that can still come: those in the ring, one
for each unit of an eventfd and each event of a multishot request, and those
that the requests owe.  A queued cancel owes two, its own and that of a
multishot request it may end.  To arm a read or a multishot request adds nothing
to this.

So the loop ends unless it crashes, which it does when it finds no SQE for a
read.
-/

namespace Fiberexec.Ring.DrainLoop

open Support

variable {η : Type} {L : Layout η} {s : State η}

/-! ## Tags -/

theorem Layout.branch_addr (L : Layout η) (h : η) :
    L.branch (L.addr h) = some (.handler h) := by
  have hlt := L.tag_lt_addr h
  simp only [kCancelTag] at hlt
  rw [Layout.branch, if_neg (by simp only [kWorkTag]; omega),
    if_neg (by simp only [kNotifyTag]; omega),
    if_neg (by simp only [kCancelTag]; omega), L.handlerAt_addr]
  rfl

/-- The last CQE of a request has the tag of a cancel or the address of a
handler. -/
theorem Layout.lastTag_cases
    {r : Request η} {tag : ℕ} (h : L.lastTag r = some tag) :
    kCancelTag = tag ∨ ∃ i, L.addr i = tag := by
  cases r with
  | readWork => cases h
  | readNotify => cases h
  | timeout => exact .inl (Option.some.inj h)
  | cancel target => exact .inl (Option.some.inj h)
  | cancelled => exact .inl (Option.some.inj h)
  | oneShot i => exact .inr ⟨i, Option.some.inj h⟩
  | sendZc i => exact .inr ⟨i, Option.some.inj h⟩
  | zcNotif i => exact .inr ⟨i, Option.some.inj h⟩
  | multishot i ending =>
      cases ending with
      | false => cases h
      | true => exact .inr ⟨i, Option.some.inj h⟩

theorem Layout.branch_lastTag
    {r : Request η} {tag : ℕ} (h : L.lastTag r = some tag) :
    L.branch tag = some .cancel ∨ ∃ i, L.branch tag = some (.handler i) := by
  obtain rfl | ⟨i, rfl⟩ := L.lastTag_cases h
  · exact .inl rfl
  · exact .inr ⟨i, L.branch_addr i⟩

/-! ## What is outstanding -/

/-- All requests, with the cancels that are still queued. -/
def State.requests (s : State η) : List (Request η) :=
  s.cancelQueue.map .cancel ++ (s.sq ++ s.kernel)

/-- A request that waits for units or events, and owes nothing itself. -/
def Request.isArmed : Request η → Prop
  | .readWork | .readNotify | .multishot _ false => True
  | _ => False

theorem requests_flushCancelQueue (s : State η) :
    s.flushCancelQueue.requests.Perm s.requests := by
  have h := (flush_perm kRingEntries Request.cancel s.cancelQueue s.sq).append_right
    s.kernel
  simp only [List.append_assoc] at h
  exact h

theorem requests_submit (s : State η) (taken : ℕ) :
    (s.submit taken).requests.Perm s.requests := by
  refine List.Perm.append_left _ ?_
  change (s.sq.drop taken ++ (s.kernel ++ s.sq.take taken)).Perm _
  have hsplit : (s.sq.drop taken ++ s.sq.take taken).Perm s.sq :=
    List.perm_append_comm.trans (.of_eq (List.take_append_drop taken s.sq))
  refine List.Perm.trans ?_ (hsplit.append_right s.kernel)
  rw [List.append_assoc]
  exact List.perm_append_comm.append_left _

/-- What a turn leaves: the same requests and some that were armed. -/
structure Executes (s s' : State η) : Prop where
  requests : ∃ armed : List (Request η),
    s'.requests.Perm (s.requests ++ armed) ∧ ∀ r ∈ armed, r.isArmed
  cq : s'.cq = s.cq
  workFd : s'.workFd = s.workFd
  notifyFd : s'.notifyFd = s.notifyFd
  remaining : s'.remaining = s.remaining
  returned : s'.returned = s.returned
  arrived : s'.arrived = s.arrived
  dispatched : s'.dispatched = s.dispatched

namespace Executes

theorem refl (s : State η) : Executes s s :=
  ⟨⟨[], by rw [List.append_nil], nofun⟩, rfl, rfl, rfl, rfl, rfl, rfl, rfl⟩

theorem trans
    {s₁ s₂ s₃ : State η} (h : Executes s₁ s₂) (h' : Executes s₂ s₃) :
    Executes s₁ s₃ := by
  obtain ⟨armed, hperm, hall⟩ := h.requests
  obtain ⟨armed', hperm', hall'⟩ := h'.requests
  refine ⟨⟨armed ++ armed', ?_, ?_⟩, h'.cq.trans h.cq,
    h'.workFd.trans h.workFd, h'.notifyFd.trans h.notifyFd,
    h'.remaining.trans h.remaining, h'.returned.trans h.returned,
    h'.arrived.trans h.arrived, h'.dispatched.trans h.dispatched⟩
  · rw [← List.append_assoc]
    exact hperm'.trans (hperm.append_right armed')
  · intro r hr
    exact (List.mem_append.mp hr).elim (hall r) (hall' r)

theorem submitted
    (s : State η) {r : Request η} (hr : r.isArmed) (taken : ℕ) :
    Executes s ({ s with sq := s.sq ++ [r] }.submit taken) := by
  refine ⟨⟨[r], ?_, ?_⟩, rfl, rfl, rfl, rfl, rfl, rfl, rfl⟩
  · refine (requests_submit _ taken).trans ?_
    simp only [State.requests, List.append_assoc]
    refine List.Perm.append_left _ (List.Perm.append_left _ ?_)
    exact List.perm_append_comm
  · intro r' hr'
    exact List.mem_singleton.mp hr' ▸ hr

theorem arm (s : State η) {r : Request η} (hr : r.isArmed) (taken : ℕ) :
    Executes s (s.arm r taken) := by
  rw [State.arm]
  split
  · exact submitted s hr taken
  · exact ⟨(refl s).requests, rfl, rfl, rfl, rfl, rfl, rfl, rfl⟩

theorem tryArm (s : State η) {r : Request η} (hr : r.isArmed) (taken : ℕ) :
    Executes s (s.tryArm r taken) := by
  rw [State.tryArm]
  split
  · exact submitted s hr taken
  · exact refl s

theorem launchFiber (s : State η) (res : ℤ) (launch : Bool) :
    Executes s (s.launchFiber res launch) := by
  rw [State.launchFiber]
  split
  · exact ⟨(refl s).requests, rfl, rfl, rfl, rfl, rfl, rfl, rfl⟩
  · exact refl s

theorem flushCancelQueue (s : State η) : Executes s s.flushCancelQueue := by
  refine ⟨⟨[], ?_, nofun⟩, rfl, rfl, rfl, rfl, rfl, rfl, rfl⟩
  rw [List.append_nil]
  exact requests_flushCancelQueue s

end Executes

/-- Whatever the branch, the body of the loop only rearranges requests and arms
some. -/
theorem executes
    (L : Layout η) (s : State η) (c : Cqe) (launch rearm : Bool) (taken : ℕ)
    (b : Branch η) : Executes s (s.execute L c launch rearm taken b) := by
  cases b with
  | work =>
      simp only [State.execute]
      split
      · exact (Executes.launchFiber s c.res launch).trans
          (.arm _ (r := .readWork) trivial taken)
      · exact .launchFiber s c.res launch
  | notify =>
      exact (Executes.flushCancelQueue s).trans
        (.arm _ (r := .readNotify) trivial taken)
  | cancel => exact .refl s
  | handler h =>
      simp only [State.execute]
      split
      · exact .tryArm s (r := .multishot h false) trivial taken
      · exact .refl s

/-- A turn takes the first CQE off the ring and executes the branch of its
tag. -/
theorem exists_turn
    (hne : s.cq ≠ []) (haddressed : ∀ c ∈ s.cq, L.branch c.userData ≠ none) :
    ∃ c b, s.cq = c :: s.cq.tail ∧ L.branch c.userData = some b ∧
      ∀ launch rearm taken, turn L s launch rearm taken =
        (s.seen c b).execute L c launch rearm taken b := by
  obtain ⟨c, cq, hcq⟩ := List.exists_cons_of_ne_nil hne
  obtain ⟨b, hb⟩ := Option.ne_none_iff_exists'.mp
    (haddressed c (hcq ▸ List.mem_cons_self))
  refine ⟨c, b, by rw [hcq, List.tail_cons], hb, fun launch rearm taken => ?_⟩
  simp only [turn, hcq, hb]

/-! ## A measure -/

section Measure

variable {u gap : ℕ} {f : Request η → ℕ}

/-- What these requests weigh together. -/
def total (f : Request η → ℕ) (rs : List (Request η)) : ℕ :=
  (rs.map f).sum

theorem total_append (f : Request η → ℕ) (rs rs' : List (Request η)) :
    total f (rs ++ rs') = total f rs + total f rs' := by
  simp [total]

theorem total_perm {rs rs' : List (Request η)} (h : rs.Perm rs') :
    total f rs = total f rs' :=
  (h.map f).sum_nat

theorem total_armed
    {rs : List (Request η)} (hf : ∀ r : Request η, r.isArmed → f r = 0)
    (h : ∀ r ∈ rs, r.isArmed) : total f rs = 0 := by
  rw [total, List.sum_eq_zero_iff_forall_eq_nat]
  intro n hn
  obtain ⟨r, hr, rfl⟩ := List.mem_map.mp hn
  exact hf r (h r hr)

theorem total_eraseIdx
    {rs : List (Request η)} {i : ℕ} {r : Request η} (h : rs[i]? = some r) :
    total f (rs.eraseIdx i) + f r = total f rs := by
  obtain ⟨hlt, rfl⟩ := List.getElem?_eq_some_iff.mp h
  rw [← total_perm (List.getElem_cons_eraseIdx_perm hlt), Nat.add_comm]
  rfl

theorem total_set
    {rs : List (Request η)} {i : ℕ} {r : Request η} (h : rs[i]? = some r)
    (r' : Request η) :
    total f (rs.set i r') + f r = total f rs + f r' := by
  have hperm := filterMap_set_perm h some r'
  simp only [List.filterMap_some, Option.toList_some] at hperm
  have htotal := total_perm (f := f) hperm
  rwa [total_append, total_append] at htotal

variable [Fintype η]

/-- The units and events that can still be answered. -/
def State.units (s : State η) : ℕ :=
  s.workFd + s.notifyFd + ∑ h, s.remaining h

/-- CQEs in the ring count once, units and events `u` times, and requests what
they weigh. -/
def State.measure (u : ℕ) (f : Request η → ℕ) (s : State η) : ℕ :=
  u * s.units + total f s.requests + s.cq.length

/-- What a measure needs for every step of the kernel to lower it by `gap`. -/
structure Weighs (L : Layout η) (u : ℕ) (f : Request η → ℕ) (gap : ℕ) :
    Prop where
  armed : ∀ r : Request η, r.isArmed → f r = 0
  unit : gap + 1 ≤ u
  last : ∀ r tag, L.lastTag r = some tag → gap + 1 ≤ f r
  sent : ∀ h, f (.zcNotif h) + gap + 1 ≤ f (.sendZc h)
  hit : ∀ target h,
    f .cancelled + f (.multishot h true) + gap ≤ f (.cancel target)

/-- By how much a step lowers a measure. -/
def Event.lowers (gap : ℕ) : Event → ℕ
  | .turn _ _ _ => 1
  | .ret => 0
  | _ => gap

theorem Executes.measure
    {s' : State η} (h : Executes s s')
    (hf : ∀ r : Request η, r.isArmed → f r = 0) :
    s'.measure u f = s.measure u f := by
  obtain ⟨armed, hperm, hall⟩ := h.requests
  have htotal := total_perm (f := f) hperm
  rw [total_append, total_armed hf hall, Nat.add_zero] at htotal
  rw [State.measure, State.measure, State.units, h.workFd, h.notifyFd,
    h.remaining, h.cq, htotal]
  rfl

theorem measure_addCqe (s : State η) (c : Cqe) :
    (s.addCqe c).measure u f = s.measure u f + 1 := by
  change u * s.units + total f s.requests + (s.cq ++ [c]).length = _
  rw [List.length_append]
  rfl

theorem measure_of_kernel
    (s s' : State η) {k a b : ℕ} (hqueue : s'.cancelQueue = s.cancelQueue)
    (hsq : s'.sq = s.sq) (hcq : s'.cq = s.cq) (hunits : s'.units + k = s.units)
    (hkernel : total f s'.kernel + a = total f s.kernel + b) :
    s'.measure u f + (u * k + a) = s.measure u f + b := by
  have hmul : u * s.units = u * s'.units + u * k := by
    rw [← hunits, Nat.mul_add]
  simp only [State.measure, State.requests, total_append, hqueue, hsq, hcq,
    hmul]
  omega

/-- An event of a multishot request uses up one of those that remain. -/
theorem sum_remaining [DecidableEq η] {h : η} (hpos : 0 < s.remaining h) :
    ∑ h', Function.update s.remaining h (s.remaining h - 1) h' + 1 =
      ∑ h', s.remaining h' := by
  have hagree : ∀ x, x ≠ h →
      Function.update s.remaining h (s.remaining h - 1) x = s.remaining x :=
    fun x hx => Function.update_of_ne hx ..
  have htotal := total_add_of_agree_off (g := fun n : ℕ => n) h hagree
  rw [Function.update_self] at htotal
  omega

theorem measure_turn
    (hf : ∀ r : Request η, r.isArmed → f r = 0) (hne : s.cq ≠ [])
    (haddressed : ∀ c ∈ s.cq, L.branch c.userData ≠ none)
    (launch rearm : Bool) (taken : ℕ) :
    (turn L s launch rearm taken).measure u f + 1 = s.measure u f := by
  obtain ⟨c, b, hcq, -, hturn⟩ := exists_turn hne haddressed
  rw [hturn, (executes L _ c launch rearm taken b).measure hf, State.measure,
    State.measure, hcq, List.length_cons, ← Nat.add_assoc]
  rfl

/-- Every step lowers a measure. -/
theorem measure_effect
    [DecidableEq η] {e : Event} (hw : Weighs L u f gap)
    (haddressed : ∀ c ∈ s.cq, L.branch c.userData ≠ none)
    (he : enabled L s e) :
    (effect L s e).measure u f + e.lowers gap ≤ s.measure u f := by
  have hunit := hw.unit
  cases e with
  | turn launch rearm taken =>
      exact (measure_turn hw.armed he haddressed launch rearm taken).le
  | ret => exact le_rfl
  | readWork i =>
      obtain ⟨hread, hpos⟩ := he
      have h := measure_of_kernel (u := u) (k := 1) (b := 0) s
        { s with kernel := s.kernel.eraseIdx i, workFd := s.workFd - 1 }
        rfl rfl rfl (by simp only [State.units]; omega)
        (total_eraseIdx (f := f) hread)
      simp only [effect, measure_addCqe, Event.lowers]
      omega
  | readNotify i =>
      obtain ⟨hread, hpos⟩ := he
      have h := measure_of_kernel (u := u) (k := 1) (b := 0) s
        { s with kernel := s.kernel.eraseIdx i, notifyFd := s.notifyFd - 1 }
        rfl rfl rfl (by simp only [State.units]; omega)
        (total_eraseIdx (f := f) hread)
      simp only [effect, measure_addCqe, Event.lowers]
      omega
  | finish i res =>
      obtain ⟨r, tag, hr, htag⟩ := he
      have hlast := hw.last r tag htag
      have h := measure_of_kernel (u := u) (k := 0) (b := 0) s
        { s with kernel := s.kernel.eraseIdx i } rfl rfl rfl rfl
        (total_eraseIdx (f := f) hr)
      simp only [effect, hr, Option.bind_some, htag, measure_addCqe,
        Event.lowers]
      omega
  | sent i res =>
      obtain ⟨j, hr⟩ := he
      have hsent := hw.sent j
      have h := measure_of_kernel (u := u) (k := 0) s
        { s with kernel := s.kernel.set i (.zcNotif j) } rfl rfl rfl rfl
        (total_set (f := f) hr _)
      simp only [effect, hr, measure_addCqe, Event.lowers]
      omega
  | post i res more =>
      obtain ⟨j, hr, hpos⟩ := he
      have hsum := sum_remaining hpos
      have hkernel : total f
          (if more = true then s.kernel else s.kernel.eraseIdx i) + 0 =
            total f s.kernel + 0 := by
        have hzero := hw.armed (.multishot j false) trivial
        have herase := total_eraseIdx (f := f) hr
        split <;> omega
      have h := measure_of_kernel (u := u) (k := 1) s
        { s with
          kernel := if more = true then s.kernel else s.kernel.eraseIdx i
          remaining := Function.update s.remaining j (s.remaining j - 1) }
        rfl rfl rfl (by simp only [State.units]; omega) hkernel
      simp only [effect, hr, measure_addCqe, Event.lowers]
      omega
  | hit i j =>
      obtain ⟨m, hcancel, hr⟩ := he
      have hhit := hw.hit (L.addr m) m
      have hzero := hw.armed (.multishot m false) trivial
      have hne : i ≠ j := by
        rintro rfl
        exact absurd (hcancel.symm.trans hr) (by simp)
      have hcancelled := total_set (f := f) hcancel .cancelled
      have hending := total_set (f := f)
        ((List.getElem?_set_ne hne).trans hr : (s.kernel.set i .cancelled)[j]? = _)
        (.multishot m true)
      have h := measure_of_kernel (u := u) (k := 0) (f := f) s
        { s with
          kernel := (s.kernel.set i .cancelled).set j (.multishot m true) }
        (a := f (.cancel (L.addr m)) + f (.multishot m false))
        (b := f .cancelled + f (.multishot m true))
        rfl rfl rfl rfl (by dsimp only; omega)
      simp only [effect, hr, Event.lowers]
      omega
  | elsewhere =>
      have hpos : 0 < s.workFd := he
      have h := measure_of_kernel (u := u) (k := 1) (a := 0) (b := 0) (f := f) s
        (effect L s .elsewhere) rfl rfl rfl
        (by simp only [State.units, effect]; omega) rfl
      simp only [Event.lowers]
      omega

/-! ### The bound and the rank -/

/-- The CQEs that a request owes by itself. -/
def Request.cqes : Request η → ℕ
  | .readWork | .readNotify | .multishot _ false => 0
  | .timeout | .cancelled | .oneShot _ | .zcNotif _ | .multishot _ true => 1
  | .sendZc _ | .cancel _ => 2

/-- The number of CQEs that can still be dispatched. -/
def State.budget (s : State η) : ℕ :=
  s.measure 1 Request.cqes

/-- A CQE that is owed counts twice, so that to post it lowers the rank.  A
cancel counts once more, for the step in which it finds its request. -/
def Request.weight : Request η → ℕ
  | .cancel _ => 5
  | r => 2 * r.cqes

/-- What every step lowers. -/
def State.rank (s : State η) : ℕ :=
  s.measure 2 Request.weight + if s.returned = true then 0 else 1

omit [Fintype η] in
theorem weighs_cqes (L : Layout η) : Weighs L 1 Request.cqes 0 where
  armed := by
    intro r hr
    cases r with
    | multishot h ending => cases ending <;> first | rfl | exact hr.elim
    | _ => first | rfl | exact hr.elim
  unit := le_rfl
  last := by
    intro r tag htag
    cases r with
    | multishot h ending => cases ending <;> simp_all [Layout.lastTag, Request.cqes]
    | _ => simp_all [Layout.lastTag, Request.cqes]
  sent := fun h => le_rfl
  hit := fun target h => le_rfl

omit [Fintype η] in
theorem weighs_weight (L : Layout η) : Weighs L 2 Request.weight 1 where
  armed := by
    intro r hr
    have hzero := (weighs_cqes L).armed r hr
    cases r with
    | cancel target => exact hr.elim
    | _ => simp only [Request.weight, hzero]
  unit := le_rfl
  last := by
    intro r tag htag
    have hone := (weighs_cqes L).last r tag htag
    cases r with
    | cancel target => exact Nat.le_of_ble_eq_true rfl
    | _ => simp only [Request.weight]; omega
  sent := fun h => Nat.le_of_ble_eq_true rfl
  hit := fun target h => Nat.le_of_ble_eq_true rfl

end Measure

/-! ## What a step does to the ring -/

/-- A CQE is dispatched, or added to the ring, or neither. -/
inductive Moves (L : Layout η) (s s' : State η) : Prop
  | dispatch (c : Cqe) (b : Branch η) (hbranch : L.branch c.userData = some b)
      (hcq : s.cq = c :: s'.cq) (harrived : s'.arrived = s.arrived)
      (hdispatched : s'.dispatched = s.dispatched ++ [(c, b)])
  | add (c : Cqe) (hbranch : L.branch c.userData ≠ none)
      (hnotify : c.userData = kNotifyTag →
        .readNotify ∈ s.kernel ∧ 0 < s.notifyFd)
      (hcq : s'.cq = s.cq ++ [c]) (harrived : s'.arrived = s.arrived ++ [c])
      (hdispatched : s'.dispatched = s.dispatched)
  | stay (hcq : s'.cq = s.cq) (harrived : s'.arrived = s.arrived)
      (hdispatched : s'.dispatched = s.dispatched)

theorem Layout.addr_ne_notify (L : Layout η) (h : η) :
    L.addr h ≠ kNotifyTag := by
  have hlt := L.tag_lt_addr h
  simp only [kCancelTag] at hlt
  simp only [kNotifyTag]
  omega

variable [DecidableEq η]

theorem moves_effect
    {e : Event} (haddressed : ∀ c ∈ s.cq, L.branch c.userData ≠ none)
    (he : enabled L s e) : Moves L s (effect L s e) := by
  cases e with
  | turn launch rearm taken =>
      obtain ⟨c, b, hcq, hb, hturn⟩ := exists_turn he haddressed
      have h := executes L (s.seen c b) c launch rearm taken b
      rw [effect, hturn]
      exact .dispatch c b hb (hcq.trans (congrArg _ h.cq.symm)) h.arrived
        h.dispatched
  | ret => exact .stay rfl rfl rfl
  | readWork i =>
      exact .add ⟨kWorkTag, 8, false⟩ (Option.some_ne_none Branch.work)
        (fun h => absurd h (by decide)) rfl rfl rfl
  | readNotify i =>
      exact .add ⟨kNotifyTag, 8, false⟩ (Option.some_ne_none Branch.notify)
        (fun _ => ⟨List.mem_of_getElem? he.1, he.2⟩) rfl rfl rfl
  | finish i res =>
      obtain ⟨r, tag, hr, htag⟩ := he
      have hcases := L.lastTag_cases htag
      simp only [effect, hr, Option.bind_some, htag]
      refine .add ⟨tag, res, false⟩ ?_ ?_ rfl rfl rfl
      · obtain hb | ⟨j, hb⟩ := L.branch_lastTag htag
        · exact hb ▸ Option.some_ne_none _
        · exact hb ▸ Option.some_ne_none _
      · intro hnotify
        obtain rfl | ⟨j, rfl⟩ := hcases
        · change kCancelTag = kNotifyTag at hnotify
          exact absurd hnotify (by decide)
        · exact absurd hnotify (L.addr_ne_notify j)
  | sent i res =>
      obtain ⟨j, hr⟩ := he
      simp only [effect, hr]
      refine .add _ ?_ (fun h => absurd h (L.addr_ne_notify j)) rfl rfl rfl
      exact L.branch_addr j ▸ Option.some_ne_none _
  | post i res more =>
      obtain ⟨j, hr, -⟩ := he
      simp only [effect, hr]
      refine .add _ ?_ (fun h => absurd h (L.addr_ne_notify j)) rfl rfl rfl
      exact L.branch_addr j ▸ Option.some_ne_none _
  | hit i j =>
      obtain ⟨m, -, hr⟩ := he
      simp only [effect, hr]
      exact .stay rfl rfl rfl
  | elsewhere => exact .stay rfl rfl rfl

theorem length_dispatched
    {e : Event} (haddressed : ∀ c ∈ s.cq, L.branch c.userData ≠ none)
    (he : enabled L s e) :
    (effect L s e).dispatched.length = s.dispatched.length + e.lowers 0 := by
  cases e with
  | turn launch rearm taken =>
      obtain ⟨c, b, -, -, hturn⟩ := exists_turn he haddressed
      rw [effect, hturn, (executes L _ c launch rearm taken b).dispatched]
      exact List.length_append
  | finish i res => simp only [effect]; split <;> rfl
  | sent i res => simp only [effect]; split <;> rfl
  | post i res more => simp only [effect]; split <;> rfl
  | hit i j => simp only [effect]; split <;> rfl
  | _ => rfl

theorem returned_effect
    {e : Event} (haddressed : ∀ c ∈ s.cq, L.branch c.userData ≠ none)
    (he : enabled L s e) (hret : e ≠ .ret) :
    (effect L s e).returned = s.returned := by
  cases e with
  | turn launch rearm taken =>
      obtain ⟨c, b, -, -, hturn⟩ := exists_turn he haddressed
      rw [effect, hturn]
      exact (executes L _ c launch rearm taken b).returned
  | ret => exact absurd rfl hret
  | finish i res => simp only [effect]; split <;> rfl
  | sent i res => simp only [effect]; split <;> rfl
  | post i res more => simp only [effect]; split <;> rfl
  | hit i j => simp only [effect]; split <;> rfl
  | _ => rfl

/-! ## Every CQE once, in order -/

/-- The CQEs that were in the ring when the call began, and those that were
added, are dispatched in ring order, each to the branch of its tag, and no more
of them than `start` allows. -/
structure Accounted [Fintype η] (L : Layout η) (start s : State η) : Prop where
  order : s.dispatched.map Prod.fst ++ s.cq = s.arrived
  arrived : ∃ added, s.arrived = start.cq ++ added
  routed : ∀ p ∈ s.dispatched, L.branch p.1.userData = some p.2
  bounded : s.dispatched.length + s.budget ≤ start.budget

/-- What is needed besides: tags that have a branch, and an empty ring once the
loop has ended. -/
structure Sound (L : Layout η) (s : State η) : Prop where
  addressed : ∀ c ∈ s.cq, L.branch c.userData ≠ none
  returned : s.returned = true → s.cq = []

theorem Sound.effect
    {e : Event} (h : Sound L s) (hlive : s.returned = false)
    (he : enabled L s e) : Sound L (effect L s e) := by
  refine ⟨?_, ?_⟩
  · cases moves_effect h.addressed he with
    | dispatch c b hbranch hcq _ _ =>
        intro c' hc'
        exact h.addressed c' (hcq ▸ List.mem_cons_of_mem c hc')
    | add c hbranch _ hcq _ _ =>
        intro c' hc'
        rw [hcq, List.mem_append, List.mem_singleton] at hc'
        obtain hc' | rfl := hc'
        · exact h.addressed c' hc'
        · exact hbranch
    | stay hcq _ _ => exact hcq ▸ h.addressed
  · intro hreturned
    by_cases hret : e = .ret
    · subst hret
      exact he
    · rw [returned_effect h.addressed he hret, hlive] at hreturned
      cases hreturned

theorem Accounted.effect
    [Fintype η] {start : State η} {e : Event} (h : Accounted L start s)
    (haddressed : ∀ c ∈ s.cq, L.branch c.userData ≠ none)
    (he : enabled L s e) : Accounted L start (effect L s e) := by
  have hbounded : (DrainLoop.effect L s e).dispatched.length +
      (DrainLoop.effect L s e).budget ≤ start.budget := by
    have hlength := length_dispatched haddressed he
    have hlower := measure_effect (weighs_cqes L) haddressed he
    have hold := h.bounded
    simp only [State.budget] at hold ⊢
    omega
  obtain ⟨added, hadded⟩ := h.arrived
  cases moves_effect haddressed he with
  | dispatch c b hbranch hcq harrived hdispatched =>
      refine ⟨?_, ⟨added, harrived.trans hadded⟩, ?_, hbounded⟩
      · rw [hdispatched, harrived, ← h.order, hcq, List.map_append,
          List.append_assoc]
        rfl
      · rw [hdispatched]
        intro p hp
        rw [List.mem_append, List.mem_singleton] at hp
        obtain hp | rfl := hp
        · exact h.routed p hp
        · exact hbranch
  | add c _ _ hcq harrived hdispatched =>
      refine ⟨?_, ⟨added ++ [c], ?_⟩, ?_, hbounded⟩
      · rw [hdispatched, hcq, harrived, ← h.order, List.append_assoc]
      · rw [harrived, hadded, List.append_assoc]
      · rw [hdispatched]
        exact h.routed
  | stay hcq harrived hdispatched =>
      refine ⟨?_, ⟨added, harrived.trans hadded⟩, ?_, hbounded⟩
      · rw [hdispatched, hcq, harrived]
        exact h.order
      · rw [hdispatched]
        exact h.routed

end Fiberexec.Ring.DrainLoop
