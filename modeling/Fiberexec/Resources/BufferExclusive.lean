import Fiberexec.Resources.BufferPool
import Fiberexec.Resources.Stock
import Mathlib.Data.List.Range

/-!
# Who may use a buffer

Every index of a pool is free or owned by one `fixed_buffer`.  A call of
`async_send_zc` stays suspended until the last CQE of its request, and the
`fixed_buffer` it was given owns the index all the while; so a buffer that the
kernel may still read is not free, and nobody else has it.
-/

namespace Fiberexec.Resources.BufferPool

open Support
open Fiberexec.Ring (Signal Handler Track Stage notification)

/-! ## Where the indices are -/

/-- Where the indices of a pool are. -/
structure Ledger (bufCount : ℕ) (s : State) : Prop where
  stock : Stock (List.range (roundedCount bufCount)) [] s.freeList s.buffers
  idle : s.freeList.closed = true → s.waiting = 0
  returned : s.unreturned = false

namespace Ledger

variable {bufCount : ℕ} {s : State}

theorem length_owned_of_items_eq_nil
    (h : Ledger bufCount s) (hitems : s.freeList.items = []) :
    s.buffers.owned.length = roundedCount bufCount := by
  have hlength := h.stock.length_add
  rw [hitems, List.length_range] at hlength
  simpa using hlength

theorem giveBack
    (h : Ledger bufCount s) {d : FixedBuffer} {buffers : Handles ℕ}
    (howned : (buffers.owned ++ d.owned?.toList).Perm s.buffers.owned) :
    Ledger bufCount { s.giveBack d with buffers := buffers } := by
  cases howner : d.owner with
  | false =>
      have hnone : d.owned? = none := by simp [Handle.owned?, howner]
      rw [hnone, Option.toList_none, List.append_nil] at howned
      simp only [State.giveBack, howner, Bool.false_eq_true, if_false]
      exact ⟨h.stock.of_perm howned, h.idle, h.returned⟩
  | true =>
      have hsome : d.owned? = some d.key := by simp [Handle.owned?, howner]
      have hmem : d.key ∈ s.buffers.owned :=
        howned.mem_iff.mp (by simp [hsome])
      rw [State.giveBack, if_pos howner, State.returnBuffer]
      simp only [h.stock.push_of_owned hmem]
      exact ⟨h.stock.giveBack howned hsome, h.idle, h.returned⟩

end Ledger

/-- The pool when a `borrow` has taken the first free index. -/
def State.taken (s : State) (idx : ℕ) (items : List ℕ) (waiting : ℕ) : State :=
  { s with
    freeList := { s.freeList with items := items }
    buffers := s.buffers.take idx
    waiting := waiting }

theorem Ledger.taken
    {bufCount : ℕ} {s : State} (h : Ledger bufCount s)
    (hopen : s.freeList.closed = false) {idx : ℕ} {items : List ℕ}
    (hitems : s.freeList.items = idx :: items) (waiting : ℕ) :
    Ledger bufCount (s.taken idx items waiting) := by
  refine ⟨h.stock.take hopen hitems, ?_, h.returned⟩
  simp [State.taken, hopen]

/-- How a call of `borrow` can go. -/
theorem borrow_cases (s : State) :
    (s.freeList.closed = true ∧ ∃ e, s.borrow = (s, .throws e)) ∨
      s.freeList.closed = false ∧
        ((s.freeList.items = [] ∧
          s.borrow = ({ s with waiting := s.waiting + 1 }, .suspended)) ∨
        ∃ idx items, s.freeList.items = idx :: items ∧
          s.borrow = (s.taken idx items s.waiting, .borrowed idx)) := by
  cases hclosed : s.freeList.closed with
  | true => exact .inl ⟨rfl, by simp [State.borrow, hclosed]⟩
  | false =>
      refine .inr ⟨rfl, ?_⟩
      rw [State.borrow, if_neg (by simp [hclosed])]
      cases hitems : s.freeList.items with
      | nil => exact .inl ⟨rfl, by simp [Channel.pop, hitems, hclosed]⟩
      | cons idx items =>
          exact .inr ⟨idx, items, rfl, by
            simp [Channel.pop, hitems, State.taken]⟩

/-- How a suspended `borrow` goes on while the pool is open. -/
theorem resume_cases {s : State} (hopen : s.freeList.closed = false) :
    (s.freeList.items = [] ∧ s.resume = (s, .suspended)) ∨
      ∃ idx items, s.freeList.items = idx :: items ∧
        s.resume = (s.taken idx items (s.waiting - 1), .borrowed idx) := by
  rw [State.resume]
  cases hitems : s.freeList.items with
  | nil => exact .inl ⟨rfl, by simp [Channel.pop, hitems, hopen]⟩
  | cons idx items =>
      exact .inr ⟨idx, items, rfl, by
        simp [Channel.pop, hitems, State.taken]⟩

/-- Nobody waits at a closed pool. -/
theorem Ledger.open_of_resume
    {bufCount : ℕ} {s : State} (h : Ledger bufCount s)
    (hwaiting : 0 < s.waiting) : s.freeList.closed = false := by
  rw [← Bool.not_eq_true]
  intro hclosed
  have hzero := h.idle hclosed
  omega

theorem Ledger.of_calls
    {bufCount : ℕ} {s : State} (h : Ledger bufCount s) (calls : List Call) :
    Ledger bufCount { s with calls := calls } :=
  ⟨h.stock, h.idle, h.returned⟩

theorem sendZc_eq
    (s : State) (i : ℕ) (d : FixedBuffer) (gotSqe : Bool) (submitted : ℤ) :
    ∃ calls, (s.sendZc i d gotSqe submitted).1 = { s with calls := calls } := by
  simp only [State.sendZc]
  split_ifs
  · exact ⟨s.calls, rfl⟩
  · exact ⟨_, rfl⟩
  · exact ⟨_, rfl⟩

theorem ledger_effect
    {bufCount : ℕ} {s : State} {e : Event} (h : Ledger bufCount s)
    (he : enabled s e) : Ledger bufCount (effect s e) := by
  cases e with
  | borrow =>
      simp only [effect]
      rcases borrow_cases s with
        ⟨-, e, heq⟩ | ⟨hopen, ⟨-, heq⟩ | ⟨idx, items, hitems, heq⟩⟩
      · rw [heq]
        exact h
      · rw [heq]
        exact ⟨h.stock, by simp [hopen], h.returned⟩
      · rw [heq]
        exact h.taken hopen hitems s.waiting
  | resume =>
      simp only [effect]
      have hopen := h.open_of_resume he
      rcases resume_cases hopen with ⟨-, heq⟩ | ⟨idx, items, hitems, heq⟩
      · rw [heq]
        exact h
      · rw [heq]
        exact h.taken hopen hitems _
  | moveConstruct src d =>
      have howned := Handles.owned_moveConstruct he
      exact ⟨h.stock.of_perm howned, h.idle, h.returned⟩
  | moveAssign dst src d d' =>
      simp only [effect]
      split_ifs with heq
      · exact h
      · exact h.giveBack (Handles.owned_moveAssign he.1 he.2 heq)
  | destroy i d => exact h.giveBack (Handles.owned_destroy he)
  | sendZc i d gotSqe submitted =>
      obtain ⟨calls, heq⟩ := sendZc_eq s i d gotSqe submitted
      rw [effect, heq]
      exact h.of_calls calls
  | close => exact ⟨h.stock.close he.2.1, fun _ => he.2.2, h.returned⟩
  | submit => exact h.of_calls _
  | answer k c res => exact h.of_calls _
  | answerMore k c res => exact h.of_calls _
  | notify k c => exact h.of_calls _
  | dispatch k c sig cqes => exact h.of_calls _
  | finish k c => exact h.of_calls _

/-! ## Accepted pools -/

theorem roundedCount_eq (bufCount : ℕ) :
    roundedCount bufCount = bitCeil (max bufCount 2) := by
  rw [roundedCount]
  rcases le_total bufCount 2 with hle | hge
  · have hceil : bitCeil bufCount ≤ 2 := bitCeil_le_pow (k := 1) hle
    rw [max_eq_right hceil, max_eq_right hle]
    rfl
  · rw [max_eq_left hge, max_eq_left (hge.trans (le_bitCeil bufCount))]

/-- The count that the kernel accepts is not cut off: only larger powers of two
are multiples of `2 ^ 32`. -/
theorem roundedCount_le_of_registered
    {bufCount : ℕ} {r : ℤ}
    (h : ¬registerBuffers (roundedCount bufCount % 2 ^ 32) r < 0) :
    roundedCount bufCount ≤ maxRegistered := by
  rw [registerBuffers] at h
  split_ifs at h with hrefused
  · simp at h
  · rw [not_or, not_lt] at hrefused
    obtain ⟨hne, hle⟩ := hrefused
    have hlt : roundedCount bufCount < 2 ^ 32 := by
      rw [roundedCount_eq] at hne ⊢
      exact bitCeil_lt_of_mod_ne_zero hne
    rwa [Nat.mod_eq_of_lt hlt] at hle

/-- A construction that does not suspend, and leaves a pool with every index
free once if it leaves one. -/
def Construction.Proper (bufCount : ℕ) : Construction → Prop
  | .throws _ => True
  | .suspends => False
  | .constructed s =>
      s.freeList.items = List.range (roundedCount bufCount) ∧
        Ledger bufCount s ∧ s.calls = []

/-- Every check of the constructor throws or goes on to the next one. -/
theorem construct_proper
    (storageAllocated ringAllocated iovecsAllocated onWorker : Bool)
    (bufSize bufCount : ℕ) (registered : ℤ) :
    (construct storageAllocated ringAllocated iovecsAllocated onWorker bufSize
      bufCount registered).Proper bufCount := by
  unfold construct
  refine iteInduction (fun _ => trivial) fun _ => ?_
  refine iteInduction (fun _ => trivial) fun _ => ?_
  cases hchannel :
      (Channel.construct (roundedCount bufCount) : Option (Channel ℕ)) with
  | none => trivial
  | some freeList =>
      refine iteInduction (fun _ => trivial) fun _ => ?_
      refine iteInduction (fun _ => trivial) fun _ => ?_
      refine iteInduction (fun _ => trivial) fun _ => ?_
      refine iteInduction (fun _ => trivial) fun _ => ?_
      refine iteInduction (fun _ => trivial) fun _ => ?_
      refine iteInduction (fun _ => trivial) fun hregistered => ?_
      have hcount := roundedCount_le_of_registered hregistered
      rw [maxRegistered] at hcount
      obtain ⟨hle, -, hitems, hopen⟩ :=
        Channel.le_usable_of_construct hchannel (by omega)
      have hfill := Channel.pushAll_of_le
        (List.range (roundedCount bufCount % 2 ^ 16)) hopen
        (by rw [hitems, List.length_range, List.length_nil]; omega)
      rw [hitems, List.nil_append, Nat.mod_eq_of_lt (by omega)] at hfill
      rw [Nat.mod_eq_of_lt (by omega), hfill]
      refine ⟨rfl, ⟨?_, ?_, rfl⟩, rfl⟩
      · refine Stock.initial rfl ?_
        rw [List.length_range]
        exact hle
      · simp [hopen]

/-- A constructor throws or leaves a pool with all indices free; its pushes
find room. -/
theorem construct_cases
    (storageAllocated ringAllocated iovecsAllocated onWorker : Bool)
    (bufSize bufCount : ℕ) (registered : ℤ) :
    (∃ e, construct storageAllocated ringAllocated iovecsAllocated onWorker
        bufSize bufCount registered = .throws e) ∨
      ∃ s, construct storageAllocated ringAllocated iovecsAllocated onWorker
          bufSize bufCount registered = .constructed s ∧
        s.freeList.items = List.range (roundedCount bufCount) ∧
        Ledger bufCount s ∧ s.calls = [] := by
  have h := construct_proper storageAllocated ringAllocated iovecsAllocated
    onWorker bufSize bufCount registered
  generalize construct storageAllocated ringAllocated iovecsAllocated onWorker
    bufSize bufCount registered = r at h ⊢
  cases r with
  | throws e => exact .inl ⟨e, rfl⟩
  | suspends => exact h.elim
  | constructed s => exact .inr ⟨s, rfl, h⟩

/-! ## The sends -/

/-- No call of `async_send_zc` that is going on was given the `fixed_buffer` at
this address. -/
def State.Unused (s : State) (i : ℕ) : Prop :=
  ∀ c ∈ s.calls, c.left = false → c.buf ≠ i

instance (s : State) (i : ℕ) : Decidable (s.Unused i) :=
  inferInstanceAs (Decidable (∀ c ∈ s.calls, c.left = false → c.buf ≠ i))

/-- What `async_send_zc` relies on: the `fixed_buffer` it was given is neither
moved nor overwritten nor destroyed during the call, and submissions
succeed. -/
def Undisturbed (s : State) : Event → Prop
  | .moveConstruct src _ => s.Unused src
  | .moveAssign dst src _ _ => dst = src ∨ s.Unused dst ∧ s.Unused src
  | .destroy i _ => s.Unused i
  | .sendZc _ _ _ submitted => 0 ≤ submitted
  | _ => True

instance (s : State) (e : Event) : Decidable (Undisturbed s e) :=
  match e with
  | .moveConstruct src _ => inferInstanceAs (Decidable (s.Unused src))
  | .moveAssign dst src _ _ =>
      inferInstanceAs (Decidable (dst = src ∨ s.Unused dst ∧ s.Unused src))
  | .destroy i _ => inferInstanceAs (Decidable (s.Unused i))
  | .sendZc _ _ _ submitted => inferInstanceAs (Decidable (0 ≤ submitted))
  | .borrow | .resume | .submit | .answer _ _ _ | .answerMore _ _ _
  | .notify _ _ | .dispatch _ _ _ _ | .finish _ _ | .close => .isTrue trivial

/-- The request of a call has been submitted, and its last CQE has not been
dispatched. -/
def Call.Outstanding (c : Call) : Prop :=
  c.track.kernel ≠ [] ∨ c.track.cqes ≠ []

/-- A call whose request has run as the kernel's contract says: while it goes
on, the `fixed_buffer` it was given owns the buffer; when it has been left,
nothing of the request remains. -/
structure Call.Sound (s : State) (c : Call) : Prop where
  stage : ∃ r, Stage true c.track c.handler r
  held : c.left = false →
    s.buffers[c.buf]? = some (some ⟨true, c.bufIndex⟩)
  settled : c.left = true → c.track = .none

theorem Call.Sound.left_of_outstanding
    {s : State} {c : Call} (h : c.Sound s) (hout : c.Outstanding) :
    c.left = false := by
  rw [← Bool.not_eq_true]
  intro hleft
  rcases hout with hkernel | hcqes
  · exact hkernel (by rw [h.settled hleft]; rfl)
  · exact hcqes (by rw [h.settled hleft]; rfl)

/-- All calls are sound. -/
def State.Sends (s : State) : Prop :=
  ∀ c ∈ s.calls, c.Sound s

theorem State.Sends.of_frame
    {s s' : State} (h : s.Sends) (hcalls : s'.calls = s.calls)
    (hframe : ∀ c ∈ s.calls, c.left = false → ∀ d,
      s.buffers[c.buf]? = some (some d) →
        s'.buffers[c.buf]? = some (some d)) : s'.Sends := by
  intro c hc
  rw [hcalls] at hc
  have hsound := h c hc
  refine ⟨hsound.stage, ?_, hsound.settled⟩
  intro hleft
  exact hframe c hc hleft _ (hsound.held hleft)

theorem State.Sends.setCall
    {s : State} (h : s.Sends) (k : ℕ) {c : Call} (hc : c.Sound s) :
    (s.setCall k c).Sends := by
  intro c' hc'
  rcases List.mem_or_eq_of_mem_set hc' with hmem | rfl
  · exact ⟨(h c' hmem).stage, (h c' hmem).held, (h c' hmem).settled⟩
  · exact ⟨hc.stage, hc.held, hc.settled⟩

theorem State.Sends.advance
    {s : State} (h : s.Sends) {k : ℕ} {c : Call} (hk : s.calls[k]? = some c)
    (hout : c.Outstanding) {t : Track} {handler : Handler}
    (hstage : ∀ r, Stage true c.track c.handler r →
      ∃ r', Stage true t handler r') :
    (s.setCall k { c with track := t, handler := handler }).Sends := by
  have hsound := h c (List.mem_of_getElem? hk)
  obtain ⟨r, hr⟩ := hsound.stage
  have hleft := hsound.left_of_outstanding hout
  exact h.setCall k ⟨hstage r hr, hsound.held, by simp [hleft]⟩

theorem State.Sends.submit {s : State} (h : s.Sends) : s.submit.Sends := by
  intro c hc
  obtain ⟨c', hc', rfl⟩ := List.mem_map.mp hc
  have hsound := h c' hc'
  obtain ⟨r, hstage⟩ := hsound.stage
  refine ⟨⟨r, hstage.submit⟩, hsound.held, ?_⟩
  intro hleft
  have hnone := hsound.settled hleft
  simp only at hnone ⊢
  rw [hnone]
  rfl

@[simp] theorem giveBack_calls (s : State) (d : FixedBuffer) :
    (s.giveBack d).calls = s.calls := by
  simp only [State.giveBack, State.returnBuffer]
  split_ifs
  · split <;> rfl
  · rfl

theorem sends_taken
    {s : State} (h : s.Sends) (idx : ℕ) (items : List ℕ) (waiting : ℕ) :
    (s.taken idx items waiting).Sends := by
  refine h.of_frame rfl ?_
  intro c _ _ d hd
  exact Handles.getElem?_take hd idx

theorem sends_effect
    {bufCount : ℕ} {s : State} {e : Event} (hledger : Ledger bufCount s)
    (h : s.Sends) (he : enabled s e) (hg : Undisturbed s e) :
    (effect s e).Sends := by
  cases e with
  | borrow =>
      simp only [effect]
      rcases borrow_cases s with
        ⟨-, e, heq⟩ | ⟨-, ⟨-, heq⟩ | ⟨idx, items, -, heq⟩⟩
      · rw [heq]
        exact h
      · rw [heq]
        exact h.of_frame rfl (fun _ _ _ _ hd => hd)
      · rw [heq]
        exact sends_taken h idx items _
  | resume =>
      simp only [effect]
      rcases resume_cases (hledger.open_of_resume he) with
        ⟨-, heq⟩ | ⟨idx, items, -, heq⟩
      · rw [heq]
        exact h
      · rw [heq]
        exact sends_taken h idx items _
  | moveConstruct src d =>
      refine h.of_frame rfl ?_
      intro c hc hleft d' hd'
      exact Handles.getElem?_moveConstruct hd' (hg c hc hleft).symm d
  | moveAssign dst src d d' =>
      simp only [effect]
      split_ifs with heq
      · exact h
      · obtain ⟨hdst, hsrc⟩ := hg.resolve_left heq
        refine h.of_frame (giveBack_calls s d) ?_
        intro c hc hleft b hb
        exact Handles.getElem?_moveAssign hb (hdst c hc hleft).symm
          (hsrc c hc hleft).symm d'
  | destroy i d =>
      refine h.of_frame (giveBack_calls s d) ?_
      intro c hc hleft b hb
      exact Handles.getElem?_destroy hb (hg c hc hleft).symm
  | sendZc i d gotSqe submitted =>
      simp only [effect, State.sendZc]
      split_ifs with hsqe hfail
      · exact h
      · exact absurd hfail (not_lt.mpr hg)
      · refine State.Sends.submit ?_
        intro c hc
        rcases List.mem_append.mp hc with hold | hnew
        · exact ⟨(h c hold).stage, (h c hold).held, (h c hold).settled⟩
        · obtain rfl := List.mem_singleton.mp hnew
          refine ⟨⟨none, .queued⟩, ?_, by simp⟩
          intro _
          obtain ⟨hi, howner⟩ := he
          rw [hi, ← howner]
  | submit => exact h.submit
  | answer k c res =>
      obtain ⟨hk, hkernel⟩ := he
      refine h.advance hk (.inl (by simp [hkernel])) ?_
      exact fun r hstage => ⟨some res, hstage.answer hkernel res⟩
  | answerMore k c res =>
      obtain ⟨hk, hkernel⟩ := he
      refine h.advance hk (.inl (by simp [hkernel])) ?_
      exact fun r hstage => ⟨some res, hstage.answerMore hkernel rfl res⟩
  | notify k c =>
      obtain ⟨hk, hkernel⟩ := he
      refine h.advance hk (.inl (by simp [hkernel])) ?_
      exact fun r hstage => ⟨r, hstage.notify hkernel⟩
  | dispatch k c sig cqes =>
      obtain ⟨hk, hcqes⟩ := he
      refine h.advance hk (.inr (by simp [hcqes])) ?_
      exact fun r hstage => ⟨r, hstage.dispatch hcqes⟩
  | finish k c =>
      obtain ⟨hk, -, hfulfilled⟩ := he
      have hsound := h c (List.mem_of_getElem? hk)
      obtain ⟨r, hstage⟩ := hsound.stage
      refine h.setCall k ⟨⟨r, hstage⟩, by simp, ?_⟩
      -- a fulfilled promise means that the last CQE has been dispatched
      intro _
      exact (hstage.of_fulfilled hfulfilled).1
  | close => exact h.of_frame rfl (fun _ _ _ _ hd => hd)

theorem of_init
    {bufSize bufCount : ℕ} {s : State}
    (h : (machine bufSize bufCount).init s) :
    Ledger bufCount s ∧ s.calls = [] := by
  obtain ⟨storageAllocated, ringAllocated, iovecsAllocated, onWorker,
    registered, hs⟩ := h
  rcases construct_cases storageAllocated ringAllocated iovecsAllocated
    onWorker bufSize bufCount registered with
    ⟨e, he⟩ | ⟨s', hs', -, hledger, hcalls⟩
  · cases hs.symm.trans he
  · obtain rfl := Construction.constructed.inj (hs.symm.trans hs')
    exact ⟨hledger, hcalls⟩

theorem ledger_of_reachable
    {bufSize bufCount : ℕ} {s : State}
    (h : (machine bufSize bufCount).Reachable s) : Ledger bufCount s :=
  Machine.Reachable.invariant (fun _ hs => (of_init hs).1)
    (fun _ _ _ hledger he => ledger_effect hledger he) h

theorem sends_of_undisturbed
    {bufSize bufCount : ℕ} {s : State}
    (h : (machine bufSize bufCount).ReachableUnder Undisturbed s) :
    s.Sends := by
  refine Machine.ReachableUnder.invariant ?_ ?_ h
  · intro s hs c hc
    simp [(of_init hs).2] at hc
  · intro s e hprev hsends he hg
    exact sends_effect (ledger_of_reachable hprev.reachable) hsends he hg

/-! ## The theorem on exclusive use -/

theorem items_of_suspended
    {s : State} {e : Event} (he : e = .borrow ∨ e = .resume)
    (hsuspended : outcome s e = some .suspended) : s.freeList.items = [] := by
  by_contra hne
  obtain ⟨idx, items, hitems⟩ := List.exists_cons_of_ne_nil hne
  rcases he with rfl | rfl
  · have hout := Option.some.inj hsuspended
    rcases borrow_cases s with ⟨-, e, heq⟩ | ⟨-, ⟨hnone, -⟩ | ⟨k, rest, -, heq⟩⟩
    · simp [heq] at hout
    · exact hne hnone
    · simp [heq] at hout
  · simp [outcome, State.resume, Channel.pop, hitems] at hsuspended

/-- For all sizes, a constructor never suspends, and a pool that it leaves has
every index of `buf_count_` free once.  In every run of such a pool every index
is once free or has one owner, giving one back succeeds at once while the pool
is open, and `borrow` suspends only when `buf_count_` indices are owned.  A
buffer whose send has been submitted, and whose last CQE has not been
dispatched, is not free, and is owned by the `fixed_buffer` that
`async_send_zc` was given and by no other. -/
theorem fixed_buffers_exclusive
    (bufSize bufCount : ℕ) :
    (∀ storageAllocated ringAllocated iovecsAllocated onWorker registered,
      construct storageAllocated ringAllocated iovecsAllocated onWorker bufSize
          bufCount registered ≠ .suspends ∧
        ∀ s, construct storageAllocated ringAllocated iovecsAllocated onWorker
            bufSize bufCount registered = .constructed s →
          s.freeList.items = List.range (max (bitCeil bufCount) 2)) ∧
      ∀ s, (machine bufSize bufCount).ReachableUnder Undisturbed s →
        (∀ idx, idx < max (bitCeil bufCount) 2 ↔
          s.freeList.items.count idx = 1 ∧ idx ∉ s.buffers.owned ∨
            s.freeList.items.count idx = 0 ∧
              ∃! i : ℕ, s.buffers[i]? = some (some ⟨true, idx⟩)) ∧
        (s.freeList.closed = false → ∀ idx ∈ s.buffers.owned,
          (s.freeList.push idx).map Prod.fst = some .success) ∧
        s.unreturned = false ∧
        (∀ e, e = .borrow ∨ e = .resume → enabled s e →
          outcome s e = some .suspended →
            s.buffers.owned.length = max (bitCeil bufCount) 2) ∧
        ∀ c ∈ s.calls, c.Outstanding →
          c.bufIndex ∉ s.freeList.items ∧
            ∀ i : ℕ, s.buffers[i]? = some (some ⟨true, c.bufIndex⟩) ↔
              i = c.buf := by
  refine ⟨fun storage ring iovecs onWorker registered => ?_, fun s h => ?_⟩
  · rcases construct_cases storage ring iovecs onWorker bufSize bufCount
      registered with ⟨e, he⟩ | ⟨s, hs, hitems, -⟩
    · simp [he]
    · simp only [hs, ne_eq, reduceCtorEq, not_false_eq_true, true_and]
      intro s' hs'
      exact Construction.constructed.inj hs' ▸ hitems
  · have hledger := ledger_of_reachable h.reachable
    obtain ⟨-, howned, hdisjoint⟩ := hledger.stock.nodup List.nodup_range
    refine ⟨fun idx => ?_, fun _ idx hidx => ?_, hledger.returned, ?_, ?_⟩
    · rw [← hledger.stock.mem_all_iff List.nodup_range, List.mem_range,
        roundedCount]
    · rw [hledger.stock.push_of_owned hidx]
      rfl
    · intro e he _ hsuspended
      exact hledger.length_owned_of_items_eq_nil
        (items_of_suspended he hsuspended)
    · intro c hc hout
      have hsound := sends_of_undisturbed h c hc
      have hheld := hsound.held (hsound.left_of_outstanding hout)
      have hmem : c.bufIndex ∈ s.buffers.owned :=
        Handles.mem_owned_iff.mpr ⟨c.buf, hheld⟩
      refine ⟨fun hidx => (hdisjoint _ hidx).1 hmem, fun i => ⟨?_, ?_⟩⟩
      · intro hi
        exact Handles.owner_unique howned hi hheld
      · rintro rfl
        exact hheld

/-- A pool of four buffers.  The first is being sent; its first CQE has been
dispatched and the notification is outstanding.  The second has gone back. -/
theorem fixed_buffer_kept_while_sending :
    ∃ s c, (machine 8 3).ReachableUnder Undisturbed s ∧ s.calls = [c] ∧
      c.Outstanding ∧ c.bufIndex = 0 ∧ s.freeList.items = [2, 3, 1] ∧
      0 ∉ s.freeList.items ∧
      ∀ i : ℕ, s.buffers[i]? = some (some ⟨true, 0⟩) ↔ i = 0 := by
  obtain ⟨s, hs, hcalls, hitems⟩ :=
    Machine.exists_reachableUnder_of_exec
      (M := machine 8 3) (G := Undisturbed)
      (P := fun s : State =>
        s.calls = [⟨0, 0, ⟨[], [.notification], []⟩, .sendZc 0 8, false⟩] ∧
          s.freeList.items = [2, 3, 1])
      ⟨true, true, true, true, 0, rfl⟩
      [.borrow, .borrow, .sendZc 0 ⟨true, 0⟩ true 1,
        .answerMore 0 ⟨0, 0, ⟨[], [.answer], []⟩, .fresh true, false⟩ 8,
        .dispatch 0 ⟨0, 0, ⟨[], [.notification], [⟨8, true, false⟩]⟩,
          .fresh true, false⟩ ⟨8, true, false⟩ [],
        .destroy 1 ⟨true, 1⟩]
      (by decide)
  have hexclusive := ((fixed_buffers_exclusive 8 3).2 s hs).2.2.2.2
  have hout : Call.Outstanding
      ⟨0, 0, ⟨[], [.notification], []⟩, .sendZc 0 8, false⟩ := .inl (by simp)
  obtain ⟨hfree, howner⟩ := hexclusive _ (by simp [hcalls]) hout
  exact ⟨s, _, hs, hcalls, hout, rfl, hitems, hfree, howner⟩

end Fiberexec.Resources.BufferPool
