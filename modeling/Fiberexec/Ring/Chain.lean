import Fiberexec.Ring.Bystander
import Fiberexec.Support.Platform

/-!
# Cancelling a linked chain

`submit_linked_and_wait` hands the kernel a chain of SQEs, of which one at a
time is in flight.  Its stop callback asks for the cancellation of every
operation of the chain, in ascending order.  Each of these cancels can miss:
the chain has gone on, or has not got there yet.  Still the chain is over once
all of them have been executed, because they are pushed, flushed and executed
in order and the chain does not go back.

The kernel executes cancels in the order of their submission.  A cancel that
finds the operation in flight ends it and all later ones with `-ECANCELED`; any
other reports `-ENOENT`.
-/

namespace Fiberexec.Ring.Linked

open Support

/-! ## The system -/

/-- A chain: `cancel_targets`, the addresses of its `io_awaitable`s. -/
structure Chain where
  targets : List ℕ
  nodup : targets.Nodup

/-- The number of operations. -/
def Chain.length (chain : Chain) : ℕ :=
  chain.targets.length

/-- A request to cancel, with the callback of the chain that asked for it; it
may be the request of another operation. -/
abbrev Request := ℕ × Option Slot

/-- The chain, the fiber in `wait_all` and the way of a cancel.  `position` is
the operation in flight, and `executed` the cancels executed so far. -/
structure State where
  cb : Slot → Callback
  cancelQueue : List Request
  sq : List (Op (Option Slot))
  kernel : List Request
  executed : List Request
  position : ℕ
  /-- undrained CQEs of the chain -/
  cq : List (ℕ × ℤ)
  /-- the values of the promises -/
  promise : ℕ → Option ℤ
  /-- the results read by `wait_all` -/
  out : List ℤ

/-- The atomic steps. -/
inductive Event
  /-- a stop callback begins to run -/
  | invoke (slot : Slot) (inline : Bool)
  /-- `request_cancel`: push -/
  | pushCancel (slot : Slot) (inline : Bool) (addr : ℕ) (todo : List ℕ)
  /-- `request_cancel`: write `notify_fd_` -/
  | writeCancel (slot : Slot) (inline : Bool) (todo : List ℕ)
  /-- another operation asks for a cancel -/
  | pushOther (addr : ℕ)
  /-- another operation prepares an SQE -/
  | prepareOther
  | flushCancelQueue
  /-- `io_uring_submit` -/
  | submit
  /-- the operation in flight completes; `severs` tells whether that breaks
  the chain -/
  | complete (res : ℤ) (severs : Bool)
  /-- the kernel executes the next cancel -/
  | executeCancel
  /-- `drain_cqes` fulfils a promise of the chain -/
  | drain
  /-- `futs.at(i).get()` returns -/
  | collect
  deriving DecidableEq

/-- When a step may be taken. -/
def enabled (chain : Chain) (s : State) : Event → Prop
  | .invoke slot _ => s.cb slot = .absent
  | .pushCancel slot inline addr todo =>
      s.cb slot = .pushing inline (addr :: todo)
  | .writeCancel slot inline todo => s.cb slot = .writing inline todo
  | .pushOther _ | .flushCancelQueue | .submit => True
  | .prepareOther => s.sq.length < kRingEntries
  | .complete _ _ => s.position < chain.length
  | .executeCancel => s.kernel ≠ []
  | .drain => s.cq ≠ []
  | .collect => (s.promise s.out.length).isSome = true

/-- The operations from the one in flight on complete with `-ECANCELED`. -/
def endChain (chain : Chain) (s : State) : State :=
  { s with
    position := chain.length
    cq := s.cq ++
      (List.range' s.position (chain.length - s.position)).map
        (·, -ecanceled) }

/-- The operation in flight completes and the next one starts. -/
def advance (s : State) (res : ℤ) : State :=
  { s with
    position := s.position + 1
    cq := s.cq ++ [(s.position, res)] }

/-- The operation in flight has this `user_data`. -/
def hits (chain : Chain) (s : State) (addr : ℕ) : Prop :=
  chain.targets[s.position]? = some addr

instance (chain : Chain) (s : State) (addr : ℕ) :
    Decidable (hits chain s addr) :=
  inferInstanceAs (Decidable (chain.targets[s.position]? = some addr))

/-- The kernel looks for a request with this `user_data`. -/
def execute (chain : Chain) (s : State) (addr : ℕ) : State :=
  if hits chain s addr then endChain chain s else s

/-- The kernel takes the next cancel. -/
def State.pop (s : State) (r : Request) (kernel : List Request) : State :=
  { s with
    kernel := kernel
    executed := s.executed ++ [r] }

/-- What a step does. -/
def effect (chain : Chain) (s : State) : Event → State
  | .invoke slot inline =>
      { s with
        cb := Function.update s.cb slot (Callback.run inline chain.targets) }
  | .pushCancel slot inline addr todo =>
      { s with
        cb := Function.update s.cb slot (.writing inline todo)
        cancelQueue := s.cancelQueue ++ [(addr, some slot)] }
  | .writeCancel slot inline todo =>
      { s with cb := Function.update s.cb slot (Callback.run inline todo) }
  | .pushOther addr => { s with cancelQueue := s.cancelQueue ++ [(addr, none)] }
  | .prepareOther => { s with sq := s.sq ++ [.timeout] }
  | .flushCancelQueue =>
      { s with
        cancelQueue := (flushCancelQueue s.cancelQueue s.sq).1
        sq := (flushCancelQueue s.cancelQueue s.sq).2 }
  | .submit =>
      { s with
        sq := []
        kernel := s.kernel ++ s.sq.filterMap Op.aim }
  | .complete res severs =>
      if severs = true then endChain chain (advance s res) else advance s res
  | .executeCancel =>
      match s.kernel with
      | [] => s
      | r :: kernel =>
          execute chain (s.pop r kernel) r.1
  | .drain =>
      match s.cq with
      | [] => s
      | (k, res) :: cq =>
          { s with cq := cq, promise := Function.update s.promise k (some res) }
  | .collect =>
      { s with out := s.out ++ [(s.promise s.out.length).getD 0] }

/-- The chain has been submitted, and no stop was requested yet. -/
def initial : State where
  cb := fun _ => .absent
  cancelQueue := []
  sq := []
  kernel := []
  executed := []
  position := 0
  cq := []
  promise := fun _ => none
  out := []

/-- The chain as a system of atomic steps. -/
def machine (chain : Chain) : Machine State Event where
  init := fun s => s = initial
  enabled := enabled chain
  effect := effect chain

instance (chain : Chain) (s : State) (e : Event) :
    Decidable ((machine chain).enabled s e) := by
  change Decidable (enabled chain s e)
  cases e <;> (dsimp only [enabled]; infer_instance)

/-! ## The requests of a callback -/

/-- All requests so far, in their order. -/
def State.requests (s : State) : List Request :=
  s.executed ++ s.kernel ++ s.sq.filterMap Op.aim ++ s.cancelQueue

/-- What a callback of the chain has asked for among these requests. -/
def asked (slot : Slot) (rs : List Request) : List ℕ :=
  rs.filterMap (fun r => if r.2 = some slot then some r.1 else none)

/-- What a callback has yet to ask for. -/
def left (chain : Chain) : Callback → List ℕ
  | .absent | .registered => chain.targets
  | .pushing _ todo | .writing _ todo => todo
  | .executed => []

theorem left_run (chain : Chain) (inline : Bool) (todo : List ℕ) :
    left chain (Callback.run inline todo) = todo := by
  cases todo <;> rfl

theorem asked_append (slot : Slot) (rs rs' : List Request) :
    asked slot (rs ++ rs') = asked slot rs ++ asked slot rs' :=
  List.filterMap_append

theorem aim_cancelSqes {ι : Type*} (queue : List (ℕ × ι)) :
    (cancelSqes queue).filterMap Op.aim = queue := by
  induction queue with
  | nil => rfl
  | cons p queue ih =>
      simp only [cancelSqes, List.map_cons, List.filterMap_cons, Op.aim]
      exact congrArg (p :: ·) ih

theorem requests_flush (chain : Chain) (s : State) :
    (effect chain s .flushCancelQueue).requests = s.requests := by
  simp only [effect, State.requests, flushCancelQueue_eq,
    List.filterMap_append, aim_cancelSqes, List.append_assoc,
    List.take_append_drop]

theorem requests_execute (chain : Chain) (s : State) (addr : ℕ) :
    (execute chain s addr).requests = s.requests := by
  rw [execute]
  split <;> rfl

theorem requests_effect (chain : Chain) (s : State) (e : Event) :
    (effect chain s e).requests = s.requests ++
      match e with
      | .pushCancel slot _ addr _ => [(addr, some slot)]
      | .pushOther addr => [(addr, none)]
      | _ => [] := by
  cases e with
  | pushCancel slot inline addr todo => simp [effect, State.requests]
  | pushOther addr => simp [effect, State.requests]
  | flushCancelQueue => rw [requests_flush, List.append_nil]
  | submit => simp [effect, State.requests]
  | prepareOther => simp [effect, State.requests, Op.aim]
  | complete res severs =>
      rw [List.append_nil, effect]
      split <;> rfl
  | executeCancel =>
      rw [List.append_nil, effect]
      split
      · rfl
      next r kernel hkernel =>
        rw [requests_execute]
        simp [State.requests, State.pop, hkernel]
  | drain =>
      rw [List.append_nil, effect]
      split <;> rfl
  | invoke | writeCancel | collect => rw [List.append_nil]; rfl

/-! ## The chain does not go back -/

/-- What a callback has asked for and what it has left are the targets in
order; the chain is past as many operations as cancels of a callback were
executed; and an operation it is past has its CQE posted. -/
structure Ordered (chain : Chain) (s : State) : Prop where
  inOrder : ∀ slot,
    asked slot s.requests ++ left chain (s.cb slot) = chain.targets
  reached : ∀ slot, (asked slot s.executed).length ≤ s.position
  bounded : s.position ≤ chain.length
  answered : ∀ k < s.position,
    (s.promise k).isSome = true ∨ k ∈ s.cq.map Prod.fst

theorem ordered_initial (chain : Chain) : Ordered chain initial where
  inOrder := fun _ => rfl
  reached := fun _ => le_rfl
  bounded := Nat.zero_le _
  answered := nofun

theorem Ordered.inOrder_effect
    {chain : Chain} {s : State} {e : Event} (h : Ordered chain s)
    (he : enabled chain s e) (slot : Slot) :
    asked slot (effect chain s e).requests ++
      left chain ((effect chain s e).cb slot) = chain.targets := by
  have hold := h.inOrder slot
  rw [requests_effect, asked_append]
  cases e with
  | invoke slot' inline =>
      by_cases hslot : slot = slot'
      · subst hslot
        have habsent : s.cb slot = .absent := he
        rw [habsent] at hold
        simp only [effect, Function.update_self, left_run]
        simpa [asked, left] using hold
      · simp only [effect, Function.update_of_ne hslot]
        simpa [asked] using hold
  | pushCancel slot' inline addr todo =>
      by_cases hslot : slot = slot'
      · subst hslot
        have hpushing : s.cb slot = .pushing inline (addr :: todo) := he
        rw [hpushing] at hold
        simp only [effect, Function.update_self]
        simpa [asked, left] using hold
      · have hne : ¬slot' = slot := fun h => hslot h.symm
        simp only [effect, Function.update_of_ne hslot]
        simpa [asked, hne] using hold
  | writeCancel slot' inline todo =>
      by_cases hslot : slot = slot'
      · subst hslot
        have hwriting : s.cb slot = .writing inline todo := he
        rw [hwriting] at hold
        simp only [effect, Function.update_self, left_run]
        simpa [asked, left] using hold
      · simp only [effect, Function.update_of_ne hslot]
        simpa [asked] using hold
  | pushOther addr => simpa [effect, asked] using hold
  | complete res severs =>
      simp only [effect]
      split <;> simpa [asked, endChain, advance] using hold
  | executeCancel =>
      simp only [effect]
      split
      · simpa [asked] using hold
      · simp only [execute]
        split <;> simpa [asked, endChain, State.pop] using hold
  | drain =>
      simp only [effect]
      split <;> simpa [asked] using hold
  | prepareOther | flushCancelQueue | submit | collect =>
      simpa [effect, asked] using hold

theorem execute_position
    {chain : Chain} {s : State} (addr : ℕ) (hs : s.position ≤ chain.length) :
    s.position ≤ (execute chain s addr).position ∧
      (execute chain s addr).position ≤ chain.length := by
  rw [execute]
  split
  · exact ⟨hs, le_rfl⟩
  · exact ⟨le_rfl, hs⟩

/-- The chain only goes forward. -/
theorem Ordered.position_effect
    {chain : Chain} {s : State} {e : Event} (h : Ordered chain s)
    (he : enabled chain s e) :
    s.position ≤ (effect chain s e).position ∧
      (effect chain s e).position ≤ chain.length := by
  have hsame := And.intro (le_refl s.position) h.bounded
  cases e with
  | complete res severs =>
      have hlt : s.position < chain.length := he
      simp only [effect]
      split
      · exact ⟨hlt.le, le_rfl⟩
      · exact ⟨Nat.le_succ _, hlt⟩
  | executeCancel =>
      simp only [effect]
      split
      next => exact hsame
      next r kernel hkernel =>
        exact execute_position (s := s.pop r kernel) r.1 h.bounded
  | drain =>
      simp only [effect]
      split <;> exact hsame
  | _ => exact hsame

/-- The next cancel of a callback that the kernel executes aims at the first
operation that the callback's cancels have not yet dealt with. -/
theorem Ordered.next_target
    {chain : Chain} {s : State} {slot : Slot} {addr : ℕ}
    {kernel : List Request} (h : Ordered chain s)
    (hkernel : s.kernel = (addr, some slot) :: kernel) :
    chain.targets[(asked slot s.executed).length]? = some addr := by
  have hold := h.inOrder slot
  rw [State.requests, hkernel] at hold
  simp only [asked_append, List.append_assoc] at hold
  rw [← hold, List.getElem?_append_right le_rfl, Nat.sub_self]
  simp [asked]

theorem execute_executed (chain : Chain) (s : State) (addr : ℕ) :
    (execute chain s addr).executed = s.executed := by
  rw [execute]
  split <;> rfl

/-- A cancel executed for the operation that the chain has to be past next
leaves the chain past it: it was already, or the cancel hits. -/
theorem Ordered.lt_execute
    {chain : Chain} {s : State} {slot : Slot} {addr : ℕ}
    {kernel : List Request} (h : Ordered chain s)
    (hkernel : s.kernel = (addr, some slot) :: kernel) :
    (asked slot s.executed).length <
      (execute chain (s.pop (addr, some slot) kernel) addr).position := by
  have htarget := h.next_target hkernel
  have hreached := h.reached slot
  rcases hreached.eq_or_lt with heq | hlt
  · have hhits : hits chain (s.pop (addr, some slot) kernel) addr := by
      change chain.targets[s.position]? = some addr
      rw [← heq]
      exact htarget
    rw [execute, if_pos hhits]
    exact (List.getElem?_eq_some_iff.mp htarget).1
  · exact hlt.trans_le (execute_position
      (s := s.pop (addr, some slot) kernel) addr h.bounded).1

theorem Ordered.reached_effect
    {chain : Chain} {s : State} {e : Event} (h : Ordered chain s)
    (he : enabled chain s e) (slot : Slot) :
    (asked slot (effect chain s e).executed).length ≤
      (effect chain s e).position := by
  have hold := h.reached slot
  have hforward := (h.position_effect he).1
  cases e with
  | executeCancel =>
      cases hkernel : s.kernel with
      | nil => exact absurd hkernel he
      | cons r kernel =>
          obtain ⟨addr, origin⟩ := r
          simp only [effect, hkernel, execute_executed] at hforward ⊢
          by_cases horigin : origin = some slot
          · subst horigin
            have hlt := h.lt_execute hkernel
            have hlength :
                (asked slot (s.pop (addr, some slot) kernel).executed).length =
                  (asked slot s.executed).length + 1 := by
              simp [State.pop, asked]
            exact hlength ▸ hlt
          · have hlength :
                (asked slot (s.pop (addr, origin) kernel).executed).length =
                  (asked slot s.executed).length := by
              simp [State.pop, asked, horigin]
            exact hlength ▸ hold.trans hforward
  | complete res severs =>
      have hexecuted :
          (effect chain s (.complete res severs)).executed = s.executed := by
        simp only [effect]
        split <;> rfl
      exact hexecuted ▸ hold.trans hforward
  | drain =>
      have hexecuted : (effect chain s .drain).executed = s.executed := by
        simp only [effect]
        split <;> rfl
      exact hexecuted ▸ hold.trans hforward
  | _ => exact hold.trans hforward

theorem answered_endChain
    {chain : Chain} {s : State}
    (h : ∀ k < s.position,
      (s.promise k).isSome = true ∨ k ∈ s.cq.map Prod.fst) :
    ∀ k < (endChain chain s).position,
      ((endChain chain s).promise k).isSome = true ∨
        k ∈ (endChain chain s).cq.map Prod.fst := by
  intro k hk
  by_cases hlt : k < s.position
  · exact (h k hlt).imp_right fun hmem => by simp [endChain, hmem]
  · refine .inr ?_
    have hk : k < chain.length := hk
    simp only [endChain, List.map_append, List.mem_append, List.map_map]
    refine .inr (List.mem_map.mpr ⟨k, ?_, rfl⟩)
    rw [List.mem_range'_1]
    omega

theorem answered_advance
    {s : State} {res : ℤ}
    (h : ∀ k < s.position,
      (s.promise k).isSome = true ∨ k ∈ s.cq.map Prod.fst) :
    ∀ k < (advance s res).position,
      ((advance s res).promise k).isSome = true ∨
        k ∈ (advance s res).cq.map Prod.fst := by
  intro k hk
  by_cases hlt : k < s.position
  · exact (h k hlt).imp_right fun hmem => by simp [advance, hmem]
  · have hk : k < s.position + 1 := hk
    obtain rfl : k = s.position := by omega
    exact .inr (by simp [advance])

theorem Ordered.answered_effect
    {chain : Chain} {s : State} {e : Event} (h : Ordered chain s) :
    ∀ k < (effect chain s e).position,
      ((effect chain s e).promise k).isSome = true ∨
        k ∈ (effect chain s e).cq.map Prod.fst := by
  have hold := h.answered
  cases e with
  | complete res severs =>
      simp only [effect]
      split
      · exact answered_endChain (answered_advance hold)
      · exact answered_advance hold
  | executeCancel =>
      simp only [effect]
      split
      · exact hold
      next r kernel hkernel =>
        rw [execute]
        split
        · exact answered_endChain (s := s.pop r kernel) hold
        · exact hold
  | drain =>
      simp only [effect]
      split
      · exact hold
      next k res cq hcq =>
        intro k' hk'
        by_cases heq : k' = k
        · exact .inl (by simp [heq])
        · rcases hold k' hk' with hsome | hmem
          · exact .inl (by simp [heq, hsome])
          · rw [hcq, List.map_cons, List.mem_cons] at hmem
            exact .inr (hmem.resolve_left heq)
  | _ => exact hold

theorem reachable_ordered
    {chain : Chain} {s : State} (h : (machine chain).Reachable s) :
    Ordered chain s := by
  refine Machine.Reachable.invariant ?_ ?_ h
  · rintro s rfl
    exact ordered_initial chain
  · intro s e _ hI he
    exact ⟨hI.inOrder_effect he, hI.reached_effect he,
      (hI.position_effect he).2, hI.answered_effect⟩

/-! ## The theorem on chains -/

/-- Once all cancels of a callback have been executed, the kernel has executed
a cancel for every target, in order. -/
theorem Ordered.asked_executed
    {chain : Chain} {s : State} {slot : Slot} (h : Ordered chain s)
    (hall : ∀ a ∈ chain.targets, (a, some slot) ∈ s.executed) :
    asked slot s.executed = chain.targets := by
  have hnodup := chain.nodup
  have hsplit := h.inOrder slot
  simp only [State.requests, asked_append, List.append_assoc] at hsplit
  rw [← hsplit, List.nodup_append] at hnodup
  generalize hrest : asked slot s.kernel ++ _ = rest at hsplit hnodup
  cases rest with
  | nil => rw [← hsplit, List.append_nil]
  | cons b rest =>
      have hb : (b, some slot) ∈ s.executed := by
        apply hall
        rw [← hsplit]
        simp
      have hasked : b ∈ asked slot s.executed :=
        List.mem_filterMap.mpr ⟨_, hb, by simp⟩
      exact absurd rfl (hnodup.2.2 b hasked b List.mem_cons_self)

/-- Once the kernel has executed all cancels that one callback of the call has
asked for, in whatever way they interleaved with the progress of the chain,
with the other callback's, with those of other operations and with flushes that
found the ring full, the chain is over: every operation of it has its CQE
posted.  Draining these fulfils all its promises, and until the fiber has read
all results it is never left waiting for anything but such a drain. -/
theorem chain_over_of_cancels_executed
    (chain : Chain) (slot : Slot) {s : State}
    (h : (machine chain).Reachable s)
    (hall : ∀ a ∈ chain.targets, (a, some slot) ∈ s.executed) :
    s.position = chain.length ∧
      (∀ k < chain.length,
        (s.promise k).isSome = true ∨ k ∈ s.cq.map Prod.fst) ∧
      (s.cq = [] → ∀ k < chain.length, (s.promise k).isSome = true) ∧
      (s.out.length < chain.length →
        (machine chain).enabled s .drain ∨
          (machine chain).enabled s .collect) := by
  have hordered := reachable_ordered h
  have hposition : s.position = chain.length := by
    have hreached := hordered.reached slot
    rw [hordered.asked_executed hall] at hreached
    exact le_antisymm hordered.bounded hreached
  have hanswered := hordered.answered
  rw [hposition] at hanswered
  have hfulfilled : s.cq = [] →
      ∀ k < chain.length, (s.promise k).isSome = true := by
    intro hcq k hk
    refine (hanswered k hk).resolve_right ?_
    simp [hcq]
  refine ⟨hposition, hanswered, hfulfilled, fun hout => ?_⟩
  by_cases hcq : s.cq = []
  · exact .inr (hfulfilled hcq _ hout)
  · exact .inl hcq

/-- Three operations.  The pool callback runs while the first is in flight, the
chain goes on before the first cancel is executed, a cancel of another
operation and those of the fiber callback come in between, and the last two
cancels are submitted apart from the first: the second one hits. -/
theorem chain_over_after_missed_cancel :
    ∃ chain s, chain.targets = [8, 16, 24] ∧ (machine chain).Reachable s ∧
      s.promise 0 = some 5 ∧ s.position = chain.length ∧
      (s.cq = [] → ∀ k < chain.length, (s.promise k).isSome = true) := by
  obtain ⟨s, hs, hall, hfirst⟩ := Machine.exists_reachableUnder_of_exec
    (M := machine ⟨[8, 16, 24], by decide⟩) (G := fun _ _ => True)
    (P := fun s : State =>
      (∀ a ∈ ([8, 16, 24] : List ℕ), (a, some Slot.pool) ∈ s.executed) ∧
        s.promise 0 = some 5) rfl
    [.invoke .pool false, .pushCancel .pool false 8 [16, 24],
      .invoke .fiber false, .pushCancel .fiber false 8 [16, 24],
      .writeCancel .pool false [16, 24], .flushCancelQueue, .submit,
      .complete 5 false, .executeCancel, .executeCancel, .pushOther 40,
      .pushCancel .pool false 16 [24], .writeCancel .pool false [24],
      .pushCancel .pool false 24 [], .writeCancel .pool false [],
      .prepareOther, .flushCancelQueue, .submit, .executeCancel,
      .executeCancel, .executeCancel, .drain, .drain, .collect]
    (by decide)
  have hover := chain_over_of_cancels_executed _ .pool hs hall
  exact ⟨_, s, rfl, hs, hfirst, hover.1, hover.2.2.1⟩

end Fiberexec.Ring.Linked
