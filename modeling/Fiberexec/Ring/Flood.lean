import Fiberexec.Ring.Completion
import Mathlib.Data.List.FinRange

/-!
# A flood of cancels

`flush_cancel_queue` takes SQEs for queued cancels as long as there are any, and
the `arm_notify` after it takes one more, whose pointer it does not check.  The
submission queue is empty when the two begin, so that the last SQE is gone
exactly when the cancel queue has `k_ring_entries` requests or more.  One stop
of the pool queues a request for every suspended call of the thread, so that
the queue gets as long as there are fibers.
-/

namespace Fiberexec.Ring

open Support

variable {ι τ : Type*} [DecidableEq ι] [DecidableEq τ]
variable {token : ι → Option τ} {s : State ι τ} {e : Event ι τ}

/-! ## The notify branch -/

/-- The notify branch hands a front part of the cancel queue to the kernel in
order, keeps the rest in order, and arms the notify read. -/
def Survives (s : State ι τ) : Prop :=
  (processNotify s).crashed = false ∧
    ∃ front back, s.cancelQueue = front ++ back ∧
      (processNotify s).cancelQueue = back ∧
      (processNotify s).kernel =
        s.kernel ++ (cancelSqes front ++ [Op.readNotify]).map .op

/-- A notify CQE is processed only while the cancel queue leaves an SQE for the
notify read. -/
def Fits (s : State ι τ) : Event ι τ → Prop
  | .processNotify => s.cancelQueue.length < kRingEntries
  | _ => True

omit [DecidableEq ι] [DecidableEq τ] in
theorem arm_crashed_iff
    {o : Op ι} (hlive : s.crashed = false) :
    (s.arm o).crashed = false ↔ s.sq.length < kRingEntries := by
  simp only [State.arm]
  split
  next hroom => exact iff_of_true hlive hroom
  next hfull => exact iff_of_false (by simp) hfull

omit [DecidableEq ι] [DecidableEq τ] in
/-- On an empty submission queue `arm_notify` gets an SQE if and only if the
flush did not take them all. -/
theorem processNotify_crashed_iff
    (hlive : s.crashed = false) (hsq : s.sq = []) :
    (processNotify s).crashed = false ↔
      s.cancelQueue.length < kRingEntries := by
  have hflush := flushCancelQueue_eq s.cancelQueue s.sq
  rw [hsq, List.length_nil, Nat.sub_zero, List.nil_append] at hflush
  have hlength : (flushCancelQueue s.cancelQueue s.sq).2.length =
      min kRingEntries s.cancelQueue.length := by
    rw [hsq, hflush, cancelSqes, List.length_map, List.length_take]
  refine (arm_crashed_iff (s := { s with
    thread := .dispatching
    cancelQueue := (flushCancelQueue s.cancelQueue s.sq).1
    sq := (flushCancelQueue s.cancelQueue s.sq).2 }) hlive).trans ?_
  change (flushCancelQueue s.cancelQueue s.sq).2.length < kRingEntries ↔ _
  rw [hlength, min_lt_iff]
  simp

omit [DecidableEq ι] [DecidableEq τ] in
theorem survives_iff
    (hlive : s.crashed = false) (hsq : s.sq = []) :
    Survives s ↔ s.cancelQueue.length < kRingEntries := by
  rw [← processNotify_crashed_iff hlive hsq]
  refine ⟨fun h => h.1, fun h => ⟨h, s.cancelQueue, [], ?_, ?_, ?_⟩⟩
  · rw [List.append_nil]
  · rw [processNotify_eq hsq h]
  · rw [processNotify_eq hsq h]

theorem crashed_effect
    (hsched : Scheduled s) (hlive : s.crashed = false)
    (he : enabled token s e) (hfits : Fits s e) :
    (effect token s e).crashed = false := by
  cases e with
  | prepare f form addrs =>
      rw [hsched.prepare_eq hlive he]
      exact hlive
  | ret f =>
      simp only [effect, ret]
      split <;> exact hlive
  | drain c rearm =>
      have hsq : s.sq = [] := by
        apply hsched.sq_eq_nil hlive
        intro f hf
        exact absurd (hf.symm.trans he.1) (by simp)
      have hroom : ([] : List (Op ι)).length < kRingEntries :=
        Nat.zero_lt_succ 255
      simp only [effect, drain]
      split
      · split
        · exact (arm_crashed_iff (s := { s with cq := s.cq.tail }) hlive).mpr
            (hsq ▸ hroom)
        · exact hlive
      · split
        · exact hlive
        · split
          · exact hlive
          · simp only [dispatch]
            split <;> exact hlive
  | processNotify =>
      exact (processNotify_crashed_iff hlive
        (hsched.sq_of_notified hlive he)).mpr hfits
  | _ => exact hlive

theorem crashed_of_fits
    (h : (machine token).ReachableUnder Fits s) : s.crashed = false := by
  refine Machine.ReachableUnder.invariant
    (I := fun s => s.crashed = false) ?_ ?_ h
  · rintro s rfl
    rfl
  · intro s e hs _ he hfits
    exact crashed_effect (reachable_scheduled hs.reachable) he.1 he.2 hfits

/-! ## Many suspended fibers -/

/-- No fiber has a stop token of its own. -/
def noToken (_ : ι) : Option τ := none

/-- Exactly these fibers are in a call: each is suspended with one request and
its pool callback registered, and the pool's stop was not requested. -/
structure Parked (s : State ι τ) (fs : List ι) : Prop where
  thread : s.thread = .dispatching
  live : s.crashed = false
  sq : s.sq = []
  cq : s.cq = []
  queue : s.cancelQueue = []
  unwritten : s.notifyFd = 0
  calm : s.requested .pool = false
  read : s.kernel[1]? = some (.op .readNotify)
  free : ∀ a, fs.length + kCancelTag < a → s.mem a = none
  idle : ∀ f, f ∉ fs → (s.fiber f).call = none
  parked : ∀ f ∈ fs, ∃ c a, (s.fiber f).call = some c ∧ c.addrs = [a] ∧
    c.cb .pool = .registered

omit [DecidableEq ι] [DecidableEq τ] in
theorem parked_initial : Parked (initial : State ι τ) [] where
  thread := rfl
  live := rfl
  sq := rfl
  cq := rfl
  queue := rfl
  unwritten := rfl
  calm := rfl
  read := rfl
  free := fun _ _ => rfl
  idle := fun _ _ => rfl
  parked := nofun

/-- The state in which a call of `submit_and_wait` suspends its fiber. -/
def park (s : State ι τ) (f : ι) (a : ℕ) : State ι τ :=
  { s with
    kernel := s.kernel ++ [.op (.io ⟨f, (s.fiber f).serial, 0⟩ a false)]
    submitted := s.submitted ++ [.io ⟨f, (s.fiber f).serial, 0⟩ a false]
    mem := Function.update s.mem a (some ⟨f, 0, .fresh false⟩)
    fiber := Function.update s.fiber f
      ⟨(s.fiber f).serial, some ⟨.oneShot, [a], .waiting, [],
        Function.update (fun _ => .absent) .pool .registered⟩⟩ }

theorem reaches_park
    {fs : List ι} {f : ι} {a : ℕ} (h : Parked s fs) (hf : f ∉ fs)
    (ha : fs.length + kCancelTag < a) :
    (machine (noToken : ι → Option τ)).Reaches s (park s f a) := by
  have hnone := h.idle f hf
  have hfree := h.free a ha
  have htag : kCancelTag < a := by omega
  have hstart : effect noToken (effect noToken s (.switch f))
      (.prepare f .oneShot [a]) =
        startCall { s with thread := .fiber f } f .oneShot [a] := by
    change prepare _ f .oneShot [a] = _
    exact prepare_eq_startCall h.sq rfl
  have hpark : effect noToken (effect noToken (effect noToken (effect noToken
      (startCall { s with thread := .fiber f } f .oneShot [a])
      (.submit f)) (.registerPool f)) (.registerFiber f)) (.block f) =
        park s f a := by
    simp [effect, startCall, sqesFrom, allocFrom, State.submitAll,
      State.mapCall, register, sourceOf, noToken, park, h.calm, h.sq, h.thread,
      Call.setCb, Form.zc]
  have hsuspend : (machine noToken).Reaches
      (startCall { s with thread := .fiber f } f .oneShot [a])
      (park s f a) := by
    rw [← hpark]
    refine .head (e := .submit f) ⟨h.live, rfl, ?_⟩ ?_
    · simp [State.inCall, startCall]
    refine .head (e := .registerPool f) ⟨h.live, rfl, ?_⟩ ?_
    · simp [State.inCall, machine, effect, startCall, State.mapCall,
        State.submitAll, Form.zc]
    refine .head (e := .registerFiber f) ⟨h.live, rfl, ?_⟩ ?_
    · simp [State.inCall, machine, effect, startCall, State.mapCall,
        State.submitAll, register, sourceOf, h.calm, Call.setCb,
        Callback.isInline]
    refine Machine.Reaches.single (M := machine noToken) (e := .block f)
      ⟨h.live, rfl, ?_⟩
    simp [State.inCall, machine, effect, startCall, allocFrom, State.mapCall,
      State.submitAll, register, sourceOf, noToken, h.calm, Call.setCb,
      Callback.isInline, State.ready, State.nextHandler, Form.zc,
      fresh_fulfilments]
  refine .head (e := .switch f) ⟨h.live, h.thread, by simp [hnone]⟩ ?_
  refine .head (e := .prepare f .oneShot [a]) ⟨h.live, rfl, ?_⟩ ?_
  · simp [machine, effect, hnone, h.sq, Form.accepts, kRingEntries, htag, hfree]
  · change (machine noToken).Reaches
      (effect noToken (effect noToken s (.switch f)) (.prepare f .oneShot [a])) _
    rw [hstart]
    exact hsuspend

omit [DecidableEq τ] in
theorem Parked.park
    {fs : List ι} {f : ι} {a : ℕ} (h : Parked s fs)
    (ha : a = fs.length + kCancelTag + 1) :
    Parked (park s f a) (f :: fs) where
  thread := h.thread
  live := h.live
  sq := h.sq
  cq := h.cq
  queue := h.queue
  unwritten := h.unwritten
  calm := h.calm
  read := by
    have hlt := (List.getElem?_eq_some_iff.mp h.read).1
    exact (List.getElem?_append_left hlt).trans h.read
  free := by
    intro b hb
    rw [List.length_cons] at hb
    exact (Function.update_of_ne (by omega) ..).trans (h.free b (by omega))
  idle := by
    intro g hg
    simp only [List.mem_cons, not_or] at hg
    obtain ⟨hne, hg⟩ := hg
    exact (congrArg Fiber.call (Function.update_of_ne hne ..)).trans
      (h.idle g hg)
  parked := by
    intro g hg
    by_cases hgf : g = f
    · subst hgf
      have hself : (Fiberexec.Ring.park s g a).fiber g = _ :=
        Function.update_self ..
      exact ⟨_, a, congrArg Fiber.call hself, rfl, rfl⟩
    · obtain ⟨c, b, hcall, hc⟩ := h.parked g (List.mem_of_ne_of_mem hgf hg)
      exact ⟨c, b,
        (congrArg Fiber.call (Function.update_of_ne hgf ..)).trans hcall, hc⟩

/-- Any number of fibers can be suspended at once. -/
theorem exists_parked (fs : List ι) (hfs : fs.Nodup) :
    ∃ s, (machine (noToken : ι → Option τ)).Reachable s ∧ Parked s fs := by
  induction fs with
  | nil => exact ⟨initial, .init rfl, parked_initial⟩
  | cons f fs ih =>
      obtain ⟨hf, hfs⟩ := List.nodup_cons.mp hfs
      obtain ⟨s, hs, hparked⟩ := ih hfs
      exact ⟨_, hs.trans (reaches_park hparked hf (Nat.lt_succ_self _)),
        hparked.park rfl⟩

/-! ## The pool stops -/

/-- `request_stop` of the pool has queued `n` requests and has yet to run the
callbacks of these fibers. -/
structure Flooding (s : State ι τ) (todo : List ι) (n : ℕ) : Prop where
  thread : s.thread = .dispatching
  live : s.crashed = false
  sq : s.sq = []
  cq : s.cq = []
  stopping : s.stopping .pool = true
  read : s.kernel[1]? = some (.op .readNotify)
  length : s.cancelQueue.length = n
  written : s.notifyFd = n
  quiet : ∀ f c, (s.fiber f).call = some c → (c.cb .pool).isRemote = false
  todo : ∀ f ∈ todo, ∃ c a, (s.fiber f).call = some c ∧ c.addrs = [a] ∧
    c.cb .pool = .registered

theorem Parked.flooding
    {fs : List ι} (h : Parked s fs) :
    Flooding (effect noToken s (.requestStop .pool)) fs 0 where
  thread := h.thread
  live := h.live
  sq := h.sq
  cq := h.cq
  stopping := by simp [effect]
  read := h.read
  length := congrArg List.length h.queue
  written := h.unwritten
  quiet := by
    intro f c hcall
    by_cases hf : f ∈ fs
    · obtain ⟨c', a, hcall', -, hcb⟩ := h.parked f hf
      obtain rfl : c' = c := Option.some.inj (hcall'.symm.trans hcall)
      rw [hcb]
      rfl
    · exact absurd (hcall.symm.trans (h.idle f hf)) (by simp)
  todo := h.parked

/-- The state in which the pool callback of a call has queued its request and
written `notify_fd_`. -/
def flood (s : State ι τ) (f : ι) (c : Call) (a : ℕ) : State ι τ :=
  { s with
    fiber := Function.update s.fiber f
      ⟨(s.fiber f).serial, some (c.setCb .pool .executed)⟩
    cancelQueue := s.cancelQueue ++ [(a, f)]
    notifyFd := s.notifyFd + 1 }

theorem reaches_flood
    {todo : List ι} {f : ι} {n : ℕ} {c : Call} {a : ℕ}
    (h : Flooding s todo n) (hcall : (s.fiber f).call = some c)
    (haddrs : c.addrs = [a]) (hcb : c.cb .pool = .registered) :
    (machine (noToken : ι → Option τ)).Reaches s (flood s f c a) := by
  have hflood : effect noToken (effect noToken (effect noToken s
      (.invoke f .pool .pool)) (.pushCancel f .pool false a []))
      (.writeCancel f .pool false []) = flood s f c a := by
    simp [effect, State.mapCall, hcall, haddrs, Call.setCb, Callback.run, flood]
  have hquiet : s.quiet (noToken : ι → Option τ) .pool := by
    intro g slot hslot c' hcall'
    cases slot with
    | pool => exact h.quiet g c' hcall'
    | fiber => exact absurd hslot (by simp [sourceOf, noToken])
  have hpushing : ((effect (noToken : ι → Option τ) s
      (.invoke f .pool .pool)).fiber f).call =
        some (c.setCb .pool (.pushing false [a])) := by
    rw [fiber_effect (by simp) (by simp), hcall]
    simp [callStep, haddrs, Callback.run]
  have hwriting : ((effect (noToken : ι → Option τ) (effect noToken s
      (.invoke f .pool .pool)) (.pushCancel f .pool false a [])).fiber f).call =
        some ((c.setCb .pool (.pushing false [a])).setCb .pool
          (.writing false [])) := by
    rw [fiber_effect (by simp) (by simp), hpushing]
    simp [callStep]
  rw [← hflood]
  refine .head (e := .invoke f .pool .pool)
    ⟨h.live, ⟨c, hcall, hcb⟩, rfl, h.stopping, hquiet⟩ ?_
  refine .head (e := .pushCancel f .pool false a [])
    ⟨h.live, _, hpushing, Call.setCb_self ..⟩ ?_
  exact Machine.Reaches.single (M := machine noToken)
    (e := .writeCancel f .pool false [])
    ⟨h.live, _, hwriting, Call.setCb_self ..⟩

omit [DecidableEq τ] in
theorem Flooding.flood
    {todo : List ι} {f : ι} {n : ℕ} {c : Call} {a : ℕ}
    (h : Flooding s (f :: todo) n) (hf : f ∉ todo) :
    Flooding (flood s f c a) todo (n + 1) where
  thread := h.thread
  live := h.live
  sq := h.sq
  cq := h.cq
  stopping := h.stopping
  read := h.read
  length := by
    rw [← h.length]
    exact List.length_append
  written := congrArg (· + 1) h.written
  quiet := by
    intro g c' hcall'
    by_cases hgf : g = f
    · subst hgf
      have hself : (Fiberexec.Ring.flood s g c a).fiber g = _ :=
        Function.update_self ..
      rw [hself] at hcall'
      obtain rfl := Option.some.inj hcall'
      rw [Call.setCb_self]
      rfl
    · have hother : (Fiberexec.Ring.flood s f c a).fiber g = s.fiber g :=
        Function.update_of_ne hgf ..
      exact h.quiet g c' (hother ▸ hcall')
  todo := by
    intro g hg
    have hgf : g ≠ f := by
      rintro rfl
      exact hf hg
    have hother : (Fiberexec.Ring.flood s f c a).fiber g = s.fiber g :=
      Function.update_of_ne hgf ..
    rw [hother]
    exact h.todo g (List.mem_cons_of_mem f hg)

/-- One stop of the pool queues a request for every suspended fiber. -/
theorem Flooding.exists_flooded
    {todo : List ι} {n : ℕ} (h : Flooding s todo n) (htodo : todo.Nodup) :
    ∃ s', (machine (noToken : ι → Option τ)).Reaches s s' ∧
      Flooding s' [] (n + todo.length) := by
  induction todo generalizing s n with
  | nil => exact ⟨s, .refl, h⟩
  | cons f todo ih =>
      obtain ⟨hf, htodo⟩ := List.nodup_cons.mp htodo
      obtain ⟨c, a, hcall, haddrs, hcb⟩ := h.todo f List.mem_cons_self
      obtain ⟨s', hs', hflooded⟩ := ih (h.flood (c := c) (a := a) hf) htodo
      refine ⟨s', (reaches_flood h hcall haddrs hcb).trans hs', ?_⟩
      rw [List.length_cons, Nat.add_comm todo.length, ← Nat.add_assoc]
      exact hflooded

/-- The notify read ends and `drain_cqes` takes its CQE off the ring. -/
theorem Flooding.exists_notified
    {n : ℕ} (h : Flooding s [] n) (hn : 0 < n) :
    ∃ s', (machine (noToken : ι → Option τ)).Reaches s s' ∧
      (machine (noToken : ι → Option τ)).enabled s' .processNotify ∧
      s'.cancelQueue.length = n := by
  let c : Cqe ι := .tagged kNotifyTag 8
  have hcq : (effect (noToken : ι → Option τ) s (.readNotify 1 true)).cq =
      [c] := by
    simp [effect, State.post, h.cq, c]
  have hread : (machine (noToken : ι → Option τ)).enabled s
      (.readNotify 1 true) :=
    ⟨h.live, h.read, fun _ => h.written ▸ hn⟩
  have hdrain : (machine (noToken : ι → Option τ)).enabled
      (effect noToken s (.readNotify 1 true)) (.drain c false) :=
    ⟨h.live, h.thread, congrArg List.head? hcq⟩
  exact ⟨effect noToken (effect noToken s (.readNotify 1 true)) (.drain c false),
    .head hread (Machine.Reaches.single (M := machine noToken) hdrain),
    ⟨h.live, rfl⟩, h.length⟩

/-- The cancel queue can have as many requests as there are fibers when a
notify CQE is processed. -/
theorem exists_queued (fs : List ι) (hfs : fs.Nodup) (hne : fs ≠ []) :
    ∃ s, (machine (noToken : ι → Option τ)).Reachable s ∧
      (machine (noToken : ι → Option τ)).enabled s .processNotify ∧
      s.cancelQueue.length = fs.length := by
  obtain ⟨s, hs, hparked⟩ := exists_parked (τ := τ) fs hfs
  obtain ⟨s', hs', hflooded⟩ := hparked.flooding.exists_flooded hfs
  rw [Nat.zero_add] at hflooded
  obtain ⟨s'', hs'', hnotified⟩ :=
    hflooded.exists_notified (List.length_pos_iff.mpr hne)
  have hstop : (machine noToken).enabled s (.requestStop .pool) :=
    ⟨hparked.live, hparked.calm⟩
  exact ⟨s'', (hs.step hstop).trans (hs'.trans hs''), hnotified⟩

/-! ## The theorem on the notify branch -/

/-- Whenever a notify CQE is processed the submission queue is empty, and the
notify branch hands a front part of the cancel queue to the kernel in order,
keeps the rest in order and arms the notify read if and only if fewer than
`k_ring_entries` requests are queued; otherwise `arm_notify` gets no SQE.  In
every run that processes notify CQEs only then, no SQE is ever missing. -/
theorem notify_survives_iff_queue_fits (token : ι → Option τ) :
    (∀ s, (machine token).ReachableUnder Fits s → s.crashed = false) ∧
      ∀ s, (machine token).Reachable s →
        (machine token).enabled s .processNotify →
          s.sq = [] ∧
            (Survives s ↔ s.cancelQueue.length < kRingEntries) ∧
            ((effect token s .processNotify).crashed = true ↔
              kRingEntries ≤ s.cancelQueue.length) := by
  refine ⟨fun s h => crashed_of_fits h, fun s h he => ?_⟩
  have hsq := (reachable_scheduled h).sq_of_notified he.1 he.2
  refine ⟨hsq, survives_iff he.1 hsq, ?_⟩
  rw [← not_lt, ← processNotify_crashed_iff he.1 hsq, Bool.not_eq_false]
  rfl

/-- Three fibers are suspended when the pool stops: their three requests are
submitted with the notify read. -/
theorem notify_survives_three_cancels :
    ∃ s : State (Fin 3) Unit, (machine noToken).Reachable s ∧
      s.cancelQueue.length = 3 ∧ Survives s := by
  obtain ⟨s, hs, he, hlength⟩ :=
    exists_queued (τ := Unit) (List.finRange 3) (List.nodup_finRange 3) (by simp)
  rw [List.length_finRange] at hlength
  refine ⟨s, hs, hlength, ?_⟩
  apply ((notify_survives_iff_queue_fits noToken).2 s hs he).2.1.mpr
  rw [hlength]
  decide

/-- `k_ring_entries` fibers are suspended when the pool stops: the flush takes
every SQE, and `arm_notify` writes through a null pointer. -/
theorem notify_crashes_on_full_queue :
    ∃ s : State (Fin kRingEntries) Unit, (machine noToken).Reachable s ∧
      (machine noToken).enabled s .processNotify ∧ s.sq = [] ∧
      s.cancelQueue.length = kRingEntries ∧ ¬Survives s ∧
      (effect noToken s .processNotify).crashed = true := by
  obtain ⟨s, hs, he, hlength⟩ :=
    exists_queued (τ := Unit) (List.finRange kRingEntries)
      (List.nodup_finRange _) (by simp [kRingEntries, List.finRange_eq_nil_iff])
  rw [List.length_finRange] at hlength
  have hsq := (reachable_scheduled hs).sq_of_notified he.1 he.2
  have hcrash := processNotify_crashed_iff he.1 hsq
  rw [hlength] at hcrash
  refine ⟨s, hs, he, hsq, hlength, fun h => ?_, ?_⟩
  · exact absurd (hcrash.mp h.1) (lt_irrefl _)
  · by_contra hlive
    exact absurd (hcrash.mp (Bool.eq_false_of_not_eq_true hlive)) (lt_irrefl _)

end Fiberexec.Ring
