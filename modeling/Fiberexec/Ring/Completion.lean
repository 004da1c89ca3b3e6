import Fiberexec.Ring.Routing

/-!
# Completions of suspended calls

The worker's thread runs one fiber at a time, so that a call's SQEs are
submitted before anything else is prepared, and a call reads its results one by
one, each from a promise that has been fulfilled.  With these two facts the
routing invariant holds along every run, and a call returns exactly the
kernel's results for its own SQEs.
-/

namespace Fiberexec.Ring

open Support

variable {ι τ : Type*} [DecidableEq ι] [DecidableEq τ]
variable {token : ι → Option τ} {s : State ι τ} {e : Event ι τ}

/-! ## One thing at a time -/

/-- Only the fiber that the thread runs is anywhere in a call but in
`future.get()`, and what was prepared is submitted before the thread turns to
anything else. -/
structure Scheduled (s : State ι τ) : Prop where
  running : ∀ f c, (s.fiber f).call = some c → c.phase ≠ .waiting →
    s.thread = .fiber f
  flushed : s.crashed = false →
    (∀ f c, (s.fiber f).call = some c → c.phase ≠ .prepared) → s.sq = []

theorem thread_effect
    {f : ι} (he : enabled token s e) (hthread : s.thread = .fiber f)
    (hyield : e ≠ .yield f) (hblock : e ≠ .block f) :
    (effect token s e).thread = .fiber f := by
  cases e with
  | switch f' | resume f' | drain c rearm =>
      exact absurd (hthread.symm.trans he.1) (by simp)
  | processNotify => exact absurd (hthread.symm.trans he) (by simp)
  | yield f' =>
      have hf : f = f' := by simpa using hthread.symm.trans he.1
      exact absurd (congrArg Event.yield hf.symm) hyield
  | block f' =>
      have hf : f = f' := by simpa using hthread.symm.trans he.1
      exact absurd (congrArg Event.block hf.symm) hblock
  | prepare f' form addrs =>
      simp only [effect, prepare]
      split <;> exact hthread
  | ret f' =>
      simp only [effect, ret]
      split <;> exact hthread
  | _ => exact hthread

/-- A call moves on only when the thread runs its fiber, and after its
preparation only by submitting. -/
theorem callStep_phase
    {f : ι} {c : Call} (he : enabled token s e)
    (hcall : (s.fiber f).call = some c) :
    (callStep token s f e c).phase = c.phase ∨
      (s.thread = .fiber f ∧ (effect token s e).thread = .fiber f ∧
        (c.phase = .prepared → e = .submit f)) := by
  by_cases hcaller : e.caller = some f
  case neg => exact Or.inl (by rw [callStep_of_ne hcaller])
  cases e with
  | submit f' =>
      obtain rfl := Option.some.inj hcaller
      exact Or.inr ⟨he.1, he.1, fun _ => rfl⟩
  | registerPool f' =>
      obtain rfl := Option.some.inj hcaller
      have hphase := (State.inCall_iff hcall).mp he.2
      exact Or.inr ⟨he.1, he.1, fun hp => by simp [hp] at hphase⟩
  | registerFiber f' | collect f' | unregisterFiber f' =>
      obtain rfl := Option.some.inj hcaller
      have hphase := ((State.inCall_iff hcall).mp he.2).1
      exact Or.inr ⟨he.1, he.1, fun hp => by simp [hp] at hphase⟩
  | invoke f' | pushCancel f' | writeCancel f' =>
      obtain rfl := Option.some.inj hcaller
      exact Or.inl (by simp only [callStep, if_true, Call.setCb])
  | _ => cases hcaller

theorem prepared_effect
    {f : ι} {c : Call} (he : enabled token s e)
    (hcall : (s.fiber f).call = some c) (hphase : c.phase = .prepared)
    (hsubmit : e ≠ .submit f) :
    ∃ c', ((effect token s e).fiber f).call = some c' ∧
      c'.phase = .prepared := by
  have hprepare : ∀ form addrs, e ≠ .prepare f form addrs := by
    rintro form addrs rfl
    have hnone := he.2.1
    simp [hcall] at hnone
  have hret : e ≠ .ret f := by
    rintro rfl
    have hphase' := ((State.inCall_iff hcall).mp he.2).1
    simp [hphase] at hphase'
  refine ⟨callStep token s f e c, ?_, ?_⟩
  · rw [fiber_effect hprepare hret, hcall]
    rfl
  · rcases callStep_phase he hcall with hsame | ⟨-, -, honly⟩
    · rw [hsame, hphase]
    · exact absurd (honly hphase) hsubmit

omit [DecidableEq ι] [DecidableEq τ] in
theorem Scheduled.sq_eq_nil
    (h : Scheduled s) (hlive : s.crashed = false)
    (hthread : ∀ f, s.thread = .fiber f → (s.fiber f).call = none) :
    s.sq = [] := by
  apply h.flushed hlive
  intro f c hcall hphase
  have hrun := h.running f c hcall (by simp [hphase])
  rw [hthread f hrun] at hcall
  cases hcall

omit [DecidableEq ι] [DecidableEq τ] in
/-- The submission queue is empty when a notify CQE is processed. -/
theorem Scheduled.sq_of_notified
    (h : Scheduled s) (hlive : s.crashed = false)
    (hthread : s.thread = .notified) : s.sq = [] := by
  apply h.sq_eq_nil hlive
  intro f hf
  exact absurd (hf.symm.trans hthread) (by simp)

omit [DecidableEq ι] [DecidableEq τ] in
theorem arm_sq
    (o : Op ι) (hlive : (s.arm o).crashed = false) : (s.arm o).sq = [] := by
  simp only [State.arm] at hlive ⊢
  split at hlive
  next hroom => rw [if_pos hroom]; rfl
  next => cases hlive

omit [DecidableEq ι] [DecidableEq τ] in
theorem scheduled_initial : Scheduled (initial : State ι τ) where
  running := by simp [initial]
  flushed := fun _ _ => rfl

theorem Scheduled.running_effect
    (h : Scheduled s) (he : enabled token s e) {f : ι} {c' : Call}
    (hcall' : ((effect token s e).fiber f).call = some c')
    (hphase : c'.phase ≠ .waiting) : (effect token s e).thread = .fiber f := by
  by_cases hprepare : ∃ form addrs, e = .prepare f form addrs
  · obtain ⟨form, addrs, rfl⟩ := hprepare
    exact thread_effect he he.1 (by simp) (by simp)
  by_cases hret : e = .ret f
  · subst hret
    obtain ⟨c, hcall, -⟩ := he.2
    have hcall : (s.fiber f).call = some c := hcall
    simp [effect, ret, hcall] at hcall'
  rw [fiber_effect (fun form addrs heq => hprepare ⟨form, addrs, heq⟩) hret]
    at hcall'
  obtain ⟨c, hcall, rfl⟩ := Option.map_eq_some_iff.mp hcall'
  rcases callStep_phase he hcall with hsame | ⟨-, hthread, -⟩
  · rw [hsame] at hphase
    apply thread_effect he (h.running f c hcall hphase)
    · rintro rfl
      have hnone := he.2
      simp [hcall] at hnone
    · rintro rfl
      exact hphase ((State.inCall_iff hcall).mp he.2).1
  · exact hthread

theorem Scheduled.flushed_effect
    (h : Scheduled s) (hlive : s.crashed = false) (he : enabled token s e)
    (hlive' : (effect token s e).crashed = false)
    (hall : ∀ f c, ((effect token s e).fiber f).call = some c →
      c.phase ≠ .prepared) : (effect token s e).sq = [] := by
  have hkeep : (∀ f, e ≠ .submit f) → s.sq = [] := by
    intro hsubmit
    apply h.flushed hlive
    intro f c hcall hphase
    obtain ⟨c', hcall', hphase'⟩ :=
      prepared_effect he hcall hphase (hsubmit f)
    exact hall f c' hcall' hphase'
  cases e with
  | submit f => rfl
  | prepare f form addrs =>
      obtain ⟨-, -, haccepts, -⟩ := he
      rw [effect, prepare_eq_startCall (hkeep (by simp)) haccepts] at hall
      exact absurd rfl (hall f _ (by simp [startCall]; rfl))
  | ret f =>
      simp only [effect, ret]
      split <;> exact hkeep (by simp)
  | drain c rearm =>
      simp only [effect, drain] at hlive' ⊢
      split
      next htag =>
        rw [if_pos htag] at hlive'
        split
        next hrearm => rw [if_pos hrearm] at hlive'; exact arm_sq _ hlive'
        next => exact hkeep (by simp)
      next =>
        split
        next => exact hkeep (by simp)
        next =>
          split
          next => exact hkeep (by simp)
          next =>
            simp only [dispatch]
            split <;> exact hkeep (by simp)
  | processNotify => exact arm_sq _ hlive'
  | _ => exact hkeep (by simp)

theorem scheduled_effect
    (h : Scheduled s) (hlive : s.crashed = false) (he : enabled token s e) :
    Scheduled (effect token s e) where
  running := fun _ _ => h.running_effect he
  flushed := h.flushed_effect hlive he

theorem Scheduled.prepare_eq
    (h : Scheduled s) (hlive : s.crashed = false)
    {f : ι} {form : Form} {addrs : List ℕ}
    (he : enabled token s (.prepare f form addrs)) :
    effect token s (.prepare f form addrs) = startCall s f form addrs := by
  obtain ⟨hthread, hnone, haccepts, -⟩ := he
  apply prepare_eq_startCall _ haccepts
  apply h.sq_eq_nil hlive
  intro f' hf'
  obtain rfl : f' = f := by simpa using hf'.symm.trans hthread
  exact Option.isNone_iff_eq_none.mp hnone

/-- A fiber that is in a call after a step has just begun it, or was in it
before. -/
theorem Scheduled.call_effect
    (h : Scheduled s) (hlive : s.crashed = false) (he : enabled token s e)
    {f : ι} {c' : Call}
    (hcall' : ((effect token s e).fiber f).call = some c') :
    (∃ form addrs, e = .prepare f form addrs ∧
        effect token s e = startCall s f form addrs ∧
        c' = ⟨form, addrs, .prepared, [], fun _ => .absent⟩) ∨
      (e ≠ .ret f ∧ ∃ c, (s.fiber f).call = some c ∧
        c' = callStep token s f e c ∧
        ((effect token s e).fiber f).serial = (s.fiber f).serial) := by
  by_cases hprepare : ∃ form addrs, e = .prepare f form addrs
  · obtain ⟨form, addrs, rfl⟩ := hprepare
    have heq := h.prepare_eq hlive he
    rw [heq] at hcall'
    refine Or.inl ⟨form, addrs, rfl, heq, ?_⟩
    simpa [startCall] using hcall'.symm
  have hret : e ≠ .ret f := by
    rintro rfl
    obtain ⟨-, c, hcall, -⟩ := he
    have hcall : (s.fiber f).call = some c := hcall
    simp [effect, ret, hcall] at hcall'
  have hfiber : (effect token s e).fiber f = ⟨(s.fiber f).serial,
      (s.fiber f).call.map (callStep token s f e)⟩ :=
    fiber_effect (fun form addrs heq => hprepare ⟨form, addrs, heq⟩) hret
  rw [hfiber] at hcall'
  obtain ⟨c, hcall, rfl⟩ := Option.map_eq_some_iff.mp hcall'
  exact Or.inr ⟨hret, c, hcall, rfl, by rw [hfiber]⟩

theorem reachable_scheduled
    (h : (machine token).Reachable s) : Scheduled s :=
  reachable_invariant scheduled_initial
    (fun _ _ _ hI hlive he => scheduled_effect hI hlive he) h

/-! ## Reading the results -/

/-- The call has read all its results. -/
def Phase.isRead : Phase → Bool
  | .collected | .unregistered => true
  | _ => false

/-- What a call has read so far came from its own handlers, in order. -/
structure Collected (s : State ι τ) (f : ι) (c : Call) : Prop where
  unread : c.phase.isRead = false → c.out.length < c.addrs.length
  read : c.phase.isRead = true → c.out.length = c.addrs.length
  values : ∀ i a v, c.addrs[i]? = some a → c.out[i]? = some v →
    ∃ h, s.mem a = some ⟨f, i, h⟩ ∧ 0 < h.fulfilments ∧ v = h.value

omit [DecidableEq ι] [DecidableEq τ] in
theorem Collected.fulfilled
    {f : ι} {c : Call} (h : Collected s f c) (hread : c.phase.isRead = true)
    {i a : ℕ} (ha : c.addrs[i]? = some a) :
    ∃ hd, s.mem a = some ⟨f, i, hd⟩ ∧ 0 < hd.fulfilments ∧
      c.out[i]? = some hd.value := by
  have hlt : i < c.out.length := by
    rw [h.read hread]
    exact (List.getElem?_eq_some_iff.mp ha).1
  obtain ⟨hd, hcell, hpos, hv⟩ :=
    h.values i a c.out[i] ha (List.getElem?_eq_getElem hlt)
  exact ⟨hd, hcell, hpos, by rw [List.getElem?_eq_getElem hlt, hv]⟩

/-- The three invariants that carry each other along a run. -/
structure Sound (s : State ι τ) : Prop where
  scheduled : Scheduled s
  routed : Routed s
  collected : ∀ f c, (s.fiber f).call = some c → Collected s f c

omit [DecidableEq τ] in
theorem sound_initial : Sound (initial : State ι τ) where
  scheduled := scheduled_initial
  routed := routed_initial
  collected := by simp [initial]

/-! ### Routing -/

/-- Only beginning and returning change what routing sees of a call. -/
theorem sameCall_effect
    (hprepare : ∀ f form addrs, e ≠ .prepare f form addrs)
    (hret : ∀ f, e ≠ .ret f) (f : ι) : SameCall s (effect token s e) f := by
  rw [SameCall, State.opened, State.opened,
    fiber_effect (hprepare f) (hret f), Option.map_map]
  refine ⟨congrArg (fun g => (s.fiber f).call.map g) ?_, rfl⟩
  funext c
  obtain ⟨hform, haddrs⟩ := callStep_form_addrs token s f e c
  simp only [Function.comp_apply, hform, haddrs]

omit [DecidableEq τ] in
/-- One turn of `drain_cqes`: a CQE with a tag belongs to no request, any other
to a live handler. -/
theorem routed_drain
    (h : Routed s) {c : Cqe ι} (hc : s.cq.head? = some c) (rearm : Bool) :
    Routed (drain s c rearm) := by
  have hmem : c ∈ s.cq := List.mem_of_head? hc
  simp only [drain]
  cases hrid : c.rid with
  | none =>
      have hpop := h.popTagged hc hrid
      have htag := h.tagged c hmem hrid
      split
      next =>
        split
        next => exact hpop.arm rfl
        next => exact hpop
      next hwork =>
        split
        next => exact hpop.of_ring (SameCall.refl s) rfl rfl rfl rfl rfl rfl
        next hnotify =>
          split
          next => exact hpop
          next hcancel =>
            simp only [kWorkTag, kNotifyTag, kCancelTag] at *
            omega
  | some r =>
      have hlabel := mem_labels_of_cqe hmem hrid
      obtain ⟨-, -, -, -, -, haligned, -⟩ := h.call_of_label hlabel
      have hne : c.userData ≠ kWorkTag ∧ c.userData ≠ kNotifyTag ∧
          c.userData ≠ kCancelTag := by
        simp only [kWorkTag, kNotifyTag, kCancelTag] at *
        omega
      rw [if_neg hne.1, if_neg hne.2.1, if_neg hne.2.2]
      exact routed_dispatch h hc hrid

theorem Sound.routed_effect
    (h : Sound s) (hlive : s.crashed = false) (he : enabled token s e) :
    Routed (effect token s e) := by
  have hr := h.routed
  cases e with
  | prepare f form addrs =>
      rw [h.scheduled.prepare_eq hlive he]
      obtain ⟨-, hnone, -, -, hnodup, haddrs⟩ := he
      apply routed_startCall hr
      · rw [State.opened, Option.isNone_iff_eq_none.mp hnone]
        rfl
      · exact hnodup
      · intro a ha
        exact ⟨(haddrs a ha).1, Option.isNone_iff_eq_none.mp (haddrs a ha).2⟩
  | ret f =>
      obtain ⟨-, c, hcall, hphase, -⟩ := he
      have hread : c.phase.isRead = true := by rw [hphase]; rfl
      apply routed_ret hr hcall
      intro i a ha
      obtain ⟨hd, hcell, hpos, -⟩ :=
        (h.collected f c hcall).fulfilled hread ha
      exact ⟨hd, hcell, hpos⟩
  | submit f =>
      exact hr.submitAll.of_ring (sameCall_effect (by simp) (by simp))
        rfl rfl rfl rfl rfl rfl
  | drain c rearm => exact routed_drain hr he.2 rearm
  | processNotify => exact routed_processNotify hr
  | complete i r addr zc res =>
      refine hr.of_post (sameCall_effect (by simp) (by simp)) [] he
        rfl (if_pos rfl) (by simp) (List.append_nil _).symm rfl rfl rfl rfl
        rfl ?_
      intro zc' hd _ hstage hone
      exact hstage.answer hone res
  | completeMore i r addr res =>
      refine hr.of_post (sameCall_effect (by simp) (by simp))
        [.zcNotif r addr] he rfl (if_pos rfl) (by simp) rfl rfl rfl rfl rfl rfl ?_
      intro zc hd hzc hstage hone
      simpa [Entry.of] using hstage.answerMore hone (hzc true rfl).symm res
  | completeNotif i r addr =>
      refine hr.of_post (sameCall_effect (by simp) (by simp)) [] he
        rfl (if_pos rfl) (by simp) (List.append_nil _).symm rfl
        (Function.update_eq_self r s.result).symm rfl rfl rfl ?_
      intro zc hd _ hstage hone
      exact hstage.notify hone
  | completeTimeout i res => exact hr.postTagged he rfl _ le_rfl res
  | readWork i res => exact hr.postTagged he rfl _ (by decide) res
  | cancelMiss i target origin => exact hr.postTagged he.1 rfl _ le_rfl _
  | readNotify i ok =>
      exact (hr.postTagged he.1 rfl kNotifyTag (by decide) _).of_ring
        (SameCall.refl s) rfl rfl rfl rfl rfl rfl
  | cancelHit i target origin j r zc =>
      exact (hr.postTagged he.1 rfl kCancelTag le_rfl 0).of_ring
        (SameCall.refl s) rfl rfl rfl rfl rfl rfl
  | _ =>
      exact hr.of_ring (sameCall_effect (by simp) (by simp))
        rfl rfl rfl rfl rfl rfl

/-! ### Results -/

omit [DecidableEq ι] [DecidableEq τ] in
/-- `drain_cqes` touches no handler but the one a CQE is addressed to. -/
theorem drain_mem
    {c : Cqe ι} {rearm : Bool} {a : ℕ}
    (h : c.userData ≤ kCancelTag ∨ a ≠ c.userData) :
    (drain s c rearm).mem a = s.mem a := by
  simp only [drain]
  split
  next =>
    obtain ⟨_, _, _, _, harm⟩ := arm_frame { s with cq := s.cq.tail } .readWork
    rw [harm]
    split <;> rfl
  next hwork =>
    split
    next => rfl
    next hnotify =>
      split
      next => rfl
      next hcancel =>
        have hne : a ≠ c.userData := by
          refine h.resolve_left ?_
          simp only [kWorkTag, kNotifyTag, kCancelTag] at *
          omega
        simp only [dispatch]
        split
        · rfl
        · exact Function.update_of_ne hne _ _

/-- A fulfilled handler stays as it is until its call returns: no CQE is left
that could be dispatched to it. -/
theorem Sound.mem_of_fulfilled
    (h : Sound s) (he : enabled token s e) {f : ι} {i a : ℕ} {hd : Handler}
    (hcell : s.mem a = some ⟨f, i, hd⟩) (hpos : 0 < hd.fulfilments)
    (hret : e ≠ .ret f) : (effect token s e).mem a = some ⟨f, i, hd⟩ := by
  cases e with
  | prepare f' form addrs =>
      obtain ⟨-, -, -, -, -, haddrs⟩ := he
      simp only [effect, prepare]
      split
      · exact hcell
      · rw [startCall_mem_of_not_mem, hcell]
        intro ha
        have hnone := (haddrs a ha).2
        simp [hcell] at hnone
  | ret f' =>
      obtain ⟨-, c, hcall, -⟩ := he
      have hcall : (s.fiber f').call = some c := hcall
      simp only [effect, ret, hcall, release]
      rw [if_neg, hcell]
      intro ha
      obtain ⟨j, hj⟩ := List.mem_iff_getElem?.mp ha
      obtain ⟨hd', hcell', -⟩ :=
        (h.routed.each f').live _ _ j a (opened_of_call hcall) hj
      rw [hcell] at hcell'
      obtain ⟨rfl, -⟩ := Cell.mk.inj (Option.some.inj hcell')
      exact hret rfl
  | drain c rearm =>
      have hmem : c ∈ s.cq := List.mem_of_head? he.2
      rw [effect, drain_mem, hcell]
      cases hrid : c.rid with
      | none => exact Or.inl (h.routed.tagged c hmem hrid)
      | some r =>
          right
          rintro rfl
          have hlabel := mem_labels_of_cqe hmem hrid
          obtain ⟨_, _, hd', -, -, -, -, hcell', hstage⟩ :=
            h.routed.handler hlabel
          rw [hcell] at hcell'
          obtain ⟨-, -, rfl⟩ := Cell.mk.inj (Option.some.inj hcell')
          exact track_eq_none_iff.mp (hstage.of_fulfilled hpos).1 _ _ hlabel
  | processNotify =>
      obtain ⟨_, _, _, _, _, hnotify⟩ := processNotify_frame s
      rw [effect, hnotify]
      exact hcell
  | _ => exact hcell

omit [DecidableEq τ] in
theorem callStep_out
    {f : ι} {c : Call} (he : enabled token s e)
    (hcall : (s.fiber f).call = some c) (hcollect : e ≠ .collect f) :
    (callStep token s f e c).out = c.out ∧
      (callStep token s f e c).phase.isRead = c.phase.isRead := by
  have hregister : ∀ f' slot, (register token s f' slot c).out = c.out := by
    intro f' slot
    simp only [register]
    split <;> rfl
  by_cases hcaller : e.caller = some f
  case neg => rw [callStep_of_ne hcaller]; exact ⟨rfl, rfl⟩
  cases e with
  | submit f' =>
      obtain rfl := Option.some.inj hcaller
      have hphase := (State.inCall_iff hcall).mp he.2
      refine ⟨by simp [callStep], ?_⟩
      simp only [callStep, if_true, hphase]
      split <;> rfl
  | registerPool f' =>
      obtain rfl := Option.some.inj hcaller
      have hphase := (State.inCall_iff hcall).mp he.2
      simp only [callStep, if_true, hphase]
      exact ⟨hregister _ _, rfl⟩
  | registerFiber f' =>
      obtain rfl := Option.some.inj hcaller
      have hphase := ((State.inCall_iff hcall).mp he.2).1
      simp only [callStep, if_true, hphase]
      exact ⟨hregister _ _, rfl⟩
  | unregisterFiber f' =>
      obtain rfl := Option.some.inj hcaller
      have hphase := ((State.inCall_iff hcall).mp he.2).1
      simp only [callStep, if_true, hphase]
      exact ⟨rfl, rfl⟩
  | collect f' =>
      obtain rfl := Option.some.inj hcaller
      exact absurd rfl hcollect
  | invoke f' | pushCancel f' | writeCancel f' =>
      obtain rfl := Option.some.inj hcaller
      simp only [callStep, if_true, Call.setCb, and_self]
  | _ => cases hcaller

omit [DecidableEq τ] in
/-- `future.get()` reads the value of the next handler. -/
theorem Sound.collected_collect
    (h : Sound s) {f : ι} {c : Call} (hcall : (s.fiber f).call = some c)
    (hphase : c.phase = .waiting) (hready : s.ready c) :
    Collected s f (collect s c) := by
  have hc := h.collected f c hcall
  have hlt : c.out.length < c.addrs.length := hc.unread (by rw [hphase]; rfl)
  constructor
  · intro hunread
    simp only [collect, List.length_append, List.length_singleton] at hunread ⊢
    split at hunread
    next hmore => exact hmore
    next => cases hunread
  · intro hread
    simp only [collect, List.length_append, List.length_singleton] at hread ⊢
    split at hread
    next => cases hread
    next hlast => omega
  · intro i a v ha hv
    simp only [collect] at ha hv
    rcases Nat.lt_trichotomy i c.out.length with hi | rfl | hi
    · rw [List.getElem?_append_left hi] at hv
      exact hc.values i a v ha hv
    · obtain ⟨hd, hcell, -⟩ := (h.routed.each f).live _ _ _ a (opened_of_call hcall) ha
      have hnext : s.nextHandler c = some hd := by
        simp [State.nextHandler, ha, hcell]
      obtain ⟨hd', hmem, hpos⟩ := hready
      obtain rfl : hd = hd' := by simpa [hnext] using hmem
      rw [List.getElem?_concat_length, hnext] at hv
      exact ⟨hd, hcell, hpos, (Option.some.inj hv).symm⟩
    · have hlen : (c.out ++ [((s.nextHandler c).map Handler.value).getD
          0]).length ≤ i := by
        rw [List.length_append, List.length_singleton]
        omega
      rw [List.getElem?_eq_none hlen] at hv
      cases hv

theorem Sound.collected_effect
    (h : Sound s) (hlive : s.crashed = false) (he : enabled token s e)
    {f : ι} {c' : Call}
    (hcall' : ((effect token s e).fiber f).call = some c') :
    Collected (effect token s e) f c' := by
  rcases h.scheduled.call_effect hlive he hcall' with
    ⟨form, addrs, rfl, heq, rfl⟩ | ⟨hret, c, hcall, rfl, -⟩
  · have hpos : 0 < addrs.length := by
      have haccepts := he.2.2.1
      cases form <;> simp [Form.accepts] at haccepts <;> omega
    exact ⟨fun _ => hpos, by simp [Phase.isRead], by simp⟩
  by_cases hcollect : e = .collect f
  · subst hcollect
    obtain ⟨hphase, -, hready⟩ := (State.inCall_iff hcall).mp he.2
    have hstep := h.collected_collect hcall hphase hready
    simp only [callStep, if_true]
    exact ⟨hstep.unread, hstep.read, hstep.values⟩
  · obtain ⟨hout, hread⟩ := callStep_out he hcall hcollect
    have haddrs := (callStep_form_addrs token s f e c).2
    have hc := h.collected f c hcall
    constructor
    · rw [hread, hout, haddrs]
      exact hc.unread
    · rw [hread, hout, haddrs]
      exact hc.read
    · rw [hout, haddrs]
      intro i a v ha hv
      obtain ⟨hd, hcell, hpos, hval⟩ := hc.values i a v ha hv
      exact ⟨hd, h.mem_of_fulfilled he hcell hpos hret, hpos, hval⟩

theorem reachable_sound (h : (machine token).Reachable s) : Sound s :=
  reachable_invariant sound_initial
    (fun _ _ _ hI hlive he =>
      ⟨scheduled_effect hI.scheduled hlive he, hI.routed_effect hlive he,
        fun _ _ => hI.collected_effect hlive he⟩) h

/-! ## Returned calls -/

/-- The results of every call that returned are the kernel's. -/
def Answered (s : State ι τ) : Prop :=
  ∀ f n out, (f, n, out) ∈ s.returned → n < (s.fiber f).serial ∧
    ∀ i v, out[i]? = some v → s.result ⟨f, n, i⟩ = some v

omit [DecidableEq τ] in
/-- A call that has read its results has those of its own SQEs. -/
theorem Sound.result_of_read
    (h : Sound s) {f : ι} {c : Call} (hcall : (s.fiber f).call = some c)
    (hread : c.phase.isRead = true) {i a : ℕ} (ha : c.addrs[i]? = some a) :
    ∃ hd, s.mem a = some ⟨f, i, hd⟩ ∧ hd.fulfilments = 1 ∧
      s.track (s.current f i) = .none ∧ c.out[i]? = some hd.value ∧
      s.result (s.current f i) = some hd.value := by
  obtain ⟨hd, hcell, hpos, hout⟩ := (h.collected f c hcall).fulfilled hread ha
  obtain ⟨hd', hcell', hstage⟩ :=
    (h.routed.each f).live _ _ i a (opened_of_call hcall) ha
  rw [hcell] at hcell'
  obtain ⟨-, -, rfl⟩ := Cell.mk.inj (Option.some.inj hcell')
  obtain ⟨htrack, hresult⟩ := hstage.of_fulfilled hpos
  have hle := hstage.fulfilments_le_one
  exact ⟨hd, hcell, by omega, htrack, hout, hresult⟩

theorem serial_le_effect (f : ι) :
    (s.fiber f).serial ≤ ((effect token s e).fiber f).serial := by
  by_cases hprepare : ∃ form addrs, e = .prepare f form addrs
  · obtain ⟨form, addrs, rfl⟩ := hprepare
    simp only [effect, prepare, startCall]
    split <;> simp
  by_cases hret : e = .ret f
  · subst hret
    simp only [effect, ret]
    split <;> simp
  · rw [fiber_effect (fun form addrs heq => hprepare ⟨form, addrs, heq⟩) hret]

theorem Routed.result_effect
    (h : Routed s) (he : enabled token s e) {r : Rid ι}
    (hlt : r.serial < (s.fiber r.fiber).serial) :
    (effect token s e).result r = s.result r := by
  have hother : ∀ (i : ℕ) (r' : Rid ι) (a : ℕ) (zc : Bool),
      s.kernel[i]? = some (.op (.io r' a zc)) → r ≠ r' := by
    rintro i r' a zc hi rfl
    obtain ⟨-, -, -, hserial, -⟩ :=
      h.call_of_label (mem_labels_of_kernel (List.mem_of_getElem? hi) rfl)
    omega
  cases e with
  | complete i r' a zc res =>
      exact Function.update_of_ne (hother i r' a zc he) _ _
  | completeMore i r' a res =>
      exact Function.update_of_ne (hother i r' a true he) _ _
  | prepare f form addrs =>
      simp only [effect, prepare, startCall]
      split <;> rfl
  | ret f =>
      simp only [effect, ret]
      split <;> rfl
  | drain c rearm =>
      obtain ⟨_, _, _, _, _, _, _, hdrain⟩ := drain_frame s c rearm
      rw [effect, hdrain]
  | processNotify =>
      obtain ⟨_, _, _, _, _, hnotify⟩ := processNotify_frame s
      rw [effect, hnotify]
  | _ => rfl

theorem returned_effect
    {f : ι} {n : ℕ} {out : List ℤ}
    (hx : (f, n, out) ∈ (effect token s e).returned) :
    (f, n, out) ∈ s.returned ∨ (e = .ret f ∧ n = (s.fiber f).serial ∧
      ∃ c, (s.fiber f).call = some c ∧ out = c.out) := by
  cases e with
  | ret f' =>
      simp only [effect, ret] at hx
      split at hx
      next => exact Or.inl hx
      next c hcall =>
        rcases List.mem_append.mp hx with hold | hnew
        · exact Or.inl hold
        · obtain ⟨rfl, rfl, rfl⟩ : f = f' ∧ n = (s.fiber f').serial ∧
              out = c.out := by
            simpa using hnew
          exact Or.inr ⟨rfl, rfl, c, hcall, rfl⟩
  | prepare f' form addrs =>
      simp only [effect, prepare, startCall] at hx
      split at hx <;> exact Or.inl hx
  | drain c rearm =>
      obtain ⟨_, _, _, _, _, _, _, hdrain⟩ := drain_frame s c rearm
      rw [effect, hdrain] at hx
      exact Or.inl hx
  | processNotify =>
      obtain ⟨_, _, _, _, _, hnotify⟩ := processNotify_frame s
      rw [effect, hnotify] at hx
      exact Or.inl hx
  | _ => exact Or.inl hx

theorem answered_effect
    (h : Sound s) (hI : Answered s) (he : enabled token s e) :
    Answered (effect token s e) := by
  intro f n out hx
  rcases returned_effect hx with hold | ⟨rfl, rfl, c, hcall, rfl⟩
  · obtain ⟨hlt, hvalues⟩ := hI f n out hold
    refine ⟨lt_of_lt_of_le hlt (serial_le_effect f), ?_⟩
    intro i v hv
    rw [h.routed.result_effect he hlt]
    exact hvalues i v hv
  · obtain ⟨hphase, -⟩ := (State.inCall_iff hcall).mp he.2
    have hread : c.phase.isRead = true := by rw [hphase]; rfl
    simp only [effect, ret, hcall, Function.update_self]
    refine ⟨Nat.lt_succ_self _, ?_⟩
    intro i v hv
    have hlt : i < c.addrs.length := by
      rw [← (h.collected f c hcall).read hread]
      exact (List.getElem?_eq_some_iff.mp hv).1
    obtain ⟨hd, -, -, -, hout, hresult⟩ :=
      h.result_of_read hcall hread (List.getElem?_eq_getElem hlt)
    rw [hout] at hv
    rw [← hv]
    exact hresult

theorem reachable_answered
    (h : (machine token).Reachable s) : Answered s :=
  reachable_invariant (by simp [Answered, initial])
    (fun _ _ hreach hI _ he => answered_effect (reachable_sound hreach) hI he) h

/-! ## Completion routing -/

/-- In every state of every run: no CQE was ever dispatched to a dead handler;
an address that the ring holds for a request is that of its own live handler,
and the fiber is still in the call that made the request, while a CQE of no
request carries a tag; no promise is fulfilled twice; a call about to return has
had every promise fulfilled exactly once, has nothing left in the ring and has
read the kernel's result of each of its SQEs; and the results of the calls that
returned are those of the kernel, of whose requests the ring holds nothing. -/
theorem completions_routed
    (token : ι → Option τ) (s : State ι τ)
    (h : (machine token).Reachable s) :
    s.dangling = false ∧
    (∀ r a z, (r, a, z) ∈ s.labels →
      ∃ c hd, (s.fiber r.fiber).call = some c ∧
        (s.fiber r.fiber).serial = r.serial ∧ c.addrs[r.index]? = some a ∧
        s.mem a = some ⟨r.fiber, r.index, hd⟩) ∧
    (∀ c ∈ s.cq, c.rid = none → c.userData ≤ kCancelTag) ∧
    (∀ a cell, s.mem a = some cell → cell.handler.fulfilments ≤ 1) ∧
    (∀ f, (machine token).enabled s (.ret f) →
      ∃ c, (s.fiber f).call = some c ∧ c.out.length = c.addrs.length ∧
        ∀ i a, c.addrs[i]? = some a →
          ∃ hd, s.mem a = some ⟨f, i, hd⟩ ∧ hd.fulfilments = 1 ∧
            s.track (s.current f i) = .none ∧ c.out[i]? = some hd.value ∧
            s.result (s.current f i) = some hd.value) ∧
    (∀ f n out, (f, n, out) ∈ s.returned →
      (∀ i v, out[i]? = some v → s.result ⟨f, n, i⟩ = some v) ∧
        ∀ i, s.track ⟨f, n, i⟩ = .none) := by
  have hsound := reachable_sound h
  refine ⟨hsound.routed.safe, ?_, hsound.routed.tagged, ?_, ?_, ?_⟩
  · intro r a z hx
    obtain ⟨c, hd, hcall, hserial, hindex, -, hcell⟩ :=
      hsound.routed.call_of_label hx
    exact ⟨c, hd, hcall, hserial, hindex, hcell⟩
  · intro a cell hcell
    obtain ⟨zc, addrs, hopened, hindex⟩ :=
      (hsound.routed.each cell.fiber).owned a cell.index cell.handler hcell
    obtain ⟨hd, hcell', hstage⟩ :=
      (hsound.routed.each cell.fiber).live _ _ _ _ hopened hindex
    rw [hcell] at hcell'
    have hhandler : cell.handler = hd :=
      congrArg Cell.handler (Option.some.inj hcell')
    rw [hhandler]
    exact hstage.fulfilments_le_one
  · rintro f ⟨-, -, c, hcall, hphase, -⟩
    have hread : c.phase.isRead = true := by rw [hphase]; rfl
    exact ⟨c, hcall, (hsound.collected f c hcall).read hread,
      fun i a ha => hsound.result_of_read hcall hread ha⟩
  · intro f n out hx
    obtain ⟨hlt, hvalues⟩ := reachable_answered h f n out hx
    refine ⟨hvalues, fun i => ?_⟩
    rw [track_eq_none_iff]
    intro a z hlabel
    obtain ⟨_, _, -, hserial, -⟩ :=
      (hsound.routed.each f).placed ⟨f, n, i⟩ a z rfl hlabel
    exact absurd hserial (Nat.ne_of_lt hlt)

/-- Fiber `f` links two SQEs, of which the second is answered first, while
fiber `g` sends without copying. -/
def linkedAndZeroCopy (f g : ι) : List (Event ι τ) :=
  [.switch f, .prepare f .linked [8, 16], .submit f, .registerPool f,
    .registerFiber f, .block f,
    .switch g, .prepare g .sendZc [24], .submit g, .block g,
    .complete 3 ⟨f, 0, 1⟩ 16 false 7, .completeMore 3 ⟨g, 0, 0⟩ 24 5,
    .complete 2 ⟨f, 0, 0⟩ 8 false 3, .completeNotif 2 ⟨g, 0, 0⟩ 24,
    .drain ⟨16, ⟨7, false, false⟩, some ⟨f, 0, 1⟩⟩ false,
    .drain ⟨24, ⟨5, true, false⟩, some ⟨g, 0, 0⟩⟩ false,
    .drain ⟨8, ⟨3, false, false⟩, some ⟨f, 0, 0⟩⟩ false,
    .resume f, .collect f, .collect f, .unregisterFiber f, .ret f, .yield f,
    .drain ⟨24, notification, some ⟨g, 0, 0⟩⟩ false,
    .resume g, .collect g, .unregisterFiber g]

theorem completions_routed_linked_and_zero_copy :
    ∃ s : State (Fin 2) (Fin 2),
      (machine (fun _ => none)).Reachable s ∧
      s.returned = [(0, 0, [3, 7])] ∧ s.dangling = false ∧
      s.result ⟨0, 0, 0⟩ = some 3 ∧ s.result ⟨0, 0, 1⟩ = some 7 ∧
      ∃ c, (s.fiber 1).call = some c ∧ c.out.length = c.addrs.length := by
  obtain ⟨s, hs, hreturned, hret⟩ :=
    Machine.exists_reachableUnder_of_exec
      (M := machine (fun _ : Fin 2 => (none : Option (Fin 2))))
      (G := fun _ _ => True)
      (P := fun s => s.returned = [(0, 0, [3, 7])] ∧
        (machine (fun _ => none)).enabled s (.ret 1))
      rfl (linkedAndZeroCopy 0 1) (by decide)
  obtain ⟨hsafe, -, -, -, hcalls, hresults⟩ :=
    completions_routed (fun _ => none) s hs
  obtain ⟨hvalues, -⟩ := hresults 0 0 [3, 7] (by simp [hreturned])
  obtain ⟨c, hcall, hlen, -⟩ := hcalls 1 hret
  exact ⟨s, hs, hreturned, hsafe, hvalues 0 3 rfl, hvalues 1 7 rfl, c, hcall,
    hlen⟩

end Fiberexec.Ring
