import Fiberexec.Ring.StopRequest

/-!
# Bystanders

A queued cancel carries nothing but an address.  Nothing takes it out of the
queue when its operation completes first, and the address is free for a new
handler as soon as the call has returned.  So a cancel can hit the operation of
another fiber, that nobody asked to stop.  It does not as long as no fiber
begins a call at an address for which a cancel of another fiber is pending.
-/

namespace Fiberexec.Ring

open Support

variable {ι τ : Type*} [DecidableEq ι] {s : State ι τ}

/-! ## Pending cancels -/

/-- The address that a cancel aims at, and the fiber it comes from. -/
def Op.aim : Op ι → Option (ℕ × ι)
  | .cancel target origin => some (target, origin)
  | _ => none

/-- The aim of a cancel held by the kernel. -/
def Entry.aim : Entry ι → Option (ℕ × ι)
  | .op o => o.aim
  | .zcNotif _ _ => none

/-- All cancels that are queued, prepared or in the kernel. -/
def State.cancels (s : State ι τ) : List (ℕ × ι) :=
  s.cancelQueue ++ s.sq.filterMap Op.aim ++ s.kernel.filterMap Entry.aim

omit [DecidableEq ι] in
theorem mem_cancels
    {p : ℕ × ι} : p ∈ s.cancels ↔ p ∈ s.cancelQueue ∨
      (∃ o ∈ s.sq, o.aim = some p) ∨ ∃ x ∈ s.kernel, x.aim = some p := by
  simp only [State.cancels, List.mem_append, List.mem_filterMap, or_assoc]

omit [DecidableEq ι] in
theorem mem_cancels_submitAll
    {p : ℕ × ι} (h : p ∈ s.submitAll.cancels) : p ∈ s.cancels := by
  rw [mem_cancels] at h ⊢
  rcases h with hq | ⟨o, ho, -⟩ | ⟨x, hx, haim⟩
  · exact Or.inl hq
  · cases ho
  · rcases List.mem_append.mp hx with hx | hx
    · exact Or.inr (Or.inr ⟨x, hx, haim⟩)
    · obtain ⟨o, ho, rfl⟩ := List.mem_map.mp hx
      exact Or.inr (Or.inl ⟨o, ho, haim⟩)

omit [DecidableEq ι] in
theorem mem_cancels_arm
    {o : Op ι} (ho : o.aim = none) {p : ℕ × ι} (h : p ∈ (s.arm o).cancels) :
    p ∈ s.cancels := by
  simp only [State.arm] at h
  split at h
  · have hold := mem_cancels_submitAll h
    rw [mem_cancels] at hold ⊢
    rcases hold with hq | ⟨o', ho', haim⟩ | hk
    · exact Or.inl hq
    · rcases List.mem_append.mp ho' with ho' | ho'
      · exact Or.inr (Or.inl ⟨o', ho', haim⟩)
      · rw [List.mem_singleton.mp ho', ho] at haim
        cases haim
    · exact Or.inr (Or.inr hk)
  · exact h

omit [DecidableEq ι] in
theorem mem_cancels_eraseIdx
    (i : ℕ) {p : ℕ × ι}
    (h : p ∈ ({ s with kernel := s.kernel.eraseIdx i } : State ι τ).cancels) :
    p ∈ s.cancels := by
  rw [mem_cancels] at h ⊢
  rcases h with hq | hs | ⟨x, hx, haim⟩
  · exact Or.inl hq
  · exact Or.inr (Or.inl hs)
  · exact Or.inr (Or.inr ⟨x, mem_of_mem_eraseIdx hx, haim⟩)

omit [DecidableEq ι] in
theorem mem_cancels_processNotify
    {p : ℕ × ι} (h : p ∈ (processNotify s).cancels) : p ∈ s.cancels := by
  have hold := mem_cancels_arm rfl h
  rw [flushCancelQueue_eq, mem_cancels] at hold
  rw [mem_cancels]
  rcases hold with hq | ⟨o, ho, haim⟩ | hk
  · exact Or.inl (List.mem_of_mem_drop hq)
  · rcases List.mem_append.mp ho with ho | ho
    · exact Or.inr (Or.inl ⟨o, ho, haim⟩)
    · obtain ⟨q, hq, rfl⟩ := List.mem_map.mp ho
      obtain rfl := Option.some.inj haim
      exact Or.inl (List.mem_of_mem_take hq)
  · exact Or.inr (Or.inr hk)

omit [DecidableEq ι] in
theorem mem_cancels_drain
    {c : Cqe ι} {rearm : Bool} {p : ℕ × ι}
    (h : p ∈ (drain s c rearm).cancels) : p ∈ s.cancels := by
  simp only [drain] at h
  split at h
  · split at h
    · have hold := mem_cancels_arm rfl h
      exact hold
    · exact h
  · split at h
    · exact h
    · split at h
      · exact h
      · simp only [dispatch] at h
        split at h <;> exact h

theorem mem_cancels_startCall
    {f : ι} {form : Form} {addrs : List ℕ} {p : ℕ × ι}
    (h : p ∈ (startCall s f form addrs).cancels) : p ∈ s.cancels := by
  rw [mem_cancels] at h ⊢
  rcases h with hq | ⟨o, ho, haim⟩ | hk
  · exact Or.inl hq
  · simp only [startCall, List.mem_append] at ho
    rcases ho with (ho | ho) | ho
    · exact Or.inr (Or.inl ⟨o, ho, haim⟩)
    · obtain ⟨_, _, -, rfl⟩ := mem_sqesFrom_iff.mp ho
      cases haim
    · split at ho
      · rw [List.mem_singleton.mp ho] at haim
        cases haim
      · cases ho
  · exact Or.inr (Or.inr hk)

variable [DecidableEq τ] {token : ι → Option τ} {e : Event ι τ}

/-- Only `request_cancel` brings in a new cancel. -/
theorem mem_cancels_effect
    (hsched : Scheduled s) (hlive : s.crashed = false)
    (he : enabled token s e) {p : ℕ × ι}
    (h : p ∈ (effect token s e).cancels) :
    p ∈ s.cancels ∨
      ∃ slot inline todo, e = .pushCancel p.2 slot inline p.1 todo := by
  cases e with
  | prepare f form addrs =>
      rw [hsched.prepare_eq hlive he] at h
      exact Or.inl (mem_cancels_startCall h)
  | submit f => exact Or.inl (mem_cancels_submitAll h)
  | ret f =>
      simp only [effect, ret] at h
      split at h <;> exact Or.inl h
  | drain c rearm => exact Or.inl (mem_cancels_drain h)
  | processNotify => exact Or.inl (mem_cancels_processNotify h)
  | completeMore i r a res =>
      rw [mem_cancels] at h
      rw [mem_cancels]
      rcases h with hq | hs | ⟨x, hx, haim⟩
      · exact Or.inl (Or.inl hq)
      · exact Or.inl (Or.inr (Or.inl hs))
      · rcases List.mem_append.mp hx with hx | hx
        · exact Or.inl
            (Or.inr (Or.inr ⟨x, mem_of_mem_eraseIdx hx, haim⟩))
        · rw [List.mem_singleton.mp hx] at haim
          cases haim
  | complete i | completeNotif i | completeTimeout i | readNotify i
  | readWork i | cancelHit i | cancelMiss i =>
      exact Or.inl (mem_cancels_eraseIdx i h)
  | pushCancel f slot inline a todo =>
      rw [mem_cancels] at h
      rcases h with hq | hrest
      · rcases List.mem_append.mp hq with hq | hq
        · exact Or.inl (mem_cancels.mpr (Or.inl hq))
        · rw [List.mem_singleton.mp hq]
          exact Or.inr ⟨slot, inline, todo, rfl⟩
      · exact Or.inl (mem_cancels.mpr (Or.inr hrest))
  | _ => exact Or.inl h

/-! ## Requested stops -/

/-- The stop of a fiber was requested, through the pool or its own token. -/
def Stopped (token : ι → Option τ) (s : State ι τ) (f : ι) : Prop :=
  s.requested .pool = true ∨
    ∃ t, token f = some t ∧ s.requested (.token t) = true

omit [DecidableEq ι] [DecidableEq τ] in
theorem stopped_of_source
    {f : ι} {slot : Slot} {src : Source τ}
    (hsource : sourceOf token f slot = some src)
    (hrequested : s.requested src = true) : Stopped token s f := by
  cases slot with
  | pool =>
      obtain rfl := Option.some.inj hsource
      exact Or.inl hrequested
  | fiber =>
      obtain ⟨t, ht, rfl⟩ := Option.map_eq_some_iff.mp hsource
      exact Or.inr ⟨t, ht, hrequested⟩

theorem requested_effect
    {src : Source τ} (h : s.requested src = true) :
    (effect token s e).requested src = true := by
  rcases source_effect token s e src with ⟨hreq, -⟩ | ⟨-, hreq, -⟩ | ⟨-, hreq⟩
  · rw [hreq, h]
  · exact hreq
  · rw [hreq, h]

theorem Stopped.effect
    {f : ι} (h : Stopped token s f) :
    Stopped token (Ring.effect token s e) f := by
  rcases h with hpool | ⟨t, ht, htoken⟩
  · exact Or.inl (requested_effect hpool)
  · exact Or.inr ⟨t, ht, requested_effect htoken⟩

/-- Callbacks run, and cancels come, only from fibers whose stop was requested,
and a callback pushes only addresses of its own call. -/
structure Woken (token : ι → Option τ) (s : State ι τ) : Prop where
  stopping : ∀ src, s.stopping src = true → s.requested src = true
  pushing : ∀ f c slot todo, (s.fiber f).call = some c →
    (c.cb slot).pending = some todo →
      (∀ a ∈ todo, a ∈ c.addrs) ∧ Stopped token s f
  stopped : ∀ p ∈ s.cancels, Stopped token s p.2

omit [DecidableEq ι] [DecidableEq τ] in
theorem woken_initial : Woken token (initial : State ι τ) where
  stopping := by simp [initial]
  pushing := by simp [initial]
  stopped := by simp [initial, State.cancels, Entry.aim, Op.aim]

theorem Woken.pushing_effect
    (h : Woken token s) (hsched : Scheduled s) (hlive : s.crashed = false)
    (he : enabled token s e) {f : ι} {c' : Call} {slot : Slot}
    {todo : List ℕ} (hcall' : ((effect token s e).fiber f).call = some c')
    (hpending : (c'.cb slot).pending = some todo) :
    (∀ a ∈ todo, a ∈ c'.addrs) ∧ Stopped token (effect token s e) f := by
  rcases hsched.call_effect hlive he hcall' with
    ⟨form, addrs, -, -, rfl⟩ | ⟨-, c, hcall, rfl, -⟩
  · cases hpending
  rw [(callStep_form_addrs token s f e c).2]
  rcases (callbackStep_effect he hcall slot).of_pending hpending with
    ⟨rfl, src, hsource, hrequested⟩ | hold | ⟨a, hold, -⟩
  · have hreq : s.requested src = true := by
      rcases hrequested with hreq | hstop
      · exact hreq
      · exact h.stopping src hstop
    exact ⟨fun a ha => ha, (stopped_of_source hsource hreq).effect⟩
  · obtain ⟨hmem, hstopped⟩ := h.pushing f c slot todo hcall hold
    exact ⟨hmem, hstopped.effect⟩
  · obtain ⟨hmem, hstopped⟩ := h.pushing f c slot _ hcall hold
    exact ⟨fun b hb => hmem b (List.mem_cons_of_mem a hb), hstopped.effect⟩

omit [DecidableEq ι] [DecidableEq τ] in
/-- The callback that pushes an address belongs to a call that has it. -/
theorem Woken.of_pushCancel
    (h : Woken token s) {f : ι} {slot : Slot} {inline : Bool} {a : ℕ}
    {todo : List ℕ} (he : enabled token s (.pushCancel f slot inline a todo)) :
    ∃ c, (s.fiber f).call = some c ∧ a ∈ c.addrs ∧ Stopped token s f := by
  obtain ⟨c, hcall, hcb⟩ := he
  obtain ⟨hmem, hstopped⟩ :=
    h.pushing f c slot (a :: todo) hcall (by rw [hcb]; rfl)
  exact ⟨c, hcall, hmem a List.mem_cons_self, hstopped⟩

theorem woken_effect
    (h : Woken token s) (hsched : Scheduled s) (hlive : s.crashed = false)
    (he : enabled token s e) : Woken token (effect token s e) := by
  constructor
  · intro src hstop
    rcases source_effect token s e src with
      ⟨hreq, hstop'⟩ | ⟨-, hreq, -⟩ | ⟨rfl, -⟩
    · rw [hstop'] at hstop
      rw [hreq]
      exact h.stopping src hstop
    · exact hreq
    · simp [effect] at hstop
  · intro f c' slot todo hcall' hpending
    exact h.pushing_effect hsched hlive he hcall' hpending
  · intro p hp
    rcases mem_cancels_effect hsched hlive he hp with
      hold | ⟨slot, inline, todo, rfl⟩
    · exact (h.stopped p hold).effect
    · obtain ⟨_, -, -, hstopped⟩ := h.of_pushCancel he
      exact hstopped.effect

theorem reachable_woken (h : (machine token).Reachable s) : Woken token s :=
  reachable_invariant woken_initial
    (fun _ _ hreach hI hlive he =>
      woken_effect hI (reachable_scheduled hreach) hlive he) h

/-! ## Addresses that are not reused too early -/

/-- No call begins at an address for which a cancel of another fiber is
pending. -/
def freshAddresses (s : State ι τ) : Event ι τ → Prop
  | .prepare f _ addrs => ∀ p ∈ s.cancels, p.1 ∈ addrs → p.2 = f
  | _ => True

instance (s : State ι τ) (e : Event ι τ) : Decidable (freshAddresses s e) :=
  match e with
  | .prepare f _ addrs =>
      inferInstanceAs (Decidable (∀ p ∈ s.cancels, p.1 ∈ addrs → p.2 = f))
  | .switch _ | .yield _ | .submit _ | .registerPool _ | .registerFiber _
  | .block _ | .resume _ | .collect _ | .unregisterFiber _ | .ret _
  | .drain _ _ | .processNotify | .complete _ _ _ _ _ | .completeMore _ _ _ _
  | .completeNotif _ _ _ | .completeTimeout _ _ | .readNotify _ _
  | .readWork _ _ | .cancelHit _ _ _ _ _ _ | .cancelMiss _ _ _
  | .requestStop _ | .invoke _ _ _ | .finishStop _ | .pushCancel _ _ _ _ _
  | .writeCancel _ _ _ _ | .notify => .isTrue trivial

/-- A pending cancel for an address at which a handler lives comes from the
fiber of that handler, and so did every cancel that found a request. -/
structure Aimed (token : ι → Option τ) (s : State ι τ) : Prop where
  pending : ∀ p ∈ s.cancels, ∀ f c, (s.fiber f).call = some c →
    p.1 ∈ c.addrs → f = p.2
  hits : ∀ x ∈ s.cancelled, x.1.fiber = x.2 ∧ Stopped token s x.2

omit [DecidableEq ι] [DecidableEq τ] in
theorem aimed_initial : Aimed token (initial : State ι τ) where
  pending := by simp [initial]
  hits := by simp [initial]

omit [DecidableEq τ] in
theorem Routed.fiber_eq
    (h : Routed s) {f f' : ι} {c c' : Call} {a : ℕ}
    (hcall : (s.fiber f).call = some c) (ha : a ∈ c.addrs)
    (hcall' : (s.fiber f').call = some c') (ha' : a ∈ c'.addrs) : f = f' := by
  obtain ⟨i, hi⟩ := List.mem_iff_getElem?.mp ha
  obtain ⟨j, hj⟩ := List.mem_iff_getElem?.mp ha'
  obtain ⟨hd, hcell, -⟩ := (h.each f).live _ _ i a
    (opened_of_call hcall) hi
  obtain ⟨hd', hcell', -⟩ := (h.each f').live _ _ j a
    (opened_of_call hcall') hj
  rw [hcell] at hcell'
  exact (Cell.mk.inj (Option.some.inj hcell')).1

theorem cancelled_effect
    {x : Rid ι × ι} (hx : x ∈ (effect token s e).cancelled) :
    x ∈ s.cancelled ∨
      ∃ i target j zc, e = .cancelHit i target x.2 j x.1 zc := by
  cases e with
  | cancelHit i target origin j r zc =>
      rcases List.mem_append.mp hx with hold | hnew
      · exact Or.inl hold
      · rw [List.mem_singleton.mp hnew]
        exact Or.inr ⟨i, target, j, zc, rfl⟩
  | prepare f form addrs =>
      simp only [effect, prepare, startCall] at hx
      split at hx <;> exact Or.inl hx
  | ret f =>
      simp only [effect, ret] at hx
      split at hx <;> exact Or.inl hx
  | drain c rearm =>
      obtain ⟨_, _, _, _, _, _, _, hdrain⟩ := drain_frame s c rearm
      rw [effect, hdrain] at hx
      exact Or.inl hx
  | processNotify =>
      obtain ⟨_, _, _, _, _, hnotify⟩ := processNotify_frame s
      rw [effect, hnotify] at hx
      exact Or.inl hx
  | _ => exact Or.inl hx

theorem aimed_effect
    (h : Aimed token s) (hsound : Sound s) (hwoken : Woken token s)
    (hlive : s.crashed = false) (he : enabled token s e)
    (hguard : freshAddresses s e) : Aimed token (effect token s e) := by
  constructor
  · intro p hp f c' hcall' ha
    rcases mem_cancels_effect hsound.scheduled hlive he hp with
      hold | ⟨slot, inline, todo, rfl⟩
    · rcases hsound.scheduled.call_effect hlive he hcall' with
        ⟨form, addrs, rfl, -, rfl⟩ | ⟨-, c, hcall, rfl, -⟩
      · exact (hguard p hold ha).symm
      · rw [(callStep_form_addrs token s f e c).2] at ha
        exact h.pending p hold f c hcall ha
    · -- the address is pushed for a live handler of its own fiber
      obtain ⟨c₀, hcall₀, ha₀, -⟩ := hwoken.of_pushCancel he
      rcases hsound.scheduled.call_effect hlive he hcall' with
        ⟨form, addrs, hcon, -⟩ | ⟨-, c, hcall, rfl, -⟩
      · cases hcon
      · rw [(callStep_form_addrs token s f _ c).2] at ha
        exact hsound.routed.fiber_eq hcall ha hcall₀ ha₀
  · intro x hx
    rcases cancelled_effect hx with hold | ⟨i, target, j, zc, rfl⟩
    · obtain ⟨hfiber, hstopped⟩ := h.hits x hold
      exact ⟨hfiber, hstopped.effect⟩
    · obtain ⟨hi, hj⟩ := he
      have hcancel : (target, x.2) ∈ s.cancels :=
        mem_cancels.mpr (Or.inr (Or.inr ⟨_, List.mem_of_getElem? hi, rfl⟩))
      obtain ⟨c, -, hcall, -, hindex, -⟩ := hsound.routed.call_of_label
        (mem_labels_of_kernel (List.mem_of_getElem? hj) rfl)
      exact ⟨h.pending _ hcancel _ c hcall (List.mem_of_getElem? hindex),
        (hwoken.stopped _ hcancel).effect⟩

/-- In every run in which no call begins at an address for which a cancel of
another fiber is pending, a request is cancelled only by a cancel of the very
fiber that submitted it, and only if the pool's stop or that fiber's own was
requested. -/
theorem cancel_hits_own_fiber_of_freshAddresses
    (token : ι → Option τ) (s : State ι τ)
    (h : (machine token).ReachableUnder freshAddresses s) :
    ∀ r origin, (r, origin) ∈ s.cancelled →
      r.fiber = origin ∧
        (s.requested .pool = true ∨
          ∃ t, token r.fiber = some t ∧ s.requested (.token t) = true) := by
  have haimed : Aimed token s := by
    refine Machine.ReachableUnder.invariant ?_ ?_ h
    · rintro s rfl
      exact aimed_initial
    · intro s e hreach hI he hguard
      exact aimed_effect hI (reachable_sound hreach.reachable)
        (reachable_woken hreach.reachable) he.1 he.2 hguard
  intro r origin hx
  obtain ⟨hfiber, hstopped⟩ := haimed.hits (r, origin) hx
  have hfiber : r.fiber = origin := hfiber
  rw [hfiber]
  exact ⟨rfl, hstopped⟩

/-- Fiber `f` is stopped through its token `t`, and its cancel finds its
request. -/
def ownCancel (f : ι) (t : τ) : List (Event ι τ) :=
  [.switch f, .prepare f .oneShot [8], .submit f, .registerPool f,
    .registerFiber f, .block f,
    .requestStop (.token t), .invoke f .fiber (.token t),
    .pushCancel f .fiber false 8 [], .writeCancel f .fiber false [],
    .finishStop (.token t),
    .readNotify 1 true, .drain (.tagged kNotifyTag 8) false, .processNotify,
    .cancelHit 2 8 f 1 ⟨f, 0, 0⟩ false]

theorem cancel_hits_own_fiber_stopped_by_token :
    ∃ s : State (Fin 2) (Fin 2),
      (machine some).ReachableUnder freshAddresses s ∧
      (⟨0, 0, 0⟩, 0) ∈ s.cancelled ∧
      (s.requested .pool = true ∨
        ∃ t, some 0 = some t ∧ s.requested (.token t) = true) := by
  obtain ⟨s, hs, hhit⟩ :=
    Machine.exists_reachableUnder_of_exec
      (M := machine (some : Fin 2 → Option (Fin 2))) (G := freshAddresses)
      (P := fun s => (⟨0, 0, 0⟩, 0) ∈ s.cancelled) rfl (ownCancel 0 0)
      (by decide)
  exact ⟨s, hs, hhit,
    (cancel_hits_own_fiber_of_freshAddresses some s hs _ _ hhit).2⟩

/-- The stop of fiber `f` is requested after its operation completed.  Its call
returns with the address still queued; fiber `g` begins a call at that address,
and only then the queue is flushed. -/
def staleCancel (f g : ι) (t : τ) : List (Event ι τ) :=
  [.switch f, .prepare f .oneShot [8], .submit f, .registerPool f,
    .registerFiber f, .block f,
    .complete 2 ⟨f, 0, 0⟩ 8 false 0,
    .drain ⟨8, ⟨0, false, false⟩, some ⟨f, 0, 0⟩⟩ false,
    .requestStop (.token t), .invoke f .fiber (.token t),
    .pushCancel f .fiber false 8 [], .writeCancel f .fiber false [],
    .finishStop (.token t),
    .resume f, .collect f, .unregisterFiber f, .ret f, .yield f,
    .switch g, .prepare g .oneShot [8], .submit g, .registerPool g,
    .registerFiber g, .block g,
    .readNotify 1 true, .drain (.tagged kNotifyTag 8) false, .processNotify,
    .cancelHit 2 8 f 1 ⟨g, 0, 0⟩ false]

/-- A request of fiber 1 is cancelled by the cancel of fiber 0, while neither
the pool's stop nor that of fiber 1 was requested. -/
theorem stale_cancel_hits_bystander :
    ∃ s : State (Fin 2) (Fin 2), (machine some).Reachable s ∧
      (⟨1, 0, 0⟩, 0) ∈ s.cancelled ∧ s.requested .pool = false ∧
      s.requested (.token 1) = false := by
  obtain ⟨s, hs, hhit⟩ :=
    Machine.exists_reachableUnder_of_exec
      (M := machine (some : Fin 2 → Option (Fin 2))) (G := fun _ _ => True)
      (P := fun s => (⟨1, 0, 0⟩, 0) ∈ s.cancelled ∧
        s.requested .pool = false ∧ s.requested (.token 1) = false)
      rfl (staleCancel 0 1 0) (by decide)
  exact ⟨s, hs, hhit⟩

end Fiberexec.Ring
