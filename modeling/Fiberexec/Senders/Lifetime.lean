import Fiberexec.Senders.Operation

/-!
# The life of an operation state

An operation completes its receiver once, and in the way its callable ended.
Nobody uses the operation state after its end: `start()` is through with it when
the task is posted, the fiber when it has completed the receiver, and the
destructor waits for a stop callback that is running.
-/

namespace Fiberexec.Senders

open Support

variable {σ κ V X : Type}

/-! ## Where an operation can be -/

/-- Whether the receiver is completed, by where the fiber is. -/
def Fiber.completed (kind : Kind) : Fiber V X → Bool
  | .unposted | .queued | .completing _ => false
  | .running _ | .waiting _ => kind == .schedule
  | .returned => true

/-- Whether the task has begun. -/
def Fiber.entered : Fiber V X → Bool
  | .unposted | .queued => false
  | _ => true

/-- `stop_cb_` once it is registered, the state of `fiber_stop_` and the life of
the operation state. -/
inductive Watch (requested : Bool) : Callback → Option Bool → Life → Prop
  | registered : Watch requested .registered (some false) .alive
  | running {life : Life} (hrequested : requested = true)
      (hlife : life ≠ .destroyed) :
      Watch requested .running (some false) life
  | forwarded {life : Life} (hrequested : requested = true)
      (hlife : life ≠ .destroyed) :
      Watch requested .forwarded (some true) life
  | ran {life : Life} (hrequested : requested = true) :
      Watch requested .ran (some true) life
  | removed {life : Life} (hlife : life ≠ .alive) :
      Watch requested .removed (some false) life

/-- The bridge between the receiver's stop source and `fiber_stop_`. -/
inductive Bridge (c : Setup σ V X) (requested : Bool) (o : Op V X) : Prop
  | idle (hstarter : o.starter = .idle) (hcallback : o.callback = .absent)
      (hstop : o.fiberStop = none)
  | bridging (hstarter : o.starter = .bridging) (hsource : c.source ≠ none)
      (hcallback : o.callback = .absent) (hstop : o.fiberStop = some false)
  | unbridged (hstarter : o.starter = .posting ∨ o.starter = .done)
      (hsource : c.source = none) (hcallback : o.callback = .absent)
      (hstop : o.fiberStop = none)
  | bridged (hstarter : o.starter = .posting ∨ o.starter = .done)
      (hsource : c.source ≠ none)
      (hwatch : Watch requested o.callback o.fiberStop o.life)

/-- The task, the completion and the life of the operation state. -/
inductive Delivery (c : Setup σ V X) (o : Op V X) : Prop
  | unposted (hstarter : o.starter ≠ .done) (hfiber : o.fiber = .unposted)
      (hreceived : o.received = [])
      (hlife : o.starter ≠ .idle → o.life = .alive)
  | pending (hstarter : o.starter = .done) (hfiber : o.fiber ≠ .unposted)
      (hcompleted : o.fiber.completed c.kind = false)
      (hreceived : o.received = []) (hlife : o.life = .alive)
  | completed (hstarter : o.starter = .done)
      (hcompleted : o.fiber.completed c.kind = true)
      (hreceived : o.received.length = 1)

/-- How a `run` operation completes after what its callable was told. -/
def Explains (c : Setup σ V X) (o : Op V X) (x : Completion V X) : Prop :=
  if o.unwound = true then x = .setStopped
  else (c.body.feed o.replies).completion? = some x

/-- The fiber is where the callable is after what it was told. -/
def Replay (c : Setup σ V X) (o : Op V X) : Prop :=
  match o.fiber with
  | .unposted | .queued => o.replies = [] ∧ o.unwound = false
  | .running b => o.unwound = false ∧ c.body.feed o.replies = b
  | .waiting k =>
      o.unwound = false ∧ ∃ checks, c.body.feed o.replies = .call checks k
  | .completing x =>
      match c.kind with
      | .schedule => o.replies = [] ∧ o.unwound = false ∧ x = .setValue none
      | .run => Explains c o x
  | .returned => c.kind = .run → ∀ x ∈ o.received, Explains c o x

/-- All that is known of an operation of a run. -/
structure Sound (c : Setup σ V X) (requested : Bool) (o : Op V X) : Prop where
  bridge : Bridge c requested o
  delivery : Delivery c o
  replay : Replay c o
  scheduled : c.kind = .schedule → ∀ x ∈ o.received, x = .setValue none
  token : o.fiber.entered = true → o.token = o.fiberStop.isSome
  fault : o.fault = false

theorem Kind.ne_schedule {kind : Kind} : kind ≠ .schedule ↔ kind = .run := by
  cases kind <;> decide

theorem Op.touch_of_live {o : Op V X} (h : o.life ≠ .destroyed) :
    o.touch = o :=
  if_neg h

@[simp] theorem Op.starter_touch (o : Op V X) : o.touch.starter = o.starter := by
  rw [touch]
  split <;> rfl

@[simp] theorem Op.callback_touch (o : Op V X) : o.touch.callback = o.callback := by
  rw [touch]
  split <;> rfl

@[simp] theorem Op.fiberStop_touch (o : Op V X) :
    o.touch.fiberStop = o.fiberStop := by
  rw [touch]
  split <;> rfl

@[simp] theorem Op.fiber_touch (o : Op V X) : o.touch.fiber = o.fiber := by
  rw [touch]
  split <;> rfl

@[simp] theorem Op.received_touch (o : Op V X) : o.touch.received = o.received := by
  rw [touch]
  split <;> rfl

@[simp] theorem Op.life_touch (o : Op V X) : o.touch.life = o.life := by
  rw [touch]
  split <;> rfl

@[simp] theorem Op.replies_touch (o : Op V X) : o.touch.replies = o.replies := by
  rw [touch]
  split <;> rfl

theorem Body.feed_append
    {b : Body V X} {replies : List Reply} {checks : Bool} {k : Reply → Body V X}
    (h : b.feed replies = .call checks k) (res : Reply) :
    b.feed (replies ++ [res]) = k res := by
  rw [feed, List.foldl_append]
  change (b.feed replies).reply res = k res
  rw [h]
  rfl

section Places

variable {f : Fiber V X}

theorem Fiber.eq_queued (h : f.atEntry = true) : f = .queued := by
  cases f <;> simp_all [atEntry]

theorem Fiber.eq_call (h : f.atCall = true) :
    ∃ checks k, f = .running (.call checks k) := by
  cases f with
  | running b => cases b <;> simp_all [atCall]
  | _ => simp [atCall] at h

theorem Fiber.eq_waiting (h : f.atWait = true) : ∃ k, f = .waiting k := by
  cases f <;> simp_all [atWait]

theorem Fiber.eq_end (h : f.atEnd = true) :
    ∃ b x, f = .running b ∧ b.completion? = some x := by
  cases f with
  | running b => simpa [atEnd, Option.isSome_iff_exists] using h
  | _ => simp [atEnd] at h

theorem Fiber.eq_completing (h : f.atCompletion = true) :
    ∃ x, f = .completing x := by
  cases f <;> simp_all [atCompletion]

end Places

/-! ## What a step does -/

/-- What a step does to an operation whose state is still there when it is used,
with one case for each way that it can go. -/
inductive Moves (c : Setup σ V X) (requested : Bool) (o : Op V X) :
    Op V X → Prop
  | bridge (hstarter : o.starter = .idle) (hlife : o.life = .alive)
      (hsource : c.source ≠ none) :
      Moves c requested o
        { o with starter := .bridging, fiberStop := some false }
  | skip (hstarter : o.starter = .idle) (hlife : o.life = .alive)
      (hsource : c.source = none) :
      Moves c requested o { o with starter := .posting }
  | registerLate (hstarter : o.starter = .bridging)
      (hrequested : requested = true) :
      Moves c requested o
        { o with
          fiberStop := some true
          starter := .posting
          callback := .ran }
  | register (hstarter : o.starter = .bridging) (hlife : o.life = .alive) :
      Moves c requested o
        { o with starter := .posting, callback := .registered }
  | post (hstarter : o.starter = .posting) :
      Moves c requested o { o with starter := .done, fiber := .queued }
  | callbackBegin (hcallback : o.callback = .registered)
      (hrequested : requested = true) :
      Moves c requested o { o with callback := .running }
  | callbackForward (hcallback : o.callback = .running) :
      Moves c requested o
        { o with fiberStop := some true, callback := .forwarded }
  | callbackEnd (hcallback : o.callback = .forwarded) :
      Moves c requested o { o with callback := .ran }
  | enterSchedule (hfiber : o.fiber = .queued) (hkind : c.kind = .schedule) :
      Moves c requested o
        { o with
          token := o.fiberStop.isSome
          fiber := .completing (.setValue none) }
  | enterRun (hfiber : o.fiber = .queued) (hkind : c.kind = .run) :
      Moves c requested o
        { o with token := o.fiberStop.isSome, fiber := .running c.body }
  | refuse {checks : Bool} {k : Reply → Body V X}
      (hfiber : o.fiber = .running (.call checks k))
      (hstop : checks = true ∧ o.stopRequested = true) :
      Moves c requested o
        { o with
          fiber := .running (k (.error ecanceled))
          replies := o.replies ++ [.error ecanceled] }
  | wait {checks : Bool} {k : Reply → Body V X}
      (hfiber : o.fiber = .running (.call checks k))
      (hstop : ¬(checks = true ∧ o.stopRequested = true)) :
      Moves c requested o { o with fiber := .waiting k }
  | answer {k : Reply → Body V X} (res : Reply) (hfiber : o.fiber = .waiting k) :
      Moves c requested o
        { o with fiber := .running (k res), replies := o.replies ++ [res] }
  | unwindSchedule {k : Reply → Body V X} (hfiber : o.fiber = .waiting k)
      (hkind : c.kind = .schedule) :
      Moves c requested o { o with fiber := .returned, unwound := true }
  | unwindRun {k : Reply → Body V X} (hfiber : o.fiber = .waiting k)
      (hkind : c.kind = .run) :
      Moves c requested o
        { o with fiber := .completing .setStopped, unwound := true }
  | leaveSchedule {b : Body V X} (hfiber : o.fiber = .running b)
      (hkind : c.kind = .schedule) :
      Moves c requested o { o with fiber := .returned }
  | leaveRun {b : Body V X} {x : Completion V X} (hfiber : o.fiber = .running b)
      (hbody : b.completion? = some x) (hkind : c.kind = .run) :
      Moves c requested o { o with fiber := .completing x }
  | completeSchedule {x : Completion V X} (hfiber : o.fiber = .completing x)
      (hkind : c.kind = .schedule) :
      Moves c requested o
        { o with received := o.received ++ [x], fiber := .running c.body }
  | completeRun {x : Completion V X} (hfiber : o.fiber = .completing x)
      (hkind : c.kind = .run) :
      Moves c requested o
        { o with received := o.received ++ [x], fiber := .returned }
  | destroyRegistered (hlife : o.life = .alive)
      (hend : o.starter = .idle ∨ o.received ≠ [])
      (hcallback : o.callback = .registered) :
      Moves c requested o
        { o with life := .destroying, callback := .removed }
  | destroy (hlife : o.life = .alive)
      (hend : o.starter = .idle ∨ o.received ≠ [])
      (hcallback : o.callback ≠ .registered) :
      Moves c requested o { o with life := .destroying }
  | destroyEnd (hlife : o.life = .destroying) (hrunning : o.callback ≠ .running)
      (hforwarded : o.callback ≠ .forwarded) :
      Moves c requested o { o with life := .destroyed }

section Live

variable {c : Setup σ V X} {requested : Bool} {o : Op V X}

/-- An operation that is started is there until its receiver is completed. -/
theorem Delivery.life_eq_alive
    (h : Delivery c o) (hstarter : o.starter ≠ .idle)
    (hcompleted : o.fiber.completed c.kind = false) : o.life = .alive := by
  cases h with
  | unposted _ _ _ hlife => exact hlife hstarter
  | pending _ _ _ _ hlife => exact hlife
  | completed _ h _ => rw [hcompleted] at h; cases h

theorem Delivery.fiber_of_starting
    (h : Delivery c o) (hdone : o.starter ≠ .done) : o.fiber = .unposted := by
  cases h with
  | unposted _ hfiber _ _ => exact hfiber
  | pending hstarter _ _ _ _ | completed hstarter _ _ =>
      exact absurd hstarter hdone

theorem Delivery.starter_ne_idle
    (h : Delivery c o) (hfiber : o.fiber ≠ .unposted) :
    o.starter ≠ .idle := by
  cases h with
  | unposted _ hunposted _ _ => exact absurd hunposted hfiber
  | pending hstarter _ _ _ _ | completed hstarter _ _ => simp [hstarter]

theorem Watch.of_running
    {stop : Option Bool} {life : Life}
    (h : Watch requested .running stop life) :
    stop = some false ∧ requested = true ∧ life ≠ .destroyed := by
  cases h with
  | running hrequested hlife => exact ⟨rfl, hrequested, hlife⟩

theorem Watch.isSome
    {callback : Callback} {stop : Option Bool} {life : Life}
    (h : Watch requested callback stop life) : stop.isSome = true := by
  cases h <;> rfl

theorem Bridge.life_ne_destroyed
    (h : Bridge c requested o) (hcallback : o.callback = .running) :
    o.life ≠ .destroyed := by
  cases h with
  | idle _ habsent _ | bridging _ _ habsent _ | unbridged _ _ habsent _ =>
      rw [hcallback] at habsent
      cases habsent
  | bridged _ _ hwatch =>
      rw [hcallback] at hwatch
      exact hwatch.of_running.2.2

theorem Delivery.alive_of_starting
    (h : Delivery c o) (hidle : o.starter ≠ .idle) (hdone : o.starter ≠ .done) :
    o.life = .alive := by
  cases h with
  | unposted _ _ _ hlife => exact hlife hidle
  | pending hstarter _ _ _ _ | completed hstarter _ _ =>
      exact absurd hstarter hdone

theorem Delivery.touch_fiber
    (h : Delivery c o) (hfiber : o.fiber ≠ .unposted)
    (hcompleted : o.fiber.completed c.kind = false) : o.touch = o := by
  refine Op.touch_of_live ?_
  simp [h.life_eq_alive (h.starter_ne_idle hfiber) hcompleted]

end Live

section Steps

variable {setup : κ → Setup σ V X} {s : State σ κ V X} {i : κ}

theorem stepBody_eq
    {c : Setup σ V X} {o : Op V X} (h : Delivery c o) {fiber : Fiber V X}
    (hfiber : o.fiber ≠ .unposted)
    (hcompleted : c.kind = .run → o.fiber.completed c.kind = false) :
    o.stepBody c fiber = { o with fiber := fiber } := by
  rw [Op.stepBody]
  cases hkind : c.kind with
  | schedule => rfl
  | run => simp only [h.touch_fiber hfiber (hcompleted hkind)]

/-- Every enabled step is one of these moves. -/
theorem moves_step
    {e : Event σ κ} (he : enabled setup s e) (hi : e.op? = some i)
    (h : Sound (setup i) (s.sourceRequested setup i) (s.op i)) :
    Moves (setup i) (s.sourceRequested setup i) (s.op i)
      (s.step setup i (s.op i) e) := by
  obtain ⟨hbridge, hdelivery, -, -, -, -⟩ := h
  cases e with
  | requestStop src => cases hi
  | start j =>
      cases hi
      have htouch : (s.op i).touch = s.op i :=
        Op.touch_of_live (by simp [he.2])
      simp only [State.step, Op.start, htouch]
      split
      next src hsource => exact .bridge he.1 he.2 (by simp [hsource])
      next hsource => exact .skip he.1 he.2 hsource
  | register j =>
      cases hi
      have hstarter : (s.op i).starter = .bridging := he
      have hlife := hdelivery.alive_of_starting (by simp [hstarter])
        (by simp [hstarter])
      have htouch : (s.op i).touch = s.op i := Op.touch_of_live (by simp [hlife])
      simp only [State.step, Op.register, Op.forward, htouch]
      split
      next hrequested => exact .registerLate hstarter hrequested
      next => exact .register hstarter hlife
  | post j =>
      cases hi
      have hstarter : (s.op i).starter = .posting := he
      have hlife := hdelivery.alive_of_starting (by simp [hstarter])
        (by simp [hstarter])
      have htouch : (s.op i).touch = s.op i := Op.touch_of_live (by simp [hlife])
      simp only [State.step, Op.post, htouch]
      exact .post hstarter
  | callbackBegin j =>
      cases hi
      exact .callbackBegin he.1 he.2
  | callbackForward j =>
      cases hi
      have htouch := Op.touch_of_live (hbridge.life_ne_destroyed he)
      simp only [State.step, Op.forward, htouch]
      exact .callbackForward he
  | callbackEnd j =>
      cases hi
      exact .callbackEnd he
  | enter j =>
      cases hi
      have hfiber := Fiber.eq_queued he
      have htouch := hdelivery.touch_fiber (by simp [hfiber])
        (by simp [hfiber, Fiber.completed])
      simp only [State.step, Op.enter, htouch]
      cases hkind : (setup i).kind with
      | schedule => exact .enterSchedule hfiber hkind
      | run => exact .enterRun hfiber hkind
  | call j =>
      cases hi
      obtain ⟨checks, k, hfiber⟩ := Fiber.eq_call he
      have hstep : ∀ fiber, (s.op i).stepBody (setup i) fiber =
          { s.op i with fiber := fiber } := fun fiber =>
        stepBody_eq hdelivery (by simp [hfiber])
          (fun hkind => by simp [hfiber, Fiber.completed, hkind])
      simp only [State.step, hfiber, Op.call, hstep]
      split
      next hstop => exact .refuse hfiber hstop
      next hstop => exact .wait hfiber hstop
  | answer j res =>
      cases hi
      obtain ⟨k, hfiber⟩ := Fiber.eq_waiting he
      have hstep : (s.op i).stepBody (setup i) (.running (k res)) =
          { s.op i with fiber := .running (k res) } := stepBody_eq hdelivery
        (by simp [hfiber])
        (fun hkind => by simp [hfiber, Fiber.completed, hkind])
      simp only [State.step, hfiber, Op.answer, hstep]
      exact .answer res hfiber
  | unwind j =>
      cases hi
      obtain ⟨k, hfiber⟩ := Fiber.eq_waiting he
      simp only [State.step, Op.leave]
      cases hkind : (setup i).kind with
      | schedule => exact .unwindSchedule hfiber hkind
      | run =>
          have htouch := hdelivery.touch_fiber (by simp [hfiber])
            (by simp [hfiber, Fiber.completed, hkind])
          simp only [htouch]
          exact .unwindRun hfiber hkind
  | leave j =>
      cases hi
      obtain ⟨b, x, hfiber, hx⟩ := Fiber.eq_end he
      simp only [State.step, hfiber, hx, Op.leave]
      cases hkind : (setup i).kind with
      | schedule => exact .leaveSchedule hfiber hkind
      | run =>
          have htouch := hdelivery.touch_fiber (by simp [hfiber])
            (by simp [hfiber, Fiber.completed, hkind])
          simp only [htouch]
          exact .leaveRun hfiber hx hkind
  | complete j =>
      cases hi
      obtain ⟨x, hfiber⟩ := Fiber.eq_completing he
      have htouch := hdelivery.touch_fiber (by simp [hfiber])
        (by simp [hfiber, Fiber.completed])
      simp only [State.step, hfiber, Op.complete, htouch]
      cases hkind : (setup i).kind with
      | schedule => exact .completeSchedule hfiber hkind
      | run => exact .completeRun hfiber hkind
  | destroyBegin j =>
      cases hi
      simp only [State.step, Op.destroyBegin]
      split
      next hcallback => exact .destroyRegistered he.1 he.2 hcallback
      next hcallback => exact .destroy he.1 he.2 hcallback
  | destroyEnd j =>
      cases hi
      exact .destroyEnd he.1 he.2.1 he.2.2

end Steps

/-! ## What every step keeps -/

section Kept

variable {c : Setup σ V X} {requested : Bool} {o o' : Op V X}

theorem Bridge.congr
    (h : Bridge c requested o) (hstarter : o'.starter = o.starter)
    (hcallback : o'.callback = o.callback)
    (hstop : o'.fiberStop = o.fiberStop) (hlife : o'.life = o.life) :
    Bridge c requested o' := by
  cases h with
  | idle h₁ h₂ h₃ =>
      exact .idle (hstarter.trans h₁) (hcallback.trans h₂) (hstop.trans h₃)
  | bridging h₁ h₂ h₃ h₄ =>
      exact .bridging (hstarter.trans h₁) h₂ (hcallback.trans h₃)
        (hstop.trans h₄)
  | unbridged h₁ h₂ h₃ h₄ =>
      exact .unbridged (hstarter ▸ h₁) h₂ (hcallback.trans h₃)
        (hstop.trans h₄)
  | bridged h₁ h₂ h₃ =>
      exact .bridged (hstarter ▸ h₁) h₂ (by rwa [hcallback, hstop, hlife])

/-- A callback that is registered finds the bridge. -/
theorem Bridge.watch
    (h : Bridge c requested o) (hcallback : o.callback ≠ .absent) :
    (o.starter = .posting ∨ o.starter = .done) ∧ c.source ≠ none ∧
      Watch requested o.callback o.fiberStop o.life := by
  cases h with
  | idle _ habsent _ | bridging _ _ habsent _ | unbridged _ _ habsent _ =>
      exact absurd habsent hcallback
  | bridged hstarter hsource hwatch => exact ⟨hstarter, hsource, hwatch⟩

theorem Watch.requested_of_forwarded
    {stop : Option Bool} {life : Life}
    (h : Watch requested .forwarded stop life) :
    requested = true ∧ stop = some true := by
  cases h with
  | forwarded hrequested _ => exact ⟨hrequested, rfl⟩

theorem Watch.of_registered
    {stop : Option Bool} {life : Life}
    (h : Watch requested .registered stop life) :
    stop = some false ∧ life = .alive := by
  cases h with
  | registered => exact ⟨rfl, rfl⟩

/-- The destructor begins while the callback is not registered any more. -/
theorem Watch.destroying
    {callback : Callback} {stop : Option Bool} {life : Life}
    (h : Watch requested callback stop life)
    (hcallback : callback ≠ .registered) :
    Watch requested callback stop .destroying := by
  cases h with
  | registered => exact absurd rfl hcallback
  | running hrequested _ => exact .running hrequested (by decide)
  | forwarded hrequested _ => exact .forwarded hrequested (by decide)
  | ran hrequested => exact .ran hrequested
  | removed _ => exact .removed (by decide)

theorem Watch.destroyed
    {callback : Callback} {stop : Option Bool}
    (h : Watch requested callback stop .destroying)
    (hrunning : callback ≠ .running) (hforwarded : callback ≠ .forwarded) :
    Watch requested callback stop .destroyed := by
  cases h with
  | running _ _ => exact absurd rfl hrunning
  | forwarded _ _ => exact absurd rfl hforwarded
  | ran hrequested => exact .ran hrequested
  | removed _ => exact .removed (by decide)

theorem Bridge.moves
    (h : Bridge c requested o) (hmove : Moves c requested o o') :
    Bridge c requested o' := by
  cases hmove with
  | bridge hstarter _ hsource =>
      cases h with
      | idle _ habsent _ => exact .bridging rfl hsource habsent rfl
      | bridging h _ _ _ => rw [hstarter] at h; cases h
      | unbridged h _ _ _ | bridged h _ _ => simp [hstarter] at h
  | skip hstarter _ hsource =>
      cases h with
      | idle _ habsent hstop => exact .unbridged (.inl rfl) hsource habsent hstop
      | bridging h _ _ _ => rw [hstarter] at h; cases h
      | unbridged h _ _ _ | bridged h _ _ => simp [hstarter] at h
  | registerLate hstarter hrequested =>
      cases h with
      | idle h _ _ => rw [hstarter] at h; cases h
      | bridging _ hsource _ _ =>
          exact .bridged (.inl rfl) hsource (.ran hrequested)
      | unbridged h _ _ _ | bridged h _ _ => simp [hstarter] at h
  | register hstarter hlife =>
      cases h with
      | idle h _ _ => rw [hstarter] at h; cases h
      | bridging _ hsource _ hstop =>
          refine .bridged (.inl rfl) hsource ?_
          simp only [hstop, hlife]
          exact .registered
      | unbridged h _ _ _ | bridged h _ _ => simp [hstarter] at h
  | post hstarter =>
      cases h with
      | idle h _ _ | bridging h _ _ _ => rw [hstarter] at h; cases h
      | unbridged _ hsource habsent hstop =>
          exact .unbridged (.inr rfl) hsource habsent hstop
      | bridged _ hsource hwatch => exact .bridged (.inr rfl) hsource hwatch
  | callbackBegin hcallback hrequested =>
      obtain ⟨hstarter, hsource, hwatch⟩ := h.watch (by simp [hcallback])
      rw [hcallback] at hwatch
      obtain ⟨hstop, hlife⟩ := hwatch.of_registered
      refine .bridged hstarter hsource ?_
      simp only [hstop, hlife]
      exact .running hrequested (by decide)
  | callbackForward hcallback =>
      obtain ⟨hstarter, hsource, hwatch⟩ := h.watch (by simp [hcallback])
      rw [hcallback] at hwatch
      obtain ⟨-, hrequested, hlife⟩ := hwatch.of_running
      exact .bridged hstarter hsource (.forwarded hrequested hlife)
  | callbackEnd hcallback =>
      obtain ⟨hstarter, hsource, hwatch⟩ := h.watch (by simp [hcallback])
      rw [hcallback] at hwatch
      obtain ⟨hrequested, hstop⟩ := hwatch.requested_of_forwarded
      refine .bridged hstarter hsource ?_
      simp only [hstop]
      exact .ran hrequested
  | destroyRegistered hlife _ hcallback =>
      obtain ⟨hstarter, hsource, hwatch⟩ := h.watch (by simp [hcallback])
      rw [hcallback] at hwatch
      refine .bridged hstarter hsource ?_
      simp only [hwatch.of_registered.1]
      exact .removed (by decide)
  | destroy _ _ hcallback =>
      cases h with
      | idle h₁ h₂ h₃ => exact .idle h₁ h₂ h₃
      | bridging h₁ h₂ h₃ h₄ => exact .bridging h₁ h₂ h₃ h₄
      | unbridged h₁ h₂ h₃ h₄ => exact .unbridged h₁ h₂ h₃ h₄
      | bridged h₁ h₂ hwatch => exact .bridged h₁ h₂ (hwatch.destroying hcallback)
  | destroyEnd hlife hrunning hforwarded =>
      cases h with
      | idle h₁ h₂ h₃ => exact .idle h₁ h₂ h₃
      | bridging h₁ h₂ h₃ h₄ => exact .bridging h₁ h₂ h₃ h₄
      | unbridged h₁ h₂ h₃ h₄ => exact .unbridged h₁ h₂ h₃ h₄
      | bridged h₁ h₂ hwatch =>
          rw [hlife] at hwatch
          exact .bridged h₁ h₂ (hwatch.destroyed hrunning hforwarded)
  | _ => exact h.congr rfl rfl rfl rfl

theorem Watch.mono
    {callback : Callback} {stop : Option Bool} {life : Life} {later : Bool}
    (h : Watch requested callback stop life)
    (hlater : requested = true → later = true) :
    Watch later callback stop life := by
  cases h with
  | registered => exact .registered
  | running hrequested hlife => exact .running (hlater hrequested) hlife
  | forwarded hrequested hlife => exact .forwarded (hlater hrequested) hlife
  | ran hrequested => exact .ran (hlater hrequested)
  | removed hlife => exact .removed hlife

theorem Bridge.mono
    {later : Bool} (h : Bridge c requested o)
    (hlater : requested = true → later = true) : Bridge c later o := by
  cases h with
  | idle h₁ h₂ h₃ => exact .idle h₁ h₂ h₃
  | bridging h₁ h₂ h₃ h₄ => exact .bridging h₁ h₂ h₃ h₄
  | unbridged h₁ h₂ h₃ h₄ => exact .unbridged h₁ h₂ h₃ h₄
  | bridged h₁ h₂ hwatch => exact .bridged h₁ h₂ (hwatch.mono hlater)

/-- A step that leaves alone what `Delivery` speaks of, but for the fiber, which
it takes to a place of the same kind. -/
theorem Delivery.congr
    (h : Delivery c o) (hstarter : o'.starter = o.starter)
    (hreceived : o'.received = o.received) (hlife : o'.life = o.life)
    (hunposted : o'.fiber = .unposted ↔ o.fiber = .unposted)
    (hcompleted : o'.fiber.completed c.kind = o.fiber.completed c.kind) :
    Delivery c o' := by
  cases h with
  | unposted h₁ h₂ h₃ h₄ =>
      exact .unposted (hstarter ▸ h₁) (hunposted.mpr h₂) (hreceived.trans h₃)
        (fun h => hlife.trans (h₄ (hstarter ▸ h)))
  | pending h₁ h₂ h₃ h₄ h₅ =>
      exact .pending (hstarter.trans h₁) (mt hunposted.mp h₂)
        (hcompleted.trans h₃) (hreceived.trans h₄) (hlife.trans h₅)
  | completed h₁ h₂ h₃ =>
      exact .completed (hstarter.trans h₁) (hcompleted.trans h₂)
        (by rwa [hreceived])

theorem Delivery.starting
    (h : Delivery c o) (hidle : o.starter = .idle → o.life = .alive)
    (hdone : o.starter ≠ .done) (hstarter : o'.starter ≠ .done)
    (hfiber : o'.fiber = o.fiber) (hreceived : o'.received = o.received)
    (hlife : o'.life = o.life) : Delivery c o' := by
  cases h with
  | unposted _ h₂ h₃ h₄ =>
      refine .unposted hstarter (hfiber.trans h₂) (hreceived.trans h₃) fun _ => ?_
      rw [hlife]
      by_cases hstart : o.starter = .idle
      · exact hidle hstart
      · exact h₄ hstart
  | pending h _ _ _ _ | completed h _ _ => exact absurd h hdone

/-- The receiver is completed at most once, since the fiber is still to do it. -/
theorem Delivery.received_of_completing
    {x : Completion V X} (h : Delivery c o) (hfiber : o.fiber = .completing x) :
    o.starter = .done ∧ o.received = [] := by
  cases h with
  | unposted _ h _ _ => rw [hfiber] at h; cases h
  | pending hstarter _ _ hreceived _ => exact ⟨hstarter, hreceived⟩
  | completed _ h _ => rw [hfiber] at h; cases h

theorem Delivery.moves
    (h : Delivery c o) (hmove : Moves c requested o o') : Delivery c o' := by
  cases hmove with
  | bridge hstarter hlife _ | skip hstarter hlife _ =>
      exact h.starting (fun _ => hlife) (by simp [hstarter]) (by simp) rfl rfl rfl
  | registerLate hstarter _ | register hstarter _ =>
      exact h.starting (by simp [hstarter]) (by simp [hstarter]) (by simp) rfl rfl
        rfl
  | post hstarter =>
      cases h with
      | unposted _ _ hreceived hlife =>
          exact .pending rfl (by simp) rfl hreceived
            (hlife (by simp [hstarter]))
      | pending h _ _ _ _ | completed h _ _ => rw [hstarter] at h; cases h
  | callbackBegin _ _ | callbackForward _ | callbackEnd _ =>
      exact h.congr rfl rfl rfl Iff.rfl rfl
  | completeSchedule hfiber hkind =>
      obtain ⟨hstarter, hreceived⟩ := h.received_of_completing hfiber
      exact .completed hstarter (by simp [Fiber.completed, hkind])
        (by simp [hreceived])
  | completeRun hfiber hkind =>
      obtain ⟨hstarter, hreceived⟩ := h.received_of_completing hfiber
      exact .completed hstarter rfl (by simp [hreceived])
  | destroyRegistered _ hend _ | destroy _ hend _ =>
      cases h with
      | unposted h₁ h₂ h₃ _ =>
          refine .unposted h₁ h₂ h₃ fun hidle => ?_
          exact absurd (hend.resolve_right (by simp [h₃])) hidle
      | pending h _ _ hreceived _ => simp [h, hreceived] at hend
      | completed h₁ h₂ h₃ => exact .completed h₁ h₂ h₃
  | destroyEnd hlife _ _ =>
      cases h with
      | unposted h₁ h₂ h₃ h₄ =>
          refine .unposted h₁ h₂ h₃ fun hidle => ?_
          rw [h₄ hidle] at hlife
          cases hlife
      | pending _ _ _ _ h => rw [h] at hlife; cases hlife
      | completed h₁ h₂ h₃ => exact .completed h₁ h₂ h₃
  | enterSchedule hfiber hkind | enterRun hfiber hkind
  | unwindSchedule hfiber hkind | unwindRun hfiber hkind
  | leaveSchedule hfiber hkind =>
      exact h.congr rfl rfl rfl (by simp [hfiber])
        (by simp [hfiber, hkind, Fiber.completed])
  | leaveRun hfiber _ hkind =>
      exact h.congr rfl rfl rfl (by simp [hfiber])
        (by simp [hfiber, hkind, Fiber.completed])
  | refuse hfiber _ | wait hfiber _ | answer _ hfiber =>
      exact h.congr rfl rfl rfl (by simp [hfiber])
        (by simp [hfiber, Fiber.completed])

theorem Replay.congr
    (h : Replay c o) (hfiber : o'.fiber = o.fiber)
    (hreplies : o'.replies = o.replies) (hunwound : o'.unwound = o.unwound)
    (hreceived : o'.received = o.received) : Replay c o' := by
  simpa only [Replay, Explains, hfiber, hreplies, hunwound, hreceived] using h

/-- The fiber of a `run` operation is where its callable is, and its completion is
that of the callable. -/
theorem Replay.moves
    (h : Replay c o) (hdelivery : Delivery c o)
    (hmove : Moves c requested o o') : Replay c o' := by
  cases hmove with
  | post hstarter =>
      cases hdelivery with
      | unposted _ hfiber _ _ =>
          rw [Replay, hfiber] at h
          exact h
      | pending h _ _ _ _ | completed h _ _ => rw [hstarter] at h; cases h
  | enterSchedule hfiber hkind =>
      rw [Replay, hfiber] at h
      simpa only [Replay, hkind, and_true] using h
  | enterRun hfiber hkind =>
      rw [Replay, hfiber] at h
      exact ⟨h.2, by simp only [h.1]; rfl⟩
  | refuse hfiber _ =>
      rw [Replay, hfiber] at h
      exact ⟨h.1, Body.feed_append h.2 _⟩
  | answer res hfiber =>
      rw [Replay, hfiber] at h
      obtain ⟨hunwound, checks, hcall⟩ := h
      exact ⟨hunwound, Body.feed_append hcall res⟩
  | wait hfiber _ =>
      rw [Replay, hfiber] at h
      exact ⟨h.1, _, h.2⟩
  | unwindSchedule _ hkind | leaveSchedule _ hkind =>
      intro hrun
      rw [hkind] at hrun
      cases hrun
  | unwindRun hfiber hkind =>
      simp only [Replay, hkind, Explains, if_true]
  | leaveRun hfiber hbody hkind =>
      rw [Replay, hfiber] at h
      simp [Replay, hkind, Explains, h.1, h.2, hbody]
  | completeSchedule hfiber hkind =>
      simp only [Replay, hfiber, hkind] at h
      exact ⟨h.2.1, by simp only [h.1]; rfl⟩
  | completeRun hfiber hkind =>
      simp only [Replay, hfiber, hkind] at h
      intro _ x hx
      obtain rfl := by
        simpa [(hdelivery.received_of_completing hfiber).2] using hx
      exact h
  | _ => exact h.congr rfl rfl rfl rfl

theorem Sound.moves
    (h : Sound c requested o) (hmove : Moves c requested o o') :
    Sound c requested o' where
  bridge := h.bridge.moves hmove
  delivery := h.delivery.moves hmove
  replay := h.replay.moves h.delivery hmove
  scheduled := by
    intro hschedule x hx
    cases hmove with
    | completeSchedule hfiber hkind =>
        have hreplay := h.replay
        simp only [Replay, hfiber, hkind] at hreplay
        rcases List.mem_append.mp hx with hx | hx
        · exact h.scheduled hschedule x hx
        · rw [List.mem_singleton.mp hx, hreplay.2.2]
    | completeRun _ hkind => rw [hschedule] at hkind; cases hkind
    | _ => exact h.scheduled hschedule x hx
  token := by
    cases hmove with
    | bridge hstarter _ _ | registerLate hstarter _ =>
        simp [h.delivery.fiber_of_starting (by simp [hstarter]), Fiber.entered]
    | post _ => exact fun h => by cases h
    | callbackForward hcallback =>
        have hwatch := (h.bridge.watch (by simp [hcallback])).2.2
        rw [hcallback] at hwatch
        simpa [hwatch.of_running.1] using h.token
    | enterSchedule _ _ | enterRun _ _ => exact fun _ => rfl
    | refuse hfiber _ | wait hfiber _ | answer _ hfiber | unwindSchedule hfiber _
    | unwindRun hfiber _ | leaveSchedule hfiber _ | leaveRun hfiber _ _
    | completeSchedule hfiber _ | completeRun hfiber _ =>
        exact fun _ => h.token (by rw [hfiber]; rfl)
    | _ => exact h.token
  fault := by cases hmove <;> exact h.fault

theorem Sound.initial : Sound c requested (Op.initial : Op V X) where
  bridge := .idle rfl rfl rfl
  delivery := .unposted (by simp [Op.initial]) rfl rfl (absurd rfl)
  replay := ⟨rfl, rfl⟩
  scheduled := by simp [Op.initial]
  token := by simp [Op.initial]
  fault := rfl

theorem Sound.mono
    {later : Bool} (h : Sound c requested o)
    (hlater : requested = true → later = true) : Sound c later o :=
  { h with bridge := h.bridge.mono hlater }

/-- How the receiver may be completed: `schedule` completes before its body runs,
`run` tells how its callable ended. -/
def Justified (c : Setup σ V X) (o : Op V X) (x : Completion V X) : Prop :=
  match c.kind with
  | .schedule => x = .setValue none
  | .run => Explains c o x

theorem Delivery.length_received
    (h : Delivery c o) :
    o.received.length = if o.fiber.completed c.kind = true then 1 else 0 := by
  cases h with
  | unposted _ hfiber hreceived _ => simp [hfiber, hreceived, Fiber.completed]
  | pending _ _ hcompleted hreceived _ => simp [hcompleted, hreceived]
  | completed _ hcompleted hreceived => simp [hcompleted, hreceived]

theorem Sound.justified
    (h : Sound c requested o) {x : Completion V X} (hx : x ∈ o.received) : Justified c o x := by
  rw [Justified]
  cases hkind : c.kind with
  | schedule => exact h.scheduled hkind x hx
  | run =>
      have hlength := h.delivery.length_received
      have hpos := List.length_pos_of_mem hx
      have hcompleted : o.fiber.completed c.kind = true := by
        by_contra hnot
        rw [if_neg hnot] at hlength
        omega
      have hreplay := h.replay
      cases hfiber : o.fiber with
      | returned =>
          rw [Replay, hfiber] at hreplay
          exact hreplay hkind x hx
      | _ => simp [hfiber, hkind, Fiber.completed] at hcompleted

end Kept

/-! ## Whole runs -/

section Runs

variable [DecidableEq σ] [DecidableEq κ] {setup : κ → Setup σ V X}
  {s : State σ κ V X}

theorem op_effect
    {e : Event σ κ} {i : κ} (hi : e.op? = some i) :
    (effect setup s e).op i = s.step setup i (s.op i) e := by
  simp [effect, hi]

/-- A step is about one operation. -/
theorem op_effect_of_ne
    {e : Event σ κ} {i : κ} (hi : e.op? ≠ some i) :
    (effect setup s e).op i = s.op i := by
  cases e with
  | requestStop src => rfl
  | _ j => exact Function.update_of_ne (fun h => hi (congrArg some h.symm)) _ _

/-- Only a request changes the stop sources, and it is never taken back. -/
theorem sourceRequested_effect
    {e : Event σ κ} {i : κ} (h : s.sourceRequested setup i = true) :
    (effect setup s e).sourceRequested setup i = true := by
  cases e with
  | requestStop src =>
      simp only [State.sourceRequested, Option.any_eq_true] at h ⊢
      obtain ⟨src', hsource, hrequested⟩ := h
      refine ⟨src', hsource, ?_⟩
      by_cases heq : src' = src
      · simp [effect, Event.op?, heq]
      · simpa [effect, Event.op?, heq] using hrequested
  | _ => exact h

theorem sound_effect
    {e : Event σ κ} (he : enabled setup s e)
    (h : ∀ i, Sound (setup i) (s.sourceRequested setup i) (s.op i)) (i : κ) :
    Sound (setup i) ((effect setup s e).sourceRequested setup i)
      ((effect setup s e).op i) := by
  refine Sound.mono ?_ sourceRequested_effect
  by_cases hi : e.op? = some i
  · rw [op_effect hi]
    exact (h i).moves (moves_step he hi (h i))
  · rw [op_effect_of_ne hi]
    exact h i

theorem sound_of_reachable
    (h : (machine setup).Reachable s) (i : κ) :
    Sound (setup i) (s.sourceRequested setup i) (s.op i) := by
  refine h.invariant (I := fun s => ∀ i,
    Sound (setup i) (s.sourceRequested setup i) (s.op i)) ?_ ?_ i
  · intro s hinit i
    rw [hinit i]
    exact .initial
  · intro s e _ hsound he i
    exact sound_effect he hsound i

/-! ## Completion -/

/-- Some continuation completes the receiver. -/
def CanComplete (setup : κ → Setup σ V X) (s : State σ κ V X) (i : κ) : Prop :=
  ∃ s', (machine setup).Reaches s s' ∧ (s'.op i).received ≠ []

theorem CanComplete.of_step
    {e : Event σ κ} {i : κ} (he : enabled setup s e)
    (h : CanComplete setup (effect setup s e) i) : CanComplete setup s i := by
  obtain ⟨s', hs', hreceived⟩ := h
  exact ⟨s', .head he hs', hreceived⟩

theorem CanComplete.of_completing
    {i : κ} (hfiber : (s.op i).fiber.atCompletion = true) :
    CanComplete setup s i := by
  refine .of_step (e := .complete i) hfiber ⟨_, .refl, ?_⟩
  obtain ⟨x, hx⟩ := Fiber.eq_completing hfiber
  rw [op_effect rfl]
  simp [State.step, hx, Op.complete]

theorem CanComplete.of_end
    {i : κ} (hkind : (setup i).kind = .run)
    (hfiber : (s.op i).fiber.atEnd = true) : CanComplete setup s i := by
  refine .of_step (e := .leave i) hfiber (.of_completing ?_)
  obtain ⟨b, x, hb, hx⟩ := Fiber.eq_end hfiber
  rw [op_effect rfl]
  simp [State.step, hb, hx, Op.leave, hkind, Fiber.atCompletion]

theorem fiber_answer
    {i : κ} {k : Reply → Body V X} (res : Reply) (hfiber : (s.op i).fiber = .waiting k) :
    ((effect setup s (.answer i res)).op i).fiber = .running (k res) := by
  rw [op_effect rfl]
  cases hkind : (setup i).kind <;>
    simp [State.step, hfiber, Op.answer, Op.stepBody, hkind]

theorem fiber_call
    {i : κ} {checks : Bool} {k : Reply → Body V X}
    (hfiber : (s.op i).fiber = .running (.call checks k)) :
    ((effect setup s (.call i)).op i).fiber = .running (k (.error ecanceled)) ∨
      ((effect setup s (.call i)).op i).fiber = .waiting k := by
  rw [op_effect rfl]
  simp only [State.step, hfiber, Op.call]
  split
  next => left; cases hkind : (setup i).kind <;> simp [Op.stepBody, hkind]
  next => right; cases hkind : (setup i).kind <;> simp [Op.stepBody, hkind]

theorem CanComplete.of_running
    {i : κ} (hkind : (setup i).kind = .run) (b : Body V X)
    (hfiber : (s.op i).fiber = .running b) : CanComplete setup s i := by
  induction b generalizing s with
  | ret v | throw e => exact .of_end hkind (by rw [hfiber]; rfl)
  | call checks k ih =>
      refine .of_step (e := .call i) (by simp [enabled, hfiber, Fiber.atCall]) ?_
      have hcall : ((effect setup s (.call i)).op i).fiber =
            .running (k (.error ecanceled)) ∨
          ((effect setup s (.call i)).op i).fiber = .waiting k := fiber_call hfiber
      rcases hcall with hnext | hnext
      · exact ih _ hnext
      · exact .of_step (e := .answer i (.value []))
          (by simp [enabled, hnext, Fiber.atWait]) (ih _ (fiber_answer _ hnext))

theorem CanComplete.of_waiting
    {i : κ} (hkind : (setup i).kind = .run) (k : Reply → Body V X)
    (hfiber : (s.op i).fiber = .waiting k) : CanComplete setup s i :=
  .of_step (e := .answer i (.value [])) (by simp [enabled, hfiber, Fiber.atWait])
    (.of_running hkind _ (fiber_answer _ hfiber))

theorem CanComplete.of_queued
    {i : κ} (hfiber : (s.op i).fiber = .queued) : CanComplete setup s i := by
  refine .of_step (e := .enter i) (by simp [enabled, hfiber, Fiber.atEntry]) ?_
  cases hkind : (setup i).kind with
  | schedule =>
      refine .of_completing ?_
      rw [op_effect rfl]
      simp [State.step, Op.enter, hkind, Fiber.atCompletion]
  | run =>
      refine .of_running hkind (setup i).body ?_
      rw [op_effect rfl]
      simp [State.step, Op.enter, hkind]

theorem CanComplete.of_posting
    {i : κ} (hstarter : (s.op i).starter = .posting) : CanComplete setup s i := by
  refine .of_step (e := .post i) hstarter (.of_queued ?_)
  rw [op_effect rfl]
  rfl

/-- An operation that is started is never stuck. -/
theorem canComplete_of_started
    (h : (machine setup).Reachable s) {i : κ} (hidle : (s.op i).starter ≠ .idle) :
    CanComplete setup s i := by
  cases hstarter : (s.op i).starter with
  | idle => exact absurd hstarter hidle
  | bridging =>
      refine .of_step (e := .register i) hstarter (.of_posting ?_)
      rw [op_effect rfl]
      simp only [State.step, Op.register]
      split <;> rfl
  | posting => exact .of_posting hstarter
  | done =>
      cases (sound_of_reachable h i).delivery with
      | unposted h _ _ _ => exact absurd hstarter h
      | pending _ hunposted hcompleted _ _ =>
          cases hfiber : (s.op i).fiber with
          | unposted => exact absurd hfiber hunposted
          | queued => exact .of_queued hfiber
          | running b =>
              refine .of_running ?_ b hfiber
              simpa [hfiber, Fiber.completed, Kind.ne_schedule] using hcompleted
          | waiting k =>
              refine .of_waiting ?_ k hfiber
              simpa [hfiber, Fiber.completed, Kind.ne_schedule] using hcompleted
          | completing x => exact .of_completing (by rw [hfiber]; rfl)
          | returned => simp [hfiber, Fiber.completed] at hcompleted
      | completed _ _ hreceived =>
          refine ⟨s, .refl, ?_⟩
          rintro hnil
          simp [hnil] at hreceived

/-- An operation of `schedule` or `run`, however the threads interleave: its state
is never used after its end; the receiver is completed at most once, and has been
when the fiber returns; what it is completed with is `set_value()` for `schedule`
and for `run` what follows from the calls of its callable; and once started it can
always go on to its completion. -/
theorem operation_completes_once
    (h : (machine setup).Reachable s) (i : κ) :
    (s.op i).fault = false ∧
      ((s.op i).received.length =
        if (s.op i).fiber.completed (setup i).kind = true then 1 else 0) ∧
      (∀ x ∈ (s.op i).received, Justified (setup i) (s.op i) x) ∧
      ((s.op i).starter ≠ .idle → CanComplete setup s i) :=
  ⟨(sound_of_reachable h i).fault,
    (sound_of_reachable h i).delivery.length_received,
    fun _ hx => (sound_of_reachable h i).justified hx,
    canComplete_of_started h⟩

end Runs

/-- A `run` operation with a stoppable receiver, whose callable reads once. -/
def oneRead : Unit → Setup Unit ℕ Unit := fun _ =>
  { kind := .run
    source := some ()
    body := .io fun ns => .ret (ns.head?.map Int.toNat) }

/-- The stop is requested while the task is in the queue: the first call of the
callable is refused, the receiver is completed with `set_stopped` and the
operation state then destroyed. -/
theorem operation_completes_once_stopped :
    ∃ s : State Unit Unit ℕ Unit, (machine oneRead).Reachable s ∧
      (s.op ()).received = [.setStopped] ∧ (s.op ()).life = .destroyed ∧
        (s.op ()).fault = false := by
  obtain ⟨s, hs, hreceived, hlife⟩ := Machine.exists_reachableUnder_of_exec
    (M := machine oneRead) (G := fun _ _ => True)
    (P := fun s => (s.op ()).received = [.setStopped] ∧
      (s.op ()).life = .destroyed)
    (s := { requested := fun _ => false, op := fun _ => Op.initial }) (fun _ => rfl)
    [.start (), .register (), .post (), .requestStop (), .callbackBegin (),
      .callbackForward (), .enter (), .call (), .leave (), .complete (),
      .destroyBegin (), .callbackEnd (), .destroyEnd ()]
    (by decide)
  exact ⟨s, hs, hreceived, hlife, (operation_completes_once hs ()).1⟩

end Fiberexec.Senders
