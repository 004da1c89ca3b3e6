import Fiberexec.Senders.Lifetime

/-!
# From a stop request to the callable

A stop request of the receiver's source reaches the `fiber_stop_` of every
operation bridged to it, and nothing else does.  From then on the callable is
refused every operation that begins with `begin_async_op`; a callable that lets
the error pass completes its receiver with `set_stopped`.
-/

namespace Fiberexec.Senders

open Support

variable {σ κ V X : Type}

/-! ## The bridge -/

section Bridge

variable {c : Setup σ V X} {requested : Bool} {o o' : Op V X}

theorem Watch.requested_of_stop
    {callback : Callback} {life : Life}
    (h : Watch requested callback (some true) life) : requested = true := by
  cases h with
  | forwarded hrequested _ | ran hrequested => exact hrequested

/-- A callback that has neither run nor is running is still registered, as long
as the operation state is there. -/
theorem Watch.stop_of_through
    {callback : Callback} {stop : Option Bool}
    (h : Watch requested callback stop .alive)
    (hregistered : callback ≠ .registered) (hrunning : callback ≠ .running) :
    stop = some true := by
  cases h with
  | registered => exact absurd rfl hregistered
  | running _ _ => exact absurd rfl hrunning
  | forwarded _ _ | ran _ => rfl
  | removed hlife => exact absurd rfl hlife

theorem Bridge.requested_of_stop
    (h : Bridge c requested o) (hstop : o.fiberStop = some true) :
    requested = true := by
  cases h with
  | idle _ _ h | bridging _ _ _ h | unbridged _ _ _ h => simp [hstop] at h
  | bridged _ _ hwatch =>
      rw [hstop] at hwatch
      exact hwatch.requested_of_stop

theorem Bridge.stop_of_through
    (h : Bridge c requested o) (hsource : c.source ≠ none)
    (hstarter : o.starter = .posting ∨ o.starter = .done)
    (hlife : o.life = .alive) (hregistered : o.callback ≠ .registered)
    (hrunning : o.callback ≠ .running) : o.fiberStop = some true := by
  cases h with
  | idle h _ _ | bridging h _ _ _ => simp [h] at hstarter
  | unbridged _ h _ _ => exact absurd h hsource
  | bridged _ _ hwatch =>
      rw [hlife] at hwatch
      exact hwatch.stop_of_through hregistered hrunning

/-- `fiber_stop_` is assigned before its stop can be requested. -/
theorem Moves.stop
    (hmove : Moves c requested o o') (hbridge : Bridge c requested o)
    (hstop : o.fiberStop = some true) : o'.fiberStop = some true := by
  cases hmove with
  | bridge hstarter _ _ =>
      cases hbridge with
      | idle _ _ h | bridging _ _ _ h | unbridged _ _ _ h => simp [hstop] at h
      | bridged h _ _ => simp [hstarter] at h
  | registerLate _ _ | callbackForward _ => rfl
  | _ => exact hstop

theorem Moves.replies
    (hmove : Moves c requested o o') : o.replies <+: o'.replies := by
  cases hmove with
  | refuse _ _ | answer _ _ => exact List.prefix_append _ _
  | _ => exact List.prefix_rfl

end Bridge

/-! ## Refused calls -/

section Refused

variable {c : Setup σ V X} {requested : Bool} {o o' : Op V X} {told : List Reply}

/-- Since the callable was told `told`, every call that checks for a stop was
refused. -/
def RefusedSince (c : Setup σ V X) (told : List Reply) (o : Op V X) : Prop :=
  ∀ (n : ℕ) (k : Reply → Body V X) (res : Reply), told.length ≤ n →
    c.body.feed (o.replies.take n) = .call true k → o.replies[n]? = some res →
      res = .error ecanceled

/-- The stop has come through, and no call that checks for it is under way. -/
structure Cancelled (c : Setup σ V X) (told : List Reply) (o : Op V X) : Prop where
  stop : o.fiberStop = some true
  grown : told <+: o.replies
  refused : RefusedSince c told o
  waiting : o.fiber.atWait = true → ∀ k, c.body.feed o.replies ≠ .call true k

theorem RefusedSince.append
    {res : Reply} (h : RefusedSince c told o)
    (hreplies : o'.replies = o.replies ++ [res])
    (hres : ∀ k, c.body.feed o.replies = .call true k → res = .error ecanceled) :
    RefusedSince c told o' := by
  intro n k r hn hcall hr
  rw [hreplies] at hcall hr
  rcases Nat.lt_or_ge n o.replies.length with hlt | hge
  · rw [List.take_append_of_le_length hlt.le] at hcall
    rw [List.getElem?_append_left hlt] at hr
    exact h n k r hn hcall hr
  · have hn' : n = o.replies.length := by
      have := (List.getElem?_eq_some_iff.mp hr).1
      simp only [List.length_append, List.length_singleton] at this
      omega
    subst hn'
    rw [List.take_left' rfl] at hcall
    simp only [List.getElem?_concat_length, Option.some.injEq] at hr
    exact hr ▸ hres k hcall

/-- The fiber has the token, so that a call that checks for the stop finds it. -/
theorem Sound.stopRequested
    (h : Sound c requested o) (hfiber : o.fiber.entered = true)
    (hstop : o.fiberStop = some true) : o.stopRequested = true := by
  simp [Op.stopRequested, h.token hfiber, hstop]

theorem Cancelled.moves
    (h : Cancelled c told o) (hsound : Sound c requested o)
    (hmove : Moves c requested o o') : Cancelled c told o' where
  stop := hmove.stop hsound.bridge h.stop
  grown := h.grown.trans hmove.replies
  refused := by
    cases hmove with
    | refuse _ _ => exact h.refused.append rfl fun _ _ => rfl
    | answer res hfiber =>
        refine h.refused.append rfl fun k hcall => ?_
        exact absurd hcall (h.waiting (by rw [hfiber]; rfl) k)
    | _ => exact h.refused
  waiting := by
    cases hmove with
    | wait hfiber hstop =>
        intro _ k hcall
        have hreplay := hsound.replay
        rw [Replay, hfiber] at hreplay
        have hchecks := hreplay.2.symm.trans hcall
        simp only [Body.call.injEq] at hchecks
        exact hstop ⟨hchecks.1,
          hsound.stopRequested (by rw [hfiber]; rfl) h.stop⟩
    | bridge _ _ _ | skip _ _ _ | registerLate _ _ | register _ _
    | callbackBegin _ _ | callbackForward _ | callbackEnd _
    | destroyRegistered _ _ _ | destroy _ _ _ | destroyEnd _ _ _ =>
        exact h.waiting
    | _ => exact fun h => by cases h

/-- A callable that lets the errors of the calls that check for a stop pass. -/
inductive Body.Propagates : Body V X → Prop
  | ret (v : Option V) : Propagates (.ret v)
  | throw (e : Thrown X) : Propagates (.throw e)
  | io {k : List ℤ → Body V X} (hk : ∀ ns, Propagates (k ns)) :
      Propagates (Body.io k)
  /-- an operation that does not check for a stop -/
  | unchecked {k : Reply → Body V X} (hk : ∀ res, Propagates (k res)) :
      Propagates (.call false k)

theorem Body.Propagates.reply
    {b : Body V X} (h : b.Propagates) (res : Reply) : (b.reply res).Propagates := by
  cases h with
  | ret v => exact .ret v
  | throw e => exact .throw e
  | io hk =>
      cases res with
      | value ns => exact hk ns
      | error code => exact .throw _
  | unchecked hk => exact hk res

theorem Body.Propagates.feed
    {b : Body V X} (h : b.Propagates) (replies : List Reply) :
    (b.feed replies).Propagates := by
  induction replies generalizing b with
  | nil => exact h
  | cons res replies ih => exact ih (h.reply res)

theorem Body.Propagates.refused
    {k : Reply → Body V X} (h : Propagates (.call true k)) :
    k (.error ecanceled) = .throw (.exception (.systemError ecanceled)) := by
  generalize hb : Body.call true k = b at h
  cases h with
  | ret _ | throw _ | unchecked _ => simp at hb
  | io _ =>
      simp only [Body.io, Body.call.injEq, true_and] at hb
      subst hb
      rfl

theorem Body.feed_throw (e : Thrown X) (replies : List Reply) :
    (Body.throw e : Body V X).feed replies = .throw e := by
  induction replies with
  | nil => rfl
  | cons _ _ ih => exact ih

/-- A callable that lets errors pass ends with the first `ECANCELED` of a call, and
completes its receiver with `set_stopped`. -/
theorem Body.Propagates.stopped
    (hbody : c.body.Propagates) {n : ℕ} {k : Reply → Body V X}
    (hcall : c.body.feed (o.replies.take n) = .call true k)
    (hres : o.replies[n]? = some (.error ecanceled))
    {x : Completion V X} (hx : Explains c o x) : x = .setStopped := by
  rw [Explains] at hx
  split at hx
  next => exact hx
  next =>
      obtain ⟨hlt, hres⟩ := List.getElem?_eq_some_iff.mp hres
      have hthrow : c.body.feed (o.replies.take (n + 1)) =
          .throw (.exception (.systemError ecanceled)) := by
        rw [List.take_succ_eq_append_getElem hlt, Body.feed_append hcall, hres]
        exact (hcall ▸ hbody.feed _).refused
      have hall : c.body.feed o.replies =
          .throw (.exception (.systemError ecanceled)) := by
        rw [← List.take_append_drop (n + 1) o.replies, Body.feed,
          List.foldl_append]
        change (c.body.feed (o.replies.take (n + 1))).feed _ = _
        rw [hthrow, Body.feed_throw]
      rw [hall] at hx
      simpa [Body.completion?, Thrown.completion] using hx.symm

theorem RefusedSince.stopped
    (h : RefusedSince c told o) (hbody : c.body.Propagates)
    {n : ℕ} {k : Reply → Body V X} (hn : told.length ≤ n)
    (hlt : n < o.replies.length)
    (hcall : c.body.feed (o.replies.take n) = .call true k)
    {x : Completion V X} (hx : Explains c o x) : x = .setStopped := by
  have hget := List.getElem?_eq_getElem hlt
  rw [h n k _ hn hcall hget] at hget
  exact hbody.stopped hcall hget hx

end Refused

section Runs

variable [DecidableEq σ] [DecidableEq κ] {setup : κ → Setup σ V X}
  {s s' : State σ κ V X} {i : κ}

/-- What every move keeps of one operation holds along every continuation. -/
theorem stable_of_moves
    {P : Op V X → Prop} (h : (machine setup).Reachable s)
    (hkept : ∀ requested o o', Sound (setup i) requested o →
      Moves (setup i) requested o o' → P o → P o')
    (hs : (machine setup).Reaches s s') (hP : P (s.op i)) : P (s'.op i) := by
  have hstable := Machine.Reaches.stable
    (P := fun s => (machine setup).Reachable s ∧ P (s.op i)) ?_ hs ⟨h, hP⟩
  · exact hstable.2
  · rintro s e ⟨hreach, hP⟩ he
    refine ⟨hreach.step he, ?_⟩
    change P ((effect setup s e).op i)
    by_cases hi : e.op? = some i
    · rw [op_effect hi]
      have hsound := sound_of_reachable hreach i
      exact hkept _ _ _ hsound (moves_step he hi hsound) hP
    · rwa [op_effect_of_ne hi]

/-- The `fiber_stop_` of an operation is requested only when its receiver's source
is; it is requested when `start()` is past `stop_cb_` and no requesting thread is
still to run the callback; and it stays so. -/
theorem stop_bridge_exact
    (h : (machine setup).Reachable s) (i : κ) :
    ((s.op i).fiberStop = some true → s.sourceRequested setup i = true) ∧
      (s.sourceRequested setup i = true →
        (s.op i).starter = .posting ∨ (s.op i).starter = .done →
        (s.op i).life = .alive → (s.op i).callback ≠ .registered →
        (s.op i).callback ≠ .running → (s.op i).fiberStop = some true) ∧
      ((s.op i).fiberStop = some true →
        ∀ s', (machine setup).Reaches s s' →
          (s'.op i).fiberStop = some true) := by
  have hbridge := (sound_of_reachable h i).bridge
  refine ⟨hbridge.requested_of_stop, ?_, ?_⟩
  · intro hrequested
    refine hbridge.stop_of_through ?_
    intro hnone
    simp [State.sourceRequested, hnone] at hrequested
  · intro hstop s' hs
    exact stable_of_moves (P := fun o => o.fiberStop = some true) h
      (fun _ _ _ hsound hmove => hmove.stop hsound.bridge) hs hstop

end Runs

/-- The stop is requested before `start()`: registering `stop_cb_` forwards it, and
the operation keeps it until it is destroyed. -/
theorem stop_bridge_exact_late :
    ∃ s s' : State Unit Unit ℕ Unit, (machine oneRead).Reachable s ∧
      (machine oneRead).Reaches s s' ∧ (s.op ()).starter = .posting ∧
        (s.op ()).fiberStop = some true ∧ (s'.op ()).life = .destroyed ∧
        (s'.op ()).fiberStop = some true := by
  obtain ⟨s, s', hs, hreaches, hstarter, hstop, hlife⟩ :=
    Machine.exists_reaches_of_exec (M := machine oneRead)
    (G := fun _ _ => True)
    (P := fun s s' => (s.op ()).starter = .posting ∧
      (s.op ()).fiberStop = some true ∧ (s'.op ()).life = .destroyed)
    (s := { requested := fun _ => false, op := fun _ => Op.initial }) (fun _ => rfl)
    [.start (), .requestStop (), .register ()]
    [.post (), .enter (), .call (), .leave (), .complete (), .destroyBegin (),
      .destroyEnd ()]
    (by decide)
  exact ⟨s, s', hs, hreaches, hstarter, hstop, hlife,
    (stop_bridge_exact hs ()).2.2 hstop s' hreaches⟩

section Runs

variable [DecidableEq σ] [DecidableEq κ] {setup : κ → Setup σ V X}
  {s s' : State σ κ V X} {i : κ}

/-- Once the stop is forwarded to an operation that is not suspended, the callable
is refused every call that checks for it. -/
theorem cancelled_of_reaches
    (h : (machine setup).Reachable s) (hstop : (s.op i).fiberStop = some true)
    (hwait : (s.op i).fiber.atWait = false)
    (hs : (machine setup).Reaches s s') :
    Cancelled (setup i) (s.op i).replies (s'.op i) := by
  refine stable_of_moves h (fun _ _ _ hsound hmove hcancelled =>
    hcancelled.moves hsound hmove) hs ?_
  refine ⟨hstop, List.prefix_rfl, ?_, by simp [hwait]⟩
  intro n k res hn _ hres
  exact absurd (List.getElem?_eq_some_iff.mp hres).1 (by omega)

/-- From the moment that a stop request is forwarded to an operation which is not
suspended, on every continuation: each call of the callable that checks for a stop
is refused with `ECANCELED`; and if the operation is a `run` whose callable lets
the errors of its calls pass, and makes such a call, the only completion that its
receiver gets is `set_stopped`. -/
theorem stop_refuses_calls
    (h : (machine setup).Reachable s) (hstop : (s.op i).fiberStop = some true)
    (hwait : (s.op i).fiber.atWait = false)
    (hs : (machine setup).Reaches s s') :
    RefusedSince (setup i) (s.op i).replies (s'.op i) ∧
      ((setup i).kind = .run → (setup i).body.Propagates →
        ∀ n k, (s.op i).replies.length ≤ n → n < (s'.op i).replies.length →
          (setup i).body.feed ((s'.op i).replies.take n) = .call true k →
            ∀ x ∈ (s'.op i).received, x = .setStopped) := by
  have hrefused := (cancelled_of_reaches h hstop hwait hs).refused
  refine ⟨hrefused, ?_⟩
  intro hkind hbody n k hn hlt hcall x hx
  have hjustified := (sound_of_reachable (h.trans hs) i).justified hx
  rw [Justified, hkind] at hjustified
  exact hrefused.stopped hbody hn hlt hcall hjustified

end Runs

/-- The stop is forwarded while the task is in the queue, and the read is refused. -/
theorem stop_refuses_calls_queued :
    ∃ s s' : State Unit Unit ℕ Unit, (machine oneRead).Reachable s ∧
      (machine oneRead).Reaches s s' ∧ (s.op ()).fiber.atEntry = true ∧
        (s'.op ()).received.length = 1 ∧ ∀ x ∈ (s'.op ()).received, x = .setStopped := by
  obtain ⟨s, s', hs, hreaches, hentry, hstop, hreplies, hlater, hreceived⟩ :=
    Machine.exists_reaches_of_exec (M := machine oneRead)
    (G := fun _ _ => True)
    (P := fun s s' => (s.op ()).fiber.atEntry = true ∧
      (s.op ()).fiberStop = some true ∧ (s.op ()).replies = [] ∧
      (s'.op ()).replies.length = 1 ∧ (s'.op ()).received.length = 1)
    (s := { requested := fun _ => false, op := fun _ => Op.initial }) (fun _ => rfl)
    [.start (), .register (), .post (), .requestStop (), .callbackBegin (),
      .callbackForward ()]
    [.enter (), .call (), .leave (), .complete ()]
    (by decide)
  refine ⟨s, s', hs, hreaches, hentry, hreceived, ?_⟩
  have hwait : (s.op ()).fiber.atWait = false := by
    rw [Fiber.eq_queued hentry]
    rfl
  exact (stop_refuses_calls hs hstop hwait hreaches).2 rfl
    (.io fun ns => .ret (ns.head?.map Int.toNat)) 0 _ (by simp [hreplies]) (by omega) rfl

end Fiberexec.Senders
