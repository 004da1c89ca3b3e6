import Fiberexec.Senders.OnRing

/-!
# Replies and stop requests

What the composition of operations and rings adds to its parts: where the reply of
a call comes from, and the whole way of a stop request, from the receiver's source
to the kernel and back to the receiver.
-/

namespace Fiberexec.Senders

open Support
open AsyncIo (Operation)

variable {ω σ κ φ θ V X : Type} [DecidableEq ω] [DecidableEq σ] [DecidableEq κ]
  [DecidableEq φ] [DecidableEq θ] {setup : κ → Setup σ V X}
  {others : φ → Option θ} {worker : κ → ω} {s : Wired ω σ κ φ θ V X} {i : κ}

/-! ## Replies -/

/-- The reply is the refusal of `begin_async_op`, or what the function makes of the
results that the kernel posted for the requests of this call. -/
def OwnResult (r : Ring.State (κ ⊕ φ) (κ ⊕ θ)) (i : κ) : Origin → Reply → Prop
  | .refused, res => res = .error ecanceled
  | .immediate op, res => op.requests = [] ∧ res = op.reply []
  | .called op serial, res => ∃ out, out.length = op.requests.length ∧
      (∀ m v, out[m]? = some v → r.result ⟨.inl i, serial, m⟩ = some v) ∧
      res = op.reply out

theorem ownResult_of_reachable
    (h : (wired setup others worker).Reachable s) {v : Origin} {res : Reply}
    (hanswers : Answers (s.ring (worker i)) i v res) :
    OwnResult (s.ring (worker i)) i v res := by
  cases v with
  | refused | immediate op => exact hanswers
  | called op serial =>
      obtain ⟨out, hout, hlength, hreply⟩ := hanswers
      have hanswered := Ring.reachable_answered (wired_ring_reachable h (worker i))
      exact ⟨out, hlength, (hanswered _ _ _ hout).2, hreply⟩

theorem tokens_of_entered
    (h : (wired setup others worker).Reachable s)
    (hentered : (s.ops.op i).fiber.entered = true) :
    (tokens setup others (.inl i)).isSome = (s.ops.op i).token := by
  have hsound := sound_of_reachable (wired_ops_reachable h) i
  have hposted : (s.ops.op i).fiber ≠ .unposted := by
    intro hunposted
    simp [hunposted, Fiber.entered] at hentered
  have hidle := hsound.delivery.starter_ne_idle hposted
  have hdone : (s.ops.op i).starter = .done := by
    by_contra hne
    exact hposted (hsound.delivery.fiber_of_starting hne)
  rw [hsound.token hentered]
  cases hsound.bridge with
  | idle hstarter _ _ => exact absurd hstarter hidle
  | bridging hstarter _ _ _ => simp [hdone] at hstarter
  | unbridged _ hsource _ hstop => simp [tokens, hsource, hstop]
  | bridged _ hsource hwatch =>
      obtain ⟨src, hsrc⟩ := Option.ne_none_iff_exists'.mp hsource
      simp [tokens, hsrc, hwatch.isSome]

/-- Whatever else runs on the workers, what a callable gets from the functions it
calls is what they make of the answers of the kernel to the requests of its own fiber,
call by call in the order in which it made them, or that `begin_async_op` refused the
call; the completion of the receiver follows from that; and the calls have the stop
token that was installed. -/
theorem replies_are_own_results
    (h : (wired setup others worker).Reachable s) (i : κ) :
    List.Forall₂ (OwnResult (s.ring (worker i)) i) (s.via i) (s.ops.op i).replies ∧
      (s.via i).filterMap Origin.serial? =
        List.range ((s.ring (worker i)).fiber (.inl i)).serial ∧
      (∀ x ∈ (s.ops.op i).received, Justified (setup i) (s.ops.op i) x) ∧
      ((s.ops.op i).fiber.entered = true →
        (tokens setup others (.inl i)).isSome = (s.ops.op i).token) := by
  have hlink := wired_linked_of_reachable h i
  refine ⟨hlink.replies.imp fun v res => ownResult_of_reachable h, hlink.serials, ?_,
    tokens_of_entered h⟩
  intro x hx
  exact (sound_of_reachable (wired_ops_reachable h) i).justified hx

/-! ## The way of a stop request -/

omit [DecidableEq φ] [DecidableEq θ] [DecidableEq κ] in
/-- When the callbacks have run, every address of a suspended call is queued for a
cancel, or was submitted in one. -/
theorem accounted_of_returned
    {token : κ ⊕ φ → Option (κ ⊕ θ)} {r : Ring.State (κ ⊕ φ) (κ ⊕ θ)}
    {f : κ ⊕ φ} {c : Ring.Call} {slot : Ring.Slot} {src : Ring.Source (κ ⊕ θ)}
    (h : Ring.Heard token r f c) (hform : c.form ≠ .sendZc)
    (hphase : c.phase = .waiting) (hsource : Ring.sourceOf token f slot = some src)
    (hrequested : r.requested src = true) (hstopping : r.stopping src = false)
    (hidle : (c.cb slot).isRunning = false) {n a : ℕ} (ha : c.addrs[n]? = some a) :
    r.Accounted f false n a := by
  have hzc : c.form.zc = false := by
    cases hf : c.form <;> simp [hf, Ring.Form.zc] at hform ⊢
  have hpresent : c.cb slot ≠ .absent := by
    refine h.present hzc slot (by rw [hsource]; rfl) ?_
    rw [hphase]
    cases slot <;> rfl
  have hpending : (c.cb slot).pending = some [] := by
    cases hcb : c.cb slot with
    | absent => exact absurd hcb hpresent
    | registered =>
        have hstop := h.asleep slot src hsource hcb hrequested
        rw [hstopping] at hstop
        cases hstop
    | pushing inline todo | writing inline todo =>
        simp [hcb, Ring.Callback.isRunning] at hidle
    | executed => rfl
  have hpushed := h.pushed slot [] hpending n a ha
  rw [hzc] at hpushed
  exact hpushed.resolve_left (by simp)

/-- A stop request that the requesting thread is through with has arrived on the
ring, and no callback is still to be run there. -/
theorem stop_on_ring
    (h : (wired setup others worker).Reachable s)
    (hsource : s.ops.sourceRequested setup i = true)
    (hlife : (s.ops.op i).life = .alive)
    (hregistered : (s.ops.op i).callback ≠ .registered)
    (hrunning : (s.ops.op i).callback ≠ .running)
    (hforwarded : (s.ops.op i).callback ≠ .forwarded)
    (hwait : (s.ops.op i).fiber.atWait = true) :
    (s.ring (worker i)).requested (.token (.inl i)) = true ∧
      (s.ring (worker i)).stopping (.token (.inl i)) = false := by
  have hlink := wired_linked_of_reachable h i
  have hsound := sound_of_reachable (wired_ops_reachable h) i
  have hdone : (s.ops.op i).starter = .done := by
    by_contra hne
    simp [hsound.delivery.fiber_of_starting hne, Fiber.atWait] at hwait
  have hstop : (s.ops.op i).fiberStop = some true := by
    refine hsound.bridge.stop_of_through ?_ (.inr hdone) hlife hregistered hrunning
    intro hnone
    simp [State.sourceRequested, hnone] at hsource
  refine ⟨hlink.stop.mpr hstop, ?_⟩
  rw [← Bool.not_eq_true]
  intro hstopping
  rcases hlink.stopping hstopping with hcallback | ⟨-, hposting⟩
  · exact hforwarded hcallback
  · simp [hdone] at hposting

/-- The whole way of a stop request.  When the stop of an operation's receiver was
requested, the requesting thread is through with `stop_cb_` and the operation's
fiber is suspended in a call of a function other than `async_send_zc`, then a cancel
of every request of this very call is on its way to the kernel: it is in the queue of
the worker and a wake-up of the worker is to come, or it was submitted after the
request. -/
theorem stop_reaches_kernel
    (h : (wired setup others worker).Reachable s)
    (hlive : (s.ring (worker i)).crashed = false)
    (hsource : s.ops.sourceRequested setup i = true)
    (hlife : (s.ops.op i).life = .alive)
    (hregistered : (s.ops.op i).callback ≠ .registered)
    (hrunning : (s.ops.op i).callback ≠ .running)
    (hforwarded : (s.ops.op i).callback ≠ .forwarded)
    {c : Ring.Call} (hcall : ((s.ring (worker i)).fiber (.inl i)).call = some c) :
    ∃ op, s.callee i = some op ∧ c.form = op.form ∧
      c.addrs.length = op.requests.length ∧
      (c.form ≠ .sendZc → c.phase = .waiting → (c.cb .fiber).isRunning = false →
        ∀ n addr, c.addrs[n]? = some addr →
          (addr, .inl i) ∈ (s.ring (worker i)).cancelQueue ∧
              0 < (s.ring (worker i)).notifyFd + (s.ring (worker i)).notifyCqes +
                (s.ring (worker i)).notifyProcessing +
                (s.ring (worker i)).unwritten ∨
            [Ring.Op.io ((s.ring (worker i)).current (.inl i) n) addr false,
              .cancel addr (.inl i)].Sublist (s.ring (worker i)).submitted) := by
  have hlink := wired_linked_of_reachable h i
  have hring := wired_ring_reachable h (worker i)
  obtain ⟨op, hop, -⟩ := hlink.called.mp (by simp [hcall])
  have hop : s.callee i = some op := hop
  have hwait : (s.ops.op i).fiber.atWait = true := by
    rw [hlink.waits, hop]
    rfl
  obtain ⟨hrequested, hstopping⟩ :=
    stop_on_ring h hsource hlife hregistered hrunning hforwarded hwait
  obtain ⟨hform, haddrs⟩ := hlink.addrs c hcall op hop
  refine ⟨op, hop, hform, haddrs, ?_⟩
  intro hnot hphase hidle n addr haddr
  have htoken : Ring.sourceOf (tokens setup others) (.inl i) .fiber =
      some (.token (.inl i)) := by
    cases hsrc : (setup i).source with
    | none => simp [State.sourceRequested, hsrc] at hsource
    | some src => simp [Ring.sourceOf, tokens, hsrc]
  have haccounted := accounted_of_returned (Ring.reachable_heard hring hlive hcall)
    hnot hphase htoken hrequested hstopping hidle haddr
  refine haccounted.imp_left fun hqueue => ⟨hqueue, ?_⟩
  have hbound := (Ring.reachable_notified hring hlive).bound
  have hpos := List.length_pos_of_mem hqueue
  omega

/-- A call of a `run` callable that the kernel ends with `ECANCELED`, because of a
stop request, a time limit or a broken chain, completes the receiver with
`set_stopped`, if the function begins with `begin_async_op` and the callable lets the
errors of such functions pass.  Of a linked pair it is the first request with an error
that counts. -/
theorem cancelled_call_stops
    (h : (wired setup others worker).Reachable s) (hkind : (setup i).kind = .run)
    (hbody : (setup i).body.Propagates) {n serial : ℕ} {op : Operation}
    {k : Reply → Body V X} (hvia : (s.via i)[n]? = some (.called op serial))
    (hcall : (setup i).body.feed ((s.ops.op i).replies.take n) = .call true k)
    {m : ℕ} (hm : m < op.requests.length)
    (hres : (s.ring (worker i)).result ⟨.inl i, serial, m⟩ = some (-ecanceled))
    (hbefore : ∀ l < m, ∀ v,
      (s.ring (worker i)).result ⟨.inl i, serial, l⟩ = some v → 0 ≤ v) :
    ∀ x ∈ (s.ops.op i).received, x = .setStopped := by
  have hlink := wired_linked_of_reachable h i
  obtain ⟨hlt, hvia⟩ := List.getElem?_eq_some_iff.mp hvia
  have hlt' : n < (s.ops.op i).replies.length := hlink.replies.length_eq ▸ hlt
  have hown := ownResult_of_reachable h (hlink.replies.get hlt hlt')
  simp only [List.get_eq_getElem, hvia] at hown
  obtain ⟨out, hlength, hresults, hreply⟩ := hown
  have hcancelled : out[m]? = some (-ecanceled) := by
    rw [List.getElem?_eq_getElem (hlength ▸ hm)]
    have hout := hresults m _ (List.getElem?_eq_getElem (hlength ▸ hm))
    rw [hres] at hout
    exact hout.symm
  rw [Operation.reply_of_cancelled hlength hcancelled
    fun l hl v hv => hbefore l hl v (hresults l v hv)] at hreply
  intro x hx
  have hjustified := (sound_of_reachable (wired_ops_reachable h) i).justified hx
  rw [Justified, hkind] at hjustified
  refine hbody.stopped hcall ?_ hjustified
  rw [List.getElem?_eq_getElem hlt', hreply]

/-! ## Runs of one operation -/

/-- One `run` operation on one worker. -/
abbrev oneOnRing (setup : Unit → Setup Unit ℕ Unit) :
    Machine (Wired Unit Unit Unit Empty Empty ℕ Unit)
      (WiredEvent Unit Unit Unit Empty Empty) :=
  wired setup (fun _ => none) id

def idleWired : Wired Unit Unit Unit Empty Empty ℕ Unit where
  ops := { requested := fun _ => false, op := fun _ => Op.initial }
  ring := fun _ => Ring.initial
  callee := fun _ => none
  via := fun _ => []

/-- The operation is started, and a fiber of the worker begins its task. -/
def beginTask : List (WiredEvent Unit Unit Unit Empty Empty) :=
  [.ops (.start ()), .ops (.register ()), .ops (.post ()),
    .ring () (.switch (.inl ())), .ops (.enter ())]

/-- The callable calls a function and suspends. -/
def suspendIn (op : Operation) (addrs : List ℕ) :
    List (WiredEvent Unit Unit Unit Empty Empty) :=
  [.call () op addrs, .ring () (.submit (.inl ())),
    .ring () (.registerPool (.inl ())), .ring () (.registerFiber (.inl ())),
    .ring () (.block (.inl ()))]

/-- The kernel answers the only request of a call, which then returns. -/
def answerOne (serial : ℕ) (op : Operation) (res : ℤ) :
    List (WiredEvent Unit Unit Unit Empty Empty) :=
  [.ring () (.complete 2 ⟨.inl (), serial, 0⟩ 8 false res),
    .ring () (.drain ⟨8, ⟨res, false, false⟩, some ⟨.inl (), serial, 0⟩⟩ true),
    .ring () (.resume (.inl ())), .ring () (.collect (.inl ())),
    .ring () (.unregisterFiber (.inl ())), .answer () op [res]]

/-- The kernel answers a linked pair, which then returns. -/
def answerPair (op : Operation) (n m : ℤ) :
    List (WiredEvent Unit Unit Unit Empty Empty) :=
  [.ring () (.complete 2 ⟨.inl (), 0, 0⟩ 8 false n),
    .ring () (.complete 2 ⟨.inl (), 0, 1⟩ 16 false m),
    .ring () (.drain ⟨8, ⟨n, false, false⟩, some ⟨.inl (), 0, 0⟩⟩ true),
    .ring () (.drain ⟨16, ⟨m, false, false⟩, some ⟨.inl (), 0, 1⟩⟩ true),
    .ring () (.resume (.inl ())), .ring () (.collect (.inl ())),
    .ring () (.collect (.inl ())), .ring () (.unregisterFiber (.inl ())),
    .answer () op [n, m]]

/-- Three bytes are sent and up to four received. -/
def exchange : Operation :=
  .asyncSendRecv ⟨5, false⟩ ⟨100, 3⟩ ⟨200, 4⟩ 0 0

/-- The callable sends and receives, and returns the first number that it gets. -/
theorem replies_are_own_results_pair :
    ∃ s : Wired Unit Unit Unit Empty Empty ℕ Unit,
      (oneOnRing oneRead).Reachable s ∧
      (s.ops.op ()).received = [.setValue (some 3)] ∧
      List.Forall₂ (OwnResult (s.ring ()) ()) [.called exchange 0]
        [.value [3, 2]] := by
  obtain ⟨s, hs, hvia, hreplies, hreceived⟩ :=
    Machine.exists_reachableUnder_of_exec (M := oneOnRing oneRead)
    (G := fun _ _ => True)
    (P := fun s => s.via () = [.called exchange 0] ∧
      (s.ops.op ()).replies = [.value [3, 2]] ∧
      (s.ops.op ()).received = [.setValue (some 3)])
    (s := idleWired) ⟨fun _ => rfl, fun _ => rfl, fun _ => rfl, fun _ => rfl⟩
    (beginTask ++ suspendIn exchange [8, 16] ++ answerPair exchange 3 2 ++
      [.ops (.leave ()), .ops (.complete ())]) (by decide)
  have hown := (replies_are_own_results hs ()).1
  rw [hvia, hreplies] at hown
  exact ⟨s, hs, hreceived, hown⟩

/-- The stop is requested while the fiber is suspended in a linked pair. -/
def stopInPair : List (WiredEvent Unit Unit Unit Empty Empty) :=
  [.ops (.requestStop ()), .ops (.callbackBegin ()), .forward () false,
    .ring () (.invoke (.inl ()) .fiber (.token (.inl ()))),
    .ring () (.pushCancel (.inl ()) .fiber false 8 [16]),
    .ring () (.writeCancel (.inl ()) .fiber false [16]),
    .ring () (.pushCancel (.inl ()) .fiber false 16 []),
    .ring () (.writeCancel (.inl ()) .fiber false []),
    .ring () (.finishStop (.token (.inl ()))), .ops (.callbackEnd ())]

/-- Both requests of the pair are to be cancelled. -/
theorem stop_reaches_kernel_pair :
    ∃ s : Wired Unit Unit Unit Empty Empty ℕ Unit,
      (oneOnRing oneRead).Reachable s ∧ s.ops.requested () = true ∧
      ∃ c, ((s.ring ()).fiber (.inl ())).call = some c ∧ c.addrs.length = 2 ∧
        ∀ n addr, c.addrs[n]? = some addr →
          (addr, .inl ()) ∈ (s.ring ()).cancelQueue ∧
              0 < (s.ring ()).notifyFd + (s.ring ()).notifyCqes +
                (s.ring ()).notifyProcessing + (s.ring ()).unwritten ∨
            [Ring.Op.io ((s.ring ()).current (.inl ()) n) addr false,
              .cancel addr (.inl ())].Sublist (s.ring ()).submitted := by
  obtain ⟨s, hs, hlive, hrequested, hlife, hcallback, hcallee, hcall⟩ :=
    Machine.exists_reachableUnder_of_exec (M := oneOnRing oneRead)
    (G := fun _ _ => True)
    (P := fun s => (s.ring ()).crashed = false ∧ s.ops.requested () = true ∧
      (s.ops.op ()).life = .alive ∧ (s.ops.op ()).callback = .ran ∧
      s.callee () = some exchange ∧
      (s.ring ()).inCall (.inl ()) fun c => c.form = .linked ∧
        c.phase = .waiting ∧ (c.cb .fiber).isRunning = false)
    (s := idleWired) ⟨fun _ => rfl, fun _ => rfl, fun _ => rfl, fun _ => rfl⟩
    (beginTask ++ suspendIn exchange [8, 16] ++ stopInPair) (by decide)
  obtain ⟨c, hc, hform, hphase, hidle⟩ := hcall
  obtain ⟨op, hop, -, haddrs, hway⟩ := stop_reaches_kernel hs hlive hrequested hlife
    (by simp [hcallback]) (by simp [hcallback]) (by simp [hcallback]) hc
  obtain rfl := Option.some.inj (hop.symm.trans hcallee)
  exact ⟨s, hs, hrequested, c, hc, haddrs, hway (by simp [hform]) hphase hidle⟩

/-- A callable that sleeps and then reads. -/
def napThenRead : Unit → Setup Unit ℕ Unit := fun _ =>
  { kind := .run
    source := some ()
    body := .io fun _ => .io fun ns => .ret (ns.head?.map Int.toNat) }

/-- The sleep is over, and then the time limit of the read passes: nobody has
requested a stop, and yet the receiver is completed with `set_stopped`. -/
theorem cancelled_call_stops_timed_out :
    ∃ s : Wired Unit Unit Unit Empty Empty ℕ Unit,
      (oneOnRing napThenRead).Reachable s ∧ s.ops.requested () = false ∧
      (s.ops.op ()).received.length = 1 ∧
      ∀ x ∈ (s.ops.op ()).received, x = .setStopped := by
  let read : Operation := .asyncRead ⟨5, false⟩ ⟨100, 4⟩ (some 1000)
  obtain ⟨s, hs, hrequested, hreceived, hvia, hreplies, hres⟩ :=
    Machine.exists_reachableUnder_of_exec (M := oneOnRing napThenRead)
    (G := fun _ _ => True)
    (P := fun s => s.ops.requested () = false ∧ (s.ops.op ()).received.length = 1 ∧
      (s.via ())[1]? = some (.called read 1) ∧
      (s.ops.op ()).replies.take 1 = [.value []] ∧
      (s.ring ()).result ⟨.inl (), 1, 0⟩ = some (-ecanceled))
    (s := idleWired) ⟨fun _ => rfl, fun _ => rfl, fun _ => rfl, fun _ => rfl⟩
    (beginTask ++ suspendIn (.asyncSleepFor 1000) [8] ++
      answerOne 0 (.asyncSleepFor 1000) (-62) ++ suspendIn read [8] ++
      answerOne 1 read (-125) ++ [.ops (.leave ()), .ops (.complete ())]) (by decide)
  have hcall : (napThenRead ()).body.feed ((s.ops.op ()).replies.take 1) =
      .io fun ns => .ret (ns.head?.map Int.toNat) := by
    rw [hreplies]
    rfl
  exact ⟨s, hs, hrequested, hreceived, cancelled_call_stops hs rfl
    (.io fun _ => .io fun ns => .ret (ns.head?.map Int.toNat)) hvia hcall (m := 0)
    (by decide) hres (by simp)⟩

end Fiberexec.Senders
