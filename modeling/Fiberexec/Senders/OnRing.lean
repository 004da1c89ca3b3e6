import Fiberexec.Ring.StopRequest
import Fiberexec.Senders.Calls
import Fiberexec.Senders.Cancellation
import Mathlib.Data.Fintype.Sum
import Mathlib.Data.List.Forall2

/-!
# Operations on the rings of their workers

The operations of `schedule` and `run` with the rings on which their fibers wait,
as one system.  The callables call the functions of `async_io.hpp` and
`async_send_zc`.  A call that `begin_async_op` lets through is a call on the ring of
its fiber's worker, with as many requests as the function makes, which is there
until the results are read and the stop callbacks removed; what the function makes
of the results is what the callable goes on with.  The `request_stop` of a
`stop_forwarder` runs the stop callbacks of that call.

Both parts keep the guarantees that they have alone, and `Link` ties each operation
to its ring.
-/

namespace Fiberexec.Senders

open Support
open AsyncIo (Operation)

variable {ω σ κ φ θ V X : Type}

/-! ## The composed system -/

/-- The stop tokens of the fibers: an operation's fiber has that of `fiber_stop_`,
if its receiver can be stopped; the workers have other fibers as well. -/
def tokens (setup : κ → Setup σ V X) (others : φ → Option θ) :
    κ ⊕ φ → Option (κ ⊕ θ)
  | .inl i => (setup i).source.map fun _ => .inl i
  | .inr f => (others f).map .inr

/-- `begin_async_op` throws. -/
def Op.refuses (o : Op V X) : Bool :=
  match o.fiber with
  | .running (.call checks _) => checks && o.stopRequested
  | _ => false

/-- Whether the call that the callable is about to make begins with
`begin_async_op`. -/
def Op.asks (o : Op V X) : Option Bool :=
  match o.fiber with
  | .running (.call checks _) => some checks
  | _ => none

/-- Where a reply comes from. -/
inductive Origin
  /-- `begin_async_op` threw -/
  | refused
  /-- the function returned without a request, as a sleep for no time does -/
  | immediate (op : Operation)
  /-- a call of the fiber on its ring, by its number -/
  | called (op : Operation) (serial : ℕ)
  deriving DecidableEq

def Origin.serial? : Origin → Option ℕ
  | .refused | .immediate _ => none
  | .called _ serial => some serial

/-- The origin of the reply of a call. -/
def origin (op : Operation) (serial : ℕ) : Origin :=
  if op.requests = [] then .immediate op else .called op serial

/-- The operations and the rings of the workers.  `callee` is the function that a
callable is in, and `via` has the origins of the replies that it got. -/
structure Wired (ω σ κ φ θ V X : Type) where
  ops : State σ κ V X
  ring : ω → Ring.State (κ ⊕ φ) (κ ⊕ θ)
  callee : κ → Option Operation
  via : κ → List Origin

inductive WiredEvent (ω σ κ φ θ : Type)
  /-- a step of an operation that has nothing to do with a ring -/
  | ops (e : Event σ κ)
  /-- `stop_forwarder` requests the stop, called by `stop_cb_.emplace` or by the
  requesting thread -/
  | forward (i : κ) (inline : Bool)
  /-- the callable calls a function, whose handlers are at `addrs` -/
  | call (i : κ) (op : Operation) (addrs : List ℕ)
  /-- the call ends, and `out` has the results of its requests -/
  | answer (i : κ) (op : Operation) (out : List ℤ)
  /-- a step on the ring of worker `w` that has nothing to do with an operation -/
  | ring (w : ω) (e : Ring.Event (κ ⊕ φ) (κ ⊕ θ))

/-- The part of a step that an operation takes. -/
def WiredEvent.ops? : WiredEvent ω σ κ φ θ → Option (Event σ κ)
  | .ops e => some e
  | .forward i true => some (.register i)
  | .forward i false => some (.callbackForward i)
  | .call i _ _ => some (.call i)
  | .answer i op out => some (.answer i (op.reply out))
  | .ring _ _ => none

/-- The part of a step that a ring takes, and which ring. -/
def WiredEvent.ring? (worker : κ → ω) :
    WiredEvent ω σ κ φ θ → Option (ω × Ring.Event (κ ⊕ φ) (κ ⊕ θ))
  | .ops _ => none
  | .forward i _ => some (worker i, .requestStop (.token (.inl i)))
  | .call i op addrs =>
      if op.requests = [] then none
      else some (worker i, .prepare (.inl i) op.form addrs)
  | .answer i op _ =>
      if op.requests = [] then none else some (worker i, .ret (.inl i))
  | .ring w e => some (w, e)

/-- The operation that a step is about. -/
def WiredEvent.op? : WiredEvent ω σ κ φ θ → Option κ
  | .ops e => e.op?
  | .forward i _ | .call i _ _ | .answer i _ _ => some i
  | .ring _ _ => none

/-- The steps on a ring that an operation takes part in. -/
def ofOperation : Ring.Event (κ ⊕ φ) (κ ⊕ θ) → Bool
  | .prepare (.inl _) _ _ | .ret (.inl _) | .requestStop (.token (.inl _)) => true
  | _ => false

section Machine

variable [DecidableEq ω] [DecidableEq σ] [DecidableEq κ] [DecidableEq φ]
  [DecidableEq θ] (setup : κ → Setup σ V X) (others : φ → Option θ)
  (worker : κ → ω)

/-- `request_stop` of the operation's `fiber_stop_` has run its callbacks. -/
def Wired.stopReturned (s : Wired ω σ κ φ θ V X) (i : κ) : Prop :=
  (s.ring (worker i)).stopping (.token (.inl i)) = false

/-- The worker's thread runs the operation's fiber, outside of any call. -/
def Wired.runs (s : Wired ω σ κ φ θ V X) (i : κ) : Prop :=
  (s.ring (worker i)).thread = .fiber (.inl i) ∧
    ((s.ring (worker i)).fiber (.inl i)).call.isNone = true

/-- What ties the steps of the two parts together.  No fiber is unwound, since the
pool waits for all of them. -/
def Wires (s : Wired ω σ κ φ θ V X) : WiredEvent ω σ κ φ θ → Prop
  | .ops (.register i) => s.ops.sourceRequested setup i = false
  | .ops (.post i) | .ops (.callbackEnd i) => s.stopReturned worker i
  | .ops (.enter i) | .ops (.leave i) | .ops (.complete i) => s.runs worker i
  | .ops (.call i) => s.runs worker i ∧ (s.ops.op i).refuses = true
  | .ops (.callbackForward _) | .ops (.answer _ _) | .ops (.unwind _) => False
  | .ops _ => True
  | .forward i inline => inline = true → s.ops.sourceRequested setup i = true
  | .call i op addrs =>
      (s.ops.op i).refuses = false ∧ (s.ops.op i).asks = some op.checks ∧
        addrs.length = op.requests.length ∧ (op.requests = [] → s.runs worker i)
  | .answer i op out =>
      s.callee i = some op ∧
        if op.requests = [] then out = [] ∧ s.runs worker i
        else (s.ring (worker i)).inCall (.inl i) fun c => c.out = out
  | .ring _ e => ofOperation e = false

def wiredEffect (s : Wired ω σ κ φ θ V X) (e : WiredEvent ω σ κ φ θ) :
    Wired ω σ κ φ θ V X where
  ops := e.ops?.elim s.ops (effect setup s.ops)
  ring := (e.ring? worker).elim s.ring fun r =>
    Function.update s.ring r.1
      (Ring.effect (tokens setup others) (s.ring r.1) r.2)
  callee :=
    match e with
    | .call i op _ => Function.update s.callee i (some op)
    | .answer i _ _ => Function.update s.callee i none
    | _ => s.callee
  via :=
    match e with
    | .ops (.call i) => Function.update s.via i (s.via i ++ [.refused])
    | .answer i op _ =>
        Function.update s.via i
          (s.via i ++ [origin op ((s.ring (worker i)).fiber (.inl i)).serial])
    | _ => s.via

/-- The operations and the rings as one system of atomic steps. -/
def wired : Machine (Wired ω σ κ φ θ V X) (WiredEvent ω σ κ φ θ) where
  init := fun s => s.ops.initial ∧ (∀ w, s.ring w = Ring.initial) ∧
    (∀ i, s.callee i = none) ∧ ∀ i, s.via i = []
  enabled := fun s e =>
    (∀ o ∈ e.ops?, enabled setup s.ops o) ∧
      (∀ r ∈ e.ring? worker, (s.ring r.1).crashed = false ∧
        Ring.enabled (tokens setup others) (s.ring r.1) r.2) ∧
      Wires setup worker s e
  effect := wiredEffect setup others worker

instance (s : Wired ω σ κ φ θ V X) (i : κ) :
    Decidable (s.stopReturned worker i) :=
  inferInstanceAs (Decidable
    ((s.ring (worker i)).stopping (.token (.inl i)) = false))

instance (s : Wired ω σ κ φ θ V X) (i : κ) : Decidable (s.runs worker i) :=
  inferInstanceAs (Decidable ((s.ring (worker i)).thread = .fiber (.inl i) ∧
    ((s.ring (worker i)).fiber (.inl i)).call.isNone = true))

instance (s : Wired ω σ κ φ θ V X) :
    (e : WiredEvent ω σ κ φ θ) → Decidable (Wires setup worker s e)
  | .ops e =>
      match e with
      | .register i =>
          inferInstanceAs (Decidable (s.ops.sourceRequested setup i = false))
      | .post i | .callbackEnd i =>
          inferInstanceAs (Decidable (s.stopReturned worker i))
      | .enter i | .leave i | .complete i =>
          inferInstanceAs (Decidable (s.runs worker i))
      | .call i =>
          inferInstanceAs (Decidable
            (s.runs worker i ∧ (s.ops.op i).refuses = true))
      | .callbackForward _ | .answer _ _ | .unwind _ => .isFalse id
      | .requestStop _ | .start _ | .callbackBegin _ | .destroyBegin _
      | .destroyEnd _ => .isTrue trivial
  | .forward i inline =>
      inferInstanceAs (Decidable
        (inline = true → s.ops.sourceRequested setup i = true))
  | .call i op addrs =>
      inferInstanceAs (Decidable
        ((s.ops.op i).refuses = false ∧ (s.ops.op i).asks = some op.checks ∧
          addrs.length = op.requests.length ∧ (op.requests = [] → s.runs worker i)))
  | .answer i op out =>
      inferInstanceAs (Decidable (s.callee i = some op ∧
        if op.requests = [] then out = [] ∧ s.runs worker i
        else (s.ring (worker i)).inCall (.inl i) fun c => c.out = out))
  | .ring _ e => inferInstanceAs (Decidable (ofOperation e = false))

instance [Fintype κ] [Fintype φ] (s : Wired ω σ κ φ θ V X)
    (e : WiredEvent ω σ κ φ θ) :
    Decidable ((wired setup others worker).enabled s e) :=
  have : ∀ o, Decidable (enabled setup s.ops o) := fun o =>
    inferInstanceAs (Decidable ((machine setup).enabled s.ops o))
  have : ∀ r : ω × Ring.Event (κ ⊕ φ) (κ ⊕ θ),
      Decidable ((s.ring r.1).crashed = false ∧
        Ring.enabled (tokens setup others) (s.ring r.1) r.2) := fun r =>
    inferInstanceAs (Decidable
      ((Ring.machine (tokens setup others)).enabled (s.ring r.1) r.2))
  inferInstanceAs (Decidable ((∀ o ∈ e.ops?, enabled setup s.ops o) ∧
    (∀ r ∈ e.ring? worker, (s.ring r.1).crashed = false ∧
      Ring.enabled (tokens setup others) (s.ring r.1) r.2) ∧
    Wires setup worker s e))

end Machine

/-! ## The two parts -/

section Parts

variable [DecidableEq ω] [DecidableEq σ] [DecidableEq κ] [DecidableEq φ]
  [DecidableEq θ] {setup : κ → Setup σ V X} {others : φ → Option θ}
  {worker : κ → ω} {s : Wired ω σ κ φ θ V X} {e : WiredEvent ω σ κ φ θ}

theorem wired_ops_reachable (h : (wired setup others worker).Reachable s) :
    (machine setup).Reachable s.ops := by
  refine Machine.ReachableUnder.component (M := wired setup others worker)
    (f := Wired.ops) (fun s hs => hs.1) ?_ h
  intro s e he _
  cases ho : e.ops? with
  | none => exact .inl (by simp [wired, wiredEffect, ho])
  | some o =>
      exact .inr ⟨o, he.1 o ho, trivial, by simp [wired, wiredEffect, ho, machine]⟩

theorem wired_ring_reachable
    (h : (wired setup others worker).Reachable s) (w : ω) :
    (Ring.machine (tokens setup others)).Reachable (s.ring w) := by
  refine Machine.ReachableUnder.component (M := wired setup others worker)
    (f := fun s => s.ring w) (fun s hs => hs.2.1 w) ?_ h
  intro s e he _
  cases hr : e.ring? worker with
  | none => exact .inl (by simp [wired, wiredEffect, hr])
  | some r =>
      obtain ⟨w', r⟩ := r
      by_cases hw : w = w'
      · subst hw
        exact .inr ⟨r, he.2.1 _ hr, trivial,
          by simp [wired, wiredEffect, hr, Ring.machine]⟩
      · exact .inl (by simp [wired, wiredEffect, hr, hw])

end Parts

/-! ## One operation and its ring -/

/-- A reply and its origin. -/
def Answers (r : Ring.State (κ ⊕ φ) (κ ⊕ θ)) (i : κ) : Origin → Reply → Prop
  | .refused, res => res = .error ecanceled
  | .immediate op, res => op.requests = [] ∧ res = op.reply []
  | .called op serial, res => ∃ out, (.inl i, serial, out) ∈ r.returned ∧
      out.length = op.requests.length ∧ res = op.reply out

/-- What ties an operation to the ring of its worker: its fiber waits while it is in
a function, and is in a call on the ring if the function makes requests; the stop of
`fiber_stop_` is requested on both sides, and `request_stop` returns before its caller
goes on; and the replies are refusals and what the functions made of the results, in
order. -/
structure Link (i : κ) (o : Op V X) (r : Ring.State (κ ⊕ φ) (κ ⊕ θ))
    (callee : Option Operation) (via : List Origin) : Prop where
  waits : o.fiber.atWait = callee.isSome
  called : (r.fiber (.inl i)).call.isSome = true ↔
    ∃ op ∈ callee, op.requests ≠ []
  addrs : ∀ c ∈ (r.fiber (.inl i)).call, ∀ op ∈ callee,
    c.form = op.form ∧ c.addrs.length = op.requests.length
  stop : r.requested (.token (.inl i)) = true ↔ o.fiberStop = some true
  stopping : r.stopping (.token (.inl i)) = true →
    o.callback = .forwarded ∨ o.callback = .ran ∧ o.starter = .posting
  replies : List.Forall₂ (Answers r i) via o.replies
  serials : via.filterMap Origin.serial? = List.range (r.fiber (.inl i)).serial

/-- Each operation is tied to its ring. -/
def Wired.Linked (s : Wired ω σ κ φ θ V X) (worker : κ → ω) (i : κ) : Prop :=
  Link i (s.ops.op i) (s.ring (worker i)) (s.callee i) (s.via i)

section Link

variable {i : κ} {o o' : Op V X} {r : Ring.State (κ ⊕ φ) (κ ⊕ θ)}
  {callee : Option Operation} {via : List Origin}

theorem Link.of_op
    (h : Link i o r callee via) (hwait : o'.fiber.atWait = o.fiber.atWait)
    (hstop : o'.fiberStop = some true ↔ o.fiberStop = some true)
    (hstopping : r.stopping (.token (.inl i)) = true →
      o'.callback = .forwarded ∨ o'.callback = .ran ∧ o'.starter = .posting)
    (hreplies : o'.replies = o.replies) : Link i o' r callee via :=
  ⟨hwait.trans h.waits, h.called, h.addrs, h.stop.trans hstop.symm, hstopping,
    hreplies ▸ h.replies, h.serials⟩

theorem stepBody_fields (c : Setup σ V X) (o : Op V X) (fiber : Fiber V X) :
    (o.stepBody c fiber).fiber = fiber ∧
      (o.stepBody c fiber).fiberStop = o.fiberStop ∧
      (o.stepBody c fiber).callback = o.callback ∧
      (o.stepBody c fiber).starter = o.starter ∧
      (o.stepBody c fiber).replies = o.replies := by
  simp only [Op.stepBody]
  split <;> simp

theorem Link.refuse
    (h : Link i o r callee via) (c : Setup σ V X) {checks : Bool}
    {k : Reply → Body V X} (hfiber : o.fiber = .running (.call checks k)) :
    Link i { o.stepBody c (.running (k (.error ecanceled))) with
      replies := o.replies ++ [.error ecanceled] } r callee
        (via ++ [.refused]) := by
  obtain ⟨hnext, hstop, hcallback, hstarter, -⟩ :=
    stepBody_fields c o (.running (k (.error ecanceled)))
  have hwaits := h.waits
  rw [hfiber] at hwaits
  refine ⟨?_, h.called, h.addrs, ?_, ?_, ?_, ?_⟩
  · simp only [hnext]
    exact hwaits
  · simp only [hstop]
    exact h.stop
  · simp only [hcallback, hstarter]
    exact h.stopping
  · exact List.rel_append h.replies (.cons rfl .nil)
  · rw [List.filterMap_append, h.serials]
    simp [Origin.serial?]

end Link

/-! ## Steps of a ring -/

section Ring

variable [DecidableEq κ] [DecidableEq φ] [DecidableEq θ]
  {token : κ ⊕ φ → Option (κ ⊕ θ)} {i : κ} {o : Op V X}
  {r : Ring.State (κ ⊕ φ) (κ ⊕ θ)} {callee : Option Operation} {via : List Origin}
  {e : Ring.Event (κ ⊕ φ) (κ ⊕ θ)}

theorem returned_mono
    {x : (κ ⊕ φ) × ℕ × List ℤ} (hx : x ∈ r.returned) :
    x ∈ (Ring.effect token r e).returned := by
  cases e with
  | ret f =>
      simp only [Ring.effect, Ring.ret]
      split
      · exact hx
      · exact List.mem_append_left _ hx
  | prepare f form addrs =>
      simp only [Ring.effect, Ring.prepare, Ring.startCall]
      split <;> exact hx
  | drain c rearm =>
      obtain ⟨_, _, _, _, _, _, _, hdrain⟩ := Ring.drain_frame r c rearm
      rw [Ring.effect, hdrain]
      exact hx
  | processNotify =>
      obtain ⟨_, _, _, _, _, hnotify⟩ := Ring.processNotify_frame r
      rw [Ring.effect, hnotify]
      exact hx
  | _ => exact hx

/-- The steps on a ring in which the operation takes no part. -/
structure Foreign (i : κ) (e : Ring.Event (κ ⊕ φ) (κ ⊕ θ)) : Prop where
  prepare : ∀ form addrs, e ≠ .prepare (.inl i) form addrs
  ret : e ≠ .ret (.inl i)
  stop : e ≠ .requestStop (.token (.inl i))

omit [DecidableEq κ] [DecidableEq φ] [DecidableEq θ] in
theorem foreign_of_ofOperation (h : ofOperation e = false) : Foreign i e := by
  refine ⟨?_, ?_, ?_⟩
  · rintro form addrs rfl
    cases h
  · rintro rfl
    cases h
  · rintro rfl
    cases h

theorem Answers.effect
    {v : Origin} {res : Reply} (h : Answers r i v res) :
    Answers (Ring.effect token r e) i v res := by
  cases v with
  | refused | immediate op => exact h
  | called op serial =>
      obtain ⟨out, hout, hreply⟩ := h
      exact ⟨out, returned_mono hout, hreply⟩

theorem Link.ring
    (h : Link i o r callee via) (hforeign : Foreign i e) :
    Link i o (Ring.effect token r e) callee via := by
  have hfiber : (Ring.effect token r e).fiber (.inl i) = _ :=
    Ring.fiber_effect hforeign.prepare hforeign.ret
  refine ⟨h.waits, ?_, ?_, ?_, ?_, h.replies.imp fun _ _ => Answers.effect, ?_⟩
  · rw [hfiber]
    simpa using h.called
  · rw [hfiber]
    intro c hc
    obtain ⟨c₀, hc₀, rfl⟩ := Option.map_eq_some_iff.mp hc
    obtain ⟨hform, haddrs⟩ := Ring.callStep_form_addrs token r (.inl i) e c₀
    rw [hform, haddrs]
    exact h.addrs c₀ hc₀
  · rcases Ring.source_effect token r e (.token (.inl i)) with
      ⟨hrequested, -⟩ | ⟨heq, -, -⟩ | ⟨-, hrequested⟩
    · rw [hrequested]
      exact h.stop
    · exact absurd heq hforeign.stop
    · rw [hrequested]
      exact h.stop
  · rcases Ring.source_effect token r e (.token (.inl i)) with
      ⟨-, hstopping⟩ | ⟨heq, -, -⟩ | ⟨rfl, -⟩
    · rw [hstopping]
      exact h.stopping
    · exact absurd heq hforeign.stop
    · simp [Ring.effect]
  · rw [hfiber]
    exact h.serials

theorem Link.call
    (h : Link i o r callee via) (hlive : r.crashed = false)
    (hscheduled : Ring.Scheduled r) {op : Operation} {addrs : List ℕ}
    (he : Ring.enabled token r (.prepare (.inl i) op.form addrs))
    (hne : op.requests ≠ []) (haddrs : addrs.length = op.requests.length)
    {o' : Op V X} (hfiber : o'.fiber.atWait = true)
    (hstop : o'.fiberStop = o.fiberStop) (hcallback : o'.callback = o.callback)
    (hstarter : o'.starter = o.starter) (hreplies : o'.replies = o.replies) :
    Link i o' (Ring.effect token r (.prepare (.inl i) op.form addrs)) (some op)
      via := by
  rw [hscheduled.prepare_eq hlive he]
  refine ⟨hfiber, ?_, ?_, ?_, ?_, ?_, ?_⟩
  · simp [Ring.startCall, hne]
  · simp [Ring.startCall, haddrs]
  · simpa [Ring.startCall, hstop] using h.stop
  · simpa [Ring.startCall, hcallback, hstarter] using h.stopping
  · rw [hreplies]
    exact h.replies
  · simpa [Ring.startCall] using h.serials

omit [DecidableEq κ] [DecidableEq φ] [DecidableEq θ] in
theorem Link.pass
    (h : Link i o r callee via) {op : Operation} (hnil : op.requests = [])
    (hcall : (r.fiber (.inl i)).call.isNone = true) {o' : Op V X}
    (hfiber : o'.fiber.atWait = true) (hstop : o'.fiberStop = o.fiberStop)
    (hcallback : o'.callback = o.callback) (hstarter : o'.starter = o.starter)
    (hreplies : o'.replies = o.replies) : Link i o' r (some op) via := by
  rw [Option.isNone_iff_eq_none] at hcall
  refine ⟨hfiber, by simp [hcall, hnil], by simp [hcall], hstop ▸ h.stop, ?_,
    hreplies ▸ h.replies, h.serials⟩
  rw [hcallback, hstarter]
  exact h.stopping

theorem Link.answer
    {op : Operation} (h : Link i o r (some op) via) (hne : op.requests ≠ [])
    {c : Ring.Call} (hcall : (r.fiber (.inl i)).call = some c)
    (hlength : c.out.length = c.addrs.length) {o' : Op V X}
    (hfiber : o'.fiber.atWait = false) (hstop : o'.fiberStop = o.fiberStop)
    (hcallback : o'.callback = o.callback) (hstarter : o'.starter = o.starter)
    (hreplies : o'.replies = o.replies ++ [op.reply c.out]) :
    Link i o' (Ring.effect token r (.ret (.inl i))) none
      (via ++ [origin op (r.fiber (.inl i)).serial]) := by
  refine ⟨hfiber, ?_, ?_, ?_, ?_, ?_, ?_⟩
  · simp [Ring.effect, Ring.ret, hcall]
  · simp
  · simpa [Ring.effect, Ring.ret, hcall, hstop] using h.stop
  · simpa [Ring.effect, Ring.ret, hcall, hcallback, hstarter] using h.stopping
  · rw [hreplies, origin, if_neg hne]
    refine List.rel_append (h.replies.imp fun _ _ => Answers.effect) (.cons ?_ .nil)
    refine ⟨c.out, ?_, hlength.trans (h.addrs c hcall op rfl).2, rfl⟩
    simp [Ring.effect, Ring.ret, hcall]
  · rw [List.filterMap_append, h.serials, origin, if_neg hne]
    simp [Ring.effect, Ring.ret, hcall, List.range_succ, Origin.serial?]

omit [DecidableEq κ] [DecidableEq φ] [DecidableEq θ] in
theorem Link.finish
    {op : Operation} (h : Link i o r (some op) via) (hnil : op.requests = [])
    (serial : ℕ) {o' : Op V X} (hfiber : o'.fiber.atWait = false)
    (hstop : o'.fiberStop = o.fiberStop) (hcallback : o'.callback = o.callback)
    (hstarter : o'.starter = o.starter)
    (hreplies : o'.replies = o.replies ++ [op.reply []]) :
    Link i o' r none (via ++ [origin op serial]) := by
  refine ⟨hfiber, ?_, by simp, hstop ▸ h.stop, ?_, ?_, ?_⟩
  · have hcalled := h.called
    simpa [hnil] using hcalled
  · rw [hcallback, hstarter]
    exact h.stopping
  · rw [hreplies, origin, if_pos hnil]
    exact List.rel_append h.replies (.cons ⟨hnil, rfl⟩ .nil)
  · rw [List.filterMap_append, h.serials, origin, if_pos hnil]
    simp [Origin.serial?]

theorem Link.forward
    (h : Link i o r callee via) {o' : Op V X} (hfiber : o'.fiber = o.fiber)
    (hstop : o'.fiberStop = some true)
    (hcallback : o'.callback = .forwarded ∨ o'.callback = .ran ∧
      o'.starter = .posting)
    (hreplies : o'.replies = o.replies) :
    Link i o' (Ring.effect token r (.requestStop (.token (.inl i)))) callee via := by
  refine ⟨?_, h.called, h.addrs, ?_, fun _ => hcallback, hreplies ▸ h.replies,
    h.serials⟩
  · rw [hfiber]
    exact h.waits
  · simp [Ring.effect, hstop]

end Ring

/-! ## Steps of an operation -/

section Steps

variable [DecidableEq ω] [DecidableEq σ] [DecidableEq κ] [DecidableEq φ]
  [DecidableEq θ] {setup : κ → Setup σ V X} {others : φ → Option θ}
  {worker : κ → ω} {s : Wired ω σ κ φ θ V X} {i : κ}

theorem link_ops
    {e : Event σ κ}
    (h : s.Linked worker i)
    (hsound : Sound (setup i) (s.ops.sourceRequested setup i) (s.ops.op i))
    (he : enabled setup s.ops e) (hi : e.op? = some i)
    (hwires : Wires setup worker s (.ops e)) :
    Link i ((effect setup s.ops e).op i) (s.ring (worker i)) (s.callee i)
      ((wiredEffect setup others worker s (.ops e)).via i) := by
  rw [op_effect hi]
  cases e with
  | requestStop src => cases hi
  | start j =>
      cases hi
      obtain ⟨hstarter, -⟩ := he
      have hidle : (s.ops.op i).callback = .absent ∧
          (s.ops.op i).fiberStop = none := by
        cases hsound.bridge with
        | idle _ hcallback hstop => exact ⟨hcallback, hstop⟩
        | bridging h _ _ _ => simp [hstarter] at h
        | unbridged h _ _ _ | bridged h _ _ => simp [hstarter] at h
      refine h.of_op ?_ ?_ ?_ ?_
      · simp only [State.step, Op.start]
        split <;> simp
      · simp only [State.step, Op.start]
        split <;> simp [hidle.2]
      · intro hstopping
        have hcallback := h.stopping hstopping
        simp [hidle.1] at hcallback
      · simp only [State.step, Op.start]
        split <;> simp
  | register j =>
      cases hi
      have hstarter : (s.ops.op i).starter = .bridging := he
      have hrequested : s.ops.sourceRequested setup i = false := hwires
      have habsent : (s.ops.op i).callback = .absent := by
        cases hsound.bridge with
        | idle h _ _ => simp [hstarter] at h
        | bridging _ _ hcallback _ => exact hcallback
        | unbridged h _ _ _ | bridged h _ _ => simp [hstarter] at h
      simp only [State.step, Op.register, hrequested, Bool.false_eq_true, if_false]
      refine h.of_op (by simp) (by simp) ?_ (by simp)
      intro hstopping
      have hcallback := h.stopping hstopping
      simp [habsent] at hcallback
  | post j =>
      cases hi
      have hstarter : (s.ops.op i).starter = .posting := he
      have hfiber := hsound.delivery.fiber_of_starting (by simp [hstarter])
      refine h.of_op ?_ (by simp [State.step, Op.post]) ?_
        (by simp [State.step, Op.post])
      · rw [hfiber]
        rfl
      · intro hstopping
        exact absurd hstopping (by rw [show _ = false from hwires]; decide)
  | callbackBegin j =>
      cases hi
      refine h.of_op rfl Iff.rfl ?_ rfl
      intro hstopping
      have hcallback := h.stopping hstopping
      simp [he.1] at hcallback
  | callbackForward j => exact hwires.elim
  | callbackEnd j =>
      cases hi
      refine h.of_op rfl Iff.rfl ?_ rfl
      intro hstopping
      exact absurd hstopping (by rw [show _ = false from hwires]; decide)
  | enter j =>
      cases hi
      have hfiber := Fiber.eq_queued he
      simp only [State.step, Op.enter]
      split <;> exact h.of_op (by simp [hfiber, Fiber.atWait]) (by simp)
        (by simpa using h.stopping) (by simp)
  | call j =>
      cases hi
      obtain ⟨checks, k, hfiber⟩ := Fiber.eq_call he
      have hrefuses : checks = true ∧ (s.ops.op i).stopRequested = true := by
        simpa [Op.refuses, hfiber] using hwires.2
      simp only [State.step, hfiber, Op.call, hrefuses.1, hrefuses.2, and_self,
        if_true, wiredEffect, Function.update_self]
      exact h.refuse (setup i) hfiber
  | answer j res => exact hwires.elim
  | unwind j => exact hwires.elim
  | leave j =>
      cases hi
      obtain ⟨b, x, hfiber, hx⟩ := Fiber.eq_end he
      simp only [State.step, hfiber, hx, Op.leave]
      split <;> exact h.of_op (by simp [hfiber, Fiber.atWait]) (by simp)
        (by simpa using h.stopping) (by simp)
  | complete j =>
      cases hi
      obtain ⟨x, hfiber⟩ := Fiber.eq_completing he
      simp only [State.step, hfiber, Op.complete]
      split <;> exact h.of_op (by simp [hfiber, Fiber.atWait]) (by simp)
        (by simpa using h.stopping) (by simp)
  | destroyBegin j =>
      cases hi
      refine h.of_op rfl Iff.rfl ?_ rfl
      intro hstopping
      have hcallback := h.stopping hstopping
      have hne : (s.ops.op i).callback ≠ .registered := by
        rintro hregistered
        simp [hregistered] at hcallback
      simpa [State.step, Op.destroyBegin, hne] using hcallback
  | destroyEnd j =>
      cases hi
      exact h.of_op rfl Iff.rfl h.stopping rfl

/-- What a step does to the ring of an operation. -/
theorem link_ring
    {o : Op V X} {callee : Option Operation} {via : List Origin}
    {e : WiredEvent ω σ κ φ θ} (h : Link i o (s.ring (worker i)) callee via)
    (hforeign : ∀ w r, e.ring? worker = some (w, r) → Foreign i r) :
    Link i o ((wiredEffect setup others worker s e).ring (worker i)) callee via := by
  simp only [wiredEffect]
  cases hr : e.ring? worker with
  | none => exact h
  | some r =>
      obtain ⟨w, r⟩ := r
      simp only [Option.elim_some]
      by_cases hw : worker i = w
      · subst hw
        rw [Function.update_self]
        exact h.ring (hforeign _ r hr)
      · rw [Function.update_of_ne hw]
        exact h

omit [DecidableEq ω] [DecidableEq σ] [DecidableEq κ] [DecidableEq φ]
  [DecidableEq θ] in
/-- The ring's part of a step that is not about the operation. -/
theorem foreign_of_ne
    {e : WiredEvent ω σ κ φ θ} (hwires : Wires setup worker s e)
    (hi : e.op? ≠ some i) {w : ω} {r : Ring.Event (κ ⊕ φ) (κ ⊕ θ)}
    (hr : e.ring? worker = some (w, r)) : Foreign i r := by
  cases e with
  | ops e => cases hr
  | forward j inline =>
      obtain ⟨-, rfl⟩ := Prod.mk.inj (Option.some.inj hr)
      exact ⟨by simp, by simp, by simpa [WiredEvent.op?] using hi⟩
  | call j op addrs =>
      simp only [WiredEvent.ring?] at hr
      split at hr
      · cases hr
      · obtain ⟨-, rfl⟩ := Prod.mk.inj (Option.some.inj hr)
        refine ⟨?_, by simp, by simp⟩
        rintro form' addrs heq
        simp only [Ring.Event.prepare.injEq, Sum.inl.injEq] at heq
        exact hi (congrArg some heq.1)
  | answer j op out =>
      simp only [WiredEvent.ring?] at hr
      split at hr
      · cases hr
      · obtain ⟨-, rfl⟩ := Prod.mk.inj (Option.some.inj hr)
        exact ⟨by simp, by simpa [WiredEvent.op?] using hi, by simp⟩
  | ring w' r' =>
      obtain ⟨-, rfl⟩ := Prod.mk.inj (Option.some.inj hr)
      exact foreign_of_ofOperation hwires

theorem link_of_ne
    {e : WiredEvent ω σ κ φ θ} (h : s.Linked worker i)
    (hwires : Wires setup worker s e) (hi : e.op? ≠ some i) :
    (wiredEffect setup others worker s e).Linked worker i := by
  have hop : (wiredEffect setup others worker s e).ops.op i = s.ops.op i := by
    cases e with
    | ops e => exact op_effect_of_ne hi
    | forward j inline =>
        cases inline with
        | true => exact op_effect_of_ne (e := .register j) hi
        | false => exact op_effect_of_ne (e := .callbackForward j) hi
    | call j op addrs => exact op_effect_of_ne (e := .call j) hi
    | answer j op out => exact op_effect_of_ne (e := .answer j (op.reply out)) hi
    | ring w r => rfl
  have hne : ∀ {α : Type} (f : κ → α) j (a : α), some j ≠ some i →
      Function.update f j a i = f i :=
    fun f j a hj => Function.update_of_ne (fun heq => hj (congrArg some heq.symm)) ..
  have hcallee : (wiredEffect setup others worker s e).callee i = s.callee i := by
    cases e with
    | call j op addrs => exact hne _ j _ hi
    | answer j op out => exact hne _ j _ hi
    | _ => rfl
  have hvia : (wiredEffect setup others worker s e).via i = s.via i := by
    cases e with
    | ops e =>
        cases e with
        | call j => exact hne _ j _ hi
        | _ => rfl
    | answer j op out => exact hne _ j _ hi
    | _ => rfl
  rw [Wired.Linked, hop, hcallee, hvia]
  exact link_ring h fun w r => foreign_of_ne hwires hi

theorem link_forward
    {inline : Bool} (h : s.Linked worker i)
    (hwires : Wires setup worker s (.forward i inline)) :
    (wiredEffect setup others worker s (.forward i inline)).Linked worker i := by
  simp only [Wired.Linked, wiredEffect, WiredEvent.ring?, Option.elim_some,
    Function.update_self]
  cases inline with
  | true =>
      have hrequested : s.ops.sourceRequested setup i = true := hwires rfl
      simp only [WiredEvent.ops?, Option.elim_some]
      rw [op_effect rfl]
      simp only [State.step, Op.register, hrequested, if_true]
      exact h.forward (by simp [Op.forward]) rfl (.inr ⟨rfl, rfl⟩)
        (by simp [Op.forward])
  | false =>
      simp only [WiredEvent.ops?, Option.elim_some]
      rw [op_effect rfl]
      exact h.forward (by simp [State.step, Op.forward]) rfl (.inl rfl)
        (by simp [State.step, Op.forward])

theorem link_call
    {op : Operation} {addrs : List ℕ}
    (hreach : (wired setup others worker).Reachable s) (h : s.Linked worker i)
    (he : (wired setup others worker).enabled s (.call i op addrs)) :
    (wiredEffect setup others worker s (.call i op addrs)).Linked worker i := by
  obtain ⟨hops, hring, hrefuses, -, haddrs, hruns⟩ := he
  obtain ⟨checks, k, hfiber⟩ := Fiber.eq_call (hops _ rfl)
  have hstop : ¬(checks = true ∧ (s.ops.op i).stopRequested = true) := by
    simpa [Op.refuses, hfiber] using hrefuses
  simp only [Wired.Linked, wiredEffect, WiredEvent.ops?, Option.elim_some,
    Function.update_self]
  rw [op_effect rfl]
  simp only [State.step, hfiber, Op.call, if_neg hstop]
  obtain ⟨hnext, hkept⟩ := stepBody_fields (setup i) (s.ops.op i) (.waiting k)
  by_cases hnil : op.requests = []
  · simp only [WiredEvent.ring?, if_pos hnil, Option.elim_none]
    exact h.pass hnil (hruns hnil).2 (by rw [hnext]; rfl) hkept.1 hkept.2.1
      hkept.2.2.1 hkept.2.2.2
  · obtain ⟨hlive, hprepare⟩ := hring _ (if_neg hnil)
    simp only [WiredEvent.ring?, if_neg hnil, Option.elim_some, Function.update_self]
    exact h.call hlive (Ring.reachable_scheduled (wired_ring_reachable hreach _))
      hprepare hnil haddrs (by rw [hnext]; rfl) hkept.1 hkept.2.1 hkept.2.2.1
      hkept.2.2.2

/-- What the function makes of its results is the reply. -/
theorem link_answer
    {op : Operation} {out : List ℤ}
    (hreach : (wired setup others worker).Reachable s) (h : s.Linked worker i)
    (he : (wired setup others worker).enabled s (.answer i op out)) :
    (wiredEffect setup others worker s (.answer i op out)).Linked worker i := by
  obtain ⟨hops, hring, hcallee, hout⟩ := he
  obtain ⟨k, hfiber⟩ := Fiber.eq_waiting (hops _ rfl)
  have h : Link i (s.ops.op i) (s.ring (worker i)) (some op) (s.via i) := hcallee ▸ h
  simp only [Wired.Linked, wiredEffect, WiredEvent.ops?, Option.elim_some,
    Function.update_self]
  rw [op_effect rfl]
  simp only [State.step, hfiber, Op.answer]
  obtain ⟨hnext, hkept⟩ :=
    stepBody_fields (setup i) (s.ops.op i) (.running (k (op.reply out)))
  by_cases hnil : op.requests = []
  · rw [if_pos hnil] at hout
    obtain ⟨rfl, -⟩ := hout
    simp only [WiredEvent.ring?, if_pos hnil, Option.elim_none]
    exact h.finish hnil _ (by rw [hnext]; rfl) hkept.1 hkept.2.1 hkept.2.2.1 rfl
  · rw [if_neg hnil] at hout
    obtain ⟨c, hcall, rfl⟩ := hout
    obtain ⟨-, hret⟩ := hring _ (if_neg hnil)
    have hread : c.phase.isRead = true := by
      rw [((Ring.State.inCall_iff hcall).mp hret.2).1]
      rfl
    have hsound := Ring.reachable_sound (wired_ring_reachable hreach (worker i))
    simp only [WiredEvent.ring?, if_neg hnil, Option.elim_some, Function.update_self]
    exact h.answer hnil hcall ((hsound.collected _ c hcall).read hread)
      (by rw [hnext]; rfl) hkept.1 hkept.2.1 hkept.2.2.1 rfl

theorem link_effect
    {e : WiredEvent ω σ κ φ θ} (hreach : (wired setup others worker).Reachable s)
    (h : s.Linked worker i) (he : (wired setup others worker).enabled s e) :
    (wiredEffect setup others worker s e).Linked worker i := by
  by_cases hi : e.op? = some i
  · cases e with
    | ops e =>
        exact link_ops h (sound_of_reachable (wired_ops_reachable hreach) i)
          (he.1 e rfl) hi he.2.2
    | forward j inline =>
        cases hi
        exact link_forward h he.2.2
    | call j op addrs =>
        cases hi
        exact link_call hreach h he
    | answer j op out =>
        cases hi
        exact link_answer hreach h he
    | ring w r => cases hi
  · exact link_of_ne h he.2.2 hi

theorem wired_linked_of_reachable
    (h : (wired setup others worker).Reachable s) (i : κ) : s.Linked worker i := by
  refine h.invariant (I := fun s => ∀ i, s.Linked worker i) ?_ ?_ i
  · rintro s ⟨hops, hring, hcallee, hvia⟩ i
    rw [Wired.Linked, hops i, hring, hcallee, hvia]
    constructor <;> simp [Op.initial, Fiber.atWait, Ring.initial]
  · intro s e hreach hlink he i
    exact link_effect hreach (hlink i) he

end Steps

end Fiberexec.Senders
