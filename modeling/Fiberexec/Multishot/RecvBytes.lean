import Fiberexec.Multishot.RecvBuffers
import Fiberexec.Multishot.RecvGeometry
import Fiberexec.Support.Memory
import Mathlib.Data.List.Forall2

/-!
# The bytes of a receiver

The receiver with its storage.  The kernel writes the bytes of a message into the
buffer that it selects, at the address and up to the length that the buffer ring
has for it; the user reads them through the `received_buffer` that `next` returns.

What is read is what arrived, in order, for as long as the `received_buffer`
exists: a buffer that somebody still looks at is not in the ring, and the buffers
do not overlap.
-/

namespace Fiberexec.Multishot.Recv.Bytes

open Support
open Fiberexec.Multishot.Recv.Stream

variable {β : Type}

/-! ## The system -/

/-- The receiver of `RecvStream` and `buf_storage_`.  `arrived` records the
messages in the order of their CQEs, and `origin` for each `received_buffer` the
number of the message for which `next` returned it. -/
structure State (β : Type) where
  stream : Stream.State
  mem : ℕ → β
  arrived : List (List β)
  origin : List ℕ

inductive Event (β : Type)
  /-- the kernel writes a message and posts its CQE, or posts a final CQE -/
  | post (c : Cqe) (message : List β)
  | step (e : Stream.Event)

def isPost : Stream.Event → Bool
  | .post _ => true
  | _ => false

/-- The messages to which the `received_buffer`s belong, after a step from `s` to
`s'`. -/
def originAfter (s s' : Stream.State) (origin : List ℕ) :
    Stream.Event → List ℕ
  | .next | .resume =>
      if s.returned.length < s'.returned.length then origin ++ [s.returned.length]
      else origin
  | .moveConstruct src => origin ++ [origin.getD src 0]
  | .moveAssign dst src =>
      if dst = src then origin else origin.set dst (origin.getD src 0)
  | .release i => origin.eraseIdx i
  | _ => origin

/-- When a step may be taken.  The kernel writes `res` bytes, and no more than the
length of the buffer. -/
def enabled (b : Buffers) (s : State β) : Event β → Prop
  | .post c message =>
      Stream.enabled s.stream (.post c) ∧ Provides s.stream (.post c) ∧
        message.length = c.res.toNat ∧
        ∀ id ∈ c.buffer, message.length ≤ (b.returnBuffer id).len
  | .step e => Stream.enabled s.stream e ∧ isPost e = false

/-- What a step does. -/
def effect (b : Buffers) (s : State β) : Event β → State β
  | .post c message =>
      { s with
        stream := Stream.effect s.stream (.post c)
        mem :=
          match c.buffer with
          | some id => Memory.write s.mem (b.returnBuffer id).addr message
          | none => s.mem
        arrived := if 0 < c.res then s.arrived ++ [message] else s.arrived }
  | .step e =>
      { s with
        stream := Stream.effect s.stream e
        origin := originAfter s.stream (Stream.effect s.stream e) s.origin e }

/-- The receivers with these buffers, as a system of atomic steps. -/
def machine (b : Buffers) (bufSize bufCount : ℕ) :
    Machine (State β) (Event β) where
  init := fun s => (Stream.machine bufSize bufCount).init s.stream ∧
    s.arrived = [] ∧ s.origin = []
  enabled := enabled b
  effect := effect b

instance (b : Buffers) (bufSize bufCount : ℕ) (s : State β) (e : Event β) :
    Decidable ((machine b bufSize bufCount).enabled s e) :=
  match e with
  | .post c message =>
      inferInstanceAs (Decidable
        ((Stream.machine bufSize bufCount).enabled s.stream (.post c) ∧
          Provides s.stream (.post c) ∧ message.length = c.res.toNat ∧
          ∀ id ∈ c.buffer, message.length ≤ (b.returnBuffer id).len))
  | .step e =>
      inferInstanceAs (Decidable
        ((Stream.machine bufSize bufCount).enabled s.stream e ∧
          isPost e = false))

/-- `received_buffer::data`, as the user reads it. -/
def view (b : Buffers) (mem : ℕ → β) (bufId size : ℕ) : List β :=
  Memory.read mem (b.data bufId size).offset (b.data bufId size).size

theorem stream_reachable
    {b : Buffers} {bufSize bufCount : ℕ} {s : State β}
    (h : (machine b bufSize bufCount).Reachable s) :
    (Stream.machine bufSize bufCount).ReachableUnder Provides s.stream := by
  refine Machine.ReachableUnder.component (M := machine b bufSize bufCount)
    (f := State.stream) (fun s hs => hs.1) ?_ h
  intro s e he _
  cases e with
  | post c message => exact .inr ⟨.post c, he.1, he.2.1, rfl⟩
  | step e =>
      refine .inr ⟨e, he.1, ?_, rfl⟩
      cases e with
      | post c => cases he.2
      | _ => trivial

/-! ## The messages of a run -/

/-- The messages for which there has been a CQE, in order. -/
def messages (s : Stream.State) : List PendingItem :=
  pairs (s.dispatched ++ s.ring.cq)

/-- They have been returned or discarded, or are in `pending_`, or have a CQE that
is not drained. -/
theorem messages_eq {s : Stream.State} (h : Ledger s) :
    messages s =
      s.returned ++ s.discarded ++ s.object.pending ++ pairs s.ring.cq := by
  rw [h.conserved, messages, pairs, List.filter_append, List.map_append]
  rfl

theorem message_of_returned
    {s : Stream.State} (h : Ledger s) {n : ℕ} {item : PendingItem}
    (hitem : s.returned[n]? = some item) : (messages s)[n]? = some item := by
  have hlt := (List.getElem?_eq_some_iff.mp hitem).1
  rw [messages_eq h, List.append_assoc, List.append_assoc,
    List.getElem?_append_left hlt, hitem]

theorem messages_post (s : Stream.State) (c : Cqe) :
    messages (Stream.effect s (.post c)) =
      messages s ++ if 0 < c.res then [c.item] else [] := by
  simp only [messages, Stream.effect, Requests.post, ← List.append_assoc,
    pairs_append]

theorem messages_effect
    {s : Stream.State} {e : Stream.Event} (he : isPost e = false) :
    messages (Stream.effect s e) = messages s := by
  have hsettle : ∀ caller r, messages (Stream.settle s caller r) = messages s := by
    intro caller r
    simp only [Stream.settle]
    split <;> rfl
  have hhandles : onHandles e = true →
      messages (Stream.effect s e) = messages s := by
    intro honHandles
    obtain ⟨hsame, -, hring⟩ := same_handles s honHandles
    rw [messages, messages, hsame.dispatched, hring]
  cases e with
  | post c => cases he
  | consume =>
      cases hsqes : s.sqes with
      | nil => simp [Stream.effect, hsqes]
      | cons sqe sqes =>
          simp only [Stream.effect, hsqes]
          cases sqe with
          | recv => rfl
          | cancel =>
              -- a cancelled request has no message
              simp only [execute]
              split
              · simp [messages, Requests.post, ← List.append_assoc,
                  pairs_append, canceledCqe, ecanceled]
              · rfl
  | drain gotSqe =>
      simp only [Stream.effect]
      split
      next c ring htake =>
        simp [messages, Stream.dispatch, Requests.cq_of_take htake]
      next => rfl
  | next | drainLoop => exact hsettle _ _
  | resume =>
      simp only [Stream.effect]
      split
      · exact hsettle _ _
      · rfl
  | moveConstruct src => exact hhandles rfl
  | moveAssign dst src => exact hhandles rfl
  | release i => exact hhandles rfl
  | destroy gotSqe => rfl
  | free => rfl
  | requestStop => rfl

/-! ## Which message a `received_buffer` is for -/

/-- A `received_buffer` after a step from `s` to `s'` is one from before, perhaps
moved, or `next` has just returned it. -/
inductive Descends (s : State β) (s' : Stream.State) (h' : ReceivedBuffer) (n : ℕ) :
    Prop
  | moved {i : ℕ} {h : ReceivedBuffer} (handle : s.stream.handles[i]? = some h)
      (origin : s.origin[i]? = some n) (id : h'.bufId = h.bufId)
      (size : h'.size = h.size) (owner : h'.owner = true → h.owner = true)
  | fresh (number : n = s.stream.returned.length)
      (returned : s'.returned = s.stream.returned ++ [⟨h'.bufId, h'.size⟩])
      (consuming : consuming s.stream.phase = true)

theorem Descends.same
    {s : State β} {s' : Stream.State} {j n : ℕ} {h : ReceivedBuffer}
    (hh : s.stream.handles[j]? = some h) (hn : s.origin[j]? = some n) :
    Descends s s' h n :=
  .moved hh hn rfl rfl id

theorem getElem?_concat_both
    {α γ : Type} {xs : List α} {ys : List γ} (hlength : ys.length = xs.length)
    {x a : α} {y b : γ} {j : ℕ} (hx : (xs ++ [x])[j]? = some a)
    (hy : (ys ++ [y])[j]? = some b) :
    xs[j]? = some a ∧ ys[j]? = some b ∨ a = x ∧ b = y := by
  rw [List.getElem?_append] at hx hy
  rw [hlength] at hy
  split at hx
  next hlt =>
      rw [if_pos hlt] at hy
      exact .inl ⟨hx, hy⟩
  next hlt =>
      rw [if_neg hlt, List.getElem?_singleton] at hy
      rw [List.getElem?_singleton] at hx
      split at hx
      next hzero =>
          rw [if_pos hzero] at hy
          exact .inr ⟨(Option.some.inj hx).symm, (Option.some.inj hy).symm⟩
      next => cases hx

theorem descends_settle
    {s : State β} {caller : Caller} {r : Object × Next}
    (hlength : s.origin.length = s.stream.handles.length)
    (hconsuming : caller = .user → consuming s.stream.phase = true)
    {j n : ℕ} {h' : ReceivedBuffer}
    (hh : (Stream.settle s.stream caller r).handles[j]? = some h')
    (hn : (if s.stream.returned.length <
        (Stream.settle s.stream caller r).returned.length
      then s.origin ++ [s.stream.returned.length] else s.origin)[j]? = some n) :
    Descends s (Stream.settle s.stream caller r) h' n := by
  obtain ⟨a, next⟩ := r
  by_cases hvalue : ∃ item, caller = .user ∧ next = .value item
  · obtain ⟨item, rfl, rfl⟩ := hvalue
    simp only [Stream.settle, List.length_append, List.length_singleton,
      Nat.lt_add_one, if_true] at hh hn
    rcases getElem?_concat_both hlength hh hn with ⟨hh, hn⟩ | ⟨rfl, rfl⟩
    · exact .same hh hn
    · exact .fresh rfl rfl (hconsuming rfl)
  · have hsame : (Stream.settle s.stream caller (a, next)).handles =
          s.stream.handles ∧
        (Stream.settle s.stream caller (a, next)).returned =
          s.stream.returned := by
      cases caller <;> cases next <;> simp_all [Stream.settle]
    rw [hsame.1] at hh
    rw [hsame.2, if_neg (Nat.lt_irrefl _)] at hn
    exact .same hh hn

/-- A move leaves two `received_buffer`s for the message of one. -/
theorem descends_moveConstruct
    {s : State β} {src : ℕ} (hlength : s.origin.length = s.stream.handles.length)
    {j n : ℕ} {h' : ReceivedBuffer} (hsrc : src < s.stream.handles.length)
    (hh : (Stream.effect s.stream (.moveConstruct src)).handles[j]? = some h')
    (hn : (s.origin ++ [s.origin.getD src 0])[j]? = some n) :
    Descends s (Stream.effect s.stream (.moveConstruct src)) h' n := by
  obtain ⟨b, hb⟩ : ∃ b, s.stream.handles[src]? = some b :=
    ⟨_, List.getElem?_eq_getElem hsrc⟩
  obtain ⟨m, hm⟩ : ∃ m, s.origin[src]? = some m :=
    ⟨_, List.getElem?_eq_getElem (hlength ▸ hsrc)⟩
  simp only [Stream.effect, hb] at hh
  rw [List.getD_eq_getElem?_getD, hm, Option.getD_some] at hn
  rcases getElem?_concat_both (by simpa using hlength) hh hn with
    ⟨hh, hn⟩ | ⟨rfl, rfl⟩
  · by_cases hj : src = j
    · subst hj
      rw [List.getElem?_set_self hsrc, Option.some.injEq] at hh
      subst hh
      exact .moved hb hn rfl rfl (by simp [ReceivedBuffer.movedFrom])
    · rw [List.getElem?_set_ne hj] at hh
      exact .same hh hn
  · exact .same hb hm

theorem descends_moveAssign
    {s : State β} {dst src : ℕ}
    (hlength : s.origin.length = s.stream.handles.length)
    {j n : ℕ} {h' : ReceivedBuffer} (hdst : dst < s.stream.handles.length)
    (hsrc : src < s.stream.handles.length) (hne : dst ≠ src)
    (hh : (Stream.effect s.stream (.moveAssign dst src)).handles[j]? = some h')
    (hn : (s.origin.set dst (s.origin.getD src 0))[j]? = some n) :
    Descends s (Stream.effect s.stream (.moveAssign dst src)) h' n := by
  obtain ⟨old, hold⟩ : ∃ old, s.stream.handles[dst]? = some old :=
    ⟨_, List.getElem?_eq_getElem hdst⟩
  obtain ⟨b, hb⟩ : ∃ b, s.stream.handles[src]? = some b :=
    ⟨_, List.getElem?_eq_getElem hsrc⟩
  obtain ⟨m, hm⟩ : ∃ m, s.origin[src]? = some m :=
    ⟨_, List.getElem?_eq_getElem (hlength ▸ hsrc)⟩
  simp only [Stream.effect, hne, if_false, hold, hb] at hh
  rw [List.getD_eq_getElem?_getD, hm, Option.getD_some] at hn
  by_cases hj : src = j
  · -- what the assignment leaves of its source
    subst hj
    rw [List.getElem?_set_self (by simpa using hsrc), Option.some.injEq] at hh
    rw [List.getElem?_set_ne hne] at hn
    subst hh
    exact .moved hb hn rfl rfl (by simp [ReceivedBuffer.movedFrom])
  · rw [List.getElem?_set_ne hj] at hh
    by_cases hj' : dst = j
    · subst hj'
      rw [List.getElem?_set_self hdst, Option.some.injEq] at hh
      rw [List.getElem?_set_self (hlength ▸ hdst), Option.some.injEq] at hn
      subst hh hn
      exact .same hb hm
    · rw [List.getElem?_set_ne hj'] at hh hn
      exact .same hh hn

theorem descends_release
    {s : State β} {i : ℕ} {j n : ℕ} {h' : ReceivedBuffer}
    (hi : i < s.stream.handles.length)
    (hh : (Stream.effect s.stream (.release i)).handles[j]? = some h')
    (hn : (s.origin.eraseIdx i)[j]? = some n) :
    Descends s (Stream.effect s.stream (.release i)) h' n := by
  obtain ⟨b, hb⟩ : ∃ b, s.stream.handles[i]? = some b :=
    ⟨_, List.getElem?_eq_getElem hi⟩
  simp only [Stream.effect, hb] at hh
  rw [List.getElem?_eraseIdx] at hh hn
  split at hh
  next hlt =>
      rw [if_pos hlt] at hn
      exact .same hh hn
  next hlt =>
      rw [if_neg hlt] at hn
      exact .same hh hn

/-- Where the `received_buffer`s of a step come from. -/
theorem descends_effect
    {s : State β} {e : Stream.Event} (he : Stream.enabled s.stream e)
    (hpost : isPost e = false)
    (hlength : s.origin.length = s.stream.handles.length) {j n : ℕ}
    {h' : ReceivedBuffer} (hh : (Stream.effect s.stream e).handles[j]? = some h')
    (hn : (originAfter s.stream (Stream.effect s.stream e) s.origin e)[j]? =
      some n) :
    Descends s (Stream.effect s.stream e) h' n := by
  cases e with
  | post c => cases hpost
  | consume =>
      refine .same ?_ hn
      simp only [Stream.effect] at hh
      split at hh <;> exact hh
  | drain gotSqe =>
      refine .same ?_ hn
      simp only [Stream.effect] at hh
      split at hh <;> exact hh
  | next =>
      refine descends_settle hlength (fun _ => ?_) hh hn
      rw [show s.stream.phase = .user from he]
      rfl
  | resume =>
      obtain ⟨caller, hp⟩ := he
      simp only [originAfter, Stream.effect, hp] at hh hn ⊢
      refine descends_settle hlength ?_ hh hn
      rintro rfl
      rw [hp]
      rfl
  | moveConstruct src => exact descends_moveConstruct hlength he.1 hh hn
  | moveAssign dst src =>
      by_cases hne : dst = src
      · simp only [originAfter, Stream.effect, hne, if_true] at hh hn
        exact .same hh hn
      · simp only [originAfter, hne, if_false] at hn
        exact descends_moveAssign hlength he.1 he.2.1 hne hh hn
  | release i => exact descends_release he.1 hh hn
  | drainLoop =>
      refine .same ?_ hn
      simp only [Stream.effect, Stream.settle] at hh
      split at hh <;> first | exact hh | contradiction
  | destroy gotSqe => exact .same hh hn
  | free => exact .same hh hn
  | requestStop => exact .same hh hn

theorem length_originAfter_settle
    {s : State β} (hlength : s.origin.length = s.stream.handles.length)
    (caller : Caller) (r : Object × Next) :
    (if s.stream.returned.length <
        (Stream.settle s.stream caller r).returned.length
      then s.origin ++ [s.stream.returned.length] else s.origin).length =
      (Stream.settle s.stream caller r).handles.length := by
  obtain ⟨a, next⟩ := r
  cases caller <;> cases next <;> simp [Stream.settle, hlength]

theorem length_originAfter
    {s : State β} {e : Stream.Event} (he : Stream.enabled s.stream e)
    (hlength : s.origin.length = s.stream.handles.length) :
    (originAfter s.stream (Stream.effect s.stream e) s.origin e).length =
      (Stream.effect s.stream e).handles.length := by
  cases e with
  | post c => exact hlength
  | consume =>
      simp only [originAfter, Stream.effect]
      split <;> exact hlength
  | drain gotSqe =>
      simp only [originAfter, Stream.effect]
      split <;> exact hlength
  | next => exact length_originAfter_settle hlength _ _
  | resume =>
      obtain ⟨caller, hp⟩ := he
      simp only [originAfter, Stream.effect, hp]
      exact length_originAfter_settle hlength _ _
  | moveConstruct src =>
      simp [originAfter, Stream.effect, List.getElem?_eq_getElem he.1, hlength]
  | moveAssign dst src =>
      by_cases hne : dst = src
      · simp [originAfter, Stream.effect, hne, hlength]
      · simp [originAfter, Stream.effect, hne, List.getElem?_eq_getElem he.1,
          List.getElem?_eq_getElem he.2.1, hlength]
  | release i =>
      simp [originAfter, Stream.effect, List.getElem?_eq_getElem he.1,
        List.length_eraseIdx, hlength]
  | drainLoop =>
      simp only [originAfter, Stream.effect, Stream.settle]
      split <;> first | exact hlength | contradiction
  | destroy gotSqe => exact hlength
  | free => exact hlength
  | requestStop => exact hlength

theorem history_grows
    (s : Stream.State) (e : Stream.Event) :
    (∃ items, (Stream.effect s e).returned = s.returned ++ items) ∧
      ∃ items, (Stream.effect s e).discarded = s.discarded ++ items := by
  have hsame : ∀ s' : Stream.State, s'.returned = s.returned →
      s'.discarded = s.discarded →
      (∃ items, s'.returned = s.returned ++ items) ∧
        ∃ items, s'.discarded = s.discarded ++ items := by
    intro s' hreturned hdiscarded
    exact ⟨⟨[], by simp [hreturned]⟩, [], by simp [hdiscarded]⟩
  have hsettle : ∀ caller r,
      (∃ items, (Stream.settle s caller r).returned = s.returned ++ items) ∧
        ∃ items, (Stream.settle s caller r).discarded = s.discarded ++ items := by
    rintro caller ⟨a, next⟩
    cases caller <;> cases next <;> simp [Stream.settle]
  have hhandles : onHandles e = true →
      (∃ items, (Stream.effect s e).returned = s.returned ++ items) ∧
        ∃ items, (Stream.effect s e).discarded = s.discarded ++ items := by
    intro honHandles
    obtain ⟨hfields, -⟩ := same_handles s honHandles
    exact hsame _ hfields.returned hfields.discarded
  cases e with
  | post c => exact hsame _ rfl rfl
  | consume =>
      simp only [Stream.effect]
      split <;> exact hsame _ rfl rfl
  | drain gotSqe =>
      simp only [Stream.effect]
      split <;> exact hsame _ rfl rfl
  | next | drainLoop => exact hsettle _ _
  | resume =>
      simp only [Stream.effect]
      split
      · exact hsettle _ _
      · exact hsame _ rfl rfl
  | moveConstruct src => exact hhandles rfl
  | moveAssign dst src => exact hhandles rfl
  | release i => exact hhandles rfl
  | destroy gotSqe => exact ⟨⟨[], by simp [Stream.effect]⟩, _, rfl⟩
  | free => exact hsame _ rfl rfl
  | requestStop => exact hsame _ rfl rfl

/-! ## What is in the buffers -/

/-- Somebody is still to look at the `n`-th message: it has been neither returned
nor discarded, or a `received_buffer` owns it. -/
def Live (s : State β) (n : ℕ) : Prop :=
  s.stream.returned.length + s.stream.discarded.length ≤ n ∨
    ∃ (j : ℕ) (h : ReceivedBuffer), s.stream.handles[j]? = some h ∧
      s.origin[j]? = some n ∧ h.owner = true

/-- A message and the pair that `complete` makes of its CQE. -/
def Fits (b : Buffers) (item : PendingItem) (message : List β) : Prop :=
  item.size = message.length ∧
    message.length ≤ (b.returnBuffer item.bufId).len

/-- The storage has what arrived, as far as somebody is still to look at it. -/
structure Faithful (b : Buffers) (s : State β) : Prop where
  fits : List.Forall₂ (Fits b) (messages s.stream) s.arrived
  tracked : s.origin.length = s.stream.handles.length
  origin : ∀ (j n : ℕ) h, s.stream.handles[j]? = some h →
    s.origin[j]? = some n → s.stream.returned[n]? = some ⟨h.bufId, h.size⟩
  shows : s.stream.object.bufRing ≠ none → ∀ (n : ℕ) item message,
    (messages s.stream)[n]? = some item → s.arrived[n]? = some message →
    Live s n → view b s.mem item.bufId item.size = message

/-- The buffer of a message that somebody is still to look at is not in the
ring. -/
theorem Faithful.held
    {b : Buffers} {s : State β} (hf : Faithful b s) (hledger : Ledger s.stream)
    (hattached : Attached s.stream) {n : ℕ} {item : PendingItem}
    (hitem : (messages s.stream)[n]? = some item) (hlive : Live s n) :
    0 < attached s.stream item.bufId + buffered s.stream item.bufId +
      owned s.stream item.bufId := by
  rcases hlive with hle | ⟨j, h, hh, hn, howner⟩
  · rw [messages_eq hledger, List.append_assoc,
      List.getElem?_append_right (by simpa using hle)] at hitem
    rcases List.mem_append.mp (List.mem_of_getElem? hitem) with hmem | hmem
    · have hpos : 0 < buffered s.stream item.bufId :=
        List.count_pos_iff.mpr (List.mem_map_of_mem hmem)
      omega
    · obtain ⟨c, hc, rfl⟩ := List.mem_map.mp hmem
      obtain ⟨hcq, hres⟩ := List.mem_filter.mp hc
      obtain ⟨id, hid⟩ := Option.ne_none_iff_exists'.mp
        (hattached c hcq (of_decide_eq_true hres))
      have hpos : 0 < attached s.stream c.item.bufId :=
        List.countP_pos_iff.mpr ⟨c, hcq, by simp [Cqe.item, hid]⟩
      omega
  · rw [message_of_returned hledger (hf.origin j n h hh hn),
      Option.some.injEq] at hitem
    subst hitem
    have hpos : 0 < owned s.stream h.bufId :=
      List.countP_pos_iff.mpr
        ⟨h, List.mem_of_getElem? hh, by simp [owns, howner]⟩
    simp only
    omega

theorem apart_returnBuffer
    {b : Buffers} {bufSize bufCount : ℕ} (hsound : b.Sound bufSize bufCount)
    {id id' : ℕ} (hid : id < bitCeil bufCount)
    (hid' : id' < bitCeil bufCount) (hne : id ≠ id') :
    (b.returnBuffer id).span.Apart (b.returnBuffer id').span := by
  have hentry : ∀ i < bitCeil bufCount,
      b.provided[i]? = some (b.returnBuffer i) := by
    intro i hi
    rw [← hsound.count] at hi
    have hget := List.getElem?_eq_getElem hi
    have hbid := hsound.ids i _ hget
    rw [hget, ← hsound.returned _ (List.getElem_mem hi), hbid]
  exact hsound.apart id id' _ _ (hentry id hid) (hentry id' hid') hne

/-- Where the kernel writes, nobody is still to look. -/
theorem Faithful.view_post
    {b : Buffers} {bufSize bufCount : ℕ} (hsound : b.Sound bufSize bufCount)
    {s : State β} (hf : Faithful b s) (hledger : Ledger s.stream)
    (hattached : Attached s.stream)
    (hplaces : ∀ id, places s.stream id =
      if id < bitCeil bufCount then 1 else 0)
    {id : ℕ} (hid : id ∈ provided s.stream) {message : List β}
    (hlength : message.length ≤ (b.returnBuffer id).len) {n : ℕ}
    {item : PendingItem} {shown : List β}
    (hitem : (messages s.stream)[n]? = some item)
    (hshown : s.arrived[n]? = some shown) (hlive : Live s n) :
    view b (Memory.write s.mem (b.returnBuffer id).addr message) item.bufId
      item.size = view b s.mem item.bufId item.size := by
  have hheld := hf.held hledger hattached hitem hlive
  have hpos : 0 < (provided s.stream).count id := List.count_pos_iff.mpr hid
  have hitemPlaces := hplaces item.bufId
  have hidPlaces := hplaces id
  simp only [places] at hitemPlaces hidPlaces
  -- the buffer of the message is in no other place than where it is held
  have hne : item.bufId ≠ id := by
    rintro rfl
    split at hitemPlaces <;> omega
  have hitemLt : item.bufId < bitCeil bufCount := by
    by_contra hge
    rw [if_neg hge] at hitemPlaces
    omega
  have hidLt : id < bitCeil bufCount := by
    by_contra hge
    rw [if_neg hge] at hidPlaces
    omega
  obtain ⟨hlt, hitemEq⟩ := List.getElem?_eq_some_iff.mp hitem
  obtain ⟨hlt', hshownEq⟩ := List.getElem?_eq_some_iff.mp hshown
  have hfits : Fits b item shown := by
    have hget := hf.fits.get hlt hlt'
    simp only [List.get_eq_getElem] at hget
    rwa [hitemEq, hshownEq] at hget
  have hapart := apart_returnBuffer hsound hitemLt hidLt hne
  simp only [Span.Apart, Provided.span] at hapart
  refine Memory.read_write_of_apart s.mem ?_
  simp only [Buffers.data]
  have hsize := hfits.1
  have hfit := hfits.2
  simp only [Buffers.returnBuffer] at hapart hfit hlength ⊢
  omega

theorem Faithful.post
    {b : Buffers} {bufSize bufCount : ℕ} (hsound : b.Sound bufSize bufCount)
    {s : State β} (hf : Faithful b s) (hledger : Ledger s.stream)
    (hplace : InOnePlace (bitCeil bufCount) s.stream ∧ Attached s.stream)
    {c : Cqe} {message : List β} (he : enabled b s (.post c message)) :
    Faithful b (effect b s (.post c message)) := by
  obtain ⟨-, ⟨hdata, hprovides⟩, hres, hlen⟩ := he
  have hitem : 0 < c.res → ∃ id, c.buffer = some id ∧ c.item.bufId = id := by
    intro hpos
    obtain ⟨id, hid⟩ := Option.ne_none_iff_exists'.mp (hdata hpos)
    exact ⟨id, hid, by simp [Cqe.item, hid]⟩
  refine ⟨?_, hf.tracked, hf.origin, ?_⟩
  · simp only [effect, messages_post]
    split
    next hpos =>
        obtain ⟨id, hid, hbufId⟩ := hitem hpos
        refine List.rel_append hf.fits (.cons ⟨hres.symm, ?_⟩ .nil)
        rw [hbufId]
        exact hlen id hid
    next => simpa using hf.fits
  · intro hring n item shown hmessage harrived hlive
    have hring' : s.stream.object.bufRing ≠ none := bufRing_of_effect hring
    -- a message from before is as it was
    have hold : (messages s.stream)[n]? = some item →
        s.arrived[n]? = some shown →
        view b (effect b s (.post c message)).mem item.bufId item.size =
          shown := by
      intro hmessage harrived
      have hbefore := hf.shows hring' n item shown hmessage harrived hlive
      simp only [effect]
      cases hbuffer : c.buffer with
      | none => exact hbefore
      | some id =>
          have hid : id ∈ provided s.stream := by
            obtain ⟨ids, hids⟩ := Option.ne_none_iff_exists'.mp hring'
            have hmem := hprovides id hbuffer
            simpa [provided, Object.provides, hids] using hmem
          exact (hf.view_post hsound hledger hplace.2 (hplace.1 hring') hid
            (hlen id hbuffer) hmessage harrived hlive).trans hbefore
    simp only [effect, messages_post] at hmessage harrived
    split at hmessage
    next hpos =>
        rw [if_pos hpos] at harrived
        rcases getElem?_concat_both hf.fits.length_eq.symm hmessage harrived with
          ⟨hmessage, harrived⟩ | ⟨hlast, hlast'⟩
        · exact hold hmessage harrived
        · obtain ⟨id, hid, hbufId⟩ := hitem hpos
          rw [hlast, hlast', hbufId, show c.item.size = message.length from hres.symm]
          simp only [effect, hid]
          exact Memory.read_write_self s.mem _ message
    next hpos =>
        rw [if_neg hpos] at harrived
        exact hold (by simpa using hmessage) harrived

theorem Faithful.step
    {b : Buffers} {s : State β} (hf : Faithful b s) (hledger : Ledger s.stream)
    {e : Stream.Event} (he : Stream.enabled s.stream e) (hpost : isPost e = false) :
    Faithful b (effect b s (.step e)) := by
  have hdescends : ∀ {j n : ℕ} {h' : ReceivedBuffer},
      (Stream.effect s.stream e).handles[j]? = some h' →
      (originAfter s.stream (Stream.effect s.stream e) s.origin e)[j]? = some n →
      Descends s (Stream.effect s.stream e) h' n :=
    fun hh hn => descends_effect he hpost hf.tracked hh hn
  obtain ⟨⟨items, hreturned⟩, items', hdiscarded⟩ := history_grows s.stream e
  have hmessages := messages_effect (s := s.stream) hpost
  refine ⟨?_, length_originAfter he hf.tracked, ?_, ?_⟩
  · simp only [effect, hmessages]
    exact hf.fits
  · intro j n h' hh hn
    cases hdescends hh hn with
    | moved handle origin id size owner =>
        have hbefore := hf.origin _ n _ handle origin
        have hlt := (List.getElem?_eq_some_iff.mp hbefore).1
        rw [id, size]
        simp only [effect, hreturned]
        rw [List.getElem?_append_left hlt, hbefore]
    | fresh number returned consuming =>
        simp only [effect]
        rw [returned, number, List.getElem?_concat_length]
  · intro hring n item message hmessage harrived hlive
    refine hf.shows (bufRing_of_effect hring) n item message
      (hmessages ▸ hmessage) harrived ?_
    -- whoever is still to look was so before
    rcases hlive with hle | ⟨j, h', hh, hn, howner⟩
    · simp only [effect, hreturned, hdiscarded, List.length_append] at hle
      exact .inl (by omega)
    · cases hdescends hh hn with
      | moved handle origin id size owner =>
          exact .inr ⟨_, _, handle, origin, owner howner⟩
      | fresh number returned consuming =>
          refine .inl ?_
          rw [hledger.opened consuming, number]
          exact le_rfl

theorem faithful_of_reachable
    {b : Buffers} {bufSize bufCount : ℕ} (hsound : b.Sound bufSize bufCount)
    {s : State β} (h : (machine b bufSize bufCount).Reachable s) :
    Faithful b s := by
  refine h.invariant ?_ ?_
  · rintro s ⟨hinit, harrived, horigin⟩
    have hstream := Stream.eq_initial_of_init hinit
    refine ⟨?_, ?_, ?_, ?_⟩ <;>
      simp [hstream, Stream.initial, messages, pairs, harrived, horigin]
  · intro s e hs hf he
    have hstream := stream_reachable hs
    have hledger := ledger_of_reachable hstream.reachable
    cases e with
    | post c message =>
        exact hf.post hsound hledger (inOnePlace_of_provides hstream) he
    | step e => exact hf.step hledger he.1 he.2

/-! ## What the user reads -/

theorem eq_of_owners
    {s : Stream.State} {id : ℕ} (hone : owned s id ≤ 1) {i j : ℕ}
    {hi hj : ReceivedBuffer} (hgetI : s.handles[i]? = some hi)
    (hgetJ : s.handles[j]? = some hj) (hownsI : owns id hi = true)
    (hownsJ : owns id hj = true) : i = j := by
  by_contra hne
  have herase := countP_eraseIdx_add (p := owns id) hgetI
  rw [if_pos hownsI] at herase
  have hrest : 0 < (s.handles.eraseIdx i).countP (owns id) :=
    List.countP_pos_iff.mpr
      ⟨hj, List.mem_eraseIdx_iff_getElem?.mpr ⟨j, Ne.symm hne, hgetJ⟩, hownsJ⟩
  simp only [owned] at hone
  omega

/-- While an accepted receiver with buffers of 32-bit size exists, each message that
`next` has returned is the one that arrived in its turn, with its length.  Each
`received_buffer` that owns its buffer shows all bytes of the message for which it
was returned, however often it has been moved and whatever has arrived since; and
no other one owns that message. -/
theorem received_bytes_intact
    (t : Thread) (a : Answers) (bufSize bufCount : ℕ) (b : Buffers)
    (hb : (construct t a bufSize bufCount).2 = .ok b) (hsize : bufSize < 2 ^ 32)
    (s : State β) (h : (machine b bufSize bufCount).Reachable s)
    (hring : s.stream.object.bufRing ≠ none) :
    (∀ (n : ℕ) item, s.stream.returned[n]? = some item →
        ∃ message, s.arrived[n]? = some message ∧ message.length = item.size) ∧
      ∀ (j : ℕ) buffer, s.stream.handles[j]? = some buffer →
        buffer.owner = true →
        ∃ n, s.origin[j]? = some n ∧
          s.stream.returned[n]? = some ⟨buffer.bufId, buffer.size⟩ ∧
          s.arrived[n]? = some (view b s.mem buffer.bufId buffer.size) ∧
          ∀ (i : ℕ) other, s.stream.handles[i]? = some other →
            other.owner = true → s.origin[i]? = some n → i = j := by
  have hf := faithful_of_reachable (sound_of_small hb hsize) h
  have hstream := stream_reachable h
  have hledger := ledger_of_reachable hstream.reachable
  have hplaces := (inOnePlace_of_provides hstream).1 hring
  -- what was returned is a message of the run, and so it arrived
  have harrived : ∀ (n : ℕ) item, s.stream.returned[n]? = some item →
      (messages s.stream)[n]? = some item ∧
        ∃ message, s.arrived[n]? = some message ∧ message.length = item.size := by
    intro n item hitem
    have hmessage := message_of_returned hledger hitem
    obtain ⟨hlt, hget⟩ := List.getElem?_eq_some_iff.mp hmessage
    have hlt' : n < s.arrived.length := hf.fits.length_eq ▸ hlt
    have hfits := hf.fits.get hlt hlt'
    simp only [List.get_eq_getElem] at hfits
    rw [hget] at hfits
    exact ⟨hmessage, _, List.getElem?_eq_getElem hlt', hfits.1.symm⟩
  refine ⟨fun n item hitem => (harrived n item hitem).2, ?_⟩
  intro j buffer hbuffer howner
  obtain ⟨n, hn⟩ : ∃ n, s.origin[j]? = some n := by
    have hlt := (List.getElem?_eq_some_iff.mp hbuffer).1
    exact ⟨_, List.getElem?_eq_getElem (hf.tracked ▸ hlt)⟩
  have hreturned := hf.origin j n buffer hbuffer hn
  obtain ⟨hmessage, message, hmem, -⟩ := harrived n _ hreturned
  have hshows := hf.shows hring n _ message hmessage hmem
    (.inr ⟨j, buffer, hbuffer, hn, howner⟩)
  refine ⟨n, hn, hreturned, hshows.symm ▸ hmem, ?_⟩
  intro i other hother howner' hn'
  have hsame := hf.origin i n other hother hn'
  rw [hreturned, Option.some.injEq, PendingItem.mk.injEq] at hsame
  have hone : owned s.stream buffer.bufId ≤ 1 := by
    have hid := hplaces buffer.bufId
    simp only [places] at hid
    split at hid <;> omega
  exact eq_of_owners hone hother hbuffer (by simp [owns, howner', hsame.1])
    (by simp [owns, howner])

/-- The first of three messages is returned, moved and kept, while the buffer of the
second is used again for the third. -/
theorem received_bytes_intact_kept :
    ∃ (b : Buffers) (s : State ℕ), (machine b 4 2).Reachable s ∧
      s.arrived = [[1, 2, 3], [7], [8, 9]] ∧
      s.stream.handles = [⟨false, 0, 3⟩, ⟨true, 0, 3⟩] ∧
      view b s.mem 0 3 = [1, 2, 3] := by
  have hb : (construct ⟨0, []⟩ .good 4 2).2 =
      .ok ⟨0, 4, 2, 8, [⟨0, 4, 0⟩, ⟨4, 4, 1⟩]⟩ := rfl
  obtain ⟨s, hs, hring, harrived, hhandles, horigin⟩ :=
    Machine.exists_reachableUnder_of_exec
      (M := machine ⟨0, 4, 2, 8, [⟨0, 4, 0⟩, ⟨4, 4, 1⟩]⟩ 4 2)
      (G := fun _ _ => True)
      (P := fun s : State ℕ => s.stream.object.bufRing ≠ none ∧
        s.arrived = [[1, 2, 3], [7], [8, 9]] ∧
        s.stream.handles = [⟨false, 0, 3⟩, ⟨true, 0, 3⟩] ∧ s.origin = [0, 0])
      (s := ⟨Stream.initial 2, fun _ => 0, [], []⟩)
      ⟨⟨true, 1, rfl⟩, rfl, rfl⟩
      [.post ⟨3, some 0, true⟩ [1, 2, 3], .step (.drain true), .step .next,
        .step (.moveConstruct 0), .post ⟨1, some 1, true⟩ [7],
        .step (.drain true), .step .next, .step (.release 2),
        .post ⟨2, some 1, true⟩ [8, 9]]
      (by decide)
  refine ⟨_, s, hs, harrived, hhandles, ?_⟩
  obtain ⟨n, hn, -, hview, -⟩ :=
    (received_bytes_intact ⟨0, []⟩ .good 4 2 _ hb (by decide) s hs hring).2 1
      ⟨true, 0, 3⟩ (by rw [hhandles]; rfl) rfl
  obtain rfl : n = 0 := by simpa [horigin] using hn.symm
  simpa [harrived] using hview.symm

end Fiberexec.Multishot.Recv.Bytes
