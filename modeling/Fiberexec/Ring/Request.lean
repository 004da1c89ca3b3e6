import Mathlib.Data.Int.Order.Basic

/-!
# One request and its handler

A request is queued, handed to the kernel, answered by one or two CQEs and
dispatched to the handler whose address it carries.  This file follows a single
request through that life, apart from all others: `Track` is what the ring
holds of it and `Stage` relates that to the state of its handler.  The kernel's
contract is that a request is answered by one CQE, except that a zero-copy send
may be answered by one with `F_MORE`, and later one with `F_NOTIF`.
-/

namespace Fiberexec.Ring

/-! ## Handlers -/

/-- What a CQE carries besides its `user_data`. -/
structure Signal where
  res : ℤ
  /-- `IORING_CQE_F_MORE` -/
  more : Bool
  /-- `IORING_CQE_F_NOTIF` -/
  notif : Bool
  deriving DecidableEq

/-- The `cqe_handler`s that a call keeps on the stack of its fiber. -/
inductive Handler
  /-- `io_awaitable`, with the values its promise has been given -/
  | ioAwaitable (promise : List ℤ)
  /-- `send_zc_handler`: how often its promise was fulfilled, and `result_` -/
  | sendZc (promise : ℕ) (result : ℤ)
  deriving DecidableEq

/-- A handler as its constructor leaves it. -/
def Handler.fresh (zc : Bool) : Handler :=
  if zc = true then .sendZc 0 0 else .ioAwaitable []

/-- `complete` of either handler. -/
def Handler.complete (c : Signal) : Handler → Handler
  | .ioAwaitable promise => .ioAwaitable (promise ++ [c.res])
  | .sendZc promise result =>
      if c.notif = true then .sendZc (promise + 1) result
      else if c.more = true then .sendZc promise c.res
      else .sendZc (promise + 1) c.res

/-- How often the promise has been fulfilled. -/
def Handler.fulfilments : Handler → ℕ
  | .ioAwaitable promise => promise.length
  | .sendZc promise _ => promise

/-- What the call reads once the promise is fulfilled. -/
def Handler.value : Handler → ℤ
  | .ioAwaitable promise => promise.headD 0
  | .sendZc _ result => result

theorem fresh_fulfilments (zc : Bool) : (Handler.fresh zc).fulfilments = 0 := by
  cases zc <;> rfl

/-! ## The life of a request -/

/-- What the kernel still has to post for a request it holds. -/
inductive Pending
  | answer
  /-- the notification of a zero-copy send -/
  | notification
  deriving DecidableEq

/-- What the ring holds of one request: its entries in the submission queue
and in the kernel, and its undrained CQEs, oldest first. -/
@[ext]
structure Track where
  queued : List Pending
  kernel : List Pending
  cqes : List Signal
  deriving DecidableEq

/-- A request of which the ring holds nothing. -/
def Track.none : Track :=
  ⟨[], [], []⟩

/-- The request after `io_uring_submit`. -/
def Track.submit (t : Track) : Track :=
  ⟨[], t.kernel ++ t.queued, t.cqes⟩

/-- The CQE of a notification. -/
def notification : Signal :=
  ⟨0, false, true⟩

/-- The stages of a request, with the state of its handler and the result the
kernel has posted. -/
inductive Stage (zc : Bool) : Track → Handler → Option ℤ → Prop
  | queued : Stage zc ⟨[.answer], [], []⟩ (.fresh zc) .none
  | inFlight : Stage zc ⟨[], [.answer], []⟩ (.fresh zc) .none
  | answered (res : ℤ) :
      Stage zc ⟨[], [], [⟨res, false, false⟩]⟩ (.fresh zc) (some res)
  | sent (res : ℤ) (hzc : zc = true) :
      Stage zc ⟨[], [.notification], [⟨res, true, false⟩]⟩ (.fresh zc)
        (some res)
  | stored (res : ℤ) (hzc : zc = true) :
      Stage zc ⟨[], [.notification], []⟩ (.sendZc 0 res) (some res)
  | released (res : ℤ) (hzc : zc = true) :
      Stage zc ⟨[], [], [⟨res, true, false⟩, notification]⟩ (.fresh zc)
        (some res)
  | releasing (res : ℤ) (hzc : zc = true) :
      Stage zc ⟨[], [], [notification]⟩ (.sendZc 0 res) (some res)
  | finished (h : Handler) (hone : h.fulfilments = 1) :
      Stage zc .none h (some h.value)

namespace Stage

variable {zc : Bool} {t : Track} {h : Handler} {r : Option ℤ}

/-! ### Steps -/

theorem submit (hs : Stage zc t h r) : Stage zc t.submit h r := by
  cases hs with
  | queued => exact inFlight
  | inFlight => exact inFlight
  | answered res => exact answered res
  | sent res hzc => exact sent res hzc
  | stored res hzc => exact stored res hzc
  | released res hzc => exact released res hzc
  | releasing res hzc => exact releasing res hzc
  | finished h hone => exact finished h hone

/-- The kernel holds at most one entry of a request. -/
theorem kernel_eq_singleton
    (hs : Stage zc t h r) {p : Pending} (hp : p ∈ t.kernel) :
    t.kernel = [p] := by
  cases hs <;> simp_all [Track.none]

theorem answer
    (hs : Stage zc t h r) (hk : t.kernel = [.answer]) (res : ℤ) :
    Stage zc ⟨t.queued, [], t.cqes ++ [⟨res, false, false⟩]⟩ h (some res) := by
  cases hs with
  | inFlight => exact answered res
  | _ => simp [Track.none] at hk

theorem answerMore
    (hs : Stage zc t h r) (hk : t.kernel = [.answer]) (hzc : zc = true)
    (res : ℤ) :
    Stage zc ⟨t.queued, [.notification], t.cqes ++ [⟨res, true, false⟩]⟩ h
      (some res) := by
  cases hs with
  | inFlight => exact sent res hzc
  | _ => simp [Track.none] at hk

theorem notify (hs : Stage zc t h r) (hk : t.kernel = [.notification]) :
    Stage zc ⟨t.queued, [], t.cqes ++ [notification]⟩ h r := by
  cases hs with
  | sent res hzc => exact released res hzc
  | stored res hzc => exact releasing res hzc
  | _ => simp [Track.none] at hk

theorem dispatch
    (hs : Stage zc t h r) {c : Signal} {cs : List Signal}
    (hc : t.cqes = c :: cs) :
    Stage zc ⟨t.queued, t.kernel, cs⟩ (h.complete c) r := by
  cases hs with
  | answered res =>
      obtain ⟨rfl, rfl⟩ := List.cons.inj hc
      cases zc with
      | false => exact finished (.ioAwaitable [res]) rfl
      | true => exact finished (.sendZc 1 res) rfl
  | sent res hzc =>
      obtain ⟨rfl, rfl⟩ := List.cons.inj hc
      subst hzc
      exact stored res rfl
  | released res hzc =>
      obtain ⟨rfl, rfl⟩ := List.cons.inj hc
      subst hzc
      exact releasing res rfl
  | releasing res hzc =>
      obtain ⟨rfl, rfl⟩ := List.cons.inj hc
      exact finished (.sendZc 1 res) rfl
  | _ => simp [Track.none] at hc

/-! ### What a stage says of the handler -/

theorem fulfilments_le_one (hs : Stage zc t h r) : h.fulfilments ≤ 1 := by
  cases hs with
  | finished h hone => exact Nat.le_of_eq hone
  | stored res hzc => exact Nat.zero_le 1
  | releasing res hzc => exact Nat.zero_le 1
  | _ => rw [fresh_fulfilments]; exact Nat.zero_le 1

/-- A fulfilled promise means that nothing of the request is left, and that
the handler holds the kernel's result. -/
theorem of_fulfilled (hs : Stage zc t h r) (hone : 0 < h.fulfilments) :
    t = .none ∧ r = some h.value := by
  cases hs with
  | finished h hone => exact ⟨rfl, rfl⟩
  | stored res hzc => simp [Handler.fulfilments] at hone
  | releasing res hzc => simp [Handler.fulfilments] at hone
  | _ => simp [fresh_fulfilments] at hone

end Stage

end Fiberexec.Ring
