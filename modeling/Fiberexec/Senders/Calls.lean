import Fiberexec.AsyncIo.Sqe
import Fiberexec.Senders.Operation

/-!
# What the calls of a callable give back

A callable gets a value or an error from a function of `async_io.hpp`, not the
results of its requests.  `Operation.reply` makes the one from the others; the code
of `Ring.Submission`, resumed with the results one after the other, ends the same
way.
-/

namespace Fiberexec.AsyncIo.Operation

open Support
open Fiberexec.Ring (kRingEntries)
open Fiberexec.Ring.Submission (Frame Stop World Site Prog resume)
open Fiberexec.Senders (Reply)

variable {κ : Type}

/-- The function begins with `begin_async_op`. -/
def checks : Operation → Bool
  | .asyncClose _ | .asyncSendZc _ _ _ _ _ => false
  | _ => true

/-- What the function returns if none of its requests has failed. -/
def values : Operation → List ℤ → List ℤ
  | .asyncClose _, _ | .asyncConnect _ _ _ _, _ | .asyncSleepFor _, _ => []
  | .asyncWriteFsync _ _, out => out.take 1
  | _, out => out

/-- What a call gives back.  The error of a linked pair is that of the first request
that failed; a sleep that was not cut short ends with `-ETIME`. -/
def reply (op : Operation) (out : List ℤ) : Reply :=
  match op, out with
  | .asyncSleepFor _, res :: _ =>
      if res = -etime then .value [] else .error (-res)
  | op, out =>
      match out.find? (· < 0) with
      | some res => .error (-res)
      | none => .value (op.values out)

/-- Where the call waits. -/
def frame : Operation → Frame κ
  | .asyncRead _ _ _ => .result "async_read" false
  | .asyncWrite _ _ _ => .result "async_write" false
  | .asyncAccept _ _ _ _ _ => .result "async_accept" false
  | .asyncOpenat _ _ _ _ _ => .result "async_openat" false
  | .asyncClose _ => .result "async_close" true
  | .asyncConnect _ _ _ _ => .result "async_connect" true
  | .asyncRecv _ _ _ _ => .result "async_recv" false
  | .asyncSend _ _ _ _ => .result "async_send" false
  | .asyncSendRecv _ _ _ _ _ => .linked .sendRecv []
  | .asyncWriteFsync _ _ => .linked .writeFsync []
  | .asyncSleepFor _ => .sleep
  | .asyncSendZc _ _ _ _ _ => .result "async_send_zc" false

/-- A suspended call is resumed with one result after the other. -/
def resumes [DecidableEq κ] (site : Site) :
    World κ → Frame κ → List ℤ → Prog (World κ × Stop κ)
  | w, frame, [] => pure (w, .suspended frame)
  | w, frame, res :: out =>
      (resume w site res frame).bind fun next =>
        match next.2 with
        | .suspended frame => resumes site next.1 frame out
        | stop => pure (next.1, stop)

/-- The end of a call. -/
def ends (w : World κ) (what : String) : Reply → Prog (World κ × Stop κ)
  | .value ns => pure (w, .returned ns)
  | .error code => .raise (.systemError code what)

/-- A call ends with `ECANCELED` when that is the first of its results that is an
error. -/
theorem reply_of_cancelled
    {op : Operation} {out : List ℤ} (hlength : out.length = op.requests.length)
    {m : ℕ} (hm : out[m]? = some (-ecanceled))
    (hbefore : ∀ l < m, ∀ v, out[l]? = some v → 0 ≤ v) :
    op.reply out = .error ecanceled := by
  have hlt : m < out.length := (List.getElem?_eq_some_iff.mp hm).1
  have hfind : out.find? (· < 0) = some (-ecanceled) := by
    refine List.find?_eq_some_iff_getElem.mpr ⟨by decide, m, hlt, ?_, ?_⟩
    · exact (List.getElem?_eq_some_iff.mp hm).2
    · intro l hl
      have hpos := hbefore l hl out[l] (List.getElem?_eq_getElem _)
      simpa using hpos
  cases op with
  | asyncSleepFor duration =>
      obtain ⟨res, rfl⟩ : ∃ res, out = [res] := by
        rw [← List.length_eq_one_iff]
        simp only [requests] at hlength
        split at hlength
        · rw [hlength] at hlt
          exact absurd hlt (Nat.not_lt_zero m)
        · exact hlength
      obtain rfl : m = 0 := by simpa using hlt
      obtain rfl : res = -ecanceled := by simpa using hm
      rfl
  | _ => simp [reply, hfind]

section Code

variable [DecidableEq κ] (op : Operation) (w : World κ)

/-- `begin_async_op` refuses a call. -/
theorem code_of_checks (h : op.checks = true) :
    ∃ what, op.call.code w ⟨true, true⟩ = .raise (.systemError ecanceled what) := by
  cases op with
  | asyncClose | asyncSendZc => cases h
  | _ => exact ⟨_, rfl⟩

theorem code_of_not_checks (h : op.checks = false) :
    op.call.code w ⟨true, true⟩ = op.call.code w ⟨true, false⟩ := by
  cases op with
  | asyncClose | asyncSendZc => rfl
  | _ => cases h

/-- A call that is not refused, on an empty queue and with a submit that works. -/
theorem code_suspends :
    ((op.call.code w ⟨true, false⟩).run kRingEntries (fun _ => 1) []).ending =
      .returned (w, if op.requests = [] then .returned [] else .suspended op.frame) := by
  cases op with
  | asyncRead _ _ timeout | asyncWrite _ _ timeout
  | asyncAccept _ _ _ _ timeout | asyncOpenat _ _ _ _ timeout
  | asyncConnect _ _ _ timeout | asyncRecv _ _ _ timeout
  | asyncSend _ _ _ timeout => cases timeout <;> rfl
  | asyncSleepFor duration =>
      by_cases hle : duration ≤ 0 <;>
        simp only [call, Ring.Submission.Call.code, Ring.Submission.asyncSleepFor,
          requests, hle, if_true, if_false] <;>
        rfl
  | _ => rfl

omit op in
theorem resumes_result (site : Site) (what : String) (void : Bool) (res : ℤ) :
    resumes site w (.result what void) [res] =
      ends w what (if res < 0 then .error (-res)
        else .value (if void = true then [] else [res])) := by
  by_cases hres : res < 0 <;> simp [resumes, resume, ends, hres, Code.bind, pure]

omit op in
theorem resumes_linked (site : Site) (pair : Ring.Submission.Linked) (n m : ℤ) :
    ∃ what, resumes site w (.linked pair []) [n, m] =
      ends w what (if n < 0 then .error (-n) else if m < 0 then .error (-m)
        else .value (pair.values [n, m])) := by
  refine ⟨if n < 0 then pair.whats.headD "" else pair.whats.getLastD "", ?_⟩
  cases pair <;> by_cases hn : n < 0 <;> by_cases hm : m < 0 <;>
    simp [resumes, resume, Ring.Submission.Linked.whats,
      Ring.Submission.Linked.finish, Ring.Submission.firstError, ends, hn, hm,
      Code.bind, pure, bind]

/-- The results are enough for a call to end, and it ends with its reply. -/
theorem resumes_frame
    {out : List ℤ} (hlength : out.length = op.requests.length) (hne : op.requests ≠ [])
    (site : Site) :
    ∃ what, resumes site w op.frame out = ends w what (op.reply out) := by
  cases op with
  | asyncSendRecv | asyncWriteFsync =>
      obtain ⟨n, m, rfl⟩ := List.length_eq_two.mp hlength
      refine (resumes_linked w site _ n m).imp fun what hends => hends.trans ?_
      by_cases hn : n < 0 <;> by_cases hm : m < 0 <;>
        simp [reply, values, Ring.Submission.Linked.values, hn, hm]
  | asyncSleepFor duration =>
      by_cases hle : duration ≤ 0
      · simp [requests, hle] at hne
      obtain ⟨res, rfl⟩ : ∃ res, out = [res] := by
        simpa [requests, hle, List.length_eq_one_iff] using hlength
      refine ⟨"async_sleep_for", ?_⟩
      by_cases hres : res = -etime <;>
        simp [resumes, frame, resume, reply, ends, hres, Code.bind, pure]
  | _ =>
      obtain ⟨res, rfl⟩ := List.length_eq_one_iff.mp hlength
      refine ⟨_, (resumes_result w site _ _ res).trans (congrArg _ ?_)⟩
      by_cases hres : res < 0 <;> simp [reply, values, hres]

end Code

end Fiberexec.AsyncIo.Operation
