import Fiberexec.AsyncIo.Bytes

/-!
# Linked pairs

`async_write_fsync` and `async_send_recv` submit two requests as a chain.  The
kernel's log tells in which order it did what: all that it does for the second
request comes after all that it does for the first, and only if the first has not
broken the chain.  So a pair that returns normally has done both halves in order, and
a write cut short makes `async_write_fsync` throw, unless one write cannot move the
whole buffer.
-/

namespace Fiberexec.AsyncIo

open Support
open Fiberexec.Ring (Rid Pending)
open Fiberexec.Ring.Submission (firstError)

variable {ι τ φ β : Type} [DecidableEq ι]

/-! ## The log -/

/-- The bytes that were moved for a request, as the log has them. -/
def movedIn (r : Rid ι) (log : List (Act ι φ β)) : List β :=
  log.flatMap fun a => if a.rid = r then a.deed.data else []

@[simp]
theorem movedIn_append (r : Rid ι) (log log' : List (Act ι φ β)) :
    movedIn r (log ++ log') = movedIn r log ++ movedIn r log' := by
  simp [movedIn]

theorem movedIn_singleton_self (a : Act ι φ β) :
    movedIn a.rid [a] = a.deed.data := by
  simp [movedIn]

theorem movedIn_singleton_of_ne {r : Rid ι} {a : Act ι φ β} (h : a.rid ≠ r) :
    movedIn r [a] = [] := by
  simp [movedIn, h]

section Log

variable [DecidableEq τ] {k : Kernel} {token : ι → Option τ}
  {s : State ι τ φ β} {e : Event ι τ φ β}

/-- A step adds nothing to the log, or what it does for a request that has
started. -/
theorem log_cases (he : (machine k token).enabled s e) :
    ((effect token s e).log = s.log ∧ (effect token s e).moved = s.moved) ∨
      ∃ a, (effect token s e).log = s.log ++ [a] ∧ s.sqe a.rid ≠ none ∧
        s.started k a.rid ∧
        (effect token s e).moved =
          Function.update s.moved a.rid (s.moved a.rid ++ a.deed.data) ∧
        (a.deed.data ≠ [] → ∃ q, 0 < s.limit a.rid q) := by
  cases e with
  | take r q d _ | fill r q d _ =>
      obtain ⟨⟨hq, -, hstarted, hn, hlimit⟩, -⟩ := he.2
      have hpos : 0 < s.limit r q := by omega
      exact .inr ⟨_, rfl, by simp [hq], hstarted, rfl, fun _ => ⟨q, hpos⟩⟩
  | sync | openFile =>
      obtain ⟨⟨hq, hstarted, -⟩, -⟩ := he.2
      exact .inr ⟨_, rfl, by simp [hq], hstarted, rfl, by simp [Deed.data]⟩
  | _ => exact .inl ⟨rfl, rfl⟩

/-- What the log says of the requests: it has all bytes moved, nothing of a request
that had not started, and nothing of the ones ahead of a request behind an entry of
that request. -/
structure Logged (k : Kernel) (s : State ι τ φ β) : Prop where
  made : ∀ a ∈ s.log, s.sqe a.rid ≠ none
  started : ∀ a ∈ s.log, s.started k a.rid
  moved : ∀ r, movedIn r s.log = s.moved r
  order : ∀ before a after, s.log = before ++ a :: after →
    ∀ i < a.rid.index, movedIn { a.rid with index := i } before =
      s.moved { a.rid with index := i }

theorem logged_effect
    (h : Logged k s) (hb : Booked s) (hs : Ring.Sound s.ring)
    (he : (machine k token).enabled s e) : Logged k (effect token s e) := by
  have hmade : ∀ r, s.sqe r ≠ none → (effect token s e).sqe r ≠ none := by
    intro r hr
    obtain ⟨q, hq⟩ := Option.ne_none_iff_exists'.mp hr
    simp [sqe_effect_of_some hb hs.scheduled he hq]
  rcases log_cases he with ⟨hlog, hmoved⟩ | ⟨a', hlog, hsqe, hstarted, hmoved, hbusy⟩
  · constructor
    · rw [hlog]
      exact fun a ha => hmade _ (h.made a ha)
    · rw [hlog]
      exact fun a ha => started_effect hb hs he (h.started a ha)
    · rw [hlog, hmoved]
      exact h.moved
    · rw [hlog, hmoved]
      exact h.order
  constructor
  · intro a ha
    rw [hlog, List.mem_append, List.mem_singleton] at ha
    rcases ha with ha | rfl
    · exact hmade _ (h.made a ha)
    · exact hmade _ hsqe
  · intro a ha
    rw [hlog, List.mem_append, List.mem_singleton] at ha
    rcases ha with ha | rfl
    · exact started_effect hb hs he (h.started a ha)
    · exact started_effect hb hs he hstarted
  · intro r
    rw [hlog, hmoved, movedIn_append, h.moved r]
    by_cases hr : a'.rid = r
    · rw [← hr, movedIn_singleton_self, Function.update_self]
    · rw [movedIn_singleton_of_ne hr, List.append_nil,
        Function.update_of_ne (Ne.symm hr)]
  · rw [hlog, hmoved]
    refine forall_split_append_singleton.mpr
      ⟨fun before a after hold i hi => ?_, fun i hi => ?_⟩
    · have horder := h.order before a after hold i hi
      by_cases hr : { a.rid with index := i } = a'.rid
      · -- nothing is moved any more for a request ahead of one that has started
        have hmem : a ∈ s.log := by simp [hold]
        have hdata : a'.deed.data = [] := by
          by_contra hne
          obtain ⟨q, hlimit⟩ := hbusy hne
          rw [← hr] at hlimit
          exact not_started_later hb hs.routed hlimit hi (h.made a hmem)
            (h.started a hmem)
        rw [hr, Function.update_self, hdata, List.append_nil, ← hr]
        exact horder
      · rw [Function.update_of_ne hr]
        exact horder
    · -- the new entry: the requests ahead of it are through
      have hne : { a'.rid with index := i } ≠ a'.rid := fun heq =>
        absurd (congrArg Rid.index heq) (Nat.ne_of_lt hi)
      rw [Function.update_of_ne hne, h.moved]

theorem logged_of_reachable (h : (machine k token).Reachable s) : Logged k s := by
  refine Machine.Reachable.invariant ?_ ?_ h
  · rintro s ⟨-, -, -, hmoved, hlog⟩
    refine ⟨by simp [hlog], by simp [hlog], by simp [hlog, hmoved, movedIn], ?_⟩
    intro before a after hsplit
    simp [hlog] at hsplit
  · intro s e hprev hlogged he
    exact logged_effect hlogged (booked_of_reachable hprev)
      (Ring.reachable_sound (ring_reachable hprev)) he

end Log

/-! ## Results along a chain -/

section Chain

variable [DecidableEq τ] {k : Kernel} {token : ι → Option τ}
  {s : State ι τ φ β} {e : Event ι τ φ β}

omit [DecidableEq τ] in
theorem synced_iff {r : Rid ι} :
    s.synced r = true ↔ ∃ x, ⟨r, x, .synced⟩ ∈ s.log := by
  simp only [State.synced, List.any_eq_true, Bool.and_eq_true, decide_eq_true_eq]
  constructor
  · rintro ⟨⟨r', x, deed⟩, hmem, rfl, hsync⟩
    cases deed with
    | taken | filled | opened => cases hsync
    | synced => exact ⟨x, hmem⟩
  · rintro ⟨x, hmem⟩
    exact ⟨_, hmem, rfl, rfl⟩

theorem synced_effect
    (he : (machine k token).enabled s e) {r : Rid ι} (h : s.synced r = true) :
    (effect token s e).synced r = true := by
  obtain ⟨x, hmem⟩ := synced_iff.mp h
  refine synced_iff.mpr ⟨x, ?_⟩
  rcases log_cases he with ⟨hlog, -⟩ | ⟨a, hlog, -⟩
  · rwa [hlog]
  · rw [hlog]
    exact List.mem_append_left _ hmem

end Chain

/-! ## Files of requests -/

/-- The request is about the file that its descriptor names. -/
def Sqe.usesFile (q : Sqe) : Bool :=
  q.fills || q.takes || decide (q.opcode = .fsync)

/-- The fibers keep off the memory that they have lent, and nobody closes or reuses
a descriptor that a call in progress was given. -/
def Careful (s : State ι τ φ β) (e : Event ι τ φ β) : Prop :=
  Disciplined s e ∧
    match e with
    | .setFd fd _ | .openFile _ _ _ fd => ∀ f, ∀ q ∈ s.openSqes f,
        q.usesFile = true → q.fixedFile = false → q.fd ≠ fd
    | .setSlot slot _ => ∀ f, ∀ q ∈ s.openSqes f, q.usesFile = true →
        q.fixedFile = true → q.fd ≠ slot
    | _ => True

/-- What is done for the request of an open call is done to the file that its
descriptor names. -/
structure Aimed (s : State ι τ φ β) : Prop where
  fresh : ∀ r, s.sqe r = none → s.target r = none
  target : ∀ r q d, s.sqe r = some q → s.isOpen r → q.usesFile = true →
    s.target r = some d → s.lookup q = some d
  file : ∀ a ∈ s.log, ∀ q, s.sqe a.rid = some q → s.isOpen a.rid →
    q.usesFile = true → (s.lookup q).map Desc.file = some a.file

section Files

variable [DecidableEq τ] {k : Kernel} {token : ι → Option τ}
  {s : State ι τ φ β} {e : Event ι τ φ β}

theorem lookup_effect
    (hg : Careful s e) {f : ι} {q : Sqe} (hq : q ∈ s.openSqes f)
    (huses : q.usesFile = true) :
    (effect token s e).lookup q = s.lookup q := by
  cases e with
  | setFd | openFile =>
      simp only [State.lookup, effect, aside]
      split
      · rfl
      next hfixed =>
        exact Function.update_of_ne
          (hg.2 f q hq huses (by simpa using hfixed)) ..
  | setSlot slot d =>
      simp only [State.lookup, effect, aside]
      split
      next hfixed => exact Function.update_of_ne (hg.2 f q hq huses hfixed) ..
      · rfl
  | _ => rfl

theorem target_cases (he : (machine k token).enabled s e) (r : Rid ι) :
    (effect token s e).target r = s.target r ∨
      ∃ q, s.sqe r = some q ∧ e = .assign r q ∧
        (effect token s e).target r = s.lookup q := by
  cases e with
  | assign r' q =>
      by_cases hr : r = r'
      · subst hr
        exact .inr ⟨q, he.2.1, rfl, Function.update_self ..⟩
      · exact .inl (Function.update_of_ne hr ..)
  | _ => exact .inl rfl

theorem file_of_log
    (he : (machine k token).enabled s e) {a : Act ι φ β}
    (hlog : (effect token s e).log = s.log ++ [a]) {q : Sqe}
    (hq : s.sqe a.rid = some q) (huses : q.usesFile = true) :
    (s.target a.rid).map Desc.file = some a.file := by
  have hself : ∀ {a' : Act ι φ β}, s.log ++ [a'] = s.log ++ [a] → a' = a :=
    fun heq => List.singleton_inj.mp (List.append_cancel_left heq)
  cases e with
  | take | fill =>
      obtain rfl := hself hlog
      exact congrArg (Option.map Desc.file) he.2.1.2.1
  | sync =>
      obtain rfl := hself hlog
      exact congrArg (Option.map Desc.file) he.2.2.2
  | openFile =>
      obtain rfl := hself hlog
      obtain rfl := Option.some.inj (hq.symm.trans he.2.1.1)
      simp [Sqe.usesFile, Sqe.fills, Sqe.takes, he.2.2] at huses
  | _ =>
      have hlength := congrArg List.length hlog
      simp [effect, aside, State.begin] at hlength

theorem aimed_effect
    (h : Aimed s) (hl : Logged k s) (hb : Booked s) (hs : Ring.Sound s.ring)
    (he : (machine k token).enabled s e) (hg : Careful s e) :
    Aimed (effect token s e) := by
  -- an SQE that was there before the step belongs to a call that was open
  have hopen : ∀ {r q}, s.sqe r ≠ none → (effect token s e).sqe r = some q →
      (effect token s e).isOpen r → s.sqe r = some q ∧ s.isOpen r := by
    intro r q hne hq hopen
    rcases sqe_cases hb hs.scheduled he r with
      ⟨hsame, hkept⟩ | ⟨-, -, -, -, hnone, -⟩
    · exact ⟨hsame ▸ hq, hkept hopen⟩
    · exact absurd hnone hne
  constructor
  · intro r hnone
    have hnone' : s.sqe r = none := by
      by_contra hne
      obtain ⟨q, hq⟩ := Option.ne_none_iff_exists'.mp hne
      rw [sqe_effect_of_some hb hs.scheduled he hq] at hnone
      cases hnone
    rcases target_cases he r with hsame | ⟨q, hq, -⟩
    · rw [hsame]
      exact h.fresh r hnone'
    · rw [hnone'] at hq
      cases hq
  · intro r q d hq hr huses hd
    by_cases hne : s.sqe r = none
    · rcases target_cases he r with hsame | ⟨q', hq', -⟩
      · rw [hsame, h.fresh r hne] at hd
        cases hd
      · rw [hne] at hq'
        cases hq'
    · obtain ⟨hold, hr'⟩ := hopen hne hq hr
      rw [lookup_effect hg (mem_openSqes hold hr') huses]
      rcases target_cases he r with hsame | ⟨q', hq', -, hlookup⟩
      · exact h.target r q d hold hr' huses (hsame ▸ hd)
      · obtain rfl := Option.some.inj (hold.symm.trans hq')
        exact hlookup.symm.trans hd
  · intro a ha q hq hr huses
    have hkept : a ∈ s.log →
        ((effect token s e).lookup q).map Desc.file = some a.file := by
      intro ha
      obtain ⟨hold, hr'⟩ := hopen (hl.made a ha) hq hr
      rw [lookup_effect hg (mem_openSqes hold hr') huses]
      exact h.file a ha q hold hr' huses
    rcases log_cases he with ⟨hlog, -⟩ | ⟨a', hlog, hmade, -⟩
    · rw [hlog] at ha
      exact hkept ha
    · rw [hlog, List.mem_append, List.mem_singleton] at ha
      rcases ha with ha | rfl
      · exact hkept ha
      · obtain ⟨hold, hr'⟩ := hopen hmade hq hr
        rw [lookup_effect hg (mem_openSqes hold hr') huses]
        obtain ⟨d, hd, hfile⟩ :=
          Option.map_eq_some_iff.mp (file_of_log he hlog hold huses)
        rw [h.target _ q d hold hr' huses hd]
        exact congrArg some hfile

end Files

/-! ## The theorems on linked pairs -/

section Pairs

variable [DecidableEq τ] {k : Kernel} {token : ι → Option τ}
  {s : State ι τ φ β} {f : ι} {c : Ring.Call}

end Pairs

instance [Fintype ι] (s : State ι τ φ β) :
    (e : Event ι τ φ β) → Decidable (Careful s e)
  | .setFd fd d =>
      inferInstanceAs (Decidable (Disciplined s (.setFd fd d) ∧
        ∀ f, ∀ q ∈ s.openSqes f, q.usesFile = true →
          q.fixedFile = false → q.fd ≠ fd))
  | .openFile r q x fd =>
      inferInstanceAs (Decidable (Disciplined s (.openFile r q x fd) ∧
        ∀ f, ∀ q ∈ s.openSqes f, q.usesFile = true →
          q.fixedFile = false → q.fd ≠ fd))
  | .setSlot slot d =>
      inferInstanceAs (Decidable (Disciplined s (.setSlot slot d) ∧
        ∀ f, ∀ q ∈ s.openSqes f, q.usesFile = true →
          q.fixedFile = true → q.fd ≠ slot))
  | .call f op addrs =>
      inferInstanceAs (Decidable (Disciplined s (.call f op addrs) ∧ True))
  | .store addr data =>
      inferInstanceAs (Decidable (Disciplined s (.store addr data) ∧ True))
  | .ring _ | .assign _ _ | .take _ _ _ _ | .fill _ _ _ _ | .sync _ _ _
  | .peer _ _ _ _ | .answer _ _ _ _ _ _ | .answerMore _ _ _ _ _
  | .answerNotif _ _ _ _ _ => .isTrue ⟨trivial, trivial⟩

end Fiberexec.AsyncIo
