import Fiberexec.Multishot.RecvConstruct
import Fiberexec.Support.Lists
import Fiberexec.Support.Machine

/-!
# The buffer groups of the receivers of a thread

Every construction takes the next id from a counter of 16 bits, whether or not
it succeeds, and the kernel refuses a group that is registered.  The numbers of
the constructions do not wrap around, so a group clashes with that of an object
which is alive exactly if the two constructions are a multiple of `2 ^ 16`
apart.
-/

namespace Fiberexec.Multishot.Recv.Group

open Support

/-- An object that is alive, with the number of its construction. -/
structure Live where
  number : ℕ
  buffers : Buffers
  deriving DecidableEq

/-- The receivers of a thread. -/
structure State where
  thread : Thread
  live : List Live
  /-- how many constructions have been begun -/
  begun : ℕ
  deriving DecidableEq

def initial : State where
  thread := ⟨0, []⟩
  live := []
  begun := 0

/-- The steps: a call of the constructor, and the end of a destructor. -/
inductive Event
  | construct (a : Answers) (bufSize bufCount : ℕ)
  | destroy (i : ℕ) (o : Live)
  deriving DecidableEq

def enabled (s : State) : Event → Prop
  | .construct _ _ _ => True
  | .destroy i o => s.live[i]? = some o

/-- What a step does.  The destructor frees the buffer ring, and with it the
group. -/
def effect (s : State) : Event → State
  | .construct a bufSize bufCount =>
      let r := Recv.construct s.thread a bufSize bufCount
      { thread := r.1
        live :=
          match r.2 with
          | .ok b => s.live ++ [⟨s.begun, b⟩]
          | .error _ => s.live
        begun := s.begun + 1 }
  | .destroy i o =>
      { s with
        thread :=
          { s.thread with groups := s.thread.groups.erase o.buffers.bgid }
        live := s.live.eraseIdx i }

def machine : Machine State Event where
  init := fun s => s = initial
  enabled := enabled
  effect := effect

/-! ## The groups in use -/

/-- The counter and the ids follow the numbers of the constructions, and the
groups registered are those of the objects alive. -/
structure Numbered (s : State) : Prop where
  counter : s.thread.nextBgid = s.begun % 2 ^ 16
  ids : ∀ o ∈ s.live, o.number < s.begun ∧
    o.buffers.bgid = o.number % 2 ^ 16
  groups : s.thread.groups.Perm (s.live.map (fun o => o.buffers.bgid))
  nodup : s.thread.groups.Nodup

theorem Numbered.mem_groups_iff {s : State} (h : Numbered s) (id : ℕ) :
    id ∈ s.thread.groups ↔ ∃ o ∈ s.live, o.buffers.bgid = id := by
  rw [h.groups.mem_iff, List.mem_map]

theorem construct_groups_of_error
    {t : Thread} {a : Answers} {bufSize bufCount : ℕ} {e : Error}
    (h : (Recv.construct t a bufSize bufCount).2 = .error e) :
    (Recv.construct t a bufSize bufCount).1.groups = t.groups := by
  have hcases := constructs t a bufSize bufCount
  generalize Recv.construct t a bufSize bufCount = r at h hcases ⊢
  cases hcases with
  | throws e => rfl
  | ok => cases h

theorem numbered_construct
    {s : State} (h : Numbered s) (a : Answers) (bufSize bufCount : ℕ) :
    Numbered (effect s (.construct a bufSize bufCount)) := by
  have hcounter : (effect s (.construct a bufSize bufCount)).thread.nextBgid =
      (s.begun + 1) % 2 ^ 16 := by
    simp only [effect, construct_nextBgid, h.counter]
    omega
  have hids : ∀ o ∈ s.live, o.number < s.begun + 1 ∧
      o.buffers.bgid = o.number % 2 ^ 16 := by
    intro o ho
    have hid := h.ids o ho
    exact ⟨by omega, hid.2⟩
  cases hresult : (Recv.construct s.thread a bufSize bufCount).2 with
  | error e =>
      have hgroups := construct_groups_of_error hresult
      refine ⟨hcounter, ?_, ?_, ?_⟩
      · simpa only [effect, hresult] using hids
      · simpa only [effect, hresult, hgroups] using h.groups
      · simpa only [effect, hgroups] using h.nodup
  | ok b =>
      obtain ⟨hbgid, hnew, hgroups, -⟩ := construct_eq_ok hresult
      refine ⟨hcounter, ?_, ?_, ?_⟩
      · simp only [effect, hresult]
        intro o ho
        rcases List.mem_append.mp ho with hold | hlast
        · exact hids o hold
        · obtain rfl := List.mem_singleton.mp hlast
          exact ⟨Nat.lt_succ_self _, hbgid.trans h.counter⟩
      · simp only [effect, hresult, hgroups, List.map_append, List.map_cons,
          List.map_nil, hbgid]
        exact h.groups.append_right _
      · simp only [effect, hgroups]
        exact nodup_append_singleton h.nodup hnew

theorem numbered_destroy
    {s : State} (h : Numbered s) {i : ℕ} {o : Live}
    (hi : s.live[i]? = some o) : Numbered (effect s (.destroy i o)) := by
  obtain ⟨hlt, rfl⟩ := List.getElem?_eq_some_iff.mp hi
  refine ⟨h.counter, ?_, ?_, h.nodup.erase _⟩
  · intro o ho
    exact h.ids o ((List.eraseIdx_sublist _ _).mem ho)
  · have hsplit := (List.getElem_cons_eraseIdx_perm hlt).map
      (fun o => o.buffers.bgid)
    have hperm := (h.groups.trans hsplit.symm).erase s.live[i].buffers.bgid
    rwa [List.map_cons, List.erase_cons_head] at hperm

theorem numbered_of_reachable {s : State} (h : machine.Reachable s) :
    Numbered s := by
  refine Machine.Reachable.invariant ?_ ?_ h
  · rintro s rfl
    exact ⟨rfl, by simp [initial], .nil, .nil⟩
  · intro s e _ hs he
    cases e with
    | construct a bufSize bufCount =>
        exact numbered_construct hs a bufSize bufCount
    | destroy i o => exact numbered_destroy hs he

/-! ## Clashes -/

/-- No object that is alive was constructed a multiple of `2 ^ 16` constructions
before the next one. -/
def State.Unwrapped (s : State) : Prop :=
  ∀ o ∈ s.live, ¬2 ^ 16 ∣ s.begun - o.number

theorem Numbered.unused_iff {s : State} (h : Numbered s) :
    (∀ o ∈ s.live, o.buffers.bgid ≠ s.thread.nextBgid) ↔ s.Unwrapped := by
  refine forall₂_congr fun o ho => not_congr ?_
  obtain ⟨hlt, hid⟩ := h.ids o ho
  rw [hid, h.counter, Nat.dvd_iff_mod_eq_zero]
  omega

theorem construct_snd_eq_of_not_mem
    {t : Thread} (hnew : t.nextBgid ∉ t.groups) (a : Answers)
    (bufSize bufCount : ℕ) :
    (Recv.construct t a bufSize bufCount).2 =
      (Recv.construct { t with groups := [] } a bufSize bufCount).2 := by
  simp only [Recv.construct, Thread.setupBufRing, hnew, List.not_mem_nil,
    if_false, apply_ite Prod.snd]

/-- A construction that would succeed fails when its group is registered. -/
theorem construct_snd_of_mem
    {t : Thread} (hold : t.nextBgid ∈ t.groups) {a : Answers}
    {bufSize bufCount : ℕ} {b : Buffers}
    (hok : (Recv.construct { t with groups := [] } a bufSize bufCount).2 =
      .ok b) :
    (Recv.construct t a bufSize bufCount).2 =
      .error (.systemError 17 "io_uring_setup_buf_ring") := by
  have hcases := constructs { t with groups := [] } a bufSize bufCount
  generalize Recv.construct { t with groups := [] } a bufSize bufCount = r
    at hok hcases
  cases hcases with
  | throws e => cases hok
  | ok hsize hworker hstorage hallocated haccepts _ _ _ =>
      have hret : ∀ n, Thread.setupBufRing ⟨n, t.groups⟩
          (bitCeil bufCount) t.nextBgid a.setup = -17 := by
        intro n
        rw [Thread.setupBufRing, if_neg (not_not.mpr haccepts), if_pos hold]
      simp only [Recv.construct, if_neg hsize, if_neg hworker, if_neg hstorage,
        if_neg hallocated, hret]
      rfl

/-- In every run the objects that are alive have different groups.  The id of
the next construction is that of none of them exactly if none was constructed a
multiple of `2 ^ 16` constructions before.  In that case the construction goes
as if no group were registered; otherwise, if it would succeed then, it
throws. -/
theorem group_unused_iff_unwrapped
    (s : State) (h : machine.Reachable s) (a : Answers)
    (bufSize bufCount : ℕ) :
    (s.live.map (fun o => o.buffers.bgid)).Nodup ∧
      ((∀ o ∈ s.live, o.buffers.bgid ≠ s.thread.nextBgid) ↔ s.Unwrapped) ∧
      (s.Unwrapped →
        (Recv.construct s.thread a bufSize bufCount).2 =
          (Recv.construct { s.thread with groups := [] } a bufSize bufCount).2) ∧
      (¬s.Unwrapped → ∀ b,
        (Recv.construct { s.thread with groups := [] } a bufSize bufCount).2 =
            .ok b →
          (Recv.construct s.thread a bufSize bufCount).2 =
            .error (.systemError 17 "io_uring_setup_buf_ring")) := by
  have hs := numbered_of_reachable h
  have hused : s.thread.nextBgid ∈ s.thread.groups ↔ ¬s.Unwrapped := by
    rw [hs.mem_groups_iff, ← hs.unused_iff]
    simp
  refine ⟨hs.groups.nodup_iff.mp hs.nodup, hs.unused_iff, fun hfresh => ?_,
    fun hwrapped b hok => ?_⟩
  · exact construct_snd_eq_of_not_mem (by simpa [hused] using hfresh) a bufSize
      bufCount
  · exact construct_snd_of_mem (hused.mpr hwrapped) hok

/-- One object is alive, and the next one does not meet its group. -/
theorem second_group_unused :
    ∃ s, machine.Reachable s ∧ s.live.length = 1 ∧ s.Unwrapped ∧
      (∀ o ∈ s.live, o.buffers.bgid ≠ s.thread.nextBgid) ∧
      (Recv.construct s.thread .good 4096 1).2 =
        (Recv.construct { s.thread with groups := [] } .good 4096 1).2 := by
  have hreach : machine.Reachable
      (effect initial (.construct .good 4096 1)) :=
    Machine.Reachable.step (M := machine) (e := .construct .good 4096 1)
      (.init rfl) trivial
  have hfresh : (effect initial (.construct .good 4096 1)).Unwrapped := by
    intro o ho
    obtain rfl : o = ⟨0, ⟨0, 4096, 1, 4096, [⟨0, 4096, 0⟩]⟩⟩ :=
      List.mem_singleton.mp ho
    decide
  obtain ⟨-, hiff, hgoes, -⟩ := group_unused_iff_unwrapped _ hreach .good 4096 1
  exact ⟨_, hreach, rfl, hfresh, hiff.mpr hfresh, hgoes hfresh⟩

/-! ## One long-lived object and many short ones -/

/-- Fewer than `2 ^ 16` objects are alive after the step. -/
def Few (s : State) (e : Event) : Prop :=
  (effect s e).live.length < 2 ^ 16

/-- The buffers of an object with one buffer of 4096 bytes. -/
def oneBuffer (bgid : ℕ) : Buffers :=
  ⟨bgid, 4096, 1, 4096, [⟨0, 4096, 0⟩]⟩

theorem construct_oneBuffer {t : Thread} (hnew : t.nextBgid ∉ t.groups) :
    Recv.construct t .good 4096 1 =
      (⟨(t.nextBgid + 1) % 2 ^ 16, t.groups ++ [t.nextBgid]⟩,
        .ok (oneBuffer t.nextBgid)) := by
  have hsetup : ∀ n, Thread.setupBufRing ⟨n, t.groups⟩ 1 t.nextBgid 0 = 0 := by
    intro n
    simp only [Thread.setupBufRing, hnew, if_false]
    rfl
  have hceil : bitCeil 1 = 1 := rfl
  simp [Recv.construct, Answers.good, hceil, hsetup, oneBuffer, maxBytes,
    provide]

/-- The first object is alive, and `n` others have come and gone. -/
def afterRounds (n : ℕ) : State where
  thread := ⟨(n + 1) % 2 ^ 16, [0]⟩
  live := [⟨0, oneBuffer 0⟩]
  begun := n + 1

theorem Few.reachable_construct
    {s : State} (hfew : Few s (.construct .good 4096 1))
    (h : machine.ReachableUnder Few s) :
    machine.ReachableUnder Few (effect s (.construct .good 4096 1)) :=
  Machine.ReachableUnder.step (e := Event.construct .good 4096 1) h trivial hfew

/-- Each round constructs an object and destroys it. -/
theorem reachable_afterRounds
    {n : ℕ} (hn : n < 2 ^ 16) : machine.ReachableUnder Few (afterRounds n) := by
  induction n with
  | zero =>
      have hfirst := construct_oneBuffer (t := ⟨0, []⟩) List.not_mem_nil
      have hstep : effect initial (.construct .good 4096 1) = afterRounds 0 := by
        simp [effect, initial, hfirst, afterRounds]
      rw [← hstep]
      refine Few.reachable_construct ?_ (.init rfl)
      simp [Few, hstep, afterRounds]
  | succ n ih =>
      have hid : (n + 1) % 65536 = n + 1 := Nat.mod_eq_of_lt hn
      have hnext := construct_oneBuffer (t := (afterRounds n).thread)
        (by simp [afterRounds, hid])
      have hborn : effect (afterRounds n) (.construct .good 4096 1) =
          ⟨⟨(n + 2) % 2 ^ 16, [0, n + 1]⟩,
            [⟨0, oneBuffer 0⟩, ⟨n + 1, oneBuffer (n + 1)⟩], n + 2⟩ := by
        simp only [effect, hnext]
        simp [afterRounds, hid]
      have hgone : effect (effect (afterRounds n) (.construct .good 4096 1))
          (.destroy 1 ⟨n + 1, oneBuffer (n + 1)⟩) = afterRounds (n + 1) := by
        rw [hborn]
        simp [effect, afterRounds, oneBuffer]
      rw [← hgone]
      have hfew : Few (afterRounds n) (.construct .good 4096 1) := by
        simp [Few, hborn]
      refine Machine.ReachableUnder.step
        (e := Event.destroy 1 ⟨n + 1, oneBuffer (n + 1)⟩)
        (hfew.reachable_construct (ih (by omega))) ?_ ?_
      · change (effect (afterRounds n) (.construct .good 4096 1)).live[1]? = _
        rw [hborn]
        rfl
      · rw [Few, hgone]
        exact Nat.one_lt_two_pow (by decide)

/-- One object stays alive while 65535 others are constructed and destroyed, at
most two objects being alive at a time.  The next construction meets the group
of the first object and throws. -/
theorem group_clashes_after_wrap :
    ∃ s, machine.ReachableUnder Few s ∧ s.live.length = 1 ∧
      (∃ o ∈ s.live, o.buffers.bgid = s.thread.nextBgid) ∧
      (∃ b, (Recv.construct { s.thread with groups := [] } .good 4096 1).2 =
        .ok b) ∧
      (Recv.construct s.thread .good 4096 1).2 =
        .error (.systemError 17 "io_uring_setup_buf_ring") := by
  have hok := construct_oneBuffer (t := ⟨0, []⟩) List.not_mem_nil
  refine ⟨afterRounds 65535, reachable_afterRounds (by decide), rfl,
    ⟨⟨0, oneBuffer 0⟩, by simp [afterRounds], rfl⟩, ⟨oneBuffer 0, ?_⟩, ?_⟩
  · exact congrArg Prod.snd hok
  · exact construct_snd_of_mem (by simp [afterRounds]) (congrArg Prod.snd hok)

end Fiberexec.Multishot.Recv.Group
