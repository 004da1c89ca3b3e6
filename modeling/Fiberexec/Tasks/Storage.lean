import Fiberexec.Support.Lists
import Fiberexec.Tasks.Owners

/-!
# Where the callables of tasks are stored

Whatever the types of the callables, the memory of the tasks refines the
abstract machine of owners.  Each task that is not empty finds, through its
table and its buffer, a live closure of the callable that its handle owns, and
no other closure is alive.  So two programs that differ only in where the
callables are stored cannot be told apart.
-/

namespace Fiberexec.Tasks

open Support

/-! ## The memory of the tasks -/

/-- The callable of a closure that has not been destroyed. -/
def Object.live? (ob : Object) : Option ℕ :=
  if ob.alive = true then some ob.callable else none

namespace Memory

variable {fns : ℕ → Fn} {m m' m'' : Memory} {o k : ℕ}

/-- The callables of the closures that have not been destroyed. -/
def live (m : Memory) : List ℕ :=
  m.objects.filterMap Object.live?

/-- The closure `o` is alive and has the value of the callable `k`. -/
def Holds (m : Memory) (o k : ℕ) : Prop :=
  m.objects[o]? = some ⟨k, false, true⟩

theorem Holds.object? (h : m.Holds o k) :
    m.object? fns (fns k) o = some ⟨k, false, true⟩ := by
  rw [Memory.Holds] at h
  simp [Memory.object?, h]

theorem Holds.ne
    {o' k' : ℕ} (h : m.Holds o k) (h' : m.Holds o' k')
    (hne : some k ≠ some k') : o ≠ o' := by
  rintro rfl
  have hk := Option.some.inj (h.symm.trans h')
  exact hne (congrArg some (congrArg Object.callable hk))

/-- The closures of all callables but `c` stay. -/
def Keeps (m m' : Memory) (c : Option ℕ) : Prop :=
  ∀ o k, c ≠ some k → m.Holds o k → m'.Holds o k

/-- What an operation on a task that owns `c` does to the memory: the closures
of the other callables stay, and the callables `gone` are destroyed. -/
structure Changes (m m' : Memory) (c : Option ℕ) (gone : List ℕ) : Prop where
  keeps : m.Keeps m' c
  live : (m'.live ++ gone).Perm m.live
  invoked : m'.invoked = m.invoked
  destroyed : m'.destroyed = m.destroyed ++ gone
  fault : m'.fault = m.fault

theorem Changes.refl (m : Memory) (c : Option ℕ) : Changes m m c [] :=
  ⟨fun _ _ _ h => h, by simp, rfl, by simp, rfl⟩

theorem changes_destroy (h : m.Holds o k) :
    Changes m (m.destroy fns (fns k) o) (some k) [k] := by
  have heq : m.destroy fns (fns k) o =
      { m with
        objects := m.objects.set o ⟨k, false, false⟩
        destroyed := m.destroyed ++ [k] } := by
    simp [destroy, h.object?]
  rw [heq]
  refine ⟨?_, ?_, rfl, rfl, rfl⟩
  · intro o' k' hne h'
    simp only [Holds, List.getElem?_set_ne (h.ne h' hne)]
    exact h'
  · have hperm := filterMap_set_perm h Object.live? ⟨k, false, false⟩
    simpa [live, Object.live?] using hperm

theorem changes_relocate (h : m.Holds o k) :
    Changes m ((m.moveConstruct fns (fns k) o).1.destroy fns (fns k) o) (some k)
        [] ∧
      ((m.moveConstruct fns (fns k) o).1.destroy fns (fns k) o).Holds
        (m.moveConstruct fns (fns k) o).2 k := by
  have hlt : o < m.objects.length := (List.getElem?_eq_some_iff.mp h).1
  have hmove : m.moveConstruct fns (fns k) o =
      ({ m with
          objects := m.objects.set o ⟨k, true, true⟩ ++ [⟨k, false, true⟩] },
        m.objects.length) := by
    simp [moveConstruct, h.object?]
  have hdestroy : (m.moveConstruct fns (fns k) o).1.destroy fns (fns k) o =
      { m with
        objects := m.objects.set o ⟨k, true, false⟩ ++ [⟨k, false, true⟩] } := by
    have hsource : (m.objects.set o ⟨k, true, true⟩ ++
        [⟨k, false, true⟩])[o]? = some ⟨k, true, true⟩ := by
      rw [List.getElem?_append_left (by simpa using hlt),
        List.getElem?_set_self hlt]
    simp [hmove, destroy, Memory.object?, hsource, hlt]
  rw [hdestroy, hmove]
  refine ⟨⟨?_, ?_, rfl, by simp, rfl⟩, ?_⟩
  · intro o' k' hne h'
    have hlt' : o' < m.objects.length := (List.getElem?_eq_some_iff.mp h').1
    simp only [Holds]
    rw [List.getElem?_append_left (by simpa using hlt'),
      List.getElem?_set_ne (h.ne h' hne)]
    exact h'
  · have hperm := filterMap_set_perm h Object.live? ⟨k, true, false⟩
    simpa [live, Object.live?] using hperm
  · simp [Holds]

end Memory

/-! ## Tasks and handles -/

/-- The task is empty when the handle is; otherwise its table finds a closure
that holds the callable of the handle. -/
def Stores (fns : ℕ → Fn) (m : Memory) (t : Task) (h : Handle ℕ) : Prop :=
  match h.owned? with
  | none => t.vtable = none
  | some k => ∃ vt o, t.vtable = some vt ∧ vt.target t.buf = some o ∧
      vt.fn = fns k ∧ m.Holds o k

namespace Stores

variable {fns : ℕ → Fn} {m m' : Memory} {t other : Task} {h : Handle ℕ}

theorem of_empty (hh : h.owned? = none) (ht : t.vtable = none) :
    Stores fns m t h := by
  rw [Stores, hh]
  exact ht

/-- What happens to other callables does not matter to a task. -/
theorem mono
    (hs : Stores fns m t h) {c : Option ℕ} (hkeeps : m.Keeps m' c)
    (hne : ∀ k, h.owned? = some k → c ≠ some k) : Stores fns m' t h := by
  cases howned : h.owned? with
  | none =>
      rw [Stores, howned] at hs
      exact of_empty howned hs
  | some k =>
      rw [Stores, howned] at hs ⊢
      obtain ⟨vt, o, hvt, htarget, hfn, hholds⟩ := hs
      exact ⟨vt, o, hvt, htarget, hfn, hkeeps o k (hne k howned) hholds⟩

theorem construct (fns : ℕ → Fn) (m : Memory) (k : ℕ) :
    Stores fns (Task.construct fns m k).1 (Task.construct fns m k).2
      ⟨true, k⟩ := by
  simp only [Stores, Handle.owned?, if_true, Task.construct, Memory.construct]
  cases hinline : (fns k).inline with
  | true => exact ⟨⟨true, fns k⟩, m.objects.length, rfl, rfl, rfl,
      by simp [Memory.Holds]⟩
  | false => exact ⟨⟨false, fns k⟩, m.objects.length, rfl, rfl, rfl,
      by simp [Memory.Holds]⟩

theorem destroy (hs : Stores fns m t h) :
    Memory.Changes m (t.destroy fns m).1 h.owned? h.owned?.toList ∧
      (t.destroy fns m).2.vtable = none := by
  cases howned : h.owned? with
  | none =>
      rw [Stores, howned] at hs
      rw [Task.destroy, hs]
      exact ⟨.refl m none, hs⟩
  | some k =>
      rw [Stores, howned] at hs
      obtain ⟨vt, o, hvt, htarget, hfn, hholds⟩ := hs
      rw [Task.destroy, hvt]
      simp only [VTable.destroy, htarget, hfn]
      exact ⟨Memory.changes_destroy hholds, trivial⟩

theorem moveFrom (hs : Stores fns m other h) (t : Task) :
    Memory.Changes m (t.moveFrom fns other m).1 h.owned? [] ∧
      Stores fns (t.moveFrom fns other m).1 (t.moveFrom fns other m).2.1 h ∧
      (t.moveFrom fns other m).2.2.vtable = none := by
  cases howned : h.owned? with
  | none =>
      rw [Stores, howned] at hs
      rw [Task.moveFrom, hs]
      exact ⟨.refl m none, of_empty howned rfl, hs⟩
  | some k =>
      rw [Stores, howned] at hs
      obtain ⟨vt, o, hvt, htarget, hfn, hholds⟩ := hs
      rw [Task.moveFrom, hvt]
      simp only [VTable.move, htarget, hfn, Stores, howned]
      cases hsbo : vt.sbo with
      | true =>
          obtain ⟨hchanges, hnew⟩ := Memory.changes_relocate hholds
          exact ⟨hchanges, ⟨vt, _, rfl, by simp [VTable.target, hsbo], hfn,
            hnew⟩, trivial⟩
      | false =>
          exact ⟨.refl m _, ⟨vt, o, rfl, by simp [VTable.target, hsbo], hfn,
            hholds⟩, trivial⟩

theorem invoke (hs : Stores fns m t h) {k : ℕ} (hk : h.owned? = some k) :
    t.invoke fns m = { m with invoked := m.invoked ++ [k] } := by
  rw [Stores, hk] at hs
  obtain ⟨vt, o, hvt, htarget, hfn, hholds⟩ := hs
  simp [Task.invoke, hvt, VTable.invoke, htarget, Memory.invoke, hfn,
    hholds.object?]

theorem callable?_eq (hs : Stores fns m t h) :
    t.callable? fns m = h.owned? := by
  cases howned : h.owned? with
  | none =>
      rw [Stores, howned] at hs
      rw [Task.callable?, hs]
  | some k =>
      rw [Stores, howned] at hs
      obtain ⟨vt, o, hvt, htarget, hfn, hholds⟩ := hs
      simp [Task.callable?, hvt, htarget, hfn, hholds.object?]

theorem toBool_eq (hs : Stores fns m t h) : t.toBool = h.owner := by
  obtain ⟨owner, key⟩ := h
  cases owner with
  | false =>
      have hnone : t.vtable = none := hs
      simp [Task.toBool, hnone]
  | true =>
      obtain ⟨vt, o, hvt, -⟩ := hs
      simp [Task.toBool, hvt]

end Stores

/-! ## Refinement -/

/-- What is at an address: no task yet, a destroyed one, or a task that stores
what the handle owns. -/
abbrev Entry (fns : ℕ → Fn) (m : Memory) :
    Option (Option Task) → Option (Option (Handle ℕ)) → Prop :=
  Option.Rel (Option.Rel (Stores fns m))

theorem Entry.mono
    {fns : ℕ → Fn} {m m' : Memory} {t : Option (Option Task)}
    {h : Option (Option (Handle ℕ))} (hentry : Entry fns m t h)
    {c : Option ℕ} (hkeeps : m.Keeps m' c)
    (hne : ∀ d k, h = some (some d) → d.owned? = some k → c ≠ some k) :
    Entry fns m' t h := by
  cases hentry with
  | none => exact .none
  | some hentry =>
      cases hentry with
      | none => exact .some .none
      | some hs => exact .some (.some (hs.mono hkeeps (fun k => hne _ k rfl)))

theorem Entry.join
    {fns : ℕ → Fn} {m : Memory} {t : Option (Option Task)}
    {h : Option (Option (Handle ℕ))} (hentry : Entry fns m t h) :
    Option.Rel (Stores fns m) t.join h.join := by
  cases hentry with
  | none => exact .none
  | some hentry => exact hentry

theorem any_eq_of_rel
    {fns : ℕ → Fn} {m : Memory} {t : Option Task} {h : Option (Handle ℕ)}
    (hrel : Option.Rel (Stores fns m) t h) :
    t.any Task.toBool = h.any Handle.owner := by
  cases hrel with
  | none => rfl
  | some hs => exact hs.toBool_eq

/-- The memory and the tasks behind the abstract owners. -/
structure Refines (fns : ℕ → Fn) (s : State) (a : Owners) : Prop where
  entries : ∀ i : ℕ, Entry fns s.memory s.tasks[i]? a.handles[i]?
  live : s.memory.live.Perm a.handles.owned
  made : s.made = a.made
  invoked : s.memory.invoked = a.invoked
  destroyed : s.memory.destroyed = a.destroyed
  fault : s.memory.fault = false
  linear : a.Linear

namespace Refines

variable {fns : ℕ → Fn} {s : State} {a : Owners}

theorem initial (fns : ℕ → Fn) : Refines fns Tasks.initial Owners.initial :=
  ⟨fun _ => .none, .nil, rfl, rfl, rfl, rfl, .nil⟩

theorem rel_at (h : Refines fns s a) (i : ℕ) :
    Option.Rel (Stores fns s.memory) (s.taskAt i) (a.handleAt i) :=
  (h.entries i).join

theorem cases_at (h : Refines fns s a) (i : ℕ) :
    s.taskAt i = none ∧ a.handleAt i = none ∨
      ∃ t d, s.taskAt i = some t ∧ a.handleAt i = some d ∧
        Stores fns s.memory t d := by
  have hrel := h.rel_at i
  generalize s.taskAt i = t at hrel
  generalize a.handleAt i = d at hrel
  cases hrel with
  | none => exact .inl ⟨rfl, rfl⟩
  | some hs => exact .inr ⟨_, _, rfl, rfl, hs⟩

theorem lt_of_taskAt {i : ℕ} {t : Task} (ht : s.taskAt i = some t) :
    i < s.tasks.length := by
  rw [State.taskAt, Option.join_eq_some_iff] at ht
  exact (List.getElem?_eq_some_iff.mp ht).1

theorem enabled_iff (h : Refines fns s a) (op : Op) :
    (machine fns).enabled s op ↔ Owners.machine.enabled a op := by
  have hsome : ∀ i, (s.taskAt i).isSome = (a.handleAt i).isSome :=
    fun i => isSome_eq_of_rel (h.rel_at i)
  simp only [machine, Owners.machine]
  cases op with
  | defaultConstruct => exact Iff.rfl
  | construct => exact Iff.rfl
  | moveConstruct src => rw [enabled, Owners.enabled, hsome]
  | moveAssign dst src => rw [enabled, Owners.enabled, hsome, hsome]
  | invoke i => rw [enabled, Owners.enabled, any_eq_of_rel (h.rel_at i)]
  | destroy i => rw [enabled, Owners.enabled, hsome]

theorem length_eq (h : Refines fns s a) : s.tasks.length = a.handles.length := by
  have hlt : ∀ i : ℕ, i < s.tasks.length ↔ i < a.handles.length := by
    intro i
    have hsome := isSome_eq_of_rel (h.entries i)
    rw [Bool.eq_iff_iff] at hsome
    simpa only [isSome_getElem?] using hsome
  have hle := hlt s.tasks.length
  have hge := hlt a.handles.length
  omega

theorem entries_append
    {m : Memory} {tasks : List (Option Task)} {handles : Handles ℕ}
    (hlength : tasks.length = handles.length)
    (hentries : ∀ i : ℕ, Entry fns m tasks[i]? handles[i]?)
    {t : Task} {d : Handle ℕ} (hs : Stores fns m t d) (i : ℕ) :
    Entry fns m (tasks ++ [some t])[i]? (handles ++ [some d])[i]? := by
  rcases lt_trichotomy i tasks.length with hlt | rfl | hgt
  · rw [List.getElem?_append_left hlt, List.getElem?_append_left (hlength ▸ hlt)]
    exact hentries i
  · rw [List.getElem?_concat_length, hlength, List.getElem?_concat_length]
    exact .some (.some hs)
  · rw [List.getElem?_eq_none (by simp; omega),
      List.getElem?_eq_none (by simp; omega)]
    exact .none

theorem owned?_ne
    (h : Refines fns s a) {i j : ℕ} (hij : i ≠ j) {d d' : Handle ℕ}
    (hi : a.handles[i]? = some (some d)) (hj : a.handles[j]? = some (some d'))
    {k : ℕ} (hk : d.owned? = some k) : d'.owned? ≠ some k := by
  intro hk'
  rw [Handle.owned?_eq_some_iff] at hk hk'
  subst hk hk'
  have hnodup := (List.nodup_append.mp h.linear.nodup).1
  exact hij (Handles.owner_unique hnodup hi hj)

theorem entries_of_ne
    (h : Refines fns s a) {m' : Memory} {j : ℕ} {d : Handle ℕ}
    (hj : a.handles[j]? = some (some d))
    (hkeeps : s.memory.Keeps m' d.owned?) {i : ℕ} (hij : i ≠ j) :
    Entry fns m' s.tasks[i]? a.handles[i]? :=
  (h.entries i).mono hkeeps (fun _ _ hi hk => h.owned?_ne hij hi hj hk)

/-! ### Steps -/

theorem defaultConstruct (h : Refines fns s a) :
    Refines fns (effect fns s .defaultConstruct)
      (a.effect .defaultConstruct) := by
  refine ⟨?_, ?_, h.made, h.invoked, h.destroyed, h.fault,
    Owners.linear_effect h.linear .defaultConstruct⟩
  · exact entries_append h.length_eq h.entries (.of_empty rfl rfl)
  · simpa [effect, Owners.effect, Handles.owned, Handle.owned?] using h.live

theorem construct (h : Refines fns s a) :
    Refines fns (effect fns s .construct) (a.effect .construct) := by
  have hmemory : (Task.construct fns s.memory s.made).1 =
      { s.memory with
        objects := s.memory.objects ++ [⟨s.made, false, true⟩] } := by
    simp only [Task.construct, Memory.construct]
    split_ifs <;> rfl
  have hkeeps : s.memory.Keeps (Task.construct fns s.memory s.made).1 none := by
    intro o k _ hholds
    rw [hmemory, Memory.Holds,
      List.getElem?_append_left (List.getElem?_eq_some_iff.mp hholds).1]
    exact hholds
  simp only [effect, Owners.effect]
  refine ⟨?_, ?_, congrArg (· + 1) h.made, ?_, ?_, ?_,
    Owners.linear_effect h.linear .construct⟩
  · refine entries_append h.length_eq ?_
      (h.made ▸ Stores.construct fns s.memory s.made)
    exact fun i => (h.entries i).mono hkeeps (by simp)
  · rw [Handles.owned_take, hmemory, ← h.made]
    simpa [Memory.live, Object.live?] using h.live.append_right [s.made]
  · rw [hmemory]
    exact h.invoked
  · rw [hmemory]
    exact h.destroyed
  · rw [hmemory]
    exact h.fault

/-- The task that is moved from becomes empty, whatever else happens. -/
theorem entry_set_empty
    {m : Memory} {tasks : List (Option Task)} {handles : Handles ℕ}
    {i : ℕ} (hlength : tasks.length = handles.length) (hi : i < tasks.length)
    {t : Task} (ht : t.vtable = none) (d : Handle ℕ) :
    Entry fns m (tasks.set i (some t))[i]?
      (handles.set i (some d.movedFrom))[i]? := by
  rw [List.getElem?_set_self hi, List.getElem?_set_self (hlength ▸ hi)]
  exact .some (.some (.of_empty rfl ht))

theorem moveConstruct (h : Refines fns s a) (src : ℕ) :
    Refines fns (effect fns s (.moveConstruct src))
      (a.effect (.moveConstruct src)) := by
  have hlinear := Owners.linear_effect h.linear (.moveConstruct src)
  rcases h.cases_at src with ⟨ht, hd⟩ | ⟨other, d, ht, hd, hs⟩
  · simp only [effect, Owners.effect, ht, hd]
    exact h
  · simp only [effect, Owners.effect, ht, hd] at hlinear ⊢
    have hsrc := Owners.handleAt_eq_some_iff.mp hd
    obtain ⟨hchanges, hnew, hempty⟩ := hs.moveFrom Task.empty
    refine ⟨?_, ?_, h.made, hchanges.invoked.trans h.invoked, ?_,
      hchanges.fault.trans h.fault, hlinear⟩
    · refine entries_append (by simp [h.length_eq]) (fun i => ?_) hnew
      by_cases hi : i = src
      · subst hi
        exact entry_set_empty h.length_eq (lt_of_taskAt ht) hempty d
      · rw [List.getElem?_set_ne (Ne.symm hi),
          List.getElem?_set_ne (Ne.symm hi)]
        exact h.entries_of_ne hsrc hchanges.keeps hi
    · have hlive := hchanges.live
      rw [List.append_nil] at hlive
      exact (hlive.trans h.live).trans (Handles.owned_moveConstruct hsrc).symm
    · rw [hchanges.destroyed, List.append_nil]
      exact h.destroyed

theorem moveAssign (h : Refines fns s a) (dst src : ℕ) :
    Refines fns (effect fns s (.moveAssign dst src))
      (a.effect (.moveAssign dst src)) := by
  have hlinear := Owners.linear_effect h.linear (.moveAssign dst src)
  by_cases heq : dst = src
  · simp only [effect, Owners.effect, if_pos heq]
    exact h
  rcases h.cases_at dst with ⟨ht, hd⟩ | ⟨t, d, ht, hd, hs⟩
  · simp only [effect, Owners.effect, if_neg heq, ht, hd]
    exact h
  rcases h.cases_at src with ⟨ht', hd'⟩ | ⟨other, d', ht', hd', hs'⟩
  · simp only [effect, Owners.effect, if_neg heq, ht, hd, ht', hd']
    exact h
  simp only [effect, Owners.effect, if_neg heq, ht, hd, ht', hd'] at hlinear ⊢
  have hdst := Owners.handleAt_eq_some_iff.mp hd
  have hsrc := Owners.handleAt_eq_some_iff.mp hd'
  -- the target is destroyed, which leaves the source alone
  obtain ⟨hgone, -⟩ := hs.destroy
  have hs'' : Stores fns (t.destroy fns s.memory).1 other d' :=
    hs'.mono hgone.keeps
      (fun k hk => h.owned?_ne (Ne.symm heq) hsrc hdst hk)
  -- then the source is moved from
  obtain ⟨hmoved, hnew, hempty⟩ := hs''.moveFrom (t.destroy fns s.memory).2
  refine ⟨fun i => ?_, ?_, h.made, ?_, ?_, ?_, hlinear⟩
  · rw [Handles.moveAssign, if_neg heq]
    by_cases hi : i = src
    · subst hi
      exact entry_set_empty (by simp [h.length_eq])
        (by simpa using lt_of_taskAt ht') hempty d'
    · rw [List.getElem?_set_ne (Ne.symm hi), List.getElem?_set_ne (Ne.symm hi)]
      by_cases hi' : i = dst
      · subst hi'
        have hlt := lt_of_taskAt ht
        rw [List.getElem?_set_self hlt,
          List.getElem?_set_self (h.length_eq ▸ hlt)]
        exact .some (.some hnew)
      · rw [List.getElem?_set_ne (Ne.symm hi'),
          List.getElem?_set_ne (Ne.symm hi')]
        refine (h.entries_of_ne hdst hgone.keeps hi').mono hmoved.keeps ?_
        exact fun e k he hk => h.owned?_ne hi he hsrc hk
  · refine (List.perm_append_right_iff d.owned?.toList).mp ?_
    have hlive := hmoved.live
    rw [List.append_nil] at hlive
    calc
      List.Perm _ ((t.destroy fns s.memory).1.live ++ d.owned?.toList) :=
        hlive.append_right _
      List.Perm _ s.memory.live := hgone.live
      List.Perm _ a.handles.owned := h.live
      List.Perm _ _ := (Handles.owned_moveAssign hdst hsrc heq).symm
  · exact hmoved.invoked.trans (hgone.invoked.trans h.invoked)
  · rw [hmoved.destroyed, hgone.destroyed, List.append_nil, h.destroyed]
  · exact hmoved.fault.trans (hgone.fault.trans h.fault)

theorem invoke
    (h : Refines fns s a) {i : ℕ} (he : (a.handleAt i).any Handle.owner = true) :
    Refines fns (effect fns s (.invoke i)) (a.effect (.invoke i)) := by
  rcases h.cases_at i with ⟨-, hd⟩ | ⟨t, d, ht, hd, hs⟩
  · simp [hd] at he
  · have howned : d.owned? = some d.key := by
      rw [hd, Option.any_some] at he
      simp [Handle.owned?, he]
    simp only [effect, Owners.effect, ht, hd, hs.invoke howned]
    refine ⟨h.entries, h.live, h.made, ?_, h.destroyed, h.fault, h.linear⟩
    simp [howned, h.invoked]

theorem destroy (h : Refines fns s a) (i : ℕ) :
    Refines fns (effect fns s (.destroy i)) (a.effect (.destroy i)) := by
  have hlinear := Owners.linear_effect h.linear (.destroy i)
  rcases h.cases_at i with ⟨ht, hd⟩ | ⟨t, d, ht, hd, hs⟩
  · simp only [effect, Owners.effect, ht, hd]
    exact h
  · simp only [effect, Owners.effect, ht, hd] at hlinear ⊢
    have hi := Owners.handleAt_eq_some_iff.mp hd
    obtain ⟨hgone, -⟩ := hs.destroy
    refine ⟨fun j => ?_, ?_, h.made, hgone.invoked.trans h.invoked, ?_,
      hgone.fault.trans h.fault, hlinear⟩
    · rw [Handles.destroy]
      by_cases hj : j = i
      · subst hj
        have hlt := lt_of_taskAt ht
        rw [List.getElem?_set_self hlt,
          List.getElem?_set_self (h.length_eq ▸ hlt)]
        exact .some .none
      · rw [List.getElem?_set_ne (Ne.symm hj), List.getElem?_set_ne (Ne.symm hj)]
        exact h.entries_of_ne hi hgone.keeps hj
    · refine (List.perm_append_right_iff d.owned?.toList).mp ?_
      exact (hgone.live.trans h.live).trans (Handles.owned_destroy hi).symm
    · rw [hgone.destroyed, h.destroyed]

theorem step
    (h : Refines fns s a) {op : Op} (he : (machine fns).enabled s op) :
    Refines fns (effect fns s op) (a.effect op) := by
  have ha := (h.enabled_iff op).mp he
  cases op with
  | defaultConstruct => exact h.defaultConstruct
  | construct => exact h.construct
  | moveConstruct src => exact h.moveConstruct src
  | moveAssign dst src => exact h.moveAssign dst src
  | invoke i => exact h.invoke ha
  | destroy i => exact h.destroy i

end Refines

/-! ## What can be observed of the tasks -/

namespace Refines

variable {fns : ℕ → Fn} {s : State} {a : Owners}

theorem owned?_eq (h : Refines fns s a) (i : ℕ) :
    s.owned? fns i = a.owned? i := by
  rw [State.owned?, Owners.owned?]
  rcases h.cases_at i with ⟨ht, hd⟩ | ⟨t, d, ht, hd, hs⟩
  · rw [ht, hd]
    rfl
  · rw [ht, hd]
    exact hs.callable?_eq

theorem map_toBool_eq (h : Refines fns s a) :
    s.tasks.map (Option.map Task.toBool) =
      a.handles.map (Option.map Handle.owner) := by
  apply List.ext_getElem?
  intro i
  rw [List.getElem?_map, List.getElem?_map]
  have hentry := h.entries i
  generalize s.tasks[i]? = t at hentry
  generalize a.handles[i]? = d at hentry
  cases hentry with
  | none => rfl
  | some hentry =>
      cases hentry with
      | none => rfl
      | some hs => simp [hs.toBool_eq]

theorem nonEmpty_eq (h : Refines fns s a) :
    s.nonEmpty = a.handles.owned.length := by
  have htasks : s.nonEmpty = (s.tasks.map (Option.map Task.toBool)).countP
      (fun b => b.getD false) := by
    rw [State.nonEmpty, List.countP_map]
    congr 1
    funext t
    cases t <;> rfl
  have hhandles : a.handles.owned.length =
      (a.handles.map (Option.map Handle.owner)).countP
        (fun b => b.getD false) := by
    rw [Handles.owned, List.length_filterMap_eq_countP, List.countP_map]
    congr 1
    funext d
    cases d with
    | none => rfl
    | some d => cases howner : d.owner <;> simp [Handle.owned?, howner]
  rw [htasks, hhandles, h.map_toBool_eq]

theorem liveInstances_eq (h : Refines fns s a) :
    s.liveInstances = a.handles.owned.length := by
  rw [← h.live.length_eq, Memory.live, List.length_filterMap_eq_countP,
    State.liveInstances]
  congr 1
  funext ob
  cases halive : ob.alive <;> simp [Object.live?, halive]

/-- A callable that is owned has not been destroyed, and one that is not owned
has been destroyed once. -/
theorem count_destroyed (h : Refines fns s a) {k : ℕ} (hk : k < s.made) :
    ((∃ i, s.owned? fns i = some k) → s.memory.destroyed.count k = 0) ∧
      ((¬∃ i, s.owned? fns i = some k) →
        s.memory.destroyed.count k = 1) := by
  have hcount := h.linear.count_eq k
  rw [List.count_append, ← h.made, ← h.destroyed,
    List.count_eq_one_of_mem List.nodup_range (List.mem_range.mpr hk)] at hcount
  have howned : (∃ i, s.owned? fns i = some k) ↔
      0 < a.handles.owned.count k := by
    rw [List.count_pos_iff, Owners.mem_owned_iff]
    simp only [h.owned?_eq]
  rw [howned]
  constructor <;> intro hpos <;> omega

theorem owner_unique
    (h : Refines fns s a) {i j k : ℕ} (hi : s.owned? fns i = some k)
    (hj : s.owned? fns j = some k) : i = j := by
  rw [h.owned?_eq, Owners.owned?, Option.bind_eq_some_iff] at hi hj
  obtain ⟨d, hd, hk⟩ := hi
  obtain ⟨d', hd', hk'⟩ := hj
  by_contra hij
  exact h.owned?_ne hij (Owners.handleAt_eq_some_iff.mp hd)
    (Owners.handleAt_eq_some_iff.mp hd') hk hk'

theorem toBool_iff
    (h : Refines fns s a) {i : ℕ} {t : Task} (ht : s.taskAt i = some t) :
    t.toBool = true ↔ ∃ k, s.owned? fns i = some k := by
  rcases h.cases_at i with ⟨hnone, -⟩ | ⟨t', d, ht', hd, hs⟩
  · simp [ht] at hnone
  · obtain rfl := Option.some.inj (ht.symm.trans ht')
    rw [hs.toBool_eq, h.owned?_eq, Owners.owned?, hd, Option.bind_some]
    cases howner : d.owner <;> simp [Handle.owned?, howner]

/-- What an operation runs, destroys and moves. -/
theorem performs
    (h : Refines fns s a) {op : Op} (he : enabled s op) :
    (effect fns s op).memory.invoked =
        s.memory.invoked ++ (op.invokes.bind (s.owned? fns)).toList ∧
      (effect fns s op).memory.destroyed =
        s.memory.destroyed ++ (op.releases.bind (s.owned? fns)).toList ∧
      ∀ src dst, op.moves s.tasks.length = some (src, dst) →
        ((effect fns s op).taskAt src).map Task.toBool = some false ∧
          (effect fns s op).owned? fns dst = s.owned? fns src := by
  have ha := (h.enabled_iff op).mp he
  have hnext := h.step he
  have howned : s.owned? fns = a.owned? := funext h.owned?_eq
  refine ⟨?_, ?_, fun src dst hmoves => ?_⟩
  · rw [hnext.invoked, Owners.invoked_effect, h.invoked, howned]
  · rw [hnext.destroyed, Owners.destroyed_effect ha, h.destroyed, howned]
  · rw [h.length_eq] at hmoves
    obtain ⟨d, hd, hsrc, hdst⟩ := Owners.handleAt_effect_of_moves ha hmoves
    constructor
    · rcases hnext.cases_at src with ⟨-, hnone⟩ | ⟨t, d', ht, hd', hs⟩
      · simp [hsrc] at hnone
      · obtain rfl := Option.some.inj (hsrc.symm.trans hd')
        rw [ht, Option.map_some, hs.toBool_eq]
        rfl
    · rw [hnext.owned?_eq, howned, Owners.owned?, Owners.owned?, hdst, hd]

end Refines

/-- Every program refines the abstract machine. -/
theorem refines_exec (fns : ℕ → Fn) (ops : List Op) :
    Option.Rel (Refines fns)
      ((machine fns).exec (fun _ _ => True) initial ops)
      (Owners.machine.exec (fun _ _ => True) Owners.initial ops) :=
  Machine.exec_rel (fun _ _ op h => h.enabled_iff op)
    (fun _ _ _ h he => h.step he) (Refines.initial fns) ops

/-- After every program over tasks, whatever the types of its callables: nothing
undefined has happened; no callable has two owners; `operator bool` tells the
owners; a callable that is owned has not been destroyed and any other one has
been destroyed once; there is one closure for each task that is not empty.  The
next operation runs exactly the callable of a task it invokes, destroys exactly
that of a task it overwrites or destroys, and a task that it moves from becomes
empty and hands over what it owned.  For callables of other types, stored in
other places, the same program leaves the same tasks empty, with the same
invocations and the same destructions. -/
theorem task_ownership_independent_of_storage
    (fns : ℕ → Fn) (ops : List Op) (s : State)
    (h : (machine fns).exec (fun _ _ => True) initial ops = some s) :
    s.memory.fault = false ∧
      (∀ i j k, s.owned? fns i = some k → s.owned? fns j = some k → i = j) ∧
      (∀ i t, s.taskAt i = some t →
        (t.toBool = true ↔ ∃ k, s.owned? fns i = some k)) ∧
      (∀ k < s.made,
        ((∃ i, s.owned? fns i = some k) → s.memory.destroyed.count k = 0) ∧
          ((¬∃ i, s.owned? fns i = some k) →
            s.memory.destroyed.count k = 1)) ∧
      s.liveInstances = s.nonEmpty ∧
      (∀ op, enabled s op →
        (effect fns s op).memory.invoked =
            s.memory.invoked ++ (op.invokes.bind (s.owned? fns)).toList ∧
          (effect fns s op).memory.destroyed =
            s.memory.destroyed ++ (op.releases.bind (s.owned? fns)).toList ∧
          ∀ src dst, op.moves s.tasks.length = some (src, dst) →
            ((effect fns s op).taskAt src).map Task.toBool = some false ∧
              (effect fns s op).owned? fns dst = s.owned? fns src) ∧
      ∀ fns', ∃ s',
        (machine fns').exec (fun _ _ => True) initial ops = some s' ∧
          s'.tasks.map (Option.map Task.toBool) =
            s.tasks.map (Option.map Task.toBool) ∧
          s'.memory.invoked = s.memory.invoked ∧
          s'.memory.destroyed = s.memory.destroyed := by
  have hrel := refines_exec fns ops
  rw [h] at hrel
  obtain ⟨a, ha, hrefines⟩ := exists_of_rel_some_left hrel
  refine ⟨hrefines.fault, fun i j k => hrefines.owner_unique,
    fun i t => hrefines.toBool_iff, fun k hk => hrefines.count_destroyed hk, ?_,
    fun op he => hrefines.performs he, fun fns' => ?_⟩
  · rw [hrefines.liveInstances_eq, hrefines.nonEmpty_eq]
  · have hrel' := refines_exec fns' ops
    rw [ha] at hrel'
    obtain ⟨s', hs', hrefines'⟩ := exists_of_rel_some_right hrel'
    exact ⟨s', hs', hrefines'.map_toBool_eq.trans hrefines.map_toBool_eq.symm,
      hrefines'.invoked.trans hrefines.invoked.symm,
      hrefines'.destroyed.trans hrefines.destroyed.symm⟩

/-- A program with a callable of 80 bytes and one of 8 bytes.  The first task is
moved onto the second, whose callable is destroyed; the second is invoked.  The
same happens when both callables are small. -/
theorem task_ownership_large_and_small :
    ∃ s, (machine (fun k => if k = 0 then ⟨80, 8, true⟩ else ⟨8, 8, true⟩)).exec
        (fun _ _ => True) initial
        [.construct, .construct, .moveAssign 1 0, .invoke 1] = some s ∧
      s.liveInstances = s.nonEmpty ∧ s.memory.invoked = [0] ∧
      s.memory.destroyed = [1] ∧
      ∃ s', (machine (fun _ => ⟨8, 8, true⟩)).exec (fun _ _ => True) initial
          [.construct, .construct, .moveAssign 1 0, .invoke 1] = some s' ∧
        s'.memory.invoked = [0] ∧ s'.memory.destroyed = [1] := by
  have hrun := task_ownership_independent_of_storage
    (fun k => if k = 0 then ⟨80, 8, true⟩ else ⟨8, 8, true⟩)
    [.construct, .construct, .moveAssign 1 0, .invoke 1] _ rfl
  obtain ⟨-, -, -, -, hlive, -, hother⟩ := hrun
  obtain ⟨s', hs', -, hinvoked, hdestroyed⟩ := hother (fun _ => ⟨8, 8, true⟩)
  exact ⟨_, rfl, hlive, rfl, rfl, s', hs', hinvoked, hdestroyed⟩

end Fiberexec.Tasks
