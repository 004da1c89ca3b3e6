import Fiberexec.Ring.Model
import Fiberexec.Support.Lists

/-!
# Completion routing

Every address held in the submission queue, in the kernel or in an undrained
CQE is the address of a live handler, of the call and the position that the
SQE belongs to.  The invariant `Routed` follows each request of each open call
through the stages of `Ring.Request`, and says that the ring holds nothing of
any other request.
-/

namespace Fiberexec.Ring

open Support

variable {ι τ : Type*} [DecidableEq ι]

/-! ## What the ring holds of a request -/

/-- The part of an SQE in the life of request `r`. -/
def Op.of (r : Rid ι) : Op ι → Option Pending
  | .io r' _ _ => if r' = r then some .answer else none
  | _ => none

/-- The part of a kernel entry in the life of request `r`. -/
def Entry.of (r : Rid ι) : Entry ι → Option Pending
  | .op o => o.of r
  | .zcNotif r' _ => if r' = r then some .notification else none

/-- The part of a CQE in the life of request `r`. -/
def Cqe.of (r : Rid ι) (c : Cqe ι) : Option Signal :=
  if c.rid = some r then some c.signal else none

/-- What the ring holds of request `r`. -/
def State.track (s : State ι τ) (r : Rid ι) : Track :=
  ⟨s.sq.filterMap (Op.of r), s.kernel.filterMap (Entry.of r),
    s.cq.filterMap (Cqe.of r)⟩

/-- The request and the address that an SQE carries, and whether it is a
zero-copy send. -/
def Op.label : Op ι → Option (Rid ι × ℕ × Option Bool)
  | .io r addr zc => some (r, addr, some zc)
  | _ => none

/-- The request and the address that a kernel entry carries. -/
def Entry.label : Entry ι → Option (Rid ι × ℕ × Option Bool)
  | .op o => o.label
  | .zcNotif r addr => some (r, addr, none)

/-- The request and the address that a CQE carries. -/
def Cqe.label (c : Cqe ι) : Option (Rid ι × ℕ × Option Bool) :=
  c.rid.map (fun r => (r, c.userData, none))

/-- All requests and addresses that the ring holds. -/
def State.labels (s : State ι τ) : List (Rid ι × ℕ × Option Bool) :=
  s.sq.filterMap Op.label ++ s.kernel.filterMap Entry.label ++
    s.cq.filterMap Cqe.label

omit [DecidableEq ι] in
theorem mem_labels_of_kernel
    {s : State ι τ} {x : Entry ι} {y : Rid ι × ℕ × Option Bool}
    (hx : x ∈ s.kernel) (hlabel : x.label = some y) : y ∈ s.labels := by
  simp only [State.labels, List.mem_append, List.mem_filterMap]
  exact Or.inl (Or.inr ⟨x, hx, hlabel⟩)

omit [DecidableEq ι] in
theorem mem_labels_of_cqe
    {s : State ι τ} {c : Cqe ι} {r : Rid ι} (hc : c ∈ s.cq)
    (hrid : c.rid = some r) : (r, c.userData, none) ∈ s.labels := by
  simp only [State.labels, List.mem_append, List.mem_filterMap]
  exact Or.inr ⟨c, hc, by simp [Cqe.label, hrid]⟩

theorem Op.of_eq_none_iff
    {o : Op ι} {r : Rid ι} :
    o.of r = none ↔ ∀ a z, o.label ≠ some (r, a, z) := by
  cases o with
  | io r' a zc => simp [Op.of, Op.label]
  | _ => simp [Op.of, Op.label]

theorem Entry.of_eq_none_iff
    {e : Entry ι} {r : Rid ι} :
    e.of r = none ↔ ∀ a z, e.label ≠ some (r, a, z) := by
  cases e with
  | op o => exact Op.of_eq_none_iff
  | zcNotif r' a => simp [Entry.of, Entry.label]

theorem Cqe.of_eq_none_iff
    {c : Cqe ι} {r : Rid ι} :
    c.of r = none ↔ ∀ a z, c.label ≠ some (r, a, z) := by
  cases hc : c.rid with
  | none => simp [Cqe.of, Cqe.label, hc]
  | some r' => simp [Cqe.of, Cqe.label, hc]

/-- The ring holds nothing of a request exactly when none of its labels names
it. -/
theorem track_eq_none_iff
    {s : State ι τ} {r : Rid ι} :
    s.track r = .none ↔ ∀ a z, (r, a, z) ∉ s.labels := by
  simp only [State.track, Track.none, Track.mk.injEq,
    List.filterMap_eq_nil_iff, Op.of_eq_none_iff, Entry.of_eq_none_iff,
    Cqe.of_eq_none_iff, State.labels, List.mem_append, not_or,
    List.mem_filterMap, not_exists, not_and]
  constructor
  · rintro ⟨hsq, hkernel, hcq⟩ a z
    exact ⟨⟨fun o ho => hsq o ho a z, fun e he => hkernel e he a z⟩,
      fun c hc => hcq c hc a z⟩
  · intro h
    exact ⟨fun o ho a z => (h a z).1.1 o ho,
      fun e he a z => (h a z).1.2 e he, fun c hc a z => (h a z).2 c hc⟩

/-! ## The routing invariant -/

/-- Whether the call a fiber is in is a zero-copy send, and the addresses of
its handlers. -/
def State.opened (s : State ι τ) (f : ι) : Option (Bool × List ℕ) :=
  (s.fiber f).call.map (fun c => (c.form.zc, c.addrs))

omit [DecidableEq ι] in
theorem opened_of_call
    {s : State ι τ} {f : ι} {c : Call} (h : (s.fiber f).call = some c) :
    s.opened f = some (c.form.zc, c.addrs) := by
  rw [State.opened, h]
  rfl

/-- The request at position `i` of the call that a fiber is in, or is next to
make. -/
def State.current (s : State ι τ) (f : ι) (i : ℕ) : Rid ι :=
  ⟨f, (s.fiber f).serial, i⟩

/-- Each position of the open call of a fiber has its live handler, in step
with the request; and whatever the ring holds of the fiber belongs to such a
position, and carries its address. -/
structure RoutedAt (s : State ι τ) (f : ι) : Prop where
  live : ∀ zc addrs i a, s.opened f = some (zc, addrs) →
    addrs[i]? = some a → ∃ h, s.mem a = some ⟨f, i, h⟩ ∧
      Stage zc (s.track (s.current f i)) h (s.result (s.current f i))
  placed : ∀ r a z, r.fiber = f → (r, a, z) ∈ s.labels →
    ∃ zc addrs, s.opened f = some (zc, addrs) ∧
      r.serial = (s.fiber f).serial ∧ addrs[r.index]? = some a ∧
      ∀ b ∈ z, b = zc
  owned : ∀ a i h, s.mem a = some ⟨f, i, h⟩ →
    ∃ zc addrs, s.opened f = some (zc, addrs) ∧ addrs[i]? = some a
  aligned : ∀ zc addrs, s.opened f = some (zc, addrs) →
    ∀ a ∈ addrs, kCancelTag < a
  fresh : ∀ r, r.fiber = f → (s.fiber f).serial < r.serial ∨
    ((s.fiber f).serial = r.serial ∧ s.opened f = none) → s.result r = none

/-- All fibers are routed, the CQEs of no request carry tags, and nothing was
ever dispatched to a dead handler. -/
structure Routed (s : State ι τ) : Prop where
  each : ∀ f, RoutedAt s f
  tagged : ∀ c ∈ s.cq, c.rid = none → c.userData ≤ kCancelTag
  safe : s.dangling = false

theorem RoutedAt.of_closed
    {s : State ι τ} {f : ι} (hclosed : s.opened f = none)
    (hlabels : ∀ r a z, r.fiber = f → (r, a, z) ∉ s.labels)
    (hmem : ∀ a i h, s.mem a ≠ some ⟨f, i, h⟩)
    (hresult : ∀ r, r.fiber = f → (s.fiber f).serial ≤ r.serial →
      s.result r = none) : RoutedAt s f := by
  constructor
  · intro zc addrs i a hopened
    rw [hclosed] at hopened
    cases hopened
  · intro r a z hr hx
    exact absurd hx (hlabels r a z hr)
  · intro a i h hcell
    exact absurd hcell (hmem a i h)
  · intro zc addrs hopened
    rw [hclosed] at hopened
    cases hopened
  · intro r hr hfresh
    exact hresult r hr (by omega)

theorem routed_initial : Routed (initial : State ι τ) where
  each := fun f =>
    RoutedAt.of_closed rfl
      (by simp [initial, State.labels, Entry.label, Op.label])
      (by simp [initial]) (fun _ _ _ => rfl)
  tagged := by simp [initial]
  safe := rfl

/-! ### What keeps it -/

/-- The call of a fiber stands as before, as far as routing can tell. -/
def SameCall (s s' : State ι τ) (f : ι) : Prop :=
  s'.opened f = s.opened f ∧ (s'.fiber f).serial = (s.fiber f).serial

omit [DecidableEq ι] in
theorem SameCall.current
    {s s' : State ι τ} {f : ι} (h : SameCall s s' f) (i : ℕ) :
    s'.current f i = s.current f i := by
  simp only [State.current, h.2]

/-- A step that leaves the handlers and the results of a fiber alone, and moves
its requests at most from the submission queue to the kernel. -/
theorem RoutedAt.of_track
    {s s' : State ι τ} {f : ι} (h : RoutedAt s f) (hcall : SameCall s s' f)
    (hmem : ∀ a i hd, s'.mem a = some ⟨f, i, hd⟩ ↔ s.mem a = some ⟨f, i, hd⟩)
    (hresult : ∀ r, r.fiber = f → s'.result r = s.result r)
    (htrack : ∀ r, r.fiber = f →
      s'.track r = s.track r ∨ s'.track r = (s.track r).submit)
    (hlabels : ∀ r a z, r.fiber = f → (r, a, z) ∈ s'.labels →
      (r, a, z) ∈ s.labels) : RoutedAt s' f := by
  constructor
  · intro zc addrs i a hopened ha
    rw [hcall.1] at hopened
    obtain ⟨hd, hcell, hstage⟩ := h.live zc addrs i a hopened ha
    refine ⟨hd, (hmem a i hd).mpr hcell, ?_⟩
    rw [hcall.current, hresult _ rfl]
    rcases htrack (s.current f i) rfl with ht | ht <;> rw [ht]
    · exact hstage
    · exact hstage.submit
  · intro r a z hr hx
    rw [hcall.1, hcall.2]
    exact h.placed r a z hr (hlabels r a z hr hx)
  · intro a i hd hcell
    rw [hcall.1]
    exact h.owned a i hd ((hmem a i hd).mp hcell)
  · intro zc addrs hopened
    rw [hcall.1] at hopened
    exact h.aligned zc addrs hopened
  · intro r hr hfresh
    rw [hcall.1, hcall.2] at hfresh
    rw [hresult r hr]
    exact h.fresh r hr hfresh

/-- A step that takes one request of a fiber to its next stage. -/
theorem RoutedAt.of_one
    {s s' : State ι τ} {r : Rid ι} (h : RoutedAt s r.fiber)
    (hcall : SameCall s s' r.fiber)
    {zc : Bool} {addrs : List ℕ} {a : ℕ} (hd : Handler)
    (hopened : s.opened r.fiber = some (zc, addrs))
    (hserial : r.serial = (s.fiber r.fiber).serial)
    (hindex : addrs[r.index]? = some a)
    (hmem : s'.mem = Function.update s.mem a (some ⟨r.fiber, r.index, hd⟩))
    (hstage : Stage zc (s'.track r) hd (s'.result r))
    (htrack : ∀ r', r' ≠ r → s'.track r' = s.track r')
    (hresult : ∀ r', r' ≠ r → s'.result r' = s.result r')
    (hlabels : ∀ x ∈ s'.labels, x ∈ s.labels ∨ x = (r, a, none)) :
    RoutedAt s' r.fiber := by
  obtain ⟨hd₀, hcell, -⟩ := h.live _ _ _ _ hopened hindex
  constructor
  · intro zc' addrs' i a' hopened' ha'
    rw [hcall.1, hopened] at hopened'
    obtain ⟨rfl, rfl⟩ := Prod.mk.inj (Option.some.inj hopened')
    rw [hcall.current, hmem]
    by_cases hi : i = r.index
    · subst hi
      obtain rfl := Option.some.inj (hindex.symm.trans ha')
      have hr : s.current r.fiber r.index = r := by
        rw [State.current, ← hserial]
      refine ⟨hd, Function.update_self .., ?_⟩
      rw [hr]
      exact hstage
    · obtain ⟨hd', hcell', hstage'⟩ := h.live _ _ i a' hopened ha'
      have hne : a' ≠ a := by
        rintro rfl
        rw [hcell] at hcell'
        exact hi (Cell.mk.inj (Option.some.inj hcell')).2.1.symm
      have hri : s.current r.fiber i ≠ r := fun heq =>
        hi (congrArg Rid.index heq)
      refine ⟨hd', by rw [Function.update_of_ne hne, hcell'], ?_⟩
      rw [htrack _ hri, hresult _ hri]
      exact hstage'
  · intro r' a' z hr' hx
    rw [hcall.1, hcall.2]
    rcases hlabels _ hx with hold | hnew
    · exact h.placed r' a' z hr' hold
    · obtain ⟨rfl, rfl, rfl⟩ : r' = r ∧ a' = a ∧ z = none := by
        simpa using hnew
      exact ⟨zc, addrs, hopened, hserial, hindex, by simp⟩
  · intro a' i hd' hcell'
    rw [hcall.1]
    rw [hmem] at hcell'
    by_cases ha : a' = a
    · subst ha
      rw [Function.update_self] at hcell'
      obtain ⟨-, rfl, -⟩ := Cell.mk.inj (Option.some.inj hcell')
      exact ⟨zc, addrs, hopened, hindex⟩
    · rw [Function.update_of_ne ha] at hcell'
      exact h.owned a' i hd' hcell'
  · intro zc' addrs' hopened'
    rw [hcall.1] at hopened'
    exact h.aligned zc' addrs' hopened'
  · intro r' hr' hfresh
    rw [hcall.1, hcall.2] at hfresh
    have hne : r' ≠ r := by
      rintro rfl
      rcases hfresh with hlt | ⟨-, hnone⟩
      · omega
      · rw [hopened] at hnone
        cases hnone
    rw [hresult r' hne]
    exact h.fresh r' hr' hfresh

/-- A step that leaves handlers and results alone, moves requests at most from
the submission queue to the kernel and posts only CQEs of no request. -/
theorem Routed.of_track
    {s s' : State ι τ} (h : Routed s) (hcalls : ∀ f, SameCall s s' f)
    (hmem : s'.mem = s.mem) (hresult : s'.result = s.result)
    (hdangling : s'.dangling = s.dangling)
    (htrack : ∀ r, s'.track r = s.track r ∨ s'.track r = (s.track r).submit)
    (hlabels : ∀ x ∈ s'.labels, x ∈ s.labels)
    (htagged : ∀ c ∈ s'.cq, c.rid = none → c ∈ s.cq ∨
      c.userData ≤ kCancelTag) : Routed s' := by
  refine ⟨fun f => (h.each f).of_track (hcalls f) ?_ ?_ ?_ ?_, ?_, ?_⟩
  · intro a i hd
    rw [hmem]
  · intro r _
    rw [hresult]
  · intro r _
    exact htrack r
  · intro r a z _
    exact hlabels (r, a, z)
  · intro c hc hrid
    rcases htagged c hc hrid with hold | hle
    · exact h.tagged c hold hrid
    · exact hle
  · rw [hdangling]
    exact h.safe

theorem Routed.of_one
    {s s' : State ι τ} (h : Routed s) (hcalls : ∀ f, SameCall s s' f)
    {r : Rid ι} {zc : Bool} {addrs : List ℕ} {a : ℕ} (hd : Handler)
    (hopened : s.opened r.fiber = some (zc, addrs))
    (hserial : r.serial = (s.fiber r.fiber).serial)
    (hindex : addrs[r.index]? = some a)
    (hmem : s'.mem = Function.update s.mem a (some ⟨r.fiber, r.index, hd⟩))
    (hstage : Stage zc (s'.track r) hd (s'.result r))
    (htrack : ∀ r', r' ≠ r → s'.track r' = s.track r')
    (hresult : ∀ r', r' ≠ r → s'.result r' = s.result r')
    (hlabels : ∀ x ∈ s'.labels, x ∈ s.labels ∨ x = (r, a, none))
    (htagged : ∀ c ∈ s'.cq, c.rid = none → c ∈ s.cq)
    (hdangling : s'.dangling = s.dangling) : Routed s' := by
  refine ⟨fun f => ?_, fun c hc hrid => ?_, by rw [hdangling, h.safe]⟩
  · by_cases hf : f = r.fiber
    · subst hf
      exact (h.each _).of_one (hcalls _) hd hopened hserial hindex hmem hstage
        htrack hresult hlabels
    · have hother : ∀ r' : Rid ι, r'.fiber = f → r' ≠ r := by
        rintro r' rfl rfl
        exact hf rfl
      obtain ⟨hd₀, hcell, -⟩ := (h.each _).live _ _ _ _ hopened hindex
      apply (h.each f).of_track (hcalls f)
      · intro a' i hd'
        rw [hmem]
        by_cases ha : a' = a
        · subst ha
          rw [Function.update_self, hcell]
          constructor <;> intro heq <;>
            exact absurd (Cell.mk.inj (Option.some.inj heq)).1.symm hf
        · rw [Function.update_of_ne ha]
      · intro r' hr'
        exact hresult r' (hother r' hr')
      · intro r' hr'
        exact Or.inl (htrack r' (hother r' hr'))
      · intro r' a' z hr' hx
        rcases hlabels _ hx with hold | hnew
        · exact hold
        · exact absurd (Prod.mk.inj hnew).1 (hother r' hr')
  · exact h.tagged c (htagged c hc hrid) hrid

/-! ### Steps that touch no request -/

theorem Routed.of_ring
    {s s' : State ι τ} (h : Routed s) (hcalls : ∀ f, SameCall s s' f)
    (hsq : s'.sq = s.sq) (hkernel : s'.kernel = s.kernel)
    (hcq : s'.cq = s.cq) (hmem : s'.mem = s.mem)
    (hresult : s'.result = s.result) (hdangling : s'.dangling = s.dangling) :
    Routed s' := by
  apply h.of_track hcalls hmem hresult hdangling
  · intro r
    left
    simp only [State.track, hsq, hkernel, hcq]
  · intro x hx
    simpa only [State.labels, hsq, hkernel, hcq] using hx
  · intro c hc _
    left
    rwa [hcq] at hc

omit [DecidableEq ι] in
theorem SameCall.refl (s : State ι τ) (f : ι) : SameCall s s f :=
  ⟨rfl, rfl⟩

theorem Routed.queue
    {s : State ι τ} (h : Routed s) {ops : List (Op ι)}
    (hops : ∀ o ∈ ops, o.label = none) :
    Routed { s with sq := s.sq ++ ops } := by
  have hof : ∀ r, ops.filterMap (Op.of r) = [] := by
    intro r
    rw [List.filterMap_eq_nil_iff]
    intro o ho
    simp [Op.of_eq_none_iff, hops o ho]
  refine h.of_track (SameCall.refl s) rfl rfl rfl ?_ ?_ ?_
  · intro r
    left
    simp only [State.track, List.filterMap_append, hof, List.append_nil]
  · intro x hx
    simpa only [State.labels, List.filterMap_append,
      List.filterMap_eq_nil_iff.mpr hops, List.append_nil] using hx
  · intro c hc _
    exact Or.inl hc

/-- `io_uring_submit` takes every prepared request to the kernel. -/
theorem Routed.submitAll
    {s : State ι τ} (h : Routed s) : Routed s.submitAll := by
  refine h.of_track (SameCall.refl s) rfl rfl rfl ?_ ?_ ?_
  · intro r
    right
    simp only [State.track, State.submitAll, Track.submit,
      List.filterMap_append, List.filterMap_map, List.filterMap_nil]
    rfl
  · intro x hx
    have hcomp : (s.sq.map Entry.op).filterMap Entry.label =
        s.sq.filterMap Op.label := by
      rw [List.filterMap_map]
      rfl
    simp only [State.labels, State.submitAll, List.filterMap_append, hcomp,
      List.filterMap_nil, List.nil_append, List.mem_append] at hx ⊢
    rcases hx with (hx | hx) | hx
    · exact Or.inl (Or.inr hx)
    · exact Or.inl (Or.inl hx)
    · exact Or.inr hx
  · intro c hc _
    exact Or.inl hc

theorem Routed.arm
    {s : State ι τ} (h : Routed s) {o : Op ι} (ho : o.label = none) :
    Routed (s.arm o) := by
  simp only [State.arm]
  split
  · apply Routed.submitAll
    apply h.queue
    intro o' ho'
    rwa [List.mem_singleton.mp ho']
  · exact h.of_ring (SameCall.refl s) rfl rfl rfl rfl rfl rfl

theorem routed_processNotify
    {s : State ι τ} (h : Routed s) : Routed (processNotify s) := by
  have hcancels : ∀ o ∈ cancelSqes (s.cancelQueue.take
      (kRingEntries - s.sq.length)), o.label = none := by
    intro o ho
    obtain ⟨p, -, rfl⟩ := List.mem_map.mp ho
    rfl
  refine Routed.arm ?_ rfl
  rw [flushCancelQueue_eq]
  exact (h.queue hcancels).of_ring (SameCall.refl s) rfl rfl rfl rfl rfl rfl

theorem Routed.postTagged
    {s : State ι τ} (h : Routed s) {i : ℕ} {o : Op ι}
    (hi : s.kernel[i]? = some (.op o)) (ho : o.label = none)
    (tag : ℕ) (htag : tag ≤ kCancelTag) (res : ℤ) :
    Routed (s.post i (.tagged tag res)) := by
  refine h.of_track (SameCall.refl s) rfl rfl rfl ?_ ?_ ?_
  · intro r
    left
    have hof : Entry.of r (.op o) = none := by
      simp [Entry.of_eq_none_iff, Entry.label, ho]
    simp only [State.track, State.post, filterMap_eraseIdx_of_none hi hof]
    simp [Cqe.of, Cqe.tagged]
  · intro x hx
    have hlabel : Entry.label (.op o) = none := ho
    simpa [State.labels, State.post, filterMap_eraseIdx_of_none hi hlabel,
      Cqe.label, Cqe.tagged] using hx
  · intro c hc hrid
    rcases List.mem_append.mp hc with hold | hnew
    · exact Or.inl hold
    · rw [List.mem_singleton] at hnew
      subst hnew
      exact Or.inr htag

theorem Routed.popTagged
    {s : State ι τ} (h : Routed s) {c : Cqe ι}
    (hc : s.cq.head? = some c) (hrid : c.rid = none) :
    Routed { s with cq := s.cq.tail } := by
  obtain ⟨cs, hcs⟩ := List.head?_eq_some_iff.mp hc
  refine h.of_track (SameCall.refl s) rfl rfl rfl ?_ ?_ ?_
  · intro r
    left
    simp [State.track, hcs, Cqe.of, hrid]
  · intro x hx
    simpa [State.labels, hcs, Cqe.label, hrid] using hx
  · intro c' hc' _
    exact Or.inl (List.mem_of_mem_tail hc')

/-! ### Steps of one request -/

theorem Entry.of_eq_none_of_label
    {e : Entry ι} {r r' : Rid ι} {a : ℕ} {z : Option Bool}
    (h : e.label = some (r, a, z)) (hne : r' ≠ r) : e.of r' = none := by
  rw [Entry.of_eq_none_iff]
  intro a' z' h'
  rw [h] at h'
  exact hne (Prod.mk.inj (Option.some.inj h')).1.symm

theorem Routed.handler
    {s : State ι τ} (h : Routed s) {r : Rid ι} {a : ℕ} {z : Option Bool}
    (hx : (r, a, z) ∈ s.labels) :
    ∃ zc addrs hd, s.opened r.fiber = some (zc, addrs) ∧
      r.serial = (s.fiber r.fiber).serial ∧ addrs[r.index]? = some a ∧
      (∀ b ∈ z, b = zc) ∧ s.mem a = some ⟨r.fiber, r.index, hd⟩ ∧
      Stage zc (s.track r) hd (s.result r) := by
  obtain ⟨zc, addrs, hopened, hserial, hindex, hz⟩ :=
    (h.each r.fiber).placed r a z rfl hx
  obtain ⟨hd, hcell, hstage⟩ := (h.each r.fiber).live _ _ _ _ hopened hindex
  have hr : s.current r.fiber r.index = r := by
    rw [State.current, ← hserial]
  rw [hr] at hstage
  exact ⟨zc, addrs, hd, hopened, hserial, hindex, hz, hcell, hstage⟩

theorem Routed.call_of_label
    {s : State ι τ} (h : Routed s) {r : Rid ι} {a : ℕ} {z : Option Bool}
    (hx : (r, a, z) ∈ s.labels) :
    ∃ c hd, (s.fiber r.fiber).call = some c ∧
      (s.fiber r.fiber).serial = r.serial ∧ c.addrs[r.index]? = some a ∧
      kCancelTag < a ∧ s.mem a = some ⟨r.fiber, r.index, hd⟩ := by
  obtain ⟨zc, addrs, hd, hopened, hserial, hindex, -, hcell, -⟩ := h.handler hx
  have haligned := (h.each r.fiber).aligned zc addrs hopened a
    (List.mem_of_getElem? hindex)
  obtain ⟨c, hcall, hpair⟩ := Option.map_eq_some_iff.mp hopened
  obtain ⟨-, rfl⟩ := Prod.mk.inj hpair
  exact ⟨c, hd, hcall, hserial.symm, hindex, haligned, hcell⟩

/-- The kernel posts a CQE of a request it holds. -/
theorem Routed.of_post
    {s s' : State ι τ} (h : Routed s) (hcalls : ∀ f, SameCall s s' f)
    {i : ℕ} {e : Entry ι} {r : Rid ι} {a : ℕ} {z : Option Bool}
    {p : Pending} {c : Signal} {res : Option ℤ} (rest : List (Entry ι))
    (hi : s.kernel[i]? = some e) (hlabel : e.label = some (r, a, z))
    (hof : e.of r = some p) (hrest : ∀ e' ∈ rest, e' = .zcNotif r a)
    (hkernel : s'.kernel = s.kernel.eraseIdx i ++ rest)
    (hcq : s'.cq = s.cq ++ [⟨a, c, some r⟩])
    (hresult : s'.result = Function.update s.result r res)
    (hsq : s'.sq = s.sq) (hmem : s'.mem = s.mem)
    (hdangling : s'.dangling = s.dangling)
    (hstage : ∀ zc hd, (∀ b ∈ z, b = zc) →
      Stage zc (s.track r) hd (s.result r) → (s.track r).kernel = [p] →
        Stage zc ⟨(s.track r).queued, rest.filterMap (Entry.of r),
          (s.track r).cqes ++ [c]⟩ hd res) : Routed s' := by
  have he : e ∈ s.kernel := List.mem_of_getElem? hi
  obtain ⟨zc, addrs, hd, hopened, hserial, hindex, hz, hcell, hst⟩ :=
    h.handler (mem_labels_of_kernel he hlabel)
  have hp : p ∈ (s.track r).kernel := List.mem_filterMap.mpr ⟨e, he, hof⟩
  have hone : s.kernel.filterMap (Entry.of r) = [p] :=
    hst.kernel_eq_singleton hp
  refine h.of_one hcalls hd hopened hserial hindex ?_ ?_ ?_ ?_ ?_ ?_
    hdangling
  · rw [hmem, ← hcell, Function.update_eq_self]
  · have htrack : s'.track r =
        ⟨(s.track r).queued, rest.filterMap (Entry.of r),
          (s.track r).cqes ++ [c]⟩ := by
      simp only [State.track, hsq, hkernel, hcq, List.filterMap_append,
        filterMap_eraseIdx_of_singleton hi hof hone]
      simp [Cqe.of]
    rw [htrack, hresult, Function.update_self]
    exact hstage zc hd hz hst hone
  · intro r' hne
    have hrest' : rest.filterMap (Entry.of r') = [] := by
      rw [List.filterMap_eq_nil_iff]
      intro e' he'
      rw [hrest e' he']
      exact Entry.of_eq_none_of_label rfl hne
    have hne' : r ≠ r' := fun heq => hne heq.symm
    simp only [State.track, hsq, hkernel, hcq, List.filterMap_append, hrest',
      filterMap_eraseIdx_of_none hi (Entry.of_eq_none_of_label hlabel hne)]
    simp [Cqe.of, hne']
  · intro r' hne
    rw [hresult, Function.update_of_ne hne]
  · rintro x hx
    simp only [State.labels, hsq, hkernel, hcq, List.filterMap_append,
      List.mem_append, List.mem_filterMap] at hx ⊢
    rcases hx with (hx | ⟨e', he', hx⟩ | ⟨e', he', hx⟩) | hx | ⟨c', hc', hx⟩
    · exact Or.inl (Or.inl (Or.inl hx))
    · exact Or.inl (Or.inl (Or.inr ⟨e', mem_of_mem_eraseIdx he', hx⟩))
    · rw [hrest e' he'] at hx
      exact Or.inr (Option.some.inj hx).symm
    · exact Or.inl (Or.inr hx)
    · rw [List.mem_singleton.mp hc'] at hx
      exact Or.inr (Option.some.inj hx).symm
  · intro c' hc' hrid
    rw [hcq] at hc'
    rcases List.mem_append.mp hc' with hold | hnew
    · exact hold
    · rw [List.mem_singleton.mp hnew] at hrid
      cases hrid

/-- `drain_cqes` hands a CQE of a request to its handler. -/
theorem routed_dispatch
    {s : State ι τ} (h : Routed s) {c : Cqe ι} {r : Rid ι}
    (hc : s.cq.head? = some c) (hrid : c.rid = some r) :
    Routed (dispatch { s with cq := s.cq.tail } c.userData c.signal) := by
  obtain ⟨cs, hcs⟩ := List.head?_eq_some_iff.mp hc
  obtain ⟨zc, addrs, hd, hopened, hserial, hindex, -, hcell, hst⟩ :=
    h.handler (mem_labels_of_cqe (List.mem_of_head? hc) hrid)
  have hcqes : (s.track r).cqes = c.signal :: cs.filterMap (Cqe.of r) := by
    simp [State.track, hcs, Cqe.of, hrid]
  simp only [dispatch, hcell]
  refine h.of_one (SameCall.refl s) (hd.complete c.signal) hopened
    hserial hindex rfl ?_ ?_ (fun _ _ => rfl) ?_ ?_ rfl
  · have htrack := hst.dispatch hcqes
    simpa [State.track, hcs] using htrack
  · intro r' hne
    have hne' : r ≠ r' := fun heq => hne heq.symm
    simp [State.track, hcs, Cqe.of, hrid, hne']
  · intro x hx
    simp only [State.labels, hcs, List.tail_cons, List.mem_append,
      List.mem_filterMap] at hx ⊢
    rcases hx with hx | ⟨c', hc', hx⟩
    · exact Or.inl (Or.inl hx)
    · exact Or.inl (Or.inr ⟨c', List.mem_cons_of_mem _ hc', hx⟩)
  · intro c' hc' _
    exact List.mem_of_mem_tail hc'

/-! ### The beginning of a call -/

theorem sqesFrom_filterMap_of
    (f : ι) (serial : ℕ) (zc : Bool) (k : ℕ) (addrs : List ℕ) (r : Rid ι) :
    (sqesFrom f serial zc k addrs).filterMap (Op.of r) =
      if r.fiber = f ∧ r.serial = serial ∧ k ≤ r.index ∧
        r.index < k + addrs.length then [.answer] else [] := by
  induction addrs generalizing k with
  | nil =>
      rw [if_neg (by rintro ⟨-, -, hle, hlt⟩; simp at hlt; omega)]
      rfl
  | cons a addrs ih =>
      rw [sqesFrom, List.filterMap_cons, ih]
      obtain ⟨f', serial', index⟩ := r
      by_cases hk : index = k
      · subst hk
        by_cases hf : f' = f ∧ serial' = serial
        · obtain ⟨rfl, rfl⟩ := hf
          simp [Op.of]
        · have hne : ¬((⟨f, serial, index⟩ : Rid ι) = ⟨f', serial', index⟩) := by
            rintro ⟨⟩
            exact hf ⟨rfl, rfl⟩
          simp only [Op.of, hne, if_false]
          rw [if_neg (fun h => hf ⟨h.1, h.2.1⟩),
            if_neg (fun h => hf ⟨h.1, h.2.1⟩)]
      · have hne : ¬((⟨f, serial, k⟩ : Rid ι) = ⟨f', serial', index⟩) := by
          rintro ⟨⟩
          exact hk rfl
        simp only [Op.of, hne, if_false, List.length_cons]
        congr 1
        apply propext
        constructor
        · rintro ⟨hf, hs, hle, hlt⟩
          exact ⟨hf, hs, by omega, by omega⟩
        · rintro ⟨hf, hs, hle, hlt⟩
          exact ⟨hf, hs, by omega, by omega⟩

omit [DecidableEq ι] in
theorem mem_sqesFrom_iff
    {f : ι} {serial : ℕ} {zc : Bool} {k : ℕ} {addrs : List ℕ} {o : Op ι} :
    o ∈ sqesFrom f serial zc k addrs ↔
      ∃ i a, addrs[i]? = some a ∧ o = .io ⟨f, serial, k + i⟩ a zc := by
  induction addrs generalizing k with
  | nil => simp [sqesFrom]
  | cons b addrs ih =>
      rw [sqesFrom, List.mem_cons, ih]
      constructor
      · rintro (rfl | ⟨i, a, ha, rfl⟩)
        · exact ⟨0, b, rfl, rfl⟩
        · refine ⟨i + 1, a, by simpa using ha, ?_⟩
          rw [Nat.add_right_comm, Nat.add_assoc]
      · rintro ⟨i, a, ha, rfl⟩
        cases i with
        | zero =>
            obtain rfl : b = a := by simpa using ha
            exact Or.inl rfl
        | succ i =>
            refine Or.inr ⟨i, a, by simpa using ha, ?_⟩
            rw [Nat.add_right_comm, Nat.add_assoc]

omit [DecidableEq ι] in
theorem allocFrom_of_not_mem
    {f : ι} {zc : Bool} {k : ℕ} {addrs : List ℕ}
    {mem : ℕ → Option (Cell ι)} {a : ℕ} (ha : a ∉ addrs) :
    allocFrom f zc k addrs mem a = mem a := by
  induction addrs generalizing k mem with
  | nil => rfl
  | cons b addrs ih =>
      rw [List.mem_cons, not_or] at ha
      rw [allocFrom, ih ha.2, Function.update_of_ne ha.1]

omit [DecidableEq ι] in
theorem allocFrom_of_getElem?
    {f : ι} {zc : Bool} {k i : ℕ} {addrs : List ℕ}
    {mem : ℕ → Option (Cell ι)} {a : ℕ} (hnodup : addrs.Nodup)
    (ha : addrs[i]? = some a) :
    allocFrom f zc k addrs mem a = some ⟨f, k + i, .fresh zc⟩ := by
  induction addrs generalizing k i mem with
  | nil => simp at ha
  | cons b addrs ih =>
      obtain ⟨hb, hnodup⟩ := List.nodup_cons.mp hnodup
      rw [allocFrom]
      cases i with
      | zero =>
          obtain rfl : b = a := by simpa using ha
          rw [allocFrom_of_not_mem hb, Function.update_self]
          rfl
      | succ i =>
          rw [ih hnodup (by simpa using ha), Nat.add_assoc, Nat.add_comm 1 i]

/-- The ring holds nothing of the requests of a fiber that is in no call. -/
theorem Routed.track_of_closed
    {s : State ι τ} (h : Routed s) {r : Rid ι}
    (hclosed : s.opened r.fiber = none) : s.track r = .none := by
  rw [track_eq_none_iff]
  intro a z hx
  obtain ⟨zc, addrs, hopened, -⟩ := (h.each r.fiber).placed r a z rfl hx
  rw [hclosed] at hopened
  cases hopened

theorem track_startCall
    {s : State ι τ} {f : ι} {form : Form} {addrs : List ℕ}
    (r : Rid ι) :
    (startCall s f form addrs).track r =
      ⟨(s.track r).queued ++
        (sqesFrom f (s.fiber f).serial form.zc 0 addrs).filterMap (Op.of r),
        (s.track r).kernel, (s.track r).cqes⟩ := by
  have htimeout :
      (if form = .timed then [Op.timeout] else []).filterMap (Op.of r) = [] := by
    split <;> rfl
  simp only [startCall, State.track, List.filterMap_append, htimeout,
    List.append_nil]

theorem mem_labels_startCall
    {s : State ι τ} {f : ι} {form : Form} {addrs : List ℕ}
    {r : Rid ι} {a : ℕ} {z : Option Bool}
    (hx : (r, a, z) ∈ (startCall s f form addrs).labels) :
    (r, a, z) ∈ s.labels ∨ ∃ i, addrs[i]? = some a ∧
      r = ⟨f, (s.fiber f).serial, i⟩ ∧ z = some form.zc := by
  have htimeout : (if form = .timed then [Op.timeout] else []).filterMap
      Op.label = ([] : List (Rid ι × ℕ × Option Bool)) := by
    split <;> rfl
  simp only [startCall, State.labels, List.filterMap_append, htimeout,
    List.append_nil, List.mem_append] at hx ⊢
  rcases hx with ((hx | hx) | hx) | hx
  · exact Or.inl (Or.inl (Or.inl hx))
  · obtain ⟨o, ho, hlabel⟩ := List.mem_filterMap.mp hx
    obtain ⟨i, b, hb, rfl⟩ := mem_sqesFrom_iff.mp ho
    obtain ⟨rfl, rfl, rfl⟩ := by simpa [Op.label] using hlabel
    exact Or.inr ⟨i, hb, rfl, rfl⟩
  · exact Or.inl (Or.inl (Or.inr hx))
  · exact Or.inl (Or.inr hx)

section StartCall

variable {s : State ι τ} {f : ι} {form : Form} {addrs : List ℕ}

theorem startCall_mem_of_getElem?
    {i a : ℕ} (hnodup : addrs.Nodup) (ha : addrs[i]? = some a) :
    (startCall s f form addrs).mem a = some ⟨f, i, .fresh form.zc⟩ := by
  have hcell : (startCall s f form addrs).mem a =
      some ⟨f, 0 + i, .fresh form.zc⟩ :=
    allocFrom_of_getElem? hnodup ha
  rwa [Nat.zero_add] at hcell

theorem startCall_mem_of_not_mem
    {a : ℕ} (ha : a ∉ addrs) : (startCall s f form addrs).mem a = s.mem a :=
  allocFrom_of_not_mem ha

theorem routedAt_startCall
    (h : Routed s) (hclosed : s.opened f = none) (hnodup : addrs.Nodup)
    (haddrs : ∀ a ∈ addrs, kCancelTag < a) :
    RoutedAt (startCall s f form addrs) f := by
  have hserial : ((startCall s f form addrs).fiber f).serial =
      (s.fiber f).serial := by
    simp [startCall]
  have hopened : (startCall s f form addrs).opened f =
      some (form.zc, addrs) := by
    simp [startCall, State.opened]
  constructor
  · intro zc' addrs' i a hopened' ha
    rw [hopened] at hopened'
    obtain ⟨rfl, rfl⟩ := Prod.mk.inj (Option.some.inj hopened')
    have hlt : i < addrs.length := (List.getElem?_eq_some_iff.mp ha).1
    have hnew : s.result ((startCall s f form addrs).current f i) = none :=
      (h.each f).fresh _ rfl (Or.inr ⟨hserial.symm, hclosed⟩)
    refine ⟨.fresh form.zc, startCall_mem_of_getElem? hnodup ha, ?_⟩
    rw [track_startCall, sqesFrom_filterMap_of, h.track_of_closed hclosed,
      if_pos ⟨rfl, hserial, Nat.zero_le i, by rwa [Nat.zero_add]⟩]
    change Stage _ _ _ (s.result _)
    rw [hnew]
    exact .queued
  · intro r a z hr hx
    rcases mem_labels_startCall hx with hold | ⟨i, hi, rfl, rfl⟩
    · have htrack := h.track_of_closed (r := r) (by rw [hr, hclosed])
      exact absurd hold (track_eq_none_iff.mp htrack a z)
    · exact ⟨form.zc, addrs, hopened, hserial.symm, hi, by simp⟩
  · intro a i hd hcell
    by_cases ha : a ∈ addrs
    · obtain ⟨j, hj⟩ := List.mem_iff_getElem?.mp ha
      rw [startCall_mem_of_getElem? hnodup hj] at hcell
      obtain ⟨-, rfl, -⟩ := Cell.mk.inj (Option.some.inj hcell)
      exact ⟨form.zc, addrs, hopened, hj⟩
    · rw [startCall_mem_of_not_mem ha] at hcell
      obtain ⟨zc', addrs', hopened', -⟩ := (h.each f).owned a i hd hcell
      rw [hclosed] at hopened'
      cases hopened'
  · intro zc' addrs' hopened' a ha
    rw [hopened] at hopened'
    obtain ⟨-, rfl⟩ := Prod.mk.inj (Option.some.inj hopened')
    exact haddrs a ha
  · intro r hr hfresh
    rw [hserial, hopened] at hfresh
    exact (h.each f).fresh r hr
      (hfresh.imp_right (fun hcon => absurd hcon.2 (by simp)))

/-- A call begins, at addresses where no handler lives. -/
theorem routed_startCall
    (h : Routed s) (hclosed : s.opened f = none) (hnodup : addrs.Nodup)
    (haddrs : ∀ a ∈ addrs, kCancelTag < a ∧ s.mem a = none) :
    Routed (startCall s f form addrs) := by
  refine ⟨fun f' => ?_, h.tagged, h.safe⟩
  by_cases hf : f' = f
  · subst hf
    exact routedAt_startCall h hclosed hnodup (fun a ha => (haddrs a ha).1)
  · have hf' : f ≠ f' := fun heq => hf heq.symm
    apply (h.each f').of_track
    · rw [SameCall, State.opened, State.opened, startCall_fiber_of_ne hf]
      exact ⟨rfl, rfl⟩
    · intro a i hd
      by_cases ha : a ∈ addrs
      · obtain ⟨j, hj⟩ := List.mem_iff_getElem?.mp ha
        rw [startCall_mem_of_getElem? hnodup hj, (haddrs a ha).2]
        simp [hf']
      · rw [startCall_mem_of_not_mem ha]
    · intro r _
      rfl
    · intro r hr
      left
      rw [track_startCall, sqesFrom_filterMap_of,
        if_neg (fun hcon => hf (hr.symm.trans hcon.1)), List.append_nil]
    · intro r a z hr hx
      rcases mem_labels_startCall hx with hold | ⟨i, -, rfl, -⟩
      · exact hold
      · exact absurd hr hf'

end StartCall

/-! ### The end of a call -/

/-- A call that has read all its results leaves nothing of itself in the
ring. -/
theorem Routed.track_of_fulfilled
    {s : State ι τ} (h : Routed s) {f : ι} {c : Call}
    (hcall : (s.fiber f).call = some c)
    (hdone : ∀ i a, c.addrs[i]? = some a →
      ∃ hd, s.mem a = some ⟨f, i, hd⟩ ∧ 0 < hd.fulfilments)
    {r : Rid ι} (hr : r.fiber = f) : s.track r = .none := by
  rw [track_eq_none_iff]
  intro a z hx
  obtain ⟨zc, addrs, hd, hopened, -, hindex, -, hcell, hstage⟩ := h.handler hx
  rw [hr, opened_of_call hcall] at hopened
  obtain ⟨-, rfl⟩ := Prod.mk.inj (Option.some.inj hopened)
  obtain ⟨hd', hcell', hpos⟩ := hdone _ _ hindex
  rw [hcell] at hcell'
  obtain ⟨-, -, rfl⟩ := Cell.mk.inj (Option.some.inj hcell')
  exact track_eq_none_iff.mp (hstage.of_fulfilled hpos).1 a z hx

/-- A call that has read all its results returns. -/
theorem routed_ret
    {s : State ι τ} (h : Routed s) {f : ι} {c : Call}
    (hcall : (s.fiber f).call = some c)
    (hdone : ∀ i a, c.addrs[i]? = some a →
      ∃ hd, s.mem a = some ⟨f, i, hd⟩ ∧ 0 < hd.fulfilments) :
    Routed (ret s f) := by
  have hopened := opened_of_call hcall
  have hmem : (ret s f).mem = release s.mem c.addrs := by
    simp only [ret, hcall]
  have hresult : (ret s f).result = s.result := by simp only [ret, hcall]
  have hlabels : (ret s f).labels = s.labels := by
    simp only [ret, hcall, State.labels]
  refine ⟨fun f' => ?_, ?_, ?_⟩
  · by_cases hf : f' = f
    · subst hf
      apply RoutedAt.of_closed
      · simp [ret, hcall, State.opened]
      · intro r a z hr
        rw [hlabels]
        exact track_eq_none_iff.mp (h.track_of_fulfilled hcall hdone hr) a z
      · intro a i hd hcell
        rw [hmem, release] at hcell
        split at hcell
        next => cases hcell
        next ha =>
          obtain ⟨zc, addrs, hopened', hi⟩ := (h.each f').owned a i hd hcell
          rw [hopened] at hopened'
          obtain ⟨-, rfl⟩ := Prod.mk.inj (Option.some.inj hopened')
          exact ha (List.mem_of_getElem? hi)
      · intro r hr hle
        rw [hresult]
        apply (h.each f').fresh r hr
        left
        simp only [ret, hcall, Function.update_self] at hle
        omega
    · apply (h.each f').of_track
      · rw [SameCall, State.opened, State.opened, ret_fiber_of_ne hf]
        exact ⟨rfl, rfl⟩
      · intro a i hd
        rw [hmem, release]
        by_cases ha : a ∈ c.addrs
        · obtain ⟨j, hj⟩ := List.mem_iff_getElem?.mp ha
          obtain ⟨hd', hcell', -⟩ := hdone j a hj
          have hf' : f ≠ f' := fun heq => hf heq.symm
          rw [if_pos ha, hcell']
          simp [hf']
        · rw [if_neg ha]
      · intro r _
        rw [hresult]
      · intro r _
        left
        simp only [ret, hcall, State.track]
      · intro r a z _ hx
        rwa [hlabels] at hx
  · simp only [ret, hcall]
    exact h.tagged
  · simp only [ret, hcall]
    exact h.safe

end Fiberexec.Ring
