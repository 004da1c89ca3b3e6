import Fiberexec.AsyncIo.Model

/-!
# Calls, their SQEs and what is moved for them

A request that the kernel holds belongs to the call that its fiber is in, its
result stands once it is posted, and bytes are moved for it only when the
requests ahead of it in its call have succeeded.
-/

namespace Fiberexec.AsyncIo

open Support
open Fiberexec.Ring (Rid Pending Stage)

variable {ι τ φ β : Type} [DecidableEq ι]

/-! ## Requests that the kernel holds -/

section Ring

variable {r : Ring.State ι τ} {id : Rid ι}

theorem call_of_held
    (h : Ring.Routed r) {p : Pending} (hp : p ∈ (r.track id).kernel) :
    ∃ c hd, (r.fiber id.fiber).call = some c ∧
      (r.fiber id.fiber).serial = id.serial ∧
      Stage c.form.zc (r.track id) hd (r.result id) := by
  obtain ⟨x, hx, hof⟩ := List.mem_filterMap.mp hp
  have hlabel : ∃ a z, x.label = some (id, a, z) := by
    by_contra hnone
    rw [not_exists] at hnone
    have := Ring.Entry.of_eq_none_iff.mpr fun a z ha => hnone a ⟨z, ha⟩
    simp [this] at hof
  obtain ⟨a, z, hlabel⟩ := hlabel
  obtain ⟨zc, addrs, hd, hopened, hserial, -, -, -, hstage⟩ :=
    h.handler (Ring.mem_labels_of_kernel hx hlabel)
  obtain ⟨c, hcall, hpair⟩ := Option.map_eq_some_iff.mp hopened
  obtain ⟨rfl, -⟩ := Prod.mk.inj hpair
  exact ⟨c, hd, hcall, hserial.symm, hstage⟩

theorem result_eq_none_of_answer
    {zc : Bool} {t : Ring.Track} {hd : Ring.Handler} {res : Option ℤ}
    (h : Stage zc t hd res) (hp : .answer ∈ t.kernel) : res = none := by
  cases h with
  | queued | inFlight => rfl
  | _ => simp [Ring.Track.none] at hp

theorem zc_of_stage
    {zc : Bool} {t : Ring.Track} {hd : Ring.Handler} {res : Option ℤ}
    (h : Stage zc t hd res) (hp : .notification ∈ t.kernel) : zc = true := by
  cases h with
  | sent _ hzc | stored _ hzc => exact hzc
  | _ => simp [Ring.Track.none] at hp

theorem result_of_unanswered
    (h : Ring.Routed r) (hp : Pending.answer ∈ (r.track id).kernel) :
    r.result id = none := by
  obtain ⟨c, hd, -, -, hstage⟩ := call_of_held h hp
  exact result_eq_none_of_answer hstage hp

theorem zc_of_notification
    (h : Ring.Routed r) (hp : Pending.notification ∈ (r.track id).kernel) :
    ∃ c, (r.fiber id.fiber).call = some c ∧
      (r.fiber id.fiber).serial = id.serial ∧ c.form.zc = true := by
  obtain ⟨c, hd, hcall, hserial, hstage⟩ := call_of_held h hp
  exact ⟨c, hcall, hserial, zc_of_stage hstage hp⟩

variable [DecidableEq τ] {k : Kernel} {token : ι → Option τ} {e : Ring.Event ι τ}

theorem result_effect_of_some
    (h : Ring.Routed r) (he : Ring.enabled token r e) {v : ℤ}
    (hv : r.result id = some v) : (Ring.effect token r e).result id = some v := by
  have hother : ∀ (i : ℕ) (id' : Rid ι) (a : ℕ) (zc : Bool),
      r.kernel[i]? = some (.op (.io id' a zc)) → id ≠ id' := by
    rintro i id' a zc hi rfl
    have hp : Pending.answer ∈ (r.track id).kernel :=
      List.mem_filterMap.mpr ⟨_, List.mem_of_getElem? hi, by
        simp [Ring.Entry.of, Ring.Op.of]⟩
    simp [result_of_unanswered h hp] at hv
  cases e with
  | complete i id' a zc res =>
      exact (Function.update_of_ne (hother i id' a zc he) _ _).trans hv
  | completeMore i id' a res =>
      exact (Function.update_of_ne (hother i id' a true he) _ _).trans hv
  | prepare f form addrs =>
      simp only [Ring.effect, Ring.prepare, Ring.startCall]
      split <;> exact hv
  | ret f =>
      simp only [Ring.effect, Ring.ret]
      split <;> exact hv
  | drain c rearm =>
      obtain ⟨_, _, _, _, _, _, _, hdrain⟩ := Ring.drain_frame r c rearm
      rw [Ring.effect, hdrain]
      exact hv
  | processNotify =>
      obtain ⟨_, _, _, _, _, hnotify⟩ := Ring.processNotify_frame r
      rw [Ring.effect, hnotify]
      exact hv
  | _ => exact hv

/-- The place of the entry that the kernel is through with after a step. -/
def erased : Ring.Event ι τ → Option ℕ
  | .complete i _ _ _ _ | .completeMore i _ _ _ | .completeNotif i _ _
  | .completeTimeout i _ | .readNotify i _ | .readWork i _
  | .cancelHit i _ _ _ _ _ | .cancelMiss i _ _ => some i
  | _ => none

omit [DecidableEq ι] [DecidableEq τ] in
theorem kernel_subset_arm (r : Ring.State ι τ) (o : Ring.Op ι) :
    r.kernel ⊆ (r.arm o).kernel := by
  rw [Ring.State.arm]
  split
  · exact List.subset_append_left _ _
  · exact List.Subset.refl _

omit [DecidableEq ι] [DecidableEq τ] in
theorem kernel_subset_drain
    (r : Ring.State ι τ) (c : Ring.Cqe ι) (rearm : Bool) :
    r.kernel ⊆ (Ring.drain r c rearm).kernel := by
  simp only [Ring.drain, Ring.dispatch]
  split_ifs
  · exact kernel_subset_arm { r with cq := r.cq.tail } _
  · exact List.Subset.refl _
  · exact List.Subset.refl _
  · exact List.Subset.refl _
  · split <;> exact List.Subset.refl _

theorem mem_kernel_effect
    (he : Ring.enabled token r e) {x : Ring.Entry ι} (hx : x ∈ r.kernel)
    (hkept : ∀ i ∈ erased e, r.kernel[i]? ≠ some x) :
    x ∈ (Ring.effect token r e).kernel := by
  have hposted : ∀ {i : ℕ} {y : Ring.Entry ι}, i ∈ erased e →
      r.kernel[i]? = some y → x ∈ r.kernel.eraseIdx i := by
    intro i y hi hy
    refine mem_eraseIdx_of_ne hx hy ?_
    rintro rfl
    exact hkept i hi hy
  cases e with
  | complete i | completeNotif i | completeTimeout i | readWork i =>
      exact hposted rfl he
  | readNotify i | cancelHit i | cancelMiss i => exact hposted rfl he.1
  | completeMore i => exact List.mem_append_left _ (hposted rfl he)
  | submit f => exact List.mem_append_left _ hx
  | prepare f form addrs =>
      simp only [Ring.effect, Ring.prepare, Ring.startCall]
      split <;> exact hx
  | ret f =>
      simp only [Ring.effect, Ring.ret]
      split <;> exact hx
  | drain c rearm => exact kernel_subset_drain r c rearm hx
  | processNotify => exact kernel_subset_arm _ _ hx
  | _ => exact hx

theorem notification_effect
    (he : Ring.enabled token r e)
    (hp : Pending.notification ∈ (r.track id).kernel)
    (hne : ∀ i a, e ≠ .completeNotif i id a) :
    Pending.notification ∈ ((Ring.effect token r e).track id).kernel := by
  obtain ⟨x, hx, hof⟩ := List.mem_filterMap.mp hp
  obtain ⟨a, rfl⟩ : ∃ a, x = .zcNotif id a := by
    cases x with
    | op o =>
        cases o <;> simp [Ring.Entry.of, Ring.Op.of] at hof
    | zcNotif id' a =>
        obtain rfl : id' = id := by simpa [Ring.Entry.of] using hof
        exact ⟨a, rfl⟩
  refine List.mem_filterMap.mpr ⟨_, mem_kernel_effect he hx ?_, hof⟩
  intro i hi hentry
  cases e with
  | completeNotif i' id' a' =>
      obtain rfl := Option.some.inj hi
      have := he.symm.trans hentry
      simp only [Option.some.injEq, Ring.Entry.zcNotif.injEq] at this
      obtain ⟨rfl, rfl⟩ := this
      exact hne _ _ rfl
  | complete | completeMore | completeTimeout | readWork =>
      obtain rfl := Option.some.inj hi
      simpa using he.symm.trans hentry
  | readNotify | cancelHit | cancelMiss =>
      obtain rfl := Option.some.inj hi
      simpa using he.1.symm.trans hentry
  | _ => cases hi

/-- What a step of the ring can do to the call of a fiber. -/
theorem ring_fiber_cases
    (h : Ring.Scheduled r) (hlive : r.crashed = false)
    (he : Ring.enabled token r e) (f : ι) :
    (∃ form addrs, e = .prepare f form addrs ∧ r.opened f = none ∧
        (Ring.effect token r e).opened f = some (form.zc, addrs) ∧
        ((Ring.effect token r e).fiber f).serial = (r.fiber f).serial) ∨
      (e = .ret f ∧ (Ring.effect token r e).opened f = none ∧
        ((Ring.effect token r e).fiber f).serial = (r.fiber f).serial + 1) ∨
      (∀ form addrs, e ≠ .prepare f form addrs) ∧
        Ring.SameCall r (Ring.effect token r e) f := by
  by_cases hprepare : ∃ form addrs, e = .prepare f form addrs
  · obtain ⟨form, addrs, rfl⟩ := hprepare
    refine .inl ⟨form, addrs, rfl, ?_, ?_, ?_⟩
    · simp [Ring.State.opened, Option.isNone_iff_eq_none.mp he.2.1]
    · rw [h.prepare_eq hlive he]
      simp [Ring.State.opened, Ring.startCall]
    · rw [h.prepare_eq hlive he]
      simp [Ring.startCall]
  have hprepare' : ∀ form addrs, e ≠ .prepare f form addrs :=
    fun form addrs heq => hprepare ⟨form, addrs, heq⟩
  by_cases hret : e = .ret f
  · subst hret
    obtain ⟨-, c, hcall, -⟩ := he
    have hcall : (r.fiber f).call = some c := hcall
    refine .inr (.inl ⟨rfl, ?_, ?_⟩)
    · simp [Ring.State.opened, Ring.effect, Ring.ret, hcall]
    · simp [Ring.effect, Ring.ret, hcall]
  refine .inr (.inr ⟨hprepare', ?_⟩)
  rw [Ring.SameCall, Ring.State.opened, Ring.State.opened,
    Ring.fiber_effect hprepare' hret, Option.map_map]
  refine ⟨congrArg (fun g => (r.fiber f).call.map g) ?_, rfl⟩
  funext c
  obtain ⟨hform, haddrs⟩ := Ring.callStep_form_addrs token r f e c
  simp only [Function.comp_apply, hform, haddrs]

end Ring

/-! ## Calls and their SQEs -/

section Calls

variable [DecidableEq τ] {k : Kernel} {token : ι → Option τ}
  {s : State ι τ φ β} {e : Event ι τ φ β}

theorem ring_reachable (h : (machine k token).Reachable s) :
    (Ring.machine token).Reachable s.ring := by
  refine Machine.ReachableUnder.component (M := machine k token)
    (f := State.ring) (fun s hs => hs.1) ?_ h
  intro s e he _
  cases hr : e.ring? with
  | none => exact .inl (by simp [machine, effect, hr])
  | some e' =>
      exact .inr ⟨e', he.1 e' hr, trivial,
        by simp [machine, effect, hr, Ring.machine]⟩

/-- What a step can do to the call of a fiber. -/
theorem fiber_cases
    (hs : Ring.Scheduled s.ring) (he : (machine k token).enabled s e) (f : ι) :
    (∃ op addrs, e = .call f op addrs ∧ s.ring.opened f = none ∧
        addrs.length = op.requests.length ∧
        (effect token s e).ring.opened f = some (op.form.zc, addrs) ∧
        ((effect token s e).ring.fiber f).serial = (s.ring.fiber f).serial) ∨
      (e = .ring (.ret f) ∧ (effect token s e).ring.opened f = none ∧
        ((effect token s e).ring.fiber f).serial =
          (s.ring.fiber f).serial + 1) ∨
      (∀ op addrs, e ≠ .call f op addrs) ∧
        Ring.SameCall s.ring (effect token s e).ring f := by
  cases hr : e.ring? with
  | none =>
      refine .inr (.inr ⟨?_, ?_⟩)
      · rintro op addrs rfl
        cases hr
      · simp [effect, hr, Ring.SameCall]
  | some e' =>
      obtain ⟨hlive, he'⟩ := he.1 e' hr
      have hring : (effect token s e).ring = Ring.effect token s.ring e' := by
        simp [effect, hr]
      rw [hring]
      rcases ring_fiber_cases hs hlive he' f with
        ⟨form, addrs, rfl, hnone, hopened, hserial⟩ | ⟨rfl, hopened, hserial⟩ |
          ⟨hprepare, hsame⟩
      · cases e with
        | call f' op addrs' =>
            cases hr
            exact .inl ⟨op, addrs, rfl, hnone, he.2.1, hopened, hserial⟩
        | ring e => cases hr; exact absurd he.2 (by simp [Applies, plain])
        | _ => cases hr
      · cases e with
        | ring e => cases hr; exact .inr (.inl ⟨rfl, hopened, hserial⟩)
        | _ => cases hr
      · refine .inr (.inr ⟨?_, hsame⟩)
        rintro op addrs rfl
        exact hprepare _ _ (Option.some.inj hr).symm

omit [DecidableEq τ] in
theorem aside_ops_of_ne
    {f : ι} (he : ∀ op addrs, e ≠ .call f op addrs) :
    (aside s e).ops f = s.ops f := by
  cases e with
  | call f' op addrs =>
      have hne : f ≠ f' := by
        rintro rfl
        exact he op addrs rfl
      simp [aside, State.begin, hne]
  | _ => rfl

/-- The calls that the fibers are in, or have made, are on record. -/
structure Booked (s : State ι τ φ β) : Prop where
  current : ∀ f zc addrs, s.ring.opened f = some (zc, addrs) →
    ∃ op, s.ops f (s.ring.fiber f).serial = some op ∧ op.form.zc = zc ∧
      addrs.length = op.requests.length
  made : ∀ f n op, s.ops f n = some op → n < (s.ring.fiber f).serial ∨
    n = (s.ring.fiber f).serial ∧ s.ring.opened f ≠ none

theorem booked_effect
    (h : Booked s) (hs : Ring.Scheduled s.ring)
    (he : (machine k token).enabled s e) : Booked (effect token s e) := by
  constructor
  · intro f zc addrs hopened
    change ∃ op, (aside s e).ops f _ = some op ∧ _
    rcases fiber_cases hs he f with
      ⟨op, addrs', rfl, -, hlength, hopened', hserial⟩ | ⟨-, hnone, -⟩ |
        ⟨hcall, hsame, hserial⟩
    · rw [hopened'] at hopened
      obtain ⟨rfl, rfl⟩ := Prod.mk.inj (Option.some.inj hopened)
      rw [hserial]
      exact ⟨op, by simp [aside, State.begin], rfl, hlength⟩
    · rw [hnone] at hopened
      cases hopened
    · rw [hsame] at hopened
      rw [hserial, aside_ops_of_ne hcall]
      exact h.current f zc addrs hopened
  · intro f n op hop
    change (aside s e).ops f n = some op at hop
    rcases fiber_cases hs he f with
      ⟨op', addrs', rfl, hnone, -, hopened', hserial⟩ | ⟨rfl, -, hserial⟩ |
        ⟨hcall, hsame, hserial⟩
    · rw [hserial, hopened']
      by_cases hn : n = (s.ring.fiber f).serial
      · exact .inr ⟨hn, by simp⟩
      · simp only [aside, State.begin, Function.update_self,
          Function.update_of_ne hn] at hop
        rcases h.made f n op hop with hlt | ⟨rfl, -⟩
        · exact .inl hlt
        · exact absurd rfl hn
    · have hop : s.ops f n = some op := hop
      rcases h.made f n op hop with hlt | ⟨rfl, -⟩ <;> omega
    · rw [aside_ops_of_ne hcall] at hop
      rw [hserial, hsame]
      exact h.made f n op hop

theorem booked_of_reachable (h : (machine k token).Reachable s) : Booked s := by
  refine Machine.Reachable.invariant ?_ ?_ h
  · rintro s ⟨hring, hops, -⟩
    refine ⟨?_, by simp [hops]⟩
    intro f zc addrs hopened
    simp [hring, Ring.State.opened, Ring.initial] at hopened
  · intro s e hprev hbooked he
    exact booked_effect hbooked
      (Ring.reachable_scheduled (ring_reachable hprev)) he

/-- The fiber is in the call that made the request. -/
def State.isOpen (s : State ι τ φ β) (r : Rid ι) : Prop :=
  s.ring.opened r.fiber ≠ none ∧ (s.ring.fiber r.fiber).serial = r.serial

omit [DecidableEq ι] [DecidableEq τ] in
theorem sqe_of_closed
    (h : Booked s) {r : Rid ι} (hnone : s.ring.opened r.fiber = none)
    (hr : r.serial = (s.ring.fiber r.fiber).serial) : s.sqe r = none := by
  have hfresh : s.ops r.fiber r.serial = none := by
    by_contra hsome
    obtain ⟨op', hop⟩ := Option.ne_none_iff_exists'.mp hsome
    rcases h.made _ _ _ hop with hlt | ⟨-, hne⟩
    · omega
    · exact hne hnone
  simp [State.sqe, hfresh]

/-- An SQE is on record as it was, or belongs to a call that begins. -/
theorem sqe_cases
    (h : Booked s) (hs : Ring.Scheduled s.ring)
    (he : (machine k token).enabled s e) (r : Rid ι) :
    ((effect token s e).sqe r = s.sqe r ∧
        ((effect token s e).isOpen r → s.isOpen r)) ∨
      ∃ op addrs, e = .call r.fiber op addrs ∧
        r.serial = (s.ring.fiber r.fiber).serial ∧ s.sqe r = none ∧
        (effect token s e).sqe r = op.requests[r.index]? := by
  rcases fiber_cases hs he r.fiber with
    ⟨op, addrs, rfl, hnone, -, hopened, hserial⟩ | ⟨rfl, hnone, -⟩ |
      ⟨hcall, hsame, hserial⟩
  · by_cases hr : r.serial = (s.ring.fiber r.fiber).serial
    · refine .inr ⟨op, addrs, rfl, hr, sqe_of_closed h hnone hr, ?_⟩
      simp [State.sqe, effect, aside, State.begin, hr]
    · refine .inl ⟨?_, fun hopen => absurd (hopen.2.symm.trans hserial) hr⟩
      simp [State.sqe, effect, aside, State.begin, hr]
  · exact .inl ⟨rfl, fun hopen => absurd hnone hopen.1⟩
  · refine .inl ⟨?_, ?_⟩
    · change ((aside s e).ops r.fiber r.serial).bind _ = _
      rw [aside_ops_of_ne hcall]
      rfl
    · rintro ⟨hopen, hr⟩
      rw [hsame] at hopen
      exact ⟨hopen, hserial.symm.trans hr⟩

theorem sqe_effect_of_some
    (h : Booked s) (hs : Ring.Scheduled s.ring)
    (he : (machine k token).enabled s e) {r : Rid ι} {q : Sqe}
    (hq : s.sqe r = some q) : (effect token s e).sqe r = some q := by
  rcases sqe_cases h hs he r with ⟨hsame, -⟩ | ⟨-, -, -, -, hnone, -⟩
  · rw [hsame, hq]
  · rw [hnone] at hq
    cases hq

theorem ring_result_effect
    (h : Ring.Routed s.ring) (he : (machine k token).enabled s e) {r : Rid ι}
    {v : ℤ} (hv : s.ring.result r = some v) :
    (effect token s e).ring.result r = some v := by
  cases hr : e.ring? with
  | none => simpa [effect, hr] using hv
  | some e' =>
      simpa [effect, hr] using result_effect_of_some h (he.1 e' hr).2 hv

theorem result_effect_of_plain
    (r : Ring.State ι τ) {e : Ring.Event ι τ} (he : plain e = true) :
    (Ring.effect token r e).result = r.result := by
  cases e with
  | prepare | complete | completeMore | completeNotif => cases he
  | ret f =>
      simp only [Ring.effect, Ring.ret]
      split <;> rfl
  | drain c rearm =>
      obtain ⟨_, _, _, _, _, _, _, hdrain⟩ := Ring.drain_frame r c rearm
      rw [Ring.effect, hdrain]
  | processNotify =>
      obtain ⟨_, _, _, _, _, hnotify⟩ := Ring.processNotify_frame r
      rw [Ring.effect, hnotify]
  | _ => rfl

theorem notification_kept
    (he : (machine k token).enabled s e) {r : Rid ι}
    (hne : ∀ e' ∈ e.ring?, ∀ i a, e' ≠ .completeNotif i r a)
    (hp : Pending.notification ∈ (s.ring.track r).kernel) :
    Pending.notification ∈ ((effect token s e).ring.track r).kernel := by
  cases hr : e.ring? with
  | none => simpa [effect, hr] using hp
  | some e' =>
      simpa [effect, hr] using
        notification_effect (he.1 e' hr).2 hp (hne e' hr)

/-- A result is on record as it was, with a notification to come as before or none
any more, or it is posted in this step. -/
theorem result_cases
    (he : (machine k token).enabled s e) {r : Rid ι} {v : ℤ}
    (hv : (effect token s e).ring.result r = some v) :
    (s.ring.result r = some v ∧
        (Pending.notification ∈ (s.ring.track r).kernel →
          Pending.notification ∈ ((effect token s e).ring.track r).kernel)) ∨
      (s.ring.result r = some v ∧ ∃ q, s.sqe r = some q ∧
        (0 ≤ v → k.counts q = true → ((s.moved r).length : ℤ) = v)) ∨
      ∃ q more, s.sqe r = some q ∧ s.answers k r q v more ∧
        (more = true →
          Pending.notification ∈ ((effect token s e).ring.track r).kernel) := by
  cases e with
  | ring e' =>
      refine .inl ⟨?_, notification_kept he ?_⟩
      · exact (congrFun (result_effect_of_plain s.ring he.2) r).symm.trans hv
      · rintro _ ⟨⟩ i a rfl
        cases he.2
  | call f op addrs =>
      refine .inl ⟨?_, notification_kept he ?_⟩
      · change (Ring.prepare s.ring f op.form addrs).result r = some v at hv
        simp only [Ring.prepare, Ring.startCall] at hv
        split at hv <;> exact hv
      · rintro _ ⟨⟩ i a ⟨⟩
  | answer i r' q addr zc res =>
      change Function.update s.ring.result r' (some res) r = some v at hv
      by_cases hr : r = r'
      · subst hr
        rw [Function.update_self] at hv
        obtain rfl := Option.some.inj hv
        exact .inr (.inr ⟨q, false, he.2.1, he.2.2, by simp⟩)
      · rw [Function.update_of_ne hr] at hv
        exact .inl ⟨hv, notification_kept he (by rintro _ ⟨⟩ j a ⟨⟩)⟩
  | answerMore i r' q addr res =>
      change Function.update s.ring.result r' (some res) r = some v at hv
      by_cases hr : r = r'
      · subst hr
        rw [Function.update_self] at hv
        obtain rfl := Option.some.inj hv
        refine .inr (.inr ⟨q, true, he.2.1, he.2.2, fun _ => ?_⟩)
        exact List.mem_filterMap.mpr ⟨.zcNotif r addr,
          List.mem_append_right _ (List.mem_singleton.mpr rfl),
          by simp [Ring.Entry.of]⟩
      · rw [Function.update_of_ne hr] at hv
        exact .inl ⟨hv, notification_kept he (by rintro _ ⟨⟩ j a ⟨⟩)⟩
  | answerNotif i r' q addr res =>
      have hv : s.ring.result r = some v := hv
      by_cases hr : r = r'
      · subst hr
        obtain ⟨hq, hres, hcount⟩ := he.2
        obtain rfl := Option.some.inj (hres.symm.trans hv)
        exact .inr (.inl ⟨hv, q, hq, hcount⟩)
      · refine .inl ⟨hv, notification_kept he ?_⟩
        rintro _ ⟨⟩ j a ⟨⟩
        exact hr rfl
  | _ => exact .inl ⟨hv, notification_kept he (by rintro _ ⟨⟩)⟩

theorem started_effect
    (h : Booked s) (hs : Ring.Sound s.ring)
    (he : (machine k token).enabled s e) {r : Rid ι} (hr : s.started k r) :
    (effect token s e).started k r := by
  intro i hi
  obtain ⟨q, hq, v, hv, hok⟩ := hr i hi
  exact ⟨q, sqe_effect_of_some h hs.scheduled he hq, v,
    ring_result_effect hs.routed he hv, hok⟩

omit [DecidableEq τ] in
theorem moved_record_of_nil
    (x : φ) {deed : Deed β} (hdata : deed.data = []) (r : Rid ι) :
    (s.record r x deed).moved = s.moved := by
  simp [State.record, hdata]

omit [DecidableEq τ] in
/-- Only the two steps that move bytes for a request change what is on record
of it. -/
theorem aside_moved_of_ne
    {r : Rid ι} (htake : ∀ q d n, e ≠ .take r q d n)
    (hfill : ∀ q d data, e ≠ .fill r q d data) :
    (aside s e).moved r = s.moved r := by
  cases e with
  | take r' q d n =>
      have hne : r ≠ r' := by
        rintro rfl
        exact htake q d n rfl
      simp [aside, State.record, hne]
  | fill r' q d data =>
      have hne : r ≠ r' := by
        rintro rfl
        exact hfill q d data rfl
      simp [aside, State.record, hne]
  | sync r' q d => exact congrFun (moved_record_of_nil d.file rfl r') r
  | openFile r' q x fd => exact congrFun (moved_record_of_nil x rfl r') r
  | _ => rfl

/-- Nothing is moved for a request before it is made, nor before the requests
ahead of it have succeeded. -/
structure InTurn (k : Kernel) (s : State ι τ φ β) : Prop where
  fresh : ∀ r, s.sqe r = none → s.moved r = []
  started : ∀ r, s.moved r ≠ [] → s.started k r

theorem inTurn_effect
    (h : InTurn k s) (hb : Booked s) (hs : Ring.Sound s.ring)
    (he : (machine k token).enabled s e) : InTurn k (effect token s e) := by
  have hmoves : ∀ r, (effect token s e).moved r = s.moved r ∨
      s.sqe r ≠ none ∧ s.started k r := by
    intro r
    by_cases htake : ∃ q d n, e = .take r q d n
    · obtain ⟨q, d, n, rfl⟩ := htake
      obtain ⟨hq, -, hstarted, -⟩ := he.2.1
      exact .inr ⟨by simp [hq], hstarted⟩
    by_cases hfill : ∃ q d data, e = .fill r q d data
    · obtain ⟨q, d, data, rfl⟩ := hfill
      obtain ⟨hq, -, hstarted, -⟩ := he.2.1
      exact .inr ⟨by simp [hq], hstarted⟩
    · exact .inl (aside_moved_of_ne
        (fun q d n heq => htake ⟨q, d, n, heq⟩)
        (fun q d data heq => hfill ⟨q, d, data, heq⟩))
  constructor
  · intro r hnone
    rcases sqe_cases hb hs.scheduled he r with
      ⟨hsame, -⟩ | ⟨op, addrs, rfl, -, hold, -⟩
    · rw [hsame] at hnone
      rcases hmoves r with hmoved | ⟨hne, -⟩
      · rw [hmoved]
        exact h.fresh r hnone
      · exact absurd hnone hne
    · exact h.fresh r hold
  · intro r hne
    refine started_effect hb hs he ?_
    rcases hmoves r with hmoved | ⟨-, hstarted⟩
    · rw [hmoved] at hne
      exact h.started r hne
    · exact hstarted

theorem inTurn_of_reachable (h : (machine k token).Reachable s) : InTurn k s := by
  refine Machine.Reachable.invariant ?_ ?_ h
  · rintro s ⟨-, -, -, hmoved, -⟩
    exact ⟨fun r _ => hmoved r, fun r hne => absurd (hmoved r) hne⟩
  · intro s e hprev hturn he
    exact inTurn_effect hturn (booked_of_reachable hprev)
      (Ring.reachable_sound (ring_reachable hprev)) he

end Calls

/-! ## Requests that bytes are moved for -/

theorem Operation.requests_of_zc
    {op : Operation} (h : op.form.zc = true) :
    ∃ q, op.requests = [q] ∧ q.dirties = false := by
  cases op with
  | asyncSendZc fd data nbytes flags bufIndex => exact ⟨_, rfl, rfl⟩
  | asyncSendRecv | asyncWriteFsync => cases h
  | _ =>
      simp only [Operation.form] at h
      split at h <;> cases h

theorem Sqe.dirties_of_fills {q : Sqe} (h : q.fills = true) :
    q.dirties = true := by
  simp [Sqe.dirties, h]

/-- The first half of a linked pair writes to no memory, and neither is an
accept. -/
theorem Operation.dirties_of_lt
    {op : Operation} {i j : ℕ} {q q' : Sqe} (hij : i < j)
    (hi : op.requests[i]? = some q) (hj : op.requests[j]? = some q') :
    q.dirties = false ∧ q'.opcode ≠ .accept := by
  have hlt : j < op.requests.length := (List.getElem?_eq_some_iff.mp hj).1
  cases op with
  | asyncSendRecv fd sendBuf recvBuf sendFlags recvFlags =>
      obtain ⟨rfl, rfl⟩ : i = 0 ∧ j = 1 := by simp [requests] at hlt; omega
      obtain rfl := Option.some.inj hi
      obtain rfl := Option.some.inj hj
      exact ⟨rfl, by simp [recvSqe, prepRw, Sqe.onFd]⟩
  | asyncWriteFsync fd buf =>
      obtain ⟨rfl, rfl⟩ : i = 0 ∧ j = 1 := by simp [requests] at hlt; omega
      obtain rfl := Option.some.inj hi
      obtain rfl := Option.some.inj hj
      exact ⟨rfl, by simp [prepRw, Sqe.onFd]⟩
  | asyncSleepFor duration =>
      simp only [requests] at hlt
      split at hlt
      · simp at hlt
      · simp at hlt
        omega
  | _ => simp [requests] at hlt; omega

section Held

variable {k : Kernel} {s : State ι τ φ β} {r : Rid ι} {q : Sqe}

theorem held_of_limit (h : 0 < s.limit r q) :
    Pending.answer ∈ (s.ring.track r).kernel ∨
      Pending.notification ∈ (s.ring.track r).kernel := by
  rw [State.limit] at h
  split_ifs at h with hanswer hnotif
  · exact .inl hanswer
  · exact .inr hnotif
  · omega

theorem isOpen_of_limit
    (hs : Ring.Routed s.ring) (h : 0 < s.limit r q) : s.isOpen r := by
  have hheld : ∃ p, p ∈ (s.ring.track r).kernel := by
    rcases held_of_limit h with hp | hp <;> exact ⟨_, hp⟩
  obtain ⟨p, hp⟩ := hheld
  obtain ⟨c, -, hcall, hserial, -⟩ := call_of_held hs hp
  exact ⟨by simp [Ring.State.opened, hcall], hserial⟩

theorem requests_of_notification
    (hb : Booked s) (hs : Ring.Routed s.ring)
    (hp : Pending.notification ∈ (s.ring.track r).kernel) :
    ∃ op q', s.ops r.fiber r.serial = some op ∧ op.requests = [q'] ∧
      q'.dirties = false := by
  obtain ⟨c, hcall, hserial, hzc⟩ := zc_of_notification hs hp
  obtain ⟨op, hop, hform, -⟩ :=
    hb.current r.fiber _ _ (Ring.opened_of_call hcall)
  obtain ⟨q', hone, hclean⟩ := Operation.requests_of_zc (hform.trans hzc)
  exact ⟨op, q', hserial ▸ hop, hone, hclean⟩

/-- The requests behind one that the kernel is busy with have not started. -/
theorem not_started_later
    (hb : Booked s) (hs : Ring.Routed s.ring) (h : 0 < s.limit r q) {i : ℕ}
    (hi : r.index < i) (hsqe : s.sqe { r with index := i } ≠ none) :
    ¬s.started k { r with index := i } := by
  intro hstarted
  rcases held_of_limit h with hp | hp
  · obtain ⟨-, -, v, hv, -⟩ := hstarted r.index hi
    simp [result_of_unanswered hs hp] at hv
  · obtain ⟨op, q', hop, hone, -⟩ := requests_of_notification hb hs hp
    have hlength : op.requests.length ≤ i := by
      rw [hone, List.length_singleton]
      omega
    exact hsqe (by simp [State.sqe, hop, hlength])

theorem moved_later
    (ht : InTurn k s) (hb : Booked s) (hs : Ring.Routed s.ring)
    (h : 0 < s.limit r q) {i : ℕ} (hi : r.index < i) :
    s.moved { r with index := i } = [] := by
  by_contra hne
  exact not_started_later hb hs h hi (fun hnone => hne (ht.fresh _ hnone))
    (ht.started _ hne)

theorem not_notification_of_fills
    (hb : Booked s) (hs : Ring.Routed s.ring) (hq : s.sqe r = some q)
    (hfills : q.fills = true) :
    Pending.notification ∉ (s.ring.track r).kernel := by
  intro hp
  obtain ⟨op, q', hop, hone, hnot⟩ := requests_of_notification hb hs hp
  have hmem : q ∈ op.requests := by
    rw [State.sqe, hop] at hq
    exact List.mem_of_getElem? hq
  rw [hone, List.mem_singleton] at hmem
  rw [← hmem, Sqe.dirties_of_fills hfills] at hnot
  cases hnot

end Held

end Fiberexec.AsyncIo
