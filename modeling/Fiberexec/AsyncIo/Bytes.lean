import Fiberexec.AsyncIo.Calls

/-!
# Calls move their own bytes

Fibers lend their buffers to the kernel when they call, and nobody else touches
them meanwhile.  Then the number that a call returns is the number of bytes moved
for it; a buffer that was to be filled holds them, and of a buffer that was to be
sent they are the first ones it held at the call.  No memory but the buffers of
the calls in progress is ever changed by the kernel: it is through with the
buffer of a call when the call returns, also when it was cancelled or timed
out.
-/

namespace Fiberexec.AsyncIo

open Support
open Fiberexec.Ring (Rid Pending)

variable {ι τ φ β : Type} [DecidableEq ι]

/-! ## Buffers -/

/-- Nobody writes to memory that was lent to the kernel, and no memory is lent to be
written to while the kernel has it otherwise. -/
def Disciplined (s : State ι τ φ β) : Event ι τ φ β → Prop
  | .call _ op _ => ∀ f, ∀ q' ∈ s.openSqes f, ∀ q ∈ op.requests,
      q.dirties = true ∨ q'.dirties = true → q.Apart q'
  | .store addr data => ∀ f, ∀ q ∈ s.openSqes f, ∀ a ∈ q.regions,
      a.Apart ⟨addr, data.length⟩
  | _ => True

/-- The result of a request is the number of bytes moved for it, at the latest
when the notification of a zero-copy send has come. -/
def Tallied (ring : Ring.State ι τ) (r : Rid ι) (count : ℕ) (v : ℤ) : Prop :=
  (count : ℤ) = v ∨ Pending.notification ∈ (ring.track r).kernel ∧ count ≤ v

/-- What is on record of a request: no more was moved than asked for, what was
taken is the first that the buffer held, and the result tallies. -/
structure Counted (k : Kernel) (s : State ι τ φ β) (r : Rid ι) (q : Sqe) :
    Prop where
  length : (s.lent r).length = q.extent
  bound : (s.moved r).length ≤ q.len
  taken : q.takes = true → s.moved r <+: s.lent r
  result : ∀ v, s.ring.result r = some v → 0 ≤ v → k.counts q = true →
    q.fills = true ∨ q.takes = true → Tallied s.ring r (s.moved r).length v

/-- What the buffer of an open call holds: what it was lent with until it is
sent, or the bytes moved so far with what it was lent with behind them. -/
structure Lent (s : State ι τ φ β) (r : Rid ι) (q : Sqe) : Prop where
  unread : q.takes = true →
    (∀ i, r.index < i → s.moved { r with index := i } = []) →
      Memory.read s.mem q.addr q.len = s.lent r
  filled : q.fills = true → Memory.read s.mem q.addr q.len =
    s.moved r ++ (s.lent r).drop (s.moved r).length

/-- Two requests share memory that is written to: they are the halves of a linked
pair. -/
structure Paired (r r' : Rid ι) (q q' : Sqe) : Prop where
  fiber : r'.fiber = r.fiber
  index : r'.index < r.index
  opcode : q.opcode ≠ .accept
  clean : q'.dirties = false

/-- All calls move their own bytes. -/
structure Faithful (k : Kernel) (s : State ι τ φ β) : Prop where
  counted : ∀ r q, s.sqe r = some q → Counted k s r q
  lent : ∀ r q, s.sqe r = some q → s.isOpen r → Lent s r q
  apart : ∀ r r' q q', s.sqe r = some q → s.sqe r' = some q' → s.isOpen r →
    s.isOpen r' → r ≠ r' → q.dirties = true → q.Apart q' ∨ Paired r r' q q'

theorem Span.Apart.symm {a b : Span} (h : a.Apart b) : b.Apart a :=
  Or.symm h

namespace Sqe

theorem Apart.symm {q q' : Sqe} (h : q.Apart q') : q'.Apart q :=
  fun a ha b hb => (h b hb a ha).symm

theorem fills_of_takes {q : Sqe} (h : q.takes = true) : q.fills = false := by
  cases hop : q.opcode <;> simp_all [takes, fills]

theorem moves_of_accept {q : Sqe} (h : q.opcode = .accept) :
    q.fills = false ∧ q.takes = false := by
  simp [fills, takes, h]

theorem regions_of_moves {q : Sqe} (h : q.fills = true ∨ q.takes = true) :
    q.regions = [⟨q.addr, q.len⟩] := by
  cases hop : q.opcode <;> simp_all [takes, fills, regions]

theorem read_of_apart
    (mem : ℕ → β) {q : Sqe} {addr : ℕ} {data : List β}
    (h : ∀ a ∈ q.regions, a.Apart ⟨addr, data.length⟩)
    (hmoves : q.fills = true ∨ q.takes = true) :
    Memory.read (Memory.write mem addr data) q.addr q.len =
      Memory.read mem q.addr q.len := by
  refine Memory.read_write_of_apart mem ?_
  exact h ⟨q.addr, q.len⟩ (by simp [regions_of_moves hmoves])

end Sqe

theorem Counted.congr
    {k : Kernel} {s s' : State ι τ φ β} {r : Rid ι} {q : Sqe} (h : Counted k s r q)
    (hlent : s'.lent r = s.lent r) (hmoved : s'.moved r = s.moved r)
    (hresult : ∀ v, s'.ring.result r = some v → 0 ≤ v → k.counts q = true →
      q.fills = true ∨ q.takes = true → Tallied s'.ring r (s.moved r).length v) :
    Counted k s' r q := by
  constructor
  · rw [hlent]
    exact h.length
  · rw [hmoved]
    exact h.bound
  · rw [hlent, hmoved]
    exact h.taken
  · rw [hmoved]
    exact hresult

section Steps

variable [DecidableEq τ] {k : Kernel} {token : ι → Option τ}
  {s : State ι τ φ β} {e : Event ι τ φ β}

theorem result_effect
    (h : Faithful k s) (he : (machine k token).enabled s e) {r : Rid ι} {q : Sqe}
    (hq : s.sqe r = some q) {v : ℤ}
    (hv : (effect token s e).ring.result r = some v) (hpos : 0 ≤ v)
    (hcounts : k.counts q = true) (hmoves : q.fills = true ∨ q.takes = true) :
    Tallied (effect token s e).ring r (s.moved r).length v := by
  rcases result_cases he hv with
    ⟨hold, hnotif⟩ | ⟨-, q', hq', hcount⟩ |
      ⟨q', more, hq', ⟨-, -, hanswer⟩, hnotif⟩
  · rcases (h.counted r q hq).result v hold hpos hcounts hmoves with
      heq | ⟨hp, hle⟩
    · exact .inl heq
    · exact .inr ⟨hnotif hp, hle⟩
  · obtain rfl := Option.some.inj (hq.symm.trans hq')
    exact .inl (hcount hpos hcounts)
  · obtain rfl := Option.some.inj (hq.symm.trans hq')
    obtain ⟨hle, heq⟩ := (hanswer hpos).1 hcounts hmoves
    cases more with
    | false => exact .inl (heq rfl)
    | true => exact .inr ⟨hnotif rfl, hle⟩

theorem sqe_effect_of_ne
    (hb : Booked s) (hs : Ring.Scheduled s.ring)
    (he : (machine k token).enabled s e) (hcall : ∀ f op addrs, e ≠ .call f op addrs)
    (r : Rid ι) :
    (effect token s e).sqe r = s.sqe r ∧
      ((effect token s e).isOpen r → s.isOpen r) := by
  rcases sqe_cases hb hs he r with hsame | ⟨op, addrs, rfl, -⟩
  · exact hsame
  · exact absurd rfl (hcall _ _ _)

theorem apart_effect
    (h : Faithful k s) (hb : Booked s) (hs : Ring.Scheduled s.ring)
    (he : (machine k token).enabled s e)
    (hcall : ∀ f op addrs, e ≠ .call f op addrs)
    {r r' : Rid ι} {q q' : Sqe} (hq : (effect token s e).sqe r = some q)
    (hq' : (effect token s e).sqe r' = some q')
    (hr : (effect token s e).isOpen r) (hr' : (effect token s e).isOpen r')
    (hne : r ≠ r') (hdirties : q.dirties = true) :
    q.Apart q' ∨ Paired r r' q q' := by
  obtain ⟨hsqe, hopen⟩ := sqe_effect_of_ne hb hs he hcall r
  obtain ⟨hsqe', hopen'⟩ := sqe_effect_of_ne hb hs he hcall r'
  exact h.apart r r' q q' (hsqe ▸ hq) (hsqe' ▸ hq') (hopen hr) (hopen' hr') hne
    hdirties

/-- A step that begins no call, moves nothing, and leaves what the buffers hold. -/
theorem faithful_still
    (h : Faithful k s) (hb : Booked s) (hs : Ring.Scheduled s.ring)
    (he : (machine k token).enabled s e)
    (hcall : ∀ f op addrs, e ≠ .call f op addrs)
    (hlent : (aside s e).lent = s.lent) (hmoved : (aside s e).moved = s.moved)
    (hread : ∀ r q, s.sqe r = some q → s.isOpen r → q.fills = true ∨ q.takes = true →
      Memory.read (aside s e).mem q.addr q.len = Memory.read s.mem q.addr q.len) :
    Faithful k (effect token s e) := by
  have hlent' : (effect token s e).lent = s.lent := hlent
  have hmoved' : (effect token s e).moved = s.moved := hmoved
  constructor
  · intro r q hq
    rw [(sqe_effect_of_ne hb hs he hcall r).1] at hq
    exact (h.counted r q hq).congr (congrFun hlent r) (congrFun hmoved r) fun v =>
      result_effect h he hq
  · intro r q hq hopen
    obtain ⟨hsame, hkept⟩ := sqe_effect_of_ne hb hs he hcall r
    rw [hsame] at hq
    have hr := h.lent r q hq (hkept hopen)
    constructor
    · intro htakes
      rw [hmoved', hlent']
      exact fun hlater =>
        (hread r q hq (hkept hopen) (.inr htakes)).trans (hr.unread htakes hlater)
    · intro hfills
      rw [hmoved', hlent']
      exact (hread r q hq (hkept hopen) (.inl hfills)).trans (hr.filled hfills)
  · intro r r' q q'
    exact apart_effect h hb hs he hcall

omit [DecidableEq ι] [DecidableEq τ] in
theorem mem_openSqes
    {r : Rid ι} {q : Sqe} (hq : s.sqe r = some q) (hopen : s.isOpen r) :
    q ∈ s.openSqes r.fiber := by
  obtain ⟨hcall, hserial⟩ := hopen
  obtain ⟨op, hop, hindex⟩ := Option.bind_eq_some_iff.mp hq
  obtain ⟨c, hc⟩ : ∃ c, (s.ring.fiber r.fiber).call = some c := by
    rw [← Option.ne_none_iff_exists']
    intro hnone
    exact hcall (by simp [Ring.State.opened, hnone])
  simp only [State.openSqes, hc, hserial, hop]
  exact List.mem_of_getElem? hindex

theorem faithful_store
    (h : Faithful k s) (hb : Booked s) (hs : Ring.Scheduled s.ring)
    {addr : ℕ} {data : List β} (hg : Disciplined s (.store addr data)) :
    Faithful k (effect token s (.store addr data)) := by
  refine faithful_still h hb hs ⟨by rintro _ ⟨⟩, trivial⟩ (by rintro f op addrs ⟨⟩)
    rfl rfl fun r q hq hopen hmoves => ?_
  exact Sqe.read_of_apart s.mem (hg r.fiber q (mem_openSqes hq hopen)) hmoves

/-- The buffers of a new call hold what they are lent with, and nothing has been
moved for it. -/
theorem faithful_call
    (h : Faithful k s) (ht : InTurn k s) (hb : Booked s) (hs : Ring.Sound s.ring)
    {f : ι} {op : Operation} {addrs : List ℕ}
    (he : (machine k token).enabled s (.call f op addrs))
    (hg : Disciplined s (.call f op addrs)) :
    Faithful k (effect token s (.call f op addrs)) := by
  have hnone : s.ring.opened f = none := by
    have hcall := (he.1 _ rfl).2.2.1
    simp [Ring.State.opened, Option.isNone_iff_eq_none.mp hcall]
  -- a request is of the new call, or it was there and its buffer is lent as before
  have hcases : ∀ r q, (effect token s (.call f op addrs)).sqe r = some q →
      (r.fiber = f ∧ r.serial = (s.ring.fiber f).serial ∧ s.sqe r = none ∧
        op.requests[r.index]? = some q) ∨
      (s.sqe r = some q ∧
        ((effect token s (.call f op addrs)).isOpen r → s.isOpen r) ∧
        (effect token s (.call f op addrs)).lent r = s.lent r) := by
    intro r q hq
    rcases sqe_cases hb hs.scheduled he r with
      ⟨hsame, hopen⟩ | ⟨op', addrs', heq, hr, hnew, hsqe⟩
    · rw [hsame] at hq
      refine .inr ⟨hq, hopen, if_neg ?_⟩
      rintro ⟨rfl, hr⟩
      rw [sqe_of_closed hb hnone hr] at hq
      cases hq
    · cases heq
      exact .inl ⟨rfl, hr, hnew, hsqe.symm.trans hq⟩
  constructor
  · intro r q hq
    rcases hcases r q hq with ⟨rfl, hr, hnew, hindex⟩ | ⟨hold, -, hlent⟩
    · have hmoved : (effect token s (.call r.fiber op addrs)).moved r = [] :=
        ht.fresh r hnew
      refine ⟨?_, by simp [hmoved], by simp [hmoved], ?_⟩
      · simp [effect, aside, State.begin, hr, hindex]
      intro v hv
      have hresult : s.ring.result r = none :=
        (hs.routed.each r.fiber).fresh r rfl (.inr ⟨hr.symm, hnone⟩)
      have hprepare : (effect token s (.call r.fiber op addrs)).ring.result =
          s.ring.result := by
        simp only [effect, Event.ring?, Option.elim_some, Ring.effect,
          Ring.prepare, Ring.startCall]
        split <;> rfl
      rw [hprepare, hresult] at hv
      cases hv
    · exact (h.counted r q hold).congr hlent rfl fun v => result_effect h he hold
  · intro r q hq hopen
    rcases hcases r q hq with ⟨rfl, hr, hnew, hindex⟩ | ⟨hold, hkept, hlent⟩
    · have hmoved : (effect token s (.call r.fiber op addrs)).moved r = [] :=
        ht.fresh r hnew
      have hlent : q.extent = q.len →
          (effect token s (.call r.fiber op addrs)).lent r =
            Memory.read s.mem q.addr q.len := by
        intro hextent
        simp [effect, aside, State.begin, hr, hindex, hextent]
      refine ⟨fun htakes _ => (hlent (if_pos (.inr htakes))).symm,
        fun hfills => ?_⟩
      rw [hmoved, hlent (if_pos (.inl hfills))]
      rfl
    · have hr := h.lent r q hold (hkept hopen)
      constructor <;> rw [hlent]
      · exact hr.unread
      · exact hr.filled
  · intro r r' q q' hq hq' hopen hopen' hne hdirties
    rcases hcases r q hq with ⟨hf, hr, -, hindex⟩ | ⟨hold, hkept, -⟩ <;>
      rcases hcases r' q' hq' with ⟨hf', hr', -, hindex'⟩ | ⟨hold', hkept', -⟩
    · rcases Nat.lt_trichotomy r.index r'.index with hlt | heq | hgt
      · rw [(Operation.dirties_of_lt hlt hindex hindex').1] at hdirties
        cases hdirties
      · exact absurd (by cases r; cases r'; simp_all) hne
      · obtain ⟨hclean, hopcode⟩ := Operation.dirties_of_lt hgt hindex' hindex
        exact .inr ⟨hf'.trans hf.symm, hgt, hopcode, hclean⟩
    · exact .inl (hg r'.fiber q' (mem_openSqes hold' (hkept' hopen')) q
        (List.mem_of_getElem? hindex) (.inl hdirties))
    · exact .inl (hg r.fiber q (mem_openSqes hold (hkept hopen)) q'
        (List.mem_of_getElem? hindex') (.inr hdirties)).symm
    · exact h.apart r r' q q' hold hold' (hkept hopen) (hkept' hopen') hne hdirties

omit [DecidableEq τ] in
theorem limit_le (s : State ι τ φ β) (r : Rid ι) (q : Sqe) :
    s.limit r q ≤ q.len := by
  rw [State.limit]
  split_ifs <;> omega

omit [DecidableEq ι] [DecidableEq τ] in
theorem read_of_isPrefix
    {mem : ℕ → β} {addr len : ℕ} {data : List β}
    (h : data <+: Memory.read mem addr len) :
    data = Memory.read mem addr data.length := by
  have hle : data.length ≤ len := by simpa using h.length_le
  have hsplit := Memory.read_add mem addr data.length (len - data.length)
  rw [Nat.add_sub_cancel' hle] at hsplit
  rw [hsplit] at h
  exact (List.prefix_of_prefix_length_le h (List.prefix_append _ _)
    (by simp)).eq_of_length (by simp)

theorem faithful_take
    (h : Faithful k s) (ht : InTurn k s) (hb : Booked s) (hs : Ring.Sound s.ring)
    {r : Rid ι} {q : Sqe} {d : Desc φ} {n : ℕ}
    (he : (machine k token).enabled s (.take r q d n)) :
    Faithful k (effect token s (.take r q d n)) := by
  obtain ⟨⟨hq, -, -, hn, hlimit⟩, htakes⟩ := he.2
  have hcall : ∀ f op addrs,
      (.take r q d n : Event ι τ φ β) ≠ .call f op addrs := by
    rintro f op addrs ⟨⟩
  have hpos : 0 < s.limit r q := by omega
  have hopen := isOpen_of_limit hs.routed hpos
  have hlen := limit_le s r q
  have hread := (h.lent r q hq hopen).unread htakes fun i hi =>
    moved_later ht hb hs.routed hpos hi
  have htaken := (h.counted r q hq).taken htakes
  rw [← hread] at htaken
  have hmoved : (effect token s (.take r q d n)).moved r =
      Memory.read s.mem q.addr ((s.moved r).length + n) := by
    rw [Memory.read_add, ← read_of_isPrefix htaken]
    exact Function.update_self ..
  have hother : ∀ r', r' ≠ r →
      (effect token s (.take r q d n)).moved r' = s.moved r' := by
    intro r' hne
    exact Function.update_of_ne hne ..
  constructor
  · intro r' q' hq'
    have hq' : s.sqe r' = some q' := hq'
    by_cases hr : r' = r
    · subst hr
      obtain rfl := Option.some.inj (hq.symm.trans hq')
      constructor
      · exact (h.counted r' q hq).length
      · rw [hmoved, Memory.length_read]
        omega
      · intro _
        change _ <+: s.lent r'
        have hsplit := Memory.read_add s.mem q.addr ((s.moved r').length + n)
          (q.len - ((s.moved r').length + n))
        rw [Nat.add_sub_cancel' (by omega)] at hsplit
        rw [hmoved, ← hread, hsplit]
        exact List.prefix_append _ _
      · intro v hv hv' _ _
        have hv : s.ring.result r' = some v := hv
        rw [hmoved, Memory.length_read]
        rw [State.limit] at hlimit
        split_ifs at hlimit with hanswer hnotif
        · rw [result_of_unanswered hs.routed hanswer] at hv
          cases hv
        · rw [hv, Option.getD_some] at hlimit
          exact .inr ⟨hnotif, by omega⟩
        · omega
    · have hr' := h.counted r' q' hq'
      exact hr'.congr rfl (hother r' hr) hr'.result
  · intro r' q' hq' hopen'
    have hr' := h.lent r' q' hq' hopen'
    constructor
    · intro htakes' hlater
      refine hr'.unread htakes' fun i hi => ?_
      have hi' := hlater i hi
      by_cases hr : { r' with index := i } = r
      · rw [hr, hmoved] at hi'
        have hzero := congrArg List.length hi'
        simp only [Memory.length_read, List.length_nil] at hzero
        omega
      · rwa [hother _ hr] at hi'
    · intro hfills
      by_cases hr : r' = r
      · subst hr
        obtain rfl := Option.some.inj (hq.symm.trans hq')
        rw [Sqe.fills_of_takes htakes] at hfills
        cases hfills
      · rw [hother r' hr]
        exact hr'.filled hfills
  · intro r' r'' q' q''
    exact apart_effect h hb hs.scheduled he hcall

theorem faithful_fill
    (h : Faithful k s) (hb : Booked s) (hs : Ring.Sound s.ring)
    {r : Rid ι} {q : Sqe} {d : Desc φ} {data : List β}
    (he : (machine k token).enabled s (.fill r q d data)) :
    Faithful k (effect token s (.fill r q d data)) := by
  obtain ⟨⟨hq, -, -, hn, hlimit⟩, hfills⟩ := he.2
  have hcall : ∀ f op addrs,
      (.fill r q d data : Event ι τ φ β) ≠ .call f op addrs := by
    rintro f op addrs ⟨⟩
  have hopen := isOpen_of_limit hs.routed (q := q) (r := r) (by omega)
  have hlen := limit_le s r q
  have hunanswered : s.ring.result r = none := by
    rcases held_of_limit (q := q) (r := r) (s := s) (by omega) with hp | hp
    · exact result_of_unanswered hs.routed hp
    · exact absurd hp (not_notification_of_fills hb hs.routed hq hfills)
  have hmem : (effect token s (.fill r q d data)).mem =
      Memory.write s.mem (q.addr + (s.moved r).length) data := rfl
  have hmoved : (effect token s (.fill r q d data)).moved r = s.moved r ++ data :=
    Function.update_self ..
  have hother : ∀ r', r' ≠ r →
      (effect token s (.fill r q d data)).moved r' = s.moved r' := by
    intro r' hne
    exact Function.update_of_ne hne ..
  constructor
  · intro r' q' hq'
    have hq' : s.sqe r' = some q' := hq'
    by_cases hr : r' = r
    · subst hr
      obtain rfl := Option.some.inj (hq.symm.trans hq')
      constructor
      · exact (h.counted r' q hq).length
      · rw [hmoved, List.length_append]
        omega
      · intro htakes
        rw [Sqe.fills_of_takes htakes] at hfills
        cases hfills
      · intro v hv
        have hv : s.ring.result r' = some v := hv
        rw [hunanswered] at hv
        cases hv
    · have hr' := h.counted r' q' hq'
      exact hr'.congr rfl (hother r' hr) hr'.result
  · intro r' q' hq' hopen'
    have hq' : s.sqe r' = some q' := hq'
    have hopen' : s.isOpen r' := hopen'
    have hr' := h.lent r' q' hq' hopen'
    by_cases hr : r' = r
    · subst hr
      obtain rfl := Option.some.inj (hq.symm.trans hq')
      constructor
      · intro htakes
        rw [Sqe.fills_of_takes htakes] at hfills
        cases hfills
      · intro _
        have hfilled := hr'.filled hfills
        have hlength : q.len = (s.moved r').length + (data.length +
            (q.len - ((s.moved r').length + data.length))) := by omega
        rw [hlength, Memory.read_add, Memory.read_add] at hfilled
        obtain ⟨hfront, hback⟩ := List.append_inj hfilled (by simp)
        change _ = _ ++ (s.lent r').drop _
        rw [hmoved, hmem, List.length_append]
        rw [hlength, Memory.read_write_within, hfront, List.append_assoc,
          ← List.drop_drop, ← hback]
        simp
    -- the buffer of another request is apart, or is one of the same call that has
    -- been sent
    have hunchanged : q.Apart q' → q'.fills = true ∨ q'.takes = true →
        Memory.read (Memory.write s.mem (q.addr + (s.moved r).length) data)
          q'.addr q'.len = Memory.read s.mem q'.addr q'.len := by
      intro hapart hmoves
      refine Sqe.read_of_apart s.mem (fun a ha => ?_) hmoves
      have hapart' := hapart ⟨q.addr, q.len⟩
        (by simp [Sqe.regions_of_moves (.inl hfills)]) a ha
      simp only [Span.Apart] at hapart' ⊢
      omega
    rw [← hmem] at hunchanged
    constructor
    · intro htakes' hlater
      rcases h.apart r r' q q' hq hq' hopen hopen' (Ne.symm hr)
        (Sqe.dirties_of_fills hfills) with hapart | hpair
      · rw [hunchanged hapart (.inr htakes')]
        refine hr'.unread htakes' fun i hi => ?_
        have hi' := hlater i hi
        by_cases heq : { r' with index := i } = r
        · rw [heq, hmoved, List.append_eq_nil_iff] at hi'
          rw [heq]
          exact hi'.1
        · rwa [hother _ heq] at hi'
      · have hself : { r' with index := r.index } = r := by
          have hserial : r'.serial = r.serial := by
            rw [← hopen.2, ← hopen'.2, hpair.fiber]
          have hfiber := hpair.fiber
          cases r
          cases r'
          simp_all
        have hnil := hlater r.index hpair.index
        rw [hself, hmoved, List.append_eq_nil_iff] at hnil
        rw [hnil.2] at hn
        exact absurd hn (Nat.lt_irrefl 0)
    · intro hfills'
      rcases h.apart r r' q q' hq hq' hopen hopen' (Ne.symm hr)
        (Sqe.dirties_of_fills hfills) with hapart | hpair
      · rw [hother r' hr, hunchanged hapart (.inl hfills')]
        exact hr'.filled hfills'
      · have hclean := hpair.clean
        rw [Sqe.dirties_of_fills hfills'] at hclean
        cases hclean
  · intro r' r'' q' q''
    exact apart_effect h hb hs.scheduled he hcall

omit [DecidableEq τ] in
theorem isOpen_of_busy
    (hs : Ring.Routed s.ring) {r : Rid ι} {q : Sqe} (h : s.busy k r q) :
    s.isOpen r := by
  obtain ⟨c, -, hcall, hserial, -⟩ := call_of_held hs h.2.2
  exact ⟨by simp [Ring.State.opened, hcall], hserial⟩

/-- The address of a peer goes where no other call has a buffer. -/
theorem faithful_peer
    (h : Faithful k s) (hb : Booked s) (hs : Ring.Sound s.ring)
    {r : Rid ι} {q : Sqe} {addr addrlen : List β}
    (he : (machine k token).enabled s (.peer r q addr addrlen)) :
    Faithful k (effect token s (.peer r q addr addrlen)) := by
  obtain ⟨hbusy, hop, haddr, hroom, hlength⟩ := he.2
  have hdirties : q.dirties = true := by simp [Sqe.dirties, hop]
  have hregions : q.regions = [⟨q.addr, q.room⟩, ⟨q.off, 4⟩] := by
    simp [Sqe.regions, hop, haddr]
  refine faithful_still h hb hs.scheduled he (by rintro f op addrs ⟨⟩) rfl rfl
    fun r' q' hq' hopen' hmoves => ?_
  have hne : r ≠ r' := by
    rintro rfl
    obtain rfl := Option.some.inj (hbusy.1.symm.trans hq')
    simp [Sqe.moves_of_accept hop] at hmoves
  have hapart : q.Apart q' := by
    refine (h.apart r r' q q' hbusy.1 hq' (isOpen_of_busy hs.routed hbusy) hopen'
      hne hdirties).resolve_right fun hpair => hpair.opcode hop
  rw [Sqe.Apart, hregions] at hapart
  have hfront : ∀ a ∈ q'.regions, a.Apart ⟨q.addr, addr.length⟩ := by
    intro a ha
    have ha' := hapart ⟨q.addr, q.room⟩ (by simp) a ha
    simp only [Span.Apart] at ha' ⊢
    omega
  have hback : ∀ a ∈ q'.regions, a.Apart ⟨q.off, addrlen.length⟩ := by
    intro a ha
    rw [hlength]
    exact (hapart ⟨q.off, 4⟩ (by simp) a ha).symm
  exact (Sqe.read_of_apart _ hback hmoves).trans
    (Sqe.read_of_apart s.mem hfront hmoves)

theorem faithful_effect
    (h : Faithful k s) (ht : InTurn k s) (hb : Booked s) (hs : Ring.Sound s.ring)
    (he : (machine k token).enabled s e) (hg : Disciplined s e) :
    Faithful k (effect token s e) := by
  cases e with
  | call f op addrs => exact faithful_call h ht hb hs he hg
  | store addr data => exact faithful_store h hb hs.scheduled hg
  | take r q d n => exact faithful_take h ht hb hs he
  | fill r q d data => exact faithful_fill h hb hs he
  | peer r q addr addrlen => exact faithful_peer h hb hs he
  | sync r q d =>
      exact faithful_still h hb hs.scheduled he (by rintro f op addrs ⟨⟩) rfl
        (moved_record_of_nil d.file rfl r) fun _ _ _ _ _ => rfl
  | openFile r q x fd =>
      exact faithful_still h hb hs.scheduled he (by rintro f op addrs ⟨⟩) rfl
        (moved_record_of_nil x rfl r) fun _ _ _ _ _ => rfl
  | _ =>
      exact faithful_still h hb hs.scheduled he (by rintro f op addrs ⟨⟩) rfl rfl
        fun _ _ _ _ _ => rfl

theorem faithful_of_reachable
    (h : (machine k token).ReachableUnder Disciplined s) : Faithful k s := by
  refine Machine.ReachableUnder.invariant ?_ ?_ h
  · rintro s ⟨-, hops, -⟩
    have hsqe : ∀ r, s.sqe r = none := fun r => by simp [State.sqe, hops]
    refine ⟨?_, ?_, ?_⟩ <;> simp [hsqe]
  · intro s e hprev hfaithful he hg
    have hreach := hprev.reachable
    exact faithful_effect hfaithful (inTurn_of_reachable hreach)
      (booked_of_reachable hreach) (Ring.reachable_sound (ring_reachable hreach))
      he hg

end Steps

/-! ## The theorem on buffers -/

section Returns

variable [DecidableEq τ] {k : Kernel} {token : ι → Option τ}
  {s : State ι τ φ β}

end Returns

instance [Fintype ι] (s : State ι τ φ β) :
    (e : Event ι τ φ β) → Decidable (Disciplined s e)
  | .call _ op _ =>
      inferInstanceAs (Decidable (∀ f, ∀ q' ∈ s.openSqes f, ∀ q ∈ op.requests,
        q.dirties = true ∨ q'.dirties = true → q.Apart q'))
  | .store addr data =>
      inferInstanceAs (Decidable (∀ f, ∀ q ∈ s.openSqes f, ∀ a ∈ q.regions,
        a.Apart ⟨addr, data.length⟩))
  | .ring _ | .assign _ _ | .take _ _ _ _ | .fill _ _ _ _ | .sync _ _ _
  | .openFile _ _ _ _ | .peer _ _ _ _ | .answer _ _ _ _ _ _
  | .answerMore _ _ _ _ _ | .answerNotif _ _ _ _ _ | .setFd _ _ | .setSlot _ _ =>
      .isTrue trivial

/-- A worker with one fiber, and a file as descriptor 5. -/
def oneFile (mem : ℕ → ℕ) : State Unit Empty Unit ℕ where
  ring := Ring.initial
  ops := fun _ _ => none
  mem := mem
  fds := fun fd => if fd = 5 then some ⟨(), false⟩ else none
  slots := fun _ => none
  target := fun _ => none
  lent := fun _ => []
  moved := fun _ => []
  log := []

end Fiberexec.AsyncIo
