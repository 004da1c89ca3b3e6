import Fiberexec.AsyncIo.Linked

/-!
# Regular files

No function of the library takes an offset: every SQE that reads or writes has
offset 0.  In a regular file each call starts at the beginning, so writes lie over
one another and every read returns the same bytes again, unless the file was opened
with `O_APPEND` or is cut by an `O_TRUNC`.

What a regular file holds is read off the kernel's log.
-/

namespace Fiberexec.AsyncIo

open Support
open Fiberexec.Ring (Rid Pending)

variable {ι τ φ β : Type}

/-! ## What a regular file holds -/

/-- The bytes of a regular file. -/
structure Content (β : Type) where
  bytes : ℕ → β
  size : ℕ

/-- All of them. -/
def Content.read (c : Content β) : List β :=
  Memory.read c.bytes 0 c.size

/-- A regular file after something that the kernel did to it.  A write goes to its
offset (pwrite(2)), with `O_APPEND` to the end of the file, and `O_TRUNC` cuts the
file to nothing (open(2)). -/
def Content.after [Zero β] (c : Content β) : Deed β → Content β
  | .taken append off data =>
      let start := if append = true then c.size else off
      ⟨Memory.write c.bytes start data, max c.size (start + data.length)⟩
  | .opened true => ⟨fun _ => 0, 0⟩
  | .filled _ _ | .synced | .opened false => c

/-- A regular file after all that the log says, if nobody else changes it. -/
def content [DecidableEq φ] [Zero β] (x : φ) (base : Content β)
    (log : List (Act ι φ β)) : Content β :=
  log.foldl (fun c a => if a.file = x then c.after a.deed else c) base

/-- Reading a regular file gives the bytes that it holds at the offset, if there are
any (pread(2)). -/
def ReadsBack [DecidableEq φ] [Zero β] (x : φ) (base : Content β)
    (log : List (Act ι φ β)) : Prop :=
  ∀ before a after, log = before ++ a :: after → a.file = x →
    ∀ off data, a.deed = .filled off data → ∀ j v, data[j]? = some v →
      off + j < (content x base before).size ∧
        v = (content x base before).bytes (off + j)

theorem Content.read_append [Zero β] (c : Content β) (off : ℕ) (data : List β) :
    (c.after (.taken true off data)).read = c.read ++ data := by
  have hwithin := Memory.read_write_within c.bytes 0 c.size 0 data
  rw [Nat.zero_add, Nat.add_zero] at hwithin
  simp only [after, read, if_true, Nat.le_add_right, max_eq_right, hwithin]
  simp [Memory.read]

theorem content_snoc_self [DecidableEq φ] [Zero β] (base : Content β)
    (log : List (Act ι φ β)) (a : Act ι φ β) :
    content a.file base (log ++ [a]) = (content a.file base log).after a.deed := by
  simp [content]

theorem content_snoc_of_ne [DecidableEq φ] [Zero β] {x : φ} {a : Act ι φ β}
    (h : a.file ≠ x) (base : Content β) (log : List (Act ι φ β)) :
    content x base (log ++ [a]) = content x base log := by
  simp [content, h]

/-- The bytes that were moved to the file. -/
def Deed.written : Deed β → List β
  | .taken _ _ data => data
  | .filled _ _ | .synced | .opened _ => []

/-- The bytes that were moved from the file. -/
def Deed.read : Deed β → List β
  | .filled _ data => data
  | .taken _ _ _ | .synced | .opened _ => []

/-- The offset of what was moved. -/
def Deed.off? : Deed β → Option ℕ
  | .taken _ off _ | .filled off _ => some off
  | .synced | .opened _ => none

/-- A write through a descriptor with `O_APPEND`. -/
def Deed.appends : Deed β → Bool
  | .taken append _ _ => append
  | .filled _ _ | .synced | .opened _ => false

/-- What was done for a request to a file, as the log has it. -/
def piece [DecidableEq ι] [DecidableEq φ] (part : Deed β → List β) (x : φ)
    (log : List (Act ι φ β)) (r : Rid ι) : List β :=
  log.flatMap fun a => if a.rid = r ∧ a.file = x then part a.deed else []

/-- All bytes that were written to a file, in order. -/
def stored [DecidableEq φ] (x : φ) (log : List (Act ι φ β)) : List β :=
  log.flatMap fun a => if a.file = x then a.deed.written else []

theorem stored_snoc [DecidableEq φ] (x : φ) (log : List (Act ι φ β))
    (a : Act ι φ β) :
    stored x (log ++ [a]) =
      stored x log ++ if a.file = x then a.deed.written else [] := by
  simp [stored]

theorem piece_snoc_self [DecidableEq ι] [DecidableEq φ] (part : Deed β → List β)
    (log : List (Act ι φ β)) (a : Act ι φ β) :
    piece part a.file (log ++ [a]) =
      Function.update (piece part a.file log) a.rid
        (piece part a.file log a.rid ++ part a.deed) := by
  funext r
  by_cases hr : r = a.rid
  · subst hr
    simp [piece]
  · simp [piece, hr, Ne.symm hr]

theorem piece_snoc_of_skip [DecidableEq ι] [DecidableEq φ] {part : Deed β → List β}
    {x : φ} {a : Act ι φ β} (h : a.file = x → part a.deed = [])
    (log : List (Act ι φ β)) : piece part x (log ++ [a]) = piece part x log := by
  funext r
  have hnil : (if a.rid = r ∧ a.file = x then part a.deed else []) = [] :=
    ite_eq_right_iff.mpr fun hx => h hx.2
  simp [piece, hnil]

/-- No function takes an offset.  The field has other uses for `async_connect`
and `async_accept`. -/
theorem Operation.off_eq_zero {op : Operation} {q : Sqe} (hq : q ∈ op.requests)
    (hbuffer : q.fills = true ∨ q.takes = true) : q.off = 0 := by
  cases op with
  | asyncConnect fd addr addrlen timeout | asyncAccept fd addr addrlen room timeout =>
      obtain rfl := List.mem_singleton.mp hq
      rcases hbuffer with hbuffer | hbuffer <;> cases hbuffer
  | asyncSendRecv fd sendBuf recvBuf sendFlags recvFlags =>
      obtain rfl | hq := List.mem_cons.mp hq
      · rfl
      · obtain rfl := List.mem_singleton.mp hq
        rfl
  | asyncWriteFsync fd buf =>
      obtain rfl | hq := List.mem_cons.mp hq
      · rfl
      · obtain rfl := List.mem_singleton.mp hq
        rfl
  | asyncSleepFor duration =>
      by_cases hle : duration ≤ 0
      · simp [Operation.requests, hle] at hq
      · obtain rfl : q = _ := by simpa [Operation.requests, hle] using hq
        rfl
  | _ =>
      obtain rfl := List.mem_singleton.mp hq
      rfl

section Run

variable [DecidableEq ι] [DecidableEq τ] {k : Kernel} {token : ι → Option τ}
  {s : State ι τ φ β} {e : Event ι τ φ β}

omit [DecidableEq ι] [DecidableEq τ] in
theorem off_of_sqe {r : Rid ι} {q : Sqe} (hq : s.sqe r = some q)
    (hbuffer : q.fills = true ∨ q.takes = true) : q.off = 0 := by
  obtain ⟨op, -, hop⟩ := Option.bind_eq_some_iff.mp hq
  exact Operation.off_eq_zero (List.mem_of_getElem? hop) hbuffer

/-! ## Requests and their entries in the log -/

/-- An entry is of a kind that its request has, and about the file that the kernel
found for the request. -/
def Fits (s : State ι τ φ β) (a : Act ι φ β) (q : Sqe) : Prop :=
  match a.deed with
  | .taken append _ _ => q.takes = true ∧ s.target a.rid = some ⟨a.file, append⟩
  | .filled _ _ =>
      q.fills = true ∧ (s.target a.rid).map Desc.file = some a.file
  | .synced => q.opcode = .fsync
  | .opened _ => q.opcode = .openat

theorem target_effect_of_some
    (he : (machine k token).enabled s e) {r : Rid ι} {d : Desc φ}
    (hd : s.target r = some d) : (effect token s e).target r = some d := by
  rcases target_cases he r with hsame | ⟨q, -, rfl, -⟩
  · rw [hsame, hd]
  · rw [he.2.2.2] at hd
    cases hd

theorem fits_effect
    (he : (machine k token).enabled s e) {a : Act ι φ β} {q : Sqe}
    (h : Fits s a q) : Fits (effect token s e) a q := by
  obtain ⟨r, x, deed⟩ := a
  cases deed with
  | taken append off data => exact ⟨h.1, target_effect_of_some he h.2⟩
  | filled off data =>
      obtain ⟨hfills, hfile⟩ := h
      obtain ⟨d, hd, rfl⟩ := Option.map_eq_some_iff.mp hfile
      exact ⟨hfills, congrArg (Option.map Desc.file) (target_effect_of_some he hd)⟩
  | synced | opened => exact h

theorem fits_of_log
    (he : (machine k token).enabled s e) {a : Act ι φ β}
    (hlog : (effect token s e).log = s.log ++ [a]) :
    (∃ q, s.sqe a.rid = some q ∧ Fits s a q) ∧
      ∀ off ∈ a.deed.off?, off = (s.moved a.rid).length := by
  have hself : ∀ {a' : Act ι φ β}, s.log ++ [a'] = s.log ++ [a] → a' = a :=
    fun heq => List.singleton_inj.mp (List.append_cancel_left heq)
  cases e with
  | take r q d n =>
      obtain rfl := hself hlog
      obtain ⟨⟨hq, htarget, -⟩, htakes⟩ := he.2
      refine ⟨⟨q, hq, htakes, htarget⟩, ?_⟩
      rintro _ ⟨⟩
      simp [off_of_sqe hq (.inr htakes)]
  | fill r q d data =>
      obtain rfl := hself hlog
      obtain ⟨⟨hq, htarget, -⟩, hfills⟩ := he.2
      refine ⟨⟨q, hq, hfills, congrArg (Option.map Desc.file) htarget⟩, ?_⟩
      rintro _ ⟨⟩
      simp [off_of_sqe hq (.inl hfills)]
  | sync r q d =>
      obtain rfl := hself hlog
      exact ⟨⟨q, he.2.1.1, he.2.2.1⟩, by rintro _ ⟨⟩⟩
  | openFile r q x fd =>
      obtain rfl := hself hlog
      exact ⟨⟨q, he.2.1.1, he.2.2⟩, by rintro _ ⟨⟩⟩
  | _ =>
      have hlength := congrArg List.length hlog
      simp [effect, aside, State.begin] at hlength

/-- Every entry fits its request, and begins where the entries before it have left
the request. -/
structure Filed (s : State ι τ φ β) : Prop where
  fits : ∀ a ∈ s.log, ∃ q, s.sqe a.rid = some q ∧ Fits s a q
  off : ∀ before a after, s.log = before ++ a :: after →
    ∀ off ∈ a.deed.off?, off = (movedIn a.rid before).length

theorem filed_effect
    (h : Filed s) (hl : Logged k s) (hb : Booked s) (hs : Ring.Sound s.ring)
    (he : (machine k token).enabled s e) : Filed (effect token s e) := by
  have hold : ∀ a, (∃ q, s.sqe a.rid = some q ∧ Fits s a q) →
      ∃ q, (effect token s e).sqe a.rid = some q ∧ Fits (effect token s e) a q := by
    rintro a ⟨q, hq, hfits⟩
    exact ⟨q, sqe_effect_of_some hb hs.scheduled he hq, fits_effect he hfits⟩
  rcases log_cases he with ⟨hlog, -⟩ | ⟨a, hlog, -⟩
  · constructor <;> rw [hlog]
    · exact fun a ha => hold a (h.fits a ha)
    · exact h.off
  · obtain ⟨hfits, hoff⟩ := fits_of_log he hlog
    constructor <;> rw [hlog]
    · intro a' ha'
      rw [List.mem_append, List.mem_singleton] at ha'
      rcases ha' with ha' | rfl
      · exact hold a' (h.fits a' ha')
      · exact hold a' hfits
    · refine forall_split_append_singleton.mpr ⟨h.off, fun off hmem => ?_⟩
      rw [hl.moved]
      exact hoff off hmem

theorem filed_of_reachable (h : (machine k token).Reachable s) : Filed s := by
  refine Machine.Reachable.invariant ?_ ?_ h
  · rintro s ⟨-, -, -, -, hlog⟩
    constructor <;> simp [hlog]
  · intro s e hprev hfiled he
    exact filed_effect hfiled (logged_of_reachable hprev)
      (booked_of_reachable hprev) (Ring.reachable_sound (ring_reachable hprev)) he

variable [DecidableEq φ]

omit [DecidableEq ι] [DecidableEq τ] [DecidableEq φ] in
theorem Fits.taken
    {a b : Act ι φ β} {q : Sqe} (ha : Fits s a q) (hb : Fits s b q)
    (hrid : b.rid = a.rid) {append : Bool} {off : ℕ} {data : List β}
    (hdeed : a.deed = .taken append off data) :
    b.file = a.file ∧ b.deed.written = b.deed.data := by
  obtain ⟨r, x, deed⟩ := a
  obtain ⟨r', y, deed'⟩ := b
  subst hdeed hrid
  obtain ⟨htakes, htarget⟩ := ha
  cases deed' with
  | taken append' off' data' =>
      obtain ⟨rfl, -⟩ := Desc.mk.inj (Option.some.inj (hb.2.symm.trans htarget))
      exact ⟨rfl, rfl⟩
  | filled off' data' =>
      exact absurd hb.1 (by simp [Sqe.fills_of_takes htakes])
  | synced | opened =>
      have hop := hb
      simp only [Fits] at hop
      simp [Sqe.takes, hop] at htakes

omit [DecidableEq ι] [DecidableEq τ] [DecidableEq φ] in
theorem Fits.filled
    {a b : Act ι φ β} {q : Sqe} (ha : Fits s a q) (hb : Fits s b q)
    (hrid : b.rid = a.rid) {off : ℕ} {data : List β}
    (hdeed : a.deed = .filled off data) :
    b.file = a.file ∧ b.deed.read = b.deed.data := by
  obtain ⟨r, x, deed⟩ := a
  obtain ⟨r', y, deed'⟩ := b
  subst hdeed hrid
  obtain ⟨hfills, htarget⟩ := ha
  cases deed' with
  | taken append' off' data' =>
      exact absurd hfills (by simp [Sqe.fills_of_takes hb.1])
  | filled off' data' =>
      exact ⟨Option.some.inj (hb.2.symm.trans htarget), rfl⟩
  | synced | opened =>
      have hop := hb
      simp only [Fits] at hop
      simp [Sqe.fills, hop] at hfills

omit [DecidableEq τ] in
theorem movedIn_eq_piece
    {part : Deed β → List β} {r : Rid ι} {x : φ} {log : List (Act ι φ β)}
    (h : ∀ b ∈ log, b.rid = r → b.file = x ∧ part b.deed = b.deed.data) :
    movedIn r log = piece part x log r := by
  refine List.flatMap_congr fun b hb => ?_
  by_cases hr : b.rid = r
  · obtain ⟨hfile, hpart⟩ := h b hb hr
    simp [hr, hfile, hpart]
  · simp [hr]

omit [DecidableEq τ] [DecidableEq φ] in
/-- Where an entry begins, counted from a point at which nothing had been moved for
its request. -/
theorem off_of_split
    (h : Filed s) {before front back : List (Act ι φ β)} {a : Act ι φ β}
    (hlog : s.log = before ++ (front ++ a :: back))
    (hfresh : movedIn a.rid before = []) {off : ℕ} (hoff : off ∈ a.deed.off?) :
    off = (movedIn a.rid front).length := by
  have hsplit : s.log = (before ++ front) ++ a :: back := by simp [hlog]
  rw [h.off _ a back hsplit off hoff, movedIn_append, hfresh, List.nil_append]

/-- A part of the log in which nobody truncates a file or appends to it, and in which
only requests are about it that had moved nothing before. -/
structure Undisturbed (x : φ) (before after : List (Act ι φ β)) : Prop where
  fresh : ∀ a ∈ after, a.file = x → movedIn a.rid before = []
  kept : ∀ a ∈ after, a.file = x → a.deed ≠ .opened true
  placed : ∀ a ∈ after, a.file = x → a.deed.appends = false

omit [DecidableEq τ] [DecidableEq φ] in
theorem Undisturbed.of_append
    {x : φ} {before front back : List (Act ι φ β)}
    (h : Undisturbed x before (front ++ back)) : Undisturbed x before front where
  fresh a ha := h.fresh a (List.mem_append_left _ ha)
  kept a ha := h.kept a (List.mem_append_left _ ha)
  placed a ha := h.placed a (List.mem_append_left _ ha)

variable [Zero β]

omit [DecidableEq τ] in
/-- An undisturbed file holds the writes laid over one another. -/
theorem overlay_content
    (h : Filed s) {x : φ} (base : Content β) {before after back : List (Act ι φ β)}
    (hlog : s.log = before ++ (after ++ back)) (hu : Undisturbed x before after) :
    Memory.Overlay (content x base before).bytes (content x base before).size
      (piece Deed.written x after) (content x base (before ++ after)).bytes
      (content x base (before ++ after)).size := by
  induction after using List.reverseRecOn generalizing back with
  | nil =>
      rw [List.append_nil]
      exact .of_nil fun r => rfl
  | append_singleton front a ih =>
      rw [List.append_assoc] at hlog
      have hover := ih hlog hu.of_append
      rw [← List.append_assoc]
      by_cases hx : a.file = x
      · subst hx
        have ha : a ∈ front ++ [a] := by simp
        rw [content_snoc_self]
        cases hdeed : a.deed with
        | taken append off data =>
            obtain ⟨q, hq, hfits⟩ := h.fits a (by simp [hlog])
            have hone : movedIn a.rid front =
                piece Deed.written a.file front a.rid := by
              refine movedIn_eq_piece fun b hb hrid => ?_
              obtain ⟨q', hq', hfits'⟩ := h.fits b (by simp [hlog, hb])
              obtain rfl := Option.some.inj (hq.symm.trans (hrid ▸ hq'))
              exact hfits.taken hfits' hrid hdeed
            have hoff : off = (movedIn a.rid front).length :=
              off_of_split h hlog (hu.fresh a ha rfl) (by simp [hdeed, Deed.off?])
            obtain rfl : append = false := by
              simpa [hdeed, Deed.appends] using hu.placed a ha rfl
            rw [piece_snoc_self, hdeed, Deed.written, Content.after, hoff, hone]
            exact hover.write a.rid data
        | filled | synced =>
            rw [piece_snoc_of_skip (by simp [hdeed, Deed.written])]
            exact hover
        | opened trunc =>
            obtain rfl : trunc = false := by
              cases trunc with
              | false => rfl
              | true => exact absurd hdeed (hu.kept a ha rfl)
            rw [piece_snoc_of_skip (by simp [hdeed, Deed.written])]
            exact hover
      · rw [content_snoc_of_ne hx, piece_snoc_of_skip (fun hx' => absurd hx' hx)]
        exact hover

omit [DecidableEq ι] [DecidableEq τ] in
/-- A file that is only appended to holds the writes one after the other. -/
theorem read_content_append
    {x : φ} (base : Content β) {before after : List (Act ι φ β)}
    (hkept : ∀ a ∈ after, a.file = x → a.deed ≠ .opened true)
    (happend : ∀ a ∈ after, a.file = x → ∀ append off data,
      a.deed = .taken append off data → append = true) :
    (content x base (before ++ after)).read =
      (content x base before).read ++ stored x after := by
  induction after using List.reverseRecOn with
  | nil => simp [stored]
  | append_singleton front a ih =>
      have hread := ih (fun b hb => hkept b (List.mem_append_left _ hb))
        (fun b hb => happend b (List.mem_append_left _ hb))
      rw [← List.append_assoc, stored_snoc, ← List.append_assoc, ← hread]
      by_cases hx : a.file = x
      · subst hx
        have ha : a ∈ front ++ [a] := by simp
        rw [content_snoc_self, if_pos rfl]
        cases hdeed : a.deed with
        | taken append off data =>
            obtain rfl := happend a ha rfl append off data hdeed
            exact Content.read_append _ off data
        | filled | synced => simp [Content.after, Deed.written]
        | opened trunc =>
            obtain rfl : trunc = false := by
              cases trunc with
              | false => rfl
              | true => exact absurd hdeed (hkept a ha rfl)
            simp [Content.after, Deed.written]
      · rw [content_snoc_of_ne hx, if_neg hx, List.append_nil]

omit [DecidableEq τ] [Zero β] in
theorem piece_append (part : Deed β → List β) (x : φ) (log log' : List (Act ι φ β))
    (r : Rid ι) : piece part x (log ++ log') r = piece part x log r ++ piece part x log' r :=
  List.flatMap_append

omit [DecidableEq τ] [DecidableEq φ] [Zero β] in
theorem filled_of_byte
    (h : Filed s) {a : Act ι φ β} (ha : a ∈ s.log) {r : Rid ι} {q : Sqe} {x : φ}
    (hq : s.sqe r = some q) (hfills : q.fills = true)
    (htarget : (s.target r).map Desc.file = some x) {j : ℕ} {v : β}
    (hv : (if a.rid = r then a.deed.data else [])[j]? = some v) :
    a.rid = r ∧ a.file = x ∧
      ∃ off data, a.deed = .filled off data ∧ data[j]? = some v := by
  by_cases hr : a.rid = r
  · rw [if_pos hr] at hv
    obtain ⟨q', hq', hfits⟩ := h.fits a ha
    obtain rfl := Option.some.inj (hq.symm.trans (hr ▸ hq'))
    obtain ⟨r', y, deed⟩ := a
    cases deed with
    | taken append off data =>
        exact absurd hfills (by simp [Sqe.fills_of_takes hfits.1])
    | filled off data =>
        have hfile := hfits.2.symm.trans (hr ▸ htarget)
        exact ⟨hr, Option.some.inj hfile, off, data, rfl, hv⟩
    | synced | opened => simp [Deed.data] at hv
  · simp [hr] at hv

/-! ## The theorems on files -/

/-- What a regular file holds, in every run, since any point at which no write to it
was under way, as long as nobody truncates it.  If no write goes through a descriptor
with `O_APPEND`, it is what it was with all writes laid over it from the beginning on:
its size is that of the longest write, or the old one, and every byte that a write
reached is that write's byte at the same place, or another's.  If all do, it is what it
was with all of them behind it, one after the other. -/
theorem writes_overlay_regular_files
    (h : (machine k token).Reachable s) {x : φ} {before after : List (Act ι φ β)}
    (hlog : s.log = before ++ after)
    (hfresh : ∀ a ∈ after, a.file = x → movedIn a.rid before = [])
    (hkept : ∀ a ∈ after, a.file = x → a.deed ≠ .opened true) (base : Content β) :
    ((∀ a ∈ after, a.file = x → a.deed.appends = false) →
      Memory.Overlay (content x base before).bytes (content x base before).size
        (piece Deed.written x after) (content x base s.log).bytes
        (content x base s.log).size) ∧
      ((∀ a ∈ after, a.file = x → ∀ append off data,
          a.deed = .taken append off data → append = true) →
        (content x base s.log).read =
          (content x base before).read ++ stored x after) := by
  constructor
  · intro hplaced
    have hsplit : s.log = before ++ (after ++ []) := by rwa [List.append_nil]
    rw [hlog]
    exact overlay_content (filed_of_reachable h) base hsplit ⟨hfresh, hkept, hplaced⟩
  · intro happend
    rw [hlog]
    exact read_content_append base hkept happend

/-- Reading a regular file, in every run in which reads give what the file holds, since
any point at which no call that uses it was under way, as long as nobody truncates the
file or writes to it with `O_APPEND`.  However many reads there were before, the `n`-th
byte that a read gets is the `n`-th byte of the file as it was, or of something written
to it. -/
theorem reads_start_over
    (h : (machine k token).Reachable s) {x : φ} {before after : List (Act ι φ β)}
    (hlog : s.log = before ++ after) (hu : Undisturbed x before after)
    {base : Content β} (hreads : ReadsBack x base s.log) {r : Rid ι} {q : Sqe}
    (hq : s.sqe r = some q) (hfills : q.fills = true)
    (htarget : (s.target r).map Desc.file = some x)
    (hnew : movedIn r before = []) {n : ℕ} {v : β}
    (hv : (s.moved r)[n]? = some v) :
    (n < (content x base before).size ∧ v = (content x base before).bytes n) ∨
      ∃ w, (piece Deed.written x after w)[n]? = some v := by
  have hfiled := filed_of_reachable h
  rw [← (logged_of_reachable h).moved, hlog, movedIn_append, hnew,
    List.nil_append] at hv
  obtain ⟨front, a, back, j, rfl, hbyte, hn⟩ := exists_split_of_flatMap hv
  change n = (movedIn r front).length + j at hn
  obtain ⟨rfl, rfl, off, data, hdeed, hbyte⟩ := filled_of_byte hfiled
    (by simp [hlog]) hq hfills htarget hbyte
  have hoff : off = (movedIn a.rid front).length :=
    off_of_split hfiled hlog hnew (by simp [hdeed, Deed.off?])
  rw [← hoff] at hn
  obtain ⟨hlt, hvalue⟩ := hreads (before ++ front) a back (by simp [hlog]) rfl off
    data hdeed j v hbyte
  rw [← hn] at hlt hvalue
  have hover := overlay_content hfiled base hlog hu.of_append
  refine (hover.byte_of_lt hlt).imp (fun hold => ⟨hold.1, hvalue.trans hold.2⟩) ?_
  rintro ⟨w, hw⟩
  obtain ⟨hshort, -⟩ := List.getElem?_eq_some_iff.mp hw
  refine ⟨w, ?_⟩
  rw [piece_append, List.getElem?_append_left hshort, hw, hvalue]

end Run

/-- A fiber makes a call with one request, and the kernel does `acts` for it. -/
def wholeCall (serial : ℕ) (op : Operation) (q : Sqe)
    (acts : List (Event Unit Empty Unit ℕ)) (n : ℤ) :
    List (Event Unit Empty Unit ℕ) :=
  [.ring (.switch ()), .call () op [8], .ring (.submit ()),
    .ring (.registerPool ()), .ring (.registerFiber ()), .ring (.block ())] ++
  acts ++
  [.answer 2 ⟨(), serial, 0⟩ q 8 false n,
    .ring (.drain ⟨8, ⟨n, false, false⟩, some ⟨(), serial, 0⟩⟩ true),
    .ring (.resume ()), .ring (.collect ()), .ring (.unregisterFiber ()),
    .ring (.ret ()), .ring (.yield ())]

/-- A file of five bytes is opened with `O_TRUNC`, and three bytes are written to it
and then two.  It has three in the end. -/
theorem writes_overlay_regular_files_twice :
    ∃ s : State Unit Empty Unit ℕ, (machine manual fun _ => none).Reachable s ∧
      Memory.Overlay (fun _ => 0) 0
        (piece Deed.written () [⟨⟨(), 1, 0⟩, (), .taken false 0 [1, 2, 3]⟩,
          ⟨⟨(), 2, 0⟩, (), .taken false 0 [4, 5]⟩])
        (content () ⟨fun _ => 9, 5⟩ s.log).bytes 3 := by
  let openat : Sqe := { prepRw .openat (-100) 300 0 0 with opFlags := 513 }
  let first := Operation.writeSqe ⟨5, false⟩ ⟨100, 3⟩
  let second := Operation.writeSqe ⟨5, false⟩ ⟨103, 2⟩
  obtain ⟨s, hs, hlog⟩ := Machine.exists_reachableUnder_of_exec
    (M := machine manual fun _ => none) (G := fun _ _ => True)
    (P := fun s : State Unit Empty Unit ℕ =>
      s.log = [⟨⟨(), 0, 0⟩, (), .opened true⟩,
        ⟨⟨(), 1, 0⟩, (), .taken false 0 [1, 2, 3]⟩,
        ⟨⟨(), 2, 0⟩, (), .taken false 0 [4, 5]⟩])
    (s := oneFile fun a => a - 99)
    ⟨rfl, fun _ _ => rfl, fun _ => rfl, fun _ => rfl, rfl⟩
    (wholeCall 0 (.asyncOpenat (-100) 300 513 0 none) openat
        [.openFile ⟨(), 0, 0⟩ openat () 5] 5 ++
      wholeCall 1 (.asyncWrite ⟨5, false⟩ ⟨100, 3⟩ none) first
        [.assign ⟨(), 1, 0⟩ first, .take ⟨(), 1, 0⟩ first ⟨(), false⟩ 3] 3 ++
      wholeCall 2 (.asyncWrite ⟨5, false⟩ ⟨103, 2⟩ none) second
        [.assign ⟨(), 2, 0⟩ second, .take ⟨(), 2, 0⟩ second ⟨(), false⟩ 2] 2)
    (by decide)
  have hsplit : s.log = [⟨⟨(), 0, 0⟩, (), .opened true⟩] ++
      [⟨⟨(), 1, 0⟩, (), .taken false 0 [1, 2, 3]⟩,
        ⟨⟨(), 2, 0⟩, (), .taken false 0 [4, 5]⟩] := hlog
  have hover := (writes_overlay_regular_files hs (x := ()) hsplit
    (by simp [movedIn, Deed.data]) (by simp) ⟨fun _ => 9, 5⟩).1 (by simp [Deed.appends])
  refine ⟨s, hs, ?_⟩
  rw [hlog] at hover ⊢
  exact hover

/-- A byte is read twice from a file of two. -/
theorem reads_start_over_twice :
    ∃ s : State Unit Empty Unit ℕ, (machine manual fun _ => none).Reachable s ∧
      s.moved ⟨(), 0, 0⟩ = [7] ∧ s.moved ⟨(), 1, 0⟩ = [7] ∧
      ((0 < 2 ∧ 7 = 0 + 7) ∨
        ∃ w, (piece Deed.written () s.log w)[0]? = some 7) := by
  let read := Operation.readSqe ⟨5, false⟩ ⟨100, 1⟩
  obtain ⟨s, hs, h₁, h₂, hq, htarget, hlog⟩ := Machine.exists_reachableUnder_of_exec
    (M := machine manual fun _ => none) (G := fun _ _ => True)
    (P := fun s : State Unit Empty Unit ℕ =>
      s.moved ⟨(), 0, 0⟩ = [7] ∧ s.moved ⟨(), 1, 0⟩ = [7] ∧
        s.sqe ⟨(), 1, 0⟩ = some read ∧
        (s.target ⟨(), 1, 0⟩).map Desc.file = some () ∧
        s.log = ([] ++ [⟨⟨(), 0, 0⟩, (), .filled 0 [7]⟩]) ++
          [⟨⟨(), 1, 0⟩, (), .filled 0 [7]⟩])
    (s := oneFile fun _ => 0)
    ⟨rfl, fun _ _ => rfl, fun _ => rfl, fun _ => rfl, rfl⟩
    (wholeCall 0 (.asyncRead ⟨5, false⟩ ⟨100, 1⟩ none) read
        [.assign ⟨(), 0, 0⟩ read, .fill ⟨(), 0, 0⟩ read ⟨(), false⟩ [7]] 1 ++
      wholeCall 1 (.asyncRead ⟨5, false⟩ ⟨100, 1⟩ none) read
        [.assign ⟨(), 1, 0⟩ read, .fill ⟨(), 1, 0⟩ read ⟨(), false⟩ [7]] 1)
    (by decide)
  have hreads : ReadsBack () ⟨fun k => k + 7, 2⟩ s.log := by
    rw [hlog]
    refine forall_split_append_singleton.mpr
      ⟨forall_split_append_singleton.mpr ⟨by simp, ?_⟩, ?_⟩ <;>
    · rintro - off data ⟨⟩ j v hv
      obtain ⟨rfl, rfl⟩ : j = 0 ∧ v = 7 := by
        cases j <;> simp_all
      decide
  refine ⟨s, hs, h₁, h₂, ?_⟩
  exact reads_start_over hs (List.nil_append s.log).symm
    ⟨fun _ _ _ => rfl, by simp [hlog], by simp [hlog, Deed.appends]⟩ hreads hq rfl
    htarget rfl (by rw [h₂]; rfl)

end Fiberexec.AsyncIo
