import SystemProgramming.LinkLab.Report

/-!
# Failing libc calls and null pointers

The wrappers record the answer of libc without looking at it, and the address `NULL` is also the
block pointer of the dummy element, where some scans start and others do not.

* `libcRuns` : the runs in which libc may return `NULL`, and `NULL` may be passed to `realloc` and
  `free`.
* `record_faithful_iff` : the tracer's record is true as long as libc never fails, and no longer.
* `lawful_call_honoured_iff` : which legal calls crash a wrapper or make it refuse a live block.
-/

namespace SystemProgramming.LinkLab

open Holdings Transition

/-! ### Runs in which libc may fail -/

/-- Libc returned `NULL`. -/
def Call.Failed : Call → Prop
  | malloc _ res _ | calloc _ _ res _ | realloc _ _ res _ => res = 0
  | free _ => False

instance : (c : Call) → Decidable c.Failed
  | .malloc .. | .calloc .. | .realloc .. => inferInstanceAs (Decidable (_ = _))
  | .free _ => inferInstanceAs (Decidable False)

/-- The live blocks after the call.  A `realloc` to size 0 that returns `NULL` has released its
argument; any other call that returns `NULL` leaves memory as it is. -/
def Call.outcome (live : Live) (c : Call) : Live :=
  if c.Failed then
    match c with
    | realloc ptr size .. => if size = 0 then release live ptr else live
    | _ => live
  else c.settle live

theorem Call.outcome_of_answered {c : Call} (live : Live) (h : ¬ c.Failed) :
    c.outcome live = c.settle live := if_neg h

/-- Libc hands out no live address, except that `realloc` may return its argument.  `realloc` is
called with `NULL` and live pointers; so is `free` in part 2, and with any pointer in part 3. -/
def Call.Permitted (part : Part) (s : Tracer) (live : Live) : Call → Prop
  | malloc _ res a | calloc _ _ res a => (res = 0 ∨ res ∉ live.map Prod.fst) ∧ a ∉ s.list.addrs
  | realloc ptr _ res a => (ptr = 0 ∨ ptr ∈ live.map Prod.fst) ∧
    (res = 0 ∨ res = ptr ∨ res ∉ live.map Prod.fst) ∧ a ∉ s.list.addrs
  | free ptr => part = .part3 ∨ ptr = 0 ∨ ptr ∈ live.map Prod.fst

/-- The runs of the traced program and the wrappers, with the live blocks. -/
def libcRuns (part : Part) : System (Tracer × Live) Call where
  init x := ∃ a, x = (init a, [])
  step x c x' := c.Permitted part x.1 x.2 ∧ c.exec part x.1 = some x'.1 ∧ x'.2 = c.outcome x.2

/-- The runs in which libc never returns `NULL`. -/
def answeredRuns (part : Part) : System (Tracer × Live) Call :=
  (libcRuns part).restrict fun _ c => ¬ c.Failed

/-! ### Runs without failures -/

/-- The scan of `free` in part 3 starts at the dummy element, whose pointer is `NULL`. -/
theorem Tracer.freePart3_null {s : Tracer} (w : s.list.WellFormed) (hcnt : s.list.dummy.cnt = 0) :
    s.freePart3 0 = some { s with log := s.log ++ [.doubleFree] } := by
  have hfind : (s.list.dummy :: s.list.items).find? (fun i => i.ptr = 0) = some s.list.dummy :=
    List.find?_cons_of_pos (decide_eq_true w.dummy)
  rw [freePart3, hfind]
  exact if_pos hcnt

/-- The list says what is live, and nothing of `NULL`. -/
structure Truthful (l : MemList) (live : Live) : Prop where
  tracks : Tracks l live
  null : lookup 0 l.items = none
  dummy : l.dummy.cnt = 0

namespace Truthful

variable {s : Tracer} {l : MemList} {live : Live} {part : Part} {p a : ℕ} {n : UInt64}

theorem alloc (t : Truthful l live) (hp : p ≠ 0) (hfresh : p ∉ live.map Prod.fst)
    (ha : a ∉ l.addrs) : Truthful (l.alloc a p n).2 ((p, n) :: live) := by
  refine ⟨t.tracks.alloc hp hfresh ha, ?_, t.dummy⟩
  rw [t.tracks.wellFormed.lookup_alloc, if_neg hp.symm]
  exact t.null

theorem dealloc (t : Truthful l live) (h : p ∈ live.map Prod.fst) :
    Truthful (l.dealloc p).2 (release live p) := by
  have hp := t.tracks.nonzero p h
  obtain ⟨⟨p, n⟩, hmem, rfl⟩ := List.mem_map.mp h
  refine ⟨t.tracks.dealloc hmem, ?_, t.dummy⟩
  rw [MemList.lookup_dealloc, if_neg hp.symm]
  exact t.null

/-- `realloc` and part 2's `free` of `NULL` read the size of an item that is not there. -/
theorem realloc_null {res : ℕ} (t : Truthful s.list live) (ha : a ∉ s.list.addrs) :
    s.realloc 0 n res a = none := by
  rw [Tracer.realloc_eq t.tracks.wellFormed ha, t.null]
  rfl

theorem freePart2_null (t : Truthful s.list live) : s.freePart2 0 = none := by
  rw [Tracer.freePart2_eq t.tracks.wellFormed, t.null]
  rfl

/-- A live block is not refused. -/
theorem free_live (t : Truthful s.list live) (part : Part) (h : p ∈ live.map Prod.fst) :
    s.free part p = some { s with
      list := (s.list.dealloc p).2
      nFreeb := s.nFreeb + live.sizeAt p } :=
  (Tracer.free_live part t.tracks h).trans (Tracer.freePart2_live t.tracks h)

/-- **The step lemma.** -/
theorem exec {s' : Tracer} {c : Call} (t : Truthful s.list live) (hc : c.Permitted part s live)
    (hok : ¬ c.Failed) (h : c.exec part s = some s') : Truthful s'.list (c.outcome live) := by
  rw [Call.outcome_of_answered live hok]
  cases c with
  | malloc size res a | calloc nmemb size res a =>
    cases h
    exact t.alloc hok (hc.1.resolve_left hok) hc.2
  | realloc ptr size res a =>
    obtain ⟨hptr, hres, ha⟩ := hc
    have h' : s.realloc ptr size res a = some s' := h
    rcases hptr with rfl | hlive
    · rw [t.realloc_null ha] at h'
      cases h'
    · rw [Tracer.realloc_eq t.tracks.wellFormed ha] at h'
      obtain ⟨c, -, rfl⟩ := Option.map_eq_some_iff.mp h'
      have ha' := MemList.notMem_addrs_dealloc ptr ha
      refine (t.dealloc hlive).alloc hok ?_ ha'
      rcases hres.resolve_left hok with rfl | hnot
      · exact key_notMem_release live res
      · exact fun hin => hnot ((List.filter_sublist.map _).subset hin)
  | free ptr =>
    show Truthful s'.list (release live ptr)
    by_cases hlive : ptr ∈ live.map Prod.fst
    · cases (t.free_live part hlive).symm.trans h
      exact t.dealloc hlive
    · rw [release_of_notMem hlive]
      cases part with
      | part2 =>
        obtain rfl : ptr = 0 := (hc.resolve_left nofun).resolve_right hlive
        cases t.freePart2_null.symm.trans h
      | part3 =>
        by_cases hptr : ptr = 0
        · subst hptr
          cases (Tracer.freePart3_null t.tracks.wellFormed t.dummy).symm.trans h
          exact t
        · obtain ⟨notice, hfree⟩ := t.tracks.free_ignored hptr hlive
          cases hfree.symm.trans h
          exact t

end Truthful

/-- **The run lemma.** -/
theorem answered_truthful {part : Part} {x : Tracer × Live} (hx : (answeredRuns part).Reachable x) :
    Truthful x.1.list x.2 := by
  refine hx.invariant (P := fun x => Truthful x.1.list x.2) ?_ ?_
  · rintro x ⟨a, rfl⟩
    exact ⟨tracks_init a, rfl, rfl⟩
  · rintro x c x' t ⟨hok, hc, hexec, hlive⟩
    rw [hlive]
    exact t.exec hc hok hexec

/-! ### What the tracer records as live -/

/-- The size of the block at `p`, where the tracer counts it as live. -/
def MemList.recorded (l : MemList) (p : ℕ) : Option UInt64 :=
  ((lookup p l.items).filter fun c => 0 < c.cnt).map Item.size

/-- A call that libc did not answer is recorded as what it was: as the release of its argument by
`realloc` to size 0, or as no change. -/
def Call.RecordsFailure (s s' : Tracer) (c : Call) : Prop :=
  c.Failed →
    match c with
    | realloc ptr 0 .. => s'.list.recorded = Function.update s.list.recorded ptr none
    | _ => s'.list.recorded = s.list.recorded ∧ s'.nAllocb = s.nAllocb ∧ s'.nFreeb = s.nFreeb

namespace Truthful

variable {s : Tracer} {l : MemList} {live : Live} {a : ℕ} {n : UInt64}

/-- The record is true. -/
theorem recorded_eq (t : Truthful l live) (p : ℕ) : l.recorded p = held live p := by
  by_cases hlive : p ∈ live.map Prod.fst
  · obtain ⟨⟨p, n⟩, hmem, rfl⟩ := List.mem_map.mp hlive
    obtain ⟨c, hc, hsize, hcnt⟩ := t.tracks.recorded p n hmem
    rw [held_eq_some hmem t.tracks.keys, MemList.recorded, hc,
      Option.filter_some_pos (by simp [hcnt]), Option.map_some, hsize]
  · rw [held_eq_none hlive, MemList.recorded]
    cases hc : lookup p l.items with
    | none => rfl
    | some c =>
      rw [Option.filter_some_neg (by simp [t.tracks.freed p c hc hlive]), Option.map_none]

theorem recorded_null (t : Truthful l live) : l.recorded 0 = none := by
  rw [MemList.recorded, t.null]
  rfl

/-- Whatever is recorded at `NULL` is recorded as live. -/
theorem recorded_alloc_null (t : Truthful l live) : (l.alloc a 0 n).2.recorded 0 = some n := by
  rw [MemList.recorded, t.tracks.wellFormed.lookup_alloc, if_pos rfl, t.null]
  rfl

/-- A call that libc did not answer leaves a live block at `NULL`. -/
theorem recorded_of_failed {part : Part} {s' : Tracer} {c : Call} (t : Truthful s.list live)
    (hc : c.Permitted part s live) (hfailed : c.Failed) (h : c.exec part s = some s') :
    s'.list.recorded 0 ≠ none := by
  cases c with
  | malloc size res a | calloc nmemb size res a =>
    obtain rfl : res = 0 := hfailed
    cases h
    show MemList.recorded (MemList.alloc _ a 0 _).2 0 ≠ none
    rw [t.recorded_alloc_null]
    exact Option.some_ne_none _
  | realloc ptr size res a =>
    obtain rfl : res = 0 := hfailed
    obtain ⟨hptr, -, ha⟩ := hc
    have h' : s.realloc ptr size 0 a = some s' := h
    rcases hptr with rfl | hlive
    · rw [t.realloc_null ha] at h'
      cases h'
    · rw [Tracer.realloc_eq t.tracks.wellFormed ha] at h'
      obtain ⟨c, -, rfl⟩ := Option.map_eq_some_iff.mp h'
      show MemList.recorded (MemList.alloc _ a 0 _).2 0 ≠ none
      rw [(t.dealloc hlive).recorded_alloc_null]
      exact Option.some_ne_none _
  | free ptr => exact hfailed.elim

end Truthful

/-- **The record of the tracer.**  As long as libc answers every call, the tracer records the live
blocks with their sizes and passes every one of them that is freed on to libc; and the next call is
recorded as what it is just when libc answers it. -/
theorem record_faithful_iff (part : Part) (s : Tracer) (live : Live)
    (h : (answeredRuns part).Reachable (s, live)) :
    (∀ p, s.list.recorded p = held live p) ∧
      (∀ p ∈ live.map Prod.fst, ∃ s', s.free part p = some s' ∧ s'.log = s.log) ∧
      ∀ (c : Call) (s' : Tracer), c.Permitted part s live → c.exec part s = some s' →
        (c.RecordsFailure s s' ↔ ¬ c.Failed) := by
  have t : Truthful s.list live := answered_truthful h
  refine ⟨t.recorded_eq, fun p hp => ⟨_, t.free_live part hp, rfl⟩, fun c s' hc hexec => ?_⟩
  refine ⟨fun hrecords hfailed => ?_, fun hok hfailed => absurd hfailed hok⟩
  have hnull := t.recorded_of_failed hc hfailed hexec
  have hbefore := t.recorded_null
  have hrecord := hrecords hfailed
  revert hrecord
  split
  · rename_i ptr res a
    intro hrecord
    apply hnull
    rw [hrecord]
    by_cases hptr : 0 = ptr
    · rw [← hptr, Function.update_self]
    · rw [Function.update_of_ne hptr, hbefore]
  · rintro ⟨hrecord, -⟩
    rw [hrecord] at hnull
    exact hnull hbefore

/-- A block that was moved, and the call that fails next. -/
theorem record_faithful_moved : ∃ s, (answeredRuns .part3).Reachable (s, [(96, 20)]) ∧
    s.list.recorded 96 = some 20 ∧
    ∀ s', Call.exec .part3 (.malloc 1 0 4) s = some s' →
      ¬ Call.RecordsFailure s s' (.malloc 1 0 4) := by
  have h₀ : (answeredRuns .part3).Reachable (init 1, []) := .init ⟨1, rfl⟩
  have h₁ : (answeredRuns .part3).Reachable (_, [(64, 10)]) :=
    h₀.step (a := .malloc 10 64 2) ⟨by decide, ⟨Or.inr List.not_mem_nil, by decide⟩, rfl, rfl⟩
  have h₂ : (answeredRuns .part3).Reachable (_, [(96, 20)]) :=
    h₁.step (a := .realloc 64 20 96 3) ⟨by decide,
      ⟨Or.inr (by decide), Or.inr (Or.inr (by decide)), by decide⟩, rfl, rfl⟩
  obtain ⟨hrecord, -, hnext⟩ := record_faithful_iff .part3 _ _ h₂
  refine ⟨_, h₂, hrecord 96, fun s' hexec hrecords => ?_⟩
  exact (hnext (.malloc 1 0 4) s' ⟨Or.inl rfl, by decide⟩ hexec).mp hrecords rfl

/-- A block of ten bytes is still live after a `realloc` to a hundred that fails, but the tracer
records it as freed and a hundred bytes as live at `NULL`. -/
theorem failed_growth (part : Part) : ∃ s s', (libcRuns part).Reachable (s, [(64, 10)]) ∧
    (libcRuns part).step (s, [(64, 10)]) (.realloc 64 100 0 3) (s', [(64, 10)]) ∧
    s'.list.recorded 64 = none ∧ s'.list.recorded 0 = some 100 ∧
    s'.freePart3 64 = some { s' with log := [.doubleFree] } := by
  have h₀ : (libcRuns part).Reachable (init 1, []) := .init ⟨1, rfl⟩
  have h₁ : (libcRuns part).Reachable (_, [(64, 10)]) :=
    h₀.step (a := .malloc 10 64 2) ⟨⟨Or.inr List.not_mem_nil, by decide⟩, rfl, rfl⟩
  exact ⟨_, _, h₁, ⟨⟨Or.inr (by decide), Or.inl rfl, by decide⟩, rfl, rfl⟩, rfl, rfl, rfl⟩

/-- Part 3 refuses to free the block. -/
theorem failed_growth_recorded :
    (∃ s s', (libcRuns .part2).Reachable (s, [(64, 10)]) ∧
      (libcRuns .part2).step (s, [(64, 10)]) (.realloc 64 100 0 3) (s', [(64, 10)]) ∧
      s'.list.recorded 64 = none ∧ s'.list.recorded 0 = some 100) ∧
    ∃ s s' s'', (libcRuns .part3).Reachable (s, [(64, 10)]) ∧
      (libcRuns .part3).step (s, [(64, 10)]) (.realloc 64 100 0 3) (s', [(64, 10)]) ∧
      s'.list.recorded 64 = none ∧ s'.list.recorded 0 = some 100 ∧
      s'.free .part3 64 = some s'' ∧ s''.log = [.doubleFree] := by
  obtain ⟨s, s', hs, hstep, hold, hnull, -⟩ := failed_growth .part2
  obtain ⟨r, r', hr, hrstep, hrold, hrnull, hfree⟩ := failed_growth .part3
  exact ⟨⟨s, s', hs, hstep, hold, hnull⟩, ⟨r, r', _, hr, hrstep, hrold, hrnull, hfree, rfl⟩⟩

/-! ### Legal calls -/

/-- The reference count of the block at `p`. -/
def MemList.count (l : MemList) (p : ℕ) : Option ℤ := (lookup p l.items).map Item.cnt

namespace MemList

variable {l : MemList} {p q a : ℕ} {n : UInt64}

theorem WellFormed.count_alloc (w : l.WellFormed) : (l.alloc a p n).2.count q =
    if q = p then some ((l.count p).getD 0 + 1) else l.count q := by
  rw [count, w.lookup_alloc]
  by_cases hq : q = p
  · rw [if_pos hq, if_pos hq, count]
    cases lookup p l.items <;> rfl
  · rw [if_neg hq, if_neg hq]
    rfl

theorem count_dealloc : (l.dealloc p).2.count q =
    if q = p then (l.count p).map (· - 1) else l.count q := by
  rw [count, lookup_dealloc]
  by_cases hq : q = p
  · rw [if_pos hq, if_pos hq, count]
    cases lookup p l.items <;> rfl
  · rw [if_neg hq, if_neg hq]
    rfl

end MemList

/-- `free` and `realloc` are called with `NULL` or a live pointer. -/
def Call.Lawful (live : Live) : Call → Prop
  | realloc ptr .. | free ptr => ptr = 0 ∨ ptr ∈ live.map Prod.fst
  | _ => True

/-- `NULL` is freed in part 2 only, and there and in `realloc` only where the list has an item for
it; in part 3 no `realloc` of a live block fails and leaves it allocated. -/
def Call.Covered (part : Part) (l : MemList) : Call → Prop
  | free ptr => ptr = 0 → part = .part2 ∧ lookup 0 l.items ≠ none
  | realloc ptr size res _ => (ptr = 0 → lookup 0 l.items ≠ none) ∧
    (part = .part3 → ptr ≠ 0 → res = 0 → size = 0)
  | _ => True

/-- The call returns and no message is logged; and so it is when a live block is freed next. -/
def Call.Honoured (part : Part) (s : Tracer) (live : Live) (c : Call) : Prop :=
  ∃ s', c.exec part s = some s' ∧ s'.log = s.log ∧
    ∀ p ∈ (c.outcome live).map Prod.fst, ∃ s'', s'.free part p = some s'' ∧ s''.log = s'.log

/-- The live blocks after an allocation that returned `p`. -/
def grant (live : Live) (p : ℕ) (n : UInt64) : Live := if p = 0 then live else (p, n) :: live

/-- Every live block has an item; in part 3 the counts tell the live blocks from the others, `NULL`
apart. -/
structure Usable (part : Part) (l : MemList) (live : Live) : Prop where
  wellFormed : l.WellFormed
  dummy : l.dummy.cnt = 0
  nonzero : 0 ∉ live.map Prod.fst
  kept : ∀ p ∈ live.map Prod.fst, l.count p ≠ none
  counted : part = .part3 → ∀ p n, p ≠ 0 → l.count p = some n →
    n = if p ∈ live.map Prod.fst then 1 else 0

namespace Usable

variable {s : Tracer} {part : Part} {l : MemList} {live : Live} {p q a : ℕ} {n : UInt64}

theorem alloc (u : Usable part l live) (hfresh : p = 0 ∨ p ∉ live.map Prod.fst)
    (ha : a ∉ l.addrs) : Usable part (l.alloc a p n).2 (grant live p n) := by
  refine ⟨u.wellFormed.alloc ha, u.dummy, ?_, fun q hq => ?_, fun hpart q k hq hk => ?_⟩
  · rw [grant]
    split
    · exact u.nonzero
    · rename_i hp
      intro h
      rcases List.mem_cons.mp h with he | h
      · exact hp he.symm
      · exact u.nonzero h
  · rw [u.wellFormed.count_alloc]
    by_cases hqp : q = p
    · rw [if_pos hqp]
      exact Option.some_ne_none _
    · rw [if_neg hqp]
      apply u.kept
      rw [grant] at hq
      split at hq
      · exact hq
      · exact (List.mem_cons.mp hq).resolve_left hqp
  · rw [u.wellFormed.count_alloc] at hk
    by_cases hqp : q = p
    · subst hqp
      have hnot : q ∉ live.map Prod.fst := hfresh.resolve_left hq
      rw [if_pos rfl, Option.some.injEq] at hk
      have hmem : q ∈ ((q, n) :: live).map Prod.fst := List.mem_cons_self
      rw [grant, if_neg hq, if_pos hmem, ← hk]
      cases hc : l.count q with
      | none => rfl
      | some m =>
        have hm := u.counted hpart q m hq hc
        rw [if_neg hnot] at hm
        rw [hm]
        rfl
    · rw [if_neg hqp] at hk
      have hmem : q ∈ (grant live p n).map Prod.fst ↔ q ∈ live.map Prod.fst := by
        rw [grant]
        split
        · exact Iff.rfl
        · exact List.mem_cons.trans (or_iff_right hqp)
      rw [if_congr hmem rfl rfl]
      exact u.counted hpart q k hq hk

/-- Releasing a block.  The count of `NULL` says nothing. -/
theorem dealloc (u : Usable part l live) (hp : p = 0 ∨ p ∈ live.map Prod.fst) :
    Usable part (l.dealloc p).2 (release live p) := by
  refine ⟨u.wellFormed.dealloc, u.dummy, fun h => u.nonzero (key_mem_release.mp h).1,
    fun q hq => ?_, fun hpart q k hq hk => ?_⟩
  · obtain ⟨hq, hqp⟩ := key_mem_release.mp hq
    rw [MemList.count_dealloc, if_neg hqp]
    exact u.kept q hq
  · rw [MemList.count_dealloc] at hk
    by_cases hqp : q = p
    · subst hqp
      have hlive : q ∈ live.map Prod.fst := hp.resolve_left hq
      rw [if_pos rfl] at hk
      obtain ⟨m, hm, rfl⟩ := Option.map_eq_some_iff.mp hk
      have hone := u.counted hpart q m hq hm
      rw [if_pos hlive] at hone
      rw [if_neg (key_notMem_release live q), hone]
      rfl
    · rw [if_neg hqp] at hk
      rw [if_congr (key_mem_release.trans (and_iff_left hqp)) rfl rfl]
      exact u.counted hpart q k hq hk

/-- Part 2 needs no counts: an item stays where it is. -/
theorem dealloc_part2 (u : Usable .part2 l live) : Usable .part2 (l.dealloc p).2 live := by
  refine ⟨u.wellFormed.dealloc, u.dummy, u.nonzero, fun q hq => ?_, nofun⟩
  rw [MemList.count_dealloc]
  have hkept := u.kept q hq
  by_cases hqp : q = p
  · subst hqp
    rw [if_pos rfl]
    exact fun h => hkept (Option.map_eq_none_iff.mp h)
  · rw [if_neg hqp]
    exact hkept

/-- A live block can be freed. -/
theorem free_live (u : Usable part s.list live) (hp : p ∈ live.map Prod.fst) : ∃ s',
    s.free part p = some s' ∧ s'.log = s.log ∧ s'.list = (s.list.dealloc p).2 := by
  have hp0 : p ≠ 0 := fun h => u.nonzero (h ▸ hp)
  have hkept := u.kept p hp
  rw [MemList.count] at hkept
  cases hc : lookup p s.list.items with
  | none =>
    rw [hc] at hkept
    exact absurd rfl hkept
  | some c =>
    have hfree : ∃ s', s.freePart2 p = some s' ∧ s'.log = s.log ∧
        s'.list = (s.list.dealloc p).2 := by
      rw [Tracer.freePart2_eq u.wellFormed, hc]
      exact ⟨_, rfl, rfl, rfl⟩
    cases part with
    | part2 => exact hfree
    | part3 =>
      have hcnt : c.cnt = 1 := by
        have hone := u.counted rfl p c.cnt hp0 (by rw [MemList.count, hc]; rfl)
        rwa [if_pos hp] at hone
      have hpart2 : s.freePart3 p = s.freePart2 p := by
        rw [Tracer.freePart3_eq u.wellFormed hp0, hc]
        exact if_neg (by omega)
      show ∃ s', s.freePart3 p = some s' ∧ _
      rw [hpart2]
      exact hfree

/-- `NULL` can be freed in part 2 where it has an item. -/
theorem free_null (u : Usable .part2 s.list live) (h : lookup 0 s.list.items ≠ none) : ∃ s',
    s.freePart2 0 = some s' ∧ s'.log = s.log ∧ s'.list = (s.list.dealloc 0).2 := by
  obtain ⟨c, hc⟩ := Option.ne_none_iff_exists'.mp h
  rw [Tracer.freePart2_eq u.wellFormed, hc]
  exact ⟨_, rfl, rfl, rfl⟩

/-- A `realloc` that succeeds, releases its argument or has none to lose keeps the list usable. -/
theorem realloc {res : ℕ} (u : Usable part s.list live) (hp : p = 0 ∨ p ∈ live.map Prod.fst)
    (hres : res = 0 ∨ res = p ∨ res ∉ live.map Prod.fst) (ha : a ∉ s.list.addrs)
    (hitem : p = 0 → lookup 0 s.list.items ≠ none)
    (hsize : part = .part3 → p ≠ 0 → res = 0 → n = 0) : ∃ s',
    s.realloc p n res a = some s' ∧ s'.log = s.log ∧
      Usable part s'.list (Call.outcome live (.realloc p n res a)) := by
  have hsome : lookup p s.list.items ≠ none := by
    rcases hp with rfl | hp
    · exact hitem rfl
    · intro hnone
      exact u.kept p hp (by rw [MemList.count, hnone]; rfl)
  obtain ⟨c, hc⟩ := Option.ne_none_iff_exists'.mp hsome
  have ha' := MemList.notMem_addrs_dealloc p ha
  have hfresh : res = 0 ∨ res ∉ (release live p).map Prod.fst := by
    refine hres.imp_right fun h hin => ?_
    obtain ⟨hmem, hne⟩ := key_mem_release.mp hin
    exact h.elim hne fun hnot => hnot hmem
  rw [Tracer.realloc_eq u.wellFormed ha, hc]
  refine ⟨_, rfl, rfl, ?_⟩
  show Usable part ((s.list.dealloc p).2.alloc a res n).2 _
  by_cases hfailed : res = 0
  · subst hfailed
    have houtcome : Call.outcome live (.realloc p n 0 a) =
        if n = 0 then release live p else live := if_pos rfl
    rw [houtcome]
    by_cases hn : n = 0
    · rw [if_pos hn]
      exact (u.dealloc hp).alloc (Or.inl rfl) ha'
    · rw [if_neg hn]
      cases part with
      | part2 => exact u.dealloc_part2.alloc (Or.inl rfl) ha'
      | part3 =>
        have hp0 : p = 0 := by
          by_contra hne
          exact hn (hsize rfl hne rfl)
        have hu := (u.dealloc hp).alloc (p := 0) (n := n) (Or.inl rfl) ha'
        rw [hp0, release_of_notMem u.nonzero] at hu
        rw [hp0]
        exact hu
  · have houtcome : Call.outcome live (.realloc p n res a) = (res, n) :: release live p :=
      if_neg hfailed
    have hu := (u.dealloc hp).alloc (p := res) (n := n) hfresh ha'
    rw [grant, if_neg hfailed] at hu
    rw [houtcome]
    exact hu

/-- **The step lemma.** -/
theorem exec {c : Call} (u : Usable part s.list live) (hc : c.Permitted part s live)
    (hlawful : c.Lawful live) (hcovered : c.Covered part s.list) : ∃ s', c.exec part s = some s' ∧
      s'.log = s.log ∧ Usable part s'.list (c.outcome live) := by
  cases c with
  | malloc size res a =>
    have hgrant : Call.outcome live (.malloc size res a) = grant live res size := rfl
    refine ⟨_, rfl, rfl, ?_⟩
    rw [hgrant]
    exact u.alloc hc.1 hc.2
  | calloc nmemb size res a =>
    have hgrant : Call.outcome live (.calloc nmemb size res a) = grant live res (nmemb * size) := rfl
    refine ⟨_, rfl, rfl, ?_⟩
    rw [hgrant]
    exact u.alloc hc.1 hc.2
  | realloc ptr size res a =>
    obtain ⟨-, hres, ha⟩ := hc
    exact u.realloc hlawful hres ha hcovered.1 hcovered.2
  | free ptr =>
    show ∃ s', s.free part ptr = some s' ∧ _ ∧ Usable part s'.list (release live ptr)
    have hfree : ∃ s', s.free part ptr = some s' ∧ s'.log = s.log ∧
        s'.list = (s.list.dealloc ptr).2 := by
      rcases hlawful with rfl | hlive
      · obtain ⟨rfl, hitem⟩ := hcovered rfl
        exact u.free_null hitem
      · exact u.free_live hlive
    obtain ⟨s', hexec, hlog, hlist⟩ := hfree
    refine ⟨s', hexec, hlog, ?_⟩
    rw [hlist]
    exact u.dealloc hlawful

end Usable

/-- A block whose count is zero is refused. -/
theorem Tracer.freePart3_of_count_zero {s : Tracer} {p : ℕ} (w : s.list.WellFormed) (hp : p ≠ 0)
    (h : s.list.count p = some 0) :
    s.freePart3 p = some { s with log := s.log ++ [.doubleFree] } := by
  obtain ⟨c, hc, hcnt⟩ := Option.map_eq_some_iff.mp h
  rw [freePart3_eq w hp, hc]
  exact if_pos hcnt

/-- After a `realloc` that failed, part 3 takes its argument for a freed block. -/
theorem Usable.refused_of_failed {s s' : Tracer} {live : Live} {p a : ℕ} {n : UInt64}
    (u : Usable .part3 s.list live) (hlive : p ∈ live.map Prod.fst) (hp : p ≠ 0)
    (ha : a ∉ s.list.addrs) (h : s.realloc p n 0 a = some s') :
    s'.freePart3 p = some { s' with log := s'.log ++ [.doubleFree] } := by
  rw [Tracer.realloc_eq u.wellFormed ha] at h
  obtain ⟨c, hitem, rfl⟩ := Option.map_eq_some_iff.mp h
  have hone := u.counted rfl p c.cnt hp (by rw [MemList.count, hitem]; rfl)
  rw [if_pos hlive] at hone
  have hzero : (s.list.dealloc p).2.count p = some 0 := by
    rw [MemList.count_dealloc, if_pos rfl, MemList.count, hitem, Option.map_some, hone]
    rfl
  refine Tracer.freePart3_of_count_zero ?_ hp ?_
  · exact u.wellFormed.dealloc.alloc (MemList.notMem_addrs_dealloc p ha)
  · show ((s.list.dealloc p).2.alloc a 0 n).2.count p = some 0
    rw [u.wellFormed.dealloc.count_alloc, if_neg hp, hzero]

/-- What a legal call needs in order to be honoured. -/
theorem Usable.covered_of_honoured {part : Part} {s : Tracer} {live : Live} {c : Call}
    (u : Usable part s.list live) (hc : c.Permitted part s live) (hlawful : c.Lawful live)
    (h : c.Honoured part s live) : c.Covered part s.list := by
  obtain ⟨s', hexec, hlog, hnext⟩ := h
  cases c with
  | malloc | calloc => trivial
  | realloc ptr size res a =>
    obtain ⟨-, -, ha⟩ := hc
    have hexec' : s.realloc ptr size res a = some s' := hexec
    refine ⟨?_, ?_⟩
    · rintro rfl hnone
      rw [Tracer.realloc_eq u.wellFormed ha, hnone] at hexec'
      cases hexec'
    · rintro rfl hptr rfl
      by_contra hsize
      have houtcome : Call.outcome live (.realloc ptr size 0 a) = live :=
        (if_pos rfl).trans (if_neg hsize)
      have hlive : ptr ∈ live.map Prod.fst := hlawful.resolve_left hptr
      rw [houtcome] at hnext
      obtain ⟨s'', hfree, hlog'⟩ := hnext ptr hlive
      cases (u.refused_of_failed hlive hptr ha hexec').symm.trans hfree
      simp at hlog'
  | free ptr =>
    rintro rfl
    have hexec' : s.free part 0 = some s' := hexec
    cases part with
    | part2 =>
      refine ⟨rfl, fun hnone => ?_⟩
      rw [show s.free .part2 0 = s.freePart2 0 from rfl, Tracer.freePart2_eq u.wellFormed,
        hnone] at hexec'
      cases hexec'
    | part3 =>
      cases (Tracer.freePart3_null u.wellFormed u.dummy).symm.trans hexec'
      simp at hlog

/-- **Legal calls.**  In a run whose calls are all legal and covered, every live block can be freed
and no message has been logged; and the next legal call is honoured just when it is covered. -/
theorem lawful_call_honoured_iff (part : Part) (s : Tracer) (live : Live)
    (h : ((libcRuns part).restrict fun x c =>
      c.Lawful x.2 ∧ c.Covered part x.1.list).Reachable (s, live)) :
    s.log = [] ∧ (∀ p ∈ live.map Prod.fst, ∃ s', s.free part p = some s' ∧ s'.log = []) ∧
      ∀ c : Call, c.Permitted part s live → c.Lawful live →
        (c.Honoured part s live ↔ c.Covered part s.list) := by
  have hrun : s.log = [] ∧ Usable part s.list live := by
    refine h.invariant (P := fun x => x.1.log = [] ∧ Usable part x.1.list x.2) ?_ ?_
    · rintro x ⟨a, rfl⟩
      exact ⟨rfl, (tracks_init a).wellFormed, rfl, List.not_mem_nil, nofun,
        fun _ _ n _ hn => nomatch (hn : (none : Option ℤ) = some n)⟩
    · rintro x c x' ⟨hlog, u⟩ ⟨⟨hlawful, hcovered⟩, hc, hexec, hlive⟩
      obtain ⟨s', hexec', hlog', u'⟩ := u.exec hc hlawful hcovered
      obtain rfl := Option.some.inj (hexec'.symm.trans hexec)
      rw [hlive]
      exact ⟨hlog'.trans hlog, u'⟩
  obtain ⟨hlog, u⟩ := hrun
  refine ⟨hlog, fun p hp => ?_, fun c hc hlawful => ?_⟩
  · obtain ⟨s', hfree, hlog', -⟩ := u.free_live hp
    exact ⟨s', hfree, hlog'.trans hlog⟩
  · refine ⟨u.covered_of_honoured hc hlawful, fun hcovered => ?_⟩
    obtain ⟨s', hexec, hlog', u'⟩ := u.exec hc hlawful hcovered
    refine ⟨s', hexec, hlog', fun p hp => ?_⟩
    obtain ⟨s'', hfree, hlog'', -⟩ := u'.free_live hp
    exact ⟨s'', hfree, hlog''⟩

/-- In part 2, a `malloc` that fails gives `NULL` an item, so that `NULL` can be freed. -/
theorem lawful_call_honoured_null : ∃ s,
    ((libcRuns .part2).restrict fun x c =>
      c.Lawful x.2 ∧ c.Covered .part2 x.1.list).Reachable (s, [(64, 10)]) ∧
    Call.Honoured .part2 s [(64, 10)] (.free 0) := by
  have h₀ : ((libcRuns .part2).restrict fun x c =>
      c.Lawful x.2 ∧ c.Covered .part2 x.1.list).Reachable (init 1, []) := .init ⟨1, rfl⟩
  have h₁ : ((libcRuns .part2).restrict _).Reachable (_, [(64, 10)]) :=
    h₀.step (a := .malloc 10 64 2) ⟨⟨trivial, trivial⟩, ⟨Or.inr List.not_mem_nil, by decide⟩, rfl, rfl⟩
  have h₂ : ((libcRuns .part2).restrict _).Reachable (_, [(64, 10)]) :=
    h₁.step (a := .malloc 20 0 3) ⟨⟨trivial, trivial⟩, ⟨Or.inl rfl, by decide⟩, rfl, rfl⟩
  obtain ⟨-, -, hnext⟩ := lawful_call_honoured_iff .part2 _ _ h₂
  refine ⟨_, h₂, (hnext (.free 0) (Or.inr (Or.inl rfl)) (Or.inl rfl)).mpr fun _ => ⟨rfl, ?_⟩⟩
  exact Option.some_ne_none _

/-- The first call of a program is `free(NULL)`, or `realloc(NULL, 10)`, which returns 64.  Part 2
crashes both times; part 3 reports a double free and crashes. -/
theorem null_not_honoured :
    (∀ part, (libcRuns part).Reachable (init 1, []) ∧ (Call.free 0).Lawful [] ∧
      (Call.realloc 0 10 64 2).Lawful [] ∧ (Call.realloc 0 10 64 2).Permitted part (init 1) []) ∧
    Call.exec .part2 (.free 0) (init 1) = none ∧
    (∃ s', Call.exec .part3 (.free 0) (init 1) = some s' ∧ s'.log = [.doubleFree]) ∧
    Call.exec .part2 (.realloc 0 10 64 2) (init 1) = none ∧
    Call.exec .part3 (.realloc 0 10 64 2) (init 1) = none := by
  refine ⟨fun part => ⟨.init ⟨1, rfl⟩, Or.inl rfl, Or.inl rfl, ?_⟩, rfl, ⟨_, rfl, rfl⟩, rfl, rfl⟩
  exact ⟨Or.inl rfl, Or.inr (Or.inr List.not_mem_nil), by decide⟩

end SystemProgramming.LinkLab
