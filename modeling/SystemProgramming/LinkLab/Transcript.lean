import SystemProgramming.LinkLab.LogText
import SystemProgramming.LinkLab.Report

/-!
# The log of a traced program

From the start of the library to its end the tracer writes one text: a first line, what the wrappers
log, and what `fini` prints.  An auditor who has nothing but this text can recompute its last part: the
totals, and the blocks that were not freed.  The freed total is the auditor's only where no block has
changed its size in place.

* `Version.exec`, `Call.logged`, `process` : the wrappers of all three parts with what they log.
* `audit` : what the lines about calls add up to.
* `Agrees.step`, `Agrees.run` : the counters and the list agree with the audit after a call and a run.
* `log_accounts` : the text shows the calls in order, and its last part is what they add up to.
-/

namespace SystemProgramming.LinkLab

open Holdings

/-! ### The wrappers of part 1 -/

namespace Tracer

/-- `malloc` of part 1. -/
def mallocPart1 (size : UInt64) (s : Tracer) : Tracer :=
  { s with nMalloc := s.nMalloc + 1, nAllocb := s.nAllocb + size }

/-- `calloc` of part 1. -/
def callocPart1 (nmemb size : UInt64) (s : Tracer) : Tracer :=
  { s with nCalloc := s.nCalloc + 1, nAllocb := s.nAllocb + nmemb * size }

/-- `realloc` of part 1. -/
def reallocPart1 (size : UInt64) (s : Tracer) : Tracer :=
  { s with nRealloc := s.nRealloc + 1, nAllocb := s.nAllocb + size }

/-- `free` of part 1, which counts nothing. -/
def freePart1 (s : Tracer) : Tracer := s

/-- `fini` of part 1, which has no list to print. -/
def finiPart1 (s : Tracer) : List Report :=
  let nAlloc := s.nMalloc + s.nCalloc + s.nRealloc
  let avgAllocb := if nAlloc.toInt64 > 0 then s.nAllocb / nAlloc else 0
  [.statistics s.nAllocb avgAllocb s.nFreeb, .stop]

end Tracer

/-- The three libraries. -/
inductive Version
  | part1
  | listed (part : Part)

/-- What a wrapper does. -/
def Version.exec : Version → Call → Tracer → Option Tracer
  | part1, .malloc size .., s => some (s.mallocPart1 size)
  | part1, .calloc nmemb size .., s => some (s.callocPart1 nmemb size)
  | part1, .realloc _ size .., s => some (s.reallocPart1 size)
  | part1, .free _, s => some s.freePart1
  | listed part, c, s => c.exec part s

/-- What `fini` prints. -/
def Version.fini : Version → Tracer → List Report
  | part1, s => s.finiPart1
  | listed _, s => s.fini

/-! ### What is logged -/

/-- The message of part 3 about a `free`, after the scan for the block. -/
def Tracer.refusal (ptr : ℕ) (s : Tracer) : List LogLine :=
  match (s.list.dummy :: s.list.items).find? fun i => i.ptr = ptr with
  | none => [.illFree]
  | some curr => if curr.cnt = 0 then [.doubleFree] else []

/-- The line about a call. -/
def Call.line : Call → LogLine
  | malloc size res _ => .malloc size res
  | calloc nmemb size res _ => .calloc nmemb size res
  | realloc ptr size res _ => .realloc ptr size res
  | free ptr => .free ptr

/-- What a wrapper logs behind that. -/
def Call.notices (s : Tracer) : Version → Call → List LogLine
  | .listed .part3, free ptr => s.refusal ptr
  | _, _ => []

/-- What a wrapper logs; it does so before it looks at an item. -/
def Call.logged (v : Version) (s : Tracer) (c : Call) : List LogLine := c.line :: c.notices s v

/-- The lines that `fini` prints. -/
def Report.lines : Report → List LogLine
  | statistics allocTotal allocAvg freeTotal =>
    [.blank, .statistics, .allocatedTotal allocTotal, .allocatedAvg allocAvg, .freedTotal freeTotal]
  | nonfreedStart => [.blank, .nonfreed, .columns]
  | block ptr size cnt => [.block ptr size cnt]
  | stop => [.blank, .stop]

/-- What the wrappers log in a run, and the tracer at its end unless a call crashes. -/
def Version.run (v : Version) : Tracer → List Call → List LogLine × Option Tracer
  | s, [] => ([], some s)
  | s, c :: cs =>
    match v.exec c s with
    | none => (c.logged v s, none)
    | some s' => (c.logged v s ++ (v.run s' cs).1, (v.run s' cs).2)

/-- Everything the library logs for a program that makes these calls. -/
def process (v : Version) (a : ℕ) (cs : List Call) : List LogLine :=
  .start :: ((v.run (init a) cs).1 ++
    match (v.run (init a) cs).2 with
    | none => []
    | some s => (v.fini s).flatMap Report.lines)

/-! ### The audit -/

/-- What the lines about calls add up to: the allocations, the bytes allocated, the bytes released, by how
much blocks that `realloc` returned in place have grown, and the blocks that are live.  Words are taken
modulo `2^64`. -/
structure Audit where
  allocs : UInt64
  allocated : UInt64
  freed : UInt64
  grown : UInt64
  live : Live

/-- One more line. -/
def Audit.read (x : Audit) : LogLine → Audit
  | .malloc size res => ⟨x.allocs + 1, x.allocated + size, x.freed, x.grown, (res, size) :: x.live⟩
  | .calloc nmemb size res =>
    ⟨x.allocs + 1, x.allocated + nmemb * size, x.freed, x.grown, (res, nmemb * size) :: x.live⟩
  | .realloc ptr size res => ⟨x.allocs + 1, x.allocated + size, x.freed + x.live.sizeAt ptr,
      x.grown + (if res = ptr then size - x.live.sizeAt ptr else 0), (res, size) :: release x.live ptr⟩
  | .free ptr => ⟨x.allocs, x.allocated, x.freed + x.live.sizeAt ptr, x.grown, release x.live ptr⟩
  | _ => x

/-- The audit of the lines. -/
def audit (lines : List LogLine) : Audit := lines.foldl Audit.read ⟨0, 0, 0, 0, []⟩

/-- The last part of a log with these totals and these blocks that were not freed. -/
def closing (allocs allocated freed : UInt64) (blocks : Live) : List LogLine :=
  [LogLine.blank, .statistics, .allocatedTotal allocated,
    .allocatedAvg (if allocs.toInt64 > 0 then allocated / allocs else 0), .freedTotal freed] ++
  ((if blocks = [] then [] else
    [LogLine.blank, .nonfreed, .columns] ++ blocks.map fun b => LogLine.block b.1 b.2 1) ++
    [LogLine.blank, .stop])

/-- How the freed total and the blocks that a library prints differ from the audit.  Part 1 counts no
released byte and knows of no block; the other parts charge a block that `realloc` returns in place with
its new size. -/
def Version.Shows (x : Audit) (freed : UInt64) (live : Live) : Version → Prop
  | part1 => freed = 0 ∧ live = []
  | listed _ => freed = x.freed + x.grown ∧ live = x.live

/-- A line about a call. -/
def LogLine.isCall : LogLine → Bool
  | malloc .. | calloc .. | realloc .. | free .. => true
  | _ => false

/-- A text that shows the calls in order and closes with what they add up to, as far as the library keeps
count of it, the blocks in ascending order. -/
def Accounts (v : Version) (cs : List Call) (written : List UInt8) : Prop :=
  ∃ calls freed live blocks,
    readLog written = some (.start :: (calls ++
      closing (audit calls).allocs (audit calls).allocated freed blocks)) ∧
    calls.filter LogLine.isCall = cs.map Call.line ∧ v.Shows (audit calls) freed live ∧
    blocks.Perm live ∧ blocks.Pairwise fun b b' => b.1 < b'.1

/-! ### Runs -/

/-- The calls that may be made: any in part 1, of live blocks in part 2, and in part 3 `free` of any
pointer but `NULL`. -/
def Call.Admitted (v : Version) (s : Tracer) (live : Live) (c : Call) : Prop :=
  match v with
  | .part1 => True
  | .listed .part2 => c.Legal s live
  | .listed .part3 => c.Accepted s live

instance (v : Version) (s : Tracer) (live : Live) (c : Call) : Decidable (c.Admitted v s live) :=
  match v with
  | .part1 => inferInstanceAs (Decidable True)
  | .listed .part2 => inferInstanceAs (Decidable (c.Legal s live))
  | .listed .part3 => inferInstanceAs (Decidable (c.Accepted s live))

/-- Every call of the run may be made when it is. -/
def AdmittedRun (v : Version) : Tracer → Live → List Call → Prop
  | _, _, [] => True
  | s, live, c :: cs =>
    c.Admitted v s live ∧ ∀ s' ∈ v.exec c s, AdmittedRun v s' (c.settle live) cs

instance decidableAdmittedRun (v : Version) :
    (s : Tracer) → (live : Live) → (cs : List Call) → Decidable (AdmittedRun v s live cs)
  | _, _, [] => inferInstanceAs (Decidable True)
  | _, _, _ :: cs =>
    have := fun s live => decidableAdmittedRun v s live cs
    inferInstanceAs (Decidable (_ ∧ ∀ s' ∈ _, AdmittedRun v s' _ cs))

/-- The counters and the list agree with an audit; `live` is what the list tells. -/
structure Agrees (v : Version) (s : Tracer) (x : Audit) (live : Live) : Prop where
  allocs : s.nMalloc + s.nCalloc + s.nRealloc = x.allocs
  allocated : s.nAllocb = x.allocated
  shows : v.Shows x s.nFreeb live
  list : Tracks s.list live

/-- By how much a call makes a block grow in place. -/
def Call.grown (live : Live) : Call → UInt64
  | realloc ptr size res _ => if res = ptr then size - live.sizeAt ptr else 0
  | malloc .. | calloc .. | free _ => 0

/-- Whether a call allocates. -/
def Call.allocs : Call → UInt64
  | malloc .. | calloc .. | realloc .. => 1
  | free _ => 0

section Step

variable {v : Version} {part : Part} {s s' : Tracer} {live : Live} {c : Call} {x : Audit}

/-- Behind the line about a call there is at most one message. -/
theorem Call.notices_cases (v : Version) (s : Tracer) (c : Call) :
    c.notices s v = [] ∨ c.notices s v = [.illFree] ∨ c.notices s v = [.doubleFree] := by
  cases v with
  | part1 => exact Or.inl rfl
  | listed part =>
    cases part with
    | part2 => exact Or.inl rfl
    | part3 =>
      cases c with
      | malloc | calloc | realloc => exact Or.inl rfl
      | free ptr =>
        show s.refusal ptr = [] ∨ s.refusal ptr = _ ∨ s.refusal ptr = _
        rw [Tracer.refusal]
        split
        · exact Or.inr (Or.inl rfl)
        · split
          · exact Or.inr (Or.inr rfl)
          · exact Or.inl rfl

theorem Call.isCall_line (c : Call) : c.line.isCall = true := by
  cases c with
  | malloc | calloc | realloc | free => rfl

/-- A wrapper charges what the call releases and what the block has grown. -/
theorem Call.charged_eq (live : Live) (c : Call) :
    c.charged live = c.released live + c.grown live := by
  cases c with
  | malloc | calloc | free => exact (add_zero _).symm
  | realloc ptr size res a =>
    rw [Call.charged, Call.released, Call.grown]
    by_cases h : res = ptr
    · rw [if_pos h, if_pos h]
      abel
    · rw [if_neg h, if_neg h, add_zero]

/-- The audit of what a wrapper logs. -/
theorem foldl_logged (v : Version) (s : Tracer) (c : Call) (x : Audit) :
    (c.logged v s).foldl Audit.read x =
      ⟨x.allocs + c.allocs, x.allocated + c.requested, x.freed + c.released x.live,
        x.grown + c.grown x.live, c.settle x.live⟩ := by
  have hline : x.read c.line = ⟨x.allocs + c.allocs, x.allocated + c.requested,
      x.freed + c.released x.live, x.grown + c.grown x.live, c.settle x.live⟩ := by
    cases c with
    | malloc size res a =>
      rw [show Call.released x.live (.malloc size res a) = 0 from rfl,
        show Call.grown x.live (.malloc size res a) = 0 from rfl, add_zero, add_zero]
      rfl
    | calloc nmemb size res a =>
      rw [show Call.released x.live (.calloc nmemb size res a) = 0 from rfl,
        show Call.grown x.live (.calloc nmemb size res a) = 0 from rfl, add_zero, add_zero]
      rfl
    | realloc => rfl
    | free ptr =>
      rw [show Call.allocs (.free ptr) = 0 from rfl, show Call.requested (.free ptr) = 0 from rfl,
        show Call.grown x.live (.free ptr) = 0 from rfl, add_zero, add_zero, add_zero]
      rfl
  rw [Call.logged, List.foldl_cons, hline]
  -- a message does not count
  rcases c.notices_cases v s with h | h | h
  all_goals
    rw [h]
    rfl

theorem filter_logged (v : Version) (s : Tracer) (c : Call) :
    (c.logged v s).filter LogLine.isCall = [c.line] := by
  rw [Call.logged, List.filter_cons_of_pos c.isCall_line]
  rcases c.notices_cases v s with h | h | h
  all_goals
    rw [h]
    rfl

/-- A call moves at most one of the three call counters. -/
theorem Call.exec_allocs (h : c.exec part s = some s') :
    s'.nMalloc + s'.nCalloc + s'.nRealloc = s.nMalloc + s.nCalloc + s.nRealloc + c.allocs := by
  have hpart2 : ∀ p, s.freePart2 p = some s' →
      s'.nMalloc + s'.nCalloc + s'.nRealloc = s.nMalloc + s.nCalloc + s.nRealloc + 0 := by
    intro p hfree
    simp only [Tracer.freePart2, Option.bind_eq_bind, Option.bind_eq_some_iff] at hfree
    obtain ⟨d, -, item, -, he⟩ := hfree
    cases he
    exact (add_zero _).symm
  cases c with
  | malloc size res a =>
    cases h
    show s.nMalloc + 1 + s.nCalloc + s.nRealloc = s.nMalloc + s.nCalloc + s.nRealloc + 1
    abel
  | calloc nmemb size res a =>
    cases h
    show s.nMalloc + (s.nCalloc + 1) + s.nRealloc = s.nMalloc + s.nCalloc + s.nRealloc + 1
    abel
  | realloc ptr size res a =>
    simp only [Call.exec, Tracer.realloc, Option.bind_eq_bind, Option.bind_eq_some_iff] at h
    obtain ⟨d, -, item, -, he⟩ := h
    cases he
    exact (add_assoc _ _ _).symm
  | free ptr =>
    cases part with
    | part2 => exact hpart2 ptr h
    | part3 =>
      have h : s.freePart3 ptr = some s' := h
      rw [Tracer.freePart3] at h
      split at h
      · cases h
        exact (add_zero _).symm
      · split at h
        · cases h
          exact (add_zero _).symm
        · exact hpart2 ptr h

/-- A block that is not live has no size. -/
theorem Live.sizeAt_of_notMem {p : ℕ} (h : p ∉ live.map Prod.fst) : live.sizeAt p = 0 := by
  rw [Live.sizeAt, held_eq_none h, Option.getD_none]

/-- A call that may be made returns, keeps the list true and moves the two byte counters. -/
theorem Call.admitted_spec (t : Tracks s.list live) (h : c.Admitted (.listed part) s live) :
    ∃ s', c.exec part s = some s' ∧ Tracks s'.list (c.settle live) ∧
      s'.nAllocb = s.nAllocb + c.requested ∧ s'.nFreeb = s.nFreeb + c.charged live := by
  by_cases hlegal : c.Legal s live
  · exact Call.exec_spec part t hlegal
  · cases part with
    | part2 => exact absurd h hlegal
    | part3 =>
      cases c with
      | malloc | calloc | realloc => exact absurd h hlegal
      | free ptr =>
        -- the call is refused, and the audit finds no such block
        obtain ⟨notice, hfree⟩ := t.free_ignored h hlegal
        have hsize : Call.charged live (.free ptr) = 0 := Live.sizeAt_of_notMem hlegal
        have hsettle : Call.settle live (.free ptr) = live := release_of_notMem hlegal
        refine ⟨_, hfree, ?_, (add_zero _).symm, ?_⟩
        · rw [hsettle]
          exact t
        · rw [hsize]
          exact (add_zero _).symm

theorem exec_part1 (c : Call) (s : Tracer) : ∃ s', Version.part1.exec c s = some s' ∧
    s'.nMalloc + s'.nCalloc + s'.nRealloc = s.nMalloc + s.nCalloc + s.nRealloc + c.allocs ∧
    s'.nAllocb = s.nAllocb + c.requested ∧ s'.nFreeb = s.nFreeb ∧ s'.list = s.list := by
  cases c with
  | malloc size res a =>
    refine ⟨_, rfl, ?_, rfl, rfl, rfl⟩
    show s.nMalloc + 1 + s.nCalloc + s.nRealloc = s.nMalloc + s.nCalloc + s.nRealloc + 1
    abel
  | calloc nmemb size res a =>
    refine ⟨_, rfl, ?_, rfl, rfl, rfl⟩
    show s.nMalloc + (s.nCalloc + 1) + s.nRealloc = s.nMalloc + s.nCalloc + s.nRealloc + 1
    abel
  | realloc ptr size res a => exact ⟨_, rfl, (add_assoc _ _ _).symm, rfl, rfl, rfl⟩
  | free ptr => exact ⟨_, rfl, (add_zero _).symm, (add_zero _).symm, rfl, rfl⟩

/-- **One call.** -/
theorem Agrees.step (h : Agrees v s x live) (hc : c.Admitted v s x.live) :
    ∃ s' live', v.exec c s = some s' ∧ Agrees v s' ((c.logged v s).foldl Audit.read x) live' := by
  obtain ⟨hallocs, hallocated, hshows, hlist⟩ := h
  rw [foldl_logged]
  cases v with
  | part1 =>
    obtain ⟨s', hexec, hallocs', hallocb, hfreeb, hlist'⟩ := exec_part1 c s
    refine ⟨s', live, hexec, hallocs'.trans (by rw [hallocs]), hallocb.trans (by rw [hallocated]),
      ⟨hfreeb.trans hshows.1, hshows.2⟩, ?_⟩
    rw [hlist']
    exact hlist
  | listed part =>
    obtain ⟨hfreed, rfl⟩ := hshows
    obtain ⟨s', hexec, hlist', hallocb, hfreeb⟩ := Call.admitted_spec hlist hc
    refine ⟨s', _, hexec, (Call.exec_allocs hexec).trans (by rw [hallocs]),
      hallocb.trans (by rw [hallocated]), ⟨?_, rfl⟩, hlist'⟩
    rw [hfreeb, hfreed, c.charged_eq]
    exact add_add_add_comm ..

/-- **A run.** -/
theorem Agrees.run {cs : List Call} (h : Agrees v s x live) (hcs : AdmittedRun v s x.live cs) :
    ∃ s' live', (v.run s cs).2 = some s' ∧ Agrees v s' ((v.run s cs).1.foldl Audit.read x) live' ∧
      (v.run s cs).1.filter LogLine.isCall = cs.map Call.line := by
  induction cs generalizing s x live with
  | nil => exact ⟨s, live, rfl, h, rfl⟩
  | cons c cs ih =>
    obtain ⟨hc, hrest⟩ := hcs
    obtain ⟨s₁, live₁, hexec, h₁⟩ := h.step hc
    have hlive : ((c.logged v s).foldl Audit.read x).live = c.settle x.live := by
      rw [foldl_logged]
    have hadmitted := hrest s₁ hexec
    rw [← hlive] at hadmitted
    obtain ⟨s', live', hend, hagrees, hcalls⟩ := ih h₁ hadmitted
    refine ⟨s', live', ?_, ?_, ?_⟩
    · rw [Version.run, hexec]
      exact hend
    · rw [Version.run, hexec, List.foldl_append]
      exact hagrees
    · rw [Version.run, hexec, List.filter_append, filter_logged, hcalls]
      rfl

end Step

/-! ### The last part -/

/-- The lines about the blocks. -/
theorem flatMap_block (blocks : Live) :
    (blocks.map fun b => Report.block b.1 b.2 1).flatMap Report.lines =
      blocks.map fun b => .block b.1 b.2 1 := by
  induction blocks with
  | nil => rfl
  | cons b blocks ih =>
    rw [List.map_cons, List.flatMap_cons, ih]
    rfl

/-- What `fini` prints is what the counters and the list tell. -/
theorem Agrees.closing {v : Version} {s : Tracer} {x : Audit} {live : Live} (h : Agrees v s x live) :
    ∃ blocks, blocks.Perm live ∧ (blocks.Pairwise fun b b' => b.1 < b'.1) ∧
      (v.fini s).flatMap Report.lines = closing x.allocs x.allocated s.nFreeb blocks := by
  obtain ⟨hallocs, hallocated, hshows, hlist⟩ := h
  cases v with
  | part1 =>
    obtain ⟨-, rfl⟩ := hshows
    refine ⟨[], List.Perm.refl _, List.Pairwise.nil, ?_⟩
    show s.finiPart1.flatMap Report.lines = _
    rw [Tracer.finiPart1, hallocs, hallocated]
    rfl
  | listed part =>
    obtain ⟨blocks, hperm, hsorted, hfini⟩ := hlist.finiFrom_blocks
    refine ⟨blocks, hperm, hsorted, ?_⟩
    show s.fini.flatMap Report.lines = _
    have hmiddle : (finiFrom false s.list.items).flatMap Report.lines =
        if blocks = [] then [] else
          [.blank, .nonfreed, .columns] ++ blocks.map fun b => .block b.1 b.2 1 := by
      rw [hfini]
      split
      · rfl
      · rw [List.flatMap_cons, flatMap_block]
        rfl
    rw [Tracer.fini, hallocs, hallocated, List.flatMap_cons, List.flatMap_append, hmiddle]
    rfl

/-- **The log accounts for the run.**  For any program whose calls may be made, reading the text that
the library has written gives the calls in order with their arguments and results, behind them the
allocated total and the average that these lines add up to, and one line for each block that they leave
live.  The freed total exceeds theirs by what blocks have grown in place; part 1 prints 0 for it, and no
block. -/
theorem log_accounts (v : Version) (a : ℕ) (cs : List Call) (h : AdmittedRun v (init a) [] cs) :
    Accounts v cs (logText (process v a cs)) := by
  have hstart : Agrees v (init a) ⟨0, 0, 0, 0, []⟩ [] := by
    cases v with
    | part1 => exact ⟨rfl, rfl, ⟨rfl, rfl⟩, tracks_init a⟩
    | listed part => exact ⟨rfl, rfl, ⟨rfl, rfl⟩, tracks_init a⟩
  obtain ⟨s, live, hend, hagrees, hcalls⟩ := hstart.run h
  obtain ⟨blocks, hperm, hsorted, hclosing⟩ := hagrees.closing
  refine ⟨(v.run (init a) cs).1, s.nFreeb, live, blocks, ?_, hcalls, hagrees.shows, hperm, hsorted⟩
  have hprocess : process v a cs =
      .start :: ((v.run (init a) cs).1 ++ LinkLab.closing (audit (v.run (init a) cs).1).allocs
        (audit (v.run (init a) cs).1).allocated s.nFreeb blocks) := by
    rw [process, hend]
    exact congrArg (fun lines => LogLine.start :: (_ ++ lines)) hclosing
  rw [← hprocess, logText_eq]
  exact readLines_textFrom 1 _

/-- A block that is freed twice, and one that grows in place and is not freed. -/
theorem log_accounts_grown : Accounts (.listed .part3)
    [.malloc 10 64 2, .malloc 20 32 3, .free 64, .free 64, .realloc 32 50 32 4]
    (logText (process (.listed .part3) 1
      [.malloc 10 64 2, .malloc 20 32 3, .free 64, .free 64, .realloc 32 50 32 4])) :=
  log_accounts (.listed .part3) 1 _ (by decide)

end SystemProgramming.LinkLab
