import SystemProgramming.Library.Transition
import SystemProgramming.LinkLab.MemTrace

/-!
# The tracer's final report (`fini`, part 3)

When the program ends, `fini` prints the counters and then every item of the list whose reference
count is positive.  Part 3 ignores a `free` of a pointer that is not live, so that the traced program
may call `free` with anything but `NULL`.

* `tracerRuns` : the runs of the traced program and of the wrappers of part 3.
* `Tracks.free_ignored` : a `free` of a block that is not live changes neither the list nor a counter.
* `fini_reports_live` : the blocks that are printed are the live ones, in ascending order.
-/

namespace SystemProgramming.LinkLab

open Holdings Transition

/-! ### `fini` -/

/-- What `fini` prints. -/
inductive Report
  /-- `LOG_STATISTICS` -/
  | statistics (allocTotal allocAvg freeTotal : UInt64)
  /-- `LOG_NONFREED_START` -/
  | nonfreedStart
  /-- `LOG_BLOCK` -/
  | block (ptr : ℕ) (size : UInt64) (cnt : ℤ)
  /-- `LOG_STOP` -/
  | stop
  deriving DecidableEq

/-- The loop of `fini`, where `started` is `did_print_start`. -/
def finiFrom : Bool → List Item → List Report
  | _, [] => []
  | started, curr :: rest =>
    if curr.cnt > 0 then
      (if started then [] else [.nonfreedStart]) ++
        .block curr.ptr curr.size curr.cnt :: finiFrom true rest
    else finiFrom started rest

/-- `fini`; `n_alloc` is a signed `long`. -/
def Tracer.fini (s : Tracer) : List Report :=
  let nAlloc := s.nMalloc + s.nCalloc + s.nRealloc
  let avgAllocb := if nAlloc.toInt64 > 0 then s.nAllocb / nAlloc else 0
  .statistics s.nAllocb avgAllocb s.nFreeb :: (finiFrom false s.list.items ++ [.stop])

/-- The items `fini` prints. -/
def nonfreed (items : List Item) : List Item := items.filter fun i => 0 < i.cnt

/-- The line `fini` prints for an item. -/
def Item.line (i : Item) : Report := .block i.ptr i.size i.cnt

theorem nonfreed_cons_of_pos {i : Item} (items : List Item) (h : i.cnt > 0) :
    nonfreed (i :: items) = i :: nonfreed items :=
  List.filter_cons_of_pos (decide_eq_true h)

theorem nonfreed_cons_of_not {i : Item} (items : List Item) (h : ¬ i.cnt > 0) :
    nonfreed (i :: items) = nonfreed items :=
  List.filter_cons_of_neg (by rwa [decide_eq_true_eq])

/-- Once the heading is printed, the loop prints a line for each item that is left. -/
theorem finiFrom_started (items : List Item) :
    finiFrom true items = (nonfreed items).map Item.line := by
  induction items with
  | nil => rfl
  | cons curr rest ih =>
    rw [finiFrom]
    by_cases h : curr.cnt > 0
    · rw [if_pos h, nonfreed_cons_of_pos rest h, ih]
      rfl
    · rw [if_neg h, nonfreed_cons_of_not rest h, ih]

/-- Before that, it prints the heading first if there is a line to print. -/
theorem finiFrom_eq (items : List Item) : finiFrom false items =
    if nonfreed items = [] then [] else .nonfreedStart :: (nonfreed items).map Item.line := by
  induction items with
  | nil => rfl
  | cons curr rest ih =>
    rw [finiFrom]
    by_cases h : curr.cnt > 0
    · rw [if_pos h, nonfreed_cons_of_pos rest h, if_neg (List.cons_ne_nil _ _), finiFrom_started]
      rfl
    · rw [if_neg h, nonfreed_cons_of_not rest h, ih]

/-! ### Runs -/

/-- Every libc call succeeds and hands out no live address, except that `realloc` may return its
argument; `realloc` is called with live pointers and `free` with any but `NULL`. -/
def Call.Accepted (s : Tracer) (live : Live) : Call → Prop
  | free ptr => ptr ≠ 0
  | c => c.Legal s live

instance (s : Tracer) (live : Live) : (c : Call) → Decidable (c.Accepted s live)
  | .malloc size res a => inferInstanceAs (Decidable (Call.Legal s live (.malloc size res a)))
  | .calloc nmemb size res a =>
    inferInstanceAs (Decidable (Call.Legal s live (.calloc nmemb size res a)))
  | .realloc ptr size res a =>
    inferInstanceAs (Decidable (Call.Legal s live (.realloc ptr size res a)))
  | .free ptr => inferInstanceAs (Decidable (ptr ≠ 0))

/-- The runs of the traced program from `init`, with its live blocks and their sizes. -/
def tracerRuns : System (Tracer × Live) Call where
  init x := ∃ a, x = (init a, [])
  step x c x' := c.Accepted x.1 x.2 ∧ c.exec .part3 x.1 = some x'.1 ∧ x'.2 = c.settle x.2

/-- A `free` of a block that is not live is refused. -/
theorem Tracks.free_ignored {s : Tracer} {live : Live} {p : ℕ} (t : Tracks s.list live) (hp : p ≠ 0)
    (hdead : p ∉ live.map Prod.fst) : ∃ notice,
      s.freePart3 p = some { s with log := s.log ++ [notice] } := by
  rw [Tracer.freePart3_eq t.wellFormed hp]
  cases hc : lookup p s.list.items with
  | none => exact ⟨.illFree, rfl⟩
  | some c => exact ⟨.doubleFree, if_pos (t.freed p c hc hdead)⟩

/-- **One accepted call** returns and keeps the list true. -/
theorem Call.accepted_spec {c : Call} {s : Tracer} {live : Live} (t : Tracks s.list live)
    (h : c.Accepted s live) : ∃ s', c.exec .part3 s = some s' ∧ Tracks s'.list (c.settle live) := by
  by_cases hlegal : c.Legal s live
  · obtain ⟨s', hexec, ht, _⟩ := Call.exec_spec .part3 t hlegal
    exact ⟨s', hexec, ht⟩
  · cases c with
    | malloc | calloc | realloc => exact absurd h hlegal
    | free ptr =>
      obtain ⟨notice, hfree⟩ := t.free_ignored h hlegal
      refine ⟨_, hfree, ?_⟩
      show Tracks s.list (release live ptr)
      rw [release_of_notMem hlegal]
      exact t

/-- **The run lemma.** -/
theorem reachable_tracks {x : Tracer × Live} (hx : tracerRuns.Reachable x) :
    Tracks x.1.list x.2 := by
  refine hx.invariant (P := fun x => Tracks x.1.list x.2) ?_ ?_
  · rintro x ⟨a, rfl⟩
    exact tracks_init a
  · intro x c x' t hstep
    obtain ⟨hc, hexec, hlive⟩ := hstep
    obtain ⟨s', hexec', ht⟩ := Call.accepted_spec t hc
    obtain rfl := Option.some.inj (hexec'.symm.trans hexec)
    rw [hlive]
    exact ht

/-! ### The blocks that are printed -/

namespace Tracks

variable {l : MemList} {live : Live} {i : Item}

/-- A printed item describes a live block and its count is 1. -/
theorem nonfreed_live (t : Tracks l live) (hi : i ∈ nonfreed l.items) :
    (i.ptr, i.size) ∈ live ∧ i.cnt = 1 := by
  obtain ⟨hmem, hcnt⟩ := List.mem_filter.mp hi
  have hpos : 0 < i.cnt := by simpa using hcnt
  have hlook := lookup_of_mem t.sorted hmem
  have hlive : i.ptr ∈ live.map Prod.fst := by
    by_contra hdead
    rw [t.freed i.ptr i hlook hdead] at hpos
    exact lt_irrefl _ hpos
  obtain ⟨⟨p, n⟩, hb, hp⟩ := List.mem_map.mp hlive
  obtain ⟨c, hc, hsize, hone⟩ := t.recorded p n hb
  rw [show p = i.ptr from hp, hlook, Option.some.injEq] at hc
  subst hc
  refine ⟨?_, hone⟩
  rw [hsize, ← show p = i.ptr from hp]
  exact hb

/-- A live block is printed. -/
theorem live_nonfreed {p : ℕ} {n : UInt64} (t : Tracks l live) (hb : (p, n) ∈ live) :
    ∃ i ∈ nonfreed l.items, (i.ptr, i.size) = (p, n) := by
  obtain ⟨c, hc, hsize, hone⟩ := t.recorded p n hb
  obtain ⟨hmem, hp⟩ := lookup_some hc
  refine ⟨c, List.mem_filter.mpr ⟨hmem, ?_⟩, by rw [hp, hsize]⟩
  rw [hone]
  rfl

/-- The blocks that `fini` prints. -/
theorem finiFrom_blocks (t : Tracks l live) :
    ∃ blocks : Live, blocks.Perm live ∧ (blocks.Pairwise fun b b' => b.1 < b'.1) ∧
      finiFrom false l.items = if blocks = [] then [] else
        .nonfreedStart :: blocks.map fun b => .block b.1 b.2 1 := by
  have hsorted : (nonfreed l.items).Pairwise fun i j => i.ptr < j.ptr := t.sorted.filter _
  have hascending : ((nonfreed l.items).map fun i => (i.ptr, i.size)).Pairwise
      fun b b' => b.1 < b'.1 := List.pairwise_map.mpr hsorted
  have hnodup : ((nonfreed l.items).map fun i => (i.ptr, i.size)).Nodup := by
    refine hascending.imp fun {b b'} hlt he => ?_
    rw [he] at hlt
    exact lt_irrefl _ hlt
  refine ⟨_, ?_, hascending, ?_⟩
  · refine (List.perm_ext_iff_of_nodup hnodup (List.Nodup.of_map Prod.fst t.keys)).mpr fun b => ?_
    constructor
    · intro hb
      obtain ⟨i, hi, rfl⟩ := List.mem_map.mp hb
      exact (t.nonfreed_live hi).1
    · intro hb
      obtain ⟨i, hi, he⟩ := t.live_nonfreed hb
      exact List.mem_map.mpr ⟨i, hi, he⟩
  · have hlines : (nonfreed l.items).map Item.line =
        ((nonfreed l.items).map fun i => (i.ptr, i.size)).map fun b => .block b.1 b.2 1 := by
      rw [List.map_map]
      refine List.map_congr_left fun i hi => ?_
      show Report.block i.ptr i.size i.cnt = .block i.ptr i.size 1
      rw [(t.nonfreed_live hi).2]
    rw [finiFrom_eq, hlines]
    simp only [List.map_eq_nil_iff]

end Tracks

/-- **The report of part 3.**  After any run every call that may follow returns, and the blocks `fini`
prints are the live ones, each once, in ascending order, with their sizes and the reference count 1,
under a heading that is printed when there is one at all. -/
theorem fini_reports_live (s : Tracer) (live : Live) (h : tracerRuns.Reachable (s, live)) :
    (∀ c : Call, c.Accepted s live → ∃ s', c.exec .part3 s = some s') ∧
      ∃ blocks : Live, blocks.Perm live ∧ (live.map Prod.fst).Nodup ∧
        blocks.Pairwise (fun b b' => b.1 < b'.1) ∧
        ∃ avg, s.fini = .statistics s.nAllocb avg s.nFreeb ::
          ((if blocks = [] then [] else
            .nonfreedStart :: blocks.map fun b => .block b.1 b.2 1) ++ [.stop]) := by
  have t : Tracks s.list live := reachable_tracks h
  obtain ⟨blocks, hperm, hascending, hfini⟩ := t.finiFrom_blocks
  refine ⟨fun c hc => ?_, blocks, hperm, t.keys, hascending,
    _, congrArg (List.cons _) (congrArg (· ++ [Report.stop]) hfini)⟩
  obtain ⟨s', hexec, _⟩ := Call.accepted_spec t hc
  exact ⟨s', hexec⟩

/-- A block that is freed twice, a pointer that was never allocated, and a block that is extended in
place. -/
theorem fini_reports_live_mixed : ∃ s avg, tracerRuns.Reachable (s, [(32, 20)]) ∧ s.fini =
    [.statistics 42 avg 30, .nonfreedStart, .block 32 20 1, .stop] := by
  have h₀ : tracerRuns.Reachable (init 1, []) := .init ⟨1, rfl⟩
  have h₁ : tracerRuns.Reachable (_, [(64, 10)]) :=
    h₀.step (a := .malloc 10 64 2) ⟨by decide, rfl, rfl⟩
  have h₂ : tracerRuns.Reachable (_, [(32, 12), (64, 10)]) :=
    h₁.step (a := .calloc 3 4 32 3) ⟨by decide, rfl, rfl⟩
  have h₃ : tracerRuns.Reachable (_, [(32, 12)]) := h₂.step (a := .free 64) ⟨by decide, rfl, rfl⟩
  have h₄ : tracerRuns.Reachable (_, [(32, 12)]) := h₃.step (a := .free 64) ⟨by decide, rfl, rfl⟩
  have h₅ : tracerRuns.Reachable (_, [(32, 12)]) := h₄.step (a := .free 7) ⟨by decide, rfl, rfl⟩
  have h₆ : tracerRuns.Reachable (_, [(32, 20)]) :=
    h₅.step (a := .realloc 32 20 32 4) ⟨by decide, rfl, rfl⟩
  obtain ⟨_, blocks, hperm, _, _, avg, hfini⟩ := fini_reports_live _ _ h₆
  obtain rfl := List.perm_singleton.mp hperm
  exact ⟨_, avg, h₆, hfini⟩

end SystemProgramming.LinkLab
