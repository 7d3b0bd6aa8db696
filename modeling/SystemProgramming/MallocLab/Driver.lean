import SystemProgramming.Library.Folds
import SystemProgramming.MallocLab.TwoRuns

/-!
# The driver that judges a malloc package (`mdriver.c`)

The driver replays a trace against a package three times: `eval_mm_valid` judges it, `eval_mm_util`
measures the heap it needs and `eval_mm_speed` is timed.  A package is any four functions on the
simulated heap, each of which may fail to return.  The range list of `eval_mm_valid` is what it knows
about the payloads that are live.

An evaluation is a loop over the requests that stops where the driver does: at an error it reports, at
`app_error`, at a failed assertion, and where the program's behaviour is not defined.

* `evalMmValid`, `evalMmUtil`, `evalMmSpeed` : the three evaluations.
* `Trace.Legal` : the traces that name blocks as a client may.
* `addRange_ok_iff` : what the range check lets pass.
* `evalMmValid_sound` : what the verdict "valid" says about an arbitrary package.
-/

namespace SystemProgramming.MallocLab

open ByteMemory Holdings Folds

/-! ### Packages and traces -/

/-- A malloc package over the simulated heap; `none` when a call does not return. -/
structure Package where
  mmInit : Heap → Option (ℤ × Heap)
  mmMalloc : ℕ → Heap → Option (ℕ × Heap)
  mmFree : ℕ → Heap → Option Heap
  mmRealloc : ℕ → ℕ → Heap → Option (ℕ × Heap)

/-- The package under test (`mm.c`), whose `find_fit` may make `fuel` iterations. -/
def mmPackage (A : Arena) (fuel : ℕ) : Package where
  mmInit h := some (SystemProgramming.MallocLab.mmInit A h)
  mmMalloc n h := SystemProgramming.MallocLab.mmMalloc A fuel n h
  mmFree p h := some (SystemProgramming.MallocLab.mmFree p h)
  mmRealloc p n h := SystemProgramming.MallocLab.mmRealloc A fuel p n h

/-- A request of a trace (`traceop_t`); `index` and `size` are the 32-bit words read from the file. -/
inductive TraceOp
  | alloc (index size : ℕ)
  | realloc (index size : ℕ)
  | free (index : ℕ)
  deriving DecidableEq

/-- The fields of `trace_t` that the evaluations read; `num_ops` is the number of `ops`. -/
structure Trace where
  numIds : ℕ
  ops : List TraceOp

/-- The entries of `blocks` and of `block_sizes`, the arrays that `read_trace` has allocated; their size
`num_ids * sizeof(char *)` is computed in a 32-bit `size_t`. -/
def Trace.slots (t : Trace) : ℕ := t.numIds * 4 % 2 ^ 32 / 4

/-- What `malloc_error` reports. -/
inductive MallocError
  /-- "mm_init failed." -/
  | initFailed
  /-- "mm_malloc failed." -/
  | mallocFailed
  /-- "mm_realloc failed." -/
  | reallocFailed
  /-- "Payload (%p) not aligned to %d bytes" -/
  | notAligned (lo : ℕ)
  /-- "Payload (%p:%p) lies outside heap (%p:%p)" -/
  | outsideHeap (lo hi heapLo heapHi : ℕ)
  /-- "Payload (%p:%p) overlaps another payload (%p:%p)" -/
  | overlaps (lo hi lo' hi' : ℕ)
  /-- "mm_realloc did not preserve the data from old block" -/
  | notPreserved
  deriving DecidableEq

/-- Why an evaluation does not run to its end. -/
inductive Stop
  /-- `malloc_error` at a request; `eval_mm_valid` returns 0. -/
  | mallocError (opnum : ℕ) (e : MallocError)
  /-- `app_error`: the driver exits. -/
  | appError (msg : String)
  /-- `assert(size > 0)` in `add_range`. -/
  | assertion
  /-- An index outside `blocks` and `block_sizes`. -/
  | outOfBounds
  /-- Overflow of an `int`. -/
  | overflow
  /-- A call of the package that does not return. -/
  | noReturn
  deriving DecidableEq

/-! ### The range list -/

/-- `range_t`: the first and the last byte of a payload. -/
structure Range where
  lo : ℕ
  hi : ℕ
  deriving DecidableEq

namespace Range

/-- The overlap test of `add_range`: an end of the new range lies in `p`. -/
def Meets (r p : Range) : Prop := (p.lo ≤ r.lo ∧ r.lo ≤ p.hi) ∨ (p.lo ≤ r.hi ∧ r.hi ≤ p.hi)

instance (r p : Range) : Decidable (r.Meets p) := by
  unfold Meets
  infer_instance

/-- No byte in common. -/
def Apart (r p : Range) : Prop := r.hi < p.lo ∨ p.hi < r.lo

/-- `p` lies strictly inside `r`. -/
def Encloses (r p : Range) : Prop := r.lo < p.lo ∧ p.hi < r.hi

/-- **The overlap test** passes a range that is apart from the other, and one that encloses it. -/
theorem not_meets_iff {r p : Range} (hr : r.lo ≤ r.hi) :
    ¬ r.Meets p ↔ r.Apart p ∨ r.Encloses p := by
  simp only [Meets, Apart, Encloses]
  omega

end Range

/-- The extent of a payload of `size` bytes at `lo`. -/
def payload (lo size : ℕ) : Range := ⟨lo, lo + size - 1⟩

/-- `mem_heap_lo`. -/
def memHeapLo (A : Arena) : ℕ := A.memStartBrk

/-- `mem_heap_hi`. -/
def memHeapHi (h : Heap) : ℕ := h.memBrk - 1

/-- `mem_heapsize`. -/
def memHeapsize (A : Arena) (h : Heap) : ℕ := h.memBrk - A.memStartBrk

/-- `add_range`. -/
def addRange (A : Arena) (h : Heap) (ranges : List Range) (lo size opnum : ℕ) :
    Except Stop (List Range) :=
  let r := payload lo size
  if toInt32 size ≤ 0 then .error .assertion
  else if lo % 8 ≠ 0 then .error (.mallocError opnum (.notAligned lo))
  else if r.lo < memHeapLo A ∨ memHeapHi h < r.lo ∨ r.hi < memHeapLo A ∨ memHeapHi h < r.hi then
    .error (.mallocError opnum (.outsideHeap r.lo r.hi (memHeapLo A) (memHeapHi h)))
  else
    match ranges.find? fun p => decide (r.Meets p) with
    | some p => .error (.mallocError opnum (.overlaps r.lo r.hi p.lo p.hi))
    | none => .ok (r :: ranges)

/-- `remove_range`: the first range that starts at `lo` is taken out. -/
def removeRange (lo : ℕ) (ranges : List Range) : List Range := ranges.eraseP fun p => p.lo = lo

/-! ### `eval_mm_valid` -/

/-- `memset(p, v, n)`. -/
def Heap.memset (h : Heap) (p v n : ℕ) : Heap :=
  { h with mem := fun a => if p ≤ a ∧ a < p + n then UInt8.ofNat v else h.mem a }

/-- The value of a byte as a `char`, which is signed. -/
def charVal (b : UInt8) : ℤ := if b.toNat < 128 then b.toNat else b.toNat - 256

/-- The variables of `eval_mm_valid`: the heap, the range list, the arrays `blocks` and `block_sizes`
of the trace, and the number of the request. -/
structure Validator where
  heap : Heap
  ranges : List Range
  blocks : ℕ → ℕ
  blockSizes : ℕ → ℕ
  opnum : ℕ

/-- How many bytes `eval_mm_valid` compares after a reallocation to `size` bytes. -/
def comparedSize (size oldsize : ℕ) : ℕ :=
  (if toInt32 size < toInt32 oldsize then toInt32 size else toInt32 oldsize).toNat

/-- The comparison `newp[j] != (index & 0xFF)` finds no difference in the first `n` bytes. -/
def preserved (m : Mem) (newp index n : ℕ) : Bool :=
  (List.range n).all fun j => decide (charVal (m (newp + j)) = (index % 256 : ℕ))

/-- The body of the loop of `eval_mm_valid`. -/
def validStep (A : Arena) (P : Package) (slots : ℕ) (s : Validator) : TraceOp → Except Stop Validator
  | .alloc index size =>
    match P.mmMalloc size s.heap with
    | none => .error .noReturn
    | some (p, h) =>
      if p = 0 then .error (.mallocError s.opnum .mallocFailed)
      else
        match addRange A h s.ranges p size s.opnum with
        | .error e => .error e
        | .ok ranges =>
          if slots ≤ index then .error .outOfBounds
          else .ok ⟨h.memset p index size, ranges, Function.update s.blocks index p,
            Function.update s.blockSizes index size, s.opnum + 1⟩
  | .realloc index size =>
    if slots ≤ index then .error .outOfBounds
    else
      match P.mmRealloc (s.blocks index) size s.heap with
      | none => .error .noReturn
      | some (newp, h) =>
        if newp = 0 then .error (.mallocError s.opnum .reallocFailed)
        else
          match addRange A h (removeRange (s.blocks index) s.ranges) newp size s.opnum with
          | .error e => .error e
          | .ok ranges =>
            if preserved h.mem newp index (comparedSize size (s.blockSizes index)) then
              .ok ⟨h.memset newp index size, ranges, Function.update s.blocks index newp,
                Function.update s.blockSizes index size, s.opnum + 1⟩
            else .error (.mallocError s.opnum .notPreserved)
  | .free index =>
    if slots ≤ index then .error .outOfBounds
    else
      match P.mmFree (s.blocks index) s.heap with
      | none => .error .noReturn
      | some h => .ok { s with
          heap := h, ranges := removeRange (s.blocks index) s.ranges, opnum := s.opnum + 1 }

/-- `eval_mm_valid`, on a heap, `blocks` and `block_sizes` with any old contents; it returns 1 where
the loop runs to its end. -/
def evalMmValid (A : Arena) (P : Package) (t : Trace) (blocks blockSizes : ℕ → ℕ) (h : Heap) :
    Except Stop Validator :=
  match P.mmInit (memResetBrk A h) with
  | none => .error .noReturn
  | some (r, h) =>
    if r < 0 then .error (.mallocError 0 .initFailed)
    else t.ops.foldlM (validStep A P t.slots) ⟨h, [], blocks, blockSizes, 0⟩

/-! ### `eval_mm_util` and `eval_mm_speed` -/

/-- Addition of two `int`. -/
def addInt (a b : ℤ) : Except Stop ℤ :=
  if -2 ^ 31 ≤ a + b ∧ a + b < 2 ^ 31 then .ok (a + b) else .error .overflow

/-- The variables of `eval_mm_util`. -/
structure Meter where
  heap : Heap
  blocks : ℕ → ℕ
  blockSizes : ℕ → ℕ
  totalSize : ℤ
  maxTotalSize : ℤ

/-- `total_size += delta` and the update of `max_total_size`. -/
def Meter.count (s : Meter) (delta : ℤ) : Except Stop Meter :=
  match addInt s.totalSize delta with
  | .error e => .error e
  | .ok total => .ok { s with
      totalSize := total
      maxTotalSize := if total > s.maxTotalSize then total else s.maxTotalSize }

/-- The body of the loop of `eval_mm_util`. -/
def utilStep (P : Package) (slots : ℕ) (s : Meter) : TraceOp → Except Stop Meter
  | .alloc index size =>
    match P.mmMalloc size s.heap with
    | none => .error .noReturn
    | some (p, h) =>
      if p = 0 then .error (.appError "mm_malloc failed in eval_mm_util")
      else if slots ≤ index then .error .outOfBounds
      else Meter.count { s with
          heap := h
          blocks := Function.update s.blocks index p
          blockSizes := Function.update s.blockSizes index size } (toInt32 size)
  | .realloc index newsize =>
    if slots ≤ index then .error .outOfBounds
    else
      match P.mmRealloc (s.blocks index) newsize s.heap with
      | none => .error .noReturn
      | some (newp, h) =>
        if newp = 0 then .error (.appError "mm_realloc failed in eval_mm_util")
        else
          match addInt (toInt32 newsize) (-toInt32 (s.blockSizes index)) with
          | .error e => .error e
          | .ok delta => Meter.count { s with
              heap := h
              blocks := Function.update s.blocks index newp
              blockSizes := Function.update s.blockSizes index newsize } delta
  | .free index =>
    if slots ≤ index then .error .outOfBounds
    else
      match P.mmFree (s.blocks index) s.heap with
      | none => .error .noReturn
      | some h =>
        match addInt s.totalSize (-toInt32 (s.blockSizes index)) with
        | .error e => .error e
        | .ok total => .ok { s with heap := h, totalSize := total }

/-- `eval_mm_util`; the ratio it returns is that of `maxTotalSize` to `mem_heapsize`. -/
def evalMmUtil (A : Arena) (P : Package) (t : Trace) (blocks blockSizes : ℕ → ℕ) (h : Heap) :
    Except Stop Meter :=
  match P.mmInit (memResetBrk A h) with
  | none => .error .noReturn
  | some (r, h) =>
    if r < 0 then .error (.appError "mm_init failed in eval_mm_util")
    else t.ops.foldlM (utilStep P t.slots) ⟨h, blocks, blockSizes, 0, 0⟩

/-- The variables of `eval_mm_speed`. -/
structure Racer where
  heap : Heap
  blocks : ℕ → ℕ

/-- The body of the loop of `eval_mm_speed`. -/
def speedStep (P : Package) (slots : ℕ) (s : Racer) : TraceOp → Except Stop Racer
  | .alloc index size =>
    match P.mmMalloc size s.heap with
    | none => .error .noReturn
    | some (p, h) =>
      if p = 0 then .error (.appError "mm_malloc error in eval_mm_speed")
      else if slots ≤ index then .error .outOfBounds
      else .ok ⟨h, Function.update s.blocks index p⟩
  | .realloc index newsize =>
    if slots ≤ index then .error .outOfBounds
    else
      match P.mmRealloc (s.blocks index) newsize s.heap with
      | none => .error .noReturn
      | some (newp, h) =>
        if newp = 0 then .error (.appError "mm_realloc error in eval_mm_speed")
        else .ok ⟨h, Function.update s.blocks index newp⟩
  | .free index =>
    if slots ≤ index then .error .outOfBounds
    else
      match P.mmFree (s.blocks index) s.heap with
      | none => .error .noReturn
      | some h => .ok { s with heap := h }

/-- `eval_mm_speed`. -/
def evalMmSpeed (A : Arena) (P : Package) (t : Trace) (blocks : ℕ → ℕ) (h : Heap) :
    Except Stop Racer :=
  match P.mmInit (memResetBrk A h) with
  | none => .error .noReturn
  | some (r, h) =>
    if r < 0 then .error (.appError "mm_init failed in eval_mm_speed")
    else t.ops.foldlM (speedStep P t.slots) ⟨h, blocks⟩

/-! ### Legal traces -/

/-- The identifiers that are live after a request, with the sizes asked for. -/
def TraceOp.name (named : List (ℕ × ℕ)) : TraceOp → List (ℕ × ℕ)
  | .alloc index size => (index, size) :: named
  | .realloc index size => (index, size) :: release named index
  | .free index => release named index

/-- The identifiers that are live after the requests `ops`. -/
def namedBy (ops : List TraceOp) : List (ℕ × ℕ) := ops.foldl TraceOp.name []

/-- A request allocates an identifier that the arrays have room for and that is not live, and reallocates
and frees live ones; sizes are 32-bit words. -/
def TraceOp.Legal (slots : ℕ) (named : List (ℕ × ℕ)) : TraceOp → Prop
  | .alloc index size => index < slots ∧ index ∉ named.map Prod.fst ∧ size < 2 ^ 32
  | .realloc index size => index ∈ named.map Prod.fst ∧ size < 2 ^ 32
  | .free index => index ∈ named.map Prod.fst

instance (slots : ℕ) (named : List (ℕ × ℕ)) : DecidablePred (TraceOp.Legal slots named)
  | .alloc .. => inferInstanceAs (Decidable (_ ∧ _ ∧ _))
  | .realloc .. => inferInstanceAs (Decidable (_ ∧ _))
  | .free _ => inferInstanceAs (Decidable (_ ∈ _))

/-- Every request of the trace is legal where it stands. -/
def Trace.Legal (t : Trace) : Prop :=
  ∀ pre op post, t.ops = pre ++ op :: post → op.Legal t.slots (namedBy pre)

theorem Trace.legal_iff {t : Trace} : t.Legal ↔
    ∀ i, ∀ h : i < t.ops.length, (t.ops.get ⟨i, h⟩).Legal t.slots (namedBy (t.ops.take i)) := by
  constructor
  · intro hlegal i h
    refine hlegal (t.ops.take i) _ (t.ops.drop (i + 1)) ?_
    rw [List.get_eq_getElem, List.getElem_cons_drop, List.take_append_drop]
  · intro hall pre op post hsplit
    have hlen : pre.length < t.ops.length := by
      rw [hsplit, List.length_append, List.length_cons]
      omega
    have hop := hall pre.length hlen
    simpa [hsplit] using hop

instance (t : Trace) : Decidable t.Legal := decidable_of_iff _ Trace.legal_iff.symm

theorem namedBy_append (ops : List TraceOp) (op : TraceOp) :
    namedBy (ops ++ [op]) = op.name (namedBy ops) := by
  rw [namedBy, List.foldl_append]
  rfl

/-! ### The range list of a run -/

/-- The range of a live identifier. -/
def extent (blocks : ℕ → ℕ) (e : ℕ × ℕ) : Range := payload (blocks e.1) e.2

theorem toInt32_pos {n : ℕ} (hn : n < 2 ^ 32) : 0 < toInt32 n ↔ 0 < n ∧ n ≤ intMax := by
  have hmax : intMax = 2 ^ 31 - 1 := rfl
  rw [toInt32]
  split <;> omega

theorem toInt32_of_le {n : ℕ} (hn : n ≤ intMax) : toInt32 n = n := by
  have hmax : intMax = 2 ^ 31 - 1 := rfl
  rw [toInt32, if_pos (by omega)]

/-- **`add_range`** passes exactly the payloads of a positive size that are aligned, inside the heap,
and apart from or around every recorded one. -/
theorem addRange_ok_iff {A : Arena} {h : Heap} {ranges ranges' : List Range} {lo size opnum : ℕ}
    (hsize : size < 2 ^ 32) :
    addRange A h ranges lo size opnum = .ok ranges' ↔
      (0 < size ∧ size ≤ intMax) ∧ lo % 8 = 0 ∧ A.memStartBrk ≤ lo ∧
        (payload lo size).hi ≤ memHeapHi h ∧
        (∀ p ∈ ranges, (payload lo size).Apart p ∨ (payload lo size).Encloses p) ∧
        ranges' = payload lo size :: ranges := by
  have hpos := toInt32_pos hsize
  have hlo : (payload lo size).lo = lo := rfl
  have hhi : (payload lo size).hi = lo + size - 1 := rfl
  have hfind : (ranges.find? fun p => decide ((payload lo size).Meets p)) = none ↔
      ∀ p ∈ ranges, ¬ (payload lo size).Meets p := by
    rw [List.find?_eq_none]
    simp only [decide_eq_true_eq]
  rw [addRange]
  split
  · next h0 => exact iff_of_false (by simp) fun hc => absurd (hpos.mpr hc.1) (Int.not_lt.mpr h0)
  · next h0 =>
    have hs := hpos.mp (Int.not_le.mp h0)
    have hmeets : (∀ p ∈ ranges, ¬ (payload lo size).Meets p) ↔
        ∀ p ∈ ranges, (payload lo size).Apart p ∨ (payload lo size).Encloses p :=
      forall₂_congr fun p _ => Range.not_meets_iff (by omega)
    split
    · next halign => exact iff_of_false (by simp) fun hc => halign hc.2.1
    · next halign =>
      split
      · next hout =>
        refine iff_of_false (by simp) fun hc => ?_
        have hin := hc.2.2.1
        have hin' := hc.2.2.2.1
        rw [memHeapLo] at hout
        omega
      · next hin =>
        rw [memHeapLo] at hin
        cases hf : ranges.find? fun p => decide ((payload lo size).Meets p) with
        | some p =>
          refine iff_of_false (by simp) fun hc => ?_
          have hnone := hfind.mpr (hmeets.mpr hc.2.2.2.2.1)
          rw [hf] at hnone
          cases hnone
        | none =>
          have hall := hmeets.mp (hfind.mp hf)
          simp only [Except.ok.injEq]
          constructor
          · rintro rfl
            exact ⟨hs, by omega, by omega, by omega, hall, rfl⟩
          · intro hc
            exact hc.2.2.2.2.2.symm

/-- With one range a start, `remove_range` takes out the range of the identifier. -/
theorem removeRange_map {f : ℕ × ℕ → Range} {named : List (ℕ × ℕ)} {e : ℕ × ℕ} (he : e ∈ named)
    (hkeys : (named.map Prod.fst).Nodup) (hstarts : (named.map fun e => (f e).lo).Nodup) :
    removeRange (f e).lo (named.map f) = (release named e.1).map f := by
  induction named with
  | nil => cases he
  | cons d l ih =>
    obtain ⟨hkey, hkeys⟩ := List.nodup_cons.mp hkeys
    obtain ⟨hstart, hstarts⟩ := List.nodup_cons.mp hstarts
    rw [List.map_cons, removeRange]
    rcases List.mem_cons.mp he with rfl | he
    · rw [List.eraseP_cons_of_pos (by simp), release, List.filter_cons_of_neg (by simp)]
      exact congrArg (List.map f) (release_of_notMem hkey).symm
    · have hne : d.1 ≠ e.1 := fun h => hkey (h ▸ List.mem_map_of_mem he)
      have hne' : (f d).lo ≠ (f e).lo := by
        intro h
        apply hstart
        show (f d).lo ∈ _
        rw [h]
        exact List.mem_map_of_mem (f := fun e => (f e).lo) he
      rw [List.eraseP_cons_of_neg (by simpa using hne'), release,
        List.filter_cons_of_pos (by simpa using hne), List.map_cons]
      exact congrArg _ (ih he hkeys hstarts)

/-- The range list records the live identifiers `l`. -/
structure Recorded (A : Arena) (slots : ℕ) (blocks blockSizes : ℕ → ℕ) (l : List (ℕ × ℕ))
    (ranges : List Range) : Prop where
  listed : ranges = l.map (extent blocks)
  keys : (l.map Prod.fst).Nodup
  sizes : ∀ e ∈ l, e.1 < slots ∧ blockSizes e.1 = e.2 ∧ 0 < e.2 ∧ e.2 ≤ intMax
  apart : ranges.Pairwise fun new old => new.Apart old ∨ new.Encloses old
  inside : ∀ r ∈ ranges, r.lo % 8 = 0 ∧ A.memStartBrk ≤ r.lo ∧ 0 < r.lo

namespace Recorded

variable {A : Arena} {slots : ℕ} {blocks blockSizes : ℕ → ℕ} {l : List (ℕ × ℕ)}
  {ranges ranges' : List Range} {i n : ℕ}

theorem nil (A : Arena) (slots : ℕ) (blocks blockSizes : ℕ → ℕ) :
    Recorded A slots blocks blockSizes [] [] :=
  ⟨rfl, List.nodup_nil, List.forall_mem_nil _, List.Pairwise.nil, List.forall_mem_nil _⟩

/-- No two ranges start at one address. -/
theorem starts (r : Recorded A slots blocks blockSizes l ranges) :
    (l.map fun e => (extent blocks e).lo).Nodup := by
  have hapart := r.apart
  rw [r.listed, List.pairwise_map] at hapart
  refine List.pairwise_map.mpr (hapart.imp_of_mem fun {e f} he hf h => ?_)
  have hepos := (r.sizes e he).2.2.1
  have hfpos := (r.sizes f hf).2.2.1
  simp only [extent, payload, Range.Apart, Range.Encloses] at h ⊢
  omega

/-- `remove_range` at a live identifier. -/
theorem removed (r : Recorded A slots blocks blockSizes l ranges) (he : (i, n) ∈ l) :
    Recorded A slots blocks blockSizes (release l i) (removeRange (blocks i) ranges) := by
  have hsub : (removeRange (blocks i) ranges).Sublist ranges := List.eraseP_sublist
  refine ⟨?_, release_nodup r.keys i, fun e hrel => r.sizes e (List.mem_of_mem_filter hrel),
    r.apart.sublist hsub, fun d hd => r.inside d (hsub.subset hd)⟩
  rw [r.listed]
  exact removeRange_map he r.keys r.starts

/-- `add_range` for a new identifier, and the update of the arrays. -/
theorem added {h : Heap} {lo opnum : ℕ} (r : Recorded A slots blocks blockSizes l ranges)
    (hi : i < slots) (hnew : i ∉ l.map Prod.fst) (hn : n < 2 ^ 32) (hlo : lo ≠ 0)
    (hadd : addRange A h ranges lo n opnum = .ok ranges') :
    Recorded A slots (Function.update blocks i lo) (Function.update blockSizes i n) ((i, n) :: l)
        ranges' ∧ ranges' = payload lo n :: ranges ∧ lo + n - 1 ≤ memHeapHi h := by
  obtain ⟨hpos, halign, hstart, hhi, hapart, rfl⟩ := (addRange_ok_iff hn).mp hadd
  have hother : ∀ e ∈ l, e.1 ≠ i := fun e he hei => hnew (hei ▸ List.mem_map_of_mem he)
  refine ⟨⟨?_, List.nodup_cons.mpr ⟨hnew, r.keys⟩, fun e he => ?_, List.pairwise_cons.mpr
    ⟨hapart, r.apart⟩, fun d hd => ?_⟩, rfl, hhi⟩
  · rw [List.map_cons, extent, Function.update_self, r.listed]
    refine congrArg _ (List.map_congr_left fun e he => ?_)
    rw [extent, extent, Function.update_of_ne (hother e he)]
  · rcases List.mem_cons.mp he with rfl | he
    · exact ⟨hi, Function.update_self .., hpos⟩
    · rw [Function.update_of_ne (hother e he)]
      exact r.sizes e he
  · rcases List.mem_cons.mp hd with rfl | hd
    · exact ⟨halign, hstart, Nat.pos_of_ne_zero hlo⟩
    · exact r.inside d hd

end Recorded

/-! ### An arbitrary package -/

/-- The package never lowers the break, as `mem_sbrk` does not let it. -/
structure Package.Grows (P : Package) : Prop where
  malloc : ∀ n h p h', P.mmMalloc n h = some (p, h') → h.memBrk ≤ h'.memBrk
  free : ∀ p h h', P.mmFree p h = some h' → h.memBrk ≤ h'.memBrk
  realloc : ∀ q n h p h', P.mmRealloc q n h = some (p, h') → h.memBrk ≤ h'.memBrk

theorem charVal_lt (b : UInt8) : charVal b < 128 := by
  have := b.toNat_lt
  rw [charVal]
  split <;> omega

theorem comparedSize_eq {m n : ℕ} (hm : m ≤ intMax) (hn : n ≤ intMax) :
    comparedSize m n = min m n := by
  rw [comparedSize, toInt32_of_le hm, toInt32_of_le hn]
  split <;> omega

/-- A byte of 128 or more never passes the comparison with the signed characters of the block. -/
theorem index_lt_of_preserved {m : Mem} {p index n : ℕ} (h : preserved m p index n = true)
    (hn : 0 < n) : index % 256 < 128 := by
  have h0 := List.all_eq_true.mp h 0 (List.mem_range.mpr hn)
  have hlt := charVal_lt (m (p + 0))
  rw [of_decide_eq_true h0] at hlt
  omega

/-- What `eval_mm_valid` knows after the requests `ops`. -/
structure Judged (A : Arena) (P : Package) (slots : ℕ) (ops : List TraceOp) (v : Validator) :
    Prop where
  recorded : Recorded A slots v.blocks v.blockSizes (namedBy ops) v.ranges
  below : P.Grows → ∀ r ∈ v.ranges, r.hi < v.heap.memBrk
  signed : ∀ i n, .realloc i n ∈ ops → i % 256 < 128
  opnum : v.opnum = ops.length

namespace Judged

variable {A : Arena} {P : Package} {slots : ℕ} {ops : List TraceOp} {v v' : Validator} {i n : ℕ}

/-- A live identifier has an entry. -/
theorem exists_entry (hi : i ∈ (namedBy ops).map Prod.fst) : ∃ k, (i, k) ∈ namedBy ops := by
  obtain ⟨e, he, rfl⟩ := List.mem_map.mp hi
  exact ⟨e.2, he⟩

/-- The ranges are below the break once the new one is. -/
theorem below_cons {h : Heap} {ranges : List Range} {lo : ℕ} (hlo : lo ≠ 0)
    (hhi : lo + n - 1 ≤ memHeapHi h) (hn : 0 < n) (hbelow : ∀ r ∈ ranges, r.hi < h.memBrk) :
    ∀ r ∈ payload lo n :: ranges, r.hi < h.memBrk := by
  intro r hr
  rcases List.mem_cons.mp hr with rfl | hr
  · rw [memHeapHi] at hhi
    show lo + n - 1 < h.memBrk
    omega
  · exact hbelow r hr

theorem realloc_mem_append {o : TraceOp} (h : .realloc i n ∈ ops ++ [o]) :
    .realloc i n ∈ ops ∨ .realloc i n = o := by
  rcases List.mem_append.mp h with h | h
  · exact Or.inl h
  · exact Or.inr (List.mem_singleton.mp h)

/-- **One request.** -/
theorem step {o : TraceOp} (j : Judged A P slots ops v) (hlegal : o.Legal slots (namedBy ops))
    (hstep : validStep A P slots v o = .ok v') : Judged A P slots (ops ++ [o]) v' := by
  cases o with
  | alloc i n =>
    obtain ⟨hi, hnew, hn⟩ := hlegal
    simp only [validStep] at hstep
    cases hm : P.mmMalloc n v.heap with
    | none => simp [hm] at hstep
    | some r =>
      obtain ⟨p, h⟩ := r
      simp only [hm] at hstep
      split at hstep
      · cases hstep
      · next hp =>
        cases hadd : addRange A h v.ranges p n v.opnum with
        | error e => simp [hadd] at hstep
        | ok ranges =>
          simp only [hadd, if_neg (Nat.not_le.mpr hi), Except.ok.injEq] at hstep
          subst hstep
          obtain ⟨hrec, rfl, hhi⟩ := j.recorded.added hi hnew hn hp hadd
          refine ⟨?_, fun hg => ?_, fun k m hk => ?_, ?_⟩
          · rw [namedBy_append]
            exact hrec
          · have hpos := (hrec.sizes (i, n) List.mem_cons_self).2.2.1
            have hle := hg.malloc n v.heap p h hm
            exact below_cons hp hhi hpos fun r hr => (j.below hg r hr).trans_le hle
          · rcases realloc_mem_append hk with hk | hk
            · exact j.signed k m hk
            · cases hk
          · simp [j.opnum]
  | realloc i n =>
    obtain ⟨hi, hn⟩ := hlegal
    obtain ⟨k, he⟩ := exists_entry hi
    have hin := (j.recorded.sizes _ he).1
    simp only [validStep, if_neg (Nat.not_le.mpr hin)] at hstep
    cases hm : P.mmRealloc (v.blocks i) n v.heap with
    | none => simp [hm] at hstep
    | some r =>
      obtain ⟨p, h⟩ := r
      simp only [hm] at hstep
      split at hstep
      · cases hstep
      · next hp =>
        cases hadd : addRange A h (removeRange (v.blocks i) v.ranges) p n v.opnum with
        | error e => simp [hadd] at hstep
        | ok ranges =>
          simp only [hadd] at hstep
          split at hstep
          · next hcmp =>
            cases hstep
            obtain ⟨hrec, rfl, hhi⟩ := (j.recorded.removed he).added hin
              (key_notMem_release (namedBy ops) i) hn hp hadd
            have hsize := (hrec.sizes (i, n) List.mem_cons_self).2.2
            have hold := (j.recorded.sizes _ he).2
            refine ⟨?_, fun hg => ?_, fun d m hd => ?_, ?_⟩
            · rw [namedBy_append]
              exact hrec
            · have hle := hg.realloc (v.blocks i) n v.heap p h hm
              exact below_cons hp hhi hsize.1 fun r hr =>
                (j.below hg r (List.eraseP_sublist.subset hr)).trans_le hle
            · rcases realloc_mem_append hd with hd | hd
              · exact j.signed d m hd
              · cases hd
                rw [hold.1, comparedSize_eq hsize.2 hold.2.2] at hcmp
                exact index_lt_of_preserved hcmp (by omega)
            · simp [j.opnum]
          · cases hstep
  | free i =>
    obtain ⟨k, he⟩ := exists_entry hlegal
    have hin := (j.recorded.sizes _ he).1
    simp only [validStep, if_neg (Nat.not_le.mpr hin)] at hstep
    cases hm : P.mmFree (v.blocks i) v.heap with
    | none => simp [hm] at hstep
    | some h =>
      simp only [hm, Except.ok.injEq] at hstep
      subst hstep
      refine ⟨?_, fun hg r hr => ?_, fun d m hd => ?_, ?_⟩
      · rw [namedBy_append]
        exact j.recorded.removed he
      · have hle := hg.free (v.blocks i) v.heap h hm
        exact (j.below hg r (List.eraseP_sublist.subset hr)).trans_le hle
      · rcases realloc_mem_append hd with hd | hd
        · exact j.signed d m hd
        · cases hd
      · simp [j.opnum]

/-- **A run of requests.** -/
theorem run {t : Trace} (hlegal : t.Legal) (hstart : Judged A P t.slots [] v)
    (hrun : t.ops.foldlM (validStep A P t.slots) v = .ok v') : Judged A P t.slots t.ops v' := by
  refine foldlM_invariant (P := fun ops v => Judged A P t.slots ops v) hstart ?_ hrun
  intro pre op post s₁ s₂ hsplit hj hstep
  exact hj.step (hlegal pre op post hsplit) hstep

end Judged

/-- `eval_mm_valid` enters its loop after an `mm_init` that succeeds. -/
theorem evalMmValid_eq_ok {A : Arena} {P : Package} {t : Trace} {blocks blockSizes : ℕ → ℕ}
    {h : Heap} {v : Validator} (hok : evalMmValid A P t blocks blockSizes h = .ok v) :
    ∃ r h₀, P.mmInit (memResetBrk A h) = some (r, h₀) ∧ ¬ r < 0 ∧
      t.ops.foldlM (validStep A P t.slots) ⟨h₀, [], blocks, blockSizes, 0⟩ = .ok v := by
  rw [evalMmValid] at hok
  cases hinit : P.mmInit (memResetBrk A h) with
  | none => simp [hinit] at hok
  | some r =>
    simp only [hinit] at hok
    split at hok
    · cases hok
    · next hr => exact ⟨r.1, r.2, rfl, hr, hok⟩

/-- **Soundness of the verdict.**  Let `eval_mm_valid` return 1 for any package on a legal trace.  The
range list then holds one range for each live identifier: aligned, of positive size, inside the heap,
and each either apart from every older one or strictly around it, which the overlap test lets pass.
No identifier whose low byte is 128 or more was reallocated. -/
theorem evalMmValid_sound (A : Arena) (P : Package) (t : Trace) (blocks blockSizes : ℕ → ℕ) (h : Heap)
    (v : Validator) (hlegal : t.Legal) (hok : evalMmValid A P t blocks blockSizes h = .ok v) :
    v.ranges = (namedBy t.ops).map (extent v.blocks) ∧
      (∀ e ∈ namedBy t.ops, v.blocks e.1 % 8 = 0 ∧ A.memStartBrk ≤ v.blocks e.1 ∧
        0 < e.2 ∧ e.2 ≤ intMax ∧ v.blockSizes e.1 = e.2 ∧
        (P.Grows → v.blocks e.1 + e.2 ≤ v.heap.memBrk)) ∧
      (v.ranges.Pairwise fun new old => new.Apart old ∨ new.Encloses old) ∧
      ∀ i n, .realloc i n ∈ t.ops → i % 256 < 128 := by
  obtain ⟨r, h₀, -, -, hrun⟩ := evalMmValid_eq_ok hok
  have hstart : Judged A P t.slots [] ⟨h₀, [], blocks, blockSizes, 0⟩ :=
    ⟨.nil A t.slots blocks blockSizes, fun _ => List.forall_mem_nil _, by simp, rfl⟩
  have j := Judged.run hlegal hstart hrun
  refine ⟨j.recorded.listed, fun e he => ?_, j.recorded.apart, j.signed⟩
  have hmem : extent v.blocks e ∈ v.ranges := by
    rw [j.recorded.listed]
    exact List.mem_map_of_mem he
  obtain ⟨halign, hlo, -⟩ := j.recorded.inside _ hmem
  obtain ⟨-, hsize, hpos, hmax⟩ := j.recorded.sizes e he
  refine ⟨halign, hlo, hpos, hmax, hsize, fun hg => ?_⟩
  have hbelow : v.blocks e.1 + e.2 - 1 < v.heap.memBrk := j.below hg _ hmem
  omega

/-- Three blocks; one is reallocated, and one freed before the third is allocated. -/
def sampleTrace : Trace :=
  ⟨3, [.alloc 0 100, .alloc 1 200, .realloc 0 300, .free 1, .alloc 2 150]⟩

/-- The sample trace, on `mm.c`. -/
theorem evalMmValid_sound_sample : ∃ v,
    evalMmValid lowArena (mmPackage lowArena 4) sampleTrace (fun _ => 0) (fun _ => 0)
        lowArena.zeroed = .ok v ∧
      v.ranges = [(2, 150), (0, 300)].map (extent v.blocks) ∧
      (∀ e ∈ [(2, 150), (0, 300)], v.blocks e.1 % 8 = 0 ∧ lowArena.memStartBrk ≤ v.blocks e.1 ∧
        0 < e.2 ∧ e.2 ≤ intMax ∧ v.blockSizes e.1 = e.2 ∧
        ((mmPackage lowArena 4).Grows → v.blocks e.1 + e.2 ≤ v.heap.memBrk)) ∧
      (v.ranges.Pairwise fun new old => new.Apart old ∨ new.Encloses old) ∧
      ∀ i n, .realloc i n ∈ sampleTrace.ops → i % 256 < 128 := by
  have hsome : ((evalMmValid lowArena (mmPackage lowArena 4) sampleTrace (fun _ => 0)
      (fun _ => 0) lowArena.zeroed).map Validator.opnum).toOption = some 5 := by
    decide +kernel
  cases hok : evalMmValid lowArena (mmPackage lowArena 4) sampleTrace (fun _ => 0)
      (fun _ => 0) lowArena.zeroed with
  | error e =>
    rw [hok] at hsome
    cases hsome
  | ok v => exact ⟨v, rfl, evalMmValid_sound lowArena _ sampleTrace _ _ _ v (by decide) hok⟩

end SystemProgramming.MallocLab
