import SystemProgramming.Library.Loops
import SystemProgramming.MallocLab.Requests

/-!
# The two walks over the heap

The loops with which `mm_check` goes through the heap: by `NEXT_BLKP` from the prologue, and by
`NEXT_FREE_BLKP` from the head of the free list.

* `blockWalk`, `freeWalk` : the pointers a walk visits and the pointer at which it stops.
* `Rep.blockWalk_eq` : the block walk visits the blocks of the tiling and stops at the break.
* `Rep.freeWalk_eq` : the free walk visits the listed blocks and stops at the prologue.
-/

namespace SystemProgramming.MallocLab

open ByteMemory LinkedList Loops

/-- `for (bp = ...; GET_SIZE(HDRP(bp)) > 0; bp = NEXT_BLKP(bp))`, with at most `fuel` tests. -/
def blockWalk (m : Mem) : ℕ → ℕ → Option (List ℕ × ℕ)
  | 0, _ => none
  | fuel + 1, bp =>
    if getSize m (hdrp bp) > 0 then
      (blockWalk m fuel (nextBlkp m bp)).map fun r => (bp :: r.1, r.2)
    else some ([], bp)

/-- `for (bp = ...; NEXT_FREE_BLKP(bp) != NULL; bp = NEXT_FREE_BLKP(bp))`, with at most `fuel`
tests. -/
def freeWalk (m : Mem) : ℕ → ℕ → Option (List ℕ × ℕ)
  | 0, _ => none
  | fuel + 1, bp =>
    if nextFreeBlkp m bp ≠ 0 then
      (freeWalk m fuel (nextFreeBlkp m bp)).map fun r => (bp :: r.1, r.2)
    else some ([], bp)

/-- The block walk is the walk of its loop. -/
theorem blockWalk_eq_visit (m : Mem) (fuel bp : ℕ) : blockWalk m fuel bp =
    visit (fun bp => decide (getSize m (hdrp bp) > 0)) (nextBlkp m) fuel bp := by
  induction fuel generalizing bp with
  | zero => rfl
  | succ fuel ih =>
    rw [blockWalk, visit, ih]
    simp only [decide_eq_true_eq]

/-- The free walk is the walk of its loop. -/
theorem freeWalk_eq_visit (m : Mem) (fuel bp : ℕ) : freeWalk m fuel bp =
    visit (fun bp => decide (nextFreeBlkp m bp ≠ 0)) (nextFreeBlkp m) fuel bp := by
  induction fuel generalizing bp with
  | zero => rfl
  | succ fuel ih =>
    rw [freeWalk, visit, ih]
    simp only [decide_eq_true_eq]

/-- Two block walks from one block are the same walk. -/
theorem blockWalk_unique {m : Mem} {fuel fuel' bp : ℕ} {r r' : List ℕ × ℕ}
    (h : blockWalk m fuel bp = some r) (h' : blockWalk m fuel' bp = some r') : r = r' := by
  rw [blockWalk_eq_visit] at h h'
  exact visit_unique h h'

/-- A run of tagged blocks that ends at a zero-size header is walked block by block. -/
theorem blockWalk_tiles {m : Mem} {bs : List Block} {p q : ℕ} (ht : Tiles p bs q)
    (htag : ∀ b ∈ bs, Tagged m b) (hq : getSize m (hdrp q) = 0) {fuel : ℕ}
    (hfuel : bs.length < fuel) : blockWalk m fuel p = some (bs.map Block.addr, q) := by
  induction bs generalizing p fuel with
  | nil =>
    obtain rfl : p = q := ht
    cases fuel with
    | zero => simp at hfuel
    | succ fuel => simp [blockWalk, hq]
  | cons b bs ih =>
    obtain ⟨rfl, hrest⟩ := ht
    cases fuel with
    | zero => simp at hfuel
    | succ fuel =>
      have hsize : getSize m (hdrp b.addr) = b.size :=
        getSize_of_tag (htag b List.mem_cons_self).1
      have hnext : nextBlkp m b.addr = b.stop := by
        rw [nextBlkp_def, Block.stop]
        exact congrArg (b.addr + ·) hsize
      have hpos : getSize m (hdrp b.addr) > 0 := by
        have := b.size_ge
        omega
      have hlt : bs.length < fuel := by
        rw [List.length_cons] at hfuel
        omega
      have hgo := ih hrest (fun c hc => htag c (List.mem_cons_of_mem _ hc)) hlt
      rw [blockWalk, if_pos hpos, hnext, hgo]
      rfl

/-- More iterations do not change the free walk. -/
theorem freeWalk_mono {m : Mem} {fuel fuel' bp : ℕ} {r : List ℕ × ℕ} (hle : fuel ≤ fuel')
    (h : freeWalk m fuel bp = some r) : freeWalk m fuel' bp = some r := by
  rw [freeWalk_eq_visit] at h ⊢
  exact visit_mono hle h

/-- A linked segment is walked node by node up to its last node. -/
theorem freeWalk_linked {m : Mem} {l : List ℕ} {last : ℕ} {p : Option ℕ}
    (hl : Linked (nextFree m) (prevFree m) p (l ++ [last])) {fuel bp : ℕ} (hfuel : l.length < fuel)
    (hbp : (l ++ [last]).head? = some bp) : freeWalk m fuel bp = some (l, last) := by
  induction l generalizing p fuel bp with
  | nil =>
    obtain rfl : last = bp := by simpa using hbp
    cases fuel with
    | zero => simp at hfuel
    | succ fuel =>
      have hnext : nextFreeBlkp m last = 0 := ptr_eq_none.mp hl.2.1
      simp [freeWalk, hnext]
  | cons x l ih =>
    obtain rfl : x = bp := by simpa using hbp
    cases fuel with
    | zero => simp at hfuel
    | succ fuel =>
      obtain ⟨_, hnext, hrest⟩ := hl
      obtain ⟨y, hy⟩ : ∃ y, (l ++ [last]).head? = some y := by
        cases l with
        | nil => exact ⟨last, rfl⟩
        | cons z l => exact ⟨z, rfl⟩
      obtain ⟨hxy, hne⟩ := ptr_eq_some.mp (hnext.trans hy)
      have hlt : l.length < fuel := by
        rw [List.length_cons] at hfuel
        omega
      have hgo := ih hrest hlt hy
      rw [freeWalk, if_pos hne, hxy, hgo]
      rfl

/-- The stored back pointers of a linked segment: each node's predecessor, `NULL` before the first. -/
theorem prevFreeBlkp_map {m : Mem} {l : List ℕ} {p last : ℕ}
    (hl : Linked (nextFree m) (prevFree m) (ptr p) (l ++ [last])) (hpos : ∀ x ∈ l, x ≠ 0) :
    (l ++ [last]).map (prevFreeBlkp m) = p :: l := by
  induction l generalizing p with
  | nil => simp [ptr_inj hl.1]
  | cons x l ih =>
    obtain ⟨hprev, _, hrest⟩ := hl
    rw [← ptr_of_ne (hpos x List.mem_cons_self)] at hrest
    rw [List.cons_append, List.map_cons, ptr_inj hprev,
      ih hrest fun y hy => hpos y (List.mem_cons_of_mem _ hy)]

namespace Rep

variable {A : Arena} {h : Heap} {bs : List Block} {fl : List ℕ}

theorem blockWalk_eq (r : Rep A h bs fl) {fuel : ℕ} (hfuel : bs.length < fuel) :
    blockWalk h.mem fuel (A.memStartBrk + 8) = some (bs.map Block.addr, h.memBrk) :=
  blockWalk_tiles r.tiles r.tagged r.getSize_epilogue hfuel

theorem freeWalk_eq (r : Rep A h bs fl) {fuel : ℕ} (hfuel : fl.length < fuel) :
    freeWalk h.mem fuel h.freelistHead = some (fl, A.prologue.addr) :=
  freeWalk_linked r.links hfuel r.head

/-- Whatever the number of iterations, a walk that stops has visited the free list. -/
theorem freeWalk_some (r : Rep A h bs fl) {fuel : ℕ} {w : List ℕ × ℕ}
    (hw : freeWalk h.mem fuel h.freelistHead = some w) : w = (fl, A.prologue.addr) := by
  have h1 := r.freeWalk_eq (by omega : fl.length < fuel + fl.length + 1)
  have h2 := freeWalk_mono (by omega : fuel ≤ fuel + fl.length + 1) hw
  exact Option.some.inj (h2.symm.trans h1)

end Rep

end SystemProgramming.MallocLab
