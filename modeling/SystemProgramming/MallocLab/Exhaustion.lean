import SystemProgramming.MallocLab.BlockLists

/-!
# When `mm_malloc` and `mm_realloc` return `NULL`

`extend_heap` fails before it writes, `mm_malloc` passes the failure on and `mm_realloc` returns before
it copies or frees.

* `NoRoom` : no free block of the block walk fits and the break cannot move far enough.
* `null_iff_noRoom` : exactly then a call of a run returns `NULL`, and it leaves everything alone.
-/

namespace SystemProgramming.MallocLab

open ByteMemory Transition

/-- `bp` is a free block of the block walk. -/
def Heap.FreeBlock (h : Heap) (bp : ℕ) : Prop :=
  ∃ fuel walk stop, blockWalk h.mem fuel h.heapListp = some (walk, stop) ∧ bp ∈ walk ∧
    getAlloc h.mem (hdrp bp) = 0

/-- There is no room for a request of `n` bytes: every free block is smaller than the adjusted size,
and the break can not move by that or by `CHUNKSIZE`, whichever is larger. -/
structure NoRoom (A : Arena) (h : Heap) (n : ℕ) : Prop where
  small : ∀ bp, h.FreeBlock bp → getSize h.mem (hdrp bp) < adjust n
  full : A.memMaxAddr < h.memBrk + max (adjust n) chunksize ∨ intMax < max (adjust n) chunksize

theorem growth_eq_max (n : ℕ) : growth n = max (adjust n) chunksize := by
  rw [growth]
  split <;> omega

namespace WellFormed

variable {A : Arena} {h h' : Heap} {bs : List Block} {fl : List ℕ} {bp n : ℕ}

/-- The free blocks of the walk are the free blocks of the invariant. -/
theorem freeBlock_iff (w : WellFormed A h bs fl) :
    h.FreeBlock bp ↔ ∃ b ∈ bs, b.addr = bp ∧ b.alloc = false := by
  obtain ⟨fuel, hwalk⟩ := w.reads.blocks
  constructor
  · rintro ⟨fuel', walk, stop, hwalk', hbp, hzero⟩
    obtain ⟨rfl, -⟩ := Prod.mk.inj (blockWalk_unique hwalk' hwalk)
    obtain ⟨b, hb, rfl⟩ := List.mem_map.mp hbp
    rw [w.rep.getAlloc_hdrp hb] at hzero
    exact ⟨b, hb, rfl, by simpa using hzero⟩
  · rintro ⟨b, hb, rfl, hfree⟩
    refine ⟨fuel, _, _, hwalk, List.mem_map_of_mem hb, ?_⟩
    rw [w.rep.getAlloc_hdrp hb, hfree]
    rfl

/-- **`mm_malloc` returns `NULL`** exactly when there is no room, and then it has changed nothing. -/
theorem mmMalloc_null {fuel p : ℕ} (w : WellFormed A h bs fl) (h0 : n ≠ 0)
    (hret : mmMalloc A fuel n h = some (p, h')) :
    (p = 0 ↔ NoRoom A h n) ∧ (p = 0 → h' = h) := by
  rcases w.mmMalloc_cases h0 hret with ⟨b, hb, -, hfree, hsize, rfl, -⟩ |
    ⟨hzero, ⟨hfit, -⟩ | ⟨hfull, rfl, rfl⟩⟩
  · -- a free block fits
    have hne : b.addr ≠ 0 := by
      have := w.rep.bounds hb
      omega
    refine ⟨⟨fun h => absurd h hne, fun hno => ?_⟩, fun h => absurd h hne⟩
    have hsmall := hno.small b.addr (w.freeBlock_iff.mpr ⟨b, hb, rfl, hfree⟩)
    rw [w.rep.getSize_hdrp hb] at hsmall
    omega
  · -- the break moves
    have hne := w.mmMalloc_ne_zero h0 hfit hret
    refine ⟨⟨fun h => absurd h hne, fun hno => ?_⟩, fun h => absurd h hne⟩
    have hint := w.rep.lt_int hfit
    have hmax : intMax = 2 ^ 31 - 1 := rfl
    have hfull := hno.full
    rw [← growth_eq_max] at hfull
    omega
  · refine ⟨⟨fun _ => ⟨fun bp hbp => ?_, Or.inl ?_⟩, fun _ => rfl⟩, fun _ => rfl⟩
    · obtain ⟨b, hb, rfl, hfree⟩ := w.freeBlock_iff.mp hbp
      rw [w.rep.getSize_hdrp hb]
      exact w.no_fit hzero hb hfree
    · rw [← growth_eq_max]
      exact hfull

/-- **`mm_realloc` of a block to a nonzero size returns `NULL`** exactly when its `mm_malloc` does. -/
theorem mmRealloc_null {fuel p q : ℕ} (w : WellFormed A h bs fl) (hq : q ≠ 0) (h0 : n ≠ 0)
    (hret : mmRealloc A fuel q n h = some (p, h')) :
    (p = 0 ↔ NoRoom A h n) ∧ (p = 0 → h' = h) := by
  rcases mmRealloc_cases hq h0 hret with ⟨rfl, hm⟩ | ⟨hp, h₁, hm, -⟩
  · exact w.mmMalloc_null h0 hm
  · exact ⟨(w.mmMalloc_null h0 hm).1, fun h => absurd h hp⟩

end WellFormed

/-- A request larger than the whole arena finds no room. -/
theorem WellFormed.noRoom_of_large {A : Arena} {h : Heap} {bs : List Block} {fl : List ℕ} {n : ℕ}
    (w : WellFormed A h bs fl) (hlarge : maxHeap < adjust n) : NoRoom A h n := by
  have hmax : maxHeap = 20971520 := by decide
  have hbounds := A.bounds
  have hbrk := w.rep.bounds w.rep.prologue_mem
  refine ⟨fun bp hbp => ?_, Or.inl ?_⟩
  · obtain ⟨b, hb, rfl, -⟩ := w.freeBlock_iff.mp hbp
    have hin := w.rep.bounds hb
    have hle := w.rep.brk_le
    rw [w.rep.getSize_hdrp hb]
    omega
  · omega

/-- **Exhaustion.**  A call of `mm_malloc`, or of `mm_realloc` for a live block, with a size from 1 to
`INT_MAX` returns `NULL` exactly when there is no room for that size.  It then has changed neither a
byte of the heap nor the free list nor the break, and the client of `mm_realloc` still holds its
block. -/
theorem null_iff_noRoom (A : Arena) (c : Client) (hc : (allocatorRuns A).Reachable c)
    (n fuel p : ℕ) (h' : Heap) (h0 : 0 < n) (hn : n ≤ intMax) :
    adjust n = (n + 8 + 7) / 8 * 8 ∧
    (mmMalloc A fuel n c.heap = some (p, h') →
      (p = 0 ↔ NoRoom A c.heap n) ∧ (p = 0 → h' = c.heap)) ∧
    ∀ q k, (q, k) ∈ c.live → mmRealloc A fuel q n c.heap = some (p, h') →
      (p = 0 ↔ NoRoom A c.heap n) ∧
      (p = 0 → h' = c.heap ∧ (q, k) ∈ (Request.realloc q n).settle c.live p ∧
        (Request.realloc q n).settle c.live p = c.live) := by
  obtain ⟨bs, fl, o⟩ := reachable_owned hc
  have hn0 : n ≠ 0 := by omega
  have hmax : intMax = 2 ^ 31 - 1 := rfl
  refine ⟨adjust_eq (by omega), o.heap.mmMalloc_null hn0, fun q k hlive hret => ?_⟩
  obtain ⟨hiff, hsame⟩ := o.heap.mmRealloc_null (o.ne_zero hlive) hn0 hret
  refine ⟨hiff, fun hp => ?_⟩
  have hkeep : (Request.realloc q n).settle c.live p = c.live := by
    rw [Request.settle, if_neg (not_not.mpr hp), if_neg hn0]
  exact ⟨hsame hp, hkeep.symm ▸ hlive, hkeep⟩

/-- A block of 100 bytes can not be made larger than the arena. -/
theorem null_iff_noRoom_large : ∃ h fuel, (allocatorRuns lowArena).Reachable ⟨h, [(32, 100)]⟩ ∧
    mmMalloc lowArena fuel 30000000 h = some (0, h) ∧
    mmRealloc lowArena fuel 32 30000000 h = some (0, h) := by
  obtain ⟨h, hc, -⟩ := one_block_reachable lowArena (n := 100) (by decide) (by decide) (by decide)
  obtain ⟨bs, fl, o⟩ := reachable_owned hc
  have hno : NoRoom lowArena h 30000000 := o.heap.noRoom_of_large (by decide)
  obtain ⟨⟨p, h₁⟩, hret⟩ := Option.isSome_iff_exists.mp
    (o.heap.mmMalloc_terminates 30000000 (Nat.lt_succ_self fl.length))
  obtain ⟨⟨q, h₂⟩, hret'⟩ := Option.isSome_iff_exists.mp
    (o.heap.mmRealloc_terminates 32 30000000 (Nat.lt_succ_self fl.length))
  obtain ⟨-, hmalloc, -⟩ :=
    null_iff_noRoom lowArena _ hc 30000000 (fl.length + 1) p h₁ (by decide) (by decide)
  obtain ⟨-, -, hrealloc⟩ :=
    null_iff_noRoom lowArena _ hc 30000000 (fl.length + 1) q h₂ (by decide) (by decide)
  obtain ⟨hp, hsame⟩ := hmalloc hret
  obtain ⟨hq, hsame'⟩ := hrealloc 32 100 List.mem_cons_self hret'
  obtain rfl : p = 0 := hp.mpr hno
  obtain rfl : q = 0 := hq.mpr hno
  obtain rfl : h₁ = h := hsame rfl
  obtain rfl : h₂ = h₁ := (hsame' rfl).1
  exact ⟨h₂, _, hc, hret, hret'⟩

end SystemProgramming.MallocLab
