import SystemProgramming.MallocLab.Walks

/-!
# The allocator with 32-bit pointer arithmetic

The functions of `mm.c` and `memlib.c` with every sum and difference of a pointer and an integer taken
modulo `2^32`, which is meant here and in the modules about it where no other arithmetic is named.  On a
represented heap no intermediate pointer leaves the address space, so each function computes what it
computes with mathematical addresses, as long as the break itself does not pass `2^32`.

* `removeFreeBlock_eq`, `coalesce_eq`, `place_eq`, `mmFree_eq` : agreement on represented heaps.
* `memSbrk_eq` : the limit check on the wrapped sum.
* `extendHeap_eq`, `extendHeap_wrapped` : agreement below `2^32`, and what happens beyond.
-/

namespace SystemProgramming.MallocLab.Wrapping

open ByteMemory LinkedList PointerArith

attribute [local instance] wrapping

/-! ### Pointers that do not wrap -/

theorem add_eq {p n : ℕ} (h : p + n < 2 ^ 32) : wrapping.add p n = p + n := Nat.mod_eq_of_lt h

theorem sub_eq {p n : ℕ} (hn : n ≤ p) (h : p < 2 ^ 32) : wrapping.sub p n = p - n := subSize_eq h hn

theorem hdrp_eq {bp : ℕ} (h4 : 4 ≤ bp) (hlt : bp < 2 ^ 32) :
    hdrp bp = hdrp (P := mathematical) bp := by
  have hsub : wrapping.sub bp wsize = bp - wsize := sub_eq h4 hlt
  rw [hdrp, hsub, hdrp_def]

/-- A footer whose block ends below `2^32`. -/
theorem ftrp_eq {m : Mem} {bp : ℕ} (h8 : 8 ≤ bp) (hlt : ftrp (P := mathematical) m bp + 8 < 2 ^ 32) :
    ftrp m bp = ftrp (P := mathematical) m bp := by
  rw [ftrp_def, dsize] at hlt
  rw [ftrp, ftrp_def, dsize, hdrp_eq (by omega) (by omega), add_eq (by omega)]
  exact sub_eq (by omega) (by omega)

theorem nextBlkp_eq {m : Mem} {bp : ℕ} (h4 : 4 ≤ bp)
    (hlt : nextBlkp (P := mathematical) m bp < 2 ^ 32) :
    nextBlkp m bp = nextBlkp (P := mathematical) m bp := by
  rw [nextBlkp_def, wsize] at hlt
  rw [nextBlkp, nextBlkp_def, wsize, sub_eq h4 (by omega), add_eq hlt]

theorem prevBlkp_eq {m : Mem} {bp : ℕ} (h8 : 8 ≤ bp) (hlt : bp < 2 ^ 32)
    (hpos : 0 < prevBlkp (P := mathematical) m bp) :
    prevBlkp m bp = prevBlkp (P := mathematical) m bp := by
  rw [prevBlkp_def, dsize] at hpos
  rw [prevBlkp, prevBlkp_def, dsize, sub_eq h8 hlt]
  exact sub_eq (by omega) hlt

theorem prevFreeBlkp_eq (m : Mem) {bp : ℕ} (hlt : bp + 4 < 2 ^ 32) :
    prevFreeBlkp m bp = prevFreeBlkp (P := mathematical) m bp := by
  have hadd : wrapping.add bp wsize = bp + wsize := add_eq hlt
  rw [prevFreeBlkp, hadd]
  rfl

theorem setPrevFreeBlkp_eq (h : Heap) {bp : ℕ} (prev : ℕ) (hlt : bp + 4 < 2 ^ 32) :
    h.setPrevFreeBlkp bp prev = h.setPrevFreeBlkp (P := mathematical) bp prev := by
  have hadd : wrapping.add bp wsize = bp + wsize := add_eq hlt
  rw [Heap.setPrevFreeBlkp, hadd]
  rfl

/-! ### Agreement on represented heaps -/

section Agreement

variable {A : Arena} {h : Heap} {bs pre post left right : List Block} {b m : Block}
  {fl gone : List ℕ} {n : ℕ}

theorem node_room (r : Rep A h bs fl) {x : ℕ} (hx : x ∈ fl ++ [A.prologue.addr]) :
    8 ≤ x ∧ x + 16 < 2 ^ 32 := by
  obtain ⟨c, hc, rfl⟩ := r.node_block hx
  have := r.bounds hc
  have := c.size_ge
  omega

theorem insertFreeBlock_eq (r : Rep A h bs fl) {x : ℕ} (hx : x + 4 < 2 ^ 32) :
    insertFreeBlock x h = insertFreeBlock (P := mathematical) x h := by
  have hhead := node_room r r.head_mem
  have hself := fun k v => setPrevFreeBlkp_eq k v hx
  have hold : ∀ (k : Heap) v, k.setPrevFreeBlkp h.freelistHead v =
      k.setPrevFreeBlkp (P := mathematical) h.freelistHead v :=
    fun k v => setPrevFreeBlkp_eq k v (by omega)
  have h0 : h.freelistHead ≠ 0 := by omega
  rw [r.insertFreeBlock_eq]
  simp only [insertFreeBlock, hself, hold, Heap.setNextFreeBlkp, setPrevFreeBlkp_def, Heap.put,
    ne_eq, h0, not_false_eq_true, if_true]

theorem removeFreeBlock_eq (r : Rep A h bs fl) {x : ℕ} (hx : x ∈ fl) :
    removeFreeBlock x h = removeFreeBlock (P := mathematical) x h := by
  have hx' := List.mem_append_left [A.prologue.addr] hx
  obtain ⟨hprev, hnext⟩ := r.links_mem hx
  have hroom := node_room r hx'
  have hroom' := node_room r hnext
  have hlink : ∀ m, prevFreeBlkp m x = prevFreeBlkp (P := mathematical) m x :=
    fun m => prevFreeBlkp_eq m (by omega)
  -- the second write goes through the link read after the first one
  have hsecond : ∀ k : Heap, nextFreeBlkp k.mem x = nextFreeBlkp h.mem x →
      k.setPrevFreeBlkp (nextFreeBlkp k.mem x) (prevFreeBlkp (P := mathematical) k.mem x) =
        k.setPrevFreeBlkp (P := mathematical) (nextFreeBlkp k.mem x)
          (prevFreeBlkp (P := mathematical) k.mem x) := by
    intro k hk
    rw [setPrevFreeBlkp_eq k _ (by omega)]
  have hfirst : prevFreeBlkp (P := mathematical) h.mem x ≠ 0 →
      nextFreeBlkp (h.setNextFreeBlkp (prevFreeBlkp (P := mathematical) h.mem x)
        (nextFreeBlkp h.mem x)).mem x = nextFreeBlkp h.mem x := by
    intro h0
    obtain ⟨hmem, hne⟩ := hprev h0
    have hset := nextFreeBlkp_setNext h.mem (nextFreeBlkp_lt h.mem x) (r.nodes_apart hmem hx')
    rwa [if_neg hne] at hset
  simp only [removeFreeBlock, hlink]
  split
  · rename_i h0
    rw [hsecond _ (hfirst h0)]
  · rw [hsecond { h with freelistHead := nextFreeBlkp h.mem x } rfl]

/-- The search only looks at nodes. -/
theorem findFitFrom_eq (r : Rep A h bs fl) (size : ℕ) (fuel : ℕ) {x : ℕ}
    (hx : x ∈ fl ++ [A.prologue.addr]) :
    findFitFrom h.mem size fuel x = findFitFrom (P := mathematical) h.mem size fuel x := by
  induction fuel generalizing x with
  | zero => rfl
  | succ fuel ih =>
    have hroom := node_room r hx
    simp only [findFitFrom, hdrp_eq (show 4 ≤ x by omega) (by omega)]
    rcases List.mem_append.mp hx with hfl | hlast
    · rw [ih (r.links_mem hfl).2]
    · have hstop : getAlloc h.mem (hdrp (P := mathematical) x) ≠ 0 := by
        rw [List.mem_singleton.mp hlast, r.getAlloc_hdrp r.prologue_mem]
        exact one_ne_zero
      rw [if_neg hstop, if_neg hstop]

theorem findFit_eq (r : Rep A h bs fl) (fuel size : ℕ) :
    findFit fuel size h = findFit (P := mathematical) fuel size h :=
  findFitFrom_eq r size fuel r.head_mem

/-! ### The macros at a block -/

theorem block_room (r : Rep A h bs fl) (hb : b ∈ bs) : 8 ≤ b.addr ∧ b.addr + b.size < 2 ^ 32 := by
  have := r.bounds hb
  omega

theorem hdrp_block (r : Rep A h bs fl) (hb : b ∈ bs) :
    hdrp b.addr = hdrp (P := mathematical) b.addr := by
  have := block_room r hb
  exact hdrp_eq (by omega) (by omega)

theorem getSize_hdrp (r : Rep A h bs fl) (hb : b ∈ bs) : getSize h.mem (hdrp b.addr) = b.size := by
  rw [hdrp_block r hb, r.getSize_hdrp hb]

theorem ftrp_block (r : Rep A h bs fl) (hb : b ∈ bs) : ftrp h.mem b.addr = b.addr + b.size - 8 := by
  have hroom := block_room r hb
  have hftrp := r.ftrp_eq hb
  have := b.size_ge
  rw [ftrp_eq hroom.1 (by omega), hftrp]

theorem nextBlkp_block (r : Rep A h bs fl) (hb : b ∈ bs) : nextBlkp h.mem b.addr = b.stop := by
  have hroom := block_room r hb
  have hnext := r.nextBlkp_eq hb
  have hstop : b.stop = b.addr + b.size := rfl
  rw [nextBlkp_eq (by omega) (by omega), hnext]

/-- Where the plain `PREV_BLKP` leads to a block, so does the wrapped one. -/
theorem prevBlkp_block {a : Block} {k : Heap} (r : Rep A h (pre ++ a :: b :: post) fl)
    (hk : prevBlkp (P := mathematical) k.mem b.addr = a.addr) : prevBlkp k.mem b.addr = a.addr := by
  have hroom := block_room r (b := b) (by simp)
  have hroom' := block_room r (b := a) (by simp)
  rw [prevBlkp_eq hroom.1 (by omega) (by omega), hk]

/-- A header and the footer found through it. -/
theorem put_tags_eq (k : Heap) (h8 : 8 ≤ b.addr) (hlt : b.addr + b.size < 2 ^ 32) :
    (k.put (hdrp b.addr) b.tag).put (ftrp (k.put (hdrp b.addr) b.tag).mem b.addr) b.tag =
      k.setTags b := by
  have := b.size_ge
  have hput := ftrp_put_hdrp k (b := b) (by omega)
  rw [hdrp_eq (by omega) (by omega), ftrp_eq h8 (by rw [hput]; omega)]
  exact put_header_footer k (by omega)

/-! ### `coalesce` -/

theorem coalesceNext_eq {nb : Block} (r : Rep A h (pre ++ b :: nb :: post) fl)
    (hx : nb.addr ∈ fl) : coalesceNext b.addr h = coalesceNext (P := mathematical) b.addr h := by
  have hb := getSize_hdrp r (b := b) (by simp)
  have hn := getSize_hdrp r (b := nb) (by simp)
  have hroom := block_room r (b := b) (by simp)
  have hroom' := block_room r (b := nb) (by simp)
  have hstop : b.addr + b.size = nb.addr := r.stop_eq_addr
  have hnext : nextBlkp h.mem b.addr = nb.addr := by
    rw [nextBlkp_block r (by simp), r.stop_eq_addr]
  have htag : pack ((b.size + nb.size) % 2 ^ 32) 0 = (b.join nb).tag := by
    rw [Nat.mod_eq_of_lt r.join_size_lt]
    rfl
  rw [r.coalesceNext_eq]
  simp only [coalesceNext, hnext, hb, hn, htag, removeFreeBlock_eq r hx]
  exact congrArg _ (put_tags_eq (b := b.join nb) _ hroom.1 (by
    rw [Block.join_addr, Block.join_size]
    omega))

theorem coalescePrev_eq {pb : Block} (r : Rep A h (pre ++ pb :: b :: post) fl)
    (hx : pb.addr ∈ fl) : coalescePrev b.addr h = coalescePrev (P := mathematical) b.addr h := by
  have r' := r.removed hx
  have hb := getSize_hdrp r (b := b) (by simp)
  have hp := r.getSize_hdrp (b := pb) (by simp)
  have hftrp := ftrp_block r' (b := b) (by simp)
  have hhdrp := hdrp_block r (b := pb) (by simp)
  have hprev := prevBlkp_block r r.prevBlkp_at
  have hroom := block_room r (b := pb) (by simp)
  have hstop : pb.addr + pb.size = b.addr := r.stop_eq_addr
  have htag : pack ((b.size + pb.size) % 2 ^ 32) 0 = (pb.join b).tag := by
    rw [Nat.add_comm, Nat.mod_eq_of_lt r.join_size_lt]
    rfl
  obtain ⟨h1, h2⟩ := r'.prevBlkp_after_tags (pb.join b).tag (pb.join b).tag
  have hend : b.addr + b.size - 8 = (pb.join b).addr + (pb.join b).size - 8 := by
    simp only [Block.join_addr, Block.join_size]
    omega
  rw [r.coalescePrev_eq hx]
  simp only [coalescePrev, hprev, hb, hp, htag, removeFreeBlock_eq r hx, hftrp, hhdrp,
    prevBlkp_block r h1, prevBlkp_block r h2]
  rw [hend]
  exact congrArg _ (put_footer_header (b := pb.join b) _ (by rw [Block.join_addr]; omega))

theorem coalesceBoth_eq {pb nb : Block} (r : Rep A h (pre ++ pb :: b :: nb :: post) fl)
    (hx : pb.addr ∈ fl) (hy : nb.addr ∈ fl.erase pb.addr) :
    coalesceBoth b.addr h = coalesceBoth (P := mathematical) b.addr h := by
  have r₁ := r.removed hx
  have r₂ := r₁.removed hy
  obtain ⟨hr₁, hr₂, hr₃⟩ :=
    r₂.reads_after_header ((pb.join b).join nb).tag ((pb.join b).join nb).tag
  have hb := getSize_hdrp r (b := b) (by simp)
  have hp := r.getSize_hdrp (b := pb) (by simp)
  have hhdrp := hdrp_block r (b := pb) (by simp)
  have hroom := block_room r (b := b) (by simp)
  have hroom' := block_room r (b := nb) (by simp)
  have rs : Rep A h ((pre ++ [pb]) ++ b :: nb :: post) fl := by simpa using r
  have hstop : pb.addr + pb.size = b.addr := r.stop_eq_addr
  have hstop' : b.addr + b.size = nb.addr := rs.stop_eq_addr
  have hprev := prevBlkp_block r r.prevBlkp_at
  have hprev₂ := prevBlkp_block r r₂.prevBlkp_at
  have hnext : nextBlkp h.mem b.addr = nb.addr := (nextBlkp_block r (by simp)).trans hstop'
  have hnext₁ : nextBlkp (removeFreeBlock (P := mathematical) pb.addr h).mem b.addr = nb.addr :=
    (nextBlkp_block r₁ (by simp)).trans hstop'
  have hftrp := ftrp_block r (b := nb) (by simp)
  have hn : getSize h.mem (nb.addr + nb.size - 8) = nb.size := getSize_of_tag (r.tagged nb (by simp)).2
  have := nb.size_ge
  -- the reads between the two tag writes
  have hnext₂ := (nextBlkp_eq (by omega) (by rw [hr₁]; omega)).trans hr₁
  have hftrp₂ := (ftrp_eq (by omega) (by rw [hr₂]; omega)).trans hr₂
  have hprev₃ := prevBlkp_block r hr₃
  have htag : pack ((b.size + (pb.size + nb.size)) % 2 ^ 32) 0 = ((pb.join b).join nb).tag := by
    rw [Nat.mod_eq_of_lt (by omega),
      show b.size + (pb.size + nb.size) = pb.size + b.size + nb.size by omega]
    rfl
  have hend : nb.addr + nb.size - 8 =
      ((pb.join b).join nb).addr + ((pb.join b).join nb).size - 8 := by
    simp only [Block.join_addr, Block.join_size]
    omega
  rw [r.coalesceBoth_eq hx hy]
  simp only [coalesceBoth, hprev, hb, hp, hnext, hftrp, hn, htag, removeFreeBlock_eq r hx, hnext₁,
    removeFreeBlock_eq r₁ hy, hprev₂, hhdrp, hnext₂, hftrp₂, hprev₃]
  rw [hend]
  rfl

theorem coalesceCases_branch {pb : Block} (r : Rep A h (pre ++ pb :: b :: post) fl) :
    coalesceCases b.addr h =
      if pb.alloc = true then
        if ∀ nb ∈ post.head?, nb.alloc = true then (b.addr, h) else coalesceNext b.addr h
      else if ∀ nb ∈ post.head?, nb.alloc = true then coalescePrev b.addr h
      else coalesceBoth b.addr h := by
  have rs : Rep A h ((pre ++ [pb]) ++ b :: post) fl := by simpa using r
  have hp := r.prevAlloc_eq
  have hn := rs.nextAlloc_eq
  have hprev : ftrp h.mem (prevBlkp h.mem b.addr) =
      ftrp (P := mathematical) h.mem (prevBlkp (P := mathematical) h.mem b.addr) := by
    rw [prevBlkp_block r r.prevBlkp_at, ftrp_block r (by simp), r.prevBlkp_at, r.ftrp_eq (by simp)]
  have hnext : hdrp (nextBlkp h.mem b.addr) =
      hdrp (P := mathematical) (nextBlkp (P := mathematical) h.mem b.addr) := by
    have hroom := block_room r (b := b) (by simp)
    have hstop : b.stop = b.addr + b.size := rfl
    rw [nextBlkp_block r (by simp), r.nextBlkp_eq (by simp), hdrp_eq (by omega) (by omega)]
  rw [coalesceCases]
  simp only [hprev, hp, hnext, hn]
  cases post with
  | nil => cases pb.alloc <;> simp
  | cons nb post => cases pb.alloc <;> cases hnb : nb.alloc <;> simp [hnb]

theorem coalesceCases_eq (r : Rep A h (pre ++ b :: post) fl)
    (hm : Merge pre b post left m right gone) (hlisted : Listed (pre ++ post) fl) :
    coalesceCases b.addr h = coalesceCases (P := mathematical) b.addr h := by
  cases hm with
  | @alone pre _ pb _ hp hn =>
    have rp : Rep A h (pre ++ pb :: b :: post) fl := by simpa using r
    rw [coalesceCases_branch rp, rp.coalesceCases_branch, if_pos hp, if_pos hn, if_pos hp, if_pos hn]
  | @next pre _ pb _ nb hp hn =>
    have rp : Rep A h (pre ++ pb :: b :: nb :: right) fl := by simpa using r
    have hsome : ¬ ∀ c ∈ (nb :: right).head?, c.alloc = true := by simp [hn]
    rw [coalesceCases_branch rp, rp.coalesceCases_branch, if_pos hp, if_neg hsome, if_pos hp,
      if_neg hsome, coalesceNext_eq r (hlisted nb (by simp) hn)]
  | @prev left _ pb _ hp hn =>
    have rp : Rep A h (left ++ pb :: b :: post) fl := by simpa using r
    have hfree : ¬ pb.alloc = true := by simp [hp]
    rw [coalesceCases_branch rp, rp.coalesceCases_branch, if_neg hfree, if_pos hn, if_neg hfree,
      if_pos hn, coalescePrev_eq rp (hlisted pb (by simp) hp)]
  | @both left _ pb _ nb hp hn =>
    have rp : Rep A h (left ++ pb :: b :: nb :: right) fl := by simpa using r
    have hfree : ¬ pb.alloc = true := by simp [hp]
    have hsome : ¬ ∀ c ∈ (nb :: right).head?, c.alloc = true := by simp [hn]
    have hne : nb.addr ≠ pb.addr := rp.tiles.addr_ne (by simp)
    rw [coalesceCases_branch rp, rp.coalesceCases_branch, if_neg hfree, if_neg hsome, if_neg hfree,
      if_neg hsome, coalesceBoth_eq rp (hlisted pb (by simp) hp)
        ((List.mem_erase_of_ne hne).mpr (hlisted nb (by simp) hn))]

/-- **`coalesce`** on a block that is not listed yet. -/
theorem coalesce_eq (r : Rep A h (pre ++ b :: post) fl) (hm : Merge pre b post left m right gone)
    (hb : b.alloc = false) (hnot : b.addr ∉ fl) (hlisted : Listed (pre ++ post) fl) :
    coalesce b.addr h = coalesce (P := mathematical) b.addr h := by
  obtain ⟨h₁, heq, hstep⟩ := Becomes.cases r hm hb hnot hlisted
  have hroom := block_room hstep.rep (b := m) (by simp)
  have := m.size_ge
  simp only [coalesce, coalesceCases_eq r hm hlisted, heq,
    insertFreeBlock_eq hstep.rep (x := m.addr) (by omega)]

/-! ### `place` and `mm_free` -/

theorem place_eq {parts : List Block} {new : List ℕ} (r : Rep A h (pre ++ b :: post) fl)
    (hb : b.alloc = false) (hx : b.addr ∈ fl) (hp : Placed b n parts new) :
    place b.addr n h = place (P := mathematical) b.addr n h := by
  have hroom := block_room r (b := b) (by simp)
  have hsize := getSize_hdrp r (b := b) (by simp)
  have hsub := r.subSize_csize hp.size_ge
  cases hp with
  | whole hn hlt =>
    have hno : ¬ b.size - n ≥ 2 * dsize := by
      simp only [dsize]
      omega
    rw [r.place_whole hn hlt]
    simp only [place, hsize, hsub, if_neg hno, removeFreeBlock_eq r hx]
    exact put_tags_eq (b := b.withAlloc true) _ hroom.1 hroom.2
  | split hmod hge hn =>
    have hyes : b.size - n ≥ 2 * dsize := by
      simp only [dsize]
      omega
    have hcut := put_tags_eq (removeFreeBlock (P := mathematical) b.addr h)
      (b := b.cut n hmod hge) hroom.1 (by simp only [Block.cut]; omega)
    have hrest := put_tags_eq
      ((removeFreeBlock (P := mathematical) b.addr h).setTags (b.cut n hmod hge))
      (b := b.rest n hmod hn) (by simp only [Block.rest]; omega) (by simp only [Block.rest]; omega)
    have hnext : nextBlkp
        ((removeFreeBlock (P := mathematical) b.addr h).setTags (b.cut n hmod hge)).mem b.addr =
          b.addr + n := by
      have htag := setTags_tagged (removeFreeBlock (P := mathematical) b.addr h) (b := b.cut n hmod hge)
        (by simp only [Block.cut]; omega) (by simp only [Block.cut]; omega)
      have hplain : nextBlkp (P := mathematical)
          ((removeFreeBlock (P := mathematical) b.addr h).setTags (b.cut n hmod hge)).mem b.addr =
            b.addr + n := congrArg (b.addr + ·) (getSize_of_tag htag.1)
      rw [nextBlkp_eq (by omega) (by omega), hplain]
    have rb : Rep A h (pre ++ [b] ++ post) fl := by simpa using r
    have hparted := (Becomes.parted hmod hge hn (rb.removed hx) (r.ne_nil_of_free hb) hb
      rb.nodup.not_mem_erase).rep
    rw [r.place_split hmod hge hn]
    simp only [place, hsize, hsub, if_pos hyes, removeFreeBlock_eq r hx]
    simp only [Block.cut, Block.rest, Block.tag, Bool.toNat_true, Bool.toNat_false] at hcut hrest
    rw [hcut]
    simp only [Block.cut] at hnext
    rw [hnext, hrest]
    exact insertFreeBlock_eq hparted (by omega)

theorem mmFree_eq (w : WellFormed A h bs fl) (hb : Held A bs b) :
    mmFree b.addr h = mmFree (P := mathematical) b.addr h := by
  obtain ⟨pre, post, rfl⟩ := List.append_of_mem hb.mem
  obtain ⟨left, m, right, gone, hm⟩ := exists_merge (w.ne_nil_of_held hb) (b.withAlloc false) post
  have hroom := block_room w.rep hb.mem
  have hsize := getSize_hdrp w.rep hb.mem
  have htags := put_tags_eq (b := b.withAlloc false) h hroom.1 hroom.2
  have hnot : b.addr ∉ fl := w.notMem_of_held hb
  have hmerge := coalesce_eq (w.marked_free hb) hm rfl hnot w.listed_around
  simp only [Block.withAlloc_addr, Block.tag, Block.withAlloc_size, Block.withAlloc_alloc,
    Bool.toNat_false] at htags hmerge
  rw [w.mmFree_eq hb.mem, ← hmerge]
  simp only [mmFree, hsize, htags]

/-! ### `extend_heap` -/

theorem memSbrk_eq (A : Arena) {incr : ℤ} (hlt : incr < 0 ∨ h.memBrk + incr.toNat < 2 ^ 32) :
    memSbrk A incr h = memSbrk (P := mathematical) A incr h := by
  rcases hlt with hneg | hlt
  · rw [memSbrk, memSbrk_def, if_pos (Or.inl hneg), if_pos (Or.inl hneg)]
  · rw [memSbrk, memSbrk_def, add_eq hlt]

/-- Where the break does not pass `2^32`, or the size is not an `int`. -/
theorem extendHeap_eq (w : WellFormed A h bs fl) (hmod : n % 8 = 0) (hge : 16 ≤ n) (hlt : n < 2 ^ 32)
    (hbrk : 2 ^ 31 ≤ n ∨ h.memBrk + n < 2 ^ 32) :
    extendHeap A (n / wsize) h = extendHeap (P := mathematical) A (n / wsize) h := by
  obtain ⟨hsize, hwords⟩ := words_eq hmod hlt
  have hsbrk : memSbrk A (toInt32 n) h = memSbrk (P := mathematical) A (toInt32 n) h := by
    apply memSbrk_eq
    rw [toInt32]
    split <;> omega
  by_cases hfit : h.memBrk + n ≤ A.memMaxAddr
  · have hpro := w.rep.bounds w.rep.prologue_mem
    have hbounds := A.bounds
    have htags := put_tags_eq ({ h with memBrk := h.memBrk + n } : Heap) (b := h.newBlock n hmod hge)
      (by simp only [Heap.newBlock]; omega) (by simp only [Heap.newBlock]; omega)
    have hnext : nextBlkp (({ h with memBrk := h.memBrk + n } : Heap).setTags
        (h.newBlock n hmod hge)).mem h.memBrk = h.memBrk + n := by
      have htag := setTags_tagged ({ h with memBrk := h.memBrk + n } : Heap)
        (b := h.newBlock n hmod hge) (by simp only [Heap.newBlock]; omega)
        (by simp only [Heap.newBlock]; omega)
      have hplain : nextBlkp (P := mathematical) (({ h with memBrk := h.memBrk + n } : Heap).setTags
          (h.newBlock n hmod hge)).mem h.memBrk = h.memBrk + n :=
        congrArg (h.memBrk + ·) (getSize_of_tag htag.1)
      rw [nextBlkp_eq (by omega) (by omega), hplain]
    have hhdrp : hdrp (h.memBrk + n) = h.memBrk + n - 4 := hdrp_eq (by omega) (by omega)
    obtain ⟨left, m, gone, hm⟩ := exists_merge_end w.rep.ne_nil (h.newBlock n hmod hge)
    have hlisted : Listed (bs ++ []) fl := by simpa using w.listed
    have hmerge := coalesce_eq (w.rep.grown hmod hge hfit) hm rfl
      (w.rep.newBlock_notMem hmod hge) hlisted
    rw [w.rep.extendHeap_some hmod hge hfit]
    simp only [extendHeap, if_neg hsize, hwords, hsbrk, memSbrk_some (w.rep.lt_int hfit) hfit]
    simp only [Heap.newBlock, Block.tag, Bool.toNat_false] at htags hnext hmerge
    rw [htags, hnext, hhdrp]
    exact hmerge
  · have hfull : A.memMaxAddr < h.memBrk + n := by omega
    rw [extendHeap_none hmod hlt hfull]
    simp only [extendHeap, if_neg hsize, hwords, hsbrk, memSbrk_none hlt hfull]

/-! ### Beyond `2^32` -/

theorem insertFreeBlock_memBrk (x : ℕ) (h : Heap) : (insertFreeBlock x h).memBrk = h.memBrk := by
  simp only [insertFreeBlock]
  split <;> rfl

theorem removeFreeBlock_memBrk (x : ℕ) (h : Heap) : (removeFreeBlock x h).memBrk = h.memBrk := by
  rw [removeFreeBlock]
  split
  · split <;> rfl
  · split <;> rfl

theorem coalesce_memBrk (bp : ℕ) (h : Heap) : (coalesce bp h).2.memBrk = h.memBrk := by
  have hput : ∀ (k : Heap) (p v : ℕ), (k.put p v).memBrk = k.memBrk := fun _ _ _ => rfl
  rw [coalesce, insertFreeBlock_memBrk, coalesceCases]
  split
  · simp only [coalesceNext, hput, removeFreeBlock_memBrk]
  · split
    · simp only [coalescePrev, hput, removeFreeBlock_memBrk]
    · split
      · simp only [coalesceBoth, hput, removeFreeBlock_memBrk]
      · rfl

theorem place_memBrk (bp asize : ℕ) (h : Heap) : (place bp asize h).memBrk = h.memBrk := by
  have hput : ∀ (k : Heap) (p v : ℕ), (k.put p v).memBrk = k.memBrk := fun _ _ _ => rfl
  rw [place]
  split
  · simp only [insertFreeBlock_memBrk, hput, removeFreeBlock_memBrk]
  · simp only [hput, removeFreeBlock_memBrk]

/-- **The check passes on the wrapped sum**, and the break ends below where it was. -/
theorem extendHeap_wrapped (hbrk : h.memBrk ≤ A.memMaxAddr) (hmod : n % 8 = 0) (hlt : n < 2 ^ 31)
    (hover : 2 ^ 32 ≤ h.memBrk + n) :
    (extendHeap A (n / wsize) h).2.memBrk = h.memBrk + n - 2 ^ 32 := by
  obtain ⟨hsize, hwords⟩ := words_eq hmod (by omega)
  have hbounds := A.bounds
  have hint : toInt32 n = n := if_pos hlt
  have hadd : wrapping.add h.memBrk n = h.memBrk + n - 2 ^ 32 := by
    show (h.memBrk + n) % 2 ^ 32 = _
    omega
  have hsbrk : memSbrk A (toInt32 n) h =
      some (h.memBrk, { h with memBrk := h.memBrk + n - 2 ^ 32 }) := by
    rw [hint, memSbrk, if_neg, Int.toNat_natCast, hadd]
    rw [Int.toNat_natCast, hadd]
    omega
  simp only [extendHeap, if_neg hsize, hwords, hsbrk, coalesce_memBrk]
  rfl

end Agreement

end SystemProgramming.MallocLab.Wrapping
