import SystemProgramming.MallocLab.ClientRuns

/-!
# What `mm_malloc` and `mm_free` do to the blocks and to the free list

The invariant says that a heap represents some list of blocks and some free list.  Here both are read
off the heap by the walks of `mm_check`, before and after a call.

* `Reads` : the walks read these blocks and this free list.
* `mmMalloc_first_fit` : which block `mm_malloc` takes, where it comes from and what remains of it.
* `mmFree_coalesces` : which blocks `mm_free` merges, and the free list afterwards.
-/

namespace SystemProgramming.MallocLab

open ByteMemory LinkedList Loops Transition

/-- The two walks over the heap read the blocks `bs` and the free list `fl`. -/
structure Reads (A : Arena) (h : Heap) (bs : List Block) (fl : List ℕ) : Prop where
  blocks : ∃ fuel, blockWalk h.mem fuel h.heapListp = some (bs.map Block.addr, h.memBrk)
  list : ∃ fuel, freeWalk h.mem fuel h.freelistHead = some (fl, A.prologue.addr)
  tags : ∀ b ∈ bs, getSize h.mem (hdrp b.addr) = b.size ∧
    getAlloc h.mem (hdrp b.addr) = b.alloc.toNat

theorem WellFormed.reads {A : Arena} {h : Heap} {bs : List Block} {fl : List ℕ}
    (w : WellFormed A h bs fl) : Reads A h bs fl := by
  refine ⟨⟨bs.length + 1, ?_⟩, ⟨fl.length + 1, w.rep.freeWalk_eq (Nat.lt_succ_self _)⟩,
    fun b hb => ⟨w.rep.getSize_hdrp hb, w.rep.getAlloc_hdrp hb⟩⟩
  rw [w.listp]
  exact w.rep.blockWalk_eq (Nat.lt_succ_self _)

/-! ### Allocating -/

/-- Allocating `n` bytes at the start of `b` leaves `parts`: a block of `n` or `n + 8` bytes, and if
that is not all of `b` a free block of at least 16 bytes.  The latter is at `new`. -/
def Allotted (b : Block) (n : ℕ) (parts : List Block) (new : List ℕ) : Prop :=
  ∃ a rest, parts = a :: rest ∧ a.addr = b.addr ∧ a.alloc = true ∧
    (a.size = n ∨ a.size = n + 8) ∧
    (rest = [] ∧ new = [] ∧ a.size = b.size ∨
      ∃ f, rest = [f] ∧ new = [f.addr] ∧ f.alloc = false ∧ f.addr = a.stop ∧ 16 ≤ f.size ∧
        a.size + f.size = b.size)

theorem Placed.allotted {b : Block} {n : ℕ} {parts : List Block} {new : List ℕ}
    (hp : Placed b n parts new) (hmod : n % 8 = 0) : Allotted b n parts new := by
  cases hp with
  | whole hn hlt =>
    have hb := b.size_mod
    refine ⟨b.withAlloc true, [], rfl, rfl, rfl, ?_, Or.inl ⟨rfl, rfl, rfl⟩⟩
    rw [Block.withAlloc_size]
    omega
  | split _ hge hn =>
    refine ⟨b.cut n hmod hge, [b.rest n hmod hn], rfl, rfl, rfl, Or.inl rfl, Or.inr ?_⟩
    refine ⟨b.rest n hmod hn, rfl, rfl, rfl, rfl, ?_, ?_⟩
    all_goals
      simp only [Block.cut, Block.rest]
      omega

/-- Behind the blocks `left` the heap ends with the free block `m`, which the break's move by `n`
bytes made: it starts where the last of `bs` started if that was free, and else at the old break. -/
def GrownTo (bs : List Block) (brk n : ℕ) (left : List Block) (m : Block) : Prop :=
  left = bs ∧ (∀ b ∈ bs.getLast?, b.alloc = true) ∧ m.addr = brk ∧ m.size = n ∨
    ∃ t, bs = left ++ [t] ∧ t.alloc = false ∧ m.addr = t.addr ∧ m.size = t.size + n

namespace WellFormed

variable {A : Arena} {h h' : Heap} {bs : List Block} {fl : List ℕ} {n : ℕ}

/-- `extend_heap`, with the blocks and the free list it leaves. -/
theorem grownTo (w : WellFormed A h bs fl) (hmod : n % 8 = 0) (hge : 16 ≤ n)
    (hfit : h.memBrk + n ≤ A.memMaxAddr) :
    ∃ left m h₁, extendHeap A (n / wsize) h = (m.addr, h₁) ∧ GrownTo bs h.memBrk n left m ∧
      m.alloc = false ∧ WellFormed A h₁ (left ++ [m]) (m.addr :: fl.erase m.addr) ∧
      h₁.memBrk = h.memBrk + n := by
  obtain ⟨left, m, gone, h₁, hm, heq, hw, hbrk, -⟩ := w.exists_extended hmod hge hfit
  have hfree := hm.alloc_eq rfl
  refine ⟨left, m, h₁, heq, ?_, hfree, ?_, hbrk⟩
  · cases hm with
    | alone hp hn => exact Or.inl ⟨rfl, by simp [hp], rfl, rfl⟩
    | prev hp hn => exact Or.inr ⟨_, rfl, hp, rfl, rfl⟩
  · have hgone : fl.diff gone = fl.erase m.addr := by
      cases hm with
      | alone hp hn =>
        refine (List.erase_of_not_mem fun hin => ?_).symm
        obtain ⟨b, hb, he, -⟩ := w.rep.free _ hin
        have := w.rep.bounds hb
        have := b.size_ge
        simp only [Heap.newBlock] at he
        omega
      | prev hp hn => rw [List.diff_cons, List.diff_nil]; rfl
    rw [← hgone]
    exact hw

/-- The first fit, when there is one. -/
theorem find_fit (w : WellFormed A h bs fl) {b : Block} (hb : b ∈ bs)
    (he : b.addr = firstFit h.mem n fl) :
    fl.find? (fun x => n ≤ getSize h.mem (hdrp x)) = some b.addr := by
  have hpos := w.rep.bounds hb
  rw [firstFit] at he
  cases hf : fl.find? fun x => n ≤ getSize h.mem (hdrp x) with
  | none =>
    rw [hf] at he
    have : b.addr = 0 := he
    omega
  | some x =>
    rw [hf] at he
    rw [he]
    rfl

/-- No free block fits when the search finds none. -/
theorem no_fit (w : WellFormed A h bs fl) (hzero : firstFit h.mem n fl = 0) {b : Block}
    (hb : b ∈ bs) (hfree : b.alloc = false) : b.size < n := by
  rcases w.rep.firstFit_spec n with ⟨d, hd, he, -⟩ | ⟨-, hall⟩
  · have := w.rep.bounds hd
    omega
  · exact hall b hb (w.listed b hb hfree)

end WellFormed

/-- `mm_malloc` returns a block when the break can move. -/
theorem WellFormed.mmMalloc_ne_zero {A : Arena} {h h' : Heap} {bs : List Block} {fl : List ℕ}
    {n fuel p : ℕ} (w : WellFormed A h bs fl) (h0 : n ≠ 0)
    (hroom : h.memBrk + growth n ≤ A.memMaxAddr) (hret : mmMalloc A fuel n h = some (p, h')) :
    p ≠ 0 := by
  obtain ⟨-, hsmod, hsge, -⟩ := growth_spec n
  rcases w.mmMalloc_cases h0 hret with ⟨b, hb, -, -, -, rfl, -⟩ | ⟨-, ⟨-, hp, -⟩ | ⟨hfull, -⟩⟩
  · have := w.rep.bounds hb
    omega
  · obtain ⟨left, m, h₁, heq, -, -, w₁, -⟩ := w.grownTo hsmod hsge hroom
    rw [heq] at hp
    obtain rfl : p = m.addr := hp
    have := w₁.rep.bounds (b := m) (by simp)
    omega
  · omega

/-- **Which block `mm_malloc` returns.**  It returns with any number of iterations above the length of the
free list.  If some free block of the heap is large enough, the break stays and the first such block of
the free list is allocated.  Otherwise the break moves by the larger of the adjusted size and `CHUNKSIZE`,
and the free block that this makes at the end of the heap is allocated; or the break cannot move, and
nothing happens.  The rest of the block, if 16 bytes or more, becomes the head of the free list.  All
other blocks stay what they are. -/
theorem mmMalloc_first_fit (A : Arena) (c : Client) (hc : (allocatorRuns A).Reachable c)
    (n : ℕ) (h0 : n ≠ 0) (hn : n ≤ intMax) :
    ∃ bs fl, Reads A c.heap bs fl ∧
      (∀ fuel, fl.length < fuel → (mmMalloc A fuel n c.heap).isSome) ∧
      ∀ fuel p h', mmMalloc A fuel n c.heap = some (p, h') →
        ((∃ b ∈ bs, b.alloc = false ∧ adjust n ≤ b.size) →
          ∃ pre b post parts new, bs = pre ++ b :: post ∧ b.addr = p ∧ b.alloc = false ∧
            fl.find? (fun x => adjust n ≤ getSize c.heap.mem (hdrp x)) = some p ∧
            h'.memBrk = c.heap.memBrk ∧ Allotted b (adjust n) parts new ∧
            Reads A h' (pre ++ parts ++ post) (new ++ fl.erase p)) ∧
        ((∀ b ∈ bs, b.alloc = false → b.size < adjust n) →
          (p = 0 ∧ h' = c.heap ∧ A.memMaxAddr < c.heap.memBrk + max (adjust n) chunksize) ∨
          ∃ left m parts new, GrownTo bs c.heap.memBrk (max (adjust n) chunksize) left m ∧ m.addr = p ∧
            h'.memBrk = c.heap.memBrk + max (adjust n) chunksize ∧ Allotted m (adjust n) parts new ∧
            Reads A h' (left ++ parts) (new ++ fl.erase p)) := by
  obtain ⟨bs, fl, o⟩ := reachable_owned hc
  have w := o.heap
  obtain ⟨hmod, hge, -, -⟩ := WellFormed.adjust_spec h0 (le_sizeMax hn)
  obtain ⟨hle, hsmod, hsge, -⟩ := WellFormed.growth_spec n
  have hgrowth : growth n = max (adjust n) chunksize := by
    rw [growth]
    split <;> omega
  refine ⟨bs, fl, w.reads, fun fuel hfuel => w.mmMalloc_terminates n hfuel, fun fuel p h' hret => ?_⟩
  rcases w.mmMalloc_cases h0 hret with ⟨b, hb, he, hfree, hsize, rfl, rfl⟩ |
    ⟨hzero, hgrown⟩
  · refine ⟨fun _ => ?_, fun hnone => ?_⟩
    · have hfind := w.find_fit hb he
      obtain ⟨pre, post, rfl⟩ := List.append_of_mem hb
      obtain ⟨parts, new, hp⟩ := exists_placed hmod hge hsize
      obtain ⟨hw, hbrk, -⟩ := w.placed hfree hp
      exact ⟨pre, b, post, parts, new, rfl, rfl, hfree, hfind, hbrk, hp.allotted hmod, hw.reads⟩
    · have := hnone b hb hfree
      omega
  · refine ⟨?_, fun _ => ?_⟩
    · rintro ⟨b, hb, hfree, hsize⟩
      have := w.no_fit hzero hb hfree
      omega
    · rw [← hgrowth]
      rcases hgrown with ⟨hfit, hp, rfl⟩ | ⟨hfull, rfl, rfl⟩
      · right
        obtain ⟨left, m, h₁, heq, hgrownTo, hmfree, hw, hbrk⟩ := w.grownTo hsmod hsge hfit
        rw [heq] at hp ⊢
        obtain rfl : p = m.addr := hp
        have hsize : growth n ≤ m.size := by
          rcases hgrownTo with ⟨-, -, -, hm⟩ | ⟨t, -, -, -, hm⟩ <;> omega
        obtain ⟨parts, new, hparts⟩ := exists_placed hmod hge (hle.trans hsize)
        obtain ⟨hw', hbrk', -⟩ := hw.placed hmfree hparts
        refine ⟨left, m, parts, new, hgrownTo, rfl, hbrk'.trans hbrk, hparts.allotted hmod, ?_⟩
        have hlist : (m.addr :: fl.erase m.addr).erase m.addr = fl.erase m.addr :=
          List.erase_cons_head ..
        rw [hlist, List.append_nil] at hw'
        exact hw'.reads
      · exact Or.inl ⟨rfl, rfl, hfull⟩

/-- The walks of the client with a hole. -/
theorem holedClient_reads {bs : List Block} {fl : List ℕ}
    (hreads : Reads lowArena holedClient.heap bs fl) :
    bs.map Block.addr = [16, 32, 144, 352, 664] ∧ fl = [144, 664] := by
  have hwalk : blockWalk holedClient.heap.mem 6 holedClient.heap.heapListp =
      some ([16, 32, 144, 352, 664], holedClient.heap.memBrk) := by
    decide +kernel
  have hlist : freeWalk holedClient.heap.mem 3 holedClient.heap.freelistHead = some ([144, 664], 16) := by
    decide +kernel
  obtain ⟨⟨fuel, hbs⟩, ⟨fuel', hfl⟩, -⟩ := hreads
  rw [freeWalk_eq_visit] at hfl hlist
  exact ⟨(Prod.mk.inj (blockWalk_unique hbs hwalk)).1, (Prod.mk.inj (visit_unique hfl hlist)).1⟩

/-- 150 bytes fit into the hole, 5000 nowhere. -/
theorem mmMalloc_first_fit_holed :
    (∃ bs fl, Reads lowArena holedClient.heap bs fl ∧ fl = [144, 664] ∧
      ∃ h', mmMalloc lowArena 3 150 holedClient.heap = some (144, h') ∧
        ∃ pre b post parts new, bs = pre ++ b :: post ∧ b.addr = 144 ∧ b.alloc = false ∧
          h'.memBrk = holedClient.heap.memBrk ∧ Allotted b 160 parts new ∧
          Reads lowArena h' (pre ++ parts ++ post) (new ++ [664])) ∧
    ∃ bs fl, Reads lowArena holedClient.heap bs fl ∧ fl = [144, 664] ∧
      ∃ h', mmMalloc lowArena 3 5000 holedClient.heap = some (664, h') ∧
        ∃ left m parts new, GrownTo bs holedClient.heap.memBrk 5008 left m ∧ m.addr = 664 ∧
          h'.memBrk = holedClient.heap.memBrk + 5008 ∧ Allotted m 5008 parts new ∧
          Reads lowArena h' (left ++ parts) (new ++ [144]) := by
  constructor
  · obtain ⟨bs, fl, hreads, -, hcall⟩ :=
      mmMalloc_first_fit lowArena holedClient holedClient_reachable 150 (by decide) (by decide)
    obtain ⟨haddrs, rfl⟩ := holedClient_reads hreads
    have hret : (mmMalloc lowArena 3 150 holedClient.heap).map Prod.fst = some 144 := by decide +kernel
    obtain ⟨⟨p, h'⟩, hserve, rfl⟩ := Option.map_eq_some_iff.mp hret
    have hin : 144 ∈ bs.map Block.addr := by
      rw [haddrs]
      decide
    obtain ⟨b, hb, hbaddr⟩ := List.mem_map.mp hin
    obtain ⟨hsize, halloc⟩ := hreads.tags b hb
    have hbig : getSize holedClient.heap.mem (hdrp 144) = 208 := by decide +kernel
    have hfree : getAlloc holedClient.heap.mem (hdrp 144) = 0 := by decide +kernel
    rw [hbaddr] at hsize halloc
    have hfit : ∃ b ∈ bs, b.alloc = false ∧ adjust 150 ≤ b.size := by
      refine ⟨b, hb, ?_, ?_⟩
      · cases hba : b.alloc with
        | false => rfl
        | true =>
          rw [hba, hfree] at halloc
          cases halloc
      · rw [← hsize, hbig]
        decide
    obtain ⟨pre, b, post, parts, new, hbs, haddr, hbfree, -, hbrk, hparts, hreads'⟩ :=
      (hcall _ _ _ hserve).1 hfit
    exact ⟨bs, _, hreads, rfl, h', hserve, pre, b, post, parts, new, hbs, haddr, hbfree, hbrk, hparts,
      hreads'⟩
  · obtain ⟨bs, fl, hreads, -, hcall⟩ :=
      mmMalloc_first_fit lowArena holedClient holedClient_reachable 5000 (by decide) (by decide)
    obtain ⟨haddrs, rfl⟩ := holedClient_reads hreads
    have hret : (mmMalloc lowArena 3 5000 holedClient.heap).map Prod.fst = some 664 := by decide +kernel
    obtain ⟨⟨p, h'⟩, hserve, rfl⟩ := Option.map_eq_some_iff.mp hret
    have hsmall : ∀ x ∈ [16, 32, 144, 352, 664], getSize holedClient.heap.mem (hdrp x) < 5008 := by
      decide +kernel
    have hnone : ∀ b ∈ bs, b.alloc = false → b.size < adjust 5000 := by
      intro b hb _
      have hlt := hsmall b.addr (by rw [← haddrs]; exact List.mem_map_of_mem hb)
      rw [(hreads.tags b hb).1] at hlt
      exact hlt
    rcases (hcall _ _ _ hserve).2 hnone with ⟨hp, -⟩ | ⟨left, m, parts, new, hgrown, haddr, hbrk, hparts,
      hreads'⟩
    · cases hp
    · exact ⟨bs, _, hreads, rfl, h', hserve, left, m, parts, new, hgrown, haddr, hbrk, hparts, hreads'⟩

/-! ### Freeing -/

/-- A merge absorbs the free block before and the free block after, where there is one. -/
theorem Merge.absorbed {pre post left right : List Block} {b m : Block} {gone : List ℕ} {p q : ℕ}
    (hm : Merge pre b post left m right gone) (ht : Tiles p (pre ++ b :: post) q) :
    ∃ before after, pre = left ++ before ∧ post = after ++ right ∧ before.length ≤ 1 ∧
      after.length ≤ 1 ∧ (∀ d ∈ before ++ after, d.alloc = false) ∧
      gone = (before ++ after).map Block.addr ∧ Tiles m.addr (before ++ b :: after) m.stop := by
  obtain ⟨s, hl, rfl, hr⟩ := tiles_append.mp (hm.tiles ht)
  -- the absorbed run lies where the merged block does
  have hrun : ∀ run, left ++ run ++ right = pre ++ b :: post → Tiles m.addr run m.stop := by
    intro run he
    rw [← he] at ht
    obtain ⟨t, ht', hr'⟩ := tiles_append.mp ht
    obtain ⟨s', hl', hrun⟩ := tiles_append.mp ht'
    rw [hl.stop_unique hl', hr.start_unique hr']
    exact hrun
  cases hm with
  | alone => exact ⟨[], [], by simp, rfl, by simp, by simp, by simp, rfl, hrun [b] (by simp)⟩
  | @next _ _ _ _ nb _ hn =>
    exact ⟨[], [nb], by simp, rfl, by simp, by simp, by simp [hn], rfl, hrun [b, nb] (by simp)⟩
  | @prev _ _ pb _ hp =>
    exact ⟨[pb], [], rfl, rfl, by simp, by simp, by simp [hp], rfl, hrun [pb, b] (by simp)⟩
  | @both _ _ pb _ nb hp hn =>
    exact ⟨[pb], [nb], rfl, rfl, by simp, by simp, by simp [hp, hn], rfl,
      hrun [pb, b, nb] (by simp)⟩

namespace Rep

variable {A : Arena} {h : Heap} {pre post left right : List Block} {b m : Block} {fl gone : List ℕ}
  {a : ℕ}

/-- The run that a merge absorbs. -/
theorem merge_bounds (r : Rep A h (pre ++ b :: post) fl) (hm : Merge pre b post left m right gone) :
    m.addr ≤ b.addr ∧ b.stop ≤ m.stop := by
  cases hm with
  | alone => exact ⟨le_rfl, le_rfl⟩
  | next => exact ⟨le_rfl, by simp only [Block.stop, Block.join_addr, Block.join_size]; omega⟩
  | prev | both =>
    have rp := r
    rw [List.append_assoc] at rp
    have hstop := rp.stop_eq_addr
    simp only [Block.stop, Block.join_addr, Block.join_size] at hstop ⊢
    omega

/-- Before the merged block is inserted, only links of listed blocks and its tags are written. -/
theorem coalesceCases_mem (r : Rep A h (pre ++ b :: post) fl)
    (hm : Merge pre b post left m right gone) (hlisted : Listed (pre ++ post) fl)
    (hnodes : ∀ y ∈ fl ++ [A.prologue.addr], a < y ∨ y + 8 ≤ a)
    (hout : a < m.addr - 4 ∨ m.stop - 4 ≤ a) : (coalesceCases b.addr h).2.mem a = h.mem a := by
  have htags : ∀ k : Heap, (k.setTags m).mem a = k.mem a := by
    have hge := m.size_ge
    simp only [Block.stop] at hout
    exact fun k => setTags_mem k (by omega) (by omega)
  cases hm with
  | @alone pre _ pb _ hp hn =>
    have rp : Rep A h (pre ++ pb :: b :: post) fl := by simpa using r
    rw [rp.coalesceCases_branch, if_pos hp, if_pos hn]
  | @next pre _ pb _ nb hp hn =>
    have rp : Rep A h (pre ++ pb :: b :: nb :: right) fl := by simpa using r
    have hx : nb.addr ∈ fl := hlisted nb (by simp) hn
    rw [rp.coalesceCases_branch, if_pos hp, if_neg (by simp [hn]), r.coalesceNext_eq]
    exact (htags _).trans (r.removeFreeBlock_mem hx hnodes)
  | @prev left _ pb _ hp hn =>
    have rp : Rep A h (left ++ pb :: b :: post) fl := by simpa using r
    have hx : pb.addr ∈ fl := hlisted pb (by simp) hp
    rw [rp.coalesceCases_branch, if_neg (by simp [hp]), if_pos hn, rp.coalescePrev_eq hx]
    exact (htags _).trans (r.removeFreeBlock_mem hx hnodes)
  | @both left _ pb _ nb hp hn =>
    have rp : Rep A h (left ++ pb :: b :: nb :: right) fl := by simpa using r
    have hx : pb.addr ∈ fl := hlisted pb (by simp) hp
    have hne : nb.addr ≠ pb.addr := rp.tiles.addr_ne (by simp)
    have hy : nb.addr ∈ fl.erase pb.addr :=
      (List.mem_erase_of_ne hne).mpr (hlisted nb (by simp) hn)
    have hrest : ∀ y ∈ fl.erase pb.addr ++ [A.prologue.addr], a < y ∨ y + 8 ≤ a := by
      intro y hy
      rcases List.mem_append.mp hy with hy | hy
      · exact hnodes y (List.mem_append_left _ (List.mem_of_mem_erase hy))
      · exact hnodes y (List.mem_append_right _ hy)
    rw [rp.coalesceCases_branch, if_neg (by simp [hp]), if_neg (by simp [hn]),
      rp.coalesceBoth_eq hx hy]
    calc (Heap.setTags _ ((pb.join b).join nb)).mem a
        = (removeFreeBlock nb.addr (removeFreeBlock pb.addr h)).mem a := htags _
      _ = (removeFreeBlock pb.addr h).mem a := (r.removed hx).removeFreeBlock_mem hy hrest
      _ = h.mem a := r.removeFreeBlock_mem hx hnodes

/-- `coalesce` writes links of the listed blocks, and from the header of the merged block to its
footer. -/
theorem coalesce_mem (r : Rep A h (pre ++ b :: post) fl) (hm : Merge pre b post left m right gone)
    (hb : b.alloc = false) (hnot : b.addr ∉ fl) (hlisted : Listed (pre ++ post) fl)
    (hnodes : ∀ y ∈ fl ++ [A.prologue.addr], a < y ∨ y + 8 ≤ a)
    (hout : a < m.addr - 4 ∨ m.stop - 4 ≤ a) : (coalesce b.addr h).2.mem a = h.mem a := by
  obtain ⟨h₁, heq, hstep⟩ := Becomes.cases r hm hb hnot hlisted
  have hcases := r.coalesceCases_mem hm hlisted hnodes hout
  rw [heq] at hcases
  have hge := m.size_ge
  simp only [Block.stop] at hout
  have hinsert : (insertFreeBlock m.addr h₁).mem a = h₁.mem a := by
    refine hstep.rep.insertFreeBlock_mem fun y hy => ?_
    rcases List.mem_cons.mp hy with rfl | hy
    · omega
    · rcases List.mem_append.mp hy with hy | hy
      · exact hnodes y (List.mem_append_left _ (List.diff_subset _ _ hy))
      · exact hnodes y (List.mem_append_right _ hy)
  simp only [coalesce, heq]
  exact hinsert.trans hcases

end Rep

namespace WellFormed

variable {A : Arena} {h : Heap} {pre post left right : List Block} {b m : Block} {fl gone : List ℕ}

/-- What `mm_free` leaves alone in a block that it does not merge: the payload, apart from the two
links of a block on the free list. -/
theorem freed_mem (w : WellFormed A h (pre ++ b :: post) fl) (hb : Held A (pre ++ b :: post) b)
    (hm : Merge pre (b.withAlloc false) post left m right gone) {d : Block}
    (hd : d ∈ left ++ right) {a : ℕ} (hlo : d.addr ≤ a) (hhi : a < d.addr + d.size - 8)
    (hlinks : d.addr ∈ fl ++ [A.prologue.addr] → d.addr + 8 ≤ a) :
    (mmFree b.addr h).mem a = h.mem a := by
  have rb := w.marked_free hb
  have hnot := w.notMem_of_held hb
  have hmt := hm.tiles rb.tiles
  have hdm : d ∈ left ++ m :: right := by
    simp only [List.mem_append, List.mem_cons] at hd ⊢
    tauto
  have hapart := hmt.apart hdm (show m ∈ left ++ m :: right by simp) (hmt.addr_ne hd)
  obtain ⟨hbm, hbm'⟩ := rb.merge_bounds hm
  have hdb : d ∈ pre ++ b.withAlloc false :: post := by
    have := (hm.mem_of_mem rb.tiles hd).1
    simp only [List.mem_append, List.mem_cons] at this ⊢
    tauto
  have hds := d.size_ge
  have hms := m.size_ge
  have hbs := b.size_ge
  have hpos := w.rep.bounds hb.mem
  simp only [Block.stop, Block.withAlloc_addr, Block.withAlloc_size] at hapart hbm hbm'
  have hnodes : ∀ y ∈ fl ++ [A.prologue.addr], a < y ∨ y + 8 ≤ a := by
    intro y hy
    obtain ⟨x, hx, rfl⟩ := rb.node_block hy
    have hxs := x.size_ge
    by_cases he : d.addr = x.addr
    · have := hlinks (he ▸ hy)
      omega
    · have := rb.sep hdb hx he
      omega
  have htags : (h.setTags (b.withAlloc false)).mem a = h.mem a := by
    refine setTags_mem h ?_ ?_
    all_goals
      simp only [Block.withAlloc_addr, Block.withAlloc_size]
      omega
  rw [w.mmFree_eq hb.mem, ← htags]
  refine rb.coalesce_mem hm rfl hnot w.listed_around hnodes ?_
  simp only [Block.stop]
  omega

end WellFormed

/-- **What `mm_free` does.**  The block and the free blocks next to it, one on each side at most, become
one free block that covers them, and that becomes the head of the free list, from which its parts are
gone.  All other blocks stay what they are, and so do the bytes of their payloads, links apart. -/
theorem mmFree_coalesces (A : Arena) (c : Client) (hc : (allocatorRuns A).Reachable c) (p n : ℕ)
    (hlive : (p, n) ∈ c.live) :
    ∃ left before b after right m fl,
      Reads A c.heap (left ++ before ++ b :: (after ++ right)) fl ∧ b.addr = p ∧ b.alloc = true ∧
      (before.length ≤ 1 ∧ after.length ≤ 1 ∧ ∀ d ∈ before ++ after, d.alloc = false) ∧
      ((∀ d ∈ left.getLast?, d.alloc = true) ∧ ∀ d ∈ right.head?, d.alloc = true) ∧
      (m.alloc = false ∧ Tiles m.addr (before ++ b :: after) m.stop) ∧
      Reads A (mmFree p c.heap) (left ++ m :: right)
        (m.addr :: fl.filter fun x => x ∉ (before ++ after).map Block.addr) ∧
      ∀ d ∈ left ++ right, ∀ a, d.addr ≤ a → a < d.addr + d.size - 8 →
        (d.addr ∈ fl ++ [A.prologue.addr] → d.addr + 8 ≤ a) →
          (mmFree p c.heap).mem a = c.heap.mem a := by
  obtain ⟨bs, fl, o⟩ := reachable_owned hc
  obtain ⟨b, hb, rfl, -⟩ := o.held_of_live hlive
  have w := o.heap
  obtain ⟨pre, post, rfl⟩ := List.append_of_mem hb.mem
  obtain ⟨left, m, right, gone, hm⟩ :=
    exists_merge (w.ne_nil_of_held hb) (b.withAlloc false) post
  obtain ⟨hw, -, -⟩ := w.freed_merge hb hm
  have hmfree := hm.alloc_eq rfl
  obtain ⟨before, after, rfl, rfl, hbefore, hafter, hfree, rfl, hrun⟩ :=
    hm.absorbed (w.marked_free hb).tiles
  have hco := List.isChain_append.mp hw.coalesced
  have hfilter : fl.diff ((before ++ after).map Block.addr) =
      fl.filter fun x => x ∉ (before ++ after).map Block.addr := w.rep.nodup.sdiff_eq_filter
  refine ⟨left, before, b, after, right, m, fl, w.reads, rfl, hb.alloc, ⟨hbefore, hafter, hfree⟩,
    ⟨fun d hd => ?_, fun d hd => ?_⟩, ⟨hmfree, ?_⟩, ?_, fun d hd a hlo hhi hlinks => ?_⟩
  · exact (hco.2.2 d hd m rfl).resolve_right (by simp [hmfree])
  · cases right with
    | nil => cases hd
    | cons x l =>
      obtain rfl : x = d := by simpa using hd
      exact (List.isChain_cons_cons.mp hco.2.1).1.resolve_left (by simp [hmfree])
  · obtain ⟨r, h1, h2⟩ := tiles_append.mp hrun
    exact tiles_append.mpr ⟨r, h1, h2⟩
  · rw [← hfilter]
    exact hw.reads
  · exact w.freed_mem hb hm hd hlo hhi hlinks

theorem mmFree_coalesces_one : ∃ h left m right, (allocatorRuns lowArena).Reachable ⟨h, [(32, 100)]⟩ ∧
    ∃ fl, Reads lowArena (mmFree 32 h) (left ++ m :: right) (m.addr :: fl) ∧ m.alloc = false := by
  obtain ⟨h, hc, -⟩ := one_block_reachable lowArena (n := 100) (by decide) (by decide) (by decide)
  have hlive : (32, 100) ∈ (⟨h, [(32, 100)]⟩ : Client).live := List.mem_cons_self
  obtain ⟨left, _, _, _, right, m, fl, -, -, -, -, -, hm, hreads, -⟩ :=
    mmFree_coalesces lowArena _ hc 32 100 hlive
  exact ⟨h, left, m, right, hc, _, hreads, hm.1⟩

end SystemProgramming.MallocLab
