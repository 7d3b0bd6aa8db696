import SystemProgramming.MallocLab.FreeList

/-!
# Tag writes and `coalesce`

`Heap.setTags` writes a block's header and footer, the one way the allocator changes a block.
`Merge` is the abstract meaning of `coalesce`: the four cases of absorbing the free neighbours of a
block.  `Rep.coalesce` shows that the code, which re-reads the tags while it rewrites them, computes
exactly that, puts the merged block at the head of the free list, and touches no payload of another
allocated block.
-/

namespace SystemProgramming.MallocLab

open ByteMemory LinkedList

/-! ### Payloads -/

/-- A block handed out to the client. -/
structure Held (A : Arena) (bs : List Block) (c : Block) : Prop where
  mem : c ∈ bs
  alloc : c.alloc = true
  ne : c.addr ≠ A.prologue.addr

theorem Held.ne_of_free {A : Arena} {bs : List Block} {b c : Block} (hc : Held A bs c)
    (hb : b.alloc = false) : c ≠ b := by
  rintro rfl
  rw [hc.alloc] at hb
  cases hb

/-- A held block lies before or after any free one. -/
theorem Held.outside_free {A : Arena} {pre post : List Block} {b c : Block} {s e p q : ℕ}
    (hc : Held A (pre ++ [b] ++ post) c) (hb : b.alloc = false) (hl : Tiles s pre p)
    (hr : Tiles q post e) : c.addr + c.size ≤ p ∨ q ≤ c.addr := by
  have hcm := hc.mem
  simp only [List.mem_append, List.mem_singleton, hc.ne_of_free hb, or_false] at hcm
  rcases hcm with hcm | hcm
  · exact Or.inl (hl.bounds hcm).2
  · exact Or.inr (hr.bounds hcm).1

/-- The payload bytes of `c` are the same in both heaps. -/
def SamePayload (h h' : Heap) (c : Block) : Prop :=
  ∀ a, c.addr ≤ a → a < c.addr + c.size - 8 → h'.mem a = h.mem a

theorem SamePayload.trans {h h' h'' : Heap} {c : Block} (h1 : SamePayload h h' c)
    (h2 : SamePayload h' h'' c) : SamePayload h h'' c :=
  fun a ha ha' => (h2 a ha ha').trans (h1 a ha ha')

/-! ### Writing a header and a footer -/

/-- `PUT` the block's tag into its header and its footer. -/
def Heap.setTags (h : Heap) (b : Block) : Heap :=
  (h.put (b.addr - 4) b.tag).put (b.addr + b.size - 8) b.tag

theorem setTags_mem (h : Heap) {b : Block} {a : ℕ} (h1 : a < b.addr - 4 ∨ b.addr - 4 + 4 ≤ a)
    (h2 : a < b.addr + b.size - 8 ∨ b.addr + b.size - 8 + 4 ≤ a) : (h.setTags b).mem a = h.mem a := by
  show writeWord (writeWord h.mem (b.addr - 4) b.tag) (b.addr + b.size - 8) b.tag a = h.mem a
  rw [writeWord_outside _ _ h2, writeWord_outside _ _ h1]

theorem setTags_tagged (h : Heap) {b : Block} (hlt : b.size < 2 ^ 32) (h4 : 4 ≤ b.addr) :
    Tagged (h.setTags b).mem b := by
  have := b.size_ge
  have ht := Block.tag_lt hlt
  constructor
  · show readWord (writeWord _ (b.addr + b.size - 8) b.tag) (b.addr - 4) = b.tag
    rw [readWord_writeWord_of_disjoint _ _ (by omega)]
    exact readWord_writeWord_of_lt _ _ ht
  · exact readWord_writeWord_of_lt _ _ ht

/-- The footer is found through the header that has just been written. -/
theorem ftrp_put_hdrp (h : Heap) {b : Block} (hlt : b.size < 2 ^ 32) :
    ftrp (h.put (hdrp b.addr) b.tag).mem b.addr = b.addr + b.size - 8 := by
  have h1 : getSize (h.put (hdrp b.addr) b.tag).mem (hdrp b.addr) = b.size :=
    getSize_of_tag (readWord_writeWord_of_lt _ _ (Block.tag_lt hlt))
  rw [ftrp_def, h1, dsize]

/-- The code writes the header and then the footer it finds through it. -/
theorem put_header_footer (h : Heap) {b : Block} (hlt : b.size < 2 ^ 32) :
    (h.put (hdrp b.addr) b.tag).put (ftrp (h.put (hdrp b.addr) b.tag).mem b.addr) b.tag =
      h.setTags b := by
  rw [ftrp_put_hdrp h hlt]
  rfl

theorem put_footer_header (h : Heap) {b : Block} (h4 : 4 ≤ b.addr) :
    (h.put (b.addr + b.size - 8) b.tag).put (b.addr - 4) b.tag = h.setTags b := by
  have := b.size_ge
  simp only [Heap.setTags, Heap.put]
  rw [writeWord_comm _ _ _ (by omega)]

namespace Rep

variable {A : Arena} {h : Heap} {bs pre mid post : List Block} {fl : List ℕ}

/-- A run of unlisted blocks becomes one block when its tags are written. -/
theorem setTags {m : Block} (r : Rep A h (pre ++ mid ++ post) fl) (hpre : pre ≠ []) (hne : mid ≠ [])
    (hm : Tiles m.addr mid m.stop) (hfl : ∀ x ∈ fl, ∀ b ∈ mid, b.addr ≠ x) :
    Rep A (h.setTags m) (pre ++ [m] ++ post) fl := by
  have hge := m.size_ge
  obtain ⟨hl, hr⟩ := r.tiles.split hm hne
  have hlo := hl.le
  have hhi := hr.le
  have hb := r.brk_le
  have := A.bounds
  simp only [Block.stop] at *
  refine r.replace hpre hm hl hr ⟨rfl, rfl⟩ rfl rfl (fun a ha => ?_) (fun b hb' => ?_) hfl
  · exact setTags_mem h (by omega) (by omega)
  · rw [List.mem_singleton.mp hb']
    exact setTags_tagged h (by omega) (by omega)

/-- Writing tags around a run keeps the payloads before and after it. -/
theorem setTags_samePayload {m c : Block} (r : Rep A h (pre ++ mid ++ post) fl) (hne : mid ≠ [])
    (hm : Tiles m.addr mid m.stop) (hc : c ∈ pre ++ post) : SamePayload h (h.setTags m) c := by
  obtain ⟨hl, hr⟩ := r.tiles.split hm hne
  have hout : c.stop ≤ m.addr ∨ m.stop ≤ c.addr := by
    rcases List.mem_append.mp hc with hc | hc
    · exact Or.inl (hl.bounds hc).2
    · exact Or.inr (hr.bounds hc).1
  have := m.size_ge
  have := c.size_ge
  simp only [Block.stop] at hout
  exact fun a h1 h2 => setTags_mem h (by omega) (by omega)

/-- Link words lie outside the payload of a held block. -/
theorem node_payload (r : Rep A h bs fl) {c : Block} (hc : Held A bs c) {y : ℕ}
    (hy : y ∈ fl ++ [A.prologue.addr]) {a : ℕ} (h1 : c.addr ≤ a) (h2 : a < c.addr + c.size - 8) :
    a < y ∨ y + 8 ≤ a := by
  have hne : c.addr ≠ y := by
    rintro rfl
    rcases List.mem_append.mp hy with hy | hy
    · obtain ⟨b, hb, he, hf⟩ := r.free _ hy
      rw [r.tiles.eq_of_addr hb hc.mem he, hc.alloc] at hf
      cases hf
    · exact hc.ne (List.mem_singleton.mp hy)
  obtain ⟨b, hb, rfl⟩ := r.node_block hy
  have := r.sep hc.mem hb hne
  have := b.size_ge
  omega

theorem removeFreeBlock_samePayload (r : Rep A h bs fl) {x : ℕ} (hx : x ∈ fl) {c : Block}
    (hc : Held A bs c) : SamePayload h (removeFreeBlock x h) c :=
  fun _ h1 h2 => r.removeFreeBlock_mem hx fun _ hy => r.node_payload hc hy h1 h2

theorem insertFreeBlock_samePayload (r : Rep A h bs fl) {b : Block} (hb : b ∈ bs)
    (hfree : b.alloc = false) {c : Block} (hc : Held A bs c) :
    SamePayload h (insertFreeBlock b.addr h) c := by
  intro a h1 h2
  apply r.insertFreeBlock_mem
  intro y hy
  rcases List.mem_cons.mp hy with rfl | hy
  · have hne : c.addr ≠ b.addr := by
      intro he
      rw [← r.tiles.eq_of_addr hc.mem hb he, hc.alloc] at hfree
      cases hfree
    have := r.sep hc.mem hb hne
    have := b.size_ge
    omega
  · exact r.node_payload hc hy h1 h2

end Rep

/-! ### What coalescing means -/

/-- `Merge pre b post left m right gone`: absorbing the free neighbours of `b` between `pre` and
`post` gives `m` between `left` and `right`; the blocks at `gone` leave the free list. -/
inductive Merge : List Block → Block → List Block → List Block → Block → List Block → List ℕ → Prop
  | alone {pre post : List Block} {pb b : Block} :
      pb.alloc = true → (∀ nb ∈ post.head?, nb.alloc = true) →
      Merge (pre ++ [pb]) b post (pre ++ [pb]) b post []
  | next {pre post : List Block} {pb b nb : Block} :
      pb.alloc = true → nb.alloc = false →
      Merge (pre ++ [pb]) b (nb :: post) (pre ++ [pb]) (b.join nb) post [nb.addr]
  | prev {pre post : List Block} {pb b : Block} :
      pb.alloc = false → (∀ nb ∈ post.head?, nb.alloc = true) →
      Merge (pre ++ [pb]) b post pre (pb.join b) post [pb.addr]
  | both {pre post : List Block} {pb b nb : Block} :
      pb.alloc = false → nb.alloc = false →
      Merge (pre ++ [pb]) b (nb :: post) pre ((pb.join b).join nb) post [pb.addr, nb.addr]

/-- Any block with a predecessor can be merged. -/
theorem exists_merge {pre : List Block} (hpre : pre ≠ []) (b : Block) (post : List Block) :
    ∃ left m right gone, Merge pre b post left m right gone := by
  obtain ⟨pre, pb, rfl⟩ : ∃ l c, pre = l ++ [c] :=
    ⟨pre.dropLast, pre.getLast hpre, (List.dropLast_append_getLast hpre).symm⟩
  cases hp : pb.alloc <;> cases post with
  | nil => first
    | exact ⟨_, _, _, _, Merge.alone hp (by simp)⟩
    | exact ⟨_, _, _, _, Merge.prev hp (by simp)⟩
  | cons nb post =>
    cases hn : nb.alloc
    all_goals first
      | exact ⟨_, _, _, _, Merge.both hp hn⟩
      | exact ⟨_, _, _, _, Merge.next hp hn⟩
      | exact ⟨_, _, _, _, Merge.alone hp (by simp [hn])⟩
      | exact ⟨_, _, _, _, Merge.prev hp (by simp [hn])⟩

namespace Merge

variable {pre post left right : List Block} {b m : Block} {gone : List ℕ}

theorem addr_cases (hm : Merge pre b post left m right gone) : m.addr = b.addr ∨ m.addr ∈ gone := by
  cases hm <;> simp

theorem alloc_eq (hm : Merge pre b post left m right gone) (hb : b.alloc = false) :
    m.alloc = false := by
  cases hm <;> first | exact hb | rfl

/-- The allocated blocks around the merged block are those around the original. -/
theorem mem_alloc_iff (hm : Merge pre b post left m right gone) {c : Block} (hc : c.alloc = true) :
    c ∈ left ++ right ↔ c ∈ pre ++ post := by
  cases hm with
  | alone => rfl
  | next _ hn =>
    have : c ≠ _ := fun he => by rw [he, hn] at hc; cases hc
    simp [this]
  | prev hp _ =>
    have : c ≠ _ := fun he => by rw [he, hp] at hc; cases hc
    simp [this]
  | both hp hn =>
    have h1 : c ≠ _ := fun he => by rw [he, hp] at hc; cases hc
    have h2 : c ≠ _ := fun he => by rw [he, hn] at hc; cases hc
    simp [h1, h2]

/-- A block that is not the merged one was there before and is not one of the absorbed ones. -/
theorem mem_of_mem (hm : Merge pre b post left m right gone) {p q : ℕ}
    (ht : Tiles p (pre ++ b :: post) q) {c : Block} (hc : c ∈ left ++ right) :
    c ∈ pre ++ post ∧ c.addr ∉ gone := by
  cases hm with
  | alone => exact ⟨hc, List.not_mem_nil⟩
  | @next pre _ pb _ nb =>
    have hnb : Tiles p ((pre ++ [pb, b]) ++ nb :: right) q := by simpa using ht
    refine ⟨by simp only [List.mem_append, List.mem_cons] at hc ⊢; tauto, fun hg => ?_⟩
    refine hnb.addr_ne ?_ (List.mem_singleton.mp hg)
    simp only [List.mem_append, List.mem_cons] at hc ⊢
    tauto
  | @prev _ _ pb _ =>
    have hpb : Tiles p (left ++ pb :: (b :: post)) q := by simpa using ht
    refine ⟨by simp only [List.mem_append, List.mem_cons] at hc ⊢; tauto, fun hg => ?_⟩
    refine hpb.addr_ne ?_ (List.mem_singleton.mp hg)
    simp only [List.mem_append, List.mem_cons] at hc ⊢
    tauto
  | @both _ _ pb _ nb =>
    have hnb : Tiles p ((left ++ [pb, b]) ++ nb :: right) q := by simpa using ht
    have hpb : Tiles p (left ++ pb :: (b :: nb :: right)) q := by simpa using ht
    refine ⟨by simp only [List.mem_append, List.mem_cons] at hc ⊢; tauto, fun hg => ?_⟩
    rw [List.mem_append] at hc
    rcases List.mem_pair.mp hg with hg | hg
    · refine hpb.addr_ne ?_ hg
      simp only [List.mem_append, List.mem_cons]
      tauto
    · refine hnb.addr_ne ?_ hg
      simp only [List.mem_append, List.mem_cons]
      tauto

/-- Blocks in the client's hands are not merged. -/
theorem held {A : Arena} (hm : Merge pre b post left m right gone) (hb : b.alloc = false) {c : Block}
    (hc : Held A (pre ++ b :: post) c) : Held A (left ++ m :: right) c := by
  have hne := hc.ne_of_free hb
  refine ⟨?_, hc.alloc, hc.ne⟩
  have hin : c ∈ pre ++ post := by
    have := hc.mem
    simp only [List.mem_append, List.mem_cons] at this ⊢
    tauto
  have := (hm.mem_alloc_iff hc.alloc).mpr hin
  simp only [List.mem_append, List.mem_cons] at this ⊢
  tauto

/-- The merged run still tiles the same interval. -/
theorem tiles (hm : Merge pre b post left m right gone) {p q : ℕ}
    (ht : Tiles p (pre ++ b :: post) q) : Tiles p (left ++ m :: right) q := by
  cases hm with
  | alone => exact ht
  | next =>
    obtain ⟨r, h1, h2⟩ := tiles_append.mp ht
    refine tiles_append.mpr ⟨r, h1, h2.1, ?_⟩
    rw [Block.join_stop _ _ h2.2.1.symm]
    exact h2.2.2
  | prev =>
    rw [List.append_assoc] at ht
    obtain ⟨r, h1, h2⟩ := tiles_append.mp ht
    refine tiles_append.mpr ⟨r, h1, h2.1, ?_⟩
    rw [Block.join_stop _ _ h2.2.1.symm]
    exact h2.2.2
  | both =>
    rw [List.append_assoc] at ht
    obtain ⟨r, h1, h2⟩ := tiles_append.mp ht
    have h3 := Block.join_stop _ _ h2.2.1.symm
    refine tiles_append.mpr ⟨r, h1, h2.1, ?_⟩
    rw [Block.join_stop _ _ (by rw [h3]; exact h2.2.2.1.symm)]
    exact h2.2.2.2

/-- Merging removes the only place where two free blocks could touch. -/
theorem coalesced (hm : Merge pre b post left m right gone) (hpre : Coalesced pre)
    (hpost : Coalesced post) : Coalesced (left ++ m :: right) := by
  unfold Coalesced at *
  cases hm with
  | alone hp hn =>
    rw [List.isChain_append] at hpre ⊢
    refine ⟨List.isChain_append.mpr hpre, ?_, by simp [hp]⟩
    cases post with
    | nil => exact List.isChain_singleton _
    | cons c l => exact List.isChain_cons_cons.mpr ⟨Or.inr (hn c rfl), hpost⟩
  | next hp hn =>
    rw [List.isChain_append] at hpre ⊢
    refine ⟨List.isChain_append.mpr hpre, ?_, by simp [hp]⟩
    cases right with
    | nil => exact List.isChain_singleton _
    | cons c l =>
      rw [List.isChain_cons_cons] at hpost ⊢
      exact ⟨Or.inr (hpost.1.resolve_left (by simp [hn])), hpost.2⟩
  | prev hp hn =>
    rw [List.isChain_append] at hpre ⊢
    refine ⟨hpre.1, ?_, fun c hc d hd => ?_⟩
    · cases post with
      | nil => exact List.isChain_singleton _
      | cons c l => exact List.isChain_cons_cons.mpr ⟨Or.inr (hn c rfl), hpost⟩
    · exact Or.inl ((hpre.2.2 c hc _ rfl).resolve_right (by simp [hp]))
  | both hp hn =>
    rw [List.isChain_append] at hpre ⊢
    refine ⟨hpre.1, ?_, fun c hc d hd => ?_⟩
    · cases right with
      | nil => exact List.isChain_singleton _
      | cons c l =>
        rw [List.isChain_cons_cons] at hpost ⊢
        exact ⟨Or.inr (hpost.1.resolve_left (by simp [hn])), hpost.2⟩
    · exact Or.inl ((hpre.2.2 c hc _ rfl).resolve_right (by simp [hp]))

end Merge

/-! ### The code merges -/

namespace Rep

variable {A : Arena} {h : Heap} {bs pre post left right : List Block} {b m : Block}
  {fl gone : List ℕ}

theorem stop_eq_addr {a c : Block} {pre' : List Block} (r : Rep A h (pre' ++ a :: c :: post) fl) :
    a.stop = c.addr := by
  obtain ⟨_, _, ht⟩ := tiles_append.mp r.tiles
  exact ht.2.1.symm

/-- `PREV_BLKP` on a represented heap. -/
theorem prevBlkp_at {a : Block} {pre' : List Block} (r : Rep A h (pre' ++ a :: b :: post) fl) :
    prevBlkp h.mem b.addr = a.addr := by
  rw [← r.stop_eq_addr]
  exact r.prevBlkp_eq (by simp)

/-- The allocated bit found through `NEXT_BLKP`: that of the next block, or of the epilogue. -/
theorem nextAlloc_eq (r : Rep A h (pre ++ b :: post) fl) :
    getAlloc h.mem (hdrp (nextBlkp h.mem b.addr)) =
      match post with
      | [] => 1
      | nb :: _ => nb.alloc.toNat := by
  rw [r.nextBlkp_eq (by simp)]
  cases post with
  | nil =>
    obtain ⟨_, _, ht⟩ := tiles_append.mp r.tiles
    rw [tiles_nil.mp ht.2, r.getAlloc_epilogue]
  | cons nb post => rw [r.stop_eq_addr, r.getAlloc_hdrp (by simp)]

theorem prevAlloc_eq {a : Block} {pre' : List Block} (r : Rep A h (pre' ++ a :: b :: post) fl) :
    getAlloc h.mem (ftrp h.mem (prevBlkp h.mem b.addr)) = a.alloc.toNat := by
  rw [r.prevBlkp_at, r.getAlloc_ftrp (by simp)]

/-- The size a merge writes does not wrap. -/
theorem join_size_lt {a c : Block} {pre' : List Block} (r : Rep A h (pre' ++ a :: c :: post) fl) :
    a.size + c.size < 2 ^ 32 := by
  have h1 : a.addr + a.size = c.addr := r.stop_eq_addr
  have h2 := r.bounds (b := c) (by simp)
  omega

/-- Case 2: the next block is free. -/
theorem coalesceNext_eq {nb : Block} (r : Rep A h (pre ++ b :: nb :: post) fl) :
    coalesceNext b.addr h =
      (b.addr, (removeFreeBlock nb.addr h).setTags (b.join nb)) := by
  have hb := r.getSize_hdrp (b := b) (by simp)
  have hn := r.getSize_hdrp (b := nb) (by simp)
  have hstop : nextBlkp h.mem b.addr = nb.addr := by
    rw [r.nextBlkp_eq (by simp), r.stop_eq_addr]
  have hlt := r.join_size_lt
  have htag : pack ((b.size + nb.size) % 2 ^ 32) 0 = (b.join nb).tag := by
    rw [Nat.mod_eq_of_lt hlt]
    rfl
  simp only [coalesceNext, hstop, hb, hn, htag]
  exact congrArg _ (put_header_footer _ (b := b.join nb) hlt)

/-- In case 3 the tags of the merged block are written around the footer before `b`, which no longer
delimits a block but still holds the old size. -/
theorem prevBlkp_after_tags {pb : Block} (r : Rep A h (pre ++ pb :: b :: post) fl) (v w : ℕ) :
    prevBlkp (h.put (b.addr + b.size - 8) v).mem b.addr = pb.addr ∧
      prevBlkp ((h.put (b.addr + b.size - 8) v).put (hdrp pb.addr) w).mem b.addr = pb.addr := by
  have hstop : pb.addr + pb.size = b.addr := r.stop_eq_addr
  have hpos := r.bounds (b := pb) (by simp)
  have hge := b.size_ge
  have hge' := pb.size_ge
  have hread : ∀ k : Heap, readWord k.mem (b.addr - 8) = readWord h.mem (b.addr - 8) →
      prevBlkp k.mem b.addr = pb.addr := by
    intro k hk
    rw [← r.prevBlkp_at]
    simp only [prevBlkp_def, getSize, get, dsize, hk]
  have hf : b.addr - 8 + 4 ≤ b.addr + b.size - 8 ∨ b.addr + b.size - 8 + 4 ≤ b.addr - 8 := by omega
  have hh : b.addr - 8 + 4 ≤ hdrp pb.addr ∨ hdrp pb.addr + 4 ≤ b.addr - 8 := by
    simp only [hdrp_def, wsize]
    omega
  constructor
  · exact hread _ (readWord_writeWord_of_disjoint _ _ hf)
  · exact hread _ ((readWord_writeWord_of_disjoint _ _ hh).trans
      (readWord_writeWord_of_disjoint _ _ hf))

/-- Case 3: the previous block is free.  `PREV_BLKP` is read again after each tag write. -/
theorem coalescePrev_eq {pb : Block} (r : Rep A h (pre ++ pb :: b :: post) fl)
    (hx : pb.addr ∈ fl) :
    coalescePrev b.addr h =
      (pb.addr, (removeFreeBlock pb.addr h).setTags (pb.join b)) := by
  have r' := r.removed hx
  have hb := r.getSize_hdrp (b := b) (by simp)
  have hp := r.getSize_hdrp (b := pb) (by simp)
  have hprev := r.prevBlkp_at
  have hftrp := r'.ftrp_eq (b := b) (by simp)
  have hstop : pb.addr + pb.size = b.addr := r.stop_eq_addr
  have hlt := r.join_size_lt
  have hpos := r.bounds (b := pb) (by simp)
  have htag : pack ((b.size + pb.size) % 2 ^ 32) 0 = (pb.join b).tag := by
    rw [Nat.add_comm, Nat.mod_eq_of_lt hlt]
    rfl
  obtain ⟨h1, h2⟩ := r'.prevBlkp_after_tags (pb.join b).tag (pb.join b).tag
  have hend : b.addr + b.size - 8 = (pb.join b).addr + (pb.join b).size - 8 := by
    simp only [Block.join_addr, Block.join_size]
    omega
  simp only [coalescePrev, hprev, hb, hp, htag, hftrp, h1, h2]
  rw [hend]
  exact congrArg _ (put_footer_header (b := pb.join b) _ (by simp only [Block.join_addr]; omega))

/-- In case 4 the header of the previous block is written first; the tags of the two blocks after it
are still in place, and the footer write leaves the footer before `b` alone. -/
theorem reads_after_header {pb nb : Block} (r : Rep A h (pre ++ pb :: b :: nb :: post) fl)
    (v w : ℕ) :
    nextBlkp (h.put (hdrp pb.addr) v).mem b.addr = nb.addr ∧
      ftrp (h.put (hdrp pb.addr) v).mem nb.addr = nb.addr + nb.size - 8 ∧
      prevBlkp ((h.put (hdrp pb.addr) v).put (nb.addr + nb.size - 8) w).mem b.addr = pb.addr := by
  have rs : Rep A h ((pre ++ [pb]) ++ b :: nb :: post) fl := by simpa using r
  have hstop : pb.addr + pb.size = b.addr := r.stop_eq_addr
  have hstop' : b.addr + b.size = nb.addr := rs.stop_eq_addr
  have hpos := r.bounds (b := pb) (by simp)
  have hge := pb.size_ge
  have hge' := b.size_ge
  have hge'' := nb.size_ge
  have hread : ∀ p, pb.addr ≤ p → get (h.put (hdrp pb.addr) v).mem p = get h.mem p := by
    intro p hp
    exact readWord_writeWord_of_disjoint _ _ (by simp only [hdrp_def, wsize]; omega)
  refine ⟨?_, ?_, ?_⟩
  · rw [nextBlkp_def, getSize, hread (b.addr - wsize) (by simp only [wsize]; omega), ← hstop']
    exact congrArg _ (r.getSize_hdrp (b := b) (by simp))
  · rw [ftrp_def, getSize, hread (hdrp nb.addr) (by simp only [hdrp_def, wsize]; omega),
      ← r.ftrp_eq (b := nb) (by simp)]
    rfl
  · have hfar : get ((h.put (hdrp pb.addr) v).put (nb.addr + nb.size - 8) w).mem (b.addr - dsize) =
        get h.mem (b.addr - dsize) := by
      rw [← hread (b.addr - dsize) (by simp only [dsize]; omega)]
      exact readWord_writeWord_of_disjoint _ _ (by simp only [dsize]; omega)
    rw [prevBlkp_def, getSize, hfar]
    exact r.prevBlkp_at

/-- Case 4: both neighbours are free. -/
theorem coalesceBoth_eq {pb nb : Block} (r : Rep A h (pre ++ pb :: b :: nb :: post) fl)
    (hx : pb.addr ∈ fl) (hy : nb.addr ∈ fl.erase pb.addr) :
    coalesceBoth b.addr h =
      (pb.addr, (removeFreeBlock nb.addr (removeFreeBlock pb.addr h)).setTags
        ((pb.join b).join nb)) := by
  have r₁ := r.removed hx
  have r₂ := r₁.removed hy
  obtain ⟨hr₁, hr₂, hr₃⟩ :=
    r₂.reads_after_header ((pb.join b).join nb).tag ((pb.join b).join nb).tag
  have hb := r.getSize_hdrp (b := b) (by simp)
  have hp := r.getSize_hdrp (b := pb) (by simp)
  have hn := r.getSize_ftrp (b := nb) (by simp)
  have hprev := r.prevBlkp_at
  have hprev₂ := r₂.prevBlkp_at
  have rs : Rep A h ((pre ++ [pb]) ++ b :: nb :: post) fl := by simpa using r
  have hstop : pb.addr + pb.size = b.addr := r.stop_eq_addr
  have hstop' : b.addr + b.size = nb.addr := rs.stop_eq_addr
  have hnext : nextBlkp h.mem b.addr = nb.addr := by rw [r.nextBlkp_eq (by simp)]; exact hstop'
  have hnext₁ : nextBlkp (removeFreeBlock pb.addr h).mem b.addr = nb.addr := by
    rw [r₁.nextBlkp_eq (by simp)]
    exact hstop'
  have hlast := r.bounds (b := nb) (by simp)
  have htag : pack ((b.size + (pb.size + nb.size)) % 2 ^ 32) 0 = ((pb.join b).join nb).tag := by
    rw [Nat.mod_eq_of_lt (by omega),
      show b.size + (pb.size + nb.size) = pb.size + b.size + nb.size by omega]
    rfl
  have hend : nb.addr + nb.size - 8 =
      ((pb.join b).join nb).addr + ((pb.join b).join nb).size - 8 := by
    simp only [Block.join_addr, Block.join_size]
    omega
  simp only [coalesceBoth, hprev, hb, hp, hnext, hn, htag, hnext₁, hprev₂, hr₁, hr₂, hr₃]
  rw [hend]
  rfl

theorem coalesceCases_branch {pb : Block} (r : Rep A h (pre ++ pb :: b :: post) fl) :
    coalesceCases b.addr h =
      if pb.alloc = true then
        if ∀ nb ∈ post.head?, nb.alloc = true then (b.addr, h) else coalesceNext b.addr h
      else if ∀ nb ∈ post.head?, nb.alloc = true then coalescePrev b.addr h
      else coalesceBoth b.addr h := by
  have rs : Rep A h ((pre ++ [pb]) ++ b :: post) fl := by simpa using r
  have hn := rs.nextAlloc_eq
  rw [coalesceCases]
  simp only [r.prevAlloc_eq, hn]
  cases post with
  | nil => cases pb.alloc <;> simp
  | cons nb post => cases pb.alloc <;> cases hnb : nb.alloc <;> simp [hnb]

/-- The prologue is allocated, so a free block is not the first one. -/
theorem ne_nil_of_free {pb : Block} (r : Rep A h (pre ++ pb :: post) fl) (hp : pb.alloc = false) :
    pre ≠ [] := by
  rintro rfl
  have h1 := r.prologue
  rw [List.nil_append, List.head?_cons, Option.some.injEq] at h1
  rw [h1] at hp
  cases hp

end Rep

/-! ### Steps between represented heaps -/

/-- `h'` represents `bs'` and `fl'`, at the same break, and the client's payloads are untouched. -/
structure Becomes (A : Arena) (h h' : Heap) (bs bs' : List Block) (fl' : List ℕ) : Prop where
  rep : Rep A h' bs' fl'
  brk : h'.memBrk = h.memBrk
  listp : h'.heapListp = h.heapListp
  same : ∀ c, Held A bs c → SamePayload h h' c

namespace Becomes

variable {A : Arena} {h h' h'' : Heap} {bs bs' bs'' pre mid post left right : List Block}
  {b m : Block} {fl fl' fl'' gone : List ℕ}

theorem refl (r : Rep A h bs fl) : Becomes A h h bs bs fl :=
  ⟨r, rfl, rfl, fun _ _ _ _ _ => rfl⟩

/-- Two steps compose when the held blocks of the first are still held at the second. -/
theorem trans (h1 : Becomes A h h' bs bs' fl') (h2 : Becomes A h' h'' bs' bs'' fl'')
    (hheld : ∀ c, Held A bs c → Held A bs' c) : Becomes A h h'' bs bs'' fl'' :=
  ⟨h2.rep, h2.brk.trans h1.brk, h2.listp.trans h1.listp,
    fun c hc => (h1.same c hc).trans (h2.same c (hheld c hc))⟩

theorem removed (r : Rep A h bs fl) {x : ℕ} (hx : x ∈ fl) :
    Becomes A h (removeFreeBlock x h) bs bs (fl.erase x) :=
  ⟨r.removed hx, (r.removeFreeBlock_brk hx).1, (r.removeFreeBlock_brk hx).2,
    fun _ hc => r.removeFreeBlock_samePayload hx hc⟩

theorem inserted (r : Rep A h bs fl) (hb : b ∈ bs) (hfree : b.alloc = false) (hnot : b.addr ∉ fl) :
    Becomes A h (insertFreeBlock b.addr h) bs bs (b.addr :: fl) :=
  ⟨r.inserted hb hfree hnot, (r.insertFreeBlock_brk _).1, (r.insertFreeBlock_brk _).2,
    fun _ hc => r.insertFreeBlock_samePayload hb hfree hc⟩

/-- Free unlisted blocks become one block. -/
theorem tagged (r : Rep A h (pre ++ mid ++ post) fl) (hpre : pre ≠ []) (hne : mid ≠ [])
    (hm : Tiles m.addr mid m.stop) (hfree : ∀ c ∈ mid, c.alloc = false)
    (hfl : ∀ c ∈ mid, c.addr ∉ fl) :
    Becomes A h (h.setTags m) (pre ++ mid ++ post) (pre ++ [m] ++ post) fl := by
  have hfl' : ∀ x ∈ fl, ∀ c ∈ mid, c.addr ≠ x := fun x hx c hc he => hfl c hc (he ▸ hx)
  refine ⟨r.setTags hpre hne hm hfl', rfl, rfl, fun c hc => r.setTags_samePayload hne hm ?_⟩
  have hcm := hc.mem
  have hnot : c ∉ mid := by
    intro hin
    have := hfree c hin
    rw [hc.alloc] at this
    cases this
  simp only [List.mem_append] at hcm ⊢
  tauto

/-- **The four cases compute the merge**, before the merged block is inserted. -/
theorem cases (r : Rep A h (pre ++ b :: post) fl) (hm : Merge pre b post left m right gone)
    (hb : b.alloc = false) (hnot : b.addr ∉ fl) (hlisted : Listed (pre ++ post) fl) :
    ∃ h', coalesceCases b.addr h = (m.addr, h') ∧
      Becomes A h h' (pre ++ b :: post) (left ++ m :: right) (fl.diff gone) := by
  have hnot' : ∀ x, b.addr ∉ fl.erase x := fun x hx => hnot (List.mem_of_mem_erase hx)
  cases hm with
  | @alone pre _ pb _ hp hn =>
    have rp : Rep A h (pre ++ pb :: b :: post) fl := by simpa using r
    refine ⟨h, ?_, refl r⟩
    rw [rp.coalesceCases_branch, if_pos hp, if_pos hn]
  | @next pre _ pb _ nb hp hn =>
    have rp : Rep A h (pre ++ pb :: b :: nb :: right) fl := by simpa using r
    have hx : nb.addr ∈ fl := hlisted nb (by simp) hn
    have hrun : Tiles (b.join nb).addr [b, nb] (b.join nb).stop :=
      ⟨rfl, r.stop_eq_addr.symm, (Block.join_stop _ _ r.stop_eq_addr).symm⟩
    have e : pre ++ [pb] ++ b :: nb :: right = pre ++ [pb] ++ [b, nb] ++ right := by simp
    refine ⟨(removeFreeBlock nb.addr h).setTags (b.join nb), ?_, ?_⟩
    · rw [rp.coalesceCases_branch, if_pos hp, if_neg (by simp [hn]), r.coalesceNext_eq]
      rfl
    · rw [e] at r ⊢
      have hstep := removed r hx
      have htag := tagged hstep.rep (by simp) (by simp) hrun (by simp [hb, hn])
        (by simp [hnot', r.nodup.not_mem_erase])
      simpa using hstep.trans htag fun _ hc => hc
  | @prev left _ pb _ hp hn =>
    have rp : Rep A h (left ++ pb :: b :: post) fl := by simpa using r
    have hx : pb.addr ∈ fl := hlisted pb (by simp) hp
    have hrun : Tiles (pb.join b).addr [pb, b] (pb.join b).stop :=
      ⟨rfl, rp.stop_eq_addr.symm, (Block.join_stop _ _ rp.stop_eq_addr).symm⟩
    have hleft := rp.ne_nil_of_free hp
    have e : left ++ [pb] ++ b :: post = left ++ [pb, b] ++ post := by simp
    refine ⟨(removeFreeBlock pb.addr h).setTags (pb.join b), ?_, ?_⟩
    · rw [rp.coalesceCases_branch, if_neg (by simp [hp]), if_pos hn, rp.coalescePrev_eq hx]
      rfl
    · rw [e] at r ⊢
      have hstep := removed r hx
      have htag := tagged hstep.rep hleft (by simp) hrun (by simp [hb, hp])
        (by simp [hnot', r.nodup.not_mem_erase])
      simpa using hstep.trans htag fun _ hc => hc
  | @both left _ pb _ nb hp hn =>
    have rp : Rep A h (left ++ pb :: b :: nb :: right) fl := by simpa using r
    have hx : pb.addr ∈ fl := hlisted pb (by simp) hp
    have hne : nb.addr ≠ pb.addr := rp.tiles.addr_ne (by simp)
    have hy : nb.addr ∈ fl.erase pb.addr :=
      (List.mem_erase_of_ne hne).mpr (hlisted nb (by simp) hn)
    have hj := Block.join_stop _ _ rp.stop_eq_addr
    have hrun : Tiles ((pb.join b).join nb).addr [pb, b, nb] ((pb.join b).join nb).stop := by
      refine ⟨rfl, rp.stop_eq_addr.symm, r.stop_eq_addr.symm, ?_⟩
      exact (Block.join_stop _ _ (hj.trans r.stop_eq_addr)).symm
    have hleft := rp.ne_nil_of_free hp
    have e : left ++ [pb] ++ b :: nb :: right = left ++ [pb, b, nb] ++ right := by simp
    refine ⟨(removeFreeBlock nb.addr (removeFreeBlock pb.addr h)).setTags ((pb.join b).join nb),
      ?_, ?_⟩
    · rw [rp.coalesceCases_branch, if_neg (by simp [hp]), if_neg (by simp [hn]),
        rp.coalesceBoth_eq hx hy]
      rfl
    · rw [e] at r ⊢
      have hstep := removed r hx
      have hstep' := hstep.trans (removed hstep.rep hy) fun _ hc => hc
      have htag := tagged hstep'.rep hleft (by simp) hrun (by simp [hb, hp, hn])
        (by
          have h1 := (r.nodup.erase pb.addr).not_mem_erase (a := nb.addr)
          have h2 : pb.addr ∉ (fl.erase pb.addr).erase nb.addr :=
            fun hin => r.nodup.not_mem_erase (List.mem_of_mem_erase hin)
          have h3 : b.addr ∉ (fl.erase pb.addr).erase nb.addr :=
            fun hin => hnot' _ (List.mem_of_mem_erase hin)
          simp [h1, h2, h3])
      simpa using hstep'.trans htag fun _ hc => hc

/-- **`coalesce`.**  The merged block replaces its parts and becomes the head of the free list. -/
theorem coalesced (r : Rep A h (pre ++ b :: post) fl) (hm : Merge pre b post left m right gone)
    (hb : b.alloc = false) (hnot : b.addr ∉ fl) (hlisted : Listed (pre ++ post) fl) :
    ∃ h', coalesce b.addr h = (m.addr, h') ∧
      Becomes A h h' (pre ++ b :: post) (left ++ m :: right) (m.addr :: fl.diff gone) := by
  obtain ⟨h₁, heq, hstep⟩ := Becomes.cases r hm hb hnot hlisted
  have hout : m.addr ∉ fl.diff gone := by
    rw [r.nodup.mem_sdiff_iff]
    rintro ⟨hin, hg⟩
    rcases hm.addr_cases with he | he
    · exact hnot (he ▸ hin)
    · exact hg he
  have hins := inserted hstep.rep (b := m) (by simp) (hm.alloc_eq hb) hout
  refine ⟨insertFreeBlock m.addr h₁, ?_, hstep.trans hins fun c hc => ?_⟩
  · simp only [coalesce, heq]
  · exact hm.held hb hc

end Becomes

/-- The result of a merge satisfies the invariant between calls. -/
theorem WellFormed.of_merge {A : Arena} {h h' : Heap} {pre post left right : List Block}
    {b m : Block} {fl gone : List ℕ} (hm : Merge pre b post left m right gone)
    (r : Rep A h (pre ++ b :: post) fl)
    (hstep : Becomes A h h' (pre ++ b :: post) (left ++ m :: right) (m.addr :: fl.diff gone))
    (hlisted : Listed (pre ++ post) fl) (hpre : Coalesced pre) (hpost : Coalesced post)
    (hlistp : h.heapListp = A.prologue.addr) :
    WellFormed A h' (left ++ m :: right) (m.addr :: fl.diff gone) := by
  refine ⟨hstep.rep, fun c hc hfree => ?_, hm.coalesced hpre hpost, hstep.listp.trans hlistp⟩
  have hc' : c = m ∨ c ∈ left ++ right := by
    simp only [List.mem_append, List.mem_cons] at hc ⊢
    tauto
  rcases hc' with rfl | hc'
  · exact List.mem_cons_self
  · obtain ⟨h1, h2⟩ := hm.mem_of_mem r.tiles hc'
    exact List.mem_cons_of_mem _ (r.nodup.mem_sdiff_iff.mpr ⟨hlisted c h1 hfree, h2⟩)

end SystemProgramming.MallocLab
