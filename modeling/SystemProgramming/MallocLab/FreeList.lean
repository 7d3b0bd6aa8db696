import SystemProgramming.MallocLab.HeapInvariant

/-!
# The two edits of the free list

`insert_free_block` and `remove_free_block` write link words only.  On a represented heap they are
the list operations `x :: fl` and `fl.erase x`, and they change no byte outside the two link words
of the list's nodes (`insertFreeBlock_mem`, `removeFreeBlock_mem`).
-/

namespace SystemProgramming.MallocLab

open ByteMemory LinkedList

/-! ### Link words -/

/-- Two nodes are the same or a whole smallest block apart. -/
def Apart (x y : ℕ) : Prop := x = y ∨ x + 16 ≤ y ∨ y + 16 ≤ x

theorem nextFreeBlkp_lt (m : Mem) (x : ℕ) : nextFreeBlkp m x < 2 ^ 32 := readWord_lt m x

theorem prevFreeBlkp_lt (m : Mem) (x : ℕ) : prevFreeBlkp m x < 2 ^ 32 := readWord_lt m (x + wsize)

theorem nextFreeBlkp_setNext (m : Mem) {x y v : ℕ} (hv : v < 2 ^ 32) (h : Apart x y) :
    nextFreeBlkp (writeWord m x v) y = if x = y then v else nextFreeBlkp m y := by
  unfold nextFreeBlkp
  split
  · rename_i he
    rw [he, readWord_writeWord_of_lt _ _ hv]
  · exact readWord_writeWord_of_disjoint _ _ (by unfold Apart at h; omega)

theorem nextFreeBlkp_setPrev (m : Mem) {x y : ℕ} (v : ℕ) (h : Apart x y) :
    nextFreeBlkp (writeWord m (x + wsize) v) y = nextFreeBlkp m y :=
  readWord_writeWord_of_disjoint _ _ (by unfold Apart at h; unfold wsize; omega)

theorem prevFreeBlkp_setNext (m : Mem) {x y : ℕ} (v : ℕ) (h : Apart x y) :
    prevFreeBlkp (writeWord m x v) y = prevFreeBlkp m y := by
  rw [prevFreeBlkp_def, prevFreeBlkp_def]
  exact readWord_writeWord_of_disjoint _ _ (by unfold Apart at h; unfold wsize; omega)

theorem prevFreeBlkp_setPrev (m : Mem) {x y v : ℕ} (hv : v < 2 ^ 32) (h : Apart x y) :
    prevFreeBlkp (writeWord m (x + wsize) v) y = if x = y then v else prevFreeBlkp m y := by
  rw [prevFreeBlkp_def, prevFreeBlkp_def]
  split
  · rename_i he
    rw [he, readWord_writeWord_of_lt _ _ hv]
  · exact readWord_writeWord_of_disjoint _ _ (by unfold Apart at h; unfold wsize; omega)

/-! ### Straight-line effects -/

/-- The memory after unlinking `x`, with both links of `x` read before the first write. -/
def unlinkMem (m : Mem) (x : ℕ) : Mem :=
  let m' := if prevFreeBlkp m x ≠ 0 then writeWord m (prevFreeBlkp m x) (nextFreeBlkp m x) else m
  if nextFreeBlkp m x ≠ 0 then writeWord m' (nextFreeBlkp m x + wsize) (prevFreeBlkp m x) else m'

/-- The code reads the links of `x` again after the first write; nothing has changed by then. -/
theorem removeFreeBlock_apart (h : Heap) (x : ℕ)
    (hP : prevFreeBlkp h.mem x ≠ 0 → Apart (prevFreeBlkp h.mem x) x ∧ prevFreeBlkp h.mem x ≠ x) :
    removeFreeBlock x h =
      { h with
        mem := unlinkMem h.mem x
        freelistHead :=
          if prevFreeBlkp h.mem x = 0 then nextFreeBlkp h.mem x else h.freelistHead } := by
  by_cases h0 : prevFreeBlkp h.mem x = 0
  · simp only [removeFreeBlock, unlinkMem, h0, ne_eq, not_true_eq_false, if_false, if_true]
    split <;> rfl
  · obtain ⟨hap, hne⟩ := hP h0
    have h1 : nextFreeBlkp (writeWord h.mem (prevFreeBlkp h.mem x) (nextFreeBlkp h.mem x)) x =
        nextFreeBlkp h.mem x := by
      rw [nextFreeBlkp_setNext _ (nextFreeBlkp_lt _ _) hap, if_neg hne]
    have h2 := prevFreeBlkp_setNext h.mem (nextFreeBlkp h.mem x) hap
    simp only [removeFreeBlock, unlinkMem, Heap.setNextFreeBlkp, setPrevFreeBlkp_def, Heap.put, h0,
      ne_eq, not_false_eq_true, if_true, if_false, h1, h2]
    split <;> rfl

theorem nextFreeBlkp_unlinkMem (m : Mem) {x y : ℕ}
    (hP : prevFreeBlkp m x ≠ 0 → Apart (prevFreeBlkp m x) y)
    (hN : nextFreeBlkp m x ≠ 0 → Apart (nextFreeBlkp m x) y) :
    nextFreeBlkp (unlinkMem m x) y =
      if prevFree m x = some y then nextFreeBlkp m x else nextFreeBlkp m y := by
  have key : nextFreeBlkp (unlinkMem m x) y = nextFreeBlkp
      (if prevFreeBlkp m x ≠ 0 then writeWord m (prevFreeBlkp m x) (nextFreeBlkp m x) else m) y := by
    unfold unlinkMem
    dsimp only
    split
    · rename_i hn
      exact nextFreeBlkp_setPrev _ _ (hN hn)
    · rfl
  rw [key, prevFree]
  by_cases h0 : prevFreeBlkp m x = 0
  · simp [h0, ptr_zero]
  · rw [if_pos h0, nextFreeBlkp_setNext _ (nextFreeBlkp_lt _ _) (hP h0), ptr_of_ne h0]
    simp only [Option.some.injEq]

theorem prevFreeBlkp_unlinkMem (m : Mem) {x y : ℕ}
    (hP : prevFreeBlkp m x ≠ 0 → Apart (prevFreeBlkp m x) y)
    (hN : nextFreeBlkp m x ≠ 0 → Apart (nextFreeBlkp m x) y) :
    prevFreeBlkp (unlinkMem m x) y =
      if nextFree m x = some y then prevFreeBlkp m x else prevFreeBlkp m y := by
  have key : prevFreeBlkp
      (if prevFreeBlkp m x ≠ 0 then writeWord m (prevFreeBlkp m x) (nextFreeBlkp m x) else m) y =
        prevFreeBlkp m y := by
    split
    · rename_i hp
      exact prevFreeBlkp_setNext _ _ (hP hp)
    · rfl
  unfold unlinkMem nextFree
  dsimp only
  by_cases h0 : nextFreeBlkp m x = 0
  · simp only [h0, ne_eq, not_true_eq_false, if_false, ptr_zero, reduceCtorEq]
    rw [← key, h0]
  · rw [if_pos h0, prevFreeBlkp_setPrev _ (prevFreeBlkp_lt _ _) (hN h0), key, ptr_of_ne h0]
    simp only [Option.some.injEq]

theorem unlinkMem_outside (m : Mem) {x a : ℕ}
    (hP : prevFreeBlkp m x ≠ 0 → a < prevFreeBlkp m x ∨ prevFreeBlkp m x + 8 ≤ a)
    (hN : nextFreeBlkp m x ≠ 0 → a < nextFreeBlkp m x ∨ nextFreeBlkp m x + 8 ≤ a) :
    unlinkMem m x a = m a := by
  have key :
      (if prevFreeBlkp m x ≠ 0 then writeWord m (prevFreeBlkp m x) (nextFreeBlkp m x) else m) a =
        m a := by
    split
    · rename_i hp
      have := hP hp
      exact writeWord_outside _ _ (by omega)
    · rfl
  unfold unlinkMem
  split
  · rename_i hn
    have := hN hn
    rw [writeWord_outside _ _ (by unfold wsize; omega), key]
  · exact key

namespace Rep

variable {A : Arena} {h : Heap} {bs : List Block} {fl : List ℕ}

theorem nodes_apart (r : Rep A h bs fl) {x y : ℕ} (hx : x ∈ fl ++ [A.prologue.addr])
    (hy : y ∈ fl ++ [A.prologue.addr]) : Apart x y := by
  obtain ⟨b, hb, rfl⟩ := r.node_block hx
  obtain ⟨c, hc, rfl⟩ := r.node_block hy
  by_cases he : b.addr = c.addr
  · exact Or.inl he
  · have := r.sep hb hc he
    have := b.size_ge
    have := c.size_ge
    unfold Apart
    omega

theorem node_pos (r : Rep A h bs fl) {x : ℕ} (hx : x ∈ fl ++ [A.prologue.addr]) :
    x ≠ 0 ∧ x < 2 ^ 32 := by
  obtain ⟨b, hb, rfl⟩ := r.node_block hx
  have := r.bounds hb
  have := b.size_ge
  omega

/-! ### Removing -/

/-- The stored links of a listed block are nodes, or `NULL` for the back link of the head. -/
theorem links_mem (r : Rep A h bs fl) {x : ℕ} (hx : x ∈ fl) :
    (prevFreeBlkp h.mem x ≠ 0 →
      prevFreeBlkp h.mem x ∈ fl ++ [A.prologue.addr] ∧ prevFreeBlkp h.mem x ≠ x) ∧
    nextFreeBlkp h.mem x ∈ fl ++ [A.prologue.addr] := by
  obtain ⟨l₁, l₂, rfl⟩ := List.append_of_mem hx
  have hl := r.links
  have hnd := r.nodes_nodup
  rw [List.append_assoc, List.cons_append] at hl hnd
  constructor
  · intro h0
    have hp := hl.prevAt
    rw [prevFree, ptr_of_ne h0] at hp
    rcases mem_of_lastOr hp.symm with hm | hm
    · refine ⟨by simp [hm], fun he => ?_⟩
      rw [List.nodup_append] at hnd
      exact hnd.2.2 _ hm _ List.mem_cons_self he
    · cases hm
  · have hn := hl.nextAt
    have hne : (l₂ ++ [A.prologue.addr]).head? ≠ none := by simp
    rw [nextFree] at hn
    cases hh : (l₂ ++ [A.prologue.addr]).head? with
    | none => exact absurd hh hne
    | some y =>
      rw [hh] at hn
      rw [(ptr_eq_some.mp hn).1]
      have := List.mem_of_mem_head? hh
      simp only [List.mem_append, List.mem_cons] at this ⊢
      tauto

theorem removeFreeBlock_eq (r : Rep A h bs fl) {x : ℕ} (hx : x ∈ fl) :
    removeFreeBlock x h =
      { h with
        mem := unlinkMem h.mem x
        freelistHead :=
          if prevFreeBlkp h.mem x = 0 then nextFreeBlkp h.mem x else h.freelistHead } :=
  removeFreeBlock_apart h x fun h0 =>
    ⟨r.nodes_apart ((r.links_mem hx).1 h0).1 (List.mem_append_left _ hx),
      ((r.links_mem hx).1 h0).2⟩

theorem removeFreeBlock_mem (r : Rep A h bs fl) {x : ℕ} (hx : x ∈ fl) {a : ℕ}
    (ha : ∀ y ∈ fl ++ [A.prologue.addr], a < y ∨ y + 8 ≤ a) :
    (removeFreeBlock x h).mem a = h.mem a := by
  rw [r.removeFreeBlock_eq hx]
  exact unlinkMem_outside _ (fun h0 => ha _ ((r.links_mem hx).1 h0).1)
    (fun _ => ha _ (r.links_mem hx).2)

theorem removeFreeBlock_brk (r : Rep A h bs fl) {x : ℕ} (hx : x ∈ fl) :
    (removeFreeBlock x h).memBrk = h.memBrk ∧
      (removeFreeBlock x h).heapListp = h.heapListp := by
  rw [r.removeFreeBlock_eq hx]
  exact ⟨rfl, rfl⟩

/-- **`remove_free_block` erases a listed block.** -/
theorem removed (r : Rep A h bs fl) {x : ℕ} (hx : x ∈ fl) :
    Rep A (removeFreeBlock x h) bs (fl.erase x) := by
  have hmem := r.links_mem hx
  obtain ⟨l₁, l₂, hx₁, hfl, herase⟩ := List.exists_erase_eq hx
  have hl := r.links
  have hnd := r.nodes_nodup
  have hsub : ∀ y ∈ l₁ ++ (l₂ ++ [A.prologue.addr]), y ∈ fl ++ [A.prologue.addr] := by
    intro y hy
    rw [hfl]
    simp only [List.mem_append, List.mem_cons] at hy ⊢
    tauto
  have hP : ∀ y ∈ l₁ ++ (l₂ ++ [A.prologue.addr]), prevFreeBlkp h.mem x ≠ 0 →
      Apart (prevFreeBlkp h.mem x) y :=
    fun y hy h0 => r.nodes_apart (hmem.1 h0).1 (hsub y hy)
  have hN : ∀ y ∈ l₁ ++ (l₂ ++ [A.prologue.addr]), nextFreeBlkp h.mem x ≠ 0 →
      Apart (nextFreeBlkp h.mem x) y :=
    fun y hy _ => r.nodes_apart hmem.2 (hsub y hy)
  have hhead := r.head
  rw [hfl, List.append_assoc, List.cons_append] at hl hnd hhead
  rw [herase]
  refine r.relink (r.removeFreeBlock_brk hx).1 ?_ ?_ ?_ ?_ ?_
  · intro a ha
    apply r.removeFreeBlock_mem hx
    intro y hy
    obtain ⟨b, hb, rfl⟩ := r.node_block hy
    exact ha b hb
  · intro y hy
    exact r.free y (by rw [hfl]; simp only [List.mem_append, List.mem_cons] at hy ⊢; tauto)
  · exact herase ▸ r.nodup.erase x
  · rw [List.append_assoc, hl.unlink_head, hhead, r.removeFreeBlock_eq hx]
    by_cases h0 : prevFreeBlkp h.mem x = 0
    · rw [if_pos (by rw [prevFree, h0, ptr_zero]), nextFree, ptr_of_ne (r.node_pos hmem.2).1]
      simp only [h0, if_true]
    · rw [if_neg (by rw [prevFree, ptr_of_ne h0]; simp)]
      simp only [h0, if_false]
  · rw [List.append_assoc, r.removeFreeBlock_eq hx]
    refine hl.unlink hnd (by simp) ?_ ?_ ?_ ?_
    · intro y hy he
      rw [nextFree, nextFreeBlkp_unlinkMem _ (hP y hy) (hN y hy), if_pos he, nextFree]
    · intro y hy he
      rw [nextFree, nextFreeBlkp_unlinkMem _ (hP y hy) (hN y hy), if_neg he, nextFree]
    · intro y hy he
      rw [prevFree, prevFreeBlkp_unlinkMem _ (hP y hy) (hN y hy), if_pos he, prevFree]
    · intro y hy he
      rw [prevFree, prevFreeBlkp_unlinkMem _ (hP y hy) (hN y hy), if_neg he, prevFree]

/-! ### Inserting -/

theorem head_mem (r : Rep A h bs fl) : h.freelistHead ∈ fl ++ [A.prologue.addr] :=
  List.mem_of_mem_head? r.head

theorem insertFreeBlock_eq (r : Rep A h bs fl) (x : ℕ) :
    insertFreeBlock x h =
      { h with
        mem := writeWord (writeWord (writeWord h.mem (x + wsize) 0) x h.freelistHead)
          (h.freelistHead + wsize) x
        freelistHead := x } := by
  have h0 := (r.node_pos r.head_mem).1
  simp only [insertFreeBlock, setPrevFreeBlkp_def, Heap.setNextFreeBlkp, Heap.put, ne_eq, h0,
    not_false_eq_true, if_true]

theorem insertFreeBlock_mem (r : Rep A h bs fl) {x a : ℕ}
    (ha : ∀ y ∈ x :: (fl ++ [A.prologue.addr]), a < y ∨ y + 8 ≤ a) :
    (insertFreeBlock x h).mem a = h.mem a := by
  have h1 := ha x List.mem_cons_self
  have h2 := ha _ (List.mem_cons_of_mem _ r.head_mem)
  rw [r.insertFreeBlock_eq]
  show writeWord (writeWord (writeWord h.mem (x + wsize) 0) x h.freelistHead)
    (h.freelistHead + wsize) x a = h.mem a
  unfold wsize
  rw [writeWord_outside _ _ (by omega), writeWord_outside _ _ (by omega),
    writeWord_outside _ _ (by omega)]

theorem insertFreeBlock_brk (r : Rep A h bs fl) (x : ℕ) :
    (insertFreeBlock x h).memBrk = h.memBrk ∧
      (insertFreeBlock x h).heapListp = h.heapListp := by
  rw [r.insertFreeBlock_eq]
  exact ⟨rfl, rfl⟩

/-- **`insert_free_block` puts an unlisted free block at the head.** -/
theorem inserted (r : Rep A h bs fl) {b : Block} (hb : b ∈ bs) (hfree : b.alloc = false)
    (hnot : b.addr ∉ fl) : Rep A (insertFreeBlock b.addr h) bs (b.addr :: fl) := by
  have hnode : ∀ y ∈ fl ++ [A.prologue.addr], Apart b.addr y ∧ b.addr ≠ y := by
    intro y hy
    have hne : b.addr ≠ y := by
      rintro rfl
      rcases List.mem_append.mp hy with hy | hy
      · exact hnot hy
      · rw [r.tiles.eq_of_addr hb r.prologue_mem (List.mem_singleton.mp hy)] at hfree
        cases hfree
    obtain ⟨c, hc, rfl⟩ := r.node_block hy
    have := r.sep hb hc hne
    have := b.size_ge
    have := c.size_ge
    exact ⟨by unfold Apart; omega, hne⟩
  have hhead := hnode _ r.head_mem
  have hlt := (r.node_pos r.head_mem).2
  have hlt' : b.addr < 2 ^ 32 := by have := r.bounds hb; have := b.size_ge; omega
  have hself : Apart b.addr b.addr := Or.inl rfl
  have hflip : Apart h.freelistHead b.addr := by
    have := hhead.1
    unfold Apart at *
    omega
  refine r.relink (r.insertFreeBlock_brk _).1 ?_ ?_ ?_ ?_ ?_
  · intro a ha
    apply r.insertFreeBlock_mem
    intro y hy
    rcases List.mem_cons.mp hy with rfl | hy
    · exact ha b hb
    · obtain ⟨c, hc, rfl⟩ := r.node_block hy
      exact ha c hc
  · intro y hy
    rcases List.mem_cons.mp hy with rfl | hy
    · exact ⟨b, hb, rfl, hfree⟩
    · exact r.free y hy
  · exact List.nodup_cons.mpr ⟨hnot, r.nodup⟩
  · rw [r.insertFreeBlock_eq]
    rfl
  · rw [r.insertFreeBlock_eq]
    refine r.links.pushFront r.nodes_nodup ?_ ?_ ?_ ?_ ?_
    · rw [nextFree, nextFreeBlkp_setPrev _ _ hflip, nextFreeBlkp_setNext _ hlt hself, if_pos rfl,
        r.head, ptr_of_ne (r.node_pos r.head_mem).1]
    · rw [prevFree, prevFreeBlkp_setPrev _ hlt' hflip, if_neg (fun he => hhead.2 he.symm),
        prevFreeBlkp_setNext _ _ hself, prevFreeBlkp_setPrev _ (by decide) hself, if_pos rfl,
        ptr_zero]
    · intro y hy
      rw [nextFree, nextFreeBlkp_setPrev _ _ (r.nodes_apart r.head_mem hy),
        nextFreeBlkp_setNext _ hlt (hnode y hy).1, if_neg (hnode y hy).2,
        nextFreeBlkp_setPrev _ _ (hnode y hy).1, nextFree]
    · intro y hy he
      rw [r.head, Option.some.injEq] at he
      have hy0 : b.addr ≠ 0 := by have := r.bounds hb; omega
      rw [prevFree, prevFreeBlkp_setPrev _ hlt' (r.nodes_apart r.head_mem hy), if_pos he,
        ptr_of_ne hy0]
    · intro y hy he
      rw [r.head, ne_eq, Option.some.injEq] at he
      rw [prevFree, prevFreeBlkp_setPrev _ hlt' (r.nodes_apart r.head_mem hy), if_neg he,
        prevFreeBlkp_setNext _ _ (hnode y hy).1, prevFreeBlkp_setPrev _ (by decide) (hnode y hy).1,
        if_neg (hnode y hy).2, prevFree]

end Rep

end SystemProgramming.MallocLab
