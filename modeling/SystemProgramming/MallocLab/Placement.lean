import SystemProgramming.MallocLab.Coalesce

/-!
# `place`, `extend_heap` and `find_fit`

* `Becomes.placed` : `place` turns a listed free block into an allocated one, splitting off a free
  rest of at least 16 bytes (`Placed`).
* `Rep.extended` : moving the break adds one free block at the end; `extend_heap` then coalesces it.
* `Rep.findFit_eq` : the first-fit search returns the first listed block that is large enough, after
  at most one more iteration than the list is long.
-/

namespace SystemProgramming.MallocLab

open ByteMemory LinkedList

/-! ### `place` -/

/-- `Placed b n parts new`: allocating `n` bytes at the free block `b` leaves the blocks `parts`, of
which those at `new` are free. -/
inductive Placed (b : Block) (n : ℕ) : List Block → List ℕ → Prop
  | whole : n ≤ b.size → b.size < n + 16 → Placed b n [b.withAlloc true] []
  | split (hmod : n % 8 = 0) (hge : 16 ≤ n) (hn : n + 16 ≤ b.size) :
      Placed b n [b.cut n hmod hge, b.rest n hmod hn] [b.addr + n]

theorem exists_placed {b : Block} {n : ℕ} (hmod : n % 8 = 0) (hge : 16 ≤ n) (hn : n ≤ b.size) :
    ∃ parts new, Placed b n parts new := by
  by_cases hsplit : n + 16 ≤ b.size
  · exact ⟨_, _, .split hmod hge hsplit⟩
  · exact ⟨_, _, .whole hn (by omega)⟩

theorem Placed.size_ge {b : Block} {n : ℕ} {parts : List Block} {new : List ℕ}
    (hp : Placed b n parts new) : n ≤ b.size := by
  cases hp with
  | whole hn _ => exact hn
  | split _ _ hn => omega

/-- The allocated part: it starts where the block started and has room for the request. -/
theorem Placed.front {b : Block} {n : ℕ} {parts : List Block} {new : List ℕ}
    (hp : Placed b n parts new) :
    ∃ a rest, parts = a :: rest ∧ a.addr = b.addr ∧ a.alloc = true ∧ n ≤ a.size ∧
      ∀ c ∈ rest, c.alloc = false ∧ new = [c.addr] := by
  cases hp with
  | whole h1 _ => exact ⟨_, [], rfl, rfl, rfl, h1, by simp⟩
  | split hmod hge hn =>
    refine ⟨_, [b.rest n hmod hn], rfl, rfl, rfl, le_rfl, fun c hc => ?_⟩
    rw [List.mem_singleton.mp hc]
    exact ⟨rfl, rfl⟩

namespace Rep

variable {A : Arena} {h : Heap} {bs pre post : List Block} {b : Block} {fl : List ℕ} {n : ℕ}

theorem subSize_csize (r : Rep A h (pre ++ b :: post) fl) (hn : n ≤ b.size) :
    subSize b.size n = b.size - n := by
  have := r.bounds (b := b) (by simp)
  exact subSize_eq (by omega) hn

theorem place_whole (r : Rep A h (pre ++ b :: post) fl) (hn : n ≤ b.size) (hlt : b.size < n + 16) :
    place b.addr n h = (removeFreeBlock b.addr h).setTags (b.withAlloc true) := by
  have hb := r.getSize_hdrp (b := b) (by simp)
  have hbd := r.bounds (b := b) (by simp)
  have hno : ¬ b.size - n ≥ 2 * dsize := by simp only [dsize]; omega
  simp only [place, hb, r.subSize_csize hn, if_neg hno]
  exact put_header_footer (b := b.withAlloc true) _ (by simp only [Block.withAlloc_size]; omega)

/-- The rest is found through the header of the part just cut off. -/
theorem place_split (r : Rep A h (pre ++ b :: post) fl) (hmod : n % 8 = 0) (hge : 16 ≤ n)
    (hn : n + 16 ≤ b.size) :
    place b.addr n h =
      insertFreeBlock (b.addr + n)
        (((removeFreeBlock b.addr h).setTags (b.cut n hmod hge)).setTags (b.rest n hmod hn)) := by
  have hb := r.getSize_hdrp (b := b) (by simp)
  have hbd := r.bounds (b := b) (by simp)
  have hyes : b.size - n ≥ 2 * dsize := by simp only [dsize]; omega
  have hcut := put_header_footer (removeFreeBlock b.addr h) (b := b.cut n hmod hge)
    (by simp only [Block.cut]; omega)
  have hrest := put_header_footer ((removeFreeBlock b.addr h).setTags (b.cut n hmod hge))
    (b := b.rest n hmod hn) (by simp only [Block.rest]; omega)
  have hnext : nextBlkp ((removeFreeBlock b.addr h).setTags (b.cut n hmod hge)).mem b.addr =
      b.addr + n := by
    have htag := setTags_tagged (removeFreeBlock b.addr h) (b := b.cut n hmod hge)
      (by simp only [Block.cut]; omega) (by simp only [Block.cut]; omega)
    exact congrArg (b.addr + ·) (getSize_of_tag htag.1)
  simp only [place, hb, r.subSize_csize (by omega : n ≤ b.size), if_pos hyes]
  simp only [Block.cut, Block.rest, Block.tag, Bool.toNat_true, Bool.toNat_false] at hcut hrest
  rw [hcut]
  simp only [Block.cut] at hnext
  rw [hnext, hrest]
  rfl

end Rep

/-! ### Writing the tags of both parts of a split -/

section Split

variable {A : Arena} {h : Heap} {pre post : List Block} {b : Block} {fl : List ℕ} {n : ℕ}
  (hmod : n % 8 = 0) (hge : 16 ≤ n) (hn : n + 16 ≤ b.size)

theorem setParts_mem {a : ℕ} (ha : a < b.addr - 4 ∨ b.addr + b.size - 4 ≤ a) :
    ((h.setTags (b.cut n hmod hge)).setTags (b.rest n hmod hn)).mem a = h.mem a := by
  rw [setTags_mem _ (by simp only [Block.rest]; omega) (by simp only [Block.rest]; omega),
    setTags_mem _ (by simp only [Block.cut]; omega) (by simp only [Block.cut]; omega)]

/-- The tags of the front part survive those of the rest. -/
theorem setParts_tagged (h4 : 4 ≤ b.addr) (hlt : b.size < 2 ^ 32) :
    ∀ c ∈ [b.cut n hmod hge, b.rest n hmod hn],
      Tagged ((h.setTags (b.cut n hmod hge)).setTags (b.rest n hmod hn)).mem c := by
  have hrest : ∀ a, a < b.addr + n - 4 →
      ((h.setTags (b.cut n hmod hge)).setTags (b.rest n hmod hn)).mem a =
        (h.setTags (b.cut n hmod hge)).mem a := by
    intro a ha
    exact setTags_mem _ (by simp only [Block.rest]; omega) (by simp only [Block.rest]; omega)
  intro c hc
  rcases List.mem_pair.mp hc with rfl | rfl
  · have htag := setTags_tagged h (b := b.cut n hmod hge) (by simp only [Block.cut]; omega) h4
    refine htag.congr h4 (fun a h1 h2 => hrest a ?_) (fun a h1 h2 => hrest a ?_)
    all_goals
      simp only [Block.cut] at h1 h2
      omega
  · exact setTags_tagged _ (by simp only [Block.rest]; omega) (by simp only [Block.rest]; omega)

/-- A free unlisted block becomes an allocated front and a free rest. -/
theorem Becomes.parted (r : Rep A h (pre ++ [b] ++ post) fl) (hpre : pre ≠ [])
    (hb : b.alloc = false) (hfl : b.addr ∉ fl) :
    Becomes A h ((h.setTags (b.cut n hmod hge)).setTags (b.rest n hmod hn)) (pre ++ [b] ++ post)
      (pre ++ [b.cut n hmod hge, b.rest n hmod hn] ++ post) fl := by
  have hself : Tiles b.addr [b] b.stop := ⟨rfl, rfl⟩
  have hparts : Tiles b.addr [b.cut n hmod hge, b.rest n hmod hn] b.stop := by
    simp only [Tiles, Block.cut, Block.rest, Block.stop, true_and]
    omega
  have hfl' : ∀ x ∈ fl, ∀ c ∈ [b], c.addr ≠ x := by
    intro x hx c hc he
    rw [List.mem_singleton.mp hc] at he
    exact hfl (he ▸ hx)
  have hbd := r.bounds (b := b) (by simp)
  obtain ⟨hl, hr⟩ := r.tiles.split hself (by simp)
  refine ⟨r.replace hpre hself hl hr hparts rfl rfl (fun a ha => setParts_mem hmod hge hn ha)
    (setParts_tagged hmod hge hn (by omega) (by omega)) hfl', rfl, rfl, fun c hc a h1 h2 => ?_⟩
  have hout : c.addr + c.size ≤ b.addr ∨ b.addr + b.size ≤ c.addr := hc.outside_free hb hl hr
  have := c.size_ge
  exact setParts_mem hmod hge hn (by omega)

end Split

namespace Becomes

variable {A : Arena} {h : Heap} {bs pre post : List Block} {b : Block} {fl : List ℕ} {n : ℕ}

/-- **`place`.**  A listed free block becomes its parts. -/
theorem placed {parts : List Block} {new : List ℕ} (r : Rep A h (pre ++ b :: post) fl)
    (hb : b.alloc = false) (hx : b.addr ∈ fl) (hp : Placed b n parts new) :
    Becomes A h (place b.addr n h) (pre ++ b :: post) (pre ++ parts ++ post)
      (new ++ fl.erase b.addr) := by
  have hpre := r.ne_nil_of_free hb
  have hgone : b.addr ∉ fl.erase b.addr := r.nodup.not_mem_erase
  have e : pre ++ b :: post = pre ++ [b] ++ post := by simp
  cases hp with
  | split hmod hge hsplit =>
    rw [r.place_split hmod hge hsplit]
    rw [e] at r ⊢
    have hstep := (removed r hx).trans (parted hmod hge hsplit (r.removed hx) hpre hb hgone)
      fun _ hc => hc
    have hnew : (b.rest n hmod hsplit).addr ∉ fl.erase b.addr := by
      intro hin
      obtain ⟨c, hc, he, _⟩ := r.free _ (List.mem_of_mem_erase hin)
      simp only [Block.rest] at he
      by_cases hcb : c.addr = b.addr
      · omega
      · have := r.sep hc (show b ∈ pre ++ [b] ++ post by simp) hcb
        have := c.size_ge
        omega
    have hins := inserted hstep.rep (b := b.rest n hmod hsplit) (by simp) rfl hnew
    refine hstep.trans hins fun c hc => ⟨?_, hc.alloc, hc.ne⟩
    have hne := hc.ne_of_free hb
    have hcm := hc.mem
    simp only [List.mem_append, List.mem_singleton, hne, or_false] at hcm ⊢
    tauto
  | whole hn hlt =>
    rw [r.place_whole hn hlt]
    rw [e] at r ⊢
    have htag := tagged (r.removed hx) (m := b.withAlloc true) hpre (by simp) (by simp [Tiles])
      (by simp [hb]) (by simp [hgone])
    exact (removed r hx).trans htag fun _ hc => hc

end Becomes

/-! ### `extend_heap` -/

/-- The free block that moving the break by `n` bytes appends. -/
def Heap.newBlock (h : Heap) (n : ℕ) (hmod : n % 8 = 0) (hge : 16 ≤ n) : Block :=
  ⟨h.memBrk, n, false, hmod, hge⟩

/-- The break has moved, the new block is tagged and the epilogue header is rewritten. -/
def Heap.grown (h : Heap) (n : ℕ) (hmod : n % 8 = 0) (hge : 16 ≤ n) : Heap :=
  (({ h with memBrk := h.memBrk + n } : Heap).setTags (h.newBlock n hmod hge)).put
    (h.memBrk + n - 4) (pack 0 1)

section Extend

variable {A : Arena} {h : Heap} {bs : List Block} {fl : List ℕ} {n : ℕ} (hmod : n % 8 = 0)
  (hge : 16 ≤ n)

theorem grown_mem {a : ℕ} (ha : a < h.memBrk - 4) : (h.grown n hmod hge).mem a = h.mem a := by
  have h1 : (h.grown n hmod hge).mem a =
      (({ h with memBrk := h.memBrk + n } : Heap).setTags (h.newBlock n hmod hge)).mem a :=
    writeWord_outside _ _ (by omega)
  rw [h1]
  exact setTags_mem _ (by simp only [Heap.newBlock]; omega) (by simp only [Heap.newBlock]; omega)

theorem grown_samePayload (r : Rep A h bs fl) {c : Block} (hc : c ∈ bs) :
    SamePayload h (h.grown n hmod hge) c := by
  intro a h1 h2
  have := r.bounds hc
  exact grown_mem hmod hge (by omega)

/-- Moving the break appends one free block that no list contains yet. -/
theorem Rep.grown (r : Rep A h bs fl) (hfit : h.memBrk + n ≤ A.memMaxAddr) :
    Rep A (h.grown n hmod hge) (bs ++ [h.newBlock n hmod hge]) fl := by
  have hpro := r.bounds r.prologue_mem
  have hfits := A.fits
  have hlow : ∀ b ∈ bs, ∀ a, a < b.addr + b.size - 4 →
      (h.grown n hmod hge).mem a = h.mem a := by
    intro b hb a ha
    have := r.bounds hb
    exact grown_mem hmod hge (by omega)
  refine
    { brk_le := hfit
      tiles := tiles_append.mpr ⟨h.memBrk, r.tiles, rfl, rfl⟩
      prologue := ?_
      tagged := fun b hb => ?_
      epilogue := readWord_writeWord_of_lt _ _ (by decide)
      free := fun x hx => ?_
      nodup := r.nodup
      head := r.head
      links := links_frame r.links fun x hx a h1 h2 => ?_ }
  · cases bs with
    | nil => cases r.prologue
    | cons c l => exact r.prologue
  · rcases List.mem_append.mp hb with hb | hb
    · have := r.bounds hb
      have := b.size_ge
      exact (r.tagged b hb).congr (by omega) (fun a h1 h2 => hlow b hb a (by omega))
        (fun a h1 h2 => hlow b hb a (by omega))
    · rw [List.mem_singleton.mp hb]
      have htag := setTags_tagged ({ h with memBrk := h.memBrk + n } : Heap)
        (b := h.newBlock n hmod hge) (by simp only [Heap.newBlock]; omega)
        (by simp only [Heap.newBlock]; omega)
      have hkeep : ∀ a, a < h.memBrk + n - 4 → (h.grown n hmod hge).mem a =
          (({ h with memBrk := h.memBrk + n } : Heap).setTags (h.newBlock n hmod hge)).mem a :=
        fun a ha => writeWord_outside _ _ (Or.inl ha)
      refine htag.congr (by simp only [Heap.newBlock]; omega) (fun a h1 h2 => hkeep a ?_)
        (fun a h1 h2 => hkeep a ?_)
      all_goals
        simp only [Heap.newBlock] at h1 h2
        omega
  · obtain ⟨b, hb, he⟩ := r.free x hx
    exact ⟨b, List.mem_append_left _ hb, he⟩
  · obtain ⟨b, hb, rfl⟩ := r.node_block hx
    have := b.size_ge
    exact hlow b hb a (by omega)

/-- A multiple of 8 survives the conversion to words and back. -/
theorem words_eq {n : ℕ} (hmod : n % 8 = 0) (hlt : n < 2 ^ 32) :
    ¬ n / wsize % 2 ≠ 0 ∧ n / wsize * wsize % 2 ^ 32 = n := by
  simp only [wsize]
  omega

/-- `mem_sbrk` fails when the new break is beyond the arena. -/
theorem memSbrk_none (hlt : n < 2 ^ 32) (hfull : A.memMaxAddr < h.memBrk + n) :
    memSbrk A (toInt32 n) h = none := by
  rw [memSbrk_def, if_pos]
  rw [toInt32]
  split <;> omega

theorem memSbrk_some (hlt : n < 2 ^ 31) (hfit : h.memBrk + n ≤ A.memMaxAddr) :
    memSbrk A (toInt32 n) h = some (h.memBrk, { h with memBrk := h.memBrk + n }) := by
  have hint : toInt32 n = n := if_pos hlt
  rw [hint, memSbrk_def, if_neg (by omega)]
  rfl

/-- What fits in the arena is an `int`. -/
theorem Rep.lt_int (r : Rep A h bs fl) (hfit : h.memBrk + n ≤ A.memMaxAddr) : n < 2 ^ 31 := by
  have hbounds := A.bounds
  have hpro := r.bounds r.prologue_mem
  have haddr : A.prologue.addr = A.memStartBrk + 8 := rfl
  omega

/-- `extend_heap` fails exactly when the break cannot move, and then changes nothing. -/
theorem extendHeap_none (hmod : n % 8 = 0) (hlt : n < 2 ^ 32)
    (hfull : A.memMaxAddr < h.memBrk + n) : extendHeap A (n / wsize) h = (0, h) := by
  obtain ⟨hsize, hwords⟩ := words_eq hmod hlt
  simp only [extendHeap, if_neg hsize, hwords, memSbrk_none hlt hfull]

theorem Rep.extendHeap_some (r : Rep A h bs fl) (hfit : h.memBrk + n ≤ A.memMaxAddr) :
    extendHeap A (n / wsize) h = coalesce h.memBrk (h.grown n hmod hge) := by
  have hbounds := A.bounds
  have hpro := r.bounds r.prologue_mem
  have hint := r.lt_int hfit
  obtain ⟨hsize, hwords⟩ := words_eq hmod (by omega)
  have htags := put_header_footer ({ h with memBrk := h.memBrk + n } : Heap)
    (b := h.newBlock n hmod hge) (by simp only [Heap.newBlock]; omega)
  have hnext : nextBlkp (({ h with memBrk := h.memBrk + n } : Heap).setTags
      (h.newBlock n hmod hge)).mem h.memBrk = h.memBrk + n := by
    have htag := setTags_tagged ({ h with memBrk := h.memBrk + n } : Heap)
      (b := h.newBlock n hmod hge) (by simp only [Heap.newBlock]; omega)
      (by simp only [Heap.newBlock]; omega)
    exact congrArg (h.memBrk + ·) (getSize_of_tag htag.1)
  simp only [extendHeap, if_neg hsize, hwords, memSbrk_some hint hfit]
  simp only [Heap.newBlock, Block.tag, Bool.toNat_false] at htags hnext
  rw [htags, hnext]
  rfl

/-- The new block is on no list. -/
theorem Rep.newBlock_notMem (r : Rep A h bs fl) : (h.newBlock n hmod hge).addr ∉ fl := by
  intro hin
  obtain ⟨b, hb, he, -⟩ := r.free _ hin
  have := r.bounds hb
  have := b.size_ge
  simp only [Heap.newBlock] at he
  omega

/-- A block appended at the end of the heap has no block after it to merge with. -/
theorem exists_merge_end {bs : List Block} (hbs : bs ≠ []) (b : Block) :
    ∃ left m gone, Merge bs b [] left m [] gone := by
  obtain ⟨left, m, right, gone, hm⟩ := exists_merge hbs b []
  have hright : right = [] := by
    cases hm <;> rfl
  subst hright
  exact ⟨left, m, gone, hm⟩

theorem Rep.ne_nil {bs : List Block} (r : Rep A h bs fl) : bs ≠ [] := by
  rintro rfl
  cases r.prologue

/-- **`extend_heap`.**  The new block, merged with a free block before it, ends the heap. -/
theorem WellFormed.extended {left : List Block} {m : Block} {gone : List ℕ}
    (w : WellFormed A h bs fl) (hfit : h.memBrk + n ≤ A.memMaxAddr)
    (hm : Merge bs (h.newBlock n hmod hge) [] left m [] gone) :
    ∃ h', extendHeap A (n / wsize) h = (m.addr, h') ∧
      WellFormed A h' (left ++ [m]) (m.addr :: fl.diff gone) ∧
      h'.memBrk = h.memBrk + n ∧ ∀ c, Held A bs c → SamePayload h h' c := by
  have r := w.rep.grown hmod hge hfit
  have hnot : (h.newBlock n hmod hge).addr ∉ fl := w.rep.newBlock_notMem hmod hge
  have hlisted : Listed (bs ++ []) fl := by simpa using w.listed
  obtain ⟨h', heq, hstep⟩ := Becomes.coalesced r hm rfl hnot hlisted
  refine ⟨h', ?_, ?_, hstep.brk, fun c hc => ?_⟩
  · rw [w.rep.extendHeap_some hmod hge hfit]
    exact heq
  · exact WellFormed.of_merge hm r hstep hlisted w.coalesced List.isChain_nil w.listp
  · exact (grown_samePayload hmod hge w.rep hc.mem).trans
      (hstep.same c ⟨List.mem_append_left _ hc.mem, hc.alloc, hc.ne⟩)

/-- Where there is room, `extend_heap` merges the new block and returns the merged one. -/
theorem WellFormed.exists_extended (w : WellFormed A h bs fl) (hfit : h.memBrk + n ≤ A.memMaxAddr) :
    ∃ left m gone h', Merge bs (h.newBlock n hmod hge) [] left m [] gone ∧
      extendHeap A (n / wsize) h = (m.addr, h') ∧
      WellFormed A h' (left ++ [m]) (m.addr :: fl.diff gone) ∧
      h'.memBrk = h.memBrk + n ∧ ∀ c, Held A bs c → SamePayload h h' c := by
  obtain ⟨left, m, gone, hm⟩ := exists_merge_end w.rep.ne_nil (h.newBlock n hmod hge)
  obtain ⟨h', hext⟩ := w.extended hmod hge hfit hm
  exact ⟨left, m, gone, h', hm, hext⟩

end Extend

/-! ### `find_fit` -/

/-- The first listed block of at least `n` bytes, or `0`. -/
def firstFit (m : Mem) (n : ℕ) (fl : List ℕ) : ℕ :=
  (fl.find? fun x => decide (n ≤ getSize m (hdrp x))).getD 0

/-- From any node on, the loop follows the list until a block fits or the prologue stops it. -/
theorem findFitFrom_eq {m : Mem} {n last : ℕ} {l : List ℕ} {p : Option ℕ}
    (hl : Linked (nextFree m) (prevFree m) p (l ++ [last]))
    (hfree : ∀ x ∈ l, getAlloc m (hdrp x) = 0) (hlast : getAlloc m (hdrp last) ≠ 0)
    {fuel bp : ℕ} (hfuel : l.length < fuel) (hbp : (l ++ [last]).head? = some bp) :
    findFitFrom m n fuel bp = some (firstFit m n l) := by
  induction l generalizing p fuel bp with
  | nil =>
    obtain rfl : last = bp := by simpa using hbp
    cases fuel with
    | zero => simp at hfuel
    | succ fuel => simp [findFitFrom, hlast, firstFit]
  | cons x l ih =>
    obtain rfl : x = bp := by simpa using hbp
    cases fuel with
    | zero => simp at hfuel
    | succ fuel =>
      obtain ⟨_, hnext, hrest⟩ := (linked_cons _ _ _ _ _).mp hl
      have hx := hfree x List.mem_cons_self
      have hgo : ∀ y, (l ++ [last]).head? = some y →
          findFitFrom m n fuel y = some (firstFit m n l) := fun y =>
        ih hrest (fun z hz => hfree z (List.mem_cons_of_mem _ hz))
          (by simp only [List.length_cons] at hfuel; omega)
      cases hh : (l ++ [last]).head? with
      | none => simp at hh
      | some y =>
        have hy : nextFreeBlkp m x = y := (ptr_eq_some.mp (hnext.trans hh)).1
        simp only [findFitFrom, hx, if_true, hy]
        by_cases hfit : n ≤ getSize m (hdrp x)
        · simp [hfit, firstFit]
        · simp [hfit, firstFit, hgo y hh]

/-- More iterations do not change the answer. -/
theorem findFitFrom_mono {m : Mem} {n x : ℕ} {fuel fuel' bp : ℕ} (hle : fuel ≤ fuel')
    (h : findFitFrom m n fuel bp = some x) : findFitFrom m n fuel' bp = some x := by
  induction fuel generalizing fuel' bp with
  | zero => cases h
  | succ fuel ih =>
    cases fuel' with
    | zero => omega
    | succ fuel' =>
      simp only [findFitFrom] at h ⊢
      split at h
      · split at h
        · rename_i h1 h2
          rw [if_pos h1, if_pos h2, h]
        · rename_i h1 h2
          rw [if_pos h1, if_neg h2]
          exact ih (by omega) h
      · rename_i h1
        rw [if_neg h1, h]

namespace Rep

variable {A : Arena} {h : Heap} {bs : List Block} {fl : List ℕ}

/-- **`find_fit` terminates** and returns the first listed block that fits. -/
theorem findFit_eq (r : Rep A h bs fl) (n : ℕ) {fuel : ℕ} (hfuel : fl.length < fuel) :
    findFit fuel n h = some (firstFit h.mem n fl) := by
  refine findFitFrom_eq r.links (fun x hx => ?_) ?_ hfuel r.head
  · obtain ⟨b, hb, rfl, hfree⟩ := r.free x hx
    rw [r.getAlloc_hdrp hb, hfree]
    rfl
  · rw [r.getAlloc_hdrp r.prologue_mem]
    exact one_ne_zero

/-- Whatever the number of iterations, an answer is the first fit. -/
theorem findFit_some (r : Rep A h bs fl) {n x fuel : ℕ} (hx : findFit fuel n h = some x) :
    x = firstFit h.mem n fl := by
  have h1 := r.findFit_eq n (Nat.lt_succ_self fl.length)
  have h2 := findFitFrom_mono (Nat.le_max_left fuel (fl.length + 1)) hx
  have h3 := findFitFrom_mono (Nat.le_max_right fuel (fl.length + 1)) h1
  exact Option.some.inj (h2.symm.trans h3)

/-- A nonzero first fit is a listed free block with room; a zero one means no listed block fits. -/
theorem firstFit_spec (r : Rep A h bs fl) (n : ℕ) :
    (∃ b ∈ bs, b.addr = firstFit h.mem n fl ∧ b.alloc = false ∧ b.addr ∈ fl ∧ n ≤ b.size) ∨
      (firstFit h.mem n fl = 0 ∧ ∀ b ∈ bs, b.addr ∈ fl → b.size < n) := by
  unfold firstFit
  cases hf : fl.find? fun x => decide (n ≤ getSize h.mem (hdrp x)) with
  | none =>
    refine Or.inr ⟨rfl, fun b hb hx => ?_⟩
    have h1 := List.find?_eq_none.mp hf b.addr hx
    rw [r.getSize_hdrp hb, decide_eq_true_eq, not_le] at h1
    exact h1
  | some x =>
    have hx := List.mem_of_find?_eq_some hf
    have h1 := List.find?_some hf
    obtain ⟨b, hb, rfl, hfree⟩ := r.free x hx
    rw [r.getSize_hdrp hb, decide_eq_true_eq] at h1
    exact Or.inl ⟨b, hb, rfl, hfree, hx, h1⟩

/-- What `find_fit` answers: a listed free block with room, which is the first fit, or `NULL`. -/
theorem findFit_cases (r : Rep A h bs fl) {n x fuel : ℕ} (hx : findFit fuel n h = some x) :
    (∃ b ∈ bs, x = b.addr ∧ x ≠ 0 ∧ b.addr = firstFit h.mem n fl ∧ b.alloc = false ∧
      b.addr ∈ fl ∧ n ≤ b.size) ∨ (x = 0 ∧ firstFit h.mem n fl = 0) := by
  have hfirst := r.findFit_some hx
  rcases r.firstFit_spec n with ⟨b, hb, he, hfree, hlisted, hsize⟩ | ⟨hzero, -⟩
  · have hxb : x = b.addr := hfirst.trans he.symm
    have hbounds := r.bounds hb
    exact Or.inl ⟨b, hb, hxb, by omega, he, hfree, hlisted, hsize⟩
  · exact Or.inr ⟨hfirst.trans hzero, hzero⟩

end Rep

end SystemProgramming.MallocLab
