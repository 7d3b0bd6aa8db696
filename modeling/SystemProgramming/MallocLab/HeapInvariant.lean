import SystemProgramming.Library.LinkedList
import SystemProgramming.MallocLab.Allocator
import SystemProgramming.MallocLab.Blocks
import Mathlib.Data.Nat.Bitwise

/-!
# The heap invariant: how memory represents blocks and the free list

`Rep A h bs fl` says that the heap `h` represents the block list `bs` (prologue first) and the free
list `fl` (prologue not included): the blocks tile the heap up to the break, each carries its size
and allocated bit in its header and its footer, the epilogue header stands in the last word before
the break, and the free-list links thread `fl` and then the prologue.

`Rep` alone is what holds in the middle of an operation.  Between operations every free block is
listed and no two neighbours are both free (`WellFormed`).

* `Rep.replace` : rewriting the tags of a run of blocks that is not on the free list.
* `Rep.relink` : rewriting links only.
* `Rep.getSize_hdrp`, `Rep.nextBlkp_eq`, .. : what the macros compute on a represented heap.
-/

namespace SystemProgramming.MallocLab

open ByteMemory LinkedList

/-! ### Tags -/

theorem and_notSeven {v : ℕ} (hv : v < 2 ^ 32) : v &&& notSeven = v / 8 * 8 := by
  have h1 : (v &&& notSeven) / 2 ^ 3 = v / 2 ^ 3 := by
    rw [Nat.and_div_two_pow, show notSeven / 2 ^ 3 = 2 ^ 29 - 1 by decide,
      Nat.and_two_pow_sub_one_eq_mod]
    omega
  have h2 : (v &&& notSeven) % 2 ^ 3 = 0 := by
    rw [Nat.and_mod_two_pow, show notSeven % 2 ^ 3 = 0 by decide, Nat.and_zero]
  omega

theorem pack_eq {size a : ℕ} (hs : size % 8 = 0) (ha : a < 8) : pack size a = size + a := by
  have h1 : pack size a / 2 ^ 3 = size / 2 ^ 3 := by
    rw [pack, Nat.or_div_two_pow, Nat.div_eq_of_lt (show a < 2 ^ 3 from ha), Nat.or_zero]
  have h2 : pack size a % 2 ^ 3 = a := by
    rw [pack, Nat.or_mod_two_pow, show size % 2 ^ 3 = 0 from hs, Nat.zero_or,
      Nat.mod_eq_of_lt (show a < 2 ^ 3 from ha)]
  omega

theorem align_eq {n : ℕ} (h : n + 7 < 2 ^ 32) : align n = (n + 7) / 8 * 8 := by
  rw [align, Nat.mod_eq_of_lt h, and_notSeven h]

theorem adjust_eq {n : ℕ} (h : n + 15 < 2 ^ 32) : adjust n = (n + 15) / 8 * 8 := by
  have h8 : sizeTSize = 8 := by decide
  rw [adjust, h8, Nat.mod_eq_of_lt (by omega), align_eq (by omega)]

theorem subSize_eq {a b : ℕ} (ha : a < 2 ^ 32) (h : b ≤ a) : subSize a b = a - b := by
  rw [subSize, show a + 2 ^ 32 - b = (a - b) + 2 ^ 32 by omega, Nat.add_mod_right,
    Nat.mod_eq_of_lt (by omega)]

/-- The word a block's header and footer hold. -/
def Block.tag (b : Block) : ℕ := pack b.size b.alloc.toNat

theorem Block.tag_eq (b : Block) : b.tag = b.size + b.alloc.toNat :=
  pack_eq b.size_mod (by cases b.alloc <;> decide)

theorem Block.tag_lt {b : Block} (h : b.size < 2 ^ 32) : b.tag < 2 ^ 32 := by
  have := b.size_mod
  rw [b.tag_eq]
  cases b.alloc <;> simp only [Bool.toNat_false, Bool.toNat_true] <;> omega

theorem getSize_of_tag {m : Mem} {p : ℕ} {b : Block} (h : get m p = b.tag) :
    getSize m p = b.size := by
  have hlt : b.tag < 2 ^ 32 := h ▸ readWord_lt m p
  have := b.size_mod
  rw [getSize, h, and_notSeven hlt, b.tag_eq]
  cases b.alloc <;> simp only [Bool.toNat_false, Bool.toNat_true] <;> omega

theorem getAlloc_of_tag {m : Mem} {p : ℕ} {b : Block} (h : get m p = b.tag) :
    getAlloc m p = b.alloc.toNat := by
  have := b.size_mod
  rw [getAlloc, h, Nat.and_one_is_mod, b.tag_eq]
  cases b.alloc <;> simp only [Bool.toNat_false, Bool.toNat_true] <;> omega

/-- Header and footer hold the block's tag. -/
def Tagged (m : Mem) (b : Block) : Prop :=
  get m (b.addr - 4) = b.tag ∧ get m (b.addr + b.size - 8) = b.tag

theorem Tagged.congr {m m' : Mem} {b : Block} (h : Tagged m b) (h4 : 4 ≤ b.addr)
    (hh : ∀ a, b.addr - 4 ≤ a → a < b.addr → m' a = m a)
    (hf : ∀ a, b.addr + b.size - 8 ≤ a → a < b.addr + b.size - 4 → m' a = m a) :
    Tagged m' b := by
  have := b.size_ge
  constructor
  · rw [← h.1]
    exact readWord_congr fun a h1 h2 => hh a h1 (by omega)
  · rw [← h.2]
    exact readWord_congr fun a h1 h2 => hf a h1 (by omega)

/-! ### Links -/

/-- A stored pointer; `0` is `NULL`. -/
def ptr (v : ℕ) : Option ℕ := if v = 0 then none else some v

theorem ptr_zero : ptr 0 = none := rfl

theorem ptr_of_ne {v : ℕ} (h : v ≠ 0) : ptr v = some v := if_neg h

theorem ptr_eq_some {v x : ℕ} : ptr v = some x ↔ v = x ∧ v ≠ 0 := by
  unfold ptr
  split <;> simp_all

theorem ptr_eq_none {v : ℕ} : ptr v = none ↔ v = 0 := by
  unfold ptr
  split <;> simp_all

theorem ptr_inj {v w : ℕ} (h : ptr v = ptr w) : v = w := by
  rcases eq_or_ne w 0 with rfl | hw
  · exact ptr_eq_none.mp h
  · exact (ptr_eq_some.mp (h.trans (ptr_of_ne hw))).1

/-- The forward link of a node. -/
def nextFree (m : Mem) (x : ℕ) : Option ℕ := ptr (nextFreeBlkp m x)

/-- The back link of a node. -/
def prevFree (m : Mem) (x : ℕ) : Option ℕ := ptr (prevFreeBlkp m x)

theorem nextFreeBlkp_congr {m m' : Mem} {x : ℕ} (h : ∀ a, x ≤ a → a < x + 8 → m' a = m a) :
    nextFreeBlkp m' x = nextFreeBlkp m x :=
  readWord_congr fun a h1 h2 => h a h1 (by omega)

theorem prevFreeBlkp_congr {m m' : Mem} {x : ℕ} (h : ∀ a, x ≤ a → a < x + 8 → m' a = m a) :
    prevFreeBlkp m' x = prevFreeBlkp m x := by
  rw [prevFreeBlkp_def, prevFreeBlkp_def, wsize]
  exact readWord_congr fun a h1 h2 => h a (by omega) (by omega)

/-- Links outside the changed bytes are as before. -/
theorem links_frame {m m' : Mem} {p : Option ℕ} {nodes : List ℕ}
    (h : Linked (nextFree m) (prevFree m) p nodes)
    (hm : ∀ x ∈ nodes, ∀ a, x ≤ a → a < x + 8 → m' a = m a) :
    Linked (nextFree m') (prevFree m') p nodes :=
  h.frame (fun x hx => congrArg ptr (nextFreeBlkp_congr (hm x hx)))
    (fun x hx => congrArg ptr (prevFreeBlkp_congr (hm x hx)))

/-! ### The invariant -/

theorem prologue_mod : 16 % 8 = 0 := by decide

theorem prologue_ge : 16 ≤ 16 := le_refl 16

/-- The prologue: an allocated block of 16 bytes whose payload is its two free-list links. -/
def Arena.prologue (A : Arena) : Block := ⟨A.memStartBrk + 8, 16, true, prologue_mod, prologue_ge⟩

/-- The heap `h` represents the blocks `bs` and the free list `fl`. -/
structure Rep (A : Arena) (h : Heap) (bs : List Block) (fl : List ℕ) : Prop where
  brk_le : h.memBrk ≤ A.memMaxAddr
  tiles : Tiles (A.memStartBrk + 8) bs h.memBrk
  prologue : bs.head? = some A.prologue
  tagged : ∀ b ∈ bs, Tagged h.mem b
  epilogue : get h.mem (h.memBrk - 4) = pack 0 1
  free : ∀ x ∈ fl, ∃ b ∈ bs, b.addr = x ∧ b.alloc = false
  nodup : fl.Nodup
  head : (fl ++ [A.prologue.addr]).head? = some h.freelistHead
  links : Linked (nextFree h.mem) (prevFree h.mem) none (fl ++ [A.prologue.addr])

/-- The invariant between two calls. -/
structure WellFormed (A : Arena) (h : Heap) (bs : List Block) (fl : List ℕ) : Prop where
  rep : Rep A h bs fl
  listed : Listed bs fl
  coalesced : Coalesced bs
  listp : h.heapListp = A.prologue.addr

namespace Rep

variable {A : Arena} {h h' : Heap} {bs : List Block} {fl : List ℕ}

theorem prologue_mem (r : Rep A h bs fl) : A.prologue ∈ bs := List.mem_of_mem_head? r.prologue

/-- Where a block lies, as linear facts. -/
theorem bounds (r : Rep A h bs fl) {b : Block} (hb : b ∈ bs) :
    A.memStartBrk + 8 ≤ b.addr ∧ b.addr + b.size ≤ h.memBrk ∧ h.memBrk < 2 ^ 32 := by
  obtain ⟨h1, h2⟩ := r.tiles.bounds hb
  have := r.brk_le
  have := A.fits
  rw [Block.stop] at h2
  exact ⟨h1, h2, by omega⟩

theorem addr_mod (r : Rep A h bs fl) {b : Block} (hb : b ∈ bs) : b.addr % 8 = 0 :=
  (r.tiles.aligned (by have := A.aligned; omega)).1 b hb

/-- The free-list nodes, prologue included, are blocks. -/
theorem node_block (r : Rep A h bs fl) {x : ℕ} (hx : x ∈ fl ++ [A.prologue.addr]) :
    ∃ b ∈ bs, b.addr = x := by
  rcases List.mem_append.mp hx with hx | hx
  · obtain ⟨b, hb, he, _⟩ := r.free x hx
    exact ⟨b, hb, he⟩
  · exact ⟨A.prologue, r.prologue_mem, (List.mem_singleton.mp hx).symm⟩

/-- Two blocks are the same or at least 16 bytes apart. -/
theorem sep (r : Rep A h bs fl) {a b : Block} (ha : a ∈ bs) (hb : b ∈ bs)
    (hne : a.addr ≠ b.addr) : a.addr + a.size ≤ b.addr ∨ b.addr + b.size ≤ a.addr :=
  r.tiles.apart ha hb hne

theorem prologue_notMem (r : Rep A h bs fl) : A.prologue.addr ∉ fl := by
  intro hx
  obtain ⟨b, hb, he, hfree⟩ := r.free _ hx
  rw [r.tiles.eq_of_addr hb r.prologue_mem he] at hfree
  cases hfree

theorem nodes_nodup (r : Rep A h bs fl) : (fl ++ [A.prologue.addr]).Nodup := by
  rw [List.nodup_append]
  refine ⟨r.nodup, List.nodup_singleton _, fun a ha b hb he => r.prologue_notMem ?_⟩
  rw [← List.mem_singleton.mp hb, ← he]
  exact ha

/-! ### What the macros compute -/

theorem getSize_hdrp (r : Rep A h bs fl) {b : Block} (hb : b ∈ bs) :
    getSize h.mem (hdrp b.addr) = b.size := getSize_of_tag (r.tagged b hb).1

theorem getAlloc_hdrp (r : Rep A h bs fl) {b : Block} (hb : b ∈ bs) :
    getAlloc h.mem (hdrp b.addr) = b.alloc.toNat := getAlloc_of_tag (r.tagged b hb).1

theorem ftrp_eq (r : Rep A h bs fl) {b : Block} (hb : b ∈ bs) :
    ftrp h.mem b.addr = b.addr + b.size - 8 := by
  rw [ftrp_def, r.getSize_hdrp hb, dsize]

theorem nextBlkp_eq (r : Rep A h bs fl) {b : Block} (hb : b ∈ bs) :
    nextBlkp h.mem b.addr = b.stop := by
  rw [nextBlkp_def, Block.stop]
  exact congrArg _ (r.getSize_hdrp hb)

theorem getAlloc_ftrp (r : Rep A h bs fl) {b : Block} (hb : b ∈ bs) :
    getAlloc h.mem (ftrp h.mem b.addr) = b.alloc.toNat := by
  rw [r.ftrp_eq hb, getAlloc_of_tag (r.tagged b hb).2]

theorem getSize_ftrp (r : Rep A h bs fl) {b : Block} (hb : b ∈ bs) :
    getSize h.mem (ftrp h.mem b.addr) = b.size := by
  rw [r.ftrp_eq hb, getSize_of_tag (r.tagged b hb).2]

/-- `PREV_BLKP` reads the footer of the block that stops here. -/
theorem prevBlkp_eq (r : Rep A h bs fl) {b : Block} (hb : b ∈ bs) :
    prevBlkp h.mem b.stop = b.addr := by
  have h1 : getSize h.mem (b.stop - dsize) = b.size := getSize_of_tag (r.tagged b hb).2
  rw [prevBlkp_def, h1, Block.stop, Nat.add_sub_cancel]

/-- The header at the end of the tiling is the epilogue. -/
theorem getAlloc_epilogue (r : Rep A h bs fl) : getAlloc h.mem (hdrp h.memBrk) = 1 := by
  rw [getAlloc, hdrp_def, wsize, r.epilogue]
  decide

theorem getSize_epilogue (r : Rep A h bs fl) : getSize h.mem (hdrp h.memBrk) = 0 := by
  rw [getSize, hdrp_def, wsize, r.epilogue]
  decide

/-! ### Changing tags and changing links -/

/-- **Replace a run of blocks.**  If the tags of `mid'` are in place, nothing outside the run's
bytes changed and no node of the free list lies in the run, the heap represents the new blocks. -/
theorem replace {pre mid mid' post : List Block} (r : Rep A h (pre ++ mid ++ post) fl)
    (hpre : pre ≠ []) {p q : ℕ} (ht : Tiles p mid q) (hl : Tiles (A.memStartBrk + 8) pre p)
    (hr : Tiles q post h.memBrk) (ht' : Tiles p mid' q) (hbrk : h'.memBrk = h.memBrk)
    (hhead : h'.freelistHead = h.freelistHead)
    (hmem : ∀ a, a < p - 4 ∨ q - 4 ≤ a → h'.mem a = h.mem a)
    (htag : ∀ b ∈ mid', Tagged h'.mem b) (hfl : ∀ x ∈ fl, ∀ b ∈ mid, b.addr ≠ x) :
    Rep A h' (pre ++ mid' ++ post) fl := by
  have hsize : p ≤ q := ht.le
  have hq := hr.le
  -- a block before the run ends at its start, a block after it starts at its end
  have hout : ∀ b, b ∈ pre ∨ b ∈ post →
      (A.memStartBrk + 8 ≤ b.addr ∧ b.addr + b.size ≤ p) ∨ q ≤ b.addr := by
    intro b hb
    rcases hb with hb | hb
    · have := hl.bounds hb
      unfold Block.stop at this
      exact Or.inl this
    · exact Or.inr (hr.bounds hb).1
  have hnode : ∀ x ∈ fl ++ [A.prologue.addr], ∀ a, x ≤ a → a < x + 8 → h'.mem a = h.mem a := by
    intro x hx a h1 h2
    obtain ⟨b, hb, he⟩ : ∃ b, (b ∈ pre ∨ b ∈ post) ∧ b.addr = x := by
      rcases List.mem_append.mp hx with hx | hx
      · obtain ⟨b, hb, he, _⟩ := r.free x hx
        rw [List.mem_append, List.mem_append] at hb
        rcases hb with (hb | hb) | hb
        · exact ⟨b, Or.inl hb, he⟩
        · exact absurd he (hfl x hx b hb)
        · exact ⟨b, Or.inr hb, he⟩
      · have hp := r.prologue
        cases pre with
        | nil => exact absurd rfl hpre
        | cons c l =>
          simp only [List.cons_append, List.head?_cons, Option.some.injEq] at hp
          exact ⟨c, Or.inl List.mem_cons_self, by rw [hp, List.mem_singleton.mp hx]⟩
    have := b.size_ge
    have := hout b hb
    exact hmem a (by omega)
  refine
    { brk_le := by rw [hbrk]; exact r.brk_le
      tiles := by
        rw [hbrk]
        exact tiles_append.mpr ⟨q, tiles_append.mpr ⟨p, hl, ht'⟩, hr⟩
      prologue := ?_
      tagged := fun b hb => ?_
      epilogue := ?_
      free := fun x hx => ?_
      nodup := r.nodup
      head := by rw [hhead]; exact r.head
      links := links_frame r.links hnode }
  · have hp := r.prologue
    cases pre with
    | nil => exact absurd rfl hpre
    | cons c l => exact hp
  · rw [List.mem_append, List.mem_append] at hb
    have hkeep : b ∈ pre ∨ b ∈ post → Tagged h'.mem b := by
      intro hb'
      have hm : b ∈ pre ++ mid ++ post := by
        rcases hb' with hb' | hb' <;> simp [hb']
      have h1 := hout b hb'
      have h2 := r.bounds hm
      have h3 := b.size_ge
      exact (r.tagged b hm).congr (by omega) (fun a h4 h5 => hmem a (by omega))
        (fun a h4 h5 => hmem a (by omega))
    rcases hb with (hb | hb) | hb
    · exact hkeep (Or.inl hb)
    · exact htag b hb
    · exact hkeep (Or.inr hb)
  · rw [hbrk, ← r.epilogue]
    exact readWord_congr fun a h1 h2 => hmem a (by omega)
  · obtain ⟨b, hb, he, hf⟩ := r.free x hx
    refine ⟨b, ?_, he, hf⟩
    rw [List.mem_append, List.mem_append] at hb ⊢
    rcases hb with (hb | hb) | hb
    · exact Or.inl (Or.inl hb)
    · exact absurd he (hfl x hx b hb)
    · exact Or.inr hb

/-- **Relink.**  A change of link words only keeps blocks and tags; the new links may thread another
list of free blocks. -/
theorem relink {fl' : List ℕ} (r : Rep A h bs fl) (hbrk : h'.memBrk = h.memBrk)
    (hmem : ∀ a, (∀ b ∈ bs, a < b.addr ∨ b.addr + 8 ≤ a) → h'.mem a = h.mem a)
    (hfree : ∀ x ∈ fl', ∃ b ∈ bs, b.addr = x ∧ b.alloc = false) (hnd : fl'.Nodup)
    (hhead : (fl' ++ [A.prologue.addr]).head? = some h'.freelistHead)
    (hlinks : Linked (nextFree h'.mem) (prevFree h'.mem) none (fl' ++ [A.prologue.addr])) :
    Rep A h' bs fl' := by
  refine
    { brk_le := by rw [hbrk]; exact r.brk_le
      tiles := by rw [hbrk]; exact r.tiles
      prologue := r.prologue
      tagged := fun b hb => ?_
      epilogue := ?_
      free := hfree
      nodup := hnd
      head := hhead
      links := hlinks }
  · have hb' := r.bounds hb
    have hge := b.size_ge
    refine (r.tagged b hb).congr (by omega) (fun a h1 h2 => hmem a fun c hc => ?_)
      (fun a h1 h2 => hmem a fun c hc => ?_)
    all_goals
      have := c.size_ge
      by_cases he : b.addr = c.addr
      · omega
      · have := r.sep hb hc he
        omega
  · rw [hbrk, ← r.epilogue]
    refine readWord_congr fun a h1 h2 => hmem a fun c hc => ?_
    have := c.size_ge
    have := r.bounds hc
    omega

end Rep

end SystemProgramming.MallocLab
