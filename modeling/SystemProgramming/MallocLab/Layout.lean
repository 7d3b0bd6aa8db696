import Mathlib.Data.List.Lattice
import SystemProgramming.MallocLab.Walks

/-!
# The allocator without an address space

A `Layout` is what the allocator's heap is when the memory is taken away: the blocks and the free list
as offsets from the start of the heap.  The operations on layouts are relations that name no memory
and no arena; the program refines them from whatever arena it runs in.

* `Represents A h L` : the heap `h` in the arena `A` is well formed and has the layout `L`.
* `Allots`, `Frees` : what `mm_malloc` and `mm_free` do to a layout.
* `Represents.malloc`, `Represents.free` : a call does to the heap what the relation does to the
  layout.
* `Rep.unique` : the words of a heap tell its blocks and its free list.
-/

namespace SystemProgramming.MallocLab

open ByteMemory LinkedList

/-! ### Moving blocks -/

namespace Block

/-- The block `s` bytes further on. -/
def shift (s : ℕ) (b : Block) : Block := { b with addr := b.addr + s }

@[simp] theorem shift_addr (s : ℕ) (b : Block) : (b.shift s).addr = b.addr + s := rfl
@[simp] theorem shift_size (s : ℕ) (b : Block) : (b.shift s).size = b.size := rfl

theorem ext_fields {a b : Block} (haddr : a.addr = b.addr) (hsize : a.size = b.size)
    (halloc : a.alloc = b.alloc) : a = b := by
  cases a
  cases b
  cases haddr
  cases hsize
  cases halloc
  rfl

theorem shift_rest (s : ℕ) (b : Block) (n : ℕ) (hmod : n % 8 = 0) (hn : n + 16 ≤ b.size) :
    (b.rest n hmod hn).shift s = (b.shift s).rest n hmod hn := by
  refine ext_fields ?_ rfl rfl
  show b.addr + n + s = b.addr + s + n
  omega

theorem shift_injective (s : ℕ) : Function.Injective (shift s) := by
  intro a b h
  have haddr : a.addr + s = b.addr + s := congrArg addr h
  exact ext_fields (by omega) (congrArg size h :) (congrArg alloc h :)

end Block

/-! ### The words tell the blocks -/

/-- Two tilings whose blocks agree with one reading of sizes and allocation bits are the same. -/
theorem Tiles.unique {bs bs' : List Block} {p q : ℕ} (size alloc : ℕ → ℕ) (ht : Tiles p bs q)
    (ht' : Tiles p bs' q) (hs : ∀ b ∈ bs, size b.addr = b.size ∧ alloc b.addr = b.alloc.toNat)
    (hs' : ∀ b ∈ bs', size b.addr = b.size ∧ alloc b.addr = b.alloc.toNat) : bs = bs' := by
  induction bs generalizing p bs' with
  | nil =>
    cases bs' with
    | nil => rfl
    | cons b' bs' =>
      have hpq : p = q := ht
      have := ht'.bounds List.mem_cons_self
      have := b'.size_ge
      have hstop : b'.stop = b'.addr + b'.size := rfl
      omega
  | cons b bs ih =>
    cases bs' with
    | nil =>
      have hpq : p = q := ht'
      have := ht.bounds List.mem_cons_self
      have := b.size_ge
      have hstop : b.stop = b.addr + b.size := rfl
      omega
    | cons b' bs' =>
      obtain ⟨hp, ht⟩ := ht
      obtain ⟨hp', ht'⟩ := ht'
      have hb := hs b List.mem_cons_self
      have hb' := hs' b' List.mem_cons_self
      rw [hp] at hb
      rw [hp'] at hb'
      have halloc : b.alloc = b'.alloc := by
        have he : b.alloc.toNat = b'.alloc.toNat := hb.2.symm.trans hb'.2
        cases ha : b'.alloc with
        | true => exact Bool.toNat_eq_one.mp (by rw [he, ha]; rfl)
        | false => exact Bool.toNat_eq_zero.mp (by rw [he, ha]; rfl)
      obtain rfl : b = b' := Block.ext_fields (hp.trans hp'.symm) (hb.1.symm.trans hb'.1) halloc
      have hrest := ih ht ht' (fun c hc => hs c (List.mem_cons_of_mem _ hc))
        fun c hc => hs' c (List.mem_cons_of_mem _ hc)
      rw [hrest]

/-- A heap has one list of blocks and one free list. -/
theorem Rep.unique {A : Arena} {h : Heap} {bs bs' : List Block} {fl fl' : List ℕ}
    (r : Rep A h bs fl) (r' : Rep A h bs' fl') : bs = bs' ∧ fl = fl' := by
  constructor
  · exact Tiles.unique (fun x => getSize h.mem (hdrp x)) (fun x => getAlloc h.mem (hdrp x)) r.tiles
      r'.tiles (fun b hb => ⟨r.getSize_hdrp hb, r.getAlloc_hdrp hb⟩)
      fun b hb => ⟨r'.getSize_hdrp hb, r'.getAlloc_hdrp hb⟩
  · have hwalk := r.freeWalk_eq (by omega : fl.length < fl.length + fl'.length + 1)
    rw [r'.freeWalk_eq (by omega)] at hwalk
    cases hwalk
    rfl

/-! ### Moving what the operations do -/

theorem Placed.shift {b : Block} {n : ℕ} {parts : List Block} {new : List ℕ}
    (hp : Placed b n parts new) (s : ℕ) :
    Placed (b.shift s) n (parts.map (Block.shift s)) (new.map (· + s)) := by
  cases hp with
  | whole hn hlt => exact .whole hn hlt
  | split hmod hge hn =>
    have hnew : b.addr + n + s = (b.shift s).addr + n := by
      rw [Block.shift_addr]
      omega
    rw [List.map_cons, List.map_singleton, List.map_singleton, Block.shift_rest, hnew]
    exact Placed.split (b := b.shift s) hmod hge hn

theorem Merge.shift {pre post left right : List Block} {b m : Block} {gone : List ℕ}
    (hm : Merge pre b post left m right gone) (s : ℕ) :
    Merge (pre.map (Block.shift s)) (b.shift s) (post.map (Block.shift s))
      (left.map (Block.shift s)) (m.shift s) (right.map (Block.shift s)) (gone.map (· + s)) := by
  have hhead : ∀ l : List Block, (∀ nb ∈ l.head?, nb.alloc = true) →
      ∀ nb ∈ (l.map (Block.shift s)).head?, nb.alloc = true := by
    intro l hl nb hnb
    rw [List.head?_map] at hnb
    obtain ⟨c, hc, rfl⟩ := Option.map_eq_some_iff.mp hnb
    exact hl c hc
  cases hm with
  | alone hp hn =>
    rw [List.map_append]
    exact .alone hp (hhead _ hn)
  | next hp hn =>
    rw [List.map_append]
    exact .next hp hn
  | prev hp hn =>
    rw [List.map_append]
    exact .prev hp (hhead _ hn)
  | both hp hn =>
    rw [List.map_append]
    exact .both hp hn

/-! ### Layouts -/

/-- The blocks, prologue first, and the addresses of the free ones from the head of the free list on,
as offsets from the start of the heap. -/
structure Layout where
  blocks : List Block
  free : List ℕ

/-- The address of an offset; `NULL` for none. -/
def Arena.pointer (A : Arena) : Option ℕ → ℕ
  | none => 0
  | some x => x + A.memStartBrk

namespace Layout

/-- The offset of the break. -/
def brk (L : Layout) : ℕ := 8 + (L.blocks.map Block.size).sum

/-- The size of the block at `x`, `0` where there is none. -/
def sizeAt (L : Layout) (x : ℕ) : ℕ :=
  ((L.blocks.find? fun b => decide (b.addr = x)).map Block.size).getD 0

/-- The first listed block of at least `n` bytes. -/
def firstFit (L : Layout) (n : ℕ) : Option ℕ := L.free.find? fun x => decide (n ≤ L.sizeAt x)

end Layout

/-- The heap is well formed and has the layout `L`. -/
def Represents (A : Arena) (h : Heap) (L : Layout) : Prop :=
  WellFormed A h (L.blocks.map (Block.shift A.memStartBrk)) (L.free.map (· + A.memStartBrk))

/-! ### What the calls do to a layout -/

/-- `mm_malloc(n)` on a layout: the offset of the block and the layout. -/
inductive Allots (n : ℕ) : Layout → Option ℕ → Layout → Prop
  | zero {L : Layout} (h0 : n = 0) : Allots n L none L
  | fit {L : Layout} {pre post parts : List Block} {b : Block} {new : List ℕ} (h0 : n ≠ 0)
      (hfit : L.firstFit (adjust n) = some b.addr) (hsplit : L.blocks = pre ++ b :: post)
      (hfree : b.alloc = false) (hp : Placed b (adjust n) parts new) :
      Allots n L (some b.addr) ⟨pre ++ parts ++ post, new ++ L.free.erase b.addr⟩
  | grow {L : Layout} {left parts : List Block} {b m : Block} {gone new : List ℕ} (h0 : n ≠ 0)
      (hfit : L.firstFit (adjust n) = none) (hroom : L.brk + growth n ≤ maxHeap)
      (haddr : b.addr = L.brk) (hsize : b.size = growth n) (hfree : b.alloc = false)
      (hm : Merge L.blocks b [] left m [] gone) (hp : Placed m (adjust n) parts new) :
      Allots n L (some m.addr) ⟨left ++ parts, new ++ (m.addr :: L.free.diff gone).erase m.addr⟩
  | full {L : Layout} (h0 : n ≠ 0) (hfit : L.firstFit (adjust n) = none)
      (hroom : maxHeap < L.brk + growth n) : Allots n L none L

/-- `mm_free` of the block at `x` on a layout. -/
inductive Frees : Layout → ℕ → Layout → Prop
  | mk {L : Layout} {pre post left right : List Block} {b m : Block} {gone : List ℕ}
      (hsplit : L.blocks = pre ++ b :: post) (halloc : b.alloc = true) (hne : b.addr ≠ 8)
      (hm : Merge pre (b.withAlloc false) post left m right gone) :
      Frees L b.addr ⟨left ++ m :: right, m.addr :: L.free.diff gone⟩

namespace Represents

variable {A : Arena} {h h' : Heap} {L L' : Layout}

/-- The break is where the layout ends. -/
theorem memBrk_eq (r : Represents A h L) : h.memBrk = L.brk + A.memStartBrk := by
  have hsum := r.rep.tiles.sum_size
  have hsizes : (L.blocks.map (Block.shift A.memStartBrk)).map Block.size =
      L.blocks.map Block.size := by
    rw [List.map_map]
    rfl
  rw [hsizes] at hsum
  rw [← hsum, Layout.brk]
  omega

/-- The header of a block of the layout tells its size. -/
theorem getSize_eq (r : Represents A h L) {b : Block} (hb : b ∈ L.blocks) :
    getSize h.mem (hdrp (b.addr + A.memStartBrk)) = b.size := by
  have hsize := r.rep.getSize_hdrp (List.mem_map_of_mem (f := Block.shift A.memStartBrk) hb)
  rw [Block.shift_addr, Block.shift_size] at hsize
  exact hsize

/-- Two blocks of the layout at one offset are the same. -/
theorem eq_of_addr (r : Represents A h L) {a b : Block} (ha : a ∈ L.blocks) (hb : b ∈ L.blocks)
    (he : a.addr = b.addr) : a = b := by
  apply Block.shift_injective A.memStartBrk
  exact r.rep.tiles.eq_of_addr (List.mem_map_of_mem ha) (List.mem_map_of_mem hb)
    (congrArg (· + A.memStartBrk) he)

theorem sizeAt_eq (r : Represents A h L) {b : Block} (hb : b ∈ L.blocks) :
    L.sizeAt b.addr = b.size := by
  cases hf : L.blocks.find? fun c => decide (c.addr = b.addr) with
  | none => exact absurd (List.find?_eq_none.mp hf b hb) (by simp)
  | some c =>
    have hc : c.addr = b.addr := by simpa using List.find?_some hf
    rw [Layout.sizeAt, hf, r.eq_of_addr (List.mem_of_find?_eq_some hf) hb hc]
    rfl

/-- A listed offset is a free block. -/
theorem free_block (r : Represents A h L) {x : ℕ} (hx : x ∈ L.free) :
    ∃ b ∈ L.blocks, b.addr = x ∧ b.alloc = false := by
  obtain ⟨c, hc, he, hfree⟩ := r.rep.free _ (List.mem_map_of_mem (f := (· + A.memStartBrk)) hx)
  obtain ⟨b, hb, rfl⟩ := List.mem_map.mp hc
  have he' : b.addr + A.memStartBrk = x + A.memStartBrk := he
  exact ⟨b, hb, by omega, hfree⟩

/-- The search of `find_fit` is the search of the layout. -/
theorem firstFit_eq (r : Represents A h L) (n : ℕ) :
    MallocLab.firstFit h.mem n (L.free.map (· + A.memStartBrk)) = A.pointer (L.firstFit n) := by
  have hsame : ∀ l : List ℕ, (∀ x ∈ l, x ∈ L.free) →
      MallocLab.firstFit h.mem n (l.map (· + A.memStartBrk)) =
        A.pointer (l.find? fun x => decide (n ≤ L.sizeAt x)) := by
    intro l
    induction l with
    | nil => exact fun _ => rfl
    | cons x l ih =>
      intro hl
      obtain ⟨b, hb, rfl, _⟩ := r.free_block (hl x List.mem_cons_self)
      have hgo := ih fun y hy => hl y (List.mem_cons_of_mem _ hy)
      rw [MallocLab.firstFit] at hgo ⊢
      rw [List.map_cons, List.find?_cons, List.find?_cons, r.getSize_eq hb, r.sizeAt_eq hb]
      cases decide (n ≤ b.size) with
      | true => rfl
      | false => exact hgo
  exact hsame L.free fun _ hx => hx

theorem blocks_ne_nil (r : Represents A h L) : L.blocks ≠ [] := by
  intro hnil
  apply r.rep.ne_nil
  rw [hnil]
  rfl

/-- A layout answers every allocation. -/
theorem exists_allots (r : Represents A h L) {n : ℕ} (hn : n ≤ intMax) :
    ∃ o L', Allots n L o L' := by
  by_cases h0 : n = 0
  · exact ⟨_, _, .zero h0⟩
  obtain ⟨hmod, hge, _⟩ := WellFormed.adjust_spec h0 (le_sizeMax hn)
  obtain ⟨hle, hsmod, hsge, _⟩ := WellFormed.growth_spec n
  cases hfit : L.firstFit (adjust n) with
  | some x =>
    obtain ⟨b, hb, rfl, hfree⟩ := r.free_block (List.mem_of_find?_eq_some hfit)
    have hsize : adjust n ≤ L.sizeAt b.addr := by simpa using List.find?_some hfit
    rw [r.sizeAt_eq hb] at hsize
    obtain ⟨parts, new, hp⟩ := exists_placed hmod hge hsize
    obtain ⟨pre, post, hsplit⟩ := List.append_of_mem hb
    exact ⟨_, _, .fit h0 hfit hsplit hfree hp⟩
  | none =>
    by_cases hroom : L.brk + growth n ≤ maxHeap
    · obtain ⟨left, m, gone, hm⟩ :=
        exists_merge_end r.blocks_ne_nil ⟨L.brk, growth n, false, hsmod, hsge⟩
      have hsize : growth n ≤ m.size := hm.size_le
      obtain ⟨parts, new, hp⟩ := exists_placed hmod hge (by omega : adjust n ≤ m.size)
      exact ⟨_, _, .grow h0 hfit hroom rfl rfl rfl hm hp⟩
    · exact ⟨_, _, .full h0 hfit (by omega)⟩

theorem add_injective (s : ℕ) : Function.Injective (· + s) := by
  intro x y h
  exact Nat.add_right_cancel h

/-- Placing a request in a block of the layout. -/
theorem place {pre post parts : List Block} {b : Block} {new : List ℕ} {n : ℕ} (r : Represents A h L)
    (hsplit : L.blocks = pre ++ b :: post) (hfree : b.alloc = false) (hp : Placed b n parts new) :
    Represents A (MallocLab.place (b.addr + A.memStartBrk) n h)
      ⟨pre ++ parts ++ post, new ++ L.free.erase b.addr⟩ := by
  have w : WellFormed A h _ _ := r
  rw [hsplit, List.map_append, List.map_cons] at w
  have hw := (w.placed hfree (hp.shift A.memStartBrk)).1
  rw [Represents, List.map_append, List.map_append, List.map_append,
    List.map_erase (add_injective A.memStartBrk)]
  exact hw

/-- **`mm_malloc`** does to the heap what `Allots` does to the layout. -/
theorem malloc {n fuel p : ℕ} {o : Option ℕ} (r : Represents A h L) (ha : Allots n L o L')
    (hret : mmMalloc A fuel n h = some (p, h')) : p = A.pointer o ∧ Represents A h' L' := by
  have hbrk := r.memBrk_eq
  have hmax := A.size
  have hfirst := r.firstFit_eq (adjust n)
  cases ha with
  | zero h0 =>
    rw [mmMalloc, if_pos h0] at hret
    cases hret
    exact ⟨rfl, r⟩
  | @fit pre post parts b new h0 hfit hsplit hfree hp =>
    have hb : b ∈ L.blocks := by rw [hsplit]; simp
    have hbm := List.mem_map_of_mem (f := Block.shift A.memStartBrk) hb
    have hbd := r.rep.bounds hbm
    rw [Block.shift_addr] at hbd
    rw [hfit] at hfirst
    rcases r.mmMalloc_cases h0 hret with ⟨d, hd, he, _, _, rfl, rfl⟩ | ⟨hzero, _⟩
    · have hdb : d.addr = b.addr + A.memStartBrk := he.trans hfirst
      rw [hdb]
      exact ⟨rfl, r.place hsplit hfree hp⟩
    · have : b.addr + A.memStartBrk = 0 := hfirst.symm.trans hzero
      omega
  | @grow left parts b m gone new h0 hfit hroom haddr hsize hfree hm hp =>
    obtain ⟨_, hsmod, hsge, _⟩ := WellFormed.growth_spec n
    rw [hfit] at hfirst
    rcases r.mmMalloc_cases h0 hret with ⟨d, hd, he, _⟩ | ⟨_, ⟨hfits, hp', rfl⟩ | ⟨hfull, _⟩⟩
    · have := r.rep.bounds hd
      have : d.addr = 0 := he.trans hfirst
      omega
    · have hnew : h.newBlock (growth n) hsmod hsge = b.shift A.memStartBrk := by
        refine Block.ext_fields ?_ hsize.symm hfree.symm
        rw [Block.shift_addr, haddr]
        exact hbrk
      have hm' := hm.shift A.memStartBrk
      rw [← hnew] at hm'
      obtain ⟨h₁, heq, hw, _⟩ := WellFormed.extended hsmod hsge r hfits hm'
      rw [heq] at hp' ⊢
      have r₁ : Represents A h₁ ⟨left ++ [m], m.addr :: L.free.diff gone⟩ := by
        show WellFormed A h₁ _ ((m.addr :: L.free.diff gone).map (· + A.memStartBrk))
        rw [List.map_append, List.map_cons, List.map_cons,
          List.map_diff (add_injective A.memStartBrk)]
        exact hw
      have hsplit : left ++ [m] = left ++ m :: [] := rfl
      have hplace := r₁.place hsplit (hm.alloc_eq hfree) hp
      rw [List.append_nil] at hplace
      rw [hp']
      exact ⟨rfl, hplace⟩
    · omega
  | full h0 hfit hroom =>
    rw [hfit] at hfirst
    rcases r.mmMalloc_cases h0 hret with ⟨d, hd, he, _⟩ | ⟨_, ⟨hfits, _⟩ | ⟨_, hp, rfl⟩⟩
    · have := r.rep.bounds hd
      have : d.addr = 0 := he.trans hfirst
      omega
    · omega
    · exact ⟨hp, r⟩

/-- **`mm_free`** does to the heap what `Frees` does to the layout. -/
theorem free {x : ℕ} (r : Represents A h L) (hf : Frees L x L') :
    Represents A (mmFree (x + A.memStartBrk) h) L' := by
  cases hf with
  | @mk pre post left right b m gone hsplit halloc hne hm =>
    have w : WellFormed A h _ _ := r
    rw [hsplit, List.map_append, List.map_cons] at w
    have hheld : Held A (pre.map (Block.shift A.memStartBrk) ++
        b.shift A.memStartBrk :: post.map (Block.shift A.memStartBrk)) (b.shift A.memStartBrk) := by
      refine ⟨by simp, halloc, fun he => hne ?_⟩
      have he' : b.addr + A.memStartBrk = A.memStartBrk + 8 := he
      omega
    have hw := (w.freed_merge hheld (hm.shift A.memStartBrk)).1
    show WellFormed A _ _ ((m.addr :: L.free.diff gone).map (· + A.memStartBrk))
    rw [List.map_append, List.map_cons, List.map_cons, List.map_diff (add_injective A.memStartBrk)]
    exact hw

end Represents

end SystemProgramming.MallocLab
