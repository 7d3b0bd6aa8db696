import Mathlib.Algebra.Ring.Nat
import Mathlib.Data.List.Basic
import Mathlib.Data.List.Chain
import Mathlib.Data.List.Perm.Basic

/-!
# Blocks and tilings: what the allocator's heap is

The abstract heap is a list of blocks in address order that tiles an interval without gaps, and a
list of the addresses of its free blocks.  A `Block` carries the two facts every block of the
allocator has: its size is a multiple of 8 and at least 16, so its tags and its two free-list links
never overlap.

* `Tiles p bs q` : the blocks `bs` cover `[p, q)`, each starting where the one before stops.
* `Tiles.apart` : two blocks of a tiling that start at different addresses do not overlap.
* `Block.join`, `Block.withAlloc`, `Block.cut`, `Block.rest` : the blocks that merging, tagging and
  splitting produce.
-/

namespace SystemProgramming.MallocLab

/-- A block: the address of its payload, its size with header and footer, its allocated bit. -/
structure Block where
  addr : ℕ
  size : ℕ
  alloc : Bool
  size_mod : size % 8 = 0
  size_ge : 16 ≤ size
  deriving DecidableEq

namespace Block

/-- The payload address of the block that follows. -/
def stop (b : Block) : ℕ := b.addr + b.size

/-- The same block with another allocated bit. -/
def withAlloc (b : Block) (alloc : Bool) : Block := { b with alloc := alloc }

/-- The free block that covers two neighbours. -/
def join (a b : Block) : Block where
  addr := a.addr
  size := a.size + b.size
  alloc := false
  size_mod := by have := a.size_mod; have := b.size_mod; omega
  size_ge := by have := a.size_ge; omega

/-- The allocated front part of a split. -/
def cut (b : Block) (n : ℕ) (hmod : n % 8 = 0) (hge : 16 ≤ n) : Block :=
  ⟨b.addr, n, true, hmod, hge⟩

/-- The free rest of a split. -/
def rest (b : Block) (n : ℕ) (hmod : n % 8 = 0) (hn : n + 16 ≤ b.size) : Block where
  addr := b.addr + n
  size := b.size - n
  alloc := false
  size_mod := by have := b.size_mod; omega
  size_ge := by omega

@[simp] theorem withAlloc_addr (b : Block) (a : Bool) : (b.withAlloc a).addr = b.addr := rfl
@[simp] theorem withAlloc_size (b : Block) (a : Bool) : (b.withAlloc a).size = b.size := rfl
@[simp] theorem withAlloc_alloc (b : Block) (a : Bool) : (b.withAlloc a).alloc = a := rfl
@[simp] theorem withAlloc_stop (b : Block) (a : Bool) : (b.withAlloc a).stop = b.stop := rfl
@[simp] theorem join_addr (a b : Block) : (a.join b).addr = a.addr := rfl
@[simp] theorem join_size (a b : Block) : (a.join b).size = a.size + b.size := rfl

theorem join_stop (a b : Block) (h : a.stop = b.addr) : (a.join b).stop = b.stop := by
  simp only [stop, join_addr, join_size] at *
  omega

end Block

/-! ### Tilings -/

/-- The blocks `bs` cover `[p, q)` in order and without gaps. -/
def Tiles : ℕ → List Block → ℕ → Prop
  | p, [], q => p = q
  | p, b :: bs, q => b.addr = p ∧ Tiles b.stop bs q

theorem tiles_append {l₁ l₂ : List Block} {p q : ℕ} :
    Tiles p (l₁ ++ l₂) q ↔ ∃ r, Tiles p l₁ r ∧ Tiles r l₂ q := by
  induction l₁ generalizing p with
  | nil => simp [Tiles]
  | cons b l ih =>
    simp only [List.cons_append, Tiles, ih]
    constructor
    · rintro ⟨h, r, h1, h2⟩
      exact ⟨r, ⟨h, h1⟩, h2⟩
    · rintro ⟨r, ⟨h, h1⟩, h2⟩
      exact ⟨h, r, h1, h2⟩

theorem tiles_nil {p q : ℕ} : Tiles p [] q ↔ p = q := Iff.rfl

theorem Tiles.le {bs : List Block} {p q : ℕ} (h : Tiles p bs q) : p ≤ q := by
  induction bs generalizing p with
  | nil => exact le_of_eq h
  | cons b bs ih =>
    obtain ⟨h1, h2⟩ := h
    have := ih h2
    unfold Block.stop at this
    omega

/-- Every block of a tiling lies inside the tiled interval. -/
theorem Tiles.bounds {bs : List Block} {p q : ℕ} (h : Tiles p bs q) {b : Block} (hb : b ∈ bs) :
    p ≤ b.addr ∧ b.stop ≤ q := by
  induction bs generalizing p with
  | nil => cases hb
  | cons c bs ih =>
    obtain ⟨h1, h2⟩ := h
    rcases List.mem_cons.mp hb with rfl | hb
    · exact ⟨le_of_eq h1.symm, h2.le⟩
    · obtain ⟨h3, h4⟩ := ih h2 hb
      unfold Block.stop at *
      exact ⟨by omega, h4⟩

theorem Tiles.aligned {bs : List Block} {p q : ℕ} (h : Tiles p bs q) (hp : p % 8 = 0) :
    (∀ b ∈ bs, b.addr % 8 = 0) ∧ q % 8 = 0 := by
  induction bs generalizing p with
  | nil => exact ⟨by simp, by rw [← tiles_nil.mp h]; exact hp⟩
  | cons c bs ih =>
    obtain ⟨h1, h2⟩ := h
    have hc := c.size_mod
    obtain ⟨h3, h4⟩ := ih h2 (by unfold Block.stop; omega)
    refine ⟨fun b hb => ?_, h4⟩
    rcases List.mem_cons.mp hb with rfl | hb
    · omega
    · exact h3 b hb

/-- The blocks of a tiling are in address order. -/
theorem Tiles.pairwise {bs : List Block} {p q : ℕ} (h : Tiles p bs q) :
    bs.Pairwise fun a b => a.stop ≤ b.addr := by
  induction bs generalizing p with
  | nil => exact List.Pairwise.nil
  | cons c bs ih => exact List.Pairwise.cons (fun b hb => (h.2.bounds hb).1) (ih h.2)

/-- Blocks of a tiling at different addresses do not overlap. -/
theorem Tiles.apart {bs : List Block} {p q : ℕ} (h : Tiles p bs q) {a b : Block} (ha : a ∈ bs)
    (hb : b ∈ bs) (hne : a.addr ≠ b.addr) : a.stop ≤ b.addr ∨ b.stop ≤ a.addr := by
  induction bs generalizing p with
  | nil => cases ha
  | cons c bs ih =>
    rcases List.mem_cons.mp ha with rfl | ha'
    · rcases List.mem_cons.mp hb with rfl | hb'
      · exact absurd rfl hne
      · exact Or.inl (h.2.bounds hb').1
    · rcases List.mem_cons.mp hb with rfl | hb'
      · exact Or.inr (h.2.bounds ha').1
      · exact ih h.2 ha' hb'

/-- A block of a tiling is determined by its address. -/
theorem Tiles.eq_of_addr {bs : List Block} {p q : ℕ} (h : Tiles p bs q) {a b : Block} (ha : a ∈ bs)
    (hb : b ∈ bs) (he : a.addr = b.addr) : a = b := by
  induction bs generalizing p with
  | nil => cases ha
  | cons c bs ih =>
    have hc := c.size_ge
    rcases List.mem_cons.mp ha with rfl | ha'
    · rcases List.mem_cons.mp hb with rfl | hb'
      · rfl
      · have := (h.2.bounds hb').1
        unfold Block.stop at this
        omega
    · rcases List.mem_cons.mp hb with rfl | hb'
      · have := (h.2.bounds ha').1
        unfold Block.stop at this
        omega
      · exact ih h.2 ha' hb'

theorem Tiles.stop_unique {bs : List Block} {p q q' : ℕ} (h : Tiles p bs q) (h' : Tiles p bs q') :
    q = q' := by
  induction bs generalizing p with
  | nil => exact h.symm.trans h'
  | cons b bs ih => exact ih h.2 h'.2

theorem Tiles.start_unique {bs : List Block} {p p' q : ℕ} (h : Tiles p bs q) (h' : Tiles p' bs q) :
    p = p' := by
  cases bs with
  | nil => exact h.trans h'.symm
  | cons b bs => exact h.1.symm.trans h'.1

/-- Where a run of a tiling lies is where the rest of the tiling stops and starts. -/
theorem Tiles.split {pre mid post : List Block} {s e p q : ℕ} (h : Tiles s (pre ++ mid ++ post) e)
    (hm : Tiles p mid q) (hne : mid ≠ []) : Tiles s pre p ∧ Tiles q post e := by
  obtain ⟨q', hq, hr⟩ := tiles_append.mp h
  obtain ⟨p', hl, ht⟩ := tiles_append.mp hq
  cases mid with
  | nil => exact absurd rfl hne
  | cons b l =>
    have hp : p = p' := hm.1.symm.trans ht.1
    subst hp
    exact ⟨hl, hm.stop_unique ht ▸ hr⟩

theorem Tiles.nodup {bs : List Block} {p q : ℕ} (h : Tiles p bs q) :
    (bs.map Block.addr).Nodup := by
  refine List.pairwise_map.mpr (h.pairwise.imp fun {a b} hab => ?_)
  have := a.size_ge
  unfold Block.stop at hab
  omega

/-- The blocks around `x` have other addresses than `x`. -/
theorem Tiles.addr_ne {pre post : List Block} {x c : Block} {p q : ℕ}
    (h : Tiles p (pre ++ x :: post) q) (hc : c ∈ pre ++ post) : c.addr ≠ x.addr := by
  have hnd : ((x :: (pre ++ post)).map Block.addr).Nodup :=
    (List.perm_middle.map Block.addr).nodup_iff.mp h.nodup
  intro he
  exact (List.nodup_cons.mp hnd).1 (he ▸ List.mem_map_of_mem hc)

/-- The sizes of a tiling add up to the length of the interval. -/
theorem Tiles.sum_size {bs : List Block} {p q : ℕ} (h : Tiles p bs q) :
    p + (bs.map Block.size).sum = q := by
  induction bs generalizing p with
  | nil => exact h
  | cons b bs ih =>
    have hb := ih h.2
    rw [h.1.symm, List.map_cons, List.sum_cons, ← hb, Block.stop]
    omega

/-! ### Coalesced tilings -/

/-- No two neighbours are both free. -/
def Coalesced (bs : List Block) : Prop := bs.IsChain fun a b => a.alloc = true ∨ b.alloc = true

/-- In a coalesced tiling each block starts where the one before stops, and one of them is
allocated. -/
theorem Tiles.coalesced_isChain {bs : List Block} {p q : ℕ} (h : Tiles p bs q)
    (hco : Coalesced bs) :
    bs.IsChain fun a b => a.stop = b.addr ∧ (a.alloc = true ∨ b.alloc = true) := by
  induction bs generalizing p with
  | nil => exact List.isChain_nil
  | cons a bs ih =>
    cases bs with
    | nil => exact List.isChain_singleton _
    | cons b l =>
      obtain ⟨h1, h2⟩ := List.isChain_cons_cons.mp hco
      exact List.isChain_cons_cons.mpr ⟨⟨h.2.1.symm, h1⟩, ih h.2 h2⟩

/-- Every free block is listed. -/
def Listed (bs : List Block) (fl : List ℕ) : Prop := ∀ b ∈ bs, b.alloc = false → b.addr ∈ fl

end SystemProgramming.MallocLab
