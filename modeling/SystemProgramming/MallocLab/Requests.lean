import SystemProgramming.MallocLab.Placement

/-!
# What each public function does to a well-formed heap

* `mmInit_eq` : `mm_init` on an empty heap gives a well-formed heap of one free block.
* `WellFormed.freed` : the freed block is no longer held; every other held block keeps its payload.
* `WellFormed.allocated` : `NULL` and nothing changed, or one more held block with room for the
  request.
* `WellFormed.reallocated` : `NULL` and nothing changed, or an allocation followed by `mm_free` of
  the old block.
* `WellFormed.write` : bytes written into the payload of a held block break nothing.
-/

namespace SystemProgramming.MallocLab

open ByteMemory LinkedList

/-- `INT_MAX`. -/
def intMax : ℕ := 2 ^ 31 - 1

/-- The largest size whose adjustment does not wrap. -/
def sizeMax : ℕ := 2 ^ 32 - 16

theorem le_sizeMax {n : ℕ} (h : n ≤ intMax) : n ≤ sizeMax := h.trans (by decide)

/-- How far `mm_malloc` moves the break when no block fits: `extendsize`. -/
def growth (n : ℕ) : ℕ := if adjust n > chunksize then adjust n else chunksize

/-- The number of bytes that `mm_realloc` copies. -/
def copySize (m : Mem) (ptr size : ℕ) : ℕ :=
  if size < getSize m (hdrp ptr) then size else getSize m (hdrp ptr)

theorem copySize_le (m : Mem) (ptr size : ℕ) : copySize m ptr size ≤ size := by
  rw [copySize]
  split <;> omega

/-! ### Held blocks across a merge and a placement -/

section Held

variable {A : Arena} {pre post left right : List Block} {b m : Block} {gone : List ℕ}

/-- Merging around a block that is not held keeps the held blocks. -/
theorem Merge.held_iff (hm : Merge pre b post left m right gone) (hb : b.alloc = false) (c : Block) :
    Held A (left ++ m :: right) c ↔ Held A (pre ++ b :: post) c := by
  refine ⟨fun hc => ⟨?_, hc.alloc, hc.ne⟩, hm.held hb⟩
  have hne := hc.ne_of_free (hm.alloc_eq hb)
  have hin : c ∈ left ++ right := by
    have := hc.mem
    simp only [List.mem_append, List.mem_cons] at this ⊢
    tauto
  have := (hm.mem_alloc_iff hc.alloc).mp hin
  simp only [List.mem_append, List.mem_cons] at this ⊢
  tauto

theorem Merge.size_le (hm : Merge pre b post left m right gone) : b.size ≤ m.size := by
  cases hm with
  | alone => exact le_rfl
  | next => simp only [Block.join_size]; omega
  | prev => simp only [Block.join_size]; omega
  | both => simp only [Block.join_size]; omega

/-- Freeing a block takes exactly that block away. -/
theorem held_withAlloc {s e : ℕ} (ht : Tiles s (pre ++ b :: post) e) (c : Block) :
    Held A (pre ++ b.withAlloc false :: post) c ↔ Held A (pre ++ b :: post) c ∧ c ≠ b := by
  constructor
  · intro hc
    have hin : c ∈ pre ++ post := by
      have h1 := hc.mem
      have h2 := hc.ne_of_free (b := b.withAlloc false) rfl
      simp only [List.mem_append, List.mem_cons] at h1 ⊢
      tauto
    have hne : c ≠ b := fun he => ht.addr_ne hin (congrArg Block.addr he)
    refine ⟨⟨?_, hc.alloc, hc.ne⟩, hne⟩
    simp only [List.mem_append, List.mem_cons] at hin ⊢
    tauto
  · rintro ⟨hc, hne⟩
    refine ⟨?_, hc.alloc, hc.ne⟩
    have := hc.mem
    simp only [List.mem_append, List.mem_cons] at this ⊢
    tauto

end Held

namespace WellFormed

variable {A : Arena} {h h' : Heap} {bs pre post : List Block} {b c : Block} {fl : List ℕ} {n : ℕ}

/-! ### Writing into a payload -/

/-- Bytes written into the payload of a held block leave the invariant alone. -/
theorem write (w : WellFormed A h bs fl) (hc : Held A bs c)
    (hmem : ∀ a, a < c.addr ∨ c.addr + c.size - 8 ≤ a → h'.mem a = h.mem a)
    (hbrk : h'.memBrk = h.memBrk) (hhead : h'.freelistHead = h.freelistHead)
    (hlistp : h'.heapListp = h.heapListp) : WellFormed A h' bs fl := by
  have hcb := w.rep.bounds hc.mem
  have hcs := c.size_ge
  refine ⟨?_, w.listed, w.coalesced, hlistp.trans w.listp⟩
  refine
    { brk_le := by rw [hbrk]; exact w.rep.brk_le
      tiles := by rw [hbrk]; exact w.rep.tiles
      prologue := w.rep.prologue
      tagged := fun d hd => ?_
      epilogue := ?_
      free := w.rep.free
      nodup := w.rep.nodup
      head := by rw [hhead]; exact w.rep.head
      links := links_frame w.rep.links fun x hx a h1 h2 => hmem a ?_ }
  · have hd' := w.rep.bounds hd
    have hds := d.size_ge
    refine (w.rep.tagged d hd).congr (by omega) (fun a h1 h2 => hmem a ?_)
      (fun a h1 h2 => hmem a ?_)
    all_goals
      by_cases he : c.addr = d.addr
      · rw [← w.rep.tiles.eq_of_addr hc.mem hd he] at h1 h2
        omega
      · have := w.rep.sep hc.mem hd he
        omega
  · rw [hbrk, ← w.rep.epilogue]
    exact readWord_congr fun a h1 h2 => hmem a (by omega)
  · by_contra hin
    have hout := w.rep.node_payload hc hx (a := a) (by omega) (by omega)
    omega

/-- Payloads of two held blocks are disjoint. -/
theorem payload_apart (w : WellFormed A h bs fl) (hb : Held A bs b) (hc : Held A bs c)
    (hne : b ≠ c) : b.addr + b.size ≤ c.addr ∨ c.addr + c.size ≤ b.addr :=
  w.rep.sep hb.mem hc.mem fun he => hne (w.rep.tiles.eq_of_addr hb.mem hc.mem he)

/-! ### `mm_free` -/

/-- A held block has a block before it. -/
theorem ne_nil_of_held (w : WellFormed A h (pre ++ b :: post) fl)
    (hb : Held A (pre ++ b :: post) b) : pre ≠ [] := by
  rintro rfl
  have h1 := w.rep.prologue
  rw [List.nil_append, List.head?_cons, Option.some.injEq] at h1
  exact hb.ne (congrArg Block.addr h1)

theorem notMem_of_held (w : WellFormed A h bs fl) (hb : Held A bs b) : b.addr ∉ fl := by
  intro hin
  obtain ⟨d, hd, he, hfree⟩ := w.rep.free _ hin
  rw [w.rep.tiles.eq_of_addr hd hb.mem he, hb.alloc] at hfree
  cases hfree

theorem listed_around (w : WellFormed A h (pre ++ b :: post) fl) : Listed (pre ++ post) fl := by
  intro d hd hfree
  refine w.listed d ?_ hfree
  simp only [List.mem_append, List.mem_cons] at hd ⊢
  tauto

/-- The block is marked free before it is merged. -/
theorem marked_free (w : WellFormed A h (pre ++ b :: post) fl) (hb : Held A (pre ++ b :: post) b) :
    Rep A (h.setTags (b.withAlloc false)) (pre ++ b.withAlloc false :: post) fl := by
  have hself : Tiles (b.withAlloc false).addr [b] (b.withAlloc false).stop := ⟨rfl, rfl⟩
  have hnot := w.notMem_of_held hb
  have r := w.rep
  rw [show pre ++ b :: post = pre ++ [b] ++ post by simp] at r
  have hr := r.setTags (m := b.withAlloc false) (w.ne_nil_of_held hb) (by simp) hself (by
    intro x hx d hd he
    rw [List.mem_singleton.mp hd] at he
    exact hnot (he ▸ hx))
  simpa using hr

theorem mmFree_eq (w : WellFormed A h bs fl) (hb : b ∈ bs) :
    mmFree b.addr h = (coalesce b.addr (h.setTags (b.withAlloc false))).2 := by
  have hbd := w.rep.bounds hb
  have hsize := w.rep.getSize_hdrp hb
  have htags := put_header_footer h (b := b.withAlloc false) (by
    simp only [Block.withAlloc_size]
    omega)
  simp only [Block.withAlloc_addr, Block.tag, Block.withAlloc_size, Block.withAlloc_alloc,
    Bool.toNat_false] at htags
  simp only [mmFree, hsize, htags]

/-- **`mm_free`.**  The block is merged with its free neighbours. -/
theorem freed_merge {left right : List Block} {m : Block} {gone : List ℕ}
    (w : WellFormed A h (pre ++ b :: post) fl) (hb : Held A (pre ++ b :: post) b)
    (hm : Merge pre (b.withAlloc false) post left m right gone) :
    WellFormed A (mmFree b.addr h) (left ++ m :: right) (m.addr :: fl.diff gone) ∧
      (mmFree b.addr h).memBrk = h.memBrk ∧
      ∀ c, Held A (pre ++ b :: post) c → c ≠ b → SamePayload h (mmFree b.addr h) c := by
  have e : pre ++ b :: post = pre ++ [b] ++ post := by simp
  have hself : Tiles (b.withAlloc false).addr [b] (b.withAlloc false).stop := ⟨rfl, rfl⟩
  have rb := w.marked_free hb
  have hlisted := w.listed_around
  have hnot := w.notMem_of_held hb
  obtain ⟨h₁, heq, hstep⟩ := Becomes.coalesced rb hm rfl hnot hlisted
  have hfree : mmFree b.addr h = h₁ := by
    have heq' : coalesce b.addr (h.setTags (b.withAlloc false)) = (m.addr, h₁) := heq
    rw [w.mmFree_eq hb.mem, heq']
  have hco := List.isChain_append.mp w.coalesced
  have hpost : Coalesced post := by
    cases post with
    | nil => exact List.isChain_nil
    | cons d l => exact (List.isChain_cons_cons.mp hco.2.1).2
  refine ⟨?_, ?_, fun c hc hne => ?_⟩
  · rw [hfree]
    exact of_merge hm rb hstep hlisted hco.1 hpost w.listp
  · rw [hfree]
    exact hstep.brk
  · have hin : c ∈ pre ++ post := by
      have := hc.mem
      simp only [List.mem_append, List.mem_cons] at this ⊢
      tauto
    have r := w.rep
    rw [e] at r
    rw [hfree]
    exact (r.setTags_samePayload (by simp) hself hin).trans
      (hstep.same c ((held_withAlloc w.rep.tiles c).mpr ⟨hc, hne⟩))

/-- `mm_free` seen from the client. -/
theorem freed (w : WellFormed A h bs fl) (hb : Held A bs b) :
    ∃ bs' fl', WellFormed A (mmFree b.addr h) bs' fl' ∧
      (∀ c, Held A bs' c ↔ Held A bs c ∧ c ≠ b) ∧
      (mmFree b.addr h).memBrk = h.memBrk ∧
      ∀ c, Held A bs c → c ≠ b → SamePayload h (mmFree b.addr h) c := by
  obtain ⟨pre, post, rfl⟩ := List.append_of_mem hb.mem
  obtain ⟨left, m, right, gone, hm⟩ :=
    exists_merge (w.ne_nil_of_held hb) (b.withAlloc false) post
  obtain ⟨hw, hbrk, hsame⟩ := w.freed_merge hb hm
  refine ⟨_, _, hw, fun c => ?_, hbrk, hsame⟩
  rw [hm.held_iff rfl, held_withAlloc w.rep.tiles]

/-! ### `mm_malloc` -/

/-- Allocating at a free block of a well-formed heap. -/
theorem placed {parts : List Block} {new : List ℕ} (w : WellFormed A h (pre ++ b :: post) fl)
    (hb : b.alloc = false) (hp : Placed b n parts new) :
    WellFormed A (place b.addr n h) (pre ++ parts ++ post) (new ++ fl.erase b.addr) ∧
      (place b.addr n h).memBrk = h.memBrk ∧
      ∀ c, Held A (pre ++ b :: post) c → SamePayload h (place b.addr n h) c := by
  have hx : b.addr ∈ fl := w.listed b (by simp) hb
  have hstep := Becomes.placed w.rep hb hx hp
  refine ⟨⟨hstep.rep, fun c hc hfree => ?_, ?_, hstep.listp.trans w.listp⟩, hstep.brk, hstep.same⟩
  · obtain ⟨a, rest, rfl, _, ha, _, hrest⟩ := hp.front
    rcases List.mem_append.mp hc with hc | hc
    · rcases List.mem_append.mp hc with hc | hc
      · refine List.mem_append_right _ ((List.mem_erase_of_ne ?_).mpr
          (w.listed c (List.mem_append_left _ hc) hfree))
        exact w.rep.tiles.addr_ne (List.mem_append_left _ hc)
      · rcases List.mem_cons.mp hc with rfl | hc
        · rw [ha] at hfree
          cases hfree
        · rw [(hrest c hc).2]
          exact List.mem_append_left _ List.mem_cons_self
    · refine List.mem_append_right _ ((List.mem_erase_of_ne ?_).mpr
        (w.listed c (by simp [hc]) hfree))
      exact w.rep.tiles.addr_ne (List.mem_append_right _ hc)
  · -- the neighbours of a free block are allocated, so a free rest touches none
    have hco := List.isChain_append.mp w.coalesced
    cases hp with
    | whole =>
      rw [List.append_assoc]
      refine List.isChain_append.mpr ⟨hco.1, ?_, fun _ _ d hd => ?_⟩
      · cases post with
        | nil => exact List.isChain_singleton _
        | cons d l =>
          have hrest := (List.isChain_cons_cons.mp hco.2.1).2
          exact List.isChain_cons_cons.mpr ⟨Or.inl rfl, hrest⟩
      · obtain rfl : b.withAlloc true = d := by simpa using hd
        exact Or.inr rfl
    | split =>
      rw [List.append_assoc]
      refine List.isChain_append.mpr ⟨hco.1, ?_, fun _ _ d hd => ?_⟩
      · refine List.isChain_cons_cons.mpr ⟨Or.inl rfl, ?_⟩
        cases post with
        | nil => exact List.isChain_singleton _
        | cons d l =>
          have h1 := List.isChain_cons_cons.mp hco.2.1
          exact List.isChain_cons_cons.mpr ⟨Or.inr (h1.1.resolve_left (by simp [hb])), h1.2⟩
      · obtain rfl : b.cut n _ _ = d := by simpa using hd
        exact Or.inr rfl

/-- The allocated part is the one new held block. -/
theorem placed_held {parts : List Block} {new : List ℕ} (w : WellFormed A h (pre ++ b :: post) fl)
    (hb : b.alloc = false) (hp : Placed b n parts new) :
    ∃ a, a.addr = b.addr ∧ n ≤ a.size ∧
      (∀ c, Held A (pre ++ parts ++ post) c ↔ c = a ∨ Held A (pre ++ b :: post) c) ∧
      ¬ Held A (pre ++ b :: post) a := by
  obtain ⟨a, rest, rfl, haddr, ha, hsize, hrest⟩ := hp.front
  have hbm : b ∈ pre ++ b :: post := by simp
  have hpro : b.addr ≠ A.prologue.addr := by
    intro he
    rw [w.rep.tiles.eq_of_addr hbm w.rep.prologue_mem he] at hb
    cases hb
  refine ⟨a, haddr, hsize, fun c => ⟨fun hc => ?_, ?_⟩, fun hc => ?_⟩
  · have hnr : c ∉ rest := fun hin => by
      have := (hrest c hin).1
      rw [hc.alloc] at this
      cases this
    have := hc.mem
    simp only [List.mem_append, List.mem_cons, hnr, or_false] at this
    rcases this with (hin | rfl) | hin
    · exact Or.inr ⟨by simp [hin], hc.alloc, hc.ne⟩
    · exact Or.inl rfl
    · exact Or.inr ⟨by simp [hin], hc.alloc, hc.ne⟩
  · rintro (rfl | hc)
    · exact ⟨by simp, ha, haddr ▸ hpro⟩
    · have hne := hc.ne_of_free hb
      refine ⟨?_, hc.alloc, hc.ne⟩
      have := hc.mem
      simp only [List.mem_append, List.mem_cons] at this ⊢
      tauto
  · exact hc.ne_of_free hb (w.rep.tiles.eq_of_addr hc.mem hbm haddr)

/-- What a successful allocation of `n` bytes at `p` does. -/
structure Allocates (A : Arena) (h h' : Heap) (bs bs' : List Block) (n p : ℕ) (a : Block) :
    Prop where
  addr : a.addr = p
  pos : 0 < n
  room : n + 8 ≤ a.size
  held : ∀ c, Held A bs' c ↔ c = a ∨ Held A bs c
  fresh : ¬ Held A bs a
  brk : h.memBrk ≤ h'.memBrk
  same : ∀ c, Held A bs c → SamePayload h h' c

/-- A block that is allocated while `b` is held is not `b`. -/
theorem Allocates.ne_of_held {bs' : List Block} {n p : ℕ} {a : Block}
    (ha : Allocates A h h' bs bs' n p a) (hb : Held A bs b) : b ≠ a := by
  intro he
  rw [he] at hb
  exact ha.fresh hb

/-- Nor is it where `b` is. -/
theorem Allocates.ne_addr {bs' : List Block} {fl' : List ℕ} {p : ℕ} {a : Block}
    (ha : Allocates A h h' bs bs' n p a) (w' : WellFormed A h' bs' fl') (hb : Held A bs b) :
    p ≠ b.addr := by
  intro he
  have hab := w'.rep.tiles.eq_of_addr ((ha.held a).mpr (Or.inl rfl)).mem
    ((ha.held b).mpr (Or.inr hb)).mem (ha.addr.trans he)
  exact ha.ne_of_held hb hab.symm

/-- The size `mm_malloc` asks `find_fit` for: a multiple of 8 with room for the tags. -/
theorem adjust_spec {n : ℕ} (h0 : n ≠ 0) (hn : n ≤ sizeMax) :
    adjust n % 8 = 0 ∧ 16 ≤ adjust n ∧ n + 8 ≤ adjust n ∧ adjust n < 2 ^ 32 := by
  have h1 : sizeMax = 2 ^ 32 - 16 := rfl
  rw [adjust_eq (by omega)]
  omega

/-- Whatever the size, an adjusted size is a multiple of 8. -/
theorem adjust_mod (n : ℕ) : adjust n % 8 = 0 ∧ adjust n < 2 ^ 32 := by
  rw [adjust, align, and_notSeven (Nat.mod_lt _ (by decide))]
  omega

theorem growth_spec (n : ℕ) :
    adjust n ≤ growth n ∧ growth n % 8 = 0 ∧ 16 ≤ growth n ∧ growth n < 2 ^ 32 := by
  obtain ⟨hmod, hlt⟩ := adjust_mod n
  have hc : chunksize = 4096 := by decide
  rw [growth]
  split <;> omega

/-- **What `mm_malloc` does**: it places the request in the first block that fits, or in the block
that moving the break gives, or the break cannot move. -/
theorem mmMalloc_cases {fuel p : ℕ} (w : WellFormed A h bs fl) (h0 : n ≠ 0)
    (hret : mmMalloc A fuel n h = some (p, h')) :
    (∃ b ∈ bs, b.addr = firstFit h.mem (adjust n) fl ∧ b.alloc = false ∧ adjust n ≤ b.size ∧
      p = b.addr ∧ h' = place b.addr (adjust n) h) ∨
    firstFit h.mem (adjust n) fl = 0 ∧
      (h.memBrk + growth n ≤ A.memMaxAddr ∧ p = (extendHeap A (growth n / wsize) h).1 ∧
          h' = place p (adjust n) (extendHeap A (growth n / wsize) h).2 ∨
        A.memMaxAddr < h.memBrk + growth n ∧ p = 0 ∧ h' = h) := by
  obtain ⟨_, hsmod, hsge, hslt⟩ := growth_spec n
  rw [mmMalloc, if_neg h0] at hret
  cases hfit : findFit fuel (adjust n) h with
  | none =>
    rw [hfit] at hret
    cases hret
  | some x =>
    rw [hfit] at hret
    rcases w.rep.findFit_cases hfit with ⟨b, hb, rfl, hne, he, hfree, -, hsize⟩ | ⟨hxz, hzero⟩
    · simp only [ne_eq, hne, not_false_eq_true, if_true, Option.some.injEq, Prod.mk.injEq] at hret
      exact Or.inl ⟨b, hb, he, hfree, hsize, hret.1.symm, hret.2.symm⟩
    · have hext : (if adjust n > chunksize then adjust n else chunksize) = growth n := rfl
      simp only [hxz, ne_eq, not_true_eq_false, if_false, hext] at hret
      refine Or.inr ⟨hzero, ?_⟩
      by_cases hbrk : h.memBrk + growth n ≤ A.memMaxAddr
      · obtain ⟨left, m, gone, h₁, -, heq, hw, -⟩ := w.exists_extended hsmod hsge hbrk
        have hmb := hw.rep.bounds (b := m) (by simp)
        simp only [heq, show m.addr ≠ 0 by omega, if_false, Option.some.injEq,
          Prod.mk.injEq] at hret
        refine Or.inl ⟨hbrk, ?_, ?_⟩
        · rw [heq]
          exact hret.1.symm
        · rw [heq, ← hret.1]
          exact hret.2.symm
      · rw [extendHeap_none hsmod hslt (by omega)] at hret
        simp only [if_true, Option.some.injEq, Prod.mk.injEq] at hret
        exact Or.inr ⟨by omega, hret.1.symm, hret.2.symm⟩

/-- **`mm_malloc`.** -/
theorem allocated {fuel p : ℕ} (w : WellFormed A h bs fl) (hn : n ≤ sizeMax)
    (hret : mmMalloc A fuel n h = some (p, h')) :
    (p = 0 ∧ h' = h) ∨
      ∃ a bs' fl', WellFormed A h' bs' fl' ∧ Allocates A h h' bs bs' n p a := by
  by_cases h0 : n = 0
  · left
    rw [mmMalloc, if_pos h0] at hret
    cases hret
    exact ⟨rfl, rfl⟩
  obtain ⟨hmod, hge, hroom, _⟩ := adjust_spec h0 hn
  obtain ⟨hle, hsmod, hsge, _⟩ := growth_spec n
  rcases w.mmMalloc_cases h0 hret with ⟨b, hb, _, hfree, hsize, rfl, rfl⟩ |
    ⟨_, ⟨hbrk, hp, rfl⟩ | ⟨_, hp, hh⟩⟩
  · -- a listed block fits
    right
    obtain ⟨pre, post, rfl⟩ := List.append_of_mem hb
    obtain ⟨parts, new, hp⟩ := exists_placed hmod hge hsize
    obtain ⟨hw, hbrk, hsame⟩ := w.placed hfree hp
    obtain ⟨a, haddr, hasize, hheld, hfresh⟩ := w.placed_held hfree hp
    exact ⟨a, _, _, hw, ⟨haddr, by omega, by omega, hheld, hfresh, hbrk.ge, hsame⟩⟩
  · -- the heap grows
    right
    obtain ⟨left, m, gone, h₁, hm, heq, hw, hbrk₁, hsame₁⟩ := w.exists_extended hsmod hsge hbrk
    have hmfree := hm.alloc_eq rfl
    have hmsize : growth n ≤ m.size := hm.size_le
    rw [heq] at hp ⊢
    dsimp only at hp ⊢
    subst hp
    obtain ⟨parts, new, hp⟩ := exists_placed hmod hge (by omega : adjust n ≤ m.size)
    obtain ⟨hw', hbrk', hsame'⟩ := hw.placed hmfree hp
    obtain ⟨a, haddr, hasize, hheld, hfresh⟩ := hw.placed_held hmfree hp
    have hold : ∀ c, Held A (left ++ [m]) c ↔ Held A bs c := by
      intro c
      rw [hm.held_iff rfl]
      refine ⟨fun hc => ⟨?_, hc.alloc, hc.ne⟩,
        fun hc => ⟨List.mem_append_left _ hc.mem, hc.alloc, hc.ne⟩⟩
      have hne := hc.ne_of_free (b := h.newBlock (growth n) hsmod hsge) rfl
      have := hc.mem
      simpa [hne] using this
    refine ⟨a, _, _, hw', ⟨haddr, by omega, by omega, fun c => ?_, fun hc => ?_, by omega,
      fun c hc => ?_⟩⟩
    · rw [hheld, hold]
    · exact hfresh ((hold a).mpr hc)
    · exact (hsame₁ c hc).trans (hsame' c ((hold c).mpr hc))
  · exact Or.inl ⟨hp, hh⟩

/-- `mm_malloc` returns. -/
theorem mmMalloc_terminates (w : WellFormed A h bs fl) (n : ℕ) {fuel : ℕ}
    (hfuel : fl.length < fuel) : (mmMalloc A fuel n h).isSome := by
  rw [mmMalloc, w.rep.findFit_eq _ hfuel]
  split
  · rfl
  · dsimp only
    split
    · rfl
    · generalize extendHeap A _ h = r
      split <;> rfl

/-! ### `mm_realloc` -/

/-- **What `mm_realloc` does** with a block and a nonzero size: an allocation, and if that succeeds a
copy of at most as many bytes as asked for, and `mm_free`. -/
theorem mmRealloc_cases {fuel p q : ℕ} (hq : q ≠ 0) (h0 : n ≠ 0)
    (hret : mmRealloc A fuel q n h = some (p, h')) :
    (p = 0 ∧ mmMalloc A fuel n h = some (0, h')) ∨
      (p ≠ 0 ∧ ∃ h₁, mmMalloc A fuel n h = some (p, h₁) ∧
        h' = mmFree q { h₁ with mem := copyBytes h₁.mem p q (copySize h₁.mem q n) }) := by
  rw [mmRealloc, if_neg hq, if_neg h0] at hret
  cases hm : mmMalloc A fuel n h with
  | none =>
    rw [hm] at hret
    cases hret
  | some r =>
    obtain ⟨x, h₁⟩ := r
    rw [hm] at hret
    by_cases hx : x = 0
    · simp only [hx, if_true, Option.some.injEq, Prod.mk.injEq] at hret
      obtain ⟨rfl, rfl⟩ := hret
      exact Or.inl ⟨rfl, by rw [hx]⟩
    · simp only [hx, if_false, Option.some.injEq, Prod.mk.injEq] at hret
      obtain ⟨rfl, rfl⟩ := hret
      exact Or.inr ⟨hx, h₁, rfl, rfl⟩

/-- Filling a new block with a copy of at most as many bytes as were asked for. -/
theorem copied {a : Block} {q k : ℕ} (w : WellFormed A h bs fl) (ha : Held A bs a)
    (hroom : n + 8 ≤ a.size) (hk : k ≤ n) :
    WellFormed A { h with mem := copyBytes h.mem a.addr q k } bs fl := by
  refine w.write ha (fun x hx => ?_) rfl rfl rfl
  exact copyBytes_outside _ _ _ (by omega)

/-- The copy leaves the payloads of the other blocks alone. -/
theorem copied_samePayload {a d : Block} {q k : ℕ} (w : WellFormed A h bs fl) (ha : Held A bs a)
    (hd : Held A bs d) (hne : d ≠ a) (hroom : n + 8 ≤ a.size) (hk : k ≤ n) :
    SamePayload h { h with mem := copyBytes h.mem a.addr q k } d := by
  intro x hlo hhi
  have hapart := w.payload_apart hd ha hne
  exact copyBytes_outside _ _ _ (by omega)

/-- **`mm_realloc` of a live block to a nonzero size.**  Either nothing changed, or a new block was
allocated and filled, and then the old one freed. -/
theorem reallocated {fuel p : ℕ} (w : WellFormed A h bs fl) (hb : Held A bs b) (h0 : n ≠ 0)
    (hn : n ≤ intMax) (hret : mmRealloc A fuel b.addr n h = some (p, h')) :
    (p = 0 ∧ h' = h) ∨
      ∃ a h₂ bs₂ fl₂, WellFormed A h₂ bs₂ fl₂ ∧ Allocates A h h₂ bs bs₂ n p a ∧
        h' = mmFree b.addr h₂ := by
  have hb0 : b.addr ≠ 0 := by have := w.rep.bounds hb.mem; omega
  rcases mmRealloc_cases hb0 h0 hret with ⟨rfl, hm⟩ | ⟨hp, h₁, hm, rfl⟩
  · rcases w.allocated (le_sizeMax hn) hm with ⟨-, rfl⟩ | ⟨a, bs₁, fl₁, w₁, ha⟩
    · exact Or.inl ⟨rfl, rfl⟩
    · have := w₁.rep.bounds ((ha.held a).mpr (Or.inl rfl)).mem
      have := ha.addr
      omega
  · rcases w.allocated (le_sizeMax hn) hm with ⟨h, -⟩ | ⟨a, bs₁, fl₁, w₁, ha⟩
    · exact absurd h hp
    · right
      have ha₁ : Held A bs₁ a := (ha.held a).mpr (Or.inl rfl)
      obtain rfl : a.addr = p := ha.addr
      have hk := copySize_le h₁.mem b.addr n
      refine ⟨a, _, bs₁, fl₁, w₁.copied ha₁ ha.room hk,
        ⟨rfl, ha.pos, ha.room, ha.held, ha.fresh, ha.brk, fun c hc => ?_⟩, rfl⟩
      have hca : c ≠ a := ha.ne_of_held hc
      have hc₁ : Held A bs₁ c := (ha.held c).mpr (Or.inr hc)
      exact (ha.same c hc).trans (w₁.copied_samePayload ha₁ hc₁ hca ha.room hk)

/-- `mm_realloc` returns. -/
theorem mmRealloc_terminates (w : WellFormed A h bs fl) (ptr n : ℕ) {fuel : ℕ}
    (hfuel : fl.length < fuel) : (mmRealloc A fuel ptr n h).isSome := by
  have hm := w.mmMalloc_terminates n hfuel
  rw [mmRealloc]
  split
  · exact hm
  · split
    · rfl
    · cases hr : mmMalloc A fuel n h with
      | none => rw [hr] at hm; cases hm
      | some r =>
        dsimp only
        split <;> rfl

end WellFormed

/-! ### `mm_init` -/

/-- The heap `mm_init` builds on a reset break before it extends it. -/
def Heap.initial (A : Arena) (h : Heap) : Heap :=
  initBlocks A.memStartBrk { h with memBrk := A.memStartBrk + 24 }

theorem initial_words (A : Arena) (h : Heap) :
    readWord (h.initial A).mem (A.memStartBrk + 4) = 17 ∧
      readWord (h.initial A).mem (A.memStartBrk + 8) = 0 ∧
      readWord (h.initial A).mem (A.memStartBrk + 12) = 0 ∧
      readWord (h.initial A).mem (A.memStartBrk + 16) = 17 ∧
      readWord (h.initial A).mem (A.memStartBrk + 20) = 1 := by
  have h17 : pack (2 * 8) 1 = 17 := by decide
  have h1 : pack 0 1 = 1 := by decide
  simp only [Heap.initial, initBlocks, mathematical_add, Heap.put, wsize, dsize, h17, h1]
  refine ⟨?_, ?_, ?_, ?_, ?_⟩
  all_goals
    repeat rw [readWord_writeWord_of_disjoint _ _ (by omega)]
    exact readWord_writeWord_of_lt _ _ (by decide)

theorem rep_initial (A : Arena) (h : Heap) : Rep A (h.initial A) [A.prologue] [] := by
  obtain ⟨w4, w8, w12, w16, w20⟩ := initial_words A h
  have hbrk : (h.initial A).memBrk = A.memStartBrk + 24 := rfl
  have htag : A.prologue.tag = 17 := by
    show pack 16 1 = 17
    decide
  refine
    { brk_le := ?_
      tiles := ⟨rfl, rfl⟩
      prologue := rfl
      tagged := fun b hb => ?_
      epilogue := w20
      free := by simp
      nodup := List.nodup_nil
      head := rfl
      links := ⟨?_, ?_, trivial⟩ }
  · have hbounds := A.bounds
    rw [hbrk]
    omega
  · rw [List.mem_singleton.mp hb]
    exact ⟨w4.trans htag.symm, w16.trans htag.symm⟩
  · rw [prevFree, ptr_eq_none]
    exact w12
  · show ptr (readWord (h.initial A).mem (A.memStartBrk + 8)) = none
    rw [w8, ptr_zero]

theorem chunksize_mod : chunksize % 8 = 0 := by decide

theorem chunksize_ge : 16 ≤ chunksize := by decide

/-- The free block `mm_init` puts behind the prologue. -/
def Arena.firstBlock (A : Arena) : Block :=
  ⟨A.memStartBrk + 24, chunksize, false, chunksize_mod, chunksize_ge⟩

/-- The first move of a reset break. -/
theorem memSbrk_reset (A : Arena) {h : Heap} (hreset : h.memBrk = A.memStartBrk) :
    memSbrk A (6 * wsize : ℕ) h =
      some (A.memStartBrk, { h with memBrk := A.memStartBrk + 24 }) := by
  have hbounds := A.bounds
  have h24 : 6 * wsize = 24 := rfl
  rw [memSbrk_def, h24, if_neg, hreset]
  · rfl
  · rw [hreset]
    omega

/-- The heap before `mm_init` extends it is the prologue. -/
theorem wellFormed_initial (A : Arena) (h : Heap) : WellFormed A (h.initial A) [A.prologue] [] :=
  ⟨rep_initial A h, by simp [Listed, Arena.prologue], List.isChain_singleton _, rfl⟩

/-- **`mm_init` on a reset break** succeeds, whatever the arena and the statics held before: the heap
is the prologue and one free block. -/
theorem mmInit_eq (A : Arena) (h : Heap) (hreset : h.memBrk = A.memStartBrk) :
    ∃ h', mmInit A h = (0, h') ∧ h'.memBrk = A.memStartBrk + 24 + chunksize ∧
      WellFormed A h' [A.prologue, A.firstBlock] [A.firstBlock.addr] := by
  have hbounds := A.bounds
  have hc : chunksize = 4096 := by decide
  have hbrk : (h.initial A).memBrk = A.memStartBrk + 24 := rfl
  have hm : Merge ([] ++ [A.prologue]) A.firstBlock [] ([] ++ [A.prologue]) A.firstBlock [] [] :=
    .alone rfl (by simp)
  obtain ⟨h', heq, hw, hbrk', _⟩ :=
    (wellFormed_initial A h).extended (n := chunksize) (by decide) (by decide) (by omega) hm
  refine ⟨h', ?_, hbrk', hw⟩
  have hne : A.firstBlock.addr ≠ 0 := by
    show A.memStartBrk + 24 ≠ 0
    omega
  rw [Heap.initial] at heq
  simp only [mmInit, memSbrk_reset A hreset, heq, hne, if_false]

/-- No block is held after `mm_init`. -/
theorem not_held_init {A : Arena} {c : Block} : ¬ Held A [A.prologue, A.firstBlock] c := by
  intro hc
  rcases List.mem_pair.mp hc.mem with rfl | rfl
  · exact hc.ne rfl
  · cases hc.alloc

end SystemProgramming.MallocLab
