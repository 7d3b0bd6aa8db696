import SystemProgramming.MallocLab.BlockLists

/-!
# Where the bytes of the heap are

Every byte between the end of the prologue and the break is in the block of a live pointer or in a
free block.  A live block is the adjusted size of its request or, where the rest of a split would have
been smaller than a block, 8 bytes more.  Free blocks are never neighbours, so there is at most one
more of them than there are live blocks.

* `countP_not_le` : in a list without two neighbours that fail a test, few entries fail it.
* `mmMalloc_size` : the size of the block `mm_malloc` returns.
* `Fitted`, `Owned.fitted`, `reachable_fitted` : one call and a whole run keep the sizes.
* `Owned.live_perm`, `Owned.free_perm` : the blocks are the live ones and the listed ones.
* `heap_accounting` : the balance in every reachable state.
-/

namespace SystemProgramming.MallocLab

open ByteMemory Holdings Transition

/-- If the first entry passes a test and no two neighbours fail it, at most as many fail as pass. -/
theorem countP_not_le {α : Type*} {p : α → Bool} {a : α} {l : List α}
    (h : List.IsChain (fun x y => p x = true ∨ p y = true) (a :: l)) :
    l.countP (fun x => !p x) ≤ (a :: l).countP p := by
  induction l generalizing a with
  | nil => exact Nat.zero_le _
  | cons b l ih =>
    obtain ⟨hab, htail⟩ := List.isChain_cons_cons.mp h
    have hl := ih htail
    rw [List.countP_cons] at hl
    rw [List.countP_cons, List.countP_cons, List.countP_cons]
    cases hb : p b with
    | true =>
      rw [hb] at hl
      simp only [if_true, Bool.not_true, Bool.false_eq_true, if_false] at hl ⊢
      omega
    | false =>
      -- then `a` passes
      have ha : p a = true := hab.resolve_right (by simp [hb])
      rw [hb] at hl
      simp only [ha, if_true, Bool.not_false, Bool.false_eq_true, if_false] at hl ⊢
      omega

/-! ### The sizes of the live blocks -/

section Sizes

variable {A : Arena} {h h' : Heap} {bs bs' : List Block} {fl fl' : List ℕ} {n p fuel : ℕ}

/-- A block of `size` bytes for a request of `n` bytes. -/
def SizeFor (size n : ℕ) : Prop := size = adjust n ∨ size = adjust n + 8

/-- Placing a request gives its block the size for it. -/
theorem Allotted.sizeFor {b a : Block} {pre post parts : List Block} {new : List ℕ}
    (w : WellFormed A h (pre ++ parts ++ post) fl) (hp : Allotted b (adjust n) parts new)
    (ha : a ∈ pre ++ parts ++ post) (haddr : a.addr = b.addr) : SizeFor a.size n := by
  obtain ⟨d, rest, rfl, hd, -, hsize, -⟩ := hp
  have hmem : d ∈ pre ++ d :: rest ++ post := by simp
  have hsame : a = d := w.rep.tiles.eq_of_addr ha hmem (haddr.trans hd.symm)
  rw [hsame]
  exact hsize

/-- **The block `mm_malloc` returns** has the size for the request, whatever its heap is read as. -/
theorem mmMalloc_size {a : Block} (w : WellFormed A h bs fl) (h0 : n ≠ 0) (hn : n ≤ sizeMax)
    (hret : mmMalloc A fuel n h = some (p, h')) (w' : WellFormed A h' bs' fl') (ha : a ∈ bs')
    (haddr : a.addr = p) : SizeFor a.size n := by
  obtain ⟨hmod, hge, -, -⟩ := WellFormed.adjust_spec h0 hn
  obtain ⟨hle, hsmod, hsge, -⟩ := WellFormed.growth_spec n
  -- the size is what the header says
  suffices ∃ d bs₁ fl₁, WellFormed A h' bs₁ fl₁ ∧ d ∈ bs₁ ∧ d.addr = p ∧ SizeFor d.size n by
    obtain ⟨d, bs₁, fl₁, w₁, hd, hdaddr, hsize⟩ := this
    have hread := w₁.rep.getSize_hdrp hd
    rw [hdaddr, ← haddr, w'.rep.getSize_hdrp ha] at hread
    rw [hread]
    exact hsize
  have hfirst : ∀ {b : Block} {pre post : List Block} {k : Heap} {l : List ℕ},
      WellFormed A k (pre ++ b :: post) l → b.alloc = false → adjust n ≤ b.size →
        ∃ d bs₁ fl₁, WellFormed A (place b.addr (adjust n) k) bs₁ fl₁ ∧ d ∈ bs₁ ∧
          d.addr = b.addr ∧ SizeFor d.size n := by
    intro b pre post k l wk hfree hsize
    obtain ⟨parts, new, hp⟩ := exists_placed hmod hge hsize
    obtain ⟨d, hdaddr, -, hheld, -⟩ := wk.placed_held hfree hp
    have hw := (wk.placed hfree hp).1
    have hd := ((hheld d).mpr (Or.inl rfl)).mem
    exact ⟨d, _, _, hw, hd, hdaddr, (hp.allotted hmod).sizeFor hw hd hdaddr⟩
  rcases w.mmMalloc_cases h0 hret with ⟨b, hb, -, hfree, hsize, rfl, rfl⟩ |
    ⟨-, ⟨hfit, hp, rfl⟩ | ⟨-, rfl, -⟩⟩
  · obtain ⟨pre, post, rfl⟩ := List.append_of_mem hb
    exact hfirst w hfree hsize
  · obtain ⟨left, m, h₁, heq, hgrown, hmfree, w₁, -⟩ := w.grownTo hsmod hsge hfit
    have hsize : adjust n ≤ m.size := by
      rcases hgrown with ⟨-, -, -, hm⟩ | ⟨t, -, -, -, hm⟩ <;> omega
    rw [heq] at hp ⊢
    obtain rfl : p = m.addr := hp
    exact hfirst w₁ hmfree hsize
  · have := w'.rep.bounds ha
    omega

/-- The blocks of the live pointers have the sizes for their requests. -/
def Fitted (c : Client) : Prop :=
  ∀ p n, (p, n) ∈ c.live → SizeFor (getSize c.heap.mem (hdrp p)) n

/-- A live block that is still held keeps the size its header shows. -/
theorem Owned.header_kept {c : Client} (o : Owned A c bs fl) (w' : WellFormed A h' bs' fl')
    (hheld : ∀ b, Held A bs b → b.addr = p → Held A bs' b) (hlive : (p, n) ∈ c.live) :
    getSize h'.mem (hdrp p) = getSize c.heap.mem (hdrp p) := by
  obtain ⟨b, hb, rfl, -⟩ := o.held_of_live hlive
  rw [w'.rep.getSize_hdrp (hheld b hb rfl).mem, o.heap.rep.getSize_hdrp hb.mem]

/-- Freeing a live block. -/
theorem Owned.fitted_free {c : Client} (o : Owned A c bs fl) (hfit : Fitted c)
    (hlive : (p, n) ∈ c.live) : Fitted ⟨mmFree p c.heap, release c.live p⟩ := by
  obtain ⟨b, hb, rfl, -⟩ := o.held_of_live hlive
  obtain ⟨bs', fl', w', hheld, -⟩ := o.heap.freed hb
  intro q k hq
  obtain ⟨hmem, hne⟩ := mem_release.mp hq
  rw [o.header_kept w' (fun d hd he => (hheld d).mpr ⟨hd, fun hdb => ?_⟩) hmem]
  · exact hfit q k hmem
  · rw [hdb] at he
    exact hne he.symm

/-- Allocating a block. -/
theorem Owned.fitted_malloc {c : Client} {a : Block} (o : Owned A c bs fl) (hfit : Fitted c)
    (hn : n ≤ intMax) (hret : mmMalloc A fuel n c.heap = some (p, h'))
    (w' : WellFormed A h' bs' fl') (ha : WellFormed.Allocates A c.heap h' bs bs' n p a) :
    Fitted ⟨h', (p, n) :: c.live⟩ := by
  have hin : Held A bs' a := (ha.held a).mpr (Or.inl rfl)
  intro q k hq
  rcases List.mem_cons.mp hq with he | hq
  · cases he
    have h0 : n ≠ 0 := Nat.pos_iff_ne_zero.mp ha.pos
    have hsize := mmMalloc_size o.heap h0 (le_sizeMax hn) hret w' hin.mem ha.addr
    rw [← w'.rep.getSize_hdrp hin.mem, ha.addr] at hsize
    exact hsize
  · show SizeFor (getSize h'.mem (hdrp q)) k
    rw [o.header_kept w' (fun d hd _ => (ha.held d).mpr (Or.inr hd)) hq]
    exact hfit q k hq

/-- **A call** keeps the sizes. -/
theorem Owned.fitted {c : Client} {r : Request} (o : Owned A c bs fl) (hfit : Fitted c)
    (hlegal : r.Legal c.live) (hserve : serve A fuel r c.heap = some (p, h')) :
    Fitted ⟨h', r.settle c.live p⟩ := by
  have hmalloc : ∀ n, n ≤ intMax → mmMalloc A fuel n c.heap = some (p, h') →
      Fitted ⟨h', (Request.malloc n).settle c.live p⟩ := by
    intro n hn hret
    rcases o.heap.allocated (le_sizeMax hn) hret with ⟨rfl, rfl⟩ | ⟨a, bs', fl', w', ha⟩
    · exact hfit
    · have hp : p ≠ 0 := by
        have := w'.rep.bounds ((ha.held a).mpr (Or.inl rfl)).mem
        have := ha.addr
        omega
      rw [Request.settle, if_neg hp]
      exact o.fitted_malloc hfit hn hret w' ha
  cases r with
  | malloc n => exact hmalloc n hlegal hserve
  | free ptr =>
    obtain ⟨n, hlive⟩ := hlegal
    simp only [serve, Option.some.injEq, Prod.mk.injEq] at hserve
    obtain ⟨rfl, rfl⟩ := hserve
    exact o.fitted_free hfit hlive
  | realloc ptr n =>
    obtain ⟨hn, hptr⟩ := hlegal
    simp only [serve] at hserve
    by_cases h0 : ptr = 0
    · -- `NULL`: an allocation
      subst h0
      rw [mmRealloc, if_pos rfl] at hserve
      have hrel : release c.live 0 = c.live := by
        apply release_of_notMem
        intro hin
        obtain ⟨e, he, h0⟩ := List.mem_map.mp hin
        exact o.ne_zero (n := e.2) he h0
      have hm := hmalloc n hn hserve
      simpa [Request.settle, hrel] using hm
    · obtain ⟨k, hlive⟩ := hptr.resolve_left h0
      by_cases hn0 : n = 0
      · -- size 0: a free
        subst hn0
        rw [mmRealloc, if_neg h0, if_pos rfl, Option.some.injEq, Prod.mk.injEq] at hserve
        obtain ⟨rfl, rfl⟩ := hserve
        exact o.fitted_free hfit hlive
      · rcases WellFormed.mmRealloc_cases h0 hn0 hserve with ⟨rfl, hm⟩ | ⟨hp, h₁, hm, rfl⟩
        · have := hmalloc n hn hm
          simpa [Request.settle, hn0] using this
        · -- an allocation, a copy into its payload, then a free of the old block
          rcases o.heap.allocated (le_sizeMax hn) hm with ⟨rfl, -⟩ | ⟨a, bs₁, fl₁, w₁, ha⟩
          · exact absurd rfl hp
          have hfit₁ := o.fitted_malloc hfit hn hm w₁ ha
          have o₁ := o.acquired w₁ ha.pos ha.room ha.held ha.fresh
          obtain rfl : a.addr = p := ha.addr
          have hin : Held A bs₁ a := (ha.held a).mpr (Or.inl rfl)
          have w₂ := w₁.copied (q := ptr) hin ha.room (copySize_le h₁.mem ptr n)
          have o₂ := o₁.of_held w₂ fun _ => Iff.rfl
          have hfit₂ : Fitted ⟨{ h₁ with mem := copyBytes h₁.mem a.addr ptr (copySize h₁.mem ptr n) },
              (a.addr, n) :: c.live⟩ := by
            intro q j hq
            have hkept := o₁.header_kept w₂ (fun d hd _ => hd) hq
            have hsize := hfit₁ q j hq
            rw [← hkept] at hsize
            exact hsize
          have hne : a.addr ≠ ptr := by
            obtain ⟨b, hb, rfl, -⟩ := o.held_of_live hlive
            exact ha.ne_addr w₁ hb
          have hset : (Request.realloc ptr n).settle c.live a.addr =
              release ((a.addr, n) :: c.live) ptr := by
            rw [Request.settle, if_pos hp]
            exact (List.filter_cons_of_pos (by simpa using hne)).symm
          rw [hset]
          exact o₂.fitted_free hfit₂ (List.mem_cons_of_mem _ hlive)

end Sizes

/-- **The run lemma.** -/
theorem reachable_fitted {A : Arena} {c : Client} (hc : (allocatorRuns A).Reachable c) :
    (∃ bs fl, Owned A c bs fl) ∧ Fitted c := by
  refine hc.invariant (P := fun c => (∃ bs fl, Owned A c bs fl) ∧ Fitted c) ?_ ?_
  · intro c hinit
    refine ⟨reachable_owned (.init hinit), fun p n hin => ?_⟩
    rw [hinit.1] at hin
    cases hin
  · rintro c act c' ⟨⟨bs, fl, o⟩, hfit⟩ hstep
    obtain ⟨bs', fl', o'⟩ := owned_step o hstep
    refine ⟨⟨bs', fl', o'⟩, ?_⟩
    cases hstep with
    | call hlegal hserve => exact o.fitted hfit hlegal hserve
    | @write p n a v hlive hlo hhi =>
      obtain ⟨b, hb, rfl, hroom⟩ := o.held_of_live hlive
      -- a payload holds no header
      have w' : WellFormed A { c.heap with mem := writeByte c.heap.mem a v } bs fl :=
        o.heap.write hb (fun x hx => writeByte_outside _ _ (by omega)) rfl rfl rfl
      intro q k hq
      show SizeFor (getSize _ (hdrp q)) k
      rw [o.header_kept w' (fun d hd _ => hd) hq]
      exact hfit q k hq

/-! ### The balance -/

namespace Owned

variable {A : Arena} {c : Client} {bs : List Block} {fl : List ℕ}

/-- The blocks after the prologue. -/
theorem exists_rest (o : Owned A c bs fl) : ∃ rest, bs = A.prologue :: rest ∧
    ∀ b ∈ rest, b.addr ≠ A.prologue.addr := by
  obtain ⟨rest, rfl⟩ := List.head?_eq_some_iff.mp o.heap.rep.prologue
  have htiles : Tiles _ ([] ++ A.prologue :: rest) c.heap.memBrk := o.heap.rep.tiles
  exact ⟨rest, rfl, fun b hb => htiles.addr_ne hb⟩

/-- The addresses of the blocks after the prologue are distinct. -/
theorem rest_nodup {rest : List Block} (o : Owned A c (A.prologue :: rest) fl) :
    (rest.map Block.addr).Nodup := by
  have hnd : ((A.prologue :: rest).map Block.addr).Nodup := Tiles.nodup o.heap.rep.tiles
  exact (List.nodup_cons.mp hnd).2

/-- The live pointers are the addresses of the allocated blocks after the prologue. -/
theorem live_perm {rest : List Block} (o : Owned A c (A.prologue :: rest) fl)
    (hne : ∀ b ∈ rest, b.addr ≠ A.prologue.addr) :
    (c.live.map Prod.fst).Perm ((rest.filter Block.alloc).map Block.addr) := by
  have hnd : ((rest.filter Block.alloc).map Block.addr).Nodup :=
    o.rest_nodup.sublist (List.filter_sublist.map _)
  refine (List.perm_ext_iff_of_nodup o.nodup hnd).mpr fun p => ⟨fun hp => ?_, fun hp => ?_⟩
  · obtain ⟨⟨q, n⟩, hlive, rfl⟩ := List.mem_map.mp hp
    obtain ⟨b, hb, he, -⟩ := o.held_of_live hlive
    have hin : b ∈ rest := (List.mem_cons.mp hb.mem).resolve_left fun h => hb.ne (h ▸ rfl)
    exact List.mem_map.mpr ⟨b, List.mem_filter.mpr ⟨hin, hb.alloc⟩, he⟩
  · obtain ⟨b, hb, rfl⟩ := List.mem_map.mp hp
    obtain ⟨hin, halloc⟩ := List.mem_filter.mp hb
    obtain ⟨n, hlive⟩ := o.live b ⟨List.mem_cons_of_mem _ hin, halloc, hne b hin⟩
    exact List.mem_map_of_mem (f := Prod.fst) hlive

/-- The free list has the addresses of the free blocks. -/
theorem free_perm {rest : List Block} (o : Owned A c (A.prologue :: rest) fl) :
    fl.Perm ((rest.filter fun b => !b.alloc).map Block.addr) := by
  have hnd : ((rest.filter fun b => !b.alloc).map Block.addr).Nodup :=
    o.rest_nodup.sublist (List.filter_sublist.map _)
  refine (List.perm_ext_iff_of_nodup o.heap.rep.nodup hnd).mpr fun p => ⟨fun hp => ?_, fun hp => ?_⟩
  · obtain ⟨b, hb, rfl, hfree⟩ := o.heap.rep.free p hp
    have hin : b ∈ rest := by
      refine (List.mem_cons.mp hb).resolve_left fun h => ?_
      rw [h] at hfree
      cases hfree
    exact List.mem_map_of_mem (List.mem_filter.mpr ⟨hin, by simp [hfree]⟩)
  · obtain ⟨b, hb, rfl⟩ := List.mem_map.mp hp
    obtain ⟨hin, hfree⟩ := List.mem_filter.mp hb
    exact o.heap.listed b (List.mem_cons_of_mem _ hin) (by simpa using hfree)

end Owned

/-- **Where the bytes are.**  In every reachable state the walks read blocks and a free list such that
every live block has the adjusted size of its request or 8 bytes more, the sizes of the live blocks
and of the free blocks add up to the break, and at most one more block is free than is live.  Break
addresses are integers: `mem_brk + incr` does not wrap. -/
theorem heap_accounting (A : Arena) (c : Client) (hc : (allocatorRuns A).Reachable c) :
    ∃ bs fl, Reads A c.heap bs fl ∧
      (∀ p n, (p, n) ∈ c.live → getSize c.heap.mem (hdrp p) = adjust n ∨
        getSize c.heap.mem (hdrp p) = adjust n + 8) ∧
      A.memStartBrk + 24 + (c.live.map fun e => getSize c.heap.mem (hdrp e.1)).sum +
        (fl.map fun bp => getSize c.heap.mem (hdrp bp)).sum = c.heap.memBrk ∧
      fl.length ≤ c.live.length + 1 := by
  obtain ⟨⟨bs, fl, o⟩, hfit⟩ := reachable_fitted hc
  obtain ⟨rest, rfl, hne⟩ := o.exists_rest
  have r := o.heap.rep
  have hlive := o.live_perm hne
  have hfree := o.free_perm
  -- the size a header shows, as a function of the address
  let size := fun bp => getSize c.heap.mem (hdrp bp)
  have hsize : ∀ l : List Block, (∀ b ∈ l, b ∈ rest) →
      (l.map Block.addr).map size = l.map Block.size := by
    intro l hl
    rw [List.map_map]
    exact List.map_congr_left fun b hb => r.getSize_hdrp (List.mem_cons_of_mem _ (hl b hb))
  refine ⟨_, fl, o.heap.reads, hfit, ?_, ?_⟩
  · have hsum := r.tiles.sum_size
    have hsplit : (rest.map Block.size).sum = ((rest.filter Block.alloc).map Block.size).sum +
        ((rest.filter fun b => !b.alloc).map Block.size).sum := by
      rw [← List.sum_append, ← List.map_append]
      exact ((List.filter_append_perm Block.alloc rest).map Block.size).sum_nat.symm
    have hl : (c.live.map fun e => size e.1).sum =
        ((rest.filter Block.alloc).map Block.size).sum := by
      rw [← hsize _ fun b hb => List.mem_of_mem_filter hb, ← (hlive.map size).sum_nat, List.map_map]
      rfl
    have hf : (fl.map size).sum = ((rest.filter fun b => !b.alloc).map Block.size).sum := by
      rw [← hsize _ fun b hb => List.mem_of_mem_filter hb, (hfree.map size).sum_nat]
    have hpro : A.prologue.size = 16 := rfl
    rw [List.map_cons, List.sum_cons, hpro] at hsum
    show A.memStartBrk + 24 + (c.live.map fun e => size e.1).sum + (fl.map size).sum = _
    omega
  · have hcount := countP_not_le o.heap.coalesced
    have h1 := hlive.length_eq
    have h2 := hfree.length_eq
    rw [List.length_map, List.length_map, ← List.countP_eq_length_filter] at h1
    rw [List.length_map, ← List.countP_eq_length_filter] at h2
    have hpro : A.prologue.alloc = true := rfl
    rw [List.countP_cons, hpro] at hcount
    simp only [if_true] at hcount
    omega

/-- After one allocation of 100 bytes. -/
theorem heap_accounting_one : ∃ h bs fl, (allocatorRuns lowArena).Reachable ⟨h, [(32, 100)]⟩ ∧
    Reads lowArena h bs fl ∧ fl.length ≤ 2 ∧
    (getSize h.mem (hdrp 32) = 112 ∨ getSize h.mem (hdrp 32) = 120) ∧
    32 + getSize h.mem (hdrp 32) + (fl.map fun bp => getSize h.mem (hdrp bp)).sum = 4128 := by
  obtain ⟨h, hc, hbrk⟩ := one_block_reachable lowArena (n := 100) (by decide) (by decide) (by decide)
  obtain ⟨bs, fl, hreads, hfit, hsum, hlen⟩ := heap_accounting lowArena ⟨h, [(32, 100)]⟩ hc
  refine ⟨h, bs, fl, hc, hreads, hlen, hfit 32 100 List.mem_cons_self, ?_⟩
  have hend : h.memBrk = 4128 := hbrk
  simp only [List.map_cons, List.map_nil, List.sum_cons, List.sum_nil, Nat.add_zero, hend] at hsum
  exact hsum

end SystemProgramming.MallocLab
