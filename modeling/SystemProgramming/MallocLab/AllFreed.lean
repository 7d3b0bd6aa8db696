import SystemProgramming.MallocLab.ClientRuns

/-!
# The heap after everything has been freed

Free neighbours are merged at once, so a heap in which the client holds nothing is the prologue and
one free block, whatever the client allocated before and in whatever order it freed it.

* `Owned.all_free` : the blocks and the free list of a client that holds nothing.
* `all_freed_one_block` : what the walks over such a heap find, and that a request that fits into
  the one block is served from it.
-/

namespace SystemProgramming.MallocLab

open Transition

/-- A coalesced run of free blocks has at most one block. -/
theorem Coalesced.length_le_one {bs : List Block} (hco : Coalesced bs)
    (hfree : ∀ b ∈ bs, b.alloc = false) : bs.length ≤ 1 := by
  cases bs with
  | nil => exact Nat.zero_le 1
  | cons a bs =>
    cases bs with
    | nil => exact le_rfl
    | cons b bs =>
      have ha := hfree a (by simp)
      have hb := hfree b (by simp)
      have hab := (List.isChain_cons_cons.mp hco).1
      rw [ha, hb] at hab
      simp at hab

/-- A list without duplicates whose only possible member is one of its members. -/
theorem eq_singleton_of_nodup {l : List ℕ} {x : ℕ} (hnd : l.Nodup) (hx : x ∈ l)
    (hall : ∀ y ∈ l, y = x) : l = [x] := by
  have hperm : l.Perm [x] := by
    refine (List.perm_ext_iff_of_nodup hnd (List.nodup_singleton x)).mpr fun y => ?_
    rw [List.mem_singleton]
    exact ⟨hall y, fun he => he ▸ hx⟩
  exact List.perm_singleton.mp hperm

/-- The break never comes back to the end of the prologue. -/
theorem reachable_brk_gt {A : Arena} {c : Client} (hc : (allocatorRuns A).Reachable c) :
    (∃ bs fl, Owned A c bs fl) ∧ A.memStartBrk + 24 < c.heap.memBrk := by
  refine hc.invariant
    (P := fun c => (∃ bs fl, Owned A c bs fl) ∧ A.memStartBrk + 24 < c.heap.memBrk) ?_ ?_
  · intro c hinit
    refine ⟨reachable_owned (.init hinit), ?_⟩
    obtain ⟨_, h, hreset, heq⟩ := hinit
    obtain ⟨h', heq', hbrk, _⟩ := mmInit_eq A h hreset
    obtain rfl : h' = c.heap := (Prod.mk.inj (heq'.symm.trans heq)).2
    have hc : chunksize = 4096 := by decide
    omega
  · rintro c act c' ⟨⟨bs, fl, o⟩, hbrk⟩ hstep
    refine ⟨owned_step o hstep, ?_⟩
    cases hstep with
    | call hlegal hserve =>
      have hs := (o.call hlegal hserve).2
      exact lt_of_lt_of_le hbrk hs.brk
    | write => exact hbrk

/-- The one free block of a heap in which nothing is held. -/
theorem Owned.all_free {A : Arena} {c : Client} {bs : List Block} {fl : List ℕ}
    (o : Owned A c bs fl) (hlive : c.live = []) (hbrk : A.memStartBrk + 24 < c.heap.memBrk) :
    ∃ b : Block, bs = [A.prologue, b] ∧ fl = [b.addr] ∧ b.alloc = false ∧
      b.addr = A.memStartBrk + 24 ∧ b.size = c.heap.memBrk - A.memStartBrk - 24 := by
  have r := o.heap.rep
  obtain ⟨rest, rfl⟩ := List.head?_eq_some_iff.mp r.prologue
  have hfree : ∀ b ∈ rest, b.alloc = false := by
    intro b hb
    by_contra halloc
    have htiles : Tiles _ ([] ++ A.prologue :: rest) c.heap.memBrk := r.tiles
    have hne : b.addr ≠ A.prologue.addr := htiles.addr_ne hb
    have hheld : Held A (A.prologue :: rest) b :=
      ⟨List.mem_cons_of_mem _ hb, by simpa using halloc, hne⟩
    obtain ⟨n, hn⟩ := o.live b hheld
    rw [hlive] at hn
    cases hn
  have hlen := Coalesced.length_le_one o.heap.coalesced.tail hfree
  have hstop : A.prologue.stop = A.memStartBrk + 24 := rfl
  cases rest with
  | nil =>
    -- the prologue alone would end at the break
    have hend : A.prologue.stop = c.heap.memBrk := r.tiles.2
    omega
  | cons b rest =>
    obtain rfl : rest = [] := List.eq_nil_of_length_eq_zero (by simpa using hlen)
    have hb := hfree b List.mem_cons_self
    have haddr : b.addr = A.prologue.stop := r.tiles.2.1
    have hend : b.stop = c.heap.memBrk := r.tiles.2.2
    rw [Block.stop] at hend
    refine ⟨b, rfl, ?_, hb, haddr.trans hstop, by omega⟩
    refine eq_singleton_of_nodup r.nodup (o.heap.listed b (by simp) hb) fun y hy => ?_
    obtain ⟨d, hd, rfl, hdfree⟩ := r.free y hy
    rcases List.mem_pair.mp hd with rfl | rfl
    · cases hdfree
    · rfl

/-- **All freed.**  When the client holds nothing, the block walk passes the prologue and one block
that stretches to the break, header and footer say that it is free, it is the head and the only node
of the free list, and an allocation that fits into it takes it and leaves the break where it is. -/
theorem all_freed_one_block (A : Arena) (c : Client) (hc : (allocatorRuns A).Reachable c)
    (hlive : c.live = []) :
    let bp := A.memStartBrk + 24
    let size := c.heap.memBrk - A.memStartBrk - 24
    blockWalk c.heap.mem 3 c.heap.heapListp = some ([A.prologue.addr, bp], c.heap.memBrk) ∧
      (getSize c.heap.mem (hdrp bp) = size ∧ getAlloc c.heap.mem (hdrp bp) = 0) ∧
      (getSize c.heap.mem (ftrp c.heap.mem bp) = size ∧
        getAlloc c.heap.mem (ftrp c.heap.mem bp) = 0) ∧
      c.heap.freelistHead = bp ∧
      freeWalk c.heap.mem 2 c.heap.freelistHead = some ([bp], A.prologue.addr) ∧
      ∀ n fuel, n ≤ intMax → n + 8 ≤ size → 1 < fuel → ∃ p h',
        mmMalloc A fuel n c.heap = some (p, h') ∧ (n ≠ 0 → p = bp) ∧
          h'.memBrk = c.heap.memBrk := by
  obtain ⟨⟨bs, fl, o⟩, hbrk⟩ := reachable_brk_gt hc
  obtain ⟨b, rfl, rfl, hfree, haddr, hsize⟩ := o.all_free hlive hbrk
  have w := o.heap
  have r := w.rep
  have hb : b ∈ [A.prologue, b] := by simp
  have hzero : b.alloc.toNat = 0 := by rw [hfree]; rfl
  intro bp size
  have hbp : b.addr = bp := haddr
  have hbsize : b.size = size := hsize
  rw [← hbp, ← hbsize]
  refine ⟨?_, ⟨r.getSize_hdrp hb, ?_⟩, ⟨r.getSize_ftrp hb, ?_⟩, ?_, ?_, fun n fuel hn hfit hfuel => ?_⟩
  · rw [w.listp]
    exact r.blockWalk_eq (Nat.lt_succ_self 2)
  · rw [r.getAlloc_hdrp hb, hzero]
  · rw [r.getAlloc_ftrp hb, hzero]
  · exact (Option.some.inj r.head).symm
  · exact r.freeWalk_eq (Nat.lt_succ_self 1)
  · by_cases h0 : n = 0
    · exact ⟨0, c.heap, by rw [mmMalloc, if_pos h0], fun h => absurd h0 h, rfl⟩
    obtain ⟨⟨p, h'⟩, hret⟩ := Option.isSome_iff_exists.mp (w.mmMalloc_terminates n hfuel)
    have hmod := b.size_mod
    have hadj : adjust n ≤ b.size := by
      have hmax : intMax = 2 ^ 31 - 1 := rfl
      rw [adjust_eq (by omega)]
      omega
    -- the search finds the one free block
    have hplace : p = b.addr ∧ h' = place b.addr (adjust n) c.heap := by
      rcases w.mmMalloc_cases h0 hret with ⟨d, hd, _, hdfree, _, hp, hh⟩ | ⟨hnone, _⟩
      · rcases List.mem_pair.mp hd with rfl | rfl
        · cases hdfree
        · exact ⟨hp, hh⟩
      · rcases r.firstFit_spec (adjust n) with ⟨d, hd, he, _⟩ | ⟨_, hlt⟩
        · have := r.bounds hd
          omega
        · have := hlt b hb (by simp)
          omega
    obtain ⟨rfl, rfl⟩ := hplace
    obtain ⟨hm8, hge, _⟩ := WellFormed.adjust_spec h0 (le_sizeMax hn)
    obtain ⟨parts, new, hp⟩ := exists_placed hm8 hge hadj
    have w' : WellFormed A c.heap ([A.prologue] ++ b :: []) [b.addr] := w
    exact ⟨b.addr, _, hret, fun _ => rfl, (w'.placed hfree hp).2.1⟩

/-- A block of 100 bytes is allocated and freed again. -/
theorem all_freed_one_block_again : ∃ h',
    mmMalloc lowArena 2 100 (freshClient lowArena).heap = some (32, h') ∧
      (mmFree 32 h').freelistHead = 32 := by
  have hc := freshClient_reachable lowArena
  obtain ⟨h₀, heq, hbrk, _⟩ := mmInit_eq lowArena lowArena.zeroed rfl
  have hfresh : (freshClient lowArena).heap.memBrk = 4128 := by
    rw [freshClient, heq]
    exact hbrk
  have hserved := (all_freed_one_block lowArena _ hc rfl).2.2.2.2.2 100 2 (by decide)
  rw [hfresh] at hserved
  obtain ⟨p, h', hret, hp, _⟩ := hserved (by decide) (by decide)
  obtain rfl : p = 32 := hp (by decide)
  have hlegal : (Request.malloc 100).Legal (freshClient lowArena).live := by
    show 100 ≤ intMax
    decide
  have hserve : serve lowArena 2 (.malloc 100) (freshClient lowArena).heap = some (32, h') := hret
  have hheld : (allocatorRuns lowArena).Reachable ⟨h', [(32, 100)]⟩ :=
    hc.step (.call hlegal hserve)
  have hfree : serve lowArena 2 (.free 32) h' = some (0, mmFree 32 h') := rfl
  have hfreed : (allocatorRuns lowArena).Reachable ⟨mmFree 32 h', []⟩ :=
    hheld.step (.call (r := .free 32) ⟨100, by simp⟩ hfree)
  exact ⟨h', hret, (all_freed_one_block lowArena _ hfreed rfl).2.2.2.1⟩

end SystemProgramming.MallocLab
