import SystemProgramming.MallocLab.ClientRuns
import SystemProgramming.MallocLab.Wrapping

/-!
# Where the break can go

`mem_sbrk` compares `mem_brk + incr` with `mem_max_addr`, but the sum is a 32-bit pointer: in an arena
in the upper half of the address space a large request wraps it around and the check passes.

* `FitsSpace` : the request is served from the free list, is no `int`, or moves the break to an
  address below `2^32`.
* `mmMalloc_eq`, `mmMalloc_wrapped` : with the condition the call is the one with mathematical
  addresses, without it the break ends below the start of the heap.
* `reachable_owned` : the run lemma.
* `reachable_of_low` : in the lower half of the address space every run fits.
* `break_inside_iff` : the break stays in the arena just when every request fits.
-/

namespace SystemProgramming.MallocLab.Wrapping

open ByteMemory Holdings PointerArith Transition

attribute [local instance] wrapping

/-! ### The condition -/

/-- A block of the free list has room for the adjusted size. -/
def FreeFit (h : Heap) (n : ℕ) : Prop :=
  ∃ fuel nodes last, freeWalk h.mem fuel h.freelistHead = some (nodes, last) ∧
    ∃ bp ∈ nodes, adjust n ≤ getSize h.mem (hdrp (P := mathematical) bp)

/-- Serving `n` bytes does not move the break past the address space. -/
def FitsSpace (h : Heap) (n : ℕ) : Prop :=
  FreeFit h n ∨ 2 ^ 31 ≤ adjust n ∨ h.memBrk + growth n < 2 ^ 32

section Calls

variable {A : Arena} {h h' : Heap} {bs : List Block} {b : Block} {fl : List ℕ} {n fuel p : ℕ}

theorem freeFit_iff (r : Rep A h bs fl) (n : ℕ) :
    FreeFit h n ↔ firstFit h.mem (adjust n) fl ≠ 0 := by
  constructor
  · rintro ⟨fuel, nodes, last, hwalk, bp, hbp, hsize⟩ hzero
    cases r.freeWalk_some hwalk
    obtain ⟨d, hd, rfl, -⟩ := r.free bp hbp
    rcases r.firstFit_spec (adjust n) with ⟨e, he, haddr, -⟩ | ⟨-, hsmall⟩
    · have := r.bounds he
      omega
    · have := hsmall d hd hbp
      rw [r.getSize_hdrp hd] at hsize
      omega
  · intro hne
    rcases r.firstFit_spec (adjust n) with ⟨d, hd, -, -, hlisted, hsize⟩ | ⟨hzero, -⟩
    · refine ⟨fl.length + 1, fl, A.prologue.addr, r.freeWalk_eq (Nat.lt_succ_self _), d.addr,
        hlisted, ?_⟩
      rw [r.getSize_hdrp hd]
      exact hsize
    · exact absurd hzero hne

/-- `growth` reaches `2^31` with the adjusted size. -/
theorem growth_lt_iff (n : ℕ) : growth n < 2 ^ 31 ↔ adjust n < 2 ^ 31 := by
  have hc : chunksize = 4096 := by decide
  rw [growth]
  split <;> omega

/-! ### Calls that agree -/

/-- **`mm_malloc`**, where the request fits. -/
theorem mmMalloc_eq (w : WellFormed A h bs fl) (hn : n ≤ sizeMax)
    (hfits : n ≠ 0 → FitsSpace h n) (fuel : ℕ) :
    mmMalloc A fuel n h = mmMalloc (P := mathematical) A fuel n h := by
  by_cases h0 : n = 0
  · unfold mmMalloc
    rw [if_pos h0, if_pos h0]
  obtain ⟨hmod, hge, -, -⟩ := WellFormed.adjust_spec h0 hn
  obtain ⟨hle, hsmod, hsge, hslt⟩ := WellFormed.growth_spec n
  unfold mmMalloc
  rw [if_neg h0, if_neg h0, findFit_eq w.rep]
  cases hfit : findFit (P := mathematical) fuel (adjust n) h with
  | none => rfl
  | some x =>
    rcases w.rep.findFit_cases hfit with ⟨d, hd, rfl, hne, -, hfree, hlisted, hsize⟩ | ⟨hxz, hzero⟩
    · obtain ⟨pre, post, rfl⟩ := List.append_of_mem hd
      obtain ⟨parts, new, hp⟩ := exists_placed hmod hge hsize
      simp only [ne_eq, hne, not_false_eq_true, if_true, place_eq w.rep hfree hlisted hp]
    · have hbrk : 2 ^ 31 ≤ growth n ∨ h.memBrk + growth n < 2 ^ 32 := by
        have hiff := growth_lt_iff n
        rcases hfits h0 with hfree | hbrk
        · exact absurd hzero ((freeFit_iff w.rep n).mp hfree)
        · omega
      have hext : (if adjust n > chunksize then adjust n else chunksize) = growth n := rfl
      have hgrow := extendHeap_eq w hsmod hsge hslt hbrk
      simp only [hxz, ne_eq, not_true_eq_false, if_false, hext, hgrow]
      by_cases hroom : h.memBrk + growth n ≤ A.memMaxAddr
      · obtain ⟨left, m, gone, h₁, hm, heq, w₁, -⟩ := w.exists_extended hsmod hsge hroom
        have hsize : growth n ≤ m.size := hm.size_le
        obtain ⟨parts, new, hp⟩ := exists_placed hmod hge (by omega : adjust n ≤ m.size)
        rw [heq, place_eq w₁.rep (hm.alloc_eq rfl) List.mem_cons_self hp]
      · have hfull : A.memMaxAddr < h.memBrk + growth n := by omega
        simp only [extendHeap_none hsmod hslt hfull, if_true]

/-- **`mm_malloc`**, where it does not: the heap has shrunk to nothing. -/
theorem mmMalloc_wrapped (w : WellFormed A h bs fl) (h0 : n ≠ 0) (hover : ¬ FitsSpace h n)
    (hret : mmMalloc A fuel n h = some (p, h')) : h'.memBrk < A.memStartBrk := by
  rw [FitsSpace, not_or, not_or, freeFit_iff w.rep, not_not] at hover
  obtain ⟨hzero, hint, hbrk⟩ := hover
  have hlt := (growth_lt_iff n).mpr (by omega)
  obtain ⟨-, hsmod, -, -⟩ := WellFormed.growth_spec n
  have hbounds := A.bounds
  have hle := w.rep.brk_le
  have hgrow := extendHeap_wrapped hle hsmod hlt (by omega)
  rw [mmMalloc, if_neg h0, findFit_eq w.rep] at hret
  cases hfit : findFit (P := mathematical) fuel (adjust n) h with
  | none =>
    rw [hfit] at hret
    cases hret
  | some x =>
    have hext : (if adjust n > chunksize then adjust n else chunksize) = growth n := rfl
    rw [hfit] at hret
    simp only [(w.rep.findFit_some hfit).trans hzero, ne_eq, not_true_eq_false, if_false, hext]
      at hret
    have hsame : h'.memBrk = (extendHeap A (growth n / wsize) h).2.memBrk := by
      split at hret
      · cases hret
        rfl
      · cases hret
        exact place_memBrk _ _ _
    omega

theorem mmFree_memBrk (ptr : ℕ) (h : Heap) : (mmFree ptr h).memBrk = h.memBrk := by
  rw [mmFree, coalesce_memBrk]
  rfl

/-- **`mm_realloc`**, where the request fits. -/
theorem mmRealloc_eq (w : WellFormed A h bs fl) (hp : p = 0 ∨ ∃ b, Held A bs b ∧ b.addr = p)
    (hn : n ≤ intMax) (hfits : n ≠ 0 → FitsSpace h n) (fuel : ℕ) :
    mmRealloc A fuel p n h = mmRealloc (P := mathematical) A fuel p n h := by
  have hmalloc := mmMalloc_eq w (le_sizeMax hn) hfits fuel
  unfold mmRealloc
  rw [hmalloc]
  rcases hp with rfl | ⟨b, hb, rfl⟩
  · rw [if_pos rfl, if_pos rfl]
  have hb0 : b.addr ≠ 0 := by
    have := w.rep.bounds hb.mem
    omega
  rw [if_neg hb0, if_neg hb0]
  by_cases h0 : n = 0
  · rw [if_pos h0, if_pos h0, mmFree_eq w hb]
  rw [if_neg h0, if_neg h0]
  cases hret : mmMalloc (P := mathematical) A fuel n h with
  | none => rfl
  | some r =>
    obtain ⟨q, h₁⟩ := r
    rcases w.allocated (le_sizeMax hn) hret with ⟨rfl, rfl⟩ | ⟨a, bs₁, fl₁, w₁, ha⟩
    · simp only [if_true]
    · have hb₁ : Held A bs₁ b := (ha.held b).mpr (Or.inr hb)
      have hcopy := w₁.copied (q := b.addr) ((ha.held a).mpr (Or.inl rfl)) ha.room
        (copySize_le h₁.mem b.addr n)
      rw [ha.addr] at hcopy
      have hfree := mmFree_eq hcopy hb₁
      rw [copySize] at hfree
      simp only [hdrp_block w₁.rep hb₁.mem, hfree]

/-- **`mm_realloc`**, where it does not. -/
theorem mmRealloc_wrapped (w : WellFormed A h bs fl) (h0 : n ≠ 0) (hover : ¬ FitsSpace h n) {q : ℕ}
    (hret : mmRealloc A fuel q n h = some (p, h')) : h'.memBrk < A.memStartBrk := by
  rw [mmRealloc, if_neg h0] at hret
  split at hret
  · exact mmMalloc_wrapped w h0 hover hret
  · cases hm : mmMalloc A fuel n h with
    | none =>
      rw [hm] at hret
      cases hret
    | some r =>
      obtain ⟨x, h₁⟩ := r
      have hlow := mmMalloc_wrapped w h0 hover hm
      rw [hm] at hret
      dsimp only at hret
      split at hret
      · cases hret
        exact hlow
      · cases hret
        rw [mmFree_memBrk]
        exact hlow

/-- **`mm_init`** on a reset break. -/
theorem mmInit_eq (A : Arena) {h : Heap} (hreset : h.memBrk = A.memStartBrk) :
    mmInit A h = mmInit (P := mathematical) A h := by
  have hbounds := A.bounds
  have hsbrk : memSbrk A (6 * wsize : ℕ) h = memSbrk (P := mathematical) A (6 * wsize : ℕ) h := by
    apply memSbrk_eq
    have h24 : ((6 * wsize : ℕ) : ℤ).toNat = 24 := rfl
    omega
  have hblocks : ∀ k : Heap,
      initBlocks A.memStartBrk k = initBlocks (P := mathematical) A.memStartBrk k := by
    intro k
    have hadd : ∀ i, i ≤ 5 → wrapping.add A.memStartBrk (i * wsize) = A.memStartBrk + i * wsize := by
      intro i hi
      exact add_eq (by simp only [wsize]; omega)
    simp only [initBlocks, mathematical_add, hadd 1 (by decide), hadd 2 (by decide),
      hadd 3 (by decide), hadd 4 (by decide), hadd 5 le_rfl]
  have hgrow : extendHeap A (chunksize / wsize) (h.initial A) =
      extendHeap (P := mathematical) A (chunksize / wsize) (h.initial A) := by
    have hc : chunksize = 4096 := by decide
    have hbrk : (h.initial A).memBrk = A.memStartBrk + 24 := rfl
    exact extendHeap_eq (wellFormed_initial A h) (by decide) (by decide) (by decide)
      (Or.inr (by omega))
  rw [Heap.initial] at hgrow
  simp only [mmInit, hsbrk, memSbrk_reset A hreset, hblocks, hgrow]

end Calls

/-! ### Runs -/

/-- A step whose request, if it asks for anything, fits. -/
def InSpace (c : Client) : Action → Prop
  | .call r => r.size ≠ 0 → FitsSpace c.heap r.size
  | .write _ _ => True

section Runs

variable {A : Arena} {c c' : Client} {act : Action} {bs : List Block} {fl : List ℕ}

theorem serve_eq {r : Request} (o : Owned A c bs fl) (hlegal : r.Legal c.live)
    (hfits : r.size ≠ 0 → FitsSpace c.heap r.size) (fuel : ℕ) :
    serve A fuel r c.heap = serve (P := mathematical) A fuel r c.heap := by
  cases r with
  | malloc n => exact mmMalloc_eq o.heap (le_sizeMax hlegal) hfits fuel
  | free ptr =>
    obtain ⟨n, hlive⟩ := hlegal
    obtain ⟨b, hb, rfl, -⟩ := o.held_of_live hlive
    show some (0, mmFree b.addr c.heap) = some (0, mmFree (P := mathematical) b.addr c.heap)
    rw [mmFree_eq o.heap hb]
  | realloc ptr n =>
    refine mmRealloc_eq o.heap (hlegal.2.imp id fun hlive => ?_) hlegal.1 hfits fuel
    obtain ⟨k, hlive⟩ := hlive
    obtain ⟨b, hb, he, -⟩ := o.held_of_live hlive
    exact ⟨b, hb, he⟩

/-- A step whose request fits is one with mathematical addresses. -/
theorem step_iff (o : Owned A c bs fl) (hfits : InSpace c act) :
    Step A c act c' ↔ Step (P := mathematical) A c act c' := by
  constructor
  · intro hstep
    cases hstep with
    | call hlegal hserve => exact .call (P := mathematical) hlegal (serve_eq o hlegal hfits _ ▸ hserve)
    | write hlive hlo hhi => exact .write (P := mathematical) hlive hlo hhi
  · intro hstep
    cases hstep with
    | call hlegal hserve => exact .call hlegal ((serve_eq o hlegal hfits _).trans hserve)
    | write hlive hlo hhi => exact .write hlive hlo hhi

/-- **The step lemma.** -/
theorem owned_step (o : Owned A c bs fl) (hfits : InSpace c act) (hstep : Step A c act c') :
    ∃ bs' fl', Owned A c' bs' fl' :=
  MallocLab.owned_step o ((step_iff o hfits).mp hstep)

/-- **The run lemma.** -/
theorem reachable_owned (hc : ((allocatorRuns A).restrict InSpace).Reachable c) :
    ∃ bs fl, Owned A c bs fl := by
  refine hc.invariant (P := fun c => ∃ bs fl, Owned A c bs fl) ?_ ?_
  · rintro c ⟨hlive, h, hreset, hinit⟩
    rw [mmInit_eq A hreset] at hinit
    exact MallocLab.reachable_owned (.init ⟨hlive, h, hreset, hinit⟩)
  · rintro c act c' ⟨bs, fl, o⟩ ⟨hfits, hstep⟩
    exact owned_step o hfits hstep

/-- In the lower half of the address space every request fits. -/
theorem inSpace_of_low (hlow : A.memMaxAddr ≤ 2 ^ 31) (o : Owned A c bs fl) (act : Action) :
    InSpace c act := by
  cases act with
  | write => trivial
  | call r =>
    intro _
    have hle := o.heap.rep.brk_le
    have hiff := growth_lt_iff r.size
    by_cases hint : 2 ^ 31 ≤ adjust r.size
    · exact Or.inr (Or.inl hint)
    · exact Or.inr (Or.inr (by omega))

/-- There the runs are those with mathematical addresses. -/
theorem reachable_of_low (hlow : A.memMaxAddr ≤ 2 ^ 31)
    (hc : (allocatorRuns (P := mathematical) A).Reachable c) :
    ((allocatorRuns A).restrict InSpace).Reachable c := by
  induction hc with
  | init hinit =>
    obtain ⟨hlive, h, hreset, hret⟩ := hinit
    exact .init ⟨hlive, h, hreset, (mmInit_eq A hreset).trans hret⟩
  | @step c c' act hc hstep ih =>
    obtain ⟨bs, fl, o⟩ := MallocLab.reachable_owned hc
    have hfits := inSpace_of_low hlow o act
    exact ih.step ⟨hfits, (step_iff o hfits).mpr hstep⟩

/-- A step that does not fit leaves the break below the heap. -/
theorem step_wrapped (o : Owned A c bs fl) (hover : ¬ InSpace c act) (hstep : Step A c act c') :
    c'.heap.memBrk < A.memStartBrk := by
  cases hstep with
  | @call r fuel p h' hlegal hserve =>
    rw [InSpace, Classical.not_imp] at hover
    obtain ⟨h0, hover⟩ := hover
    cases r with
    | malloc n => exact mmMalloc_wrapped o.heap h0 hover hserve
    | free ptr => exact absurd rfl h0
    | realloc ptr n => exact mmRealloc_wrapped o.heap h0 hover hserve
  | write => exact absurd trivial hover

/-- The bounds of the break on a well-formed heap. -/
theorem inside {h : Heap} (w : WellFormed A h bs fl) :
    A.memStartBrk ≤ h.memBrk ∧ h.memBrk ≤ A.memMaxAddr := by
  have := w.rep.bounds w.rep.prologue_mem
  have := w.rep.brk_le
  omega

/-- `mm_malloc` returns. -/
theorem mmMalloc_terminates {h : Heap} (w : WellFormed A h bs fl) (n : ℕ) {fuel : ℕ}
    (hfuel : fl.length < fuel) : (mmMalloc A fuel n h).isSome := by
  rw [mmMalloc, findFit_eq w.rep, w.rep.findFit_eq _ hfuel]
  split
  · rfl
  · dsimp only
    split
    · rfl
    · generalize extendHeap A _ h = r
      split <;> rfl

end Runs

/-- The client that has just initialised the allocator over zeroed storage. -/
theorem freshClient_reachable (A : Arena) :
    ((allocatorRuns A).restrict InSpace).Reachable (freshClient A) := by
  obtain ⟨h', heq, -⟩ := MallocLab.mmInit_eq A A.zeroed rfl
  refine .init ⟨rfl, A.zeroed, rfl, ?_⟩
  rw [mmInit_eq A rfl, freshClient, heq]

/-- **The break.**  In every run whose requests all fit, the break lies in the arena.  From any state
of such a run, a step keeps it there just when its request fits, and an `mm_malloc` of a size from 1
to `INT_MAX` returns and leaves the break and any payload it returns in the arena just when the size
fits. -/
theorem break_inside_iff (A : Arena) (c : Client)
    (hc : ((allocatorRuns A).restrict InSpace).Reachable c) :
    (A.memStartBrk ≤ c.heap.memBrk ∧ c.heap.memBrk ≤ A.memMaxAddr) ∧
      (∀ act c', Step A c act c' →
        (A.memStartBrk ≤ c'.heap.memBrk ∧ c'.heap.memBrk ≤ A.memMaxAddr ↔ InSpace c act)) ∧
      ∀ n, 0 < n → n ≤ intMax → (∃ fuel, (mmMalloc A fuel n c.heap).isSome) ∧
        ∀ fuel p h', mmMalloc A fuel n c.heap = some (p, h') →
          ((A.memStartBrk ≤ h'.memBrk ∧ h'.memBrk ≤ A.memMaxAddr) ∧
            (p ≠ 0 → A.memStartBrk ≤ p ∧ p + n ≤ A.memMaxAddr) ↔ FitsSpace c.heap n) := by
  obtain ⟨bs, fl, o⟩ := reachable_owned hc
  refine ⟨inside o.heap, fun act c' hstep => ⟨fun hin => ?_, fun hfits => ?_⟩,
    fun n hpos hn => ⟨⟨fl.length + 1, mmMalloc_terminates o.heap n (Nat.lt_succ_self _)⟩,
      fun fuel p h' hret => ⟨fun hin => ?_, fun hfits => ?_⟩⟩⟩
  · by_contra hover
    have := step_wrapped o hover hstep
    omega
  · obtain ⟨bs', fl', o'⟩ := owned_step o hfits hstep
    exact inside o'.heap
  · by_contra hover
    have := mmMalloc_wrapped o.heap hpos.ne' hover hret
    omega
  · rw [mmMalloc_eq o.heap (le_sizeMax hn) (fun _ => hfits)] at hret
    rcases o.heap.allocated (le_sizeMax hn) hret with ⟨rfl, rfl⟩ | ⟨a, bs', fl', w', ha⟩
    · exact ⟨inside o.heap, fun hp => absurd rfl hp⟩
    · have ha' := w'.rep.bounds ((ha.held a).mpr (Or.inl rfl)).mem
      have hin := inside w'
      have haddr := ha.addr
      have hroom := ha.room
      exact ⟨hin, fun _ => ⟨by omega, by omega⟩⟩

/-- The client that holds 100 and 300 bytes with a hole between them: it frees the first block, and 150
bytes go into the hole. -/
theorem break_inside_iff_holed : holedClient.live = [(352, 300), (32, 100)] ∧
    (lowArena.memStartBrk ≤ holedClient.heap.memBrk ∧
      holedClient.heap.memBrk ≤ lowArena.memMaxAddr) ∧
    (∃ c', Step lowArena holedClient (.call (.free 32)) c' ∧ c'.live = [(352, 300)] ∧
      lowArena.memStartBrk ≤ c'.heap.memBrk ∧ c'.heap.memBrk ≤ lowArena.memMaxAddr) ∧
    ∃ p h', mmMalloc lowArena 4 150 holedClient.heap = some (p, h') ∧ p = 144 ∧
      (lowArena.memStartBrk ≤ h'.memBrk ∧ h'.memBrk ≤ lowArena.memMaxAddr) ∧
      lowArena.memStartBrk ≤ p ∧ p + 150 ≤ lowArena.memMaxAddr := by
  have hlow : lowArena.memMaxAddr ≤ 2 ^ 31 := by decide
  have hmember : (32, 100) ∈ holedClient.live := by
    rw [holedClient_live]
    simp
  have hret : (mmMalloc lowArena 4 150 holedClient.heap).map Prod.fst = some 144 := by decide +kernel
  obtain ⟨⟨p, h'⟩, hmalloc, rfl⟩ := Option.map_eq_some_iff.mp hret
  obtain ⟨bs, fl, o⟩ := MallocLab.reachable_owned holedClient_reachable
  obtain ⟨hbrk, hsteps, hmallocs⟩ :=
    break_inside_iff lowArena holedClient (reachable_of_low hlow holedClient_reachable)
  have hserve : serve lowArena 0 (.free 32) holedClient.heap = some (0, mmFree 32 holedClient.heap) := rfl
  have hfree := Step.call (r := .free 32) ⟨100, hmember⟩ hserve
  have hspace : 150 ≠ 0 → FitsSpace holedClient.heap 150 := inSpace_of_low hlow o (.call (.malloc 150))
  obtain ⟨hbrk', hin⟩ :=
    ((hmallocs 150 (by decide) (by decide)).2 4 _ h' hmalloc).mpr (hspace (by decide))
  refine ⟨holedClient_live, hbrk, ⟨_, hfree, ?_, ?_⟩, _, h', hmalloc, rfl, hbrk', hin (by decide)⟩
  · rw [Request.settle, holedClient_live]
    rfl
  · exact (hsteps _ _ hfree).mpr (inSpace_of_low hlow o _)

/-- The arena that ends at the last aligned address. -/
def highArena : Arena := ⟨4273995768, 4294967288, rfl, rfl, by decide⟩

/-- In the highest arena a request of 32 MB after `mm_init` passes the check of `mem_sbrk`; the break
ends below the start of the heap. -/
theorem break_below_start : ((allocatorRuns highArena).restrict InSpace).Reachable
      (freshClient highArena) ∧
    ∃ p h', mmMalloc highArena 2 33554432 (freshClient highArena).heap = some (p, h') ∧
      h'.memBrk < highArena.memStartBrk := by
  obtain ⟨h₀, heq, hbrk, w⟩ := MallocLab.mmInit_eq highArena highArena.zeroed rfl
  have hheap : (freshClient highArena).heap = h₀ := by rw [freshClient, heq]
  rw [← hheap] at w hbrk
  obtain ⟨⟨p, h'⟩, hret⟩ := Option.isSome_iff_exists.mp
    (mmMalloc_terminates w 33554432 (Nat.lt_succ_self 1))
  refine ⟨freshClient_reachable highArena, p, h', hret, mmMalloc_wrapped w (by decide) ?_ hret⟩
  have hadjust : adjust 33554432 = 33554440 := adjust_eq (by decide)
  have hsmall : ¬ FreeFit (freshClient highArena).heap 33554432 := by
    rw [freeFit_iff w.rep, not_not]
    rcases w.rep.firstFit_spec (adjust 33554432) with ⟨d, hd, -, hfree, -, hsize⟩ | ⟨hzero, -⟩
    · rcases List.mem_pair.mp hd with rfl | rfl
      · cases hfree
      · have hc : highArena.firstBlock.size = 4096 := rfl
        omega
    · exact hzero
  have hgrowth : growth 33554432 = 33554440 := by
    rw [growth, hadjust]
    decide
  have hstart : highArena.memStartBrk = 4273995768 := rfl
  rw [FitsSpace, not_or, not_or]
  exact ⟨hsmall, by omega, by omega⟩

end SystemProgramming.MallocLab.Wrapping
