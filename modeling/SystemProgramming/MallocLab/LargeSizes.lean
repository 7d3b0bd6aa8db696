import SystemProgramming.MallocLab.BlockLists

/-!
# Requests of any 32-bit size

`mm_malloc` computes `ALIGN(size + SIZE_T_SIZE)` in a `size_t`.  For the largest 15 sizes the sum wraps
and the adjusted size is 0 or 8, so that any block fits.

* `placeCall` : the block and the heap with which `mm_malloc` calls `place`.
* `adjust_wrapped` : the adjusted size of the largest sizes.
* `mmMalloc_room_iff` : for which sizes `mm_malloc` returns a block with room or `NULL`.
-/

namespace SystemProgramming.MallocLab

open ByteMemory Transition

/-- The block and the heap with which `mm_malloc` calls `place`, where it gets that far. -/
def placeCall (A : Arena) (fuel size : ℕ) (h : Heap) : Option (ℕ × Heap) :=
  if size = 0 then none
  else
    match findFit fuel (adjust size) h with
    | none => none
    | some bp =>
      if bp ≠ 0 then some (bp, h)
      else
        let extendsize := if adjust size > chunksize then adjust size else chunksize
        let r := extendHeap A (extendsize / wsize) h
        if r.1 = 0 then none else some r

/-- `mm_malloc` returns the block that it passes to `place`. -/
theorem mmMalloc_of_placeCall {A : Arena} {fuel size bp : ℕ} {h h₁ : Heap}
    (hcall : placeCall A fuel size h = some (bp, h₁)) :
    mmMalloc A fuel size h = some (bp, place bp (adjust size) h₁) := by
  rw [placeCall] at hcall
  rw [mmMalloc]
  by_cases h0 : size = 0
  · rw [if_pos h0] at hcall
    cases hcall
  rw [if_neg h0] at hcall ⊢
  cases hfit : findFit fuel (adjust size) h with
  | none =>
    rw [hfit] at hcall
    cases hcall
  | some x =>
    rw [hfit] at hcall
    by_cases hx : x = 0
    · have hext : (if adjust size > chunksize then adjust size else chunksize) = growth size := rfl
      simp only [hx, ne_eq, not_true_eq_false, if_false, hext] at hcall ⊢
      by_cases hnull : (extendHeap A (growth size / wsize) h).1 = 0
      · rw [if_pos hnull] at hcall
        cases hcall
      · rw [if_neg hnull, Option.some.injEq] at hcall
        rw [if_neg hnull, hcall]
    · simp only [ne_eq, hx, not_false_eq_true, if_true, Option.some.injEq, Prod.mk.injEq] at hcall ⊢
      obtain ⟨rfl, rfl⟩ := hcall
      exact ⟨rfl, rfl⟩

theorem getSize_le (m : Mem) (p : ℕ) : getSize m p ≤ 2 ^ 32 - 8 := by
  have hlt : get m p < 2 ^ 32 := readWord_lt m p
  rw [getSize, and_notSeven hlt]
  omega

/-- The sizes for which `ALIGN(size + SIZE_T_SIZE)` wraps. -/
theorem adjust_wrapped {n : ℕ} (hn : sizeMax < n) (hlt : n < 2 ^ 32) : adjust n ≤ 8 := by
  have h1 : sizeMax = 2 ^ 32 - 16 := rfl
  have h8 : sizeTSize = 8 := by decide
  rw [adjust, h8, align, and_notSeven (Nat.mod_lt _ (by decide))]
  omega

namespace WellFormed

variable {A : Arena} {h h' : Heap} {bs : List Block} {fl : List ℕ} {n fuel p : ℕ}

/-- The block that reaches `place` has room for the adjusted size. -/
theorem placeCall_room {bp : ℕ} {h₁ : Heap} (w : WellFormed A h bs fl)
    (hcall : placeCall A fuel n h = some (bp, h₁)) : adjust n ≤ getSize h₁.mem (hdrp bp) := by
  rw [placeCall] at hcall
  by_cases h0 : n = 0
  · rw [if_pos h0] at hcall
    cases hcall
  rw [if_neg h0] at hcall
  obtain ⟨hle, hsmod, hsge, hslt⟩ := growth_spec n
  cases hfit : findFit fuel (adjust n) h with
  | none =>
    rw [hfit] at hcall
    cases hcall
  | some x =>
    have hext : (if adjust n > chunksize then adjust n else chunksize) = growth n := rfl
    rw [hfit] at hcall
    rcases w.rep.findFit_cases hfit with ⟨b, hb, rfl, hne, -, -, -, hsize⟩ | ⟨hzero, -⟩
    · simp only [ne_eq, hne, not_false_eq_true, if_true, Option.some.injEq, Prod.mk.injEq] at hcall
      obtain ⟨rfl, rfl⟩ := hcall
      rw [w.rep.getSize_hdrp hb]
      exact hsize
    · simp only [hzero, ne_eq, not_true_eq_false, if_false, hext] at hcall
      by_cases hroom : h.memBrk + growth n ≤ A.memMaxAddr
      · obtain ⟨left, m, h₂, heq, hgrown, -, w₂, -⟩ := w.grownTo hsmod hsge hroom
        have hmb := w₂.rep.bounds (b := m) (by simp)
        simp only [heq, show m.addr ≠ 0 by omega, if_false, Option.some.injEq,
          Prod.mk.injEq] at hcall
        obtain ⟨rfl, rfl⟩ := hcall
        rw [w₂.rep.getSize_hdrp (by simp)]
        rcases hgrown with ⟨-, -, -, hm⟩ | ⟨t, -, -, -, hm⟩ <;> omega
      · rw [extendHeap_none hsmod hslt (by omega)] at hcall
        simp at hcall

/-- With the adjusted size 0 or 8 any free block fits, and else the heap grows by a chunk. -/
theorem wrapped_null_iff (w : WellFormed A h bs fl) (hn : sizeMax < n) (hlt : n < 2 ^ 32)
    (hret : mmMalloc A fuel n h = some (p, h')) :
    p = 0 ↔ fl = [] ∧ A.memMaxAddr < h.memBrk + chunksize := by
  have hadj := adjust_wrapped hn hlt
  have hchunk : chunksize = 4096 := by decide
  have hgrowth : growth n = chunksize := if_neg (by omega)
  have h0 : n ≠ 0 := by
    rintro rfl
    exact absurd hn (Nat.not_lt_zero _)
  constructor
  · rintro rfl
    have hfull : A.memMaxAddr < h.memBrk + chunksize := by
      by_contra hroom
      exact w.mmMalloc_ne_zero h0 (by omega) hret rfl
    refine ⟨List.eq_nil_iff_forall_not_mem.mpr fun x hx => ?_, hfull⟩
    -- a listed block would have been returned
    obtain ⟨b, hb, rfl, hfree⟩ := w.rep.free x hx
    have hsize := b.size_ge
    rcases w.mmMalloc_cases h0 hret with ⟨d, hd, -, -, -, hp, -⟩ | ⟨hzero, -⟩
    · have := w.rep.bounds hd
      omega
    · have := w.no_fit hzero hb hfree
      omega
  · rintro ⟨rfl, hfull⟩
    rcases w.mmMalloc_cases h0 hret with ⟨d, hd, -, hfree, -⟩ | ⟨-, ⟨hfit, -⟩ | ⟨-, hp, -⟩⟩
    · exact absurd (w.listed d hd hfree) List.not_mem_nil
    · omega
    · exact hp

end WellFormed

/-- **Room for every size.**  On a well-formed heap `mm_malloc` returns, for every 32-bit size; the
subtraction `csize - asize` in `place` does not wrap.  It returns `NULL` or a block with room for the
size just when the adjusted size does not wrap, or no block is free and the heap is full. -/
theorem mmMalloc_room_iff (A : Arena) (h : Heap) (bs : List Block) (fl : List ℕ) (n fuel : ℕ)
    (w : WellFormed A h bs fl) (hn : n < 2 ^ 32) (hfuel : fl.length < fuel) :
    ∃ p h', mmMalloc A fuel n h = some (p, h') ∧
      (((p = 0 ∨ n ≤ getSize h'.mem (hdrp p) - 8) ∧
          ∀ bp h₁, placeCall A fuel n h = some (bp, h₁) → adjust n ≤ getSize h₁.mem (hdrp bp)) ↔
        n ≤ sizeMax ∨ fl = [] ∧ A.memMaxAddr < h.memBrk + chunksize) := by
  obtain ⟨⟨p, h'⟩, hret⟩ := Option.isSome_iff_exists.mp (w.mmMalloc_terminates n hfuel)
  have hplace : ∀ bp h₁, placeCall A fuel n h = some (bp, h₁) →
      adjust n ≤ getSize h₁.mem (hdrp bp) := fun _ _ hcall => w.placeCall_room hcall
  have hmax : sizeMax = 2 ^ 32 - 16 := rfl
  refine ⟨p, h', hret, fun hroom => ?_, fun hcond => ⟨?_, hplace⟩⟩
  · by_contra hcond
    rw [not_or, not_le] at hcond
    rcases hroom.1 with hp | hcap
    · exact hcond.2 ((w.wrapped_null_iff hcond.1 hn hret).mp hp)
    · have := getSize_le h'.mem (hdrp p)
      omega
  · rcases le_or_gt n sizeMax with hle | hgt
    · rcases w.allocated hle hret with ⟨hp, -⟩ | ⟨a, bs', fl', w', ha⟩
      · exact Or.inl hp
      · have hsize := w'.rep.getSize_hdrp ((ha.held a).mpr (Or.inl rfl)).mem
        have hroom := ha.room
        rw [ha.addr] at hsize
        exact Or.inr (by omega)
    · have hfull := hcond.resolve_left (not_le.mpr hgt)
      exact Or.inl ((w.wrapped_null_iff hgt hn hret).mpr hfull)

theorem mmMalloc_room_iff_fresh : ∃ p h',
    mmMalloc lowArena 2 0xFFFFFFF0 (freshClient lowArena).heap = some (p, h') ∧
      (p = 0 ∨ 0xFFFFFFF0 ≤ getSize h'.mem (hdrp p) - 8) := by
  obtain ⟨h₀, heq, -, w⟩ := mmInit_eq lowArena lowArena.zeroed rfl
  have hheap : (freshClient lowArena).heap = h₀ := by rw [freshClient, heq]
  obtain ⟨p, h', hret, hiff⟩ := mmMalloc_room_iff lowArena h₀ _ _ 0xFFFFFFF0 2 w (by decide) (by decide)
  rw [hheap]
  exact ⟨p, h', hret, (hiff.mpr (Or.inl (by decide))).1⟩

/-- After `mm_init`, `mm_malloc(SIZE_MAX)` returns a block without room for the size. -/
theorem mmMalloc_sizeMax_fresh : ∃ p h',
    mmMalloc lowArena 2 0xFFFFFFFF (freshClient lowArena).heap = some (p, h') ∧
      p ≠ 0 ∧ ¬ 0xFFFFFFFF ≤ getSize h'.mem (hdrp p) - 8 := by
  obtain ⟨h₀, heq, -, w⟩ := mmInit_eq lowArena lowArena.zeroed rfl
  have hheap : (freshClient lowArena).heap = h₀ := by rw [freshClient, heq]
  obtain ⟨⟨p, h'⟩, hret⟩ := Option.isSome_iff_exists.mp
    (w.mmMalloc_terminates 0xFFFFFFFF (Nat.lt_succ_self 1))
  rw [hheap]
  refine ⟨p, h', hret, fun hp => ?_, fun hcap => ?_⟩
  · have hnull := (w.wrapped_null_iff (by decide) (by decide) hret).mp hp
    exact absurd hnull.1 (List.cons_ne_nil _ _)
  · have := getSize_le h'.mem (hdrp p)
    omega

end SystemProgramming.MallocLab
