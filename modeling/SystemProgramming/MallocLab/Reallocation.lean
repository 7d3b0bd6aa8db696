import SystemProgramming.MallocLab.BlockLists

/-!
# `mm_realloc` moves a block

`mm_realloc` copies as many bytes as the old block is large, tags included, or as many as were asked
for if that is less, between an allocation that may split, merge or extend blocks next to the old one
and the `mm_free` of the old one.

* `CopySafe` : the copy stays below the break and inside the new payload, and its ranges are disjoint.
* `mmRealloc_moves` : what every reallocation of a run that returns a block does.
* `never_shrinks_in_place` : no call for a live block returns that block.
-/

namespace SystemProgramming.MallocLab

open ByteMemory Transition

/-- The `memcpy` of `k` bytes from `src` to `dst` in the heap `h`: its ranges are disjoint, what it
reads lies below the break and what it writes in the payload at `dst`. -/
structure CopySafe (h : Heap) (dst src k : ℕ) : Prop where
  apart : src + k ≤ dst ∨ dst + k ≤ src
  read : src + k ≤ h.memBrk
  written : k + 8 ≤ getSize h.mem (hdrp dst)

/-- The bytes of a copy between disjoint ranges. -/
theorem copyBytes_at (m : Mem) {dst src k i : ℕ} (hi : i < k) :
    copyBytes m dst src k (dst + i) = m (src + i) := by
  rw [copyBytes, if_pos (by omega), Nat.add_sub_cancel_left]

namespace WellFormed

variable {A : Arena} {h : Heap} {bs : List Block} {a b d : Block} {fl : List ℕ} {n : ℕ}

theorem copySize_eq (w : WellFormed A h bs fl) (hb : b ∈ bs) (n : ℕ) :
    copySize h.mem b.addr n = min n b.size := by
  rw [copySize, w.rep.getSize_hdrp hb]
  split <;> omega

/-- The copy into a block with room for `n` bytes. -/
theorem copySafe (w : WellFormed A h bs fl) (ha : Held A bs a) (hb : Held A bs b) (hne : b ≠ a)
    (hroom : n + 8 ≤ a.size) : CopySafe h a.addr b.addr (copySize h.mem b.addr n) := by
  have hapart := w.payload_apart hb ha hne
  have hbounds := w.rep.bounds hb.mem
  have hsize := w.rep.getSize_hdrp ha.mem
  rw [w.copySize_eq hb.mem]
  exact ⟨by omega, by omega, by omega⟩

end WellFormed

/-- **Reallocation.**  A call of `mm_realloc` for a live block and a nonzero size that returns a block
allocates it, copies, and frees the old one.  The copy is safe, the new block holds the first bytes of
the old one, as many as both payloads have, the old block is no longer allocated, and the payload of
every other live block is unchanged. -/
theorem mmRealloc_moves (A : Arena) (c : Client) (hc : (allocatorRuns A).Reachable c)
    (p k n fuel q : ℕ) (h' : Heap) (hlive : (p, k) ∈ c.live) (h0 : n ≠ 0) (hn : n ≤ intMax)
    (hret : mmRealloc A fuel p n c.heap = some (q, h')) (hq : q ≠ 0) :
    (∃ h₁, mmMalloc A fuel n c.heap = some (q, h₁) ∧
      h' = mmFree p { h₁ with mem := copyBytes h₁.mem q p (copySize h₁.mem p n) } ∧
      CopySafe h₁ q p (copySize h₁.mem p n)) ∧
    (∀ i < min n (getSize c.heap.mem (hdrp p) - 8), h'.mem (q + i) = c.heap.mem (p + i)) ∧
    (q ≠ p ∧ ∃ bs fl, Reads A h' bs fl ∧ ∀ b ∈ bs, b.addr = p → b.alloc = false) ∧
    ∀ r j, (r, j) ∈ c.live → r ≠ p → ∀ a, r ≤ a → a < r + (getSize c.heap.mem (hdrp r) - 8) →
      h'.mem a = c.heap.mem a := by
  obtain ⟨bs, fl, o⟩ := reachable_owned hc
  obtain ⟨b, hb, rfl, -⟩ := o.held_of_live hlive
  have w := o.heap
  have hb0 := o.ne_zero hlive
  rcases WellFormed.mmRealloc_cases hb0 h0 hret with ⟨rfl, -⟩ | ⟨-, h₁, hm, rfl⟩
  · exact absurd rfl hq
  rcases w.allocated (le_sizeMax hn) hm with ⟨rfl, -⟩ | ⟨a, bs₁, fl₁, w₁, ha⟩
  · exact absurd rfl hq
  obtain rfl : a.addr = q := ha.addr
  have hroom := ha.room
  have ha₁ : Held A bs₁ a := (ha.held a).mpr (Or.inl rfl)
  have hb₁ : Held A bs₁ b := (ha.held b).mpr (Or.inr hb)
  have hab : a ≠ b := (ha.ne_of_held hb).symm
  have hsafe := w₁.copySafe ha₁ hb₁ hab.symm hroom
  have hk := w₁.copySize_eq hb₁.mem n
  -- the old block is freed after the copy
  obtain ⟨bs₂, fl₂, w₂, hheld₂, -, hsame₂⟩ :=
    (w₁.copied (q := b.addr) ha₁ hroom (copySize_le h₁.mem b.addr n)).freed hb₁
  refine ⟨⟨h₁, hm, rfl, hsafe⟩, fun i hi => ?_, ⟨?_, bs₂, fl₂, w₂.reads, ?_⟩, ?_⟩
  · rw [w.rep.getSize_hdrp hb.mem] at hi
    calc (mmFree b.addr _).mem (a.addr + i)
        = copyBytes h₁.mem a.addr b.addr (copySize h₁.mem b.addr n) (a.addr + i) :=
          hsame₂ a ha₁ hab _ (by omega) (by omega)
      _ = h₁.mem (b.addr + i) := copyBytes_at h₁.mem (by omega)
      _ = c.heap.mem (b.addr + i) := ha.same b hb _ (by omega) (by omega)
  · exact ha.ne_addr w₁ hb
  · intro d hd he
    by_contra hfree
    have hdheld : Held A bs₂ d := ⟨hd, by simpa using hfree, by rw [he]; exact hb.ne⟩
    obtain ⟨hd₁, hne⟩ := (hheld₂ d).mp hdheld
    exact hne (w₁.rep.tiles.eq_of_addr hd₁.mem hb₁.mem he)
  · intro r j hr hne x hlo hhi
    obtain ⟨d, hd, rfl, -⟩ := o.held_of_live hr
    rw [w.rep.getSize_hdrp hd.mem] at hhi
    have hd₁ : Held A bs₁ d := (ha.held d).mpr (Or.inr hd)
    have hda : d ≠ a := ha.ne_of_held hd
    have hdb : d ≠ b := fun he => hne (by rw [he])
    have hds := d.size_ge
    calc (mmFree b.addr _).mem x
        = copyBytes h₁.mem a.addr b.addr (copySize h₁.mem b.addr n) x :=
          hsame₂ d hd₁ hdb x hlo (by omega)
      _ = h₁.mem x := w₁.copied_samePayload ha₁ hd₁ hda hroom (copySize_le ..) x hlo (by omega)
      _ = c.heap.mem x := ha.same d hd x hlo (by omega)

/-- A block of 100 bytes grows to 200. -/
theorem mmRealloc_moves_one : ∃ h q h', (allocatorRuns lowArena).Reachable ⟨h, [(32, 100)]⟩ ∧
    (∃ fuel, mmRealloc lowArena fuel 32 200 h = some (q, h')) ∧ q ≠ 32 ∧
    ∀ i < min 200 (getSize h.mem (hdrp 32) - 8), h'.mem (q + i) = h.mem (32 + i) := by
  obtain ⟨h, hc, hbrk⟩ := one_block_reachable lowArena (n := 100) (by decide) (by decide) (by decide)
  obtain ⟨bs, fl, o⟩ := reachable_owned hc
  have hroom : h.memBrk + growth 200 ≤ lowArena.memMaxAddr := by
    rw [hbrk]
    decide
  obtain ⟨⟨q, h'⟩, hret⟩ :=
    Option.isSome_iff_exists.mp (o.heap.mmRealloc_terminates 32 200 (Nat.lt_succ_self fl.length))
  have hq : q ≠ 0 := by
    rcases WellFormed.mmRealloc_cases (by decide) (by decide) hret with ⟨-, hm⟩ | ⟨hq, -⟩
    · exact absurd rfl (o.heap.mmMalloc_ne_zero (by decide) hroom hm)
    · exact hq
  obtain ⟨-, hcopied, hmoved, -⟩ := mmRealloc_moves lowArena ⟨h, [(32, 100)]⟩ hc 32 100 200 _ q h'
    List.mem_cons_self (by decide) (by decide) hret hq
  exact ⟨h, q, h', hc, ⟨_, hret⟩, hmoved.1, hcopied⟩

/-! ### Shrinking -/

/-- `mm_realloc` of the block at `p` to `n` bytes returns `p`, with its first `n` bytes unchanged. -/
def ShrinksInPlace (A : Arena) (h : Heap) (p n : ℕ) : Prop :=
  ∃ fuel h', mmRealloc A fuel p n h = some (p, h') ∧ ∀ a, p ≤ a → a < p + n → h'.mem a = h.mem a

/-- The size of a live block is less than the arena's. -/
theorem Owned.size_lt {A : Arena} {c : Client} {bs : List Block} {fl : List ℕ} {p k : ℕ}
    (o : Owned A c bs fl) (hlive : (p, k) ∈ c.live) : k < maxHeap := by
  obtain ⟨b, hb, rfl, hroom⟩ := o.held_of_live hlive
  have hmax : maxHeap = 20971520 := by decide
  have hin := o.heap.rep.bounds hb.mem
  have hle := o.heap.rep.brk_le
  have hbounds := A.bounds
  omega

/-- No reallocation to a size from 1 to the block's own returns the block. -/
theorem Owned.mmRealloc_ne {A : Arena} {c : Client} {bs : List Block} {fl : List ℕ}
    {p k n fuel q : ℕ} {h' : Heap} (o : Owned A c bs fl) (hlive : (p, k) ∈ c.live) (h0 : 0 < n)
    (hn : n ≤ k) (hret : mmRealloc A fuel p n c.heap = some (q, h')) : q ≠ p := by
  have hk := o.size_lt hlive
  have hmax : intMax = 2 ^ 31 - 1 := rfl
  have hheap : maxHeap = 20971520 := by decide
  obtain ⟨b, hb, rfl, -⟩ := o.held_of_live hlive
  rcases o.heap.reallocated hb (by omega) (by omega) hret with
    ⟨rfl, -⟩ | ⟨a, h₂, bs₂, fl₂, w₂, ha, -⟩
  · exact (o.ne_zero hlive).symm
  · exact ha.ne_addr w₂ hb

/-- Reallocating a live block to a size from 1 to its own returns, and never that block. -/
theorem never_shrinks_in_place (A : Arena) (c : Client) (hc : (allocatorRuns A).Reachable c)
    (p k n : ℕ) (hlive : (p, k) ∈ c.live) (h0 : 0 < n) (hn : n ≤ k) :
    ¬ ShrinksInPlace A c.heap p n ∧
      ∃ fuel q h', mmRealloc A fuel p n c.heap = some (q, h') ∧ q ≠ p := by
  obtain ⟨bs, fl, o⟩ := reachable_owned hc
  constructor
  · rintro ⟨fuel, h', hret, -⟩
    exact o.mmRealloc_ne hlive h0 hn hret rfl
  · obtain ⟨⟨q, h'⟩, hret⟩ := Option.isSome_iff_exists.mp
      (o.heap.mmRealloc_terminates p n (Nat.lt_succ_self fl.length))
    exact ⟨_, q, h', hret, o.mmRealloc_ne hlive h0 hn hret⟩

theorem never_shrinks_in_place_one : ∃ h fuel q h',
    (allocatorRuns lowArena).Reachable ⟨h, [(32, 100)]⟩ ∧
      mmRealloc lowArena fuel 32 50 h = some (q, h') ∧ q ≠ 32 := by
  obtain ⟨h, hc, -⟩ := one_block_reachable lowArena (n := 100) (by decide) (by decide) (by decide)
  obtain ⟨-, fuel, q, h', hret, hq⟩ :=
    never_shrinks_in_place lowArena _ hc 32 100 50 List.mem_cons_self (by decide) (by decide)
  exact ⟨h, fuel, q, h', hc, hret, hq⟩

/-- The first block of a run, of 100 bytes, is not shrunk to 50 bytes in place. -/
theorem first_block_not_shrunk : ∃ h, (allocatorRuns lowArena).Reachable ⟨h, [(32, 100)]⟩ ∧
    ¬ ShrinksInPlace lowArena h 32 50 := by
  obtain ⟨h, hc, -⟩ := one_block_reachable lowArena (n := 100) (by decide) (by decide) (by decide)
  obtain ⟨bs, fl, o⟩ := reachable_owned hc
  refine ⟨h, hc, ?_⟩
  rintro ⟨fuel, h', hret, -⟩
  exact o.mmRealloc_ne (k := 100) List.mem_cons_self (by decide) (by decide) hret rfl

end SystemProgramming.MallocLab
