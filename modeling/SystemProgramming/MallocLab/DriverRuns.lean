import SystemProgramming.MallocLab.Driver
import SystemProgramming.MallocLab.Exhaustion

/-!
# The driver on `mm.c`

Replaying a legal trace, each of the three evaluations makes the requests of a run of the client of
`ClientRuns.lean`, in which identifiers stand for the requests that returned their blocks.  What is
known of these runs then decides what the evaluations return.

* `Owned.sum_live_le`, `Owned.free_length_lt` : the live payloads fit below the break, and `find_fit`
  returns within `MAX_HEAP` iterations.
* `Follows` : a heap and a table of blocks follow a trace; `Follows.alloc`, `Follows.realloc`,
  `Follows.free` and `Follows.memset` are the steps.
* `Follows.malloc_returns`, `Follows.realloc_returns` : when the next call returns `NULL`.
-/

namespace SystemProgramming.MallocLab

open ByteMemory Holdings Folds Transition

/-! ### Room and fuel -/

/-- Entries at distinct blocks, each with room for its tags, are no larger than the blocks. -/
theorem Tiles.sum_entries {bs : List Block} {p q : ℕ} (ht : Tiles p bs q) {l : List (ℕ × ℕ)}
    (hkeys : (l.map Prod.fst).Nodup)
    (hroom : ∀ e ∈ l, ∃ b ∈ bs, b.addr = e.1 ∧ e.2 + 8 ≤ b.size) :
    (l.map fun e => e.2 + 8).sum ≤ (bs.map Block.size).sum := by
  induction bs generalizing l p with
  | nil =>
    cases l with
    | nil => exact le_refl _
    | cons e l =>
      obtain ⟨b, hb, _⟩ := hroom e List.mem_cons_self
      cases hb
  | cons b bs ih =>
    rw [List.map_cons, List.sum_cons]
    -- the entry at `b`, if there is one, and the others
    have hrest : ((release l b.addr).map fun e => e.2 + 8).sum ≤ (bs.map Block.size).sum := by
      refine ih ht.2 (release_nodup hkeys _) fun e he => ?_
      obtain ⟨hmem, hne⟩ := mem_release.mp he
      obtain ⟨d, hd, haddr, hsize⟩ := hroom e hmem
      rcases List.mem_cons.mp hd with rfl | hd
      · exact absurd haddr.symm hne
      · exact ⟨d, hd, haddr, hsize⟩
    by_cases hin : b.addr ∈ l.map Prod.fst
    · obtain ⟨e, he, haddr⟩ := List.mem_map.mp hin
      obtain ⟨d, hd, hde, hsize⟩ := hroom e he
      have hdb : d = b := ht.eq_of_addr hd List.mem_cons_self (hde.trans haddr)
      have he' : (b.addr, e.2) ∈ l := by
        rw [← haddr]
        exact he
      have hperm := (release_perm he' hkeys).map fun e => e.2 + 8
      rw [hperm.sum_nat, List.map_cons, List.sum_cons]
      rw [hdb] at hsize
      exact Nat.add_le_add hsize hrest
    · rw [release_of_notMem hin] at hrest
      exact hrest.trans (Nat.le_add_left _ _)

theorem sixteen_mul_length_le (bs : List Block) : 16 * bs.length ≤ (bs.map Block.size).sum := by
  induction bs with
  | nil => exact le_refl _
  | cons b bs ih =>
    have := b.size_ge
    rw [List.length_cons, List.map_cons, List.sum_cons]
    omega

namespace Owned

variable {A : Arena} {c : Client} {bs : List Block} {fl : List ℕ}

/-- **The live payloads fit below the break**, with eight bytes for the tags of each and 24 for what
`mm_init` lays out around the blocks. -/
theorem sum_live_le (o : Owned A c bs fl) :
    A.memStartBrk + 24 + (c.live.map fun e => e.2 + 8).sum ≤ c.heap.memBrk := by
  have ht := o.heap.rep.tiles
  have hhead := o.heap.rep.prologue
  cases bs with
  | nil => cases hhead
  | cons b bs =>
    obtain rfl : b = A.prologue := Option.some.inj hhead
    have hsum := ht.sum_size
    have hle := ht.2.sum_entries o.nodup fun e he => by
      obtain ⟨d, hd, haddr, hsize⟩ := o.held_of_live (p := e.1) (n := e.2) he
      rcases List.mem_cons.mp hd.mem with rfl | hmem
      · exact absurd rfl hd.ne
      · exact ⟨d, hmem, haddr, hsize⟩
    rw [List.map_cons, List.sum_cons] at hsum
    have hpro : A.prologue.size = 16 := rfl
    omega

/-- The free list is shorter than the arena, so `find_fit` returns within `MAX_HEAP` iterations. -/
theorem free_length_lt (o : Owned A c bs fl) : fl.length < maxHeap := by
  have hmax : maxHeap = 20971520 := by decide
  have hA := A.bounds
  have r := o.heap.rep
  have hsub : fl ⊆ bs.map Block.addr := fun x hx => by
    obtain ⟨b, hb, rfl, _⟩ := r.free x hx
    exact List.mem_map_of_mem hb
  have hlen : fl.length ≤ bs.length := by
    have := (List.subperm_of_subset r.nodup hsub).length_le
    rwa [List.length_map] at this
  have hsize := sixteen_mul_length_le bs
  have hsum := r.tiles.sum_size
  have hbrk := r.brk_le
  omega

/-- What `mm_realloc` copies: the bytes that both payloads have. -/
theorem realloc_copied {p k n fuel q : ℕ} {h' : Heap} (o : Owned A c bs fl)
    (hlive : (p, k) ∈ c.live) (h0 : n ≠ 0) (hn : n ≤ intMax)
    (hret : mmRealloc A fuel p n c.heap = some (q, h')) (hq : q ≠ 0) :
    ∀ i < min n k, h'.mem (q + i) = c.heap.mem (p + i) := by
  obtain ⟨b, hb, rfl, hroom⟩ := o.held_of_live hlive
  rcases WellFormed.mmRealloc_cases (o.ne_zero hlive) h0 hret with ⟨rfl, -⟩ | ⟨-, h₁, hm, rfl⟩
  · exact absurd rfl hq
  rcases o.heap.allocated (le_sizeMax hn) hm with ⟨rfl, -⟩ | ⟨a, bs₁, fl₁, w₁, ha⟩
  · exact absurd rfl hq
  obtain rfl : a.addr = q := ha.addr
  have haroom := ha.room
  have ha₁ : Held A bs₁ a := (ha.held a).mpr (Or.inl rfl)
  have hb₁ : Held A bs₁ b := (ha.held b).mpr (Or.inr hb)
  have hab : a ≠ b := (ha.ne_of_held hb).symm
  have hk : copySize h₁.mem b.addr n = min n b.size := by
    rw [copySize, w₁.rep.getSize_hdrp hb₁.mem]
    split <;> omega
  -- the old block is freed after the copy
  obtain ⟨bs₂, fl₂, w₂, -, -, hsame₂⟩ :=
    (w₁.copied (q := b.addr) ha₁ haroom (copySize_le h₁.mem b.addr n)).freed hb₁
  intro i hi
  calc (mmFree b.addr _).mem (a.addr + i)
      = copyBytes h₁.mem a.addr b.addr (copySize h₁.mem b.addr n) (a.addr + i) :=
        hsame₂ a ha₁ hab _ (by omega) (by omega)
    _ = h₁.mem (b.addr + i) := by
        rw [copyBytes, if_pos (by omega), Nat.add_sub_cancel_left]
    _ = c.heap.mem (b.addr + i) := ha.same b hb _ (by omega) (by omega)

end Owned

/-! ### Following a trace -/

/-- The requests of a client run that stand for those of a trace, and for each identifier the number
of the request that last returned its block. -/
structure Origins where
  requests : List Op
  origin : ℕ → ℕ

/-- One request more. -/
def Origins.add (t : Origins) : TraceOp → Origins
  | .alloc i n => ⟨t.requests ++ [.malloc n], Function.update t.origin i t.requests.length⟩
  | .realloc i n =>
    ⟨t.requests ++ [.realloc (t.origin i) n], Function.update t.origin i t.requests.length⟩
  | .free i => ⟨t.requests ++ [.free (t.origin i)], t.origin⟩

/-- The requests that stand for those of a trace. -/
def originsOf (ops : List TraceOp) : Origins := ops.foldl Origins.add ⟨[], fun _ => 0⟩

theorem originsOf_append (ops : List TraceOp) (op : TraceOp) :
    originsOf (ops ++ [op]) = (originsOf ops).add op := by
  rw [originsOf, List.foldl_append]
  rfl

theorem TraceRun.length_eq {A : Arena} {ops : List Op} {c : Client} {res : List ℕ}
    (hrun : TraceRun A ops c res) : res.length = ops.length := by
  induction hrun with
  | init h => rfl
  | call _ _ _ ih => simp [ih]
  | write _ _ ih => exact ih

/-- The blocks that the live identifiers name. -/
def liveBlocks (blocks : ℕ → ℕ) (ops : List TraceOp) : Live :=
  (namedBy ops).map fun e => (blocks e.1, e.2)

/-- After the requests `ops` a run of the client has the heap `h` and holds the blocks that the live
identifiers name in `blocks`. -/
structure Follows (A : Arena) (ops : List TraceOp) (h : Heap) (blocks : ℕ → ℕ) (res : List ℕ) :
    Prop where
  run : TraceRun A (originsOf ops).requests ⟨h, liveBlocks blocks ops⟩ res
  keys : ((namedBy ops).map Prod.fst).Nodup
  origin : ∀ e ∈ namedBy ops, (originsOf ops).origin e.1 < res.length ∧
    blocks e.1 = res.getD ((originsOf ops).origin e.1) 0

namespace Follows

variable {A : Arena} {ops : List TraceOp} {h h' : Heap} {blocks : ℕ → ℕ} {res : List ℕ}
  {i k n p fuel : ℕ}

theorem init (A : Arena) (h : Heap) (blocks : ℕ → ℕ) :
    Follows A [] (SystemProgramming.MallocLab.mmInit A (memResetBrk A h)).2 blocks [] :=
  ⟨.init h, List.nodup_nil, List.forall_mem_nil _⟩

theorem reachable (f : Follows A ops h blocks res) :
    (allocatorRuns A).Reachable ⟨h, liveBlocks blocks ops⟩ := f.run.reachable

theorem mem_live (he : (i, k) ∈ namedBy ops) : (blocks i, k) ∈ liveBlocks blocks ops :=
  List.mem_map_of_mem (f := fun e : ℕ × ℕ => (blocks e.1, e.2)) he

/-- Live identifiers name different blocks. -/
theorem blocks_inj (f : Follows A ops h blocks res) {e d : ℕ × ℕ} (he : e ∈ namedBy ops)
    (hd : d ∈ namedBy ops) (heq : blocks e.1 = blocks d.1) : e.1 = d.1 := by
  obtain ⟨bs, fl, o⟩ := reachable_owned f.reachable
  have hnd := o.nodup
  rw [liveBlocks, List.map_map] at hnd
  exact congrArg Prod.fst (List.inj_on_of_nodup_map hnd he hd heq)

/-- Giving back the block of an identifier. -/
theorem release_live (f : Follows A ops h blocks res) (he : (i, k) ∈ namedBy ops) :
    release (liveBlocks blocks ops) (blocks i) =
      (release (namedBy ops) i).map fun e => (blocks e.1, e.2) := by
  rw [liveBlocks, release, release, List.filter_map]
  refine congrArg _ (List.filter_congr fun e hmem => ?_)
  have hiff : blocks e.1 = blocks i ↔ e.1 = i :=
    ⟨fun heq => f.blocks_inj hmem he heq, fun heq => by rw [heq]⟩
  simp [hiff]

/-- A new block changes nothing for the other identifiers. -/
theorem map_update {l : List (ℕ × ℕ)} (hi : i ∉ l.map Prod.fst) (p : ℕ) :
    (l.map fun e => (Function.update blocks i p e.1, e.2)) = l.map fun e => (blocks e.1, e.2) := by
  refine List.map_congr_left fun e he => ?_
  have hne : e.1 ≠ i := fun heq => hi (heq ▸ List.mem_map_of_mem he)
  rw [Function.update_of_ne hne]

/-- The results of the earlier requests are still there. -/
theorem origin_append (f : Follows A ops h blocks res) {e : ℕ × ℕ} (he : e ∈ namedBy ops) (p : ℕ) :
    (originsOf ops).origin e.1 < (res ++ [p]).length ∧
      blocks e.1 = (res ++ [p]).getD ((originsOf ops).origin e.1) 0 := by
  obtain ⟨hlt, heq⟩ := f.origin e he
  rw [List.length_append, List.getD_append _ _ _ _ hlt]
  exact ⟨by omega, heq⟩

/-- The new block of an identifier, after the requests whose live identifiers are `l` besides. -/
theorem origin_update (f : Follows A ops h blocks res) {l : List (ℕ × ℕ)} (hl : l ⊆ namedBy ops)
    (hi : i ∉ l.map Prod.fst) (p : ℕ) : ∀ e ∈ (i, n) :: l,
      Function.update (originsOf ops).origin i (originsOf ops).requests.length e.1 <
          (res ++ [p]).length ∧
        Function.update blocks i p e.1 = (res ++ [p]).getD
          (Function.update (originsOf ops).origin i (originsOf ops).requests.length e.1) 0 := by
  have hlen := f.run.length_eq
  intro e he
  rcases List.mem_cons.mp he with rfl | he
  · rw [Function.update_self, Function.update_self, ← hlen, List.length_append]
    refine ⟨Nat.lt_succ_self _, ?_⟩
    rw [List.getD_append_right _ _ _ _ (le_refl _), Nat.sub_self]
    rfl
  · have hne : e.1 ≠ i := fun heq => hi (heq ▸ List.mem_map_of_mem he)
    rw [Function.update_of_ne hne, Function.update_of_ne hne]
    exact f.origin_append (hl he) p

/-- `mm_malloc` for a new identifier. -/
theorem alloc (f : Follows A ops h blocks res) (hi : i ∉ (namedBy ops).map Prod.fst)
    (hn : n ≤ intMax) (hret : mmMalloc A fuel n h = some (p, h')) (hp : p ≠ 0) :
    Follows A (ops ++ [.alloc i n]) h' (Function.update blocks i p) (res ++ [p]) := by
  have hlegal : (Request.malloc n).Legal (liveBlocks blocks ops) := hn
  have hrun := TraceRun.call (o := .malloc n) f.run hlegal hret
  have hset : (Request.malloc n).settle (liveBlocks blocks ops) p =
      liveBlocks (Function.update blocks i p) (ops ++ [.alloc i n]) := by
    rw [Request.settle, if_neg hp, liveBlocks, liveBlocks, namedBy_append, TraceOp.name,
      List.map_cons, Function.update_self, map_update hi]
  refine ⟨?_, ?_, ?_⟩
  · rw [originsOf_append, ← hset]
    exact hrun
  · rw [namedBy_append]
    exact List.nodup_cons.mpr ⟨hi, f.keys⟩
  · rw [namedBy_append, originsOf_append]
    exact f.origin_update (fun _ hmem => hmem) hi p

/-- `mm_realloc` of a live identifier. -/
theorem realloc (f : Follows A ops h blocks res) (he : (i, k) ∈ namedBy ops)
    (hn : n ≤ intMax) (hret : mmRealloc A fuel (blocks i) n h = some (p, h')) (hp : p ≠ 0) :
    Follows A (ops ++ [.realloc i n]) h' (Function.update blocks i p) (res ++ [p]) := by
  have hptr := (f.origin _ he).2
  have hlegal : (Op.request res (.realloc ((originsOf ops).origin i) n)).Legal
      (liveBlocks blocks ops) := by
    rw [Op.request, ← hptr]
    exact ⟨hn, Or.inr ⟨k, mem_live he⟩⟩
  have hserve : serve A fuel (Op.request res (.realloc ((originsOf ops).origin i) n)) h =
      some (p, h') := by
    rw [Op.request, ← hptr]
    exact hret
  have hrun := TraceRun.call f.run hlegal hserve
  have hset : (Op.request res (.realloc ((originsOf ops).origin i) n)).settle
      (liveBlocks blocks ops) p =
        liveBlocks (Function.update blocks i p) (ops ++ [.realloc i n]) := by
    rw [Op.request, ← hptr, Request.settle, if_pos hp, f.release_live he, liveBlocks,
      namedBy_append, TraceOp.name, List.map_cons, Function.update_self,
      map_update (key_notMem_release _ _)]
  refine ⟨?_, ?_, ?_⟩
  · rw [originsOf_append, ← hset]
    exact hrun
  · rw [namedBy_append]
    exact List.nodup_cons.mpr ⟨key_notMem_release _ _, release_nodup f.keys i⟩
  · rw [namedBy_append, originsOf_append]
    exact f.origin_update (fun _ hmem => List.mem_of_mem_filter hmem) (key_notMem_release _ _) p

/-- `mm_free` of a live identifier. -/
theorem free (f : Follows A ops h blocks res) (he : (i, k) ∈ namedBy ops) :
    Follows A (ops ++ [.free i]) (mmFree (blocks i) h) blocks (res ++ [0]) := by
  have hptr := (f.origin _ he).2
  have hlegal : (Op.request res (.free ((originsOf ops).origin i))).Legal
      (liveBlocks blocks ops) := by
    rw [Op.request, ← hptr]
    exact ⟨k, mem_live he⟩
  have hserve : serve A 0 (Op.request res (.free ((originsOf ops).origin i))) h =
      some (0, mmFree (blocks i) h) := by
    rw [Op.request, ← hptr]
    rfl
  have hrun := TraceRun.call f.run hlegal hserve
  have hset : (Op.request res (.free ((originsOf ops).origin i))).settle
      (liveBlocks blocks ops) 0 = liveBlocks blocks (ops ++ [.free i]) := by
    rw [Op.request, ← hptr, Request.settle, f.release_live he, liveBlocks, namedBy_append,
      TraceOp.name]
  refine ⟨?_, ?_, fun e hmem => ?_⟩
  · rw [originsOf_append, ← hset]
    exact hrun
  · rw [namedBy_append]
    exact release_nodup f.keys i
  · rw [namedBy_append] at hmem
    rw [originsOf_append]
    exact f.origin_append (List.mem_of_mem_filter hmem) 0

/-- Bytes written into the payload of a live identifier. -/
theorem memset (f : Follows A ops h blocks res) (he : (i, n) ∈ namedBy ops) (v : ℕ) :
    Follows A ops (h.memset (blocks i) v n) blocks res := by
  suffices hgen : ∀ m ≤ n, TraceRun A (originsOf ops).requests
      ⟨h.memset (blocks i) v m, liveBlocks blocks ops⟩ res from ⟨hgen n le_rfl, f.keys, f.origin⟩
  intro m
  induction m with
  | zero =>
    intro _
    have hsame : h.memset (blocks i) v 0 = h := by
      refine congrArg (fun mem => { h with mem := mem }) ?_
      funext a
      exact if_neg (by omega)
    rw [hsame]
    exact f.run
  | succ m ih =>
    intro hm
    have hwrite := TraceRun.write (ih (by omega))
      (.write (a := blocks i + m) (v := UInt8.ofNat v) (mem_live he) (by omega) (by omega))
    have hsame : { h.memset (blocks i) v m with
        mem := writeByte (h.memset (blocks i) v m).mem (blocks i + m) (UInt8.ofNat v) } =
          h.memset (blocks i) v (m + 1) := by
      refine congrArg (fun mem => { h with mem := mem }) ?_
      funext a
      simp only [writeByte, Heap.memset]
      grind
    rw [← hsame]
    exact hwrite

/-- What a call made in this state does to the client. -/
theorem served (f : Follows A ops h blocks res) {r : Request}
    (hlegal : r.Legal (liveBlocks blocks ops)) (hret : serve A fuel r h = some (p, h')) :
    Served A ⟨h, liveBlocks blocks ops⟩ r p h' := by
  obtain ⟨bs, fl, o⟩ := reachable_owned f.reachable
  exact (o.call hlegal hret).2

theorem served_free (f : Follows A ops h blocks res) (he : (i, k) ∈ namedBy ops) :
    Served A ⟨h, liveBlocks blocks ops⟩ (.free (blocks i)) 0 (mmFree (blocks i) h) := by
  have hret : serve A 0 (.free (blocks i)) h = some (0, mmFree (blocks i) h) := rfl
  exact f.served ⟨k, mem_live he⟩ hret

theorem ne_zero (f : Follows A ops h blocks res) (he : (i, k) ∈ namedBy ops) : blocks i ≠ 0 := by
  obtain ⟨bs, fl, o⟩ := reachable_owned f.reachable
  exact o.ne_zero (mem_live he)

/-- The payloads of two live identifiers have no byte in common. -/
theorem apart (f : Follows A ops h blocks res) {e d : ℕ × ℕ} (he : e ∈ namedBy ops)
    (hd : d ∈ namedBy ops) (hne : e.1 ≠ d.1) : (extent blocks e).Apart (extent blocks d) := by
  obtain ⟨bs, fl, o⟩ := reachable_owned f.reachable
  obtain ⟨a, ha, hae, haroom⟩ := o.held_of_live (mem_live (i := e.1) (k := e.2) he)
  obtain ⟨b, hb, hbd, hbroom⟩ := o.held_of_live (mem_live (i := d.1) (k := d.2) hd)
  have hepos := (o.room _ _ (mem_live (i := e.1) (k := e.2) he)).1
  have hdpos := (o.room _ _ (mem_live (i := d.1) (k := d.2) hd)).1
  have hab : a ≠ b := fun heq => hne (f.blocks_inj he hd (by rw [← hae, ← hbd, heq]))
  have := o.heap.payload_apart ha hb hab
  simp only [extent, payload, Range.Apart]
  omega

/-- **`mm_malloc` returns**, and `NULL` exactly for the size 0 and where there is no room. -/
theorem malloc_returns (f : Follows A ops h blocks res) (hfuel : maxHeap ≤ fuel) (n : ℕ) :
    ∃ p h', mmMalloc A fuel n h = some (p, h') ∧ (p = 0 ↔ n = 0 ∨ NoRoom A h n) := by
  obtain ⟨bs, fl, o⟩ := reachable_owned f.reachable
  have hlt := o.free_length_lt
  obtain ⟨⟨p, h'⟩, hret⟩ := Option.isSome_iff_exists.mp
    (o.heap.mmMalloc_terminates n (show fl.length < fuel by omega))
  refine ⟨p, h', hret, ?_⟩
  by_cases h0 : n = 0
  · rw [mmMalloc, if_pos h0, Option.some.injEq, Prod.mk.injEq] at hret
    simp [← hret.1, h0]
  · simp [(o.heap.mmMalloc_null h0 hret).1, h0]

/-- **`mm_realloc` of a live block returns**, and `NULL` in the same cases. -/
theorem realloc_returns (f : Follows A ops h blocks res) (hfuel : maxHeap ≤ fuel)
    (he : (i, k) ∈ namedBy ops) (n : ℕ) :
    ∃ p h', mmRealloc A fuel (blocks i) n h = some (p, h') ∧ (p = 0 ↔ n = 0 ∨ NoRoom A h n) := by
  obtain ⟨bs, fl, o⟩ := reachable_owned f.reachable
  have hlt := o.free_length_lt
  have hne := f.ne_zero he
  obtain ⟨⟨p, h'⟩, hret⟩ := Option.isSome_iff_exists.mp
    (o.heap.mmRealloc_terminates (blocks i) n (show fl.length < fuel by omega))
  refine ⟨p, h', hret, ?_⟩
  by_cases h0 : n = 0
  · rw [mmRealloc, if_neg hne, if_pos h0, Option.some.injEq, Prod.mk.injEq] at hret
    simp [← hret.1, h0]
  · simp [(o.heap.mmRealloc_null hne h0 hret).1, h0]

end Follows

end SystemProgramming.MallocLab
