import SystemProgramming.Library.Holdings
import SystemProgramming.Library.Transition
import SystemProgramming.MallocLab.Walks

/-!
# Runs of a client against the allocator

A client initialises the allocator on an empty heap and then calls `mm_malloc`, `mm_free` and
`mm_realloc` in any order, with writes into the payloads it holds in between.  A client state is the
heap together with the pointers the client holds and the sizes it asked for.

* `allocatorRuns` : the transition system of these runs.
* `Owned` : the invariant; the heap is well formed and the client's pointers are exactly the
  allocated blocks, each with room for the size asked for.
* `owned_step`, `reachable_owned` : one step and a whole run keep it.
* `client_safe`, `blockWalk_tiles_heap`, `freeWalk_free_blocks` : what every run gives the client,
  the block structure and the free list.
-/

namespace SystemProgramming.MallocLab

open ByteMemory Holdings LinkedList Transition

/-! ### The runs -/

/-- A call of the client. -/
inductive Request
  | malloc (size : ℕ)
  | free (ptr : ℕ)
  | realloc (ptr size : ℕ)
  deriving DecidableEq

/-- The call as the allocator executes it; `mm_free` returns nothing, here `NULL`. -/
def serve [P : PointerArith] (A : Arena) (fuel : ℕ) : Request → Heap → Option (ℕ × Heap)
  | .malloc size, h => mmMalloc A fuel size h
  | .free ptr, h => some (0, mmFree ptr h)
  | .realloc ptr size, h => mmRealloc A fuel ptr size h

/-- The blocks a client holds: the pointer it got and the size it asked for. -/
abbrev Live := List (ℕ × ℕ)

namespace Request

/-- The size of the block the call asks for. -/
def size : Request → ℕ
  | .malloc size => size
  | .free _ => 0
  | .realloc _ size => size

/-- The pointer handed back to the allocator. -/
def target : Request → ℕ
  | .malloc _ => 0
  | .free ptr => ptr
  | .realloc ptr _ => ptr

/-- The calls the driver makes: sizes up to `INT_MAX`, pointers that are live, or `NULL` for
`mm_realloc`. -/
def Legal (live : Live) : Request → Prop
  | .malloc size => size ≤ intMax
  | .free ptr => ∃ n, (ptr, n) ∈ live
  | .realloc ptr size => size ≤ intMax ∧ (ptr = 0 ∨ ∃ n, (ptr, n) ∈ live)

instance (live : Live) : DecidablePred (Legal live)
  | .malloc _ => inferInstanceAs (Decidable (_ ≤ _))
  | .free ptr => decidable_of_iff (ptr ∈ live.map Prod.fst) (by simp [Legal])
  | .realloc ptr size =>
    decidable_of_iff (size ≤ intMax ∧ (ptr = 0 ∨ ptr ∈ live.map Prod.fst)) (by simp [Legal])

/-- What the client holds after the call has returned `p`. -/
def settle (live : Live) (p : ℕ) : Request → Live
  | .malloc size => if p = 0 then live else (p, size) :: live
  | .free ptr => release live ptr
  | .realloc ptr size =>
    if p ≠ 0 then (p, size) :: release live ptr
    else if size = 0 then release live ptr else live

end Request

/-- The heap and what the client holds of it. -/
structure Client where
  heap : Heap
  live : Live

/-- A call, or a byte the client writes. -/
inductive Action
  | call (r : Request)
  | write (a : ℕ) (v : UInt8)

/-- One step of the client. -/
inductive Step [P : PointerArith] (A : Arena) : Client → Action → Client → Prop
  | call {c : Client} {r : Request} {fuel p : ℕ} {h' : Heap} (hlegal : r.Legal c.live)
      (hserve : serve A fuel r c.heap = some (p, h')) :
      Step A c (.call r) ⟨h', r.settle c.live p⟩
  | write {c : Client} {p n a : ℕ} {v : UInt8} (hlive : (p, n) ∈ c.live) (hlo : p ≤ a)
      (hhi : a < p + n) :
      Step A c (.write a v) ⟨{ c.heap with mem := writeByte c.heap.mem a v }, c.live⟩

/-- The step as a function, with at most `fuel` iterations of `find_fit`. -/
def Client.act [P : PointerArith] (A : Arena) (fuel : ℕ) (c : Client) : Action → Option Client
  | .call r =>
    if r.Legal c.live then (serve A fuel r c.heap).map fun x => ⟨x.2, r.settle c.live x.1⟩ else none
  | .write a v =>
    if ∃ e ∈ c.live, e.1 ≤ a ∧ a < e.1 + e.2 then
      some ⟨{ c.heap with mem := writeByte c.heap.mem a v }, c.live⟩
    else none

theorem Client.step_of_act [P : PointerArith] {A : Arena} {fuel : ℕ} {c c' : Client} {act : Action}
    (h : c.act A fuel act = some c') : Step A c act c' := by
  cases act with
  | call r =>
    rw [Client.act] at h
    split at h
    · next hlegal =>
      obtain ⟨⟨p, h'⟩, hserve, rfl⟩ := Option.map_eq_some_iff.mp h
      exact .call hlegal hserve
    · cases h
  | write a v =>
    rw [Client.act] at h
    split at h
    · next hin =>
      obtain ⟨⟨p, n⟩, hlive, hlo, hhi⟩ := hin
      cases h
      exact .write hlive hlo hhi
    · cases h

/-- The runs that follow a successful `mm_init` on a reset break. -/
def allocatorRuns [P : PointerArith] (A : Arena) : System Client Action where
  init c := c.live = [] ∧ ∃ h, h.memBrk = A.memStartBrk ∧ mmInit A h = (0, c.heap)
  step := Step A

/-! ### The invariant -/

/-- The heap is well formed, and what the client holds is what is allocated. -/
structure Owned (A : Arena) (c : Client) (bs : List Block) (fl : List ℕ) : Prop where
  heap : WellFormed A c.heap bs fl
  room : ∀ p n, (p, n) ∈ c.live → 0 < n ∧ ∃ b, Held A bs b ∧ b.addr = p ∧ n + 8 ≤ b.size
  live : ∀ b, Held A bs b → ∃ n, (b.addr, n) ∈ c.live
  nodup : (c.live.map Prod.fst).Nodup

namespace Owned

variable {A : Arena} {c : Client} {bs : List Block} {fl : List ℕ} {p n : ℕ} {h' : Heap}

/-- A live pointer is the address of an allocated block. -/
theorem held_of_live (o : Owned A c bs fl) (hlive : (p, n) ∈ c.live) :
    ∃ b, Held A bs b ∧ b.addr = p ∧ n + 8 ≤ b.size := (o.room p n hlive).2

theorem ne_zero (o : Owned A c bs fl) (hlive : (p, n) ∈ c.live) : p ≠ 0 := by
  obtain ⟨b, hb, rfl, _⟩ := o.held_of_live hlive
  have := o.heap.rep.bounds hb.mem
  omega

/-- A heap with the same held blocks serves the same client. -/
theorem of_held {bs' : List Block} {fl' : List ℕ} (o : Owned A c bs fl)
    (w : WellFormed A h' bs' fl') (hheld : ∀ b, Held A bs' b ↔ Held A bs b) :
    Owned A ⟨h', c.live⟩ bs' fl' := by
  refine ⟨w, fun p n hlive => ?_, fun b hb => o.live b ((hheld b).mp hb), o.nodup⟩
  obtain ⟨h0, b, hb, hrest⟩ := o.room p n hlive
  exact ⟨h0, b, (hheld b).mpr hb, hrest⟩

/-- Releasing the block at a live pointer. -/
theorem released {bs' : List Block} {fl' : List ℕ} {b : Block} (o : Owned A c bs fl)
    (hb : Held A bs b) (w : WellFormed A h' bs' fl')
    (hheld : ∀ d, Held A bs' d ↔ Held A bs d ∧ d ≠ b) :
    Owned A ⟨h', release c.live b.addr⟩ bs' fl' := by
  have haddr : ∀ d, Held A bs d → d.addr = b.addr → d = b := fun d hd he =>
    o.heap.rep.tiles.eq_of_addr hd.mem hb.mem he
  refine ⟨w, fun p n hlive => ?_, fun d hd => ?_, release_nodup o.nodup _⟩
  · obtain ⟨hmem, hne⟩ := mem_release.mp hlive
    obtain ⟨h0, d, hd, hp, hroom⟩ := o.room p n hmem
    refine ⟨h0, d, (hheld d).mpr ⟨hd, fun he => hne ?_⟩, hp, hroom⟩
    rw [← hp, he]
  · obtain ⟨hd', hne⟩ := (hheld d).mp hd
    obtain ⟨n, hn⟩ := o.live d hd'
    exact ⟨n, mem_release.mpr ⟨hn, fun he => hne (haddr d hd' he)⟩⟩

/-- Taking over a new block. -/
theorem acquired {bs' : List Block} {fl' : List ℕ} {a : Block} (o : Owned A c bs fl)
    (w : WellFormed A h' bs' fl') (hpos : 0 < n) (hroom : n + 8 ≤ a.size)
    (hheld : ∀ d, Held A bs' d ↔ d = a ∨ Held A bs d) (hfresh : ¬ Held A bs a) :
    Owned A ⟨h', (a.addr, n) :: c.live⟩ bs' fl' := by
  have ha : Held A bs' a := (hheld a).mpr (Or.inl rfl)
  refine ⟨w, fun p k hlive => ?_, fun d hd => ?_, ?_⟩
  · rcases List.mem_cons.mp hlive with he | hlive
    · cases he
      exact ⟨hpos, a, ha, rfl, hroom⟩
    · obtain ⟨h0, d, hd, hrest⟩ := o.room p k hlive
      exact ⟨h0, d, (hheld d).mpr (Or.inr hd), hrest⟩
  · rcases (hheld d).mp hd with rfl | hd
    · exact ⟨n, List.mem_cons_self⟩
    · obtain ⟨k, hk⟩ := o.live d hd
      exact ⟨k, List.mem_cons_of_mem _ hk⟩
  · rw [List.map_cons, List.nodup_cons]
    refine ⟨fun hin => ?_, o.nodup⟩
    obtain ⟨⟨p, k⟩, hmem, rfl⟩ := List.mem_map.mp hin
    obtain ⟨d, hd, he, _⟩ := o.held_of_live hmem
    have := w.rep.tiles.eq_of_addr ((hheld d).mpr (Or.inr hd)).mem ha.mem he
    exact hfresh (this ▸ hd)

end Owned

/-! ### One step -/

/-- What a call that returns `p` promises the client. -/
structure Served (A : Arena) (c : Client) (r : Request) (p : ℕ) (h' : Heap) : Prop where
  brk : c.heap.memBrk ≤ h'.memBrk
  aligned : p ≠ 0 → p % 8 = 0
  inside : p ≠ 0 → A.memStartBrk ≤ p ∧ p + r.size ≤ h'.memBrk
  apart : p ≠ 0 → ∀ q n, (q, n) ∈ c.live → p + r.size ≤ q ∨ q + n ≤ p
  kept : ∀ q n, (q, n) ∈ c.live → q ≠ r.target →
    ∀ a, q ≤ a → a < q + n → h'.mem a = c.heap.mem a

namespace Owned

variable {A : Arena} {c : Client} {bs bs' : List Block} {fl fl' : List ℕ} {p n : ℕ} {h' : Heap}

/-- A call that changes nothing and returns `NULL`. -/
theorem served_refl (r : Request) : Served A c r 0 c.heap :=
  ⟨le_rfl, fun h => absurd rfl h, fun h => absurd rfl h, fun h => absurd rfl h,
    fun _ _ _ _ _ _ _ => rfl⟩

/-- The payload of a live pointer survives where its block's payload does. -/
theorem kept_of_same (o : Owned A c bs fl) {P : Block → Prop}
    (hsame : ∀ b, Held A bs b → P b → SamePayload c.heap h' b) {q k : ℕ} (hlive : (q, k) ∈ c.live)
    (hP : ∀ b, Held A bs b → b.addr = q → P b) :
    ∀ a, q ≤ a → a < q + k → h'.mem a = c.heap.mem a := by
  obtain ⟨b, hb, he, hroom⟩ := o.held_of_live hlive
  intro a h1 h2
  exact hsame b hb (hP b hb he) a (by omega) (by omega)

/-- A new block serves the client. -/
theorem served_of_allocates {a : Block} (o : Owned A c bs fl) (w : WellFormed A h' bs' fl')
    (ha : WellFormed.Allocates A c.heap h' bs bs' n p a) {r : Request} (hr : r.size = n) :
    Served A c r p h' := by
  have haddr := ha.addr
  have hroom := ha.room
  have hin : Held A bs' a := (ha.held a).mpr (Or.inl rfl)
  have hb := w.rep.bounds hin.mem
  refine ⟨ha.brk, fun _ => ?_, fun _ => by omega, fun _ q k hlive => ?_, fun q k hlive _ => ?_⟩
  · rw [← haddr]
    exact w.rep.addr_mod hin.mem
  · obtain ⟨d, hd, he, hdroom⟩ := o.held_of_live hlive
    have hne : a ≠ d := (ha.ne_of_held hd).symm
    have := w.payload_apart hin ((ha.held d).mpr (Or.inr hd)) hne
    omega
  · exact o.kept_of_same (P := fun _ => True) (fun b hb _ => ha.same b hb) hlive
      fun _ _ _ => trivial

/-- `mm_free` of a live pointer. -/
theorem freed (o : Owned A c bs fl) (hlive : (p, n) ∈ c.live) :
    (∃ bs' fl', Owned A ⟨mmFree p c.heap, release c.live p⟩ bs' fl') ∧
      (mmFree p c.heap).memBrk = c.heap.memBrk ∧
      ∀ q k, (q, k) ∈ c.live → q ≠ p →
        ∀ a, q ≤ a → a < q + k → (mmFree p c.heap).mem a = c.heap.mem a := by
  obtain ⟨b, hb, rfl, _⟩ := o.held_of_live hlive
  obtain ⟨bs', fl', w', hheld, hbrk, hsame⟩ := o.heap.freed hb
  refine ⟨⟨bs', fl', o.released hb w' hheld⟩, hbrk, fun q k hq hne => ?_⟩
  exact o.kept_of_same hsame hq fun d _ he hdb => hne (by rw [← he, hdb])

/-- **A call.**  It keeps the invariant and serves the client. -/
theorem call {r : Request} {fuel : ℕ} (o : Owned A c bs fl) (hlegal : r.Legal c.live)
    (hserve : serve A fuel r c.heap = some (p, h')) :
    (∃ bs' fl', Owned A ⟨h', r.settle c.live p⟩ bs' fl') ∧ Served A c r p h' := by
  have hmalloc : ∀ n, n ≤ intMax → mmMalloc A fuel n c.heap = some (p, h') →
      (∃ bs' fl', Owned A ⟨h', (Request.malloc n).settle c.live p⟩ bs' fl') ∧
        ∀ r : Request, r.size = n → Served A c r p h' := by
    intro n hn hret
    rcases o.heap.allocated (le_sizeMax hn) hret with ⟨rfl, rfl⟩ | ⟨a, bs', fl', w', ha⟩
    · exact ⟨⟨bs, fl, o⟩, fun r _ => served_refl r⟩
    · have hin : Held A bs' a := (ha.held a).mpr (Or.inl rfl)
      have hp : p ≠ 0 := by
        have := w'.rep.bounds hin.mem
        have := ha.addr
        omega
      have o' := o.acquired w' ha.pos ha.room ha.held ha.fresh
      rw [ha.addr] at o'
      rw [Request.settle, if_neg hp]
      exact ⟨⟨bs', fl', o'⟩, fun r hr => o.served_of_allocates w' ha hr⟩
  cases r with
  | malloc n => exact ⟨(hmalloc n hlegal hserve).1, (hmalloc n hlegal hserve).2 _ rfl⟩
  | free ptr =>
    obtain ⟨n, hlive⟩ := hlegal
    simp only [serve, Option.some.injEq, Prod.mk.injEq] at hserve
    obtain ⟨rfl, rfl⟩ := hserve
    obtain ⟨ho, hbrk, hkept⟩ := o.freed hlive
    exact ⟨ho, hbrk.ge, fun h => absurd rfl h, fun h => absurd rfl h, fun h => absurd rfl h,
      hkept⟩
  | realloc ptr n =>
    obtain ⟨hn, hptr⟩ := hlegal
    simp only [serve] at hserve
    by_cases h0 : ptr = 0
    · -- `NULL`: an allocation
      subst h0
      rw [mmRealloc, if_pos rfl] at hserve
      have hrel : release c.live 0 = c.live := by
        apply release_of_notMem
        intro hin
        obtain ⟨e, he, h0⟩ := List.mem_map.mp hin
        exact o.ne_zero (n := e.2) he h0
      obtain ⟨ho, hs⟩ := hmalloc n hn hserve
      refine ⟨?_, hs _ rfl⟩
      simpa [Request.settle, hrel] using ho
    · obtain ⟨k, hlive⟩ := hptr.resolve_left h0
      by_cases hn0 : n = 0
      · -- size 0: a free
        subst hn0
        rw [mmRealloc, if_neg h0, if_pos rfl, Option.some.injEq, Prod.mk.injEq] at hserve
        obtain ⟨rfl, rfl⟩ := hserve
        obtain ⟨ho, hbrk, hkept⟩ := o.freed hlive
        exact ⟨ho, hbrk.ge, fun h => absurd rfl h, fun h => absurd rfl h,
          fun h => absurd rfl h, hkept⟩
      · obtain ⟨b, hb, rfl, _⟩ := o.held_of_live hlive
        rcases o.heap.reallocated hb hn0 hn hserve with ⟨rfl, rfl⟩ | ⟨a, h₂, bs₂, fl₂, w₂, ha, rfl⟩
        · refine ⟨⟨bs, fl, ?_⟩, served_refl _⟩
          simpa [Request.settle, hn0] using o
        · -- an allocation, then a free of the old block in the client that holds both
          have o₂ := o.acquired w₂ ha.pos ha.room ha.held ha.fresh
          have hs₂ := o.served_of_allocates w₂ ha (r := .realloc b.addr n) rfl
          have hlive₂ : (b.addr, k) ∈ (a.addr, n) :: c.live := List.mem_cons_of_mem _ hlive
          obtain ⟨ho, hbrk, hkept⟩ := o₂.freed hlive₂
          have hap := ha.addr
          have hpb : p ≠ b.addr := ha.ne_addr w₂ hb
          have hp : p ≠ 0 := by
            rw [← hap]
            exact o₂.ne_zero List.mem_cons_self
          have hset : (Request.realloc b.addr n).settle c.live p =
              release ((a.addr, n) :: c.live) b.addr := by
            rw [Request.settle, if_pos hp, hap]
            exact (List.filter_cons_of_pos (by simpa using hpb)).symm
          rw [hset]
          refine ⟨ho, hs₂.brk.trans hbrk.ge, hs₂.aligned, fun h => ?_, hs₂.apart,
            fun q i hq hne x h1 h2 => ?_⟩
          · exact ⟨(hs₂.inside h).1, (hs₂.inside h).2.trans hbrk.ge⟩
          · exact (hkept q i (List.mem_cons_of_mem _ hq) hne x h1 h2).trans
              (hs₂.kept q i hq hne x h1 h2)

end Owned

/-- **The step lemma.** -/
theorem owned_step {A : Arena} {c c' : Client} {act : Action} {bs : List Block} {fl : List ℕ}
    (o : Owned A c bs fl) (hstep : Step A c act c') : ∃ bs' fl', Owned A c' bs' fl' := by
  cases hstep with
  | call hlegal hserve => exact (o.call hlegal hserve).1
  | @write p n a v hlive hlo hhi =>
    obtain ⟨b, hb, rfl, hroom⟩ := o.held_of_live hlive
    refine ⟨bs, fl, o.of_held (o.heap.write hb (fun x hx => ?_) rfl rfl rfl) fun _ => Iff.rfl⟩
    exact writeByte_outside _ _ (by omega)

/-- **The run lemma.** -/
theorem reachable_owned {A : Arena} {c : Client} (hc : (allocatorRuns A).Reachable c) :
    ∃ bs fl, Owned A c bs fl := by
  refine hc.invariant (P := fun c => ∃ bs fl, Owned A c bs fl) ?_ ?_
  · rintro c ⟨hlive, h, hreset, hinit⟩
    obtain ⟨h', heq, _, hw⟩ := mmInit_eq A h hreset
    obtain rfl : h' = c.heap := (Prod.mk.inj (heq.symm.trans hinit)).2
    refine ⟨_, _, hw, fun p n hin => ?_, fun b hb => absurd hb not_held_init, ?_⟩
    · rw [hlive] at hin
      cases hin
    · rw [hlive]
      exact List.nodup_nil
  · rintro c act c' ⟨bs, fl, o⟩ hstep
    exact owned_step o hstep

/-- Zeroed storage and an empty heap. -/
def Arena.zeroed (A : Arena) : Heap := ⟨fun _ => 0, A.memStartBrk, 0, 0⟩

/-- The client that has just initialised the allocator over zeroed storage. -/
def freshClient (A : Arena) : Client := ⟨(mmInit A A.zeroed).2, []⟩

theorem freshClient_reachable (A : Arena) : (allocatorRuns A).Reachable (freshClient A) := by
  obtain ⟨h', heq, _⟩ := mmInit_eq A A.zeroed rfl
  refine .init ⟨rfl, A.zeroed, rfl, ?_⟩
  rw [freshClient, heq]

/-- The first block a client gets is the start of the free block that `mm_init` made. -/
theorem one_block_reachable (A : Arena) {n : ℕ} (h0 : n ≠ 0) (hn : adjust n ≤ chunksize)
    (hmax : n ≤ intMax) :
    ∃ h, (allocatorRuns A).Reachable ⟨h, [(A.firstBlock.addr, n)]⟩ ∧
      h.memBrk = A.memStartBrk + 24 + chunksize := by
  obtain ⟨h₀, heq, hbrk, w⟩ := mmInit_eq A A.zeroed rfl
  have hheap : (freshClient A).heap = h₀ := by rw [freshClient, heq]
  have hfirst : A.firstBlock ∈ [A.prologue, A.firstBlock] := by simp
  obtain ⟨⟨p, h'⟩, hret⟩ := Option.isSome_iff_exists.mp (w.mmMalloc_terminates n (Nat.lt_succ_self 1))
  have hp : p = A.firstBlock.addr ∧ h'.memBrk = h₀.memBrk := by
    rcases w.mmMalloc_cases h0 hret with ⟨d, hd, -, hfree, -, rfl, rfl⟩ | ⟨hnone, -⟩
    · rcases List.mem_pair.mp hd with rfl | rfl
      · cases hfree
      · obtain ⟨hmod, hge, -, -⟩ := WellFormed.adjust_spec h0 (le_sizeMax hmax)
        obtain ⟨parts, new, hparts⟩ := exists_placed (b := A.firstBlock) hmod hge hn
        have w' : WellFormed A h₀ ([A.prologue] ++ A.firstBlock :: []) [A.firstBlock.addr] := w
        exact ⟨rfl, (w'.placed rfl hparts).2.1⟩
    · rcases w.rep.firstFit_spec (adjust n) with ⟨d, hd, he, -⟩ | ⟨-, hlt⟩
      · have := w.rep.bounds hd
        omega
      · exact absurd hn (not_le.mpr (hlt A.firstBlock hfirst List.mem_cons_self))
  obtain ⟨hp, hbrk'⟩ := hp
  have hne : p ≠ 0 := by
    have := w.rep.bounds hfirst
    omega
  rw [← hheap] at hret
  have hstep := (freshClient_reachable A).step (.call (r := .malloc n) hmax hret)
  rw [Request.settle, if_neg hne, hp] at hstep
  exact ⟨h', hstep, hbrk'.trans hbrk⟩

/-- The arena that starts at the first aligned address after `NULL`. -/
def lowArena : Arena := ⟨8, 20971528, rfl, rfl, by decide⟩

/-- A client of three blocks that has written into two of them and freed the third, which lies between
them. -/
def holedClient : Client :=
  ([Action.call (.malloc 100), .call (.malloc 200), .call (.malloc 300), .write 32 7, .write 500 9,
    .call (.free 144)].foldlM (Client.act lowArena 4) (freshClient lowArena)).get (by decide +kernel)

theorem holedClient_reachable : (allocatorRuns lowArena).Reachable holedClient :=
  (freshClient_reachable lowArena).of_foldlM (fun _ _ _ => Client.step_of_act) (Option.some_get _).symm

theorem holedClient_live : holedClient.live = [(352, 300), (32, 100)] := by decide +kernel

/-! ### What the client is promised -/

/-- With enough iterations of `find_fit`, every call returns. -/
theorem serve_terminates {A : Arena} {c : Client} (hc : (allocatorRuns A).Reachable c)
    (r : Request) : ∃ fuel, (serve A fuel r c.heap).isSome := by
  obtain ⟨bs, fl, o⟩ := reachable_owned hc
  refine ⟨fl.length + 1, ?_⟩
  cases r with
  | malloc n => exact o.heap.mmMalloc_terminates n (Nat.lt_succ_self _)
  | free ptr => rfl
  | realloc ptr n => exact o.heap.mmRealloc_terminates ptr n (Nat.lt_succ_self _)

/-- **Memory safety for the client.**  In every reachable state the live payloads are aligned, lie
inside the heap and do not overlap.  A call that returns a block returns an aligned one inside the
heap that overlaps no live payload, and no call changes a byte of a live payload other than the one
handed back to it. -/
theorem client_safe (A : Arena) (c : Client) (hc : (allocatorRuns A).Reachable c) :
    (∀ p n, (p, n) ∈ c.live → p % 8 = 0 ∧ A.memStartBrk ≤ p ∧ p + n ≤ c.heap.memBrk) ∧
      (c.live.Pairwise fun e f => e.1 + e.2 ≤ f.1 ∨ f.1 + f.2 ≤ e.1) ∧
      ∀ (r : Request) (fuel p : ℕ) (h' : Heap), r.Legal c.live →
        serve A fuel r c.heap = some (p, h') →
          (p ≠ 0 → p % 8 = 0 ∧ (A.memStartBrk ≤ p ∧ p + r.size ≤ h'.memBrk) ∧
            ∀ q n, (q, n) ∈ c.live → p + r.size ≤ q ∨ q + n ≤ p) ∧
          ∀ q n, (q, n) ∈ c.live → q ≠ r.target →
            ∀ a, q ≤ a → a < q + n → h'.mem a = c.heap.mem a := by
  obtain ⟨bs, fl, o⟩ := reachable_owned hc
  refine ⟨fun p n hlive => ?_, ?_, fun r fuel p h' hlegal hserve => ?_⟩
  · obtain ⟨b, hb, rfl, hroom⟩ := o.held_of_live hlive
    have := o.heap.rep.bounds hb.mem
    exact ⟨o.heap.rep.addr_mod hb.mem, by omega, by omega⟩
  · refine (List.pairwise_map.mp o.nodup).imp_of_mem fun {e f} he hf hne => ?_
    obtain ⟨a, ha, hae, haroom⟩ := o.held_of_live (n := e.2) he
    obtain ⟨b, hb, hbf, hbroom⟩ := o.held_of_live (n := f.2) hf
    have hab : a ≠ b := fun h => hne (by rw [← hae, ← hbf, h])
    have := o.heap.payload_apart ha hb hab
    omega
  · have hs := (o.call hlegal hserve).2
    exact ⟨fun hp => ⟨hs.aligned hp, hs.inside hp, hs.apart hp⟩, hs.kept⟩

/-- 150 bytes for the client that holds 100 and 300. -/
theorem client_safe_holed : holedClient.live = [(352, 300), (32, 100)] ∧
    ∃ p h', serve lowArena 4 (.malloc 150) holedClient.heap = some (p, h') ∧ p ≠ 0 ∧ p % 8 = 0 ∧
      p + 150 ≤ h'.memBrk ∧ (p + 150 ≤ 32 ∨ 132 ≤ p) ∧ (p + 150 ≤ 352 ∨ 652 ≤ p) ∧
      (∀ a, 32 ≤ a → a < 132 → h'.mem a = holedClient.heap.mem a) ∧
      ∀ a, 352 ≤ a → a < 652 → h'.mem a = holedClient.heap.mem a := by
  have hret : (serve lowArena 4 (.malloc 150) holedClient.heap).map Prod.fst = some 144 := by
    decide +kernel
  obtain ⟨⟨p, h'⟩, hserve, rfl⟩ := Option.map_eq_some_iff.mp hret
  have hlegal : (Request.malloc 150).Legal holedClient.live := by
    show 150 ≤ intMax
    decide
  obtain ⟨hnew, hkept⟩ :=
    (client_safe lowArena holedClient holedClient_reachable).2.2 _ _ _ _ hlegal hserve
  obtain ⟨hmod, hin, hapart⟩ := hnew (by decide)
  have hfirst : (32, 100) ∈ holedClient.live := by rw [holedClient_live]; simp
  have hlast : (352, 300) ∈ holedClient.live := by rw [holedClient_live]; simp
  exact ⟨holedClient_live, 144, h', hserve, by decide, hmod, hin.2, hapart _ _ hfirst, hapart _ _ hlast,
    hkept _ _ hfirst (by decide), hkept _ _ hlast (by decide)⟩

/-! ### The block structure of every reachable heap -/

/-- **The block walk tiles the heap.**  From the prologue `NEXT_BLKP` leads through finitely many
blocks to the epilogue header in the last word before the break. -/
theorem blockWalk_tiles_heap (A : Arena) (c : Client) (hc : (allocatorRuns A).Reachable c) :
    ∃ fuel walk, blockWalk c.heap.mem fuel c.heap.heapListp = some (walk, c.heap.memBrk) ∧
      walk.head? = some A.prologue.addr ∧
      A.prologue.addr + (walk.map fun bp => getSize c.heap.mem (hdrp bp)).sum = c.heap.memBrk ∧
      (getSize c.heap.mem (hdrp c.heap.memBrk) = 0 ∧
        getAlloc c.heap.mem (hdrp c.heap.memBrk) = 1) ∧
      (∀ bp ∈ walk.tail, getSize c.heap.mem (hdrp bp) % 8 = 0 ∧
        16 ≤ getSize c.heap.mem (hdrp bp)) ∧
      (∀ bp ∈ walk, get c.heap.mem (hdrp bp) = get c.heap.mem (ftrp c.heap.mem bp)) ∧
      walk.IsChain fun x y => y = nextBlkp c.heap.mem x ∧
        (getAlloc c.heap.mem (hdrp x) ≠ 0 ∨ getAlloc c.heap.mem (hdrp y) ≠ 0) := by
  obtain ⟨bs, fl, o⟩ := reachable_owned hc
  have r := o.heap.rep
  have hsize : ∀ b ∈ bs, getSize c.heap.mem (hdrp b.addr) = b.size := fun b hb => r.getSize_hdrp hb
  refine ⟨bs.length + 1, bs.map Block.addr, ?_, ?_, ?_, ⟨r.getSize_epilogue, r.getAlloc_epilogue⟩,
    fun bp hbp => ?_, fun bp hbp => ?_, ?_⟩
  · rw [o.heap.listp]
    exact r.blockWalk_eq (Nat.lt_succ_self _)
  · rw [List.head?_map, r.prologue, Option.map_some]
  · have hsizes : bs.map ((fun bp => getSize c.heap.mem (hdrp bp)) ∘ Block.addr) =
        bs.map Block.size := List.map_congr_left hsize
    rw [List.map_map, hsizes]
    exact r.tiles.sum_size
  · obtain ⟨b, hb, rfl⟩ := List.mem_map.mp (List.mem_of_mem_tail hbp)
    rw [hsize b hb]
    exact ⟨b.size_mod, b.size_ge⟩
  · obtain ⟨b, hb, rfl⟩ := List.mem_map.mp hbp
    rw [r.ftrp_eq hb]
    exact (r.tagged b hb).1.trans (r.tagged b hb).2.symm
  · rw [List.isChain_map]
    refine List.IsChain.imp_of_mem_imp (fun x y hx hy hxy => ?_)
      (r.tiles.coalesced_isChain o.heap.coalesced)
    rw [r.nextBlkp_eq hx, r.getAlloc_hdrp hx, r.getAlloc_hdrp hy]
    refine ⟨hxy.1.symm, hxy.2.imp (fun h => ?_) fun h => ?_⟩ <;> simp [h]

/-- Prologue, live, free, live, and the free rest. -/
theorem blockWalk_tiles_heap_holed : holedClient.live = [(352, 300), (32, 100)] ∧
    ∃ fuel walk, blockWalk holedClient.heap.mem fuel holedClient.heap.heapListp =
        some (walk, holedClient.heap.memBrk) ∧
      walk.head? = some lowArena.prologue.addr ∧
      lowArena.prologue.addr + (walk.map fun bp => getSize holedClient.heap.mem (hdrp bp)).sum =
        holedClient.heap.memBrk ∧
      (getSize holedClient.heap.mem (hdrp holedClient.heap.memBrk) = 0 ∧
        getAlloc holedClient.heap.mem (hdrp holedClient.heap.memBrk) = 1) ∧
      (∀ bp ∈ walk.tail, getSize holedClient.heap.mem (hdrp bp) % 8 = 0 ∧
        16 ≤ getSize holedClient.heap.mem (hdrp bp)) ∧
      (∀ bp ∈ walk, get holedClient.heap.mem (hdrp bp) =
        get holedClient.heap.mem (ftrp holedClient.heap.mem bp)) ∧
      walk.IsChain fun x y => y = nextBlkp holedClient.heap.mem x ∧
        (getAlloc holedClient.heap.mem (hdrp x) ≠ 0 ∨ getAlloc holedClient.heap.mem (hdrp y) ≠ 0) :=
  ⟨holedClient_live, blockWalk_tiles_heap lowArena holedClient holedClient_reachable⟩

/-! ### The free list of every reachable heap -/

/-- **The free list.**  It is acyclic and ends at the prologue, its nodes before the prologue are the
free blocks of the block walk, the back pointers are the predecessors, and so `find_fit` returns. -/
theorem freeWalk_free_blocks (A : Arena) (c : Client) (hc : (allocatorRuns A).Reachable c) :
    ∃ fuel nodes walk,
      freeWalk c.heap.mem fuel c.heap.freelistHead = some (nodes, A.prologue.addr) ∧
      blockWalk c.heap.mem fuel c.heap.heapListp = some (walk, c.heap.memBrk) ∧
      (nodes ++ [A.prologue.addr]).Nodup ∧
      (∀ bp, bp ∈ nodes ↔ bp ∈ walk ∧ getAlloc c.heap.mem (hdrp bp) = 0) ∧
      (nodes ++ [A.prologue.addr]).map (prevFreeBlkp c.heap.mem) = 0 :: nodes ∧
      ∀ size, ∃ fuel, (findFit fuel size c.heap).isSome := by
  obtain ⟨bs, fl, o⟩ := reachable_owned hc
  have r := o.heap.rep
  refine ⟨bs.length + fl.length + 1, fl, bs.map Block.addr, r.freeWalk_eq (by omega), ?_,
    r.nodes_nodup, fun bp => ⟨fun hbp => ?_, ?_⟩, ?_, fun size => ?_⟩
  · rw [o.heap.listp]
    exact r.blockWalk_eq (by omega)
  · obtain ⟨b, hb, rfl, hfree⟩ := r.free bp hbp
    refine ⟨List.mem_map_of_mem hb, ?_⟩
    rw [r.getAlloc_hdrp hb, hfree]
    rfl
  · rintro ⟨hbp, hzero⟩
    obtain ⟨b, hb, rfl⟩ := List.mem_map.mp hbp
    rw [r.getAlloc_hdrp hb] at hzero
    exact o.heap.listed b hb (by simpa using hzero)
  · exact prevFreeBlkp_map r.links fun x hx => (r.node_pos (List.mem_append_left _ hx)).1
  · refine ⟨fl.length + 1, ?_⟩
    rw [r.findFit_eq size (Nat.lt_succ_self _)]
    rfl

/-- The hole and the free rest. -/
theorem freeWalk_free_blocks_holed :
    freeWalk holedClient.heap.mem 3 holedClient.heap.freelistHead = some ([144, 664], 16) ∧
      ∃ fuel nodes walk,
        freeWalk holedClient.heap.mem fuel holedClient.heap.freelistHead =
          some (nodes, lowArena.prologue.addr) ∧
        blockWalk holedClient.heap.mem fuel holedClient.heap.heapListp =
          some (walk, holedClient.heap.memBrk) ∧
        (nodes ++ [lowArena.prologue.addr]).Nodup ∧
        (∀ bp, bp ∈ nodes ↔ bp ∈ walk ∧ getAlloc holedClient.heap.mem (hdrp bp) = 0) ∧
        (nodes ++ [lowArena.prologue.addr]).map (prevFreeBlkp holedClient.heap.mem) = 0 :: nodes ∧
        ∀ size, ∃ fuel, (findFit fuel size holedClient.heap).isSome :=
  ⟨by decide +kernel, freeWalk_free_blocks lowArena holedClient holedClient_reachable⟩

end SystemProgramming.MallocLab
