import SystemProgramming.MallocLab.ClientRuns
import SystemProgramming.MallocLab.Layout

/-!
# Two runs of one trace

A trace names a block by the request that returned it, so the same trace can be run in two arenas that
hold different bytes.  The layouts of `Layout.lean` then carry both runs: a request does to the layout
what the trace says, whatever arena, old control words and payloads it meets.

* `Op`, `TraceRun` : the requests of a trace and the runs that perform it.
* `Answers` : what a request does to a layout.
* `Represents.answer`, `exists_answers` : a call is answered as the layout says, and a layout answers
  every legal call.
* `traceRun_layout` : every run of a trace ends in the same layout, with the same results.
* `traceRun_deterministic` : two runs return the same offsets and end at the same break.
-/

namespace SystemProgramming.MallocLab

open ByteMemory Holdings Transition

/-! ### Traces -/

/-- `mem_reset_brk`. -/
def memResetBrk (A : Arena) (h : Heap) : Heap := { h with memBrk := A.memStartBrk }

/-- A request of a trace; a block is named by the index of the request that returned it. -/
inductive Op
  | malloc (size : ℕ)
  | free (index : ℕ)
  | realloc (index size : ℕ)
  deriving DecidableEq

/-- The call a request makes when the requests before it returned `res`. -/
def Op.request (res : List ℕ) : Op → Request
  | .malloc size => .malloc size
  | .free index => .free (res.getD index 0)
  | .realloc index size => .realloc (res.getD index 0) size

/-- The runs that perform the requests `ops`, with the results `res`, after `mem_reset_brk` and
`mm_init` on any heap.  The client writes into its live payloads at any time. -/
inductive TraceRun (A : Arena) : List Op → Client → List ℕ → Prop
  | init (h : Heap) : TraceRun A [] ⟨(mmInit A (memResetBrk A h)).2, []⟩ []
  | call {ops : List Op} {c : Client} {res : List ℕ} {o : Op} {fuel p : ℕ} {h' : Heap}
      (hrun : TraceRun A ops c res) (hlegal : (o.request res).Legal c.live)
      (hserve : serve A fuel (o.request res) c.heap = some (p, h')) :
      TraceRun A (ops ++ [o]) ⟨h', (o.request res).settle c.live p⟩ (res ++ [p])
  | write {ops : List Op} {c c' : Client} {res : List ℕ} {a : ℕ} {v : UInt8}
      (hrun : TraceRun A ops c res) (hwrite : Step A c (.write a v) c') : TraceRun A ops c' res

variable {A : Arena} {c : Client} {ops : List Op} {res : List ℕ}

/-- A run of a trace is a run of the client. -/
theorem TraceRun.reachable (hrun : TraceRun A ops c res) : (allocatorRuns A).Reachable c := by
  induction hrun with
  | init h =>
    obtain ⟨h', heq, _⟩ := mmInit_eq A (memResetBrk A h) rfl
    refine .init ⟨rfl, memResetBrk A h, rfl, ?_⟩
    rw [heq]
  | call _ hlegal hserve ih => exact ih.step (.call hlegal hserve)
  | write _ hwrite ih => exact ih.step hwrite

/-! ### What a request does to a layout -/

/-- A request on a layout, where the requests before it returned the offsets `os`. -/
inductive Answers (os : List (Option ℕ)) : Layout → Op → Option ℕ → Layout → Prop
  | malloc {L L' : Layout} {n : ℕ} {o : Option ℕ} (ha : Allots n L o L') :
      Answers os L (.malloc n) o L'
  | free {L L' : Layout} {i x : ℕ} (hx : os.getD i none = some x) (hf : Frees L x L') :
      Answers os L (.free i) none L'
  | reallocNull {L L' : Layout} {i n : ℕ} {o : Option ℕ} (hx : os.getD i none = none)
      (ha : Allots n L o L') : Answers os L (.realloc i n) o L'
  | reallocZero {L L' : Layout} {i x : ℕ} (hx : os.getD i none = some x) (hf : Frees L x L') :
      Answers os L (.realloc i 0) none L'
  | reallocFull {L L' : Layout} {i n x : ℕ} (hx : os.getD i none = some x) (hn : n ≠ 0)
      (ha : Allots n L none L') : Answers os L (.realloc i n) none L'
  | reallocMove {L L₁ L' : Layout} {i n x y : ℕ} (hx : os.getD i none = some x) (hn : n ≠ 0)
      (ha : Allots n L (some y) L₁) (hf : Frees L₁ x L') :
      Answers os L (.realloc i n) (some y) L'

/-- The pointer a name stands for. -/
theorem getD_pointer (A : Arena) (os : List (Option ℕ)) (i : ℕ) :
    (os.map A.pointer).getD i 0 = A.pointer (os.getD i none) := by
  rw [List.getD_eq_getElem?_getD, List.getD_eq_getElem?_getD, List.getElem?_map]
  cases os[i]? with
  | none => rfl
  | some o => rfl

namespace Represents

variable {h h' : Heap} {L L' L₁ : Layout}

/-- The blocks and the free list of a heap are those of its layout. -/
theorem owned (r : Represents A c.heap L) (hc : (allocatorRuns A).Reachable c) :
    Owned A c (L.blocks.map (Block.shift A.memStartBrk)) (L.free.map (· + A.memStartBrk)) := by
  obtain ⟨bs, fl, o⟩ := reachable_owned hc
  obtain ⟨rfl, rfl⟩ := Rep.unique o.heap.rep r.rep
  exact o

/-- The offset of a block lies behind the padding word and the prologue header. -/
theorem addr_ge (r : Represents A h L) {b : Block} (hb : b ∈ L.blocks) : 8 ≤ b.addr := by
  have := (r.rep.bounds (List.mem_map_of_mem (f := Block.shift A.memStartBrk) hb)).1
  rw [Block.shift_addr] at this
  omega

/-- An allocation does not return the offset 0. -/
theorem allots_pos {n x : ℕ} (r : Represents A h L) (ha : Allots n L (some x) L') : 8 ≤ x := by
  cases ha with
  | @fit pre post parts b new h0 hfit hsplit hfree hp =>
    apply r.addr_ge
    rw [hsplit]
    simp
  | @grow left parts b m gone new h0 hfit hroom haddr hsize hfree hm hp =>
    have hbrk : 8 ≤ b.addr := by
      rw [haddr, Layout.brk]
      omega
    generalize hbs : L.blocks = bs at hm
    cases hm with
    | alone _ _ => exact hbrk
    | @prev _ _ pb _ _ _ =>
      have hpb : pb ∈ L.blocks := by
        rw [hbs]
        simp
      show 8 ≤ pb.addr
      exact r.addr_ge hpb

/-- A held block can be freed. -/
theorem exists_frees {b : Block} {x : ℕ} (r : Represents A h L)
    (hb : Held A (L.blocks.map (Block.shift A.memStartBrk)) b) (hx : b.addr = x + A.memStartBrk) :
    ∃ L', Frees L x L' := by
  obtain ⟨d, hd, rfl⟩ := List.mem_map.mp hb.mem
  obtain ⟨pre, post, hsplit⟩ := List.append_of_mem hd
  have hdx : d.addr + A.memStartBrk = x + A.memStartBrk := hx
  obtain rfl : d.addr = x := by omega
  have hpre : pre ≠ [] := by
    have w : WellFormed A h _ _ := r
    rw [hsplit, List.map_append, List.map_cons] at w hb
    intro hnil
    exact w.ne_nil_of_held hb (by rw [hnil]; rfl)
  have hne : d.addr ≠ 8 := by
    intro he
    apply hb.ne
    show d.addr + A.memStartBrk = A.memStartBrk + 8
    omega
  obtain ⟨left, m, right, gone, hm⟩ := exists_merge hpre (d.withAlloc false) post
  exact ⟨_, .mk hsplit hb.alloc hne hm⟩

/-- What `mm_realloc` does before it frees the old block: an allocation, and a copy into the new
block, that leave the old block held. -/
theorem moved {b : Block} {n fuel k y : ℕ} {h₁ : Heap} (r : Represents A h L)
    (ha : Allots n L (some y) L₁) (hn : n ≤ intMax)
    (hb : Held A (L.blocks.map (Block.shift A.memStartBrk)) b)
    (hret : mmMalloc A fuel n h = some (y + A.memStartBrk, h₁)) (hk : k ≤ n) :
    Represents A { h₁ with mem := copyBytes h₁.mem (y + A.memStartBrk) b.addr k } L₁ ∧
      Held A (L₁.blocks.map (Block.shift A.memStartBrk)) b := by
  have r₁ := (r.malloc ha hret).2
  have hy := r.allots_pos ha
  rcases WellFormed.allocated r (le_sizeMax hn) hret with ⟨hzero, _⟩ | ⟨a, bs₁, fl₁, w₁, hal⟩
  · omega
  · obtain ⟨rfl, rfl⟩ := Rep.unique w₁.rep r₁.rep
    have hcopy := w₁.copied (q := b.addr) ((hal.held a).mpr (Or.inl rfl)) hal.room hk
    rw [hal.addr] at hcopy
    exact ⟨hcopy, (hal.held b).mpr (Or.inr hb)⟩

end Represents

/-! ### A request in a run -/

section Request

variable {os : List (Option ℕ)} {op : Op} {o : Option ℕ} {L L' : Layout} {fuel p : ℕ} {h' : Heap}

/-- A name is not the offset 0. -/
theorem name_pos {i x : ℕ} (hos : ∀ x, some x ∈ os → 8 ≤ x) (hx : os.getD i none = some x) :
    8 ≤ x := by
  rw [List.getD_eq_getElem?_getD] at hx
  cases hi : os[i]? with
  | none =>
    rw [hi] at hx
    cases hx
  | some o =>
    rw [hi] at hx
    have ho : o = some x := hx
    exact hos x (ho ▸ List.mem_of_getElem? hi)

/-- A named pointer that is live is the address of a held block. -/
theorem Represents.live_held {x n : ℕ} (r : Represents A c.heap L)
    (hc : (allocatorRuns A).Reachable c) (hlive : (A.pointer (some x), n) ∈ c.live) :
    ∃ b, Held A (L.blocks.map (Block.shift A.memStartBrk)) b ∧ b.addr = x + A.memStartBrk := by
  obtain ⟨b, hb, he, _⟩ := (r.owned hc).held_of_live hlive
  exact ⟨b, hb, he⟩

/-- A request returns no block at the offset 0. -/
theorem Answers.offset_pos {x : ℕ} (ha : Answers os L op (some x) L')
    (r : Represents A c.heap L) : 8 ≤ x := by
  cases ha with
  | malloc ha => exact r.allots_pos ha
  | reallocNull _ ha => exact r.allots_pos ha
  | reallocMove _ _ ha _ => exact r.allots_pos ha

/-- **A call** is answered as the layout says. -/
theorem Answers.answer (ha : Answers os L op o L') (hos : ∀ x, some x ∈ os → 8 ≤ x)
    (r : Represents A c.heap L) (hc : (allocatorRuns A).Reachable c)
    (hlegal : (op.request (os.map A.pointer)).Legal c.live)
    (hserve : serve A fuel (op.request (os.map A.pointer)) c.heap = some (p, h')) :
    p = A.pointer o ∧ Represents A h' L' := by
  have hptr : ∀ i x, os.getD i none = some x →
      (os.map A.pointer).getD i 0 = x + A.memStartBrk ∧ x + A.memStartBrk ≠ 0 := by
    intro i x hx
    have := name_pos hos hx
    rw [getD_pointer, hx]
    exact ⟨rfl, by omega⟩
  cases ha with
  | malloc ha => exact r.malloc ha hserve
  | @free _ i x hx hf =>
    rw [Op.request, (hptr i x hx).1] at hserve
    cases hserve
    exact ⟨rfl, r.free hf⟩
  | @reallocNull _ i n _ hx ha =>
    rw [Op.request, getD_pointer, hx] at hlegal hserve
    exact r.malloc ha hserve
  | @reallocZero _ i x hx hf =>
    obtain ⟨he, hne⟩ := hptr i x hx
    rw [Op.request, he, serve, mmRealloc, if_neg hne, if_pos rfl] at hserve
    cases hserve
    exact ⟨rfl, r.free hf⟩
  | @reallocFull _ i n x hx hn ha =>
    obtain ⟨he, hne⟩ := hptr i x hx
    rw [Op.request, he] at hlegal hserve
    rcases WellFormed.mmRealloc_cases hne hn hserve with ⟨rfl, hm⟩ | ⟨hp, h₁, hm, rfl⟩
    · exact r.malloc ha hm
    · exact absurd (r.malloc ha hm).1 hp
  | @reallocMove L₁ _ i n x y hx hn ha hf =>
    obtain ⟨he, hne⟩ := hptr i x hx
    rw [Op.request, he] at hlegal hserve
    have hy := r.allots_pos ha
    rcases WellFormed.mmRealloc_cases hne hn hserve with ⟨rfl, hm⟩ | ⟨hp, h₁, hm, rfl⟩
    · have hzero : 0 = y + A.memStartBrk := (r.malloc ha hm).1
      omega
    · obtain rfl : p = y + A.memStartBrk := (r.malloc ha hm).1
      obtain ⟨m, hlive⟩ := hlegal.2.resolve_left hne
      obtain ⟨b, hb, hbx⟩ := r.live_held hc hlive
      have hmoved := (r.moved ha hlegal.1 hb hm (copySize_le h₁.mem b.addr n)).1
      rw [hbx] at hmoved
      exact ⟨rfl, hmoved.free hf⟩

/-- A layout answers every call a client makes. -/
theorem Represents.exists_answers (r : Represents A c.heap L) (hos : ∀ x, some x ∈ os → 8 ≤ x)
    (hc : (allocatorRuns A).Reachable c)
    (hlegal : (op.request (os.map A.pointer)).Legal c.live)
    (hserve : serve A fuel (op.request (os.map A.pointer)) c.heap = some (p, h')) :
    ∃ o L', Answers os L op o L' := by
  cases op with
  | malloc n =>
    obtain ⟨o, L', ha⟩ := r.exists_allots hlegal
    exact ⟨o, L', .malloc ha⟩
  | free i =>
    rw [Op.request, getD_pointer] at hlegal
    obtain ⟨n, hlive⟩ := hlegal
    cases hx : os.getD i none with
    | none =>
      rw [hx] at hlive
      exact absurd rfl ((r.owned hc).ne_zero hlive)
    | some x =>
      rw [hx] at hlive
      obtain ⟨b, hb, hbx⟩ := r.live_held hc hlive
      obtain ⟨L', hf⟩ := r.exists_frees hb hbx
      exact ⟨none, L', .free hx hf⟩
  | realloc i n =>
    rw [Op.request, getD_pointer] at hlegal hserve
    obtain ⟨hn, hptr⟩ := hlegal
    cases hx : os.getD i none with
    | none =>
      obtain ⟨o, L', ha⟩ := r.exists_allots hn
      exact ⟨o, L', .reallocNull hx ha⟩
    | some x =>
      rw [hx] at hptr hserve
      have hne : x + A.memStartBrk ≠ 0 := by
        have := name_pos hos hx
        omega
      obtain ⟨m, hlive⟩ := hptr.resolve_left hne
      obtain ⟨b, hb, hbx⟩ := r.live_held hc hlive
      by_cases h0 : n = 0
      · subst h0
        obtain ⟨L', hf⟩ := r.exists_frees hb hbx
        exact ⟨none, L', .reallocZero hx hf⟩
      · obtain ⟨o, L₁, ha⟩ := r.exists_allots hn
        cases o with
        | none => exact ⟨none, L₁, .reallocFull hx h0 ha⟩
        | some y =>
          have hy := r.allots_pos ha
          rcases WellFormed.mmRealloc_cases hne h0 hserve with ⟨rfl, hm⟩ | ⟨hp, h₁, hm, rfl⟩
          · have hzero : 0 = y + A.memStartBrk := (r.malloc ha hm).1
            omega
          · obtain rfl : p = y + A.memStartBrk := (r.malloc ha hm).1
            obtain ⟨hr, hheld⟩ := r.moved ha hn hb hm (copySize_le h₁.mem b.addr n)
            obtain ⟨L', hf⟩ := hr.exists_frees hheld hbx
            exact ⟨some y, L', .reallocMove hx h0 ha hf⟩

/-- A byte written into a live payload leaves the layout alone. -/
theorem Represents.write {c' : Client} {a : ℕ} {v : UInt8} (r : Represents A c.heap L)
    (hc : (allocatorRuns A).Reachable c) (hwrite : Step A c (.write a v) c') :
    Represents A c'.heap L := by
  cases hwrite with
  | @write p n a v hlive hlo hhi =>
    obtain ⟨b, hb, rfl, hroom⟩ := (r.owned hc).held_of_live hlive
    refine WellFormed.write r hb (fun x hx => ?_) rfl rfl rfl
    exact writeByte_outside _ _ (by omega)

end Request

/-! ### The two runs -/

/-- The layout `mm_init` builds. -/
def Layout.initial : Layout where
  blocks := [⟨8, 16, true, prologue_mod, prologue_ge⟩,
    ⟨24, chunksize, false, chunksize_mod, chunksize_ge⟩]
  free := [24]

theorem represents_init (A : Arena) (h : Heap) :
    Represents A (mmInit A (memResetBrk A h)).2 Layout.initial := by
  obtain ⟨h', heq, _, hw⟩ := mmInit_eq A (memResetBrk A h) rfl
  rw [heq]
  have hfirst : A.firstBlock =
      Block.shift A.memStartBrk ⟨24, chunksize, false, chunksize_mod, chunksize_ge⟩ :=
    Block.ext_fields (Nat.add_comm _ _) rfl rfl
  have hprologue : A.prologue = Block.shift A.memStartBrk ⟨8, 16, true, prologue_mod, prologue_ge⟩ :=
    Block.ext_fields (Nat.add_comm _ _) rfl rfl
  rw [hfirst, hprologue] at hw
  exact hw

/-- A run before its first request. -/
theorem TraceRun.first (hrun : TraceRun A [] c res) :
    Represents A c.heap Layout.initial ∧ res = [] := by
  generalize hops : ([] : List Op) = ops at hrun
  induction hrun with
  | init h => exact ⟨represents_init A h, rfl⟩
  | call => simp at hops
  | write hrun hwrite ih =>
    obtain ⟨r, hres⟩ := ih hops
    exact ⟨r.write hrun.reachable hwrite, hres⟩

/-- A run up to its last request, and the writes behind it. -/
theorem TraceRun.last {op : Op} (hrun : TraceRun A (ops ++ [op]) c res) :
    ∃ c₀ res₀ fuel p h', TraceRun A ops c₀ res₀ ∧ (op.request res₀).Legal c₀.live ∧
      serve A fuel (op.request res₀) c₀.heap = some (p, h') ∧ res = res₀ ++ [p] ∧
      ∀ L, Represents A h' L → Represents A c.heap L := by
  generalize hops : ops ++ [op] = ops' at hrun
  induction hrun with
  | init h => simp at hops
  | @call ops₀ c₀ res₀ op₀ fuel p h' hrun hlegal hserve _ =>
    obtain ⟨rfl, hop⟩ := List.append_inj' hops rfl
    cases hop
    exact ⟨c₀, res₀, fuel, p, h', hrun, hlegal, hserve, rfl, fun _ hL => hL⟩
  | write hrun hwrite ih =>
    obtain ⟨c₀, res₀, fuel, p, h', hrun₀, hlegal, hserve, hres, hkeep⟩ := ih hops
    exact ⟨c₀, res₀, fuel, p, h', hrun₀, hlegal, hserve, hres,
      fun L hL => (hkeep L hL).write hrun.reachable hwrite⟩

/-- **The run lemma.**  All runs of a trace, in all arenas, end in one layout and return one list of
offsets.  The induction is on the trace: a run that performs its last request fixes the layout after
it, and every other such run is answered the same. -/
theorem traceRun_layout (ops : List Op) : ∃ (L : Layout) (os : List (Option ℕ)),
    (∀ x, some x ∈ os → 8 ≤ x) ∧ ∀ (A : Arena) (c : Client) (res : List ℕ), TraceRun A ops c res →
      Represents A c.heap L ∧ res = os.map A.pointer := by
  induction ops using List.reverseRecOn with
  | nil => exact ⟨.initial, [], by simp, fun A c res hrun => hrun.first⟩
  | append_singleton ops op ih =>
    obtain ⟨L, os, hos, hall⟩ := ih
    by_cases hex : ∃ A c res, TraceRun A (ops ++ [op]) c res
    · obtain ⟨A, c, res, hrun⟩ := hex
      obtain ⟨c₀, res₀, fuel, p, h', hrun₀, hlegal, hserve, _⟩ := hrun.last
      obtain ⟨r, rfl⟩ := hall A c₀ res₀ hrun₀
      obtain ⟨o, L', ha⟩ := r.exists_answers hos hrun₀.reachable hlegal hserve
      refine ⟨L', os ++ [o], fun x hx => ?_, fun A c res hrun => ?_⟩
      · rcases List.mem_append.mp hx with hx | hx
        · exact hos x hx
        · rw [← List.mem_singleton.mp hx] at ha
          exact ha.offset_pos r
      · obtain ⟨c₀, res₀, fuel, p, h', hrun₀, hlegal, hserve, rfl, hkeep⟩ := hrun.last
        obtain ⟨r, rfl⟩ := hall A c₀ res₀ hrun₀
        obtain ⟨rfl, r'⟩ := ha.answer hos r hrun₀.reachable hlegal hserve
        exact ⟨hkeep L' r', by rw [List.map_append, List.map_singleton]⟩
    · exact ⟨L, os, hos, fun A c res hrun => absurd ⟨A, c, res, hrun⟩ hex⟩

/-- The offset of a returned pointer; none for `NULL`. -/
def Arena.offset (A : Arena) (p : ℕ) : Option ℤ :=
  if p = 0 then none else some ((p : ℤ) - A.memStartBrk)

theorem offset_pointer (A : Arena) (o : Option ℕ) (ho : ∀ x, o = some x → 8 ≤ x) :
    A.offset (A.pointer o) = o.map fun x => (x : ℤ) := by
  cases o with
  | none => rfl
  | some x =>
    have := ho x rfl
    have hne : x + A.memStartBrk ≠ 0 := by omega
    show A.offset (x + A.memStartBrk) = some (x : ℤ)
    rw [Arena.offset, if_neg hne]
    congr 1
    omega

/-- **Determinism.**  Two runs of one trace, in any arenas, over any old contents of the arena and of
the statics and with any writes into live payloads, return the same offsets and the same `NULL`s and
end with the same break. -/
theorem traceRun_deterministic {A₁ A₂ : Arena} {ops : List Op} {c₁ c₂ : Client} {res₁ res₂ : List ℕ}
    (hrun₁ : TraceRun A₁ ops c₁ res₁) (hrun₂ : TraceRun A₂ ops c₂ res₂) :
    res₁.map A₁.offset = res₂.map A₂.offset ∧
      (c₁.heap.memBrk : ℤ) - A₁.memStartBrk = c₂.heap.memBrk - A₂.memStartBrk := by
  obtain ⟨L, os, hos, hall⟩ := traceRun_layout ops
  obtain ⟨r₁, rfl⟩ := hall A₁ c₁ res₁ hrun₁
  obtain ⟨r₂, rfl⟩ := hall A₂ c₂ res₂ hrun₂
  constructor
  · rw [List.map_map, List.map_map]
    refine List.map_congr_left fun o ho => ?_
    have hpos : ∀ x, o = some x → 8 ≤ x := fun x hx => hos x (hx ▸ ho)
    show A₁.offset (A₁.pointer o) = A₂.offset (A₂.pointer o)
    rw [offset_pointer A₁ o hpos, offset_pointer A₂ o hpos]
  · rw [r₁.memBrk_eq, r₂.memBrk_eq]
    omega

/-- A heap that still holds an earlier trace. -/
def staleHeap : Heap := ⟨fun _ => 255, 70000, 70000, 12⟩

/-- Another arena than `lowArena`. -/
def highArena : Arena := ⟨65536, 65536 + maxHeap, rfl, by decide, by decide⟩

theorem traceRun_deterministic_stale : ∃ c₁ c₂ res₁ res₂,
    TraceRun lowArena [.malloc 100] c₁ res₁ ∧ c₁.heap.mem 32 = 7 ∧
      TraceRun highArena [.malloc 100] c₂ res₂ ∧ res₁ = [32] ∧ res₂ = [65560] ∧
      res₁.map lowArena.offset = res₂.map highArena.offset := by
  have hlegal : (Request.malloc 100).Legal [] := by
    show 100 ≤ intMax
    decide
  have h₁ : (serve lowArena 3 (.malloc 100)
      (mmInit lowArena (memResetBrk lowArena lowArena.zeroed)).2).map Prod.fst = some 32 := by
    decide +kernel
  have h₂ : (serve highArena 3 (.malloc 100)
      (mmInit highArena (memResetBrk highArena staleHeap)).2).map Prod.fst = some 65560 := by
    decide +kernel
  obtain ⟨⟨p₁, k₁⟩, hserve₁, rfl⟩ := Option.map_eq_some_iff.mp h₁
  obtain ⟨⟨p₂, k₂⟩, hserve₂, rfl⟩ := Option.map_eq_some_iff.mp h₂
  -- the client of the first run writes into its block
  have hcall₁ := TraceRun.call (o := .malloc 100) (.init lowArena.zeroed) hlegal hserve₁
  have hrun₁ := hcall₁.write (.write (a := 32) (v := 7) List.mem_cons_self le_rfl (by decide))
  have hrun₂ := TraceRun.call (o := .malloc 100) (.init staleHeap) hlegal hserve₂
  exact ⟨_, _, _, _, hrun₁, rfl, hrun₂, rfl, rfl, (traceRun_deterministic hrun₁ hrun₂).1⟩

end SystemProgramming.MallocLab
