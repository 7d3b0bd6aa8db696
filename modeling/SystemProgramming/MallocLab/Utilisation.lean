import SystemProgramming.MallocLab.Verdict

/-!
# The space and the time that the driver measures

* `Metered` : what `eval_mm_util` knows while requests are served; `Metered.step` is one request.
* `evalMmUtil_mm` : what `eval_mm_util` measures on every legal trace.
* `evals_agree` : after the verdict "valid" the other two evaluations run to their ends as well.
-/

namespace SystemProgramming.MallocLab

open ByteMemory Holdings Folds Transition

/-! ### The space a trace needs -/

/-- The bytes asked for and not yet freed. -/
def liveBytes (ops : List TraceOp) : ℕ := ((namedBy ops).map Prod.snd).sum

/-- No call can serve the request in the heap `h`. -/
def TraceOp.Unserved (A : Arena) (h : Heap) : TraceOp → Prop
  | .alloc _ n => n = 0 ∨ NoRoom A h n
  | .realloc _ n => n = 0 ∨ NoRoom A h n
  | .free _ => False

/-- What `eval_mm_util` knows after the requests `ops`. -/
structure Metered (A : Arena) (slots : ℕ) (ops : List TraceOp) (m : Meter) (res : List ℕ) :
    Prop where
  follows : Follows A ops m.heap m.blocks res
  entries : ∀ e ∈ namedBy ops, e.1 < slots ∧ m.blockSizes e.1 = e.2 ∧ e.2 ≤ intMax
  total : m.totalSize = liveBytes ops
  above : ∀ pre, pre <+: ops → (liveBytes pre : ℤ) ≤ m.maxTotalSize
  attained : ∃ pre, pre <+: ops ∧ m.maxTotalSize = liveBytes pre
  room : m.maxTotalSize + 24 + A.memStartBrk ≤ m.heap.memBrk

theorem liveBytes_alloc (ops : List TraceOp) (i n : ℕ) :
    liveBytes (ops ++ [.alloc i n]) = n + liveBytes ops := by
  rw [liveBytes, namedBy_append]
  rfl

theorem liveBytes_realloc (ops : List TraceOp) (i n : ℕ) : liveBytes (ops ++ [.realloc i n]) =
    n + ((release (namedBy ops) i).map Prod.snd).sum := by
  rw [liveBytes, namedBy_append]
  rfl

theorem liveBytes_free (ops : List TraceOp) (i : ℕ) :
    liveBytes (ops ++ [.free i]) = ((release (namedBy ops) i).map Prod.snd).sum := by
  rw [liveBytes, namedBy_append]
  rfl

theorem liveBytes_release {ops : List TraceOp} {i k : ℕ} (he : (i, k) ∈ namedBy ops)
    (hkeys : ((namedBy ops).map Prod.fst).Nodup) :
    liveBytes ops = k + ((release (namedBy ops) i).map Prod.snd).sum := by
  rw [liveBytes, ((release_perm he hkeys).map Prod.snd).sum_nat, List.map_cons, List.sum_cons]

/-- The live bytes fit below the break. -/
theorem Follows.liveBytes_le {A : Arena} {ops : List TraceOp} {h : Heap} {blocks : ℕ → ℕ}
    {res : List ℕ} (f : Follows A ops h blocks res) :
    A.memStartBrk + 24 + liveBytes ops ≤ h.memBrk ∧ h.memBrk ≤ A.memMaxAddr := by
  obtain ⟨bs, fl, o⟩ := reachable_owned f.reachable
  have hsum := o.sum_live_le
  have hle : liveBytes ops ≤ ((liveBlocks blocks ops).map fun e => e.2 + 8).sum := by
    rw [liveBytes, liveBlocks, List.map_map]
    generalize namedBy ops = l
    induction l with
    | nil => exact le_refl _
    | cons e l ih =>
      simp only [List.map_cons, List.sum_cons, Function.comp_apply] at ih ⊢
      omega
  have hbrk := o.heap.rep.brk_le
  have hsame : (⟨h, liveBlocks blocks ops⟩ : Client).live = liveBlocks blocks ops := rfl
  rw [hsame] at hsum
  exact ⟨(Nat.add_le_add_left hle _).trans hsum, hbrk⟩

theorem addInt_ok {a b : ℤ} (h1 : -2 ^ 31 ≤ a + b) (h2 : a + b < 2 ^ 31) :
    addInt a b = .ok (a + b) := if_pos ⟨h1, h2⟩

namespace Metered

variable {A : Arena} {fuel slots : ℕ} {ops : List TraceOp} {m : Meter} {res : List ℕ}
  {o : TraceOp}

/-- `total_size` and `max_total_size` after a request that leaves `m₁` before they are updated. -/
theorem counted {res₁ : List ℕ} (s : Metered A slots ops m res) (m₁ : Meter) (delta : ℤ)
    (hf : Follows A (ops ++ [o]) m₁.heap m₁.blocks res₁)
    (hentries : ∀ e ∈ namedBy (ops ++ [o]), e.1 < slots ∧ m₁.blockSizes e.1 = e.2 ∧ e.2 ≤ intMax)
    (htotal : m₁.totalSize = m.totalSize) (hmax : m₁.maxTotalSize = m.maxTotalSize)
    (hbrk : m.heap.memBrk ≤ m₁.heap.memBrk)
    (hdelta : (liveBytes ops : ℤ) + delta = liveBytes (ops ++ [o])) :
    ∃ m', m₁.count delta = .ok m' ∧ Metered A slots (ops ++ [o]) m' res₁ := by
  have hroom := hf.liveBytes_le
  have hA := A.bounds
  have hsum : m₁.totalSize + delta = liveBytes (ops ++ [o]) := by rw [htotal, s.total, hdelta]
  have hadd : addInt m₁.totalSize delta = .ok (liveBytes (ops ++ [o]) : ℤ) := by
    rw [addInt_ok (by omega) (by omega), hsum]
  have hold := s.room
  refine ⟨{ m₁ with
    totalSize := liveBytes (ops ++ [o])
    maxTotalSize := if (liveBytes (ops ++ [o]) : ℤ) > m₁.maxTotalSize then liveBytes (ops ++ [o])
      else m₁.maxTotalSize }, by rw [Meter.count, hadd], hf, hentries, rfl, fun pre hpre => ?_, ?_, ?_⟩
  · rcases List.prefix_concat_iff.mp hpre with rfl | hpre
    · dsimp only
      split <;> omega
    · have := s.above pre hpre
      dsimp only
      split <;> omega
  · by_cases hgt : (liveBytes (ops ++ [o]) : ℤ) > m₁.maxTotalSize
    · exact ⟨ops ++ [o], List.prefix_refl _, if_pos hgt⟩
    · obtain ⟨pre, hpre, heq⟩ := s.attained
      exact ⟨pre, hpre.trans (List.prefix_append _ _), (if_neg hgt).trans (hmax.trans heq)⟩
  · dsimp only
    split <;> omega

/-- The tables after a request that gives `i` a new block. -/
theorem entries_update {l : List (ℕ × ℕ)} {blockSizes : ℕ → ℕ} {i n : ℕ}
    (hl : ∀ e ∈ l, e.1 < slots ∧ blockSizes e.1 = e.2 ∧ e.2 ≤ intMax)
    (hi : i ∉ l.map Prod.fst) (hin : i < slots) (hn : n ≤ intMax) : ∀ e ∈ (i, n) :: l,
      e.1 < slots ∧ Function.update blockSizes i n e.1 = e.2 ∧ e.2 ≤ intMax := by
  intro e he
  rcases List.mem_cons.mp he with rfl | he
  · exact ⟨hin, Function.update_self .., hn⟩
  · have hne : e.1 ≠ i := fun heq => hi (heq ▸ List.mem_map_of_mem he)
    rw [Function.update_of_ne hne]
    exact hl e he

/-- **One request.**  It is counted unless no call can serve it. -/
theorem step (s : Metered A slots ops m res) (hlegal : o.Legal slots (namedBy ops))
    (hsize : o.size ≤ intMax) (hfuel : maxHeap ≤ fuel) :
    (∃ m' res', utilStep (mmPackage A fuel) slots m o = .ok m' ∧
        Metered A slots (ops ++ [o]) m' res' ∧ ¬ o.Unserved A m.heap) ∨
      o.Unserved A m.heap ∧
        ∃ msg, utilStep (mmPackage A fuel) slots m o = .error (.appError msg) := by
  have hlive := s.follows.liveBytes_le
  have hA := A.bounds
  have hmax : intMax = 2 ^ 31 - 1 := rfl
  cases o with
  | alloc i n =>
    obtain ⟨hi, hnew, -⟩ := hlegal
    have hn : n ≤ intMax := hsize
    obtain ⟨p, h', hret, hnull⟩ := s.follows.malloc_returns hfuel n
    have hcall : (mmPackage A fuel).mmMalloc n m.heap = some (p, h') := hret
    by_cases hp : p = 0
    · refine Or.inr ⟨hnull.mp hp, "mm_malloc failed in eval_mm_util", ?_⟩
      simp only [utilStep, hcall, if_pos hp]
    · left
      have hn32 : toInt32 n = n := toInt32_of_le hn
      have hserved := s.follows.served (r := .malloc n) hn hret
      have hf := s.follows.alloc hnew hn hret hp
      obtain ⟨m', hcount, hm'⟩ := s.counted { m with
          heap := h'
          blocks := Function.update m.blocks i p
          blockSizes := Function.update m.blockSizes i n } (toInt32 n) hf
        (by
          rw [namedBy_append]
          exact entries_update s.entries hnew hi hn) rfl rfl hserved.brk
        (by
          rw [hn32, liveBytes_alloc]
          omega)
      refine ⟨m', _, ?_, hm', fun h => hp (hnull.mpr h)⟩
      simp only [utilStep, hcall, if_neg hp, if_neg (Nat.not_le.mpr hi), hcount]
  | realloc i n =>
    obtain ⟨hi, -⟩ := hlegal
    have hn : n ≤ intMax := hsize
    obtain ⟨k, he⟩ := Judged.exists_entry hi
    obtain ⟨hin, hk, hkmax⟩ := s.entries _ he
    have hrel := liveBytes_release he s.follows.keys
    obtain ⟨p, h', hret, hnull⟩ := s.follows.realloc_returns hfuel he n
    have hcall : (mmPackage A fuel).mmRealloc (m.blocks i) n m.heap = some (p, h') := hret
    by_cases hp : p = 0
    · refine Or.inr ⟨hnull.mp hp, "mm_realloc failed in eval_mm_util", ?_⟩
      simp only [utilStep, if_neg (Nat.not_le.mpr hin), hcall, if_pos hp]
    · left
      have hlegal' : (Request.realloc (m.blocks i) n).Legal (liveBlocks m.blocks ops) :=
        ⟨hn, Or.inr ⟨k, Follows.mem_live he⟩⟩
      have hserved := s.follows.served hlegal' hret
      have hf := s.follows.realloc he hn hret hp
      have hn32 : toInt32 n = n := toInt32_of_le hn
      have hk32 : toInt32 (m.blockSizes i) = k := by
        rw [hk]
        exact toInt32_of_le hkmax
      have hdelta : addInt (toInt32 n) (-toInt32 (m.blockSizes i)) = .ok ((n : ℤ) + -k) := by
        have hk' : k ≤ intMax := hkmax
        rw [hn32, hk32, addInt_ok (by omega) (by omega)]
      obtain ⟨m', hcount, hm'⟩ := s.counted { m with
          heap := h'
          blocks := Function.update m.blocks i p
          blockSizes := Function.update m.blockSizes i n } ((n : ℤ) + -k) hf
        (by
          rw [namedBy_append]
          exact entries_update (fun e h => s.entries e (List.mem_of_mem_filter h))
            (key_notMem_release _ i) hin hn) rfl rfl hserved.brk
        (by
          rw [liveBytes_realloc, hrel]
          omega)
      refine ⟨m', _, ?_, hm', fun h => hp (hnull.mpr h)⟩
      simp only [utilStep, if_neg (Nat.not_le.mpr hin), hcall, if_neg hp, hdelta, hcount]
  | free i =>
    obtain ⟨k, he⟩ := Judged.exists_entry hlegal
    obtain ⟨hin, hk, hkmax⟩ := s.entries _ he
    have hrel := liveBytes_release he s.follows.keys
    have hcall : (mmPackage A fuel).mmFree (m.blocks i) m.heap = some (mmFree (m.blocks i) m.heap) :=
      rfl
    have hk32 : toInt32 (m.blockSizes i) = k := by
      rw [hk]
      exact toInt32_of_le hkmax
    have hbytes : (liveBytes (ops ++ [.free i]) : ℤ) = m.totalSize + -k := by
      rw [s.total, liveBytes_free, hrel]
      omega
    have hserved := s.follows.served_free he
    have htotal := s.total
    have hadd : addInt m.totalSize (-toInt32 (m.blockSizes i)) =
        .ok (liveBytes (ops ++ [.free i]) : ℤ) := by
      rw [hk32, hbytes]
      exact addInt_ok (by omega) (by omega)
    refine Or.inl ⟨{ m with
      heap := mmFree (m.blocks i) m.heap
      totalSize := liveBytes (ops ++ [.free i]) }, _, ?_, ⟨s.follows.free he, fun e hmem => ?_, rfl,
      fun pre hpre => ?_, ?_, ?_⟩, False.elim⟩
    · simp only [utilStep, if_neg (Nat.not_le.mpr hin), hcall, hadd]
    · rw [namedBy_append] at hmem
      exact s.entries e (List.mem_of_mem_filter hmem)
    · rcases List.prefix_concat_iff.mp hpre with rfl | hpre
      · have := s.above ops (List.prefix_refl _)
        dsimp only
        omega
      · exact s.above pre hpre
    · obtain ⟨pre, hpre, heq⟩ := s.attained
      exact ⟨pre, hpre.trans (List.prefix_append _ _), heq⟩
    · have hbrk := hserved.brk
      have hroom := s.room
      dsimp only at hbrk ⊢
      omega

end Metered

/-- `eval_mm_util` on `mm.c` is its loop. -/
theorem evalMmUtil_eq (A : Arena) (fuel : ℕ) (blocks blockSizes : ℕ → ℕ) (h : Heap) : ∃ h₀,
    (∀ t : Trace, evalMmUtil A (mmPackage A fuel) t blocks blockSizes h =
      t.ops.foldlM (utilStep (mmPackage A fuel) t.slots) ⟨h₀, blocks, blockSizes, 0, 0⟩) ∧
    ∀ slots, Metered A slots [] ⟨h₀, blocks, blockSizes, 0, 0⟩ [] := by
  obtain ⟨h₀, hinit, hh₀⟩ := mmInit_reset A fuel h
  have hf : Follows A [] h₀ blocks [] := by
    rw [hh₀]
    exact .init A h blocks
  have hle : A.memStartBrk + 24 + 0 ≤ h₀.memBrk := hf.liveBytes_le.1
  refine ⟨h₀, fun t => ?_, fun slots => ⟨hf, List.forall_mem_nil _, rfl, fun pre hpre => ?_,
    ⟨[], List.prefix_refl _, rfl⟩, ?_⟩⟩
  · simp only [evalMmUtil, hinit, Int.lt_irrefl, if_false]
  · rw [List.prefix_nil.mp hpre]
    exact Int.le_refl 0
  · dsimp only
    omega

/-- **The utilisation of `mm.c`.**  On every legal trace with sizes up to `INT_MAX`, `eval_mm_util`
either runs to its end or exits at the first request that no call can serve; no `int` overflows.  At
its end `max_total_size` is the largest number of bytes that are live at once, and the heap is larger
than that by at least 24 bytes.  Break addresses are integers: `mem_brk + incr` does not wrap. -/
theorem evalMmUtil_mm (A : Arena) (fuel : ℕ) (t : Trace) (blocks blockSizes : ℕ → ℕ) (h : Heap)
    (hlegal : t.Legal) (hsize : ∀ o ∈ t.ops, o.size ≤ intMax) (hfuel : maxHeap ≤ fuel) :
    (∃ m, evalMmUtil A (mmPackage A fuel) t blocks blockSizes h = .ok m ∧
      (∀ pre, pre <+: t.ops → (liveBytes pre : ℤ) ≤ m.maxTotalSize) ∧
      (∃ pre, pre <+: t.ops ∧ m.maxTotalSize = liveBytes pre) ∧
      m.maxTotalSize + 24 ≤ memHeapsize A m.heap) ∨
    ∃ pre o post m msg, t.ops = pre ++ o :: post ∧
      evalMmUtil A (mmPackage A fuel) ⟨t.numIds, pre⟩ blocks blockSizes h = .ok m ∧
      o.Unserved A m.heap ∧
      evalMmUtil A (mmPackage A fuel) t blocks blockSizes h = .error (.appError msg) := by
  obtain ⟨h₀, heval, hstart⟩ := evalMmUtil_eq A fuel blocks blockSizes h
  have hrunOf : ∀ pre post m, t.ops = pre ++ post →
      pre.foldlM (utilStep (mmPackage A fuel) t.slots) ⟨h₀, blocks, blockSizes, 0, 0⟩ = .ok m →
      ∃ res, Metered A t.slots pre m res := by
    intro pre post m hsplit hrun
    refine foldlM_invariant (P := fun ops m => ∃ res, Metered A t.slots ops m res)
      ⟨[], hstart t.slots⟩ ?_ hrun
    rintro done o rest m₁ m₂ hpre ⟨res, hs⟩ hstep
    have hops : t.ops = done ++ o :: (rest ++ post) := by
      rw [hsplit, hpre, List.append_assoc, List.cons_append]
    have ho : o ∈ t.ops := by
      rw [hops]
      simp
    rcases hs.step (hlegal done o _ hops) (hsize o ho) hfuel with ⟨m', res', hok, hs', -⟩ | ⟨-, msg, herr⟩
    · rw [hstep] at hok
      cases hok
      exact ⟨res', hs'⟩
    · rw [hstep] at herr
      cases herr
  have hevalPre : ∀ pre, evalMmUtil A (mmPackage A fuel) ⟨t.numIds, pre⟩ blocks blockSizes h =
      pre.foldlM (utilStep (mmPackage A fuel) t.slots) ⟨h₀, blocks, blockSizes, 0, 0⟩ :=
    fun pre => heval ⟨t.numIds, pre⟩
  rw [heval]
  simp only [hevalPre]
  cases hrun : t.ops.foldlM (utilStep (mmPackage A fuel) t.slots) ⟨h₀, blocks, blockSizes, 0, 0⟩ with
  | ok m =>
    obtain ⟨res, hs⟩ := hrunOf t.ops [] m (List.append_nil t.ops).symm hrun
    have hroom := hs.room
    have hle := hs.follows.liveBytes_le.1
    refine Or.inl ⟨m, rfl, hs.above, hs.attained, ?_⟩
    rw [memHeapsize]
    omega
  | error stop =>
    right
    obtain ⟨pre, o, post, m, hsplit, hpre, ho⟩ := foldlM_eq_error_iff.mp hrun
    obtain ⟨res, hs⟩ := hrunOf pre (o :: post) m hsplit hpre
    have hmem : o ∈ t.ops := by
      rw [hsplit]
      simp
    rcases hs.step (hlegal pre o post hsplit) (hsize o hmem) hfuel with
      ⟨m', -, hok, -⟩ | ⟨hun, msg, herr⟩
    · rw [ho] at hok
      cases hok
    · refine ⟨pre, o, post, m, msg, hsplit, hpre, hun, ?_⟩
      rw [← herr, ho]

theorem evalMmUtil_mm_sample :
    ∃ m, evalMmUtil lowArena (mmPackage lowArena maxHeap) sampleTrace (fun _ => 0) (fun _ => 0)
        staleHeap = .ok m ∧ m.maxTotalSize = 500 ∧
      (∀ pre, pre <+: sampleTrace.ops → (liveBytes pre : ℤ) ≤ m.maxTotalSize) ∧
      (∃ pre, pre <+: sampleTrace.ops ∧ m.maxTotalSize = liveBytes pre) ∧
      m.maxTotalSize + 24 ≤ memHeapsize lowArena m.heap := by
  have hsome : ((evalMmUtil lowArena (mmPackage lowArena maxHeap) sampleTrace (fun _ => 0)
      (fun _ => 0) staleHeap).map Meter.maxTotalSize).toOption = some 500 := by
    decide +kernel
  rcases evalMmUtil_mm lowArena maxHeap sampleTrace (fun _ => 0) (fun _ => 0) staleHeap
    (by decide) (by decide) le_rfl with ⟨m, hok, hbounds⟩ | ⟨pre, o, post, m, msg, -, -, -, herr⟩
  · rw [hok] at hsome
    exact ⟨m, hok, Option.some.inj hsome, hbounds⟩
  · rw [herr] at hsome
    cases hsome

/-! ### The three evaluations of one trace -/

/-- Two heaps that follow one trace have the same break and name the same blocks. -/
theorem Follows.same {A : Arena} {ops : List TraceOp} {h₁ h₂ : Heap} {b₁ b₂ : ℕ → ℕ}
    {res₁ res₂ : List ℕ} (f₁ : Follows A ops h₁ b₁ res₁) (f₂ : Follows A ops h₂ b₂ res₂) :
    res₁ = res₂ ∧ h₁.memBrk = h₂.memBrk ∧ ∀ e ∈ namedBy ops, b₁ e.1 = b₂ e.1 := by
  obtain ⟨L, os, -, hall⟩ := traceRun_layout (originsOf ops).requests
  obtain ⟨r₁, hres₁⟩ := hall A _ _ f₁.run
  obtain ⟨r₂, hres₂⟩ := hall A _ _ f₂.run
  have hres : res₁ = res₂ := hres₁.trans hres₂.symm
  have hbrk : h₁.memBrk = h₂.memBrk := r₁.memBrk_eq.trans r₂.memBrk_eq.symm
  refine ⟨hres, hbrk, fun e he => ?_⟩
  rw [(f₁.origin e he).2, (f₂.origin e he).2, hres]

/-- Two runs of one trace in one arena get the same pointer from the next request. -/
theorem TraceRun.same_pointer {A : Arena} {ops : List Op} {c₁ c₂ : Client} {res : List ℕ} {o : Op}
    {fuel₁ fuel₂ p₁ p₂ : ℕ} {h₁ h₂ : Heap} (hrun₁ : TraceRun A ops c₁ res)
    (hrun₂ : TraceRun A ops c₂ res) (hlegal₁ : (o.request res).Legal c₁.live)
    (hlegal₂ : (o.request res).Legal c₂.live)
    (hret₁ : serve A fuel₁ (o.request res) c₁.heap = some (p₁, h₁))
    (hret₂ : serve A fuel₂ (o.request res) c₂.heap = some (p₂, h₂)) : p₁ = p₂ := by
  obtain ⟨L, os, -, hall⟩ := traceRun_layout (ops ++ [o])
  obtain ⟨-, hres₁⟩ := hall A _ _ (hrun₁.call hlegal₁ hret₁)
  obtain ⟨-, hres₂⟩ := hall A _ _ (hrun₂.call hlegal₂ hret₂)
  have hsame := List.append_cancel_left (hres₁.trans hres₂.symm)
  exact List.singleton_inj.mp hsame

namespace Follows

variable {A : Arena} {ops : List TraceOp} {h₁ h₂ h₁' h₂' : Heap} {b₁ b₂ : ℕ → ℕ}
  {res₁ res₂ : List ℕ} {fuel₁ fuel₂ i n p₁ p₂ : ℕ}

/-- `mm_malloc` returns the same pointer in both. -/
theorem malloc_same (f₁ : Follows A ops h₁ b₁ res₁) (f₂ : Follows A ops h₂ b₂ res₂)
    (hn : n ≤ intMax) (hret₁ : mmMalloc A fuel₁ n h₁ = some (p₁, h₁'))
    (hret₂ : mmMalloc A fuel₂ n h₂ = some (p₂, h₂')) : p₁ = p₂ := by
  obtain ⟨rfl, -, -⟩ := f₁.same f₂
  exact f₁.run.same_pointer (o := .malloc n) f₂.run hn hn hret₁ hret₂

/-- So does `mm_realloc` for a live identifier. -/
theorem realloc_same {k : ℕ} (f₁ : Follows A ops h₁ b₁ res₁) (f₂ : Follows A ops h₂ b₂ res₂)
    (he : (i, k) ∈ namedBy ops) (hn : n ≤ intMax)
    (hret₁ : mmRealloc A fuel₁ (b₁ i) n h₁ = some (p₁, h₁'))
    (hret₂ : mmRealloc A fuel₂ (b₂ i) n h₂ = some (p₂, h₂')) : p₁ = p₂ := by
  obtain ⟨rfl, -, -⟩ := f₁.same f₂
  have hptr₁ : b₁ i = res₁.getD ((originsOf ops).origin i) 0 := (f₁.origin _ he).2
  have hptr₂ : b₂ i = res₁.getD ((originsOf ops).origin i) 0 := (f₂.origin _ he).2
  have hlegal₁ : (Request.realloc (b₁ i) n).Legal (liveBlocks b₁ ops) :=
    ⟨hn, Or.inr ⟨k, mem_live he⟩⟩
  have hlegal₂ : (Request.realloc (b₂ i) n).Legal (liveBlocks b₂ ops) :=
    ⟨hn, Or.inr ⟨k, mem_live he⟩⟩
  rw [hptr₁] at hret₁ hlegal₁
  rw [hptr₂] at hret₂ hlegal₂
  exact f₁.run.same_pointer (o := .realloc ((originsOf ops).origin i) n) f₂.run hlegal₁ hlegal₂ hret₁
    hret₂

/-- What no call can serve is the same in both. -/
theorem unserved_iff {slots fuel : ℕ} {o : TraceOp} (f₁ : Follows A ops h₁ b₁ res₁)
    (f₂ : Follows A ops h₂ b₂ res₂) (hlegal : o.Legal slots (namedBy ops)) (hsize : o.size ≤ intMax)
    (hfuel : maxHeap ≤ fuel) : o.Unserved A h₁ ↔ o.Unserved A h₂ := by
  cases o with
  | alloc i n =>
    obtain ⟨p₁, h₁', hret₁, hnull₁⟩ := f₁.malloc_returns hfuel n
    obtain ⟨p₂, h₂', hret₂, hnull₂⟩ := f₂.malloc_returns hfuel n
    have hp := f₁.malloc_same f₂ hsize hret₁ hret₂
    exact hnull₁.symm.trans (hp ▸ hnull₂)
  | realloc i n =>
    obtain ⟨k, he⟩ := Judged.exists_entry hlegal.1
    obtain ⟨p₁, h₁', hret₁, hnull₁⟩ := f₁.realloc_returns hfuel he n
    obtain ⟨p₂, h₂', hret₂, hnull₂⟩ := f₂.realloc_returns hfuel he n
    have hp := f₁.realloc_same f₂ he hsize hret₁ hret₂
    exact hnull₁.symm.trans (hp ▸ hnull₂)
  | free i => exact Iff.rfl

end Follows

/-- A request that passes `eval_mm_valid` has a legal size and is served. -/
theorem Passed.served_of_ok {A : Arena} {fuel slots : ℕ} {ops : List TraceOp} {v v' : Validator}
    {res : List ℕ} {o : TraceOp} (s : Passed A fuel slots ops v res)
    (hlegal : o.Legal slots (namedBy ops)) (hfuel : maxHeap ≤ fuel)
    (hstep : validStep A (mmPackage A fuel) slots v o = .ok v') :
    o.size ≤ intMax ∧ ¬ o.Unserved A v.heap ∧ ∃ res', Passed A fuel slots (ops ++ [o]) v' res' := by
  have j := s.judged.step hlegal hstep
  have hsize : o.size ≤ intMax := by
    cases o with
    | alloc i n =>
      have hmem : (i, n) ∈ namedBy (ops ++ [.alloc i n]) := by
        rw [namedBy_append]
        exact List.mem_cons_self
      exact (j.recorded.sizes _ hmem).2.2.2
    | realloc i n =>
      have hmem : (i, n) ∈ namedBy (ops ++ [.realloc i n]) := by
        rw [namedBy_append]
        exact List.mem_cons_self
      exact (j.recorded.sizes _ hmem).2.2.2
    | free i => exact Nat.zero_le _
  rcases s.step hlegal hsize hfuel with ⟨v'', res', hok, hs', hnot⟩ | ⟨e, -, herr⟩
  · rw [hstep] at hok
    cases hok
    refine ⟨hsize, fun hun => ?_, res', hs'⟩
    cases o with
    | alloc i n => exact hnot _ (.malloc hun)
    | realloc i n => exact hnot _ (.realloc hun)
    | free i => exact hun
  · rw [hstep] at herr
    cases herr

/-- `eval_mm_speed` on `mm.c` serves what can be served. -/
theorem speedStep_mm {A : Arena} {fuel slots : ℕ} {ops : List TraceOp} {r : Racer} {res : List ℕ}
    {o : TraceOp} (f : Follows A ops r.heap r.blocks res) (hlegal : o.Legal slots (namedBy ops))
    (hentries : ∀ e ∈ namedBy ops, e.1 < slots) (hsize : o.size ≤ intMax) (hfuel : maxHeap ≤ fuel)
    (hserved : ¬ o.Unserved A r.heap) : ∃ r' res', speedStep (mmPackage A fuel) slots r o = .ok r' ∧
      Follows A (ops ++ [o]) r'.heap r'.blocks res' := by
  cases o with
  | alloc i n =>
    obtain ⟨hi, hnew, -⟩ := hlegal
    obtain ⟨p, h', hret, hnull⟩ := f.malloc_returns hfuel n
    have hcall : (mmPackage A fuel).mmMalloc n r.heap = some (p, h') := hret
    have hp : p ≠ 0 := fun h => hserved (hnull.mp h)
    refine ⟨⟨h', Function.update r.blocks i p⟩, _, ?_, f.alloc hnew hsize hret hp⟩
    simp only [speedStep, hcall, if_neg hp, if_neg (Nat.not_le.mpr hi)]
  | realloc i n =>
    obtain ⟨k, he⟩ := Judged.exists_entry hlegal.1
    obtain ⟨p, h', hret, hnull⟩ := f.realloc_returns hfuel he n
    have hcall : (mmPackage A fuel).mmRealloc (r.blocks i) n r.heap = some (p, h') := hret
    have hp : p ≠ 0 := fun h => hserved (hnull.mp h)
    have hin : ¬ slots ≤ i := Nat.not_le.mpr (hentries _ he)
    refine ⟨⟨h', Function.update r.blocks i p⟩, _, ?_, f.realloc he hsize hret hp⟩
    simp only [speedStep, if_neg hin, hcall, if_neg hp]
  | free i =>
    obtain ⟨k, he⟩ := Judged.exists_entry hlegal
    have hin : ¬ slots ≤ i := Nat.not_le.mpr (hentries _ he)
    have hcall : (mmPackage A fuel).mmFree (r.blocks i) r.heap = some (mmFree (r.blocks i) r.heap) :=
      rfl
    refine ⟨⟨mmFree (r.blocks i) r.heap, r.blocks⟩, _, ?_, f.free he⟩
    simp only [speedStep, if_neg hin, hcall]

/-- **A trace that is valid is measured and timed.**  If `eval_mm_valid` returns 1 for `mm.c` on a
legal trace, `eval_mm_util` and `eval_mm_speed`, whatever heap and arrays they find, never exit
through `app_error`, end with the break of `eval_mm_valid`, and have the live identifiers at the same
addresses. -/
theorem evals_agree (A : Arena) (fuel : ℕ) (t : Trace) (blocks blockSizes blocks₁ blockSizes₁
    blocks₂ : ℕ → ℕ) (h h₁ h₂ : Heap) (v : Validator) (hlegal : t.Legal) (hfuel : maxHeap ≤ fuel)
    (hok : evalMmValid A (mmPackage A fuel) t blocks blockSizes h = .ok v) :
    (∃ m, evalMmUtil A (mmPackage A fuel) t blocks₁ blockSizes₁ h₁ = .ok m ∧
      m.heap.memBrk = v.heap.memBrk ∧ ∀ e ∈ namedBy t.ops, m.blocks e.1 = v.blocks e.1) ∧
    ∃ r, evalMmSpeed A (mmPackage A fuel) t blocks₂ h₂ = .ok r ∧
      r.heap.memBrk = v.heap.memBrk ∧ ∀ e ∈ namedBy t.ops, r.blocks e.1 = v.blocks e.1 := by
  obtain ⟨k, heval, hstart⟩ := evalMmValid_eq A fuel blocks blockSizes h
  rw [heval] at hok
  constructor
  · obtain ⟨k₁, heval₁, hstart₁⟩ := evalMmUtil_eq A fuel blocks₁ blockSizes₁ h₁
    rw [heval₁]
    obtain ⟨m, hm, res, res₁, hs, hs₁⟩ := foldlM_lockstep (g := utilStep (mmPackage A fuel) t.slots)
      (R := fun ops v m => ∃ res res₁, Passed A fuel t.slots ops v res ∧
        Metered A t.slots ops m res₁) ⟨[], [], hstart t.slots, hstart₁ t.slots⟩ (by
        rintro pre o post v₀ v₁ m₀ hsplit ⟨res, res₁, hs, hs₁⟩ hstep
        have hlegal₀ := hlegal pre o post hsplit
        obtain ⟨hsize, hun, res', hs'⟩ := hs.served_of_ok hlegal₀ hfuel hstep
        rw [hs.follows.unserved_iff hs₁.follows hlegal₀ hsize hfuel] at hun
        rcases hs₁.step hlegal₀ hsize hfuel with ⟨m', res₁', hok', hs₁', -⟩ | ⟨hun', -⟩
        · exact ⟨m', hok', res', res₁', hs', hs₁'⟩
        · exact absurd hun' hun) hok
    obtain ⟨-, hbrk, hblocks⟩ := hs₁.follows.same hs.follows
    exact ⟨m, hm, hbrk, hblocks⟩
  · obtain ⟨k₂, hinit, hk₂⟩ := mmInit_reset A fuel h₂
    have heval₂ : evalMmSpeed A (mmPackage A fuel) t blocks₂ h₂ =
        t.ops.foldlM (speedStep (mmPackage A fuel) t.slots) ⟨k₂, blocks₂⟩ := by
      simp only [evalMmSpeed, hinit, Int.lt_irrefl, if_false]
    have hstart₂ : Follows A [] k₂ blocks₂ [] := by
      rw [hk₂]
      exact .init A h₂ blocks₂
    rw [heval₂]
    obtain ⟨r, hr, res, res₂, hs, hs₂⟩ := foldlM_lockstep (g := speedStep (mmPackage A fuel) t.slots)
      (t := (⟨k₂, blocks₂⟩ : Racer)) (R := fun ops v r => ∃ res res₂, Passed A fuel t.slots ops v res ∧
        Follows A ops r.heap r.blocks res₂) ⟨[], [], hstart t.slots, hstart₂⟩ (by
        rintro pre o post v₀ v₁ r₀ hsplit ⟨res, res₂, hs, hs₂⟩ hstep
        have hlegal₀ := hlegal pre o post hsplit
        obtain ⟨hsize, hun, res', hs'⟩ := hs.served_of_ok hlegal₀ hfuel hstep
        rw [hs.follows.unserved_iff hs₂ hlegal₀ hsize hfuel] at hun
        obtain ⟨r', res₂', hok', hs₂'⟩ := speedStep_mm hs₂ hlegal₀
          (fun e he => (hs.judged.recorded.sizes e he).1) hsize hfuel hun
        exact ⟨r', hok', res', res₂', hs', hs₂'⟩) hok
    obtain ⟨-, hbrk, hblocks⟩ := hs₂.same hs.follows
    exact ⟨r, hr, hbrk, hblocks⟩

theorem evals_agree_sample : ∃ v, evalMmValid lowArena (mmPackage lowArena maxHeap) sampleTrace
      (fun _ => 0) (fun _ => 0) lowArena.zeroed = .ok v ∧
    (∃ m, evalMmUtil lowArena (mmPackage lowArena maxHeap) sampleTrace (fun _ => 7) (fun _ => 7)
        staleHeap = .ok m ∧
      m.heap.memBrk = v.heap.memBrk ∧ ∀ e ∈ [(2, 150), (0, 300)], m.blocks e.1 = v.blocks e.1) ∧
    ∃ r, evalMmSpeed lowArena (mmPackage lowArena maxHeap) sampleTrace (fun _ => 9) staleHeap = .ok r ∧
      r.heap.memBrk = v.heap.memBrk ∧ ∀ e ∈ [(2, 150), (0, 300)], r.blocks e.1 = v.blocks e.1 := by
  have hsome : ((evalMmValid lowArena (mmPackage lowArena maxHeap) sampleTrace (fun _ => 0)
      (fun _ => 0) lowArena.zeroed).map Validator.opnum).toOption = some 5 := by
    decide +kernel
  cases hok : evalMmValid lowArena (mmPackage lowArena maxHeap) sampleTrace (fun _ => 0)
      (fun _ => 0) lowArena.zeroed with
  | error e =>
    rw [hok] at hsome
    cases hsome
  | ok v =>
    exact ⟨v, rfl, evals_agree lowArena maxHeap sampleTrace _ _ (fun _ => 7) (fun _ => 7)
      (fun _ => 9) _ staleHeap staleHeap v (by decide) le_rfl hok⟩

end SystemProgramming.MallocLab
