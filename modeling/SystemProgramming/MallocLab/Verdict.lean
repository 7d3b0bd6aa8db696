import SystemProgramming.MallocLab.DriverRuns

/-!
# The verdict of the driver on `mm.c`

* `Refuses` : the requests that `eval_mm_valid` refuses.
* `Passed` : what holds of `mm.c` while requests pass; `Passed.step` is one request.
* `evalMmValid_mm` : the verdict of `eval_mm_valid` on every legal trace.
-/

namespace SystemProgramming.MallocLab

open ByteMemory Holdings Folds Transition

/-! ### The verdict -/

/-- The size a request asks for. -/
def TraceOp.size : TraceOp → ℕ
  | .alloc _ size => size
  | .realloc _ size => size
  | .free _ => 0

/-- `eval_mm_valid` on `mm.c` refuses a request in the heap `h`: a request of size 0 or with no room
for it, and every other reallocation of an identifier whose low byte is 128 or more. -/
inductive Refuses (A : Arena) (h : Heap) : TraceOp → MallocError → Prop
  | malloc {i n : ℕ} (hfull : n = 0 ∨ NoRoom A h n) : Refuses A h (.alloc i n) .mallocFailed
  | realloc {i n : ℕ} (hfull : n = 0 ∨ NoRoom A h n) : Refuses A h (.realloc i n) .reallocFailed
  | signed {i n : ℕ} (hroom : ¬ (n = 0 ∨ NoRoom A h n)) (hbyte : 128 ≤ i % 256) :
      Refuses A h (.realloc i n) .notPreserved

/-- What holds of `mm.c` when the requests `ops` have passed: the payloads of the live identifiers
are filled with their low bytes. -/
structure Passed (A : Arena) (fuel slots : ℕ) (ops : List TraceOp) (v : Validator)
    (res : List ℕ) : Prop where
  judged : Judged A (mmPackage A fuel) slots ops v
  follows : Follows A ops v.heap v.blocks res
  filled : ∀ e ∈ namedBy ops, ∀ a, v.blocks e.1 ≤ a → a < v.blocks e.1 + e.2 →
    v.heap.mem a = UInt8.ofNat e.1

theorem charVal_ofNat_iff (i : ℕ) : charVal (UInt8.ofNat i) = (i % 256 : ℕ) ↔ i % 256 < 128 := by
  rw [charVal, UInt8.toNat_ofNat']
  split <;> omega

theorem memset_outside (h : Heap) {p v n a : ℕ} (ha : a < p ∨ p + n ≤ a) :
    (h.memset p v n).mem a = h.mem a := if_neg (by omega)

theorem memset_inside (h : Heap) {p v n a : ℕ} (h1 : p ≤ a) (h2 : a < p + n) :
    (h.memset p v n).mem a = UInt8.ofNat v := if_pos ⟨h1, h2⟩

namespace Passed

variable {A : Arena} {fuel slots : ℕ} {ops : List TraceOp} {v v' : Validator} {res : List ℕ}

/-- The payload of a live identifier, in numbers. -/
theorem mem_ranges (s : Passed A fuel slots ops v res) {r : Range} (hr : r ∈ v.ranges) :
    ∃ e ∈ namedBy ops, r = payload (v.blocks e.1) e.2 ∧ 0 < e.2 := by
  rw [s.judged.recorded.listed] at hr
  obtain ⟨e, he, rfl⟩ := List.mem_map.mp hr
  exact ⟨e, he, rfl, (s.judged.recorded.sizes e he).2.2.1⟩

/-- The range of a block that a call returns passes the check, against any of the live ranges. -/
theorem addRange_eq (s : Passed A fuel slots ops v res) {r : Request} {p : ℕ} {h' : Heap}
    {ranges : List Range} (hs : Served A ⟨v.heap, liveBlocks v.blocks ops⟩ r p h') (hp : p ≠ 0)
    (h0 : 0 < r.size) (hn : r.size ≤ intMax) (hsub : ranges ⊆ v.ranges) :
    addRange A h' ranges p r.size v.opnum = .ok (payload p r.size :: ranges) := by
  have hin := hs.inside hp
  have hmax : intMax = 2 ^ 31 - 1 := rfl
  refine (addRange_ok_iff (by omega)).mpr
    ⟨⟨h0, hn⟩, hs.aligned hp, hin.1, ?_, fun d hd => Or.inl ?_, rfl⟩
  · show p + r.size - 1 ≤ h'.memBrk - 1
    omega
  · obtain ⟨e, he, rfl, hpos⟩ := s.mem_ranges (hsub hd)
    have hapart := hs.apart hp _ _ (Follows.mem_live he)
    simp only [Range.Apart, payload]
    omega

/-- A fresh payload that is filled leaves the others filled. -/
theorem filled_update {l : List (ℕ × ℕ)} {blocks : ℕ → ℕ} {h : Heap} {i n p : ℕ}
    (hi : i ∉ l.map Prod.fst)
    (hapart : ∀ e ∈ l, p + n ≤ blocks e.1 ∨ blocks e.1 + e.2 ≤ p)
    (hfilled : ∀ e ∈ l, ∀ a, blocks e.1 ≤ a → a < blocks e.1 + e.2 → h.mem a = UInt8.ofNat e.1) :
    ∀ e ∈ (i, n) :: l, ∀ a, Function.update blocks i p e.1 ≤ a →
      a < Function.update blocks i p e.1 + e.2 → (h.memset p i n).mem a = UInt8.ofNat e.1 := by
  intro e he a h1 h2
  rcases List.mem_cons.mp he with rfl | he
  · rw [Function.update_self] at h1 h2
    exact memset_inside h h1 h2
  · have hne : e.1 ≠ i := fun heq => hi (heq ▸ List.mem_map_of_mem he)
    rw [Function.update_of_ne hne] at h1 h2
    have hap := hapart e he
    rw [memset_outside h (by omega)]
    exact hfilled e he a h1 h2

/-- The comparison after a reallocation goes wrong exactly for the bytes from 128. -/
theorem preserved_eq (s : Passed A fuel slots ops v res) {i k n q : ℕ} {h' : Heap}
    (he : (i, k) ∈ namedBy ops) (h0 : 0 < n) (hn : n ≤ intMax)
    (hret : mmRealloc A fuel (v.blocks i) n v.heap = some (q, h')) (hq : q ≠ 0) :
    preserved h'.mem q i (comparedSize n (v.blockSizes i)) = decide (i % 256 < 128) := by
  obtain ⟨bs, fl, o⟩ := reachable_owned s.follows.reachable
  obtain ⟨-, hsize, hpos, hmax⟩ := s.judged.recorded.sizes _ he
  have hcopied := o.realloc_copied (Follows.mem_live he) (Nat.ne_of_gt h0) hn hret hq
  have hall : ∀ j < min n k, h'.mem (q + j) = UInt8.ofNat i := fun j hj =>
    (hcopied j hj).trans <| s.filled _ he _ (Nat.le_add_right _ _) <| by
      show v.blocks i + j < v.blocks i + k
      omega
  rw [hsize, comparedSize_eq hn hmax]
  by_cases hbyte : i % 256 < 128
  · rw [decide_eq_true hbyte, preserved, List.all_eq_true]
    intro j hj
    rw [hall j (List.mem_range.mp hj)]
    exact decide_eq_true ((charVal_ofNat_iff i).mpr hbyte)
  · rw [decide_eq_false hbyte, ← Bool.not_eq_true]
    exact fun hpres => hbyte (index_lt_of_preserved hpres (by omega))

/-- **One request.**  It passes unless it is refused. -/
theorem step {o : TraceOp} (s : Passed A fuel slots ops v res)
    (hlegal : o.Legal slots (namedBy ops)) (hsize : o.size ≤ intMax) (hfuel : maxHeap ≤ fuel) :
    (∃ v' res', validStep A (mmPackage A fuel) slots v o = .ok v' ∧
        Passed A fuel slots (ops ++ [o]) v' res' ∧ ∀ e, ¬ Refuses A v.heap o e) ∨
      ∃ e, Refuses A v.heap o e ∧
        validStep A (mmPackage A fuel) slots v o = .error (.mallocError ops.length e) := by
  have hop := s.judged.opnum
  cases o with
  | alloc i n =>
    obtain ⟨hi, hnew, hn⟩ := hlegal
    obtain ⟨p, h', hret, hnull⟩ := s.follows.malloc_returns hfuel n
    have hcall : (mmPackage A fuel).mmMalloc n v.heap = some (p, h') := hret
    by_cases hp : p = 0
    · right
      refine ⟨.mallocFailed, .malloc (hnull.mp hp), ?_⟩
      simp only [validStep, hcall, if_pos hp, hop]
    · left
      have hroom : ¬ (n = 0 ∨ NoRoom A v.heap n) := fun h => hp (hnull.mpr h)
      have h0 : 0 < n := Nat.pos_of_ne_zero fun h => hroom (Or.inl h)
      have hserved := s.follows.served (r := .malloc n) hsize hret
      have hadd := s.addRange_eq hserved hp h0 hsize (List.Subset.refl _)
      have hstep : validStep A (mmPackage A fuel) slots v (.alloc i n) = .ok
          ⟨h'.memset p i n, payload p n :: v.ranges, Function.update v.blocks i p,
            Function.update v.blockSizes i n, v.opnum + 1⟩ := by
        have hadd' : addRange A h' v.ranges p n v.opnum = .ok (payload p n :: v.ranges) := hadd
        simp only [validStep, hcall, if_neg hp, hadd', if_neg (Nat.not_le.mpr hi)]
      have hf := s.follows.alloc hnew hsize hret hp
      have hmem : (i, n) ∈ namedBy (ops ++ [.alloc i n]) := by
        rw [namedBy_append]
        exact List.mem_cons_self
      have hf' := hf.memset hmem i
      rw [Function.update_self] at hf'
      refine ⟨_, _, hstep, ⟨s.judged.step ⟨hi, hnew, hn⟩ hstep, hf', ?_⟩, fun e hr => ?_⟩
      · rw [namedBy_append]
        refine filled_update hnew (fun e he => hserved.apart hp _ _ (Follows.mem_live he))
          fun e he a h1 h2 => ?_
        have hne : v.blocks e.1 ≠ 0 := s.follows.ne_zero (k := e.2) he
        rw [hserved.kept _ _ (Follows.mem_live he) hne a h1 h2]
        exact s.filled e he a h1 h2
      · cases hr with
        | malloc hfull => exact hroom hfull
  | realloc i n =>
    obtain ⟨hi, hn⟩ := hlegal
    obtain ⟨k, he⟩ := Judged.exists_entry hi
    have hin := (s.judged.recorded.sizes _ he).1
    obtain ⟨p, h', hret, hnull⟩ := s.follows.realloc_returns hfuel he n
    have hcall : (mmPackage A fuel).mmRealloc (v.blocks i) n v.heap = some (p, h') := hret
    by_cases hp : p = 0
    · right
      refine ⟨.reallocFailed, .realloc (hnull.mp hp), ?_⟩
      simp only [validStep, if_neg (Nat.not_le.mpr hin), hcall, if_pos hp, hop]
    · have hroom : ¬ (n = 0 ∨ NoRoom A v.heap n) := fun h => hp (hnull.mpr h)
      have h0 : 0 < n := Nat.pos_of_ne_zero fun h => hroom (Or.inl h)
      have hlegal' : (Request.realloc (v.blocks i) n).Legal (liveBlocks v.blocks ops) :=
        ⟨hsize, Or.inr ⟨k, Follows.mem_live he⟩⟩
      have hserved := s.follows.served hlegal' hret
      have hsub : removeRange (v.blocks i) v.ranges ⊆ v.ranges := List.eraseP_sublist.subset
      have hadd : addRange A h' (removeRange (v.blocks i) v.ranges) p n v.opnum =
          .ok (payload p n :: removeRange (v.blocks i) v.ranges) :=
        s.addRange_eq hserved hp h0 hsize hsub
      have hcmp := s.preserved_eq he h0 hsize hret hp
      by_cases hbyte : i % 256 < 128
      · left
        have hstep : validStep A (mmPackage A fuel) slots v (.realloc i n) = .ok
            ⟨h'.memset p i n, payload p n :: removeRange (v.blocks i) v.ranges,
              Function.update v.blocks i p, Function.update v.blockSizes i n, v.opnum + 1⟩ := by
          simp only [validStep, if_neg (Nat.not_le.mpr hin), hcall, if_neg hp, hadd, hcmp,
            decide_eq_true hbyte, if_true]
        have hf := s.follows.realloc he hsize hret hp
        have hmem : (i, n) ∈ namedBy (ops ++ [.realloc i n]) := by
          rw [namedBy_append]
          exact List.mem_cons_self
        have hf' := hf.memset hmem i
        rw [Function.update_self] at hf'
        refine ⟨_, _, hstep, ⟨s.judged.step ⟨hi, hn⟩ hstep, hf', ?_⟩, fun e hr => ?_⟩
        · rw [namedBy_append]
          refine filled_update (key_notMem_release _ i)
            (fun e hrel => hserved.apart hp _ _ (Follows.mem_live (List.mem_of_mem_filter hrel)))
            fun e hrel a h1 h2 => ?_
          obtain ⟨hmem, hne⟩ := mem_release.mp hrel
          have hblock : v.blocks e.1 ≠ v.blocks i := fun heq =>
            hne (s.follows.blocks_inj hmem he heq)
          rw [hserved.kept _ _ (Follows.mem_live hmem) hblock a h1 h2]
          exact s.filled e hmem a h1 h2
        · cases hr with
          | realloc hfull => exact hroom hfull
          | signed _ hbyte' => omega
      · right
        refine ⟨.notPreserved, .signed hroom (Nat.not_lt.mp hbyte), ?_⟩
        rw [← hop]
        simp only [validStep, if_neg (Nat.not_le.mpr hin), hcall, if_neg hp, hadd, hcmp,
          decide_eq_false hbyte, Bool.false_eq_true, if_false]
  | free i =>
    obtain ⟨k, he⟩ := Judged.exists_entry hlegal
    have hin := (s.judged.recorded.sizes _ he).1
    have hcall : (mmPackage A fuel).mmFree (v.blocks i) v.heap = some (mmFree (v.blocks i) v.heap) :=
      rfl
    have hstep : validStep A (mmPackage A fuel) slots v (.free i) = .ok { v with
        heap := mmFree (v.blocks i) v.heap
        ranges := removeRange (v.blocks i) v.ranges
        opnum := v.opnum + 1 } := by
      simp only [validStep, if_neg (Nat.not_le.mpr hin), hcall]
    have hserved := s.follows.served_free he
    refine Or.inl ⟨_, _, hstep, ⟨s.judged.step hlegal hstep, s.follows.free he, ?_⟩, fun e hr => ?_⟩
    · rw [namedBy_append]
      intro e hrel a h1 h2
      obtain ⟨hmem, hne⟩ := mem_release.mp hrel
      have hblock : v.blocks e.1 ≠ v.blocks i := fun heq => hne (s.follows.blocks_inj hmem he heq)
      rw [hserved.kept _ _ (Follows.mem_live hmem) hblock a h1 h2]
      exact s.filled e hmem a h1 h2
    · cases hr

end Passed

/-- `mm_init` on a reset break succeeds. -/
theorem mmInit_reset (A : Arena) (fuel : ℕ) (h : Heap) : ∃ h₀,
    (mmPackage A fuel).mmInit (memResetBrk A h) = some (0, h₀) ∧
      h₀ = (SystemProgramming.MallocLab.mmInit A (memResetBrk A h)).2 := by
  obtain ⟨h₀, heq, _⟩ := mmInit_eq A (memResetBrk A h) rfl
  refine ⟨h₀, congrArg some heq, ?_⟩
  rw [heq]

section Verdict

variable {A : Arena} {fuel : ℕ} {t : Trace} {blocks blockSizes : ℕ → ℕ} {h : Heap}

/-- `eval_mm_valid` on `mm.c` is its loop. -/
theorem evalMmValid_eq (A : Arena) (fuel : ℕ) (blocks blockSizes : ℕ → ℕ) (h : Heap) : ∃ h₀,
    (∀ t : Trace, evalMmValid A (mmPackage A fuel) t blocks blockSizes h =
      t.ops.foldlM (validStep A (mmPackage A fuel) t.slots) ⟨h₀, [], blocks, blockSizes, 0⟩) ∧
    ∀ slots, Passed A fuel slots [] ⟨h₀, [], blocks, blockSizes, 0⟩ [] := by
  obtain ⟨h₀, hinit, hh₀⟩ := mmInit_reset A fuel h
  refine ⟨h₀, fun t => ?_, fun slots => ⟨⟨.nil A slots blocks blockSizes,
    fun _ => List.forall_mem_nil _, by simp, rfl⟩, ?_, List.forall_mem_nil _⟩⟩
  · simp only [evalMmValid, hinit, Int.lt_irrefl, if_false]
  · rw [hh₀]
    exact .init A h blocks

/-- The state of a run of legal requests. -/
theorem passed_of_ok {h₀ : Heap} {v : Validator} (hlegal : t.Legal)
    (hsize : ∀ o ∈ t.ops, o.size ≤ intMax) (hfuel : maxHeap ≤ fuel)
    (hstart : Passed A fuel t.slots [] ⟨h₀, [], blocks, blockSizes, 0⟩ [])
    (hrun : t.ops.foldlM (validStep A (mmPackage A fuel) t.slots) ⟨h₀, [], blocks, blockSizes, 0⟩ =
      .ok v) : ∃ res, Passed A fuel t.slots t.ops v res := by
  refine foldlM_invariant (P := fun ops v => ∃ res, Passed A fuel t.slots ops v res) ⟨[], hstart⟩
    ?_ hrun
  rintro done o post v₁ v₂ hsplit ⟨res, hs⟩ hstep
  have ho : o ∈ t.ops := by
    rw [hsplit]
    simp
  rcases hs.step (hlegal done o post hsplit) (hsize o ho) hfuel with
    ⟨v', res', hok, hs', -⟩ | ⟨e, -, herr⟩
  · rw [hstep] at hok
    cases hok
    exact ⟨res', hs'⟩
  · rw [hstep] at herr
    cases herr

theorem Trace.Legal.front {pre post : List TraceOp} (hlegal : t.Legal) (hops : t.ops = pre ++ post) :
    Trace.Legal ⟨t.numIds, pre⟩ :=
  fun done o rest hsplit => hlegal done o (rest ++ post) (by
    have hsplit' : pre = done ++ o :: rest := hsplit
    rw [hops, hsplit', List.append_assoc, List.cons_append])

/-- **The verdict on `mm.c`.**  On every legal trace with sizes up to `INT_MAX`, over any old heap and
any old contents of the arrays, `eval_mm_valid` returns.  It returns 1 if no request of the trace is
refused in the heap that it meets, and then no two live payloads have a byte in common.  Otherwise it
reports the first request that is refused.  Break addresses are integers: `mem_brk + incr` does not
wrap. -/
theorem evalMmValid_mm (A : Arena) (fuel : ℕ) (t : Trace) (blocks blockSizes : ℕ → ℕ) (h : Heap)
    (hlegal : t.Legal) (hsize : ∀ o ∈ t.ops, o.size ≤ intMax) (hfuel : maxHeap ≤ fuel) :
    (∃ v, evalMmValid A (mmPackage A fuel) t blocks blockSizes h = .ok v ∧
      v.ranges.Pairwise Range.Apart ∧
      ∀ pre o post, t.ops = pre ++ o :: post → ∃ v₀,
        evalMmValid A (mmPackage A fuel) ⟨t.numIds, pre⟩ blocks blockSizes h = .ok v₀ ∧
          ∀ e, ¬ Refuses A v₀.heap o e) ∨
    ∃ pre o post v₀ e, t.ops = pre ++ o :: post ∧
      evalMmValid A (mmPackage A fuel) ⟨t.numIds, pre⟩ blocks blockSizes h = .ok v₀ ∧
      Refuses A v₀.heap o e ∧
      evalMmValid A (mmPackage A fuel) t blocks blockSizes h = .error (.mallocError pre.length e) := by
  obtain ⟨h₀, heval, hstart⟩ := evalMmValid_eq A fuel blocks blockSizes h
  -- the state in which a request is made, and what becomes of the request
  have hstep : ∀ pre o post v₀, t.ops = pre ++ o :: post →
      pre.foldlM (validStep A (mmPackage A fuel) t.slots) ⟨h₀, [], blocks, blockSizes, 0⟩ = .ok v₀ →
      (∃ v', validStep A (mmPackage A fuel) t.slots v₀ o = .ok v' ∧ ∀ e, ¬ Refuses A v₀.heap o e) ∨
        ∃ e, Refuses A v₀.heap o e ∧ validStep A (mmPackage A fuel) t.slots v₀ o =
          .error (.mallocError pre.length e) := by
    intro pre o post v₀ hops hpre
    have hin : ∀ d ∈ pre, d.size ≤ intMax := fun d hd => hsize d (by rw [hops]; simp [hd])
    obtain ⟨res, hs⟩ := passed_of_ok (hlegal.front hops) hin hfuel (hstart t.slots) hpre
    rcases hs.step (hlegal pre o post hops) (hsize o (by rw [hops]; simp)) hfuel with
      ⟨v', -, hok, -, hnot⟩ | herr
    · exact Or.inl ⟨v', hok, hnot⟩
    · exact Or.inr herr
  have hevalPre : ∀ pre, evalMmValid A (mmPackage A fuel) ⟨t.numIds, pre⟩ blocks blockSizes h =
      pre.foldlM (validStep A (mmPackage A fuel) t.slots) ⟨h₀, [], blocks, blockSizes, 0⟩ :=
    fun pre => heval ⟨t.numIds, pre⟩
  rw [heval]
  simp only [hevalPre]
  cases hrun : t.ops.foldlM (validStep A (mmPackage A fuel) t.slots) ⟨h₀, [], blocks, blockSizes, 0⟩ with
  | ok v =>
    left
    obtain ⟨res, hs⟩ := passed_of_ok hlegal hsize hfuel (hstart t.slots) hrun
    refine ⟨v, rfl, ?_, fun pre o post hsplit => ?_⟩
    · rw [hs.judged.recorded.listed, List.pairwise_map]
      exact (List.pairwise_map.mp hs.follows.keys).imp_of_mem fun he hd hne =>
        hs.follows.apart he hd hne
    · rw [hsplit] at hrun
      obtain ⟨v₀, hpre, hrest⟩ := foldlM_append_ok.mp hrun
      obtain ⟨v₁, ho, -⟩ := foldlM_cons_ok.mp hrest
      rcases hstep pre o post v₀ hsplit hpre with ⟨v', -, hnot⟩ | ⟨e, -, herr⟩
      · exact ⟨v₀, hpre, hnot⟩
      · rw [ho] at herr
        cases herr
  | error stop =>
    right
    obtain ⟨pre, o, post, v₀, hsplit, hpre, ho⟩ := foldlM_eq_error_iff.mp hrun
    rcases hstep pre o post v₀ hsplit hpre with ⟨v', hok, -⟩ | ⟨e, hrefuse, herr⟩
    · rw [ho] at hok
      cases hok
    · refine ⟨pre, o, post, v₀, e, hsplit, hpre, hrefuse, ?_⟩
      rw [← herr, ho]

end Verdict

/-- A trace that is served, and one whose data check fails for the number of its block. -/
theorem evalMmValid_mm_sample :
    (∃ v, evalMmValid lowArena (mmPackage lowArena maxHeap) sampleTrace (fun _ => 0) (fun _ => 0)
        staleHeap = .ok v ∧ v.ranges.Pairwise Range.Apart ∧
      ∀ pre o post, sampleTrace.ops = pre ++ o :: post → ∃ v₀,
        evalMmValid lowArena (mmPackage lowArena maxHeap) ⟨3, pre⟩ (fun _ => 0) (fun _ => 0)
          staleHeap = .ok v₀ ∧ ∀ e, ¬ Refuses lowArena v₀.heap o e) ∧
    ∃ pre o post v₀ e, [.alloc 128 8, .realloc 128 8] = pre ++ o :: post ∧
      evalMmValid lowArena (mmPackage lowArena maxHeap) ⟨129, pre⟩ (fun _ => 0) (fun _ => 0)
        staleHeap = .ok v₀ ∧ Refuses lowArena v₀.heap o e ∧
      evalMmValid lowArena (mmPackage lowArena maxHeap) ⟨129, [.alloc 128 8, .realloc 128 8]⟩
        (fun _ => 0) (fun _ => 0) staleHeap = .error (.mallocError pre.length e) := by
  constructor
  · rcases evalMmValid_mm lowArena maxHeap sampleTrace (fun _ => 0) (fun _ => 0) staleHeap
      (by decide) (by decide) le_rfl with hok | ⟨pre, o, post, v₀, e, -, -, -, herr⟩
    · exact hok
    · have hsome : ((evalMmValid lowArena (mmPackage lowArena maxHeap) sampleTrace (fun _ => 0)
          (fun _ => 0) staleHeap).map Validator.opnum).toOption = some 5 := by
        decide +kernel
      rw [herr] at hsome
      cases hsome
  · rcases evalMmValid_mm lowArena maxHeap ⟨129, [.alloc 128 8, .realloc 128 8]⟩ (fun _ => 0)
      (fun _ => 0) staleHeap (by decide) (by decide) le_rfl with ⟨v, hok, -⟩ | herr
    · have hnone : ((evalMmValid lowArena (mmPackage lowArena maxHeap)
          ⟨129, [.alloc 128 8, .realloc 128 8]⟩ (fun _ => 0) (fun _ => 0) staleHeap).map
            Validator.opnum).toOption = none := by
        decide +kernel
      rw [hok] at hnone
      cases hnone
    · exact herr

end SystemProgramming.MallocLab
