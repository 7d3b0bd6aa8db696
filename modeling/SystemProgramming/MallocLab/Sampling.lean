import SystemProgramming.Library.Selection

/-!
# Timing with the best of `K` samples (`fcyc.c`)

`fcyc` measures a function until the `kbest` smallest measurements agree, or until it has taken
`maxsamples` of them, and returns the smallest.  `values` holds the smallest measurements so far;
`add_sample` keeps them in order.

* `addSample_holds` : what one more measurement does to `values`.
* `fcyc_spec` : when `fcyc` stops, and what it returns.
-/

namespace SystemProgramming.MallocLab

open Selection

variable {α : Type*} [LinearOrder α]

/-! ### The model -/

/-- The parameters of the measurement routines. -/
structure Sampling (α : Type*) where
  kbest : ℕ
  maxsamples : ℤ
  /-- `(1 + epsilon)*x >= y` -/
  within : α → α → Bool

/-- The parameters that `init_fsecs` sets, on whole numbers of cycles. -/
def initFsecs : Sampling ℕ :=
  ⟨3, 20, fun x y => decide (100 * y ≤ 101 * x)⟩

/-- `values` and `samplecount`. -/
structure Sampler (α : Type*) where
  values : ℕ → α
  samplecount : ℕ

/-- `init_sampler`: `calloc` clears the array. -/
def initSampler (zero : α) : Sampler α :=
  ⟨fun _ => zero, 0⟩

/-- `add_sample`. -/
def addSample (P : Sampling α) (s : Sampler α) (val : α) : Sampler α :=
  if s.samplecount < P.kbest then
    ⟨sink (Function.update s.values s.samplecount val) s.samplecount, s.samplecount + 1⟩
  else if val < s.values (P.kbest - 1) then
    ⟨sink (Function.update s.values (P.kbest - 1) val) (P.kbest - 1), s.samplecount + 1⟩
  else
    -- `pos` is 0 and nothing sinks
    ⟨sink s.values 0, s.samplecount + 1⟩

/-- `has_converged`. -/
def hasConverged (P : Sampling α) (s : Sampler α) : Bool :=
  decide (P.kbest ≤ s.samplecount) && P.within (s.values 0) (s.values (P.kbest - 1))

theorem samplecount_addSample (P : Sampling α) (s : Sampler α) (val : α) :
    (addSample P s val).samplecount = s.samplecount + 1 := by
  rw [addSample]
  split
  · rfl
  · split
    · rfl
    · rfl

/-- The `do … while` loop of `fcyc`; `cyc i` is what the counter shows for the call number `i` of the
function. -/
def fcycLoop (P : Sampling α) (cyc : ℕ → α) (s : Sampler α) : Sampler α :=
  if hasConverged P (addSample P s (cyc s.samplecount)) = false ∧
      ((addSample P s (cyc s.samplecount)).samplecount : ℤ) < P.maxsamples then
    fcycLoop P cyc (addSample P s (cyc s.samplecount))
  else addSample P s (cyc s.samplecount)
termination_by (P.maxsamples - s.samplecount).toNat
decreasing_by
  have hcount := samplecount_addSample P s (cyc s.samplecount)
  omega

/-- `fcyc`. -/
def fcyc (P : Sampling α) (zero : α) (cyc : ℕ → α) : α :=
  (fcycLoop P cyc (initSampler zero)).values 0

/-! ### One more measurement -/

/-- The array holds the smallest of the measurements `xs`, in order. -/
structure Holds (P : Sampling α) (xs : List α) (s : Sampler α) : Prop where
  samplecount : s.samplecount = xs.length
  values : cells s.values (min P.kbest xs.length) = smallest P.kbest xs

variable {P : Sampling α} {xs : List α} {s : Sampler α} {cyc : ℕ → α}

theorem initSampler_holds (zero : α) : Holds P [] (initSampler zero) :=
  ⟨rfl, by rw [List.length_nil, Nat.min_zero, smallest]; simp [cells]⟩

/-- `add_sample` keeps the smallest measurements. -/
theorem addSample_holds (hk : 0 < P.kbest) (h : Holds P xs s) (val : α) :
    Holds P (xs ++ [val]) (addSample P s val) := by
  obtain ⟨hcount, hvalues⟩ := h
  refine ⟨by rw [samplecount_addSample, hcount, List.length_append]; rfl, ?_⟩
  rw [List.length_append, List.length_singleton, addSample]
  obtain ⟨k, hk'⟩ : ∃ k, P.kbest = k + 1 := ⟨P.kbest - 1, by omega⟩
  split
  · next hlt =>
    -- the array is not full
    have hbelow : cells (Function.update s.values s.samplecount val) xs.length =
        smallest P.kbest xs := by
      rw [← hvalues, Nat.min_eq_right (by omega)]
      exact cells_congr fun i hi => Function.update_of_ne (by omega) _ _
    have hsorted : (cells (Function.update s.values s.samplecount val) xs.length).Pairwise
        (· ≤ ·) := by
      rw [hbelow]
      exact smallest_pairwise
    rw [Nat.min_eq_right (by omega), smallest_concat_of_length_lt (by omega), ← hbelow, hcount]
    rw [hcount] at hsorted
    rw [sink_cells hsorted, Function.update_self]
  · next hfull =>
    have hall : cells s.values (k + 1) = smallest (k + 1) xs := by
      rw [← hk', ← hvalues, Nat.min_eq_left (by omega)]
    have hlast : (smallest (k + 1) xs)[k]? = some (s.values k) := by
      rw [← hall]
      exact getElem?_cells k.lt_succ_self
    rw [Nat.min_eq_left (by omega), hk', Nat.add_sub_cancel]
    split
    · next hlt =>
      -- the last of the values gives way
      have hbelow : cells (Function.update s.values k val) k = (smallest (k + 1) xs).take k := by
        rw [← hall, take_cells k.le_succ]
        exact cells_congr fun i hi => Function.update_of_ne (by omega) _ _
      have hsorted : (cells (Function.update s.values k val) k).Pairwise (· ≤ ·) := by
        rw [hbelow]
        exact smallest_pairwise.sublist (List.take_sublist k _)
      show cells (sink (Function.update s.values k val) k) (k + 1) = _
      rw [smallest_concat_of_lt hlast hlt, sink_cells hsorted, hbelow, Function.update_self]
    · next hle =>
      rw [smallest_concat_of_le hlast (not_lt.mp hle)]
      exact hall

/-- The smallest measurements agree. -/
def Converged (P : Sampling α) (xs : List α) : Prop :=
  ∃ x y, (smallest P.kbest xs)[0]? = some x ∧ (smallest P.kbest xs)[P.kbest - 1]? = some y ∧
    P.within x y = true

theorem Holds.hasConverged (hk : 0 < P.kbest) (h : Holds P xs s) :
    hasConverged P s = true ↔ Converged P xs := by
  obtain ⟨hcount, hvalues⟩ := h
  rw [MallocLab.hasConverged, Bool.and_eq_true, decide_eq_true_iff]
  constructor
  · rintro ⟨hle, hwithin⟩
    rw [Nat.min_eq_left (by omega)] at hvalues
    refine ⟨s.values 0, s.values (P.kbest - 1), ?_, ?_, hwithin⟩
    · rw [← hvalues]
      exact getElem?_cells hk
    · rw [← hvalues]
      exact getElem?_cells (by omega)
  · rintro ⟨x, y, hx, hy, hwithin⟩
    rw [← hvalues] at hx hy
    have hlt := (List.getElem?_eq_some_iff.mp hy).1
    rw [length_cells] at hlt
    rw [getElem?_cells (by omega)] at hx hy
    cases hx
    cases hy
    exact ⟨by omega, hwithin⟩

/-! ### The loop -/

/-- The loop ends with the first measurements that agree, or with the last that it may take. -/
theorem fcycLoop_spec (hk : 0 < P.kbest) {s : Sampler α} {n : ℕ} (h : Holds P (cells cyc n) s) :
    ∃ m : ℕ, n < m ∧ Holds P (cells cyc m) (fcycLoop P cyc s) ∧
      (∀ i : ℕ, n < i → i < m → ¬ Converged P (cells cyc i) ∧ (i : ℤ) < P.maxsamples) ∧
      (Converged P (cells cyc m) ∨ P.maxsamples ≤ m) := by
  have hcount : s.samplecount = n := by rw [h.samplecount, length_cells]
  have hnext : Holds P (cells cyc (n + 1)) (addSample P s (cyc s.samplecount)) := by
    rw [cells_succ, hcount]
    exact addSample_holds hk h (cyc n)
  have hcount' : (addSample P s (cyc s.samplecount)).samplecount = n + 1 := by
    rw [samplecount_addSample, hcount]
  unfold fcycLoop
  split
  · next hgo =>
    obtain ⟨hdiverge, hmax⟩ := hgo
    obtain ⟨m, hm, hholds, hbefore, hend⟩ := fcycLoop_spec hk hnext
    refine ⟨m, by omega, hholds, fun i hi him => ?_, hend⟩
    rcases Nat.lt_or_eq_of_le (show n + 1 ≤ i by omega) with hlt | rfl
    · exact hbefore i hlt him
    · refine ⟨fun hconv => ?_, by rw [hcount'] at hmax; exact hmax⟩
      rw [(hnext.hasConverged hk).mpr hconv] at hdiverge
      cases hdiverge
  · next hstop =>
    refine ⟨n + 1, n.lt_succ_self, hnext, fun i hi him => by omega, ?_⟩
    by_cases hconv : Converged P (cells cyc (n + 1))
    · exact Or.inl hconv
    · refine Or.inr (not_lt.mp fun hmax => hstop ⟨?_, by rw [hcount']; exact hmax⟩)
      exact Bool.eq_false_of_not_eq_true fun htrue => hconv ((hnext.hasConverged hk).mp htrue)
termination_by (P.maxsamples - s.samplecount).toNat
decreasing_by
  rw [hcount'] at hmax ⊢
  omega

/-- **`fcyc`** takes measurements until the `kbest` smallest so far agree, at least one and no more than
`maxsamples`.  It ends with the smallest of them in order in `values`, and returns the least. -/
theorem fcyc_spec (P : Sampling α) (zero : α) (cyc : ℕ → α) (hk : 0 < P.kbest) :
    ∃ m : ℕ, 0 < m ∧ (m : ℤ) ≤ max 1 P.maxsamples ∧
      (∀ i : ℕ, 0 < i → i < m → ¬ Converged P (cells cyc i)) ∧
      (Converged P (cells cyc m) ∨ P.maxsamples ≤ m) ∧
      cells (fcycLoop P cyc (initSampler zero)).values (min P.kbest m) =
        smallest P.kbest (cells cyc m) ∧
      fcyc P zero cyc ∈ cells cyc m ∧ ∀ x ∈ cells cyc m, fcyc P zero cyc ≤ x := by
  obtain ⟨m, hm, hholds, hbefore, hend⟩ :=
    fcycLoop_spec (n := 0) hk (s := initSampler zero) (initSampler_holds zero)
  have hmax : (m : ℤ) ≤ max 1 P.maxsamples := by
    rcases Nat.lt_or_eq_of_le (show 1 ≤ m from hm) with hlt | rfl
    · have hlast := (hbefore (m - 1) (by omega) (by omega)).2
      omega
    · exact le_max_left _ _
  have hvalues := hholds.values
  rw [length_cells] at hvalues
  have hleast : (smallest P.kbest (cells cyc m))[0]? = some (fcyc P zero cyc) := by
    rw [← hvalues]
    exact getElem?_cells (by omega)
  exact ⟨m, hm, hmax, fun i hi him => (hbefore i hi him).1, hend, hvalues,
    smallest_head hk hleast⟩

theorem fcyc_spec_warm :
    ∃ m : ℕ, 0 < m ∧ (m : ℤ) ≤ max 1 initFsecs.maxsamples ∧
      (∀ i : ℕ, 0 < i → i < m → ¬ Converged initFsecs (cells (fun i => 900 - 9 * i) i)) ∧
      (Converged initFsecs (cells (fun i => 900 - 9 * i) m) ∨ initFsecs.maxsamples ≤ m) ∧
      cells (fcycLoop initFsecs (fun i => 900 - 9 * i) (initSampler 0)).values
        (min initFsecs.kbest m) = smallest initFsecs.kbest (cells (fun i => 900 - 9 * i) m) ∧
      fcyc initFsecs 0 (fun i => 900 - 9 * i) ∈ cells (fun i => 900 - 9 * i) m ∧
      ∀ x ∈ cells (fun i => 900 - 9 * i) m, fcyc initFsecs 0 (fun i => 900 - 9 * i) ≤ x :=
  fcyc_spec initFsecs 0 (fun i => 900 - 9 * i) (by decide)

end SystemProgramming.MallocLab
