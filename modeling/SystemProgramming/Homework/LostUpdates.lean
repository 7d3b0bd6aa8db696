import SystemProgramming.Homework.Counters

/-!
# What the race of `badcnt` can show

Without the semaphore a thread can store over what the other has added.

* `RaceInv` : how few and how many of the increments can be left at any time.
* `Racing.iterations` : a thread that runs alone for a while.
* `badcnt_shows_iff` : which values `main` can print, exactly.
-/

namespace SystemProgramming.Homework

open Transition

/-! ### Bounds -/

section
variable {niters : ℤ} {th : Bool → ThreadPc} {g g' : Globals} {t : Bool} {pc : ThreadPc} {s : State}

theorem ThreadPc.done_nonneg (h : pc.Counted niters) : 0 ≤ pc.done niters := by
  cases pc <;> simp only [ThreadPc.Counted] at h <;> simp only [ThreadPc.done] <;> omega

/-- The stores that the threads have done. -/
def stores (niters : ℤ) (th : Bool → ThreadPc) : ℤ :=
  (th false).done niters + (th true).done niters

/-- The bounds of the counter.  Any store leaves at least `1`, and a thread past its first iteration
loads at least `1`; so the last store of all leaves at least `2`, unless it is a first one. -/
structure RaceInv (niters : ℤ) (th : Bool → ThreadPc) (g : Globals) : Prop where
  counted : ∀ t, (th t).Counted niters
  nonneg : 0 ≤ g.cnt
  le_stores : g.cnt ≤ stores niters th
  stored : 1 ≤ stores niters th → 1 ≤ g.cnt
  all : (∀ t, (th t).done niters = niters.toNat) → min niters.toNat 2 ≤ g.cnt
  loaded : ∀ t i v, th t = .loaded i v → 0 ≤ v ∧ v ≤ stores niters th ∧ (1 ≤ i → 1 ≤ v)

theorem stores_update : stores niters (Function.update th t pc) =
    stores niters th + (pc.done niters - (th t).done niters) :=
  sum_update (ThreadPc.done niters) th t pc

theorem RaceInv.done_le (h : RaceInv niters th g) (t : Bool) :
    (th t).done niters ≤ stores niters th := by
  have hfalse := ThreadPc.done_nonneg (h.counted false)
  have htrue := ThreadPc.done_nonneg (h.counted true)
  rw [stores]
  cases t <;> omega

/-- A step that stores nothing. -/
theorem RaceInv.quiet (h : RaceInv niters th g) (hcounted : pc.Counted niters)
    (hdone : pc.done niters = (th t).done niters)
    (hloaded : ∀ i v, pc = .loaded i v → v = g.cnt) : RaceInv niters (Function.update th t pc) g := by
  have hstores : stores niters (Function.update th t pc) = stores niters th := by
    rw [stores_update]
    omega
  refine ⟨forall_update h.counted hcounted, h.nonneg, ?_, ?_, fun hall => h.all fun u => ?_,
    fun u i v hu => ?_⟩
  · rw [hstores]
    exact h.le_stores
  · rw [hstores]
    exact h.stored
  · rw [← hall u]
    by_cases hut : u = t
    · subst hut
      rw [Function.update_self, hdone]
    · rw [Function.update_of_ne hut]
  · rw [hstores]
    by_cases hut : u = t
    · subst hut
      rw [Function.update_self] at hu
      have hle := h.done_le u
      rw [← hdone, hu] at hle
      rw [hloaded i v hu]
      exact ⟨h.nonneg, h.le_stores, fun hi => h.stored (hi.trans hle)⟩
    · rw [Function.update_of_ne hut] at hu
      exact h.loaded u i v hu

/-- The store of `cnt++`. -/
theorem RaceInv.store {i v : ℤ} (h : RaceInv niters th g) (hpc : th t = .loaded i v) :
    RaceInv niters (Function.update th t (.test (i + 1))) { g with cnt := v + 1 } := by
  obtain ⟨hnonneg, hle, hpos⟩ := h.loaded t i v hpc
  have hcounted := h.counted t
  rw [hpc] at hcounted
  obtain ⟨h0, h1⟩ := hcounted
  have hstores : stores niters (Function.update th t (.test (i + 1))) = stores niters th + 1 := by
    rw [stores_update, hpc]
    show stores niters th + (i + 1 - i) = _
    omega
  refine ⟨forall_update h.counted ⟨by omega, by omega⟩, ?_, ?_, fun _ => ?_, fun hall => ?_,
    fun u j w hu => ?_⟩
  · show 0 ≤ v + 1
    omega
  · show v + 1 ≤ _
    omega
  · show 1 ≤ v + 1
    omega
  · have hlast := hall t
    rw [Function.update_self] at hlast
    have hlast' : i + 1 = niters.toNat := hlast
    show ((min niters.toNat 2 : ℕ) : ℤ) ≤ v + 1
    by_cases hi : 1 ≤ i
    · have := hpos hi
      omega
    · omega
  · by_cases hut : u = t
    · subst hut
      rw [Function.update_self] at hu
      cases hu
    · rw [Function.update_of_ne hut] at hu
      obtain ⟨hw, hwle, hwpos⟩ := h.loaded u j w hu
      exact ⟨hw, by omega, hwpos⟩

theorem RaceInv.thread (h : RaceInv niters th g)
    (hx : Badcnt.thread (fun v => v + 1) niters (th t) g = some (pc, g')) :
    RaceInv niters (Function.update th t pc) g' := by
  have hcounted := h.counted t
  cases hpc : th t with
  | absent | locking | stored | ended =>
    rw [hpc] at hx
    cases hx
  | test i =>
    rw [hpc] at hx hcounted
    obtain ⟨h0, h1⟩ := hcounted
    have hx' : some (if i < niters then ThreadPc.entered i else .ended, g) = some (pc, g') := hx
    by_cases hi : i < niters
    · rw [if_pos hi] at hx'
      cases hx'
      refine h.quiet ⟨h0, hi⟩ ?_ (by simp)
      rw [hpc]
      rfl
    · rw [if_neg hi] at hx'
      cases hx'
      refine h.quiet trivial ?_ (by simp)
      rw [hpc]
      show (niters.toNat : ℤ) = i
      omega
  | entered i =>
    rw [hpc] at hx hcounted
    cases hx
    refine h.quiet hcounted ?_ fun j v hv => ?_
    · rw [hpc]
      rfl
    · cases hv
      rfl
  | loaded i v =>
    rw [hpc] at hx
    cases hx
    exact h.store hpc

theorem RaceInv.reachable (hs : (program (Badcnt.thread (fun v => v + 1) niters)).Reachable s) :
    RaceInv niters s.thread s.globals := by
  refine program_invariant (Badcnt.lively _ niters) hs ?_ (fun th g t h habsent => ?_)
    fun _ _ _ _ _ h hx => h.thread hx
  · refine ⟨fun _ => trivial, le_rfl, le_rfl, fun h => h, fun hall => ?_, by simp⟩
    have hzero : (0 : ℤ) = niters.toNat := hall false
    show ((min niters.toNat 2 : ℕ) : ℤ) ≤ 0
    omega
  · refine h.quiet ⟨le_rfl, Int.natCast_nonneg _⟩ ?_ (by simp)
    rw [habsent]
    rfl

/-- What is left of the increments at the end. -/
theorem RaceInv.shows {v : ℤ} (hs : (program (Badcnt.thread (fun v => v + 1) niters)).Reachable s)
    (hv : s.main = .exited v) : (min niters.toNat 2 : ℕ) ≤ v ∧ v ≤ 2 * niters.toNat := by
  obtain ⟨hended, rfl⟩ := exited_spec (Badcnt.lively _ niters) hs hv
  have h := RaceInv.reachable hs
  refine ⟨h.all fun t => by rw [hended t]; rfl, ?_⟩
  have hle := h.le_stores
  rw [stores, hended false, hended true] at hle
  have hle' : s.globals.cnt ≤ (niters.toNat : ℤ) + niters.toNat := hle
  omega

end

/-! ### Runs that lose updates -/

/-- A run of `badcnt`, with a counter that does not wrap, gets there. -/
def Racing (niters : ℤ) (th : Bool → ThreadPc) (cnt : ℤ) : Prop :=
  (program (Badcnt.thread (fun v => v + 1) niters)).Reachable ⟨.joinFirst, th, ⟨cnt, 1⟩⟩

/-- Where the first and the second thread are. -/
def pair (first second : ThreadPc) (t : Bool) : ThreadPc := bif t then second else first

@[simp] theorem update_first (a b c : ThreadPc) : Function.update (pair a b) false c = pair c b := by
  funext t
  cases t <;> rfl

@[simp] theorem update_second (a b c : ThreadPc) : Function.update (pair a b) true c = pair a c := by
  funext t
  cases t <;> rfl

section
variable {niters cnt cnt' : ℤ} {th : Bool → ThreadPc} {pc : ThreadPc}

theorem racing_start (niters : ℤ) : Racing niters (pair (.test 0) (.test 0)) 0 := by
  have hrun : [.main, .main].foldlM (step (Badcnt.thread (fun v => v + 1) niters)) start =
      some ⟨.joinFirst, Function.update (Function.update start.thread false (.test 0)) true (.test 0),
        ⟨0, 1⟩⟩ := rfl
  have hthread : Function.update (Function.update start.thread false (.test 0)) true (.test 0) =
      pair (.test 0) (.test 0) := by
    funext t
    cases t <;> rfl
  rw [hthread] at hrun
  exact System.Reachable.of_foldlM (fun _ _ _ h => h) (.init rfl) hrun

theorem Racing.step (h : Racing niters th cnt) (t : Bool)
    (hx : Badcnt.thread (fun v => v + 1) niters (th t) ⟨cnt, 1⟩ = some (pc, ⟨cnt', 1⟩)) :
    Racing niters (Function.update th t pc) cnt' := by
  have hstep : Homework.step (Badcnt.thread (fun v => v + 1) niters) ⟨.joinFirst, th, ⟨cnt, 1⟩⟩
      (.thread t) = some ⟨.joinFirst, Function.update th t pc, ⟨cnt', 1⟩⟩ := by
    show Option.map _ (Badcnt.thread (fun v => v + 1) niters (th t) ⟨cnt, 1⟩) = _
    rw [hx, Option.map_some]
  exact System.Reachable.step h hstep

theorem Racing.enters {i : ℤ} (h : Racing niters th cnt) (t : Bool) (ht : th t = .test i)
    (hi : i < niters) : Racing niters (Function.update th t (.entered i)) cnt := by
  refine h.step t ?_
  rw [ht, Badcnt.thread, if_pos hi]

theorem Racing.loads {i : ℤ} (h : Racing niters th cnt) (t : Bool) (ht : th t = .entered i) :
    Racing niters (Function.update th t (.loaded i cnt)) cnt := by
  refine h.step t ?_
  rw [ht]
  rfl

theorem Racing.stores {i v : ℤ} (h : Racing niters th cnt) (t : Bool) (ht : th t = .loaded i v) :
    Racing niters (Function.update th t (.test (i + 1))) (v + 1) := by
  refine h.step t ?_
  rw [ht]
  rfl

theorem Racing.ends {i : ℤ} (h : Racing niters th cnt) (t : Bool) (ht : th t = .test i)
    (hi : niters ≤ i) : Racing niters (Function.update th t .ended) cnt := by
  refine h.step t ?_
  rw [ht, Badcnt.thread, if_neg (Int.not_lt.mpr hi)]

/-- A thread alone, from its test to the store that it does next. -/
theorem Racing.begins {i : ℤ} (h : Racing niters th cnt) (t : Bool) (ht : th t = .test i)
    (hi : i < niters) : Racing niters (Function.update th t (.loaded i cnt)) cnt := by
  have hloaded := (h.enters t ht hi).loads t (Function.update_self ..)
  rwa [Function.update_idem] at hloaded

/-- A thread alone, for `k` iterations. -/
theorem Racing.iterations {i : ℤ} (h : Racing niters th cnt) (t : Bool) (ht : th t = .test i) (k : ℕ)
    (hk : i + k ≤ niters) : Racing niters (Function.update th t (.test (i + k))) (cnt + k) := by
  induction k with
  | zero =>
    rw [show i + ((0 : ℕ) : ℤ) = i by omega, show cnt + ((0 : ℕ) : ℤ) = cnt by omega, ← ht,
      Function.update_eq_self]
    exact h
  | succ k ih =>
    have hbegun := (ih (by omega)).begins t (Function.update_self ..) (by omega)
    have hdone := hbegun.stores t (Function.update_self ..)
    rw [Function.update_idem, Function.update_idem] at hdone
    rw [show i + ((k + 1 : ℕ) : ℤ) = i + k + 1 by omega,
      show cnt + ((k + 1 : ℕ) : ℤ) = cnt + k + 1 by omega]
    exact hdone

/-- The end of `main`, when the threads have done their iterations. -/
theorem Racing.exits {i j : ℤ} (h : Racing niters (pair (.test i) (.test j)) cnt) (hi : niters ≤ i)
    (hj : niters ≤ j) : ∃ s, (program (Badcnt.thread (fun v => v + 1) niters)).Reachable s ∧
      s.main = .exited cnt := by
  have hended := (h.ends false rfl hi).ends true (by rw [update_first]; rfl) hj
  rw [update_first, update_second] at hended
  have hrun : [.main, .main, .main].foldlM (Homework.step (Badcnt.thread (fun v => v + 1) niters))
      ⟨.joinFirst, pair .ended .ended, ⟨cnt, 1⟩⟩ =
      some ⟨.exited cnt, pair .ended .ended, ⟨cnt, 1⟩⟩ := rfl
  exact ⟨_, System.Reachable.of_foldlM (fun _ _ _ h => h) hended hrun, rfl⟩

/-- Two lost updates.  The first thread loads `0` and the second does `j` iterations, all but one at
most; the store of the first leaves `1`.  Then the first does `a` iterations more, the second loads,
and what the first does in the rest of its run is lost to the store of the second. -/
theorem shows_between {n a j : ℕ} (ha : a < n) (hj : j < n) :
    ∃ s, (program (Badcnt.thread (fun v => v + 1) n)).Reachable s ∧
      s.main = .exited (a + n + 1 - j) := by
  have h1 := (racing_start n).begins false rfl (by omega)
  rw [update_first] at h1
  have h2 := h1.iterations true rfl j (by omega)
  rw [update_second] at h2
  have h3 := h2.stores false rfl
  rw [update_first] at h3
  have h4 := h3.iterations false rfl a (by omega)
  rw [update_first] at h4
  have h5 := h4.begins true rfl (by omega)
  rw [update_second] at h5
  have h6 := h5.iterations false rfl (n - 1 - a) (by omega)
  rw [update_first] at h6
  have h7 := h6.stores true rfl
  rw [update_second] at h7
  have h8 := h7.iterations true rfl (n - 1 - j) (by omega)
  rw [update_second] at h8
  have hcnt : (0 : ℤ) + 1 + a + 1 + (n - 1 - j : ℕ) = a + n + 1 - j := by omega
  rw [hcnt] at h8
  exact h8.exits (by omega) (by omega)

/-- One iteration each, and one of the two is lost. -/
theorem shows_one : ∃ s, (program (Badcnt.thread (fun v => v + 1) 1)).Reachable s ∧
    s.main = .exited 1 := by
  have h1 := (racing_start 1).begins false rfl (by decide)
  rw [update_first] at h1
  have h2 := h1.iterations true rfl 1 (by decide)
  rw [update_second] at h2
  have h3 := h2.stores false rfl
  rw [update_first] at h3
  exact h3.exits (by decide) (by decide)

/-- Every number within the bounds is shown by some run. -/
theorem exists_shows {k : ℕ} (hlow : min niters.toNat 2 ≤ k) (hhigh : k ≤ 2 * niters.toNat) :
    ∃ s, (program (Badcnt.thread (fun v => v + 1) niters)).Reachable s ∧ s.main = .exited k := by
  by_cases hpos : 0 < niters
  · obtain ⟨n, rfl⟩ := Int.eq_ofNat_of_zero_le hpos.le
    have hn : (n : ℤ).toNat = n := rfl
    rw [hn] at hlow hhigh
    by_cases hfew : k ≤ n + 1
    · by_cases hone : k = 1
      · obtain rfl : n = 1 := by omega
        rw [hone]
        exact shows_one
      · have hshow := shows_between (n := n) (a := 0) (j := n + 1 - k) (by omega) (by omega)
        rw [show ((0 : ℕ) : ℤ) + n + 1 - (n + 1 - k : ℕ) = k by omega] at hshow
        exact hshow
    · have hshow := shows_between (n := n) (a := k - n - 1) (j := 0) (by omega) (by omega)
      rw [show ((k - n - 1 : ℕ) : ℤ) + n + 1 - (0 : ℕ) = k by omega] at hshow
      exact hshow
  · obtain rfl : k = 0 := by omega
    exact (racing_start niters).exits (by omega) (by omega)

/-- **The values of the race.**  The numbers that `badcnt` can print are those from `2` to twice the
number of iterations; with one iteration, `1` as well, and with none only `0`. -/
theorem badcnt_shows_iff (niters v : ℤ) : (∃ s, (badcnt niters).Reachable s ∧ s.main = .exited v) ↔
    ∃ k : ℕ, min niters.toNat 2 ≤ k ∧ k ≤ 2 * niters.toNat ∧ v = int32 k := by
  constructor
  · rintro ⟨s, hs, hv⟩
    obtain ⟨r, hr, rfl⟩ := (reachable_map_iff (Badcnt.maps int32_succ) rfl).mp hs
    cases hm : r.main with
    | exited w =>
      obtain ⟨hlow, hhigh⟩ := RaceInv.shows hr hm
      obtain ⟨k, rfl⟩ := Int.eq_ofNat_of_zero_le ((Int.natCast_nonneg _).trans hlow)
      have hv' : r.main.map int32 = .exited v := hv
      rw [hm] at hv'
      exact ⟨k, by omega, by omega, (MainPc.exited.inj hv').symm⟩
    | createFirst | createSecond | joinFirst | joinSecond | check =>
      have hv' : r.main.map int32 = .exited v := hv
      rw [hm] at hv'
      cases hv'
  · rintro ⟨k, hlow, hhigh, hk⟩
    obtain ⟨r, hr, hm⟩ := exists_shows hlow hhigh
    refine ⟨r.map int32, (reachable_map_iff (Badcnt.maps int32_succ) rfl).mpr ⟨r, hr, rfl⟩, ?_⟩
    show r.main.map int32 = _
    rw [hm, hk]
    rfl

end

end SystemProgramming.Homework
