import Mathlib.Algebra.Order.Group.Int
import Mathlib.Algebra.Ring.Int.Defs
import Mathlib.Algebra.Ring.Nat
import Mathlib.Data.Int.Order.Basic
import Mathlib.Logic.Function.Basic
import SystemProgramming.Library.Transition

/-!
# Two threads and one counter

`badcnt` and `goodcnt` have one `main`, which starts two threads that add to `cnt` and prints what
came of it; in `goodcnt` each `cnt++` stands between `P` and `V`.  A load and a store of the volatile
`cnt` are steps of their own, and the two threads and `main` interleave in any way.

* `Badcnt.thread`, `Goodcnt.thread`, `program` : the two threads and the `main` around them.
* `program_invariant` : invariants of the threads and the globals, whatever `main` does.
* `step_map` : arithmetic modulo `2 ^ 32` follows the arithmetic of `ℤ`.
* `goodcnt_exclusive` : the semaphore lets one thread in, and every run that ends prints the count.
* `goodcnt_ends` : no run of `goodcnt` deadlocks, and each ends after the same number of steps.
-/

namespace SystemProgramming.Homework

open Transition

/-! ### The model -/

/-- Where a thread is.  `entered` is before the load of `cnt++`, and `loaded` holds what it loaded;
`locking` and `stored` are before the `P` and the `V` of `goodcnt`. -/
inductive ThreadPc
  | absent
  | test (i : ℤ)
  | locking (i : ℤ)
  | entered (i : ℤ)
  | loaded (i v : ℤ)
  | stored (i : ℤ)
  | ended
  deriving DecidableEq

/-- The global variables; `badcnt` has no `mutex` and leaves the field alone. -/
structure Globals where
  cnt : ℤ
  mutex : ℕ
  deriving DecidableEq

/-- A step of `thread` in `badcnt.c`, with the `int` increment as a parameter. -/
def Badcnt.thread (inc : ℤ → ℤ) (niters : ℤ) : ThreadPc → Globals → Option (ThreadPc × Globals)
  | .test i, g => some (if i < niters then .entered i else .ended, g)
  | .entered i, g => some (.loaded i g.cnt, g)
  | .loaded i v, g => some (.test (i + 1), { g with cnt := inc v })
  | _, _ => none

/-- A step of `thread` in `goodcnt.c`.  A `P` waits until the semaphore is positive. -/
def Goodcnt.thread (inc : ℤ → ℤ) (niters : ℤ) : ThreadPc → Globals → Option (ThreadPc × Globals)
  | .test i, g => some (if i < niters then .locking i else .ended, g)
  | .locking i, g =>
    if 0 < g.mutex then some (.entered i, { g with mutex := g.mutex - 1 }) else none
  | .entered i, g => some (.loaded i g.cnt, g)
  | .loaded i v, g => some (.stored i, { g with cnt := inc v })
  | .stored i, g => some (.test (i + 1), { g with mutex := g.mutex + 1 })
  | _, _ => none

/-- Where `main` is; `exited` holds the `cnt` of the check and the `printf`. -/
inductive MainPc
  | createFirst
  | createSecond
  | joinFirst
  | joinSecond
  | check
  | exited (cnt : ℤ)

/-- The process; thread `false` is `tid1` and thread `true` is `tid2`. -/
structure State where
  main : MainPc
  thread : Bool → ThreadPc
  globals : Globals

/-- Who takes the next step. -/
inductive Actor
  | main
  | thread (t : Bool)

/-- A step of `main`, which is the same in both programs. -/
def mainStep (s : State) : Option State :=
  match s.main with
  | .createFirst =>
    some { s with main := .createSecond, thread := Function.update s.thread false (.test 0) }
  | .createSecond =>
    some { s with main := .joinFirst, thread := Function.update s.thread true (.test 0) }
  | .joinFirst => if s.thread false = .ended then some { s with main := .joinSecond } else none
  | .joinSecond => if s.thread true = .ended then some { s with main := .check } else none
  | .check => some { s with main := .exited s.globals.cnt }
  | .exited _ => none

/-- A step of the process. -/
def step (thread : ThreadPc → Globals → Option (ThreadPc × Globals)) (s : State) :
    Actor → Option State
  | .main => mainStep s
  | .thread t => (thread (s.thread t) s.globals).map fun x =>
      { s with thread := Function.update s.thread t x.1, globals := x.2 }

/-- The process before `main` creates a thread, after `Sem_init` in `goodcnt`. -/
def start : State := ⟨.createFirst, fun _ => .absent, ⟨0, 1⟩⟩

/-- The process whose threads run `thread`. -/
def program (thread : ThreadPc → Globals → Option (ThreadPc × Globals)) : System State Actor where
  init s := s = start
  step s a s' := step thread s a = some s'

/-- The `int` that a number is stored as. -/
def int32 (v : ℤ) : ℤ := v.bmod (2 ^ 32)

/-- `badcnt.c`, started with the argument `niters`. -/
def badcnt (niters : ℤ) : System State Actor :=
  program (Badcnt.thread (fun v => int32 (v + 1)) niters)

/-- `goodcnt.c`, started with the argument `niters`. -/
def goodcnt (niters : ℤ) : System State Actor :=
  program (Goodcnt.thread (fun v => int32 (v + 1)) niters)

/-- What `main` prints at the end. -/
def report (niters cnt : ℤ) : String :=
  if cnt ≠ int32 (2 * niters) then "BOOM! cnt=" ++ toString cnt ++ "\n"
  else "OK cnt=" ++ toString cnt ++ "\n"

/-! ### Runs -/

section
variable {thread : ThreadPc → Globals → Option (ThreadPc × Globals)} {s s' : State}

/-- `main` has created the thread. -/
def MainPc.started : MainPc → Bool → Bool
  | .createFirst, _ => false
  | .createSecond, t => !t
  | _, _ => true

/-- `main` has joined the thread. -/
def MainPc.joined : MainPc → Bool → Bool
  | .createFirst, _ | .createSecond, _ | .joinFirst, _ => false
  | .joinSecond, t => !t
  | .check, _ | .exited _, _ => true

/-- What a step of `main` does. -/
inductive MainMoves (s : State) : State → Prop
  | create (t : Bool) (pc : MainPc) (hbefore : s.main.started t = false)
      (hrank : s.main = .createFirst ∧ pc = .createSecond ∧ t = false ∨
        s.main = .createSecond ∧ pc = .joinFirst ∧ t = true) :
      MainMoves s { s with main := pc, thread := Function.update s.thread t (.test 0) }
  | join (t : Bool) (pc : MainPc) (hended : s.thread t = .ended)
      (hrank : s.main = .joinFirst ∧ pc = .joinSecond ∧ t = false ∨
        s.main = .joinSecond ∧ pc = .check ∧ t = true) :
      MainMoves s { s with main := pc }
  | exit (hmain : s.main = .check) : MainMoves s { s with main := .exited s.globals.cnt }

theorem mainStep_moves (h : mainStep s = some s') : MainMoves s s' := by
  rw [mainStep] at h
  cases hm : s.main with
  | createFirst =>
    rw [hm] at h
    cases h
    exact .create false .createSecond (by rw [hm]; rfl) (Or.inl ⟨hm, rfl, rfl⟩)
  | createSecond =>
    rw [hm] at h
    cases h
    exact .create true .joinFirst (by rw [hm]; rfl) (Or.inr ⟨hm, rfl, rfl⟩)
  | joinFirst =>
    rw [hm] at h
    obtain ⟨hended, h⟩ := Option.ite_none_right_eq_some.mp h
    cases h
    exact .join false .joinSecond hended (Or.inl ⟨hm, rfl, rfl⟩)
  | joinSecond =>
    rw [hm] at h
    obtain ⟨hended, h⟩ := Option.ite_none_right_eq_some.mp h
    cases h
    exact .join true .check hended (Or.inr ⟨hm, rfl, rfl⟩)
  | check =>
    rw [hm] at h
    cases h
    exact .exit hm
  | exited cnt =>
    rw [hm] at h
    cases h

/-- What a step of a thread does. -/
theorem step_thread {t : Bool} (h : step thread s (.thread t) = some s') :
    ∃ pc g, thread (s.thread t) s.globals = some (pc, g) ∧
      s' = { s with thread := Function.update s.thread t pc, globals := g } := by
  obtain ⟨⟨pc, g⟩, hx, hs'⟩ := Option.map_eq_some_iff.mp h
  exact ⟨pc, g, hx, hs'.symm⟩

/-- The threads and `main` agree on which threads there are. -/
def Forked (s : State) : Prop :=
  ∀ t, (s.main.started t = false → s.thread t = .absent) ∧
    (s.main.started t = true → s.thread t ≠ .absent) ∧
    (s.main.joined t = true → s.thread t = .ended)

/-- A thread function that leaves threads alone that are not there or have ended. -/
def Lively (thread : ThreadPc → Globals → Option (ThreadPc × Globals)) : Prop :=
  ∀ pc g x, thread pc g = some x → pc ≠ .absent ∧ pc ≠ .ended ∧ x.1 ≠ .absent

theorem Badcnt.lively (inc : ℤ → ℤ) (niters : ℤ) : Lively (Badcnt.thread inc niters) := by
  intro pc g x h
  cases pc with
  | absent | locking | stored | ended => cases h
  | entered | loaded =>
    cases h
    exact ⟨by simp, by simp, by simp⟩
  | test i =>
    cases h
    refine ⟨by simp, by simp, ?_⟩
    dsimp only
    split <;> simp

theorem Goodcnt.lively (inc : ℤ → ℤ) (niters : ℤ) : Lively (Goodcnt.thread inc niters) := by
  intro pc g x h
  cases pc with
  | absent | ended => cases h
  | entered | loaded | stored =>
    cases h
    exact ⟨by simp, by simp, by simp⟩
  | test i =>
    cases h
    refine ⟨by simp, by simp, ?_⟩
    dsimp only
    split <;> simp
  | locking i =>
    obtain ⟨-, h⟩ := Option.ite_none_right_eq_some.mp h
    cases h
    exact ⟨by simp, by simp, by simp⟩

theorem Forked.step {a : Actor} (hlive : Lively thread) (hs : Forked s)
    (h : step thread s a = some s') : Forked s' := by
  intro u
  obtain ⟨habsent, hthere, hjoined⟩ := hs u
  cases a with
  | main =>
    cases mainStep_moves h with
    | create t pc hbefore hrank =>
      rcases hrank with ⟨hm, rfl, rfl⟩ | ⟨hm, rfl, rfl⟩ <;> rw [hm] at habsent hthere hjoined <;>
        cases u <;> simp_all [MainPc.started, MainPc.joined]
    | join t pc hended hrank =>
      rcases hrank with ⟨hm, rfl, rfl⟩ | ⟨hm, rfl, rfl⟩ <;> rw [hm] at habsent hthere hjoined <;>
        cases u <;> simp_all [MainPc.started, MainPc.joined]
    | exit hmain =>
      rw [hmain] at habsent hthere hjoined
      exact ⟨habsent, hthere, hjoined⟩
  | thread t =>
    obtain ⟨pc, g, hx, rfl⟩ := step_thread h
    obtain ⟨hnew, hgone, hpc⟩ := hlive _ _ _ hx
    by_cases hu : u = t
    · subst hu
      exact ⟨fun h0 => absurd (habsent h0) hnew, fun _ => by simpa using hpc,
        fun h1 => absurd (hjoined h1) hgone⟩
    · simpa [Function.update_of_ne hu] using ⟨habsent, hthere, hjoined⟩

theorem Forked.reachable (hlive : Lively thread) (hs : (program thread).Reachable s) : Forked s := by
  refine hs.invariant (fun s h => ?_) fun s a s' h hstep => h.step hlive hstep
  rw [show s = start from h]
  intro t
  exact ⟨fun _ => rfl, by simp [start, MainPc.started], by simp [start, MainPc.joined]⟩

/-- **The rule for threads and globals.**  What holds of them at the start and is kept by creating a
thread and by every step of a thread holds throughout. -/
theorem program_invariant {P : (Bool → ThreadPc) → Globals → Prop} (hlive : Lively thread)
    (hs : (program thread).Reachable s) (hstart : P (fun _ => .absent) ⟨0, 1⟩)
    (hcreate : ∀ th g t, P th g → th t = .absent → P (Function.update th t (.test 0)) g)
    (hthread : ∀ th g t pc g', P th g → thread (th t) g = some (pc, g') →
      P (Function.update th t pc) g') : P s.thread s.globals := by
  suffices h : Forked s ∧ P s.thread s.globals from h.2
  refine hs.invariant (P := fun s => Forked s ∧ P s.thread s.globals) (fun s h => ?_)
    fun s a s' h hstep => ?_
  · rw [show s = start from h]
    exact ⟨Forked.reachable hlive (.init rfl), hstart⟩
  · refine ⟨h.1.step hlive hstep, ?_⟩
    cases a with
    | main =>
      cases mainStep_moves hstep with
      | create t pc hbefore hrank => exact hcreate _ _ t h.2 ((h.1 t).1 hbefore)
      | join t pc hended hrank => exact h.2
      | exit hmain => exact h.2
    | thread t =>
      obtain ⟨pc, g, hx, rfl⟩ := step_thread hstep
      exact hthread _ _ t _ _ h.2 hx

/-- At the end both threads have ended, and `main` shows the counter. -/
theorem exited_spec {v : ℤ} (hlive : Lively thread) (hs : (program thread).Reachable s)
    (hmain : s.main = .exited v) : (∀ t, s.thread t = .ended) ∧ v = s.globals.cnt := by
  have hall : ∀ s, (program thread).Reachable s → ∀ v, s.main = .exited v → v = s.globals.cnt := by
    intro s hs
    suffices h : Forked s ∧ ∀ v, s.main = .exited v → v = s.globals.cnt from h.2
    refine hs.invariant (P := fun s => Forked s ∧ ∀ v, s.main = .exited v → v = s.globals.cnt)
      (fun s h => ?_) fun s a s' h hstep => ⟨h.1.step hlive hstep, fun v hv => ?_⟩
    · rw [show s = start from h]
      exact ⟨Forked.reachable hlive (.init rfl), by simp [start]⟩
    · cases a with
      | main =>
        cases mainStep_moves hstep with
        | create t pc hbefore hrank => rcases hrank with ⟨-, rfl, -⟩ | ⟨-, rfl, -⟩ <;> cases hv
        | join t pc hended hrank => rcases hrank with ⟨-, rfl, -⟩ | ⟨-, rfl, -⟩ <;> cases hv
        | exit hmain =>
          cases hv
          rfl
      | thread t =>
        obtain ⟨pc, g, hx, rfl⟩ := step_thread hstep
        have hv' : s.main = .exited v := hv
        have hended := (h.1 t).2.2 (by rw [hv']; rfl)
        exact absurd hended (hlive _ _ _ hx).2.1
  exact ⟨fun t => (Forked.reachable hlive hs t).2.2 (by rw [hmain]; rfl), hall s hs v hmain⟩

end

/-! ### Other arithmetic -/

section
variable {inc inc' f : ℤ → ℤ} {niters : ℤ}

/-- The thread with its values mapped. -/
def ThreadPc.map (f : ℤ → ℤ) : ThreadPc → ThreadPc
  | .loaded i v => .loaded i (f v)
  | pc => pc

/-- The globals with the counter mapped. -/
def Globals.map (f : ℤ → ℤ) (g : Globals) : Globals := { g with cnt := f g.cnt }

/-- `main` with the value that it shows mapped. -/
def MainPc.map (f : ℤ → ℤ) : MainPc → MainPc
  | .exited v => .exited (f v)
  | pc => pc

/-- The process with its values mapped. -/
def State.map (f : ℤ → ℤ) (s : State) : State :=
  ⟨s.main.map f, fun t => (s.thread t).map f, s.globals.map f⟩

theorem ThreadPc.map_eq_ended {pc : ThreadPc} : pc.map f = .ended ↔ pc = .ended := by
  cases pc <;> simp [ThreadPc.map]

theorem State.map_update (s : State) (m : MainPc) (t : Bool) (pc : ThreadPc) (g : Globals) :
    State.map f ⟨m, Function.update s.thread t pc, g⟩ =
      ⟨m.map f, Function.update (s.map f).thread t (pc.map f), g.map f⟩ := by
  have hthread : (fun u => (Function.update s.thread t pc u).map f) =
      Function.update (s.map f).thread t (pc.map f) := by
    funext u
    by_cases hu : u = t
    · subst hu
      rw [Function.update_self, Function.update_self]
    · rw [Function.update_of_ne hu, Function.update_of_ne hu]
      rfl
  rw [← hthread]
  rfl

theorem join_map (s r : State) (t : Bool) :
    (if (s.map f).thread t = .ended then some (r.map f) else none) =
      (if s.thread t = .ended then some r else none).map (State.map f) := by
  by_cases hended : s.thread t = .ended
  · rw [if_pos hended, if_pos (show (s.map f).thread t = .ended from
      ThreadPc.map_eq_ended.mpr hended)]
    rfl
  · rw [if_neg hended, if_neg (show ¬ (s.map f).thread t = .ended from
      mt ThreadPc.map_eq_ended.mp hended)]
    rfl

theorem mainStep_map (s : State) : mainStep (s.map f) = (mainStep s).map (State.map f) := by
  obtain ⟨m, th, g⟩ := s
  cases m with
  | createFirst =>
    exact congrArg some (State.map_update ⟨.createFirst, th, g⟩ .createSecond false (.test 0) g).symm
  | createSecond =>
    exact congrArg some (State.map_update ⟨.createSecond, th, g⟩ .joinFirst true (.test 0) g).symm
  | joinFirst => exact join_map ⟨.joinFirst, th, g⟩ ⟨.joinSecond, th, g⟩ false
  | joinSecond => exact join_map ⟨.joinSecond, th, g⟩ ⟨.check, th, g⟩ true
  | check => rfl
  | exited v => rfl

/-- A thread function that computes with other values does the same to the mapped ones. -/
def Maps (f : ℤ → ℤ) (thread thread' : ThreadPc → Globals → Option (ThreadPc × Globals)) : Prop :=
  ∀ pc g, thread' (pc.map f) (g.map f) =
    (thread pc g).map fun x => (x.1.map f, x.2.map f)

theorem Badcnt.maps (hf : ∀ v, f (inc v) = inc' (f v)) :
    Maps f (Badcnt.thread inc niters) (Badcnt.thread inc' niters) := by
  intro pc g
  cases pc with
  | absent | locking | entered | stored | ended => rfl
  | test i =>
    show some (if i < niters then ThreadPc.entered i else .ended, _) =
      some ((if i < niters then ThreadPc.entered i else .ended).map f, _)
    split <;> rfl
  | loaded i v =>
    show some (_, (⟨inc' (f v), g.mutex⟩ : Globals)) = some (_, ⟨f (inc v), g.mutex⟩)
    rw [hf]
    rfl

theorem Goodcnt.maps (hf : ∀ v, f (inc v) = inc' (f v)) :
    Maps f (Goodcnt.thread inc niters) (Goodcnt.thread inc' niters) := by
  intro pc g
  cases pc with
  | absent | entered | stored | ended => rfl
  | test i =>
    show some (if i < niters then ThreadPc.locking i else .ended, _) =
      some ((if i < niters then ThreadPc.locking i else .ended).map f, _)
    split <;> rfl
  | locking i =>
    show (if 0 < g.mutex then _ else _) = Option.map _ (if 0 < g.mutex then _ else _)
    split <;> rfl
  | loaded i v =>
    show some (_, (⟨inc' (f v), g.mutex⟩ : Globals)) = some (_, ⟨f (inc v), g.mutex⟩)
    rw [hf]
    rfl

variable {thread thread' : ThreadPc → Globals → Option (ThreadPc × Globals)} {s : State}

/-- **Steps map.** -/
theorem step_map (h : Maps f thread thread') (s : State) (a : Actor) :
    step thread' (s.map f) a = (step thread s a).map (State.map f) := by
  cases a with
  | main => exact mainStep_map s
  | thread t =>
    show Option.map _ (thread' ((s.thread t).map f) (s.globals.map f)) =
      Option.map _ (Option.map _ (thread (s.thread t) s.globals))
    rw [h, Option.map_map, Option.map_map]
    congr 1
    funext x
    exact (State.map_update s s.main t x.1 x.2).symm

theorem start_map (h0 : f 0 = 0) : start.map f = start := by
  show (⟨.createFirst, fun _ => .absent, ⟨f 0, 1⟩⟩ : State) = start
  rw [h0]
  rfl

/-- The runs with other values are the mapped runs. -/
theorem reachable_map_iff (h : Maps f thread thread') (h0 : f 0 = 0) :
    (program thread').Reachable s ↔ ∃ r, (program thread).Reachable r ∧ r.map f = s := by
  constructor
  · intro hs
    refine hs.invariant (P := fun s => ∃ r, (program thread).Reachable r ∧ r.map f = s)
      (fun s h => ?_) fun s a s' ih hstep => ?_
    · exact ⟨start, .init rfl, (start_map h0).trans (show s = start from h).symm⟩
    · obtain ⟨r, hr, rfl⟩ := ih
      have hstep' : step thread' (r.map f) a = some s' := hstep
      rw [step_map h] at hstep'
      obtain ⟨r', hr', rfl⟩ := Option.map_eq_some_iff.mp hstep'
      exact ⟨r', hr.step hr', rfl⟩
  · rintro ⟨r, hr, rfl⟩
    refine hr.invariant (P := fun r => (program thread').Reachable (r.map f)) (fun s h => ?_)
      fun s a s' ih hstep => ?_
    · rw [show s = start from h, start_map h0]
      exact .init rfl
    · have hstep' : step thread s a = some s' := hstep
      exact ih.step (a := a) (show step thread' (s.map f) a = some (s'.map f) by
        rw [step_map h, hstep']
        rfl)

theorem int32_succ (v : ℤ) : int32 (v + 1) = int32 (int32 v + 1) :=
  Int.bmod_add_bmod.symm

end

/-! ### What the threads have done -/

/-- The iterations whose store a thread has done. -/
def ThreadPc.done (niters : ℤ) : ThreadPc → ℤ
  | .absent => 0
  | .test i | .locking i | .entered i | .loaded i _ => i
  | .stored i => i + 1
  | .ended => niters.toNat

/-- The loop counter of a thread is in range. -/
def ThreadPc.Counted (niters : ℤ) : ThreadPc → Prop
  | .test i => 0 ≤ i ∧ i ≤ niters.toNat
  | .locking i | .entered i | .loaded i _ | .stored i => 0 ≤ i ∧ i < niters
  | .absent | .ended => True

/-- `1` between `P` and `V`. -/
def ThreadPc.held : ThreadPc → ℤ
  | .entered _ | .loaded _ _ | .stored _ => 1
  | _ => 0

/-- What two threads have of something, after a step of one of them. -/
theorem sum_update (f : ThreadPc → ℤ) (th : Bool → ThreadPc) (t : Bool) (pc : ThreadPc) :
    f (Function.update th t pc false) + f (Function.update th t pc true) =
      f (th false) + f (th true) + (f pc - f (th t)) := by
  cases t with
  | false =>
    rw [Function.update_self, Function.update_of_ne (by decide)]
    omega
  | true =>
    rw [Function.update_self, Function.update_of_ne (by decide)]
    omega

theorem forall_update {p : ThreadPc → Prop} {th : Bool → ThreadPc} {t : Bool} {pc : ThreadPc}
    (h : ∀ u, p (th u)) (hpc : p pc) (u : Bool) : p (Function.update th t pc u) := by
  by_cases hu : u = t
  · subst hu
    rw [Function.update_self]
    exact hpc
  · rw [Function.update_of_ne hu]
    exact h u

/-! ### The semaphore -/

section
variable {inc : ℤ → ℤ} {niters : ℤ} {s s' : State}

/-- One thread at a time holds the semaphore. -/
structure LockInv (niters : ℤ) (th : Bool → ThreadPc) (g : Globals) : Prop where
  counted : ∀ t, (th t).Counted niters
  mutex : (g.mutex : ℤ) + ((th false).held + (th true).held) = 1

/-- What a step of a thread of `goodcnt` keeps. -/
theorem Goodcnt.thread_counted {pc pc' : ThreadPc} {g g' : Globals} (h : pc.Counted niters)
    (hx : Goodcnt.thread inc niters pc g = some (pc', g')) :
    pc'.Counted niters ∧ (g'.mutex : ℤ) + pc'.held = g.mutex + pc.held := by
  cases pc with
  | absent | ended => cases hx
  | test i =>
    cases hx
    obtain ⟨h0, h1⟩ := h
    split
    · next hi => exact ⟨⟨h0, hi⟩, rfl⟩
    · exact ⟨trivial, rfl⟩
  | locking i =>
    obtain ⟨hpos, hx⟩ := Option.ite_none_right_eq_some.mp hx
    cases hx
    refine ⟨h, ?_⟩
    show ((g.mutex - 1 : ℕ) : ℤ) + 1 = g.mutex + 0
    omega
  | entered i =>
    cases hx
    exact ⟨h, rfl⟩
  | loaded i v =>
    cases hx
    exact ⟨h, rfl⟩
  | stored i =>
    cases hx
    obtain ⟨h0, h1⟩ := h
    refine ⟨⟨by omega, by omega⟩, ?_⟩
    show ((g.mutex + 1 : ℕ) : ℤ) + 0 = g.mutex + 1
    omega

theorem LockInv.thread {th : Bool → ThreadPc} {g g' : Globals} {t : Bool} {pc : ThreadPc}
    (h : LockInv niters th g) (hx : Goodcnt.thread inc niters (th t) g = some (pc, g')) :
    LockInv niters (Function.update th t pc) g' := by
  obtain ⟨hcounted, hheld⟩ := Goodcnt.thread_counted (h.counted t) hx
  refine ⟨forall_update h.counted hcounted, ?_⟩
  have hmutex := h.mutex
  rw [sum_update]
  omega

theorem LockInv.create {th : Bool → ThreadPc} {g : Globals} {t : Bool}
    (h : LockInv niters th g) (habsent : th t = .absent) :
    LockInv niters (Function.update th t (.test 0)) g := by
  refine ⟨forall_update h.counted ⟨le_rfl, Int.natCast_nonneg _⟩, ?_⟩
  have hmutex := h.mutex
  rw [sum_update, habsent]
  show (g.mutex : ℤ) + ((th false).held + (th true).held + (0 - 0)) = 1
  omega

theorem LockInv.start : LockInv niters (fun _ => .absent) ⟨0, 1⟩ :=
  ⟨fun _ => trivial, rfl⟩

theorem LockInv.reachable (hs : (program (Goodcnt.thread inc niters)).Reachable s) :
    LockInv niters s.thread s.globals :=
  program_invariant (Goodcnt.lively inc niters) hs LockInv.start
    (fun _ _ _ h habsent => h.create habsent) fun _ _ _ _ _ h hx => h.thread hx

theorem ThreadPc.held_cases (pc : ThreadPc) : pc.held = 0 ∨ pc.held = 1 := by
  cases pc <;> simp [ThreadPc.held]

/-- While a thread is between `P` and `V`, the other is not. -/
theorem LockInv.exclusive {th : Bool → ThreadPc} {g : Globals} (h : LockInv niters th g) (t : Bool)
    (ht : (th t).held = 1) : (th !t).held = 0 ∧ g.mutex = 0 := by
  have hmutex := h.mutex
  have hfalse := (th false).held_cases
  have htrue := (th true).held_cases
  cases t with
  | false =>
    show (th true).held = 0 ∧ g.mutex = 0
    omega
  | true =>
    show (th false).held = 0 ∧ g.mutex = 0
    omega

/-- The counter is what has been counted, and what a thread has loaded is still in it. -/
structure CountInv (niters : ℤ) (th : Bool → ThreadPc) (g : Globals) : Prop where
  lock : LockInv niters th g
  cnt : g.cnt = (th false).done niters + (th true).done niters
  loaded : ∀ t i v, th t = .loaded i v → v = g.cnt

theorem CountInv.thread {th : Bool → ThreadPc} {g g' : Globals} {t : Bool} {pc : ThreadPc}
    (h : CountInv niters th g)
    (hx : Goodcnt.thread (fun v => v + 1) niters (th t) g = some (pc, g')) :
    CountInv niters (Function.update th t pc) g' := by
  have hcnt := h.cnt
  have hcounted := h.lock.counted t
  -- only a store changes the counter, and then the other thread is not between its load and store
  suffices hnew : g'.cnt = g.cnt + (pc.done niters - (th t).done niters) ∧
      (g'.cnt = g.cnt ∨ (th t).held = 1) ∧ (∀ i v, pc = .loaded i v → v = g'.cnt) by
    obtain ⟨hcnt', hsame, hpc⟩ := hnew
    refine ⟨h.lock.thread hx, ?_, fun u i v hu => ?_⟩
    · rw [sum_update]
      omega
    · by_cases hut : u = t
      · subst hut
        rw [Function.update_self] at hu
        exact hpc i v hu
      · rw [Function.update_of_ne hut] at hu
        rcases hsame with hsame | hheld
        · rw [hsame]
          exact h.loaded u i v hu
        · have hother := (h.lock.exclusive t hheld).1
          rw [← Bool.eq_not_of_ne hut, hu] at hother
          cases hother
  cases hpc : th t with
  | absent | ended =>
    rw [hpc] at hx
    cases hx
  | test i =>
    rw [hpc] at hx hcounted
    cases hx
    obtain ⟨h0, h1⟩ := hcounted
    split
    · refine ⟨?_, Or.inl rfl, by simp⟩
      show g.cnt = g.cnt + (i - i)
      omega
    · refine ⟨?_, Or.inl rfl, by simp⟩
      show g.cnt = g.cnt + (niters.toNat - i)
      omega
  | locking i =>
    rw [hpc] at hx
    obtain ⟨-, hx⟩ := Option.ite_none_right_eq_some.mp hx
    cases hx
    refine ⟨?_, Or.inl rfl, by simp⟩
    show g.cnt = g.cnt + (i - i)
    omega
  | entered i =>
    rw [hpc] at hx
    cases hx
    refine ⟨?_, Or.inl rfl, fun j v hv => ?_⟩
    · show g.cnt = g.cnt + (i - i)
      omega
    · cases hv
      rfl
  | loaded i v =>
    rw [hpc] at hx
    cases hx
    refine ⟨?_, Or.inr rfl, by simp⟩
    show v + 1 = g.cnt + (i + 1 - i)
    rw [h.loaded t i v hpc]
    omega
  | stored i =>
    rw [hpc] at hx
    cases hx
    refine ⟨?_, Or.inl rfl, by simp⟩
    show g.cnt = g.cnt + (i + 1 - (i + 1))
    omega

theorem CountInv.create {th : Bool → ThreadPc} {g : Globals} {t : Bool}
    (h : CountInv niters th g) (habsent : th t = .absent) :
    CountInv niters (Function.update th t (.test 0)) g := by
  refine ⟨h.lock.create habsent, ?_, fun u i v hu => ?_⟩
  · have hcnt := h.cnt
    rw [sum_update, habsent]
    show g.cnt = _ + (0 - 0)
    omega
  · by_cases hut : u = t
    · subst hut
      rw [Function.update_self] at hu
      cases hu
    · rw [Function.update_of_ne hut] at hu
      exact h.loaded u i v hu

theorem CountInv.reachable (hs : (program (Goodcnt.thread (fun v => v + 1) niters)).Reachable s) :
    CountInv niters s.thread s.globals :=
  program_invariant (Goodcnt.lively _ niters) hs ⟨LockInv.start, rfl, by simp⟩
    (fun _ _ _ h habsent => h.create habsent) fun _ _ _ _ _ h hx => h.thread hx

/-- What `main` of `goodcnt` shows. -/
theorem goodcnt_shows {v : ℤ} (hs : (goodcnt niters).Reachable s) (hv : s.main = .exited v) :
    v = int32 (2 * niters.toNat) := by
  obtain ⟨r, hr, rfl⟩ := (reachable_map_iff (Goodcnt.maps int32_succ) rfl).mp hs
  obtain ⟨hended, hcnt⟩ := exited_spec (Goodcnt.lively _ niters) hs hv
  have hcount := (CountInv.reachable hr).cnt
  rw [ThreadPc.map_eq_ended.mp (hended false), ThreadPc.map_eq_ended.mp (hended true)] at hcount
  rw [hcnt]
  show int32 r.globals.cnt = _
  rw [hcount]
  show int32 ((niters.toNat : ℤ) + niters.toNat) = _
  rw [Int.two_mul]

/-- **The semaphore works.**  In every state of every run at most one thread is between `P` and `V`,
and when `main` has printed, it has printed twice the number of iterations; with `niters` not
negative that is the `OK` line. -/
theorem goodcnt_exclusive {v : ℤ} (hs : (goodcnt niters).Reachable s) :
    (∀ t, (s.thread t).held = 1 → (s.thread !t).held = 0) ∧
    (s.main = .exited v → v = int32 (2 * niters.toNat) ∧
      (0 ≤ niters → report niters v = "OK cnt=" ++ toString v ++ "\n")) := by
  refine ⟨fun t ht => ((LockInv.reachable hs).exclusive t ht).1, fun hv => ?_⟩
  have hval := goodcnt_shows hs hv
  refine ⟨hval, fun hpos => ?_⟩
  rw [report, if_neg]
  rw [hval, Int.toNat_of_nonneg hpos]
  exact not_not.mpr rfl

/-- The steps of a run of `goodcnt` with one iteration up to the increment of the second thread, which the
first one waits for. -/
def oneIteration : List Actor :=
  [.main, .main, .thread true, .thread false, .thread true, .thread true]

/-- The rest of that run. -/
def oneIterationEnd : List Actor :=
  [.thread true, .thread true, .thread false, .thread true, .thread false, .thread false, .thread false,
    .thread false, .main, .main, .main]

theorem goodcnt_exclusive_one : ∃ s s', (goodcnt 1).Reachable s ∧ s.thread true = .loaded 0 0 ∧
    s.thread false = .locking 0 ∧ (s.thread true).held = 1 ∧ (s.thread false).held = 0 ∧
    (goodcnt 1).Reachable s' ∧ s'.main = .exited 2 ∧ (2 : ℤ) = int32 (2 * (1 : ℤ).toNat) ∧
    report 1 2 = "OK cnt=" ++ toString (2 : ℤ) ++ "\n" := by
  obtain ⟨s, hrun, hloaded, hwaits⟩ : ∃ s,
      oneIteration.foldlM (step (Goodcnt.thread (fun v => int32 (v + 1)) 1)) start = some s ∧
        s.thread true = .loaded 0 0 ∧ s.thread false = .locking 0 := ⟨_, rfl, rfl, rfl⟩
  obtain ⟨s', hrun', hexited⟩ : ∃ s',
      (oneIteration ++ oneIterationEnd).foldlM (step (Goodcnt.thread (fun v => int32 (v + 1)) 1))
        start = some s' ∧ s'.main = .exited 2 := ⟨_, rfl, rfl⟩
  have hs := System.Reachable.of_foldlM (S := goodcnt 1) (fun _ _ _ h => h) (.init rfl) hrun
  have hs' := System.Reachable.of_foldlM (S := goodcnt 1) (fun _ _ _ h => h) (.init rfl) hrun'
  have hheld : (s.thread true).held = 1 := by
    rw [hloaded]
    rfl
  obtain ⟨hval, hprints⟩ := (goodcnt_exclusive hs').2 hexited
  exact ⟨s, s', hs, hloaded, hwaits, hheld, (@goodcnt_exclusive 1 s 2 hs).1 true hheld, hs', hexited, hval,
    hprints (by decide)⟩

/-! ### Every run ends -/

/-- The steps that a thread of `goodcnt` has left. -/
def ThreadPc.left (niters : ℤ) : ThreadPc → ℤ
  | .absent => 5 * niters.toNat + 1
  | .test i => 5 * (niters.toNat - i) + 1
  | .locking i => 5 * (niters.toNat - i)
  | .entered i => 5 * (niters.toNat - i) - 1
  | .loaded i _ => 5 * (niters.toNat - i) - 2
  | .stored i => 5 * (niters.toNat - i) - 3
  | .ended => 0

/-- The steps that `main` has left. -/
def MainPc.left : MainPc → ℤ
  | .createFirst => 5
  | .createSecond => 4
  | .joinFirst => 3
  | .joinSecond => 2
  | .check => 1
  | .exited _ => 0

/-- The steps that a process running `goodcnt` has left. -/
def State.left (niters : ℤ) (s : State) : ℤ :=
  s.main.left + ((s.thread false).left niters + (s.thread true).left niters)

theorem MainPc.left_nonneg (m : MainPc) : 0 ≤ m.left := by
  cases m <;> simp [MainPc.left]

theorem ThreadPc.left_nonneg {pc : ThreadPc} (h : pc.Counted niters) : 0 ≤ pc.left niters := by
  cases pc <;> simp only [ThreadPc.Counted] at h <;> simp only [ThreadPc.left] <;> omega

theorem Goodcnt.thread_left {pc pc' : ThreadPc} {g g' : Globals} (h : pc.Counted niters)
    (hx : Goodcnt.thread inc niters pc g = some (pc', g')) :
    pc'.left niters + 1 = pc.left niters := by
  cases pc with
  | absent | ended => cases hx
  | test i =>
    cases hx
    obtain ⟨h0, h1⟩ := h
    split
    · rfl
    · show (0 : ℤ) + 1 = 5 * (niters.toNat - i) + 1
      omega
  | locking i =>
    obtain ⟨hpos, hx⟩ := Option.ite_none_right_eq_some.mp hx
    cases hx
    show 5 * (niters.toNat - i) - 1 + 1 = 5 * (niters.toNat - i)
    omega
  | entered i =>
    cases hx
    show 5 * (niters.toNat - i) - 2 + 1 = 5 * (niters.toNat - i) - 1
    omega
  | loaded i v =>
    cases hx
    show 5 * (niters.toNat - i) - 3 + 1 = 5 * (niters.toNat - i) - 2
    omega
  | stored i =>
    cases hx
    show 5 * (niters.toNat - (i + 1)) + 1 + 1 = 5 * (niters.toNat - i) - 3
    omega

theorem mainMoves_left (hforked : Forked s) (h : MainMoves s s') :
    s'.left niters + 1 = s.left niters := by
  cases h with
  | create t pc hbefore hrank =>
    have habsent := (hforked t).1 hbefore
    show pc.left + ((Function.update s.thread t (.test 0) false).left niters +
      (Function.update s.thread t (.test 0) true).left niters) + 1 = s.left niters
    rw [sum_update (ThreadPc.left niters), habsent, State.left]
    simp only [ThreadPc.left]
    rcases hrank with ⟨hm, rfl, -⟩ | ⟨hm, rfl, -⟩ <;> rw [hm] <;> simp only [MainPc.left] <;> omega
  | join t pc hended hrank =>
    rw [State.left, State.left]
    rcases hrank with ⟨hm, rfl, -⟩ | ⟨hm, rfl, -⟩ <;> rw [hm] <;> simp only [MainPc.left] <;> omega
  | exit hmain =>
    rw [State.left, State.left, hmain]
    simp only [MainPc.left]
    omega

theorem step_left {a : Actor} (hs : (program (Goodcnt.thread inc niters)).Reachable s)
    (h : step (Goodcnt.thread inc niters) s a = some s') : s'.left niters + 1 = s.left niters := by
  cases a with
  | main => exact mainMoves_left (Forked.reachable (Goodcnt.lively inc niters) hs) (mainStep_moves h)
  | thread t =>
    obtain ⟨pc, g, hx, rfl⟩ := step_thread h
    have hleft := Goodcnt.thread_left ((LockInv.reachable hs).counted t) hx
    show s.main.left + ((Function.update s.thread t pc false).left niters +
      (Function.update s.thread t pc true).left niters) + 1 = s.left niters
    rw [sum_update (ThreadPc.left niters), State.left]
    omega

/-- A thread that is there and has not ended can step, or it waits in `P`. -/
theorem Goodcnt.ready (inc : ℤ → ℤ) (niters : ℤ) {pc : ThreadPc} (g : Globals)
    (hthere : pc ≠ .absent) (hgoing : pc ≠ .ended) :
    (Goodcnt.thread inc niters pc g).isSome ∨ pc.held = 0 ∧ g.mutex = 0 := by
  cases pc with
  | absent => exact absurd rfl hthere
  | ended => exact absurd rfl hgoing
  | test | entered | loaded | stored => exact Or.inl rfl
  | locking i =>
    by_cases hpos : 0 < g.mutex
    · left
      rw [Goodcnt.thread, if_pos hpos]
      rfl
    · exact Or.inr ⟨rfl, by omega⟩

theorem exists_step_of_thread {t : Bool} {thread : ThreadPc → Globals → Option (ThreadPc × Globals)}
    (h : (thread (s.thread t) s.globals).isSome) : ∃ a s', step thread s a = some s' := by
  obtain ⟨x, hx⟩ := Option.isSome_iff_exists.mp h
  exact ⟨.thread t, _, by rw [step, hx, Option.map_some]⟩

/-- A thread that `main` waits for moves, or it waits for one that moves. -/
theorem exists_step_of_waiting (hs : (program (Goodcnt.thread inc niters)).Reachable s) {t : Bool}
    (hthere : s.thread t ≠ .absent) (hgoing : s.thread t ≠ .ended) :
    ∃ a s', step (Goodcnt.thread inc niters) s a = some s' := by
  rcases Goodcnt.ready inc niters s.globals hthere hgoing with hmove | ⟨hout, hmutex⟩
  · exact exists_step_of_thread hmove
  · -- the semaphore is taken, so the other thread is between `P` and `V`, where nothing waits
    have hlock := (LockInv.reachable hs).mutex
    have hother : (s.thread !t).held = 1 := by
      cases t with
      | false =>
        show (s.thread true).held = 1
        omega
      | true =>
        show (s.thread false).held = 1
        omega
    refine exists_step_of_thread (t := !t) ?_
    cases hpc : s.thread !t with
    | entered | loaded | stored => rfl
    | absent | test | locking | ended =>
      rw [hpc] at hother
      cases hother

/-- `goodcnt` does not deadlock. -/
theorem exists_step (hs : (program (Goodcnt.thread inc niters)).Reachable s)
    (hmain : ∀ v, s.main ≠ .exited v) : ∃ a s', step (Goodcnt.thread inc niters) s a = some s' := by
  have hforked := Forked.reachable (Goodcnt.lively inc niters) hs
  have hmove : ∀ s', mainStep s = some s' → ∃ a s', step (Goodcnt.thread inc niters) s a = some s' :=
    fun s' h => ⟨.main, s', h⟩
  cases hm : s.main with
  | createFirst => exact hmove _ (by rw [mainStep, hm])
  | createSecond => exact hmove _ (by rw [mainStep, hm])
  | joinFirst =>
    by_cases hended : s.thread false = .ended
    · exact hmove _ (by rw [mainStep, hm]; exact if_pos hended)
    · exact exists_step_of_waiting hs ((hforked false).2.1 (by rw [hm]; rfl)) hended
  | joinSecond =>
    by_cases hended : s.thread true = .ended
    · exact hmove _ (by rw [mainStep, hm]; exact if_pos hended)
    · exact exists_step_of_waiting hs ((hforked true).2.1 (by rw [hm]; rfl)) hended
  | check => exact hmove _ (by rw [mainStep, hm])
  | exited v => exact absurd hm (hmain v)

/-- **Every run ends.**  After `k` steps of any run of `goodcnt` either fewer than `10 * niters + 7`
steps are done and another is possible, or exactly so many are and `main` has printed. -/
theorem goodcnt_ends {k : ℕ} (hs : ((goodcnt niters).recorded 0 fun k _ => k + 1).Reachable (s, k)) :
    (k < 10 * niters.toNat + 7 ∧ ∃ a s', (goodcnt niters).step s a s') ∨
      (k = 10 * niters.toNat + 7 ∧ s.main = .exited (int32 (2 * niters.toNat))) := by
  obtain ⟨hreach, hcount⟩ : (goodcnt niters).Reachable s ∧
      (k : ℤ) + s.left niters = 10 * niters.toNat + 7 := by
    refine hs.invariant (P := fun x => (goodcnt niters).Reachable x.1 ∧
      (x.2 : ℤ) + x.1.left niters = 10 * niters.toNat + 7) (fun x h => ?_)
      fun x a x' h hstep => ⟨h.1.step hstep.1, ?_⟩
    · obtain ⟨hinit, hzero⟩ := h
      refine ⟨.init hinit, ?_⟩
      rw [hzero, show x.1 = start from hinit]
      show ((0 : ℕ) : ℤ) + (5 + ((5 * niters.toNat + 1) + (5 * niters.toNat + 1))) = _
      omega
    · have hleft := step_left h.1 hstep.1
      have hsum := h.2
      rw [hstep.2]
      show ((x.2 + 1 : ℕ) : ℤ) + x'.1.left niters = _
      omega
  have hcounted := (LockInv.reachable hreach).counted
  have hfalse := ThreadPc.left_nonneg (hcounted false)
  have htrue := ThreadPc.left_nonneg (hcounted true)
  have hmain := s.main.left_nonneg
  rw [State.left] at hcount
  cases hm : s.main with
  | exited v =>
    have hended := (exited_spec (Goodcnt.lively _ niters) hreach hm).1
    rw [hm, hended false, hended true] at hcount
    refine Or.inr ⟨?_, by rw [goodcnt_shows hreach hm]⟩
    have hcount' : (k : ℤ) + (0 + (0 + 0)) = 10 * niters.toNat + 7 := hcount
    omega
  | createFirst | createSecond | joinFirst | joinSecond | check =>
    refine Or.inl ⟨?_, exists_step hreach (by simp [hm])⟩
    rw [hm] at hcount
    simp only [MainPc.left] at hcount
    omega

/-- With one iteration a run has 17 steps. -/
theorem goodcnt_ends_one : ∃ s s', ((goodcnt 1).recorded 0 fun k _ => k + 1).Reachable (s, 6) ∧
    (∃ a r, (goodcnt 1).step s a r) ∧
    ((goodcnt 1).recorded 0 fun k _ => k + 1).Reachable (s', 17) ∧ s'.main = .exited 2 := by
  let count := fun (x : State × ℕ) (a : Actor) =>
    (step (Goodcnt.thread (fun v => int32 (v + 1)) 1) x.1 a).map fun s => (s, x.2 + 1)
  have hcount : ∀ x a x', count x a = some x' →
      ((goodcnt 1).recorded 0 fun k _ => k + 1).step x a x' := by
    intro x a x' h
    obtain ⟨s', hs', rfl⟩ := Option.map_eq_some_iff.mp h
    exact ⟨hs', rfl⟩
  obtain ⟨⟨s, k⟩, hrun, hk⟩ : ∃ x, oneIteration.foldlM count (start, 0) = some x ∧ x.2 = 6 :=
    ⟨_, rfl, rfl⟩
  obtain ⟨⟨s', k'⟩, hrun', hk'⟩ : ∃ x, (oneIteration ++ oneIterationEnd).foldlM count (start, 0) = some x ∧
      x.2 = 17 := ⟨_, rfl, rfl⟩
  obtain rfl : k = 6 := hk
  obtain rfl : k' = 17 := hk'
  have hstart : ((goodcnt 1).recorded 0 fun k _ => k + 1).Reachable (start, 0) := .init ⟨rfl, rfl⟩
  have hs := System.Reachable.of_foldlM hcount hstart hrun
  have hs' := System.Reachable.of_foldlM hcount hstart hrun'
  refine ⟨s, s', hs, ?_, hs', ?_⟩
  · rcases goodcnt_ends hs with ⟨-, hmore⟩ | ⟨hall, -⟩
    · exact hmore
    · exact absurd hall (by decide)
  · rcases goodcnt_ends hs' with ⟨hless, -⟩ | ⟨-, hend⟩
    · exact absurd hless (by decide)
    · exact hend

end

end SystemProgramming.Homework
