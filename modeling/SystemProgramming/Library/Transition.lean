import Mathlib.Logic.Relation

/-!
# Transition systems and their invariants

A system is a set of initial states and a labelled step relation.  Safety results about programs
that take step after step are all one argument, stated here once.

* `System.Reachable` : the states of all runs.
* `Reachable.invariant` : what holds initially and is kept by every step holds in every run.
* `System.restrict` : the runs all of whose steps meet a condition on the state before the step.
* `System.recorded` : the runs with a record of their steps alongside.
* `System.only` : the runs of one label; `Reachable.eq_of_final` : such a run ends in one state when
  the steps are a function.
* `Reachable.of_foldlM` : a computed run is a run.
* `Reachable.simulated` : a forward simulation, with steps the other system need not answer.
-/

namespace SystemProgramming.Transition

/-- Initial states and labelled steps. -/
structure System (σ α : Type*) where
  init : σ → Prop
  step : σ → α → σ → Prop

variable {σ α : Type*}

/-- The states some run of the system reaches. -/
inductive System.Reachable (S : System σ α) : σ → Prop
  | init {s : σ} (h : S.init s) : S.Reachable s
  | step {s s' : σ} {a : α} (h : S.Reachable s) (hstep : S.step s a s') : S.Reachable s'

/-- The system with only the steps that meet `ok`. -/
def System.restrict (S : System σ α) (ok : σ → α → Prop) : System σ α where
  init := S.init
  step s a s' := ok s a ∧ S.step s a s'

/-- The system with a record of its steps alongside, which starts as `r₀` and which `f` keeps. -/
def System.recorded {ρ : Type*} (S : System σ α) (r₀ : ρ) (f : ρ → α → ρ) : System (σ × ρ) α where
  init x := S.init x.1 ∧ x.2 = r₀
  step x a x' := S.step x.1 a x'.1 ∧ x'.2 = f x.2 a

/-- The system in which only `a` steps. -/
def System.only (S : System σ α) (a : α) : System σ α := S.restrict fun _ b => b = a

namespace System.Reachable

variable {S : System σ α} {s : σ}

/-- **The invariant rule.** -/
theorem invariant {P : σ → Prop} (hs : S.Reachable s) (hinit : ∀ s, S.init s → P s)
    (hstep : ∀ s a s', P s → S.step s a s' → P s') : P s := by
  induction hs with
  | init h => exact hinit _ h
  | step _ hst ih => exact hstep _ _ _ ih hst

/-- A restricted run is a run. -/
theorem of_restrict {ok : σ → α → Prop} (hs : (S.restrict ok).Reachable s) : S.Reachable s := by
  induction hs with
  | init h => exact .init h
  | step _ hst ih => exact .step ih hst.2

/-- A run has a record. -/
theorem exists_recorded {ρ : Type*} (hs : S.Reachable s) (r₀ : ρ) (f : ρ → α → ρ) :
    ∃ r, (S.recorded r₀ f).Reachable (s, r) := by
  induction hs with
  | init h => exact ⟨r₀, .init ⟨h, rfl⟩⟩
  | step _ hst ih =>
    obtain ⟨r, hr⟩ := ih
    exact ⟨f r _, hr.step ⟨hst, rfl⟩⟩

/-- A stronger condition leaves fewer runs. -/
theorem restrict_mono {ok ok' : σ → α → Prop} (h : ∀ s a, ok s a → ok' s a)
    (hs : (S.restrict ok).Reachable s) : (S.restrict ok').Reachable s := by
  induction hs with
  | init h => exact .init h
  | step _ hst ih => exact .step ih ⟨h _ _ hst.1, hst.2⟩

/-- A list of steps that a function computes is a run. -/
theorem of_foldlM {f : σ → α → Option σ} (hf : ∀ s a s', f s a = some s' → S.step s a s')
    (hs : S.Reachable s) {l : List α} {s' : σ} (h : l.foldlM f s = some s') : S.Reachable s' := by
  induction l generalizing s with
  | nil =>
    cases h
    exact hs
  | cons a l ih =>
    rw [List.foldlM_cons] at h
    obtain ⟨r, hr, h⟩ := Option.bind_eq_some_iff.mp h
    exact ih (hs.step (hf s a r hr)) h

/-- **The simulation rule.**  What one system does, the other follows or does not notice. -/
theorem simulated {τ β : Type*} {T : System τ β} {R : σ → τ → Prop} (hs : S.Reachable s)
    (hinit : ∀ s, S.init s → ∃ r, T.init r ∧ R s r)
    (hstep : ∀ s a s' r, R s r → S.step s a s' → R s' r ∨ ∃ b r', T.step r b r' ∧ R s' r') :
    ∃ r, T.Reachable r ∧ R s r := by
  induction hs with
  | init h =>
    obtain ⟨r, hr, hR⟩ := hinit _ h
    exact ⟨r, .init hr, hR⟩
  | step _ hst ih =>
    obtain ⟨r, hr, hR⟩ := ih
    rcases hstep _ _ _ r hR hst with hR' | ⟨b, r', hst', hR'⟩
    · exact ⟨r, hr, hR'⟩
    · exact ⟨r', hr.step hst', hR'⟩

/-- A reachable state is a finite number of steps from an initial one. -/
theorem exists_steps (hs : S.Reachable s) :
    ∃ s₀, S.init s₀ ∧ Relation.ReflTransGen (fun s s' => ∃ a, S.step s a s') s₀ s := by
  induction hs with
  | init h => exact ⟨_, h, .refl⟩
  | step _ hst ih =>
    obtain ⟨s₀, hinit, hsteps⟩ := ih
    exact ⟨s₀, hinit, hsteps.tail ⟨_, hst⟩⟩

/-- A system with one initial state and at most one step from each state ends in one state. -/
theorem eq_of_final {r : σ} (hs : S.Reachable s) (hr : S.Reachable r)
    (hinit : ∀ s s', S.init s → S.init s' → s = s')
    (hdet : ∀ s a b s' s'', S.step s a s' → S.step s b s'' → s' = s'')
    (hfs : ∀ a s', ¬ S.step s a s') (hfr : ∀ a r', ¬ S.step r a r') : s = r := by
  obtain ⟨s₀, h₀, hsteps⟩ := hs.exists_steps
  obtain ⟨r₀, h₀', hrsteps⟩ := hr.exists_steps
  obtain rfl := hinit _ _ h₀ h₀'
  have hunique : Relator.RightUnique fun s s' => ∃ a, S.step s a s' := by
    rintro x y z ⟨a, hy⟩ ⟨b, hz⟩
    exact hdet x a b y z hy hz
  rcases Relation.ReflTransGen.total_of_right_unique hunique hsteps hrsteps with h | h
  · rcases Relation.ReflTransGen.cases_head h with rfl | ⟨_, ⟨a, hst⟩, _⟩
    · rfl
    · exact absurd hst (hfs _ _)
  · rcases Relation.ReflTransGen.cases_head h with rfl | ⟨_, ⟨a, hst⟩, _⟩
    · rfl
    · exact absurd hst (hfr _ _)

end System.Reachable

end SystemProgramming.Transition
