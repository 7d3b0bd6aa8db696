import Mathlib.Data.List.Basic

/-!
# Loops that stop at the first error

A loop over a list whose body may leave with an error is `List.foldlM` in `Except`.

* `foldlM_append_ok`, `foldlM_eq_error_iff` : where such a loop goes through and where it stops.
* `foldlM_invariant` : what every iteration keeps, told the items before it, holds at the end.
* `foldlM_lockstep` : a second loop over the same items follows the first.
-/

namespace SystemProgramming.Folds

variable {α σ τ ε δ : Type*} {f : σ → α → Except ε σ} {g : τ → α → Except δ τ} {l l' : List α}
  {a : α} {s s' : σ} {e : ε}

theorem foldlM_cons_ok :
    (a :: l).foldlM f s = .ok s' ↔ ∃ s₁, f s a = .ok s₁ ∧ l.foldlM f s₁ = .ok s' := by
  rw [List.foldlM_cons]
  cases h : f s a with
  | error e => simp [bind, Except.bind]
  | ok s₁ => simp [bind, Except.bind]

theorem foldlM_append_ok :
    (l ++ l').foldlM f s = .ok s' ↔ ∃ s₁, l.foldlM f s = .ok s₁ ∧ l'.foldlM f s₁ = .ok s' := by
  induction l generalizing s with
  | nil => simp [pure, Except.pure]
  | cons a l ih =>
    rw [List.cons_append, foldlM_cons_ok]
    simp only [foldlM_cons_ok, ih]
    constructor
    · rintro ⟨s₁, h₁, s₂, h₂, h₃⟩
      exact ⟨s₂, ⟨s₁, h₁, h₂⟩, h₃⟩
    · rintro ⟨s₂, ⟨s₁, h₁, h₂⟩, h₃⟩
      exact ⟨s₁, h₁, s₂, h₂, h₃⟩

/-- The loop stops with `e` at the first item whose iteration does. -/
theorem foldlM_eq_error_iff : l.foldlM f s = .error e ↔
    ∃ pre a post s₁, l = pre ++ a :: post ∧ pre.foldlM f s = .ok s₁ ∧ f s₁ a = .error e := by
  induction l generalizing s with
  | nil => simp [pure, Except.pure]
  | cons a l ih =>
    rw [List.foldlM_cons]
    cases h : f s a with
    | error e' =>
      constructor
      · intro he
        cases he
        exact ⟨[], a, l, s, rfl, rfl, h⟩
      · rintro ⟨pre, b, post, s₁, hsplit, hpre, hb⟩
        cases pre with
        | nil =>
          cases hsplit
          cases hpre
          exact h.symm.trans hb
        | cons c pre =>
          cases hsplit
          obtain ⟨s₂, hs₂, _⟩ := foldlM_cons_ok.mp hpre
          rw [h] at hs₂
          cases hs₂
    | ok s₂ =>
      refine ih.trans ⟨?_, ?_⟩
      · rintro ⟨pre, b, post, s₁, rfl, hpre, hb⟩
        exact ⟨a :: pre, b, post, s₁, rfl, foldlM_cons_ok.mpr ⟨s₂, h, hpre⟩, hb⟩
      · rintro ⟨pre, b, post, s₁, hsplit, hpre, hb⟩
        cases pre with
        | nil =>
          cases hsplit
          cases hpre
          rw [h] at hb
          cases hb
        | cons c pre =>
          cases hsplit
          obtain ⟨s₃, hs₃, hpre⟩ := foldlM_cons_ok.mp hpre
          rw [h] at hs₃
          cases hs₃
          exact ⟨pre, b, post, s₁, rfl, hpre, hb⟩

/-- **The loop rule.**  The invariant is told the items already done; an iteration knows that its
item comes next. -/
theorem foldlM_invariant {P : List α → σ → Prop} (hstart : P [] s)
    (hstep : ∀ pre a post s₁ s₂, l = pre ++ a :: post → P pre s₁ → f s₁ a = .ok s₂ →
      P (pre ++ [a]) s₂)
    (h : l.foldlM f s = .ok s') : P l s' := by
  suffices hgen : ∀ pre post s₁, l = pre ++ post → P pre s₁ → post.foldlM f s₁ = .ok s' → P l s' from
    hgen [] l s rfl hstart h
  intro pre post
  induction post generalizing pre with
  | nil =>
    intro s₁ hsplit hp hrest
    cases hrest
    rw [hsplit, List.append_nil]
    exact hp
  | cons a post ih =>
    intro s₁ hsplit hp hrest
    obtain ⟨s₂, ha, hrest⟩ := foldlM_cons_ok.mp hrest
    exact ih (pre ++ [a]) s₂ (by rw [hsplit, List.append_cons]) (hstep pre a post s₁ s₂ hsplit hp ha)
      hrest

/-- **The simulation rule.**  If each iteration of `f` that goes through is answered by one of `g`,
a loop of `f` that goes through is answered by a loop of `g`. -/
theorem foldlM_lockstep {R : List α → σ → τ → Prop} {t : τ} (hstart : R [] s t)
    (hstep : ∀ pre a post s₁ s₂ t₁, l = pre ++ a :: post → R pre s₁ t₁ → f s₁ a = .ok s₂ →
      ∃ t₂, g t₁ a = .ok t₂ ∧ R (pre ++ [a]) s₂ t₂)
    (h : l.foldlM f s = .ok s') : ∃ t', l.foldlM g t = .ok t' ∧ R l s' t' := by
  suffices hgen : ∀ pre post s₁ t₁, l = pre ++ post → R pre s₁ t₁ → post.foldlM f s₁ = .ok s' →
      ∃ t', post.foldlM g t₁ = .ok t' ∧ R l s' t' from hgen [] l s t rfl hstart h
  intro pre post
  induction post generalizing pre with
  | nil =>
    intro s₁ t₁ hsplit hr hrest
    cases hrest
    rw [hsplit, List.append_nil]
    exact ⟨t₁, rfl, hr⟩
  | cons a post ih =>
    intro s₁ t₁ hsplit hr hrest
    obtain ⟨s₂, ha, hrest⟩ := foldlM_cons_ok.mp hrest
    obtain ⟨t₂, hb, hr₂⟩ := hstep pre a post s₁ s₂ t₁ hsplit hr ha
    obtain ⟨t', hg, hr'⟩ := ih (pre ++ [a]) s₂ t₂ (by rw [hsplit, List.append_cons]) hr₂ hrest
    exact ⟨t', foldlM_cons_ok.mpr ⟨t₂, hb, hg⟩, hr'⟩

end SystemProgramming.Folds
