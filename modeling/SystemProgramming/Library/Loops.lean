import Mathlib.Data.List.Chain
import Mathlib.Order.Defs.PartialOrder

/-!
# Loops along a chain

The loop `for (x = start; more x; x = next x) body`, where the body may leave the loop with a result.
The body and the loop may fail to return; the loop takes the number of tests of `more` that it may
make, and `none` means that it has not returned within them.

* `visit` : the states the loop passes through, and the one at which the condition fails.
* `forLoop_eq_none_iff` : a loop that runs to its end has run the body on every state it passes.
* `firstError` : several such loops one after the other.
-/

namespace SystemProgramming.Loops

variable {σ ε : Type*}

/-- The states the loop passes, and where its condition fails. -/
def visit (more : σ → Bool) (next : σ → σ) : ℕ → σ → Option (List σ × σ)
  | 0, _ => none
  | fuel + 1, x =>
    if more x then (visit more next fuel (next x)).map fun r => (x :: r.1, r.2) else some ([], x)

/-- The loop: `some e` when the body leaves it with `e`, `none` when the condition fails. -/
def forLoop (more : σ → Bool) (next : σ → σ) (body : σ → Option (Option ε)) :
    ℕ → σ → Option (Option ε)
  | 0, _ => none
  | fuel + 1, x =>
    if more x then
      match body x with
      | none => none
      | some (some e) => some (some e)
      | some none => forLoop more next body fuel (next x)
    else some none

/-- Loops one after the other, until one is left with a result. -/
def firstError : List (Option (Option ε)) → Option (Option ε)
  | [] => some none
  | none :: _ => none
  | some (some e) :: _ => some (some e)
  | some none :: loops => firstError loops

variable {more : σ → Bool} {next : σ → σ} {body : σ → Option (Option ε)} {fuel fuel' : ℕ} {x : σ}
  {r r' : List σ × σ}

theorem visit_mono (hle : fuel ≤ fuel') (h : visit more next fuel x = some r) :
    visit more next fuel' x = some r := by
  induction fuel generalizing fuel' x r with
  | zero => cases h
  | succ fuel ih =>
    cases fuel' with
    | zero => omega
    | succ fuel' =>
      rw [visit] at h ⊢
      split at h
      · next hmore =>
        obtain ⟨r', hr, rfl⟩ := Option.map_eq_some_iff.mp h
        rw [if_pos hmore, ih (by omega) hr]
        rfl
      · next hstop => rw [if_neg hstop, h]

/-- Two walks from one state are the same walk. -/
theorem visit_unique (h : visit more next fuel x = some r) (h' : visit more next fuel' x = some r') :
    r = r' := by
  have h₁ := visit_mono (Nat.le_max_left fuel fuel') h
  have h₂ := visit_mono (Nat.le_max_right fuel fuel') h'
  exact Option.some.inj (h₁.symm.trans h₂)

/-- A walk passes the state it starts at first, and each state leads to the next. -/
theorem visit_isChain (h : visit more next fuel x = some r) :
    (∀ y ∈ r.1.head?, y = x) ∧ r.1.IsChain fun y z => z = next y := by
  induction fuel generalizing x r with
  | zero => cases h
  | succ fuel ih =>
    rw [visit] at h
    split at h
    · obtain ⟨r', hr, rfl⟩ := Option.map_eq_some_iff.mp h
      obtain ⟨hhead, hchain⟩ := ih hr
      exact ⟨fun y hy => (Option.some.inj hy).symm, List.isChain_cons.mpr ⟨hhead, hchain⟩⟩
    · cases h
      exact ⟨fun y hy => absurd hy (Option.not_mem_none y), List.isChain_nil⟩

/-- A walk whose steps do not go down stays above the state it starts at. -/
theorem visit_ge [Preorder σ] (h : visit more next fuel x = some r)
    (hup : ∀ y ∈ r.1, y ≤ next y) : ∀ y ∈ r.1, x ≤ y := by
  induction fuel generalizing x r with
  | zero => cases h
  | succ fuel ih =>
    rw [visit] at h
    split at h
    · obtain ⟨r', hr, rfl⟩ := Option.map_eq_some_iff.mp h
      obtain ⟨hx, hrest⟩ := List.forall_mem_cons.mp hup
      exact List.forall_mem_cons.mpr ⟨le_rfl, fun y hy => hx.trans (ih hr hrest y hy)⟩
    · cases h
      exact List.forall_mem_nil _

/-- A walk whose steps do not go down: of two states the second is beyond the step of the first. -/
theorem visit_pairwise [Preorder σ] (h : visit more next fuel x = some r)
    (hup : ∀ y ∈ r.1, y ≤ next y) : r.1.Pairwise fun y z => next y ≤ z := by
  induction fuel generalizing x r with
  | zero => cases h
  | succ fuel ih =>
    rw [visit] at h
    split at h
    · obtain ⟨r', hr, rfl⟩ := Option.map_eq_some_iff.mp h
      obtain ⟨-, hrest⟩ := List.forall_mem_cons.mp hup
      exact List.pairwise_cons.mpr ⟨visit_ge hr hrest, ih hr hrest⟩
    · cases h
      exact List.Pairwise.nil

/-- A loop whose condition and step are others has the same walk, where they agree along it. -/
theorem visit_congr {more' : σ → Bool} {next' : σ → σ} (h : visit more next fuel x = some r)
    (hstop : more' r.2 = more r.2) (hmore : ∀ y ∈ r.1, more' y = more y)
    (hnext : ∀ y ∈ r.1, next' y = next y) : visit more' next' fuel x = some r := by
  induction fuel generalizing x r with
  | zero => cases h
  | succ fuel ih =>
    rw [visit] at h ⊢
    split at h
    · next hgo =>
      obtain ⟨r', hr, rfl⟩ := Option.map_eq_some_iff.mp h
      obtain ⟨hx, hmore⟩ := List.forall_mem_cons.mp hmore
      obtain ⟨hx', hnext⟩ := List.forall_mem_cons.mp hnext
      rw [if_pos (hx.trans hgo), hx', ih hr hstop hmore hnext]
      rfl
    · next hend =>
      cases h
      rw [if_neg (hstop ▸ hend)]

/-- **A loop that runs to its end** passes the states of the walk, and the body goes on at each. -/
theorem forLoop_eq_none_iff : forLoop more next body fuel x = some none ↔
    ∃ r, visit more next fuel x = some r ∧ ∀ y ∈ r.1, body y = some none := by
  induction fuel generalizing x with
  | zero => simp [forLoop, visit]
  | succ fuel ih =>
    rw [forLoop, visit]
    by_cases hmore : more x
    · rw [if_pos hmore, if_pos hmore]
      -- a walk on which the body always goes on passes `x`
      have hleft : body x ≠ some none → ¬ ∃ r, (visit more next fuel (next x)).map
          (fun r => (x :: r.1, r.2)) = some r ∧ ∀ y ∈ r.1, body y = some none := by
        rintro hx ⟨r, hr, hall⟩
        obtain ⟨r', -, rfl⟩ := Option.map_eq_some_iff.mp hr
        exact hx (hall x List.mem_cons_self)
      cases hbody : body x with
      | none => exact iff_of_false (by simp) (hleft (by simp [hbody]))
      | some out =>
        cases out with
        | some e => exact iff_of_false (by simp) (hleft (by simp [hbody]))
        | none =>
          dsimp only
          rw [ih]
          constructor
          · rintro ⟨r, hr, hall⟩
            refine ⟨(x :: r.1, r.2), by rw [hr]; rfl, fun y hy => ?_⟩
            rcases List.mem_cons.mp hy with rfl | hy
            · exact hbody
            · exact hall y hy
          · rintro ⟨r, hr, hall⟩
            obtain ⟨r', hr', rfl⟩ := Option.map_eq_some_iff.mp hr
            exact ⟨r', hr', fun y hy => hall y (List.mem_cons_of_mem _ hy)⟩
    · rw [if_neg hmore, if_neg hmore]
      simp

/-- Where the walk ends and the body returns, the loop returns. -/
theorem forLoop_isSome (h : visit more next fuel x = some r) (hbody : ∀ y ∈ r.1, (body y).isSome) :
    (forLoop more next body fuel x).isSome := by
  induction fuel generalizing x r with
  | zero => cases h
  | succ fuel ih =>
    rw [visit] at h
    rw [forLoop]
    split at h
    · next hmore =>
      obtain ⟨r', hr, rfl⟩ := Option.map_eq_some_iff.mp h
      rw [if_pos hmore]
      have hx := hbody x List.mem_cons_self
      have hrest := ih hr fun y hy => hbody y (List.mem_cons_of_mem _ hy)
      cases hout : body x with
      | none =>
        rw [hout] at hx
        cases hx
      | some out =>
        cases out with
        | none => exact hrest
        | some e => rfl
    · next hstop =>
      rw [if_neg hstop]
      rfl

/-- Along a walk that ends, the loop that leaves at `target` meets it or runs to its end. -/
theorem forLoop_search [DecidableEq σ] (h : visit more next fuel x = some r) (target : σ) :
    forLoop more next (fun y => some (if y = target then some () else none)) fuel x =
      some (if target ∈ r.1 then some () else none) := by
  have hsome : (forLoop more next (fun y => some (if y = target then some () else none)) fuel
      x).isSome := forLoop_isSome h fun _ _ => rfl
  obtain ⟨out, hout⟩ := Option.isSome_iff_exists.mp hsome
  have hiff : forLoop more next (fun y => some (if y = target then some () else none)) fuel x =
      some none ↔ ∃ r, visit more next fuel x = some r ∧
        ∀ y ∈ r.1, some (if y = target then some () else none) = some none := forLoop_eq_none_iff
  rw [hout] at hiff ⊢
  by_cases hin : target ∈ r.1
  · rw [if_pos hin]
    cases out with
    | some u => rfl
    | none =>
      obtain ⟨r', hr', hall⟩ := hiff.mp rfl
      obtain rfl := visit_unique h hr'
      have hx := hall target hin
      rw [if_pos rfl] at hx
      cases hx
  · rw [if_neg hin]
    refine congrArg some (Option.some.inj (hiff.mpr ⟨r, h, fun y hy => ?_⟩))
    have hne : y ≠ target := ne_of_mem_of_not_mem hy hin
    rw [if_neg hne]

theorem firstError_eq_none_iff {loops : List (Option (Option ε))} :
    firstError loops = some none ↔ ∀ loop ∈ loops, loop = some none := by
  induction loops with
  | nil => exact iff_of_true rfl (List.forall_mem_nil _)
  | cons loop loops ih =>
    rw [List.forall_mem_cons]
    cases loop with
    | none => exact iff_of_false (by simp [firstError]) (by simp)
    | some out =>
      cases out with
      | some e => exact iff_of_false (by simp [firstError]) (by simp)
      | none => exact ih.trans (and_iff_right rfl).symm

theorem firstError_isSome {loops : List (Option (Option ε))} (h : ∀ loop ∈ loops, loop.isSome) :
    (firstError loops).isSome := by
  induction loops with
  | nil => rfl
  | cons loop loops ih =>
    obtain ⟨hfirst, hrest⟩ := List.forall_mem_cons.mp h
    cases loop with
    | none => cases hfirst
    | some out =>
      cases out with
      | some e => rfl
      | none => exact ih hrest

end SystemProgramming.Loops
