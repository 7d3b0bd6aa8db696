import Mathlib.Data.List.Basic
import Mathlib.Data.List.Nodup

/-!
# Doubly linked lists over link functions

A doubly linked list is a pair of partial link functions `next prev : α → Option α` together with
the list of the nodes they thread.  Nothing is assumed about how the links are stored: they may be
words of a byte memory, fields of a heap of records, or anything else a client reads them from.

* `Linked next prev p xs` : the nodes `xs` are threaded by `next`, and by `prev` backwards, with `p`
  before the first node.
* `Linked.frame` : links that agree on the nodes thread the same list.
* `Linked.pushFront`, `Linked.unlink`, `Linked.prevAt`, `Linked.nextAt` : the two edits a
  doubly linked list knows, and what the links around a node are.
-/

namespace SystemProgramming.LinkedList

variable {α : Type*}

/-- The nodes `xs` form a doubly linked segment whose first node has predecessor `p` and whose last
node has no successor. -/
def Linked (next prev : α → Option α) : Option α → List α → Prop
  | _, [] => True
  | p, x :: xs => prev x = p ∧ next x = xs.head? ∧ Linked next prev (some x) xs

@[simp] theorem linked_nil (next prev : α → Option α) (p : Option α) :
    Linked next prev p [] := trivial

theorem linked_cons (next prev : α → Option α) (p : Option α) (x : α) (xs : List α) :
    Linked next prev p (x :: xs) ↔
      prev x = p ∧ next x = xs.head? ∧ Linked next prev (some x) xs := Iff.rfl

/-- The node before position `|l|` of a segment that starts after `p`. -/
def lastOr (p : Option α) (l : List α) : Option α := l.getLast?.or p

@[simp] theorem lastOr_nil (p : Option α) : lastOr p ([] : List α) = p := rfl

@[simp] theorem lastOr_cons (p : Option α) (x : α) (l : List α) :
    lastOr p (x :: l) = lastOr (some x) l := by
  cases l with
  | nil => rfl
  | cons y l => simp [lastOr, List.getLast?_cons]

theorem mem_of_lastOr {p : Option α} {l : List α} {y : α} (h : lastOr p l = some y) :
    y ∈ l ∨ p = some y := by
  induction l generalizing p with
  | nil => exact Or.inr h
  | cons x l ih =>
    rw [lastOr_cons] at h
    rcases ih h with hy | hy
    · exact Or.inl (List.mem_cons_of_mem _ hy)
    · exact Or.inl (by rw [Option.some.injEq] at hy; rw [hy]; exact List.mem_cons_self)

/-! ### Reading links -/

theorem Linked.append {next prev : α → Option α} {p : Option α} {l₁ l₂ : List α}
    (h : Linked next prev p (l₁ ++ l₂)) : Linked next prev (lastOr p l₁) l₂ := by
  induction l₁ generalizing p with
  | nil => exact h
  | cons x l ih =>
    rw [lastOr_cons]
    exact ih h.2.2

/-- The back link of a node is the node before it. -/
theorem Linked.prevAt {next prev : α → Option α} {p : Option α} {l₁ l₂ : List α} {x : α}
    (h : Linked next prev p (l₁ ++ x :: l₂)) : prev x = lastOr p l₁ := h.append.1

/-- The forward link of a node is the node after it. -/
theorem Linked.nextAt {next prev : α → Option α} {p : Option α} {l₁ l₂ : List α} {x : α}
    (h : Linked next prev p (l₁ ++ x :: l₂)) : next x = l₂.head? := h.append.2.1

/-- The two links of a list are inverse to each other. -/
theorem Linked.next_eq_iff {next prev : α → Option α} {p : Option α} {xs : List α} {x y : α}
    (h : Linked next prev p xs) (hx : x ∈ xs) (hy : y ∈ xs) (hp : p ≠ some x) :
    next x = some y ↔ prev y = some x := by
  constructor
  · intro hn
    obtain ⟨l₁, l₂, rfl⟩ := List.append_of_mem hx
    rw [h.nextAt] at hn
    obtain ⟨l₃, rfl⟩ := List.head?_eq_some_iff.mp hn
    have h' : Linked next prev p ((l₁ ++ [x]) ++ y :: l₃) := by simpa using h
    rw [h'.prevAt, lastOr]
    simp
  · intro hq
    obtain ⟨l₁, l₂, rfl⟩ := List.append_of_mem hy
    rw [h.prevAt] at hq
    rcases List.eq_nil_or_concat l₁ with rfl | ⟨l, z, rfl⟩
    · exact absurd hq hp
    · obtain rfl : z = x := by simpa [lastOr] using hq
      have h' : Linked next prev p (l ++ z :: y :: l₂) := by simpa using h
      rw [h'.nextAt]
      rfl

/-! ### Editing -/

/-- Links that agree on the nodes thread the same segment. -/
theorem Linked.frame {next prev next' prev' : α → Option α} {p : Option α} {xs : List α}
    (h : Linked next prev p xs) (hnext : ∀ y ∈ xs, next' y = next y)
    (hprev : ∀ y ∈ xs, prev' y = prev y) : Linked next' prev' p xs := by
  induction xs generalizing p with
  | nil => trivial
  | cons x xs ih =>
    obtain ⟨h1, h2, h3⟩ := h
    refine ⟨?_, ?_, ih h3 (fun y hy => hnext y (List.mem_cons_of_mem _ hy))
      (fun y hy => hprev y (List.mem_cons_of_mem _ hy))⟩
    · rw [hprev x List.mem_cons_self, h1]
    · rw [hnext x List.mem_cons_self, h2]

/-- **Push.**  A new node whose forward link is the old head, which points back at it. -/
theorem Linked.pushFront {next prev next' prev' : α → Option α} {x : α} {xs : List α}
    (h : Linked next prev none xs) (hnd : xs.Nodup) (hx : next' x = xs.head?)
    (hx' : prev' x = none) (hnext : ∀ y ∈ xs, next' y = next y)
    (hprev : ∀ y ∈ xs, xs.head? = some y → prev' y = some x)
    (hprev' : ∀ y ∈ xs, xs.head? ≠ some y → prev' y = prev y) :
    Linked next' prev' none (x :: xs) := by
  refine ⟨hx', hx, ?_⟩
  cases xs with
  | nil => trivial
  | cons y ys =>
    obtain ⟨_, h2, h3⟩ := h
    refine ⟨hprev y List.mem_cons_self rfl, ?_, ?_⟩
    · rw [hnext y List.mem_cons_self, h2]
    · refine h3.frame (fun z hz => hnext z (List.mem_cons_of_mem _ hz)) fun z hz => ?_
      apply hprev' z (List.mem_cons_of_mem _ hz)
      intro he
      -- a second occurrence of the head would break `Nodup`
      rw [List.head?_cons, Option.some.injEq] at he
      exact (List.nodup_cons.mp hnd).1 (he ▸ hz)

/-- **Unlink.**  The predecessor of `x` takes over its forward link, the successor its back link;
every other link is as before. -/
theorem Linked.unlink {next prev next' prev' : α → Option α} {p : Option α} {l₁ l₂ : List α}
    {x : α} (h : Linked next prev p (l₁ ++ x :: l₂)) (hnd : (l₁ ++ x :: l₂).Nodup)
    (hp : ∀ y ∈ l₁ ++ l₂, p ≠ some y)
    (hnext : ∀ y ∈ l₁ ++ l₂, prev x = some y → next' y = next x)
    (hnext' : ∀ y ∈ l₁ ++ l₂, prev x ≠ some y → next' y = next y)
    (hprev : ∀ y ∈ l₁ ++ l₂, next x = some y → prev' y = prev x)
    (hprev' : ∀ y ∈ l₁ ++ l₂, next x ≠ some y → prev' y = prev y) :
    Linked next' prev' p (l₁ ++ l₂) := by
  induction l₁ generalizing p with
  | nil =>
    obtain ⟨h1, h2, h3⟩ := h
    simp only [List.nil_append] at *
    cases l₂ with
    | nil => trivial
    | cons y ys =>
      obtain ⟨_, h5, h6⟩ := h3
      have hnd' := (List.nodup_cons.mp (List.nodup_cons.mp hnd).2).1
      have hne : ∀ z ∈ y :: ys, prev x ≠ some z := fun z hz => h1 ▸ hp z hz
      refine ⟨?_, ?_, ?_⟩
      · rw [hprev y List.mem_cons_self h2, h1]
      · rw [hnext' y List.mem_cons_self (hne y List.mem_cons_self), h5]
      · refine h6.frame (fun z hz => ?_) fun z hz => ?_
        · exact hnext' z (List.mem_cons_of_mem _ hz) (hne z (List.mem_cons_of_mem _ hz))
        · apply hprev' z (List.mem_cons_of_mem _ hz)
          intro he
          rw [h2, List.head?_cons, Option.some.injEq] at he
          exact hnd' (he ▸ hz)
  | cons a l ih =>
    have hpx : prev x = lastOr p (a :: l) := h.prevAt
    have hnx : next x = l₂.head? := h.nextAt
    obtain ⟨h1, h2, h3⟩ := h
    rw [List.cons_append, List.nodup_cons] at hnd
    obtain ⟨ha, hnd'⟩ := hnd
    have hal : a ∉ l₂ := fun hm => ha (by simp [hm])
    refine ⟨?_, ?_, ih h3 hnd' ?_ ?_ ?_ ?_ ?_⟩
    · rw [hprev' a List.mem_cons_self, h1]
      rw [hnx]
      exact fun he => hal (List.mem_of_mem_head? he)
    · cases l with
      | nil => rw [hnext a List.mem_cons_self (by simpa using hpx), hnx]; rfl
      | cons b l =>
        rw [hnext' a List.mem_cons_self, h2]
        · rfl
        · rw [hpx]
          intro he
          rw [lastOr_cons, lastOr_cons] at he
          rcases mem_of_lastOr he with hm | hm
          · exact ha (by simp [hm])
          · exact ha (by simp at hm; simp [hm])
    · intro y hy he
      rw [Option.some.injEq] at he
      refine ha (he ▸ ?_)
      rcases List.mem_append.mp hy with hm | hm <;> simp [hm]
    · exact fun y hy => hnext y (List.mem_cons_of_mem _ hy)
    · exact fun y hy => hnext' y (List.mem_cons_of_mem _ hy)
    · exact fun y hy => hprev y (List.mem_cons_of_mem _ hy)
    · exact fun y hy => hprev' y (List.mem_cons_of_mem _ hy)

/-- The head of the list after an unlink, as a program computes it. -/
theorem Linked.unlink_head {next prev : α → Option α} {l₁ l₂ : List α} {x : α}
    (h : Linked next prev none (l₁ ++ x :: l₂)) :
    (l₁ ++ l₂).head? = if prev x = none then next x else (l₁ ++ x :: l₂).head? := by
  rw [h.prevAt, h.nextAt]
  cases l₁ with
  | nil => rfl
  | cons a l =>
    rw [if_neg]
    · rfl
    · rw [lastOr_cons, lastOr]
      cases l.getLast? <;> simp

end SystemProgramming.LinkedList
