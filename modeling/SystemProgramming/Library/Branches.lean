import Mathlib.Data.List.Chain
import Mathlib.Data.List.Nodup
import Mathlib.Logic.Function.Iterate

/-!
# Branches of a tree given by parents

* `Branch` : the nodes from a root down to a node, along the parents of that node.
* `Branch.unique`, `exists_branch_iff` : a node has at most one branch, and has one when its parents
  lead to the root.
* `Branch.head?_eq`, `Branch.getLast?_eq`, `Branch.isChain`, `Branch.nodup` : what a branch looks like.
-/

namespace SystemProgramming.Branches

variable {τ : Type*}

/-- The nodes from `root` down to a node. -/
inductive Branch (parent : τ → τ) (root : τ) : τ → List τ → Prop
  | root : Branch parent root root [root]
  | child {t : τ} {l : List τ} (hne : t ≠ root) (h : Branch parent root (parent t) l) :
      Branch parent root t (l ++ [t])

variable {parent : τ → τ} {root t u : τ} {l l' : List τ}

namespace Branch

theorem head?_eq (h : Branch parent root t l) : l.head? = some root := by
  induction h with
  | root => rfl
  | child hne h ih => rw [List.head?_append, ih, Option.some_or]

theorem getLast?_eq (h : Branch parent root t l) : l.getLast? = some t := by
  cases h with
  | root => rfl
  | child hne h => exact List.getLast?_concat

/-- The parent of a node stands in front of it. -/
theorem isChain (h : Branch parent root t l) : l.IsChain fun a b => a = parent b := by
  induction h with
  | root => exact List.isChain_singleton _
  | child hne h ih =>
    refine List.IsChain.append ih (List.isChain_singleton _) ?_
    intro a ha b hb
    rw [h.getLast?_eq] at ha
    obtain rfl := Option.some.inj ha
    obtain rfl := Option.some.inj hb
    rfl

theorem unique (h : Branch parent root t l) (h' : Branch parent root t l') : l = l' := by
  induction h generalizing l' with
  | root =>
    cases h' with
    | root => rfl
    | child hne => exact absurd rfl hne
  | child hne h ih =>
    cases h' with
    | root => exact absurd rfl hne
    | child _ h' => rw [ih h']

/-- The nodes of a branch have branches that are no longer. -/
theorem of_mem (h : Branch parent root t l) (hu : u ∈ l) :
    ∃ l', Branch parent root u l' ∧ l'.length ≤ l.length := by
  induction h with
  | root =>
    rw [List.mem_singleton] at hu
    rw [hu]
    exact ⟨[root], Branch.root, le_rfl⟩
  | child hne h ih =>
    rcases List.mem_append.mp hu with hu | hu
    · obtain ⟨l', hl', hlen⟩ := ih hu
      refine ⟨l', hl', ?_⟩
      rw [List.length_append]
      omega
    · rw [List.mem_singleton] at hu
      rw [hu]
      exact ⟨_, child hne h, le_rfl⟩

/-- No node stands on a branch twice. -/
theorem nodup (h : Branch parent root t l) : l.Nodup := by
  induction h with
  | root => exact List.nodup_singleton _
  | @child t l hne h ih =>
    have hnew : t ∉ l := by
      intro ht
      obtain ⟨l', hl', hlen⟩ := h.of_mem ht
      rw [hl'.unique (child hne h), List.length_append, List.length_singleton] at hlen
      omega
    rw [List.nodup_append]
    refine ⟨ih, List.nodup_singleton _, fun a ha b hb => ?_⟩
    rw [List.mem_singleton] at hb
    rw [hb]
    exact ne_of_mem_of_not_mem ha hnew

end Branch

/-- **A node has a branch** when its parents lead to the root. -/
theorem exists_branch_iff : (∃ l, Branch parent root t l) ↔ ∃ n, parent^[n] t = root := by
  constructor
  · rintro ⟨l, h⟩
    induction h with
    | root => exact ⟨0, rfl⟩
    | child hne h ih =>
      obtain ⟨n, hn⟩ := ih
      exact ⟨n + 1, hn⟩
  · rintro ⟨n, hn⟩
    induction n generalizing t with
    | zero =>
      rw [← hn]
      exact ⟨[t], Branch.root⟩
    | succ n ih =>
      by_cases hroot : t = root
      · rw [hroot]
        exact ⟨[root], Branch.root⟩
      · obtain ⟨l, hl⟩ := ih hn
        exact ⟨l ++ [t], Branch.child hroot hl⟩

end SystemProgramming.Branches
