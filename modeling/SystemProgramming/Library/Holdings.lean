import Mathlib.Data.List.Nodup
import Mathlib.Data.List.Perm.Basic
import Mathlib.Logic.Function.Basic

/-!
# Holdings: what a client holds, by key

A client of a resource manager holds a list of entries, each a key (an address, an identifier) and
what it knows about it, with no key twice.

* `held` : what is held at a key.
* `release` : the holdings without the entry at a key.
* `mem_release`, `release_nodup`, `release_perm` : its entries, its keys, and the entry taken out.
* `Records` : a table of keys says of each key who holds it; `Records.opened`, `Records.closed`.
-/

namespace SystemProgramming.Holdings

variable {α β : Type*} [DecidableEq α]

/-- What `l` holds at `k`. -/
def held (l : List (α × β)) (k : α) : Option β := (l.find? fun e => e.1 = k).map Prod.snd

/-- `l` without the entry at `k`. -/
def release (l : List (α × β)) (k : α) : List (α × β) := l.filter fun e => e.1 ≠ k

theorem held_eq_some {l : List (α × β)} {k : α} {v : β} (hmem : (k, v) ∈ l)
    (h : (l.map Prod.fst).Nodup) : held l k = some v := by
  induction l with
  | nil => cases hmem
  | cons e l ih =>
    obtain ⟨hnot, hnd⟩ := List.nodup_cons.mp h
    rcases List.mem_cons.mp hmem with rfl | hmem
    · simp [held]
    · have hne : e.1 ≠ k := fun he => hnot (he ▸ List.mem_map_of_mem (f := Prod.fst) hmem)
      have := ih hmem hnd
      simpa [held, hne] using this

theorem held_eq_none {l : List (α × β)} {k : α} (h : k ∉ l.map Prod.fst) : held l k = none := by
  rw [held, Option.map_eq_none_iff, List.find?_eq_none]
  intro e he hk
  exact h (by simpa using ⟨e.2, (of_decide_eq_true hk) ▸ he⟩)

theorem mem_release {l : List (α × β)} {k k' : α} {v : β} :
    (k', v) ∈ release l k ↔ (k', v) ∈ l ∧ k' ≠ k := by
  simp [release]

theorem release_nodup {l : List (α × β)} (h : (l.map Prod.fst).Nodup) (k : α) :
    ((release l k).map Prod.fst).Nodup :=
  h.sublist (List.filter_sublist.map _)

theorem key_mem_release {l : List (α × β)} {k k' : α} :
    k' ∈ (release l k).map Prod.fst ↔ k' ∈ l.map Prod.fst ∧ k' ≠ k := by
  simp only [List.mem_map, Prod.exists, exists_eq_right, mem_release, exists_and_right]

theorem key_notMem_release (l : List (α × β)) (k : α) : k ∉ (release l k).map Prod.fst := by
  simp [release]

/-- Nothing is released at a key that is not held. -/
theorem release_of_notMem {l : List (α × β)} {k : α} (h : k ∉ l.map Prod.fst) : release l k = l := by
  apply List.filter_eq_self.mpr
  intro e he
  have hne : e.1 ≠ k := fun hk => h (hk ▸ List.mem_map_of_mem he)
  simpa using hne

/-- Holding nothing twice, the holdings are the released entry and the rest. -/
theorem release_perm {l : List (α × β)} {k : α} {v : β} (hmem : (k, v) ∈ l)
    (h : (l.map Prod.fst).Nodup) : l.Perm ((k, v) :: release l k) := by
  obtain ⟨l₁, l₂, rfl⟩ := List.append_of_mem hmem
  rw [List.map_append, List.map_cons, List.nodup_middle, List.nodup_cons, ← List.map_append] at h
  have hrest : release (l₁ ++ (k, v) :: l₂) k = l₁ ++ l₂ := by
    have := release_of_notMem h.1
    rw [release, List.filter_append] at this
    rw [release, List.filter_append, List.filter_cons_of_neg (by simp)]
    exact this
  rw [hrest]
  exact List.perm_middle

/-! ### Tables -/

/-- `table` has every key with its holder, and no other. -/
def Records (table : α → Option β) (holds : β → α → Prop) : Prop :=
  ∀ k a, table a = some k ↔ holds k a

namespace Records

variable {table : α → Option β} {holds holds' : β → α → Prop} {k : β} {a : α}

omit [DecidableEq α] in
theorem congr (h : Records table holds) (hsame : ∀ k' a', holds' k' a' ↔ holds k' a') :
    Records table holds' :=
  fun k' a' => (h k' a').trans (hsame k' a').symm

/-- A free key is given to `k`. -/
theorem opened (h : Records table holds) (hfree : table a = none)
    (hadd : ∀ k' a', holds' k' a' ↔ holds k' a' ∨ (k' = k ∧ a' = a)) :
    Records (Function.update table a (some k)) holds' := by
  intro k' a'
  rw [hadd, ← h k' a']
  by_cases ha : a' = a
  · rw [ha, Function.update_self, hfree]
    simp [eq_comm]
  · rw [Function.update_of_ne ha]
    simp [ha]

/-- `k` gives up its only key. -/
theorem closed (h : Records table holds) (hheld : table a = some k)
    (honly : ∀ a', holds k a' → a' = a)
    (hdrop : ∀ k' a', holds' k' a' ↔ holds k' a' ∧ k' ≠ k) :
    Records (Function.update table a none) holds' := by
  intro k' a'
  rw [hdrop]
  by_cases ha : a' = a
  · rw [ha, Function.update_self]
    refine iff_of_false nofun ?_
    rintro ⟨hk', hne⟩
    have hsame : some k = some k' := hheld.symm.trans ((h k' a).mpr hk')
    exact hne (Option.some.inj hsame).symm
  · rw [Function.update_of_ne ha, h k' a']
    refine ⟨fun hk' => ⟨hk', fun hkk => ha (honly a' (hkk ▸ hk'))⟩, And.left⟩

end Records

end SystemProgramming.Holdings
