import Mathlib.Data.List.Sort

/-!
# The smallest items seen so far

A sorted array of the `k` smallest items that have come is kept by storing the next item at its end
and letting it sink to its place.

* `smallest` : the `k` smallest items of a list, in ascending order.
* `smallest_concat_of_le`, `smallest_concat_of_lt`, `smallest_concat_of_length_lt` : the next item.
* `sink` : the loop of insertion sort, on the cells of an array; `sink_cells` : what it does.
-/

namespace SystemProgramming.Selection

variable {α : Type*} {a b x : α} {k n : ℕ} {l : List α} {v : ℕ → α}

/-! ### The first cells of an array -/

def cells (v : ℕ → α) (n : ℕ) : List α :=
  (List.range n).map v

theorem cells_succ : cells v (n + 1) = cells v n ++ [v n] := by
  rw [cells, List.range_succ, List.map_append]
  rfl

@[simp] theorem length_cells : (cells v n).length = n := by
  rw [cells, List.length_map, List.length_range]

theorem cells_congr {w : ℕ → α} (h : ∀ i < n, w i = v i) : cells w n = cells v n :=
  List.map_congr_left fun i hi => h i (List.mem_range.mp hi)

theorem getElem?_cells (h : k < n) : (cells v n)[k]? = some (v k) := by
  rw [cells, List.getElem?_map, List.getElem?_range h]
  rfl

theorem take_cells (h : k ≤ n) : (cells v n).take k = cells v k := by
  rw [cells, ← List.map_take, List.take_range, Nat.min_eq_left h, cells]

variable [LinearOrder α]

/-! ### Inserting into a sorted list -/

theorem eq_of_perm_of_sorted {l l' : List α} (h : l.Perm l') (hl : l.Pairwise (· ≤ ·))
    (hl' : l'.Pairwise (· ≤ ·)) : l = l' :=
  h.eq_of_pairwise' hl hl'

/-- An item goes behind the items that are not above it. -/
theorem orderedInsert_append (l' : List α) (h : (l ++ l').Pairwise (· ≤ ·)) (ha : ∀ x ∈ l, x ≤ a) :
    (l ++ l').orderedInsert (· ≤ ·) a = l ++ l'.orderedInsert (· ≤ ·) a := by
  obtain ⟨hl, hl', hcross⟩ := List.pairwise_append.mp h
  refine eq_of_perm_of_sorted ?_ (h.orderedInsert a) ?_
  · calc ((l ++ l').orderedInsert (· ≤ ·) a).Perm (a :: (l ++ l')) := List.perm_orderedInsert _ a _
      _ |>.Perm (l ++ a :: l') := List.perm_middle.symm
      _ |>.Perm (l ++ l'.orderedInsert (· ≤ ·) a) :=
        (List.perm_orderedInsert _ a l').symm.append_left l
  · refine List.pairwise_append.mpr ⟨hl, hl'.orderedInsert a, fun x hx y hy => ?_⟩
    rcases (List.mem_orderedInsert _).mp hy with rfl | hy
    · exact ha x hx
    · exact hcross x hx y hy

/-- An item goes in front of a last item that is above it. -/
theorem orderedInsert_concat (h : a ≤ b) :
    (l ++ [b]).orderedInsert (· ≤ ·) a = l.orderedInsert (· ≤ ·) a ++ [b] := by
  induction l with
  | nil => exact if_pos h
  | cons c l ih =>
    rw [List.cons_append, List.orderedInsert_cons, List.orderedInsert_cons, ih]
    split
    · rfl
    · rfl

/-- The front of a list after an insertion before its end. -/
theorem take_orderedInsert (h : ∀ b, l[k]? = some b → a ≤ b) :
    (l.orderedInsert (· ≤ ·) a).take (k + 1) = (l.take k).orderedInsert (· ≤ ·) a := by
  induction l generalizing k with
  | nil =>
    rw [List.take_nil, List.orderedInsert_nil]
    exact List.take_of_length_le (by simp)
  | cons b l ih =>
    rw [List.orderedInsert_cons]
    cases k with
    | zero => rw [if_pos (h b rfl)]; rfl
    | succ k =>
      rw [List.take_succ_cons, List.orderedInsert_cons]
      by_cases hab : a ≤ b
      · rw [if_pos hab, if_pos hab]; rfl
      · rw [if_neg hab, if_neg hab, List.take_succ_cons, ih h]

/-! ### The smallest items -/

/-- The `k` smallest items of a list, in ascending order. -/
def smallest (k : ℕ) (l : List α) : List α :=
  (l.insertionSort (· ≤ ·)).take k

theorem smallest_pairwise : (smallest k l).Pairwise (· ≤ ·) :=
  (List.pairwise_insertionSort _ l).sublist (List.take_sublist k _)

theorem length_smallest : (smallest k l).length = min k l.length := by
  rw [smallest, List.length_take, List.length_insertionSort]

/-- The first of the smallest items is the least of all. -/
theorem smallest_head (hk : 0 < k) (h : (smallest k l)[0]? = some a) : a ∈ l ∧ ∀ x ∈ l, a ≤ x := by
  rw [smallest, List.getElem?_take_of_lt hk] at h
  cases hsort : l.insertionSort (· ≤ ·) with
  | nil =>
    rw [hsort] at h
    cases h
  | cons b sorted =>
    rw [hsort] at h
    cases h
    have hmem : ∀ x, x ∈ l ↔ x ∈ a :: sorted := fun x => by
      rw [← hsort]
      exact (List.mem_insertionSort _).symm
    have hsorted := List.pairwise_insertionSort (· ≤ ·) l
    rw [hsort] at hsorted
    refine ⟨(hmem a).mpr List.mem_cons_self, fun x hx => ?_⟩
    rcases List.mem_cons.mp ((hmem x).mp hx) with rfl | hx'
    · exact le_refl _
    · exact List.rel_of_pairwise_cons hsorted hx'

theorem insertionSort_concat :
    (l ++ [a]).insertionSort (· ≤ ·) = (l.insertionSort (· ≤ ·)).orderedInsert (· ≤ ·) a := by
  refine eq_of_perm_of_sorted ?_ (List.pairwise_insertionSort _ _)
    ((List.pairwise_insertionSort _ l).orderedInsert a)
  have hconcat : (l ++ [a]).Perm (a :: l) := List.perm_append_singleton a l
  have hsort : l.Perm (l.insertionSort (· ≤ ·)) := (List.perm_insertionSort _ l).symm
  exact (List.perm_insertionSort _ _).trans
    (hconcat.trans ((hsort.cons a).trans (List.perm_orderedInsert _ a _).symm))

/-- While there are fewer than `k` items, the next one is among the smallest. -/
theorem smallest_concat_of_length_lt (h : l.length < k) :
    smallest k (l ++ [a]) = (smallest k l).orderedInsert (· ≤ ·) a := by
  have hlength : (l.insertionSort (· ≤ ·)).length ≤ k := by
    rw [List.length_insertionSort]
    omega
  rw [smallest, smallest, insertionSort_concat, List.take_of_length_le hlength]
  refine List.take_of_length_le ?_
  rw [List.orderedInsert_length, List.length_insertionSort]
  omega

/-- An item below the last of the smallest takes a place among them. -/
theorem smallest_concat_of_lt (h : (smallest (k + 1) l)[k]? = some b) (hab : a < b) :
    smallest (k + 1) (l ++ [a]) = ((smallest (k + 1) l).take k).orderedInsert (· ≤ ·) a := by
  rw [smallest, List.getElem?_take_of_lt k.lt_succ_self] at h
  rw [smallest, smallest, insertionSort_concat, List.take_take, Nat.min_eq_left k.le_succ]
  refine take_orderedInsert fun c hc => ?_
  rw [h] at hc
  cases hc
  exact hab.le

/-- An item that is not below the last of the smallest leaves them as they are. -/
theorem smallest_concat_of_le (h : (smallest (k + 1) l)[k]? = some b) (hba : b ≤ a) :
    smallest (k + 1) (l ++ [a]) = smallest (k + 1) l := by
  have hsorted : (smallest (k + 1) l).Pairwise (· ≤ ·) := smallest_pairwise
  have hlength : (smallest (k + 1) l).length = k + 1 := by
    have hlt : k < (smallest (k + 1) l).length := (List.getElem?_eq_some_iff.mp h).1
    rw [length_smallest] at hlt ⊢
    omega
  -- the last of them is the greatest
  have hle : ∀ x ∈ smallest (k + 1) l, x ≤ a := by
    intro x hx
    obtain ⟨i, hi, rfl⟩ := List.getElem_of_mem hx
    have hk : k < (smallest (k + 1) l).length := by omega
    have hb : (smallest (k + 1) l)[k] = b := by
      rw [List.getElem?_eq_getElem hk] at h
      exact Option.some.inj h
    refine le_trans ?_ hba
    rw [← hb]
    rcases Nat.lt_or_eq_of_le (show i ≤ k by omega) with hlt | rfl
    · exact List.pairwise_iff_getElem.mp hsorted i k hi hk hlt
    · exact le_refl _
  have hsplit : l.insertionSort (· ≤ ·) =
      smallest (k + 1) l ++ (l.insertionSort (· ≤ ·)).drop (k + 1) :=
    (List.take_append_drop (k + 1) _).symm
  have hall := List.pairwise_insertionSort (· ≤ ·) l
  rw [hsplit] at hall
  rw [smallest, insertionSort_concat, hsplit, orderedInsert_append _ hall hle]
  exact List.take_left' hlength

/-! ### Sinking to its place -/

/-- The inner loop of insertion sort: the item in the cell `pos` goes down past all that are above
it. -/
def sink (v : ℕ → α) : ℕ → ℕ → α
  | 0 => v
  | pos + 1 =>
    if v (pos + 1) < v pos then
      sink (Function.update (Function.update v pos (v (pos + 1))) (pos + 1) (v pos)) pos
    else v

theorem sink_of_lt {pos i : ℕ} (h : pos < i) : sink v pos i = v i := by
  induction pos generalizing v with
  | zero => rfl
  | succ pos ih =>
    rw [sink]
    split
    · rw [ih (by omega), Function.update_of_ne (by omega), Function.update_of_ne (by omega)]
    · rfl

/-- **Sinking** inserts an item into the sorted cells below it. -/
theorem sink_cells {pos : ℕ} (h : (cells v pos).Pairwise (· ≤ ·)) :
    cells (sink v pos) (pos + 1) = (cells v pos).orderedInsert (· ≤ ·) (v pos) := by
  induction pos generalizing v with
  | zero => rfl
  | succ pos ih =>
    have hpos : (cells v pos).Pairwise (· ≤ ·) := by
      rw [cells_succ] at h
      exact (List.pairwise_append.mp h).1
    rw [sink]
    split
    · next hlt =>
      -- the swap, then the cells below
      have hbelow : cells (Function.update (Function.update v pos (v (pos + 1))) (pos + 1) (v pos))
          pos = cells v pos :=
        cells_congr fun i hi => by
          rw [Function.update_of_ne (by omega), Function.update_of_ne (by omega)]
      rw [cells_succ, sink_of_lt pos.lt_succ_self, ih (by rw [hbelow]; exact hpos), hbelow,
        Function.update_self, Function.update_of_ne pos.lt_succ_self.ne, Function.update_self,
        cells_succ, orderedInsert_concat hlt.le]
    · next hle =>
      have hlast : v pos ≤ v (pos + 1) := not_lt.mp hle
      have hall : ∀ x ∈ cells v (pos + 1), x ≤ v (pos + 1) := by
        rw [cells_succ] at h ⊢
        obtain ⟨-, -, hcross⟩ := List.pairwise_append.mp h
        intro x hx
        rcases List.mem_append.mp hx with hx | hx
        · exact (hcross x hx _ List.mem_cons_self).trans hlast
        · rw [List.mem_singleton.mp hx]
          exact hlast
      have hinsert := orderedInsert_append (a := v (pos + 1)) [] (by rwa [List.append_nil]) hall
      rw [List.append_nil] at hinsert
      rw [hinsert, cells_succ]
      rfl

end SystemProgramming.Selection
