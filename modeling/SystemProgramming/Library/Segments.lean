import Mathlib.Data.List.TakeWhile

/-!
# Segments of a list

The segment at a position reaches from there up to the first element that fails a test: a
NUL-terminated string in a buffer is one, and so is a token.  Writing an element that fails the test
cuts a segment short, and leaves every segment alone that it does not fall into.

* `segment_add` : a segment from a later position on.
* `segment_set_add`, `segment_set_before`, `segment_set_after` : one write inside, before and behind
  a segment.
-/

namespace SystemProgramming.Segments

variable {α : Type*} {p : α → Bool} {l : List α} {i j k : ℕ} {v : α}

/-- The elements from position `i` on, up to the first that fails `p`. -/
def segment (p : α → Bool) (l : List α) (i : ℕ) : List α := (l.drop i).takeWhile p

/-! ### `takeWhile` and `dropWhile` -/

theorem takeWhile_drop (l : List α) (h : k ≤ (l.takeWhile p).length) :
    (l.drop k).takeWhile p = (l.takeWhile p).drop k := by
  induction l generalizing k with
  | nil => simp
  | cons a l ih =>
    cases k with
    | zero => rfl
    | succ k =>
      by_cases ha : p a
      · rw [List.takeWhile_cons_of_pos ha, List.length_cons] at h
        rw [List.takeWhile_cons_of_pos ha, List.drop_succ_cons, List.drop_succ_cons,
          ih (Nat.le_of_succ_le_succ h)]
      · rw [List.takeWhile_cons_of_neg ha] at h
        cases h

theorem takeWhile_set_of_le (l : List α) (hv : p v = false) (h : k ≤ (l.takeWhile p).length) :
    (l.set k v).takeWhile p = (l.takeWhile p).take k := by
  induction l generalizing k with
  | nil => simp
  | cons a l ih =>
    cases k with
    | zero => simp [hv]
    | succ k =>
      by_cases ha : p a
      · rw [List.takeWhile_cons_of_pos ha, List.length_cons] at h
        rw [List.set_cons_succ, List.takeWhile_cons_of_pos ha, List.takeWhile_cons_of_pos ha,
          List.take_succ_cons, ih (Nat.le_of_succ_le_succ h)]
      · rw [List.takeWhile_cons_of_neg ha] at h
        cases h

theorem takeWhile_set_of_lt (l : List α) (v : α) (h : (l.takeWhile p).length < k) :
    (l.set k v).takeWhile p = l.takeWhile p := by
  induction l generalizing k with
  | nil => rfl
  | cons a l ih =>
    cases k with
    | zero => cases h
    | succ k =>
      rw [List.set_cons_succ]
      by_cases ha : p a
      · rw [List.takeWhile_cons_of_pos ha, List.length_cons] at h
        rw [List.takeWhile_cons_of_pos ha, List.takeWhile_cons_of_pos ha,
          ih (Nat.lt_of_succ_lt_succ h)]
      · rw [List.takeWhile_cons_of_neg ha, List.takeWhile_cons_of_neg ha]

/-- Dropping as many elements as are taken. -/
theorem drop_length_takeWhile (p : α → Bool) (l : List α) :
    l.drop (l.takeWhile p).length = l.dropWhile p := by
  induction l with
  | nil => rfl
  | cons a l ih =>
    by_cases ha : p a
    · rw [List.takeWhile_cons_of_pos ha, List.dropWhile_cons_of_pos ha, List.length_cons,
        List.drop_succ_cons, ih]
    · rw [List.takeWhile_cons_of_neg ha, List.dropWhile_cons_of_neg ha]
      rfl

theorem length_takeWhile_le (p : α → Bool) (l : List α) : (l.takeWhile p).length ≤ l.length :=
  (List.takeWhile_prefix p).length_le

theorem mem_takeWhile {a : α} (h : a ∈ l.takeWhile p) : a ∈ l ∧ p a = true :=
  ⟨(List.takeWhile_prefix p).subset h, List.mem_takeWhile_imp h⟩

/-- A run of elements that pass, before one that fails. -/
theorem takeWhile_append_cons {s rest : List α} {d : α} (hs : ∀ a ∈ s, p a = true)
    (hd : p d = false) : (s ++ d :: rest).takeWhile p = s := by
  rw [List.takeWhile_append_of_pos hs, List.takeWhile_cons_of_neg (by simp [hd]), List.append_nil]

theorem dropWhile_append_cons {s rest : List α} {d : α} (hs : ∀ a ∈ s, p a = true)
    (hd : p d = false) : (s ++ d :: rest).dropWhile p = d :: rest := by
  rw [List.dropWhile_append_of_pos hs, List.dropWhile_cons_of_neg (by simp [hd])]

/-- A search passes over a list that does not hold what it looks for. -/
theorem decide_ne_of_notMem [DecidableEq α] {s : List α} {d : α} (h : d ∉ s) :
    ∀ a ∈ s, decide (a ≠ d) = true := by
  intro a ha
  exact decide_eq_true (ne_of_mem_of_not_mem ha h)

theorem takeWhile_ne_append [DecidableEq α] {s : List α} {d : α} (h : d ∉ s) (rest : List α) :
    (s ++ d :: rest).takeWhile (· ≠ d) = s :=
  takeWhile_append_cons (decide_ne_of_notMem h) (decide_eq_false fun hd => hd rfl)

/-! ### Segments -/

theorem segment_add (h : k ≤ (segment p l i).length) :
    segment p l (i + k) = (segment p l i).drop k := by
  rw [segment, ← List.drop_drop]
  exact takeWhile_drop _ h

/-- The segment behind a prefix of the list. -/
theorem segment_append (pre rest : List α) :
    segment p (pre ++ rest) pre.length = rest.takeWhile p := by
  rw [segment, List.drop_left]

/-- The element at a position is the first of its segment, or one that fails the test. -/
theorem getD_eq_headD_segment {d : α}
    (hfail : ∀ a ∈ l, p a = false → a = d) (i : ℕ) : l.getD i d = (segment p l i).headD d := by
  have hget : l.getD i d = (l.drop i).headD d := by
    rw [List.getD_eq_getElem?_getD, List.headD_eq_head?_getD, List.head?_drop]
  rw [hget, segment]
  cases hdrop : l.drop i with
  | nil => rfl
  | cons a r =>
    have hmem : a ∈ l := List.mem_of_mem_drop (hdrop ▸ List.mem_cons_self)
    by_cases ha : p a
    · rw [List.takeWhile_cons_of_pos ha]
      rfl
    · rw [List.takeWhile_cons_of_neg ha]
      exact hfail a hmem (by simpa using ha)

theorem segment_set_before (v : α) (h : j < i) : segment p (l.set j v) i = segment p l i := by
  rw [segment, List.drop_set_of_lt h, segment]

theorem segment_set_add (hv : p v = false) (h : k ≤ (segment p l i).length) :
    segment p (l.set (i + k) v) i = (segment p l i).take k := by
  rw [segment, List.drop_set, if_neg (by omega), Nat.add_sub_cancel_left]
  exact takeWhile_set_of_le _ hv h

theorem segment_set_after (v : α) (h : i + (segment p l i).length < j) :
    segment p (l.set j v) i = segment p l i := by
  rw [segment, List.drop_set, if_neg (by omega)]
  refine takeWhile_set_of_lt _ v ?_
  rw [segment] at h
  omega

/-- An empty segment stays empty. -/
theorem segment_set_nil (hv : p v = false) (h : segment p l i = []) :
    segment p (l.set j v) i = [] := by
  rcases lt_trichotomy j i with hlt | rfl | hgt
  · rw [segment_set_before v hlt, h]
  · exact segment_set_add (k := 0) hv (Nat.zero_le _)
  · rw [segment_set_after v (by rw [h]; simpa using hgt), h]

end SystemProgramming.Segments
