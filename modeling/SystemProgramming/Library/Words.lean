import Mathlib.Data.List.Induction
import SystemProgramming.Library.Scanning

/-!
# The words of a text

* `words` : the runs of bytes between white space.
* `words_append_left`, `words_append_right` : the words of two texts with white space at the seam.
* `words_word` : a word alone.
-/

namespace SystemProgramming.Words

open Scanning

/-- The words of a text, in order. -/
def words (s : List UInt8) : List (List UInt8) := (s.splitOnP isspace).filter fun w => w ≠ []

/-- A byte string that is one word. -/
def IsWord (w : List UInt8) : Prop := w ≠ [] ∧ ∀ c ∈ w, isspace c = false

variable {s t w : List UInt8} {c : UInt8}

theorem words_nil : words [] = [] := rfl

/-- White space separates words. -/
theorem words_append_cons (s t : List UInt8) (hc : isspace c = true) :
    words (s ++ c :: t) = words s ++ words t := by
  rw [words, List.splitOnP_append_cons s t hc, List.filter_append]
  rfl

theorem words_cons (t : List UInt8) (hc : isspace c = true) : words (c :: t) = words t :=
  words_append_cons [] t hc

/-- White space at the end of the first text. -/
theorem words_append_left (t : List UInt8) (h : ∀ c ∈ s.getLast?, isspace c = true) :
    words (s ++ t) = words s ++ words t := by
  induction s using List.reverseRecOn with
  | nil => rfl
  | append_singleton s c =>
    have hc : isspace c = true := h c (by rw [List.getLast?_concat]; rfl)
    rw [List.append_assoc, List.singleton_append, words_append_cons s t hc,
      words_append_cons s [] hc, words_nil, List.append_nil]

/-- White space at the start of the second. -/
theorem words_append_right (s : List UInt8) (h : ∀ c ∈ t.head?, isspace c = true) :
    words (s ++ t) = words s ++ words t := by
  cases t with
  | nil => rw [List.append_nil, words_nil, List.append_nil]
  | cons c t => rw [words_append_cons s t (h c rfl), words_cons t (h c rfl)]

theorem words_spaces (h : ∀ c ∈ s, isspace c = true) : words s = [] := by
  induction s with
  | nil => rfl
  | cons c s ih =>
    rw [words_cons s (h c List.mem_cons_self)]
    exact ih fun d hd => h d (List.mem_cons_of_mem c hd)

/-- A word alone. -/
theorem words_word (h : IsWord w) : words w = [w] := by
  have hkeep : decide (w ≠ []) = true := decide_eq_true h.1
  rw [words, List.splitOnP_eq_singleton h.2]
  exact List.filter_cons_of_pos hkeep

end SystemProgramming.Words
