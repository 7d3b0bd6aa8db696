import Mathlib.Algebra.Ring.Int.Defs
import SystemProgramming.Library.Decimal
import SystemProgramming.Library.Segments

/-!
# The conversions of `scanf`

The conversions `%s`, `%d` and `%u` on what is left of a stream.  Each skips white space first; the
conversion of a number also takes a sign, and takes it from the stream when no digit follows.

* `scanWord`, `scanInt` : the conversions; `scanString` : the first of them, into an empty string.
* `scanWord_append` : the word in front of white space.
* `Renders` : a text whose words are separated by white space of any kind.
* `Renders.scanWord`, `Renders.scanInt` : a conversion at the next word of such a text.
-/

namespace SystemProgramming.Scanning

open Decimal Segments

/-- White space. -/
def isspace (c : UInt8) : Bool := decide (c = 32 ∨ 9 ≤ c ∧ c ≤ 13)

/-- A byte that belongs to a word. -/
def inWord (c : UInt8) : Bool := !isspace c

/-- `%s`; `none` at the end of the stream. -/
def scanWord (s : List UInt8) : Option (List UInt8 × List UInt8) :=
  match s.dropWhile isspace with
  | [] => none
  | c :: t => some (c :: t.takeWhile inWord, t.dropWhile inWord)

/-- `%s` into an empty string, which stays empty where there is no word. -/
def scanString (s : List UInt8) : List UInt8 × List UInt8 := (scanWord s).getD ([], [])

/-- The digits of a number with the sign before them; `none` when there are none. -/
def scanDigits (negative : Bool) (s : List UInt8) : Option ℤ × List UInt8 :=
  if s.head?.any isDigit then
    (some (if negative then -(readNat s : ℤ) else readNat s), s.dropWhile isDigit)
  else (none, s)

/-- `%d`, and `%u`, which takes a sign as well. -/
def scanInt (s : List UInt8) : Option ℤ × List UInt8 :=
  match s.dropWhile isspace with
  | [] => (none, [])
  | c :: t => if c = 45 then scanDigits true t else if c = 43 then scanDigits false t
    else scanDigits false (c :: t)

/-- A number with its sign. -/
def printInt (z : ℤ) : List UInt8 := if z < 0 then 45 :: printNat z.natAbs else printNat z.natAbs

/-! ### Lengths -/

variable {s t w rest : List UInt8} {tokens : List (List UInt8)}

theorem length_scanWord (h : scanWord s = some (w, rest)) : rest.length < s.length := by
  rw [scanWord] at h
  have hskip := (List.dropWhile_suffix isspace (l := s)).length_le
  cases hs : s.dropWhile isspace with
  | nil =>
    rw [hs] at h
    cases h
  | cons c t =>
    rw [hs] at h hskip
    cases h
    have hword := (List.dropWhile_suffix inWord (l := t)).length_le
    rw [List.length_cons] at hskip
    omega

theorem length_scanDigits_le (negative : Bool) (s : List UInt8) :
    (scanDigits negative s).2.length ≤ s.length := by
  rw [scanDigits]
  split
  · exact (List.dropWhile_suffix isDigit).length_le
  · exact Nat.le_refl _

theorem length_scanInt_le (s : List UInt8) : (scanInt s).2.length ≤ s.length := by
  have hskip := (List.dropWhile_suffix isspace (l := s)).length_le
  rw [scanInt]
  cases hs : s.dropWhile isspace with
  | nil => exact Nat.zero_le _
  | cons c t =>
    rw [hs, List.length_cons] at hskip
    have htrue := length_scanDigits_le true t
    have hfalse := length_scanDigits_le false t
    have hall := length_scanDigits_le false (c :: t)
    rw [List.length_cons] at hall
    show (if c = 45 then scanDigits true t else if c = 43 then scanDigits false t
      else scanDigits false (c :: t)).2.length ≤ s.length
    split
    · omega
    · split <;> omega

/-! ### A word -/

/-- White space is skipped up to the first byte that is none. -/
theorem dropWhile_gap {gap : List UInt8} (hgap : ∀ c ∈ gap, isspace c = true) {c : UInt8}
    (hc : isspace c = false) (s : List UInt8) :
    (gap ++ c :: s).dropWhile isspace = c :: s := by
  rw [List.dropWhile_append_of_pos hgap, List.dropWhile_cons_of_neg (by rw [hc]; simp)]

/-- **A word** in front of white space, or at the end. -/
theorem scanWord_append {gap : List UInt8} (hgap : ∀ c ∈ gap, isspace c = true) (hne : w ≠ [])
    (hw : ∀ c ∈ w, isspace c = false) (hsep : ∀ c ∈ rest.head?, isspace c = true) :
    scanWord (gap ++ (w ++ rest)) = some (w, rest) := by
  cases w with
  | nil => exact absurd rfl hne
  | cons c w =>
    have hin : ∀ c ∈ w, inWord c = true := by
      intro b hb
      rw [inWord, hw b (List.mem_cons_of_mem c hb)]
      rfl
    rw [scanWord, List.cons_append, dropWhile_gap hgap (hw c List.mem_cons_self)]
    show some (c :: (w ++ rest).takeWhile _, (w ++ rest).dropWhile _) = _
    cases rest with
    | nil =>
      rw [List.append_nil, List.takeWhile_eq_self_iff.mpr hin, List.dropWhile_eq_nil_iff.mpr hin]
    | cons b rest =>
      have hb : inWord b = false := by
        rw [inWord, hsep b rfl]
        rfl
      rw [takeWhile_append_cons hin hb, dropWhile_append_cons hin hb]

theorem scanString_eq (s : List UInt8) :
    scanString s = ((s.dropWhile isspace).takeWhile inWord, (s.dropWhile isspace).dropWhile inWord) := by
  rw [scanString, scanWord]
  cases hs : s.dropWhile isspace with
  | nil => rfl
  | cons c t =>
    have hc : isspace c = false := by
      have h := List.head?_dropWhile_not isspace s
      rw [hs] at h
      simpa using h
    have hin : inWord c = true := by
      rw [inWord, hc]
      rfl
    rw [List.takeWhile_cons_of_pos hin, List.dropWhile_cons_of_pos hin]
    rfl

theorem scanString_append {gap : List UInt8} (hgap : ∀ c ∈ gap, isspace c = true) (hne : w ≠ [])
    (hw : ∀ c ∈ w, isspace c = false) (hsep : ∀ c ∈ rest.head?, isspace c = true) :
    scanString (gap ++ (w ++ rest)) = (w, rest) := by
  rw [scanString, scanWord_append hgap hne hw hsep]
  rfl

theorem scanString_self (hw : ∀ c ∈ w, isspace c = false) : (scanString w).1 = w := by
  by_cases hne : w = []
  · subst hne
    rfl
  · have hend : ∀ c ∈ ([] : List UInt8).head?, isspace c = true := fun c hc => by cases hc
    have h := scanString_append (List.forall_mem_nil _) hne hw hend
    rw [List.nil_append, List.append_nil] at h
    rw [h]

theorem mem_scanString {c : UInt8} (hc : c ∈ (scanString s).1) : isspace c = false ∧ c ∈ s := by
  rw [scanString_eq] at hc
  have h := mem_takeWhile hc
  exact ⟨by simpa [inWord] using h.2, (List.dropWhile_suffix _).subset h.1⟩

theorem mem_scanString_rest {c : UInt8} (hc : c ∈ (scanString s).2) : c ∈ s := by
  rw [scanString_eq] at hc
  exact (List.dropWhile_suffix _).subset ((List.dropWhile_suffix _).subset hc)

theorem length_scanString_le (s : List UInt8) :
    (scanString s).1.length + (scanString s).2.length ≤ s.length := by
  rw [scanString_eq, ← List.length_append, List.takeWhile_append_dropWhile]
  exact (List.dropWhile_suffix _).length_le

/-- Where there is no word there is nothing behind it. -/
theorem scanString_rest_nil (h : (scanString s).1 = []) : (scanString s).2 = [] := by
  rw [scanString] at h ⊢
  rw [scanWord] at h ⊢
  cases hs : s.dropWhile isspace with
  | nil => rfl
  | cons c t =>
    rw [hs] at h
    cases h

/-! ### Words between white space -/

/-- A text that consists of the words, with white space before, between and behind them. -/
inductive Renders : List (List UInt8) → List UInt8 → Prop
  | nil {gap : List UInt8} (hgap : ∀ c ∈ gap, isspace c = true) : Renders [] gap
  | cons {gap w rest : List UInt8} {tokens : List (List UInt8)}
      (hgap : ∀ c ∈ gap, isspace c = true) (hsep : ∀ c ∈ rest.head?, isspace c = true)
      (h : Renders tokens rest) : Renders (w :: tokens) (gap ++ (w ++ rest))

/-- More white space in front. -/
theorem Renders.gap {c : UInt8} (h : Renders tokens s) (hc : isspace c = true) :
    Renders tokens (c :: s) := by
  cases h with
  | nil hgap => exact .nil (List.forall_mem_cons.mpr ⟨hc, hgap⟩)
  | cons hgap hsep h => exact .cons (List.forall_mem_cons.mpr ⟨hc, hgap⟩) hsep h

/-- One word a line. -/
theorem renders_lines (tokens : List (List UInt8)) :
    Renders tokens (tokens.flatMap fun w => w ++ [10]) := by
  induction tokens with
  | nil => exact .nil (List.forall_mem_nil _)
  | cons w tokens ih =>
    rw [List.flatMap_cons, List.append_assoc]
    exact @Renders.cons [] w _ tokens (List.forall_mem_nil _) (fun c hc => by cases hc; rfl)
      (ih.gap rfl)

theorem isspace_eq_false_of_isDigit {c : UInt8} (h : isDigit c = true) : isspace c = false := by
  rw [isDigit, decide_eq_true_eq, UInt8.le_iff_toNat_le, UInt8.le_iff_toNat_le] at h
  rw [isspace, decide_eq_false_iff_not, UInt8.le_iff_toNat_le, UInt8.le_iff_toNat_le]
  have h48 : (48 : UInt8).toNat = 48 := rfl
  have h9 : (9 : UInt8).toNat = 9 := rfl
  have h13 : (13 : UInt8).toNat = 13 := rfl
  rintro (rfl | hin)
  · have h32 : (32 : UInt8).toNat = 32 := rfl
    omega
  · omega

theorem isDigit_eq_false_of_isspace {c : UInt8} (h : isspace c = true) : isDigit c = false := by
  cases hd : isDigit c with
  | false => rfl
  | true =>
    rw [isspace_eq_false_of_isDigit hd] at h
    cases h

theorem scanWord_nil (h : Renders [] s) : scanWord s = none := by
  cases h with
  | nil hgap => rw [scanWord, List.dropWhile_eq_nil_iff.mpr hgap]

/-- **The next word.** -/
theorem Renders.scanWord (h : Renders (w :: tokens) s) (hne : w ≠ [])
    (hw : ∀ c ∈ w, isspace c = false) :
    ∃ rest, Scanning.scanWord s = some (w, rest) ∧ Renders tokens rest := by
  cases h with
  | @cons _ _ rest _ hgap hsep hrest => exact ⟨rest, scanWord_append hgap hne hw hsep, hrest⟩

theorem scanDigits_printNat (negative : Bool) (n : ℕ) (hsep : ∀ c ∈ rest.head?, isspace c = true) :
    scanDigits negative (printNat n ++ rest) =
      (some (if negative then -(n : ℤ) else n), rest) := by
  have hnodigit : ∀ c ∈ rest.head?, isDigit c = false := fun c hc =>
    isDigit_eq_false_of_isspace (hsep c hc)
  have hhead : (printNat n ++ rest).head?.any isDigit = true := by
    cases hn : printNat n with
    | nil => exact absurd hn (printNat_ne_nil n)
    | cons d ds =>
      show isDigit d = true
      exact isDigit_of_mem_printNat (hn ▸ List.mem_cons_self)
  have hdrop : (printNat n ++ rest).dropWhile isDigit = rest := by
    rw [List.dropWhile_append_of_pos fun c hc => isDigit_of_mem_printNat hc]
    cases rest with
    | nil => rfl
    | cons c rest =>
      rw [List.dropWhile_cons_of_neg (by rw [hnodigit c rfl]; exact Bool.false_ne_true)]
  rw [scanDigits, if_pos hhead, readNat_printNat n hnodigit, hdrop]

/-- **The next number.**  Behind it the text ends or goes on with white space. -/
theorem Renders.scanInt {z : ℤ} (h : Renders (printInt z :: tokens) s) :
    ∃ rest, Scanning.scanInt s = (some z, rest) ∧ (∀ c ∈ rest.head?, isspace c = true) ∧
      Renders tokens rest := by
  cases h with
  | @cons gap _ rest _ hgap hsep hrest =>
    refine ⟨rest, ?_, hsep, hrest⟩
    rw [Scanning.scanInt, printInt]
    by_cases hz : z < 0
    · rw [if_pos hz, List.cons_append, dropWhile_gap hgap (by decide)]
      show scanDigits true _ = _
      rw [scanDigits_printNat true _ hsep, if_pos rfl]
      congr 2
      omega
    · rw [if_neg hz]
      have hscan := scanDigits_printNat false z.natAbs hsep
      rw [if_neg Bool.false_ne_true, show (z.natAbs : ℤ) = z by omega] at hscan
      cases hn : printNat z.natAbs with
      | nil => exact absurd hn (printNat_ne_nil _)
      | cons d ds =>
        rw [hn, List.cons_append] at hscan
        have hd : isDigit d = true := isDigit_of_mem_printNat (hn ▸ List.mem_cons_self)
        have hge : 48 ≤ d := (of_decide_eq_true hd).1
        rw [UInt8.le_iff_toNat_le] at hge
        have hne : ∀ b : UInt8, b.toNat < 48 → d ≠ b := by
          intro b hb heq
          subst heq
          have h48 : (48 : UInt8).toNat = 48 := rfl
          omega
        rw [List.cons_append, dropWhile_gap hgap (isspace_eq_false_of_isDigit hd)]
        show (if d = 45 then _ else if d = 43 then _ else _) = _
        rw [if_neg (hne 45 (by decide)), if_neg (hne 43 (by decide)), hscan]

end SystemProgramming.Scanning
