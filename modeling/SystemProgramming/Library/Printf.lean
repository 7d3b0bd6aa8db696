import Mathlib.Data.Nat.Digits.Defs
import Mathlib.Data.UInt
import SystemProgramming.Library.CString
import SystemProgramming.Library.Words

/-!
# The formats of `printf`

A format is split into the texts it contains and its conversions; the conversions `%c`, `%s`, `%d`,
`%u` and `%p` are here, with the flags `-` and `0`, a width and the length modifiers `l` and `z`.

* `parseFormat`, `render`, `printf` : the pieces of a format, what they print, and both.
* `Spaced` : a format in which white space separates every conversion from what is next to it.
* `words_render` : the words such a format prints are those of its texts and of its arguments.
* `readPointer_printPointer`, `readSigned_printSigned` : arguments read back.
-/

namespace SystemProgramming.Printf

open Decimal Scanning Words
open CString (literal)

/-! ### Pointers -/

/-- A digit of a number in hexadecimal. -/
def hexDigit (d : ℕ) : UInt8 := UInt8.ofNat (if d < 10 then 48 + d else 87 + d)

/-- The value of a digit. -/
def hexValue (c : UInt8) : ℕ := if c.toNat < 58 then c.toNat - 48 else c.toNat - 87

/-- A number in hexadecimal, without leading zeros; nothing for zero. -/
def printHex (n : ℕ) : List UInt8 := (Nat.digits 16 n).reverse.map hexDigit

/-- The number that hexadecimal digits stand for. -/
def readHex (w : List UInt8) : ℕ := Nat.ofDigits 16 (w.reverse.map hexValue)

/-- `%p`: `(nil)`, or the address behind `0x`. -/
def printPointer (p : ℕ) : List UInt8 :=
  if p = 0 then [40, 110, 105, 108, 41] else 48 :: 120 :: printHex p

/-- The address that `%p` printed. -/
def readPointer (w : List UInt8) : ℕ := if w.head? = some 40 then 0 else readHex (w.drop 2)

theorem hexValue_hexDigit : ∀ d, d < 16 → hexValue (hexDigit d) = d := by decide

theorem hexDigit_range : ∀ d, d < 16 → 48 ≤ (hexDigit d).toNat := by decide

/-! ### Formats -/

/-- What stands between the percent sign and the letter of a conversion. -/
structure Spec where
  left : Bool
  zero : Bool
  width : ℕ
  deriving DecidableEq

/-- A part of a format. -/
inductive Piece
  | text (t : List UInt8)
  | conv (spec : Spec) (letter : UInt8)
  deriving DecidableEq

/-- An argument: a `char`, a string, an `int`, an unsigned word or a pointer. -/
inductive Arg
  | char (c : UInt8)
  | string (s : List UInt8)
  | int (z : ℤ)
  | word (n : UInt64)
  | pointer (p : ℕ)

/-- A byte in front of the pieces. -/
def consByte (c : UInt8) : List Piece → List Piece
  | .text t :: pieces => .text (c :: t) :: pieces
  | pieces => .text [c] :: pieces

/-- The pieces of a format, inside a conversion or outside. -/
def parseFrom : Option Spec → List UInt8 → List Piece
  | _, [] => []
  | none, c :: fmt =>
    if c = 37 then parseFrom (some ⟨false, false, 0⟩) fmt else consByte c (parseFrom none fmt)
  | some spec, c :: fmt =>
    if c = 45 then parseFrom (some { spec with left := true }) fmt
    else if c = 48 ∧ spec.width = 0 then parseFrom (some { spec with zero := true }) fmt
    else if isDigit c then
      parseFrom (some { spec with width := 10 * spec.width + (c.toNat - 48) }) fmt
    else if c = 108 ∨ c = 122 then parseFrom (some spec) fmt
    else .conv spec c :: parseFrom none fmt

/-- The pieces of a format string. -/
def parseFormat (fmt : String) : List Piece := parseFrom none (literal fmt)

/-- An argument as the letter asks for it: `%d` shows an unsigned word as a signed one. -/
def Arg.convert (letter : UInt8) : Arg → List UInt8
  | char c => [c]
  | string s => s
  | int z => printInt z
  | word n => if letter = 100 then printInt n.toInt64.toInt else printNat n.toNat
  | pointer p => printPointer p

/-- Filling up to the width. -/
def Spec.pad (spec : Spec) (s : List UInt8) : List UInt8 :=
  let fill := List.replicate (spec.width - s.length) (if spec.zero ∧ ¬ spec.left then 48 else 32)
  if spec.left then s ++ fill else fill ++ s

/-- What the pieces print; a conversion without an argument prints nothing. -/
def render : List Piece → List Arg → List UInt8
  | [], _ => []
  | .text t :: pieces, args => t ++ render pieces args
  | .conv spec letter :: pieces, arg :: args =>
    spec.pad (arg.convert letter) ++ render pieces args
  | .conv _ _ :: _, [] => []

/-- `printf`. -/
def printf (fmt : String) (args : List Arg) : List UInt8 := render (parseFormat fmt) args

/-! ### Words -/

/-- The pieces behind a conversion start with white space, if with anything. -/
def startsSpaced : List Piece → Bool
  | [] => true
  | .text t :: _ => t.head?.all isspace && t ≠ []
  | .conv _ _ :: _ => false

/-- White space separates the conversions from what is next to them, and nothing is filled with
zeros. -/
def Spaced : List Piece → Bool
  | [] => true
  | .text t :: pieces => (pieces = [] || t.getLast?.all isspace) && Spaced pieces
  | .conv spec _ :: pieces => !spec.zero && startsSpaced pieces && Spaced pieces

/-- The words of an argument: a number or a pointer is one word. -/
def Arg.words (letter : UInt8) : Arg → List (List UInt8)
  | char c => Words.words [c]
  | string s => Words.words s
  | arg => [arg.convert letter]

/-- The words of the pieces. -/
def wordsOf : List Piece → List Arg → List (List UInt8)
  | [], _ => []
  | .text t :: pieces, args => words t ++ wordsOf pieces args
  | .conv _ letter :: pieces, arg :: args => arg.words letter ++ wordsOf pieces args
  | .conv _ _ :: _, [] => []

section Words

variable {pieces : List Piece} {spec : Spec} {s : List UInt8}

theorem isspace_of_ge {c : UInt8} (h : 33 ≤ c.toNat) : isspace c = false := by
  rw [isspace, decide_eq_false_iff_not, UInt8.le_iff_toNat_le, UInt8.le_iff_toNat_le]
  have h13 : (13 : UInt8).toNat = 13 := rfl
  rintro (rfl | hin)
  · have h32 : (32 : UInt8).toNat = 32 := rfl
    omega
  · omega

theorem isWord_printNat (n : ℕ) : IsWord (printNat n) :=
  ⟨printNat_ne_nil n, fun _ hc => isspace_eq_false_of_isDigit (isDigit_of_mem_printNat hc)⟩

theorem isWord_printInt (z : ℤ) : IsWord (printInt z) := by
  rw [printInt]
  split
  · refine ⟨List.cons_ne_nil _ _, List.forall_mem_cons.mpr ⟨rfl, ?_⟩⟩
    exact (isWord_printNat _).2
  · exact isWord_printNat _

theorem isWord_printPointer (p : ℕ) : IsWord (printPointer p) := by
  rw [printPointer]
  split
  · have hall : [40, 110, 105, 108, 41].all (fun c => !isspace c) = true := rfl
    refine ⟨List.cons_ne_nil _ _, fun c hc => ?_⟩
    exact (Bool.not_eq_true' _).mp (List.all_eq_true.mp hall c hc)
  · refine ⟨List.cons_ne_nil _ _, ?_⟩
    rw [List.forall_mem_cons, List.forall_mem_cons]
    refine ⟨rfl, rfl, fun c hc => ?_⟩
    obtain ⟨d, hd, rfl⟩ := List.mem_map.mp hc
    have hlt : d < 16 := Nat.digits_lt_base (by decide) (List.mem_reverse.mp hd)
    exact isspace_of_ge ((by decide : 33 ≤ 48).trans (hexDigit_range d hlt))

/-- The words an argument prints. -/
theorem words_convert (letter : UInt8) (arg : Arg) :
    words (arg.convert letter) = arg.words letter := by
  cases arg with
  | char | string => rfl
  | int z => exact words_word (isWord_printInt z)
  | pointer p => exact words_word (isWord_printPointer p)
  | word n =>
    show words (if letter = 100 then _ else _) = [if letter = 100 then _ else _]
    split
    · exact words_word (isWord_printInt _)
    · exact words_word (isWord_printNat _)

theorem startsSpaced_head (args : List Arg) (h : startsSpaced pieces = true) :
    ∀ c ∈ (render pieces args).head?, isspace c = true := by
  intro c hc
  cases pieces with
  | nil => cases hc
  | cons piece pieces =>
    cases piece with
    | conv => cases h
    | text t =>
      cases t with
      | nil => simp [startsSpaced] at h
      | cons b t =>
        obtain rfl : b = c := Option.some.inj hc
        simpa [startsSpaced] using h

/-- Padding with blanks adds no word. -/
theorem words_pad (h : spec.zero = false) : words (spec.pad s) = words s := by
  have hblank : ∀ n, ∀ c ∈ List.replicate n (32 : UInt8), isspace c = true := by
    intro n c hc
    rw [List.eq_of_mem_replicate hc]
    rfl
  rw [Spec.pad, h]
  simp only [Bool.false_eq_true, false_and, if_false]
  cases spec.left with
  | true =>
    rw [if_pos rfl, words_append_right s fun c hc => hblank _ c (List.mem_of_mem_head? hc),
      words_spaces (hblank _), List.append_nil]
  | false =>
    rw [if_neg Bool.false_ne_true,
      words_append_left s fun c hc => hblank _ c (List.mem_of_mem_getLast? hc),
      words_spaces (hblank _), List.nil_append]

/-- **The words a spaced format prints.** -/
theorem words_render (h : Spaced pieces = true) (args : List Arg) :
    words (render pieces args) = wordsOf pieces args := by
  induction pieces generalizing args with
  | nil => rfl
  | cons piece pieces ih =>
    cases piece with
    | text t =>
      rw [Spaced, Bool.and_eq_true] at h
      rw [render, wordsOf, ← ih h.2]
      by_cases hnil : pieces = []
      · subst hnil
        rw [render, List.append_nil, words_nil, List.append_nil]
      · apply words_append_left
        intro c hc
        have hlast := h.1
        rw [decide_eq_false hnil, Bool.false_or, hc] at hlast
        exact hlast
    | conv spec letter =>
      rw [Spaced, Bool.and_eq_true, Bool.and_eq_true, Bool.not_eq_true'] at h
      cases args with
      | nil => rfl
      | cons arg args =>
        rw [render, wordsOf, ← ih h.2, words_append_right _ (startsSpaced_head args h.1.2),
          words_pad h.1.1, words_convert]

end Words

/-! ### Bytes -/

/-- No text of a format has the byte. -/
def Lacks (b : UInt8) : List Piece → Bool
  | [] => true
  | .text t :: pieces => !t.contains b && Lacks b pieces
  | .conv _ _ :: pieces => Lacks b pieces

/-- Nor has an argument the byte. -/
def Arg.Lacks (b : UInt8) : Arg → Prop
  | char c => c ≠ b
  | string s => b ∉ s
  | _ => True

theorem notMem_of_isWord {b : UInt8} {w : List UInt8} (h : IsWord w) (hb : isspace b = true) :
    b ∉ w := by
  intro hin
  rw [h.2 b hin] at hb
  cases hb

theorem Arg.notMem_convert {b : UInt8} {arg : Arg} (h : arg.Lacks b) (hb : isspace b = true)
    (letter : UInt8) : b ∉ arg.convert letter := by
  cases arg with
  | char c => exact fun hin => h (List.mem_singleton.mp hin).symm
  | string s => exact h
  | int z => exact notMem_of_isWord (isWord_printInt z) hb
  | pointer p => exact notMem_of_isWord (isWord_printPointer p) hb
  | word n =>
    rw [Arg.convert]
    split
    · exact notMem_of_isWord (isWord_printInt _) hb
    · exact notMem_of_isWord (isWord_printNat _) hb

/-- White space other than blanks is in what a format prints only if it is in a text or in an
argument. -/
theorem notMem_render {b : UInt8} {pieces : List Piece} {args : List Arg}
    (h : Lacks b pieces = true) (hargs : ∀ arg ∈ args, arg.Lacks b) (hb : isspace b = true)
    (h32 : b ≠ 32) : b ∉ render pieces args := by
  have h48 : b ≠ 48 := by
    intro he
    rw [he] at hb
    cases hb
  induction pieces generalizing args with
  | nil => exact List.not_mem_nil
  | cons piece pieces ih =>
    cases piece with
    | text t =>
      rw [Lacks, Bool.and_eq_true, Bool.not_eq_true'] at h
      rw [render, List.mem_append, not_or]
      exact ⟨by simpa using h.1, ih h.2 hargs⟩
    | conv spec letter =>
      cases args with
      | nil => exact List.not_mem_nil
      | cons arg args =>
        rw [List.forall_mem_cons] at hargs
        have hconv := Arg.notMem_convert hargs.1 hb letter
        have hfill : ∀ n, b ∉ List.replicate n (if spec.zero ∧ ¬ spec.left then 48 else 32) := by
          intro n hin
          have he := List.eq_of_mem_replicate hin
          split at he
          · exact h48 he
          · exact h32 he
        have hpad : b ∉ spec.pad (arg.convert letter) := by
          rw [Spec.pad]
          split
          · rw [List.mem_append, not_or]
            exact ⟨hconv, hfill _⟩
          · rw [List.mem_append, not_or]
            exact ⟨hfill _, hconv⟩
        rw [render, List.mem_append, not_or]
        exact ⟨hpad, ih h hargs.2⟩

/-! ### Arguments -/

/-- **A pointer read back.** -/
theorem readPointer_printPointer (p : ℕ) : readPointer (printPointer p) = p := by
  rw [printPointer]
  by_cases hp : p = 0
  · rw [if_pos hp, hp]
    rfl
  · have hdigits : ((Nat.digits 16 p).map hexDigit).map hexValue = Nat.digits 16 p := by
      rw [List.map_map]
      refine (List.map_congr_left fun d hd => ?_).trans (List.map_id _)
      exact hexValue_hexDigit d (Nat.digits_lt_base (by decide) hd)
    rw [if_neg hp]
    show readHex (printHex p) = p
    rw [readHex, printHex, ← List.map_reverse, List.reverse_reverse, hdigits, Nat.ofDigits_digits]

/-- The signed word that `%d` printed, as an unsigned one. -/
def readSigned (w : List UInt8) : UInt64 := (Int64.ofInt ((scanInt w).1.getD 0)).toUInt64

theorem scanInt_printInt (z : ℤ) : (scanInt (printInt z)).1 = some z := by
  have hrender : Renders [printInt z] ([] ++ (printInt z ++ [])) :=
    .cons (List.forall_mem_nil _) (by simp) (.nil (List.forall_mem_nil _))
  rw [List.nil_append, List.append_nil] at hrender
  obtain ⟨rest, hscan, -⟩ := hrender.scanInt
  rw [hscan]

/-- **A signed word read back.** -/
theorem readSigned_printSigned (n : UInt64) : readSigned (printInt n.toInt64.toInt) = n := by
  rw [readSigned, scanInt_printInt, Option.getD_some, Int64.ofInt_toInt]
  exact UInt64.toUInt64_toInt64 n

end SystemProgramming.Printf
