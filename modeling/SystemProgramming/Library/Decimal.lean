import Mathlib.Algebra.Ring.Nat
import Mathlib.Data.List.TakeWhile

/-!
# Decimal numbers in byte strings

* `printNat`, `readNat` : a number as digits, the most significant first, and the number that the
  digits at the start of a string stand for.
* `readNat_printNat` : reading a printed number back, whatever follows it.
-/

namespace SystemProgramming.Decimal

/-- The test for a digit. -/
def isDigit (c : UInt8) : Bool := decide (48 ≤ c ∧ c ≤ 57)

/-- A number in decimal, without leading zeros. -/
def printNat (n : ℕ) : List UInt8 := (Nat.toDigits 10 n).map Char.toUInt8

/-- The number at the start of a string, zero when there is none. -/
def readNat (s : List UInt8) : ℕ :=
  Nat.ofDigitChars 10 ((s.takeWhile isDigit).map Char.ofUInt8) 0

/-! ### Digits -/

variable {n k : ℕ} {c : UInt8} {d : Char} {rest : List UInt8}

theorem toNat_toUInt8 (h : d.isDigit = true) : d.toUInt8.toNat = d.toNat := by
  have hle : d.toNat ≤ 57 := (Char.isDigit_iff_toNat.mp h).2
  show d.val.toUInt8.toNat = d.toNat
  rw [UInt32.toNat_toUInt8]
  show d.toNat % 256 = d.toNat
  omega

theorem isDigit_toUInt8 (h : d.isDigit = true) : isDigit d.toUInt8 = true := by
  obtain ⟨hge, hle⟩ := Char.isDigit_iff_toNat.mp h
  rw [isDigit, decide_eq_true_eq, UInt8.le_iff_toNat_le, UInt8.le_iff_toNat_le, toNat_toUInt8 h]
  exact ⟨hge, hle⟩

theorem ofUInt8_toUInt8 (h : d.isDigit = true) : Char.ofUInt8 d.toUInt8 = d := by
  refine Char.ext (UInt32.toNat_inj.mp ?_)
  show d.toUInt8.toUInt32.toNat = d.val.toNat
  rw [UInt8.toNat_toUInt32, toNat_toUInt8 h]
  rfl

theorem isDigit_of_mem_toDigits (h : d ∈ Nat.toDigits 10 n) : d.isDigit = true :=
  Nat.isDigit_of_mem_toDigits (by decide) (by decide) h

/-! ### Printed numbers -/

theorem isDigit_of_mem_printNat (h : c ∈ printNat n) : isDigit c = true := by
  obtain ⟨d, hd, rfl⟩ := List.mem_map.mp h
  exact isDigit_toUInt8 (isDigit_of_mem_toDigits hd)

theorem printNat_ne_nil (n : ℕ) : printNat n ≠ [] := by
  rw [printNat, ne_eq, List.map_eq_nil_iff]
  exact Nat.toDigits_ne_nil

theorem length_printNat_le (hk : 0 < k) (h : n < 10 ^ k) : (printNat n).length ≤ k := by
  rw [printNat, List.length_map]
  exact (Nat.length_toDigits_le_iff (by decide) hk).mpr h

/-! ### Reading -/

/-- Only the digits at the start count. -/
theorem takeWhile_printNat (n : ℕ) (hrest : ∀ c ∈ rest.head?, isDigit c = false) :
    (printNat n ++ rest).takeWhile isDigit = printNat n := by
  rw [List.takeWhile_append_of_pos fun c hc => isDigit_of_mem_printNat hc]
  cases rest with
  | nil => exact List.append_nil _
  | cons c rest =>
    rw [List.takeWhile_cons_of_neg (by rw [hrest c rfl]; exact Bool.false_ne_true), List.append_nil]

/-- **Reading a printed number back.** -/
theorem readNat_printNat (n : ℕ) (hrest : ∀ c ∈ rest.head?, isDigit c = false) :
    readNat (printNat n ++ rest) = n := by
  have hchars : (printNat n).map Char.ofUInt8 = Nat.toDigits 10 n := by
    have hback : ∀ d ∈ Nat.toDigits 10 n, (Char.ofUInt8 ∘ Char.toUInt8) d = id d := fun d hd =>
      ofUInt8_toUInt8 (isDigit_of_mem_toDigits hd)
    rw [printNat, List.map_map, List.map_congr_left hback, List.map_id]
  rw [readNat, takeWhile_printNat n hrest, hchars, Nat.ofDigitChars_ten_toDigits]

end SystemProgramming.Decimal
