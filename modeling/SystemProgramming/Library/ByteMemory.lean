import Mathlib.Algebra.Ring.Nat

/-!
# A byte-addressed memory with 32-bit words

`Mem` is a total map from addresses to bytes.  A word is the four bytes at an address in
little-endian order; `readWord` and `writeWord` move words, `copyBytes` moves a run of bytes.

* `readWord_writeWord` : a word reads back, modulo `2^32`.
* `readWord_writeWord_of_disjoint` : words four apart do not interfere.
* `writeWord_outside`, `copyBytes_outside` : the bytes outside the written range are unchanged.
* `readWord_congr` : a word depends on its four bytes only.
-/

namespace SystemProgramming.ByteMemory

/-- A memory: a byte at every address. -/
abbrev Mem := ℕ → UInt8

/-- The 32-bit little-endian word at `p`. -/
def readWord (m : Mem) (p : ℕ) : ℕ :=
  (m p).toNat + 2 ^ 8 * (m (p + 1)).toNat + 2 ^ 16 * (m (p + 2)).toNat + 2 ^ 24 * (m (p + 3)).toNat

/-- Store one byte. -/
def writeByte (m : Mem) (p : ℕ) (b : UInt8) : Mem := fun a => if a = p then b else m a

/-- Store `v` modulo `2^32` as the word at `p`. -/
def writeWord (m : Mem) (p v : ℕ) : Mem := fun a =>
  if a = p then UInt8.ofNat v
  else if a = p + 1 then UInt8.ofNat (v / 2 ^ 8)
  else if a = p + 2 then UInt8.ofNat (v / 2 ^ 16)
  else if a = p + 3 then UInt8.ofNat (v / 2 ^ 24)
  else m a

/-- Copy the `n` bytes at `src` to `dst`. -/
def copyBytes (m : Mem) (dst src n : ℕ) : Mem := fun a =>
  if dst ≤ a ∧ a < dst + n then m (src + (a - dst)) else m a

/-! ### Words -/

theorem readWord_lt (m : Mem) (p : ℕ) : readWord m p < 2 ^ 32 := by
  have h0 := (m p).toNat_lt
  have h1 := (m (p + 1)).toNat_lt
  have h2 := (m (p + 2)).toNat_lt
  have h3 := (m (p + 3)).toNat_lt
  unfold readWord
  omega

theorem readWord_writeWord (m : Mem) (p v : ℕ) : readWord (writeWord m p v) p = v % 2 ^ 32 := by
  have h1 : p + 1 ≠ p := by omega
  simp only [readWord, writeWord, if_true, h1, if_false, show p + 2 ≠ p by omega,
    show p + 2 ≠ p + 1 by omega, show p + 3 ≠ p by omega, show p + 3 ≠ p + 1 by omega,
    show p + 3 ≠ p + 2 by omega, UInt8.toNat_ofNat']
  omega

theorem readWord_writeWord_of_lt (m : Mem) (p : ℕ) {v : ℕ} (hv : v < 2 ^ 32) :
    readWord (writeWord m p v) p = v := by
  rw [readWord_writeWord, Nat.mod_eq_of_lt hv]

theorem readWord_congr {m m' : Mem} {p : ℕ} (h : ∀ a, p ≤ a → a < p + 4 → m' a = m a) :
    readWord m' p = readWord m p := by
  simp only [readWord, h p le_rfl (by omega), h (p + 1) (by omega) (by omega),
    h (p + 2) (by omega) (by omega), h (p + 3) (by omega) (by omega)]

/-! ### Frames -/

theorem writeByte_outside (m : Mem) {p a : ℕ} (b : UInt8) (h : a ≠ p) : writeByte m p b a = m a :=
  if_neg h

theorem writeWord_outside (m : Mem) {p a : ℕ} (v : ℕ) (h : a < p ∨ p + 4 ≤ a) :
    writeWord m p v a = m a := by
  simp only [writeWord, show a ≠ p by omega, show a ≠ p + 1 by omega, show a ≠ p + 2 by omega,
    show a ≠ p + 3 by omega, if_false]

theorem copyBytes_outside (m : Mem) {dst a : ℕ} (src n : ℕ) (h : a < dst ∨ dst + n ≤ a) :
    copyBytes m dst src n a = m a := by
  rw [copyBytes, if_neg (by omega)]

theorem readWord_writeWord_of_disjoint (m : Mem) {p q : ℕ} (v : ℕ) (h : p + 4 ≤ q ∨ q + 4 ≤ p) :
    readWord (writeWord m q v) p = readWord m p :=
  readWord_congr fun a _ _ => writeWord_outside m v (by omega)

theorem writeWord_comm (m : Mem) {p q : ℕ} (v w : ℕ) (h : p + 4 ≤ q ∨ q + 4 ≤ p) :
    writeWord (writeWord m p v) q w = writeWord (writeWord m q w) p v := by
  funext a
  by_cases hp : a < p ∨ p + 4 ≤ a
  · rw [writeWord_outside _ v hp]
    by_cases hq : a < q ∨ q + 4 ≤ a
    · rw [writeWord_outside _ w hq, writeWord_outside _ w hq, writeWord_outside _ v hp]
    · simp only [writeWord, show a ≠ p by omega, show a ≠ p + 1 by omega, show a ≠ p + 2 by omega,
        show a ≠ p + 3 by omega, if_false]
  · rw [writeWord_outside _ w (by omega)]
    simp only [writeWord, show a ≠ q by omega, show a ≠ q + 1 by omega, show a ≠ q + 2 by omega,
      show a ≠ q + 3 by omega, if_false]

end SystemProgramming.ByteMemory
