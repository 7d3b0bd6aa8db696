import Mathlib.Algebra.Ring.Nat

/-!
# Fields of a structure in memory

A structure is a list of bytes; a field of it is a little-endian number of some width at some offset.

* `readLE`, `leBytes` : a number from its bytes, and the bytes of a number.
* `field`, `setField` : reading and writing a field; `field_setField` : reading what was written.
-/

namespace SystemProgramming.ByteFields

/-- The number that some bytes stand for. -/
def readLE : List UInt8 → ℕ
  | [] => 0
  | b :: bytes => b.toNat + 256 * readLE bytes

/-- A number in that many bytes. -/
def leBytes : ℕ → ℕ → List UInt8
  | 0, _ => []
  | width + 1, v => UInt8.ofNat (v % 256) :: leBytes width (v / 256)

/-- The field of that offset and width. -/
def field (bytes : List UInt8) (off width : ℕ) : ℕ := readLE ((bytes.drop off).take width)

/-- The structure with a field set. -/
def setField (bytes : List UInt8) (off width v : ℕ) : List UInt8 :=
  bytes.take off ++ (leBytes width v ++ bytes.drop (off + width))

variable {bytes : List UInt8} {off width v : ℕ}

theorem length_leBytes (width v : ℕ) : (leBytes width v).length = width := by
  induction width generalizing v with
  | zero => rfl
  | succ width ih => rw [leBytes, List.length_cons, ih]

theorem readLE_leBytes (h : v < 256 ^ width) : readLE (leBytes width v) = v := by
  induction width generalizing v with
  | zero =>
    rw [Nat.pow_zero] at h
    show 0 = v
    omega
  | succ width ih =>
    have hdiv : v / 256 < 256 ^ width := Nat.div_lt_of_lt_mul (by rw [Nat.pow_succ'] at h; exact h)
    have hmod : (UInt8.ofNat (v % 256)).toNat = v % 256 :=
      UInt8.toNat_ofNat_of_lt (Nat.mod_lt v (by decide))
    rw [leBytes, readLE, ih hdiv, hmod]
    omega

/-- A field in the first bytes. -/
theorem field_take {n : ℕ} (h : off + width ≤ n) (bytes : List UInt8) :
    field (bytes.take n) off width = field bytes off width := by
  rw [field, field, List.drop_take, List.take_take, Nat.min_eq_left (by omega)]

/-- **Reading what was written**, also with more bytes behind the structure. -/
theorem field_setField (h : off + width ≤ bytes.length) (hv : v < 256 ^ width) (more : List UInt8) :
    field (setField bytes off width v ++ more) off width = v := by
  have htake : (bytes.take off).length = off := by
    rw [List.length_take]
    omega
  rw [field, setField, List.append_assoc, List.drop_left' htake, List.append_assoc,
    List.take_left' (length_leBytes width v), readLE_leBytes hv]

end SystemProgramming.ByteFields
