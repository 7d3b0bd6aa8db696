import SystemProgramming.Library.Segments

/-!
# NUL-terminated strings in buffers

A buffer is a list of bytes of fixed length.  Storing a string stores its NUL too, and fails when there
is no room for both.

* `literal`, `strAt` : the bytes of a literal, and the string at an offset of a buffer.
* `sprintf`, `strcat`, `strcpy` : on buffers, `none` when a byte outside is read or written.
* `filled` : a buffer that holds a string and NULs behind it.
-/

namespace SystemProgramming.CString

open Segments

/-- The bytes of a string literal. -/
def literal (s : String) : List UInt8 := s.toByteArray.data.toList

/-- The string that a buffer holds. -/
def cString (buffer : List UInt8) : List UInt8 := buffer.takeWhile fun c => decide (c ≠ 0)

/-- The string at an offset of a buffer. -/
def strAt (buffer : List UInt8) (p : ℕ) : List UInt8 :=
  segment (fun c => decide (c ≠ 0)) buffer p

/-- Stores the string `s` at an offset. -/
def putAt (buffer : List UInt8) (off : ℕ) (s : List UInt8) : Option (List UInt8) :=
  if off + s.length < buffer.length then
    some (buffer.take off ++ (s ++ 0 :: buffer.drop (off + s.length + 1)))
  else none

/-- `sprintf`, with the text that is printed. -/
def sprintf (dst text : List UInt8) : Option (List UInt8) := putAt dst 0 text

/-- `strcpy`. -/
def strcpy (dst src : List UInt8) : Option (List UInt8) :=
  if (0 : UInt8) ∈ src then putAt dst 0 (cString src) else none

/-- `strcat`. -/
def strcat (dst src : List UInt8) : Option (List UInt8) :=
  if (0 : UInt8) ∈ dst ∧ (0 : UInt8) ∈ src then putAt dst (cString dst).length (cString src) else none

/-- A buffer that holds `s` and NULs behind it. -/
def filled (size : ℕ) (s : List UInt8) : List UInt8 := s ++ List.replicate (size - s.length) 0

variable {size off : ℕ} {s t src buffer buffer' : List UInt8}

theorem cString_append (hs : (0 : UInt8) ∉ s) (junk : List UInt8) : cString (s ++ 0 :: junk) = s :=
  takeWhile_ne_append hs junk

theorem zero_notMem_cString (buffer : List UInt8) : (0 : UInt8) ∉ cString buffer := by
  intro h
  have := List.mem_takeWhile_imp h
  simp at this

theorem strAt_zero (buffer : List UInt8) : strAt buffer 0 = cString buffer := rfl

theorem strAt_append (pre : List UInt8) (hs : (0 : UInt8) ∉ s) (junk : List UInt8) :
    strAt (pre ++ (s ++ 0 :: junk)) pre.length = s := by
  rw [strAt, segment_append]
  exact takeWhile_ne_append hs junk

/-! ### Buffers filled up with NULs -/

theorem length_filled (h : s.length ≤ size) : (filled size s).length = size := by
  rw [filled, List.length_append, List.length_replicate]
  omega

theorem filled_eq (h : s.length < size) :
    filled size s = s ++ 0 :: List.replicate (size - s.length - 1) 0 := by
  have hsize : size - s.length = (size - s.length - 1) + 1 := by omega
  rw [filled, hsize, List.replicate_succ, Nat.add_sub_cancel]

theorem cString_filled (hs : (0 : UInt8) ∉ s) (h : s.length < size) : cString (filled size s) = s := by
  rw [filled_eq h, cString_append hs]

theorem zero_mem_filled (h : s.length < size) : (0 : UInt8) ∈ filled size s := by
  rw [filled_eq h]
  exact List.mem_append_right s List.mem_cons_self

/-! ### The functions -/

/-- Storing a string changes no length. -/
theorem length_of_putAt (h : putAt buffer off s = some buffer') : buffer'.length = buffer.length := by
  rw [putAt] at h
  split at h
  · rename_i hfits
    rw [← Option.some.inj h]
    simp only [List.length_append, List.length_take, List.length_cons, List.length_drop]
    omega
  · cases h

theorem length_of_strcat (h : strcat buffer src = some buffer') : buffer'.length = buffer.length := by
  rw [strcat] at h
  split at h
  · exact length_of_putAt h
  · cases h

theorem sprintf_eq (h : t.length < buffer.length) :
    sprintf buffer t = some (t ++ 0 :: buffer.drop (t.length + 1)) := by
  rw [sprintf, putAt, if_pos (by omega), List.take_zero, List.nil_append, Nat.zero_add]

/-- Appending to a string in a buffer of which nothing but the length is known. -/
theorem strcat_eq (ht : (0 : UInt8) ∉ t) (hs : (0 : UInt8) ∉ s) (hsize : s.length < size)
    (junk : List UInt8) :
    strcat (t ++ 0 :: junk) (filled size s) =
      if t.length + s.length < (t ++ 0 :: junk).length then
        some ((t ++ s) ++ 0 :: (t ++ 0 :: junk).drop (t.length + s.length + 1))
      else none := by
  have hmem : (0 : UInt8) ∈ t ++ 0 :: junk ∧ (0 : UInt8) ∈ filled size s :=
    ⟨List.mem_append_right t List.mem_cons_self, zero_mem_filled hsize⟩
  rw [strcat, if_pos hmem, cString_append ht, cString_filled hs hsize, putAt, List.take_left]
  simp only [List.append_assoc]

/-- A longer string in place of the one in front of the NULs. -/
theorem strcpy_filled (hs : (0 : UInt8) ∉ t) (ht : t.length < size) (hle : s.length ≤ t.length)
    (junk : List UInt8) : strcpy (filled size s) (t ++ 0 :: junk) = some (filled size t) := by
  have hmem : (0 : UInt8) ∈ t ++ 0 :: junk := List.mem_append_right t List.mem_cons_self
  have hdrop : (filled size s).drop (t.length + 1) = List.replicate (size - t.length - 1) 0 := by
    have hlen : size - s.length - (t.length + 1 - s.length) = size - t.length - 1 := by omega
    rw [filled, List.drop_append, List.drop_eq_nil_of_le (by omega), List.nil_append,
      List.drop_replicate, hlen]
  rw [strcpy, if_pos hmem, cString_append hs, putAt, length_filled (by omega), if_pos (by omega),
    List.take_zero, List.nil_append, Nat.zero_add, hdrop, filled_eq ht]

end SystemProgramming.CString
