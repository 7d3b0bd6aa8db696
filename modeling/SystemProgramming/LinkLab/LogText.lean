import SystemProgramming.Library.Printf

/-!
# The text of the tracer's log (`memlog.c`, `memlog.h`)

Everything the tracer reports goes through `mlog`, which numbers the lines and writes them to
`stderr`.  The macros of `memlog.h` give it the formats.

* `LogLine`, `LogLine.format` : the calls of `mlog` in the macros.
* `mlog`, `logText` : one call, and the text that a sequence of calls writes.
* `readLog` : a reader of such texts, which looks at nothing but the bytes.
* `readLog_eq_some_iff` : it reads back what was written, and accepts nothing else.
-/

namespace SystemProgramming.LinkLab

open Decimal Printf Scanning Words
open CString (literal)

/-! ### Writing -/

/-- The calls of `mlog` in the macros of `memlog.h`. -/
inductive LogLine
  /-- `LOG_START` -/
  | start
  /-- `LOG_MALLOC` -/
  | malloc (size : UInt64) (res : ℕ)
  /-- `LOG_CALLOC` -/
  | calloc (nmemb size : UInt64) (res : ℕ)
  /-- `LOG_REALLOC` -/
  | realloc (ptr : ℕ) (size : UInt64) (res : ℕ)
  /-- `LOG_FREE` -/
  | free (ptr : ℕ)
  /-- `LOG_DOUBLE_FREE` -/
  | doubleFree
  /-- `LOG_ILL_FREE` -/
  | illFree
  /-- the first line of `LOG_STATISTICS`, `LOG_NONFREED_START` and `LOG_STOP` -/
  | blank
  /-- the other lines of `LOG_STATISTICS` -/
  | statistics
  | allocatedTotal (n : UInt64)
  | allocatedAvg (n : UInt64)
  | freedTotal (n : UInt64)
  /-- the other lines of `LOG_NONFREED_START` -/
  | nonfreed
  | columns
  /-- `LOG_BLOCK` -/
  | block (ptr : ℕ) (size : UInt64) (cnt : ℤ)
  /-- the last line of `LOG_STOP` -/
  | stop
  deriving DecidableEq

/-- The format and the arguments of the call. -/
def LogLine.format : LogLine → String × List Arg
  | start => ("Memory tracer started.", [])
  | malloc size res =>
    ("%9c malloc( %zu ) = %p", [.char 32, .word size, .pointer res])
  | calloc nmemb size res =>
    ("%9c calloc( %zu , %zu ) = %p", [.char 32, .word nmemb, .word size, .pointer res])
  | realloc ptr size res =>
    ("%9c realloc( %p , %zu ) = %p", [.char 32, .pointer ptr, .word size, .pointer res])
  | free ptr => ("%9c free( %p )", [.char 32, .pointer ptr])
  | doubleFree => ("%2c  *** DOUBLE_FREE  *** (ignoring)", [.char 32])
  | illFree => ("%2c  *** ILLEGAL_FREE *** (ignoring)", [.char 32])
  | blank => ("", [])
  | statistics => ("Statistics", [])
  | allocatedTotal n => ("  allocated_total      %lu", [.word n])
  | allocatedAvg n => ("  allocated_avg        %lu", [.word n])
  | freedTotal n => ("  freed_total          %lu", [.word n])
  | nonfreed => ("Non-deallocated memory blocks", [])
  | columns => ("  %-16s   %-8s   %-7s",
      [.string (literal "block"), .string (literal "size"), .string (literal "ref cnt")])
  | block ptr size cnt => ("  %-16p   %-8zd   %-7d", [.pointer ptr, .word size, .int cnt])
  | stop => ("Memory tracer stopped.", [])

/-- What the call prints. -/
def LogLine.text (l : LogLine) : List UInt8 := printf l.format.1 l.format.2

/-- The number of a line, the static variable `id` of `mlog`. -/
def numbering (id : UInt32) : List UInt8 := printf "[%04u] " [.word id.toUInt64]

/-- `id`, and what has been written to `stderr`. -/
structure Log where
  id : UInt32
  written : List UInt8

/-- `mlog`. -/
def mlog (log : Log) (l : LogLine) : Log :=
  ⟨log.id + 1, log.written ++ (numbering log.id ++ l.text ++ [10])⟩

/-- The text that a sequence of calls writes. -/
def logText (lines : List LogLine) : List UInt8 := (lines.foldl mlog ⟨1, []⟩).written

/-- The text from the line `id` on. -/
def textFrom : UInt32 → List LogLine → List UInt8
  | _, [] => []
  | id, l :: lines => numbering id ++ l.text ++ 10 :: textFrom (id + 1) lines

theorem foldl_mlog (lines : List LogLine) (log : Log) :
    (lines.foldl mlog log).written = log.written ++ textFrom log.id lines := by
  induction lines generalizing log with
  | nil => exact (List.append_nil _).symm
  | cons l lines ih =>
    rw [List.foldl_cons, ih]
    simp only [mlog, textFrom, List.append_assoc, List.singleton_append]

theorem logText_eq (lines : List LogLine) : logText lines = textFrom 1 lines :=
  foldl_mlog lines ⟨1, []⟩

/-! ### Reading -/

/-- An unsigned number that is a word. -/
def readWord (w : List UInt8) : UInt64 := UInt64.ofNat (readNat w)

/-- The call whose words these are, as far as the words tell the calls apart. -/
def readWords : List (List UInt8) → Option LogLine
  | [] => some .blank
  | [_] => some .statistics
  | [key, n] =>
    if key = literal "allocated_total" then some (.allocatedTotal (readWord n))
    else if key = literal "allocated_avg" then some (.allocatedAvg (readWord n))
    else some (.freedTotal (readWord n))
  | [key, p, n] =>
    if key = literal "Memory" then some (if n = literal "started." then .start else .stop)
    else if key = literal "Non-deallocated" then some .nonfreed
    else if key = literal "free(" then some (.free (readPointer p))
    else some (.block (readPointer key) (readSigned p) ((scanInt n).1.getD 0))
  | [key, name, _, _] =>
    if key = literal "block" then some .columns
    else some (if name = literal "DOUBLE_FREE" then .doubleFree else .illFree)
  | [_, n, _, _, p] => some (.malloc (readWord n) (readPointer p))
  | [key, x, _, n, _, _, p] =>
    if key = literal "calloc(" then some (.calloc (readWord x) (readWord n) (readPointer p))
    else some (.realloc (readPointer x) (readWord n) (readPointer p))
  | _ => none

/-- The lines from the line `id` on; a line must be what its call prints, and the last one end. -/
def readLines : UInt32 → List (List UInt8) → Option (List LogLine)
  | _, [] => none
  | _, [rest] => if rest = [] then some [] else none
  | id, s :: next :: rest => do
    let l ← readWords (words (s.drop (numbering id).length))
    if s = numbering id ++ l.text then
      let lines ← readLines (id + 1) (next :: rest)
      some (l :: lines)
    else none

/-- The calls of `mlog` that wrote a text. -/
def readLog (s : List UInt8) : Option (List LogLine) := readLines 1 (s.splitOn 10)

/-! ### The formats -/

namespace LogLine

/-- The pieces of the format. -/
def pieces : LogLine → List Piece
  | start => [.text (literal "Memory tracer started.")]
  | malloc .. => [.conv ⟨false, false, 9⟩ 99, .text (literal " malloc( "), .conv ⟨false, false, 0⟩ 117,
      .text (literal " ) = "), .conv ⟨false, false, 0⟩ 112]
  | calloc .. => [.conv ⟨false, false, 9⟩ 99, .text (literal " calloc( "), .conv ⟨false, false, 0⟩ 117,
      .text (literal " , "), .conv ⟨false, false, 0⟩ 117, .text (literal " ) = "),
      .conv ⟨false, false, 0⟩ 112]
  | realloc .. => [.conv ⟨false, false, 9⟩ 99, .text (literal " realloc( "),
      .conv ⟨false, false, 0⟩ 112, .text (literal " , "), .conv ⟨false, false, 0⟩ 117,
      .text (literal " ) = "), .conv ⟨false, false, 0⟩ 112]
  | free .. => [.conv ⟨false, false, 9⟩ 99, .text (literal " free( "), .conv ⟨false, false, 0⟩ 112,
      .text (literal " )")]
  | doubleFree => [.conv ⟨false, false, 2⟩ 99, .text (literal "  *** DOUBLE_FREE  *** (ignoring)")]
  | illFree => [.conv ⟨false, false, 2⟩ 99, .text (literal "  *** ILLEGAL_FREE *** (ignoring)")]
  | blank => []
  | statistics => [.text (literal "Statistics")]
  | allocatedTotal .. =>
    [.text (literal "  allocated_total      "), .conv ⟨false, false, 0⟩ 117]
  | allocatedAvg .. => [.text (literal "  allocated_avg        "), .conv ⟨false, false, 0⟩ 117]
  | freedTotal .. => [.text (literal "  freed_total          "), .conv ⟨false, false, 0⟩ 117]
  | nonfreed => [.text (literal "Non-deallocated memory blocks")]
  | columns => [.text (literal "  "), .conv ⟨true, false, 16⟩ 115, .text (literal "   "),
      .conv ⟨true, false, 8⟩ 115, .text (literal "   "), .conv ⟨true, false, 7⟩ 115]
  | block .. => [.text (literal "  "), .conv ⟨true, false, 16⟩ 112, .text (literal "   "),
      .conv ⟨true, false, 8⟩ 100, .text (literal "   "), .conv ⟨true, false, 7⟩ 100]
  | stop => [.text (literal "Memory tracer stopped.")]

theorem parse_format (l : LogLine) : parseFormat l.format.1 = l.pieces := by
  cases l <;> simp only [format, pieces] <;> decide

theorem text_eq (l : LogLine) : l.text = render l.pieces l.format.2 := by
  rw [text, printf, parse_format]

theorem spaced (l : LogLine) : Spaced l.pieces = true := by
  cases l <;> simp only [pieces] <;> decide

/-- No format has a newline. -/
theorem lacks_newline (l : LogLine) : Lacks 10 l.pieces = true := by
  cases l <;> simp only [pieces] <;> decide

theorem words_text (l : LogLine) : words l.text = wordsOf l.pieces l.format.2 := by
  rw [text_eq]
  exact words_render l.spaced l.format.2

end LogLine

theorem readWord_printNat (n : UInt64) : readWord (printNat n.toNat) = n := by
  have hread : readNat (printNat n.toNat ++ []) = n.toNat := readNat_printNat n.toNat (by simp)
  rw [List.append_nil] at hread
  rw [readWord, hread, UInt64.ofNat_toNat]

/-- A pointer starts with a digit or an opening bracket. -/
theorem printPointer_head (p : ℕ) : (printPointer p).head? = some 40 ∨ (printPointer p).head? = some 48 := by
  rw [printPointer]
  split
  · exact Or.inl rfl
  · exact Or.inr rfl

theorem printPointer_ne {w : List UInt8} (p : ℕ) (h40 : w.head? ≠ some 40) (h48 : w.head? ≠ some 48) :
    printPointer p ≠ w := by
  intro h
  rcases printPointer_head p with hp | hp
  · exact h40 (h ▸ hp)
  · exact h48 (h ▸ hp)

/-- **The words of a line tell which call it was.** -/
theorem readWords_text (l : LogLine) : readWords (words l.text) = some l := by
  rw [l.words_text]
  cases l with
  | start | doubleFree | illFree | blank | statistics | nonfreed | columns | stop => rfl
  | malloc size res =>
    show some (LogLine.malloc (readWord (printNat size.toNat)) (readPointer (printPointer res))) = _
    rw [readWord_printNat, readPointer_printPointer]
  | calloc nmemb size res =>
    show some (LogLine.calloc (readWord (printNat nmemb.toNat)) (readWord (printNat size.toNat))
      (readPointer (printPointer res))) = _
    rw [readWord_printNat, readWord_printNat, readPointer_printPointer]
  | realloc ptr size res =>
    show some (LogLine.realloc (readPointer (printPointer ptr)) (readWord (printNat size.toNat))
      (readPointer (printPointer res))) = _
    rw [readWord_printNat, readPointer_printPointer, readPointer_printPointer]
  | free ptr =>
    show some (LogLine.free (readPointer (printPointer ptr))) = _
    rw [readPointer_printPointer]
  | allocatedTotal n =>
    show some (LogLine.allocatedTotal (readWord (printNat n.toNat))) = _
    rw [readWord_printNat]
  | allocatedAvg n =>
    show some (LogLine.allocatedAvg (readWord (printNat n.toNat))) = _
    rw [readWord_printNat]
  | freedTotal n =>
    show some (LogLine.freedTotal (readWord (printNat n.toNat))) = _
    rw [readWord_printNat]
  | block ptr size cnt =>
    -- the words of a block are its values alone
    show readWords [printPointer ptr, printInt size.toInt64.toInt, printInt cnt] = _
    have hmemory : printPointer ptr ≠ literal "Memory" := printPointer_ne ptr (by decide) (by decide)
    have hnon : printPointer ptr ≠ literal "Non-deallocated" :=
      printPointer_ne ptr (by decide) (by decide)
    have hfree : printPointer ptr ≠ literal "free(" := printPointer_ne ptr (by decide) (by decide)
    rw [readWords, if_neg hmemory, if_neg hnon, if_neg hfree, readPointer_printPointer,
      readSigned_printSigned, scanInt_printInt, Option.getD_some]

/-! ### Lines -/

theorem newline_notMem_numbering (id : UInt32) : (10 : UInt8) ∉ numbering id := by
  have hpieces : parseFormat "[%04u] " =
      [.text (literal "["), .conv ⟨false, true, 4⟩ 117, .text (literal "] ")] := by decide
  rw [numbering, printf, hpieces]
  exact notMem_render (by decide) (List.forall_mem_singleton.mpr trivial) rfl (by decide)

theorem LogLine.newline_notMem_text (l : LogLine) : (10 : UInt8) ∉ l.text := by
  have hargs : ∀ arg ∈ l.format.2, arg.Lacks 10 := by
    cases l with
    | columns =>
      show ∀ arg ∈ ([_, _, _] : List Arg), arg.Lacks 10
      rw [List.forall_mem_cons, List.forall_mem_cons, List.forall_mem_singleton]
      refine ⟨?_, ?_, ?_⟩
      all_goals
        rw [Arg.Lacks]
        decide
    | _ => simp [format, Arg.Lacks]
  rw [text_eq]
  exact notMem_render l.lacks_newline hargs rfl (by decide)

/-- The lines of a text that was written. -/
theorem splitOn_textFrom (id : UInt32) (l : LogLine) (lines : List LogLine) :
    (textFrom id (l :: lines)).splitOn 10 =
      (numbering id ++ l.text) :: (textFrom (id + 1) lines).splitOn 10 := by
  refine List.splitOn_append_cons_self_of_not_mem ?_ _
  rw [List.mem_append, not_or]
  exact ⟨newline_notMem_numbering id, l.newline_notMem_text⟩

theorem readLines_textFrom (id : UInt32) (lines : List LogLine) :
    readLines id ((textFrom id lines).splitOn 10) = some lines := by
  induction lines generalizing id with
  | nil => rfl
  | cons l lines ih =>
    rw [splitOn_textFrom]
    have hnext := ih (id + 1)
    cases hs : (textFrom (id + 1) lines).splitOn 10 with
    | nil => exact absurd hs (List.splitOn_ne_nil _ _)
    | cons next rest =>
      rw [hs] at hnext
      simp only [readLines, List.drop_left, readWords_text, hnext, Option.bind_eq_bind,
        Option.bind_some, if_true]

/-- A text whose lines are read is the text of what is read. -/
theorem intercalate_of_readLines {id : UInt32} {strings : List (List UInt8)}
    {lines : List LogLine} (h : readLines id strings = some lines) :
    [10].intercalate strings = textFrom id lines := by
  induction strings generalizing id lines with
  | nil => cases h
  | cons s strings ih =>
    cases strings with
    | nil =>
      rw [readLines] at h
      split at h
      · next hs =>
        cases h
        rw [hs]
        rfl
      · cases h
    | cons next rest =>
      simp only [readLines, Option.bind_eq_bind, Option.bind_eq_some_iff] at h
      obtain ⟨l, -, h⟩ := h
      split at h
      · next hs =>
        obtain ⟨tail, htail, he⟩ := Option.bind_eq_some_iff.mp h
        cases he
        rw [List.intercalate_cons_cons, ih htail, hs]
        simp only [textFrom, List.append_assoc, List.singleton_append]
      · cases h

/-- **The log is read back.**  Whatever is written to `stderr`, the reader returns a list of calls of
`mlog` if and only if these calls, from a program's first on, write exactly this. -/
theorem readLog_eq_some_iff (s : List UInt8) (lines : List LogLine) :
    readLog s = some lines ↔ s = logText lines := by
  rw [logText_eq]
  constructor
  · intro h
    rw [← intercalate_of_readLines h, List.intercalate_splitOn]
  · intro h
    rw [h]
    exact readLines_textFrom 1 lines

end SystemProgramming.LinkLab
