import SystemProgramming.Library.CString

/-!
# Splitting a command line (`parseline` in `tsh.c`)

`parseline` copies the command line into a static array and splits it there: it overwrites the
delimiter behind each argument with a NUL and stores pointers into the array.  A pointer is an offset.
`argv` has `MAXARGS` slots, and an argument that finds none left is stored out of bounds.

* `parseline` : the function, on the array and the command line.
* `Word`, `commandLine` : command lines of bare and quoted words with any spacing.
* `Arguments` : the arguments of any text, and `parseArgs_arguments` : the loop, from any place on.
* `parseline_render` : splitting a printed command line gives back its words.
-/

namespace SystemProgramming.ShellLab

open CString (strAt strAt_append)
open Segments

/-! ### The function -/

/-- `MAXLINE`. -/
def maxLine : ℕ := 1024

/-- `MAXARGS`. -/
def maxArgs : ℕ := 128

/-- `*p`. -/
def charAt (array : List UInt8) (p : ℕ) : UInt8 := array.getD p 0

/-- `strchr(p, c)`. -/
def strchr (array : List UInt8) (p : ℕ) (c : UInt8) : Option ℕ :=
  if c ∈ strAt array p then some (p + ((strAt array p).takeWhile (· ≠ c)).length) else none

/-- `while (*buf && (*buf == ' ')) buf++`. -/
def skipSpaces (array : List UInt8) (buf : ℕ) : ℕ :=
  buf + ((strAt array buf).takeWhile (· = 32)).length

/-- `buf` and `delim` for the argument that starts at `buf`; a quote is stepped over. -/
def findDelim (array : List UInt8) (buf : ℕ) : ℕ × Option ℕ :=
  if charAt array buf = 39 then (buf + 1, strchr array (buf + 1) 39) else (buf, strchr array buf 32)

/-- The loop with that many slots of `argv` left: the array and the pointers stored before the `NULL`;
`none` when a store lies outside `argv`. -/
def parseArgs : ℕ → List UInt8 → ℕ × Option ℕ → Option (List UInt8 × List ℕ)
  | 0, _, _ => none
  | _ + 1, array, (_, none) => some (array, [])
  | slots + 1, array, (buf, some delim) =>
    let array := array.set delim 0
    (parseArgs slots array (findDelim array (skipSpaces array (delim + 1)))).map fun r =>
      (r.1, buf :: r.2)

/-- The test for a background job, with the return value. -/
def testBackground (array : List UInt8) (argv : List ℕ) : List ℕ × ℕ :=
  match argv.getLast? with
  | none => (argv, 1)
  | some last => if charAt array last = 38 then (argv.dropLast, 1) else (argv, 0)

/-- `parseline`, on what the static array holds: the array, the pointers in `argv` before its first
`NULL`, and the return value.  `none` when something is stored out of bounds. -/
def parseline (array cmdline : List UInt8) : Option (List UInt8 × List ℕ × ℕ) :=
  if cmdline = [] ∨ maxLine ≤ cmdline.length then none
  else
    let array := cmdline ++ 0 :: array.drop (cmdline.length + 1)
    let array := array.set (cmdline.length - 1) 32
    (parseArgs maxArgs array (findDelim array (skipSpaces array 0))).map fun r =>
      (r.1, testBackground r.1 r.2)

/-! ### Command lines -/

/-- A word of a command line: bare, or between single quotes. -/
inductive Word
  | bare (text : List UInt8) (ne : text ≠ []) (space : (32 : UInt8) ∉ text)
    (quote : text.head? ≠ some 39) (nul : (0 : UInt8) ∉ text)
  | quoted (text : List UInt8) (quote : (39 : UInt8) ∉ text) (nul : (0 : UInt8) ∉ text)

namespace Word

/-- The argument that the word stands for. -/
def text : Word → List UInt8
  | bare text _ _ _ _ => text
  | quoted text _ _ => text

/-- The word as it is typed. -/
def render : Word → List UInt8
  | bare text _ _ _ _ => text
  | quoted text _ _ => 39 :: (text ++ [39])

/-- What stands before the argument. -/
def opening : Word → List UInt8
  | bare _ _ _ _ _ => []
  | quoted _ _ _ => [39]

/-- The delimiter behind it. -/
def closing : Word → UInt8
  | bare _ _ _ _ _ => 32
  | quoted _ _ _ => 39

/-- The spaces behind the delimiter, when `n + 1` follow the word. -/
def gap : Word → ℕ → List UInt8
  | bare _ _ _ _ _, n => List.replicate n 32
  | quoted _ _ _, n => List.replicate (n + 1) 32

theorem nul_notMem (w : Word) : (0 : UInt8) ∉ w.text := by
  cases w with
  | bare _ _ _ _ nul => exact nul
  | quoted _ _ nul => exact nul

theorem render_spaces (w : Word) (n : ℕ) :
    w.render ++ List.replicate (n + 1) 32 = w.opening ++ (w.text ++ w.closing :: w.gap n) := by
  cases w with
  | bare => rfl
  | quoted =>
    simp only [render, opening, text, closing, gap, List.cons_append, List.append_assoc,
      List.nil_append]

/-- No word starts with a space. -/
theorem head_ne_space (w : Word) (rest : List UInt8) :
    (w.opening ++ (w.text ++ rest)).head? ≠ some 32 := by
  cases w with
  | quoted =>
    show some (39 : UInt8) ≠ some 32
    decide
  | bare text ne space =>
    cases text with
    | nil => exact absurd rfl ne
    | cons c text =>
      intro h
      obtain rfl : c = 32 := Option.some.inj h
      exact space List.mem_cons_self

end Word

/-- Words, each with the number of spaces that follow it beyond those that must. -/
abbrev Words := List (Word × ℕ)

/-- The words as they are typed, at least one space between two of them. -/
def renderWords : Words → List UInt8
  | [] => []
  | [(w, n)] => w.render ++ List.replicate n 32
  | (w, n) :: v :: ws => w.render ++ List.replicate (n + 1) 32 ++ renderWords (v :: ws)

/-- A command line of these words behind `lead` spaces. -/
def commandLine (lead : ℕ) (ws : Words) : List UInt8 :=
  List.replicate lead 32 ++ renderWords ws ++ [10]

/-- The arguments. -/
def Words.texts (ws : Words) : List (List UInt8) := ws.map fun x => x.1.text

/-- The words, each with a space or more behind it. -/
def spaced : Words → List UInt8
  | [] => []
  | (w, n) :: ws => w.opening ++ (w.text ++ w.closing :: (w.gap n ++ spaced ws))

/-- With a space in place of the newline every word has a space behind it. -/
theorem renderWords_space {ws : Words} (hne : ws ≠ []) : renderWords ws ++ [32] = spaced ws := by
  induction ws with
  | nil => exact absurd rfl hne
  | cons x ws ih =>
    obtain ⟨w, n⟩ := x
    cases ws with
    | nil =>
      have hspaces : List.replicate n (32 : UInt8) ++ [32] = List.replicate (n + 1) 32 :=
        List.replicate_succ'.symm
      rw [renderWords, List.append_assoc, hspaces, w.render_spaces, spaced, spaced, List.append_nil]
    | cons v ws =>
      rw [renderWords, List.append_assoc, ih (List.cons_ne_nil _ _), w.render_spaces]
      simp only [spaced, List.append_assoc, List.cons_append]

/-! ### The array -/

section Array

variable {pre s rest : List UInt8}

theorem charAt_eq (array : List UInt8) (p : ℕ) : charAt array p = (strAt array p).headD 0 :=
  getD_eq_headD_segment (fun _ _ h => by simpa using h) p

theorem strchr_append (pre rest : List UInt8) {c : UInt8} (hs : (0 : UInt8) ∉ s) (hc : c ∉ s) (hc0 : c ≠ 0) :
    strchr (pre ++ (s ++ c :: rest)) pre.length c = some (pre.length + s.length) := by
  have hstr : strAt (pre ++ (s ++ c :: rest)) pre.length = s ++ c :: rest.takeWhile (· ≠ 0) := by
    rw [strAt, segment_append, List.takeWhile_append_of_pos (decide_ne_of_notMem hs),
      List.takeWhile_cons_of_pos (by simpa using hc0)]
  rw [strchr, hstr, if_pos (by simp), takeWhile_ne_append hc]

theorem skipSpaces_append (pre : List UInt8) {gap : List UInt8} (hgap : ∀ c ∈ gap, c = 32)
    (hrest : rest.head? ≠ some 32) :
    skipSpaces (pre ++ (gap ++ rest)) pre.length = (pre ++ gap).length := by
  have hpass : ∀ c ∈ gap, decide (c ≠ 0) = true := fun c hc => by
    rw [hgap c hc]
    rfl
  have hstop : (rest.takeWhile (· ≠ 0)).takeWhile (· = 32) = [] := by
    cases rest with
    | nil => rfl
    | cons c rest =>
      have hc : c ≠ 32 := fun he => hrest (by rw [he]; rfl)
      rw [List.takeWhile_cons]
      split
      · exact List.takeWhile_cons_of_neg (by simpa using hc)
      · rfl
  rw [skipSpaces, strAt, segment_append, List.takeWhile_append_of_pos hpass,
    List.takeWhile_append_of_pos (by simpa using hgap), hstop, List.append_nil, List.length_append]

/-- At the end of the words there is no delimiter. -/
theorem findDelim_end (pre junk : List UInt8) :
    findDelim (pre ++ 0 :: junk) pre.length = (pre.length, none) := by
  have hstr : strAt (pre ++ 0 :: junk) pre.length = [] := strAt_append (s := []) pre List.not_mem_nil junk
  rw [findDelim, charAt_eq, hstr, if_neg (by decide), strchr, hstr, if_neg List.not_mem_nil]

/-- Nor is there one behind an opening quote that is never closed. -/
theorem findDelim_unclosed (quote : (39 : UInt8) ∉ s) (nul : (0 : UInt8) ∉ s) (pre junk : List UInt8) :
    findDelim (pre ++ 39 :: (s ++ 0 :: junk)) pre.length = (pre.length + 1, none) := by
  have hquote : charAt (pre ++ 39 :: (s ++ 0 :: junk)) pre.length = 39 := by
    simp [charAt]
  have hlen : pre.length + 1 = (pre ++ [39]).length := by
    rw [List.length_append, List.length_singleton]
  rw [findDelim, if_pos hquote, List.append_cons, hlen, strchr, strAt_append _ nul, if_neg quote]

/-- **The delimiter of a word.** -/
theorem findDelim_word (w : Word) (pre rest : List UInt8) :
    findDelim (pre ++ (w.opening ++ (w.text ++ w.closing :: rest))) pre.length =
      ((pre ++ w.opening).length, some ((pre ++ w.opening).length + w.text.length)) := by
  cases w with
  | bare text ne space quote nul =>
    have hne : charAt (pre ++ (text ++ 32 :: rest)) pre.length ≠ 39 := by
      cases text with
      | nil => exact absurd rfl ne
      | cons c text =>
        have hc : c ≠ 39 := fun he => quote (by rw [he]; rfl)
        simpa [charAt] using hc
    have hdelim := strchr_append pre rest nul space (by decide)
    simp only [Word.opening, Word.text, Word.closing, List.nil_append, List.append_nil]
    rw [findDelim, if_neg hne, hdelim]
  | quoted text quote nul =>
    have hquote : charAt (pre ++ ([39] ++ (text ++ 39 :: rest))) pre.length = 39 := by
      simp [charAt]
    have hdelim := strchr_append (pre ++ [39]) rest nul quote (by decide)
    simp only [Word.opening, Word.text, Word.closing]
    have hlen : pre.length + 1 = (pre ++ [39]).length := by simp
    rw [findDelim, if_pos hquote, ← List.append_assoc, hlen, hdelim]

end Array

/-! ### The loop -/

/-- The arguments of a text in front of a NUL.  Spaces stand before each; one between quotes needs none
behind it, and an opening quote without a closing one ends the arguments. -/
inductive Arguments : List UInt8 → List (List UInt8) → Prop
  | spaces (n : ℕ) : Arguments (List.replicate n 32) []
  | unclosed (n : ℕ) {text : List UInt8} (quote : (39 : UInt8) ∉ text) (nul : (0 : UInt8) ∉ text) :
      Arguments (List.replicate n 32 ++ 39 :: text) []
  | word (n : ℕ) (w : Word) {rest : List UInt8} {args : List (List UInt8)} (h : Arguments rest args) :
      Arguments (List.replicate n 32 ++ (w.opening ++ (w.text ++ w.closing :: rest))) (w.text :: args)

theorem Arguments.of_cons {rest : List UInt8} {args : List (List UInt8)} (h : Arguments rest args)
    (n : ℕ) : Arguments (List.replicate n 32 ++ rest) args := by
  have hspaces : ∀ m, List.replicate n (32 : UInt8) ++ List.replicate m 32 =
      List.replicate (n + m) 32 := fun m => List.replicate_append_replicate
  cases h with
  | spaces m =>
    rw [hspaces]
    exact spaces (n + m)
  | unclosed m quote nul =>
    rw [← List.append_assoc, hspaces]
    exact unclosed (n + m) quote nul
  | word m w h =>
    rw [← List.append_assoc, hspaces]
    exact word (n + m) w h

/-- The arguments of words with any spacing. -/
theorem arguments_spaced (ws : Words) : Arguments (spaced ws) ws.texts := by
  induction ws with
  | nil => exact Arguments.spaces 0
  | cons x ws ih =>
    obtain ⟨w, n⟩ := x
    have hgap : ∃ m, w.gap n = List.replicate m 32 := by
      cases w with
      | bare => exact ⟨n, rfl⟩
      | quoted => exact ⟨n + 1, rfl⟩
    obtain ⟨m, hm⟩ := hgap
    rw [spaced, hm]
    exact Arguments.word 0 w (ih.of_cons m)

/-- `buf` and `delim` for the first argument behind `p`. -/
def nextDelim (array : List UInt8) (p : ℕ) : ℕ × Option ℕ := findDelim array (skipSpaces array p)

theorem nextDelim_append (pre rest : List UInt8) (n : ℕ) (h : rest.head? ≠ some 32) :
    nextDelim (pre ++ (List.replicate n 32 ++ rest)) pre.length =
      findDelim ((pre ++ List.replicate n 32) ++ rest) (pre ++ List.replicate n 32).length := by
  have hgap : ∀ c ∈ List.replicate n (32 : UInt8), c = 32 := fun c hc => (List.mem_replicate.mp hc).2
  rw [nextDelim, skipSpaces_append pre hgap h, List.append_assoc]

/-- The array up to behind the NUL that ends the argument `w`. -/
def cutWord (pre : List UInt8) (n : ℕ) (w : Word) : List UInt8 :=
  pre ++ (List.replicate n 32 ++ (w.opening ++ (w.text ++ [0])))

/-- **One turn of the loop.**  It ends the argument with a NUL, stores a pointer to it, and goes on
behind it. -/
theorem parseArgs_word (slots n : ℕ) (w : Word) (pre rest : List UInt8) :
    parseArgs (slots + 1) (pre ++ (List.replicate n 32 ++ (w.opening ++ (w.text ++ w.closing :: rest))))
        (nextDelim (pre ++ (List.replicate n 32 ++ (w.opening ++ (w.text ++ w.closing :: rest))))
          pre.length) =
      (parseArgs slots (cutWord pre n w ++ rest)
        (nextDelim (cutWord pre n w ++ rest) (cutWord pre n w).length)).map fun r =>
          (r.1, ((pre ++ List.replicate n 32) ++ w.opening).length :: r.2) := by
  -- the array before and after the NUL is written
  have hset : ((pre ++ List.replicate n 32) ++ (w.opening ++ (w.text ++ w.closing :: rest))).set
      (((pre ++ List.replicate n 32) ++ w.opening).length + w.text.length) 0 =
        cutWord pre n w ++ rest := by
    have hassoc : ∀ c : UInt8, (pre ++ List.replicate n 32) ++ (w.opening ++ (w.text ++ c :: rest)) =
        (((pre ++ List.replicate n 32) ++ w.opening) ++ w.text) ++ c :: rest := fun c => by
      simp only [List.append_assoc]
    rw [hassoc, ← List.length_append, List.set_append_right _ _ le_rfl, Nat.sub_self,
      List.set_cons_zero, cutWord]
    simp only [List.append_assoc, List.cons_append, List.nil_append]
  have hlen : ((pre ++ List.replicate n 32) ++ w.opening).length + w.text.length + 1 =
      (cutWord pre n w).length := by
    simp only [cutWord, List.length_append, List.length_singleton]
    omega
  rw [nextDelim_append pre _ n (w.head_ne_space _), findDelim_word, parseArgs, ← List.append_assoc,
    hset, hlen]
  rfl

/-- At the end of the arguments the loop stops, and the pointer behind them is stored. -/
theorem parseArgs_spaces (slots n : ℕ) (pre junk : List UInt8) :
    parseArgs (slots + 1) (pre ++ (List.replicate n 32 ++ 0 :: junk))
        (nextDelim (pre ++ (List.replicate n 32 ++ 0 :: junk)) pre.length) =
      some (pre ++ (List.replicate n 32 ++ 0 :: junk), []) := by
  have hstop : (0 :: junk).head? ≠ some 32 := by
    show some (0 : UInt8) ≠ some 32
    decide
  rw [nextDelim_append pre _ n hstop, findDelim_end]
  rfl

theorem parseArgs_unclosed (slots n : ℕ) {text : List UInt8} (quote : (39 : UInt8) ∉ text)
    (nul : (0 : UInt8) ∉ text) (pre junk : List UInt8) :
    parseArgs (slots + 1) (pre ++ (List.replicate n 32 ++ 39 :: (text ++ 0 :: junk)))
        (nextDelim (pre ++ (List.replicate n 32 ++ 39 :: (text ++ 0 :: junk))) pre.length) =
      some (pre ++ (List.replicate n 32 ++ 39 :: (text ++ 0 :: junk)), []) := by
  have hstop : (39 :: (text ++ 0 :: junk)).head? ≠ some 32 := by
    show some (39 : UInt8) ≠ some 32
    decide
  rw [nextDelim_append pre _ n hstop, findDelim_unclosed quote nul]
  rfl

/-- **The loop**, from any place on: it writes nothing before that place, and the pointers it stores are
to the arguments that are left. -/
theorem parseArgs_arguments {text : List UInt8} {args : List (List UInt8)} (h : Arguments text args)
    {slots : ℕ} (hslots : args.length < slots) (pre junk : List UInt8) :
    ∃ post argv, parseArgs slots (pre ++ (text ++ 0 :: junk))
        (nextDelim (pre ++ (text ++ 0 :: junk)) pre.length) = some (pre ++ post, argv) ∧
      argv.map (strAt (pre ++ post)) = args := by
  induction h generalizing slots pre with
  | spaces n =>
    cases slots with
    | zero => cases hslots
    | succ slots => exact ⟨_, [], parseArgs_spaces slots n pre junk, rfl⟩
  | @unclosed n text quote nul =>
    cases slots with
    | zero => cases hslots
    | succ slots =>
      rw [List.append_assoc]
      exact ⟨_, [], parseArgs_unclosed slots n quote nul pre junk, rfl⟩
  | @word n w rest args h ih =>
    cases slots with
    | zero => cases hslots
    | succ slots =>
      obtain ⟨post, argv, hgo, hargv⟩ := ih (Nat.lt_of_succ_lt_succ hslots) (cutWord pre n w)
      have hpost : pre ++ (List.replicate n 32 ++ (w.opening ++ (w.text ++ 0 :: post))) =
          cutWord pre n w ++ post := by
        simp only [cutWord, List.append_assoc, List.cons_append, List.nil_append]
      have hthis : strAt (cutWord pre n w ++ post)
          ((pre ++ List.replicate n 32) ++ w.opening).length = w.text := by
        rw [← hpost, ← List.append_assoc, ← List.append_assoc]
        exact strAt_append _ w.nul_notMem _
      refine ⟨List.replicate n 32 ++ (w.opening ++ (w.text ++ 0 :: post)),
        ((pre ++ List.replicate n 32) ++ w.opening).length :: argv, ?_, ?_⟩
      · have hword := parseArgs_word slots n w pre (rest ++ 0 :: junk)
        rw [hgo] at hword
        simp only [List.append_assoc, List.cons_append]
        simp only [List.append_assoc] at hword
        rw [hword, hpost]
        simp
      · rw [hpost, List.map_cons, hthis, hargv]

/-- With more arguments than slots, one or the `NULL` behind them is stored out of bounds. -/
theorem parseArgs_of_tooMany {text : List UInt8} {args : List (List UInt8)} (h : Arguments text args)
    {slots : ℕ} (hslots : slots ≤ args.length) (pre junk : List UInt8) :
    parseArgs slots (pre ++ (text ++ 0 :: junk))
      (nextDelim (pre ++ (text ++ 0 :: junk)) pre.length) = none := by
  induction h generalizing slots pre with
  | spaces | unclosed =>
    obtain rfl : slots = 0 := Nat.le_zero.mp hslots
    rfl
  | @word n w rest args h ih =>
    cases slots with
    | zero => rfl
    | succ slots =>
      have hword := parseArgs_word slots n w pre (rest ++ 0 :: junk)
      rw [ih (Nat.le_of_succ_le_succ hslots)] at hword
      simp only [List.append_assoc, List.cons_append]
      simp only [List.append_assoc] at hword
      exact hword

/-- A line with its newline replaced, as the loop reads it. -/
def typed (cmdline : List UInt8) : List UInt8 := cmdline.dropLast ++ [32]

/-- The array when the loop is entered. -/
theorem splitting_starts {cmdline : List UInt8} (hne : cmdline ≠ []) (junk : List UInt8) :
    (cmdline ++ 0 :: junk).set (cmdline.length - 1) 32 = typed cmdline ++ 0 :: junk := by
  have hlen : cmdline.length - 1 = cmdline.dropLast.length := List.length_dropLast.symm
  have hsplit : cmdline ++ 0 :: junk = cmdline.dropLast ++ cmdline.getLast hne :: 0 :: junk := by
    rw [List.append_cons cmdline.dropLast, List.dropLast_concat_getLast]
  rw [hlen, hsplit, List.set_append_right _ _ le_rfl, Nat.sub_self, List.set_cons_zero, typed,
    List.append_assoc]
  rfl

/-- **The arguments**, before the test for a background job. -/
theorem parseline_arguments (array : List UInt8) {cmdline : List UInt8} {args : List (List UInt8)}
    (hne : cmdline ≠ []) (hlen : cmdline.length < maxLine) (h : Arguments (typed cmdline) args)
    (hslots : args.length < maxArgs) :
    ∃ array' argv, parseline array cmdline = some (array', testBackground array' argv) ∧
      argv.map (strAt array') = args := by
  obtain ⟨post, argv, hgo, hargv⟩ := parseArgs_arguments h hslots []
    (array.drop (cmdline.length + 1))
  refine ⟨post, argv, ?_, hargv⟩
  have hin : ¬ (cmdline = [] ∨ maxLine ≤ cmdline.length) := by
    rw [not_or, Nat.not_le]
    exact ⟨hne, hlen⟩
  rw [parseline, if_neg hin]
  dsimp only
  rw [splitting_starts hne]
  exact congrArg (Option.map fun r => (r.1, testBackground r.1 r.2)) hgo

theorem parseline_of_tooMany (array : List UInt8) {cmdline : List UInt8} {args : List (List UInt8)}
    (h : Arguments (typed cmdline) args) (hslots : maxArgs ≤ args.length) :
    parseline array cmdline = none := by
  by_cases hin : cmdline = [] ∨ maxLine ≤ cmdline.length
  · rw [parseline, if_pos hin]
  · rw [parseline, if_neg hin]
    dsimp only
    rw [splitting_starts (not_or.mp hin).1]
    exact congrArg (Option.map fun r => (r.1, testBackground r.1 r.2))
      (parseArgs_of_tooMany h hslots [] _)

theorem typed_commandLine (lead : ℕ) {ws : Words} (hne : ws ≠ []) :
    typed (commandLine lead ws) = List.replicate lead 32 ++ spaced ws := by
  rw [typed, commandLine, List.dropLast_concat, List.append_assoc, renderWords_space hne]

theorem parseline_words (array : List UInt8) (lead : ℕ) {ws : Words} (hne : ws ≠ [])
    (hslots : ws.length < maxArgs) (hlen : (commandLine lead ws).length < maxLine) :
    ∃ array' argv, parseline array (commandLine lead ws) =
        some (array', testBackground array' argv) ∧ argv.map (strAt array') = ws.texts := by
  have hargs : Arguments (typed (commandLine lead ws)) ws.texts := by
    rw [typed_commandLine lead hne]
    exact (arguments_spaced ws).of_cons lead
  refine parseline_arguments array ?_ hlen hargs ?_
  · exact List.append_ne_nil_of_right_ne_nil _ (List.cons_ne_nil _ _)
  · rwa [Words.texts, List.length_map]

/-- The test reads the first character of the last argument. -/
theorem testBackground_of_last {array : List UInt8} {argv : List ℕ} {texts : List (List UInt8)}
    {last : List UInt8} (hargv : argv.map (strAt array) = texts ++ [last]) :
    testBackground array argv = if last.head? = some 38 then (argv.dropLast, 1) else (argv, 0) := by
  obtain ⟨init, final, rfl, hinit, hfinal⟩ := List.map_eq_append_iff.mp hargv
  obtain ⟨p, rfl⟩ : ∃ p, final = [p] := by
    cases final with
    | nil => cases hfinal
    | cons p l =>
      cases l with
      | nil => exact ⟨p, rfl⟩
      | cons q l => cases hfinal
  have hlast : strAt array p = last := (List.cons.inj hfinal).1
  have hchar : charAt array p = 38 ↔ last.head? = some 38 := by
    rw [charAt_eq, hlast]
    cases last with
    | nil => exact ⟨fun h => absurd h (by decide), nofun⟩
    | cons c last => simp
  rw [testBackground, List.getLast?_concat]
  simp only [hchar]

/-- The word `&`. -/
def ampersand : Word := .bare [38] (by decide) (by decide) (by decide) (by decide)

/-- **Splitting undoes printing.**  For any words, fewer than `MAXARGS - 1`, with any spacing, on a line
shorter than `MAXLINE`, `argv` holds pointers to exactly the arguments and the job runs in the
foreground, unless the last argument starts with `&`.  With a final word `&` added, `argv` is the same
and the job runs in the background. -/
theorem parseline_render (array : List UInt8) (lead : ℕ) (ws : Words) (hne : ws ≠ [])
    (hargs : ws.length < maxArgs - 1) :
    ((commandLine lead ws).length < maxLine → (ws.getLast hne).1.text.head? ≠ some 38 →
      ∃ array' argv, parseline array (commandLine lead ws) = some (array', argv, 0) ∧
        argv.map (strAt array') = ws.texts) ∧
    ∀ n, (commandLine lead (ws ++ [(ampersand, n)])).length < maxLine →
      ∃ array' argv, parseline array (commandLine lead (ws ++ [(ampersand, n)])) =
          some (array', argv, 1) ∧ argv.map (strAt array') = ws.texts := by
  have hmax : maxArgs = 128 := rfl
  constructor
  · intro hlen hlast
    obtain ⟨array', argv, hparse, hargv⟩ := parseline_words array lead hne (by omega) hlen
    have htexts : ws.texts = Words.texts ws.dropLast ++ [(ws.getLast hne).1.text] := by
      rw [Words.texts, Words.texts, ← List.map_singleton (f := fun x : Word × ℕ => x.1.text),
        ← List.map_append, List.dropLast_concat_getLast]
    have htest := testBackground_of_last (hargv.trans htexts)
    rw [if_neg hlast] at htest
    exact ⟨array', argv, by rw [hparse, htest], hargv⟩
  · intro n hlen
    have hadded : (ws ++ [(ampersand, n)]).length < maxArgs := by
      rw [List.length_append, List.length_singleton]
      omega
    obtain ⟨array', argv, hparse, hargv⟩ := parseline_words array lead
      (List.append_ne_nil_of_left_ne_nil hne _) hadded hlen
    have htexts : Words.texts (ws ++ [(ampersand, n)]) = ws.texts ++ [[38]] := List.map_append
    rw [htexts] at hargv
    have htest := testBackground_of_last hargv
    have hamp : ([38] : List UInt8).head? = some 38 := rfl
    rw [if_pos hamp] at htest
    refine ⟨array', argv.dropLast, by rw [hparse, htest], ?_⟩
    rw [List.map_dropLast, hargv, List.dropLast_concat]

/-- `echo '' 'a b'` behind a space, with two spaces between the first words. -/
theorem parseline_render_echo : ∃ array' argv,
    parseline [] [32, 101, 99, 104, 111, 32, 32, 39, 39, 32, 39, 97, 32, 98, 39, 10] =
        some (array', argv, 0) ∧
      argv.map (strAt array') = [[101, 99, 104, 111], [], [97, 32, 98]] :=
  (parseline_render [] 1
    [(.bare [101, 99, 104, 111] (by decide) (by decide) (by decide) (by decide), 1),
      (.quoted [] (by decide) (by decide), 0), (.quoted [97, 32, 98] (by decide) (by decide), 0)]
    (by decide) (by decide)).1 (by decide) (by decide)

end SystemProgramming.ShellLab
