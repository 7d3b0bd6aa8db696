import SystemProgramming.ShellLab.CommandLine

/-!
# From the input to a command (`main` and `eval` in `tsh.c`)

`main` reads its input with `fgets` into a buffer of `MAXLINE` bytes and gives each piece to `eval`.  What
the end of the input cuts short is not evaluated, and a longer line is evaluated in pieces.

* `fgets`, `Piece`, `Unended` : reading, and what is read; `fgets_cases`.
* `evalArgv` : `eval`, with the array and the arguments behind it.
* `Evaluates`, `evalArgv_iff` : the command and the arguments that a line stands for.
-/

namespace SystemProgramming.ShellLab

open CString Decimal Segments

variable {array line l rest stdin : List UInt8} {args : List (List UInt8)} {n : ℕ}

/-! ### Reading -/

/-- `fgets` with room for `n` bytes and the NUL: the line, the rest of the input, and `feof`. -/
def fgets : ℕ → List UInt8 → List UInt8 × List UInt8 × Bool
  | 0, stdin => ([], stdin, false)
  | _ + 1, [] => ([], [], true)
  | n + 1, c :: stdin =>
    if c = 10 then ([c], stdin, false) else (c :: (fgets n stdin).1, (fgets n stdin).2)

/-- What `fgets` reads in front of the end of the input: up to the first newline, or as much as there is
room for. -/
def Piece (n : ℕ) (l : List UInt8) : Prop :=
  (10 : UInt8) ∉ l.dropLast ∧ (l.length = n ∨ l.length < n ∧ l.getLast? = some 10)

/-- The end of the input comes first. -/
def Unended (n : ℕ) (l : List UInt8) : Prop :=
  (10 : UInt8) ∉ l ∧ l.length < n

theorem piece_cons {c : UInt8} (hc : c ≠ 10) : Piece (n + 1) (c :: l) ↔ Piece n l := by
  cases l with
  | nil =>
    have hlast : [c].getLast? ≠ some 10 := fun h => hc (Option.some.inj h)
    constructor
    · rintro ⟨-, h | ⟨-, h⟩⟩
      · exact ⟨List.not_mem_nil, Or.inl (Nat.succ.inj h)⟩
      · exact absurd h hlast
    · rintro ⟨-, h | ⟨-, h⟩⟩
      · exact ⟨List.not_mem_nil, Or.inl (congrArg Nat.succ h)⟩
      · cases h
  | cons d l =>
    have hdrop : (10 : UInt8) ∉ (c :: d :: l).dropLast ↔ (10 : UInt8) ∉ (d :: l).dropLast := by
      show (10 : UInt8) ∉ c :: (d :: l).dropLast ↔ _
      rw [List.mem_cons, not_or]
      exact and_iff_right hc.symm
    rw [Piece, Piece, hdrop, List.length_cons, List.getLast?_cons_cons, Nat.succ_inj,
      Nat.succ_lt_succ_iff]

theorem fgets_of_piece (h : Piece n l) (rest : List UInt8) : fgets n (l ++ rest) = (l, rest, false) := by
  induction n generalizing l with
  | zero =>
    obtain ⟨-, hlen | ⟨hlen, -⟩⟩ := h
    · rw [List.eq_nil_of_length_eq_zero hlen]
      rfl
    · exact absurd hlen (Nat.not_lt_zero _)
  | succ n ih =>
    cases l with
    | nil =>
      obtain ⟨-, hlen | ⟨-, hlast⟩⟩ := h
      · cases hlen
      · cases hlast
    | cons c l =>
      rw [List.cons_append, fgets]
      by_cases hc : c = 10
      · rw [if_pos hc]
        cases l with
        | nil => rfl
        | cons d l => exact absurd (by rw [hc]; exact List.mem_cons_self) h.1
      · rw [if_neg hc, ih ((piece_cons hc).mp h)]

theorem fgets_of_unended (h : Unended n l) : fgets n l = (l, [], true) := by
  induction n generalizing l with
  | zero => exact absurd h.2 (Nat.not_lt_zero _)
  | succ n ih =>
    cases l with
    | nil => rfl
    | cons c l =>
      obtain ⟨hnewline, hlen⟩ := h
      have hc : c ≠ 10 := fun hc => hnewline (by rw [hc]; exact List.mem_cons_self)
      have hrest : Unended n l :=
        ⟨fun hmem => hnewline (List.mem_cons_of_mem c hmem), Nat.lt_of_succ_lt_succ hlen⟩
      rw [fgets, if_neg hc, ih hrest]

/-- **One call of `fgets`.** -/
theorem fgets_cases (n : ℕ) (stdin : List UInt8) :
    Unended n stdin ∨ ∃ l rest, stdin = l ++ rest ∧ Piece n l := by
  induction n generalizing stdin with
  | zero => exact Or.inr ⟨[], stdin, rfl, List.not_mem_nil, Or.inl rfl⟩
  | succ n ih =>
    cases stdin with
    | nil => exact Or.inl ⟨List.not_mem_nil, n.succ_pos⟩
    | cons c stdin =>
      by_cases hc : c = 10
      · refine Or.inr ⟨[c], stdin, rfl, List.not_mem_nil, ?_⟩
        rcases Nat.eq_or_lt_of_le (show 1 ≤ n + 1 by omega) with hlen | hlen
        · exact Or.inl hlen
        · exact Or.inr ⟨hlen, by rw [hc]; rfl⟩
      · rcases ih stdin with ⟨hnewline, hlen⟩ | ⟨l, rest, hsplit, hpiece⟩
        · refine Or.inl ⟨fun hmem => ?_, Nat.succ_lt_succ hlen⟩
          rcases List.mem_cons.mp hmem with hnew | hmem
          · exact hc hnew.symm
          · exact hnewline hmem
        · exact Or.inr ⟨c :: l, rest, by rw [hsplit]; rfl, (piece_cons hc).mpr hpiece⟩

theorem fgets_eq_true {stdin line rest : List UInt8} (h : fgets n stdin = (line, rest, true)) :
    Unended n stdin ∧ rest = [] := by
  rcases fgets_cases n stdin with hunended | ⟨l, r, rfl, hpiece⟩
  · rw [fgets_of_unended hunended] at h
    cases h
    exact ⟨hunended, rfl⟩
  · rw [fgets_of_piece hpiece] at h
    cases h

theorem fgets_eq_false {stdin line rest : List UInt8} (h : fgets n stdin = (line, rest, false)) :
    stdin = line ++ rest ∧ Piece n line := by
  rcases fgets_cases n stdin with hunended | ⟨l, r, rfl, hpiece⟩
  · rw [fgets_of_unended hunended] at h
    cases h
  · rw [fgets_of_piece hpiece] at h
    cases h
    exact ⟨rfl, hpiece⟩

theorem Piece.length_le (h : Piece n l) : l.length ≤ n := by
  obtain ⟨-, hlen | ⟨hlen, -⟩⟩ := h
  · exact hlen.le
  · exact hlen.le

/-! ### Evaluating -/

/-- `eval`, up to `fork`: the static array of `parseline` behind it, the command and the arguments. -/
def evalArgv (array line : List UInt8) : Option (List UInt8 × Command × List (List UInt8)) := do
  let (array, argv, bg) ← parseline array (cString line)
  match ← builtinCmd array argv with
  | some cmd => return (array, cmd, argv.map (strAt array))
  | none => return (array, .program (decide (bg ≠ 0)) (lineText line), argv.map (strAt array))

/-- The argument of `bg` or `fg`, as a string. -/
def namedJob : Option (List UInt8) → JobArg
  | none => .missing
  | some id =>
    if id.head? = some 37 then .jid (atoi id.tail)
    else if isDigit (id.headD 0) then .pid (atoi id)
    else .invalid

/-- The command of these arguments. -/
def commandOf (bg : Bool) (cmdline : String) : List (List UInt8) → Command
  | [] => .blank
  | name :: args =>
    if name = quitName then .quit
    else if name = jobsName then .jobs
    else if name = bgName ∨ name = fgName then .bgfg (decide (name ≠ bgName)) (namedJob args[0]?)
    else .program bg cmdline

/-- The arguments without one at the end that starts with `&`, and whether the job is for the
background. -/
def splitBackground (args : List (List UInt8)) : List (List UInt8) × Bool :=
  match args.getLast? with
  | none => (args, true)
  | some last => if last.head? = some 38 then (args.dropLast, true) else (args, false)

/-- What a line with these arguments stands for; `none` when `eval` goes out of bounds. -/
def evaluation (line : List UInt8) (args : List (List UInt8)) :
    Option (Command × List (List UInt8)) :=
  if args.length < maxArgs ∧ (splitBackground args).1 ≠ [] then
    some (commandOf (splitBackground args).2 (lineText line) (splitBackground args).1,
      (splitBackground args).1)
  else none

/-- The line is evaluated to the command and the arguments. -/
def Evaluates (line : List UInt8) (x : Command × List (List UInt8)) : Prop :=
  ∃ args, Arguments (typed (cString line)) args ∧ evaluation line args = some x

theorem jobArg_eq (array : List UInt8) (p : Option ℕ) :
    jobArg array p = namedJob (p.map (strAt array)) := by
  cases p with
  | none => rfl
  | some p =>
    rw [jobArg, Option.map_some, namedJob, charAt_eq]
    cases hstr : strAt array p with
    | nil => rw [if_neg (by decide), if_neg (by decide), if_neg (by decide)]
    | cons c id =>
      have htail : strAt array (p + 1) = id := by
        have hlen : 1 ≤ (strAt array p).length := by
          rw [hstr]
          exact Nat.succ_pos _
        rw [strAt, segment_add hlen]
        show (strAt array p).drop 1 = id
        rw [hstr]
        rfl
      have hpercent : (c :: id).head? = some 37 ↔ c = 37 := by
        rw [List.head?_cons, Option.some.injEq]
      simp only [List.headD_cons, List.tail_cons, hpercent, htail]

/-- `builtin_cmd` depends on the strings in `argv` alone. -/
theorem builtinCmd_eq (array : List UInt8) {argv : List ℕ} (hne : argv ≠ []) (bg : Bool) (cmdline : String) :
    ∃ cmd, builtinCmd array argv = some cmd ∧
      cmd.getD (.program bg cmdline) = commandOf bg cmdline (argv.map (strAt array)) := by
  cases argv with
  | nil => exact absurd rfl hne
  | cons p argv =>
    refine ⟨_, builtinCmd_cons array p argv, ?_⟩
    rw [List.map_cons, commandOf, jobArg_eq, ← List.getElem?_map]
    split_ifs
    · rfl
    · rfl
    · rfl
    · rfl

/-- The test for a background job, on the strings. -/
theorem testBackground_strings {argv : List ℕ} (hargv : argv.map (strAt array) = args) :
    (testBackground array argv).1.map (strAt array) = (splitBackground args).1 ∧
      decide ((testBackground array argv).2 ≠ 0) = (splitBackground args).2 := by
  rcases List.eq_nil_or_concat args with rfl | ⟨texts, last, rfl⟩
  · obtain rfl : argv = [] := List.map_eq_nil_iff.mp hargv
    exact ⟨rfl, rfl⟩
  · rw [List.concat_eq_append] at hargv ⊢
    rw [testBackground_of_last hargv, splitBackground, List.getLast?_concat]
    dsimp only
    split_ifs
    · exact ⟨by rw [List.map_dropLast, hargv], rfl⟩
    · exact ⟨hargv, rfl⟩

theorem evalArgv_of_arguments (array : List UInt8) (hlen : line.length < maxLine)
    (h : Arguments (typed (cString line)) args) :
    (evalArgv array line).map Prod.snd = evaluation line args := by
  by_cases hne : cString line = []
  · have hspace : Arguments (typed (cString line)) [] := by
      rw [hne]
      exact Arguments.spaces 1
    rw [evalArgv, hne, parseline, if_pos (Or.inl rfl), h.unique hspace]
    rfl
  · by_cases hslots : args.length < maxArgs
    · have hshort : (cString line).length < maxLine :=
        Nat.lt_of_le_of_lt (List.takeWhile_prefix _).length_le hlen
      obtain ⟨array', argv, hparse, hargv⟩ := parseline_arguments array hne hshort h hslots
      obtain ⟨hstrings, hbg⟩ := testBackground_strings hargv
      rw [evalArgv, hparse, evaluation]
      show ((builtinCmd array' (testBackground array' argv).1).bind _).map Prod.snd = _
      by_cases hfirst : (testBackground array' argv).1 = []
      · have hnil : (splitBackground args).1 = [] := by rw [← hstrings, hfirst]; rfl
        rw [hfirst, if_neg fun hboth => hboth.2 hnil]
        rfl
      · have hcons : (splitBackground args).1 ≠ [] := by
          rw [← hstrings]
          exact fun hnil => hfirst (List.map_eq_nil_iff.mp hnil)
        obtain ⟨cmd, hcmd, hcommand⟩ :=
          builtinCmd_eq array' hfirst (splitBackground args).2 (lineText line)
        rw [if_pos ⟨hslots, hcons⟩, hcmd, ← hstrings, ← hcommand, ← hbg]
        cases cmd with
        | none => rfl
        | some cmd => rfl
    · rw [evalArgv, parseline_of_tooMany array h (Nat.not_lt.mp hslots), evaluation,
        if_neg fun hboth => hslots hboth.1]
      rfl

theorem exists_lineArguments (line : List UInt8) : ∃ args, Arguments (typed (cString line)) args := by
  refine exists_arguments _ (typed_cString_nul line) fun c hc => ?_
  rw [typed, List.getLast?_concat] at hc
  exact (Option.some.inj hc).symm

/-- **What `eval` makes of a line** does not depend on the array. -/
theorem evalArgv_iff (array : List UInt8) (hlen : line.length < maxLine)
    {x : Command × List (List UInt8)} :
    (evalArgv array line).map Prod.snd = some x ↔ Evaluates line x := by
  obtain ⟨args, hargs⟩ := exists_lineArguments line
  rw [evalArgv_of_arguments array hlen hargs]
  constructor
  · intro h
    exact ⟨args, hargs, h⟩
  · rintro ⟨args', hargs', h⟩
    rw [hargs.unique hargs']
    exact h

theorem Evaluates.unique {x y : Command × List (List UInt8)} (hx : Evaluates line x)
    (hy : Evaluates line y) : x = y := by
  obtain ⟨args, hargs, hx⟩ := hx
  obtain ⟨args', hargs', hy⟩ := hy
  rw [hargs.unique hargs'] at hx
  exact Option.some.inj (hx.symm.trans hy)

/-- The command is that of `evalLine`. -/
theorem evalArgv_command (array line : List UInt8) :
    (evalArgv array line).map (fun r => r.2.1) = evalLine array line := by
  rw [evalArgv, evalLine]
  cases parseline array (cString line) with
  | none => rfl
  | some r =>
    show ((builtinCmd r.1 r.2.1).bind _).map _ = (builtinCmd r.1 r.2.1).bind _
    cases builtinCmd r.1 r.2.1 with
    | none => rfl
    | some cmd =>
      cases cmd with
      | none => rfl
      | some cmd => rfl

end SystemProgramming.ShellLab
