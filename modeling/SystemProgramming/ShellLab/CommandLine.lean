import Mathlib.Algebra.Ring.Int.Defs
import SystemProgramming.Library.Scanning
import SystemProgramming.ShellLab.Parseline
import SystemProgramming.ShellLab.Shell

/-!
# Evaluating a command line (`eval`, `builtin_cmd` and `do_bgfg` in `tsh.c`)

What `parseline` leaves in `argv` is read by `builtin_cmd` and `do_bgfg`.  Neither `parseline` counts
the arguments nor does `eval` look at what it returns, so the shape of the line decides whether all
stores and reads are in bounds.

* `builtinCmd`, `doBgfg`, `evalLine` : the functions, up to the command that the line stands for.
* `Arguments.unique`, `exists_arguments` : every text has exactly one list of arguments.
* `evalLine_isSome_iff` : the lines that the shell evaluates without a fault.
-/

namespace SystemProgramming.ShellLab

open CString Decimal
open Scanning (isspace)

/-! ### The functions -/

/-- `atoi`: the closest `long`, cut to an `int`. -/
def atoi (s : List UInt8) : ℤ :=
  let n : ℤ := match s.dropWhile isspace with
    | 45 :: s => -(readNat s : ℤ)
    | 43 :: s => readNat s
    | s => readNat s
  Int.bmod (max (-2 ^ 63) (min n (2 ^ 63 - 1))) (2 ^ 32)

/-- `strcmp(p, s) == 0`, which must not be asked of `NULL`. -/
def strcmpEq (array : List UInt8) (p : Option ℕ) (s : List UInt8) : Option Bool :=
  p.map fun p => decide (strAt array p = s)

/-- `"quit"`. -/
def quitName : List UInt8 := [113, 117, 105, 116]

/-- `"jobs"`. -/
def jobsName : List UInt8 := [106, 111, 98, 115]

/-- `"bg"`. -/
def bgName : List UInt8 := [98, 103]

/-- `"fg"`. -/
def fgName : List UInt8 := [102, 103]

/-- The argument of `bg` or `fg`. -/
def jobArg (array : List UInt8) : Option ℕ → JobArg
  | none => .missing
  | some id =>
    if charAt array id = 37 then .jid (atoi (strAt array (id + 1)))
    else if isDigit (charAt array id) then .pid (atoi (strAt array id))
    else .invalid

/-- `do_bgfg`, up to the search for the job. -/
def doBgfg (array : List UInt8) (argv : List ℕ) : Option Command :=
  (strcmpEq array argv[0]? bgName).map fun bg => .bgfg (!bg) (jobArg array argv[1]?)

/-- `builtin_cmd`: the command, if it is a built-in one. -/
def builtinCmd (array : List UInt8) (argv : List ℕ) : Option (Option Command) := do
  let cmd := argv[0]?
  if ← strcmpEq array cmd quitName then
    return some .quit
  else if ← strcmpEq array cmd jobsName then
    return some .jobs
  else if (← strcmpEq array cmd bgName) || (← strcmpEq array cmd fgName) then
    return some (← doBgfg array argv)
  else
    return none

/-- The line as it is printed. -/
def lineText (line : List UInt8) : String :=
  String.ofList ((cString line).map fun c => Char.ofNat c.toNat)

/-- `eval`, up to `fork`, on what the static array of `parseline` holds: the command that the line stands
for.  `none` when something is stored out of bounds or a string is `NULL`. -/
def evalLine (array line : List UInt8) : Option Command := do
  let (array, argv, bg) ← parseline array (cString line)
  match ← builtinCmd array argv with
  | some cmd => return cmd
  | none => return .program (decide (bg ≠ 0)) (lineText line)

/-! ### What the functions read -/

variable {array line text : List UInt8} {args : List (List UInt8)}

theorem builtinCmd_cons (array : List UInt8) (p : ℕ) (argv : List ℕ) :
    builtinCmd array (p :: argv) = some
      (if strAt array p = quitName then some .quit
      else if strAt array p = jobsName then some .jobs
      else if strAt array p = bgName ∨ strAt array p = fgName then
        some (.bgfg (decide (strAt array p ≠ bgName)) (jobArg array argv[0]?))
      else none) := by
  simp only [builtinCmd, doBgfg, strcmpEq, List.getElem?_cons_zero, List.getElem?_cons_succ,
    Option.map_some, Option.bind_eq_bind, Option.bind_some, decide_eq_true_eq, Bool.or_eq_true,
    decide_not]
  split_ifs <;> rfl

/-- **No string is `NULL` exactly when there is a first word.** -/
theorem builtinCmd_isSome (array : List UInt8) (argv : List ℕ) :
    (builtinCmd array argv).isSome = true ↔ argv ≠ [] := by
  cases argv with
  | nil => exact iff_of_false Bool.false_ne_true fun h => h rfl
  | cons p argv =>
    rw [builtinCmd_cons]
    exact ⟨fun _ => List.cons_ne_nil _ _, fun _ => rfl⟩

/-- `eval` goes wrong inside `parseline` or at a missing first word. -/
theorem evalLine_isSome (array line : List UInt8) :
    (evalLine array line).isSome = true ↔
      ∃ r, parseline array (cString line) = some r ∧ r.2.1 ≠ [] := by
  cases hparse : parseline array (cString line) with
  | none =>
    rw [evalLine, hparse]
    refine iff_of_false Bool.false_ne_true ?_
    rintro ⟨r, hr, -⟩
    cases hr
  | some r =>
    obtain ⟨array', argv, bg⟩ := r
    have hfirst : (evalLine array line).isSome = (builtinCmd array' argv).isSome := by
      rw [evalLine, hparse]
      show (Option.bind (builtinCmd array' argv) _).isSome = _
      cases builtinCmd array' argv with
      | none => rfl
      | some cmd =>
        cases cmd with
        | none => rfl
        | some cmd => rfl
    rw [hfirst, builtinCmd_isSome]
    constructor
    · intro hne
      exact ⟨_, rfl, hne⟩
    · rintro ⟨r, hr, hne⟩
      rw [← Option.some.inj hr] at hne
      exact hne

theorem builtinCmd_ne_blank {argv : List ℕ} {cmd : Command}
    (h : builtinCmd array argv = some (some cmd)) : cmd ≠ .blank := by
  cases argv with
  | nil => cases h
  | cons p argv =>
    rw [builtinCmd_cons, Option.some.injEq] at h
    split_ifs at h
    all_goals
      obtain rfl := Option.some.inj h
      simp

/-- The main loop goes on with any line that is evaluated. -/
theorem halted_dispatch {s : Shell} {cmd : Command} (h : evalLine array line = some cmd)
    (hrun : s.halted = none) : (s.dispatch cmd).halted ≠ some .fault := by
  obtain ⟨⟨array', argv, bg⟩, hparse, hargv⟩ :=
    (evalLine_isSome array line).mp (Option.isSome_of_eq_some h)
  rw [evalLine, hparse] at h
  replace h : (builtinCmd array' argv).bind _ = some cmd := h
  have hblank : cmd ≠ .blank := by
    cases hbuiltin : builtinCmd array' argv with
    | none => rw [hbuiltin] at h; cases h
    | some c =>
      rw [hbuiltin] at h
      cases c with
      | none =>
        obtain rfl := Option.some.inj h
        simp
      | some c =>
        obtain rfl : c = cmd := Option.some.inj h
        exact builtinCmd_ne_blank hbuiltin
  have hnone : s.halted ≠ some .fault := by
    rw [hrun]
    decide
  cases cmd with
  | blank => exact absurd rfl hblank
  | quit =>
    show some Halt.done ≠ some Halt.fault
    decide
  | jobs => exact hnone
  | bgfg fg id => exact hnone
  | program bg text => exact hnone

/-! ### The arguments of a text -/

/-- A text in front of a NUL has at most one list of arguments. -/
theorem Arguments.unique {args' : List (List UInt8)} (h : Arguments text args)
    (h' : Arguments text args') : args = args' := by
  have hlt : args.length < max args.length args'.length + 1 := by omega
  have hlt' : args'.length < max args.length args'.length + 1 := by omega
  obtain ⟨post, argv, hgo, hargv⟩ := parseArgs_arguments h hlt [] []
  obtain ⟨post', argv', hgo', hargv'⟩ := parseArgs_arguments h' hlt' [] []
  have heq := Option.some.inj (hgo.symm.trans hgo')
  obtain ⟨rfl, rfl⟩ := Prod.mk.inj heq
  exact hargv.symm.trans hargv'

/-- A text that starts with no space and that a space ends: its first word, unless a quote is left
open. -/
theorem exists_word {c : UInt8} {t : List UInt8} (nul : (0 : UInt8) ∉ c :: t) (hc : c ≠ 32)
    (hend : (32 : UInt8) ∈ c :: t) :
    (c = 39 ∧ (39 : UInt8) ∉ t) ∨
      ∃ (w : Word) (rest : List UInt8), c :: t = w.opening ++ (w.text ++ w.closing :: rest) := by
  by_cases hquote : c = 39
  · by_cases hclosed : (39 : UInt8) ∈ t
    · -- the text between the quotes
      obtain ⟨a, rest, rfl, ha⟩ := List.eq_append_cons_of_mem hclosed
      have hnul : (0 : UInt8) ∉ a := fun h =>
        nul (List.mem_cons_of_mem c (List.mem_append_left _ h))
      rw [hquote]
      exact Or.inr ⟨.quoted a ha hnul, rest, rfl⟩
    · exact Or.inl ⟨hquote, hclosed⟩
  · -- the text up to the first space
    obtain ⟨a, rest, hsplit, ha⟩ := List.eq_append_cons_of_mem hend
    have hnul : (0 : UInt8) ∉ a := fun h => nul (hsplit ▸ List.mem_append_left _ h)
    cases a with
    | nil => exact absurd (List.cons.inj hsplit).1 hc
    | cons b a =>
      have hhead : c = b := (List.cons.inj hsplit).1
      have hbare : (b :: a).head? ≠ some 39 := fun h =>
        hquote (hhead.trans (Option.some.inj h))
      exact Or.inr ⟨.bare (b :: a) (List.cons_ne_nil _ _) ha hbare hnul, rest, hsplit⟩

/-- The spaces in front of a text. -/
theorem exists_spaces (text : List UInt8) :
    ∃ k rest, text = List.replicate k 32 ++ rest ∧ rest.head? ≠ some 32 := by
  induction text with
  | nil => exact ⟨0, [], rfl, by decide⟩
  | cons c text ih =>
    by_cases hc : c = 32
    · obtain ⟨k, rest, hsplit, hstop⟩ := ih
      refine ⟨k + 1, rest, ?_, hstop⟩
      rw [hc, hsplit]
      rfl
    · exact ⟨0, c :: text, rfl, fun h => hc (Option.some.inj h)⟩

/-- **A text that a space ends has a list of arguments.** -/
theorem exists_arguments (text : List UInt8) (nul : (0 : UInt8) ∉ text)
    (hend : ∀ c ∈ text.getLast?, c = 32) : ∃ args, Arguments text args := by
  induction hn : text.length using Nat.strong_induction_on generalizing text with
  | _ n ih =>
    -- what the first word leaves is shorter and ends alike
    have hrest : ∀ a b, text = a ++ b → a ≠ [] → ∃ args, Arguments b args := by
      intro a b hab ha
      have hlen : b.length < n := by
        have := List.length_pos_iff.mpr ha
        rw [← hn, hab, List.length_append]
        omega
      refine ih b.length hlen b (fun h => nul ?_) (fun c hc => hend c ?_) rfl
      · rw [hab]
        exact List.mem_append_right a h
      · rw [hab, List.getLast?_append, Option.mem_def.mp hc]
        rfl
    obtain ⟨k, s, hsplit, hstop⟩ := exists_spaces text
    cases s with
    | nil =>
      rw [hsplit, List.append_nil]
      exact ⟨[], Arguments.spaces k⟩
    | cons c t =>
      have hc : c ≠ 32 := fun he => hstop (congrArg some he)
      have hnul : (0 : UInt8) ∉ c :: t := fun h => nul (by
        rw [hsplit]
        exact List.mem_append_right _ h)
      have hmem : (32 : UInt8) ∈ c :: t := by
        have hlast : (c :: t).getLast (List.cons_ne_nil c t) = 32 := by
          refine hend _ ?_
          rw [hsplit, List.getLast?_append, List.getLast?_eq_some_getLast (List.cons_ne_nil c t)]
          rfl
        rw [← hlast]
        exact List.getLast_mem _
      rcases exists_word hnul hc hmem with ⟨rfl, hopen⟩ | ⟨w, rest, hword⟩
      · rw [hsplit]
        exact ⟨[], Arguments.unclosed k hopen fun h => hnul (List.mem_cons_of_mem _ h)⟩
      · obtain ⟨args, hargs⟩ := hrest (List.replicate k 32 ++ (w.opening ++ (w.text ++ [w.closing])))
          rest (by rw [hsplit, hword]; simp) (by simp)
        rw [hsplit, hword]
        exact ⟨w.text :: args, Arguments.word k w hargs⟩

/-! ### The lines that are evaluated -/

/-- The test for a background job takes a lone word away when it starts with `&`. -/
theorem testBackground_eq_nil {argv : List ℕ} (hargv : argv.map (strAt array) = args) :
    (testBackground array argv).1 = [] ↔ args = [] ∨ ∃ w, args = [w] ∧ w.head? = some 38 := by
  have hlen : argv.length = args.length := by rw [← hargv, List.length_map]
  rcases List.eq_nil_or_concat args with rfl | ⟨texts, last, rfl⟩
  · obtain rfl : argv = [] := List.eq_nil_of_length_eq_zero hlen
    exact ⟨fun _ => Or.inl rfl, fun _ => rfl⟩
  · rw [List.concat_eq_append] at hargv hlen ⊢
    rw [List.length_append, List.length_singleton] at hlen
    have hconcat : texts ++ [last] ≠ [] := List.append_ne_nil_of_right_ne_nil _ (List.cons_ne_nil _ _)
    rw [testBackground_of_last hargv]
    split_ifs with hamp
    · constructor
      · intro h
        have hdrop : argv.dropLast.length = 0 := congrArg List.length h
        rw [List.length_dropLast] at hdrop
        obtain rfl : texts = [] := List.eq_nil_of_length_eq_zero (by omega)
        exact Or.inr ⟨last, rfl, hamp⟩
      · rintro (h | ⟨w, h, -⟩)
        · exact absurd h hconcat
        · have hone : (texts ++ [last]).length = 1 := by rw [h]; rfl
          rw [List.length_append, List.length_singleton] at hone
          exact List.eq_nil_of_length_eq_zero (by rw [List.length_dropLast]; omega)
    · constructor
      · intro h
        have hzero : argv.length = 0 := congrArg List.length h
        omega
      · rintro (h | ⟨w, h, hw⟩)
        · exact absurd h hconcat
        · cases texts with
          | nil =>
            obtain rfl : last = w := (List.cons.inj h).1
            exact absurd hw hamp
          | cons t texts => exact absurd (List.cons.inj h).2 (by simp)

theorem typed_cString_nul (line : List UInt8) : (0 : UInt8) ∉ typed (cString line) := by
  intro h
  rcases List.mem_append.mp h with h | h
  · exact zero_notMem_cString line ((List.dropLast_prefix _).subset h)
  · exact absurd (List.mem_singleton.mp h) (by decide)

/-- **What the arguments must be.** -/
theorem evalLine_isSome_of_arguments (array : List UInt8) (hne : cString line ≠ [])
    (hlen : line.length < maxLine) (h : Arguments (typed (cString line)) args) :
    (evalLine array line).isSome = true ↔
      args ≠ [] ∧ args.length < maxArgs ∧ ∀ w, args = [w] → w.head? ≠ some 38 := by
  rw [evalLine_isSome]
  by_cases hslots : args.length < maxArgs
  · have hshort : (cString line).length < maxLine :=
      Nat.lt_of_le_of_lt (List.takeWhile_prefix _).length_le hlen
    obtain ⟨array', argv, hparse, hargv⟩ := parseline_arguments array hne hshort h hslots
    have hnil := testBackground_eq_nil hargv
    rw [hparse]
    constructor
    · rintro ⟨r, hr, hfirst⟩
      rw [← Option.some.inj hr] at hfirst
      have hboth := mt hnil.mpr hfirst
      rw [not_or] at hboth
      exact ⟨hboth.1, hslots, fun w hw hamp => hboth.2 ⟨w, hw, hamp⟩⟩
    · rintro ⟨hargs, -, hamp⟩
      refine ⟨_, rfl, fun hfirst => ?_⟩
      rcases hnil.mp hfirst with hempty | ⟨w, hw, hw'⟩
      · exact hargs hempty
      · exact hamp w hw hw'
  · rw [parseline_of_tooMany array h (Nat.not_lt.mp hslots)]
    constructor
    · rintro ⟨r, hr, -⟩
      cases hr
    · rintro ⟨-, hlt, -⟩
      exact absurd hlt hslots

/-- **The lines that are evaluated without a fault.**  On a line shorter than `MAXLINE` every store of
`parseline` is in bounds and no string that `builtin_cmd` and `do_bgfg` read is `NULL` if and only if the
line holds an argument, fewer than `MAXARGS` of them, and not just one that starts with `&`. -/
theorem evalLine_isSome_iff (array line : List UInt8) (hlen : line.length < maxLine) :
    (evalLine array line).isSome = true ↔
      ∃ args, Arguments (typed (cString line)) args ∧
        args ≠ [] ∧ args.length < maxArgs ∧ ∀ w, args = [w] → w.head? ≠ some 38 := by
  by_cases hne : cString line = []
  · -- nothing in front of the first NUL: the newline is replaced before the start of the array
    have hspace : Arguments (typed (cString line)) [] := by
      rw [hne]
      exact Arguments.spaces 1
    rw [evalLine_isSome, hne, parseline, if_pos (Or.inl rfl), ← hne]
    constructor
    · rintro ⟨r, hr, -⟩
      cases hr
    · rintro ⟨args, hargs, hsome, -⟩
      exact absurd (hargs.unique hspace) hsome
  · have hend : ∀ c ∈ (typed (cString line)).getLast?, c = 32 := by
      intro c hc
      rw [typed, List.getLast?_concat] at hc
      exact (Option.some.inj hc).symm
    constructor
    · intro h
      obtain ⟨args, hargs⟩ := exists_arguments _ (typed_cString_nul line) hend
      exact ⟨args, hargs, (evalLine_isSome_of_arguments array hne hlen hargs).mp h⟩
    · rintro ⟨args, hargs, hgood⟩
      exact (evalLine_isSome_of_arguments array hne hlen hargs).mpr hgood

/-- `jobs`. -/
theorem evalLine_isSome_jobs : (evalLine [] (jobsName ++ [10])).isSome = true :=
  (evalLine_isSome_iff [] (jobsName ++ [10]) (by decide)).mpr
    ⟨[jobsName], Arguments.word 0 (.bare jobsName (by decide) (by decide) (by decide) (by decide))
      (Arguments.spaces 0), by decide, by decide, fun w hw => by
        rw [← (List.cons.inj hw).1]
        decide⟩

/-- **A blank line faults.**  `builtin_cmd` compares `argv[0]`, which is `NULL`. -/
theorem evalLine_blank : ¬ ∀ array line : List UInt8, array.length = maxLine →
    line.getLast? = some 10 → line.length < maxLine → (evalLine array line).isSome = true := by
  intro hall
  have hblank := hall (List.replicate maxLine 0) [10] List.length_replicate rfl (by decide)
  have hargs : Arguments (typed (cString [10])) [] := Arguments.spaces 1
  have hgood := (evalLine_isSome_of_arguments _ (by decide) (by decide) hargs).mp hblank
  exact hgood.1 rfl

end SystemProgramming.ShellLab
