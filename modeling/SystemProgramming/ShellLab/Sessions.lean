import Mathlib.Data.List.Forall2
import SystemProgramming.ShellLab.ReadEval

/-!
# The shell and its input

A session is a run of the shell on an input: `main` reads the next piece when it is at its prompt, with
no handler in progress, and everything else happens as before, in any order.  The children share the
input: what they read of it is lost to the shell, and one whose `execve` fails seeks back, in `exit`, a
file that the shell has read ahead.

* `sessionRuns` : the system; `session_shell` : it is the shell with its choice of commands taken away.
* `undisturbedRuns` : the sessions whose input is left alone by the children.
* `session_reads` : what has been evaluated, of any input.
* `ScriptLine`, `session_script` : a script of printed lines is evaluated line by line.
-/

namespace SystemProgramming.ShellLab

open CString Transition

/-! ### The system -/

/-- The shell, the static array of `parseline`, the input that is left, and a record of the commands that
have been evaluated, with their arguments. -/
structure Session where
  shell : Shell
  array : List UInt8
  stdin : List UInt8
  evaluated : List (Command × List (List UInt8))

/-- Who takes a step: the shell with all it has to do with, or a child at the input. -/
inductive SessionAction
  | shell (a : Action)
  | child

/-- One step of a session. -/
inductive SessionStep : Session → SessionAction → Session → Prop
  /-- `feof(stdin)`: what `fgets` has stored is not looked at. -/
  | eof {t : Session} {line rest : List UInt8} (hrun : t.shell.halted = none)
      (hframes : t.shell.frames = []) (hmain : t.shell.main = .prompt)
      (hread : fgets (maxLine - 1) t.stdin = (line, rest, true)) :
      SessionStep t (.shell .main) { t with shell := t.shell.halt .done, stdin := rest }
  | eval {t : Session} {line rest array : List UInt8} {cmd : Command} {argv : List (List UInt8)}
      (hrun : t.shell.halted = none) (hframes : t.shell.frames = []) (hmain : t.shell.main = .prompt)
      (hread : fgets (maxLine - 1) t.stdin = (line, rest, false))
      (heval : evalArgv t.array line = some (array, cmd, argv)) :
      SessionStep t (.shell .main)
        ⟨t.shell.dispatch cmd, array, rest, t.evaluated ++ [(cmd, argv)]⟩
  /-- `eval` goes out of bounds. -/
  | fault {t : Session} {line rest : List UInt8} (hrun : t.shell.halted = none)
      (hframes : t.shell.frames = []) (hmain : t.shell.main = .prompt)
      (hread : fgets (maxLine - 1) t.stdin = (line, rest, false))
      (heval : evalArgv t.array line = none) :
      SessionStep t (.shell .main) { t with shell := t.shell.halt .fault, stdin := rest }
  | other {t : Session} {a : Action} {s' : Shell} (h : ShellStep t.shell a s')
      (hprompt : a = .main → t.shell.main ≠ .prompt) : SessionStep t (.shell a) { t with shell := s' }
  /-- A child, or a process that it has started, moves the offset of the file the shell reads. -/
  | child (t : Session) (rest : List UInt8) : SessionStep t .child { t with stdin := rest }

/-- The sessions on an input. -/
def sessionRuns (input : List UInt8) : System Session SessionAction where
  init t := t = ⟨Shell.start, List.replicate maxLine 0, input, []⟩
  step := SessionStep

/-- The sessions in which no child moves the offset: none reads the input, and none fails in `execve` on
an input that can be sought. -/
def undisturbedRuns (input : List UInt8) : System Session SessionAction :=
  (sessionRuns input).restrict fun _ a => a ≠ .child

variable {input line l : List UInt8} {lines : List (List UInt8)} {t : Session}

/-- **Refinement.**  A session is a run of the shell. -/
theorem session_shell (h : (sessionRuns input).Reachable t) : shellRuns.Reachable t.shell := by
  induction h with
  | init h =>
    rw [h]
    exact .init rfl
  | @step t t' a _ hstep ih =>
    cases hstep with
    | eof hrun hframes hmain => exact ih.step (.main hrun hframes (.eof hmain))
    | @eval line rest array cmd argv hrun hframes hmain =>
      exact ih.step (.main hrun hframes (.read hmain cmd))
    | fault hrun hframes hmain => exact ih.step (.main hrun hframes (.read hmain .blank))
    | other h => exact ih.step h
    | child => exact ih

/-! ### How the shell ends -/

theorem MainStep.halted {s s' : Shell} (h : MainStep s s') (hprompt : s.main ≠ .prompt) :
    s'.halted = s.halted ∨ s'.halted = some .unixError := by
  cases h with
  | eof h => exact absurd h hprompt
  | read h cmd => exact absurd h hprompt
  | list h =>
    rw [Shell.listjob]
    split
    · exact Or.inl rfl
    · exact Or.inl rfl
  | lookup h =>
    rw [Shell.lookup]
    split
    · exact Or.inl rfl
    · exact Or.inl rfl
  | @addjob pid bg cmdline h =>
    rw [Shell.add]
    split
    · exact Or.inl rfl
    · by_cases hpid : pid < 1
      · rw [if_pos hpid]
        exact Or.inl rfl
      · rw [if_neg hpid]
        exact Or.inl rfl
  | sigcontFailed => exact Or.inr rfl
  | listIds | listState | listCmdline | block | fork | forkFailed | unblock | announce | sigcont
  | setState | resumed | enterWait | scan | scanNone | compare => exact Or.inl rfl

theorem HandlerStep.halted {s s' : Shell} (h : HandlerStep s s') :
    s'.halted = s.halted ∨ s'.halted = some .unixError ∨ s'.halted = some .fault := by
  cases h with
  | @report fs pid c h =>
    rw [Shell.wait]
    split
    · exact Or.inl rfl
    · exact Or.inl rfl
  | @record fs pid status h =>
    cases status with
    | stopped sig =>
      rw [Shell.record]
      split
      · exact Or.inl rfl
      · exact Or.inr (Or.inr rfl)
    | signaled | exited | running => exact Or.inl rfl
  | killFailed => exact Or.inr (Or.inl rfl)
  | drained | scan | scanNone | read | kill => exact Or.inl rfl

/-- Only `main` at its prompt ends the shell in good order. -/
theorem ShellStep.halted {s s' : Shell} {a : Action} (h : ShellStep s a s')
    (hprompt : a = .main → s.main ≠ .prompt) :
    s'.halted = s.halted ∨ s.halted = none ∧ s'.halted ≠ none ∧ s'.halted ≠ some .done := by
  cases h with
  | main hrun hframes h =>
    rcases h.halted (hprompt rfl) with hsame | hend
    · exact Or.inl hsame
    · exact Or.inr ⟨hrun, by rw [hend]; decide, by rw [hend]; decide⟩
  | handler hrun h =>
    rcases h.halted with hsame | hend | hend
    · exact Or.inl hsame
    · exact Or.inr ⟨hrun, by rw [hend]; decide, by rw [hend]; decide⟩
    · exact Or.inr ⟨hrun, by rw [hend]; decide, by rw [hend]; decide⟩
  | deliver => exact Or.inl rfl
  | kernel h => cases h <;> exact Or.inl rfl
  | sigquit hrun =>
    have hend : (s.halt .sigquit).halted = some .sigquit := rfl
    exact Or.inr ⟨hrun, by rw [hend]; decide, by rw [hend]; decide⟩

theorem Shell.dispatch_halted {s : Shell} {cmd : Command} (hrun : s.halted = none)
    (hquit : cmd ≠ .quit) : (s.dispatch cmd).halted ≠ some .done := by
  have hnone : s.halted ≠ some .done := by
    rw [hrun]
    decide
  cases cmd with
  | blank =>
    show some Halt.fault ≠ some Halt.done
    decide
  | quit => exact absurd rfl hquit
  | jobs => exact hnone
  | bgfg fg id => exact hnone
  | program bg text => exact hnone

/-! ### What has been read -/

/-- What has been read behind the last line that was evaluated. -/
inductive Ended (t : Session) : List UInt8 → Prop
  /-- nothing; something else than the input may have ended the shell -/
  | running (hdone : t.shell.halted ≠ some .done)
      (hquit : t.shell.halted = none → ∀ x ∈ t.evaluated, x.1 ≠ .quit) : Ended t []
  | quit {argv : List (List UInt8)} (hdone : t.shell.halted = some .done)
      (h : t.evaluated.getLast? = some (.quit, argv)) : Ended t []
  /-- a line without its end, which is the rest of the input -/
  | eof {last : List UInt8} (hdone : t.shell.halted = some .done) (hstdin : t.stdin = [])
      (h : Unended (maxLine - 1) last) : Ended t last
  /-- a line that makes `eval` go out of bounds -/
  | fault {last : List UInt8} (hfault : t.shell.halted = some .fault)
      (hpiece : Piece (maxLine - 1) last) (h : ∀ x, ¬ Evaluates last x) : Ended t last

/-- The input up to where the session is: the lines that were evaluated, in order, each to its command,
and none behind a `quit`. -/
structure Reads (input : List UInt8) (t : Session) (lines : List (List UInt8)) (last : List UInt8) :
    Prop where
  input : input = lines.flatten ++ (last ++ t.stdin)
  pieces : ∀ l ∈ lines, Piece (maxLine - 1) l
  evaluated : List.Forall₂ Evaluates lines t.evaluated
  quit : ∀ x ∈ t.evaluated.dropLast, x.1 ≠ .quit
  ended : Ended t last

theorem Ended.of_running {last : List UInt8} (h : Ended t last) (hrun : t.shell.halted = none) :
    last = [] ∧ ∀ x ∈ t.evaluated, x.1 ≠ .quit := by
  cases h with
  | running hdone hquit => exact ⟨rfl, hquit hrun⟩
  | quit hdone | eof hdone => rw [hrun] at hdone; cases hdone
  | fault hfault => rw [hrun] at hfault; cases hfault

/-- A step that is not one of `main` at its prompt. -/
theorem Ended.other {last : List UInt8} {a : Action} {s' : Shell} (h : Ended t last)
    (hstep : ShellStep t.shell a s') (hprompt : a = .main → t.shell.main ≠ .prompt) :
    Ended { t with shell := s' } last := by
  rcases hstep.halted hprompt with hsame | ⟨hrun, hsome, hdone⟩
  · cases h with
    | running hdone hquit =>
      refine .running ?_ ?_
      · rw [hsame]
        exact hdone
      · rw [hsame]
        exact hquit
    | quit hdone h => exact .quit (hsame.trans hdone) h
    | eof hdone hstdin h => exact .eof (hsame.trans hdone) hstdin h
    | fault hfault hpiece h => exact .fault (hsame.trans hfault) hpiece h
  · obtain ⟨rfl, -⟩ := h.of_running hrun
    exact .running hdone fun hnone => absurd hnone hsome

/-- One more line. -/
theorem Reads.eval {last rest array : List UInt8} {x : Command × List (List UInt8)}
    (h : Reads input t lines last) (hrun : t.shell.halted = none)
    (hread : fgets (maxLine - 1) t.stdin = (line, rest, false)) (heval : Evaluates line x) :
    Reads input ⟨t.shell.dispatch x.1, array, rest, t.evaluated ++ [x]⟩ (lines ++ [line]) [] := by
  obtain ⟨hsplit, hpiece⟩ := fgets_eq_false hread
  obtain ⟨rfl, hbefore⟩ := h.ended.of_running hrun
  refine ⟨?_, ?_, ?_, ?_, ?_⟩
  · rw [h.input, hsplit]
    simp
  · intro l hl
    rcases List.mem_append.mp hl with hl | hl
    · exact h.pieces l hl
    · rw [List.mem_singleton.mp hl]
      exact hpiece
  · exact List.rel_append h.evaluated (.cons heval .nil)
  · rw [List.dropLast_concat]
    exact hbefore
  · by_cases hquit : x.1 = .quit
    · obtain ⟨cmd, argv⟩ := x
      obtain rfl : cmd = .quit := hquit
      exact .quit rfl List.getLast?_concat
    · refine .running (Shell.dispatch_halted hrun hquit) fun _ y hy => ?_
      rcases List.mem_append.mp hy with hy | hy
      · exact hbefore y hy
      · rw [List.mem_singleton.mp hy]
        exact hquit

theorem Reads.step {last : List UInt8} {a : SessionAction} {t' : Session}
    (h : Reads input t lines last) (hstep : SessionStep t a t') (hchild : a ≠ .child) : ∃ lines' last', Reads input t' lines' last' := by
  cases hstep with
  | @eof line rest hrun hframes hmain hread =>
    obtain ⟨hunended, rfl⟩ := fgets_eq_true hread
    obtain ⟨rfl, -⟩ := h.ended.of_running hrun
    exact ⟨lines, t.stdin, by rw [h.input]; simp, h.pieces, h.evaluated, h.quit,
      .eof rfl rfl hunended⟩
  | @eval line rest array cmd argv hrun hframes hmain hread heval =>
    have hlen : line.length < maxLine := by
      have hle := (fgets_eq_false hread).2.length_le
      have hmax : maxLine = 1024 := rfl
      omega
    have heval' : Evaluates line (cmd, argv) :=
      (evalArgv_iff t.array hlen).mp (by rw [heval]; rfl)
    exact ⟨lines ++ [line], [], h.eval hrun hread heval'⟩
  | @fault line rest hrun hframes hmain hread heval =>
    obtain ⟨hsplit, hpiece⟩ := fgets_eq_false hread
    obtain ⟨rfl, -⟩ := h.ended.of_running hrun
    have hlen : line.length < maxLine := by
      have hle := hpiece.length_le
      have hmax : maxLine = 1024 := rfl
      omega
    refine ⟨lines, line, by rw [h.input, hsplit]; simp, h.pieces, h.evaluated, h.quit,
      .fault rfl hpiece fun x hx => ?_⟩
    have hsome := (evalArgv_iff t.array hlen).mpr hx
    rw [heval] at hsome
    cases hsome
  | other hshell hprompt =>
    exact ⟨lines, last, h.input, h.pieces, h.evaluated, h.quit, h.ended.other hshell hprompt⟩
  | child => exact absurd rfl hchild

theorem reads (h : (undisturbedRuns input).Reachable t) : ∃ lines last, Reads input t lines last := by
  refine h.invariant (P := fun t => ∃ lines last, Reads input t lines last) ?_ ?_
  · intro t ht
    rw [show t = _ from ht]
    exact ⟨[], [], rfl, List.forall_mem_nil _, .nil, List.forall_mem_nil _,
      .running (show (none : Option Halt) ≠ some .done by decide) fun _ => List.forall_mem_nil _⟩
  · rintro t a t' ⟨lines, last, hreads⟩ ⟨hchild, hstep⟩
    exact hreads.step hstep hchild

/-! ### Scripts -/

/-- The words of a command line with a final `&` and that many spaces behind it. -/
def withAmpersand (words : Words) : Option ℕ → Words
  | none => words
  | some n => words ++ [(ampersand, n)]

/-- A command line of a script: words behind `lead` spaces, for the background or not. -/
structure ScriptLine where
  lead : ℕ
  words : Words
  background : Option ℕ
  ne : words ≠ []
  slots : words.length < maxArgs - 1
  newline : ∀ w ∈ words, (10 : UInt8) ∉ w.1.text
  foreground : background = none → (words.getLast ne).1.text.head? ≠ some 38
  stays : words.texts.head? ≠ some quitName
  length : (commandLine lead (withAmpersand words background)).length < maxLine

namespace ScriptLine

/-- The line as it is typed. -/
def text (s : ScriptLine) : List UInt8 := commandLine s.lead (withAmpersand s.words s.background)

/-- What the line stands for. -/
def result (s : ScriptLine) : Command × List (List UInt8) :=
  (commandOf s.background.isSome (lineText s.text) s.words.texts, s.words.texts)

end ScriptLine

/-- Printing adds spaces and quotes. -/
theorem notMem_renderWords {c : UInt8} (hspace : c ≠ 32) (hquote : c ≠ 39) {ws : Words}
    (h : ∀ w ∈ ws, c ∉ w.1.text) : c ∉ renderWords ws := by
  have hword : ∀ w : Word, c ∉ w.text → c ∉ w.render := by
    intro w hw
    cases w with
    | bare => exact hw
    | quoted text =>
      intro hmem
      rcases List.mem_cons.mp hmem with he | hmem
      · exact hquote he
      · rcases List.mem_append.mp hmem with hmem | hmem
        · exact hw hmem
        · exact hquote (List.mem_singleton.mp hmem)
  have hspaces : ∀ n, c ∉ List.replicate n (32 : UInt8) := fun n hmem =>
    hspace (List.mem_replicate.mp hmem).2
  induction ws with
  | nil => exact List.not_mem_nil
  | cons x ws ih =>
    have hx := hword x.1 (h x List.mem_cons_self)
    have hws := ih fun w hw => h w (List.mem_cons_of_mem x hw)
    cases ws with
    | nil =>
      rw [renderWords, List.mem_append, not_or]
      exact ⟨hx, hspaces _⟩
    | cons v ws =>
      rw [renderWords, List.mem_append, List.mem_append, not_or, not_or]
      exact ⟨⟨hx, hspaces _⟩, hws⟩

theorem notMem_commandLine_init {c : UInt8} (hspace : c ≠ 32) (hquote : c ≠ 39) (lead : ℕ)
    {ws : Words} (h : ∀ w ∈ ws, c ∉ w.1.text) :
    c ∉ List.replicate lead (32 : UInt8) ++ renderWords ws := by
  rw [List.mem_append, not_or]
  exact ⟨fun hmem => hspace (List.mem_replicate.mp hmem).2, notMem_renderWords hspace hquote h⟩

namespace ScriptLine

variable (s : ScriptLine)

theorem forall_withAmpersand {c : UInt8} (hc : c ≠ 38) (h : ∀ w ∈ s.words, c ∉ w.1.text) :
    ∀ w ∈ withAmpersand s.words s.background, c ∉ w.1.text := by
  cases s.background with
  | none => exact h
  | some n =>
    intro w hw
    rcases List.mem_append.mp hw with hw | hw
    · exact h w hw
    · rw [List.mem_singleton.mp hw]
      exact fun hmem => hc (List.mem_singleton.mp hmem)

theorem withAmpersand_ne : withAmpersand s.words s.background ≠ [] := by
  cases s.background with
  | none => exact s.ne
  | some n => exact List.append_ne_nil_of_left_ne_nil s.ne _

/-- `fgets` reads the line. -/
theorem text_piece : Piece (maxLine - 1) s.text := by
  have hnewline := notMem_commandLine_init (by decide) (by decide) s.lead
    (s.forall_withAmpersand (by decide) s.newline)
  have hlen : s.text.length < maxLine := s.length
  refine ⟨?_, ?_⟩
  · rw [text, commandLine, List.dropLast_concat]
    exact hnewline
  · rcases Nat.lt_or_eq_of_le (Nat.le_sub_one_of_lt hlen) with hlt | heq
    · exact Or.inr ⟨hlt, by rw [text, commandLine, List.getLast?_concat]⟩
    · exact Or.inl heq

theorem cString_text : cString s.text = s.text := by
  have hnul := notMem_commandLine_init (c := 0) (by decide) (by decide) s.lead
    (s.forall_withAmpersand (by decide) fun w _ => w.1.nul_notMem)
  refine List.takeWhile_eq_self_iff.mpr fun c hc => decide_eq_true ?_
  rcases List.mem_append.mp hc with hc | hc
  · exact ne_of_mem_of_not_mem hc hnul
  · rw [List.mem_singleton.mp hc]
    decide

theorem arguments_text :
    Arguments (typed (cString s.text)) (withAmpersand s.words s.background).texts := by
  rw [cString_text, text, typed_commandLine s.lead s.withAmpersand_ne]
  exact (arguments_spaced _).of_cons s.lead

theorem splitBackground_texts :
    splitBackground (withAmpersand s.words s.background).texts =
      (s.words.texts, s.background.isSome) := by
  cases hbg : s.background with
  | none =>
    have htexts : s.words.texts = Words.texts s.words.dropLast ++ [(s.words.getLast s.ne).1.text] := by
      rw [Words.texts, Words.texts, ← List.map_singleton (f := fun x : Word × ℕ => x.1.text),
        ← List.map_append, List.dropLast_concat_getLast]
    rw [withAmpersand, splitBackground, htexts, List.getLast?_concat]
    exact if_neg (s.foreground hbg)
  | some n =>
    have htexts : Words.texts (s.words ++ [(ampersand, n)]) = s.words.texts ++ [[38]] :=
      List.map_append
    rw [withAmpersand, splitBackground, htexts, List.getLast?_concat, List.dropLast_concat]
    rfl

theorem evaluates : Evaluates s.text s.result := by
  refine ⟨_, s.arguments_text, ?_⟩
  have hlen : (withAmpersand s.words s.background).texts.length < maxArgs := by
    have hslots := s.slots
    have hmax : maxArgs = 128 := rfl
    rw [Words.texts, List.length_map]
    cases s.background with
    | none =>
      rw [withAmpersand]
      omega
    | some n =>
      rw [withAmpersand, List.length_append, List.length_singleton]
      omega
  have hne : s.words.texts ≠ [] := fun hnil => s.ne (List.map_eq_nil_iff.mp hnil)
  rw [evaluation, s.splitBackground_texts, if_pos ⟨hlen, hne⟩]
  rfl

theorem result_ne_quit : s.result.1 ≠ .quit := by
  have hstays := s.stays
  rw [result]
  cases htexts : s.words.texts with
  | nil => exact absurd (List.map_eq_nil_iff.mp htexts) s.ne
  | cons name args =>
    rw [htexts] at hstays
    dsimp only [commandOf]
    rw [if_neg fun hname => hstays (congrArg some hname)]
    split_ifs <;> simp

end ScriptLine

/-- The text of a script, with an unfinished line at its end. -/
def scriptText (script : List ScriptLine) (tail : List UInt8) : List UInt8 :=
  (script.map ScriptLine.text).flatten ++ tail

/-- `jobs`. -/
def jobsLine : ScriptLine where
  lead := 0
  words := [(.bare jobsName (by decide) (by decide) (by decide) (by decide), 0)]
  background := none
  ne := List.cons_ne_nil _ _
  slots := by decide
  newline := List.forall_mem_singleton.mpr (by decide)
  foreground _ := by decide
  stays := by decide
  length := by decide

variable {script : List ScriptLine} {tail rest : List UInt8}

theorem scriptText_cons (s : ScriptLine) (script : List ScriptLine) (tail : List UInt8) :
    scriptText (s :: script) tail = s.text ++ scriptText script tail := by
  rw [scriptText, scriptText, List.map_cons, List.flatten_cons, List.append_assoc]

/-- The text of a script starts with its first line and no other. -/
theorem script_of_piece (htail : Unended (maxLine - 1) tail) (hl : Piece (maxLine - 1) l)
    (h : scriptText script tail = l ++ rest) :
    ∃ s script', script = s :: script' ∧ l = s.text ∧ scriptText script' tail = rest := by
  have hread := fgets_of_piece hl rest
  rw [← h] at hread
  cases script with
  | nil =>
    have heof := fgets_of_unended htail
    rw [show scriptText [] tail = tail from rfl, heof] at hread
    cases hread
  | cons s script =>
    rw [scriptText_cons, fgets_of_piece s.text_piece] at hread
    obtain ⟨hline, hrest⟩ := Prod.mk.inj hread
    exact ⟨s, script, rfl, hline.symm, (Prod.mk.inj hrest).1⟩

/-- At its prompt the shell evaluates the next line. -/
theorem ScriptLine.evalStep (s : ScriptLine) (rest : List UInt8) (hrun : t.shell.halted = none)
    (hframes : t.shell.frames = []) (hmain : t.shell.main = .prompt)
    (hstdin : t.stdin = s.text ++ rest) : ∃ array, SessionStep t (.shell .main)
      ⟨t.shell.dispatch s.result.1, array, rest, t.evaluated ++ [s.result]⟩ := by
  have heval := (evalArgv_iff t.array s.length).mpr s.evaluates
  obtain ⟨⟨array, x⟩, hsome, rfl⟩ := Option.map_eq_some_iff.mp heval
  refine ⟨array, .eval hrun hframes hmain ?_ hsome⟩
  rw [hstdin]
  exact fgets_of_piece s.text_piece rest

/-- The lines that are read of a script are its first lines. -/
theorem script_of_pieces (htail : Unended (maxLine - 1) tail)
    (hlines : ∀ l ∈ lines, Piece (maxLine - 1) l) {results : List (Command × List (List UInt8))}
    (hresults : List.Forall₂ Evaluates lines results)
    (h : scriptText script tail = lines.flatten ++ rest) :
    ∃ done todo, script = done ++ todo ∧ results = done.map ScriptLine.result ∧
      scriptText todo tail = rest := by
  induction hresults generalizing script with
  | nil => exact ⟨[], script, rfl, rfl, h⟩
  | @cons l x lines results hx hresults ih =>
    rw [List.flatten_cons, List.append_assoc] at h
    obtain ⟨s, script', rfl, rfl, hrest⟩ := script_of_piece htail (hlines l List.mem_cons_self) h
    obtain ⟨done, todo, rfl, rfl, htodo⟩ :=
      ih (fun l hl => hlines l (List.mem_cons_of_mem _ hl)) hrest
    refine ⟨s :: done, todo, rfl, ?_, htodo⟩
    rw [List.map_cons, hx.unique s.evaluates]

/-- **What a session has evaluated.**  In every run the children of which leave the input alone, it is cut
into lines of at most `MAXLINE - 1` bytes, each evaluated before the next is read.  When the shell has
ended with its input, the last command was `quit`, or everything was evaluated but an unfinished last
line. -/
theorem session_reads (h : (undisturbedRuns input).Reachable t) :
    shellRuns.Reachable t.shell ∧ ∃ lines last, Reads input t lines last :=
  ⟨session_shell h.of_restrict, reads h⟩

theorem session_jobs : ∃ t, (undisturbedRuns (scriptText [jobsLine] [113])).Reachable t ∧
    t.evaluated = [jobsLine.result] := by
  obtain ⟨array, hstep⟩ := jobsLine.evalStep [113]
    (t := ⟨Shell.start, List.replicate maxLine 0, scriptText [jobsLine] [113], []⟩)
    rfl rfl rfl (scriptText_cons jobsLine [] [113])
  exact ⟨_, .step (.init rfl) ⟨SessionAction.noConfusion, hstep⟩, rfl⟩

/-- `jobs`, evaluated, and one more byte. -/
theorem session_reads_jobs : ∃ t, (undisturbedRuns (scriptText [jobsLine] [113])).Reachable t ∧
    t.evaluated = [jobsLine.result] ∧ shellRuns.Reachable t.shell ∧
    ∃ lines last, Reads (scriptText [jobsLine] [113]) t lines last := by
  obtain ⟨t, ht, heval⟩ := session_jobs
  exact ⟨t, ht, heval, session_reads ht⟩

/-- **A script is evaluated line by line.**  In every run on a script of printed command lines that the
children leave alone, the lines evaluated so far are its first, each with exactly its words as arguments,
and the rest of the script is still to be read.  When the shell has ended with its input, all of them have been evaluated; an unfinished
line at the end of the script has not. -/
theorem session_script (script : List ScriptLine) (tail : List UInt8)
    (htail : Unended (maxLine - 1) tail) {t : Session}
    (h : (undisturbedRuns (scriptText script tail)).Reachable t) :
    ∃ done todo, script = done ++ todo ∧ t.evaluated = done.map ScriptLine.result ∧
      (t.shell.halted ≠ some .done ∧ t.stdin = scriptText todo tail ∨
        t.shell.halted = some .done ∧ todo = [] ∧ t.stdin = []) := by
  obtain ⟨lines, last, hreads⟩ := reads h
  obtain ⟨done, todo, hscript, hresults, htodo⟩ :=
    script_of_pieces htail hreads.pieces hreads.evaluated hreads.input
  refine ⟨done, todo, hscript, hresults, ?_⟩
  have hstays : ∀ x ∈ t.evaluated, x.1 ≠ .quit := by
    intro x hx
    rw [hresults] at hx
    obtain ⟨s, -, rfl⟩ := List.mem_map.mp hx
    exact s.result_ne_quit
  cases hreads.ended with
  | running hdone => exact Or.inl ⟨hdone, htodo.symm⟩
  | quit hdone hlast => exact absurd rfl (hstays _ (List.mem_of_getLast? hlast))
  | eof hdone hstdin hunended =>
    rw [hstdin, List.append_nil] at htodo
    refine Or.inr ⟨hdone, ?_, hstdin⟩
    cases todo with
    | nil => rfl
    | cons s todo =>
      -- the first line left would have been read
      have hread := fgets_of_unended hunended
      rw [← htodo, scriptText_cons, fgets_of_piece s.text_piece] at hread
      exact absurd (congrArg (fun r => r.2.2) hread) Bool.false_ne_true
  | fault hfault hpiece hnone =>
    obtain ⟨s, todo', -, rfl, -⟩ := script_of_piece htail hpiece htodo
    exact absurd s.evaluates (hnone _)

/-- `jobs`, and `q` without a newline. -/
theorem session_script_jobs : Unended (maxLine - 1) [113] ∧
    ∃ t, (undisturbedRuns (scriptText [jobsLine] [113])).Reachable t ∧
      t.evaluated = [jobsLine.result] ∧
      ∃ done todo, [jobsLine] = done ++ todo ∧ t.evaluated = done.map ScriptLine.result ∧
        (t.shell.halted ≠ some .done ∧ t.stdin = scriptText todo [113] ∨
          t.shell.halted = some .done ∧ todo = [] ∧ t.stdin = []) := by
  have htail : Unended (maxLine - 1) [113] := ⟨by decide, by decide⟩
  obtain ⟨t, ht, heval⟩ := session_jobs
  exact ⟨htail, t, ht, heval, session_script [jobsLine] [113] htail ht⟩

end SystemProgramming.ShellLab
