import SystemProgramming.Library.Transition
import SystemProgramming.ShellLab.Jobs

/-!
# The tiny shell among its children and signals (`tsh.c`)

One system of three parties that take steps in any order: the main loop of the shell (`main`, `eval`,
`do_bgfg`, `waitfg`, `listjobs`), its signal handlers, and the kernel with the children.  Handlers run
before the main loop goes on, and interrupt each other except that a signal is blocked while its own
handler runs; `eval` blocks all three signals around `fork` and `addjob`.

* `Child`, `GroupExists` : the children, as far as `waitpid` and `kill` depend on them.
* `MainStep`, `HandlerStep`, `KernelStep` : one step of each party.
* `shellRuns` : the runs of the shell.
* `MainStep.effect` : the few steps of the main loop that change more than its own control.
-/

namespace SystemProgramming.ShellLab

open Transition

/-! ### Children and signals -/

/-- The status of a child, in the terms of `waitpid`. -/
inductive Status
  | running
  | stopped (sig : ℕ)
  | exited
  | signaled (sig : ℕ)
  deriving DecidableEq

/-- `WIFSIGNALED` or `WIFEXITED`. -/
def Status.Terminated : Status → Prop
  | exited | signaled _ => True
  | running | stopped _ => False

instance : DecidablePred Status.Terminated
  | .exited | .signaled _ => inferInstanceAs (Decidable True)
  | .running | .stopped _ => inferInstanceAs (Decidable False)

/-- A child that has not been waited for: its status, whether `waitpid` has reported the stop it is in,
and whether it has called `setpgid(0, 0)`. -/
structure Child where
  status : Status
  reported : Bool
  leader : Bool

/-- What `waitpid` with `WNOHANG|WUNTRACED` reports. -/
def Child.Reportable (c : Child) : Prop :=
  match c.status with
  | .running => False
  | .stopped _ => c.reported = false
  | .exited | .signaled _ => True

/-- `SIGCONT` at a child. -/
def Child.continued (c : Child) : Child :=
  match c.status with
  | .stopped _ => { c with status := .running, reported := false }
  | _ => c

/-- The signals the shell handles and returns from. -/
inductive Signal
  | chld
  | int
  | tstp
  deriving DecidableEq

/-- Where a child is in the books of the shell: `added` when `addjob` has succeeded, `reaped` when
`waitpid` has reported its end, `processed` when `sigchld_handler` is done with that report. -/
inductive Phase
  | absent
  | forked
  | added
  | reaped
  | processed
  deriving DecidableEq

/-! ### The program -/

/-- The second word of a `bg` or `fg` command. -/
inductive JobArg
  | missing
  | jid (n : ℤ)
  | pid (n : ℤ)
  | invalid
  deriving DecidableEq

/-- A command line as `parseline` and `builtin_cmd` tell them apart; `blank` has no first word. -/
inductive Command
  | blank
  | quit
  | jobs
  | bgfg (fg : Bool) (id : JobArg)
  | program (bg : Bool) (cmdline : String)

/-- What the shell prints. -/
inductive Message
  /-- the three parts of a line of `listjobs` -/
  | listed (jid pid : ℤ)
  | listedState (i : Fin maxJobs) (state : JobState)
  | listedCmdline (cmdline : String)
  | started (jid pid : ℤ) (cmdline : String)
  | stopped (jid pid : ℤ) (sig : ℕ)
  | terminated (jid pid : ℤ) (sig : ℕ)
  | tooManyJobs
  /-- a refusal of `bg` or `fg`, by the kind of argument -/
  | refused (fg : Bool) (id : JobArg)

/-- Why the shell has ended. -/
inductive Halt
  | done
  | unixError
  | fault
  | sigquit
  deriving DecidableEq

/-- Where the main loop is; an index is the pointer `job` of `do_bgfg`. -/
inductive MainPc
  /-- `main`, about to read a command line -/
  | prompt
  /-- `listjobs`, at the test of a slot -/
  | list (i : ℕ)
  /-- `listjobs`, at the parts of the line about a slot -/
  | listIds (i : Fin maxJobs)
  | listState (i : Fin maxJobs)
  | listCmdline (i : Fin maxJobs)
  /-- `eval`, at `SIG_BLOCK` -/
  | block (bg : Bool) (cmdline : String)
  | fork (bg : Bool) (cmdline : String)
  | addjob (pid : ℤ) (bg : Bool) (cmdline : String)
  /-- `eval`, at `SIG_UNBLOCK` -/
  | unblock (pid : ℤ) (bg : Bool) (cmdline : String)
  /-- `eval`, at the message about a background job -/
  | announce (pid : ℤ) (cmdline : String)
  /-- `do_bgfg`, at the search for the job -/
  | lookup (fg : Bool) (id : JobArg)
  /-- `do_bgfg`, at `kill` -/
  | sigcont (fg : Bool) (i : Fin maxJobs)
  /-- `do_bgfg`, at the assignment to `job->state` -/
  | setState (fg : Bool) (i : Fin maxJobs)
  /-- `do_bgfg`, at the message of `bg` -/
  | resumed (i : Fin maxJobs)
  /-- `do_bgfg`, at the call of `waitfg` -/
  | enterWait (i : Fin maxJobs)
  /-- `waitfg`, at the scan of `fgpid` -/
  | waitfg (pid : ℤ)
  /-- `waitfg`, where the scan has stopped at a slot -/
  | compare (pid : ℤ) (i : Fin maxJobs)

/-- Between `SIG_BLOCK` and `SIG_UNBLOCK`. -/
def MainPc.InWindow : MainPc → Prop
  | .fork .. | .addjob .. | .unblock .. => True
  | _ => False

/-- Where a handler is. -/
inductive Frame
  /-- `sigchld_handler`, at `waitpid` -/
  | reap
  /-- `sigchld_handler`, with a report -/
  | report (pid : ℤ) (status : Status)
  /-- `sigint_handler` or `sigtstp_handler`, at the scan of `fgpid` -/
  | scan (sig : Signal)
  /-- the same, where the scan has stopped at a slot -/
  | read (sig : Signal) (i : Fin maxJobs)
  /-- the same, at `kill` -/
  | kill (sig : Signal) (pid : ℤ)

/-- The signal a handler handles. -/
def Frame.signal : Frame → Signal
  | .reap | .report .. => .chld
  | .scan sig | .read sig _ | .kill sig _ => sig

/-- The first step of the handler of a signal. -/
def Signal.handler : Signal → Frame
  | .chld => .reap
  | .int => .scan .int
  | .tstp => .scan .tstp

/-- The shell, its children, and the process groups.  `frames` are the handlers in progress, the
running one first; `others` says which groups have a member that is no child of the shell.  The last
three fields are kept by no one, and only statements about runs mention them: the phases of the
children, the process that `do_bgfg` has looked up, and the status that `sigchld_handler` has recorded
last of a child since `do_bgfg` sent it `SIGCONT`. -/
structure Shell where
  table : JobTable
  main : MainPc
  frames : List Frame
  blocked : Bool
  halted : Option Halt
  out : List Message
  child : ℤ → Option Child
  others : ℤ → Bool
  pending : Signal → Bool
  phase : ℤ → Phase
  found : ℤ
  last : ℤ → Option Status

namespace Shell

/-- `main` at its first command line. -/
def start : Shell where
  table := initjobs
  main := .prompt
  frames := []
  blocked := false
  halted := none
  out := []
  child := fun _ => none
  others := fun _ => false
  pending := fun _ => false
  phase := fun _ => .absent
  found := 0
  last := fun _ => none

/-- The slot a pointer points at. -/
def job (s : Shell) (i : Fin maxJobs) : Job := s.table.jobs i

def goto (s : Shell) (pc : MainPc) : Shell := { s with main := pc }

def print (s : Shell) (m : Message) : Shell := { s with out := s.out ++ [m] }

def halt (s : Shell) (h : Halt) : Shell := { s with halted := some h }

/-- A change of one child. -/
def setChild (s : Shell) (pid : ℤ) (c : Option Child) : Shell :=
  { s with child := Function.update s.child pid c }

def setPhase (s : Shell) (pid : ℤ) (phase : Phase) : Shell :=
  { s with phase := Function.update s.phase pid phase }

def setLast (s : Shell) (pid : ℤ) (status : Option Status) : Shell :=
  { s with last := Function.update s.last pid status }

/-- A signal becomes pending, which is one bit. -/
def raise (s : Shell) (sig : Signal) : Shell :=
  { s with pending := Function.update s.pending sig true }

/-- `kill(-g, _)` finds a process: the shell itself is in group 0. -/
def GroupExists (s : Shell) (g : ℤ) : Prop :=
  g = 0 ∨ (∃ c, s.child g = some c ∧ c.leader = true) ∨ s.others g = true

/-- `kill(-g, SIGCONT)`: the children that have not called `setpgid` are in the group of the shell. -/
def continueGroup (s : Shell) (g : ℤ) : Shell :=
  { s with
    child := fun p => (s.child p).map fun c =>
      if (g = 0 ∧ c.leader = false) ∨ (g = p ∧ c.leader = true) then c.continued else c }

/-! ### What the code does in one step -/

/-- `main` and `builtin_cmd` with a command line that has been read. -/
def dispatch (s : Shell) : Command → Shell
  -- `strcmp` at a null pointer
  | .blank => s.halt .fault
  | .quit => s.halt .done
  | .jobs => s.goto (.list 0)
  | .bgfg fg id => s.goto (.lookup fg id)
  | .program bg cmdline => s.goto (.block bg cmdline)

/-- The test in the loop of `listjobs`.  The signals are not blocked between it and the line it lets
through. -/
def listjob (s : Shell) (i : ℕ) : Shell :=
  if h : i < maxJobs then
    s.goto (if (s.job ⟨i, h⟩).pid = 0 then .list (i + 1) else .listIds ⟨i, h⟩)
  else s.goto .prompt

/-- The job that the argument of `bg` or `fg` names. -/
def findJob (s : Shell) : JobArg → Option (Fin maxJobs)
  | .jid n => getjobjid n s.table
  | .pid n => getjobpid n s.table
  | .missing | .invalid => none

/-- The search of `do_bgfg`. -/
def lookup (s : Shell) (fg : Bool) (id : JobArg) : Shell :=
  match s.findJob id with
  | some i => { s.goto (.sigcont fg i) with found := (s.job i).pid }
  | none => (s.print (.refused fg id)).goto .prompt

/-- The calls of `addjob` in `eval`. -/
def add (s : Shell) (pid : ℤ) (bg : Bool) (cmdline : String) : Shell :=
  match ShellLab.addjob pid (if bg then .bg else .fg) cmdline s.table with
  | some t => ({ s with table := t }.setPhase pid .added).goto (.unblock pid bg cmdline)
  | none => (if pid < 1 then s else s.print .tooManyJobs).goto (.unblock pid bg cmdline)

/-- The body of the loop of `sigchld_handler` for one report; `fs` are the interrupted handlers. -/
def record (s : Shell) (pid : ℤ) (fs : List Frame) : Status → Shell
  | .stopped sig =>
    match getjobpid pid s.table with
    | some i =>
      { ({ s with table := s.table.setState i .st }.print
          (.stopped (s.job i).jid pid sig)).setLast pid (some (.stopped sig)) with
        frames := .reap :: fs }
    -- `job->state` at a null pointer
    | none => s.halt .fault
  | .signaled sig =>
    { (({ s with table := (deletejob pid s.table).getD s.table }.print
        (.terminated (pid2jid pid s.table) pid sig)).setPhase pid .processed).setLast pid
          (some (.signaled sig)) with
      frames := .reap :: fs }
  | .exited =>
    { ({ s with table := (deletejob pid s.table).getD s.table }.setPhase pid .processed).setLast pid
        (some .exited) with
      frames := .reap :: fs }
  | .running => { s with frames := .reap :: fs }

/-- `waitpid` reports on a child: the status of one that has ended is given up. -/
def wait (s : Shell) (pid : ℤ) (c : Child) (fs : List Frame) : Shell :=
  if c.status.Terminated then
    { (s.setChild pid none).setPhase pid .reaped with frames := .report pid c.status :: fs }
  else
    { s.setChild pid (some { c with reported := true }) with frames := .report pid c.status :: fs }

end Shell

/-! ### The parties -/

/-- A step of the main loop. -/
inductive MainStep : Shell → Shell → Prop
  /-- end of file, or an error of `fgets` -/
  | eof {s : Shell} (h : s.main = .prompt) : MainStep s (s.halt .done)
  | read {s : Shell} (h : s.main = .prompt) (cmd : Command) : MainStep s (s.dispatch cmd)
  | list {s : Shell} {i : ℕ} (h : s.main = .list i) : MainStep s (s.listjob i)
  | listIds {s : Shell} {i : Fin maxJobs} (h : s.main = .listIds i) :
      MainStep s ((s.print (.listed (s.job i).jid (s.job i).pid)).goto (.listState i))
  | listState {s : Shell} {i : Fin maxJobs} (h : s.main = .listState i) :
      MainStep s ((s.print (.listedState i (s.job i).state)).goto (.listCmdline i))
  | listCmdline {s : Shell} {i : Fin maxJobs} (h : s.main = .listCmdline i) :
      MainStep s ((s.print (.listedCmdline (s.job i).cmdline)).goto (.list (i + 1)))
  | block {s : Shell} {bg : Bool} {cmdline : String} (h : s.main = .block bg cmdline) :
      MainStep s { s.goto (.fork bg cmdline) with blocked := true }
  /-- The process ID of the new child is that of no process and no group. -/
  | fork {s : Shell} {bg : Bool} {cmdline : String} {p : ℤ} (h : s.main = .fork bg cmdline)
      (hpos : 0 < p) (hchild : s.child p = none) (hgroup : s.others p = false) :
      MainStep s ((((s.setChild p (some ⟨.running, false, false⟩)).setPhase p .forked).setLast p
        none).goto (.addjob p bg cmdline))
  | forkFailed {s : Shell} {bg : Bool} {cmdline : String} (h : s.main = .fork bg cmdline) :
      MainStep s (s.goto (.addjob (-1) bg cmdline))
  | addjob {s : Shell} {pid : ℤ} {bg : Bool} {cmdline : String}
      (h : s.main = .addjob pid bg cmdline) : MainStep s (s.add pid bg cmdline)
  | unblock {s : Shell} {pid : ℤ} {bg : Bool} {cmdline : String}
      (h : s.main = .unblock pid bg cmdline) :
      MainStep s { s.goto (if bg then .announce pid cmdline else .waitfg pid) with blocked := false }
  | announce {s : Shell} {pid : ℤ} {cmdline : String} (h : s.main = .announce pid cmdline) :
      MainStep s ((s.print (.started (pid2jid pid s.table) pid cmdline)).goto .prompt)
  | lookup {s : Shell} {fg : Bool} {id : JobArg} (h : s.main = .lookup fg id) :
      MainStep s (s.lookup fg id)
  | sigcont {s : Shell} {fg : Bool} {i : Fin maxJobs} (h : s.main = .sigcont fg i)
      (hgroup : s.GroupExists (s.job i).pid) :
      MainStep s (((s.continueGroup (s.job i).pid).setLast (s.job i).pid none).goto (.setState fg i))
  | sigcontFailed {s : Shell} {fg : Bool} {i : Fin maxJobs} (h : s.main = .sigcont fg i)
      (hgroup : ¬ s.GroupExists (s.job i).pid) : MainStep s (s.halt .unixError)
  | setState {s : Shell} {fg : Bool} {i : Fin maxJobs} (h : s.main = .setState fg i) :
      MainStep s ({ s with table := s.table.setState i (if fg then .fg else .bg) }.goto
        (if fg then .enterWait i else .resumed i))
  | resumed {s : Shell} {i : Fin maxJobs} (h : s.main = .resumed i) :
      MainStep s ((s.print (.started (s.job i).jid (s.job i).pid (s.job i).cmdline)).goto .prompt)
  | enterWait {s : Shell} {i : Fin maxJobs} (h : s.main = .enterWait i) :
      MainStep s (s.goto (.waitfg (s.job i).pid))
  /-- The scan is one step: while it runs, no slot is set to `FG`. -/
  | scan {s : Shell} {pid : ℤ} {i : Fin maxJobs} (h : s.main = .waitfg pid)
      (hfg : fgslot s.table = some i) : MainStep s (s.goto (.compare pid i))
  | scanNone {s : Shell} {pid : ℤ} (h : s.main = .waitfg pid) (hfg : fgslot s.table = none) :
      MainStep s (s.goto (if pid = 0 then .waitfg pid else .prompt))
  | compare {s : Shell} {pid : ℤ} {i : Fin maxJobs} (h : s.main = .compare pid i) :
      MainStep s (s.goto (if pid = (s.job i).pid then .waitfg pid else .prompt))

/-- A step of the running handler. -/
inductive HandlerStep : Shell → Shell → Prop
  | report {s : Shell} {fs : List Frame} {pid : ℤ} {c : Child} (h : s.frames = .reap :: fs)
      (hchild : s.child pid = some c) (hreport : c.Reportable) : HandlerStep s (s.wait pid c fs)
  /-- `waitpid` has nothing to report and the handler returns. -/
  | drained {s : Shell} {fs : List Frame} (h : s.frames = .reap :: fs)
      (hnone : ∀ pid c, s.child pid = some c → ¬ c.Reportable) : HandlerStep s { s with frames := fs }
  | record {s : Shell} {fs : List Frame} {pid : ℤ} {status : Status}
      (h : s.frames = .report pid status :: fs) : HandlerStep s (s.record pid fs status)
  | scan {s : Shell} {fs : List Frame} {sig : Signal} {i : Fin maxJobs}
      (h : s.frames = .scan sig :: fs) (hfg : fgslot s.table = some i) :
      HandlerStep s { s with frames := .read sig i :: fs }
  | scanNone {s : Shell} {fs : List Frame} {sig : Signal} (h : s.frames = .scan sig :: fs)
      (hfg : fgslot s.table = none) : HandlerStep s { s with frames := fs }
  | read {s : Shell} {fs : List Frame} {sig : Signal} {i : Fin maxJobs}
      (h : s.frames = .read sig i :: fs) :
      HandlerStep s { s with
        frames := if 0 < (s.job i).pid then .kill sig (s.job i).pid :: fs else fs }
  /-- What the signal does to the processes of the group is a step of theirs. -/
  | kill {s : Shell} {fs : List Frame} {sig : Signal} {pid : ℤ} (h : s.frames = .kill sig pid :: fs)
      (hgroup : s.GroupExists pid) : HandlerStep s { s with frames := fs }
  | killFailed {s : Shell} {fs : List Frame} {sig : Signal} {pid : ℤ}
      (h : s.frames = .kill sig pid :: fs) (hgroup : ¬ s.GroupExists pid) :
      HandlerStep s (s.halt .unixError)

/-- A step of the children, of other processes or of the keyboard. -/
inductive KernelStep : Shell → Shell → Prop
  | exit {s : Shell} {pid : ℤ} {c : Child} (h : s.child pid = some c) (hrun : c.status = .running) :
      KernelStep s ((s.setChild pid (some { c with status := .exited })).raise .chld)
  | killed {s : Shell} {pid : ℤ} {c : Child} (h : s.child pid = some c)
      (hlive : ¬ c.status.Terminated) (sig : ℕ) :
      KernelStep s ((s.setChild pid (some { c with status := .signaled sig })).raise .chld)
  | stop {s : Shell} {pid : ℤ} {c : Child} (h : s.child pid = some c) (hrun : c.status = .running)
      (sig : ℕ) :
      KernelStep s
        ((s.setChild pid (some { c with status := .stopped sig, reported := false })).raise .chld)
  | continued {s : Shell} {pid : ℤ} {c : Child} (h : s.child pid = some c) :
      KernelStep s ((s.setChild pid (some c.continued)).raise .chld)
  | setpgid {s : Shell} {pid : ℤ} {c : Child} (h : s.child pid = some c) (hrun : c.status = .running) :
      KernelStep s (s.setChild pid (some { c with leader := true }))
  /-- A process joins a group, or makes one whose ID is its own. -/
  | join {s : Shell} {g : ℤ} (hpos : 0 < g) (h : s.GroupExists g ∨ s.child g = none) :
      KernelStep s { s with others := Function.update s.others g true }
  | leave {s : Shell} (g : ℤ) : KernelStep s { s with others := Function.update s.others g false }
  | signal {s : Shell} (sig : Signal) : KernelStep s (s.raise sig)

/-- Who takes a step. -/
inductive Action
  | main
  | handler
  | deliver (sig : Signal)
  | kernel
  deriving DecidableEq

/-- One step of the system. -/
inductive ShellStep : Shell → Action → Shell → Prop
  | main {s s' : Shell} (hrun : s.halted = none) (hframes : s.frames = []) (h : MainStep s s') :
      ShellStep s .main s'
  | handler {s s' : Shell} (hrun : s.halted = none) (h : HandlerStep s s') : ShellStep s .handler s'
  | deliver {s : Shell} {sig : Signal} (hrun : s.halted = none) (hpending : s.pending sig = true)
      (hblocked : s.blocked = false) (hown : sig ∉ s.frames.map Frame.signal) :
      ShellStep s (.deliver sig) { s with
        frames := sig.handler :: s.frames
        pending := Function.update s.pending sig false }
  | kernel {s s' : Shell} (h : KernelStep s s') : ShellStep s .kernel s'
  /-- `sigquit_handler`. -/
  | sigquit {s : Shell} (hrun : s.halted = none) : ShellStep s .kernel (s.halt .sigquit)

/-- The runs of the shell. -/
def shellRuns : System Shell Action where
  init s := s = Shell.start
  step := ShellStep

/-! ### What the main loop changes -/

/-- The table, the handlers, the children and what is recorded about them are the same. -/
structure SameBooks (s s' : Shell) : Prop where
  table : s'.table = s.table
  frames : s'.frames = s.frames
  child : s'.child = s.child
  others : s'.others = s.others
  phase : s'.phase = s.phase
  last : s'.last = s.last

theorem sameBooks_control (s : Shell) (main : MainPc) (blocked : Bool) (halted : Option Halt)
    (out : List Message) (found : ℤ) : SameBooks s { s with
      main := main, blocked := blocked, halted := halted, out := out, found := found } :=
  ⟨rfl, rfl, rfl, rfl, rfl, rfl⟩

/-- The steps of the main loop by what they change. -/
inductive MainEffect (s : Shell) : Shell → Prop
  | same {s' : Shell} (h : SameBooks s s') : MainEffect s s'
  | fork {bg : Bool} {cmdline : String} {p : ℤ} (hchild : s.child p = none)
      (hgroup : s.others p = false) :
      MainEffect s ((((s.setChild p (some ⟨.running, false, false⟩)).setPhase p .forked).setLast p
        none).goto (.addjob p bg cmdline))
  | addjob {pid : ℤ} {bg : Bool} {cmdline : String} (h : s.main = .addjob pid bg cmdline) :
      MainEffect s (s.add pid bg cmdline)
  | sigcont {fg : Bool} {i : Fin maxJobs} (hgroup : s.GroupExists (s.job i).pid) :
      MainEffect s
        (((s.continueGroup (s.job i).pid).setLast (s.job i).pid none).goto (.setState fg i))
  | setState {fg : Bool} {i : Fin maxJobs} :
      MainEffect s ({ s with table := s.table.setState i (if fg then .fg else .bg) }.goto
        (if fg then .enterWait i else .resumed i))

theorem MainStep.effect {s s' : Shell} (h : MainStep s s') : MainEffect s s' := by
  cases h with
  | fork h hpos hchild hgroup => exact .fork hchild hgroup
  | addjob h => exact .addjob h
  | sigcont h hgroup => exact .sigcont hgroup
  | setState h => exact .setState
  | read h cmd => cases cmd <;> exact .same (sameBooks_control s _ _ _ _ _)
  | list h =>
    rw [Shell.listjob]
    split <;> exact .same (sameBooks_control s _ _ _ _ _)
  | lookup h =>
    rw [Shell.lookup]
    split <;> exact .same (sameBooks_control s _ _ _ _ _)
  | eof | listIds | listState | listCmdline | block | forkFailed | unblock | announce | sigcontFailed
  | resumed | enterWait | scan | scanNone | compare => exact .same (sameBooks_control s _ _ _ _ _)

/-- The main loop starts and ends no handler. -/
theorem MainStep.frames_eq {s s' : Shell} (h : MainStep s s') : s'.frames = s.frames := by
  cases h.effect with
  | same h => exact h.frames
  | addjob h =>
    rw [Shell.add]
    split
    · rfl
    · split <;> rfl
  | fork | sigcont | setState => rfl

end SystemProgramming.ShellLab
