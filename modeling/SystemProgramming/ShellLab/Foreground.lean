import SystemProgramming.ShellLab.Shell

/-!
# The foreground job

`FG` is written by the main loop alone, in `addjob` and in `do_bgfg`, and taken back by
`sigchld_handler` alone, when it records a stop or clears the slot.  `waitfg` decides to return from a
scan of the table that the handler may change behind it.

* `MainPc.Fg` : what the main loop knows about the slots in state `FG`, point by point.
* `FgInv.step` : every step of the system keeps it.
* `one_foreground_job` : at most one slot is `FG` in every state of every run, and none at the prompt.
-/

namespace SystemProgramming.ShellLab

open Transition

/-- What is known about the slots in state `FG`: from `addjob` on they hold the process that `waitfg`
waits for, from the assignment of `do_bgfg` on they are the slot it assigned to, and elsewhere there
are none. -/
def MainPc.Fg (job : Fin maxJobs → Job) : MainPc → Prop
  | .unblock q false _ | .waitfg q => ∀ j, (job j).state = .fg → (job j).pid = q
  | .enterWait i => ∀ j, (job j).state = .fg → j = i
  | .compare q i => ∀ j, (job j).state = .fg → j = i ∧ (job j).pid = q
  | _ => ∀ j, (job j).state ≠ .fg

/-- At most one slot is `FG`, and the main loop knows which. -/
structure FgInv (s : Shell) : Prop where
  unique : ∀ i j, (s.job i).state = .fg → (s.job j).state = .fg → i = j
  main : s.main.Fg s.job

theorem fgInv_start : FgInv Shell.start := ⟨fun _ _ => nofun, fun _ => nofun⟩

/-- A slot that a handler leaves in state `FG` is as it was. -/
theorem HandlerStep.fg_slot {s s' : Shell} (h : HandlerStep s s') :
    s'.main = s.main ∧ ∀ i, (s'.job i).state = .fg → s'.job i = s.job i := by
  -- a report of an end clears a slot or none
  have hdelete : ∀ p i, (((deletejob p s.table).getD s.table).jobs i).state = .fg →
      ((deletejob p s.table).getD s.table).jobs i = s.job i := by
    intro p i hfg
    rcases deletejob_job p s.table i with hsame | ⟨hclear, -⟩
    · exact hsame
    · rw [hclear] at hfg
      cases hfg
  cases h with
  | @report fs p c h hchild hreport =>
    rw [Shell.wait]
    split <;> exact ⟨rfl, fun _ _ => rfl⟩
  | @record fs p st h =>
    cases st with
    | stopped sig =>
      rw [Shell.record]
      split
      · next m hm =>
        refine ⟨rfl, fun i hfg => ?_⟩
        replace hfg : ((s.table.setState m .st).jobs i).state = .fg := hfg
        by_cases him : i = m
        · rw [him, setState_self] at hfg
          cases hfg
        · exact setState_of_ne him
      · exact ⟨rfl, fun _ _ => rfl⟩
    | signaled sig => exact ⟨rfl, hdelete p⟩
    | exited => exact ⟨rfl, hdelete p⟩
    | running => exact ⟨rfl, fun _ _ => rfl⟩
  | drained | scan | scanNone | read | kill | killFailed => exact ⟨rfl, fun _ _ => rfl⟩

namespace FgInv

variable {s s' : Shell} {pc : MainPc} {p : ℤ}

/-- Slots leave the state `FG` and the main loop stays where it is. -/
theorem shrink (k : FgInv s) (hmain : s'.main = s.main)
    (hfg : ∀ i, (s'.job i).state = .fg → s'.job i = s.job i) : FgInv s' := by
  have hold : ∀ i, (s'.job i).state = .fg → (s.job i).state = .fg := by
    intro i hi
    rw [← hfg i hi]
    exact hi
  constructor
  case unique =>
    intro i j hi hj
    exact k.unique i j (hold i hi) (hold j hj)
  case main =>
    rw [hmain]
    have hm := k.main
    cases h : s.main with
    | unblock q bg cmdline =>
      rw [h] at hm
      cases bg with
      | true => exact fun j hj => hm j (hold j hj)
      | false =>
        intro j hj
        rw [hfg j hj]
        exact hm j (hold j hj)
    | waitfg q | compare q i =>
      rw [h] at hm
      intro j hj
      rw [hfg j hj]
      exact hm j (hold j hj)
    | prompt | list | listIds | listState | listCmdline | block | fork | addjob | announce | lookup
    | sigcont | setState | resumed | enterWait =>
      rw [h] at hm
      exact fun j hj => hm j (hold j hj)

/-- The main loop goes on without touching the table. -/
theorem goto (k : FgInv s) (htable : s'.table = s.table) (hmain : s'.main.Fg s.job) : FgInv s' := by
  have hjob : s'.job = s.job := by
    funext i
    exact congrArg (fun t => t.jobs i) htable
  constructor
  case unique =>
    rw [hjob]
    exact k.unique
  case main =>
    rw [hjob]
    exact hmain

/-- `addjob` finds no slot in state `FG`. -/
theorem add {bg : Bool} {cmdline : String} (k : FgInv s) (h : s.main = .addjob p bg cmdline) :
    FgInv (s.add p bg cmdline) := by
  have hnone := k.main
  rw [h] at hnone
  rw [Shell.add]
  split
  · next t ht =>
    obtain ⟨m, _, hself, hother⟩ := addjob_slots ht
    have hfg : ∀ j, (t.jobs j).state = .fg → j = m ∧ bg = false := by
      intro j hj
      by_cases hjm : j = m
      · rw [hjm, hself] at hj
        cases bg with
        | true => cases hj
        | false => exact ⟨hjm, rfl⟩
      · rw [hother j hjm] at hj
        exact absurd hj (hnone j)
    constructor
    case unique =>
      intro i j hi hj
      rw [(hfg i hi).1, (hfg j hj).1]
    case main =>
      cases bg with
      | true => exact fun j hj => absurd (hfg j hj).2 (by decide)
      | false =>
        intro j hj
        show (t.jobs j).pid = p
        rw [(hfg j hj).1, hself]
  · refine k.goto ?_ ?_
    · split <;> rfl
    · cases bg with
      | true => exact hnone
      | false => exact fun j hj => absurd hj (hnone j)

theorem mainStep (k : FgInv s) (h : MainStep s s') : FgInv s' := by
  have hm := k.main
  cases h with
  | eof | sigcontFailed => exact k.goto rfl k.main
  | read h cmd =>
    rw [h] at hm
    cases cmd with
    | blank | quit => exact k.goto rfl k.main
    | jobs | bgfg | program => exact k.goto rfl hm
  | list h =>
    rw [h] at hm
    rw [Shell.listjob]
    split
    · refine k.goto rfl ?_
      dsimp only [Shell.goto]
      split <;> exact hm
    · exact k.goto rfl hm
  | lookup h =>
    rw [h] at hm
    rw [Shell.lookup]
    split <;> exact k.goto rfl hm
  | listIds h | listState h | listCmdline h | block h | fork h | forkFailed h | announce h | sigcont h
  | resumed h =>
    rw [h] at hm
    exact k.goto rfl hm
  | addjob h => exact k.add h
  | @unblock pid bg cmdline h =>
    rw [h] at hm
    refine k.goto rfl ?_
    cases bg with
    | true => exact hm
    | false => exact hm
  | @setState fg i h =>
    rw [h] at hm
    have hfg : ∀ j, ((s.table.setState i (if fg then .fg else .bg)).jobs j).state = .fg →
        j = i ∧ fg = true := by
      intro j hj
      by_cases hji : j = i
      · rw [hji, setState_self] at hj
        cases fg with
        | true => exact ⟨hji, rfl⟩
        | false => cases hj
      · rw [setState_of_ne hji] at hj
        exact absurd hj (hm j)
    constructor
    case unique =>
      intro j l hj hl
      rw [(hfg j hj).1, (hfg l hl).1]
    case main =>
      cases fg with
      | true => exact fun j hj => (hfg j hj).1
      | false => exact fun j hj => absurd (hfg j hj).2 (by decide)
  | @enterWait i h =>
    rw [h] at hm
    refine k.goto rfl fun j hj => ?_
    rw [hm j hj]
  | @scan pid i h hfg =>
    rw [h] at hm
    have hi : (s.table.jobs i).state = .fg := by simpa using slotWith_some hfg
    exact k.goto rfl fun j hj => ⟨k.unique j i hj hi, hm j hj⟩
  | @scanNone pid h hfg =>
    have hnone : ∀ j, (s.job j).state ≠ .fg := by
      intro j
      show (s.table.jobs j).state ≠ .fg
      simpa using slotWith_eq_none_iff.mp hfg j
    refine k.goto rfl ?_
    dsimp only [Shell.goto]
    split
    · exact fun j hj => absurd hj (hnone j)
    · exact hnone
  | @compare pid i h =>
    rw [h] at hm
    refine k.goto rfl ?_
    dsimp only [Shell.goto]
    split
    · exact fun j hj => (hm j hj).2
    · next hne =>
      -- the slot that was found is cleared, or it would still hold the process
      intro j hj
      obtain ⟨rfl, hpid⟩ := hm j hj
      exact hne hpid.symm

/-- **The step lemma.** -/
theorem step {a : Action} (k : FgInv s) (h : ShellStep s a s') : FgInv s' := by
  cases h with
  | main hrun hframes h => exact k.mainStep h
  | handler hrun h => exact k.shrink h.fg_slot.1 h.fg_slot.2
  | deliver | sigquit => exact ⟨k.unique, k.main⟩
  | kernel h => cases h <;> exact ⟨k.unique, k.main⟩

end FgInv

/-- **The foreground job.**  In every state of every run at most one slot of the table is `FG`, and
none is when the main loop is about to read a command. -/
theorem one_foreground_job {s : Shell} (hs : shellRuns.Reachable s) :
    (∀ i j, (s.job i).state = .fg → (s.job j).state = .fg → i = j) ∧
      (s.main = .prompt → ∀ i, (s.job i).state ≠ .fg) := by
  have k : FgInv s := by
    refine hs.invariant (fun s h => ?_) fun s a s' k h => k.step h
    rw [h]
    exact fgInv_start
  refine ⟨k.unique, fun hprompt => ?_⟩
  have hm := k.main
  rw [hprompt] at hm
  exact hm

/-- The shell that waits for a foreground job, process 7, which has just been forked. -/
def foreground : Shell :=
  { Shell.start with
    table :=
      { jobs := Function.update initjobs.jobs ⟨0, maxJobs_pos⟩ ⟨7, 1, .fg, "ls"⟩
        nextjid := 2 }
    main := .waitfg 7
    child := Function.update (fun _ => none) 7 (some ⟨.running, false, false⟩)
    phase := Function.update (Function.update (fun _ => .absent) 7 .forked) 7 .added
    last := Function.update (fun _ => none) 7 none }

/-- The main loop gets there in any run that does not restrict it. -/
theorem foreground_reachable {P : Shell → Action → Prop} (hP : ∀ s, P s .main) :
    (shellRuns.restrict P).Reachable foreground := by
  have r0 : (shellRuns.restrict P).Reachable Shell.start := .init rfl
  have r1 := r0.step ⟨hP _, .main rfl rfl (.read rfl (.program false "ls"))⟩
  have r2 := r1.step ⟨hP _, .main rfl rfl (.block rfl)⟩
  have r3 := r2.step ⟨hP _, .main rfl rfl (.fork (p := 7) rfl (by decide) rfl rfl)⟩
  have r4 := r3.step ⟨hP _, .main rfl rfl (.addjob rfl)⟩
  have r5 := r4.step ⟨hP _, .main rfl rfl (.unblock rfl)⟩
  exact r5

/-- The job ends between the scan of `fgpid` and the comparison of `waitfg`. -/
theorem one_foreground_job_ended : ∃ s : Shell, shellRuns.Reachable s ∧ s.main = .prompt ∧
    s.phase 7 = .processed ∧ ∀ i, (s.job i).state ≠ .fg := by
  have r0 : shellRuns.Reachable foreground :=
    (foreground_reachable (P := fun _ _ => True) fun _ => trivial).of_restrict
  have r1 := r0.step (.main rfl rfl (.scan (i := ⟨0, maxJobs_pos⟩) rfl rfl))
  have r2 := r1.step (.kernel (@KernelStep.exit _ 7 _ rfl rfl))
  have r3 := r2.step (@ShellStep.deliver _ .chld rfl rfl rfl (by decide))
  have r4 := r3.step (.handler rfl (@HandlerStep.report _ _ 7 _ rfl rfl trivial))
  have r5 := r4.step (.handler rfl (.record rfl))
  have hnone : ∀ p c, Function.update (Function.update foreground.child 7
      (some ⟨.exited, false, false⟩)) 7 none p = some c → ¬ c.Reportable := by
    intro p c hc
    by_cases hp : p = 7
    · rw [hp, Function.update_self] at hc
      cases hc
    · rw [Function.update_of_ne hp, Function.update_of_ne hp] at hc
      replace hc : Function.update (fun _ => none) 7 _ p = some c := hc
      rw [Function.update_of_ne hp] at hc
      cases hc
  have r6 := r5.step (.handler rfl (.drained rfl hnone))
  have r7 := r6.step (.main rfl rfl (.compare rfl))
  exact ⟨_, r7, rfl, rfl, (one_foreground_job r7).2 rfl⟩

end SystemProgramming.ShellLab
