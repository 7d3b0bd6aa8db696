import SystemProgramming.ShellLab.Children

/-!
# `bg` and `fg` among the reports of the children (`do_bgfg`)

`do_bgfg` keeps a pointer to the slot of a job while it sends `SIGCONT`, assigns the new state and, for
`fg`, reads the process ID that `waitfg` is called with.  The signals are not blocked, so that
`sigchld_handler` may clear the slot or record a stop in it at any of these points.

* `Undisturbed` : no report about the job is processed where it would be lost.
* `ResumeInv` : the invariant of the runs all of whose steps are undisturbed.
* `resume_safe` : what holds in these runs.
* `resume_unsafe` : a run in which the job ends between the search and the assignment.
-/

namespace SystemProgramming.ShellLab

open Transition

/-- The report that `sigchld_handler` is about to process does not concern the job that `do_bgfg` has
its pointer at: no end of it from the search to the call of `waitfg`, and no stop of it between
`SIGCONT` and the assignment. -/
def Undisturbed (s : Shell) (a : Action) : Prop :=
  a = .handler → ∀ p (st : Status) fs, s.frames = .report p st :: fs →
    match s.main with
    | .sigcont _ i | .enterWait i => (s.job i).pid = p → ¬ st.Terminated
    | .setState _ i => (s.job i).pid ≠ p
    | _ => True

/-- What `do_bgfg` may rely on.  At the assignment the slot holds the job that was looked up, and no
stop or end of it has been recorded since `SIGCONT`; a free slot is in no state; a job whose last
recorded status since then is a stop is `ST`, and so is a stopped child whose stop has been reported
and is not in the hands of the handler; `waitfg` is not entered with process ID 0. -/
structure ResumeSafe (s : Shell) : Prop where
  write : ∀ fg i, s.main = .setState fg i → (s.job i).pid = s.found ∧ s.last s.found = none
  free : ∀ i, (s.job i).pid = 0 → (s.job i).state = .undef
  recorded : ∀ p sig i, s.last p = some (.stopped sig) → (s.job i).pid = p → p ≠ 0 →
    (s.job i).state = .st
  stopped : ∀ p c sig i, s.child p = some c → c.status = .stopped sig → c.reported = true →
    (∀ st, Frame.report p st ∉ s.frames) → (s.job i).pid = p → (s.job i).state = .st
  wait : s.main ≠ .waitfg 0

/-! ### Reported stops -/

/-- A reported stop is in the hands of the handler or is the last recorded status, and no process is
in the group of a child that has not made it. -/
structure StopInv (s : Shell) : Prop where
  reported : ∀ p c sig, s.child p = some c → c.status = .stopped sig → c.reported = true →
    (∃ sig', Frame.report p (.stopped sig') ∈ s.frames) ∨ ∃ sig', s.last p = some (.stopped sig')
  leader : ∀ p c, s.others p = true → s.child p = some c → c.leader = true

theorem stopInv_start : StopInv Shell.start :=
  ⟨fun _ _ _ h => (by cases h), fun _ _ _ h => (by cases h)⟩

theorem child_setChild (s : Shell) (p : ℤ) (c : Option Child) (q : ℤ) :
    (s.setChild p c).child q = if q = p then c else s.child q := by
  by_cases hqp : q = p
  · rw [if_pos hqp, hqp]
    exact Function.update_self ..
  · rw [if_neg hqp]
    exact Function.update_of_ne hqp ..

/-- A child after that is the one put there or another one. -/
theorem child_of_setChild {s : Shell} {p q : ℤ} {c : Option Child} {e : Child}
    (h : (s.setChild p c).child q = some e) : q = p ∧ c = some e ∨ s.child q = some e := by
  rw [child_setChild] at h
  by_cases hqp : q = p
  · rw [if_pos hqp] at h
    exact .inl ⟨hqp, h⟩
  · rw [if_neg hqp] at h
    exact .inr h

theorem last_setLast (s : Shell) (p : ℤ) (status : Option Status) (q : ℤ) :
    (s.setLast p status).last q = if q = p then status else s.last q := by
  by_cases hqp : q = p
  · rw [if_pos hqp, hqp]
    exact Function.update_self ..
  · rw [if_neg hqp]
    exact Function.update_of_ne hqp ..

namespace StopInv

variable {s s' : Shell} {p : ℤ} {c d : Child}

/-- A child that is not in a reported stop replaces another with the same group. -/
theorem setChild (k : StopInv s) (h : s.child p = some c) (hlead : c.leader = true → d.leader = true)
    (hstop : ∀ sig, d.status = .stopped sig → d.reported = true →
      c.status = .stopped sig ∧ c.reported = true) : StopInv (s.setChild p (some d)) := by
  constructor
  case reported =>
    intro q e sig he hst hrep
    rcases child_of_setChild he with ⟨rfl, ⟨⟩⟩ | he
    · obtain ⟨hc, hr⟩ := hstop sig hst hrep
      exact k.reported q c sig h hc hr
    · exact k.reported q e sig he hst hrep
  case leader =>
    intro q e ho he
    rcases child_of_setChild he with ⟨rfl, ⟨⟩⟩ | he
    · exact hlead (k.leader q c ho h)
    · exact k.leader q e ho he

theorem congr (k : StopInv s) (h : SameBooks s s') : StopInv s' := by
  constructor
  case reported =>
    rw [h.child, h.frames, h.last]
    exact k.reported
  case leader =>
    rw [h.others, h.child]
    exact k.leader

theorem raise (k : StopInv s) (sig : Signal) : StopInv (s.raise sig) := ⟨k.reported, k.leader⟩

theorem continued_status (c : Child) (sig : ℕ) : c.continued.status ≠ .stopped sig := by
  rw [Child.continued]
  split
  · simp
  · rename_i hne
    intro h
    exact hne sig h

theorem continued_leader (c : Child) : c.continued.leader = c.leader := by
  rw [Child.continued]
  split <;> rfl

theorem kernelStep (k : StopInv s) (h : KernelStep s s') : StopInv s' := by
  cases h with
  | @exit p c h hrun =>
    have hset := k.setChild (d := { c with status := .exited }) h id nofun
    exact hset.raise _
  | @killed p c h hlive sig =>
    have hset := k.setChild (d := { c with status := .signaled sig }) h id nofun
    exact hset.raise _
  | @stop p c h hrun sig =>
    have hset := k.setChild (d := { c with status := .stopped sig, reported := false }) h id
      fun _ _ => nofun
    exact hset.raise _
  | @continued p c h =>
    refine (k.setChild h (fun hl => (continued_leader c).trans hl) fun sig hst => ?_).raise _
    exact absurd hst (continued_status c sig)
  | setpgid h hrun => exact k.setChild h (fun _ => rfl) fun sig hst hrep => ⟨hst, hrep⟩
  | @join g hpos h =>
    refine ⟨k.reported, fun q e ho he => ?_⟩
    replace ho : Function.update s.others g true q = true := ho
    replace he : s.child q = some e := he
    by_cases hqg : q = g
    · rw [hqg] at he
      rcases h with (hzero | ⟨d, hd, hl⟩ | ho') | hnone
      · omega
      · rw [he] at hd
        cases hd
        exact hl
      · exact k.leader g e ho' he
      · rw [he] at hnone
        cases hnone
    · rw [Function.update_of_ne hqg] at ho
      exact k.leader q e ho he
  | leave g =>
    refine ⟨k.reported, fun q e ho he => ?_⟩
    replace ho : Function.update s.others g false q = true := ho
    by_cases hqg : q = g
    · rw [hqg, Function.update_self] at ho
      cases ho
    · rw [Function.update_of_ne hqg] at ho
      exact k.leader q e ho he
  | signal sig => exact k.raise sig

theorem mainStep (k : StopInv s) (b : ShellInv s) (h : MainStep s s') : StopInv s' := by
  cases h.effect with
  | same h => exact k.congr h
  | @fork bg cmdline p hchild hgroup =>
    constructor
    case reported =>
      intro q c sig hc hst hrep
      replace hc : (s.setChild p (some ⟨.running, false, false⟩)).child q = some c := hc
      rw [child_setChild] at hc
      by_cases hqp : q = p
      · rw [if_pos hqp] at hc
        cases hc
        cases hst
      · rw [if_neg hqp] at hc
        apply (k.reported q c sig hc hst hrep).imp id
        intro hlast
        show ∃ sig', (s.setLast p none).last q = some (.stopped sig')
        rw [last_setLast, if_neg hqp]
        exact hlast
    case leader =>
      intro q c ho hc
      replace hc : (s.setChild p (some ⟨.running, false, false⟩)).child q = some c := hc
      rw [child_setChild] at hc
      by_cases hqp : q = p
      · rw [hqp] at ho
        replace ho : s.others p = true := ho
        rw [hgroup] at ho
        cases ho
      · rw [if_neg hqp] at hc
        exact k.leader q c ho hc
  | @sigcont fg i hgroup =>
    have hcases : ∀ q c, (s.continueGroup (s.job i).pid).child q = some c →
        ∃ d, s.child q = some d ∧ c.leader = d.leader ∧ (c = d ∨ ∀ sig, c.status ≠ .stopped sig) ∧
          ((s.job i).pid = q → d.leader = true → ∀ sig, c.status ≠ .stopped sig) := by
      intro q c hc
      obtain ⟨d, hd, rfl⟩ := Option.map_eq_some_iff.mp hc
      refine ⟨d, hd, ?_⟩
      split
      · exact ⟨continued_leader d, Or.inr (continued_status d), fun _ _ => continued_status d⟩
      · rename_i hnot
        exact ⟨rfl, Or.inl rfl, fun he hl => absurd (Or.inr ⟨he, hl⟩) hnot⟩
    constructor
    case reported =>
      intro q c sig hc hst hrep
      obtain ⟨d, hd, -, hsame, hcont⟩ := hcases q c hc
      have hqp : q ≠ (s.job i).pid := by
        intro hq
        refine hcont hq.symm ?_ sig hst
        have hq0 := b.child_pos hd
        rcases hgroup with hzero | ⟨e, he, hl⟩ | ho
        · omega
        · rw [← hq, hd] at he
          cases he
          exact hl
        · exact k.leader q d (hq ▸ ho) hd
      rcases hsame with rfl | hnot
      · apply (k.reported q c sig hd hst hrep).imp id
        intro hlast
        show ∃ sig', (s.setLast (s.job i).pid none).last q = some (.stopped sig')
        rw [last_setLast, if_neg hqp]
        exact hlast
      · exact absurd hst (hnot sig)
    case leader =>
      intro q c ho hc
      obtain ⟨d, hd, hlead, -⟩ := hcases q c hc
      rw [hlead]
      exact k.leader q d ho hd
  | addjob h =>
    rw [Shell.add]
    split
    · exact ⟨k.reported, k.leader⟩
    · split <;> exact ⟨k.reported, k.leader⟩
  | setState => exact ⟨k.reported, k.leader⟩

/-- A handler without a report of a stop is replaced or returns. -/
theorem reframe {f : Frame} {fs frames : List Frame} (k : StopInv s) (h : s.frames = f :: fs)
    (hf : ∀ p sig, f ≠ .report p (.stopped sig)) (hsub : ∀ g ∈ fs, g ∈ frames) :
    StopInv { s with frames := frames } := by
  refine ⟨fun p c sig hc hst hrep => ?_, k.leader⟩
  refine (k.reported p c sig hc hst hrep).imp (fun hin => ?_) id
  obtain ⟨sig', hin⟩ := hin
  rw [h] at hin
  rcases List.mem_cons.mp hin with he | hin
  · exact absurd he.symm (hf p _)
  · exact ⟨sig', hsub _ hin⟩

theorem wait {fs : List Frame} (k : StopInv s) (h : s.frames = .reap :: fs)
    (hchild : s.child p = some c) : StopInv (s.wait p c fs) := by
  -- what the invariant says of the other children
  have hother : ∀ q e sig, s.child q = some e → e.status = .stopped sig → e.reported = true →
      (∃ sig', Frame.report q (.stopped sig') ∈ Frame.report p c.status :: fs) ∨
      ∃ sig', s.last q = some (.stopped sig') := by
    intro q e sig he hst hrep
    refine (k.reported q e sig he hst hrep).imp (fun hin => ?_) id
    obtain ⟨sig', hin⟩ := hin
    rw [h] at hin
    rcases List.mem_cons.mp hin with hhead | hin
    · cases hhead
    · exact ⟨sig', List.mem_cons_of_mem _ hin⟩
  rw [Shell.wait]
  split
  · constructor
    case reported =>
      intro q e sig he hst hrep
      rcases child_of_setChild he with ⟨_, ⟨⟩⟩ | he
      exact hother q e sig he hst hrep
    case leader =>
      intro q e ho he
      rcases child_of_setChild he with ⟨_, ⟨⟩⟩ | he
      exact k.leader q e ho he
  · constructor
    case reported =>
      intro q e sig he hst hrep
      rcases child_of_setChild he with ⟨rfl, ⟨⟩⟩ | he
      · replace hst : c.status = .stopped sig := hst
        rw [hst]
        exact Or.inl ⟨sig, List.mem_cons_self⟩
      · exact hother q e sig he hst hrep
    case leader =>
      intro q e ho he
      rcases child_of_setChild he with ⟨rfl, ⟨⟩⟩ | he
      · exact k.leader q c ho hchild
      · exact k.leader q e ho he

/-- A report is processed: its stop, if it is one, is the last recorded status. -/
theorem processed {fs : List Frame} {st : Status} {table : JobTable} {out : List Message}
    {phase : ℤ → Phase} (k : StopInv s) (b : ShellInv s) (h : s.frames = .report p st :: fs)
    (hrun : st ≠ .running) : StopInv { s.setLast p (some st) with
      table := table, out := out, phase := phase, frames := .reap :: fs } := by
  refine ⟨fun q e sig he hst hrep => ?_, k.leader⟩
  show (∃ sig', Frame.report q (.stopped sig') ∈ Frame.reap :: fs) ∨
    ∃ sig', (s.setLast p (some st)).last q = some (.stopped sig')
  rw [last_setLast]
  by_cases hqp : q = p
  · -- a child whose stop is known has not ended
    have hnot : ¬ st.Terminated := by
      intro hterm
      have hnone := b.child_of_report (by rw [h]; exact List.mem_cons_self) hterm
      replace he : s.child q = some e := he
      rw [hqp, hnone] at he
      cases he
    cases st with
    | stopped sig' => exact Or.inr ⟨sig', if_pos hqp⟩
    | exited | signaled => exact absurd trivial hnot
    | running => exact absurd rfl hrun
  · rw [if_neg hqp]
    refine (k.reported q e sig he hst hrep).imp (fun hin => ?_) id
    obtain ⟨sig', hin⟩ := hin
    rw [h] at hin
    rcases List.mem_cons.mp hin with hhead | hin
    · cases hhead
      exact absurd rfl hqp
    · exact ⟨sig', List.mem_cons_of_mem _ hin⟩

theorem handlerStep (k : StopInv s) (b : ShellInv s) (h : HandlerStep s s') : StopInv s' := by
  cases h with
  | report h hchild hreport => exact k.wait h hchild
  | @record fs p st h =>
    cases st with
    | stopped sig =>
      rw [Shell.record]
      split
      · exact k.processed b h (by simp)
      · exact ⟨k.reported, k.leader⟩
    | signaled sig => exact k.processed b h (by simp)
    | exited => exact k.processed b h (by simp)
    | running => exact k.reframe h (by simp) fun g hg => List.mem_cons_of_mem _ hg
  | drained h hnone => exact k.reframe h (by simp) fun g hg => hg
  | scan h hfg => exact k.reframe h (by simp) fun g hg => List.mem_cons_of_mem _ hg
  | scanNone h hfg => exact k.reframe h (by simp) fun g hg => hg
  | read h =>
    apply k.reframe h (by simp)
    intro g hg
    split
    · exact List.mem_cons_of_mem _ hg
    · exact hg
  | kill h hgroup => exact k.reframe h (by simp) fun g hg => hg
  | killFailed h hgroup => exact ⟨k.reported, k.leader⟩

/-- **The step lemma** of reported stops. -/
theorem step {a : Action} (k : StopInv s) (b : ShellInv s) (h : ShellStep s a s') : StopInv s' := by
  cases h with
  | main hrun hframes h => exact k.mainStep b h
  | handler hrun h => exact k.handlerStep b h
  | deliver hrun hpending hblocked hown =>
    refine ⟨fun q c sig hc hst hrep => ?_, k.leader⟩
    refine (k.reported q c sig hc hst hrep).imp (fun hin => ?_) id
    obtain ⟨sig', hin⟩ := hin
    exact ⟨sig', List.mem_cons_of_mem _ hin⟩
  | kernel h => exact k.kernelStep h
  | sigquit hrun => exact ⟨k.reported, k.leader⟩

end StopInv

/-! ### The slot of the job -/

/-- What the main loop relies on where it is. -/
def MainPc.Relies (job : Fin maxJobs → Job) (found : ℤ) (last : ℤ → Option Status) : MainPc → Prop
  | .sigcont _ i => (job i).pid = found ∧ 0 < found
  | .setState _ i => (job i).pid = found ∧ 0 < found ∧ last found = none
  | .enterWait i => 0 < (job i).pid
  | .waitfg q | .compare q _ | .unblock q _ _ => q ≠ 0
  | .addjob q _ _ => q ≠ 0 ∧ (0 < q → last q = none)
  | _ => True

/-- Free slots are cleared, recorded stops are in the table, and the main loop finds what it relies
on. -/
structure ResumeInv (s : Shell) : Prop where
  free : ∀ i, (s.job i).pid = 0 → s.job i = clearjob
  recorded : ∀ p sig i, s.last p = some (.stopped sig) → (s.job i).pid = p → p ≠ 0 →
    (s.job i).state = .st
  relies : s.main.Relies s.job s.found s.last

theorem resumeInv_start : ResumeInv Shell.start :=
  ⟨fun _ _ => rfl, fun _ _ _ h => (by cases h), trivial⟩

namespace ResumeInv

variable {s s' : Shell} {pc : MainPc} {p : ℤ} {i : Fin maxJobs}

theorem halt (k : ResumeInv s) (h : Halt) : ResumeInv (s.halt h) := ⟨k.free, k.recorded, k.relies⟩

theorem print (k : ResumeInv s) (m : Message) : ResumeInv (s.print m) :=
  ⟨k.free, k.recorded, k.relies⟩

theorem goto (k : ResumeInv s) (h : pc.Relies s.job s.found s.last) : ResumeInv (s.goto pc) :=
  ⟨k.free, k.recorded, h⟩

theorem lookup (k : ResumeInv s) (b : ShellInv s) (fg : Bool) (id : JobArg) :
    ResumeInv (s.lookup fg id) := by
  rw [Shell.lookup]
  split
  · rename_i i hi
    refine ⟨k.free, k.recorded, rfl, ?_⟩
    show 0 < (s.job i).pid
    have hnonneg : 0 ≤ (s.job i).pid := b.books.nonneg i
    cases id with
    | jid n =>
      obtain ⟨hpos, hjid⟩ := getjobjid_some hi
      have hfree : (s.job i).pid ≠ 0 := by
        intro hzero
        have hclear : (s.table.jobs i).jid = 0 := congrArg Job.jid (k.free i hzero)
        omega
      omega
    | pid n =>
      obtain ⟨hpos, hpid⟩ := getjobpid_some hi
      replace hpid : (s.job i).pid = n := hpid
      omega
    | missing | invalid => cases hi
  · exact (k.print _).goto trivial

theorem add {bg : Bool} {cmdline : String} (k : ResumeInv s) (h : s.main = .addjob p bg cmdline) :
    ResumeInv (s.add p bg cmdline) := by
  have hrel := k.relies
  rw [h] at hrel
  obtain ⟨hp, hlast⟩ := hrel
  rw [Shell.add]
  split
  · rename_i t ht
    obtain ⟨hpos, -⟩ := addjob_some ht
    obtain ⟨m, hm, hself, hother⟩ := addjob_slots ht
    constructor
    case free =>
      intro j hj
      replace hj : (t.jobs j).pid = 0 := hj
      show t.jobs j = clearjob
      by_cases hjm : j = m
      · rw [hjm, hself] at hj
        exact absurd hj hp
      · rw [hother j hjm] at hj ⊢
        exact k.free j hj
    case recorded =>
      intro q sig j hq hj hq0
      replace hq : s.last q = some (.stopped sig) := hq
      replace hj : (t.jobs j).pid = q := hj
      show (t.jobs j).state = .st
      by_cases hjm : j = m
      · rw [hjm, hself] at hj
        replace hj : p = q := hj
        rw [← hj, hlast (by omega)] at hq
        cases hq
      · rw [hother j hjm] at hj ⊢
        exact k.recorded q sig j hq hj hq0
    case relies => exact hp
  · refine ResumeInv.goto ?_ hp
    split
    · exact k
    · exact k.print _

theorem mainStep (k : ResumeInv s) (b : ShellInv s) (h : MainStep s s') : ResumeInv s' := by
  have hrel := k.relies
  cases h with
  | eof h => exact k.halt _
  | read h cmd =>
    cases cmd with
    | blank | quit => exact k.halt _
    | jobs | bgfg | program => exact k.goto trivial
  | list h =>
    rw [Shell.listjob]
    split
    · apply k.goto
      split <;> exact trivial
    · exact k.goto trivial
  | listIds h | listState h | listCmdline h => exact (k.print _).goto trivial
  | block h => exact ⟨k.free, k.recorded, trivial⟩
  | @fork bg cmdline p h hpos hchild hgroup =>
    refine ⟨k.free, fun q sig j hq hj hq0 => ?_, by omega, fun _ => Function.update_self ..⟩
    replace hq : (s.setLast p none).last q = some (.stopped sig) := hq
    rw [last_setLast] at hq
    by_cases hqp : q = p
    · rw [if_pos hqp] at hq
      cases hq
    · rw [if_neg hqp] at hq
      exact k.recorded q sig j hq hj hq0
  | forkFailed h => exact k.goto ⟨by decide, fun hpos => absurd hpos (by decide)⟩
  | addjob h => exact k.add h
  | @unblock pid bg cmdline h =>
    rw [h] at hrel
    refine ⟨k.free, k.recorded, ?_⟩
    cases bg with
    | true => exact trivial
    | false => exact hrel
  | announce h => exact (k.print _).goto trivial
  | lookup h => exact k.lookup b _ _
  | @sigcont fg i h hgroup =>
    rw [h] at hrel
    obtain ⟨hfound, hpos⟩ := hrel
    refine ⟨k.free, fun q sig j hq hj hq0 => ?_, hfound, hpos, ?_⟩
    · replace hq : (s.setLast (s.job i).pid none).last q = some (.stopped sig) := hq
      rw [last_setLast] at hq
      by_cases hqp : q = (s.job i).pid
      · rw [if_pos hqp] at hq
        cases hq
      · rw [if_neg hqp] at hq
        exact k.recorded q sig j hq hj hq0
    · show (s.setLast (s.job i).pid none).last s.found = none
      rw [last_setLast, if_pos hfound.symm]
  | sigcontFailed h hgroup => exact k.halt _
  | @setState fg i h =>
    rw [h] at hrel
    obtain ⟨hfound, hpos, hlast⟩ := hrel
    constructor
    case free =>
      intro j hj
      replace hj : ((s.table.setState i (if fg then .fg else .bg)).jobs j).pid = 0 := hj
      rw [setState_pid] at hj
      have hji : j ≠ i := by
        intro he
        rw [he] at hj
        replace hj : (s.job i).pid = 0 := hj
        omega
      exact (setState_of_ne hji).trans (k.free j hj)
    case recorded =>
      intro q sig j hq hj hq0
      replace hj : ((s.table.setState i (if fg then .fg else .bg)).jobs j).pid = q := hj
      rw [setState_pid] at hj
      have hji : j ≠ i := by
        intro he
        rw [he] at hj
        replace hq : s.last q = some (.stopped sig) := hq
        replace hj : (s.job i).pid = q := hj
        rw [← hj, hfound, hlast] at hq
        cases hq
      exact (congrArg Job.state (setState_of_ne hji)).trans (k.recorded q sig j hq hj hq0)
    case relies =>
      cases fg with
      | true =>
        show 0 < ((s.table.setState i .fg).jobs i).pid
        rw [setState_pid]
        replace hfound : (s.table.jobs i).pid = s.found := hfound
        omega
      | false => exact trivial
  | resumed h => exact (k.print _).goto trivial
  | @enterWait i h =>
    rw [h] at hrel
    replace hrel : 0 < (s.job i).pid := hrel
    apply k.goto
    show (s.job i).pid ≠ 0
    omega
  | scan h hfg =>
    rw [h] at hrel
    exact k.goto hrel
  | scanNone h hfg =>
    rw [h] at hrel
    rw [if_neg hrel]
    exact k.goto trivial
  | compare h =>
    rw [h] at hrel
    apply k.goto
    split
    · exact hrel
    · exact trivial

/-- A handler keeps what the main loop relies on where it leaves the process ID in the slot, and at
the assignment also the last status. -/
theorem relies_of_handler {job' : Fin maxJobs → Job} {last' : ℤ → Option Status} (k : ResumeInv s)
    (hwin : ¬ s.main.InWindow)
    (hpid : ∀ fg i, s.main = .sigcont fg i ∨ s.main = .setState fg i ∨ s.main = .enterWait i →
      (job' i).pid = (s.job i).pid)
    (hlast : ∀ fg i, s.main = .setState fg i → last' s.found = s.last s.found) :
    s.main.Relies job' s.found last' := by
  have hrel := k.relies
  cases hm : s.main with
  | sigcont fg i =>
    rw [hm] at hrel
    obtain ⟨hfound, hpos⟩ := hrel
    exact ⟨(hpid fg i (Or.inl hm)).trans hfound, hpos⟩
  | setState fg i =>
    rw [hm] at hrel
    obtain ⟨hfound, hpos, hnone⟩ := hrel
    exact ⟨(hpid fg i (Or.inr (Or.inl hm))).trans hfound, hpos, (hlast fg i hm).trans hnone⟩
  | enterWait i =>
    rw [hm] at hrel
    show 0 < (job' i).pid
    rw [hpid true i (Or.inr (Or.inr hm))]
    exact hrel
  | waitfg | compare =>
    rw [hm] at hrel
    exact hrel
  | addjob | unblock =>
    rw [hm] at hwin
    exact absurd trivial hwin
  | prompt | list | listIds | listState | listCmdline | block | fork | announce | lookup | resumed =>
    exact trivial

/-- The assignment is to another job's slot, so that the last status of the job stays. -/
theorem last_of_ne {status : Option Status} (k : ResumeInv s)
    (hne : ∀ fg i, s.main = .setState fg i → (s.job i).pid ≠ p) (fg : Bool) (i : Fin maxJobs)
    (hm : s.main = .setState fg i) : (s.setLast p status).last s.found = s.last s.found := by
  have hrel := k.relies
  rw [hm] at hrel
  rw [last_setLast, if_neg]
  rw [← hrel.1]
  exact hne fg i hm

/-- A stop is recorded that does not concern the job at the assignment. -/
theorem recordStop {fs : List Frame} {sig : ℕ} {out : List Message} (k : ResumeInv s)
    (b : ShellInv s) (h : s.frames = .report p (.stopped sig) :: fs)
    (hi : getjobpid p s.table = some i)
    (hne : ∀ fg i, s.main = .setState fg i → (s.job i).pid ≠ p) :
    ResumeInv { s.setLast p (some (.stopped sig)) with
      table := s.table.setState i .st, out := out, frames := .reap :: fs } := by
  obtain ⟨hpos, hip⟩ := getjobpid_some hi
  constructor
  case free =>
    intro j hj
    replace hj : ((s.table.setState i .st).jobs j).pid = 0 := hj
    rw [setState_pid] at hj
    have hji : j ≠ i := by
      intro he
      rw [he] at hj
      omega
    exact (setState_of_ne hji).trans (k.free j hj)
  case recorded =>
    intro q sig' j hq hj hq0
    replace hj : ((s.table.setState i .st).jobs j).pid = q := hj
    replace hq : (s.setLast p (some (.stopped sig))).last q = some (.stopped sig') := hq
    rw [setState_pid] at hj
    rw [last_setLast] at hq
    show ((s.table.setState i .st).jobs j).state = .st
    by_cases hji : j = i
    · rw [hji, setState_self]
    · have hqp : q ≠ p := by
        intro he
        refine hji (b.books.unique j i ?_ ?_)
        · show (s.table.jobs j).pid ≠ 0
          rw [hj]
          exact hq0
        · show (s.table.jobs j).pid = (s.table.jobs i).pid
          rw [hj, hip, he]
      rw [if_neg hqp] at hq
      rw [setState_of_ne hji]
      exact k.recorded q sig' j hq hj hq0
  case relies =>
    exact k.relies_of_handler (b.notWindow h) (fun _ j _ => setState_pid j) (k.last_of_ne hne)

/-- The end of a job is recorded that `do_bgfg` has no pointer at. -/
theorem recordEnd {fs : List Frame} {st : Status} {out : List Message} {phase : ℤ → Phase}
    (k : ResumeInv s) (b : ShellInv s) (h : s.frames = .report p st :: fs) (hterm : st.Terminated)
    (hne : ∀ fg i, s.main = .sigcont fg i ∨ s.main = .setState fg i ∨ s.main = .enterWait i →
      (s.job i).pid ≠ p) :
    ResumeInv { s.setLast p (some st) with
      table := (deletejob p s.table).getD s.table, out := out, phase := phase,
      frames := .reap :: fs } := by
  constructor
  case free =>
    intro j hj
    rcases deletejob_job p s.table j with hsame | ⟨hclear, -⟩
    · replace hj : (((deletejob p s.table).getD s.table).jobs j).pid = 0 := hj
      rw [hsame] at hj
      exact hsame.trans (k.free j hj)
    · exact hclear
  case recorded =>
    intro q sig j hq hj hq0
    replace hj : (((deletejob p s.table).getD s.table).jobs j).pid = q := hj
    replace hq : (s.setLast p (some st)).last q = some (.stopped sig) := hq
    rw [last_setLast] at hq
    show (((deletejob p s.table).getD s.table).jobs j).state = .st
    by_cases hqp : q = p
    · rw [if_pos hqp] at hq
      cases hq
      exact absurd hterm id
    · rw [if_neg hqp] at hq
      rcases deletejob_job p s.table j with hsame | ⟨hclear, -⟩
      · rw [hsame] at hj ⊢
        exact k.recorded q sig j hq hj hq0
      · rw [hclear] at hj
        exact absurd hj.symm hq0
  case relies =>
    refine k.relies_of_handler (b.notWindow h) (fun fg j hm => ?_)
      (k.last_of_ne fun fg j hm => hne fg j (Or.inr (Or.inl hm)))
    exact congrArg Job.pid (deletejob_job_of_ne (hne fg j hm))

theorem record {fs : List Frame} {st : Status} (k : ResumeInv s) (b : ShellInv s)
    (h : s.frames = .report p st :: fs) (hu : Undisturbed s .handler) :
    ResumeInv (s.record p fs st) := by
  have hu := hu rfl p st fs h
  have hstop : ∀ fg i, s.main = .setState fg i → (s.job i).pid ≠ p := by
    intro fg i hm
    rw [hm] at hu
    exact hu
  have hend : st.Terminated →
      ∀ fg i, s.main = .sigcont fg i ∨ s.main = .setState fg i ∨ s.main = .enterWait i →
        (s.job i).pid ≠ p := by
    intro hterm fg i hm
    rcases hm with hm | hm | hm
    · rw [hm] at hu
      exact fun hp => hu hp hterm
    · exact hstop fg i hm
    · rw [hm] at hu
      exact fun hp => hu hp hterm
  cases st with
  | stopped sig =>
    rw [Shell.record]
    split
    · rename_i i hi
      exact k.recordStop b h hi hstop
    · exact k.halt _
  | signaled sig => exact k.recordEnd b h trivial (hend trivial)
  | exited => exact k.recordEnd b h trivial (hend trivial)
  | running => exact ⟨k.free, k.recorded, k.relies⟩

/-- **The step lemma.** -/
theorem step {a : Action} (k : ResumeInv s) (b : ShellInv s) (hu : Undisturbed s a)
    (h : ShellStep s a s') : ResumeInv s' := by
  cases h with
  | main hrun hframes h => exact k.mainStep b h
  | handler hrun h =>
    cases h with
    | @report fs p c h hchild hreport =>
      rw [Shell.wait]
      split <;> exact ⟨k.free, k.recorded, k.relies⟩
    | record h => exact k.record b h hu
    | killFailed => exact k.halt _
    | drained | scan | scanNone | read | kill => exact ⟨k.free, k.recorded, k.relies⟩
  | deliver => exact ⟨k.free, k.recorded, k.relies⟩
  | kernel h => cases h <;> exact ⟨k.free, k.recorded, k.relies⟩
  | sigquit => exact k.halt _

end ResumeInv

/-! ### Runs -/

theorem stopInv_of_reachable {s : Shell} (hs : shellRuns.Reachable s) : StopInv s := by
  refine (hs.invariant (P := fun s => ShellInv s ∧ StopInv s) (fun s h => ?_) ?_).2
  · rw [h]
    exact ⟨shellInv_start, stopInv_start⟩
  · intro s a s' k h
    exact ⟨k.1.step h, k.2.step k.1 h⟩

theorem resumeInv_of_reachable {s : Shell} (hs : (shellRuns.restrict Undisturbed).Reachable s) :
    ResumeInv s := by
  refine (hs.invariant (P := fun s => ShellInv s ∧ ResumeInv s) (fun s h => ?_) ?_).2
  · rw [h]
    exact ⟨shellInv_start, resumeInv_start⟩
  · intro s a s' k h
    exact ⟨k.1.step h.2, k.2.step k.1 h.1 h.2⟩

/-- **`bg` and `fg`, undisturbed.**  In every state of every run in which no report about the job of
`do_bgfg` is processed where it would be lost, `do_bgfg` may rely on its pointer and the states in the
table agree with the reports. -/
theorem resume_safe {s : Shell} (hs : (shellRuns.restrict Undisturbed).Reachable s) :
    ResumeSafe s := by
  have b := shellInv_of_reachable hs.of_restrict
  have st := stopInv_of_reachable hs.of_restrict
  have k := resumeInv_of_reachable hs
  have hrel := k.relies
  constructor
  case write =>
    intro fg i hm
    rw [hm] at hrel
    exact ⟨hrel.1, hrel.2.2⟩
  case free =>
    intro i hi
    exact congrArg Job.state (k.free i hi)
  case recorded => exact k.recorded
  case stopped =>
    intro p c sig i hc hst hrep hnone hi
    have hpos := b.child_pos hc
    rcases st.reported p c sig hc hst hrep with ⟨sig', hin⟩ | ⟨sig', hlast⟩
    · exact absurd hin (hnone _)
    · exact k.recorded p sig' i hlast hi (by omega)
  case wait =>
    intro hm
    rw [hm] at hrel
    exact hrel rfl

/-- A step of another party than the handlers is undisturbed. -/
theorem reachable_step {s s' : Shell} {a : Action} (r : (shellRuns.restrict Undisturbed).Reachable s)
    (h : ShellStep s a s') (ha : a ≠ .handler) : (shellRuns.restrict Undisturbed).Reachable s' :=
  r.step ⟨fun he => absurd he ha, h⟩

/-- The shell with one background job, process 7, at its prompt. -/
def background : Shell :=
  { Shell.start with
    table :=
      { jobs := Function.update initjobs.jobs ⟨0, maxJobs_pos⟩ ⟨7, 1, .bg, "sleep 9 &"⟩
        nextjid := 2 }
    out := [.started 1 7 "sleep 9 &"]
    child := Function.update (Function.update (fun _ => none) 7 (some ⟨.running, false, false⟩)) 7
      (some ⟨.running, false, true⟩)
    phase := Function.update (Function.update (fun _ => .absent) 7 .forked) 7 .added
    last := Function.update (fun _ => none) 7 none }

theorem background_reachable : (shellRuns.restrict Undisturbed).Reachable background := by
  have r0 : (shellRuns.restrict Undisturbed).Reachable Shell.start := .init rfl
  have r1 := reachable_step r0 (.main rfl rfl (.read rfl (.program true "sleep 9 &"))) (by decide)
  have r2 := reachable_step r1 (.main rfl rfl (.block rfl)) (by decide)
  have r3 := reachable_step r2 (.main rfl rfl (.fork (p := 7) rfl (by decide) rfl rfl)) (by decide)
  have r4 := reachable_step r3 (.kernel (@KernelStep.setpgid _ 7 _ rfl rfl)) (by decide)
  have r5 := reachable_step r4 (.main rfl rfl (.addjob rfl)) (by decide)
  have r6 := reachable_step r5 (.main rfl rfl (.unblock rfl)) (by decide)
  have r7 := reachable_step r6 (.main rfl rfl (.announce rfl)) (by decide)
  exact r7

/-- `fg` of a background job that is stopped while `waitfg` waits for it. -/
theorem resume_safe_stopped : ∃ s : Shell, s.main = .waitfg 7 ∧
    s.frames = [.report 7 (.stopped 20)] ∧ ResumeSafe s := by
  have r0 := background_reachable
  have r1 := reachable_step r0 (.main rfl rfl (.read rfl (.bgfg true (.jid 1)))) (by decide)
  have r2 := reachable_step r1 (.main rfl rfl (.lookup rfl)) (by decide)
  have r3 := reachable_step r2 (.main rfl rfl (.sigcont rfl (Or.inr (Or.inl ⟨_, rfl, rfl⟩))))
    (by decide)
  have r4 := reachable_step r3 (.main rfl rfl (.setState rfl)) (by decide)
  have r5 := reachable_step r4 (.main rfl rfl (.enterWait rfl)) (by decide)
  have r6 := reachable_step r5 (.kernel (@KernelStep.stop _ 7 _ rfl rfl 20)) (by decide)
  have r7 := reachable_step r6 (@ShellStep.deliver _ .chld rfl rfl rfl (by decide)) (by decide)
  have r8 := r7.step ⟨fun _ _ _ _ h => (by cases h),
    .handler rfl (@HandlerStep.report _ _ 7 _ rfl rfl rfl)⟩
  exact ⟨_, rfl, rfl, resume_safe r8⟩

/-- The job ends after `fg %1` has looked it up: the handler clears the slot, `SIGCONT` goes to the
group of the shell, the free slot gets the state `FG`, and `waitfg` waits for process 0, which is the
foreground job from then on. -/
theorem resume_unsafe : ∃ s : Shell, shellRuns.Reachable s ∧ ¬ ResumeSafe s ∧
    s.main = .waitfg 0 ∧ ∃ i, (s.job i).pid = 0 ∧ (s.job i).state = .fg := by
  have r0 := background_reachable.of_restrict
  have r1 := r0.step (.main rfl rfl (.read rfl (.bgfg true (.jid 1))))
  have r2 := r1.step (.main rfl rfl (.lookup rfl))
  have r3 := r2.step (.kernel (@KernelStep.exit _ 7 _ rfl rfl))
  have r4 := r3.step (@ShellStep.deliver _ .chld rfl rfl rfl (by decide))
  have r5 := r4.step (.handler rfl (@HandlerStep.report _ _ 7 _ rfl rfl trivial))
  have r6 := r5.step (.handler rfl (.record rfl))
  have hnone : ∀ p c, Function.update (Function.update background.child 7
      (some ⟨.exited, false, true⟩)) 7 none p = some c → ¬ c.Reportable := by
    intro p c hc
    by_cases hp : p = 7
    · rw [hp, Function.update_self] at hc
      cases hc
    · rw [Function.update_of_ne hp, Function.update_of_ne hp] at hc
      replace hc : Function.update (Function.update (fun _ => none) 7 _) 7 _ p = some c := hc
      rw [Function.update_of_ne hp, Function.update_of_ne hp] at hc
      cases hc
  have r7 := r6.step (.handler rfl (.drained rfl hnone))
  have r8 := r7.step (.main rfl rfl (.sigcont rfl (Or.inl rfl)))
  have r9 := r8.step (.main rfl rfl (.setState rfl))
  have r10 := r9.step (.main rfl rfl (.enterWait rfl))
  exact ⟨_, r10, fun hsafe => hsafe.wait rfl, rfl, ⟨0, maxJobs_pos⟩, rfl, rfl⟩

end SystemProgramming.ShellLab
