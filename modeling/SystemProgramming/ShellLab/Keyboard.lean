import SystemProgramming.ShellLab.Foreground

/-!
# Keyboard signals and the group of the foreground job

`sigint_handler` and `sigtstp_handler` read the process ID of the foreground slot and pass the signal
on with `kill(-pid, _)`, which fails, and ends the shell, when there is no such group.  The child makes
its group itself, some time after the shell has entered it in the table, and the group of a child that
has ended is gone once `waitpid` has reported it, some time before the slot is cleared.

* `GroupReady` : a keyboard handler reads and uses its target while the group exists.
* `KillInv.step` : every such step keeps the targets of the handlers in progress.
* `keyboard_safe` : what holds in these runs.
* `keyboard_unsafe` : a keyboard signal before the child has called `setpgid`.
-/

namespace SystemProgramming.ShellLab

open Transition

/-- When a keyboard handler reads the process ID in the foreground slot, the process has called
`setpgid` and `waitpid` has not reported its end; and when `sigchld_handler` calls `waitpid` on top of a
keyboard handler that has read a process ID, that process has not ended. -/
def GroupReady (s : Shell) (a : Action) : Prop :=
  a = .handler →
    (∀ sig i fs, s.frames = .read sig i :: fs → 0 < (s.job i).pid →
      ∃ c, s.child (s.job i).pid = some c ∧ c.leader = true) ∧
    ∀ fs, s.frames = .reap :: fs → ∀ sig p, Frame.kill sig p ∈ fs →
      ∀ c, s.child p = some c → ¬ c.status.Terminated

/-- Every process that a keyboard handler in progress is about to signal has a group, and the shell
has not ended in a handler. -/
structure KeyboardSafe (s : Shell) : Prop where
  target : ∀ sig p, Frame.kill sig p ∈ s.frames → s.GroupExists p
  exit : s.halted = some .unixError → s.frames = []

/-- The processes that the keyboard handlers in progress have read are children with a group of their
own. -/
structure KillInv (s : Shell) : Prop where
  target : ∀ sig p, Frame.kill sig p ∈ s.frames → ∃ c, s.child p = some c ∧ c.leader = true
  exit : s.halted = some .unixError → s.frames = []

theorem killInv_start : KillInv Shell.start := ⟨fun _ _ => nofun, nofun⟩

namespace KillInv

variable {s s' : Shell} {p : ℤ} {f : Frame} {fs : List Frame}

theorem groupExists {sig : Signal} (k : KillInv s) (h : Frame.kill sig p ∈ s.frames) :
    s.GroupExists p := .inr (.inl (k.target sig p h))

/-- A child changes and keeps its group. -/
theorem setChild {c d : Child} (k : KillInv s) (h : s.child p = some c)
    (hlead : c.leader = true → d.leader = true) : KillInv (s.setChild p (some d)) := by
  refine ⟨fun sig q hin => ?_, k.exit⟩
  obtain ⟨e, he, hl⟩ := k.target sig q hin
  show ∃ c, Function.update s.child p (some d) q = some c ∧ c.leader = true
  by_cases hqp : q = p
  · subst hqp
    rw [h] at he
    cases he
    exact ⟨d, Function.update_self .., hlead hl⟩
  · rw [Function.update_of_ne hqp]
    exact ⟨e, he, hl⟩

theorem raise (k : KillInv s) (sig : Signal) : KillInv (s.raise sig) := ⟨k.target, k.exit⟩

theorem kernelStep (k : KillInv s) (h : KernelStep s s') : KillInv s' := by
  cases h with
  | @exit p c h hrun =>
    have hset := k.setChild (d := { c with status := .exited }) h id
    exact hset.raise _
  | @killed p c h hlive sig =>
    have hset := k.setChild (d := { c with status := .signaled sig }) h id
    exact hset.raise _
  | @stop p c h hrun sig =>
    have hset := k.setChild (d := { c with status := .stopped sig, reported := false }) h id
    exact hset.raise _
  | @continued p c h =>
    have hlead : c.leader = true → c.continued.leader = true := by
      intro hl
      rw [Child.continued]
      split <;> exact hl
    exact (k.setChild h hlead).raise _
  | setpgid h hrun => exact k.setChild h fun _ => rfl
  | join | leave => exact ⟨k.target, k.exit⟩
  | signal sig => exact k.raise sig

/-- A handler goes on as `g`, or returns, and the interrupted ones keep their targets. -/
theorem reframe {g : List Frame} (k : KillInv s) (h : s.frames = f :: fs)
    (hframes : s'.frames = g ++ fs) (hexit : s'.halted ≠ some .unixError)
    (hg : ∀ sig p, Frame.kill sig p ∈ g → ∃ c, s'.child p = some c ∧ c.leader = true)
    (hfs : ∀ sig p, Frame.kill sig p ∈ fs → ∀ c, s.child p = some c → c.leader = true →
      ∃ d, s'.child p = some d ∧ d.leader = true) : KillInv s' := by
  refine ⟨fun sig q hin => ?_, fun he => absurd he hexit⟩
  rw [hframes] at hin
  rcases List.mem_append.mp hin with hin | hin
  · exact hg sig q hin
  · have hold : Frame.kill sig q ∈ s.frames := by
      rw [h]
      exact List.mem_cons_of_mem _ hin
    obtain ⟨c, hc, hl⟩ := k.target sig q hold
    exact hfs sig q hin c hc hl

/-- A handler that leaves the children alone goes on as `g`. -/
theorem advance {g : List Frame} (k : KillInv s) (h : s.frames = f :: fs)
    (hframes : s'.frames = g ++ fs) (hexit : s'.halted ≠ some .unixError)
    (hchild : s'.child = s.child) (hg : ∀ sig p, Frame.kill sig p ∉ g) : KillInv s' := by
  refine k.reframe h hframes hexit (fun sig p hin => absurd hin (hg sig p)) fun _ p _ c hc hl => ?_
  rw [hchild]
  exact ⟨c, hc, hl⟩

theorem wait {c : Child} (k : KillInv s) (h : s.frames = .reap :: fs) (hrun : s.halted = none)
    (hchild : s.child p = some c)
    (hready : ∀ sig q, Frame.kill sig q ∈ fs → ∀ c, s.child q = some c → ¬ c.status.Terminated) :
    KillInv (s.wait p c fs) := by
  have hexit : s.halted ≠ some .unixError := by
    rw [hrun]
    simp
  have hg : ∀ (sig : Signal) (q : ℤ), Frame.kill sig q ∉ [Frame.report p c.status] := by
    intro sig q hin
    cases List.mem_singleton.mp hin
  rw [Shell.wait]
  split
  · next hterm =>
    refine k.reframe (g := [.report p c.status]) h rfl hexit
      (fun sig q hin => absurd hin (hg sig q)) fun sig q hin d hd hl => ?_
    -- the child whose end is reported is the target of no handler
    have hqp : q ≠ p := by
      intro he
      subst he
      exact hready sig q hin c hchild hterm
    exact ⟨d, (Function.update_of_ne hqp ..).trans hd, hl⟩
  · refine k.reframe (g := [.report p c.status]) h rfl hexit
      (fun sig q hin => absurd hin (hg sig q)) fun sig q hin d hd hl => ?_
    by_cases hqp : q = p
    · rw [hqp, hchild] at hd
      cases hd
      rw [hqp]
      exact ⟨_, Function.update_self .., hl⟩
    · exact ⟨d, (Function.update_of_ne hqp ..).trans hd, hl⟩

theorem handlerStep (k : KillInv s) (hrun : s.halted = none) (hready : GroupReady s .handler)
    (h : HandlerStep s s') : KillInv s' := by
  obtain ⟨hread, hreap⟩ := hready rfl
  have hexit : s.halted ≠ some .unixError := by
    rw [hrun]
    simp
  cases h with
  | report h hchild hreport => exact k.wait h hrun hchild (hreap _ h)
  | drained h | scanNone h | kill h => exact k.advance (g := []) h rfl hexit rfl (by simp)
  | scan h hfg => exact k.advance (g := [.read _ _]) h rfl hexit rfl (by simp)
  | @record fs p st h =>
    cases st with
    | stopped sig =>
      rw [Shell.record]
      split
      · exact k.advance (g := [.reap]) h rfl hexit rfl (by simp)
      · exact ⟨k.target, by rintro ⟨⟩⟩
    | signaled | exited | running => exact k.advance (g := [.reap]) h rfl hexit rfl (by simp)
  | @read fs sig i h =>
    by_cases hpos : 0 < (s.job i).pid
    · rw [if_pos hpos]
      refine k.reframe (g := [.kill sig (s.job i).pid]) h rfl hexit (fun sig' q hin => ?_)
        fun _ _ _ d hd hl => ⟨d, hd, hl⟩
      cases List.mem_singleton.mp hin
      exact hread sig i fs h hpos
    · rw [if_neg hpos]
      exact k.advance (g := []) h rfl hexit rfl (by simp)
  | @killFailed fs sig p h hgroup =>
    have hin : Frame.kill sig p ∈ s.frames := by
      rw [h]
      exact List.mem_cons_self
    exact absurd (k.groupExists hin) hgroup

/-- **The step lemma.** -/
theorem step {a : Action} (k : KillInv s) (hready : GroupReady s a) (h : ShellStep s a s') :
    KillInv s' := by
  cases h with
  | main hrun hframes h =>
    rw [← h.frames_eq] at hframes
    refine ⟨fun sig p hin => ?_, fun _ => hframes⟩
    rw [hframes] at hin
    cases hin
  | handler hrun h => exact k.handlerStep hrun hready h
  | @deliver sig hrun hpending hblocked hown =>
    refine ⟨fun sig' p hin => ?_, fun he => ?_⟩
    · rcases List.mem_cons.mp hin with he | hin
      · cases sig <;> cases he
      · exact k.target sig' p hin
    · rw [hrun] at he
      cases he
  | kernel h => exact k.kernelStep h
  | sigquit hrun => exact ⟨k.target, nofun⟩

end KillInv

/-- **Keyboard signals.**  In every run in which the keyboard handlers read and use their target while
its group exists, every group they signal exists, and no handler ends the shell. -/
theorem keyboard_safe {s : Shell} (hs : (shellRuns.restrict GroupReady).Reachable s) :
    KeyboardSafe s := by
  have k : KillInv s := by
    refine hs.invariant (fun s h => ?_) fun s a s' k h => k.step h.1 h.2
    rw [h]
    exact killInv_start
  exact ⟨fun _ _ h => k.groupExists h, k.exit⟩

/-- `ctrl-c` at a foreground job that has called `setpgid`. -/
theorem keyboard_safe_leader : ∃ s : Shell, s.frames = [.kill .int 7] ∧ KeyboardSafe s := by
  have hother : ∀ s a, a ≠ .handler → GroupReady s a := fun _ _ ha he => absurd he ha
  have r0 : (shellRuns.restrict GroupReady).Reachable foreground :=
    foreground_reachable fun _ => hother _ _ (by decide)
  have r1 := r0.step ⟨hother _ _ (by decide), .kernel (@KernelStep.setpgid _ 7 _ rfl rfl)⟩
  have r2 := r1.step ⟨hother _ _ (by decide), .kernel (.signal .int)⟩
  have r3 := r2.step ⟨hother _ _ (by decide), @ShellStep.deliver _ .int rfl rfl rfl (by decide)⟩
  have r4 := r3.step ⟨fun _ => ⟨fun _ _ _ => nofun, fun _ => nofun⟩,
    .handler rfl (.scan (i := ⟨0, maxJobs_pos⟩) rfl rfl)⟩
  have hready : ∀ sig i fs, [Frame.read .int (⟨0, maxJobs_pos⟩ : Fin maxJobs)] = .read sig i :: fs →
      0 < (foreground.job i).pid → ∃ c, Function.update foreground.child 7
        (some ⟨.running, false, true⟩) (foreground.job i).pid = some c ∧ c.leader = true := by
    rintro sig i fs ⟨⟩ _
    exact ⟨_, rfl, rfl⟩
  have r5 := r4.step ⟨fun _ => ⟨hready, fun _ => nofun⟩, .handler rfl (.read rfl)⟩
  exact ⟨_, rfl, keyboard_safe r5⟩

/-- **The shell dies of `ctrl-c`.**  The signal arrives when the shell has entered the foreground job
and unblocked the signals, and before the child has called `setpgid`: there is no group to signal. -/
theorem keyboard_unsafe : ∃ s : Shell, shellRuns.Reachable s ∧ ¬ KeyboardSafe s ∧
    s.halted = some .unixError ∧ s.frames = [.kill .int 7] := by
  have r0 : shellRuns.Reachable foreground :=
    (foreground_reachable (P := fun _ _ => True) fun _ => trivial).of_restrict
  have r1 := r0.step (.kernel (.signal .int))
  have r2 := r1.step (@ShellStep.deliver _ .int rfl rfl rfl (by decide))
  have r3 := r2.step (.handler rfl (.scan (i := ⟨0, maxJobs_pos⟩) rfl rfl))
  have r4 := r3.step (.handler rfl (.read rfl))
  have hgroup : ¬ foreground.GroupExists 7 := by
    rintro (hzero | ⟨c, hc, hl⟩ | ho)
    · cases hzero
    · cases hc
      cases hl
    · cases ho
  have r5 := r4.step (.handler rfl (.killFailed rfl hgroup))
  exact ⟨_, r5, fun hsafe => (by cases hsafe.exit rfl), rfl, rfl⟩

end SystemProgramming.ShellLab
