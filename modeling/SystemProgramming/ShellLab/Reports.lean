import Mathlib.Data.Fintype.Card
import SystemProgramming.ShellLab.Children

/-!
# Reports about children without an entry

`eval` ignores the result of `addjob`, so that a child forked while the table is full runs on without
an entry, and `sigchld_handler` looks the entry of every child up that `waitpid` reports.  The job IDs
in messages are read from the table too, by the handler and by the main loop.

* `RoomForChild` : the table has a free slot whenever a child is to be entered.
* `TrackInv.step` : every such step keeps the children and the reports in the table.
* `EntryKept` : the entry of a job is still there when the main loop prints its ID.
* `reports_tracked` : what holds in these runs.
* `reports_untracked` : a full table and a child that stops.
-/

namespace SystemProgramming.ShellLab

open Transition

/-- The job ID in a message. -/
def Message.jid : Message → Option ℤ
  | .listed jid _ | .started jid _ _ | .stopped jid _ _ | .terminated jid _ _ => some jid
  | .listedState .. | .listedCmdline _ | .tooManyJobs | .refused .. => none

/-- The messages of `sigchld_handler`. -/
def Message.ByHandler : Message → Prop
  | .stopped .. | .terminated .. => True
  | _ => False

/-- When `addjob` is called for a child, a slot is free. -/
def RoomForChild (s : Shell) (a : Action) : Prop :=
  a = .main → ∀ p bg cmdline, s.main = .addjob p bg cmdline → 1 ≤ p → ∃ i, (s.job i).pid = 0

/-- The job whose ID the main loop is about to print is there: `fork` has succeeded for a background
command, and `sigchld_handler` does not clear the entry between `SIG_UNBLOCK` and the message of `eval`,
between the search of `bg` and its message, nor between the test of `listjobs` and its line. -/
def EntryKept (s : Shell) (a : Action) : Prop :=
  (a = .main → ∀ p cmdline, s.main = .addjob p true cmdline → 1 ≤ p) ∧
    (a = .handler → ∀ p (st : Status) fs, s.frames = .report p st :: fs → st.Terminated →
      match s.main with
      | .announce q _ => q ≠ p
      | .sigcont false i | .setState false i | .resumed i | .listIds i => (s.job i).pid ≠ p
      | _ => True)

/-- Every child in a report has an entry, which `getjobpid` finds, and `sigchld_handler` has printed no
job ID 0. -/
structure ReportsTracked (s : Shell) : Prop where
  entry : ∀ p st, Frame.report p st ∈ s.frames →
    ∃ i, getjobpid p s.table = some i ∧ (s.job i).pid = p
  said : ∀ m ∈ s.out, m.ByHandler → m.jid ≠ some 0

/-! ### The invariant -/

/-- A child outside the table is on its way into it, and a child in a report is in the table. -/
structure TrackInv (s : Shell) : Prop where
  forked : ∀ p, s.phase p = .forked → ∃ bg cmdline, s.main = .addjob p bg cmdline
  report : ∀ p st, Frame.report p st ∈ s.frames → 0 < p ∧ ∃ i, (s.job i).pid = p
  numbered : Numbered s.table
  said : ∀ m ∈ s.out, m.ByHandler → m.jid ≠ some 0

theorem trackInv_start : TrackInv Shell.start :=
  ⟨fun _ => nofun, fun _ _ => nofun, numbered_initjobs, fun _ => nofun⟩

namespace TrackInv

variable {s s' : Shell} {p : ℤ} {f : Frame} {fs : List Frame} {c : Child}

/-- No handler is in progress. -/
theorem notMem_report {st : Status} (hframes : s.frames = []) : Frame.report p st ∉ s.frames := by
  rw [hframes]
  exact List.not_mem_nil

/-- The main loop goes on from elsewhere than `addjob`. -/
theorem quietly {pc : MainPc} (k : TrackInv s) (h : s.main = pc)
    (hpc : ∀ p bg cmdline, pc ≠ .addjob p bg cmdline) (hframes : s'.frames = [])
    (hphase : s'.phase = s.phase) (hnumbered : Numbered s'.table)
    (hout : ∀ m ∈ s'.out, m ∈ s.out ∨ ¬ m.ByHandler) : TrackInv s' := by
  refine ⟨fun p hp => ?_, fun p st hin => absurd hin (notMem_report hframes), hnumbered,
    fun m hm hby => ?_⟩
  · rw [hphase] at hp
    obtain ⟨bg, cmdline, hadd⟩ := k.forked p hp
    exact absurd (h.symm.trans hadd) (hpc p bg cmdline)
  · exact k.said m ((hout m hm).resolve_right fun hnot => hnot hby) hby

/-- `fork` leaves the child on its way to `addjob`. -/
theorem fork {bg : Bool} {cmdline : String} (k : TrackInv s) (hframes : s.frames = [])
    (h : s.main = .fork bg cmdline) :
    TrackInv ((((s.setChild p (some ⟨.running, false, false⟩)).setPhase p .forked).setLast p
      none).goto (.addjob p bg cmdline)) := by
  refine ⟨fun q hq => ?_, fun q st hin => absurd hin (notMem_report hframes), k.numbered, k.said⟩
  replace hq : (s.setPhase p .forked).phase q = .forked := hq
  rw [phase_setPhase] at hq
  by_cases hqp : q = p
  · rw [hqp]
    exact ⟨bg, cmdline, rfl⟩
  · rw [if_neg hqp] at hq
    obtain ⟨_, _, hadd⟩ := k.forked q hq
    rw [h] at hadd
    cases hadd

/-- `addjob` enters the child, as there is room. -/
theorem add {bg : Bool} {cmdline : String} (k : TrackInv s) (b : ShellInv s)
    (hframes : s.frames = []) (h : s.main = .addjob p bg cmdline)
    (hroom : 1 ≤ p → ∃ i, (s.job i).pid = 0) : TrackInv (s.add p bg cmdline) := by
  have honly : ∀ q, s.phase q = .forked → q = p := by
    intro q hq
    obtain ⟨_, _, hadd⟩ := k.forked q hq
    rw [h] at hadd
    cases hadd
    rfl
  rw [Shell.add]
  split
  · next t ht =>
    refine ⟨fun q hq => ?_, fun q st hin => absurd hin (notMem_report hframes), k.numbered.add ht,
      k.said⟩
    obtain ⟨hqp, hq⟩ := Books.phase_of_update hq (by decide)
    exact absurd (honly q hq) hqp
  · next hnone =>
    -- the failure can only be that of `fork`
    have hneg : p < 1 := by
      rcases addjob_eq_none_iff.mp hnone with hneg | hfull
      · exact hneg
      · by_contra hpos
        obtain ⟨i, hi⟩ := hroom (by omega)
        exact hfull i hi
    have hnot : ∀ q, s.phase q ≠ .forked := by
      intro q hq
      have hpos := b.books.positive q (by rw [hq]; decide)
      rw [honly q hq] at hpos
      omega
    rw [if_pos hneg]
    exact ⟨fun q hq => absurd hq (hnot q), fun q st hin => absurd hin (notMem_report hframes),
      k.numbered, k.said⟩

/-- Printing a message that is not the handler's. -/
theorem mem_print {m m' : Message} (hm : m' ∈ (s.print m).out) (hnot : ¬ m.ByHandler) :
    m' ∈ s.out ∨ ¬ m'.ByHandler := by
  rcases List.mem_append.mp hm with hm | hm
  · exact .inl hm
  · rw [List.mem_singleton.mp hm]
    exact .inr hnot

theorem mainStep (k : TrackInv s) (b : ShellInv s) (hroom : RoomForChild s .main)
    (hframes : s.frames = []) (h : MainStep s s') : TrackInv s' := by
  have hframes' := h.frames_eq.trans hframes
  cases h with
  | read h cmd =>
    cases cmd <;> exact k.quietly h (by simp) hframes' rfl k.numbered fun _ hm => .inl hm
  | fork h => exact k.fork hframes h
  | @addjob p bg cmdline h => exact k.add b hframes h (hroom rfl p bg cmdline h)
  | @list i h =>
    rw [Shell.listjob]
    split
    · exact k.quietly h (by simp) hframes rfl k.numbered fun _ hm => .inl hm
    · exact k.quietly h (by simp) hframes rfl k.numbered fun _ hm => .inl hm
  | lookup h =>
    rw [Shell.lookup]
    split
    · exact k.quietly h (by simp) hframes rfl k.numbered fun _ hm => .inl hm
    · exact k.quietly h (by simp) hframes rfl k.numbered fun _ hm => mem_print hm id
  | listIds h | listState h | listCmdline h | announce h | resumed h =>
    exact k.quietly h (by simp) hframes' rfl k.numbered fun _ hm => mem_print hm id
  | setState h =>
    exact k.quietly h (by simp) hframes' rfl (k.numbered.setState _ _) fun _ hm => .inl hm
  | eof h | block h | forkFailed h | unblock h | sigcont h | sigcontFailed h | enterWait h | scan h
  | scanNone h | compare h =>
    exact k.quietly h (by simp) hframes' rfl k.numbered fun _ hm => .inl hm

/-- While a handler runs, every child is in the table. -/
theorem not_forked (k : TrackInv s) (b : ShellInv s) (h : s.frames = f :: fs) (p : ℤ) :
    s.phase p ≠ .forked := by
  intro hp
  obtain ⟨bg, cmdline, hadd⟩ := k.forked p hp
  have hout := b.notWindow h
  rw [hadd] at hout
  exact hout trivial

theorem wait (k : TrackInv s) (b : ShellInv s) (h : s.frames = .reap :: fs)
    (hchild : s.child p = some c) : TrackInv (s.wait p c fs) := by
  have hnot := k.not_forked b h
  have hpos := b.child_pos hchild
  -- a child that has not ended has been added
  have hentry : ∃ i, (s.job i).pid = p := by
    have halive : (s.child p).isSome = true := by
      rw [hchild]
      rfl
    rcases (b.books.alive_iff p).mp halive with hp | hp
    · exact absurd hp (hnot p)
    · exact b.books.added p hp
  have hreport : ∀ q st, Frame.report q st ∈ Frame.report p c.status :: fs →
      0 < q ∧ ∃ i, (s.job i).pid = q := by
    intro q st hin
    rcases List.mem_cons.mp hin with he | hin
    · cases he
      exact ⟨hpos, hentry⟩
    · apply k.report q st
      rw [h]
      exact List.mem_cons_of_mem _ hin
  rw [Shell.wait]
  split
  · refine ⟨fun q hq => ?_, hreport, k.numbered, k.said⟩
    exact absurd (Books.phase_of_update hq (by decide)).2 (hnot q)
  · exact ⟨fun q hq => absurd hq (hnot q), hreport, k.numbered, k.said⟩

theorem record {st : Status} (k : TrackInv s) (b : ShellInv s) (h : s.frames = .report p st :: fs) :
    TrackInv (s.record p fs st) := by
  have hnot := k.not_forked b h
  obtain ⟨hpos, hentry⟩ := k.report p st (by rw [h]; exact List.mem_cons_self)
  have hnone : ∀ q st', Frame.report q st' ∉ Frame.reap :: fs := by
    intro q st' hin
    rcases List.mem_cons.mp hin with he | hin
    · cases he
    · exact b.notMem_chld h rfl (List.mem_map_of_mem (f := Frame.signal) hin)
  have hprocessed : ∀ q, (s.setPhase p .processed).phase q ≠ .forked := by
    intro q hq
    exact hnot q (Books.phase_of_update hq nofun).2
  have hsaid : ∀ m : Message, m.jid ≠ some 0 → ∀ m' ∈ (s.print m).out, m'.ByHandler →
      m'.jid ≠ some 0 := by
    intro m hm m' hin hby
    rcases List.mem_append.mp hin with hin | hin
    · exact k.said m' hin hby
    · rw [List.mem_singleton.mp hin]
      exact hm
  cases st with
  | stopped sig =>
    rw [Shell.record]
    split
    · next i hi =>
      have hjid : 0 < (s.table.jobs i).jid := by
        apply k.numbered.positive
        rw [(getjobpid_some hi).2]
        omega
      refine ⟨fun q hq => absurd hq (hnot q), fun q st' hin => absurd hin (hnone q st'),
        k.numbered.setState _ _, hsaid _ fun he => ?_⟩
      have hzero : (s.table.jobs i).jid = 0 := Option.some.inj he
      omega
    · exact ⟨fun q hq => absurd hq (hnot q), k.report, k.numbered, k.said⟩
  | signaled sig =>
    have hjid := k.numbered.pid2jid_pos hpos hentry
    refine ⟨fun q hq => absurd hq (hprocessed q), fun q st' hin => absurd hin (hnone q st'),
      k.numbered.deleteD p, hsaid _ fun he => ?_⟩
    have hzero : pid2jid p s.table = 0 := Option.some.inj he
    omega
  | exited =>
    exact ⟨fun q hq => absurd hq (hprocessed q), fun q st' hin => absurd hin (hnone q st'),
      k.numbered.deleteD p, k.said⟩
  | running =>
    exact ⟨fun q hq => absurd hq (hnot q), fun q st' hin => absurd hin (hnone q st'), k.numbered,
      k.said⟩

/-- A handler that touches neither the table nor the children goes on as `g`, or returns. -/
theorem advance {g : List Frame} (k : TrackInv s) (h : s.frames = f :: fs)
    (hg : ∀ p st, Frame.report p st ∉ g) : TrackInv { s with frames := g ++ fs } := by
  refine ⟨k.forked, fun p st hin => ?_, k.numbered, k.said⟩
  rcases List.mem_append.mp hin with hin | hin
  · exact absurd hin (hg p st)
  · apply k.report p st
    rw [h]
    exact List.mem_cons_of_mem _ hin

theorem handlerStep (k : TrackInv s) (b : ShellInv s) (h : HandlerStep s s') : TrackInv s' := by
  cases h with
  | report h hchild hreport => exact k.wait b h hchild
  | record h => exact k.record b h
  | drained h | scanNone h | kill h => exact k.advance (g := []) h fun _ _ => nofun
  | scan h hfg => exact k.advance (g := [.read _ _]) h (by simp)
  | @read fs sig i h =>
    by_cases hpos : 0 < (s.job i).pid
    · rw [if_pos hpos]
      exact k.advance (g := [.kill _ _]) h (by simp)
    · rw [if_neg hpos]
      exact k.advance (g := []) h fun _ _ => nofun
  | killFailed => exact ⟨k.forked, k.report, k.numbered, k.said⟩

/-- **The step lemma.** -/
theorem step {a : Action} (k : TrackInv s) (b : ShellInv s) (hroom : RoomForChild s a)
    (h : ShellStep s a s') : TrackInv s' := by
  cases h with
  | main hrun hframes h => exact k.mainStep b hroom hframes h
  | handler hrun h => exact k.handlerStep b h
  | @deliver sig hrun hpending hblocked hown =>
    refine ⟨k.forked, fun p st hin => ?_, k.numbered, k.said⟩
    rcases List.mem_cons.mp hin with he | hin
    · cases sig <;> cases he
    · exact k.report p st hin
  | kernel h => cases h <;> exact ⟨k.forked, k.report, k.numbered, k.said⟩
  | sigquit => exact ⟨k.forked, k.report, k.numbered, k.said⟩

end TrackInv

/-! ### The messages of the main loop -/

/-- What the main loop relies on where it is about to print a job ID, or will be. -/
def MainPc.Announces (job : Fin maxJobs → Job) : MainPc → Prop
  | .unblock q true _ | .announce q _ => 0 < q ∧ ∃ i, (job i).pid = q
  | .sigcont false i | .setState false i | .resumed i | .listIds i => (job i).pid ≠ 0
  | _ => True

/-- The entry that the main loop is about to announce is there, and no job ID 0 has been printed. -/
structure AnnounceInv (s : Shell) : Prop where
  main : s.main.Announces s.job
  said : ∀ m ∈ s.out, m.jid ≠ some 0

/-- The main loop relies on the process IDs alone. -/
theorem MainPc.announces_congr {job job' : Fin maxJobs → Job} (pc : MainPc)
    (hpid : ∀ i, (job' i).pid = (job i).pid) : pc.Announces job' ↔ pc.Announces job := by
  unfold MainPc.Announces
  simp only [hpid]

namespace AnnounceInv

variable {s s' : Shell} {p : ℤ} {fs : List Frame}

theorem print {m : Message} (k : AnnounceInv s) (hm : m.jid ≠ some 0) :
    ∀ m' ∈ (s.print m).out, m'.jid ≠ some 0 := by
  intro m' hin
  rcases List.mem_append.mp hin with hin | hin
  · exact k.said m' hin
  · rw [List.mem_singleton.mp hin]
    exact hm

/-- A positive job ID in a message. -/
theorem jid_ne_zero {j : ℤ} (h : 0 < j) : some j ≠ some 0 := by
  intro he
  cases he
  exact absurd h (lt_irrefl 0)

theorem mainStep (k : AnnounceInv s) (t : TrackInv s) (hroom : RoomForChild s .main)
    (hkept : EntryKept s .main) (h : MainStep s s') : AnnounceInv s' := by
  have hm := k.main
  have hpos : ∀ i, (s.job i).pid ≠ 0 → 0 < (s.job i).jid := t.numbered.positive
  cases h with
  | eof | sigcontFailed => exact ⟨k.main, k.said⟩
  | read h cmd =>
    cases cmd with
    | blank | quit => exact ⟨k.main, k.said⟩
    | jobs | bgfg | program => exact ⟨trivial, k.said⟩
  | @list i h =>
    rw [Shell.listjob]
    split
    · refine ⟨?_, k.said⟩
      dsimp only [Shell.goto]
      split
      · trivial
      · next hocc => exact hocc
    · exact ⟨trivial, k.said⟩
  | @listIds i h =>
    rw [h] at hm
    exact ⟨trivial, k.print (jid_ne_zero (hpos i hm))⟩
  | listState | listCmdline => exact ⟨trivial, k.print (by simp [Message.jid])⟩
  | block | fork | forkFailed | enterWait | scan => exact ⟨trivial, k.said⟩
  | @addjob p bg cmdline h =>
    rw [Shell.add]
    split
    · next t ht =>
      obtain ⟨hp, -⟩ := addjob_some ht
      obtain ⟨i, -, hself, -⟩ := addjob_slots ht
      refine ⟨?_, k.said⟩
      cases bg with
      | false => trivial
      | true =>
        refine ⟨by omega, i, ?_⟩
        show (t.jobs i).pid = p
        rw [hself]
    · next hnone =>
      constructor
      case main =>
        cases bg with
        | false => trivial
        | true =>
          have hp := hkept.1 rfl p cmdline h
          obtain ⟨i, hi⟩ := hroom rfl p true cmdline h hp
          rcases addjob_eq_none_iff.mp hnone with hneg | hfull
          · omega
          · exact absurd hi (hfull i)
      case said =>
        split
        · exact k.said
        · exact k.print (by simp [Message.jid])
  | @unblock pid bg cmdline h =>
    rw [h] at hm
    refine ⟨?_, k.said⟩
    cases bg with
    | true => exact hm
    | false => trivial
  | announce h =>
    rw [h] at hm
    exact ⟨trivial, k.print (jid_ne_zero (t.numbered.pid2jid_pos hm.1 hm.2))⟩
  | @lookup fg id h =>
    rw [Shell.lookup]
    split
    · next i hi =>
      refine ⟨?_, k.said⟩
      have hocc : (s.table.jobs i).pid ≠ 0 := by
        intro hzero
        have hjid := t.numbered.cleared i hzero
        cases id with
        | jid n =>
          have := getjobjid_some hi
          omega
        | pid n =>
          have := getjobpid_some hi
          omega
        | missing | invalid => cases hi
      cases fg with
      | true => trivial
      | false => exact hocc
    · exact ⟨trivial, k.print (by simp [Message.jid])⟩
  | @sigcont fg i h hgroup =>
    rw [h] at hm
    cases fg with
    | true => exact ⟨trivial, k.said⟩
    | false => exact ⟨hm, k.said⟩
  | @setState fg i h =>
    rw [h] at hm
    refine ⟨?_, k.said⟩
    cases fg with
    | true => trivial
    | false =>
      show ((s.table.setState i .bg).jobs i).pid ≠ 0
      rw [setState_pid]
      exact hm
  | @resumed i h =>
    rw [h] at hm
    exact ⟨trivial, k.print (jid_ne_zero (hpos i hm))⟩
  | scanNone | compare =>
    refine ⟨?_, k.said⟩
    dsimp only [Shell.goto]
    split <;> trivial

/-- The entry that is about to be announced is not that of the report. -/
theorem recordEnd {st : Status} (k : AnnounceInv s) (b : ShellInv s)
    (h : s.frames = .report p st :: fs) (hterm : st.Terminated) (hkept : EntryKept s .handler) :
    s.main.Announces ((deletejob p s.table).getD s.table).jobs := by
  have hout := b.notWindow h
  have hm := k.main
  have hne := hkept.2 rfl p st fs h hterm
  have hkeep : ∀ i, (s.job i).pid ≠ p →
      ((deletejob p s.table).getD s.table).jobs i = s.job i := fun i hi => deletejob_job_of_ne hi
  cases hmain : s.main with
  | unblock q bg cmdline =>
    rw [hmain] at hout
    exact absurd trivial hout
  | announce q cmdline =>
    rw [hmain] at hm hne
    obtain ⟨hq, i, hi⟩ := hm
    refine ⟨hq, i, ?_⟩
    rw [hkeep i fun he => hne (hi.symm.trans he)]
    exact hi
  | sigcont fg i | setState fg i =>
    rw [hmain] at hm hne
    cases fg with
    | true => trivial
    | false =>
      show (((deletejob p s.table).getD s.table).jobs i).pid ≠ 0
      rw [hkeep i hne]
      exact hm
  | resumed i | listIds i =>
    rw [hmain] at hm hne
    show (((deletejob p s.table).getD s.table).jobs i).pid ≠ 0
    rw [hkeep i hne]
    exact hm
  | prompt | list | listState | listCmdline | block | fork | addjob | lookup | enterWait | waitfg | compare => trivial

theorem record {st : Status} (k : AnnounceInv s) (b : ShellInv s) (t : TrackInv s)
    (h : s.frames = .report p st :: fs) (hkept : EntryKept s .handler) :
    AnnounceInv (s.record p fs st) := by
  obtain ⟨hp, hentry⟩ := t.report p st (by rw [h]; exact List.mem_cons_self)
  cases st with
  | stopped sig =>
    rw [Shell.record]
    split
    · next i hi =>
      have hocc : (s.table.jobs i).pid ≠ 0 := by
        rw [(getjobpid_some hi).2]
        omega
      refine ⟨?_, k.print (jid_ne_zero (t.numbered.positive i hocc))⟩
      exact (s.main.announces_congr fun j => setState_pid j).mpr k.main
    · exact ⟨k.main, k.said⟩
  | signaled sig =>
    exact ⟨k.recordEnd b h trivial hkept, k.print (jid_ne_zero (t.numbered.pid2jid_pos hp hentry))⟩
  | exited => exact ⟨k.recordEnd b h trivial hkept, k.said⟩
  | running => exact ⟨k.main, k.said⟩

/-- **The step lemma.** -/
theorem step {a : Action} (k : AnnounceInv s) (b : ShellInv s) (t : TrackInv s)
    (hroom : RoomForChild s a) (hkept : EntryKept s a) (h : ShellStep s a s') : AnnounceInv s' := by
  cases h with
  | main hrun hframes h => exact k.mainStep t hroom hkept h
  | handler hrun h =>
    cases h with
    | @report fs p c h hchild hreport =>
      rw [Shell.wait]
      split <;> exact ⟨k.main, k.said⟩
    | record h => exact k.record b t h hkept
    | drained | scan | scanNone | read | kill | killFailed => exact ⟨k.main, k.said⟩
  | kernel h => cases h <;> exact ⟨k.main, k.said⟩
  | deliver | sigquit => exact ⟨k.main, k.said⟩

end AnnounceInv

/-! ### Runs -/

theorem trackInv_of_reachable {s : Shell} (hs : (shellRuns.restrict RoomForChild).Reachable s) :
    TrackInv s := by
  refine (hs.invariant (P := fun s => ShellInv s ∧ TrackInv s) (fun s h => ?_) ?_).2
  · rw [h]
    exact ⟨shellInv_start, trackInv_start⟩
  · intro s a s' k h
    exact ⟨k.1.step h.2, k.2.step k.1 h.1 h.2⟩

/-- **Every report has an entry.**  In every run in which the table has room for every child, the
children in reports have entries and the handler prints no job ID 0; where the jobs that the main loop
prints are still there when it does, no message has the job ID 0. -/
theorem reports_tracked {s : Shell} (hs : (shellRuns.restrict RoomForChild).Reachable s) :
    ReportsTracked s ∧
      ((shellRuns.restrict fun s a => RoomForChild s a ∧ EntryKept s a).Reachable s →
        ∀ m ∈ s.out, m.jid ≠ some 0) := by
  have t := trackInv_of_reachable hs
  refine ⟨⟨fun p st hin => ?_, t.said⟩, fun hs' => ?_⟩
  · obtain ⟨hp, i, hi⟩ := t.report p st hin
    obtain ⟨m, hm⟩ := getjobpid_of_entry (by omega) hi
    exact ⟨m, hm, (getjobpid_some hm).2⟩
  · refine (hs'.invariant (P := fun s => ShellInv s ∧ TrackInv s ∧ AnnounceInv s) (fun s h => ?_)
      ?_).2.2.said
    · rw [h]
      exact ⟨shellInv_start, trackInv_start, trivial, List.forall_mem_nil _⟩
    · rintro s a s' ⟨b, t, k⟩ ⟨⟨hroom, hkept⟩, h⟩
      exact ⟨b.step h, t.step b hroom h, k.step b t hroom hkept h⟩

/-- A background job that is killed while `listjobs` prints it. -/
theorem reports_tracked_terminated : ∃ s : Shell, ReportsTracked s ∧
    s.out = [.started 1 7 "ls &", .listed 1 7, .terminated 1 7 9] ∧ ∀ m ∈ s.out, m.jid ≠ some 0 := by
  have hmain : ∀ s : Shell, (∀ p bg cmdline, s.main ≠ .addjob p bg cmdline) →
      RoomForChild s .main ∧ EntryKept s .main := fun s h =>
    ⟨fun _ p bg cmdline he => absurd he (h p bg cmdline),
      fun _ p cmdline he => absurd he (h p true cmdline), nofun⟩
  have hother : ∀ s a, a ≠ .main → a ≠ .handler → RoomForChild s a ∧ EntryKept s a :=
    fun s a hm hh => ⟨fun he => absurd he hm, fun he => absurd he hm, fun he => absurd he hh⟩
  have r0 : (shellRuns.restrict fun s a => RoomForChild s a ∧ EntryKept s a).Reachable
      Shell.start := .init rfl
  have r1 := r0.step ⟨hmain _ (fun _ _ _ => nofun), .main rfl rfl (.read rfl (.program true "ls &"))⟩
  have r2 := r1.step ⟨hmain _ (fun _ _ _ => nofun), .main rfl rfl (.block rfl)⟩
  have r3 := r2.step ⟨hmain _ (fun _ _ _ => nofun),
    .main rfl rfl (.fork (p := 7) rfl (by decide) rfl rfl)⟩
  have r4 := r3.step (a := .main) ⟨⟨fun _ _ _ _ _ _ => ⟨⟨0, maxJobs_pos⟩, rfl⟩,
    fun _ p _ he => (by cases he; decide), nofun⟩, .main rfl rfl (.addjob rfl)⟩
  have r5 := r4.step ⟨hmain _ (fun _ _ _ => nofun), .main rfl rfl (.unblock rfl)⟩
  have r6 := r5.step ⟨hmain _ (fun _ _ _ => nofun), .main rfl rfl (.announce rfl)⟩
  have l1 := r6.step ⟨hmain _ (fun _ _ _ => nofun), .main rfl rfl (.read rfl .jobs)⟩
  have l2 := l1.step ⟨hmain _ (fun _ _ _ => nofun), .main rfl rfl (.list rfl)⟩
  have l3 := l2.step ⟨hmain _ (fun _ _ _ => nofun), .main rfl rfl (@MainStep.listIds _ ⟨0, maxJobs_pos⟩ rfl)⟩
  have r7 := l3.step ⟨hother _ _ (by decide) (by decide),
    .kernel (@KernelStep.killed _ 7 _ rfl id 9)⟩
  have r8 := r7.step ⟨hother _ _ (by decide) (by decide),
    @ShellStep.deliver _ .chld rfl rfl rfl (by decide)⟩
  have r9 := r8.step (a := .handler) ⟨⟨nofun, nofun, fun _ _ _ _ => nofun⟩,
    .handler rfl (@HandlerStep.report _ _ 7 _ rfl rfl trivial)⟩
  have r10 := r9.step (a := .handler) ⟨⟨nofun, nofun, fun _ _ _ _ _ _ => trivial⟩,
    .handler rfl (.record rfl)⟩
  have h := reports_tracked (r10.restrict_mono fun _ _ h => h.1)
  exact ⟨_, h.1, rfl, h.2 r10⟩

/-! ### A full table -/

/-- The shell at its prompt with `n` background jobs. -/
structure Crowd (n : ℕ) (s : Shell) : Prop where
  reachable : shellRuns.Reachable s
  main : s.main = .prompt
  frames : s.frames = []
  halted : s.halted = none
  free : (Finset.univ.filter fun i => (s.job i).pid = 0).card + n = maxJobs
  fresh : ∀ p : ℤ, n < p → s.child p = none ∧ ∀ i, (s.job i).pid ≠ p
  others : ∀ p, s.others p = false

/-- One more. -/
theorem Crowd.next {n : ℕ} {s : Shell} (k : Crowd n s) (hn : n < maxJobs) :
    ∃ s', Crowd (n + 1) s' := by
  have hnew := k.fresh (n + 1) (by omega)
  have r1 := k.reachable.step (.main k.halted k.frames (.read k.main (.program true "sleep 9 &")))
  have r2 := r1.step (.main k.halted k.frames (.block rfl))
  have r3 := r2.step (.main k.halted k.frames
    (.fork (p := n + 1) rfl (by omega) hnew.1 (k.others _)))
  have r4 := r3.step (.main k.halted k.frames (.addjob rfl))
  rw [Shell.add] at r4
  split at r4
  · next t ht =>
    have r5 := r4.step (.main k.halted k.frames (.unblock rfl))
    have r6 := r5.step (.main k.halted k.frames (.announce rfl))
    obtain ⟨i, hfree, hself, hother⟩ := addjob_slots ht
    refine ⟨_, r6, rfl, k.frames, k.halted, ?_, fun p hp => ⟨?_, fun j => ?_⟩, k.others⟩
    · have hfilter : (Finset.univ.filter fun j => (t.jobs j).pid = 0) =
          (Finset.univ.filter fun j => (s.job j).pid = 0).erase i := by
        ext j
        rw [Finset.mem_erase, Finset.mem_filter_univ, Finset.mem_filter_univ]
        by_cases hji : j = i
        · subst hji
          rw [hself]
          simp
          omega
        · rw [hother j hji]
          simp [hji]
          rfl
      have hmem : i ∈ Finset.univ.filter fun j => (s.job j).pid = 0 := by
        rw [Finset.mem_filter_univ]
        exact hfree
      have hcard := Finset.card_erase_add_one hmem
      have hk := k.free
      show (Finset.univ.filter fun j => (t.jobs j).pid = 0).card + (n + 1) = maxJobs
      rw [hfilter]
      omega
    · replace hp : (n : ℤ) + 1 < p := by exact_mod_cast hp
      exact (Function.update_of_ne (by omega) ..).trans (k.fresh p (by omega)).1
    · replace hp : (n : ℤ) + 1 < p := by exact_mod_cast hp
      show (t.jobs j).pid ≠ p
      by_cases hji : j = i
      · rw [hji, hself]
        exact hp.ne
      · rw [hother j hji]
        exact (k.fresh p (by omega)).2 j
  · next hnone =>
    rcases addjob_eq_none_iff.mp hnone with hneg | hfull
    · omega
    · have hzero : (Finset.univ.filter fun j => (s.job j).pid = 0) = ∅ := by
        rw [Finset.filter_eq_empty_iff]
        exact fun j _ => hfull j
      have hk := k.free
      rw [hzero, Finset.card_empty] at hk
      omega

theorem exists_crowd (n : ℕ) (hn : n ≤ maxJobs) : ∃ s, Crowd n s := by
  induction n with
  | zero =>
    refine ⟨Shell.start, .init rfl, rfl, rfl, rfl, ?_, fun p hp => ⟨rfl, fun i => hp.ne⟩,
      fun _ => rfl⟩
    rfl
  | succ n ih =>
    obtain ⟨s, k⟩ := ih (by omega)
    exact k.next (by omega)

/-- The stop of a process that is not in the table. -/
theorem record_null {s : Shell} {fs : List Frame} {p : ℤ} {sig : ℕ}
    (h : s.frames = .report p (.stopped sig) :: fs) (hnone : getjobpid p s.table = none) :
    HandlerStep s (s.halt .fault) := by
  have hstep := HandlerStep.record h
  rw [Shell.record, hnone] at hstep
  exact hstep

/-- A running child is stopped, and `waitpid` reports the stop. -/
theorem stop_reported {s : Shell} {p : ℤ} (hs : shellRuns.Reachable s) (hrun : s.halted = none)
    (hframes : s.frames = []) (hblocked : s.blocked = false)
    (hchild : s.child p = some ⟨.running, false, false⟩) (sig : ℕ) :
    ∃ s', shellRuns.Reachable s' ∧ s'.frames = [.report p (.stopped sig)] ∧ s'.table = s.table := by
  have hown : Signal.chld ∉ s.frames.map Frame.signal := by
    rw [hframes]
    exact List.not_mem_nil
  have hself : Function.update s.child p (some ⟨.stopped sig, false, false⟩) p =
      some ⟨.stopped sig, false, false⟩ := Function.update_self ..
  have r1 := hs.step (.kernel (.stop hchild rfl sig))
  have r2 := r1.step (@ShellStep.deliver _ .chld hrun rfl hblocked hown)
  have r3 := r2.step (.handler hrun (.report rfl hself rfl))
  exact ⟨_, r3, congrArg (List.cons _) hframes, rfl⟩

/-- **A child without an entry.**  The table is full of background jobs, a seventeenth command is
started and its process stops: `getjobpid` finds nothing and the handler writes through `NULL`. -/
theorem reports_untracked : ∃ s : Shell, shellRuns.Reachable s ∧ ¬ ReportsTracked s ∧
    s.frames = [.report 17 (.stopped 20)] ∧ getjobpid 17 s.table = none ∧
    HandlerStep s (s.halt .fault) := by
  obtain ⟨s, k⟩ := exists_crowd maxJobs le_rfl
  have hfresh := k.fresh 17 (by decide)
  have hfull : ∀ i, (s.job i).pid ≠ 0 := by
    have hk := k.free
    have hzero : (Finset.univ.filter fun j => (s.job j).pid = 0).card = 0 := by omega
    intro i hi
    have hmem : i ∈ Finset.univ.filter fun j => (s.job j).pid = 0 :=
      (Finset.mem_filter_univ i).mpr hi
    rw [Finset.card_eq_zero.mp hzero] at hmem
    cases hmem
  have hadd : addjob 17 .fg "sleep 9" s.table = none := addjob_eq_none_iff.mpr (.inr hfull)
  have r1 := k.reachable.step (.main k.halted k.frames (.read k.main (.program false "sleep 9")))
  have r2 := r1.step (.main k.halted k.frames (.block rfl))
  have r3 := r2.step (.main k.halted k.frames
    (.fork (p := 17) rfl (by decide) hfresh.1 (k.others _)))
  have r4 := r3.step (.main k.halted k.frames (.addjob rfl))
  rw [Shell.add] at r4
  split at r4
  · next t ht =>
    replace ht : addjob 17 .fg "sleep 9" s.table = some t := ht
    rw [hadd] at ht
    cases ht
  · rw [if_neg (by decide)] at r4
    have r5 := r4.step (.main k.halted k.frames (.unblock rfl))
    obtain ⟨s', r8, hframes, htable⟩ := stop_reported r5 k.halted k.frames rfl
      (Function.update_self 17 _ _) 20
    have hnone : getjobpid 17 s'.table = none := by
      rw [htable]
      cases hg : getjobpid 17 s.table with
      | none => exact hg
      | some i => exact absurd (getjobpid_some hg).2 (hfresh.2 i)
    refine ⟨s', r8, fun hsafe => ?_, hframes, hnone, record_null hframes hnone⟩
    obtain ⟨i, hi, _⟩ := hsafe.entry 17 (.stopped 20) (by rw [hframes]; exact List.mem_cons_self)
    rw [hnone] at hi
    cases hi

end SystemProgramming.ShellLab
