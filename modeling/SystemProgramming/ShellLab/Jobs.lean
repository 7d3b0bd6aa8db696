import Mathlib.Data.Int.Order.Basic
import Mathlib.Logic.Function.Basic
import Mathlib.Data.Fin.Tuple.Basic

/-!
# The job table of the tiny shell (`tsh.c`)

A table of `MAXJOBS` slots and the counter `nextjid`.  A slot is free when its process ID is zero.
Every helper routine scans the slots in order and acts on the first that fits, so that each of them
is `slotWith` at a test of its own.  The `int`s are integers here, which is what the routines compute as
long as no job ID reaches `INT_MAX`; `JobIds` says when that is.

* `addjob`, `deletejob`, `maxjid` : the routines that change the table; `none` is the result 0.
* `getjobpid`, `getjobjid`, `pid2jid`, `fgslot` : the routines that search it.
* `addjob_some_iff`, `deletejob_some_iff` : what the first two do.
-/

namespace SystemProgramming.ShellLab

/-- `MAXJOBS`. -/
def maxJobs : ℕ := 16

theorem maxJobs_pos : 0 < maxJobs := by decide

/-- `INT_MAX`. -/
def intMax : ℤ := 2147483647

/-- Job states. -/
inductive JobState
  | undef
  | fg
  | bg
  | st
  deriving DecidableEq

/-- `struct job_t`. -/
structure Job where
  pid : ℤ
  jid : ℤ
  state : JobState
  cmdline : String
  deriving DecidableEq

/-- The entry that `clearjob` leaves. -/
def clearjob : Job := ⟨0, 0, .undef, ""⟩

/-- `jobs` and `nextjid`. -/
structure JobTable where
  jobs : Fin maxJobs → Job
  nextjid : ℤ

/-- `initjobs`, with the initial value of `nextjid`. -/
def initjobs : JobTable := ⟨fun _ => clearjob, 1⟩

/-- The loop of the helper routines: the first slot that passes a test. -/
def slotWith (test : Job → Bool) (jobs : Fin maxJobs → Job) : Option (Fin maxJobs) :=
  Fin.find? fun i => test (jobs i)

/-- `maxjid`. -/
def maxjid (jobs : Fin maxJobs → Job) : ℤ :=
  (List.finRange maxJobs).foldl (fun max i => if (jobs i).jid > max then (jobs i).jid else max) 0

/-- `addjob`. -/
def addjob (pid : ℤ) (state : JobState) (cmdline : String) (t : JobTable) : Option JobTable :=
  if pid < 1 then none
  else (slotWith (fun j => j.pid = 0) t.jobs).map fun i =>
    { jobs := Function.update t.jobs i ⟨pid, t.nextjid, state, cmdline⟩
      nextjid := if t.nextjid + 1 > maxJobs then 1 else t.nextjid + 1 }

/-- `deletejob`. -/
def deletejob (pid : ℤ) (t : JobTable) : Option JobTable :=
  if pid < 1 then none
  else (slotWith (fun j => j.pid = pid) t.jobs).map fun i =>
    let jobs := Function.update t.jobs i clearjob
    ⟨jobs, maxjid jobs + 1⟩

/-- `getjobpid`. -/
def getjobpid (pid : ℤ) (t : JobTable) : Option (Fin maxJobs) :=
  if pid < 1 then none else slotWith (fun j => j.pid = pid) t.jobs

/-- `getjobjid`. -/
def getjobjid (jid : ℤ) (t : JobTable) : Option (Fin maxJobs) :=
  if jid < 1 then none else slotWith (fun j => j.jid = jid) t.jobs

/-- `pid2jid`. -/
def pid2jid (pid : ℤ) (t : JobTable) : ℤ :=
  if pid < 1 then 0
  else ((slotWith (fun j => j.pid = pid) t.jobs).map fun i => (t.jobs i).jid).getD 0

/-- The scan of `fgpid`. -/
def fgslot (t : JobTable) : Option (Fin maxJobs) := slotWith (fun j => j.state = .fg) t.jobs

/-- `job->state = state`. -/
def JobTable.setState (t : JobTable) (i : Fin maxJobs) (state : JobState) : JobTable :=
  { t with jobs := Function.update t.jobs i { t.jobs i with state := state } }

/-! ### What the scans find -/

section Scan

variable {test : Job → Bool} {jobs : Fin maxJobs → Job} {i : Fin maxJobs}

theorem slotWith_some (h : slotWith test jobs = some i) : test (jobs i) :=
  Fin.eq_true_of_find?_eq_some h

theorem slotWith_eq_none_iff : slotWith test jobs = none ↔ ∀ i, test (jobs i) = false :=
  Fin.find?_eq_none_iff

/-- The only slot that passes the test is found. -/
theorem slotWith_of_unique (h : test (jobs i)) (huniq : ∀ j, test (jobs j) → j = i) :
    slotWith test jobs = some i := by
  cases hs : slotWith test jobs with
  | none =>
    have hnot := slotWith_eq_none_iff.mp hs i
    rw [h] at hnot
    cases hnot
  | some k => rw [huniq k (slotWith_some hs)]

end Scan

/-! ### The routines -/

section Routines

variable {pid jid : ℤ} {state : JobState} {cmdline : String} {t t' : JobTable} {i : Fin maxJobs}

/-- `addjob` fills a free slot with the next job ID. -/
theorem addjob_some (h : addjob pid state cmdline t = some t') : 1 ≤ pid ∧ ∃ i,
    (t.jobs i).pid = 0 ∧
    t'.jobs = Function.update t.jobs i ⟨pid, t.nextjid, state, cmdline⟩ ∧
    t'.nextjid = if t.nextjid + 1 > maxJobs then 1 else t.nextjid + 1 := by
  rw [addjob] at h
  split at h
  · cases h
  · rename_i hpid
    obtain ⟨i, hi, rfl⟩ := Option.map_eq_some_iff.mp h
    exact ⟨by omega, i, by simpa using slotWith_some hi, rfl, rfl⟩

/-- The slots after `addjob`, one by one. -/
theorem addjob_slots (h : addjob pid state cmdline t = some t') : ∃ i,
    (t.jobs i).pid = 0 ∧ t'.jobs i = ⟨pid, t.nextjid, state, cmdline⟩ ∧
    ∀ m, m ≠ i → t'.jobs m = t.jobs m := by
  obtain ⟨-, i, hfree, hjobs, -⟩ := addjob_some h
  refine ⟨i, hfree, by rw [hjobs, Function.update_self], ?_⟩
  intro m hm
  rw [hjobs, Function.update_of_ne hm]

/-- `addjob` fails on an invalid process ID or a full table. -/
theorem addjob_eq_none_iff :
    addjob pid state cmdline t = none ↔ pid < 1 ∨ ∀ i, (t.jobs i).pid ≠ 0 := by
  rw [addjob]
  by_cases hpid : pid < 1
  · rw [if_pos hpid]
    exact iff_of_true rfl (Or.inl hpid)
  · rw [if_neg hpid, Option.map_eq_none_iff, slotWith_eq_none_iff]
    simp [hpid]

/-- `deletejob` clears a slot of the process. -/
theorem deletejob_some (h : deletejob pid t = some t') : 1 ≤ pid ∧ ∃ i,
    (t.jobs i).pid = pid ∧ t'.jobs = Function.update t.jobs i clearjob ∧
    t'.nextjid = maxjid t'.jobs + 1 := by
  rw [deletejob] at h
  split at h
  · cases h
  · rename_i hpid
    obtain ⟨i, hi, rfl⟩ := Option.map_eq_some_iff.mp h
    exact ⟨by omega, i, by simpa using slotWith_some hi, rfl, rfl⟩

/-- The slots after `deletejob`, one by one. -/
theorem deletejob_slots (h : deletejob pid t = some t') : ∃ i,
    (t.jobs i).pid = pid ∧ t'.jobs i = clearjob ∧ ∀ m, m ≠ i → t'.jobs m = t.jobs m := by
  obtain ⟨-, i, hi, hjobs, -⟩ := deletejob_some h
  refine ⟨i, hi, by rw [hjobs, Function.update_self], ?_⟩
  intro m hm
  rw [hjobs, Function.update_of_ne hm]

theorem deletejob_eq_none_iff :
    deletejob pid t = none ↔ pid < 1 ∨ ∀ i, (t.jobs i).pid ≠ pid := by
  rw [deletejob]
  by_cases hpid : pid < 1
  · rw [if_pos hpid]
    exact iff_of_true rfl (Or.inl hpid)
  · rw [if_neg hpid, Option.map_eq_none_iff, slotWith_eq_none_iff]
    simp [hpid]

/-- `deletejob` clears one slot of the process at most. -/
theorem deletejob_job (pid : ℤ) (t : JobTable) (i : Fin maxJobs) :
    ((deletejob pid t).getD t).jobs i = t.jobs i ∨
    (((deletejob pid t).getD t).jobs i = clearjob ∧ (t.jobs i).pid = pid) := by
  cases hd : deletejob pid t with
  | none => exact Or.inl rfl
  | some t' =>
    obtain ⟨m, hm, hclear, hother⟩ := deletejob_slots hd
    by_cases him : i = m
    · rw [him]
      exact Or.inr ⟨hclear, hm⟩
    · exact Or.inl (hother i him)

theorem deletejob_job_of_ne (h : (t.jobs i).pid ≠ pid) :
    ((deletejob pid t).getD t).jobs i = t.jobs i :=
  (deletejob_job pid t i).resolve_right fun hd => h hd.2

theorem setState_self : (t.setState i state).jobs i = { t.jobs i with state := state } :=
  Function.update_self ..

theorem setState_of_ne {j : Fin maxJobs} (h : j ≠ i) : (t.setState i state).jobs j = t.jobs j :=
  Function.update_of_ne h ..

/-- An assignment to `job->state` keeps the process IDs. -/
theorem setState_pid (j : Fin maxJobs) : ((t.setState i state).jobs j).pid = (t.jobs j).pid := by
  by_cases hji : j = i
  · rw [hji, setState_self]
  · rw [setState_of_ne hji]

theorem getjobpid_some (h : getjobpid pid t = some i) : 1 ≤ pid ∧ (t.jobs i).pid = pid := by
  rw [getjobpid] at h
  split at h
  · cases h
  · exact ⟨by omega, by simpa using slotWith_some h⟩

/-- `getjobpid` finds a process that is in the table. -/
theorem getjobpid_of_entry (hpos : 1 ≤ pid) (h : (t.jobs i).pid = pid) :
    ∃ m, getjobpid pid t = some m := by
  rw [getjobpid, if_neg (by omega)]
  cases hs : slotWith (fun j => j.pid = pid) t.jobs with
  | none =>
    have hnot := slotWith_eq_none_iff.mp hs i
    simp [h] at hnot
  | some m => exact ⟨m, rfl⟩

theorem getjobjid_some (h : getjobjid jid t = some i) : 1 ≤ jid ∧ (t.jobs i).jid = jid := by
  rw [getjobjid] at h
  split at h
  · cases h
  · exact ⟨by omega, by simpa using slotWith_some h⟩

/-- `getjobjid` finds the only slot with a job ID. -/
theorem getjobjid_of_unique (hpos : 0 < (t.jobs i).jid)
    (huniq : ∀ j, (t.jobs j).jid = (t.jobs i).jid → j = i) :
    getjobjid (t.jobs i).jid t = some i := by
  rw [getjobjid, if_neg (by omega)]
  exact slotWith_of_unique (by simp) fun j hj => huniq j (by simpa using hj)

/-- `pid2jid` reads the job ID of the only slot with a process ID. -/
theorem pid2jid_of_unique (hpos : 0 < (t.jobs i).pid)
    (huniq : ∀ j, (t.jobs j).pid = (t.jobs i).pid → j = i) :
    pid2jid (t.jobs i).pid t = (t.jobs i).jid := by
  have hfind : slotWith (fun j => j.pid = (t.jobs i).pid) t.jobs = some i :=
    slotWith_of_unique (by simp) fun j hj => huniq j (by simpa using hj)
  rw [pid2jid, if_neg (by omega), hfind]
  rfl

end Routines

/-! ### `maxjid` -/

/-- The accumulator of `maxjid` bounds where it started and every job ID it has seen. -/
theorem le_foldl_jid (jobs : Fin maxJobs → Job) (l : List (Fin maxJobs)) (m : ℤ) :
    m ≤ l.foldl (fun max i => if (jobs i).jid > max then (jobs i).jid else max) m ∧
    ∀ i ∈ l, (jobs i).jid ≤
      l.foldl (fun max i => if (jobs i).jid > max then (jobs i).jid else max) m := by
  induction l generalizing m with
  | nil => exact ⟨le_refl _, by simp⟩
  | cons j l ih =>
    rw [List.foldl_cons]
    obtain ⟨hstart, hseen⟩ := ih (if (jobs j).jid > m then (jobs j).jid else m)
    have hm : m ≤ if (jobs j).jid > m then (jobs j).jid else m := by split <;> omega
    have hj : (jobs j).jid ≤ if (jobs j).jid > m then (jobs j).jid else m := by split <;> omega
    refine ⟨le_trans hm hstart, fun i hi => ?_⟩
    rcases List.mem_cons.mp hi with rfl | hi
    · exact le_trans hj hstart
    · exact hseen i hi

theorem maxjid_nonneg (jobs : Fin maxJobs → Job) : 0 ≤ maxjid jobs :=
  (le_foldl_jid jobs _ 0).1

theorem jid_le_maxjid (jobs : Fin maxJobs → Job) (i : Fin maxJobs) : (jobs i).jid ≤ maxjid jobs :=
  (le_foldl_jid jobs _ 0).2 i (List.mem_finRange i)

theorem foldl_jid_le {jobs : Fin maxJobs → Job} {m : ℤ} (h : ∀ i, (jobs i).jid ≤ m)
    (l : List (Fin maxJobs)) {start : ℤ} (hstart : start ≤ m) :
    l.foldl (fun max i => if (jobs i).jid > max then (jobs i).jid else max) start ≤ m := by
  induction l generalizing start with
  | nil => exact hstart
  | cons j l ih =>
    rw [List.foldl_cons]
    apply ih
    have := h j
    split <;> omega

theorem maxjid_le {jobs : Fin maxJobs → Job} {m : ℤ} (hm : 0 ≤ m) (h : ∀ i, (jobs i).jid ≤ m) :
    maxjid jobs ≤ m :=
  foldl_jid_le h _ hm

/-! ### Numbered tables -/

/-- Occupied slots have a job ID, free slots none, and the next one is an ID. -/
structure Numbered (t : JobTable) : Prop where
  cleared : ∀ i, (t.jobs i).pid = 0 → (t.jobs i).jid = 0
  positive : ∀ i, (t.jobs i).pid ≠ 0 → 0 < (t.jobs i).jid
  next : 0 < t.nextjid

theorem numbered_initjobs : Numbered initjobs := ⟨fun _ _ => rfl, fun _ h => absurd rfl h, by decide⟩

namespace Numbered

variable {pid : ℤ} {state : JobState} {cmdline : String} {t t' : JobTable}

theorem add (k : Numbered t) (h : addjob pid state cmdline t = some t') : Numbered t' := by
  obtain ⟨hpid, -, -, -, hnext⟩ := addjob_some h
  obtain ⟨i, hfree, hself, hother⟩ := addjob_slots h
  have hnextpos := k.next
  constructor
  case cleared =>
    intro m hm
    by_cases hmi : m = i
    · rw [hmi, hself] at hm
      replace hm : pid = 0 := hm
      omega
    · rw [hother m hmi] at hm ⊢
      exact k.cleared m hm
  case positive =>
    intro m hm
    by_cases hmi : m = i
    · rw [hmi, hself]
      exact hnextpos
    · rw [hother m hmi] at hm ⊢
      exact k.positive m hm
  case next =>
    rw [hnext]
    split <;> omega

theorem delete (k : Numbered t) (h : deletejob pid t = some t') : Numbered t' := by
  obtain ⟨-, -, -, -, hnext⟩ := deletejob_some h
  obtain ⟨i, -, hself, hother⟩ := deletejob_slots h
  constructor
  case cleared =>
    intro m hm
    by_cases hmi : m = i
    · rw [hmi, hself]
      rfl
    · rw [hother m hmi] at hm ⊢
      exact k.cleared m hm
  case positive =>
    intro m hm
    have hmi : m ≠ i := by
      intro he
      rw [he, hself] at hm
      exact hm rfl
    rw [hother m hmi] at hm ⊢
    exact k.positive m hm
  case next =>
    rw [hnext]
    have := maxjid_nonneg t'.jobs
    omega

theorem deleteD (k : Numbered t) (pid : ℤ) : Numbered ((deletejob pid t).getD t) := by
  cases h : deletejob pid t with
  | none => exact k
  | some t' => exact k.delete h

theorem setState (k : Numbered t) (i : Fin maxJobs) (state : JobState) :
    Numbered (t.setState i state) := by
  have hjid : ∀ m, ((t.setState i state).jobs m).jid = (t.jobs m).jid := by
    intro m
    by_cases hmi : m = i
    · rw [hmi, setState_self]
    · rw [setState_of_ne hmi]
  refine ⟨fun m hm => ?_, fun m hm => ?_, k.next⟩
  · rw [setState_pid] at hm
    rw [hjid]
    exact k.cleared m hm
  · rw [setState_pid] at hm
    rw [hjid]
    exact k.positive m hm

/-- `pid2jid` of a process in the table is a job ID. -/
theorem pid2jid_pos (k : Numbered t) (hpos : 0 < pid) (h : ∃ i, (t.jobs i).pid = pid) :
    0 < pid2jid pid t := by
  obtain ⟨i, hi⟩ := h
  rw [pid2jid, if_neg (by omega)]
  cases hs : slotWith (fun j => j.pid = pid) t.jobs with
  | none =>
    have hnot := slotWith_eq_none_iff.mp hs i
    simp [hi] at hnot
  | some m =>
    have hm : (t.jobs m).pid = pid := by simpa using slotWith_some hs
    exact k.positive m (by omega)

end Numbered

end SystemProgramming.ShellLab
