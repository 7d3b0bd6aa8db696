import SystemProgramming.Library.Holdings
import SystemProgramming.ShellLab.Jobs

/-!
# Job IDs (`addjob`, `deletejob`, `getjobjid`)

`addjob` takes job IDs from `nextjid`, which starts again at 1 when it passes `MAXJOBS` and which
`deletejob` sets one past the largest ID in use.  Every job is announced with the ID it gets.

* `Ledger` : the invariant; the announced jobs are those in the table, with positive IDs.
* `Numbering` : from the calls made, whether the IDs run past those in the table or have begun again.
* `Counted` : the invariant for it; `nextjid` is the ID that the numbering says comes next.
* `JobOp.step_iff` : what one call needs to keep the IDs distinct.
* `job_ids_distinct_iff` : in which histories the job IDs stay distinct.
-/

namespace SystemProgramming.ShellLab

open Holdings

/-- A call of `addjob` or `deletejob`. -/
inductive JobOp
  | add (pid : ℤ) (state : JobState) (cmdline : String)
  | delete (pid : ℤ)

/-- The live jobs, by process ID, with the job IDs they were announced with. -/
abbrev Announced := List (ℤ × ℤ)

namespace JobOp

/-- The table after the call. -/
def exec (t : JobTable) : JobOp → JobTable
  | add pid state cmdline => (addjob pid state cmdline t).getD t
  | delete pid => (deletejob pid t).getD t

/-- The announced jobs after the call; a new job is announced with `pid2jid`. -/
def announce (t : JobTable) (live : Announced) : JobOp → Announced
  | add pid state cmdline =>
    match addjob pid state cmdline t with
    | some t' => (pid, pid2jid pid t') :: live
    | none => live
  | delete pid => release live pid

/-- No process ID is added while a job with it is live. -/
def Legal (live : Announced) : JobOp → Prop
  | add pid _ _ => pid ∉ live.map Prod.fst
  | delete _ => True

instance (live : Announced) : (op : JobOp) → Decidable (op.Legal live)
  | add .. => inferInstanceAs (Decidable (_ ∉ _))
  | delete _ => inferInstanceAs (Decidable True)

/-- The call adds a job: the process ID is valid and a slot is free. -/
def Adds (t : JobTable) : JobOp → Prop
  | add pid _ _ => 1 ≤ pid ∧ ∃ i, (t.jobs i).pid = 0
  | delete _ => False

instance (t : JobTable) : (op : JobOp) → Decidable (op.Adds t)
  | add .. => inferInstanceAs (Decidable (_ ∧ ∃ _, _))
  | delete _ => inferInstanceAs (Decidable False)

/-- The call deletes a job: the process ID is valid and in the table. -/
def Deletes (t : JobTable) : JobOp → Prop
  | add .. => False
  | delete pid => 1 ≤ pid ∧ ∃ i, (t.jobs i).pid = pid

instance (t : JobTable) : (op : JobOp) → Decidable (op.Deletes t)
  | add .. => inferInstanceAs (Decidable False)
  | delete _ => inferInstanceAs (Decidable (_ ∧ ∃ _, _))

/-- The sum that the call computes, `nextjid++` of `addjob` or `maxjid(jobs)+1` of `deletejob`, is an
`int`.  Where it is not, the call has no defined result. -/
def InRange (t : JobTable) (op : JobOp) : Prop :=
  (op.Adds t → t.nextjid + 1 ≤ intMax) ∧ (op.Deletes t → maxjid (op.exec t).jobs + 1 ≤ intMax)

end JobOp

/-- No two occupied slots have the same job ID. -/
def IdsDistinct (t : JobTable) : Prop :=
  ∀ i j, (t.jobs i).pid ≠ 0 → (t.jobs j).pid ≠ 0 → (t.jobs i).jid = (t.jobs j).jid → i = j

/-- The occupied slots have pairwise distinct positive job IDs, and `getjobjid` at an announced ID is
the slot of the job that was announced with it, for every job in the table. -/
structure DistinctIds (t : JobTable) (live : Announced) : Prop where
  positive : ∀ i, (t.jobs i).pid ≠ 0 → 0 < (t.jobs i).jid
  distinct : IdsDistinct t
  designates : ∀ p j, (p, j) ∈ live → (getjobjid j t).map (fun i => (t.jobs i).pid) = some p
  reachable : ∀ i, (t.jobs i).pid ≠ 0 → ((t.jobs i).pid, (t.jobs i).jid) ∈ live

/-- Every call of the history is legal where it is made. -/
def LegalHistory : JobTable → Announced → List JobOp → Prop
  | _, _, [] => True
  | t, live, op :: ops => op.Legal live ∧ LegalHistory (op.exec t) (op.announce t live) ops

instance decidableLegalHistory : (t : JobTable) → (live : Announced) → (ops : List JobOp) →
    Decidable (LegalHistory t live ops)
  | _, _, [] => inferInstanceAs (Decidable True)
  | _, _, _ :: ops =>
    have := fun t live => decidableLegalHistory t live ops
    inferInstanceAs (Decidable (_ ∧ LegalHistory _ _ ops))

/-- Every call of the history is defined, and after it the job IDs are distinct. -/
def DistinctHistory : JobTable → Announced → List JobOp → Prop
  | _, _, [] => True
  | t, live, op :: ops => op.InRange t ∧ DistinctIds (op.exec t) (op.announce t live) ∧
      DistinctHistory (op.exec t) (op.announce t live) ops

/-! ### The numbering of a history -/

/-- Where the calls so far have left the job IDs.  `onward`: a job was deleted, or nothing has begun
again yet, and the IDs go on past the largest in the table.  `again k`: an ID of `MAXJOBS` or more was
handed out, the IDs began again at 1, and `k` jobs were added since, with no deletion in between. -/
inductive Numbering
  | onward
  | again (k : ℕ)

namespace Numbering

/-- The numbering after a call.  The job added onward gets the ID one past the largest in the table, and
the `MAXJOBS`-th one after a new beginning gets `MAXJOBS`: from there the IDs begin again. -/
def after (t : JobTable) (op : JobOp) : Numbering → Numbering
  | onward => if op.Adds t ∧ maxJobs ≤ maxjid t.jobs + 1 then again 0 else onward
  | again k =>
    if op.Deletes t then onward else if op.Adds t then again ((k + 1) % maxJobs) else again k

/-- A job that is added onward finds the IDs in the table below `INT_MAX - 1`; the `k`-th job added after
a new beginning finds no job with ID `k`. -/
def Clear (t : JobTable) (op : JobOp) : Numbering → Prop
  | onward => op.Adds t → maxjid t.jobs + 1 < intMax
  | again k => op.Adds t → ∀ i, (t.jobs i).pid ≠ 0 → (t.jobs i).jid ≠ k + 1

instance (t : JobTable) (op : JobOp) : (n : Numbering) → Decidable (n.Clear t op)
  | onward => inferInstanceAs (Decidable (_ → _))
  | again _ => inferInstanceAs (Decidable (_ → ∀ _, _))

end Numbering

/-- Every call of the history meets the condition of its place in the numbering. -/
def ClearHistory : JobTable → Numbering → List JobOp → Prop
  | _, _, [] => True
  | t, n, op :: ops => n.Clear t op ∧ ClearHistory (op.exec t) (n.after t op) ops

instance decidableClearHistory : (t : JobTable) → (n : Numbering) → (ops : List JobOp) →
    Decidable (ClearHistory t n ops)
  | _, _, [] => inferInstanceAs (Decidable True)
  | _, _, _ :: ops =>
    have := fun t n => decidableClearHistory t n ops
    inferInstanceAs (Decidable (_ ∧ ClearHistory _ _ ops))

/-! ### The invariant -/

/-- The announced jobs are those in the table. -/
structure Ledger (t : JobTable) (live : Announced) : Prop where
  pids : ∀ i, 0 ≤ (t.jobs i).pid
  cleared : ∀ i, (t.jobs i).pid = 0 → (t.jobs i).jid = 0
  positive : ∀ i, (t.jobs i).pid ≠ 0 → 0 < (t.jobs i).jid
  next : 0 < t.nextjid
  unique : ∀ i j, (t.jobs i).pid ≠ 0 → (t.jobs i).pid = (t.jobs j).pid → i = j
  entry : ∀ p j, (p, j) ∈ live ↔ p ≠ 0 ∧ ∃ i, (t.jobs i).pid = p ∧ (t.jobs i).jid = j

theorem ledger_init : Ledger initjobs [] :=
  ⟨fun _ => le_refl _, fun _ _ => rfl, fun _ h => absurd rfl h, by decide, fun _ _ h => absurd rfl h,
    fun _ _ => ⟨fun h => (by cases h), fun ⟨h, _, hp, _⟩ => absurd hp.symm h⟩⟩

namespace Ledger

variable {t t' : JobTable} {live : Announced} {pid : ℤ} {state : JobState} {cmdline : String}

theorem numbered (k : Ledger t live) : Numbered t := ⟨k.cleared, k.positive, k.next⟩

/-- Given the ledger, distinct job IDs are all that the property asks for. -/
theorem distinctIds_iff (k : Ledger t live) : DistinctIds t live ↔ IdsDistinct t := by
  constructor
  · intro h
    exact h.distinct
  · intro h
    refine ⟨k.positive, h, fun p j hpj => ?_, fun i hi => (k.entry _ _).mpr ⟨hi, i, rfl, rfl⟩⟩
    obtain ⟨hp, i, rfl, rfl⟩ := (k.entry p j).mp hpj
    have hpos := k.positive i hp
    have hfound : getjobjid (t.jobs i).jid t = some i := by
      apply getjobjid_of_unique hpos
      intro m hm
      refine h m i (fun hfree => ?_) hp hm
      have := k.cleared m hfree
      omega
    rw [hfound]
    rfl

/-- A job is entered in the ledger under the ID `addjob` gave it. -/
theorem add (k : Ledger t live) (hfresh : pid ∉ live.map Prod.fst)
    (h : addjob pid state cmdline t = some t') : Ledger t' ((pid, pid2jid pid t') :: live) := by
  obtain ⟨hpid, -⟩ := addjob_some h
  obtain ⟨i, hfree, hself, hother⟩ := addjob_slots h
  have hnot : ∀ m, (t.jobs m).pid ≠ pid := by
    intro m hm
    apply hfresh
    have hent : ((t.jobs m).pid, (t.jobs m).jid) ∈ live :=
      (k.entry _ _).mpr ⟨by omega, m, rfl, rfl⟩
    rw [hm] at hent
    exact List.mem_map_of_mem (f := Prod.fst) hent
  have hjid : pid2jid pid t' = t.nextjid := by
    have hp : (t'.jobs i).pid = pid := by rw [hself]
    have huniq : ∀ m, (t'.jobs m).pid = (t'.jobs i).pid → m = i := by
      intro m hm
      by_contra hmi
      rw [hother m hmi, hp] at hm
      exact hnot m hm
    have := pid2jid_of_unique (by omega) huniq
    rw [hp, hself] at this
    exact this
  have hnumbered := k.numbered.add h
  constructor
  case pids =>
    intro m
    by_cases hmi : m = i
    · rw [hmi, hself]
      show 0 ≤ pid
      omega
    · rw [hother m hmi]
      exact k.pids m
  case cleared => exact hnumbered.cleared
  case positive => exact hnumbered.positive
  case next => exact hnumbered.next
  case unique =>
    intro m n hm hmn
    by_cases hmi : m = i
    · by_cases hni : n = i
      · rw [hmi, hni]
      · rw [hmi, hself, hother n hni] at hmn
        exact absurd hmn.symm (hnot n)
    · by_cases hni : n = i
      · rw [hni, hself, hother m hmi] at hmn
        exact absurd hmn (hnot m)
      · rw [hother m hmi] at hm hmn
        rw [hother n hni] at hmn
        exact k.unique m n hm hmn
  case entry =>
    intro p j
    rw [hjid, List.mem_cons, k.entry]
    constructor
    · rintro (he | ⟨hp, m, hm, hj⟩)
      · cases he
        exact ⟨by omega, i, by rw [hself], by rw [hself]⟩
      · have hmi : m ≠ i := fun he => hp (by rw [← hm, he, hfree])
        exact ⟨hp, m, by rw [hother m hmi, hm], by rw [hother m hmi, hj]⟩
    · rintro ⟨hp, m, hm, hj⟩
      by_cases hmi : m = i
      · subst hmi
        rw [hself] at hm hj
        exact Or.inl (by rw [← hm, ← hj])
      · rw [hother m hmi] at hm hj
        exact Or.inr ⟨hp, m, hm, hj⟩

/-- A job is struck off the ledger. -/
theorem delete (k : Ledger t live) (h : deletejob pid t = some t') :
    Ledger t' (release live pid) := by
  obtain ⟨i, hi, hself, hother⟩ := deletejob_slots h
  have hnumbered := k.numbered.delete h
  have hoccupied : ∀ m, (t'.jobs m).pid ≠ 0 → m ≠ i := by
    intro m hm he
    rw [he, hself] at hm
    exact hm rfl
  constructor
  case pids =>
    intro m
    by_cases hmi : m = i
    · rw [hmi, hself]
      rfl
    · rw [hother m hmi]
      exact k.pids m
  case cleared => exact hnumbered.cleared
  case positive => exact hnumbered.positive
  case next => exact hnumbered.next
  case unique =>
    intro m n hm hmn
    have hmi := hoccupied m hm
    have hni := hoccupied n (hmn ▸ hm)
    rw [hother m hmi] at hm hmn
    rw [hother n hni] at hmn
    exact k.unique m n hm hmn
  case entry =>
    intro p j
    rw [mem_release, k.entry]
    constructor
    · rintro ⟨⟨hp, m, hm, hj⟩, hne⟩
      have hmi : m ≠ i := fun he => hne (by rw [← hm, he, hi])
      exact ⟨hp, m, by rw [hother m hmi, hm], by rw [hother m hmi, hj]⟩
    · rintro ⟨hp, m, hm, hj⟩
      have hmi := hoccupied m (by rw [hm]; exact hp)
      rw [hother m hmi] at hm hj
      refine ⟨⟨hp, m, hm, hj⟩, fun he => hmi ?_⟩
      exact k.unique m i (by rw [hm]; exact hp) (by rw [hm, he, hi])

/-- A process that is not in the table is not in the ledger. -/
theorem notMem_of_delete_none (k : Ledger t live) (h : deletejob pid t = none) :
    pid ∉ live.map Prod.fst := by
  intro hin
  obtain ⟨⟨p, j⟩, hmem, rfl⟩ := List.mem_map.mp hin
  obtain ⟨hp, i, hi, -⟩ := (k.entry p j).mp hmem
  have hpos := k.pids i
  rcases deletejob_eq_none_iff.mp h with hneg | hnone
  · exact hp (by show p = 0; omega)
  · exact hnone i hi

end Ledger

/-! ### One call -/

namespace JobOp

variable {t : JobTable} {live : Announced} {op : JobOp}

/-- **The step lemma of the ledger.** -/
theorem ledger (k : Ledger t live) (h : op.Legal live) :
    Ledger (op.exec t) (op.announce t live) := by
  cases op with
  | add pid state cmdline =>
    show Ledger ((addjob pid state cmdline t).getD t) (match addjob pid state cmdline t with
      | some t' => (pid, pid2jid pid t') :: live
      | none => live)
    cases ha : addjob pid state cmdline t with
    | none => exact k
    | some t' => exact k.add h ha
  | delete pid =>
    show Ledger ((deletejob pid t).getD t) (release live pid)
    cases hd : deletejob pid t with
    | none =>
      rw [release_of_notMem (k.notMem_of_delete_none hd)]
      exact k
    | some t' => exact k.delete hd

/-- `addjob` keeps the job IDs distinct just when no job in the table has the next one. -/
theorem idsDistinct_add {pid : ℤ} {state : JobState} {cmdline : String} {t' : JobTable}
    (hd : IdsDistinct t) (h : addjob pid state cmdline t = some t') :
    IdsDistinct t' ↔ ∀ i, (t.jobs i).pid ≠ 0 → (t.jobs i).jid ≠ t.nextjid := by
  obtain ⟨hpid, -⟩ := addjob_some h
  obtain ⟨i, hfree, hself, hother⟩ := addjob_slots h
  have hself0 : (t'.jobs i).pid ≠ 0 := by
    rw [hself]
    show pid ≠ 0
    omega
  constructor
  · -- the new job and an old one with the same ID
    intro hdist m hm hjid
    have hmi : m ≠ i := fun he => hm (he ▸ hfree)
    refine hmi (hdist m i ?_ hself0 ?_)
    · rw [hother m hmi]
      exact hm
    · rw [hother m hmi, hself]
      exact hjid
  · intro hnew m n hm hn hmn
    by_cases hmi : m = i
    · by_cases hni : n = i
      · rw [hmi, hni]
      · rw [hmi, hself, hother n hni] at hmn
        rw [hother n hni] at hn
        exact absurd hmn.symm (hnew n hn)
    · by_cases hni : n = i
      · rw [hni, hself, hother m hmi] at hmn
        rw [hother m hmi] at hm
        exact absurd hmn (hnew m hm)
      · rw [hother m hmi] at hm hmn
        rw [hother n hni] at hn hmn
        exact hd m n hm hn hmn

theorem idsDistinct_delete {pid : ℤ} {t' : JobTable} (hd : IdsDistinct t)
    (h : deletejob pid t = some t') : IdsDistinct t' := by
  obtain ⟨i, -, hclear, hkeep⟩ := deletejob_slots h
  have hother : ∀ m, (t'.jobs m).pid ≠ 0 → t'.jobs m = t.jobs m := by
    intro m hm
    apply hkeep
    intro he
    rw [he, hclear] at hm
    exact hm rfl
  intro m n hm hn hmn
  have hm' := hother m hm
  have hn' := hother n hn
  rw [hm'] at hm hmn
  rw [hn'] at hn hmn
  exact hd m n hm hn hmn

theorem exec_of_adds {pid : ℤ} {state : JobState} {cmdline : String} (h : (add pid state cmdline).Adds t) :
    addjob pid state cmdline t = some ((add pid state cmdline).exec t) := by
  obtain ⟨hpid, i, hfree⟩ := h
  show _ = some ((addjob pid state cmdline t).getD t)
  cases ha : addjob pid state cmdline t with
  | none =>
    rcases addjob_eq_none_iff.mp ha with hneg | hfull
    · omega
    · exact absurd hfree (hfull i)
  | some t' => rfl

theorem exec_of_not_adds {pid : ℤ} {state : JobState} {cmdline : String}
    (h : ¬ (add pid state cmdline).Adds t) : (add pid state cmdline).exec t = t := by
  show (addjob pid state cmdline t).getD t = t
  cases ha : addjob pid state cmdline t with
  | none => rfl
  | some t' =>
    obtain ⟨hpid, i, hfree, -⟩ := addjob_some ha
    exact absurd ⟨hpid, i, hfree⟩ h

theorem exec_of_deletes {pid : ℤ} (h : (delete pid).Deletes t) :
    deletejob pid t = some ((delete pid).exec t) := by
  obtain ⟨hpid, i, hi⟩ := h
  show _ = some ((deletejob pid t).getD t)
  cases hdel : deletejob pid t with
  | none =>
    rcases deletejob_eq_none_iff.mp hdel with hneg | hnone
    · omega
    · exact absurd hi (hnone i)
  | some t' => rfl

theorem exec_of_not_deletes {pid : ℤ} (h : ¬ (delete pid).Deletes t) : (delete pid).exec t = t := by
  show (deletejob pid t).getD t = t
  cases hdel : deletejob pid t with
  | none => rfl
  | some t' =>
    obtain ⟨hpid, i, hi, -⟩ := deletejob_some hdel
    exact absurd ⟨hpid, i, hi⟩ h

/-- From distinct job IDs, a call that adds a job keeps them distinct just when the next ID is not in
use; every other call keeps them distinct. -/
theorem distinctIds_exec_iff (k : Ledger t live) (h : op.Legal live) (hd : DistinctIds t live) :
    DistinctIds (op.exec t) (op.announce t live) ↔
      (op.Adds t → ∀ i, (t.jobs i).pid ≠ 0 → (t.jobs i).jid ≠ t.nextjid) := by
  rw [(ledger k h).distinctIds_iff]
  cases op with
  | add pid state cmdline =>
    by_cases hadds : (add pid state cmdline).Adds t
    · rw [idsDistinct_add hd.distinct (exec_of_adds hadds)]
      exact ⟨fun hnew _ => hnew, fun hnew => hnew hadds⟩
    · rw [exec_of_not_adds hadds]
      exact iff_of_true hd.distinct fun hyes => absurd hyes hadds
  | delete pid =>
    refine iff_of_true ?_ fun hno => hno.elim
    by_cases hdel : (delete pid).Deletes t
    · exact idsDistinct_delete hd.distinct (exec_of_deletes hdel)
    · rw [exec_of_not_deletes hdel]
      exact hd.distinct

end JobOp

/-! ### What the numbering says about `nextjid` -/

/-- The ID that comes next. -/
def Numbering.next (t : JobTable) : Numbering → ℤ
  | onward => maxjid t.jobs + 1
  | again k => k + 1

/-- `nextjid` is the ID that the numbering says comes next, which has begun again for less than `MAXJOBS`
jobs, and the IDs in the table can be raised by one. -/
structure Counted (t : JobTable) (n : Numbering) : Prop where
  nextjid : t.nextjid = n.next t
  count : ∀ k, n = .again k → k < maxJobs
  bound : ∀ i, (t.jobs i).jid < intMax

theorem counted_init : Counted initjobs .onward :=
  ⟨by decide, fun _ h => (by cases h), fun _ => by show (0 : ℤ) < intMax; decide⟩

namespace Counted

variable {t t' : JobTable} {n : Numbering} {op : JobOp} {pid : ℤ} {state : JobState} {cmdline : String}

theorem maxjid_lt (c : Counted t n) : maxjid t.jobs < intMax := by
  have hle : maxjid t.jobs ≤ intMax - 1 := by
    apply maxjid_le (by decide)
    intro i
    have := c.bound i
    omega
  omega

/-- The job that is added gets the ID that comes next. -/
theorem bound_add (c : Counted t n) (hlt : n.next t < intMax)
    (h : addjob pid state cmdline t = some t') (i : Fin maxJobs) : (t'.jobs i).jid < intMax := by
  obtain ⟨m, -, hself, hother⟩ := addjob_slots h
  by_cases him : i = m
  · rw [him, hself]
    show t.nextjid < intMax
    rw [c.nextjid]
    exact hlt
  · rw [hother i him]
    exact c.bound i

/-- The job that is added onward has the largest ID in the table. -/
theorem maxjid_add (c : Counted t .onward) (h : addjob pid state cmdline t = some t') :
    maxjid t'.jobs = maxjid t.jobs + 1 := by
  have hnext : t.nextjid = maxjid t.jobs + 1 := c.nextjid
  obtain ⟨m, -, hself, hother⟩ := addjob_slots h
  have hnonneg := maxjid_nonneg t.jobs
  apply le_antisymm
  · apply maxjid_le (by omega)
    intro i
    by_cases him : i = m
    · rw [him, hself]
      exact le_of_eq hnext
    · rw [hother i him]
      have := jid_le_maxjid t.jobs i
      omega
  · have hm := jid_le_maxjid t'.jobs m
    rw [hself] at hm
    rw [← hnext]
    exact hm

theorem add (c : Counted t n) (hadds : (JobOp.add pid state cmdline).Adds t)
    (h : n.Clear t (.add pid state cmdline)) :
    Counted ((JobOp.add pid state cmdline).exec t) (n.after t (.add pid state cmdline)) := by
  have hadd := JobOp.exec_of_adds hadds
  obtain ⟨-, -, -, -, hnext⟩ := addjob_some hadd
  rw [c.nextjid] at hnext
  cases n with
  | onward =>
    have hclear : maxjid t.jobs + 1 < intMax := h hadds
    have hbound := c.bound_add hclear hadd
    have hmax := c.maxjid_add hadd
    replace hnext : _ = if maxjid t.jobs + 1 + 1 > (maxJobs : ℤ) then 1 else maxjid t.jobs + 1 + 1 := hnext
    by_cases hwrap : maxJobs ≤ maxjid t.jobs + 1
    · -- an ID of `MAXJOBS` or more: the numbering begins again
      rw [Numbering.after, if_pos ⟨hadds, hwrap⟩]
      rw [if_pos (by omega)] at hnext
      refine ⟨hnext, fun k hk => ?_, hbound⟩
      cases hk
      exact maxJobs_pos
    · rw [Numbering.after, if_neg (fun hboth => hwrap hboth.2)]
      rw [if_neg (by omega)] at hnext
      refine ⟨?_, fun k hk => (by cases hk), hbound⟩
      rw [hnext, Numbering.next, hmax]
  | again k =>
    have hk := c.count k rfl
    have hlt : (Numbering.again k).next t < intMax := by
      show (k : ℤ) + 1 < 2147483647
      rw [maxJobs] at hk
      omega
    have hbound := c.bound_add hlt hadd
    replace hnext : _ = if (k : ℤ) + 1 + 1 > (maxJobs : ℤ) then 1 else (k : ℤ) + 1 + 1 := hnext
    rw [Numbering.after, if_neg (fun hno => hno.elim), if_pos hadds]
    refine ⟨?_, fun m hm => ?_, hbound⟩
    · rw [hnext]
      show _ = (((k + 1) % maxJobs : ℕ) : ℤ) + 1
      by_cases hlast : k + 1 = maxJobs
      · rw [if_pos (by omega), hlast, Nat.mod_self]
        rfl
      · rw [if_neg (by omega), Nat.mod_eq_of_lt (by omega)]
        omega
    · cases hm
      exact Nat.mod_lt _ maxJobs_pos

theorem delete (c : Counted t n) (hdel : (JobOp.delete pid).Deletes t) :
    Counted ((JobOp.delete pid).exec t) .onward := by
  obtain ⟨-, -, -, -, hnext⟩ := deletejob_some (JobOp.exec_of_deletes hdel)
  obtain ⟨m, -, hself, hother⟩ := deletejob_slots (JobOp.exec_of_deletes hdel)
  refine ⟨hnext, fun k hk => (by cases hk), fun i => ?_⟩
  by_cases him : i = m
  · rw [him, hself]
    decide
  · rw [hother i him]
    exact c.bound i

/-- **The step lemma of the numbering.** -/
theorem step (c : Counted t n) (h : n.Clear t op) : Counted (op.exec t) (n.after t op) := by
  cases op with
  | add pid state cmdline =>
    by_cases hadds : (JobOp.add pid state cmdline).Adds t
    · exact c.add hadds h
    · rw [JobOp.exec_of_not_adds hadds]
      cases n with
      | onward =>
        rw [Numbering.after, if_neg (fun hboth => hadds hboth.1)]
        exact c
      | again k =>
        rw [Numbering.after, if_neg (fun hno => hno.elim), if_neg hadds]
        exact c
  | delete pid =>
    by_cases hdel : (JobOp.delete pid).Deletes t
    · have hafter : n.after t (.delete pid) = .onward := by
        cases n with
        | onward => rw [Numbering.after, if_neg (fun hboth => hboth.1.elim)]
        | again k => rw [Numbering.after, if_pos hdel]
      rw [hafter]
      exact c.delete hdel
    · rw [JobOp.exec_of_not_deletes hdel]
      cases n with
      | onward =>
        rw [Numbering.after, if_neg (fun hboth => hboth.1.elim)]
        exact c
      | again k =>
        rw [Numbering.after, if_neg hdel, if_neg (fun hno => hno.elim)]
        exact c

/-- A call is defined and hands out no ID in use just when it meets the condition of its place. -/
theorem clear_iff (c : Counted t n) :
    (op.InRange t ∧ (op.Adds t → ∀ i, (t.jobs i).pid ≠ 0 → (t.jobs i).jid ≠ t.nextjid)) ↔
      n.Clear t op := by
  have hdeletes : op.Deletes t → maxjid (op.exec t).jobs + 1 ≤ intMax := by
    intro hdel
    cases op with
    | add pid state cmdline => exact hdel.elim
    | delete pid =>
      have := (c.delete hdel).maxjid_lt
      omega
  have hnext := c.nextjid
  cases n with
  | onward =>
    replace hnext : t.nextjid = maxjid t.jobs + 1 := hnext
    constructor
    · intro h hadds
      have := h.1.1 hadds
      omega
    · intro h
      refine ⟨⟨fun hadds => ?_, hdeletes⟩, fun _ i _ => ?_⟩
      · have : maxjid t.jobs + 1 < intMax := h hadds
        omega
      · have := jid_le_maxjid t.jobs i
        omega
  | again k =>
    replace hnext : t.nextjid = (k : ℤ) + 1 := hnext
    have hk := c.count k rfl
    constructor
    · intro h hadds i hi
      rw [← hnext]
      exact h.2 hadds i hi
    · intro h
      refine ⟨⟨fun _ => ?_, hdeletes⟩, fun hadds i hi => ?_⟩
      · rw [hnext]
        show (k : ℤ) + 1 + 1 ≤ 2147483647
        rw [maxJobs] at hk
        omega
      · rw [hnext]
        exact h hadds i hi

end Counted

/-- **One call.**  From distinct job IDs, a call is defined and leads to distinct job IDs just when it
meets the condition of its place in the numbering. -/
theorem JobOp.step_iff {t : JobTable} {live : Announced} {n : Numbering} {op : JobOp}
    (k : Ledger t live) (c : Counted t n) (h : op.Legal live) (hd : DistinctIds t live) :
    (op.InRange t ∧ DistinctIds (op.exec t) (op.announce t live)) ↔ n.Clear t op := by
  rw [distinctIds_exec_iff k h hd]
  exact c.clear_iff

/-! ### Histories -/

theorem distinctIds_init : DistinctIds initjobs [] :=
  ⟨ledger_init.positive, fun _ _ h => absurd rfl h, fun _ _ h => (by cases h),
    fun _ h => absurd rfl h⟩

theorem distinctHistory_iff {t : JobTable} {live : Announced} {n : Numbering} {ops : List JobOp}
    (k : Ledger t live) (c : Counted t n) (hd : DistinctIds t live) (h : LegalHistory t live ops) :
    DistinctHistory t live ops ↔ ClearHistory t n ops := by
  induction ops generalizing t live n with
  | nil => exact Iff.rfl
  | cons op ops ih =>
    obtain ⟨hop, hops⟩ := h
    have hstep := JobOp.step_iff k c hop hd
    have hk := JobOp.ledger k hop
    constructor
    · intro hall
      have hclear := hstep.mp ⟨hall.1, hall.2.1⟩
      exact ⟨hclear, (ih hk (c.step hclear) hall.2.1 hops).mp hall.2.2⟩
    · intro hclear
      obtain ⟨hdef, hd'⟩ := hstep.mpr hclear.1
      exact ⟨hdef, hd', (ih hk (c.step hclear.1) hd' hops).mpr hclear.2⟩

/-- **Distinct job IDs.**  Over a history of calls from the empty table, no sum overflows and the job IDs
stay distinct and designate the jobs they were announced for if and only if, after every new beginning
of the numbering and up to the next deletion, the `k`-th job added finds no job with ID `k`, and no
other job is added when an ID of `INT_MAX - 1` is in the table. -/
theorem job_ids_distinct_iff (ops : List JobOp) (h : LegalHistory initjobs [] ops) :
    DistinctHistory initjobs [] ops ↔ ClearHistory initjobs .onward ops :=
  distinctHistory_iff ledger_init counted_init distinctIds_init h

/-- The table filled with the processes 1 to 16 and emptied of 1, 2 and 16, which leaves 15 as the
largest ID.  The next job gets 16, the numbering begins again, and two more get 1 and 2. -/
theorem job_ids_distinct_again : DistinctHistory initjobs []
    ((List.range 16).map (fun n => .add (n + 1) .bg "") ++
      [.delete 1, .delete 2, .delete 16, .add 17 .bg "", .add 18 .bg "", .add 19 .bg ""]) :=
  (job_ids_distinct_iff _ (by decide +kernel)).mpr (by decide +kernel)

/-- The table filled with the processes 1 to 16, two of them deleted and two more added: the second
gets the job ID of process 1, which is still in the table. -/
def wrapHistory : List JobOp :=
  (List.range 16).map (fun n => .add (n + 1) .bg "") ++
    [.delete 2, .delete 3, .add 17 .bg "", .add 18 .bg ""]

theorem job_ids_not_distinct :
    LegalHistory initjobs [] wrapHistory ∧ ¬ DistinctHistory initjobs [] wrapHistory := by
  have hlegal : LegalHistory initjobs [] wrapHistory := by decide +kernel
  have hclash : ¬ ClearHistory initjobs .onward wrapHistory := by decide +kernel
  refine ⟨hlegal, ?_⟩
  intro hdist
  exact hclash ((distinctHistory_iff ledger_init counted_init distinctIds_init hlegal).mp hdist)

end SystemProgramming.ShellLab
