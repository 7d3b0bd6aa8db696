import SystemProgramming.ShellLab.Shell

/-!
# The job table and the children

The shell enters a child in the table after `fork` and strikes it off when `waitpid` has reported its
end.  Both happen where no other code can run that looks at the child: the first with the signals
blocked, the second in a handler, which the main loop waits for.

* `Books` : the invariant; which children are in the table, by phase.
* `ShellInv.step` : every step of the system keeps it.
* `job_table_tracks` : the entries of the children in every state of every run.
-/

namespace SystemProgramming.ShellLab

open Transition

/-- The process IDs in the table, the phases of the children, which processes the kernel keeps as
children, and the handlers in progress, as they belong together. -/
structure Books (pid : Fin maxJobs → ℤ) (phase : ℤ → Phase) (alive : ℤ → Bool)
    (frames : List Frame) : Prop where
  nonneg : ∀ i, 0 ≤ pid i
  unique : ∀ i j, pid i ≠ 0 → pid i = pid j → i = j
  added : ∀ p, phase p = .added → ∃ i, pid i = p
  entry : ∀ i, pid i ≠ 0 → phase (pid i) = .added ∨ phase (pid i) = .reaped
  alive_iff : ∀ p, alive p = true ↔ phase p = .forked ∨ phase p = .added
  positive : ∀ p, phase p ≠ .absent → 0 < p
  reaped : ∀ p, phase p = .reaped → ∃ st, Frame.report p st ∈ frames ∧ st.Terminated
  report : ∀ p st, Frame.report p st ∈ frames → st.Terminated → phase p = .reaped

namespace Books

variable {pid : Fin maxJobs → ℤ} {phase : ℤ → Phase} {alive : ℤ → Bool} {frames : List Frame}
  {p : ℤ}

theorem start : Books (fun _ => 0) (fun _ => .absent) (fun _ => false) [] :=
  ⟨fun _ => le_refl _, fun _ _ h => absurd rfl h, fun _ h => (by cases h), fun _ h => absurd rfl h,
    fun _ => ⟨fun h => (by cases h), fun h => (by rcases h with h | h <;> cases h)⟩,
    fun _ h => absurd rfl h, fun _ h => (by cases h), fun _ _ h => (by cases h)⟩

/-- A child in the table has exactly one entry. -/
theorem existsUnique (k : Books pid phase alive frames) (h : phase p = .added) :
    ∃! i, pid i = p := by
  obtain ⟨i, hi⟩ := k.added p h
  have hpos := k.positive p (by rw [h]; decide)
  refine ⟨i, hi, fun j hj => ?_⟩
  exact k.unique j i (by omega) (by rw [hi]; exact hj)

theorem alive_pos (k : Books pid phase alive frames) (h : alive p = true) : 0 < p := by
  apply k.positive p
  intro habs
  have hin := (k.alive_iff p).mp h
  rw [habs] at hin
  rcases hin with h | h <;> cases h

/-- A process in another phase has none. -/
theorem notEntry (k : Books pid phase alive frames) (hp : p ≠ 0) (hadd : phase p ≠ .added)
    (hreap : phase p ≠ .reaped) (i : Fin maxJobs) : pid i ≠ p := by
  intro hi
  rcases k.entry i (by rw [hi]; exact hp) with h | h
  · exact hadd (by rw [← hi, h])
  · exact hreap (by rw [← hi, h])

/-- Only the reports of ends matter. -/
theorem reframe {frames' : List Frame} (k : Books pid phase alive frames)
    (h : ∀ p (st : Status), st.Terminated →
      (Frame.report p st ∈ frames' ↔ Frame.report p st ∈ frames)) :
    Books pid phase alive frames' :=
  ⟨k.nonneg, k.unique, k.added, k.entry, k.alive_iff, k.positive,
    fun p hp => (k.reaped p hp).imp fun st hst => ⟨(h p st hst.2).mpr hst.1, hst.2⟩,
    fun p st hst hterm => k.report p st ((h p st hterm).mp hst) hterm⟩

/-- Handlers that report no end come and go. -/
theorem replace {f f' : Frame} {fs : List Frame} (k : Books pid phase alive (f :: fs))
    (hf : ∀ p (st : Status), st.Terminated → Frame.report p st ≠ f)
    (hf' : ∀ p (st : Status), st.Terminated → Frame.report p st ≠ f') :
    Books pid phase alive (f' :: fs) := by
  apply k.reframe
  intro p st hterm
  rw [List.mem_cons, List.mem_cons, or_iff_right (hf p st hterm), or_iff_right (hf' p st hterm)]

theorem pop {f : Frame} {fs : List Frame} (k : Books pid phase alive (f :: fs))
    (hf : ∀ p (st : Status), st.Terminated → Frame.report p st ≠ f) :
    Books pid phase alive fs := by
  apply k.reframe
  intro p st hterm
  rw [List.mem_cons, or_iff_right (hf p st hterm)]

theorem push {f : Frame} (k : Books pid phase alive frames)
    (hf : ∀ p (st : Status), st.Terminated → Frame.report p st ≠ f) :
    Books pid phase alive (f :: frames) := by
  apply k.reframe
  intro p st hterm
  rw [List.mem_cons, or_iff_right (hf p st hterm)]

/-- A process in another phase than the one `p` has moved to was in it before. -/
theorem phase_of_update {ph ph' : Phase} {q : ℤ} (h : Function.update phase p ph q = ph')
    (hne : ph ≠ ph') : q ≠ p ∧ phase q = ph' := by
  have hqp : q ≠ p := by
    intro he
    rw [he, Function.update_self] at h
    exact hne h
  rw [Function.update_of_ne hqp] at h
  exact ⟨hqp, h⟩

theorem positive_update (k : Books pid phase alive frames) (hpos : 0 < p) (ph : Phase) (q : ℤ)
    (hq : Function.update phase p ph q ≠ .absent) : 0 < q := by
  by_cases hqp : q = p
  · rw [hqp]
    exact hpos
  · rw [Function.update_of_ne hqp] at hq
    exact k.positive q hq

theorem alive_update {alive' : ℤ → Bool} {ph : Phase} (k : Books pid phase alive frames)
    (hself : alive' p = true ↔ ph = .forked ∨ ph = .added) (hother : ∀ q, q ≠ p → alive' q = alive q)
    (q : ℤ) : alive' q = true ↔
      Function.update phase p ph q = .forked ∨ Function.update phase p ph q = .added := by
  by_cases hqp : q = p
  · rw [hqp, Function.update_self]
    exact hself
  · rw [Function.update_of_ne hqp, hother q hqp]
    exact k.alive_iff q

/-- `fork` returns a process that is no child and, as no handler is running, in no entry. -/
theorem fork (k : Books pid phase alive []) (hpos : 0 < p) (hp : alive p = false) :
    Books pid (Function.update phase p .forked) (Function.update alive p true) [] := by
  have hreap : ∀ q, phase q ≠ .reaped := by
    intro q hq
    obtain ⟨st, hst, -⟩ := k.reaped q hq
    cases hst
  have hadd : phase p ≠ .added := by
    intro h
    have := (k.alive_iff p).mpr (Or.inr h)
    rw [hp] at this
    cases this
  have hnot := k.notEntry (by omega) hadd (hreap p)
  constructor
  case nonneg => exact k.nonneg
  case unique => exact k.unique
  case added =>
    intro q hq
    exact k.added q (phase_of_update hq (by decide)).2
  case entry =>
    intro i hi
    rw [Function.update_of_ne (hnot i)]
    exact k.entry i hi
  case alive_iff =>
    apply k.alive_update
    · rw [Function.update_self]
      exact iff_of_true rfl (Or.inl rfl)
    · exact fun q hq => Function.update_of_ne hq ..
  case positive => exact k.positive_update hpos _
  case reaped =>
    intro q hq
    exact absurd (phase_of_update hq (by decide)).2 (hreap q)
  case report =>
    intro q st hst
    cases hst

/-- `addjob` enters a new child in a free slot. -/
theorem add {i : Fin maxJobs} (k : Books pid phase alive frames) (hp : phase p = .forked)
    (hi : pid i = 0) :
    Books (Function.update pid i p) (Function.update phase p .added) alive frames := by
  have hpos := k.positive p (by rw [hp]; decide)
  have hnot : ∀ j, pid j ≠ p := k.notEntry (by omega) (by rw [hp]; decide) (by rw [hp]; decide)
  constructor
  case nonneg =>
    intro j
    by_cases hji : j = i
    · rw [hji, Function.update_self]
      omega
    · rw [Function.update_of_ne hji]
      exact k.nonneg j
  case unique =>
    intro j m hj hjm
    by_cases hji : j = i
    · by_cases hmi : m = i
      · rw [hji, hmi]
      · rw [hji, Function.update_self, Function.update_of_ne hmi] at hjm
        exact absurd hjm.symm (hnot m)
    · by_cases hmi : m = i
      · rw [hmi, Function.update_self, Function.update_of_ne hji] at hjm
        exact absurd hjm (hnot j)
      · rw [Function.update_of_ne hji] at hj hjm
        rw [Function.update_of_ne hmi] at hjm
        exact k.unique j m hj hjm
  case added =>
    intro q hq
    by_cases hqp : q = p
    · exact ⟨i, by rw [Function.update_self, hqp]⟩
    · rw [Function.update_of_ne hqp] at hq
      obtain ⟨j, hj⟩ := k.added q hq
      refine ⟨j, ?_⟩
      have hji : j ≠ i := by
        intro he
        have hq0 := k.positive q (by rw [hq]; decide)
        rw [he, hi] at hj
        omega
      rw [Function.update_of_ne hji]
      exact hj
  case entry =>
    intro j hj
    by_cases hji : j = i
    · rw [hji, Function.update_self, Function.update_self]
      exact Or.inl rfl
    · rw [Function.update_of_ne hji] at hj ⊢
      rw [Function.update_of_ne (hnot j)]
      exact k.entry j hj
  case alive_iff =>
    apply k.alive_update
    · rw [k.alive_iff, hp]
      simp
    · exact fun _ _ => rfl
  case positive => exact k.positive_update hpos _
  case reaped =>
    intro q hq
    exact k.reaped q (phase_of_update hq (by decide)).2
  case report =>
    intro q st hst hterm
    have hq := k.report q st hst hterm
    have hqp : q ≠ p := by
      intro he
      rw [he, hp] at hq
      cases hq
    rw [Function.update_of_ne hqp]
    exact hq

/-- `waitpid` reports the end of a child. -/
theorem reap {fs : List Frame} {st : Status} (k : Books pid phase alive (.reap :: fs))
    (hp : alive p = true) (hst : st.Terminated) :
    Books pid (Function.update phase p .reaped) (Function.update alive p false)
      (.report p st :: fs) := by
  have hpos := k.alive_pos hp
  constructor
  case nonneg => exact k.nonneg
  case unique => exact k.unique
  case added =>
    intro q hq
    exact k.added q (phase_of_update hq nofun).2
  case entry =>
    intro i hi
    by_cases hip : pid i = p
    · rw [hip, Function.update_self]
      exact Or.inr rfl
    · rw [Function.update_of_ne hip]
      exact k.entry i hi
  case alive_iff =>
    apply k.alive_update
    · rw [Function.update_self]
      simp
    · exact fun q hq => Function.update_of_ne hq ..
  case positive => exact k.positive_update hpos _
  case reaped =>
    intro q hq
    by_cases hqp : q = p
    · exact ⟨st, by rw [hqp]; exact List.mem_cons_self, hst⟩
    · rw [Function.update_of_ne hqp] at hq
      obtain ⟨st', hst', hterm⟩ := k.reaped q hq
      rcases List.mem_cons.mp hst' with he | hin
      · cases he
      · exact ⟨st', List.mem_cons_of_mem _ hin, hterm⟩
  case report =>
    intro q st' hst' hterm
    by_cases hqp : q = p
    · rw [hqp, Function.update_self]
    · rw [Function.update_of_ne hqp]
      rcases List.mem_cons.mp hst' with he | hin
      · cases he
        exact absurd rfl hqp
      · exact k.report q st' (List.mem_cons_of_mem _ hin) hterm

/-- The report of an end has been processed: the entry of the process is gone. -/
theorem processed {fs : List Frame} {st : Status} {pid' : Fin maxJobs → ℤ}
    (k : Books pid phase alive (.report p st :: fs)) (hterm : st.Terminated)
    (hfs : Signal.chld ∉ fs.map Frame.signal)
    (hgone : ∀ i, pid i = p → pid' i = 0) (hkeep : ∀ i, pid i ≠ p → pid' i = pid i) :
    Books pid' (Function.update phase p .processed) alive (.reap :: fs) := by
  have hp := k.report p st List.mem_cons_self hterm
  have hnone : ∀ q st', Frame.report q st' ∉ fs := by
    intro q st' hin
    exact hfs (List.mem_map_of_mem (f := Frame.signal) hin)
  have hold : ∀ i, pid' i ≠ 0 → pid i ≠ p ∧ pid' i = pid i := by
    intro i hi
    have hip : pid i ≠ p := fun h => hi (hgone i h)
    exact ⟨hip, hkeep i hip⟩
  constructor
  case nonneg =>
    intro i
    by_cases hip : pid i = p
    · rw [hgone i hip]
    · rw [hkeep i hip]
      exact k.nonneg i
  case unique =>
    intro i j hi hij
    have hi' := (hold i hi).2
    have hj' := (hold j (hij ▸ hi)).2
    rw [hi'] at hi
    exact k.unique i j hi (by rw [← hi', hij, hj'])
  case added =>
    intro q hq
    obtain ⟨hqp, hq⟩ := phase_of_update hq nofun
    obtain ⟨i, hi⟩ := k.added q hq
    exact ⟨i, by rw [hkeep i (by rw [hi]; exact hqp), hi]⟩
  case entry =>
    intro i hi
    obtain ⟨hip, hi'⟩ := hold i hi
    rw [hi', Function.update_of_ne hip]
    exact k.entry i (hi' ▸ hi)
  case alive_iff =>
    apply k.alive_update
    · rw [k.alive_iff, hp]
      simp
    · exact fun _ _ => rfl
  case positive => exact k.positive_update (k.positive p (by rw [hp]; decide)) _
  case reaped =>
    intro q hq
    obtain ⟨hqp, hq⟩ := phase_of_update hq nofun
    obtain ⟨st', hst', -⟩ := k.reaped q hq
    rcases List.mem_cons.mp hst' with he | hin
    · cases he
      exact absurd rfl hqp
    · exact absurd hin (hnone q st')
  case report =>
    intro q st' hst'
    rcases List.mem_cons.mp hst' with he | hin
    · cases he
    · exact absurd hin (hnone q st')

end Books

/-! ### The invariant of the system -/

/-- The handlers in progress handle different signals and run only outside the window of `eval`, and
the books are in order. -/
structure ShellInv (s : Shell) : Prop where
  nodup : (s.frames.map Frame.signal).Nodup
  window : s.main.InWindow → s.blocked = true
  quiet : s.blocked = true → s.frames = []
  adding : ∀ p bg cmdline, s.main = .addjob p bg cmdline → p < 1 ∨ s.phase p = .forked
  books : Books (fun i => (s.job i).pid) s.phase (fun p => (s.child p).isSome) s.frames

theorem shellInv_start : ShellInv Shell.start :=
  ⟨List.nodup_nil, fun h => h.elim, fun h => (by cases h), fun _ _ _ h => (by cases h), Books.start⟩

namespace ShellInv

variable {s s' : Shell} {pc : MainPc} {p : ℤ} {c d : Child} {f : Frame} {fs : List Frame}

theorem halt (k : ShellInv s) (h : Halt) : ShellInv (s.halt h) :=
  ⟨k.nodup, k.window, k.quiet, k.adding, k.books⟩

theorem print (k : ShellInv s) (m : Message) : ShellInv (s.print m) :=
  ⟨k.nodup, k.window, k.quiet, k.adding, k.books⟩

theorem setLast (k : ShellInv s) (p : ℤ) (status : Option Status) : ShellInv (s.setLast p status) :=
  ⟨k.nodup, k.window, k.quiet, k.adding, k.books⟩

theorem raise (k : ShellInv s) (sig : Signal) : ShellInv (s.raise sig) :=
  ⟨k.nodup, k.window, k.quiet, k.adding, k.books⟩

/-- The main loop moves on outside the window. -/
theorem goto (k : ShellInv s) (h : ¬ pc.InWindow) : ShellInv (s.goto pc) := by
  refine ⟨k.nodup, fun hw => absurd hw h, k.quiet, fun p bg cmdline he => ?_, k.books⟩
  replace he : pc = .addjob p bg cmdline := he
  rw [he] at h
  exact absurd trivial h

/-- The main loop moves on inside the window. -/
theorem gotoWindow (k : ShellInv s) (h : s.main.InWindow)
    (hadd : ∀ p bg cmdline, pc = .addjob p bg cmdline → p < 1 ∨ s.phase p = .forked) :
    ShellInv (s.goto pc) :=
  ⟨k.nodup, fun _ => k.window h, k.quiet, hadd, k.books⟩

theorem setState (k : ShellInv s) (i : Fin maxJobs) (state : JobState) :
    ShellInv { s with table := s.table.setState i state } := by
  refine ⟨k.nodup, k.window, k.quiet, k.adding, ?_⟩
  have hpids : (fun j => ((s.table.setState i state).jobs j).pid) = fun j => (s.job j).pid := by
    funext j
    exact setState_pid j
  show Books (fun j => ((s.table.setState i state).jobs j).pid) _ _ _
  rw [hpids]
  exact k.books

theorem alive_setChild (s : Shell) (p : ℤ) (c : Option Child) :
    (fun q => ((s.setChild p c).child q).isSome) =
      Function.update (fun q => (s.child q).isSome) p c.isSome := by
  funext q
  by_cases hqp : q = p
  · subst hqp
    rw [Function.update_self]
    exact congrArg Option.isSome (Function.update_self ..)
  · rw [Function.update_of_ne hqp]
    exact congrArg Option.isSome (Function.update_of_ne hqp ..)

/-- A child changes and stays a child. -/
theorem setChild (k : ShellInv s) (h : s.child p = some c) : ShellInv (s.setChild p (some d)) := by
  refine ⟨k.nodup, k.window, k.quiet, k.adding, ?_⟩
  show Books (fun i => (s.job i).pid) s.phase (fun q => ((s.setChild p (some d)).child q).isSome) _
  have hsame : Function.update (fun q => (s.child q).isSome) p (some d).isSome =
      fun q => (s.child q).isSome := by
    have hp : (some d).isSome = (s.child p).isSome := by
      rw [h]
      rfl
    rw [hp]
    exact Function.update_eq_self p _
  rw [alive_setChild, hsame]
  exact k.books

theorem continueGroup (k : ShellInv s) (g : ℤ) : ShellInv (s.continueGroup g) := by
  refine ⟨k.nodup, k.window, k.quiet, k.adding, ?_⟩
  show Books (fun i => (s.job i).pid) s.phase (fun q => ((s.continueGroup g).child q).isSome) _
  have hsame : (fun q => ((s.continueGroup g).child q).isSome) = fun q => (s.child q).isSome := by
    funext q
    exact Option.isSome_map
  rw [hsame]
  exact k.books

theorem child_pos (k : ShellInv s) (h : s.child p = some c) : 0 < p := by
  apply k.books.alive_pos (p := p)
  rw [h]
  rfl

/-- A process whose end has been reported is no child any more. -/
theorem child_of_report {st : Status} (k : ShellInv s) (h : Frame.report p st ∈ s.frames)
    (hterm : st.Terminated) : s.child p = none := by
  have hreaped := k.books.report p st h hterm
  rw [← Option.not_isSome_iff_eq_none]
  intro halive
  have hin := (k.books.alive_iff p).mp halive
  rw [hreaped] at hin
  rcases hin with hin | hin <;> cases hin

/-- While a handler runs, the main loop is outside the window. -/
theorem notBlocked (k : ShellInv s) (h : s.frames = f :: fs) : s.blocked = false := by
  cases hb : s.blocked with
  | false => rfl
  | true =>
    have := k.quiet hb
    rw [h] at this
    cases this

theorem notWindow (k : ShellInv s) (h : s.frames = f :: fs) : ¬ s.main.InWindow := by
  intro hw
  have := k.window hw
  rw [k.notBlocked h] at this
  cases this

/-- A handler changes the handlers in progress and the books. -/
theorem reframe (k : ShellInv s) (h : s.frames = f :: fs) (hmain : s'.main = s.main)
    (hblocked : s'.blocked = s.blocked) (hnodup : (s'.frames.map Frame.signal).Nodup)
    (hbooks : Books (fun i => (s'.job i).pid) s'.phase (fun p => (s'.child p).isSome) s'.frames) :
    ShellInv s' := by
  have hout : ¬ s'.main.InWindow := by
    rw [hmain]
    exact k.notWindow h
  refine ⟨hnodup, fun hw => absurd hw hout, fun hb => ?_, fun p bg cmdline he => ?_, hbooks⟩
  · rw [hblocked, k.notBlocked h] at hb
    cases hb
  · rw [he] at hout
    exact absurd trivial hout

/-! ### The steps of the main loop -/

theorem dispatch (k : ShellInv s) (cmd : Command) : ShellInv (s.dispatch cmd) := by
  cases cmd with
  | blank | quit => exact k.halt _
  | jobs | bgfg | program => exact k.goto id

theorem listjob (k : ShellInv s) (i : ℕ) : ShellInv (s.listjob i) := by
  rw [Shell.listjob]
  split
  · apply k.goto
    split <;> exact id
  · exact k.goto id

theorem lookup (k : ShellInv s) (fg : Bool) (id : JobArg) : ShellInv (s.lookup fg id) := by
  rw [Shell.lookup]
  split
  · rename_i i _
    have hgoto : ShellInv (s.goto (.sigcont fg i)) := k.goto fun h => h
    exact ⟨hgoto.nodup, hgoto.window, hgoto.quiet, hgoto.adding, hgoto.books⟩
  · exact (k.print _).goto fun h => h

theorem add {bg : Bool} {cmdline : String} (k : ShellInv s) (h : s.main = .addjob p bg cmdline) :
    ShellInv (s.add p bg cmdline) := by
  have hin : s.main.InWindow := by
    rw [h]
    trivial
  rw [Shell.add]
  split
  · rename_i t ht
    obtain ⟨hpos, i, hfree, hjobs, -⟩ := addjob_some ht
    have hforked : s.phase p = .forked := by
      rcases k.adding p bg cmdline h with hneg | hforked
      · omega
      · exact hforked
    have hpids : (fun j => (t.jobs j).pid) = Function.update (fun j => (s.job j).pid) i p := by
      funext j
      rw [hjobs]
      by_cases hji : j = i
      · rw [hji, Function.update_self, Function.update_self]
      · rw [Function.update_of_ne hji, Function.update_of_ne hji]
        rfl
    refine ⟨k.nodup, fun _ => k.window hin, k.quiet, fun _ _ _ he => (by cases he), ?_⟩
    show Books (fun j => (t.jobs j).pid) _ _ _
    rw [hpids]
    exact k.books.add hforked hfree
  · refine ShellInv.gotoWindow ?_ ?_ fun _ _ _ he => (by cases he)
    · split
      · exact k
      · exact k.print _
    · split <;> exact hin

theorem mainStep (k : ShellInv s) (hframes : s.frames = []) (h : MainStep s s') : ShellInv s' := by
  cases h with
  | eof h => exact k.halt _
  | read h cmd => exact k.dispatch cmd
  | list h => exact k.listjob _
  | listIds h | listState h | listCmdline h => exact (k.print _).goto id
  | block h =>
    exact ⟨k.nodup, fun _ => rfl, fun _ => hframes, fun _ _ _ he => (by cases he), k.books⟩
  | @fork bg cmdline p h hpos hchild hgroup =>
    have hin : s.main.InWindow := by
      rw [h]
      trivial
    refine ⟨k.nodup, fun _ => k.window hin, k.quiet, fun q _ _ he => ?_, ?_⟩
    · cases he
      exact Or.inr (Function.update_self ..)
    · have hdead : (s.child p).isSome = false := by
        rw [hchild]
        rfl
      have hbooks := k.books
      rw [hframes] at hbooks
      have hforked := hbooks.fork hpos hdead
      rw [← hframes] at hforked
      show Books (fun i => (s.job i).pid) _
        (fun q => ((s.setChild p (some ⟨.running, false, false⟩)).child q).isSome) _
      rw [alive_setChild]
      exact hforked
  | forkFailed h =>
    refine k.gotoWindow ?_ fun q _ _ he => ?_
    · rw [h]
      trivial
    · cases he
      exact Or.inl (by decide)
  | addjob h => exact k.add h
  | @unblock pid bg cmdline h =>
    have hout : ¬ (if bg then MainPc.announce pid cmdline else .waitfg pid).InWindow := by
      cases bg <;> exact id
    have hgoto := k.goto hout
    exact ⟨k.nodup, fun hw => absurd hw hout, fun hb => (by cases hb), hgoto.adding, k.books⟩
  | announce h => exact (k.print _).goto id
  | lookup h => exact k.lookup _ _
  | sigcont h hgroup => exact ((k.continueGroup _).setLast _ _).goto id
  | sigcontFailed h hgroup => exact k.halt _
  | @setState fg i h =>
    apply (k.setState i _).goto
    cases fg <;> exact id
  | resumed h => exact (k.print _).goto id
  | enterWait h => exact k.goto id
  | scan h hfg => exact k.goto id
  | scanNone h hfg =>
    apply k.goto
    split <;> exact id
  | compare h =>
    apply k.goto
    split <;> exact id

/-! ### The steps of the handlers -/

/-- What `deletejob` leaves of the process IDs. -/
theorem deletejob_pids (k : ShellInv s) (p : ℤ) (i : Fin maxJobs) :
    ((s.job i).pid = p → (((deletejob p s.table).getD s.table).jobs i).pid = 0) ∧
    ((s.job i).pid ≠ p → (((deletejob p s.table).getD s.table).jobs i).pid = (s.job i).pid) := by
  refine ⟨fun hi => ?_, fun hne => congrArg Job.pid (deletejob_job_of_ne hne)⟩
  cases hd : deletejob p s.table with
  | none =>
    have hnonneg : 0 ≤ (s.job i).pid := k.books.nonneg i
    rcases deletejob_eq_none_iff.mp hd with hneg | hnone
    · show (s.job i).pid = 0
      omega
    · exact absurd hi (hnone i)
  | some t =>
    obtain ⟨hpos, -⟩ := deletejob_some hd
    obtain ⟨m, hm, hclear, -⟩ := deletejob_slots hd
    have him : i = m := by
      refine k.books.unique i m ?_ ?_
      · show (s.job i).pid ≠ 0
        omega
      · exact hi.trans hm.symm
    rw [Option.getD_some, him, hclear]
    rfl

theorem notMem_chld (k : ShellInv s) (h : s.frames = f :: fs) (hf : f.signal = .chld) :
    Signal.chld ∉ fs.map Frame.signal := by
  have hnodup := k.nodup
  rw [h, List.map_cons, hf] at hnodup
  exact (List.nodup_cons.mp hnodup).1

/-- A handler goes on: another step of the same handler. -/
theorem nodup_next {f' : Frame} (k : ShellInv s) (h : s.frames = f :: fs)
    (hf : f'.signal = f.signal) : ((f' :: fs).map Frame.signal).Nodup := by
  have hnodup := k.nodup
  rw [h, List.map_cons] at hnodup
  rw [List.map_cons, hf]
  exact hnodup

theorem nodup_return (k : ShellInv s) (h : s.frames = f :: fs) : (fs.map Frame.signal).Nodup := by
  have hnodup := k.nodup
  rw [h, List.map_cons] at hnodup
  exact (List.nodup_cons.mp hnodup).2

/-- A report of an end has been processed. -/
theorem ended {st : Status} (k : ShellInv s) (h : s.frames = .report p st :: fs)
    (hterm : st.Terminated) : ShellInv
      { ({ s with table := (deletejob p s.table).getD s.table }.setPhase p .processed) with
        frames := .reap :: fs } := by
  have hbooks := k.books
  rw [h] at hbooks
  refine k.reframe h rfl rfl (k.nodup_next h rfl) ?_
  exact hbooks.processed hterm (k.notMem_chld h rfl) (fun i => (k.deletejob_pids p i).1)
    fun i => (k.deletejob_pids p i).2

theorem wait (k : ShellInv s) (h : s.frames = .reap :: fs) (hchild : s.child p = some c) :
    ShellInv (s.wait p c fs) := by
  have hbooks := k.books
  rw [h] at hbooks
  rw [Shell.wait]
  split
  · rename_i hterm
    have halive : (s.child p).isSome = true := by
      rw [hchild]
      rfl
    refine k.reframe h rfl rfl (k.nodup_next h rfl) ?_
    show Books (fun i => (s.job i).pid) _ (fun q => ((s.setChild p none).child q).isSome) _
    rw [alive_setChild]
    exact hbooks.reap halive hterm
  · rename_i hterm
    have hset := (k.setChild (d := { c with reported := true }) hchild).books
    replace hset : Books _ _ _ s.frames := hset
    rw [h] at hset
    refine k.reframe h rfl rfl (k.nodup_next h rfl) (hset.replace (by simp) ?_)
    intro q st hst he
    cases he
    exact hterm hst

theorem record {st : Status} (k : ShellInv s) (h : s.frames = .report p st :: fs) :
    ShellInv (s.record p fs st) := by
  have hbooks := k.books
  rw [h] at hbooks
  cases st with
  | stopped sig =>
    have hstop : ∀ q (st' : Status), st'.Terminated → Frame.report q st' ≠ .report p (.stopped sig) := by
      intro q st' hterm he
      cases he
      exact hterm
    rw [Shell.record]
    split
    · rename_i i hi
      have hset := (k.setState i .st).books
      replace hset : Books _ _ _ s.frames := hset
      rw [h] at hset
      exact k.reframe h rfl rfl (k.nodup_next h rfl) (hset.replace hstop (by simp))
    · exact k.halt _
  | signaled sig =>
    have hended := k.ended h trivial
    exact ⟨hended.nodup, hended.window, hended.quiet, hended.adding, hended.books⟩
  | exited =>
    have hended := k.ended h trivial
    exact ⟨hended.nodup, hended.window, hended.quiet, hended.adding, hended.books⟩
  | running =>
    refine k.reframe h rfl rfl (k.nodup_next h rfl) (hbooks.replace ?_ (by simp))
    intro q st' hterm he
    cases he
    exact hterm

theorem handlerStep (k : ShellInv s) (h : HandlerStep s s') : ShellInv s' := by
  have hbooks := k.books
  cases h with
  | report h hchild hreport => exact k.wait h hchild
  | drained h hnone =>
    rw [h] at hbooks
    exact k.reframe h rfl rfl (k.nodup_return h) (hbooks.pop fun _ _ _ => nofun)
  | record h => exact k.record h
  | scan h hfg =>
    rw [h] at hbooks
    exact k.reframe h rfl rfl (k.nodup_next h rfl)
      (hbooks.replace (fun _ _ _ => nofun) fun _ _ _ => nofun)
  | scanNone h hfg =>
    rw [h] at hbooks
    exact k.reframe h rfl rfl (k.nodup_return h) (hbooks.pop fun _ _ _ => nofun)
  | @read fs sig i h =>
    rw [h] at hbooks
    by_cases hpos : 0 < (s.job i).pid
    · rw [if_pos hpos]
      exact k.reframe h rfl rfl (k.nodup_next h rfl)
        (hbooks.replace (fun _ _ _ => nofun) fun _ _ _ => nofun)
    · rw [if_neg hpos]
      exact k.reframe h rfl rfl (k.nodup_return h) (hbooks.pop fun _ _ _ => nofun)
  | kill h hgroup =>
    rw [h] at hbooks
    exact k.reframe h rfl rfl (k.nodup_return h) (hbooks.pop fun _ _ _ => nofun)
  | killFailed h hgroup => exact k.halt _

/-! ### The whole system -/

theorem kernelStep (k : ShellInv s) (h : KernelStep s s') : ShellInv s' := by
  cases h with
  | exit h | killed h | stop h | continued h => exact (k.setChild h).raise _
  | setpgid h => exact k.setChild h
  | join | leave => exact ⟨k.nodup, k.window, k.quiet, k.adding, k.books⟩
  | signal sig => exact k.raise sig

/-- **The step lemma.** -/
theorem step {a : Action} (k : ShellInv s) (h : ShellStep s a s') : ShellInv s' := by
  cases h with
  | main hrun hframes h => exact k.mainStep hframes h
  | handler hrun h => exact k.handlerStep h
  | @deliver sig hrun hpending hblocked hown =>
    have hnot : ∀ p (st : Status), st.Terminated → Frame.report p st ≠ sig.handler := by
      intro p st _
      cases sig <;> exact nofun
    have hsig : sig.handler.signal = sig := by cases sig <;> rfl
    refine ⟨?_, k.window, fun hb => ?_, k.adding, k.books.push hnot⟩
    · show (sig.handler.signal :: s.frames.map Frame.signal).Nodup
      rw [hsig]
      exact List.nodup_cons.mpr ⟨hown, k.nodup⟩
    · replace hb : s.blocked = true := hb
      rw [hblocked] at hb
      cases hb
  | kernel h => exact k.kernelStep h
  | sigquit hrun => exact k.halt _

end ShellInv

/-- The invariant holds in every run. -/
theorem shellInv_of_reachable {s : Shell} (hs : shellRuns.Reachable s) : ShellInv s := by
  refine hs.invariant (fun s h => ?_) fun s a s' k h => k.step h
  rw [h]
  exact shellInv_start

/-! ### The life of a child -/

/-- The events that move a child to another phase. -/
inductive PhaseEvent (s s' : Shell) (p : ℤ) : Prop
  | fork (bg : Bool) (cmdline : String) (h : s'.main = .addjob p bg cmdline)
      (hchild : s.child p = none) (hframes : s.frames = [])
  | addjob (bg : Bool) (cmdline : String) (h : s.main = .addjob p bg cmdline)
      (hpos : 1 ≤ p) (hphase : s'.phase p = .added)
  | report (st : Status) (fs : List Frame) (h : s'.frames = .report p st :: fs)
      (hterm : st.Terminated) (halive : (s.child p).isSome = true)
  | processed (st : Status) (fs : List Frame) (h : s.frames = .report p st :: fs)
      (hterm : st.Terminated)

theorem phase_setPhase (s : Shell) (q : ℤ) (ph : Phase) (p : ℤ) :
    (s.setPhase q ph).phase p = if p = q then ph else s.phase p := by
  by_cases hpq : p = q
  · subst hpq
    rw [if_pos rfl]
    exact Function.update_self ..
  · rw [if_neg hpq]
    exact Function.update_of_ne hpq ..

/-- Only the process itself is in another phase then. -/
theorem eq_of_phase_ne {s : Shell} {p : ℤ} (q : ℤ) (ph : Phase)
    (hp : (s.setPhase q ph).phase p ≠ s.phase p) : p = q := by
  by_contra hpq
  rw [phase_setPhase, if_neg hpq] at hp
  exact hp rfl

/-- A step that has moved a child to another phase is one of these events. -/
theorem phaseEvent_main {s s' : Shell} (hframes : s.frames = []) (h : MainStep s s') {p : ℤ}
    (hp : s'.phase p ≠ s.phase p) : PhaseEvent s s' p := by
  cases h.effect with
  | same h => exact absurd (congrFun h.phase p) hp
  | @fork bg cmdline q hchild hgroup =>
    obtain rfl := eq_of_phase_ne q .forked hp
    exact .fork bg cmdline rfl hchild hframes
  | @addjob q bg cmdline hm =>
    rw [Shell.add] at hp ⊢
    split at hp
    · rename_i t ht
      obtain ⟨hpos, -⟩ := addjob_some ht
      obtain rfl := eq_of_phase_ne q .added hp
      exact .addjob bg cmdline hm hpos (Function.update_self ..)
    · refine absurd ?_ hp
      split <;> rfl
  | sigcont | setState => exact absurd rfl hp

theorem phaseEvent_handler {s s' : Shell} (h : HandlerStep s s') {p : ℤ}
    (hp : s'.phase p ≠ s.phase p) : PhaseEvent s s' p := by
  cases h with
  | @report fs q c h hchild hreport =>
    rw [Shell.wait] at hp ⊢
    by_cases hterm : c.status.Terminated
    · rw [if_pos hterm] at hp ⊢
      obtain rfl := eq_of_phase_ne q .reaped hp
      refine .report c.status fs rfl hterm ?_
      rw [hchild]
      rfl
    · rw [if_neg hterm] at hp
      exact absurd rfl hp
  | @record fs q st h =>
    cases st with
    | stopped sig =>
      refine absurd ?_ hp
      rw [Shell.record]
      split <;> rfl
    | running => exact absurd rfl hp
    | signaled | exited =>
      obtain rfl := eq_of_phase_ne q .processed hp
      exact .processed _ fs h trivial
  | drained | scan | scanNone | read | kill | killFailed => exact absurd rfl hp

theorem phaseEvent {s s' : Shell} {a : Action} (h : ShellStep s a s') {p : ℤ}
    (hp : s'.phase p ≠ s.phase p) : PhaseEvent s s' p := by
  cases h with
  | main hrun hframes h => exact phaseEvent_main hframes h hp
  | handler hrun h => exact phaseEvent_handler h hp
  | kernel h => cases h <;> exact absurd rfl hp
  | deliver | sigquit => exact absurd rfl hp

namespace ShellInv

variable {s s' : Shell} {a : Action} {p : ℤ}

/-- A child leaves the table's phase when `waitpid` reports its end, and not before. -/
theorem added_step (k : ShellInv s) (h : ShellStep s a s') (hp : s.phase p = .added) :
    s'.phase p = .added ∨ ∃ st fs, s'.frames = .report p st :: fs ∧ st.Terminated := by
  by_cases hsame : s'.phase p = s.phase p
  · exact Or.inl (hsame.trans hp)
  · have halive := (k.books.alive_iff p).mpr (Or.inr hp)
    cases phaseEvent h hsame with
    | fork bg cmdline h hchild hframes =>
      rw [hchild] at halive
      cases halive
    | addjob bg cmdline h hpos hphase => exact Or.inl hphase
    | report st fs h hterm => exact Or.inr ⟨st, fs, h, hterm⟩
    | processed st fs h hterm =>
      have hreaped := k.books.report p st (by rw [h]; exact List.mem_cons_self) hterm
      rw [hp] at hreaped
      cases hreaped

/-- A process whose end has been processed stays so until `fork` returns it again. -/
theorem processed_step (k : ShellInv s) (h : ShellStep s a s') (hp : s.phase p = .processed) :
    s'.phase p = .processed ∨ ∃ bg cmdline, s'.main = .addjob p bg cmdline := by
  by_cases hsame : s'.phase p = s.phase p
  · exact Or.inl (hsame.trans hp)
  · cases phaseEvent h hsame with
    | fork bg cmdline h hchild hframes => exact Or.inr ⟨bg, cmdline, h⟩
    | addjob bg cmdline h hpos hphase =>
      rcases k.adding p bg cmdline h with hneg | hforked
      · omega
      · rw [hp] at hforked
        cases hforked
    | report st fs h hterm halive =>
      have hin := (k.books.alive_iff p).mp halive
      rw [hp] at hin
      rcases hin with hin | hin <;> cases hin
    | processed st fs h hterm =>
      have hreaped := k.books.report p st (by rw [h]; exact List.mem_cons_self) hterm
      rw [hp] at hreaped
      cases hreaped

end ShellInv

/-- What the table says about process `p`: while it is an added child it has exactly one entry, and it
is one until `waitpid` reports its end; when that report has been processed it has none, and so it
stays until `fork` returns `p` again. -/
structure TableTracks (s : Shell) (p : ℤ) : Prop where
  listed : s.phase p = .added → ∃! i, (s.job i).pid = p
  untilReaped : s.phase p = .added → ∀ a s', ShellStep s a s' →
    s'.phase p = .added ∨ ∃ st fs, s'.frames = .report p st :: fs ∧ st.Terminated
  struck : s.phase p = .processed → ∀ i, (s.job i).pid ≠ p
  untilForked : s.phase p = .processed → ∀ a s', ShellStep s a s' →
    s'.phase p = .processed ∨ ∃ bg cmdline, s'.main = .addjob p bg cmdline

/-- **The job table tracks the children** in every run of the shell. -/
theorem job_table_tracks {s : Shell} (hs : shellRuns.Reachable s) (p : ℤ) : TableTracks s p := by
  have k := shellInv_of_reachable hs
  refine ⟨k.books.existsUnique, fun hp a s' h => k.added_step h hp, fun hp => ?_,
    fun hp a s' h => k.processed_step h hp⟩
  have hpos := k.books.positive p (by rw [hp]; decide)
  exact k.books.notEntry (by omega) (by rw [hp]; decide) (by rw [hp]; decide)

/-- A background job that has ended before the shell has unblocked the signals. -/
theorem job_table_tracks_zombie : ∃ s : Shell, shellRuns.Reachable s ∧
    s.child 7 = some ⟨.exited, false, true⟩ ∧ ∃! i, (s.job i).pid = 7 := by
  have r0 : shellRuns.Reachable Shell.start := .init rfl
  have r1 := r0.step (.main rfl rfl (.read rfl (.program true "ls &")))
  have r2 := r1.step (.main rfl rfl (.block rfl))
  have r3 := r2.step (.main rfl rfl (.fork (p := 7) rfl (by decide) rfl rfl))
  have r4 := r3.step (.kernel (@KernelStep.setpgid _ 7 _ rfl rfl))
  have r5 := r4.step (.kernel (@KernelStep.exit _ 7 _ rfl rfl))
  have r6 := r5.step (.main rfl rfl (.addjob rfl))
  exact ⟨_, r6, rfl, (job_table_tracks r6 7).listed rfl⟩

end SystemProgramming.ShellLab
