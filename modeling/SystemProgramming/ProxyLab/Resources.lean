import SystemProgramming.Library.Holdings
import SystemProgramming.ProxyLab.Isolation

/-!
# Descriptors and header nodes of the requests

Every open descriptor was opened by `main`, as the `connfd` of a request or as its `clientfd`, and
every header node is in the list of the request it was allocated for.  `proxy_thread` closes the
`connfd` and nothing else.

* `Process.holds` : who holds which descriptor, read off the frames.
* `Ledger` : the descriptor table and the node counts agree with the frames; `Ledger.step`,
  `reachable_ledger` : the step lemma and the run lemma.
* `Ledger.released_iff`, `reachable_returnsClean_iff` : what is released, for a state and for a run.
* `released_of_returnsClean` : when nothing is left open or allocated for requests that have returned.
* `request_leaks` : a request that misses leaves its `clientfd` open.
-/

namespace SystemProgramming.ProxyLab

open Transition Holdings

variable {ι : Type*} [DecidableEq ι]

/-! ### What is held for a request -/

/-- Accepted and not returned. -/
def RequestPc.InProgress : RequestPc → Prop
  | .idle | .finished => False
  | _ => True

/-- Who holds the descriptor `fd`, by the frames. -/
def Process.holds (W : World ι) (s : Process ι) : Fd ι → ℕ → Prop
  | .listening, fd => W.listenfd = fd
  | .conn t, fd => (s.frames t).pc.InProgress ∧ (s.frames t).connfd = fd
  | .client t, fd => (s.frames t).clientfd = some fd

/-- A request has a `clientfd` once it has missed and connected; a hit has none. -/
def Frame.Connected (f : Frame) : Prop :=
  match f.pc with
  | .send _ | .read .. | .write .. | .insertLock _ | .insertBody _ | .insertUnlock =>
    f.cached = none ∧ f.clientfd ≠ none
  | .replay _ => f.cached ≠ none ∧ f.clientfd = none
  | .close | .finished => f.cached ≠ none ↔ f.clientfd = none
  | _ => f.cached = none ∧ f.clientfd = none

/-- The descriptors and the nodes are those the frames and the requests account for. -/
structure Ledger (W : World ι) (s : Process ι) : Prop where
  fds : Records s.fds (s.holds W)
  connected : ∀ t, (s.frames t).Connected
  nodes : ∀ t, s.nodes t = (s.parsers.threads t).request.extraHdrs.length
  fresh : ∀ t, (s.parsers.threads t).pc = .start → (s.parsers.threads t).request.extraHdrs = []
  parsed : ∀ t, Parsed s t

/-- Nothing is left of a request that has returned, and the open descriptors are the listening one and
those of requests in progress. -/
structure Released (W : World ι) (s : Process ι) : Prop where
  closed : ∀ t, (s.frames t).pc = .finished → ∀ fd, s.fds fd ≠ some (.conn t) ∧
    s.fds fd ≠ some (.client t)
  freed : ∀ t, (s.frames t).pc = .finished → s.nodes t = 0
  open_iff : ∀ fd, s.fds fd ≠ none ↔ W.listenfd = fd ∨
    ∃ t, (s.frames t).pc.InProgress ∧
      ((s.frames t).connfd = fd ∨ (s.frames t).clientfd = some fd)

/-- The request was a hit, and has no headers but those the parser drops. -/
def Frame.Clean (f : Frame) : Prop := f.cached ≠ none ∧ f.request.extraHdrs = []

/-- The thread does not return unless its request is clean. -/
def ReturnsClean (s : Process ι) (t : ι) : Prop :=
  (s.frames t).pc = .close → (s.frames t).Clean

/-- Every request that has returned is clean. -/
def ReturnedClean (s : Process ι) : Prop :=
  ∀ t, (s.frames t).pc = .finished → (s.frames t).Clean

/-- The runs in which no call of an I/O wrapper fails. -/
def successfulRuns (W : World ι) : System (Process ι) (ι × Answer) :=
  (processRuns W).restrict fun _ a => a.2 = .success

/-! ### The descriptors -/

namespace Process

variable {W : World ι} {s s' : Process ι} {t u : ι} {f : Frame} {fd : ℕ}

theorem frames_of_update (h : s'.frames = Function.update s.frames t f) (hu : u ≠ t) :
    s'.frames u = s.frames u := by
  rw [h, Function.update_of_ne hu]

/-- A new frame that keeps its descriptors. -/
theorem holds_same (h : s'.frames = Function.update s.frames t f)
    (hpc : f.pc.InProgress ↔ (s.frames t).pc.InProgress) (hconn : f.connfd = (s.frames t).connfd)
    (hclient : f.clientfd = (s.frames t).clientfd) (k : Fd ι) (fd : ℕ) :
    s'.holds W k fd ↔ s.holds W k fd := by
  cases k with
  | listening => exact Iff.rfl
  | conn u | client u =>
    by_cases hu : u = t
    · rw [hu]
      simp [holds, h, hpc, hconn, hclient]
    · simp [holds, frames_of_update h hu]

/-- An accepted connection. -/
theorem holds_conn (h : s'.frames = Function.update s.frames t f) (hpc : f.pc.InProgress)
    (hidle : ¬ (s.frames t).pc.InProgress) (hconn : f.connfd = fd)
    (hclient : f.clientfd = (s.frames t).clientfd) (k : Fd ι) (a : ℕ) :
    s'.holds W k a ↔ s.holds W k a ∨ (k = .conn t ∧ a = fd) := by
  cases k with
  | listening => simp [holds]
  | conn u =>
    by_cases hu : u = t
    · rw [hu]
      simp [holds, h, hpc, hidle, hconn, eq_comm]
    · simp [holds, frames_of_update h hu, hu]
  | client u =>
    by_cases hu : u = t
    · rw [hu]
      simp [holds, h, hclient]
    · simp [holds, frames_of_update h hu]

/-- A connection to an origin. -/
theorem holds_client (h : s'.frames = Function.update s.frames t f)
    (hpc : f.pc.InProgress ↔ (s.frames t).pc.InProgress) (hconn : f.connfd = (s.frames t).connfd)
    (hnone : (s.frames t).clientfd = none) (hsome : f.clientfd = some fd) (k : Fd ι) (a : ℕ) :
    s'.holds W k a ↔ s.holds W k a ∨ (k = .client t ∧ a = fd) := by
  cases k with
  | listening => simp [holds]
  | conn u =>
    by_cases hu : u = t
    · rw [hu]
      simp [holds, h, hpc, hconn]
    · simp [holds, frames_of_update h hu]
  | client u =>
    by_cases hu : u = t
    · rw [hu]
      simp [holds, h, hnone, hsome, eq_comm]
    · simp [holds, frames_of_update h hu, hu]

/-- A closed connection. -/
theorem holds_closed (h : s'.frames = Function.update s.frames t f) (hpc : ¬ f.pc.InProgress)
    (hclient : f.clientfd = (s.frames t).clientfd) (k : Fd ι) (fd : ℕ) :
    s'.holds W k fd ↔ s.holds W k fd ∧ k ≠ .conn t := by
  cases k with
  | listening => simp [holds]
  | conn u =>
    by_cases hu : u = t
    · rw [hu]
      simp [holds, h, hpc]
    · simp [holds, frames_of_update h hu, hu]
  | client u =>
    by_cases hu : u = t
    · rw [hu]
      simp [holds, h, hclient]
    · simp [holds, frames_of_update h hu]

end Process

namespace Ledger

variable {W : World ι} {s s' : Process ι} {t u : ι}

/-- What a step does to the descriptors. -/
theorem fds_step (i : Ledger W s) (h : CallStep W s t s') : Records s'.fds (s'.holds W) := by
  have hconnected := i.connected t
  cases h with
  | accept h hfd =>
    refine i.fds.opened hfd (Process.holds_conn rfl ?_ ?_ ?_ ?_)
    · exact trivial
    · rw [h]
      exact id
    · rfl
    · rfl
  | parse | replayFault | sendFault | writeFault | insertFault => exact i.fds
  | connect h hfd =>
    rw [Frame.Connected, h] at hconnected
    refine i.fds.opened hfd (Process.holds_client rfl ?_ rfl hconnected.2 rfl)
    rw [h]
    exact Iff.rfl
  | close h =>
    have hheld : s.holds W (.conn t) (s.frames t).connfd := ⟨by rw [h]; trivial, rfl⟩
    exact i.fds.closed ((i.fds _ _).mpr hheld) (fun fd hfd => hfd.2.symm)
      (Process.holds_closed rfl id rfl)
  | readEnd h =>
    refine i.fds.congr (Process.holds_same rfl ?_ rfl rfl)
    rw [h]
    dsimp only
    split <;> exact Iff.rfl
  | parsed h | lockFind h | hit h | miss h | unlockFind h | replayed h | send h | sentAll h | read h
  | write h | lockInsert h | insert h | unlockInsert h =>
    refine i.fds.congr (Process.holds_same rfl ?_ rfl rfl)
    rw [h]
    exact Iff.rfl

theorem connected_own (hc : (s.frames t).Connected) (h : CallStep W s t s') :
    (s'.frames t).Connected := by
  cases h with
  | parse | replayFault | sendFault | writeFault | insertFault => exact hc
  | accept h | parsed h | lockFind h | miss h | unlockFind h | send h | sentAll h | read h | write h
  | lockInsert h | insert h | close h =>
    rw [Frame.Connected, h] at hc
    simpa [Frame.Connected, Process.goto, Process.setFrame] using hc
  | hit h | connect h | replayed h | unlockInsert h =>
    rw [Frame.Connected, h] at hc
    simp [Frame.Connected, Process.goto, Process.setFrame, hc]
  | readEnd h =>
    rw [Frame.Connected, h] at hc
    split <;> simp [Frame.Connected, Process.goto, Process.setFrame, hc]

/-- What a step does to the nodes, and that no parser starts again. -/
theorem nodes_step (i : Ledger W s) (h : CallStep W s t s') (u : ι) :
    s'.nodes u = (s'.parsers.threads u).request.extraHdrs.length ∧
      ((s'.parsers.threads u).pc = .start → (s'.parsers.threads u).request.extraHdrs = []) := by
  have hsame : s'.parsers.threads = s.parsers.threads → s'.nodes = s.nodes →
      s'.nodes u = (s'.parsers.threads u).request.extraHdrs.length ∧
        ((s'.parsers.threads u).pc = .start → (s'.parsers.threads u).request.extraHdrs = []) := by
    intro hthreads hnodes
    rw [hthreads, hnodes]
    exact ⟨i.nodes u, i.fresh u⟩
  cases h with
  | parse h hact =>
    by_cases hu : u = t
    · rw [hu]
      obtain ⟨hstarted, hlength⟩ := Parsers.act_nodes hact (i.fresh t)
      refine ⟨?_, fun hstart => absurd hstart hstarted⟩
      show Function.update s.nodes t _ t = _
      rw [Function.update_self, i.nodes t, hlength]
    · obtain ⟨hpc, hrequest⟩ := Parsers.act_other hact hu
      show Function.update s.nodes t _ u = _ ∧ _
      rw [Function.update_of_ne hu, hpc, hrequest]
      exact ⟨i.nodes u, i.fresh u⟩
  | _ => exact hsame rfl rfl

/-- **The step lemma.** -/
theorem step (i : Ledger W s) (h : CallStep W s t s') : Ledger W s' := by
  refine ⟨i.fds_step h, fun u => ?_, fun u => (i.nodes_step h u).1, fun u => (i.nodes_step h u).2,
    fun u => ?_⟩
  · by_cases hu : u = t
    · rw [hu]
      exact connected_own (i.connected t) h
    · rw [(h.frame hu).1]
      exact i.connected u
  · by_cases hu : u = t
    · rw [hu]
      exact (i.parsed t).own h
    · exact (i.parsed u).other h hu

section Finished

omit [DecidableEq ι]

theorem nodes_finished (i : Ledger W s) (hdone : (s.frames t).pc = .finished) :
    s.nodes t = (s.frames t).request.extraHdrs.length := by
  have hparsed := i.parsed t
  rw [Parsed, hdone] at hparsed
  rw [i.nodes, hparsed.2]

theorem cached_finished (i : Ledger W s) (hdone : (s.frames t).pc = .finished) :
    (s.frames t).cached ≠ none ↔ (s.frames t).clientfd = none := by
  have hconnected := i.connected t
  rw [Frame.Connected, hdone] at hconnected
  exact hconnected

/-- Where every returned request is clean, a `clientfd` belongs to a request in progress. -/
theorem inProgress_of_clientfd (i : Ledger W s) (hclean : ReturnedClean s) {fd : ℕ}
    (hsome : (s.frames t).clientfd = some fd) : (s.frames t).pc.InProgress := by
  have hconnected := i.connected t
  cases hpc : (s.frames t).pc with
  | idle =>
    rw [Frame.Connected, hpc] at hconnected
    rw [hconnected.2] at hsome
    cases hsome
  | finished =>
    rw [(i.cached_finished hpc).mp (hclean t hpc).1] at hsome
    cases hsome
  | _ => exact trivial

/-- Then the open descriptors are the listening one and those of requests in progress. -/
theorem open_iff_of_clean (i : Ledger W s) (hclean : ReturnedClean s) (fd : ℕ) :
    s.fds fd ≠ none ↔ W.listenfd = fd ∨
      ∃ t, (s.frames t).pc.InProgress ∧
        ((s.frames t).connfd = fd ∨ (s.frames t).clientfd = some fd) := by
  have hopened : ∀ k, s.holds W k fd → s.fds fd ≠ none := by
    intro k hk
    rw [(i.fds k fd).mpr hk]
    nofun
  constructor
  · intro hopen
    obtain ⟨k, hk⟩ := Option.ne_none_iff_exists'.mp hopen
    have hheld := (i.fds k fd).mp hk
    cases k with
    | listening => exact .inl hheld
    | conn t => exact .inr ⟨t, hheld.1, .inl hheld.2⟩
    | client t => exact .inr ⟨t, i.inProgress_of_clientfd hclean hheld, .inr hheld⟩
  · rintro (hlisten | ⟨t, hin, hconn | hclient⟩)
    · exact hopened .listening hlisten
    · exact hopened (.conn t) ⟨hin, hconn⟩
    · exact hopened (.client t) hclient

/-- **What is released**, in terms of the requests that have returned. -/
theorem released_iff (i : Ledger W s) : Released W s ↔ ReturnedClean s := by
  constructor
  · intro hr t hdone
    refine ⟨(i.cached_finished hdone).mpr ?_, ?_⟩
    · by_contra hne
      obtain ⟨fd, hfd⟩ := Option.ne_none_iff_exists'.mp hne
      exact (hr.closed t hdone fd).2 ((i.fds (.client t) fd).mpr hfd)
    · rw [← List.length_eq_zero_iff, ← i.nodes_finished hdone]
      exact hr.freed t hdone
  · intro hclean
    refine ⟨fun t hdone fd => ⟨fun hfd => ?_, fun hfd => ?_⟩, fun t hdone => ?_,
      i.open_iff_of_clean hclean⟩
    · have hin := ((i.fds (.conn t) fd).mp hfd).1
      rw [hdone] at hin
      exact hin
    · have hin := i.inProgress_of_clientfd hclean ((i.fds (.client t) fd).mp hfd)
      rw [hdone] at hin
      exact hin
    · rw [i.nodes_finished hdone, (hclean t hdone).2, List.length_nil]

end Finished

end Ledger

/-- **The run lemma.** -/
theorem reachable_ledger {W : World ι} {s : Process ι}
    (hs : (successfulRuns W).Reachable s) : Ledger W s := by
  refine hs.invariant ?_ ?_
  · rintro s rfl
    refine ⟨fun k fd => ?_, fun t => ⟨rfl, rfl⟩, fun t => rfl, fun t _ => rfl, fun t => trivial⟩
    cases k with
    | listening => simp [Process.initial, Process.holds, Function.update_apply, eq_comm]
    | conn t => simp [Process.initial, Process.holds, Function.update_apply, RequestPc.InProgress]
    | client t => simp [Process.initial, Process.holds, Function.update_apply]
  · rintro s ⟨t, a⟩ s' i ⟨rfl, hstep⟩
    cases hstep with
    | success _ h => exact i.step h

/-! ### Requests that have returned -/

section Returned

variable {W : World ι} {s s' : Process ι} {t : ι}

/-- A request that has returned takes no step. -/
theorem CallStep.not_finished (h : CallStep W s t s') : (s.frames t).pc ≠ .finished := by
  cases h with
  | _ h =>
    rw [h]
    nofun

/-- A step finishes its own request at `Close` only, and keeps what that looked up and parsed. -/
theorem CallStep.finished_cases (h : CallStep W s t s') :
    ((s.frames t).pc = .close ∧ s'.frames t = { s.frames t with pc := .finished }) ∨
      ((s.frames t).pc ≠ .close ∧ (s'.frames t).pc ≠ .finished) := by
  cases h with
  | close h => exact .inl ⟨h, Function.update_self ..⟩
  | replayFault h | sendFault h | writeFault h | insertFault h | parse h =>
    have hne : (s.frames t).pc ≠ .close ∧ (s.frames t).pc ≠ .finished := by
      rw [h]
      exact ⟨nofun, nofun⟩
    exact .inr hne
  | readEnd h =>
    rw [h]
    split <;> simp [Process.goto]
  | accept h | parsed h | hit h | connect h | lockFind h | miss h | unlockFind h | replayed h | send h
  | sentAll h | read h | write h | lockInsert h | insert h | unlockInsert h =>
    simp [Process.goto, Process.setFrame, h]

/-- **The step lemma.** -/
theorem CallStep.returnedClean_iff (h : CallStep W s t s') :
    ReturnedClean s' ↔ ReturnedClean s ∧ ReturnsClean s t := by
  constructor
  · intro hclean
    refine ⟨fun u hdone => ?_, fun hpc => ?_⟩
    · have hu : u ≠ t := fun hu => h.not_finished (hu ▸ hdone)
      have hthis := hclean u
      rw [(h.frame hu).1] at hthis
      exact hthis hdone
    · have hthis := hclean t
      rcases h.finished_cases with ⟨-, hframe⟩ | ⟨hne, -⟩
      · rw [hframe] at hthis
        exact hthis rfl
      · exact absurd hpc hne
  · rintro ⟨hclean, hreturns⟩ u hdone
    by_cases hu : u = t
    · rw [hu] at hdone ⊢
      rcases h.finished_cases with ⟨hpc, hframe⟩ | ⟨-, hne⟩
      · rw [hframe]
        exact hreturns hpc
      · exact absurd hdone hne
    · rw [(h.frame hu).1] at hdone ⊢
      exact hclean u hdone

/-- **The run lemma.**  A run leads to a state in which every returned request is clean just when no
step of it returns another. -/
theorem reachable_returnsClean_iff :
    ((successfulRuns W).restrict fun s a => ReturnsClean s a.1).Reachable s ↔
      (successfulRuns W).Reachable s ∧ ReturnedClean s := by
  constructor
  · intro hs
    refine ⟨hs.of_restrict, hs.invariant ?_ ?_⟩
    · rintro s rfl t hdone
      cases hdone
    · rintro s ⟨t, a⟩ s' hclean ⟨hreturns, rfl, hstep⟩
      cases hstep with
      | success _ h => exact h.returnedClean_iff.mpr ⟨hclean, hreturns⟩
  · rintro ⟨hs, hclean⟩
    induction hs with
    | init h => exact .init h
    | @step s s' a hs hst ih =>
      obtain ⟨t, a⟩ := a
      obtain ⟨rfl, hstep⟩ := hst
      cases hstep with
      | success halive h =>
        obtain ⟨hbefore, hreturns⟩ := h.returnedClean_iff.mp hclean
        exact (ih hbefore).step ⟨hreturns, rfl, .success halive h⟩

/-- **Nothing leaks** in a run in which every request that returns was a hit without headers of its
own, and the first step that returns another leaks. -/
theorem released_of_returnsClean (W : World ι) (s : Process ι)
    (hs : ((successfulRuns W).restrict fun s a => ReturnsClean s a.1).Reachable s) :
    Released W s ∧
      ∀ t s', ProcessStep W s (t, .success) s' → (Released W s' ↔ ReturnsClean s t) := by
  obtain ⟨hrun, hclean⟩ := reachable_returnsClean_iff.mp hs
  have i := reachable_ledger hrun
  refine ⟨i.released_iff.mpr hclean, fun t s' hstep => ?_⟩
  cases hstep with
  | success _ h => rw [(i.step h).released_iff, h.returnedClean_iff, and_iff_right hclean]

end Returned

/-- The second client of `oneByteWorld` hits what the first has inserted and returns before the first
closes its connection. -/
theorem released_of_returnsClean_hit : ∃ s : Process Bool, Released oneByteWorld s ∧
    (s.frames true).pc = .finished ∧ (s.frames false).pc = .close ∧
    s.fds 4 = some (.conn false) ∧ s.fds 5 = some (.client false) := by
  obtain ⟨s, hs, hframe, hcache, hmutex, hfd, -, hwaits⟩ := oneByte_closing
  obtain ⟨c, c', e, bytes, hins, hfind, hentry, hbytes⟩ := oneByte_cached
  obtain rfl := Option.some.inj (hins.symm.trans hcache)
  have halive := (reachable_served hs).alive
  have hcall : ∀ {r r' : Process Bool} {t : Bool}, (successfulRuns oneByteWorld).Reachable r →
      r.parsers.alive = true → CallStep oneByteWorld r t r' →
        (successfulRuns oneByteWorld).Reachable r' := by
    intro r r' t hr hlive h
    exact hr.step ⟨rfl, .success hlive h⟩
  obtain ⟨s', ⟨hrun, halive'⟩, hframes, hcache', -⟩ := oneByte_finds (t := true)
    (R := fun r => (successfulRuns oneByteWorld).Reachable r ∧ r.parsers.alive = true)
    (fun hr h hlive _ _ => ⟨hcall hr.1 hr.2 h, hlive⟩)
    ⟨hs.restrict_mono fun s a ha => ha.1.1, halive⟩ halive hwaits.parser hwaits.frame hmutex hwaits.free
  have hsecond : s'.frames true = ⟨.findBody, 6, rootRequest, none, none⟩ := by
    rw [hframes, Function.update_self]
  have hfirst : s'.frames false = ⟨.close, 4, rootRequest, none, some 5⟩ := by
    rw [hframes, Function.update_of_ne Bool.false_ne_true, hframe]
  have hlookup : cacheFind 1 (s'.frames true).request.key s'.cache = some (some 0, c') := by
    rw [hsecond, hcache']
    exact hfind
  have h₁ := hcall (t := true) hrun halive' (.hit (by rw [hsecond]) hlookup)
  rw [hsecond] at h₁
  have h₂ := hcall (t := true) h₁ halive' (.replayed rfl hentry hbytes)
  have h₃ := hcall (t := true) h₂ halive' (.close rfl)
  have i := reachable_ledger h₃
  have hin : (s'.frames false).pc.InProgress ∧ (s'.frames false).connfd = 4 := by
    rw [hfirst]
    exact ⟨trivial, rfl⟩
  have hconn := (i.fds (.conn false) 4).mpr hin
  have hclient := (i.fds (.client false) 5).mpr (congrArg Frame.clientfd hfirst)
  refine ⟨_, (released_of_returnsClean _ _ (reachable_returnsClean_iff.mpr ⟨h₃, fun t hdone => ?_⟩)).1,
    rfl, congrArg Frame.pc hfirst, hconn, hclient⟩
  cases t with
  | true => exact ⟨nofun, rfl⟩
  | false =>
    have hpc : (s'.frames false).pc = .finished := hdone
    rw [hfirst] at hpc
    cases hpc

/-- The first client of `oneByteWorld` has missed, and its request has returned. -/
theorem request_leaks : ∃ s : Process Bool,
    (successfulRuns oneByteWorld).Reachable s ∧ (s.frames false).pc = .finished ∧
      s.fds 5 = some (.client false) ∧ ¬ Released oneByteWorld s := by
  obtain ⟨s, hs, hframe, hfd, -⟩ := oneByte_served
  have hdone : (s.frames false).pc = .finished := by rw [hframe]
  refine ⟨s, hs.restrict_mono fun s a ha => ha.1.1, hdone, hfd, fun hr => ?_⟩
  exact (hr.closed false hdone 5).2 hfd

end SystemProgramming.ProxyLab
