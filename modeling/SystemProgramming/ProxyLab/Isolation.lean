import SystemProgramming.ProxyLab.Process
import SystemProgramming.ProxyLab.Serving

/-!
# What one request's failure does to the others

An error reported to any I/O wrapper of any request ends the process, and so does a header line
without a value.  A client that closes early without either merely ends its input.  Where every step
survives, no lookup hits and no two threads are between their calls of `strtok`, each client receives
the answer to its own request, whatever the others do.

* `Survives` : a step after which the process still runs; `step_alive_iff`.
* `Sound` : a step that survives and does not interfere.
* `Served` : the invariant of runs of such steps; `served_step`, `reachable_served` : the step lemma and
  the run lemma.
* `requests_isolated_of_sound` : in such runs the requests are isolated.
* `oneByte_served` : such a run; `failure_ends_process` : a run with a host that does not resolve.
-/

namespace SystemProgramming.ProxyLab

open Transition
open SystemProgramming.CString (literal strAt)

variable {ι : Type*} [DecidableEq ι]

/-! ### Steps that survive -/

/-- `trim` is not about to read through a `NULL` that `strtok` returned. -/
def Parsers.TokenFound (s : Parsers ι) (t : ι) : Prop :=
  match (s.threads t).pc with
  | .trimKey none | .trimValue _ none => False
  | _ => True

/-- A step whose call succeeds, whose tokens exist, whose strings and copies fit their buffers, and whose
strings end in their buffers where they are printed or duplicated. -/
def Survives (s : Process ι) (a : ι × Answer) : Prop :=
  a.2 = .success ∧
    match (s.frames a.1).pc with
    | .parse => s.parsers.TokenFound a.1
    | .send (line :: _) => line.length < maxLine
    | .write chunk _ buf r => (relayChunk r chunk).isSome ∧ 0 ∈ buf
    | .insertBody r => 0 ∈ r.body
    | _ => True

/-- A step that survives, whose lookup misses, and whose first `strtok` does not fall between the two
of another thread. -/
def Sound (s : Process ι) (a : ι × Answer) : Prop :=
  Survives s a ∧ Undisturbed s.parsers a.1 ∧ LookupMisses s.toProxy a.1

/-- A process that has ended takes no step. -/
theorem dead_stops {W : World ι} {s : Process ι} (hdead : s.parsers.alive = false) (a : ι × Answer)
    (s' : Process ι) : ¬ ProcessStep W s a s' := by
  intro h
  cases h with
  | success halive | failure halive =>
    rw [hdead] at halive
    cases halive

/-- What the origin answers to a request that arrives as the proxy parsed it. -/
def response (W : World ι) (t : ι) (request : HttpRequest) : List UInt8 :=
  W.origin t request.hostname request.port (requestLines request).flatten

/-! ### The invariant -/

/-- What has been written for a request by the time its thread is where it is. -/
def Wrote (W : World ι) (s : Process ι) (t : ι) : Prop :=
  match (s.frames t).pc with
  | .replay _ => False
  | .send lines =>
    s.asked t ++ lines.flatten = (requestLines (s.frames t).request).flatten ∧ s.sent t = []
  | .read rest _ r =>
    s.sent t ++ rest = response W t (s.frames t).request ∧ ∃ chunks, relay chunks relayStart = some r
  | .write chunk rest _ r =>
    s.sent t ++ (chunk ++ rest) = response W t (s.frames t).request ∧
      ∃ chunks, relay chunks relayStart = some r
  | .insertLock _ | .insertBody _ | .insertUnlock | .close | .finished =>
    s.sent t = response W t (s.frames t).request
  | _ => s.asked t = [] ∧ s.sent t = []

/-- After `parse_request` the thread has the request that its parser obtained. -/
def Parsed (s : Process ι) (t : ι) : Prop :=
  match (s.frames t).pc with
  | .idle | .parse => True
  | _ => (s.parsers.threads t).pc = .finished ∧
      (s.frames t).request = (s.parsers.threads t).request

/-- The process is alive, its parsers and its threads are in runs without interference, and every
request has been served so far from its own connection alone. -/
structure Served (W : World ι) (s : Process ι) : Prop where
  alive : s.parsers.alive = true
  parsers : ((parseRuns W.input).restrict Undisturbed).Reachable s.parsers
  proxy : ((proxyRuns ι).restrict LookupMisses).Reachable s.toProxy
  wrote : ∀ t, Wrote W s t
  parsed : ∀ t, Parsed s t

/-- A parser faults just where a token is missing. -/
theorem Parsers.act_alive_iff {s s' : Parsers ι} {t : ι} (hs : Separate s) (halive : s.alive = true)
    (h : s.act t = some s') : s'.alive = true ↔ s.TokenFound t := by
  have hsaved := hs.saved t
  rw [act_alive h halive, Faults, TokenFound]
  cases hpc : (s.threads t).pc with
  | tokValue key =>
    rw [hpc] at hsaved
    obtain ⟨k, hk⟩ := hsaved trivial
    simp [hk]
  | trimKey tok | trimValue _ tok => cases tok <;> simp
  | _ => simp

/-- One more chunk. -/
theorem relay_snoc {chunks : List (List UInt8)} {chunk : List UInt8} {r₀ r r' : Relay}
    (h : relay chunks r₀ = some r) (hchunk : relayChunk r chunk = some r') :
    relay (chunks ++ [chunk]) r₀ = some r' := by
  induction chunks generalizing r₀ with
  | nil =>
    obtain rfl := Option.some.inj h
    simp [relay, hchunk]
  | cons c chunks ih =>
    obtain ⟨r₁, hstep, hrest⟩ := Option.bind_eq_some_iff.mp h
    rw [List.cons_append, relay, hstep]
    exact ih hrest

section Step

variable {W : World ι} {s s' : Process ι} {t u : ι}

/-- The steps of `t` leave what was written for the others. -/
theorem Wrote.other (hw : Wrote W s u) (h : CallStep W s t s') (hu : u ≠ t) : Wrote W s' u := by
  obtain ⟨hframe, -, hasked, hsent⟩ := h.frame hu
  rw [Wrote, hframe, hasked, hsent]
  exact hw

theorem Parsed.other (hp : Parsed s u) (h : CallStep W s t s') (hu : u ≠ t) : Parsed s' u := by
  have hparser : (s'.parsers.threads u).pc = (s.parsers.threads u).pc ∧
      (s'.parsers.threads u).request = (s.parsers.threads u).request := by
    rcases h.parsers_cases with he | ⟨-, hact⟩ | he
    · rw [he]
      exact ⟨rfl, rfl⟩
    · exact Parsers.act_other hact hu
    · rw [he]
      exact ⟨rfl, rfl⟩
  rw [Parsed, (h.frame hu).1, hparser.1, hparser.2]
  exact hp

/-- What a step of `t` whose lookup misses writes for `t`. -/
theorem Wrote.own (hw : Wrote W s t) (hmutex : MutexInv s.toProxy) (hmiss : LookupMisses s.toProxy t)
    (h : CallStep W s t s') : Wrote W s' t := by
  cases h with
  | parse h hact =>
    rw [Wrote, h] at hw
    simpa [Wrote, h] using hw
  | hit h hfind =>
    have hpc : s.toProxy.pc t = .findBody (s.frames t).request.key := by
      show (s.frames t).pc.threadPc _ = _
      rw [h]
      rfl
    exact absurd hmiss (hmutex.not_misses_of_hit hpc hfind)
  | replayed h =>
    rw [Wrote, h] at hw
    exact hw.elim
  | replayFault | sendFault | writeFault | insertFault => exact hw
  | connect h hfd =>
    rw [Wrote, h] at hw
    simp [Wrote, Process.setFrame, hw]
  | sentAll h =>
    simp only [Wrote, h, List.flatten_nil, List.append_nil] at hw
    simp only [Wrote, Process.goto, Process.setFrame_frames_self, response, ← hw.1]
    refine ⟨?_, [], rfl⟩
    show s.sent t ++ _ = _
    rw [hw.2, List.nil_append]
  | readEnd h =>
    simp only [Wrote, h, List.append_nil] at hw
    split <;> simp [Wrote, Process.goto, Process.setFrame, hw]
  | write h hrelay hstr =>
    rw [Wrote, h] at hw
    obtain ⟨hsent, chunks, hchunks⟩ := hw
    simp only [Wrote, Process.goto, Process.setFrame, Function.update_self, List.append_assoc]
    exact ⟨hsent, _, relay_snoc hchunks hrelay⟩
  | accept h | parsed h | lockFind h | miss h | unlockFind h | send h | read h | lockInsert h
  | insert h | unlockInsert h | close h =>
    rw [Wrote, h] at hw
    simpa [Wrote, Process.goto, Process.setFrame] using hw

theorem Parsed.own (hp : Parsed s t) (h : CallStep W s t s') : Parsed s' t := by
  cases h with
  | accept h | parse h =>
    simp [Parsed, Process.setFrame, h]
  | parsed h hdone =>
    simp [Parsed, Process.setFrame, hdone]
  | replayFault | sendFault | writeFault | insertFault => exact hp
  | readEnd h =>
    rw [Parsed, h] at hp
    split <;> simpa [Parsed, Process.goto, Process.setFrame] using hp
  | lockFind h | hit h | miss h | unlockFind h | replayed h | connect h | send h | sentAll h | read h
  | write h | lockInsert h | insert h | unlockInsert h | close h =>
    rw [Parsed, h] at hp
    simpa [Parsed, Process.goto, Process.setFrame] using hp

/-- **A step leaves the process running just when it survives.** -/
theorem step_alive_iff {a : Answer} (i : Served W s) (h : ProcessStep W s (t, a) s') :
    s'.parsers.alive = true ↔ Survives s (t, a) := by
  obtain ⟨-, -, hsep, -⟩ := alone_of_undisturbed i.parsers t
  rw [Survives]
  cases h with
  | failure halive hcall => exact iff_of_false Bool.false_ne_true fun h => by cases h.1
  | success halive h =>
    rw [and_iff_right rfl]
    cases h with
    | parse h hact =>
      rw [h]
      exact Parsers.act_alive_iff hsep halive hact
    | replayFault h =>
      have hw := i.wrote t
      rw [Wrote, h] at hw
      exact hw.elim
    | sendFault h hlong =>
      rw [h]
      exact iff_of_false Bool.false_ne_true (not_lt.mpr hlong)
    | writeFault h hout =>
      rw [h]
      exact iff_of_false Bool.false_ne_true hout
    | insertFault h hstr =>
      rw [h]
      exact iff_of_false Bool.false_ne_true hstr
    | send h hfits =>
      rw [h]
      exact iff_of_true halive hfits
    | write h hrelay hstr =>
      rw [h]
      exact iff_of_true halive ⟨Option.isSome_of_eq_some hrelay, hstr⟩
    | insert h hins hstr =>
      rw [h]
      exact iff_of_true halive hstr
    | parsed h hdone =>
      rw [h]
      refine iff_of_true halive ?_
      show s.parsers.TokenFound t
      rw [Parsers.TokenFound, hdone]
      trivial
    | accept h | lockFind h | hit h | miss h | unlockFind h | replayed h | connect h
    | sentAll h | read h | readEnd h | lockInsert h | unlockInsert h | close h =>
      rw [h]
      exact iff_of_true halive trivial

/-- **The step lemma.** -/
theorem served_step {a : Answer} (i : Served W s) (hsound : Sound s (t, a))
    (h : ProcessStep W s (t, a) s') : Served W s' := by
  obtain ⟨hsurvives, hund, hmiss⟩ := hsound
  have halive' := (step_alive_iff i h).mpr hsurvives
  cases h with
  | failure => cases halive'
  | success halive h =>
    have hmutex := reachable_mutexInv i.proxy
    have hrelay : ∀ rest buf r, (s.frames t).pc = .read rest buf r →
        ∃ chunks, relay chunks relayStart = some r := by
      intro rest buf r hpc
      have hw := i.wrote t
      rw [Wrote, hpc] at hw
      exact hw.2
    refine ⟨halive', ?_, ?_, fun u => ?_, fun u => ?_⟩
    · rcases h.parsers_cases with he | ⟨hpc, hact⟩ | he
      · rw [he]
        exact i.parsers
      · exact i.parsers.step ⟨hund, Parsers.step_eq_some.mpr ⟨halive, hact⟩⟩
      · rw [he] at halive'
        cases halive'
    · rcases h.toProxy hrelay with he | hstep
      · rw [he]
        exact i.proxy
      · exact i.proxy.step ⟨hmiss, hstep⟩
    · by_cases hu : u = t
      · rw [hu]
        exact (i.wrote t).own hmutex hmiss h
      · exact (i.wrote u).other h hu
    · by_cases hu : u = t
      · rw [hu]
        exact (i.parsed t).own h
      · exact (i.parsed u).other h hu

/-- **The run lemma.** -/
theorem reachable_served (hs : ((processRuns W).restrict Sound).Reachable s) : Served W s := by
  refine hs.invariant ?_ ?_
  · rintro s rfl
    exact ⟨rfl, .init rfl, .init rfl, fun t => ⟨rfl, rfl⟩, fun t => trivial⟩
  · rintro s ⟨t, a⟩ s' i ⟨hsound, hstep⟩
    exact served_step i hsound hstep

end Step

/-- After `parse_request` a thread is not about to call `strtok`. -/
theorem Served.not_tokKey {W : World ι} {s : Process ι} {t : ι} (i : Served W s)
    (hidle : (s.frames t).pc ≠ .idle) (hparse : (s.frames t).pc ≠ .parse) :
    (s.parsers.threads t).pc ≠ .tokKey := by
  have hparsed := i.parsed t
  rw [Parsed] at hparsed
  split at hparsed
  · next hpc => exact absurd hpc hidle
  · next hpc => exact absurd hpc hparse
  · simp [hparsed.1]

/-! ### A sound run -/

/-- Away from a first `strtok` and from a lookup in a cache that has entries, a step that leaves the
process running is sound. -/
theorem sound_call {W : World ι} {s s' : Process ι} {t : ι}
    (hs : ((processRuns W).restrict Sound).Reachable s) (h : CallStep W s t s')
    (halive : s'.parsers.alive = true) (htok : (s.parsers.threads t).pc ≠ .tokKey)
    (hcache : s.cache = cacheInit ∨ (s.frames t).pc ≠ .findBody) :
    ((processRuns W).restrict Sound).Reachable s' := by
  have i := reachable_served hs
  have hstep : ProcessStep W s (t, .success) s' := .success i.alive h
  have hmiss : LookupMisses s.toProxy t := by
    intro uri hpc p e he
    rcases hcache with hc | hne
    · rw [show s.toProxy.cache = cacheInit from hc] at he
      cases he
    · have hpc' : (s.frames t).pc.threadPc (s.frames t).request.key = .findBody uri := hpc
      cases hframe : (s.frames t).pc with
      | findBody => exact absurd hframe hne
      | _ =>
        rw [hframe] at hpc'
        cases hpc'
  exact hs.step ⟨⟨(step_alive_iff i hstep).mp halive, fun h => absurd h htok, hmiss⟩, hstep⟩

/-- The lines of a request, written one after the other. -/
theorem sound_sends {W : World ι} {s : Process ι} {t : ι} {lines : List (List UInt8)}
    (hs : ((processRuns W).restrict Sound).Reachable s) (h : (s.frames t).pc = .send lines)
    (hfits : ∀ line ∈ lines, line.length < maxLine) :
    ((processRuns W).restrict Sound).Reachable { s.goto t (.send []) with
      asked := Function.update s.asked t (s.asked t ++ lines.flatten) } := by
  induction lines generalizing s with
  | nil =>
    have hframe : (s.frames t) = { s.frames t with pc := .send [] } := by rw [← h]
    have hself : ({ s.goto t (.send []) with
        asked := Function.update s.asked t (s.asked t ++ ([] : List (List UInt8)).flatten) } :
          Process ι) = s := by
      simp [Process.goto, Process.setFrame, ← hframe]
    rw [hself]
    exact hs
  | cons line lines ih =>
    have i := reachable_served hs
    have htok := i.not_tokKey (t := t) (by simp [h]) (by simp [h])
    have hs' := sound_call hs (.send h (hfits line (List.mem_cons_self ..))) i.alive htok
      (.inr (by simp [h]))
    have hrest := ih hs' (by simp [Process.goto]) fun l hl => hfits l (List.mem_cons_of_mem _ hl)
    simpa [Process.goto, Process.setFrame] using hrest

/-- Both clients ask for `http://a/`, which answers with one byte. -/
def oneByteWorld : World Bool where
  listenfd := 3
  input _ := literal "GET http://a/ HTTP/1.0\r\n\r\n"
  origin _ _ _ _ := [72]
  stack _ := List.replicate maxLine 0

/-- The request the clients of `oneByteWorld` make. -/
def rootRequest : HttpRequest :=
  ⟨literal "http://a/", literal "/", literal "a", literal "a", literal "80", []⟩

/-- A parser that has not started has parsed the request of `oneByteWorld` after two steps. -/
theorem oneByte_parses {p : Parsers Bool} {t : Bool}
    (h : p.threads t = (Parsers.initial oneByteWorld.input).threads t) :
    ∃ p₁ p₂, p.act t = some p₁ ∧ p₁.act t = some p₂ ∧ p₁.alive = p.alive ∧ p₂.alive = p.alive ∧
      (p₁.threads t).pc = .readHeader ∧ (p₂.threads t).pc = .finished ∧
      (p₂.threads t).request = rootRequest ∧ ∀ u, u ≠ t → p₂.threads u = p.threads u := by
  let line := readLine (maxLine - 1) (literal "GET http://a/ HTTP/1.0\r\n\r\n")
  let line' := readLine (maxLine - 1) line.2
  let buf := fill (List.replicate maxLine 0) line.1
  have hrequest : scanRequestLine buf = rootRequest := by
    decide +kernel
  have hlast : line'.1 = [] ∨ strAt (fill buf line'.1) 0 = literal "\r\n" := by
    decide +kernel
  have hact₁ : p.act t = some (p.set t ⟨.readHeader, line.2, buf, scanRequestLine buf⟩) := by
    simp only [Parsers.act, h]
    rfl
  have hact₂ : (p.set t ⟨.readHeader, line.2, buf, scanRequestLine buf⟩).act t =
      some ((p.set t ⟨.readHeader, line.2, buf, scanRequestLine buf⟩).set t
        ⟨.finished, line'.2, fill buf line'.1, scanRequestLine buf⟩) := by
    simp only [Parsers.act, Parsers.set_threads_self]
    exact congrArg (fun pc => some (Parsers.set _ t ⟨pc, _, _, _⟩)) (if_pos hlast)
  refine ⟨_, _, hact₁, hact₂, rfl, rfl, ?_, ?_, ?_, fun u hu => ?_⟩
  · rw [Parsers.set_threads_self]
  · rw [Parsers.set_threads_self]
  · rw [Parsers.set_threads_self]
    exact hrequest
  · rw [Parsers.set_threads_ne _ hu, Parsers.set_threads_ne _ hu]

/-- A client of `oneByteWorld` that has not been accepted comes to its lookup, by steps that keep `R`. -/
theorem oneByte_finds {R : Process Bool → Prop} {s : Process Bool} {t : Bool} {fd : ℕ}
    (hkeep : ∀ {r r'}, R r → CallStep oneByteWorld r t r' → r'.parsers.alive = true →
      (r.parsers.threads t).pc ≠ .tokKey → (r.frames t).pc ≠ .findBody → R r')
    (hs : R s) (halive : s.parsers.alive = true)
    (hparser : s.parsers.threads t = (Parsers.initial oneByteWorld.input).threads t)
    (hframe : s.frames t = ⟨.idle, 0, .zero, none, none⟩) (hmutex : s.mutex = none)
    (hfd : s.fds fd = none) :
    ∃ s', R s' ∧ s'.frames = Function.update s.frames t ⟨.findBody, fd, rootRequest, none, none⟩ ∧
      s'.cache = s.cache ∧ s'.mutex = some t ∧
      s'.fds = Function.update s.fds fd (some (.conn t)) ∧ s'.sent = s.sent ∧
      s'.parsers.alive = true ∧ (s'.parsers.threads t).pc = .finished ∧
      ∀ u, u ≠ t → s'.parsers.threads u = s.parsers.threads u := by
  obtain ⟨p₁, p₂, hact₁, hact₂, halive₁, halive₂, hpc₁, hpc₂, hrequest, hothers⟩ :=
    oneByte_parses hparser
  rw [halive] at halive₁ halive₂
  have hidle : (s.frames t).pc = .idle := by rw [hframe]
  have htok : (s.parsers.threads t).pc ≠ .tokKey := by
    rw [hparser]
    nofun
  have htok₁ : (p₁.threads t).pc ≠ .tokKey := by
    rw [hpc₁]
    nofun
  have htok₂ : (p₂.threads t).pc ≠ .tokKey := by
    rw [hpc₂]
    nofun
  have h₁ := hkeep hs (@CallStep.accept _ _ _ _ t fd hidle hfd) halive htok (by rw [hidle]; nofun)
  have h₂ := hkeep h₁ (.parse (by simp) hact₁) halive₁ htok (by simp)
  have h₃ := hkeep h₂ (.parse (by simp) hact₂) halive₂ htok₁ (by simp)
  have h₄ := hkeep h₃ (.parsed (by simp) hpc₂) halive₂ htok₂ (by simp)
  have h₅ := hkeep h₄ (.lockFind (by simp) hmutex) halive₂ htok₂ (by simp)
  refine ⟨_, h₅, ?_, rfl, rfl, rfl, rfl, halive₂, hpc₂, hothers⟩
  simp [Process.goto, Process.setFrame, hframe, hrequest]

/-- The second client of `oneByteWorld` has not been accepted yet. -/
structure SecondWaits (s : Process Bool) : Prop where
  frame : s.frames true = ⟨.idle, 0, .zero, none, none⟩
  parser : s.parsers.threads true = (Parsers.initial oneByteWorld.input).threads true
  free : s.fds 6 = none
  silent : s.sent true = []

/-- The request of the first client of `oneByteWorld` has missed, by sound steps. -/
theorem oneByte_missed : ∃ s, ((processRuns oneByteWorld).restrict Sound).Reachable s ∧
    s.frames false = ⟨.connect, 4, rootRequest, none, none⟩ ∧ s.cache = cacheInit ∧
    s.mutex = none ∧ s.fds 5 = none ∧ s.sent false = [] ∧ SecondWaits s := by
  have hinit : ((processRuns oneByteWorld).restrict Sound).Reachable (.initial oneByteWorld) :=
    .init rfl
  obtain ⟨s, hs, hframes, hcache, -, hfds, hsent, halive, hpc, hothers⟩ :=
    oneByte_finds (t := false) (fun hr h halive htok hpc => sound_call hr h halive htok (.inr hpc))
      hinit rfl rfl rfl rfl (rfl : (Process.initial oneByteWorld).fds 4 = none)
  have htok : (s.parsers.threads false).pc ≠ .tokKey := by
    simp [hpc]
  have hframe : s.frames false = ⟨.findBody, 4, rootRequest, none, none⟩ := by
    rw [hframes, Function.update_self]
  have hfind : cacheFind 1 (s.frames false).request.key s.cache = some (none, cacheInit) := by
    rw [hframe, hcache]
    rfl
  have h₁ := sound_call hs (t := false) (.miss (by rw [hframe]) hfind) halive htok (.inl hcache)
  rw [Process.goto, hframe] at h₁
  have h₂ := sound_call h₁ (.unlockFind rfl) halive htok (.inl rfl)
  refine ⟨_, h₂, rfl, rfl, rfl, ?_, ?_, ?_, hothers true (by decide), ?_, ?_⟩
  · show s.fds 5 = none
    rw [hfds]
    rfl
  · show s.sent false = []
    rw [hsent]
    rfl
  · show s.frames true = _
    rw [hframes]
    rfl
  · show s.fds 6 = none
    rw [hfds]
    rfl
  · show s.sent true = []
    rw [hsent]
    rfl

/-- What `cache_insert` makes of the answer of `oneByteWorld` in an empty cache. -/
theorem oneByte_cached : ∃ c c' e bytes,
    cacheInsert 1 0 rootRequest.key oneByte.body oneByte.size cacheInit = some c ∧
      cacheFind 1 rootRequest.key c = some (some 0, c') ∧ c'.entries 0 = some e ∧
      forwardCachedResponse e.toObject = some bytes :=
  ⟨_, _, _, _, rfl, rfl, rfl, rfl⟩

/-- The answer to the first client of `oneByteWorld` has been passed on and cached, by sound steps. -/
theorem oneByte_closing : ∃ s, ((processRuns oneByteWorld).restrict Sound).Reachable s ∧
    s.frames false = ⟨.close, 4, rootRequest, none, some 5⟩ ∧
    cacheInsert 1 0 rootRequest.key oneByte.body oneByte.size cacheInit = some s.cache ∧
    s.mutex = none ∧ s.fds 5 = some (.client false) ∧ s.sent false = [72] ∧ SecondWaits s := by
  obtain ⟨s, hs, hframe, hcache, hmutex, hfd, hsent, hwaits⟩ := oneByte_missed
  have i := reachable_served hs
  have htok := i.not_tokKey (t := false) (by simp [hframe]) (by simp [hframe])
  obtain ⟨r, hr, hrelay, hsmall⟩ : ∃ r, r = oneByte ∧ relayChunk relayStart [72] = some r ∧
      r.size ≤ maxObjectSize := by
    have hrelay : relay [[72]] relayStart = some oneByte := relay_eq (by decide)
    exact ⟨oneByte, rfl, by simpa [relay] using hrelay, by decide⟩
  obtain ⟨c, _, _, _, hins, -⟩ := oneByte_cached
  rw [← hr] at hins
  have hins' : cacheInsert 1 0 rootRequest.key r.body r.size s.cache = some c := by
    rw [hcache]
    exact hins
  have hfits : ∀ line ∈ requestLines rootRequest, line.length < maxLine := by
    decide +kernel
  have h₁ := sound_call hs (@CallStep.connect _ _ _ _ false 5 (by rw [hframe]) hfd) i.alive htok
    (.inl hcache)
  rw [hframe] at h₁
  have h₂ := sound_sends h₁ (t := false) rfl hfits
  have h₃ := sound_call h₂ (.sentAll rfl) i.alive htok (.inr (by rintro ⟨⟩))
  have h₄ := sound_call h₃ (.read rfl (List.cons_ne_nil 72 [])) i.alive htok (.inr (by rintro ⟨⟩))
  have hstr : 0 ∈ [72].take maxLine ++ (oneByteWorld.stack false).drop ([72].take maxLine).length := by
    apply List.mem_append_right
    show 0 ∈ (List.replicate maxLine (0 : UInt8)).drop 1
    rw [List.drop_replicate]
    exact List.mem_replicate.mpr ⟨by decide, rfl⟩
  have h₅ := sound_call h₄ (.write rfl hrelay hstr) i.alive htok (.inr (by rintro ⟨⟩))
  have h₆ := sound_call h₅ (.readEnd rfl) i.alive htok (.inr (by rintro ⟨⟩))
  rw [if_pos hsmall] at h₆
  have h₇ := sound_call h₆ (.lockInsert rfl hmutex) i.alive htok (.inr (by rintro ⟨⟩))
  have hbody : 0 ∈ r.body := by
    rw [hr]
    exact List.mem_cons_of_mem _ (List.mem_replicate.mpr ⟨by decide, rfl⟩)
  have h₈ := sound_call h₇ (@CallStep.insert _ _ _ _ false r 1 0 c rfl hins' hbody) i.alive htok
    (.inr (by rintro ⟨⟩))
  have h₉ := sound_call h₈ (.unlockInsert rfl) i.alive htok (.inr (by rintro ⟨⟩))
  rw [← hr]
  refine ⟨_, h₉, rfl, hins, rfl, rfl, ?_, hwaits.frame, hwaits.parser, hwaits.free, hwaits.silent⟩
  show s.sent false ++ [72] = [72]
  rw [hsent, List.nil_append]

/-- The first client of `oneByteWorld` has been served, by sound steps. -/
theorem oneByte_served : ∃ s, ((processRuns oneByteWorld).restrict Sound).Reachable s ∧
    s.frames false = ⟨.finished, 4, rootRequest, none, some 5⟩ ∧ s.fds 5 = some (.client false) ∧
    s.sent false = [72] := by
  obtain ⟨s, hs, hframe, -, -, hfd, hsent, -⟩ := oneByte_closing
  have i := reachable_served hs
  have htok := i.not_tokKey (t := false) (by rw [hframe]; nofun) (by rw [hframe]; nofun)
  have hclose := sound_call hs (t := false) (.close (by rw [hframe])) i.alive htok
    (.inr (by rw [hframe]; nofun))
  rw [Process.goto, hframe] at hclose
  exact ⟨_, hclose, rfl, hfd, hsent⟩

/-! ### Isolation -/

/-- A request that has returned in a run of sound steps. -/
theorem answered_of_sound {W : World ι} {s : Process ι} {t : ι}
    (hs : ((processRuns W).restrict Sound).Reachable s) (hdone : (s.frames t).pc = .finished) :
    ∃ request, ParsesAlone W.input t request ∧ s.sent t = response W t request := by
  have i := reachable_served hs
  have hw := i.wrote t
  have hp := i.parsed t
  rw [Wrote, hdone] at hw
  rw [Parsed, hdone] at hp
  refine ⟨_, ?_, hw⟩
  rw [hp.2]
  exact parsesAlone_of_undisturbed i.parsers hp.1

/-- **Isolation.**  In a run of sound steps the process is alive, no returned request holds the mutex,
and every returned request has sent its client the answer to the request that its client sent, parsed
as if it were alone; so it has sent the same in every such run in which some other request takes no
part.  After the next step, of whatever request, the process is alive just when that step survives,
and otherwise no request takes a step again. -/
theorem requests_isolated_of_sound (W : World ι) (s : Process ι)
    (hs : ((processRuns W).restrict Sound).Reachable s) :
    s.parsers.alive = true ∧
      (∀ u, (s.frames u).pc = .finished → s.mutex ≠ some u ∧
        ∃ request, ParsesAlone W.input u request ∧ s.sent u = response W u request) ∧
      (∀ t s', ((processRuns W).restrict fun x a => Sound x a ∧ a.1 ≠ t).Reachable s' →
        ∀ u, u ≠ t → (s.frames u).pc = .finished → (s'.frames u).pc = .finished →
          s.sent u = s'.sent u) ∧
      ∀ t a s', ProcessStep W s (t, a) s' → (s'.parsers.alive = true ↔ Survives s (t, a)) ∧
        (s'.parsers.alive = false → ∀ b s'', ¬ ProcessStep W s' b s'') := by
  have i := reachable_served hs
  refine ⟨i.alive, fun u hdone => ⟨fun hheld => ?_, answered_of_sound hs hdone⟩,
    fun t s' hs' u _ hdone hdone' => ?_,
    fun t a s' hstep => ⟨step_alive_iff i hstep, fun hdead => dead_stops hdead⟩⟩
  · have hin := (reachable_mutexInv i.proxy).held u hheld
    have hpc : s.toProxy.pc u = .finished := by
      show (s.frames u).pc.threadPc _ = _
      rw [hdone]
      rfl
    rw [hpc] at hin
    exact hin
  · obtain ⟨request, halone, hsent⟩ := answered_of_sound hs hdone
    obtain ⟨request', halone', hsent'⟩ :=
      answered_of_sound (hs'.restrict_mono fun x a hx => hx.1) hdone'
    rw [hsent, hsent', halone.unique halone']

theorem requests_isolated_of_sound_oneByte : ∃ s : Process Bool, s.parsers.alive = true ∧
    (s.frames false).pc = .finished ∧ s.mutex ≠ some false ∧
    ∃ request, ParsesAlone oneByteWorld.input false request ∧
      s.sent false = response oneByteWorld false request := by
  obtain ⟨s, hs, hframe, -⟩ := oneByte_served
  have hdone : (s.frames false).pc = .finished := by rw [hframe]
  obtain ⟨halive, hserved, -⟩ := requests_isolated_of_sound oneByteWorld s hs
  exact ⟨s, halive, hdone, hserved false hdone⟩

/-- **The host of one request does not resolve** while another client has just been accepted: the
process ends, and the other client receives nothing. -/
theorem failure_ends_process : ∃ s s' : Process Bool, (processRuns oneByteWorld).Reachable s ∧
    (s.frames false).pc = .connect ∧ (s.frames true).pc = .parse ∧
    ProcessStep oneByteWorld s (false, .failure) s' ∧ s'.parsers.alive = false ∧
    s'.sent true = [] ∧ ∀ b s'', ¬ ProcessStep oneByteWorld s' b s'' := by
  obtain ⟨s, hs, hframe, -, -, -, -, hwaits⟩ := oneByte_missed
  have i := reachable_served hs
  have hidle : (s.frames true).pc = .idle := by rw [hwaits.frame]
  have haccept := hs.of_restrict.step
    (.success i.alive (@CallStep.accept _ _ oneByteWorld s true 6 hidle hwaits.free))
  have hconnect : (s.frames false).pc = .connect := by rw [hframe]
  exact ⟨_, _, haccept, hconnect, rfl, .failure i.alive (Process.atCall_connect hconnect), rfl,
    hwaits.silent, dead_stops rfl⟩

end SystemProgramming.ProxyLab
