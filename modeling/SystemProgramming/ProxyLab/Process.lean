import SystemProgramming.ProxyLab.ParseRequest
import SystemProgramming.ProxyLab.Threads

/-!
# The proxy process and its I/O (`proxy.c` over the wrappers of `csapp.c`)

`main` accepts a connection and starts a thread for it, `proxy_thread`.  Here a thread's request is
followed through `parse_request`, `cache_find`, `forward_request`, `forward_response` and
`cache_insert`, one call of an I/O wrapper or one step inside a function at a time, with the
descriptors it opens and the header nodes it allocates.  Between any two steps the other threads run.

Every wrapper handles an error the same way, by `unix_error`, which ends the process.

* `requestLines` : what `forward_request` writes.
* `CallStep` : one step of one thread in which no call fails; `ProcessStep` : one step.
* `Process.toProxy` : the threads of `ProxyStep`; `CallStep.toProxy` : the process refines them.
* `CallStep.parsers_cases` : it refines the parsers of `parse_request`; `Parsers.act_cases` : what a
  step of a parser does to the requests.
-/

namespace SystemProgramming.ProxyLab

open Transition
open SystemProgramming.CString (literal)

/-! ### `forward_request` -/

/-- `user_agent_hdr`. -/
def userAgentHdr : List UInt8 := literal
  "User-Agent: Mozilla/5.0 (X11; Linux x86_64; rv:10.0.3) Gecko/20120305 Firefox/10.0.3\r\n"

/-- `connection_hdr`. -/
def connectionHdr : List UInt8 := literal "Connection: close\r\n"

/-- `proxy_connection_hdr`. -/
def proxyConnectionHdr : List UInt8 := literal "Proxy-Connection: close\r\n"

/-- The strings `forward_request` writes to the origin, one for each `Rio_writen`. -/
def requestLines (request : HttpRequest) : List (List UInt8) :=
  [literal "GET " ++ request.path ++ literal " HTTP/1.0\r\n",
    literal "Host: " ++ request.host ++ literal "\r\n",
    userAgentHdr, connectionHdr, proxyConnectionHdr] ++
  request.extraHdrs.map (fun curr => curr.1 ++ literal ": " ++ curr.2 ++ literal "\r\n") ++
  [literal "\r\n"]

/-- `request.uri` as `cache_find` and `cache_insert` read it. -/
def HttpRequest.key (request : HttpRequest) : CString where
  chars := request.uri.takeWhile (· ≠ 0)
  noNul h := by simpa using List.mem_takeWhile_imp h

/-! ### The process -/

/-- What is outside the process: the listening descriptor, what each client sends, and what the origin
contacted for a request answers, given host name, port and the text it receives; with them what the
array `buf` of `forward_response` holds before anything is read into it. -/
structure World (ι : Type*) where
  listenfd : ℕ
  input : ι → List UInt8
  origin : ι → List UInt8 → List UInt8 → List UInt8 → List UInt8
  stack : ι → List UInt8

/-- What a descriptor was opened for. -/
inductive Fd (ι : Type*)
  | listening
  /-- the `connfd` of a request -/
  | conn (t : ι)
  /-- the `clientfd` of a request -/
  | client (t : ι)
  deriving DecidableEq

/-- Where the thread of a request is. -/
inductive RequestPc
  /-- `main`, at the `Accept` of this connection -/
  | idle
  /-- in `parse_request` -/
  | parse
  /-- `cache_find`, at `pthread_mutex_lock` -/
  | findLock
  /-- `cache_find`, in the search loop -/
  | findBody
  /-- `cache_find`, at `pthread_mutex_unlock` -/
  | findUnlock
  /-- `forward_cached_response`, at `Rio_writen` -/
  | replay (cached : Ptr)
  /-- `forward_request`, at `Open_clientfd` -/
  | connect
  /-- `forward_request`, at the `Rio_writen` of the first of `lines` -/
  | send (lines : List (List UInt8))
  /-- `forward_response`, at `Rio_readnb` into `buf`, with `rest` still to come -/
  | read (rest buf : List UInt8) (r : Relay)
  /-- `forward_response`, behind `Rio_readnb`, with `chunk` at the start of `buf` -/
  | write (chunk rest buf : List UInt8) (r : Relay)
  /-- `cache_insert`, at `pthread_mutex_lock` -/
  | insertLock (r : Relay)
  /-- `cache_insert`, in its body -/
  | insertBody (r : Relay)
  /-- `cache_insert`, at `pthread_mutex_unlock` -/
  | insertUnlock
  /-- at `Close` -/
  | close
  /-- returned -/
  | finished

/-- The frame of `proxy_thread`. -/
structure Frame where
  pc : RequestPc
  connfd : ℕ
  request : HttpRequest
  cached : Option Ptr
  clientfd : Option ℕ

/-- The process: the frames of `parse_request`, those of `proxy_thread`, the cache and its mutex, the
open descriptors, the number of `http_header` nodes allocated for each request and not freed, and
what has been written to each origin and to each client. -/
structure Process (ι : Type*) where
  parsers : Parsers ι
  frames : ι → Frame
  cache : Cache
  mutex : Option ι
  fds : ℕ → Option (Fd ι)
  nodes : ι → ℕ
  asked : ι → List UInt8
  sent : ι → List UInt8

variable {ι : Type*} [DecidableEq ι]

/-- At `Malloc(sizeof(http_header))`. -/
def Parsers.Allocates (s : Parsers ι) (t : ι) : Prop :=
  match (s.threads t).pc with
  | .store key _ => s.str key ∉ ignoredHeaders
  | _ => False

instance (s : Parsers ι) (t : ι) : Decidable (s.Allocates t) := by
  unfold Parsers.Allocates
  split <;> infer_instance

namespace Process

/-- The frame of thread `t` is `f`. -/
def setFrame (s : Process ι) (t : ι) (f : Frame) : Process ι :=
  { s with frames := Function.update s.frames t f }

/-- Thread `t` is at `pc` next. -/
def goto (s : Process ι) (t : ι) (pc : RequestPc) : Process ι :=
  s.setFrame t { s.frames t with pc := pc }

/-- The process before the first connection. -/
def initial (W : World ι) : Process ι where
  parsers := .initial W.input
  frames _ := ⟨.idle, 0, .zero, none, none⟩
  cache := cacheInit
  mutex := none
  fds := Function.update (fun _ => none) W.listenfd (some .listening)
  nodes _ := 0
  asked _ := []
  sent _ := []

/-- The process ends: `exit(0)` in `unix_error`, or a fault. -/
def exit (s : Process ι) : Process ι := { s with parsers := s.parsers.crash }

/-- Thread `t` is at a call of an I/O wrapper. -/
def AtCall (s : Process ι) (t : ι) : Prop :=
  match (s.frames t).pc with
  | .idle | .replay _ | .connect | .send (_ :: _) | .read .. | .write .. | .close => True
  | .parse => (s.parsers.threads t).pc = .start ∨ (s.parsers.threads t).pc = .readHeader
  | _ => False

omit [DecidableEq ι] in
theorem atCall_connect {s : Process ι} {t : ι} (h : (s.frames t).pc = .connect) : s.AtCall t := by
  rw [AtCall, h]
  trivial

end Process

/-- One step of thread `t` in which no call fails. -/
inductive CallStep (W : World ι) : Process ι → ι → Process ι → Prop
  | accept {s : Process ι} {t : ι} {fd : ℕ} (h : (s.frames t).pc = .idle) (hfd : s.fds fd = none) :
      CallStep W s t { s.setFrame t { s.frames t with pc := .parse, connfd := fd } with
        fds := Function.update s.fds fd (some (.conn t)) }
  | parse {s : Process ι} {t : ι} {p : Parsers ι} (h : (s.frames t).pc = .parse)
      (hact : s.parsers.act t = some p) :
      CallStep W s t { s with
        parsers := p
        nodes := Function.update s.nodes t (s.nodes t + if s.parsers.Allocates t then 1 else 0) }
  | parsed {s : Process ι} {t : ι} (h : (s.frames t).pc = .parse)
      (hdone : (s.parsers.threads t).pc = .finished) :
      CallStep W s t (s.setFrame t { s.frames t with
        pc := .findLock, request := (s.parsers.threads t).request })
  | lockFind {s : Process ι} {t : ι} (h : (s.frames t).pc = .findLock) (hfree : s.mutex = none) :
      CallStep W s t { s.goto t .findBody with mutex := some t }
  | hit {s : Process ι} {t : ι} {fuel : ℕ} {q : Ptr} {c : Cache} (h : (s.frames t).pc = .findBody)
      (hfind : cacheFind fuel (s.frames t).request.key s.cache = some (some q, c)) :
      -- `return curr` leaves the function without an unlock
      CallStep W s t { s.setFrame t { s.frames t with pc := .replay q, cached := some q } with
        cache := c }
  | miss {s : Process ι} {t : ι} {fuel : ℕ} {c : Cache} (h : (s.frames t).pc = .findBody)
      (hfind : cacheFind fuel (s.frames t).request.key s.cache = some (none, c)) :
      CallStep W s t { s.goto t .findUnlock with cache := c }
  | unlockFind {s : Process ι} {t : ι} (h : (s.frames t).pc = .findUnlock) :
      CallStep W s t { s.goto t .connect with mutex := none }
  | replayed {s : Process ι} {t : ι} {q : Ptr} {e : Entry} {bytes : List UInt8}
      (h : (s.frames t).pc = .replay q) (hentry : s.cache.entries q = some e)
      (hbytes : forwardCachedResponse e.toObject = some bytes) :
      CallStep W s t { s.goto t .close with
        sent := Function.update s.sent t (s.sent t ++ bytes) }
  | replayFault {s : Process ι} {t : ι} {q : Ptr} (h : (s.frames t).pc = .replay q)
      (hbytes : ((s.cache.entries q).bind fun e => forwardCachedResponse e.toObject) = none) :
      CallStep W s t s.exit
  | connect {s : Process ι} {t : ι} {fd : ℕ} (h : (s.frames t).pc = .connect)
      (hfd : s.fds fd = none) :
      CallStep W s t { s.setFrame t { s.frames t with
          pc := .send (requestLines (s.frames t).request), clientfd := some fd } with
        fds := Function.update s.fds fd (some (.client t)) }
  | send {s : Process ι} {t : ι} {line : List UInt8} {lines : List (List UInt8)}
      (h : (s.frames t).pc = .send (line :: lines)) (hfits : line.length < maxLine) :
      CallStep W s t { s.goto t (.send lines) with
        asked := Function.update s.asked t (s.asked t ++ line) }
  | sendFault {s : Process ι} {t : ι} {line : List UInt8} {lines : List (List UInt8)}
      (h : (s.frames t).pc = .send (line :: lines)) (hlong : maxLine ≤ line.length) :
      -- `sprintf` writes past the end of `buf`
      CallStep W s t s.exit
  | sentAll {s : Process ι} {t : ι} (h : (s.frames t).pc = .send []) :
      CallStep W s t (s.goto t (.read (W.origin t (s.frames t).request.hostname
        (s.frames t).request.port (s.asked t)) (W.stack t) relayStart))
  | read {s : Process ι} {t : ι} {rest buf : List UInt8} {r : Relay}
      (h : (s.frames t).pc = .read rest buf r) (hmore : rest ≠ []) :
      CallStep W s t (s.goto t (.write (rest.take maxLine) (rest.drop maxLine)
        (rest.take maxLine ++ buf.drop (rest.take maxLine).length) r))
  | readEnd {s : Process ι} {t : ι} {buf : List UInt8} {r : Relay}
      (h : (s.frames t).pc = .read [] buf r) :
      CallStep W s t (s.goto t (if r.size ≤ maxObjectSize then .insertLock r else .close))
  | write {s : Process ι} {t : ι} {chunk rest buf : List UInt8} {r r' : Relay}
      (h : (s.frames t).pc = .write chunk rest buf r) (hrelay : relayChunk r chunk = some r')
      (hstr : 0 ∈ buf) :
      CallStep W s t { s.goto t (.read rest buf r') with
        sent := Function.update s.sent t (s.sent t ++ chunk) }
  | writeFault {s : Process ι} {t : ι} {chunk rest buf : List UInt8} {r : Relay}
      (h : (s.frames t).pc = .write chunk rest buf r)
      (hout : ¬ ((relayChunk r chunk).isSome ∧ 0 ∈ buf)) :
      -- `memcpy` writes outside `body`, or `printf("%s", buf)` reads past the end of `buf`
      CallStep W s t s.exit
  | lockInsert {s : Process ι} {t : ι} {r : Relay} (h : (s.frames t).pc = .insertLock r)
      (hfree : s.mutex = none) :
      CallStep W s t { s.goto t (.insertBody r) with mutex := some t }
  | insert {s : Process ι} {t : ι} {r : Relay} {fuel : ℕ} {p : Ptr} {c : Cache}
      (h : (s.frames t).pc = .insertBody r)
      (hins : cacheInsert fuel p (s.frames t).request.key r.body r.size s.cache = some c)
      (hstr : 0 ∈ r.body) :
      CallStep W s t { s.goto t .insertUnlock with cache := c }
  | insertFault {s : Process ι} {t : ι} {r : Relay} (h : (s.frames t).pc = .insertBody r)
      (hstr : 0 ∉ r.body) :
      -- `strdup` reads past the end of `body`
      CallStep W s t s.exit
  | unlockInsert {s : Process ι} {t : ι} (h : (s.frames t).pc = .insertUnlock) :
      CallStep W s t { s.goto t .close with mutex := none }
  | close {s : Process ι} {t : ι} (h : (s.frames t).pc = .close) :
      CallStep W s t { s.goto t .finished with
        fds := Function.update s.fds (s.frames t).connfd none }

/-- What a call reports. -/
inductive Answer
  | success
  | failure
  deriving DecidableEq

/-- One step of a process that is alive. -/
inductive ProcessStep (W : World ι) : Process ι → ι × Answer → Process ι → Prop
  | success {s s' : Process ι} {t : ι} (halive : s.parsers.alive = true) (h : CallStep W s t s') :
      ProcessStep W s (t, .success) s'
  | failure {s : Process ι} {t : ι} (halive : s.parsers.alive = true) (h : s.AtCall t) :
      ProcessStep W s (t, .failure) s.exit

/-- The runs of the process. -/
def processRuns (W : World ι) : System (Process ι) (ι × Answer) where
  init s := s = .initial W
  step := ProcessStep W

/-! ### The process refines the threads of the cache -/

/-- Where `ProxyStep` has a thread whose request has the given URI. -/
def RequestPc.threadPc (uri : CString) : RequestPc → ThreadPc
  | .idle | .parse => .start
  | .findLock => .findLock uri
  | .findBody => .findBody uri
  | .findUnlock => .findUnlock uri
  | .replay q => .replay q
  | .connect | .send _ | .read .. | .write .. => .fetch uri
  | .insertLock r => .insertLock uri r.body r.size
  | .insertBody r => .insertBody uri r.body r.size
  | .insertUnlock => .insertUnlock
  | .close => .close
  | .finished => .finished

/-- Where `ProxyStep` has the thread. -/
def Frame.threadPc (f : Frame) : ThreadPc := f.pc.threadPc f.request.key

/-- The cache, its mutex and where the threads are. -/
def Process.toProxy (s : Process ι) : Proxy ι := ⟨s.cache, s.mutex, fun t => (s.frames t).threadPc⟩

namespace Process

variable {s s' : Process ι} {t u : ι} {f : Frame}

@[simp] theorem setFrame_frames_self (s : Process ι) (t : ι) (f : Frame) :
    (s.setFrame t f).frames t = f := Function.update_self ..

/-- A new frame moves one thread. -/
theorem toProxy_eq (h : s'.frames = Function.update s.frames t f) :
    s'.toProxy = ⟨s'.cache, s'.mutex, Function.update s.toProxy.pc t f.threadPc⟩ := by
  have hpc : (fun u => (s'.frames u).threadPc) = Function.update s.toProxy.pc t f.threadPc := by
    rw [h]
    funext u
    by_cases hu : u = t
    · rw [hu, Function.update_self, Function.update_self]
    · rw [Function.update_of_ne hu, Function.update_of_ne hu]
      rfl
  rw [toProxy, hpc]

/-- A step that `ProxyStep` does not see. -/
theorem toProxy_stutter (h : s'.frames = Function.update s.frames t f)
    (hpc : f.threadPc = (s.frames t).threadPc) (hc : s'.cache = s.cache) (hm : s'.mutex = s.mutex) :
    s'.toProxy = s.toProxy := by
  have hself : Function.update s.toProxy.pc t f.threadPc = s.toProxy.pc := by
    rw [hpc]
    exact Function.update_eq_self ..
  rw [toProxy_eq h, hself, hc, hm]
  rfl

end Process

namespace CallStep

variable {W : World ι} {s s' : Process ι} {t u : ι}

/-- **Refinement.**  A step of the process is a step of `ProxyStep` or changes nothing it sees. -/
theorem toProxy (h : CallStep W s t s')
    (hrelay : ∀ rest buf r, (s.frames t).pc = .read rest buf r →
      ∃ chunks, relay chunks relayStart = some r) :
    s'.toProxy = s.toProxy ∨ ProxyStep s.toProxy t s'.toProxy := by
  have hpc : ∀ {pc : RequestPc}, (s.frames t).pc = pc →
      s.toProxy.pc t = pc.threadPc (s.frames t).request.key := by
    rintro pc rfl
    rfl
  cases h with
  | accept h hfd => exact .inl (Process.toProxy_stutter rfl (hpc h).symm rfl rfl)
  | parse h hact => exact .inl rfl
  | parsed h hdone =>
    rw [Process.toProxy_eq rfl]
    exact .inr (.parse _ (hpc h))
  | lockFind h hfree =>
    rw [Process.toProxy_eq rfl]
    exact .inr (.lockFind (hpc h) hfree)
  | hit h hfind =>
    rw [Process.toProxy_eq rfl]
    exact .inr (.hit (hpc h) hfind)
  | miss h hfind =>
    rw [Process.toProxy_eq rfl]
    exact .inr (.miss (hpc h) hfind)
  | unlockFind h =>
    rw [Process.toProxy_eq rfl]
    exact .inr (.unlockFind (hpc h))
  | replayed h hentry hbytes =>
    rw [Process.toProxy_eq rfl]
    exact .inr (.replayed (hpc h))
  | replayFault | sendFault | writeFault | insertFault => exact .inl rfl
  | connect h hfd => exact .inl (Process.toProxy_stutter rfl (hpc h).symm rfl rfl)
  | send h hfits => exact .inl (Process.toProxy_stutter rfl (hpc h).symm rfl rfl)
  | sentAll h => exact .inl (Process.toProxy_stutter rfl (hpc h).symm rfl rfl)
  | read h hmore => exact .inl (Process.toProxy_stutter rfl (hpc h).symm rfl rfl)
  | readEnd h =>
    obtain ⟨chunks, hchunks⟩ := hrelay _ _ _ h
    have hstep := ProxyStep.relayed (hpc h) hchunks
    rw [Process.toProxy_eq rfl]
    right
    split at hstep
    · rename_i hle
      rw [if_pos hle]
      exact hstep
    · rename_i hgt
      rw [if_neg hgt]
      exact hstep
  | write h hrelay hstr => exact .inl (Process.toProxy_stutter rfl (hpc h).symm rfl rfl)
  | lockInsert h hfree =>
    rw [Process.toProxy_eq rfl]
    exact .inr (.lockInsert (hpc h) hfree)
  | insert h hins hstr =>
    rw [Process.toProxy_eq rfl]
    exact .inr (.insert (hpc h) hins)
  | unlockInsert h =>
    rw [Process.toProxy_eq rfl]
    exact .inr (.unlockInsert (hpc h))
  | close h =>
    rw [Process.toProxy_eq rfl]
    exact .inr (.closed (hpc h))

/-- A step of `t` changes nothing that belongs to another request. -/
theorem frame (h : CallStep W s t s') (hu : u ≠ t) : s'.frames u = s.frames u ∧
    s'.nodes u = s.nodes u ∧ s'.asked u = s.asked u ∧ s'.sent u = s.sent u := by
  cases h with
  | parse => exact ⟨rfl, Function.update_of_ne hu .., rfl, rfl⟩
  | replayFault | sendFault | writeFault | insertFault => exact ⟨rfl, rfl, rfl, rfl⟩
  | replayed | write => exact ⟨Function.update_of_ne hu .., rfl, rfl, Function.update_of_ne hu ..⟩
  | send => exact ⟨Function.update_of_ne hu .., rfl, Function.update_of_ne hu .., rfl⟩
  | _ => exact ⟨Function.update_of_ne hu .., rfl, rfl, rfl⟩

/-- What a step does to the parsers: nothing, a step of its own parser, or a fault. -/
theorem parsers_cases (h : CallStep W s t s') :
    s'.parsers = s.parsers ∨ ((s.frames t).pc = .parse ∧ s.parsers.act t = some s'.parsers) ∨
      s'.parsers = s.parsers.crash := by
  cases h with
  | parse h hact => exact .inr (.inl ⟨h, hact⟩)
  | replayFault | sendFault | writeFault | insertFault => exact .inr (.inr rfl)
  | _ => exact .inl rfl

end CallStep

/-! ### The requests of the parsers -/

namespace Parsers

variable {s s' r : Parsers ι} {t u : ι}

/-- At most buffers and the saved position differ. -/
structure SameRequests (s r : Parsers ι) : Prop where
  alive : r.alive = s.alive
  pc : ∀ u, (r.threads u).pc = (s.threads u).pc
  request : ∀ u, (r.threads u).request = (s.threads u).request

omit [DecidableEq ι] in
theorem SameRequests.refl (s : Parsers ι) : s.SameRequests s := ⟨rfl, fun _ => rfl, fun _ => rfl⟩

theorem sameRequests_setBuf (s : Parsers ι) (v : ι) (buf : List UInt8) :
    s.SameRequests (s.setBuf v buf) := by
  have hthread : ∀ u, ((s.setBuf v buf).threads u).pc = (s.threads u).pc ∧
      ((s.setBuf v buf).threads u).request = (s.threads u).request := by
    intro u
    by_cases hu : u = v
    · rw [hu, setBuf, set_threads_self]
      exact ⟨rfl, rfl⟩
    · rw [setBuf, set_threads_ne _ hu]
      exact ⟨rfl, rfl⟩
  exact ⟨rfl, fun u => (hthread u).1, fun u => (hthread u).2⟩

theorem sameRequests_strtok (s : Parsers ι) (p : CharPtr ι) (delim : List UInt8) :
    s.SameRequests (s.strtok p delim).2 := by
  obtain ⟨halive, hpc, hrequest⟩ :=
    sameRequests_setBuf s p.1 (strtokAt delim (s.bufOf p) p.2).2.1
  exact ⟨halive, hpc, hrequest⟩

/-- No token was found for the `trim` to come, or no `strtok` has saved a position. -/
def Faults (s : Parsers ι) (t : ι) : Prop :=
  match (s.threads t).pc with
  | .trimKey none | .trimValue _ none => True
  | .tokValue _ => s.saved = none
  | _ => False

/-- The frame `th` is what a step makes of `t`'s: it has started, and its request has one header more
if the step allocates one. -/
structure Advanced (s : Parsers ι) (t : ι) (th : Parser ι) : Prop where
  started : th.pc ≠ .start
  hdrs : th.request.extraHdrs.length =
    (if (s.threads t).pc = .start then 0 else (s.threads t).request.extraHdrs.length) +
      if s.Allocates t then 1 else 0

theorem advanced_goto {pc : ParsePc ι} (hr : s.SameRequests r) (hstart : (s.threads t).pc ≠ .start)
    (hkeeps : ¬ s.Allocates t) (hpc : pc ≠ .start) : s.Advanced t { r.threads t with pc := pc } := by
  refine ⟨hpc, ?_⟩
  rw [if_neg hstart, if_neg hkeeps]
  show (r.threads t).request.extraHdrs.length = _
  rw [hr.request]
  rfl

/-- **What a step does**, wherever the pointers point: it faults, or it writes into buffers and then
changes its own frame. -/
theorem act_cases (h : s.act t = some s') :
    (s.Faults t ∧ s' = s.crash ∧ (s.threads t).pc ≠ .start ∧ ¬ s.Allocates t) ∨
      ∃ r th, ¬ s.Faults t ∧ s.SameRequests r ∧ s' = r.set t th ∧ s.Advanced t th := by
  cases hpc : (s.threads t).pc with
  | start =>
    simp only [act, hpc, Option.some.injEq] at h
    refine .inr ⟨s, _, by simp [Faults, hpc], .refl s, h.symm, by simp, ?_⟩
    simp [Allocates, hpc, scanRequestLine]
  | readHeader =>
    simp only [act, hpc, Option.some.injEq] at h
    refine .inr ⟨s, _, by simp [Faults, hpc], .refl s, h.symm, ?_, by simp [Allocates, hpc]⟩
    dsimp only
    split <;> simp
  | tokKey =>
    simp only [act, hpc, Option.some.injEq] at h
    have hr := sameRequests_strtok s (t, 0) (literal ":")
    exact .inr ⟨_, _, by simp [Faults, hpc], hr, h.symm,
      advanced_goto hr (by simp [hpc]) (by simp [Allocates, hpc]) (by simp)⟩
  | trimKey tok =>
    cases tok with
    | none =>
      simp only [act, hpc, Option.some.injEq] at h
      exact .inl ⟨by simp [Faults, hpc], h.symm, by simp, by simp [Allocates, hpc]⟩
    | some p =>
      simp only [act, hpc, Option.some.injEq] at h
      have hr := sameRequests_setBuf s p.1 (trimAt (s.bufOf p) p.2).2
      exact .inr ⟨_, _, by simp [Faults, hpc], hr, h.symm,
        advanced_goto hr (by simp [hpc]) (by simp [Allocates, hpc]) (by simp)⟩
  | tokValue key =>
    simp only [act, hpc] at h
    split at h
    · next hnone =>
      cases h
      exact .inl ⟨by simp [Faults, hpc, hnone], rfl, by simp, by simp [Allocates, hpc]⟩
    · next p hsome =>
      cases h
      have hr := sameRequests_strtok s p (literal "\r\n")
      exact .inr ⟨_, _, by simp [Faults, hpc, hsome], hr, rfl,
        advanced_goto hr (by simp [hpc]) (by simp [Allocates, hpc]) (by simp)⟩
  | trimValue key tok =>
    cases tok with
    | none =>
      simp only [act, hpc, Option.some.injEq] at h
      exact .inl ⟨by simp [Faults, hpc], h.symm, by simp, by simp [Allocates, hpc]⟩
    | some p =>
      simp only [act, hpc, Option.some.injEq] at h
      have hr := sameRequests_setBuf s p.1 (trimAt (s.bufOf p) p.2).2
      exact .inr ⟨_, _, by simp [Faults, hpc], hr, h.symm,
        advanced_goto hr (by simp [hpc]) (by simp [Allocates, hpc]) (by simp)⟩
  | store key value =>
    simp only [act, hpc] at h
    split at h
    · next hign =>
      cases h
      exact .inr ⟨s, _, by simp [Faults, hpc], .refl s, rfl,
        advanced_goto (.refl s) (by simp [hpc]) (by simpa [Allocates, hpc] using hign) (by simp)⟩
    · next hign =>
      cases h
      refine .inr ⟨s, _, by simp [Faults, hpc], .refl s, rfl, by simp, ?_⟩
      rw [if_neg (by simp [hpc]), if_pos (by simpa [Allocates, hpc] using hign)]
      exact List.length_append
  | finished =>
    simp only [act, hpc] at h
    cases h

/-- Even where a thread writes into the buffer of another, it leaves its request alone. -/
theorem act_other (h : s.act t = some s') (hu : u ≠ t) :
    (s'.threads u).pc = (s.threads u).pc ∧ (s'.threads u).request = (s.threads u).request := by
  rcases act_cases h with ⟨-, rfl, -⟩ | ⟨r, th, -, hr, rfl, -⟩
  · exact ⟨rfl, rfl⟩
  · rw [set_threads_ne th hu]
    exact ⟨hr.pc u, hr.request u⟩

/-- A parser that does not fault keeps the process alive. -/
theorem act_alive (h : s.act t = some s') (halive : s.alive = true) :
    s'.alive = true ↔ ¬ s.Faults t := by
  rcases act_cases h with ⟨hfaults, rfl, -⟩ | ⟨r, th, hfine, hr, rfl, -⟩
  · exact iff_of_false nofun (not_not.mpr hfaults)
  · exact iff_of_true (hr.alive.trans halive) hfine

/-- A step of a parser allocates one node for each header it adds. -/
theorem act_nodes (h : s.act t = some s')
    (hfresh : (s.threads t).pc = .start → (s.threads t).request.extraHdrs = []) :
    (s'.threads t).pc ≠ .start ∧ (s'.threads t).request.extraHdrs.length =
      (s.threads t).request.extraHdrs.length + if s.Allocates t then 1 else 0 := by
  rcases act_cases h with ⟨-, rfl, hstart, hkeeps⟩ | ⟨r, th, -, -, rfl, hth⟩
  · rw [if_neg hkeeps]
    exact ⟨hstart, rfl⟩
  · rw [set_threads_self, hth.hdrs]
    refine ⟨hth.started, ?_⟩
    split
    · next hstart => rw [hfresh hstart, List.length_nil]
    · rfl

end Parsers

end SystemProgramming.ProxyLab
