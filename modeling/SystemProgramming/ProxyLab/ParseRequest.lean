import Mathlib.Data.List.DropRight
import Mathlib.Data.Fintype.Basic
import Mathlib.Logic.Function.Basic
import SystemProgramming.Library.CString
import SystemProgramming.Library.Scanning
import SystemProgramming.Library.Transition

/-!
# The proxy's request parser (`parse_request`) in many threads

Each thread reads its own connection into its own `buf`, but splits the header lines with `strtok`,
which keeps the position of its next search in one variable of the process.  A pointer into a buffer
is the thread that owns the buffer and an offset, so a thread can come to hold a pointer into the
buffer of another.  Between two calls of `strtok` the other threads run freely.

* `strtokAt`, `trimAt` : the two functions on the bytes of one buffer.
* `Parsers.step` : one step of one thread.
* `ParsesAlone` : the request a thread obtains when no other thread runs.
* `parse_alone_of_undisturbed` : the runs in which every thread obtains that request.
* `parse_spliced` : a run in which one client's header value ends up in another client's request.
-/

namespace SystemProgramming.ProxyLab

open Transition
open SystemProgramming.CString (literal strAt)
open Scanning (isspace scanString)

/-! ### Characters and strings -/

/-- `MAXLINE`. -/
def maxLine : ℕ := 8192

/-- `Rio_readlineb` of at most `n` characters: the line read and what is left of the connection. -/
def readLine : ℕ → List UInt8 → List UInt8 × List UInt8
  | 0, input => ([], input)
  | _ + 1, [] => ([], [])
  | n + 1, c :: input =>
    if c = 10 then ([c], input) else (c :: (readLine n input).1, (readLine n input).2)

/-- The buffer after `Rio_readlineb` has read `line`; at the end of the connection it writes
nothing. -/
def fill (buf line : List UInt8) : List UInt8 :=
  if line = [] then buf else line ++ 0 :: buf.drop (line.length + 1)

/-- `strtok` from the position `p` on: the token, the buffer and the position it saves. -/
def strtokAt (delim buf : List UInt8) (p : ℕ) : Option ℕ × List UInt8 × ℕ :=
  let tok := p + ((strAt buf p).takeWhile (· ∈ delim)).length
  if strAt buf tok = [] then (none, buf, tok)
  else
    let stop := tok + ((strAt buf tok).takeWhile (· ∉ delim)).length
    if strAt buf stop = [] then (some tok, buf, stop)
    else (some tok, buf.set stop 0, stop + 1)

/-- `trim` of the string at `p`: the result and the buffer.  The first character left is not a space,
so the loop over `end` stops before it passes `str`. -/
def trimAt (buf : List UInt8) (p : ℕ) : ℕ × List UInt8 :=
  let str := p + ((strAt buf p).takeWhile isspace).length
  if strAt buf str = [] then (str, buf)
  else (str, buf.set (str + ((strAt buf str).rdropWhile isspace).length) 0)

/-! ### The request line -/

/-- `struct http_request`; a header is its key and its value. -/
structure HttpRequest where
  uri : List UInt8
  path : List UInt8
  host : List UInt8
  hostname : List UInt8
  port : List UInt8
  extraHdrs : List (List UInt8 × List UInt8)
  deriving DecidableEq

/-- `memset(&request, 0, sizeof(http_request))`. -/
def HttpRequest.zero : HttpRequest := ⟨[], [], [], [], [], []⟩

/-- `sscanf(request.uri, "http://%[^/]%s", ..)`: the host and the path, empty where not assigned. -/
def scanUri (uri : List UInt8) : List UInt8 × List UInt8 :=
  match uri.dropPrefix? (literal "http://") with
  | none => ([], [])
  | some rest =>
    let host := rest.takeWhile (· ≠ 47)
    if host = [] then ([], []) else (host, (scanString (rest.dropWhile (· ≠ 47))).1)

/-- `sscanf(request.host, "%[^:]:%s", ..)`: the host name and the port, empty where not assigned. -/
def scanHost (host : List UInt8) : List UInt8 × List UInt8 :=
  let hostname := host.takeWhile (· ≠ 58)
  if hostname = [] then ([], []) else (hostname, (scanString (host.dropWhile (· ≠ 58)).tail).1)

/-- What `parse_request` stores of the request line. -/
def scanRequestLine (buf : List UInt8) : HttpRequest :=
  let uri := (scanString (scanString (strAt buf 0)).2).1
  let (host, path) := scanUri uri
  let (hostname, port) := scanHost host
  { uri := uri
    path := if path = [] then literal "/" else path
    host := host
    hostname := hostname
    port := if port = [] then literal "80" else port
    extraHdrs := [] }

/-- The headers the parser drops. -/
def ignoredHeaders : List (List UInt8) :=
  [literal "Host", literal "User-Agent", literal "Connection", literal "Proxy-Connection"]

instance (key : List UInt8) : Decidable (key ∈ ignoredHeaders) :=
  List.instDecidableMemOfLawfulBEq key ignoredHeaders

/-! ### The threads -/

/-- A `char *` into the buffer of a thread. -/
abbrev CharPtr (ι : Type*) := ι × ℕ

/-- Where a thread is in `parse_request`. -/
inductive ParsePc (ι : Type*)
  /-- at the first `Rio_readlineb` -/
  | start
  /-- at the `Rio_readlineb` of the loop -/
  | readHeader
  /-- at `strtok(buf, ":")` -/
  | tokKey
  /-- at the `trim` of what that returned -/
  | trimKey (tok : Option (CharPtr ι))
  /-- at `strtok(NULL, "\r\n")` -/
  | tokValue (key : CharPtr ι)
  /-- at the `trim` of what that returned -/
  | trimValue (key : CharPtr ι) (tok : Option (CharPtr ι))
  /-- at the comparisons with the ignored headers -/
  | store (key value : CharPtr ι)
  /-- returned -/
  | finished
  deriving DecidableEq

/-- The frame of `parse_request` in one thread, with what is left of its connection. -/
structure Parser (ι : Type*) where
  pc : ParsePc ι
  input : List UInt8
  buf : List UInt8
  request : HttpRequest
  deriving DecidableEq

/-- The threads, the position saved by `strtok`, and whether the process is still alive. -/
structure Parsers (ι : Type*) where
  threads : ι → Parser ι
  saved : Option (CharPtr ι)
  alive : Bool

variable {ι : Type*} [DecidableEq ι]

namespace Parsers

/-- The frame of thread `t` is `th`. -/
def set (s : Parsers ι) (t : ι) (th : Parser ι) : Parsers ι :=
  { s with threads := Function.update s.threads t th }

/-- Thread `t` is at `pc` next. -/
def goto (s : Parsers ι) (t : ι) (pc : ParsePc ι) : Parsers ι :=
  s.set t { s.threads t with pc := pc }

/-- The bytes a pointer points into. -/
def bufOf (s : Parsers ι) (p : CharPtr ι) : List UInt8 := (s.threads p.1).buf

/-- A write into the buffer of thread `t`. -/
def setBuf (s : Parsers ι) (t : ι) (buf : List UInt8) : Parsers ι :=
  s.set t { s.threads t with buf := buf }

/-- The process dies of a segmentation fault. -/
def crash (s : Parsers ι) : Parsers ι := { s with alive := false }

/-- `strtok(p, delim)`. -/
def strtok (s : Parsers ι) (p : CharPtr ι) (delim : List UInt8) : Option (CharPtr ι) × Parsers ι :=
  let r := strtokAt delim (s.bufOf p) p.2
  (r.1.map fun tok => (p.1, tok), { s.setBuf p.1 r.2.1 with saved := some (p.1, r.2.2) })

/-- `trim(p)`. -/
def trim (s : Parsers ι) (p : CharPtr ι) : CharPtr ι × Parsers ι :=
  let r := trimAt (s.bufOf p) p.2
  ((p.1, r.1), s.setBuf p.1 r.2)

/-- The string at a pointer. -/
def str (s : Parsers ι) (p : CharPtr ι) : List UInt8 := strAt (s.bufOf p) p.2

/-- One step of thread `t` in a process that is alive. -/
def act (s : Parsers ι) (t : ι) : Option (Parsers ι) :=
  let th := s.threads t
  match th.pc with
  | .start =>
    let r := readLine (maxLine - 1) th.input
    let buf := fill th.buf r.1
    some (s.set t ⟨.readHeader, r.2, buf, scanRequestLine buf⟩)
  | .readHeader =>
    let r := readLine (maxLine - 1) th.input
    let buf := fill th.buf r.1
    let last := r.1 = [] ∨ strAt buf 0 = literal "\r\n"
    some (s.set t ⟨if last then .finished else .tokKey, r.2, buf, th.request⟩)
  | .tokKey =>
    let r := s.strtok (t, 0) (literal ":")
    some (r.2.goto t (.trimKey r.1))
  | .trimKey none => some s.crash
  | .trimKey (some tok) =>
    let r := s.trim tok
    some (r.2.goto t (.tokValue r.1))
  | .tokValue key =>
    match s.saved with
    | none => some s.crash
    | some p =>
      let r := s.strtok p (literal "\r\n")
      some (r.2.goto t (.trimValue key r.1))
  | .trimValue _ none => some s.crash
  | .trimValue key (some tok) =>
    let r := s.trim tok
    some (r.2.goto t (.store key r.1))
  | .store key value =>
    if s.str key ∈ ignoredHeaders then some (s.goto t .readHeader)
    else
      let hdrs := th.request.extraHdrs ++ [(s.str key, s.str value)]
      some (s.set t { th with pc := .readHeader, request := { th.request with extraHdrs := hdrs } })
  | .finished => none

/-- One step of thread `t`. -/
def step (s : Parsers ι) (t : ι) : Option (Parsers ι) := if s.alive then s.act t else none

/-- The threads before their first step, thread `t` on a connection that carries `input t`. -/
def initial (input : ι → List UInt8) : Parsers ι where
  threads t := ⟨.start, input t, List.replicate maxLine 0, .zero⟩
  saved := none
  alive := true

end Parsers

/-- The runs of the threads on the connections that carry `input`. -/
def parseRuns (input : ι → List UInt8) : System (Parsers ι) ι where
  init s := s = .initial input
  step s t s' := s.step t = some s'

/-- A run in which only thread `t` steps obtains `req`. -/
def ParsesAlone (input : ι → List UInt8) (t : ι) (req : HttpRequest) : Prop :=
  ∃ a, ((parseRuns input).only t).Reachable a ∧ (a.threads t).pc = .finished ∧
    (a.threads t).request = req

/-! ### What a step of one thread touches -/

/-- Between `strtok(buf, ":")` and `strtok(NULL, "\r\n")`. -/
def ParsePc.Between : ParsePc ι → Prop
  | .trimKey _ | .tokValue _ => True
  | _ => False

instance : DecidablePred (@ParsePc.Between ι)
  | .trimKey _ | .tokValue _ => .isTrue trivial
  | .start | .readHeader | .tokKey | .trimValue _ _ | .store _ _ | .finished => .isFalse nofun

/-- The pointers the thread has in hand point into the buffer of `t`. -/
def ParsePc.Owns (t : ι) : ParsePc ι → Prop
  | .trimKey tok => ∀ p, tok = some p → p.1 = t
  | .tokValue key => key.1 = t
  | .trimValue key tok => key.1 = t ∧ ∀ p, tok = some p → p.1 = t
  | .store key value => key.1 = t ∧ value.1 = t
  | _ => True

/-- No thread but `t` is between its two calls of `strtok` when `t` makes the first of its own. -/
def Undisturbed (s : Parsers ι) (t : ι) : Prop :=
  (s.threads t).pc = .tokKey → ∀ u, u ≠ t → ¬ (s.threads u).pc.Between

instance [Fintype ι] (s : Parsers ι) (t : ι) : Decidable (Undisturbed s t) :=
  inferInstanceAs (Decidable (_ → ∀ _, _ → ¬ _))

namespace Parsers

variable {s : Parsers ι} {t u : ι}

@[simp] theorem set_threads_self (th : Parser ι) : (s.set t th).threads t = th :=
  Function.update_self ..

theorem set_threads_ne (th : Parser ι) (h : u ≠ t) : (s.set t th).threads u = s.threads u :=
  Function.update_of_ne h ..

/-- The states `s` and `a` look the same to thread `t`; `a` may be alive where `s` is not. -/
structure Alike (t : ι) (s a : Parsers ι) : Prop where
  thread : a.threads t = s.threads t
  saved : (s.threads t).pc.Between → a.saved = s.saved
  alive : s.alive = true → a.alive = true

/-- Every thread has pointers into its own buffer only, and the saved position is that of the thread
between its two calls, if there is one. -/
structure Separate (s : Parsers ι) : Prop where
  owns : ∀ t, (s.threads t).pc.Owns t
  saved : ∀ t, (s.threads t).pc.Between → ∃ k, s.saved = some (t, k)

/-- Thread `t` became `th`, saved the position `k` in its own buffer, if any, and the process died if
`dies`; nothing else changed. -/
structure Became (t : ι) (th : Parser ι) (k : Option ℕ) (dies : Bool) (s s' : Parsers ι) : Prop where
  thread : s'.threads t = th
  frame : ∀ u, u ≠ t → s'.threads u = s.threads u
  saved : s'.saved = (k.map fun k => (t, k)).or s.saved
  alive : s'.alive = (s.alive && !dies)

theorem became_set (s : Parsers ι) (t : ι) (th : Parser ι) : Became t th none false s (s.set t th) :=
  ⟨set_threads_self th, fun _ hu => set_threads_ne th hu, rfl, (Bool.and_true _).symm⟩

omit [DecidableEq ι] in
theorem became_crash {s : Parsers ι} {t : ι} {th : Parser ι} (hth : s.threads t = th) :
    Became t th none true s s.crash :=
  ⟨hth, fun _ _ => rfl, rfl, (Bool.and_false _).symm⟩

/-- `strtok` on a buffer of `t` reads and writes that buffer and the saved position. -/
theorem became_strtok {s : Parsers ι} {t : ι} {th : Parser ι} {p : CharPtr ι}
    (hth : s.threads t = th) (hp : p.1 = t) (delim : List UInt8)
    (pc : Option (CharPtr ι) → ParsePc ι) :
    let r := strtokAt delim th.buf p.2
    Became t { th with pc := pc (r.1.map fun tok => (t, tok)), buf := r.2.1 } (some r.2.2) false s
      ((s.strtok p delim).2.goto t (pc (s.strtok p delim).1)) := by
  subst hp hth
  refine ⟨?_, fun u hu => ?_, rfl, (Bool.and_true _).symm⟩
  · simp [goto, setBuf, strtok, bufOf]
  · rw [goto, set_threads_ne _ hu]
    exact set_threads_ne _ hu

/-- `trim` on a buffer of `t` reads and writes that buffer. -/
theorem became_trim {s : Parsers ι} {t : ι} {th : Parser ι} {p : CharPtr ι}
    (hth : s.threads t = th) (hp : p.1 = t) (pc : CharPtr ι → ParsePc ι) :
    let r := trimAt th.buf p.2
    Became t { th with pc := pc (t, r.1), buf := r.2 } none false s
      ((s.trim p).2.goto t (pc (s.trim p).1)) := by
  subst hp hth
  refine ⟨?_, fun u hu => ?_, rfl, (Bool.and_true _).symm⟩
  · simp [goto, setBuf, trim, bufOf]
  · rw [goto, set_threads_ne _ hu]
    exact set_threads_ne _ hu

theorem became_goto {s : Parsers ι} {t : ι} {th : Parser ι} (hth : s.threads t = th)
    (pc : ParsePc ι) : Became t { th with pc := pc } none false s (s.goto t pc) := by
  subst hth
  exact became_set s t _

omit [DecidableEq ι] in
/-- A string in a buffer of `t`. -/
theorem str_eq {s : Parsers ι} {t : ι} {th : Parser ι} {p : CharPtr ι} (hth : s.threads t = th)
    (hp : p.1 = t) : s.str p = strAt th.buf p.2 := by
  subst hp hth
  rfl

variable {s' a : Parsers ι}

/-- **What a step does** in a state where every thread has pointers into its own buffer: it changes
its own frame, and in a state that looks the same it does the same. -/
theorem act_became (hs : Separate s) (h : s.act t = some s') :
    ∃ th k dies, Became t th k dies s s' ∧ th.pc.Owns t ∧
      (th.pc.Between → k.isSome = true ∨ (s.threads t).pc.Between) ∧
      (k.isSome = true → (s.threads t).pc = .tokKey ∨ (s.threads t).pc.Between) ∧
      ∀ a, Alike t s a → ∃ a', a.act t = some a' ∧ Became t th k dies a a' := by
  have howns := hs.owns t
  have hsaved := hs.saved t
  have hmap : ∀ (r : Option ℕ) (p : CharPtr ι), r.map (fun tok => (t, tok)) = some p → p.1 = t := by
    intro r p hp
    obtain ⟨k, _, rfl⟩ := Option.map_eq_some_iff.mp hp
    rfl
  -- a step of another kind than `strtok` saves no position
  have hnone : ∀ {P : Prop}, false = true → P := fun h => absurd h Bool.false_ne_true
  cases hpc : (s.threads t).pc with
  | start =>
    simp only [act, hpc, Option.some.injEq] at h
    subst h
    refine ⟨_, none, false, became_set s t _, trivial, False.elim, hnone, fun a ha => ?_⟩
    exact ⟨_, by simp only [act, ha.thread, hpc], became_set a t _⟩
  | readHeader =>
    simp only [act, hpc, Option.some.injEq] at h
    subst h
    refine ⟨_, none, false, became_set s t _, ?_, ?_, hnone, fun a ha => ?_⟩
    · dsimp only
      split <;> trivial
    · dsimp only
      split <;> exact False.elim
    · exact ⟨_, by simp only [act, ha.thread, hpc], became_set a t _⟩
  | tokKey =>
    simp only [act, hpc, Option.some.injEq] at h
    subst h
    refine ⟨_, some _, false, became_strtok (t := t) (p := (t, 0)) rfl rfl _ .trimKey, ?_,
      fun _ => .inl rfl, fun _ => .inl rfl, fun a ha => ?_⟩
    · exact hmap _
    · exact ⟨_, by simp only [act, ha.thread, hpc], became_strtok ha.thread rfl _ .trimKey⟩
  | trimKey tok =>
    rw [hpc] at howns
    cases tok with
    | none =>
      simp only [act, hpc, Option.some.injEq] at h
      subst h
      refine ⟨_, none, true, became_crash rfl, ?_, fun _ => .inr trivial, hnone, fun a ha => ?_⟩
      · rw [hpc]
        exact howns
      · exact ⟨_, by simp only [act, ha.thread, hpc], became_crash ha.thread⟩
    | some p =>
      have hp : p.1 = t := howns p rfl
      simp only [act, hpc, Option.some.injEq] at h
      subst h
      refine ⟨_, none, false, became_trim rfl hp .tokValue, rfl, fun _ => .inr trivial, hnone,
        fun a ha => ?_⟩
      exact ⟨_, by simp only [act, ha.thread, hpc], became_trim ha.thread hp .tokValue⟩
  | tokValue key =>
    rw [hpc] at howns hsaved
    obtain ⟨k, hk⟩ := hsaved trivial
    simp only [act, hpc, hk, Option.some.injEq] at h
    subst h
    refine ⟨_, some _, false, became_strtok (t := t) (p := (t, k)) rfl rfl _ (.trimValue key), ?_,
      False.elim, fun _ => .inr trivial, fun a ha => ?_⟩
    · exact ⟨howns, hmap _⟩
    · have hak : a.saved = some (t, k) := (ha.saved (by rw [hpc]; trivial)).trans hk
      refine ⟨_, ?_, became_strtok ha.thread rfl _ (.trimValue key)⟩
      simp only [act, ha.thread, hpc, hak]
  | trimValue key tok =>
    rw [hpc] at howns
    cases tok with
    | none =>
      simp only [act, hpc, Option.some.injEq] at h
      subst h
      refine ⟨_, none, true, became_crash rfl, ?_, ?_, hnone, fun a ha => ?_⟩
      · rw [hpc]
        exact howns
      · rw [hpc]
        exact False.elim
      · exact ⟨_, by simp only [act, ha.thread, hpc], became_crash ha.thread⟩
    | some p =>
      have hp : p.1 = t := howns.2 p rfl
      simp only [act, hpc, Option.some.injEq] at h
      subst h
      refine ⟨_, none, false, became_trim rfl hp (.store key), ⟨howns.1, rfl⟩, False.elim, hnone,
        fun a ha => ?_⟩
      exact ⟨_, by simp only [act, ha.thread, hpc], became_trim ha.thread hp (.store key)⟩
  | store key value =>
    rw [hpc] at howns
    simp only [act, hpc, str_eq rfl howns.1, str_eq rfl howns.2] at h
    split at h
    · next hign =>
      cases h
      refine ⟨_, none, false, became_goto rfl _, trivial, False.elim, hnone, fun a ha => ?_⟩
      refine ⟨_, ?_, became_goto ha.thread .readHeader⟩
      simp only [act, ha.thread, hpc, str_eq ha.thread howns.1, if_pos hign]
    · next hign =>
      cases h
      refine ⟨_, none, false, became_set s t _, trivial, False.elim, hnone, fun a ha => ?_⟩
      refine ⟨_, ?_, became_set a t _⟩
      simp only [act, ha.thread, hpc, str_eq ha.thread howns.1, str_eq ha.thread howns.2,
        if_neg hign]
  | finished =>
    simp only [act, hpc] at h
    cases h

theorem step_eq_some : s.step t = some s' ↔ s.alive = true ∧ s.act t = some s' := by
  rw [step]
  split
  · next h => simp [h]
  · next h => simp [h]

omit [DecidableEq ι] in
/-- Two threads are not between their calls at once. -/
theorem Separate.between_unique (hs : Separate s) (ht : (s.threads t).pc.Between)
    (hu : (s.threads u).pc.Between) : u = t := by
  obtain ⟨k, hk⟩ := hs.saved t ht
  obtain ⟨l, hl⟩ := hs.saved u hu
  rw [hk] at hl
  cases hl
  rfl

omit [DecidableEq ι] in
/-- An undisturbed step of `t` leaves the position alone that another thread is about to use. -/
theorem Became.saved_eq {th : Parser ι} {k : Option ℕ} {dies : Bool} (hb : Became t th k dies s s')
    (hs : Separate s) (hund : Undisturbed s t)
    (hk : k.isSome = true → (s.threads t).pc = .tokKey ∨ (s.threads t).pc.Between) (hu : u ≠ t)
    (hbet : (s.threads u).pc.Between) : s'.saved = s.saved := by
  cases k with
  | none => exact hb.saved
  | some k =>
    rcases hk rfl with htok | ht
    · exact absurd hbet (hund htok u hu)
    · exact absurd (hs.between_unique ht hbet) hu

/-- **The step lemma.** -/
theorem Separate.act (hs : Separate s) (hund : Undisturbed s t) (h : s.act t = some s') :
    Separate s' := by
  obtain ⟨th, k, dies, hb, howns, hbet, hk, _⟩ := act_became hs h
  constructor
  · intro u
    by_cases hu : u = t
    · subst hu
      rw [hb.thread]
      exact howns
    · rw [hb.frame u hu]
      exact hs.owns u
  · intro u hu'
    by_cases hu : u = t
    · subst hu
      rw [hb.thread] at hu'
      rw [hb.saved]
      cases k with
      | none => exact hs.saved u ((hbet hu').resolve_left nofun)
      | some k => exact ⟨k, rfl⟩
    · rw [hb.frame u hu] at hu'
      rw [hb.saved_eq hs hund hk hu hu']
      exact hs.saved u hu'

/-- A run of `t` alone follows the steps of `t`. -/
theorem Alike.own (ha : Alike t s a) (hs : Separate s) (h : s.act t = some s') :
    ∃ a', a.act t = some a' ∧ Alike t s' a' := by
  obtain ⟨th, k, dies, hb, _, hbet, _, hcongr⟩ := act_became hs h
  obtain ⟨a', hact, hb'⟩ := hcongr a ha
  refine ⟨a', hact, hb'.thread.trans hb.thread.symm, fun ht => ?_, fun hal => ?_⟩
  · rw [hb.thread] at ht
    rw [hb'.saved, hb.saved]
    cases k with
    | none => exact ha.saved ((hbet ht).resolve_left nofun)
    | some k => rfl
  · rw [hb.alive, Bool.and_eq_true] at hal
    rw [hb'.alive, ha.alive hal.1, hal.2]
    rfl

/-- It does not notice the steps of the others. -/
theorem Alike.other (ha : Alike u s a) (hs : Separate s) (hund : Undisturbed s t) (hu : u ≠ t)
    (h : s.act t = some s') : Alike u s' a := by
  obtain ⟨th, k, dies, hb, _, _, hk, _⟩ := act_became hs h
  refine ⟨ha.thread.trans (hb.frame u hu).symm, fun hbet => ?_, fun hal => ha.alive ?_⟩
  · rw [hb.frame u hu] at hbet
    rw [hb.saved_eq hs hund hk hu hbet]
    exact ha.saved hbet
  · rw [hb.alive, Bool.and_eq_true] at hal
    exact hal.1

end Parsers

/-! ### The runs -/

open Parsers

variable {input : ι → List UInt8}

omit [DecidableEq ι] in
theorem separate_initial : Separate (.initial input) := ⟨fun _ => trivial, nofun⟩

/-- **The run lemma.**  What an undisturbed run makes of a thread, a run of that thread alone makes
of it too. -/
theorem alone_of_undisturbed {s : Parsers ι}
    (hs : ((parseRuns input).restrict Undisturbed).Reachable s) (t : ι) :
    ∃ a, ((parseRuns input).only t).Reachable a ∧ Separate s ∧ Alike t s a := by
  refine hs.simulated (R := fun s a => Separate s ∧ Alike t s a) ?_ ?_
  · rintro s rfl
    exact ⟨_, rfl, separate_initial, rfl, fun _ => rfl, fun h => h⟩
  · rintro s u s' a ⟨hsep, ha⟩ ⟨hund, hstep⟩
    obtain ⟨halive, hact⟩ := step_eq_some.mp hstep
    have hsep' := hsep.act hund hact
    by_cases hu : u = t
    · subst hu
      obtain ⟨a', hact', ha'⟩ := ha.own hsep hact
      exact .inr ⟨u, a', ⟨rfl, step_eq_some.mpr ⟨ha.alive halive, hact'⟩⟩, hsep', ha'⟩
    · exact .inl ⟨hsep', ha.other hsep hund (Ne.symm hu) hact⟩

/-- A thread that has returned takes no step. -/
theorem step_finished {s s' : Parsers ι} {t : ι} (hdone : (s.threads t).pc = .finished) :
    s.step t ≠ some s' := by
  intro h
  obtain ⟨_, hact⟩ := step_eq_some.mp h
  simp only [act, hdone] at hact
  cases hact

/-- The runs of one thread alone end in one state. -/
theorem alone_eq_of_final {a b : Parsers ι} {t : ι} (ha : ((parseRuns input).only t).Reachable a)
    (hb : ((parseRuns input).only t).Reachable b) (hfa : ∀ s', a.step t ≠ some s')
    (hfb : ∀ s', b.step t ≠ some s') : a = b := by
  refine ha.eq_of_final hb (fun s s' hs hs' => Eq.trans hs hs'.symm) ?_ ?_ ?_
  · rintro s u v s' s'' ⟨rfl, h₁⟩ ⟨rfl, h₂⟩
    exact Option.some.inj (h₁.symm.trans h₂)
  · rintro u s' ⟨rfl, h₁⟩
    exact hfa s' h₁
  · rintro u s' ⟨rfl, h₁⟩
    exact hfb s' h₁

/-- A thread alone obtains one request. -/
theorem ParsesAlone.unique {t : ι} {req req' : HttpRequest} (h : ParsesAlone input t req)
    (h' : ParsesAlone input t req') : req = req' := by
  obtain ⟨a, ha, hdone, rfl⟩ := h
  obtain ⟨b, hb, hdone', rfl⟩ := h'
  rw [alone_eq_of_final ha hb (fun _ => step_finished hdone) fun _ => step_finished hdone']

/-- What a returned thread of an undisturbed run has obtained. -/
theorem parsesAlone_of_undisturbed {s : Parsers ι}
    (hs : ((parseRuns input).restrict Undisturbed).Reachable s) {t : ι}
    (hdone : (s.threads t).pc = .finished) : ParsesAlone input t (s.threads t).request := by
  obtain ⟨a, ha, _, halike⟩ := alone_of_undisturbed hs t
  exact ⟨a, ha, by rw [halike.thread, hdone], by rw [halike.thread]⟩

/-- **Isolation.**  In a run in which no thread calls `strtok(buf, ":")` while another is between that
call and its `strtok(NULL, "\r\n")`, every thread obtains the request it obtains alone. -/
theorem parse_alone_of_undisturbed (input : ι → List UInt8) (s : Parsers ι)
    (hs : ((parseRuns input).restrict Undisturbed).Reachable s) (t : ι)
    (hdone : (s.threads t).pc = .finished) (req : HttpRequest) :
    ParsesAlone input t req ↔ req = (s.threads t).request := by
  have hthis := parsesAlone_of_undisturbed hs hdone
  constructor
  · intro h
    exact h.unique hthis
  · rintro rfl
    exact hthis

/-- Two clients, each with one header of its own. -/
def twoClients (t : Bool) : List UInt8 :=
  if t then literal "GET http://b.org/y HTTP/1.1\r\nCookie: secret\r\n\r\n"
  else literal "GET http://a.org:8080/x HTTP/1.1\r\nAccept: text\r\n\r\n"

/-- Every thread reads its request line, then one after the other parses its headers. -/
theorem parse_alone_of_undisturbed_turns : ∃ s,
    ((parseRuns twoClients).restrict Undisturbed).Reachable s ∧
      (s.threads false).request.extraHdrs = [(literal "Accept", literal "text")] ∧
      ParsesAlone twoClients false (s.threads false).request := by
  have hrun : ((([false, true, false, true] ++ List.replicate 6 false ++ List.replicate 6 true).foldlM
      (fun s t => if Undisturbed s t then s.step t else none) (.initial twoClients)).map
      fun s => ((s.threads false).pc, (s.threads false).request.extraHdrs)) =
      some (.finished, [(literal "Accept", literal "text")]) := by
    decide +kernel
  obtain ⟨s, hs, heq⟩ := Option.map_eq_some_iff.mp hrun
  obtain ⟨hdone, hhdrs⟩ := Prod.mk.inj heq
  have hreach : ((parseRuns twoClients).restrict Undisturbed).Reachable s := by
    refine .of_foldlM (fun s t s' h => ?_) (.init rfl) hs
    split at h
    · next hund => exact ⟨hund, h⟩
    · cases h
  exact ⟨s, hreach, hhdrs, (parse_alone_of_undisturbed _ s hreach false hdone _).mpr rfl⟩

/-- **The splice.**  The second client's `strtok(buf, ":")` falls between the two calls of the first:
the first obtains the second's header value, which it does not obtain alone. -/
theorem parse_spliced : ∃ s req, (parseRuns twoClients).Reachable s ∧
    (s.threads false).pc = .finished ∧
    (s.threads false).request.extraHdrs = [(literal "Accept", literal "secret")] ∧
    ParsesAlone twoClients false req ∧ req.extraHdrs = [(literal "Accept", literal "text")] := by
  have halone : ((List.replicate 8 false).foldlM
      (fun (s : Parsers Bool) t => if t = false then s.step t else none) (.initial twoClients)).map
      (fun s => ((s.threads false).pc, (s.threads false).request.extraHdrs)) =
      some (.finished, [(literal "Accept", literal "text")]) := by
    decide +kernel
  have hrun : (([false, true, false, true, false, true] ++ List.replicate 5 false).foldlM
      Parsers.step (.initial twoClients)).map
      (fun s => ((s.threads false).pc, (s.threads false).request.extraHdrs)) =
      some (.finished, [(literal "Accept", literal "secret")]) := by
    decide +kernel
  obtain ⟨a, ha, heq⟩ := Option.map_eq_some_iff.mp halone
  obtain ⟨s, hs, heq'⟩ := Option.map_eq_some_iff.mp hrun
  obtain ⟨hdone, hhdrs⟩ := Prod.mk.inj heq
  obtain ⟨hdone', hhdrs'⟩ := Prod.mk.inj heq'
  have hreach : (parseRuns twoClients).Reachable s := .of_foldlM (fun _ _ _ h => h) (.init rfl) hs
  have hreachAlone : ((parseRuns twoClients).only false).Reachable a := by
    refine .of_foldlM (fun s t s' h => ?_) (.init rfl) ha
    split at h
    · next ht => exact ⟨ht, h⟩
    · cases h
  exact ⟨s, _, hreach, hdone', hhdrs', ⟨a, hreachAlone, hdone, rfl⟩, hhdrs⟩

end SystemProgramming.ProxyLab
