import Mathlib.Data.List.Infix
import SystemProgramming.ProxyLab.ForwardedHeaders

/-!
# The Tiny web server (`tiny.c`)

Tiny is the origin that the proxy is run against.  It serves one connection after the other: it reads
a request line, skips the headers, and answers with a file or with what a program prints.

* `doit` : one connection; `serve` : what follows the headers.
* `Site.Appends` : what Tiny takes `sprintf` to do where its text and its buffer overlap.
* `doit_loops_iff` : the connections that Tiny never comes back from.
* `doit_requestLines` : what the proxy writes is read as a request for the path, to the last byte.
-/

namespace SystemProgramming.ProxyLab

open SystemProgramming.CString (literal strAt)
open Scanning (isspace mem_scanString mem_scanString_rest printInt scanString scanString_append)

/-! ### The model -/

/-- What `stat` and the system calls after it say of a file. -/
structure FileInfo where
  regular : Bool
  /-- `S_IRUSR` -/
  readable : Bool
  /-- `S_IXUSR` -/
  executable : Bool
  /-- whether `Open` succeeds -/
  opens : Bool
  content : List UInt8

/-- The files, what a program prints on a query, and what the C library makes of
`sprintf(buf, "%s...", buf)`.  C does not define the last: `overlap s t` is the string in `buf` after such
a call, where `s` was the string in it and `t` is the text behind the `%s`, and `none` when the call writes
past the end of `buf`. -/
structure Site where
  stat : List UInt8 → Option FileInfo
  cgi : List UInt8 → List UInt8 → List UInt8
  overlap : List UInt8 → List UInt8 → Option (List UInt8)

/-- The text is put behind the string, as the code means it.  `MAXBUF` is `MAXLINE`. -/
def Site.Appends (site : Site) : Prop :=
  ∀ s t, site.overlap s t = if (s ++ t).length < maxLine then some (s ++ t) else none

/-- How `doit` ends. -/
inductive Ending
  | returned
  /-- by `unix_error` -/
  | exited
  /-- with a write behind a buffer -/
  | overflow
  /-- with a string that nothing was read into -/
  | undefined
  deriving DecidableEq

/-- What the client has been sent, and how the call ended. -/
structure Transaction where
  sent : List UInt8
  ending : Ending
  deriving DecidableEq

/-- The substring test of `strstr`. -/
def strstr (s needle : List UInt8) : Bool := decide (needle <:+: s)

/-- `parse_uri`: whether the content is static, the file name and the arguments; `none` when the name
does not fit. -/
def parseUri (uri : List UInt8) : Option (Bool × List UInt8 × List UInt8) :=
  if strstr uri (literal "cgi-bin") = false then
    let filename := literal "." ++ uri ++ if uri.getLast? = some 47 then literal "home.html" else []
    if filename.length < maxLine then some (true, filename, []) else none
  else
    let filename := literal "." ++ uri.takeWhile (· ≠ 63)
    if filename.length < maxLine then some (false, filename, (uri.dropWhile (· ≠ 63)).tail) else none

/-- `get_filetype`. -/
def getFiletype (filename : List UInt8) : List UInt8 :=
  if strstr filename (literal ".html") then literal "text/html"
  else if strstr filename (literal ".gif") then literal "image/gif"
  else if strstr filename (literal ".png") then literal "image/png"
  else if strstr filename (literal ".jpg") then literal "image/jpeg"
  else literal "text/plain"

/-- The `int` that a file size is passed as. -/
def intSize (content : List UInt8) : ℤ := Int.bmod content.length (2 ^ 32)

/-- The response headers of `serve_static`. -/
def staticHeaders (site : Site) (filename : List UInt8) (filesize : ℤ) : Option (List UInt8) :=
  [literal "Server: Tiny Web Server\r\n", literal "Connection: close\r\n",
    literal "Content-length: " ++ printInt filesize ++ literal "\r\n",
    literal "Content-type: " ++ getFiletype filename ++ literal "\r\n\r\n"].foldlM site.overlap
      (literal "HTTP/1.0 200 OK\r\n")

/-- `serve_static`; a file of no bytes can not be mapped. -/
def serveStatic (site : Site) (filename : List UInt8) (f : FileInfo) : Transaction :=
  match staticHeaders site filename (intSize f.content) with
  | none => ⟨[], .overflow⟩
  | some headers =>
    if f.opens = false ∨ intSize f.content ≤ 0 then ⟨headers, .exited⟩
    else ⟨headers ++ f.content.take (intSize f.content).toNat, .returned⟩

/-- `serve_dynamic`. -/
def serveDynamic (site : Site) (filename cgiargs : List UInt8) : Transaction :=
  ⟨literal "HTTP/1.0 200 OK\r\n" ++ literal "Server: Tiny Web Server\r\n" ++
    site.cgi filename cgiargs, .returned⟩

/-- The body that `clienterror` builds. -/
def errorBody (site : Site) (cause errnum shortmsg longmsg : List UInt8) : Option (List UInt8) :=
  [literal "<body bgcolor=ffffff>\r\n", errnum ++ literal ": " ++ shortmsg ++ literal "\r\n",
    literal "<p>" ++ longmsg ++ literal ": " ++ cause ++ literal "\r\n",
    literal "<hr><em>The Tiny Web server</em>\r\n"].foldlM site.overlap
      (literal "<html><title>Tiny Error</title>")

/-- `clienterror`. -/
def clienterror (site : Site) (cause errnum shortmsg longmsg : List UInt8) : Transaction :=
  match errorBody site cause errnum shortmsg longmsg with
  | none => ⟨[], .overflow⟩
  | some body =>
    ⟨literal "HTTP/1.0 " ++ errnum ++ literal " " ++ shortmsg ++ literal "\r\n" ++
      literal "Content-type: text/html\r\n" ++
      literal "Content-length: " ++ printInt body.length ++ literal "\r\n\r\n" ++ body, .returned⟩

/-- `doit` behind `read_requesthdrs`. -/
def serve (site : Site) (uri : List UInt8) : Transaction :=
  match parseUri uri with
  | none => ⟨[], .overflow⟩
  | some (isStatic, filename, cgiargs) =>
    match site.stat filename with
    | none => clienterror site filename (literal "404") (literal "Not found")
        (literal "Tiny couldn't find this file")
    | some f =>
      if isStatic then
        if f.regular && f.readable then serveStatic site filename f
        else clienterror site filename (literal "403") (literal "Forbidden")
          (literal "Tiny couldn't read the file")
      else if f.regular && f.executable then serveDynamic site filename cgiargs
      else clienterror site filename (literal "403") (literal "Forbidden")
        (literal "Tiny couldn't run the CGI program")

/-- `read_requesthdrs`, at most `fuel` lines: what is left of the connection when it returns. -/
def readRequesthdrs : ℕ → List UInt8 → List UInt8 → Option (List UInt8)
  | 0, _, _ => none
  | fuel + 1, buf, input =>
    if strAt (fill buf (readLine (maxLine - 1) input).1) 0 = endLine then
      some (readLine (maxLine - 1) input).2
    else
      readRequesthdrs fuel (fill buf (readLine (maxLine - 1) input).1) (readLine (maxLine - 1) input).2

/-- `doit` on what a client sends, without its tracing `printf`s; `buf` is what the buffer of `read_requesthdrs` holds before, and
`none` that the call is still in there after `fuel` lines. -/
def doit (site : Site) (fuel : ℕ) (buf input : List UInt8) : Option Transaction :=
  let line := (readLine (maxLine - 1) input).1
  if line = [] then some ⟨[], .returned⟩
  else
    let method := scanString (lineText line)
    let uri := scanString (scanString (lineText line)).2
    if method.1 = [] then some ⟨[], .undefined⟩
    else if ¬ SameName method.1 (literal "GET") then
      some (clienterror site method.1 (literal "501") (literal "Not Implemented")
        (literal "Tiny does not implement this method"))
    else
      match readRequesthdrs fuel buf (readLine (maxLine - 1) input).2 with
      | none => none
      | some _ => some (if uri.1 = [] then ⟨[], .undefined⟩ else serve site uri.1)

/-! ### Connections that never end -/

/-- What is left of a connection behind `k` lines. -/
def skipLines : ℕ → List UInt8 → List UInt8
  | 0, input => input
  | k + 1, input => skipLines k (readLine (maxLine - 1) input).2

/-- Line `k` of a connection, empty when there is none. -/
def lineAt (k : ℕ) (input : List UInt8) : List UInt8 := (readLine (maxLine - 1) (skipLines k input)).1

/-- **The loop of `read_requesthdrs`** is left at the first line that is empty.  At the end of the
connection the buffer keeps the last line, and the loop goes on. -/
theorem readRequesthdrs_eq_none_iff {fuel : ℕ} {buf input : List UInt8} (hbuf : strAt buf 0 ≠ endLine) :
    readRequesthdrs fuel buf input = none ↔ ∀ k < fuel, lineText (lineAt k input) ≠ endLine := by
  induction fuel generalizing buf input with
  | zero => exact iff_of_true rfl fun k hk => absurd hk (Nat.not_lt_zero k)
  | succ fuel ih =>
    have hfirst : strAt (fill buf (readLine (maxLine - 1) input).1) 0 = endLine ↔
        lineText (lineAt 0 input) = endLine := by
      show _ ↔ lineText (readLine (maxLine - 1) input).1 = endLine
      by_cases hnil : (readLine (maxLine - 1) input).1 = []
      · rw [hnil, fill, if_pos rfl]
        exact iff_of_false hbuf (by decide)
      · rw [strAt_fill _ hnil]
    rw [readRequesthdrs]
    split
    · next hend =>
      refine iff_of_false (by simp) fun h => ?_
      exact h 0 (Nat.succ_pos _) (hfirst.mp hend)
    · next hmore =>
      rw [ih hmore]
      constructor
      · intro h k hk
        cases k with
        | zero => exact fun hend => hmore (hfirst.mpr hend)
        | succ k => exact h k (Nat.lt_of_succ_lt_succ hk)
      · intro h k hk
        exact h (k + 1) (Nat.succ_lt_succ hk)

/-- **When Tiny hangs.**  A connection is never answered exactly when it asks with `GET` and no line
behind the request line is empty; the client may have closed it. -/
theorem doit_loops_iff (site : Site) (buf input : List UInt8) (hbuf : strAt buf 0 ≠ endLine) :
    (∀ fuel, doit site fuel buf input = none) ↔
      SameName (scanString (lineText (lineAt 0 input))).1 (literal "GET") ∧
        ∀ k, lineText (lineAt (k + 1) input) ≠ endLine := by
  have hloop : (∀ fuel, readRequesthdrs fuel buf (readLine (maxLine - 1) input).2 = none) ↔
      ∀ k, lineText (lineAt (k + 1) input) ≠ endLine :=
    ⟨fun h k => (readRequesthdrs_eq_none_iff hbuf).mp (h (k + 1)) k (Nat.lt_succ_self k),
      fun h fuel => (readRequesthdrs_eq_none_iff hbuf).mpr fun k _ => h k⟩
  have hempty : ¬ SameName [] (literal "GET") := by decide
  rw [← hloop]
  show _ ↔ SameName (scanString (lineText (readLine (maxLine - 1) input).1)).1 (literal "GET") ∧ _
  simp only [doit]
  split
  · next hnil =>
    rw [hnil]
    exact iff_of_false (fun h => by cases h 0) fun h => hempty h.1
  split
  · next hmethod =>
    rw [hmethod]
    exact iff_of_false (fun h => by cases h 0) fun h => hempty h.1
  split
  · next hother => exact iff_of_false (fun h => by cases h 0) fun h => hother h.1
  · next hget =>
    rw [and_iff_right (not_not.mp hget)]
    refine forall_congr' fun fuel => ?_
    cases readRequesthdrs fuel buf (readLine (maxLine - 1) input).2 with
    | none => exact iff_of_true rfl rfl
    | some rest => exact iff_of_false (by simp) (by simp)

theorem skipLines_nil (k : ℕ) : skipLines k [] = [] := by
  induction k with
  | zero => rfl
  | succ k ih => exact ih

/-- A `sprintf` that appends. -/
def appending (s t : List UInt8) : Option (List UInt8) :=
  if (s ++ t).length < maxLine then some (s ++ t) else none

/-- A site without files. -/
def emptySite : Site := ⟨fun _ => none, fun _ _ => [], appending⟩

/-- A client that sends its request line and closes the connection. -/
theorem doit_loops_iff_closed :
    doit emptySite 1000 (List.replicate maxLine 0) (literal "GET / HTTP/1.0\r\n") = none := by
  have hbuf : strAt (List.replicate maxLine 0) 0 ≠ endLine := by decide +kernel
  refine (doit_loops_iff emptySite _ _ hbuf).mpr ⟨by decide +kernel, fun k => ?_⟩ 1000
  have hrest : (readLine (maxLine - 1) (literal "GET / HTTP/1.0\r\n")).2 = [] := by decide +kernel
  have hline : lineAt (k + 1) (literal "GET / HTTP/1.0\r\n") = [] := by
    show (readLine (maxLine - 1) (skipLines k (readLine (maxLine - 1) _).2)).1 = []
    rw [hrest, skipLines_nil]
    rfl
  rw [hline]
  decide

/-! ### What the proxy writes -/

/-- A line with its newline, and no NUL. -/
def OneLine (line : List UInt8) : Prop :=
  ∃ text, line = text ++ [10] ∧ (10 : UInt8) ∉ text ∧ (0 : UInt8) ∉ text

section
variable {line rest : List UInt8} {c : UInt8}

theorem OneLine.read (h : OneLine line) (hlen : line.length < maxLine) (rest : List UInt8) :
    readLine (maxLine - 1) (line ++ rest) = (line, rest) := by
  obtain ⟨text, rfl, hnewline, -⟩ := h
  rw [List.length_append, List.length_singleton] at hlen
  rw [List.append_assoc]
  exact readLine_newline rest hnewline (by omega)

theorem OneLine.lineText (h : OneLine line) : ProxyLab.lineText line = line := by
  obtain ⟨text, rfl, -, hnul⟩ := h
  refine List.takeWhile_eq_self_iff.mpr fun c hc => decide_eq_true ?_
  rintro rfl
  rcases List.mem_append.mp hc with hc | hc
  · exact hnul hc
  · revert hc
    decide

/-- The lines of a header section are skipped, and the empty line behind them. -/
theorem readRequesthdrs_lines {lines : List (List UInt8)} {fuel : ℕ} {buf : List UInt8}
    (hlines : ∀ line ∈ lines, OneLine line ∧ line.length < maxLine ∧ line ≠ endLine)
    (hfuel : lines.length < fuel) :
    readRequesthdrs fuel buf (lines.flatten ++ (endLine ++ rest)) = some rest := by
  induction lines generalizing fuel buf with
  | nil =>
    cases fuel with
    | zero => cases hfuel
    | succ fuel =>
      have hend : OneLine endLine := ⟨[13], by decide, by decide, by decide⟩
      rw [List.flatten_nil, List.nil_append, readRequesthdrs, hend.read (by decide)]
      rw [if_pos]
      rw [strAt_fill _ (show endLine ≠ [] by decide), hend.lineText]
  | cons line lines ih =>
    cases fuel with
    | zero => cases hfuel
    | succ fuel =>
      obtain ⟨hline, hlen, hne⟩ := hlines line List.mem_cons_self
      have hnil : line ≠ [] := by
        obtain ⟨text, rfl, -, -⟩ := hline
        exact List.append_ne_nil_of_right_ne_nil _ (by simp)
      rw [List.flatten_cons, List.append_assoc, readRequesthdrs, hline.read hlen, if_neg]
      · exact ih (fun l hl => hlines l (List.mem_cons_of_mem _ hl)) (Nat.lt_of_succ_lt_succ hfuel)
      · rw [strAt_fill _ hnil, hline.lineText]
        exact hne

/-! ### The requests that the proxy parses -/

theorem scanRequestLine_uri_visible {buf : List UInt8} (hc : c ∈ (scanRequestLine buf).uri) :
    Visible c := by
  have hc' : c ∈ (scanString (scanString (strAt buf 0)).2).1 := hc
  obtain ⟨hspace, hin⟩ := mem_scanString hc'
  obtain ⟨-, hnul⟩ := Segments.mem_takeWhile (mem_scanString_rest hin)
  exact ⟨by simpa using hnul, hspace⟩

/-- What `scanUri` finds are characters of the URI. -/
theorem mem_scanUri {uri : List UInt8} (hc : c ∈ (scanUri uri).1 ∨ c ∈ (scanUri uri).2) : c ∈ uri := by
  rw [scanUri] at hc
  cases hdrop : uri.dropPrefix? (literal "http://") with
  | none =>
    rw [hdrop] at hc
    rcases hc with hc | hc <;> cases hc
  | some tail =>
    rw [hdrop] at hc
    have hsub : ∀ d ∈ tail, d ∈ uri := fun d hd => by
      obtain ⟨front, huri, -⟩ := List.dropPrefix?_eq_some_iff.mp hdrop
      rw [huri]
      exact List.mem_append_right _ hd
    dsimp only at hc
    split at hc
    · rcases hc with hc | hc <;> cases hc
    · rcases hc with hc | hc
      · exact hsub c (Segments.mem_takeWhile hc).1
      · exact hsub c ((List.dropWhile_suffix _).subset (mem_scanString hc).2)

/-- The path and the host of a request line are parts of words. -/
theorem scanRequestLine_visible (buf : List UInt8) :
    ((scanRequestLine buf).path ≠ [] ∧ ∀ c ∈ (scanRequestLine buf).path, Visible c) ∧
      ∀ c ∈ (scanRequestLine buf).host, Visible c := by
  have hpath : (scanRequestLine buf).path = if (scanUri (scanRequestLine buf).uri).2 = [] then
      literal "/" else (scanUri (scanRequestLine buf).uri).2 := rfl
  have hhost : (scanRequestLine buf).host = (scanUri (scanRequestLine buf).uri).1 := rfl
  refine ⟨?_, fun c hc => ?_⟩
  · rw [hpath]
    split
    · rw [show literal "/" = [47] by decide]
      exact ⟨by simp, List.forall_mem_singleton.mpr (by decide)⟩
    · next hne => exact ⟨hne, fun c hc => scanRequestLine_uri_visible (mem_scanUri (Or.inr hc))⟩
  · rw [hhost] at hc
    exact scanRequestLine_uri_visible (mem_scanUri (Or.inl hc))

/-- No newline and no NUL. -/
def OnOneLine (s : List UInt8) : Prop := ∀ c ∈ s, c ≠ 10 ∧ c ≠ 0

instance (s : List UInt8) : Decidable (OnOneLine s) :=
  List.decidableBAll (fun c => c ≠ 10 ∧ c ≠ 0) s

theorem Visible.onOneLine (h : Visible c) : c ≠ 10 ∧ c ≠ 0 := by
  refine ⟨fun h10 => ?_, h.1⟩
  have hspace := h.2
  rw [h10] at hspace
  revert hspace
  decide

/-- A line that is read has a newline at most at its end. -/
theorem readLine_dropLast (n : ℕ) (input : List UInt8) :
    (10 : UInt8) ∉ (readLine n input).1.dropLast := by
  induction n generalizing input with
  | zero => simp [readLine]
  | succ n ih =>
    cases input with
    | nil => simp [readLine]
    | cons d input =>
      rw [readLine]
      split
      · simp
      · next hd =>
        show (10 : UInt8) ∉ (d :: (readLine n input).1).dropLast
        cases hrest : (readLine n input).1 with
        | nil => simp
        | cons e l =>
          have hin := ih input
          rw [hrest] at hin
          rw [List.dropLast_cons_of_ne_nil (by simp), List.mem_cons, not_or]
          exact ⟨Ne.symm hd, hin⟩

/-- The header lines are lines that were read. -/
theorem headerLinesFrom_newline {fuel : ℕ} {input : List UInt8} (h : line ∈ headerLinesFrom fuel input) :
    (10 : UInt8) ∉ line.dropLast := by
  induction fuel generalizing input with
  | zero => cases h
  | succ fuel ih =>
    rw [headerLinesFrom] at h
    split at h
    · cases h
    · rcases List.mem_cons.mp h with rfl | h
      · exact readLine_dropLast _ _
      · exact ih h

/-- The key and the value of a header are on one line each. -/
theorem headerOf_onOneLine (hline : (10 : UInt8) ∉ line.dropLast) (htok : Tokenizes line) :
    OnOneLine (headerOf line).1 ∧ OnOneLine (headerOf line).2 := by
  have hnul : ∀ c ∈ lineText line, c ≠ 0 := fun c hc => by
    simpa using (Segments.mem_takeWhile hc).2
  have hafter : afterToken (literal ":") (lineText line) ≠ [] := by
    intro hnil
    refine htok.2 ?_
    rw [valueToken, hnil]
    rfl
  obtain ⟨skip, d, hsplit, -, -, -⟩ := exists_tokenOf hafter
  constructor
  · intro c hc
    have hkey : c ∈ keyToken (lineText line) := mem_of_mem_trimmed hc
    have hbefore : c ∈ skip ++ tokenOf (literal ":") (lineText line) :=
      List.mem_append_right _ hkey
    refine ⟨?_, hnul c ?_⟩
    · -- the key stands in front of a colon, so it does not reach the end of the line
      obtain ⟨behind, htext⟩ := List.takeWhile_prefix (fun c : UInt8 => decide (c ≠ 0)) (l := line)
      have hline' : line = (skip ++ tokenOf (literal ":") (lineText line)) ++
          (d :: afterToken (literal ":") (lineText line) ++ behind) := by
        rw [List.append_assoc skip, ← List.append_assoc (tokenOf _ _), ← List.append_assoc skip,
          ← hsplit]
        exact htext.symm
      rintro rfl
      refine hline ?_
      rw [hline', List.dropLast_append_of_ne_nil (by simp)]
      exact List.mem_append_left _ hbefore
    · rw [hsplit, ← List.append_assoc]
      exact List.mem_append_left _ hbefore
  · intro c hc
    have hvalue : c ∈ valueToken (lineText line) := mem_of_mem_trimmed hc
    obtain ⟨hin, hnot⟩ := Segments.mem_takeWhile hvalue
    have hrest : c ∈ afterToken (literal ":") (lineText line) :=
      (List.dropWhile_suffix _).subset hin
    refine ⟨?_, hnul c ?_⟩
    · rintro rfl
      exact of_decide_eq_true hnot (mem_crlf.mpr (Or.inr rfl))
    · rw [hsplit]
      exact List.mem_append_right _ (List.mem_append_right _ (List.mem_cons_of_mem _ hrest))

section
variable {ι : Type*} [DecidableEq ι] {input : ι → List UInt8} {t : ι} {req : HttpRequest}

/-- The strings of a parsed request are on one line each. -/
theorem parsed_onOneLine (h : ParsesAlone input t req) :
    (req.path ≠ [] ∧ ∀ c ∈ req.path, Visible c) ∧ (∀ c ∈ req.host, Visible c) ∧
      ∀ hdr ∈ req.extraHdrs, OnOneLine hdr.1 ∧ OnOneLine hdr.2 := by
  obtain ⟨htok, rfl⟩ := parsesAlone_iff.mp h
  obtain ⟨hpath, hhost⟩ := scanRequestLine_visible (requestLine (input t))
  refine ⟨hpath, hhost, fun hdr hin => ?_⟩
  have hin' : hdr ∈ [] ++ keptHeaders (headerLines (input t)) := hin
  obtain ⟨line, hline, rfl⟩ := List.mem_map.mp (List.mem_filter.mp hin').1
  exact headerOf_onOneLine (headerLinesFrom_newline hline) (htok line hline)

theorem oneLine_append {text : List UInt8} (h : OnOneLine text) : OneLine (text ++ literal "\r\n") := by
  refine ⟨text ++ [13], ?_, fun hc => ?_, fun hc => ?_⟩
  · rw [List.append_assoc]
    rfl
  · rcases List.mem_append.mp hc with hc | hc
    · exact (h 10 hc).1 rfl
    · revert hc
      decide
  · rcases List.mem_append.mp hc with hc | hc
    · exact (h 0 hc).2 rfl
    · revert hc
      decide

theorem OnOneLine.append {a b : List UInt8} (ha : OnOneLine a) (hb : OnOneLine b) :
    OnOneLine (a ++ b) := by
  intro c hc
  rcases List.mem_append.mp hc with hc | hc
  · exact ha c hc
  · exact hb c hc

/-- Every line that the proxy writes for a parsed request is one line, and only the last is empty. -/
theorem requestLines_oneLine (h : ParsesAlone input t req) :
    ∀ line ∈ (ownHeaders req).map Prod.snd ++ req.extraHdrs.map headerLine,
      OneLine line ∧ line ≠ endLine := by
  obtain ⟨-, hhost, hhdrs⟩ := parsed_onOneLine h
  have hhost' : OnOneLine req.host := fun c hc => (hhost c hc).onOneLine
  intro line hline
  rcases List.mem_append.mp hline with hown | hextra
  · have hcases : line = literal "Host: " ++ req.host ++ literal "\r\n" ∨ line = userAgentHdr ∨
        line = connectionHdr ∨ line = proxyConnectionHdr := by
      simpa [ownHeaders] using hown
    rcases hcases with rfl | rfl | rfl | rfl
    · have htext : OnOneLine (literal "Host: ") := by decide
      refine ⟨oneLine_append (htext.append hhost'), fun hend => ?_⟩
      have hlen := congrArg List.length hend
      rw [List.length_append, List.length_append, show (literal "Host: ").length = 6 by decide,
        show (literal "\r\n").length = 2 by decide, show endLine.length = 2 by decide] at hlen
      omega
    · exact ⟨⟨userAgentHdr.dropLast, by decide +kernel, by decide +kernel, by decide +kernel⟩,
        by decide +kernel⟩
    · exact ⟨⟨connectionHdr.dropLast, by decide, by decide, by decide⟩, by decide⟩
    · exact ⟨⟨proxyConnectionHdr.dropLast, by decide, by decide, by decide⟩, by decide⟩
  · obtain ⟨hdr, hin, rfl⟩ := List.mem_map.mp hextra
    obtain ⟨hkey, hvalue⟩ := hhdrs hdr hin
    have htext : OnOneLine (literal ": ") := by decide
    refine ⟨oneLine_append ((hkey.append htext).append hvalue), fun hend => ?_⟩
    have hlen := congrArg List.length hend
    rw [headerLine, List.length_append, List.length_append, List.length_append,
      show (literal ": ").length = 2 by decide, show (literal "\r\n").length = 2 by decide,
      show endLine.length = 2 by decide] at hlen
    omega

/-- The words of the GET line. -/
theorem scanString_get {path : List UInt8} (hne : path ≠ []) (hpath : ∀ c ∈ path, Visible c) :
    scanString (literal "GET " ++ path ++ literal " HTTP/1.0\r\n") =
        (literal "GET", literal " " ++ path ++ literal " HTTP/1.0\r\n") ∧
      scanString (literal " " ++ path ++ literal " HTTP/1.0\r\n") =
        (path, literal " HTTP/1.0\r\n") := by
  have hletters : ∀ c ∈ literal "GET", Visible c := by
    rw [show literal "GET" = [71, 69, 84] by decide]
    simp only [List.forall_mem_cons]
    exact ⟨by decide, by decide, by decide, List.forall_mem_nil _⟩
  have hblank : ∀ c ∈ literal " ", isspace c = true := by
    rw [show literal " " = [32] by decide]
    exact List.forall_mem_singleton.mpr rfl
  have hfirst : scanString ([] ++ (literal "GET" ++ (literal " " ++ path ++ literal " HTTP/1.0\r\n"))) =
      (literal "GET", literal " " ++ path ++ literal " HTTP/1.0\r\n") :=
    scanString_append (List.forall_mem_nil _) (by decide) (fun c hc => (hletters c hc).2)
      fun d h => by cases h; rfl
  have hversion : ∀ d ∈ (literal " HTTP/1.0\r\n").head?, isspace d = true := by
    intro d h
    cases h
    rfl
  have hsecond := scanString_append hblank hne (fun c hc => (hpath c hc).2) hversion
  rw [← List.append_assoc] at hsecond
  exact ⟨hfirst, hsecond⟩

/-- A request line for a path. -/
def getLine (path : List UInt8) : List UInt8 := literal "GET " ++ path ++ literal " HTTP/1.0\r\n"

theorem getLine_oneLine {path : List UInt8} (hpath : ∀ c ∈ path, Visible c) :
    OneLine (getLine path) := by
  have htext : OnOneLine (literal "GET ") := by decide
  have hversion : OnOneLine (literal " HTTP/1.0") := by decide
  have hpath' : OnOneLine path := fun c hc => (hpath c hc).onOneLine
  have hline := oneLine_append ((htext.append hpath').append hversion)
  rwa [List.append_assoc, show literal " HTTP/1.0" ++ literal "\r\n" = literal " HTTP/1.0\r\n" by
    decide] at hline

/-- **A GET request**, whose headers are skipped. -/
theorem doit_get (site : Site) {buf path input hdrs : List UInt8} {fuel : ℕ} (hne : path ≠ [])
    (hpath : ∀ c ∈ path, Visible c) (hread : readLine (maxLine - 1) input = (getLine path, hdrs))
    (hskip : readRequesthdrs fuel buf hdrs = some rest) :
    doit site fuel buf input = some (serve site path) := by
  have hget := getLine_oneLine hpath
  have hwords := scanString_get hne hpath
  rw [← getLine] at hwords
  obtain ⟨hmethod, huri⟩ := hwords
  simp only [doit, hread, hget.lineText, hmethod, huri, hskip]
  rw [if_neg, if_neg, if_neg, if_neg hne]
  · exact not_not.mpr rfl
  · decide
  · obtain ⟨text, htext, -, -⟩ := hget
    rw [htext]
    exact List.append_ne_nil_of_right_ne_nil _ (by simp)

/-- The lines of a request, as Tiny reads them. -/
theorem requestLines_flatten (req : HttpRequest) (rest : List UInt8) :
    (requestLines req).flatten ++ rest = getLine req.path ++
      (((ownHeaders req).map Prod.snd ++ req.extraHdrs.map headerLine).flatten ++ (endLine ++ rest)) := by
  have hlines : requestLines req = getLine req.path ::
      ((ownHeaders req).map Prod.snd ++ req.extraHdrs.map headerLine ++ [endLine]) := by
    rw [requestLines_eq, ← List.append_assoc]
    rfl
  rw [hlines, List.flatten_cons, List.flatten_append, List.flatten_singleton]
  simp only [List.append_assoc]

/-- **What the proxy writes is read** up to the empty line: its first line asks for the path, and
`read_requesthdrs` leaves exactly what lies behind its last byte. -/
theorem requestLines_skipped (h : ParsesAlone input t req) (hfits : RequestFits req)
    (buf : List UInt8) {fuel : ℕ} (hfuel : (requestLines req).length ≤ fuel) (rest : List UInt8) :
    ∃ hdrs, readLine (maxLine - 1) ((requestLines req).flatten ++ rest) = (getLine req.path, hdrs) ∧
      readRequesthdrs fuel buf hdrs = some rest := by
  obtain ⟨⟨-, hpath⟩, -, -⟩ := parsed_onOneLine h
  have hlines := requestLines_oneLine h
  rw [RequestFits, requestLines_eq, List.forall_mem_cons, ← List.append_assoc] at hfits
  rw [requestLines_eq, List.length_cons, ← List.append_assoc, List.length_append,
    List.length_singleton] at hfuel
  refine ⟨((ownHeaders req).map Prod.snd ++ req.extraHdrs.map headerLine).flatten ++ (endLine ++ rest),
    ?_, ?_⟩
  · have hread := (getLine_oneLine hpath).read hfits.1
      (((ownHeaders req).map Prod.snd ++ req.extraHdrs.map headerLine).flatten ++ (endLine ++ rest))
    rw [← hread, requestLines_flatten]
  · exact readRequesthdrs_lines (fun line hline => ⟨(hlines line hline).1,
      hfits.2 line (List.mem_append_left _ hline), (hlines line hline).2⟩) (by omega)

/-- **The proxy and Tiny agree on the request.**  Whatever a client has sent, if the request parsed
from it fits in the proxy's buffer, then Tiny reads what the proxy writes as a request for the parsed
path; with anything behind it on the connection, `read_requesthdrs` leaves just that. -/
theorem doit_requestLines (h : ParsesAlone input t req) (hfits : RequestFits req) (site : Site)
    (buf rest : List UInt8) {fuel : ℕ} (hfuel : (requestLines req).length ≤ fuel) :
    (readLine (maxLine - 1) ((requestLines req).flatten ++ rest)).1 = getLine req.path ∧
      readRequesthdrs fuel buf (readLine (maxLine - 1) ((requestLines req).flatten ++ rest)).2 =
        some rest ∧
      doit site fuel buf ((requestLines req).flatten ++ rest) = some (serve site req.path) := by
  obtain ⟨⟨hne, hpath⟩, -, -⟩ := parsed_onOneLine h
  obtain ⟨hdrs, hread, hskip⟩ := requestLines_skipped h hfits buf hfuel rest
  refine ⟨by rw [hread], by rw [hread]; exact hskip, doit_get site hne hpath hread hskip⟩

/-- A request with a header. -/
def acceptInput : List UInt8 := literal "GET http://a.org/ HTTP/1.0\r\nAccept: text/html\r\n\r\n"

def acceptRequest : HttpRequest :=
  ⟨literal "http://a.org/", literal "/", literal "a.org", literal "a.org", literal "80",
    [(literal "Accept", literal "text/html")]⟩

theorem acceptRequest_parses : ParsesAlone (fun _ : Unit => acceptInput) () acceptRequest := by
  have hlines : headerLines acceptInput = [literal "Accept: text/html\r\n"] := by decide +kernel
  have hparsed : parsedRequest acceptInput = acceptRequest := by decide +kernel
  refine parsesAlone_iff.mpr ⟨?_, hparsed.symm⟩
  rw [hlines]
  exact List.forall_mem_singleton.mpr ⟨by decide +kernel, by decide +kernel⟩

/-- That request, from the client to Tiny, with two bytes behind it. -/
theorem doit_requestLines_accept : ∃ req,
    ParsesAlone (fun _ : Unit => acceptInput) () req ∧
      (readLine (maxLine - 1) ((requestLines req).flatten ++ [1, 2])).1 = getLine (literal "/") ∧
      readRequesthdrs 7 [] (readLine (maxLine - 1) ((requestLines req).flatten ++ [1, 2])).2 =
        some [1, 2] ∧
      doit emptySite 7 [] ((requestLines req).flatten ++ [1, 2]) =
        some (serve emptySite (literal "/")) :=
  ⟨acceptRequest, acceptRequest_parses,
    doit_requestLines acceptRequest_parses (by decide +kernel) emptySite [] [1, 2] (by decide)⟩

end

end

end SystemProgramming.ProxyLab
