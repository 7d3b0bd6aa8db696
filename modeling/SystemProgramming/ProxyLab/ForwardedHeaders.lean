import SystemProgramming.ProxyLab.RequestLine

/-!
# The headers that reach the origin (`parse_request` and `forward_request`)

A header line `name:value` is taken apart, both sides are trimmed, and unless the name is that of one
of the proxy's own headers they are printed again as `name: value`.

* `Header` : well-formed header lines; `headerLines_eq` : the lines of a header section of them.
* `forwarded_headers` : which lines follow the proxy's own, for every header section.
* `one_of_each_iff` : when the origin gets each of the proxy's own headers exactly once.
* `request_fits_iff` : when the strings that `sprintf` prints fit in `buf`.
-/

namespace SystemProgramming.ProxyLab

open Segments
open SystemProgramming.CString (literal)
open Scanning (isspace)

/-! ### Well-formed header lines -/

/-- A header line: neither side is blank, and no character of it ends the name or the line early. -/
structure Header where
  name : List UInt8
  value : List UInt8
  name_text : ∃ c ∈ name, isspace c = false
  value_text : ∃ c ∈ value, isspace c = false
  name_chars : ∀ c ∈ name, c ≠ 58 ∧ c ≠ 13 ∧ c ≠ 10 ∧ c ≠ 0
  value_chars : ∀ c ∈ value, c ≠ 13 ∧ c ≠ 10 ∧ c ≠ 0

namespace Header

/-- The line as the client sends it. -/
def line (h : Header) : List UInt8 := h.name ++ 58 :: (h.value ++ literal "\r\n")

/-- The line as the proxy sends it. -/
def rendered (h : Header) : List UInt8 :=
  trimmed h.name ++ literal ": " ++ trimmed h.value ++ literal "\r\n"

/-- The name is not exactly that of one of the proxy's own headers. -/
def Kept (h : Header) : Prop := trimmed h.name ∉ ignoredHeaders

instance : DecidablePred Kept := fun _ => inferInstanceAs (Decidable (¬ _))

variable (h : Header)

theorem name_ne : h.name ≠ [] := by
  obtain ⟨c, hc, -⟩ := h.name_text
  exact List.ne_nil_of_mem hc

theorem value_ne : h.value ≠ [] := by
  obtain ⟨c, hc, -⟩ := h.value_text
  exact List.ne_nil_of_mem hc

theorem length_line : h.line.length = h.name.length + h.value.length + 3 := by
  have hcrlf : (literal "\r\n").length = 2 := by decide
  rw [line, List.length_append, List.length_cons, List.length_append, hcrlf]
  omega

/-- The line has no NUL. -/
theorem lineText_line : lineText h.line = h.line := by
  refine List.takeWhile_eq_self_iff.mpr fun c hc => ?_
  rw [line, List.mem_append, List.mem_cons, List.mem_append] at hc
  have hend : ∀ c ∈ literal "\r\n", c ≠ 0 := List.all_iff_forall_prop.mp (by decide)
  rcases hc with hc | rfl | hc | hc
  · simpa using (h.name_chars c hc).2.2.2
  · rfl
  · simpa using (h.value_chars c hc).2.2
  · simpa using hend c hc

theorem keyToken_line : keyToken h.line = h.name ∧
    afterToken (literal ":") h.line = h.value ++ literal "\r\n" :=
  tokenOf_append [] _ (List.forall_mem_nil _) (fun c hc he => (h.name_chars c hc).1 (mem_colon.mp he)) h.name_ne
    (mem_colon.mpr rfl)

theorem valueToken_line : valueToken h.line = h.value := by
  have hvalue : ∀ c ∈ h.value, c ∉ literal "\r\n" := by
    intro c hc he
    rcases mem_crlf.mp he with rfl | rfl
    · exact (h.value_chars _ hc).1 rfl
    · exact (h.value_chars _ hc).2.1 rfl
  rw [valueToken, h.keyToken_line.2]
  exact (tokenOf_append [] _ (List.forall_mem_nil _) hvalue h.value_ne (mem_crlf.mpr (Or.inl rfl))).1

/-- What the parser stores of the line. -/
theorem headerOf_line : headerOf h.line = (trimmed h.name, trimmed h.value) := by
  rw [headerOf, h.lineText_line, h.keyToken_line.1, h.valueToken_line]

theorem tokenizes_line : Tokenizes h.line := by
  rw [Tokenizes, h.lineText_line, h.keyToken_line.1, h.valueToken_line]
  exact ⟨h.name_ne, h.value_ne⟩

/-- The line is not the one that ends the headers. -/
theorem line_ne_endLine : h.line ≠ endLine := by
  intro he
  have hin : (58 : UInt8) ∈ endLine := by
    rw [← he, line]
    simp
  exact absurd hin (by decide)

/-- The line is read as a whole. -/
theorem readLine_line (rest : List UInt8) (hlen : h.line.length < maxLine) :
    readLine (maxLine - 1) (h.line ++ rest) = (h.line, rest) := by
  have hsplit : h.line = (h.name ++ 58 :: (h.value ++ [13])) ++ [10] := by
    rw [line, show literal "\r\n" = [13, 10] by decide]
    simp
  have hnewline : (10 : UInt8) ∉ h.name ++ 58 :: (h.value ++ [13]) := by
    have hname : (10 : UInt8) ∉ h.name := fun hc => (h.name_chars 10 hc).2.2.1 rfl
    have hvalue : (10 : UInt8) ∉ h.value := fun hc => (h.value_chars 10 hc).2.1 rfl
    simp [hname, hvalue]
  have hlen' := congrArg List.length hsplit
  rw [List.length_append, List.length_singleton] at hlen'
  rw [hsplit, List.append_assoc, List.singleton_append, readLine_newline rest hnewline (by omega)]

end Header

/-- What may follow the header lines: the end of the connection or an empty line. -/
def EndsHeaders (rest : List UInt8) : Prop := rest = [] ∨ endLine <+: rest

instance : DecidablePred EndsHeaders := fun _ => inferInstanceAs (Decidable (_ ∨ _))

theorem headerLinesFrom_end {rest : List UInt8} (h : EndsHeaders rest) (fuel : ℕ) :
    headerLinesFrom fuel rest = [] := by
  cases fuel with
  | zero => rfl
  | succ fuel =>
    rw [headerLinesFrom, if_pos]
    rcases h with rfl | ⟨tail, rfl⟩
    · exact Or.inl rfl
    · right
      have hend : endLine = [13] ++ [10] := by decide
      rw [hend, List.append_assoc, List.singleton_append (l := tail),
        readLine_newline tail (by decide) (by decide)]
      show lineText [13, 10] = [13, 10]
      decide

theorem headerLinesFrom_lines {hdrs : List Header} {rest : List UInt8} {fuel : ℕ}
    (hlen : ∀ h ∈ hdrs, h.line.length < maxLine) (hrest : EndsHeaders rest)
    (hfuel : hdrs.length < fuel) :
    headerLinesFrom fuel ((hdrs.map Header.line).flatten ++ rest) = hdrs.map Header.line := by
  induction hdrs generalizing fuel with
  | nil => exact headerLinesFrom_end hrest fuel
  | cons h hdrs ih =>
    cases fuel with
    | zero => cases hfuel
    | succ fuel =>
      have hread := h.readLine_line ((hdrs.map Header.line).flatten ++ rest)
        (hlen h List.mem_cons_self)
      have hne : h.line ≠ [] := List.append_ne_nil_of_left_ne_nil h.name_ne _
      have hmore : ¬ (h.line = [] ∨ lineText h.line = endLine) := by
        rw [h.lineText_line]
        exact not_or.mpr ⟨hne, h.line_ne_endLine⟩
      have hgo := ih (fun d hd => hlen d (List.mem_cons_of_mem _ hd)) (Nat.lt_of_succ_lt_succ hfuel)
      rw [List.map_cons, List.flatten_cons, List.append_assoc, headerLinesFrom, hread]
      simp only [hmore, if_false, hgo]

/-- **The header section.**  The lines the loop parses are the client's header lines. -/
theorem headerLines_eq {input : List UInt8} {hdrs : List Header} {rest : List UInt8}
    (hinput : (readLine (maxLine - 1) input).2 = (hdrs.map Header.line).flatten ++ rest)
    (hlen : ∀ h ∈ hdrs, h.line.length < maxLine) (hrest : EndsHeaders rest) :
    headerLines input = hdrs.map Header.line := by
  have hcount : hdrs.length ≤ ((hdrs.map Header.line).flatten ++ rest).length := by
    rw [List.length_append, List.length_flatten, List.map_map]
    have hpos : ∀ h ∈ hdrs, 1 ≤ (List.length ∘ Header.line) h := fun h _ =>
      List.length_pos_iff.mpr (List.append_ne_nil_of_left_ne_nil h.name_ne _)
    have hsum := List.length_le_sum_of_one_le (hdrs.map (List.length ∘ Header.line)) (by
      intro n hn
      obtain ⟨h, hh, rfl⟩ := List.mem_map.mp hn
      exact hpos h hh)
    rw [List.length_map] at hsum
    omega
  have hread := congrArg List.length (readLine_append (maxLine - 1) input)
  rw [List.length_append, hinput] at hread
  rw [headerLines, hinput]
  exact headerLinesFrom_lines hlen hrest (by omega)

/-- **What the thread obtains** from a request with such a header section. -/
theorem parsesAlone_headers {ι : Type*} [DecidableEq ι] (input : ι → List UInt8) (t : ι)
    (hdrs : List Header) (rest : List UInt8)
    (hinput : (readLine (maxLine - 1) (input t)).2 = (hdrs.map Header.line).flatten ++ rest)
    (hlen : ∀ h ∈ hdrs, h.line.length < maxLine) (hrest : EndsHeaders rest) :
    (∀ req, ParsesAlone input t req ↔ req = parsedRequest (input t)) ∧
      (parsedRequest (input t)).extraHdrs =
        (hdrs.filter (·.Kept)).map fun h => (trimmed h.name, trimmed h.value) := by
  have hlines := headerLines_eq hinput hlen hrest
  constructor
  · intro req
    rw [parsesAlone_iff, hlines]
    refine and_iff_right fun line hline => ?_
    obtain ⟨h, -, rfl⟩ := List.mem_map.mp hline
    exact h.tokenizes_line
  · rw [parsedRequest, HttpRequest.withHeaders, hlines]
    show [] ++ keptHeaders (hdrs.map Header.line) = _
    rw [List.nil_append, keptHeaders, List.map_map,
      List.map_congr_left (g := fun h => (trimmed h.name, trimmed h.value)) fun h _ => h.headerOf_line,
      List.filter_map]
    rfl

/-! ### The lines behind the proxy's own -/

/-- The line printed for a header. -/
def headerLine (hdr : List UInt8 × List UInt8) : List UInt8 :=
  hdr.1 ++ literal ": " ++ hdr.2 ++ literal "\r\n"

/-- The proxy's own headers, with the line that carries each. -/
def ownHeaders (req : HttpRequest) : List (List UInt8 × List UInt8) :=
  [(literal "Host", literal "Host: " ++ req.host ++ literal "\r\n"),
    (literal "User-Agent", userAgentHdr), (literal "Connection", connectionHdr),
    (literal "Proxy-Connection", proxyConnectionHdr)]

theorem requestLines_eq (req : HttpRequest) :
    requestLines req = (literal "GET " ++ req.path ++ literal " HTTP/1.0\r\n") ::
      ((ownHeaders req).map Prod.snd ++ (req.extraHdrs.map headerLine ++ [literal "\r\n"])) := by
  rw [requestLines, List.append_assoc]
  rfl

theorem requestLines_drop (req : HttpRequest) :
    (requestLines req).drop 5 = req.extraHdrs.map headerLine ++ [literal "\r\n"] := by
  rw [requestLines_eq]
  rfl

/-- A letter in lower case. -/
def lower (c : UInt8) : UInt8 := if 65 ≤ c ∧ c ≤ 90 then c + 32 else c

/-- Names are compared as HTTP compares them. -/
def SameName (a b : List UInt8) : Prop := a.map lower = b.map lower

instance (a b : List UInt8) : Decidable (SameName a b) := inferInstanceAs (Decidable (_ = _))

/-- The name is that of one of the proxy's own headers, in any letter case. -/
def Header.Overrides (h : Header) : Prop := ∃ name ∈ ignoredHeaders, SameName (trimmed h.name) name

instance : DecidablePred Header.Overrides := fun _ => inferInstanceAs (Decidable (∃ _ ∈ _, _))

/-- A header that is dropped has the name of one of the proxy's own. -/
theorem Header.kept_of_not_overrides {h : Header} (ho : ¬ h.Overrides) : h.Kept :=
  fun hin => ho ⟨_, hin, rfl⟩

/-- **What the proxy forwards.**  Behind its own five lines come the client's headers whose name is not
exactly one of the proxy's four, in the client's order, each printed once with both sides trimmed, and
an empty line; all of them fit in `buf`.  So every client header whose name is none of the four in any
letter case is forwarded. -/
theorem forwarded_headers {ι : Type*} [DecidableEq ι] (input : ι → List UInt8) (t : ι)
    (hdrs : List Header) (rest : List UInt8)
    (hinput : (readLine (maxLine - 1) (input t)).2 = (hdrs.map Header.line).flatten ++ rest)
    (hlen : ∀ h ∈ hdrs, h.line.length < maxLine ∧ h.rendered.length < maxLine)
    (hrest : EndsHeaders rest) :
    ∃ req, (∀ req', ParsesAlone input t req' ↔ req' = req) ∧
      (requestLines req).drop 5 =
        (hdrs.filter (·.Kept)).map Header.rendered ++ [literal "\r\n"] ∧
      (∀ line ∈ (requestLines req).drop 5, line.length < maxLine) ∧
      (hdrs.filter (·.Kept)).filter (¬ ·.Overrides) = hdrs.filter (¬ ·.Overrides) := by
  obtain ⟨hparse, hextra⟩ := parsesAlone_headers input t hdrs rest hinput (fun h hh => (hlen h hh).1) hrest
  have hlines : (requestLines (parsedRequest (input t))).drop 5 =
      (hdrs.filter (·.Kept)).map Header.rendered ++ [literal "\r\n"] := by
    rw [requestLines_drop, hextra, List.map_map]
    rfl
  refine ⟨_, hparse, hlines, fun line hline => ?_, ?_⟩
  · rw [hlines, List.mem_append, List.mem_singleton] at hline
    rcases hline with hline | rfl
    · obtain ⟨h, hh, rfl⟩ := List.mem_map.mp hline
      exact (hlen h (List.mem_filter.mp hh).1).2
    · decide
  · rw [List.filter_filter]
    refine List.filter_congr fun h _ => ?_
    by_cases ho : h.Overrides
    · simp [ho]
    · simp [ho, Header.kept_of_not_overrides ho]

/-- `Accept : text/html, a:b`, with blanks around both sides. -/
def acceptHeader : Header where
  name := literal "Accept "
  value := literal " text/html, a:b "
  name_text := by decide
  value_text := by decide
  name_chars := List.all_iff_forall_prop.mp (by decide)
  value_chars := List.all_iff_forall_prop.mp (by decide)

/-- A `Host` header of the client. -/
def hostHeader : Header where
  name := literal "Host"
  value := literal " b.org"
  name_text := by decide
  value_text := by decide
  name_chars := List.all_iff_forall_prop.mp (by decide)
  value_chars := List.all_iff_forall_prop.mp (by decide)

/-- A request with these two headers. -/
def twoHeaders : List UInt8 :=
  literal "GET http://a.org/ HTTP/1.1\r\nHost: b.org\r\nAccept : text/html, a:b \r\n\r\n"

theorem twoHeaders_lines : (readLine (maxLine - 1) twoHeaders).2 =
    ([hostHeader, acceptHeader].map Header.line).flatten ++ endLine := by decide +kernel

theorem twoHeaders_short : ∀ h ∈ [hostHeader, acceptHeader],
    h.line.length < maxLine ∧ h.rendered.length < maxLine := by decide +kernel

theorem forwarded_headers_two : ∃ req, ParsesAlone (fun _ : Unit => twoHeaders) () req ∧
    (requestLines req).drop 5 = [literal "Accept: text/html, a:b\r\n", literal "\r\n"] := by
  obtain ⟨req, hparse, hlines, -⟩ := forwarded_headers (fun _ : Unit => twoHeaders) ()
    [hostHeader, acceptHeader] endLine twoHeaders_lines twoHeaders_short (by decide)
  refine ⟨req, (hparse req).mpr rfl, hlines.trans ?_⟩
  decide +kernel

/-! ### The proxy's own headers -/

/-- The name of a header line. -/
def nameOf (line : List UInt8) : List UInt8 := line.takeWhile (· ≠ 58)

/-- Each of the proxy's own headers occurs once in the request, with the proxy's own value. -/
def OneOfEach (req : HttpRequest) : Prop :=
  ∀ own ∈ ownHeaders req, (requestLines req).filter (fun line => SameName (nameOf line) own.1) = [own.2]

theorem nameOf_append {name : List UInt8} (rest : List UInt8) (hname : (58 : UInt8) ∉ name) :
    nameOf (name ++ 58 :: rest) = name :=
  takeWhile_ne_append hname rest

/-- Trimming takes characters away only. -/
theorem mem_of_mem_trimmed {s : List UInt8} {c : UInt8} (hc : c ∈ trimmed s) : c ∈ s :=
  (List.dropWhile_suffix _).subset ((List.rdropWhile_prefix _ _).subset hc)

theorem Header.nameOf_rendered (h : Header) : nameOf h.rendered = trimmed h.name := by
  have hsplit : h.rendered = trimmed h.name ++ 58 :: (32 :: (trimmed h.value ++ literal "\r\n")) := by
    rw [rendered, show literal ": " = [58, 32] by decide]
    simp
  rw [hsplit, nameOf_append]
  intro hc
  exact (h.name_chars 58 (mem_of_mem_trimmed hc)).1 rfl

/-- The GET line and the empty line carry none of the proxy's headers. -/
theorem not_sameName_get (rest : List UInt8) {name : List UInt8} (hname : name ∈ ignoredHeaders) :
    ¬ SameName (nameOf (literal "GET " ++ rest)) name := by
  have hget : nameOf (literal "GET " ++ rest) = 71 :: nameOf (literal "ET " ++ rest) := rfl
  have hother : ∀ name ∈ ignoredHeaders, (name.map lower).head? ≠ some 103 := by decide
  rw [hget]
  intro h
  refine hother name hname ?_
  rw [← h]
  rfl

theorem not_sameName_end {name : List UInt8} (hname : name ∈ ignoredHeaders) :
    ¬ SameName (nameOf (literal "\r\n")) name := by
  have hother : ∀ name ∈ ignoredHeaders, ¬ SameName (nameOf (literal "\r\n")) name := by decide
  exact hother name hname

/-- Among the proxy's own lines each header occurs once. -/
theorem own_filter (req : HttpRequest) {own : List UInt8 × List UInt8} (hown : own ∈ ownHeaders req) :
    ((ownHeaders req).map Prod.snd).filter (fun line => SameName (nameOf line) own.1) = [own.2] := by
  have hhost : nameOf (literal "Host: " ++ req.host ++ literal "\r\n") = literal "Host" := by
    rw [show literal "Host: " = literal "Host" ++ 58 :: [32] by decide, List.append_assoc,
      List.append_assoc]
    exact nameOf_append _ (by decide)
  have hua : nameOf userAgentHdr = literal "User-Agent" := by decide +kernel
  have hconn : nameOf connectionHdr = literal "Connection" := by decide
  have hproxy : nameOf proxyConnectionHdr = literal "Proxy-Connection" := by decide
  simp only [ownHeaders, List.map_cons, List.map_nil, List.filter_cons, hhost, hua, hconn, hproxy,
    List.filter_nil]
  simp only [ownHeaders, List.mem_cons, List.not_mem_nil, or_false] at hown
  rcases hown with rfl | rfl | rfl | rfl
  · have hua' : ¬ SameName (literal "User-Agent") (literal "Host") := by decide
    have hconn' : ¬ SameName (literal "Connection") (literal "Host") := by decide
    have hproxy' : ¬ SameName (literal "Proxy-Connection") (literal "Host") := by decide
    have hself : SameName (literal "Host") (literal "Host") := rfl
    simp only [hua', hconn', hproxy', hself, decide_true, decide_false, if_true, Bool.false_eq_true,
      if_false]
  · rw [if_neg (by decide), if_pos (by decide), if_neg (by decide), if_neg (by decide)]
  · rw [if_neg (by decide), if_neg (by decide), if_pos (by decide), if_neg (by decide)]
  · rw [if_neg (by decide), if_neg (by decide), if_neg (by decide), if_pos (by decide)]

theorem ownHeaders_fst (req : HttpRequest) : (ownHeaders req).map Prod.fst = ignoredHeaders := rfl

/-- The client's headers decide. -/
theorem oneOfEach_iff {req : HttpRequest} (hdrs : List Header)
    (hextra : req.extraHdrs.map headerLine = (hdrs.filter (·.Kept)).map Header.rendered) :
    OneOfEach req ↔ ∀ h ∈ hdrs, h.Overrides → ¬ h.Kept := by
  have hfilter : ∀ own ∈ ownHeaders req,
      (requestLines req).filter (fun line => SameName (nameOf line) own.1) =
        own.2 :: ((hdrs.filter (·.Kept)).map Header.rendered).filter
          (fun line => SameName (nameOf line) own.1) := by
    intro own hown
    have hname : own.1 ∈ ignoredHeaders := List.mem_map_of_mem (f := Prod.fst) hown
    have hget := not_sameName_get (req.path ++ literal " HTTP/1.0\r\n") hname
    rw [← List.append_assoc] at hget
    rw [requestLines_eq, List.filter_cons_of_neg (by simpa using hget), List.filter_append,
      List.filter_append, own_filter req hown, hextra,
      List.filter_cons_of_neg (by simpa using not_sameName_end hname), List.filter_nil,
      List.append_nil, List.singleton_append]
  constructor
  · rintro hone h hh ⟨name, hname, hsame⟩ hkept
    obtain ⟨own, hown, rfl⟩ := List.mem_map.mp (ownHeaders_fst req ▸ hname)
    have hnil := (List.cons.inj ((hfilter own hown).symm.trans (hone own hown))).2
    have hin : h.rendered ∈ (hdrs.filter (·.Kept)).map Header.rendered :=
      List.mem_map_of_mem (List.mem_filter.mpr ⟨hh, by simpa using hkept⟩)
    refine List.filter_eq_nil_iff.mp hnil _ hin ?_
    rw [h.nameOf_rendered]
    simpa using hsame
  · intro hall own hown
    rw [hfilter own hown, List.filter_eq_nil_iff.mpr]
    intro line hline
    obtain ⟨h, hh, rfl⟩ := List.mem_map.mp hline
    obtain ⟨hh, hkept⟩ := List.mem_filter.mp hh
    rw [h.nameOf_rendered]
    intro hsame
    refine hall h hh ⟨own.1, ?_, by simpa using hsame⟩ (by simpa using hkept)
    exact List.mem_map_of_mem (f := Prod.fst) hown

/-- **When the origin gets each of the proxy's own headers once**, and with the proxy's value: exactly
when no header of the client has the name of one of them in other letters. -/
theorem one_of_each_iff {ι : Type*} [DecidableEq ι] (input : ι → List UInt8) (t : ι)
    (hdrs : List Header) (rest : List UInt8)
    (hinput : (readLine (maxLine - 1) (input t)).2 = (hdrs.map Header.line).flatten ++ rest)
    (hlen : ∀ h ∈ hdrs, h.line.length < maxLine) (hrest : EndsHeaders rest) :
    ∃ req, (∀ req', ParsesAlone input t req' ↔ req' = req) ∧
      (OneOfEach req ↔ ∀ h ∈ hdrs, ∀ name ∈ ignoredHeaders, SameName (trimmed h.name) name →
        trimmed h.name = name) := by
  obtain ⟨hparse, hextra⟩ := parsesAlone_headers input t hdrs rest hinput hlen hrest
  refine ⟨_, hparse, (oneOfEach_iff hdrs ?_).trans ?_⟩
  · rw [hextra, List.map_map]
    rfl
  · have hspelled : ∀ a ∈ ignoredHeaders, ∀ b ∈ ignoredHeaders, SameName a b → a = b := by decide
    constructor
    · intro hall h hh name hname hsame
      exact hspelled _ (not_not.mp (hall h hh ⟨name, hname, hsame⟩)) name hname hsame
    · rintro hall h hh ⟨name, hname, hsame⟩ hkept
      refine hkept ?_
      rw [hall h hh name hname hsame]
      exact hname

theorem one_of_each_iff_two : ∃ req, ParsesAlone (fun _ : Unit => twoHeaders) () req ∧
    OneOfEach req := by
  obtain ⟨req, hparse, hone⟩ := one_of_each_iff (fun _ : Unit => twoHeaders) ()
    [hostHeader, acceptHeader] endLine twoHeaders_lines (fun h hh => (twoHeaders_short h hh).1)
    (by decide)
  exact ⟨req, (hparse req).mpr rfl, hone.mpr (by decide +kernel)⟩

/-- A `host` header of the client, in lower case. -/
def lowerHostHeader : Header where
  name := literal "host"
  value := literal " b.org"
  name_text := by decide
  value_text := by decide
  name_chars := List.all_iff_forall_prop.mp (by decide)
  value_chars := List.all_iff_forall_prop.mp (by decide)

/-- A request with that header. -/
def lowerHost : List UInt8 := literal "GET http://a.org/ HTTP/1.1\r\nhost: b.org\r\n\r\n"

theorem two_hosts : ∃ req, ParsesAlone (fun _ : Unit => lowerHost) () req ∧ ¬ OneOfEach req := by
  obtain ⟨hparse, hextra⟩ := parsesAlone_headers (fun _ : Unit => lowerHost) () [lowerHostHeader]
    endLine (by decide +kernel) (by decide +kernel) (by decide)
  refine ⟨_, (hparse _).mpr rfl, fun hone => ?_⟩
  refine (oneOfEach_iff [lowerHostHeader] ?_).mp hone lowerHostHeader (by simp) ?_ ?_
  · rw [hextra, List.map_map]
    rfl
  · decide
  · decide

/-! ### The size of `buf` -/

/-- Each string that `forward_request` builds fits in `buf`, its NUL included. -/
def RequestFits (req : HttpRequest) : Prop := ∀ line ∈ requestLines req, line.length < maxLine

instance (req : HttpRequest) : Decidable (RequestFits req) :=
  inferInstanceAs (Decidable (∀ _ ∈ _, _))

theorem headerLine_fits {key value : List UInt8} :
    (headerLine (key, value)).length < maxLine ↔ key.length + value.length ≤ 8187 := by
  have hmax : maxLine = 8192 := rfl
  have h2 : (literal ": ").length = 2 := by decide
  have h2' : (literal "\r\n").length = 2 := by decide
  show (key ++ literal ": " ++ value ++ literal "\r\n").length < maxLine ↔ _
  rw [List.length_append, List.length_append, List.length_append, h2, h2']
  omega

/-- Of the proxy's own lines only the GET line can be too long. -/
theorem requestFits_iff {req : HttpRequest} (hhost : req.host.length ≤ 8183) :
    RequestFits req ↔ req.path.length ≤ 8176 ∧
      ∀ hdr ∈ req.extraHdrs, hdr.1.length + hdr.2.length ≤ 8187 := by
  have hmax : maxLine = 8192 := rfl
  have hget : (literal "GET " ++ req.path ++ literal " HTTP/1.0\r\n").length = req.path.length + 15 := by
    rw [List.length_append, List.length_append, show (literal "GET ").length = 4 by decide,
      show (literal " HTTP/1.0\r\n").length = 11 by decide]
    omega
  have hown : ∀ line ∈ (ownHeaders req).map Prod.snd, line.length < maxLine := by
    have hline : (literal "Host: " ++ req.host ++ literal "\r\n").length = req.host.length + 8 := by
      rw [List.length_append, List.length_append, show (literal "Host: ").length = 6 by decide,
        show (literal "\r\n").length = 2 by decide]
      omega
    have hua : userAgentHdr.length < maxLine := by decide +kernel
    simp only [ownHeaders, List.map_cons, List.map_nil, List.forall_mem_cons, hline]
    exact ⟨by omega, hua, by decide, by decide, List.forall_mem_nil _⟩
  have hend : (literal "\r\n").length < maxLine := by decide
  rw [RequestFits, requestLines_eq, List.forall_mem_cons, hget, List.forall_mem_append,
    List.forall_mem_append, List.forall_mem_singleton, and_iff_right hown, and_iff_left hend,
    List.forall_mem_map]
  refine and_congr (by omega) (forall₂_congr fun hdr _ => headerLine_fits)

/-- **When the request fits in `buf`.**  The Host line always does.  The GET line fits exactly when the
path has at most 8176 characters, and the line of a header that is kept exactly when its two trimmed
sides have at most 8187 together. -/
theorem request_fits_iff {ι : Type*} [DecidableEq ι] (input : ι → List UInt8) (t : ι)
    (req : HttpRequest) (hreq : ParsesAlone input t req) :
    RequestFits req ↔ (scanRequestLine (requestLine (input t))).path.length ≤ 8176 ∧
      ∀ line ∈ headerLines (input t), (headerOf line).1 ∉ ignoredHeaders →
        (headerOf line).1.length + (headerOf line).2.length ≤ 8187 := by
  obtain ⟨-, rfl⟩ := parsesAlone_iff.mp hreq
  have hmax : maxLine = 8192 := rfl
  have hline := readLine_length (maxLine - 1) (input t)
  have hhost : (parsedRequest (input t)).host.length ≤ 8183 := by
    show (scanRequestLine (requestLine (input t))).host.length ≤ 8183
    rcases scanRequestLine_host_length (requestLine (input t)) with h | h
    · rw [h]
      exact Nat.zero_le _
    · rw [requestLine] at h ⊢
      omega
  rw [requestFits_iff hhost]
  refine and_congr Iff.rfl ?_
  show (∀ hdr ∈ [] ++ keptHeaders (headerLines (input t)), _) ↔ _
  rw [List.nil_append]
  constructor
  · intro hall line hline hkept
    refine hall (headerOf line) (List.mem_filter.mpr ⟨List.mem_map_of_mem hline, ?_⟩)
    simpa using hkept
  · intro hall hdr hhdr
    obtain ⟨hin, hkept⟩ := List.mem_filter.mp hhdr
    obtain ⟨line, hline, rfl⟩ := List.mem_map.mp hin
    exact hall line hline (by simpa using hkept)

theorem request_fits_iff_two : ∃ req, ParsesAlone (fun _ : Unit => twoHeaders) () req ∧
    RequestFits req := by
  obtain ⟨hparse, -⟩ := parsesAlone_headers (fun _ : Unit => twoHeaders) ()
    [hostHeader, acceptHeader] endLine twoHeaders_lines (fun h hh => (twoHeaders_short h hh).1)
    (by decide)
  have hreq := (hparse _).mpr rfl
  exact ⟨_, hreq, (request_fits_iff _ () _ hreq).mpr (by decide +kernel)⟩

/-- `k:v..v`, a line of 8191 characters with its CRLF. -/
def fullHeader : Header where
  name := [107]
  value := List.replicate 8187 118
  name_text := by decide
  value_text := ⟨118, List.mem_replicate.mpr ⟨by decide, rfl⟩, by decide⟩
  name_chars := List.all_iff_forall_prop.mp (by decide)
  value_chars c hc := by
    rw [(List.mem_replicate.mp hc).2]
    decide

/-- A request with that header. -/
def fullRequest : List UInt8 := literal "GET http://a.org/ HTTP/1.1\r\n" ++ (fullHeader.line ++ endLine)

theorem trimmed_of_text {s : List UInt8} (h : ∀ c ∈ s, isspace c = false) : trimmed s = s := by
  have hdrop : s.dropWhile isspace = s := by
    cases s with
    | nil => rfl
    | cons c s => exact List.dropWhile_cons_of_neg (by simp [h c List.mem_cons_self])
  rw [trimmed, hdrop, List.rdropWhile_eq_self_iff]
  intro hne
  simp [h _ (List.getLast_mem hne)]

theorem full_request_overflows : ∃ req, ParsesAlone (fun _ : Unit => fullRequest) () req ∧
    ¬ RequestFits req := by
  have hsplit : literal "GET http://a.org/ HTTP/1.1\r\n" =
      literal "GET http://a.org/ HTTP/1.1\r" ++ [10] := by decide
  have hinput : (readLine (maxLine - 1) fullRequest).2 =
      ([fullHeader].map Header.line).flatten ++ endLine := by
    rw [fullRequest, hsplit, List.append_assoc, List.singleton_append,
      readLine_newline _ (by decide) (by decide)]
    simp
  have hlength : fullHeader.line.length = 8191 := by
    have hname : fullHeader.name.length = 1 := rfl
    have hvalue : fullHeader.value.length = 8187 := List.length_replicate ..
    rw [fullHeader.length_line, hname, hvalue]
  obtain ⟨hparse, hextra⟩ := parsesAlone_headers (fun _ : Unit => fullRequest) () [fullHeader]
    endLine hinput (by simp [hlength, maxLine]) (by decide)
  have hkept : fullHeader.Kept := by decide
  have hname : trimmed fullHeader.name = [107] := by decide
  have hvalue : trimmed fullHeader.value = List.replicate 8187 118 := by
    refine trimmed_of_text fun c hc => ?_
    rw [(List.mem_replicate.mp hc).2]
    decide
  refine ⟨_, (hparse _).mpr rfl, fun hfits => ?_⟩
  have hin : headerLine ([107], List.replicate 8187 118) ∈ requestLines (parsedRequest fullRequest) := by
    refine List.mem_of_mem_drop (i := 5) ?_
    rw [requestLines_drop, hextra, List.filter_cons_of_pos (by simpa using hkept), List.filter_nil,
      List.map_singleton, hname, hvalue]
    exact List.mem_cons_self
  have hfit := headerLine_fits.mp (hfits _ hin)
  rw [List.length_replicate, List.length_singleton] at hfit
  omega

end SystemProgramming.ProxyLab
