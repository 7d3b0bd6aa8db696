import SystemProgramming.ProxyLab.Relaying
import SystemProgramming.ProxyLab.Tiny

/-!
# From the client to the origin and back

What a client gets is compared with what the origin holds: first from Tiny itself, then through the
proxy.

* `receive` : a client that reads the header lines and as many bytes behind them as they announce.
* `errorPage` : an error page, where `sprintf` appends.
* `doit_receive` : what Tiny answers, as such a client sees it.
* `doit_proxied` : a request through the proxy is answered as the direct one.
-/

namespace SystemProgramming.ProxyLab

open Decimal Schedules Scanning
open SystemProgramming.CString (literal)

variable {line rest sent : List UInt8} {len : Option ℕ} {fuel : ℕ}

/-! ### A client -/

/-- The announcement of the length. -/
def contentLength : List UInt8 := literal "Content-length: "

/-- A client: it reads at most `fuel` header lines, up to the empty one, and as many bytes behind it as
the last `Content-length` says.  The body, and what is left of the connection. -/
def receive : ℕ → Option ℕ → List UInt8 → Option (List UInt8 × List UInt8)
  | 0, _, _ => none
  | fuel + 1, len, input =>
    let line := (readLine (maxLine - 1) input).1
    let rest := (readLine (maxLine - 1) input).2
    if line = endLine then
      len.bind fun n => if n ≤ rest.length then some (rest.take n, rest.drop n) else none
    else if line = [] then none
    else if contentLength <+: line then receive fuel (some (readNat (line.drop 16))) rest
    else receive fuel len rest

theorem receive_end (n : ℕ) (body : List UInt8) (h : body.length = n) :
    receive (fuel + 1) (some n) (endLine ++ body) = some (body, []) := by
  have hend : OneLine endLine := ⟨[13], by decide, by decide, by decide⟩
  rw [receive, hend.read (by decide) body]
  dsimp only
  rw [if_pos rfl, Option.bind_some, if_pos h.ge, ← h, List.take_length, List.drop_length]

/-- A header line that is not the length. -/
theorem receive_line (hline : OneLine line) (hlen : line.length < maxLine) (hend : line ≠ endLine)
    (hother : ¬ contentLength <+: line) (rest : List UInt8) :
    receive (fuel + 1) len (line ++ rest) = receive fuel len rest := by
  have hnil : line ≠ [] := by
    obtain ⟨text, rfl, -, -⟩ := hline
    exact List.append_ne_nil_of_right_ne_nil _ (by simp)
  rw [receive, hline.read hlen rest]
  dsimp only
  rw [if_neg hend, if_neg hnil, if_neg hother]

/-- The line of `sprintf(buf, "Content-length: %d\r\n", n)`. -/
theorem receive_length (n : ℕ) (hn : n < 10 ^ 10) (rest : List UInt8) :
    receive (fuel + 1) len (contentLength ++ printNat n ++ literal "\r\n" ++ rest) =
      receive fuel (some n) rest := by
  have hdigits : OnOneLine (printNat n) := by
    intro c hc
    have hdigit := isDigit_of_mem_printNat hc
    constructor
    · rintro rfl
      cases hdigit
    · rintro rfl
      cases hdigit
  have htext : OnOneLine contentLength := by decide
  have hline : OneLine (contentLength ++ printNat n ++ literal "\r\n") :=
    oneLine_append (htext.append hdigits)
  have hshort : (contentLength ++ printNat n ++ literal "\r\n").length < maxLine := by
    have hprint := length_printNat_le (k := 10) (by decide) hn
    have hmax : maxLine = 8192 := rfl
    rw [List.length_append, List.length_append, show contentLength.length = 16 by decide,
      show (literal "\r\n").length = 2 by decide]
    omega
  have hfront : contentLength <+: contentLength ++ printNat n ++ literal "\r\n" :=
    (List.prefix_append _ _).trans (List.prefix_append _ _)
  have hend : contentLength ++ printNat n ++ literal "\r\n" ≠ endLine := by
    intro h
    have hle := congrArg List.length h
    rw [List.length_append, List.length_append, show contentLength.length = 16 by decide,
      show endLine.length = 2 by decide] at hle
    omega
  have hnil : contentLength ++ printNat n ++ literal "\r\n" ≠ [] :=
    List.append_ne_nil_of_right_ne_nil _ (by decide)
  have hdrop : (contentLength ++ printNat n ++ literal "\r\n").drop 16 =
      printNat n ++ literal "\r\n" := by
    rw [List.append_assoc]
    exact List.drop_left' (by decide)
  rw [receive, hline.read hshort rest]
  dsimp only
  rw [if_neg hend, if_neg hnil, if_pos hfront, hdrop, readNat_printNat n fun c hc => ?_]
  have hcr : (literal "\r\n").head? = some 13 := by decide
  rw [hcr] at hc
  cases hc
  rfl

/-! ### What Tiny answers -/

/-- Texts put behind one another. -/
theorem Site.Appends.foldlM {site : Site} (h : site.Appends) {s s' : List UInt8}
    {texts : List (List UInt8)} (hs : s.length < maxLine) (hfold : texts.foldlM site.overlap s = some s') :
    s' = s ++ texts.flatten ∧ s'.length < maxLine := by
  induction texts generalizing s with
  | nil =>
    cases hfold
    exact ⟨(List.append_nil _).symm, hs⟩
  | cons t texts ih =>
    rw [List.foldlM_cons, h] at hfold
    split at hfold
    · next hfits =>
      obtain ⟨rfl, hlen⟩ := ih hfits hfold
      rw [List.flatten_cons, ← List.append_assoc]
      exact ⟨rfl, hlen⟩
    · cases hfold

theorem getFiletype_cases (filename : List UInt8) :
    getFiletype filename ∈ [literal "text/html", literal "image/gif", literal "image/png",
      literal "image/jpeg", literal "text/plain"] := by
  rw [getFiletype]
  split_ifs <;> simp

/-- The headers of `serve_static` announce the size of the file. -/
theorem receive_static {site : Site} (happends : site.Appends) {filename headers : List UInt8} {n : ℕ}
    (hheaders : staticHeaders site filename n = some headers) (hn : n < 10 ^ 10) (body : List UInt8)
    (hbody : body.length = n) :
    receive (fuel + 6) none (headers ++ body) = some (body, []) := by
  have htype : OneLine (literal "Content-type: " ++ getFiletype filename ++ literal "\r\n") ∧
      (literal "Content-type: " ++ getFiletype filename ++ literal "\r\n").length < maxLine ∧
      literal "Content-type: " ++ getFiletype filename ++ literal "\r\n" ≠ endLine ∧
      ¬ contentLength <+: literal "Content-type: " ++ getFiletype filename ++ literal "\r\n" := by
    have hall : ∀ t ∈ [literal "text/html", literal "image/gif", literal "image/png",
        literal "image/jpeg", literal "text/plain"], OnOneLine (literal "Content-type: " ++ t) ∧
        (literal "Content-type: " ++ t ++ literal "\r\n").length < maxLine ∧
        literal "Content-type: " ++ t ++ literal "\r\n" ≠ endLine ∧
        ¬ contentLength <+: literal "Content-type: " ++ t ++ literal "\r\n" := by
      simp only [List.forall_mem_cons]
      exact ⟨by decide, by decide, by decide, by decide, by decide, List.forall_mem_nil _⟩
    obtain ⟨hone, hrest⟩ := hall _ (getFiletype_cases filename)
    exact ⟨oneLine_append hone, hrest⟩
  have hprint : printInt (n : ℤ) = printNat n := by
    rw [printInt, if_neg (by omega), Int.natAbs_natCast]
  have hsplit : headers ++ body =
      literal "HTTP/1.0 200 OK\r\n" ++ (literal "Server: Tiny Web Server\r\n" ++
        (literal "Connection: close\r\n" ++ (contentLength ++ printNat n ++ literal "\r\n" ++
          (literal "Content-type: " ++ getFiletype filename ++ literal "\r\n" ++
            (endLine ++ body))))) := by
    have hstart : (literal "HTTP/1.0 200 OK\r\n").length < maxLine := by decide
    rw [(happends.foldlM hstart hheaders).1, hprint,
      show literal "\r\n\r\n" = literal "\r\n" ++ endLine by decide]
    simp only [contentLength, List.flatten_cons, List.flatten_nil, List.append_nil, List.append_assoc]
  have hstatus : OneLine (literal "HTTP/1.0 200 OK\r\n") :=
    ⟨literal "HTTP/1.0 200 OK\r", by decide, by decide, by decide⟩
  have hserver : OneLine (literal "Server: Tiny Web Server\r\n") :=
    ⟨literal "Server: Tiny Web Server\r", by decide, by decide, by decide⟩
  have hclose : OneLine (literal "Connection: close\r\n") :=
    ⟨literal "Connection: close\r", by decide, by decide, by decide⟩
  rw [hsplit, receive_line hstatus (by decide) (by decide) (by decide),
    receive_line hserver (by decide) (by decide) (by decide),
    receive_line hclose (by decide) (by decide) (by decide), receive_length n hn,
    receive_line htype.1 htype.2.1 htype.2.2.1 htype.2.2.2]
  exact receive_end n body hbody

/-- The kinds of errors that Tiny reports. -/
def errorKinds : List (List UInt8 × List UInt8) :=
  [(literal "501", literal "Not Implemented"), (literal "404", literal "Not found"),
    (literal "403", literal "Forbidden")]

/-- An error page. -/
def errorPage (cause errnum shortmsg longmsg : List UInt8) : List UInt8 :=
  literal "<html><title>Tiny Error</title>" ++ literal "<body bgcolor=ffffff>\r\n" ++
    errnum ++ literal ": " ++ shortmsg ++ literal "\r\n" ++
    literal "<p>" ++ longmsg ++ literal ": " ++ cause ++ literal "\r\n" ++
    literal "<hr><em>The Tiny Web server</em>\r\n"

/-- The headers of `clienterror` announce the size of the page. -/
theorem receive_error {site : Site} (happends : site.Appends)
    {cause errnum shortmsg longmsg : List UInt8} (hkind : (errnum, shortmsg) ∈ errorKinds)
    (h : clienterror site cause errnum shortmsg longmsg = ⟨sent, .returned⟩) :
    receive (fuel + 4) none sent = some (errorPage cause errnum shortmsg longmsg, []) := by
  rw [clienterror] at h
  cases hbody : errorBody site cause errnum shortmsg longmsg with
  | none =>
    rw [hbody] at h
    cases h
  | some body =>
    rw [hbody] at h
    injection h with hsent
    have hstart : (literal "<html><title>Tiny Error</title>").length < maxLine := by decide
    obtain ⟨htext, hfits⟩ := happends.foldlM hstart hbody
    obtain rfl : body = errorPage cause errnum shortmsg longmsg := by
      rw [htext, errorPage]
      simp only [List.flatten_cons, List.flatten_nil, List.append_nil, List.append_assoc]
    have hstatus : OneLine (literal "HTTP/1.0 " ++ errnum ++ literal " " ++ shortmsg ++
          literal "\r\n") ∧
        (literal "HTTP/1.0 " ++ errnum ++ literal " " ++ shortmsg ++ literal "\r\n").length <
          maxLine ∧
        literal "HTTP/1.0 " ++ errnum ++ literal " " ++ shortmsg ++ literal "\r\n" ≠ endLine ∧
        ¬ contentLength <+:
          literal "HTTP/1.0 " ++ errnum ++ literal " " ++ shortmsg ++ literal "\r\n" := by
      have hall : ∀ k ∈ errorKinds, OnOneLine (literal "HTTP/1.0 " ++ k.1 ++ literal " " ++ k.2) ∧
          (literal "HTTP/1.0 " ++ k.1 ++ literal " " ++ k.2 ++ literal "\r\n").length < maxLine ∧
          literal "HTTP/1.0 " ++ k.1 ++ literal " " ++ k.2 ++ literal "\r\n" ≠ endLine ∧
          ¬ contentLength <+:
            literal "HTTP/1.0 " ++ k.1 ++ literal " " ++ k.2 ++ literal "\r\n" := by
        simp only [errorKinds, List.forall_mem_cons]
        exact ⟨by decide, by decide, by decide, List.forall_mem_nil _⟩
      obtain ⟨hone, hrest⟩ := hall _ hkind
      exact ⟨oneLine_append hone, hrest⟩
    have htype : OneLine (literal "Content-type: text/html\r\n") :=
      ⟨literal "Content-type: text/html\r", by decide, by decide, by decide⟩
    have hprint : printInt ((errorPage cause errnum shortmsg longmsg).length : ℤ) =
        printNat (errorPage cause errnum shortmsg longmsg).length := by
      rw [printInt, if_neg (by omega), Int.natAbs_natCast]
    have hsplit : sent = literal "HTTP/1.0 " ++ errnum ++ literal " " ++ shortmsg ++
        literal "\r\n" ++ (literal "Content-type: text/html\r\n" ++
          (contentLength ++ printNat (errorPage cause errnum shortmsg longmsg).length ++
            literal "\r\n" ++ (endLine ++ errorPage cause errnum shortmsg longmsg))) := by
      rw [← hsent, hprint, show literal "\r\n\r\n" = literal "\r\n" ++ endLine by decide]
      simp only [contentLength, List.append_assoc]
    have hlt : (errorPage cause errnum shortmsg longmsg).length < 10 ^ 10 := by
      have hmax : maxLine = 8192 := rfl
      omega
    rw [hsplit, receive_line hstatus.1 hstatus.2.1 hstatus.2.2.1 hstatus.2.2.2,
      receive_line htype (by decide) (by decide) (by decide), receive_length _ hlt]
    exact receive_end _ _ rfl

/-- A number that is positive as an `int`. -/
theorem bmod_pos {n : ℕ} (h : 0 < Int.bmod n (2 ^ 32)) :
    ∃ k : ℕ, Int.bmod n (2 ^ 32) = k ∧ k < 2 ^ 31 ∧ k ≤ n ∧ (n < 2 ^ 31 → k = n) := by
  refine ⟨n % 2 ^ 32, ?_⟩
  rw [Int.bmod_def] at h ⊢
  split_ifs at h ⊢
  · omega
  · omega

/-- A file that `serve_static` sends, as the client sees it: the whole file when it is shorter than
`2^31` bytes. -/
theorem receive_file {site : Site} (happends : site.Appends) {filename : List UInt8} {f : FileInfo}
    (h : serveStatic site filename f = ⟨sent, .returned⟩) :
    ∃ body, receive (fuel + 6) none sent = some (body, []) ∧ body <+: f.content ∧
      (body = f.content ↔ f.content.length < 2 ^ 31) := by
  rw [serveStatic] at h
  cases hheaders : staticHeaders site filename (intSize f.content) with
  | none =>
    rw [hheaders] at h
    cases h
  | some headers =>
    rw [hheaders] at h
    dsimp only at h
    split_ifs at h with hexit
    · cases h
    · obtain ⟨-, hpos⟩ := not_or.mp hexit
      obtain ⟨n, hbmod, hlt, hle, hwhole⟩ := bmod_pos (Int.not_le.mp hpos)
      have hsize : intSize f.content = n := hbmod
      injection h with hsent
      rw [hsize, Int.toNat_natCast] at hsent
      rw [hsize] at hheaders
      have hlen : (f.content.take n).length = n := by
        rw [List.length_take]
        omega
      refine ⟨f.content.take n, ?_, List.take_prefix _ _, ?_⟩
      · rw [← hsent]
        exact receive_static happends hheaders (by omega) _ hlen
      · constructor
        · intro hall
          have hlen' := congrArg List.length hall
          omega
        · intro hshort
          exact List.take_of_length_le (hwhole hshort).ge

/-- What a client of Tiny gets: nothing, what a program prints, a file, or an error page; of the last two
every byte, and nothing behind it. -/
inductive Answered (site : Site) (sent : List UInt8) : Prop
  | closed (h : sent = [])
  | program (filename cgiargs : List UInt8)
      (h : sent = literal "HTTP/1.0 200 OK\r\n" ++ literal "Server: Tiny Web Server\r\n" ++
        site.cgi filename cgiargs)
  | file {filename body : List UInt8} {f : FileInfo} (hstat : site.stat filename = some f)
      (hregular : f.regular = true) (hreadable : f.readable = true)
      (h : receive 6 none sent = some (body, [])) (hfront : body <+: f.content)
      (hwhole : body = f.content ↔ f.content.length < 2 ^ 31)
  | page {cause errnum shortmsg longmsg : List UInt8} (hkind : (errnum, shortmsg) ∈ errorKinds)
      (h : receive 6 none sent = some (errorPage cause errnum shortmsg longmsg, []))

theorem serve_answered {site : Site} {uri : List UInt8} (happends : site.Appends)
    (h : serve site uri = ⟨sent, .returned⟩) :
    Answered site sent := by
  rw [serve] at h
  cases hparse : parseUri uri with
  | none =>
    rw [hparse] at h
    cases h
  | some r =>
    obtain ⟨isStatic, filename, cgiargs⟩ := r
    rw [hparse] at h
    dsimp only at h
    cases hstat : site.stat filename with
    | none =>
      rw [hstat] at h
      exact .page (by simp [errorKinds]) (receive_error happends (by simp [errorKinds]) h)
    | some f =>
      rw [hstat] at h
      dsimp only at h
      split_ifs at h with hstatic hfile hprogram
      · obtain ⟨hregular, hreadable⟩ := Bool.and_eq_true_iff.mp hfile
        obtain ⟨body, hbody, hfront, hwhole⟩ := receive_file happends h
        exact .file hstat hregular hreadable hbody hfront hwhole
      · exact .page (by simp [errorKinds]) (receive_error happends (by simp [errorKinds]) h)
      · injection h with hsent
        exact .program filename cgiargs hsent.symm
      · exact .page (by simp [errorKinds]) (receive_error happends (by simp [errorKinds]) h)

/-- **What Tiny answers**, where `sprintf` appends.  When `doit` returns, the connection is closed without an answer, or a program
has answered, or the client receives a file or an error page to its last byte and nothing more.  A file is
whole when it is shorter than `2^31` bytes. -/
theorem doit_receive (site : Site) (happends : site.Appends) (buf input : List UInt8)
    (h : doit site fuel buf input = some ⟨sent, .returned⟩) : Answered site sent := by
  rw [doit] at h
  dsimp only at h
  split_ifs at h with hclosed hmethod hget
  · injection h with h
    injection h with hsent
    exact .closed hsent.symm
  · cases h
  · cases hhdrs : readRequesthdrs fuel buf (readLine (maxLine - 1) input).2 with
    | none => rw [hhdrs] at h; cases h
    | some rest => rw [hhdrs] at h; cases h
  · cases hhdrs : readRequesthdrs fuel buf (readLine (maxLine - 1) input).2 with
    | none =>
      rw [hhdrs] at h
      cases h
    | some rest =>
      rw [hhdrs] at h
      injection h with h
      exact serve_answered happends h
  · injection h with h
    exact .page (by simp [errorKinds]) (receive_error happends (by simp [errorKinds]) h)

/-- A site with one file. -/
def oneFile : Site :=
  ⟨fun filename => if filename = literal "./a" then some ⟨true, true, false, true, literal "hello"⟩
    else none, fun _ _ => [], appending⟩

theorem oneFile_appends : oneFile.Appends := fun _ _ => rfl

/-- The file, read from that site. -/
theorem doit_receive_file : ∃ sent,
    doit oneFile 1 [] (literal "GET /a HTTP/1.0\r\n\r\n") = some ⟨sent, .returned⟩ ∧
      receive 6 none sent = some (literal "hello", []) ∧ Answered oneFile sent := by
  obtain ⟨sent, hdoit, hreceive⟩ : ∃ sent,
      doit oneFile 1 [] (literal "GET /a HTTP/1.0\r\n\r\n") = some ⟨sent, .returned⟩ ∧
        receive 6 none sent = some (literal "hello", []) :=
    ⟨literal "HTTP/1.0 200 OK\r\nServer: Tiny Web Server\r\nConnection: close\r\n" ++
      literal "Content-length: 5\r\nContent-type: text/plain\r\n\r\nhello",
      by decide +kernel, by decide +kernel⟩
  exact ⟨sent, hdoit, hreceive, doit_receive oneFile oneFile_appends [] _ hdoit⟩

/-! ### Through the proxy -/

section
variable {ι : Type*} [DecidableEq ι] {input : ι → List UInt8} {t : ι} {req : HttpRequest}

/-- **Through the proxy.**  Whatever a client has sent, if the request parsed from it fits in the proxy's
buffer, Tiny answers what the proxy writes as it answers a bare request for the same path, and the relay
sends the client exactly that answer, however it is delivered and taken. -/
theorem doit_proxied (h : ParsesAlone input t req) (hfits : RequestFits req) (site : Site)
    (buf : List UInt8) {n : ℕ} (hfuel : (requestLines req).length ≤ n) :
    ∃ answer, doit site n buf (getLine req.path ++ endLine) = some answer ∧
      doit site n buf (requestLines req).flatten = some answer ∧
      ∀ (rioBuf : List UInt8) (calls out : List Call) (rounds : ℕ), rioBuf.length = rioBufsize →
        NoFailure calls → NoFailure out → answer.sent.length < rounds →
        (∀ r c out', relayRio rounds relayStart (rioReadinitb rioBuf answer.sent calls) out =
          some (r, c, out') → r.sent = answer.sent) ∧
        (answer.sent.length ≤ maxObjectSize → answer.sent.length + rounds ≤ moves calls →
          answer.sent.length ≤ moves out →
          (relayRio rounds relayStart (rioReadinitb rioBuf answer.sent calls) out).isSome) := by
  obtain ⟨⟨hne, hpath⟩, -, -⟩ := parsed_onOneLine h
  have hget : (getLine req.path).length < maxLine :=
    hfits (getLine req.path) (by rw [requestLines_eq]; exact List.mem_cons_self)
  have hpos : ([] : List (List UInt8)).length < n := by
    rw [requestLines_eq, List.length_cons] at hfuel
    rw [List.length_nil]
    omega
  refine ⟨serve site req.path, ?_, ?_, ?_⟩
  · have hskip : readRequesthdrs n buf endLine = some [] :=
      readRequesthdrs_lines (List.forall_mem_nil _) hpos
    exact doit_get site hne hpath ((getLine_oneLine hpath).read hget endLine) hskip
  · obtain ⟨hdrs, hread, hskip⟩ := requestLines_skipped h hfits buf hfuel []
    rw [List.append_nil] at hread
    exact doit_get site hne hpath hread hskip
  · intro rioBuf calls out rounds hbuf hok hout hrounds
    have hgo := relayRio_from (r := relayStart) (rioReadinitb_valid hbuf _ calls) hok hout hrounds
    rw [rioReadinitb_pending] at hgo
    refine ⟨fun r c out' hr => (hgo.1 r c out' hr).1, fun hfit => ?_⟩
    have hroom : ([] : List UInt8).length + (serve site req.path).sent.length ≤ maxObjectSize := by
      rw [List.length_nil]
      omega
    exact (hgo.2 [] rfl hroom).2

end

/-- A request with a header, through the proxy and not; the answer arrives and is taken byte by byte. -/
theorem doit_proxied_accept : ParsesAlone (fun _ : Unit => acceptInput) () acceptRequest ∧
    ∃ answer, doit emptySite 7 [] (getLine (literal "/") ++ endLine) = some answer ∧
      doit emptySite 7 [] (requestLines acceptRequest).flatten = some answer ∧
      ∃ r c out', relayRio 300 relayStart (rioReadinitb (List.replicate rioBufsize 0) answer.sent
        (List.replicate 600 (.upTo 1))) (List.replicate 300 (.upTo 1)) = some (r, c, out') ∧
          r.sent = answer.sent := by
  obtain ⟨answer, hdirect, hproxied, hrelay⟩ := doit_proxied (n := 7) acceptRequest_parses
    (by decide +kernel) emptySite [] (by decide)
  have hlen : answer.sent.length < 300 := by
    have hshort : (doit emptySite 7 [] (getLine acceptRequest.path ++ endLine)).map
        (fun a => decide (a.sent.length < 300)) = some true := by decide +kernel
    rw [hdirect] at hshort
    simpa using hshort
  have hok : ∀ n, NoFailure (List.replicate n (Call.upTo 1)) := by
    intro n h
    cases List.eq_of_mem_replicate h
  have hmax : maxObjectSize = 10970 := rfl
  have hmoves : moves (List.replicate 600 (Call.upTo 1)) = 600 := by decide +kernel
  have hmoves' : moves (List.replicate 300 (Call.upTo 1)) = 300 := by decide +kernel
  obtain ⟨hsent, hleaves⟩ := hrelay (List.replicate rioBufsize 0) (List.replicate 600 (.upTo 1))
    (List.replicate 300 (.upTo 1)) 300 List.length_replicate (hok 600) (hok 300) hlen
  obtain ⟨⟨r, c, out'⟩, h⟩ := Option.isSome_iff_exists.mp
    (hleaves (by omega) (by omega) (by omega))
  exact ⟨acceptRequest_parses, answer, hdirect, hproxied, r, c, out', h, hsent r c out' h⟩

end SystemProgramming.ProxyLab
