import SystemProgramming.ProxyLab.ParseRequest

/-!
# The header lines a thread parses alone (`parse_request`)

`parse_request` splits each header line where it lies, with two calls of `strtok` and two of `trim`.
Here these are functions of the text of the line, and the loop is a function of the lines that follow
the request line.

* `keyToken`, `valueToken`, `trimmed` : what `strtok` and `trim` make of a text.
* `headerLines` : the lines the loop parses.
* `AloneAt.header` : one header line; `AloneAt.headers` : all of them.
* `no_null_token_iff` : which lines give `strtok` a token in both calls.
-/

namespace SystemProgramming.ProxyLab

open Segments Transition
open SystemProgramming.CString (cString literal strAt strAt_zero)
open Scanning (isspace)

/-! ### Tokens and trimming, on texts -/

/-- The text of a line in a buffer: the characters up to the first NUL. -/
def lineText (line : List UInt8) : List UInt8 := line.takeWhile (· ≠ 0)

/-- The token `strtok` finds. -/
def tokenOf (delim s : List UInt8) : List UInt8 := (s.dropWhile (· ∈ delim)).takeWhile (· ∉ delim)

/-- What is left for the next call. -/
def afterToken (delim s : List UInt8) : List UInt8 :=
  ((s.dropWhile (· ∈ delim)).dropWhile (· ∉ delim)).tail

/-- What `trim` leaves. -/
def trimmed (s : List UInt8) : List UInt8 := (s.dropWhile isspace).rdropWhile isspace

/-- The token of `strtok(buf, ":")`. -/
def keyToken (text : List UInt8) : List UInt8 := tokenOf (literal ":") text

/-- The token of `strtok(NULL, "\r\n")`. -/
def valueToken (text : List UInt8) : List UInt8 :=
  tokenOf (literal "\r\n") (afterToken (literal ":") text)

theorem tokenOf_eq_nil {delim s : List UInt8} : tokenOf delim s = [] ↔ ∀ c ∈ s, c ∈ delim := by
  constructor
  · intro h
    have hnil : s.dropWhile (· ∈ delim) = [] := by
      cases hd : s.dropWhile (· ∈ delim) with
      | nil => rfl
      | cons c s' =>
        have hc := List.head?_dropWhile_not (fun c => decide (c ∈ delim)) s
        rw [hd] at hc
        rw [tokenOf, hd, List.takeWhile_cons_of_pos (by simpa using hc)] at h
        cases h
    simpa using List.dropWhile_eq_nil_iff.mp hnil
  · intro h
    rw [tokenOf, List.dropWhile_eq_nil_iff.mpr (by simpa using h)]
    rfl

/-- A token between delimiters. -/
theorem tokenOf_append (skip rest : List UInt8) {delim tok : List UInt8} {d : UInt8} (hskip : ∀ c ∈ skip, c ∈ delim)
    (htok : ∀ c ∈ tok, c ∉ delim) (hne : tok ≠ []) (hd : d ∈ delim) :
    tokenOf delim (skip ++ (tok ++ d :: rest)) = tok ∧
      afterToken delim (skip ++ (tok ++ d :: rest)) = rest := by
  have hdrop : (skip ++ (tok ++ d :: rest)).dropWhile (· ∈ delim) = tok ++ d :: rest := by
    rw [List.dropWhile_append_of_pos (by simpa using hskip)]
    cases tok with
    | nil => exact absurd rfl hne
    | cons c tok => exact List.dropWhile_cons_of_neg (by simpa using htok c List.mem_cons_self)
  rw [tokenOf, afterToken, hdrop, takeWhile_append_cons (by simpa using htok) (by simpa using hd),
    dropWhile_append_cons (by simpa using htok) (by simpa using hd)]
  exact ⟨rfl, rfl⟩

/-- A text with a token and something behind it. -/
theorem exists_tokenOf {delim s : List UInt8} (h : afterToken delim s ≠ []) :
    ∃ skip d, s = skip ++ (tokenOf delim s ++ d :: afterToken delim s) ∧
      (∀ c ∈ skip, c ∈ delim) ∧ (∀ c ∈ tokenOf delim s, c ∉ delim) ∧ d ∈ delim := by
  have hskip := List.takeWhile_append_dropWhile (p := fun c => decide (c ∈ delim)) (l := s)
  have htok := List.takeWhile_append_dropWhile (p := fun c => decide (c ∉ delim))
    (l := s.dropWhile fun c => decide (c ∈ delim))
  have hd := List.head?_dropWhile_not (fun c => decide (c ∉ delim))
    (s.dropWhile fun c => decide (c ∈ delim))
  cases hrest : (s.dropWhile fun c => decide (c ∈ delim)).dropWhile fun c => decide (c ∉ delim) with
  | nil =>
    rw [afterToken, hrest] at h
    exact absurd rfl h
  | cons d rest =>
    rw [hrest] at htok hd
    refine ⟨s.takeWhile fun c => decide (c ∈ delim), d, ?_, fun c hc => ?_, fun c hc => ?_, ?_⟩
    · rw [tokenOf, afterToken, hrest, List.tail_cons, htok, hskip]
    · simpa using (mem_takeWhile hc).2
    · simpa using (mem_takeWhile hc).2
    · simpa using hd

/-! ### `strtok` and `trim` in a buffer -/

section Buffer

variable {buf : List UInt8} {p q k : ℕ}

theorem strAt_add (h : k ≤ (strAt buf p).length) : strAt buf (p + k) = (strAt buf p).drop k :=
  segment_add h

theorem strAt_set_add (h : k ≤ (strAt buf p).length) :
    strAt (buf.set (p + k) 0) p = (strAt buf p).take k := segment_set_add rfl h

theorem strAt_set_before (h : k < p) : strAt (buf.set k 0) p = strAt buf p := segment_set_before 0 h

theorem strAt_set_after (h : p + (strAt buf p).length < k) :
    strAt (buf.set k 0) p = strAt buf p := segment_set_after 0 h

theorem strAt_set_nil (h : strAt buf p = []) : strAt (buf.set k 0) p = [] := segment_set_nil rfl h

/-- The buffer `buf'` differs from `buf` from position `p` on only. -/
def SameBefore (p : ℕ) (buf buf' : List UInt8) : Prop :=
  ∀ q, q + (strAt buf q).length < p → strAt buf' q = strAt buf q

theorem sameBefore_set (h : p ≤ k) : SameBefore p buf (buf.set k 0) :=
  fun _ hq => strAt_set_after (by omega)

/-- The string from the first character that is not a delimiter. -/
theorem strAt_skip (P : UInt8 → Bool) (buf : List UInt8) (p : ℕ) :
    strAt buf (p + ((strAt buf p).takeWhile P).length) = (strAt buf p).dropWhile P := by
  rw [strAt_add (length_takeWhile_le _ _), drop_length_takeWhile]

/-- Without a token `strtok` returns `NULL`. -/
theorem strtokAt_none {delim : List UInt8} (h : tokenOf delim (strAt buf p) = []) :
    (strtokAt delim buf p).1 = none := by
  have hall : (strAt buf p).dropWhile (· ∈ delim) = [] :=
    List.dropWhile_eq_nil_iff.mpr (by simpa using tokenOf_eq_nil.mp h)
  rw [strtokAt, if_pos]
  rw [strAt_skip, hall]

/-- **`strtok`** returns the token, ends it with a NUL and saves where the rest starts. -/
theorem strtokAt_some {delim : List UInt8} (h : tokenOf delim (strAt buf p) ≠ []) :
    ∃ tok buf' k, strtokAt delim buf p = (some tok, buf', k) ∧ p ≤ tok ∧
      strAt buf' tok = tokenOf delim (strAt buf p) ∧
      strAt buf' k = afterToken delim (strAt buf p) ∧
      tok + (tokenOf delim (strAt buf p)).length ≤ k ∧
      (afterToken delim (strAt buf p) ≠ [] → tok + (tokenOf delim (strAt buf p)).length < k) ∧
      SameBefore p buf buf' := by
  set tok := p + ((strAt buf p).takeWhile (· ∈ delim)).length with htok
  have hskip : strAt buf tok = (strAt buf p).dropWhile (· ∈ delim) := strAt_skip _ buf p
  have htoken : tokenOf delim (strAt buf p) = (strAt buf tok).takeWhile (· ∉ delim) := by
    rw [tokenOf, hskip]
  have hafter : afterToken delim (strAt buf p) = ((strAt buf tok).dropWhile (· ∉ delim)).tail := by
    rw [afterToken, hskip]
  rw [htoken, hafter]
  rw [htoken] at h
  set stop := tok + ((strAt buf tok).takeWhile (· ∉ delim)).length with hstop
  have hrest : strAt buf stop = (strAt buf tok).dropWhile (· ∉ delim) := strAt_skip _ buf tok
  have hne : strAt buf tok ≠ [] := fun he => h (by rw [he]; rfl)
  have hsplit := List.takeWhile_append_dropWhile (p := fun c => decide (c ∉ delim))
    (l := strAt buf tok)
  by_cases hend : strAt buf stop = []
  · rw [hrest] at hend
    refine ⟨tok, buf, stop, ?_, by omega, ?_, ?_, by omega, ?_, fun _ _ => rfl⟩
    · rw [strtokAt, if_neg hne, if_pos (hrest.trans hend)]
    · rw [hend, List.append_nil] at hsplit
      exact hsplit.symm
    · rw [hrest, hend]
      rfl
    · rw [hend]
      exact fun hn => absurd rfl hn
  · have hlt : ((strAt buf tok).takeWhile (· ∉ delim)).length ≤ (strAt buf tok).length :=
      length_takeWhile_le _ _
    refine ⟨tok, buf.set stop 0, stop + 1, ?_, by omega, ?_, ?_, by omega, by omega,
      sameBefore_set (by omega)⟩
    · rw [strtokAt, if_neg hne, if_neg hend]
    · rw [hstop, strAt_set_add hlt]
      exact List.prefix_iff_eq_take.mp (List.takeWhile_prefix _) |>.symm
    · rw [strAt_set_before (Nat.lt_succ_self _), strAt_add (List.length_pos_iff.mpr hend), hrest,
        List.drop_one]

/-- **`trim`** returns the trimmed string; it writes nothing before it and nothing behind it but a
NUL. -/
theorem trimAt_spec (buf : List UInt8) (p : ℕ) :
    ∃ str buf', trimAt buf p = (str, buf') ∧ p ≤ str ∧
      str + (trimmed (strAt buf p)).length ≤ p + (strAt buf p).length ∧
      strAt buf' str = trimmed (strAt buf p) ∧ SameBefore p buf buf' ∧
      ∀ q, p + (strAt buf p).length < q ∨ strAt buf q = [] → strAt buf' q = strAt buf q := by
  set str := p + ((strAt buf p).takeWhile isspace).length with hstr
  have hskip : strAt buf str = (strAt buf p).dropWhile isspace := strAt_skip _ buf p
  have htrim : trimmed (strAt buf p) = (strAt buf str).rdropWhile isspace := by
    rw [trimmed, hskip]
  have hlen : ((strAt buf p).takeWhile isspace).length + (strAt buf str).length =
      (strAt buf p).length := by
    rw [hskip, ← List.length_append, List.takeWhile_append_dropWhile]
  have hprefix : (strAt buf str).rdropWhile isspace <+: strAt buf str :=
    List.rdropWhile_prefix _ _
  have hle := hprefix.length_le
  rw [htrim]
  by_cases hblank : strAt buf str = []
  · refine ⟨str, buf, ?_, by omega, by omega, ?_, fun _ _ => rfl, fun _ _ => rfl⟩
    · rw [trimAt, if_pos hblank]
    · rw [hblank]
      rfl
  · refine ⟨str, buf.set (str + ((strAt buf str).rdropWhile isspace).length) 0, ?_, by omega,
      by omega, ?_, sameBefore_set (by omega), ?_⟩
    · rw [trimAt, if_neg hblank]
    · rw [strAt_set_add hle]
      exact (List.prefix_iff_eq_take.mp hprefix).symm
    · rintro q (hq | hq)
      · exact strAt_set_before (by omega)
      · rw [strAt_set_nil hq, hq]

/-- After `Rio_readlineb` has read a line. -/
theorem strAt_fill (buf : List UInt8) {line : List UInt8} (h : line ≠ []) :
    strAt (fill buf line) 0 = lineText line := by
  rw [fill, if_neg h, strAt_zero, cString, lineText, List.takeWhile_append]
  split
  · next hfull =>
    rw [List.takeWhile_cons_of_neg (by decide), List.append_nil]
    exact ((List.takeWhile_prefix _).eq_of_length hfull).symm
  · rfl

end Buffer

/-! ### The lines -/

/-- The line that ends the headers. -/
def endLine : List UInt8 := literal "\r\n"

/-- The lines that at most `fuel` rounds of the loop parse: up to the end of the connection or an
empty line. -/
def headerLinesFrom : ℕ → List UInt8 → List (List UInt8)
  | 0, _ => []
  | fuel + 1, input =>
    let r := readLine (maxLine - 1) input
    if r.1 = [] ∨ lineText r.1 = endLine then [] else r.1 :: headerLinesFrom fuel r.2

/-- The request line of a connection. -/
def requestLine (input : List UInt8) : List UInt8 := (readLine (maxLine - 1) input).1

/-- The header lines of a connection. -/
def headerLines (input : List UInt8) : List (List UInt8) :=
  headerLinesFrom (input.length + 1) (readLine (maxLine - 1) input).2

/-- A header line as the parser stores it. -/
def headerOf (line : List UInt8) : List UInt8 × List UInt8 :=
  (trimmed (keyToken (lineText line)), trimmed (valueToken (lineText line)))

/-- Both calls of `strtok` find a token. -/
def Tokenizes (line : List UInt8) : Prop :=
  keyToken (lineText line) ≠ [] ∧ valueToken (lineText line) ≠ []

/-- The headers the parser keeps of these lines. -/
def keptHeaders (lines : List (List UInt8)) : List (List UInt8 × List UInt8) :=
  (lines.map headerOf).filter fun h => h.1 ∉ ignoredHeaders

theorem readLine_append (n : ℕ) (input : List UInt8) :
    (readLine n input).1 ++ (readLine n input).2 = input := by
  induction n generalizing input with
  | zero => rfl
  | succ n ih =>
    cases input with
    | nil => rfl
    | cons c input =>
      rw [readLine]
      split
      · rfl
      · show c :: ((readLine n input).1 ++ (readLine n input).2) = c :: input
        rw [ih]

theorem readLine_length (n : ℕ) (input : List UInt8) : (readLine n input).1.length ≤ n := by
  induction n generalizing input with
  | zero => exact le_rfl
  | succ n ih =>
    cases input with
    | nil => exact Nat.zero_le _
    | cons c input =>
      rw [readLine]
      split
      · simp
      · exact Nat.succ_le_succ (ih input)

/-- A line that fits is read as a whole. -/
theorem readLine_newline {line : List UInt8} (rest : List UInt8) {n : ℕ} (hline : (10 : UInt8) ∉ line)
    (hlen : line.length < n) : readLine n (line ++ 10 :: rest) = (line ++ [10], rest) := by
  induction line generalizing n with
  | nil =>
    cases n with
    | zero => cases hlen
    | succ n => rfl
  | cons c line ih =>
    cases n with
    | zero => cases hlen
    | succ n =>
      rw [List.mem_cons, not_or] at hline
      rw [List.cons_append, readLine, if_neg (Ne.symm hline.1),
        ih hline.2 (Nat.lt_of_succ_lt_succ hlen)]
      rfl

/-! ### One thread -/

/-- The token `strtok` returned is `NULL`. -/
def ParsePc.NullToken {ι : Type*} : ParsePc ι → Prop
  | .trimKey tok => tok = none
  | .trimValue _ tok => tok = none
  | _ => False

/-- The request after the parser has dealt with one more header. -/
def HttpRequest.keep (req : HttpRequest) (h : List UInt8 × List UInt8) : HttpRequest :=
  if h.1 ∈ ignoredHeaders then req else { req with extraHdrs := req.extraHdrs ++ [h] }

/-- The request after the parser has dealt with these lines. -/
def HttpRequest.withHeaders (req : HttpRequest) (lines : List (List UInt8)) : HttpRequest :=
  { req with extraHdrs := req.extraHdrs ++ keptHeaders lines }

theorem HttpRequest.withHeaders_nil (req : HttpRequest) : req.withHeaders [] = req := by
  rw [withHeaders, keptHeaders, List.map_nil, List.filter_nil, List.append_nil]

theorem HttpRequest.withHeaders_cons (req : HttpRequest) (line : List UInt8)
    (lines : List (List UInt8)) :
    req.withHeaders (line :: lines) = (req.keep (headerOf line)).withHeaders lines := by
  rw [keep, withHeaders, keptHeaders, List.map_cons]
  split
  · next hign =>
    rw [List.filter_cons_of_neg (by simpa using hign)]
    rfl
  · next hkeep =>
    rw [List.filter_cons_of_pos (by simpa using hkeep), withHeaders, keptHeaders,
      List.append_cons]

variable {ι : Type*} [DecidableEq ι]

/-- When no other thread runs, `t` comes to be where `th` says, with `sv` saved by `strtok`. -/
def AloneAt (input : ι → List UInt8) (t : ι) (th : Parser ι) (sv : Option (CharPtr ι)) : Prop :=
  ∃ s, ((parseRuns input).only t).Reachable s ∧ s.threads t = th ∧ s.saved = sv ∧ s.alive = true

namespace AloneAt

open Parsers

variable {input : ι → List UInt8} {t : ι} {th th' : Parser ι} {sv : Option (CharPtr ι)}
  {i buf : List UInt8} {req : HttpRequest}

/-- One step of the thread. -/
theorem step {k : Option ℕ} (h : AloneAt input t th sv)
    (hact : ∀ s, s.threads t = th → s.saved = sv →
      ∃ s', s.act t = some s' ∧ Became t th' k false s s') :
    AloneAt input t th' ((k.map fun k => (t, k)).or sv) := by
  obtain ⟨s, hs, hth, hsv, halive⟩ := h
  obtain ⟨s', hs', hb⟩ := hact s hth hsv
  refine ⟨s', hs.step ⟨rfl, step_eq_some.mpr ⟨halive, hs'⟩⟩, hb.thread, ?_, ?_⟩
  · rw [hb.saved, hsv]
  · rw [hb.alive, halive]
    rfl

/-- The request line is read. -/
theorem start (input : ι → List UInt8) (t : ι) :
    AloneAt input t ⟨.readHeader, (readLine (maxLine - 1) (input t)).2,
      fill (List.replicate maxLine 0) (requestLine (input t)),
      scanRequestLine (fill (List.replicate maxLine 0) (requestLine (input t)))⟩ none := by
  have h : AloneAt input t ⟨.start, input t, List.replicate maxLine 0, .zero⟩ none :=
    ⟨_, .init rfl, rfl, rfl, rfl⟩
  refine h.step (k := none) fun s hth hsv => ⟨_, ?_, became_set s t _⟩
  simp only [act, hth]
  rfl

/-- A line is read. -/
theorem readHeader (h : AloneAt input t ⟨.readHeader, i, buf, req⟩ sv) :
    AloneAt input t ⟨if (readLine (maxLine - 1) i).1 = [] ∨
        strAt (fill buf (readLine (maxLine - 1) i).1) 0 = endLine then .finished else .tokKey,
      (readLine (maxLine - 1) i).2, fill buf (readLine (maxLine - 1) i).1, req⟩ sv := by
  refine h.step (k := none) fun s hth hsv => ⟨_, ?_, became_set s t _⟩
  simp only [act, hth]
  rfl

theorem tokKey (h : AloneAt input t ⟨.tokKey, i, buf, req⟩ sv) :
    AloneAt input t ⟨.trimKey ((strtokAt (literal ":") buf 0).1.map fun tok => (t, tok)), i,
      (strtokAt (literal ":") buf 0).2.1, req⟩ (some (t, (strtokAt (literal ":") buf 0).2.2)) := by
  refine h.step (k := some _) fun s hth hsv =>
    ⟨_, ?_, became_strtok (p := (t, 0)) hth rfl _ .trimKey⟩
  simp only [act, hth]

theorem trimKey {tok : ℕ} (h : AloneAt input t ⟨.trimKey (some (t, tok)), i, buf, req⟩ sv) :
    AloneAt input t ⟨.tokValue (t, (trimAt buf tok).1), i, (trimAt buf tok).2, req⟩ sv := by
  refine h.step (k := none) fun s hth hsv =>
    ⟨_, ?_, became_trim (p := (t, tok)) hth rfl .tokValue⟩
  simp only [act, hth]

theorem tokValue {key : CharPtr ι} {k : ℕ}
    (h : AloneAt input t ⟨.tokValue key, i, buf, req⟩ (some (t, k))) :
    AloneAt input t
      ⟨.trimValue key ((strtokAt (literal "\r\n") buf k).1.map fun tok => (t, tok)), i,
        (strtokAt (literal "\r\n") buf k).2.1, req⟩
      (some (t, (strtokAt (literal "\r\n") buf k).2.2)) := by
  refine h.step (k := some _) fun s hth hsv =>
    ⟨_, ?_, became_strtok (p := (t, k)) hth rfl _ (.trimValue key)⟩
  simp only [act, hth, hsv]

theorem trimValue {key : CharPtr ι} {tok : ℕ}
    (h : AloneAt input t ⟨.trimValue key (some (t, tok)), i, buf, req⟩ sv) :
    AloneAt input t ⟨.store key (t, (trimAt buf tok).1), i, (trimAt buf tok).2, req⟩ sv := by
  refine h.step (k := none) fun s hth hsv =>
    ⟨_, ?_, became_trim (p := (t, tok)) hth rfl (.store key)⟩
  simp only [act, hth]

/-- The header is kept or dropped. -/
theorem store {key value : ℕ}
    (h : AloneAt input t ⟨.store (t, key) (t, value), i, buf, req⟩ sv) :
    AloneAt input t ⟨.readHeader, i, buf, req.keep (strAt buf key, strAt buf value)⟩ sv := by
  refine h.step (k := none) fun s hth hsv => ?_
  by_cases hign : strAt buf key ∈ ignoredHeaders
  · rw [HttpRequest.keep, if_pos hign]
    refine ⟨_, ?_, became_goto hth .readHeader⟩
    simp only [act, hth, str_eq (p := (t, key)) hth rfl, if_pos hign]
  · rw [HttpRequest.keep, if_neg hign]
    refine ⟨_, ?_, became_set s t _⟩
    simp only [act, hth, str_eq (p := (t, key)) hth rfl, str_eq (p := (t, value)) hth rfl,
      if_neg hign]

/-- The first call of `strtok` finds nothing. -/
theorem key_missing (h : AloneAt input t ⟨.tokKey, i, buf, req⟩ sv)
    (hk : tokenOf (literal ":") (strAt buf 0) = []) :
    ∃ th sv', AloneAt input t th sv' ∧ th.pc.NullToken := by
  refine ⟨_, _, h.tokKey, ?_⟩
  show Option.map _ _ = none
  rw [strtokAt_none hk, Option.map_none]

/-- The second call of `strtok` finds nothing. -/
theorem value_missing {key : CharPtr ι} {k : ℕ}
    (h : AloneAt input t ⟨.tokValue key, i, buf, req⟩ (some (t, k)))
    (hv : tokenOf (literal "\r\n") (strAt buf k) = []) :
    ∃ th sv', AloneAt input t th sv' ∧ th.pc.NullToken := by
  refine ⟨_, _, h.tokValue, ?_⟩
  show Option.map _ _ = none
  rw [strtokAt_none hv, Option.map_none]

/-- The key is found and trimmed.  What the next call of `strtok` starts from is behind it, unless
that is the end of the line. -/
theorem key_found (h : AloneAt input t ⟨.tokKey, i, buf, req⟩ sv)
    (hk : tokenOf (literal ":") (strAt buf 0) ≠ []) :
    ∃ buf' key k, AloneAt input t ⟨.tokValue (t, key), i, buf', req⟩ (some (t, k)) ∧
      strAt buf' key = trimmed (tokenOf (literal ":") (strAt buf 0)) ∧
      strAt buf' k = afterToken (literal ":") (strAt buf 0) ∧
      (afterToken (literal ":") (strAt buf 0) ≠ [] → key + (strAt buf' key).length < k) := by
  obtain ⟨tok, buf₁, k, heq, -, hstr, hsaved, -, hlt, -⟩ := strtokAt_some hk
  obtain ⟨key, buf₂, heq₂, -, hend, hkey, -, hsame⟩ := trimAt_spec buf₁ tok
  have htok := h.tokKey
  rw [heq] at htok
  have htrim := htok.trimKey
  rw [heq₂] at htrim
  refine ⟨buf₂, key, k, htrim, by rw [hkey, hstr], ?_, fun hne => ?_⟩
  · rw [← hsaved]
    refine hsame k ?_
    rw [hstr, hsaved]
    by_cases hnil : afterToken (literal ":") (strAt buf 0) = []
    · exact Or.inr hnil
    · exact Or.inl (hlt hnil)
  · have hbehind := hlt hne
    rw [hstr] at hend
    rw [hkey, hstr]
    omega

/-- The value is found and trimmed, and the header is kept or dropped. -/
theorem value_found {key k : ℕ}
    (h : AloneAt input t ⟨.tokValue (t, key), i, buf, req⟩ (some (t, k)))
    (hv : tokenOf (literal "\r\n") (strAt buf k) ≠ []) (hbehind : key + (strAt buf key).length < k) :
    ∃ buf' sv', AloneAt input t ⟨.readHeader, i, buf', req.keep
      (strAt buf key, trimmed (tokenOf (literal "\r\n") (strAt buf k)))⟩ sv' := by
  obtain ⟨tok, buf₁, k', heq, hge, hstr, -, -, -, hbefore⟩ := strtokAt_some hv
  obtain ⟨value, buf₂, heq₂, -, -, hvalue, hbefore', -⟩ := trimAt_spec buf₁ tok
  have htok := h.tokValue
  rw [heq] at htok
  have htrim := htok.trimValue
  rw [heq₂] at htrim
  -- the key lies before the value and is still there
  have hkey₁ : strAt buf₁ key = strAt buf key := hbefore key hbehind
  have hkey₂ : strAt buf₂ key = strAt buf key := by
    rw [hbefore' key (by rw [hkey₁]; omega), hkey₁]
  have hstored := htrim.store
  rw [hkey₂, hvalue, hstr] at hstored
  exact ⟨_, _, hstored⟩

/-- **One header line.**  The thread stores what the text says, or a token is missing. -/
theorem header {line : List UInt8} (h : AloneAt input t ⟨.tokKey, i, buf, req⟩ sv)
    (hbuf : strAt buf 0 = lineText line) :
    (Tokenizes line → ∃ buf' sv', AloneAt input t ⟨.readHeader, i, buf', req.keep (headerOf line)⟩ sv') ∧
      (¬ Tokenizes line → ∃ th sv', AloneAt input t th sv' ∧ th.pc.NullToken) := by
  rw [Tokenizes, headerOf, keyToken, valueToken, ← hbuf]
  by_cases hk : tokenOf (literal ":") (strAt buf 0) = []
  · exact ⟨fun htok => absurd hk htok.1, fun _ => h.key_missing hk⟩
  obtain ⟨buf₁, key, k, hkey, htext, hrest, hbehind⟩ := h.key_found hk
  rw [← hrest] at hbehind ⊢
  by_cases hv : tokenOf (literal "\r\n") (strAt buf₁ k) = []
  · exact ⟨fun htok => absurd hv htok.2, fun _ => hkey.value_missing hv⟩
  have hne : strAt buf₁ k ≠ [] := fun hnil => hv (by rw [hnil]; rfl)
  have hstored := hkey.value_found hv (hbehind hne)
  rw [htext] at hstored
  exact ⟨fun _ => hstored, fun hno => absurd ⟨hk, hv⟩ hno⟩

/-- **The header lines.**  The thread returns with the headers it keeps, or a token is missing. -/
theorem headers {fuel : ℕ} (h : AloneAt input t ⟨.readHeader, i, buf, req⟩ sv)
    (hfuel : i.length < fuel) :
    ((∀ line ∈ headerLinesFrom fuel i, Tokenizes line) → ∃ i' buf' sv', AloneAt input t
        ⟨.finished, i', buf', req.withHeaders (headerLinesFrom fuel i)⟩ sv') ∧
      (¬ (∀ line ∈ headerLinesFrom fuel i, Tokenizes line) →
        ∃ th sv', AloneAt input t th sv' ∧ th.pc.NullToken) := by
  induction fuel generalizing i buf req sv with
  | zero => omega
  | succ fuel ih =>
    have hread := h.readHeader
    rw [headerLinesFrom]
    split
    · next hlast =>
      have hstop : (readLine (maxLine - 1) i).1 = [] ∨
          strAt (fill buf (readLine (maxLine - 1) i).1) 0 = endLine := by
        by_cases hnil : (readLine (maxLine - 1) i).1 = []
        · exact Or.inl hnil
        · rw [strAt_fill buf hnil]
          exact hlast
      rw [if_pos hstop] at hread
      rw [HttpRequest.withHeaders_nil]
      exact ⟨fun _ => ⟨_, _, _, hread⟩, fun hbad => absurd (List.forall_mem_nil _) hbad⟩
    · next hmore =>
      obtain ⟨hnil, htext⟩ := not_or.mp hmore
      have hline := strAt_fill buf hnil
      rw [if_neg (by rw [hline]; exact hmore)] at hread
      obtain ⟨hgood, hbad⟩ := hread.header hline
      have hpos := List.length_pos_iff.mpr hnil
      have hlen := congrArg List.length (readLine_append (maxLine - 1) i)
      rw [List.length_append] at hlen
      by_cases htok : Tokenizes (readLine (maxLine - 1) i).1
      · obtain ⟨buf', sv', hnext⟩ := hgood htok
        rw [HttpRequest.withHeaders_cons]
        obtain ⟨hrest, hrest'⟩ := ih hnext (by omega)
        simp only [List.forall_mem_cons, htok, true_and]
        exact ⟨hrest, hrest'⟩
      · refine ⟨fun hall => absurd (hall _ List.mem_cons_self) htok, fun _ => hbad htok⟩

end AloneAt

/-! ### The thread alone -/

/-- What `parse_request` returns for a connection with such header lines. -/
def parsedRequest (input : List UInt8) : HttpRequest :=
  (scanRequestLine (requestLine input)).withHeaders (headerLines input)

/-- The request line lies in a buffer of zeros. -/
theorem scanRequestLine_fill (line : List UInt8) :
    scanRequestLine (fill (List.replicate maxLine 0) line) = scanRequestLine line := by
  have hstr : strAt (fill (List.replicate maxLine 0) line) 0 = strAt line 0 := by
    by_cases h : line = []
    · subst h
      rw [fill, if_pos rfl, strAt_zero, cString, maxLine, List.replicate_succ,
        List.takeWhile_cons_of_neg (by decide)]
      rfl
    · exact strAt_fill _ h
  rw [scanRequestLine, scanRequestLine, hstr]

section Alone

open Parsers

variable {input : ι → List UInt8} {t : ι}

/-- The thread returns with the request, or a token is missing. -/
theorem alone_cases (input : ι → List UInt8) (t : ι) :
    ((∀ line ∈ headerLines (input t), Tokenizes line) →
        ParsesAlone input t (parsedRequest (input t))) ∧
      (¬ (∀ line ∈ headerLines (input t), Tokenizes line) →
        ∃ s, ((parseRuns input).only t).Reachable s ∧ s.alive = true ∧ (s.threads t).pc.NullToken) := by
  have hstart := AloneAt.start input t
  rw [scanRequestLine_fill] at hstart
  have hlen := congrArg List.length (readLine_append (maxLine - 1) (input t))
  rw [List.length_append] at hlen
  have hfuel : (readLine (maxLine - 1) (input t)).2.length < (input t).length + 1 := by
    omega
  obtain ⟨hgood, hbad⟩ := hstart.headers hfuel
  refine ⟨fun hall => ?_, fun hno => ?_⟩
  · obtain ⟨i', buf', sv', s, hs, hth, -, -⟩ := hgood hall
    exact ⟨s, hs, by rw [hth], by rw [hth]; rfl⟩
  · obtain ⟨th, sv', ⟨s, hs, hth, -, halive⟩, hnull⟩ := hbad hno
    exact ⟨s, hs, halive, by rw [hth]; exact hnull⟩

/-- A thread with a `NULL` token in hand dies. -/
theorem act_nullToken {s : Parsers ι} (h : (s.threads t).pc.NullToken) : s.act t = some s.crash := by
  cases hpc : (s.threads t).pc with
  | trimKey tok | trimValue _ tok =>
    rw [hpc] at h
    obtain rfl : tok = none := h
    simp only [act, hpc]
  | _ =>
    rw [hpc] at h
    exact h.elim

/-- A thread that returns has not had a `NULL` token in hand. -/
theorem not_nullToken_of_finished {s r : Parsers ι} (hs : ((parseRuns input).only t).Reachable s)
    (hr : ((parseRuns input).only t).Reachable r) (hdone : (r.threads t).pc = .finished) :
    ¬ (s.threads t).pc.NullToken := by
  intro hnull
  -- dead or about to die, the thread stays where it is
  obtain ⟨d, hd, hpc, hdead⟩ : ∃ d, ((parseRuns input).only t).Reachable d ∧
      (d.threads t).pc.NullToken ∧ d.alive = false := by
    cases halive : s.alive with
    | false => exact ⟨s, hs, hnull, halive⟩
    | true =>
      exact ⟨s.crash, hs.step ⟨rfl, step_eq_some.mpr ⟨halive, act_nullToken hnull⟩⟩, hnull, rfl⟩
  have hfinal : ∀ s', d.step t ≠ some s' := by
    intro s' hstep
    rw [(step_eq_some.mp hstep).1] at hdead
    cases hdead
  rw [alone_eq_of_final hd hr hfinal fun _ => step_finished hdone, hdone] at hpc
  exact hpc

/-- **What a thread obtains alone.** -/
theorem parsesAlone_iff {req : HttpRequest} :
    ParsesAlone input t req ↔
      (∀ line ∈ headerLines (input t), Tokenizes line) ∧ req = parsedRequest (input t) := by
  obtain ⟨hgood, hbad⟩ := alone_cases input t
  constructor
  · intro h
    have hall : ∀ line ∈ headerLines (input t), Tokenizes line := by
      by_contra hno
      obtain ⟨s, hs, -, hnull⟩ := hbad hno
      obtain ⟨r, hr, hdone, -⟩ := h
      exact not_nullToken_of_finished hs hr hdone hnull
    exact ⟨hall, h.unique (hgood hall)⟩
  · rintro ⟨hall, rfl⟩
    exact hgood hall

end Alone

/-! ### Which lines have two tokens -/

/-- The text of the line has, behind any colons in front, a key and a colon, and behind that colon
something other than the end of the line. -/
def KeyAndValue (line : List UInt8) : Prop :=
  ∃ colons key rest, lineText line = colons ++ (key ++ 58 :: rest) ∧ (∀ c ∈ colons, c = 58) ∧
    key ≠ [] ∧ (58 : UInt8) ∉ key ∧ ∃ c ∈ rest, c ≠ 13 ∧ c ≠ 10

theorem mem_colon {c : UInt8} : c ∈ literal ":" ↔ c = 58 := by
  rw [show literal ":" = [58] by decide, List.mem_singleton]

theorem mem_crlf {c : UInt8} : c ∈ literal "\r\n" ↔ c = 13 ∨ c = 10 := by
  rw [show literal "\r\n" = [13, 10] by decide, List.mem_pair]

theorem tokenizes_iff {line : List UInt8} : Tokenizes line ↔ KeyAndValue line := by
  constructor
  · rintro ⟨hkey, hvalue⟩
    have hne : afterToken (literal ":") (lineText line) ≠ [] := by
      intro hnil
      rw [valueToken, hnil] at hvalue
      exact hvalue rfl
    obtain ⟨skip, d, heq, hskip, htok, hd⟩ := exists_tokenOf hne
    rw [mem_colon.mp hd] at heq
    refine ⟨skip, _, _, heq, fun c hc => mem_colon.mp (hskip c hc), hkey,
      fun hin => htok 58 hin (mem_colon.mpr rfl), ?_⟩
    by_contra hall
    refine hvalue (tokenOf_eq_nil.mpr fun c hc => mem_crlf.mpr ?_)
    by_contra hc'
    exact hall ⟨c, hc, not_or.mp hc'⟩
  · rintro ⟨colons, key, rest, heq, hcolons, hkey, hnotMem, c, hc, hc13, hc10⟩
    have hkeyChars : ∀ c ∈ key, c ∉ literal ":" := fun c hc he => hnotMem (mem_colon.mp he ▸ hc)
    obtain ⟨htok, hafter⟩ := tokenOf_append colons rest (fun c hc => mem_colon.mpr (hcolons c hc))
      hkeyChars hkey (mem_colon.mpr rfl)
    rw [← heq] at htok hafter
    refine ⟨?_, fun hnil => ?_⟩
    · rw [keyToken, htok]
      exact hkey
    · rw [valueToken, hafter] at hnil
      rcases mem_crlf.mp (tokenOf_eq_nil.mp hnil c hc) with h | h
      · exact hc13 h
      · exact hc10 h

/-- Alone, the thread returns, and no call of `trim` or `strcmp` is passed a `NULL` token. -/
def TokensFound (input : ι → List UInt8) (t : ι) : Prop :=
  (∀ s, ((parseRuns input).only t).Reachable s → ¬ (s.threads t).pc.NullToken) ∧
    ∃ s, ((parseRuns input).only t).Reachable s ∧ (s.threads t).pc = .finished

theorem not_tokensFound {input : ι → List UInt8} {t : ι} {line : List UInt8}
    (hline : line ∈ headerLines (input t)) (hno : ¬ Tokenizes line) : ¬ TokensFound input t := by
  rintro ⟨hnever, -⟩
  obtain ⟨s, hs, -, hnull⟩ := (alone_cases input t).2 fun hall => hno (hall line hline)
  exact hnever s hs hnull

/-- **When `strtok` finds its tokens**: exactly when every header line has a key, a colon behind it and
a character other than the end of the line behind that. -/
theorem no_null_token_iff (input : ι → List UInt8) (t : ι) :
    TokensFound input t ↔ ∀ line ∈ headerLines (input t), KeyAndValue line := by
  constructor
  · intro h line hline
    rw [← tokenizes_iff]
    by_contra hno
    exact not_tokensFound hline hno h
  · intro hall
    obtain ⟨r, hr, hdone, -⟩ := (alone_cases input t).1 fun line hline =>
      tokenizes_iff.mpr (hall line hline)
    exact ⟨fun s hs => not_nullToken_of_finished hs hr hdone, r, hr, hdone⟩

/-- A client that ends its lines, and the header section, with a bare newline. -/
def bareNewline : List UInt8 := literal "GET http://a.org/ HTTP/1.0\nAccept: text\n\n"

theorem bareNewline_null_token : ¬ TokensFound (fun _ : Unit => bareNewline) () := by
  have hline : literal "\n" ∈ headerLines bareNewline := by
    decide +kernel
  refine not_tokensFound hline fun h => ?_
  exact absurd h.2 (by decide)

end SystemProgramming.ProxyLab
