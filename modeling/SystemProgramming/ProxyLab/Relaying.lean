import SystemProgramming.ProxyLab.Response
import SystemProgramming.ProxyLab.Rio

/-!
# The proxy's loops over real connections

`parse_request` and `forward_response` read through the Rio package and `forward_response` writes
through it.  The modules on parsing and relaying take lines and blocks as they come from a stream that
is at hand; here the same loops run on connections that deliver and accept in pieces.

* `rioHeaderLines_eq` : `parse_request` reads the same lines from every delivery of a request.
* `relayRio_spec` : `forward_response` relays and keeps the same bytes for every delivery of a
  response and every acceptance of it.
-/

namespace SystemProgramming.ProxyLab

open Schedules
open SystemProgramming.CString (literal)

/-! ### `rio_readn` and `rio_writen` -/

/-- `rio_readn` fails, having moved fewer bytes than asked for, or returns as many as asked for and
there are. -/
theorem rioReadn_spec {n : ℕ} {stream got rest : List UInt8} {calls calls' : List Call} {rc : ℤ}
    (h : rioReadn n stream calls = some (rc, got, rest, calls')) :
    got ++ rest = stream ∧
      ((rc = -1 ∧ got.length < n ∧ .failed ∈ calls) ∨ (rc = got.length ∧ got = stream.take n)) := by
  obtain ⟨⟨failed, r⟩, hd, heq⟩ := Option.map_eq_some_iff.mp h
  cases heq
  obtain ⟨hsplit, -, hok, hfail⟩ := drain_spec hd
  refine ⟨hsplit, ?_⟩
  cases failed with
  | true => exact Or.inl ⟨rfl, hfail rfl⟩
  | false => exact Or.inr ⟨rfl, hok rfl⟩

/-- `rio_writen` fails, having written fewer bytes than asked for, or writes them all. -/
theorem rioWriten_spec {usrbuf sent : List UInt8} {calls calls' : List Call} {rc : ℤ}
    (h : rioWriten usrbuf calls = some (rc, sent, calls')) : sent <+: usrbuf ∧ calls' <:+ calls ∧
      ((rc = -1 ∧ sent.length < usrbuf.length ∧ .failed ∈ calls) ∨
        (rc = usrbuf.length ∧ sent = usrbuf)) := by
  obtain ⟨⟨failed, taken, rest, calls''⟩, hd, heq⟩ := Option.map_eq_some_iff.mp h
  cases heq
  obtain ⟨hsplit, hsuf, hok, hfail⟩ := drain_spec hd
  refine ⟨⟨rest, hsplit⟩, hsuf, ?_⟩
  cases failed with
  | true => exact Or.inl ⟨rfl, hfail rfl⟩
  | false => exact Or.inr ⟨rfl, (hok rfl).trans List.take_length⟩

/-- No more calls of `write` transfer bytes than there are bytes. -/
theorem rioWriten_moves {usrbuf sent : List UInt8} {calls calls' : List Call} {rc : ℤ}
    (h : rioWriten usrbuf calls = some (rc, sent, calls')) :
    moves calls ≤ moves calls' + sent.length := by
  obtain ⟨⟨failed, taken, rest, calls''⟩, hd, heq⟩ := Option.map_eq_some_iff.mp h
  cases heq
  exact drain_moves hd (le_refl _)

/-! ### The lines of a request -/

/-- The loop of `parse_request`: the lines it parses, and the connection when it has left the loop;
`none` when a call has not returned or has ended the process. -/
def rioHeaderLines : ℕ → Conn → Option (List (List UInt8) × Conn)
  | 0, _ => none
  | fuel + 1, c =>
    match rioReadlineb maxLine c with
    | none => none
    | some (rc, written, c) =>
      if rc < 0 then none
      else if rc = 0 then some ([], c)
      else if lineText (written.take rc.toNat) = endLine then some ([], c)
      else (rioHeaderLines fuel c).map fun r => (written.take rc.toNat :: r.1, r.2)

/-- The lines that `parse_request` reads: the request line, and those of its loop. -/
def rioRequest (fuel : ℕ) (c : Conn) : Option (List UInt8 × List (List UInt8)) :=
  match rioReadlineb maxLine c with
  | none => none
  | some (rc, written, c) =>
    if rc < 0 then none
    else (rioHeaderLines fuel c).map fun r => (written.take rc.toNat, r.1)

/-- A call of `Rio_readlineb` on a connection that does not fail. -/
theorem readlineb_ok {c c' : Conn} {rc : ℤ} {written : List UInt8} (hv : c.Valid)
    (hok : NoFailure c.calls) (h : rioReadlineb maxLine c = some (rc, written, c')) :
    c'.Valid ∧ NoFailure c'.calls ∧ rc = (readLine (maxLine - 1) c.pending).1.length ∧
      written.take rc.toNat = (readLine (maxLine - 1) c.pending).1 ∧
      Took c c' (readLine (maxLine - 1) c.pending).1 (readLine (maxLine - 1) c.pending).2 := by
  obtain ⟨hv', hsuf, hres⟩ := RioCall.run_spec (.readlineb maxLine) hv h
  rcases hres with ⟨-, hcut⟩ | ⟨hres, htook⟩
  · exact absurd hcut.failed hok
  · have hrc : rc = (readLine (maxLine - 1) c.pending).1.length := congrArg Prod.fst hres
    have hrec : received (rc, written) = written.take rc.toNat := if_neg (by dsimp only; omega)
    have hline : written.take rc.toNat = (readLine (maxLine - 1) c.pending).1 := by
      have hsplit := readLine_append (maxLine - 1) c.pending
      have htake := htook.split
      rw [hrec] at htake
      exact List.append_cancel_right (htake.trans hsplit.symm)
    rw [hrec, hline] at htook
    exact ⟨hv', fun hin => hok (hsuf.subset hin), hrc, hline, htook⟩

theorem rioHeaderLines_spec {fuel : ℕ} {c : Conn} (hv : c.Valid) (hok : NoFailure c.calls)
    (hfuel : c.pending.length < fuel) :
    (∀ lines c', rioHeaderLines fuel c = some (lines, c') →
      lines = headerLinesFrom fuel c.pending) ∧
    (c.Enough fuel → (rioHeaderLines fuel c).isSome) := by
  induction fuel generalizing c with
  | zero => omega
  | succ fuel ih =>
    rw [rioHeaderLines]
    cases hr : rioReadlineb maxLine c with
    | none =>
      refine ⟨fun lines c' h => (by cases h), fun henough => ?_⟩
      have hsome := RioCall.run_isSome (.readlineb maxLine) hv henough
      rw [RioCall.run, hr] at hsome
      cases hsome
    | some x =>
      obtain ⟨rc, written, d⟩ := x
      obtain ⟨hvd, hokd, hrc, hline, htook⟩ := readlineb_ok hv hok hr
      dsimp only
      rw [hline, if_neg (by omega), headerLinesFrom]
      have hnil : rc = 0 ↔ (readLine (maxLine - 1) c.pending).1 = [] := by
        rw [hrc, ← List.length_eq_zero_iff]
        omega
      split
      · next h0 =>
        refine ⟨fun lines c' h => ?_, fun _ => rfl⟩
        cases h
        exact (if_pos (Or.inl (hnil.mp h0))).symm
      · next h0 =>
        split
        · next hend =>
          refine ⟨fun lines c' h => ?_, fun _ => rfl⟩
          cases h
          exact (if_pos (Or.inr hend)).symm
        · next hend =>
          have hlen := congrArg List.length htook.split
          have hpos := List.length_pos_iff.mpr fun hc => h0 (hnil.mpr hc)
          rw [List.length_append] at hlen
          have hd := ih hvd hokd (by rw [htook.pending]; omega)
          refine ⟨fun lines c' h => ?_, fun henough => ?_⟩
          · obtain ⟨⟨lines', c''⟩, hl, heq⟩ := Option.map_eq_some_iff.mp h
            cases heq
            rw [hd.1 _ _ hl, htook.pending]
            exact (if_neg (not_or.mpr ⟨fun hc => h0 (hnil.mpr hc), hend⟩)).symm
          · rw [Option.isSome_map]
            exact hd.2 (htook.enough _ henough)

/-- More rounds than there are bytes make no difference. -/
theorem headerLinesFrom_fuel {fuel fuel' : ℕ} {input : List UInt8} (h : input.length < fuel)
    (h' : input.length < fuel') : headerLinesFrom fuel input = headerLinesFrom fuel' input := by
  induction fuel generalizing fuel' input with
  | zero => omega
  | succ fuel ih =>
    cases fuel' with
    | zero => omega
    | succ fuel' =>
      rw [headerLinesFrom, headerLinesFrom]
      split
      · rfl
      · next hne =>
        have hlen := congrArg List.length (readLine_append (maxLine - 1) input)
        have hpos := List.length_pos_iff.mpr fun hc => hne (Or.inl hc)
        rw [List.length_append] at hlen
        exact congrArg (List.cons _) (ih (by omega) (by omega))

/-- **The lines of a request.**  However the request arrives, `parse_request` reads the request line
and the header lines of the stream; it has returned once `read` has delivered twice for every byte and
twice more. -/
theorem rioHeaderLines_eq (buf input : List UInt8) (calls : List Call) (hbuf : buf.length = rioBufsize)
    (hok : NoFailure calls) :
    (∀ fuel r, input.length < fuel → rioRequest fuel (rioReadinitb buf input calls) = some r →
      r = (requestLine input, headerLines input)) ∧
    (2 * input.length + 2 ≤ moves calls →
      (rioRequest (input.length + 1) (rioReadinitb buf input calls)).isSome) := by
  have hv := rioReadinitb_valid hbuf input calls
  cases hr : rioReadlineb maxLine (rioReadinitb buf input calls) with
  | none =>
    refine ⟨fun fuel r _ h => ?_, fun hmoves => ?_⟩
    · rw [rioRequest, hr] at h
      cases h
    · have henough : (rioReadinitb buf input calls).Enough (input.length + 2) := by
        show input.length + (input.length + 2) ≤ moves calls
        omega
      have hsome := RioCall.run_isSome (.readlineb maxLine) hv henough
      rw [RioCall.run, hr] at hsome
      cases hsome
  | some x =>
    obtain ⟨rc, written, d⟩ := x
    obtain ⟨hvd, hokd, hrc, hline, htook⟩ := readlineb_ok hv hok hr
    rw [rioReadinitb_pending] at hrc hline htook
    have hlen := congrArg List.length (readLine_append (maxLine - 1) input)
    rw [List.length_append] at hlen
    have hpend := htook.pending
    refine ⟨fun fuel r hfuel h => ?_, fun hmoves => ?_⟩
    · rw [rioRequest, hr] at h
      dsimp only at h
      rw [if_neg (by omega), hline] at h
      obtain ⟨⟨lines, c'⟩, hl, heq⟩ := Option.map_eq_some_iff.mp h
      cases heq
      have hlines := (rioHeaderLines_spec hvd hokd (by rw [hpend]; omega)).1 _ _ hl
      have hfuel' : headerLinesFrom fuel (readLine (maxLine - 1) input).2 = headerLines input :=
        headerLinesFrom_fuel (by omega) (by omega)
      rw [hpend, hfuel'] at hlines
      exact congrArg (Prod.mk _) hlines
    · have henough : (rioReadinitb buf input calls).Enough (input.length + 2) := by
        show input.length + (input.length + 2) ≤ moves calls
        omega
      rw [rioRequest, hr]
      dsimp only
      rw [if_neg (by omega), Option.isSome_map]
      exact (rioHeaderLines_spec hvd hokd (by rw [hpend]; omega)).2 (htook.enough _ henough)

theorem rioHeaderLines_eq_get : ∃ r, rioRequest 33 (rioReadinitb (List.replicate rioBufsize 0)
      (literal "GET http://a/ HTTP/1.0\r\nA: b\r\n\r\n") (List.replicate 70 (.upTo 2))) = some r ∧
    r = (literal "GET http://a/ HTTP/1.0\r\n", [literal "A: b\r\n"]) := by
  have hlen : (literal "GET http://a/ HTTP/1.0\r\nA: b\r\n\r\n").length = 32 := by decide
  have hok : NoFailure (List.replicate 70 (Call.upTo 2)) := by
    intro h
    cases List.eq_of_mem_replicate h
  obtain ⟨hspec, hsome⟩ := rioHeaderLines_eq (List.replicate rioBufsize 0)
    (literal "GET http://a/ HTTP/1.0\r\nA: b\r\n\r\n") (List.replicate 70 (.upTo 2))
    List.length_replicate hok
  have hmoves : moves (List.replicate 70 (Call.upTo 2)) = 70 := by decide
  obtain ⟨r, hr⟩ := Option.isSome_iff_exists.mp (hsome (by rw [hlen, hmoves]; decide))
  rw [hlen] at hr
  refine ⟨r, hr, (hspec 33 r (by rw [hlen]; decide) hr).trans ?_⟩
  decide +kernel

/-! ### The relay of a response -/

/-- The loop of `forward_response`: blocks of up to `MAXLINE` bytes are read from the origin, counted
and copied, and written to the client; `none` when a call has not returned or has ended the process,
or when a copy leaves `body`.  The `printf` that traces the block is left out. -/
def relayRio : ℕ → Relay → Conn → List Call → Option (Relay × Conn × List Call)
  | 0, _, _, _ => none
  | fuel + 1, r, c, out =>
    match rioReadnb maxLine c with
    | none => none
    | some (n, buf, c) =>
      if n < 0 then none
      else if n = 0 then some (r, c, out)
      else
        match relayChunk r buf with
        | none => none
        | some r' =>
          match rioWriten buf out with
          | none => none
          | some (rc, sent, out) =>
            if rc ≠ buf.length then none else relayRio fuel { r' with sent := r.sent ++ sent } c out

/-- A call of `Rio_readnb` on a connection that does not fail. -/
theorem readnb_ok {c c' : Conn} {rc : ℤ} {written : List UInt8} (hv : c.Valid)
    (hok : NoFailure c.calls) (h : rioReadnb maxLine c = some (rc, written, c')) :
    c'.Valid ∧ NoFailure c'.calls ∧ rc = written.length ∧ written = c.pending.take maxLine ∧
      Took c c' (c.pending.take maxLine) (c.pending.drop maxLine) := by
  obtain ⟨hv', hsuf, hres⟩ := rioReadnbFrom_spec hv h
  rcases hres with ⟨-, cut, -, hcut⟩ | ⟨hrc, hwritten, htook⟩
  · exact absurd hcut.failed hok
  · rw [List.nil_append] at hrc hwritten
    exact ⟨hv', fun hin => hok (hsuf.subset hin), by rw [hrc, hwritten], hwritten, htook⟩

/-- A chunk of a response that fits. -/
theorem relayChunk_fits (done chunk : List UInt8)
    (hfit : done.length + chunk.length ≤ maxObjectSize) :
    relayChunk ⟨done.length, done ++ padding done.length, done⟩ chunk =
      some ⟨(done ++ chunk).length, done ++ chunk ++ padding (done ++ chunk).length,
        done ++ chunk⟩ := by
  have h := relay_from [chunk] done (by simpa using hfit)
  rw [relay] at h
  cases hr : relayChunk ⟨done.length, done ++ padding done.length, done⟩ chunk with
  | none =>
    rw [hr] at h
    cases h
  | some r =>
    rw [hr] at h
    have heq : some r = _ := h
    rw [heq, List.flatten_cons, List.flatten_nil, List.append_nil]

/-- **The loop.**  What it has sent when it leaves, and when it leaves. -/
theorem relayRio_from {fuel : ℕ} {r : Relay} {c : Conn} {out : List Call} (hv : c.Valid)
    (hok : NoFailure c.calls) (hout : NoFailure out) (hfuel : c.pending.length < fuel) :
    (∀ r' c' out', relayRio fuel r c out = some (r', c', out') →
      r'.sent = r.sent ++ c.pending ∧ c'.pending = []) ∧
    (∀ done, r = ⟨done.length, done ++ padding done.length, done⟩ →
      done.length + c.pending.length ≤ maxObjectSize →
      (∀ r' c' out', relayRio fuel r c out = some (r', c', out') →
        r' = ⟨(done ++ c.pending).length, done ++ c.pending ++ padding (done ++ c.pending).length,
          done ++ c.pending⟩) ∧
      (c.Enough fuel → c.pending.length ≤ moves out → (relayRio fuel r c out).isSome)) := by
  induction fuel generalizing r c out with
  | zero => omega
  | succ fuel ih =>
    have hmax : maxLine = 8192 := rfl
    rw [relayRio]
    cases hr : rioReadnb maxLine c with
    | none =>
      refine ⟨fun r' c' out' h => (by cases h), fun done hdone hfit =>
        ⟨fun r' c' out' h => (by cases h), fun henough _ => ?_⟩⟩
      have hsome := RioCall.run_isSome (.readnb maxLine) hv henough
      rw [RioCall.run, hr] at hsome
      cases hsome
    | some x =>
      obtain ⟨n, buf, d⟩ := x
      obtain ⟨hvd, hokd, hn, hbuf, htook⟩ := readnb_ok hv hok hr
      rw [← hbuf] at htook
      dsimp only
      rw [if_neg (by omega)]
      have hsplit := htook.split
      have hpend := htook.pending
      by_cases h0 : n = 0
      · -- the end of the response
        rw [if_pos h0]
        have hnil : buf = [] := List.length_eq_zero_iff.mp (by omega)
        have hnone : c.pending = [] := by
          rcases List.take_eq_nil_iff.mp (hbuf.symm.trans hnil) with h | h
          · omega
          · exact h
        have hleft : d.pending = [] := by
          rw [hpend, hnone]
          rfl
        rw [hnone]
        refine ⟨fun r' c' out' h => ?_, fun done hdone hfit => ⟨fun r' c' out' h => ?_, fun _ _ => rfl⟩⟩
        · cases h
          exact ⟨(List.append_nil _).symm, hleft⟩
        · cases h
          rw [List.append_nil, hdone]
      · rw [if_neg h0]
        have hpos : 0 < buf.length := by omega
        have hlen := congrArg List.length hsplit
        rw [List.length_append, ← hpend] at hlen
        rw [← hpend] at hsplit
        cases hchunk : relayChunk r buf with
        | none =>
          refine ⟨fun r' c' out' h => (by cases h), fun done hdone hfit => ?_⟩
          rw [hdone, relayChunk_fits done buf (by omega)] at hchunk
          cases hchunk
        | some r₁ =>
          dsimp only
          cases hw : rioWriten buf out with
          | none =>
            refine ⟨fun r' c' out' h => (by cases h), fun done hdone hfit =>
              ⟨fun r' c' out' h => (by cases h), fun _ hmoves => ?_⟩⟩
            have hsome : (rioWriten buf out).isSome := by
              rw [rioWriten, Option.isSome_map]
              exact drain_isSome (by omega)
            rw [hw] at hsome
            cases hsome
          | some y =>
            obtain ⟨rc, sent, out₁⟩ := y
            obtain ⟨-, hsuf, hres⟩ := rioWriten_spec hw
            obtain ⟨hrc, rfl⟩ : rc = buf.length ∧ sent = buf := by
              rcases hres with ⟨-, -, hfail⟩ | hall
              · exact absurd hfail hout
              · exact hall
            dsimp only
            rw [if_neg (not_not.mpr hrc)]
            have hout₁ : NoFailure out₁ := fun hin => hout (hsuf.subset hin)
            have hgo := ih (r := { r₁ with sent := r.sent ++ sent }) hvd hokd hout₁ (by omega)
            refine ⟨fun r' c' out' h => ?_, fun done hdone hfit => ?_⟩
            · obtain ⟨hsent, hleft⟩ := hgo.1 r' c' out' h
              refine ⟨?_, hleft⟩
              rw [hsent, ← hsplit, List.append_assoc]
            · rw [hdone, relayChunk_fits done sent (by omega)] at hchunk
              cases hchunk
              have hstep := hgo.2 (done ++ sent) (by rw [hdone]) (by
                rw [List.length_append]
                omega)
              have hjoin : done ++ sent ++ d.pending = done ++ c.pending := by
                rw [List.append_assoc, hsplit]
              rw [hjoin] at hstep
              refine ⟨hstep.1, fun henough hmoves => hstep.2 (htook.enough _ henough) ?_⟩
              have hspent := rioWriten_moves hw
              omega

/-- **The relay of a response.**  However the origin's response arrives and however the client takes
it, `forward_response` sends the client exactly the response; one of at most `MAX_OBJECT_SIZE` bytes is
also counted and copied as a whole, and the loop leaves once `read` and `write` have moved enough. -/
theorem relayRio_spec (buf response : List UInt8) (calls out : List Call) (fuel : ℕ)
    (hbuf : buf.length = rioBufsize) (hok : NoFailure calls) (hout : NoFailure out)
    (hfuel : response.length < fuel) :
    (∀ r c out', relayRio fuel relayStart (rioReadinitb buf response calls) out = some (r, c, out') →
      r.sent = response ∧ c.pending = [] ∧
        (response.length ≤ maxObjectSize →
          r.size = response.length ∧ r.body = response ++ padding response.length)) ∧
    (response.length ≤ maxObjectSize → response.length + fuel ≤ moves calls →
      response.length ≤ moves out →
      (relayRio fuel relayStart (rioReadinitb buf response calls) out).isSome) := by
  have hv := rioReadinitb_valid hbuf response calls
  have hgo := relayRio_from (r := relayStart) hv hok hout hfuel
  rw [rioReadinitb_pending] at hgo
  have hstart : relayStart = ⟨([] : List UInt8).length, [] ++ padding ([] : List UInt8).length, []⟩ :=
    rfl
  refine ⟨fun r c out' h => ?_, fun hfit hmoves hmoves' => ?_⟩
  · obtain ⟨hsent, hleft⟩ := hgo.1 r c out' h
    refine ⟨hsent, hleft, fun hfit => ?_⟩
    have hr := (hgo.2 [] hstart (by rw [List.length_nil]; omega)).1 r c out' h
    rw [hr, List.nil_append]
    exact ⟨rfl, rfl⟩
  · exact (hgo.2 [] hstart (by rw [List.length_nil]; omega)).2 hmoves hmoves'

theorem relayRio_spec_hello : ∃ r c out', relayRio 6 relayStart (rioReadinitb
      (List.replicate rioBufsize 0) (literal "hello") (List.replicate 11 (.upTo 1)))
      (List.replicate 5 (.upTo 0)) = some (r, c, out') ∧ r.sent = literal "hello" := by
  have hlen : (literal "hello").length = 5 := by decide
  have hmoves : moves (List.replicate 11 (Call.upTo 1)) = 11 := by decide
  have hmoves' : moves (List.replicate 5 (Call.upTo 0)) = 5 := by decide
  have hok : ∀ n k, NoFailure (List.replicate n (Call.upTo k)) := by
    intro n k h
    cases List.eq_of_mem_replicate h
  have hmax : maxObjectSize = 10970 := rfl
  obtain ⟨hspec, hsome⟩ := relayRio_spec (List.replicate rioBufsize 0) (literal "hello")
    (List.replicate 11 (.upTo 1)) (List.replicate 5 (.upTo 0)) 6 List.length_replicate (hok 11 1)
    (hok 5 0) (by rw [hlen]; decide)
  obtain ⟨⟨r, c, out'⟩, h⟩ := Option.isSome_iff_exists.mp
    (hsome (by omega) (by rw [hlen, hmoves]) (by rw [hlen, hmoves']))
  exact ⟨r, c, out', h, (hspec r c out' h).1⟩

end SystemProgramming.ProxyLab
