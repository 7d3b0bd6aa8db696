import SystemProgramming.Library.Schedules
import SystemProgramming.ProxyLab.HeaderLines

/-!
# The Rio package (`csapp.c`)

`read` hands over what has arrived, in pieces of any size, and may be interrupted; `rio_read` keeps
what it got in a buffer from which lines and blocks are taken.  A connection is the buffer, the bytes
that the peer has still to send before it closes, and the schedule of the calls of `read`.

* `rioReadlineb`, `rioReadnb`, `rioReadn`, `rioWriten` : the functions of the package.
* `Conn.pending` : the bytes a connection still has for its reader, buffered or not.
* `rioReadlineb_spec`, `rioReadnb_spec` : one call takes a line or a block from the pending bytes.
* `rioCalls_stored` : no sequence of calls loses or duplicates a byte, failures included.
* `rioCalls_eq_ideal` : without failures the schedule can not be noticed.
-/

namespace SystemProgramming.ProxyLab

open Schedules

/-! ### The package -/

/-- `RIO_BUFSIZE`. -/
def rioBufsize : ℕ := 8192

/-- `rio_t` without its descriptor. -/
structure Rio where
  cnt : ℤ
  bufptr : ℕ
  buf : List UInt8

/-- A `rio_t`, the bytes its descriptor has still to deliver, and what becomes of the calls of
`read`. -/
structure Conn where
  rio : Rio
  rest : List UInt8
  calls : List Call

/-- `rio_readinitb` on a `rio_t` whose buffer holds `buf`. -/
def rioReadinitb (buf stream : List UInt8) (calls : List Call) : Conn := ⟨⟨0, 0, buf⟩, stream, calls⟩

/-- How the loop of `rio_read` ends. -/
inductive Fill
  | ready
  | eof
  | failed
  deriving DecidableEq

/-- The loop of `rio_read`, which refills an empty buffer. -/
def refill (rp : Rio) (rest : List UInt8) : List Call → Option (Fill × Conn)
  | [] => if 0 < rp.cnt then some (.ready, ⟨rp, rest, []⟩) else none
  | .upTo k :: calls =>
    if 0 < rp.cnt then some (.ready, ⟨rp, rest, .upTo k :: calls⟩)
    else if piece rioBufsize k rest = [] then some (.eof, ⟨{ rp with cnt := 0 }, rest, calls⟩)
    else some (.ready, ⟨⟨(piece rioBufsize k rest).length, 0, piece rioBufsize k rest ++
      rp.buf.drop (piece rioBufsize k rest).length⟩, rest.drop (piece rioBufsize k rest).length, calls⟩)
  | .interrupted :: calls =>
    if 0 < rp.cnt then some (.ready, ⟨rp, rest, .interrupted :: calls⟩)
    else refill { rp with cnt := -1 } rest calls
  | .failed :: calls =>
    if 0 < rp.cnt then some (.ready, ⟨rp, rest, .failed :: calls⟩)
    else some (.failed, ⟨{ rp with cnt := -1 }, rest, calls⟩)

/-- `rio_read`: the value returned and the bytes stored in `usrbuf`. -/
def rioRead (n : ℕ) (c : Conn) : Option (ℤ × List UInt8 × Conn) :=
  match refill c.rio c.rest c.calls with
  | none => none
  | some (.failed, c) => some (-1, [], c)
  | some (.eof, c) => some (0, [], c)
  | some (.ready, c) =>
    let cnt : ℤ := if c.rio.cnt < n then c.rio.cnt else n
    some (cnt, (c.rio.buf.drop c.rio.bufptr).take cnt.toNat,
      { c with rio := ⟨c.rio.cnt - cnt, c.rio.bufptr + cnt.toNat, c.rio.buf⟩ })

/-- The loop of `rio_readlineb` with `left` iterations to go, after `line` has been stored. -/
def rioReadlinebFrom : ℕ → List UInt8 → Conn → Option (ℤ × List UInt8 × Conn)
  | 0, line, c => some (line.length, line ++ [0], c)
  | left + 1, line, c =>
    match rioRead 1 c with
    | none => none
    | some (rc, out, c) =>
      if rc = 1 then
        if out = [10] then some (line.length + 1, line ++ out ++ [0], c)
        else rioReadlinebFrom left (line ++ out) c
      else if rc = 0 then
        if line = [] then some (0, [], c) else some (line.length, line ++ [0], c)
      else some (-1, line, c)

/-- `rio_readlineb`: the value returned and the bytes stored in `usrbuf`. -/
def rioReadlineb (maxlen : ℕ) (c : Conn) : Option (ℤ × List UInt8 × Conn) :=
  rioReadlinebFrom (maxlen - 1) [] c

/-- The loop of `rio_readnb` with `nleft` bytes to go, after `done` has been stored.  An iteration
that does not leave the loop makes `nleft` smaller. -/
def rioReadnbFrom : ℕ → ℕ → List UInt8 → Conn → Option (ℤ × List UInt8 × Conn)
  | _, 0, done, c => some (done.length, done, c)
  | 0, _ + 1, _, _ => none
  | fuel + 1, nleft + 1, done, c =>
    match rioRead (nleft + 1) c with
    | none => none
    | some (nread, out, c) =>
      if nread < 0 then some (-1, done, c)
      else if nread = 0 then some (done.length, done, c)
      else rioReadnbFrom fuel (nleft + 1 - nread.toNat) (done ++ out) c

/-- `rio_readnb`. -/
def rioReadnb (n : ℕ) (c : Conn) : Option (ℤ × List UInt8 × Conn) := rioReadnbFrom n n [] c

/-- `rio_readn`, on a descriptor that has `stream` to deliver. -/
def rioReadn (n : ℕ) (stream : List UInt8) (calls : List Call) :
    Option (ℤ × List UInt8 × List UInt8 × List Call) :=
  (drain calls n stream).map fun r => (if r.1 then -1 else r.2.1.length, r.2)

/-- `rio_writen`: the value returned and the bytes written.  A `write` of at least one byte does not
return 0. -/
def rioWriten (usrbuf : List UInt8) (calls : List Call) : Option (ℤ × List UInt8 × List Call) :=
  (drain calls usrbuf.length usrbuf).map fun r =>
    (if r.1 then -1 else usrbuf.length, r.2.1, r.2.2.2)

/-! ### `rio_read` -/

namespace Conn

/-- The bytes in the buffer that have not been handed over. -/
def unread (c : Conn) : List UInt8 := (c.rio.buf.drop c.rio.bufptr).take c.rio.cnt.toNat

/-- The bytes the connection still has for its reader. -/
def pending (c : Conn) : List UInt8 := c.unread ++ c.rest

/-- The counter and the pointer stay inside the buffer. -/
structure Valid (c : Conn) : Prop where
  size : c.rio.buf.length = rioBufsize
  fits : 0 < c.rio.cnt → c.rio.bufptr + c.rio.cnt.toNat ≤ rioBufsize

/-- The schedule has a transfer for every byte to come and for `k` ends of file. -/
def Enough (k : ℕ) (c : Conn) : Prop := c.rest.length + k ≤ moves c.calls

theorem unread_eq_nil {c : Conn} (h : ¬ 0 < c.rio.cnt) : c.unread = [] := by
  have h0 : c.rio.cnt.toNat = 0 := by omega
  rw [unread, h0, List.take_zero]

end Conn

theorem rioReadinitb_pending (buf stream : List UInt8) (calls : List Call) :
    (rioReadinitb buf stream calls).pending = stream := rfl

/-- What the refill loop leaves. -/
structure Refilled (f : Fill) (c c' : Conn) : Prop where
  valid : c'.Valid
  suffix : c'.calls <:+ c.calls
  pending : c'.pending = c.pending
  ready : f = .ready → 0 < c'.rio.cnt ∧ ∀ k, c.Enough k → c'.Enough k
  eof : f = .eof → c.pending = [] ∧ ∀ k, c.Enough (k + 1) → c'.Enough k
  failed : f = .failed → .failed ∈ c.calls

theorem refill_spec {rp : Rio} {rest : List UInt8} {calls : List Call} {f : Fill} {c' : Conn}
    (hv : Conn.Valid ⟨rp, rest, calls⟩) (h : refill rp rest calls = some (f, c')) :
    Refilled f ⟨rp, rest, calls⟩ c' := by
  by_cases hcnt : 0 < rp.cnt
  · have hsame : refill rp rest calls = some (.ready, ⟨rp, rest, calls⟩) := by
      cases calls with
      | nil => exact if_pos hcnt
      | cons call calls => cases call <;> exact if_pos hcnt
    rw [hsame] at h
    cases h
    exact ⟨hv, List.suffix_refl _, rfl, fun _ => ⟨hcnt, fun _ hk => hk⟩, by simp, by simp⟩
  induction calls generalizing rp with
  | nil =>
    rw [refill, if_neg hcnt] at h
    cases h
  | cons call calls ih =>
    have hnil : Conn.unread ⟨rp, rest, call :: calls⟩ = [] := Conn.unread_eq_nil hcnt
    have hpend : Conn.pending ⟨rp, rest, call :: calls⟩ = rest := by
      rw [Conn.pending, hnil]
      rfl
    cases call with
    | upTo k =>
      rw [refill, if_neg hcnt] at h
      have happ := piece_append rioBufsize k rest
      have hlen := length_piece_le rioBufsize k rest
      have hempty : piece rioBufsize k rest = [] ↔ rest = [] := piece_eq_nil_iff (by decide)
      generalize piece rioBufsize k rest = got at h happ hlen hempty
      split at h
      · next hgot =>
        cases h
        have hrest := hempty.mp hgot
        refine ⟨⟨hv.size, fun h0 => absurd h0 (Int.lt_irrefl 0)⟩, List.suffix_cons _ _, ?_, by simp,
          fun _ => ⟨hpend.trans hrest, fun j hj => ?_⟩, by simp⟩
        · rw [hpend]
          rfl
        · have hj' : rest.length + (j + 1) ≤ moves calls + 1 := hj
          show rest.length + j ≤ moves calls
          omega
      · next hgot =>
        cases h
        have hpos := List.length_pos_iff.mpr hgot
        have hlenrest := congrArg List.length happ
        rw [List.length_append] at hlenrest
        have hsize := hv.size
        refine ⟨⟨?_, fun _ => ?_⟩, List.suffix_cons _ _, ?_,
          fun _ => ⟨Int.natCast_pos.mpr hpos, fun j hj => ?_⟩, by simp, by simp⟩
        · show (got ++ rp.buf.drop got.length).length = rioBufsize
          have hsize' : rp.buf.length = rioBufsize := hsize
          rw [List.length_append, List.length_drop, hsize']
          omega
        · show 0 + (got.length : ℤ).toNat ≤ rioBufsize
          omega
        · rw [hpend]
          show ((got ++ rp.buf.drop got.length).drop 0).take (got.length : ℤ).toNat ++
            rest.drop got.length = rest
          rw [List.drop_zero, Int.toNat_natCast, List.take_left, happ]
        · have hj' : rest.length + j ≤ moves calls + 1 := hj
          show (rest.drop got.length).length + j ≤ moves calls
          omega
    | interrupted =>
      rw [refill, if_neg hcnt] at h
      have hneg : ¬ 0 < ({ rp with cnt := -1 } : Rio).cnt := Int.not_lt.mpr (Int.negSucc_lt_zero 0).le
      have r := @ih { rp with cnt := -1 } ⟨hv.size, fun h0 => absurd h0 hneg⟩ h hneg
      have hnil' : Conn.unread ⟨{ rp with cnt := -1 }, rest, calls⟩ = [] := Conn.unread_eq_nil hneg
      have hsame : Conn.pending ⟨{ rp with cnt := -1 }, rest, calls⟩ =
          Conn.pending ⟨rp, rest, .interrupted :: calls⟩ := by
        rw [hpend, Conn.pending, hnil']
        rfl
      exact ⟨r.valid, r.suffix.trans (List.suffix_cons _ _), r.pending.trans hsame, r.ready,
        fun he => ⟨hsame.symm.trans (r.eof he).1, (r.eof he).2⟩, fun hf => List.mem_cons_of_mem _ (r.failed hf)⟩
    | failed =>
      rw [refill, if_neg hcnt] at h
      cases h
      have hneg : ¬ 0 < ({ rp with cnt := -1 } : Rio).cnt := Int.not_lt.mpr (Int.negSucc_lt_zero 0).le
      refine ⟨⟨hv.size, fun h0 => absurd h0 hneg⟩, List.suffix_cons _ _, ?_, by simp, by simp,
        fun _ => List.mem_cons_self⟩
      rw [hpend, Conn.pending, Conn.unread_eq_nil hneg]
      rfl

/-- The loop returns when the schedule has one more transfer. -/
theorem refill_isSome (rp : Rio) (rest : List UInt8) {calls : List Call} (h : 0 < moves calls) :
    (refill rp rest calls).isSome := by
  induction calls generalizing rp with
  | nil => cases h
  | cons call calls ih =>
    cases call with
    | upTo k =>
      rw [refill]
      split
      · rfl
      · split <;> rfl
    | interrupted =>
      rw [refill]
      split
      · rfl
      · exact ih _ h
    | failed =>
      rw [refill]
      split <;> rfl

/-- What a call of `rio_read` for at least one byte returns. -/
inductive ReadResult (n : ℕ) (c : Conn) : ℤ → List UInt8 → Conn → Prop
  | failed {c' : Conn} (hsame : c'.pending = c.pending) (hin : .failed ∈ c.calls) :
      ReadResult n c (-1) [] c'
  | eof {c' : Conn} (hnone : c.pending = []) (hnone' : c'.pending = [])
      (henough : ∀ k, c.Enough (k + 1) → c'.Enough k) : ReadResult n c 0 [] c'
  | got {out : List UInt8} {c' : Conn} (hout : out ≠ []) (hle : out.length ≤ n)
      (hsplit : out ++ c'.pending = c.pending) (henough : ∀ k, c.Enough k → c'.Enough k) :
      ReadResult n c out.length out c'

theorem rioRead_spec {n : ℕ} {c c' : Conn} {r : ℤ} {out : List UInt8} (hn : 0 < n) (hv : c.Valid)
    (h : rioRead n c = some (r, out, c')) :
    c'.Valid ∧ c'.calls <:+ c.calls ∧ ReadResult n c r out c' := by
  rw [rioRead] at h
  cases hf : refill c.rio c.rest c.calls with
  | none =>
    rw [hf] at h
    cases h
  | some x =>
    obtain ⟨f, d⟩ := x
    rw [hf] at h
    have hr : Refilled f c d := refill_spec hv hf
    cases f with
    | failed =>
      cases h
      exact ⟨hr.valid, hr.suffix, .failed hr.pending (hr.failed rfl)⟩
    | eof =>
      cases h
      obtain ⟨hnone, henough⟩ := hr.eof rfl
      exact ⟨hr.valid, hr.suffix, .eof hnone (hr.pending.trans hnone) henough⟩
    | ready =>
      obtain ⟨hpos, henough⟩ := hr.ready rfl
      have hfits := hr.valid.fits hpos
      have hsize := hr.valid.size
      dsimp only at h
      generalize hcnt : (if d.rio.cnt < n then d.rio.cnt else (n : ℤ)) = cnt at h
      cases h
      have hbounds : 0 < r ∧ r ≤ d.rio.cnt ∧ r ≤ n := by
        split at hcnt <;> omega
      have hlen : ((d.rio.buf.drop d.rio.bufptr).take r.toNat).length = r.toNat := by
        rw [List.length_take, List.length_drop]
        omega
      have hback : ((((d.rio.buf.drop d.rio.bufptr).take r.toNat).length : ℕ) : ℤ) = r := by
        rw [hlen]
        omega
      refine ⟨⟨hsize, fun _ => ?_⟩, hr.suffix, ?_⟩
      · show d.rio.bufptr + r.toNat + (d.rio.cnt - r).toNat ≤ rioBufsize
        omega
      · have hres : ReadResult n c
            (((d.rio.buf.drop d.rio.bufptr).take r.toNat).length : ℕ)
            ((d.rio.buf.drop d.rio.bufptr).take r.toNat)
            { d with rio := ⟨d.rio.cnt - r, d.rio.bufptr + r.toNat, d.rio.buf⟩ } := by
          refine .got (fun hnil => ?_) (by rw [hlen]; omega) ?_ henough
          · rw [hnil, List.length_nil] at hlen
            omega
          · rw [← hr.pending]
            show (d.rio.buf.drop d.rio.bufptr).take r.toNat ++
              ((d.rio.buf.drop (d.rio.bufptr + r.toNat)).take (d.rio.cnt - r).toNat ++ d.rest) =
              (d.rio.buf.drop d.rio.bufptr).take d.rio.cnt.toNat ++ d.rest
            rw [← List.append_assoc, ← List.drop_drop, show d.rio.cnt.toNat = r.toNat +
              (d.rio.cnt - r).toNat by omega, List.take_add]
        rw [hback] at hres
        exact hres

theorem rioRead_isSome {n k : ℕ} {c : Conn} (h : c.Enough (k + 1)) : (rioRead n c).isSome := by
  have hmoves : 0 < moves c.calls := by
    rw [Conn.Enough] at h
    omega
  obtain ⟨⟨f, d⟩, hf⟩ := Option.isSome_iff_exists.mp (refill_isSome c.rio c.rest hmoves)
  rw [rioRead, hf]
  cases f <;> rfl

/-! ### Lines and blocks -/

/-- What `rio_readlineb` stores for a line: at the end of the stream nothing. -/
def stored (left : ℕ) (line : List UInt8) : List UInt8 :=
  if line = [] ∧ 0 < left then [] else line ++ [0]

theorem stored_of_ne {left : ℕ} {line : List UInt8} (h : line ≠ []) : stored left line = line ++ [0] :=
  if_neg fun hc => h hc.1

/-- A call has moved the bytes `cut` to its caller and then failed. -/
structure Cut (c c' : Conn) (cut : List UInt8) : Prop where
  failed : .failed ∈ c.calls
  split : cut ++ c'.pending = c.pending

theorem Conn.Enough.pred {k : ℕ} {c : Conn} (h : c.Enough (k + 1)) : c.Enough k :=
  (Nat.add_le_add_left (Nat.le_succ k) _).trans h

/-- What one call did, when it should have taken `taken` from the pending bytes and left `rest`. -/
structure Took (c c' : Conn) (taken rest : List UInt8) : Prop where
  split : taken ++ rest = c.pending
  pending : c'.pending = rest
  enough : ∀ k, c.Enough (k + 1) → c'.Enough k

theorem rioReadlinebFrom_spec {left : ℕ} {line written : List UInt8} {c c' : Conn} {rc : ℤ}
    (hv : c.Valid) (h : rioReadlinebFrom left line c = some (rc, written, c')) :
    c'.Valid ∧ c'.calls <:+ c.calls ∧
      ((rc = -1 ∧ ∃ cut, written = line ++ cut ∧ Cut c c' cut) ∨
        (rc = (line ++ (readLine left c.pending).1).length ∧
          written = stored left (line ++ (readLine left c.pending).1) ∧
          Took c c' (readLine left c.pending).1 (readLine left c.pending).2)) := by
  induction left generalizing line c with
  | zero =>
    rw [rioReadlinebFrom] at h
    cases h
    refine ⟨hv, List.suffix_refl _, Or.inr ⟨?_, ?_, rfl, rfl, fun k hk => hk.pred⟩⟩
    · rw [readLine, List.append_nil]
    · rw [readLine, List.append_nil, stored, if_neg fun hc => Nat.lt_irrefl 0 hc.2]
  | succ left ih =>
    rw [rioReadlinebFrom] at h
    cases hr : rioRead 1 c with
    | none =>
      rw [hr] at h
      cases h
    | some x =>
      obtain ⟨r, out, d⟩ := x
      obtain ⟨hvd, hsuf, hres⟩ := rioRead_spec Nat.one_pos hv hr
      rw [hr] at h
      dsimp only at h
      cases hres with
      | failed hsame hin =>
        rw [if_neg (by decide), if_neg (by decide)] at h
        cases h
        exact ⟨hvd, hsuf, Or.inl ⟨rfl, [], (List.append_nil _).symm, hin, hsame⟩⟩
      | eof hnone hnone' henough =>
        rw [if_neg (by decide), if_pos rfl] at h
        have htook : Took c d (readLine (left + 1) c.pending).1 (readLine (left + 1) c.pending).2 := by
          rw [hnone]
          exact ⟨hnone.symm, hnone', henough⟩
        have hline : line ++ (readLine (left + 1) c.pending).1 = line := by
          rw [hnone]
          exact List.append_nil line
        rw [hline]
        split at h
        · next hnil =>
          cases h
          refine ⟨hvd, hsuf, Or.inr ⟨by rw [hnil]; rfl, ?_, htook⟩⟩
          rw [stored, if_pos ⟨hnil, Nat.succ_pos left⟩]
        · next hne =>
          cases h
          exact ⟨hvd, hsuf, Or.inr ⟨rfl, (stored_of_ne hne).symm, htook⟩⟩
      | got hout hle hsplit henough =>
        -- one character
        obtain ⟨ch, rfl⟩ : ∃ ch, out = [ch] := by
          cases out with
          | nil => exact absurd rfl hout
          | cons ch out =>
            cases out with
            | nil => exact ⟨ch, rfl⟩
            | cons _ _ => simp at hle
        have hpend : c.pending = ch :: d.pending := hsplit.symm
        rw [if_pos (by rfl)] at h
        rw [hpend, readLine]
        by_cases hch : ch = 10
        · rw [if_pos (by rw [hch])] at h
          cases h
          rw [if_pos hch]
          refine ⟨hvd, hsuf, Or.inr ⟨by simp, ?_, ?_, rfl, fun k hk => (henough _ hk).pred⟩⟩
          · rw [stored_of_ne (by simp), hch]
          · rw [hpend, hch]
            rfl
        · rw [if_neg (by simpa using hch)] at h
          rw [if_neg hch]
          obtain ⟨hv', hsuf', hres'⟩ := ih hvd h
          refine ⟨hv', hsuf'.trans hsuf, ?_⟩
          rcases hres' with ⟨hrc, cut, hwritten, hcut⟩ | ⟨hrc, hwritten, htook⟩
          · refine Or.inl ⟨hrc, ch :: cut, ?_, hsuf.subset hcut.failed, ?_⟩
            · rw [hwritten, List.append_assoc, List.singleton_append]
            · rw [hpend, List.cons_append, hcut.split]
          · refine Or.inr ⟨?_, ?_, ?_, htook.pending, fun k hk => htook.enough k (henough _ hk)⟩
            · rw [hrc, List.append_assoc, List.singleton_append]
            · rw [hwritten, stored_of_ne (by simp), stored_of_ne (by simp), List.append_assoc line,
                List.singleton_append]
            · rw [hpend]
              show ch :: ((readLine left d.pending).1 ++ (readLine left d.pending).2) = _
              rw [htook.split]

theorem rioReadlinebFrom_isSome {left k : ℕ} {line : List UInt8} {c : Conn} (hv : c.Valid)
    (h : c.Enough (k + 1)) : (rioReadlinebFrom left line c).isSome := by
  induction left generalizing line c with
  | zero => rfl
  | succ left ih =>
    obtain ⟨⟨r, out, d⟩, hr⟩ := Option.isSome_iff_exists.mp (rioRead_isSome (n := 1) h)
    obtain ⟨hvd, -, hres⟩ := rioRead_spec Nat.one_pos hv hr
    rw [rioReadlinebFrom, hr]
    dsimp only
    split
    · next hone =>
      split
      · rfl
      · cases hres with
        | failed hsame hin => exact absurd hone (by decide)
        | eof hnone hnone' henough => exact absurd hone (by decide)
        | got hout hle hsplit henough => exact ih hvd (henough _ h)
    · split
      · split <;> rfl
      · rfl

theorem rioReadnbFrom_spec {fuel nleft : ℕ} {done written : List UInt8} {c c' : Conn} {rc : ℤ}
    (hv : c.Valid) (h : rioReadnbFrom fuel nleft done c = some (rc, written, c')) :
    c'.Valid ∧ c'.calls <:+ c.calls ∧
      ((rc = -1 ∧ ∃ cut, written = done ++ cut ∧ Cut c c' cut) ∨
        (rc = (done ++ c.pending.take nleft).length ∧ written = done ++ c.pending.take nleft ∧
          Took c c' (c.pending.take nleft) (c.pending.drop nleft))) := by
  induction fuel generalizing nleft done c with
  | zero =>
    cases nleft with
    | zero =>
      rw [rioReadnbFrom] at h
      cases h
      refine ⟨hv, List.suffix_refl _, Or.inr ⟨by simp, by simp, by simp, rfl, fun k hk => hk.pred⟩⟩
    | succ nleft =>
      rw [rioReadnbFrom] at h
      cases h
  | succ fuel ih =>
    cases nleft with
    | zero =>
      rw [rioReadnbFrom] at h
      cases h
      refine ⟨hv, List.suffix_refl _, Or.inr ⟨by simp, by simp, by simp, rfl, fun k hk => hk.pred⟩⟩
    | succ nleft =>
      rw [rioReadnbFrom] at h
      cases hr : rioRead (nleft + 1) c with
      | none =>
        rw [hr] at h
        cases h
      | some x =>
        obtain ⟨r, out, d⟩ := x
        obtain ⟨hvd, hsuf, hres⟩ := rioRead_spec (Nat.succ_pos nleft) hv hr
        rw [hr] at h
        dsimp only at h
        cases hres with
        | failed hsame hin =>
          rw [if_pos (by decide)] at h
          cases h
          exact ⟨hvd, hsuf, Or.inl ⟨rfl, [], (List.append_nil _).symm, hin, hsame⟩⟩
        | eof hnone hnone' henough =>
          rw [if_neg (by decide), if_pos rfl] at h
          cases h
          rw [hnone, List.take_nil, List.drop_nil, List.append_nil]
          exact ⟨hvd, hsuf, Or.inr ⟨rfl, rfl, hnone.symm, hnone', henough⟩⟩
        | got hout hle hsplit henough =>
          have hpos := List.length_pos_iff.mpr hout
          rw [if_neg (by omega), if_neg (by omega), Int.toNat_natCast] at h
          obtain ⟨hv', hsuf', hres'⟩ := ih hvd h
          refine ⟨hv', hsuf'.trans hsuf, ?_⟩
          have htake : c.pending.take (nleft + 1) =
              out ++ d.pending.take (nleft + 1 - out.length) := by
            rw [← hsplit, List.take_append, List.take_of_length_le hle]
          have hdrop : c.pending.drop (nleft + 1) = d.pending.drop (nleft + 1 - out.length) := by
            rw [← hsplit, List.drop_append, List.drop_of_length_le hle, List.nil_append]
          rcases hres' with ⟨hrc, cut, hwritten, hcut⟩ | ⟨hrc, hwritten, htook⟩
          · refine Or.inl ⟨hrc, out ++ cut, ?_, hsuf.subset hcut.failed, ?_⟩
            · rw [hwritten, List.append_assoc]
            · rw [List.append_assoc, hcut.split, hsplit]
          · rw [htake, hdrop]
            refine Or.inr ⟨?_, ?_, ?_, htook.pending, fun k hk => htook.enough k (henough _ hk)⟩
            · rw [hrc, List.append_assoc]
            · rw [hwritten, List.append_assoc]
            · rw [List.append_assoc, htook.split, hsplit]

theorem rioReadnbFrom_isSome {fuel nleft k : ℕ} {done : List UInt8} {c : Conn} (hv : c.Valid)
    (hfuel : nleft ≤ fuel) (h : c.Enough (k + 1)) : (rioReadnbFrom fuel nleft done c).isSome := by
  induction fuel generalizing nleft done c with
  | zero =>
    obtain rfl := Nat.le_zero.mp hfuel
    rfl
  | succ fuel ih =>
    cases nleft with
    | zero => rfl
    | succ nleft =>
      obtain ⟨⟨r, out, d⟩, hr⟩ := Option.isSome_iff_exists.mp (rioRead_isSome (n := nleft + 1) h)
      obtain ⟨hvd, -, hres⟩ := rioRead_spec (Nat.succ_pos nleft) hv hr
      rw [rioReadnbFrom, hr]
      dsimp only
      split
      · rfl
      · split
        · rfl
        · cases hres with
          | failed hsame hin => next hneg _ => exact absurd (by decide) hneg
          | eof hnone hnone' henough => next hne => exact absurd rfl hne
          | got hout hle hsplit henough =>
            have hpos := List.length_pos_iff.mpr hout
            exact ih hvd (by omega) (henough _ h)

/-! ### Sequences of calls -/

/-- A call of the package on one connection. -/
inductive RioCall
  | readlineb (maxlen : ℕ)
  | readnb (n : ℕ)
  deriving DecidableEq

/-- The call: the value returned and the bytes stored. -/
def RioCall.run : RioCall → Conn → Option (ℤ × List UInt8 × Conn)
  | .readlineb maxlen, c => rioReadlineb maxlen c
  | .readnb n, c => rioReadnb n c

/-- Calls one after the other: what each returned and stored, and the connection after them. -/
def rioCalls : List RioCall → Conn → Option (List (ℤ × List UInt8) × Conn)
  | [], c => some ([], c)
  | call :: l, c =>
    match call.run c with
    | none => none
    | some (rc, written, c) => (rioCalls l c).map fun r => ((rc, written) :: r.1, r.2)

/-- The bytes of the stream in what a call stored: all of it after a failure, else as many as the
value returned says. -/
def received (r : ℤ × List UInt8) : List UInt8 := if r.1 < 0 then r.2 else r.2.take r.1.toNat

/-- The call on a stream that is at hand as a whole. -/
def RioCall.ideal : RioCall → List UInt8 → (ℤ × List UInt8) × List UInt8
  | .readlineb maxlen, s =>
    (((readLine (maxlen - 1) s).1.length, stored (maxlen - 1) (readLine (maxlen - 1) s).1),
      (readLine (maxlen - 1) s).2)
  | .readnb n, s => (((s.take n).length, s.take n), s.drop n)

/-- Calls one after the other on a stream that is at hand as a whole. -/
def idealCalls : List RioCall → List UInt8 → List (ℤ × List UInt8) × List UInt8
  | [], s => ([], s)
  | call :: l, s =>
    ((call.ideal s).1 :: (idealCalls l (call.ideal s).2).1, (idealCalls l (call.ideal s).2).2)

/-- **One call.**  It fails, or does what it does on the pending bytes. -/
theorem RioCall.run_spec (call : RioCall) {c c' : Conn} {rc : ℤ} {written : List UInt8}
    (hv : c.Valid) (h : call.run c = some (rc, written, c')) :
    c'.Valid ∧ c'.calls <:+ c.calls ∧
      ((rc = -1 ∧ Cut c c' written) ∨
        ((rc, written) = (call.ideal c.pending).1 ∧
          Took c c' (received (rc, written)) (call.ideal c.pending).2)) := by
  cases call with
  | readlineb maxlen =>
    obtain ⟨hv', hsuf, hres⟩ := rioReadlinebFrom_spec hv h
    refine ⟨hv', hsuf, ?_⟩
    rcases hres with ⟨hrc, cut, hwritten, hcut⟩ | ⟨hrc, hwritten, htook⟩
    · rw [List.nil_append] at hwritten
      exact Or.inl ⟨hrc, hwritten ▸ hcut⟩
    · rw [List.nil_append] at hrc hwritten
      have hrec : received (rc, written) = (readLine (maxlen - 1) c.pending).1 := by
        rw [received, hrc, hwritten, if_neg (by omega), Int.toNat_natCast, stored]
        split
        · next hnil => rw [hnil.1]; rfl
        · exact List.take_left
      rw [hrec]
      exact Or.inr ⟨by rw [hrc, hwritten]; rfl, htook⟩
  | readnb n =>
    obtain ⟨hv', hsuf, hres⟩ := rioReadnbFrom_spec hv h
    refine ⟨hv', hsuf, ?_⟩
    rcases hres with ⟨hrc, cut, hwritten, hcut⟩ | ⟨hrc, hwritten, htook⟩
    · rw [List.nil_append] at hwritten
      exact Or.inl ⟨hrc, hwritten ▸ hcut⟩
    · rw [List.nil_append] at hrc hwritten
      have hrec : received (rc, written) = c.pending.take n := by
        rw [received, hrc, hwritten, if_neg (by omega), Int.toNat_natCast, List.take_length]
      rw [hrec]
      exact Or.inr ⟨by rw [hrc, hwritten]; rfl, htook⟩

theorem RioCall.run_isSome (call : RioCall) {c : Conn} {k : ℕ} (hv : c.Valid)
    (h : c.Enough (k + 1)) : (call.run c).isSome := by
  cases call with
  | readlineb maxlen => exact rioReadlinebFrom_isSome hv h
  | readnb n => exact rioReadnbFrom_isSome hv le_rfl h

/-- A call that returned, and the calls after it. -/
theorem rioCalls_cons {call : RioCall} {l : List RioCall} {c c' : Conn} {res : List (ℤ × List UInt8)}
    (h : rioCalls (call :: l) c = some (res, c')) : ∃ rc written d res',
      call.run c = some (rc, written, d) ∧ rioCalls l d = some (res', c') ∧
        res = (rc, written) :: res' := by
  rw [rioCalls] at h
  cases hr : call.run c with
  | none =>
    rw [hr] at h
    cases h
  | some x =>
    obtain ⟨rc, written, d⟩ := x
    rw [hr] at h
    obtain ⟨⟨res', d'⟩, hl, heq⟩ := Option.map_eq_some_iff.mp h
    cases heq
    exact ⟨rc, written, d, res', rfl, hl, rfl⟩

theorem rioReadinitb_valid {buf : List UInt8} (hbuf : buf.length = rioBufsize)
    (stream : List UInt8) (calls : List Call) : (rioReadinitb buf stream calls).Valid :=
  ⟨hbuf, fun h => absurd h (Int.lt_irrefl 0)⟩

theorem rioCalls_from {l : List RioCall} {c c' : Conn} {res : List (ℤ × List UInt8)} (hv : c.Valid)
    (h : rioCalls l c = some (res, c')) : (res.map received).flatten ++ c'.pending = c.pending := by
  induction l generalizing c res with
  | nil =>
    cases h
    rfl
  | cons call l ih =>
    obtain ⟨rc, written, d, res', hr, hl, rfl⟩ := rioCalls_cons h
    obtain ⟨hvd, -, hres⟩ := RioCall.run_spec _ hv hr
    rw [List.map_cons, List.flatten_cons, List.append_assoc, ih hvd hl]
    rcases hres with ⟨hrc, hcut⟩ | ⟨-, htook⟩
    · have hneg : (rc, written).1 < 0 := by
        show rc < 0
        omega
      rw [received, if_pos hneg]
      exact hcut.split
    · rw [htook.pending, htook.split]

/-- **No byte is lost or duplicated.**  After any calls of `rio_readlineb` and `rio_readnb` on a
stream, cut into pieces, interrupted and failing in any way, what has been stored in the callers' buffers,
in order, by the calls that return -1 too, and what is still pending make up the stream. -/
theorem rioCalls_stored (buf stream : List UInt8) (calls : List Call) (l : List RioCall)
    (res : List (ℤ × List UInt8)) (c : Conn) (hbuf : buf.length = rioBufsize)
    (h : rioCalls l (rioReadinitb buf stream calls) = some (res, c)) :
    (res.map received).flatten ++ c.pending = stream :=
  rioCalls_from (rioReadinitb_valid hbuf stream calls) h

theorem rioCalls_stored_hello : ∃ res c,
    rioCalls [.readlineb 8192] (rioReadinitb (List.replicate rioBufsize 0) [104, 105]
      [.upTo 0, .interrupted, .failed]) = some (res, c) ∧
    (res.map received).flatten ++ c.pending = [104, 105] := by
  have hsome : (rioCalls [.readlineb 8192] (rioReadinitb (List.replicate rioBufsize 0) [104, 105]
      [.upTo 0, .interrupted, .failed])).isSome := by
    decide +kernel
  obtain ⟨⟨res, c⟩, h⟩ := Option.isSome_iff_exists.mp hsome
  exact ⟨res, c, h, rioCalls_stored _ _ _ _ res c List.length_replicate h⟩

theorem rioCalls_ideal_from {l : List RioCall} {c : Conn} (hv : c.Valid)
    (hok : NoFailure c.calls) :
    (∀ res c', rioCalls l c = some (res, c') →
      res = (idealCalls l c.pending).1 ∧ c'.pending = (idealCalls l c.pending).2) ∧
    (c.Enough l.length → (rioCalls l c).isSome) := by
  induction l generalizing c with
  | nil =>
    refine ⟨fun res c' h => ?_, fun _ => rfl⟩
    cases h
    exact ⟨rfl, rfl⟩
  | cons call l ih =>
    -- what the first call does, if it returns
    have hfirst : ∀ rc written d, call.run c = some (rc, written, d) → d.Valid ∧ NoFailure d.calls ∧
        (rc, written) = (call.ideal c.pending).1 ∧
        Took c d (received (rc, written)) (call.ideal c.pending).2 := by
      intro rc written d hr
      obtain ⟨hvd, hsuf, hres⟩ := RioCall.run_spec _ hv hr
      refine ⟨hvd, fun hin => hok (hsuf.subset hin), ?_⟩
      rcases hres with ⟨-, hcut⟩ | hres
      · exact absurd hcut.failed hok
      · exact hres
    constructor
    · intro res c' h
      obtain ⟨rc, written, d, res', hr, hl, rfl⟩ := rioCalls_cons h
      obtain ⟨hvd, hokd, hres, htook⟩ := hfirst rc written d hr
      obtain ⟨hres', hpend⟩ := (ih hvd hokd).1 res' c' hl
      rw [htook.pending] at hres' hpend
      exact ⟨by rw [hres, hres']; rfl, hpend⟩
    · intro henough
      obtain ⟨⟨rc, written, d⟩, hr⟩ := Option.isSome_iff_exists.mp (RioCall.run_isSome _ hv henough)
      obtain ⟨hvd, hokd, -, htook⟩ := hfirst rc written d hr
      rw [rioCalls, hr, Option.isSome_map]
      exact (ih hvd hokd).2 (htook.enough _ henough)

/-- **The schedule can not be noticed.**  Without failures, calls of `rio_readlineb` and `rio_readnb`
return and store what they would if the whole stream were at hand, however `read` cuts it up and
however often it is interrupted, and they return as soon as `read` has delivered once for every byte
and once for every call. -/
theorem rioCalls_eq_ideal (buf stream : List UInt8) (calls : List Call) (l : List RioCall)
    (hbuf : buf.length = rioBufsize) (hok : NoFailure calls) :
    (∀ res c, rioCalls l (rioReadinitb buf stream calls) = some (res, c) →
      res = (idealCalls l stream).1 ∧ c.pending = (idealCalls l stream).2) ∧
    (stream.length + l.length ≤ moves calls →
      (rioCalls l (rioReadinitb buf stream calls)).isSome) :=
  rioCalls_ideal_from (rioReadinitb_valid hbuf stream calls) hok

theorem rioCalls_eq_ideal_hello : ∃ res c,
    rioCalls [.readlineb 8192] (rioReadinitb (List.replicate rioBufsize 0) [104, 10, 105]
      [.interrupted, .upTo 0, .upTo 1, .upTo 5, .upTo 0]) = some (res, c) ∧
    res = [(2, [104, 10, 0])] ∧ c.pending = [105] := by
  obtain ⟨hideal, hsome⟩ := rioCalls_eq_ideal (List.replicate rioBufsize 0) [104, 10, 105]
    [.interrupted, .upTo 0, .upTo 1, .upTo 5, .upTo 0] [.readlineb 8192] List.length_replicate
    (by simp [NoFailure])
  obtain ⟨⟨res, c⟩, h⟩ := Option.isSome_iff_exists.mp (hsome (by decide))
  obtain ⟨hres, hpend⟩ := hideal res c h
  exact ⟨res, c, h, hres, hpend⟩

end SystemProgramming.ProxyLab
