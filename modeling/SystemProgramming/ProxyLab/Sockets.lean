import SystemProgramming.ProxyLab.Process

/-!
# Opening sockets (`open_clientfd`, `open_listenfd`)

Both functions walk the list of addresses that `getaddrinfo` returns, until a socket can be connected
or bound.  A socket that can not is closed, and a `close` that fails ends the walk at once: the list
of addresses is not freed then, and addresses further on are not tried.

* `walk` : the loop; `walk_cases` : it ends at the first address that it does not pass over.
* `openClientfd_spec`, `openListenfd_spec` : which descriptor is returned, and what is left behind.
* `openClientfd_connect` : the call is the step of the process that opens a `clientfd`.
-/

namespace SystemProgramming.ProxyLab

variable {α β : Type*}

/-! ### The model -/

/-- The answers of the kernel for the addresses of a list.  `connect` is that of `connect` in
`open_clientfd` and of `bind` in `open_listenfd`. -/
structure Network (α β : Type*) where
  socket : β → (ℕ → Option α) → Option ℕ
  connect : β → Bool
  close : β → Bool
  /-- whether a descriptor stays open that `close` has failed on -/
  keeps : β → Bool
  listen : Bool
  fresh : ∀ p fds fd, socket p fds = some fd → fds fd = none

/-- How the loop over the addresses ends. -/
inductive Walked (β : Type*)
  | found (p : β) (fd : ℕ)
  | exhausted
  /-- `return -1` inside the loop -/
  | closeFailed (p : β) (fd : ℕ)

/-- What a call returns, the open descriptors behind it, and whether the list of addresses is freed. -/
structure Opened (α : Type*) where
  rc : ℤ
  fds : ℕ → Option α
  listFreed : Bool

/-- The loop over the addresses; an address that it passes over leaves the descriptors as they are. -/
def walk (K : Network α β) (fds : ℕ → Option α) : List β → Walked β
  | [] => .exhausted
  | p :: listp =>
    match K.socket p fds with
    | none => walk K fds listp
    | some fd =>
      if K.connect p then .found p fd
      else if K.close p then walk K fds listp
      else .closeFailed p fd

/-- The descriptors with `fd` open for `owner`. -/
def opened (owner : α) (fds : ℕ → Option α) (fd : ℕ) : ℕ → Option α :=
  Function.update fds fd (some owner)

/-- The descriptors behind a `close(fd)` for the address `p`. -/
def closed (K : Network α β) (owner : α) (fds : ℕ → Option α) (p : β) (fd : ℕ) : ℕ → Option α :=
  if K.close p = false ∧ K.keeps p = true then opened owner fds fd else fds

/-- `open_clientfd`; there is no list when `getaddrinfo` fails. -/
def openClientfd (K : Network α β) (owner : α) (listp : Option (List β)) (fds : ℕ → Option α) :
    Opened α :=
  match listp with
  | none => ⟨-2, fds, true⟩
  | some listp =>
    match walk K fds listp with
    | .closeFailed p fd => ⟨-1, closed K owner fds p fd, false⟩
    | .exhausted => ⟨-1, fds, true⟩
    | .found _ fd => ⟨fd, opened owner fds fd, true⟩

/-- `open_listenfd`; nothing looks at the result of the last `close`. -/
def openListenfd (K : Network α β) (owner : α) (listp : Option (List β)) (fds : ℕ → Option α) :
    Opened α :=
  match listp with
  | none => ⟨-2, fds, true⟩
  | some listp =>
    match walk K fds listp with
    | .closeFailed p fd => ⟨-1, closed K owner fds p fd, false⟩
    | .exhausted => ⟨-1, fds, true⟩
    | .found p fd =>
      if K.listen then ⟨fd, opened owner fds fd, true⟩ else ⟨-1, closed K owner fds p fd, true⟩

/-! ### The loop -/

variable {K : Network α β} {owner : α} {fds : ℕ → Option α} {listp : List β} {p : β} {fd : ℕ}

/-- The loop passes over the address: no socket, or one that does not connect and is closed. -/
def PassesOver (K : Network α β) (fds : ℕ → Option α) (p : β) : Prop :=
  K.socket p fds = none ∨ K.connect p = false ∧ K.close p = true

theorem walk_cons_of_passesOver (h : PassesOver K fds p) :
    walk K fds (p :: listp) = walk K fds listp := by
  rw [walk]
  cases hsocket : K.socket p fds with
  | none => rfl
  | some fd =>
    rcases h with hnone | ⟨hconnect, hclose⟩
    · rw [hsocket] at hnone
      cases hnone
    · dsimp only
      rw [if_neg (by rw [hconnect]; exact Bool.false_ne_true), if_pos hclose]

theorem walk_append_of_passesOver {pre : List β} (h : ∀ q ∈ pre, PassesOver K fds q) :
    walk K fds (pre ++ listp) = walk K fds listp := by
  induction pre with
  | nil => rfl
  | cons q pre ih =>
    rw [List.cons_append, walk_cons_of_passesOver (h q List.mem_cons_self)]
    exact ih fun q' hq' => h q' (List.mem_cons_of_mem q hq')

/-- At an address that is not passed over the loop ends, with the socket connected or not closed. -/
theorem walk_cons_stop (listp : List β) (h : ¬ PassesOver K fds p) :
    ∃ fd, K.socket p fds = some fd ∧
      (walk K fds (p :: listp) = .found p fd ∧ K.connect p = true ∨
        walk K fds (p :: listp) = .closeFailed p fd ∧ K.close p = false) := by
  rw [walk]
  cases hsocket : K.socket p fds with
  | none => exact absurd (Or.inl hsocket) h
  | some fd =>
    refine ⟨fd, rfl, ?_⟩
    dsimp only
    cases hconnect : K.connect p with
    | true => exact Or.inl ⟨if_pos rfl, rfl⟩
    | false =>
      have hclose : K.close p = false :=
        Bool.eq_false_of_not_eq_true fun hclose => h (Or.inr ⟨hconnect, hclose⟩)
      exact Or.inr ⟨by rw [hclose]; rfl, hclose⟩

/-- **The loop** ends at the first address that it does not pass over. -/
theorem walk_cases (K : Network α β) (fds : ℕ → Option α) (listp : List β) :
    (walk K fds listp = .exhausted ∧ ∀ p ∈ listp, PassesOver K fds p) ∨
      ∃ pre p post fd, listp = pre ++ p :: post ∧ (∀ q ∈ pre, PassesOver K fds q) ∧
        K.socket p fds = some fd ∧
        (walk K fds listp = .found p fd ∧ K.connect p = true ∨
          walk K fds listp = .closeFailed p fd ∧ K.close p = false) := by
  induction listp with
  | nil => exact Or.inl ⟨rfl, List.forall_mem_nil _⟩
  | cons p listp ih =>
    by_cases hover : PassesOver K fds p
    · rw [walk_cons_of_passesOver hover]
      rcases ih with ⟨hnone, hall⟩ | ⟨pre, q, post, fd, hsplit, hpre, hstop⟩
      · exact Or.inl ⟨hnone, List.forall_mem_cons.mpr ⟨hover, hall⟩⟩
      · refine Or.inr ⟨p :: pre, q, post, fd, ?_, List.forall_mem_cons.mpr ⟨hover, hpre⟩, hstop⟩
        rw [hsplit, List.cons_append]
    · obtain ⟨fd, hsocket, hend⟩ := walk_cons_stop listp hover
      exact Or.inr ⟨[], p, listp, fd, rfl, List.forall_mem_nil _, hsocket, hend⟩

/-! ### What the functions return -/

/-- The first address of the list that is not passed over connects, on the descriptor `fd`. -/
def FirstUsable (K : Network α β) (fds : ℕ → Option α) (listp : Option (List β)) (fd : ℕ) : Prop :=
  ∃ pre p post, listp = some (pre ++ p :: post) ∧ (∀ q ∈ pre, PassesOver K fds q) ∧
    K.socket p fds = some fd ∧ K.connect p = true

theorem FirstUsable.walk_eq (h : FirstUsable K fds (some listp) fd) :
    ∃ p, walk K fds listp = .found p fd := by
  obtain ⟨pre, p, post, hsplit, hpre, hsocket, hconnect⟩ := h
  cases hsplit
  refine ⟨p, ?_⟩
  rw [walk_append_of_passesOver hpre, walk, hsocket]
  exact if_pos hconnect

/-- **`open_clientfd`** returns a descriptor exactly when the first address that the loop does not pass
over connects; then that descriptor alone is new.  Without one it leaves everything as it was, or a
`close` has failed. -/
theorem openClientfd_spec (K : Network α β) (owner : α) (listp : Option (List β))
    (fds : ℕ → Option α) :
    (∀ fd : ℕ, (openClientfd K owner listp fds).rc = fd ↔ FirstUsable K fds listp fd) ∧
    (∀ fd : ℕ, (openClientfd K owner listp fds).rc = fd → fds fd = none ∧
      (openClientfd K owner listp fds).fds = opened owner fds fd ∧
      (openClientfd K owner listp fds).listFreed = true) ∧
    ((openClientfd K owner listp fds).rc < 0 →
      (openClientfd K owner listp fds).fds = fds ∧
        (openClientfd K owner listp fds).listFreed = true ∨
      ∃ l, listp = some l ∧ ∃ p ∈ l, K.close p = false) := by
  cases listp with
  | none =>
    refine ⟨fun fd => iff_of_false ?_ ?_, fun fd h => ?_, fun _ => Or.inl ⟨rfl, rfl⟩⟩
    · intro h
      cases h
    · rintro ⟨_, _, _, h, -⟩
      cases h
    · cases h
  | some l =>
    have hwalk : ∀ fd, FirstUsable K fds (some l) fd → ∃ p, walk K fds l = .found p fd :=
      fun fd h => h.walk_eq
    rw [openClientfd]
    rcases walk_cases K fds l with ⟨hnone, -⟩ |
      ⟨pre, p, post, fd, hsplit, hpre, hsocket, ⟨hfound, hconnect⟩ | ⟨hfailed, hclose⟩⟩
    · rw [hnone] at hwalk ⊢
      dsimp only
      refine ⟨fun fd => iff_of_false (fun h => ?_) fun h => ?_, fun fd h => ?_,
        fun _ => Or.inl ⟨rfl, rfl⟩⟩
      · omega
      · obtain ⟨_, hq⟩ := hwalk fd h
        cases hq
      · omega
    · rw [hfound] at hwalk ⊢
      dsimp only
      refine ⟨fun fd' => ⟨fun h => ?_, fun h => ?_⟩, fun fd' h => ?_, fun h => ?_⟩
      · obtain rfl : fd = fd' := Int.ofNat.inj h
        exact ⟨pre, p, post, by rw [hsplit], hpre, hsocket, hconnect⟩
      · obtain ⟨_, hq⟩ := hwalk fd' h
        cases hq
        rfl
      · obtain rfl : fd = fd' := Int.ofNat.inj h
        exact ⟨K.fresh p fds fd hsocket, rfl, rfl⟩
      · exact absurd h (Int.not_lt.mpr (Int.natCast_nonneg fd))
    · rw [hfailed] at hwalk ⊢
      dsimp only
      refine ⟨fun fd => iff_of_false (fun h => ?_) fun h => ?_, fun fd h => ?_,
        fun _ => Or.inr ⟨l, rfl, p, by rw [hsplit]; simp, hclose⟩⟩
      · omega
      · obtain ⟨_, hq⟩ := hwalk fd h
        cases hq
      · omega

/-- **`open_listenfd`** differs in its end: the descriptor must also listen, and a failure there leaves
it open when `close` fails too, with the list of addresses freed all the same. -/
theorem openListenfd_spec (K : Network α β) (owner : α) (listp : Option (List β))
    (fds : ℕ → Option α) :
    openListenfd K owner listp fds =
      if K.listen = true ∨ (openClientfd K owner listp fds).rc < 0 then openClientfd K owner listp fds
      else ⟨-1, (openListenfd K owner listp fds).fds, true⟩ := by
  cases listp with
  | none => exact (if_pos (Or.inr (show (-2 : ℤ) < 0 by decide))).symm
  | some l =>
    rw [openListenfd, openClientfd]
    cases walk K fds l with
    | closeFailed p fd => exact (if_pos (Or.inr (show (-1 : ℤ) < 0 by decide))).symm
    | exhausted => exact (if_pos (Or.inr (show (-1 : ℤ) < 0 by decide))).symm
    | found p fd =>
      dsimp only
      cases hlisten : K.listen with
      | true => exact (if_pos (Or.inl rfl)).symm
      | false =>
        rw [if_neg (by simp), if_neg]
        rintro (h | h)
        · cases h
        · exact absurd h (Int.not_lt.mpr (Int.natCast_nonneg fd))

/-! ### In the process -/

section
variable {ι : Type*} [DecidableEq ι]

/-- `Open_clientfd` at the step of `forward_request` that calls it. -/
def Process.openClientfd (K : Network (Fd ι) β) (listp : Option (List β)) (s : Process ι) (t : ι) :
    Process ι :=
  let r := ProxyLab.openClientfd K (.client t) listp s.fds
  if r.rc < 0 then s.exit
  else { s.setFrame t { s.frames t with
      pc := .send (requestLines (s.frames t).request), clientfd := some r.rc.toNat } with
    fds := r.fds }

/-- **Refinement.**  The call is the step of the process that opens a `clientfd`, or the failure of
that step. -/
theorem openClientfd_connect {W : World ι} (K : Network (Fd ι) β) (listp : Option (List β))
    {s : Process ι} {t : ι} (halive : s.parsers.alive = true) (h : (s.frames t).pc = .connect) :
    ∃ a, ProcessStep W s (t, a) (s.openClientfd K listp t) ∧
      (a = .failure ↔ (ProxyLab.openClientfd K (.client t) listp s.fds).rc < 0) := by
  obtain ⟨-, hopen, -⟩ := openClientfd_spec K (.client t) listp s.fds
  rw [Process.openClientfd]
  dsimp only
  by_cases hneg : (ProxyLab.openClientfd K (.client t) listp s.fds).rc < 0
  · rw [if_pos hneg]
    exact ⟨.failure, .failure halive (Process.atCall_connect h), iff_of_true rfl hneg⟩
  · rw [if_neg hneg]
    have hrc : (ProxyLab.openClientfd K (.client t) listp s.fds).rc =
        ((ProxyLab.openClientfd K (.client t) listp s.fds).rc.toNat : ℕ) := by omega
    obtain ⟨hfree, hfds, -⟩ := hopen _ hrc
    rw [hfds]
    exact ⟨.success, .success halive (.connect h hfree), iff_of_false (by simp) hneg⟩

end

end SystemProgramming.ProxyLab
