import SystemProgramming.Library.Scanning
import SystemProgramming.MallocLab.Driver

/-!
# Trace files

`read_trace` reads four numbers and then one request a line, as far as the file goes.  It checks no
result of a conversion: where there is no number to read, the variable keeps what it held.

* `readTrace` : `read_trace` on the bytes of a file.
* `readTrace_renders` : a trace written to a file is read back, however it is laid out.
* `readTrace_sound` : what an accepted file promises to the evaluations, and what it does not.
-/

namespace SystemProgramming.MallocLab

open Scanning Folds

/-! ### The model -/

/-- Why `read_trace` does not return a trace. -/
inductive ReadStop
  /-- A `malloc` that fails. -/
  | unixError (msg : String)
  /-- "Bogus type character (%c) in tracefile %s" -/
  | bogusType (c : UInt8)
  /-- One of the two assertions at the end. -/
  | assertion
  /-- A write behind `type` or `ops`. -/
  | outOfBounds
  /-- A number that its variable can not hold, or a variable that nothing was read into. -/
  | undefined
  deriving DecidableEq

/-- `MAXLINE` of the driver, the size of `type`. -/
def traceLine : ℕ := 1024

/-- `fscanf(tracefile, "%d", &x)`. -/
def fscanfInt (s : List UInt8) : Except ReadStop (Option ℤ × List UInt8) :=
  match scanInt s with
  | (none, rest) => .ok (none, rest)
  | (some v, rest) =>
    if -2 ^ 31 ≤ v ∧ v < 2 ^ 31 then .ok (some v, rest) else .error .undefined

/-- One `%u`; a negative number is read as `strtoul` does. -/
def fscanfUnsigned (s : List UInt8) : Except ReadStop (Option ℕ × List UInt8) :=
  match scanInt s with
  | (none, rest) => .ok (none, rest)
  | (some v, rest) =>
    if v.natAbs < 2 ^ 32 then .ok (some (v % 2 ^ 32).toNat, rest) else .error .undefined

/-- The variables of the loop of `read_trace`; `size` is not initialised. -/
structure Reader where
  rest : List UInt8
  index : ℕ
  size : Option ℕ
  maxIndex : ℕ
  ops : List TraceOp

/-- `fscanf(tracefile, "%u %u", &index, &size)`. -/
def Reader.scanPair (r : Reader) : Except ReadStop Reader :=
  match fscanfUnsigned r.rest with
  | .error e => .error e
  | .ok (none, rest) => .ok { r with rest := rest }
  | .ok (some index, rest) =>
    match fscanfUnsigned rest with
    | .error e => .error e
    | .ok (none, rest) => .ok { r with rest := rest, index := index }
    | .ok (some size, rest) => .ok { r with rest := rest, index := index, size := some size }

/-- `fscanf(tracefile, "%ud", &index)`; a `d` behind the number is read as well. -/
def Reader.scanIndex (r : Reader) : Except ReadStop Reader :=
  match fscanfUnsigned r.rest with
  | .error e => .error e
  | .ok (none, rest) => .ok { r with rest := rest }
  | .ok (some index, rest) =>
    .ok { r with rest := if rest.head? = some 100 then rest.tail else rest, index := index }

/-- The store into `ops[op_index]`, when `ops` has room for `capacity` requests. -/
def Reader.store (capacity : ℕ) (r : Reader) (op : TraceOp) : Except ReadStop Reader :=
  if capacity ≤ r.ops.length then .error .outOfBounds else .ok { r with ops := r.ops ++ [op] }

/-- The cases `'a'` and `'r'` of the `switch`. -/
def Reader.readSized (capacity : ℕ) (r : Reader) (request : ℕ → ℕ → TraceOp) :
    Except ReadStop Reader :=
  match r.scanPair with
  | .error e => .error e
  | .ok r =>
    match r.size with
    | none => .error .undefined
    | some size =>
      { r with maxIndex := if r.maxIndex < r.index then r.index else r.maxIndex }.store capacity
        (request r.index size)

/-- The body of the loop; only the first character of the word counts. -/
def Reader.readRequest (capacity : ℕ) (r : Reader) (word : List UInt8) : Except ReadStop Reader :=
  if traceLine ≤ word.length then .error .outOfBounds
  else
    match word.headD 0 with
    | 97 => r.readSized capacity .alloc
    | 114 => r.readSized capacity .realloc
    | 102 =>
      match r.scanIndex with
      | .error e => .error e
      | .ok r => r.store capacity (.free r.index)
    | c => .error (.bogusType c)

theorem fscanfUnsigned_length {s rest : List UInt8} {v : Option ℕ}
    (h : fscanfUnsigned s = .ok (v, rest)) : rest.length ≤ s.length := by
  have hle := length_scanInt_le s
  rw [fscanfUnsigned] at h
  cases hs : scanInt s with
  | mk v' rest' =>
    rw [hs] at h hle
    cases v' with
    | none =>
      cases h
      exact hle
    | some v' =>
      dsimp only at h
      split at h
      · cases h
        exact hle
      · cases h

theorem Reader.scanPair_length {r r' : Reader} (h : r.scanPair = .ok r') :
    r'.rest.length ≤ r.rest.length := by
  rw [scanPair] at h
  split at h
  · cases h
  · next hfirst =>
    cases h
    exact fscanfUnsigned_length hfirst
  · next hfirst =>
    have hle := fscanfUnsigned_length hfirst
    split at h
    · cases h
    · next hsecond =>
      cases h
      exact (fscanfUnsigned_length hsecond).trans hle
    · next hsecond =>
      cases h
      exact (fscanfUnsigned_length hsecond).trans hle

theorem Reader.scanIndex_length {r r' : Reader} (h : r.scanIndex = .ok r') :
    r'.rest.length ≤ r.rest.length := by
  rw [scanIndex] at h
  split at h
  · cases h
  · next hfirst =>
    cases h
    exact fscanfUnsigned_length hfirst
  · next index rest hfirst =>
    cases h
    have hle := fscanfUnsigned_length hfirst
    show (if rest.head? = some 100 then rest.tail else rest).length ≤ r.rest.length
    split
    · rw [List.length_tail]
      omega
    · exact hle

theorem Reader.store_ok {capacity : ℕ} {r r' : Reader} {op : TraceOp} :
    r.store capacity op = .ok r' ↔ r.ops.length < capacity ∧ r' = { r with ops := r.ops ++ [op] } := by
  rw [store]
  split
  · next hfull => exact iff_of_false (by simp) fun h => absurd h.1 (Nat.not_lt.mpr hfull)
  · next hroom =>
    rw [Except.ok.injEq]
    exact ⟨fun h => ⟨Nat.not_le.mp hroom, h.symm⟩, fun h => h.2.symm⟩

/-- What the case `'a'` or `'r'` reads and stores. -/
theorem Reader.readSized_ok {capacity : ℕ} {r r' : Reader} {request : ℕ → ℕ → TraceOp}
    (h : r.readSized capacity request = .ok r') : ∃ r₁ size, r.scanPair = .ok r₁ ∧
      r₁.size = some size ∧ r₁.ops.length < capacity ∧
      r' = { r₁ with
        maxIndex := if r₁.maxIndex < r₁.index then r₁.index else r₁.maxIndex
        ops := r₁.ops ++ [request r₁.index size] } := by
  rw [readSized] at h
  cases hr : r.scanPair with
  | error e =>
    rw [hr] at h
    cases h
  | ok r₁ =>
    rw [hr] at h
    dsimp only at h
    split at h
    · cases h
    · next size hsize =>
      obtain ⟨hroom, rfl⟩ := store_ok.mp h
      exact ⟨r₁, size, rfl, hsize, hroom, rfl⟩

/-- The three requests. -/
theorem Reader.readRequest_ok {capacity : ℕ} {r r' : Reader} {word : List UInt8}
    (h : r.readRequest capacity word = .ok r') :
    r.readSized capacity .alloc = .ok r' ∨ r.readSized capacity .realloc = .ok r' ∨
      ∃ r₁, r.scanIndex = .ok r₁ ∧ r₁.ops.length < capacity ∧
        r' = { r₁ with ops := r₁.ops ++ [.free r₁.index] } := by
  rw [readRequest] at h
  split at h
  · cases h
  · split at h
    · exact Or.inl h
    · exact Or.inr (Or.inl h)
    · cases hr : r.scanIndex with
      | error e =>
        rw [hr] at h
        cases h
      | ok r₁ =>
        rw [hr] at h
        obtain ⟨hroom, rfl⟩ := store_ok.mp h
        exact Or.inr (Or.inr ⟨r₁, rfl, hroom, rfl⟩)
    · cases h

theorem Reader.readRequest_length {capacity : ℕ} {r r' : Reader} {word : List UInt8}
    (h : r.readRequest capacity word = .ok r') : r'.rest.length ≤ r.rest.length := by
  rcases readRequest_ok h with hsized | hsized | ⟨r₁, hr, -, rfl⟩
  · obtain ⟨r₁, _, hr, -, -, rfl⟩ := readSized_ok hsized
    show r₁.rest.length ≤ r.rest.length
    exact scanPair_length hr
  · obtain ⟨r₁, _, hr, -, -, rfl⟩ := readSized_ok hsized
    show r₁.rest.length ≤ r.rest.length
    exact scanPair_length hr
  · show r₁.rest.length ≤ r.rest.length
    exact scanIndex_length hr

theorem readRequest_shorter {capacity : ℕ} {r r' : Reader} {word rest : List UInt8}
    (hword : scanWord r.rest = some (word, rest))
    (h : { r with rest := rest }.readRequest capacity word = .ok r') :
    r'.rest.length < r.rest.length :=
  Nat.lt_of_le_of_lt (Reader.readRequest_length h) (length_scanWord hword)

/-- The loop of `read_trace`. -/
def readRequests (capacity : ℕ) (r : Reader) : Except ReadStop Reader :=
  match _ : scanWord r.rest with
  | none => .ok r
  | some (word, rest) =>
    match _ : { r with rest := rest }.readRequest capacity word with
    | .error e => .error e
    | .ok r' => readRequests capacity r'
termination_by r.rest.length
decreasing_by exact readRequest_shorter ‹_› ‹_›

/-- `trace_t` as `read_trace` returns it. -/
structure TraceFile where
  suggHeapsize : Option ℤ
  numIds : ℤ
  numOps : ℤ
  weight : Option ℤ
  ops : List TraceOp

/-- The fields that the evaluations read. -/
def TraceFile.trace (f : TraceFile) : Trace := ⟨f.numIds.toNat, f.ops⟩

/-- The requests of 12 bytes that fit into `ops`; its size is computed in a 32-bit `size_t`. -/
def opsCapacity (numOps : ℤ) : ℕ := (numOps * 12 % 2 ^ 32).toNat / 12

/-- The four numbers of the header. -/
def readHeader (s : List UInt8) :
    Except ReadStop (Option ℤ × Option ℤ × Option ℤ × Option ℤ × List UInt8) := do
  let (suggHeapsize, s) ← fscanfInt s
  let (numIds, s) ← fscanfInt s
  let (numOps, s) ← fscanfInt s
  let (weight, s) ← fscanfInt s
  return (suggHeapsize, numIds, numOps, weight, s)

/-- `read_trace` on the bytes of a file; `served` tells which of its four calls of `malloc` are. -/
def readTrace (served : ℕ → Bool) (file : List UInt8) : Except ReadStop TraceFile :=
  if served 1 = false then .error (.unixError "malloc 1 failed in read_trance")
  else
    match readHeader file with
    | .error e => .error e
    | .ok (suggHeapsize, some numIds, some numOps, weight, rest) =>
      if served 2 = false then .error (.unixError "malloc 2 failed in read_trace")
      else if served 3 = false then .error (.unixError "malloc 3 failed in read_trace")
      else if served 4 = false then .error (.unixError "malloc 4 failed in read_trace")
      else
        match readRequests (opsCapacity numOps) ⟨rest, 0, none, 0, []⟩ with
        | .error e => .error e
        | .ok r =>
          if (r.maxIndex : ℤ) ≠ (numIds - 1) % 2 ^ 32 ∨ numOps % 2 ^ 32 ≠ r.ops.length then
            .error .assertion
          else .ok ⟨suggHeapsize, numIds, numOps, weight, r.ops⟩
    | .ok _ => .error .undefined

/-! ### The loop -/

section
variable {capacity : ℕ} {r r' : Reader}

theorem readRequests_nil (h : scanWord r.rest = none) : readRequests capacity r = .ok r := by
  rw [readRequests]
  split
  · rfl
  · next hword =>
    rw [h] at hword
    cases hword

theorem readRequests_cons {word rest : List UInt8} (hword : scanWord r.rest = some (word, rest)) :
    readRequests capacity r =
      match { r with rest := rest }.readRequest capacity word with
      | .error e => .error e
      | .ok r' => readRequests capacity r' := by
  rw [readRequests]
  split
  · next hnone =>
    rw [hword] at hnone
    cases hnone
  · next hsome =>
    rw [hword] at hsome
    cases hsome
    split
    · next he => rw [he]
    · next hok => rw [hok]

/-- **The loop rule.**  What every request keeps holds at the end of the file. -/
theorem readRequests_invariant {P : Reader → Prop}
    (hstep : ∀ r word rest r', P r → { r with rest := rest }.readRequest capacity word = .ok r' → P r')
    (hr : P r) (h : readRequests capacity r = .ok r') : P r' := by
  induction r using readRequests.induct capacity with
  | case1 r hword =>
    rw [readRequests_nil hword] at h
    cases h
    exact hr
  | case2 r word rest hword e he =>
    rw [readRequests_cons hword, he] at h
    cases h
  | case3 r word rest hword r₁ hok ih =>
    rw [readRequests_cons hword, hok] at h
    exact ih (hstep r word rest r₁ hr hok) h

end

/-! ### What is accepted -/

/-- The words of a request are 32-bit, and one that stores into `blocks` has an index up to `n`. -/
def TraceOp.Within (n : ℕ) : TraceOp → Prop
  | .alloc index size | .realloc index size => index ≤ n ∧ size < 2 ^ 32
  | .free index => index < 2 ^ 32

theorem TraceOp.Within.mono {m n : ℕ} {op : TraceOp} (h : op.Within m) (hle : m ≤ n) :
    op.Within n := by
  cases op with
  | alloc index size => exact ⟨h.1.trans hle, h.2⟩
  | realloc index size => exact ⟨h.1.trans hle, h.2⟩
  | free index => exact h

/-- The variables of the loop hold 32-bit words, and `ops` is not full beyond its size. -/
structure Reader.Valid (capacity : ℕ) (r : Reader) : Prop where
  index : r.index < 2 ^ 32
  maxIndex : r.maxIndex < 2 ^ 32
  size : ∀ n, r.size = some n → n < 2 ^ 32
  ops : ∀ op ∈ r.ops, op.Within r.maxIndex
  room : r.ops.length ≤ capacity

theorem fscanfUnsigned_lt {s rest : List UInt8} {v : ℕ} (h : fscanfUnsigned s = .ok (some v, rest)) :
    v < 2 ^ 32 := by
  rw [fscanfUnsigned] at h
  split at h
  · cases h
  · split at h
    · cases h
      omega
    · cases h

section
variable {capacity : ℕ} {r r' : Reader}

theorem Reader.Valid.scanPair (hv : r.Valid capacity) (h : r.scanPair = .ok r') :
    r'.Valid capacity ∧ r'.ops = r.ops := by
  rw [Reader.scanPair] at h
  split at h
  · cases h
  · cases h
    exact ⟨⟨hv.index, hv.maxIndex, hv.size, hv.ops, hv.room⟩, rfl⟩
  · next hfirst =>
    have hindex := fscanfUnsigned_lt hfirst
    split at h
    · cases h
    · cases h
      exact ⟨⟨hindex, hv.maxIndex, hv.size, hv.ops, hv.room⟩, rfl⟩
    · next hsecond =>
      cases h
      refine ⟨⟨hindex, hv.maxIndex, fun n hn => ?_, hv.ops, hv.room⟩, rfl⟩
      cases hn
      exact fscanfUnsigned_lt hsecond

theorem Reader.Valid.scanIndex (hv : r.Valid capacity) (h : r.scanIndex = .ok r') :
    r'.Valid capacity := by
  rw [Reader.scanIndex] at h
  split at h
  · cases h
  · cases h
    exact ⟨hv.index, hv.maxIndex, hv.size, hv.ops, hv.room⟩
  · next hfirst =>
    cases h
    exact ⟨fscanfUnsigned_lt hfirst, hv.maxIndex, hv.size, hv.ops, hv.room⟩

/-- A request with a size; `max_index` grows with its index. -/
theorem Reader.Valid.readSized (hv : r.Valid capacity) (request : ℕ → ℕ → TraceOp)
    (hrequest : ∀ index size, size < 2 ^ 32 → (request index size).Within index)
    (h : r.readSized capacity request = .ok r') : r'.Valid capacity := by
  obtain ⟨r₁, size, hr, hsize, hroom, rfl⟩ := readSized_ok h
  obtain ⟨hv₁, -⟩ := hv.scanPair hr
  have hle : r₁.maxIndex ≤ if r₁.maxIndex < r₁.index then r₁.index else r₁.maxIndex := by
    split <;> omega
  have hindex : r₁.index ≤ if r₁.maxIndex < r₁.index then r₁.index else r₁.maxIndex := by
    split <;> omega
  refine ⟨hv₁.index, ?_, hv₁.size, fun op hop => ?_, ?_⟩
  · dsimp only
    split
    · exact hv₁.index
    · exact hv₁.maxIndex
  · rcases List.mem_append.mp hop with hop | hop
    · exact (hv₁.ops op hop).mono hle
    · rw [List.mem_singleton.mp hop]
      exact (hrequest _ _ (hv₁.size size hsize)).mono hindex
  · show (r₁.ops ++ [_]).length ≤ capacity
    rw [List.length_append]
    exact hroom

theorem Reader.Valid.readRequest {word rest : List UInt8} (hv : r.Valid capacity)
    (h : { r with rest := rest }.readRequest capacity word = .ok r') : r'.Valid capacity := by
  have hv' : { r with rest := rest }.Valid capacity :=
    ⟨hv.index, hv.maxIndex, hv.size, hv.ops, hv.room⟩
  rcases readRequest_ok h with halloc | hrealloc | ⟨r₁, hr, hroom, rfl⟩
  · exact hv'.readSized .alloc (fun _ _ hsize => ⟨Nat.le_refl _, hsize⟩) halloc
  · exact hv'.readSized .realloc (fun _ _ hsize => ⟨Nat.le_refl _, hsize⟩) hrealloc
  · have hv₁ := hv'.scanIndex hr
    refine ⟨hv₁.index, hv₁.maxIndex, hv₁.size, fun op hop => ?_, ?_⟩
    · rcases List.mem_append.mp hop with hop | hop
      · exact hv₁.ops op hop
      · rw [List.mem_singleton.mp hop]
        exact hv₁.index
    · show (r₁.ops ++ [_]).length ≤ capacity
      rw [List.length_append]
      exact hroom

end

theorem valid_start {capacity : ℕ} (rest : List UInt8) :
    Reader.Valid capacity ⟨rest, 0, none, 0, []⟩ :=
  ⟨Nat.two_pow_pos 32, Nat.two_pow_pos 32, by simp, by simp, Nat.zero_le _⟩

theorem fscanfInt_range {s rest : List UInt8} {v : ℤ} (h : fscanfInt s = .ok (some v, rest)) :
    -2 ^ 31 ≤ v ∧ v < 2 ^ 31 := by
  rw [fscanfInt] at h
  split at h
  · cases h
  · split at h
    · next hfits =>
      cases h
      exact hfits
    · cases h

/-- The header of a file that `read_trace` goes on with. -/
theorem readHeader_ok {s rest : List UInt8} {sugg ids ops weight : Option ℤ}
    (h : readHeader s = .ok (sugg, ids, ops, weight, rest)) :
    ∃ s₁ s₂ s₃, fscanfInt s = .ok (sugg, s₁) ∧ fscanfInt s₁ = .ok (ids, s₂) ∧
      fscanfInt s₂ = .ok (ops, s₃) ∧ fscanfInt s₃ = .ok (weight, rest) := by
  rw [readHeader] at h
  cases h₁ : fscanfInt s with
  | error e =>
    rw [h₁] at h
    cases h
  | ok x₁ =>
    rw [h₁] at h
    cases h₂ : fscanfInt x₁.2 with
    | error e =>
      simp only [bind, Except.bind, h₂] at h
      cases h
    | ok x₂ =>
      cases h₃ : fscanfInt x₂.2 with
      | error e =>
        simp only [bind, Except.bind, h₂, h₃] at h
        cases h
      | ok x₃ =>
        cases h₄ : fscanfInt x₃.2 with
        | error e =>
          simp only [bind, Except.bind, h₂, h₃, h₄] at h
          cases h
        | ok x₄ =>
          simp only [bind, Except.bind, pure, Except.pure, h₂, h₃, h₄] at h
          cases h
          exact ⟨x₁.2, x₂.2, x₃.2, rfl, h₂, h₃, h₄⟩

/-- What `read_trace` has checked when it returns. -/
theorem readTrace_ok {served : ℕ → Bool} {file : List UInt8} {f : TraceFile}
    (h : readTrace served file = .ok f) :
    (f.ops.length : ℤ) = f.numOps ∧ f.numIds < 2 ^ 31 ∧
      (0 < f.numIds → ∀ op ∈ f.ops, op.Within (f.numIds.toNat - 1)) := by
  rw [readTrace] at h
  split at h
  · cases h
  cases hheader : readHeader file with
  | error e =>
    rw [hheader] at h
    cases h
  | ok x =>
    obtain ⟨sugg, ids, ops, weight, rest⟩ := x
    rw [hheader] at h
    cases ids with
    | none => cases h
    | some numIds =>
      cases ops with
      | none => cases h
      | some numOps =>
        dsimp only at h
        split at h
        · cases h
        split at h
        · cases h
        split at h
        · cases h
        split at h
        · cases h
        · next r hr =>
          split at h
          · cases h
          · next hasserts =>
            cases h
            obtain ⟨s₁, s₂, s₃, -, hids, hops, -⟩ := readHeader_ok hheader
            obtain ⟨hidsLow, hidsHigh⟩ := fscanfInt_range hids
            obtain ⟨hopsLow, hopsHigh⟩ := fscanfInt_range hops
            have hv : r.Valid (opsCapacity numOps) :=
              readRequests_invariant (fun _ _ _ _ hv hok => hv.readRequest hok)
                (valid_start rest) hr
            have hroom := hv.room
            rw [opsCapacity] at hroom
            obtain ⟨hmax, hnum⟩ := not_or.mp hasserts
            rw [not_not] at hmax hnum
            refine ⟨?_, hidsHigh, fun hpos op hop => (hv.ops op hop).mono ?_⟩
            · show (r.ops.length : ℤ) = numOps
              omega
            · show r.maxIndex ≤ numIds.toNat - 1
              have hpos' : 0 < numIds := hpos
              omega

/-! ### Evaluations of what is accepted -/

/-- The index of a request. -/
def TraceOp.index : TraceOp → ℕ
  | .alloc index _ | .realloc index _ | .free index => index

theorem addRange_ne_outOfBounds (A : Arena) (h : Heap) (ranges : List Range) (lo size opnum : ℕ) :
    addRange A h ranges lo size opnum ≠ .error .outOfBounds := by
  rw [addRange]
  split
  · simp
  split
  · simp
  split
  · simp
  split <;> simp

theorem addInt_ne_outOfBounds (a b : ℤ) : addInt a b ≠ .error .outOfBounds := by
  rw [addInt]
  split <;> simp

theorem count_ne_outOfBounds (s : Meter) (delta : ℤ) : s.count delta ≠ .error .outOfBounds := by
  rw [Meter.count]
  split
  · next he =>
    intro h
    cases h
    exact addInt_ne_outOfBounds _ _ he
  · simp

theorem validStep_outOfBounds {A : Arena} {P : Package} {n : ℕ} {s : Validator} {op : TraceOp}
    (h : validStep A P n s op = .error .outOfBounds) : n ≤ op.index := by
  cases op with
  | alloc index size =>
    rw [validStep] at h
    split at h
    · cases h
    split at h
    · cases h
    split at h
    · next he =>
      cases h
      exact (addRange_ne_outOfBounds _ _ _ _ _ _ he).elim
    split at h
    · next hle => exact hle
    · cases h
  | realloc index size =>
    rw [validStep] at h
    split at h
    · next hle => exact hle
    split at h
    · cases h
    split at h
    · cases h
    split at h
    · next he =>
      cases h
      exact (addRange_ne_outOfBounds _ _ _ _ _ _ he).elim
    split at h <;> cases h
  | free index =>
    rw [validStep] at h
    split at h
    · next hle => exact hle
    split at h <;> cases h

theorem utilStep_outOfBounds {P : Package} {n : ℕ} {s : Meter} {op : TraceOp}
    (h : utilStep P n s op = .error .outOfBounds) : n ≤ op.index := by
  cases op with
  | alloc index size =>
    rw [utilStep] at h
    split at h
    · cases h
    split at h
    · cases h
    split at h
    · next hle => exact hle
    · exact (count_ne_outOfBounds _ _ h).elim
  | realloc index size =>
    rw [utilStep] at h
    split at h
    · next hle => exact hle
    split at h
    · cases h
    split at h
    · cases h
    split at h
    · next he =>
      cases h
      exact (addInt_ne_outOfBounds _ _ he).elim
    · exact (count_ne_outOfBounds _ _ h).elim
  | free index =>
    rw [utilStep] at h
    split at h
    · next hle => exact hle
    split at h
    · cases h
    split at h
    · next he =>
      cases h
      exact (addInt_ne_outOfBounds _ _ he).elim
    · cases h

theorem speedStep_outOfBounds {P : Package} {n : ℕ} {s : Racer} {op : TraceOp}
    (h : speedStep P n s op = .error .outOfBounds) : n ≤ op.index := by
  cases op with
  | alloc index size =>
    rw [speedStep] at h
    split at h
    · cases h
    split at h
    · cases h
    split at h
    · next hle => exact hle
    · cases h
  | realloc index size =>
    rw [speedStep] at h
    split at h
    · next hle => exact hle
    split at h
    · cases h
    split at h <;> cases h
  | free index =>
    rw [speedStep] at h
    split at h
    · next hle => exact hle
    split at h <;> cases h

/-- An evaluation that leaves the arrays does so at a request of the trace. -/
theorem exists_of_outOfBounds {A : Arena} {P : Package} {t : Trace} {blocks blockSizes : ℕ → ℕ}
    {h : Heap} (hout : evalMmValid A P t blocks blockSizes h = .error .outOfBounds ∨
      evalMmUtil A P t blocks blockSizes h = .error .outOfBounds ∨
      evalMmSpeed A P t blocks h = .error .outOfBounds) : ∃ op ∈ t.ops, t.slots ≤ op.index := by
  rcases hout with hout | hout | hout
  · rw [evalMmValid] at hout
    split at hout
    · cases hout
    split at hout
    · cases hout
    obtain ⟨pre, op, post, s, hsplit, -, hop⟩ := foldlM_eq_error_iff.mp hout
    exact ⟨op, by rw [hsplit]; simp, validStep_outOfBounds hop⟩
  · rw [evalMmUtil] at hout
    split at hout
    · cases hout
    split at hout
    · cases hout
    obtain ⟨pre, op, post, s, hsplit, -, hop⟩ := foldlM_eq_error_iff.mp hout
    exact ⟨op, by rw [hsplit]; simp, utilStep_outOfBounds hop⟩
  · rw [evalMmSpeed] at hout
    split at hout
    · cases hout
    split at hout
    · cases hout
    obtain ⟨pre, op, post, s, hsplit, -, hop⟩ := foldlM_eq_error_iff.mp hout
    exact ⟨op, by rw [hsplit]; simp, speedStep_outOfBounds hop⟩

/-- The entries of the arrays, as long as their size does not overflow. -/
theorem slots_eq {t : Trace} (h : t.numIds < 2 ^ 30) : t.slots = t.numIds := by
  rw [Trace.slots, Nat.mod_eq_of_lt (by omega), Nat.mul_div_cancel _ (by decide)]

/-- **Accepted files.**  A file that `read_trace` accepts has the number of requests that it says, and
the index of an `a` or `r` is below `num_ids`.  So an evaluation, of any package whatever, can leave the
arrays only at an `f`, whose index is not looked at, or where `num_ids` is so large that the size of the
arrays overflows. -/
theorem readTrace_sound {served : ℕ → Bool} {file : List UInt8} {f : TraceFile}
    (h : readTrace served file = .ok f) (hids : 0 < f.numIds) :
    (f.ops.length : ℤ) = f.numOps ∧
    (∀ index size : ℕ, .alloc index size ∈ f.ops ∨ .realloc index size ∈ f.ops →
      (index : ℤ) < f.numIds ∧ size < 2 ^ 32) ∧
    ∀ A P blocks blockSizes heap,
      evalMmValid A P f.trace blocks blockSizes heap = .error .outOfBounds ∨
        evalMmUtil A P f.trace blocks blockSizes heap = .error .outOfBounds ∨
        evalMmSpeed A P f.trace blocks heap = .error .outOfBounds →
      (∃ index : ℕ, .free index ∈ f.ops ∧ f.numIds ≤ index) ∨
        2 ^ 30 ≤ f.numIds ∧ ∃ op ∈ f.ops, f.trace.slots ≤ op.index := by
  obtain ⟨hnum, hidsHigh, hwithin⟩ := readTrace_ok h
  refine ⟨hnum, fun index size hop => ?_, fun A P blocks blockSizes heap hout => ?_⟩
  · rcases hop with hop | hop
    · obtain ⟨hle, hsize⟩ := hwithin hids _ hop
      exact ⟨by omega, hsize⟩
    · obtain ⟨hle, hsize⟩ := hwithin hids _ hop
      exact ⟨by omega, hsize⟩
  · obtain ⟨op, hop, hle⟩ := exists_of_outOfBounds hout
    by_cases hsmall : f.numIds < 2 ^ 30
    swap
    · exact Or.inr ⟨Int.not_lt.mp hsmall, op, hop, hle⟩
    have hids' : f.trace.numIds = f.numIds.toNat := rfl
    have hle' : f.numIds.toNat ≤ op.index := by
      rw [slots_eq (by omega)] at hle
      exact hle
    have hin := hwithin hids op hop
    cases op with
    | alloc index size =>
      have hindex : index ≤ f.numIds.toNat - 1 := hin.1
      have hle'' : f.numIds.toNat ≤ index := hle'
      omega
    | realloc index size =>
      have hindex : index ≤ f.numIds.toNat - 1 := hin.1
      have hle'' : f.numIds.toNat ≤ index := hle'
      omega
    | free index =>
      have hle'' : f.numIds.toNat ≤ index := hle'
      exact Or.inl ⟨index, hop, by omega⟩

/-- `a 0 100`, `r 0 200` and an `f` of a block that the arrays have no room for. -/
def strayFree : List UInt8 :=
  [48, 10, 49, 10, 51, 10, 48, 10, 97, 32, 48, 32, 49, 48, 48, 10, 114, 32, 48, 32, 50, 48, 48, 10,
    102, 32, 55]

theorem readTrace_strayFree : readTrace (fun _ => true) strayFree =
    .ok ⟨some 0, 1, 3, some 0, [.alloc 0 100, .realloc 0 200, .free 7]⟩ := by
  have hread : readRequests (opsCapacity 3) ⟨strayFree.drop 7, 0, none, 0, []⟩ =
      .ok ⟨[], 7, some 200, 0, [.alloc 0 100, .realloc 0 200, .free 7]⟩ := by
    have hone : scanWord (strayFree.drop 7) = some ([97], strayFree.drop 9) := rfl
    have htwo : scanWord (strayFree.drop 15) = some ([114], strayFree.drop 17) := rfl
    have hthree : scanWord (strayFree.drop 23) = some ([102], strayFree.drop 25) := rfl
    rw [readRequests_cons (r := ⟨strayFree.drop 7, 0, none, 0, []⟩) hone]
    show readRequests (opsCapacity 3) ⟨strayFree.drop 15, 0, some 100, 0, [.alloc 0 100]⟩ = _
    rw [readRequests_cons (r := ⟨strayFree.drop 15, 0, some 100, 0, [.alloc 0 100]⟩) htwo]
    show readRequests (opsCapacity 3)
      ⟨strayFree.drop 23, 0, some 200, 0, [.alloc 0 100, .realloc 0 200]⟩ = _
    rw [readRequests_cons
      (r := ⟨strayFree.drop 23, 0, some 200, 0, [.alloc 0 100, .realloc 0 200]⟩) hthree]
    exact readRequests_nil rfl
  have hheader : readHeader strayFree = .ok (some 0, some 1, some 3, some 0, strayFree.drop 7) := rfl
  rw [readTrace, if_neg (by simp), hheader]
  dsimp only
  rw [if_neg (by simp), if_neg (by simp), if_neg (by simp), hread]
  rfl

theorem readTrace_sound_strayFree : ∃ f, readTrace (fun _ => true) strayFree = .ok f ∧
    ((f.ops.length : ℤ) = f.numOps ∧
      ∀ index size : ℕ, .alloc index size ∈ f.ops ∨ .realloc index size ∈ f.ops →
        (index : ℤ) < f.numIds ∧ size < 2 ^ 32) ∧
    evalMmSpeed lowArena (mmPackage lowArena 4) f.trace (fun _ => 0) lowArena.zeroed =
      .error .outOfBounds ∧
    ∃ index : ℕ, .free index ∈ f.ops ∧ f.numIds ≤ index := by
  have hstop : (match evalMmSpeed lowArena (mmPackage lowArena 4)
      ⟨1, [.alloc 0 100, .realloc 0 200, .free 7]⟩ (fun _ => 0) lowArena.zeroed with
      | .error e => some e
      | .ok _ => none) = some .outOfBounds := by
    decide +kernel
  have hout : evalMmSpeed lowArena (mmPackage lowArena 4)
      ⟨1, [.alloc 0 100, .realloc 0 200, .free 7]⟩ (fun _ => 0) lowArena.zeroed =
        .error .outOfBounds := by
    split at hstop
    · next he =>
      rw [he]
      exact congrArg Except.error (Option.some.inj hstop)
    · cases hstop
  obtain ⟨hnum, hindex, hbounds⟩ := readTrace_sound readTrace_strayFree (by decide)
  refine ⟨_, readTrace_strayFree, ⟨hnum, hindex⟩, hout, ?_⟩
  rcases hbounds lowArena (mmPackage lowArena 4) (fun _ => 0) (fun _ => 0) lowArena.zeroed
    (Or.inr (Or.inr hout)) with hfree | ⟨hlarge, -⟩
  · exact hfree
  · exact absurd hlarge (by decide)

/-! ### Traces written to files -/

/-- The words of a request. -/
def TraceOp.words : TraceOp → List (List UInt8)
  | .alloc index size => [[97], printInt index, printInt size]
  | .realloc index size => [[114], printInt index, printInt size]
  | .free index => [[102], printInt index]

/-- The words of a trace file, which are read in the order of the fields of the header. -/
def TraceFile.words (sugg weight : ℤ) (f : TraceFile) : List (List UInt8) :=
  printInt sugg :: printInt f.numIds :: printInt f.numOps :: printInt weight ::
    f.ops.flatMap TraceOp.words

/-- `max_index` after a request. -/
def TraceOp.raise (maxIndex : ℕ) : TraceOp → ℕ
  | .alloc index _ | .realloc index _ => if maxIndex < index then index else maxIndex
  | .free _ => maxIndex

/-- The numbers of the request are 32-bit words. -/
def TraceOp.Words : TraceOp → Prop
  | .alloc index size | .realloc index size => index < 2 ^ 32 ∧ size < 2 ^ 32
  | .free index => index < 2 ^ 32

section
variable {s : List UInt8} {tokens : List (List UInt8)}

theorem fscanfUnsigned_renders {n : ℕ} (h : Renders (printInt n :: tokens) s) (hn : n < 2 ^ 32) :
    ∃ rest, fscanfUnsigned s = .ok (some n, rest) ∧ (∀ c ∈ rest.head?, isspace c = true) ∧
      Renders tokens rest := by
  obtain ⟨rest, hscan, hsep, hrest⟩ := h.scanInt
  refine ⟨rest, ?_, hsep, hrest⟩
  rw [fscanfUnsigned, hscan]
  have hval : ((n : ℤ) % 2 ^ 32).toNat = n := by omega
  dsimp only
  rw [if_pos (by omega), hval]

theorem fscanfInt_renders {z : ℤ} (h : Renders (printInt z :: tokens) s)
    (hz : -2 ^ 31 ≤ z ∧ z < 2 ^ 31) :
    ∃ rest, fscanfInt s = .ok (some z, rest) ∧ Renders tokens rest := by
  obtain ⟨rest, hscan, -, hrest⟩ := h.scanInt
  refine ⟨rest, ?_, hrest⟩
  rw [fscanfInt, hscan]
  exact if_pos hz

theorem Reader.scanPair_renders {r : Reader} {index size : ℕ}
    (h : Renders (printInt index :: printInt size :: tokens) r.rest) (hindex : index < 2 ^ 32)
    (hsize : size < 2 ^ 32) : ∃ rest, r.scanPair =
      .ok { r with rest := rest, index := index, size := some size } ∧ Renders tokens rest := by
  obtain ⟨rest₁, hfirst, -, hrest₁⟩ := fscanfUnsigned_renders h hindex
  obtain ⟨rest₂, hsecond, -, hrest₂⟩ := fscanfUnsigned_renders hrest₁ hsize
  refine ⟨rest₂, ?_, hrest₂⟩
  rw [scanPair, hfirst]
  dsimp only
  rw [hsecond]

theorem Reader.scanIndex_renders {r : Reader} {index : ℕ}
    (h : Renders (printInt index :: tokens) r.rest) (hindex : index < 2 ^ 32) :
    ∃ rest, r.scanIndex = .ok { r with rest := rest, index := index } ∧ Renders tokens rest := by
  obtain ⟨rest, hscan, hsep, hrest⟩ := fscanfUnsigned_renders h hindex
  refine ⟨rest, ?_, hrest⟩
  have hd : rest.head? ≠ some 100 := by
    intro h100
    have hspace := hsep 100 h100
    revert hspace
    decide
  rw [scanIndex, hscan]
  dsimp only
  rw [if_neg hd]

theorem Reader.readSized_renders {capacity : ℕ} {r : Reader} {index size : ℕ}
    (h : Renders (printInt index :: printInt size :: tokens) r.rest) (hindex : index < 2 ^ 32)
    (hsize : size < 2 ^ 32) (hroom : r.ops.length < capacity) (request : ℕ → ℕ → TraceOp) :
    ∃ rest, r.readSized capacity request =
      .ok ⟨rest, index, some size, if r.maxIndex < index then index else r.maxIndex,
        r.ops ++ [request index size]⟩ ∧ Renders tokens rest := by
  obtain ⟨rest, hpair, hrest⟩ := scanPair_renders h hindex hsize
  refine ⟨rest, ?_, hrest⟩
  rw [readSized, hpair]
  dsimp only
  rw [store, if_neg (Nat.not_le.mpr hroom)]

theorem letter_fits (c : UInt8) : ¬ traceLine ≤ [c].length := by
  rw [List.length_singleton, traceLine]
  omega

/-- A request that is written in the file is stored. -/
theorem readRequests_renders_cons {capacity : ℕ} {r : Reader} {op : TraceOp}
    (h : Renders (op.words ++ tokens) r.rest) (hop : op.Words) (hroom : r.ops.length < capacity) :
    ∃ r₁, readRequests capacity r = readRequests capacity r₁ ∧ r₁.ops = r.ops ++ [op] ∧
      r₁.maxIndex = op.raise r.maxIndex ∧ Renders tokens r₁.rest := by
  cases op with
  | alloc index size =>
    obtain ⟨rest, hword, hrest⟩ := h.scanWord (by simp) (List.forall_mem_singleton.mpr rfl)
    obtain ⟨rest', hsized, hrest'⟩ := Reader.readSized_renders
      (r := { r with rest := rest }) hrest hop.1 hop.2 hroom .alloc
    refine ⟨⟨rest', index, some size, TraceOp.raise r.maxIndex (.alloc index size),
      r.ops ++ [.alloc index size]⟩, ?_, rfl, rfl, hrest'⟩
    rw [readRequests_cons hword, Reader.readRequest, if_neg (letter_fits _)]
    show (match Reader.readSized capacity { r with rest := rest } TraceOp.alloc with
      | Except.error e => Except.error e
      | Except.ok r' => readRequests capacity r') = _
    rw [hsized]
    rfl
  | realloc index size =>
    obtain ⟨rest, hword, hrest⟩ := h.scanWord (by simp) (List.forall_mem_singleton.mpr rfl)
    obtain ⟨rest', hsized, hrest'⟩ := Reader.readSized_renders
      (r := { r with rest := rest }) hrest hop.1 hop.2 hroom .realloc
    refine ⟨⟨rest', index, some size, TraceOp.raise r.maxIndex (.realloc index size),
      r.ops ++ [.realloc index size]⟩, ?_, rfl, rfl, hrest'⟩
    rw [readRequests_cons hword, Reader.readRequest, if_neg (letter_fits _)]
    show (match Reader.readSized capacity { r with rest := rest } TraceOp.realloc with
      | Except.error e => Except.error e
      | Except.ok r' => readRequests capacity r') = _
    rw [hsized]
    rfl
  | free index =>
    obtain ⟨rest, hword, hrest⟩ := h.scanWord (by simp) (List.forall_mem_singleton.mpr rfl)
    obtain ⟨rest', hindex, hrest'⟩ :=
      Reader.scanIndex_renders (r := { r with rest := rest }) hrest hop
    refine ⟨⟨rest', index, r.size, r.maxIndex, r.ops ++ [.free index]⟩, ?_, rfl, rfl, hrest'⟩
    have hfree : Reader.readRequest capacity { r with rest := rest } [102] =
        .ok ⟨rest', index, r.size, r.maxIndex, r.ops ++ [.free index]⟩ := by
      rw [Reader.readRequest, if_neg (letter_fits _)]
      show (match Reader.scanIndex { r with rest := rest } with
        | Except.error e => Except.error e
        | Except.ok r => r.store capacity (.free r.index)) = _
      rw [hindex]
      dsimp only
      rw [Reader.store, if_neg (Nat.not_le.mpr hroom)]
    rw [readRequests_cons hword, hfree]

theorem readRequests_renders {capacity : ℕ} {ops : List TraceOp} {r : Reader}
    (h : Renders (ops.flatMap TraceOp.words) r.rest) (hops : ∀ op ∈ ops, op.Words)
    (hroom : r.ops.length + ops.length ≤ capacity) :
    ∃ r', readRequests capacity r = .ok r' ∧ r'.ops = r.ops ++ ops ∧
      r'.maxIndex = ops.foldl TraceOp.raise r.maxIndex := by
  induction ops generalizing r with
  | nil =>
    refine ⟨r, readRequests_nil (scanWord_nil h), ?_, rfl⟩
    rw [List.append_nil]
  | cons op ops ih =>
    rw [List.flatMap_cons] at h
    rw [List.length_cons] at hroom
    have hroom₀ : r.ops.length < capacity := by omega
    obtain ⟨r₁, hread, hstored, hmax, hrest⟩ :=
      readRequests_renders_cons h (hops op List.mem_cons_self) hroom₀
    have hroom₁ : r₁.ops.length + ops.length ≤ capacity := by
      rw [hstored, List.length_append, List.length_singleton]
      omega
    obtain ⟨r', hread', hstored', hmax'⟩ :=
      ih hrest (fun op hop => hops op (List.mem_cons_of_mem _ hop)) hroom₁
    refine ⟨r', hread.trans hread', ?_, ?_⟩
    · rw [hstored', hstored, List.append_assoc]
      rfl
    · rw [hmax', hmax]
      rfl

end

theorem opsCapacity_natCast {n : ℕ} (h : n * 12 < 2 ^ 32) : opsCapacity n = n := by
  have hbytes : (n : ℤ) * 12 % 2 ^ 32 = (n * 12 : ℕ) := by omega
  rw [opsCapacity, hbytes, Int.toNat_natCast, Nat.mul_div_cancel n (by decide)]

/-- **Round trip.**  A trace whose header tells the number of its requests and one more than their
highest index is read back from any file that has its words, whatever white space stands between
them, as long as the size of `ops` does not overflow; `malloc` succeeds. -/
theorem readTrace_renders {f : TraceFile} {sugg weight : ℤ} {file : List UInt8}
    (hfile : Renders (f.words sugg weight) file) (hsugg : f.suggHeapsize = some sugg)
    (hweight : f.weight = some weight) (hsuggFits : -2 ^ 31 ≤ sugg ∧ sugg < 2 ^ 31)
    (hweightFits : -2 ^ 31 ≤ weight ∧ weight < 2 ^ 31) (hops : ∀ op ∈ f.ops, op.Words)
    (hids : f.numIds = f.ops.foldl TraceOp.raise 0 + 1) (hidsFits : f.numIds < 2 ^ 31)
    (hnum : f.numOps = f.ops.length) (hnumFits : f.ops.length * 12 < 2 ^ 32) :
    readTrace (fun _ => true) file = .ok f := by
  obtain ⟨s₁, h₁, hrest₁⟩ := fscanfInt_renders hfile hsuggFits
  obtain ⟨s₂, h₂, hrest₂⟩ := fscanfInt_renders hrest₁ (by omega)
  obtain ⟨s₃, h₃, hrest₃⟩ := fscanfInt_renders hrest₂ (by omega)
  obtain ⟨s₄, h₄, hrest₄⟩ := fscanfInt_renders hrest₃ hweightFits
  have hheader : readHeader file =
      .ok (some sugg, some f.numIds, some f.numOps, some weight, s₄) := by
    rw [readHeader, h₁]
    simp only [bind, Except.bind, pure, Except.pure, h₂, h₃, h₄]
  have hroom : ([] : List TraceOp).length + f.ops.length ≤ opsCapacity f.numOps := by
    rw [hnum, opsCapacity_natCast hnumFits, List.length_nil, Nat.zero_add]
  obtain ⟨r, hread, hstored, hmax⟩ :=
    readRequests_renders (r := ⟨s₄, 0, none, 0, []⟩) hrest₄ hops hroom
  have hmax' : r.maxIndex = f.ops.foldl TraceOp.raise 0 := hmax
  have hstored' : r.ops = f.ops := hstored
  rw [readTrace, if_neg (by simp), hheader]
  dsimp only
  rw [if_neg (by simp), if_neg (by simp), if_neg (by simp), hread]
  dsimp only
  rw [if_neg, hstored', ← hsugg, ← hweight]
  rw [not_or, not_not, not_not, hstored']
  omega

/-- An allocation and its release, one word a line. -/
theorem readTrace_renders_pair : readTrace (fun _ => true)
    ((TraceFile.words 20000 1 ⟨some 20000, 1, 2, some 1, [.alloc 0 2040, .free 0]⟩).flatMap
      fun w => w ++ [10]) = .ok ⟨some 20000, 1, 2, some 1, [.alloc 0 2040, .free 0]⟩ :=
  readTrace_renders (renders_lines _) rfl rfl (by decide) (by decide)
    (List.forall_mem_cons.mpr ⟨⟨by decide, by decide⟩, List.forall_mem_cons.mpr
      ⟨Nat.two_pow_pos 32, List.forall_mem_nil _⟩⟩) rfl (by decide) rfl (by decide)

end SystemProgramming.MallocLab
