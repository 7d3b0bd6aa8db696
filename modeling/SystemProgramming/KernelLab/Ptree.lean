import Mathlib.Data.Finite.Defs
import SystemProgramming.Library.Branches
import SystemProgramming.Library.CString
import SystemProgramming.Library.Scanning

/-!
# Tracing the process tree (`write_pid_to_input` in `dbfs_ptree.c`)

A write to the `input` file walks from the task with that pid up to `init` and puts a line for each task
in front of the text it has, in two buffers of 1024 bytes.  The loop stops at pid 1 only, and nothing
counts the bytes.

* `TaskTree` : the tasks of a kernel, with what the kernel ensures.
* `start`, `turn` : a call up to its loop, and one turn of the loop.
* `exists_lineage`, `lineage_ordered` : the parent chains.
* `returned_of_branch`, `overflow_of_branch`, `branch_of_returned` : what becomes of the loop.
* `traces_iff` : the tasks whose branch is traced.
* `fits_iff` : the branches that stay inside the buffers.
-/

namespace SystemProgramming.KernelLab

open Branches CString Decimal

/-! ### Tasks -/

/-- The tasks of a kernel and the search for one by its pid. -/
structure TaskTree (τ : Type*) where
  comm : τ → List UInt8
  comm_length : ∀ t, (comm t).length < 16
  comm_nul : ∀ t, (0 : UInt8) ∉ comm t
  pid : τ → ℕ
  pid_lt : ∀ t, pid t < 2 ^ 31
  pid_injective : Function.Injective pid
  parent : τ → τ
  swapper : τ
  pid_swapper : pid swapper = 0
  parent_swapper : parent swapper = swapper
  init : τ
  pid_init : pid init = 1
  parent_init : parent init = swapper
  kthreadd : τ
  pid_kthreadd : pid kthreadd = 2
  parent_kthreadd : parent kthreadd = swapper
  rooted : ∀ t, ∃ n, parent^[n] t = swapper
  /-- `pid_task(find_get_pid(nr), PIDTYPE_PID)`; the swapper task need not be found -/
  find : ℤ → Option τ
  find_pid : ∀ t, t ≠ swapper → find (pid t) = some t
  pid_of_find : ∀ nr t, find nr = some t → (pid t : ℤ) = nr

namespace TaskTree

variable {τ : Type*} (T : TaskTree τ)

/-- `"%s (%d)\n"` with the command and the pid of a task. -/
def line (t : τ) : List UInt8 := T.comm t ++ ([32, 40] ++ (printNat (T.pid t) ++ [41, 10]))

/-- The lines of some tasks. -/
def text (l : List τ) : List UInt8 := l.flatMap T.line

/-- The bytes of these lines, from the commands and the pids. -/
def size (l : List τ) : ℕ :=
  (l.map fun t => (T.comm t).length + (printNat (T.pid t)).length + 4).sum

/-- The parent chain of a task from the root down, which is `init` or the swapper task. -/
def Lineage (t : τ) (l : List τ) : Prop :=
  Branch T.parent T.init t l ∨ Branch T.parent T.swapper t l

end TaskTree

/-! ### The function -/

/-- The size of `buffer`. -/
def bufferSize : ℕ := 256

/-- The size of `temp_buffer`, of `data` and of the blob. -/
def blobSize : ℕ := 1024

/-- `isspace` of the kernel, which takes the no-break space of Latin-1 for white space too. -/
def isspace (c : UInt8) : Bool := Scanning.isspace c || decide (c = 160)

/-- `sscanf(s, "%u", &input_pid)`, where `input_pid` holds `nr` before. -/
def scanPid (nr : ℤ) (s : List UInt8) : ℤ :=
  let s := s.dropWhile isspace
  if s.head?.any isDigit then Int.bmod (readNat s) (2 ^ 32) else nr

/-- What memory holds before a call: the stack from `buffer` on, `input_pid`, `temp_buffer` and
`data`. -/
structure Memory where
  stack : List UInt8
  inputPid : ℤ
  temp : List UInt8
  temp_length : temp.length = blobSize
  data : List UInt8
  data_length : data.length = blobSize

/-- A call in its loop, after a store outside a buffer, or back with what `data` holds. -/
inductive Call (τ : Type*)
  | tracing (curr : τ) (temp data : List UInt8)
  | overflow
  | returned (ret : ℤ) (data : List UInt8)

/-- The `sprintf`, `strcat` and `strcpy` of one turn. -/
def prepend (line temp data : List UInt8) : Option (List UInt8 × List UInt8) := do
  let temp ← sprintf temp line
  let temp ← strcat temp data
  let data ← strcpy data temp
  return (temp, data)

variable {τ : Type*}

/-- `write_pid_to_input` up to its loop. -/
def start (T : TaskTree τ) (m : Memory) (readable : Bool) (user : List UInt8) : Call τ :=
  if bufferSize < user.length then .overflow
  else if readable = false then .returned (-14) m.data
  else
    match T.find (scanPid m.inputPid (user ++ m.stack.drop user.length)) with
    | none => .returned (-22) m.data
    | some curr => .tracing curr m.temp (filled blobSize [])

/-- One turn of the loop of `write_pid_to_input`; no task has a null parent. -/
def turn (T : TaskTree τ) (length : ℕ) : Call τ → Call τ
  | .tracing curr temp data =>
    match prepend (T.line curr) temp data with
    | none => .overflow
    | some (temp, data) =>
      if T.pid curr ≠ 1 then .tracing (T.parent curr) temp data else .returned length data
  | .overflow => .overflow
  | .returned ret data => .returned ret data

/-! ### One turn -/

variable {T : TaskTree τ} {t : τ} {l : List τ} {s temp : List UInt8} {n : ℕ}

theorem zero_notMem_line (T : TaskTree τ) (t : τ) : (0 : UInt8) ∉ T.line t := by
  intro h
  rcases List.mem_append.mp h with h | h
  · exact T.comm_nul t h
  · rcases List.mem_append.mp h with h | h
    · exact absurd h (by decide)
    · rcases List.mem_append.mp h with h | h
      · exact absurd (isDigit_of_mem_printNat h) (by decide)
      · exact absurd h (by decide)

theorem length_line (T : TaskTree τ) (t : τ) :
    (T.line t).length = (T.comm t).length + (printNat (T.pid t)).length + 4 := by
  simp only [TaskTree.line, List.length_append, List.length_cons, List.length_nil]
  omega

theorem length_line_lt (T : TaskTree τ) (t : τ) : (T.line t).length < blobSize := by
  have hcomm := T.comm_length t
  have hpid : (printNat (T.pid t)).length ≤ 10 :=
    length_printNat_le (by omega) (Nat.lt_trans (T.pid_lt t) (by decide))
  rw [length_line, blobSize]
  omega

theorem pid_eq_one_iff (T : TaskTree τ) (t : τ) : T.pid t = 1 ↔ t = T.init := by
  constructor
  · intro h
    exact T.pid_injective (h.trans T.pid_init.symm)
  · intro h
    rw [h, T.pid_init]

/-- **The three stores of a turn.**  With the text `s` in `data` they are in bounds if and only if the
line and `s` and a NUL fit. -/
theorem prepend_eq (htemp : temp.length = blobSize) (hs : (0 : UInt8) ∉ s)
    (hsize : s.length < blobSize) (T : TaskTree τ) (t : τ) :
    (blobSize ≤ (T.line t ++ s).length ∧
      prepend (T.line t) temp (filled blobSize s) = none) ∨
    ((T.line t ++ s).length < blobSize ∧ ∃ temp', temp'.length = blobSize ∧
      prepend (T.line t) temp (filled blobSize s) = some (temp', filled blobSize (T.line t ++ s))) := by
  have hline := zero_notMem_line T t
  have hlt := length_line_lt T t
  have hprint : sprintf temp (T.line t) =
      some (T.line t ++ 0 :: temp.drop ((T.line t).length + 1)) := sprintf_eq (by omega)
  have hlen : (T.line t ++ 0 :: temp.drop ((T.line t).length + 1)).length = blobSize := by
    simp only [List.length_append, List.length_cons, List.length_drop]
    omega
  have hcat := strcat_eq hline hs hsize (temp.drop ((T.line t).length + 1))
  rw [hlen, ← List.length_append] at hcat
  by_cases hfits : (T.line t ++ s).length < blobSize
  · rw [if_pos hfits] at hcat
    have hnul : (0 : UInt8) ∉ T.line t ++ s := by
      rw [List.mem_append, not_or]
      exact ⟨hline, hs⟩
    have hle : s.length ≤ (T.line t ++ s).length := by
      rw [List.length_append]
      omega
    refine Or.inr ⟨hfits, _, (length_of_strcat hcat).trans hlen, ?_⟩
    rw [prepend, hprint]
    show (strcat _ _).bind _ = _
    rw [hcat]
    show (strcpy _ _).bind _ = _
    rw [strcpy_filled hnul hfits hle]
    rfl
  · rw [if_neg hfits] at hcat
    refine Or.inl ⟨Nat.not_lt.mp hfits, ?_⟩
    rw [prepend, hprint]
    show (strcat _ _).bind _ = _
    rw [hcat]
    rfl

theorem zero_notMem_line_append (T : TaskTree τ) (t : τ) (hs : (0 : UInt8) ∉ s) :
    (0 : UInt8) ∉ T.line t ++ s := by
  rw [List.mem_append, not_or]
  exact ⟨zero_notMem_line T t, hs⟩

theorem turn_overflow (length : ℕ) (htemp : temp.length = blobSize) (hs : (0 : UInt8) ∉ s)
    (hsize : s.length < blobSize) (hover : blobSize ≤ (T.line t ++ s).length) :
    turn T length (.tracing t temp (filled blobSize s)) = .overflow := by
  rcases prepend_eq htemp hs hsize T t with ⟨-, hnone⟩ | ⟨hlt, -⟩
  · rw [turn, hnone]
  · omega

theorem turn_fits (length : ℕ) (htemp : temp.length = blobSize) (hs : (0 : UInt8) ∉ s)
    (hfits : (T.line t ++ s).length < blobSize) :
    ∃ temp', temp'.length = blobSize ∧ turn T length (.tracing t temp (filled blobSize s)) =
      if T.pid t ≠ 1 then .tracing (T.parent t) temp' (filled blobSize (T.line t ++ s))
      else .returned length (filled blobSize (T.line t ++ s)) := by
  have hsize : s.length < blobSize := by
    rw [List.length_append] at hfits
    omega
  rcases prepend_eq htemp hs hsize T t with ⟨hge, -⟩ | ⟨-, temp', htemp', hsome⟩
  · omega
  · refine ⟨temp', htemp', ?_⟩
    rw [turn, hsome]

/-! ### The loop -/

theorem length_text (T : TaskTree τ) (l : List τ) : (T.text l).length = T.size l := by
  rw [TaskTree.text, TaskTree.size, List.length_flatMap]
  simp only [length_line]

theorem iterate_overflow (T : TaskTree τ) (length n : ℕ) : (turn T length)^[n] .overflow = .overflow :=
  Function.iterate_fixed rfl n

theorem iterate_returned (T : TaskTree τ) (length n : ℕ) (ret : ℤ) (data : List UInt8) :
    (turn T length)^[n] (.returned ret data) = .returned ret data :=
  Function.iterate_fixed rfl n

theorem text_singleton (T : TaskTree τ) (t : τ) : T.text [t] = T.line t := by
  rw [TaskTree.text, List.flatMap_singleton]

theorem text_concat_append (T : TaskTree τ) (l : List τ) (t : τ) (s : List UInt8) :
    T.text (l ++ [t]) ++ s = T.text l ++ (T.line t ++ s) := by
  simp only [TaskTree.text, List.flatMap_append, List.flatMap_singleton, List.append_assoc]

/-- **From a task under `init` the loop ends**, when the lines fit, and they stand root-first in front of
the text that was there. -/
theorem returned_of_branch (length : ℕ) (h : Branch T.parent T.init t l)
    (htemp : temp.length = blobSize) (hs : (0 : UInt8) ∉ s) (hfits : (T.text l ++ s).length < blobSize) :
    ∃ n, (turn T length)^[n] (.tracing t temp (filled blobSize s)) =
      .returned length (filled blobSize (T.text l ++ s)) := by
  induction h generalizing temp s with
  | root =>
    rw [text_singleton] at hfits ⊢
    obtain ⟨temp', -, hturn⟩ := turn_fits length htemp hs hfits
    rw [if_neg (not_not.mpr T.pid_init)] at hturn
    exact ⟨1, hturn⟩
  | @child t l hne h ih =>
    rw [text_concat_append] at hfits ⊢
    have hline : (T.line t ++ s).length < blobSize := by
      rw [List.length_append] at hfits
      omega
    obtain ⟨temp', htemp', hturn⟩ := turn_fits length htemp hs hline
    rw [if_pos (mt (pid_eq_one_iff T t).mp hne)] at hturn
    obtain ⟨n, hn⟩ := ih htemp' (zero_notMem_line_append T t hs) hfits
    refine ⟨n + 1, ?_⟩
    rw [Function.iterate_succ_apply, hturn, hn]

/-- When the lines do not fit, some turn stores outside. -/
theorem overflow_of_branch (length : ℕ) (h : Branch T.parent T.init t l)
    (htemp : temp.length = blobSize) (hs : (0 : UInt8) ∉ s) (hsize : s.length < blobSize)
    (hover : blobSize ≤ (T.text l ++ s).length) :
    ∃ n, (turn T length)^[n] (.tracing t temp (filled blobSize s)) = .overflow := by
  induction h generalizing temp s with
  | root =>
    rw [text_singleton] at hover
    exact ⟨1, turn_overflow length htemp hs hsize hover⟩
  | @child t l hne h ih =>
    rw [text_concat_append] at hover
    by_cases hline : (T.line t ++ s).length < blobSize
    · obtain ⟨temp', htemp', hturn⟩ := turn_fits length htemp hs hline
      rw [if_pos (mt (pid_eq_one_iff T t).mp hne)] at hturn
      obtain ⟨n, hn⟩ := ih htemp' (zero_notMem_line_append T t hs) hline hover
      refine ⟨n + 1, ?_⟩
      rw [Function.iterate_succ_apply, hturn, hn]
    · exact ⟨1, turn_overflow length htemp hs hsize (Nat.not_lt.mp hline)⟩

/-- **Only from a task under `init`.**  The loop ends nowhere else. -/
theorem branch_of_returned {length : ℕ} {ret : ℤ} {data : List UInt8} (htemp : temp.length = blobSize)
    (hs : (0 : UInt8) ∉ s) (hsize : s.length < blobSize)
    (h : (turn T length)^[n] (.tracing t temp (filled blobSize s)) = .returned ret data) :
    ∃ l, Branch T.parent T.init t l ∧ (T.text l ++ s).length < blobSize := by
  induction n generalizing t temp s with
  | zero => cases h
  | succ n ih =>
    rw [Function.iterate_succ_apply] at h
    by_cases hline : (T.line t ++ s).length < blobSize
    · obtain ⟨temp', htemp', hturn⟩ := turn_fits length htemp hs hline
      rw [hturn] at h
      by_cases hinit : t = T.init
      · refine ⟨[t], ?_, ?_⟩
        · rw [hinit]
          exact Branch.root
        · rw [text_singleton]
          exact hline
      · rw [if_pos (mt (pid_eq_one_iff T t).mp hinit)] at h
        obtain ⟨l, hl, hfits⟩ := ih htemp' (zero_notMem_line_append T t hs) hline h
        refine ⟨l ++ [t], Branch.child hinit hl, ?_⟩
        rw [text_concat_append]
        exact hfits
    · rw [turn_overflow length htemp hs hsize (Nat.not_lt.mp hline), iterate_overflow] at h
      cases h

/-! ### A whole call -/

/-- The bytes written are read as the pid of a task. -/
def Written (T : TaskTree τ) (m : Memory) (user : List UInt8) (t : τ) : Prop :=
  user.length ≤ bufferSize ∧ scanPid m.inputPid (user ++ m.stack.drop user.length) = T.pid t

/-- The call after `n` turns. -/
def callAfter (T : TaskTree τ) (m : Memory) (user : List UInt8) (n : ℕ) : Call τ :=
  (turn T user.length)^[n] (start T m true user)

theorem callAfter_add (T : TaskTree τ) (m : Memory) (user : List UInt8) (n k : ℕ) :
    callAfter T m user (n + k) = (turn T user.length)^[k] (callAfter T m user n) := by
  rw [callAfter, callAfter, Nat.add_comm, Function.iterate_add_apply]

/-- The call returns, and the blob holds the lines of the tasks `l`. -/
def Exports (T : TaskTree τ) (m : Memory) (user : List UInt8) (l : List τ) : Prop :=
  ∃ n, callAfter T m user n = .returned user.length (filled blobSize (T.text l))

variable {m : Memory} {user : List UInt8}

theorem isspace_of_isDigit {c : UInt8} (h : isDigit c = true) : isspace c = false := by
  rw [isspace, Scanning.isspace_eq_false_of_isDigit h, Bool.false_or, decide_eq_false_iff_not]
  intro hc
  rw [hc] at h
  exact absurd h (by decide)

/-- A pid as `echo` prints it. -/
theorem written_of_line (T : TaskTree τ) (m : Memory) (t : τ) (more : List UInt8)
    (hlen : (printNat (T.pid t) ++ 10 :: more).length ≤ bufferSize) :
    Written T m (printNat (T.pid t) ++ 10 :: more) t := by
  refine ⟨hlen, ?_⟩
  have hread : readNat (printNat (T.pid t) ++ (10 :: more ++
      m.stack.drop (printNat (T.pid t) ++ 10 :: more).length)) = T.pid t := by
    refine readNat_printNat _ fun c hc => ?_
    rw [← Option.some.inj hc]
    rfl
  have hint : Int.bmod (T.pid t) (2 ^ 32) = T.pid t := by
    have hlt := T.pid_lt t
    rw [Int.bmod_eq_emod_of_lt] <;> omega
  rw [List.append_assoc, scanPid]
  cases hdigits : printNat (T.pid t) with
  | nil => exact absurd hdigits (printNat_ne_nil _)
  | cons c s =>
    have hc : isDigit c = true := isDigit_of_mem_printNat (hdigits ▸ List.mem_cons_self)
    rw [hdigits] at hread
    rw [List.cons_append, List.dropWhile_cons_of_neg
      (by rw [isspace_of_isDigit hc]; exact Bool.false_ne_true)]
    show (if isDigit c = true then Int.bmod (readNat _) (2 ^ 32) else _) = _
    rw [if_pos hc, ← List.cons_append, hread, hint]

/-- A call that fails leaves the blob as it was. -/
theorem data_of_start {ret : ℤ} {data : List UInt8} {readable : Bool}
    (h : start T m readable user = .returned ret data) : ret < 0 ∧ data = m.data := by
  rw [start] at h
  split at h
  · cases h
  · split at h
    · cases h
      exact ⟨by decide, rfl⟩
    · split at h
      · cases h
        exact ⟨by decide, rfl⟩
      · cases h

/-- The pid of a task is found, except perhaps that of the swapper task. -/
theorem start_of_written (hw : Written T m user t) :
    start T m true user = .tracing t m.temp (filled blobSize []) ∨
      t = T.swapper ∧ start T m true user = .returned (-22) m.data := by
  obtain ⟨hlen, hscan⟩ := hw
  rw [start, if_neg (Nat.not_lt.mpr hlen), if_neg (by decide), hscan]
  by_cases hswapper : t = T.swapper
  · cases hfind : T.find (T.pid t) with
    | none => exact Or.inr ⟨hswapper, rfl⟩
    | some u =>
      obtain rfl : u = t := T.pid_injective (by exact_mod_cast T.pid_of_find _ _ hfind)
      exact Or.inl rfl
  · rw [T.find_pid t hswapper]
    exact Or.inl rfl

/-- Every task has a parent chain. -/
theorem exists_lineage (T : TaskTree τ) (t : τ) : ∃ l, T.Lineage t l := by
  obtain ⟨l, hl⟩ := exists_branch_iff.mpr (T.rooted t)
  exact ⟨l, Or.inr hl⟩

/-- **What a parent chain is.**  It starts at `init` or the swapper task and ends at the task, each task
but the first stands behind its parent, and none stands on it twice. -/
theorem lineage_ordered (h : T.Lineage t l) :
    (l.head? = some T.init ∨ l.head? = some T.swapper) ∧ l.getLast? = some t ∧
      (l.IsChain fun a b => a = T.parent b) ∧ l.Nodup := by
  rcases h with h | h
  · exact ⟨Or.inl h.head?_eq, h.getLast?_eq, h.isChain, h.nodup⟩
  · exact ⟨Or.inr h.head?_eq, h.getLast?_eq, h.isChain, h.nodup⟩

theorem ne_swapper_of_branch (h : Branch T.parent T.init t l) : t ≠ T.swapper := by
  rintro rfl
  obtain ⟨n, hn⟩ := exists_branch_iff.mp ⟨l, h⟩
  rw [Function.iterate_fixed T.parent_swapper] at hn
  have hpid := T.pid_init
  rw [← hn, T.pid_swapper] at hpid
  cases hpid

theorem start_of_branch (hw : Written T m user t) (h : Branch T.parent T.init t l) :
    start T m true user = .tracing t m.temp (filled blobSize []) := by
  rcases start_of_written hw with hstart | ⟨hswapper, -⟩
  · exact hstart
  · exact absurd hswapper (ne_swapper_of_branch h)

theorem exports_of_branch (hw : Written T m user t) (h : Branch T.parent T.init t l)
    (hfits : T.size l < blobSize) : Exports T m user l := by
  have hempty : T.text l ++ [] = T.text l := List.append_nil _
  rw [← length_text] at hfits
  obtain ⟨n, hn⟩ := returned_of_branch user.length h m.temp_length List.not_mem_nil
    (hempty.symm ▸ hfits)
  refine ⟨n, ?_⟩
  rw [callAfter, start_of_branch hw h, hn, hempty]

theorem branch_of_exports (hw : Written T m user t) (h : Exports T m user l) :
    ∃ l', Branch T.parent T.init t l' ∧ T.size l' < blobSize := by
  obtain ⟨n, hn⟩ := h
  rw [callAfter] at hn
  rcases start_of_written hw with hstart | ⟨-, hstart⟩
  · rw [hstart] at hn
    obtain ⟨l', hl', hfits⟩ := branch_of_returned m.temp_length List.not_mem_nil (by decide) hn
    rw [List.append_nil, length_text] at hfits
    exact ⟨l', hl', hfits⟩
  · rw [hstart, iterate_returned] at hn
    have hret : (-22 : ℤ) = user.length := (Call.returned.inj hn).1
    omega

theorem overflows_of_branch (hw : Written T m user t) (h : Branch T.parent T.init t l)
    (hover : blobSize ≤ T.size l) : ∃ n, callAfter T m user n = .overflow := by
  rw [← length_text, ← List.append_nil (T.text l)] at hover
  obtain ⟨n, hn⟩ := overflow_of_branch user.length h m.temp_length List.not_mem_nil
    (by decide) hover
  refine ⟨n, ?_⟩
  rw [callAfter, start_of_branch hw h, hn]

/-! ### A kernel with a chain of processes -/

/-- A kernel in which the swapper task, `init` and `kthreadd` have the first three pids, and the next
ones are those of a process of `init`, its child, the child of that and so on, each with a command of
15 characters. -/
def chainTree (n : ℕ) (hn : n + 3 < 2 ^ 31) : TaskTree (Fin (n + 3)) where
  comm _ := List.replicate 15 97
  comm_length _ := by decide
  comm_nul _ := by decide
  pid t := t.val
  pid_lt t := Nat.lt_trans t.isLt hn
  pid_injective _ _ h := Fin.ext h
  parent t := ⟨if t.val ≤ 2 then 0 else if t.val = 3 then 1 else t.val - 1, by split_ifs <;> omega⟩
  swapper := ⟨0, by omega⟩
  pid_swapper := rfl
  parent_swapper := rfl
  init := ⟨1, by omega⟩
  pid_init := rfl
  parent_init := rfl
  kthreadd := ⟨2, by omega⟩
  pid_kthreadd := rfl
  parent_kthreadd := rfl
  rooted := by
    rintro ⟨t, ht⟩
    induction t using Nat.strong_induction_on with
    | _ t ih =>
      by_cases hzero : t = 0
      · exact ⟨0, by simp only [hzero]; rfl⟩
      · have hless : (if t ≤ 2 then 0 else if t = 3 then 1 else t - 1) < t := by split_ifs <;> omega
        obtain ⟨k, hk⟩ := ih _ hless (Nat.lt_trans hless ht)
        exact ⟨k + 1, hk⟩
  find nr := if h : 0 < nr ∧ nr.toNat < n + 3 then some ⟨nr.toNat, h.2⟩ else none
  find_pid := by
    rintro ⟨t, ht⟩ hne
    have hpos : 0 < t := Nat.pos_of_ne_zero fun hzero => hne (Fin.ext hzero)
    rw [dif_pos ⟨by exact_mod_cast hpos, ht⟩]
    rfl
  pid_of_find := by
    intro nr t h
    split_ifs at h with hnr
    rw [← Option.some.inj h]
    exact Int.toNat_of_nonneg (Int.le_of_lt hnr.1)

theorem chainTree_branch (hn : n + 3 < 2 ^ 31) (k : ℕ) (hk : k + 3 < n + 3) :
    ∃ l, Branch (chainTree n hn).parent (chainTree n hn).init
      ⟨k + 3, hk⟩ l ∧ l.length = k + 2 := by
  induction k with
  | zero =>
    refine ⟨[(chainTree n hn).init, ⟨3, hk⟩], ?_, rfl⟩
    exact Branch.child (l := [_]) (fun h => by cases Fin.mk.inj h) Branch.root
  | succ k ih =>
    obtain ⟨l, hl, hlength⟩ := ih (by omega)
    refine ⟨l ++ [⟨k + 4, hk⟩], Branch.child (fun h => ?_) hl, ?_⟩
    · cases Fin.mk.inj h
    · rw [List.length_append, hlength]
      rfl

/-- Zeros. -/
def zeroMemory : Memory where
  stack := []
  inputPid := 0
  temp := List.replicate blobSize 0
  temp_length := List.length_replicate
  data := List.replicate blobSize 0
  data_length := List.length_replicate

/-- `kthreadd` has no branch below `init`. -/
theorem chainTree_kthreadd (hn : n + 3 < 2 ^ 31) (l : List (Fin (n + 3))) :
    ¬ Branch (chainTree n hn).parent (chainTree n hn).init
      (chainTree n hn).kthreadd l := by
  intro h
  obtain ⟨k, hk⟩ := exists_branch_iff.mp ⟨l, h⟩
  cases k with
  | zero => cases Fin.mk.inj hk
  | succ k =>
    rw [Function.iterate_succ_apply, (chainTree n hn).parent_kthreadd,
      Function.iterate_fixed (chainTree n hn).parent_swapper] at hk
    cases Fin.mk.inj hk

/-- Each line has at least 20 bytes. -/
theorem chainTree_size (hn : n + 3 < 2 ^ 31) (l : List (Fin (n + 3))) :
    20 * l.length ≤ (chainTree n hn).size l := by
  induction l with
  | nil => exact Nat.zero_le _
  | cons t l ih =>
    have hdigits : 0 < (printNat ((chainTree n hn).pid t)).length :=
      List.length_pos_of_ne_nil (printNat_ne_nil _)
    have hcons : (chainTree n hn).size (t :: l) =
        15 + (printNat ((chainTree n hn).pid t)).length + 4 + (chainTree n hn).size l := rfl
    rw [hcons, List.length_cons]
    omega

/-- A kernel in which `init` is alone. -/
def initAlone : TaskTree (Fin 3) := chainTree 0 (by decide)

/-- A kernel with three processes below `init`. -/
def shallowTree : TaskTree (Fin 6) := chainTree 3 (by decide)

theorem shallowTree_branch : Branch shallowTree.parent shallowTree.init 5 [1, 3, 4, 5] := by
  have hthree : Branch shallowTree.parent shallowTree.init 3 [1, 3] :=
    Branch.child (l := [_]) (by decide) Branch.root
  have hfour : Branch shallowTree.parent shallowTree.init 4 [1, 3, 4] :=
    Branch.child (l := [_, _]) (by decide) hthree
  exact Branch.child (l := [_, _, _]) (by decide) hfour

/-- A kernel with 51 processes below `init`. -/
def deepTree : TaskTree (Fin 54) := chainTree 51 (by decide)

/-! ### The tasks that are traced -/

/-- **The tasks that are traced.**  A write of the pid of a task returns, with one line for each task of
its parent chain from the root down in the blob, if and only if `init` is on that chain and the lines
from `init` down and a NUL fit in the blob. -/
theorem traces_iff (T : TaskTree τ) (m : Memory) (user : List UInt8) (t : τ)
    (hw : Written T m user t) :
    (∃ l, T.Lineage t l ∧ Exports T m user l) ↔
      ∃ l, Branch T.parent T.init t l ∧ T.size l < blobSize := by
  constructor
  · rintro ⟨l, -, hexports⟩
    exact branch_of_exports hw hexports
  · rintro ⟨l, hl, hfits⟩
    exact ⟨l, Or.inl hl, exports_of_branch hw hl hfits⟩

/-- The third process below `init`. -/
theorem traces_iff_shallow : ∃ l, shallowTree.Lineage 5 l ∧
    Exports shallowTree zeroMemory (printNat 5 ++ [10]) l :=
  (traces_iff shallowTree zeroMemory (printNat 5 ++ [10]) 5
    (written_of_line shallowTree zeroMemory 5 [] (by decide))).mpr
      ⟨[1, 3, 4, 5], shallowTree_branch, by decide⟩

/-- **`kthreadd` is not traced.**  The loop never meets pid 1. -/
theorem kthreadd_not_traced : ¬ ∀ (τ : Type) (_ : Finite τ) (T : TaskTree τ) (m : Memory)
    (user : List UInt8) (t : τ), Written T m user t → ∃ l, T.Lineage t l ∧ Exports T m user l := by
  intro hall
  have hw := written_of_line initAlone zeroMemory initAlone.kthreadd [] (by decide)
  obtain ⟨l, -, hexports⟩ := hall _ ⟨Equiv.refl _⟩ initAlone zeroMemory _ _ hw
  obtain ⟨l', hl', -⟩ := branch_of_exports hw hexports
  exact chainTree_kthreadd (by decide) l' hl'

/-- **The branches that fit.**  For a task under `init` no store of a call is out of bounds and the whole
branch is in the blob if and only if the commands, the digits of the pids and four more characters a
task come to fewer than 1024 bytes. -/
theorem fits_iff (T : TaskTree τ) (m : Memory) (user : List UInt8) (t : τ) (l : List τ)
    (hw : Written T m user t) (h : Branch T.parent T.init t l) :
    ((∀ n, callAfter T m user n ≠ .overflow) ∧ Exports T m user l) ↔ T.size l < blobSize := by
  constructor
  · rintro ⟨hbounds, -⟩
    by_contra hover
    obtain ⟨n, hn⟩ := overflows_of_branch hw h (Nat.not_lt.mp hover)
    exact hbounds n hn
  · intro hfits
    have hexports := exports_of_branch hw h hfits
    refine ⟨fun k hk => ?_, hexports⟩
    obtain ⟨n, hn⟩ := hexports
    -- a call that has returned stays so, and so does one that has gone wrong
    have hlater := callAfter_add T m user n k
    rw [hn, iterate_returned, Nat.add_comm, callAfter_add, hk, iterate_overflow] at hlater
    cases hlater

theorem fits_iff_shallow :
    (∀ n, callAfter shallowTree zeroMemory (printNat 5 ++ [10]) n ≠ .overflow) ∧
      Exports shallowTree zeroMemory (printNat 5 ++ [10]) [1, 3, 4, 5] :=
  (fits_iff shallowTree zeroMemory (printNat 5 ++ [10]) 5 [1, 3, 4, 5]
    (written_of_line shallowTree zeroMemory 5 [] (by decide)) shallowTree_branch).mpr (by decide)

/-- **A deep branch overflows.**  The process with pid 53 below 50 others and `init`, each with a command
of 15 characters. -/
theorem deep_branch_overflows : ¬ ∀ (τ : Type) (_ : Finite τ) (T : TaskTree τ) (m : Memory)
    (user : List UInt8) (t : τ) (l : List τ), Written T m user t → Branch T.parent T.init t l →
      (∀ n, callAfter T m user n ≠ .overflow) ∧ Exports T m user l := by
  intro hall
  obtain ⟨l, hl, hlength⟩ := chainTree_branch (n := 51) (by decide) 50 (by decide)
  have hw := written_of_line deepTree zeroMemory ⟨53, by decide⟩ [] (by decide)
  have hsize : 20 * l.length ≤ deepTree.size l := chainTree_size (by decide) l
  have hover : blobSize ≤ deepTree.size l := by
    rw [blobSize]
    omega
  obtain ⟨k, hk⟩ := overflows_of_branch hw hl hover
  exact (hall _ ⟨Equiv.refl _⟩ deepTree zeroMemory _ _ l hw hl).1 k hk

end SystemProgramming.KernelLab
