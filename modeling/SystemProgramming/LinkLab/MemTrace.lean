import Mathlib.Algebra.BigOperators.Group.List.Basic
import Mathlib.Data.UInt
import Mathlib.Tactic.Abel
import SystemProgramming.Library.Holdings
import SystemProgramming.LinkLab.MemList

/-!
# The allocation tracer (`memtrace.c`, parts 2 and 3)

The wrappers of `malloc`, `calloc`, `realloc` and `free` record every call in the list of blocks and
in five counters of type `unsigned long`.  What libc answers is an argument of a wrapper; the two
parts differ in `free` only.  A wrapper returns `none` where it reads the size of a missing item.

* `Tracks` : the invariant; the list says of every block whether it is live, and its size.
* `Call.exec_spec` : what one call does to the list and to the two byte counters.
* `counters_balanced_iff` : in which runs the counters agree with the live blocks after every call.
-/

namespace SystemProgramming.LinkLab

open Holdings

/-! ### The wrappers -/

/-- The messages of the wrappers about refused calls of `free`. -/
inductive Notice
  | doubleFree
  | illFree
  deriving DecidableEq

/-- The static variables of `memtrace.c` and the messages logged so far. -/
structure Tracer where
  list : MemList
  nMalloc : UInt64
  nCalloc : UInt64
  nRealloc : UInt64
  nAllocb : UInt64
  nFreeb : UInt64
  log : List Notice

/-- `init`, where the dummy element of the list is at `a`. -/
def init (a : ℕ) : Tracer := ⟨newList a, 0, 0, 0, 0, 0, []⟩

/-- The versions of the tracer. -/
inductive Part
  | part2
  | part3

namespace Tracer

/-- `malloc`: libc returned `res`, and `a` for the item. -/
def malloc (size : UInt64) (res a : ℕ) (s : Tracer) : Tracer :=
  { s with
    list := (s.list.alloc a res size).2
    nMalloc := s.nMalloc + 1
    nAllocb := s.nAllocb + size }

/-- `calloc`. -/
def calloc (nmemb size : UInt64) (res a : ℕ) (s : Tracer) : Tracer :=
  { s with
    list := (s.list.alloc a res (nmemb * size)).2
    nCalloc := s.nCalloc + 1
    nAllocb := s.nAllocb + nmemb * size }

/-- `realloc`: the old item is looked up before the new block is recorded, and its size is read
afterwards. -/
def realloc (ptr : ℕ) (size : UInt64) (res a : ℕ) (s : Tracer) : Option Tracer := do
  let (deallocated, list) := s.list.dealloc ptr
  let (_, list) := list.alloc a res size
  let item ← list.itemAt (← deallocated)
  some { s with
    list := list
    nRealloc := s.nRealloc + 1
    nAllocb := s.nAllocb + size
    nFreeb := s.nFreeb + item.size }

/-- `free` of part 2. -/
def freePart2 (ptr : ℕ) (s : Tracer) : Option Tracer := do
  let (deallocated, list) := s.list.dealloc ptr
  let item ← list.itemAt (← deallocated)
  some { s with
    list := list
    nFreeb := s.nFreeb + item.size }

/-- `free` of part 3: the scan for the block starts at the dummy element. -/
def freePart3 (ptr : ℕ) (s : Tracer) : Option Tracer :=
  match (s.list.dummy :: s.list.items).find? fun i => i.ptr = ptr with
  | none => some { s with log := s.log ++ [.illFree] }
  | some curr =>
    if curr.cnt = 0 then some { s with log := s.log ++ [.doubleFree] } else freePart2 ptr s

/-- `free`. -/
def free : Part → ℕ → Tracer → Option Tracer
  | .part2 => freePart2
  | .part3 => freePart3

end Tracer

/-! ### Calls and runs -/

/-- The live blocks of the traced program, with their sizes. -/
abbrev Live := List (ℕ × UInt64)

/-- The traced program: its live blocks, and the total of the sizes that the released ones had when
they were released. -/
structure Client where
  live : Live
  freed : UInt64

/-- A call of the traced program, with the block libc returned and the address libc returned for the
item. -/
inductive Call
  | malloc (size : UInt64) (res a : ℕ)
  | calloc (nmemb size : UInt64) (res a : ℕ)
  | realloc (ptr : ℕ) (size : UInt64) (res a : ℕ)
  | free (ptr : ℕ)

/-- The addresses of the items of a list, the dummy element's included. -/
def MemList.addrs (l : MemList) : List ℕ := (l.dummy :: l.items).map Item.addr

/-- The current size of the live block at `p`. -/
def Live.sizeAt (live : Live) (p : ℕ) : UInt64 := (held live p).getD 0

/-- The sum of the current sizes of the live blocks, modulo `2^64`. -/
def Live.total (live : Live) : UInt64 := (live.map Prod.snd).sum

namespace Call

/-- What the wrapper does. -/
def exec (part : Part) : Call → Tracer → Option Tracer
  | malloc size res a, s => some (s.malloc size res a)
  | calloc nmemb size res a, s => some (s.calloc nmemb size res a)
  | realloc ptr size res a, s => s.realloc ptr size res a
  | free ptr, s => s.free part ptr

/-- The size of the block the call releases. -/
def released (live : Live) : Call → UInt64
  | malloc .. | calloc .. => 0
  | realloc ptr .. | free ptr => live.sizeAt ptr

/-- The live blocks after the call. -/
def settle (live : Live) : Call → Live
  | malloc size res _ => (res, size) :: live
  | calloc nmemb size res _ => (res, nmemb * size) :: live
  | realloc ptr size res _ => (res, size) :: release live ptr
  | free ptr => release live ptr

/-- The traced program after the call. -/
def next (c : Call) (k : Client) : Client := ⟨c.settle k.live, k.freed + c.released k.live⟩

/-- Every libc call succeeds and hands out no live address, except that `realloc` may return its
argument; `realloc` and `free` are called with live pointers. -/
def Legal (s : Tracer) (live : Live) : Call → Prop
  | malloc _ res a | calloc _ _ res a =>
    res ≠ 0 ∧ res ∉ live.map Prod.fst ∧ a ∉ s.list.addrs
  | realloc ptr _ res a =>
    ptr ∈ live.map Prod.fst ∧ res ≠ 0 ∧ (res = ptr ∨ res ∉ live.map Prod.fst) ∧ a ∉ s.list.addrs
  | free ptr => ptr ∈ live.map Prod.fst

instance (s : Tracer) (live : Live) : (c : Call) → Decidable (c.Legal s live)
  | malloc .. | calloc .. => inferInstanceAs (Decidable (_ ∧ _ ∧ _))
  | realloc .. => inferInstanceAs (Decidable (_ ∧ _ ∧ _ ∧ _))
  | free _ => inferInstanceAs (Decidable (_ ∈ _))

/-- A reallocation that returns its argument asks for the size the block has. -/
def KeepsSize (live : Live) : Call → Prop
  | realloc ptr size res _ => res = ptr → size = live.sizeAt ptr
  | _ => True

end Call

/-- The counters agree with the live blocks, and `n_freeb` with the released ones, modulo `2^64`. -/
def Balanced (s : Tracer) (k : Client) : Prop :=
  s.nAllocb - s.nFreeb = k.live.total ∧ s.nFreeb = k.freed

/-- Every call of the run is legal in the state it is made in. -/
def LegalRun (part : Part) : Tracer → Live → List Call → Prop
  | _, _, [] => True
  | s, live, c :: cs =>
    c.Legal s live ∧ ∀ s' ∈ c.exec part s, LegalRun part s' (c.settle live) cs

instance decidableLegalRun (part : Part) :
    (s : Tracer) → (live : Live) → (cs : List Call) → Decidable (LegalRun part s live cs)
  | _, _, [] => inferInstanceAs (Decidable True)
  | _, _, _ :: cs =>
    have := fun s live => decidableLegalRun part s live cs
    inferInstanceAs (Decidable (_ ∧ ∀ s' ∈ _, LegalRun part s' _ cs))

/-- Every call of the run returns, and the counters are balanced after it. -/
def BalancedRun (part : Part) : Tracer → Client → List Call → Prop
  | _, _, [] => True
  | s, k, c :: cs => ∃ s' ∈ c.exec part s, Balanced s' (c.next k) ∧
      BalancedRun part s' (c.next k) cs

instance (s : Tracer) (k : Client) : Decidable (Balanced s k) := inferInstanceAs (Decidable (_ ∧ _))

instance decidableBalancedRun (part : Part) :
    (s : Tracer) → (k : Client) → (cs : List Call) → Decidable (BalancedRun part s k cs)
  | _, _, [] => inferInstanceAs (Decidable True)
  | _, _, _ :: cs =>
    have := fun s k => decidableBalancedRun part s k cs
    inferInstanceAs (Decidable (∃ s' ∈ _, Balanced s' _ ∧ BalancedRun part s' _ cs))

/-- Every reallocation of the run that returns its argument asks for the size the block has. -/
def KeepsSizes : Live → List Call → Prop
  | _, [] => True
  | live, c :: cs => c.KeepsSize live ∧ KeepsSizes (c.settle live) cs

/-! ### The invariant -/

/-- The list says of every block whether it is live, and the size of the live ones. -/
structure Tracks (l : MemList) (live : Live) : Prop where
  sorted : Sorted l.items
  addrs : l.addrs.Nodup
  dummy : l.dummy.ptr = 0
  keys : (live.map Prod.fst).Nodup
  nonzero : ∀ p ∈ live.map Prod.fst, p ≠ 0
  recorded : ∀ p n, (p, n) ∈ live → ∃ c, lookup p l.items = some c ∧ c.size = n ∧ c.cnt = 1
  freed : ∀ p c, lookup p l.items = some c → p ∉ live.map Prod.fst → c.cnt = 0

/-- What every list keeps, whatever is recorded in it. -/
structure MemList.WellFormed (l : MemList) : Prop where
  sorted : Sorted l.items
  addrs : l.addrs.Nodup
  dummy : l.dummy.ptr = 0

namespace MemList

variable {l : MemList} {p q a : ℕ} {n : UInt64} {c : Item}

theorem addrs_dealloc (l : MemList) (p : ℕ) : (l.dealloc p).2.addrs = l.addrs := by
  show l.dummy.addr :: (deallocFrom p l.items).2.map Item.addr = _
  rw [map_dealloc Item.addr fun _ _ => rfl]
  rfl

theorem notMem_addrs_dealloc {l : MemList} {a : ℕ} (p : ℕ) (ha : a ∉ l.addrs) :
    a ∉ (l.dealloc p).2.addrs := by
  rw [addrs_dealloc]
  exact ha

/-- The map after `alloc`. -/
theorem WellFormed.lookup_alloc (w : l.WellFormed) : lookup q (l.alloc a p n).2.items =
    if q = p then some (merge ⟨a, p, n, 1⟩ (lookup p l.items)) else lookup q l.items := by
  by_cases hq : q = p
  · rw [if_pos hq, hq]
    exact lookup_alloc_self (i := ⟨a, p, n, 1⟩) w.sorted
  · rw [if_neg hq]
    exact lookup_alloc_ne (i := ⟨a, p, n, 1⟩) hq

/-- The map after `dealloc`. -/
theorem lookup_dealloc : lookup q (l.dealloc p).2.items =
    if q = p then (lookup p l.items).map fun c => { c with cnt := c.cnt - 1 }
    else lookup q l.items := by
  by_cases hq : q = p
  · rw [if_pos hq, hq]
    exact lookup_dealloc_self
  · rw [if_neg hq]
    exact lookup_dealloc_ne hq

namespace WellFormed

/-- A pointer to an item leads to the item. -/
theorem itemAt_eq (w : l.WellFormed) (h : lookup p l.items = some c) :
    l.itemAt c.addr = some c := by
  have hmem : c ∈ l.dummy :: l.items := List.mem_cons_of_mem _ (lookup_some h).1
  obtain ⟨d, hd⟩ : ∃ d, l.itemAt c.addr = some d := by
    cases hf : l.itemAt c.addr with
    | none => exact absurd (List.find?_eq_none.mp hf c hmem) (by simp)
    | some d => exact ⟨d, rfl⟩
  have haddr : d.addr = c.addr := by simpa using List.find?_some hd
  rw [hd, List.inj_on_of_nodup_map w.addrs (List.mem_of_find?_eq_some hd) hmem haddr]

theorem alloc (w : l.WellFormed) (ha : a ∉ l.addrs) : (l.alloc a p n).2.WellFormed := by
  refine ⟨sorted_alloc w.sorted, ?_, w.dummy⟩
  have hnd := w.addrs
  rw [MemList.addrs, List.map_cons] at hnd ha ⊢
  have hinsert : (((allocFrom ⟨a, p, n, 1⟩ l.items).2.map Item.addr).Perm _ ∨ _) := addrs_alloc
  rcases hinsert with h | h
  · exact (h.cons _).nodup_iff.mpr hnd
  · apply ((h.cons _).trans (List.Perm.swap _ _ _)).nodup_iff.mpr
    exact List.nodup_cons.mpr ⟨ha, hnd⟩

theorem dealloc (w : l.WellFormed) : (l.dealloc p).2.WellFormed := by
  refine ⟨sorted_dealloc w.sorted, ?_, w.dummy⟩
  rw [addrs_dealloc]
  exact w.addrs

/-- What `dealloc` returns leads to the item of the block, with its count lowered. -/
theorem itemAt_dealloc (w : l.WellFormed) :
    ((l.dealloc p).1 >>= fun d => (l.dealloc p).2.itemAt d) =
      (lookup p l.items).map fun c => { c with cnt := c.cnt - 1 } := by
  show ((deallocFrom p l.items).1 >>= _) = _
  rw [dealloc_fst]
  cases hc : lookup p l.items with
  | none => rfl
  | some c =>
    have hself : lookup p (l.dealloc p).2.items = some { c with cnt := c.cnt - 1 } := by
      rw [lookup_dealloc, if_pos rfl, hc]
      rfl
    exact w.dealloc.itemAt_eq hself

/-- After `alloc` it still does, and the item has the new size when the two blocks are one. -/
theorem itemAt_dealloc_alloc {r : ℕ} (w : l.WellFormed) (ha : a ∉ l.addrs) :
    ((l.dealloc p).1 >>= fun d => ((l.dealloc p).2.alloc a r n).2.itemAt d).map Item.size =
      (lookup p l.items).map fun c => if r = p then n else c.size := by
  show ((deallocFrom p l.items).1 >>= _).map _ = _
  rw [dealloc_fst]
  cases hc : lookup p l.items with
  | none => rfl
  | some c =>
    have ha' := notMem_addrs_dealloc p ha
    have hold : lookup p (l.dealloc p).2.items = some { c with cnt := c.cnt - 1 } := by
      rw [lookup_dealloc, if_pos rfl, hc]
      rfl
    have hmap : lookup p ((l.dealloc p).2.alloc a r n).2.items =
        if p = r then some _ else lookup p (l.dealloc p).2.items := w.dealloc.lookup_alloc
    have hitem : ∀ d : Item, lookup p ((l.dealloc p).2.alloc a r n).2.items = some d →
        ((l.dealloc p).2.alloc a r n).2.itemAt d.addr = some d := fun d hd =>
      (w.dealloc.alloc ha').itemAt_eq hd
    by_cases hr : r = p
    · subst hr
      rw [if_pos rfl, hold] at hmap
      have hread := hitem _ hmap
      show (MemList.itemAt _ c.addr).map Item.size = some (if r = r then n else c.size)
      rw [if_pos rfl]
      exact congrArg (Option.map Item.size) hread
    · rw [if_neg fun he => hr he.symm, hold] at hmap
      show (MemList.itemAt _ c.addr).map Item.size = some (if r = p then n else c.size)
      rw [hitem _ hmap, if_neg hr]
      rfl

end WellFormed

end MemList

theorem Tracks.wellFormed {l : MemList} {live : Live} (t : Tracks l live) : l.WellFormed :=
  ⟨t.sorted, t.addrs, t.dummy⟩

theorem tracks_init (a : ℕ) : Tracks (init a).list [] :=
  ⟨List.Pairwise.nil, List.nodup_singleton _, rfl, List.nodup_nil, by simp, by simp,
    fun _ _ h => by cases h⟩

namespace Tracks

variable {l : MemList} {live : Live} {p q a : ℕ} {n : UInt64} {c : Item}

/-- Recording a new live block. -/
theorem alloc (t : Tracks l live) (hp : p ≠ 0) (hfresh : p ∉ live.map Prod.fst)
    (ha : a ∉ l.addrs) : Tracks (l.alloc a p n).2 ((p, n) :: live) := by
  have w := t.wellFormed
  have hself := lookup_alloc_self (i := ⟨a, p, n, 1⟩) t.sorted
  have hne : ∀ q, q ≠ p → lookup q (l.alloc a p n).2.items = lookup q l.items := fun q hq =>
    lookup_alloc_ne (i := ⟨a, p, n, 1⟩) hq
  refine ⟨(w.alloc ha).sorted, (w.alloc ha).addrs, t.dummy, List.nodup_cons.mpr ⟨hfresh, t.keys⟩,
    ?_, fun q k hq => ?_, fun q c hc hq => ?_⟩
  · intro q hq
    rcases List.mem_cons.mp hq with rfl | hq
    · exact hp
    · exact t.nonzero q hq
  · rcases List.mem_cons.mp hq with he | hq
    · cases he
      refine ⟨_, hself, ?_⟩
      cases hl : lookup p l.items with
      | none => exact ⟨rfl, rfl⟩
      | some c =>
        have := t.freed p c hl hfresh
        simp [merge, this]
    · have hqp : q ≠ p := fun he => hfresh (he ▸ List.mem_map_of_mem (f := Prod.fst) hq)
      rw [hne q hqp]
      exact t.recorded q k hq
  · rw [List.map_cons, List.mem_cons, not_or] at hq
    rw [hne q hq.1] at hc
    exact t.freed q c hc hq.2

/-- The item of a live block after `dealloc`, and the pointer that `dealloc` returns. -/
theorem dealloc_item (t : Tracks l live) (hlive : (p, n) ∈ live) : ∃ c : Item,
    (l.dealloc p).1 = some c.addr ∧ lookup p (l.dealloc p).2.items = some c ∧ c.size = n ∧
      c.cnt = 0 := by
  obtain ⟨c, hc, hsize, hcnt⟩ := t.recorded p n hlive
  refine ⟨{ c with cnt := c.cnt - 1 }, ?_, ?_, hsize, ?_⟩
  · show (deallocFrom p l.items).1 = _
    rw [dealloc_fst, hc]
    rfl
  · show lookup p (deallocFrom p l.items).2 = _
    rw [lookup_dealloc_self, hc]
    rfl
  · show c.cnt - 1 = 0
    omega

/-- Recording the release of a live block. -/
theorem dealloc (t : Tracks l live) (hlive : (p, n) ∈ live) :
    Tracks (l.dealloc p).2 (release live p) := by
  obtain ⟨c, -, hself, -, hcnt⟩ := t.dealloc_item hlive
  have hne : ∀ q, q ≠ p → lookup q (l.dealloc p).2.items = lookup q l.items := fun q hq =>
    lookup_dealloc_ne hq
  have w := t.wellFormed.dealloc (p := p)
  refine ⟨w.sorted, w.addrs, t.dummy, release_nodup t.keys p, fun q hq => ?_,
    fun q k hq => ?_, fun q d hd hq => ?_⟩
  · exact t.nonzero q ((List.filter_sublist.map _).subset hq)
  · obtain ⟨hq, hqp⟩ := mem_release.mp hq
    rw [hne q hqp]
    exact t.recorded q k hq
  · by_cases hqp : q = p
    · subst hqp
      obtain rfl := Option.some.inj (hself.symm.trans hd)
      exact hcnt
    · rw [hne q hqp] at hd
      refine t.freed q d hd fun hin => hq ?_
      obtain ⟨⟨q', k⟩, hmem, rfl⟩ := List.mem_map.mp hin
      exact List.mem_map_of_mem (f := Prod.fst) (mem_release.mpr ⟨hmem, hqp⟩)

end Tracks

/-! ### One call -/

/-- The size of the block the call asks for. -/
def Call.requested : Call → UInt64
  | .malloc size .. => size
  | .calloc nmemb size .. => nmemb * size
  | .realloc _ size .. => size
  | .free _ => 0

/-- What the wrapper adds to `n_freeb`: `realloc` reads the size of the old block from an item that
by then describes the new one, when the two are one block. -/
def Call.charged (live : Live) : Call → UInt64
  | .realloc ptr size res _ => if res = ptr then size else live.sizeAt ptr
  | c => c.released live

theorem Live.total_cons (p : ℕ) (n : UInt64) (live : Live) :
    Live.total ((p, n) :: live) = n + live.total := by
  rw [Live.total, Live.total, List.map_cons, List.sum_cons]

theorem Tracks.sizeAt_eq {l : MemList} {live : Live} {p : ℕ} {n : UInt64} (t : Tracks l live)
    (h : (p, n) ∈ live) : live.sizeAt p = n := by
  rw [Live.sizeAt, held_eq_some h t.keys, Option.getD_some]

/-- A live block taken out of the total. -/
theorem Tracks.total_release {l : MemList} {live : Live} {p : ℕ} (t : Tracks l live)
    (h : p ∈ live.map Prod.fst) :
    live.total = live.sizeAt p + Live.total (release live p) := by
  obtain ⟨⟨p, n⟩, hmem, rfl⟩ := List.mem_map.mp h
  have hperm := (release_perm hmem t.keys).map Prod.snd
  rw [Live.total, hperm.sum_eq, t.sizeAt_eq hmem, Live.total, List.map_cons, List.sum_cons]

/-! ### What the wrappers do to a well-formed list -/

namespace Tracer

variable {s : Tracer} {p res a : ℕ} {size : UInt64}

/-- `free` of part 2 returns where the block has an item. -/
theorem freePart2_eq (w : s.list.WellFormed) :
    s.freePart2 p = (lookup p s.list.items).map fun c => { s with
      list := (s.list.dealloc p).2
      nFreeb := s.nFreeb + c.size } := by
  have hitem := w.itemAt_dealloc (p := p)
  have hbind : s.freePart2 p =
      ((s.list.dealloc p).1 >>= fun d => (s.list.dealloc p).2.itemAt d).map fun item => { s with
        list := (s.list.dealloc p).2
        nFreeb := s.nFreeb + item.size } := by
    show ((s.list.dealloc p).1 >>= fun d => (s.list.dealloc p).2.itemAt d >>= _) = _
    cases (s.list.dealloc p).1 with
    | none => rfl
    | some d => exact Option.map_eq_bind.symm
  rw [hbind, hitem, Option.map_map]
  rfl

/-- So does `realloc`, which reads the size of the old item when the new one has been recorded: it
is the new size when they are one item. -/
theorem realloc_eq (w : s.list.WellFormed) (ha : a ∉ s.list.addrs) :
    s.realloc p size res a = (lookup p s.list.items).map fun c => { s with
      list := ((s.list.dealloc p).2.alloc a res size).2
      nRealloc := s.nRealloc + 1
      nAllocb := s.nAllocb + size
      nFreeb := s.nFreeb + if res = p then size else c.size } := by
  have hsize := w.itemAt_dealloc_alloc (p := p) (r := res) (n := size) ha
  have hbind : s.realloc p size res a = (((s.list.dealloc p).1 >>= fun d =>
      ((s.list.dealloc p).2.alloc a res size).2.itemAt d).map Item.size).map fun n => { s with
        list := ((s.list.dealloc p).2.alloc a res size).2
        nRealloc := s.nRealloc + 1
        nAllocb := s.nAllocb + size
        nFreeb := s.nFreeb + n } := by
    show ((s.list.dealloc p).1 >>= fun d =>
      (((s.list.dealloc p).2.alloc a res size).2).itemAt d >>= _) = _
    cases (s.list.dealloc p).1 with
    | none => rfl
    | some d =>
      rw [Option.map_map]
      exact Option.map_eq_bind.symm
  rw [hbind, hsize, Option.map_map]
  rfl

/-- `free` of part 3 of a pointer other than `NULL`: the scan finds the item of the block. -/
theorem freePart3_eq (w : s.list.WellFormed) (hp : p ≠ 0) :
    s.freePart3 p = match lookup p s.list.items with
      | none => some { s with log := s.log ++ [.illFree] }
      | some c =>
        if c.cnt = 0 then some { s with log := s.log ++ [.doubleFree] } else s.freePart2 p := by
  have hdummy : s.list.dummy.ptr ≠ p := by
    rw [w.dummy]
    exact hp.symm
  have hfind : (s.list.dummy :: s.list.items).find? (fun i => i.ptr = p) =
      lookup p s.list.items := lookup_cons_ne hdummy
  rw [freePart3, hfind]

end Tracer

section Step

variable {s : Tracer} {live : Live}

/-- `free` of a live block reads the size the block has. -/
theorem Tracer.freePart2_live {p : ℕ} (t : Tracks s.list live) (h : p ∈ live.map Prod.fst) :
    s.freePart2 p = some { s with
      list := (s.list.dealloc p).2
      nFreeb := s.nFreeb + live.sizeAt p } := by
  obtain ⟨⟨p, n⟩, hmem, rfl⟩ := List.mem_map.mp h
  obtain ⟨c, hc, hsize, -⟩ := t.recorded p n hmem
  rw [freePart2_eq t.wellFormed, hc, t.sizeAt_eq hmem, ← hsize]
  rfl

/-- The scan of part 3 finds a live block and its count is not zero. -/
theorem Tracer.free_live {p : ℕ} (part : Part) (t : Tracks s.list live)
    (h : p ∈ live.map Prod.fst) : s.free part p = s.freePart2 p := by
  cases part with
  | part2 => rfl
  | part3 =>
    have hp := t.nonzero p h
    obtain ⟨⟨p, n⟩, hmem, rfl⟩ := List.mem_map.mp h
    obtain ⟨c, hc, -, hcnt⟩ := t.recorded p n hmem
    show s.freePart3 p = _
    rw [freePart3_eq t.wellFormed hp, hc]
    exact if_neg (by omega)

/-- `realloc` of a live block reads the size the block has, unless it works in place. -/
theorem Tracer.realloc_live {p res a : ℕ} {size : UInt64} (t : Tracks s.list live)
    (h : p ∈ live.map Prod.fst) (hres : res ≠ 0) (hfresh : res = p ∨ res ∉ live.map Prod.fst)
    (ha : a ∉ s.list.addrs) : ∃ list, Tracks list ((res, size) :: release live p) ∧
      s.realloc p size res a = some { s with
        list := list
        nRealloc := s.nRealloc + 1
        nAllocb := s.nAllocb + size
        nFreeb := s.nFreeb + if res = p then size else live.sizeAt p } := by
  obtain ⟨⟨p, n⟩, hmem, rfl⟩ := List.mem_map.mp h
  obtain ⟨c, hc, hsize, -⟩ := t.recorded p n hmem
  have hfresh' : res ∉ (release live p).map Prod.fst := by
    rcases hfresh with rfl | hnot
    · exact key_notMem_release live res
    · intro hin
      exact hnot ((List.filter_sublist.map _).subset hin)
  have ha' := MemList.notMem_addrs_dealloc p ha
  refine ⟨_, (t.dealloc hmem).alloc (n := size) hres hfresh' ha', ?_⟩
  rw [realloc_eq t.wellFormed ha, hc, t.sizeAt_eq hmem, ← hsize]
  rfl

/-- **One legal call** returns, keeps the list true, and moves the two byte counters. -/
theorem Call.exec_spec {c : Call} (part : Part) (t : Tracks s.list live) (h : c.Legal s live) :
    ∃ s', c.exec part s = some s' ∧ Tracks s'.list (c.settle live) ∧
      s'.nAllocb = s.nAllocb + c.requested ∧ s'.nFreeb = s.nFreeb + c.charged live := by
  cases c with
  | malloc size res a =>
    obtain ⟨hres, hfresh, ha⟩ := h
    exact ⟨_, rfl, t.alloc hres hfresh ha, rfl, (add_zero _).symm⟩
  | calloc nmemb size res a =>
    obtain ⟨hres, hfresh, ha⟩ := h
    exact ⟨_, rfl, t.alloc hres hfresh ha, rfl, (add_zero _).symm⟩
  | realloc ptr size res a =>
    obtain ⟨hptr, hres, hfresh, ha⟩ := h
    obtain ⟨list, hlist, hexec⟩ := Tracer.realloc_live t hptr hres hfresh ha
    exact ⟨_, hexec, hlist, rfl, rfl⟩
  | free ptr =>
    obtain ⟨⟨p, n⟩, hmem, rfl⟩ := List.mem_map.mp h
    refine ⟨_, (Tracer.free_live part t h).trans (Tracer.freePart2_live t h), t.dealloc hmem,
      (add_zero _).symm, rfl⟩

/-- The live sizes move by what is asked for and what is released. -/
theorem Call.total_settle {c : Call} (t : Tracks s.list live) (h : c.Legal s live) :
    (c.settle live).total + c.released live = live.total + c.requested := by
  cases c with
  | malloc size res a =>
    show Live.total ((res, size) :: live) + 0 = live.total + size
    rw [Live.total_cons, add_zero, add_comm]
  | calloc nmemb size res a =>
    show Live.total ((res, nmemb * size) :: live) + 0 = live.total + nmemb * size
    rw [Live.total_cons, add_zero, add_comm]
  | realloc ptr size res a =>
    show Live.total ((res, size) :: release live ptr) + live.sizeAt ptr = live.total + size
    rw [Live.total_cons, t.total_release h.1]
    abel
  | free ptr =>
    show Live.total (release live ptr) + live.sizeAt ptr = live.total + 0
    rw [t.total_release h]
    abel

/-- The wrapper charges the size of the released block unless `realloc` worked in place. -/
theorem Call.charged_eq_released_iff {c : Call} :
    c.charged live = c.released live ↔ c.KeepsSize live := by
  cases c with
  | malloc | calloc | free => exact iff_of_true rfl trivial
  | realloc ptr size res a =>
    show (if res = ptr then size else live.sizeAt ptr) = live.sizeAt ptr ↔
      (res = ptr → size = live.sizeAt ptr)
    by_cases hrp : res = ptr
    · rw [if_pos hrp]
      exact ⟨fun h _ => h, fun h => h hrp⟩
    · rw [if_neg hrp]
      exact iff_of_true rfl fun h => absurd h hrp

end Step

/-! ### Runs -/

/-- After a balanced state, one legal call leaves the counters balanced just when it keeps the size
of a block that is reallocated in place. -/
theorem Call.balanced_iff {c : Call} {s s' : Tracer} {k : Client} (t : Tracks s.list k.live)
    (h : c.Legal s k.live) (hb : Balanced s k) (hallocb : s'.nAllocb = s.nAllocb + c.requested)
    (hfreeb : s'.nFreeb = s.nFreeb + c.charged k.live) :
    Balanced s' (c.next k) ↔ c.KeepsSize k.live := by
  obtain ⟨hdiff, hfreed⟩ := hb
  rw [← Call.charged_eq_released_iff]
  constructor
  · intro hb'
    have hrel : s'.nFreeb = k.freed + c.released k.live := hb'.2
    rw [hfreeb, hfreed] at hrel
    exact add_left_cancel hrel
  · intro hcharged
    rw [hcharged] at hfreeb
    refine ⟨?_, hfreeb.trans (by rw [hfreed]; rfl)⟩
    show s'.nAllocb - s'.nFreeb = (c.settle k.live).total
    have htotal := Call.total_settle t h
    rw [← hdiff] at htotal
    have hsettle : (c.settle k.live).total =
        s.nAllocb - s.nFreeb + c.requested - c.released k.live := eq_sub_of_add_eq htotal
    rw [hsettle, hallocb, hfreeb]
    abel

theorem balancedRun_iff {part : Part} {s : Tracer} {k : Client} {cs : List Call}
    (t : Tracks s.list k.live) (hb : Balanced s k) (h : LegalRun part s k.live cs) :
    BalancedRun part s k cs ↔ KeepsSizes k.live cs := by
  induction cs generalizing s k with
  | nil => exact Iff.rfl
  | cons c cs ih =>
    obtain ⟨hc, hcs⟩ := h
    obtain ⟨s', hexec, ht', hallocb, hfreeb⟩ := Call.exec_spec part t hc
    have hstep := Call.balanced_iff t hc hb hallocb hfreeb
    constructor
    · intro hrun
      obtain ⟨s'', hexec', hb', hrest⟩ := hrun
      obtain rfl := Option.some.inj (hexec.symm.trans hexec')
      exact ⟨hstep.mp hb', (ih ht' hb' (hcs s' hexec)).mp hrest⟩
    · intro hkeep
      have hb' := hstep.mpr hkeep.1
      exact ⟨s', hexec, hb', (ih ht' hb' (hcs s' hexec)).mpr hkeep.2⟩

/-- **The counters of the tracer.**  Over a legal run, `n_allocb - n_freeb` is the sum of the sizes
of the live blocks and `n_freeb` the total of the sizes of the released ones after every call, if and
only if no reallocation that returns its argument changes the size of the block. -/
theorem counters_balanced_iff (part : Part) (a : ℕ) (cs : List Call)
    (h : LegalRun part (init a) [] cs) :
    BalancedRun part (init a) ⟨[], 0⟩ cs ↔ KeepsSizes [] cs :=
  balancedRun_iff (tracks_init a) ⟨sub_self _, rfl⟩ h

/-- A block that is moved, reallocated in place at the size it has, and freed. -/
theorem counters_balanced_moved : BalancedRun .part3 (init 1) ⟨[], 0⟩
    [.malloc 10 64 2, .realloc 64 100 96 3, .realloc 96 100 96 4, .free 96] := by
  apply (counters_balanced_iff .part3 1 _ (by decide)).mpr
  refine ⟨trivial, fun h => absurd h (by decide), fun _ => by decide, trivial, trivial⟩

/-- The first two calls of `test5.c`, where libc extends the block of ten bytes to a hundred in
place. -/
def grownInPlace : List Call := [.malloc 10 64 2, .realloc 64 100 64 3]

/-- The counters are 110 and 100 afterwards, as if ten bytes were live. -/
theorem counters_not_balanced :
    (LegalRun .part2 (init 1) [] grownInPlace ∧ ¬ BalancedRun .part2 (init 1) ⟨[], 0⟩ grownInPlace) ∧
    (LegalRun .part3 (init 1) [] grownInPlace ∧ ¬ BalancedRun .part3 (init 1) ⟨[], 0⟩ grownInPlace) :=
  ⟨⟨by decide, by decide⟩, ⟨by decide, by decide⟩⟩

end SystemProgramming.LinkLab
