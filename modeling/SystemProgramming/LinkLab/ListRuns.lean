import Mathlib.Data.List.Count
import Mathlib.Data.List.TakeWhile
import SystemProgramming.Library.Transition
import SystemProgramming.LinkLab.MemTrace

/-!
# Runs of calls on the list of blocks (`memlist.c`)

Any sequence of calls of `alloc`, `dealloc` and `find` on a new list, with a record of the calls.

* `ledger` : what the record says of a block, the size of the last `alloc` and the difference of the
  numbers of calls.
* `Refines.step` : one call keeps the list and the ledger together.
* `list_refines_ledger` : the list of every run is the ledger, and the three searches agree.
-/

namespace SystemProgramming.LinkLab

open Transition

/-! ### The runs -/

/-- A call; `calloc` returns `a` for the item of `alloc`. -/
inductive ListCall
  | alloc (ptr : ℕ) (size : UInt64) (a : ℕ)
  | dealloc (ptr : ℕ)
  | find (ptr : ℕ)

namespace ListCall

/-- The pointer that the call returns, and the list after it. -/
def exec (l : MemList) : ListCall → Option ℕ × MemList
  | alloc ptr size a => (some (l.alloc a ptr size).1, (l.alloc a ptr size).2)
  | dealloc ptr => l.dealloc ptr
  | find ptr => (l.find ptr, l)

/-- The block the call is about. -/
def ptr : ListCall → ℕ
  | alloc ptr _ _ => ptr
  | dealloc ptr => ptr
  | find ptr => ptr

/-- The pointer is not `NULL`, and `calloc` hands out no address of an item. -/
def Legal (l : MemList) : ListCall → Prop
  | alloc ptr _ a => ptr ≠ 0 ∧ a ∉ l.addrs
  | dealloc ptr => ptr ≠ 0
  | find ptr => ptr ≠ 0

end ListCall

/-- Runs of calls on a list from `new_list`. -/
def listRuns : System MemList ListCall where
  init l := ∃ a, l = newList a
  step l c l' := c.Legal l ∧ l' = (c.exec l).2

/-- The same runs, with the calls made so far. -/
def recordedListRuns : System (MemList × List ListCall) ListCall :=
  listRuns.recorded [] fun calls c => calls ++ [c]

/-! ### The ledger -/

/-- The sizes given to `alloc` for the block, in order. -/
def sizesOf (p : ℕ) (calls : List ListCall) : List UInt64 :=
  calls.filterMap fun
    | .alloc q n _ => if q = p then some n else none
    | .dealloc _ => none
    | .find _ => none

/-- The call is an `alloc` of the block. -/
def ListCall.isAlloc (p : ℕ) : ListCall → Bool
  | alloc q _ _ => q = p
  | dealloc _ => false
  | find _ => false

/-- The call is a `dealloc` of the block. -/
def ListCall.isDealloc (p : ℕ) : ListCall → Bool
  | alloc _ _ _ => false
  | dealloc q => q = p
  | find _ => false

/-- How many calls of `dealloc` for the block there are after the first `alloc`. -/
def releases (p : ℕ) (calls : List ListCall) : ℕ :=
  (calls.dropWhile fun c => !c.isAlloc p).countP (ListCall.isDealloc p)

/-- What the calls made so far say of the block: nothing before the first `alloc`, then the size of the
last `alloc`, and the number of `alloc` calls less that of the `dealloc` calls. -/
def ledger (calls : List ListCall) (p : ℕ) : Option (UInt64 × ℤ) :=
  (sizesOf p calls).getLast?.map fun n => (n, (sizesOf p calls).length - releases p calls)

section Ledger

variable {calls : List ListCall} {p q : ℕ} {n : UInt64} {a : ℕ}

theorem sizesOf_snoc_ne {c : ListCall} (hc : c.isAlloc p = false) :
    sizesOf p (calls ++ [c]) = sizesOf p calls := by
  rw [sizesOf, List.filterMap_append]
  cases c with
  | alloc q n a =>
    have hq : ¬ q = p := by simpa [ListCall.isAlloc] using hc
    simp [sizesOf, hq]
  | dealloc q | find q => simp [sizesOf]

theorem sizesOf_snoc_alloc :
    sizesOf p (calls ++ [.alloc p n a]) = sizesOf p calls ++ [n] := by
  rw [sizesOf, List.filterMap_append]
  simp [sizesOf]

/-- The block has been given to `alloc`. -/
theorem sizesOf_ne_nil : sizesOf p calls ≠ [] ↔ ∃ n a, ListCall.alloc p n a ∈ calls := by
  constructor
  · intro h
    obtain ⟨m, hm⟩ := List.exists_mem_of_ne_nil _ h
    obtain ⟨c, hc, hsize⟩ := List.mem_filterMap.mp hm
    cases c with
    | alloc q n a =>
      by_cases hq : q = p
      · subst hq
        exact ⟨n, a, hc⟩
      · simp [hq] at hsize
    | dealloc q | find q => cases hsize
  · rintro ⟨n, a, hc⟩ hnil
    have hnone := List.filterMap_eq_nil_iff.mp hnil _ hc
    simp at hnone

/-- Before the first `alloc` there is nothing behind it. -/
theorem dropWhile_eq_nil (h : sizesOf p calls = []) :
    (calls.dropWhile fun c => !c.isAlloc p) = [] := by
  rw [List.dropWhile_eq_nil_iff]
  intro c hc
  cases c with
  | alloc q n a =>
    have hnone := List.filterMap_eq_nil_iff.mp h _ hc
    by_cases hq : q = p
    · simp [hq] at hnone
    · simp [ListCall.isAlloc, hq]
  | dealloc q | find q => rfl

theorem dropWhile_ne_nil (h : sizesOf p calls ≠ []) :
    (calls.dropWhile fun c => !c.isAlloc p) ≠ [] := by
  intro hnil
  refine h (List.filterMap_eq_nil_iff.mpr fun c hc => ?_)
  have hskip := List.dropWhile_eq_nil_iff.mp hnil c hc
  cases c with
  | alloc q n a =>
    have hq : ¬ q = p := by simpa [ListCall.isAlloc] using hskip
    simp [hq]
  | dealloc q | find q => rfl

/-- Only a `dealloc` of the block after its first `alloc` counts. -/
theorem releases_snoc (c : ListCall) : releases p (calls ++ [c]) =
    if sizesOf p calls ≠ [] ∧ c.isDealloc p = true then releases p calls + 1
    else releases p calls := by
  rw [releases, List.dropWhile_append]
  by_cases h : sizesOf p calls = []
  · have hnil := dropWhile_eq_nil h
    have hone : ([c].dropWhile fun c => !c.isAlloc p).countP (ListCall.isDealloc p) = 0 := by
      cases hc : c.isAlloc p with
      | false => simp [hc]
      | true =>
        cases c with
        | alloc q n a => simp [hc, ListCall.isDealloc]
        | dealloc q | find q => cases hc
    rw [hnil, List.isEmpty_nil, if_pos rfl, hone, if_neg fun hc => hc.1 h, releases, hnil]
    rfl
  · have hne : (calls.dropWhile fun c => !c.isAlloc p).isEmpty = false := by
      simpa using dropWhile_ne_nil h
    rw [hne, if_neg Bool.false_ne_true, List.countP_append, ← releases]
    by_cases hc : c.isDealloc p = true
    · rw [if_pos ⟨h, hc⟩, List.countP_singleton, if_pos hc]
    · rw [if_neg fun hb => hc hb.2, List.countP_singleton, if_neg hc, Nat.add_zero]

/-- A call that is about another block, or a `find`. -/
theorem ledger_snoc_other {c : ListCall} (ha : c.isAlloc p = false) (hd : c.isDealloc p = false) :
    ledger (calls ++ [c]) p = ledger calls p := by
  have hno : ¬ (sizesOf p calls ≠ [] ∧ c.isDealloc p = true) := by simp [hd]
  rw [ledger, sizesOf_snoc_ne ha, releases_snoc, if_neg hno, ledger]

theorem ledger_alloc : ledger (calls ++ [.alloc q n a]) p =
    if p = q then some (n, ((ledger calls p).map Prod.snd).getD 0 + 1) else ledger calls p := by
  by_cases hp : p = q
  · subst hp
    have hno : ¬ (sizesOf p calls ≠ [] ∧ (ListCall.alloc p n a).isDealloc p = true) := by
      simp [ListCall.isDealloc]
    rw [if_pos rfl, ledger, sizesOf_snoc_alloc, releases_snoc, if_neg hno, List.getLast?_concat,
      List.length_append, List.length_singleton, Option.map_some, ledger]
    cases hlast : (sizesOf p calls).getLast? with
    | none =>
      have hnil : sizesOf p calls = [] := List.getLast?_eq_none_iff.mp hlast
      have hzero : releases p calls = 0 := by rw [releases, dropWhile_eq_nil hnil, List.countP_nil]
      rw [hnil, hzero]
      rfl
    | some m =>
      simp only [Option.map_some, Option.getD_some]
      congr 2
      omega
  · rw [if_neg hp]
    refine ledger_snoc_other ?_ rfl
    simpa [ListCall.isAlloc] using Ne.symm hp

theorem ledger_dealloc : ledger (calls ++ [.dealloc q]) p =
    if p = q then (ledger calls p).map fun e => (e.1, e.2 - 1) else ledger calls p := by
  by_cases hp : p = q
  · subst hp
    rw [if_pos rfl, ledger, sizesOf_snoc_ne rfl, releases_snoc, ledger]
    cases hlast : (sizesOf p calls).getLast? with
    | none => rfl
    | some m =>
      have hne : sizesOf p calls ≠ [] := by
        intro hnil
        rw [hnil] at hlast
        cases hlast
      have hself : (ListCall.dealloc p).isDealloc p = true := by simp [ListCall.isDealloc]
      rw [if_pos ⟨hne, hself⟩, Option.map_some, Option.map_some, Option.map_some]
      congr 2
      omega
  · rw [if_neg hp]
    refine ledger_snoc_other rfl ?_
    simpa [ListCall.isDealloc] using Ne.symm hp

end Ledger

/-! ### The refinement -/

/-- The list as a map from blocks to sizes and counts. -/
def MemList.contents (l : MemList) (p : ℕ) : Option (UInt64 × ℤ) :=
  (lookup p l.items).map fun c => (c.size, c.cnt)

theorem MemList.contents_ne_none {l : MemList} {p : ℕ} :
    l.contents p ≠ none ↔ ∃ c ∈ l.items, c.ptr = p := by
  rw [contents, Ne, Option.map_eq_none_iff, lookup, List.find?_eq_none]
  simp

/-- The list is the ledger of the calls. -/
structure Refines (l : MemList) (calls : List ListCall) : Prop where
  wellFormed : l.WellFormed
  contents : ∀ p, l.contents p = ledger calls p

namespace Refines

variable {l : MemList} {calls : List ListCall}

theorem new (a : ℕ) : Refines (newList a) [] :=
  ⟨⟨List.Pairwise.nil, List.nodup_singleton _, rfl⟩, fun _ => rfl⟩

/-- **One call.** -/
theorem step {c : ListCall} (r : Refines l calls) (hc : c.Legal l) :
    Refines (c.exec l).2 (calls ++ [c]) := by
  have w := r.wellFormed
  cases c with
  | alloc q n a =>
    refine ⟨w.alloc hc.2, fun p => ?_⟩
    show (lookup p (l.alloc a q n).2.items).map _ = _
    rw [ledger_alloc, w.lookup_alloc, ← r.contents, MemList.contents]
    by_cases hp : p = q
    · subst hp
      rw [if_pos rfl, if_pos rfl]
      cases hl : lookup p l.items with
      | none => rfl
      | some d => rfl
    · rw [if_neg hp, if_neg hp]
  | dealloc q =>
    refine ⟨w.dealloc, fun p => ?_⟩
    show (lookup p (l.dealloc q).2.items).map _ = _
    rw [ledger_dealloc, MemList.lookup_dealloc, ← r.contents, MemList.contents]
    by_cases hp : p = q
    · subst hp
      rw [if_pos rfl, if_pos rfl]
      cases hl : lookup p l.items with
      | none => rfl
      | some d => rfl
    · rw [if_neg hp, if_neg hp]
  | find q =>
    refine ⟨w, fun p => ?_⟩
    rw [ledger_snoc_other rfl rfl]
    exact r.contents p

end Refines

/-- **Every run.** -/
theorem refines_of_reachable {l : MemList} {calls : List ListCall}
    (h : recordedListRuns.Reachable (l, calls)) : Refines l calls := by
  refine h.invariant (P := fun s => Refines s.1 s.2) ?_ ?_
  · rintro ⟨l, calls⟩ ⟨⟨a, rfl⟩, rfl⟩
    exact .new a
  · rintro ⟨l, calls⟩ c ⟨l', calls'⟩ r ⟨⟨hlegal, hl⟩, hcalls⟩
    obtain rfl : l' = (c.exec l).2 := hl
    obtain rfl : calls' = calls ++ [c] := hcalls
    exact r.step hlegal

/-- A run goes on with any legal call. -/
theorem reachable_call {l : MemList} {calls : List ListCall} {c : ListCall}
    (h : recordedListRuns.Reachable (l, calls)) (hc : c.Legal l) :
    recordedListRuns.Reachable ((c.exec l).2, calls ++ [c]) := h.step ⟨⟨hc, rfl⟩, rfl⟩

/-- **The list of every run.**  The items are in strictly ascending order.  A block has an item exactly
when it has been given to `alloc`, with the size of the last `alloc` and with the number of `alloc` calls
less that of the `dealloc` calls after the first of them as its count.  `find` returns that item, the
scan of `dealloc` and the search of `alloc` find the same one, and `dealloc` of a block that has none
changes nothing. -/
theorem list_refines_ledger (l : MemList) (calls : List ListCall)
    (h : recordedListRuns.Reachable (l, calls)) :
    Sorted l.items ∧
    (∀ p, (∃ c ∈ l.items, c.ptr = p) ↔ ∃ n a, ListCall.alloc p n a ∈ calls) ∧
    (∀ c ∈ l.items, (sizesOf c.ptr calls).getLast? = some c.size ∧
      c.cnt = (sizesOf c.ptr calls).length - releases c.ptr calls) ∧
    (∀ p b, l.find p = some b ↔ ∃ c ∈ l.items, c.ptr = p ∧ c.addr = b ∧ l.itemAt b = some c) ∧
    (∀ p, (∀ c ∈ l.items, c.ptr ≠ p) → l.dealloc p = (none, l)) ∧
    ∀ p, (l.dealloc p).1 = l.find p ∧ ∀ a n, (l.alloc a p n).1 = (l.find p).getD a := by
  have r := refines_of_reachable h
  have w := r.wellFormed
  have hfind : ∀ p, l.find p = (lookup p l.items).map Item.addr := fun p => findFrom_eq w.sorted
  refine ⟨w.sorted, fun p => ?_, fun c hc => ?_, fun p b => ?_, fun p hp => ?_, fun p => ⟨?_, fun a n => ?_⟩⟩
  · rw [← MemList.contents_ne_none, r.contents, ← sizesOf_ne_nil, ledger, Ne, Option.map_eq_none_iff,
      List.getLast?_eq_none_iff]
  · have hledger := r.contents c.ptr
    rw [MemList.contents, lookup_of_mem w.sorted hc] at hledger
    obtain ⟨n, hn, he⟩ := Option.map_eq_some_iff.mp hledger.symm
    obtain ⟨rfl, hcnt⟩ := Prod.mk.inj he
    exact ⟨hn, hcnt.symm⟩
  · rw [hfind]
    constructor
    · intro hb
      obtain ⟨c, hc, rfl⟩ := Option.map_eq_some_iff.mp hb
      exact ⟨c, (lookup_some hc).1, (lookup_some hc).2, rfl, w.itemAt_eq hc⟩
    · rintro ⟨c, hc, rfl, rfl, -⟩
      rw [lookup_of_mem w.sorted hc]
      rfl
  · have hnone : lookup p l.items = none := by
      rw [lookup, List.find?_eq_none]
      intro c hc
      simpa using hp c hc
    rw [MemList.dealloc, dealloc_unknown hnone]
  · rw [hfind, MemList.dealloc, dealloc_fst]
  · rw [hfind, MemList.alloc]
    exact alloc_fst w.sorted

/-- The block at 32 is allocated, released and allocated again, the one at 16 in between. -/
def fourCalls : List ListCall := [.alloc 32 100 2, .alloc 16 50 3, .dealloc 32, .alloc 32 7 4]

theorem list_refines_ledger_four : ∃ l, recordedListRuns.Reachable (l, fourCalls) ∧
    ∃ c ∈ l.items, c.ptr = 32 ∧ c.size = 7 ∧ c.cnt = 1 := by
  have h₀ : recordedListRuns.Reachable (newList 1, []) := .init ⟨⟨1, rfl⟩, rfl⟩
  have h₁ := reachable_call (c := .alloc 32 100 2) h₀ ⟨by decide, by decide⟩
  have h₂ := reachable_call (c := .alloc 16 50 3) h₁ ⟨by decide, by decide⟩
  have h₃ := reachable_call (c := .dealloc 32) h₂ (by decide : (32 : ℕ) ≠ 0)
  have h₄ := reachable_call (c := .alloc 32 7 4) h₃ ⟨by decide, by decide⟩
  obtain ⟨-, hexists, hitems, -⟩ := list_refines_ledger _ fourCalls h₄
  obtain ⟨c, hc, hptr⟩ := (hexists 32).mpr ⟨100, 2, List.mem_cons_self⟩
  obtain ⟨hsize, hcnt⟩ := hitems c hc
  rw [hptr] at hsize hcnt
  have hlast : (sizesOf 32 fourCalls).getLast? = some 7 := rfl
  exact ⟨_, h₄, c, hc, hptr, Option.some.inj (hsize.symm.trans hlast), hcnt⟩

end SystemProgramming.LinkLab
