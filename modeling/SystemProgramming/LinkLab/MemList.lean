import Mathlib.Data.Int.Order.Basic
import Mathlib.Data.List.Basic
import Mathlib.Data.List.Perm.Basic

/-!
# The tracer's list of memory blocks (`memlist.c`)

A singly linked list of items behind a dummy element, in ascending order of the blocks they describe.
Items are never removed.  An item has an address of its own, so that a pointer to an item that one
function returns can be followed after another has changed the list.

* `alloc`, `dealloc`, `find` : the three functions, on the items behind the dummy element.
* `lookup` : the list as a finite map from block pointers to items.
* `lookup_alloc`, `lookup_dealloc` : what the two functions do to that map, given `Sorted`.
-/

namespace SystemProgramming.LinkLab

/-- `struct __item` and its address; the reference count as a mathematical integer. -/
structure Item where
  addr : ℕ
  ptr : ℕ
  size : UInt64
  cnt : ℤ
  deriving DecidableEq

/-- A list: the dummy element and the items linked behind it. -/
structure MemList where
  dummy : Item
  items : List Item

/-- `new_list`, where `calloc` returns `a`. -/
def newList (a : ℕ) : MemList := ⟨⟨a, 0, 0, 0⟩, []⟩

/-- The search and insertion of `alloc` for the new item `i`: the returned pointer and the items. -/
@[simp] def allocFrom (i : Item) : List Item → ℕ × List Item
  | [] => (i.addr, [i])
  | cur :: rest =>
    if cur.ptr < i.ptr then
      let r := allocFrom i rest
      (r.1, cur :: r.2)
    else if cur.ptr = i.ptr then
      (cur.addr, { cur with size := i.size, cnt := cur.cnt + 1 } :: rest)
    else (i.addr, i :: cur :: rest)

/-- `alloc`, where `calloc` returns `a`. -/
def MemList.alloc (l : MemList) (a ptr : ℕ) (size : UInt64) : ℕ × MemList :=
  let r := allocFrom ⟨a, ptr, size, 1⟩ l.items
  (r.1, { l with items := r.2 })

/-- The scan of `dealloc`: the returned pointer and the items. -/
@[simp] def deallocFrom (ptr : ℕ) : List Item → Option ℕ × List Item
  | [] => (none, [])
  | cur :: rest =>
    if cur.ptr ≠ ptr then
      let r := deallocFrom ptr rest
      (r.1, cur :: r.2)
    else (some cur.addr, { cur with cnt := cur.cnt - 1 } :: rest)

/-- `dealloc`. -/
def MemList.dealloc (l : MemList) (ptr : ℕ) : Option ℕ × MemList :=
  let r := deallocFrom ptr l.items
  (r.1, { l with items := r.2 })

/-- The search of `find`: it stops at the first block that is not smaller. -/
@[simp] def findFrom (ptr : ℕ) : List Item → Option ℕ
  | [] => none
  | cur :: rest =>
    if ptr > cur.ptr then findFrom ptr rest
    else if cur.ptr = ptr then some cur.addr
    else none

/-- `find`. -/
def MemList.find (l : MemList) (ptr : ℕ) : Option ℕ := findFrom ptr l.items

/-- The item a pointer points at. -/
def MemList.itemAt (l : MemList) (a : ℕ) : Option Item :=
  (l.dummy :: l.items).find? fun i => i.addr = a

/-! ### The list as a map -/

/-- Strictly ascending block pointers. -/
def Sorted (items : List Item) : Prop := items.Pairwise fun i j => i.ptr < j.ptr

/-- The item that describes the block at `p`. -/
def lookup (p : ℕ) (items : List Item) : Option Item := items.find? fun i => i.ptr = p

/-- What `alloc` makes of the new item when the block already has one. -/
def merge (i : Item) : Option Item → Item
  | none => i
  | some cur => { cur with size := i.size, cnt := cur.cnt + 1 }

@[simp] theorem lookup_nil (p : ℕ) : lookup p [] = none := rfl

theorem lookup_cons_self {c : Item} {items : List Item} : lookup c.ptr (c :: items) = some c := by
  simp [lookup]

theorem lookup_cons_ne {p : ℕ} {c : Item} {items : List Item} (h : c.ptr ≠ p) :
    lookup p (c :: items) = lookup p items := by
  simp [lookup, h]

theorem lookup_some {p : ℕ} {c : Item} {items : List Item} (h : lookup p items = some c) :
    c ∈ items ∧ c.ptr = p :=
  ⟨List.mem_of_find?_eq_some h, by simpa using List.find?_some h⟩

/-- Behind a larger block there is no item for a smaller one. -/
theorem lookup_of_lt {p : ℕ} {items : List Item} (h : ∀ c ∈ items, p < c.ptr) :
    lookup p items = none := by
  rw [lookup, List.find?_eq_none]
  intro c hc
  have := h c hc
  simp only [decide_eq_true_eq]
  omega

/-- In ascending order a block before the first one has no item. -/
theorem lookup_of_lt_head {p : ℕ} {cur : Item} {rest : List Item} (h : Sorted (cur :: rest))
    (hp : p < cur.ptr) : lookup p (cur :: rest) = none := by
  apply lookup_of_lt
  intro c hc
  rcases List.mem_cons.mp hc with rfl | hc
  · exact hp
  · exact Nat.lt_trans hp ((List.pairwise_cons.mp h).1 c hc)

/-- Every item is the one its block pointer leads to. -/
theorem lookup_of_mem {items : List Item} {i : Item} (h : Sorted items) (hi : i ∈ items) :
    lookup i.ptr items = some i := by
  induction items with
  | nil => cases hi
  | cons c rest ih =>
    obtain ⟨hlt, hrest⟩ := List.pairwise_cons.mp h
    rcases List.mem_cons.mp hi with rfl | hi
    · exact lookup_cons_self
    · rw [lookup_cons_ne (Nat.ne_of_lt (hlt i hi))]
      exact ih hrest hi

section Alloc

variable {i : Item} {items : List Item} {p : ℕ}

theorem lookup_alloc_self (h : Sorted items) :
    lookup i.ptr (allocFrom i items).2 = some (merge i (lookup i.ptr items)) := by
  induction items with
  | nil => simp [allocFrom, lookup, merge]
  | cons cur rest ih =>
    have hrest := (List.pairwise_cons.mp h).2
    rw [allocFrom]
    by_cases h1 : cur.ptr < i.ptr
    · rw [if_pos h1, lookup_cons_ne (by omega), lookup_cons_ne (by omega)]
      exact ih hrest
    · rw [if_neg h1]
      by_cases h2 : cur.ptr = i.ptr
      · rw [if_pos h2, ← h2, lookup_cons_self, merge]
        exact lookup_cons_self (c := { cur with size := i.size, cnt := cur.cnt + 1 })
      · have hnone : lookup i.ptr (cur :: rest) = none := lookup_of_lt_head h (by omega)
        rw [if_neg h2, lookup_cons_self, hnone, merge]

theorem lookup_alloc_ne (hp : p ≠ i.ptr) : lookup p (allocFrom i items).2 = lookup p items := by
  induction items with
  | nil => simp [allocFrom, lookup, hp.symm]
  | cons cur rest ih =>
    rw [allocFrom]
    by_cases h1 : cur.ptr < i.ptr
    · rw [if_pos h1]
      by_cases hc : cur.ptr = p
      · simp [lookup, hc]
      · rw [lookup_cons_ne hc, lookup_cons_ne hc]
        exact ih
    · rw [if_neg h1]
      by_cases h2 : cur.ptr = i.ptr
      · have hc : cur.ptr ≠ p := fun he => hp (by rw [← he, h2])
        rw [if_pos h2, lookup_cons_ne hc]
        exact lookup_cons_ne (c := { cur with size := i.size, cnt := cur.cnt + 1 }) hc
      · rw [if_neg h2, lookup_cons_ne hp.symm]

/-- The pointers of the items: the new one is among them, the others are as before. -/
theorem ptr_mem_alloc {c : Item} (hc : c ∈ (allocFrom i items).2) :
    c.ptr = i.ptr ∨ c ∈ items := by
  induction items with
  | nil =>
    obtain rfl : c = i := by simpa [allocFrom] using hc
    exact Or.inl rfl
  | cons cur rest ih =>
    rw [allocFrom] at hc
    split at hc
    · rcases List.mem_cons.mp hc with rfl | hc
      · exact Or.inr List.mem_cons_self
      · exact (ih hc).imp id (List.mem_cons_of_mem _)
    · split at hc
      · rename_i h2
        rcases List.mem_cons.mp hc with rfl | hc
        · exact Or.inl h2
        · exact Or.inr (List.mem_cons_of_mem _ hc)
      · rcases List.mem_cons.mp hc with rfl | hc
        · exact Or.inl rfl
        · exact Or.inr hc

theorem sorted_alloc (h : Sorted items) : Sorted (allocFrom i items).2 := by
  induction items with
  | nil => exact List.pairwise_singleton _ _
  | cons cur rest ih =>
    obtain ⟨hlt, hrest⟩ := List.pairwise_cons.mp h
    rw [allocFrom]
    by_cases h1 : cur.ptr < i.ptr
    · rw [if_pos h1]
      refine List.pairwise_cons.mpr ⟨fun c hc => ?_, ih hrest⟩
      rcases ptr_mem_alloc hc with he | hc
      · omega
      · exact hlt c hc
    · rw [if_neg h1]
      by_cases h2 : cur.ptr = i.ptr
      · rw [if_pos h2]
        exact List.pairwise_cons.mpr ⟨hlt, hrest⟩
      · rw [if_neg h2]
        refine List.pairwise_cons.mpr ⟨fun c hc => ?_, h⟩
        rcases List.mem_cons.mp hc with rfl | hc
        · omega
        · have := hlt c hc
          omega

/-- The addresses of the items: those there were, and the new one where an item was inserted. -/
theorem addrs_alloc : ((allocFrom i items).2.map Item.addr).Perm (items.map Item.addr) ∨
    ((allocFrom i items).2.map Item.addr).Perm (i.addr :: items.map Item.addr) := by
  induction items with
  | nil => exact Or.inr (List.Perm.refl _)
  | cons cur rest ih =>
    rw [allocFrom]
    split
    · refine ih.imp (fun h => h.cons _) fun h => ?_
      exact (h.cons _).trans (List.Perm.swap _ _ _)
    · split
      · exact Or.inl (List.Perm.refl _)
      · exact Or.inr (List.Perm.refl _)

/-- `alloc` returns the item of the block, or the new item. -/
theorem alloc_fst (h : Sorted items) :
    (allocFrom i items).1 = ((lookup i.ptr items).map Item.addr).getD i.addr := by
  induction items with
  | nil => rfl
  | cons cur rest ih =>
    have hrest := (List.pairwise_cons.mp h).2
    rw [allocFrom]
    by_cases h1 : cur.ptr < i.ptr
    · rw [if_pos h1, lookup_cons_ne (by omega)]
      exact ih hrest
    · rw [if_neg h1]
      by_cases h2 : cur.ptr = i.ptr
      · rw [if_pos h2, ← h2, lookup_cons_self]
        rfl
      · have hnone : lookup i.ptr (cur :: rest) = none := lookup_of_lt_head h (by omega)
        rw [if_neg h2, hnone]
        rfl

end Alloc

section Dealloc

variable {items : List Item} {p q : ℕ}

/-- `dealloc` returns the item of the block. -/
theorem dealloc_fst : (deallocFrom p items).1 = (lookup p items).map Item.addr := by
  induction items with
  | nil => rfl
  | cons cur rest ih =>
    rw [deallocFrom]
    by_cases hc : cur.ptr = p
    · simp [lookup, hc]
    · rw [if_pos hc, lookup_cons_ne hc]
      exact ih

/-- `dealloc` of a block without an item changes nothing. -/
theorem dealloc_unknown (h : lookup p items = none) : deallocFrom p items = (none, items) := by
  induction items with
  | nil => rfl
  | cons cur rest ih =>
    by_cases hc : cur.ptr = p
    · rw [← hc, lookup_cons_self] at h
      cases h
    · rw [lookup_cons_ne hc] at h
      rw [deallocFrom, if_pos hc, ih h]

theorem lookup_dealloc_self : lookup p (deallocFrom p items).2 =
    (lookup p items).map fun c => { c with cnt := c.cnt - 1 } := by
  induction items with
  | nil => rfl
  | cons cur rest ih =>
    rw [deallocFrom]
    by_cases hc : cur.ptr = p
    · simp [lookup, hc]
    · rw [if_pos hc, lookup_cons_ne hc, lookup_cons_ne hc]
      exact ih

theorem lookup_dealloc_ne (hq : q ≠ p) : lookup q (deallocFrom p items).2 = lookup q items := by
  induction items with
  | nil => rfl
  | cons cur rest ih =>
    rw [deallocFrom]
    by_cases hc : cur.ptr = p
    · have hcq : cur.ptr ≠ q := fun he => hq (by rw [← he, hc])
      rw [if_neg (not_not.mpr hc), lookup_cons_ne hcq]
      exact lookup_cons_ne (c := { cur with cnt := cur.cnt - 1 }) hcq
    · rw [if_pos hc]
      by_cases hcq : cur.ptr = q
      · simp [lookup, hcq]
      · rw [lookup_cons_ne hcq, lookup_cons_ne hcq]
        exact ih

/-- `dealloc` moves no item and keeps what it describes. -/
theorem map_dealloc {α : Type} (f : Item → α) (hf : ∀ c n, f { c with cnt := n } = f c) :
    (deallocFrom p items).2.map f = items.map f := by
  induction items with
  | nil => rfl
  | cons cur rest ih =>
    rw [deallocFrom]
    split
    · rw [List.map_cons, List.map_cons, ih]
    · rw [List.map_cons, List.map_cons, hf]

theorem sorted_dealloc (h : Sorted items) : Sorted (deallocFrom p items).2 := by
  have hmap : (deallocFrom p items).2.map Item.ptr = items.map Item.ptr :=
    map_dealloc Item.ptr fun _ _ => rfl
  have h' : (items.map Item.ptr).Pairwise (· < ·) := List.pairwise_map.mpr h
  rw [← hmap] at h'
  exact List.pairwise_map.mp h'

end Dealloc

/-- In ascending order the search of `find` misses nothing. -/
theorem findFrom_eq {items : List Item} {p : ℕ} (h : Sorted items) :
    findFrom p items = (lookup p items).map Item.addr := by
  induction items with
  | nil => rfl
  | cons cur rest ih =>
    have hrest := (List.pairwise_cons.mp h).2
    rw [findFrom]
    by_cases h1 : p > cur.ptr
    · rw [if_pos h1, lookup_cons_ne (by omega)]
      exact ih hrest
    · rw [if_neg h1]
      by_cases h2 : cur.ptr = p
      · rw [if_pos h2, ← h2, lookup_cons_self]
        rfl
      · have hnone : lookup p (cur :: rest) = none := lookup_of_lt_head h (by omega)
        rw [if_neg h2, hnone]
        rfl

end SystemProgramming.LinkLab
