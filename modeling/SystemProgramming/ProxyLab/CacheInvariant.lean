import Mathlib.Algebra.Ring.Int.Defs
import Mathlib.Algebra.BigOperators.Group.List.Basic
import Mathlib.Algebra.Order.BigOperators.Group.List
import SystemProgramming.Library.LinkedList
import SystemProgramming.ProxyLab.Cache

/-!
# The cache as a list of objects

The abstract cache is the list of the cached objects with their addresses, from the most recently
used one on.  `Rep c es` says that the heap of entries and the static variables hold exactly that
list.

* `Found`, `Evicts` : the abstract lookup, which moves the first object with the key to the front, and
  the abstract eviction, which drops the shortest suffix that makes room.
* `Rep.cacheFind_found` : a lookup that returns refines the abstract one.
* `Rep.cacheInsert_evicts` : an insertion that returns evicts and then puts the new object in front.
-/

namespace SystemProgramming.ProxyLab

open LinkedList

/-! ### Links and objects of a heap of entries -/

namespace Cache

variable {c : Cache} {p q : Ptr} {v : Option Ptr}

/-- The forward link of an entry. -/
def nextLink (c : Cache) (p : Ptr) : Option Ptr := (c.entries p).bind Entry.next

/-- The back link of an entry. -/
def prevLink (c : Cache) (p : Ptr) : Option Ptr := (c.entries p).bind Entry.prev

/-- What the entry at an address stores. -/
def object (c : Cache) (p : Ptr) : Option Object := (c.entries p).map Entry.toObject

/-- The heap after `p->next = v`. -/
def withNext (c : Cache) (p : Ptr) (v : Option Ptr) : Cache :=
  c.put p ((c.entries p).map fun e => { e with next := v })

/-- The heap after `p->prev = v`. -/
def withPrev (c : Cache) (p : Ptr) (v : Option Ptr) : Cache :=
  c.put p ((c.entries p).map fun e => { e with prev := v })

theorem setNext_eq (h : (c.object p).isSome) : c.setNext (some p) v = some (c.withNext p v) := by
  cases he : c.entries p with
  | none => simp [object, he] at h
  | some e => simp [setNext, withNext, he]

theorem setPrev_eq (h : (c.object p).isSome) : c.setPrev (some p) v = some (c.withPrev p v) := by
  cases he : c.entries p with
  | none => simp [object, he] at h
  | some e => simp [setPrev, withPrev, he]

theorem getNext_eq (h : (c.object p).isSome) : c.getNext p = some (c.nextLink p) := by
  cases he : c.entries p with
  | none => simp [object, he] at h
  | some e => simp [getNext, nextLink, he]

theorem getPrev_eq (h : (c.object p).isSome) : c.getPrev p = some (c.prevLink p) := by
  cases he : c.entries p with
  | none => simp [object, he] at h
  | some e => simp [getPrev, prevLink, he]

@[simp] theorem withNext_head : (c.withNext p v).head = c.head := rfl
@[simp] theorem withNext_tail : (c.withNext p v).tail = c.tail := rfl
@[simp] theorem withNext_cacheSize : (c.withNext p v).cacheSize = c.cacheSize := rfl
@[simp] theorem withPrev_head : (c.withPrev p v).head = c.head := rfl
@[simp] theorem withPrev_tail : (c.withPrev p v).tail = c.tail := rfl
@[simp] theorem withPrev_cacheSize : (c.withPrev p v).cacheSize = c.cacheSize := rfl

@[simp] theorem withNext_object : (c.withNext p v).object q = c.object q := by
  by_cases hq : q = p
  · subst hq
    cases he : c.entries q <;> simp [object, withNext, put, he]
  · simp [object, withNext, put, hq]

@[simp] theorem withPrev_object : (c.withPrev p v).object q = c.object q := by
  by_cases hq : q = p
  · subst hq
    cases he : c.entries q <;> simp [object, withPrev, put, he]
  · simp [object, withPrev, put, hq]

@[simp] theorem withNext_prevLink : (c.withNext p v).prevLink q = c.prevLink q := by
  by_cases hq : q = p
  · subst hq
    cases he : c.entries q <;> simp [prevLink, withNext, put, he]
  · simp [prevLink, withNext, put, hq]

@[simp] theorem withPrev_nextLink : (c.withPrev p v).nextLink q = c.nextLink q := by
  by_cases hq : q = p
  · subst hq
    cases he : c.entries q <;> simp [nextLink, withPrev, put, he]
  · simp [nextLink, withPrev, put, hq]

theorem withNext_nextLink_self (h : (c.object p).isSome) : (c.withNext p v).nextLink p = v := by
  cases he : c.entries p with
  | none => simp [object, he] at h
  | some e => simp [nextLink, withNext, put, he]

theorem withPrev_prevLink_self (h : (c.object p).isSome) : (c.withPrev p v).prevLink p = v := by
  cases he : c.entries p with
  | none => simp [object, he] at h
  | some e => simp [prevLink, withPrev, put, he]

theorem withNext_nextLink_ne (h : q ≠ p) : (c.withNext p v).nextLink q = c.nextLink q := by
  simp [nextLink, withNext, put, h]

theorem withPrev_prevLink_ne (h : q ≠ p) : (c.withPrev p v).prevLink q = c.prevLink q := by
  simp [prevLink, withPrev, put, h]

theorem put_object_ne {e : Option Entry} (h : q ≠ p) : (c.put p e).object q = c.object q := by
  simp [object, put, h]

theorem put_nextLink_ne {e : Option Entry} (h : q ≠ p) :
    (c.put p e).nextLink q = c.nextLink q := by
  simp [nextLink, put, h]

theorem put_prevLink_ne {e : Option Entry} (h : q ≠ p) :
    (c.put p e).prevLink q = c.prevLink q := by
  simp [prevLink, put, h]

end Cache

/-! ### The representation -/

/-- The addresses of a list of objects. -/
abbrev ptrs (es : List (Ptr × Object)) : List Ptr := es.map Prod.fst

/-- The sizes of a list of objects, added up. -/
def total (es : List (Ptr × Object)) : ℤ := (es.map fun x => x.2.size).sum

theorem total_cons (p : Ptr) (o : Object) (es : List (Ptr × Object)) :
    total ((p, o) :: es) = o.size + total es := by
  rw [total, List.map_cons, List.sum_cons]
  rfl

theorem total_append (es₁ es₂ : List (Ptr × Object)) :
    total (es₁ ++ es₂) = total es₁ + total es₂ := by
  rw [total, List.map_append, List.sum_append]
  rfl

theorem total_nonneg {es : List (Ptr × Object)} (h : ∀ x ∈ es, 0 ≤ x.2.size) : 0 ≤ total es := by
  apply List.sum_nonneg
  intro n hn
  obtain ⟨x, hx, rfl⟩ := List.mem_map.mp hn
  exact h x hx

/-- The cache holds the objects `es`, in this order, and nothing else. -/
structure Rep (c : Cache) (es : List (Ptr × Object)) : Prop where
  links : Linked c.nextLink c.prevLink none (ptrs es)
  head : c.head = (ptrs es).head?
  tail : c.tail = (ptrs es).getLast?
  nodup : (ptrs es).Nodup
  stored : ∀ p o, (p, o) ∈ es ↔ c.object p = some o
  size : c.cacheSize = total es

/-- A lookup of `key` in the list `es`: the address it returns and the list afterwards. -/
inductive Found (key : CString) : List (Ptr × Object) → Option Ptr → List (Ptr × Object) → Prop
  | miss {es : List (Ptr × Object)} (hnone : ∀ x ∈ es, x.2.key ≠ key) : Found key es none es
  | hit {es₁ es₂ : List (Ptr × Object)} {p : Ptr} {o : Object} (hkey : o.key = key)
      (hfirst : ∀ x ∈ es₁, x.2.key ≠ key) :
      Found key (es₁ ++ (p, o) :: es₂) (some p) ((p, o) :: (es₁ ++ es₂))

theorem Found.perm {key : CString} {es es' : List (Ptr × Object)} {q : Option Ptr}
    (h : Found key es q es') : es'.Perm es := by
  cases h with
  | miss => exact List.Perm.refl _
  | hit => exact List.perm_middle.symm

/-- A lookup of any key keeps the first object of every key. -/
theorem Found.find?_eq {key : CString} {es es' : List (Ptr × Object)} {q : Option Ptr}
    (h : Found key es q es') (k : CString) :
    es'.find? (fun x => decide (x.2.key = k)) = es.find? fun x => decide (x.2.key = k) := by
  cases h with
  | miss => rfl
  | @hit es₁ es₂ p o hkey hfirst =>
    by_cases hk : o.key = k
    · -- the moved object was the first one with this key
      have hmiss : es₁.find? (fun x => decide (x.2.key = k)) = none :=
        List.find?_eq_none.mpr (by simpa [← hk, hkey] using hfirst)
      rw [List.find?_append, hmiss, List.find?_cons_of_pos (by simpa using hk),
        List.find?_cons_of_pos (by simpa using hk)]
      rfl
    · rw [List.find?_cons_of_neg (by simpa using hk), List.find?_append, List.find?_append,
        List.find?_cons_of_neg (by simpa using hk)]

/-- `keep` is what is left of `es` when the shortest suffix `drop` that makes room for `size` bytes
is dropped; everything is dropped when nothing less suffices. -/
structure Evicts (size : ℤ) (es keep drop : List (Ptr × Object)) : Prop where
  split : es = keep ++ drop
  room : keep ≠ [] → total keep + size ≤ maxCacheSize
  least : ∀ x rest, drop = x :: rest → total (keep ++ [x]) + size > maxCacheSize

/-- Eviction keeps the first object of a key or drops the key. -/
theorem Evicts.find?_eq {size : ℤ} {es keep drop : List (Ptr × Object)} {k : CString}
    {x : Ptr × Object} (h : Evicts size es keep drop)
    (hx : keep.find? (fun x => decide (x.2.key = k)) = some x) :
    es.find? (fun x => decide (x.2.key = k)) = some x := by
  rw [h.split, List.find?_append, hx]
  rfl

/-- No shorter suffix than the evicted one makes room. -/
theorem Evicts.shortest {size : ℤ} {es keep drop front back : List (Ptr × Object)}
    (h : Evicts size es keep drop) (hsizes : ∀ x ∈ es, 0 ≤ x.2.size) (hsplit : es = front ++ back)
    (hroom : total front + size ≤ maxCacheSize) : drop.length ≤ back.length := by
  have hboth : front ++ back = keep ++ drop := hsplit.symm.trans h.split
  rcases List.append_eq_append_iff.mp hboth with ⟨m, _, rfl⟩ | ⟨m, rfl, rfl⟩
  · simp
  · cases m with
    | nil => simp
    | cons x m =>
      -- the part of `front` beyond `keep` starts with the object that had to go
      have hx := h.least x (m ++ back) rfl
      have hm : 0 ≤ total m := total_nonneg fun y hy => hsizes y (by rw [hsplit]; simp [hy])
      have hfront : total (keep ++ x :: m) = total (keep ++ [x]) + total m := by
        rw [← total_append, List.append_assoc]
        rfl
      omega

theorem evicts_nothing {size : ℤ} {es : List (Ptr × Object)} (h : total es + size ≤ maxCacheSize) :
    Evicts size es es [] :=
  ⟨by simp, fun _ => h, fun _ _ hx => by cases hx⟩

theorem rep_cacheInit : Rep cacheInit [] :=
  ⟨trivial, rfl, rfl, List.nodup_nil, by simp [Cache.object, cacheInit], rfl⟩

namespace Rep

variable {c : Cache} {es es₁ es₂ : List (Ptr × Object)} {p : Ptr} {o : Object}

/-- An address of the list is allocated. -/
theorem allocated (r : Rep c es) (hp : p ∈ ptrs es) : (c.object p).isSome := by
  obtain ⟨⟨q, o⟩, hq, rfl⟩ := List.mem_map.mp hp
  rw [(r.stored q o).mp hq]
  rfl

/-- The allocated addresses are those of the list. -/
theorem mem_ptrs (r : Rep c es) : p ∈ ptrs es ↔ (c.entries p).isSome := by
  refine ⟨fun hp => by simpa [Cache.object] using r.allocated hp, fun hp => ?_⟩
  obtain ⟨e, he⟩ := Option.isSome_iff_exists.mp hp
  exact List.mem_map_of_mem ((r.stored p e.toObject).mpr (by simp [Cache.object, he]))

theorem notMem_of_free (r : Rep c es) (hp : (c.entries p).isSome = false) : p ∉ ptrs es := by
  intro hin
  have := r.allocated hin
  rw [Cache.object, Option.isSome_map, hp] at this
  cases this

/-! ### `cache_find` -/

/-- The search loop returns the first object with the key. -/
theorem findFrom_eq (key : CString) {q : Option Ptr} {fuel : ℕ}
    (hl : Linked c.nextLink c.prevLink q (ptrs es)) (hs : ∀ p o, (p, o) ∈ es → c.object p = some o)
    (hfuel : es.length < fuel) :
    findFrom c key fuel (ptrs es).head? =
      some ((es.find? fun x => decide (x.2.key = key)).map Prod.fst) := by
  induction es generalizing q fuel with
  | nil =>
    cases fuel with
    | zero => simp at hfuel
    | succ fuel => rfl
  | cons x es ih =>
    obtain ⟨p, o⟩ := x
    cases fuel with
    | zero => simp at hfuel
    | succ fuel =>
      obtain ⟨_, hnext, hrest⟩ := hl
      have hobj := hs p o List.mem_cons_self
      have hlt : es.length < fuel := by
        rw [List.length_cons] at hfuel
        omega
      have hgo := ih hrest (fun p o hm => hs p o (List.mem_cons_of_mem _ hm)) hlt
      cases he : c.entries p with
      | none => simp [Cache.object, he] at hobj
      | some e =>
        simp only [Cache.object, he, Option.map_some, Option.some.injEq] at hobj
        simp only [Cache.nextLink, he, Option.bind_some] at hnext
        subst hobj
        by_cases hk : e.key = key
        · simp [findFrom, he, hk]
        · simp only [List.map_cons, List.head?_cons, findFrom, he, Option.bind_eq_bind,
            Option.bind_some, hk, if_false, hnext, hgo, List.find?_cons, decide_false]

/-- The neighbours of an entry that is not the head bypass it. -/
theorem detach_eq {x : Ptr × Object} (r : Rep c (x :: es₁ ++ (p, o) :: es₂)) :
    ∃ c', detach p c = some c' ∧ c'.head = some x.1 ∧
      c'.tail = (ptrs (x :: es₁ ++ es₂)).getLast? ∧ c'.cacheSize = c.cacheSize ∧
      (∀ y, c'.object y = c.object y) ∧
      Linked c'.nextLink c'.prevLink none (ptrs (x :: es₁ ++ es₂)) := by
  have hlist : ptrs (x :: es₁ ++ (p, o) :: es₂) = ptrs (x :: es₁) ++ p :: ptrs es₂ := by simp [ptrs]
  have hlinks := r.links
  have hnd := r.nodup
  rw [hlist] at hlinks hnd
  have hdis := List.nodup_append.mp hnd
  obtain ⟨q, hlast⟩ : ∃ q, (ptrs (x :: es₁)).getLast? = some q := by
    cases hl : (ptrs (x :: es₁)).getLast? with
    | none => simp at hl
    | some q => exact ⟨q, rfl⟩
  have hq : q ∈ ptrs (x :: es₁) := List.mem_of_getLast? hlast
  have hprev : c.prevLink p = some q := by rw [hlinks.prevAt, lastOr, hlast]; rfl
  have hnext : c.nextLink p = (ptrs es₂).head? := hlinks.nextAt
  have hqp : q ≠ p := hdis.2.2 q hq p List.mem_cons_self
  have hpa : (c.object p).isSome := r.allocated (by rw [hlist]; simp)
  have hqa : (c.object q).isSome := r.allocated (by rw [hlist]; exact List.mem_append_left _ hq)
  have hp₂ : p ∉ ptrs es₂ := (List.nodup_cons.mp hdis.2.1).1
  have htail : c.tail = (p :: ptrs es₂).getLast? := by
    rw [r.tail, hlist, List.getLast?_append]
    cases hl : (p :: ptrs es₂).getLast? with
    | none => simp at hl
    | some t => rfl
  have hp₁ : ((c.withNext q (c.nextLink p)).object p).isSome := by rw [Cache.withNext_object]; exact hpa
  have hn₁ : (c.withNext q (c.nextLink p)).nextLink p = c.nextLink p :=
    Cache.withNext_nextLink_ne hqp.symm
  -- the two branches, as what they leave behind
  obtain ⟨c', hc', hhead', htail', hsize', hobj', hnext', hprev'⟩ : ∃ c', detach p c = some c' ∧
      c'.head = c.head ∧ c'.tail = (ptrs (x :: es₁ ++ es₂)).getLast? ∧
      c'.cacheSize = c.cacheSize ∧ (∀ y, c'.object y = c.object y) ∧
      (∀ y, c'.nextLink y = (c.withNext q (c.nextLink p)).nextLink y) ∧
      ∀ y, c'.prevLink y = if c.nextLink p = some y then c.prevLink p else c.prevLink y := by
    cases es₂ with
    | nil =>
      have hnone : c.nextLink p = none := hnext
      have ht : c.tail = some p := htail
      refine ⟨{ c.withNext q (c.nextLink p) with tail := c.prevLink p }, ?_, rfl, ?_, rfl,
        fun y => Cache.withNext_object, fun y => rfl, fun y => ?_⟩
      · simp [detach, Cache.getPrev_eq hpa, Cache.getNext_eq hpa, hprev, Cache.setNext_eq hqa, ht,
          Cache.getPrev_eq hp₁]
      · rw [hprev, List.append_nil, hlast]
      · rw [hnone]
        exact Cache.withNext_prevLink
    | cons z es₂ =>
      have hz : c.nextLink p = some z.1 := hnext
      have hza : ((c.withNext q (c.nextLink p)).object z.1).isSome := by
        rw [Cache.withNext_object]
        exact r.allocated (by rw [hlist]; simp)
      have ht : c.tail = (ptrs (z :: es₂)).getLast? := htail
      have hpt : some p ≠ c.tail := by
        intro he
        exact hp₂ (List.mem_of_getLast? (ht ▸ he.symm))
      refine ⟨(c.withNext q (c.nextLink p)).withPrev z.1 (c.prevLink p), ?_, rfl, ?_, rfl,
        fun y => by simp, fun y => Cache.withPrev_nextLink, fun y => ?_⟩
      · rw [hz] at hp₁ hn₁ hza
        simp [detach, Cache.getPrev_eq hpa, Cache.getNext_eq hpa, hprev, Cache.setNext_eq hqa, hpt,
          Cache.getPrev_eq hp₁, Cache.getNext_eq hp₁, hn₁, hz, Cache.setPrev_eq hza]
      · show c.tail = _
        rw [ht, ptrs, ptrs, List.map_append, List.getLast?_append]
        cases hl : (List.map Prod.fst (z :: es₂)).getLast? with
        | none => simp at hl
        | some t => rfl
      · by_cases hy : z.1 = y
        · rw [if_pos (by rw [hz, hy]), ← hy, Cache.withPrev_prevLink_self hza]
        · rw [if_neg (by simpa [hz] using hy), Cache.withPrev_prevLink_ne (fun h => hy h.symm),
            Cache.withNext_prevLink]
  have hrest : ptrs (x :: es₁ ++ es₂) = ptrs (x :: es₁) ++ ptrs es₂ := by simp [ptrs]
  refine ⟨c', hc', hhead'.trans r.head, htail', hsize', hobj', ?_⟩
  rw [hrest]
  refine hlinks.unlink hnd (by simp) ?_ ?_ ?_ ?_
  · intro y _ hy
    obtain rfl : q = y := Option.some.inj (hprev.symm.trans hy)
    rw [hnext', Cache.withNext_nextLink_self hqa]
  · intro y _ hy
    rw [hnext', Cache.withNext_nextLink_ne fun he => hy (by rw [hprev, he])]
  · intro y _ hy
    rw [hprev', if_pos hy]
  · intro y _ hy
    rw [hprev', if_neg hy]

/-- **The move to front.** -/
theorem moveToFront_eq (r : Rep c (es₁ ++ (p, o) :: es₂)) :
    ∃ c', moveToFront p c = some c' ∧ Rep c' ((p, o) :: (es₁ ++ es₂)) := by
  cases es₁ with
  | nil =>
    have hhead : c.head = some p := r.head
    exact ⟨c, by rw [moveToFront, if_neg (by simp [hhead])], r⟩
  | cons x es₁ =>
    have hhead : c.head = some x.1 := r.head
    have hlist : ptrs (x :: es₁ ++ (p, o) :: es₂) = ptrs (x :: es₁) ++ p :: ptrs es₂ := by
      simp [ptrs]
    have hperm : (x :: es₁ ++ (p, o) :: es₂).Perm ((p, o) :: (x :: es₁ ++ es₂)) :=
      List.perm_middle
    have hnd : (p :: ptrs (x :: es₁ ++ es₂)).Nodup := (hperm.map Prod.fst).nodup_iff.mp r.nodup
    have hp := (List.nodup_cons.mp hnd).1
    have hxp : x.1 ≠ p := fun he => hp (by rw [← he]; simp [ptrs])
    obtain ⟨c₁, hdet, hhead₁, htail₁, hsize₁, hobj₁, hlinks₁⟩ := r.detach_eq
    have hpa : (c₁.object p).isSome := by
      rw [hobj₁]
      exact r.allocated (by rw [hlist]; simp)
    have hxa : (c₁.object x.1).isSome := by
      rw [hobj₁]
      exact r.allocated (by simp [ptrs])
    refine ⟨{ ((c₁.withPrev p none).withNext p (some x.1)).withPrev x.1 (some p) with
      head := some p }, ?_, ?_⟩
    · rw [moveToFront, if_pos (by rw [hhead]; simpa using hxp.symm), hdet]
      simp [Cache.setPrev_eq hpa, hhead₁, Cache.setNext_eq (c := c₁.withPrev p none) (p := p)
        (by simpa using hpa), Cache.setPrev_eq (c := (c₁.withPrev p none).withNext p (some x.1))
        (p := x.1) (by simpa using hxa)]
    · have hp₂ : ((c₁.withPrev p none).object p).isSome := by simpa using hpa
      have hx₂ : (((c₁.withPrev p none).withNext p (some x.1)).object x.1).isSome := by
        simpa using hxa
      refine ⟨hlinks₁.pushFront (List.nodup_cons.mp hnd).2 ?_ ?_ (fun y hy => ?_) (fun y _ hy => ?_)
        (fun y hy hne => ?_), rfl, ?_, hnd, fun q b => ?_, ?_⟩
      · exact Cache.withPrev_nextLink.trans (Cache.withNext_nextLink_self hp₂)
      · exact (Cache.withPrev_prevLink_ne hxp.symm).trans
          (Cache.withNext_prevLink.trans (Cache.withPrev_prevLink_self hpa))
      · have hyp : y ≠ p := ne_of_mem_of_not_mem hy hp
        exact Cache.withPrev_nextLink.trans
          ((Cache.withNext_nextLink_ne hyp).trans Cache.withPrev_nextLink)
      · obtain rfl : x.1 = y := Option.some.inj hy
        exact Cache.withPrev_prevLink_self hx₂
      · have hyp : y ≠ p := ne_of_mem_of_not_mem hy hp
        have hyx : y ≠ x.1 := fun he => hne (by rw [he]; rfl)
        exact (Cache.withPrev_prevLink_ne hyx).trans
          (Cache.withNext_prevLink.trans (Cache.withPrev_prevLink_ne hyp))
      · show c₁.tail = _
        rw [htail₁]
        rfl
      · have hobj : (((c₁.withPrev p none).withNext p (some x.1)).withPrev x.1 (some p)).object q =
            c₁.object q :=
          Cache.withPrev_object.trans (Cache.withNext_object.trans Cache.withPrev_object)
        rw [← hperm.mem_iff, r.stored, ← hobj₁, ← hobj]
        rfl
      · show c₁.cacheSize = _
        rw [hsize₁, r.size, total, total, (hperm.map _).sum_eq]

/-- **`cache_find`** finds the first object with the key and moves it to the front, or changes
nothing. -/
theorem cacheFind_eq (r : Rep c es) (key : CString) {fuel : ℕ} (hfuel : es.length < fuel) :
    ∃ q c' es', cacheFind fuel key c = some (q, c') ∧ Found key es q es' ∧ Rep c' es' := by
  have h := findFrom_eq key r.links (fun p o => (r.stored p o).mp) hfuel
  cases hf : es.find? fun x => decide (x.2.key = key) with
  | none =>
    rw [hf] at h
    refine ⟨none, c, es, ?_, .miss (by simpa using List.find?_eq_none.mp hf), r⟩
    rw [cacheFind, r.head, h]
    rfl
  | some x =>
    rw [hf] at h
    obtain ⟨hkey, es₁, es₂, rfl, hfirst⟩ := List.find?_eq_some_iff_append.mp hf
    obtain ⟨c', hmove, hr⟩ := r.moveToFront_eq
    refine ⟨some x.1, c', _, ?_, .hit (by simpa using hkey) (by simpa using hfirst), hr⟩
    rw [cacheFind, r.head, h]
    simp [hmove]

/-! ### `cache_evict` -/

/-- One iteration drops the last object. -/
theorem evictTail_eq (r : Rep c (es ++ [(p, o)])) :
    ∃ c', evictTail c = some c' ∧ Rep c' es := by
  have hlist : ptrs (es ++ [(p, o)]) = ptrs es ++ p :: [] := by simp [ptrs]
  have hlinks := r.links
  have hnd := r.nodup
  rw [hlist] at hlinks hnd
  have hp : p ∉ ptrs es := fun hin => (List.nodup_append.mp hnd).2.2 p hin p (by simp) rfl
  have hobj : c.object p = some o := (r.stored p o).mp (by simp)
  have htail : c.tail = some p := by simp [r.tail, hlist]
  have hprev : c.prevLink p = (ptrs es).getLast? := by
    rw [hlinks.prevAt, lastOr]
    simp
  obtain ⟨e, he⟩ : ∃ e, c.entries p = some e := by
    cases he : c.entries p with
    | none => simp [Cache.object, he] at hobj
    | some e => exact ⟨e, rfl⟩
  obtain rfl : e.toObject = o := by simpa [Cache.object, he] using hobj
  have hep : e.prev = (ptrs es).getLast? := by simpa [Cache.prevLink, he] using hprev
  have hsize : c.cacheSize - e.size = total es := by
    rw [r.size]
    simp [total]
  have hmem : ∀ q b, (q, b) ∈ es ↔ q ≠ p ∧ c.object q = some b := by
    intro q b
    rw [← r.stored, List.mem_append, List.mem_singleton]
    refine ⟨fun hq => ⟨fun he => hp (he ▸ List.mem_map_of_mem hq), Or.inl hq⟩, ?_⟩
    rintro ⟨hne, hq | hq⟩
    · exact hq
    · cases hq
      exact absurd rfl hne
  have hgone : (c.put p none).object p = none := by simp [Cache.object, Cache.put]
  have hstored : ∀ q b, (q, b) ∈ es ↔ (c.put p none).object q = some b := by
    intro q b
    rw [hmem]
    by_cases hq : q = p
    · simp [hq, hgone]
    · simp [hq, Cache.put_object_ne hq]
  rcases List.eq_nil_or_concat es with rfl | ⟨l, ⟨q, b⟩, rfl⟩
  · have hnone : e.prev = none := hep
    refine ⟨⟨(c.put p none).entries, none, none, c.cacheSize - e.size⟩, ?_,
      ⟨trivial, rfl, rfl, List.nodup_nil, hstored, hsize⟩⟩
    simp [evictTail, htail, he, hnone, Cache.put]
  · have hsome : e.prev = some q := by simp [hep, ptrs]
    have hqp : q ≠ p := fun he => hp (by simp [ptrs, he])
    obtain ⟨d, hd⟩ : ∃ d : Cache, d = ⟨(c.put p none).entries, c.head, some q, c.cacheSize - e.size⟩ :=
      ⟨_, rfl⟩
    have hdobj : ∀ y, d.object y = (c.put p none).object y := fun y => by rw [hd]; rfl
    have hdnext : ∀ y, y ≠ p → d.nextLink y = c.nextLink y := fun y hy => by
      rw [hd]
      exact Cache.put_nextLink_ne hy
    have hdprev : ∀ y, y ≠ p → d.prevLink y = c.prevLink y := fun y hy => by
      rw [hd]
      exact Cache.put_prevLink_ne hy
    have hqa : (d.object q).isSome := by
      rw [hdobj, Cache.put_object_ne hqp]
      exact r.allocated (by simp [ptrs])
    have hne : ∀ y ∈ ptrs (l ++ [(q, b)]), y ≠ p := fun y hy he => hp (by
      rw [List.concat_eq_append, ← he]
      exact hy)
    rw [List.concat_eq_append] at *
    refine ⟨d.withNext q none, ?_, ⟨?_, ?_, ?_, (List.nodup_append.mp hnd).1, fun y b => ?_, ?_⟩⟩
    · simp only [evictTail, htail, he, hsome, Option.bind_eq_bind, Option.bind_some, ne_eq,
        reduceCtorEq, not_false_eq_true, if_true]
      rw [hd] at hqa ⊢
      exact Cache.setNext_eq hqa
    · rw [← List.append_nil (ptrs (l ++ [(q, b)]))]
      refine hlinks.unlink hnd (by simp) (fun y hy hpy => ?_) (fun y hy hpy => ?_)
        (fun y hy hpy => ?_) (fun y hy hpy => ?_)
      all_goals rw [List.append_nil] at hy
      · obtain rfl : q = y := by simpa [hprev, ptrs] using hpy
        rw [Cache.withNext_nextLink_self hqa, hlinks.nextAt]
        rfl
      · have hyq : y ≠ q := fun he => hpy (by rw [hprev, he]; simp [ptrs])
        rw [Cache.withNext_nextLink_ne hyq, hdnext y (hne y hy)]
      · rw [hlinks.nextAt] at hpy
        cases hpy
      · rw [Cache.withNext_prevLink, hdprev y (hne y hy)]
    · have hhead := r.head
      rw [hlist] at hhead
      rw [Cache.withNext_head, hd]
      show c.head = _
      rw [hhead]
      cases l <;> rfl
    · rw [Cache.withNext_tail, hd]
      simp [ptrs]
    · rw [hstored, Cache.withNext_object, hdobj]
    · rw [Cache.withNext_cacheSize, hd]
      exact hsize

/-- **`cache_evict`.** -/
theorem cacheEvict_eq {size : ℤ} {fuel : ℕ} (r : Rep c es) (hfuel : es.length < fuel) :
    ∃ c' keep drop, cacheEvict size fuel c = some c' ∧ Evicts size es keep drop ∧ Rep c' keep := by
  induction fuel generalizing c es with
  | zero => omega
  | succ fuel ih =>
    rcases List.eq_nil_or_concat es with rfl | ⟨l, ⟨q, b⟩, rfl⟩
    · refine ⟨c, [], [], ?_, ⟨rfl, fun h => absurd rfl h, fun _ _ h => by cases h⟩, r⟩
      have htail : c.tail = none := r.tail
      simp [cacheEvict, htail]
    · rw [List.concat_eq_append] at *
      have htail : c.tail ≠ none := by simp [r.tail, ptrs]
      by_cases hfull : c.cacheSize + size > maxCacheSize
      · obtain ⟨c₁, htl, hr₁⟩ := r.evictTail_eq
        have hlt : l.length < fuel := by
          rw [List.length_append, List.length_singleton] at hfuel
          omega
        obtain ⟨c', keep, drop, hev, hdrop, hr'⟩ := ih hr₁ hlt
        obtain rfl := hdrop.split
        refine ⟨c', keep, drop ++ [(q, b)], ?_, ⟨by simp, hdrop.room, fun x rest hx => ?_⟩, hr'⟩
        · simp [cacheEvict, hfull, htail, htl, hev]
        · cases drop with
          | nil =>
            obtain ⟨rfl, _⟩ := List.cons.inj hx
            rw [r.size] at hfull
            simpa using hfull
          | cons z drop =>
            obtain ⟨rfl, _⟩ := List.cons.inj hx
            exact hdrop.least _ _ rfl
      · refine ⟨c, l ++ [(q, b)], [], ?_, evicts_nothing ?_, r⟩
        · simp [cacheEvict, hfull]
        · rw [← r.size]
          omega

/-! ### `cache_insert` -/

/-- The first statement of `cache_insert`. -/
theorem makeRoom_eq (size : ℤ) {fuel : ℕ} (r : Rep c es) (hfuel : es.length < fuel) :
    ∃ c' keep drop, makeRoom fuel size c = some c' ∧ Evicts size es keep drop ∧ Rep c' keep := by
  by_cases hfull : c.cacheSize + size > maxCacheSize
  · rw [makeRoom, if_pos hfull]
    exact r.cacheEvict_eq hfuel
  · refine ⟨c, es, [], by rw [makeRoom, if_neg hfull], evicts_nothing ?_, r⟩
    rw [← r.size]
    omega

/-- The rest of `cache_insert`: the new object is in front of what is kept. -/
theorem cacheInsert_eq (key : CString) (value : List UInt8) {size : ℤ} {fuel : ℕ} {c' : Cache}
    (hroom : makeRoom fuel size c = some c') (r : Rep c' es) (hfree : (c'.entries p).isSome = false) :
    ∃ c'', cacheInsert fuel p key value size c = some c'' ∧
      Rep c'' ((p, ⟨key, strdup value, size⟩) :: es) := by
  have hp : p ∉ ptrs es := r.notMem_of_free hfree
  generalize he : (⟨⟨key, strdup value, size⟩, none, c'.head⟩ : Entry) = e
  have hobj : e.toObject = ⟨key, strdup value, size⟩ := by rw [← he]
  have hsize : c'.cacheSize + size = total ((p, e.toObject) :: es) := by
    rw [r.size, hobj, total, total, List.map_cons, List.sum_cons]
    exact Int.add_comm _ _
  have hins : cacheInsert fuel p key value size c =
      if c'.head ≠ none then
        ((c'.put p (some e)).setPrev c'.head (some p)).bind fun d =>
          some { d with head := some p, cacheSize := d.cacheSize + size }
      else some ⟨(c'.put p (some e)).entries, some p, some p, c'.cacheSize + size⟩ := by
    simp only [cacheInsert, hroom, Option.bind_eq_bind, Option.bind_some, hfree, he]
    rfl
  have hself : (c'.put p (some e)).object p = some e.toObject := by simp [Cache.object, Cache.put]
  have hnext : (c'.put p (some e)).nextLink p = c'.head := by
    simp [Cache.nextLink, Cache.put, ← he]
  have hprev : (c'.put p (some e)).prevLink p = none := by simp [Cache.prevLink, Cache.put, ← he]
  have hstored : ∀ q b, (q, b) ∈ (p, e.toObject) :: es ↔
      (c'.put p (some e)).object q = some b := by
    intro q b
    by_cases hq : q = p
    · subst hq
      have hnot : (q, b) ∉ es := fun hin => hp (List.mem_map_of_mem hin)
      rw [hself, List.mem_cons, Option.some.injEq, Prod.mk.injEq]
      simp [hnot, eq_comm]
    · rw [Cache.put_object_ne hq, ← r.stored]
      simp [hq]
  rw [← hobj]
  cases es with
  | nil =>
    have hhead : c'.head = none := r.head
    refine ⟨⟨(c'.put p (some e)).entries, some p, some p, c'.cacheSize + size⟩, ?_,
      ⟨⟨hprev, hnext.trans hhead, trivial⟩, rfl, rfl, by simp, hstored, hsize⟩⟩
    rw [hins, hhead]
    rfl
  | cons x es =>
    have hhead : c'.head = some x.1 := r.head
    have hxp : x.1 ≠ p := fun he => hp (by simp [ptrs, ← he])
    have hxa : ((c'.put p (some e)).object x.1).isSome := by
      rw [Cache.put_object_ne hxp]
      exact r.allocated (by simp [ptrs])
    refine ⟨⟨((c'.put p (some e)).withPrev x.1 (some p)).entries, some p, c'.tail,
      c'.cacheSize + size⟩, ?_, ⟨?_, rfl, ?_, ?_, fun q b => ?_, hsize⟩⟩
    · rw [hins, hhead, if_pos (by simp), Cache.setPrev_eq hxa]
      rfl
    · refine r.links.pushFront r.nodup ?_ ?_ (fun y hy => ?_) (fun y _ hy => ?_)
        (fun y hy hne => ?_)
      · exact Cache.withPrev_nextLink.trans (hnext.trans r.head)
      · exact (Cache.withPrev_prevLink_ne hxp.symm).trans hprev
      · have hyp : y ≠ p := ne_of_mem_of_not_mem hy hp
        exact Cache.withPrev_nextLink.trans (Cache.put_nextLink_ne hyp)
      · obtain rfl : x.1 = y := Option.some.inj hy
        exact Cache.withPrev_prevLink_self hxa
      · have hyp : y ≠ p := ne_of_mem_of_not_mem hy hp
        have hyx : y ≠ x.1 := fun he => hne (by rw [he]; rfl)
        exact (Cache.withPrev_prevLink_ne hyx).trans (Cache.put_prevLink_ne hyp)
    · show c'.tail = _
      rw [r.tail]
      rfl
    · exact List.nodup_cons.mpr ⟨hp, r.nodup⟩
    · rw [hstored, ← Cache.withPrev_object (p := x.1) (v := some p)]
      rfl

/-! ### Whatever the number of tests -/

theorem findFrom_mono {key : CString} {fuel fuel' : ℕ} (hle : fuel ≤ fuel') {q : Option Ptr}
    {x : Option Ptr} (h : findFrom c key fuel q = some x) : findFrom c key fuel' q = some x := by
  induction fuel generalizing fuel' q with
  | zero => cases h
  | succ fuel ih =>
    cases fuel' with
    | zero => omega
    | succ fuel' =>
      cases q with
      | none => exact h
      | some p =>
        cases he : c.entries p with
        | none => simp [findFrom, he] at h
        | some e =>
          simp only [findFrom, he, Option.bind_eq_bind, Option.bind_some] at h ⊢
          split at h
          · rename_i hk
            rw [if_pos hk, h]
          · rename_i hk
            rw [if_neg hk]
            exact ih (by omega) h

theorem cacheEvict_mono {size : ℤ} {fuel fuel' : ℕ} (hle : fuel ≤ fuel') {c' : Cache}
    (h : cacheEvict size fuel c = some c') : cacheEvict size fuel' c = some c' := by
  induction fuel generalizing fuel' c with
  | zero => cases h
  | succ fuel ih =>
    cases fuel' with
    | zero => omega
    | succ fuel' =>
      simp only [cacheEvict] at h ⊢
      split at h
      · rename_i hc
        rw [if_pos hc]
        obtain ⟨d, hd, hrest⟩ := Option.bind_eq_some_iff.mp h
        exact Option.bind_eq_some_iff.mpr ⟨d, hd, ih (by omega) hrest⟩
      · rename_i hc
        rw [if_neg hc, h]

/-- A lookup that returns refines the abstract one. -/
theorem cacheFind_found {key : CString} {fuel : ℕ} {q : Option Ptr} {c' : Cache} (r : Rep c es)
    (h : cacheFind fuel key c = some (q, c')) : ∃ es', Found key es q es' ∧ Rep c' es' := by
  have hmono : cacheFind (max fuel (es.length + 1)) key c = some (q, c') := by
    obtain ⟨x, hx, hrest⟩ := Option.bind_eq_some_iff.mp h
    exact Option.bind_eq_some_iff.mpr ⟨x, findFrom_mono (Nat.le_max_left _ _) hx, hrest⟩
  have hlt : es.length < max fuel (es.length + 1) := by omega
  obtain ⟨q', c'', es', hfind, hfound, hr⟩ := r.cacheFind_eq key hlt
  rw [hfind] at hmono
  cases hmono
  exact ⟨es', hfound, hr⟩

/-- Room that was made was made by evicting. -/
theorem makeRoom_evicts {size : ℤ} {fuel : ℕ} {d : Cache} (r : Rep c es)
    (h : makeRoom fuel size c = some d) : ∃ keep drop, Evicts size es keep drop ∧ Rep d keep := by
  have hmono : makeRoom (max fuel (es.length + 1)) size c = some d := by
    rw [makeRoom] at h ⊢
    split at h
    · rename_i hc
      rw [if_pos hc]
      exact cacheEvict_mono (Nat.le_max_left _ _) h
    · rename_i hc
      rw [if_neg hc, h]
  have hlt : es.length < max fuel (es.length + 1) := by omega
  obtain ⟨d', keep, drop, hroom, hev, hr⟩ := r.makeRoom_eq size hlt
  obtain rfl : d' = d := Option.some.inj (hroom.symm.trans hmono)
  exact ⟨keep, drop, hev, hr⟩

/-- An insertion that returns put the new object in front of what was kept. -/
theorem cacheInsert_rep {key : CString} {value : List UInt8} {size : ℤ} {fuel : ℕ} {c' d : Cache}
    (hroom : makeRoom fuel size c = some d) (r : Rep d es)
    (h : cacheInsert fuel p key value size c = some c') :
    Rep c' ((p, ⟨key, strdup value, size⟩) :: es) := by
  obtain ⟨d', hd', hrest⟩ := Option.bind_eq_some_iff.mp h
  obtain rfl : d' = d := Option.some.inj (hd'.symm.trans hroom)
  have hfree : (d'.entries p).isSome = false := by
    by_contra hused
    simp [hused] at hrest
  obtain ⟨c'', hins, hr'⟩ := cacheInsert_eq key value hroom r hfree
  obtain rfl : c'' = c' := Option.some.inj (hins.symm.trans h)
  exact hr'

/-- An insertion that returns made room and put the new object in front. -/
theorem cacheInsert_evicts {key : CString} {value : List UInt8} {size : ℤ} {fuel : ℕ} {c' : Cache}
    (r : Rep c es) (h : cacheInsert fuel p key value size c = some c') :
    ∃ keep drop, Evicts size es keep drop ∧ Rep c' ((p, ⟨key, strdup value, size⟩) :: keep) := by
  obtain ⟨d, hroom, _⟩ := Option.bind_eq_some_iff.mp h
  obtain ⟨keep, drop, hev, hr⟩ := r.makeRoom_evicts hroom
  exact ⟨keep, drop, hev, cacheInsert_rep hroom hr h⟩

end Rep

end SystemProgramming.ProxyLab
