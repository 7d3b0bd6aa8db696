import Mathlib.Data.Fintype.EquivFin
import SystemProgramming.Library.Transition
import SystemProgramming.ProxyLab.CacheInvariant

/-!
# Runs of the cache

Any sequence of `cache_find` and `cache_insert` calls from `cache_init`, each call one step, with the
sizes `forward_response` lets through.

* `Consistent` : the invariant; the cache represents a list of objects of admissible sizes whose
  total does not exceed `MAX_CACHE_SIZE`.
* `consistent_step`, `reachable_consistent` : one call and a whole run keep it.
* `cache_lists_consistent` : what a reachable cache looks like to a walk along its pointers.
-/

namespace SystemProgramming.ProxyLab

open LinkedList Transition

/-- A call of a proxy thread. -/
inductive CacheCall
  | find (key : CString)
  | insert (key : CString) (value : List UInt8) (size : ℤ)

/-- One call, as one atomic step. -/
inductive CacheStep : Cache → CacheCall → Cache → Prop
  | find {c c' : Cache} {fuel : ℕ} {key : CString} {q : Option Ptr}
      (h : cacheFind fuel key c = some (q, c')) : CacheStep c (.find key) c'
  | insert {c c' : Cache} {fuel : ℕ} {p : Ptr} {key : CString} {value : List UInt8} {size : ℤ}
      (hlo : 0 ≤ size) (hhi : size ≤ maxObjectSize)
      (h : cacheInsert fuel p key value size c = some c') : CacheStep c (.insert key value size) c'

/-- The runs from `cache_init`. -/
def cacheRuns : System Cache CacheCall where
  init c := c = cacheInit
  step := CacheStep

/-! ### The invariant -/

/-- The cache holds the objects `es`, of admissible sizes and within the budget. -/
structure Consistent (c : Cache) (es : List (Ptr × Object)) : Prop where
  rep : Rep c es
  sizes : ∀ x ∈ es, 0 ≤ x.2.size ∧ x.2.size ≤ maxObjectSize
  budget : total es ≤ maxCacheSize

theorem consistent_cacheInit : Consistent cacheInit [] :=
  ⟨rep_cacheInit, by simp, by decide⟩

namespace Consistent

variable {c c' : Cache} {es : List (Ptr × Object)} {key : CString} {fuel : ℕ}

theorem find {q : Option Ptr} (k : Consistent c es) (h : cacheFind fuel key c = some (q, c')) :
    ∃ es', Found key es q es' ∧ Consistent c' es' := by
  obtain ⟨es', hfound, hr⟩ := k.rep.cacheFind_found h
  have hperm := hfound.perm
  refine ⟨es', hfound, hr, fun x hx => k.sizes x (hperm.mem_iff.mp hx), ?_⟩
  rw [total, (hperm.map _).sum_eq]
  exact k.budget

/-- Putting an object in front of what an eviction for it kept. -/
theorem cons_of_evicts {p : Ptr} {o : Object} {keep drop : List (Ptr × Object)}
    (k : Consistent c es) (hlo : 0 ≤ o.size) (hhi : o.size ≤ maxObjectSize)
    (hev : Evicts o.size es keep drop) (hr : Rep c' ((p, o) :: keep)) :
    Consistent c' ((p, o) :: keep) := by
  refine ⟨hr, fun x hx => ?_, ?_⟩
  · rcases List.mem_cons.mp hx with rfl | hx
    · exact ⟨hlo, hhi⟩
    · exact k.sizes x (by rw [hev.split]; exact List.mem_append_left _ hx)
  · rw [total_cons]
    cases keep with
    | nil => simpa [total, maxCacheSize, maxObjectSize] using hhi
    | cons y keep =>
      have := hev.room (by simp)
      omega

theorem insert {p : Ptr} {value : List UInt8} {size : ℤ} (k : Consistent c es) (hlo : 0 ≤ size)
    (hhi : size ≤ maxObjectSize) (h : cacheInsert fuel p key value size c = some c') :
    ∃ keep drop, Evicts size es keep drop ∧
      Consistent c' ((p, ⟨key, strdup value, size⟩) :: keep) := by
  obtain ⟨keep, drop, hev, hr⟩ := k.rep.cacheInsert_evicts h
  exact ⟨keep, drop, hev, k.cons_of_evicts hlo hhi hev hr⟩

/-- A lookup returns. -/
theorem find_returns (k : Consistent c es) (key : CString) :
    ∃ fuel q c', cacheFind fuel key c = some (q, c') := by
  obtain ⟨q, c', _, h, _⟩ := k.rep.cacheFind_eq key (Nat.lt_succ_self es.length)
  exact ⟨_, q, c', h⟩

/-- An insertion returns: there is an address `Malloc` can return, and none makes it fail. -/
theorem insert_returns (k : Consistent c es) (key : CString) (value : List UInt8) (size : ℤ) :
    ∃ fuel p c', cacheInsert fuel p key value size c = some c' := by
  obtain ⟨d, keep, _, hroom, _, hr⟩ := k.rep.makeRoom_eq size (Nat.lt_succ_self es.length)
  obtain ⟨p, hp⟩ := Infinite.exists_notMem_finset (ptrs keep).toFinset
  have hfree : (d.entries p).isSome = false := by
    cases he : d.entries p with
    | none => rfl
    | some e =>
      have hobj : d.object p = some e.toObject := by simp [Cache.object, he]
      have := (hr.stored p e.toObject).mpr hobj
      exact absurd (List.mem_toFinset.mpr (List.mem_map_of_mem (f := Prod.fst) this)) hp
  obtain ⟨c', hins, _⟩ := Rep.cacheInsert_eq key value hroom hr hfree
  exact ⟨_, p, c', hins⟩

end Consistent

/-- **The step lemma.** -/
theorem consistent_step {c c' : Cache} {call : CacheCall} {es : List (Ptr × Object)}
    (k : Consistent c es) (hstep : CacheStep c call c') : ∃ es', Consistent c' es' := by
  cases hstep with
  | find h =>
    obtain ⟨es', _, k'⟩ := k.find h
    exact ⟨es', k'⟩
  | insert hlo hhi h =>
    obtain ⟨_, _, _, k'⟩ := k.insert hlo hhi h
    exact ⟨_, k'⟩

/-- **The run lemma.** -/
theorem reachable_consistent {c : Cache} (hc : cacheRuns.Reachable c) : ∃ es, Consistent c es := by
  refine hc.invariant (P := fun c => ∃ es, Consistent c es) ?_ ?_
  · rintro c rfl
    exact ⟨[], consistent_cacheInit⟩
  · rintro c call c' ⟨es, k⟩ hstep
    exact consistent_step k hstep

/-! ### A walk along the pointers -/

/-- The entries reachable from `curr` by `next`, with at most `fuel` tests. -/
def entryWalk (c : Cache) : ℕ → Option Ptr → Option (List Ptr)
  | 0, _ => none
  | _ + 1, none => some []
  | fuel + 1, some curr => do
    let next ← c.getNext curr
    let rest ← entryWalk c fuel next
    some (curr :: rest)

/-- `p->size`, `0` where nothing is allocated. -/
def sizeAt (c : Cache) (p : Ptr) : ℤ := ((c.entries p).map fun e => e.size).getD 0

theorem entryWalk_eq {c : Cache} {ps : List Ptr} {q : Option Ptr} {fuel : ℕ}
    (hl : Linked c.nextLink c.prevLink q ps) (ha : ∀ p ∈ ps, (c.object p).isSome)
    (hfuel : ps.length < fuel) : entryWalk c fuel ps.head? = some ps := by
  induction ps generalizing q fuel with
  | nil =>
    cases fuel with
    | zero => simp at hfuel
    | succ fuel => rfl
  | cons p ps ih =>
    cases fuel with
    | zero => simp at hfuel
    | succ fuel =>
      obtain ⟨_, hnext, hrest⟩ := hl
      have hlt : ps.length < fuel := by
        rw [List.length_cons] at hfuel
        omega
      have hgo := ih hrest (fun y hy => ha y (List.mem_cons_of_mem _ hy)) hlt
      simp [entryWalk, Cache.getNext_eq (ha p List.mem_cons_self), hnext, hgo]

theorem sizeAt_of_object {c : Cache} {p : Ptr} {o : Object} (h : c.object p = some o) :
    sizeAt c p = o.size := by
  cases he : c.entries p with
  | none => simp [Cache.object, he] at h
  | some e =>
    obtain rfl : e.toObject = o := by simpa [Cache.object, he] using h
    simp [sizeAt, he]

/-- `key` is the key of the entry at `p`. -/
def HasKey (c : Cache) (key : CString) (p : Ptr) : Prop := ∃ e, c.entries p = some e ∧ e.key = key

theorem hasKey_iff {c : Cache} {es : List (Ptr × Object)} {key : CString} {p : Ptr} (r : Rep c es) :
    HasKey c key p ↔ ∃ o, (p, o) ∈ es ∧ o.key = key := by
  constructor
  · rintro ⟨e, he, hkey⟩
    exact ⟨e.toObject, (r.stored p _).mpr (by simp [Cache.object, he]), hkey⟩
  · rintro ⟨o, ho, hkey⟩
    obtain ⟨e, he, rfl⟩ := Option.map_eq_some_iff.mp ((r.stored p o).mp ho)
    exact ⟨e, he, hkey⟩

/-- The key of a cached object is the key of the entry at its address. -/
theorem hasKey_of_mem {c : Cache} {es : List (Ptr × Object)} {x : Ptr × Object} {key : CString}
    (r : Rep c es) (hx : x ∈ es) : HasKey c key x.1 ↔ x.2.key = key := by
  rw [hasKey_iff r]
  constructor
  · rintro ⟨o, ho, hkey⟩
    have hx' := (r.stored x.1 x.2).mp hx
    rw [(r.stored x.1 o).mp ho, Option.some.injEq] at hx'
    rw [← hx']
    exact hkey
  · intro hkey
    exact ⟨x.2, hx, hkey⟩

/-- Walks of any length agree. -/
theorem entryWalk_unique {c : Cache} {fuel fuel' : ℕ} {q : Option Ptr} {ps ps' : List Ptr}
    (h : entryWalk c fuel q = some ps) (h' : entryWalk c fuel' q = some ps') : ps = ps' := by
  induction fuel generalizing fuel' q ps ps' with
  | zero => cases h
  | succ fuel ih =>
    cases fuel' with
    | zero => cases h'
    | succ fuel' =>
      cases q with
      | none =>
        cases h
        cases h'
        rfl
      | some p =>
        obtain ⟨next, hnext, h⟩ := Option.bind_eq_some_iff.mp h
        obtain ⟨next', hnext', h'⟩ := Option.bind_eq_some_iff.mp h'
        obtain rfl := Option.some.inj (hnext.symm.trans hnext')
        obtain ⟨rest, hrest, h⟩ := Option.bind_eq_some_iff.mp h
        obtain ⟨rest', hrest', h'⟩ := Option.bind_eq_some_iff.mp h'
        rw [← Option.some.inj h, ← Option.some.inj h', ih hrest hrest']

/-- A walk from `head` passes the entries of the list. -/
theorem Rep.entryWalk_head {c : Cache} {es : List (Ptr × Object)} (r : Rep c es) :
    entryWalk c (es.length + 1) c.head = some (ptrs es) := by
  rw [r.head]
  refine entryWalk_eq r.links (fun p hp => r.allocated hp) ?_
  rw [List.length_map]
  exact Nat.lt_succ_self _

/-- The sizes at the addresses of cached objects are the sizes of the objects. -/
theorem Rep.sum_sizeAt {c : Cache} {es l : List (Ptr × Object)} (r : Rep c es) (hl : ∀ x ∈ l, x ∈ es) :
    ((ptrs l).map (sizeAt c)).sum = total l := by
  have hsizes : (ptrs l).map (sizeAt c) = l.map fun x => x.2.size := by
    rw [List.map_map]
    exact List.map_congr_left fun x hx => sizeAt_of_object ((r.stored x.1 x.2).mp (hl x hx))
  rw [hsizes, total]

/-- **The lists and the counter of a reachable cache.**  The entries reachable from `head` form a
finite list that ends in `tail`, `prev` is the inverse of `next`, `cache_size` is the sum of the
sizes and stays within `MAX_CACHE_SIZE`. -/
theorem cache_lists_consistent (c : Cache) (hc : cacheRuns.Reachable c) :
    ∃ fuel ps, entryWalk c fuel c.head = some ps ∧ ps.Nodup ∧ c.tail = ps.getLast? ∧
      (c.head = none ↔ c.tail = none) ∧
      (∀ p, c.head = some p → c.getPrev p = some none) ∧
      (∀ p, c.tail = some p → c.getNext p = some none) ∧
      (∀ p ∈ ps, ∀ q ∈ ps, c.getNext p = some (some q) ↔ c.getPrev q = some (some p)) ∧
      c.cacheSize = (ps.map (sizeAt c)).sum ∧ c.cacheSize ≤ maxCacheSize := by
  obtain ⟨es, k⟩ := reachable_consistent hc
  have r := k.rep
  have ha : ∀ p ∈ ptrs es, (c.object p).isSome := fun p hp => r.allocated hp
  refine ⟨es.length + 1, ptrs es, r.entryWalk_head, r.nodup, r.tail, ?_, fun p hp => ?_, fun p hp => ?_,
    fun p hp q hq => ?_, ?_, ?_⟩
  · rw [r.head, r.tail, List.head?_eq_none_iff, List.getLast?_eq_none_iff]
  · have hmem : p ∈ ptrs es := List.mem_of_mem_head? (r.head ▸ hp)
    obtain ⟨l, hl⟩ := List.head?_eq_some_iff.mp (r.head ▸ hp)
    have hlinks := r.links
    rw [hl] at hlinks
    rw [Cache.getPrev_eq (ha p hmem), hlinks.1]
  · have hmem : p ∈ ptrs es := List.mem_of_getLast? (r.tail ▸ hp)
    obtain ⟨l, hl⟩ := List.getLast?_eq_some_iff.mp (r.tail ▸ hp)
    have hlinks := r.links
    rw [hl] at hlinks
    rw [Cache.getNext_eq (ha p hmem), hlinks.nextAt]
    rfl
  · rw [Cache.getNext_eq (ha p hp), Cache.getPrev_eq (ha q hq), Option.some.injEq, Option.some.injEq]
    exact r.links.next_eq_iff hp hq (by simp)
  · rw [r.sum_sizeAt fun _ hx => hx, r.size]
  · rw [r.size]
    exact k.budget

/-- Objects of 6000 and 4000 bytes, the first looked up again, and one of 3000 bytes, for which the second
is evicted. -/
theorem cache_lists_consistent_evicted : ∃ c, cacheRuns.Reachable c ∧
    entryWalk c 3 c.head = some [3, 1] ∧ c.tail = some 1 ∧ c.getPrev 3 = some none ∧
      c.getNext 1 = some none ∧ c.getNext 3 = some (some 1) ∧ c.getPrev 1 = some (some 3) ∧
        c.cacheSize = sizeAt c 3 + sizeAt c 1 ∧ c.cacheSize = 9000 ∧ c.cacheSize ≤ maxCacheSize := by
  obtain ⟨c₁, h₁⟩ : ∃ c, cacheInsert 3 1 ⟨[97], by decide⟩ [0] 6000 cacheInit = some c := ⟨_, rfl⟩
  obtain ⟨c₂, h₂⟩ : ∃ c, cacheInsert 3 2 ⟨[98], by decide⟩ [0] 4000 c₁ = some c := by
    obtain rfl := Option.some.inj h₁
    exact ⟨_, rfl⟩
  obtain ⟨c₃, h₃⟩ : ∃ c, cacheFind 3 ⟨[97], by decide⟩ c₂ = some (some 1, c) := by
    obtain rfl := Option.some.inj h₁
    obtain rfl := Option.some.inj h₂
    exact ⟨_, rfl⟩
  obtain ⟨c, h₄, hfirst, hwalk, hnext, hsize⟩ : ∃ c,
      cacheInsert 3 3 ⟨[99], by decide⟩ [0] 3000 c₃ = some c ∧ c.head = some 3 ∧
        entryWalk c 3 c.head = some [3, 1] ∧ c.getNext 3 = some (some 1) ∧ c.cacheSize = 9000 := by
    obtain rfl := Option.some.inj h₁
    obtain rfl := Option.some.inj h₂
    obtain rfl := (Prod.mk.inj (Option.some.inj h₃)).2
    exact ⟨_, rfl, rfl, rfl, rfl, rfl⟩
  have hc₂ : cacheRuns.Reachable c₂ :=
    .step (.step (.init rfl) (.insert (by decide) (by decide) h₁)) (.insert (by decide) (by decide) h₂)
  have hc : cacheRuns.Reachable c := (hc₂.step (.find h₃)).step (.insert (by decide) (by decide) h₄)
  obtain ⟨fuel, ps, hps, _, htail, _, hhead, hlast, hlinks, hsum, hbudget⟩ := cache_lists_consistent c hc
  obtain rfl := entryWalk_unique hwalk hps
  refine ⟨c, hc, hwalk, htail, hhead 3 hfirst, hlast 1 htail, hnext, ?_, ?_, hsize, hbudget⟩
  · exact (hlinks 3 (by decide) 1 (by decide)).mp hnext
  · simpa using hsum

end SystemProgramming.ProxyLab
