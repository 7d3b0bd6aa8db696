import SystemProgramming.Library.Recency
import SystemProgramming.ProxyLab.CacheRuns

/-!
# The cache as a least-recently-used cache

The order of the list is the only record `cache.c` keeps of the past.  Runs are extended with a log of
the calls that returned, and the list is compared with what the log says.

* `Logged` : the invariant; the list is the least-recently-used order of the log, and the first entry
  of every key is the one that was inserted last under it.
* `cache_refines_lru` : the order after any run, and what the next lookup or insertion does to it.
* `cache_find_latest` : a hit returns the entry of the latest insertion under its key.
-/

namespace SystemProgramming.ProxyLab

open LinkedList Recency Transition

/-! ### The log -/

/-- What a call that returned did. -/
inductive Returned
  /-- `cache_find` returned `q` -/
  | found (key : CString) (q : Option Ptr)
  /-- `cache_insert` freed the entries at `out` and put `o` at `p` -/
  | inserted (p : Ptr) (o : Object) (out : Set Ptr)

/-- What the call was to a cache of addresses: a hit and an insertion are uses. -/
def Returned.event : Returned → Event Ptr
  | .found _ (some p) => .use p
  | .found _ none => .idle
  | .inserted p _ out => .insert p out

/-- The latest insertion under `key`. -/
def lastInserted (key : CString) : List Returned → Option (Ptr × Object)
  | [] => none
  | .found _ _ :: log => lastInserted key log
  | .inserted p o _ :: log => if o.key = key then some (p, o) else lastInserted key log

/-- The entries allocated in `c` and no longer in `d`. -/
def freed (c d : Cache) : Set Ptr := {q | (c.entries q).isSome ∧ d.entries q = none}

/-- One call, as one atomic step, and its record in the log. -/
inductive LoggedStep : Cache × List Returned → CacheCall → Cache × List Returned → Prop
  | find {c c' : Cache} {log : List Returned} {fuel : ℕ} {key : CString} {q : Option Ptr}
      (h : cacheFind fuel key c = some (q, c')) :
      LoggedStep (c, log) (.find key) (c', .found key q :: log)
  | insert {c d c' : Cache} {log : List Returned} {fuel : ℕ} {p : Ptr} {key : CString}
      {value : List UInt8} {size : ℤ} (hlo : 0 ≤ size) (hhi : size ≤ maxObjectSize)
      (hroom : makeRoom fuel size c = some d)
      (h : cacheInsert fuel p key value size c = some c') :
      LoggedStep (c, log) (.insert key value size)
        (c', .inserted p ⟨key, strdup value, size⟩ (freed c d) :: log)

/-- The runs from `cache_init`, with their log. -/
def loggedRuns : System (Cache × List Returned) CacheCall where
  init s := s = (cacheInit, [])
  step := LoggedStep

/-- Every run has a log. -/
theorem exists_log {c : Cache} (hc : cacheRuns.Reachable c) :
    ∃ log, loggedRuns.Reachable (c, log) := by
  refine hc.invariant (P := fun c => ∃ log, loggedRuns.Reachable (c, log)) ?_ ?_
  · rintro c rfl
    exact ⟨[], .init rfl⟩
  · rintro c call c' ⟨log, hlog⟩ hstep
    cases hstep with
    | find h => exact ⟨_, hlog.step (.find h)⟩
    | insert hlo hhi h =>
      obtain ⟨d, hroom, _⟩ := Option.bind_eq_some_iff.mp h
      exact ⟨_, hlog.step (.insert hlo hhi hroom h)⟩

/-! ### The invariant -/

/-- The list is what the log says. -/
structure Logged (s : Cache × List Returned) (es : List (Ptr × Object)) : Prop where
  cache : Consistent s.1 es
  order : LruOrder (s.2.map Returned.event) (ptrs es)
  latest : ∀ key x, es.find? (fun x => decide (x.2.key = key)) = some x →
    lastInserted key s.2 = some x

/-- An eviction frees exactly the entries of the dropped objects. -/
theorem mem_freed {c d : Cache} {es keep drop : List (Ptr × Object)} {size : ℤ} (r : Rep c es)
    (hev : Evicts size es keep drop) (hr : Rep d keep) (q : Ptr) :
    q ∈ freed c d ↔ q ∈ ptrs drop := by
  have hnd := r.nodup
  rw [hev.split, ptrs, List.map_append] at hnd
  have hsep := (List.nodup_append.mp hnd).2.2
  have hin : q ∈ ptrs es ↔ q ∈ ptrs keep ∨ q ∈ ptrs drop := by
    rw [hev.split, ptrs, List.map_append, List.mem_append]
  show (c.entries q).isSome ∧ d.entries q = none ↔ _
  rw [← r.mem_ptrs, hin, ← Option.not_isSome_iff_eq_none, ← hr.mem_ptrs]
  refine ⟨fun h => h.1.resolve_left h.2, fun h => ⟨.inr h, fun hk => hsep q hk q h rfl⟩⟩

namespace Logged

variable {c c' d : Cache} {log : List Returned} {es : List (Ptr × Object)} {key : CString} {fuel : ℕ}

theorem find {q : Option Ptr} (l : Logged (c, log) es) (h : cacheFind fuel key c = some (q, c')) :
    ∃ es', Found key es q es' ∧ Logged (c', .found key q :: log) es' := by
  obtain ⟨es', hfound, k'⟩ := l.cache.find h
  refine ⟨es', hfound, k', ?_, fun k x hx => ?_⟩
  · cases hfound with
    | miss => exact l.order.idle
    | @hit es₁ es₂ p o =>
      have horder := l.order
      rw [ptrs, List.map_append, List.map_cons] at horder
      show LruOrder _ (p :: (es₁ ++ es₂).map Prod.fst)
      rw [List.map_append]
      exact horder.use
  · rw [hfound.find?_eq] at hx
    exact l.latest k x hx

theorem insert {p : Ptr} {value : List UInt8} {size : ℤ} (l : Logged (c, log) es) (hlo : 0 ≤ size)
    (hhi : size ≤ maxObjectSize) (hroom : makeRoom fuel size c = some d)
    (h : cacheInsert fuel p key value size c = some c') :
    ∃ keep drop, Evicts size es keep drop ∧ (∀ q, q ∈ freed c d ↔ q ∈ ptrs drop) ∧
      Logged (c', .inserted p ⟨key, strdup value, size⟩ (freed c d) :: log)
        ((p, ⟨key, strdup value, size⟩) :: keep) := by
  obtain ⟨keep, drop, hev, hr⟩ := l.cache.rep.makeRoom_evicts hroom
  have hr' := Rep.cacheInsert_rep hroom hr h
  have hfreed := mem_freed l.cache.rep hev hr
  refine ⟨keep, drop, hev, hfreed, l.cache.cons_of_evicts hlo hhi hev hr', ?_, fun k x hx => ?_⟩
  · have horder := l.order
    rw [hev.split, ptrs, List.map_append] at horder
    exact horder.insert (List.nodup_cons.mp hr'.nodup).1 hfreed
  · by_cases hk : key = k
    · rw [List.find?_cons_of_pos (by simpa using hk), Option.some.injEq] at hx
      rw [lastInserted, if_pos hk, hx]
    · rw [List.find?_cons_of_neg (by simpa using hk)] at hx
      rw [lastInserted, if_neg hk]
      exact l.latest k x (hev.find?_eq hx)

end Logged

/-- **The run lemma.** -/
theorem reachable_logged {s : Cache × List Returned} (hs : loggedRuns.Reachable s) :
    ∃ es, Logged s es := by
  refine hs.invariant (P := fun s => ∃ es, Logged s es) ?_ ?_
  · rintro s rfl
    exact ⟨[], consistent_cacheInit, .nil, fun _ _ => nofun⟩
  · rintro s call s' ⟨es, l⟩ hstep
    cases hstep with
    | find h =>
      obtain ⟨es', _, l'⟩ := l.find h
      exact ⟨es', l'⟩
    | insert hlo hhi hroom h =>
      obtain ⟨_, _, _, _, l'⟩ := l.insert hlo hhi hroom h
      exact ⟨_, l'⟩

/-! ### What a call does to the order -/

/-- A lookup leaves what is stored at every address. -/
theorem object_eq_of_perm {c c' : Cache} {es es' : List (Ptr × Object)} (r : Rep c es) (r' : Rep c' es')
    (hperm : es'.Perm es) (p : Ptr) : c'.object p = c.object p := by
  apply Option.ext
  intro o
  rw [← r.stored, ← r'.stored, hperm.mem_iff]

/-- **The list is a least-recently-used cache.**  After any run the entries from `head` on are the ones
that were inserted and not evicted since, in decreasing order of their last use.  The next lookup
returns and keeps every entry.  It misses only if no entry has the key, and then leaves the order; a hit
is the most recently used entry with the key, which it moves to the front.  The next insertion returns,
frees the shortest suffix of that order whose removal makes room and puts the new entry in front. -/
theorem cache_refines_lru (c : Cache) (log : List Returned) (hc : loggedRuns.Reachable (c, log)) :
    ∃ fuel ps, entryWalk c fuel c.head = some ps ∧ LruOrder (log.map Returned.event) ps ∧
      (∀ key, ∃ fuel' q c', cacheFind fuel' key c = some (q, c')) ∧
      (∀ key fuel' q c', cacheFind fuel' key c = some (q, c') → (∀ p, c'.object p = c.object p) ∧
        ∃ fuel'' ps', entryWalk c' fuel'' c'.head = some ps' ∧
          (q = none → (∀ r ∈ ps, ¬ HasKey c key r) ∧ ps' = ps) ∧
          ∀ p, q = some p → HasKey c key p ∧ ∃ front back, ps = front ++ p :: back ∧
            (∀ r ∈ front, ¬ HasKey c key r) ∧ ps' = p :: (front ++ back)) ∧
      (∀ key value size, ∃ fuel' p c', cacheInsert fuel' p key value size c = some c') ∧
      (∀ key value (size : ℤ) fuel' p d c', 0 ≤ size → size ≤ maxObjectSize →
        makeRoom fuel' size c = some d → cacheInsert fuel' p key value size c = some c' →
          ∃ keep drop, ps = keep ++ drop ∧ (∀ q, q ∈ freed c d ↔ q ∈ drop) ∧
            c.cacheSize - (drop.map (sizeAt c)).sum + size ≤ maxCacheSize ∧
            (∀ front back, ps = front ++ back →
              c.cacheSize - (back.map (sizeAt c)).sum + size ≤ maxCacheSize →
                drop.length ≤ back.length) ∧
            ∃ fuel'', entryWalk c' fuel'' c'.head = some (p :: keep)) := by
  obtain ⟨es, l⟩ := reachable_logged hc
  have k := l.cache
  have r := k.rep
  refine ⟨es.length + 1, ptrs es, r.entryWalk_head, l.order, k.find_returns,
    fun key fuel' q c' hfind => ?_, k.insert_returns,
    fun key value size fuel' p d c' hlo hhi hroom hins => ?_⟩
  · obtain ⟨es', hfound, l'⟩ := l.find hfind
    have r' := l'.cache.rep
    refine ⟨object_eq_of_perm r r' hfound.perm, es'.length + 1, ptrs es', r'.entryWalk_head, ?_, ?_⟩
    · rintro rfl
      cases hfound with
      | miss hnone =>
        refine ⟨fun p hp => ?_, rfl⟩
        obtain ⟨x, hx, rfl⟩ := List.mem_map.mp hp
        rw [hasKey_of_mem r hx]
        exact hnone x hx
    · rintro p rfl
      cases hfound with
      | @hit es₁ es₂ _ o hkey hfirst =>
        refine ⟨(hasKey_iff r).mpr ⟨o, by simp, hkey⟩, ptrs es₁, ptrs es₂, by simp [ptrs], ?_,
          by simp [ptrs]⟩
        intro q hq
        obtain ⟨x, hx, rfl⟩ := List.mem_map.mp hq
        rw [hasKey_of_mem r (List.mem_append_left _ hx)]
        exact hfirst x hx
  · obtain ⟨keep, drop, hev, hfreed, l'⟩ := l.insert hlo hhi hroom hins
    obtain rfl := hev.split
    have hsize : ∀ front back, keep ++ drop = front ++ back →
        c.cacheSize - ((ptrs back).map (sizeAt c)).sum = total front := by
      intro front back hsplit
      rw [r.sum_sizeAt fun x hx => by rw [hsplit]; exact List.mem_append_right _ hx, r.size, hsplit,
        total_append]
      omega
    refine ⟨ptrs keep, ptrs drop, List.map_append, hfreed, ?_, fun front back hsplit hle => ?_,
      _, l'.cache.rep.entryWalk_head⟩
    · rw [hsize keep drop rfl]
      have hbudget := l'.cache.budget
      rw [total_cons, add_comm] at hbudget
      exact hbudget
    · obtain ⟨a, b, hab, rfl, rfl⟩ := List.map_eq_append_iff.mp hsplit
      rw [hsize a b hab] at hle
      have hshort := hev.shortest (fun x hx => (k.sizes x hx).1) hab hle
      rw [List.length_map, List.length_map]
      exact hshort

/-- Objects of 6000 and 4000 bytes under `a` and `b`, and `a` looked up.  A lookup of `b` hits it behind
`a`, one of `c` misses, and an insertion of 3000 bytes evicts `b`, the entry that was inserted last. -/
theorem cache_refines_lru_evicted : ∃ c log, loggedRuns.Reachable (c, log) ∧
    log.map Returned.event = [.use 1, .insert 2 ∅, .insert 1 ∅] ∧
      entryWalk c 3 c.head = some [1, 2] ∧ LruOrder (log.map Returned.event) [1, 2] ∧
        (∃ c', cacheFind 3 ⟨[98], by decide⟩ c = some (some 2, c') ∧
          HasKey c ⟨[98], by decide⟩ 2 ∧ ¬ HasKey c ⟨[98], by decide⟩ 1 ∧
            ∃ fuel, entryWalk c' fuel c'.head = some [2, 1]) ∧
        (∃ c', cacheFind 3 ⟨[99], by decide⟩ c = some (none, c') ∧
          (∀ p ∈ [1, 2], ¬ HasKey c ⟨[99], by decide⟩ p) ∧
            ∃ fuel, entryWalk c' fuel c'.head = some [1, 2]) ∧
        ∃ d c', makeRoom 3 3000 c = some d ∧ cacheInsert 3 3 ⟨[99], by decide⟩ [0] 3000 c = some c' ∧
          (∀ q, q ∈ freed c d ↔ q ∈ [2]) ∧ ∃ fuel, entryWalk c' fuel c'.head = some [3, 1] := by
  obtain ⟨c₁, h₁⟩ : ∃ c, cacheInsert 3 1 ⟨[97], by decide⟩ [0] 6000 cacheInit = some c := ⟨_, rfl⟩
  obtain ⟨c₂, h₂, hroom₂⟩ : ∃ c, cacheInsert 3 2 ⟨[98], by decide⟩ [0] 4000 c₁ = some c ∧
      makeRoom 3 4000 c₁ = some c₁ := by
    obtain rfl := Option.some.inj h₁
    exact ⟨_, rfl, rfl⟩
  obtain ⟨c, h₃, hwalk, hsize, hsecond⟩ : ∃ c, cacheFind 3 ⟨[97], by decide⟩ c₂ = some (some 1, c) ∧
      entryWalk c 3 c.head = some [1, 2] ∧ c.cacheSize = 10000 ∧ sizeAt c 2 = 4000 := by
    obtain rfl := Option.some.inj h₁
    obtain rfl := Option.some.inj h₂
    exact ⟨_, rfl, rfl, rfl, rfl⟩
  obtain ⟨⟨c₄, h₄⟩, ⟨c₅, h₅⟩, ⟨d, hroom⟩, ⟨c₆, h₆⟩⟩ :
      (∃ c', cacheFind 3 ⟨[98], by decide⟩ c = some (some 2, c')) ∧
      (∃ c', cacheFind 3 ⟨[99], by decide⟩ c = some (none, c')) ∧
      (∃ d, makeRoom 3 3000 c = some d) ∧
      ∃ c', cacheInsert 3 3 ⟨[99], by decide⟩ [0] 3000 c = some c' := by
    obtain rfl := Option.some.inj h₁
    obtain rfl := Option.some.inj h₂
    obtain rfl := (Prod.mk.inj (Option.some.inj h₃)).2
    exact ⟨⟨_, rfl⟩, ⟨_, rfl⟩, ⟨_, rfl⟩, ⟨_, rfl⟩⟩
  have hnone : ∀ e : Cache, freed e e = ∅ := by
    intro e
    apply Set.eq_empty_of_forall_notMem
    rintro q ⟨hq, hq'⟩
    rw [hq'] at hq
    cases hq
  have hroom₁ : makeRoom 3 6000 cacheInit = some cacheInit := rfl
  have hc₁ : loggedRuns.Reachable (c₁, _) :=
    .step (.init rfl) (.insert (by decide) (by decide) hroom₁ h₁)
  have hc : loggedRuns.Reachable (c, _) :=
    (hc₁.step (.insert (by decide) (by decide) hroom₂ h₂)).step (.find h₃)
  obtain ⟨fuel, ps, hps, horder, -, hfind, -, hinsert⟩ := cache_refines_lru c _ hc
  obtain rfl := entryWalk_unique hwalk hps
  refine ⟨c, _, hc, ?_, hwalk, horder, ⟨c₄, h₄, ?_⟩, ⟨c₅, h₅, ?_⟩, d, c₆, hroom, h₆, ?_⟩
  · show [Event.use 1, .insert 2 (freed c₁ c₁), .insert 1 (freed cacheInit cacheInit)] = _
    rw [hnone, hnone]
  · obtain ⟨-, fuel', ps', hps', -, hhit⟩ := hfind _ _ _ _ h₄
    obtain ⟨hkey, front, back, hsplit, hfirst, rfl⟩ := hhit 2 rfl
    obtain ⟨rfl, rfl⟩ : front = [1] ∧ back = [] := by
      rcases front with _ | ⟨x, _ | ⟨y, front⟩⟩
      · simp at hsplit
      · simpa [eq_comm] using hsplit
      · simp at hsplit
    exact ⟨hkey, hfirst 1 (by decide), fuel', hps'⟩
  · obtain ⟨-, fuel', ps', hps', hmiss, -⟩ := hfind _ _ _ _ h₅
    obtain ⟨hno, rfl⟩ := hmiss rfl
    exact ⟨hno, fuel', hps'⟩
  · obtain ⟨keep, drop, hsplit, hfreed, hbudget, hleast, fuel', hwalk'⟩ :=
      hinsert _ _ _ _ _ _ _ (by decide) (by decide) hroom h₆
    have hone : drop.length ≤ 1 := by
      apply hleast [1] [2] rfl
      simp only [hsize, List.map_cons, List.map_nil, hsecond, List.sum_cons, List.sum_nil]
      decide
    have hsome : drop.length ≠ 0 := by
      intro hnil
      rw [List.length_eq_zero_iff.mp hnil, hsize, List.map_nil, List.sum_nil] at hbudget
      exact absurd hbudget (by decide)
    have hlen : drop.length = [2].length := by
      show drop.length = 1
      omega
    have hparts : keep ++ drop = [1] ++ [2] := hsplit.symm
    obtain ⟨rfl, rfl⟩ := List.append_inj' hparts hlen
    exact ⟨hfreed, fuel', hwalk'⟩

/-- **A hit is fresh.**  The entry a lookup returns is the one of the latest insertion under its key,
at the address and with the object of that insertion. -/
theorem cache_find_latest (c c' : Cache) (log : List Returned) (fuel : ℕ) (key : CString) (q : Ptr)
    (hc : loggedRuns.Reachable (c, log)) (h : cacheFind fuel key c = some (some q, c')) :
    ∃ o, lastInserted key log = some (q, o) ∧ c.object q = some o ∧ c'.object q = some o := by
  obtain ⟨es, l⟩ := reachable_logged hc
  obtain ⟨es', hfound, l'⟩ := l.find h
  have hsame := object_eq_of_perm l.cache.rep l'.cache.rep hfound.perm q
  cases hfound with
  | @hit es₁ es₂ _ o hkey _ =>
    have hobj := (l'.cache.rep.stored q o).mp List.mem_cons_self
    refine ⟨o, ?_, hsame.symm.trans hobj, hobj⟩
    exact l'.latest key (q, o) (List.find?_cons_of_pos (by simpa using hkey))

/-- Two insertions under one key: a lookup returns the second. -/
theorem cache_find_latest_twice : ∃ c₁ c₂ log, loggedRuns.Reachable (c₂, log) ∧
    cacheInsert 1 1 ⟨[], List.not_mem_nil⟩ [0] 100 cacheInit = some c₁ ∧
      cacheInsert 1 2 ⟨[], List.not_mem_nil⟩ [1, 0] 50 c₁ = some c₂ ∧
        ∃ o, lastInserted ⟨[], List.not_mem_nil⟩ log = some (2, o) ∧ o.size = 50 := by
  obtain ⟨c₁, h₁⟩ : ∃ c, cacheInsert 1 1 ⟨[], List.not_mem_nil⟩ [0] 100 cacheInit = some c :=
    ⟨_, rfl⟩
  obtain ⟨c₂, h₂⟩ : ∃ c, cacheInsert 1 2 ⟨[], List.not_mem_nil⟩ [1, 0] 50 c₁ = some c := by
    obtain rfl := Option.some.inj h₁
    exact ⟨_, rfl⟩
  have hroom₁ : makeRoom 1 100 cacheInit = some cacheInit := rfl
  have hroom₂ : makeRoom 1 50 c₁ = some c₁ := by
    obtain rfl := Option.some.inj h₁
    rfl
  obtain ⟨c₃, hfind⟩ : ∃ c, cacheFind 1 ⟨[], List.not_mem_nil⟩ c₂ = some (some 2, c) := by
    obtain rfl := Option.some.inj h₁
    obtain rfl := Option.some.inj h₂
    exact ⟨_, rfl⟩
  have hc : loggedRuns.Reachable (c₁, _) :=
    .step (.init rfl) (.insert (by decide) (by decide) hroom₁ h₁)
  have hc' := hc.step (.insert (by decide) (by decide) hroom₂ h₂)
  obtain ⟨o, hlast, hobj, _⟩ := cache_find_latest c₂ c₃ _ 1 _ 2 hc' hfind
  refine ⟨c₁, c₂, _, hc', h₁, h₂, o, hlast, ?_⟩
  obtain rfl := Option.some.inj h₁
  obtain rfl := Option.some.inj h₂
  obtain rfl := Option.some.inj hobj
  rfl

end SystemProgramming.ProxyLab
