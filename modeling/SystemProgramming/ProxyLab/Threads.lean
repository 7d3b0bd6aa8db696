import SystemProgramming.ProxyLab.Response

/-!
# The proxy's threads and `cache_mutex`

Every connection is served by a thread of its own, `proxy_thread`, which looks its URI up in the
cache and, on a miss, relays the origin's response and inserts it.  `cache_find` and `cache_insert`
each acquire the mutex, run their body and release it, as three steps between which any other thread
may run.  The set of threads is arbitrary.

* `ProxyStep` : one step of one thread.
* `MutexInv` : a thread holds the mutex exactly while it is inside one of the two functions.
* `mutex_released_of_misses` : that invariant holds in every run in which every lookup misses.
* `mutex_held_after_hit` : a lookup that hits leaves the mutex with a thread that finishes.
-/

namespace SystemProgramming.ProxyLab

open Transition

/-! ### The steps of a thread -/

/-- Where a thread is in `proxy_thread`. -/
inductive ThreadPc
  /-- before and in `parse_request` -/
  | start
  /-- `cache_find`, at `pthread_mutex_lock` -/
  | findLock (uri : CString)
  /-- `cache_find`, in the search loop -/
  | findBody (uri : CString)
  /-- `cache_find`, at `pthread_mutex_unlock` -/
  | findUnlock (uri : CString)
  /-- in `forward_cached_response` -/
  | replay (cached : Ptr)
  /-- in `forward_request` and the loop of `forward_response` -/
  | fetch (uri : CString)
  /-- `cache_insert`, at `pthread_mutex_lock` -/
  | insertLock (uri : CString) (value : List UInt8) (size : ℤ)
  /-- `cache_insert`, in its body -/
  | insertBody (uri : CString) (value : List UInt8) (size : ℤ)
  /-- `cache_insert`, at `pthread_mutex_unlock` -/
  | insertUnlock
  /-- at `Close` -/
  | close
  /-- returned -/
  | finished

/-- Between the acquisition of the mutex and its release. -/
def ThreadPc.InCache : ThreadPc → Prop
  | .findBody _ | .findUnlock _ | .insertBody _ _ _ | .insertUnlock => True
  | _ => False

/-- At `pthread_mutex_lock`. -/
def ThreadPc.AtLock : ThreadPc → Prop
  | .findLock _ | .insertLock _ _ _ => True
  | _ => False

/-- The sizes on their way into the cache are those `forward_response` lets through. -/
def ThreadPc.Sized : ThreadPc → Prop
  | .insertLock _ _ size | .insertBody _ _ size => 0 ≤ size ∧ size ≤ maxObjectSize
  | _ => True

/-- The cache, the holder of `cache_mutex`, and where each thread is. -/
structure Proxy (ι : Type*) where
  cache : Cache
  mutex : Option ι
  pc : ι → ThreadPc

variable {ι : Type*} [DecidableEq ι]

/-- Thread `t` is at `pc` next. -/
def Proxy.goto (s : Proxy ι) (t : ι) (pc : ThreadPc) : Proxy ι :=
  { s with pc := Function.update s.pc t pc }

/-- One step of thread `t`. -/
inductive ProxyStep : Proxy ι → ι → Proxy ι → Prop
  | parse {s : Proxy ι} {t : ι} (uri : CString) (h : s.pc t = .start) :
      ProxyStep s t (s.goto t (.findLock uri))
  | lockFind {s : Proxy ι} {t : ι} {uri : CString} (h : s.pc t = .findLock uri)
      (hfree : s.mutex = none) :
      ProxyStep s t { s.goto t (.findBody uri) with mutex := some t }
  | hit {s : Proxy ι} {t : ι} {uri : CString} {fuel : ℕ} {q : Ptr} {c : Cache}
      (h : s.pc t = .findBody uri) (hfind : cacheFind fuel uri s.cache = some (some q, c)) :
      -- `return curr` leaves the function without an unlock
      ProxyStep s t { s.goto t (.replay q) with cache := c }
  | miss {s : Proxy ι} {t : ι} {uri : CString} {fuel : ℕ} {c : Cache}
      (h : s.pc t = .findBody uri) (hfind : cacheFind fuel uri s.cache = some (none, c)) :
      ProxyStep s t { s.goto t (.findUnlock uri) with cache := c }
  | unlockFind {s : Proxy ι} {t : ι} {uri : CString} (h : s.pc t = .findUnlock uri) :
      ProxyStep s t { s.goto t (.fetch uri) with mutex := none }
  | replayed {s : Proxy ι} {t : ι} {q : Ptr} (h : s.pc t = .replay q) :
      ProxyStep s t (s.goto t .close)
  | relayed {s : Proxy ι} {t : ι} {uri : CString} {chunks : List (List UInt8)} {r : Relay}
      (h : s.pc t = .fetch uri) (hrelay : relay chunks relayStart = some r) :
      ProxyStep s t
        (s.goto t (if r.size ≤ maxObjectSize then .insertLock uri r.body r.size else .close))
  | lockInsert {s : Proxy ι} {t : ι} {uri : CString} {value : List UInt8} {size : ℤ}
      (h : s.pc t = .insertLock uri value size) (hfree : s.mutex = none) :
      ProxyStep s t { s.goto t (.insertBody uri value size) with mutex := some t }
  | insert {s : Proxy ι} {t : ι} {uri : CString} {value : List UInt8} {size : ℤ} {fuel : ℕ} {p : Ptr}
      {c : Cache} (h : s.pc t = .insertBody uri value size)
      (hins : cacheInsert fuel p uri value size s.cache = some c) :
      ProxyStep s t { s.goto t .insertUnlock with cache := c }
  | unlockInsert {s : Proxy ι} {t : ι} (h : s.pc t = .insertUnlock) :
      ProxyStep s t { s.goto t .close with mutex := none }
  | closed {s : Proxy ι} {t : ι} (h : s.pc t = .close) : ProxyStep s t (s.goto t .finished)

/-- The runs of the proxy: the cache has been initialised and no thread has started. -/
def proxyRuns (ι : Type*) [DecidableEq ι] : System (Proxy ι) ι where
  init s := s = ⟨cacheInit, none, fun _ => .start⟩
  step := ProxyStep

/-- The lookup thread `t` is about to make, if it is in the search loop, misses: no entry has the
requested key. -/
def LookupMisses (s : Proxy ι) (t : ι) : Prop :=
  ∀ uri, s.pc t = .findBody uri → ∀ p e, s.cache.entries p = some e → e.key ≠ uri

/-! ### The invariant -/

/-- A thread holds the mutex exactly while it is inside a cache function. -/
structure MutexInv (s : Proxy ι) : Prop where
  held : ∀ t, s.mutex = some t → (s.pc t).InCache
  owner : ∀ t, (s.pc t).InCache → s.mutex = some t
  sized : ∀ t, (s.pc t).Sized
  cache : ∃ es, Consistent s.cache es

namespace MutexInv

variable {s : Proxy ι} {t : ι} {pc : ThreadPc} {c : Cache}

/-- A step that neither acquires nor releases the mutex. -/
theorem moved (i : MutexInv s) (hin : pc.InCache ↔ (s.pc t).InCache) (hsz : pc.Sized)
    (hc : ∃ es, Consistent c es) : MutexInv { s.goto t pc with cache := c } := by
  refine ⟨fun u hu => ?_, fun u hu => ?_, fun u => ?_, hc⟩
  · have h := i.held u hu
    by_cases hut : u = t
    · subst hut
      simpa [Proxy.goto] using hin.mpr h
    · simpa [Proxy.goto, hut] using h
  · by_cases hut : u = t
    · subst hut
      exact i.owner u (hin.mp (by simpa [Proxy.goto] using hu))
    · exact i.owner u (by simpa [Proxy.goto, hut] using hu)
  · by_cases hut : u = t
    · subst hut
      simpa [Proxy.goto] using hsz
    · simpa [Proxy.goto, hut] using i.sized u

/-- Acquiring the free mutex. -/
theorem locked (i : MutexInv s) (hfree : s.mutex = none) (hin : pc.InCache) (hsz : pc.Sized) :
    MutexInv { s.goto t pc with mutex := some t } := by
  refine ⟨fun u hu => ?_, fun u hu => ?_, fun u => ?_, i.cache⟩
  · obtain rfl : t = u := Option.some.inj hu
    simpa [Proxy.goto] using hin
  · by_cases hut : u = t
    · rw [hut]
    · have h := i.owner u (by simpa [Proxy.goto, hut] using hu)
      rw [hfree] at h
      cases h
  · by_cases hut : u = t
    · subst hut
      simpa [Proxy.goto] using hsz
    · simpa [Proxy.goto, hut] using i.sized u

/-- Releasing the mutex. -/
theorem unlocked (i : MutexInv s) (hcur : (s.pc t).InCache) (hout : ¬ pc.InCache) (hsz : pc.Sized) :
    MutexInv { s.goto t pc with mutex := none } := by
  refine ⟨fun u hu => (by cases hu), fun u hu => ?_, fun u => ?_, i.cache⟩
  · by_cases hut : u = t
    · subst hut
      exact absurd (by simpa [Proxy.goto] using hu) hout
    · have h := (i.owner u (by simpa [Proxy.goto, hut] using hu)).symm.trans (i.owner t hcur)
      exact absurd (Option.some.inj h) hut
  · by_cases hut : u = t
    · subst hut
      simpa [Proxy.goto] using hsz
    · simpa [Proxy.goto, hut] using i.sized u

omit [DecidableEq ι] in
/-- A lookup that hits found an entry with the requested key. -/
theorem not_misses_of_hit {uri : CString} {fuel : ℕ} {q : Ptr} (i : MutexInv s)
    (h : s.pc t = .findBody uri) (hfind : cacheFind fuel uri s.cache = some (some q, c)) :
    ¬ LookupMisses s t := by
  intro hmiss
  obtain ⟨es, k⟩ := i.cache
  obtain ⟨es', hfound, _⟩ := k.find hfind
  cases hfound with
  | @hit es₁ es₂ _ o hkey _ =>
    obtain ⟨e, he, heo⟩ := Option.map_eq_some_iff.mp ((k.rep.stored q o).mp (by simp))
    exact hmiss uri h q e he (by rw [← hkey, ← heo])

/-- **The step lemma.** -/
theorem step {s' : Proxy ι} (i : MutexInv s) (hmiss : LookupMisses s t)
    (hstep : ProxyStep s t s') : MutexInv s' := by
  have hcur := i.sized t
  cases hstep with
  | parse uri h => exact i.moved (by rw [h]; rfl) trivial i.cache
  | lockFind h hfree => exact i.locked hfree trivial trivial
  | hit h hfind => exact absurd hmiss (i.not_misses_of_hit h hfind)
  | miss h hfind =>
    obtain ⟨es, k⟩ := i.cache
    obtain ⟨es', _, k'⟩ := k.find hfind
    exact i.moved (by rw [h]; rfl) trivial ⟨es', k'⟩
  | unlockFind h => exact i.unlocked (by rw [h]; trivial) id trivial
  | replayed h => exact i.moved (by rw [h]; rfl) trivial i.cache
  | relayed h hrelay =>
    refine i.moved ?_ ?_ i.cache
    · rw [h]
      split <;> rfl
    · split
      · rename_i hle
        exact ⟨relay_nonneg le_rfl hrelay, hle⟩
      · trivial
  | lockInsert h hfree =>
    rw [h] at hcur
    exact i.locked hfree trivial hcur
  | insert h hins =>
    rw [h] at hcur
    obtain ⟨es, k⟩ := i.cache
    obtain ⟨_, _, _, k'⟩ := k.insert hcur.1 hcur.2 hins
    exact i.moved (by rw [h]; rfl) trivial ⟨_, k'⟩
  | unlockInsert h => exact i.unlocked (by rw [h]; trivial) id trivial
  | closed h => exact i.moved (by rw [h]; rfl) trivial i.cache

/-- The holder of the mutex releases it by its own steps, unless its lookup hits. -/
theorem releases (i : MutexInv s) (hin : (s.pc t).InCache) (hmiss : LookupMisses s t) :
    ∃ s', Relation.ReflTransGen (fun a b => ProxyStep a t b) s s' ∧ s'.mutex = none := by
  obtain ⟨es, k⟩ := i.cache
  cases hpc : s.pc t with
  | findBody uri =>
    obtain ⟨fuel, q, c, hfind⟩ := k.find_returns uri
    cases q with
    | some q => exact absurd hmiss (i.not_misses_of_hit hpc hfind)
    | none =>
      have hpc' : Proxy.pc { s.goto t (.findUnlock uri) with cache := c } t = .findUnlock uri := by
        simp [Proxy.goto]
      exact ⟨_, .tail (.single (.miss hpc hfind)) (.unlockFind hpc'), rfl⟩
  | findUnlock uri => exact ⟨_, .single (.unlockFind hpc), rfl⟩
  | insertBody uri value size =>
    obtain ⟨fuel, p, c, hins⟩ := k.insert_returns uri value size
    refine ⟨_, .tail (.single (.insert hpc hins)) (.unlockInsert ?_), rfl⟩
    simp [Proxy.goto]
  | insertUnlock => exact ⟨_, .single (.unlockInsert hpc), rfl⟩
  | _ =>
    rw [hpc] at hin
    exact hin.elim

end MutexInv

/-- **The run lemma.** -/
theorem reachable_mutexInv {s : Proxy ι}
    (hs : ((proxyRuns ι).restrict LookupMisses).Reachable s) : MutexInv s := by
  refine hs.invariant ?_ ?_
  · rintro s rfl
    refine ⟨fun t ht => ?_, fun t ht => ht.elim, fun t => trivial, [], consistent_cacheInit⟩
    cases ht
  · intro s t s' i hstep
    exact i.step hstep.1 hstep.2

/-! ### When the mutex is released -/

/-- **No thread leaves with the mutex.**  In every run in which every lookup misses, a thread that
holds the mutex is inside a cache function, and whoever waits for the mutex waits for a thread that
will release it. -/
theorem mutex_released_of_misses (s : Proxy ι)
    (hs : ((proxyRuns ι).restrict LookupMisses).Reachable s) :
    (∀ t, s.mutex = some t → (s.pc t).InCache) ∧
      ∀ t, (s.pc t).AtLock → s.mutex ≠ none → ∃ u, s.mutex = some u ∧ (s.pc u).InCache ∧
        (LookupMisses s u →
          ∃ s', Relation.ReflTransGen (fun a b => ProxyStep a u b) s s' ∧ s'.mutex = none) := by
  have i := reachable_mutexInv hs
  refine ⟨i.held, fun t _ hheld => ?_⟩
  obtain ⟨u, hu⟩ := Option.ne_none_iff_exists'.mp hheld
  exact ⟨u, hu, i.held u hu, i.releases (i.held u hu)⟩

/-- `http://a/`. -/
def rootUri : CString := ⟨[104, 116, 116, 112, 58, 47, 47, 97, 47], by decide⟩

/-- A request whose lookup misses an empty cache, up to its unlock. -/
theorem mutex_released_of_misses_first : ∃ s : Proxy ℕ,
    ((proxyRuns ℕ).restrict LookupMisses).Reachable s ∧ s.mutex = some 0 ∧
      s.pc 0 = .findUnlock rootUri ∧ (s.pc 0).InCache := by
  have h₀ : ((proxyRuns ℕ).restrict LookupMisses).Reachable ⟨cacheInit, none, fun _ => .start⟩ :=
    .init rfl
  have hm : ∀ s : Proxy ℕ, s.cache = cacheInit → LookupMisses s 0 := by
    intro s hs uri _ p e he
    rw [hs] at he
    cases he
  have hfind : cacheFind 1 rootUri cacheInit = some (none, cacheInit) := rfl
  have h₁ := h₀.step ⟨hm _ rfl, .parse (t := 0) rootUri rfl⟩
  have h₂ := h₁.step ⟨hm _ rfl, .lockFind (t := 0) rfl rfl⟩
  have h₃ := h₂.step ⟨hm _ rfl, .miss (t := 0) rfl hfind⟩
  exact ⟨_, h₃, rfl, rfl, (mutex_released_of_misses _ h₃).1 0 rfl⟩

/-- **A hit keeps the mutex.**  The thread finishes its request and still holds it. -/
theorem mutex_held_after_hit {s : Proxy ι} {t : ι} {uri : CString} {fuel : ℕ} {q : Ptr} {c : Cache}
    (hs : (proxyRuns ι).Reachable s) (hpc : s.pc t = .findBody uri) (hheld : s.mutex = some t)
    (hfind : cacheFind fuel uri s.cache = some (some q, c)) :
    ∃ s', (proxyRuns ι).Reachable s' ∧ s'.mutex = some t ∧ s'.pc t = .finished ∧
      ∀ u, u ≠ t → s'.pc u = s.pc u := by
  have h₁ : (proxyRuns ι).Reachable { s.goto t (.replay q) with cache := c } :=
    .step hs (.hit hpc hfind)
  have h₂ := h₁.step (.replayed (t := t) (q := q) (by simp [Proxy.goto]))
  have h₃ := h₂.step (.closed (t := t) (by simp [Proxy.goto]))
  refine ⟨_, h₃, hheld, ?_, fun u hu => ?_⟩
  · simp [Proxy.goto]
  · simp [Proxy.goto, hu]

/-- Thread 0 fetches and stores an object, thread 1 hits it and finishes with the mutex, and thread 2
waits for the mutex. -/
theorem mutex_left_held : ∃ s : Proxy ℕ, (proxyRuns ℕ).Reachable s ∧ s.mutex = some 1 ∧
    s.pc 1 = .finished ∧ s.pc 0 = .close ∧ s.pc 2 = .findLock rootUri := by
  have hfind : cacheFind 1 rootUri cacheInit = some (none, cacheInit) := rfl
  have hrelay : relay [] relayStart = some relayStart := rfl
  obtain ⟨c, hins⟩ : ∃ c, cacheInsert 1 0 rootUri relayStart.body relayStart.size cacheInit =
    some c := ⟨_, rfl⟩
  have hhit : cacheFind 2 rootUri c = some (some 0, c) := by
    obtain rfl := Option.some.inj hins
    rfl
  have h₀ : (proxyRuns ℕ).Reachable ⟨cacheInit, none, fun _ => .start⟩ := .init rfl
  have h₁ := h₀.step (.parse (t := 0) rootUri rfl)
  have h₂ := h₁.step (.lockFind (t := 0) rfl rfl)
  have h₃ := h₂.step (.miss (t := 0) rfl hfind)
  have h₄ := h₃.step (.unlockFind (t := 0) rfl)
  have h₅ := h₄.step (.relayed (t := 0) rfl hrelay)
  have h₆ := h₅.step (.lockInsert (t := 0) rfl rfl)
  have h₇ := h₆.step (.insert (t := 0) rfl hins)
  have h₈ := h₇.step (.unlockInsert (t := 0) rfl)
  have h₉ := h₈.step (.parse (t := 2) rootUri rfl)
  have h₁₀ := h₉.step (.parse (t := 1) rootUri rfl)
  have h₁₁ := h₁₀.step (.lockFind (t := 1) rfl rfl)
  obtain ⟨s, hs, hheld, hpc, hrest⟩ := mutex_held_after_hit (t := 1) h₁₁ rfl rfl hhit
  exact ⟨s, hs, hheld, hpc, hrest 0 (by decide), hrest 2 (by decide)⟩

end SystemProgramming.ProxyLab
