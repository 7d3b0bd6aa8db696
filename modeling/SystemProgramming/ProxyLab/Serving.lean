import SystemProgramming.ProxyLab.Lru
import SystemProgramming.ProxyLab.Response

/-!
# Threads that share the cache (`proxy_thread`)

Any number of threads serve any requests.  Each `cache_find` and each `cache_insert` is one step,
and between a thread's miss and its insertion the other threads run freely.  Runs carry the schedule, a
log of the lookups and insertions with the thread that made them.

* `ServeStep` : one step of one thread; `ScheduledStep` : with its record.
* `rivals` : what other threads have inserted under a thread's URI since the thread missed.
* `Waits` : the invariant; while a thread fetches, the entries with its URI are its rivals.
* `keys_distinct_of_rivalsGone` : the schedules in which no two entries ever have the same key.
* `keys_not_distinct` : two threads that miss on the same URI store the object twice.
-/

namespace SystemProgramming.ProxyLab

open LinkedList Transition

/-! ### The steps of a thread -/

/-- Where a thread is in `proxy_thread`. -/
inductive ServePc
  /-- before and in `parse_request` -/
  | start
  /-- at the call of `cache_find` -/
  | find (uri : CString)
  /-- in `forward_cached_response` -/
  | replay (cached : Ptr)
  /-- in `forward_request` and the loop of `forward_response` -/
  | fetch (uri : CString)
  /-- at the call of `cache_insert` -/
  | insert (uri : CString) (value : List UInt8) (size : ℤ)
  /-- at `Close` -/
  | close
  /-- returned -/
  | finished

/-- The sizes on their way into the cache are those `forward_response` lets through. -/
def ServePc.Sized : ServePc → Prop
  | .insert _ _ size => 0 ≤ size ∧ size ≤ maxObjectSize
  | _ => True

/-- The cache and where each thread is. -/
structure Server (ι : Type*) where
  cache : Cache
  pc : ι → ServePc

variable {ι : Type*} [DecidableEq ι]

/-- The cache is `c` and thread `t` is at `pc` next. -/
def Server.goto (s : Server ι) (t : ι) (pc : ServePc) (c : Cache) : Server ι :=
  ⟨c, Function.update s.pc t pc⟩

/-- One step of thread `a.1`, with the call of the cache that returned in it, if there is one. -/
inductive ServeStep : Server ι → ι × Option Returned → Server ι → Prop
  | parse {s : Server ι} {t : ι} (uri : CString) (h : s.pc t = .start) :
      ServeStep s (t, none) (s.goto t (.find uri) s.cache)
  | hit {s : Server ι} {t : ι} {uri : CString} {fuel : ℕ} {q : Ptr} {c : Cache}
      (h : s.pc t = .find uri) (hfind : cacheFind fuel uri s.cache = some (some q, c)) :
      ServeStep s (t, some (.found uri (some q))) (s.goto t (.replay q) c)
  | miss {s : Server ι} {t : ι} {uri : CString} {fuel : ℕ} {c : Cache}
      (h : s.pc t = .find uri) (hfind : cacheFind fuel uri s.cache = some (none, c)) :
      ServeStep s (t, some (.found uri none)) (s.goto t (.fetch uri) c)
  | replayed {s : Server ι} {t : ι} {q : Ptr} (h : s.pc t = .replay q) :
      ServeStep s (t, none) (s.goto t .close s.cache)
  | relayed {s : Server ι} {t : ι} {uri : CString} {chunks : List (List UInt8)} {r : Relay}
      (h : s.pc t = .fetch uri) (hrelay : relay chunks relayStart = some r) :
      ServeStep s (t, none)
        (s.goto t (if r.size ≤ maxObjectSize then .insert uri r.body r.size else .close) s.cache)
  | insert {s : Server ι} {t : ι} {uri : CString} {value : List UInt8} {size : ℤ} {fuel : ℕ} {p : Ptr}
      {c d : Cache} (h : s.pc t = .insert uri value size)
      (hroom : makeRoom fuel size s.cache = some d)
      (hins : cacheInsert fuel p uri value size s.cache = some c) :
      ServeStep s (t, some (.inserted p ⟨uri, strdup value, size⟩ (freed s.cache d)))
        (s.goto t .close c)
  | closed {s : Server ι} {t : ι} (h : s.pc t = .close) :
      ServeStep s (t, none) (s.goto t .finished s.cache)

/-- The runs of the server: the cache has been initialised and no thread has started. -/
def serveRuns (ι : Type*) [DecidableEq ι] : System (Server ι) (ι × Option Returned) where
  init s := s = ⟨cacheInit, fun _ => .start⟩
  step := ServeStep

/-! ### The schedule -/

/-- The lookups and insertions so far, the latest first, each with its thread. -/
abbrev Schedule (ι : Type*) := List (ι × Returned)

/-- The schedule after a step. -/
def schedule (log : Schedule ι) : ι × Option Returned → Schedule ι
  | (_, none) => log
  | (t, some r) => (t, r) :: log

/-- The runs of the server with their schedule. -/
def scheduledRuns (ι : Type*) [DecidableEq ι] :
    System (Server ι × Schedule ι) (ι × Option Returned) :=
  (serveRuns ι).recorded [] schedule

/-- Every run has a schedule. -/
theorem exists_schedule {s : Server ι} (hs : (serveRuns ι).Reachable s) :
    ∃ log, (scheduledRuns ι).Reachable (s, log) :=
  hs.exists_recorded [] schedule

/-- The entries that other threads than `t` have inserted under `uri` since the last lookup of `t`, and
that no insertion has evicted since. -/
def rivals (t : ι) (uri : CString) : Schedule ι → Set Ptr
  | [] => ∅
  | (u, .found _ _) :: log => if u = t then ∅ else rivals t uri log
  | (u, .inserted p o out) :: log =>
    if u ≠ t ∧ o.key = uri then insert p (rivals t uri log \ out) else rivals t uri log \ out

/-! ### Keys -/

/-- No two entries have the same key. -/
def DistinctKeys (c : Cache) : Prop :=
  ∀ p q e f, c.entries p = some e → c.entries q = some f → e.key = f.key → p = q

/-- The entry at `p` is so far from the head that the entries up to it and an object of `size` bytes exceed
the budget together. -/
def OverBudget (c : Cache) (size : ℤ) (p : Ptr) : Prop :=
  ∀ fuel front back, entryWalk c fuel c.head = some (front ++ p :: back) →
    maxCacheSize < ((front ++ [p]).map (sizeAt c)).sum + size

/-- If the thread is about to insert an object, every entry that another thread has inserted under its URI
since it missed has been evicted or lies over the budget. -/
def RivalsGone (x : Server ι × Schedule ι) (a : ι × Option Returned) : Prop :=
  ∀ uri value size, x.1.pc a.1 = .insert uri value size →
    ∀ p ∈ rivals a.1 uri x.2, OverBudget x.1.cache size p

/-- The keys of the list, distinct. -/
theorem distinctKeys_iff {c : Cache} {es : List (Ptr × Object)} (r : Rep c es) :
    DistinctKeys c ↔ (es.map fun x => x.2.key).Nodup := by
  constructor
  · intro hd
    refine List.pairwise_map.mpr ((List.pairwise_map.mp r.nodup).imp_of_mem ?_)
    intro x y hx hy hne hkey
    obtain ⟨e, he, heo⟩ := Option.map_eq_some_iff.mp ((r.stored x.1 x.2).mp hx)
    obtain ⟨f, hf, hfo⟩ := Option.map_eq_some_iff.mp ((r.stored y.1 y.2).mp hy)
    exact hne (hd _ _ e f he hf (by rw [← heo, ← hfo] at hkey; exact hkey))
  · intro hnd p q e f he hf hkey
    have hp := (r.stored p e.toObject).mpr (by simp [Cache.object, he])
    have hq := (r.stored q f.toObject).mpr (by simp [Cache.object, hf])
    exact congrArg Prod.fst (List.inj_on_of_nodup_map hnd hp hq hkey)

/-- What an insertion of `size` bytes keeps has the key exactly when an entry with the key lies within
the budget the insertion leaves. -/
theorem key_kept_iff {c : Cache} {es keep drop : List (Ptr × Object)} {size : ℤ}
    (k : Consistent c es) (hev : Evicts size es keep drop) (uri : CString) :
    (∃ x ∈ keep, x.2.key = uri) ↔ ∃ fuel front p back,
      entryWalk c fuel c.head = some (front ++ p :: back) ∧ HasKey c uri p ∧
        ((front ++ [p]).map (sizeAt c)).sum + size ≤ maxCacheSize := by
  have r := k.rep
  have hnonneg : ∀ x ∈ es, 0 ≤ x.2.size := fun x hx => (k.sizes x hx).1
  constructor
  · rintro ⟨⟨p, o⟩, hx, hkey⟩
    obtain ⟨a, b, rfl⟩ := List.append_of_mem hx
    have hsplit : es = (a ++ [(p, o)]) ++ (b ++ drop) := by rw [hev.split]; simp
    refine ⟨es.length + 1, ptrs a, p, ptrs (b ++ drop), ?_, (hasKey_iff r).mpr ⟨o, ?_, hkey⟩, ?_⟩
    · rw [r.entryWalk_head, hsplit]
      simp [ptrs]
    · rw [hsplit]
      simp
    · have hfront : ptrs a ++ [p] = ptrs (a ++ [(p, o)]) := by simp [ptrs]
      have hroom := hev.room (by simp)
      have hb : 0 ≤ total b := by
        apply total_nonneg
        intro x hx
        exact hnonneg x (by rw [hsplit]; simp [hx])
      have hkeep : total (a ++ (p, o) :: b) = total (a ++ [(p, o)]) + total b := by
        rw [← total_append, List.append_assoc]
        rfl
      rw [hfront, r.sum_sizeAt fun x hx => by rw [hsplit]; exact List.mem_append_left _ hx]
      omega
  · rintro ⟨fuel, front, p, back, hwalk, hkey, hroom⟩
    have hps := entryWalk_unique r.entryWalk_head hwalk
    obtain ⟨a, b', rfl, rfl, hb'⟩ := List.map_eq_append_iff.mp hps
    obtain ⟨x, b, rfl, rfl, rfl⟩ := List.map_eq_cons_iff.mp hb'
    rw [show List.map Prod.fst a ++ [x.1] = ptrs (a ++ [x]) by simp [ptrs],
      r.sum_sizeAt fun y hy => by simpa [or_assoc] using Or.inl (List.mem_append.mp hy)] at hroom
    have hshort := hev.shortest hnonneg (by simp : a ++ x :: b = a ++ [x] ++ b) hroom
    have hboth : keep ++ drop = (a ++ [x]) ++ b := by simpa using hev.split.symm
    refine ⟨x, ?_, ?_⟩
    · rcases List.append_eq_append_iff.mp hboth with ⟨m, hm, rfl⟩ | ⟨m, rfl, _⟩
      · have hnil : m = [] := by
          rw [List.length_append] at hshort
          exact List.eq_nil_of_length_eq_zero (by omega)
        rw [hnil, List.append_nil] at hm
        simp [← hm]
      · simp
    · obtain ⟨o, ho, hok⟩ := (hasKey_iff r).mp hkey
      have hx : c.object x.1 = some x.2 := (r.stored x.1 x.2).mp (by simp)
      obtain rfl := Option.some.inj (((r.stored x.1 o).mp ho).symm.trans hx)
      exact hok

/-- What has a key after an insertion. -/
theorem hasKey_insert {c d c' : Cache} {es keep drop : List (Ptr × Object)} {size : ℤ} {p : Ptr}
    {o : Object} (r : Rep c es) (hev : Evicts size es keep drop) (hr : Rep d keep)
    (hr' : Rep c' ((p, o) :: keep)) (key : CString) (q : Ptr) :
    HasKey c' key q ↔ (q = p ∧ o.key = key) ∨ (HasKey c key q ∧ q ∉ freed c d) := by
  have hnd := r.nodup
  rw [hev.split, ptrs, List.map_append] at hnd
  have hsep := (List.nodup_append.mp hnd).2.2
  rw [mem_freed r hev hr, hasKey_iff hr', hasKey_iff r]
  constructor
  · rintro ⟨o', hmem, hkey⟩
    rcases List.mem_cons.mp hmem with heq | hmem
    · cases heq
      exact .inl ⟨rfl, hkey⟩
    · refine .inr ⟨⟨o', by rw [hev.split]; exact List.mem_append_left _ hmem, hkey⟩, fun hd => ?_⟩
      exact hsep q (List.mem_map_of_mem (f := Prod.fst) hmem) q hd rfl
  · rintro (⟨rfl, hkey⟩ | ⟨⟨o', hmem, hkey⟩, hnot⟩)
    · exact ⟨o, List.mem_cons_self, hkey⟩
    · rw [hev.split] at hmem
      rcases List.mem_append.mp hmem with hk | hd
      · exact ⟨o', List.mem_cons_of_mem _ hk, hkey⟩
      · exact absurd (List.mem_map_of_mem (f := Prod.fst) hd) hnot

/-- **One insertion** leaves distinct keys exactly when the entries with its key lie over the budget. -/
theorem distinct_insert_iff {c c' : Cache} {es : List (Ptr × Object)} {uri : CString}
    {value : List UInt8} {size : ℤ} {fuel : ℕ} {p : Ptr} (k : Consistent c es) (hd : DistinctKeys c)
    (hins : cacheInsert fuel p uri value size c = some c') :
    DistinctKeys c' ↔ ∀ q, HasKey c uri q → OverBudget c size q := by
  obtain ⟨keep, drop, hev, r'⟩ := k.rep.cacheInsert_evicts hins
  have hkeys := (distinctKeys_iff k.rep).mp hd
  rw [hev.split, List.map_append] at hkeys
  have hkept := key_kept_iff k hev uri
  rw [distinctKeys_iff r', List.map_cons, List.nodup_cons,
    and_iff_left (List.nodup_append.mp hkeys).1]
  constructor
  · intro hnot q hkey fuel' front back hwalk
    by_contra hroom
    obtain ⟨x, hx, hxk⟩ := hkept.mpr ⟨fuel', front, q, back, hwalk, hkey, not_lt.mp hroom⟩
    exact hnot (List.mem_map.mpr ⟨x, hx, hxk⟩)
  · intro hover hin
    obtain ⟨x, hx, hxk⟩ := List.mem_map.mp hin
    obtain ⟨fuel', front, q, back, hwalk, hkey, hroom⟩ := hkept.mp ⟨x, hx, hxk⟩
    exact not_lt.mpr hroom (hover q hkey fuel' front back hwalk)

/-! ### Runs -/

/-- The thread has missed on `uri` and has not inserted yet. -/
def ServePc.Awaits (uri : CString) : ServePc → Prop
  | .fetch u => u = uri
  | .insert u _ _ => u = uri
  | _ => False

/-- What holds in every run: the cache is consistent, the sizes are admissible, and as long as a thread
has missed and not inserted yet, the entries with its URI are its rivals. -/
structure ServeInv (x : Server ι × Schedule ι) : Prop where
  cache : ∃ es, Consistent x.1.cache es
  sized : ∀ t, (x.1.pc t).Sized
  waits : ∀ t uri, (x.1.pc t).Awaits uri → ∀ p, HasKey x.1.cache uri p ↔ p ∈ rivals t uri x.2

namespace ServeInv

variable {s s' : Server ι} {log : Schedule ι} {t : ι} {a : ι × Option Returned}

/-- One thread goes on, and the cache and the schedule change alike for those that wait. -/
theorem goto {pc : ServePc} {c : Cache} {log' : Schedule ι} (i : ServeInv (s, log))
    (hc : ∃ es, Consistent c es) (hsz : pc.Sized)
    (hself : ∀ uri, pc.Awaits uri → ∀ p, HasKey c uri p ↔ p ∈ rivals t uri log')
    (hother : ∀ u, u ≠ t → ∀ uri p, (HasKey s.cache uri p ↔ p ∈ rivals u uri log) →
      (HasKey c uri p ↔ p ∈ rivals u uri log')) : ServeInv (s.goto t pc c, log') := by
  refine ⟨hc, fun u => ?_, fun u uri h p => ?_⟩
  · by_cases hut : u = t
    · subst hut
      simpa [Server.goto] using hsz
    · simpa [Server.goto, hut] using i.sized u
  · by_cases hut : u = t
    · subst hut
      exact hself uri (by simpa [Server.goto] using h) p
    · apply hother u hut uri p
      exact i.waits u uri (by simpa [Server.goto, hut] using h) p

/-- A thread that calls neither routine leaves the cache and the schedule. -/
theorem quiet {pc : ServePc} (i : ServeInv (s, log)) (hsz : pc.Sized)
    (hawaits : ∀ uri, pc.Awaits uri → (s.pc t).Awaits uri) :
    ServeInv (s.goto t pc s.cache, log) :=
  i.goto i.cache hsz (fun uri h => i.waits t uri (hawaits uri h)) fun _ _ _ _ h => h

/-- A lookup keeps what has which key. -/
theorem lookup {pc : ServePc} {c : Cache} {fuel : ℕ} {uri : CString} {q : Option Ptr}
    (i : ServeInv (s, log)) (hfind : cacheFind fuel uri s.cache = some (q, c)) (hsz : pc.Sized)
    (hself : ∀ key, pc.Awaits key → q = none ∧ key = uri) :
    ServeInv (s.goto t pc c, (t, .found uri q) :: log) := by
  obtain ⟨es, k⟩ := i.cache
  obtain ⟨es', hfound, k'⟩ := k.find hfind
  have hsame : ∀ key p, HasKey c key p ↔ HasKey s.cache key p := by
    intro key p
    rw [hasKey_iff k'.rep, hasKey_iff k.rep]
    simp only [hfound.perm.mem_iff]
  refine i.goto ⟨es', k'⟩ hsz (fun key hkey p => ?_) fun u hu key p h => ?_
  · obtain ⟨rfl, rfl⟩ := hself key hkey
    rw [rivals, if_pos rfl, hsame, hasKey_iff k.rep]
    refine iff_of_false ?_ (Set.notMem_empty p)
    rintro ⟨o, hmem, ho⟩
    cases hfound with
    | miss hnone => exact hnone _ hmem ho
  · rw [rivals, if_neg (fun he => hu he.symm), hsame]
    exact h

/-- **The step lemma.** -/
theorem step (i : ServeInv (s, log)) (hstep : ServeStep s a s') : ServeInv (s', schedule log a) := by
  cases hstep with
  | parse uri h => exact i.quiet trivial fun _ hno => hno.elim
  | replayed h => exact i.quiet trivial fun _ hno => hno.elim
  | closed h => exact i.quiet trivial fun _ hno => hno.elim
  | hit h hfind => exact i.lookup hfind trivial fun _ hno => hno.elim
  | miss h hfind => exact i.lookup hfind trivial fun key hkey => ⟨rfl, hkey.symm⟩
  | @relayed t uri _ r h hrelay =>
    show ServeInv (s.goto t _ s.cache, log)
    split
    · rename_i hle
      refine i.quiet ⟨relay_nonneg le_rfl hrelay, hle⟩ fun key hkey => ?_
      rw [h]
      exact hkey
    · exact i.quiet trivial fun _ hno => hno.elim
  | @insert t uri value size _ p c d h hroom hins =>
    obtain ⟨es, k⟩ := i.cache
    have hcur := i.sized t
    rw [h] at hcur
    obtain ⟨keep, drop, hev, hr⟩ := k.rep.makeRoom_evicts hroom
    have hr' := Rep.cacheInsert_rep hroom hr hins
    have k' := k.cons_of_evicts hcur.1 hcur.2 hev hr'
    refine i.goto ⟨_, k'⟩ trivial (fun _ hno => hno.elim) fun u hu key q hq => ?_
    show _ ↔ q ∈ rivals u key ((t, .inserted p ⟨uri, strdup value, size⟩ (freed s.cache d)) :: log)
    rw [hasKey_insert k.rep hev hr hr', rivals, hq]
    by_cases hkey : uri = key
    · rw [if_pos ⟨fun he => hu he.symm, hkey⟩]
      exact or_congr_left (and_iff_left hkey)
    · rw [if_neg (fun hboth => hkey hboth.2)]
      exact or_iff_right fun hboth => hkey hboth.2

/-- A step leaves distinct keys exactly when no rival is left at an insertion. -/
theorem distinct_step_iff (i : ServeInv (s, log)) (hd : DistinctKeys s.cache)
    (hstep : ServeStep s a s') : DistinctKeys s'.cache ↔ RivalsGone (s, log) a := by
  obtain ⟨es, k⟩ := i.cache
  have hfind : ∀ {fuel : ℕ} {uri : CString} {q : Option Ptr} {c : Cache},
      cacheFind fuel uri s.cache = some (q, c) → DistinctKeys c := by
    intro fuel uri q c hf
    obtain ⟨es', hfound, k'⟩ := k.find hf
    rw [distinctKeys_iff k'.rep, (hfound.perm.map _).nodup_iff]
    exact (distinctKeys_iff k.rep).mp hd
  have hother : ∀ {pc : ServePc} {t : ι} {r : Option Returned}, s.pc t = pc →
      (∀ uri value size, pc ≠ .insert uri value size) → RivalsGone (s, log) (t, r) := by
    intro pc t r hpc hne uri value size hins
    exact absurd (hpc.symm.trans hins) (hne uri value size)
  cases hstep with
  | parse _ h | replayed h | relayed h | closed h =>
    exact iff_of_true hd (hother h fun _ _ _ he => (by cases he))
  | hit h hf | miss h hf =>
    exact iff_of_true (hfind hf) (hother h fun _ _ _ he => (by cases he))
  | @insert t uri value size _ _ _ _ h hroom hins =>
    have hrivals := i.waits t uri (by show (s.pc t).Awaits uri; rw [h]; rfl)
    show DistinctKeys _ ↔ _
    rw [Server.goto, distinct_insert_iff k hd hins]
    constructor
    · intro hover uri' value' size' hpc p hp
      have hpc' : ServePc.insert uri value size = .insert uri' value' size' := h.symm.trans hpc
      cases hpc'
      exact hover p ((hrivals p).mpr hp)
    · intro hgone p hp
      exact hgone uri value size h p ((hrivals p).mp hp)

end ServeInv

theorem serveInv_init : ServeInv ((⟨cacheInit, fun _ => .start⟩, []) : Server ι × Schedule ι) :=
  ⟨⟨[], consistent_cacheInit⟩, fun _ => trivial, fun _ _ hno => hno.elim⟩

/-- **The run lemma.** -/
theorem reachable_serveInv {x : Server ι × Schedule ι} (hx : (scheduledRuns ι).Reachable x) :
    ServeInv x := by
  refine hx.invariant ?_ ?_
  · rintro ⟨s, log⟩ ⟨rfl, rfl⟩
    exact serveInv_init
  · rintro ⟨s, log⟩ a ⟨s', log'⟩ i ⟨hstep, rfl⟩
    exact i.step hstep

/-- **No object is cached twice** in any run in which a thread that inserts finds the entries that others
have inserted under its URI since it missed evicted or over the budget, and the first insertion that does
not leaves two entries with one key. -/
theorem keys_distinct_of_rivalsGone (s : Server ι) (log : Schedule ι)
    (hs : ((scheduledRuns ι).restrict RivalsGone).Reachable (s, log)) :
    DistinctKeys s.cache ∧ ∀ a s', (serveRuns ι).step s a s' →
      (DistinctKeys s'.cache ↔ RivalsGone (s, log) a) := by
  have hd : DistinctKeys s.cache := by
    refine (hs.invariant (P := fun x => DistinctKeys x.1.cache ∧ ServeInv x) ?_ ?_).1
    · rintro ⟨s, log⟩ ⟨rfl, rfl⟩
      refine ⟨fun p q e f he => ?_, serveInv_init⟩
      cases he
    · rintro ⟨s, log⟩ a ⟨s', log'⟩ ⟨hd, i⟩ ⟨hgone, hstep, rfl⟩
      exact ⟨(i.distinct_step_iff hd hstep).mpr hgone, i.step hstep⟩
  exact ⟨hd, fun a s' hstep => (reachable_serveInv hs.of_restrict).distinct_step_iff hd hstep⟩

/-- A one-byte response as `forward_response` passes it to `cache_insert`. -/
def oneByte : Relay := ⟨1, 72 :: padding 1, [72]⟩

theorem restricted_step {s s' : Server ℕ} {log : Schedule ℕ} {a : ℕ × Option Returned}
    (hs : ((scheduledRuns ℕ).restrict RivalsGone).Reachable (s, log)) (hstep : ServeStep s a s')
    (hgone : RivalsGone (s, log) a) :
    ((scheduledRuns ℕ).restrict RivalsGone).Reachable (s', schedule log a) :=
  hs.step ⟨hgone, hstep, rfl⟩

theorem rivalsGone_of_ne {s : Server ℕ} {log : Schedule ℕ} {a : ℕ × Option Returned} {pc : ServePc}
    (h : s.pc a.1 = pc) (hne : ∀ uri value size, pc ≠ .insert uri value size) :
    RivalsGone (s, log) a := by
  intro uri value size hins
  exact absurd (h.symm.trans hins) (hne uri value size)

/-- A thread that has not started misses on `uri`. -/
theorem misses {s : Server ℕ} {log : Schedule ℕ} {t fuel : ℕ} {uri : CString}
    (hs : ((scheduledRuns ℕ).restrict RivalsGone).Reachable (s, log)) (h : s.pc t = .start)
    (hfind : cacheFind fuel uri s.cache = some (none, s.cache)) :
    ((scheduledRuns ℕ).restrict RivalsGone).Reachable
      (s.goto t (.fetch uri) s.cache, (t, .found uri none) :: log) := by
  have h₁ := restricted_step hs (.parse uri h) (rivalsGone_of_ne h fun _ _ _ he => (by cases he))
  have hpc : (s.goto t (.find uri) s.cache).pc t = .find uri := Function.update_self ..
  have h₂ := restricted_step h₁ (.miss hpc hfind) (rivalsGone_of_ne hpc fun _ _ _ he => (by cases he))
  rw [show (s.goto t (.find uri) s.cache).goto t (.fetch uri) s.cache = s.goto t (.fetch uri) s.cache by
    simp [Server.goto]] at h₂
  exact h₂

/-- A thread that has missed fetches a response that may be cached, and inserts it. -/
theorem inserts {s : Server ℕ} {log : Schedule ℕ} {t fuel : ℕ} {uri : CString} {p : Ptr}
    {chunks : List (List UInt8)} {r : Relay} {c d : Cache}
    (hs : ((scheduledRuns ℕ).restrict RivalsGone).Reachable (s, log)) (h : s.pc t = .fetch uri)
    (hrelay : relay chunks relayStart = some r) (hsize : r.size ≤ maxObjectSize)
    (hroom : makeRoom fuel r.size s.cache = some d)
    (hins : cacheInsert fuel p uri r.body r.size s.cache = some c) (hrivals : rivals t uri log = ∅) :
    ((scheduledRuns ℕ).restrict RivalsGone).Reachable (s.goto t .close c,
      (t, .inserted p ⟨uri, strdup r.body, r.size⟩ (freed s.cache d)) :: log) := by
  have h₁ := restricted_step hs (.relayed h hrelay) (rivalsGone_of_ne h fun _ _ _ he => (by cases he))
  rw [if_pos hsize] at h₁
  have hpc : (s.goto t (.insert uri r.body r.size) s.cache).pc t = .insert uri r.body r.size :=
    Function.update_self ..
  have hgone : RivalsGone (s.goto t (.insert uri r.body r.size) s.cache, log)
      (t, some (.inserted p ⟨uri, strdup r.body, r.size⟩ (freed s.cache d))) := by
    intro uri' value size hpc' q hq
    obtain ⟨rfl, rfl, rfl⟩ : uri = uri' ∧ r.body = value ∧ r.size = size := by
      simpa using hpc.symm.trans hpc'
    rw [show rivals t uri log = ∅ from hrivals] at hq
    exact absurd hq (Set.notMem_empty q)
  have h₂ := restricted_step h₁ (.insert hpc hroom hins) hgone
  rw [show (s.goto t (.insert uri r.body r.size) s.cache).goto t .close c = s.goto t .close c by
    simp [Server.goto]] at h₂
  exact h₂

/-- A response that fills the cache. -/
def fullSize : List (List UInt8) := [List.replicate 8192 72, List.replicate 2778 72]

/-- Threads 0 and 1 miss on `a`.  Thread 0 inserts its object, thread 2 evicts it for one of 10970 bytes,
and thread 1 inserts its own, for which that one is evicted.  Thread 3 inserts an object under `c`. -/
theorem keys_distinct_of_rivalsGone_evicted : ∃ (s : Server ℕ) (log : Schedule ℕ),
    ((scheduledRuns ℕ).restrict RivalsGone).Reachable (s, log) ∧
      entryWalk s.cache 3 s.cache.head = some [4, 3] ∧ HasKey s.cache ⟨[97], by decide⟩ 3 ∧
        HasKey s.cache ⟨[99], by decide⟩ 4 ∧ DistinctKeys s.cache := by
  have hone : relay [[72]] relayStart = some oneByte := relay_eq (by decide)
  obtain ⟨full, hfull, hsize⟩ : ∃ r, relay fullSize relayStart = some r ∧ r.size = 10970 := by
    have hlen : fullSize.flatten.length = 10970 := by
      rw [fullSize, List.flatten_cons, List.flatten_cons, List.length_append, List.length_append,
        List.length_replicate, List.length_replicate]
      rfl
    have h := @relay_eq fullSize (by rw [hlen]; decide)
    exact ⟨_, h, by rw [hlen]; rfl⟩
  obtain ⟨c₁, hins₁⟩ : ∃ c, cacheInsert 3 1 ⟨[97], by decide⟩ oneByte.body 1 cacheInit = some c :=
    ⟨_, rfl⟩
  obtain ⟨d₂, c₂, hfind₂, hroom₂, hins₂, hout⟩ : ∃ d c,
      cacheFind 3 ⟨[98], by decide⟩ c₁ = some (none, c₁) ∧ makeRoom 3 10970 c₁ = some d ∧
        cacheInsert 3 2 ⟨[98], by decide⟩ full.body 10970 c₁ = some c ∧ 1 ∈ freed c₁ d := by
    obtain rfl := Option.some.inj hins₁
    exact ⟨_, _, rfl, rfl, rfl, rfl, rfl⟩
  obtain ⟨d₃, c₃, hroom₃, hins₃⟩ : ∃ d c, makeRoom 3 1 c₂ = some d ∧
      cacheInsert 3 3 ⟨[97], by decide⟩ oneByte.body 1 c₂ = some c := by
    obtain rfl := Option.some.inj hins₁
    obtain rfl := Option.some.inj hins₂
    exact ⟨_, _, rfl, rfl⟩
  obtain ⟨d₄, c₄, hfind₄, hroom₄, hins₄, hwalk, hkeys⟩ : ∃ d c,
      cacheFind 3 ⟨[99], by decide⟩ c₃ = some (none, c₃) ∧ makeRoom 3 1 c₃ = some d ∧
        cacheInsert 3 4 ⟨[99], by decide⟩ oneByte.body 1 c₃ = some c ∧
          entryWalk c 3 c.head = some [4, 3] ∧ HasKey c ⟨[97], by decide⟩ 3 ∧
            HasKey c ⟨[99], by decide⟩ 4 := by
    obtain rfl := Option.some.inj hins₁
    obtain rfl := Option.some.inj hins₂
    obtain rfl := Option.some.inj hins₃
    exact ⟨_, _, rfl, rfl, rfl, rfl, ⟨_, rfl, rfl⟩, ⟨_, rfl, rfl⟩⟩
  have hfind₁ : cacheFind 3 ⟨[97], by decide⟩ cacheInit = some (none, cacheInit) := rfl
  rw [← hsize] at hroom₂ hins₂
  have h₀ : ((scheduledRuns ℕ).restrict RivalsGone).Reachable (⟨cacheInit, fun _ => .start⟩, []) :=
    .init ⟨rfl, rfl⟩
  have h₁ := misses (t := 1) (misses (t := 0) h₀ rfl hfind₁) rfl hfind₁
  have h₂ := inserts (t := 0) h₁ rfl hone (by decide) rfl hins₁ rfl
  have h₃ := inserts (t := 2) (misses (t := 2) h₂ rfl hfind₂) rfl hfull (by rw [hsize]; decide)
    hroom₂ hins₂ rfl
  have h₄ := inserts (t := 1) h₃ rfl hone (by decide) hroom₃ hins₃ (by
    -- the only rival is the object of thread 0, which the insertion of thread 2 has evicted
    show insert 1 (∅ \ _) \ freed c₁ d₂ = (∅ : Set Ptr)
    rw [Set.empty_sdiff, insert_empty_eq]
    exact Set.sdiff_eq_empty.mpr (Set.singleton_subset_iff.mpr hout))
  have h₅ := inserts (t := 3) (misses (t := 3) h₄ rfl hfind₄) rfl hone (by decide) hroom₄ hins₄ rfl
  exact ⟨_, _, h₅, hwalk, hkeys.1, hkeys.2, (keys_distinct_of_rivalsGone _ _ h₅).1⟩

/-- **Two threads miss on the same URI** before either inserts: the object is cached twice and counted
twice. -/
theorem keys_not_distinct : ∃ s : Server ℕ, (serveRuns ℕ).Reachable s ∧ ¬ DistinctKeys s.cache ∧
    s.cache.cacheSize = 2 := by
  have hfind : cacheFind 1 ⟨[97], by decide⟩ cacheInit = some (none, cacheInit) := rfl
  have hrelay : relay [[72]] relayStart = some oneByte := relay_eq (by decide)
  obtain ⟨c₁, hins₁⟩ : ∃ c, cacheInsert 1 1 ⟨[97], by decide⟩ oneByte.body 1 cacheInit = some c :=
    ⟨_, rfl⟩
  obtain ⟨c₂, hins₂⟩ : ∃ c, cacheInsert 1 2 ⟨[97], by decide⟩ oneByte.body 1 c₁ = some c := by
    obtain rfl := Option.some.inj hins₁
    exact ⟨_, rfl⟩
  have hroom₁ : makeRoom 1 1 cacheInit = some cacheInit := rfl
  have hroom₂ : makeRoom 1 1 c₁ = some c₁ := by
    obtain rfl := Option.some.inj hins₁
    rfl
  have h₀ : (serveRuns ℕ).Reachable ⟨cacheInit, fun _ => .start⟩ := .init rfl
  have h₁ := h₀.step (.parse (t := 0) ⟨[97], by decide⟩ rfl)
  have h₂ := h₁.step (.parse (t := 1) ⟨[97], by decide⟩ rfl)
  have h₃ := h₂.step (.miss (t := 0) rfl hfind)
  have h₄ := h₃.step (.miss (t := 1) rfl hfind)
  have h₅ := h₄.step (.relayed (t := 0) rfl hrelay)
  have h₆ := h₅.step (.relayed (t := 1) rfl hrelay)
  have h₇ := h₆.step (.insert (t := 0) rfl hroom₁ hins₁)
  have h₈ := h₇.step (.insert (t := 1) rfl hroom₂ hins₂)
  refine ⟨_, h₈, ?_, ?_⟩
  · obtain rfl := Option.some.inj hins₁
    obtain rfl := Option.some.inj hins₂
    intro hd
    have h12 := hd 1 2 _ _ rfl rfl rfl
    cases h12
  · obtain rfl := Option.some.inj hins₁
    obtain rfl := Option.some.inj hins₂
    rfl

end SystemProgramming.ProxyLab
