import Mathlib.Logic.Relation
import SystemProgramming.ProxyLab.CacheRuns

/-!
# Relaying a response and replaying it from the cache (`proxy.c`)

`forward_response` counts and copies the chunks it relays in a buffer on the stack and inserts that
buffer into the cache; `forward_cached_response` writes `size` bytes of the entry's value.  In
between, `cache_insert` duplicates the buffer as a C string.

* `relay_eq` : for a response that fits, the buffer holds the response followed by zeros, and the
  client received the response.
* `replays_iff_stored` : what every later hit sends is decided by the stored object alone.
* `cached_response_identical_iff` : exactly which responses are replayed unchanged.
-/

namespace SystemProgramming.ProxyLab

open LinkedList Transition

/-! ### `forward_response` and `forward_cached_response` -/

/-- The local variables of `forward_response` and what has been written to `connfd`. -/
structure Relay where
  size : ℤ
  body : List UInt8
  sent : List UInt8

/-- `memcpy(body + off, chunk, n)`; `none` when a byte lies outside `body`. -/
def copyInto (body : List UInt8) (off : ℤ) (chunk : List UInt8) : Option (List UInt8) :=
  if 0 ≤ off ∧ off + chunk.length ≤ body.length then
    some (body.take off.toNat ++ chunk ++ body.drop (off.toNat + chunk.length))
  else none

/-- One iteration of the loop; `size` is a 32-bit `int`.  The `printf` that traces the chunk is left out. -/
def relayChunk (r : Relay) (chunk : List UInt8) : Option Relay := do
  let size := Int.bmod (r.size + chunk.length) (2 ^ 32)
  let body ←
    if size ≤ maxObjectSize then copyInto r.body (size - chunk.length) chunk else some r.body
  some ⟨size, body, r.sent ++ chunk⟩

/-- The loop, on the chunks `Rio_readnb` returns. -/
def relay : List (List UInt8) → Relay → Option Relay
  | [], r => some r
  | chunk :: chunks, r => do relay chunks (← relayChunk r chunk)

/-- The local variables before the loop. -/
def relayStart : Relay := ⟨0, List.replicate maxObjectSize 0, []⟩

/-- `forward_response`, where the insertion's `Malloc` returns `p`. -/
def forwardResponse (fuel : ℕ) (p : Ptr) (uri : CString) (chunks : List (List UInt8)) (c : Cache) :
    Option (Relay × Cache) := do
  let r ← relay chunks relayStart
  if r.size ≤ maxObjectSize then return (r, ← cacheInsert fuel p uri r.body r.size c)
  else return (r, c)

/-- `forward_cached_response`: the bytes written to the client; `none` when a byte read lies outside
the entry's buffer. -/
def forwardCachedResponse (cached : Object) : Option (List UInt8) := do
  let buf ← cached.value
  if 0 ≤ cached.size ∧ cached.size ≤ buf.length then some (buf.take cached.size.toNat) else none

/-! ### The loop -/

/-- Zeros up to the end of `body`. -/
def padding (n : ℕ) : List UInt8 := List.replicate (maxObjectSize - n) 0

/-- The copy puts the chunk behind what is there. -/
theorem copyInto_padding (done chunk : List UInt8)
    (hfit : done.length + chunk.length ≤ maxObjectSize) :
    copyInto (done ++ padding done.length) done.length chunk =
      some (done ++ chunk ++ padding (done ++ chunk).length) := by
  have hlen : (done ++ padding done.length).length = maxObjectSize := by
    rw [List.length_append, padding, List.length_replicate]
    omega
  have hpad : (padding done.length).drop chunk.length = padding (done ++ chunk).length := by
    rw [padding, padding, List.drop_replicate, List.length_append, Nat.sub_sub]
  rw [copyInto, hlen, if_pos (by omega), Int.toNat_natCast, List.take_left,
    List.drop_length_add_append, hpad]

/-- The loop from any point on, as long as the response fits. -/
theorem relay_from (chunks : List (List UInt8)) (done : List UInt8)
    (hfit : done.length + chunks.flatten.length ≤ maxObjectSize) :
    relay chunks ⟨done.length, done ++ padding done.length, done⟩ =
      some ⟨(done ++ chunks.flatten).length,
        done ++ chunks.flatten ++ padding (done ++ chunks.flatten).length,
        done ++ chunks.flatten⟩ := by
  induction chunks generalizing done with
  | nil => simp [relay]
  | cons chunk chunks ih =>
    rw [List.flatten_cons, List.length_append] at hfit
    have hmax : maxObjectSize = 10970 := rfl
    have hwrap : Int.bmod ((done.length : ℤ) + chunk.length) (2 ^ 32) =
        ((done ++ chunk).length : ℤ) := by
      rw [List.length_append, Int.bmod_def]
      omega
    have hoff : ((done ++ chunk).length : ℤ) - chunk.length = done.length := by
      rw [List.length_append]
      omega
    have hle : ((done ++ chunk).length : ℤ) ≤ maxObjectSize := by
      rw [List.length_append]
      omega
    have hgo := ih (done ++ chunk) (by rw [List.length_append]; omega)
    have hstep : relayChunk ⟨done.length, done ++ padding done.length, done⟩ chunk =
        some ⟨(done ++ chunk).length, done ++ chunk ++ padding (done ++ chunk).length,
          done ++ chunk⟩ := by
      simp only [relayChunk, hwrap, hle, if_true, hoff,
        copyInto_padding done chunk (by omega), Option.bind_eq_bind, Option.bind_some]
    rw [relay, hstep, List.flatten_cons, ← List.append_assoc]
    exact hgo

/-- **The relay of a response that fits.** -/
theorem relay_eq {chunks : List (List UInt8)} (hfit : chunks.flatten.length ≤ maxObjectSize) :
    relay chunks relayStart = some ⟨chunks.flatten.length,
      chunks.flatten ++ padding chunks.flatten.length, chunks.flatten⟩ := by
  have h := relay_from chunks [] (by simpa using hfit)
  simpa [relayStart, padding] using h

/-- A copy inside `body` never meets a negative `size`. -/
theorem relayChunk_nonneg {r r' : Relay} {chunk : List UInt8} (h : relayChunk r chunk = some r') :
    0 ≤ r'.size := by
  simp only [relayChunk] at h
  split at h
  · obtain ⟨body, hbody, heq⟩ := Option.bind_eq_some_iff.mp h
    obtain rfl := Option.some.inj heq
    rw [copyInto] at hbody
    split at hbody
    · dsimp only
      omega
    · cases hbody
  · obtain rfl := Option.some.inj h
    dsimp only
    omega

theorem relay_nonneg {chunks : List (List UInt8)} {r r' : Relay} (h0 : 0 ≤ r.size)
    (h : relay chunks r = some r') : 0 ≤ r'.size := by
  induction chunks generalizing r with
  | nil =>
    obtain rfl := Option.some.inj h
    exact h0
  | cons chunk chunks ih =>
    obtain ⟨r₁, hstep, hrest⟩ := Option.bind_eq_some_iff.mp h
    exact ih (relayChunk_nonneg hstep) hrest

/-! ### What is stored -/

/-- The object `forward_response` stores for a response that fits. -/
def storedObject (uri : CString) (response : List UInt8) : Object :=
  ⟨uri, strdup (response ++ padding response.length), response.length⟩

/-- The copy stops at the first NUL. -/
theorem strdup_append_nul {text : List UInt8} (h : 0 ∉ text) (rest : List UInt8) :
    strdup (text ++ 0 :: rest) = some (text ++ [0]) := by
  induction text with
  | nil => rfl
  | cons b text ih =>
    rw [List.mem_cons, not_or] at h
    simp [strdup, Ne.symm h.1, ih h.2]

/-- Without a NUL the copy runs past the buffer. -/
theorem strdup_of_notMem {buf : List UInt8} (h : 0 ∉ buf) : strdup buf = none := by
  induction buf with
  | nil => rfl
  | cons b buf ih =>
    rw [List.mem_cons, not_or] at h
    simp [strdup, ih h.2, Ne.symm h.1]

/-- A response is replayable when no byte before its last one is NUL, and one that fills the buffer
ends in NUL. -/
def Replayable (response : List UInt8) : Prop :=
  0 ∉ response.dropLast ∧ (response.length = maxObjectSize → 0 ∈ response)

instance (response : List UInt8) : Decidable (Replayable response) :=
  inferInstanceAs (Decidable (_ ∧ _))

/-- The stored object sends the response exactly when the response is replayable. -/
theorem forwardCached_stored (uri : CString) {response : List UInt8}
    (hfit : response.length ≤ maxObjectSize) :
    forwardCachedResponse (storedObject uri response) = some response ↔ Replayable response := by
  by_cases hnul : 0 ∈ response
  · -- the copy ends with the first NUL, which must be the last byte
    obtain ⟨text, rest, rfl, htext⟩ := List.eq_append_cons_of_mem hnul
    have hvalue : (storedObject uri (text ++ 0 :: rest)).value = some (text ++ [0]) := by
      rw [storedObject, List.append_assoc, List.cons_append]
      exact strdup_append_nul htext _
    have hsize : (storedObject uri (text ++ 0 :: rest)).size = text.length + 1 + rest.length := by
      simp [storedObject]
      omega
    rw [forwardCachedResponse, hvalue, hsize]
    cases rest with
    | nil =>
      have hrep : Replayable (text ++ [0]) := ⟨by simpa using htext, fun _ => hnul⟩
      simp [hrep]
      omega
    | cons b rest =>
      have hnot : ¬ Replayable (text ++ 0 :: b :: rest) := fun h => h.1 (by simp)
      have hlong : ¬ ((text.length : ℤ) + 1 + (b :: rest).length ≤ (text ++ [0]).length) := by
        rw [List.length_append, List.length_cons, List.length_singleton]
        omega
      simp only [Option.bind_eq_bind, Option.bind_some, hlong, and_false, if_false, hnot,
        reduceCtorEq]
  · by_cases hfull : response.length = maxObjectSize
    · have hvalue : (storedObject uri response).value = none := by
        rw [storedObject, padding, hfull, Nat.sub_self, List.replicate_zero, List.append_nil]
        exact strdup_of_notMem hnul
      have hnot : ¬ Replayable response := fun h => hnul (h.2 hfull)
      rw [forwardCachedResponse, hvalue]
      simp [hnot]
    · obtain ⟨k, hk⟩ : ∃ k, maxObjectSize - response.length = k + 1 :=
        ⟨maxObjectSize - response.length - 1, by omega⟩
      have hvalue : (storedObject uri response).value = some (response ++ [0]) := by
        rw [storedObject, padding, hk, List.replicate_succ]
        exact strdup_append_nul hnul _
      have hsize : (storedObject uri response).size = response.length := rfl
      have hrep : Replayable response :=
        ⟨fun h => hnul (List.mem_of_mem_dropLast h), fun h => absurd h hfull⟩
      rw [forwardCachedResponse, hvalue, hsize]
      simp [hrep]

/-! ### Later hits -/

/-- The calls that store nothing under `uri`. -/
def CacheCall.Spares (uri : CString) : CacheCall → Prop
  | .find _ => True
  | .insert key _ _ => key ≠ uri

/-- One call that stores nothing under `uri`. -/
def SparingStep (uri : CString) (c c' : Cache) : Prop :=
  ∃ call : CacheCall, call.Spares uri ∧ CacheStep c call c'

/-- Whenever the response is stored in a reachable cache, and whatever calls follow that store
nothing under its URI, a hit on that URI writes what the first client received, and reads nothing
outside the entry's buffer. -/
def ReplaysUnchanged (chunks : List (List UInt8)) : Prop :=
  ∀ (c₀ c₁ c₂ c₃ : Cache) (fuel fuel' : ℕ) (p q : Ptr) (uri : CString) (r : Relay),
    cacheRuns.Reachable c₀ → forwardResponse fuel p uri chunks c₀ = some (r, c₁) →
      Relation.ReflTransGen (SparingStep uri) c₁ c₂ →
        cacheFind fuel' uri c₂ = some (some q, c₃) →
          ∃ e, c₃.entries q = some e ∧ forwardCachedResponse e.toObject = some r.sent

/-- The first object with the key, if there is one, is `o`. -/
def FirstIs (uri : CString) (o : Object) (es : List (Ptr × Object)) : Prop :=
  ∀ x, es.find? (fun x => decide (x.2.key = uri)) = some x → x.2 = o

section FirstIs

variable {uri key : CString} {o o' : Object} {es es' keep drop : List (Ptr × Object)}

theorem FirstIs.cons_self (p : Ptr) (h : o.key = uri) : FirstIs uri o ((p, o) :: es) := by
  intro x hx
  rw [List.find?_cons_of_pos (by simpa using h), Option.some.injEq] at hx
  rw [← hx]

theorem FirstIs.cons_ne (p : Ptr) (h : o'.key ≠ uri) (hf : FirstIs uri o es) :
    FirstIs uri o ((p, o') :: es) := by
  intro x hx
  rw [List.find?_cons_of_neg (by simpa using h)] at hx
  exact hf x hx

/-- A lookup of any key keeps the first object of every key. -/
theorem FirstIs.found {q : Option Ptr} (hf : FirstIs uri o es) (h : Found key es q es') :
    FirstIs uri o es' := by
  intro x hx
  rw [h.find?_eq] at hx
  exact hf x hx

theorem FirstIs.evicts {size : ℤ} (hf : FirstIs uri o es) (h : Evicts size es keep drop) :
    FirstIs uri o keep := by
  intro x hx
  exact hf x (h.find?_eq hx)

end FirstIs

/-- One call that stores nothing under `uri` keeps the first object of that key. -/
theorem firstIs_step {uri : CString} {o : Object} {c c' : Cache} {es : List (Ptr × Object)}
    (k : Consistent c es) (hf : FirstIs uri o es) (h : SparingStep uri c c') :
    ∃ es', Consistent c' es' ∧ FirstIs uri o es' := by
  obtain ⟨call, hspares, hstep⟩ := h
  cases hstep with
  | find hfind =>
    obtain ⟨es', hfound, k'⟩ := k.find hfind
    exact ⟨es', k', hf.found hfound⟩
  | insert hlo hhi hins =>
    obtain ⟨keep, drop, hev, k'⟩ := k.insert hlo hhi hins
    exact ⟨_, k', (hf.evicts hev).cons_ne _ hspares⟩

theorem firstIs_run {uri : CString} {o : Object} {c c' : Cache}
    (hrun : Relation.ReflTransGen (SparingStep uri) c c')
    (h : ∃ es, Consistent c es ∧ FirstIs uri o es) : ∃ es, Consistent c' es ∧ FirstIs uri o es := by
  induction hrun with
  | refl => exact h
  | tail _ hstep ih =>
    obtain ⟨es, k, hf⟩ := ih
    exact firstIs_step k hf hstep

/-- A hit returns the entry that stores the first object with the key. -/
theorem hit_stored {uri : CString} {o : Object} {c c' : Cache} {es : List (Ptr × Object)}
    {fuel : ℕ} {q : Ptr} (k : Consistent c es) (hf : FirstIs uri o es)
    (hhit : cacheFind fuel uri c = some (some q, c')) :
    ∃ e, c'.entries q = some e ∧ e.toObject = o := by
  obtain ⟨es', hfound, k'⟩ := k.find hhit
  have hf' := hf.found hfound
  cases hfound with
  | @hit es₁ es₂ _ a hkey _ =>
    have ha : a = o := hf' (q, a) (List.find?_cons_of_pos (by simpa using hkey))
    have hobj := (k'.rep.stored q a).mp List.mem_cons_self
    obtain ⟨e, he, hea⟩ := Option.map_eq_some_iff.mp hobj
    exact ⟨e, he, hea.trans ha⟩

/-- **What later hits send** is decided by the object that was stored. -/
theorem replays_iff_stored {chunks : List (List UInt8)}
    (hfit : chunks.flatten.length ≤ maxObjectSize) :
    ReplaysUnchanged chunks ↔
      ∀ uri, forwardCachedResponse (storedObject uri chunks.flatten) = some chunks.flatten := by
  have hrelay := relay_eq hfit
  have hsize : ((chunks.flatten.length : ℤ)) ≤ maxObjectSize := by exact_mod_cast hfit
  have hforward : ∀ (fuel : ℕ) (p : Ptr) (uri : CString) (c : Cache),
      forwardResponse fuel p uri chunks c =
        (cacheInsert fuel p uri (chunks.flatten ++ padding chunks.flatten.length)
          chunks.flatten.length c).map fun c' => (⟨chunks.flatten.length,
            chunks.flatten ++ padding chunks.flatten.length, chunks.flatten⟩, c') := by
    intro fuel p uri c
    rw [forwardResponse, hrelay]
    simp only [Option.bind_eq_bind, Option.bind_some, hsize, if_true]
    cases cacheInsert fuel p uri (chunks.flatten ++ padding chunks.flatten.length)
      chunks.flatten.length c <;> rfl
  constructor
  · intro h uri
    -- store the response in the empty cache and look it up at once
    obtain ⟨fuel, p, c₁, hins⟩ := consistent_cacheInit.insert_returns uri
      (chunks.flatten ++ padding chunks.flatten.length) chunks.flatten.length
    obtain ⟨keep, drop, _, k₁⟩ := consistent_cacheInit.insert (by omega) hsize hins
    have hf₁ : FirstIs uri (storedObject uri chunks.flatten)
        ((p, storedObject uri chunks.flatten) :: keep) := FirstIs.cons_self p rfl
    obtain ⟨fuel', q, c₃, hfind⟩ := k₁.find_returns uri
    obtain ⟨es', hfound, _⟩ := k₁.find hfind
    have hin : (p, storedObject uri chunks.flatten) ∈ (p, storedObject uri chunks.flatten) :: keep :=
      List.mem_cons_self
    generalize hes : (p, storedObject uri chunks.flatten) :: keep = es at hin
    rw [← storedObject, hes] at hfound
    cases hfound with
    | miss hnone => exact absurd rfl (hnone _ hin)
    | hit =>
      obtain ⟨e, he, hsent⟩ := h cacheInit c₁ c₁ c₃ fuel fuel' p _ uri _ (.init rfl)
        (by rw [hforward, hins]; rfl) .refl hfind
      obtain ⟨e', he', heo⟩ := hit_stored k₁ hf₁ hfind
      obtain rfl : e = e' := Option.some.inj (he.symm.trans he')
      rw [← heo]
      exact hsent
  · intro h c₀ c₁ c₂ c₃ fuel fuel' p q uri r hc₀ hstore hrun hhit
    rw [hforward] at hstore
    obtain ⟨c, hins, heq⟩ := Option.map_eq_some_iff.mp hstore
    obtain ⟨rfl, rfl⟩ := Prod.mk.inj heq
    obtain ⟨es, k⟩ := reachable_consistent hc₀
    obtain ⟨keep, drop, _, k₁⟩ := k.insert (by omega) hsize hins
    obtain ⟨es₂, k₂, hf₂⟩ := firstIs_run hrun ⟨_, k₁, FirstIs.cons_self p rfl⟩
    obtain ⟨e, he, heo⟩ := hit_stored k₂ hf₂ hhit
    refine ⟨e, he, ?_⟩
    rw [heo]
    exact h uri

/-- **Exactly the replayable responses are replayed unchanged.** -/
theorem cached_response_identical_iff (chunks : List (List UInt8))
    (hfit : chunks.flatten.length ≤ maxObjectSize) :
    ReplaysUnchanged chunks ↔ Replayable chunks.flatten := by
  rw [replays_iff_stored hfit]
  constructor
  · intro h
    exact (forwardCached_stored ⟨[], List.not_mem_nil⟩ hfit).mp (h _)
  · intro h uri
    exact (forwardCached_stored uri hfit).mpr h

theorem cached_response_identical_text : ReplaysUnchanged [[72, 84], [84, 80]] :=
  (cached_response_identical_iff [[72, 84], [84, 80]] (by decide)).mpr (by decide)

/-- `HTTP/1.0 200 OK`, an empty line, and a body of the three bytes `A`, NUL, `B`. -/
def binaryResponse : List UInt8 :=
  [72, 84, 84, 80, 47, 49, 46, 48, 32, 50, 48, 48, 32, 79, 75, 13, 10, 13, 10, 65, 0, 66]

theorem cached_response_not_identical :
    binaryResponse.length ≤ maxObjectSize ∧ ¬ ReplaysUnchanged [binaryResponse] := by
  have hfit : binaryResponse.length ≤ maxObjectSize := by decide
  refine ⟨hfit, fun h => ?_⟩
  have hflat : [binaryResponse].flatten = binaryResponse := by decide
  have hstored := (replays_iff_stored (by rw [hflat]; exact hfit)).mp h ⟨[], List.not_mem_nil⟩
  rw [hflat] at hstored
  exact absurd ((forwardCached_stored _ hfit).mp hstored) (by decide)

end SystemProgramming.ProxyLab
