import SystemProgramming.ProxyLab.ParseRequest
import SystemProgramming.ProxyLab.Response

/-!
# Responses of any length (`forward_response` in `proxy.c`)

`forward_response` counts what it relays in an `int`.  Below `2^31` bytes the count is the length of
the response.  The chunk that takes it over `2^31` makes it negative, which is below
`MAX_OBJECT_SIZE`, so that `memcpy` is called with an address far below `body`.

* `relay_counts`, `relay_crossing` : the loop on either side of `2^31`.
* `relaysExactly_iff` : the lengths for which the client, the buffer and the cache get what they should.
-/

namespace SystemProgramming.ProxyLab

/-- Every `memcpy` stays inside `body`, the client receives the chunks in order, and `cache_insert` is
called, with the response at the start of `body`, if and only if the response fits. -/
def RelaysExactly (chunks : List (List UInt8)) : Prop :=
  ∃ r, relay chunks relayStart = some r ∧ r.sent = chunks.flatten ∧
    (chunks.flatten.length ≤ maxObjectSize → r.body.take chunks.flatten.length = chunks.flatten) ∧
    ∀ fuel p uri c, forwardResponse fuel p uri chunks c =
      if chunks.flatten.length ≤ maxObjectSize then
        (cacheInsert fuel p uri r.body chunks.flatten.length c).map fun c' => (r, c')
      else some (r, c)

/-- Below the limit of `int` the sum does not wrap. -/
theorem bmod_count {a b : ℕ} (h : a + b < 2 ^ 31) :
    Int.bmod ((a : ℤ) + b) (2 ^ 32) = ((a + b : ℕ) : ℤ) := by
  rw [Int.bmod_def]
  omega

theorem copyInto_length {body body' chunk : List UInt8} {off : ℤ}
    (h : copyInto body off chunk = some body') : body'.length = body.length := by
  rw [copyInto] at h
  split at h
  · next hin =>
    obtain rfl := Option.some.inj h
    simp only [List.length_append, List.length_take, List.length_drop]
    omega
  · cases h

/-- A chunk that ends below the limit of `int`. -/
theorem relayChunk_counts {body done chunk : List UInt8} (hbody : body.length = maxObjectSize)
    (hlt : done.length + chunk.length < 2 ^ 31) :
    ∃ body', relayChunk ⟨done.length, body, done⟩ chunk =
      some ⟨(done ++ chunk).length, body', done ++ chunk⟩ ∧ body'.length = maxObjectSize := by
  have hcount := bmod_count hlt
  rw [← List.length_append] at hcount
  have hlen : (done ++ chunk).length = done.length + chunk.length := List.length_append
  by_cases hfit : (done ++ chunk).length ≤ maxObjectSize
  · have hoff : ((done ++ chunk).length : ℤ) - chunk.length = done.length := by
      omega
    have hcopy : copyInto body done.length chunk =
        some (body.take done.length ++ chunk ++ body.drop (done.length + chunk.length)) := by
      rw [copyInto, if_pos (by omega), Int.toNat_natCast]
    refine ⟨_, ?_, (copyInto_length hcopy).trans hbody⟩
    have hle : ((done ++ chunk).length : ℤ) ≤ maxObjectSize := by exact_mod_cast hfit
    simp only [relayChunk, hcount, hle, if_true, hoff, hcopy, Option.bind_eq_bind, Option.bind_some]
  · refine ⟨body, ?_, hbody⟩
    have hgt : ¬ ((done ++ chunk).length : ℤ) ≤ maxObjectSize := by exact_mod_cast hfit
    simp only [relayChunk, hcount, hgt, if_false, Option.bind_eq_bind, Option.bind_some]

/-- The chunk that takes the count over the limit of `int`: `memcpy` writes outside `body`. -/
theorem relayChunk_crossing (body : List UInt8) {done chunk : List UInt8} (hchunk : chunk.length ≤ maxLine)
    (hlt : done.length < 2 ^ 31) (hge : 2 ^ 31 ≤ done.length + chunk.length) :
    relayChunk ⟨done.length, body, done⟩ chunk = none := by
  have hmax : maxLine = 8192 := rfl
  have hsize : Int.bmod ((done.length : ℤ) + chunk.length) (2 ^ 32) =
      (done.length : ℤ) + chunk.length - 2 ^ 32 := by
    rw [Int.bmod_def]
    omega
  have hneg : (done.length : ℤ) + chunk.length - 2 ^ 32 ≤ maxObjectSize := by
    omega
  have hcopy : copyInto body ((done.length : ℤ) + chunk.length - 2 ^ 32 - chunk.length) chunk =
      none := by
    rw [copyInto, if_neg (by omega)]
  simp only [relayChunk, hsize, hneg, if_true, hcopy, Option.bind_eq_bind, Option.bind_none]

/-- **The loop below the limit**, from any point on. -/
theorem relay_counts (chunks : List (List UInt8)) {body : List UInt8} (done : List UInt8)
    (hbody : body.length = maxObjectSize) (hlt : done.length + chunks.flatten.length < 2 ^ 31) :
    ∃ body', relay chunks ⟨done.length, body, done⟩ =
      some ⟨(done ++ chunks.flatten).length, body', done ++ chunks.flatten⟩ := by
  induction chunks generalizing body done with
  | nil => exact ⟨body, by simp [relay]⟩
  | cons chunk chunks ih =>
    rw [List.flatten_cons, List.length_append] at hlt
    have hnext : done.length + chunk.length < 2 ^ 31 := by
      omega
    obtain ⟨body₁, hstep, hbody₁⟩ := relayChunk_counts hbody hnext
    obtain ⟨body', hgo⟩ := ih (done ++ chunk) hbody₁ (by rw [List.length_append]; omega)
    refine ⟨body', ?_⟩
    rw [relay, hstep, List.flatten_cons, ← List.append_assoc]
    exact hgo

/-- **The loop that crosses the limit**, from any point below it on. -/
theorem relay_crossing (chunks : List (List UInt8)) {body : List UInt8} (done : List UInt8)
    (hchunks : ∀ chunk ∈ chunks, chunk.length ≤ maxLine) (hbody : body.length = maxObjectSize)
    (hlt : done.length < 2 ^ 31) (hge : 2 ^ 31 ≤ done.length + chunks.flatten.length) :
    relay chunks ⟨done.length, body, done⟩ = none := by
  induction chunks generalizing body done with
  | nil =>
    rw [List.flatten_nil, List.length_nil] at hge
    omega
  | cons chunk chunks ih =>
    rw [List.flatten_cons, List.length_append] at hge
    by_cases hcross : done.length + chunk.length < 2 ^ 31
    · obtain ⟨body₁, hstep, hbody₁⟩ := relayChunk_counts hbody hcross
      have hrest := ih (done ++ chunk) (fun c hc => hchunks c (List.mem_cons_of_mem _ hc)) hbody₁
        (by rw [List.length_append]; omega) (by rw [List.length_append]; omega)
      rw [relay, hstep]
      exact hrest
    · have hstep := relayChunk_crossing body (hchunks chunk List.mem_cons_self) hlt
        (by omega)
      rw [relay, hstep]
      rfl

theorem relayStart_body : relayStart.body.length = maxObjectSize := List.length_replicate ..

/-- A response of `2^31` bytes or more. -/
theorem not_relaysExactly {chunks : List (List UInt8)}
    (hchunks : ∀ chunk ∈ chunks, chunk.length ≤ maxLine) (hge : 2 ^ 31 ≤ chunks.flatten.length) :
    ¬ RelaysExactly chunks := by
  rintro ⟨r, hr, -⟩
  have hnone := relay_crossing chunks [] hchunks relayStart_body (by decide)
    (by simpa using hge)
  rw [relayStart] at hr
  have hnone' : relay chunks ⟨0, List.replicate maxObjectSize 0, []⟩ = none := hnone
  rw [hnone'] at hr
  cases hr

/-- A response of less than `2^31` bytes. -/
theorem relaysExactly_of_lt {chunks : List (List UInt8)} (hlt : chunks.flatten.length < 2 ^ 31) :
    RelaysExactly chunks := by
  by_cases hfit : chunks.flatten.length ≤ maxObjectSize
  · have hrelay := relay_eq hfit
    have hle : ((chunks.flatten.length : ℤ)) ≤ maxObjectSize := by exact_mod_cast hfit
    refine ⟨_, hrelay, rfl, fun _ => List.take_left .., fun fuel p uri c => ?_⟩
    rw [forwardResponse, hrelay, if_pos hfit]
    simp only [Option.bind_eq_bind, Option.bind_some, hle, if_true]
    cases cacheInsert fuel p uri (chunks.flatten ++ padding chunks.flatten.length)
      chunks.flatten.length c <;> rfl
  · obtain ⟨body, hgo⟩ := relay_counts chunks [] relayStart_body (by simpa using hlt)
    rw [List.nil_append] at hgo
    have hrelay : relay chunks relayStart =
        some ⟨chunks.flatten.length, body, chunks.flatten⟩ := hgo
    have hgt : ¬ ((chunks.flatten.length : ℤ)) ≤ maxObjectSize := by exact_mod_cast hfit
    refine ⟨_, hrelay, rfl, fun h => absurd h hfit, fun fuel p uri c => ?_⟩
    rw [forwardResponse, hrelay, if_neg hfit]
    simp only [Option.bind_eq_bind, Option.bind_some, hgt, if_false]
    rfl

/-- **Which responses are relayed exactly**: those of less than `2^31` bytes. -/
theorem relaysExactly_iff (chunks : List (List UInt8))
    (hchunks : ∀ chunk ∈ chunks, 1 ≤ chunk.length ∧ chunk.length ≤ maxLine) :
    RelaysExactly chunks ↔ chunks.flatten.length < 2 ^ 31 := by
  refine ⟨fun h => ?_, relaysExactly_of_lt⟩
  by_contra hge
  exact not_relaysExactly (fun chunk hc => (hchunks chunk hc).2) (by omega) h

theorem relaysExactly_iff_text : RelaysExactly [[72, 84], [84, 80]] :=
  (relaysExactly_iff [[72, 84], [84, 80]] (by decide)).mpr (by decide)

/-- 262144 chunks of `MAXLINE` zeros, `2^31` bytes. -/
def twoGigabytes : List (List UInt8) := List.replicate 262144 (List.replicate maxLine 0)

theorem twoGigabytes_crosses :
    (∀ chunk ∈ twoGigabytes, 1 ≤ chunk.length ∧ chunk.length ≤ maxLine) ∧
      ¬ RelaysExactly twoGigabytes := by
  have hmax : maxLine = 8192 := rfl
  have hchunks : ∀ chunk ∈ twoGigabytes, chunk.length = maxLine := by
    intro chunk hc
    rw [(List.mem_replicate.mp hc).2, List.length_replicate]
  have hlen : twoGigabytes.flatten.length = 2 ^ 31 := by
    rw [twoGigabytes, List.length_flatten, List.map_replicate, List.length_replicate,
      List.sum_replicate, hmax]
    rfl
  refine ⟨fun chunk hc => ?_, ?_⟩
  · rw [hchunks chunk hc]
    omega
  · exact not_relaysExactly (fun chunk hc => (hchunks chunk hc).le) hlen.ge

end SystemProgramming.ProxyLab
