import SystemProgramming.LinkLab.Failures

/-!
# Invalid frees (part 3)

The wrapper of `free` in part 3 refuses a pointer that is not live.  Which of its two messages it logs
depends on whether the pointer has an item, that is, on whether it was ever returned.

* `freePart3Calls` : `free` with the pointers it passes on to libc.
* `returnedRuns` : the runs of the tracer with the pointers returned so far.
* `free_refused_iff` : which pointers are passed on, and which message is logged for the others.
-/

namespace SystemProgramming.LinkLab

open Holdings Transition

/-! ### What reaches libc -/

/-- `free` of part 3, with the pointers it calls `freep` with. -/
def Tracer.freePart3Calls (ptr : ℕ) (s : Tracer) : Option (Tracer × List ℕ) :=
  match (s.list.dummy :: s.list.items).find? fun i => i.ptr = ptr with
  | none => some ({ s with log := s.log ++ [.illFree] }, [])
  | some curr =>
    if curr.cnt = 0 then some ({ s with log := s.log ++ [.doubleFree] }, [])
    else (s.freePart2 ptr).map fun s' => (s', [ptr])

theorem Tracer.freePart3Calls_fst (s : Tracer) (ptr : ℕ) :
    (s.freePart3Calls ptr).map Prod.fst = s.freePart3 ptr := by
  rw [freePart3Calls, freePart3]
  cases (s.list.dummy :: s.list.items).find? fun i => i.ptr = ptr with
  | none => rfl
  | some curr =>
    by_cases hcnt : curr.cnt = 0
    · simp only [if_pos hcnt, Option.map_some]
    · simp only [if_neg hcnt, Option.map_map]
      exact congrFun Option.map_id _

/-! ### The pointers returned so far -/

/-- The pointers returned up to and including the call. -/
def Call.returned (returned : List ℕ) : Call → List ℕ
  | .malloc _ res _ | .calloc _ _ res _ | .realloc _ _ res _ => res :: returned
  | .free _ => returned

/-- The runs in which libc never returns `NULL`, with the pointers that the calls so far have
returned. -/
def returnedRuns : System ((Tracer × Live) × List ℕ) Call :=
  (answeredRuns .part3).recorded [] Call.returned

/-- The blocks that have an item are those that were returned. -/
def Recalls (l : MemList) (returned : List ℕ) : Prop :=
  ∀ p, (lookup p l.items).isSome ↔ p ∈ returned

namespace Recalls

variable {l : MemList} {returned : List ℕ} {p a : ℕ} {n : UInt64}

theorem alloc (r : Recalls l returned) (w : l.WellFormed) :
    Recalls (l.alloc a p n).2 (p :: returned) := by
  intro q
  rw [w.lookup_alloc, List.mem_cons]
  by_cases hq : q = p
  · rw [if_pos hq]
    exact iff_of_true rfl (Or.inl hq)
  · rw [if_neg hq, r q]
    exact (or_iff_right hq).symm

theorem dealloc (r : Recalls l returned) : Recalls (l.dealloc p).2 returned := by
  intro q
  rw [MemList.lookup_dealloc]
  by_cases hq : q = p
  · rw [if_pos hq, Option.isSome_map, hq]
    exact r p
  · rw [if_neg hq]
    exact r q

end Recalls

/-- `free` leaves the list alone or decrements the count of the block. -/
theorem Tracer.freePart3_list {s s' : Tracer} {p : ℕ} (w : s.list.WellFormed)
    (hcnt : s.list.dummy.cnt = 0) (h : s.freePart3 p = some s') :
    s'.list = s.list ∨ s'.list = (s.list.dealloc p).2 := by
  by_cases hp : p = 0
  · subst hp
    cases (freePart3_null w hcnt).symm.trans h
    exact Or.inl rfl
  rw [freePart3_eq w hp] at h
  split at h
  · cases h
    exact Or.inl rfl
  · split at h
    · cases h
      exact Or.inl rfl
    · rw [freePart2_eq w] at h
      obtain ⟨c, -, rfl⟩ := Option.map_eq_some_iff.mp h
      exact Or.inr rfl

/-- **The step lemma.** -/
theorem Recalls.exec {s s' : Tracer} {live : Live} {returned : List ℕ} {c : Call}
    (r : Recalls s.list returned) (t : Truthful s.list live) (hc : c.Permitted .part3 s live)
    (h : c.exec .part3 s = some s') : Recalls s'.list (c.returned returned) := by
  have w := t.tracks.wellFormed
  cases c with
  | malloc size res a =>
    cases h
    exact r.alloc w
  | calloc nmemb size res a =>
    cases h
    exact r.alloc w
  | realloc ptr size res a =>
    obtain ⟨-, -, ha⟩ := hc
    have h' : s.realloc ptr size res a = some s' := h
    rw [Tracer.realloc_eq w ha] at h'
    obtain ⟨c, -, rfl⟩ := Option.map_eq_some_iff.mp h'
    exact r.dealloc.alloc w.dealloc
  | free ptr =>
    show Recalls s'.list returned
    rcases Tracer.freePart3_list w t.dummy h with hl | hl
    · rw [hl]
      exact r
    · rw [hl]
      exact r.dealloc

/-- **The run lemma.** -/
theorem returned_recalls {x : (Tracer × Live) × List ℕ} (hx : returnedRuns.Reachable x) :
    Truthful x.1.1.list x.1.2 ∧ Recalls x.1.1.list x.2 := by
  refine hx.invariant (P := fun x => Truthful x.1.1.list x.1.2 ∧ Recalls x.1.1.list x.2) ?_ ?_
  · rintro ⟨x, returned⟩ ⟨⟨a, rfl⟩, rfl⟩
    refine ⟨⟨tracks_init a, rfl, rfl⟩, fun p => ?_⟩
    exact iff_of_false (by simp [init, newList]) List.not_mem_nil
  · rintro ⟨x, returned⟩ c ⟨x', returned'⟩ ⟨t, r⟩ ⟨⟨hok, hc, hexec, hlive⟩, rfl⟩
    refine ⟨?_, r.exec t hc hexec⟩
    rw [hlive]
    exact t.exec hc hok hexec

/-! ### What `free` does to any pointer -/

/-- **Invalid frees.**  After any run, and for any pointer but `NULL`, `free` reaches libc's `free`
just when the pointer is live, reports a double free just when it was returned before but is not live,
and an illegal free just when it was never returned.  What it refuses changes nothing but the log. -/
theorem free_refused_iff (s : Tracer) (live : Live) (returned : List ℕ) (ptr : ℕ)
    (h : returnedRuns.Reachable ((s, live), returned)) (hptr : ptr ≠ 0) :
    ∃ s' calls notices, s.freePart3Calls ptr = some (s', calls) ∧ s'.log = s.log ++ notices ∧
      (calls = if ptr ∈ live.map Prod.fst then [ptr] else []) ∧
      (.doubleFree ∈ notices ↔ ptr ∈ returned ∧ ptr ∉ live.map Prod.fst) ∧
      (.illFree ∈ notices ↔ ptr ∉ returned) ∧
      (ptr ∉ live.map Prod.fst → s' = { s with log := s.log ++ notices }) := by
  obtain ⟨⟨t, -, -⟩, hrecalls⟩ : Truthful s.list live ∧ Recalls s.list returned :=
    returned_recalls h
  have hreturned := hrecalls ptr
  have hdummy : s.list.dummy.ptr ≠ ptr := by
    rw [t.dummy]
    exact hptr.symm
  have hfind : (s.list.dummy :: s.list.items).find? (fun i => i.ptr = ptr) =
      lookup ptr s.list.items := lookup_cons_ne hdummy
  rw [Tracer.freePart3Calls, hfind]
  by_cases hlive : ptr ∈ live.map Prod.fst
  · obtain ⟨c, hc, hcnt⟩ : ∃ c, lookup ptr s.list.items = some c ∧ c.cnt = 1 := by
      obtain ⟨⟨ptr, n⟩, hmem, rfl⟩ := List.mem_map.mp hlive
      obtain ⟨c, hc, -, hcnt⟩ := t.recorded ptr n hmem
      exact ⟨c, hc, hcnt⟩
    have hin : ptr ∈ returned := hreturned.mp (by rw [hc]; rfl)
    have hpart2 := Tracer.freePart2_live t hlive
    have hcalls : (s.freePart2 ptr).map (fun s' => (s', [ptr])) = some ({ s with
        list := (s.list.dealloc ptr).2
        nFreeb := s.nFreeb + live.sizeAt ptr }, [ptr]) := by
      rw [hpart2]
      rfl
    rw [hc]
    refine ⟨_, [ptr], [], (if_neg (by omega)).trans hcalls, (List.append_nil _).symm,
      (if_pos hlive).symm, ?_, ?_, fun hdead => absurd hlive hdead⟩
    · exact iff_of_false List.not_mem_nil fun hr => hr.2 hlive
    · exact iff_of_false List.not_mem_nil fun hr => hr hin
  · cases hc : lookup ptr s.list.items with
    | none =>
      have hout : ptr ∉ returned := fun hr => by
        rw [← hreturned, hc] at hr
        cases hr
      refine ⟨_, [], [.illFree], rfl, rfl, (if_neg hlive).symm, ?_, ?_, fun _ => rfl⟩
      · exact iff_of_false (by decide) fun hr => hout hr.1
      · exact iff_of_true (by decide) hout
    | some c =>
      have hin : ptr ∈ returned := hreturned.mp (by rw [hc]; rfl)
      refine ⟨_, [], [.doubleFree], if_pos (t.freed ptr c hc hlive), rfl, (if_neg hlive).symm, ?_,
        ?_, fun _ => rfl⟩
      · exact iff_of_true (by decide) ⟨hin, hlive⟩
      · exact iff_of_false (by decide) fun hr => hr hin

/-- The calls of `test4.c`: a block that is freed twice, and a pointer that was never returned. -/
theorem free_refused_iff_test4 : ∃ s, returnedRuns.Reachable ((s, []), [64]) ∧
    (∃ s' notices, s.freePart3Calls 64 = some (s', []) ∧ .doubleFree ∈ notices ∧
      s' = { s with log := s.log ++ notices }) ∧
    ∃ s' notices, s.freePart3Calls 112 = some (s', []) ∧ .illFree ∈ notices ∧
      s' = { s with log := s.log ++ notices } := by
  have h₀ : returnedRuns.Reachable ((init 1, []), []) := .init ⟨⟨1, rfl⟩, rfl⟩
  have h₁ : returnedRuns.Reachable ((_, [(64, 1024)]), [64]) :=
    h₀.step (a := .malloc 1024 64 2)
      ⟨⟨by decide, ⟨Or.inr List.not_mem_nil, by decide⟩, rfl, rfl⟩, rfl⟩
  have h₂ : returnedRuns.Reachable ((_, []), [64]) :=
    h₁.step (a := .free 64) ⟨⟨not_false, Or.inl rfl, rfl, rfl⟩, rfl⟩
  refine ⟨_, h₂, ?_, ?_⟩
  · obtain ⟨s', calls, notices, hfree, -, hcalls, hdouble, -, hsame⟩ :=
      free_refused_iff _ _ _ 64 h₂ (by decide)
    rw [hcalls] at hfree
    exact ⟨s', notices, hfree, hdouble.mpr ⟨by decide, by decide⟩, hsame (by decide)⟩
  · obtain ⟨s', calls, notices, hfree, -, hcalls, -, hill, hsame⟩ :=
      free_refused_iff _ _ _ 112 h₂ (by decide)
    rw [hcalls] at hfree
    exact ⟨s', notices, hfree, hill.mpr (by decide), hsame (by decide)⟩

end SystemProgramming.LinkLab
