import Mathlib.Data.List.Basic

/-!
# Transfers in pieces

A device that is asked for a number of items transfers fewer when it likes, is interrupted or fails.
A schedule says what becomes of each call; a call that the schedule does not reach has not returned.

* `piece` : the items one call transfers.
* `moves` : how many calls of a schedule transfer items.
* `drain` : the loop that asks again until it has what it wants, with `drain_spec` and `drain_isSome`.
-/

namespace SystemProgramming.Schedules

/-- What becomes of a call. -/
inductive Call
  /-- up to `k + 1` items are transferred -/
  | upTo (k : ℕ)
  /-- the call is interrupted before it has transferred anything -/
  | interrupted
  | failed
  deriving DecidableEq

/-- A schedule in which no call fails. -/
def NoFailure (calls : List Call) : Prop := .failed ∉ calls

/-- The number of calls that transfer items. -/
def moves : List Call → ℕ
  | [] => 0
  | .upTo _ :: calls => moves calls + 1
  | .interrupted :: calls => moves calls
  | .failed :: calls => moves calls

variable {α : Type*}

/-- What a call for `count` items that transfers up to `k + 1` takes from `l`. -/
def piece (count k : ℕ) (l : List α) : List α := l.take (min (k + 1) count)

theorem piece_append (count k : ℕ) (l : List α) :
    piece count k l ++ l.drop (piece count k l).length = l := by
  have h : l.drop (piece count k l).length = l.drop (min (k + 1) count) := by
    rw [piece, List.length_take]
    rcases Nat.le_total (min (k + 1) count) l.length with hle | hle
    · rw [Nat.min_eq_left hle]
    · rw [Nat.min_eq_right hle, List.drop_length, List.drop_of_length_le hle]
  rw [h, piece, List.take_append_drop]

theorem length_piece_le (count k : ℕ) (l : List α) : (piece count k l).length ≤ count := by
  rw [piece, List.length_take]
  omega

theorem piece_eq_nil_iff {count k : ℕ} {l : List α} (hcount : 0 < count) :
    piece count k l = [] ↔ l = [] := by
  rw [piece, List.take_eq_nil_iff]
  constructor
  · rintro (h | h)
    · omega
    · exact h
  · exact Or.inr

/-! ### Asking again -/

/-- Take `left` items from `l`, asking again after a short transfer and after an interruption: whether
a call failed, what was taken, what is left of `l` and of the schedule. -/
def drain : List Call → ℕ → List α → Option (Bool × List α × List α × List Call)
  | calls, 0, l => some (false, [], l, calls)
  | [], _ + 1, _ => none
  | .failed :: calls, _ + 1, l => some (true, [], l, calls)
  | .interrupted :: calls, left + 1, l => drain calls (left + 1) l
  | .upTo k :: calls, left + 1, l =>
    if piece (left + 1) k l = [] then some (false, [], l, calls)
    else
      (drain calls (left + 1 - (piece (left + 1) k l).length)
        (l.drop (piece (left + 1) k l).length)).map fun r =>
          (r.1, piece (left + 1) k l ++ r.2.1, r.2.2)

variable {calls calls' : List Call} {left : ℕ} {l taken rest : List α} {failed : Bool}

/-- What is taken is a prefix; all that was asked for and there is, unless a call failed. -/
theorem drain_spec (h : drain calls left l = some (failed, taken, rest, calls')) :
    taken ++ rest = l ∧ calls' <:+ calls ∧ (failed = false → taken = l.take left) ∧
      (failed = true → taken.length < left ∧ .failed ∈ calls) := by
  induction calls, left, l using drain.induct generalizing failed taken rest calls' with
  | case1 calls l =>
    rw [drain] at h
    cases h
    exact ⟨rfl, List.suffix_refl _, fun _ => by simp, by simp⟩
  | case2 left l => simp [drain] at h
  | case3 calls left l =>
    rw [drain] at h
    cases h
    exact ⟨rfl, List.suffix_cons _ _, by simp, fun _ => ⟨Nat.succ_pos _, List.mem_cons_self⟩⟩
  | case4 calls left l ih =>
    rw [drain] at h
    obtain ⟨hsplit, hsuf, hok, hfail⟩ := ih h
    exact ⟨hsplit, hsuf.trans (List.suffix_cons _ _), hok,
      fun hf => ⟨(hfail hf).1, List.mem_cons_of_mem _ (hfail hf).2⟩⟩
  | case5 k calls left l hnil =>
    rw [drain, if_pos hnil] at h
    cases h
    have hl : l = [] := (piece_eq_nil_iff (Nat.succ_pos left)).mp hnil
    exact ⟨rfl, List.suffix_cons _ _, fun _ => by simp [hl], by simp⟩
  | case6 k calls left l hne ih =>
    rw [drain, if_neg hne] at h
    obtain ⟨⟨failed', taken', rest', calls''⟩, hr, heq⟩ := Option.map_eq_some_iff.mp h
    cases heq
    obtain ⟨hsplit, hsuf, hok, hfail⟩ := ih hr
    have happ := piece_append (left + 1) k l
    have hlen := length_piece_le (left + 1) k l
    generalize piece (left + 1) k l = got at *
    refine ⟨?_, hsuf.trans (List.suffix_cons _ _), fun hf => ?_, fun hf => ?_⟩
    · rw [List.append_assoc, hsplit, happ]
    · show got ++ taken' = l.take (left + 1)
      rw [hok hf]
      conv_rhs => rw [← happ, List.take_append, List.take_of_length_le hlen]
    · obtain ⟨hlt, hin⟩ := hfail hf
      refine ⟨?_, List.mem_cons_of_mem _ hin⟩
      show (got ++ taken').length < left + 1
      rw [List.length_append]
      omega

/-- Where there is enough to take, no transfer of the schedule is spent on nothing. -/
theorem drain_moves (h : drain calls left l = some (failed, taken, rest, calls'))
    (hl : left ≤ l.length) : moves calls ≤ moves calls' + taken.length := by
  induction calls, left, l using drain.induct generalizing failed taken rest calls' with
  | case1 calls l =>
    rw [drain] at h
    cases h
    exact Nat.le_add_right _ _
  | case2 left l => simp [drain] at h
  | case3 calls left l =>
    rw [drain] at h
    cases h
    exact Nat.le_add_right _ _
  | case4 calls left l ih =>
    rw [drain] at h
    exact ih h hl
  | case5 k calls left l hnil =>
    have hempty := (piece_eq_nil_iff (Nat.succ_pos left)).mp hnil
    rw [hempty] at hl
    cases hl
  | case6 k calls left l hne ih =>
    rw [drain, if_neg hne] at h
    obtain ⟨⟨failed', taken', rest', calls''⟩, hr, heq⟩ := Option.map_eq_some_iff.mp h
    cases heq
    have hpos := List.length_pos_iff.mpr hne
    have hgo := ih hr (by
      rw [List.length_drop]
      omega)
    show moves calls + 1 ≤ moves calls' + (piece (left + 1) k l ++ taken').length
    rw [List.length_append]
    omega

/-- The loop returns when the schedule has a transfer for every item asked for. -/
theorem drain_isSome (h : left ≤ moves calls) : (drain calls left l).isSome := by
  induction calls, left, l using drain.induct with
  | case1 calls l => rw [drain]; rfl
  | case2 left l => simp [moves] at h
  | case3 calls left l => rw [drain]; rfl
  | case4 calls left l ih =>
    rw [drain]
    exact ih h
  | case5 k calls left l hnil =>
    rw [drain, if_pos hnil]
    rfl
  | case6 k calls left l hne ih =>
    have hpos := List.length_pos_iff.mpr hne
    rw [moves] at h
    rw [drain, if_neg hne, Option.isSome_map]
    exact ih (by omega)

end SystemProgramming.Schedules
