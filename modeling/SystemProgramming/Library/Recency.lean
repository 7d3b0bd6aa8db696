import Mathlib.Data.List.Nodup
import Mathlib.Data.List.Perm.Basic
import Mathlib.Data.Set.Insert

/-!
# Least-recently-used order

What a least-recently-used cache is, for items of any type: after a history of insertions, uses and
evictions, the cached items in decreasing order of the time of their last use, where putting an item
in counts as a use.  A history lists its events from the latest on, and an event takes place at the
time that counts it.

* `lastUse`, `resident` : the time of an item's last use, and the items that are cached.
* `LruOrder` : a list is the least-recently-used order of a history.
* `LruOrder.idle`, `LruOrder.use`, `LruOrder.insert` : what one event does to that order.
-/

namespace SystemProgramming.Recency

/-- What can happen to a cache. -/
inductive Event (ι : Type*)
  /-- the items of `out` are put out, then `i` is put in -/
  | insert (i : ι) (out : Set ι)
  /-- `i`, which is cached, is used -/
  | use (i : ι)
  /-- nothing is used -/
  | idle

variable {ι : Type*}

/-- The item an event uses. -/
def Event.item : Event ι → Option ι
  | .insert i _ | .use i => some i
  | .idle => none

/-- The time of the last use of `i`; `0` when it was never used. -/
def lastUse [DecidableEq ι] : List (Event ι) → ι → ℕ
  | [], _ => 0
  | e :: h, i => if e.item = some i then h.length + 1 else lastUse h i

/-- The items put in and not put out since. -/
def resident : List (Event ι) → Set ι
  | [] => ∅
  | .insert i out :: h => Insert.insert i (resident h \ out)
  | .use _ :: h | .idle :: h => resident h

variable [DecidableEq ι]

/-- `l` holds exactly the cached items, in decreasing order of last use. -/
structure LruOrder (h : List (Event ι)) (l : List ι) : Prop where
  mem : ∀ i, i ∈ l ↔ i ∈ resident h
  recent : l.Pairwise fun i j => lastUse h j < lastUse h i

theorem lastUse_le (h : List (Event ι)) (i : ι) : lastUse h i ≤ h.length := by
  induction h with
  | nil => exact le_rfl
  | cons e h ih =>
    rw [lastUse, List.length_cons]
    split
    · exact le_rfl
    · omega

theorem lastUse_cons_self {e : Event ι} {i : ι} (h : List (Event ι)) (he : e.item = some i) :
    lastUse (e :: h) i = h.length + 1 := by
  rw [lastUse, if_pos he]

theorem lastUse_cons_of_ne {e : Event ι} {i : ι} (h : List (Event ι)) (he : e.item ≠ some i) :
    lastUse (e :: h) i = lastUse h i := by
  rw [lastUse, if_neg he]

namespace LruOrder

variable {h : List (Event ι)} {l l₁ l₂ keep drop : List ι} {i : ι} {out : Set ι}

theorem nil : LruOrder ([] : List (Event ι)) [] :=
  ⟨fun i => by simp [resident], List.Pairwise.nil⟩

theorem nodup (o : LruOrder h l) : l.Nodup := by
  apply o.recent.imp
  intro i j hlt he
  rw [he] at hlt
  exact lt_irrefl _ hlt

/-- What an event does not use stays in its order. -/
theorem recent_cons {e : Event ι} (ho : l.Pairwise fun i j => lastUse h j < lastUse h i)
    (he : ∀ j ∈ l, e.item ≠ some j) :
    l.Pairwise fun i j => lastUse (e :: h) j < lastUse (e :: h) i := by
  refine ho.imp_of_mem fun {i j} hi hj hlt => ?_
  rw [lastUse_cons_of_ne h (he i hi), lastUse_cons_of_ne h (he j hj)]
  exact hlt

/-- The item an event uses comes before the others. -/
theorem recent_front {e : Event ι} (he : e.item = some i) (hi : i ∉ l)
    (ho : l.Pairwise fun i j => lastUse h j < lastUse h i) :
    (i :: l).Pairwise fun i j => lastUse (e :: h) j < lastUse (e :: h) i := by
  have hne : ∀ j ∈ l, e.item ≠ some j := by
    intro j hj hej
    rw [he, Option.some.injEq] at hej
    exact hi (hej ▸ hj)
  refine List.pairwise_cons.mpr ⟨fun j hj => ?_, recent_cons ho hne⟩
  rw [lastUse_cons_self h he, lastUse_cons_of_ne h (hne j hj)]
  exact Nat.lt_succ_of_le (lastUse_le h j)

/-- **Nothing is used**: the order stays. -/
theorem idle (o : LruOrder h l) : LruOrder (.idle :: h) l :=
  ⟨o.mem, recent_cons o.recent fun _ _ => nofun⟩

/-- **A use** moves the item to the front. -/
theorem use (o : LruOrder h (l₁ ++ i :: l₂)) : LruOrder (.use i :: h) (i :: (l₁ ++ l₂)) := by
  have hi := List.nodup_cons.mp (List.nodup_middle.mp o.nodup)
  refine ⟨fun j => ?_, recent_front rfl hi.1 ?_⟩
  · show _ ↔ j ∈ resident h
    rw [← o.mem, List.perm_middle.mem_iff]
  · exact o.recent.sublist ((List.sublist_cons_self i l₂).append_left l₁)

/-- **An insertion** that puts the last items out puts the new one in front of the others. -/
theorem insert (o : LruOrder h (keep ++ drop)) (hi : i ∉ keep) (hout : ∀ j, j ∈ out ↔ j ∈ drop) :
    LruOrder (.insert i out :: h) (i :: keep) := by
  have hsep := List.nodup_append.mp o.nodup
  refine ⟨fun j => ?_, recent_front rfl hi (List.pairwise_append.mp o.recent).1⟩
  rw [resident, List.mem_cons, Set.mem_insert_iff, Set.mem_sdiff, ← o.mem, List.mem_append, hout]
  refine or_congr_right ⟨fun hj => ⟨.inl hj, fun hd => hsep.2.2 j hj j hd rfl⟩, ?_⟩
  rintro ⟨hj | hj, hnot⟩
  · exact hj
  · exact absurd hj hnot

end LruOrder

end SystemProgramming.Recency
