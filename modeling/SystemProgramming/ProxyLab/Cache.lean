import Mathlib.Data.Int.Order.Basic
import Mathlib.Logic.Function.Basic

/-!
# The proxy's object cache (`cache.c`)

A doubly linked list of heap-allocated entries with a move-to-front lookup and an eviction from the
tail.  Entries live in a heap of records indexed by their address; `NULL` is `none`.  A function
returns `none` where the program dereferences `NULL` or an address that is not allocated, or where a
loop has not ended within the given number of tests.

The mutex is left to the model of the threads: here each function is one atomic step.
-/

namespace SystemProgramming.ProxyLab

/-- `MAX_CACHE_SIZE`. -/
def maxCacheSize : ℤ := 10970

/-- `MAX_OBJECT_SIZE`. -/
def maxObjectSize : ℕ := 10970

/-! ### Strings -/

/-- A C string: its bytes before the terminating NUL. -/
structure CString where
  chars : List UInt8
  noNul : 0 ∉ chars
  deriving DecidableEq

/-- `strdup` of the string that starts a buffer: the bytes of the new buffer, up to and including
the first NUL; `none` when the copy runs past the end of the given one. -/
def strdup : List UInt8 → Option (List UInt8)
  | [] => none
  | b :: buf => if b = 0 then some [0] else (strdup buf).map (b :: ·)

/-! ### Entries -/

/-- The address of an entry. -/
abbrev Ptr := ℕ

/-- What an entry stores for the client: the key, the buffer behind `value` (`none` when `strdup`
read past its argument, so that the program does not define its contents) and the size. -/
structure Object where
  key : CString
  value : Option (List UInt8)
  size : ℤ

/-- `struct cache_entry`. -/
structure Entry extends Object where
  prev : Option Ptr
  next : Option Ptr

/-- The static variables of `cache.c` and the allocated entries. -/
structure Cache where
  entries : Ptr → Option Entry
  head : Option Ptr
  tail : Option Ptr
  cacheSize : ℤ

/-- `cache_init`. -/
def cacheInit : Cache := ⟨fun _ => none, none, none, 0⟩

namespace Cache

/-- The heap with `e` at `p`. -/
def put (c : Cache) (p : Ptr) (e : Option Entry) : Cache :=
  { c with entries := Function.update c.entries p e }

/-- `p->prev`. -/
def getPrev (c : Cache) (p : Ptr) : Option (Option Ptr) := (c.entries p).map Entry.prev

/-- `p->next`. -/
def getNext (c : Cache) (p : Ptr) : Option (Option Ptr) := (c.entries p).map Entry.next

/-- `p->prev = v`. -/
def setPrev (c : Cache) (p v : Option Ptr) : Option Cache := do
  let p ← p
  let e ← c.entries p
  some (c.put p (some { e with prev := v }))

/-- `p->next = v`. -/
def setNext (c : Cache) (p v : Option Ptr) : Option Cache := do
  let p ← p
  let e ← c.entries p
  some (c.put p (some { e with next := v }))

end Cache

/-! ### `cache_find` -/

/-- The search loop of `cache_find` from `curr` on, with at most `fuel` tests. -/
def findFrom (c : Cache) (key : CString) : ℕ → Option Ptr → Option (Option Ptr)
  | 0, _ => none
  | _ + 1, none => some none
  | fuel + 1, some curr => do
    let e ← c.entries curr
    if e.key = key then some (some curr) else findFrom c key fuel e.next

/-- The first half of the move to front: the neighbours of `curr` bypass it. -/
def detach (curr : Ptr) (c : Cache) : Option Cache := do
  let c ← c.setNext (← c.getPrev curr) (← c.getNext curr)
  if some curr ≠ c.tail then do c.setPrev (← c.getNext curr) (← c.getPrev curr)
  else do some { c with tail := ← c.getPrev curr }

/-- The move to front of `cache_find`. -/
def moveToFront (curr : Ptr) (c : Cache) : Option Cache :=
  if some curr ≠ c.head then do
    let c ← detach curr c
    let c ← c.setPrev (some curr) none
    let c ← c.setNext (some curr) c.head
    let c ← c.setPrev c.head (some curr)
    some { c with head := some curr }
  else some c

/-- `cache_find`: the returned pointer and the cache. -/
def cacheFind (fuel : ℕ) (key : CString) (c : Cache) : Option (Option Ptr × Cache) := do
  match ← findFrom c key fuel c.head with
  | some curr => return (some curr, ← moveToFront curr c)
  | none => return (none, c)

/-! ### `cache_evict` and `cache_insert` -/

/-- The body of the loop of `cache_evict`. -/
def evictTail (c : Cache) : Option Cache := do
  let t ← c.tail
  let e ← c.entries t
  let c : Cache := { c with cacheSize := c.cacheSize - e.size }
  let c : Cache := { c.put t none with tail := e.prev }
  if c.tail ≠ none then c.setNext c.tail none else some { c with head := none }

/-- `cache_evict`, with at most `fuel` tests of its loop. -/
def cacheEvict (size : ℤ) : ℕ → Cache → Option Cache
  | 0, _ => none
  | fuel + 1, c =>
    if c.cacheSize + size > maxCacheSize ∧ c.tail ≠ none then do
      cacheEvict size fuel (← evictTail c)
    else some c

/-- The first statement of `cache_insert`: make room. -/
def makeRoom (fuel : ℕ) (size : ℤ) (c : Cache) : Option Cache :=
  if c.cacheSize + size > maxCacheSize then cacheEvict size fuel c else some c

/-- `cache_insert`, where `Malloc` returns the address `p`; `none` also when `p` is in use then, so
that `Malloc` cannot return it. -/
def cacheInsert (fuel : ℕ) (p : Ptr) (key : CString) (value : List UInt8) (size : ℤ) (c : Cache) :
    Option Cache := do
  let c ← makeRoom fuel size c
  if (c.entries p).isSome then none
  else
    let c := c.put p (some ⟨⟨key, strdup value, size⟩, none, c.head⟩)
    let c ← if c.head ≠ none then c.setPrev c.head (some p) else some { c with tail := some p }
    let c : Cache := { c with head := some p }
    some { c with cacheSize := c.cacheSize + size }

end SystemProgramming.ProxyLab
