import Mathlib.Algebra.Ring.Int.Defs
import SystemProgramming.Library.ByteMemory

/-!
# The explicit-free-list allocator (`mm.c`) over the simulated heap (`memlib.c`)

A function-by-function embedding of the allocator as the `-m32` build computes it: a word, a
pointer and a `size_t` are 32 bits wide, `NULL` is `0`, and the tags, the free-list links and the
client's data all live in one byte memory.  Sizes are computed modulo `2^32`.

How a pointer and an integer are added and subtracted is a parameter of the functions,
`PointerArith`: `wrapping` is what the build computes, and `mathematical`, where addresses are
integers without bound, is meant where no other is named.

The only loop is the first-fit search of `find_fit`, which follows stored pointers: it takes the
number of iterations it may make, and `none` means that it has not returned within them.
-/

namespace SystemProgramming.MallocLab

open ByteMemory

/-! ### `config.h` and `memlib.c` -/

/-- `MAX_HEAP`: 20 MB. -/
def maxHeap : ℕ := 20 * (1 <<< 20)

/-- The storage `mem_init` obtained for the simulated heap, an 8-aligned object of `MAX_HEAP` bytes
in the 32-bit address space, with the two static variables that describe it: the first byte of the
heap and the largest legal heap address. -/
structure Arena where
  memStartBrk : ℕ
  memMaxAddr : ℕ
  size : memMaxAddr = memStartBrk + maxHeap
  aligned : memStartBrk % 8 = 0
  fits : memMaxAddr < 2 ^ 32

/-- The arena in numbers, for `omega`. -/
theorem Arena.bounds (A : Arena) : A.memMaxAddr = A.memStartBrk + 20971520 ∧
    A.memStartBrk % 8 = 0 ∧ A.memStartBrk + 20971520 < 2 ^ 32 := by
  have hsize : A.memMaxAddr = A.memStartBrk + 20971520 := A.size
  exact ⟨hsize, A.aligned, hsize ▸ A.fits⟩

/-- The bytes of the process and the static variables the allocator's calls read and write. -/
structure Heap where
  mem : Mem
  memBrk : ℕ
  heapListp : ℕ
  freelistHead : ℕ

/-- Subtraction of two `size_t`. -/
def subSize (a b : ℕ) : ℕ := (a + 2 ^ 32 - b) % 2 ^ 32

/-- The sum and the difference of a pointer and an integer. -/
class PointerArith where
  add : ℕ → ℕ → ℕ
  sub : ℕ → ℕ → ℕ

namespace PointerArith

/-- Addresses as mathematical integers. -/
instance (priority := low) mathematical : PointerArith := ⟨(· + ·), (· - ·)⟩

/-- Addresses modulo `2^32`. -/
@[reducible] def wrapping : PointerArith := ⟨fun p n => (p + n) % 2 ^ 32, subSize⟩

end PointerArith

/-- Conversion of a `size_t` to `int`, as in the call `mem_sbrk(size)`. -/
def toInt32 (n : ℕ) : ℤ := if n < 2 ^ 31 then n else (n : ℤ) - 2 ^ 32

/-- `mem_sbrk`; `none` is the return value `(void *)-1`. -/
def memSbrk [P : PointerArith] (A : Arena) (incr : ℤ) (h : Heap) : Option (ℕ × Heap) :=
  if incr < 0 ∨ P.add h.memBrk incr.toNat > A.memMaxAddr then none
  else some (h.memBrk, { h with memBrk := P.add h.memBrk incr.toNat })

/-! ### The macros of `mm.c` -/

/-- `WSIZE`: word and header/footer size. -/
def wsize : ℕ := 4

/-- `DSIZE`: double word size. -/
def dsize : ℕ := 8

/-- `CHUNKSIZE`: extend the heap by this amount. -/
def chunksize : ℕ := 1 <<< 12

/-- `~0x7` as a 32-bit word. -/
def notSeven : ℕ := 0xFFFFFFF8

/-- `PACK(size, alloc)`. -/
def pack (size alloc : ℕ) : ℕ := size ||| alloc

/-- `GET(p)`. -/
def get (m : Mem) (p : ℕ) : ℕ := readWord m p

/-- `PUT(p, val)`. -/
def Heap.put (h : Heap) (p val : ℕ) : Heap := { h with mem := writeWord h.mem p val }

/-- `GET_SIZE(p)`. -/
def getSize (m : Mem) (p : ℕ) : ℕ := get m p &&& notSeven

/-- `GET_ALLOC(p)`. -/
def getAlloc (m : Mem) (p : ℕ) : ℕ := get m p &&& 0x1

/-- `HDRP(bp)`. -/
def hdrp [P : PointerArith] (bp : ℕ) : ℕ := P.sub bp wsize

/-- `FTRP(bp)`. -/
def ftrp [P : PointerArith] (m : Mem) (bp : ℕ) : ℕ := P.sub (P.add bp (getSize m (hdrp bp))) dsize

/-- `NEXT_BLKP(bp)`. -/
def nextBlkp [P : PointerArith] (m : Mem) (bp : ℕ) : ℕ := P.add bp (getSize m (P.sub bp wsize))

/-- `PREV_BLKP(bp)`. -/
def prevBlkp [P : PointerArith] (m : Mem) (bp : ℕ) : ℕ := P.sub bp (getSize m (P.sub bp dsize))

/-- `NEXT_FREE_BLKP(bp)`: the pointer stored at `bp`. -/
def nextFreeBlkp (m : Mem) (bp : ℕ) : ℕ := readWord m bp

/-- `PREV_FREE_BLKP(bp)`: the pointer stored one word later. -/
def prevFreeBlkp [P : PointerArith] (m : Mem) (bp : ℕ) : ℕ := readWord m (P.add bp wsize)

/-- `SET_NEXT_FREE_BLKP(bp, next)`. -/
def Heap.setNextFreeBlkp (h : Heap) (bp next : ℕ) : Heap := h.put bp next

/-- `SET_PREV_FREE_BLKP(bp, prev)`. -/
def Heap.setPrevFreeBlkp [P : PointerArith] (h : Heap) (bp prev : ℕ) : Heap :=
  h.put (P.add bp wsize) prev

/-- `ALIGN(size)` in 32-bit arithmetic. -/
def align (size : ℕ) : ℕ := (size + (8 - 1)) % 2 ^ 32 &&& notSeven

/-- `SIZE_T_SIZE`, with `sizeof(size_t) = 4`. -/
def sizeTSize : ℕ := align 4

/-! ### The free list -/

/-- `insert_free_block`. -/
def insertFreeBlock [P : PointerArith] (bp : ℕ) (h : Heap) : Heap :=
  let h := h.setPrevFreeBlkp bp 0
  let h := h.setNextFreeBlkp bp h.freelistHead
  let h := if h.freelistHead ≠ 0 then h.setPrevFreeBlkp h.freelistHead bp else h
  { h with freelistHead := bp }

/-- `remove_free_block`. -/
def removeFreeBlock [P : PointerArith] (bp : ℕ) (h : Heap) : Heap :=
  let h :=
    if prevFreeBlkp h.mem bp ≠ 0 then
      h.setNextFreeBlkp (prevFreeBlkp h.mem bp) (nextFreeBlkp h.mem bp)
    else { h with freelistHead := nextFreeBlkp h.mem bp }
  if nextFreeBlkp h.mem bp ≠ 0 then
    h.setPrevFreeBlkp (nextFreeBlkp h.mem bp) (prevFreeBlkp h.mem bp)
  else h

/-- The loop of `find_fit`, with at most `fuel` iterations. -/
def findFitFrom [P : PointerArith] (m : Mem) (size : ℕ) : ℕ → ℕ → Option ℕ
  | 0, _ => none
  | fuel + 1, bp =>
    if getAlloc m (hdrp bp) = 0 then
      if getSize m (hdrp bp) ≥ size then some bp
      else findFitFrom m size fuel (nextFreeBlkp m bp)
    else some 0

/-- `find_fit`. -/
def findFit [P : PointerArith] (fuel size : ℕ) (h : Heap) : Option ℕ :=
  findFitFrom h.mem size fuel h.freelistHead

/-! ### Coalescing, extending and placing -/

/-- `coalesce`, case 2: the previous block is allocated, the next block is free. -/
def coalesceNext [P : PointerArith] (bp : ℕ) (h : Heap) : ℕ × Heap :=
  let size := getSize h.mem (hdrp bp)
  let size := (size + getSize h.mem (hdrp (nextBlkp h.mem bp))) % 2 ^ 32
  let h := removeFreeBlock (nextBlkp h.mem bp) h
  let h := h.put (hdrp bp) (pack size 0)
  let h := h.put (ftrp h.mem bp) (pack size 0)
  (bp, h)

/-- `coalesce`, case 3: the previous block is free, the next block is allocated. -/
def coalescePrev [P : PointerArith] (bp : ℕ) (h : Heap) : ℕ × Heap :=
  let size := getSize h.mem (hdrp bp)
  let size := (size + getSize h.mem (hdrp (prevBlkp h.mem bp))) % 2 ^ 32
  let h := removeFreeBlock (prevBlkp h.mem bp) h
  let h := h.put (ftrp h.mem bp) (pack size 0)
  let h := h.put (hdrp (prevBlkp h.mem bp)) (pack size 0)
  (prevBlkp h.mem bp, h)

/-- `coalesce`, case 4: both neighbours are free. -/
def coalesceBoth [P : PointerArith] (bp : ℕ) (h : Heap) : ℕ × Heap :=
  let size := getSize h.mem (hdrp bp)
  let size := (size + (getSize h.mem (hdrp (prevBlkp h.mem bp)) +
    getSize h.mem (ftrp h.mem (nextBlkp h.mem bp)))) % 2 ^ 32
  let h := removeFreeBlock (prevBlkp h.mem bp) h
  let h := removeFreeBlock (nextBlkp h.mem bp) h
  let h := h.put (hdrp (prevBlkp h.mem bp)) (pack size 0)
  let h := h.put (ftrp h.mem (nextBlkp h.mem bp)) (pack size 0)
  (prevBlkp h.mem bp, h)

/-- The case distinction of `coalesce`: the merged block and the heap before it is inserted. -/
def coalesceCases [P : PointerArith] (bp : ℕ) (h : Heap) : ℕ × Heap :=
  let prevAlloc := getAlloc h.mem (ftrp h.mem (prevBlkp h.mem bp))
  let nextAlloc := getAlloc h.mem (hdrp (nextBlkp h.mem bp))
  if prevAlloc ≠ 0 ∧ nextAlloc = 0 then coalesceNext bp h
  else if prevAlloc = 0 ∧ nextAlloc ≠ 0 then coalescePrev bp h
  else if prevAlloc = 0 ∧ nextAlloc = 0 then coalesceBoth bp h
  else (bp, h)

/-- `coalesce`. -/
def coalesce [P : PointerArith] (bp : ℕ) (h : Heap) : ℕ × Heap :=
  let r := coalesceCases bp h
  (r.1, insertFreeBlock r.1 r.2)

/-- `extend_heap`; the returned pointer is `0` when the break cannot move. -/
def extendHeap [P : PointerArith] (A : Arena) (words : ℕ) (h : Heap) : ℕ × Heap :=
  let size := if words % 2 ≠ 0 then (words + 1) * wsize % 2 ^ 32 else words * wsize % 2 ^ 32
  match memSbrk A (toInt32 size) h with
  | none => (0, h)
  | some (bp, h) =>
    let h := h.put (hdrp bp) (pack size 0)
    let h := h.put (ftrp h.mem bp) (pack size 0)
    let h := h.put (hdrp (nextBlkp h.mem bp)) (pack 0 1)
    coalesce bp h

/-- `place`. -/
def place [P : PointerArith] (bp asize : ℕ) (h : Heap) : Heap :=
  let csize := getSize h.mem (hdrp bp)
  let h := removeFreeBlock bp h
  if subSize csize asize ≥ 2 * dsize then
    let h := h.put (hdrp bp) (pack asize 1)
    let h := h.put (ftrp h.mem bp) (pack asize 1)
    let bp := nextBlkp h.mem bp
    let h := h.put (hdrp bp) (pack (subSize csize asize) 0)
    let h := h.put (ftrp h.mem bp) (pack (subSize csize asize) 0)
    insertFreeBlock bp h
  else
    let h := h.put (hdrp bp) (pack csize 1)
    h.put (ftrp h.mem bp) (pack csize 1)

/-! ### The public functions -/

/-- The prologue and epilogue blocks `mm_init` writes into the initial heap space at `p`. -/
def initBlocks [P : PointerArith] (p : ℕ) (h : Heap) : Heap :=
  let h := h.put p 0
  let h := h.put (P.add p (1 * wsize)) (pack (2 * dsize) 1)
  let h := h.put (P.add p (2 * wsize)) 0
  let h := h.put (P.add p (3 * wsize)) 0
  let h := h.put (P.add p (4 * wsize)) (pack (2 * dsize) 1)
  let h := h.put (P.add p (5 * wsize)) (pack 0 1)
  let h := { h with heapListp := P.add p (2 * wsize) }
  { h with freelistHead := h.heapListp }

/-- `mm_init`: the return value and the heap.  When the break cannot move, `heap_listp` is left with the
`(void *)-1` that `mem_sbrk` returns. -/
def mmInit [P : PointerArith] (A : Arena) (h : Heap) : ℤ × Heap :=
  match memSbrk A (6 * wsize : ℕ) h with
  | none => (-1, { h with heapListp := 2 ^ 32 - 1 })
  | some (p, h) =>
    let r := extendHeap A (chunksize / wsize) (initBlocks p h)
    if r.1 = 0 then (-1, r.2) else (0, r.2)

/-- The adjusted block size `mm_malloc` computes from a request. -/
def adjust (size : ℕ) : ℕ := align ((size + sizeTSize) % 2 ^ 32)

/-- `mm_malloc`: the returned pointer and the heap. -/
def mmMalloc [P : PointerArith] (A : Arena) (fuel size : ℕ) (h : Heap) : Option (ℕ × Heap) :=
  if size = 0 then some (0, h)
  else
    match findFit fuel (adjust size) h with
    | none => none
    | some bp =>
      if bp ≠ 0 then some (bp, place bp (adjust size) h)
      else
        let extendsize := if adjust size > chunksize then adjust size else chunksize
        let r := extendHeap A (extendsize / wsize) h
        if r.1 = 0 then some (0, r.2)
        else some (r.1, place r.1 (adjust size) r.2)

/-- `mm_free`. -/
def mmFree [P : PointerArith] (ptr : ℕ) (h : Heap) : Heap :=
  let size := getSize h.mem (hdrp ptr)
  let h := h.put (hdrp ptr) (pack size 0)
  let h := h.put (ftrp h.mem ptr) (pack size 0)
  (coalesce ptr h).2

/-- `mm_realloc`: the returned pointer and the heap. -/
def mmRealloc [P : PointerArith] (A : Arena) (fuel ptr size : ℕ) (h : Heap) : Option (ℕ × Heap) :=
  if ptr = 0 then mmMalloc A fuel size h
  else if size = 0 then some (0, mmFree ptr h)
  else
    match mmMalloc A fuel size h with
    | none => none
    | some (newptr, h) =>
      if newptr = 0 then some (0, h)
      else
        let copySize := getSize h.mem (hdrp ptr)
        let copySize := if size < copySize then size else copySize
        let h := { h with mem := copyBytes h.mem newptr ptr copySize }
        some (newptr, mmFree ptr h)

/-! ### The macros with mathematical addresses -/

section Mathematical

variable (m : Mem) (bp : ℕ)

theorem mathematical_add (n : ℕ) : PointerArith.mathematical.add bp n = bp + n := rfl

theorem hdrp_def : hdrp bp = bp - wsize := rfl

theorem ftrp_def : ftrp m bp = bp + getSize m (hdrp bp) - dsize := rfl

theorem nextBlkp_def : nextBlkp m bp = bp + getSize m (bp - wsize) := rfl

theorem prevBlkp_def : prevBlkp m bp = bp - getSize m (bp - dsize) := rfl

theorem prevFreeBlkp_def : prevFreeBlkp m bp = readWord m (bp + wsize) := rfl

theorem setPrevFreeBlkp_def (h : Heap) (prev : ℕ) :
    h.setPrevFreeBlkp bp prev = h.put (bp + wsize) prev := rfl

theorem memSbrk_def (A : Arena) (incr : ℤ) (h : Heap) :
    memSbrk A incr h = if incr < 0 ∨ h.memBrk + incr.toNat > A.memMaxAddr then none
      else some (h.memBrk, { h with memBrk := h.memBrk + incr.toNat }) := rfl

end Mathematical

end SystemProgramming.MallocLab
