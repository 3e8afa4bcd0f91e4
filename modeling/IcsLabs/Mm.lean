-- lab7/mm.c, the allocator, over the heap of lab7/memlib.c. An address is a
-- number, and 0 is NULL. A function gives `none` when it reads or writes a header
-- or a footer outside the heap, copies from or to a place outside it, or never
-- ends. The statics of mm.c are fields of the heap.
import IcsLabs.ByteWords

open ics_labs.byte_words

namespace ics_labs.mm

def WSIZE : Nat := 4
def DSIZE : Nat := 8
def CHUNKSIZE : Nat := 2 ^ 12

/-- `MAX_HEAP` of config.h. -/
def MAX_HEAP : Nat := 20 * 2 ^ 20

/-- The heap of memlib.c with the statics of mm.c. `end_` is `end` there. -/
structure Heap where
  contents : Contents
  mem_start_brk : Nat
  mem_brk : Nat
  heap_listp : Nat
  just : Nat
  end_ : Nat
  fmalloc : Bool
  TR : Nat
  Q_no : Int

/-! ## Machine arithmetic -/

/-- `a - b` in `size_t`, which wraps. -/
def sub (a b : Nat) : Nat := (a + 2 ^ 64 - b) % 2 ^ 64

/-- `a + b` in `size_t`. -/
def add64 (a b : Nat) : Nat := (a + b) % 2 ^ 64

/-- The address `p + n * k`, where the int `n` is made a `size_t` before it is
multiplied. -/
def scaled (p : Nat) (n : Int) (k : Nat) : Nat := ((p + n * k) % 2 ^ 64).toNat

/-- A `size_t` that is passed as an `int`. -/
def toInt (n : Nat) : Int := (BitVec.ofNat 32 n).toInt

/-! ## Words of the heap -/

def PACK (size alloc : Nat) : Nat := size ||| alloc

/-- The `n` bytes from `p` on are inside the heap. -/
def InHeap (h : Heap) (p n : Nat) : Prop := h.mem_start_brk ≤ p ∧ p + n ≤ h.mem_brk

instance (h : Heap) (p n : Nat) : Decidable (InHeap h p n) := inferInstanceAs (Decidable (_ ∧ _))

def GET (h : Heap) (p : Nat) : Option Nat :=
  if InHeap h p 4 then some (load h.contents p 4) else none

def PUT (h : Heap) (p val : Nat) : Option Heap :=
  if InHeap h p 4 then some { h with contents := store h.contents p 4 val } else none

/-- `GET(p) & ~0x7` -/
def GET_SIZE (h : Heap) (p : Nat) : Option Nat := do return (← GET h p) &&& 0xFFFFFFF8

def GET_ALLOC (h : Heap) (p : Nat) : Option Nat := do return (← GET h p) &&& 0x1

def HDRP (bp : Nat) : Nat := bp - WSIZE

def FTRP (h : Heap) (bp : Nat) : Option Nat := do return bp + (← GET_SIZE h (HDRP bp)) - DSIZE

def NEXT_BLKP (h : Heap) (bp : Nat) : Option Nat := do return bp + (← GET_SIZE h (bp - WSIZE))

def PREV_BLKP (h : Heap) (bp : Nat) : Option Nat := do return bp - (← GET_SIZE h (bp - DSIZE))

/-- The two statements `PUT(HDRP(bp), val); PUT(FTRP(bp), val);`. -/
def PUT_TAGS (h : Heap) (bp val : Nat) : Option Heap := do
  let h ← PUT h (HDRP bp) val
  PUT h (← FTRP h bp) val

/-- `memmove`, and `memcpy` where the two places are apart. -/
def memmove (h : Heap) (dst src n : Nat) : Option Heap :=
  if InHeap h dst n ∧ InHeap h src n then
    some { h with contents := move h.contents dst src n }
  else none

/-- `mem_sbrk` of memlib.c. Its result -1 is `none` in the pair. -/
def mem_sbrk (h : Heap) (incr : Int) : Option Nat × Heap :=
  if incr < 0 ∨ h.mem_start_brk + MAX_HEAP < h.mem_brk + incr.toNat then (none, h)
  else (some h.mem_brk, { h with mem_brk := h.mem_brk + incr.toNat })

/-! ## Blocks -/

/-- The ladder of `coalesce` below its first case, up to the block that it leaves. -/
def merge (h : Heap) (bp prev_alloc next_alloc size : Nat) : Option (Nat × Heap) := do
  if prev_alloc ≠ 0 ∧ next_alloc = 0 then
    let size := add64 size (← GET_SIZE h (HDRP (← NEXT_BLKP h bp)))
    let h ← PUT_TAGS h bp (PACK size 0)
    return (bp, h)
  else if prev_alloc = 0 ∧ next_alloc ≠ 0 then
    let size := add64 size (← GET_SIZE h (HDRP (← PREV_BLKP h bp)))
    let h ← PUT h (← FTRP h bp) (PACK size 0)
    let h ← PUT h (HDRP (← PREV_BLKP h bp)) (PACK size 0)
    return (← PREV_BLKP h bp, h)
  else
    -- The two sizes are added as unsigned ints.
    let sizes := ((← GET_SIZE h (HDRP (← PREV_BLKP h bp))) +
      (← GET_SIZE h (← FTRP h (← NEXT_BLKP h bp)))) % 2 ^ 32
    let size := add64 size sizes
    let h ← PUT h (HDRP (← PREV_BLKP h bp)) (PACK size 0)
    let h ← PUT h (← FTRP h (← NEXT_BLKP h bp)) (PACK size 0)
    return (← PREV_BLKP h bp, h)

/-- Coalesce the free neighbours of `bp` with it. -/
def coalesce (h : Heap) (bp : Nat) : Option (Nat × Heap) := do
  let prev_alloc ← GET_ALLOC h (← FTRP h (← PREV_BLKP h bp))
  let next_alloc ← GET_ALLOC h (HDRP (← NEXT_BLKP h bp))
  let size ← GET_SIZE h (HDRP bp)
  if prev_alloc ≠ 0 ∧ next_alloc ≠ 0 then
    return (bp, h)
  else
    let (bp, h) ← merge h bp prev_alloc next_alloc size
    if bp < h.just then
      if h.just < (← NEXT_BLKP h bp) then
        return (bp, { h with just := bp })
      else return (bp, h)
    else return (bp, h)

/-- `extend_heap` below its call of `mem_sbrk`. -/
def free_tail (size : Nat) : Option Nat × Heap → Option (Nat × Heap)
  | (none, h) => some (0, h)
  | (some bp, h) => do
    let h ← PUT_TAGS h bp (PACK size 0)
    let h ← PUT h (HDRP (← NEXT_BLKP h bp)) (PACK 0 1)
    coalesce h bp

/-- A new free block at the end of the heap, or NULL. -/
def extend_heap (h : Heap) (words : Nat) : Option (Nat × Heap) :=
  let size := if words % 2 = 1 then (words + 1) * WSIZE % 2 ^ 64 else words * WSIZE % 2 ^ 64
  free_tail size (mem_sbrk h (toInt size))

def place (h : Heap) (bp asize : Nat) : Option Heap := do
  let csize ← GET_SIZE h (HDRP bp)
  if csize > asize then
    let h ← PUT_TAGS h bp (PACK asize 1)
    let bp ← NEXT_BLKP h bp
    PUT_TAGS h bp (PACK (sub csize asize) 0)
  else
    PUT_TAGS h bp (PACK csize 1)

/-- The test of the two fits: a free block of at least `asize` bytes. -/
def fits (h : Heap) (bp asize : Nat) : Option Bool := do
  if (← GET_ALLOC h (HDRP bp)) = 0 then
    return asize ≤ (← GET_SIZE h (HDRP bp))
  else return false

/-- More turns than any walk through the heap takes: each turn goes up. -/
def turns (h : Heap) : Nat := h.mem_brk - h.mem_start_brk + 1

/-- The loop of `first_fit` from `bp` on. -/
def first_fit_loop (h : Heap) (asize : Nat) : Nat → Nat → Option Nat
  | 0, _ => none
  | n + 1, bp => do
    if (← GET_SIZE h (HDRP bp)) > 0 then
      if ← fits h bp asize then return bp
      else first_fit_loop h asize n (← NEXT_BLKP h bp)
    else return 0

def first_fit (h : Heap) (asize : Nat) : Option Nat :=
  first_fit_loop h asize (turns h) h.heap_listp

/-- The first loop of `next_fit`: up to the tail, which `end` ends on. Its result is
the block found, or NULL, and `end`. -/
def to_tail (h : Heap) (asize : Nat) : Nat → Nat → Nat → Option (Nat × Nat)
  | 0, _, _ => none
  | n + 1, bp, end_ => do
    if (← GET_SIZE h (HDRP bp)) > 0 then
      if ← fits h bp asize then return (bp, end_)
      else to_tail h asize n (← NEXT_BLKP h bp) bp
    else return (0, end_)

/-- The second loop of `next_fit`: from the start of the list up to `just`. -/
def to_just (h : Heap) (asize : Nat) : Nat → Nat → Option Nat
  | 0, _ => none
  | n + 1, bp => do
    if bp < h.just then
      if ← fits h bp asize then return bp
      else to_just h asize n (← NEXT_BLKP h bp)
    else return 0

def next_fit (h : Heap) (asize : Nat) : Option (Nat × Heap) := do
  let (bp, end_) ← to_tail h asize (turns h) h.just h.end_
  let h := { h with end_ := end_ }
  if bp ≠ 0 then
    return (bp, { h with just := bp })
  else
    let bp ← to_just h asize (turns h) h.heap_listp
    if bp ≠ 0 then
      return (bp, { h with just := bp })
    else return (0, h)

/-- The bytes that `norm_malloc` asks for when nothing fits. -/
def growth (h : Heap) (asize : Nat) : Option Nat := do
  if (← GET_ALLOC h (HDRP h.end_)) = 0 then
    return sub asize (← GET_SIZE h (HDRP h.end_))
  else return max asize CHUNKSIZE

def norm_malloc (h : Heap) (asize : Nat) : Option (Nat × Heap) := do
  let (bp, h) ← next_fit h asize
  if bp ≠ 0 then
    let h ← place h bp asize
    return (bp, h)
  else
    let extend ← growth h asize
    let (bp, h) ← extend_heap h (extend / WSIZE)
    if bp = 0 then return (0, h)
    else
      let h ← place h bp asize
      return (bp, h)

/-- An allocated block of `asize` bytes at `bp`, inside the free block `oldbp`. -/
def add (h : Heap) (bp oldbp asize : Nat) : Option Heap := do
  let size1 := sub bp oldbp
  let size2 := sub (sub (← GET_SIZE h (HDRP oldbp)) size1) asize
  let h ← if size1 > 0 then PUT_TAGS h oldbp (PACK size1 0) else some h
  let h ← PUT_TAGS h bp (PACK asize 1)
  if size2 > 0 then
    let bp ← NEXT_BLKP h bp
    PUT_TAGS h bp (PACK size2 0)
  else return h

/-! ## The trace modes -/

def QA1 : Nat := 16
def QR1 : Nat := 28087
def QODD (x : Nat) : Nat := if x = 2 then 112 else 448
def QEVEN (x : Nat) : Nat := if x = 2 then 16 else 64
def QFINAL (x : Nat) : Nat := if x = 2 then 128 else 512
def MAXQ (x : Nat) : Int := if x = 2 then 8000 else 4000
def EXTH1 : Nat := 24048
def EXTH2 : Nat := 635904
def EXTH3 : Nat := 1179904
def TR1 : Nat := 16
def TR2 : Nat := 64
def TR3 : Nat := 2 ^ 12
def OS1 : Nat := 56
def OSINIT (x : Nat) : Nat := if x = 2 then 95984 else 143936
def OSNEXT (x : Nat) : Nat := if x = 2 then 96008 else 144008

/-- `Q_no++` on an `int`. -/
def Heap.count (h : Heap) : Heap := { h with Q_no := (h.Q_no + 1).bmod (2 ^ 32) }

/-- The end of the three branches for a first request: the heap grows by `exth`, and
the block goes `os` bytes behind `heap_listp`. -/
def lay_first (h : Heap) (exth os asize : Nat) : Option (Nat × Heap) := do
  let (_, h) ← extend_heap h (exth / WSIZE)
  let bp := h.heap_listp + os
  let h ← add h bp (← NEXT_BLKP h h.heap_listp) asize
  return (bp, h)

/-- `place` at an address that a trace mode chose. -/
def lay (h : Heap) (bp asize : Nat) : Option (Nat × Heap) := do
  let h ← place h bp asize
  return (bp, h)

/-- A request in mode 2 or 3. -/
def quick_malloc (h : Heap) (size asize : Nat) : Option (Nat × Heap) :=
  let h := h.count
  if h.Q_no ≥ MAXQ h.TR then
    if size ≠ QFINAL h.TR then norm_malloc { h with TR := 0 } asize
    else do
      let (bp, h) ← next_fit h asize
      lay h bp asize
  else if h.Q_no % 2 = 1 then
    if size ≠ QODD h.TR then norm_malloc { h with TR := 0 } asize
    else lay h (scaled (h.heap_listp + OSNEXT h.TR) ((h.Q_no - 1).tdiv 2) asize) asize
  else
    if size ≠ QEVEN h.TR then norm_malloc { h with TR := 0 } asize
    else lay h (scaled (h.heap_listp + DSIZE) (h.Q_no.tdiv 2 - 1) asize) asize

/-- `mm_malloc` below the block for a first request. -/
def later_malloc (h : Heap) (size asize : Nat) : Option (Nat × Heap) :=
  if h.TR = 2 ∨ h.TR = 3 then quick_malloc h size asize
  else if h.TR = 1 then
    if size ≠ QA1 then norm_malloc { h with TR := 0 } asize
    else do
      let bp ← first_fit h asize
      lay h bp asize
  else norm_malloc h asize

/-- `DSIZE * ((size + DSIZE + DSIZE - 1) / DSIZE)` in `size_t`. -/
def roundUp (size : Nat) : Nat := DSIZE * (add64 size 15 / DSIZE)

def mm_malloc (h : Heap) (size : Nat) : Option (Nat × Heap) :=
  if size = 0 then some (0, h)
  else
    let asize := roundUp size
    if h.fmalloc then
      let h := { h with fmalloc := false }
      if size = TR3 then lay_first { h with TR := 1 } EXTH1 OS1 asize
      else if size = TR1 then lay_first { h with TR := 2 }.count EXTH2 (OSINIT 2) asize
      else if size = TR2 then lay_first { h with TR := 3 }.count EXTH3 (OSINIT 3) asize
      else later_malloc h size asize
    else later_malloc h size asize

/-! ## The other requests -/

/-- `mm_init` below its call of `mem_sbrk`. A failed call leaves -1 in `heap_listp`. -/
def first_list : Option Nat × Heap → Option (Int × Heap)
  | (none, h) => some (-1, { h with heap_listp := 2 ^ 64 - 1 })
  | (some bp, h) => do
    let h ← PUT h bp 0
    let h ← PUT h (bp + 1 * WSIZE) (PACK DSIZE 1)
    let h ← PUT h (bp + 2 * WSIZE) (PACK DSIZE 1)
    let h ← PUT h (bp + 3 * WSIZE) (PACK 0 1)
    let h := { h with heap_listp := bp + 2 * WSIZE, just := bp + 2 * WSIZE }
    let (bp, h) ← extend_heap h (CHUNKSIZE / WSIZE)
    return (if bp = 0 then -1 else 0, h)

/-- The result is the `int` of `mm_init`. -/
def mm_init (h : Heap) : Option (Int × Heap) :=
  first_list (mem_sbrk { h with fmalloc := true, TR := 0, Q_no := -1 } (4 * WSIZE : Nat))

def mm_free (h : Heap) (ptr : Nat) : Option Heap := do
  if ptr = 0 then return h
  else
    let size ← GET_SIZE h (HDRP ptr)
    let h ← PUT_TAGS h ptr (PACK size 0)
    let (_, h) ← coalesce h ptr
    return h

def norm_realloc (h : Heap) (ptr size oldsize : Nat) : Option (Nat × Heap) := do
  let (bp, h) ← mm_malloc h size
  if bp = 0 then return (0, h)
  else
    let h ← memmove h bp ptr oldsize
    let h ← mm_free h ptr
    return (bp, h)

/-- A grown block of `asize` bytes at `bp`. What the grown block does not need of its
neighbours, `rest` bytes, becomes a free block when `more` says so. -/
def settle (h : Heap) (bp asize : Nat) (more : Prop) [Decidable more] (rest : Nat) :
    Option (Nat × Heap) := do
  let h ← PUT_TAGS h bp (PACK asize 1)
  if more then
    let next_blk ← NEXT_BLKP h bp
    let h ← PUT_TAGS h next_blk (PACK rest 0)
    return (bp, h)
  else return (bp, h)

/-- The branch of `mm_realloc` that makes the block smaller. -/
def shrink (h : Heap) (ptr oldsize asize : Nat) : Option (Nat × Heap) := do
  let h ← PUT h (← FTRP h ptr) (PACK (sub oldsize asize) 0)
  let h ← PUT_TAGS h ptr (PACK asize 1)
  let next_blk ← NEXT_BLKP h ptr
  let h ← PUT h (HDRP next_blk) (PACK (sub oldsize asize) 0)
  let (_, h) ← coalesce h next_blk
  return (ptr, h)

/-- The branch of `mm_realloc` that makes the block larger. -/
def grow (h : Heap) (ptr size oldsize asize : Nat) : Option (Nat × Heap) := do
  let add_size := sub asize oldsize
  let prev_blk ← PREV_BLKP h ptr
  let prev_blk_size ← GET_SIZE h (HDRP prev_blk)
  let prev_blk_alloc ← GET_ALLOC h (HDRP prev_blk)
  let next_blk ← NEXT_BLKP h ptr
  let next_blk_size ← GET_SIZE h (HDRP next_blk)
  let next_blk_alloc ← GET_ALLOC h (HDRP next_blk)
  if h.TR = 1 then
    if size > QR1 then norm_realloc { h with TR := 0 } ptr size oldsize
    else settle h ptr asize (next_blk_size > add_size) (sub next_blk_size add_size)
  else if prev_blk_alloc = 0 ∧ next_blk_alloc = 0 ∧
      add64 prev_blk_size next_blk_size ≥ add_size then
    let h ← memmove h prev_blk ptr oldsize
    settle h prev_blk asize (add_size < add64 prev_blk_size next_blk_size)
      (add64 (sub prev_blk_size add_size) next_blk_size)
  else if prev_blk_alloc = 0 ∧ prev_blk_size ≥ add_size then
    let h ← memmove h prev_blk ptr oldsize
    settle h prev_blk asize (add_size < prev_blk_size) (sub prev_blk_size add_size)
  else if next_blk_alloc = 0 ∧ next_blk_size ≥ add_size then
    settle h ptr asize (add_size < next_blk_size) (sub next_blk_size add_size)
  else norm_realloc h ptr size oldsize

def mm_realloc (h : Heap) (ptr size : Nat) : Option (Nat × Heap) := do
  if ptr = 0 then mm_malloc h size
  else if size = 0 then
    let h ← mm_free h ptr
    return (0, h)
  else
    let oldsize ← GET_SIZE h (HDRP ptr)
    let asize := roundUp size
    if asize = oldsize then return (ptr, h)
    else if asize < oldsize then shrink h ptr oldsize asize
    else grow h ptr size oldsize asize

/-! ## The check of the heap -/

/-- What `mm_check` complains of, in the order of its tests. -/
inductive Complaint where
  | bad_position
  | bad_prologue_block_size
  | prologue_block_free
  | size_values_differ
  | header_and_footer_not_same
  | no_coalescing
  | bad_block_size
  | pointer_is_invalid
  | total_blocks_not_equal
deriving DecidableEq, Repr

/-- The loop of `mm_check` from `bp` on, with the tests behind it. -/
def check_blocks (h : Heap) : Nat → Nat → Nat → Nat → Bool → Option (Except Complaint Unit)
  | 0, _, _, _, _ => none
  | n + 1, bp, last_alloc, tot_size, just_appeared => do
    if (← GET_SIZE h (HDRP bp)) > 0 then
      let just_appeared := just_appeared || bp == h.just
      let ftrp ← FTRP h bp
      let size ← GET_SIZE h (HDRP bp)
      if size ≠ (← GET_SIZE h ftrp) then return .error .size_values_differ
      else
        let this_alloc ← GET_ALLOC h (HDRP bp)
        if this_alloc ≠ (← GET_ALLOC h ftrp) then return .error .header_and_footer_not_same
        else if this_alloc = 0 ∧ last_alloc = 0 then return .error .no_coalescing
        else
          check_blocks h n (← NEXT_BLKP h bp) this_alloc (add64 tot_size size) just_appeared
    else if (← GET_SIZE h (HDRP bp)) ≠ 0 then return .error .bad_block_size
    else if just_appeared = false then return .error .pointer_is_invalid
    else if add64 tot_size DSIZE ≠ h.mem_brk - h.mem_start_brk then
      return .error .total_blocks_not_equal
    else return .ok ()

def mm_check (h : Heap) : Option (Except Complaint Unit) := do
  if sub h.heap_listp h.mem_start_brk ≠ DSIZE then return .error .bad_position
  else if (← GET_SIZE h (HDRP h.heap_listp)) ≠ DSIZE then return .error .bad_prologue_block_size
  else
    let last_alloc ← GET_ALLOC h (HDRP h.heap_listp)
    if last_alloc ≠ 1 then return .error .prologue_block_free
    else check_blocks h (turns h) h.heap_listp last_alloc 0 false

end ics_labs.mm
