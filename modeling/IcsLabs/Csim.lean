-- The cache simulator of lab8 (csim.c). Every access of the trace looks for its line
-- in one set, and the line that it leaves there carries a reading of `clock()`.
import IcsLabs.Memory
import IcsLabs.Runs

open ics_labs.memory ics_labs.runs

namespace ics_labs.csim

/-- A number that is put into an `int`. -/
def toInt32 (x : Int) : Int := (BitVec.ofInt 32 x).toInt

/-- An `int`. Its overflow, which C leaves undefined, wraps. -/
abbrev CInt := BitVec 32

structure Line where
  valid : Bool
  tag : Int
  used_time : Int
  deriving DecidableEq, Repr

/-- The three results of a simulation. -/
structure Counts (Num : Type) where
  hit : Num
  miss : Num
  eviction : Num
  deriving DecidableEq, Repr

/-- One line of the trace that `fscanf` reads. -/
structure Access where
  op : Char
  addr : Word
  byte_size : Int

/-- The globals. `ticks` is the number of calls of `clock()` so far. -/
structure Csim where
  sets : List (List Line)
  counts : Counts CInt
  ticks : Nat

/-- `1 << n`. From 31 bits on it is not an `int`, and C leaves the shift undefined. -/
def one_shl (n : Nat) : Option CInt := if n < 31 then some ((1 : CInt) <<< n) else none

/-- `((x) >> (s + b)) & ((1L << t) - 1)` with `t = M - s - b`. `1L << t` is no `long` from
`t = 63` on, and `x` is shifted by at most 63 bits; any other shift is undefined. -/
def GET_TAG (s b : Nat) (x : Word) : Option Word :=
  if 1 < s + b ∧ s + b < 64 then
    some (x.sshiftRight (s + b) &&& ((1 : Word) <<< (64 - s - b) - 1))
  else none

/-- `((x) >> b) & ((1 << s) - 1)`. The mask is an `int`. -/
def GET_SET (s b : Nat) (x : Word) : Option Word :=
  (one_shl s).bind fun S =>
    if b < 64 then some (x.sshiftRight b &&& (S - 1).signExtend 64) else none

/-- Is it an access of data? The loop skips every other record. -/
def isData (op : Char) : Bool := op == 'L' || op == 'M' || op == 'S'

/-- A line that holds nothing. -/
def blank : Line := ⟨false, 0, 0⟩

/-- `S` sets of `E` lines each. -/
def Cache_init (s E : Nat) : Option Csim :=
  (one_shl s).map fun S =>
    { sets := List.replicate S.toNat (List.replicate E blank)
      counts := ⟨0, 0, 0⟩
      ticks := 0 }

/-- `cache->sets[i]`. There is none outside the array. -/
def set_at (sets : List (List Line)) (i : Int) : Option (List Line) :=
  if i < 0 then none else sets[i.toNat]?

/-- The index of the valid line with the tag. -/
def find_line (tag : Int) (lines : List Line) : Option Nat :=
  lines.findIdx? fun line => line.valid && line.tag == tag

/-- The loop of `find_store` from index `i` on. `lru` is the index of the least recently
used line so far and `time` its `used_time`. -/
def find_store_loop : List Line → Nat → Nat → Int → Nat × Bool
  | [], _, lru, _ => (lru, true)
  | line :: rest, i, lru, time =>
    if !line.valid then (i, false)
    else if line.valid && line.used_time < time then find_store_loop rest (i + 1) i line.used_time
    else find_store_loop rest (i + 1) lru time

/-- The index of the line to store in, and whether it throws a block out. A set without a
line is not read here; the C code reads its first line all the same. -/
def find_store (lines : List Line) : Nat × Bool :=
  find_store_loop lines 0 0 ((lines.head?.map Line.used_time).getD 0)

/-- The line that `update_cache` leaves. -/
def update_cache (tag : Int) (now : Int) : Line := ⟨true, tag, toInt32 now⟩

/-- A turn of the loop of `deal_with_file` once it has the tag and the lines of the set `i`. -/
def Csim.serve (c : Csim) (op : Char) (tag now : Int) (i : Nat) (lines : List Line) : Csim :=
  let found := find_line tag lines
  let hit_c := found.isSome
  let stored := find_store lines
  let line := found.getD stored.1
  let eviction_c := if hit_c then false else stored.2
  let hit := if hit_c then c.counts.hit + 1 else c.counts.hit
  let miss := if hit_c then c.counts.miss else c.counts.miss + 1
  let eviction := if eviction_c then c.counts.eviction + 1 else c.counts.eviction
  -- the store of an `M` hits
  let hit := if op = 'M' then hit + 1 else hit
  { sets := c.sets.set i (lines.set line (update_cache tag now))
    counts := ⟨hit, miss, eviction⟩
    ticks := c.ticks + 1 }

/-- One turn of the loop of `deal_with_file`. `clock i` is what the call `i` of `clock()`
returns. The tag and the index of the set are `int`s; the offset of the block, which nothing
reads, is left out. -/
def deal_with_access (s b : Nat) (clock : Nat → Int) (c : Csim) (a : Access) : Option Csim :=
  if !isData a.op then some c
  else do
    let tag ← GET_TAG s b a.addr
    let index ← GET_SET s b a.addr
    let set_index := toInt32 index.toInt
    let lines ← set_at c.sets set_index
    return c.serve a.op (toInt32 tag.toInt) (clock c.ticks) set_index.toNat lines

theorem access_skips {s b : Nat} {clock : Nat → Int} {c : Csim} {a : Access}
    (hd : isData a.op = false) : deal_with_access s b clock c a = some c := by
  rw [deal_with_access, hd]
  rfl

/-- `Cache_init` and the loop of `deal_with_file`. Where C leaves a step undefined there is no
result. -/
def deal_with_file (s b E : Nat) (clock : Nat → Int) (trace : List Access) : Option Csim :=
  (Cache_init s E).bind fun c => exec (deal_with_access s b clock) c trace

end ics_labs.csim
