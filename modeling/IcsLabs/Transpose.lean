-- lab8/trans.c: the transpose functions over the two flat arrays of tracegen. An access
-- outside an array has no result, and every access is written down.
import Mathlib.Logic.Function.Basic
import IcsLabs.Commands

open ics_labs.commands

namespace ics_labs.transpose

/-- The ints of each array. -/
def SIZE : Nat := 256 * 256

inductive Matrix
  | A
  | B
deriving DecidableEq

/-- One access: which matrix, which row and which column, and whether it writes. -/
structure Access where
  matrix : Matrix
  row : Nat
  col : Nat
  write : Bool
deriving DecidableEq

/-- The ints of both arrays by their flat index, and the accesses so far. -/
structure Mem where
  A : Nat → BitVec 32
  B : Nat → BitVec 32
  log : List Access

def start (A B : Nat → BitVec 32) : Mem := ⟨A, B, []⟩

/-- Read `A[i][j]` of `int A[N][M]`. -/
def readA (M i j : Nat) : Command Mem (BitVec 32) := fun s =>
  if i * M + j < SIZE then
    some (s.A (i * M + j), { s with log := s.log ++ [⟨.A, i, j, false⟩] })
  else none

/-- Read `B[j][i]` of `int B[M][N]`. -/
def readB (N j i : Nat) : Command Mem (BitVec 32) := fun s =>
  if j * N + i < SIZE then
    some (s.B (j * N + i), { s with log := s.log ++ [⟨.B, j, i, false⟩] })
  else none

/-- Write `B[j][i]` of `int B[M][N]`. -/
def writeB (N j i : Nat) (v : BitVec 32) : Command Mem Unit := fun s =>
  if j * N + i < SIZE then
    some ((), { s with B := Function.update s.B (j * N + i) v, log := s.log ++ [⟨.B, j, i, true⟩] })
  else none

/-! ## The three shapes -/

/-- One turn of the loop over a row of a block of 8 by 8. -/
def row32 (M N i j : Nat) : Command Mem Unit := do
  let tmp1 ← readA M i j
  let tmp2 ← readA M i (j + 1)
  let tmp3 ← readA M i (j + 2)
  let tmp4 ← readA M i (j + 3)
  let tmp5 ← readA M i (j + 4)
  let tmp6 ← readA M i (j + 5)
  let tmp7 ← readA M i (j + 6)
  let tmp8 ← readA M i (j + 7)
  writeB N j i tmp1
  writeB N (j + 1) i tmp2
  writeB N (j + 2) i tmp3
  writeB N (j + 3) i tmp4
  writeB N (j + 4) i tmp5
  writeB N (j + 5) i tmp6
  writeB N (j + 6) i tmp7
  writeB N (j + 7) i tmp8

def transpose32 (M N : Nat) : Command Mem Unit :=
  for_loop 0 32 8 fun k => for_loop 0 32 8 fun j => for_loop k (k + 8) 1 fun i => row32 M N i j

/-- `B[r][c] = A[i][j]` -/
def copy (M N r c i j : Nat) : Command Mem Unit := do
  let v ← readA M i j
  writeB N r c v

/-- The first pass over a block: the upper half of B gets four columns where they belong, and
four that the second pass moves on. -/
def park (M N j k : Nat) : Command Mem Unit := do
  copy M N j k k j
  copy M N (j + 1) k k (j + 1)
  copy M N (j + 2) k k (j + 2)
  copy M N (j + 3) k k (j + 3)
  copy M N j (k + 4) k (j + 4)
  copy M N (j + 1) (k + 4) k (j + 5)
  copy M N (j + 2) (k + 4) k (j + 6)
  copy M N (j + 3) (k + 4) k (j + 7)

/-- The second pass: the parked ints move on, and the lower half of A comes in. -/
def swap (M N i k : Nat) : Command Mem Unit := do
  let tmp1 ← readB N k (i + 4)
  let tmp2 ← readB N k (i + 5)
  let tmp3 ← readB N k (i + 6)
  let tmp4 ← readB N k (i + 7)
  copy M N k (i + 4) (i + 4) k
  copy M N k (i + 5) (i + 5) k
  copy M N k (i + 6) (i + 6) k
  copy M N k (i + 7) (i + 7) k
  let tmp5 ← readA M (i + 4) (k + 4)
  let tmp6 ← readA M (i + 5) (k + 4)
  let tmp7 ← readA M (i + 6) (k + 4)
  let tmp8 ← readA M (i + 7) (k + 4)
  writeB N (k + 4) i tmp1
  writeB N (k + 4) (i + 1) tmp2
  writeB N (k + 4) (i + 2) tmp3
  writeB N (k + 4) (i + 3) tmp4
  writeB N (k + 4) (i + 4) tmp5
  writeB N (k + 4) (i + 5) tmp6
  writeB N (k + 4) (i + 6) tmp7
  writeB N (k + 4) (i + 7) tmp8

def transpose64 (M N : Nat) : Command Mem Unit :=
  for_loop 0 64 8 fun j => for_loop 0 64 8 fun i => do
    for_loop i (i + 4) 1 fun k => park M N j k
    for_loop j (j + 4) 1 fun k => swap M N i k

/-- The last loop has no bound of its own at the edge of the matrix. -/
def transpose61 (M N : Nat) : Command Mem Unit :=
  for_loop 0 61 8 fun j => for_loop 0 67 1 fun i => for_loop j (j + 8) 1 fun tmp1 =>
    copy M N tmp1 i i tmp1

def transpose_submit (M N : Nat) : Command Mem Unit := do
  if M = 32 ∧ N = 32 then transpose32 M N
  if M = 64 ∧ N = 64 then transpose64 M N
  if M = 61 ∧ N = 67 then transpose61 M N

/-- The plain one. -/
def trans (M N : Nat) : Command Mem Unit :=
  for_loop 0 N 1 fun i => for_loop 0 M 1 fun j => copy M N j i i j

/-- The check of the tests: no int of B differs from the one of A. -/
def is_transpose (M N : Nat) (s : Mem) : Bool :=
  (List.range N).all fun i => (List.range M).all fun j => s.A (i * M + j) == s.B (j * N + i)

end ics_labs.transpose
