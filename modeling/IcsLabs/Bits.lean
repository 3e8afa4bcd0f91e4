-- The bit puzzles of lab 1: bits.c, the references of tests.c and the table of decl.c. An
-- `int` is a word of 32 bits that wraps, and `>>` keeps its sign.
import Mathlib.Data.BitVec

namespace ics_labs.bits

abbrev CInt := BitVec 32

/-- A condition as a number. -/
def truth (b : Bool) : CInt := if b then 1 else 0

/-- `!x` -/
def lnot (x : CInt) : CInt := truth (x == 0)

/-! ## bits.c -/

def bang (x : CInt) : CInt :=
  let oppo := ~~~x + 1
  let check := x ^^^ oppo
  let re := (check.sshiftRight 31 &&& 0x01) ||| (x.sshiftRight 31 &&& 0x01)
  re ^^^ 1

def bitCount (x : CInt) : CInt :=
  let ma : CInt := 0x11 ||| (0x11#32 <<< 8)
  let m := ma ||| (ma <<< 16)
  let num := x &&& m
  let num := num + (x.sshiftRight 1 &&& m)
  let num := num + (x.sshiftRight 2 &&& m)
  let num := num + (x.sshiftRight 3 &&& m)
  let num := num + num.sshiftRight 16
  let mask : CInt := 0x0F ||| (0x0F#32 <<< 8)
  let num := (num &&& mask) + (num.sshiftRight 4 &&& mask)
  (num + num.sshiftRight 8) &&& 0x3F

def copyLSB (x : CInt) : CInt :=
  let mid := x <<< 31
  mid.sshiftRight 31

def divpwr2 (x n : CInt) : CInt :=
  let sign := x.sshiftRight 31 &&& 0x01
  let original := x.sshiftRight' n
  let left := x &&& ((0x01#32 <<< n) + (~~~1 + 1))
  original + (sign &&& lnot (lnot left))

def evenBits : CInt :=
  let mask0 : CInt := 0x55
  let mask1 := mask0
  let mask1 := mask1 + (mask0 <<< 8)
  let result := mask1
  result + (mask1 <<< 16)

def fitsBits (x n : CInt) : CInt :=
  let sign := x.sshiftRight 31 &&& 0x01
  let check_sign := (sign <<< 31).sshiftRight 31
  let left := x.sshiftRight' (~~~1 + 1 + n)
  lnot (left ^^^ check_sign)

def getByte (x n : CInt) : CInt :=
  let bit_num := n <<< 3
  let result := x.sshiftRight' bit_num
  result &&& 0xFF

def isGreater (x y : CInt) : CInt :=
  let signx := x.sshiftRight 31 &&& 0x01
  let signy := y.sshiftRight 31 &&& 0x01
  let check1 := lnot signx &&& signy
  let check_sign := signx ^^^ signy
  let re := x + (~~~y + 1)
  let res := re.sshiftRight 31 &&& 0x01
  let result1 := lnot res &&& lnot check_sign &&& lnot (lnot re)
  result1 ||| check1

def isNonNegative (x : CInt) : CInt :=
  let mid_num := x.sshiftRight 31
  let mask : CInt := 0x01
  lnot (mid_num &&& mask)

def isNotEqual (x y : CInt) : CInt :=
  let check := x ^^^ y
  lnot (lnot check)

def isPower2 (x : CInt) : CInt :=
  let sign := x.sshiftRight 31 &&& 0x01
  let oppo := ~~~x + 1
  let re := oppo &&& x
  let check := x ^^^ re
  lnot check &&& lnot sign &&& lnot (lnot x)

def leastBitPos (x : CInt) : CInt :=
  let oppo := ~~~x + 1
  oppo &&& x

def logicalShift (x n : CInt) : CInt :=
  let original_shift := x.sshiftRight' n
  let mask : CInt := 0x01
  let mask := mask <<< 31
  let mask := mask.sshiftRight' n
  let mask := mask <<< 1
  original_shift &&& ~~~mask

def satAdd (x y : CInt) : CInt :=
  let a := x.sshiftRight 31 &&& 0x01
  let b := y.sshiftRight 31 &&& 0x01
  let z := x + y
  let c := z.sshiftRight 31 &&& 0x01
  let check_op := a ^^^ b
  let check_re := a ^^^ c
  let check_over := lnot check_op &&& check_re
  let decide := (check_over <<< 31).sshiftRight 31
  let ret1 := ((lnot a <<< 31).sshiftRight 31 ^^^ (0x01#32 <<< 31)) &&& decide
  let ret2 := z &&& ~~~decide
  ret1 ||| ret2

def tc2sm (x : CInt) : CInt :=
  let sign := x.sshiftRight 31
  let sign_num := sign &&& 0x01
  let modulus := (sign ^^^ x) + sign_num
  modulus + (sign_num <<< 31)

/-! ## tests.c -/

/-- With `-m32` a `long` has 32 bits. -/
def LONG_MAX : CInt := 0x7FFFFFFF

def LONG_MIN : CInt := 0x80000000

def test_bang (x : CInt) : CInt := lnot x

def test_bitCount (x : CInt) : CInt :=
  (List.range 32).foldl (fun result i => result + (x.sshiftRight i &&& 0x1)) 0

def test_copyLSB (x : CInt) : CInt := if x &&& 0x1 ≠ 0 then -1 else 0

/-- C rounds a quotient towards zero. -/
def test_divpwr2 (x n : CInt) : CInt :=
  let p2n := 1#32 <<< n
  x.sdiv p2n

/-- The loop steps by two. -/
def test_evenBits : CInt :=
  (List.range' 0 16 2).foldl (fun result i => result ||| (1#32 <<< i)) 0

def test_fitsBits (x n : CInt) : CInt :=
  let TMin_n := -(1#32 <<< (n - 1))
  let TMax_n := (1#32 <<< (n - 1)) - 1
  truth (TMin_n.sle x && x.sle TMax_n)

/-- The bytes of a word as a little-endian machine lays them out. -/
def bytes (word : CInt) : List (BitVec 8) := (List.range 4).map fun i => word.extractLsb' (8 * i) 8

/-- `none` when the index is outside the array. -/
def test_getByte (x n : CInt) : Option CInt :=
  let test : CInt := 1
  let littleEndian := (bytes test).head? ≠ some 0
  let byte := if littleEndian then (bytes x)[n.toNat]? else (bytes x)[(3 - n).toNat]?
  byte.map (·.zeroExtend 32)

def test_isGreater (x y : CInt) : CInt := truth (y.slt x)

def test_isNonNegative (x : CInt) : CInt := truth ((0#32).sle x)

def test_isNotEqual (x y : CInt) : CInt := truth (x != y)

def test_isPower2 (x : CInt) : CInt := truth ((List.range 31).any fun i => x == 1#32 <<< i)

/-- The loop of `test_leastBitPos`. The first argument is the number of turns that are left,
and `none` a loop that goes on. -/
def leastBitPos_loop (x : CInt) : Nat → CInt → Option CInt
  | 0, _ => none
  | n + 1, mask => if lnot (mask &&& x) ≠ 0 then leastBitPos_loop x n (mask <<< 1) else some mask

def test_leastBitPos (x : CInt) : Option CInt :=
  let mask : CInt := 1
  if x = 0 then some 0 else leastBitPos_loop x 32 mask

/-- The shift of an `unsigned` brings in zeros. -/
def test_logicalShift (x n : CInt) : CInt := x >>> n

def test_satAdd (x y : CInt) : CInt :=
  if (0#32).slt x && (0#32).slt y && (x + y).slt 0#32 then LONG_MAX
  else if x.slt 0#32 && y.slt 0#32 && (0#32).sle (x + y) then LONG_MIN
  else x + y

def test_tc2sm (x : CInt) : CInt :=
  let sign := truth (x.slt 0#32)
  let mag := if x.slt 0#32 then -x else x
  (sign <<< 31) ||| mag

/-! ## decl.c -/

def TMin : CInt := LONG_MIN

def TMax : CInt := LONG_MAX

/-- What every function of the table is cast to. A function that takes fewer arguments leaves
the others alone. -/
abbrev Funct (α : Type) := CInt → CInt → CInt → α

def cast0 {α : Type} (f : α) : Funct α := fun _ _ _ => f

def cast1 {α : Type} (f : CInt → α) : Funct α := fun x _ _ => f x

def cast2 {α : Type} (f : CInt → CInt → α) : Funct α := fun x y _ => f x y

structure test_rec where
  name : String
  solution_funct : Funct CInt
  /-- `none` is a reference that does not return a value. -/
  test_funct : Funct (Option CInt)
  args : Nat
  arg_ranges : (CInt × CInt) × (CInt × CInt) × (CInt × CInt)

def test_set : List test_rec := [
  ⟨"bang", cast1 bang, cast1 fun x => some (test_bang x), 1,
    (TMin, TMax), (TMin, TMax), (TMin, TMax)⟩,
  ⟨"bitCount", cast1 bitCount, cast1 fun x => some (test_bitCount x), 1,
    (TMin, TMax), (TMin, TMax), (TMin, TMax)⟩,
  ⟨"copyLSB", cast1 copyLSB, cast1 fun x => some (test_copyLSB x), 1,
    (TMin, TMax), (TMin, TMax), (TMin, TMax)⟩,
  ⟨"divpwr2", cast2 divpwr2, cast2 fun x n => some (test_divpwr2 x n), 2,
    (TMin, TMax), (0, 30), (TMin, TMax)⟩,
  ⟨"evenBits", cast0 evenBits, cast0 (some test_evenBits), 0,
    (TMin, TMax), (TMin, TMax), (TMin, TMax)⟩,
  ⟨"fitsBits", cast2 fitsBits, cast2 fun x n => some (test_fitsBits x n), 2,
    (TMin, TMax), (1, 32), (TMin, TMax)⟩,
  ⟨"getByte", cast2 getByte, cast2 test_getByte, 2,
    (TMin, TMax), (0, 3), (TMin, TMax)⟩,
  ⟨"isGreater", cast2 isGreater, cast2 fun x y => some (test_isGreater x y), 2,
    (TMin, TMax), (TMin, TMax), (TMin, TMax)⟩,
  ⟨"isNonNegative", cast1 isNonNegative, cast1 fun x => some (test_isNonNegative x), 1,
    (TMin, TMax), (TMin, TMax), (TMin, TMax)⟩,
  ⟨"isNotEqual", cast2 isNotEqual, cast2 fun x y => some (test_isNotEqual x y), 2,
    (TMin, TMax), (TMin, TMax), (TMin, TMax)⟩,
  ⟨"isPower2", cast1 isPower2, cast1 fun x => some (test_isPower2 x), 1,
    (TMin, TMax), (TMin, TMax), (TMin, TMax)⟩,
  ⟨"leastBitPos", cast1 leastBitPos, cast1 test_leastBitPos, 1,
    (TMin, TMax), (TMin, TMax), (TMin, TMax)⟩,
  ⟨"logicalShift", cast2 logicalShift, cast2 fun x n => some (test_logicalShift x n), 2,
    (TMin, TMax), (1, 31), (TMin, TMax)⟩,
  ⟨"satAdd", cast2 satAdd, cast2 fun x y => some (test_satAdd x y), 2,
    (TMin, TMax), (TMin, TMax), (TMin, TMax)⟩,
  ⟨"tc2sm", cast1 tc2sm, cast1 fun x => some (test_tc2sm x), 1,
    (TMin + 1, TMax), (TMin + 1, TMax), (TMin + 1, TMax)⟩]

/-- An argument inside its range. -/
def InRange (range : CInt × CInt) (x : CInt) : Prop := range.1.sle x ∧ x.sle range.2

instance (range : CInt × CInt) (x : CInt) : Decidable (InRange range x) :=
  inferInstanceAs (Decidable (_ ∧ _))

/-- The arguments that the function takes are inside their ranges. -/
def test_rec.Allows (t : test_rec) (x y z : CInt) : Prop :=
  (1 ≤ t.args → InRange t.arg_ranges.1 x) ∧ (2 ≤ t.args → InRange t.arg_ranges.2.1 y) ∧
    (3 ≤ t.args → InRange t.arg_ranges.2.2 z)

instance (t : test_rec) (x y z : CInt) : Decidable (t.Allows x y z) :=
  inferInstanceAs (Decidable (_ ∧ _))

end ics_labs.bits
