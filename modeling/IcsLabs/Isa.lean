-- The instruction set of the Y86-64 machine, as lab6/misc/isa.c runs it:
-- `step_state` fetches one instruction and carries it out.
import IcsLabs.Memory
import IcsLabs.Runs

open ics_labs.byte_words ics_labs.memory

namespace ics_labs.isa

/-! ## The data -/

/-- The instruction types. The last one stands for the two codes with no name. -/
inductive IType
  | I_HALT | I_NOP | I_RRMOVQ | I_IRMOVQ | I_RMMOVQ | I_MRMOVQ | I_ALU | I_JMP | I_CALL
  | I_RET | I_PUSHQ | I_POPQ | I_IADDQ | I_POP2 | I_UNNAMED
  deriving DecidableEq, Repr

open IType

/-- The type that a high nibble stands for. -/
def IType.of (n : Nibble) : IType :=
  match n.toNat with
  | 0 => I_HALT
  | 1 => I_NOP
  | 2 => I_RRMOVQ
  | 3 => I_IRMOVQ
  | 4 => I_RMMOVQ
  | 5 => I_MRMOVQ
  | 6 => I_ALU
  | 7 => I_JMP
  | 8 => I_CALL
  | 9 => I_RET
  | 10 => I_PUSHQ
  | 11 => I_POPQ
  | 12 => I_IADDQ
  | 13 => I_POP2
  | _ => I_UNNAMED

/-- The status codes. -/
inductive Stat
  | STAT_BUB | STAT_AOK | STAT_HLT | STAT_ADR | STAT_INS | STAT_PIP
  deriving DecidableEq, Repr

open Stat

def F_NONE : Nibble := 0

def A_ADD : Nibble := 0
def A_SUB : Nibble := 1
def A_AND : Nibble := 2
def A_XOR : Nibble := 3

def C_YES : Nibble := 0
def C_LE : Nibble := 1
def C_L : Nibble := 2
def C_E : Nibble := 3
def C_NE : Nibble := 4
def C_GE : Nibble := 5
def C_G : Nibble := 6

/-- The three condition codes that `PACK_CC` packs. -/
structure Cc where
  zf : Bool
  sf : Bool
  of : Bool
  deriving DecidableEq, Repr

def DEFAULT_CC : Cc := ⟨true, false, false⟩

structure State where
  pc : Word
  r : Regs
  m : Mem
  cc : Cc

def get_byte_val (m : Mem) (pos : Word) : Option Byte := readByte m pos
def get_word_val (m : Mem) (pos : Word) : Option (Option Word) := readWord m pos
def set_word_val (m : Mem) (pos val : Word) : Option (Option Mem) := writeWord m pos val
def get_reg_val (r : Regs) (id : Nibble) : Word := getReg r id
def set_reg_val (r : Regs) (id : Nibble) (val : Word) : Regs := setReg r id val

/-- Is the given register number a program register? -/
def reg_valid (id : Nibble) : Bool := id != REG_NONE

/-! ## The arithmetic -/

def compute_alu (op : Nibble) (argA argB : Word) : Word :=
  if op = A_ADD then argA + argB
  else if op = A_SUB then argB - argA
  else if op = A_AND then argA &&& argB
  else if op = A_XOR then argA ^^^ argB
  else 0

/-- `v < 0`, signed. -/
def negative (v : Word) : Bool := v.slt 0

/-- `v > 0`, signed. -/
def positive (v : Word) : Bool := (0 : Word).slt v

def compute_cc (op : Nibble) (argA argB : Word) : Cc :=
  let val := compute_alu op argA argB
  let zero := val == 0
  let sign := negative val
  let ovf :=
    if op = A_ADD then negative argA == negative argB && negative val != negative argA
    else if op = A_SUB then positive argA == negative argB && negative val != negative argB
    else false
  ⟨zero, sign, ovf⟩

def cond_holds (cc : Cc) (bcond : Nibble) : Bool :=
  if bcond = C_YES then true
  else if bcond = C_LE then (cc.sf ^^ cc.of) || cc.zf
  else if bcond = C_L then cc.sf ^^ cc.of
  else if bcond = C_E then cc.zf
  else if bcond = C_NE then cc.zf ^^ true
  else if bcond = C_GE then cc.sf ^^ cc.of ^^ true
  else if bcond = C_G then (cc.sf ^^ cc.of ^^ true) && (cc.zf ^^ true)
  else false

/-! ## One instruction -/

/-- Does the instruction have a register byte? -/
def need_regids : IType → Bool
  | I_RRMOVQ | I_ALU | I_PUSHQ | I_POPQ | I_IRMOVQ | I_RMMOVQ | I_MRMOVQ | I_IADDQ => true
  | _ => false

/-- Does the instruction have a constant? -/
def need_imm : IType → Bool
  | I_IRMOVQ | I_RMMOVQ | I_MRMOVQ | I_JMP | I_CALL | I_IADDQ => true
  | _ => false

/-- The locals of `step_state` where it reaches its `switch`. -/
structure Fetched where
  hi0 : IType
  lo0 : Nibble
  hi1 : Nibble
  lo1 : Nibble
  ok1 : Bool
  okc : Bool
  cval : Word
  ftpc : Word

/-- The part of `step_state` before the `switch`, once the first byte is there. `hi1` and
`lo1` start as `REG_NONE`, and a register byte out of reach reads as 0. -/
def fetch (m : Mem) (pc : Word) (byte0 : Byte) : Option Fetched := do
  let hi0 := IType.of (hi4 byte0)
  let ftpc := pc + 1
  let byte1 := if need_regids hi0 then get_byte_val m ftpc else some (hpack REG_NONE REG_NONE)
  let ftpc := if need_regids hi0 then ftpc + 1 else ftpc
  let cval ← if need_imm hi0 then get_word_val m ftpc else some (some 0)
  let ftpc := if need_imm hi0 then ftpc + 8 else ftpc
  return { hi0, lo0 := lo4 byte0, hi1 := hi4 (byte1.getD 0), lo1 := lo4 (byte1.getD 0),
           ok1 := byte1.isSome, okc := cval.isSome, cval := cval.getD 0, ftpc }

/-- The `switch` of `step_state`. -/
def execute (s : State) (f : Fetched) : Option (Stat × State) :=
  match f.hi0 with
  | I_NOP => some (STAT_AOK, { s with pc := f.ftpc })
  | I_HALT => some (STAT_HLT, s)
  | I_RRMOVQ =>
    if !f.ok1 then some (STAT_ADR, s)
    else if !reg_valid f.hi1 then some (STAT_INS, s)
    else if !reg_valid f.lo1 then some (STAT_INS, s)
    else
      let val := get_reg_val s.r f.hi1
      let r := if cond_holds s.cc f.lo0 then set_reg_val s.r f.lo1 val else s.r
      some (STAT_AOK, { s with r, pc := f.ftpc })
  | I_IRMOVQ =>
    if !f.ok1 then some (STAT_ADR, s)
    else if !f.okc then some (STAT_INS, s)
    else if !reg_valid f.lo1 then some (STAT_INS, s)
    else some (STAT_AOK, { s with r := set_reg_val s.r f.lo1 f.cval, pc := f.ftpc })
  | I_RMMOVQ =>
    if !f.ok1 then some (STAT_ADR, s)
    else if !f.okc then some (STAT_INS, s)
    else if !reg_valid f.hi1 then some (STAT_INS, s)
    else
      let cval := if reg_valid f.lo1 then f.cval + get_reg_val s.r f.lo1 else f.cval
      let val := get_reg_val s.r f.hi1
      (set_word_val s.m cval val).map fun
        | none => (STAT_ADR, s)
        | some m => (STAT_AOK, { s with m, pc := f.ftpc })
  | I_MRMOVQ =>
    if !f.ok1 then some (STAT_ADR, s)
    else if !f.okc then some (STAT_INS, s)
    else if !reg_valid f.hi1 then some (STAT_INS, s)
    else
      let cval := if reg_valid f.lo1 then f.cval + get_reg_val s.r f.lo1 else f.cval
      (get_word_val s.m cval).map fun
        | none => (STAT_ADR, s)
        | some val => (STAT_AOK, { s with r := set_reg_val s.r f.hi1 val, pc := f.ftpc })
  | I_ALU =>
    if !f.ok1 then some (STAT_ADR, s)
    else
      let argA := get_reg_val s.r f.hi1
      let argB := get_reg_val s.r f.lo1
      let val := compute_alu f.lo0 argA argB
      some (STAT_AOK, { s with r := set_reg_val s.r f.lo1 val,
                               cc := compute_cc f.lo0 argA argB, pc := f.ftpc })
  | I_JMP =>
    if !f.ok1 then some (STAT_ADR, s)
    else if !f.okc then some (STAT_ADR, s)
    else some (STAT_AOK, { s with pc := if cond_holds s.cc f.lo0 then f.cval else f.ftpc })
  | I_CALL =>
    if !f.ok1 then some (STAT_ADR, s)
    else if !f.okc then some (STAT_ADR, s)
    else
      let val := get_reg_val s.r REG_RSP - 8
      let s1 := { s with r := set_reg_val s.r REG_RSP val }
      (set_word_val s.m val f.ftpc).map fun
        | none => (STAT_ADR, s1)
        | some m => (STAT_AOK, { s1 with m, pc := f.cval })
  | I_RET =>
    let dval := get_reg_val s.r REG_RSP
    (get_word_val s.m dval).map fun
      | none => (STAT_ADR, s)
      | some val => (STAT_AOK, { s with r := set_reg_val s.r REG_RSP (dval + 8), pc := val })
  | I_PUSHQ =>
    if !f.ok1 then some (STAT_ADR, s)
    else if !reg_valid f.hi1 then some (STAT_INS, s)
    else
      let val := get_reg_val s.r f.hi1
      let dval := get_reg_val s.r REG_RSP - 8
      let s1 := { s with r := set_reg_val s.r REG_RSP dval }
      (set_word_val s.m dval val).map fun
        | none => (STAT_ADR, s1)
        | some m => (STAT_AOK, { s1 with m, pc := f.ftpc })
  | I_POPQ =>
    if !f.ok1 then some (STAT_ADR, s)
    else if !reg_valid f.hi1 then some (STAT_INS, s)
    else
      let dval := get_reg_val s.r REG_RSP
      let s1 := { s with r := set_reg_val s.r REG_RSP (dval + 8) }
      (get_word_val s.m dval).map fun
        | none => (STAT_ADR, s1)
        | some val => (STAT_AOK, { s1 with r := set_reg_val s1.r f.hi1 val, pc := f.ftpc })
  | I_IADDQ =>
    if !f.ok1 then some (STAT_ADR, s)
    else if !f.okc then some (STAT_INS, s)
    else if !reg_valid f.lo1 then some (STAT_INS, s)
    else
      let argB := get_reg_val s.r f.lo1
      let val := argB + f.cval
      some (STAT_AOK, { s with r := set_reg_val s.r f.lo1 val,
                               cc := compute_cc A_ADD f.cval argB, pc := f.ftpc })
  | I_POP2 | I_UNNAMED => some (STAT_INS, s)

/-- Execute one instruction. The outer `none` is an access outside the memory array. -/
def step_state (s : State) : Option (Stat × State) :=
  match get_byte_val s.m s.pc with
  | none => some (STAT_ADR, s)
  | some byte0 => (fetch s.m s.pc byte0).bind (execute s)

/-- One step of a run without fault: the step returned `STAT_AOK`. -/
def good {α : Type} (step : α → Option (Stat × α)) (a : α) : Option α :=
  match step a with
  | some (STAT_AOK, b) => some b
  | _ => none

theorem good_eq_some {α : Type} {step : α → Option (Stat × α)} {a b : α} :
    good step a = some b ↔ step a = some (STAT_AOK, b) := by
  unfold good
  split
  · rename_i c hc
    simp [hc]
  · rename_i hn
    simp only [reduceCtorEq, false_iff]
    exact hn b

end ics_labs.isa
