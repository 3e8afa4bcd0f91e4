-- The simulator of lab4 (y64sim.c): `nexti` runs one Y86-64 instruction. Its data
-- types are those of lab6, so the machine state and the words for the
-- instructions come from there.
import IcsLabs.Isa

open ics_labs.byte_words ics_labs.memory
open ics_labs.isa (IType Stat Cc State A_ADD A_SUB A_AND A_XOR C_YES C_LE C_L C_E C_NE C_GE C_G)
open ics_labs.isa.IType ics_labs.isa.Stat

namespace ics_labs.y64sim

def get_byte_val (m : Mem) (addr : Word) : Option Byte := readByte m addr
def get_long_val (m : Mem) (addr : Word) : Option (Option Word) := readWord m addr
def set_long_val (m : Mem) (addr val : Word) : Option (Option Mem) := writeWord m addr val

/-- A `regid_t` is an `int`, since `REG_ERR` is -1. A negative one is outside the register
file, where a read gives 0 and a write does nothing, as for `REG_NONE`. -/
def get_reg_val (r : Regs) (id : Int) : Word :=
  if h : 0 ≤ id ∧ id < 15 then r ⟨id.toNat, by omega⟩ else 0

def set_reg_val (r : Regs) (id : Int) (val : Word) : Regs := fun i =>
  if (i.val : Int) = id then val else r i

def NORM_REG (id : Int) : Bool := 0 ≤ id && id ≤ 14

def GET_ICODE (byte0 : Byte) : IType := IType.of (hi4 byte0)
def GET_FUN (byte0 : Byte) : Nibble := lo4 byte0
def GET_REGA (byte0 : Byte) : Int := (hi4 byte0).toNat
def GET_REGB (byte0 : Byte) : Int := (lo4 byte0).toNat

/-! ## The arithmetic -/

def compute_alu (op : Nibble) (argA argB : Word) : Word :=
  if op = A_ADD then argB + argA
  else if op = A_SUB then argB - argA
  else if op = A_AND then argB &&& argA
  else if op = A_XOR then argB ^^^ argA
  else 0

/-- The sign comes from `(int)val`: bit 31 of the value, not bit 63. -/
def compute_cc (op : Nibble) (argA argB val : Word) : Cc :=
  let zero := val == 0
  let sign := (val.setWidth 32).slt 0
  let ovf :=
    if op = A_ADD then argA.slt 0 == argB.slt 0 && val.slt 0 != argA.slt 0
    else if op = A_SUB then argA.slt 0 != argB.slt 0 && val.slt 0 == argA.slt 0
    else false
  ⟨zero, sign, ovf⟩

def cond_doit (cc : Cc) (cond : Nibble) : Bool :=
  let doit := false
  let doit := if cc.zf = true ∧ cond = C_E then true else doit
  let doit := if cond = C_NE ∧ cc.zf = false then true else doit
  let doit := if cond = C_LE ∧ (cc.zf || (cc.sf ^^ cc.of)) = true then true else doit
  let doit := if cond = C_GE ∧ (cc.sf ^^ cc.of) = false then true else doit
  let doit := if cond = C_L ∧ (cc.sf ^^ cc.of) = true then true else doit
  let doit := if cond = C_G ∧ (cc.zf || (cc.sf ^^ cc.of)) = false then true else doit
  if cond = C_YES then true else doit

/-! ## One instruction -/

/-- Does `nexti` read a register byte? -/
def need_regs : IType → Bool
  | I_RRMOVQ | I_IRMOVQ | I_RMMOVQ | I_MRMOVQ | I_ALU | I_PUSHQ | I_POPQ => true
  | _ => false

/-- Does `nexti` read an immediate? -/
def need_immediate : IType → Bool
  | I_IRMOVQ | I_RMMOVQ | I_MRMOVQ | I_JMP | I_CALL => true
  | _ => false

/-- The locals of `nexti` that it declares without a value. -/
structure Locals where
  regA : Int
  regB : Int
  immediate : Word

/-- The locals of `nexti` where it reaches its `switch`. -/
structure Decoded where
  icode : IType
  ifun : Nibble
  regA : Int
  regB : Int
  immediate : Word
  next_pc : Word

/-- The register byte. The code tests what the two locals hold before they are assigned,
not the byte that it has just read. -/
def get_regs (loc : Locals) (m : Mem) (icode : IType) (next_pc : Word) :
    Except Stat (Int × Int × Word) :=
  if need_regs icode then
    match get_byte_val m next_pc with
    | some codefun =>
      if NORM_REG loc.regA && NORM_REG loc.regB then
        .ok (GET_REGA codefun, GET_REGB codefun, next_pc + 1)
      else .error STAT_INS
    | none => .error STAT_ADR
  else .ok (loc.regA, loc.regB, next_pc)

def get_immediate (loc : Locals) (m : Mem) (icode : IType) (next_pc : Word) :
    Option (Except Stat (Word × Word)) :=
  if need_immediate icode then
    (get_long_val m next_pc).map fun
      | some immediate => .ok (immediate, next_pc + 8)
      | none => .error STAT_ADR
  else some (.ok (loc.immediate, next_pc))

/-- `nexti` up to its `switch`: the instruction, or the status of an early return. -/
def fetch (loc : Locals) (m : Mem) (pc : Word) : Option (Except Stat Decoded) :=
  match get_byte_val m pc with
  | none => some (.error STAT_ADR)
  | some codefun =>
    let icode := GET_ICODE codefun
    let ifun := GET_FUN codefun
    if 6 < ifun.toNat ∨ icode = I_ALU ∧ 3 < ifun.toNat then some (.error STAT_INS)
    else
      match get_regs loc m icode (pc + 1) with
      | .error st => some (.error st)
      | .ok (regA, regB, next_pc) =>
        (get_immediate loc m icode next_pc).map fun
          | .error st => .error st
          | .ok (immediate, next_pc) => .ok { icode, ifun, regA, regB, immediate, next_pc }

/-- The `switch` of `nexti`. -/
def execute (sim : State) (d : Decoded) : Option (Stat × State) :=
  match d.icode with
  | I_HALT => some (STAT_HLT, sim)
  | I_NOP => some (STAT_AOK, { sim with pc := d.next_pc })
  | I_RRMOVQ =>
    let r := if cond_doit sim.cc d.ifun then set_reg_val sim.r d.regB (get_reg_val sim.r d.regA)
      else sim.r
    some (STAT_AOK, { sim with r, pc := d.next_pc })
  | I_IRMOVQ =>
    some (STAT_AOK, { sim with r := set_reg_val sim.r d.regB d.immediate, pc := d.next_pc })
  | I_RMMOVQ =>
    let valA := get_reg_val sim.r d.regA
    let valB := get_reg_val sim.r d.regB
    let addr := valB + d.immediate
    (set_long_val sim.m addr valA).map fun
      | none => (STAT_ADR, sim)
      | some m => (STAT_AOK, { sim with m, pc := d.next_pc })
  | I_MRMOVQ =>
    let valB := get_reg_val sim.r d.regB
    let addr := valB + d.immediate
    (get_long_val sim.m addr).map fun
      | none => (STAT_ADR, sim)
      | some val => (STAT_AOK, { sim with r := set_reg_val sim.r d.regA val, pc := d.next_pc })
  | I_ALU =>
    let valA := get_reg_val sim.r d.regA
    let valB := get_reg_val sim.r d.regB
    let val := compute_alu d.ifun valA valB
    some (STAT_AOK, { sim with r := set_reg_val sim.r d.regB val,
                               cc := compute_cc d.ifun valA valB val, pc := d.next_pc })
  | I_JMP =>
    let pc := if !cond_doit sim.cc d.ifun then d.next_pc else d.immediate
    some (STAT_AOK, { sim with pc })
  | I_CALL =>
    let sp := get_reg_val sim.r REG_RSP.toNat - 8
    let sim := { sim with r := set_reg_val sim.r REG_RSP.toNat sp }
    (set_long_val sim.m sp d.next_pc).map fun
      | none => (STAT_ADR, sim)
      | some m => (STAT_AOK, { sim with m, pc := d.immediate })
  | I_RET =>
    let sp := get_reg_val sim.r REG_RSP.toNat
    (get_long_val sim.m sp).map fun
      | none => (STAT_ADR, sim)
      | some val => (STAT_AOK, { sim with r := set_reg_val sim.r REG_RSP.toNat (sp + 8), pc := val })
  | I_PUSHQ =>
    let sp := get_reg_val sim.r REG_RSP.toNat - 8
    let valA := get_reg_val sim.r d.regA
    let sim := { sim with r := set_reg_val sim.r REG_RSP.toNat sp }
    (set_long_val sim.m sp valA).map fun
      | none => (STAT_ADR, sim)
      | some m => (STAT_AOK, { sim with m, pc := d.next_pc })
  | I_POPQ =>
    let sp := get_reg_val sim.r REG_RSP.toNat
    -- the result of the read is not tested: a read that fails pops 0
    (get_long_val sim.m sp).map fun val =>
      let r := set_reg_val sim.r REG_RSP.toNat (sp + 8)
      (STAT_AOK, { sim with r := set_reg_val r d.regA (val.getD 0), pc := d.next_pc })
  -- the codes from `I_DIRECTIVE` on
  | I_IADDQ | I_POP2 | I_UNNAMED => some (STAT_INS, sim)

/-- Execute a single instruction and return its status. The outer `none` is an access
outside the memory array. -/
def nexti (loc : Locals) (sim : State) : Option (Stat × State) :=
  (fetch loc sim.m sim.pc).bind fun
    | .error st => some (st, sim)
    | .ok d => execute sim d

end ics_labs.y64sim
