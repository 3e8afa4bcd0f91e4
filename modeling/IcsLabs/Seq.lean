-- The sequential processor: the control logic of lab6/seq/seq-full.hcl and the
-- cycle that lab6/seq/ssim.c drives with it. A cycle commits what the last one
-- computed, then runs one instruction up to its pending updates.
import IcsLabs.Isa

open ics_labs.byte_words ics_labs.memory ics_labs.isa
open ics_labs.isa.IType ics_labs.isa.Stat

namespace ics_labs.seq

/-! ## The control logic -/

def gen_icode (imem_error : Bool) (imem_icode : IType) : IType :=
  if imem_error then I_NOP else imem_icode

def gen_ifun (imem_error : Bool) (imem_ifun : Nibble) : Nibble :=
  if imem_error then F_NONE else imem_ifun

def gen_instr_valid (icode : IType) : Bool :=
  icode ∈ [I_NOP, I_HALT, I_RRMOVQ, I_IRMOVQ, I_RMMOVQ, I_MRMOVQ, I_ALU, I_JMP, I_CALL, I_RET,
    I_PUSHQ, I_POPQ, I_IADDQ]

def gen_need_regids (icode : IType) : Bool :=
  icode ∈ [I_RRMOVQ, I_ALU, I_PUSHQ, I_POPQ, I_IRMOVQ, I_RMMOVQ, I_MRMOVQ, I_IADDQ]

def gen_need_valC (icode : IType) : Bool :=
  icode ∈ [I_IRMOVQ, I_RMMOVQ, I_MRMOVQ, I_JMP, I_CALL, I_IADDQ]

def gen_srcA (icode : IType) (rA : Nibble) : Nibble :=
  if icode ∈ [I_RRMOVQ, I_RMMOVQ, I_ALU, I_PUSHQ] then rA
  else if icode ∈ [I_POPQ, I_RET] then REG_RSP
  else REG_NONE

def gen_srcB (icode : IType) (rB : Nibble) : Nibble :=
  if icode ∈ [I_ALU, I_RMMOVQ, I_MRMOVQ, I_IADDQ] then rB
  else if icode ∈ [I_PUSHQ, I_POPQ, I_CALL, I_RET] then REG_RSP
  else REG_NONE

def gen_dstE (icode : IType) (rB : Nibble) (Cnd : Bool) : Nibble :=
  if icode ∈ [I_RRMOVQ] ∧ Cnd then rB
  else if icode ∈ [I_IRMOVQ, I_ALU, I_IADDQ] then rB
  else if icode ∈ [I_PUSHQ, I_POPQ, I_CALL, I_RET] then REG_RSP
  else REG_NONE

def gen_dstM (icode : IType) (rA : Nibble) : Nibble :=
  if icode ∈ [I_MRMOVQ, I_POPQ] then rA else REG_NONE

def gen_aluA (icode : IType) (valA valC : Word) : Word :=
  if icode ∈ [I_RRMOVQ, I_ALU] then valA
  else if icode ∈ [I_IRMOVQ, I_RMMOVQ, I_MRMOVQ, I_IADDQ] then valC
  else if icode ∈ [I_CALL, I_PUSHQ] then -8
  else if icode ∈ [I_RET, I_POPQ] then 8
  else 0

def gen_aluB (icode : IType) (valB : Word) : Word :=
  if icode ∈ [I_RMMOVQ, I_MRMOVQ, I_ALU, I_CALL, I_PUSHQ, I_RET, I_POPQ, I_IADDQ] then valB
  else 0

def gen_alufun (icode : IType) (ifun : Nibble) : Nibble :=
  if icode = I_ALU then ifun else A_ADD

def gen_set_cc (icode : IType) : Bool := icode ∈ [I_ALU, I_IADDQ]

def gen_mem_read (icode : IType) : Bool := icode ∈ [I_MRMOVQ, I_POPQ, I_RET]

def gen_mem_write (icode : IType) : Bool := icode ∈ [I_RMMOVQ, I_PUSHQ, I_CALL]

def gen_mem_addr (icode : IType) (valE valA : Word) : Word :=
  if icode ∈ [I_RMMOVQ, I_PUSHQ, I_CALL, I_MRMOVQ] then valE
  else if icode ∈ [I_POPQ, I_RET] then valA
  else 0

def gen_mem_data (icode : IType) (valA valP : Word) : Word :=
  if icode ∈ [I_RMMOVQ, I_PUSHQ] then valA
  else if icode = I_CALL then valP
  else 0

def gen_Stat (icode : IType) (imem_error dmem_error instr_valid : Bool) : Stat :=
  if imem_error || dmem_error then STAT_ADR
  else if !instr_valid then STAT_INS
  else if icode = I_HALT then STAT_HLT
  else STAT_AOK

def gen_new_pc (icode : IType) (Cnd : Bool) (valC valM valP : Word) : Word :=
  if icode = I_CALL then valC
  else if icode = I_JMP ∧ Cnd then valC
  else if icode = I_RET then valM
  else valP

/-! ## The cycle -/

/-- The globals of the simulator that live from one cycle to the next. -/
structure Sim where
  mem : Mem
  reg : Regs
  cc : Cc
  pc : Word
  pc_in : Word
  cc_in : Cc
  destE : Nibble
  vale : Word
  destM : Nibble
  valm : Word
  mem_write : Bool
  mem_addr : Word
  mem_data : Word

/-- The simulator after `sim_reset`, with the program already in memory. The values that
stay as they were are taken to be 0, as in a new process. -/
def sim_reset (mem : Mem) : Sim where
  mem := mem
  reg := fun _ => 0
  cc := DEFAULT_CC
  pc := 0
  pc_in := 0
  cc_in := DEFAULT_CC
  destE := REG_NONE
  vale := 0
  destM := REG_NONE
  valm := 0
  mem_write := false
  mem_addr := 0
  mem_data := 0

/-- Update the processor state with what the last cycle left pending. -/
def update_state (p : Sim) : Option Sim := do
  let reg := if p.destE ≠ REG_NONE then set_reg_val p.reg p.destE p.vale else p.reg
  let reg := if p.destM ≠ REG_NONE then set_reg_val reg p.destM p.valm else reg
  -- a write that `set_word_val` refuses leaves the memory as it is
  let mem ← if p.mem_write then
      (set_word_val p.mem p.mem_addr p.mem_data).map (·.getD p.mem)
    else some p.mem
  return { p with pc := p.pc_in, cc := p.cc_in, reg, mem }

/-- The fetch stage: the instruction at `pc`. -/
structure Fetch where
  imem_error : Bool
  icode : IType
  ifun : Nibble
  ra : Nibble
  rb : Nibble
  valc : Word
  valp : Word

def fetch (mem : Mem) (pc : Word) : Option Fetch := do
  let instr := get_byte_val mem pc
  let imem_error := instr.isNone
  let icode := gen_icode imem_error (IType.of (hi4 (instr.getD (hpack 1 F_NONE))))
  let ifun := gen_ifun imem_error (lo4 (instr.getD (hpack 1 F_NONE)))
  let valp := pc + 1
  let regids := if gen_need_regids icode then get_byte_val mem valp else none
  let regids := regids.getD (hpack REG_NONE REG_NONE)
  let valp := if gen_need_regids icode then valp + 1 else valp
  let valc ← if gen_need_valC icode then get_word_val mem valp else some none
  let valp := if gen_need_valC icode then valp + 8 else valp
  return { imem_error, icode, ifun, ra := hi4 regids, rb := lo4 regids, valc := valc.getD 0, valp }

/-- Decode, execute, memory and PC update for the fetched instruction: everything that the
cycle leaves pending, and its status. The two assignments to `status` before `gen_Stat`
are overwritten by it. -/
def compute (p : Sim) (f : Fetch) : Option (Stat × Sim) := do
  let srcA := gen_srcA f.icode f.ra
  let vala := if srcA ≠ REG_NONE then get_reg_val p.reg srcA else 0
  let srcB := gen_srcB f.icode f.rb
  let valb := if srcB ≠ REG_NONE then get_reg_val p.reg srcB else 0
  let cond := cond_holds p.cc f.ifun
  let destE := gen_dstE f.icode f.rb cond
  let destM := gen_dstM f.icode f.ra
  let aluA := gen_aluA f.icode vala f.valc
  let aluB := gen_aluB f.icode valb
  let alufun := gen_alufun f.icode f.ifun
  let vale := compute_alu alufun aluA aluB
  let cc_in := if gen_set_cc f.icode then compute_cc alufun aluA aluB else p.cc
  let mem_addr := gen_mem_addr f.icode vale vala
  let mem_data := gen_mem_data f.icode vala f.valp
  let read ← if gen_mem_read f.icode then get_word_val p.mem mem_addr else some (some 0)
  let valm := read.getD p.valm
  let mem_write := gen_mem_write f.icode
  -- a test read, to make sure that the address of the write is good
  let junk ← if mem_write then get_word_val p.mem mem_addr else some (some 0)
  let dmem_error := read.isNone || junk.isNone
  let status := gen_Stat f.icode f.imem_error dmem_error (gen_instr_valid f.icode)
  let pc_in := gen_new_pc f.icode cond f.valc valm f.valp
  return (status, { p with pc_in, cc_in, destE, vale, destM, valm, mem_write, mem_addr, mem_data })

/-- Execute one instruction and return the resulting status. -/
def sim_step (p : Sim) : Option (Stat × Sim) := do
  let p ← update_state p
  let f ← fetch p.mem p.pc
  compute p f

end ics_labs.seq
