-- The pipelined processor: the control logic of lab6/pipe/pipe-full.hcl and the cycle
-- that lab6/pipe/psim.c drives with it. Five pipeline registers stand between the
-- stages. A cycle commits what the last one left pending and moves the registers on,
-- then lets every stage compute what comes next.
import IcsLabs.Seq

open ics_labs.byte_words ics_labs.memory ics_labs.isa
open ics_labs.isa.IType ics_labs.isa.Stat

namespace ics_labs.psim

/-! ## The pipeline registers -/

/-- Program counter. -/
structure PcEle where
  pc : Word
  status : Stat

/-- IF/ID pipe register. -/
structure IfIdEle where
  icode : IType
  ifun : Nibble
  ra : Nibble
  rb : Nibble
  valc : Word
  valp : Word
  status : Stat
  stage_pc : Word

/-- ID/EX pipe register. -/
structure IdExEle where
  icode : IType
  ifun : Nibble
  valc : Word
  vala : Word
  valb : Word
  srca : Nibble
  srcb : Nibble
  deste : Nibble
  destm : Nibble
  status : Stat
  stage_pc : Word

/-- EX/MEM pipe register. -/
structure ExMemEle where
  icode : IType
  ifun : Nibble
  takebranch : Bool
  vale : Word
  vala : Word
  deste : Nibble
  destm : Nibble
  srca : Nibble
  status : Stat
  stage_pc : Word

/-- MEM/WB pipe register. -/
structure MemWbEle where
  icode : IType
  ifun : Nibble
  vale : Word
  valm : Word
  deste : Nibble
  destm : Nibble
  status : Stat
  stage_pc : Word

def bubble_pc : PcEle := ⟨0, STAT_AOK⟩

def bubble_if_id : IfIdEle := ⟨I_NOP, 0, REG_NONE, REG_NONE, 0, 0, STAT_BUB, 0⟩

def bubble_id_ex : IdExEle :=
  ⟨I_NOP, 0, 0, 0, 0, REG_NONE, REG_NONE, REG_NONE, REG_NONE, STAT_BUB, 0⟩

/-- The initializer has one value too few: `STAT_BUB`, which is 0, goes to `srca`, and the
0 behind it is the status, again `STAT_BUB`. -/
def bubble_ex_mem : ExMemEle := ⟨I_NOP, 0, false, 0, 0, REG_NONE, REG_NONE, 0, STAT_BUB, 0⟩

def bubble_mem_wb : MemWbEle := ⟨I_NOP, 0, 0, 0, REG_NONE, REG_NONE, STAT_BUB, 0⟩

/-- How a register is updated next time. -/
inductive PStat
  | P_LOAD | P_STALL | P_BUBBLE | P_ERROR
  deriving DecidableEq, Repr

open PStat

/-- A register with the state that the next update may load. The bubble is fixed by the
type. -/
structure PipeEle {α : Type} (bubble_val : α) where
  current : α
  next : α
  op : PStat

/-- A new register, and a cleared one. -/
def new_pipe {α : Type} (bubble_val : α) : PipeEle bubble_val := ⟨bubble_val, bubble_val, P_LOAD⟩

/-- One turn of the loop in `update_pipes`. -/
def update_pipe {α : Type} {bubble_val : α} (p : PipeEle bubble_val) : PipeEle bubble_val where
  current := match p.op with
    | P_BUBBLE | P_ERROR => bubble_val
    | P_LOAD => p.next
    | P_STALL => p.current
  next := p.next
  op := if p.op ≠ P_ERROR then P_LOAD else p.op

/-! ## The simulator -/

/-- The globals of the simulator that live from one cycle to the next. -/
structure Sim where
  mem : Mem
  reg : Regs
  cc : Cc
  cc_in : Cc
  wb_destE : Nibble
  wb_valE : Word
  wb_destM : Nibble
  wb_valM : Word
  mem_addr : Word
  mem_data : Word
  mem_write : Bool
  status : Stat
  pc : PipeEle bubble_pc
  if_id : PipeEle bubble_if_id
  id_ex : PipeEle bubble_id_ex
  ex_mem : PipeEle bubble_ex_mem
  mem_wb : PipeEle bubble_mem_wb

/-- The simulator after `sim_reset`, with the program already in memory. -/
def sim_reset (mem : Mem) : Sim where
  mem := mem
  reg := fun _ => 0
  cc := DEFAULT_CC
  cc_in := DEFAULT_CC
  wb_destE := REG_NONE
  wb_valE := 0
  wb_destM := REG_NONE
  wb_valM := 0
  mem_addr := 0
  mem_data := 0
  mem_write := false
  status := STAT_AOK
  pc := new_pipe bubble_pc
  if_id := new_pipe bubble_if_id
  id_ex := new_pipe bubble_id_ex
  ex_mem := new_pipe bubble_ex_mem
  mem_wb := new_pipe bubble_mem_wb

/-! ## The control logic -/

/-- A `jle`, and the `andq` that the control logic pairs it with. -/
def isJle (icode : IType) (ifun : Nibble) : Bool := icode == I_JMP && ifun == C_LE

def isAndq (icode : IType) (ifun : Nibble) : Bool := icode == I_ALU && ifun == A_AND

/-- What address should the instruction be fetched at? `f` is what the last cycle fetched. -/
def gen_f_pc (f : IfIdEle) (E : IdExEle) (M : ExMemEle) (W : MemWbEle) (F_predPC : Word) : Word :=
  if isJle f.icode f.ifun && isAndq E.icode E.ifun && positive E.vala then f.valp
  else if isJle M.icode M.ifun && isAndq W.icode W.ifun then F_predPC
  else if M.icode == I_JMP && !M.takebranch then M.vala
  else if W.icode = I_RET then W.valm
  else F_predPC

def gen_f_icode (imem_error : Bool) (imem_icode : IType) : IType :=
  if imem_error then I_NOP else imem_icode

def gen_f_ifun (imem_error : Bool) (imem_ifun : Nibble) : Nibble :=
  if imem_error then F_NONE else imem_ifun

/-- The rules that stand in both processors with the same text. -/
abbrev gen_instr_valid (f_icode : IType) : Bool := seq.gen_instr_valid f_icode

abbrev gen_need_regids (f_icode : IType) : Bool := seq.gen_need_regids f_icode

abbrev gen_need_valC (f_icode : IType) : Bool := seq.gen_need_valC f_icode

abbrev gen_d_srcA (D_icode : IType) (D_rA : Nibble) : Nibble := seq.gen_srcA D_icode D_rA

abbrev gen_d_srcB (D_icode : IType) (D_rB : Nibble) : Nibble := seq.gen_srcB D_icode D_rB

abbrev gen_d_dstM (D_icode : IType) (D_rA : Nibble) : Nibble := seq.gen_dstM D_icode D_rA

abbrev gen_aluA (E_icode : IType) (E_valA E_valC : Word) : Word :=
  seq.gen_aluA E_icode E_valA E_valC

abbrev gen_aluB (E_icode : IType) (E_valB : Word) : Word := seq.gen_aluB E_icode E_valB

abbrev gen_alufun (E_icode : IType) (E_ifun : Nibble) : Nibble := seq.gen_alufun E_icode E_ifun

abbrev gen_mem_addr (M_icode : IType) (M_valE M_valA : Word) : Word :=
  seq.gen_mem_addr M_icode M_valE M_valA

abbrev gen_mem_read (M_icode : IType) : Bool := seq.gen_mem_read M_icode

abbrev gen_mem_write (M_icode : IType) : Bool := seq.gen_mem_write M_icode

def gen_f_stat (imem_error instr_valid : Bool) (f_icode : IType) : Stat :=
  if imem_error then STAT_ADR
  else if !instr_valid then STAT_INS
  else if f_icode = I_HALT then STAT_HLT
  else STAT_AOK

/-- Predict the next value of the PC. -/
def gen_f_predPC (f : IfIdEle) : Word := if f.icode ∈ [I_JMP, I_CALL] then f.valc else f.valp

def gen_d_dstE (D_icode : IType) (D_rB : Nibble) : Nibble :=
  if D_icode ∈ [I_RRMOVQ, I_IRMOVQ, I_ALU, I_IADDQ] then D_rB
  else if D_icode ∈ [I_PUSHQ, I_POPQ, I_CALL, I_RET] then REG_RSP
  else REG_NONE

/-- The forwarding that both sources of an instruction use. `e` is what the execute stage
has computed, `m_valM` what the memory stage has read. -/
def forward (src : Nibble) (e : ExMemEle) (M : ExMemEle) (m_valM : Word) (W : MemWbEle)
    (rval : Word) : Word :=
  if src = e.deste then e.vale
  else if src = M.destm then m_valM
  else if src = M.deste then M.vale
  else if src = W.destm then W.valm
  else if src = W.deste then W.vale
  else rval

def gen_d_valA (D : IfIdEle) (E : IdExEle) (e : ExMemEle) (M : ExMemEle) (m_valM : Word)
    (W : MemWbEle) (d_srcA : Nibble) (d_rvalA : Word) : Word :=
  if isJle D.icode D.ifun && isAndq E.icode E.ifun then d_rvalA
  else if D.icode ∈ [I_CALL, I_JMP] then D.valp
  else forward d_srcA e M m_valM W d_rvalA

def gen_d_valB (e : ExMemEle) (M : ExMemEle) (m_valM : Word) (W : MemWbEle) (d_srcB : Nibble)
    (d_rvalB : Word) : Word := forward d_srcB e M m_valM W d_rvalB

/-- Something went wrong, or the program has come to its end. -/
def excepted (st : Stat) : Bool := st ∈ [STAT_ADR, STAT_INS, STAT_HLT]

/-- Should the condition codes be updated? Only during normal operation. -/
def gen_set_cc (E_icode : IType) (m_stat W_stat : Stat) : Bool :=
  E_icode ∈ [I_ALU, I_IADDQ] && !excepted m_stat && !excepted W_stat

def gen_e_valA (E_valA : Word) : Word := E_valA

/-- Set dstE to "no register" in the event of a conditional move that is not taken. -/
def gen_e_dstE (E_icode : IType) (e_Cnd : Bool) (E_dstE : Nibble) : Nibble :=
  if E_icode == I_RRMOVQ && !e_Cnd then REG_NONE else E_dstE

def gen_m_stat (dmem_error : Bool) (M_stat : Stat) : Stat := if dmem_error then STAT_ADR else M_stat

def gen_Stat (W_stat : Stat) : Stat := if W_stat = STAT_BUB then STAT_AOK else W_stat

/-- A load whose value the instruction in decode is waiting for. -/
def load_use (E : IdExEle) (d_srcA d_srcB : Nibble) : Bool :=
  E.icode ∈ [I_MRMOVQ, I_POPQ] && E.destm ∈ [d_srcA, d_srcB]

/-- A `ret` that has not read its address yet. -/
def ret_passes (D : IfIdEle) (E : IdExEle) (M : ExMemEle) : Bool :=
  I_RET ∈ [D.icode, E.icode, M.icode]

/-- A jump that is found not to be taken, the `jle` behind an `andq` apart. -/
def mispredicted (E : IdExEle) (e_Cnd : Bool) (M : ExMemEle) : Bool :=
  !(isJle E.icode E.ifun && isAndq M.icode M.ifun) && (E.icode == I_JMP && !e_Cnd)

def gen_F_bubble : Bool := false

def gen_F_stall (D : IfIdEle) (E : IdExEle) (M : ExMemEle) (d_srcA d_srcB : Nibble) : Bool :=
  load_use E d_srcA d_srcB || ret_passes D E M

def gen_D_stall (E : IdExEle) (d_srcA d_srcB : Nibble) : Bool := load_use E d_srcA d_srcB

def gen_D_bubble (D : IfIdEle) (E : IdExEle) (e_Cnd : Bool) (M : ExMemEle)
    (d_srcA d_srcB : Nibble) : Bool :=
  mispredicted E e_Cnd M || (!load_use E d_srcA d_srcB && ret_passes D E M)

def gen_E_stall : Bool := false

def gen_E_bubble (E : IdExEle) (e_Cnd : Bool) (M : ExMemEle) (d_srcA d_srcB : Nibble) : Bool :=
  mispredicted E e_Cnd M || load_use E d_srcA d_srcB

def gen_M_stall : Bool := false

def gen_M_bubble (m_stat W_stat : Stat) : Bool := excepted m_stat || excepted W_stat

def gen_W_stall (W_stat : Stat) : Bool := excepted W_stat

def gen_W_bubble : Bool := false

/-! ## The stages -/

/-- The fetch stage at the address `f_pc`: the first byte, a test read of a later one, the
register byte and the constant. -/
def fetch (mem : Mem) (f_pc : Word) : Option IfIdEle := do
  let instr := get_byte_val mem f_pc
  let imem_error := instr.isNone || (get_byte_val mem (f_pc + 5)).isNone
  let instr := instr.getD (hpack 1 F_NONE)
  let icode := gen_f_icode imem_error (IType.of (hi4 instr))
  let ifun := gen_f_ifun imem_error (lo4 instr)
  let status := gen_f_stat imem_error (gen_instr_valid icode) icode
  let valp := f_pc + 1
  let regids := if gen_need_regids icode then get_byte_val mem valp else none
  let regids := regids.getD (hpack REG_NONE REG_NONE)
  let valp := if gen_need_regids icode then valp + 1 else valp
  let valc ← if gen_need_valC icode then get_word_val mem valp else some none
  let valp := if gen_need_valC icode then valp + 8 else valp
  return { icode, ifun, ra := hi4 regids, rb := lo4 regids, valc := valc.getD 0, valp, status,
           stage_pc := f_pc }

def do_if_stage (p : Sim) : Option Sim := do
  let f_pc := gen_f_pc p.if_id.next p.id_ex.current p.ex_mem.current p.mem_wb.current p.pc.current.pc
  let next ← fetch p.mem f_pc
  let pc_next := ⟨gen_f_predPC next, if next.status = STAT_AOK then STAT_AOK else STAT_BUB⟩
  return { p with if_id := { p.if_id with next }, pc := { p.pc with next := pc_next } }

def do_mem_stage (p : Sim) : Option Sim := do
  let M := p.ex_mem.current
  let mem_addr := gen_mem_addr M.icode M.vale M.vala
  let mem_write := gen_mem_write M.icode
  let read ← if gen_mem_read M.icode then get_word_val p.mem mem_addr else some (some 0)
  -- a read of the address, just to check that the write will be good
  let sink ← if mem_write && read.isSome then get_word_val p.mem mem_addr else some (some 0)
  let dmem_error := read.isNone || sink.isNone
  let next := { icode := M.icode, ifun := M.ifun, vale := M.vale, valm := read.getD 0,
                deste := M.deste, destm := M.destm, status := gen_m_stat dmem_error M.status,
                stage_pc := M.stage_pc }
  return { p with mem_addr, mem_write, mem_data := M.vala, mem_wb := { p.mem_wb with next } }

/-- What the execute stage makes of the instruction in `E`. -/
def execute (cc : Cc) (E : IdExEle) : ExMemEle :=
  let e_bcond := cond_holds cc E.ifun
  let aluout := compute_alu (gen_alufun E.icode E.ifun) (gen_aluA E.icode E.vala E.valc)
    (gen_aluB E.icode E.valb)
  { icode := E.icode, ifun := E.ifun, takebranch := e_bcond, vale := aluout,
    vala := gen_e_valA E.vala, deste := gen_e_dstE E.icode e_bcond E.deste, destm := E.destm,
    srca := E.srca, status := E.status, stage_pc := E.stage_pc }

def do_ex_stage (p : Sim) : Sim :=
  let E := p.id_ex.current
  let setcc := gen_set_cc E.icode p.mem_wb.next.status p.mem_wb.current.status
  let new_cc := compute_cc (gen_alufun E.icode E.ifun) (gen_aluA E.icode E.vala E.valc)
    (gen_aluB E.icode E.valb)
  { p with cc_in := if setcc then new_cc else p.cc_in,
           ex_mem := { p.ex_mem with next := execute p.cc E } }

/-- Both decode and write back. The write-backs do not occur until the end of the cycle. -/
def do_id_wb_stages (p : Sim) : Sim :=
  let W := p.mem_wb.current
  let D := p.if_id.current
  let srca := gen_d_srcA D.icode D.ra
  let srcb := gen_d_srcB D.icode D.rb
  let d_regvala := get_reg_val p.reg srca
  let d_regvalb := get_reg_val p.reg srcb
  let vala := gen_d_valA D p.id_ex.current p.ex_mem.next p.ex_mem.current p.mem_wb.next.valm W srca
    d_regvala
  let valb := gen_d_valB p.ex_mem.next p.ex_mem.current p.mem_wb.next.valm W srcb d_regvalb
  let next := { icode := D.icode, ifun := D.ifun, valc := D.valc, vala, valb, srca, srcb,
                deste := gen_d_dstE D.icode D.rb, destm := gen_d_dstM D.icode D.ra,
                status := D.status, stage_pc := D.stage_pc }
  { p with wb_destE := W.deste, wb_valE := W.vale, wb_destM := W.destm, wb_valM := W.valm,
           status := gen_Stat W.status, id_ex := { p.id_ex with next } }

def pipe_cntl (stall bubble : Bool) : PStat :=
  if stall then if bubble then P_ERROR else P_STALL
  else if bubble then P_BUBBLE else P_LOAD

/-- Set the stalling conditions for the registers. -/
def do_stall_check (p : Sim) : Sim :=
  let D := p.if_id.current
  let E := p.id_ex.current
  let M := p.ex_mem.current
  let W := p.mem_wb.current
  let srca := p.id_ex.next.srca
  let srcb := p.id_ex.next.srcb
  let e_Cnd := p.ex_mem.next.takebranch
  let m_stat := p.mem_wb.next.status
  { p with
    pc := { p.pc with op := pipe_cntl (gen_F_stall D E M srca srcb) gen_F_bubble }
    if_id := { p.if_id with
      op := pipe_cntl (gen_D_stall E srca srcb) (gen_D_bubble D E e_Cnd M srca srcb) }
    id_ex := { p.id_ex with op := pipe_cntl gen_E_stall (gen_E_bubble E e_Cnd M srca srcb) }
    ex_mem := { p.ex_mem with op := pipe_cntl gen_M_stall (gen_M_bubble m_stat W.status) }
    mem_wb := { p.mem_wb with op := pipe_cntl (gen_W_stall W.status) gen_W_bubble } }

/-! ## The cycle -/

/-- Update the state elements. The updates of the memory and of the condition codes may be
disabled. -/
def update_state (update_mem update_cc : Bool) (p : Sim) : Option Sim := do
  let reg := if p.wb_destE ≠ REG_NONE then set_reg_val p.reg p.wb_destE p.wb_valE else p.reg
  let reg := if p.wb_destM ≠ REG_NONE then set_reg_val reg p.wb_destM p.wb_valM else reg
  -- a write that `set_word_val` refuses leaves the memory as it is
  let mem ← if update_mem && p.mem_write then
      (set_word_val p.mem p.mem_addr p.mem_data).map (·.getD p.mem)
    else some p.mem
  return { p with reg, mem, cc := if update_cc then p.cc_in else p.cc }

def update_pipes (p : Sim) : Sim :=
  { p with pc := update_pipe p.pc, if_id := update_pipe p.if_id, id_ex := update_pipe p.id_ex,
           ex_mem := update_pipe p.ex_mem, mem_wb := update_pipe p.mem_wb }

/-- A register whose control signals were in conflict gets the status `STAT_PIP`. -/
def mark_errors (p : Sim) : Sim :=
  let status (op : PStat) (st : Stat) := if op = P_ERROR then STAT_PIP else st
  { p with
    pc := { p.pc with current.status := status p.pc.op p.pc.current.status }
    if_id := { p.if_id with current.status := status p.if_id.op p.if_id.current.status }
    id_ex := { p.id_ex with current.status := status p.id_ex.op p.id_ex.current.status }
    ex_mem := { p.ex_mem with current.status := status p.ex_mem.op p.ex_mem.current.status }
    mem_wb := { p.mem_wb with current.status := status p.mem_wb.op p.mem_wb.current.status } }

/-- Run the pipeline for one cycle and return the status of the processor. At most
`max_instr` instructions are to complete. -/
def sim_step_pipe (max_instr : Nat) (p : Sim) : Option (Stat × Sim) := do
  let ahead_mem := if p.mem_wb.current.status ≠ STAT_BUB then 1 else 0
  let ahead_ex := ahead_mem + if p.mem_wb.next.status ≠ STAT_BUB then 1 else 0
  let p ← update_state (ahead_mem < max_instr) (ahead_ex < max_instr) p
  let p := mark_errors (update_pipes p)
  let p ← do_if_stage p
  let p ← do_mem_stage p
  let p := do_stall_check (do_id_wb_stages (do_ex_stage p))
  return (p.status, p)

/-- The loop of `sim_run_pipe`, with the cycles that are left of `max_cycle`. -/
def run_cycles (max_instr : Nat) : Nat → Nat → Stat → Sim → Option (Nat × Stat × Sim)
  | 0, icount, run_status, p => some (icount, run_status, p)
  | left + 1, icount, run_status, p =>
    if icount < max_instr then do
      let (run_status, p) ← sim_step_pipe (max_instr - icount) p
      let icount := if run_status ≠ STAT_BUB then icount + 1 else icount
      if run_status ≠ STAT_AOK ∧ run_status ≠ STAT_BUB then return (icount, run_status, p)
      else run_cycles max_instr left icount run_status p
    else some (icount, run_status, p)

/-- Run the pipeline until an error status is encountered in write back, `max_instr`
instructions have completed or `max_cycle` cycles have been simulated. -/
def sim_run_pipe (max_instr max_cycle : Nat) (p : Sim) : Option (Nat × Stat × Sim) :=
  run_cycles max_instr max_cycle 0 STAT_AOK p

end ics_labs.psim
