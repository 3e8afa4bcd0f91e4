-- The two simulators agree: on a well encoded instruction whose memory access is
-- good, `nexti` of lab4 and `step_state` of lab6 return the same status and
-- leave the same state, the condition codes after an ALU instruction apart.
import IcsLabs.Y64Sim
import IcsLabs.IsaFetch

open ics_labs.byte_words ics_labs.memory ics_labs.isa
open ics_labs.isa.IType ics_labs.isa.Stat

namespace ics_labs.y64sim

/-! ## A well encoded instruction -/

/-- The instructions of the Y86-64 set, with their function codes. -/
def Legal : IType → Nibble → Prop
  | I_RRMOVQ, ifun | I_JMP, ifun => ifun.toNat ≤ 6
  | I_ALU, ifun => ifun.toNat ≤ 3
  | I_IADDQ, _ | I_POP2, _ | I_UNNAMED, _ => False
  | _, ifun => ifun = 0

/-- The register fields that the instruction needs are registers. The base of a memory
address may be missing. -/
def RegsLegal : IType → Nibble → Nibble → Prop
  | I_RRMOVQ, rA, rB | I_ALU, rA, rB => rA ≠ REG_NONE ∧ rB ≠ REG_NONE
  | I_IRMOVQ, _, rB => rB ≠ REG_NONE
  | I_RMMOVQ, rA, _ | I_MRMOVQ, rA, _ | I_PUSHQ, rA, _ | I_POPQ, rA, _ => rA ≠ REG_NONE
  | _, _, _ => True

/-- The address that the instruction reads or writes. -/
def dataAddress (s : State) : Option Word :=
  match icodeAt s with
  | I_RMMOVQ | I_MRMOVQ => some (constAt s + getReg s.r (lo4 (codeByte s 1)))
  | I_CALL | I_PUSHQ => some (getReg s.r REG_RSP - 8)
  | I_RET | I_POPQ => some (getReg s.r REG_RSP)
  | _ => none

/-- The bytes at `pc` are a correct instruction, all of it and its data inside memory. -/
structure WellEncoded (s : State) : Prop where
  legal : Legal (icodeAt s) (ifunAt s)
  whole : Inside s.m s.pc (lengthAt s)
  regs : RegsLegal (icodeAt s) (hi4 (codeByte s 1)) (lo4 (codeByte s 1))
  access : ∀ a ∈ dataAddress s, Inside s.m a 8

/-! ## The fetch of lab4 -/

theorem need_regs_eq {icode : IType} {ifun : Nibble} (h : Legal icode ifun) :
    need_regs icode = need_regids icode := by
  cases icode <;> first | rfl | exact h.elim

theorem need_immediate_eq {icode : IType} {ifun : Nibble} (h : Legal icode ifun) :
    need_immediate icode = need_imm icode := by
  cases icode <;> first | rfl | exact h.elim

/-- A legal instruction passes the test of the function code. -/
theorem ifun_passes {icode : IType} {ifun : Nibble} (h : Legal icode ifun) :
    ¬(6 < ifun.toNat ∨ icode = I_ALU ∧ 3 < ifun.toNat) := by
  cases icode <;> simp only [Legal] at h
  case I_RRMOVQ | I_JMP | I_ALU => simp; omega
  all_goals
    subst h
    decide

/-- The locals of `nexti` when all bytes of the instruction are inside memory. -/
def decodedAt (loc : Locals) (s : State) : Decoded where
  icode := icodeAt s
  ifun := ifunAt s
  regA := if need_regids (icodeAt s) then (hi4 (codeByte s 1)).toNat else loc.regA
  regB := if need_regids (icodeAt s) then (lo4 (codeByte s 1)).toNat else loc.regB
  immediate := if need_imm (icodeAt s) then constAt s else loc.immediate
  next_pc := s.pc + BitVec.ofNat 64 (lengthAt s)

/-- The two locals that `nexti` tests before it assigns them pass the test. -/
def Locals.Pass (loc : Locals) : Prop := NORM_REG loc.regA = true ∧ NORM_REG loc.regB = true

theorem fetch_decodes {s : State} {loc : Locals} (h : Inside s.m s.pc (lengthAt s))
    (hlegal : Legal (icodeAt s) (ifunAt s)) (hloc : loc.Pass) :
    fetch loc s.m s.pc = some (.ok (decodedAt loc s)) := by
  obtain ⟨hA, hB⟩ := hloc
  have hic : GET_ICODE (codeByte s 0) = icodeAt s := rfl
  have hif : GET_FUN (codeByte s 0) = ifunAt s := rfl
  have hreg : get_regs loc s.m (icodeAt s) (s.pc + 1) = .ok ((decodedAt loc s).regA,
      (decodedAt loc s).regB, s.pc + BitVec.ofNat 64 (constOffset s)) := by
    unfold get_regs get_byte_val
    rw [need_regs_eq hlegal, constOffset_pc]
    split
    · rename_i hn
      simp only [second_byte h hn, hA, hB, decodedAt, hn, if_true]
      rfl
    · rename_i hn
      simp only [decodedAt, hn]
      rfl
  have himm : get_immediate loc s.m (icodeAt s) (s.pc + BitVec.ofNat 64 (constOffset s)) =
      some (.ok ((decodedAt loc s).immediate, (decodedAt loc s).next_pc)) := by
    unfold get_immediate get_long_val
    simp only [need_immediate_eq hlegal, decodedAt, lengthAt_pc]
    split
    · rename_i hn
      rw [const_word h hn]
      rfl
    · rfl
  unfold fetch get_byte_val
  simp only [first_byte h, hic, hif, if_neg (ifun_passes hlegal), hreg, himm]
  rfl

theorem get_reg_val_nibble (r : Regs) (id : Nibble) : get_reg_val r id.toNat = getReg r id := by
  unfold get_reg_val getReg
  by_cases h : id.toNat < 15
  · rw [dif_pos h, dif_pos ⟨by omega, by omega⟩]
    rfl
  · rw [dif_neg h, dif_neg (by omega)]

theorem set_reg_val_nibble (r : Regs) (id : Nibble) (v : Word) :
    set_reg_val r id.toNat v = setReg r id v := by
  funext i
  unfold set_reg_val setReg
  congr 1
  exact propext Nat.cast_inj

/-! ## The two executions -/

theorem cond_doit_eq (cc : Cc) (cond : Nibble) : cond_doit cc cond = cond_holds cc cond := by
  obtain ⟨zf, sf, of⟩ := cc
  revert zf sf of cond
  decide

theorem compute_alu_eq (op : Nibble) (a b : Word) :
    compute_alu op a b = isa.compute_alu op a b := by
  unfold compute_alu isa.compute_alu
  rw [BitVec.add_comm, BitVec.and_comm, BitVec.xor_comm]

/-- A base register that is missing counts as 0. -/
theorem address_eq (r : Regs) (id : Nibble) (c : Word) :
    (if reg_valid id then c + getReg r id else c) = getReg r id + c := by
  by_cases h : id = REG_NONE
  · subst h
    simp [reg_valid]
  · simp [reg_valid, h, BitVec.add_comm]

/-- Two ends of a step that agree on all but the condition codes of an ALU instruction. -/
structure SameEnd (s t u : State) : Prop where
  pc : t.pc = u.pc
  r : t.r = u.r
  m : t.m = u.m
  cc : icodeAt s ≠ I_ALU → t.cc = u.cc

theorem SameEnd.refl (s t : State) : SameEnd s t t := ⟨rfl, rfl, rfl, fun _ => rfl⟩

theorem execute_agrees {s : State} (loc : Locals) (h : WellEncoded s) :
    ∃ st t u, execute s (decodedAt loc s) = some (st, t) ∧
      isa.execute s (fetchedAt s) = some (st, u) ∧ SameEnd s t u := by
  obtain ⟨hlegal, -, hregs, haccess⟩ := h
  unfold dataAddress at haccess
  unfold execute isa.execute decodedAt fetchedAt regByte
  simp only [cond_doit_eq, compute_alu_eq, address_eq, get_long_val, set_long_val,
    isa.get_reg_val, isa.set_reg_val, get_word_val, set_word_val]
  cases hic : icodeAt s <;>
    simp only [hic, RegsLegal, Legal, Option.mem_some_iff, forall_eq', need_regids, need_imm,
      get_reg_val_nibble, set_reg_val_nibble, if_true, if_false, Bool.false_eq_true,
      Bool.not_true, reg_valid] at hlegal hregs haccess ⊢
  case I_HALT | I_NOP => exact ⟨_, _, _, rfl, rfl, SameEnd.refl s _⟩
  case I_RRMOVQ =>
    obtain ⟨hA, hB⟩ := hregs
    simp only [bne_iff_ne.mpr hA, bne_iff_ne.mpr hB]
    exact ⟨_, _, _, rfl, rfl, SameEnd.refl s _⟩
  case I_IRMOVQ =>
    simp only [bne_iff_ne.mpr hregs]
    exact ⟨_, _, _, rfl, rfl, SameEnd.refl s _⟩
  case I_RMMOVQ =>
    rw [BitVec.add_comm] at haccess
    simp only [bne_iff_ne.mpr hregs, writeWord_inside haccess]
    exact ⟨_, _, _, rfl, rfl, SameEnd.refl s _⟩
  case I_MRMOVQ =>
    rw [BitVec.add_comm] at haccess
    simp only [bne_iff_ne.mpr hregs, readWord_inside haccess]
    exact ⟨_, _, _, rfl, rfl, SameEnd.refl s _⟩
  case I_ALU =>
    refine ⟨_, _, _, rfl, rfl, rfl, rfl, rfl, fun hne => ?_⟩
    exact absurd hic hne
  case I_JMP =>
    refine ⟨_, _, _, rfl, rfl, ?_, rfl, rfl, fun _ => rfl⟩
    cases cond_holds s.cc (ifunAt s) <;> rfl
  case I_CALL =>
    simp only [writeWord_inside haccess]
    exact ⟨_, _, _, rfl, rfl, SameEnd.refl s _⟩
  case I_RET =>
    simp only [readWord_inside haccess]
    exact ⟨_, _, _, rfl, rfl, SameEnd.refl s _⟩
  case I_PUSHQ =>
    simp only [bne_iff_ne.mpr hregs, writeWord_inside haccess]
    exact ⟨_, _, _, rfl, rfl, SameEnd.refl s _⟩
  case I_POPQ =>
    simp only [bne_iff_ne.mpr hregs, readWord_inside haccess]
    exact ⟨_, _, _, rfl, rfl, SameEnd.refl s _⟩

/-! ## The law -/

/-- On a well encoded instruction the two simulators return the same status and leave the
same program counter, registers and memory. -/
theorem the_two_simulators_agree (loc : Locals) (hloc : loc.Pass) (s : State)
    (h : WellEncoded s) :
    ∃ st t u, nexti loc s = some (st, t) ∧ step_state s = some (st, u) ∧ SameEnd s t u := by
  obtain ⟨st, t, u, ht, hu, hend⟩ := execute_agrees loc h
  refine ⟨st, t, u, ?_, ?_, hend⟩
  · unfold nexti
    rw [fetch_decodes h.whole h.legal hloc]
    exact ht
  · rw [step_state_at h.whole]
    exact hu

/-- `pushq %rsp`, with the stack pointer at 16. -/
def push_rsp : State where
  pc := 0
  r := setReg (fun _ => 0) REG_RSP 16
  m := { len := 32, contents := fun x => if x = 0 then 0xA0 else if x = 1 then 0x4F else 0,
         len_lt := by norm_num }
  cc := DEFAULT_CC

theorem push_rsp_agrees :
    ∃ st t u, nexti ⟨0, 0, 0⟩ push_rsp = some (st, t) ∧ step_state push_rsp = some (st, u) ∧
      SameEnd push_rsp t u :=
  the_two_simulators_agree ⟨0, 0, 0⟩ ⟨rfl, rfl⟩ push_rsp
    { legal := rfl
      whole := by decide
      regs := by
        change (4 : Nibble) ≠ REG_NONE
        decide
      access := by
        intro a ha
        cases ha
        decide }

end ics_labs.y64sim
