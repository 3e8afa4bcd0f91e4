-- `nexti` of lab4 tests two locals before it assigns them. When its outcome hangs on
-- what was on the stack.
import IcsLabs.Y64Faults

open ics_labs.byte_words ics_labs.memory
open ics_labs.isa (IType Stat State DEFAULT_CC)
open ics_labs.isa.IType ics_labs.isa.Stat

namespace ics_labs.y64sim

/-- The instruction type and the register byte, where `nexti` comes as far as its test of
the registers. -/
def registerByte (sim : State) : Option (IType × Byte) := do
  let codefun ← get_byte_val sim.m sim.pc
  let icode := GET_ICODE codefun
  let ifun := GET_FUN codefun
  if 6 < ifun.toNat ∨ icode = I_ALU ∧ 3 < ifun.toNat then none
  else if need_regs icode then
    let regs ← get_byte_val sim.m (sim.pc + 1)
    return (icode, regs)
  else none

/-- The test of the registers, on the two locals. -/
def Locals.normal (loc : Locals) : Bool := NORM_REG loc.regA && NORM_REG loc.regB

/-- `nexti` answers that the instruction is invalid. -/
def Rejects (loc : Locals) (sim : State) : Prop := ∃ s, nexti loc sim = some (STAT_INS, s)

/-! ## What the switch reads -/

/-- The `switch` reads a register or the constant only for an instruction that has it. -/
theorem execute_congr {sim : State} {d d' : Decoded} (hi : d.icode = d'.icode)
    (hf : d.ifun = d'.ifun) (hp : d.next_pc = d'.next_pc)
    (hr : need_regs d.icode = true → d.regA = d'.regA ∧ d.regB = d'.regB)
    (hm : need_immediate d.icode = true → d.immediate = d'.immediate) :
    execute sim d = execute sim d' := by
  obtain ⟨icode, ifun, regA, regB, immediate, next_pc⟩ := d
  obtain ⟨icode', ifun', regA', regB', immediate', next_pc'⟩ := d'
  simp only at hi hf hp hr hm
  subst hi hf hp
  cases icode <;> simp only [need_regs, need_immediate, forall_const, Bool.false_eq_true,
    false_implies] at hr hm
  case I_HALT | I_NOP | I_RET | I_IADDQ | I_POP2 | I_UNNAMED => rfl
  case I_RRMOVQ | I_ALU | I_PUSHQ | I_POPQ =>
    obtain ⟨rfl, rfl⟩ := hr
    rfl
  case I_JMP | I_CALL =>
    subst hm
    rfl
  case I_IRMOVQ | I_RMMOVQ | I_MRMOVQ =>
    obtain ⟨rfl, rfl⟩ := hr
    subst hm
    rfl

/-- An instruction with registers is not invalid once it is decoded. -/
theorem execute_not_ins {sim s : State} {d : Decoded} (hn : need_regs d.icode = true) :
    execute sim d ≠ some (STAT_INS, s) := by
  obtain ⟨icode, ifun, regA, regB, immediate, next_pc⟩ := d
  intro h
  cases icode <;> simp only [need_regs, Bool.false_eq_true] at hn
  case I_RRMOVQ | I_IRMOVQ | I_ALU => cases h
  case I_RMMOVQ | I_MRMOVQ | I_PUSHQ | I_POPQ =>
    obtain ⟨o, -, ho⟩ := Option.map_eq_some_iff.mp h
    cases o <;> cases ho

/-! ## The test of the registers -/

section Fetch

variable {loc loc₁ loc₂ : Locals} {sim : State} {icode : IType} {b : Byte}

theorem registerByte_some (h : registerByte sim = some (icode, b)) :
    ∃ codefun, get_byte_val sim.m sim.pc = some codefun ∧ icode = GET_ICODE codefun ∧
      ¬ (6 < (GET_FUN codefun).toNat ∨ icode = I_ALU ∧ 3 < (GET_FUN codefun).toNat) ∧
      need_regs icode = true ∧ get_byte_val sim.m (sim.pc + 1) = some b := by
  unfold registerByte at h
  obtain ⟨codefun, hc, h⟩ := Option.bind_eq_some_iff.mp h
  refine ⟨codefun, hc, ?_⟩
  dsimp only at h
  split at h
  · cases h
  · rename_i hfun
    split at h
    · rename_i hn
      obtain ⟨regs, hregs, h⟩ := Option.bind_eq_some_iff.mp h
      cases h
      exact ⟨rfl, hfun, hn, hregs⟩
    · cases h

theorem get_regs_eq (loc : Locals) (h : registerByte sim = some (icode, b)) :
    get_regs loc sim.m icode (sim.pc + 1) =
      if loc.normal then .ok (GET_REGA b, GET_REGB b, sim.pc + 1 + 1) else .error STAT_INS := by
  obtain ⟨codefun, -, -, -, hn, hb⟩ := registerByte_some h
  unfold get_regs Locals.normal
  rw [if_pos hn, hb]

/-- What was on the stack does not pass the test. -/
theorem nexti_abnormal (h : registerByte sim = some (icode, b)) (hl : loc.normal = false) :
    nexti loc sim = some (STAT_INS, sim) := by
  obtain ⟨codefun, hc, hi, hfun, -, -⟩ := registerByte_some h
  have hr := get_regs_eq loc h
  rw [hl, if_neg (by simp)] at hr
  unfold nexti fetch
  rw [hc]
  simp only
  rw [← hi, if_neg hfun, hr]
  rfl

/-- `nexti` behind its test of the registers. -/
def afterRegs (loc : Locals) (sim : State) (icode : IType) (ifun : Nibble) (regA regB : Int)
    (next_pc : Word) : Option (Stat × State) :=
  (get_immediate loc sim.m icode next_pc).bind fun
    | .error st => some (st, sim)
    | .ok (immediate, next_pc) => execute sim ⟨icode, ifun, regA, regB, immediate, next_pc⟩

theorem nexti_afterRegs {codefun : Byte} {regA regB : Int} {next_pc : Word}
    (hc : get_byte_val sim.m sim.pc = some codefun)
    (hfun : ¬ (6 < (GET_FUN codefun).toNat ∨ GET_ICODE codefun = I_ALU ∧
      3 < (GET_FUN codefun).toNat))
    (hr : get_regs loc sim.m (GET_ICODE codefun) (sim.pc + 1) = .ok (regA, regB, next_pc)) :
    nexti loc sim =
      afterRegs loc sim (GET_ICODE codefun) (GET_FUN codefun) regA regB next_pc := by
  unfold nexti fetch afterRegs
  rw [hc]
  simp only
  rw [if_neg hfun, hr]
  simp only
  rw [Option.bind_map]
  apply Option.bind_congr
  rintro (st | ⟨immediate, next_pc⟩) _ <;> rfl

/-- Behind the test the locals play no part but in fields that are not read. -/
theorem afterRegs_congr {ifun : Nibble} {regA regB regA' regB' : Int} {next_pc : Word}
    (hr : need_regs icode = true → regA = regA' ∧ regB = regB') :
    afterRegs loc₁ sim icode ifun regA regB next_pc =
      afterRegs loc₂ sim icode ifun regA' regB' next_pc := by
  unfold afterRegs get_immediate
  by_cases hm : need_immediate icode = true
  · rw [if_pos hm, if_pos hm]
    apply Option.bind_congr
    rintro (st | ⟨immediate, next_pc⟩) _
    · rfl
    · exact execute_congr rfl rfl rfl hr fun _ => rfl
  · rw [if_neg hm, if_neg hm]
    exact execute_congr rfl rfl rfl hr fun h => absurd h hm

/-- Where the instruction has no register byte to test, the locals play no part. -/
theorem nexti_congr_of_none (h : registerByte sim = none) : nexti loc₁ sim = nexti loc₂ sim := by
  cases hc : get_byte_val sim.m sim.pc with
  | none =>
    unfold nexti fetch
    rw [hc]
  | some codefun =>
    by_cases hfun : 6 < (GET_FUN codefun).toNat ∨ GET_ICODE codefun = I_ALU ∧
        3 < (GET_FUN codefun).toNat
    · unfold nexti fetch
      rw [hc]
      simp only
      rw [if_pos hfun, if_pos hfun]
    · by_cases hn : need_regs (GET_ICODE codefun) = true
      · -- The register byte is out of reach.
        have hb : get_byte_val sim.m (sim.pc + 1) = none := by
          unfold registerByte at h
          rw [hc] at h
          dsimp only [bind, Option.bind_some] at h
          rw [if_neg hfun, if_pos hn] at h
          cases hg : get_byte_val sim.m (sim.pc + 1) with
          | none => rfl
          | some regs =>
            rw [hg] at h
            cases h
        have hr : ∀ loc : Locals, get_regs loc sim.m (GET_ICODE codefun) (sim.pc + 1) =
            .error STAT_ADR := by
          intro loc
          unfold get_regs
          rw [if_pos hn, hb]
        unfold nexti fetch
        rw [hc]
        simp only
        rw [if_neg hfun, if_neg hfun, hr, hr]
      · rw [nexti_afterRegs hc hfun (if_neg hn), nexti_afterRegs hc hfun (if_neg hn)]
        exact afterRegs_congr fun h => absurd h hn

/-- Two normal assignments make no difference. -/
theorem nexti_congr_of_normal (h : registerByte sim = some (icode, b))
    (h₁ : loc₁.normal = true) (h₂ : loc₂.normal = true) : nexti loc₁ sim = nexti loc₂ sim := by
  obtain ⟨codefun, hc, rfl, hfun, -, -⟩ := registerByte_some h
  have hr₁ := get_regs_eq loc₁ h
  have hr₂ := get_regs_eq loc₂ h
  rw [h₁, if_pos rfl] at hr₁
  rw [h₂, if_pos rfl] at hr₂
  rw [nexti_afterRegs hc hfun hr₁, nexti_afterRegs hc hfun hr₂]
  exact afterRegs_congr fun _ => ⟨rfl, rfl⟩

/-- An instruction with a register byte is rejected by what was on the stack. -/
theorem rejects_iff (h : registerByte sim = some (icode, b)) :
    Rejects loc sim ↔ loc.normal = false := by
  constructor
  · rintro ⟨s, hs⟩
    by_contra hl
    rw [Bool.not_eq_false] at hl
    obtain ⟨codefun, hc, rfl, hfun, hn, -⟩ := registerByte_some h
    have hr := get_regs_eq loc h
    rw [hl, if_pos rfl] at hr
    rw [nexti_afterRegs hc hfun hr] at hs
    unfold afterRegs at hs
    obtain ⟨r, him, hs⟩ := Option.bind_eq_some_iff.mp hs
    cases r with
    | ok v => exact execute_not_ins hn hs
    | error st =>
      -- A constant out of reach is an address fault.
      simp only [Option.some.injEq, Prod.mk.injEq] at hs
      unfold get_immediate at him
      split at him
      · obtain ⟨o, -, ho⟩ := Option.map_eq_some_iff.mp him
        cases o
        · simp only [Except.error.injEq] at ho
          rw [← ho] at hs
          cases hs.1
        · cases ho
      · cases him
  · intro hl
    exact ⟨sim, nexti_abnormal h hl⟩

end Fetch

/-! ## The law -/

/-- Two assignments of the locals make no difference, and an instruction with a register
byte is rejected where the registers in that byte are not valid, and nowhere else. Which
registers are valid for an instruction is a parameter. -/
structure DecidedByCode (valid : IType → Int → Int → Bool) (sim : State)
    (loc₁ loc₂ : Locals) : Prop where
  same : nexti loc₁ sim = nexti loc₂ sim
  first : ∀ icode b, registerByte sim = some (icode, b) →
    (Rejects loc₁ sim ↔ valid icode (GET_REGA b) (GET_REGB b) = false)
  second : ∀ icode b, registerByte sim = some (icode, b) →
    (Rejects loc₂ sim ↔ valid icode (GET_REGA b) (GET_REGB b) = false)

/-- The outcome hangs on the instruction alone exactly when it has no register byte in
reach, or both assignments happen to pass the test just where the registers are valid. -/
theorem the_code_decides_iff (valid : IType → Int → Int → Bool) (sim : State)
    (loc₁ loc₂ : Locals) : DecidedByCode valid sim loc₁ loc₂ ↔
      ∀ icode b, registerByte sim = some (icode, b) →
        loc₁.normal = valid icode (GET_REGA b) (GET_REGB b) ∧
          loc₂.normal = valid icode (GET_REGA b) (GET_REGB b) := by
  constructor
  · intro h icode b hb
    have h₁ := h.first icode b hb
    have h₂ := h.second icode b hb
    rw [rejects_iff hb] at h₁ h₂
    exact ⟨Bool.eq_iff_iff.mpr (by simpa using not_congr h₁),
      Bool.eq_iff_iff.mpr (by simpa using not_congr h₂)⟩
  · intro h
    refine ⟨?_, ?_, ?_⟩
    · cases hb : registerByte sim with
      | none => exact nexti_congr_of_none hb
      | some v =>
        obtain ⟨icode, b⟩ := v
        obtain ⟨h₁, h₂⟩ := h icode b hb
        cases hv : valid icode (GET_REGA b) (GET_REGB b) with
        | true => exact nexti_congr_of_normal hb (h₁.trans hv) (h₂.trans hv)
        | false => rw [nexti_abnormal hb (h₁.trans hv), nexti_abnormal hb (h₂.trans hv)]
    · intro icode b hb
      rw [rejects_iff hb, (h icode b hb).1]
    · intro icode b hb
      rw [rejects_iff hb, (h icode b hb).2]

/-- `addq %rax, %rax` runs with zeros on the stack and is invalid with ones. -/
theorem the_stack_decides : ¬ ∃ valid : IType → Int → Int → Bool,
    ∀ (sim : State) (loc₁ loc₂ : Locals), DecidedByCode valid sim loc₁ loc₂ := by
  rintro ⟨valid, h⟩
  have hs := congrArg (Option.map Prod.fst)
    (h (oneInstruction 0x60 0x00 16) ⟨0, 0, 0⟩ ⟨-1, -1, 0⟩).same
  have h₁ : (nexti ⟨0, 0, 0⟩ (oneInstruction 0x60 0x00 16)).map Prod.fst = some STAT_AOK := rfl
  have h₂ : (nexti ⟨-1, -1, 0⟩ (oneInstruction 0x60 0x00 16)).map Prod.fst = some STAT_INS := rfl
  rw [h₁, h₂] at hs
  cases hs

end ics_labs.y64sim
