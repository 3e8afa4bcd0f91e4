-- The sequential processor runs the instruction set: a cycle and its commit do what
-- `step_state` does, for every instruction that `step_state` carries out.
import IcsLabs.Seq

open ics_labs.byte_words ics_labs.memory ics_labs.runs ics_labs.isa
open ics_labs.isa.IType ics_labs.isa.Stat

namespace ics_labs.seq

/-- The state of the instruction set that a processor state with nothing pending shows. -/
def shown (p : Sim) : State := { pc := p.pc, r := p.reg, m := p.mem, cc := p.cc }

theorem gen_need_regids_eq (icode : IType) : gen_need_regids icode = need_regids icode := by
  cases icode <;> rfl

theorem gen_need_valC_eq (icode : IType) : gen_need_valC icode = need_imm icode := by
  cases icode <;> rfl

/-- Both machines fetch the same instruction. -/
theorem fetch_agrees {m : Mem} {pc : Word} {byte0 : Byte} {fi : Fetched}
    (hb : get_byte_val m pc = some byte0) (hf : isa.fetch m pc byte0 = some fi) :
    ∃ f, fetch m pc = some f ∧ f.imem_error = false ∧ f.icode = fi.hi0 ∧ f.ifun = fi.lo0 ∧
      (fi.ok1 = true → f.ra = fi.hi1 ∧ f.rb = fi.lo1) ∧ f.valc = fi.cval ∧ f.valp = fi.ftpc := by
  unfold isa.fetch at hf
  unfold fetch
  simp only [hb, gen_need_regids_eq, gen_need_valC_eq, gen_icode, gen_ifun, Option.isNone_some,
    Option.getD_some, Bool.false_eq_true, if_false] at hf ⊢
  generalize IType.of (hi4 byte0) = hi0 at hf ⊢
  cases hr : need_regids hi0 <;> cases hi : need_imm hi0 <;>
    simp only [hr, hi, if_true, if_false, Bool.false_eq_true, Option.bind_eq_bind,
      Option.bind_some, Option.pure_def] at hf ⊢
  · cases hf
    exact ⟨_, rfl, rfl, rfl, rfl, fun _ => ⟨rfl, rfl⟩, rfl, rfl⟩
  · cases hv : get_word_val m (pc + 1) with
    | none => rw [hv] at hf; cases hf
    | some v =>
      simp only [hv, Option.bind_some] at hf ⊢
      cases hf
      exact ⟨_, rfl, rfl, rfl, rfl, fun _ => ⟨rfl, rfl⟩, rfl, rfl⟩
  · cases hf
    refine ⟨_, rfl, rfl, rfl, rfl, fun hok => ?_, rfl, rfl⟩
    cases hg : get_byte_val m (pc + 1) with
    | none => rw [hg] at hok; cases hok
    | some b => exact ⟨rfl, rfl⟩
  · cases hv : get_word_val m (pc + 1 + 1) with
    | none => rw [hv] at hf; cases hf
    | some v =>
      simp only [hv, Option.bind_some] at hf ⊢
      cases hf
      refine ⟨_, rfl, rfl, rfl, rfl, fun hok => ?_, rfl, rfl⟩
      cases hg : get_byte_val m (pc + 1) with
      | none => rw [hg] at hok; cases hok
      | some b => exact ⟨rfl, rfl⟩

/-- What `step_state` read and then did, for a step that it completes. -/
theorem step_state_some {s s' : State} {st : Stat} (h : step_state s = some (st, s'))
    (hst : st ≠ STAT_ADR) :
    ∃ byte0 fi, get_byte_val s.m s.pc = some byte0 ∧ isa.fetch s.m s.pc byte0 = some fi ∧
      execute s fi = some (st, s') := by
  unfold step_state at h
  cases hb : get_byte_val s.m s.pc with
  | none => simp [hb] at h; exact absurd h.1.symm hst
  | some byte0 =>
    simp only [hb] at h
    obtain ⟨fi, hf, he⟩ := Option.bind_eq_some_iff.mp h
    exact ⟨byte0, fi, rfl, hf, he⟩

/-! ## What one instruction does -/

/-- The signals of a cycle, as functions of the registers and the fetched instruction. -/
def valA (r : Regs) (f : Fetch) : Word := get_reg_val r (gen_srcA f.icode f.ra)

def valB (r : Regs) (f : Fetch) : Word := get_reg_val r (gen_srcB f.icode f.rb)

def aluA (r : Regs) (f : Fetch) : Word := gen_aluA f.icode (valA r f) f.valc

def aluB (r : Regs) (f : Fetch) : Word := gen_aluB f.icode (valB r f)

def valE (r : Regs) (f : Fetch) : Word :=
  compute_alu (gen_alufun f.icode f.ifun) (aluA r f) (aluB r f)

def newCc (cc : Cc) (r : Regs) (f : Fetch) : Cc :=
  if gen_set_cc f.icode then compute_cc (gen_alufun f.icode f.ifun) (aluA r f) (aluB r f) else cc

def memAddr (r : Regs) (f : Fetch) : Word := gen_mem_addr f.icode (valE r f) (valA r f)

def memData (r : Regs) (f : Fetch) : Word := gen_mem_data f.icode (valA r f) f.valp

/-- The registers after the two write-backs, the one of the memory value last. -/
def newRegs (s : State) (f : Fetch) (valM : Word) : Regs :=
  set_reg_val (set_reg_val s.r (gen_dstE f.icode f.rb (cond_holds s.cc f.ifun)) (valE s.r f))
    (gen_dstM f.icode f.ra) valM

/-- The state after the instruction, from the value that it reads and the memory that it
leaves. -/
def after (s : State) (f : Fetch) (valM : Word) (m : Mem) : State where
  pc := gen_new_pc f.icode (cond_holds s.cc f.ifun) f.valc valM f.valp
  r := newRegs s f valM
  m := m
  cc := newCc s.cc s.r f

/-- The instruction is one to carry out, and its memory accesses are good. -/
structure Carried (s : State) (f : Fetch) (valM : Word) (m : Mem) : Prop where
  no_error : f.imem_error = false
  valid : gen_instr_valid f.icode = true
  no_halt : f.icode ≠ I_HALT
  read : gen_mem_read f.icode = true → get_word_val s.m (memAddr s.r f) = some (some valM)
  no_read : gen_mem_read f.icode = false → valM = 0
  write : gen_mem_write f.icode = true →
    set_word_val s.m (memAddr s.r f) (memData s.r f) = some (some m)
  no_write : gen_mem_write f.icode = false → m = s.m

@[simp] theorem compute_alu_add (a b : Word) : compute_alu A_ADD a b = a + b := rfl

/-- The base register of an address may be missing; its value is then 0. -/
theorem base_plus (r : Regs) (id : Nibble) (c : Word) :
    (if reg_valid id then c + get_reg_val r id else c) = c + get_reg_val r id := by
  by_cases h : id = REG_NONE
  · subst h
    simp [reg_valid, get_reg_val]
  · simp [reg_valid, h]

theorem minus_eight (w : Word) : w - 8 = -8 + w := by
  rw [BitVec.add_comm, BitVec.sub_eq_add_neg]

theorem plus_eight (w : Word) : w + 8 = 8 + w := BitVec.add_comm w 8

section

attribute [local simp] gen_instr_valid gen_srcA gen_srcB gen_dstE gen_dstM gen_aluA gen_aluB
  gen_alufun gen_set_cc gen_mem_read gen_mem_write gen_mem_addr gen_mem_data gen_new_pc
  valA valB aluA aluB valE newCc memAddr memData newRegs after set_reg_val

/-- Every step of the instruction set is the one that the control logic describes. -/
theorem execute_carried {s s' : State} {fi : Fetched} {f : Fetch}
    (herr : f.imem_error = false) (hic : f.icode = fi.hi0) (hif : f.ifun = fi.lo0)
    (hreg : fi.ok1 = true → f.ra = fi.hi1 ∧ f.rb = fi.lo1) (hvc : f.valc = fi.cval)
    (hvp : f.valp = fi.ftpc) (he : execute s fi = some (STAT_AOK, s')) :
    ∃ valM m, Carried s f valM m ∧ s' = after s f valM m := by
  unfold execute at he
  simp only [base_plus, minus_eight, plus_eight] at he
  cases hi0 : fi.hi0 <;> simp only [hi0] at he hic
  case I_HALT | I_POP2 | I_UNNAMED => cases he
  case I_NOP =>
    cases he
    refine ⟨0, s.m, ⟨herr, ?_, ?_, ?_, ?_, ?_, ?_⟩, ?_⟩ <;> simp [hic, hvp]
  case I_JMP =>
    split at he; · cases he
    split at he; · cases he
    cases he
    refine ⟨0, s.m, ⟨herr, ?_, ?_, ?_, ?_, ?_, ?_⟩, ?_⟩ <;> simp [hic, hif, hvc, hvp]
  case I_RET =>
    obtain ⟨v, hv, he⟩ := Option.map_eq_some_iff.mp he
    cases v with
    | none => cases he
    | some v =>
      cases he
      refine ⟨v, s.m, ⟨herr, ?_, ?_, ?_, ?_, ?_, ?_⟩, ?_⟩ <;> simp [hic, hv]
  case I_CALL =>
    split at he; · cases he
    split at he; · cases he
    obtain ⟨v, hv, he⟩ := Option.map_eq_some_iff.mp he
    cases v with
    | none => cases he
    | some m =>
      cases he
      refine ⟨0, m, ⟨herr, ?_, ?_, ?_, ?_, ?_, ?_⟩, ?_⟩ <;> simp [hic, hvc, hvp]
      simpa using hv
  all_goals
    split at he; · cases he
    rename_i hok
    obtain ⟨hra, hrb⟩ := hreg (by simpa using hok)
  case I_ALU =>
    cases he
    refine ⟨0, s.m, ⟨herr, ?_, ?_, ?_, ?_, ?_, ?_⟩, ?_⟩ <;> simp [hic, hif, hvp, hra, hrb]
  case I_RRMOVQ =>
    split at he; · cases he
    split at he; · cases he
    cases he
    refine ⟨0, s.m, ⟨herr, ?_, ?_, ?_, ?_, ?_, ?_⟩, ?_⟩ <;> simp [hic, hif, hvp, hra, hrb]
    split <;> simp
  case I_IRMOVQ =>
    split at he; · cases he
    split at he; · cases he
    cases he
    refine ⟨0, s.m, ⟨herr, ?_, ?_, ?_, ?_, ?_, ?_⟩, ?_⟩ <;> simp [hic, hvp, hvc, hrb]
  case I_IADDQ =>
    split at he; · cases he
    split at he; · cases he
    cases he
    refine ⟨0, s.m, ⟨herr, ?_, ?_, ?_, ?_, ?_, ?_⟩, ?_⟩ <;>
      simp [hic, hvp, hvc, hrb, BitVec.add_comm]
  case I_RMMOVQ =>
    split at he; · cases he
    split at he; · cases he
    obtain ⟨v, hv, he⟩ := Option.map_eq_some_iff.mp he
    cases v with
    | none => cases he
    | some m =>
      cases he
      refine ⟨0, m, ⟨herr, ?_, ?_, ?_, ?_, ?_, ?_⟩, ?_⟩ <;> simp [hic, hvp, hvc, hra, hrb, hv]
  case I_MRMOVQ =>
    split at he; · cases he
    split at he; · cases he
    obtain ⟨v, hv, he⟩ := Option.map_eq_some_iff.mp he
    cases v with
    | none => cases he
    | some v =>
      cases he
      refine ⟨v, s.m, ⟨herr, ?_, ?_, ?_, ?_, ?_, ?_⟩, ?_⟩ <;> simp [hic, hvp, hvc, hra, hrb, hv]
  case I_PUSHQ =>
    split at he; · cases he
    obtain ⟨v, hv, he⟩ := Option.map_eq_some_iff.mp he
    cases v with
    | none => cases he
    | some m =>
      cases he
      refine ⟨0, m, ⟨herr, ?_, ?_, ?_, ?_, ?_, ?_⟩, ?_⟩ <;> simp [hic, hvp, hra]
      simpa using hv
  case I_POPQ =>
    split at he; · cases he
    obtain ⟨v, hv, he⟩ := Option.map_eq_some_iff.mp he
    cases v with
    | none => cases he
    | some v =>
      cases he
      refine ⟨v, s.m, ⟨herr, ?_, ?_, ?_, ?_, ?_, ?_⟩, ?_⟩ <;> simp [hic, hvp, hra, hv]

end

/-! ## One cycle -/

theorem read_port (r : Regs) (id : Nibble) :
    (if id ≠ REG_NONE then get_reg_val r id else 0) = get_reg_val r id := by
  by_cases h : id = REG_NONE
  · subst h
    simp [get_reg_val]
  · rw [if_pos h]

theorem write_port (r : Regs) (id : Nibble) (v : Word) :
    (if id ≠ REG_NONE then set_reg_val r id v else r) = set_reg_val r id v := by
  by_cases h : id = REG_NONE
  · subst h
    simp [set_reg_val]
  · rw [if_pos h]

/-- What a cycle leaves pending. -/
def pending (q : Sim) (f : Fetch) (valM : Word) : Sim :=
  { q with
    pc_in := gen_new_pc f.icode (cond_holds q.cc f.ifun) f.valc valM f.valp
    cc_in := newCc q.cc q.reg f
    destE := gen_dstE f.icode f.rb (cond_holds q.cc f.ifun)
    vale := valE q.reg f
    destM := gen_dstM f.icode f.ra
    valm := valM
    mem_write := gen_mem_write f.icode
    mem_addr := memAddr q.reg f
    mem_data := memData q.reg f }

theorem compute_eq (q : Sim) (f : Fetch) :
    compute q f = (do
      let read ← if gen_mem_read f.icode then get_word_val q.mem (memAddr q.reg f)
        else some (some 0)
      let junk ← if gen_mem_write f.icode then get_word_val q.mem (memAddr q.reg f)
        else some (some 0)
      return (gen_Stat f.icode f.imem_error (read.isNone || junk.isNone)
        (gen_instr_valid f.icode), pending q f (read.getD q.valm))) := by
  unfold compute
  simp only [read_port]
  rfl

theorem update_state_eq (p : Sim) :
    update_state p = (do
      let mem ← if p.mem_write then
          (set_word_val p.mem p.mem_addr p.mem_data).map (·.getD p.mem)
        else some p.mem
      return { p with
        pc := p.pc_in, cc := p.cc_in, mem
        reg := set_reg_val (set_reg_val p.reg p.destE p.vale) p.destM p.valm }) := by
  unfold update_state
  simp only [write_port]

/-- The commit of a state that waits for no memory write. -/
theorem update_state_no_write {p : Sim} (h : p.mem_write = false) :
    update_state p = some { p with
      pc := p.pc_in, cc := p.cc_in
      reg := set_reg_val (set_reg_val p.reg p.destE p.vale) p.destM p.valm } := by
  rw [update_state_eq, h]
  rfl

/-- An address that takes a write can be read. -/
theorem get_of_set {m m' : Mem} {a v : Word} (h : set_word_val m a v = some (some m')) :
    get_word_val m a = some (some (wordAt m a)) := readWord_inside (writeWord_some h).1

/-- A cycle whose memory accesses are good ends with `STAT_AOK`, and its commit shows the
state after the instruction. -/
theorem compute_carried {q : Sim} {f : Fetch} {valM : Word} {m : Mem}
    (h : Carried (shown q) f valM m) :
    ∃ p' q', compute q f = some (STAT_AOK, p') ∧ update_state p' = some q' ∧
      shown q' = after (shown q) f valM m := by
  obtain ⟨herr, hvalid, hhalt, hread, hnoread, hwrite, hnowrite⟩ := h
  refine ⟨pending q f (if gen_mem_read f.icode then valM else 0), ?_⟩
  have hstat : gen_Stat f.icode f.imem_error false (gen_instr_valid f.icode) = STAT_AOK := by
    simp [gen_Stat, herr, hvalid, hhalt]
  rw [compute_eq, update_state_eq]
  cases hr : gen_mem_read f.icode <;> cases hw : gen_mem_write f.icode
  · have hv := hnoread hr
    have hm := hnowrite hw
    subst hv hm
    simp [pending, hstat, hw, shown, after, newRegs]
  · have hv := hnoread hr
    subst hv
    have hset := hwrite hw
    have hget := get_of_set hset
    simp only [shown] at hset hget
    simp [pending, hget, hset, hstat, hw, shown, after, newRegs]
  · have hm := hnowrite hw
    subst hm
    have hget := hread hr
    simp only [shown] at hget
    simp [pending, hget, hstat, hw, shown, after, newRegs]
  · cases hic : f.icode <;> simp [hic, gen_mem_read, gen_mem_write] at hr hw

/-- The state of the instruction set that a processor state shows once its pending updates
are committed. -/
def Shows (p : Sim) (s : State) : Prop := ∃ q, update_state p = some q ∧ shown q = s

theorem sim_step_eq {p q : Sim} {f : Fetch} (hq : update_state p = some q)
    (hf : fetch q.mem q.pc = some f) : sim_step p = compute q f := by
  unfold sim_step
  simp only [hq, hf, Option.bind_eq_bind, Option.bind_some]

theorem sim_step_aok {p : Sim} {s s' : State} (hp : Shows p s)
    (h : step_state s = some (STAT_AOK, s')) :
    ∃ p', sim_step p = some (STAT_AOK, p') ∧ Shows p' s' := by
  obtain ⟨q, hq, rfl⟩ := hp
  obtain ⟨byte0, fi, hb, hf, he⟩ := step_state_some h (by simp)
  obtain ⟨f, hff, herr, hic, hif, hreg, hvc, hvp⟩ := fetch_agrees hb hf
  obtain ⟨valM, m, hc, rfl⟩ := execute_carried herr hic hif hreg hvc hvp he
  obtain ⟨p', q', hp', hq', hs⟩ := compute_carried hc
  exact ⟨p', by rw [sim_step_eq hq hff, hp'], q', hq', hs⟩

/-- Only the halt instruction halts, and it changes nothing. -/
theorem execute_hlt {s s' : State} {fi : Fetched} (h : execute s fi = some (STAT_HLT, s')) :
    fi.hi0 = I_HALT ∧ s' = s := by
  unfold execute at h
  cases hi0 : fi.hi0 <;> simp only [hi0] at h
  case I_HALT =>
    cases h
    exact ⟨rfl, rfl⟩
  all_goals
    exfalso
    repeat' split at h
    all_goals first
      | cases h
      | (obtain ⟨v, -, he⟩ := Option.map_eq_some_iff.mp h
         cases v <;> cases he)

theorem sim_step_hlt {p : Sim} {s s' : State} (hp : Shows p s)
    (h : step_state s = some (STAT_HLT, s')) :
    ∃ p' t, sim_step p = some (STAT_HLT, p') ∧ Shows p' t ∧
      t.r = s.r ∧ t.m = s.m ∧ t.cc = s.cc := by
  obtain ⟨q, hq, rfl⟩ := hp
  obtain ⟨byte0, fi, hb, hf, he⟩ := step_state_some h (by simp)
  obtain ⟨f, hff, herr, hic, -, -, -, -⟩ := fetch_agrees hb hf
  obtain ⟨hi0, rfl⟩ := execute_hlt he
  rw [hi0] at hic
  have hc : compute q f = some (STAT_HLT, pending q f 0) := by
    rw [compute_eq]
    simp [hic, herr, gen_mem_read, gen_mem_write, gen_Stat, gen_instr_valid]
  refine ⟨pending q f 0, _, by rw [sim_step_eq hq hff, hc],
    ⟨_, update_state_no_write (by simp [pending, hic, gen_mem_write]), rfl⟩, ?_, ?_, ?_⟩ <;>
    simp [shown, pending, hic, gen_dstE, gen_dstM, set_reg_val, newCc, gen_set_cc]

/-! ## The law -/

/-- A cycle of the sequential processor and its commit carry out one instruction of the
instruction set; the halt instruction stops it with its state unchanged; and a run without
fault of any length is matched step by step. -/
theorem the_processor_runs_the_instruction_set (p : Sim) (s : State) (hp : Shows p s) :
    (∀ s', step_state s = some (STAT_AOK, s') →
      ∃ p', sim_step p = some (STAT_AOK, p') ∧ Shows p' s') ∧
    (∀ s', step_state s = some (STAT_HLT, s') →
      ∃ p' t, sim_step p = some (STAT_HLT, p') ∧ Shows p' t ∧
        t.r = s.r ∧ t.m = s.m ∧ t.cc = s.cc) ∧
    (∀ n s', iter (good step_state) n s = some s' →
      ∃ p', iter (good sim_step) n p = some p' ∧ Shows p' s') := by
  refine ⟨fun s' h => sim_step_aok hp h, fun s' h => sim_step_hlt hp h, fun n s' h => ?_⟩
  refine iter_simulates (R := fun s p => Shows p s) ?_ hp h
  intro a b a' hab ha
  obtain ⟨b', hb, hR⟩ := sim_step_aok hab (good_eq_some.mp ha)
  exact ⟨b', good_eq_some.mpr hb, hR⟩

/-- `irmovq $80, %rsp; irmovq $-3, %rax; iaddq $3, %rax; je at; halt; at: pushq %rax; call f;
halt; f: ret` -/
def calls : Mem where
  len := 80
  contents := fun x => [0x30, 0xf4, 80, 0, 0, 0, 0, 0, 0, 0, 0x30, 0xf0, 0xfd, 0xff, 0xff, 0xff,
    0xff, 0xff, 0xff, 0xff, 0xc0, 0xf0, 3, 0, 0, 0, 0, 0, 0, 0, 0x73, 40, 0, 0, 0, 0, 0, 0, 0, 0x00,
    0xa0, 0x0f, 0x80, 52, 0, 0, 0, 0, 0, 0, 0, 0x00, 0x90].getD x 0
  len_lt := by norm_num

def callsAtStart : State := { pc := 0, r := fun _ => 0, m := calls, cc := DEFAULT_CC }

theorem the_processor_calls_and_returns :
    ∃ s p q, iter (good step_state) 7 callsAtStart = some s ∧ s.pc = 51 ∧
      iter (good sim_step) 7 (sim_reset calls) = some p ∧ Shows p s ∧
      sim_step p = some (STAT_HLT, q) := by
  have hreset : Shows (sim_reset calls) callsAtStart := ⟨sim_reset calls, rfl, rfl⟩
  obtain ⟨-, -, hruns⟩ := the_processor_runs_the_instruction_set (sim_reset calls) callsAtStart
    hreset
  have hcheck : (iter (good step_state) 7 callsAtStart).any (fun s => s.pc = 51 ∧
      (step_state s).any fun r => r.1 = STAT_HLT) = true := by
    decide +kernel
  obtain ⟨s, hs, hend⟩ := (Option.any_eq_true _ _).mp hcheck
  obtain ⟨hpc, hhalt⟩ := of_decide_eq_true hend
  obtain ⟨⟨st, s'⟩, hstep, hst⟩ := (Option.any_eq_true _ _).mp hhalt
  obtain rfl : st = STAT_HLT := of_decide_eq_true hst
  obtain ⟨p, hp, hshows⟩ := hruns 7 s hs
  obtain ⟨-, hstops, -⟩ := the_processor_runs_the_instruction_set p s hshows
  obtain ⟨q, -, hq, -⟩ := hstops s' hstep
  exact ⟨s, p, q, hs, hpc, hp, hshows, hq⟩

end ics_labs.seq
