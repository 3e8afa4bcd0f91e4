-- What the stages of the pipelined processor do to an instruction on its way. Every
-- register behind decode stands for a step between two states of the instruction set,
-- or for none; a cycle hands each step on to the next register, and the operands that
-- decode forwards are those of the state that all steps ahead of it lead to.
import IcsLabs.IsaFetch
import IcsLabs.Psim
import IcsLabs.SeqRefines

open ics_labs.byte_words ics_labs.memory ics_labs.isa
open ics_labs.isa.IType ics_labs.isa.Stat

namespace ics_labs.psim

open PStat

/-! ## The instruction that is fetched -/

/-- What the fetch stage makes of the instruction at the program counter. -/
def loaded (s : State) : IfIdEle where
  icode := icodeAt s
  ifun := ifunAt s
  ra := hi4 (regByte s)
  rb := lo4 (regByte s)
  valc := if need_imm (icodeAt s) then constAt s else 0
  valp := s.pc + BitVec.ofNat 64 (lengthAt s)
  status := gen_f_stat false (gen_instr_valid (icodeAt s)) (icodeAt s)
  stage_pc := s.pc

/-- The same instruction, as the sequential processor fetches it. -/
def instrAt (s : State) : seq.Fetch where
  imem_error := false
  icode := icodeAt s
  ifun := ifunAt s
  ra := hi4 (regByte s)
  rb := lo4 (regByte s)
  valc := if need_imm (icodeAt s) then constAt s else 0
  valp := s.pc + BitVec.ofNat 64 (lengthAt s)

theorem lengthAt_le (s : State) : lengthAt s ≤ 10 := by
  unfold lengthAt constOffset
  split <;> split <;> omega

/-- The test read of a sixth byte is good well below the end of the memory. -/
theorem fetch_loaded {s : State} (h : s.pc.toNat + 16 ≤ s.m.len) :
    fetch s.m s.pc = some (loaded s) := by
  have hle := lengthAt_le s
  have hin : Inside s.m s.pc (lengthAt s) := by
    unfold Inside
    omega
  have h16 : Inside s.m s.pc 16 := h
  have hfirst : get_byte_val s.m s.pc = some (codeByte s 0) := first_byte hin
  have hfifth : get_byte_val s.m (s.pc + 5) = some (codeByte s 5) :=
    codeByte_read h16 (i := 5) (by omega)
  have hic : IType.of (hi4 (codeByte s 0)) = icodeAt s := rfl
  have hif : lo4 (codeByte s 0) = ifunAt s := rfl
  have hreg : (if need_regids (icodeAt s) then get_byte_val s.m (s.pc + 1) else none).getD
      (hpack REG_NONE REG_NONE) = regByte s := by
    unfold regByte
    split
    · rename_i hn
      rw [show get_byte_val s.m (s.pc + 1) = some (codeByte s 1) from second_byte hin hn]
      rfl
    · rfl
  unfold fetch
  simp only [hfirst, hfifth, Option.isNone_some, Bool.or_false, Option.getD_some, gen_f_icode,
    gen_f_ifun, Bool.false_eq_true, if_false, hic, hif, seq.gen_need_regids_eq,
    seq.gen_need_valC_eq, hreg, ← constOffset_pc, ← lengthAt_pc]
  split
  · rename_i hn
    unfold get_word_val
    rw [const_word hin hn]
    simp [loaded, hn]
  · rename_i hn
    simp [loaded, hn]

theorem codeByte_congr {s : State} {m : Mem} {n i : Nat}
    (h : Agree m.contents s.m.contents s.pc.toNat n) (hi : i < n) :
    codeByte { s with m } i = codeByte s i :=
  h _ (Nat.le_add_right _ _) (Nat.add_lt_add_left hi _)

/-- The instruction depends on its own bytes only. -/
theorem loaded_congr {s : State} {m : Mem}
    (h : Agree m.contents s.m.contents s.pc.toNat (lengthAt s)) (hin : Inside s.m s.pc (lengthAt s)) :
    loaded { s with m } = loaded s := by
  have h0 := codeByte_congr h (lengthAt_pos s)
  have hic : icodeAt { s with m } = icodeAt s := by
    unfold icodeAt
    rw [h0]
  have hif : ifunAt { s with m } = ifunAt s := by
    unfold ifunAt
    rw [h0]
  have hoff : constOffset { s with m } = constOffset s := by
    unfold constOffset
    rw [hic]
  have hlen : lengthAt { s with m } = lengthAt s := by
    unfold lengthAt
    rw [hoff, hic]
  have hreg : regByte { s with m } = regByte s := by
    unfold regByte
    rw [hic]
    split
    · rename_i hn
      apply codeByte_congr h
      rw [lengthAt, constOffset, if_pos hn]
      omega
    · rfl
  have hconst : (if need_imm (icodeAt s) then constAt { s with m } else 0) =
      if need_imm (icodeAt s) then constAt s else 0 := by
    split
    · rename_i hn
      rw [lengthAt, if_pos hn] at h hin
      have hpc := pc_plus hin (i := constOffset s) (by omega)
      unfold constAt
      rw [hoff]
      apply wordAt_congr
      rw [show ({ s with m } : State).pc = s.pc from rfl, hpc]
      exact h.mono (by omega) (by omega)
    · rfl
  unfold loaded
  rw [hic, hif, hreg, hlen, hconst]

/-- Where a fetch ends up does not matter: it always comes to an end. -/
theorem fetch_ends (m : Mem) (pc : Word) : ∃ f, fetch m pc = some f := by
  have hlen := m.len_lt
  have hword : ∀ a : Word, a.toNat + 8 < 2 ^ 63 → ∃ r, get_word_val m a = some r := by
    intro a ha
    unfold get_word_val readWord
    split
    · exact ⟨_, rfl⟩
    · rename_i hr
      rw [refused_iff] at hr
      rw [if_pos (by omega)]
      exact ⟨_, rfl⟩
  unfold fetch
  cases hb : get_byte_val m pc with
  | none => exact ⟨_, rfl⟩
  | some b =>
    have hin := (readByte_some hb).1
    unfold Inside at hin
    have h1 : (pc + 1).toNat = pc.toNat + 1 := by
      rw [BitVec.toNat_add]
      exact Nat.mod_eq_of_lt (by change pc.toNat + 1 < _; omega)
    have h2 : (pc + 1 + 1).toNat = pc.toNat + 2 := by
      rw [BitVec.toNat_add, h1]
      exact Nat.mod_eq_of_lt (by change pc.toNat + 1 + 1 < _; omega)
    simp only [Option.bind_eq_bind, Option.pure_def]
    split
    · split
      · obtain ⟨r, hr⟩ := hword (pc + 1 + 1) (by omega)
        exact ⟨_, by rw [hr]; rfl⟩
      · obtain ⟨r, hr⟩ := hword (pc + 1) (by omega)
        exact ⟨_, by rw [hr]; rfl⟩
    · exact ⟨_, rfl⟩

/-! ## The steps in the registers -/

/-- The registers after the two write-backs, the one of the memory value last. -/
def written (r : Regs) (destE : Nibble) (valE : Word) (destM : Nibble) (valM : Word) : Regs :=
  set_reg_val (set_reg_val r destE valE) destM valM

/-- Write back takes the registers `r` to `r'`. -/
def InW (W : MemWbEle) (r r' : Regs) : Prop := r' = written r W.deste W.vale W.destm W.valm

/-- The address that the memory stage uses. -/
def M_addr (M : ExMemEle) : Word := gen_mem_addr M.icode M.vale M.vala

/-- The instruction in `M` takes the memory and the registers of `s` to those of `t`, and `v`
is what it reads. -/
structure InM (M : ExMemEle) (v : Word) (s t : State) : Prop where
  read : gen_mem_read M.icode = true → get_word_val s.m (M_addr M) = some (some v)
  no_read : gen_mem_read M.icode = false → v = 0
  write : gen_mem_write M.icode = true → set_word_val s.m (M_addr M) M.vala = some (some t.m)
  no_write : gen_mem_write M.icode = false → t.m = s.m
  regs : t.r = written s.r M.deste M.vale M.destm v

/-- The condition codes that the instruction in `E` computes. -/
def E_cc (E : IdExEle) : Cc :=
  compute_cc (gen_alufun E.icode E.ifun) (gen_aluA E.icode E.vala E.valc) (gen_aluB E.icode E.valb)

/-- The instruction in `E` takes `s` to `t`, and `v` is what it will read. -/
structure InE (E : IdExEle) (v : Word) (s t : State) : Prop where
  runs : InM (execute s.cc E) v s t
  cc : t.cc = if E.icode ∈ [I_ALU, I_IADDQ] then E_cc E else s.cc
  destm : E.icode ∉ [I_MRMOVQ, I_POPQ] → E.destm = REG_NONE

/-- What decode passes on, for the operands that it has found. -/
def decode (D : IfIdEle) (vala valb : Word) : IdExEle where
  icode := D.icode
  ifun := D.ifun
  valc := D.valc
  vala := vala
  valb := valb
  srca := gen_d_srcA D.icode D.ra
  srcb := gen_d_srcB D.icode D.rb
  deste := gen_d_dstE D.icode D.rb
  destm := gen_d_dstM D.icode D.ra
  status := D.status
  stage_pc := D.stage_pc

/-- The operands are those of the state that the instruction starts from, as far as the
instruction uses them. -/
structure Operands (s : State) (vala valb : Word) : Prop where
  valA : icodeAt s ∈ [I_RRMOVQ, I_RMMOVQ, I_ALU, I_PUSHQ, I_POPQ, I_RET] →
    vala = seq.valA s.r (instrAt s)
  valP : icodeAt s = I_CALL → vala = (instrAt s).valp
  valB : icodeAt s ∈ [I_RMMOVQ, I_MRMOVQ, I_ALU, I_CALL, I_PUSHQ, I_RET, I_POPQ, I_IADDQ] →
    valb = seq.valB s.r (instrAt s)

theorem gen_e_dstE_eq (icode : IType) (rB : Nibble) (cnd : Bool) :
    gen_e_dstE icode cnd (gen_d_dstE icode rB) = seq.gen_dstE icode rB cnd := by
  cases icode <;> cases cnd <;> rfl

section

attribute [local simp] seq.aluA seq.aluB seq.gen_aluA seq.gen_aluB seq.gen_mem_addr
  seq.gen_mem_data seq.gen_mem_read seq.gen_mem_write

variable {s : State} {vala valb : Word} (h : Operands s vala valb)

include h in
theorem aluA_eq : gen_aluA (icodeAt s) vala (instrAt s).valc = seq.aluA s.r (instrAt s) := by
  have hA := h.valA
  change _ = seq.gen_aluA (icodeAt s) (seq.valA s.r (instrAt s)) (instrAt s).valc
  cases hic : icodeAt s <;> simp_all

include h in
theorem aluB_eq : gen_aluB (icodeAt s) valb = seq.aluB s.r (instrAt s) := by
  have hB := h.valB
  change _ = seq.gen_aluB (icodeAt s) (seq.valB s.r (instrAt s))
  cases hic : icodeAt s <;> simp_all

include h in
theorem execute_vale : (execute s.cc (decode (loaded s) vala valb)).vale = seq.valE s.r (instrAt s) := by
  change compute_alu _ (gen_aluA (icodeAt s) vala (instrAt s).valc) (gen_aluB (icodeAt s) valb) = _
  rw [aluA_eq h, aluB_eq h]
  rfl

include h in
theorem execute_addr : M_addr (execute s.cc (decode (loaded s) vala valb)) =
    seq.memAddr s.r (instrAt s) := by
  have hA := h.valA
  unfold M_addr seq.memAddr
  rw [execute_vale h]
  change gen_mem_addr (icodeAt s) _ vala = seq.gen_mem_addr (icodeAt s) _ _
  cases hic : icodeAt s <;> simp_all

include h in
theorem execute_data (hw : gen_mem_write (icodeAt s) = true) :
    vala = seq.memData s.r (instrAt s) := by
  have hA := h.valA
  have hP := h.valP
  change _ = seq.gen_mem_data (icodeAt s) (seq.valA s.r (instrAt s)) (instrAt s).valp
  cases hic : icodeAt s <;> simp_all

end

/-- A step is the one that the control logic describes for the instruction at its start. -/
theorem step_after {s s' : State} (hin : Inside s.m s.pc (lengthAt s))
    (h : step_state s = some (STAT_AOK, s')) :
    ∃ v m, seq.Carried s (instrAt s) v m ∧ s' = seq.after s (instrAt s) v m := by
  rw [step_state_at hin] at h
  exact seq.execute_carried rfl rfl rfl (fun _ => ⟨rfl, rfl⟩) rfl rfl h

/-- An instruction that is decoded with the right operands takes its state to the next. -/
theorem decoded_runs {s s' : State} {vala valb : Word} (hin : Inside s.m s.pc (lengthAt s))
    (hs : step_state s = some (STAT_AOK, s')) (h : Operands s vala valb) :
    ∃ v, InE (decode (loaded s) vala valb) v s s' ∧
      s'.pc = seq.gen_new_pc (icodeAt s) (cond_holds s.cc (ifunAt s)) (loaded s).valc v
        (loaded s).valp := by
  obtain ⟨v, m, hc, rfl⟩ := step_after hin hs
  refine ⟨v, ⟨⟨?_, hc.no_read, ?_, hc.no_write, ?_⟩, ?_, ?_⟩, rfl⟩
  · intro hr
    rw [execute_addr h]
    exact hc.read hr
  · intro hw
    rw [execute_addr h]
    change set_word_val s.m _ vala = _
    rw [execute_data h hw]
    exact hc.write hw
  · unfold written
    rw [execute_vale h]
    change _ = set_reg_val (set_reg_val s.r (gen_e_dstE (icodeAt s) _ (gen_d_dstE (icodeAt s) _)) _) _ _
    rw [gen_e_dstE_eq]
    rfl
  · change seq.newCc s.cc s.r (instrAt s) = _
    unfold seq.newCc E_cc
    rw [← aluA_eq h, ← aluB_eq h]
    change (if decide (icodeAt s ∈ [I_ALU, I_IADDQ]) = true then _ else _) = _
    simp only [decide_eq_true_eq]
    rfl
  · intro hn
    change seq.gen_dstM (icodeAt s) _ = _
    exact if_neg hn

/-! ## Forwarding -/

theorem getReg_written (r : Regs) (destE : Nibble) (valE : Word) (destM : Nibble) (valM : Word)
    {src : Nibble} (h : src ≠ REG_NONE) :
    get_reg_val (written r destE valE destM valM) src =
      if src = destM then valM else if src = destE then valE else get_reg_val r src := by
  unfold written set_reg_val get_reg_val
  by_cases hM : src = destM
  · subst hM
    rw [if_pos rfl, getReg_setReg_same _ _ h]
  · rw [if_neg hM, getReg_setReg_of_ne _ _ hM]
    by_cases hE : src = destE
    · subst hE
      rw [if_pos rfl, getReg_setReg_same _ _ h]
    · rw [if_neg hE, getReg_setReg_of_ne _ _ hE]

/-- A source that no load is still missing for reads, by forwarding, what it holds behind
the three instructions ahead. -/
theorem forward_eq {W : MemWbEle} {M : ExMemEle} {E : IdExEle} {a b c d : State} {u v : Word}
    {src : Nibble} (hW : InW W a.r b.r) (hM : InM M u b c) (hE : InE E v c d)
    (hsrc : src ≠ REG_NONE) (hload : E.icode ∈ [I_MRMOVQ, I_POPQ] → src ≠ E.destm) :
    forward src (execute c.cc E) M u W (get_reg_val a.r src) = get_reg_val d.r src := by
  have hne : src ≠ E.destm := by
    by_cases hic : E.icode ∈ [I_MRMOVQ, I_POPQ]
    · exact hload hic
    · rw [hE.destm hic]
      exact hsrc
  unfold InW at hW
  rw [hE.runs.regs, getReg_written _ _ _ _ _ hsrc, show (execute c.cc E).destm = E.destm from rfl,
    if_neg hne, hM.regs, getReg_written _ _ _ _ _ hsrc, hW, getReg_written _ _ _ _ _ hsrc]
  rfl

/-- The fields that name the registers of an instruction name program registers. -/
structure Named (s : State) : Prop where
  rA : icodeAt s ∈ [I_RRMOVQ, I_RMMOVQ, I_MRMOVQ, I_ALU, I_PUSHQ, I_POPQ] →
    reg_valid (hi4 (regByte s)) = true
  rB : icodeAt s ∈ [I_RRMOVQ, I_IRMOVQ, I_RMMOVQ, I_MRMOVQ, I_ALU, I_IADDQ] →
    reg_valid (lo4 (regByte s)) = true

theorem srcA_ne {s : State} (h : Named s)
    (hic : icodeAt s ∈ [I_RRMOVQ, I_RMMOVQ, I_ALU, I_PUSHQ, I_POPQ, I_RET]) :
    gen_d_srcA (icodeAt s) (hi4 (regByte s)) ≠ REG_NONE := by
  have hA := h.rA
  unfold reg_valid at hA
  cases h' : icodeAt s <;> simp_all [seq.gen_srcA]
  all_goals decide

theorem srcB_ne {s : State} (h : Named s)
    (hic : icodeAt s ∈ [I_RMMOVQ, I_MRMOVQ, I_ALU, I_CALL, I_PUSHQ, I_RET, I_POPQ, I_IADDQ]) :
    gen_d_srcB (icodeAt s) (lo4 (regByte s)) ≠ REG_NONE := by
  have hB := h.rB
  unfold reg_valid at hB
  cases h' : icodeAt s <;> simp_all [seq.gen_srcB]
  all_goals decide

/-- The operands that decode finds, for the instruction that starts from `d`. -/
theorem operands_forwarded {W : MemWbEle} {M : ExMemEle} {E : IdExEle} {a b c d : State}
    {u v : Word} (hn : Named d) (hW : InW W a.r b.r) (hM : InM M u b c) (hE : InE E v c d)
    (hload : load_use E (gen_d_srcA (icodeAt d) (hi4 (regByte d)))
      (gen_d_srcB (icodeAt d) (lo4 (regByte d))) = false) :
    Operands d
      (gen_d_valA (loaded d) E (execute c.cc E) M u W (gen_d_srcA (icodeAt d) (hi4 (regByte d)))
        (get_reg_val a.r (gen_d_srcA (icodeAt d) (hi4 (regByte d)))))
      (gen_d_valB (execute c.cc E) M u W (gen_d_srcB (icodeAt d) (lo4 (regByte d)))
        (get_reg_val a.r (gen_d_srcB (icodeAt d) (lo4 (regByte d))))) := by
  have hnot : ∀ src ∈ [gen_d_srcA (icodeAt d) (hi4 (regByte d)),
      gen_d_srcB (icodeAt d) (lo4 (regByte d))], E.icode ∈ [I_MRMOVQ, I_POPQ] → src ≠ E.destm := by
    intro src hsrc hic he
    subst he
    simp [load_use, hic, hsrc] at hload
  have hjle : icodeAt d ≠ I_JMP → isJle (loaded d).icode (loaded d).ifun = false := by
    intro hne
    simp [isJle, loaded, hne]
  refine ⟨fun hic => ?_, fun hic => ?_, fun hic => ?_⟩
  · have hne : (loaded d).icode ∉ [I_CALL, I_JMP] := by
      change icodeAt d ∉ _
      revert hic
      cases icodeAt d <;> decide
    unfold gen_d_valA
    rw [hjle (fun h' => hne (by simp [loaded, h'])), if_neg (by simp), if_neg hne]
    exact forward_eq hW hM hE (srcA_ne hn hic) (hnot _ (by simp))
  · unfold gen_d_valA
    rw [hjle (by simp [hic]), if_neg (by simp), if_pos (by simp [loaded, hic])]
    rfl
  · exact forward_eq hW hM hE (srcB_ne hn hic) (hnot _ (by simp))

/-! ## One cycle -/

/-- The first half of a cycle: what the last one left pending is committed, and the
registers move on. -/
def commit (p : Sim) : Option Sim := do
  let p ← update_state true true p
  return mark_errors (update_pipes p)

/-- The second half: what the stages compute. -/
def stages (p : Sim) : Option Sim := do
  let p ← do_if_stage p
  let p ← do_mem_stage p
  return do_stall_check (do_id_wb_stages (do_ex_stage p))

/-- A cycle that may complete three instructions disables no update. -/
theorem sim_step_pipe_eq {k : Nat} (hk : 3 ≤ k) (p : Sim) :
    sim_step_pipe k p = (commit p).bind fun q => (stages q).map fun r => (r.status, r) := by
  have hmem : (if p.mem_wb.current.status ≠ STAT_BUB then 1 else 0) < k := by
    split <;> omega
  have hcc : (if p.mem_wb.current.status ≠ STAT_BUB then 1 else 0) +
      (if p.mem_wb.next.status ≠ STAT_BUB then 1 else 0) < k := by
    split <;> split <;> omega
  unfold sim_step_pipe commit stages
  simp only [decide_eq_true hmem, decide_eq_true hcc]
  cases update_state true true p with
  | none => rfl
  | some p =>
    cases hif : do_if_stage (mark_errors (update_pipes p)) with
    | none => simp [hif]
    | some p' => cases hm : do_mem_stage p' <;> simp [hif, hm]

/-- The address that the next fetch goes to. -/
def aim (p : Sim) : Word :=
  gen_f_pc p.if_id.next p.id_ex.current p.ex_mem.current p.mem_wb.current p.pc.current.pc

def srcA (p : Sim) : Nibble := gen_d_srcA p.if_id.current.icode p.if_id.current.ra

def srcB (p : Sim) : Nibble := gen_d_srcB p.if_id.current.icode p.if_id.current.rb

/-- The instruction in decode waits for a load. -/
def waits (p : Sim) : Bool := load_use p.id_ex.current (srcA p) (srcB p)

/-- The instruction in execute is a jump that was predicted wrongly. -/
def misses (p : Sim) : Bool :=
  mispredicted p.id_ex.current (cond_holds p.cc p.id_ex.current.ifun) p.ex_mem.current

/-- A `ret` is on its way to the memory stage. -/
def returns (p : Sim) : Bool := ret_passes p.if_id.current p.id_ex.current p.ex_mem.current

/-- What decode finds for its instruction, with `u` the value that the memory stage reads. -/
def decoded (p : Sim) (u : Word) : IdExEle :=
  let e := execute p.cc p.id_ex.current
  decode p.if_id.current
    (gen_d_valA p.if_id.current p.id_ex.current e p.ex_mem.current u p.mem_wb.current (srcA p)
      (get_reg_val p.reg (srcA p)))
    (gen_d_valB e p.ex_mem.current u p.mem_wb.current (srcB p) (get_reg_val p.reg (srcB p)))

/-- What goes from the memory stage to write back. -/
def retired (M : ExMemEle) (u : Word) : MemWbEle where
  icode := M.icode
  ifun := M.ifun
  vale := M.vale
  valm := u
  deste := M.deste
  destm := M.destm
  status := M.status
  stage_pc := M.stage_pc

/-- What a cycle does to the registers and to the state of the processor, when the fetch
gives `f` and the memory stage reads `u` and leaves the memory `m`. -/
structure Moves (p q : Sim) (f : IfIdEle) (u : Word) (m : Mem) : Prop where
  pc : q.pc.current.pc = if waits p || returns p then p.pc.current.pc else gen_f_predPC f
  fetched : q.if_id.next = f
  D : q.if_id.current =
    if waits p then p.if_id.current else if misses p || returns p then bubble_if_id else f
  E : q.id_ex.current = if misses p || waits p then bubble_id_ex else decoded p u
  M : q.ex_mem.current =
    if gen_M_bubble p.ex_mem.current.status p.mem_wb.current.status then bubble_ex_mem
    else execute p.cc p.id_ex.current
  W : q.mem_wb.current =
    if gen_W_stall p.mem_wb.current.status then p.mem_wb.current else retired p.ex_mem.current u
  reg : q.reg = written p.reg p.mem_wb.current.deste p.mem_wb.current.vale p.mem_wb.current.destm
    p.mem_wb.current.valm
  mem : q.mem = m
  cc : q.cc = if gen_set_cc p.id_ex.current.icode p.ex_mem.current.status p.mem_wb.current.status
    then E_cc p.id_ex.current else p.cc_in
  cc_in : q.cc_in = q.cc

theorem pipe_cntl_ne {stall bubble : Bool} (h : stall = true → bubble = false) :
    pipe_cntl stall bubble ≠ P_ERROR := by
  cases stall <;> cases bubble <;> simp_all [pipe_cntl]

theorem update_pipe_current {α : Type} {bubble_val : α} {p : PipeEle bubble_val}
    {stall bubble : Bool} (hop : p.op = pipe_cntl stall bubble) (h : stall = true → bubble = false) :
    (update_pipe p).current =
      if stall then p.current else if bubble then bubble_val else p.next := by
  unfold update_pipe
  cases stall <;> cases bubble <;> simp_all [pipe_cntl]

/-- A load is no jump, so decode is never told to stall and to take a bubble at once. -/
theorem no_conflict (p : Sim) :
    gen_D_stall p.id_ex.current (srcA p) (srcB p) = true →
      gen_D_bubble p.if_id.current p.id_ex.current (cond_holds p.cc p.id_ex.current.ifun)
        p.ex_mem.current (srcA p) (srcB p) = false := by
  intro hs
  unfold gen_D_stall at hs
  have hic : (p.id_ex.current.icode == I_JMP) = false := by
    unfold load_use at hs
    cases h : p.id_ex.current.icode <;> simp_all
  simp [gen_D_bubble, mispredicted, hs, hic]

/-- The simulator behind the fetch stage. -/
def withFetched (p : Sim) (f : IfIdEle) : Sim :=
  { p with
    if_id := { p.if_id with next := f }
    pc := { p.pc with
      next := ⟨gen_f_predPC f, if f.status = STAT_AOK then STAT_AOK else STAT_BUB⟩ } }

/-- The simulator behind the memory stage. -/
def withRead (p : Sim) (u : Word) : Sim :=
  { p with
    mem_addr := M_addr p.ex_mem.current
    mem_write := gen_mem_write p.ex_mem.current.icode
    mem_data := p.ex_mem.current.vala
    mem_wb := { p.mem_wb with next := retired p.ex_mem.current u } }

theorem do_if_stage_eq {p : Sim} {f : IfIdEle} (h : fetch p.mem (aim p) = some f) :
    do_if_stage p = some (withFetched p f) := by
  unfold aim at h
  unfold do_if_stage
  simp only [h, Option.bind_eq_bind, Option.bind_some]
  rfl

theorem do_mem_stage_eq {p : Sim} {u : Word} {s t : State} (hM : InM p.ex_mem.current u s t)
    (hmem : p.mem = s.m) : do_mem_stage p = some (withRead p u) := by
  have hread := hM.read
  have hnone := hM.no_read
  have hwrite := hM.write
  unfold M_addr at hread hwrite
  rw [← hmem] at hread hwrite
  unfold do_mem_stage
  cases hr : gen_mem_read p.ex_mem.current.icode <;>
    cases hw : gen_mem_write p.ex_mem.current.icode
  · rw [hnone hr]
    simp [hr, hw, withRead, retired, gen_m_stat, M_addr]
  · rw [hnone hr]
    have hsink := seq.get_of_set (hwrite hw)
    simp [hr, hw, hsink, withRead, retired, gen_m_stat, M_addr]
  · simp [hr, hw, hread hr, withRead, retired, gen_m_stat, M_addr]
  · cases hic : p.ex_mem.current.icode <;> simp [hic, seq.gen_mem_read, seq.gen_mem_write] at hr hw

/-- A commit whose memory write, if there is one, is good. -/
theorem commit_eq {p : Sim} {m : Mem}
    (hwrite : p.mem_write = true → set_word_val p.mem p.mem_addr p.mem_data = some (some m))
    (hnone : p.mem_write = false → m = p.mem) :
    commit p = some (mark_errors (update_pipes { p with
      reg := written p.reg p.wb_destE p.wb_valE p.wb_destM p.wb_valM, mem := m, cc := p.cc_in })) := by
  unfold commit update_state
  simp only [seq.write_port, Bool.true_and]
  cases hw : p.mem_write with
  | false =>
    rw [hnone hw]
    rfl
  | true =>
    rw [hwrite hw]
    rfl

/-- Registers whose control signals are not in conflict keep their status. -/
theorem mark_errors_eq {p : Sim} (h1 : p.pc.op ≠ P_ERROR) (h2 : p.if_id.op ≠ P_ERROR)
    (h3 : p.id_ex.op ≠ P_ERROR) (h4 : p.ex_mem.op ≠ P_ERROR) (h5 : p.mem_wb.op ≠ P_ERROR) :
    mark_errors p = p := by
  unfold mark_errors
  simp only [if_neg h1, if_neg h2, if_neg h3, if_neg h4, if_neg h5]

theorem update_pipe_op {α : Type} {bubble_val : α} {p : PipeEle bubble_val}
    {stall bubble : Bool} (hop : p.op = pipe_cntl stall bubble) (h : stall = true → bubble = false) :
    (update_pipe p).op ≠ P_ERROR := by
  have hne := pipe_cntl_ne h
  rw [← hop] at hne
  unfold update_pipe
  rw [if_pos hne]
  simp

/-- Everything that a cycle leaves pending. -/
def computed (p : Sim) (f : IfIdEle) (u : Word) : Sim where
  mem := p.mem
  reg := p.reg
  cc := p.cc
  cc_in :=
    if gen_set_cc p.id_ex.current.icode p.ex_mem.current.status p.mem_wb.current.status
    then E_cc p.id_ex.current else p.cc_in
  wb_destE := p.mem_wb.current.deste
  wb_valE := p.mem_wb.current.vale
  wb_destM := p.mem_wb.current.destm
  wb_valM := p.mem_wb.current.valm
  mem_addr := M_addr p.ex_mem.current
  mem_data := p.ex_mem.current.vala
  mem_write := gen_mem_write p.ex_mem.current.icode
  status := gen_Stat p.mem_wb.current.status
  pc := ⟨p.pc.current, ⟨gen_f_predPC f, if f.status = STAT_AOK then STAT_AOK else STAT_BUB⟩,
    pipe_cntl (waits p || returns p) gen_F_bubble⟩
  if_id := ⟨p.if_id.current, f, pipe_cntl (waits p) (misses p || (!waits p && returns p))⟩
  id_ex := ⟨p.id_ex.current, decoded p u, pipe_cntl gen_E_stall (misses p || waits p)⟩
  ex_mem := ⟨p.ex_mem.current, execute p.cc p.id_ex.current,
    pipe_cntl gen_M_stall (gen_M_bubble p.ex_mem.current.status p.mem_wb.current.status)⟩
  mem_wb := ⟨p.mem_wb.current, retired p.ex_mem.current u,
    pipe_cntl (gen_W_stall p.mem_wb.current.status) gen_W_bubble⟩

theorem stages_eq {p : Sim} {f : IfIdEle} {u : Word} {s t : State}
    (hf : fetch p.mem (aim p) = some f) (hM : InM p.ex_mem.current u s t) (hmem : p.mem = s.m) :
    stages p = some (computed p f u) := by
  unfold stages
  rw [do_if_stage_eq hf]
  change (do_mem_stage (withFetched p f)).bind _ = _
  rw [do_mem_stage_eq (p := withFetched p f) hM hmem]
  rfl

/-- A cycle whose memory access is good, and the commit of what it leaves pending. -/
theorem cycle_moves {p : Sim} {f : IfIdEle} {u : Word} {s t : State}
    (hf : fetch p.mem (aim p) = some f) (hM : InM p.ex_mem.current u s t) (hmem : p.mem = s.m) :
    stages p = some (computed p f u) ∧
      ∃ q, commit (computed p f u) = some q ∧ Moves p q f u t.m := by
  refine ⟨stages_eq hf hM hmem, ?_⟩
  have hcommit := commit_eq (p := computed p f u) (m := t.m)
    (fun hw => by
      have := hM.write hw
      rw [← hmem] at this
      exact this)
    (fun hw => by
      rw [hM.no_write hw, ← hmem]
      rfl)
  have hD := no_conflict p
  have hfalse : ∀ b : Bool, b = true → false = false := fun _ _ => rfl
  have hpc : (computed p f u).pc.op = pipe_cntl (waits p || returns p) gen_F_bubble := rfl
  have hif : (computed p f u).if_id.op =
    pipe_cntl (waits p) (misses p || (!waits p && returns p)) := rfl
  have hid : (computed p f u).id_ex.op = pipe_cntl gen_E_stall (misses p || waits p) := rfl
  have hex : (computed p f u).ex_mem.op = pipe_cntl gen_M_stall
    (gen_M_bubble p.ex_mem.current.status p.mem_wb.current.status) := rfl
  have hwb : (computed p f u).mem_wb.op =
    pipe_cntl (gen_W_stall p.mem_wb.current.status) gen_W_bubble := rfl
  rw [mark_errors_eq (update_pipe_op hpc (hfalse _)) (update_pipe_op hif hD)
    (update_pipe_op hid (fun h => by cases h)) (update_pipe_op hex (fun h => by cases h))
    (update_pipe_op hwb (hfalse _))] at hcommit
  refine ⟨_, hcommit, ?_, rfl, ?_, ?_, ?_, ?_, rfl, rfl, rfl, rfl⟩
  · change (update_pipe (computed p f u).pc).current.pc = _
    rw [update_pipe_current hpc (hfalse _)]
    cases waits p || returns p <;> rfl
  · change (update_pipe (computed p f u).if_id).current = _
    rw [update_pipe_current hif hD]
    cases waits p <;> rfl
  · exact update_pipe_current hid (fun h => by cases h)
  · exact update_pipe_current hex (fun h => by cases h)
  · change (update_pipe (computed p f u).mem_wb).current = _
    rw [update_pipe_current hwb (hfalse _)]
    rfl

end ics_labs.psim
