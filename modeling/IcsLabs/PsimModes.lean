-- The modes of the pipelined processor along a run of the instruction set: which of its
-- registers hold instructions of that run, and what the fetch stage is about to do. A
-- cycle takes each mode to another one, or brings the halting instruction nearer to
-- write back.
import IcsLabs.PsimStages
import IcsLabs.Runs

open ics_labs.byte_words ics_labs.memory ics_labs.isa ics_labs.runs
open ics_labs.isa.IType ics_labs.isa.Stat

namespace ics_labs.psim

/-! ## The run of the instruction set -/

/-- The run without fault leads from `s` to `t`. -/
def Later (s t : State) : Prop := ∃ n, iter (good step_state) n s = some t

/-- The state that a run starts from: the memory image, at address 0, with cleared
registers. -/
def start (m : Mem) : State where
  pc := 0
  r := fun _ => 0
  m := m
  cc := DEFAULT_CC

def Visited (m : Mem) (s : State) : Prop := Later (start m) s

/-- The program is one that the processor has to run: every instruction that is executed
names program registers and lies below the end of the memory, and no step changes a byte of
an instruction that is fetched later. -/
structure Proper (m : Mem) : Prop where
  named : ∀ s, Visited m s → Named s
  low : ∀ s, Visited m s → s.pc.toNat + 16 ≤ s.m.len
  kept : ∀ s s' t, Visited m s → step_state s = some (STAT_AOK, s') → Later s' t →
    Agree s.m.contents s'.m.contents t.pc.toNat (lengthAt t)

/-- Where an `andq` is followed by a `jle`, its first operand is positive if and only if its
result is. -/
def Foretold (m : Mem) : Prop := ∀ s s', Visited m s → step_state s = some (STAT_AOK, s') →
  isAndq (icodeAt s) (ifunAt s) = true → isJle (icodeAt s') (ifunAt s') = true →
  positive (get_reg_val s.r (hi4 (regByte s))) =
    positive (get_reg_val s.r (hi4 (regByte s)) &&& get_reg_val s.r (lo4 (regByte s)))

theorem Later.refl (s : State) : Later s s := ⟨0, rfl⟩

theorem Later.step {s t u : State} (h : Later s t) (hs : step_state t = some (STAT_AOK, u)) :
    Later s u := by
  obtain ⟨n, hn⟩ := h
  exact ⟨n + 1, by rw [iter_snoc, hn]; exact good_eq_some.mpr hs⟩

theorem Later.after_step {s t u : State} (hs : step_state s = some (STAT_AOK, t))
    (h : Later t u) : Later s u := by
  obtain ⟨n, hn⟩ := h
  exact ⟨n + 1, by rw [iter_succ, good_eq_some.mpr hs]; exact hn⟩

/-- One step, or none. -/
def Moved (s t : State) : Prop := t = s ∨ step_state s = some (STAT_AOK, t)

theorem Moved.later {s t u : State} (h : Moved s t) (hu : Later t u) : Later s u := by
  rcases h with rfl | hs
  · exact hu
  · exact Later.after_step hs hu

theorem Moved.visited {m : Mem} {s t : State} (h : Moved s t) (hs : Visited m s) : Visited m t := by
  rcases h with rfl | h
  · exact hs
  · exact Later.step hs h

/-! ## One step of the instruction set -/

/-- What a step does, as the control logic says it. -/
theorem step_carried {s s' : State} (h : step_state s = some (STAT_AOK, s')) :
    ∃ f v, seq.Carried s f v s'.m := by
  obtain ⟨byte0, fi, hb, hf, he⟩ := seq.step_state_some h (by simp)
  obtain ⟨f, -, herr, hic, hif, hreg, hvc, hvp⟩ := seq.fetch_agrees hb hf
  obtain ⟨v, m, hc, rfl⟩ := seq.execute_carried herr hic hif hreg hvc hvp he
  exact ⟨f, v, hc⟩

/-- A step changes the contents of the memory, never its length. -/
theorem step_len {s s' : State} (h : step_state s = some (STAT_AOK, s')) : s'.m.len = s.m.len := by
  obtain ⟨f, v, hc⟩ := step_carried h
  cases hw : seq.gen_mem_write f.icode with
  | true =>
    rw [(writeWord_some (hc.write hw)).2]
    rfl
  | false => rw [hc.no_write hw]

theorem Later.len {s t : State} (h : Later s t) : t.m.len = s.m.len := by
  obtain ⟨n, hn⟩ := h
  refine iter_invariant (P := fun u => u.m.len = s.m.len) ?_ rfl hn
  intro a b ha hb
  rw [step_len (good_eq_some.mp hb), ha]

theorem Proper.inside {m : Mem} (hp : Proper m) {s : State} (hs : Visited m s) :
    Inside s.m s.pc (lengthAt s) := by
  have h16 := hp.low s hs
  have hle := lengthAt_le s
  unfold Inside
  omega

/-- An instruction that is carried out is a valid one and no halt. -/
theorem loaded_status {s s' : State} (hin : Inside s.m s.pc (lengthAt s))
    (h : step_state s = some (STAT_AOK, s')) : (loaded s).status = STAT_AOK := by
  obtain ⟨v, m, hc, -⟩ := step_after hin h
  change gen_f_stat false (gen_instr_valid (icodeAt s)) (icodeAt s) = _
  have hvalid : gen_instr_valid (icodeAt s) = true := hc.valid
  have hhalt : icodeAt s ≠ I_HALT := hc.no_halt
  simp [gen_f_stat, hvalid, hhalt]

/-- The prediction is right, but for a `ret` and for a jump that is not taken. -/
theorem pred_right {s s' : State} (hin : Inside s.m s.pc (lengthAt s))
    (h : step_state s = some (STAT_AOK, s')) (hret : icodeAt s ≠ I_RET)
    (hjmp : icodeAt s = I_JMP → cond_holds s.cc (ifunAt s) = true) :
    s'.pc = gen_f_predPC (loaded s) := by
  obtain ⟨v, m, -, rfl⟩ := step_after hin h
  change seq.gen_new_pc (icodeAt s) (cond_holds s.cc (ifunAt s)) (loaded s).valc v (loaded s).valp =
    if icodeAt s ∈ [I_JMP, I_CALL] then (loaded s).valc else (loaded s).valp
  cases hic : icodeAt s <;> simp_all [seq.gen_new_pc]

/-- Behind a jump. -/
theorem jump_pc {s s' : State} (hin : Inside s.m s.pc (lengthAt s))
    (h : step_state s = some (STAT_AOK, s')) (hjmp : icodeAt s = I_JMP) :
    s'.pc = if cond_holds s.cc (ifunAt s) then (loaded s).valc else (loaded s).valp := by
  obtain ⟨v, m, -, rfl⟩ := step_after hin h
  change seq.gen_new_pc (icodeAt s) (cond_holds s.cc (ifunAt s)) (loaded s).valc v (loaded s).valp = _
  simp [seq.gen_new_pc, hjmp]

/-- The condition of a `jle` behind an `andq`. -/
theorem le_after_and (a b : Word) :
    cond_holds (compute_cc A_AND a b) C_LE = !positive (a &&& b) := by
  change ((negative (a &&& b) ^^ false) || (a &&& b) == 0) = _
  generalize a &&& b = v
  unfold negative positive
  rw [Bool.xor_false, Bool.eq_iff_iff]
  simp only [Bool.or_eq_true, BitVec.slt_iff_toInt_lt, beq_iff_eq, Bool.not_eq_true',
    ← Bool.not_eq_true]
  constructor
  · rintro (h | rfl)
    · omega
    · simp
  · intro h
    by_cases h0 : v = 0
    · exact Or.inr h0
    · left
      have hne : v.toInt ≠ (0 : Word).toInt := fun he => h0 (BitVec.eq_of_toInt_eq he)
      omega

/-! ## The modes -/

/-- An instruction on its way, or a bubble. -/
def Alive (st : Stat) : Prop := st = STAT_AOK ∨ st = STAT_BUB

theorem Alive.fine {st : Stat} (h : Alive st) : excepted st = false := by
  rcases h with rfl | rfl <;> decide

theorem Alive.aok {st : Stat} (h : Alive st) : gen_Stat st = STAT_AOK := by
  rcases h with rfl | rfl <;> decide

/-- The states of the instruction set that stand between the stages: write back takes `a`
to `b`, memory `b` to `c` and execute `c` to `d`. The memory stage reads `u`, and the
instruction in execute will read `v`. -/
structure View where
  a : State
  b : State
  c : State
  d : State
  u : Word
  v : Word

/-- The last two registers hold steps of the run, and the state of the processor is that
between them. -/
structure Flow (m : Mem) (p : Sim) (w : View) : Prop where
  reg : p.reg = w.a.r
  mem : p.mem = w.b.m
  cc : p.cc = w.c.cc
  cc_in : p.cc_in = w.c.cc
  inW : InW p.mem_wb.current w.a.r w.b.r
  inM : InM p.ex_mem.current w.u w.b w.c
  okW : Alive p.mem_wb.current.status
  visited : Visited m w.a
  ab : Moved w.a w.b
  bc : Moved w.b w.c
  cd : Moved w.c w.d

/-- So does the execute register. -/
structure Going (m : Mem) (p : Sim) (w : View) : Prop extends Flow m p w where
  inE : InE p.id_ex.current w.v w.c w.d
  okM : Alive p.ex_mem.current.status
  okE : Alive p.id_ex.current.status

/-- The instruction of `d`, which comes behind `E`, is a jump that is predicted wrongly. -/
def wrong (E : IdExEle) (d : State) : Bool :=
  !(isJle (icodeAt d) (ifunAt d) && isAndq E.icode E.ifun) &&
    (icodeAt d == I_JMP && !cond_holds d.cc (ifunAt d))

/-- Decode holds the next instruction of the run, and the next fetch is right unless that
instruction is a `ret` or a jump that is predicted wrongly. -/
structure Ready (m : Mem) (p : Sim) (w : View) : Prop extends Going m p w where
  D : p.if_id.current = loaded w.d
  pred : p.pc.current.pc = gen_f_predPC (loaded w.d)
  no_retE : p.id_ex.current.icode ≠ I_RET
  no_retM : p.ex_mem.current.icode ≠ I_RET
  no_miss : misses p = false
  aimed : ∀ d', step_state w.d = some (STAT_AOK, d') → icodeAt w.d ≠ I_RET →
    wrong p.id_ex.current w.d = false → aim p = d'.pc

/-- Decode and execute are empty, and the next fetch is right. -/
structure Refill (m : Mem) (p : Sim) (w : View) : Prop extends Going m p w where
  D : p.if_id.current = bubble_if_id
  E : p.id_ex.current.icode = I_NOP
  no_retM : p.ex_mem.current.icode ≠ I_RET
  aimed : aim p = w.d.pc

/-- Execute holds a jump that was predicted wrongly; decode holds an instruction from the
wrong path. -/
structure WrongPath (m : Mem) (p : Sim) (w : View) : Prop extends Going m p w where
  miss : misses p = true
  back : p.id_ex.current.vala = w.d.pc

/-- A `ret` in execute. -/
structure RetE (m : Mem) (p : Sim) (w : View) : Prop extends Going m p w where
  D : p.if_id.current = bubble_if_id
  E : p.id_ex.current.icode = I_RET
  back : w.v = w.d.pc

/-- A `ret` in the memory stage. -/
structure RetM (m : Mem) (p : Sim) (w : View) : Prop extends Going m p w where
  D : p.if_id.current = bubble_if_id
  E : p.id_ex.current.icode = I_NOP
  M : p.ex_mem.current.icode = I_RET
  back : w.u = w.d.pc

/-! ## One cycle of a mode -/

section

variable {m : Mem} {p q : Sim} {w : View} {f : IfIdEle}

/-- Some instruction is fetched, and the cycle goes through. -/
theorem Flow.cycles (h : Flow m p w) : ∃ f q, fetch p.mem (aim p) = some f ∧
    stages p = some (computed p f w.u) ∧ commit (computed p f w.u) = some q ∧
      Moves p q f w.u w.c.m := by
  obtain ⟨f, hf⟩ := fetch_ends p.mem (aim p)
  obtain ⟨hs, q, hq, hmoves⟩ := cycle_moves hf h.inM h.mem
  exact ⟨f, q, hf, hs, hq, hmoves⟩

theorem Flow.visited_d (h : Flow m p w) : Visited m w.d :=
  h.cd.visited (h.bc.visited (h.ab.visited h.visited))

/-- The bytes of an instruction that comes later are in memory already. -/
theorem Flow.fetch_right (h : Flow m p w) (hp : Proper m) {t : State} (ht : Later w.d t)
    (haim : aim p = t.pc) : fetch p.mem (aim p) = some (loaded t) := by
  have hb : Visited m w.b := h.ab.visited h.visited
  have hc : Visited m w.c := h.bc.visited hb
  have hct : Later w.c t := h.cd.later ht
  have hbt : Later w.b t := h.bc.later hct
  have hvt : Visited m t := by
    obtain ⟨n, hn⟩ := hb
    obtain ⟨k, hk⟩ := hbt
    exact ⟨n + k, by rw [iter_add, hn]; exact hk⟩
  have hkeep : ∀ {x y : State}, Visited m x → Moved x y → Later y t →
      Agree x.m.contents y.m.contents t.pc.toNat (lengthAt t) := by
    intro x y hx hxy hy
    rcases hxy with rfl | hs
    · exact fun _ _ _ => rfl
    · exact hp.kept x y t hx hs hy
  have hdt : Agree w.d.m.contents t.m.contents t.pc.toNat (lengthAt t) := by
    obtain ⟨n, hn⟩ := ht
    have hvd := h.visited_d
    clear hbt hct
    generalize w.d = x at hn hvd
    induction n generalizing x with
    | zero =>
      cases hn
      exact fun _ _ _ => rfl
    | succ n ih =>
      obtain ⟨y, hy, hyt⟩ := Option.bind_eq_some_iff.mp hn
      have hs := good_eq_some.mp hy
      exact (hkeep hvd (Or.inr hs) ⟨n, hyt⟩).trans (ih y hyt (Later.step hvd hs))
  have hagree := ((hkeep hb h.bc hct).trans (hkeep hc h.cd ht)).trans hdt
  have hlow := hp.low t hvt
  rw [haim, h.mem, ← loaded_congr hagree (hp.inside hvt)]
  apply fetch_loaded (s := { t with m := w.b.m })
  change t.pc.toNat + 16 ≤ w.b.m.len
  rw [← hbt.len]
  exact hlow

/-- The last two registers are handed on where nothing is wrong in them. -/
theorem Moves.handed {u : Word} {n : Mem} (hq : Moves p q f u n)
    (okM : Alive p.ex_mem.current.status) (okW : Alive p.mem_wb.current.status) :
    q.ex_mem.current = execute p.cc p.id_ex.current ∧
      q.mem_wb.current = retired p.ex_mem.current u := by
  constructor
  · rw [hq.M, gen_M_bubble, okM.fine, okW.fine, if_neg (by simp)]
  · rw [hq.W, gen_W_stall, okW.fine, if_neg (by simp)]

/-- Decode hands its instruction on. -/
theorem Moves.decoded {u : Word} {n : Mem} (hq : Moves p q f u n) (hw : waits p = false)
    (hmiss : misses p = false) : q.id_ex.current = decoded p u := by
  rw [hq.E, hw, hmiss, Bool.or_false, if_neg (by simp)]

/-- Decode takes the fetched instruction in. -/
theorem Moves.loaded {u : Word} {n : Mem} (hq : Moves p q f u n) (hw : waits p = false)
    (hmiss : misses p = false) (hret : returns p = false) :
    q.if_id.current = f ∧ q.pc.current.pc = gen_f_predPC f := by
  constructor
  · rw [hq.D, hw, hmiss, hret, if_neg (by simp), if_neg (by simp)]
  · rw [hq.pc, hw, hret, if_neg (by simp)]

/-- Decode drops the fetched instruction. -/
theorem Moves.emptied {u : Word} {n : Mem} (hq : Moves p q f u n) (hw : waits p = false)
    (hdrop : (misses p || returns p) = true) : q.if_id.current = bubble_if_id := by
  rw [hq.D, hw, hdrop, if_neg (by simp), if_pos rfl]

/-- What a cycle leaves of the run behind decode. -/
theorem Flow.moves (h : Flow m p w) (hE : InE p.id_ex.current w.v w.c w.d)
    (okM : Alive p.ex_mem.current.status) (hq : Moves p q f w.u w.c.m) {d' : State}
    (hd : Moved w.d d') (v' : Word) : Flow m q ⟨w.b, w.c, w.d, d', w.v, v'⟩ := by
  obtain ⟨hM, hW⟩ := hq.handed okM h.okW
  have hcc : q.cc = w.d.cc := by
    rw [hq.cc, gen_set_cc, okM.fine, h.okW.fine, hE.cc, h.cc_in]
    simp
  refine ⟨?_, hq.mem, hcc, hq.cc_in.trans hcc, ?_, ?_, ?_, h.ab.visited h.visited, h.bc, h.cd, hd⟩
  · rw [hq.reg, h.reg]
    exact h.inW.symm
  · unfold InW
    rw [hW, h.inM.regs]
    rfl
  · rw [hM, h.cc]
    exact hE.runs
  · rw [hW]
    exact okM

/-- A register that writes nothing stands for no step. -/
theorem inE_idle {E : IdExEle} (hic : E.icode = I_NOP ∨ E.icode = I_HALT) (hE : E.deste = REG_NONE)
    (hM : E.destm = REG_NONE) (s : State) : InE E 0 s s := by
  refine ⟨⟨fun hr => ?_, fun _ => rfl, fun hw => ?_, fun _ => rfl, ?_⟩, ?_, fun _ => hM⟩
  · change gen_mem_read E.icode = true at hr
    rcases hic with hic | hic <;> rw [hic] at hr <;> cases hr
  · change gen_mem_write E.icode = true at hw
    rcases hic with hic | hic <;> rw [hic] at hw <;> cases hw
  · change s.r = written s.r (gen_e_dstE _ _ E.deste) _ E.destm 0
    have hdst : ∀ cnd, gen_e_dstE E.icode cnd REG_NONE = REG_NONE := by
      intro cnd
      unfold gen_e_dstE
      split <;> rfl
    rw [hE, hM, hdst]
    simp [written, set_reg_val]
  · rcases hic with hic | hic <;> simp [hic]

theorem inE_bubble (s : State) : InE bubble_id_ex 0 s s := inE_idle (Or.inl rfl) rfl rfl s

/-- Decode passes a bubble on. -/
theorem decoded_bubble {u : Word} (hD : p.if_id.current = bubble_if_id) :
    (decoded p u).icode = I_NOP ∧ (decoded p u).status = STAT_BUB ∧
      ∀ s, InE (decoded p u) 0 s s := by
  have hic : (decoded p u).icode = I_NOP := by
    unfold decoded
    rw [hD]
    rfl
  have hst : (decoded p u).status = STAT_BUB := by
    unfold decoded
    rw [hD]
    rfl
  have hdE : (decoded p u).deste = REG_NONE := by
    unfold decoded
    rw [hD]
    rfl
  have hdM : (decoded p u).destm = REG_NONE := by
    unfold decoded
    rw [hD]
    rfl
  exact ⟨hic, hst, fun s => inE_idle (Or.inl hic) hdE hdM s⟩

theorem Going.moves (h : Going m p w) (hq : Moves p q f w.u w.c.m) {d' : State}
    (hd : Moved w.d d') {v' : Word} (hE : InE q.id_ex.current v' w.d d')
    (okE : Alive q.id_ex.current.status) : Going m q ⟨w.b, w.c, w.d, d', w.v, v'⟩ := by
  refine ⟨h.toFlow.moves h.inE h.okM hq hd v', hE, ?_, okE⟩
  rw [(hq.handed h.okM h.okW).1]
  exact h.okE

theorem gen_f_pc_pred {f : IfIdEle} {E : IdExEle} {M : ExMemEle} {W : MemWbEle} {pc : Word}
    (hfall : (isJle f.icode f.ifun && isAndq E.icode E.ifun && positive E.vala) = false)
    (hmiss : (!(isJle M.icode M.ifun && isAndq W.icode W.ifun) &&
      (M.icode == I_JMP && !M.takebranch)) = false) (hret : W.icode ≠ I_RET) :
    gen_f_pc f E M W pc = pc := by
  unfold gen_f_pc
  rw [hfall, if_neg (by simp)]
  cases hpair : isJle M.icode M.ifun && isAndq W.icode W.ifun with
  | true => rw [if_pos rfl]
  | false =>
    rw [hpair, Bool.not_false, Bool.true_and] at hmiss
    rw [hmiss, if_neg (by simp), if_neg (by simp), if_neg hret]

/-- The next fetch, where the prediction is not overruled. -/
theorem aim_pred (h : Going m p w) (hq : Moves p q f w.u w.c.m)
    (hfall : (isJle f.icode f.ifun && isAndq q.id_ex.current.icode q.id_ex.current.ifun &&
      positive q.id_ex.current.vala) = false)
    (hmiss : misses p = false) (hret : p.ex_mem.current.icode ≠ I_RET) :
    aim q = q.pc.current.pc := by
  obtain ⟨hM, hW⟩ := hq.handed h.okM h.okW
  unfold aim
  rw [hM, hW, hq.fetched]
  exact gen_f_pc_pred hfall hmiss hret

theorem not_waits {p : Sim} (h : p.id_ex.current.icode ∉ [I_MRMOVQ, I_POPQ]) : waits p = false := by
  simp [waits, load_use, h]

theorem not_misses {p : Sim} (h : p.id_ex.current.icode ≠ I_JMP) : misses p = false := by
  simp [misses, mispredicted, h]

/-- An instruction that waits for a load is there again, and waits no longer. -/
theorem Ready.waiting (h : Ready m p w) (hp : Proper m) (hw : waits p = true)
    (hq : Moves p q f w.u w.c.m) : Ready m q ⟨w.b, w.c, w.d, w.d, w.v, 0⟩ ∧ waits q = false := by
  have hE : q.id_ex.current = bubble_id_ex := by
    rw [hq.E, hw, Bool.or_true, if_pos rfl]
  have hD : q.if_id.current = loaded w.d := by
    rw [hq.D, hw, if_pos rfl, h.D]
  have hpc : q.pc.current.pc = gen_f_predPC (loaded w.d) := by
    rw [hq.pc, hw, Bool.true_or, if_pos rfl, h.pred]
  have hM := (hq.handed h.okM h.okW).1
  have haim : aim q = q.pc.current.pc :=
    aim_pred h.toGoing hq (by rw [hE]; simp [isAndq, bubble_id_ex]) h.no_miss h.no_retM
  refine ⟨⟨h.toGoing.moves hq (Or.inl rfl) (by rw [hE]; exact inE_bubble w.d) ?_, hD, hpc, ?_, ?_,
    not_misses ?_, ?_⟩, not_waits ?_⟩
  · rw [hE]
    exact Or.inr rfl
  · rw [hE]
    simp [bubble_id_ex]
  · rw [hM]
    exact h.no_retE
  · rw [hE]
    simp [bubble_id_ex]
  · intro d' hd' hret hwrong
    rw [haim, hpc]
    refine (pred_right (hp.inside h.visited_d) hd' hret fun hjmp => ?_).symm
    simpa [wrong, hE, bubble_id_ex, isAndq, hjmp] using hwrong
  · rw [hE]
    simp [bubble_id_ex]

/-- An empty decode stage takes in the next instruction. -/
theorem Refill.next (h : Refill m p w) (hp : Proper m) (hf : fetch p.mem (aim p) = some f)
    (hq : Moves p q f w.u w.c.m) : Ready m q ⟨w.b, w.c, w.d, w.d, w.v, 0⟩ := by
  have hw : waits p = false := not_waits (by rw [h.E]; simp)
  have hmiss : misses p = false := not_misses (by rw [h.E]; simp)
  have hret : returns p = false := by
    simp [returns, ret_passes, h.D, h.E, Ne.symm h.no_retM, bubble_if_id]
  have hload : f = loaded w.d := by
    rw [h.fetch_right hp (Later.refl w.d) h.aimed] at hf
    exact (Option.some.inj hf).symm
  obtain ⟨hic, hst, hidle⟩ := decoded_bubble (u := w.u) h.D
  have hE : q.id_ex.current = decoded p w.u := hq.decoded hw hmiss
  obtain ⟨hD, hpc⟩ := hq.loaded hw hmiss hret
  rw [hload] at hD hpc
  have hM := (hq.handed h.okM h.okW).1
  have haim : aim q = q.pc.current.pc :=
    aim_pred h.toGoing hq (by rw [hE, hic]; simp [isAndq]) hmiss h.no_retM
  refine ⟨h.toGoing.moves hq (Or.inl rfl) (by rw [hE]; exact hidle w.d) ?_, hD, hpc, ?_, ?_,
    not_misses ?_, ?_⟩
  · rw [hE, hst]
    exact Or.inr rfl
  · rw [hE, hic]
    simp
  · rw [hM]
    change p.id_ex.current.icode ≠ I_RET
    rw [h.E]
    simp
  · rw [hE, hic]
    simp
  · intro d' hd' hret hwrong
    rw [haim, hpc]
    refine (pred_right (hp.inside h.visited_d) hd' hret fun hjmp => ?_).symm
    simpa [wrong, hE, hic, isAndq, hjmp] using hwrong

/-- Behind a wrong prediction the wrong path is dropped. -/
theorem WrongPath.next (h : WrongPath m p w) (hq : Moves p q f w.u w.c.m) :
    Refill m q ⟨w.b, w.c, w.d, w.d, w.v, 0⟩ := by
  have hmiss := h.miss
  unfold misses mispredicted at hmiss
  simp only [Bool.and_eq_true, Bool.not_eq_true', beq_iff_eq] at hmiss
  obtain ⟨hpair, hjmp, hcnd⟩ := hmiss
  have hw : waits p = false := not_waits (by rw [hjmp]; simp)
  have hE : q.id_ex.current = bubble_id_ex := by
    rw [hq.E, h.miss, Bool.true_or, if_pos rfl]
  have hD : q.if_id.current = bubble_if_id := hq.emptied hw (by rw [h.miss, Bool.true_or])
  obtain ⟨hM, hW⟩ := hq.handed h.okM h.okW
  rw [hjmp] at hpair
  refine ⟨h.toGoing.moves hq (Or.inl rfl) (by rw [hE]; exact inE_bubble w.d) ?_, hD, ?_, ?_, ?_⟩
  · rw [hE]
    exact Or.inr rfl
  · rw [hE]
    rfl
  · rw [hM]
    change p.id_ex.current.icode ≠ I_RET
    rw [hjmp]
    simp
  · unfold aim gen_f_pc
    rw [hE, hM, hW, show isAndq bubble_id_ex.icode bubble_id_ex.ifun = false from rfl]
    simp only [Bool.and_false, Bool.false_and, Bool.false_eq_true, if_false, execute, retired,
      hpair, hjmp, hcnd, beq_self_eq_true, Bool.not_false, Bool.and_self, if_true]
    exact h.back

/-- A `ret` goes from execute to the memory stage. -/
theorem RetE.next (h : RetE m p w) (hq : Moves p q f w.u w.c.m) :
    RetM m q ⟨w.b, w.c, w.d, w.d, w.v, 0⟩ := by
  have hw : waits p = false := not_waits (by rw [h.E]; simp)
  have hmiss : misses p = false := not_misses (by rw [h.E]; simp)
  have hret : returns p = true := by
    simp [returns, ret_passes, h.E]
  obtain ⟨hic, hst, hidle⟩ := decoded_bubble (u := w.u) h.D
  have hE : q.id_ex.current = decoded p w.u := hq.decoded hw hmiss
  refine ⟨h.toGoing.moves hq (Or.inl rfl) (by rw [hE]; exact hidle w.d) ?_, ?_, ?_, ?_, h.back⟩
  · rw [hE, hst]
    exact Or.inr rfl
  · exact hq.emptied hw (by rw [hret, Bool.or_true])
  · rw [hE, hic]
  · rw [(hq.handed h.okM h.okW).1]
    exact h.E

/-- A `ret` that has read its address gives it to the fetch stage. -/
theorem RetM.next (h : RetM m p w) (hq : Moves p q f w.u w.c.m) :
    Refill m q ⟨w.b, w.c, w.d, w.d, w.v, 0⟩ := by
  have hw : waits p = false := not_waits (by rw [h.E]; simp)
  have hmiss : misses p = false := not_misses (by rw [h.E]; simp)
  have hret : returns p = true := by
    simp [returns, ret_passes, h.M]
  obtain ⟨hic, hst, hidle⟩ := decoded_bubble (u := w.u) h.D
  have hE : q.id_ex.current = decoded p w.u := hq.decoded hw hmiss
  obtain ⟨hM, hW⟩ := hq.handed h.okM h.okW
  refine ⟨h.toGoing.moves hq (Or.inl rfl) (by rw [hE]; exact hidle w.d) ?_, ?_, ?_, ?_, ?_⟩
  · rw [hE, hst]
    exact Or.inr rfl
  · exact hq.emptied hw (by rw [hret, Bool.or_true])
  · rw [hE, hic]
  · rw [hM]
    change p.id_ex.current.icode ≠ I_RET
    rw [h.E]
    simp
  · unfold aim gen_f_pc
    rw [hE, hic, hM, hW]
    simp only [isAndq, isJle, execute, retired, h.E, h.M]
    simpa using h.back

/-- What decode passes on of the next instruction of the run. -/
theorem Ready.operands (h : Ready m p w) (hp : Proper m) (hw : waits p = false) :
    Operands w.d (decoded p w.u).vala (decoded p w.u).valb ∧
      decoded p w.u = decode (loaded w.d) (decoded p w.u).vala (decoded p w.u).valb := by
  have hsrcA : srcA p = gen_d_srcA (icodeAt w.d) (hi4 (regByte w.d)) := by
    unfold srcA
    rw [h.D]
    rfl
  have hsrcB : srcB p = gen_d_srcB (icodeAt w.d) (lo4 (regByte w.d)) := by
    unfold srcB
    rw [h.D]
    rfl
  unfold waits at hw
  rw [hsrcA, hsrcB] at hw
  have hops := operands_forwarded (hp.named _ h.visited_d) h.inW h.inM h.inE hw
  rw [← hsrcA, ← hsrcB, ← h.D, ← h.reg, ← h.cc] at hops
  refine ⟨hops, ?_⟩
  conv_lhs => unfold decoded
  rw [h.D]
  unfold decoded
  rw [h.D]
  rfl

/-- A jump takes its own address along, to come back to. -/
theorem Ready.jump_vala (h : Ready m p w) (hjmp : icodeAt w.d = I_JMP)
    (hpair : (isJle (icodeAt w.d) (ifunAt w.d) &&
      isAndq p.id_ex.current.icode p.id_ex.current.ifun) = false) :
    (decoded p w.u).vala = (loaded w.d).valp := by
  change gen_d_valA p.if_id.current _ _ _ _ _ _ _ = _
  rw [h.D]
  change (if (isJle (icodeAt w.d) (ifunAt w.d) && _) = true then _
    else if icodeAt w.d ∈ [I_CALL, I_JMP] then _ else _) = _
  rw [hpair, if_neg (by simp), if_pos (by simp [hjmp])]

/-- Whether the prediction was wrong is seen in execute. -/
theorem misses_wrong (h : Going m p w) (hq : Moves p q f w.u w.c.m)
    (hE : q.id_ex.current.icode = icodeAt w.d ∧ q.id_ex.current.ifun = ifunAt w.d) (hcc : q.cc = w.d.cc) :
    misses q = wrong p.id_ex.current w.d := by
  unfold misses mispredicted wrong
  rw [(hq.handed h.okM h.okW).1, hE.1, hE.2, hcc]
  rfl

/-- The first operand of an `andq` foretells the condition of a `jle` behind it. -/
theorem foretold_cond {s s' : State} {vala valb : Word} {v : Word} (hfore : Foretold m)
    (hs : Visited m s) (h : step_state s = some (STAT_AOK, s')) (hops : Operands s vala valb)
    (hrun : InE (decode (loaded s) vala valb) v s s')
    (hand : isAndq (icodeAt s) (ifunAt s) = true) (hjle : isJle (icodeAt s') (ifunAt s') = true) :
    cond_holds s'.cc C_LE = !positive vala := by
  have hsign := hfore s s' hs h hand hjle
  simp only [isAndq, Bool.and_eq_true, beq_iff_eq] at hand
  have hA : vala = get_reg_val s.r (hi4 (regByte s)) := by
    rw [hops.valA (by rw [hand.1]; simp)]
    simp [seq.valA, seq.gen_srcA, instrAt, hand.1]
  have hB : valb = get_reg_val s.r (lo4 (regByte s)) := by
    rw [hops.valB (by rw [hand.1]; simp)]
    simp [seq.valB, seq.gen_srcB, instrAt, hand.1]
  have hcc : s'.cc = compute_cc A_AND vala valb := by
    rw [hrun.cc]
    change (if icodeAt s ∈ [I_ALU, I_IADDQ] then compute_cc (seq.gen_alufun (icodeAt s) (ifunAt s))
      (seq.gen_aluA (icodeAt s) vala _) (seq.gen_aluB (icodeAt s) valb) else s.cc) = _
    simp [seq.gen_alufun, seq.gen_aluA, seq.gen_aluB, hand.1, hand.2]
  rw [hcc, le_after_and, hA, hB, hsign]

/-- The next instruction of the run goes to execute. -/
theorem Ready.next (h : Ready m p w) (hp : Proper m) (hfore : Foretold m) (hw : waits p = false)
    (hf : fetch p.mem (aim p) = some f) (hq : Moves p q f w.u w.c.m) {d' : State}
    (hd : step_state w.d = some (STAT_AOK, d')) : ∃ v',
      RetE m q ⟨w.b, w.c, w.d, d', w.v, v'⟩ ∨ WrongPath m q ⟨w.b, w.c, w.d, d', w.v, v'⟩ ∨
      Ready m q ⟨w.b, w.c, w.d, d', w.v, v'⟩ := by
  have hin := hp.inside h.visited_d
  obtain ⟨hops, hdec⟩ := h.operands hp hw
  obtain ⟨v', hrun, hpc'⟩ := decoded_runs hin hd hops
  rw [← hdec] at hrun
  have hE : q.id_ex.current = decoded p w.u := hq.decoded hw h.no_miss
  have hEi : q.id_ex.current.icode = icodeAt w.d ∧ q.id_ex.current.ifun = ifunAt w.d := by
    rw [hE, hdec]
    exact ⟨rfl, rfl⟩
  have hgo : Going m q ⟨w.b, w.c, w.d, d', w.v, v'⟩ := by
    refine h.toGoing.moves hq (Or.inr hd) (by rw [hE]; exact hrun) ?_
    rw [hE, hdec]
    exact Or.inl (loaded_status hin hd)
  have hmiss : misses q = wrong p.id_ex.current w.d := misses_wrong h.toGoing hq hEi hgo.cc
  refine ⟨v', ?_⟩
  by_cases hret : icodeAt w.d = I_RET
  · left
    have hreturns : returns p = true := by
      simp [returns, ret_passes, h.D, loaded, hret]
    refine ⟨hgo, ?_, hEi.1.trans hret, ?_⟩
    · exact hq.emptied hw (by rw [hreturns, Bool.or_true])
    · rw [hret] at hpc'
      exact hpc'.symm
  right
  cases hwrong : wrong p.id_ex.current w.d with
  | true =>
    left
    rw [hwrong] at hmiss
    unfold wrong at hwrong
    simp only [Bool.and_eq_true, Bool.not_eq_true', beq_iff_eq] at hwrong
    obtain ⟨hpair, hjmp, hcnd⟩ := hwrong
    refine ⟨hgo, hmiss, ?_⟩
    rw [hE, h.jump_vala hjmp hpair]
    change _ = d'.pc
    rw [jump_pc hin hd hjmp, hcnd, if_neg (by simp)]
  | false =>
    right
    have haim : aim p = d'.pc := h.aimed d' hd hret hwrong
    have hreturns : returns p = false := by
      simp [returns, ret_passes, h.D, loaded, Ne.symm hret, Ne.symm h.no_retE, Ne.symm h.no_retM]
    have hload : f = loaded d' := by
      rw [h.fetch_right hp (Later.step (Later.refl _) hd) haim] at hf
      exact (Option.some.inj hf).symm
    have hvis : Visited m d' := Later.step h.visited_d hd
    have hin' := hp.inside hvis
    obtain ⟨hD, hpc⟩ := hq.loaded hw h.no_miss hreturns
    rw [hload] at hD hpc
    refine ⟨hgo, hD, hpc, ?_, ?_, hmiss.trans hwrong, ?_⟩
    · rw [hEi.1]
      exact hret
    · rw [(hq.handed h.okM h.okW).1]
      exact h.no_retE
    · intro d'' hd'' hret' hwrong'
      have hpred : (isJle f.icode f.ifun && isAndq q.id_ex.current.icode q.id_ex.current.ifun &&
          positive q.id_ex.current.vala) = false → aim q = gen_f_predPC (loaded d') := fun hfall =>
        (aim_pred h.toGoing hq hfall h.no_miss h.no_retM).trans hpc
      rw [hload] at hpred
      cases hpair : isJle (icodeAt d') (ifunAt d') &&
          isAndq q.id_ex.current.icode q.id_ex.current.ifun with
      | false =>
        rw [hpred (by change (isJle (icodeAt d') (ifunAt d') && _ && _) = false; rw [hpair]; rfl)]
        refine (pred_right hin' hd'' hret' fun hjmp => ?_).symm
        unfold wrong at hwrong'
        rw [hpair, Bool.not_false, Bool.true_and, hjmp] at hwrong'
        simpa using hwrong'
      | true =>
        rw [Bool.and_eq_true, hEi.1, hEi.2] at hpair
        obtain ⟨hjle, hand⟩ := hpair
        have hcond := foretold_cond hfore h.visited_d hd hops (hdec ▸ hrun) hand hjle
        have hj : icodeAt d' = I_JMP ∧ ifunAt d' = C_LE := by simpa [isJle] using hjle
        have hpc'' := jump_pc hin' hd'' hj.1
        rw [hj.2, hcond] at hpc''
        cases hsign : positive (decoded p w.u).vala with
        | true =>
          -- the fall-through is fetched at once, past the prediction
          rw [hsign, Bool.not_true, if_neg (by simp)] at hpc''
          rw [hpc'']
          unfold aim gen_f_pc
          rw [hq.fetched, hload, hEi.1, hEi.2, hand, hE, hsign]
          change (if (isJle (icodeAt d') (ifunAt d') && true && true) = true then _ else _) = _
          rw [hjle, if_pos (by simp)]
        | false =>
          rw [hsign, Bool.not_false, if_pos rfl] at hpc''
          rw [hpred (by rw [hE, hsign, Bool.and_false]), hpc'']
          change (if icodeAt d' ∈ [I_JMP, I_CALL] then _ else _) = _
          rw [if_pos (by simp [hj.1])]

end

end ics_labs.psim
