-- The pipelined processor runs the instruction set. A program that halts is run to the
-- same registers, memory and condition codes, as long as no `andq` misleads a `jle`
-- behind it: the fetch stage goes by the sign of one operand, not of the result.
import IcsLabs.PsimModes

open ics_labs.byte_words ics_labs.memory ics_labs.isa ics_labs.runs
open ics_labs.isa.IType ics_labs.isa.Stat

namespace ics_labs.psim

/-! ## The halt instruction -/

/-- The run of the instruction set comes to a halt in `h`. -/
structure Halts (m : Mem) (h : State) : Prop where
  visited : Visited m h
  halted : ∃ h', step_state h = some (STAT_HLT, h')

theorem Halts.stuck {m : Mem} {h : State} (hh : Halts m h) : good step_state h = none := by
  obtain ⟨h', hs⟩ := hh.halted
  unfold good
  rw [hs]

theorem Halts.icode {m : Mem} {h : State} (hp : Proper m) (hh : Halts m h) : icodeAt h = I_HALT := by
  obtain ⟨h', hs⟩ := hh.halted
  rw [step_state_at (hp.inside hh.visited)] at hs
  exact (seq.execute_hlt hs).1

/-- Every state of the run is on the way to the halt. -/
theorem Halts.ahead {m : Mem} {h s : State} (hh : Halts m h) (hs : Visited m s) : Later s h := by
  obtain ⟨n, hn⟩ := hh.visited
  obtain ⟨k, hk⟩ := hs
  exact iter_stuck hn hh.stuck hk

/-- The halt instruction in execute. -/
structure HaltE (m : Mem) (h : State) (p : Sim) (w : View) : Prop extends Flow m p w where
  inE : InE p.id_ex.current w.v w.c w.d
  okM : Alive p.ex_mem.current.status
  E : p.id_ex.current.icode = I_HALT
  status : p.id_ex.current.status = STAT_HLT
  deste : p.id_ex.current.deste = REG_NONE
  destm : p.id_ex.current.destm = REG_NONE
  here : w.d = h

/-- The halt instruction in the memory stage. -/
structure HaltM (m : Mem) (h : State) (p : Sim) (w : View) : Prop extends Flow m p w where
  M : p.ex_mem.current.icode = I_HALT
  status : p.ex_mem.current.status = STAT_HLT
  deste : p.ex_mem.current.deste = REG_NONE
  destm : p.ex_mem.current.destm = REG_NONE
  here : w.c = h

/-- The registers, the memory and the condition codes are those of `h`. -/
structure Ended (p : Sim) (h : State) : Prop where
  reg : p.reg = h.r
  mem : p.mem = h.m
  cc : p.cc = h.cc

/-- The halt instruction in write back. -/
structure HaltW (h : State) (p : Sim) : Prop extends Ended p h where
  M : p.ex_mem.current = bubble_ex_mem
  status : p.mem_wb.current.status = STAT_HLT

section

variable {m : Mem} {h : State} {p q : Sim} {w : View} {f : IfIdEle}

theorem Ready.halts (hr : Ready m p w) (hp : Proper m) (hh : Halts m h) (hd : w.d = h)
    (hw : waits p = false) (hq : Moves p q f w.u w.c.m) :
    HaltE m h q ⟨w.b, w.c, w.d, w.d, w.v, 0⟩ := by
  have hic : icodeAt w.d = I_HALT := by
    rw [hd]
    exact hh.icode hp
  obtain ⟨-, hdec⟩ := hr.operands hp hw
  have hE : q.id_ex.current = decode (loaded w.d) (decoded p w.u).vala (decoded p w.u).valb := by
    rw [hq.decoded hw hr.no_miss]
    exact hdec
  have hst : (loaded w.d).status = STAT_HLT := by
    unfold loaded
    rw [hic]
    rfl
  have hdE : gen_d_dstE (icodeAt w.d) (lo4 (regByte w.d)) = REG_NONE := by
    rw [hic]
    rfl
  have hdM : gen_d_dstM (icodeAt w.d) (hi4 (regByte w.d)) = REG_NONE := by
    rw [hic]
    rfl
  refine ⟨hr.toFlow.moves hr.inE hr.okM hq (Or.inl rfl) 0, ?_, ?_, ?_, ?_, ?_, ?_, hd⟩
  · rw [hE]
    exact inE_idle (Or.inr hic) hdE hdM w.d
  · rw [(hq.handed hr.okM hr.okW).1]
    exact hr.okE
  · rw [hE]
    exact hic
  · rw [hE]
    exact hst
  · rw [hE]
    exact hdE
  · rw [hE]
    exact hdM

theorem HaltE.next (he : HaltE m h p w) (hq : Moves p q f w.u w.c.m) :
    HaltM m h q ⟨w.b, w.c, w.d, w.d, w.v, 0⟩ := by
  have hM := (hq.handed he.okM he.okW).1
  refine ⟨he.toFlow.moves he.inE he.okM hq (Or.inl rfl) 0, ?_, ?_, ?_, ?_, he.here⟩
  · rw [hM]
    exact he.E
  · rw [hM]
    exact he.status
  · rw [hM]
    change gen_e_dstE p.id_ex.current.icode _ p.id_ex.current.deste = _
    rw [he.E, he.deste]
    rfl
  · rw [hM]
    exact he.destm

/-- The instruction behind the halt gets no further, and leaves the condition codes. -/
theorem HaltM.next (hm : HaltM m h p w) (hq : Moves p q f w.u w.c.m) : HaltW h q := by
  refine ⟨⟨?_, ?_, ?_⟩, ?_, ?_⟩
  · rw [hq.reg, hm.reg]
    calc _ = w.b.r := hm.inW.symm
      _ = w.c.r := by
        rw [hm.inM.regs, hm.deste, hm.destm]
        simp [written, set_reg_val]
      _ = h.r := by rw [hm.here]
  · rw [hq.mem, hm.here]
  · rw [hq.cc, hm.status, hm.cc_in, hm.here]
    simp [gen_set_cc, excepted]
  · rw [hq.M, hm.status]
    simp [gen_M_bubble, excepted]
  · rw [hq.W, gen_W_stall, hm.okW.fine, if_neg (by simp)]
    exact hm.status

theorem inM_bubble (s : State) : InM bubble_ex_mem 0 s s := by
  refine ⟨fun hr => absurd hr (by decide), fun _ => rfl, fun hw => absurd hw (by decide),
    fun _ => rfl, ?_⟩
  change s.r = set_reg_val (set_reg_val s.r REG_NONE _) REG_NONE _
  simp [set_reg_val]

theorem HaltW.ends (hw : HaltW h p) : ∃ f, stages p = some (computed p f 0) ∧
    (computed p f 0).status = STAT_HLT := by
  obtain ⟨f, hf⟩ := fetch_ends p.mem (aim p)
  have hM : InM p.ex_mem.current 0 h h := by
    rw [hw.M]
    exact inM_bubble h
  refine ⟨f, stages_eq hf hM hw.mem, ?_⟩
  change gen_Stat p.mem_wb.current.status = _
  rw [hw.status]
  rfl

end

/-! ## The run of the processor -/

/-- What the processor shows are states of the run of the instruction set, for the memory
and the condition codes one that may be some steps ahead. -/
def Shown (m : Mem) (p : Sim) : Prop := ∃ a b c, Visited m a ∧ Later a b ∧ Later b c ∧
  p.reg = a.r ∧ p.mem = b.m ∧ p.cc = c.cc

/-- The mode that the processor is in, with a rank that every cycle lowers: `k` instructions
are still to be taken into execute. -/
inductive InMode (m : Mem) (h : State) : Nat → Sim → Prop
  | retE {p : Sim} {w : View} {k : Nat} : RetE m p w → iter (good step_state) k w.d = some h →
      InMode m h (8 * k + 7) p
  | retM {p : Sim} {w : View} {k : Nat} : RetM m p w → iter (good step_state) k w.d = some h →
      InMode m h (8 * k + 6) p
  | wrongPath {p : Sim} {w : View} {k : Nat} : WrongPath m p w →
      iter (good step_state) k w.d = some h → InMode m h (8 * k + 6) p
  | refill {p : Sim} {w : View} {k : Nat} : Refill m p w → iter (good step_state) k w.d = some h →
      InMode m h (8 * k + 5) p
  | ready {p : Sim} {w : View} {k : Nat} : Ready m p w → iter (good step_state) k w.d = some h →
      InMode m h (8 * k + if waits p then 4 else 3) p
  | haltE {p : Sim} {w : View} : HaltE m h p w → InMode m h 2 p
  | haltM {p : Sim} {w : View} : HaltM m h p w → InMode m h 1 p
  | haltW {p : Sim} : HaltW h p → InMode m h 0 p

section

variable {m : Mem} {h : State} {p : Sim} {w : View}

theorem Moved.later_of {s t : State} (h : Moved s t) : Later s t := h.later (Later.refl t)

theorem Flow.shown (hf : Flow m p w) : Shown m p :=
  ⟨w.a, w.b, w.c, hf.visited, hf.ab.later_of, hf.bc.later_of, hf.reg, hf.mem, hf.cc⟩

/-- What a cycle comes to: it halts in the right state, or it goes on with a lower rank. -/
def Goes (m : Mem) (h : State) (n : Nat) (p' : Sim) : Prop :=
  (p'.status = STAT_HLT ∧ Ended p' h) ∨
    (p'.status = STAT_AOK ∧ ∃ q k, commit p' = some q ∧ k < n ∧ InMode m h k q)

/-- A cycle that keeps the processor going, from what it leads to. -/
theorem Flow.goes (hf : Flow m p w) {n : Nat}
    (hnext : ∀ f q, fetch p.mem (aim p) = some f → Moves p q f w.u w.c.m →
      ∃ k, k < n ∧ InMode m h k q) : ∃ p', stages p = some p' ∧ Shown m p' ∧ Goes m h n p' := by
  obtain ⟨f, q, hfetch, hs, hq, hmoves⟩ := hf.cycles
  obtain ⟨k, hk, hmode⟩ := hnext f q hfetch hmoves
  exact ⟨_, hs, hf.shown, Or.inr ⟨hf.okW.aok, q, k, hq, hk, hmode⟩⟩

/-- One cycle, in any mode. -/
theorem InMode.cycle (hp : Proper m) (hfore : Foretold m) (hh : Halts m h) {n : Nat}
    (hmode : InMode m h n p) : ∃ p', stages p = some p' ∧ Shown m p' ∧ Goes m h n p' := by
  cases hmode with
  | retE hr hk =>
    apply hr.toFlow.goes
    intro f q _ hq
    exact ⟨_, by omega, .retM (hr.next hq) hk⟩
  | retM hr hk =>
    apply hr.toFlow.goes
    intro f q _ hq
    exact ⟨_, by omega, .refill (hr.next hq) hk⟩
  | wrongPath hr hk =>
    apply hr.toFlow.goes
    intro f q _ hq
    exact ⟨_, by omega, .refill (hr.next hq) hk⟩
  | refill hr hk =>
    apply hr.toFlow.goes
    intro f q hf hq
    exact ⟨_, by split <;> omega, .ready (hr.next hp hf hq) hk⟩
  | @ready _ w k hr hk =>
    apply hr.toFlow.goes
    intro f q hf hq
    cases hw : waits p with
    | true =>
      obtain ⟨hready, hwq⟩ := hr.waiting hp hw hq
      refine ⟨_, ?_, .ready hready hk⟩
      rw [hwq]
      simp
    | false =>
      cases k with
      | zero => exact ⟨2, by simp, .haltE (hr.halts hp hh (Option.some.inj hk) hw hq)⟩
      | succ k =>
        obtain ⟨d', hd', hk'⟩ := Option.bind_eq_some_iff.mp hk
        obtain ⟨v', hret | hwrong | hready⟩ := hr.next hp hfore hw hf hq (good_eq_some.mp hd')
        · exact ⟨_, by simp; omega, .retE hret hk'⟩
        · exact ⟨_, by simp; omega, .wrongPath hwrong hk'⟩
        · exact ⟨_, by simp; split <;> omega, .ready hready hk'⟩
  | haltE he =>
    apply he.toFlow.goes
    intro f q _ hq
    exact ⟨_, by omega, .haltM (he.next hq)⟩
  | haltM hm =>
    apply hm.toFlow.goes
    intro f q _ hq
    exact ⟨_, by omega, .haltW (hm.next hq)⟩
  | haltW hw =>
    obtain ⟨f, hs, hst⟩ := hw.ends
    have hv := hh.visited
    exact ⟨_, hs, ⟨h, h, h, hv, Later.refl h, Later.refl h, hw.reg, hw.mem, hw.cc⟩,
      Or.inl ⟨hst, hw.reg, hw.mem, hw.cc⟩⟩

end

/-! ## From reset to the halt -/

/-- A cycle, when no limit on the instructions is near. -/
def cycle (p : Sim) : Option (Stat × Sim) := sim_step_pipe 3 p

/-- What the last cycle left pending leads to a mode. -/
def Runs (m : Mem) (h : State) (n : Nat) (p : Sim) : Prop :=
  ∃ q, commit p = some q ∧ InMode m h n q

section

variable {m : Mem} {h : State}

theorem runs_reset (hh : Halts m h) : ∃ n, Runs m h n (sim_reset m) := by
  have hv : Visited m (start m) := Later.refl (start m)
  obtain ⟨k, hk⟩ := hh.ahead hv
  have hcommit : commit (sim_reset m) = some (sim_reset m) := rfl
  refine ⟨_, sim_reset m, hcommit, .refill (w := ⟨start m, start m, start m, start m, 0, 0⟩) ?_ hk⟩
  have hw : InW (sim_reset m).mem_wb.current (start m).r (start m).r := by
    change (start m).r = set_reg_val (set_reg_val (start m).r REG_NONE _) REG_NONE _
    simp [set_reg_val]
  refine ⟨⟨⟨rfl, rfl, rfl, rfl, hw, inM_bubble _, Or.inr rfl, hv, Or.inl rfl, Or.inl rfl,
    Or.inl rfl⟩, inE_bubble _, Or.inr rfl, Or.inr rfl⟩, rfl, rfl, ?_, rfl⟩
  change I_NOP ≠ I_RET
  simp

/-- One cycle of the run. -/
theorem runs_cycle (hp : Proper m) (hfore : Foretold m) (hh : Halts m h) {n : Nat} {p : Sim}
    (hr : Runs m h n p) : ∃ p', Shown m p' ∧
      ((cycle p = some (STAT_HLT, p') ∧ Ended p' h) ∨
        (cycle p = some (STAT_AOK, p') ∧ ∃ k, k < n ∧ Runs m h k p')) := by
  obtain ⟨q, hq, hmode⟩ := hr
  obtain ⟨p', hp', hshown, hgoes⟩ := hmode.cycle hp hfore hh
  have hcycle : cycle p = some (p'.status, p') := by
    unfold cycle
    rw [sim_step_pipe_eq (Nat.le_refl 3), hq, Option.bind_some, hp']
    rfl
  refine ⟨p', hshown, ?_⟩
  rw [hcycle]
  rcases hgoes with ⟨hst, hend⟩ | ⟨hst, q', k, hq', hk, hmode'⟩
  · exact Or.inl ⟨by rw [hst], hend⟩
  · exact Or.inr ⟨by rw [hst], k, hk, q', hq', hmode'⟩

/-- The processor comes to write back the halt, in the right state. -/
theorem the_run_ends (hp : Proper m) (hfore : Foretold m) (hh : Halts m h) :
    ∃ n p q, iter (good cycle) n (sim_reset m) = some p ∧ cycle p = some (STAT_HLT, q) ∧
      Ended q h := by
  obtain ⟨n, hn⟩ := runs_reset hh
  have hstep : ∀ n p, Runs m h n p → (∃ q, cycle p = some (STAT_HLT, q) ∧ Ended q h) ∨
      ∃ p' k, good cycle p = some p' ∧ k < n ∧ Runs m h k p' := by
    intro n p hr
    obtain ⟨p', -, ⟨hc, hend⟩ | ⟨hc, k, hk, hr'⟩⟩ := runs_cycle hp hfore hh hr
    · exact Or.inl ⟨p', hc, hend⟩
    · exact Or.inr ⟨p', k, good_eq_some.mpr hc, hk, hr'⟩
  obtain ⟨k, p, hk, q, hq, hend⟩ := iter_ends hstep hn
  exact ⟨k, p, q, hk, hq, hend⟩

/-- Every state on the way shows states of the run of the instruction set. -/
theorem every_state_is_shown (hp : Proper m) (hfore : Foretold m) (hh : Halts m h) {n : Nat}
    {p : Sim} (hn : iter (good cycle) n (sim_reset m) = some p) : Shown m p := by
  have hstep : ∀ a b, (Shown m a ∧ ∃ n, Runs m h n a) → good cycle a = some b →
      Shown m b ∧ ∃ n, Runs m h n b := by
    rintro a b ⟨-, k, hr⟩ hb
    have hc := good_eq_some.mp hb
    obtain ⟨p', hshown, ⟨hc', -⟩ | ⟨hc', k', -, hr'⟩⟩ := runs_cycle hp hfore hh hr
    · rw [hc] at hc'
      cases hc'
    · rw [hc] at hc'
      cases hc'
      exact ⟨hshown, k', hr'⟩
  have hstart : Shown m (sim_reset m) :=
    ⟨start m, start m, start m, Later.refl _, Later.refl _, Later.refl _, rfl, rfl, rfl⟩
  exact (iter_invariant hstep ⟨hstart, runs_reset hh⟩ hn).1

end

/-- Limits that are not reached make no difference. -/
theorem sim_step_pipe_cycle {k : Nat} (hk : 3 ≤ k) (p : Sim) : sim_step_pipe k p = cycle p := by
  unfold cycle
  rw [sim_step_pipe_eq hk, sim_step_pipe_eq (Nat.le_refl 3)]

/-- The loop of `sim_run_pipe` follows the cycles up to the halt. -/
theorem run_cycles_halts {max_instr n left icount : Nat} {st : Stat} {p q r : Sim}
    (hn : iter (good cycle) n p = some q) (hq : cycle q = some (STAT_HLT, r)) (hleft : n < left)
    (hmax : icount + n + 3 ≤ max_instr) :
    run_cycles max_instr left icount st p = some (icount + n + 1, STAT_HLT, r) := by
  induction n generalizing left icount st p with
  | zero =>
    cases hn
    obtain ⟨left, rfl⟩ : ∃ k, left = k + 1 := ⟨left - 1, by omega⟩
    rw [run_cycles, if_pos (by omega), sim_step_pipe_cycle (by omega), hq]
    rfl
  | succ n ih =>
    obtain ⟨p', hp', hn⟩ := Option.bind_eq_some_iff.mp hn
    obtain ⟨left, rfl⟩ : ∃ k, left = k + 1 := ⟨left - 1, by omega⟩
    rw [run_cycles, if_pos (by omega), sim_step_pipe_cycle (by omega), good_eq_some.mp hp']
    have hrest : run_cycles max_instr left (icount + 1) STAT_AOK p' =
        some (icount + 1 + n + 1, STAT_HLT, r) := ih hn (by omega) (by omega)
    rw [show icount + 1 + n + 1 = icount + (n + 1) + 1 by omega] at hrest
    exact hrest

/-- Run from reset, the processor halts as `q`, whatever the limits are, if they are large
enough. -/
def HaltsAs (m : Mem) (q : Sim) : Prop := ∃ n, ∀ max_instr max_cycle, n ≤ max_instr →
  n ≤ max_cycle → ∃ icount,
    sim_run_pipe max_instr max_cycle (sim_reset m) = some (icount, STAT_HLT, q)

theorem halts_as {m : Mem} {n : Nat} {p q : Sim} (hn : iter (good cycle) n (sim_reset m) = some p)
    (hq : cycle p = some (STAT_HLT, q)) : HaltsAs m q :=
  ⟨n + 3, fun _ _ h1 h2 => ⟨_, run_cycles_halts hn hq (by omega) (by omega)⟩⟩

theorem HaltsAs.unique {m : Mem} {q r : Sim} (hq : HaltsAs m q) (hr : HaltsAs m r) : q = r := by
  obtain ⟨n, hn⟩ := hq
  obtain ⟨k, hk⟩ := hr
  obtain ⟨i, hi⟩ := hn (max n k) (max n k) (by omega) (by omega)
  obtain ⟨j, hj⟩ := hk (max n k) (max n k) (by omega) (by omega)
  rw [hi] at hj
  simp only [Option.some.injEq, Prod.mk.injEq] at hj
  exact hj.2.2

/-! ## The law -/

/-- The processor halts with the registers, the memory and the condition codes of `h`. -/
def RunsTo (m : Mem) (h : State) : Prop := ∃ q, HaltsAs m q ∧ Ended q h

/-- A program that halts is run to the state in which `step_state` halts, and on the way
nothing takes effect that is not of its run, if every `andq` in front of a `jle` foretells
its condition. -/
theorem the_pipeline_runs_the_instruction_set (m : Mem) (h : State) (hp : Proper m)
    (hh : Halts m h) (hfore : Foretold m) :
    RunsTo m h ∧ ∀ n p, iter (good cycle) n (sim_reset m) = some p → Shown m p := by
  obtain ⟨n, p, q, hn, hq, hend⟩ := the_run_ends hp hfore hh
  exact ⟨⟨q, halts_as hn hq, hend⟩, fun k p' hk => every_state_is_shown hp hfore hh hk⟩

/-! ## A program that tells the two apart -/

/-- An instruction that is fit to be run and stores nothing. -/
def Fit (s : State) : Prop := Named s ∧ s.pc.toNat + 16 ≤ s.m.len ∧ gen_mem_write (icodeAt s) = false

instance (s : State) : Decidable (Named s) :=
  decidable_of_iff (_ ∧ _) ⟨fun h => ⟨h.1, h.2⟩, fun h => ⟨h.rA, h.rB⟩⟩

instance (s : State) : Decidable (Fit s) := inferInstanceAs (Decidable (_ ∧ _ ∧ _))

/-- Every state of a run that comes to its end is one of the states that can be counted up. -/
theorem Visited.check {m : Mem} {n : Nat} {h s : State} {P : State → Prop} [DecidablePred P]
    (hn : iter (good step_state) n (start m) = some h) (hstuck : good step_state h = none)
    (hcheck : ∀ k ≤ n, (iter (good step_state) k (start m)).all fun s => decide (P s))
    (hs : Visited m s) : P s := by
  obtain ⟨k, hk⟩ := hs
  have := hcheck k (le_of_stuck hn hstuck hk)
  rw [hk] at this
  simpa using this

theorem proper_of_fit {m : Mem} (hfit : ∀ s, Visited m s → Fit s) : Proper m := by
  refine ⟨fun s hs => (hfit s hs).1, fun s hs => (hfit s hs).2.1, fun s s' t hs h _ => ?_⟩
  have hin : Inside s.m s.pc (lengthAt s) := by
    have h16 := (hfit s hs).2.1
    have hle := lengthAt_le s
    unfold Inside
    omega
  obtain ⟨v, m', hc, rfl⟩ := step_after hin h
  change Agree s.m.contents m'.contents _ _
  rw [hc.no_write (hfit s hs).2.2]
  exact fun _ _ _ => rfl

/-- `irmovq $1, %rax; irmovq $c, %rbx; andq %rax, %rbx; jle end; irmovq $5, %rcx; end: halt` -/
def and_jle (c : Byte) : Mem where
  len := 64
  contents := fun x => [0x30, 0xf0, 1, 0, 0, 0, 0, 0, 0, 0, 0x30, 0xf3, c, 0, 0, 0, 0, 0, 0, 0,
    0x62, 0x03, 0x71, 41, 0, 0, 0, 0, 0, 0, 0, 0x30, 0xf1, 5, 0, 0, 0, 0, 0, 0, 0, 0x00].getD x 0
  len_lt := by norm_num

/-- Where the run of a program is seen to halt. -/
theorem halts_of_check {m : Mem} {n : Nat}
    (hcheck : (iter (good step_state) n (start m)).any fun h =>
      (step_state h).any fun r => decide (r.1 = STAT_HLT)) :
    ∃ h, iter (good step_state) n (start m) = some h ∧ Halts m h := by
  obtain ⟨h, hn, hh⟩ := (Option.any_eq_true _ _).mp hcheck
  obtain ⟨⟨st, h'⟩, hstep, hst⟩ := (Option.any_eq_true _ _).mp hh
  have hhlt : st = STAT_HLT := of_decide_eq_true hst
  subst hhlt
  exact ⟨h, hn, ⟨n, hn⟩, h', hstep⟩

/-- The operand 1 is positive, the result 0 is not: the processor runs the instruction that
the jump leaves out. -/
theorem a_jle_goes_the_wrong_way :
    Proper (and_jle 2) ∧ ∃ h, Halts (and_jle 2) h ∧ ¬ RunsTo (and_jle 2) h := by
  obtain ⟨h, hn, hh⟩ := halts_of_check (m := and_jle 2) (n := 4) (by decide +kernel)
  have hfit : ∀ s, Visited (and_jle 2) s → Fit s := fun s hs =>
    hs.check hn hh.stuck (by decide +kernel)
  refine ⟨proper_of_fit hfit, h, hh, ?_⟩
  rintro ⟨q, hq, hend⟩
  have hrun : ((iter (good cycle) 9 (sim_reset (and_jle 2))).bind fun p =>
      (cycle p).map fun q => (q.1, q.2.reg 1)) = some (STAT_HLT, 5) := by decide +kernel
  obtain ⟨p, hp, hmap⟩ := Option.bind_eq_some_iff.mp hrun
  obtain ⟨⟨st, r⟩, hr, hval⟩ := Option.map_eq_some_iff.mp hmap
  simp only [Prod.mk.injEq] at hval
  obtain ⟨rfl, h5⟩ := hval
  have h0 : ((iter (good step_state) 4 (start (and_jle 2))).map fun s => s.r 1) = some 0 := by
    decide +kernel
  rw [hn, Option.map_some, Option.some.injEq] at h0
  rw [(halts_as hp hr).unique hq, hend.reg, h0] at h5
  cases h5

/-- Operand and result are both 1. -/
theorem a_jle_goes_the_right_way : ∃ h, RunsTo (and_jle 3) h ∧
    ∀ n p, iter (good cycle) n (sim_reset (and_jle 3)) = some p → Shown (and_jle 3) p := by
  obtain ⟨h, hn, hh⟩ := halts_of_check (m := and_jle 3) (n := 5) (by decide +kernel)
  have hfit : ∀ s, Visited (and_jle 3) s → Fit s := fun s hs =>
    hs.check hn hh.stuck (by decide +kernel)
  have hsign : ∀ s, Visited (and_jle 3) s → isAndq (icodeAt s) (ifunAt s) = true →
      positive (get_reg_val s.r (hi4 (regByte s))) =
        positive (get_reg_val s.r (hi4 (regByte s)) &&& get_reg_val s.r (lo4 (regByte s))) :=
    fun s hs => hs.check (P := fun s => isAndq (icodeAt s) (ifunAt s) = true →
      positive (get_reg_val s.r (hi4 (regByte s))) =
        positive (get_reg_val s.r (hi4 (regByte s)) &&& get_reg_val s.r (lo4 (regByte s))))
      hn hh.stuck (by decide +kernel)
  exact ⟨h, the_pipeline_runs_the_instruction_set (and_jle 3) h (proper_of_fit hfit) hh
    fun s s' hs _ hand _ => hsign s hs hand⟩

end ics_labs.psim
