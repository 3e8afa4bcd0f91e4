-- The faults of lab4: which data addresses `nexti` refuses, and what a fault leaves of
-- the state.
import IcsLabs.Y64Sim

open ics_labs.byte_words ics_labs.memory
open ics_labs.isa (IType Stat State DEFAULT_CC)
open ics_labs.isa.IType ics_labs.isa.Stat

namespace ics_labs.y64sim

/-- Eight bytes at the address are not all inside memory. The sum does not wrap here. -/
def OutOf (m : Mem) (a : Word) : Prop := a.toInt < 0 ∨ (m.len : Int) < a.toInt + 8

/-- The test `addr + 8 > m->len` adds up without wrapping. -/
def SumFits (a : Word) : Prop := a.toInt + 8 < 2 ^ 63

instance (m : Mem) (a : Word) : Decidable (OutOf m a) := inferInstanceAs (Decidable (_ ∨ _))

instance (a : Word) : Decidable (SumFits a) := inferInstanceAs (Decidable (_ < _))

/-! ## Eight bytes of memory -/

theorem toInt_cond (a : Word) :
    a.toNat < 2 ^ 63 ∧ a.toInt = a.toNat ∨ 2 ^ 63 ≤ a.toNat ∧ a.toInt = (a.toNat : Int) - 2 ^ 64 := by
  have h := a.isLt
  rw [BitVec.toInt_eq_toNat_cond]
  split <;> omega

theorem not_outOf_iff (m : Mem) (a : Word) : ¬ OutOf m a ↔ Inside m a 8 := by
  have hl := m.len_lt
  unfold OutOf Inside
  rcases toInt_cond a with ⟨h1, h2⟩ | ⟨h1, h2⟩ <;> rw [h2] <;> omega

theorem refused_of_outOf {m : Mem} {a : Word} (h : OutOf m a) (hs : SumFits a) : Refused m a 8 := by
  rw [refused_iff]
  unfold OutOf at h
  unfold SumFits at hs
  rcases toInt_cond a with ⟨h1, h2⟩ | ⟨h1, h2⟩ <;> rw [h2] at h hs <;> omega

/-- An address whose sum wraps passes the test. -/
theorem passed_of_wrap {m : Mem} {a : Word} (hs : ¬ SumFits a) :
    ¬ Refused m a 8 ∧ ¬ a.toNat + 8 ≤ m.len := by
  have hl := m.len_lt
  have ha := a.isLt
  rw [refused_iff]
  unfold SumFits at hs
  rcases toInt_cond a with ⟨h1, h2⟩ | ⟨h1, h2⟩ <;> rw [h2] at hs <;> omega

theorem get_long_val_out {m : Mem} {a : Word} (h : OutOf m a) (hs : SumFits a) :
    get_long_val m a = some none := if_pos (refused_of_outOf h hs)

theorem set_long_val_out {m : Mem} {a v : Word} (h : OutOf m a) (hs : SumFits a) :
    set_long_val m a v = some none := if_pos (refused_of_outOf h hs)

theorem get_long_val_wrap {m : Mem} {a : Word} (hs : ¬ SumFits a) : get_long_val m a = none := by
  obtain ⟨h1, h2⟩ := passed_of_wrap (m := m) hs
  exact (if_neg h1).trans (if_neg h2)

theorem set_long_val_wrap {m : Mem} {a v : Word} (hs : ¬ SumFits a) :
    set_long_val m a v = none := by
  obtain ⟨h1, h2⟩ := passed_of_wrap (m := m) hs
  exact (if_neg h1).trans (if_neg h2)

theorem get_long_val_in {m : Mem} {a : Word} (h : ¬ OutOf m a) :
    get_long_val m a = some (some (wordAt m a)) := readWord_inside ((not_outOf_iff m a).mp h)

theorem set_long_val_in {m : Mem} {a v : Word} (h : ¬ OutOf m a) :
    set_long_val m a v = some (some (m.put a v)) := writeWord_inside ((not_outOf_iff m a).mp h)

/-- A small address does not wrap. -/
theorem sumFits_of_lt {a : Word} (h : a.toNat + 8 < 2 ^ 63) : SumFits a := by
  unfold SumFits
  rcases toInt_cond a with ⟨-, h2⟩ | ⟨h1, -⟩ <;> omega

/-- The fetch never leaves the memory: its addresses are just behind a byte that is there. -/
theorem fetch_stays_inside (loc : Locals) (m : Mem) (pc : Word) : fetch loc m pc ≠ none := by
  unfold fetch get_byte_val
  cases hb : readByte m pc with
  | none => simp
  | some b =>
    have hin := (readByte_some hb).1
    have hl := m.len_lt
    unfold Inside at hin
    simp only
    split
    · simp
    · cases hr : get_regs loc m (GET_ICODE b) (pc + 1) with
      | error st => simp
      | ok v =>
        obtain ⟨regA, regB, next_pc⟩ := v
        -- The constant is at most two bytes behind the first.
        have hnext : next_pc.toNat ≤ pc.toNat + 2 := by
          have h1 : (pc + 1).toNat = pc.toNat + 1 := by
            rw [BitVec.toNat_add]
            exact Nat.mod_eq_of_lt (show pc.toNat + 1 < 2 ^ 64 by omega)
          have h2 : (pc + 1 + 1).toNat = pc.toNat + 2 := by
            rw [BitVec.toNat_add, h1]
            exact Nat.mod_eq_of_lt (show pc.toNat + 1 + 1 < 2 ^ 64 by omega)
          unfold get_regs at hr
          split at hr
          · split at hr
            · split at hr
              · simp only [Except.ok.injEq, Prod.mk.injEq] at hr
                rw [← hr.2.2, h2]
              · simp at hr
            · simp at hr
          · simp only [Except.ok.injEq, Prod.mk.injEq] at hr
            rw [← hr.2.2, h1]
            omega
        have hfit : SumFits next_pc := sumFits_of_lt (by omega)
        have himm : get_immediate loc m (GET_ICODE b) next_pc ≠ none := by
          unfold get_immediate
          split
          · by_cases ho : OutOf m next_pc
            · rw [get_long_val_out ho hfit]
              simp
            · rw [get_long_val_in ho]
              simp
          · simp
        simpa using himm

/-! ## A transfer of eight bytes -/

/-- The address that the decoded instruction reads or writes. -/
def transferAddress (sim : State) (d : Decoded) : Option Word :=
  match d.icode with
  | I_RMMOVQ | I_MRMOVQ => some (get_reg_val sim.r d.regB + d.immediate)
  | I_CALL | I_PUSHQ => some (get_reg_val sim.r REG_RSP.toNat - 8)
  | I_RET | I_POPQ => some (get_reg_val sim.r REG_RSP.toNat)
  | _ => none

section Transfer

variable {sim : State} {d : Decoded} {a : Word}

theorem execute_wrap (ha : transferAddress sim d = some a) (hs : ¬ SumFits a) :
    execute sim d = none := by
  obtain ⟨icode, ifun, regA, regB, immediate, next_pc⟩ := d
  cases icode <;> simp only [transferAddress, Option.some.injEq, reduceCtorEq] at ha <;> subst ha
  case I_RMMOVQ | I_CALL | I_PUSHQ =>
    simp only [execute]
    rw [set_long_val_wrap hs, Option.map_none]
  case I_MRMOVQ | I_RET | I_POPQ =>
    simp only [execute]
    rw [get_long_val_wrap hs, Option.map_none]

theorem execute_in (ha : transferAddress sim d = some a) (h : ¬ OutOf sim.m a) :
    ∃ s, execute sim d = some (STAT_AOK, s) := by
  obtain ⟨icode, ifun, regA, regB, immediate, next_pc⟩ := d
  cases icode <;> simp only [transferAddress, Option.some.injEq, reduceCtorEq] at ha <;> subst ha
  case I_RMMOVQ | I_CALL | I_PUSHQ =>
    simp only [execute]
    rw [set_long_val_in h, Option.map_some]
    exact ⟨_, rfl⟩
  case I_MRMOVQ | I_RET | I_POPQ =>
    simp only [execute]
    rw [get_long_val_in h, Option.map_some]
    exact ⟨_, rfl⟩

/-- Five of the six instructions test what the access says. -/
theorem execute_out (ha : transferAddress sim d = some a) (h : OutOf sim.m a) (hs : SumFits a)
    (hp : d.icode ≠ I_POPQ) : ∃ s, execute sim d = some (STAT_ADR, s) := by
  obtain ⟨icode, ifun, regA, regB, immediate, next_pc⟩ := d
  cases icode <;> simp only [transferAddress, Option.some.injEq, reduceCtorEq] at ha <;> subst ha
  case I_RMMOVQ | I_CALL | I_PUSHQ =>
    simp only [execute]
    rw [set_long_val_out h hs, Option.map_some]
    exact ⟨_, rfl⟩
  case I_MRMOVQ | I_RET =>
    simp only [execute]
    rw [get_long_val_out h hs, Option.map_some]
    exact ⟨_, rfl⟩
  case I_POPQ => exact absurd rfl hp

/-- `popq` does not: it goes on with 0. -/
theorem execute_popq_out (ha : transferAddress sim d = some a) (h : OutOf sim.m a)
    (hs : SumFits a) (hp : d.icode = I_POPQ) : ∃ s, execute sim d = some (STAT_AOK, s) := by
  obtain ⟨icode, ifun, regA, regB, immediate, next_pc⟩ := d
  simp only at hp
  subst hp
  cases ha
  simp only [execute]
  rw [get_long_val_out h hs, Option.map_some]
  exact ⟨_, rfl⟩

end Transfer

/-! ## The law of the addresses -/

/-- `nexti` keeps to the memory array, and it answers with an address fault where the eight
bytes are not all inside memory and nowhere else. -/
def AddressChecked (loc : Locals) (sim : State) (a : Word) : Prop :=
  nexti loc sim ≠ none ∧ ((∃ s, nexti loc sim = some (STAT_ADR, s)) ↔ OutOf sim.m a)

/-- A decoded transfer is checked exactly when its address does not wrap in the test and,
for `popq`, is good. -/
theorem the_address_is_checked_iff {loc : Locals} {sim : State} {d : Decoded} {a : Word}
    (hf : fetch loc sim.m sim.pc = some (.ok d)) (ha : transferAddress sim d = some a) :
    AddressChecked loc sim a ↔ SumFits a ∧ (d.icode = I_POPQ → ¬ OutOf sim.m a) := by
  have hn : nexti loc sim = execute sim d := by
    unfold nexti
    rw [hf]
    rfl
  unfold AddressChecked
  rw [hn]
  by_cases hs : SumFits a
  · by_cases ho : OutOf sim.m a
    · by_cases hp : d.icode = I_POPQ
      · obtain ⟨s, he⟩ := execute_popq_out ha ho hs hp
        rw [he]
        simp [hs, ho, hp]
      · obtain ⟨s, he⟩ := execute_out ha ho hs hp
        rw [he]
        simp [hs, ho, hp]
    · obtain ⟨s, he⟩ := execute_in ha ho
      rw [he]
      simp [hs, ho]
  · rw [execute_wrap ha hs]
    simp [hs]

theorem sixteen_lt : 16 < 2 ^ 31 := by norm_num

/-- A machine with one instruction at 0, sixteen bytes of memory and the given stack
pointer. -/
def oneInstruction (byte0 byte1 : Byte) (sp : Word) : State where
  pc := 0
  r := setReg (fun _ => 0) REG_RSP sp
  m := { len := 16, contents := fun x => if x = 0 then byte0 else if x = 1 then byte1 else 0,
         len_lt := sixteen_lt }
  cc := DEFAULT_CC

theorem a_push_below_the_memory_is_checked :
    AddressChecked ⟨0, 0, 0⟩ (oneInstruction 0xA0 0x0F 4) (4 - 8) := by
  have hf : fetch ⟨0, 0, 0⟩ (oneInstruction 0xA0 0x0F 4).m (oneInstruction 0xA0 0x0F 4).pc =
      some (.ok ⟨I_PUSHQ, 0, 0, 15, 0, 2⟩) := rfl
  refine (the_address_is_checked_iff hf rfl).mpr ⟨by decide, ?_⟩
  intro hp
  cases hp

/-- `popq` from an address behind the memory. -/
theorem a_word_is_popped_from_nowhere :
    ¬ ∀ (loc : Locals) (sim : State) (d : Decoded) (a : Word),
      fetch loc sim.m sim.pc = some (.ok d) → transferAddress sim d = some a →
      AddressChecked loc sim a := by
  intro h
  have hc := h ⟨0, 0, 0⟩ (oneInstruction 0xB0 0x0F 16) ⟨I_POPQ, 0, 0, 15, 0, 2⟩ 16 rfl rfl
  obtain ⟨-, hadr⟩ := hc
  have hout : OutOf (oneInstruction 0xB0 0x0F 16).m 16 := Or.inr (by decide)
  obtain ⟨s, hs⟩ := hadr.mpr hout
  have hstat : (nexti ⟨0, 0, 0⟩ (oneInstruction 0xB0 0x0F 16)).map Prod.fst = some STAT_AOK := rfl
  rw [hs] at hstat
  cases hstat

/-! ## The law of the faults -/

/-- The stack pointer that `call` and `pushq` write at. -/
def pushedTo (sim : State) : Word := get_reg_val sim.r REG_RSP.toNat - 8

/-- The instruction is a `call` or a `pushq`, and the memory refuses its write. -/
def StackRefused (loc : Locals) (sim : State) : Prop :=
  ∃ d, fetch loc sim.m sim.pc = some (.ok d) ∧ (d.icode = I_CALL ∨ d.icode = I_PUSHQ) ∧
    Refused sim.m (pushedTo sim) 8

/-- The state with the stack pointer moved down. -/
def withPushed (sim : State) : State :=
  { sim with r := set_reg_val sim.r REG_RSP.toNat (pushedTo sim) }

theorem refused_of_set_long_val {m : Mem} {a v : Word} (h : set_long_val m a v = some none) :
    Refused m a 8 := by
  by_contra hr
  unfold set_long_val writeWord at h
  rw [if_neg hr] at h
  split at h <;> simp at h

/-- The write on the stack comes behind the new stack pointer. -/
theorem push_fault {sim sim' : State} {v : Word} {f : Mem → State} {st : Stat}
    (h : ((set_long_val sim.m (pushedTo sim) v).map fun
      | none => (STAT_ADR, withPushed sim)
      | some m => (STAT_AOK, f m)) = some (st, sim')) (hst : st ≠ STAT_AOK) :
    Refused sim.m (pushedTo sim) 8 ∧ st = STAT_ADR ∧ sim' = withPushed sim := by
  cases hw : set_long_val sim.m (pushedTo sim) v with
  | none =>
    rw [hw] at h
    cases h
  | some o =>
    rw [hw] at h
    cases o with
    | none =>
      cases h
      exact ⟨refused_of_set_long_val hw, rfl, rfl⟩
    | some m =>
      cases h
      exact absurd rfl hst

/-- What a decoded instruction leaves when it does not end well. -/
theorem execute_fault {sim sim' : State} {d : Decoded} {st : Stat}
    (h : execute sim d = some (st, sim')) (hst : st ≠ STAT_AOK) :
    if (d.icode = I_CALL ∨ d.icode = I_PUSHQ) ∧ Refused sim.m (pushedTo sim) 8 then
      st = STAT_ADR ∧ sim' = withPushed sim
    else sim' = sim := by
  obtain ⟨icode, ifun, regA, regB, immediate, next_pc⟩ := d
  cases icode
  case I_CALL | I_PUSHQ =>
    obtain ⟨hr, h1⟩ := push_fault h hst
    rw [if_pos ⟨by simp, hr⟩]
    exact h1
  case I_RMMOVQ =>
    rw [if_neg (by simp)]
    simp only [execute] at h
    cases hw : set_long_val sim.m (get_reg_val sim.r regB + immediate) (get_reg_val sim.r regA) with
    | none =>
      rw [hw] at h
      cases h
    | some o =>
      rw [hw] at h
      cases o <;> cases h
      · rfl
      · exact absurd rfl hst
  case I_MRMOVQ =>
    rw [if_neg (by simp)]
    simp only [execute] at h
    cases hw : get_long_val sim.m (get_reg_val sim.r regB + immediate) with
    | none =>
      rw [hw] at h
      cases h
    | some o =>
      rw [hw] at h
      cases o <;> cases h
      · rfl
      · exact absurd rfl hst
  case I_RET | I_POPQ =>
    rw [if_neg (by simp)]
    simp only [execute] at h
    cases hw : get_long_val sim.m (get_reg_val sim.r REG_RSP.toNat) with
    | none =>
      rw [hw] at h
      cases h
    | some o =>
      rw [hw] at h
      cases o <;> cases h <;> first | rfl | exact absurd rfl hst
  all_goals
    rw [if_neg (by simp)]
    cases h
    first | rfl | exact absurd rfl hst

/-- An instruction that does not end well leaves the state alone, but for the `call` and the
`pushq` whose write is refused: these leave the stack pointer moved down. -/
theorem a_fault_changes_at_most_the_stack_pointer {loc : Locals} {sim sim' : State} {st : Stat}
    (h : nexti loc sim = some (st, sim')) (hst : st ≠ STAT_AOK) :
    (¬ StackRefused loc sim → sim' = sim) ∧
      (StackRefused loc sim → st = STAT_ADR ∧ sim' = withPushed sim) := by
  unfold nexti at h
  cases hf : fetch loc sim.m sim.pc with
  | none =>
    rw [hf] at h
    cases h
  | some r =>
    rw [hf, Option.bind_some] at h
    cases r with
    | error st' =>
      cases h
      refine ⟨fun _ => rfl, ?_⟩
      rintro ⟨d, hd, -⟩
      rw [hf] at hd
      cases hd
    | ok d =>
      have he := execute_fault h hst
      constructor
      · intro hn
        rw [if_neg] at he
        · exact he
        · rintro ⟨hi, hr⟩
          exact hn ⟨d, hf, hi, hr⟩
      · rintro ⟨d', hd', hi, hr⟩
        rw [hf] at hd'
        cases hd'
        rw [if_pos ⟨hi, hr⟩] at he
        exact he

/-- `pushq %rax` at the stack pointer 0: the law has its second case. -/
theorem a_refused_push_moves_only_the_stack_pointer :
    StackRefused ⟨0, 0, 0⟩ (oneInstruction 0xA0 0x0F 0) ∧
      (¬ StackRefused ⟨0, 0, 0⟩ (oneInstruction 0xA0 0x0F 0) →
        withPushed (oneInstruction 0xA0 0x0F 0) = oneInstruction 0xA0 0x0F 0) ∧
      (StackRefused ⟨0, 0, 0⟩ (oneInstruction 0xA0 0x0F 0) → STAT_ADR = STAT_ADR ∧
        withPushed (oneInstruction 0xA0 0x0F 0) = withPushed (oneInstruction 0xA0 0x0F 0)) :=
  ⟨⟨_, rfl, Or.inr rfl, by decide⟩, a_fault_changes_at_most_the_stack_pointer rfl (by decide)⟩

/-- `pushq` at the stack pointer 0. -/
theorem a_refused_push_moves_the_stack_pointer :
    ¬ ∀ (loc : Locals) (sim sim' : State) (st : Stat), nexti loc sim = some (st, sim') →
      st ≠ STAT_AOK → sim' = sim := by
  intro h
  have hrun : nexti ⟨0, 0, 0⟩ (oneInstruction 0xA0 0x0F 0) =
      some (STAT_ADR, withPushed (oneInstruction 0xA0 0x0F 0)) := rfl
  have hsame := congrArg (fun s : State => s.r 4) (h _ _ _ _ hrun (by decide))
  revert hsame
  decide

end ics_labs.y64sim
