-- The instruction that stands at the program counter, field by field, and the fact
-- that `step_state` fetches it when all of its bytes are inside memory.
import IcsLabs.Isa

open ics_labs.byte_words ics_labs.memory
open ics_labs.isa.IType ics_labs.isa.Stat

namespace ics_labs.isa

/-! ## The fields -/

/-- The byte at `pc + i`. -/
def codeByte (s : State) (i : Nat) : Byte := s.m.contents (s.pc.toNat + i)

def icodeAt (s : State) : IType := IType.of (hi4 (codeByte s 0))

def ifunAt (s : State) : Nibble := lo4 (codeByte s 0)

/-- Where the constant stands, as an offset from `pc`. -/
def constOffset (s : State) : Nat := if need_regids (icodeAt s) then 2 else 1

/-- How many bytes the instruction has. -/
def lengthAt (s : State) : Nat := constOffset s + if need_imm (icodeAt s) then 8 else 0

def constAt (s : State) : Word := wordAt s.m (s.pc + BitVec.ofNat 64 (constOffset s))

/-- The register byte; without one, both fields say "no register". -/
def regByte (s : State) : Byte :=
  if need_regids (icodeAt s) then codeByte s 1 else hpack REG_NONE REG_NONE

/-- The locals of `step_state` when all bytes of the instruction are inside memory. -/
def fetchedAt (s : State) : Fetched where
  hi0 := icodeAt s
  lo0 := ifunAt s
  hi1 := hi4 (regByte s)
  lo1 := lo4 (regByte s)
  ok1 := true
  okc := true
  cval := if need_imm (icodeAt s) then constAt s else 0
  ftpc := s.pc + BitVec.ofNat 64 (lengthAt s)

/-! ## The reads -/

theorem pc_plus {s : State} {n i : Nat} (h : Inside s.m s.pc n) (hi : i < n) :
    (s.pc + BitVec.ofNat 64 i).toNat = s.pc.toNat + i := by
  have hl := s.m.len_lt
  unfold Inside at h
  rw [BitVec.toNat_add, BitVec.toNat_ofNat, Nat.mod_eq_of_lt (show i < 2 ^ 64 by omega),
    Nat.mod_eq_of_lt (by omega)]

theorem codeByte_read {s : State} {n i : Nat} (h : Inside s.m s.pc n) (hi : i < n) :
    readByte s.m (s.pc + BitVec.ofNat 64 i) = some (codeByte s i) := by
  have hpc := pc_plus h hi
  unfold Inside at h
  rw [readByte_inside (by unfold Inside; omega), hpc]
  rfl

theorem lengthAt_pos (s : State) : 0 < lengthAt s := by
  unfold lengthAt constOffset
  split <;> omega

theorem first_byte {s : State} (h : Inside s.m s.pc (lengthAt s)) :
    readByte s.m s.pc = some (codeByte s 0) := by
  simpa using codeByte_read h (lengthAt_pos s)

theorem second_byte {s : State} (h : Inside s.m s.pc (lengthAt s))
    (hn : need_regids (icodeAt s) = true) : readByte s.m (s.pc + 1) = some (codeByte s 1) := by
  apply codeByte_read h (i := 1)
  rw [lengthAt, constOffset, if_pos hn]
  omega

theorem const_word {s : State} (h : Inside s.m s.pc (lengthAt s))
    (hn : need_imm (icodeAt s) = true) :
    readWord s.m (s.pc + BitVec.ofNat 64 (constOffset s)) = some (some (constAt s)) := by
  rw [lengthAt, if_pos hn] at h
  have hpc := pc_plus h (i := constOffset s) (by omega)
  unfold Inside at h
  rw [readWord_inside (by unfold Inside; omega)]
  rfl

/-- Where the constant stands, by the steps of the program counter. -/
theorem constOffset_pc (s : State) :
    s.pc + BitVec.ofNat 64 (constOffset s) =
      if need_regids (icodeAt s) then s.pc + 1 + 1 else s.pc + 1 := by
  unfold constOffset
  split
  · rw [BitVec.add_assoc]
    rfl
  · rfl

theorem lengthAt_pc (s : State) :
    s.pc + BitVec.ofNat 64 (lengthAt s) =
      if need_imm (icodeAt s) then s.pc + BitVec.ofNat 64 (constOffset s) + 8
      else s.pc + BitVec.ofNat 64 (constOffset s) := by
  unfold lengthAt
  split
  · rw [BitVec.ofNat_add, ← BitVec.add_assoc]
    rfl
  · rfl

/-- `step_state` fetches the instruction that stands at the program counter. -/
theorem fetch_at {s : State} (h : Inside s.m s.pc (lengthAt s)) :
    fetch s.m s.pc (codeByte s 0) = some (fetchedAt s) := by
  have hic : IType.of (hi4 (codeByte s 0)) = icodeAt s := rfl
  have hif : lo4 (codeByte s 0) = ifunAt s := rfl
  have hreg : (if need_regids (icodeAt s) then get_byte_val s.m (s.pc + 1)
      else some (hpack REG_NONE REG_NONE)) = some (regByte s) := by
    unfold regByte
    split
    · rename_i hn
      exact second_byte h hn
    · rfl
  unfold fetch
  simp only [hic, hif, hreg, ← constOffset_pc, ← lengthAt_pc]
  split
  · rename_i hn
    unfold get_word_val
    rw [const_word h hn]
    simp [fetchedAt, hn]
  · rename_i hn
    simp [fetchedAt, hn]

/-- A step on an instruction whose bytes are all inside memory. -/
theorem step_state_at {s : State} (h : Inside s.m s.pc (lengthAt s)) :
    step_state s = execute s (fetchedAt s) := by
  unfold step_state get_byte_val
  rw [first_byte h]
  simp only [fetch_at h, Option.bind_some]

end ics_labs.isa
