-- The condition codes of lab4 against exact arithmetic. The three flags are compared
-- with the result over the integers, before it is cut down to 64 bits.
import IcsLabs.Y64Sim

open ics_labs.byte_words ics_labs.memory
open ics_labs.isa (Cc A_ADD A_SUB A_AND A_XOR C_YES C_LE C_L C_E C_NE C_GE C_G)

namespace ics_labs.y64sim

/-- The result of an operation over the integers. -/
def exactResult (op : Nibble) (argA argB : Word) : Int :=
  if op = A_ADD then argB.toInt + argA.toInt
  else if op = A_SUB then argB.toInt - argA.toInt
  else if op = A_AND then (argB &&& argA).toInt
  else if op = A_XOR then (argB ^^^ argA).toInt
  else 0

/-- The number fits in 64 bits, signed. -/
def Fits64 (v : Int) : Prop := -2 ^ 63 ≤ v ∧ v < 2 ^ 63

/-- The bit `i` of a number in two's complement. -/
def bitOf (v : Int) (i : Nat) : Int := v / 2 ^ i % 2

/-- The flags of an operation say what they stand for, and behind a subtraction the six
conditions compare the two arguments. -/
structure FlagsRight (op : Nibble) (argA argB : Word) (cc : Cc) : Prop where
  zf : cc.zf = true ↔ compute_alu op argA argB = 0
  sf : cc.sf = true ↔ (compute_alu op argA argB).toInt < 0
  of : cc.of = true ↔ (op = A_ADD ∨ op = A_SUB) ∧ ¬ Fits64 (exactResult op argA argB)
  l : op = A_SUB → (cond_doit cc C_L = true ↔ argB.toInt < argA.toInt)
  le : op = A_SUB → (cond_doit cc C_LE = true ↔ argB.toInt ≤ argA.toInt)
  e : op = A_SUB → (cond_doit cc C_E = true ↔ argB.toInt = argA.toInt)
  ne : op = A_SUB → (cond_doit cc C_NE = true ↔ argB.toInt ≠ argA.toInt)
  ge : op = A_SUB → (cond_doit cc C_GE = true ↔ argA.toInt ≤ argB.toInt)
  g : op = A_SUB → (cond_doit cc C_G = true ↔ argA.toInt < argB.toInt)

/-! ## Words as integers -/

theorem toInt_bounds (v : Word) : -2 ^ 63 ≤ v.toInt ∧ v.toInt < 2 ^ 63 := by
  have h1 := @BitVec.le_two_mul_toInt 64 v
  have h2 := @BitVec.two_mul_toInt_lt 64 v
  omega

theorem slt_zero_iff (v : Word) : v.slt 0 = true ↔ v.toInt < 0 := by
  rw [BitVec.slt_iff_toInt_lt]
  rfl

theorem word_zero_iff (v : Word) : v = 0 ↔ v.toInt = 0 := by
  rw [← BitVec.toInt_inj]
  rfl

/-- The wrapped result is the exact one up to a multiple of 2^64. -/
theorem compute_alu_toInt (op : Nibble) (argA argB : Word) :
    (compute_alu op argA argB).toInt = (exactResult op argA argB).bmod (2 ^ 64) := by
  have h0 : ∀ v : Word, v.toInt = v.toInt.bmod (2 ^ 64) := by
    intro v
    have := toInt_bounds v
    rw [Int.bmod_eq_of_le] <;> omega
  unfold compute_alu exactResult
  split
  · rw [BitVec.toInt_add]
  · split
    · rw [BitVec.toInt_sub]
    · split
      · exact h0 _
      · split
        · exact h0 _
        · rfl

/-- `(int)val < 0` looks at bit 31. -/
theorem low_sign_iff (v : Word) : (v.setWidth 32).slt 0 = true ↔ bitOf v.toInt 31 = 1 := by
  have hv := v.isLt
  have h0 : (0 : BitVec 32).toInt = 0 := rfl
  rw [BitVec.slt_iff_toInt_lt, h0, BitVec.toInt_eq_toNat_cond, BitVec.toNat_setWidth,
    BitVec.toInt_eq_toNat_cond]
  unfold bitOf
  split <;> split <;> omega

/-- A negative word has bit 63. -/
theorem high_sign_iff (v : Word) : v.toInt < 0 ↔ bitOf v.toInt 63 = 1 := by
  have := toInt_bounds v
  unfold bitOf
  omega

/-- Wrapping leaves the low bits alone. -/
theorem bitOf_wrapped (op : Nibble) (argA argB : Word) :
    bitOf (compute_alu op argA argB).toInt 31 = bitOf (exactResult op argA argB) 31 ∧
      bitOf (compute_alu op argA argB).toInt 63 = bitOf (exactResult op argA argB) 63 := by
  rw [compute_alu_toInt]
  unfold bitOf Int.bmod
  constructor <;> dsimp only <;> split <;> omega

/-! ## The flags -/

section Flags

variable (op : Nibble) (argA argB : Word)

theorem zf_iff : (compute_cc op argA argB (compute_alu op argA argB)).zf = true ↔
    compute_alu op argA argB = 0 := by
  simp [compute_cc]

theorem sf_iff : (compute_cc op argA argB (compute_alu op argA argB)).sf = true ↔
    bitOf (exactResult op argA argB) 31 = 1 := by
  rw [← (bitOf_wrapped op argA argB).1, ← low_sign_iff]
  rfl

/-- A sum or a difference overflows when the sign of the wrapped result is not the one that
the signs of the arguments ask for. -/
theorem of_iff : (compute_cc op argA argB (compute_alu op argA argB)).of = true ↔
    (op = A_ADD ∨ op = A_SUB) ∧ ¬ Fits64 (exactResult op argA argB) := by
  have hA := toInt_bounds argA
  have hB := toInt_bounds argB
  have hneg : ∀ v : Word, v.slt 0 = decide (v.toInt < 0) := by
    intro v
    rw [Bool.eq_iff_iff, slt_zero_iff]
    simp
  have hval := compute_alu_toInt op argA argB
  by_cases h1 : op = A_ADD
  · have hex : exactResult op argA argB = argB.toInt + argA.toInt := if_pos h1
    have hof : (compute_cc op argA argB (compute_alu op argA argB)).of =
        (argA.slt 0 == argB.slt 0 && (compute_alu op argA argB).slt 0 != argA.slt 0) := if_pos h1
    rw [hex] at hval ⊢
    rw [hof, hneg, hneg, hneg, hval]
    unfold Fits64 Int.bmod
    simp only [h1, true_or, true_and, Bool.and_eq_true, beq_iff_eq, bne_iff_ne, ne_eq, decide_eq_decide]
    split <;> omega
  · by_cases h2 : op = A_SUB
    · have hex : exactResult op argA argB = argB.toInt - argA.toInt := (if_neg h1).trans (if_pos h2)
      have hof : (compute_cc op argA argB (compute_alu op argA argB)).of =
          (argA.slt 0 != argB.slt 0 && (compute_alu op argA argB).slt 0 == argA.slt 0) :=
        (if_neg h1).trans (if_pos h2)
      rw [hex] at hval ⊢
      rw [hof, hneg, hneg, hneg, hval]
      unfold Fits64 Int.bmod
      simp only [h2, or_true, true_and, Bool.and_eq_true, beq_iff_eq, bne_iff_ne, ne_eq,
        decide_eq_decide]
      split <;> omega
    · have hof : (compute_cc op argA argB (compute_alu op argA argB)).of = false :=
        (if_neg h1).trans (if_neg h2)
      rw [hof]
      simp [h1, h2]

/-! ## The conditions -/

theorem cond_doit_l (cc : Cc) : cond_doit cc C_L = (cc.sf ^^ cc.of) := by
  rcases cc with ⟨_ | _, _ | _, _ | _⟩ <;> rfl

theorem cond_doit_le (cc : Cc) : cond_doit cc C_LE = (cc.zf || (cc.sf ^^ cc.of)) := by
  rcases cc with ⟨_ | _, _ | _, _ | _⟩ <;> rfl

theorem cond_doit_e (cc : Cc) : cond_doit cc C_E = cc.zf := by
  rcases cc with ⟨_ | _, _ | _, _ | _⟩ <;> rfl

theorem cond_doit_ne (cc : Cc) : cond_doit cc C_NE = !cc.zf := by
  rcases cc with ⟨_ | _, _ | _, _ | _⟩ <;> rfl

theorem cond_doit_ge (cc : Cc) : cond_doit cc C_GE = !(cc.sf ^^ cc.of) := by
  rcases cc with ⟨_ | _, _ | _, _ | _⟩ <;> rfl

theorem cond_doit_g (cc : Cc) : cond_doit cc C_G = !(cc.zf || (cc.sf ^^ cc.of)) := by
  rcases cc with ⟨_ | _, _ | _, _ | _⟩ <;> rfl

/-- With the sign right, sign and overflow together say which argument is smaller. -/
theorem less_iff {cc : Cc} (hsf : cc.sf = true ↔ (compute_alu A_SUB argA argB).toInt < 0)
    (hof : cc.of = true ↔ ¬ Fits64 (argB.toInt - argA.toInt)) :
    (cc.sf ^^ cc.of) = true ↔ argB.toInt < argA.toInt := by
  have hA := toInt_bounds argA
  have hB := toInt_bounds argB
  have hval : (compute_alu A_SUB argA argB).toInt = (argB.toInt - argA.toInt).bmod (2 ^ 64) :=
    compute_alu_toInt A_SUB argA argB
  rw [hval] at hsf
  unfold Fits64 at hof
  unfold Int.bmod at hsf
  dsimp only at hsf
  have hxor : (cc.sf ^^ cc.of) = true ↔ ¬ (cc.sf = true ↔ cc.of = true) := by
    cases cc.sf <;> cases cc.of <;> simp
  rw [hxor, hsf, hof]
  split <;> omega

theorem equal_iff : compute_alu A_SUB argA argB = 0 ↔ argB.toInt = argA.toInt := by
  have hA := toInt_bounds argA
  have hB := toInt_bounds argB
  have hval : (compute_alu A_SUB argA argB).toInt = (argB.toInt - argA.toInt).bmod (2 ^ 64) :=
    compute_alu_toInt A_SUB argA argB
  rw [word_zero_iff, hval]
  unfold Int.bmod
  dsimp only
  split <;> omega

end Flags

/-! ## The law -/

/-- The flags of an operation are right, and the conditions behind a subtraction compare the
arguments, exactly when the exact result has the same bit 31 as bit 63. -/
theorem the_flags_are_right_iff (op : Nibble) (argA argB : Word) :
    FlagsRight op argA argB (compute_cc op argA argB (compute_alu op argA argB)) ↔
      bitOf (exactResult op argA argB) 31 = bitOf (exactResult op argA argB) 63 := by
  have hz := zf_iff op argA argB
  have hs := sf_iff op argA argB
  have ho := of_iff op argA argB
  have hneg := high_sign_iff (compute_alu op argA argB)
  rw [(bitOf_wrapped op argA argB).2] at hneg
  generalize hcc : compute_cc op argA argB (compute_alu op argA argB) = cc at *
  constructor
  · intro h
    have h1 := h.sf
    rw [hs, hneg] at h1
    unfold bitOf at h1 ⊢
    omega
  · intro hbits
    have hsf : cc.sf = true ↔ (compute_alu op argA argB).toInt < 0 := by rw [hs, hneg, hbits]
    -- What a subtraction needs.
    have hless : op = A_SUB → ((cc.sf ^^ cc.of) = true ↔ argB.toInt < argA.toInt) := by
      rintro rfl
      apply less_iff argA argB hsf
      rw [ho]
      simp [exactResult, A_ADD, A_SUB]
    have heq : op = A_SUB → (cc.zf = true ↔ argB.toInt = argA.toInt) := by
      rintro rfl
      rw [hz]
      exact equal_iff argA argB
    refine ⟨hz, hsf, ho, ?_, ?_, ?_, ?_, ?_, ?_⟩
    · intro h
      rw [cond_doit_l]
      exact hless h
    · intro h
      rw [cond_doit_le, Bool.or_eq_true, heq h, hless h]
      omega
    · intro h
      rw [cond_doit_e]
      exact heq h
    · intro h
      rw [cond_doit_ne, Bool.not_eq_true', ← Bool.not_eq_true, heq h]
    · intro h
      rw [cond_doit_ge, Bool.not_eq_true', ← Bool.not_eq_true, hless h]
      omega
    · intro h
      rw [cond_doit_g, Bool.not_eq_true', ← Bool.not_eq_true, Bool.or_eq_true, heq h, hless h]
      omega

/-- `addq` makes 2^31 of 2^31 and 0, and the sign flag says that it is negative. -/
theorem a_positive_sum_counts_as_negative :
    ¬ ∀ (op : Nibble) (argA argB : Word), op.toNat < 4 →
      FlagsRight op argA argB (compute_cc op argA argB (compute_alu op argA argB)) := by
  intro h
  have hf := (h A_ADD 0 0x80000000 (by decide)).sf
  revert hf
  decide

end ics_labs.y64sim
