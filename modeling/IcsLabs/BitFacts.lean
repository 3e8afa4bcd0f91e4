-- Facts on words of bits: the sign that a shift spreads, the lowest bit that is set, and
-- masks that work lane by lane.
import Mathlib.Data.BitVec
import Mathlib.Tactic

namespace ics_labs.bit_facts

/-! ## The sign -/

variable {w : Nat}

/-- The sign, shifted over the whole word. -/
theorem sshiftRight_sign (x : BitVec (w + 1)) :
    x.sshiftRight w = if x.msb then BitVec.allOnes (w + 1) else 0 := by
  apply BitVec.eq_of_getLsbD_eq
  intro i hi
  rw [BitVec.getLsbD_sshiftRight]
  cases hm : x.msb with
  | true =>
    have : ∀ h : w + i < w + 1, x.getLsbD (w + i) = true := by
      intro h
      obtain rfl : i = 0 := by omega
      rw [BitVec.msb_eq_getLsbD_last] at hm
      simpa using hm
    by_cases h : w + i < w + 1
    · simp [this h, hi]; omega
    · simp [h, hi]; omega
  | false =>
    have : ∀ h : w + i < w + 1, x.getLsbD (w + i) = false := by
      intro h
      obtain rfl : i = 0 := by omega
      rw [BitVec.msb_eq_getLsbD_last] at hm
      simpa using hm
    by_cases h : w + i < w + 1
    · simp [this h]
    · simp [h]

/-- The lowest bit, moved to the sign and back over the whole word. -/
theorem sshiftRight_lowest (x : BitVec (w + 1)) :
    (x <<< w).sshiftRight w = if x.getLsbD 0 then BitVec.allOnes (w + 1) else 0 := by
  rw [sshiftRight_sign]
  have : (x <<< w).msb = x.getLsbD 0 := by
    rw [BitVec.msb_eq_getLsbD_last]
    simp
  rw [this]

/-! ## The lowest bit that is set -/

/-- A word that is not zero has a lowest bit, and `x & -x` is that bit. -/
theorem lowest_bit {x : BitVec w} (h : x ≠ 0) :
    ∃ i < w, x.getLsbD i = true ∧ (∀ j < i, x.getLsbD j = false) ∧ -x &&& x = 1#w <<< i := by
  classical
  have hex : ∃ i, x.getLsbD i = true := by
    by_contra hno
    refine h (BitVec.eq_of_getLsbD_eq fun i _ => ?_)
    simpa using fun hi => hno ⟨i, hi⟩
  obtain ⟨hset, hmin⟩ : x.getLsbD (Nat.find hex) = true ∧
      ∀ j < Nat.find hex, ¬x.getLsbD j = true :=
    ⟨Nat.find_spec hex, fun j => Nat.find_min hex⟩
  generalize Nat.find hex = i at hset hmin
  have hi : i < w := BitVec.lt_of_getLsbD hset
  refine ⟨i, hi, hset, fun j hj => by simpa using hmin j hj, ?_⟩
  apply BitVec.eq_of_getLsbD_eq
  intro k hk
  rw [BitVec.getLsbD_and, BitVec.getLsbD_neg, BitVec.getLsbD_shiftLeft, BitVec.getLsbD_one]
  rcases Nat.lt_trichotomy k i with hlt | rfl | hgt
  · -- Below the lowest bit there is none.
    have hfalse : x.getLsbD k = false := by simpa using hmin k hlt
    simp [hfalse, hlt]
  · -- At the lowest bit the complement and the carry meet.
    have hno : ¬∃ j < k, x.getLsbD j = true := fun ⟨j, hj, hx⟩ => hmin j hj hx
    rw [hset, decide_eq_true hk, decide_eq_false hno]
    simpa using Nat.zero_lt_of_lt hk
  · -- Above it the carry is used up.
    have hyes : ∃ j < k, x.getLsbD j = true := ⟨i, hgt, hset⟩
    cases hx : x.getLsbD k with
    | true => simp [hyes, hk]; omega
    | false => simp; omega

/-! ## Lanes -/

/-- A mask works lane by lane. -/
theorem and_lane {n c : Nat} (d y : Nat) (hc : c < 2 ^ n) :
    y &&& (c + 2 ^ n * d) = (y % 2 ^ n &&& c) + 2 ^ n * (y / 2 ^ n &&& d) := by
  have hmod : (c + 2 ^ n * d) % 2 ^ n = c := by
    rw [Nat.add_mul_mod_self_left, Nat.mod_eq_of_lt hc]
  have hdiv : (c + 2 ^ n * d) / 2 ^ n = d := by
    rw [Nat.add_mul_div_left _ _ (Nat.two_pow_pos n), Nat.div_eq_of_lt hc, Nat.zero_add]
  calc y &&& (c + 2 ^ n * d)
      = (y &&& (c + 2 ^ n * d)) % 2 ^ n + 2 ^ n * ((y &&& (c + 2 ^ n * d)) / 2 ^ n) :=
        (Nat.mod_add_div _ _).symm
    _ = (y % 2 ^ n &&& c) + 2 ^ n * (y / 2 ^ n &&& d) := by
        rw [Nat.and_mod_two_pow, Nat.and_div_two_pow, hmod, hdiv]

/-- The bit at a place, as a number. -/
def bit (x : BitVec w) (i : Nat) : Nat := (x.getLsbD i).toNat

theorem bit_le (x : BitVec w) (i : Nat) : bit x i ≤ 1 := Bool.toNat_le _

theorem div_mod_bit (x : BitVec w) (i : Nat) : x.toNat / 2 ^ i % 2 = bit x i := by
  rw [bit, ← BitVec.testBit_toNat, Nat.toNat_testBit]

end ics_labs.bit_facts
