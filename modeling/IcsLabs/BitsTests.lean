-- The puzzles against their references: on every argument of the ranges in the table, each
-- function of bits.c returns what its function of tests.c does.
import IcsLabs.BitFacts
import IcsLabs.Bits

open ics_labs.bit_facts

namespace ics_labs.bits

/-! ## Signs and conditions -/

@[simp] theorem truth_true : truth true = 1 := rfl

@[simp] theorem truth_false : truth false = 0 := rfl

@[simp] theorem lnot_truth (b : Bool) : lnot (truth b) = truth (!b) := by
  cases b <;> rfl

theorem truth_and (a b : Bool) : truth a &&& truth b = truth (a && b) := by
  cases a <;> cases b <;> rfl

theorem truth_or (a b : Bool) : truth a ||| truth b = truth (a || b) := by
  cases a <;> cases b <;> rfl

theorem truth_xor (a b : Bool) : truth a ^^^ truth b = truth (a ^^ b) := by
  cases a <;> cases b <;> rfl

theorem lnot_eq (x : CInt) : lnot x = truth (x == 0) := rfl

/-- `x >> 31` -/
theorem spread (x : CInt) : x.sshiftRight 31 = if x.msb then BitVec.allOnes 32 else 0 :=
  sshiftRight_sign x

/-- `(x >> 31) & 1` -/
theorem sign_bit (x : CInt) : x.sshiftRight 31 &&& 0x01 = truth x.msb := by
  rw [spread]
  cases x.msb <;> rfl

/-- `(b << 31) >> 31` of a condition -/
theorem spread_truth (b : Bool) :
    (truth b <<< 31).sshiftRight 31 = if b then BitVec.allOnes 32 else 0 := by
  cases b <;> rfl

/-- `~x + 1` -/
theorem oppo_eq (x : CInt) : ~~~x + 1 = -x := (BitVec.neg_eq_not_add x).symm

/-- The number that a word stands for, by its sign. -/
theorem sign_cases (x : CInt) :
    (x.msb = false ∧ x.toNat < 2 ^ 31 ∧ x.toInt = x.toNat) ∨
      (x.msb = true ∧ 2 ^ 31 ≤ x.toNat ∧ x.toNat < 2 ^ 32 ∧ x.toInt = x.toNat - 2 ^ 32) := by
  rw [BitVec.toInt_eq_msb_cond, BitVec.msb_eq_decide]
  have := x.isLt
  by_cases h : 2 ^ 31 ≤ x.toNat
  · exact .inr ⟨decide_eq_true h, h, this, by rw [if_pos (decide_eq_true h)]; rfl⟩
  · exact .inl ⟨decide_eq_false h, by omega, by rw [if_neg (by simpa using h)]⟩

/-! ## The small ones -/

theorem bang_eq (x : CInt) : bang x = test_bang x := by
  unfold bang test_bang
  simp only
  rw [oppo_eq, sign_bit, sign_bit, truth_or, lnot_eq]
  have hone : (1 : CInt) = truth true := rfl
  rw [hone, truth_xor, BitVec.msb_xor]
  congr 1
  by_cases h : x = 0
  · subst h
    rfl
  · have hne : x.toNat ≠ 0 := fun hx => h (BitVec.eq_of_toNat_eq hx)
    have hneg : (-x).toNat = 2 ^ 32 - x.toNat := by
      rw [BitVec.toNat_neg]
      omega
    have hfalse : (x == 0) = false := by simpa using h
    rw [hfalse]
    rcases sign_cases x with ⟨hx, hlt, -⟩ | ⟨hx, -⟩
    · rcases sign_cases (-x) with ⟨-, hn, -⟩ | ⟨hn, -⟩
      · omega
      · rw [hx, hn]
        rfl
    · simp [hx]

theorem copyLSB_eq (x : CInt) : copyLSB x = test_copyLSB x := by
  have hbit : (x &&& 1 ≠ 0) ↔ x.getLsbD 0 = true := by
    rw [Ne, ← BitVec.toNat_inj, BitVec.toNat_and]
    have hone : (1 : CInt).toNat = 1 := rfl
    have hb := div_mod_bit x 0
    rw [hone, Nat.and_one_is_mod]
    unfold bit at hb
    cases h : x.getLsbD 0 <;> simp_all
  unfold copyLSB test_copyLSB
  simp only
  rw [sshiftRight_lowest (w := 31), if_congr hbit rfl rfl]
  rfl

theorem evenBits_eq : evenBits = test_evenBits := by decide

theorem isNonNegative_eq (x : CInt) : isNonNegative x = test_isNonNegative x := by
  unfold isNonNegative test_isNonNegative
  simp only
  rw [sign_bit, lnot_truth, BitVec.sle_eq_decide, BitVec.msb_eq_toInt]
  congr 1
  rw [← decide_not]
  simp

theorem isNotEqual_eq (x y : CInt) : isNotEqual x y = test_isNotEqual x y := by
  unfold isNotEqual test_isNotEqual
  simp only
  rw [lnot_eq (x ^^^ y), lnot_truth]
  congr 1
  simp [bne]

theorem isGreater_eq (x y : CInt) : isGreater x y = test_isGreater x y := by
  unfold isGreater test_isGreater
  simp only
  rw [oppo_eq, ← BitVec.sub_eq_add_neg, sign_bit, sign_bit, sign_bit, lnot_eq (x - y)]
  simp only [lnot_truth, truth_and, truth_or, truth_xor]
  congr 1
  have hsub := BitVec.toNat_sub x y
  have hzero : (x - y == 0) = true ↔ (x - y).toNat = 0 := by
    rw [beq_iff_eq, ← BitVec.toNat_inj]
    rfl
  rw [Bool.eq_iff_iff, BitVec.slt_eq_decide, decide_eq_true_eq]
  simp only [Bool.or_eq_true, Bool.and_eq_true, Bool.not_eq_true',
    ← Bool.not_eq_true, hzero]
  rcases sign_cases x with ⟨hx, h1, h2⟩ | ⟨hx, h1, h1', h2⟩ <;>
    rcases sign_cases y with ⟨hy, h3, h4⟩ | ⟨hy, h3, h3', h4⟩ <;>
    rcases sign_cases (x - y) with ⟨hz, h5, h6⟩ | ⟨hz, h5, h5', h6⟩ <;>
    simp only [hx, hy, hz, h2, h4] <;> simp <;> omega

/-- The sum saturates when the signs of the arguments agree and the sign of the sum does not. -/
theorem satAdd_cases (x y : CInt) : satAdd x y =
    if x.msb = y.msb ∧ x.msb ≠ (x + y).msb then (if x.msb then LONG_MIN else LONG_MAX)
    else x + y := by
  unfold satAdd
  simp only [sign_bit, truth_xor, lnot_truth, truth_and, spread_truth]
  generalize x + y = z
  have hover : (!(x.msb ^^ y.msb) && (x.msb ^^ z.msb)) = true ↔
      x.msb = y.msb ∧ x.msb ≠ z.msb := by
    cases x.msb <;> cases y.msb <;> cases z.msb <;> decide
  rw [if_congr hover rfl rfl]
  by_cases h : x.msb = y.msb ∧ x.msb ≠ z.msb
  · rw [if_pos h, if_pos h, BitVec.not_allOnes, BitVec.and_zero, BitVec.or_zero,
      BitVec.and_allOnes]
    cases x.msb <;> rfl
  · have hall : ~~~(0 : CInt) = BitVec.allOnes 32 := rfl
    rw [if_neg h, if_neg h, hall, BitVec.and_allOnes]
    exact (congrArg (· ||| z) BitVec.and_zero).trans BitVec.zero_or

theorem satAdd_eq (x y : CInt) : satAdd x y = test_satAdd x y := by
  have hadd := BitVec.toNat_add x y
  have hpos : (0 < x.toInt ∧ 0 < y.toInt) ∧ (x + y).toInt < 0 ↔
      (x.msb = y.msb ∧ x.msb ≠ (x + y).msb) ∧ x.msb = false := by
    rcases sign_cases x with ⟨hx, h1, h2⟩ | ⟨hx, h1, h1', h2⟩ <;>
      rcases sign_cases y with ⟨hy, h3, h4⟩ | ⟨hy, h3, h3', h4⟩ <;>
      rcases sign_cases (x + y) with ⟨hz, h5, h6⟩ | ⟨hz, h5, h5', h6⟩ <;>
      rw [hx, hy, hz, h2, h4, h6] <;> simp <;> omega
  have hneg : (x.toInt < 0 ∧ y.toInt < 0) ∧ 0 ≤ (x + y).toInt ↔
      (x.msb = y.msb ∧ x.msb ≠ (x + y).msb) ∧ x.msb = true := by
    rcases sign_cases x with ⟨hx, h1, h2⟩ | ⟨hx, h1, h1', h2⟩ <;>
      rcases sign_cases y with ⟨hy, h3, h4⟩ | ⟨hy, h3, h3', h4⟩ <;>
      rcases sign_cases (x + y) with ⟨hz, h5, h6⟩ | ⟨hz, h5, h5', h6⟩ <;>
      rw [hx, hy, hz, h2, h4, h6] <;> simp <;> omega
  have hzero : (0#32).toInt = 0 := rfl
  rw [satAdd_cases]
  unfold test_satAdd
  simp only [BitVec.slt_eq_decide, BitVec.sle_eq_decide, Bool.and_eq_true, decide_eq_true_eq,
    hzero]
  rw [if_congr hpos rfl rfl, if_congr hneg rfl rfl]
  by_cases hover : x.msb = y.msb ∧ x.msb ≠ (x + y).msb
  · simp only [eq_true hover, true_and, if_true]
    cases x.msb <;> rfl
  · simp only [eq_false hover, false_and, if_false]

/-- The bits of `1 << k`. -/
theorem getLsbD_one_shift {i : Nat} (k : Nat) (hi : i < 32) :
    (1#32 <<< k).getLsbD i = decide (i = k) := by
  rw [BitVec.getLsbD_shiftLeft, BitVec.getLsbD_one, Bool.eq_iff_iff]
  simp [hi]
  omega

/-- A word without a sign takes the sign bit by a sum as by an or. -/
theorem add_sign {y : CInt} (h : y.msb = false) : y + 1#32 <<< 31 = 1#32 <<< 31 ||| y := by
  have hdisj : y &&& 1#32 <<< 31 = 0#32 := by
    apply BitVec.eq_of_getLsbD_eq
    intro i hi
    rw [BitVec.getLsbD_and, getLsbD_one_shift 31 hi]
    by_cases h31 : i = 31
    · subst h31
      rw [← BitVec.msb_eq_getLsbD_last, h]
      rfl
    · simp [h31]
  rw [BitVec.add_eq_or_of_and_eq_zero _ _ hdisj, BitVec.or_comm]

theorem tc2sm_eq {x : CInt} (h : (TMin + 1).sle x) : tc2sm x = test_tc2sm x := by
  have hmin : (TMin + 1).toInt = -2 ^ 31 + 1 := by decide
  rw [BitVec.sle_eq_decide, decide_eq_true_eq, hmin] at h
  have hslt : x.slt 0#32 = x.msb := by
    rw [BitVec.slt_eq_decide, BitVec.msb_eq_toInt]
    rfl
  unfold tc2sm test_tc2sm
  simp only [sign_bit, hslt]
  rw [spread]
  rcases sign_cases x with ⟨hx, -⟩ | ⟨hx, h1, h2, h3⟩
  · rw [hx]
    simp
  · have hneg : (-x).msb = false := by
      rcases sign_cases (-x) with ⟨hn, -⟩ | ⟨-, hn, -⟩
      · exact hn
      · rw [BitVec.toNat_neg] at hn
        omega
    rw [hx, if_pos rfl, if_pos rfl, BitVec.allOnes_xor]
    exact (congrArg (· + 1#32 <<< 31) (oppo_eq x)).trans (add_sign hneg)

/-! ## Shifts by an argument -/

theorem toNat_of_range {k l : Nat} {n : CInt} (hl : l < 2 ^ 31) (hk : k < 2 ^ 31)
    (h : InRange (BitVec.ofNat 32 l, BitVec.ofNat 32 k) n) : l ≤ n.toNat ∧ n.toNat ≤ k := by
  have hint : ∀ m < 2 ^ 31, (BitVec.ofNat 32 m).toInt = m := by
    intro m hm
    rcases sign_cases (BitVec.ofNat 32 m) with ⟨-, -, h2⟩ | ⟨-, h1, -⟩
    · rw [h2, BitVec.toNat_ofNat]
      omega
    · rw [BitVec.toNat_ofNat] at h1
      omega
  obtain ⟨h₀, h₁⟩ := h
  simp only [BitVec.sle_eq_decide, decide_eq_true_eq] at h₀ h₁
  rw [hint l hl] at h₀
  rw [hint k hk] at h₁
  rcases sign_cases n with ⟨-, -, h2⟩ | ⟨-, h1, h1', h2⟩ <;> omega

/-- `1 << k`, as a number. -/
theorem toNat_one_shift {k : Nat} (h : k < 32) : (1#32 <<< k).toNat = 2 ^ k := by
  rw [BitVec.toNat_shiftLeft, BitVec.toNat_one (by decide), Nat.one_shiftLeft, Nat.mod_eq_of_lt]
  exact Nat.pow_lt_pow_right (by decide) h

/-- What is left of a word under the mask `(1 << k) - 1`. -/
theorem toNat_low (x : CInt) {n : CInt} (h : n.toNat ≤ 30) :
    (x &&& ((0x01#32 <<< n) + (~~~1 + 1))).toNat = x.toNat % 2 ^ n.toNat := by
  have hone : (~~~1 + 1 : CInt).toNat = 2 ^ 32 - 1 := by decide
  have hpos := Nat.two_pow_pos n.toNat
  have hle : 2 ^ n.toNat ≤ 2 ^ 30 := Nat.pow_le_pow_right (by decide) h
  have hmask : (0x01#32 <<< n + (~~~1 + 1)).toNat = 2 ^ n.toNat - 1 := by
    rw [BitVec.toNat_add, BitVec.shiftLeft_eq', toNat_one_shift (by omega), hone]
    omega
  rw [BitVec.toNat_and, hmask, Nat.and_two_pow_sub_one_eq_mod]

/-- The remainder of a word and of the number that it stands for. -/
theorem dvd_toInt (x : CInt) {k : Nat} (h : k ≤ 30) :
    (2 ^ k : Int) ∣ x.toInt ↔ x.toNat % 2 ^ k = 0 := by
  have hbig : (2 ^ k : Int) ∣ 2 ^ 32 := pow_dvd_pow 2 (by omega)
  have hnat : (2 ^ k : Int) ∣ (x.toNat : Int) ↔ x.toNat % 2 ^ k = 0 := by
    rw [← Nat.dvd_iff_mod_eq_zero, ← Int.natCast_dvd_natCast]
    push_cast
    rfl
  rcases sign_cases x with ⟨-, -, h2⟩ | ⟨-, -, -, h2⟩
  · rw [h2, hnat]
  · rw [h2, dvd_sub_left hbig, hnat]

theorem divpwr2_eq {n : CInt} (x : CInt) (h : n.toNat ≤ 30) :
    divpwr2 x n = test_divpwr2 x n := by
  have hpow : (1#32 <<< n).toInt = 2 ^ n.toNat := by
    rw [BitVec.shiftLeft_eq']
    have hle : 2 ^ n.toNat ≤ 2 ^ 30 := Nat.pow_le_pow_right (by decide) h
    have hnat := toNat_one_shift (k := n.toNat) (by omega)
    rcases sign_cases (1#32 <<< n.toNat) with ⟨-, -, h2⟩ | ⟨-, h1, -⟩
    · rw [h2, hnat]
      push_cast
      rfl
    · omega
  have hpos : (0 : Int) < 2 ^ n.toNat := by positivity
  -- The quotient towards zero is the shift, and one more for a negative number that does
  -- not divide.
  have hquot : x.toInt.tdiv (2 ^ n.toNat) = x.toInt >>> n.toNat +
      (truth (x.msb && !(x &&& ((0x01#32 <<< n) + (~~~1 + 1)) == 0))).toInt := by
    have hleft : (x &&& ((0x01#32 <<< n) + (~~~1 + 1)) == 0) =
        decide ((2 ^ n.toNat : Int) ∣ x.toInt) := by
      rw [Bool.eq_iff_iff, decide_eq_true_eq, dvd_toInt x h, ← toNat_low x h, beq_iff_eq,
        ← BitVec.toNat_inj]
      rfl
    rw [Int.tdiv_eq_ediv, Int.shiftRight_eq_div_pow, hleft, BitVec.msb_eq_toInt,
      Int.sign_eq_one_of_pos hpos]
    by_cases hneg : x.toInt < 0
    · have hge : ¬0 ≤ x.toInt := by omega
      by_cases hdvd : (2 ^ n.toNat : Int) ∣ x.toInt
      · simp [hdvd]
      · simp [hneg, hdvd, hge]
    · have hge : 0 ≤ x.toInt := by omega
      simp [hge, hneg]
  apply BitVec.eq_of_toInt_eq
  unfold divpwr2 test_divpwr2
  simp only [sign_bit]
  rw [lnot_eq (x &&& _), lnot_truth, truth_and, BitVec.toInt_add, BitVec.toInt_sdiv,
    BitVec.toInt_sshiftRight', hpow, hquot]

theorem fitsBits_eq {n : CInt} (x : CInt) (h₀ : 1 ≤ n.toNat) (h₁ : n.toNat ≤ 32) :
    fitsBits x n = test_fitsBits x n := by
  have hsub : (~~~1 + 1 + n).toNat = n.toNat - 1 := by
    have hone : (~~~1 + 1 : CInt).toNat = 2 ^ 32 - 1 := by decide
    rw [BitVec.toNat_add, hone]
    omega
  have hone : (1 : CInt).toNat = 1 := rfl
  have hsub' : (n - 1).toNat = n.toNat - 1 := by
    rw [BitVec.toNat_sub, hone]
    omega
  have hle : 2 ^ (n.toNat - 1) ≤ 2 ^ 31 := Nat.pow_le_pow_right (by decide) (by omega)
  have hpos := Nat.two_pow_pos (n.toNat - 1)
  have hp := toNat_one_shift (k := n.toNat - 1) (by omega)
  -- The limits wrap to themselves at 32 bits.
  have hmin : (-(1#32 <<< (n - 1))).toInt = -2 ^ (n.toNat - 1) := by
    rw [BitVec.shiftLeft_eq', hsub']
    have hneg := BitVec.toNat_neg (1#32 <<< (n.toNat - 1))
    rw [hp] at hneg
    rcases sign_cases (-(1#32 <<< (n.toNat - 1))) with ⟨-, h1, h2⟩ | ⟨-, h1, -, h2⟩
    · omega
    · rw [h2, hneg, Nat.mod_eq_of_lt (by omega), Nat.cast_sub (by omega)]
      push_cast
      ring
  have hmax : (1#32 <<< (n - 1) - 1).toInt = 2 ^ (n.toNat - 1) - 1 := by
    rw [BitVec.shiftLeft_eq', hsub']
    have hless := BitVec.toNat_sub (1#32 <<< (n.toNat - 1)) 1
    rw [hp, hone] at hless
    rcases sign_cases (1#32 <<< (n.toNat - 1) - 1) with ⟨-, h1, h2⟩ | ⟨-, h1, -⟩
    · have hnat : (1#32 <<< (n.toNat - 1) - 1).toNat = 2 ^ (n.toNat - 1) - 1 := by omega
      rw [h2, hnat]
      push_cast [show 1 ≤ 2 ^ (n.toNat - 1) from hpos]
      ring
    · omega
  unfold fitsBits test_fitsBits
  simp only [sign_bit, spread_truth]
  rw [lnot_eq]
  congr 1
  have hxor : ∀ a b : CInt, (a ^^^ b == 0) = decide (a.toInt = b.toInt) := by
    intro a b
    rw [Bool.eq_iff_iff, beq_iff_eq, decide_eq_true_eq, BitVec.toInt_inj]
    exact BitVec.xor_eq_zero_iff
  have hsign : (if x.msb then BitVec.allOnes 32 else 0 : CInt).toInt =
      if x.toInt < 0 then -1 else 0 := by
    rw [BitVec.msb_eq_toInt]
    by_cases h : x.toInt < 0
    · simp [h]
    · simp [h]
  have hq : (0 : Int) < 2 ^ (n.toNat - 1) := by positivity
  rw [hxor, hsign, BitVec.toInt_sshiftRight', hsub, Int.shiftRight_eq_div_pow,
    BitVec.sle_eq_decide, BitVec.sle_eq_decide, ← Bool.decide_and, decide_eq_decide]
  rw [hmin, hmax]
  -- The quotient is the sign exactly for the numbers between the limits.
  have hlow := Int.le_ediv_iff_mul_le (a := -1) (b := x.toInt) hq
  have hlow' := Int.le_ediv_iff_mul_le (a := 0) (b := x.toInt) hq
  have hhigh := Int.ediv_lt_iff_lt_mul (a := x.toInt) (b := 0) hq
  have hhigh' := Int.ediv_lt_iff_lt_mul (a := x.toInt) (b := 1) hq
  push_cast
  split
  · constructor
    · intro h
      omega
    · intro h
      omega
  · constructor
    · intro h
      omega
    · intro h
      omega

theorem getByte_eq {n : CInt} (x : CInt) (h : n.toNat ≤ 3) :
    test_getByte x n = some (getByte x n) := by
  have hlittle : (bytes 1).head? ≠ some 0 := by decide
  have hbyte : (bytes x)[n.toNat]? = some (x.extractLsb' (8 * n.toNat) 8) := by
    unfold bytes
    rw [List.getElem?_map, List.getElem?_range (by omega)]
    rfl
  have hnum : (n <<< 3).toNat = 8 * n.toNat := by
    rw [BitVec.toNat_shiftLeft, Nat.shiftLeft_eq]
    omega
  unfold test_getByte getByte
  simp only
  rw [if_pos hlittle, hbyte, Option.map_some]
  congr 1
  apply BitVec.eq_of_getLsbD_eq
  intro i hi
  have hff : ∀ j < 32, (0xFF : CInt).getLsbD j = decide (j < 8) := by decide
  have hi' : ¬32 ≤ i := by omega
  rw [BitVec.getLsbD_and, BitVec.getLsbD_sshiftRight', hnum, hff i hi,
    BitVec.zeroExtend_eq_setWidth, BitVec.getLsbD_setWidth, BitVec.getLsbD_extractLsb', decide_eq_true hi, decide_eq_false hi']
  by_cases h8 : i < 8
  · rw [if_pos (by omega)]
    simp [h8]
  · simp [h8]

theorem logicalShift_eq {n : CInt} (x : CInt) (h : n.toNat ≤ 31) :
    logicalShift x n = test_logicalShift x n := by
  -- The mask covers the bits that the sign came into.
  have hmask : ∀ i < 32, ((((0x01 : CInt) <<< 31).sshiftRight' n) <<< 1).getLsbD i =
      decide (32 ≤ n.toNat + i) := by
    intro i hi
    have htop : ∀ j < 32, ((0x01 : CInt) <<< 31).getLsbD j = decide (j = 31) := by decide
    have hmsb : ((0x01 : CInt) <<< 31).msb = true := by decide
    rw [BitVec.getLsbD_shiftLeft, BitVec.getLsbD_sshiftRight', hmsb]
    by_cases h0 : i < 1
    · have hlow : ¬32 ≤ n.toNat + i := by omega
      rw [decide_eq_true h0, decide_eq_false hlow]
      simp
    · have h1 : ¬32 ≤ i - 1 := by omega
      rw [decide_eq_true hi, decide_eq_false h0, decide_eq_false h1]
      by_cases hlt : n.toNat + (i - 1) < 32
      · rw [if_pos hlt, htop _ hlt]
        simp only [Bool.not_false, Bool.true_and, decide_eq_decide]
        omega
      · rw [if_neg hlt]
        have hhigh : 32 ≤ n.toNat + i := by omega
        simp [hhigh]
  unfold logicalShift test_logicalShift
  apply BitVec.eq_of_getLsbD_eq
  intro i hi
  have hi' : ¬32 ≤ i := by omega
  rw [BitVec.ushiftRight_eq', BitVec.getLsbD_ushiftRight, BitVec.getLsbD_and, BitVec.getLsbD_not]
  rw [hmask i hi, BitVec.getLsbD_sshiftRight', decide_eq_false hi']
  by_cases hlt : n.toNat + i < 32
  · have hlow : ¬32 ≤ n.toNat + i := by omega
    rw [if_pos hlt, decide_eq_false hlow, decide_eq_true hi]
    simp
  · have hfalse : x.getLsbD (n.toNat + i) = false := BitVec.getLsbD_of_ge _ _ (by omega)
    have hhigh : 32 ≤ n.toNat + i := by omega
    rw [hfalse, decide_eq_true hhigh]
    simp

/-! ## The lowest bit -/

theorem one_shift_ne {k : Nat} (hk : k < 32) : 1#32 <<< k ≠ 0 := by
  intro h
  have hbit := getLsbD_one_shift k hk
  rw [h, decide_eq_true rfl] at hbit
  exact absurd hbit (by simp)

/-- A word under a mask of one bit. -/
theorem and_one_shift (x : CInt) (k : Nat) :
    1#32 <<< k &&& x = if x.getLsbD k then 1#32 <<< k else 0 := by
  apply BitVec.eq_of_getLsbD_eq
  intro i hi
  rw [BitVec.getLsbD_and, getLsbD_one_shift k hi]
  by_cases h : i = k
  · subst h
    cases hx : x.getLsbD i <;> simp [hi]
  · cases hx : x.getLsbD k <;> simp [h, getLsbD_one_shift k hi]

theorem leastBitPos_loop_eq {x : CInt} {i : Nat} (hi : i < 32) (hset : x.getLsbD i = true)
    (hmin : ∀ j < i, x.getLsbD j = false) {n k : Nat} (hk : k ≤ i) (hn : i - k < n) :
    leastBitPos_loop x n (1#32 <<< k) = some (1#32 <<< i) := by
  have hand : ∀ k < 32, (lnot (1#32 <<< k &&& x) ≠ 0) ↔ x.getLsbD k = false := by
    intro k hk
    rw [lnot_eq, and_one_shift]
    cases x.getLsbD k
    · simp
    · have hne : (1#32 <<< k == 0) = false := by simpa using one_shift_ne hk
      rw [if_pos rfl, hne]
      simp
  induction n generalizing k with
  | zero => omega
  | succ n ih =>
    unfold leastBitPos_loop
    rcases Nat.eq_or_lt_of_le hk with rfl | hlt
    · rw [if_neg]
      rw [hand k hi, hset]
      simp
    · rw [if_pos ((hand k (by omega)).mpr (hmin k hlt)), ← BitVec.shiftLeft_add]
      exact ih (by omega) (by omega)

theorem leastBitPos_eq (x : CInt) : test_leastBitPos x = some (leastBitPos x) := by
  unfold test_leastBitPos leastBitPos
  simp only [oppo_eq]
  by_cases h : x = 0
  · subst h
    rfl
  · obtain ⟨i, hi, hset, hmin, hlow⟩ := lowest_bit h
    rw [if_neg h, hlow]
    exact leastBitPos_loop_eq (k := 0) hi hset hmin (Nat.zero_le i) (by omega)

theorem isPower2_eq (x : CInt) : isPower2 x = test_isPower2 x := by
  unfold isPower2 test_isPower2
  simp only [oppo_eq, sign_bit]
  rw [lnot_eq (x ^^^ _), lnot_eq x, lnot_truth, lnot_truth, truth_and, truth_and]
  congr 1
  by_cases h : x = 0
  · subst h
    decide
  · obtain ⟨i, hi, hset, hmin, hlow⟩ := lowest_bit h
    rw [hlow, Bool.eq_iff_iff, List.any_eq_true]
    simp only [Bool.and_eq_true, beq_iff_eq, Bool.not_eq_true', beq_eq_false_iff_ne, List.mem_range]
    constructor
    · rintro ⟨⟨hx, hpos⟩, -⟩
      have hx : x = 1#32 <<< i := BitVec.xor_eq_zero_iff.mp hx
      refine ⟨i, ?_, hx⟩
      -- The top bit alone is negative.
      by_contra hge
      obtain rfl : i = 31 := by omega
      rw [hx] at hpos
      exact absurd hpos (by decide)
    · rintro ⟨k, hk, hx⟩
      rw [hx, getLsbD_one_shift k hi, decide_eq_true_eq] at hset
      subst hset
      refine ⟨⟨by rw [hx]; exact BitVec.xor_self, ?_⟩, h⟩
      rw [hx, BitVec.msb_eq_getLsbD_last, getLsbD_one_shift i (by decide), decide_eq_false_iff_not]
      omega

/-! ## The number of bits -/

/-- A shift of a word without a sign is a division. -/
theorem toNat_shift {y : CInt} (k : Nat) (h : y.toNat < 2 ^ 31) :
    (y.sshiftRight k).toNat = y.toNat / 2 ^ k := by
  rcases sign_cases y with ⟨hy, -⟩ | ⟨-, hge, -⟩
  · rw [BitVec.toNat_sshiftRight_of_msb_false hy, Nat.shiftRight_eq_div_pow]
  · omega

theorem and_one_lane (d y : Nat) : y &&& (1 + 2 ^ 4 * d) = y % 2 + 16 * (y / 2 ^ 4 &&& d) := by
  rw [and_lane d y (by decide), Nat.and_one_is_mod]
  omega

/-- The lowest lane of four bits, and the lanes above it. -/
theorem lane_mod {c : Nat} (d : Nat) (h : c < 16) : (c + 16 * d) % 16 = c := by
  rw [Nat.add_mul_mod_self_left, Nat.mod_eq_of_lt h]

theorem lane_div {c : Nat} (d : Nat) (h : c < 16) : (c + 16 * d) / 16 = d := by
  rw [Nat.add_mul_div_left _ _ (by decide), Nat.div_eq_of_lt h, Nat.zero_add]

/-- The mask `0x0F0F`. -/
theorem and_two_lanes (y : Nat) : y &&& 0x0F0F = y % 16 + 256 * (y / 16 / 16 % 16) := by
  have h := and_lane (n := 8) (c := 15) 15 y (by decide)
  have hlow : ∀ v, v &&& 15 = v % 16 := fun v => Nat.and_two_pow_sub_one_eq_mod v 4
  rw [hlow, hlow] at h
  rw [show (0x0F0F : Nat) = 15 + 2 ^ 8 * 15 from rfl, h]
  omega

/-- The bits of a word at every fourth place from `j` on, each in a lane of its own. -/
theorem every_fourth (x : CInt) {j : Nat} (hj : j < 4) :
    (x.sshiftRight j &&& 0x11111111).toNat = bit x j + 16 * (bit x (4 + j) + 16 * (bit x (8 + j) +
      16 * (bit x (12 + j) + 16 * (bit x (16 + j) + 16 * (bit x (20 + j) + 16 * (bit x (24 + j) +
      16 * bit x (28 + j))))))) := by
  have hbit : ∀ i, i + j < 32 → (x.sshiftRight j).toNat / 2 ^ i % 2 = bit x (i + j) := by
    intro i hi
    have hi' : ¬32 ≤ i := by omega
    rw [div_mod_bit, bit, bit, BitVec.getLsbD_sshiftRight, Nat.add_comm j i, if_pos hi,
      decide_eq_false hi']
    rfl
  have hones : (0x11111111 : CInt).toNat = 1 + 2 ^ 4 * (1 + 2 ^ 4 * (1 + 2 ^ 4 * (1 + 2 ^ 4 *
      (1 + 2 ^ 4 * (1 + 2 ^ 4 * (1 + 2 ^ 4 * 1)))))) := rfl
  have h0 := hbit 0 (by omega)
  have h1 := hbit 4 (by omega)
  have h2 := hbit 8 (by omega)
  have h3 := hbit 12 (by omega)
  have h4 := hbit 16 (by omega)
  have h5 := hbit 20 (by omega)
  have h6 := hbit 24 (by omega)
  have h7 := hbit 28 (by omega)
  rw [BitVec.toNat_and, hones]
  generalize (x.sshiftRight j).toNat = y at *
  rw [and_one_lane, and_one_lane, and_one_lane, and_one_lane, and_one_lane, and_one_lane,
    and_one_lane, Nat.and_one_is_mod, ← h1, ← h2, ← h3, ← h4, ← h5, ← h6, ← h7]
  simp only [Nat.div_div_eq_div_mul]
  rw [Nat.pow_zero, Nat.div_one] at h0
  norm_num only at h0 ⊢
  rw [h0, Nat.zero_add]

/-- What `bitCount` does once every fourth bit is counted. -/
def foldLanes (num : CInt) : CInt :=
  let num := num + num.sshiftRight 16
  let num := (num &&& 0x0F0F) + (num.sshiftRight 4 &&& 0x0F0F)
  (num + num.sshiftRight 8) &&& 0x3F

/-- Eight counts of at most four are summed up without a carry between the lanes. -/
theorem foldLanes_toNat {num : CInt} {c₀ c₁ c₂ c₃ c₄ c₅ c₆ c₇ : Nat} (h₀ : c₀ ≤ 4) (h₁ : c₁ ≤ 4)
    (h₂ : c₂ ≤ 4) (h₃ : c₃ ≤ 4) (h₄ : c₄ ≤ 4) (h₅ : c₅ ≤ 4) (h₆ : c₆ ≤ 4) (h₇ : c₇ ≤ 4)
    (hn : num.toNat = c₀ + 16 * (c₁ + 16 * (c₂ + 16 * (c₃ + 16 * (c₄ + 16 * (c₅ + 16 * (c₆ +
      16 * c₇))))))) :
    (foldLanes num).toNat = c₀ + c₁ + c₂ + c₃ + c₄ + c₅ + c₆ + c₇ := by
  have hmask : (0x0F0F : CInt).toNat = 0x0F0F := rfl
  have hlast : ∀ v, v &&& 0x3F = v % 64 := fun v => Nat.and_two_pow_sub_one_eq_mod v 6
  have hlt : num.toNat < 2 ^ 31 := by
    rw [hn]
    omega
  have hup : num.toNat / 2 ^ 16 = c₄ + 16 * (c₅ + 16 * (c₆ + 16 * c₇)) := by
    have hdiv : num.toNat / 2 ^ 16 = num.toNat / 16 / 16 / 16 / 16 := by
      simp only [Nat.div_div_eq_div_mul]
      rfl
    rw [hdiv, hn, lane_div _ (h₀.trans_lt (by decide)), lane_div _ (h₁.trans_lt (by decide)),
      lane_div _ (h₂.trans_lt (by decide)), lane_div _ (h₃.trans_lt (by decide))]
  -- The upper four lanes are added to the lower four.
  have hhalf : (num + num.sshiftRight 16).toNat = (c₀ + c₄) + 16 * ((c₁ + c₅) + 16 * ((c₂ + c₆) +
      16 * ((c₃ + c₇) + 16 * (c₄ + 16 * (c₅ + 16 * (c₆ + 16 * c₇)))))) := by
    rw [BitVec.toNat_add, toNat_shift 16 hlt, hup, hn, Nat.mod_eq_of_lt (by omega)]
    ring
  unfold foldLanes
  simp only
  generalize num + num.sshiftRight 16 = m at hhalf ⊢
  have hm : m.toNat < 2 ^ 31 := by
    rw [hhalf]
    omega
  -- Two counts together have room in one lane.
  have l0 : c₀ + c₄ < 16 := Nat.lt_of_le_of_lt (Nat.add_le_add h₀ h₄) (by decide)
  have l1 : c₁ + c₅ < 16 := Nat.lt_of_le_of_lt (Nat.add_le_add h₁ h₅) (by decide)
  have l2 : c₂ + c₆ < 16 := Nat.lt_of_le_of_lt (Nat.add_le_add h₂ h₆) (by decide)
  have l3 : c₃ + c₇ < 16 := Nat.lt_of_le_of_lt (Nat.add_le_add h₃ h₇) (by decide)
  have hm0 : m.toNat % 16 = c₀ + c₄ := by
    rw [hhalf, lane_mod _ l0]
  have hm1 : m.toNat / 16 % 16 = c₁ + c₅ := by
    rw [hhalf, lane_div _ l0, lane_mod _ l1]
  have hm2 : m.toNat / 16 / 16 % 16 = c₂ + c₆ := by
    rw [hhalf, lane_div _ l0, lane_div _ l1, lane_mod _ l2]
  have hm3 : m.toNat / 16 / 16 / 16 % 16 = c₃ + c₇ := by
    rw [hhalf, lane_div _ l0, lane_div _ l1, lane_div _ l2, lane_mod _ l3]
  -- Then the odd lanes to the even ones.
  have hpair : ((m &&& 0x0F0F) + (m.sshiftRight 4 &&& 0x0F0F)).toNat =
      (c₀ + c₁ + c₄ + c₅) + 256 * (c₂ + c₃ + c₆ + c₇) := by
    have hfour : (m.sshiftRight 4).toNat = m.toNat / 16 := toNat_shift 4 hm
    rw [BitVec.toNat_add, BitVec.toNat_and, BitVec.toNat_and, hmask, hfour,
      and_two_lanes, and_two_lanes, hm0, hm1, hm2, hm3, Nat.mod_eq_of_lt (by omega)]
    ring
  clear hn hhalf hlt hup hm0 hm1 hm2 hm3 hm
  generalize (m &&& 0x0F0F) + (m.sshiftRight 4 &&& 0x0F0F) = k at hpair ⊢
  have hk : k.toNat / 256 = c₂ + c₃ + c₆ + c₇ := by omega
  have hbyte : (k + k.sshiftRight 8).toNat = k.toNat + (c₂ + c₃ + c₆ + c₇) := by
    have height : (k.sshiftRight 8).toNat = k.toNat / 256 := toNat_shift 8 (by omega)
    rw [BitVec.toNat_add, height, hk, Nat.mod_eq_of_lt (by omega)]
  have hsix : (0x3F : CInt).toNat = 0x3F := rfl
  rw [BitVec.toNat_and, hbyte, hsix, hlast]
  omega

theorem bitCount_toNat (x : CInt) : (bitCount x).toNat = ∑ i ∈ Finset.range 32, bit x i := by
  have h0 := every_fourth x (j := 0) (by decide)
  have h1 := every_fourth x (j := 1) (by decide)
  have h2 := every_fourth x (j := 2) (by decide)
  have h3 := every_fourth x (j := 3) (by decide)
  rw [BitVec.sshiftRight_zero] at h0
  have hle : ∀ i, bit x i ≤ 1 := bit_le x
  have hfour : ∀ i, bit x i + bit x (i + 1) + bit x (i + 2) + bit x (i + 3) ≤ 4 := fun i => by
    have := hle i
    have := hle (i + 1)
    have := hle (i + 2)
    have := hle (i + 3)
    omega
  have hfold : bitCount x = foldLanes ((x &&& 0x11111111) + (x.sshiftRight 1 &&& 0x11111111) +
      (x.sshiftRight 2 &&& 0x11111111) + (x.sshiftRight 3 &&& 0x11111111)) := rfl
  rw [hfold, foldLanes_toNat (hfour 0) (hfour 4) (hfour 8) (hfour 12) (hfour 16) (hfour 20)
    (hfour 24) (hfour 28)]
  · simp only [Finset.sum_range_succ, Finset.sum_range_zero]
    ring
  · -- Four bits do not overflow a lane of four.
    have hmask : ∀ y : CInt, (y &&& 0x11111111).toNat ≤ 0x11111111 := by
      intro y
      rw [BitVec.toNat_and]
      exact Nat.and_le_right
    have m0 := hmask x
    have m1 := hmask (x.sshiftRight 1)
    have m2 := hmask (x.sshiftRight 2)
    have m3 := hmask (x.sshiftRight 3)
    rw [BitVec.toNat_add, BitVec.toNat_add, BitVec.toNat_add, Nat.mod_eq_of_lt (by omega),
      Nat.mod_eq_of_lt (by omega), Nat.mod_eq_of_lt (by omega), h0, h1, h2, h3]
    ring

/-- The loop counts the bits that it has seen. -/
theorem test_bitCount_loop (x : CInt) {n : Nat} (hn : n ≤ 32) :
    ((List.range n).foldl (fun result i => result + (x.sshiftRight i &&& 0x1)) 0).toNat =
      ∑ i ∈ Finset.range n, bit x i := by
  induction n with
  | zero => rfl
  | succ n ih =>
    have hsum : ∑ i ∈ Finset.range n, bit x i ≤ n := by
      simpa using Finset.sum_le_sum (s := Finset.range n) fun i _ => bit_le x i
    have hbit : (x.sshiftRight n &&& 0x1).toNat = bit x n := by
      have hlow := div_mod_bit (x.sshiftRight n) 0
      rw [Nat.pow_zero, Nat.div_one] at hlow
      have hone : (0x1 : CInt).toNat = 1 := rfl
      rw [BitVec.toNat_and, hone, Nat.and_one_is_mod, hlow, bit, bit, BitVec.getLsbD_sshiftRight,
        if_pos (by omega)]
      rfl
    rw [List.range_succ, List.foldl_append, Finset.sum_range_succ, ← ih (by omega), ← hbit]
    exact (BitVec.toNat_add _ _).trans (Nat.mod_eq_of_lt (by
      have := bit_le x n
      rw [ih (by omega), hbit]
      omega))

theorem test_bitCount_toNat (x : CInt) :
    (test_bitCount x).toNat = ∑ i ∈ Finset.range 32, bit x i :=
  test_bitCount_loop x (Nat.le_refl 32)

theorem bitCount_eq (x : CInt) : bitCount x = test_bitCount x :=
  BitVec.eq_of_toNat_eq ((bitCount_toNat x).trans (test_bitCount_toNat x).symm)

/-! ## The law -/

/-- Every function of the table returns what its reference returns, on all arguments of its
ranges; and every reference returns. -/
theorem every_puzzle_is_solved (t : test_rec) (ht : t ∈ test_set) (x y z : CInt)
    (h : t.Allows x y z) : t.test_funct x y z = some (t.solution_funct x y z) := by
  obtain ⟨hx, hy, -⟩ := h
  unfold test_set at ht
  simp only [List.mem_cons, List.not_mem_nil, or_false] at ht
  rcases ht with rfl | rfl | rfl | rfl | rfl | rfl | rfl | rfl | rfl | rfl | rfl | rfl | rfl | rfl |
    rfl
  · exact congrArg some (bang_eq x).symm
  · exact congrArg some (bitCount_eq x).symm
  · exact congrArg some (copyLSB_eq x).symm
  · have hn := toNat_of_range (l := 0) (k := 30) (by decide) (by decide) (hy (by decide))
    exact congrArg some (divpwr2_eq x hn.2).symm
  · exact congrArg some evenBits_eq.symm
  · have hn := toNat_of_range (l := 1) (k := 32) (by decide) (by decide) (hy (by decide))
    exact congrArg some (fitsBits_eq x hn.1 hn.2).symm
  · have hn := toNat_of_range (l := 0) (k := 3) (by decide) (by decide) (hy (by decide))
    exact getByte_eq x hn.2
  · exact congrArg some (isGreater_eq x y).symm
  · exact congrArg some (isNonNegative_eq x).symm
  · exact congrArg some (isNotEqual_eq x y).symm
  · exact congrArg some (isPower2_eq x).symm
  · exact leastBitPos_eq x
  · have hn := toNat_of_range (l := 1) (k := 31) (by decide) (by decide) (hy (by decide))
    exact congrArg some (logicalShift_eq x hn.2).symm
  · exact congrArg some (satAdd_eq x y).symm
  · exact congrArg some (tc2sm_eq (hx (by decide)).1).symm

/-- `-33 / 16` -/
theorem a_quotient_is_rounded_towards_zero :
    test_set[3].Allows (-33) 4 0 ∧
      test_set[3].test_funct (-33) 4 0 = some (test_set[3].solution_funct (-33) 4 0) ∧
      divpwr2 (-33) 4 = -2 :=
  ⟨by decide, every_puzzle_is_solved test_set[3] (List.getElem_mem _) (-33) 4 0 (by decide),
    by decide⟩

end ics_labs.bits
