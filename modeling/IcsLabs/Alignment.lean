-- The .align directive: where its remainder, taken as C takes it, leads to the least multiple
-- that is not below the location counter.
import Mathlib.Order.Bounds.Basic
import IcsLabs.AsmLines

open ics_labs.byte_words ics_labs.memory ics_labs.ctext

namespace ics_labs.asm

open IType LineType

/-! ## Rounding up -/

/-- The multiples of `n` that are not below `v`. -/
def Multiples (n v : Int) : Set Int := {m | n ∣ m ∧ v ≤ m}

theorem least_self {n v : Int} (h : n ∣ v) : IsLeast (Multiples n v) v :=
  ⟨⟨h, le_refl v⟩, fun _ hm => hm.2⟩

/-- Between two multiples that are next to each other, the upper one is the least. -/
theorem least_above {n v m : Int} (hn : 0 < n) (hm : n ∣ m) (h1 : v ≤ m) (h2 : m < v + n) :
    IsLeast (Multiples n v) m := by
  refine ⟨⟨hm, h1⟩, fun k hk => ?_⟩
  obtain ⟨i, rfl⟩ := hm
  obtain ⟨j, rfl⟩ := hk.1
  by_contra hlt
  have hij : j + 1 ≤ i := by
    by_contra hij
    have : n * i ≤ n * j := Int.mul_le_mul_of_nonneg_left (by omega) hn.le
    omega
  have : n * (j + 1) ≤ n * i := Int.mul_le_mul_of_nonneg_left hij hn.le
  have := hk.2
  rw [mul_add, mul_one] at *
  omega

/-- A multiple that is `n` or more too large is not the least one. -/
theorem not_least {n v m : Int} (hm : n ∣ m) (h : v ≤ m - n) (hn : 0 < n) :
    ¬ IsLeast (Multiples n v) m := by
  intro hl
  have := hl.2 (show m - n ∈ Multiples n v from ⟨dvd_sub_self_right.mpr hm, h⟩)
  omega

/-- The location counter `v` can be aligned to `n`: it is aligned, or it is not negative and there
is a multiple above it that fits. -/
def CanAlign (v n : Int) : Prop := 0 < n ∧ (n ∣ v ∨ 0 ≤ v ∧ v - v % n + n < 2 ^ 63)

/-- The remainder of C. -/
theorem tmod_facts {v n : Int} (hn : 0 < n) (hdiv : ¬ n ∣ v) :
    n ∣ v - v.tmod n ∧ (0 ≤ v → v.tmod n = v % n ∧ 0 < v.tmod n ∧ v.tmod n < n) ∧
      (v < 0 → v ≤ v.tmod n ∧ v.tmod n < 0) := by
  have hne : v.tmod n ≠ 0 := mt Int.dvd_iff_tmod_eq_zero.mpr hdiv
  refine ⟨⟨v.tdiv n, ?_⟩, fun h => ?_, fun h => ?_⟩
  · have := Int.mul_tdiv_add_tmod v n
    omega
  · have heq := Int.tmod_eq_emod_of_nonneg (b := n) h
    have h1 := Int.emod_nonneg v hn.ne'
    have h2 := Int.emod_lt_of_pos v hn
    omega
  · have heq : v.tmod n = -((-v) % n) := by
      rw [← Int.tmod_eq_emod_of_nonneg (by omega : 0 ≤ -v), Int.neg_tmod, neg_neg]
    have h1 := Int.emod_nonneg (-v) hn.ne'
    have h2 := Int.mul_nonneg hn.le (Int.ediv_nonneg (by omega : 0 ≤ -v) hn.le)
    have h3 := Int.mul_ediv_add_emod (-v) n
    have hne' : (-v) % n ≠ 0 := fun h0 => hne (by rw [heq, h0, neg_zero])
    omega

/-- A positive operand leaves the least multiple exactly where `CanAlign` says so. -/
theorem align_least_iff {vmaddr val : Word} (hn : 0 < val.toInt) :
    ∃ new, align vmaddr val = .ok new ∧
      (IsLeast (Multiples val.toInt vmaddr.toInt) new.toInt ↔ CanAlign vmaddr.toInt val.toInt) := by
  have h0 : ¬ (val = 0 ∨ val = -1 ∧ vmaddr = BitVec.intMin 64) := by
    rintro (rfl | ⟨rfl, -⟩) <;> exact absurd hn (by decide)
  have hrem := BitVec.toInt_srem vmaddr val
  have hzero : vmaddr.srem val = 0 ↔ val.toInt ∣ vmaddr.toInt := by
    rw [← BitVec.toInt_inj, hrem, Int.dvd_iff_tmod_eq_zero]
    rfl
  unfold align
  rw [if_neg h0]
  by_cases hdiv : val.toInt ∣ vmaddr.toInt
  · rw [if_neg (by simpa using hzero.mpr hdiv)]
    exact ⟨_, rfl, iff_of_true (least_self hdiv) ⟨hn, Or.inl hdiv⟩⟩
  rw [if_pos (by simpa using mt hzero.mp hdiv)]
  refine ⟨_, rfl, ?_⟩
  have hv1 := BitVec.le_toInt vmaddr
  have hv2 := BitVec.toInt_lt (x := vmaddr)
  have hn2 := BitVec.toInt_lt (x := val)
  obtain ⟨hmul, hpos, hneg⟩ := tmod_facts hn hdiv
  rw [BitVec.toInt_add, BitVec.toInt_sub, hrem, Int.add_bmod_bmod]
  unfold CanAlign
  generalize val.toInt = n at *
  generalize vmaddr.toInt = v at *
  have hmul' : n ∣ v + (n - v.tmod n) := by
    rw [show v + (n - v.tmod n) = v - v.tmod n + n by omega]
    exact dvd_add hmul (dvd_refl n)
  rcases lt_or_ge v 0 with hlt | hge
  · -- the remainder is negative, so what is added is `n` too much
    obtain ⟨h1, h2⟩ := hneg hlt
    rw [Int.bmod_eq_of_le (by omega) (by omega)]
    exact iff_of_false (not_least hmul' (by omega) hn) (by simp [hdiv]; omega)
  · obtain ⟨heq, h1, h2⟩ := hpos hge
    rw [← heq]
    by_cases hfit : v - v.tmod n + n < 2 ^ 63
    · rw [Int.bmod_eq_of_le (by omega) (by omega)]
      exact iff_of_true (least_above hn hmul' (by omega) (by omega)) ⟨hn, Or.inr ⟨hge, hfit⟩⟩
    · -- the sum wraps and is negative
      have hwrap : (v + (n - v.tmod n)).bmod (2 ^ 64) = v + (n - v.tmod n) - 2 ^ 64 := by
        rw [← Int.sub_bmod_right, Int.bmod_eq_of_le] <;> omega
      rw [hwrap]
      refine iff_of_false (fun hl => ?_) (fun hc => ?_)
      · have := hl.1.2
        omega
      · rcases hc.2 with hd | ⟨-, hlt⟩
        · exact hdiv hd
        · exact hfit hlt

/-! ## The line -/

/-- The operand of an `.align`, as the assembler reads it. -/
def alignOperand (text : Text) : Option Word :=
  ((bodyOf text).bind parse_instr).bind fun (i, p) =>
    if i.icode = I_DIRECTIVE ∧ i.ifun = D_ALIGN then some (parse_digit p).1 else none

variable {heap : Nat → Text} {st : Asm} {text : Text} {val : Word}

/-- The line is accepted, and its operand is positive; the location counter goes on to the least
multiple that is not below it, and the line has that address. -/
structure Aligns (heap : Nat → Text) (st : Asm) (text : Text) (val : Word) : Prop where
  positive : 0 < val.toInt
  accepted : ∃ line st', parse_line heap st text = .ok (line, st') ∧
    line.y64bin.addr = st'.vmaddr ∧
    IsLeast (Multiples val.toInt st.vmaddr.toInt) st'.vmaddr.toInt

/-- What becomes of an `.align` whose label is new. -/
theorem parse_align (hnew : LabelIsNew heap st text) (hval : alignOperand text = some val) :
    ∃ codes, parse_line heap st text = (align st.vmaddr val).map fun vmaddr =>
      (⟨TYPE_INS, ⟨vmaddr, codes, 0⟩, text⟩, { behindLabel heap st text with vmaddr }) := by
  unfold alignOperand at hval
  obtain ⟨⟨i, rest⟩, hi, hval⟩ := Option.bind_eq_some_iff.mp hval
  obtain ⟨p, hp, hi⟩ := Option.bind_eq_some_iff.mp hi
  simp only [Option.ite_none_right_eq_some, Option.some.injEq] at hval
  obtain ⟨⟨hd, hf⟩, rfl⟩ := hval
  have h0 := align_row i (parse_instr_row hi) hd hf
  have hline := parse_line_new hnew
  rw [hp] at hline
  refine ⟨Function.update (fun _ => 0) 0 i.code, hline.trans ?_⟩
  have hvm : (behindLabel heap st text).vmaddr + BitVec.ofNat 64 0 = st.vmaddr := by
    simp [behindLabel]
  unfold parse_body
  simp only [hi, hd, hf, h0, hvm, if_true]
  rfl

/-- An `.align` is right exactly where its operand and the location counter allow it. -/
theorem aligns_iff (hnew : LabelIsNew heap st text) (hval : alignOperand text = some val) :
    Aligns heap st text val ↔ CanAlign st.vmaddr.toInt val.toInt := by
  obtain ⟨codes, hline⟩ := parse_align hnew hval
  constructor
  · rintro ⟨hpos, line, st', hok, -, hleast⟩
    obtain ⟨new, halign, hiff⟩ := @align_least_iff st.vmaddr val hpos
    rw [hline, halign] at hok
    cases hok
    exact hiff.mp hleast
  · intro hcan
    obtain ⟨new, halign, hiff⟩ := @align_least_iff st.vmaddr val hcan.1
    rw [halign] at hline
    exact ⟨hcan.1, _, _, hline, rfl, hiff.mpr hcan⟩

/-! ## The law -/

/-- The assembler, at work on the lines, comes to the `.align` with the operand `val`. -/
def Reaches (heap : Nat → Text) (texts : List Text) (st : Asm) (text : Text) (val : Word) : Prop :=
  ∃ front back, texts = front ++ text :: back ∧
    front.foldlM (assembleLine heap) init = .ok st ∧ LabelIsNew heap st text ∧
    alignOperand text = some val

/-- Every `.align` of a source is right exactly when every one that is reached has a positive
operand, which divides the location counter or leads on from one that is not negative to a
multiple that fits. -/
theorem every_align_is_right_iff (heap : Nat → Text) (texts : List Text) :
    (∀ st text val, Reaches heap texts st text val → Aligns heap st text val) ↔
      ∀ st text val, Reaches heap texts st text val → CanAlign st.vmaddr.toInt val.toInt := by
  constructor
  · intro h st text val hr
    obtain ⟨-, -, -, -, hnew, hval⟩ := id hr
    exact (aligns_iff hnew hval).mp (h st text val hr)
  · intro h st text val hr
    obtain ⟨-, -, -, -, hnew, hval⟩ := id hr
    exact (aligns_iff hnew hval).mpr (h st text val hr)

/-- An `.align` without a number divides by 0. -/
theorem an_align_without_a_number_crashes :
    Reaches bareNames [".align".toList] init ".align".toList 0 ∧
      parse_line bareNames init ".align".toList = .error .crash ∧
      ¬ ∀ heap texts st text val, Reaches heap texts st text val → Aligns heap st text val := by
  have hreach : Reaches bareNames [".align".toList] init ".align".toList 0 :=
    ⟨[], [], rfl, rfl, LabelIsNew.of_none rfl, rfl⟩
  refine ⟨hreach, rfl, fun hall => ?_⟩
  exact absurd (hall _ _ _ _ _ hreach).positive (by decide)

end ics_labs.asm
