-- The split of an address in csim: when the set and the stored tag tell two blocks
-- apart. The tag is put into an int, which keeps 32 of its bits.
import IcsLabs.CsimLru

open ics_labs.memory

namespace ics_labs.csim

/-! ## Two addresses -/

/-- The tag that a line stores for the address. -/
def storedTag (s b : Nat) (x : Word) : Option Int :=
  (GET_TAG s b x).map fun tag => toInt32 tag.toInt

/-- The addresses go to the same set under the same tag. -/
def SamePlace (s b : Nat) (x y : Word) : Prop :=
  GET_SET s b x = GET_SET s b y ∧ storedTag s b x = storedTag s b y

/-- The addresses lie in the same block. -/
def SameBlock (b : Nat) (x y : Word) : Prop := x.toNat / 2 ^ b = y.toNat / 2 ^ b

/-- The low `s + 32` bits above the offset are the same. -/
def SameLow (s b : Nat) (x y : Word) : Prop :=
  x.toNat / 2 ^ b % 2 ^ (s + 32) = y.toNat / 2 ^ b % 2 ^ (s + 32)

/-- The bits above these are the same. -/
def SameHigh (s b : Nat) (x y : Word) : Prop :=
  x.toNat / 2 ^ b / 2 ^ (s + 32) = y.toNat / 2 ^ b / 2 ^ (s + 32)

/-- An `int` keeps a number up to multiples of 2^32. -/
theorem toInt32_inj (m n : Nat) : toInt32 m = toInt32 n ↔ m % 2 ^ 32 = n % 2 ^ 32 := by
  unfold toInt32
  rw [BitVec.toInt_inj]
  constructor
  · intro h
    have := congrArg BitVec.toNat h
    simpa using this
  · intro h
    apply BitVec.eq_of_toNat_eq
    simpa using h

/-- A number below `m * n` by its two digits. -/
theorem mod_mul_inj {m : Nat} (n p q : Nat) (hm : 0 < m) :
    p % (m * n) = q % (m * n) ↔ p % m = q % m ∧ p / m % n = q / m % n := by
  constructor
  · intro h
    have h1 := congrArg (· % m) h
    have h2 := congrArg (· / m) h
    simp only [Nat.mod_mul, Nat.add_mul_mod_self_left, Nat.mod_mod] at h1
    simp only [Nat.mod_mul, Nat.add_mul_div_left _ _ hm, Nat.div_eq_of_lt (Nat.mod_lt _ hm)] at h2
    exact ⟨h1, by omega⟩
  · rintro ⟨h1, h2⟩
    rw [Nat.mod_mul, Nat.mod_mul, h1, h2]

theorem storedTag_eq {s b : Nat} (h : ShiftsDefined s b) (x : Word) :
    storedTag s b x = some (toInt32 (tagOf s b x)) := by
  rw [storedTag, GET_TAG_eq h, Option.map_some, toInt_ofNat_long (tagOf_lt h.tag x)]

theorem GET_SET_inj {s b : Nat} (h : ShiftsDefined s b) (x y : Word) :
    GET_SET s b x = GET_SET s b y ↔ setOf s b x = setOf s b y := by
  have hp : 2 ^ s < 2 ^ 31 := Nat.pow_lt_pow_right (by omega) h.set_num
  have hx := setOf_lt s b x
  have hy := setOf_lt s b y
  rw [GET_SET_eq h, GET_SET_eq h, Option.some_inj]
  constructor
  · intro he
    have hn := congrArg BitVec.toNat he
    rwa [BitVec.toNat_ofNat, BitVec.toNat_ofNat, Nat.mod_eq_of_lt (by omega),
      Nat.mod_eq_of_lt (by omega)] at hn
  · exact congrArg _

/-- The set and what is kept of the tag are the two digits of the low bits. -/
theorem samePlace_iff {s b : Nat} (h : ShiftsDefined s b) (x y : Word) :
    SamePlace s b x y ↔ SameLow s b x y := by
  unfold SamePlace SameLow
  rw [GET_SET_inj h, storedTag_eq h, storedTag_eq h, Option.some_inj, toInt32_inj, Nat.pow_add,
    mod_mul_inj _ _ _ (Nat.two_pow_pos s)]
  rfl

theorem sameBlock_iff (s b : Nat) (x y : Word) :
    SameBlock b x y ↔ SameLow s b x y ∧ SameHigh s b x y := by
  unfold SameBlock SameLow SameHigh
  constructor
  · intro h
    rw [h]
    exact ⟨rfl, rfl⟩
  · rintro ⟨h1, h2⟩
    rw [← Nat.div_add_mod (x.toNat / 2 ^ b) (2 ^ (s + 32)), h1, h2, Nat.div_add_mod]

theorem find_line_tag {tag : Int} {lines : List Line} {i : Nat} {l : Line}
    (h : find_line tag lines = some i) (hl : lines[i]? = some l) : l.tag = tag := by
  obtain ⟨hi, hp, -⟩ := List.findIdx?_eq_some_iff_getElem.mp h
  rw [List.getElem?_eq_getElem hi, Option.some.injEq] at hl
  rw [hl] at hp
  simpa using (Bool.and_eq_true_iff.mp hp).2

theorem place_iff {s b : Nat} (h : ShiftsDefined s b) (x y : Word) :
    (SamePlace s b x y ↔ SameBlock b x y) ↔ (SameLow s b x y → SameHigh s b x y) := by
  rw [samePlace_iff h, sameBlock_iff s b]
  constructor
  · intro h hlow
    exact (h.mp hlow).2
  · intro h
    exact ⟨fun hlow => ⟨hlow, h hlow⟩, And.left⟩

/-! ## The law -/

/-- The two addresses go to the same set under the same tag exactly when they lie in the
same block, and a hit for `x` on a line stored for `y` in the set of `x` is a hit on the
block of `x`. -/
structure BlocksTold (s b : Nat) (x y : Word) : Prop where
  place : SamePlace s b x y ↔ SameBlock b x y
  hit : ∀ (lines : List Line) (i : Nat) (l : Line) (tag : Int), storedTag s b x = some tag →
    find_line tag lines = some i → lines[i]? = some l →
    storedTag s b y = some l.tag → GET_SET s b x = GET_SET s b y → SameBlock b x y

/-- The set and the stored tag tell the blocks of two addresses apart exactly when the
addresses do not differ in the bits from `s + b + 32` on alone. -/
theorem the_blocks_are_told_apart_iff {s b : Nat} (h : ShiftsDefined s b) (x y : Word) :
    BlocksTold s b x y ↔ (SameLow s b x y → SameHigh s b x y) := by
  rw [← place_iff h]
  constructor
  · exact BlocksTold.place
  · intro hplace
    refine ⟨hplace, ?_⟩
    intro lines i l tag hx hf hl hy hset
    rw [find_line_tag hf hl] at hy
    exact hplace.mp ⟨hset, hx.trans hy.symm⟩

/-- 16 sets of blocks of 16 bytes, and two addresses that differ in bit 39 only. -/
theorem two_far_blocks_are_told_apart_iff :
    BlocksTold 4 4 0x7ff000398 0x87ff000398 ↔
      (SameLow 4 4 0x7ff000398 0x87ff000398 → SameHigh 4 4 0x7ff000398 0x87ff000398) :=
  the_blocks_are_told_apart_iff ⟨by decide, by decide, by decide⟩ 0x7ff000398 0x87ff000398

/-- A geometry tells all blocks apart exactly when the tag has at most 32 bits. -/
theorem all_blocks_are_told_apart_iff {s b : Nat} (h : ShiftsDefined s b) :
    (∀ x y : Word, SamePlace s b x y ↔ SameBlock b x y) ↔ 32 ≤ s + b := by
  constructor
  · intro hall
    by_contra hlt
    -- The lowest bit that is lost.
    have hpow : 2 ^ (s + b + 32) < 2 ^ 64 := Nat.pow_lt_pow_right (by omega) (by omega)
    have htold := (place_iff h 0 (BitVec.ofNat 64 (2 ^ (s + b + 32)))).mp (hall _ _)
    have hdiv : 2 ^ (s + b + 32) / 2 ^ b = 2 ^ (s + 32) := by
      rw [show s + b + 32 = b + (s + 32) by omega, Nat.pow_add,
        Nat.mul_div_cancel_left _ (Nat.two_pow_pos b)]
    unfold SameLow SameHigh at htold
    rw [BitVec.toNat_ofNat, Nat.mod_eq_of_lt hpow, hdiv, Nat.mod_self,
      Nat.div_self (Nat.two_pow_pos _)] at htold
    simp at htold
  · intro hge x y
    apply (place_iff h x y).mpr
    intro _
    have hhigh : ∀ z : Word, z.toNat / 2 ^ b / 2 ^ (s + 32) = 0 := by
      intro z
      rw [Nat.div_div_eq_div_mul, ← Nat.pow_add]
      apply Nat.div_eq_of_lt
      exact Nat.lt_of_lt_of_le z.isLt (Nat.pow_le_pow_right (by omega) (by omega))
    unfold SameHigh
    rw [hhigh, hhigh]

/-- With two sets of blocks of two bytes the addresses 0 and 2^34 share their place. -/
theorem two_blocks_share_a_place : ¬ ∀ s b : Nat, 1 ≤ s → 1 ≤ b → s ≤ 30 → s + b < 64 →
    ∀ x y : Word, BlocksTold s b x y := by
  intro h
  have hp := (h 1 1 (by decide) (by decide) (by decide) (by decide) 0 (2 ^ 34)).place
  have hsame : SamePlace 1 1 0 (2 ^ 34) := ⟨by decide, by decide⟩
  have hblock := hp.mp hsame
  revert hblock
  unfold SameBlock
  decide

end ics_labs.csim
