-- The memory and the registers of the Y86-64 simulators. lab4 and lab6 carry
-- the same code for them under two sets of names; it stands here once.
import IcsLabs.ByteWords

open ics_labs.byte_words

namespace ics_labs.memory

/-- A 64-bit machine word. Its arithmetic wraps. -/
abbrev Word := BitVec 64

/-- Half a byte: an instruction code, a function code or a register number. -/
abbrev Nibble := BitVec 4

/-- The high half of a byte: `(byte >> 4) & 0xF`. -/
def hi4 (b : Byte) : Nibble := (b >>> 4).setWidth 4

/-- The low half of a byte: `byte & 0xF`. -/
def lo4 (b : Byte) : Nibble := b.setWidth 4

/-- `HPACK(hi, lo)`. -/
def hpack (hi lo : Nibble) : Byte := (hi.setWidth 8 <<< 4) ||| lo.setWidth 8

@[simp] theorem hi4_hpack (hi lo : Nibble) : hi4 (hpack hi lo) = hi := by
  revert hi lo; decide

@[simp] theorem lo4_hpack (hi lo : Nibble) : lo4 (hpack hi lo) = lo := by
  revert hi lo; decide

/-! ## The memory -/

/-- A byte array with its length, a C `int`. -/
structure Mem where
  len : Nat
  contents : Contents
  len_lt : len < 2 ^ 31

/-- The bytes that `i` turns of the read loop gather: `val = val | (b << (8*i))`. -/
def gather (c : Contents) (pos : Nat) : Nat → Word
  | 0 => 0
  | i + 1 => gather c pos i ||| ((c (pos + i)).setWidth 64 <<< (8 * i))

/-- `n` turns of the write loop: the low byte goes out, then `val >>= 8`. -/
def scatter (c : Contents) (pos : Nat) (val : Word) : Nat → Contents
  | 0 => c
  | n + 1 => scatter (Function.update c pos (val.setWidth 8)) (pos + 1) (val.sshiftRight 8) n

/-- The test in front of every access of `n` bytes: `pos < 0 || pos + n > len`, in
signed 64-bit arithmetic, so the sum wraps. -/
def Refused (m : Mem) (pos n : Word) : Prop :=
  pos.toInt < 0 ∨ (m.len : Int) < (pos + n).toInt

instance (m : Mem) (pos n : Word) : Decidable (Refused m pos n) :=
  inferInstanceAs (Decidable (_ ∨ _))

def readByte (m : Mem) (pos : Word) : Option Byte :=
  if pos.toInt < 0 ∨ (m.len : Int) ≤ pos.toInt then none else some (m.contents pos.toNat)

/-- Read 8 bytes. The inner `none` is the result `FALSE`. The outer `none` is an access
outside the array, which the test lets through when its sum wraps. -/
def readWord (m : Mem) (pos : Word) : Option (Option Word) :=
  if Refused m pos 8 then some none
  else if pos.toNat + 8 ≤ m.len then some (some (gather m.contents pos.toNat 8))
  else none

/-- Write 8 bytes, with the two failures of `readWord`. -/
def writeWord (m : Mem) (pos val : Word) : Option (Option Mem) :=
  if Refused m pos 8 then some none
  else if pos.toNat + 8 ≤ m.len then
    some (some { m with contents := scatter m.contents pos.toNat val 8 })
  else none

/-- The word at `a`, wherever `a` is. -/
def wordAt (m : Mem) (a : Word) : Word := BitVec.ofNat 64 (load m.contents a.toNat 8)

/-- The memory with `v` at `a`, wherever `a` is. -/
def Mem.put (m : Mem) (a v : Word) : Mem :=
  { m with contents := store m.contents a.toNat 8 v.toNat }

/-- The `n` bytes from `a` on are inside the memory. -/
def Inside (m : Mem) (a : Word) (n : Nat) : Prop := a.toNat + n ≤ m.len

instance (m : Mem) (a : Word) (n : Nat) : Decidable (Inside m a n) :=
  inferInstanceAs (Decidable (_ ≤ _))

@[simp] theorem put_len (m : Mem) (a v : Word) : (m.put a v).len = m.len := rfl

@[simp] theorem put_contents (m : Mem) (a v : Word) :
    (m.put a v).contents = store m.contents a.toNat 8 v.toNat := rfl

@[simp] theorem inside_put (m : Mem) (a v b : Word) (n : Nat) :
    Inside (m.put a v) b n ↔ Inside m b n := Iff.rfl

theorem wordAt_congr {m m' : Mem} {a : Word} (h : Agree m.contents m'.contents a.toNat 8) :
    wordAt m a = wordAt m' a := by
  unfold wordAt
  rw [load_congr h]

/-- The bytes of a word, back from the word. -/
theorem byte_of_word (m : Mem) (a : Word) {i : Nat} (h : i < 8) :
    m.contents (a.toNat + i) = byteOf (wordAt m a).toNat i := by
  have hlt : load m.contents a.toNat 8 < 2 ^ 64 := load_lt m.contents a.toNat 8
  unfold wordAt
  rw [BitVec.toNat_ofNat, Nat.mod_eq_of_lt hlt, byteOf_load _ h]

theorem wordAt_put_same (m : Mem) (a v : Word) : wordAt (m.put a v) a = v := by
  have hv : v.toNat < 256 ^ 8 := v.isLt
  unfold wordAt
  rw [put_contents, load_store_same, Nat.mod_eq_of_lt hv, BitVec.ofNat_toNat, BitVec.setWidth_eq]

theorem wordAt_put_of_disjoint {m : Mem} {a b v : Word}
    (h : b.toNat + 8 ≤ a.toNat ∨ a.toNat + 8 ≤ b.toNat) : wordAt (m.put a v) b = wordAt m b := by
  unfold wordAt
  rw [put_contents, load_store_of_disjoint h]

theorem put_other {m : Mem} {a v : Word} {x : Nat} (h : x < a.toNat ∨ a.toNat + 8 ≤ x) :
    (m.put a v).contents x = m.contents x := by
  rw [put_contents]
  unfold store
  rw [if_neg (by omega)]

/-! ## The loops -/

theorem gather_eq (c : Contents) (pos : Nat) {n : Nat} (h : n ≤ 8) :
    gather c pos n = BitVec.ofNat 64 (load c pos n) := by
  induction n with
  | zero => rfl
  | succ n ih =>
    have hlt := load_lt c pos n
    have hb := (c (pos + n)).isLt
    have hpow : 256 ^ n = 2 ^ (8 * n) := by rw [Nat.pow_mul]
    rw [hpow] at hlt
    have hle : 2 ^ (8 * n) ≤ 2 ^ 56 := Nat.pow_le_pow_right (by omega) (by omega)
    have hsum : 2 ^ (8 * n) * (c (pos + n)).toNat < 2 ^ 64 := by
      calc 2 ^ (8 * n) * (c (pos + n)).toNat ≤ 2 ^ 56 * 255 := Nat.mul_le_mul hle (by omega)
        _ < 2 ^ 64 := by norm_num
    rw [gather, ih (by omega), load_snoc]
    apply BitVec.eq_of_toNat_eq
    simp only [BitVec.toNat_or, BitVec.toNat_ofNat, BitVec.toNat_shiftLeft, BitVec.toNat_setWidth]
    rw [Nat.mod_eq_of_lt (show load c pos n < 2 ^ 64 by omega),
      Nat.mod_eq_of_lt (show (c (pos + n)).toNat < 2 ^ 64 by omega), Nat.shiftLeft_eq,
      Nat.mul_comm (c (pos + n)).toNat, Nat.mod_eq_of_lt hsum, Nat.or_comm,
      ← Nat.two_pow_add_eq_or_of_lt hlt, hpow, Nat.add_comm, Nat.mod_eq_of_lt]
    have : 2 ^ (8 * n) * (c (pos + n)).toNat ≤ 2 ^ 56 * 255 := Nat.mul_le_mul hle (by omega)
    omega

theorem scatter_apply (c : Contents) (pos : Nat) (val : Word) (n x : Nat) :
    scatter c pos val n x = if pos ≤ x ∧ x < pos + n
      then (val.sshiftRight (8 * (x - pos))).setWidth 8 else c x := by
  induction n generalizing c pos val with
  | zero => rw [scatter, if_neg (by omega)]
  | succ n ih =>
    rw [scatter, ih]
    by_cases h0 : x = pos
    · subst h0
      rw [if_neg (by omega), if_pos (by omega)]
      simp
    · by_cases h1 : pos + 1 ≤ x ∧ x < pos + 1 + n
      · rw [if_pos h1, if_pos (by omega), ← BitVec.sshiftRight_add]
        congr 2
        omega
      · rw [if_neg h1, if_neg (by omega), Function.update_of_ne h0]

theorem sshiftRight_byte (v : Word) {i : Nat} (h : i < 8) :
    (v.sshiftRight (8 * i)).setWidth 8 = byteOf v.toNat i := by
  apply BitVec.eq_of_getLsbD_eq
  intro j hj
  have hpow : 256 ^ i = 2 ^ (8 * i) := by rw [Nat.pow_mul]
  simp only [byteOf, BitVec.getLsbD_setWidth, BitVec.getLsbD_sshiftRight, BitVec.getLsbD_ofNat,
    hpow, Nat.testBit_div_two_pow]
  have hb : j + 8 * i < 64 := by omega
  simp [hj, hb, BitVec.getLsbD, Nat.add_comm (8 * i) j, show ¬ 64 ≤ j by omega]

theorem scatter_eq (c : Contents) (pos : Nat) (val : Word) :
    scatter c pos val 8 = store c pos 8 val.toNat := by
  funext x
  rw [scatter_apply]
  unfold store
  split
  · exact sshiftRight_byte val (by omega)
  · rfl

/-! ## What an access does -/

theorem refused_iff (m : Mem) (a : Word) :
    Refused m a 8 ↔ 2 ^ 63 ≤ a.toNat ∨ (a.toNat + 8 < 2 ^ 63 ∧ m.len < a.toNat + 8) := by
  have h := a.isLt
  have hl := m.len_lt
  unfold Refused
  have h8 : (8 : Word).toNat = 8 := rfl
  rw [BitVec.toInt_eq_toNat_cond, BitVec.toInt_eq_toNat_cond, BitVec.toNat_add, h8]
  constructor
  · intro hr
    by_cases hc : 2 ^ 63 ≤ a.toNat
    · exact Or.inl hc
    · right
      rw [if_pos (by omega), Nat.mod_eq_of_lt (by omega)] at hr
      split at hr <;> omega
  · rintro (hr | ⟨h1, h2⟩)
    · left
      rw [if_neg (by omega)]
      omega
    · right
      rw [if_pos (by omega)]
      omega

theorem readByte_inside {m : Mem} {a : Word} (h : Inside m a 1) :
    readByte m a = some (m.contents a.toNat) := by
  have hl := m.len_lt
  unfold Inside at h
  unfold readByte
  rw [if_neg]
  rw [BitVec.toInt_eq_toNat_cond]
  split <;> omega

theorem readByte_some {m : Mem} {a : Word} {b : Byte} (h : readByte m a = some b) :
    Inside m a 1 ∧ b = m.contents a.toNat := by
  have hin : Inside m a 1 := by
    have ha := a.isLt
    have hl := m.len_lt
    unfold readByte at h
    rw [BitVec.toInt_eq_toNat_cond] at h
    unfold Inside
    by_contra hn
    rw [if_pos] at h
    · simp at h
    · split <;> omega
  rw [readByte_inside hin] at h
  exact ⟨hin, by simpa using h.symm⟩

theorem readWord_inside {m : Mem} {a : Word} (h : Inside m a 8) :
    readWord m a = some (some (wordAt m a)) := by
  have hl := m.len_lt
  have ha : a.toNat + 8 ≤ m.len := h
  unfold readWord
  rw [if_neg (by rw [refused_iff]; omega), if_pos ha, gather_eq _ _ (Nat.le_refl 8)]
  rfl

theorem writeWord_inside {m : Mem} {a v : Word} (h : Inside m a 8) :
    writeWord m a v = some (some (m.put a v)) := by
  have hl := m.len_lt
  have ha : a.toNat + 8 ≤ m.len := h
  unfold writeWord
  rw [if_neg (by rw [refused_iff]; omega), if_pos ha, scatter_eq]
  rfl

theorem writeWord_some {m m' : Mem} {a v : Word} (h : writeWord m a v = some (some m')) :
    Inside m a 8 ∧ m' = m.put a v := by
  have hin : Inside m a 8 := by
    unfold writeWord at h
    split at h
    · simp at h
    · split at h
      · assumption
      · simp at h
  rw [writeWord_inside hin] at h
  exact ⟨hin, by simpa using h.symm⟩

/-! ## The registers -/

/-- The number that means "no register". -/
def REG_NONE : Nibble := 0xF

/-- The stack pointer. -/
def REG_RSP : Nibble := 4

/-- The fifteen program registers. -/
abbrev Regs := Fin 15 → Word

/-- `if (id >= REG_NONE) return 0;` -/
def getReg (r : Regs) (id : Nibble) : Word :=
  if h : id.toNat < 15 then r ⟨id.toNat, h⟩ else 0

/-- `if (id < REG_NONE)` write, else nothing. -/
def setReg (r : Regs) (id : Nibble) (v : Word) : Regs := fun i =>
  if i.val = id.toNat then v else r i

@[simp] theorem getReg_none (r : Regs) : getReg r REG_NONE = 0 := by
  rfl

@[simp] theorem setReg_none (r : Regs) (v : Word) : setReg r REG_NONE v = r := by
  funext i
  have := i.isLt
  have h15 : REG_NONE.toNat = 15 := rfl
  unfold setReg
  rw [if_neg (by omega)]

theorem toNat_lt_of_ne_none {id : Nibble} (h : id ≠ REG_NONE) : id.toNat < 15 := by
  have h1 := id.isLt
  have h2 : id.toNat ≠ 15 := fun he => h (BitVec.eq_of_toNat_eq he)
  omega

theorem getReg_setReg_same (r : Regs) {id : Nibble} (v : Word) (h : id ≠ REG_NONE) :
    getReg (setReg r id v) id = v := by
  simp [getReg, setReg, toNat_lt_of_ne_none h]

theorem getReg_setReg_of_ne (r : Regs) {id j : Nibble} (v : Word) (h : j ≠ id) :
    getReg (setReg r id v) j = getReg r j := by
  have hn : j.toNat ≠ id.toNat := fun he => h (BitVec.eq_of_toNat_eq he)
  simp [getReg, setReg, hn]

theorem setReg_setReg (r : Regs) (id : Nibble) (v w : Word) :
    setReg (setReg r id v) id w = setReg r id w := by
  funext i
  unfold setReg
  split <;> rfl

/-- A write of what is there changes nothing. -/
theorem setReg_getReg (r : Regs) (id : Nibble) : setReg r id (getReg r id) = r := by
  funext i
  have hi := i.isLt
  unfold setReg getReg
  by_cases h : i.val = id.toNat
  · rw [if_pos h, dif_pos (by omega)]
    congr 1
    exact Fin.ext h.symm
  · rw [if_neg h]

end ics_labs.memory
