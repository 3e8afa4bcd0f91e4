-- Little-endian words in a byte memory. A memory is a total function from
-- addresses to bytes; a word of `n` bytes is the number that they spell, least
-- byte first. The laws say what a load sees after a store or a block move.
import Mathlib.Tactic

namespace ics_labs.byte_words

abbrev Byte := BitVec 8

/-- The contents of a memory, one byte for each address. -/
abbrev Contents := Nat → Byte

/-- Byte `i` of the number `v`, the least one first. -/
def byteOf (v i : Nat) : Byte := BitVec.ofNat 8 (v / 256 ^ i)

/-- The number that the `n` bytes from `a` on spell. -/
def load (c : Contents) (a : Nat) : Nat → Nat
  | 0 => 0
  | n + 1 => (c a).toNat + 256 * load c (a + 1) n

/-- The memory after the low `n` bytes of `v` are written from `a` on. -/
def store (c : Contents) (a n v : Nat) : Contents := fun x =>
  if a ≤ x ∧ x < a + n then byteOf v (x - a) else c x

/-- The memory after the `n` bytes from `src` on are moved to `dst`. Every byte is
read before any is written, as `memmove` does. -/
def move (c : Contents) (dst src n : Nat) : Contents := fun x =>
  if dst ≤ x ∧ x < dst + n then c (src + (x - dst)) else c x

/-- Two memories agree on the `n` bytes from `a` on. -/
def Agree (c d : Contents) (a n : Nat) : Prop := ∀ x, a ≤ x → x < a + n → c x = d x

/-! ## Agreement -/

theorem Agree.symm {c d : Contents} {a n : Nat} (h : Agree c d a n) : Agree d c a n :=
  fun x h1 h2 => (h x h1 h2).symm

theorem Agree.trans {c d e : Contents} {a n : Nat} (h : Agree c d a n) (h' : Agree d e a n) :
    Agree c e a n := fun x h1 h2 => (h x h1 h2).trans (h' x h1 h2)

theorem Agree.mono {c d : Contents} {a n b m : Nat} (h : Agree c d a n) (h1 : a ≤ b)
    (h2 : b + m ≤ a + n) : Agree c d b m := fun x hx hx' => h x (by omega) (by omega)

theorem agree_store {c : Contents} {a n v b m : Nat} (h : b + m ≤ a ∨ a + n ≤ b) :
    Agree (store c a n v) c b m := by
  intro x h1 h2
  unfold store
  rw [if_neg (by omega)]

/-! ## Loads -/

theorem load_congr {c d : Contents} {a n : Nat} (h : Agree c d a n) : load c a n = load d a n := by
  induction n generalizing a with
  | zero => rfl
  | succ n ih =>
    simp only [load]
    rw [h a (Nat.le_refl a) (by omega), ih (h.mono (by omega) (by omega))]

theorem load_lt (c : Contents) (a n : Nat) : load c a n < 256 ^ n := by
  induction n generalizing a with
  | zero => simp [load]
  | succ n ih =>
    have h1 := ih (a + 1)
    have h2 := (c a).isLt
    simp only [load, Nat.pow_succ]
    omega

/-- The last byte of a word is its most significant one. -/
theorem load_snoc (c : Contents) (a n : Nat) :
    load c a (n + 1) = load c a n + 256 ^ n * (c (a + n)).toNat := by
  induction n generalizing a with
  | zero => simp [load]
  | succ n ih =>
    rw [load, ih (a + 1), load, Nat.pow_succ, show a + 1 + n = a + (n + 1) by omega]
    ring

/-- A row of bytes in two parts. -/
theorem load_append (c : Contents) (a n m : Nat) :
    load c a (n + m) = load c a n + 256 ^ n * load c (a + n) m := by
  induction m with
  | zero => simp [load]
  | succ m ih =>
    rw [← Nat.add_assoc, load_snoc, ih, load_snoc, Nat.pow_add, Nat.add_assoc a n m]
    ring

theorem byteOf_load (c : Contents) {a n i : Nat} (h : i < n) :
    byteOf (load c a n) i = c (a + i) := by
  induction n generalizing a i with
  | zero => omega
  | succ n ih =>
    have hb := (c a).isLt
    cases i with
    | zero =>
      apply BitVec.eq_of_toNat_eq
      simp only [byteOf, load, BitVec.toNat_ofNat, Nat.pow_zero, Nat.div_one, Nat.add_zero]
      omega
    | succ i =>
      have hs := ih (a := a + 1) (i := i) (by omega)
      have hd : ((c a).toNat + 256 * load c (a + 1) n) / 256 ^ (i + 1) =
          load c (a + 1) n / 256 ^ i := by
        rw [Nat.pow_succ', ← Nat.div_div_eq_div_mul]
        congr 1
        omega
      simp only [byteOf, load, hd] at hs ⊢
      rw [hs]
      congr 1
      omega

theorem byteOf_mod (v n i : Nat) (h : i < n) : byteOf (v % 256 ^ n) i = byteOf v i := by
  apply BitVec.eq_of_toNat_eq
  simp only [byteOf, BitVec.toNat_ofNat]
  obtain ⟨k, rfl⟩ : ∃ k, n = i + 1 + k := ⟨n - i - 1, by omega⟩
  rw [Nat.pow_add, Nat.pow_succ, Nat.mul_assoc, Nat.mod_mul_right_div_self, Nat.mod_mul_right_mod]

/-- A number of `n` bytes is determined by its bytes. -/
theorem eq_of_byteOf {v w n : Nat} (hv : v < 256 ^ n) (hw : w < 256 ^ n)
    (h : ∀ i < n, byteOf v i = byteOf w i) : v = w := by
  induction n generalizing v w with
  | zero => simp at hv hw; omega
  | succ n ih =>
    have h0 := congrArg BitVec.toNat (h 0 (by omega))
    simp only [byteOf, BitVec.toNat_ofNat, Nat.pow_zero, Nat.div_one] at h0
    have hrec : v / 256 = w / 256 := by
      rw [Nat.pow_succ] at hv hw
      apply ih (Nat.div_lt_of_lt_mul (by omega)) (Nat.div_lt_of_lt_mul (by omega))
      intro i hi
      have := h (i + 1) (by omega)
      simp only [byteOf, Nat.pow_succ, Nat.mul_comm _ 256, ← Nat.div_div_eq_div_mul] at this ⊢
      exact this
    omega

/-- Only the low `n` bytes of a number are stored. -/
theorem store_mod (c : Contents) (a n v : Nat) : store c a n (v % 256 ^ n) = store c a n v := by
  funext x
  unfold store
  split
  · exact byteOf_mod v n _ (by omega)
  · rfl

/-- A word reads as `v` when each of its bytes is the byte of `v`. -/
theorem load_eq_of_bytes {c : Contents} {a n v : Nat} (hv : v < 256 ^ n)
    (h : ∀ i < n, c (a + i) = byteOf v i) : load c a n = v :=
  eq_of_byteOf (load_lt c a n) hv fun i hi => by rw [byteOf_load c hi, h i hi]

/-! ## Stores that do not touch -/

theorem store_comm (c : Contents) {a n v b m w : Nat} (h : a + n ≤ b ∨ b + m ≤ a) :
    store (store c a n v) b m w = store (store c b m w) a n v := by
  funext x
  unfold store
  by_cases h1 : b ≤ x ∧ x < b + m
  · rw [if_pos h1, if_neg (by omega), if_pos h1]
  · rw [if_neg h1, if_neg h1]

/-! ## A load after a store or a move -/

theorem load_store_same (c : Contents) (a n v : Nat) :
    load (store c a n v) a n = v % 256 ^ n := by
  apply load_eq_of_bytes (Nat.mod_lt _ (by positivity))
  intro i hi
  rw [byteOf_mod v n i hi]
  unfold store
  rw [if_pos (by omega), Nat.add_sub_cancel_left]

theorem load_store_of_disjoint {c : Contents} {a n v b m : Nat} (h : b + m ≤ a ∨ a + n ≤ b) :
    load (store c a n v) b m = load c b m := load_congr (agree_store h)

theorem move_apply {c : Contents} {dst src n i : Nat} (h : i < n) :
    move c dst src n (dst + i) = c (src + i) := by
  unfold move
  rw [if_pos (by omega), Nat.add_sub_cancel_left]

end ics_labs.byte_words
