-- ncopy.ys of lab6 copies a block of words and counts the positive ones, ten words
-- a turn. It computes what ncopy.c computes, wherever it is loaded.
import IcsLabs.Y86Code

open ics_labs.byte_words ics_labs.memory ics_labs.isa ics_labs.runs ics_labs.y86code

namespace ics_labs.copy_words

/-! ## ncopy.c -/

/-- The loop of `ncopy`, `len` turns of it. -/
def ncopyLoop (m : Mem) (src dst : Word) : Nat → Word → Word × Mem
  | 0, count => (count, m)
  | len + 1, count =>
    let val := wordAt m src
    let count := if positive val then count + 1 else count
    ncopyLoop (m.put dst val) (src + 8) (dst + 8) len count

/-- The count and the memory after `ncopy(src, dst, len)`. -/
def ncopy (m : Mem) (src dst len : Word) : Word × Mem := ncopyLoop m src dst len.toInt.toNat 0

/-! ## ncopy.ys -/

inductive Label
  | ncopy | Loop7 | Loop8 | Loop9 | Loop10 | Loop11 | Loop12 | Loop13 | Loop14 | Loop15 | Loop16
  | Npos | Less | T000 | T00 | T0 | T1 | T2 | T3 | T4 | T5 | T6 | T7 | JT | Done | End
  deriving DecidableEq, Repr

def RAX : Nibble := 0
def RDX : Nibble := 2
def RSI : Nibble := 6
def RDI : Nibble := 7
def R8 : Nibble := 8
def R9 : Nibble := 9
def R10 : Nibble := 10
def R11 : Nibble := 11

def xorq (rA rB : Nibble) : Stmt Label := .ins (.opq A_XOR rA rB)
def andq (rA rB : Nibble) : Stmt Label := .ins (.opq A_AND rA rB)
def addq (rA rB : Nibble) : Stmt Label := .ins (.opq A_ADD rA rB)
def iaddq (v : Word) (rB : Nibble) : Stmt Label := .ins (.iaddq (.num v) rB)
def mrmovq (d : Word) (rB rA : Nibble) : Stmt Label := .ins (.mrmovq (.num d) rB rA)
def rmmovq (rA : Nibble) (d : Word) (rB : Nibble) : Stmt Label := .ins (.rmmovq rA (.num d) rB)
def jmp (l : Label) : Stmt Label := .ins (.jmp C_YES l)
def jle (l : Label) : Stmt Label := .ins (.jmp C_LE l)
def jl (l : Label) : Stmt Label := .ins (.jmp C_L l)
def jge (l : Label) : Stmt Label := .ins (.jmp C_GE l)
def pushq (rA : Nibble) : Stmt Label := .ins (.pushq rA)
def ret : Stmt Label := .ins .ret

def ncopy_ys : List (Stmt Label) :=
  [.label .ncopy, xorq RAX RAX, iaddq (-10) RDX, jl .Less,
   .label .Loop7, mrmovq 72 RDI R10, mrmovq 64 RDI R11, mrmovq 56 RDI R8, rmmovq R10 72 RSI,
   andq R10 R10, jle .Loop8, iaddq 1 RAX,
   .label .Loop8, rmmovq R11 64 RSI, andq R11 R11, jle .Loop9, iaddq 1 RAX,
   .label .Loop9, mrmovq 48 RDI R9, mrmovq 40 RDI R10, rmmovq R8 56 RSI, mrmovq 32 RDI R11,
   andq R8 R8, jle .Loop10, iaddq 1 RAX,
   .label .Loop10, rmmovq R9 48 RSI, andq R9 R9, jle .Loop11, iaddq 1 RAX,
   .label .Loop11, rmmovq R10 40 RSI, andq R10 R10, jle .Loop12, iaddq 1 RAX,
   .label .Loop12, rmmovq R11 32 RSI, andq R11 R11, jle .Loop13, iaddq 1 RAX,
   .label .Loop13, mrmovq 24 RDI R8, mrmovq 16 RDI R9, mrmovq 8 RDI R10, rmmovq R8 24 RSI,
   mrmovq 0 RDI R11, andq R8 R8, jle .Loop14, iaddq 1 RAX,
   .label .Loop14, rmmovq R9 16 RSI, andq R9 R9, jle .Loop15, iaddq 1 RAX,
   .label .Loop15, rmmovq R10 8 RSI, andq R10 R10, jle .Loop16, iaddq 1 RAX,
   .label .Loop16, rmmovq R11 0 RSI, andq R11 R11, jle .Npos, iaddq 1 RAX,
   .label .Npos, iaddq 80 RDI, iaddq 80 RSI, iaddq (-10) RDX, jge .Loop7,
   .label .Less, addq RDX RDX, addq RDX RDX, addq RDX RDX, .ins (.mrmovq (.addr .JT) RDX RDX),
   pushq RDX, ret,
   .label .T000, .label .T00, mrmovq 64 RDI R10, rmmovq R10 64 RSI, andq R10 R10, jle .T0,
   iaddq 1 RAX,
   .label .T0, mrmovq 56 RDI R10, rmmovq R10 56 RSI, andq R10 R10, jle .T1, iaddq 1 RAX,
   .label .T1, mrmovq 48 RDI R10, rmmovq R10 48 RSI, andq R10 R10, jle .T2, iaddq 1 RAX,
   .label .T2, mrmovq 40 RDI R10, rmmovq R10 40 RSI, andq R10 R10, jle .T3, iaddq 1 RAX,
   .label .T3, mrmovq 32 RDI R10, rmmovq R10 32 RSI, andq R10 R10, jle .T4, iaddq 1 RAX,
   .label .T4, mrmovq 24 RDI R10, rmmovq R10 24 RSI, andq R10 R10, jle .T5, iaddq 1 RAX,
   .label .T5, mrmovq 16 RDI R9, rmmovq R9 16 RSI, andq R9 R9, jle .T6, iaddq 1 RAX,
   .label .T6, mrmovq 8 RDI R10, rmmovq R10 8 RSI, andq R10 R10, jle .T7, iaddq 1 RAX,
   .label .T7, mrmovq 0 RDI R10, rmmovq R10 0 RSI, andq R10 R10, jle .Done, iaddq 1 RAX,
   jmp .Done, .align 8, .quad .Done, .quad .T7, .quad .T6, .quad .T5, .quad .T4, .quad .T3,
   .quad .T2, .quad .T1, .quad .T0, .quad .T00,
   .label .JT, .quad .Done,
   .label .Done, ret,
   .label .End]

/-! ## The regions -/

/-- Word `k` of a block. -/
def addr (a : Word) (k : Nat) : Word := a + BitVec.ofNat 64 (8 * k)

/-- The `n` bytes from `a` on and the `k` bytes from `b` on do not overlap. -/
def Apart (a n b k : Nat) : Prop := a + n ≤ b ∨ b + k ≤ a

/-- The program is loaded at `base`, and the two blocks of `n` words and the two words of the
stack have places of their own. -/
structure Regions (base : Nat) (m : Mem) (src dst sp : Word) (n : Nat) : Prop where
  loaded : Loaded base ncopy_ys m
  src_in : src.toNat + 8 * n ≤ m.len
  dst_in : dst.toNat + 8 * n ≤ m.len
  sp_in : 8 ≤ sp.toNat ∧ sp.toNat + 8 ≤ m.len
  src_dst : Apart src.toNat (8 * n) dst.toNat (8 * n)
  src_sp : Apart src.toNat (8 * n) (sp.toNat - 8) 16
  dst_sp : Apart dst.toNat (8 * n) (sp.toNat - 8) 16
  dst_code : Apart dst.toNat (8 * n) base (after base ncopy_ys - base)
  sp_code : Apart (sp.toNat - 8) 16 base (after base ncopy_ys - base)

section
variable {base : Nat} {m0 : Mem} {src dst sp : Word} {n : Nat}

theorem addr_toNat {a : Word} {k : Nat} (hin : a.toNat + 8 * n ≤ m0.len) (hk : k < n) :
    (addr a k).toNat = a.toNat + 8 * k := by
  have hl := m0.len_lt
  unfold addr
  rw [BitVec.toNat_add, BitVec.toNat_ofNat, Nat.mod_eq_of_lt (show 8 * k < 2 ^ 64 by omega),
    Nat.mod_eq_of_lt (by omega)]

theorem addr_add (a : Word) (j k : Nat) :
    BitVec.ofNat 64 (8 * j) + addr a k = addr a (k + j) := by
  unfold addr
  rw [Nat.mul_add, BitVec.ofNat_add, BitVec.add_comm, BitVec.add_assoc]

variable (m0 src dst sp n) in
/-- The words of the destination below `lo` and from `mid` to `hi` are copied, and nothing
else is changed, the word under the stack pointer apart. -/
structure Copied (lo mid hi : Nat) (m : Mem) : Prop where
  len : m.len = m0.len
  words : ∀ k < n, k < lo ∨ mid ≤ k ∧ k < hi → wordAt m (addr dst k) = wordAt m0 (addr src k)
  frame : ∀ x, ¬(dst.toNat ≤ x ∧ x < dst.toNat + 8 * n) → ¬(sp.toNat - 8 ≤ x ∧ x < sp.toNat) →
    m.contents x = m0.contents x

variable {lo mid hi : Nat} {m : Mem}

theorem wordAt_frame (hR : Regions base m0 src dst sp n) (h : Copied m0 src dst sp n lo mid hi m)
    {a : Word} (hd : Apart a.toNat 8 dst.toNat (8 * n)) (hs : Apart a.toNat 8 (sp.toNat - 8) 8) :
    wordAt m a = wordAt m0 a := by
  have hsp := hR.sp_in
  apply wordAt_congr
  intro x h1 h2
  unfold Apart at hd hs
  exact h.frame x (by omega) (by omega)

theorem Copied.source (hR : Regions base m0 src dst sp n) (h : Copied m0 src dst sp n lo mid hi m)
    {k : Nat} (hk : k < n) : wordAt m (addr src k) = wordAt m0 (addr src k) := by
  have h1 := hR.src_dst
  have h2 := hR.src_sp
  unfold Apart at h1 h2
  apply wordAt_frame hR h <;> rw [addr_toNat hR.src_in hk] <;> unfold Apart <;> omega

theorem Copied.stack (hR : Regions base m0 src dst sp n) (h : Copied m0 src dst sp n lo mid hi m) :
    wordAt m sp = wordAt m0 sp := by
  have h1 := hR.dst_sp
  have h2 := hR.sp_in
  unfold Apart at h1
  apply wordAt_frame hR h <;> unfold Apart <;> omega

theorem Copied.loaded (hR : Regions base m0 src dst sp n)
    (h : Copied m0 src dst sp n lo mid hi m) : Loaded base ncopy_ys m := by
  have h1 := hR.dst_code
  have h2 := hR.sp_code
  have h3 := hR.sp_in
  unfold Apart at h1 h2
  refine ⟨lies_congr ?_ hR.loaded.lies, by rw [h.len]; exact hR.loaded.inside⟩
  intro x hx hx'
  exact (h.frame x (by omega) (by omega)).symm

/-- The next word of the block is stored. -/
theorem Copied.store (hR : Regions base m0 src dst sp n) {k : Nat} (hk : k < n)
    (h : Copied m0 src dst sp n lo (k + 1) hi m) :
    Copied m0 src dst sp n lo k hi (m.put (addr dst k) (wordAt m0 (addr src k))) where
  len := h.len
  words := by
    intro j hj hcase
    have hak := addr_toNat hR.dst_in hk
    have haj := addr_toNat hR.dst_in hj
    by_cases hjk : j = k
    · subst hjk
      exact wordAt_put_same m _ _
    · rw [wordAt_put_of_disjoint (by omega)]
      exact h.words j hj (by omega)
  frame := by
    intro x hd hs
    have hak := addr_toNat hR.dst_in hk
    rw [put_other (by omega)]
    exact h.frame x hd hs

/-- A push changes the word under the stack pointer only. -/
theorem Copied.push (hR : Regions base m0 src dst sp n) (h : Copied m0 src dst sp n lo mid hi m)
    (v : Word) : Copied m0 src dst sp n lo mid hi (m.put (sp - 8) v) := by
  have h1 := hR.dst_sp
  have h2 := hR.sp_in
  have h3 : (sp - 8).toNat = sp.toNat - 8 := by
    rw [BitVec.toNat_sub_of_le (by rw [BitVec.le_def]; exact h2.1)]
    rfl
  unfold Apart at h1
  refine ⟨h.len, fun k hk hcase => ?_, fun x hd hs => ?_⟩
  · have hak := addr_toNat hR.dst_in hk
    rw [wordAt_put_of_disjoint (by omega)]
    exact h.words k hk hcase
  · rw [put_other (by omega)]
    exact h.frame x hd hs

/-! ## The blocks of the program -/

variable (m0 src) in
/-- Word `k` of the source is positive. -/
def Pos (k : Nat) : Prop := positive (wordAt m0 (addr src k)) = true

instance (k : Nat) : Decidable (Pos m0 src k) := inferInstanceAs (Decidable (_ = _))

variable (m0 src) in
/-- The positive words below `lo` and from `cnt` to `hi`. -/
def total (lo cnt hi : Nat) : Word :=
  BitVec.ofNat 64 (Nat.count (Pos m0 src) lo + (Nat.count (Pos m0 src) hi - Nat.count (Pos m0 src) cnt))

/-- One word more is counted. -/
theorem total_step {k : Nat} (hk : k < hi) : total m0 src lo k hi =
    total m0 src lo (k + 1) hi + if positive (wordAt m0 (addr src k)) then 1 else 0 := by
  have hmono : Nat.count (Pos m0 src) (k + 1) ≤ Nat.count (Pos m0 src) hi :=
    Nat.count_monotone _ hk
  have hsucc := Nat.count_succ (Pos m0 src) k
  unfold total
  by_cases hp : positive (wordAt m0 (addr src k)) = true
  · rw [if_pos (show Pos m0 src k from hp)] at hsucc
    rw [if_pos hp, show (1 : Word) = BitVec.ofNat 64 1 from rfl, ← BitVec.ofNat_add]
    exact congrArg (BitVec.ofNat 64) (by omega)
  · rw [if_neg (show ¬Pos m0 src k from hp)] at hsucc
    rw [if_neg hp, hsucc, Nat.add_zero]
    exact (BitVec.add_zero _).symm

variable (m0 src dst sp) in
/-- What the registers hold while a block of words is handled. -/
structure Held (lo cnt hi : Nat) (d : Word) (r : Regs) : Prop where
  rdi : getReg r RDI = addr src lo
  rsi : getReg r RSI = addr dst lo
  rdx : getReg r RDX = d
  rsp : getReg r REG_RSP = sp
  rax : getReg r RAX = total m0 src lo cnt hi

/-- The registers that hold words of the source. -/
def Scratch (id : Nibble) : Prop := id = R8 ∨ id = R9 ∨ id = R10 ∨ id = R11

theorem Scratch.ne {id : Nibble} (h : Scratch id) :
    id ≠ REG_NONE ∧ RDI ≠ id ∧ RSI ≠ id ∧ RDX ≠ id ∧ REG_RSP ≠ id ∧ RAX ≠ id := by
  rcases h with rfl | rfl | rfl | rfl <;> decide

variable (base m0 src dst sp n) in
/-- The machine is about to run `code`; the words from `mid` on are stored and those from
`cnt` on are counted, and `vals` says which words are in registers. -/
def Block (code : List (Stmt Label)) (lo mid cnt hi : Nat) (d : Word) (vals : List (Nibble × Nat))
    (s : State) : Prop :=
  ∃ r m cc, At base ncopy_ys code r m cc s ∧ Copied m0 src dst sp n lo mid hi m ∧
    Held m0 src dst sp lo cnt hi d r ∧
    ∀ p ∈ vals, Scratch p.1 ∧ getReg r p.1 = wordAt m0 (addr src (lo + p.2))

variable {cnt : Nat} {d : Word} {r : Regs}

theorem Held.scratch (h : Held m0 src dst sp lo cnt hi d r) {id : Nibble} (hid : Scratch id)
    (v : Word) : Held m0 src dst sp lo cnt hi d (setReg r id v) := by
  obtain ⟨-, h1, h2, h3, h4, h5⟩ := hid.ne
  exact ⟨by rw [getReg_setReg_of_ne r v h1, h.rdi], by rw [getReg_setReg_of_ne r v h2, h.rsi],
    by rw [getReg_setReg_of_ne r v h3, h.rdx], by rw [getReg_setReg_of_ne r v h4, h.rsp],
    by rw [getReg_setReg_of_ne r v h5, h.rax]⟩

/-- The condition of `jle` behind `andq` of a register with itself. -/
theorem andq_le (v : Word) : cond_holds (compute_cc A_AND v v) C_LE = !positive v := by
  have hand : compute_alu A_AND v v = v := BitVec.and_self
  have hsign : (negative v || v == 0) = !positive v := by
    unfold negative positive
    rw [Bool.eq_iff_iff]
    simp only [Bool.or_eq_true, Bool.not_eq_true', BitVec.slt_iff_toInt_lt, beq_iff_eq,
      ← Bool.not_eq_true, ← BitVec.toInt_inj]
    omega
  unfold compute_cc cond_holds
  rw [hand, ← hsign]
  simp [A_AND, A_ADD, A_SUB, C_LE, C_YES]

variable {rest : List (Stmt Label)} {vals : List (Nibble × Nat)} {rA : Nibble} {c : Word}

/-- `mrmovq c(%rdi), rA` -/
theorem load_rule (hR : Regions base m0 src dst sp n) (j : Nat) (hc : c = BitVec.ofNat 64 (8 * j))
    (hA : Scratch rA) (hj : lo + j < n) :
    Leads (good step_state) (Block base m0 src dst sp n (mrmovq c RDI rA :: rest) lo mid cnt hi d vals)
      (Block base m0 src dst sp n rest lo mid cnt hi d
        ((rA, j) :: vals.filter fun p => p.1 ≠ rA)) := by
  rintro s ⟨r, m, cc, hat, hcop, hheld, hvals⟩
  have haddr : c + getReg r RDI = addr src (lo + j) := by
    rw [hc, hheld.rdi, addr_add]
  have hin : Inside m (c + getReg r RDI) 8 := by
    have := hR.src_in
    unfold Inside
    rw [haddr, addr_toNat hR.src_in hj, hcop.len]
    omega
  obtain ⟨k, t, hrun, ht⟩ := mrmovq_rule (.num c) hA.ne.1 (by decide) (hcop.loaded hR) hin s hat
  refine ⟨k, t, hrun, _, _, _, ht, hcop, hheld.scratch hA _, ?_⟩
  intro p hp
  rcases List.mem_cons.mp hp with rfl | hp
  · rw [getReg_setReg_same _ _ hA.ne.1]
    refine ⟨hA, ?_⟩
    change wordAt m (c + getReg r RDI) = _
    rw [haddr, hcop.source hR hj]
  · obtain ⟨hp, hne⟩ := List.mem_filter.mp hp
    rw [getReg_setReg_of_ne _ _ (by simpa using hne)]
    exact hvals p hp

/-- `rmmovq rA, c(%rsi)` -/
theorem store_rule (hR : Regions base m0 src dst sp n) (j : Nat) (hc : c = BitVec.ofNat 64 (8 * j))
    (hj : lo + j < n) (hv : (rA, j) ∈ vals) :
    Leads (good step_state)
      (Block base m0 src dst sp n (rmmovq rA c RSI :: rest) lo (lo + j + 1) cnt hi d vals)
      (Block base m0 src dst sp n rest lo (lo + j) cnt hi d vals) := by
  rintro s ⟨r, m, cc, hat, hcop, hheld, hvals⟩
  have haddr : c + getReg r RSI = addr dst (lo + j) := by
    rw [hc, hheld.rsi, addr_add]
  have hin : Inside m (c + getReg r RSI) 8 := by
    have := hR.dst_in
    unfold Inside
    rw [haddr, addr_toNat hR.dst_in hj, hcop.len]
    omega
  obtain ⟨hA, hval⟩ := hvals _ hv
  obtain ⟨k, t, hrun, ht⟩ := rmmovq_rule (.num c) hA.ne.1 (by decide) (hcop.loaded hR) hin s hat
  refine ⟨k, t, hrun, _, _, _, ht, ?_, hheld, hvals⟩
  change Copied m0 src dst sp n lo (lo + j) hi (m.put (c + getReg r RSI) (getReg r rA))
  rw [haddr, hval]
  exact hcop.store hR hj

/-- `andq rA, rA`, `jle l` and `iaddq $1, %rax`. -/
theorem count_rule (hR : Regions base m0 src dst sp n) (j : Nat) (hj : lo + j < hi)
    (hv : (rA, j) ∈ vals) {l : Label} (hl : ncopy_ys.any (Stmt.declares l)) {Q : State → Prop}
    (h1 : Leads (good step_state)
      (Block base m0 src dst sp n rest lo mid (lo + j) hi d vals) Q)
    (h2 : Leads (good step_state)
      (Block base m0 src dst sp n (behind l ncopy_ys) lo mid (lo + j) hi d vals) Q) :
    Leads (good step_state) (Block base m0 src dst sp n (andq rA rA :: jle l :: iaddq 1 RAX :: rest)
      lo mid (lo + j + 1) hi d vals) Q := by
  rintro s ⟨r, m, cc, hat, hcop, hheld, hvals⟩
  have hm := hcop.loaded hR
  have hval : getReg r rA = wordAt m0 (addr src (lo + j)) := (hvals _ hv).2
  have htotal : total m0 src lo (lo + j) hi = _ := total_step hj
  -- `andq` leaves the register as it is
  have hand : Leads (good step_state) (At base ncopy_ys (andq rA rA :: jle l :: iaddq 1 RAX :: rest)
    r m cc) _ := opq_rule A_AND rA rA hm
  have hself : compute_alu A_AND (getReg r rA) (getReg r rA) = getReg r rA := BitVec.and_self
  rw [hself, setReg_getReg] at hand
  have hcond := andq_le (getReg r rA)
  rw [hval] at hcond hand
  by_cases hp : positive (wordAt m0 (addr src (lo + j))) = true
  · rw [hp] at hcond
    rw [if_pos hp] at htotal
    refine ((hand.trans (jmp_not_rule hm hcond)).trans ((iaddq_rule (.num 1) RAX (by decide) hm).trans
      (Leads.trans (Leads.of_imp ?_) h1))) s hat
    intro t ht
    refine ⟨_, _, _, ht, hcop, ?_, fun p hp => ?_⟩
    · refine ⟨hheld.rdi, hheld.rsi, hheld.rdx, hheld.rsp, ?_⟩
      rw [htotal, getReg_setReg_same _ _ (by decide), hheld.rax]
      rfl
    · obtain ⟨hA, hvalp⟩ := hvals p hp
      rw [getReg_setReg_of_ne _ _ hA.ne.2.2.2.2.2.symm]
      exact ⟨hA, hvalp⟩
  · rw [Bool.eq_false_of_not_eq_true hp] at hcond
    rw [if_neg hp] at htotal
    refine ((hand.trans (jmp_rule hm hl hcond)).trans (Leads.trans (Leads.of_imp ?_) h2)) s hat
    intro t ht
    refine ⟨_, _, _, ht, hcop, ⟨hheld.rdi, hheld.rsi, hheld.rdx, hheld.rsp, ?_⟩, hvals⟩
    rw [htotal, hheld.rax]
    exact (BitVec.add_zero _).symm

theorem Block.skip {l : Label} {s : State}
    (h : Block base m0 src dst sp n (.label l :: rest) lo mid cnt hi d vals s) :
    Block base m0 src dst sp n rest lo mid cnt hi d vals s := by
  obtain ⟨r, m, cc, hat, h⟩ := h
  exact ⟨r, m, cc, hat.skip, h⟩

/-- The three instructions in front of the label that `jle` goes to. -/
theorem count_on_rule (hR : Regions base m0 src dst sp n) (j : Nat) (hj : lo + j < hi)
    (hv : (rA, j) ∈ vals) {l : Label} (hl : ncopy_ys.any (Stmt.declares l))
    (hb : behind l ncopy_ys = rest) :
    Leads (good step_state)
      (Block base m0 src dst sp n (andq rA rA :: jle l :: iaddq 1 RAX :: .label l :: rest)
        lo mid (lo + j + 1) hi d vals)
      (Block base m0 src dst sp n rest lo mid (lo + j) hi d vals) := by
  apply count_rule hR j hj hv hl
  · exact Leads.of_imp fun s => Block.skip
  · rw [hb]
    exact Leads.refl

theorem Block.forget {s : State}
    (h : Block base m0 src dst sp n rest lo mid cnt hi d vals s) :
    Block base m0 src dst sp n rest lo mid cnt hi d [] s := by
  obtain ⟨r, m, cc, hat, hcop, hheld, -⟩ := h
  exact ⟨r, m, cc, hat, hcop, hheld, fun p hp => absurd hp List.not_mem_nil⟩

theorem scratch_all : Scratch R8 ∧ Scratch R9 ∧ Scratch R10 ∧ Scratch R11 :=
  ⟨Or.inl rfl, Or.inr (Or.inl rfl), Or.inr (Or.inr (Or.inl rfl)), Or.inr (Or.inr (Or.inr rfl))⟩

/-- Ten words, the last one first. -/
theorem ten_words (hR : Regions base m0 src dst sp n) (hlo : lo + 10 ≤ n) :
    Leads (good step_state)
      (Block base m0 src dst sp n (behind .Loop7 ncopy_ys) lo (lo + 10) (lo + 10) (lo + 10) d [])
      (Block base m0 src dst sp n (behind .Npos ncopy_ys) lo lo lo (lo + 10) d []) := by
  obtain ⟨h8, h9, h10, h11⟩ := scratch_all
  refine (load_rule hR 9 rfl h10 (by omega)).trans ?_
  refine (load_rule hR 8 rfl h11 (by omega)).trans ?_
  refine (load_rule hR 7 rfl h8 (by omega)).trans ?_
  refine (store_rule hR 9 rfl (by omega) (by decide)).trans ?_
  refine (count_on_rule hR 9 (by omega) (by decide) rfl rfl).trans ?_
  refine (store_rule hR 8 rfl (by omega) (by decide)).trans ?_
  refine (count_on_rule hR 8 (by omega) (by decide) rfl rfl).trans ?_
  refine (load_rule hR 6 rfl h9 (by omega)).trans ?_
  refine (load_rule hR 5 rfl h10 (by omega)).trans ?_
  refine (store_rule hR 7 rfl (by omega) (by decide)).trans ?_
  refine (load_rule hR 4 rfl h11 (by omega)).trans ?_
  refine (count_on_rule hR 7 (by omega) (by decide) rfl rfl).trans ?_
  refine (store_rule hR 6 rfl (by omega) (by decide)).trans ?_
  refine (count_on_rule hR 6 (by omega) (by decide) rfl rfl).trans ?_
  refine (store_rule hR 5 rfl (by omega) (by decide)).trans ?_
  refine (count_on_rule hR 5 (by omega) (by decide) rfl rfl).trans ?_
  refine (store_rule hR 4 rfl (by omega) (by decide)).trans ?_
  refine (count_on_rule hR 4 (by omega) (by decide) rfl rfl).trans ?_
  refine (load_rule hR 3 rfl h8 (by omega)).trans ?_
  refine (load_rule hR 2 rfl h9 (by omega)).trans ?_
  refine (load_rule hR 1 rfl h10 (by omega)).trans ?_
  refine (store_rule hR 3 rfl (by omega) (by decide)).trans ?_
  refine (load_rule hR 0 rfl h11 (by omega)).trans ?_
  refine (count_on_rule hR 3 (by omega) (by decide) rfl rfl).trans ?_
  refine (store_rule hR 2 rfl (by omega) (by decide)).trans ?_
  refine (count_on_rule hR 2 (by omega) (by decide) rfl rfl).trans ?_
  refine (store_rule hR 1 rfl (by omega) (by decide)).trans ?_
  refine (count_on_rule hR 1 (by omega) (by decide) rfl rfl).trans ?_
  refine (store_rule hR 0 rfl (by omega) (by decide)).trans ?_
  refine (count_on_rule hR 0 (by omega) (by decide) rfl rfl).trans ?_
  exact Leads.of_imp fun s => Block.forget

/-- One word of the rest, handled on its own. -/
theorem one_word (hR : Regions base m0 src dst sp n) (j : Nat) (hc : c = BitVec.ofNat 64 (8 * j))
    (hA : Scratch rA) (hj : lo + j < hi) (hn : hi ≤ n) {l : Label}
    (hl : ncopy_ys.any (Stmt.declares l)) (hb : behind l ncopy_ys = rest) :
    Leads (good step_state)
      (Block base m0 src dst sp n (mrmovq c RDI rA :: rmmovq rA c RSI :: andq rA rA :: jle l ::
        iaddq 1 RAX :: .label l :: rest) lo (lo + j + 1) (lo + j + 1) hi d [])
      (Block base m0 src dst sp n rest lo (lo + j) (lo + j) hi d []) := by
  refine (load_rule hR j hc hA (by omega)).trans ?_
  refine (store_rule hR j hc (by omega) List.mem_cons_self).trans ?_
  refine (count_on_rule hR j hj List.mem_cons_self hl hb).trans ?_
  exact Leads.of_imp fun s => Block.forget

/-- Where the program goes on when `k` words are left, `k` below ten. -/
def table : List Label := [.Done, .T7, .T6, .T5, .T4, .T3, .T2, .T1, .T0, .T00]

/-- The last word ends at `Done`, whether it is positive or not. -/
theorem last_word (hR : Regions base m0 src dst sp n) (hlo : lo < hi) (hn : hi ≤ n) :
    Leads (good step_state)
      (Block base m0 src dst sp n (behind .T7 ncopy_ys) lo (lo + 1) (lo + 1) hi d [])
      (Block base m0 src dst sp n (behind .Done ncopy_ys) lo lo lo hi d []) := by
  refine (load_rule hR 0 rfl scratch_all.2.2.1 (by omega)).trans ?_
  refine (store_rule hR 0 rfl (by omega) (by decide)).trans ?_
  apply count_rule hR 0 (by omega) (by decide) rfl
  · rintro s ⟨r, m, cc, hat, hcop, hheld, -⟩
    obtain ⟨k, t, hrun, ht⟩ := jmp_rule (hcop.loaded hR) (l := Label.Done) rfl rfl s hat
    exact ⟨k, t, hrun, r, m, cc, ht, hcop, hheld, fun p hp => absurd hp List.not_mem_nil⟩
  · exact Leads.of_imp fun s => Block.forget

-- the labels of the rest stand more than a hundred statements deep
set_option maxRecDepth 2000 in
/-- The words that are left, from an entry of the table on. -/
theorem the_rest (hR : Regions base m0 src dst sp n) (hn : hi ≤ n) {k : Nat} {l : Label}
    (hk : lo + k ≤ hi) (hl : table[k]? = some l) :
    Leads (good step_state)
      (Block base m0 src dst sp n (behind l ncopy_ys) lo (lo + k) (lo + k) hi d [])
      (Block base m0 src dst sp n (behind .Done ncopy_ys) lo lo lo hi d []) := by
  obtain ⟨-, h9, h10, -⟩ := scratch_all
  have hlt : k < 10 := (List.getElem?_eq_some_iff.mp hl).1
  induction k generalizing l with
  | zero =>
    cases hl
    exact Leads.refl
  | succ k ih =>
    have hj : lo + k < hi := by omega
    obtain ⟨l', hl'⟩ : ∃ l', table[k]? = some l' :=
      ⟨_, List.getElem?_eq_getElem (show k < table.length by change k < 10; omega)⟩
    have hrest := ih (by omega) hl' (by omega)
    have hk9 : k < 9 := by omega
    -- from `k + 1` words left to `k`
    interval_cases k <;> cases hl <;> cases hl'
    · exact last_word hR hj hn
    · exact (one_word hR 1 rfl h10 hj hn (l := .T7) rfl rfl).trans hrest
    · exact (one_word hR 2 rfl h9 hj hn (l := .T6) rfl rfl).trans hrest
    · exact (one_word hR 3 rfl h10 hj hn (l := .T5) rfl rfl).trans hrest
    · exact (one_word hR 4 rfl h10 hj hn (l := .T4) rfl rfl).trans hrest
    · exact (one_word hR 5 rfl h10 hj hn (l := .T3) rfl rfl).trans hrest
    · exact (one_word hR 6 rfl h10 hj hn (l := .T2) rfl rfl).trans hrest
    · exact (one_word hR 7 rfl h10 hj hn (l := .T1) rfl rfl).trans hrest
    · exact (one_word hR 8 rfl h10 hj hn (l := .T0) rfl rfl).trans hrest

/-! ## The loop -/

variable (base m0 src dst sp n) in
/-- The first `lo` words are done, and `%rdx` is ten below the number of words that are left. -/
def Ready (code : List (Stmt Label)) (lo : Nat) (s : State) : Prop :=
  ∀ x, Block base m0 src dst sp n code lo x x x (BitVec.ofNat 64 (n - lo) + -10) [] s

theorem ready_of {code : List (Stmt Label)} {cc : Cc} {s : State}
    (hat : At base ncopy_ys code r m cc s) (hcop : ∀ x, Copied m0 src dst sp n lo x x m)
    (hheld : ∀ x, Held m0 src dst sp lo x x (BitVec.ofNat 64 (n - lo) + -10) r) :
    Ready base m0 src dst sp n code lo s :=
  fun x => ⟨r, m, cc, hat, hcop x, hheld x, fun _ hp => absurd hp List.not_mem_nil⟩

/-- An empty range may be anywhere. -/
theorem Copied.shift (h : Copied m0 src dst sp n lo lo hi m) (x : Nat) :
    Copied m0 src dst sp n hi x x m where
  len := h.len
  words := fun k hk hcase => h.words k hk (by omega)
  frame := h.frame

theorem total_shift (h : lo ≤ hi) (x : Nat) : total m0 src lo lo hi = total m0 src hi x x := by
  have := Nat.count_monotone (Pos m0 src) h
  unfold total
  exact congrArg (BitVec.ofNat 64) (by omega)

theorem negative_iff (v : Word) : negative v = decide (2 ^ 63 ≤ v.toNat) := by
  have hv := v.isLt
  unfold negative
  rw [Bool.eq_iff_iff, BitVec.slt_iff_toInt_lt, decide_eq_true_iff, BitVec.toInt_eq_toNat_cond]
  change _ < (0 : Int) ↔ _
  split <;> omega

/-- The conditions behind `iaddq $-10, %rdx`. -/
theorem minus_ten {k : Nat} (hk : k < 2 ^ 63) :
    cond_holds (compute_cc A_ADD (-10) (BitVec.ofNat 64 k)) C_L = decide (k < 10) ∧
      cond_holds (compute_cc A_ADD (-10) (BitVec.ofNat 64 k)) C_GE = decide (10 ≤ k) := by
  have hpos : negative (BitVec.ofNat 64 k) = false := by
    rw [negative_iff, BitVec.toNat_ofNat, decide_eq_false_iff_not]
    omega
  have hsum : negative (-10 + BitVec.ofNat 64 k) = decide (k < 10) := by
    have h10 : (-10 : Word).toNat = 2 ^ 64 - 10 := rfl
    rw [negative_iff, BitVec.toNat_add, BitVec.toNat_ofNat, h10]
    congr 1
    exact propext (by omega)
  have hadd : compute_alu A_ADD (-10) (BitVec.ofNat 64 k) = -10 + BitVec.ofNat 64 k := rfl
  have hten : negative (-10) = true := rfl
  unfold compute_cc
  simp only [hadd, hsum, hpos, hten]
  by_cases h : k < 10
  · simp [cond_holds, C_L, C_GE, C_YES, C_LE, C_E, C_NE, h]
  · simp [cond_holds, C_L, C_GE, C_YES, C_LE, C_E, C_NE, h, Nat.le_of_not_lt h]

variable (base m0 src dst sp n) in
/-- `k` full turns are left, and then fewer than ten words. -/
def Turns (k : Nat) (s : State) : Prop :=
  k ≤ n / 10 ∧ Ready base m0 src dst sp n
    (behind (if k = 0 then .Less else .Loop7) ncopy_ys) (10 * (n / 10 - k)) s

theorem addr_ten (a : Word) (k : Nat) : addr a k + 80 = addr a (k + 10) := by
  rw [← addr_add, BitVec.add_comm]
  rfl

theorem ten_less {k : Nat} (hk : 10 ≤ k) : BitVec.ofNat 64 k + -10 = BitVec.ofNat 64 (k - 10) := by
  obtain ⟨j, rfl⟩ := Nat.exists_eq_add_of_le' hk
  rw [BitVec.ofNat_add, BitVec.add_assoc, Nat.add_sub_cancel]
  exact BitVec.add_zero _

/-- The pointers and the counter move on by ten words. -/
theorem Held.move (h : Held m0 src dst sp lo lo (lo + 10) (BitVec.ofNat 64 (n - lo) + -10) r)
    (hlo : lo + 10 ≤ n) (x : Nat) :
    Held m0 src dst sp (lo + 10) x x (BitVec.ofNat 64 (n - (lo + 10)) + -10)
      (setReg (setReg (setReg r RDI (getReg r RDI + 80)) RSI (getReg r RSI + 80)) RDX
        (getReg r RDX + -10)) where
  rdi := by
    change getReg r RDI + 80 = _
    rw [h.rdi, addr_ten]
  rsi := by
    change getReg r RSI + 80 = _
    rw [h.rsi, addr_ten]
  rdx := by
    change getReg r RDX + -10 = _
    rw [h.rdx, ten_less (by omega), Nat.sub_sub]
  rsp := h.rsp
  rax := by
    change getReg r RAX = _
    rw [h.rax, total_shift (by omega) x]

/-- A turn of the loop. -/
theorem turn (hR : Regions base m0 src dst sp n) (k : Nat) :
    Leads (good step_state) (Turns base m0 src dst sp n (k + 1)) (Turns base m0 src dst sp n k) := by
  rintro s ⟨hk, hready⟩
  rw [if_neg (Nat.succ_ne_zero k)] at hready
  have hnext : 10 * (n / 10 - k) = 10 * (n / 10 - (k + 1)) + 10 := by omega
  have hlo : 10 * (n / 10 - (k + 1)) + 10 ≤ n := by omega
  have hleft : n - (10 * (n / 10 - (k + 1)) + 10) = 10 * k + n % 10 := by omega
  unfold Turns
  rw [hnext]
  generalize 10 * (n / 10 - (k + 1)) = lo at *
  refine ((ten_words hR hlo).trans ?_) s (hready (lo + 10))
  rintro t ⟨r, m, cc, hat, hcop, hheld, -⟩
  have hm := hcop.loaded hR
  -- the value that `iaddq $-10, %rdx` starts from
  have hd : getReg r RDX = BitVec.ofNat 64 (10 * k + n % 10) := by
    rw [hheld.rdx, ten_less (by omega), ← hleft, Nat.sub_sub]
  obtain ⟨hL, hGE⟩ := minus_ten (k := 10 * k + n % 10) (by
    have := hR.src_in
    have := m0.len_lt
    omega)
  rw [← hd] at hGE
  refine ((iaddq_rule (.num 80) RDI (by decide) hm).trans
    ((iaddq_rule (.num 80) RSI (by decide) hm).trans
      ((iaddq_rule (.num (-10)) RDX (by decide) hm).trans ?_))) t hat
  rcases Nat.eq_zero_or_pos k with hz | hpos
  · have hcond : cond_holds (compute_cc A_ADD (-10) (getReg r RDX)) C_GE = false := by
      rw [hGE, decide_eq_false_iff_not]
      omega
    refine (jmp_not_rule hm hcond).trans (Leads.of_imp ?_)
    intro u hu
    rw [if_pos hz]
    exact ⟨by omega, ready_of hu.skip hcop.shift (hheld.move hlo)⟩
  · have hcond : cond_holds (compute_cc A_ADD (-10) (getReg r RDX)) C_GE = true := by
      rw [hGE, decide_eq_true_iff]
      omega
    refine (jmp_rule hm (l := .Loop7) rfl hcond).trans (Leads.of_imp ?_)
    intro u hu
    rw [if_neg (by omega)]
    exact ⟨by omega, ready_of hu hcop.shift (hheld.move hlo)⟩

/-! ## The ends of the program -/

/-- From the label `ncopy` to the first turn. -/
theorem the_start (hR : Regions base m0 src dst sp n) {cc : Cc} (hdi : getReg r RDI = src)
    (hsi : getReg r RSI = dst) (hdx : getReg r RDX = BitVec.ofNat 64 n)
    (hsp : getReg r REG_RSP = sp) :
    Leads (good step_state) (At base ncopy_ys ncopy_ys r m0 cc)
      (Turns base m0 src dst sp n (n / 10)) := by
  have hm := hR.loaded
  obtain ⟨hL, hGE⟩ := minus_ten (k := n) (by
    have := hR.src_in
    have := m0.len_lt
    omega)
  rw [← hdx] at hL
  have hcop : ∀ x, Copied m0 src dst sp n 0 x x m0 := fun x =>
    ⟨rfl, fun k _ hcase => by omega, fun _ _ _ => rfl⟩
  have hheld : ∀ x, Held m0 src dst sp 0 x x (BitVec.ofNat 64 n + -10)
      (setReg (setReg r RAX (getReg r RAX ^^^ getReg r RAX)) RDX (getReg r RDX + -10)) := by
    intro x
    refine ⟨hdi.trans (BitVec.add_zero _).symm, hsi.trans (BitVec.add_zero _).symm, ?_, hsp, ?_⟩
    · change getReg r RDX + -10 = _
      rw [hdx]
    · change getReg r RAX ^^^ getReg r RAX = _
      rw [BitVec.xor_self]
      unfold total
      rw [Nat.sub_self, Nat.count_zero]
  unfold Turns
  rw [Nat.sub_self, Nat.mul_zero]
  refine Leads.trans (Leads.of_imp fun s hs => hs.skip) ?_
  refine (opq_rule A_XOR RAX RAX hm).trans
    ((iaddq_rule (.num (-10)) RDX (by decide) hm).trans ?_)
  by_cases hz : n / 10 = 0
  · have hcond : cond_holds (compute_cc A_ADD (-10) (getReg r RDX)) C_L = true := by
      rw [hL, decide_eq_true_iff]
      omega
    refine (jmp_rule hm (l := .Less) rfl hcond).trans (Leads.of_imp ?_)
    intro u hu
    rw [if_pos hz]
    exact ⟨Nat.le_refl _, ready_of hu hcop hheld⟩
  · have hcond : cond_holds (compute_cc A_ADD (-10) (getReg r RDX)) C_L = false := by
      rw [hL, decide_eq_false_iff_not]
      omega
    refine (jmp_not_rule hm hcond).trans (Leads.of_imp ?_)
    intro u hu
    rw [if_neg hz]
    exact ⟨Nat.le_refl _, ready_of hu.skip hcop hheld⟩

/-! ## The jump table -/

/-- What stands between the label `T7` and the table. -/
def lastCode : List (Stmt Label) :=
  [mrmovq 0 RDI R10, rmmovq R10 0 RSI, andq R10 R10, jle .Done, iaddq 1 RAX, jmp .Done, .align 8]

set_option maxRecDepth 2000 in
theorem behind_T7 : behind .T7 ncopy_ys =
    lastCode ++ (table.map .quad ++ (.label .JT :: behind .JT ncopy_ys)) := rfl

/-- The table ends where the label `JT` is placed. -/
theorem table_at (hm : Loaded base ncopy_ys m) {k : Nat} {l : Label} (hk : table[k]? = some l) :
    80 ≤ place base .JT ncopy_ys ∧ place base .JT ncopy_ys ≤ m.len ∧
      load m.contents (place base .JT ncopy_ys - 80 + 8 * k) 8 =
        ((Const.addr l).value base ncopy_ys).toNat := by
  obtain ⟨pre, hpre, -⟩ := behind_split (show ncopy_ys.any (Stmt.declares .T7) = true from rfl) base
  obtain ⟨pre', hpre', hplace⟩ := behind_split (show ncopy_ys.any (Stmt.declares .JT) = true from rfl) base
  rw [behind_T7] at hpre
  have hcut : pre' = pre ++ (lastCode ++ (table.map .quad ++ [.label .JT])) := by
    apply List.append_cancel_right
    calc pre' ++ behind .JT ncopy_ys = ncopy_ys := hpre'.symm
      _ = _ := hpre
      _ = pre ++ (lastCode ++ (table.map .quad ++ [.label .JT])) ++ behind .JT ncopy_ys := by simp
  have hJT : place base .JT ncopy_ys = after (after base (pre ++ lastCode)) (table.map .quad) := by
    rw [hplace, hcut]
    simp only [← List.append_assoc]
    rw [after_append, after_append]
    rfl
  have hlies : Lies base ncopy_ys m.contents base
      (pre ++ lastCode ++ (table.map .quad ++ (.label .JT :: behind .JT ncopy_ys))) := by
    rw [List.append_assoc, ← hpre]
    exact hm.lies
  have hle : after base pre' ≤ after base ncopy_ys := by
    conv_rhs => rw [hpre', after_append]
    exact le_after _ _
  have hin := hm.inside
  rw [after_quads, show table.length = 10 from rfl] at hJT
  refine ⟨by omega, by omega, ?_⟩
  rw [hJT, Nat.add_sub_cancel]
  exact lies_quads (lies_append hlies) hk

/-- Eight times the number in `%rdx` is the distance of the entry from the end of the table. -/
theorem table_offset : ∀ k < 10,
    (BitVec.ofNat 64 k + -10) + (BitVec.ofNat 64 k + -10) +
      ((BitVec.ofNat 64 k + -10) + (BitVec.ofNat 64 k + -10)) +
      ((BitVec.ofNat 64 k + -10) + (BitVec.ofNat 64 k + -10) +
      ((BitVec.ofNat 64 k + -10) + (BitVec.ofNat 64 k + -10))) = BitVec.ofNat 64 (8 * k) + -80 := by
  decide

theorem table_addr {k T : Nat} (hT : 80 ≤ T) :
    BitVec.ofNat 64 T + (BitVec.ofNat 64 (8 * k) + -80) = BitVec.ofNat 64 (T - 80 + 8 * k) := by
  obtain ⟨t, rfl⟩ := Nat.exists_eq_add_of_le' hT
  rw [Nat.add_sub_cancel, BitVec.ofNat_add, BitVec.ofNat_add, BitVec.add_comm (BitVec.ofNat 64 (8 * k)),
    ← BitVec.add_assoc, BitVec.add_assoc _ (BitVec.ofNat 64 80)]
  congr 1
  exact BitVec.add_zero _

/-- Three doublings. -/
theorem eight_rule {cc : Cc} (hm : Loaded base ncopy_ys m) :
    Leads (good step_state)
      (At base ncopy_ys (addq RDX RDX :: addq RDX RDX :: addq RDX RDX :: rest) r m cc)
      (fun s => ∃ cc', At base ncopy_ys rest (setReg r RDX (getReg r RDX + getReg r RDX +
        (getReg r RDX + getReg r RDX) + (getReg r RDX + getReg r RDX +
        (getReg r RDX + getReg r RDX)))) m cc' s) := by
  refine (opq_rule A_ADD RDX RDX hm).trans ((opq_rule A_ADD RDX RDX hm).trans
    ((opq_rule A_ADD RDX RDX hm).trans (Leads.of_imp ?_)))
  intro s hs
  rw [setReg_setReg, setReg_setReg] at hs
  exact ⟨_, hs⟩

theorem stack_below (hR : Regions base m0 src dst sp n) : (sp - 8).toNat = sp.toNat - 8 := by
  rw [BitVec.toNat_sub_of_le (by rw [BitVec.le_def]; exact hR.sp_in.1)]
  rfl

/-- The program finds the entry for the words that are left and goes on there. -/
theorem dispatch (hR : Regions base m0 src dst sp n) {l : Label} (hl : table[n % 10]? = some l)
    (hd : ncopy_ys.any (Stmt.declares l)) :
    Leads (good step_state) (Turns base m0 src dst sp n 0)
      (Block base m0 src dst sp n (behind l ncopy_ys) (10 * (n / 10)) n n n
        ((Const.addr l).value base ncopy_ys) []) := by
  rintro s ⟨-, hready⟩
  rw [if_pos rfl, Nat.sub_zero] at hready
  obtain ⟨r, m, cc, hat, hcop, hheld, -⟩ := hready n
  have hm := hcop.loaded hR
  have hlen := m.len_lt
  obtain ⟨hT, hTin, hload⟩ := table_at hm hl
  have hlt : n % 10 < 10 := Nat.mod_lt _ (by decide)
  -- the address of the entry
  have haddr : (Const.addr Label.JT).value base ncopy_ys + getReg (setReg r RDX (getReg r RDX +
      getReg r RDX + (getReg r RDX + getReg r RDX) + (getReg r RDX + getReg r RDX +
      (getReg r RDX + getReg r RDX)))) RDX =
      BitVec.ofNat 64 (place base .JT ncopy_ys - 80 + 8 * (n % 10)) := by
    rw [getReg_setReg_same _ _ (by decide), hheld.rdx, show n - 10 * (n / 10) = n % 10 by omega,
      table_offset _ hlt]
    exact table_addr hT
  have hnat : (BitVec.ofNat 64 (place base .JT ncopy_ys - 80 + 8 * (n % 10))).toNat =
      place base .JT ncopy_ys - 80 + 8 * (n % 10) := by
    rw [BitVec.toNat_ofNat]
    omega
  have hin : Inside m (BitVec.ofNat 64 (place base .JT ncopy_ys - 80 + 8 * (n % 10))) 8 := by
    unfold Inside
    omega
  have hword : wordAt m (BitVec.ofNat 64 (place base .JT ncopy_ys - 80 + 8 * (n % 10))) =
      (Const.addr l).value base ncopy_ys := by
    unfold wordAt
    rw [hnat, hload, BitVec.ofNat_toNat, BitVec.setWidth_eq]
  have hbelow := stack_below hR
  have hsp := hR.sp_in
  refine ((eight_rule hm).trans (Leads.exists fun cc' => ?_)) s hat
  refine (mrmovq_rule (.addr .JT) (by decide : RDX ≠ REG_NONE) (by decide : RDX ≠ REG_NONE) hm
    (by rw [haddr]; exact hin)).trans ?_
  rw [haddr, hword, setReg_setReg]
  generalize hv : (Const.addr l).value base ncopy_ys = v
  -- the address goes over the stack into the program counter
  have hcop' := hcop.push hR v
  have hm' := hcop'.loaded hR
  have hr : getReg (setReg r RDX v) REG_RSP = sp := hheld.rsp
  have hx : getReg (setReg r RDX v) RDX = v := getReg_setReg_same _ _ (by decide)
  have hin' : Inside m (sp - 8) 8 := by
    unfold Inside
    rw [hcop.len]
    omega
  refine (pushq_rule (by decide : RDX ≠ REG_NONE) hm (by rw [hr]; exact hin')).trans ?_
  rw [hr, hx]
  have hr' : getReg (setReg (setReg r RDX v) REG_RSP (sp - 8)) REG_RSP = sp - 8 :=
    getReg_setReg_same _ _ (by decide)
  refine (ret_rule hm' (by rw [hr']; exact hin')).trans (Leads.of_imp ?_)
  rw [hr', wordAt_put_same, setReg_setReg]
  rintro _ rfl
  rw [← hv]
  refine ⟨_, _, cc', at_label hm' hd _ _ _, hv ▸ hcop', ?_, fun _ hp => absurd hp List.not_mem_nil⟩
  refine ⟨hheld.rdi, hheld.rsi, hv ▸ hx, ?_, hheld.rax⟩
  rw [getReg_setReg_same _ _ (by decide)]
  exact BitVec.sub_add_cancel _ _

/-! ## The loop of ncopy.c -/

variable (m0 src dst n) in
/-- What the memory is after `i` turns of the loop in C. -/
structure AfterTurns (i : Nat) (m : Mem) : Prop where
  len : m.len = m0.len
  words : ∀ k < i, wordAt m (addr dst k) = wordAt m0 (addr src k)
  frame : ∀ x, ¬(dst.toNat ≤ x ∧ x < dst.toNat + 8 * n) → m.contents x = m0.contents x

theorem addr_succ (a : Word) (k : Nat) : addr a k + 8 = addr a (k + 1) := by
  rw [← addr_add, BitVec.add_comm]
  rfl

theorem ncopyLoop_spec (hR : Regions base m0 src dst sp n) {k i : Nat} (hk : i + k = n)
    (h : AfterTurns m0 src dst n i m) :
    ∃ m', ncopyLoop m (addr src i) (addr dst i) k (BitVec.ofNat 64 (Nat.count (Pos m0 src) i)) =
      (BitVec.ofNat 64 (Nat.count (Pos m0 src) n), m') ∧ AfterTurns m0 src dst n n m' := by
  have hsd := hR.src_dst
  unfold Apart at hsd
  induction k generalizing i m with
  | zero =>
    obtain rfl : i = n := hk
    exact ⟨m, rfl, h⟩
  | succ k ih =>
    have hi : i < n := by omega
    have hsrc := addr_toNat hR.src_in hi
    have hdst := addr_toNat hR.dst_in hi
    have hval : wordAt m (addr src i) = wordAt m0 (addr src i) := by
      apply wordAt_congr
      intro x h1 h2
      exact h.frame x (by omega)
    have hcount : (if positive (wordAt m (addr src i)) then
        BitVec.ofNat 64 (Nat.count (Pos m0 src) i) + 1
        else BitVec.ofNat 64 (Nat.count (Pos m0 src) i)) =
        BitVec.ofNat 64 (Nat.count (Pos m0 src) (i + 1)) := by
      rw [Nat.count_succ, hval]
      by_cases hp : positive (wordAt m0 (addr src i)) = true
      · rw [if_pos hp, if_pos (show Pos m0 src i from hp), BitVec.ofNat_add]
        rfl
      · rw [if_neg hp, if_neg (show ¬Pos m0 src i from hp), Nat.add_zero]
    unfold ncopyLoop
    simp only [hcount, addr_succ]
    apply ih (by omega)
    refine ⟨h.len, fun j hj => ?_, fun x hx => ?_⟩
    · have haj := addr_toNat hR.dst_in (show j < n by omega)
      rcases Nat.lt_succ_iff_lt_or_eq.mp hj with hlt | rfl
      · rw [wordAt_put_of_disjoint (by omega)]
        exact h.words j hlt
      · rw [wordAt_put_same, hval]
    · rw [put_other (by omega)]
      exact h.frame x hx

theorem ncopy_spec (hR : Regions base m0 src dst sp n) :
    ∃ m', ncopy m0 src dst (BitVec.ofNat 64 n) = (BitVec.ofNat 64 (Nat.count (Pos m0 src) n), m') ∧
      AfterTurns m0 src dst n n m' := by
  have hlen : (BitVec.ofNat 64 n).toInt.toNat = n := by
    have h1 := hR.src_in
    have h2 := m0.len_lt
    rw [BitVec.toInt_eq_toNat_cond, BitVec.toNat_ofNat]
    split <;> omega
  have h0 : ∀ a, addr a 0 = a := fun a => BitVec.add_zero _
  have := ncopyLoop_spec hR (k := n) (i := 0) (m := m0) (Nat.zero_add n)
    ⟨rfl, fun k hk => absurd hk (Nat.not_lt_zero k), fun _ _ => rfl⟩
  rw [h0, h0, Nat.count_zero] at this
  unfold ncopy
  rw [hlen]
  exact this

/-- Two memories with the same words in a block have the same bytes there. -/
theorem bytes_of_words {m m' : Mem} {a : Word} (hin : a.toNat + 8 * n ≤ m0.len)
    (h : ∀ k < n, wordAt m (addr a k) = wordAt m' (addr a k)) {x : Nat} (h1 : a.toNat ≤ x)
    (h2 : x < a.toNat + 8 * n) : m.contents x = m'.contents x := by
  have hk : (x - a.toNat) / 8 < n := by omega
  have hword := h _ hk
  have haddr := addr_toNat hin hk
  have hmod : (x - a.toNat) % 8 < 8 := Nat.mod_lt _ (by decide)
  have hx : (addr a ((x - a.toNat) / 8)).toNat + (x - a.toNat) % 8 = x := by omega
  rw [← hx, byte_of_word m _ hmod, byte_of_word m' _ hmod, hword]

end

/-! ## The law -/

/-- What `ncopy.ys` has done where it returns: `s` is the state at its label, `t` the one at the
return address. -/
structure Returned (s t : State) (n : Nat) : Prop where
  pc : t.pc = wordAt s.m (getReg s.r REG_RSP)
  rax : getReg t.r RAX = BitVec.ofNat 64 (Nat.count (Pos s.m (getReg s.r RDI)) n)
  words : ∀ k < n, wordAt t.m (addr (getReg s.r RSI) k) = wordAt s.m (addr (getReg s.r RDI) k)
  rsp : getReg t.r REG_RSP = getReg s.r REG_RSP + 8
  frame : ∀ x, ¬((getReg s.r RSI).toNat ≤ x ∧ x < (getReg s.r RSI).toNat + 8 * n) →
    ¬((getReg s.r REG_RSP).toNat - 8 ≤ x ∧ x < (getReg s.r REG_RSP).toNat) →
    t.m.contents x = s.m.contents x
  as_c : getReg t.r RAX = (ncopy s.m (getReg s.r RDI) (getReg s.r RSI) (getReg s.r RDX)).1 ∧
    ∀ x, ¬((getReg s.r REG_RSP).toNat - 8 ≤ x ∧ x < (getReg s.r REG_RSP).toNat) →
      t.m.contents x =
        (ncopy s.m (getReg s.r RDI) (getReg s.r RSI) (getReg s.r RDX)).2.contents x

theorem table_declared : ∀ l ∈ table, ncopy_ys.any (Stmt.declares l) = true := by
  decide

/-- `ncopy.ys`, run from its label, returns, and has done what `ncopy.c` does. -/
theorem ncopy_copies_and_counts {s : State} {n : Nat} (hlen : getReg s.r RDX = BitVec.ofNat 64 n)
    (hR : Regions s.pc.toNat s.m (getReg s.r RDI) (getReg s.r RSI) (getReg s.r REG_RSP) n) :
    ∃ k t, iter (good step_state) k s = some t ∧ Returned s t n := by
  have hmod : n % 10 < 10 := Nat.mod_lt _ (by decide)
  have hsum : 10 * (n / 10) + n % 10 = n := Nat.div_add_mod n 10
  obtain ⟨l, hl⟩ : ∃ l, table[n % 10]? = some l :=
    ⟨_, List.getElem?_eq_getElem (show n % 10 < table.length from hmod)⟩
  have hstart : At s.pc.toNat ncopy_ys ncopy_ys s.r s.m s.cc s := ⟨rfl, rfl, rfl, [], rfl, rfl⟩
  have hrest := the_rest hR (Nat.le_refl n) (d := (Const.addr l).value s.pc.toNat ncopy_ys)
    (show 10 * (n / 10) + n % 10 ≤ n from Nat.le_of_eq hsum) hl
  rw [hsum] at hrest
  obtain ⟨k, u, hu, r, m, cc, hat, hcop, hheld, -⟩ :=
    ((the_start hR rfl rfl hlen rfl).trans ((Leads.loop (turn hR) (n / 10)).trans
      ((dispatch hR hl (table_declared l (List.mem_of_getElem? hl))).trans hrest))) s hstart
  have hin : Inside m (getReg r REG_RSP) 8 := by
    unfold Inside
    rw [hheld.rsp, hcop.len]
    exact hR.sp_in.2
  obtain ⟨k', t, ht, rfl⟩ := ret_rule (hcop.loaded hR) hin u hat
  refine ⟨k + k', _, by rw [iter_add, hu]; exact ht, ?_⟩
  obtain ⟨m', hC, hturns⟩ := ncopy_spec hR
  rw [← hlen] at hC
  have hrax : getReg r RAX = BitVec.ofNat 64 (Nat.count (Pos s.m (getReg s.r RDI)) n) := by
    rw [hheld.rax, total_shift (by omega) n]
    unfold total
    rw [Nat.sub_self, Nat.add_zero]
  have hwords := (hcop.shift n).words
  constructor
  · rw [hheld.rsp]
    exact hcop.stack hR
  · exact hrax
  · exact fun j hj => hwords j hj (Or.inl hj)
  · rw [getReg_setReg_same _ _ (by decide), hheld.rsp]
  · exact hcop.frame
  · refine ⟨by rw [hC]; exact hrax, fun x hx => ?_⟩
    rw [hC]
    by_cases hd : (getReg s.r RSI).toNat ≤ x ∧ x < (getReg s.r RSI).toNat + 8 * n
    · apply bytes_of_words hR.dst_in (fun j hj => ?_) hd.1 hd.2
      rw [hwords j hj (Or.inl hj), hturns.words j hj]
    · rw [hcop.frame x hd hx, hturns.frame x hd]

/-- The program at 0, thirteen words at 1280 to copy to 1384, and the stack at 1496. Five words
are positive, the next one is 0, and the others are negative. -/
def thirteenWords : State where
  pc := 0
  r := setReg (setReg (setReg (setReg (fun _ => 0) RDI 1280) RSI 1384) RDX 13) REG_RSP 1496
  m :=
    { len := 1504
      contents := emit 0 ncopy_ys 0 ncopy_ys
        fun x => if x < 1320 then 7 else if x < 1328 then 0 else 0xFF
      len_lt := by norm_num }
  cc := DEFAULT_CC

set_option maxRecDepth 2000 in
theorem thirteen_words_are_copied : ∃ k t, iter (good step_state) k thirteenWords = some t ∧
    Returned thirteenWords t 13 ∧ getReg t.r RAX = 5 := by
  have hend : after 0 ncopy_ys ≤ 1280 := by decide +kernel
  have hcode : ∀ x, 1280 ≤ x → 0 + (after 0 ncopy_ys - 0) ≤ x := by
    intro x hx
    rw [Nat.zero_add, Nat.sub_zero]
    exact Nat.le_trans hend hx
  obtain ⟨k, t, hrun, hret⟩ := ncopy_copies_and_counts (s := thirteenWords) (n := 13) rfl {
    loaded := ⟨lies_emit 0 ncopy_ys 0 ncopy_ys _, Nat.le_trans hend (by decide)⟩
    src_in := by decide
    dst_in := by decide
    sp_in := by decide
    src_dst := Or.inl (by decide)
    src_sp := Or.inl (by decide)
    dst_sp := Or.inl (by decide)
    dst_code := Or.inr (hcode _ (by decide))
    sp_code := Or.inr (hcode _ (by decide)) }
  have hcount : Nat.count (Pos thirteenWords.m (getReg thirteenWords.r RDI)) 13 = 5 := by
    decide +kernel
  refine ⟨k, t, hrun, hret, ?_⟩
  rw [hret.rax, hcount]
  rfl

end ics_labs.copy_words
