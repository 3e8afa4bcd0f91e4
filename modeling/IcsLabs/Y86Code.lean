-- Programs of the Y86-64 assembly language as lists of statements with labels: how
-- they lie in memory, and what one instruction of a program that is loaded does.
-- The instructions are those that ncopy.ys is written in.
import IcsLabs.IsaFetch
import IcsLabs.Triples

open ics_labs.byte_words ics_labs.memory ics_labs.isa ics_labs.runs
open ics_labs.isa.IType ics_labs.isa.Stat

namespace ics_labs.y86code

/-! ## The statements -/

variable {L : Type}

/-- A constant of an instruction: a number or the address of a label. -/
inductive Const (L : Type)
  | num (v : Word)
  | addr (l : L)

/-- `opq fn rA, rB`, `iaddq c, rB`, `mrmovq c(rB), rA`, `rmmovq rA, c(rB)`, a jump on a
condition, `pushq rA` and `ret`. -/
inductive Ins (L : Type)
  | opq (fn rA rB : Nibble)
  | iaddq (c : Const L) (rB : Nibble)
  | mrmovq (c : Const L) (rB rA : Nibble)
  | rmmovq (rA : Nibble) (c : Const L) (rB : Nibble)
  | jmp (fn : Nibble) (l : L)
  | pushq (rA : Nibble)
  | ret

inductive Stmt (L : Type)
  | ins (i : Ins L)
  | label (l : L)
  | align (n : Nat)
  | quad (l : L)

/-- The two halves of the first byte. -/
def Ins.code : Ins L → Nibble × Nibble
  | .opq fn _ _ => (6, fn)
  | .iaddq _ _ => (12, 0)
  | .mrmovq _ _ _ => (5, 0)
  | .rmmovq _ _ _ => (4, 0)
  | .jmp fn _ => (7, fn)
  | .pushq _ => (10, 0)
  | .ret => (9, 0)

/-- The two halves of the register byte. -/
def Ins.regs : Ins L → Option (Nibble × Nibble)
  | .opq _ rA rB | .mrmovq _ rB rA | .rmmovq rA _ rB => some (rA, rB)
  | .iaddq _ rB => some (REG_NONE, rB)
  | .pushq rA => some (rA, REG_NONE)
  | .jmp _ _ | .ret => none

def Ins.const : Ins L → Option (Const L)
  | .iaddq c _ | .mrmovq c _ _ | .rmmovq _ c _ => some c
  | .jmp _ l => some (.addr l)
  | .opq _ _ _ | .pushq _ | .ret => none

def Ins.constAt (i : Ins L) : Nat := if i.regs.isSome then 2 else 1

def Ins.size (i : Ins L) : Nat := i.constAt + if i.const.isSome then 8 else 0

theorem Ins.constAt_pos (i : Ins L) : 0 < i.constAt := by
  unfold Ins.constAt
  split <;> omega

theorem icode_needs (i : Ins L) : need_regids (IType.of i.code.1) = i.regs.isSome ∧
    need_imm (IType.of i.code.1) = i.const.isSome := by
  cases i <;> exact ⟨rfl, rfl⟩

/-- How many bytes the statement takes when it is placed at `pos`. -/
def Stmt.size (pos : Nat) : Stmt L → Nat
  | .ins i => i.size
  | .label _ => 0
  | .align n => (pos + n - 1) / n * n - pos
  | .quad _ => 8

/-! ## The places -/

/-- Where the statement behind `code` is placed. -/
def after (pos : Nat) : List (Stmt L) → Nat
  | [] => pos
  | st :: code => after (pos + st.size pos) code

theorem after_append (pos : Nat) (c d : List (Stmt L)) :
    after pos (c ++ d) = after (after pos c) d := by
  induction c generalizing pos with
  | nil => rfl
  | cons st c ih => exact ih (pos + st.size pos)

theorem after_quads (pos : Nat) (ls : List L) : after pos (ls.map .quad) = pos + 8 * ls.length := by
  induction ls generalizing pos with
  | nil => rfl
  | cons l ls ih =>
    rw [List.map_cons, after, ih, List.length_cons, Stmt.size]
    omega

theorem le_after (pos : Nat) (c : List (Stmt L)) : pos ≤ after pos c := by
  induction c generalizing pos with
  | nil => exact Nat.le_refl pos
  | cons st c ih => exact Nat.le_trans (Nat.le_add_right _ _) (ih _)

/-- The machine is about to run `code`, the end of the program, with these registers, this
memory and these condition codes. -/
structure At (base : Nat) (prog code : List (Stmt L)) (r : Regs) (m : Mem) (cc : Cc)
    (s : State) : Prop where
  r_eq : s.r = r
  m_eq : s.m = m
  cc_eq : s.cc = cc
  here : ∃ pre, prog = pre ++ code ∧ s.pc.toNat = after base pre

theorem At.skip {base : Nat} {prog rest : List (Stmt L)} {r : Regs} {m : Mem} {cc : Cc}
    {s : State} {l : L} (h : At base prog (.label l :: rest) r m cc s) :
    At base prog rest r m cc s := by
  obtain ⟨pre, hpre, hpc⟩ := h.here
  refine ⟨h.r_eq, h.m_eq, h.cc_eq, pre ++ [.label l], by simp [hpre], ?_⟩
  rw [after_append, ← hpc]
  rfl

/-! ## The labels -/

variable [DecidableEq L]

/-- Is it the statement that declares the label? -/
def Stmt.declares (l : L) : Stmt L → Bool
  | .label l' => l = l'
  | _ => false

/-- The place of a label. -/
def place (pos : Nat) (l : L) : List (Stmt L) → Nat
  | [] => pos
  | st :: code => if st.declares l then pos else place (pos + st.size pos) l code

/-- What stands behind a label. -/
def behind (l : L) : List (Stmt L) → List (Stmt L)
  | [] => []
  | st :: code => if st.declares l then code else behind l code

/-- The program is cut in two by each of its labels. -/
theorem behind_split {l : L} {code : List (Stmt L)} (h : code.any (Stmt.declares l)) (pos : Nat) :
    ∃ pre, code = pre ++ behind l code ∧ place pos l code = after pos pre := by
  induction code generalizing pos with
  | nil => cases h
  | cons st code ih =>
    by_cases hd : st.declares l = true
    · cases st with
      | label l' => exact ⟨[.label l'], by simp [behind, hd], by simp [place, hd, after, Stmt.size]⟩
      | ins | align | quad => cases hd
    · rw [List.any_cons, Bool.eq_false_of_not_eq_true hd, Bool.false_or] at h
      obtain ⟨pre, hpre, hplace⟩ := ih h (pos + st.size pos)
      refine ⟨st :: pre, ?_, ?_⟩
      · rw [behind, if_neg hd, List.cons_append, ← hpre]
      · rw [place, if_neg hd, hplace]
        rfl

/-! ## A loaded program -/

/-- The value of a constant in the program that is placed at `base`. -/
def Const.value (base : Nat) (prog : List (Stmt L)) : Const L → Word
  | .num v => v
  | .addr l => BitVec.ofNat 64 (place base l prog)

/-- The bytes at `pos` are the statement. -/
def StandsAt (base : Nat) (prog : List (Stmt L)) (c : Contents) (pos : Nat) : Stmt L → Prop
  | .ins i => c pos = hpack i.code.1 i.code.2 ∧ (∀ r ∈ i.regs, c (pos + 1) = hpack r.1 r.2) ∧
      ∀ k ∈ i.const, load c (pos + i.constAt) 8 = (k.value base prog).toNat
  | .label _ | .align _ => True
  | .quad l => load c pos 8 = ((Const.addr l).value base prog).toNat

/-- The bytes from `pos` on are the code. -/
def Lies (base : Nat) (prog : List (Stmt L)) (c : Contents) : Nat → List (Stmt L) → Prop
  | _, [] => True
  | pos, st :: code => StandsAt base prog c pos st ∧ Lies base prog c (pos + st.size pos) code

/-- The program is in the memory at `base`, all of it. -/
structure Loaded (base : Nat) (prog : List (Stmt L)) (m : Mem) : Prop where
  lies : Lies base prog m.contents base prog
  inside : after base prog ≤ m.len

theorem lies_append {base pos : Nat} {prog c d : List (Stmt L)} {m : Contents}
    (h : Lies base prog m pos (c ++ d)) : Lies base prog m (after pos c) d := by
  induction c generalizing pos with
  | nil => exact h
  | cons st c ih => exact ih h.2

/-- A table of addresses. -/
theorem lies_quads {base pos : Nat} {prog d : List (Stmt L)} {ls : List L} {m : Contents}
    (h : Lies base prog m pos (ls.map .quad ++ d)) {k : Nat} {l : L} (hk : ls[k]? = some l) :
    load m (pos + 8 * k) 8 = ((Const.addr l).value base prog).toNat := by
  induction ls generalizing pos k with
  | nil => cases hk
  | cons l' ls ih =>
    cases k with
    | zero =>
      cases hk
      exact h.1
    | succ k =>
      rw [show pos + 8 * (k + 1) = pos + 8 + 8 * k by omega]
      exact ih h.2 hk

/-- The statement depends on its own bytes only. -/
theorem standsAt_congr {base pos : Nat} {prog : List (Stmt L)} {m m' : Contents} {st : Stmt L}
    (h : Agree m m' pos (st.size pos)) (hs : StandsAt base prog m pos st) :
    StandsAt base prog m' pos st := by
  cases st with
  | label | align => trivial
  | quad l => exact (load_congr h.symm).trans hs
  | ins i =>
    have hpos := i.constAt_pos
    obtain ⟨hcode, hregs, hconst⟩ := hs
    simp only [Stmt.size, Ins.size] at h
    refine ⟨?_, ?_, ?_⟩
    · rw [← h pos (Nat.le_refl pos) (by omega)]
      exact hcode
    · intro r hr
      have h2 : i.constAt = 2 := by
        unfold Ins.constAt
        rw [show i.regs = some r from hr]
        rfl
      rw [← h (pos + 1) (by omega) (by omega)]
      exact hregs r hr
    · intro k hk
      have h8 : i.const.isSome = true := by
        rw [show i.const = some k from hk]
        rfl
      rw [h8, if_pos rfl] at h
      rw [load_congr (h.symm.mono (by omega) (by omega))]
      exact hconst k hk

theorem lies_congr {base pos : Nat} {prog code : List (Stmt L)} {m m' : Contents}
    (h : Agree m m' pos (after pos code - pos)) (hl : Lies base prog m pos code) :
    Lies base prog m' pos code := by
  induction code generalizing pos with
  | nil => trivial
  | cons st code ih =>
    have h1 := le_after (pos + st.size pos) code
    simp only [after] at h
    exact ⟨standsAt_congr (h.mono (Nat.le_refl pos) (by omega)) hl.1,
      ih (h.mono (by omega) (by omega)) hl.2⟩

/-! ## An image of a program -/

/-- The statement, put into the memory at `pos`. -/
def Stmt.emit (base : Nat) (prog : List (Stmt L)) (pos : Nat) (c : Contents) : Stmt L → Contents
  | .ins i =>
    let c := Function.update c pos (hpack i.code.1 i.code.2)
    let c := match i.regs with
      | some r => Function.update c (pos + 1) (hpack r.1 r.2)
      | none => c
    match i.const with
    | some k => store c (pos + i.constAt) 8 (k.value base prog).toNat
    | none => c
  | .label _ | .align _ => c
  | .quad l => store c pos 8 ((Const.addr l).value base prog).toNat

/-- The code, put into the memory from `pos` on. -/
def emit (base : Nat) (prog : List (Stmt L)) : Nat → List (Stmt L) → Contents → Contents
  | _, [], c => c
  | pos, st :: code, c => emit base prog (pos + st.size pos) code (st.emit base prog pos c)

theorem load_store_word (c : Contents) (a : Nat) (v : Word) : load (store c a 8 v.toNat) a 8 = v.toNat := by
  rw [load_store_same]
  exact Nat.mod_eq_of_lt v.isLt

theorem emit_stands (base : Nat) (prog : List (Stmt L)) (pos : Nat) (c : Contents) (st : Stmt L) :
    StandsAt base prog (st.emit base prog pos c) pos st := by
  cases st with
  | label | align => trivial
  | quad l => exact load_store_word _ _ _
  | ins i =>
    refine ⟨?_, fun r hr => ?_, fun k hk => ?_⟩
    · cases i <;> simp [Stmt.emit, Ins.regs, Ins.const, Ins.constAt, store]
    · cases i <;> cases hr <;> simp [Stmt.emit, Ins.regs, Ins.const, Ins.constAt, store]
    · cases i <;> cases hk <;> exact load_store_word _ _ _

theorem emit_below {base pos : Nat} {prog : List (Stmt L)} {c : Contents} {st : Stmt L} {x : Nat}
    (h : x < pos) : st.emit base prog pos c x = c x := by
  have hne : x ≠ pos := by omega
  have hne' : x ≠ pos + 1 := by omega
  cases st with
  | label | align => rfl
  | quad l =>
    simp only [Stmt.emit, store]
    rw [if_neg (by omega)]
  | ins i =>
    cases i <;> simp [Stmt.emit, Ins.regs, Ins.const, Ins.constAt, store, hne, hne'] <;> omega

/-- What is emitted from `pos` on leaves the bytes below as they are. -/
theorem emit_code_below {base pos : Nat} {prog code : List (Stmt L)} {c : Contents} {x : Nat}
    (h : x < pos) : emit base prog pos code c x = c x := by
  induction code generalizing pos c with
  | nil => rfl
  | cons st code ih =>
    rw [emit, ih (by omega), emit_below h]

/-- The image of a program holds the program. -/
theorem lies_emit (base : Nat) (prog : List (Stmt L)) (pos : Nat) (code : List (Stmt L))
    (c : Contents) : Lies base prog (emit base prog pos code c) pos code := by
  induction code generalizing pos c with
  | nil => trivial
  | cons st code ih =>
    refine ⟨?_, ih _ _⟩
    apply standsAt_congr _ (emit_stands base prog pos c st)
    intro x _ hx
    exact (emit_code_below hx).symm

/-! ## One instruction -/

variable {base : Nat} {prog rest : List (Stmt L)} {r : Regs} {m : Mem} {cc : Cc} {s : State}

/-- What `step_state` has fetched in front of an instruction. -/
def Ins.fetched (i : Ins L) (base : Nat) (prog : List (Stmt L)) (pc : Word) : Fetched where
  hi0 := IType.of i.code.1
  lo0 := i.code.2
  hi1 := (i.regs.getD (REG_NONE, REG_NONE)).1
  lo1 := (i.regs.getD (REG_NONE, REG_NONE)).2
  ok1 := true
  okc := true
  cval := (i.const.map (Const.value base prog)).getD 0
  ftpc := pc + BitVec.ofNat 64 i.size

theorem At.step {i : Ins L} (h : At base prog (.ins i :: rest) r m cc s)
    (hm : Loaded base prog m) : step_state s = execute s (i.fetched base prog s.pc) := by
  obtain ⟨rfl, rfl, rfl, pre, rfl, hpc⟩ := h
  have hlies := lies_append hm.lies
  have hin := hm.inside
  rw [after_append, ← hpc] at hin
  rw [← hpc] at hlies
  obtain ⟨⟨hcode, hregs, hconst⟩, -⟩ := hlies
  obtain ⟨hneed, himm⟩ := icode_needs i
  have hic : icodeAt s = IType.of i.code.1 := by
    unfold icodeAt codeByte
    rw [Nat.add_zero, hcode, hi4_hpack]
  have hif : ifunAt s = i.code.2 := by
    unfold ifunAt codeByte
    rw [Nat.add_zero, hcode, lo4_hpack]
  have hoff : constOffset s = i.constAt := by
    rw [constOffset, hic, hneed]
    rfl
  have hlen : lengthAt s = i.size := by
    rw [lengthAt, hoff, hic, himm]
    rfl
  have hwhole : Inside s.m s.pc (lengthAt s) := by
    unfold Inside
    rw [hlen]
    exact Nat.le_trans (le_after _ rest) hin
  have hreg : regByte s = hpack (i.regs.getD (REG_NONE, REG_NONE)).1
      (i.regs.getD (REG_NONE, REG_NONE)).2 := by
    unfold regByte codeByte
    rw [hic, hneed]
    cases hr : i.regs with
    | none => rfl
    | some q => exact hregs q hr
  have hval : (if need_imm (icodeAt s) then constAt s else 0) =
      (i.const.map (Const.value base (pre ++ .ins i :: rest))).getD 0 := by
    rw [hic, himm]
    cases hk : i.const with
    | none => rfl
    | some k =>
      have hpos : (s.pc + BitVec.ofNat 64 i.constAt).toNat = s.pc.toNat + i.constAt := by
        apply pc_plus hwhole
        rw [hlen, Ins.size, hk, Option.isSome_some, if_pos rfl]
        omega
      simp only [Option.isSome_some, if_true, Option.map_some, Option.getD_some]
      unfold constAt wordAt
      rw [hoff, hpos, hconst k hk, BitVec.ofNat_toNat, BitVec.setWidth_eq]
  rw [step_state_at hwhole]
  unfold fetchedAt Ins.fetched
  rw [hval, hreg, hi4_hpack, lo4_hpack, hic, hif, hlen]

/-- Where the machine is behind an instruction that it does not jump from. -/
theorem At.next {i : Ins L} (h : At base prog (.ins i :: rest) r m cc s) (hm : Loaded base prog m)
    (r' : Regs) (m' : Mem) (cc' : Cc) :
    At base prog rest r' m' cc' ⟨s.pc + BitVec.ofNat 64 i.size, r', m', cc'⟩ := by
  obtain ⟨-, -, -, pre, rfl, hpc⟩ := h
  have hin := hm.inside
  have hlen := m.len_lt
  have hle := le_after (after base pre + i.size) rest
  rw [after_append] at hin
  refine ⟨rfl, rfl, rfl, pre ++ [.ins i], by simp, ?_⟩
  rw [after_append, ← hpc] at *
  change (s.pc + BitVec.ofNat 64 i.size).toNat = s.pc.toNat + i.size
  have hin' : s.pc.toNat + i.size ≤ m.len := Nat.le_trans hle hin
  rw [BitVec.toNat_add, BitVec.toNat_ofNat, Nat.mod_eq_of_lt (show i.size < 2 ^ 64 by omega),
    Nat.mod_eq_of_lt (by omega)]

/-- Where the machine is behind a jump to a label. -/
theorem at_label {l : L} (hm : Loaded base prog m) (hl : prog.any (Stmt.declares l)) (r' : Regs)
    (m' : Mem) (cc' : Cc) :
    At base prog (behind l prog) r' m' cc' ⟨(Const.addr l).value base prog, r', m', cc'⟩ := by
  obtain ⟨pre, hpre, hplace⟩ := behind_split hl base
  have hin := hm.inside
  have hlen := m.len_lt
  refine ⟨rfl, rfl, rfl, pre, hpre, ?_⟩
  have hle : after base pre ≤ after base prog := by
    rw [hpre, after_append]
    exact le_after _ _
  change (BitVec.ofNat 64 (place base l prog)).toNat = _
  rw [hplace, BitVec.toNat_ofNat, Nat.mod_eq_of_lt (by omega)]

/-! ## The rules -/

/-- An instruction that does not jump. -/
theorem falls {i : Ins L} {r' : Regs} {m' : Mem} {cc' : Cc} (hm : Loaded base prog m)
    (hex : ∀ pc, execute ⟨pc, r, m, cc⟩ (i.fetched base prog pc) =
      some (STAT_AOK, ⟨pc + BitVec.ofNat 64 i.size, r', m', cc'⟩)) :
    Leads (good step_state) (At base prog (.ins i :: rest) r m cc)
      (At base prog rest r' m' cc') := by
  apply Leads.of_step
  intro s hs
  refine ⟨_, ?_, hs.next hm r' m' cc'⟩
  rw [good_eq_some, hs.step hm, ← hex s.pc]
  obtain ⟨rfl, rfl, rfl, -⟩ := hs
  rfl

theorem opq_rule (fn rA rB : Nibble) (hm : Loaded base prog m) :
    Leads (good step_state) (At base prog (.ins (.opq fn rA rB) :: rest) r m cc)
      (At base prog rest (setReg r rB (compute_alu fn (getReg r rA) (getReg r rB))) m
        (compute_cc fn (getReg r rA) (getReg r rB))) :=
  falls hm fun _ => rfl

theorem iaddq_rule (c : Const L) (rB : Nibble) (hB : rB ≠ REG_NONE) (hm : Loaded base prog m) :
    Leads (good step_state) (At base prog (.ins (.iaddq c rB) :: rest) r m cc)
      (At base prog rest (setReg r rB (getReg r rB + c.value base prog)) m
        (compute_cc A_ADD (c.value base prog) (getReg r rB))) := by
  apply falls hm
  intro pc
  unfold execute Ins.fetched
  simp only [Ins.code, Ins.regs, Option.getD_some, reg_valid, bne_iff_ne.mpr hB]
  rfl

theorem mrmovq_rule (c : Const L) {rB rA : Nibble} (hA : rA ≠ REG_NONE) (hB : rB ≠ REG_NONE)
    (hm : Loaded base prog m) (hin : Inside m (c.value base prog + getReg r rB) 8) :
    Leads (good step_state) (At base prog (.ins (.mrmovq c rB rA) :: rest) r m cc)
      (At base prog rest (setReg r rA (wordAt m (c.value base prog + getReg r rB))) m cc) := by
  apply falls hm
  intro pc
  unfold execute Ins.fetched get_word_val get_reg_val
  simp only [Ins.code, Ins.regs, Ins.const, Option.getD_some, Option.map_some, reg_valid,
    bne_iff_ne.mpr hA, bne_iff_ne.mpr hB, readWord_inside hin, if_true]
  rfl

theorem rmmovq_rule {rA : Nibble} (c : Const L) {rB : Nibble} (hA : rA ≠ REG_NONE)
    (hB : rB ≠ REG_NONE) (hm : Loaded base prog m)
    (hin : Inside m (c.value base prog + getReg r rB) 8) :
    Leads (good step_state) (At base prog (.ins (.rmmovq rA c rB) :: rest) r m cc)
      (At base prog rest r (m.put (c.value base prog + getReg r rB) (getReg r rA)) cc) := by
  apply falls hm
  intro pc
  unfold execute Ins.fetched set_word_val get_reg_val
  simp only [Ins.code, Ins.regs, Ins.const, Option.getD_some, Option.map_some, reg_valid,
    bne_iff_ne.mpr hA, bne_iff_ne.mpr hB, writeWord_inside hin, if_true]
  rfl

theorem pushq_rule {rA : Nibble} (hA : rA ≠ REG_NONE) (hm : Loaded base prog m)
    (hin : Inside m (getReg r REG_RSP - 8) 8) :
    Leads (good step_state) (At base prog (.ins (.pushq rA) :: rest) r m cc)
      (At base prog rest (setReg r REG_RSP (getReg r REG_RSP - 8))
        (m.put (getReg r REG_RSP - 8) (getReg r rA)) cc) := by
  apply falls hm
  intro pc
  unfold execute Ins.fetched set_word_val get_reg_val
  simp only [Ins.code, Ins.regs, Option.getD_some, reg_valid, bne_iff_ne.mpr hA,
    writeWord_inside hin]
  rfl

theorem jmp_rule {fn : Nibble} {l : L} (hm : Loaded base prog m)
    (hl : prog.any (Stmt.declares l)) (hcc : cond_holds cc fn = true) :
    Leads (good step_state) (At base prog (.ins (.jmp fn l) :: rest) r m cc)
      (At base prog (behind l prog) r m cc) := by
  apply Leads.of_step
  intro s hs
  refine ⟨_, ?_, at_label hm hl r m cc⟩
  rw [good_eq_some, hs.step hm]
  obtain ⟨rfl, rfl, rfl, -⟩ := hs
  unfold execute Ins.fetched
  simp only [Ins.code, hcc, if_true]
  rfl

theorem jmp_not_rule {fn : Nibble} {l : L} (hm : Loaded base prog m)
    (hcc : cond_holds cc fn = false) :
    Leads (good step_state) (At base prog (.ins (.jmp fn l) :: rest) r m cc)
      (At base prog rest r m cc) := by
  apply falls hm
  intro pc
  unfold execute Ins.fetched
  simp only [Ins.code, hcc]
  rfl

theorem ret_rule (hm : Loaded base prog m) (hin : Inside m (getReg r REG_RSP) 8) :
    Leads (good step_state) (At base prog (.ins .ret :: rest) r m cc)
      (· = ⟨wordAt m (getReg r REG_RSP), setReg r REG_RSP (getReg r REG_RSP + 8), m, cc⟩) := by
  apply Leads.of_step
  intro s hs
  refine ⟨_, ?_, rfl⟩
  rw [good_eq_some, hs.step hm]
  obtain ⟨rfl, rfl, rfl, -⟩ := hs
  unfold execute Ins.fetched get_word_val get_reg_val
  simp only [Ins.code]
  change (readWord s.m (getReg s.r REG_RSP)).map _ = _
  rw [readWord_inside hin]
  rfl

end ics_labs.y86code
