-- Where the assembler of lab5 (y64asm.c) reads. Its functions stand here once more, over positions
-- in the line instead of the text from there on, and every read of a character is checked against
-- the bytes that `assemble` allocated for the line.
import IcsLabs.AsmCodec
import IcsLabs.AsmLines
import IcsLabs.Follows
import IcsLabs.LineGrammar

open ics_labs.byte_words ics_labs.memory ics_labs.ctext ics_labs.follows
open ics_labs.asm (Asm Bin Fault IType Instr Line LineType Name Token add_name add_symbol align
  find_instr find_register isBlank isSymbolChar put_operands D_ALIGN D_DATA D_POS IS_DIGIT IS_LETTER
  MAX_INSLEN)
open ics_labs.asm.IType ics_labs.asm.LineType

namespace ics_labs.asm_reads

/-- A run stops at a read outside, or where the assembler does. -/
inductive Stop
  | outside
  | fault (f : Fault)
  deriving DecidableEq

def PARSE_ERR : Stop := .fault .error

/-! ## The reads -/

/-- `s[i]`: the block of a string ends with its terminator. -/
def charAt (s : Text) (i : Nat) : Except Stop Char :=
  if i ≤ s.length then .ok (s[i]?.getD '\x00') else .error .outside

/-- `n` bytes from `s + i` on. -/
def memcpy (s : Text) (i n : Nat) : Except Stop Text :=
  if i + n ≤ s.length + 1 then .ok (((s ++ ['\x00']).drop i).take n) else .error .outside

/-- The string at `s + i`, for a function of the library. It reads up to the terminator. -/
def stringAt (s : Text) (i : Nat) : Except Stop Text :=
  if i ≤ s.length then .ok (s.drop i) else .error .outside

/-- `while (test(s[i])) i++;` -/
def scan (test : Char → Bool) (s : Text) (i : Nat) : Except Stop Nat :=
  if _h : i ≤ s.length then
    if test (s[i]?.getD '\x00') then scan test s (i + 1) else .ok i
  else .error .outside
termination_by s.length + 1 - i

/-! ## The tokens -/

def SKIP_BLANK (s : Text) (ptr : Nat) : Except Stop Nat :=
  scan (fun c => c ≠ '\x00' && isBlank c) s ptr

/-- The six bytes are copied before anything is known about them. -/
def parse_instr (s : Text) (ptr : Nat) : Except Stop (Instr × Nat) := do
  let ptr ← SKIP_BLANK s ptr
  let ins ← memcpy s ptr 6
  match find_instr (ins.takeWhile (· ≠ '\x00')) with
  | some inst => return (inst, ptr + inst.len)
  | none => throw PARSE_ERR

def parse_delim (s : Text) (ptr : Nat) (delim : Char) : Except Stop Nat := do
  let ptr ← SKIP_BLANK s ptr
  if (← charAt s ptr) = delim then return ptr + 1 else throw PARSE_ERR

def parse_reg (s : Text) (ptr : Nat) : Except Stop (Nibble × Nat) := do
  let ptr ← SKIP_BLANK s ptr
  match find_register (← stringAt s ptr) with
  | some reg => return (reg.id, ptr + reg.namelen)
  | none => throw PARSE_ERR

def parse_symbol (s : Text) (ptr : Nat) : Except Stop (Text × Nat) := do
  let ptr ← SKIP_BLANK s ptr
  if IS_LETTER [← charAt s ptr] then
    let stop ← scan (fun c => !isBlank c && c ≠ '\x00' && isSymbolChar c) s ptr
    let name ← memcpy s ptr (stop - ptr)
    return (name, stop)
  else throw PARSE_ERR

def parse_digit (s : Text) (ptr : Nat) : Except Stop (Word × Nat) := do
  let ptr ← SKIP_BLANK s ptr
  let str ← stringAt s ptr
  let (value, rest) := strtoull str
  return (value, ptr + (str.length - rest.length))

/-- The second half of `parse_imm` and of `parse_data`: `IS_LETTER` looks at the character where
the number ends, or where no number was. -/
def parse_letter (s : Text) (ptr : Nat) (par : Option Word) : Except Stop (Token × Nat) := do
  if IS_LETTER [← charAt s ptr] then
    let (name, ptr) ← parse_symbol s ptr
    return (.symbol name, ptr)
  else
    match par with
    | some value => return (.digit value, ptr)
    | none => throw PARSE_ERR

def parse_imm (s : Text) (ptr : Nat) : Except Stop (Token × Nat) := do
  let ptr ← SKIP_BLANK s ptr
  if (← charAt s ptr) = '$' then
    if IS_DIGIT [← charAt s (ptr + 1)] then
      let (value, ptr) ← parse_digit s (ptr + 1)
      parse_letter s ptr (some value)
    else throw PARSE_ERR
  else parse_letter s ptr none

def parse_mem (s : Text) (ptr : Nat) : Except Stop (Word × Nibble × Nat) := do
  let ptr ← SKIP_BLANK s ptr
  if (← charAt s ptr) = '\x00' then throw PARSE_ERR
  else
    let (value, ptr) ← parse_digit s ptr
    let ptr ← parse_delim s ptr '('
    let (regid, ptr) ← parse_reg s ptr
    let ptr ← parse_delim s ptr ')'
    return (value, regid, ptr)

def parse_data (s : Text) (ptr : Nat) : Except Stop (Token × Nat) := do
  let ptr ← SKIP_BLANK s ptr
  if IS_DIGIT [← charAt s ptr] then
    let (value, ptr) ← parse_digit s ptr
    parse_letter s ptr (some value)
  else parse_letter s ptr none

def parse_label (s : Text) (ptr : Nat) : Except Stop (Text × Nat) := do
  let ptr ← SKIP_BLANK s ptr
  let (name, ptr) ← parse_symbol s ptr
  let ptr ← parse_delim s ptr ':'
  return (name, ptr)

/-! ## A line -/

/-- What the rest of the assembler does, which reads nothing of the line. -/
abbrev lift {α : Type} (x : Except Fault α) : Except Stop α := x.mapError .fault

def parse_operands (icode : IType) (s : Text) (ptr : Nat) :
    Except Stop (Option Byte × Option Token) :=
  match icode with
  | I_NOP | I_HALT | I_RET | I_DIRECTIVE => .ok (none, none)
  | I_RRMOVQ | I_ALU => do
    let (regA, ptr) ← parse_reg s ptr
    let ptr ← parse_delim s ptr ','
    let (regB, _) ← parse_reg s ptr
    return (some (hpack regA regB), none)
  | I_IRMOVQ => do
    let (par, ptr) ← parse_imm s ptr
    let ptr ← parse_delim s ptr ','
    let (regB, _) ← parse_reg s ptr
    return (some (hpack REG_NONE regB), some par)
  | I_RMMOVQ => do
    let (regA, ptr) ← parse_reg s ptr
    let ptr ← parse_delim s ptr ','
    let (val, regB, _) ← parse_mem s ptr
    return (some (hpack regA regB), some (.digit val))
  | I_MRMOVQ => do
    let (val, regB, ptr) ← parse_mem s ptr
    let ptr ← parse_delim s ptr ','
    let (regA, _) ← parse_reg s ptr
    return (some (hpack regA regB), some (.digit val))
  | I_JMP | I_CALL => do
    let (sym, _) ← parse_symbol s ptr
    return (none, some (.symbol sym))
  | I_PUSHQ | I_POPQ => do
    let (regA, _) ← parse_reg s ptr
    return (some (hpack regA REG_NONE), none)

variable (heap : Nat → Text)

def parse_data_line (st : Asm) (bin : Bin) (s : Text) (ptr : Nat) : Except Stop (Bin × Asm) := do
  let (par, _) ← parse_data s ptr
  match par with
  | .symbol sym => if bin.bytes < 4 then throw PARSE_ERR else return (bin, add_name heap st sym)
  | .digit val => return ({ bin with codes := store bin.codes 0 bin.bytes val.toNat }, st)

/-- `parse_line` from the instruction on. -/
def parse_body (st : Asm) (text : Text) (ptr : Nat) : Except Stop (Line × Asm) := do
  let (inst, ptr) ← parse_instr text ptr
  let bin : Bin := { addr := st.vmaddr, codes := Function.update (fun _ => 0) 0 inst.code,
                     bytes := inst.bytes }
  let st := { st with vmaddr := st.vmaddr + BitVec.ofNat 64 inst.bytes }
  if inst.icode = I_DIRECTIVE then
    if inst.ifun = D_DATA then
      let (bin, st) ← parse_data_line heap st bin text ptr
      return (⟨TYPE_INS, bin, text⟩, st)
    else if inst.ifun = D_POS then
      let (vmaddr, _) ← parse_digit text ptr
      return (⟨TYPE_INS, { bin with addr := vmaddr }, text⟩, { st with vmaddr })
    else if inst.ifun = D_ALIGN then
      let (val, _) ← parse_digit text ptr
      let vmaddr ← lift (align st.vmaddr val)
      return (⟨TYPE_INS, { bin with addr := vmaddr }, text⟩, { st with vmaddr })
    else return (⟨TYPE_INS, bin, text⟩, st)
  else
    let (regs, const) ← parse_operands inst.icode text ptr
    let (bin, st) := put_operands heap st bin regs const
    return (⟨TYPE_INS, bin, text⟩, st)

def parse_line (st : Asm) (text : Text) : Except Stop (Line × Asm) := do
  let ptr ← SKIP_BLANK text 0
  let comm : Line := ⟨TYPE_COMM, ⟨0, fun _ => 0, 0⟩, text⟩
  let c ← charAt text ptr
  if c = '\x00' then return (comm, st)
  else if c = '#' then return (comm, st)
  else
    -- `parse_symbol` allocates the name before it is known to be a label
    let named := { st with allocs := if IS_LETTER [c] then st.allocs + 1 else st.allocs }
    match parse_label text ptr with
    | .ok (name, ptr) =>
      match add_symbol named ⟨name, heap st.allocs⟩ with
      | none => throw PARSE_ERR
      | some st =>
        let ptr ← SKIP_BLANK text ptr
        let c ← charAt text ptr
        if c = '\x00' ∨ c = '#' then return (⟨TYPE_INS, ⟨st.vmaddr, fun _ => 0, 0⟩, text⟩, st)
        else parse_body heap st text ptr
    | .error .outside => throw .outside
    | .error (.fault _) => parse_body heap named text ptr

/-! ## The file -/

/-- The loop over the ends of line: `slen` is the length of what is left of `buf`. -/
def strip_loop (buf : Text) : Nat → Except Stop Nat
  | 0 => .error .outside
  | slen + 1 =>
    if slen < MAX_INSLEN then
      let c := buf[slen]?.getD '\x00'
      if c = '\n' ∨ c = '\r' then strip_loop buf slen else .ok (slen + 1)
    else .error .outside

def strip (line : Text) : Except Stop Text :=
  let buf := line.takeWhile (· ≠ '\x00')
  (strip_loop buf buf.length).map buf.take

/-- What `fgets` gives, call after call. -/
def fgetsLines : Nat → Text → List Text
  | 0, _ => []
  | fuel + 1, cs =>
    if cs = [] then []
    else
      let (line, rest) := asm.fgets (MAX_INSLEN - 1) cs
      line :: fgetsLines fuel rest

def assembleLine (st : Asm) (line : Text) : Except Stop Asm := do
  let text ← strip line
  let (line, st) ← parse_line heap st text
  return { st with lines := st.lines ++ [line] }

def assemble (input : Text) : Except Stop Asm :=
  (fgetsLines input.length input).foldlM (assembleLine heap) asm.init

/-! ## Positions -/

/-- The text `p` is what stands from position `i` on. There is no terminator inside. -/
structure At (s p : Text) (i : Nat) : Prop where
  le : i ≤ s.length
  drop : s.drop i = p
  plain : '\x00' ∉ s

section Positions

variable {s p q a : Text} {i j : Nat}

theorem At.start (h : '\x00' ∉ s) : At s s 0 := ⟨Nat.zero_le _, rfl, h⟩

theorem At.length (h : At s p i) : s.length = i + p.length := by
  have hle := h.le
  rw [← h.drop, List.length_drop]
  omega

theorem At.no_nul (h : At s p i) : '\x00' ∉ p := fun hm =>
  h.plain (List.mem_of_mem_drop (by rwa [h.drop]))

/-- A text is read, and the position moves over it. -/
theorem At.skip (h : At s (a ++ p) i) : At s p (i + a.length) := by
  have hlen := h.length
  rw [List.length_append] at hlen
  refine ⟨by omega, ?_, h.plain⟩
  rw [← List.drop_drop, h.drop, List.drop_left]

theorem At.get (h : At s p i) : s[i]?.getD '\x00' = p.head?.getD '\x00' := by
  rw [← h.drop, List.head?_drop]

theorem At.charAt (h : At s p i) : charAt s i = .ok (p.head?.getD '\x00') := by
  unfold asm_reads.charAt
  rw [if_pos h.le, h.get]

theorem At.stringAt (h : At s p i) : stringAt s i = .ok p := by
  unfold asm_reads.stringAt
  rw [if_pos h.le, h.drop]

/-- The copy of a fixed length needs room up to the terminator. -/
theorem At.memcpy (h : At s p i) (n : Nat) : memcpy s i n =
    if n ≤ p.length + 1 then .ok ((p ++ ['\x00']).take n) else .error .outside := by
  have hlen := h.length
  unfold asm_reads.memcpy
  rw [List.drop_append_of_le_length h.le, h.drop]
  split_ifs <;> first | rfl | omega

/-- At the terminator, and only there, the character is the terminator. -/
theorem At.end_iff (h : At s p i) : p.head?.getD '\x00' = '\x00' ↔ p = [] := by
  cases p with
  | nil => simp
  | cons c p =>
    have hc : c ≠ '\x00' := fun he => h.no_nul (by simp [he])
    simp [hc]

/-- A scan stops inside, at the terminator at the latest. -/
theorem scan_eq {test : Char → Bool} (htest : test '\x00' = false) (h : At s p i) :
    ∃ j, scan test s i = .ok j ∧ At s (p.dropWhile test) j ∧ j = i + (p.takeWhile test).length := by
  induction p generalizing i with
  | nil =>
    refine ⟨i, ?_, h, by simp⟩
    rw [scan, dif_pos h.le, h.get]
    simp [htest]
  | cons c p ih =>
    rw [scan, dif_pos h.le, h.get]
    cases hc : test c with
    | false =>
      refine ⟨i, ?_, ?_, ?_⟩
      · simp [hc]
      · rwa [List.dropWhile_cons_of_neg (by simp [hc])]
      · rw [List.takeWhile_cons_of_neg (by simp [hc])]
        rfl
    | true =>
      obtain ⟨j, hscan, hat, hj⟩ := ih (i := i + 1) (At.skip (a := [c]) h)
      refine ⟨j, ?_, ?_, ?_⟩
      · simp [hc, hscan]
      · rwa [List.dropWhile_cons_of_pos hc]
      · rw [hj, List.takeWhile_cons_of_pos hc, List.length_cons]
        omega

theorem SKIP_BLANK_eq (h : At s p i) :
    ∃ j, SKIP_BLANK s i = .ok j ∧ At s (asm.SKIP_BLANK p) j := by
  have htest : (fun c => decide (c ≠ '\x00') && isBlank c) = isBlank := by
    funext c
    by_cases hc : c = '\x00'
    · subst hc
      rfl
    · simp [hc]
  obtain ⟨j, hscan, hat, -⟩ := @scan_eq s p i isBlank rfl h
  refine ⟨j, ?_, hat⟩
  unfold SKIP_BLANK
  rw [htest]
  exact hscan

/-! ## The tokens are read inside -/

/-- The same value, and the position where the text goes on behind it. -/
def Behind {α : Type} (s : Text) (x : α × Text) (y : α × Nat) : Prop := x.1 = y.1 ∧ At s x.2 y.2

theorem parse_delim_follows {d : Char} (hd : d ≠ '\x00') (h : At s p i) :
    Follows (At s) PARSE_ERR (asm.parse_delim p d) (parse_delim s i d) := by
  obtain ⟨j, hskip, hat⟩ := SKIP_BLANK_eq h
  unfold parse_delim asm.parse_delim
  rw [hskip, ok_bind, hat.charAt, ok_bind]
  generalize asm.SKIP_BLANK p = q at hat
  cases q with
  | nil =>
    rw [if_neg (by simpa using hd.symm)]
    exact .failed
  | cons c q =>
    refine Follows.ite (by simp) (fun _ => ?_) fun _ => .failed
    exact .took (At.skip (a := [c]) hat)

/-- The texts agree on all of the second one. -/
theorem front_of_take {a b : Text} (h : a.take b.length = b) : ∃ r, a = b ++ r :=
  ⟨a.drop b.length, by rw [← congrArg (· ++ a.drop b.length) h, List.take_append_drop]⟩

theorem find_register_front {r : asm.Reg} (h : find_register p = some r) :
    ∃ t, p = r.name ++ t ∧ r.namelen = r.name.length := by
  have hlen := asm.register_lengths r (List.mem_of_find?_eq_some h)
  have hsame := List.find?_some h
  simp only [asm.sameFront, beq_iff_eq, hlen, List.take_length] at hsame
  obtain ⟨t, ht⟩ := front_of_take hsame
  exact ⟨t, ht, hlen⟩

theorem find_instr_front {inst : Instr} (h : find_instr (p.take 6) = some inst) :
    ∃ t, p = inst.name ++ t ∧ inst.len = inst.name.length := by
  obtain ⟨hlen, h6, -⟩ := asm.instr_set_len inst (List.mem_of_find?_eq_some h)
  have hsame := List.find?_some h
  simp only [asm.sameFront, beq_iff_eq, List.take_take, Nat.min_eq_left h6] at hsame
  rw [hlen, List.take_length] at hsame
  obtain ⟨t, ht⟩ := front_of_take hsame.symm
  exact ⟨t, ht, hlen⟩

theorem parse_reg_follows (h : At s p i) :
    Follows (Behind s) PARSE_ERR (asm.parse_reg p) (parse_reg s i) := by
  obtain ⟨j, hskip, hat⟩ := SKIP_BLANK_eq h
  unfold parse_reg asm.parse_reg
  rw [hskip, ok_bind, hat.stringAt, ok_bind]
  simp only
  cases hreg : find_register (asm.SKIP_BLANK p) with
  | none => exact .failed
  | some reg =>
    obtain ⟨t, ht, hlen⟩ := find_register_front hreg
    rw [ht] at hat ⊢
    refine .took ⟨rfl, ?_⟩
    show At s ((reg.name ++ t).drop reg.namelen) (j + reg.namelen)
    rw [hlen, List.drop_left]
    exact hat.skip

/-- Six bytes from the mnemonic on are inside when at least five characters are left of the line,
its terminator being the sixth. -/
theorem parse_instr_follows (h : At s p i) (hlen : 5 ≤ (asm.SKIP_BLANK p).length) :
    Follows (Behind s) PARSE_ERR (asm.parse_instr p) (parse_instr s i) := by
  obtain ⟨j, hskip, hat⟩ := SKIP_BLANK_eq h
  unfold parse_instr asm.parse_instr
  rw [hskip, ok_bind, hat.memcpy, if_pos (by omega), ok_bind]
  have hstring : ((asm.SKIP_BLANK p ++ ['\x00']).take 6).takeWhile (· ≠ '\x00') =
      (asm.SKIP_BLANK p).take 6 := by
    have hpass : ∀ c ∈ (asm.SKIP_BLANK p).take 6, decide (c ≠ '\x00') = true := fun c hc => by
      rw [decide_eq_true_iff]
      rintro rfl
      exact hat.no_nul (List.mem_of_mem_take hc)
    rw [List.take_append, List.takeWhile_append_of_pos hpass]
    cases 6 - (asm.SKIP_BLANK p).length <;> simp
  rw [hstring]
  simp only
  cases hinst : find_instr ((asm.SKIP_BLANK p).take 6) with
  | none => exact .failed
  | some inst =>
    obtain ⟨t, ht, hinstlen⟩ := find_instr_front hinst
    rw [ht] at hat ⊢
    refine .took ⟨rfl, ?_⟩
    show At s ((inst.name ++ t).drop inst.len) (j + inst.len)
    rw [hinstlen, List.drop_left]
    exact hat.skip

/-- With fewer characters the copy reads from behind the line. -/
theorem parse_instr_outside (h : At s p i) (hlen : (asm.SKIP_BLANK p).length < 5) :
    parse_instr s i = .error .outside := by
  obtain ⟨j, hskip, hat⟩ := SKIP_BLANK_eq h
  unfold parse_instr
  rw [hskip, ok_bind, hat.memcpy, if_neg (by omega), error_bind]

theorem letter_at (p : Text) : IS_LETTER [p.head?.getD '\x00'] = IS_LETTER p := by
  cases p <;> rfl

theorem digit_at (p : Text) : IS_DIGIT [p.head?.getD '\x00'] = IS_DIGIT p := by
  cases p <;> rfl

/-- A character of a symbol is no blank and no terminator, so the loop tests too much. -/
theorem symbol_test : (fun c => !isBlank c && decide (c ≠ '\x00') && isSymbolChar c) =
    isSymbolChar := by
  funext c
  cases hc : isSymbolChar c with
  | false => simp
  | true =>
    have hnul : c ≠ '\x00' := by
      rintro rfl
      exact absurd hc (by decide)
    have hblank : isBlank c = false := by
      rw [Bool.eq_false_iff]
      intro hb
      simp only [isBlank, Bool.or_eq_true, beq_iff_eq] at hb
      rcases hb with rfl | rfl <;> exact absurd hc (by decide)
    simp [hnul, hblank]

theorem parse_symbol_follows (h : At s p i) :
    Follows (Behind s) PARSE_ERR (asm.parse_symbol p) (parse_symbol s i) := by
  obtain ⟨j, hskip, hat⟩ := SKIP_BLANK_eq h
  unfold parse_symbol asm.parse_symbol
  rw [hskip, ok_bind, hat.charAt, ok_bind, letter_at, symbol_test]
  generalize asm.SKIP_BLANK p = q at hat
  simp only
  cases hl : IS_LETTER q with
  | false => exact .failed
  | true =>
    obtain ⟨k, hscan, hbehind, hk⟩ := @scan_eq s q j isSymbolChar rfl hat
    have hpre : q.takeWhile isSymbolChar <+: q := List.takeWhile_prefix _
    have hle := hpre.length_le
    have hcopy : memcpy s j (k - j) = .ok (q.takeWhile isSymbolChar) := by
      rw [hat.memcpy, if_pos (by omega), hk, Nat.add_sub_cancel_left,
        ← List.prefix_iff_eq_take.mp (hpre.trans (List.prefix_append q _))]
    simp only [Bool.not_true, Bool.false_eq_true, if_false, if_true]
    rw [hscan, ok_bind, hcopy, ok_bind]
    exact .took ⟨rfl, hbehind⟩

/-- `strtoull` leaves the end of what it reads. -/
theorem strtoull_behind (t : Text) : ∃ a, t = a ++ (strtoull t).2 := by
  obtain ⟨sign, neg, t₁, hsign, hcs, -⟩ := asm.takeSign_split (t.dropWhile isspace)
  obtain ⟨base, mark, t₂, hbase, ht, -⟩ := asm.takeBase_split t₁
  unfold strtoull
  simp only [hsign, hbase]
  split_ifs
  · exact ⟨[], rfl⟩
  · refine ⟨t.takeWhile isspace ++ (sign ++ (mark ++ t₂.takeWhile (isDigitIn base))), ?_⟩
    simp only [List.append_assoc, List.takeWhile_append_dropWhile]
    rw [← ht, ← hcs, List.takeWhile_append_dropWhile]

/-- A number never fails. -/
theorem parse_digit_eq (h : At s p i) :
    ∃ j, parse_digit s i = .ok ((asm.parse_digit p).1, j) ∧ At s (asm.parse_digit p).2 j := by
  obtain ⟨j, hskip, hat⟩ := SKIP_BLANK_eq h
  unfold parse_digit asm.parse_digit
  rw [hskip, ok_bind, hat.stringAt, ok_bind]
  generalize asm.SKIP_BLANK p = q at hat
  obtain ⟨a, ha⟩ := strtoull_behind q
  have hlen := congrArg List.length ha
  rw [List.length_append] at hlen
  refine ⟨j + a.length, ?_, ?_⟩
  · rw [show a.length = q.length - (strtoull q).2.length by omega]
    rfl
  · rw [ha] at hat
    exact hat.skip

theorem parse_letter_follows (h : At s p i) (par : Option Word) :
    Follows (Behind s) PARSE_ERR
      (if IS_LETTER p = true then (asm.parse_symbol p).map fun (name, q) => (.symbol name, q)
        else par.map fun value => (.digit value, p))
      (parse_letter s i par) := by
  unfold parse_letter
  rw [h.charAt, ok_bind, letter_at]
  refine Follows.ite Iff.rfl (fun _ => ?_) fun _ => ?_
  · rw [Option.map_eq_bind]
    exact (parse_symbol_follows h).bind fun x y hxy => .took ⟨congrArg Token.symbol hxy.1, hxy.2⟩
  · cases par with
    | none => exact .failed
    | some value => exact .took ⟨rfl, h⟩

theorem parse_imm_follows (h : At s p i) :
    Follows (Behind s) PARSE_ERR (asm.parse_imm p) (parse_imm s i) := by
  obtain ⟨j, hskip, hat⟩ := SKIP_BLANK_eq h
  unfold parse_imm asm.parse_imm
  rw [hskip, ok_bind, hat.charAt, ok_bind]
  generalize asm.SKIP_BLANK p = q at hat
  simp only
  cases q with
  | nil => exact parse_letter_follows hat none
  | cons c q =>
    refine Follows.ite (by simp [asm.IS_IMM]) (fun _ => ?_) fun _ => ?_
    · have hbehind : At s q (j + 1) := At.skip (a := [c]) hat
      rw [hbehind.charAt, ok_bind, digit_at]
      show Follows (Behind s) PARSE_ERR (if (!IS_DIGIT q) = true then none else _) _
      cases hd : IS_DIGIT q with
      | false => exact .failed
      | true =>
        obtain ⟨k, hdigit, hk⟩ := parse_digit_eq hbehind
        simp only [if_true]
        rw [hdigit, ok_bind]
        exact parse_letter_follows hk (some (asm.parse_digit q).1)
    · exact parse_letter_follows hat none

theorem parse_data_follows (h : At s p i) :
    Follows (Behind s) PARSE_ERR (asm.parse_data p) (parse_data s i) := by
  obtain ⟨j, hskip, hat⟩ := SKIP_BLANK_eq h
  unfold parse_data asm.parse_data
  rw [hskip, ok_bind, hat.charAt, ok_bind, digit_at]
  generalize asm.SKIP_BLANK p = q at hat
  refine Follows.ite Iff.rfl (fun _ => ?_) fun _ => parse_letter_follows hat none
  obtain ⟨k, hdigit, hk⟩ := parse_digit_eq hat
  rw [hdigit, ok_bind]
  exact parse_letter_follows hk (some (asm.parse_digit q).1)

theorem parse_mem_follows (h : At s p i) :
    Follows (fun x y => (x.1 = y.1 ∧ x.2.1 = y.2.1) ∧ At s x.2.2 y.2.2) PARSE_ERR
      (asm.parse_mem p) (parse_mem s i) := by
  obtain ⟨j, hskip, hat⟩ := SKIP_BLANK_eq h
  unfold parse_mem asm.parse_mem
  rw [hskip, ok_bind, hat.charAt, ok_bind]
  generalize asm.SKIP_BLANK p = q at hat
  refine Follows.ite ?_ (fun _ => .failed) fun _ => ?_
  · rw [hat.end_iff]
    exact List.isEmpty_iff
  · obtain ⟨k, hdigit, hk⟩ := parse_digit_eq hat
    rw [hdigit, ok_bind]
    refine (parse_delim_follows (by decide) hk).bind fun p₁ i₁ h₁ => ?_
    refine (parse_reg_follows h₁).bind fun x y hxy => ?_
    exact (parse_delim_follows (by decide) hxy.2).bind fun p₂ i₂ h₂ => .took ⟨⟨rfl, hxy.1⟩, h₂⟩

theorem parse_label_follows (h : At s p i) :
    Follows (Behind s) PARSE_ERR (asm.parse_label p) (parse_label s i) := by
  obtain ⟨j, hskip, hat⟩ := SKIP_BLANK_eq h
  have hsymbol : asm.parse_symbol p = asm.parse_symbol (asm.SKIP_BLANK p) := by
    unfold asm.parse_symbol
    rw [asm.skip_skip]
  unfold parse_label asm.parse_label
  rw [hskip, ok_bind, hsymbol]
  refine (parse_symbol_follows hat).bind fun x y hxy => ?_
  exact (parse_delim_follows (by decide) hxy.2).bind fun p₁ i₁ h₁ => .took ⟨hxy.1, h₁⟩

/-! ## A line is read inside, or the mnemonic is too near its end -/

theorem parse_operands_follows (icode : IType) (h : At s p i) :
    Follows Eq PARSE_ERR (asm.parse_operands icode p) (parse_operands icode s i) := by
  cases icode with
  | I_NOP | I_HALT | I_RET | I_DIRECTIVE => exact .took rfl
  | I_RRMOVQ | I_ALU =>
    refine (parse_reg_follows h).bind fun x y hxy => ?_
    refine (parse_delim_follows (by decide) hxy.2).bind fun p₁ i₁ h₁ => ?_
    exact (parse_reg_follows h₁).bind fun x' y' hxy' => .took (by rw [hxy.1, hxy'.1])
  | I_IRMOVQ =>
    refine (parse_imm_follows h).bind fun x y hxy => ?_
    refine (parse_delim_follows (by decide) hxy.2).bind fun p₁ i₁ h₁ => ?_
    exact (parse_reg_follows h₁).bind fun x' y' hxy' => .took (by rw [hxy.1, hxy'.1])
  | I_RMMOVQ =>
    refine (parse_reg_follows h).bind fun x y hxy => ?_
    refine (parse_delim_follows (by decide) hxy.2).bind fun p₁ i₁ h₁ => ?_
    exact (parse_mem_follows h₁).bind fun x' y' hxy' =>
      .took (by rw [hxy.1, hxy'.1.1, hxy'.1.2])
  | I_MRMOVQ =>
    refine (parse_mem_follows h).bind fun x y hxy => ?_
    refine (parse_delim_follows (by decide) hxy.2).bind fun p₁ i₁ h₁ => ?_
    exact (parse_reg_follows h₁).bind fun x' y' hxy' =>
      .took (by rw [hxy.1.1, hxy.1.2, hxy'.1])
  | I_JMP | I_CALL =>
    exact (parse_symbol_follows h).bind fun x y hxy => .took (by rw [hxy.1])
  | I_PUSHQ | I_POPQ =>
    exact (parse_reg_follows h).bind fun x y hxy => .took (by rw [hxy.1])

end Positions

variable {heap : Nat → Text} {st : Asm} {text p : Text} {i : Nat}

theorem parse_data_line_eq (bin : Bin) (h : At text p i) :
    parse_data_line heap st bin text i = lift (asm.parse_data_line heap st bin p) := by
  have hdata := parse_data_follows h
  unfold parse_data_line asm.parse_data_line
  generalize asm.parse_data p = o, parse_data text i = x at hdata
  cases hdata with
  | failed => rfl
  | @took a b hab =>
    obtain ⟨par, q⟩ := a
    obtain ⟨par', j⟩ := b
    obtain rfl : par = par' := hab.1
    cases par with
    | digit val => rfl
    | symbol sym =>
      simp only [ok_bind]
      split <;> rfl

/-- With room for the six bytes, the rest of the line is read inside, and as the assembler does. -/
theorem parse_body_eq (h : At text p i) (hlen : 5 ≤ (asm.SKIP_BLANK p).length) :
    parse_body heap st text i = lift (asm.parse_body heap st text p) := by
  have hinstr := parse_instr_follows h hlen
  unfold parse_body asm.parse_body
  generalize asm.parse_instr p = o, parse_instr text i = x at hinstr
  cases hinstr with
  | failed => rfl
  | @took a b hab =>
    obtain ⟨inst, q⟩ := a
    obtain ⟨inst', j⟩ := b
    obtain ⟨rfl, hat⟩ : inst = inst' ∧ At text q j := hab
    obtain ⟨k, hdigit, -⟩ := parse_digit_eq hat
    simp only [ok_bind]
    split_ifs
    · rw [parse_data_line_eq _ hat]
      generalize asm.parse_data_line heap _ _ q = r
      cases r <;> rfl
    · rw [hdigit]
      rfl
    · rw [hdigit, ok_bind]
      generalize align _ _ = r
      cases r <;> rfl
    · rfl
    · rw [(parse_operands_follows inst.icode hat).eq]
      cases asm.parse_operands inst.icode q <;> rfl

theorem parse_body_outside (h : At text p i) (hlen : (asm.SKIP_BLANK p).length < 5) :
    parse_body heap st text i = .error .outside := by
  unfold parse_body
  rw [parse_instr_outside h hlen, error_bind]

/-- In front of the mnemonic of a line, wherever one is looked for, at least five characters are
left of it. -/
def MnemonicFits (heap : Nat → Text) (st : Asm) (text : Text) : Prop :=
  asm.LabelIsNew heap st text → ∀ p ∈ asm.bodyOf text, 5 ≤ p.length

/-- The allocation of a name, where the line starts with a letter. -/
theorem named_eq (st : Asm) {q : Text} (hq : asm.SKIP_BLANK q = q) :
    (if (asm.parse_symbol q).isSome = true then { st with allocs := st.allocs + 1 } else st) =
      { st with allocs := if IS_LETTER q = true then st.allocs + 1 else st.allocs } := by
  unfold asm.parse_symbol
  rw [hq]
  cases hl : IS_LETTER q <;> simp [hl]

theorem parse_body_guarded (st : Asm) (hp : asm.SKIP_BLANK p = p) (h : At text p i) :
    Guarded .fault .outside (5 ≤ p.length) (parse_body heap st text i) (asm.parse_body heap st text p) := by
  by_cases hlen : 5 ≤ p.length
  · exact Or.inl ⟨hlen, parse_body_eq h (by rwa [hp])⟩
  · exact Or.inr ⟨hlen, parse_body_outside h (by rw [hp]; omega)⟩

/-- A line without a terminator inside: it is read inside, and as the assembler reads it, if its
mnemonic is not too near its end, and else not. -/
theorem parse_line_guarded (h0 : '\x00' ∉ text) :
    Guarded .fault .outside (MnemonicFits heap st text) (parse_line heap st text)
      (asm.parse_line heap st text) := by
  obtain ⟨j, hskip, hat⟩ := SKIP_BLANK_eq (At.start h0)
  have hidem := asm.skip_skip text
  unfold parse_line asm.parse_line MnemonicFits asm.bodyOf asm.LabelIsNew asm.labelName asm.labelOf
  rw [hskip, ok_bind]
  generalize asm.SKIP_BLANK text = q at hat hidem
  rcases q with _ | ⟨c, r⟩
  · rw [hat.charAt]
    exact Or.inl ⟨fun _ p hp => by simp [asm.IS_END] at hp, rfl⟩
  have hchar : charAt text j = .ok c := hat.charAt
  rw [hchar, ok_bind]
  by_cases hcomm : c = '#'
  · subst hcomm
    exact Or.inl ⟨fun _ p hp => by simp [asm.IS_END, asm.IS_COMMENT] at hp, rfl⟩
  have hnul : c ≠ '\x00' := fun he => hat.no_nul (by simp [he])
  have hend : asm.IS_END (c :: r) = false := rfl
  have hnocomm : asm.IS_COMMENT (c :: r) = false := by simp [asm.IS_COMMENT, hcomm]
  have hlabel := parse_label_follows hat
  have hsymbol := @asm.parse_label_symbol (c :: r)
  rw [if_neg hnul, if_neg hcomm]
  simp only [hend, hnocomm, Bool.or_self, Bool.false_eq_true, if_false, named_eq st hidem]
  generalize asm.parse_label (c :: r) = o, parse_label text j = x at hlabel hsymbol
  cases hlabel with
  | failed =>
    refine (parse_body_guarded _ hidem hat).congr ?_
    simp
  | @took a b hab =>
    obtain ⟨name, p⟩ := a
    obtain ⟨name', k⟩ := b
    obtain ⟨rfl, hk⟩ : name = name' ∧ At text p k := hab
    simp only [hsymbol rfl, Option.getD_some, Option.map_some, Option.mem_def, Option.some.injEq,
      forall_eq']
    have hadd : ∀ n : Nat, add_symbol { st with allocs := n } ⟨name, heap st.allocs⟩ =
        if (asm.find_symbol st ⟨name, heap st.allocs⟩).isSome = true then none
        else some { st with symtab := st.symtab ++ [(⟨name, heap st.allocs⟩, st.vmaddr)], allocs := n } :=
      fun _ => rfl
    rw [hadd, hadd]
    cases hold : asm.find_symbol st ⟨name, heap st.allocs⟩ with
    | some v => exact Or.inl ⟨fun hnew => by simp at hnew, rfl⟩
    | none =>
      obtain ⟨k', hskip', hat'⟩ := SKIP_BLANK_eq hk
      have hidem' := asm.skip_skip p
      simp only [Option.isSome_none, Bool.false_eq_true, if_false, true_imp_iff]
      rw [hskip', ok_bind, hat'.charAt, ok_bind]
      generalize asm.SKIP_BLANK p = q at hat' hidem'
      have hbare : (q.head?.getD '\x00' = '\x00' ∨ q.head?.getD '\x00' = '#') ↔
          (asm.IS_END q || asm.IS_COMMENT q) = true := by
        rw [hat'.end_iff]
        cases q <;> simp [asm.IS_END, asm.IS_COMMENT]
      by_cases hb : (asm.IS_END q || asm.IS_COMMENT q) = true
      · rw [if_pos (hbare.mpr hb), if_pos hb, if_pos hb]
        exact Or.inl ⟨fun p hp => by simp at hp, rfl⟩
      · rw [if_neg (mt hbare.mp hb), if_neg hb, if_neg hb]
        refine (parse_body_guarded _ hidem' hat').congr ?_
        simp

/-! ## The ends of line -/

/-- The characters that the loop over the ends of line takes off. -/
def isEol (c : Char) : Bool := c == '\n' || c == '\r'

/-- What is left of a string without the ends of line behind it. -/
def stripped (buf : Text) : Text := (buf.reverse.dropWhile isEol).reverse

theorem stripped_snoc (buf : Text) (c : Char) :
    stripped (buf ++ [c]) = if isEol c = true then stripped buf else buf ++ [c] := by
  unfold stripped
  rw [List.reverse_append, List.reverse_singleton, List.singleton_append, List.dropWhile_cons]
  split <;> simp

/-- The loop stops behind the last character that stays. When none does, it goes on to the
character in front of the buffer. -/
theorem strip_loop_eq {buf : Text} {n : Nat} (hn : n ≤ buf.length) (hmax : n ≤ MAX_INSLEN) :
    strip_loop buf n = if stripped (buf.take n) = [] then .error .outside
      else .ok (stripped (buf.take n)).length := by
  induction n with
  | zero => simp [strip_loop, stripped]
  | succ n ih =>
    have hlt : n < buf.length := by omega
    rw [strip_loop, if_pos (show n < MAX_INSLEN by omega), List.take_add_one,
      List.getElem?_eq_getElem hlt, Option.toList_some, stripped_snoc, Option.getD_some]
    have heol : (buf[n] = '\n' ∨ buf[n] = '\r') ↔ isEol buf[n] = true := by simp [isEol]
    simp only [heol]
    split
    · exact ih (by omega) (by omega)
    · rw [if_neg (List.concat_ne_nil _ _), List.length_append, List.length_take_of_le (by omega)]
      rfl

/-- There is a character in front of the first terminator that is no end of line. -/
def NotBare (line : Text) : Prop := ∃ c ∈ line.takeWhile (· ≠ '\x00'), isEol c = false

theorem stripped_eq_nil (buf : Text) : stripped buf = [] ↔ ∀ c ∈ buf, isEol c = true := by
  unfold stripped
  rw [List.reverse_eq_nil_iff, List.dropWhile_eq_nil_iff]
  simp

theorem asm_strip_eq (line : Text) : asm.strip line = stripped (line.takeWhile (· ≠ '\x00')) := rfl

/-- A line of the file, as long as `fgets` makes it: the loop stays inside the buffer if something
is left of it, and leaves what `assemble` keeps. -/
theorem strip_guarded {line : Text} (hlen : line.length < MAX_INSLEN) :
    NotBare line ∧ strip line = .ok (asm.strip line) ∨
      ¬ NotBare line ∧ strip line = .error .outside := by
  have hle := (List.takeWhile_sublist (p := (· ≠ '\x00')) (l := line)).length_le
  unfold strip NotBare
  rw [asm_strip_eq]
  generalize line.takeWhile (· ≠ '\x00') = buf at hle
  have hloop := @strip_loop_eq buf buf.length (Nat.le_refl _) (by omega)
  rw [List.take_length] at hloop
  simp only
  rw [hloop]
  by_cases hnil : stripped buf = []
  · right
    rw [if_pos hnil]
    rw [stripped_eq_nil] at hnil
    exact ⟨fun ⟨c, hc, he⟩ => by simp [hnil c hc] at he, rfl⟩
  · left
    rw [if_neg hnil]
    constructor
    · by_contra hall
      refine hnil ((stripped_eq_nil buf).mpr fun c hc => ?_)
      rw [← Bool.not_eq_false]
      exact fun he => hall ⟨c, hc, he⟩
    · have hpre : stripped buf <+: buf := by
        unfold stripped
        rw [← List.reverse_suffix, List.reverse_reverse]
        exact List.dropWhile_suffix isEol
      show Except.ok (buf.take (stripped buf).length) = _
      rw [← List.prefix_iff_eq_take.mp hpre]

theorem strip_plain (line : Text) : '\x00' ∉ asm.strip line := by
  intro hm
  unfold asm.strip at hm
  have hmem := (List.dropWhile_suffix _).mem (List.mem_reverse.mp hm)
  have hpass := List.mem_takeWhile_imp (List.mem_reverse.mp hmem)
  simp at hpass

/-! ## The file -/

/-- A line that `assemble` reads inside: the loop over its ends of line stops in the buffer, and its
mnemonic is not too near its end. -/
def LineFits (heap : Nat → Text) (st : Asm) (line : Text) : Prop :=
  NotBare line ∧ MnemonicFits heap st (asm.strip line)

/-- One line. -/
theorem assembleLine_guarded {line : Text} (hlen : line.length < MAX_INSLEN) (st : Asm) :
    Guarded .fault .outside (LineFits heap st line) (assembleLine heap st line)
      (asm.assembleLine heap st (asm.strip line)) := by
  unfold assembleLine asm.assembleLine LineFits
  rcases strip_guarded hlen with ⟨hbare, hstrip⟩ | ⟨hbare, hstrip⟩
  · rw [hstrip, ok_bind]
    rcases @parse_line_guarded heap st _ (strip_plain line) with ⟨hfits, hline⟩ | ⟨hfits, hline⟩
    · refine Or.inl ⟨⟨hbare, hfits⟩, ?_⟩
      rw [hline]
      cases asm.parse_line heap st (asm.strip line) <;> rfl
    · refine Or.inr ⟨fun h => hfits h.2, ?_⟩
      rw [hline, error_bind]
  · rw [hstrip, error_bind]
    exact Or.inr ⟨fun h => hbare h.1, rfl⟩

theorem fgets_length (n : Nat) (cs : Text) : (asm.fgets n cs).1.length ≤ n := by
  induction n generalizing cs with
  | zero => exact Nat.le_refl 0
  | succ n ih =>
    cases cs with
    | nil => exact Nat.zero_le _
    | cons c cs =>
      unfold asm.fgets
      split
      · simp
      · exact Nat.succ_le_succ (ih cs)

theorem fgetsLines_length {fuel : Nat} {cs line : Text} (h : line ∈ fgetsLines fuel cs) :
    line.length < MAX_INSLEN := by
  induction fuel generalizing cs with
  | zero => cases h
  | succ fuel ih =>
    unfold fgetsLines at h
    split at h
    · cases h
    · rcases List.mem_cons.mp h with rfl | h
      · exact Nat.lt_succ_of_le (fgets_length (MAX_INSLEN - 1) cs)
      · exact ih h

/-- The lines of the source are those that `fgets` gives, without their ends of line. -/
theorem readLines_eq (fuel : Nat) (cs : Text) :
    asm.readLines fuel cs = (fgetsLines fuel cs).map asm.strip := by
  induction fuel generalizing cs with
  | zero => rfl
  | succ fuel ih =>
    unfold asm.readLines fgetsLines
    split
    · rfl
    · exact congrArg (asm.strip _ :: ·) (ih _)

/-- The state in which `assemble` comes to the line behind the lines `front`. -/
def stateBehind (heap : Nat → Text) (front : List Text) : Except Fault Asm :=
  (front.map asm.strip).foldlM (asm.assembleLine heap) asm.init

/-- The checked assembler is the assembler, as long as every line that it comes to fits. -/
theorem assemble_guarded (heap : Nat → Text) (input : Text) :
    Guarded .fault .outside (∀ front line back st,
        fgetsLines input.length input = front ++ line :: back → stateBehind heap front = .ok st →
        LineFits heap st line)
      (assemble heap input) (asm.assemble heap input) := by
  unfold assemble asm.assemble
  rw [readLines_eq]
  exact guarded_foldlM (fun line hline st => assembleLine_guarded (fgetsLines_length hline) st) _

/-! ## The law -/

/-- Every read of a file stays inside exactly if every line that `assemble` comes to has something
besides its ends of line, and at least five characters from its mnemonic on. -/
theorem every_read_is_inside_iff (heap : Nat → Text) (input : Text) :
    assemble heap input ≠ .error .outside ↔
      ∀ front line back st, fgetsLines input.length input = front ++ line :: back →
        stateBehind heap front = .ok st → LineFits heap st line :=
  (assemble_guarded heap input).ne_outside_iff fun f he => by cases he

/-- An empty line is read from in front of the buffer. -/
theorem an_empty_line_is_read_outside :
    ¬ ∀ heap input, assemble heap input ≠ .error .outside := by
  intro h
  exact h asm.bareNames ['\n'] rfl

end ics_labs.asm_reads
