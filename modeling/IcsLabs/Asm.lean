-- The assembler of lab5 (y64asm.c): parse_line turns a line of source into bytes
-- and entries of the symbol and relocation tables, assemble runs over the lines,
-- and relocate fills the symbols in.
import IcsLabs.CText
import IcsLabs.Memory

open ics_labs.byte_words ics_labs.memory ics_labs.ctext

namespace ics_labs.asm

/-! ## The tables -/

inductive IType
  | I_HALT | I_NOP | I_RRMOVQ | I_IRMOVQ | I_RMMOVQ | I_MRMOVQ | I_ALU | I_JMP | I_CALL
  | I_RET | I_PUSHQ | I_POPQ | I_DIRECTIVE
  deriving DecidableEq, Repr

open IType

def IType.code : IType → Nibble
  | I_HALT => 0
  | I_NOP => 1
  | I_RRMOVQ => 2
  | I_IRMOVQ => 3
  | I_RMMOVQ => 4
  | I_MRMOVQ => 5
  | I_ALU => 6
  | I_JMP => 7
  | I_CALL => 8
  | I_RET => 9
  | I_PUSHQ => 10
  | I_POPQ => 11
  | I_DIRECTIVE => 12

def F_NONE : Nibble := 0

def A_ADD : Nibble := 0
def A_SUB : Nibble := 1
def A_AND : Nibble := 2
def A_XOR : Nibble := 3

def C_YES : Nibble := 0
def C_LE : Nibble := 1
def C_L : Nibble := 2
def C_E : Nibble := 3
def C_NE : Nibble := 4
def C_GE : Nibble := 5
def C_G : Nibble := 6

def D_DATA : Nibble := 0
def D_POS : Nibble := 1
def D_ALIGN : Nibble := 2

structure Reg where
  name : Text
  id : Nibble
  namelen : Nat
  deriving DecidableEq

def reg_table : List Reg :=
  [⟨"%rax".toList, 0, 4⟩, ⟨"%rcx".toList, 1, 4⟩, ⟨"%rdx".toList, 2, 4⟩, ⟨"%rbx".toList, 3, 4⟩,
   ⟨"%rsp".toList, 4, 4⟩, ⟨"%rbp".toList, 5, 4⟩, ⟨"%rsi".toList, 6, 4⟩, ⟨"%rdi".toList, 7, 4⟩,
   ⟨"%r8".toList, 8, 3⟩, ⟨"%r9".toList, 9, 3⟩, ⟨"%r10".toList, 10, 4⟩, ⟨"%r11".toList, 11, 4⟩,
   ⟨"%r12".toList, 12, 4⟩, ⟨"%r13".toList, 13, 4⟩, ⟨"%r14".toList, 14, 4⟩]

/-- `strncmp(a, b, n) == 0`: the two strings agree up to `n` characters or their end. -/
def sameFront (a b : Text) (n : Nat) : Bool := a.take n == b.take n

def find_register (name : Text) : Option Reg :=
  reg_table.find? fun r => sameFront name r.name r.namelen

/-- A row of the instruction table. Its `code` packs `icode` and `ifun`. -/
structure Instr where
  name : Text
  len : Nat
  icode : IType
  ifun : Nibble
  bytes : Nat
  deriving DecidableEq

def Instr.code (i : Instr) : Byte := hpack i.icode.code i.ifun

def instr_set : List Instr :=
  [⟨"nop".toList, 3, I_NOP, F_NONE, 1⟩,
   ⟨"halt".toList, 4, I_HALT, F_NONE, 1⟩,
   ⟨"rrmovq".toList, 6, I_RRMOVQ, F_NONE, 2⟩,
   ⟨"cmovle".toList, 6, I_RRMOVQ, C_LE, 2⟩,
   ⟨"cmovl".toList, 5, I_RRMOVQ, C_L, 2⟩,
   ⟨"cmove".toList, 5, I_RRMOVQ, C_E, 2⟩,
   ⟨"cmovne".toList, 6, I_RRMOVQ, C_NE, 2⟩,
   ⟨"cmovge".toList, 6, I_RRMOVQ, C_GE, 2⟩,
   ⟨"cmovg".toList, 5, I_RRMOVQ, C_G, 2⟩,
   ⟨"irmovq".toList, 6, I_IRMOVQ, F_NONE, 10⟩,
   ⟨"rmmovq".toList, 6, I_RMMOVQ, F_NONE, 10⟩,
   ⟨"mrmovq".toList, 6, I_MRMOVQ, F_NONE, 10⟩,
   ⟨"addq".toList, 4, I_ALU, A_ADD, 2⟩,
   ⟨"subq".toList, 4, I_ALU, A_SUB, 2⟩,
   ⟨"andq".toList, 4, I_ALU, A_AND, 2⟩,
   ⟨"xorq".toList, 4, I_ALU, A_XOR, 2⟩,
   ⟨"jmp".toList, 3, I_JMP, C_YES, 9⟩,
   ⟨"jle".toList, 3, I_JMP, C_LE, 9⟩,
   ⟨"jl".toList, 2, I_JMP, C_L, 9⟩,
   ⟨"je".toList, 2, I_JMP, C_E, 9⟩,
   ⟨"jne".toList, 3, I_JMP, C_NE, 9⟩,
   ⟨"jge".toList, 3, I_JMP, C_GE, 9⟩,
   ⟨"jg".toList, 2, I_JMP, C_G, 9⟩,
   ⟨"call".toList, 4, I_CALL, F_NONE, 9⟩,
   ⟨"ret".toList, 3, I_RET, F_NONE, 1⟩,
   ⟨"pushq".toList, 5, I_PUSHQ, F_NONE, 2⟩,
   ⟨"popq".toList, 4, I_POPQ, F_NONE, 2⟩,
   ⟨".byte".toList, 5, I_DIRECTIVE, D_DATA, 1⟩,
   ⟨".word".toList, 5, I_DIRECTIVE, D_DATA, 2⟩,
   ⟨".long".toList, 5, I_DIRECTIVE, D_DATA, 4⟩,
   ⟨".quad".toList, 5, I_DIRECTIVE, D_DATA, 8⟩,
   ⟨".pos".toList, 4, I_DIRECTIVE, D_POS, 0⟩,
   ⟨".align".toList, 6, I_DIRECTIVE, D_ALIGN, 0⟩]

def find_instr (name : Text) : Option Instr :=
  instr_set.find? fun i => sameFront i.name name i.len

/-! ## The tokens -/

def IS_DIGIT (p : Text) : Bool :=
  match p with
  | c :: _ => ('0' ≤ c && c ≤ '9') || c == '-' || c == '+'
  | [] => false

def IS_LETTER (p : Text) : Bool :=
  match p with
  | c :: _ => ('a' ≤ c && c ≤ 'z') || ('A' ≤ c && c ≤ 'Z')
  | [] => false

def IS_COMMENT (p : Text) : Bool := p.head? == some '#'
def IS_IMM (p : Text) : Bool := p.head? == some '$'
def IS_END (p : Text) : Bool := p.isEmpty

def isBlank (c : Char) : Bool := c == ' ' || c == '\t'

def SKIP_BLANK (p : Text) : Text := p.dropWhile isBlank

/-- The row whose name starts the text, and the text after the name. The code copies six
characters whatever follows; what it copies from behind the end is never looked at. -/
def parse_instr (p : Text) : Option (Instr × Text) :=
  let p := SKIP_BLANK p
  (find_instr (p.take 6)).map fun inst => (inst, p.drop inst.len)

def parse_delim (p : Text) (delim : Char) : Option Text :=
  match SKIP_BLANK p with
  | c :: p => if c = delim then some p else none
  | [] => none

def parse_reg (p : Text) : Option (Nibble × Text) :=
  let p := SKIP_BLANK p
  (find_register p).map fun reg => (reg.id, p.drop reg.namelen)

/-- Is it a character of a symbol? -/
def isSymbolChar (c : Char) : Bool := IS_LETTER [c] || IS_DIGIT [c]

/-- The name of a symbol and the text behind it. -/
def parse_symbol (p : Text) : Option (Text × Text) :=
  let p := SKIP_BLANK p
  if !IS_LETTER p then none
  else some (p.takeWhile isSymbolChar, p.dropWhile isSymbolChar)

/-- This never fails: without a number the value is 0. -/
def parse_digit (p : Text) : Word × Text := strtoull (SKIP_BLANK p)

/-- What an operand may be. -/
inductive Token
  | digit (value : Word)
  | symbol (name : Text)
  deriving DecidableEq

/-- A letter right behind a number starts a symbol, and the symbol counts. -/
def parse_imm (p : Text) : Option (Token × Text) :=
  let p := SKIP_BLANK p
  if IS_IMM p then
    let p := p.drop 1
    if !IS_DIGIT p then none
    else
      let (value, p) := parse_digit p
      if IS_LETTER p then (parse_symbol p).map fun (name, p) => (.symbol name, p)
      else some (.digit value, p)
  else if IS_LETTER p then (parse_symbol p).map fun (name, p) => (.symbol name, p)
  else none

def parse_mem (p : Text) : Option (Word × Nibble × Text) := do
  let p := SKIP_BLANK p
  if IS_END p then none
  else
    let (value, p) := parse_digit p
    let p ← parse_delim p '('
    let (regid, p) ← parse_reg p
    let p ← parse_delim p ')'
    return (value, regid, p)

def parse_data (p : Text) : Option (Token × Text) :=
  let p := SKIP_BLANK p
  if IS_DIGIT p then
    let (value, p) := parse_digit p
    if IS_LETTER p then (parse_symbol p).map fun (name, p) => (.symbol name, p)
    else some (.digit value, p)
  else if IS_LETTER p then (parse_symbol p).map fun (name, p) => (.symbol name, p)
  else none

def parse_label (p : Text) : Option (Text × Text) := do
  let (name, p) ← parse_symbol p
  let p ← parse_delim p ':'
  return (name, p)

/-! ## The state -/

inductive LineType
  | TYPE_COMM | TYPE_INS | TYPE_ERR
  deriving DecidableEq, Repr

open LineType

/-- `bin_t`. Of `codes` the first ten bytes are the array. -/
structure Bin where
  addr : Word
  codes : Contents
  bytes : Nat

structure Line where
  type : LineType
  y64bin : Bin
  y64asm : Text

/-- The name of a symbol. `parse_symbol` allocates no byte for its end, so `strcmp` reads on
through `after`, the bytes that follow the allocation up to a 0. -/
structure Name where
  chars : Text
  after : Text
  deriving DecidableEq

/-- `strcmp(a, b) == 0`. -/
def Name.same (a b : Name) : Bool := a.chars ++ a.after == b.chars ++ b.after

/-- The globals of the assembler. A relocation entry points to a line by its index. -/
structure Asm where
  lines : List Line
  vmaddr : Word
  symtab : List (Name × Word)
  reltab : List (Name × Nat)
  /-- How many names have been allocated. -/
  allocs : Nat

def init : Asm := { lines := [], vmaddr := 0, symtab := [], reltab := [], allocs := 0 }

/-- The assembler ends with an error, or the processor stops it. -/
inductive Fault
  | error | crash
  deriving DecidableEq, Repr

/-- The address of the first symbol with the name. -/
def find_symbol (st : Asm) (name : Name) : Option Word :=
  (st.symtab.find? fun sym => sym.1.same name).map Prod.snd

def add_symbol (st : Asm) (name : Name) : Option Asm :=
  if (find_symbol st name).isSome then none
  else some { st with symtab := st.symtab ++ [(name, st.vmaddr)] }

/-- An entry for the line that is being parsed, which comes behind those in the list. -/
def add_reloc (st : Asm) (name : Name) : Asm :=
  { st with reltab := st.reltab ++ [(name, st.lines.length)] }

/-! ## A line -/

/-- The operands of an instruction: its register byte and its constant. -/
def parse_operands (icode : IType) (p : Text) : Option (Option Byte × Option Token) :=
  match icode with
  | I_NOP | I_HALT | I_RET | I_DIRECTIVE => some (none, none)
  | I_RRMOVQ | I_ALU => do
    let (regA, p) ← parse_reg p
    let p ← parse_delim p ','
    let (regB, _) ← parse_reg p
    return (some (hpack regA regB), none)
  | I_IRMOVQ => do
    let (par, p) ← parse_imm p
    let p ← parse_delim p ','
    let (regB, _) ← parse_reg p
    return (some (hpack REG_NONE regB), some par)
  | I_RMMOVQ => do
    let (regA, p) ← parse_reg p
    let p ← parse_delim p ','
    let (val, regB, _) ← parse_mem p
    return (some (hpack regA regB), some (.digit val))
  | I_MRMOVQ => do
    let (val, regB, p) ← parse_mem p
    let p ← parse_delim p ','
    let (regA, _) ← parse_reg p
    return (some (hpack regA regB), some (.digit val))
  | I_JMP | I_CALL => do
    let (sym, _) ← parse_symbol p
    return (none, some (.symbol sym))
  | I_PUSHQ | I_POPQ => do
    let (regA, _) ← parse_reg p
    return (some (hpack regA REG_NONE), none)

variable (heap : Nat → Text)

/-- A token that names a symbol takes the next allocation and a relocation entry. -/
def add_name (st : Asm) (name : Text) : Asm :=
  { add_reloc st ⟨name, heap st.allocs⟩ with allocs := st.allocs + 1 }

/-- What the operands of an instruction leave in the line and the tables. -/
def put_operands (st : Asm) (bin : Bin) (regs : Option Byte) (const : Option Token) : Bin × Asm :=
  let codes := match regs with
    | some regs => Function.update bin.codes 1 regs
    | none => bin.codes
  match const with
  | none => ({ bin with codes }, st)
  | some (.digit val) => ({ bin with codes := store codes 2 8 val.toNat }, st)
  | some (.symbol sym) => ({ bin with codes }, add_name heap st sym)

/-- `.byte`, `.word`, `.long` and `.quad`. -/
def parse_data_line (st : Asm) (bin : Bin) (p : Text) : Except Fault (Bin × Asm) :=
  match parse_data p with
  | none => .error .error
  | some (.symbol sym, _) => if bin.bytes < 4 then .error .error else .ok (bin, add_name heap st sym)
  | some (.digit val, _) => .ok ({ bin with codes := store bin.codes 0 bin.bytes val.toNat }, st)

/-- `.align`. The remainder is the one of C, and a division that the processor cannot do
stops the assembler. -/
def align (vmaddr val : Word) : Except Fault Word :=
  if val = 0 ∨ val = -1 ∧ vmaddr = BitVec.intMin 64 then .error .crash
  else if vmaddr.srem val ≠ 0 then .ok (vmaddr + (val - vmaddr.srem val))
  else .ok vmaddr

/-- `parse_line` from the instruction on. -/
def parse_body (st : Asm) (text p : Text) : Except Fault (Line × Asm) :=
  match parse_instr p with
  | none => .error .error
  | some (inst, p) =>
    let bin : Bin := { addr := st.vmaddr, codes := Function.update (fun _ => 0) 0 inst.code,
                       bytes := inst.bytes }
    let st := { st with vmaddr := st.vmaddr + BitVec.ofNat 64 inst.bytes }
    if inst.icode = I_DIRECTIVE then
      if inst.ifun = D_DATA then
        (parse_data_line heap st bin p).map fun (bin, st) => (⟨TYPE_INS, bin, text⟩, st)
      else if inst.ifun = D_POS then
        let vmaddr := (parse_digit p).1
        .ok (⟨TYPE_INS, { bin with addr := vmaddr }, text⟩, { st with vmaddr })
      else if inst.ifun = D_ALIGN then
        (align st.vmaddr (parse_digit p).1).map fun vmaddr =>
          (⟨TYPE_INS, { bin with addr := vmaddr }, text⟩, { st with vmaddr })
      else .ok (⟨TYPE_INS, bin, text⟩, st)
    else
      match parse_operands inst.icode p with
      | none => .error .error
      | some (regs, const) =>
        let (bin, st) := put_operands heap st bin regs const
        .ok (⟨TYPE_INS, bin, text⟩, st)

/-- A line, and the tables after it. The text before the first token that is wrong or behind
the last one that is needed does not count. -/
def parse_line (st : Asm) (text : Text) : Except Fault (Line × Asm) :=
  let p := SKIP_BLANK text
  let comm : Line := ⟨TYPE_COMM, ⟨0, fun _ => 0, 0⟩, text⟩
  if IS_END p then .ok (comm, st)
  else if IS_COMMENT p then .ok (comm, st)
  else
    -- the token that may be a label is allocated, label or not
    let name : Name := ⟨((parse_symbol p).map Prod.fst).getD [], heap st.allocs⟩
    let st := if (parse_symbol p).isSome then { st with allocs := st.allocs + 1 } else st
    match parse_label p with
    | some (_, p) =>
      match add_symbol st name with
      | none => .error .error
      | some st =>
        let p := SKIP_BLANK p
        if IS_END p || IS_COMMENT p then
          .ok (⟨TYPE_INS, ⟨st.vmaddr, fun _ => 0, 0⟩, text⟩, st)
        else parse_body heap st text p
    | none => parse_body heap st text p

/-! ## The file -/

/-- `fgets`: up to `n` characters, the newline included. -/
def fgets : Nat → Text → Text × Text
  | n + 1, c :: cs =>
    if c = '\n' then ([c], cs)
    else
      let (line, rest) := fgets n cs
      (c :: line, rest)
  | _, cs => ([], cs)

def MAX_INSLEN : Nat := 512

/-- What `assemble` keeps of a line: the text up to a 0, without the ends of line behind. -/
def strip (line : Text) : Text :=
  ((line.takeWhile (· ≠ '\x00')).reverse.dropWhile fun c => c == '\n' || c == '\r').reverse

/-- The lines of the source. Each takes at least one character, so `fuel` is enough when it
is the length of the text. -/
def readLines : Nat → Text → List Text
  | 0, _ => []
  | fuel + 1, cs =>
    if cs = [] then []
    else
      let (line, rest) := fgets (MAX_INSLEN - 1) cs
      strip line :: readLines fuel rest

def assembleLine (st : Asm) (text : Text) : Except Fault Asm :=
  (parse_line heap st text).map fun (line, st) => { st with lines := st.lines ++ [line] }

def assemble (input : Text) : Except Fault Asm :=
  (readLines input.length input).foldlM (assembleLine heap) init

/-- The struct `bin_t` as memory: `addr` comes first, `codes` at offset 8. -/
def Bin.struct (b : Bin) : Contents := fun x =>
  if x < 8 then byteOf b.addr.toNat x else b.codes (x - 8)

/-- `memcpy(codes + bytes - 8, &addr, sizeof(int))`. Before its first eight bytes, `codes`
has `addr`. -/
def Bin.patch (b : Bin) (a : Word) : Bin :=
  let c := store b.struct b.bytes 4 a.toNat
  { b with addr := BitVec.ofNat 64 (load c 0 8), codes := fun x => c (x + 8) }

@[simp] theorem patch_bytes (b : Bin) (a : Word) : (b.patch a).bytes = b.bytes := by
  simp only [Bin.patch]

def relocateEntry (st : Asm) (rel : Name × Nat) : Except Fault Asm :=
  match find_symbol st rel.1 with
  | none => .error .error
  | some a =>
    .ok { st with lines := st.lines.modify rel.2 fun l => { l with y64bin := l.y64bin.patch a } }

def relocate (st : Asm) : Except Fault Asm := st.reltab.foldlM relocateEntry st

end ics_labs.asm
