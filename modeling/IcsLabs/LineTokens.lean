-- A line of the assembler as a row of tokens: the grammar of the lines that are well formed, and
-- the lines that parse_line takes for an instruction, told by what it reads of their tokens.
import Mathlib.Data.List.DropRight
import IcsLabs.AsmLines

open ics_labs.byte_words ics_labs.memory ics_labs.ctext ics_labs.runs

namespace ics_labs.asm

open IType LineType

/-! ## The grammar -/

/-- A number: a sign or none, and a row of digits with or without a mark. -/
def Numeral (lit : Text) : Prop :=
  ∃ sign neg mag n, lit = sign ++ mag ∧ Sign sign neg ∧ Magnitude mag n

/-- What can stand in the operands of an instruction. -/
inductive Item
  | reg
  | delim (c : Char)
  | imm
  | disp
  | sym
  | data (wide : Bool)
  | num
  deriving DecidableEq

/-- The text is one token of this kind. A displacement may be left out. -/
def Item.Spelled : Item → Text → Prop
  | .reg, t => ∃ id, RegName t id
  | .delim c, t => t = [c]
  | .imm, t => (∃ lit, t = '$' :: lit ∧ Numeral lit) ∨ SymbolName t
  | .disp, t => t = [] ∨ Numeral t
  | .sym, t => SymbolName t
  | .data wide, t => Numeral t ∨ wide = true ∧ SymbolName t
  | .num, t => Numeral t

/-- A token of letters and digits, which ends where they end. -/
def Item.IsWord : Item → Prop
  | .delim _ => False
  | _ => True

def isWordChar (c : Char) : Bool := isSymbolChar c || isNumberChar c

/-- The operands in the order in which they are written. -/
def Instr.items (i : Instr) : List Item :=
  match i.icode with
  | I_NOP | I_HALT | I_RET => []
  | I_RRMOVQ | I_ALU => [.reg, .delim ',', .reg]
  | I_IRMOVQ => [.imm, .delim ',', .reg]
  | I_RMMOVQ => [.reg, .delim ',', .disp, .delim '(', .reg, .delim ')']
  | I_MRMOVQ => [.disp, .delim '(', .reg, .delim ')', .delim ',', .reg]
  | I_JMP | I_CALL => [.sym]
  | I_PUSHQ | I_POPQ => [.reg]
  | I_DIRECTIVE => if i.ifun = D_DATA then [.data (4 ≤ i.bytes)] else [.num]

/-- The tokens one behind the other, each of them complete, with blanks in front of each, and
behind the last one nothing but blanks and a comment. -/
inductive Written : List Item → Text → Prop
  | nil {t : Text} (ht : Tail t) : Written [] t
  | cons {it : Item} {items : List Item} {b tok t : Text} (hb : Blanks b) (htok : it.Spelled tok)
      (hend : it.IsWord → StopsAt isWordChar t) (h : Written items t) :
      Written (it :: items) (b ++ (tok ++ t))

/-- A mnemonic ends here: at a blank, at a comment or at the end of the line. -/
def Ended (t : Text) : Prop := ∀ c ∈ t.head?, isBlank c = true ∨ c = '#'

/-- One instruction, with a label and a colon in front of it or without, and nothing else. -/
def WellFormed (text : Text) : Prop :=
  ∃ b label front i rest, text = b ++ (front ++ (i.name ++ rest)) ∧ Blanks b ∧
    LabelPart label front ∧ i ∈ instr_set ∧ Ended rest ∧ Written i.items rest

/-! ## What the parser takes -/

/-- The text behind the next token, as the function for its kind leaves it. -/
def Item.scan : Item → Text → Option Text
  | .reg, p => (parse_reg p).map Prod.snd
  | .delim c, p => parse_delim p c
  | .imm, p => (parse_imm p).map Prod.snd
  | .disp, p => some (parse_digit p).2
  | .sym, p => (parse_symbol p).map Prod.snd
  | .data wide, p => (parse_data p).bind fun
    | (.digit _, p) => some p
    | (.symbol _, p) => if wide then some p else none
  | .num, p => some (parse_digit p).2

def scanAll : List Item → Text → Option Text
  | [], p => some p
  | it :: items, p => (it.scan p).bind (scanAll items)

/-- The parser gets through the operands of a line: it takes `i` for its instruction, `p` stands
behind the mnemonic, and `rest` is left over. -/
def ReadsAs (text : Text) (i : Instr) (p rest : Text) : Prop :=
  ∃ body, bodyOf text = some body ∧ parse_instr body = some (i, p) ∧
    scanAll i.items p = some rest

/-- Where a token is a number, it starts at once, it has digits or a sign if it must be there,
and no letter stands right behind it. -/
def Item.Plain : Item → Text → Prop
  | .imm, p => ∀ q, SKIP_BLANK p = '$' :: q → IS_LETTER (strtoull q).2 = false
  | .data _, p => IS_DIGIT (SKIP_BLANK p) = true → IS_LETTER (strtoull (SKIP_BLANK p)).2 = false
  | .disp, p => StopsAt isspace (SKIP_BLANK p)
  | .num, p => IS_DIGIT (SKIP_BLANK p) = true
  | _, _ => True

def PlainAll : List Item → Text → Prop
  | [], _ => True
  | it :: items, p => it.Plain p ∧ ∀ r, it.scan p = some r → PlainAll items r

/-- Nothing of the line is passed over: the mnemonic ends, the numbers are plain, and behind the
last operand there are only blanks and a comment. -/
structure NothingIgnored (i : Instr) (p rest : Text) : Prop where
  ended : Ended p
  plain : PlainAll i.items p
  tail : Tail rest

/-- The division of an `.align` can be done. -/
def Divides (st : Asm) (i : Instr) (p : Text) : Prop :=
  i.icode = I_DIRECTIVE → i.ifun = D_ALIGN →
    ¬ ((parse_digit p).1 = 0 ∨ (parse_digit p).1 = -1 ∧ st.vmaddr = BitVec.intMin 64)

/-- parse_line takes the line for an instruction. A line that is only a label is none. -/
def Accepts (heap : Nat → Text) (st : Asm) (text : Text) : Prop :=
  ∃ line st', parse_line heap st text = .ok (line, st') ∧ line.type = TYPE_INS ∧
    (bodyOf text).isSome = true

/-! ## The parser takes what it can read -/

theorem skip_skip (p : Text) : SKIP_BLANK (SKIP_BLANK p) = SKIP_BLANK p :=
  List.dropWhile_idempotent ..

theorem scan_mem (p : Text) :
    scanAll [.disp, .delim '(', .reg, .delim ')'] p = (parse_mem p).map fun r => r.2.2 := by
  have hdigit : parse_digit (SKIP_BLANK p) = parse_digit p := by
    unfold parse_digit
    rw [skip_skip]
  unfold parse_mem
  simp only [scanAll, Item.scan, hdigit, Option.bind_some]
  split
  · rename_i hend
    -- at the end there is no parenthesis
    have hnil : SKIP_BLANK p = [] := List.isEmpty_iff.mp hend
    have hp : (parse_digit p).2 = [] := by
      unfold parse_digit
      rw [hnil]
      rfl
    rw [hp]
    rfl
  · cases parse_delim (parse_digit p).2 '(' with
    | none => rfl
    | some q =>
      simp only [Option.bind_eq_bind, Option.bind_some]
      cases parse_reg q with
      | none => rfl
      | some r =>
        simp only [Option.map_some, Option.bind_some]
        cases parse_delim r.2 ')' <;> rfl

theorem scanAll_append (as bs : List Item) (p : Text) :
    scanAll (as ++ bs) p = (scanAll as p).bind (scanAll bs) := by
  induction as generalizing p with
  | nil => rfl
  | cons it as ih =>
    simp only [List.cons_append, scanAll]
    cases it.scan p with
    | none => rfl
    | some q => exact ih q

theorem operands_iff {i : Instr} (hd : i.icode ≠ I_DIRECTIVE) (p : Text) :
    (parse_operands i.icode p).isSome = (scanAll i.items p).isSome := by
  unfold Instr.items
  cases hc : i.icode with
  | I_DIRECTIVE => exact absurd hc hd
  | I_RMMOVQ =>
    rw [show [Item.reg, .delim ',', .disp, .delim '(', .reg, .delim ')'] =
      [.reg, .delim ','] ++ [.disp, .delim '(', .reg, .delim ')'] from rfl, scanAll_append]
    simp only [scan_mem]
    simp [parse_operands, scanAll, Item.scan, Option.isSome_bind, Option.bind_map]
    cases parse_reg p <;> rfl
  | I_MRMOVQ =>
    rw [show [Item.disp, .delim '(', .reg, .delim ')', .delim ',', .reg] =
      [.disp, .delim '(', .reg, .delim ')'] ++ [.delim ',', .reg] from rfl, scanAll_append, scan_mem]
    simp [parse_operands, scanAll, Item.scan, Option.isSome_bind, Option.bind_map]
  | _ =>
    simp [parse_operands, scanAll, Item.scan, Option.isSome_bind, Option.bind_map]

theorem directive_rows : ∀ i ∈ instr_set, i.icode = I_DIRECTIVE →
    i.ifun = D_DATA ∨ i.ifun = D_POS ∨ i.ifun = D_ALIGN := by
  decide

variable {heap : Nat → Text} {st : Asm}

theorem data_line_iff (heap : Nat → Text) (s : Asm) (bin : Bin) (p : Text) :
    (∃ r, parse_data_line heap s bin p = .ok r) ↔
      ((Item.data (4 ≤ bin.bytes)).scan p).isSome = true := by
  unfold parse_data_line
  simp only [Item.scan]
  cases parse_data p with
  | none => simp
  | some r =>
    obtain ⟨_ | name, q⟩ := r
    · simp
    · by_cases h : bin.bytes < 4
      · simp [h, Nat.not_le.mpr h]
      · simp [h, Nat.not_lt.mp h]

theorem align_ok {vmaddr val : Word} : (∃ v, align vmaddr val = .ok v) ↔
    ¬ (val = 0 ∨ val = -1 ∧ vmaddr = BitVec.intMin 64) := by
  unfold align
  split_ifs <;> simp_all

/-- The instruction is parsed to the end where its operands can be read and the division of an
`.align` can be done. -/
theorem parse_body_iff (heap : Nat → Text) (st : Asm) (text body : Text) :
    (∃ line s', parse_body heap st text body = .ok (line, s') ∧ line.type = TYPE_INS) ↔
      ∃ i p, parse_instr body = some (i, p) ∧ (scanAll i.items p).isSome = true ∧ Divides st i p := by
  unfold parse_body
  cases hi : parse_instr body with
  | none => simp
  | some q =>
    obtain ⟨i, p⟩ := q
    have hrow := parse_instr_row hi
    simp only [Option.some.injEq, Prod.mk.injEq, existsAndEq, true_and]
    unfold Divides
    by_cases hd : i.icode = I_DIRECTIVE
    · rw [if_pos hd]
      have hitems : i.items = if i.ifun = D_DATA then [.data (4 ≤ i.bytes)] else [.num] := by
        unfold Instr.items
        rw [hd]
      rcases directive_rows i hrow hd with hf | hf | hf
      · have hdata := data_line_iff heap
          { st with vmaddr := st.vmaddr + BitVec.ofNat 64 i.bytes }
          ⟨st.vmaddr, Function.update (fun _ => 0) 0 i.code, i.bytes⟩ p
        rw [hitems, if_pos hf, if_pos hf]
        constructor
        · rintro ⟨line, s', h, -⟩
          obtain ⟨r, hr, -⟩ := map_eq_ok h
          have hscan := hdata.mp ⟨r, hr⟩
          refine ⟨by simpa [scanAll] using hscan, fun _ h => ?_⟩
          rw [hf] at h
          exact absurd h (by decide)
        · rintro ⟨h, -⟩
          obtain ⟨r, hr⟩ := hdata.mpr (by simpa [scanAll] using h)
          exact ⟨_, _, by rw [hr]; rfl, rfl⟩
      · rw [hitems]
        simp [hf, scanAll, Item.scan, D_DATA, D_POS, D_ALIGN]
      · have hvm : st.vmaddr + BitVec.ofNat 64 i.bytes = st.vmaddr := by
          rw [align_row i hrow hd hf]
          simp
        have hnd : ¬ i.ifun = D_DATA := by rw [hf]; decide
        have hnp : ¬ i.ifun = D_POS := by rw [hf]; decide
        rw [hitems, if_neg hnd, if_neg hnd, if_neg hnp, if_pos hf, hvm]
        constructor
        · rintro ⟨line, s', h, -⟩
          obtain ⟨v, hv, -⟩ := map_eq_ok h
          exact ⟨rfl, fun _ _ => align_ok.mp ⟨v, hv⟩⟩
        · rintro ⟨-, h⟩
          obtain ⟨v, hv⟩ := align_ok.mpr (h hd hf)
          exact ⟨_, _, by rw [hv]; rfl, rfl⟩
    · rw [if_neg hd, ← operands_iff hd]
      cases parse_operands i.icode p with
      | none => simp
      | some r => simp [hd]

/-- A line is taken for an instruction if it can be read, its label is new, and its division can
be done. -/
theorem accepts_iff (text : Text) : Accepts heap st text ↔
    ∃ i p rest, ReadsAs text i p rest ∧ LabelIsNew heap st text ∧ Divides st i p := by
  constructor
  · rintro ⟨line, st', h, htype, hsome⟩
    obtain ⟨body, hbody⟩ := Option.isSome_iff_exists.mp hsome
    obtain ⟨i, p, hi, hscan, hdiv⟩ :=
      (parse_body_iff heap (behindLabel heap st text) text body).mp ⟨line, st', parse_line_body h hbody, htype⟩
    obtain ⟨rest, hrest⟩ := Option.isSome_iff_exists.mp hscan
    exact ⟨i, p, rest, ⟨body, hbody, hi, hrest⟩, LabelIsNew.of_ok h, hdiv⟩
  · rintro ⟨i, p, rest, ⟨body, hbody, hi, hrest⟩, hnew, hdiv⟩
    obtain ⟨line, st', h, htype⟩ := (parse_body_iff heap (behindLabel heap st text)
      text body).mpr ⟨i, p, hi, by rw [hrest]; rfl, hdiv⟩
    have hline := parse_line_new hnew
    rw [hbody] at hline
    exact ⟨line, st', hline.trans h, htype, by rw [hbody]; rfl⟩

theorem ReadsAs.unique {text p p' rest rest' : Text} {i i' : Instr} (h : ReadsAs text i p rest)
    (h' : ReadsAs text i' p' rest') : i = i' ∧ p = p' ∧ rest = rest' := by
  obtain ⟨body, hbody, hi, hscan⟩ := h
  obtain ⟨body', hbody', hi', hscan'⟩ := h'
  rw [hbody] at hbody'
  cases hbody'
  rw [hi] at hi'
  cases hi'
  rw [hscan] at hscan'
  cases hscan'
  exact ⟨rfl, rfl, rfl⟩

end ics_labs.asm
