-- How an instruction is written in a source line of the assembler, token by token,
-- and the proof that the parser reads each token as it is written. A token is
-- always looked at together with the text that follows it.
import IcsLabs.Asm

open ics_labs.byte_words ics_labs.memory ics_labs.ctext

namespace ics_labs.asm

open IType

/-! ## Blanks and delimiters -/

def Blanks (b : Text) : Prop := ∀ c ∈ b, isBlank c = true

theorem skip_blanks {b t : Text} (hb : Blanks b) (ht : StopsAt isBlank t) :
    SKIP_BLANK (b ++ t) = t := dropWhile_stop hb ht

theorem skip_of_stop {t : Text} (ht : StopsAt isBlank t) : SKIP_BLANK t = t :=
  skip_blanks (b := []) (fun _ h => absurd h (List.not_mem_nil)) ht

theorem parse_delim_of {b t : Text} {d : Char} (hb : Blanks b) (hd : isBlank d = false) :
    parse_delim (b ++ d :: t) d = some t := by
  unfold parse_delim
  rw [skip_blanks hb (stopsAt_cons hd)]
  simp

theorem parse_comma_of {b t : Text} (hb : Blanks b) : parse_delim (b ++ ',' :: t) ',' = some t :=
  parse_delim_of hb rfl

/-! ## Registers -/

/-- `cs` is the name of register `id`. -/
def RegName (cs : Text) (id : Nibble) : Prop := ∃ r ∈ reg_table, r.name = cs ∧ r.id = id

theorem find_register_of {r : Reg} (h : r ∈ reg_table) (t : Text) :
    find_register (r.name ++ t) = some r := by
  fin_cases h <;> rfl

theorem parse_reg_of {b cs t : Text} {id : Nibble} (hb : Blanks b) (h : RegName cs id) :
    parse_reg (b ++ cs ++ t) = some (id, t) := by
  obtain ⟨r, hr, rfl, rfl⟩ := h
  have hstop : StopsAt isBlank (r.name ++ t) := by
    fin_cases hr <;> exact stopsAt_cons rfl
  have hlen : (r.name ++ t).drop r.namelen = t := by
    fin_cases hr <;> rfl
  unfold parse_reg
  simp only [List.append_assoc, skip_blanks hb hstop, find_register_of hr, Option.map_some, hlen]

/-- None of the registers has the number for "no register". -/
theorem RegName.valid {cs : Text} {id : Nibble} (h : RegName cs id) : id ≠ REG_NONE := by
  obtain ⟨r, hr, -, rfl⟩ := h
  fin_cases hr <;> decide

/-! ## Symbols -/

/-- A letter, then letters, digits and signs. -/
def SymbolName (cs : Text) : Prop := IS_LETTER cs = true ∧ ∀ c ∈ cs, isSymbolChar c = true

theorem not_blank_of_letter {cs : Text} (h : IS_LETTER cs = true) : StopsAt isBlank cs := by
  cases cs with
  | nil => intro c hc; cases hc
  | cons c cs =>
    apply stopsAt_cons
    simp only [IS_LETTER] at h
    unfold isBlank
    by_cases h1 : c = ' '
    · subst h1
      exact absurd h (by decide)
    · by_cases h2 : c = '\t'
      · subst h2
        exact absurd h (by decide)
      · simp [h1, h2]

theorem letter_append {cs t : Text} (h : IS_LETTER cs = true) : IS_LETTER (cs ++ t) = true := by
  cases cs with
  | nil => cases h
  | cons c cs => exact h

theorem parse_symbol_of {b cs t : Text} (hb : Blanks b) (h : SymbolName cs)
    (ht : StopsAt isSymbolChar t) : parse_symbol (b ++ cs ++ t) = some (cs, t) := by
  obtain ⟨hl, hc⟩ := h
  have hl' := letter_append (t := t) hl
  unfold parse_symbol
  rw [List.append_assoc, skip_blanks hb (not_blank_of_letter hl')]
  simp only [hl', Bool.not_true, Bool.false_eq_true, if_false]
  rw [takeWhile_stop hc ht, dropWhile_stop hc ht]

/-! ## Numbers -/

/-- The digits of a number behind its sign: decimal, octal or hexadecimal. -/
inductive Magnitude : Text → Nat → Prop
  | dec (ds : Text) (hne : ds ≠ []) (h0 : ds.head? ≠ some '0')
      (hd : ∀ c ∈ ds, isDigitIn 10 c = true) : Magnitude ds (number 10 ds)
  | oct (ds : Text) (hd : ∀ c ∈ ds, isDigitIn 8 c = true) :
      Magnitude ('0' :: ds) (number 8 ('0' :: ds))
  | hex (x : Char) (hx : x = 'x' ∨ x = 'X') (ds : Text) (hne : ds ≠ [])
      (hd : ∀ c ∈ ds, isDigitIn 16 c = true) : Magnitude ('0' :: x :: ds) (number 16 ds)

/-- A sign, or none. -/
def Sign (sign : Text) (neg : Bool) : Prop :=
  sign = ['-'] ∧ neg = true ∨ sign = ['+'] ∧ neg = false ∨ sign = [] ∧ neg = false

/-- A number that fits in 64 bits, and its value. -/
def Literal (lit : Text) (v : Word) : Prop :=
  ∃ sign neg mag n, lit = sign ++ mag ∧ Sign sign neg ∧ Magnitude mag n ∧ n < 2 ^ 64 ∧
    v = if neg then -BitVec.ofNat 64 n else BitVec.ofNat 64 n

/-- A character that can follow a number: no digit of any base, and no mark. -/
def isNumberChar (c : Char) : Bool := isDigitIn 36 c

theorem digitIn_mono {base base' : Nat} (h : base ≤ base') {c : Char}
    (hc : isDigitIn base c = true) : isDigitIn base' c = true := by
  simp only [isDigitIn, decide_eq_true_eq] at hc ⊢
  omega

theorem not_digit_of_stop {base : Nat} (h : base ≤ 36) {t : Text} (ht : StopsAt isNumberChar t) :
    StopsAt (isDigitIn base) t := by
  intro c hc
  have := ht c hc
  simp only [isNumberChar, isDigitIn, decide_eq_false_iff_not] at this ⊢
  omega

/-- What a digit is not. -/
theorem digit_plain {c : Char} (h : isDigitIn 16 c = true) :
    c ≠ '-' ∧ c ≠ '+' ∧ isspace c = false ∧ isBlank c = false ∧ c ≠ 'x' ∧ c ≠ 'X' := by
  have hne : ∀ d : Char, isDigitIn 16 d = false → c ≠ d := by
    intro d hd hcd
    rw [hcd, hd] at h
    cases h
  refine ⟨hne _ (by decide), hne _ (by decide), ?_, ?_, hne _ (by decide), hne _ (by decide)⟩
  · simp [isspace, hne ' ' (by decide), hne '\t' (by decide), hne '\n' (by decide),
      hne '\x0b' (by decide), hne '\x0c' (by decide), hne '\r' (by decide)]
  · simp [isBlank, hne ' ' (by decide), hne '\t' (by decide)]

/-- A magnitude starts with a digit. -/
theorem Magnitude.head {mag : Text} {n : Nat} (h : Magnitude mag n) :
    ∃ c cs, mag = c :: cs ∧ isDigitIn 16 c = true := by
  cases h with
  | dec _ hne h0 hd =>
    obtain ⟨c, cs, rfl⟩ := List.exists_cons_of_ne_nil hne
    exact ⟨c, cs, rfl, digitIn_mono (by decide) (hd c (by simp))⟩
  | oct ds hd => exact ⟨'0', ds, rfl, rfl⟩
  | hex x hx ds hne hd => exact ⟨'0', x :: ds, rfl, rfl⟩

/-- What the scan of the base finds in front of a number. -/
theorem Magnitude.takeBase {mag t : Text} {n : Nat} (h : Magnitude mag n)
    (ht : StopsAt isNumberChar t) :
    ∃ base ds, takeBase (mag ++ t) = (base, ds ++ t) ∧ ds ≠ [] ∧ base ≤ 36 ∧
      (∀ c ∈ ds, isDigitIn base c = true) ∧ n = number base ds := by
  cases h with
  | dec _ hne h0 hd =>
    obtain ⟨c, cs, rfl⟩ := List.exists_cons_of_ne_nil hne
    have hc : c ≠ '0' := by simpa using h0
    refine ⟨10, c :: cs, ?_, by simp, by decide, hd, rfl⟩
    have hmark : hasHexMark (c :: cs ++ t) = false := by
      rcases cs with _ | ⟨x, _ | ⟨d, cs⟩⟩ <;> rcases t with _ | ⟨y, _ | ⟨z, t⟩⟩ <;>
        simp [hasHexMark, hc]
    rw [List.cons_append] at hmark
    simp [ctext.takeBase, hmark, hc]
  | oct ds hd =>
    refine ⟨8, '0' :: ds, ?_, by simp, by decide, ?_, rfl⟩
    · have hx : ∀ c ∈ (ds ++ t).head?, c ≠ 'x' ∧ c ≠ 'X' := by
        intro c hc
        cases ds with
        | nil =>
          have := ht c hc
          constructor
          · rintro rfl
            revert this
            decide
          · rintro rfl
            revert this
            decide
        | cons d ds =>
          obtain rfl : d = c := by simpa using hc
          have := digit_plain (digitIn_mono (by decide) (hd d (by simp)))
          exact ⟨this.2.2.2.2.1, this.2.2.2.2.2⟩
      have hmark : hasHexMark ('0' :: ds ++ t) = false := by
        rw [List.cons_append]
        generalize ds ++ t = u at hx
        rcases u with _ | ⟨x, _ | ⟨d, u⟩⟩
        · rfl
        · rfl
        · have := hx x rfl
          simp [hasHexMark, this.1, this.2]
      rw [List.cons_append] at hmark
      simp [ctext.takeBase, hmark]
    · intro c hc
      rcases List.mem_cons.mp hc with rfl | hc
      · rfl
      · exact hd c hc
  | hex x hx ds hne hd =>
    refine ⟨16, ds, ?_, hne, by decide, hd, ?_⟩
    · obtain ⟨d, cs, rfl⟩ := List.exists_cons_of_ne_nil hne
      have hd' := hd d (by simp)
      rcases hx with rfl | rfl <;> simp [ctext.takeBase, hasHexMark, hd']
    · rfl

/-- A number is read up to its end, whatever its size. -/
theorem strtoull_magnitude {sign mag t : Text} {neg : Bool} {n : Nat} (hsign : Sign sign neg)
    (hmag : Magnitude mag n) (ht : StopsAt isNumberChar t) :
    strtoull (sign ++ mag ++ t) = (signed neg n, t) := by
  obtain ⟨c, cs, hcs, hc⟩ := hmag.head
  obtain ⟨hminus, hplus, hspace, -, -, -⟩ := digit_plain hc
  have hdrop : (sign ++ mag ++ t).dropWhile isspace = sign ++ mag ++ t := by
    rcases hsign with ⟨rfl, -⟩ | ⟨rfl, -⟩ | ⟨rfl, -⟩
    · rfl
    · rfl
    · simp [hcs, hspace]
  have htake : takeSign (sign ++ mag ++ t) = (neg, mag ++ t) := by
    rcases hsign with ⟨rfl, rfl⟩ | ⟨rfl, rfl⟩ | ⟨rfl, rfl⟩
    · rfl
    · rfl
    · simp [hcs, takeSign, hminus, hplus]
  obtain ⟨base, ds, hbase, hne, hle, hds, rfl⟩ := hmag.takeBase ht
  have hstop := not_digit_of_stop hle ht
  unfold strtoull
  simp only [hdrop, htake, hbase, takeWhile_stop hds hstop, dropWhile_stop hds hstop, if_neg hne]

theorem strtoull_of {lit t : Text} {v : Word} (h : Literal lit v) (ht : StopsAt isNumberChar t) :
    strtoull (lit ++ t) = (v, t) := by
  obtain ⟨sign, neg, mag, n, rfl, hsign, hmag, hn, rfl⟩ := h
  rw [strtoull_magnitude hsign hmag ht, signed, if_pos hn]

/-- Without a number, `strtoull` leaves the text as it is. -/
theorem strtoull_none {t : Text} (h : StopsAt (fun c => isspace c || isNumberChar c ||
    c == '-' || c == '+') t) : strtoull t = (0, t) := by
  cases t with
  | nil => rfl
  | cons c t =>
    have hc := h c rfl
    simp only [Bool.or_eq_false_iff, beq_eq_false_iff_ne] at hc
    obtain ⟨⟨⟨h1, h2⟩, h3⟩, h4⟩ := hc
    have h0 : c ≠ '0' := by
      rintro rfl
      revert h2
      decide
    have hmark : hasHexMark (c :: t) = false := by
      rcases t with _ | ⟨x, _ | ⟨d, t⟩⟩ <;> simp [hasHexMark, h0]
    have hdig : isDigitIn 10 c = false := by
      simp only [isNumberChar, isDigitIn, decide_eq_false_iff_not] at h2 ⊢
      omega
    simp [strtoull, takeSign, takeBase, h1, h3, h4, hmark, h0, hdig]

/-! ## Operands -/

/-- The operands of an instruction in the order in which they are written. -/
inductive Operands
  | none
  | two (rA rB : Nibble)
  | imm (c : Token) (rB : Nibble)
  | store (rA : Nibble) (d : Word) (rB : Nibble)
  | load (d : Word) (rB rA : Nibble)
  | dest (name : Text)
  | one (rA : Nibble)

/-- The instruction takes operands of this kind. -/
def Operands.Fits : Operands → IType → Prop
  | .none, icode => icode = I_NOP ∨ icode = I_HALT ∨ icode = I_RET
  | .two _ _, icode => icode = I_RRMOVQ ∨ icode = I_ALU
  | .imm _ _, icode => icode = I_IRMOVQ
  | .store _ _ _, icode => icode = I_RMMOVQ
  | .load _ _ _, icode => icode = I_MRMOVQ
  | .dest _, icode => icode = I_JMP ∨ icode = I_CALL
  | .one _, icode => icode = I_PUSHQ ∨ icode = I_POPQ

/-- The end of a line: blanks, then nothing or a comment. -/
def Tail (t : Text) : Prop := ∃ b c, t = b ++ c ∧ Blanks b ∧ (c = [] ∨ c.head? = some '#')

/-- A number behind `$`, or the name of a symbol. -/
inductive Immediate : Text → Token → Prop
  | num {lit : Text} {v : Word} (h : Literal lit v) : Immediate ('$' :: lit) (.digit v)
  | sym {name : Text} (h : SymbolName name) : Immediate name (.symbol name)

/-- A displacement, 0 when it is not written. -/
def Displacement (lit : Text) (d : Word) : Prop := lit = [] ∧ d = 0 ∨ Literal lit d

/-- A memory operand: a displacement and a register in parentheses. -/
def Memory (t : Text) (d : Word) (id : Nibble) : Prop :=
  ∃ lit b r b' b'', t = lit ++ (b ++ '(' :: (b' ++ r ++ (b'' ++ [')']))) ∧ Displacement lit d ∧
    RegName r id ∧ Blanks b ∧ Blanks b' ∧ Blanks b''

/-- The text behind the mnemonic spells the operands. -/
inductive Spells : Operands → Text → Prop
  | none {t : Text} (ht : Tail t) : Spells .none t
  | two {b a b' b'' c t : Text} {rA rB : Nibble} (hb : Blanks b) (hne : b ≠ []) (ha : RegName a rA)
      (hb' : Blanks b') (hb'' : Blanks b'') (hc : RegName c rB) (ht : Tail t) :
      Spells (.two rA rB) (b ++ a ++ (b' ++ ',' :: (b'' ++ c ++ t)))
  | imm {b i b' b'' c t : Text} {k : Token} {rB : Nibble} (hb : Blanks b) (hne : b ≠ [])
      (hi : Immediate i k) (hb' : Blanks b') (hb'' : Blanks b'') (hc : RegName c rB) (ht : Tail t) :
      Spells (.imm k rB) (b ++ (i ++ (b' ++ ',' :: (b'' ++ c ++ t))))
  | store {b a b' b'' m t : Text} {rA rB : Nibble} {d : Word} (hb : Blanks b) (hne : b ≠ [])
      (ha : RegName a rA) (hb' : Blanks b') (hb'' : Blanks b'') (hm : Memory m d rB) (ht : Tail t) :
      Spells (.store rA d rB) (b ++ a ++ (b' ++ ',' :: (b'' ++ (m ++ t))))
  | load {b m b' b'' a t : Text} {rA rB : Nibble} {d : Word} (hb : Blanks b) (hne : b ≠ [])
      (hm : Memory m d rB) (hb' : Blanks b') (hb'' : Blanks b'') (ha : RegName a rA) (ht : Tail t) :
      Spells (.load d rB rA) (b ++ (m ++ (b' ++ ',' :: (b'' ++ a ++ t))))
  | dest {b name t : Text} (hb : Blanks b) (hne : b ≠ []) (hn : SymbolName name) (ht : Tail t) :
      Spells (.dest name) (b ++ name ++ t)
  | one {b a t : Text} {rA : Nibble} (hb : Blanks b) (hne : b ≠ []) (ha : RegName a rA)
      (ht : Tail t) : Spells (.one rA) (b ++ a ++ t)

/-- The register byte and the constant that the operands stand for. -/
def Operands.regs : Operands → Option Byte
  | .none | .dest _ => .none
  | .two rA rB | .store rA _ rB | .load _ rB rA => some (hpack rA rB)
  | .imm _ rB => some (hpack REG_NONE rB)
  | .one rA => some (hpack rA REG_NONE)

def Operands.const : Operands → Option Token
  | .none | .two _ _ | .one _ => .none
  | .imm k _ => some k
  | .store _ d _ | .load d _ _ => some (.digit d)
  | .dest name => some (.symbol name)

theorem blank_space {c : Char} (h : isBlank c = true) :
    isSymbolChar c = false ∧ isNumberChar c = false ∧ c ≠ ':' := by
  simp only [isBlank, Bool.or_eq_true, beq_iff_eq] at h
  rcases h with rfl | rfl <;> decide

theorem Tail.stopsAt {t : Text} (h : Tail t) : StopsAt isSymbolChar t := by
  obtain ⟨b, c, rfl, hb, hc⟩ := h
  apply stopsAt_append fun x hx => (blank_space (hb x hx)).1
  rcases hc with rfl | hc
  · intro x hx
    cases hx
  · intro x hx
    rw [hc] at hx
    cases hx
    rfl

theorem parse_digit_of {b lit t : Text} {v : Word} (hb : Blanks b) (h : Literal lit v)
    (ht : StopsAt isNumberChar t) : parse_digit (b ++ (lit ++ t)) = (v, t) := by
  unfold parse_digit
  have hstop : StopsAt isBlank (lit ++ t) := by
    obtain ⟨sign, neg, mag, n, rfl, hsign, hmag, -, -⟩ := h
    obtain ⟨c, cs, rfl, hc⟩ := hmag.head
    rcases hsign with ⟨rfl, -⟩ | ⟨rfl, -⟩ | ⟨rfl, -⟩
    · exact stopsAt_cons rfl
    · exact stopsAt_cons rfl
    · exact stopsAt_cons (digit_plain hc).2.2.2.1
  rw [skip_blanks hb hstop, strtoull_of h ht]

/-- A number starts with a sign or a digit. -/
theorem magnitude_isDigit {sign mag t : Text} {neg : Bool} {n : Nat} (hsign : Sign sign neg)
    (hmag : Magnitude mag n) : IS_DIGIT (sign ++ mag ++ t) = true := by
  rcases hsign with ⟨rfl, -⟩ | ⟨rfl, -⟩ | ⟨rfl, -⟩
  · rfl
  · rfl
  · cases hmag with
    | dec _ hne h0 hd =>
      obtain ⟨c, cs, rfl⟩ := List.exists_cons_of_ne_nil hne
      have hc := hd c (by simp)
      simp only [List.nil_append, List.cons_append, IS_DIGIT, isDigitIn, decide_eq_true_eq] at hc ⊢
      unfold digitVal at hc
      split at hc
      · rename_i h09
        simp [h09.1, h09.2]
      · split at hc
        · omega
        · split at hc <;> omega
    | oct ds hd => rfl
    | hex x hx ds hne hd => rfl

theorem Literal.isDigit {lit t : Text} {v : Word} (h : Literal lit v) :
    IS_DIGIT (lit ++ t) = true := by
  obtain ⟨sign, neg, mag, n, rfl, hsign, hmag, -, -⟩ := h
  exact magnitude_isDigit hsign hmag

theorem comma_stops {b u : Text} (hb : Blanks b) :
    StopsAt isNumberChar (b ++ ',' :: u) ∧ StopsAt isSymbolChar (b ++ ',' :: u) :=
  ⟨stopsAt_append (fun c hc => (blank_space (hb c hc)).2.1) (stopsAt_cons rfl),
    stopsAt_append (fun c hc => (blank_space (hb c hc)).1) (stopsAt_cons rfl)⟩

theorem not_letter_of_stop {t : Text} (h : StopsAt isSymbolChar t) : IS_LETTER t = false := by
  cases t with
  | nil => rfl
  | cons c t =>
    have := h c rfl
    simp only [isSymbolChar, Bool.or_eq_false_iff] at this
    exact this.1

theorem parse_imm_of {b i b' u : Text} {k : Token} (hb : Blanks b) (hi : Immediate i k)
    (hb' : Blanks b') : parse_imm (b ++ (i ++ (b' ++ ',' :: u))) = some (k, b' ++ ',' :: u) := by
  obtain ⟨hnum, hsym⟩ := comma_stops (u := u) hb'
  cases hi with
  | @num lit v h =>
    have hd : parse_digit (lit ++ (b' ++ ',' :: u)) = (v, b' ++ ',' :: u) :=
      parse_digit_of (b := []) (fun c hc => absurd hc (List.not_mem_nil)) h hnum
    unfold parse_imm
    rw [List.cons_append, skip_blanks hb (stopsAt_cons rfl)]
    simp only [IS_IMM, List.head?_cons, BEq.rfl, if_true, List.drop_one, List.tail_cons,
      h.isDigit, hd, not_letter_of_stop hsym, Bool.not_true, Bool.false_eq_true, if_false]
  | sym h =>
    have hl := letter_append (t := b' ++ ',' :: u) h.1
    have hstop := not_blank_of_letter hl
    have himm : IS_IMM (i ++ (b' ++ ',' :: u)) = false := by
      obtain ⟨c, cs, rfl⟩ := List.exists_cons_of_ne_nil (l := i) fun he => by
        rw [he] at h
        exact absurd h.1 (by decide)
      have hc : c ≠ '$' := by
        rintro rfl
        exact absurd h.1 (by simp [IS_LETTER])
      simp [IS_IMM, hc]
    have hp : parse_symbol (i ++ (b' ++ ',' :: u)) = some (i, b' ++ ',' :: u) :=
      parse_symbol_of (b := []) (fun c hc => absurd hc (List.not_mem_nil)) h hsym
    unfold parse_imm
    rw [skip_blanks hb hstop]
    simp only [himm, hl, hp, Bool.false_eq_true, if_false, if_true, Option.map_some]

theorem parse_mem_of {b m t : Text} {d : Word} {id : Nibble} (hb : Blanks b)
    (hm : Memory m d id) : parse_mem (b ++ (m ++ t)) = some (d, id, t) := by
  obtain ⟨lit, b1, r, b2, b3, rfl, hlit, hr, hb1, hb2, hb3⟩ := hm
  have hopen : StopsAt isNumberChar (b1 ++ '(' :: (b2 ++ r ++ (b3 ++ ')' :: t))) :=
    stopsAt_append (fun c hc => (blank_space (hb1 c hc)).2.1) (stopsAt_cons rfl)
  -- the displacement, or nothing
  have hdigit : ∃ b', Blanks b' ∧
      parse_digit (SKIP_BLANK (b ++ (lit ++ (b1 ++ '(' :: (b2 ++ r ++ (b3 ++ ')' :: t)))))) =
        (d, b' ++ '(' :: (b2 ++ r ++ (b3 ++ ')' :: t))) ∧
      IS_END (SKIP_BLANK (b ++ (lit ++ (b1 ++ '(' :: (b2 ++ r ++ (b3 ++ ')' :: t)))))) = false := by
    rcases hlit with ⟨rfl, rfl⟩ | hlit
    · have hskip : SKIP_BLANK (b ++ ([] ++ (b1 ++ '(' :: (b2 ++ r ++ (b3 ++ ')' :: t))))) =
          '(' :: (b2 ++ r ++ (b3 ++ ')' :: t)) := by
        have := skip_blanks (b := b ++ b1) (t := '(' :: (b2 ++ r ++ (b3 ++ ')' :: t)))
          (fun c hc => (List.mem_append.mp hc).elim (hb c) (hb1 c)) (stopsAt_cons rfl)
        simpa using this
      rw [hskip]
      refine ⟨[], fun c hc => absurd hc (List.not_mem_nil), ?_, rfl⟩
      unfold parse_digit
      rw [skip_of_stop (stopsAt_cons rfl), strtoull_none (stopsAt_cons rfl)]
      rfl
    · obtain ⟨c, cs, hcs, hc⟩ : ∃ c cs, lit = c :: cs ∧ isBlank c = false := by
        have hd := hlit.isDigit (t := [])
        cases lit with
        | nil => cases hd
        | cons c cs =>
          refine ⟨c, cs, rfl, ?_⟩
          by_contra hblank
          have := (blank_space (by simpa using hblank)).1
          simp only [isSymbolChar, Bool.or_eq_false_iff] at this
          simp only [List.append_nil, IS_DIGIT] at hd this
          rw [hd] at this
          exact absurd this.2 (by decide)
      have hskip : SKIP_BLANK (b ++ (lit ++ (b1 ++ '(' :: (b2 ++ r ++ (b3 ++ ')' :: t))))) =
          lit ++ (b1 ++ '(' :: (b2 ++ r ++ (b3 ++ ')' :: t))) :=
        skip_blanks hb (by rw [hcs]; exact stopsAt_cons hc)
      rw [hskip]
      refine ⟨b1, hb1, ?_, by rw [hcs]; rfl⟩
      exact parse_digit_of (b := []) (fun c hc => absurd hc (List.not_mem_nil)) hlit hopen
  obtain ⟨b', hb', hval, hend⟩ := hdigit
  have hassoc : b ++ (lit ++ (b1 ++ '(' :: (b2 ++ r ++ (b3 ++ [')']))) ++ t) =
      b ++ (lit ++ (b1 ++ '(' :: (b2 ++ r ++ (b3 ++ ')' :: t)))) := by simp
  unfold parse_mem
  rw [hassoc]
  simp only [hend, hval, Bool.false_eq_true, if_false]
  rw [parse_delim_of hb' rfl]
  simp only [Option.bind_eq_bind, Option.bind_some]
  rw [parse_reg_of hb2 hr]
  simp only [Option.bind_some]
  rw [parse_delim_of hb3 rfl]
  rfl

/-- The parser reads the operands that the text spells. -/
theorem parse_operands_of {ops : Operands} {icode : IType} {t : Text} (hfit : ops.Fits icode)
    (h : Spells ops t) : parse_operands icode t = some (ops.regs, ops.const) := by
  cases h with
  | none ht => rcases hfit with rfl | rfl | rfl <;> rfl
  | two hb hne ha hb' hb'' hc ht =>
    rcases hfit with rfl | rfl <;>
      simp only [parse_operands, parse_reg_of hb ha, parse_comma_of hb', parse_reg_of hb'' hc,
        Option.bind_eq_bind, Option.bind_some] <;> rfl
  | imm hb hne hi hb' hb'' hc ht =>
    cases hfit
    simp only [parse_operands, parse_imm_of hb hi hb', parse_comma_of hb',
      parse_reg_of hb'' hc, Option.bind_eq_bind, Option.bind_some]
    rfl
  | store hb hne ha hb' hb'' hm ht =>
    cases hfit
    simp only [parse_operands, parse_reg_of hb ha, parse_comma_of hb', parse_mem_of hb'' hm,
      Option.bind_eq_bind, Option.bind_some]
    rfl
  | load hb hne hm hb' hb'' ha ht =>
    cases hfit
    simp only [parse_operands, parse_mem_of hb hm, parse_comma_of hb', parse_reg_of hb'' ha,
      Option.bind_eq_bind, Option.bind_some]
    rfl
  | dest hb hne hn ht =>
    rcases hfit with rfl | rfl <;>
      simp only [parse_operands, parse_symbol_of hb hn ht.stopsAt, Option.bind_eq_bind,
        Option.bind_some] <;> rfl
  | one hb hne ha ht =>
    rcases hfit with rfl | rfl <;>
      simp only [parse_operands, parse_reg_of hb ha, Option.bind_eq_bind, Option.bind_some] <;> rfl

end ics_labs.asm
