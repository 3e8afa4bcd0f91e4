-- What the assembler makes of a written instruction, and what the simulator of lab4
-- reads back: the same instruction, the same registers and the same constant.
import Mathlib
import IcsLabs.AsmText
import IcsLabs.IsaAgreement
import IcsLabs.Runs

open ics_labs.byte_words ics_labs.memory ics_labs.ctext ics_labs.runs

namespace ics_labs.asm

open IType LineType

/-! ## The mnemonic -/

/-- No row stands in front of a row whose name it starts, and one whose name starts with that of
a later row goes on with a letter. -/
theorem instr_set_order : instr_set.Pairwise fun j i => ¬j.name.isPrefixOf i.name = true ∧
    (i.name.isPrefixOf j.name = true → j.name.all isSymbolChar = true) := by
  decide

theorem instr_set_len : ∀ i ∈ instr_set, i.len = i.name.length ∧ i.len ≤ 6 ∧ i.name ≠ [] := by
  decide

theorem symbolName_of_all {cs : Text} (h : (IS_LETTER cs && cs.all isSymbolChar) = true) :
    SymbolName cs := by
  obtain ⟨hl, hall⟩ := Bool.and_eq_true_iff.mp h
  exact ⟨hl, List.all_eq_true.mp hall⟩

theorem mnemonic_chars : ∀ i ∈ instr_set, i.icode ≠ I_DIRECTIVE →
    (IS_LETTER i.name && i.name.all isSymbolChar) = true := by
  decide

theorem mnemonic_symbol (i : Instr) (hi : i ∈ instr_set) (hd : i.icode ≠ I_DIRECTIVE) :
    SymbolName i.name := symbolName_of_all (mnemonic_chars i hi hd)

/-- The first row that matches is the one that is written, if no symbol character follows. -/
theorem find_instr_of {i : Instr} {rest : Text} (hi : i ∈ instr_set)
    (hrest : StopsAt isSymbolChar rest) : find_instr ((i.name ++ rest).take 6) = some i := by
  obtain ⟨hlen, h6, hne⟩ := instr_set_len i hi
  obtain ⟨front, back, hsplit⟩ := List.append_of_mem hi
  have horder := instr_set_order
  rw [hsplit, List.pairwise_append] at horder
  unfold find_instr
  rw [List.find?_eq_some_iff_append]
  refine ⟨?_, front, back, hsplit, fun j hj => ?_⟩
  · simp only [sameFront, List.take_take, beq_iff_eq, Nat.min_eq_left h6]
    rw [hlen, List.take_left, List.take_length]
  · obtain ⟨hpre, hsym⟩ := horder.2.2 j hj i (by simp)
    obtain ⟨hlenj, h6j, -⟩ := instr_set_len j (by rw [hsplit]; simp [hj])
    simp only [sameFront, List.take_take, Nat.min_eq_left h6j, Bool.not_eq_true',
      beq_eq_false_iff_ne]
    rw [hlenj, List.take_length]
    intro he
    rcases Nat.lt_or_ge i.name.length j.name.length with hlt | hge
    · -- a longer name would go on with the character behind the mnemonic
      have hlonger : i.name.isPrefixOf j.name = true := by
        rw [List.isPrefixOf_iff_prefix, he, List.take_append, List.take_of_length_le hlt.le]
        exact List.prefix_append _ _
      cases rest with
      | nil =>
        rw [List.append_nil, List.take_of_length_le (by omega)] at he
        rw [he] at hlt
        omega
      | cons c rest =>
        have hc := hrest c rfl
        rw [List.all_eq_true.mp (hsym hlonger) c] at hc
        · cases hc
        · rw [he, List.take_append]
          apply List.mem_append_right
          obtain ⟨k, hk⟩ : ∃ k, j.name.length - i.name.length = k + 1 :=
            ⟨j.name.length - i.name.length - 1, by omega⟩
          rw [hk, List.take_succ_cons]
          exact List.mem_cons_self
    · apply hpre
      rw [List.isPrefixOf_iff_prefix]
      rw [List.take_append_of_le_length hge] at he
      rw [he]
      exact List.take_prefix _ _

theorem parse_instr_row {p rest : Text} {i : Instr} (h : parse_instr p = some (i, rest)) :
    i ∈ instr_set := by
  unfold parse_instr at h
  obtain ⟨j, hj, he⟩ := Option.map_eq_some_iff.mp h
  cases he
  exact List.mem_of_find?_eq_some hj

/-! ## The line -/

/-- A label in front of the instruction, if there is one. -/
inductive LabelPart : Option Text → Text → Prop
  | none : LabelPart none []
  | some {l b b' : Text} (hl : SymbolName l) (hb : Blanks b) (hb' : Blanks b') :
      LabelPart (some l) (l ++ (b ++ ':' :: b'))

/-- The line spells the instruction, with a label or without. -/
structure SpellsLine (label : Option Text) (i : Instr) (ops : Operands) (text : Text) : Prop where
  row : i ∈ instr_set
  fits : ops.Fits i.icode
  text_eq : ∃ b front rest, text = b ++ (front ++ (i.name ++ rest)) ∧ Blanks b ∧
    LabelPart label front ∧ Spells ops rest

theorem Operands.Fits.not_directive {ops : Operands} {icode : IType} (h : ops.Fits icode) :
    icode ≠ I_DIRECTIVE := by
  rintro rfl
  cases ops <;> simp [Operands.Fits] at h

/-- Behind a mnemonic comes a blank, a comment or nothing. -/
theorem Spells.stops {ops : Operands} {rest : Text} (h : Spells ops rest) :
    StopsAt isSymbolChar rest := by
  have hfront : ∀ {b t : Text}, Blanks b → b ≠ [] → StopsAt isSymbolChar (b ++ t) := by
    intro b t hb hne
    obtain ⟨c, cs, rfl⟩ := List.exists_cons_of_ne_nil hne
    exact stopsAt_cons (blank_space (hb c (by simp))).1
  cases h with
  | none ht => exact ht.stopsAt
  | two hb hne => rw [List.append_assoc]; exact hfront hb hne
  | imm hb hne => exact hfront hb hne
  | store hb hne => rw [List.append_assoc]; exact hfront hb hne
  | load hb hne => exact hfront hb hne
  | dest hb hne => rw [List.append_assoc]; exact hfront hb hne
  | one hb hne => rw [List.append_assoc]; exact hfront hb hne

/-! Behind a mnemonic and blanks there is no colon, so a mnemonic is not a label. -/

theorem no_colon_head {b t : Text} {c : Char} (hb : Blanks b) (hc : isBlank c = false)
    (hne : c ≠ ':') : parse_delim (b ++ c :: t) ':' = none := by
  unfold parse_delim
  rw [skip_blanks hb (stopsAt_cons hc)]
  simp [hne]

theorem no_colon_reg {b a t : Text} {id : Nibble} (hb : Blanks b) (ha : RegName a id) :
    parse_delim (b ++ (a ++ t)) ':' = none := by
  obtain ⟨r, hr, rfl, -⟩ := ha
  fin_cases hr <;> exact no_colon_head hb rfl (by decide)

theorem no_colon_symbol {b n t : Text} (hb : Blanks b) (hn : SymbolName n) :
    parse_delim (b ++ (n ++ t)) ':' = none := by
  have hstop := not_blank_of_letter hn.1
  cases n with
  | nil => exact absurd hn.1 (by decide)
  | cons c n =>
    refine no_colon_head hb (hstop c rfl) ?_
    rintro rfl
    exact absurd hn.1 (by simp [IS_LETTER])

theorem no_colon_literal {b l t : Text} {v : Word} (hb : Blanks b) (hl : Literal l v) :
    parse_delim (b ++ (l ++ t)) ':' = none := by
  obtain ⟨sign, neg, mag, n, rfl, hsign, hmag, -, -⟩ := hl
  obtain ⟨c, cs, rfl, hc⟩ := hmag.head
  rcases hsign with ⟨rfl, -⟩ | ⟨rfl, -⟩ | ⟨rfl, -⟩
  · exact no_colon_head hb rfl (by decide)
  · exact no_colon_head hb rfl (by decide)
  · refine no_colon_head hb (digit_plain hc).2.2.2.1 ?_
    rintro rfl
    exact absurd hc (by decide)

theorem no_colon_memory {b m t : Text} {d : Word} {id : Nibble} (hb : Blanks b)
    (hm : Memory m d id) : parse_delim (b ++ (m ++ t)) ':' = none := by
  obtain ⟨lit, b1, r, b2, b3, rfl, hd, -, hb1, -, -⟩ := hm
  rcases hd with ⟨rfl, -⟩ | hd
  · have := no_colon_head (b := b ++ b1) (t := b2 ++ r ++ (b3 ++ [')']) ++ t) (c := '(')
      (fun c hc => (List.mem_append.mp hc).elim (hb c) (hb1 c)) rfl (by decide)
    simpa using this
  · rw [List.append_assoc]
    exact no_colon_literal hb hd

theorem no_colon_tail {t : Text} (h : Tail t) : parse_delim t ':' = none := by
  obtain ⟨b, c, rfl, hb, hc⟩ := h
  rcases hc with rfl | hc
  · unfold parse_delim
    rw [skip_blanks hb (fun x hx => by cases hx)]
  · cases c with
    | nil => cases hc
    | cons x c =>
      cases hc
      exact no_colon_head hb rfl (by decide)

theorem spells_no_colon {ops : Operands} {rest : Text} (h : Spells ops rest) :
    parse_delim rest ':' = none := by
  cases h with
  | none ht => exact no_colon_tail ht
  | two hb hne ha => rw [List.append_assoc]; exact no_colon_reg hb ha
  | imm hb hne hi =>
    cases hi with
    | num hl => exact no_colon_head hb rfl (by decide)
    | sym hn => exact no_colon_symbol hb hn
  | store hb hne ha => rw [List.append_assoc]; exact no_colon_reg hb ha
  | load hb hne hm => exact no_colon_memory hb hm
  | dest hb hne hn => rw [List.append_assoc]; exact no_colon_symbol hb hn
  | one hb hne ha => rw [List.append_assoc]; exact no_colon_reg hb ha

variable (heap : Nat → Text)

/-- What `parse_body` makes of a written instruction. -/
theorem parse_body_of {st : Asm} {text : Text} {i : Instr} {ops : Operands} {rest : Text}
    (hi : i ∈ instr_set) (hfit : ops.Fits i.icode) (h : Spells ops rest) :
    parse_body heap st text (i.name ++ rest) =
      .ok (⟨TYPE_INS, (put_operands heap
          { st with vmaddr := st.vmaddr + BitVec.ofNat 64 i.bytes }
          ⟨st.vmaddr, Function.update (fun _ => 0) 0 i.code, i.bytes⟩ ops.regs ops.const).1, text⟩,
        (put_operands heap { st with vmaddr := st.vmaddr + BitVec.ofNat 64 i.bytes }
          ⟨st.vmaddr, Function.update (fun _ => 0) 0 i.code, i.bytes⟩ ops.regs ops.const).2) := by
  have hd := hfit.not_directive
  have hstop := not_blank_of_letter (letter_append (t := rest) (mnemonic_symbol i hi hd).1)
  have hinstr : parse_instr (i.name ++ rest) = some (i, rest) := by
    unfold parse_instr
    simp only [skip_of_stop hstop, find_instr_of hi h.stops, Option.map_some,
      (instr_set_len i hi).1, List.drop_left]
  unfold parse_body
  simp only [hinstr, if_neg hd, parse_operands_of hfit h]

theorem letter_plain {t : Text} (h : IS_LETTER t = true) : IS_END t = false ∧ IS_COMMENT t = false := by
  cases t with
  | nil => cases h
  | cons c t =>
    refine ⟨rfl, ?_⟩
    have hc : c ≠ '#' := by
      rintro rfl
      exact absurd h (by simp [IS_LETTER])
    simp [IS_COMMENT, hc]

/-- A label is found in front of any text. -/
theorem label_read {l b t : Text} (hl : SymbolName l) (hb : Blanks b) :
    parse_label (l ++ (b ++ ':' :: t)) = some (l, t) := by
  have hsym := parse_symbol_of (b := []) (t := b ++ ':' :: t)
    (fun _ hc => absurd hc List.not_mem_nil) hl
    (stopsAt_append (fun c hc => (blank_space (hb c hc)).1) (stopsAt_cons rfl))
  unfold parse_label
  rw [List.nil_append] at hsym
  rw [hsym]
  simp only [Option.bind_eq_bind, Option.bind_some, parse_delim_of hb (show isBlank ':' = false from rfl)]
  rfl

/-- A line that spells an instruction and is accepted: the line and the tables are those of
`parse_body`, with a symbol table and a number of allocations of its own. -/
theorem parse_line_of {st st' : Asm} {text : Text} {line : Line} {label : Option Text} {i : Instr}
    {ops : Operands} (hs : SpellsLine label i ops text)
    (h : parse_line heap st text = .ok (line, st')) :
    ∃ symtab allocs rest, Spells ops rest ∧
      parse_body heap { st with symtab, allocs } text (i.name ++ rest) = .ok (line, st') := by
  obtain ⟨hi, hfit, b, front, rest, htext, hb, hlab, hsp⟩ := hs
  have hname := mnemonic_symbol i hi hfit.not_directive
  have hn : Blanks [] := fun c hc => absurd hc (List.not_mem_nil)
  have hletter := letter_append (t := rest) hname.1
  obtain ⟨hend, hcomm⟩ := letter_plain hletter
  cases hlab with
  | none =>
    have hskip : SKIP_BLANK text = i.name ++ rest := by
      rw [htext]
      exact skip_blanks hb (not_blank_of_letter hletter)
    have hsym : parse_symbol (i.name ++ rest) = some (i.name, rest) :=
      parse_symbol_of hn hname hsp.stops
    have hlabel : parse_label (i.name ++ rest) = none := by
      unfold parse_label
      rw [hsym]
      simp only [Option.bind_eq_bind, Option.bind_some, spells_no_colon hsp]
      rfl
    unfold parse_line at h
    simp only [hskip, hend, hcomm, hsym, hlabel, Bool.false_eq_true, if_false,
      Option.isSome_some, if_true] at h
    exact ⟨st.symtab, st.allocs + 1, rest, hsp, h⟩
  | @some l b1 b2 hl hb1 hb2 =>
    have hassoc : text = b ++ (l ++ (b1 ++ ':' :: (b2 ++ (i.name ++ rest)))) := by
      rw [htext]
      simp
    have hl' := letter_append (t := b1 ++ ':' :: (b2 ++ (i.name ++ rest))) hl.1
    have hskip : SKIP_BLANK text = l ++ (b1 ++ ':' :: (b2 ++ (i.name ++ rest))) := by
      rw [hassoc]
      exact skip_blanks hb (not_blank_of_letter hl')
    have hskip2 : SKIP_BLANK (b2 ++ (i.name ++ rest)) = i.name ++ rest :=
      skip_blanks hb2 (not_blank_of_letter hletter)
    have hsym : parse_symbol (l ++ (b1 ++ ':' :: (b2 ++ (i.name ++ rest)))) =
        some (l, b1 ++ ':' :: (b2 ++ (i.name ++ rest))) :=
      parse_symbol_of hn hl (stopsAt_append (fun c hc => (blank_space (hb1 c hc)).1)
        (stopsAt_cons rfl))
    have hlabel : parse_label (l ++ (b1 ++ ':' :: (b2 ++ (i.name ++ rest)))) =
        some (l, b2 ++ (i.name ++ rest)) := label_read hl hb1
    obtain ⟨hend', hcomm'⟩ := letter_plain hl'
    unfold parse_line at h
    simp only [hskip, hend', hcomm', hsym, hlabel, Bool.false_eq_true, if_false,
      Option.isSome_some, if_true] at h
    unfold add_symbol at h
    split at h
    · cases h
    · rename_i st1 hst1
      split at hst1
      · cases hst1
      · cases hst1
        simp only [hskip2, hend, hcomm, Bool.or_self, Bool.false_eq_true, if_false] at h
        exact ⟨_, _, rest, hsp, h⟩

/-! ## The whole source -/

/-- How the tables of a state come out of those of another one, after one line was parsed. -/
structure Grows (st st' : Asm) : Prop where
  lines : st'.lines = st.lines
  reltab : ∃ new, st'.reltab = st.reltab ++ new ∧ ∀ r ∈ new, r.2 = st.lines.length

theorem Grows.same {st st' : Asm} (hl : st'.lines = st.lines) (hr : st'.reltab = st.reltab) :
    Grows st st' := ⟨hl, [], by rw [hr]; simp, by simp⟩

theorem grows_add_name {st s : Asm} {name : Text} (hl : s.lines = st.lines)
    (hr : s.reltab = st.reltab) : Grows st (add_name heap s name) :=
  ⟨hl, [(⟨name, heap s.allocs⟩, s.lines.length)], by simp [add_name, add_reloc, hr], by simp [hl]⟩

theorem put_operands_grows {st s : Asm} {bin : Bin} {regs : Option Byte} {const : Option Token}
    (hl : s.lines = st.lines) (hr : s.reltab = st.reltab) :
    Grows st (put_operands heap s bin regs const).2 := by
  rcases const with _ | _ | _
  · exact Grows.same hl hr
  · exact Grows.same hl hr
  · exact grows_add_name heap hl hr

theorem parse_body_grows {st s s' : Asm} {text p : Text} {line : Line} (hl : s.lines = st.lines)
    (hr : s.reltab = st.reltab) (h : parse_body heap s text p = .ok (line, s')) :
    Grows st s' ∧ line.y64asm = text := by
  unfold parse_body at h
  split at h
  · cases h
  · simp only at h
    split at h
    · split at h
      · unfold parse_data_line at h
        split at h
        · cases h
        · split at h
          · cases h
          · cases h
            exact ⟨grows_add_name heap hl hr, rfl⟩
        · cases h
          exact ⟨Grows.same hl hr, rfl⟩
      · split at h
        · cases h
          exact ⟨Grows.same hl hr, rfl⟩
        · split at h
          · unfold align at h
            split at h
            · cases h
            · split at h
              · cases h
                exact ⟨Grows.same hl hr, rfl⟩
              · cases h
                exact ⟨Grows.same hl hr, rfl⟩
          · cases h
            exact ⟨Grows.same hl hr, rfl⟩
    · split at h
      · cases h
      · cases h
        exact ⟨put_operands_grows heap hl hr, rfl⟩

theorem parse_line_grows {st st' : Asm} {text : Text} {line : Line}
    (h : parse_line heap st text = .ok (line, st')) : Grows st st' ∧ line.y64asm = text := by
  unfold parse_line at h
  simp only at h
  split at h
  · cases h
    exact ⟨Grows.same rfl rfl, rfl⟩
  split at h
  · cases h
    exact ⟨Grows.same rfl rfl, rfl⟩
  -- the state after the token that may be a label has the same lines and entries
  obtain ⟨s, hs, hl, hr⟩ : ∃ s, (if (parse_symbol (SKIP_BLANK text)).isSome = true then
      { st with allocs := st.allocs + 1 } else st) = s ∧ s.lines = st.lines ∧
      s.reltab = st.reltab := by
    refine ⟨_, rfl, ?_, ?_⟩ <;> split <;> rfl
  rw [hs] at h
  split at h
  · unfold add_symbol at h
    split at h
    · cases h
    · rename_i s1 hs1
      split at hs1
      · cases hs1
      · cases hs1
        split at h
        · cases h
          exact ⟨Grows.same hl hr, rfl⟩
        · apply parse_body_grows heap ?_ ?_ h
          · exact hl
          · exact hr
  · exact parse_body_grows heap hl hr h

/-- What is true of the tables at every line of `assemble`: each line was parsed in a state of
its own, and the entries with its index are those that it made. -/
structure Assembled (st : Asm) : Prop where
  parsed : ∀ j line, st.lines[j]? = some line → ∃ s s', s.lines.length = j ∧
    parse_line heap s line.y64asm = .ok (line, s') ∧
    s'.reltab = s.reltab ++ st.reltab.filter (·.2 == j)
  entries : ∀ r ∈ st.reltab, r.2 < st.lines.length

theorem assembled_init : Assembled heap init where
  parsed := by
    intro j line h
    simp [init] at h
  entries := by
    intro r h
    simp [init] at h

theorem assembled_step {st st' : Asm} {text : Text} (h : Assembled heap st)
    (hs : assembleLine heap st text = .ok st') : Assembled heap st' := by
  unfold assembleLine at hs
  cases hp : parse_line heap st text with
  | error e =>
    rw [hp] at hs
    cases hs
  | ok p =>
    obtain ⟨line, s⟩ := p
    rw [hp] at hs
    cases hs
    obtain ⟨⟨hl, new, hnew, hidx⟩, htext⟩ := parse_line_grows heap hp
    -- the old entries have smaller indices, the new ones the index of the new line
    have hold : st.reltab.filter (·.2 == st.lines.length) = [] := by
      rw [List.filter_eq_nil_iff]
      intro r hr
      have := h.entries r hr
      simp only [beq_iff_eq]
      omega
    constructor
    · intro j l hj
      simp only [hl, hnew, List.filter_append] at hj ⊢
      rw [List.getElem?_append] at hj
      split at hj
      · rename_i hlt
        have hnone : new.filter (·.2 == j) = [] := by
          rw [List.filter_eq_nil_iff]
          intro r hr
          have := hidx r hr
          simp only [beq_iff_eq]
          omega
        rw [hnone, List.append_nil]
        exact h.parsed j l hj
      · rename_i hge
        obtain ⟨rfl, hj0⟩ : l = line ∧ j = st.lines.length := by
          obtain ⟨hlt, hl⟩ := List.getElem?_eq_some_iff.mp hj
          simp only [List.length_singleton, List.getElem_singleton] at hlt hl
          exact ⟨hl.symm, by omega⟩
        subst hj0
        have hall : new.filter (·.2 == st.lines.length) = new := by
          rw [List.filter_eq_self]
          intro r hr
          simpa using hidx r hr
        refine ⟨st, s, rfl, by rw [htext]; exact hp, ?_⟩
        rw [hold, hall, hnew, List.nil_append]
    · intro r hr
      simp only [hl, hnew, List.length_append, List.length_singleton, List.mem_append] at hr ⊢
      rcases hr with hr | hr
      · exact Nat.lt_succ_of_lt (h.entries r hr)
      · have := hidx r hr
        omega

theorem assembled {input : Text} {st : Asm} (h : assemble heap input = .ok st) :
    Assembled heap st :=
  foldlM_invariant (fun _ _ _ _ hP hf => assembled_step heap hP hf) (assembled_init heap) h

/-! ## The relocation -/

/-- The line after its entries have been resolved in the symbol table of `st`. -/
def patchAll (st : Asm) (rels : List (Name × Nat)) (b : Bin) : Bin :=
  rels.foldl (fun b r => b.patch ((find_symbol st r.1).getD 0)) b

theorem patchAll_cons (st : Asm) (r : Name × Nat) (rels : List (Name × Nat)) (b : Bin) :
    patchAll st (r :: rels) b = patchAll st rels (b.patch ((find_symbol st r.1).getD 0)) := by
  simp only [patchAll, List.foldl_cons]

theorem relocateEntry_cases {st st' : Asm} {rel : Name × Nat} (h : relocateEntry st rel = .ok st') :
    ∃ a, find_symbol st rel.1 = some a ∧ st'.symtab = st.symtab ∧
      st'.lines = st.lines.modify rel.2 fun l => { l with y64bin := l.y64bin.patch a } := by
  unfold relocateEntry at h
  split at h
  · cases h
  · rename_i a ha
    cases h
    exact ⟨a, ha, rfl, rfl⟩

theorem find_symbol_congr {st st' : Asm} (h : st'.symtab = st.symtab) :
    find_symbol st' = find_symbol st := by
  funext name
  unfold find_symbol
  rw [h]

theorem patchAll_congr {st st' : Asm} (h : st'.symtab = st.symtab) (rels : List (Name × Nat))
    (b : Bin) : patchAll st' rels b = patchAll st rels b := by
  unfold patchAll
  rw [find_symbol_congr h]

/-- `relocate` patches each line with its own entries, one after the other. -/
theorem relocate_fold {rels : List (Name × Nat)} {st st' : Asm}
    (h : rels.foldlM relocateEntry st = .ok st') :
    (∀ r ∈ rels, ∃ a, find_symbol st r.1 = some a) ∧
    ∀ j : Nat, st'.lines[j]? = st.lines[j]?.map fun l =>
      { l with y64bin := patchAll st (rels.filter (·.2 == j)) l.y64bin } := by
  induction rels generalizing st with
  | nil =>
    cases h
    refine ⟨by simp, fun j => ?_⟩
    cases st'.lines[j]? <;> rfl
  | cons rel rels ih =>
    rw [List.foldlM_cons] at h
    cases hr : relocateEntry st rel with
    | error e =>
      rw [hr] at h
      cases h
    | ok s =>
      rw [hr] at h
      obtain ⟨a, ha, hsym, hlines⟩ := relocateEntry_cases hr
      obtain ⟨hall, hj⟩ := ih h
      refine ⟨?_, fun j => ?_⟩
      · rintro r hmem
        rcases List.mem_cons.mp hmem with rfl | hmem
        · exact ⟨a, ha⟩
        · rw [← find_symbol_congr hsym]
          exact hall r hmem
      · rw [hj j, hlines, List.getElem?_modify, List.filter_cons, Option.map_eq_map, Option.map_map]
        congr 1
        funext l
        by_cases hij : rel.2 = j
        · simp only [Function.comp_apply, hij, BEq.rfl, if_true, patchAll_congr hsym, patchAll_cons,
            ha, Option.getD_some]
        · simp only [Function.comp_apply, hij, beq_iff_eq, if_false, patchAll_congr hsym]

/-! ## The bytes -/

/-- A patch of a constant fills in its low half. What it writes are the bytes of the constant. -/
theorem patch_codes {b : Bin} {a : Word} (h : 8 ≤ b.bytes) (x : Nat) :
    (b.patch a).codes x = store b.codes (b.bytes - 8) 4 a.toNat x := by
  simp only [Bin.patch, store, Bin.struct]
  by_cases hx : b.bytes ≤ x + 8 ∧ x + 8 < b.bytes + 4
  · rw [if_pos hx, if_pos (by omega)]
    congr 1
    omega
  · rw [if_neg hx, if_neg (by omega), if_neg (by omega)]
    rfl

/-- An address below 2^32 is what the eight bytes spell when the high half is 0. -/
theorem load_patched {c : Contents} {k : Nat} {a : Word} (h0 : ∀ i < 8, c (k + i) = 0)
    (ha : a.toNat < 2 ^ 32) : load (store c k 4 a.toNat) k 8 = a.toNat := by
  apply load_eq_of_bytes (by omega)
  intro i hi
  unfold store
  by_cases h4 : i < 4
  · rw [if_pos (by omega), Nat.add_sub_cancel_left]
  · rw [if_neg (by omega), h0 i hi]
    have hdiv : a.toNat / 256 ^ i = 0 := by
      apply Nat.div_eq_of_lt
      calc a.toNat < 256 ^ 4 := by omega
        _ ≤ 256 ^ i := Nat.pow_le_pow_right (by omega) (by omega)
    rw [byteOf, hdiv]
    rfl

/-! ## The row of the table and the instruction of the simulator -/

theorem row_legal : ∀ i ∈ instr_set, i.icode ≠ I_DIRECTIVE →
    y64sim.Legal (isa.IType.of i.icode.code) i.ifun := by
  intro i hi hd
  fin_cases hi <;> first | exact absurd rfl hd | exact rfl | (change _ ≤ _; decide)

theorem row_bytes : ∀ i ∈ instr_set, i.icode ≠ I_DIRECTIVE →
    i.bytes = (if isa.need_regids (isa.IType.of i.icode.code) then 2 else 1) +
      if isa.need_imm (isa.IType.of i.icode.code) then 8 else 0 := by
  decide

theorem Operands.Fits.needs {ops : Operands} {icode : IType} (h : ops.Fits icode) :
    isa.need_regids (isa.IType.of icode.code) = ops.regs.isSome ∧
      isa.need_imm (isa.IType.of icode.code) = ops.const.isSome := by
  cases ops
  case none => rcases h with rfl | rfl | rfl <;> exact ⟨rfl, rfl⟩
  case two | dest | one => rcases h with rfl | rfl <;> exact ⟨rfl, rfl⟩
  case imm | store | load =>
    cases h
    exact ⟨rfl, rfl⟩

/-- Where the constant of the instruction stands. -/
def Operands.constAt (ops : Operands) : Nat := if ops.regs.isSome then 2 else 1

theorem bytes_of {i : Instr} {ops : Operands} (hi : i ∈ instr_set) (hfit : ops.Fits i.icode) :
    i.bytes = ops.constAt + if ops.const.isSome then 8 else 0 := by
  obtain ⟨hregs, himm⟩ := hfit.needs
  rw [row_bytes i hi hfit.not_directive, hregs, himm]
  rfl

/-! ## The encoder -/

/-- The bytes of a line are the instruction with its operands; `v` is its constant. -/
structure Encodes (i : Instr) (ops : Operands) (v : Option Word) (b : Bin) : Prop where
  bytes : b.bytes = i.bytes
  first : b.codes 0 = i.code
  regs : ∀ r ∈ ops.regs, b.codes 1 = r
  const : ∀ w ∈ v, load b.codes ops.constAt 8 = w.toNat

/-- What a constant stands for in line `j`: a number for itself, a symbol for the address
that its relocation entry resolves to. -/
def Token.Means (st : Asm) (j : Nat) : Token → Word → Prop
  | .digit v, w => w = v
  | .symbol s, w => ∃ name, name.chars = s ∧ (name, j) ∈ st.reltab ∧ find_symbol st name = some w

/-- The bytes in front of the constant. -/
def front (i : Instr) (ops : Operands) : Contents :=
  match ops.regs with
  | some regs => Function.update (Function.update (fun _ => 0) 0 i.code) 1 regs
  | none => Function.update (fun _ => 0) 0 i.code

theorem front_first (i : Instr) (ops : Operands) : front i ops 0 = i.code := by
  unfold front
  cases ops.regs <;> rfl

theorem front_regs {i : Instr} {ops : Operands} {r : Byte} (h : r ∈ ops.regs) :
    front i ops 1 = r ∧ ops.constAt = 2 := by
  have hr : ops.regs = some r := h
  unfold front Operands.constAt
  rw [hr]
  exact ⟨rfl, rfl⟩

theorem front_rest {i : Instr} {ops : Operands} {x : Nat} (h : ops.constAt ≤ x) :
    front i ops x = 0 := by
  unfold front
  unfold Operands.constAt at h
  cases hr : ops.regs with
  | none =>
    simp only [hr, Option.isSome_none, Bool.false_eq_true, if_false] at h ⊢
    exact Function.update_of_ne (by omega) _ _
  | some r =>
    simp only [hr, Option.isSome_some, if_true] at h ⊢
    rw [Function.update_of_ne (by omega), Function.update_of_ne (by omega)]

/-- Behind the front, nothing changes the first byte or the register byte. -/
theorem encodes_store {i : Instr} {ops : Operands} {b : Bin} {n : Nat} {w : Word}
    (hb : b.bytes = i.bytes) (hc : ∀ x, b.codes x = store (front i ops) ops.constAt n w.toNat x)
    (hw : load b.codes ops.constAt 8 = w.toNat) : Encodes i ops (some w) b where
  bytes := hb
  first := by
    have : 0 < ops.constAt := by
      unfold Operands.constAt
      split <;> omega
    rw [hc, ← front_first i ops]
    unfold store
    rw [if_neg (by omega)]
  regs := by
    intro r hr
    obtain ⟨h1, h2⟩ := front_regs (i := i) hr
    rw [hc, ← h1]
    unfold store
    rw [if_neg (by omega)]
  const := by
    intro v hv
    cases hv
    exact hw

theorem put_operands_of {st : Asm} {i : Instr} {ops : Operands} {addr : Word} :
    (put_operands heap st ⟨addr, Function.update (fun _ => 0) 0 i.code, i.bytes⟩ ops.regs
      ops.const).1 = ⟨addr, match ops.const with
        | some (.digit v) => store (front i ops) 2 8 v.toNat
        | _ => front i ops, i.bytes⟩ := by
  unfold put_operands front
  rcases ops.const with _ | _ | _ <;> cases ops.regs <;> rfl

/-- What the line of a written instruction is after `relocate`. -/
theorem relocated_line {input : Text} {st st' : Asm} {j : Nat} {line : Line}
    {label : Option Text} {i : Instr} {ops : Operands} (hst : assemble heap input = .ok st)
    (hst' : relocate st = .ok st') (hj : st'.lines[j]? = some line)
    (hs : SpellsLine label i ops line.y64asm)
    (haddr : ∀ name a, (name, j) ∈ st.reltab → find_symbol st name = some a → a.toNat < 8192) :
    line.type = TYPE_INS ∧ ∃ v, Encodes i ops v line.y64bin ∧
      Option.Rel (Token.Means st j) ops.const v := by
  obtain ⟨hres, hlines⟩ := relocate_fold hst'
  rw [hlines, Option.map_eq_some_iff] at hj
  obtain ⟨l, hl, rfl⟩ := hj
  obtain ⟨s, s', hlen, hparse, hrel⟩ := (assembled heap hst).parsed j l hl
  obtain ⟨symtab, allocs, rest, hsp, hbody⟩ := parse_line_of heap hs hparse
  rw [parse_body_of heap hs.row hs.fits hsp, put_operands_of] at hbody
  simp only [Except.ok.injEq, Prod.mk.injEq] at hbody
  obtain ⟨hline, rfl⟩ := hbody
  have hbin := (congrArg Line.y64bin hline).symm
  have hbytes := bytes_of hs.row hs.fits
  refine ⟨(congrArg Line.type hline).symm, ?_⟩
  change ∃ v, Encodes i ops v (patchAll st (st.reltab.filter (·.2 == j)) l.y64bin) ∧ _
  rw [hbin]
  cases hc : ops.const with
  | none =>
    have hnil : st.reltab.filter (·.2 == j) = [] := by
      simpa [hc, put_operands] using hrel
    refine ⟨none, ?_, Option.Rel.none⟩
    simp only [hnil]
    exact ⟨rfl, front_first i ops, fun r hr => (front_regs hr).1, fun w hw => by cases hw⟩
  | some tok =>
    cases tok with
    | digit w =>
      have hnil : st.reltab.filter (·.2 == j) = [] := by
        simpa [hc, put_operands] using hrel
      refine ⟨some w, ?_, Option.Rel.some rfl⟩
      have h2 : ops.constAt = 2 := by
        cases ops <;> first | rfl | cases hc
      simp only [hnil]
      apply encodes_store (n := 8) rfl
      · intro x
        rw [h2]
        rfl
      · rw [h2]
        change load (store (front i ops) 2 8 w.toNat) 2 8 = w.toNat
        rw [load_store_same]
        exact Nat.mod_eq_of_lt w.isLt
    | symbol sym =>
      have hone : st.reltab.filter (·.2 == j) = [(⟨sym, heap allocs⟩, j)] := by
        simpa [hc, put_operands, add_name, add_reloc, hlen] using hrel.symm
      have hmem : (⟨sym, heap allocs⟩, j) ∈ st.reltab := by
        apply List.mem_of_mem_filter
        rw [hone]
        exact List.mem_singleton_self _
      obtain ⟨a, ha⟩ := hres _ hmem
      have hlt := haddr _ a hmem ha
      refine ⟨some a, ?_, Option.Rel.some ⟨_, rfl, hmem, ha⟩⟩
      rw [hc, Option.isSome_some, if_pos rfl] at hbytes
      have hcodes : ∀ x, (Bin.patch ⟨s.vmaddr, front i ops, i.bytes⟩ a).codes x =
          store (front i ops) ops.constAt 4 a.toNat x := by
        intro x
        rw [patch_codes (by change 8 ≤ i.bytes; omega), show i.bytes - 8 = ops.constAt by omega]
      simp only [hone, patchAll_cons, ha, Option.getD_some]
      apply encodes_store (n := 4) rfl hcodes
      rw [load_congr fun x _ _ => hcodes x]
      apply load_patched
      · intro k _
        exact front_rest (by omega)
      · omega

/-! ## The decoder -/

/-- The bytes of the line stand in the memory at `pc`. -/
structure Loaded (m : Mem) (pc : Word) (b : Bin) : Prop where
  inside : Inside m pc b.bytes
  bytes : ∀ x < b.bytes, m.contents (pc.toNat + x) = b.codes x

/-- The written registers are in the fields that `nexti` takes them from. -/
def Operands.InRoles (ops : Operands) (d : y64sim.Decoded) : Prop :=
  match ops with
  | .none | .dest _ => True
  | .two rA rB | .store rA _ rB | .load _ rB rA => d.regA = rA.toNat ∧ d.regB = rB.toNat
  | .imm _ rB => d.regB = rB.toNat
  | .one rA => d.regA = rA.toNat

/-- What `nexti` reads is the instruction with its operands and its constant `v`. -/
structure ReadsBack (i : Instr) (ops : Operands) (v : Option Word) (d : y64sim.Decoded) : Prop where
  icode : d.icode = isa.IType.of i.icode.code
  ifun : d.ifun = i.ifun
  regs : ops.InRoles d
  const : ∀ w ∈ v, d.immediate = w

theorem fetch_reads_back {loc : y64sim.Locals} {m : Mem} {pc : Word} {i : Instr} {ops : Operands}
    {v : Option Word} {b : Bin} (hloc : loc.Pass) (hi : i ∈ instr_set) (hfit : ops.Fits i.icode)
    (hv : v.isSome = ops.const.isSome) (h : Encodes i ops v b) (hm : Loaded m pc b) :
    ∃ d, y64sim.fetch loc m pc = some (.ok d) ∧ ReadsBack i ops v d ∧
      d.next_pc = pc + BitVec.ofNat 64 b.bytes := by
  obtain ⟨hregs, himm⟩ := hfit.needs
  have hbytes := bytes_of hi hfit
  let s : isa.State := ⟨pc, fun _ => 0, m, isa.DEFAULT_CC⟩
  have hbyte : ∀ x < b.bytes, isa.codeByte s x = b.codes x := hm.bytes
  have hpos : 0 < ops.constAt := by
    unfold Operands.constAt
    split <;> omega
  have hcode : isa.codeByte s 0 = i.code := by
    rw [hbyte 0 (by rw [h.bytes]; omega), h.first]
  have hic : isa.icodeAt s = isa.IType.of i.icode.code := by
    rw [isa.icodeAt, hcode, Instr.code, hi4_hpack]
  have hif : isa.ifunAt s = i.ifun := by
    rw [isa.ifunAt, hcode, Instr.code, lo4_hpack]
  have hoff : isa.constOffset s = ops.constAt := by
    rw [isa.constOffset, hic, hregs]
    rfl
  have hlen : isa.lengthAt s = b.bytes := by
    rw [isa.lengthAt, hoff, hic, himm, h.bytes, hbytes]
  have hword : ∀ w ∈ v, isa.need_imm (isa.icodeAt s) = true ∧ isa.constAt s = w := by
    intro w hw
    have himm' : ops.const.isSome = true := by
      rw [← hv, show v = some w from hw]
      rfl
    rw [himm', if_pos rfl] at hbytes
    have hpc := isa.pc_plus (s := s) (i := ops.constAt) hm.inside (by rw [h.bytes]; omega)
    refine ⟨by rw [hic, himm, himm'], ?_⟩
    have hload : load m.contents (pc.toNat + ops.constAt) 8 = w.toNat := by
      apply load_eq_of_bytes w.isLt
      intro k hk
      rw [Nat.add_assoc, hm.bytes _ (by rw [h.bytes]; omega), ← h.const w hw, byteOf_load _ hk]
    unfold isa.constAt wordAt
    rw [hoff, hpc, hload, BitVec.ofNat_toNat, BitVec.setWidth_eq]
  have hreg : ∀ r ∈ ops.regs, isa.need_regids (isa.icodeAt s) = true ∧ isa.codeByte s 1 = r := by
    intro r hr
    have hr' : ops.regs.isSome = true := by
      rw [show ops.regs = some r from hr]
      rfl
    have h2 : ops.constAt = 2 := (front_regs (i := i) hr).2
    refine ⟨by rw [hic, hregs, hr'], ?_⟩
    rw [hbyte 1 (by rw [h.bytes]; omega), h.regs r hr]
  refine ⟨y64sim.decodedAt loc s, ?_, ⟨hic, hif, ?_, ?_⟩, ?_⟩
  · apply y64sim.fetch_decodes (s := s) ?_ ?_ hloc
    · rw [hlen]
      exact hm.inside
    · rw [hic, hif]
      exact row_legal i hi hfit.not_directive
  · unfold Operands.InRoles y64sim.decodedAt
    cases ops <;> try trivial
    all_goals
      obtain ⟨hneed, hb⟩ := hreg _ rfl
      simp [hneed, hb]
  · intro w hw
    obtain ⟨hneed, hval⟩ := hword w hw
    unfold y64sim.decodedAt
    simp only [hneed, if_true]
    exact hval
  · unfold y64sim.decodedAt
    rw [hlen]

/-! ## The law -/

/-- An instruction that is written in a source is read back by the simulator: the same
instruction, its registers in their roles and its constant, in as many bytes as its line has. -/
theorem a_written_instruction_is_read_back {loc : y64sim.Locals} {m : Mem} {pc : Word}
    {input : Text} {st st' : Asm} {j : Nat} {line : Line} {label : Option Text} {i : Instr}
    {ops : Operands} (hst : assemble heap input = .ok st) (hst' : relocate st = .ok st')
    (hj : st'.lines[j]? = some line) (hs : SpellsLine label i ops line.y64asm)
    (haddr : ∀ name a, (name, j) ∈ st.reltab → find_symbol st name = some a → a.toNat < 8192)
    (hm : Loaded m pc line.y64bin) (hloc : loc.Pass) :
    ∃ v d, Option.Rel (Token.Means st j) ops.const v ∧
      y64sim.fetch loc m pc = some (.ok d) ∧ ReadsBack i ops v d ∧
      d.next_pc = pc + BitVec.ofNat 64 line.y64bin.bytes := by
  obtain ⟨-, v, henc, hv⟩ := relocated_line heap hst hst' hj hs haddr
  have hsome : v.isSome = ops.const.isSome := by
    generalize ops.const = o at hv
    cases hv <;> rfl
  obtain ⟨d, hfetch, hread, hnext⟩ := fetch_reads_back hloc hs.row hs.fits hsome henc hm
  exact ⟨v, d, hv, hfetch, hread, hnext⟩

/-- A call of a label behind it. -/
def callText : Text := "nop\ncall f\nhalt\nf: ret".toList

def callBin : Bin := ⟨1, Function.update (fun _ => 0) 0 (hpack 8 0), 9⟩

/-- The lines as `assemble` leaves them, each with its address. -/
def callLines : List (Word × Line) :=
  [(0, ⟨TYPE_INS, ⟨0, Function.update (fun _ => 0) 0 (hpack 1 0), 1⟩, "nop".toList⟩),
    (1, ⟨TYPE_INS, callBin, "call f".toList⟩),
    (10, ⟨TYPE_INS, ⟨10, Function.update (fun _ => 0) 0 (hpack 0 0), 1⟩, "halt".toList⟩),
    (11, ⟨TYPE_INS, ⟨11, Function.update (fun _ => 0) 0 (hpack 9 0), 1⟩, "f: ret".toList⟩)]

def callAsm : Asm where
  lines := callLines.map Prod.snd
  vmaddr := 12
  symtab := [(⟨['f'], []⟩, 11)]
  reltab := [(⟨['f'], []⟩, 1)]
  allocs := 5

theorem call_spells :
    SpellsLine none ⟨"call".toList, 4, I_CALL, 0, 9⟩ (.dest ['f']) "call f".toList := by
  have hn : SymbolName ['f'] := symbolName_of_all rfl
  have hb : ∀ b : Text, b = [] ∨ b = [' '] → Blanks b := by
    rintro b (rfl | rfl) <;> simp [Blanks, isBlank]
  refine ⟨by decide, Or.inr rfl, [], [], [' ', 'f'], rfl, hb _ (Or.inl rfl), LabelPart.none, ?_⟩
  apply Spells.dest (b := [' ']) (t := []) (hb _ (Or.inr rfl)) (by decide) hn
  exact ⟨[], [], rfl, hb _ (Or.inl rfl), Or.inl rfl⟩

/-- The call at 1, with 11 in its last eight bytes. -/
def callMem : Mem := ⟨16, fun x => (callBin.patch 11).codes (x - 1), by norm_num⟩

theorem a_call_is_read_back :
    ∃ line v d, (relocate callAsm).map (·.lines[1]?) = .ok (some line) ∧
      Option.Rel (Token.Means callAsm 1) (Operands.dest ['f']).const v ∧
      y64sim.fetch ⟨0, 0, 0⟩ callMem 1 = some (.ok d) ∧
      ReadsBack ⟨"call".toList, 4, I_CALL, 0, 9⟩ (.dest ['f']) v d ∧
      d.next_pc = 1 + BitVec.ofNat 64 line.y64bin.bytes := by
  have hst : assemble (fun _ => []) callText = .ok callAsm := rfl
  have haddr : ∀ name a, (name, 1) ∈ callAsm.reltab → find_symbol callAsm name = some a →
      a.toNat < 8192 := by
    intro name a hmem ha
    obtain rfl : name = ⟨['f'], []⟩ := by simpa [callAsm] using hmem
    cases ha
    decide
  have hm : Loaded callMem 1 (callBin.patch 11) := by
    refine ⟨by decide, fun x _ => ?_⟩
    change (callBin.patch 11).codes (1 + x - 1) = _
    rw [Nat.add_sub_cancel_left]
  have hloc : y64sim.Locals.Pass ⟨0, 0, 0⟩ := ⟨rfl, rfl⟩
  obtain ⟨v, d, h⟩ := a_written_instruction_is_read_back (fun _ => []) hst rfl rfl call_spells
    haddr hm hloc
  exact ⟨_, v, d, rfl, h⟩

end ics_labs.asm
