-- What parse_line does to a line, said once: it stops at a label that the table has, or it takes
-- the line as a bare one, or it goes on with the instruction behind the label.
import IcsLabs.Symbols

open ics_labs.byte_words ics_labs.memory ics_labs.ctext

namespace ics_labs.asm

open IType LineType

variable (heap : Nat → Text)

/-- The label of a line, as it is allocated. -/
def labelName (st : Asm) (text : Text) : Option Name :=
  (labelOf text).map fun name => ⟨name, heap st.allocs⟩

/-- The label of the line is not in the table. -/
def LabelIsNew (st : Asm) (text : Text) : Prop :=
  ∀ name ∈ labelName heap st text, find_symbol st name = none

/-- The tables in front of the instruction, behind the label. -/
def behindLabel (st : Asm) (text : Text) : Asm :=
  { st with
    symtab := st.symtab ++ (labelName heap st text).toList.map fun name => (name, st.vmaddr)
    allocs := if (parse_symbol (SKIP_BLANK text)).isSome then st.allocs + 1 else st.allocs }

variable {heap} {st st' : Asm} {text : Text} {line : Line}

theorem plain_no_symbol {q : Text} (h : (IS_END q || IS_COMMENT q) = true) :
    parse_symbol q = none := by
  rcases q with _ | ⟨c, q⟩
  · rfl
  · have hc : c = '#' := by simpa [IS_END, IS_COMMENT] using h
    subst hc
    rfl

/-- A label that the table has stops the assembler. -/
theorem parse_line_old (h : ¬ LabelIsNew heap st text) :
    parse_line heap st text = .error .error := by
  unfold LabelIsNew labelName at h
  push Not at h
  obtain ⟨name, hname, hfind⟩ := h
  obtain ⟨l, hl, rfl⟩ := Option.map_eq_some_iff.mp hname
  unfold labelOf at hl
  simp only at hl
  split at hl
  · cases hl
  · rename_i hplain
    obtain ⟨⟨l', p⟩, hlab, rfl⟩ := Option.map_eq_some_iff.mp hl
    have hsym := parse_label_symbol hlab
    rw [Bool.not_eq_true, Bool.or_eq_false_iff] at hplain
    have hdup : (find_symbol { st with allocs := st.allocs + 1 } ⟨l', heap st.allocs⟩).isSome := by
      rw [Option.isSome_iff_ne_none]
      exact hfind
    have hsome : (parse_symbol (SKIP_BLANK text)).isSome = true := by
      rw [← Option.isSome_map, hsym]
      rfl
    unfold parse_line
    simp only [hplain.1, hplain.2, Bool.false_eq_true, if_false, hlab, hsym, Option.getD_some,
      hsome, if_true, add_symbol, hdup]

/-- With a label that is new, or with none: a line without an instruction only adds its label, and
any other goes on with the instruction. -/
theorem parse_line_new (h : LabelIsNew heap st text) :
    match bodyOf text with
    | none => ∃ line, parse_line heap st text = .ok (line, behindLabel heap st text)
    | some p => parse_line heap st text = parse_body heap (behindLabel heap st text) text p := by
  unfold LabelIsNew labelName labelOf at h
  unfold bodyOf behindLabel labelName labelOf parse_line
  simp only at h ⊢
  generalize SKIP_BLANK text = q at h ⊢
  by_cases hend : IS_END q = true
  · simp only [hend, Bool.true_or, if_true, plain_no_symbol (q := q) (by simp [hend]),
      Option.map_none, Option.toList_none, List.map_nil, List.append_nil, Option.isSome_none,
      Bool.false_eq_true, if_false]
    exact ⟨_, rfl⟩
  by_cases hcomm : IS_COMMENT q = true
  · simp only [hend, hcomm, Bool.or_true, if_true, plain_no_symbol (q := q) (by simp [hcomm]),
      Option.map_none, Option.toList_none, List.map_nil, List.append_nil, Option.isSome_none,
      Bool.false_eq_true, if_false]
    exact ⟨_, rfl⟩
  simp only [hend, hcomm, Bool.or_self, Bool.false_eq_true, if_false] at h ⊢
  cases hlab : parse_label q with
  | none =>
    simp only [Option.map_none, Option.toList_none, List.map_nil, List.append_nil]
    split <;> rfl
  | some r =>
    obtain ⟨name, p⟩ := r
    have hsym := parse_label_symbol hlab
    have hsome : (parse_symbol q).isSome = true := by
      rw [← Option.isSome_map, hsym]
      rfl
    have hfresh : find_symbol { st with allocs := st.allocs + 1 } ⟨name, heap st.allocs⟩ = none := by
      rw [hlab] at h
      exact h _ rfl
    simp only [hsym, hsome, if_true, Option.getD_some, add_symbol, hfresh, Option.isSome_none,
      Bool.false_eq_true, if_false, Option.map_some, Option.toList_some, List.map_cons, List.map_nil]
    by_cases hb : (IS_END (SKIP_BLANK p) || IS_COMMENT (SKIP_BLANK p)) = true
    · simp only [hb, if_true]
      exact ⟨_, rfl⟩
    · simp only [hb, Bool.false_eq_true, if_false]

theorem LabelIsNew.of_none (h : labelOf text = none) : LabelIsNew heap st text := by
  intro name hname
  rw [labelName, h] at hname
  cases hname

theorem LabelIsNew.of_ok (h : parse_line heap st text = .ok (line, st')) :
    LabelIsNew heap st text := by
  by_contra hold
  rw [parse_line_old hold] at h
  cases h

/-- An instruction that is accepted was parsed behind its label. -/
theorem parse_line_body {p : Text} (h : parse_line heap st text = .ok (line, st'))
    (hp : bodyOf text = some p) :
    parse_body heap (behindLabel heap st text) text p = .ok (line, st') := by
  have hnew := parse_line_new (LabelIsNew.of_ok h)
  rw [hp] at hnew
  exact hnew ▸ h

/-- An `.align` takes no room of its own. -/
theorem align_row : ∀ i ∈ instr_set, i.icode = I_DIRECTIVE → i.ifun = D_ALIGN → i.bytes = 0 := by
  decide

end ics_labs.asm
