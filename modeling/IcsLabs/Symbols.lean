-- The symbols of a program. Symbol names are taken as the rows of characters that
-- parse_symbol reads, so the byte behind each allocation is 0. Each line is then looked
-- at by itself, and the tables of the assembler are those of the lines put together.
import IcsLabs.AsmCodec

open ics_labs.byte_words ics_labs.memory ics_labs.ctext ics_labs.runs

namespace ics_labs.asm

open IType LineType

/-! ## A line by itself -/

/-- The byte behind an allocation is 0, so a name ends where its characters end. -/
def bareNames : Nat → Text := fun _ => []

/-- The label of a line, as `parse_line` reads it. -/
def labelOf (text : Text) : Option Text :=
  let p := SKIP_BLANK text
  if IS_END p || IS_COMMENT p then none else (parse_label p).map Prod.fst

/-- The text in which `parse_line` looks for an instruction, if it does. -/
def bodyOf (text : Text) : Option Text :=
  let p := SKIP_BLANK text
  if IS_END p || IS_COMMENT p then none
  else
    match parse_label p with
    | none => some p
    | some (_, p) =>
      let p := SKIP_BLANK p
      if IS_END p || IS_COMMENT p then none else some p

/-- The symbol that stands for the constant of an instruction. -/
def symbolIn (i : Instr) (p : Text) : Option Text :=
  if i.icode = I_DIRECTIVE then
    if i.ifun = D_DATA then
      match parse_data p with
      | some (.symbol name, _) => some name
      | _ => none
    else none
  else
    match parse_operands i.icode p with
    | some (_, some (.symbol name)) => some name
    | _ => none

/-- The symbol that a line refers to. -/
def refOf (text : Text) : Option Text :=
  ((bodyOf text).bind parse_instr).bind fun (i, p) => symbolIn i p

/-- The assembler in front of a line, with empty tables. -/
def alone (vmaddr : Word) : Asm := { init with vmaddr }

/-- The tables of `st` with those that a line by itself has left. -/
def Asm.plus (st s : Asm) : Asm where
  lines := st.lines
  vmaddr := s.vmaddr
  symtab := st.symtab ++ s.symtab
  reltab := st.reltab ++ s.reltab.map fun r => (r.1, st.lines.length)
  allocs := st.allocs + s.allocs

/-- The location counter in front of each line and the line, when each is parsed by itself. -/
def layout : Word → List Text → Except Fault (List (Word × Line))
  | _, [] => .ok []
  | vmaddr, text :: texts => do
    let (line, s) ← parse_line bareNames (alone vmaddr) text
    let rest ← layout s.vmaddr texts
    .ok ((vmaddr, line) :: rest)

/-! ## The tables of a line -/

theorem plus_alone (st : Asm) (vmaddr : Word) : st.plus (alone vmaddr) = { st with vmaddr } := by
  simp [Asm.plus, alone, init]

theorem plus_add_name (st : Asm) (vmaddr : Word) (name : Text) :
    add_name bareNames { st with vmaddr } name =
      st.plus (add_name bareNames (alone vmaddr) name) := by
  simp [Asm.plus, add_name, add_reloc, alone, init, bareNames]

theorem put_operands_plus (st : Asm) (vmaddr : Word) (bin : Bin) (regs : Option Byte)
    (const : Option Token) : put_operands bareNames { st with vmaddr } bin regs const =
      ((put_operands bareNames (alone vmaddr) bin regs const).1,
        st.plus (put_operands bareNames (alone vmaddr) bin regs const).2) := by
  rcases const with _ | _ | name
  · exact congrArg (Prod.mk _) (plus_alone st vmaddr).symm
  · exact congrArg (Prod.mk _) (plus_alone st vmaddr).symm
  · exact congrArg (Prod.mk _) (plus_add_name st vmaddr name)

theorem parse_data_line_plus (st : Asm) (vmaddr : Word) (bin : Bin) (p : Text) :
    parse_data_line bareNames { st with vmaddr } bin p =
      (parse_data_line bareNames (alone vmaddr) bin p).map fun r => (r.1, st.plus r.2) := by
  unfold parse_data_line
  rcases parse_data p with _ | ⟨value | name, _⟩
  · rfl
  · exact congrArg (fun s => Except.ok (_, s)) (plus_alone st vmaddr).symm
  · simp only
    split
    · rfl
    · exact congrArg (fun s => Except.ok (_, s)) (plus_add_name st vmaddr name)

/-- The tables in front of a line have no part in what its instruction gives. -/
theorem parse_body_plus (st : Asm) (text p : Text) : parse_body bareNames st text p =
    (parse_body bareNames (alone st.vmaddr) text p).map fun r => (r.1, st.plus r.2) := by
  unfold parse_body
  cases parse_instr p with
  | none => rfl
  | some q =>
    obtain ⟨i, rest⟩ := q
    simp only
    split
    · split
      · rw [parse_data_line_plus]
        change _ = ((parse_data_line bareNames (alone (st.vmaddr + BitVec.ofNat 64 i.bytes))
          ⟨st.vmaddr, _, _⟩ _).map _).map _
        cases parse_data_line bareNames (alone (st.vmaddr + BitVec.ofNat 64 i.bytes))
          ⟨st.vmaddr, _, _⟩ rest <;> rfl
      · split
        · exact congrArg (fun s => Except.ok (_, s)) (plus_alone st _).symm
        · split
          · change _ = ((align (st.vmaddr + BitVec.ofNat 64 i.bytes) _).map _).map _
            cases align (st.vmaddr + BitVec.ofNat 64 i.bytes) (parse_digit rest).1 with
            | error e => rfl
            | ok v => exact congrArg (fun s => Except.ok (_, s)) (plus_alone st _).symm
          · exact congrArg (fun s => Except.ok (_, s)) (plus_alone st _).symm
    · cases parse_operands i.icode rest with
      | none => rfl
      | some q =>
        obtain ⟨regs, const⟩ := q
        simp only [put_operands_plus st]
        rfl

theorem plus_assoc (st s r : Asm) : st.plus (s.plus r) = (st.plus s).plus r := by
  simp [Asm.plus, Function.comp_def, Nat.add_assoc]

/-- The instruction of a line, when the tables in front of it are those of two parts. -/
theorem parse_body_after (st s : Asm) (text p : Text) :
    parse_body bareNames (st.plus s) text p =
      (parse_body bareNames s text p).map fun r => (r.1, st.plus r.2) := by
  rw [parse_body_plus (st.plus s), parse_body_plus s]
  change (parse_body bareNames (alone s.vmaddr) text p).map _ = _
  cases parse_body bareNames (alone s.vmaddr) text p with
  | error e => rfl
  | ok r => exact congrArg (fun t => Except.ok (r.1, t)) (plus_assoc st s r.2).symm

theorem parse_label_symbol {p name rest : Text} (h : parse_label p = some (name, rest)) :
    (parse_symbol p).map Prod.fst = some name := by
  unfold parse_label at h
  cases hp : parse_symbol p with
  | none =>
    rw [hp] at h
    cases h
  | some q =>
    obtain ⟨n, u⟩ := q
    rw [hp] at h
    simp only [Option.bind_eq_bind, Option.bind_some] at h
    cases hd : parse_delim u ':' with
    | none =>
      rw [hd] at h
      cases h
    | some w =>
      rw [hd] at h
      cases h
      rfl

/-- A label that the table has is the only thing that can go wrong because of the tables. -/
theorem parse_line_plus (st : Asm) (text : Text) : parse_line bareNames st text =
    if ∃ name ∈ labelOf text, (find_symbol st ⟨name, []⟩).isSome then .error .error
    else (parse_line bareNames (alone st.vmaddr) text).map fun r => (r.1, st.plus r.2) := by
  have hnone : ∀ r : Except Fault (Line × Asm), (if ∃ name ∈ (none : Option Text),
      (find_symbol st ⟨name, []⟩).isSome then .error .error else r) = r := by
    intro r
    rw [if_neg]
    rintro ⟨name, hname, -⟩
    cases hname
  have hself : st.plus (alone st.vmaddr) = st := plus_alone st st.vmaddr
  unfold parse_line labelOf
  simp only
  generalize SKIP_BLANK text = q
  by_cases hend : IS_END q = true
  · simp only [hend, if_true, Bool.true_or, hnone]
    exact congrArg (fun s => Except.ok (_, s)) hself.symm
  by_cases hcomm : IS_COMMENT q = true
  · simp only [hend, hcomm, if_true, Bool.or_true, Bool.false_eq_true, if_false, hnone]
    exact congrArg (fun s => Except.ok (_, s)) hself.symm
  simp only [hend, hcomm, Bool.or_self, Bool.false_eq_true, if_false]
  cases hlab : parse_label q with
  | none =>
    simp only [Option.map_none, hnone]
    have hst : (if (parse_symbol q).isSome = true then { st with allocs := st.allocs + 1 } else st) =
        st.plus (if (parse_symbol q).isSome = true then { alone st.vmaddr with allocs := 1 }
          else alone st.vmaddr) := by
      split
      · simp [Asm.plus, alone, init]
      · exact hself.symm
    rw [hst, parse_body_after]
    rfl
  | some r =>
    obtain ⟨name, p⟩ := r
    have hsym := parse_label_symbol hlab
    have hsome : (parse_symbol q).isSome = true := by
      rw [← Option.isSome_map, hsym]
      rfl
    have hfresh : find_symbol { alone st.vmaddr with allocs := 1 } ⟨name, []⟩ = none := rfl
    have hfind : find_symbol { st with allocs := st.allocs + 1 } ⟨name, []⟩ =
        find_symbol st ⟨name, []⟩ := rfl
    have hallocs : (alone st.vmaddr).allocs + 1 = 1 := rfl
    simp only [hsym, hsome, if_true, Option.getD_some, bareNames, add_symbol, hfind, hallocs, hfresh,
      Option.isSome_none, Bool.false_eq_true, if_false, Option.map_some, Option.mem_def,
      Option.some.injEq, exists_eq_left']
    by_cases hdup : (find_symbol st ⟨name, []⟩).isSome = true
    · rw [if_pos hdup, if_pos hdup]
    · rw [if_neg hdup, if_neg hdup]
      -- the tables with the label in them
      let sym : Name × Word := (⟨name, []⟩, st.vmaddr)
      have hst : ({ st with allocs := st.allocs + 1, symtab := st.symtab ++ [sym] } : Asm) =
          st.plus { alone st.vmaddr with allocs := 1, symtab := [sym] } := by
        simp [Asm.plus, alone, init]
      by_cases hb : (IS_END (SKIP_BLANK p) || IS_COMMENT (SKIP_BLANK p)) = true
      · simp only [hb, if_true]
        exact congrArg (fun s => Except.ok (_, s)) hst
      · simp only [hb, Bool.false_eq_true, if_false]
        have hafter := parse_body_after st
          { alone st.vmaddr with allocs := 1, symtab := [sym] } text (SKIP_BLANK p)
        rw [← hst] at hafter
        exact hafter

/-! ## What a line leaves -/

/-- The constant of a line: its last eight bytes, or all of them when it has fewer. -/
def Bin.constant (b : Bin) : Nat := load b.codes (b.bytes - 8) (min b.bytes 8)

/-- A line before its symbol is filled in. The high half of the constant is 0. The four bytes
of a `.long` still hold the code of the directive. -/
def Bin.Awaits (b : Bin) : Prop :=
  (8 ≤ b.bytes ∧ ∀ i < 4, b.codes (b.bytes - 4 + i) = 0) ∨ (b.bytes = 4 ∧ load b.codes 0 4 = 0xC0)

theorem row_of_symbol : ∀ i ∈ instr_set, (i.icode = I_IRMOVQ ∨ i.icode = I_JMP ∨ i.icode = I_CALL →
    9 ≤ i.bytes) ∧ (i.icode = I_DIRECTIVE → i.ifun = D_DATA →
    i.code = 0xC0 ∧ (i.bytes < 4 ∨ i.bytes = 4 ∨ i.bytes = 8)) := by
  decide

/-- Three kinds of instructions take a symbol. -/
theorem operands_symbol {icode : IType} {p : Text} {regs : Option Byte} {name : Text}
    (h : parse_operands icode p = some (regs, some (.symbol name))) :
    icode = I_IRMOVQ ∨ icode = I_JMP ∨ icode = I_CALL := by
  cases icode <;> simp [parse_operands, Option.bind_eq_some_iff] at h ⊢

theorem put_operands_codes (heap : Nat → Text) (st : Asm) (addr : Word) (c : Byte) (n : Nat) (regs : Option Byte)
    (name : Text) {x : Nat} (hx : 2 ≤ x) : (put_operands heap st
      ⟨addr, Function.update (fun _ => 0) 0 c, n⟩ regs (some (.symbol name))).1.codes x = 0 := by
  cases regs with
  | none =>
    change Function.update (fun _ => (0 : Byte)) 0 c x = 0
    rw [Function.update_of_ne (by omega)]
  | some r =>
    change Function.update (Function.update (fun _ => (0 : Byte)) 0 c) 1 r x = 0
    rw [Function.update_of_ne (by omega), Function.update_of_ne (by omega)]

/-- What the instruction of a line leaves in the tables and, if it refers to a symbol, in the
place of its constant. -/
theorem parse_body_leaves {heap : Nat → Text} {s s' : Asm} {text p : Text} {line : Line}
    (h : parse_body heap s text p = .ok (line, s')) :
    ∃ i rest, parse_instr p = some (i, rest) ∧ s'.symtab = s.symtab ∧
      s'.reltab = s.reltab ++
        (symbolIn i rest).toList.map (fun n => (⟨n, heap s.allocs⟩, s.lines.length)) ∧
      ((symbolIn i rest).isSome → line.y64bin.Awaits) := by
  unfold parse_body at h
  cases hi : parse_instr p with
  | none =>
    rw [hi] at h
    cases h
  | some q =>
    obtain ⟨i, rest⟩ := q
    obtain ⟨hwide, hdata⟩ := row_of_symbol i (parse_instr_row hi)
    refine ⟨i, rest, rfl, ?_⟩
    simp only [hi] at h
    unfold symbolIn
    by_cases hd : i.icode = I_DIRECTIVE
    · rw [if_pos hd] at h ⊢
      by_cases hdd : i.ifun = D_DATA
      · rw [if_pos hdd] at h ⊢
        obtain ⟨r, hr, he⟩ := map_eq_ok h
        cases he
        unfold parse_data_line at hr
        rcases hp : parse_data rest with _ | ⟨value | name, _⟩
        · rw [hp] at hr
          cases hr
        · rw [hp] at hr
          cases hr
          exact ⟨rfl, (List.append_nil _).symm, fun hsome => by cases hsome⟩
        · rw [hp] at hr
          simp only at hr
          split at hr
          · cases hr
          · rename_i hge
            cases hr
            refine ⟨rfl, rfl, fun _ => ?_⟩
            obtain ⟨hcode, hbytes⟩ := hdata hd hdd
            rcases hbytes with hlt | h4 | h8
            · exact absurd hlt hge
            · right
              refine ⟨h4, ?_⟩
              simp only [hcode]
              rfl
            · left
              refine ⟨h8.ge, fun k hk => ?_⟩
              change Function.update (fun _ => (0 : Byte)) 0 i.code (i.bytes - 4 + k) = 0
              rw [Function.update_of_ne (by omega)]
      · rw [if_neg hdd] at h ⊢
        have hkeep : s'.symtab = s.symtab ∧ s'.reltab = s.reltab := by
          split at h
          · cases h
            exact ⟨rfl, rfl⟩
          · split at h
            · obtain ⟨v, -, he⟩ := map_eq_ok h
              cases he
              exact ⟨rfl, rfl⟩
            · cases h
              exact ⟨rfl, rfl⟩
        refine ⟨hkeep.1, ?_, fun hsome => by cases hsome⟩
        rw [hkeep.2]
        exact (List.append_nil _).symm
    · rw [if_neg hd] at h ⊢
      rcases hp : parse_operands i.icode rest with _ | ⟨regs, const⟩
      · rw [hp] at h
        cases h
      · rw [hp] at h
        simp only at h
        rcases const with _ | value | name
        · cases h
          exact ⟨rfl, (List.append_nil _).symm, fun hsome => by cases hsome⟩
        · cases h
          exact ⟨rfl, (List.append_nil _).symm, fun hsome => by cases hsome⟩
        · have hbytes := hwide (operands_symbol hp)
          cases h
          refine ⟨rfl, rfl, fun _ => Or.inl ⟨?_, fun k hk => ?_⟩⟩
          · change 8 ≤ i.bytes
            omega
          · exact put_operands_codes heap s s.vmaddr i.code i.bytes regs name
              (show 2 ≤ i.bytes - 4 + k by omega)

/-- What a line by itself leaves. -/
structure LeftBy (vmaddr : Word) (text : Text) (line : Line) (s : Asm) : Prop where
  symtab : s.symtab = (labelOf text).toList.map fun name => (⟨name, []⟩, vmaddr)
  reltab : s.reltab = (refOf text).toList.map fun name => (⟨name, []⟩, 0)
  awaits : (refOf text).isSome → line.y64bin.Awaits
  text : line.y64asm = text

theorem parse_line_alone {vmaddr : Word} {text : Text} {line : Line} {s : Asm}
    (h : parse_line bareNames (alone vmaddr) text = .ok (line, s)) : LeftBy vmaddr text line s := by
  have htext := (parse_line_grows bareNames h).2
  suffices hs : s.symtab = (labelOf text).toList.map (fun name => (⟨name, []⟩, vmaddr)) ∧
      s.reltab = (refOf text).toList.map (fun name => (⟨name, []⟩, 0)) ∧
      ((refOf text).isSome → line.y64bin.Awaits) by
    exact ⟨hs.1, hs.2.1, hs.2.2, htext⟩
  unfold parse_line at h
  unfold labelOf refOf bodyOf
  simp only at h ⊢
  generalize SKIP_BLANK text = q at h ⊢
  by_cases hend : IS_END q = true
  · simp only [hend, if_true] at h
    cases h
    simp only [hend, Bool.true_or, if_true]
    exact ⟨rfl, rfl, fun hsome => by cases hsome⟩
  by_cases hcomm : IS_COMMENT q = true
  · simp only [hend, hcomm, if_true, Bool.false_eq_true, if_false] at h
    cases h
    simp only [hcomm, Bool.or_true, if_true]
    exact ⟨rfl, rfl, fun hsome => by cases hsome⟩
  simp only [hend, hcomm, Bool.or_self, Bool.false_eq_true, if_false] at h ⊢
  cases hlab : parse_label q with
  | none =>
    simp only [hlab] at h ⊢
    obtain ⟨i, rest, hi, hsym, hrel, haw⟩ := parse_body_leaves h
    simp only [Option.bind_some, hi]
    refine ⟨?_, ?_, haw⟩
    · rw [hsym]
      split <;> rfl
    · rw [hrel]
      split <;> rfl
  | some r =>
    obtain ⟨name, p⟩ := r
    have hname := parse_label_symbol hlab
    have hsome : (parse_symbol q).isSome = true := by
      rw [← Option.isSome_map, hname]
      rfl
    have hfresh : ∀ n, find_symbol { alone vmaddr with allocs := n } ⟨name, []⟩ = none :=
      fun n => rfl
    simp only [hlab, hname, hsome, if_true, Option.getD_some, bareNames, add_symbol, hfresh,
      Option.isSome_none, Bool.false_eq_true, if_false] at h ⊢
    by_cases hb : (IS_END (SKIP_BLANK p) || IS_COMMENT (SKIP_BLANK p)) = true
    · simp only [hb, if_true] at h ⊢
      cases h
      exact ⟨rfl, rfl, fun hsome => by cases hsome⟩
    · simp only [hb, Bool.false_eq_true, if_false] at h ⊢
      obtain ⟨i, rest, hi, hsym, hrel, haw⟩ := parse_body_leaves h
      simp only [Option.bind_some, hi]
      exact ⟨hsym, hrel, haw⟩

/-! ## The tables of a program -/

/-- The labels of the lines, each with the location counter in front of its line. -/
def defs (ps : List (Word × Line)) : List (Text × Word) :=
  ps.filterMap fun p => (labelOf p.2.y64asm).map fun name => (name, p.1)

/-- The relocation entries of lines of which the first one has index `k`. -/
def relocs : Nat → List (Word × Line) → List (Name × Nat)
  | _, [] => []
  | k, p :: ps => ((refOf p.2.y64asm).toList.map fun name => (⟨name, []⟩, k)) ++ relocs (k + 1) ps

/-- A label as an entry of the symbol table. -/
def entryOf (d : Text × Word) : Name × Word := (⟨d.1, []⟩, d.2)

def DefinedOnce (ps : List (Word × Line)) : Prop := ((defs ps).map Prod.fst).Nodup

def AllDefined (ps : List (Word × Line)) : Prop :=
  ∀ p ∈ ps, ∀ name ∈ refOf p.2.y64asm, name ∈ (defs ps).map Prod.fst

theorem defs_cons (p : Word × Line) (ps : List (Word × Line)) :
    defs (p :: ps) = ((labelOf p.2.y64asm).toList.map fun name => (name, p.1)) ++ defs ps := by
  unfold defs
  rw [List.filterMap_cons]
  cases labelOf p.2.y64asm <;> rfl

theorem find_symbol_defs {st : Asm} {ds : List (Text × Word)} (h : st.symtab = ds.map entryOf)
    (name : Text) : find_symbol st ⟨name, []⟩ = (ds.find? (·.1 == name)).map Prod.snd := by
  have hsame : ((fun sym : Name × Word => sym.1.same ⟨name, []⟩) ∘ entryOf) = (·.1 == name) := by
    funext d
    simp [entryOf, Name.same]
  unfold find_symbol
  rw [h, List.find?_map, hsame, Option.map_map]
  rfl

theorem find_symbol_isSome {st : Asm} {ds : List (Text × Word)} (h : st.symtab = ds.map entryOf)
    (name : Text) : (find_symbol st ⟨name, []⟩).isSome ↔ name ∈ ds.map Prod.fst := by
  rw [find_symbol_defs h, Option.isSome_map, List.find?_isSome]
  simp

/-- With no label twice, the table has one address for each. -/
theorem find_symbol_some {st : Asm} {ds : List (Text × Word)} (h : st.symtab = ds.map entryOf)
    (hds : (ds.map Prod.fst).Nodup) {name : Text} {v : Word} :
    find_symbol st ⟨name, []⟩ = some v ↔ (name, v) ∈ ds := by
  rw [find_symbol_defs h]
  clear h
  induction ds with
  | nil => simp
  | cons d ds ih =>
    obtain ⟨hd, hds⟩ := List.nodup_cons.mp hds
    rw [List.find?_cons, List.mem_cons]
    by_cases he : d.1 = name
    · subst he
      have hnot : (d.1, v) ∉ ds := fun hm => hd (List.mem_map.mpr ⟨_, hm, rfl⟩)
      simp only [BEq.rfl, Option.map_some, Option.some.injEq, hnot, or_false]
      constructor
      · rintro rfl
        rfl
      · intro h
        rw [← h]
    · have hne : (name, v) ≠ d := by
        rintro rfl
        exact he rfl
      simp only [hne, false_or, ← ih hds, beq_false_of_ne he]

theorem layout_cons {vmaddr : Word} {text : Text} {texts : List Text} {ps : List (Word × Line)}
    (h : layout vmaddr (text :: texts) = .ok ps) : ∃ line s qs,
      parse_line bareNames (alone vmaddr) text = .ok (line, s) ∧ layout s.vmaddr texts = .ok qs ∧
      ps = (vmaddr, line) :: qs := by
  rw [layout] at h
  cases hp : parse_line bareNames (alone vmaddr) text with
  | error e =>
    rw [hp] at h
    cases h
  | ok r =>
    obtain ⟨line, s⟩ := r
    rw [hp] at h
    change (layout s.vmaddr texts).bind _ = _ at h
    cases hrest : layout s.vmaddr texts with
    | error e =>
      rw [hrest] at h
      cases h
    | ok qs =>
      rw [hrest] at h
      cases h
      exact ⟨line, s, qs, rfl, hrest, rfl⟩

/-- A line that is well formed by itself, behind others: it adds its label and its reference, or
the assembler stops at its label. -/
theorem assembleLine_step {st s : Asm} {text : Text} {line : Line} {ds : List (Text × Word)}
    (hp : parse_line bareNames (alone st.vmaddr) text = .ok (line, s))
    (hst : st.symtab = ds.map entryOf) :
    ((∃ name ∈ labelOf text, name ∈ ds.map Prod.fst) →
      assembleLine bareNames st text = .error .error) ∧
    ((¬∃ name ∈ labelOf text, name ∈ ds.map Prod.fst) → assembleLine bareNames st text =
      .ok { st.plus s with lines := st.lines ++ [line] }) := by
  have hiff : (∃ name ∈ labelOf text, (find_symbol st ⟨name, []⟩).isSome) ↔
      ∃ name ∈ labelOf text, name ∈ ds.map Prod.fst := by
    simp only [find_symbol_isSome hst]
  unfold assembleLine
  rw [parse_line_plus, hp]
  constructor
  · intro hdup
    rw [if_pos (hiff.mpr hdup)]
    rfl
  · intro hnew
    rw [if_neg (mt hiff.mp hnew)]
    rfl

/-- The tables after some lines of which each is well formed by itself: they are there if no
label comes twice, and otherwise the assembler has stopped. -/
theorem assemble_lines {texts : List Text} (st : Asm) {ps : List (Word × Line)}
    (ds : List (Text × Word)) (hl : layout st.vmaddr texts = .ok ps)
    (hst : st.symtab = ds.map entryOf) (hds : (ds.map Prod.fst).Nodup) :
    (((ds ++ defs ps).map Prod.fst).Nodup → ∃ st',
      texts.foldlM (assembleLine bareNames) st = .ok st' ∧
      st'.lines = st.lines ++ ps.map Prod.snd ∧ st'.symtab = (ds ++ defs ps).map entryOf ∧
      st'.reltab = st.reltab ++ relocs st.lines.length ps) ∧
    (¬((ds ++ defs ps).map Prod.fst).Nodup →
      texts.foldlM (assembleLine bareNames) st = .error .error) := by
  induction texts generalizing st ps ds with
  | nil =>
    cases hl
    have hnil : ds ++ defs [] = ds := List.append_nil ds
    rw [hnil]
    refine ⟨fun _ => ⟨st, rfl, ?_, hst, ?_⟩, fun hnot => absurd hds hnot⟩
    · exact (List.append_nil _).symm
    · exact (List.append_nil _).symm
  | cons text texts ih =>
    obtain ⟨line, s, qs, hp, hrest, rfl⟩ := layout_cons hl
    obtain ⟨hsym, hrel, -, htext⟩ := parse_line_alone hp
    obtain ⟨hstop, hgo⟩ := assembleLine_step hp hst
    rw [List.foldlM_cons, defs_cons, ← List.append_assoc, htext]
    by_cases hdup : ∃ name ∈ labelOf text, name ∈ ds.map Prod.fst
    · -- the label is in the table
      rw [hstop hdup]
      obtain ⟨name, hname, hmem⟩ := hdup
      refine ⟨fun hnd => ?_, fun _ => rfl⟩
      rw [hname, List.append_assoc, List.map_append, List.nodup_append] at hnd
      exact absurd rfl (hnd.2.2 name hmem name (by simp))
    · rw [hgo hdup]
      have hnew : st.symtab ++ s.symtab =
          (ds ++ (labelOf text).toList.map fun name => (name, st.vmaddr)).map entryOf := by
        rw [hst, hsym, List.map_append, List.map_map]
        rfl
      have hnd : ((ds ++ (labelOf text).toList.map fun name => (name, st.vmaddr)).map
          Prod.fst).Nodup := by
        cases hlab : labelOf text with
        | none => simpa using hds
        | some name =>
          rw [List.map_append, List.nodup_append]
          refine ⟨hds, by simp, ?_⟩
          rintro a ha b hb rfl
          have : a = name := by simpa using hb
          exact hdup ⟨name, hlab, this ▸ ha⟩
      obtain ⟨hok, herr⟩ := ih { st.plus s with lines := st.lines ++ [line] } _ hrest hnew hnd
      refine ⟨fun hall => ?_, herr⟩
      obtain ⟨st', hfold, hlines, hsymtab, hreltab⟩ := hok hall
      refine ⟨st', hfold, ?_, hsymtab, ?_⟩
      · rw [hlines]
        simp
      · rw [hreltab, relocs, htext]
        simp [Asm.plus, hrel]

/-! ## The relocation -/

theorem mem_relocs {k : Nat} {ps : List (Word × Line)} {r : Name × Nat} (h : r ∈ relocs k ps) :
    k ≤ r.2 ∧ ∃ p ∈ ps, ∃ name ∈ refOf p.2.y64asm, r.1 = ⟨name, []⟩ := by
  induction ps generalizing k with
  | nil => cases h
  | cons p ps ih =>
    rcases List.mem_append.mp h with h | h
    · obtain ⟨name, hname, rfl⟩ := List.mem_map.mp h
      exact ⟨Nat.le_refl k, p, List.mem_cons_self, name, Option.mem_toList.mp hname, rfl⟩
    · obtain ⟨hle, q, hq, hname⟩ := ih h
      exact ⟨Nat.le_of_succ_le hle, q, List.mem_cons_of_mem p hq, hname⟩

theorem relocs_of_mem {k : Nat} {ps : List (Word × Line)} {p : Word × Line} {name : Text}
    (hp : p ∈ ps) (hname : name ∈ refOf p.2.y64asm) : ∃ r ∈ relocs k ps, r.1 = ⟨name, []⟩ := by
  induction ps generalizing k with
  | nil => cases hp
  | cons q ps ih =>
    rcases List.mem_cons.mp hp with rfl | hp
    · refine ⟨(⟨name, []⟩, k), List.mem_append_left _ ?_, rfl⟩
      exact List.mem_map.mpr ⟨name, Option.mem_toList.mpr hname, rfl⟩
    · obtain ⟨r, hr, he⟩ := ih hp
      exact ⟨r, List.mem_append_right _ hr, he⟩

/-- A line has the entry that it made itself, and no other. -/
theorem relocs_filter {k i : Nat} {ps : List (Word × Line)} {p : Word × Line}
    (h : ps[i]? = some p) : (relocs k ps).filter (·.2 == k + i) =
      (refOf p.2.y64asm).toList.map fun name => (⟨name, []⟩, k + i) := by
  induction ps generalizing k i with
  | nil => cases h
  | cons q ps ih =>
    rw [relocs, List.filter_append]
    cases i with
    | zero =>
      cases h
      have hrest : (relocs (k + 1) ps).filter (·.2 == k + 0) = [] := by
        rw [List.filter_eq_nil_iff]
        intro r hr
        have := (mem_relocs hr).1
        simp only [beq_iff_eq]
        omega
      rw [hrest, List.append_nil]
      apply List.filter_eq_self.mpr
      intro r hr
      obtain ⟨name, -, rfl⟩ := List.mem_map.mp hr
      exact beq_self_eq_true k
    | succ i =>
      have hfirst : ((refOf q.2.y64asm).toList.map fun name =>
          ((⟨name, []⟩, k) : Name × Nat)).filter (·.2 == k + (i + 1)) = [] := by
        rw [List.filter_eq_nil_iff]
        intro r hr
        obtain ⟨name, -, rfl⟩ := List.mem_map.mp hr
        simp
      rw [hfirst, List.nil_append, show k + (i + 1) = k + 1 + i by omega]
      exact ih h

/-- `relocate` fails at a name that the symbol table does not have, and nowhere else. -/
theorem relocate_ok {rels : List (Name × Nat)} {st : Asm}
    (h : ∀ r ∈ rels, (find_symbol st r.1).isSome) :
    ∃ st', rels.foldlM relocateEntry st = .ok st' := by
  induction rels generalizing st with
  | nil => exact ⟨st, rfl⟩
  | cons rel rels ih =>
    obtain ⟨hrel, hrels⟩ := List.forall_mem_cons.mp h
    obtain ⟨a, ha⟩ := Option.isSome_iff_exists.mp hrel
    have hstep : relocateEntry st rel = .ok { st with
        lines := st.lines.modify rel.2 fun l => { l with y64bin := l.y64bin.patch a } } := by
      unfold relocateEntry
      rw [ha]
    rw [List.foldlM_cons, hstep]
    apply ih
    intro r hr
    exact hrels r hr

/-- The assembler, up to the addresses of the symbols. -/
def link (input : Text) : Except Fault Asm := do
  let st ← assemble bareNames input
  relocate st

/-- The lines of the source, in the order of the file. -/
def sourceLines (input : Text) : List Text := readLines input.length input

theorem assemble_of_layout {input : Text} {ps : List (Word × Line)}
    (h : layout 0 (sourceLines input) = .ok ps) :
    (DefinedOnce ps → ∃ st, assemble bareNames input = .ok st ∧ st.lines = ps.map Prod.snd ∧
      st.symtab = (defs ps).map entryOf ∧ st.reltab = relocs 0 ps) ∧
    (¬DefinedOnce ps → assemble bareNames input = .error .error) :=
  assemble_lines init [] h rfl List.nodup_nil

/-- It gets through if and only if each symbol that is used has one definition and no label
comes twice. -/
theorem links_iff {input : Text} {ps : List (Word × Line)}
    (h : layout 0 (sourceLines input) = .ok ps) :
    (∃ st', link input = .ok st') ↔ DefinedOnce ps ∧ AllDefined ps := by
  obtain ⟨hok, herr⟩ := assemble_of_layout h
  unfold link
  by_cases hd : DefinedOnce ps
  · obtain ⟨st, hst, -, hsym, hrel⟩ := hok hd
    rw [hst]
    change (∃ st', relocate st = .ok st') ↔ _
    unfold relocate
    rw [hrel]
    constructor
    · rintro ⟨st', hst'⟩
      refine ⟨hd, fun p hp name hname => ?_⟩
      obtain ⟨r, hr, he⟩ := relocs_of_mem (k := 0) hp hname
      obtain ⟨a, ha⟩ := (relocate_fold hst').1 r hr
      rw [he] at ha
      exact (find_symbol_isSome hsym name).mp (by rw [ha]; rfl)
    · rintro ⟨-, hall⟩
      apply relocate_ok
      intro r hr
      obtain ⟨-, p, hp, name, hname, he⟩ := mem_relocs hr
      rw [he]
      exact (find_symbol_isSome hsym name).mpr (hall p hp name hname)
  · rw [herr hd]
    constructor
    · rintro ⟨st', hst'⟩
      cases hst'
    · exact fun hboth => absurd hboth.1 hd

/-- What it leaves of a line that refers to a symbol. -/
theorem linked_line {input : Text} {ps : List (Word × Line)} {st' : Asm}
    (h : layout 0 (sourceLines input) = .ok ps) (hst' : link input = .ok st') {j : Nat}
    {p : Word × Line} (hp : ps[j]? = some p) {name : Text} (hname : name ∈ refOf p.2.y64asm) :
    ∃ v, (name, v) ∈ defs ps ∧
      st'.lines[j]? = some { p.2 with y64bin := p.2.y64bin.patch v } := by
  obtain ⟨hd, hall⟩ := (links_iff h).mp ⟨st', hst'⟩
  obtain ⟨st, hst, hlines, hsym, hrel⟩ := (assemble_of_layout h).1 hd
  unfold link at hst'
  rw [hst] at hst'
  change relocate st = .ok st' at hst'
  unfold relocate at hst'
  have hfilter := relocs_filter (k := 0) hp
  rw [Nat.zero_add, hname] at hfilter
  obtain ⟨v, hv⟩ := Option.isSome_iff_exists.mp ((find_symbol_isSome hsym name).mpr
    (hall p (List.mem_of_getElem? hp) name hname))
  refine ⟨v, (find_symbol_some hsym hd).mp hv, ?_⟩
  rw [(relocate_fold hst').2 j, hrel, hfilter, hlines, List.getElem?_map, hp]
  simp only [Option.map_some, Option.toList_some, List.map_cons, List.map_nil, patchAll_cons, hv,
    Option.getD_some]
  rfl

/-! ## The constant -/

/-- Four bytes in front of four zeros. -/
theorem load_half {c : Contents} {k v : Nat} (h0 : ∀ i < 4, c (k + 4 + i) = 0) :
    load (store c k 4 v) k 8 = v % 2 ^ 32 := by
  have hlt : v % 2 ^ 32 < 2 ^ 32 := Nat.mod_lt _ (by omega)
  apply load_eq_of_bytes (by omega)
  intro i hi
  unfold store
  by_cases h4 : i < 4
  · rw [if_pos (by omega), Nat.add_sub_cancel_left]
    exact (byteOf_mod v 4 i h4).symm
  · rw [if_neg (by omega), show k + i = k + 4 + (i - 4) by omega, h0 (i - 4) (by omega)]
    have hdiv : v % 2 ^ 32 / 256 ^ i = 0 := by
      apply Nat.div_eq_of_lt
      calc v % 2 ^ 32 < 256 ^ 4 := hlt
        _ ≤ 256 ^ i := Nat.pow_le_pow_right (by omega) (by omega)
    rw [byteOf, hdiv]
    rfl

/-- The constant once the symbol is filled in. `relocate` copies `sizeof(int)` bytes to the
place of an eight-byte constant, wherever that is: for a `.long` it is in front of the line. -/
theorem patch_constant {b : Bin} (h : b.Awaits) (v : Word) :
    (b.patch v).constant = if b.bytes < 8 then 0xC0 else v.toNat % 2 ^ 32 := by
  have hbytes : (b.patch v).bytes = b.bytes := by
    simp only [Bin.patch]
  rcases h with ⟨h8, h0⟩ | ⟨h4, hcode⟩
  · have hmin : min b.bytes 8 = 8 := by
      omega
    unfold Bin.constant
    have hcodes : load (b.patch v).codes (b.bytes - 8) 8 =
        load (store b.codes (b.bytes - 8) 4 v.toNat) (b.bytes - 8) 8 :=
      load_congr fun x _ _ => patch_codes h8 x
    rw [if_neg (by omega), hbytes, hmin, hcodes]
    apply load_half
    intro i hi
    rw [show b.bytes - 8 + 4 + i = b.bytes - 4 + i by omega]
    exact h0 i hi
  · unfold Bin.constant
    rw [if_pos (by omega), ← hcode, hbytes, h4]
    apply load_congr
    intro x _ hx
    simp only [Bin.patch, store, Bin.struct, h4]
    rw [if_neg (by omega), if_neg (by omega)]
    rfl

/-! ## The law -/

/-- Every reference has become the value that the location counter had at the definition. -/
def Linked (ps : List (Word × Line)) (st' : Asm) : Prop :=
  ∀ (j : Nat) (p : Word × Line), ps[j]? = some p → ∀ name ∈ refOf p.2.y64asm,
    ∃ line v, st'.lines[j]? = some line ∧ (name, v) ∈ defs ps ∧ line.y64bin.constant = v.toNat

/-- The assembler gets through exactly the programs that define each symbol once, and then every
reference is resolved. -/
def LinksRight (ps : List (Word × Line)) (input : Text) : Prop :=
  ((∃ st', link input = .ok st') ↔ DefinedOnce ps ∧ AllDefined ps) ∧
    ∀ st', link input = .ok st' → Linked ps st'

/-- The symbol's value survives the copy of four bytes: it has no high half, and in a `.long` it
is what the code of the directive spells. -/
def SymbolFits (b : Bin) (v : Word) : Prop := if b.bytes < 8 then v = 0xC0 else v.toNat < 2 ^ 32

/-- Each symbol that a line refers to fits there. -/
def SymbolsFit (ps : List (Word × Line)) : Prop :=
  ∀ p ∈ ps, ∀ name ∈ refOf p.2.y64asm, ∀ v, (name, v) ∈ defs ps → SymbolFits p.2.y64bin v

theorem unique_def {ps : List (Word × Line)} (h : DefinedOnce ps) {name : Text} {v w : Word}
    (hv : (name, v) ∈ defs ps) (hw : (name, w) ∈ defs ps) : v = w := by
  have hst : ({ init with symtab := (defs ps).map entryOf } : Asm).symtab =
      (defs ps).map entryOf := rfl
  have h1 := (find_symbol_some hst h).mpr hv
  have h2 := (find_symbol_some hst h).mpr hw
  rw [h1] at h2
  exact Option.some.inj h2

theorem fits_iff {b : Bin} (h : b.Awaits) (v : Word) :
    (b.patch v).constant = v.toNat ↔ SymbolFits b v := by
  have hv := v.isLt
  rw [patch_constant h]
  unfold SymbolFits
  split
  · constructor
    · intro he
      apply BitVec.eq_of_toNat_eq
      exact he.symm
    · rintro rfl
      rfl
  · constructor <;> intro he <;> omega

theorem layout_awaits {vmaddr : Word} {texts : List Text} {ps : List (Word × Line)}
    (h : layout vmaddr texts = .ok ps) :
    ∀ p ∈ ps, (refOf p.2.y64asm).isSome → p.2.y64bin.Awaits := by
  induction texts generalizing vmaddr ps with
  | nil =>
    cases h
    simp
  | cons text texts ih =>
    obtain ⟨line, s, qs, hp, hrest, rfl⟩ := layout_cons h
    obtain ⟨-, -, haw, htext⟩ := parse_line_alone hp
    intro p hmem
    rcases List.mem_cons.mp hmem with rfl | hmem
    · rw [htext]
      exact haw
    · exact ih hrest p hmem

/-- For a source whose lines are well formed by themselves: the assembler accepts it if and only
if each symbol is defined once, and it fills in the right values if and only if they fit. -/
theorem the_symbols_are_resolved_iff {input : Text} {ps : List (Word × Line)}
    (h : layout 0 (sourceLines input) = .ok ps) :
    LinksRight ps input ↔ (DefinedOnce ps → AllDefined ps → SymbolsFit ps) := by
  have hline : ∀ st', link input = .ok st' → ∀ (j : Nat) (p : Word × Line), ps[j]? = some p →
      ∀ name ∈ refOf p.2.y64asm, ∀ v, (name, v) ∈ defs ps → ∃ line, st'.lines[j]? = some line ∧
        (line.y64bin.constant = v.toNat ↔ SymbolFits p.2.y64bin v) := by
    intro st' hst' j p hp name hname v hv
    obtain ⟨w, hw, hlines⟩ := linked_line h hst' hp hname
    have hd := ((links_iff h).mp ⟨st', hst'⟩).1
    obtain rfl := unique_def hd hv hw
    have haw := layout_awaits h p (List.mem_of_getElem? hp) (by rw [hname]; rfl)
    exact ⟨_, hlines, fits_iff haw v⟩
  constructor
  · rintro ⟨hiff, hlink⟩ hd hall p hp name hname v hv
    obtain ⟨st', hst'⟩ := hiff.mpr ⟨hd, hall⟩
    obtain ⟨j, hj⟩ := List.mem_iff_getElem?.mp hp
    obtain ⟨line, hl, hfit⟩ := hline st' hst' j p hj name hname v hv
    obtain ⟨line', w, hl', hw, hconst⟩ := hlink st' hst' j p hj name hname
    obtain rfl := unique_def hd hv hw
    rw [hl] at hl'
    cases hl'
    exact hfit.mp hconst
  · intro hfit
    refine ⟨links_iff h, fun st' hst' j p hj name hname => ?_⟩
    obtain ⟨hd, hall⟩ := (links_iff h).mp ⟨st', hst'⟩
    have hp := List.mem_of_getElem? hj
    obtain ⟨⟨n, v⟩, hv, hn⟩ := List.mem_map.mp (hall p hp name hname)
    obtain rfl : n = name := hn
    obtain ⟨line, hl, hiff⟩ := hline st' hst' j p hj n hname v hv
    exact ⟨line, v, hl, hv, hiff.mpr (hfit hd hall p hp n hname v hv)⟩

theorem a_forward_call_is_resolved : LinksRight callLines callText := by
  apply (the_symbols_are_resolved_iff rfl).mpr
  intro _ _ p hp name hname v hv
  have hbytes : ∀ p ∈ callLines, (refOf p.2.y64asm).isSome → p.2.y64bin.bytes = 9 := by decide
  have hv11 : (name, v) = (['f'], 11) := List.mem_singleton.mp hv
  cases hv11
  unfold SymbolFits
  rw [hbytes p hp (Option.isSome_of_mem hname)]
  decide

/-- A symbol in four bytes. -/
def longText : Text := "nop\nx: .long x".toList

/-- The `.long` still has the code of its directive. -/
def longBin (addr : Word) : Bin := ⟨addr, Function.update (fun _ => 0) 0 (hpack 12 0), 4⟩

def longLines : List (Word × Line) :=
  [(0, ⟨TYPE_INS, ⟨0, Function.update (fun _ => 0) 0 (hpack 1 0), 1⟩, "nop".toList⟩),
    (1, ⟨TYPE_INS, longBin 1, "x: .long x".toList⟩)]

theorem a_long_symbol_is_not_filled_in :
    layout 0 (sourceLines longText) = .ok longLines ∧
      (∃ st' line, link longText = .ok st' ∧ st'.lines[1]? = some line ∧
        line.y64bin.constant = 0xC0 ∧ line.y64bin.addr = 1 + 2 ^ 32) ∧
      ¬LinksRight longLines longText := by
  have hlayout : layout 0 (sourceLines longText) = .ok longLines := rfl
  have hx : (['x'], 1) ∈ defs longLines := List.mem_singleton_self _
  have hd : DefinedOnce longLines := by
    unfold DefinedOnce
    decide
  have hall : AllDefined longLines := by
    intro p hp name hname
    rcases List.mem_cons.mp hp with rfl | hp
    · cases hname
    · obtain rfl := List.mem_singleton.mp hp
      cases hname
      exact List.mem_singleton_self _
  obtain ⟨st', hst'⟩ := (links_iff hlayout).mpr ⟨hd, hall⟩
  have href : ['x'] ∈ refOf (⟨TYPE_INS, longBin 1, "x: .long x".toList⟩ : Line).y64asm := rfl
  obtain ⟨v, hv, hline⟩ := linked_line hlayout hst' (j := 1) rfl href
  obtain rfl := unique_def hd hv hx
  refine ⟨hlayout, ⟨st', _, hst', hline, rfl, rfl⟩, ?_⟩
  rintro ⟨-, hlink⟩
  obtain ⟨line, v, hl, hv, hconst⟩ := hlink st' hst' 1 _ rfl ['x'] href
  obtain rfl := unique_def hd hv hx
  rw [hline] at hl
  cases hl
  exact absurd hconst (by decide)

end ics_labs.asm
