-- One entry of the relocation table: what parse_line leaves for it in its line, and what
-- relocate makes of that line.
import IcsLabs.AsmLines

open ics_labs.byte_words ics_labs.memory ics_labs.ctext

namespace ics_labs.asm

open IType LineType

variable {heap : Nat → Text} {st st' : Asm} {text : Text} {line : Line}

/-! ## The entry of a line -/

/-- A line that makes an entry waits for its symbol, and the entry points to it. -/
theorem entry_awaits {e : Name × Nat} (h : parse_line heap st text = .ok (line, st'))
    (he : st'.reltab = st.reltab ++ [e]) : line.y64bin.Awaits ∧ e.2 = st.lines.length := by
  cases hp : bodyOf text with
  | none =>
    have hnew := parse_line_new (LabelIsNew.of_ok h)
    rw [hp] at hnew
    obtain ⟨line', hline⟩ := hnew
    rw [h] at hline
    cases hline
    -- a line without an instruction makes no entry
    exact absurd (congrArg List.length he) (by simp [behindLabel])
  | some p =>
    obtain ⟨i, rest, -, -, hrel, haw⟩ := parse_body_leaves (parse_line_body h hp)
    rw [he] at hrel
    have hnew := List.append_cancel_left hrel
    cases hsym : symbolIn i rest with
    | none =>
      rw [hsym] at hnew
      cases hnew
    | some name =>
      rw [hsym] at hnew
      cases hnew
      exact ⟨haw (by rw [hsym]; rfl), rfl⟩

/-! ## The patch -/

/-- The address of a line is safe where the codes are at least eight bytes long. -/
theorem patch_addr {b : Bin} (h : 8 ≤ b.bytes) (a : Word) : (b.patch a).addr = b.addr := by
  have hload : load (store b.struct b.bytes 4 a.toNat) 0 8 = b.addr.toNat := by
    apply load_eq_of_bytes b.addr.isLt
    intro i hi
    unfold store Bin.struct
    rw [if_neg (by omega), if_pos (by omega), Nat.zero_add]
  simp only [Bin.patch, hload, BitVec.ofNat_toNat, BitVec.setWidth_eq]

/-- For a `.long` the four bytes go to the high half of the address, and the codes stay. -/
theorem patch_long {b : Bin} (h : b.bytes = 4) (a : Word) :
    (b.patch a).addr.toNat = b.addr.toNat % 2 ^ 32 + 2 ^ 32 * (a.toNat % 2 ^ 32) ∧
      (b.patch a).codes = b.codes := by
  constructor
  · have hlow : load (store b.struct 4 4 a.toNat) 0 4 = b.addr.toNat % 2 ^ 32 := by
      apply load_eq_of_bytes (Nat.mod_lt _ (by decide))
      intro i hi
      unfold store Bin.struct
      rw [if_neg (by omega), if_pos (by omega), Nat.zero_add]
      exact (byteOf_mod b.addr.toNat 4 i hi).symm
    have hload : load (store b.struct 4 4 a.toNat) 0 8 =
        b.addr.toNat % 2 ^ 32 + 2 ^ 32 * (a.toNat % 2 ^ 32) := by
      rw [load_append _ 0 4 4, hlow, Nat.zero_add, load_store_same,
        show (256 : Nat) ^ 4 = 2 ^ 32 by norm_num]
    simp only [Bin.patch, h, hload, BitVec.toNat_ofNat]
    omega
  · funext x
    simp only [Bin.patch, store, Bin.struct, h]
    rw [if_neg (by omega), if_neg (by omega)]
    rfl

/-! ## The law -/

/-- The operand field of a line: the last eight bytes, or all four of a `.long`. -/
def InOperand (b : Bin) (x : Nat) : Prop := b.bytes - 8 ≤ x ∧ x < b.bytes

/-- The line `b'` is the line `b` with the address `a` in its operand field. -/
structure FilledIn (a : Word) (b b' : Bin) : Prop where
  operand : b'.constant = a.toNat
  codes : ∀ x, ¬ InOperand b x → b'.codes x = b.codes x
  addr : b'.addr = b.addr
  bytes : b'.bytes = b.bytes

/-- The entry fills its own line in, and leaves the other lines and the tables alone. -/
def FillsIn (a : Word) (t : Asm) (e : Name × Nat) : Prop :=
  ∃ t', relocateEntry t e = .ok t' ∧ t'.symtab = t.symtab ∧ t'.reltab = t.reltab ∧
    (∀ j, j ≠ e.2 → t'.lines[j]? = t.lines[j]?) ∧
    ∃ l l', t.lines[e.2]? = some l ∧ t'.lines[e.2]? = some l' ∧ l'.type = l.type ∧
      l'.y64asm = l.y64asm ∧ FilledIn a l.y64bin l'.y64bin

/-- The address that is in the wrong place by luck: the codes of the directive spell it, and
it is the high half of the line's own address. -/
def ByLuck (a : Word) (b : Bin) : Prop := a = 0xC0 ∧ b.addr.toNat / 2 ^ 32 = 0xC0

theorem filled_in_iff {b : Bin} (h : b.Awaits) {a : Word} (ha : a.toNat < 2 ^ 31) :
    FilledIn a b (b.patch a) ↔ b.bytes ≠ 4 ∨ ByLuck a b := by
  have hconst := patch_constant h a
  rcases h with ⟨h8, -⟩ | ⟨h4, -⟩
  · rw [if_neg (by omega), Nat.mod_eq_of_lt (by omega)] at hconst
    refine iff_of_true ⟨hconst, fun x hx => ?_, patch_addr h8 a, patch_bytes b a⟩
      (Or.inl (by omega))
    rw [patch_codes h8]
    unfold InOperand at hx
    unfold store
    rw [if_neg (by omega)]
  · rw [if_pos (by omega)] at hconst
    obtain ⟨haddr, hcodes⟩ := patch_long h4 a
    unfold ByLuck
    constructor
    · intro hf
      right
      have h1 := hf.operand
      have h2 := congrArg BitVec.toNat hf.addr
      refine ⟨BitVec.eq_of_toNat_eq (by rw [← h1, hconst]; rfl), ?_⟩
      omega
    · rintro (hne | ⟨rfl, hhigh⟩)
      · exact absurd h4 hne
      · refine ⟨hconst, fun x _ => by rw [hcodes], ?_, patch_bytes b _⟩
        apply BitVec.eq_of_toNat_eq
        have h0 : (0xC0 : Word).toNat = 0xC0 := rfl
        rw [haddr, h0]
        omega

/-- What relocate does with an entry whose symbol is in the table is the patch of its line. -/
theorem fills_in_iff {t : Asm} {e : Name × Nat} {a : Word} (hline : t.lines[e.2]? = some line)
    (ha : find_symbol t e.1 = some a) :
    FillsIn a t e ↔ FilledIn a line.y64bin (line.y64bin.patch a) := by
  have hstep : relocateEntry t e = .ok { t with
      lines := t.lines.modify e.2 fun l => { l with y64bin := l.y64bin.patch a } } := by
    unfold relocateEntry
    rw [ha]
  have hself : (t.lines.modify e.2 fun l => { l with y64bin := l.y64bin.patch a })[e.2]? =
      some { line with y64bin := line.y64bin.patch a } := by
    rw [List.getElem?_modify_eq, hline]
    rfl
  constructor
  · rintro ⟨t', ht', -, -, -, l, l', hl, hl', -, -, hf⟩
    rw [hstep] at ht'
    cases ht'
    rw [hline] at hl
    cases hl
    rw [hself] at hl'
    cases hl'
    exact hf
  · intro hf
    refine ⟨_, hstep, rfl, rfl, fun j hj => ?_, line, _, hline, hself, rfl, rfl, hf⟩
    simp only [List.getElem?_modify, if_neg (Ne.symm hj)]
    cases t.lines[j]? <;> rfl

/-- An entry that parse_line made is filled in right, except in a `.long`, and there only when
the wrong bytes are right by luck. -/
theorem the_symbol_is_filled_in_iff {t : Asm} {e : Name × Nat} {a : Word}
    (h : parse_line heap st text = .ok (line, st')) (he : st'.reltab = st.reltab ++ [e])
    (hline : t.lines[e.2]? = some line) (ha : find_symbol t e.1 = some a)
    (hsmall : a.toNat < 2 ^ 31) :
    FillsIn a t e ↔ line.y64bin.bytes ≠ 4 ∨ ByLuck a line.y64bin := by
  rw [fills_in_iff hline ha]
  exact filled_in_iff (entry_awaits h he).1 hsmall

/-- A table with one line that refers to `x`, and a place for `x`. -/
def oneLine (line : Line) (a : Word) : Asm :=
  { init with lines := [line], symtab := [(⟨['x'], []⟩, a)] }

/-- A jump as it is before its symbol is filled in. -/
def jumpBin : Bin := ⟨0, Function.update (fun _ => 0) 0 (hpack 7 0), 9⟩

/-- A jump forward. -/
theorem a_jump_is_filled_in :
    FillsIn 0x100 (oneLine ⟨TYPE_INS, jumpBin, "jmp x".toList⟩ 0x100) (⟨['x'], []⟩, 0) := by
  have hparse : parse_line bareNames init "jmp x".toList =
      .ok (⟨TYPE_INS, jumpBin, "jmp x".toList⟩,
        { init with vmaddr := 9, reltab := [(⟨['x'], []⟩, 0)], allocs := 2 }) := rfl
  exact (the_symbol_is_filled_in_iff hparse rfl rfl rfl (by decide)).mpr (Or.inl (by decide))

/-- `.long x` with `x` at 0x100: the address goes to the line's own address. -/
theorem a_long_is_not_filled_in : ¬ ∀ (heap : Nat → Text) (st st' : Asm) (text : Text)
    (line : Line) (t : Asm) (e : Name × Nat) (a : Word),
    parse_line heap st text = .ok (line, st') → st'.reltab = st.reltab ++ [e] →
      t.lines[e.2]? = some line → find_symbol t e.1 = some a → a.toNat < 2 ^ 31 →
      FillsIn a t e := by
  intro hall
  let line : Line := ⟨TYPE_INS, longBin 0, ".long x".toList⟩
  have hline : (oneLine line 0x100).lines[0]? = some line := rfl
  have h := hall bareNames init { init with vmaddr := 4, reltab := [(⟨['x'], []⟩, 0)], allocs := 1 }
    ".long x".toList line (oneLine line 0x100) (⟨['x'], []⟩, 0) 0x100 rfl rfl hline rfl (by decide)
  have hf := (fills_in_iff hline rfl).mp h
  exact absurd hf.operand (by decide)

end ics_labs.asm
