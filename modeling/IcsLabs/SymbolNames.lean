-- The names of symbols as they lie in memory: parse_symbol leaves no room for the 0 behind a
-- name, so strcmp goes on into the bytes that follow. When the answer is still that of the text.
import IcsLabs.Symbols

open ics_labs.byte_words ics_labs.memory ics_labs.ctext

namespace ics_labs.asm

/-! ## Two names -/

/-- The shorter name reads as the longer one: behind it stand the rest of the longer one and
the bytes that follow that. -/
def RunsInto (a b : Name) : Prop :=
  ∃ d, d ≠ [] ∧ b.chars = a.chars ++ d ∧ a.after = d ++ b.after

/-- What follows two names does not change whether they are the same. -/
structure Apart (a b : Name) : Prop where
  same : a.chars = b.chars → a.after = b.after
  forth : ¬ RunsInto a b
  back : ¬ RunsInto b a

theorem same_iff (a b : Name) : a.same b = true ↔
    a.chars = b.chars ∧ a.after = b.after ∨ RunsInto a b ∨ RunsInto b a := by
  unfold Name.same
  rw [beq_iff_eq, List.append_eq_append_iff]
  constructor
  · rintro (⟨d, hb, ha⟩ | ⟨d, ha, hb⟩)
    · by_cases hd : d = []
      · subst hd
        exact Or.inl ⟨by rw [hb, List.append_nil], ha⟩
      · exact Or.inr (Or.inl ⟨d, hd, hb, ha⟩)
    · by_cases hd : d = []
      · subst hd
        exact Or.inl ⟨by rw [ha, List.append_nil], hb.symm⟩
      · exact Or.inr (Or.inr ⟨d, hd, ha, hb⟩)
  · rintro (⟨hc, ha⟩ | ⟨d, -, hb, ha⟩ | ⟨d, -, ha, hb⟩)
    · exact Or.inl ⟨[], by rw [hc, List.append_nil], ha⟩
    · exact Or.inl ⟨d, hb, ha⟩
    · exact Or.inr ⟨d, ha, hb⟩

theorem RunsInto.ne {a b : Name} (h : RunsInto a b) : a.chars ≠ b.chars := by
  obtain ⟨d, hd, hb, -⟩ := h
  intro he
  rw [← he] at hb
  exact hd (List.append_right_eq_self.mp hb.symm)

/-- strcmp gives the answer of the text exactly for names that are apart. -/
theorem apart_iff (a b : Name) : (a.same b = true ↔ a.chars = b.chars) ↔ Apart a b := by
  rw [same_iff]
  constructor
  · intro h
    refine ⟨fun hc => ?_, fun hr => hr.ne (h.mp (Or.inr (Or.inl hr))), fun hr =>
      hr.ne (h.mp (Or.inr (Or.inr hr))).symm⟩
    rcases h.mpr hc with ⟨-, ha⟩ | hr | hr
    · exact ha
    · exact absurd hc hr.ne
    · exact absurd hc.symm hr.ne
  · rintro ⟨hsame, hforth, hback⟩
    constructor
    · rintro (⟨hc, -⟩ | hr | hr)
      · exact hc
      · exact absurd hr hforth
      · exact absurd hr hback
    · exact fun hc => Or.inl ⟨hc, hsame hc⟩

/-! ## The table -/

/-- The table as the source text gives it. -/
def lookup (st : Asm) (chars : Text) : Option Word :=
  (st.symtab.find? fun sym => sym.1.chars == chars).map Prod.snd

/-- What the table answers for a name is what the text says: the symbol that is found, and
whether a label is a second one. -/
structure TextDecides (st : Asm) (name : Name) : Prop where
  found : find_symbol st name = lookup st name.chars
  dup : add_symbol st name = none ↔ ∃ sym ∈ st.symtab, sym.1.chars = name.chars

theorem lookup_isSome (st : Asm) (chars : Text) :
    (lookup st chars).isSome = true ↔ ∃ sym ∈ st.symtab, sym.1.chars = chars := by
  unfold lookup
  rw [Option.isSome_map, List.find?_isSome]
  simp

theorem find_symbol_apart {st : Asm} {name : Name} (h : ∀ sym ∈ st.symtab, Apart sym.1 name) :
    find_symbol st name = lookup st name.chars := by
  unfold find_symbol lookup
  congr 1
  apply List.find?_congr
  intro sym hsym
  rw [Bool.eq_iff_iff, (apart_iff sym.1 name).mpr (h sym hsym), beq_iff_eq]

theorem text_decides_of_found {st : Asm} {name : Name}
    (h : find_symbol st name = lookup st name.chars) : TextDecides st name := by
  refine ⟨h, ?_⟩
  rw [← lookup_isSome, ← h]
  unfold add_symbol
  split <;> simp_all

/-! ## The law -/

/-- The tables over some names answer as the text says exactly when the names are apart, one from
another. -/
theorem the_text_decides_iff (names : List Name) :
    (∀ st : Asm, (∀ sym ∈ st.symtab, sym.1 ∈ names) → ∀ name ∈ names, TextDecides st name) ↔
      ∀ a ∈ names, ∀ b ∈ names, Apart a b := by
  constructor
  · intro h a ha b hb
    -- a table with one name in it
    have hone := (h { init with symtab := [(a, 0)] } (by simpa using ha) b hb).found
    rw [← apart_iff, ← beq_iff_eq (a := a.chars), ← Bool.eq_iff_iff]
    have hsome := congrArg Option.isSome hone
    simp only [find_symbol, lookup, List.find?_cons, List.find?_nil] at hsome
    cases hs : a.same b <;> cases hc : a.chars == b.chars <;> simp_all
  · intro h st hst name hname
    exact text_decides_of_found (find_symbol_apart fun sym hsym => h _ (hst sym hsym) _ hname)

/-- A label and a jump to it. -/
def loopText : Text := "x: jmp x".toList

/-- A heap in which an old byte stands behind the second name. -/
def usedHeap : Nat → Text
  | 0 => []
  | _ => ['y']

/-- On that heap the label is not found. -/
theorem an_old_byte_hides_a_label :
    (∃ st, assemble usedHeap loopText = .ok st ∧ relocate st = .error .error) ∧
      (∃ st', link loopText = .ok st') ∧
      ¬ ∀ (names : List Name) (st : Asm), (∀ sym ∈ st.symtab, sym.1 ∈ names) →
        ∀ name ∈ names, TextDecides st name := by
  refine ⟨⟨_, rfl, rfl⟩, ⟨_, rfl⟩, fun hall => ?_⟩
  have h := hall [⟨['x'], []⟩, ⟨['x'], ['y']⟩] { init with symtab := [(⟨['x'], []⟩, 0)] }
    (by simp) ⟨['x'], ['y']⟩ (by simp)
  exact absurd h.found (by decide)

end ics_labs.asm
