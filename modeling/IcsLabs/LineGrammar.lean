-- The grammar of a line against what parse_line reads of it. The two differ where the parser does
-- not look: behind a mnemonic, behind a number, in front of one, and behind the last operand.
import IcsLabs.LineTokens

open ics_labs.byte_words ics_labs.memory ics_labs.ctext

namespace ics_labs.asm

open IType LineType

/-! ## What is read is a token -/

theorem skip_split (p : Text) : ∃ b, p = b ++ SKIP_BLANK p ∧ Blanks b :=
  ⟨p.takeWhile isBlank, List.takeWhile_append_dropWhile.symm, fun _ hc => List.mem_takeWhile_imp hc⟩

theorem register_lengths : ∀ r ∈ reg_table, r.namelen = r.name.length := by
  decide

theorem parse_reg_sound {p r : Text} {id : Nibble} (h : parse_reg p = some (id, r)) :
    ∃ b tok, p = b ++ (tok ++ r) ∧ Blanks b ∧ RegName tok id := by
  obtain ⟨b, hb, hblank⟩ := skip_split p
  unfold parse_reg at h
  simp only at h
  obtain ⟨reg, hreg, he⟩ := Option.map_eq_some_iff.mp h
  cases he
  have hmem := List.mem_of_find?_eq_some hreg
  have hsame := List.find?_some hreg
  simp only [sameFront, beq_iff_eq, register_lengths reg hmem, List.take_length] at hsame
  refine ⟨b, reg.name, ?_, hblank, reg, hmem, rfl, rfl⟩
  rw [register_lengths reg hmem, ← hsame, List.length_take_of_le, List.take_append_drop]
  · exact hb
  · have := congrArg List.length hsame
    rw [List.length_take] at this
    omega

theorem parse_delim_sound {p r : Text} {d : Char} (h : parse_delim p d = some r) :
    ∃ b, p = b ++ ([d] ++ r) ∧ Blanks b := by
  obtain ⟨b, hb, hblank⟩ := skip_split p
  unfold parse_delim at h
  split at h
  · rename_i c q hq
    split at h
    · cases h
      rename_i hc
      subst hc
      exact ⟨b, by rw [hb, hq]; rfl, hblank⟩
    · cases h
  · cases h

theorem parse_symbol_sound {p r name : Text} (h : parse_symbol p = some (name, r)) :
    ∃ b, p = b ++ (name ++ r) ∧ Blanks b ∧ SymbolName name := by
  obtain ⟨b, hb, hblank⟩ := skip_split p
  unfold parse_symbol at h
  simp only at h
  split at h
  · cases h
  · rename_i hl
    cases h
    refine ⟨b, ?_, hblank, ?_, fun c hc => List.mem_takeWhile_imp hc⟩
    · rw [List.takeWhile_append_dropWhile]
      exact hb
    · generalize SKIP_BLANK p = q at hl ⊢
      cases q with
      | nil => exact absurd rfl hl
      | cons c q =>
        have hc : IS_LETTER [c] = true := by
          rw [Bool.not_eq_true, Bool.not_eq_false'] at hl
          exact hl
        rw [List.takeWhile_cons_of_pos (by simp [isSymbolChar, hc])]
        exact hc

theorem takeSign_split (cs : Text) :
    ∃ sign neg t, takeSign cs = (neg, t) ∧ cs = sign ++ t ∧ Sign sign neg := by
  unfold takeSign
  split
  · exact ⟨[], false, [], rfl, rfl, Or.inr (Or.inr ⟨rfl, rfl⟩)⟩
  · rename_i c cs
    split_ifs with h1 h2
    · exact ⟨['-'], true, cs, rfl, by rw [h1]; rfl, Or.inl ⟨rfl, rfl⟩⟩
    · exact ⟨['+'], false, cs, rfl, by rw [h2]; rfl, Or.inr (Or.inl ⟨rfl, rfl⟩)⟩
    · exact ⟨[], false, c :: cs, rfl, rfl, Or.inr (Or.inr ⟨rfl, rfl⟩)⟩

/-- The digits behind the sign, with their mark. -/
theorem takeBase_split (t : Text) : ∃ base mark t', takeBase t = (base, t') ∧ t = mark ++ t' ∧
    ∀ ds, ds ≠ [] → ds <+: t' → (∀ c ∈ ds, isDigitIn base c = true) →
      ∃ n, Magnitude (mark ++ ds) n := by
  unfold takeBase
  split_ifs with hx h0
  · obtain ⟨x, d, u, rfl, hmark⟩ : ∃ x d u, t = '0' :: x :: d :: u ∧ (x = 'x' ∨ x = 'X') := by
      rcases t with _ | ⟨z, _ | ⟨x, _ | ⟨d, u⟩⟩⟩ <;> simp [hasHexMark] at hx
      exact ⟨x, d, u, by rw [hx.1.1], hx.1.2⟩
    exact ⟨16, ['0', x], d :: u, rfl, rfl, fun ds hne _ hd => ⟨_, .hex x hmark ds hne hd⟩⟩
  · refine ⟨8, [], t, rfl, rfl, fun ds hne hpre hd => ?_⟩
    obtain ⟨c, ds, rfl⟩ := List.exists_cons_of_ne_nil hne
    obtain ⟨u, rfl⟩ := hpre
    obtain rfl : c = '0' := by simpa using h0
    exact ⟨_, .oct ds fun x hx => hd x (List.mem_cons_of_mem _ hx)⟩
  · refine ⟨10, [], t, rfl, rfl, fun ds hne hpre hd => ⟨_, .dec ds hne ?_ hd⟩⟩
    obtain ⟨c, ds, rfl⟩ := List.exists_cons_of_ne_nil hne
    obtain ⟨u, rfl⟩ := hpre
    simpa using h0

/-- A number is read off the front of the text, or nothing is. -/
theorem strtoull_sound {cs : Text} (h : StopsAt isspace cs) :
    (strtoull cs).2 = cs ∨ ∃ lit, cs = lit ++ (strtoull cs).2 ∧ Numeral lit := by
  have hdrop : cs.dropWhile isspace = cs := by
    have := dropWhile_stop (a := []) (fun _ hc => absurd hc List.not_mem_nil) h
    simpa using this
  obtain ⟨sign, neg, t, hsign, hcs, hs⟩ := takeSign_split cs
  obtain ⟨base, mark, t', hbase, ht, hmag⟩ := takeBase_split t
  unfold strtoull
  simp only [hdrop, hsign, hbase]
  split_ifs with hne
  · exact Or.inl rfl
  · right
    obtain ⟨n, hn⟩ := hmag _ hne (List.takeWhile_prefix _) fun c hc => List.mem_takeWhile_imp hc
    refine ⟨sign ++ (mark ++ t'.takeWhile (isDigitIn base)), ?_, sign, neg, _, n, rfl, hs, hn⟩
    simp only [List.append_assoc, List.takeWhile_append_dropWhile]
    rw [← ht, ← hcs]

theorem digit_head {q : Text} (h : IS_DIGIT q = true) :
    StopsAt isspace q ∧ SKIP_BLANK q = q ∧ ¬ StopsAt isWordChar q := by
  cases q with
  | nil => cases h
  | cons c q =>
    have hne : ∀ d : Char, IS_DIGIT [d] = false → c ≠ d := by
      rintro d hd rfl
      exact absurd (show IS_DIGIT [c] = true from h) (by rw [hd]; decide)
    refine ⟨stopsAt_cons ?_, skip_of_stop (stopsAt_cons ?_), fun hs => ?_⟩
    · simp [isspace, hne ' ' (by decide), hne '\t' (by decide), hne '\n' (by decide),
        hne '\x0b' (by decide), hne '\x0c' (by decide), hne '\r' (by decide)]
    · simp [isBlank, hne ' ' (by decide), hne '\t' (by decide)]
    · have hc : isSymbolChar c = true := by
        simp [isSymbolChar, show IS_DIGIT [c] = true from h]
      have := hs c rfl
      simp [isWordChar, hc] at this

/-- Text that must be a number and is read as one that ends is a number. -/
theorem number_sound {q : Text} (h : IS_DIGIT q = true)
    (hend : StopsAt isWordChar (strtoull q).2) :
    ∃ lit, q = lit ++ (strtoull q).2 ∧ Numeral lit := by
  obtain ⟨hspace, -, hword⟩ := digit_head h
  rcases strtoull_sound hspace with hnone | hlit
  · rw [hnone] at hend
    exact absurd hend hword
  · exact hlit

theorem Blanks.append {b b' : Text} (hb : Blanks b) (hb' : Blanks b') : Blanks (b ++ b') :=
  fun c hc => (List.mem_append.mp hc).elim (hb c) (hb' c)

/-- A number that is plain is all of the token; otherwise the token is a symbol. -/
theorem parse_data_sound {wide : Bool} {p r : Text} {tok : Token} (hplain : (Item.data wide).Plain p)
    (h : parse_data p = some (tok, r)) :
    (IS_DIGIT (SKIP_BLANK p) = true ∧ r = (strtoull (SKIP_BLANK p)).2 ∧ ∃ v, tok = .digit v) ∨
      ∃ name, tok = .symbol name ∧ parse_symbol (SKIP_BLANK p) = some (name, r) := by
  unfold parse_data at h
  simp only [parse_digit, skip_skip] at h
  split at h
  · rename_i hd
    rw [if_neg (by rw [hplain hd]; decide)] at h
    cases h
    exact Or.inl ⟨hd, rfl, _, rfl⟩
  · split at h
    · obtain ⟨⟨name, q⟩, hp, he⟩ := Option.map_eq_some_iff.mp h
      cases he
      exact Or.inr ⟨name, rfl, hp⟩
    · cases h

theorem parse_imm_sound {p r : Text} {tok : Token} (hplain : Item.imm.Plain p)
    (h : parse_imm p = some (tok, r)) :
    (∃ q, SKIP_BLANK p = '$' :: q ∧ IS_DIGIT q = true ∧ r = (strtoull q).2) ∨
      ∃ name, parse_symbol (SKIP_BLANK p) = some (name, r) := by
  unfold parse_imm at h
  simp only at h
  split at h
  · rename_i himm
    obtain ⟨q, hq⟩ : ∃ q, SKIP_BLANK p = '$' :: q := by
      rw [IS_IMM, beq_iff_eq] at himm
      cases hs : SKIP_BLANK p with
      | nil =>
        rw [hs] at himm
        cases himm
      | cons c q =>
        rw [hs] at himm
        cases himm
        exact ⟨q, rfl⟩
    rw [hq, List.drop_one, List.tail_cons] at h
    split at h
    · cases h
    · rename_i hd
      have hd : IS_DIGIT q = true := by simpa using hd
      rw [parse_digit, (digit_head hd).2.1, if_neg (by rw [hplain q hq]; decide)] at h
      cases h
      exact Or.inl ⟨q, hq, hd, rfl⟩
  · split at h
    · obtain ⟨⟨name, q⟩, hp, he⟩ := Option.map_eq_some_iff.mp h
      cases he
      exact Or.inr ⟨name, hp⟩
    · cases h

/-- What is read of a plain text, up to the end of a word, is one token behind blanks. -/
theorem scan_sound {it : Item} {p r : Text} (h : it.scan p = some r) (hplain : it.Plain p)
    (hend : it.IsWord → StopsAt isWordChar r) :
    ∃ b tok, p = b ++ (tok ++ r) ∧ Blanks b ∧ it.Spelled tok := by
  obtain ⟨b, hb, hblank⟩ := skip_split p
  cases it with
  | reg =>
    obtain ⟨⟨id, r'⟩, hp, rfl⟩ := Option.map_eq_some_iff.mp h
    obtain ⟨b, tok, hp, hb, htok⟩ := parse_reg_sound hp
    exact ⟨b, tok, hp, hb, id, htok⟩
  | delim c =>
    obtain ⟨b, hp, hb⟩ := parse_delim_sound h
    exact ⟨b, [c], hp, hb, rfl⟩
  | sym =>
    obtain ⟨⟨name, r'⟩, hp, rfl⟩ := Option.map_eq_some_iff.mp h
    obtain ⟨b, hp, hb, hname⟩ := parse_symbol_sound hp
    exact ⟨b, name, hp, hb, hname⟩
  | disp =>
    cases h
    unfold parse_digit at hend ⊢
    rcases strtoull_sound hplain with hnone | ⟨lit, hlit, hn⟩
    · exact ⟨b, [], by rw [hnone]; exact hb, hblank, Or.inl rfl⟩
    · exact ⟨b, lit, by rw [← hlit]; exact hb, hblank, Or.inr hn⟩
  | num =>
    cases h
    unfold parse_digit at hend ⊢
    obtain ⟨lit, hlit, hn⟩ := number_sound hplain (hend trivial)
    exact ⟨b, lit, by rw [← hlit]; exact hb, hblank, hn⟩
  | data wide =>
    obtain ⟨⟨tok, r'⟩, hp, hr⟩ := Option.bind_eq_some_iff.mp h
    rcases parse_data_sound hplain hp with ⟨hd, rfl, v, rfl⟩ | ⟨name, rfl, hsym⟩
    · cases hr
      obtain ⟨lit, hlit, hn⟩ := number_sound hd (hend trivial)
      exact ⟨b, lit, by rw [← hlit]; exact hb, hblank, Or.inl hn⟩
    · change (if wide = true then some r' else none) = some r at hr
      rw [Option.ite_none_right_eq_some, Option.some.injEq] at hr
      obtain ⟨hw, rfl⟩ := hr
      obtain ⟨b', hp', hb', hname⟩ := parse_symbol_sound hsym
      refine ⟨b ++ b', name, ?_, hblank.append hb', Or.inr ⟨hw, hname⟩⟩
      rw [List.append_assoc, ← hp']
      exact hb
  | imm =>
    obtain ⟨⟨tok, r'⟩, hp, rfl⟩ := Option.map_eq_some_iff.mp h
    rcases parse_imm_sound hplain hp with ⟨q, hq, hd, rfl⟩ | ⟨name, hsym⟩
    · obtain ⟨lit, hlit, hn⟩ := number_sound hd (hend trivial)
      refine ⟨b, '$' :: lit, ?_, hblank, Or.inl ⟨lit, rfl, hn⟩⟩
      rw [List.cons_append, ← hlit, ← hq]
      exact hb
    · obtain ⟨b', hp', hb', hname⟩ := parse_symbol_sound hsym
      refine ⟨b ++ b', name, ?_, hblank.append hb', Or.inr hname⟩
      rw [List.append_assoc, ← hp']
      exact hb

/-! ## What is read to the end is written -/

theorem blank_no_word {b t : Text} (hb : Blanks b) (ht : StopsAt isWordChar t) :
    StopsAt isWordChar (b ++ t) :=
  stopsAt_append (fun c hc => by simp [isWordChar, blank_space (hb c hc)]) ht

theorem Tail.ends {t : Text} (h : Tail t) : StopsAt isWordChar t := by
  obtain ⟨b, c, rfl, hb, hc⟩ := h
  refine blank_no_word hb fun x hx => ?_
  rcases hc with rfl | hc
  · cases hx
  · rw [hc] at hx
    cases hx
    rfl

/-- A character that stands between two tokens. -/
def isDelimiter (c : Char) : Bool := c == ',' || c == '(' || c == ')'

/-- Behind a word comes a delimiter or the end. -/
def Separated (items : List Item) : Prop :=
  items.IsChain fun it it' => it.IsWord → ∃ c, it' = .delim c ∧ isDelimiter c = true

theorem items_separated (i : Instr) : Separated i.items := by
  unfold Instr.items Separated
  split <;> try split
  all_goals simp [Item.IsWord, isDelimiter]

theorem delimiter_ends {c : Char} {r r' : Text} (hc : isDelimiter c = true)
    (h : parse_delim r c = some r') : StopsAt isWordChar r := by
  obtain ⟨b, rfl, hb⟩ := parse_delim_sound h
  refine blank_no_word hb (stopsAt_cons ?_)
  simp only [isDelimiter, Bool.or_eq_true, beq_iff_eq] at hc
  rcases hc with (rfl | rfl) | rfl <;> decide

theorem written_of_scan {items : List Item} {p rest : Text} (hsep : Separated items)
    (h : scanAll items p = some rest) (hplain : PlainAll items p) (htail : Tail rest) :
    Written items p := by
  induction items generalizing p with
  | nil =>
    cases h
    exact .nil htail
  | cons it items ih =>
    obtain ⟨r, hr, hrest⟩ := Option.bind_eq_some_iff.mp h
    have hend : it.IsWord → StopsAt isWordChar r := by
      intro hw
      cases items with
      | nil =>
        cases hrest
        exact htail.ends
      | cons it' items =>
        obtain ⟨c, rfl, hc⟩ := (List.isChain_cons_cons.mp hsep).1 hw
        obtain ⟨r', hr', -⟩ := Option.bind_eq_some_iff.mp hrest
        exact delimiter_ends hc hr'
    obtain ⟨b, tok, rfl, hb, htok⟩ := scan_sound hr hplain.1 hend
    exact .cons hb htok hend (ih hsep.tail hrest (hplain.2 r hr))

theorem parse_instr_sound {p rest : Text} {i : Instr} (h : parse_instr p = some (i, rest)) :
    i ∈ instr_set ∧ SKIP_BLANK p = i.name ++ rest := by
  have hmem := parse_instr_row h
  obtain ⟨hlen, h6, -⟩ := instr_set_len i hmem
  unfold parse_instr at h
  simp only at h
  obtain ⟨j, hj, he⟩ := Option.map_eq_some_iff.mp h
  cases he
  have hsame := List.find?_some hj
  simp only [sameFront, beq_iff_eq, List.take_take, Nat.min_eq_left h6] at hsame
  rw [List.take_of_length_le hlen.ge] at hsame
  exact ⟨hmem, by rw [hsame, List.take_append_drop]⟩

/-- The body of a line behind its label. -/
theorem bodyOf_sound {text body : Text} (h : bodyOf text = some body) :
    SKIP_BLANK body = body ∧ ∃ b label front, text = b ++ (front ++ body) ∧ Blanks b ∧
      LabelPart label front := by
  obtain ⟨b, hb, hblank⟩ := skip_split text
  unfold bodyOf at h
  simp only at h
  split at h
  · cases h
  split at h
  · cases h
    exact ⟨skip_skip text, b, none, [], hb, hblank, .none⟩
  · rename_i l p hlab
    split at h
    · cases h
    cases h
    obtain ⟨b2, hb2, hblank2⟩ := skip_split p
    unfold parse_label at hlab
    simp only [Option.bind_eq_bind, Option.bind_eq_some_iff] at hlab
    obtain ⟨⟨name, r⟩, hsym, q, hcolon, he⟩ := hlab
    cases he
    obtain ⟨b0, hb0, hblank0, hname⟩ := parse_symbol_sound hsym
    obtain ⟨b1, rfl, hblank1⟩ := parse_delim_sound hcolon
    refine ⟨skip_skip p, b ++ b0, some name, name ++ (b1 ++ ':' :: b2), ?_,
      hblank.append hblank0, .some hname hblank1 hblank2⟩
    generalize SKIP_BLANK p = body at hb2
    subst hb2
    rw [hb, hb0]
    simp

theorem wellFormed_of_reads {text p rest : Text} {i : Instr} (h : ReadsAs text i p rest)
    (hn : NothingIgnored i p rest) : WellFormed text := by
  obtain ⟨body, hbody, hi, hscan⟩ := h
  obtain ⟨hskip, b, label, front, htext, hb, hlab⟩ := bodyOf_sound hbody
  obtain ⟨hmem, hname⟩ := parse_instr_sound hi
  rw [hskip] at hname
  exact ⟨b, label, front, i, p, by rw [htext, hname], hb, hlab, hmem, hn.ended,
    written_of_scan (items_separated i) hscan hn.plain hn.tail⟩

/-! ## What is written is read to the end -/

theorem scan_congr (it : Item) {p q : Text} (h : SKIP_BLANK p = SKIP_BLANK q) :
    it.scan p = it.scan q ∧ (it.Plain p ↔ it.Plain q) := by
  cases it <;> simp only [Item.scan, Item.Plain, parse_reg, parse_delim, parse_imm, parse_digit,
    parse_symbol, parse_data, h] <;> trivial

theorem word_stops {t : Text} (h : StopsAt isWordChar t) :
    StopsAt isSymbolChar t ∧ StopsAt isNumberChar t ∧ IS_LETTER t = false := by
  have hboth : ∀ c ∈ t.head?, isSymbolChar c = false ∧ isNumberChar c = false := fun c hc =>
    Bool.or_eq_false_iff.mp (h c hc)
  exact ⟨fun c hc => (hboth c hc).1, fun c hc => (hboth c hc).2,
    not_letter_of_stop fun c hc => (hboth c hc).1⟩

/-- A number that ends is read to its end. -/
theorem Numeral.read {lit t : Text} (h : Numeral lit) (ht : StopsAt isWordChar t) :
    (strtoull (lit ++ t)).2 = t ∧ IS_DIGIT (lit ++ t) = true := by
  obtain ⟨sign, neg, mag, n, rfl, hsign, hmag⟩ := h
  rw [strtoull_magnitude hsign hmag (word_stops ht).2.1]
  exact ⟨rfl, magnitude_isDigit hsign hmag⟩

theorem letter_starts {q : Text} (h : IS_LETTER q = true) :
    IS_DIGIT q = false ∧ IS_IMM q = false ∧ SKIP_BLANK q = q := by
  refine ⟨?_, ?_, skip_of_stop (not_blank_of_letter h)⟩
  · by_contra hd
    cases q with
    | nil => cases h
    | cons c q =>
      simp only [IS_DIGIT, IS_LETTER, Bool.or_eq_true, Bool.and_eq_true, decide_eq_true_eq,
        beq_iff_eq, Bool.not_eq_false] at h hd
      rcases h with ⟨h1, -⟩ | ⟨h1, -⟩ <;> rcases hd with (⟨-, h2⟩ | rfl) | rfl
      · exact absurd (Char.le_trans h1 h2) (by decide)
      · exact absurd h1 (by decide)
      · exact absurd h1 (by decide)
      · exact absurd (Char.le_trans h1 h2) (by decide)
      · exact absurd h1 (by decide)
      · exact absurd h1 (by decide)
  · cases q with
    | nil => cases h
    | cons c q =>
      have hc : c ≠ '$' := by
        rintro rfl
        exact absurd h (by simp [IS_LETTER])
      simp [IS_IMM, hc]

theorem skip_append {b t : Text} (hb : Blanks b) : SKIP_BLANK (b ++ t) = SKIP_BLANK t :=
  List.dropWhile_append_of_pos hb

/-- Where a displacement is left out, neither a number nor another space comes next. -/
def isNumberStart (c : Char) : Bool := isspace c || isNumberChar c || c == '-' || c == '+'

/-- A token that is complete is read, and nothing of it is passed over. -/
theorem scan_complete {it : Item} {b tok t : Text} (hb : Blanks b) (h : it.Spelled tok)
    (hend : it.IsWord → StopsAt isWordChar t) (hdelim : ∀ c, it = .delim c → isBlank c = false)
    (hdisp : it = .disp → StopsAt isNumberStart (SKIP_BLANK t)) :
    ∃ r, it.scan (b ++ (tok ++ t)) = some r ∧ SKIP_BLANK r = SKIP_BLANK t ∧
      it.Plain (b ++ (tok ++ t)) := by
  cases it with
  | reg =>
    obtain ⟨id, hreg⟩ := h
    refine ⟨t, ?_, rfl, trivial⟩
    rw [Item.scan, ← List.append_assoc, parse_reg_of hb hreg]
    rfl
  | delim c =>
    obtain rfl : tok = [c] := h
    exact ⟨t, parse_delim_of hb (hdelim c rfl), rfl, trivial⟩
  | sym =>
    refine ⟨t, ?_, rfl, trivial⟩
    rw [Item.scan, ← List.append_assoc, parse_symbol_of hb h (word_stops (hend trivial)).1]
    rfl
  | num =>
    obtain ⟨hread, hd⟩ := Numeral.read h (hend trivial)
    have hskip : SKIP_BLANK (b ++ (tok ++ t)) = tok ++ t := by
      rw [skip_append hb, (digit_head hd).2.1]
    refine ⟨t, ?_, rfl, ?_⟩
    · rw [Item.scan, parse_digit, hskip, hread]
    · rw [Item.Plain, hskip]
      exact hd
  | disp =>
    rcases h with rfl | h
    · have hs := hdisp rfl
      refine ⟨SKIP_BLANK t, ?_, skip_skip t, ?_⟩
      · rw [Item.scan, parse_digit, skip_append hb, List.nil_append, strtoull_none hs]
      · rw [Item.Plain, skip_append hb, List.nil_append]
        intro c hc
        have := hs c hc
        simp only [isNumberStart, Bool.or_eq_false_iff] at this
        exact this.1.1.1
    · obtain ⟨hread, hd⟩ := Numeral.read h (hend trivial)
      obtain ⟨hspace, hskip, -⟩ := digit_head hd
      refine ⟨t, ?_, rfl, ?_⟩
      · rw [Item.scan, parse_digit, skip_append hb, hskip, hread]
      · rw [Item.Plain, skip_append hb, hskip]
        exact hspace
  | data wide =>
    have hletter := (word_stops (hend trivial)).2.2
    rcases h with h | ⟨rfl, h⟩
    · obtain ⟨hread, hd⟩ := Numeral.read h (hend trivial)
      have hskip : SKIP_BLANK (b ++ (tok ++ t)) = tok ++ t := by
        rw [skip_append hb, (digit_head hd).2.1]
      refine ⟨t, ?_, rfl, fun _ => by rw [hskip, hread]; exact hletter⟩
      simp only [Item.scan, parse_data, parse_digit, hskip, (digit_head hd).2.1, hd, if_true,
        hread, hletter, Bool.false_eq_true, if_false, Option.bind_some]
    · have hl := letter_append (t := t) h.1
      obtain ⟨hd, -, hself⟩ := letter_starts hl
      have hskip : SKIP_BLANK (b ++ (tok ++ t)) = tok ++ t := by rw [skip_append hb, hself]
      have hsym : parse_symbol (tok ++ t) = some (tok, t) :=
        parse_symbol_of (b := []) (fun _ hc => absurd hc List.not_mem_nil) h
          (word_stops (hend trivial)).1
      refine ⟨t, ?_, rfl, fun hdig => ?_⟩
      · simp only [Item.scan, parse_data, hskip, hd, hl, hsym, Bool.false_eq_true, if_false,
          if_true, Option.map_some, Option.bind_some]
      · rw [hskip, hd] at hdig
        cases hdig
  | imm =>
    have hletter := (word_stops (hend trivial)).2.2
    rcases h with ⟨lit, rfl, h⟩ | h
    · obtain ⟨hread, hd⟩ := Numeral.read h (hend trivial)
      have hskip : SKIP_BLANK (b ++ ('$' :: lit ++ t)) = '$' :: (lit ++ t) := by
        rw [skip_append hb, List.cons_append]
        rfl
      refine ⟨t, ?_, rfl, fun q hq => ?_⟩
      · simp only [Item.scan, parse_imm, hskip, IS_IMM, List.head?_cons, BEq.rfl, if_true,
          List.drop_one, List.tail_cons, hd, Bool.not_true, Bool.false_eq_true, if_false,
          parse_digit, (digit_head hd).2.1, hread, hletter, Option.map_some]
      · rw [hskip] at hq
        cases hq
        rw [hread]
        exact hletter
    · have hl := letter_append (t := t) h.1
      obtain ⟨-, himm, hself⟩ := letter_starts hl
      have hskip : SKIP_BLANK (b ++ (tok ++ t)) = tok ++ t := by rw [skip_append hb, hself]
      have hsym : parse_symbol (tok ++ t) = some (tok, t) :=
        parse_symbol_of (b := []) (fun _ hc => absurd hc List.not_mem_nil) h
          (word_stops (hend trivial)).1
      refine ⟨t, ?_, rfl, fun q hq => ?_⟩
      · simp only [Item.scan, parse_imm, hskip, himm, hl, hsym, Bool.false_eq_true, if_false,
          if_true, Option.map_some]
      · rw [hskip] at hq
        rw [hq] at himm
        cases himm

/-! The rest of a line, from what stands in front of it. -/

theorem tail_congr {r t : Text} (h : SKIP_BLANK r = SKIP_BLANK t) (ht : Tail t) : Tail r := by
  obtain ⟨b, c, rfl, hb, hc⟩ := ht
  obtain ⟨b', hb', hblank⟩ := skip_split r
  refine ⟨b', c, ?_, hblank, hc⟩
  have hstop : SKIP_BLANK c = c := by
    rcases hc with rfl | hc
    · rfl
    · refine skip_of_stop fun x hx => ?_
      rw [hc] at hx
      cases hx
      rfl
  rw [skip_append hb, hstop] at h
  rw [← h]
  exact hb'

/-- The delimiters of a list of items are those that stand between tokens. -/
def Delimited (items : List Item) : Prop := ∀ c, Item.delim c ∈ items → isDelimiter c = true

theorem items_delimited (i : Instr) : Delimited i.items := by
  unfold Instr.items Delimited
  split <;> try split
  all_goals simp [isDelimiter]

theorem delimiter_plain {c : Char} (h : isDelimiter c = true) :
    isBlank c = false ∧ c ≠ ':' ∧ isNumberStart c = false := by
  simp only [isDelimiter, Bool.or_eq_true, beq_iff_eq] at h
  rcases h with (rfl | rfl) | rfl <;> decide

theorem Tail.skip {t : Text} (h : Tail t) : ∀ c ∈ (SKIP_BLANK t).head?, c = '#' := by
  obtain ⟨b, c, rfl, hb, hc⟩ := h
  intro x hx
  rw [skip_append hb] at hx
  rcases hc with rfl | hc
  · cases hx
  · have hself : SKIP_BLANK c = c := skip_of_stop fun y hy => by
      rw [hc] at hy
      cases hy
      rfl
    rw [hself, hc] at hx
    cases hx
    rfl

/-- Behind a word there is no number. -/
theorem Written.stops {it : Item} {items : List Item} {t : Text} (h : Written items t)
    (hsep : Separated (it :: items)) (hword : it.IsWord) :
    StopsAt isNumberStart (SKIP_BLANK t) := by
  cases h with
  | nil ht =>
    intro c hc
    rw [ht.skip c hc]
    decide
  | cons hb htok _ _ =>
    obtain ⟨c, rfl, hc⟩ := (List.isChain_cons_cons.mp hsep).1 hword
    cases htok
    obtain ⟨hblank, -, hstart⟩ := delimiter_plain hc
    rw [skip_append hb, List.singleton_append, skip_of_stop (stopsAt_cons hblank)]
    exact stopsAt_cons hstart

theorem scan_of_written {items : List Item} {t : Text} (h : Written items t)
    (hsep : Separated items) (hdel : Delimited items) {r : Text}
    (hr : SKIP_BLANK r = SKIP_BLANK t) :
    ∃ rest, scanAll items r = some rest ∧ PlainAll items r ∧ Tail rest := by
  induction h generalizing r with
  | nil ht => exact ⟨r, rfl, trivial, tail_congr hr ht⟩
  | @cons it items b tok t hb htok hend hw ih =>
    obtain ⟨r1, hscan, hr1, hplain⟩ := scan_complete hb htok hend
      (fun c hc => (delimiter_plain (hdel c (by rw [hc]; simp))).1)
      (fun hd => hw.stops hsep (by rw [hd]; trivial))
    obtain ⟨rest, hrest, hpl, htail⟩ := ih hsep.tail
      (fun c hc => hdel c (List.mem_cons_of_mem _ hc)) hr1
    obtain ⟨heq, hiff⟩ := scan_congr it hr
    rw [hscan] at heq
    refine ⟨rest, ?_, ⟨hiff.mpr hplain, fun q hq => ?_⟩, htail⟩
    · rw [scanAll, heq]
      exact hrest
    · rw [heq] at hq
      cases hq
      exact hpl

theorem symbolChar_plain {c : Char} (h : isSymbolChar c = true) : isBlank c = false ∧ c ≠ ':' := by
  constructor
  · by_contra hb
    rw [(blank_space (by simpa using hb)).1] at h
    cases h
  · rintro rfl
    exact absurd h (by decide)

/-- A token that is there starts with something that is neither a blank nor a colon. -/
theorem spelled_head {it : Item} {tok : Text} (h : it.Spelled tok)
    (hdel : ∀ c, it = .delim c → isDelimiter c = true) :
    tok = [] ∨ ∃ c cs, tok = c :: cs ∧ isBlank c = false ∧ c ≠ ':' := by
  have hnum : Numeral tok → ∃ c cs, tok = c :: cs ∧ isBlank c = false ∧ c ≠ ':' := by
    intro hn
    have hd := (hn.read (t := []) (fun c hc => by cases hc)).2
    rw [List.append_nil] at hd
    cases tok with
    | nil => cases hd
    | cons c cs =>
      have hc : IS_DIGIT [c] = true := hd
      exact ⟨c, cs, rfl, symbolChar_plain (by simp [isSymbolChar, hc])⟩
  have hsym : SymbolName tok → ∃ c cs, tok = c :: cs ∧ isBlank c = false ∧ c ≠ ':' := by
    intro hn
    cases tok with
    | nil => exact absurd hn.1 (by decide)
    | cons c cs => exact ⟨c, cs, rfl, symbolChar_plain (hn.2 c (by simp))⟩
  cases it with
  | reg =>
    obtain ⟨id, r, hr, rfl, -⟩ := h
    right
    fin_cases hr <;> exact ⟨_, _, rfl, by decide, by decide⟩
  | delim c =>
    obtain rfl : tok = [c] := h
    obtain ⟨h1, h2, -⟩ := delimiter_plain (hdel c rfl)
    exact Or.inr ⟨c, [], rfl, h1, h2⟩
  | imm =>
    right
    rcases h with ⟨lit, rfl, -⟩ | h
    · exact ⟨'$', lit, rfl, by decide, by decide⟩
    · exact hsym h
  | disp => exact h.imp id hnum
  | sym => exact Or.inr (hsym h)
  | data wide => exact Or.inr (h.elim hnum fun h => hsym h.2)
  | num => exact Or.inr (hnum h)

theorem Written.no_colon {items : List Item} {t : Text} (h : Written items t)
    (hdel : Delimited items) : parse_delim t ':' = none := by
  induction h with
  | nil ht => exact no_colon_tail ht
  | @cons it items b tok t hb htok hend hw ih =>
    rcases spelled_head htok (fun c hc => hdel c (by rw [hc]; simp)) with
      rfl | ⟨c, cs, rfl, hblank, hne⟩
    · have := ih fun c hc => hdel c (List.mem_cons_of_mem _ hc)
      rw [parse_delim, skip_append hb, List.nil_append]
      exact this
    · exact no_colon_head hb hblank hne

theorem row_heads : ∀ i ∈ instr_set, (i.name.head?.any fun c => !isBlank c && c != '#') = true ∧
    (i.icode = I_DIRECTIVE → IS_LETTER i.name = false) := by
  decide

theorem row_plain {i : Instr} (hi : i ∈ instr_set) (rest : Text) :
    SKIP_BLANK (i.name ++ rest) = i.name ++ rest ∧
      (IS_END (i.name ++ rest) || IS_COMMENT (i.name ++ rest)) = false ∧
      (i.icode = I_DIRECTIVE → IS_LETTER (i.name ++ rest) = false) := by
  obtain ⟨hhead, hdir⟩ := row_heads i hi
  cases hn : i.name with
  | nil =>
    rw [hn] at hhead
    cases hhead
  | cons c cs =>
    rw [hn] at hhead hdir
    simp only [List.head?_cons, Option.any_some, Bool.and_eq_true, Bool.not_eq_true',
      bne_iff_ne] at hhead
    exact ⟨skip_of_stop (stopsAt_cons hhead.1), by simp [IS_END, IS_COMMENT, hhead.2], hdir⟩

theorem Ended.stops {t : Text} (h : Ended t) : StopsAt isSymbolChar t := by
  intro c hc
  rcases h c hc with hb | rfl
  · exact (blank_space hb).1
  · decide

/-- A mnemonic is no label. -/
theorem no_label {i : Instr} {rest : Text} (hi : i ∈ instr_set) (hend : Ended rest)
    (hw : Written i.items rest) : parse_label (i.name ++ rest) = none := by
  unfold parse_label
  by_cases hd : i.icode = I_DIRECTIVE
  · obtain ⟨hskip, -, hletter⟩ := row_plain hi rest
    have hsym : parse_symbol (i.name ++ rest) = none := by
      unfold parse_symbol
      simp only [hskip, hletter hd]
      rfl
    rw [hsym]
    rfl
  · have hsym := parse_symbol_of (b := []) (fun _ hc => absurd hc List.not_mem_nil)
      (mnemonic_symbol i hi hd) hend.stops
    rw [List.nil_append] at hsym
    rw [hsym]
    simp only [Option.bind_eq_bind, Option.bind_some, hw.no_colon (items_delimited i)]
    rfl

theorem bodyOf_complete {b front rest : Text} {label : Option Text} {i : Instr} (hb : Blanks b)
    (hlab : LabelPart label front) (hi : i ∈ instr_set) (hend : Ended rest)
    (hw : Written i.items rest) : bodyOf (b ++ (front ++ (i.name ++ rest))) = some (i.name ++ rest) := by
  obtain ⟨hskip, hplain, -⟩ := row_plain hi rest
  unfold bodyOf
  cases hlab with
  | none =>
    simp only [List.nil_append, skip_append hb, hskip, hplain, no_label hi hend hw,
      Bool.false_eq_true, if_false]
  | @some l b1 b2 hl hb1 hb2 =>
    have hassoc : l ++ (b1 ++ ':' :: b2) ++ (i.name ++ rest) =
        l ++ (b1 ++ ':' :: (b2 ++ (i.name ++ rest))) := by simp
    have hletter := letter_append (t := b1 ++ ':' :: (b2 ++ (i.name ++ rest))) hl.1
    obtain ⟨hend', hcomm⟩ := letter_plain hletter
    simp only [hassoc, skip_append hb, skip_of_stop (not_blank_of_letter hletter), hend', hcomm,
      label_read hl hb1, skip_append hb2, hskip, hplain, Bool.or_self, Bool.false_eq_true, if_false]

theorem reads_of_wellFormed {text : Text} (h : WellFormed text) :
    ∃ i p rest, ReadsAs text i p rest ∧ NothingIgnored i p rest := by
  obtain ⟨b, label, front, i, p, rfl, hb, hlab, hi, hend, hw⟩ := h
  obtain ⟨rest, hscan, hplain, htail⟩ :=
    scan_of_written hw (items_separated i) (items_delimited i) rfl
  have hinstr : parse_instr (i.name ++ p) = some (i, p) := by
    unfold parse_instr
    simp only [(row_plain hi p).1, find_instr_of hi hend.stops, Option.map_some,
      (instr_set_len i hi).1, List.drop_left]
  exact ⟨i, p, rest, ⟨_, bodyOf_complete hb hlab hi hend hw, hinstr, hscan⟩, hend, hplain, htail⟩

/-! ## The law -/

/-- A line is well formed exactly when it is read to the end with nothing passed over. -/
theorem wellFormed_iff (text : Text) : WellFormed text ↔
    ∃ i p rest, ReadsAs text i p rest ∧ NothingIgnored i p rest :=
  ⟨reads_of_wellFormed, fun ⟨_, _, _, h, hn⟩ => wellFormed_of_reads h hn⟩

/-- The assembler accepts what is well formed and nothing else exactly for a line of this kind: if
it can be read to its last operand, then nothing in it is passed over, its label is new and its
division can be done; or it is refused, for its label or its division, and is malformed too. -/
theorem a_line_is_accepted_iff (heap : Nat → Text) (st : Asm) (text : Text) :
    (Accepts heap st text ↔ WellFormed text) ↔
      ∀ i p rest, ReadsAs text i p rest →
        (NothingIgnored i p rest ↔ LabelIsNew heap st text ∧ Divides st i p) := by
  rw [accepts_iff, wellFormed_iff]
  constructor
  · intro h i p rest hr
    constructor
    · intro hn
      obtain ⟨i', p', rest', hr', hnew, hdiv⟩ := h.mpr ⟨i, p, rest, hr, hn⟩
      obtain ⟨rfl, rfl, rfl⟩ := hr.unique hr'
      exact ⟨hnew, hdiv⟩
    · rintro ⟨hnew, hdiv⟩
      obtain ⟨i', p', rest', hr', hn⟩ := h.mp ⟨i, p, rest, hr, hnew, hdiv⟩
      obtain ⟨rfl, rfl, rfl⟩ := hr.unique hr'
      exact hn
  · intro h
    constructor
    · rintro ⟨i, p, rest, hr, hboth⟩
      exact ⟨i, p, rest, hr, (h i p rest hr).mpr hboth⟩
    · rintro ⟨i, p, rest, hr, hn⟩
      exact ⟨i, p, rest, hr, (h i p rest hr).mp hn⟩

/-- `ret x` is accepted: the text behind a `ret` is never looked at. -/
theorem text_behind_ret_is_passed_over : Accepts bareNames init "ret x".toList ∧
    ¬ ∀ heap st text, Accepts heap st text ↔ WellFormed text := by
  have hacc : Accepts bareNames init "ret x".toList := ⟨_, _, rfl, rfl, rfl⟩
  refine ⟨hacc, fun hall => ?_⟩
  obtain ⟨i, p, rest, hr, hn⟩ := (wellFormed_iff _).mp ((hall _ _ _).mp hacc)
  obtain ⟨rfl, rfl, rfl⟩ := hr.unique
    (⟨"ret x".toList, rfl, rfl, rfl⟩ : ReadsAs "ret x".toList ⟨"ret".toList, 3, I_RET, F_NONE, 1⟩
      " x".toList " x".toList)
  have hx := Tail.skip hn.tail 'x' (by decide)
  exact absurd hx (by decide)

end ics_labs.asm
