-- How csim reads its trace: the loop over fscanf, which has no anchor at the starts of
-- the lines and finds its way back one character at a time.
import IcsLabs.Csim
import IcsLabs.CText

open ics_labs.memory ics_labs.ctext ics_labs.runs

namespace ics_labs.csim

/-! ## The scanner -/

/-- The mark of a hexadecimal number, taken off. -/
def takeMark : Text → Text
  | '0' :: 'x' :: t => t
  | '0' :: 'X' :: t => t
  | t => t

/-- `%lx`: blanks, a sign, a mark `0x`, hexadecimal digits. Without a digit nothing is
stored, and the character that stands there stays. -/
def scan_lx (t : Text) : Option Word × Text :=
  let (neg, t) := takeSign (t.dropWhile isspace)
  let t := takeMark t
  let ds := t.takeWhile (isDigitIn 16)
  if ds = [] then (none, t) else (some (signed neg (number 16 ds)), t.dropWhile (isDigitIn 16))

/-- `%d`: blanks, a sign, digits. The number is a `long` first, and then an `int`. -/
def scan_d (t : Text) : Option Int × Text :=
  let (neg, t) := takeSign (t.dropWhile isspace)
  let ds := t.takeWhile (isDigitIn 10)
  let n : Int := if neg then -min (number 10 ds) (2 ^ 63) else min (number 10 ds) (2 ^ 63 - 1)
  if ds = [] then (none, t) else (some (toInt32 n), t.dropWhile (isDigitIn 10))

/-- `fscanf(fin, "%c %lx,%d", &op, &addr, &byte_size)` on the locals and the text that is
left. `none` is EOF. A conversion that fails leaves the locals behind it as they were. -/
def fscanf (loc : Access) : Text → Option (Access × Text)
  | [] => none
  | op :: t =>
    match scan_lx (t.dropWhile isspace) with
    | (none, t) => some ({ loc with op }, t)
    | (some addr, ',' :: t) =>
      match scan_d t with
      | (none, t) => some ({ loc with op, addr }, t)
      | (some byte_size, t) => some ({ op, addr, byte_size }, t)
    | (some addr, t) => some ({ loc with op, addr }, t)

/-- The loop of `deal_with_file` over the text of the file. The first argument is the number
of turns that are left, and the outer `none` is that they did not suffice. -/
def deal_with_text (s b : Nat) (clock : Nat → Int) :
    Nat → Access → Csim → Text → Option (Option Csim)
  | 0, _, _, _ => none
  | n + 1, loc, c, t =>
    match fscanf loc t with
    | none => some (some c)
    | some (loc, t) =>
      match deal_with_access s b clock c loc with
      | none => some none
      | some c => deal_with_text s b clock n loc c t

/-- What the locals hold in each turn of the loop. -/
def records : Nat → Access → Text → Option (List Access)
  | 0, _, _ => none
  | n + 1, loc, t =>
    match fscanf loc t with
    | none => some []
    | some (loc, t) => (records n loc t).map (loc :: ·)

theorem records_turn {loc loc' : Access} {t t' : Text} (n : Nat)
    (h : fscanf loc t = some (loc', t')) :
    records (n + 1) loc t = (records n loc' t').map (loc' :: ·) := by
  rw [records, h]

/-- The cache sees what the locals hold, turn by turn. -/
theorem deal_with_text_eq (s b : Nat) (clock : Nat → Int) {n : Nat} {loc : Access} {t : Text}
    {rs : List Access} (h : records n loc t = some rs) (c : Csim) :
    deal_with_text s b clock n loc c t = some (exec (deal_with_access s b clock) c rs) := by
  induction n generalizing loc c t rs with
  | zero => cases h
  | succ n ih =>
    unfold deal_with_text
    unfold records at h
    cases hf : fscanf loc t with
    | none =>
      rw [hf] at h
      cases h
      rfl
    | some v =>
      rw [hf] at h
      obtain ⟨rs', hrs, rfl⟩ := Option.map_eq_some_iff.mp h
      rw [exec]
      cases hc : deal_with_access s b clock c v.1 with
      | none => simp only [hc, Option.bind_none]
      | some c' =>
        simp only [hc, Option.bind_some]
        exact ih hrs c'

/-- A turn without an access of data is none to the cache. -/
theorem exec_data (s b : Nat) (clock : Nat → Int) (c : Csim) (rs : List Access) :
    exec (deal_with_access s b clock) c rs =
      exec (deal_with_access s b clock) c (rs.filter fun r => isData r.op) := by
  induction rs generalizing c with
  | nil => rfl
  | cons r rs ih =>
    rw [List.filter_cons]
    cases hr : isData r.op with
    | true =>
      rw [if_pos rfl, exec, exec]
      congr 1
      funext d
      exact ih d
    | false =>
      rw [exec, access_skips hr, Option.bind_some, if_neg (by simp), ih]

/-! ## The file -/

/-- The four kinds of lines that lackey writes. -/
inductive Kind where
  | L | S | M | I
deriving DecidableEq, Repr

def Kind.char : Kind → Char
  | .L => 'L'
  | .S => 'S'
  | .M => 'M'
  | .I => 'I'

/-- A line: the address in hexadecimal digits, the size in decimal ones, and the blanks at
its end. -/
structure TraceLine where
  kind : Kind
  addr : Text
  size : Text
  blanks : Text
  addr_ne : addr ≠ []
  addr_hex : ∀ c ∈ addr, isDigitIn 16 c = true
  size_ne : size ≠ []
  size_dec : ∀ c ∈ size, isDigitIn 10 c = true
  blanks_blank : ∀ c ∈ blanks, isspace c = true

/-- What stands in front of the letter. -/
def Kind.lead : Kind → Text
  | .I => []
  | _ => [' ']

/-- What stands between the letter and the address. -/
def Kind.gap : Kind → Text
  | .I => [' ', ' ']
  | _ => [' ']

theorem Kind.lead_blank (k : Kind) : ∀ c ∈ k.lead, isspace c = true := by
  intro c hc
  cases k <;> simp_all [Kind.lead, isspace]

theorem Kind.gap_blank (k : Kind) : ∀ c ∈ k.gap, isspace c = true := by
  intro c hc
  cases k <;> simp_all [Kind.gap, isspace]

/-- The line from its letter to the size. -/
def TraceLine.core (l : TraceLine) : Text := l.kind.char :: (l.kind.gap ++ (l.addr ++ ',' :: l.size))

/-- The text of the file. The last line ends in a newline or at the end of the file. -/
def fileText (ended : Bool) : List TraceLine → Text
  | [] => []
  | l :: ls => l.kind.lead ++ (l.core ++ (l.blanks ++
      if ls.isEmpty && !ended then [] else '\n' :: fileText ended ls))

/-- The access of a line. A number too long for its variable is read as `strtoul` and
`strtol` read it. -/
def TraceLine.access (l : TraceLine) : Access where
  op := l.kind.char
  addr := signed false (number 16 l.addr)
  byte_size := toInt32 (min (number 10 l.size : Int) (2 ^ 63 - 1))

/-- The accesses of a trace: one for each line of data, in the order of the file. -/
def accesses (ls : List TraceLine) : List Access :=
  (ls.filter fun l => l.kind ≠ .I).map TraceLine.access

/-! ## One turn of the loop -/

/-- A hexadecimal digit is no blank, no sign and no `x`. -/
theorem hex_not {c : Char} (h : isDigitIn 16 c = true) :
    isspace c = false ∧ c ≠ '-' ∧ c ≠ '+' ∧ c ≠ 'x' ∧ c ≠ 'X' := by
  refine ⟨?_, ?_, ?_, ?_, ?_⟩
  · by_contra hs
    simp only [isspace, Bool.not_eq_false, Bool.or_eq_true, beq_iff_eq] at hs
    rcases hs with ((((rfl | rfl) | rfl) | rfl) | rfl) | rfl <;> revert h <;> decide
  all_goals
    rintro rfl
    revert h
    decide

theorem dec_hex {c : Char} (h : isDigitIn 10 c = true) : isDigitIn 16 c = true := by
  simp only [isDigitIn, decide_eq_true_eq] at h ⊢
  omega

theorem takeSign_digit {c : Char} (h : isDigitIn 16 c = true) (t : Text) :
    takeSign (c :: t) = (false, c :: t) := by
  obtain ⟨-, h1, h2, -⟩ := hex_not h
  show (if c = '-' then (true, t) else if c = '+' then (false, t) else (false, c :: t)) = _
  rw [if_neg h1, if_neg h2]

theorem takeMark_of_ne {a : Char} {t : Text} (h : ∀ b ∈ t.head?, b ≠ 'x' ∧ b ≠ 'X') :
    takeMark (a :: t) = a :: t := by
  unfold takeMark
  split
  · rename_i r heq
    obtain ⟨-, rfl⟩ := List.cons.inj heq
    exact absurd rfl (h 'x' rfl).1
  · rename_i r heq
    obtain ⟨-, rfl⟩ := List.cons.inj heq
    exact absurd rfl (h 'X' rfl).2
  · rfl

/-- Behind a digit there is no `x` in a number of the trace. -/
theorem takeMark_digits {ds : Text} (h : ∀ c ∈ ds, isDigitIn 16 c = true) (hne : ds ≠ [])
    (t : Text) : takeMark (ds ++ ',' :: t) = ds ++ ',' :: t := by
  obtain ⟨c, cs, rfl⟩ := List.exists_cons_of_ne_nil hne
  refine takeMark_of_ne fun b hb => ?_
  rcases cs with _ | ⟨d, cs⟩
  · obtain rfl : ',' = b := by simpa using hb
    decide
  · obtain rfl : d = b := by simpa using hb
    obtain ⟨-, -, -, h1, h2⟩ := hex_not (h d (by simp))
    exact ⟨h1, h2⟩

theorem scan_lx_digits {ds : Text} (h : ∀ c ∈ ds, isDigitIn 16 c = true) (hne : ds ≠ [])
    (t : Text) : scan_lx (ds ++ ',' :: t) = (some (signed false (number 16 ds)), ',' :: t) := by
  have hstop : StopsAt (isDigitIn 16) (',' :: t) := stopsAt_cons (by decide)
  obtain ⟨c, cs, rfl⟩ := List.exists_cons_of_ne_nil hne
  have hc := h c (by simp)
  have hskip : (c :: cs ++ ',' :: t).dropWhile isspace = c :: cs ++ ',' :: t := by
    rw [List.cons_append, List.dropWhile_cons_of_neg (by simp [(hex_not hc).1])]
  have hsign : takeSign (c :: cs ++ ',' :: t) = (false, c :: cs ++ ',' :: t) :=
    takeSign_digit hc _
  unfold scan_lx
  simp only [hskip, hsign, takeMark_digits h hne, takeWhile_stop h hstop, dropWhile_stop h hstop, if_neg hne]

theorem scan_d_digits {ds t : Text} (h : ∀ c ∈ ds, isDigitIn 10 c = true) (hne : ds ≠ [])
    (hstop : StopsAt (isDigitIn 10) t) :
    scan_d (ds ++ t) = (some (toInt32 (min (number 10 ds : Int) (2 ^ 63 - 1))), t) := by
  obtain ⟨c, cs, rfl⟩ := List.exists_cons_of_ne_nil hne
  have hc := dec_hex (h c (by simp))
  have hskip : (c :: cs ++ t).dropWhile isspace = c :: cs ++ t := by
    rw [List.cons_append, List.dropWhile_cons_of_neg (by simp [(hex_not hc).1])]
  have hsign : takeSign (c :: cs ++ t) = (false, c :: cs ++ t) := takeSign_digit hc _
  unfold scan_d
  simp only [hskip, hsign, Bool.false_eq_true, if_false, takeWhile_stop h hstop,
    dropWhile_stop h hstop, if_neg hne]

/-- The letter of a line is not hexadecimal. -/
theorem scan_lx_letter (k : Kind) (t : Text) : scan_lx (k.char :: t) = (none, k.char :: t) := by
  have hmark : takeMark (k.char :: t) = k.char :: t := by
    cases k <;> rfl
  unfold scan_lx
  have hskip : (k.char :: t).dropWhile isspace = k.char :: t := by
    rw [List.dropWhile_cons_of_neg]
    cases k <;> decide
  have hsign : takeSign (k.char :: t) = (false, k.char :: t) := by
    cases k <;> rfl
  have htake : (k.char :: t).takeWhile (isDigitIn 16) = [] := by
    rw [List.takeWhile_cons_of_neg]
    cases k <;> decide
  simp only [hskip, hsign, hmark, htake, if_true]

theorem scan_lx_nil : scan_lx [] = (none, []) := rfl

/-- A turn that starts at the letter of a line reads the line. -/
theorem fscanf_core (loc : Access) (l : TraceLine) {t : Text} (ht : StopsAt (isDigitIn 10) t) :
    fscanf loc (l.core ++ t) = some (l.access, t) := by
  have hgap := l.kind.gap_blank
  have hstop : StopsAt isspace (l.addr ++ ',' :: (l.size ++ t)) :=
    stopsAt_append (fun c hc => (hex_not (l.addr_hex c hc)).1) (stopsAt_cons (by decide))
  have hcore : l.core ++ t =
      l.kind.char :: (l.kind.gap ++ (l.addr ++ ',' :: (l.size ++ t))) := by
    simp [TraceLine.core]
  rw [hcore]
  simp only [fscanf, dropWhile_stop hgap hstop, scan_lx_digits l.addr_hex l.addr_ne,
    scan_d_digits l.size_dec l.size_ne ht]
  rfl

/-- A turn that starts at a blank ends at the next letter, or at the end of the file. -/
theorem fscanf_gap (loc : Access) {w : Char} {g t : Text} (hg : ∀ c ∈ g, isspace c = true)
    (ht : StopsAt isspace t) (hscan : scan_lx t = (none, t)) :
    fscanf loc (w :: (g ++ t)) = some ({ loc with op := w }, t) := by
  simp only [fscanf, dropWhile_stop hg ht, hscan]

theorem isData_blank {w : Char} (h : isspace w = true) : isData w = false := by
  simp only [isspace, Bool.or_eq_true, beq_iff_eq] at h
  rcases h with ((((rfl | rfl) | rfl) | rfl) | rfl) | rfl <;> decide

theorem isDigit_blank {w : Char} (h : isspace w = true) : isDigitIn 10 w = false := by
  simp only [isspace, Bool.or_eq_true, beq_iff_eq] at h
  rcases h with ((((rfl | rfl) | rfl) | rfl) | rfl) | rfl <;> decide

theorem isData_kind (k : Kind) : isData k.char = decide (k ≠ .I) := by
  cases k <;> rfl

/-! ## The run -/

/-- Blanks cost at most one turn, and that turn performs no access. -/
theorem records_gap {n : Nat} {g t : Text} (loc : Access) (hg : ∀ c ∈ g, isspace c = true)
    (ht : StopsAt isspace t) (hscan : scan_lx t = (none, t)) (hn : (g ++ t).length < n) :
    ∃ m loc' lost, t.length < m ∧
      records n loc (g ++ t) = (records m loc' t).map (lost ++ ·) ∧
      lost.filter (fun r => isData r.op) = [] := by
  rcases g with _ | ⟨w, g⟩
  · refine ⟨n, loc, [], hn, ?_, rfl⟩
    cases h : records n loc t with
    | none => simp [h]
    | some rs => simp [h]
  · obtain ⟨m, rfl⟩ : ∃ m, n = m + 1 := ⟨n - 1, by omega⟩
    have hm : t.length < m := by
      simp only [List.cons_append, List.length_cons, List.length_append] at hn
      omega
    refine ⟨m, { loc with op := w }, [{ loc with op := w }], hm, ?_, ?_⟩
    · have hturn := fscanf_gap loc (w := w) (g := g) (fun c hc => hg c (by simp [hc])) ht hscan
      rw [List.cons_append, records_turn m hturn]
      rfl
    · rw [List.filter_cons, isData_blank (hg w (by simp))]
      rfl

/-- Whatever blanks stand in front of them, the lines are read one by one. -/
theorem records_lines {n : Nat} {gap : Text} (ended : Bool) (ls : List TraceLine) (loc : Access)
    (hgap : ∀ c ∈ gap, isspace c = true) (hn : (gap ++ fileText ended ls).length < n) :
    ∃ rs, records n loc (gap ++ fileText ended ls) = some rs ∧
      rs.filter (fun r => isData r.op) = accesses ls := by
  induction ls generalizing n gap loc with
  | nil =>
    obtain ⟨m, loc', lost, hm, hrec, hlost⟩ :=
      records_gap loc hgap (t := fileText ended []) (by simp [StopsAt, fileText]) scan_lx_nil hn
    obtain ⟨m, rfl⟩ : ∃ k, m = k + 1 := ⟨m - 1, by omega⟩
    refine ⟨lost, ?_, hlost⟩
    rw [hrec]
    simp [fileText, records, fscanf]
  | cons l ls ih =>
    -- What stands behind the size is the gap in front of the next line.
    obtain ⟨next, hnext, hsize, hrest⟩ : ∃ next : Text, (∀ c ∈ next, isspace c = true) ∧
        StopsAt (isDigitIn 10) (next ++ fileText ended ls) ∧
        l.blanks ++ (if ls.isEmpty && !ended then [] else '\n' :: fileText ended ls) =
          next ++ fileText ended ls := by
      by_cases hlast : (ls.isEmpty && !ended) = true
      · obtain rfl : ls = [] := by
          simp only [Bool.and_eq_true, List.isEmpty_iff] at hlast
          exact hlast.1
        refine ⟨l.blanks, l.blanks_blank, stopsAt_append ?_ (by simp [StopsAt, fileText]), ?_⟩
        · intro c hc
          exact isDigit_blank (l.blanks_blank c hc)
        · rw [if_pos hlast]
          rfl
      · have hblank : ∀ c ∈ l.blanks ++ ['\n'], isspace c = true := by
          intro c hc
          rcases List.mem_append.mp hc with hc | hc
          · exact l.blanks_blank c hc
          · obtain rfl : c = '\n' := by simpa using hc
            decide
        refine ⟨l.blanks ++ ['\n'], hblank, ?_, by rw [if_neg hlast]; simp⟩
        rw [List.append_assoc]
        refine stopsAt_append (fun c hc => isDigit_blank (l.blanks_blank c hc)) ?_
        exact stopsAt_cons (by decide)
    have hfile : gap ++ fileText ended (l :: ls) =
        (gap ++ l.kind.lead) ++ (l.core ++ (next ++ fileText ended ls)) := by
      rw [fileText, hrest, List.append_assoc]
    have hlead : ∀ c ∈ gap ++ l.kind.lead, isspace c = true := by
      intro c hc
      rcases List.mem_append.mp hc with hc | hc
      · exact hgap c hc
      · exact l.kind.lead_blank c hc
    have hletter : StopsAt isspace (l.core ++ (next ++ fileText ended ls)) :=
      stopsAt_cons (by cases l.kind <;> decide)
    rw [hfile] at hn ⊢
    obtain ⟨m, loc', lost, hm, hrec, hlost⟩ :=
      records_gap loc hlead hletter (scan_lx_letter l.kind _) hn
    obtain ⟨m, rfl⟩ : ∃ k, m = k + 1 := ⟨m - 1, by omega⟩
    have hm' : (next ++ fileText ended ls).length < m := by
      simp only [TraceLine.core, List.length_append, List.length_cons] at hm ⊢
      omega
    obtain ⟨rs, hrs, hdata⟩ := ih l.access hnext hm'
    refine ⟨lost ++ l.access :: rs, ?_, ?_⟩
    · rw [hrec, records_turn m (fscanf_core loc' l hsize), hrs]
      rfl
    · rw [List.filter_append, hlost, List.nil_append, List.filter_cons, hdata]
      unfold accesses
      rw [List.filter_cons]
      have hop : l.access.op = l.kind.char := rfl
      rw [hop, isData_kind]
      by_cases hI : l.kind ≠ .I
      · simp [hI]
      · simp [hI]

/-! ## The law -/

/-- The loop ends, and the cache sees one access for each line of data, in the order of the
file, with the letter and the address of its line. -/
theorem the_trace_is_read_line_by_line (s b : Nat) (clock : Nat → Int) (loc : Access)
    (c : Csim) (ended : Bool) (ls : List TraceLine) :
    ∃ rs, records ((fileText ended ls).length + 1) loc (fileText ended ls) = some rs ∧
      rs.filter (fun r => isData r.op) = accesses ls ∧
      deal_with_text s b clock ((fileText ended ls).length + 1) loc c (fileText ended ls) =
        some (exec (deal_with_access s b clock) c (accesses ls)) := by
  obtain ⟨rs, hrs, hdata⟩ := @records_lines _ [] ended ls loc (by simp) (Nat.lt_succ_self _)
  rw [List.nil_append] at hrs
  refine ⟨rs, hrs, hdata, ?_⟩
  rw [deal_with_text_eq s b clock hrs, exec_data, hdata]

end ics_labs.csim
