-- The listing of a program: print_screen of lab5 (y64asm.c) writes a line of text for
-- each line of the source, with its address and its bytes in front, and load_mem of
-- lab6 (isa.c) reads such a text into a memory.
import IcsLabs.AsmCodec
import IcsLabs.Binfile

open ics_labs.byte_words ics_labs.memory ics_labs.ctext ics_labs.runs

namespace ics_labs.asm

open LineType

/-! ## The printer -/

/-- `(value >> 4*i) & 0xF`, of an `int`. -/
def nibbleOf (value : BitVec 32) (i : Nat) : Nat := (value.sshiftRight (4 * i) &&& 0xF).toNat

/-- `h < 10 ? h + '0' : h - 10 + 'a'`. -/
def hexChar (h : Nat) : Char :=
  if h < 10 then Char.ofNat (h + '0'.toNat) else Char.ofNat (h - 10 + 'a'.toNat)

/-- The last `len` hexadecimal digits of `value`, written into the buffer from `dest` on. -/
def hexstuff (buf : Text) (dest : Nat) (value : BitVec 32) (len : Nat) : Text :=
  (List.range len).foldl (fun buf i => buf.set (dest + (len - i - 1)) (hexChar (nibbleOf value i)))
    buf

def insBuf : Text := "  0x000:                      | ".toList

def commBuf : Text := "                              | ".toList

def print_line (line : Line) : Text :=
  let buf :=
    if line.type = TYPE_INS then
      let buf := hexstuff insBuf 4 (line.y64bin.addr.setWidth 32) 3
      (List.range line.y64bin.bytes).foldl (fun buf i =>
        hexstuff buf (9 + 2 * i) ((line.y64bin.codes i).setWidth 32) 2) buf
    else commBuf
  buf ++ line.y64asm ++ ['\n']

def print_screen (st : Asm) : Text := st.lines.flatMap print_line

/-! ## The reader -/

def isxdigit (c : Char) : Bool :=
  ('0' ≤ c && c ≤ '9') || ('a' ≤ c && c ≤ 'f') || ('A' ≤ c && c ≤ 'F')

def hex2dig (c : Char) : Nat :=
  if '0' ≤ c ∧ c ≤ '9' then c.toNat - '0'.toNat
  else if 'A' ≤ c ∧ c ≤ 'Z' then c.toNat - 'A'.toNat + 10
  else c.toNat - 'a'.toNat + 10

/-- The address in front of the colon, and the text behind its digits. -/
def scanAddr : Text → Word → Word × Text
  | [], bytepos => (bytepos, [])
  | c :: cs, bytepos =>
    if isxdigit c then scanAddr cs (bytepos * 16 + BitVec.ofNat 64 (hex2dig c))
    else (bytepos, c :: cs)

/-- The memory and `byte_cnt`. The error is the memory that is left when `load_mem` gives up,
or nothing when it writes outside the memory. -/
abbrev Loading := Except (Option Mem) (Mem × Nat)

/-- The bytes of a line, two digits each. -/
def scanCode (s : Mem × Nat) : Text → Word → Loading
  | ch :: cl :: cs, bytepos =>
    if isxdigit ch && isxdigit cl then
      if (s.1.len : Int) ≤ bytepos.toInt then .error (some s.1)
      else if bytepos.toInt < 0 then .error none
      else
        let byte : Byte := BitVec.ofNat 8 (hex2dig ch * 16 + hex2dig cl)
        scanCode ({ s.1 with contents := Function.update s.1.contents bytepos.toNat byte }, s.2 + 1)
          cs (bytepos + 1)
    else .ok s
  | _, _ => .ok s

/-- A line of the file. The end of the text stands for the 0 behind it, which is no blank, no
digit and no colon. -/
def loadLine (s : Mem × Nat) (buf : Text) : Loading :=
  match buf.dropWhile isspace with
  | '0' :: x :: p =>
    if x = 'x' ∨ x = 'X' then
      let (bytepos, p) := scanAddr p 0
      match p.dropWhile isspace with
      | ':' :: p => scanCode s (p.dropWhile isspace) bytepos
      | _ => .error (some s.1)
    else .ok s
  | _ => .ok s

def LINELEN : Nat := 4096

/-- What `fgets` gives, call after call. Each takes at least one character, so `fuel` is enough
when it is the length of the text. -/
def readBufs : Nat → Text → List Text
  | 0, _ => []
  | fuel + 1, cs =>
    if cs = [] then []
    else
      let (buf, rest) := fgets (LINELEN - 1) cs
      buf :: readBufs fuel rest

/-- The memory afterwards and the result, which is 0 after an error. -/
def load_mem (m : Mem) (infile : Text) : Option (Mem × Nat) :=
  match (readBufs infile.length infile).foldlM loadLine (m, 0) with
  | .ok s => some s
  | .error (some m) => some (m, 0)
  | .error none => none

/-! ## A digit -/

theorem nibbleOf_lt (value : BitVec 32) (i : Nat) : nibbleOf value i < 16 := by
  unfold nibbleOf
  rw [BitVec.toNat_and]
  exact Nat.lt_of_le_of_lt Nat.and_le_right (by decide)

theorem nibbleOf_eq {value : BitVec 32} {i : Nat} (hi : i < 3) :
    nibbleOf value i = value.toNat / 16 ^ i % 16 := by
  have hmask : nibbleOf value i = (value.sshiftRight (4 * i)).toNat % 16 := by
    unfold nibbleOf
    rw [BitVec.toNat_and]
    exact Nat.and_two_pow_sub_one_eq_mod _ 4
  have hv := value.isLt
  rw [hmask, BitVec.toNat_sshiftRight]
  interval_cases i <;> split <;> simp only [Nat.shiftRight_eq_div_pow] <;> omega

/-- A printed digit is read as what it is, and it is no blank and no end of line. -/
theorem hexChar_read : ∀ h < 16, isxdigit (hexChar h) = true ∧ hex2dig (hexChar h) = h ∧
    isspace (hexChar h) = false ∧ hexChar h ≠ '\n' := by
  decide

theorem isxdigit_hexChar (value : BitVec 32) (i : Nat) :
    isxdigit (hexChar (nibbleOf value i)) = true :=
  (hexChar_read _ (nibbleOf_lt value i)).1

theorem hex2dig_hexChar (value : BitVec 32) (i : Nat) :
    hex2dig (hexChar (nibbleOf value i)) = nibbleOf value i :=
  (hexChar_read _ (nibbleOf_lt value i)).2.1

/-- The two digits of a byte. -/
def byteText (b : Byte) : Text :=
  [hexChar (nibbleOf (b.setWidth 32) 1), hexChar (nibbleOf (b.setWidth 32) 0)]

theorem byte_of_digits (b : Byte) :
    BitVec.ofNat 8 (nibbleOf (b.setWidth 32) 1 * 16 + nibbleOf (b.setWidth 32) 0) = b := by
  have hb := b.isLt
  apply BitVec.eq_of_toNat_eq
  rw [nibbleOf_eq (by decide), nibbleOf_eq (by decide), BitVec.toNat_ofNat, BitVec.toNat_setWidth]
  omega

/-- The three digits of an address. -/
def addrText (addr : Word) : Text :=
  [hexChar (nibbleOf (addr.setWidth 32) 2), hexChar (nibbleOf (addr.setWidth 32) 1),
    hexChar (nibbleOf (addr.setWidth 32) 0)]

/-! ## The printed line -/

theorem hexstuff_three (a b : Text) (x y z : Char) (v : BitVec 32) :
    hexstuff (a ++ x :: y :: z :: b) a.length v 3 =
      a ++ hexChar (nibbleOf v 2) :: hexChar (nibbleOf v 1) :: hexChar (nibbleOf v 0) :: b := by
  simp [hexstuff, List.range_succ]

theorem hexstuff_two (a b : Text) (x y : Char) (v : BitVec 32) :
    hexstuff (a ++ x :: y :: b) a.length v 2 =
      a ++ hexChar (nibbleOf v 1) :: hexChar (nibbleOf v 0) :: b := by
  simp [hexstuff, List.range_succ]

/-- The digits of the bytes from the `k`th on, `n` of them. -/
def codesText (codes : Contents) (k n : Nat) : Text :=
  (List.range' k n).flatMap fun i => byteText (codes i)

theorem codesText_length (codes : Contents) (k n : Nat) : (codesText codes k n).length = 2 * n := by
  induction n generalizing k with
  | zero => rfl
  | succ n ih =>
    unfold codesText at ih ⊢
    rw [List.range'_succ, List.flatMap_cons, List.length_append, ih]
    change 2 + 2 * n = _
    omega

/-- The front of a printed line, up to the blank behind the colon. -/
def frontText (addr : Word) : Text := "  0x".toList ++ addrText addr ++ ": ".toList

theorem print_addr (addr : Word) : hexstuff insBuf 4 (addr.setWidth 32) 3 =
    frontText addr ++ (List.replicate 21 ' ' ++ "| ".toList) :=
  hexstuff_three "  0x".toList ":                      | ".toList '0' '0' '0' (addr.setWidth 32)

/-- The buffer after the first `n` bytes. -/
theorem print_codes (addr : Word) (codes : Contents) {n : Nat} (hn : n ≤ 10) :
    (List.range n).foldl (fun buf i => hexstuff buf (9 + 2 * i) ((codes i).setWidth 32) 2)
        (hexstuff insBuf 4 (addr.setWidth 32) 3) =
      frontText addr ++ (codesText codes 0 n ++
        (List.replicate (21 - 2 * n) ' ' ++ "| ".toList)) := by
  induction n with
  | zero => exact print_addr addr
  | succ n ih =>
    have hblank : List.replicate (21 - 2 * n) ' ' ++ "| ".toList =
        ' ' :: ' ' :: (List.replicate (21 - 2 * (n + 1)) ' ' ++ "| ".toList) := by
      rw [show 21 - 2 * n = 21 - 2 * (n + 1) + 1 + 1 by omega, List.replicate_succ,
        List.replicate_succ, List.cons_append, List.cons_append]
    have hlen : (frontText addr ++ codesText codes 0 n).length = 9 + 2 * n := by
      rw [List.length_append, codesText_length]
      rfl
    have hsnoc : codesText codes 0 (n + 1) = codesText codes 0 n ++ byteText (codes n) := by
      unfold codesText
      rw [List.range'_concat, List.flatMap_append]
      simp
    rw [List.range_succ, List.foldl_append, List.foldl_cons, List.foldl_nil, ih (by omega), hblank,
      ← List.append_assoc, ← hlen, hexstuff_two, hsnoc]
    simp [byteText]

/-- What stands behind the bytes of a line. -/
def restText (n : Nat) (text : Text) : Text :=
  List.replicate (21 - 2 * n) ' ' ++ ('|' :: ' ' :: text)

theorem frontText_length (addr : Word) : (frontText addr).length = 9 := rfl

theorem restText_length (n : Nat) (text : Text) :
    (restText n text).length = 21 - 2 * n + (text.length + 2) := by
  unfold restText
  rw [List.length_append, List.length_replicate]
  rfl

theorem print_ins {line : Line} (ht : line.type = TYPE_INS) (hb : line.y64bin.bytes ≤ 10) :
    print_line line = frontText line.y64bin.addr ++ (codesText line.y64bin.codes 0 line.y64bin.bytes
      ++ restText line.y64bin.bytes line.y64asm) ++ ['\n'] := by
  unfold print_line
  rw [if_pos ht, print_codes _ _ hb]
  simp [restText]

/-! ## The line, read -/

/-- The address as three digits show it. -/
def Bin.low (b : Bin) : Bin := { b with addr := BitVec.ofNat 64 (b.addr.toNat % 4096) }

theorem low_start (b : Bin) : b.low.start = b.start % 4096 := by
  change (BitVec.ofNat 64 (b.addr.toNat % 4096)).toNat = b.addr.toNat % 4096
  rw [BitVec.toNat_ofNat]
  omega

theorem low_of_lt {b : Bin} (h : b.start < 4096) : b.low = b := by
  unfold Bin.start at h
  unfold Bin.low
  rw [Nat.mod_eq_of_lt h, BitVec.ofNat_toNat, BitVec.setWidth_eq]

theorem scanAddr_digits (addr : Word) {c : Char} (hc : isxdigit c = false) (t : Text) :
    scanAddr (addrText addr ++ c :: t) 0 = (BitVec.ofNat 64 (addr.toNat % 4096), c :: t) := by
  have hval : ((0 * 16 + BitVec.ofNat 64 (nibbleOf (addr.setWidth 32) 2)) * 16 +
      BitVec.ofNat 64 (nibbleOf (addr.setWidth 32) 1)) * 16 +
      BitVec.ofNat 64 (nibbleOf (addr.setWidth 32) 0) = BitVec.ofNat 64 (addr.toNat % 4096) := by
    apply BitVec.eq_of_toNat_eq
    rw [nibbleOf_eq (by decide), nibbleOf_eq (by decide), nibbleOf_eq (by decide)]
    simp only [BitVec.toNat_add, BitVec.toNat_mul, BitVec.toNat_ofNat, BitVec.toNat_setWidth,
      show (16 : Word).toNat = 16 from rfl, show (0 : Word).toNat = 0 from rfl]
    omega
  simp only [addrText, List.cons_append, List.nil_append, scanAddr, isxdigit_hexChar,
    hex2dig_hexChar, if_true, hc, Bool.false_eq_true, if_false, hval]

/-- The digits of the bytes fill the rest of the line's place, whatever stands behind them. -/
theorem scanCode_codes {b : Bin} {m : Mem} (hin : b.start + b.bytes ≤ m.len) {t : Text}
    (ht : StopsAt isxdigit t) (image : Contents) (cnt : Nat) {k n : Nat} (hkn : k + n = b.bytes) :
    scanCode ({ m with contents := overlay b k image }, cnt) (codesText b.codes k n ++ t)
        (b.addr + BitVec.ofNat 64 k) =
      .ok ({ m with contents := overlay b b.bytes image }, cnt + n) := by
  have hlen := m.len_lt
  unfold Bin.start at hin
  induction n generalizing k cnt with
  | zero =>
    obtain rfl : k = b.bytes := hkn
    change scanCode _ t _ = _
    cases t with
    | nil => rfl
    | cons c t =>
      have hc := ht c rfl
      cases t with
      | nil => rfl
      | cons d t => simp [scanCode, hc]
  | succ n ih =>
    have hpos : (b.addr + BitVec.ofNat 64 k).toNat = b.addr.toNat + k := by
      rw [BitVec.toNat_add, BitVec.toNat_ofNat]
      omega
    have hint : (b.addr + BitVec.ofNat 64 k).toInt = b.addr.toNat + k := by
      rw [BitVec.toInt_eq_toNat_of_lt (by omega), hpos]
      rfl
    have hnext : b.addr + BitVec.ofNat 64 k + 1 = b.addr + BitVec.ofNat 64 (k + 1) := by
      rw [BitVec.ofNat_add, BitVec.add_assoc]
      rfl
    have hcons : codesText b.codes k (n + 1) ++ t =
        hexChar (nibbleOf ((b.codes k).setWidth 32) 1) ::
          hexChar (nibbleOf ((b.codes k).setWidth 32) 0) :: (codesText b.codes (k + 1) n ++ t) := by
      simp [codesText, List.range'_succ, byteText]
    have hover : Function.update (overlay b k image) (b.addr.toNat + k) (b.codes k) =
        overlay b (k + 1) image := by
      funext x
      unfold overlay Bin.start
      by_cases hx : x = b.addr.toNat + k
      · subst hx
        rw [Function.update_self, if_pos (by omega), Nat.add_sub_cancel_left]
      · rw [Function.update_of_ne hx]
        by_cases hlt : b.addr.toNat ≤ x ∧ x < b.addr.toNat + k
        · rw [if_pos hlt, if_pos (by omega)]
        · rw [if_neg hlt, if_neg (by omega)]
    rw [hcons]
    simp only [scanCode, isxdigit_hexChar, hex2dig_hexChar, byte_of_digits, hint, hpos, hnext,
      hover, Bool.and_self, if_true]
    rw [if_neg (by omega), if_neg (by omega), ih (cnt + 1) (k := k + 1) (by omega)]
    congr 2
    omega

/-- Behind the colon the reader comes to the digits of the bytes, and they end in front of
something that is no digit. -/
theorem skip_to_codes (codes : Contents) (n : Nat) (text : Text) : ∃ t, StopsAt isxdigit t ∧
    (' ' :: (codesText codes 0 n ++ restText n text)).dropWhile isspace = codesText codes 0 n ++ t := by
  have hblanks : ∀ k, (List.replicate k ' ').all isspace = true := by
    intro k
    rw [List.all_replicate]
    cases k <;> rfl
  cases n with
  | zero =>
    refine ⟨'|' :: ' ' :: text, stopsAt_cons rfl, ?_⟩
    exact dropWhile_stop (a := List.replicate 22 ' ') (List.all_eq_true.mp (hblanks 22))
      (stopsAt_cons rfl)
  | succ n =>
    refine ⟨restText (n + 1) text, ?_, ?_⟩
    · apply stopsAt_append ?_ (stopsAt_cons rfl)
      intro c hc
      obtain ⟨-, rfl⟩ := List.mem_replicate.mp hc
      rfl
    · have hc := (hexChar_read _ (nibbleOf_lt ((codes 0).setWidth 32) 1)).2.2.1
      rw [List.dropWhile_cons_of_pos (by rfl)]
      simp [codesText, List.range'_succ, byteText, hc]

/-- A line that has bytes, read: they are at the address that its three digits show. -/
theorem load_ins {line : Line} (ht : line.type = TYPE_INS) (hb : line.y64bin.bytes ≤ 10) {m : Mem}
    (hm : m.len = MEM_SIZE) (cnt : Nat) : loadLine (m, cnt) (print_line line) =
      .ok ({ m with contents := overlay line.y64bin.low line.y64bin.bytes m.contents },
        cnt + line.y64bin.bytes) := by
  obtain ⟨t, hstop, hskip⟩ := skip_to_codes line.y64bin.codes line.y64bin.bytes
    (line.y64asm ++ ['\n'])
  have hprint : print_line line = ' ' :: ' ' :: '0' :: 'x' :: (addrText line.y64bin.addr ++ ':' ::
      ' ' :: (codesText line.y64bin.codes 0 line.y64bin.bytes ++
        restText line.y64bin.bytes (line.y64asm ++ ['\n']))) := by
    rw [print_ins ht hb]
    simp [frontText, restText]
  have hlow : line.y64bin.low.start + line.y64bin.low.bytes ≤ m.len := by
    rw [low_start, hm]
    change _ + line.y64bin.bytes ≤ 8192
    omega
  have hzero : overlay line.y64bin.low 0 m.contents = m.contents := by
    funext x
    unfold overlay
    rw [if_neg (by omega)]
  have hcode := scanCode_codes hlow hstop m.contents cnt (k := 0) (n := line.y64bin.bytes)
    (Nat.zero_add _)
  rw [hzero, BitVec.add_zero] at hcode
  rw [hprint]
  unfold loadLine
  rw [List.dropWhile_cons_of_pos (by rfl), List.dropWhile_cons_of_pos (by rfl),
    List.dropWhile_cons_of_neg (by decide)]
  simp only [true_or, if_true, scanAddr_digits _ (show isxdigit ':' = false from rfl)]
  rw [List.dropWhile_cons_of_neg (by decide)]
  simp only [hskip]
  exact hcode

/-- The line of a comment is passed over. -/
theorem load_comm {line : Line} (ht : line.type ≠ TYPE_INS) (s : Mem × Nat) :
    loadLine s (print_line line) = .ok s := by
  have hskip : (print_line line).dropWhile isspace = '|' :: ' ' :: (line.y64asm ++ ['\n']) := by
    unfold print_line
    rw [if_neg ht, List.append_assoc]
    apply dropWhile_stop (a := List.replicate 30 ' ') _ (stopsAt_cons rfl)
    intro c hc
    rw [List.eq_of_mem_replicate hc]
    rfl
  unfold loadLine
  rw [hskip]
  rfl

/-! ## The file, read -/

theorem fgets_line {a rest : Text} {n : Nat} (ha : '\n' ∉ a) (hn : a.length < n) :
    fgets n (a ++ '\n' :: rest) = (a ++ ['\n'], rest) := by
  induction a generalizing n with
  | nil =>
    cases n with
    | zero => cases hn
    | succ n => rfl
  | cons c a ih =>
    cases n with
    | zero => cases hn
    | succ n =>
      obtain ⟨hc, ha⟩ := not_or.mp (mt List.mem_cons.mpr ha)
      rw [List.cons_append, fgets, if_neg (Ne.symm hc), ih ha (Nat.lt_of_succ_lt_succ hn)]
      rfl

/-- A line of a file that one call of `fgets` reads. -/
def FitsBuf (l : Text) : Prop := ∃ a, l = a ++ ['\n'] ∧ '\n' ∉ a ∧ a.length < LINELEN - 1

theorem readBufs_lines {ls : List Text} (h : ∀ l ∈ ls, FitsBuf l) {fuel : Nat}
    (hfuel : ls.flatten.length ≤ fuel) : readBufs fuel ls.flatten = ls := by
  induction ls generalizing fuel with
  | nil => cases fuel <;> rfl
  | cons l ls ih =>
    obtain ⟨⟨a, rfl, ha, hn⟩, hls⟩ := List.forall_mem_cons.mp h
    rw [List.flatten_cons, List.append_assoc, List.singleton_append] at hfuel ⊢
    cases fuel with
    | zero => simp at hfuel
    | succ fuel =>
      rw [readBufs, if_neg (by simp), fgets_line ha hn]
      simp only [List.cons.injEq, true_and]
      apply ih hls
      rw [List.length_append, List.length_cons] at hfuel
      omega

/-- What `assemble` makes sure of for every line. -/
structure Printable (line : Line) : Prop where
  bytes : line.y64bin.bytes ≤ 10
  text : '\n' ∉ line.y64asm
  short : line.y64asm.length < MAX_INSLEN

theorem digit_no_newline (value : BitVec 32) (i : Nat) : hexChar (nibbleOf value i) ≠ '\n' :=
  (hexChar_read _ (nibbleOf_lt value i)).2.2.2

theorem fitsBuf_print {line : Line} (h : Printable line) : FitsBuf (print_line line) := by
  have hshort := h.short
  unfold MAX_INSLEN at hshort
  by_cases ht : line.type = TYPE_INS
  · refine ⟨_, print_ins ht h.bytes, ?_, ?_⟩
    · have hfront : '\n' ∉ frontText line.y64bin.addr := by
        simp [frontText, addrText, (digit_no_newline _ _).symm]
      have hcodes : '\n' ∉ codesText line.y64bin.codes 0 line.y64bin.bytes := by
        unfold codesText
        rw [List.mem_flatMap]
        rintro ⟨i, -, hi⟩
        simp [byteText, (digit_no_newline _ _).symm] at hi
      simp [hfront, hcodes, restText, h.text]
    · have := h.bytes
      rw [List.length_append, List.length_append, frontText_length, codesText_length,
        restText_length, LINELEN]
      omega
  · refine ⟨commBuf ++ line.y64asm, ?_, ?_, ?_⟩
    · unfold print_line
      rw [if_neg ht]
    · rw [List.mem_append, not_or]
      exact ⟨by decide, h.text⟩
    · rw [List.length_append, show commBuf.length = 32 from rfl, LINELEN]
      omega

theorem overlay_zero (b : Bin) (image : Contents) : overlay b 0 image = image := by
  funext x
  unfold overlay
  rw [if_neg (by omega)]

/-- How many bytes the lines have. -/
def byteCount (ls : List Line) : Nat := ((emitted ls).map Bin.bytes).sum

/-- The loop over the listing puts the bytes of each line where its three digits say. -/
theorem load_lines {ls : List Line} (h : ∀ l ∈ ls, Printable l) {m : Mem} (hm : m.len = MEM_SIZE)
    (cnt : Nat) : (ls.map print_line).foldlM loadLine (m, cnt) =
      .ok ({ m with contents := overlayAll ((emitted ls).map Bin.low) m.contents },
        cnt + byteCount ls) := by
  induction ls generalizing m cnt with
  | nil => rfl
  | cons l ls ih =>
    obtain ⟨hl, hls⟩ := List.forall_mem_cons.mp h
    rw [List.map_cons, List.foldlM_cons]
    unfold byteCount at ih ⊢
    rw [emitted_cons]
    by_cases ht : l.type = TYPE_INS
    · rw [load_ins ht hl.bytes hm]
      have hrest := ih hls
        (m := { m with contents := overlay l.y64bin.low l.y64bin.bytes m.contents }) hm
        (cnt + l.y64bin.bytes)
      refine Eq.trans hrest ?_
      by_cases he : Emits l
      · rw [if_pos he, List.map_cons, overlayAll_cons, List.map_cons, List.sum_cons, Nat.add_assoc]
        rfl
      · have hb : l.y64bin.bytes = 0 := by
          by_contra hb
          exact he ⟨ht, hb⟩
        rw [if_neg he, hb, overlay_zero]
        rfl
    · rw [load_comm ht, if_neg fun he => ht he.1]
      exact ih hls hm cnt

theorem load_listing {st : Asm} (h : ∀ l ∈ st.lines, Printable l) :
    load_mem init_mem (print_screen st) = some
      ({ init_mem with contents := overlayAll ((emitted st.lines).map Bin.low) fun _ => 0 },
        byteCount st.lines) := by
  have hbufs : readBufs (print_screen st).length (print_screen st) = st.lines.map print_line := by
    unfold print_screen
    rw [List.flatMap_def]
    apply readBufs_lines ?_ (Nat.le_refl _)
    intro l hl
    obtain ⟨line, hline, rfl⟩ := List.mem_map.mp hl
    exact fitsBuf_print (h line hline)
  unfold load_mem
  rw [hbufs, load_lines h rfl, Nat.zero_add]
  rfl

/-! ## What the assembler makes sure of -/

theorem instr_set_bytes : ∀ i ∈ instr_set, i.bytes ≤ 10 := by
  decide

theorem put_operands_bytes (heap : Nat → Text) (st : Asm) (bin : Bin) (regs : Option Byte)
    (const : Option Token) : (put_operands heap st bin regs const).1.bytes = bin.bytes := by
  unfold put_operands
  rcases const with _ | _ | _ <;> rfl

/-- A line has the bytes of its row in the table. -/
theorem parse_body_bytes {heap : Nat → Text} {st st' : Asm} {text p : Text} {line : Line}
    (h : parse_body heap st text p = .ok (line, st')) :
    ∃ i rest, parse_instr p = some (i, rest) ∧ line.y64bin.bytes = i.bytes := by
  unfold parse_body at h
  cases hi : parse_instr p with
  | none =>
    rw [hi] at h
    cases h
  | some q =>
    obtain ⟨i, rest⟩ := q
    refine ⟨i, rest, rfl, ?_⟩
    simp only [hi] at h
    split at h
    · split at h
      · unfold parse_data_line at h
        split at h
        · cases h
        · split at h <;> cases h
          rfl
        · cases h
          rfl
      · split at h
        · cases h
          rfl
        · split at h
          · obtain ⟨vmaddr, -, he⟩ := map_eq_ok h
            cases he
            rfl
          · cases h
            rfl
    · split at h
      · cases h
      · cases h
        exact put_operands_bytes heap _ _ _ _

theorem parse_line_bytes {heap : Nat → Text} {st st' : Asm} {text : Text} {line : Line}
    (h : parse_line heap st text = .ok (line, st')) : line.y64bin.bytes ≤ 10 := by
  have hbody : ∀ {s p}, parse_body heap s text p = .ok (line, st') → line.y64bin.bytes ≤ 10 := by
    intro s p hp
    obtain ⟨i, rest, hi, hb⟩ := parse_body_bytes hp
    rw [hb]
    exact instr_set_bytes i (parse_instr_row hi)
  unfold parse_line at h
  simp only at h
  split at h
  · cases h
    exact Nat.zero_le 10
  split at h
  · cases h
    exact Nat.zero_le 10
  split at h
  · split at h
    · cases h
    · split at h
      · cases h
        exact Nat.zero_le 10
      · exact hbody h
  · exact hbody h

/-- The text that `assemble` keeps has no end of line in it: `fgets` reads none but the last
character, and `strip` takes that one off. -/
theorem fgets_spec {n : Nat} {cs line rest : Text} (h : fgets n cs = (line, rest)) :
    line.length ≤ n ∧ ∃ a e, line = a ++ e ∧ '\n' ∉ a ∧ (e = [] ∨ e = ['\n']) := by
  induction n generalizing cs line with
  | zero =>
    cases cs <;> cases h <;> exact ⟨Nat.le_refl 0, [], [], rfl, by simp, Or.inl rfl⟩
  | succ n ih =>
    cases cs with
    | nil =>
      cases h
      exact ⟨Nat.zero_le _, [], [], rfl, by simp, Or.inl rfl⟩
    | cons c cs =>
      unfold fgets at h
      split at h
      · rename_i hc
        cases h
        rw [hc]
        exact ⟨Nat.succ_le_succ (Nat.zero_le n), [], ['\n'], rfl, by simp, Or.inr rfl⟩
      · rename_i hc
        cases hf : fgets n cs with
        | mk line' rest' =>
          simp only [hf] at h
          cases h
          obtain ⟨hlen, a, e, rfl, ha, he⟩ := ih hf
          refine ⟨Nat.succ_le_succ hlen, c :: a, e, rfl, ?_, he⟩
          rw [List.mem_cons, not_or]
          exact ⟨Ne.symm hc, ha⟩

theorem strip_last (line : Text) : (strip line).getLast? ≠ some '\n' := by
  intro h
  unfold strip at h
  rw [List.getLast?_reverse] at h
  have hnot := List.head?_dropWhile_not (fun c => c == '\n' || c == '\r')
    (line.takeWhile (· ≠ '\x00')).reverse
  rw [h] at hnot
  exact absurd hnot (by decide)

theorem strip_spec {n : Nat} {cs line rest : Text} (h : fgets n cs = (line, rest)) :
    (strip line).length ≤ n ∧ '\n' ∉ strip line := by
  obtain ⟨hlen, a, e, rfl, ha, he⟩ := fgets_spec h
  obtain ⟨b, hb⟩ : ∃ b, strip (a ++ e) ++ b = (a ++ e).takeWhile (· ≠ '\x00') := by
    refine ⟨(((a ++ e).takeWhile (· ≠ '\x00')).reverse.takeWhile
      fun c => c == '\n' || c == '\r').reverse, ?_⟩
    unfold strip
    rw [← List.reverse_append, List.takeWhile_append_dropWhile, List.reverse_reverse]
  have hpre : strip (a ++ e) <+: a ++ e :=
    (List.prefix_append _ b).trans (hb ▸ List.takeWhile_prefix _)
  refine ⟨hpre.length_le.trans hlen, fun hmem => ?_⟩
  rcases he with rfl | rfl
  · rw [List.append_nil] at hpre hmem
    exact ha (hpre.subset hmem)
  · rcases List.prefix_concat_iff.mp hpre with heq | hpre
    · apply strip_last (a ++ ['\n'])
      rw [heq, List.getLast?_concat]
    · exact ha (hpre.subset hmem)

theorem readLines_spec {fuel : Nat} {cs text : Text} (h : text ∈ readLines fuel cs) :
    text.length < MAX_INSLEN ∧ '\n' ∉ text := by
  induction fuel generalizing cs with
  | zero => cases h
  | succ fuel ih =>
    unfold readLines at h
    split at h
    · cases h
    · cases hf : fgets (MAX_INSLEN - 1) cs with
      | mk line rest =>
        simp only [hf] at h
        rcases List.mem_cons.mp h with rfl | h
        · obtain ⟨hlen, hnot⟩ := strip_spec hf
          exact ⟨Nat.lt_of_le_of_lt hlen (by decide), hnot⟩
        · exact ih h

theorem printable_assemble {heap : Nat → Text} {input : Text} {st : Asm}
    (h : assemble heap input = .ok st) : ∀ l ∈ st.lines, Printable l := by
  apply foldlM_invariant (P := fun st : Asm => ∀ l ∈ st.lines, Printable l) ?_ ?_ h
  · intro s text htext s' hs hstep l hl
    obtain ⟨⟨line, s1⟩, hp, rfl⟩ := map_eq_ok hstep
    obtain ⟨⟨hlines, -⟩, hasm⟩ := parse_line_grows heap hp
    simp only [hlines, List.mem_append, List.mem_singleton] at hl
    rcases hl with hl | rfl
    · exact hs l hl
    · obtain ⟨hlen, hnot⟩ := readLines_spec htext
      exact ⟨parse_line_bytes hp, hasm ▸ hnot, hasm ▸ hlen⟩
  · intro l hl
    cases hl

theorem patchAll_bytes (st : Asm) (rels : List (Name × Nat)) (b : Bin) :
    (patchAll st rels b).bytes = b.bytes := by
  induction rels generalizing b with
  | nil => rfl
  | cons r rels ih =>
    rw [patchAll_cons, ih, patch_bytes]

theorem printable_relocate {st st' : Asm} (h : ∀ l ∈ st.lines, Printable l)
    (hst' : relocate st = .ok st') : ∀ l ∈ st'.lines, Printable l := by
  intro l hl
  obtain ⟨j, hj⟩ := List.mem_iff_getElem?.mp hl
  rw [(relocate_fold hst').2 j, Option.map_eq_some_iff] at hj
  obtain ⟨k, hk, rfl⟩ := hj
  have hk' := h k (List.mem_of_getElem? hk)
  exact ⟨by rw [patchAll_bytes]; exact hk'.bytes, hk'.text, hk'.short⟩

/-! ## The law -/

/-- What a line at or above 0x1000 puts at the address without its top digit does no harm: all
its bytes are 0, and no line in front of it has another byte there. -/
structure SeenLow (bs : List Bin) : Prop where
  zero : ∀ b ∈ bs, 4096 ≤ b.start → ∀ i < b.bytes, b.codes i = 0
  free : bs.Pairwise fun a b => 4096 ≤ b.start → ∀ i < b.bytes, ∀ k < a.bytes,
    a.start + k + 4096 = b.start + i → a.codes k = 0

theorem overlayAll_snoc (bs : List Bin) (b : Bin) (image : Contents) :
    overlayAll (bs ++ [b]) image = overlay b b.bytes (overlayAll bs image) := by
  unfold overlayAll
  rw [List.foldl_append]
  rfl

theorem overlayAll_append (as bs : List Bin) (image : Contents) :
    overlayAll (as ++ bs) image = overlayAll bs (overlayAll as image) := List.foldl_append

theorem overlayAll_outside {bs : List Bin} {x : Nat} (h : ∀ b ∈ bs, ¬b.Covers x) (image : Contents) :
    overlayAll bs image x = image x := by
  induction bs generalizing image with
  | nil => rfl
  | cons b bs ih =>
    obtain ⟨hb, hbs⟩ := List.forall_mem_cons.mp h
    rw [overlayAll_cons, ih hbs, overlay_other hb]

instance : Std.Symm Bin.Apart := ⟨fun _ _ => Or.symm⟩

theorem Bin.Apart.not_both {a b : Bin} (h : a.Apart b) {x : Nat} (ha : a.Covers x)
    (hb : b.Covers x) : False := by
  unfold Bin.Apart at h
  unfold Bin.Covers at ha hb
  omega

theorem low_covers {b : Bin} {x : Nat} :
    b.low.Covers x ↔ b.start % 4096 ≤ x ∧ x < b.start % 4096 + b.bytes := by
  have hstop : b.low.stop = b.start % 4096 + b.bytes := by
    rw [← low_start]
    rfl
  unfold Bin.Covers
  rw [hstop, low_start]

theorem covers_iff {b : Bin} {x : Nat} : b.Covers x ↔ ∃ i < b.bytes, x = b.start + i := by
  have hstop : b.stop = b.start + b.bytes := rfl
  unfold Bin.Covers
  rw [hstop]
  constructor
  · rintro ⟨hle, hlt⟩
    exact ⟨x - b.start, by omega, by omega⟩
  · rintro ⟨i, hi, rfl⟩
    omega

theorem inside_lt {b : Bin} (h : b.stop ≤ MEM_SIZE) : b.start + b.bytes ≤ 8192 := h

/-- When it does no harm, the memory comes out as if the addresses had all their digits. -/
theorem overlayAll_low {bs : List Bin} (h : Placed bs) (hbytes : ∀ b ∈ bs, 0 < b.bytes ∧ b.bytes ≤ 10)
    (hlow : SeenLow bs) :
    overlayAll (bs.map Bin.low) (fun _ => 0) = overlayAll bs fun _ => 0 := by
  induction bs using List.reverseRecOn with
  | nil => rfl
  | append_singleton bs b ih =>
    obtain ⟨hbs, -, hab⟩ := List.pairwise_append.mp h.apart
    obtain ⟨hfree, -, hfreeb⟩ := List.pairwise_append.mp hlow.free
    have hb : b ∈ bs ++ [b] := by simp
    have hin := inside_lt (h.inside b hb)
    obtain ⟨hpos, hsize⟩ := hbytes b hb
    have hleft : ∀ a ∈ bs, a ∈ bs ++ [b] := fun a ha => List.mem_append_left _ ha
    rw [List.map_append, List.map_singleton, overlayAll_snoc, overlayAll_snoc,
      ih ⟨fun a ha => h.inside a (hleft a ha), hbs⟩ (fun a ha => hbytes a (hleft a ha))
        ⟨fun a ha => hlow.zero a (hleft a ha), hfree⟩]
    by_cases hhigh : 4096 ≤ b.start
    · obtain ⟨hcodes, hrest⟩ := overlayAll_holds hbs fun _ => 0
      have hzero := hlow.zero b hb hhigh
      have hstart : b.start % 4096 + 4096 = b.start := by
        omega
      funext x
      by_cases hx : b.low.Covers x
      · -- the zeros of the line fall on zeros
        have hnot : ¬b.Covers x := by
          have := low_covers.mp hx
          unfold Bin.Covers
          omega
        obtain ⟨hle, hlt⟩ := low_covers.mp hx
        obtain ⟨i, rfl⟩ := Nat.exists_eq_add_of_le hle
        rw [overlay_other hnot, ← low_start, overlay_covered (b := b.low) (show i < b.bytes by omega)]
        change b.codes i = _
        rw [hzero i (by omega), low_start]
        by_cases hcov : ∃ a ∈ bs, a.Covers (b.start % 4096 + i)
        · obtain ⟨a, ha, hca⟩ := hcov
          obtain ⟨k, hkb, hk⟩ := covers_iff.mp hca
          rw [hk, hcodes a ha k hkb]
          exact (hfreeb a ha b (by simp) hhigh i (by omega) k hkb (by omega)).symm
        · rw [hrest _ fun a ha hca => hcov ⟨a, ha, hca⟩]
      · rw [overlay_other (b := b.low) hx]
        by_cases hcov : b.Covers x
        · obtain ⟨i, hi, rfl⟩ := covers_iff.mp hcov
          rw [overlay_covered hi, hzero i hi,
            hrest _ fun a ha hca => (hab a ha b (by simp)).not_both hca hcov]
        · rw [overlay_other hcov]
    · rw [low_of_lt (Nat.lt_of_not_le hhigh)]

/-- A relation between each element of a list and all those in front of it. -/
theorem pairwise_of_splits {α : Type} {R : α → α → Prop} {l : List α}
    (h : ∀ l₁ b l₂, l = l₁ ++ b :: l₂ → ∀ a ∈ l₁, R a b) : l.Pairwise R := by
  induction l using List.reverseRecOn with
  | nil => exact List.Pairwise.nil
  | append_singleton l b ih =>
    refine List.pairwise_append.mpr ⟨ih fun l₁ c l₂ he => h l₁ c (l₂ ++ [b]) ?_,
      List.pairwise_singleton _ _, fun a ha c hc => ?_⟩
    · rw [he]
      simp
    · obtain rfl := List.mem_singleton.mp hc
      exact h l c [] rfl a ha

/-- When the memory comes out right, the lines above 0x1000 did no harm. -/
theorem seenLow_of_holds {bs : List Bin} (h : Placed bs)
    (hbytes : ∀ b ∈ bs, 0 < b.bytes ∧ b.bytes ≤ 10)
    (hh : Holds bs (overlayAll (bs.map Bin.low) fun _ => 0)) : SeenLow bs := by
  have hzero : ∀ b ∈ bs, 4096 ≤ b.start → ∀ i < b.bytes, b.codes i = 0 := by
    intro b hb hhigh i hi
    rw [← hh.codes b hb i hi]
    apply overlayAll_outside
    intro c' hc' hx
    obtain ⟨c, hc, rfl⟩ := List.mem_map.mp hc'
    have hx' := low_covers.mp hx
    have hin := inside_lt (h.inside c hc)
    obtain ⟨hpos, hsize⟩ := hbytes c hc
    -- no line above shows up as high as this, and a line below has other places
    have hlt : c.start < 4096 := by
      omega
    rw [low_of_lt hlt] at hx
    have hne : b ≠ c := by
      rintro rfl
      omega
    have hapart := h.apart.forall hb hc hne
    exact hapart.not_both (covers_iff.mpr ⟨i, hi, rfl⟩) hx
  refine ⟨hzero, pairwise_of_splits ?_⟩
  rintro l₁ b l₂ rfl a ha hhigh i hi k hk he
  have hb : b ∈ l₁ ++ b :: l₂ := by simp
  have ha' : a ∈ l₁ ++ b :: l₂ := by simp [ha]
  have hin := inside_lt (h.inside b hb)
  obtain ⟨hpos, hsize⟩ := hbytes b hb
  obtain ⟨-, htail, hcross⟩ := List.pairwise_append.mp h.apart
  obtain ⟨hbl, -⟩ := List.pairwise_cons.mp htail
  have hlow : a.start + k = b.low.start + i := by
    rw [low_start]
    omega
  have hcover : (overlayAll ((l₁ ++ b :: l₂).map Bin.low) fun _ => 0) (a.start + k) = b.codes i := by
    rw [List.map_append, List.map_cons, overlayAll_append, overlayAll_cons, overlayAll_outside]
    · rw [hlow]
      exact overlay_covered hi
    · intro c' hc' hx
      obtain ⟨c, hc, rfl⟩ := List.mem_map.mp hc'
      have hcin := inside_lt (h.inside c (by simp [hc]))
      by_cases hclow : c.start < 4096
      · rw [low_of_lt hclow] at hx
        exact (hcross a ha c (by simp [hc])).not_both (covers_iff.mpr ⟨k, hk, rfl⟩) hx
      · obtain ⟨j, hj, hjx⟩ := covers_iff.mp hx
        rw [low_start] at hjx
        have hj' : j < c.bytes := hj
        refine (hbl c hc).not_both (x := b.start + i) (covers_iff.mpr ⟨i, hi, rfl⟩)
          (covers_iff.mpr ⟨j, hj', ?_⟩)
        omega
  rw [← hh.codes a ha' k hk, hcover, hzero b hb hhigh i hi]

theorem emitted_printable {st : Asm} (h : ∀ l ∈ st.lines, Printable l) :
    ∀ b ∈ emitted st.lines, 0 < b.bytes ∧ b.bytes ≤ 10 := by
  intro b hb
  obtain ⟨l, hl, rfl⟩ := List.mem_map.mp hb
  obtain ⟨hl, he⟩ := List.mem_filter.mp hl
  have he := of_decide_eq_true he
  exact ⟨Nat.pos_of_ne_zero he.2, (h l hl).bytes⟩

/-- The listing, read into the zeroed memory, gives the bytes of the lines and 0 elsewhere. -/
def ListingSurvives (st : Asm) : Prop :=
  ∃ m cnt, load_mem init_mem (print_screen st) = some (m, cnt) ∧ Holds (emitted st.lines) m.contents

/-- The listing survives if and only if the lines above 0x1000 do no harm where their three
digits put them. -/
theorem the_listing_survives_iff {heap : Nat → Text} {input : Text} {st st' : Asm}
    (hst : assemble heap input = .ok st) (hst' : relocate st = .ok st')
    (h : Placed (emitted st'.lines)) : ListingSurvives st' ↔ SeenLow (emitted st'.lines) := by
  have hprint := printable_relocate (printable_assemble hst) hst'
  have hbytes := emitted_printable hprint
  unfold ListingSurvives
  rw [load_listing hprint]
  constructor
  · rintro ⟨m, cnt, he, hh⟩
    cases he
    exact seenLow_of_holds h hbytes hh
  · intro hlow
    obtain ⟨hcodes, hrest⟩ := overlayAll_holds h.apart fun _ => 0
    refine ⟨_, _, rfl, ?_⟩
    simp only [overlayAll_low h hbytes hlow]
    exact ⟨hcodes, hrest⟩

/-- The line above 0x1000 is read at 0x50, where it leaves a zero. -/
theorem a_moved_program_survives : ListingSurvives movedAsm := by
  apply (the_listing_survives_iff assemble_moved rfl placed_moved).mpr
  constructor
  · change ∀ b ∈ [xorBin 16, nopBin 0, haltBin 0x1050], 4096 ≤ b.start → ∀ i < b.bytes,
      b.codes i = 0
    decide
  · change [xorBin 16, nopBin 0, haltBin 0x1050].Pairwise fun a b => 4096 ≤ b.start →
      ∀ i < b.bytes, ∀ k < a.bytes, a.start + k + 4096 = b.start + i → a.codes k = 0
    decide

/-- An instruction behind the first 4096 bytes. -/
def highText : Text := ".pos 0x1000\nnop".toList

def highAsm : Asm where
  lines := [⟨TYPE_INS, posBin 4096, ".pos 0x1000".toList⟩,
    ⟨TYPE_INS, nopBin 4096, "nop".toList⟩]
  vmaddr := 4097
  symtab := []
  reltab := []
  allocs := 1

theorem a_high_line_is_read_low :
    assemble (fun _ => []) highText = .ok highAsm ∧ relocate highAsm = .ok highAsm ∧
      Placed (emitted highAsm.lines) ∧
      (∃ m, load_mem init_mem (print_screen highAsm) = some (m, 1) ∧ m.contents 0 = hpack 1 0 ∧
        m.contents 4096 = 0) ∧
      ¬ListingSurvives highAsm := by
  have hst : assemble (fun _ => []) highText = .ok highAsm := rfl
  have hload : load_mem init_mem (print_screen highAsm) = some
      ({ init_mem with contents := overlay (nopBin 0) 1 fun _ => 0 }, 1) :=
    load_listing (printable_assemble hst)
  refine ⟨hst, rfl, ⟨?_, List.pairwise_singleton _ _⟩, ⟨_, hload, rfl, rfl⟩, ?_⟩
  · intro b hb
    obtain rfl := List.mem_singleton.mp hb
    decide
  · rintro ⟨m, cnt, he, hh⟩
    rw [hload] at he
    cases he
    exact absurd (hh.codes (nopBin 4096) (List.mem_singleton_self _) 0 (by decide)) (by decide)

end ics_labs.asm
